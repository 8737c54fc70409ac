import Mathlib.Algebra.Order.BigOperators.Group.List
import Mathlib.Data.String.Basic
import Mathlib.Tactic.Linarith
import Mathlib.Tactic.NormNum
import Zcrypto.Engine.DraftPlan
import Zcrypto.Fallible

/- What a drafted plan is to the parser and to the walls that judge it: every leg reads back as the
   intent it stands for, unless a leg sells nothing. -/
namespace DraftPlans
open ProbePlans Orders Instruments Fallible

def intentOf (leg : LegDecision) : ProbeIntent :=
  if isSell leg then
    { symbol := leg.symbol, side := .sell, action := .closing, mode := .execute, notionalEur := none
      qty := leg.qty, leverage := none, offsetPct := none, holdMinutes := none }
  else
    { symbol := leg.symbol, side := .buy, action := .opening, mode := .execute
      notionalEur := leg.notionalEur, qty := none, leverage := none, offsetPct := none
      holdMinutes := none }

/-- A leg with something to trade. -/
def Sized (leg : LegDecision) : Prop :=
  if isSell leg then ∃ q, leg.qty = some q ∧ 0 < q else ∃ n, leg.notionalEur = some n ∧ 0 < n

/-- What the margin walls may say of any plan. -/
def marginReasons : List String :=
  ["free_zeur is not finite", "margin floor: required exceeds free_zeur"]

/-- The document parses to the legs it was built from, and no wall but the margin one refuses it at
    the instant it was drafted, the ledger not holding it yet. -/
def Acceptable (document : Doc) (legs : List LegDecision) (now : Int) (cap : ℚ) : Prop :=
  ∃ plan, parsePlan (some document) = .ok plan ∧ plan.intents = legs.map intentOf ∧
    ∀ ledgered free, plan.planId ∉ ledgered →
      ∀ reason ∈ planRefusals plan now ledgered (some cap) free, reason ∈ marginReasons

/- The parser. -/

theorem parseSymbol_name (p : Pair) : parseSymbol (.text p.name) = .ok p := by
  cases p <;> rfl

theorem parseIntent_sell {leg : LegDecision} {q : ℚ} (sell : isSell leg = true)
    (qty : leg.qty = some q) : parseIntent (intentDocument leg) =
      if 0 < q then .ok (intentOf leg)
      else .error (.field "qty" "must be a finite positive number") := by
  have side : parseSide (.text "sell") = .ok .sell := rfl
  have action : parseAction (.text "close") = .ok .closing := rfl
  have mode : parseMode (.text "execute") = .ok .execute := rfl
  simp only [intentDocument, sell, if_true, qty, amount, intentOf]
  by_cases pos : 0 < q
  all_goals simp [parseIntent, checkKeys, intentKeys, valueAt, List.lookup_cons, parseSymbol_name, bind,
    Except.bind, side, action, mode, Doc.isNull, parseAmount, parsePositiveNumber, positive, pos,
    parseLeverage, parseRest, Except.map]

theorem parseIntent_buy {leg : LegDecision} {n : ℚ} (buy : isSell leg = false)
    (notional : leg.notionalEur = some n) (pos : 0 < n) :
    parseIntent (intentDocument leg) = .ok (intentOf leg) := by
  have side : parseSide (.text "buy") = .ok .buy := rfl
  have action : parseAction (.text "open") = .ok .opening := rfl
  have mode : parseMode (.text "execute") = .ok .execute := rfl
  simp only [intentDocument, buy, Bool.false_eq_true, if_false, notional, amount, intentOf]
  simp [parseIntent, checkKeys, intentKeys, valueAt, List.lookup_cons, parseSymbol_name, bind,
    Except.bind, side, action, mode, Doc.isNull, parseAmount, parsePositiveNumber, positive, pos,
    parseLeverage, parseRest, Except.map]

theorem parseIntent_sized {leg : LegDecision} (sized : Sized leg) :
    parseIntent (intentDocument leg) = .ok (intentOf leg) := by
  unfold Sized at sized
  cases sell : isSell leg with
  | true =>
    rw [sell, if_pos rfl] at sized
    obtain ⟨q, qty, pos⟩ := sized
    rw [parseIntent_sell sell qty, if_pos pos]
  | false =>
    rw [sell, if_neg Bool.false_ne_true] at sized
    obtain ⟨n, notional, pos⟩ := sized
    exact parseIntent_buy sell notional pos

theorem mapM_sized {legs : List LegDecision} (sized : ∀ leg ∈ legs, Sized leg) :
    (legs.map intentDocument).mapM parseIntent = .ok (legs.map intentOf) := by
  rw [mapM_ok, List.forall₂_map_left_iff, List.forall₂_map_right_iff, List.forall₂_same]
  exact fun leg mem => parseIntent_sized (sized leg mem)

theorem parsePlanId_text {id : PlanId} (visible : id.toList.all DecimalText.isSpace = false) :
    parsePlanId (.text id) = .ok id := by
  simp [parsePlanId, Doc.text?, visible]

theorem parsePlan_document {id : PlanId} {now : Int} {legs : List LegDecision}
    (visible : id.toList.all DecimalText.isSpace = false) (some_legs : legs ≠ [])
    (sized : ∀ leg ∈ legs, Sized leg) :
    parsePlan (some (planDocument id now legs)) = .ok ⟨id, now, legs.map intentOf⟩ := by
  have read : parseIntents (.arr (legs.map intentDocument)) = .ok (legs.map intentOf) := by
    rw [← mapM_sized sized]
    cases legs with
    | nil => exact absurd rfl some_legs
    | cons leg rest => rfl
  simp [parsePlan, planDocument, checkKeys, planKeys, valueAt, List.lookup_cons, bind, Except.bind,
    parsePlanId_text visible, parseCreatedAt, read]

/-- One leg that sells nothing refuses the whole plan. -/
theorem parsePlan_empty_sell {id : PlanId} {now : Int} {legs : List LegDecision}
    {leg : LegDecision} {q : ℚ} (mem : leg ∈ legs) (sell : isSell leg = true)
    (qty : leg.qty = some q) (nothing : q ≤ 0) (plan : ProbePlan) :
    parsePlan (some (planDocument id now legs)) ≠ .ok plan := by
  intro parsed
  have split : parsePlan (some (planDocument id now legs)) = (do
      checkKeys [("plan_id", Doc.text id), ("created_at", .stamp (isoformat now) now true),
        ("intents", .arr (legs.map intentDocument))] planKeys
      let planId ← parsePlanId (.text id)
      let createdAt ← parseCreatedAt (.stamp (isoformat now) now true)
      let intents ← parseIntents (.arr (legs.map intentDocument))
      .ok { planId, createdAt, intents }) := rfl
  rw [split] at parsed
  simp only [bind_ok] at parsed
  obtain ⟨_, _, _, _, _, _, intents, read, _⟩ := parsed
  have each : (legs.map intentDocument).mapM parseIntent = .ok intents := by
    cases legs with
    | nil => cases mem
    | cons other rest => exact read
  obtain ⟨intent, _, first⟩ := mapM_ok_each each (List.mem_map_of_mem mem)
  rw [parseIntent_sell sell qty, if_neg (not_lt.mpr nothing)] at first
  cases first

/- One leg. -/

theorem le_roundHalfEven {n : Int} {x : ℚ} (h : (n : ℚ) ≤ x) : n ≤ roundHalfEven x := by
  have floor : n ≤ ⌊x⌋ := Int.le_floor.mpr h
  unfold roundHalfEven
  split_ifs <;> omega

theorem half_le_notional {x : ℚ} (h : minBuyEur ≤ x) :
    minBuyEur ≤ floorToStep (roundTo 9 x) cent := by
  unfold minBuyEur at h ⊢
  have nano : (500000000 : Int) ≤ roundHalfEven (x * 10 ^ 9) := by
    apply le_roundHalfEven
    norm_num
    linarith
  have rounded : (1 / 2 : ℚ) ≤ roundTo 9 x := by
    have wide : (500000000 : ℚ) ≤ roundHalfEven (x * 10 ^ 9) := by exact_mod_cast nano
    unfold roundTo
    generalize roundHalfEven (x * 10 ^ 9) = r at wide ⊢
    rw [le_div_iff₀ (by norm_num)]
    norm_num
    exact wide
  have whole : (50 : Int) ≤ ⌊roundTo 9 x / cent⌋ := by
    rw [Int.le_floor]
    unfold cent
    norm_num
    linarith
  have wide : (50 : ℚ) ≤ ⌊roundTo 9 x / cent⌋ := by exact_mod_cast whole
  unfold floorToStep
  unfold cent at wide ⊢
  linarith

/-- A placed leg is a buy of half a euro or more, or a sell of no less than the venue's minimum. -/
def Sound (d : LegDecision) : Prop :=
  d.outcome = .placed →
    (d.side = some .buy ∧ ∃ n, d.notionalEur = some n ∧ minBuyEur ≤ n) ∨
    (d.side = some .sell ∧ 0 < d.price ∧ 0 ≤ d.ordermin ∧ ∃ q, d.qty = some q ∧ d.ordermin ≤ q)

theorem carry_sound (d : LegDecision) : Sound d.carry := by
  intro placed
  cases placed

theorem decideBuy_sound {leg : LegDecision} (fresh : leg.outcome = .carried) :
    Sound (decideBuy leg) := by
  unfold decideBuy
  split
  · intro placed
    rw [fresh] at placed
    cases placed
  · rename_i enough
    intro _
    have floor : minBuyEur ≤ leg.deltaEur := le_trans (le_max_right _ _) (not_lt.mp enough)
    exact Or.inl ⟨rfl, _, rfl, half_le_notional floor⟩

section
variable {leg : LegDecision}

/-- The target is no less than nothing, so what is sold is no less than what is over it. -/
theorem over_le_sellQty (lot : 0 < leg.lotStep) (price : 0 < leg.price)
    (target : 0 ≤ leg.targetEur) : leg.overTarget ≤ leg.sellQty := by
  unfold LegDecision.sellQty
  split
  · apply floorToStep_mono lot
    have share : 0 ≤ leg.targetEur / leg.price := div_nonneg target price.le
    linarith
  · exact le_rfl

theorem decideSell_sound (fresh : leg.outcome = .carried) (lot : 0 < leg.lotStep)
    (price : 0 < leg.price) (target : 0 ≤ leg.targetEur) (ordermin : 0 ≤ leg.ordermin) :
    Sound (decideSell leg) := by
  have unplaced : Sound { leg with side := some .sell } := by
    intro placed
    rw [fresh] at placed
    cases placed
  have placed : ∀ qty, leg.ordermin ≤ qty → Sound (placeSell leg qty) :=
    fun qty enough _ => Or.inr ⟨rfl, price, ordermin, qty, rfl, enough⟩
  unfold decideSell
  split
  · exact unplaced
  · rename_i enough
    unfold sellUpToB
    split
    · split
      · exact unplaced
      · rename_i kept
        exact placed _ (not_lt.mp kept)
    · exact placed _ ((not_lt.mp enough).trans (over_le_sellQty lot price target))

theorem decideDelta_sound (fresh : leg.outcome = .carried) (lot : 0 < leg.lotStep)
    (price : 0 < leg.price) (target : 0 ≤ leg.targetEur) (ordermin : 0 ≤ leg.ordermin) :
    Sound (decideDelta leg) := by
  unfold decideDelta
  split
  · intro placed
    cases placed
  · split
    · exact decideBuy_sound fresh
    · exact decideSell_sound fresh lot price target ordermin

theorem decideLeg_sound {symbol : Pair} {weight price held b perWeight : ℚ} {c : Constraints}
    {exiting : Bool} (pos : 0 < price) (scale : 0 ≤ perWeight) :
    Sound (decideLeg symbol weight price c held b exiting perWeight) := by
  apply decideDelta_sound rfl c.lot_pos pos _ c.ordermin_nonneg
  show 0 ≤ if exiting then 0 else perWeight * max weight 0
  split
  · exact le_rfl
  · exact mul_nonneg scale (le_max_right _ _)

@[simp] theorem decideBuy_symbol : (decideBuy leg).symbol = leg.symbol := by
  unfold decideBuy
  split <;> rfl

@[simp] theorem decideSell_symbol : (decideSell leg).symbol = leg.symbol := by
  unfold decideSell sellUpToB
  split_ifs <;> rfl

@[simp] theorem decideLeg_symbol {symbol : Pair} {weight price held b perWeight : ℚ}
    {c : Constraints} {exiting : Bool} :
    (decideLeg symbol weight price c held b exiting perWeight).symbol = symbol := by
  unfold decideLeg decideDelta
  split_ifs <;> simp [freshLeg]

end

/- The trims. -/

theorem mem_smallestFirst {d : LegDecision} {legs : List LegDecision} :
    d ∈ smallestFirst legs ↔ d ∈ legs :=
  (List.perm_insertionSort Smaller legs).mem_iff

/-- A buy cut to fit, or carried. -/
inductive Cut (d : LegDecision) : LegDecision → Prop where
  | trimmed (kept : ℚ) (enough : d.buyFloor ≤ kept) : Cut d { d with notionalEur := some kept }
  | dropped : Cut d { d with outcome := .carried, notionalEur := none }

theorem mem_cutBuys {excess : Int} {buys : List LegDecision} {t : LegDecision}
    (mem : t ∈ cutBuys excess buys) : ∃ d ∈ buys, Cut d t := by
  induction buys generalizing excess with
  | nil => cases mem
  | cons leg rest ih =>
    unfold cutBuys at mem
    split at mem
    · cases mem
    · simp only at mem
      split at mem
      · rename_i enough
        rcases List.mem_cons.mp mem with same | later
        · subst same
          exact ⟨leg, List.mem_cons_self, .trimmed _ enough⟩
        · obtain ⟨d, there, cut⟩ := ih later
          exact ⟨d, List.mem_cons_of_mem _ there, cut⟩
      · rcases List.mem_cons.mp mem with same | later
        · subst same
          exact ⟨leg, List.mem_cons_self, .dropped⟩
        · obtain ⟨d, there, cut⟩ := ih later
          exact ⟨d, List.mem_cons_of_mem _ there, cut⟩

/-- Legs under symbols of their own. -/
def Apart (legs : List LegDecision) : Prop := (legs.map LegDecision.symbol).Nodup

theorem Apart.same {legs : List LegDecision} (apart : Apart legs) {a b : LegDecision}
    (left : a ∈ legs) (right : b ∈ legs) (same : a.symbol = b.symbol) : a = b :=
  List.inj_on_of_nodup_map apart left right same

theorem Apart.nodup {legs : List LegDecision} (apart : Apart legs) : legs.Nodup :=
  List.Nodup.of_map _ apart

theorem Apart.map {legs : List LegDecision} {f : LegDecision → LegDecision} (apart : Apart legs)
    (keeps : ∀ d, (f d).symbol = d.symbol) : Apart (legs.map f) := by
  unfold Apart
  rw [List.map_map]
  have same : LegDecision.symbol ∘ f = LegDecision.symbol := funext keeps
  rw [same]
  exact apart

section
variable {ds : List LegDecision} {freeEur reserve cap beside : ℚ} {d t : LegDecision}

theorem mem_trimBuysToCash (mem : t ∈ trimBuysToCash ds freeEur reserve) :
    ∃ d ∈ ds, t = d ∨ ∃ buy ∈ ds, buy.isPlaced .buy ∧ buy.symbol = d.symbol ∧ Cut buy t := by
  simp only [trimBuysToCash, List.mem_map] at mem
  obtain ⟨d, there, image⟩ := mem
  refine ⟨d, there, ?_⟩
  generalize found : List.find? _ _ = hit at image
  cases hit with
  | none => exact Or.inl image.symm
  | some cut =>
    have from_buys := List.mem_of_find?_eq_some found
    have named := List.find?_some found
    obtain ⟨buy, listed, is_cut⟩ := mem_cutBuys from_buys
    rw [mem_smallestFirst, List.mem_filter] at listed
    have same : cut.symbol = buy.symbol := by cases is_cut <;> rfl
    simp only [Option.getD_some] at image
    subst image
    right
    exact ⟨buy, listed.1, listed.2, by rw [← same]; simpa using named, is_cut⟩

theorem trimBuysToCash_apart (apart : Apart ds) (freeEur reserve : ℚ) :
    Apart (trimBuysToCash ds freeEur reserve) := by
  apply apart.map
  intro d
  generalize found : List.find? _ _ = hit
  cases hit with
  | none => rfl
  | some cut => simpa using List.find?_some found

theorem trimBuysToCash_sound (sound : ∀ d ∈ ds, Sound d) :
    ∀ t ∈ trimBuysToCash ds freeEur reserve, Sound t := by
  intro t mem
  obtain ⟨d, there, same | ⟨buy, listed, placed, _, cut⟩⟩ := mem_trimBuysToCash mem
  · subst same
    exact sound t there
  · have side : buy.side = some .buy := by
      have := placed
      simp only [LegDecision.isPlaced, decide_eq_true_eq] at this
      exact this.2
    cases cut with
    | trimmed kept enough =>
      exact fun _ => Or.inl ⟨side, kept, rfl, le_trans (le_max_right _ _) enough⟩
    | dropped =>
      intro placed
      cases placed

theorem isPlaced_iff {side : Side} :
    d.isPlaced side = true ↔ d.outcome = .placed ∧ d.side = some side := by
  simp [LegDecision.isPlaced]

/-- The sells are left as they were. -/
theorem sell_mem_trimBuysToCash (apart : Apart ds) (sell : d.isPlaced .sell) :
    d ∈ trimBuysToCash ds freeEur reserve ↔ d ∈ ds := by
  have sells := (isPlaced_iff.mp sell).2
  constructor
  · intro mem
    obtain ⟨other, there, same | ⟨buy, listed, placed, _, cut⟩⟩ := mem_trimBuysToCash mem
    · rw [same]
      exact there
    · have side := (isPlaced_iff.mp placed).2
      cases cut <;> simp_all
  · intro mem
    unfold trimBuysToCash
    simp only [List.mem_map]
    refine ⟨d, mem, ?_⟩
    generalize found : List.find? _ _ = hit
    cases hit with
    | none => rfl
    | some cut =>
      obtain ⟨buy, listed, is_cut⟩ := mem_cutBuys (List.mem_of_find?_eq_some found)
      rw [mem_smallestFirst, List.mem_filter] at listed
      have symbol : cut.symbol = d.symbol := by simpa using List.find?_some found
      have same : cut.symbol = buy.symbol := by cases is_cut <;> rfl
      have itself := apart.same listed.1 mem (same.symm.trans symbol)
      have side := (isPlaced_iff.mp listed.2).2
      rw [itself, sells] at side
      cases side

/- The cap. -/

theorem total_cons (leg : LegDecision) (rest : List LegDecision) :
    total (leg :: rest) = leg.eur + total rest := by
  simp [total]

theorem total_append (left right : List LegDecision) :
    total (left ++ right) = total left + total right := by
  simp [total]

theorem total_nonneg (each : ∀ d ∈ ds, 0 ≤ d.eur) : 0 ≤ total ds := by
  apply List.sum_nonneg
  intro x mem
  obtain ⟨d, there, same⟩ := List.mem_map.mp mem
  rw [← same]
  exact each d there

theorem total_filter_map {α : Type} (f : α → LegDecision) (p : LegDecision → Bool) (l : List α) :
    total ((l.map f).filter p) = (l.map fun a => if p (f a) then (f a).eur else 0).sum := by
  induction l with
  | nil => rfl
  | cons a rest ih =>
    rw [List.map_cons, List.map_cons, List.sum_cons, ← ih, List.filter_cons]
    split
    · rw [total_cons]
    · rw [zero_add]

theorem total_perm {left right : List LegDecision} (perm : left.Perm right) :
    total left = total right :=
  (perm.map LegDecision.eur).sum_eq

theorem fit_suffix : fit cap beside ds <:+ ds := by
  induction ds with
  | nil => exact List.suffix_rfl
  | cons leg rest ih =>
    unfold fit
    split
    · exact ih.trans (List.suffix_cons leg rest)
    · exact List.suffix_rfl

theorem fit_total (cap beside : ℚ) (ds : List LegDecision) :
    fit cap beside ds = [] ∨ beside + total (fit cap beside ds) ≤ cap := by
  induction ds with
  | nil => exact Or.inl rfl
  | cons leg rest ih =>
    unfold fit
    split
    · exact ih
    · rename_i fits
      exact Or.inr (not_lt.mp fits)

theorem fit_whole (fits : beside + total ds ≤ cap) : fit cap beside ds = ds := by
  cases ds with
  | nil => rfl
  | cons leg rest =>
    unfold fit
    exact if_neg (not_lt.mpr fits)

/-- Where the legs do not fit, those worth nothing are dropped first and to the last. -/
theorem fit_positive (sorted : ds.Pairwise fun a b => a.eur ≤ b.eur) (each : ∀ d ∈ ds, 0 ≤ d.eur)
    (above : cap < beside + total ds) : ∀ d ∈ fit cap beside ds, 0 < d.eur := by
  induction ds with
  | nil =>
    intro d mem
    cases mem
  | cons leg rest ih =>
    rw [List.pairwise_cons] at sorted
    unfold fit
    rw [if_pos above]
    rcases (each leg List.mem_cons_self).eq_or_lt with nothing | something
    · apply ih sorted.2 fun d mem => each d (List.mem_cons_of_mem _ mem)
      rw [total_cons, ← nothing, zero_add] at above
      exact above
    · intro d mem
      exact something.trans_le (sorted.1 d (fit_suffix.subset mem))

theorem smaller_total (a b : LegDecision) : Smaller a b ∨ Smaller b a := by
  rcases lt_trichotomy a.eur b.eur with less | same | more
  · exact Or.inl (Or.inl less)
  · rcases le_total a.symbol.name b.symbol.name with before | after
    · exact Or.inl (Or.inr ⟨same, before⟩)
    · exact Or.inr (Or.inr ⟨same.symm, after⟩)
  · exact Or.inr (Or.inl more)

theorem Smaller.trans {a b c : LegDecision} (one : Smaller a b) (other : Smaller b c) :
    Smaller a c := by
  rcases one with less | ⟨same, before⟩
  · rcases other with more | ⟨again, _⟩
    · exact Or.inl (less.trans more)
    · exact Or.inl (again ▸ less)
  · rcases other with more | ⟨again, after⟩
    · exact Or.inl (same ▸ more)
    · exact Or.inr ⟨same.trans again, before.trans after⟩

theorem smallestFirst_pairwise (ds : List LegDecision) : (smallestFirst ds).Pairwise Smaller := by
  have sorts : Std.Total Smaller := ⟨smaller_total⟩
  have chains : IsTrans LegDecision Smaller := ⟨fun _ _ _ => Smaller.trans⟩
  exact List.pairwise_insertionSort Smaller ds

theorem smallestFirst_sorted : (smallestFirst ds).Pairwise fun a b => a.eur ≤ b.eur := by
  apply (smallestFirst_pairwise ds).imp
  intro a b smaller
  rcases smaller with less | ⟨same, _⟩
  · exact less.le
  · exact same.le

def keptSells (ds : List LegDecision) (cap : ℚ) : List LegDecision :=
  fit cap 0 (smallestFirst (ds.filter (·.isPlaced .sell)))

def keptBuys (ds : List LegDecision) (cap : ℚ) : List LegDecision :=
  fit cap (total (keptSells ds cap)) (smallestFirst (ds.filter (·.isPlaced .buy)))

theorem mem_keptSells (mem : d ∈ keptSells ds cap) : d ∈ ds ∧ d.isPlaced .sell = true := by
  have there := fit_suffix.subset mem
  rw [mem_smallestFirst, List.mem_filter] at there
  exact there

theorem mem_keptBuys (mem : d ∈ keptBuys ds cap) : d ∈ ds ∧ d.isPlaced .buy = true := by
  have there := fit_suffix.subset mem
  rw [mem_smallestFirst, List.mem_filter] at there
  exact there

theorem trimToPlanCap_apart (apart : Apart ds) (cap : ℚ) : Apart (trimToPlanCap ds cap) := by
  apply apart.map
  intro d
  split <;> rfl

/-- The legs still placed are those kept. -/
theorem placed_mem_trimToPlanCap (apart : Apart ds) (placed : d.outcome = .placed) :
    d ∈ trimToPlanCap ds cap ↔ d ∈ keptSells ds cap ++ keptBuys ds cap := by
  have from_ds : ∀ k ∈ keptSells ds cap ++ keptBuys ds cap, k ∈ ds := by
    intro k mem
    rcases List.mem_append.mp mem with sell | buy
    · exact (mem_keptSells sell).1
    · exact (mem_keptBuys buy).1
  show d ∈ ds.map (fun d => if d.outcome = .placed ∧
    d.symbol ∉ (keptSells ds cap ++ keptBuys ds cap).map LegDecision.symbol then d.carry else d) ↔ _
  rw [List.mem_map]
  constructor
  · rintro ⟨other, there, image⟩
    split at image
    · subst image
      cases placed
    · rename_i stays
      subst image
      have named : other.symbol ∈ (keptSells ds cap ++ keptBuys ds cap).map LegDecision.symbol := by
        by_contra dropped
        exact stays ⟨placed, dropped⟩
      obtain ⟨kept, mem, symbol⟩ := List.mem_map.mp named
      rw [apart.same there (from_ds kept mem) symbol.symm]
      exact mem
  · intro mem
    refine ⟨d, from_ds d mem, ?_⟩
    rw [if_neg]
    rintro ⟨_, dropped⟩
    exact dropped (List.mem_map_of_mem mem)

theorem smallestFirst_nodup (apart : Apart ds) (side : Side) :
    (smallestFirst (ds.filter (·.isPlaced side))).Nodup :=
  (List.perm_insertionSort Smaller _).nodup_iff.mpr (apart.nodup.filter _)

theorem kept_nodup (apart : Apart ds) : (keptSells ds cap ++ keptBuys ds cap).Nodup := by
  rw [List.nodup_append]
  refine ⟨(smallestFirst_nodup apart .sell).sublist fit_suffix.sublist,
    (smallestFirst_nodup apart .buy).sublist fit_suffix.sublist, ?_⟩
  intro sell sells buy buys same
  have one := (isPlaced_iff.mp (mem_keptSells sells).2).2
  have other := (isPlaced_iff.mp (mem_keptBuys buys).2).2
  rw [same, other] at one
  cases one

/-- The legs of the plan are those kept, in the plan's order. -/
theorem placed_perm_kept (apart : Apart ds) (cap : ℚ) :
    (((trimToPlanCap ds cap).filter (·.outcome = .placed)).insertionSort PlanOrder).Perm
      (keptSells ds cap ++ keptBuys ds cap) := by
  apply (List.perm_insertionSort PlanOrder _).trans
  have nodup := (trimToPlanCap_apart apart cap).nodup.filter (·.outcome = .placed)
  rw [List.perm_ext_iff_of_nodup nodup (kept_nodup apart)]
  intro d
  rw [List.mem_filter, decide_eq_true_eq]
  constructor
  · rintro ⟨mem, placed⟩
    exact (placed_mem_trimToPlanCap apart placed).mp mem
  · intro mem
    have placed : d.outcome = .placed := by
      rcases List.mem_append.mp mem with sell | buy
      · exact (isPlaced_iff.mp (mem_keptSells sell).2).1
      · exact (isPlaced_iff.mp (mem_keptBuys buy).2).1
    exact ⟨(placed_mem_trimToPlanCap apart placed).mpr mem, placed⟩

/-- The sells before and after the cash trim are the same legs. -/
theorem sells_perm (apart : Apart ds) (freeEur reserve : ℚ) :
    ((trimBuysToCash ds freeEur reserve).filter (·.isPlaced .sell)).Perm
      (ds.filter (·.isPlaced .sell)) := by
  have after := (trimBuysToCash_apart apart freeEur reserve).nodup
  rw [List.perm_ext_iff_of_nodup (after.filter _) (apart.nodup.filter _)]
  intro d
  rw [List.mem_filter, List.mem_filter]
  constructor
  · rintro ⟨mem, sell⟩
    exact ⟨(sell_mem_trimBuysToCash apart sell).mp mem, sell⟩
  · rintro ⟨mem, sell⟩
    exact ⟨(sell_mem_trimBuysToCash apart sell).mpr mem, sell⟩

/-- A sound buy's worth is what it declares, and a sound sell's is no less than nothing. -/
theorem Sound.eur_buy (sound : Sound d) (buy : d.isPlaced .buy) :
    ∃ n, d.notionalEur = some n ∧ d.eur = n ∧ 0 < n := by
  obtain ⟨placed, side⟩ := isPlaced_iff.mp buy
  rcases sound placed with ⟨_, n, notional, floor⟩ | ⟨sells, _⟩
  · refine ⟨n, notional, ?_, ?_⟩
    · simp [LegDecision.eur, side, notional]
    · unfold minBuyEur at floor
      linarith
  · rw [side] at sells
    cases sells

theorem Sound.eur_sell (sound : Sound d) (sell : d.isPlaced .sell) :
    ∃ q, d.qty = some q ∧ d.eur = q * d.price ∧ 0 < d.price ∧ 0 ≤ d.ordermin ∧ d.ordermin ≤ q := by
  obtain ⟨placed, side⟩ := isPlaced_iff.mp sell
  rcases sound placed with ⟨buys, _⟩ | ⟨_, price, ordermin, q, qty, enough⟩
  · rw [side] at buys
    cases buys
  · exact ⟨q, qty, by simp [LegDecision.eur, side, qty], price, ordermin, enough⟩

theorem Sound.eur_nonneg (sound : Sound d) (placed : d.outcome = .placed) : 0 ≤ d.eur := by
  rcases sound placed with ⟨side, _⟩ | ⟨side, _⟩
  · obtain ⟨n, _, same, pos⟩ := sound.eur_buy (isPlaced_iff.mpr ⟨placed, side⟩)
    rw [same]
    exact pos.le
  · obtain ⟨q, _, same, price, ordermin, enough⟩ :=
      sound.eur_sell (isPlaced_iff.mpr ⟨placed, side⟩)
    rw [same]
    exact mul_nonneg (ordermin.trans enough) price.le

/-- What a leg's intent declares. -/
def declared (leg : LegDecision) : ℚ := (intentOf leg).notionalEur.getD 0

theorem declared_le_eur (sound : Sound d) (placed : d.outcome = .placed) : declared d ≤ d.eur := by
  rcases sound placed with ⟨side, _⟩ | ⟨side, _⟩
  · obtain ⟨n, notional, same, _⟩ := sound.eur_buy (isPlaced_iff.mpr ⟨placed, side⟩)
    rw [same]
    simp [declared, intentOf, isSell, side, notional]
  · have nonneg := sound.eur_nonneg placed
    simpa [declared, intentOf, isSell, side] using nonneg

theorem declared_sell (side : d.side = some .sell) : declared d = 0 := by
  simp [declared, intentOf, isSell, side]

/-- Plans of sound legs declare no more than they are worth. -/
theorem declared_le_total (sound : ∀ d ∈ ds, Sound d) (placed : ∀ d ∈ ds, d.outcome = .placed) :
    (ds.map declared).sum ≤ total ds := by
  apply List.sum_le_sum
  exact fun d mem => declared_le_eur (sound d mem) (placed d mem)

/-- What is kept declares no more than the cap. -/
theorem declared_kept (sound : ∀ d ∈ ds, Sound d) (pos : 0 ≤ cap) :
    ((keptSells ds cap ++ keptBuys ds cap).map declared).sum ≤ cap := by
  have sells : ((keptSells ds cap).map declared).sum = 0 := by
    apply List.sum_eq_zero
    intro x mem
    obtain ⟨d, there, same⟩ := List.mem_map.mp mem
    rw [← same]
    exact declared_sell (isPlaced_iff.mp (mem_keptSells there).2).2
  have buys : ((keptBuys ds cap).map declared).sum ≤ total (keptBuys ds cap) := by
    apply declared_le_total
    · exact fun d mem => sound d (mem_keptBuys mem).1
    · exact fun d mem => (isPlaced_iff.mp (mem_keptBuys mem).2).1
  have worth : 0 ≤ total (keptSells ds cap) := by
    apply total_nonneg
    intro d mem
    obtain ⟨there, sell⟩ := mem_keptSells mem
    exact (sound d there).eur_nonneg (isPlaced_iff.mp sell).1
  rw [List.map_append, List.sum_append, sells, zero_add]
  rcases fit_total cap (total (keptSells ds cap)) (smallestFirst (ds.filter (·.isPlaced .buy)))
    with none_left | fits
  · have empty : keptBuys ds cap = [] := none_left
    rw [empty]
    exact pos
  · have fits : total (keptSells ds cap) + total (keptBuys ds cap) ≤ cap := fits
    linarith

end

/- The plans. -/

section
variable {most : Option Nat} {cap : ℚ} {legs ds : List LegDecision} {leg : LegDecision}

theorem deal_unbounded (current : List LegDecision) (done : List (List LegDecision)) (sum : ℚ) :
    deal none none legs (current :: done) sum =
      .ok (((current ++ legs) :: done).reverse) := by
  induction legs generalizing current sum with
  | nil => simp [deal]
  | cons leg rest ih =>
    unfold deal
    simp [ih]

/-- The one plan of some legs, and of none no plan. -/
def onePlan : List LegDecision → List (List LegDecision)
  | [] => []
  | leg :: rest => [leg :: rest]

/-- With neither bound, every placed leg is in the one plan. -/
theorem assemblePlans_unbounded : assemblePlans ds none none =
    .ok (onePlan ((ds.filter (·.outcome = .placed)).insertionSort PlanOrder)) := by
  unfold assemblePlans
  generalize (ds.filter (·.outcome = .placed)).insertionSort PlanOrder = ordered
  cases ordered with
  | nil => rfl
  | cons leg rest =>
    unfold deal
    simp [deal_unbounded, onePlan]

/-- A plan under way: no empty one, none over the cap, every leg one of those dealt. -/
structure Dealt (cap : ℚ) (from_ : LegDecision → Prop) (plan : List LegDecision) : Prop where
  some_legs : plan ≠ []
  under : total plan ≤ cap
  legs : ∀ leg ∈ plan, from_ leg

theorem Dealt.start {from_ : LegDecision → Prop} (under : leg.eur ≤ cap) (mem : from_ leg) :
    Dealt cap from_ [leg] := by
  refine ⟨List.cons_ne_nil _ _, ?_, ?_⟩
  · simpa [total] using under
  · simpa using mem

theorem deal_dealt {from_ : LegDecision → Prop} (each : ∀ leg ∈ legs, from_ leg)
    {plans result : List (List LegDecision)} {sum : ℚ} (dealt : ∀ plan ∈ plans, Dealt cap from_ plan)
    (running : ∀ current done, plans = current :: done → sum = total current)
    (ok : deal most (some cap) legs plans sum = .ok result) :
    ∀ plan ∈ result, Dealt cap from_ plan := by
  induction legs generalizing plans sum with
  | nil =>
    simp only [deal, Except.ok.injEq] at ok
    subst ok
    intro plan mem
    exact dealt plan (List.mem_reverse.mp mem)
  | cons leg rest ih =>
    have first := each leg List.mem_cons_self
    have others := fun other mem => each other (List.mem_cons_of_mem leg mem)
    unfold deal at ok
    split at ok
    · cases ok
    · rename_i under
      have under : leg.eur ≤ cap := by simpa using under
      have alone : Dealt cap from_ [leg] := .start under first
      have worth : leg.eur = total [leg] := by simp [total]
      split at ok
      · apply ih others _ _ ok
        · simpa using alone
        · rintro current done same
          injection same with same
          rw [← same, worth]
      · rename_i current done
        split at ok
        · apply ih others _ _ ok
          · intro plan mem
            rcases List.mem_cons.mp mem with same | older
            · rw [same]
              exact alone
            · exact dealt plan older
          · rintro newest older same
            injection same with same
            rw [← same, worth]
        · rename_i room
          have running := running current done rfl
          have fits : sum + leg.eur ≤ cap := by
            simp only [Option.any_some, decide_eq_true_eq, not_or, not_lt] at room
            exact room.2
          have grown : sum + leg.eur = total (current ++ [leg]) := by
            rw [total_append, ← running, ← worth]
          apply ih others _ _ ok
          · intro plan mem
            rcases List.mem_cons.mp mem with same | older
            · rw [same]
              refine ⟨by simp, grown ▸ fits, ?_⟩
              intro other there
              rcases List.mem_append.mp there with before | last
              · exact (dealt current List.mem_cons_self).legs other before
              · rw [List.mem_singleton.mp last]
                exact first
            · exact dealt plan (List.mem_cons_of_mem _ older)
          · rintro newest older same
            injection same with same
            rw [← same, grown]

end

end DraftPlans
