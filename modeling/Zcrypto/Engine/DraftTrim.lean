import Zcrypto.Engine.DraftLaws

/- What the trim to the cash does to a table: the smallest buys are carried, at most one is cut, the larger
   ones stand, and what is left is within the budget. -/
namespace DraftPlans
open ProbePlans Orders Instruments

/-- What the trim has to spend, in whole cents. -/
def budgetCents (freeEur reserve : ℚ) : Int :=
  if reserve < freeEur then cents (floorToStep (roundTo 9 (freeEur - reserve)) cent) else 0

def LegDecision.cents (d : LegDecision) : Int := DraftPlans.cents (d.notionalEur.getD 0)

def sumCents (legs : List LegDecision) : Int := (legs.map LegDecision.cents).sum

def placedBuys (legs : List LegDecision) : List LegDecision := legs.filter (·.isPlaced .buy)

/-- A buy left to a later draft. -/
def LegDecision.dropped (d : LegDecision) : LegDecision :=
  { d with outcome := .carried, notionalEur := none }

def LegDecision.cutTo (d : LegDecision) (kept : ℚ) : LegDecision := { d with notionalEur := some kept }

/-- A leg as it was decided, before any trim. -/
def Decided (d : LegDecision) : Prop :=
  ∃ symbol weight price c krakenHeld venueB exiting perWeight,
    d = decideLeg symbol weight price c krakenHeld venueB exiting perWeight

/- Whole cents. -/

theorem roundHalfEven_int (n : Int) : roundHalfEven n = n := by
  have floor : ⌊(n : ℚ)⌋ = n := Int.floor_intCast n
  unfold roundHalfEven
  rw [floor, if_pos]
  norm_num

theorem cents_whole (n : Int) : cents ((n : ℚ) / 100) = n := by
  have same : (n : ℚ) / 100 * 100 = n := by ring
  rw [cents, same, roundHalfEven_int]

theorem roundHalfEven_nonneg {x : ℚ} (nonneg : 0 ≤ x) : 0 ≤ roundHalfEven x := by
  have floor : 0 ≤ ⌊x⌋ := Int.floor_nonneg.mpr nonneg
  unfold roundHalfEven
  split
  · exact floor
  · split
    · omega
    · split
      · exact floor
      · omega

theorem budgetCents_nonneg (freeEur reserve : ℚ) : 0 ≤ budgetCents freeEur reserve := by
  unfold budgetCents
  split
  · rename_i some_
    have nine : 0 ≤ roundTo 9 (freeEur - reserve) := by
      apply div_nonneg _ (by norm_num)
      have whole : 0 ≤ roundHalfEven ((freeEur - reserve) * 10 ^ 9) :=
        roundHalfEven_nonneg (mul_nonneg (by linarith) (by norm_num))
      exact_mod_cast whole
    have step : 0 ≤ floorToStep (roundTo 9 (freeEur - reserve)) cent :=
      Instruments.floorToStep_nonneg (by norm_num [cent]) nine
    exact roundHalfEven_nonneg (mul_nonneg step (by norm_num))
  · exact le_rfl

/- The cuts. -/

/-- How a pass over the buys, the smallest first, parts them: those dropped, the one cut, and those kept. -/
structure Trim (excess : Int) (buys dropped cut kept : List LegDecision) (cutAt : ℚ) : Prop where
  parts : buys = dropped ++ cut ++ kept
  single : cut.length ≤ 1
  result : cutBuys excess buys = dropped.map LegDecision.dropped ++ cut.map (·.cutTo cutAt)
  enough : ∀ d ∈ cut, d.buyFloor ≤ cutAt
  less : ∀ d ∈ cut, cutAt < d.cents / 100
  whole : ∃ n : Int, cutAt = (n : ℚ) / 100
  left : sumCents (cut.map (·.cutTo cutAt)) + sumCents kept ≤ sumCents buys - excess

theorem sumCents_cons (d : LegDecision) (legs : List LegDecision) :
    sumCents (d :: legs) = d.cents + sumCents legs := List.sum_cons

theorem cutBuys_trim {excess : Int} {buys : List LegDecision} (budget : 0 ≤ sumCents buys - excess) :
    ∃ dropped cut kept cutAt, Trim excess buys dropped cut kept cutAt := by
  induction buys generalizing excess with
  | nil =>
    exact ⟨[], [], [], 0, rfl, by simp, rfl, by simp, by simp, ⟨0, by simp⟩,
      by simpa [sumCents] using budget⟩
  | cons leg rest ih =>
    rw [sumCents_cons] at budget
    by_cases fits : excess ≤ 0
    · refine ⟨[], [], leg :: rest, 0, rfl, by simp, ?_, by simp, by simp, ⟨0, by simp⟩, ?_⟩
      · rw [cutBuys, if_pos fits]
        rfl
      · have none : sumCents (([] : List LegDecision).map (·.cutTo 0)) = 0 := rfl
        rw [none]
        omega
    · by_cases enough : leg.buyFloor ≤ ((leg.cents - excess : Int) : ℚ) / 100
      · refine ⟨[], [leg], rest, ((leg.cents - excess : Int) : ℚ) / 100, rfl, by simp, ?_, ?_, ?_,
          ⟨_, rfl⟩, ?_⟩
        · have rest_whole : cutBuys 0 rest = [] := by
            cases rest with
            | nil => rfl
            | cons next later => rw [cutBuys, if_pos le_rfl]
          rw [cutBuys, if_neg fits]
          push_cast at enough ⊢
          simp only [LegDecision.cents] at enough ⊢
          rw [if_pos enough, rest_whole]
          rfl
        · intro d mem
          rw [List.mem_singleton.mp mem]
          exact enough
        · intro d mem
          rw [List.mem_singleton.mp mem]
          have fewer : ((leg.cents - excess : Int) : ℚ) < leg.cents := by
            exact_mod_cast (by omega : leg.cents - excess < leg.cents)
          linarith
        · have cut : (leg.cutTo (((leg.cents - excess : Int) : ℚ) / 100)).cents = leg.cents - excess :=
            cents_whole _
          rw [List.map_singleton, sumCents_cons, sumCents_cons, cut]
          have none : sumCents [] = 0 := rfl
          omega
      · have room : 0 ≤ sumCents rest - (excess - leg.cents) := by omega
        obtain ⟨dropped, cut, kept, cutAt, trim⟩ := ih room
        refine ⟨leg :: dropped, cut, kept, cutAt, ?_, trim.single, ?_, trim.enough, trim.less,
          trim.whole, ?_⟩
        · rw [trim.parts]
          rfl
        · rw [cutBuys, if_neg fits]
          push_cast at enough
          have result := trim.result
          simp only [LegDecision.cents] at enough result ⊢
          rw [if_neg enough, result]
          rfl
        · have left := trim.left
          rw [sumCents_cons]
          omega

section
variable {ds dropped cut kept : List LegDecision} {cutAt freeEur reserve : ℚ} {d : LegDecision}

/- The table. -/

/-- What the trim makes of a leg. -/
def LegDecision.trimmed (dropped cut : List LegDecision) (cutAt : ℚ) (d : LegDecision) : LegDecision :=
  if d ∈ dropped then d.dropped else if d ∈ cut then d.cutTo cutAt else d

theorem find_map {legs : List LegDecision} {f : LegDecision → LegDecision} (apart : Apart legs)
    (keeps : ∀ d, (f d).symbol = d.symbol) (mem : d ∈ legs) :
    (legs.map f).find? (·.symbol = d.symbol) = some (f d) := by
  induction legs with
  | nil => cases mem
  | cons leg rest ih =>
    rw [List.map_cons, List.find?_cons]
    by_cases same : leg.symbol = d.symbol
    · have itself : leg = d := apart.same List.mem_cons_self mem same
      simp [keeps, itself]
    · have later : d ∈ rest := by
        rcases List.mem_cons.mp mem with first | later
        · exact absurd (congrArg LegDecision.symbol first.symm) same
        · exact later
      have tail : Apart rest := (List.nodup_cons.mp apart).2
      simp [keeps, same, ih tail later]

theorem find_map_none {legs : List LegDecision} {f : LegDecision → LegDecision}
    (keeps : ∀ d, (f d).symbol = d.symbol) (other : ∀ leg ∈ legs, leg.symbol ≠ d.symbol) :
    (legs.map f).find? (·.symbol = d.symbol) = none := by
  rw [List.find?_eq_none]
  intro image mem
  obtain ⟨leg, there, same⟩ := List.mem_map.mp mem
  rw [← same]
  simp [keeps, other leg there]

theorem buys_apart (apart : Apart ds) : Apart (smallestFirst (placedBuys ds)) := by
  have perm := List.perm_insertionSort Smaller (placedBuys ds)
  have named := (perm.map LegDecision.symbol).nodup_iff
  exact named.mpr (apart.sublist (List.filter_sublist.map _))

theorem sumCents_perm {left right : List LegDecision} (perm : left.Perm right) :
    sumCents left = sumCents right :=
  (perm.map LegDecision.cents).sum_eq

theorem trimBuysToCash_eq (ds : List LegDecision) (freeEur reserve : ℚ) :
    trimBuysToCash ds freeEur reserve = ds.map fun d =>
      ((cutBuys (sumCents (placedBuys ds) - budgetCents freeEur reserve)
        (smallestFirst (placedBuys ds))).find? (·.symbol = d.symbol)).getD d := by
  have same := sumCents_perm (List.perm_insertionSort Smaller (placedBuys ds))
  rw [← same]
  rfl

theorem trimmed_placed (placed : (d.trimmed dropped cut cutAt).isPlaced .buy) :
    d.isPlaced .buy = true := by
  unfold LegDecision.trimmed at placed
  split at placed
  · cases placed
  · split at placed
    · exact placed
    · exact placed

theorem buy_mem_placedBuys : d ∈ placedBuys ds ↔ d ∈ ds ∧ d.isPlaced .buy := List.mem_filter

/-- Each leg of the table is dropped, cut or left, by what the pass over the buys made of it. -/
theorem trim_result (apart : Apart ds)
    (trim : Trim (sumCents (placedBuys ds) - budgetCents freeEur reserve)
      (smallestFirst (placedBuys ds)) dropped cut kept cutAt) :
    trimBuysToCash ds freeEur reserve = ds.map (LegDecision.trimmed dropped cut cutAt) := by
  have buys := buys_apart apart
  rw [trim.parts] at buys
  have front : Apart (dropped ++ cut) := by
    unfold Apart at buys ⊢
    rw [List.map_append] at buys
    exact (List.nodup_append.mp buys).1
  have listed : ∀ leg ∈ dropped ++ cut, leg ∈ ds := by
    intro leg mem
    have buy : leg ∈ smallestFirst (placedBuys ds) := by
      rw [trim.parts]
      exact List.mem_append_left _ mem
    exact (buy_mem_placedBuys.mp (mem_smallestFirst.mp buy)).1
  have drops : ∀ leg : LegDecision, leg.dropped.symbol = leg.symbol := fun _ => rfl
  have cuts : ∀ leg : LegDecision, (leg.cutTo cutAt).symbol = leg.symbol := fun _ => rfl
  rw [trimBuysToCash_eq, trim.result]
  apply List.map_congr_left
  intro d there
  unfold LegDecision.trimmed
  rw [List.find?_append]
  by_cases gone : d ∈ dropped
  · have apart_dropped : Apart dropped := by
      unfold Apart at front ⊢
      rw [List.map_append] at front
      exact (List.nodup_append.mp front).1
    rw [find_map apart_dropped drops gone, if_pos gone]
    rfl
  · have not_dropped : ∀ leg ∈ dropped, leg.symbol ≠ d.symbol := by
      intro leg mem same
      have itself := apart.same (listed leg (List.mem_append_left _ mem)) there same
      exact gone (itself ▸ mem)
    rw [find_map_none drops not_dropped, if_neg gone]
    by_cases partly : d ∈ cut
    · have apart_cut : Apart cut := by
        unfold Apart at front ⊢
        rw [List.map_append] at front
        exact (List.nodup_append.mp front).2.1
      rw [find_map apart_cut cuts partly, if_pos partly]
      rfl
    · have not_cut : ∀ leg ∈ cut, leg.symbol ≠ d.symbol := by
        intro leg mem same
        have itself := apart.same (listed leg (List.mem_append_right _ mem)) there same
        exact partly (itself ▸ mem)
      rw [find_map_none cuts not_cut, if_neg partly]
      rfl

theorem placedBuys_map {f : LegDecision → LegDecision} (legs : List LegDecision)
    (only : ∀ d, (f d).isPlaced .buy → d.isPlaced .buy = true) :
    placedBuys (legs.map f) = placedBuys ((placedBuys legs).map f) := by
  induction legs with
  | nil => rfl
  | cons leg rest ih =>
    unfold placedBuys at ih ⊢
    by_cases buy : leg.isPlaced .buy = true
    · rw [List.filter_cons_of_pos (a := leg) buy, List.map_cons, List.map_cons, List.filter_cons,
        List.filter_cons, ih]
    · have image : ¬ (f leg).isPlaced .buy = true := fun placed => buy (only leg placed)
      rw [List.filter_cons_of_neg (a := leg) buy, List.map_cons, List.filter_cons_of_neg (a := f leg) image, ih]

/-- The buys still placed are the one cut and those kept. -/
theorem trim_placed (apart : Apart ds)
    (trim : Trim (sumCents (placedBuys ds) - budgetCents freeEur reserve)
      (smallestFirst (placedBuys ds)) dropped cut kept cutAt) :
    (placedBuys (trimBuysToCash ds freeEur reserve)).Perm (cut.map (·.cutTo cutAt) ++ kept) := by
  have nodup := (buys_apart apart).nodup
  rw [trim.parts, List.append_assoc] at nodup
  obtain ⟨_, later, away⟩ := List.nodup_append.mp nodup
  have each : ∀ leg ∈ dropped ++ (cut ++ kept), leg.isPlaced .buy = true := by
    intro leg mem
    rw [← List.append_assoc, ← trim.parts] at mem
    exact (buy_mem_placedBuys.mp (mem_smallestFirst.mp mem)).2
  have sorted := List.perm_insertionSort Smaller (placedBuys ds)
  have parts : (placedBuys ds).Perm (dropped ++ (cut ++ kept)) := by
    rw [← List.append_assoc, ← trim.parts]
    exact sorted.symm
  rw [trim_result apart trim, placedBuys_map ds fun _ => trimmed_placed]
  have image := (parts.map (LegDecision.trimmed dropped cut cutAt)).filter (·.isPlaced .buy)
  refine image.trans ?_
  rw [List.map_append, List.map_append, List.filter_append, List.filter_append]
  have first : (dropped.map (LegDecision.trimmed dropped cut cutAt)).filter (·.isPlaced .buy) = [] := by
    rw [List.filter_eq_nil_iff]
    intro leg mem
    obtain ⟨old, there, same⟩ := List.mem_map.mp mem
    rw [← same, LegDecision.trimmed, if_pos there]
    exact Bool.false_ne_true
  have second : (cut.map (LegDecision.trimmed dropped cut cutAt)).filter (·.isPlaced .buy) =
      cut.map (·.cutTo cutAt) := by
    have same : cut.map (LegDecision.trimmed dropped cut cutAt) = cut.map (·.cutTo cutAt) := by
      apply List.map_congr_left
      intro leg mem
      have stays : leg ∉ dropped := fun gone => away _ gone _ (List.mem_append_left _ mem) rfl
      rw [LegDecision.trimmed, if_neg stays, if_pos mem]
    rw [same, List.filter_eq_self]
    intro leg mem
    obtain ⟨old, there, same⟩ := List.mem_map.mp mem
    rw [← same]
    exact each old (List.mem_append_right _ (List.mem_append_left _ there))
  have third : (kept.map (LegDecision.trimmed dropped cut cutAt)).filter (·.isPlaced .buy) = kept := by
    have same : kept.map (LegDecision.trimmed dropped cut cutAt) = kept := by
      rw [List.map_congr_left, List.map_id]
      intro leg mem
      have stays : leg ∉ dropped := fun gone => away _ gone _ (List.mem_append_right _ mem) rfl
      have whole : leg ∉ cut := fun part => (List.nodup_append.mp later).2.2 _ part _ mem rfl
      rw [LegDecision.trimmed, if_neg stays, if_neg whole]
      rfl
    rw [same, List.filter_eq_self]
    intro leg mem
    exact each leg (List.mem_append_right _ (List.mem_append_right _ mem))
  rw [first, second, third, List.nil_append]

/-- Where the buys fit the budget, nothing is trimmed. -/
theorem trim_fits (fits : sumCents (placedBuys ds) ≤ budgetCents freeEur reserve) :
    trimBuysToCash ds freeEur reserve = ds := by
  have none : cutBuys (sumCents (placedBuys ds) - budgetCents freeEur reserve)
      (smallestFirst (placedBuys ds)) = [] := by
    cases smallestFirst (placedBuys ds) with
    | nil => rfl
    | cons leg rest => rw [cutBuys, if_pos (by omega)]
  rw [trimBuysToCash_eq, none]
  exact List.map_id _

theorem trim_within (apart : Apart ds) (freeEur reserve : ℚ) :
    sumCents (placedBuys (trimBuysToCash ds freeEur reserve)) ≤ budgetCents freeEur reserve := by
  have sorted := sumCents_perm (List.perm_insertionSort Smaller (placedBuys ds))
  have sorted : sumCents (smallestFirst (placedBuys ds)) = sumCents (placedBuys ds) := sorted
  have budget := budgetCents_nonneg freeEur reserve
  have room : 0 ≤ sumCents (smallestFirst (placedBuys ds)) -
      (sumCents (placedBuys ds) - budgetCents freeEur reserve) := by omega
  obtain ⟨dropped, cut, kept, cutAt, trim⟩ := cutBuys_trim room
  have left := trim.left
  have placed := sumCents_perm (trim_placed apart trim)
  have split : sumCents (cut.map (·.cutTo cutAt) ++ kept) =
      sumCents (cut.map (·.cutTo cutAt)) + sumCents kept := by
    unfold sumCents
    rw [List.map_append, List.sum_append]
  omega

/- A leg as it was decided. -/

theorem le_roundHalfEven_half (x : ℚ) : x ≤ roundHalfEven x + 1 / 2 := by
  have above := Int.lt_floor_add_one x
  unfold roundHalfEven
  split_ifs <;> push_cast <;> linarith

theorem le_roundTo_nine (x : ℚ) : x < roundTo 9 x + 1 / 10 ^ 9 := by
  have half := le_roundHalfEven_half (x * 10 ^ 9)
  unfold roundTo
  generalize (roundHalfEven (x * 10 ^ 9) : ℚ) = r at half
  have scaled : x * 10 ^ 9 < (r / 10 ^ 9 + 1 / 10 ^ 9) * 10 ^ 9 := by
    rw [add_mul, div_mul_cancel₀ _ (by norm_num), div_mul_cancel₀ _ (by norm_num)]
    linarith
  exact lt_of_mul_lt_mul_right scaled (by norm_num)

/-- A buy as decided is declared in whole cents, less than a cent and a nano under its floor. -/
theorem Decided.buy (decided : Decided d) (placed : d.isPlaced .buy) :
    ∃ n : Int, d.notionalEur = some ((n : ℚ) / 100) ∧
      d.buyFloor < (n : ℚ) / 100 + 1 / 100 + 1 / 10 ^ 9 := by
  obtain ⟨leg, fresh, same⟩ : ∃ leg : LegDecision, leg.outcome = .carried ∧ d = decideDelta leg := by
    obtain ⟨_, _, _, _, _, _, _, _, same⟩ := decided
    exact ⟨_, rfl, same⟩
  obtain ⟨outcome, side⟩ := isPlaced_iff.mp placed
  unfold decideDelta at same
  split at same
  · rw [same] at outcome
    cases outcome
  · split at same
    · unfold decideBuy at same
      split at same
      · rw [same] at outcome
        rw [fresh] at outcome
        cases outcome
      · rename_i enough
        have declared : floorToStep (roundTo 9 leg.deltaEur) cent =
            (⌊roundTo 9 leg.deltaEur / cent⌋ : ℚ) / 100 := by
          unfold floorToStep cent
          ring
        refine ⟨⌊roundTo 9 leg.deltaEur / cent⌋, ?_, ?_⟩
        · rw [same, ← declared]
        · have floor : d.buyFloor = leg.buyFloor := by
            rw [same]
            rfl
          have nano := le_roundTo_nine leg.deltaEur
          have step := lt_floorToStep_add (by norm_num [cent] : (0 : ℚ) < cent)
            (roundTo 9 leg.deltaEur)
          rw [floor, ← declared]
          unfold cent at step ⊢
          linarith [not_lt.mp enough]
    · have sells : (decideSell leg).side = some .sell := by
        unfold decideSell sellUpToB placeSell
        split_ifs <;> rfl
      rw [same, sells] at side
      cases side

/- The law. -/

/-- What the trim to the cash does to a table. The placed buys, the smaller first, are those dropped, the
    one cut to `cutAt`, and those kept. -/
structure CashTrim (ds : List LegDecision) (freeEur reserve : ℚ) (dropped cut kept : List LegDecision)
    (cutAt : ℚ) : Prop where
  buys : (dropped ++ cut ++ kept).Perm (placedBuys ds)
  ascending : (dropped ++ cut ++ kept).Pairwise Smaller
  single : cut.length ≤ 1
  part : ∀ d ∈ cut, d.buyFloor ≤ cutAt ∧ cutAt < d.notionalEur.getD 0
  table : trimBuysToCash ds freeEur reserve = ds.map (LegDecision.trimmed dropped cut cutAt)
  others : ∀ d : LegDecision, ¬ d.isPlaced .buy → d.trimmed dropped cut cutAt = d
  within : ((placedBuys (trimBuysToCash ds freeEur reserve)).map (·.notionalEur.getD 0)).sum ≤
    (budgetCents freeEur reserve : ℚ) / 100
  floors : ∀ d ∈ placedBuys (trimBuysToCash ds freeEur reserve), ∃ n : Int,
    d.notionalEur = some ((n : ℚ) / 100) ∧ d.buyFloor < (n : ℚ) / 100 + 1 / 100 + 1 / 10 ^ 9
  again : trimBuysToCash (trimBuysToCash ds freeEur reserve) freeEur reserve =
    trimBuysToCash ds freeEur reserve

theorem sum_cents {legs : List LegDecision}
    (whole : ∀ d ∈ legs, ∃ n : Int, d.notionalEur = some ((n : ℚ) / 100)) :
    (legs.map (·.notionalEur.getD 0)).sum = (sumCents legs : ℚ) / 100 := by
  induction legs with
  | nil => simp [sumCents]
  | cons leg rest ih =>
    obtain ⟨n, declared⟩ := whole leg List.mem_cons_self
    have cents_n : leg.cents = n := by
      unfold LegDecision.cents
      rw [declared]
      exact cents_whole n
    have rest_sum := ih fun d mem => whole d (List.mem_cons_of_mem leg mem)
    rw [List.map_cons, List.sum_cons, rest_sum, sumCents_cons, cents_n, declared]
    push_cast
    rw [Option.getD_some]
    ring

/-- Of a table of decided legs, each under its own symbol: the smallest buys are carried, at most one is cut
    and the larger ones stand, so that what is left, in whole cents, is within the budget. -/
theorem trimBuysToCash_law (apart : Apart ds) (decided : ∀ d ∈ placedBuys ds, Decided d)
    (freeEur reserve : ℚ) :
    ∃ dropped cut kept cutAt, CashTrim ds freeEur reserve dropped cut kept cutAt := by
  have perm := List.perm_insertionSort Smaller (placedBuys ds)
  have sorted : sumCents (smallestFirst (placedBuys ds)) = sumCents (placedBuys ds) := sumCents_perm perm
  have budget := budgetCents_nonneg freeEur reserve
  have room : 0 ≤ sumCents (smallestFirst (placedBuys ds)) -
      (sumCents (placedBuys ds) - budgetCents freeEur reserve) := by omega
  obtain ⟨dropped, cut, kept, cutAt, trim⟩ := cutBuys_trim room
  have buy : ∀ d ∈ dropped ++ cut ++ kept, d ∈ placedBuys ds := by
    intro d mem
    rw [← trim.parts] at mem
    exact mem_smallestFirst.mp mem
  have floors : ∀ d ∈ placedBuys (trimBuysToCash ds freeEur reserve), ∃ n : Int,
      d.notionalEur = some ((n : ℚ) / 100) ∧ d.buyFloor < (n : ℚ) / 100 + 1 / 100 + 1 / 10 ^ 9 := by
    intro d mem
    rcases List.mem_append.mp ((trim_placed apart trim).mem_iff.mp mem) with part | whole
    · obtain ⟨leg, there, same⟩ := List.mem_map.mp part
      obtain ⟨n, at_n⟩ := trim.whole
      have enough : leg.buyFloor ≤ (n : ℚ) / 100 := at_n ▸ trim.enough leg there
      refine ⟨n, ?_, ?_⟩
      · rw [← same, ← at_n]
        rfl
      · have floor : d.buyFloor = leg.buyFloor := by
          rw [← same]
          rfl
        rw [floor]
        linarith
    · have listed := buy d (List.mem_append_right _ whole)
      exact (decided d listed).buy (buy_mem_placedBuys.mp listed).2
  have whole : ∀ d ∈ placedBuys (trimBuysToCash ds freeEur reserve), ∃ n : Int,
      d.notionalEur = some ((n : ℚ) / 100) := by
    intro d mem
    obtain ⟨n, declared, _⟩ := floors d mem
    exact ⟨n, declared⟩
  have within := trim_within apart freeEur reserve
  refine ⟨dropped, cut, kept, cutAt, ?_⟩
  constructor
  · rw [← trim.parts]
    exact perm
  · rw [← trim.parts]
    exact smallestFirst_pairwise _
  · exact trim.single
  · intro d mem
    refine ⟨trim.enough d mem, ?_⟩
    have listed := buy d (List.mem_append_left _ (List.mem_append_right _ mem))
    obtain ⟨n, declared, _⟩ := (decided d listed).buy (buy_mem_placedBuys.mp listed).2
    have less := trim.less d mem
    unfold LegDecision.cents at less
    rw [declared, Option.getD_some, cents_whole] at less
    rw [declared]
    exact less
  · exact trim_result apart trim
  · intro d other
    have stays : d ∉ dropped := fun mem =>
      other (buy_mem_placedBuys.mp (buy d (List.mem_append_left _ (List.mem_append_left _ mem)))).2
    have uncut : d ∉ cut := fun mem =>
      other (buy_mem_placedBuys.mp (buy d (List.mem_append_left _ (List.mem_append_right _ mem)))).2
    rw [LegDecision.trimmed, if_neg stays, if_neg uncut]
  · rw [sum_cents whole]
    have wide : (sumCents (placedBuys (trimBuysToCash ds freeEur reserve)) : ℚ) ≤
        budgetCents freeEur reserve := by exact_mod_cast within
    linarith
  · exact floors
  · exact trim_fits within

end

section

/-- A unit weight of a thousand euros, priced so that a tenth of a coin is under no floor. -/
def sampleLeg (symbol : Pair) (weight : ℚ) : LegDecision :=
  decideLeg symbol weight 10 ⟨1 / 1000, 1 / 1000, by norm_num, by norm_num⟩ 0 0 false 1000

/-- Ten euros of one coin and twenty of another against twenty-five: the smaller buy is cut to five. -/
def sampleTable : List LegDecision := [sampleLeg .ethEur (1 / 100), sampleLeg .btcEur (1 / 50)]

theorem sampleTable_law :
    ∃ dropped cut kept cutAt, CashTrim sampleTable 30 5 dropped cut kept cutAt := by
  apply trimBuysToCash_law
  · have named : sampleTable.map LegDecision.symbol = [.ethEur, .btcEur] := by
      simp [sampleTable, sampleLeg]
    unfold Apart
    rw [named]
    decide
  · intro d mem
    have listed := (buy_mem_placedBuys.mp mem).1
    rcases List.mem_cons.mp listed with first | second
    · rw [first]
      exact ⟨_, _, _, _, _, _, _, _, rfl⟩
    · rw [List.mem_singleton.mp second]
      exact ⟨_, _, _, _, _, _, _, _, rfl⟩

/-- A buy above its floor by less than a cent is declared under it. -/
def underFloor : LegDecision :=
  decideLeg .ethEur 1 10 ⟨51 / 1000, 1 / 1000, by norm_num, by norm_num⟩ 0 0 false (5359 / 10000)

/-- The buy that is cut is the smaller, not a larger one, and a placed buy may be under its floor. -/
theorem trim_from_the_smallest :
    (trimBuysToCash sampleTable 30 5).map (fun d => (d.symbol, d.outcome, d.notionalEur)) =
      [(.ethEur, .placed, some 5), (.btcEur, .placed, some 20)] ∧
    trimBuysToCash [underFloor] 30 5 = [underFloor] ∧ underFloor.isPlaced .buy ∧
    underFloor.notionalEur = some (53 / 100) ∧ 53 / 100 < underFloor.buyFloor := by
  decide +kernel

end

end DraftPlans
