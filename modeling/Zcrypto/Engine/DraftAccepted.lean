import Zcrypto.Engine.DraftLaws

/- Whether what a drafter hands on is a plan the walls take. The helper's always is; the loop's is
   unless a pair without a minimum is over its target by less than one lot step. -/
namespace DraftPlans
open ProbePlans Orders Instruments Fallible

theorem acceptable {id : PlanId} {now : Int} {legs : List LegDecision} {cap : ℚ}
    (visible : id.toList.all DecimalText.isSpace = false) (some_legs : legs ≠ [])
    (sized : ∀ leg ∈ legs, Sized leg) (under : (legs.map declared).sum ≤ cap) :
    Acceptable (planDocument id now legs) legs now cap := by
  refine ⟨_, parsePlan_document visible some_legs sized, rfl, ?_⟩
  intro ledgered free fresh reason given
  have notional : ProbePlan.notional ⟨id, now, legs.map intentOf⟩ ≤ cap := by
    unfold ProbePlan.notional
    rw [List.map_map]
    exact under
  have young : ¬ planTtl < now - now := by
    rw [sub_self]
    decide
  simp only [planRefusals, if_neg young, if_neg (lt_irrefl now), if_neg fresh,
    if_neg (not_lt.mpr notional), List.append_nil, List.nil_append] at given
  unfold marginReasons
  cases free with
  | none =>
    rw [List.mem_singleton.mp given]
    exact List.mem_cons_self
  | some f =>
    simp only at given
    split at given
    · rw [List.mem_singleton.mp given]
      exact List.mem_cons_of_mem _ List.mem_cons_self
    · cases given

/- The loop. -/

def CycleBook.Trades (b : CycleBook) (symbol : Pair) : Prop :=
  symbol ∉ b.resting ∧ b.statuses symbol = some "TRADING"

/-- What is held over the target. -/
def CycleBook.surplus (b : CycleBook) (symbol : Pair) : ℚ :=
  b.held symbol - b.nav * max (b.targets symbol) 0 / b.closes symbol

/-- A traded pair over its target by a minimum or more. -/
def CycleBook.Sells (b : CycleBook) (symbol : Pair) : Prop :=
  b.Trades symbol ∧ 0 < b.surplus symbol ∧
    (b.instruments symbol).ordermin ≤ floorToStep (b.surplus symbol) (b.instruments symbol).lotStep

/-- A traded pair without a minimum, over its target by less than one lot step. -/
structure CycleBook.SellsNothing (b : CycleBook) (symbol : Pair) : Prop where
  listed : symbol ∈ spotPairs
  trades : b.Trades symbol
  above : 0 < b.surplus symbol
  short : b.surplus symbol < (b.instruments symbol).lotStep
  no_minimum : (b.instruments symbol).ordermin = 0

instance (b : CycleBook) (symbol : Pair) : Decidable (b.Sells symbol) := by
  unfold CycleBook.Sells CycleBook.Trades
  infer_instance

def CycleBook.soldQty (b : CycleBook) (symbol : Pair) : ℚ :=
  let c := b.instruments symbol
  let above := floorToStep (b.surplus symbol) c.lotStep
  if b.held symbol - above < c.ordermin then floorToStep (b.held symbol) c.lotStep else above

/-- What the book's sells come to. -/
def CycleBook.soldEur (b : CycleBook) : ℚ :=
  (spotPairs.map fun s => if b.Sells s then b.soldQty s * b.closes s else 0).sum

/-- Every plan the loop drafts from the book is one the walls take. -/
def CycleBook.Accepted (b : CycleBook) : Prop :=
  ∀ plans legs, b.draftCyclePlan = some (.ok plans) → legs ∈ plans →
    Acceptable (b.document legs) legs b.now b.maxPlanNotionalEur

section
variable {b : CycleBook} {symbol : Pair} {d : LegDecision}

@[simp] theorem cycleLeg_symbol : (b.draftLeg symbol).symbol = symbol := by
  unfold CycleBook.draftLeg
  simp only
  split_ifs <;> simp [LegDecision.carry]

theorem cycleLeg_sound (b : CycleBook) (symbol : Pair) : Sound (b.draftLeg symbol) := by
  have decided : Sound (decideLeg symbol (b.targets symbol) (b.closes symbol)
      (b.instruments symbol) (b.held symbol) 0 false b.nav) :=
    decideLeg_sound (b.closes_pos symbol) b.nav_pos.le
  unfold CycleBook.draftLeg
  simp only
  generalize decideLeg _ _ _ _ _ _ _ _ = leg at decided ⊢
  split
  · split
    · intro placed
      cases placed
    · exact carry_sound leg
  · split
    · intro placed
      cases placed
    · exact decided

/-- The pair's figures before anything is decided of it. -/
def CycleBook.fresh (b : CycleBook) (symbol : Pair) : LegDecision :=
  freshLeg symbol (b.targets symbol) (b.closes symbol) (b.instruments symbol) (b.held symbol) 0
    (b.nav * max (b.targets symbol) 0)

theorem decideLeg_fresh : decideLeg symbol (b.targets symbol) (b.closes symbol)
    (b.instruments symbol) (b.held symbol) 0 false b.nav = decideDelta (b.fresh symbol) := rfl

theorem surplus_pos (b : CycleBook) (symbol : Pair) :
    0 < b.surplus symbol ↔ (b.fresh symbol).deltaEur < 0 := by
  have pos := b.closes_pos symbol
  unfold CycleBook.surplus CycleBook.fresh freshLeg
  simp only
  rw [sub_pos, div_lt_iff₀ pos, sub_neg]

theorem decideDelta_sells (above : 0 < b.surplus symbol) (enough : (b.instruments symbol).ordermin ≤
    floorToStep (b.surplus symbol) (b.instruments symbol).lotStep) :
    decideDelta (b.fresh symbol) = placeSell (b.fresh symbol) (b.soldQty symbol) := by
  have below := (surplus_pos b symbol).mp above
  have enough : ¬ (b.fresh symbol).overTarget < (b.fresh symbol).ordermin := not_lt.mpr enough
  unfold decideDelta
  rw [if_neg below.ne, if_neg (not_lt.mpr below.le)]
  unfold decideSell
  rw [if_neg enough]
  unfold sellUpToB
  exact if_neg fun capped => lt_irrefl _ capped.1

theorem decideDelta_unsold (none_over : ¬ (0 < b.surplus symbol ∧ (b.instruments symbol).ordermin ≤
    floorToStep (b.surplus symbol) (b.instruments symbol).lotStep)) :
    (decideDelta (b.fresh symbol)).isPlaced .sell = false := by
  have carried : (b.fresh symbol).outcome = .carried := rfl
  have unsided : (b.fresh symbol).side = none := rfl
  unfold decideDelta
  split
  · simp [LegDecision.isPlaced]
  · rename_i uneven
    split
    · unfold decideBuy
      split <;> simp [LegDecision.isPlaced]
    · rename_i unbought
      have below := lt_of_le_of_ne (not_lt.mp unbought) uneven
      have above := (surplus_pos b symbol).mpr below
      have short : (b.fresh symbol).overTarget < (b.fresh symbol).ordermin := by
        by_contra enough
        exact none_over ⟨above, not_lt.mp enough⟩
      unfold decideSell
      rw [if_pos short]
      simp [LegDecision.isPlaced, carried]

theorem cycleLeg_sells (sells : b.Sells symbol) :
    b.draftLeg symbol = placeSell (b.fresh symbol) (b.soldQty symbol) := by
  obtain ⟨⟨free, trading⟩, above, enough⟩ := sells
  unfold CycleBook.draftLeg
  rw [decideLeg_fresh, decideDelta_sells above enough]
  simp [free, trading]

theorem cycleLeg_unsold (unsold : ¬ b.Sells symbol) :
    (b.draftLeg symbol).isPlaced .sell = false := by
  unfold CycleBook.draftLeg
  rw [decideLeg_fresh]
  by_cases above : 0 < b.surplus symbol ∧ (b.instruments symbol).ordermin ≤
      floorToStep (b.surplus symbol) (b.instruments symbol).lotStep
  · have still : ¬ b.Trades symbol := fun trades => unsold ⟨trades, above⟩
    rw [decideDelta_sells above.1 above.2]
    by_cases rests : symbol ∈ b.resting
    · simp [rests, placeSell, LegDecision.carry, LegDecision.isPlaced]
    · have halted : b.statuses symbol ≠ some "TRADING" := fun trading => still ⟨rests, trading⟩
      simp [rests, halted, placeSell, LegDecision.carry, LegDecision.isPlaced]
  · have unsold := decideDelta_unsold above
    generalize decideDelta _ = leg at unsold ⊢
    simp only
    split_ifs
    · simp [LegDecision.carry, LegDecision.isPlaced]
    · simp [LegDecision.carry, LegDecision.isPlaced]
    · simp [LegDecision.carry, LegDecision.isPlaced]
    · exact unsold

/-- A leg of the table that sells. -/
theorem cycleLeg_sell_iff : (b.draftLeg symbol).isPlaced .sell = true ↔ b.Sells symbol := by
  constructor
  · intro sell
    by_contra unsold
    rw [cycleLeg_unsold unsold] at sell
    cases sell
  · intro sells
    rw [cycleLeg_sells sells]
    simp [placeSell, LegDecision.isPlaced]

theorem soldQty_eq_zero (sells : b.Sells symbol) (listed : symbol ∈ spotPairs) :
    b.soldQty symbol = 0 ↔ b.SellsNothing symbol := by
  obtain ⟨trades, above, enough⟩ := sells
  have lot := (b.instruments symbol).lot_pos
  have nonneg := (b.instruments symbol).ordermin_nonneg
  have share : b.surplus symbol ≤ b.held symbol := by
    have target : 0 ≤ b.nav * max (b.targets symbol) 0 / b.closes symbol :=
      div_nonneg (mul_nonneg b.nav_pos.le (le_max_right _ _)) (b.closes_pos symbol).le
    unfold CycleBook.surplus
    linarith
  have grows : floorToStep (b.surplus symbol) (b.instruments symbol).lotStep ≤
      floorToStep (b.held symbol) (b.instruments symbol).lotStep := floorToStep_mono lot share
  have next := lt_floorToStep_add lot (b.surplus symbol)
  constructor
  · intro nothing
    have floor : floorToStep (b.surplus symbol) (b.instruments symbol).lotStep ≤ 0 := by
      unfold CycleBook.soldQty at nothing
      simp only at nothing
      split at nothing
      · linarith
      · exact nothing.le
    exact ⟨listed, trades, above, by linarith, by linarith⟩
  · intro nothing
    have floor : floorToStep (b.surplus symbol) (b.instruments symbol).lotStep = 0 := by
      have below : ⌊b.surplus symbol / (b.instruments symbol).lotStep⌋ = 0 := by
        rw [Int.floor_eq_zero_iff]
        exact ⟨div_nonneg above.le lot.le, (div_lt_one lot).mpr nothing.short⟩
      unfold floorToStep
      rw [below]
      simp
    unfold CycleBook.soldQty
    simp only [floor, nothing.no_minimum, sub_zero]
    exact if_neg (not_lt.mpr (above.le.trans share))

theorem CycleBook.SellsNothing.sells (nothing : b.SellsNothing symbol) : b.Sells symbol := by
  have lot := (b.instruments symbol).lot_pos
  refine ⟨nothing.trades, nothing.above, ?_⟩
  rw [nothing.no_minimum]
  exact floorToStep_nonneg lot nothing.above.le

theorem table_apart (b : CycleBook) : Apart (spotPairs.map b.draftLeg) := by
  unfold Apart
  rw [List.map_map]
  have same : LegDecision.symbol ∘ b.draftLeg = id := funext fun _ => cycleLeg_symbol
  rw [same, List.map_id]
  decide

theorem table_sound (b : CycleBook) : ∀ d ∈ spotPairs.map b.draftLeg, Sound d := by
  intro d mem
  obtain ⟨s, _, same⟩ := List.mem_map.mp mem
  rw [← same]
  exact cycleLeg_sound b s

/-- The table once its buys are trimmed to the cash. -/
def CycleBook.funded (b : CycleBook) : List LegDecision :=
  trimBuysToCash (spotPairs.map b.draftLeg) (min b.eurFree (b.nav - b.bookCoinEur))
    loopCashReserveEur

theorem funded_apart (b : CycleBook) : Apart b.funded := trimBuysToCash_apart (table_apart b) _ _

theorem funded_sound (b : CycleBook) : ∀ d ∈ b.funded, Sound d :=
  trimBuysToCash_sound (table_sound b)

/-- A sell of the funded table is the leg of a pair that sells. -/
theorem funded_sell (mem : d ∈ b.funded) (sell : d.isPlaced .sell = true) :
    ∃ s ∈ spotPairs, b.Sells s ∧ d = placeSell (b.fresh s) (b.soldQty s) := by
  have listed := (sell_mem_trimBuysToCash (table_apart b) sell).mp mem
  obtain ⟨s, there, same⟩ := List.mem_map.mp listed
  subst same
  have sells := cycleLeg_sell_iff.mp sell
  exact ⟨s, there, sells, cycleLeg_sells sells⟩

theorem funded_sold (b : CycleBook) :
    total (smallestFirst (b.funded.filter (·.isPlaced .sell))) = b.soldEur := by
  have perm := (List.perm_insertionSort Smaller (b.funded.filter (·.isPlaced .sell))).trans
    (sells_perm (table_apart b) _ _)
  unfold smallestFirst
  rw [total_perm perm, total_filter_map]
  unfold CycleBook.soldEur
  congr 1
  apply List.map_congr_left
  intro s _
  by_cases sells : b.Sells s
  · rw [if_pos sells, if_pos (cycleLeg_sell_iff.mpr sells), cycleLeg_sells sells]
    rfl
  · rw [if_neg sells, cycleLeg_unsold sells]
    rfl

/-- Every sell kept is of something, unless one of nothing fits beside the rest. -/
theorem keptSells_sized (clear : ∀ s, b.SellsNothing s → b.maxPlanNotionalEur < b.soldEur)
    (mem : d ∈ keptSells b.funded b.maxPlanNotionalEur) : Sized d := by
  obtain ⟨there, sell⟩ := mem_keptSells mem
  obtain ⟨s, listed, sells, same⟩ := funded_sell there sell
  obtain ⟨q, qty, eur, price, ordermin, enough⟩ := (funded_sound b d there).eur_sell sell
  have sold : q = b.soldQty s := by
    rw [same] at qty
    injection qty with qty
    exact qty.symm
  have side : isSell d = true := by
    rw [same]
    rfl
  have something : q ≠ 0 := by
    intro nothing
    have empty := (soldQty_eq_zero sells listed).mp (sold.symm.trans nothing)
    have above := clear s empty
    rw [← funded_sold, ← zero_add (total _)] at above
    have each : ∀ d ∈ smallestFirst (b.funded.filter (·.isPlaced .sell)), 0 ≤ d.eur := by
      intro other mem
      rw [mem_smallestFirst, List.mem_filter] at mem
      exact (funded_sound b other mem.1).eur_nonneg (isPlaced_iff.mp mem.2).1
    have worth := fit_positive smallestFirst_sorted each above d mem
    rw [eur, nothing, zero_mul] at worth
    exact lt_irrefl _ worth
  unfold Sized
  rw [if_pos side]
  exact ⟨q, qty, lt_of_le_of_ne (ordermin.trans enough) (Ne.symm something)⟩

theorem kept_sized (clear : ∀ s, b.SellsNothing s → b.maxPlanNotionalEur < b.soldEur)
    (mem : d ∈ keptSells b.funded b.maxPlanNotionalEur ++ keptBuys b.funded b.maxPlanNotionalEur) :
    Sized d := by
  rcases List.mem_append.mp mem with sell | buy
  · exact keptSells_sized clear sell
  · obtain ⟨there, placed⟩ := mem_keptBuys buy
    obtain ⟨n, notional, _, pos⟩ := (funded_sound b d there).eur_buy placed
    have side : isSell d = false := by simp [isSell, (isPlaced_iff.mp placed).2]
    unfold Sized
    rw [side]
    exact ⟨n, notional, pos⟩

/-- A sell of nothing that fits is kept. -/
theorem nothing_kept (nothing : b.SellsNothing symbol) (fits : b.soldEur ≤ b.maxPlanNotionalEur) :
    placeSell (b.fresh symbol) 0 ∈ keptSells b.funded b.maxPlanNotionalEur := by
  have sells := nothing.sells
  have leg := cycleLeg_sells sells
  rw [(soldQty_eq_zero sells nothing.listed).mpr nothing] at leg
  have sell : (placeSell (b.fresh symbol) 0).isPlaced .sell = true := by
    rw [← leg]
    exact cycleLeg_sell_iff.mpr sells
  have listed : placeSell (b.fresh symbol) 0 ∈ spotPairs.map b.draftLeg := by
    rw [← leg]
    exact List.mem_map_of_mem nothing.listed
  have there : placeSell (b.fresh symbol) 0 ∈ b.funded :=
    (sell_mem_trimBuysToCash (table_apart b) sell).mpr listed
  unfold keptSells
  rw [fit_whole]
  · rw [mem_smallestFirst, List.mem_filter]
    exact ⟨there, sell⟩
  · rw [funded_sold, zero_add]
    exact fits

theorem cyclePlanId_visible (boundary : Int) :
    (cyclePlanId boundary).toList.all DecimalText.isSpace = false := by
  have visible : DecimalText.isSpace 'r' = false := by decide
  unfold cyclePlanId
  simp [visible]

/-- The loop's one plan: the legs kept, in the plan's order. -/
theorem draftCyclePlan_eq (complete : ∀ s ∈ spotPairs, b.missing s = none) :
    b.draftCyclePlan = some (.ok (onePlan (((trimToPlanCap b.funded b.maxPlanNotionalEur).filter
      (·.outcome = .placed)).insertionSort PlanOrder))) := by
  have table : b.draftTable = some (spotPairs.map b.draftLeg) := by
    unfold CycleBook.draftTable
    rw [if_neg]
    intro lacks
    obtain ⟨s, listed, there⟩ := List.any_eq_true.mp lacks
    rw [complete s listed] at there
    cases there
  have trimmed : b.trimmed (spotPairs.map b.draftLeg) =
      trimToPlanCap b.funded b.maxPlanNotionalEur := rfl
  unfold CycleBook.draftCyclePlan
  rw [table, Option.map_some, trimmed, assemblePlans_unbounded]

theorem mem_draftCyclePlan (complete : ∀ s ∈ spotPairs, b.missing s = none)
    {plans : List (List LegDecision)} {legs : List LegDecision}
    (drafted : b.draftCyclePlan = some (.ok plans)) (mem : legs ∈ plans) :
    legs ≠ [] ∧ legs.Perm (keptSells b.funded b.maxPlanNotionalEur ++
      keptBuys b.funded b.maxPlanNotionalEur) := by
  have perm := placed_perm_kept (funded_apart b) b.maxPlanNotionalEur
  rw [draftCyclePlan_eq complete] at drafted
  injection drafted with drafted
  injection drafted with drafted
  subst drafted
  generalize List.insertionSort PlanOrder _ = ordered at mem perm
  cases ordered with
  | nil => cases mem
  | cons leg rest =>
    rw [List.mem_singleton.mp mem]
    exact ⟨List.cons_ne_nil _ _, perm⟩

theorem cycle_accepted_iff (b : CycleBook) : b.Accepted ↔
    (∃ s ∈ spotPairs, (b.missing s).isSome) ∨
      ∀ s, b.SellsNothing s → b.maxPlanNotionalEur < b.soldEur := by
  constructor
  · intro accepted
    by_contra fails
    rw [not_or] at fails
    obtain ⟨complete, empty⟩ := fails
    have complete : ∀ s ∈ spotPairs, b.missing s = none := by
      intro s listed
      by_contra lacks
      exact complete ⟨s, listed, Option.isSome_iff_ne_none.mpr lacks⟩
    push Not at empty
    obtain ⟨s, nothing, fits⟩ := empty
    have kept := nothing_kept nothing fits
    have perm := placed_perm_kept (funded_apart b) b.maxPlanNotionalEur
    have drafted := draftCyclePlan_eq complete
    generalize List.insertionSort PlanOrder _ = ordered at perm drafted
    have mem : placeSell (b.fresh s) 0 ∈ ordered :=
      perm.mem_iff.mpr (List.mem_append_left _ kept)
    cases ordered with
    | nil => cases mem
    | cons leg rest =>
      obtain ⟨plan, parsed, _⟩ := accepted _ _ drafted List.mem_cons_self
      exact parsePlan_empty_sell mem rfl rfl le_rfl plan parsed
  · rintro (lacks | clear) plans legs drafted mem
    · obtain ⟨s, listed, there⟩ := lacks
      have none_drafted : b.draftTable = none :=
        if_pos (List.any_eq_true.mpr ⟨s, listed, there⟩)
      unfold CycleBook.draftCyclePlan at drafted
      rw [none_drafted] at drafted
      cases drafted
    · by_cases complete : ∀ s ∈ spotPairs, b.missing s = none
      · obtain ⟨some_legs, perm⟩ := mem_draftCyclePlan complete drafted mem
        apply acceptable (cyclePlanId_visible _) some_legs
        · exact fun leg there => kept_sized clear (perm.mem_iff.mp there)
        · rw [(perm.map declared).sum_eq]
          exact declared_kept (funded_sound b) b.cap_pos.le
      · push Not at complete
        obtain ⟨s, listed, there⟩ := complete
        have none_drafted : b.draftTable = none :=
          if_pos (List.any_eq_true.mpr ⟨s, listed, Option.isSome_iff_ne_none.mpr there⟩)
        unfold CycleBook.draftCyclePlan at drafted
        rw [none_drafted] at drafted
        cases drafted

end
end DraftPlans
