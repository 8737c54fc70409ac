import Mathlib.Data.Nat.Digits.Defs
import Zcrypto.Engine.DraftAccepted

/- The helper's plans: parsed before they are written, under a number of the day no plan has, and
   with every minimum positive, so that no leg sells nothing. -/
namespace DraftPlans
open ProbePlans Orders Instruments Fallible

/- The plan's number. -/

theorem le_foldr_max {n : Nat} {ns : List Nat} (mem : n ∈ ns) : n ≤ ns.foldr max 0 := by
  induction ns with
  | nil => cases mem
  | cons m rest ih =>
    rw [List.foldr_cons]
    rcases List.mem_cons.mp mem with same | later
    · omega
    · have := ih later
      omega

theorem usedNumber_id (stamp : String) (n : Nat) :
    usedNumber stamp ("r2-" ++ stamp ++ "-" ++ toString n) = some n := by
  have digits : (toString n).toList = Nat.toDigits 10 n := by
    rw [Nat.toString_eq_repr, Nat.toList_repr]
  have found : ("r2-" ++ stamp ++ "-").toList.isPrefixOf?
      ("r2-" ++ stamp ++ "-" ++ toString n).toList = some (Nat.toDigits 10 n) := by
    rw [List.isPrefixOf?_eq_some_iff_append_eq, ← digits]
    simp only [String.toList_append, List.append_assoc]
  have each : ∀ c ∈ Nat.toDigits 10 n, c.isDigit :=
    fun c => Nat.isDigit_of_mem_toDigits (by decide) (by decide)
  unfold usedNumber
  rw [found]
  simp only [Nat.ofDigitChars_ten_toDigits]
  rw [if_pos]
  exact ⟨Nat.toDigits_ne_nil, List.all_eq_true.mpr each⟩

/-- A drafted plan takes a number no plan of the log has. -/
theorem nextPlanId_fresh (ids : List PlanId) (day : Int) : nextPlanId ids day ∉ ids := by
  intro mem
  unfold nextPlanId at mem
  simp only at mem
  generalize used_eq : ids.filterMap (usedNumber (stampOf day)) = used at mem
  have listed : used.foldr max 0 + 1 ∈ used := by
    rw [← used_eq, List.mem_filterMap]
    rw [← used_eq] at mem
    exact ⟨_, mem, usedNumber_id _ _⟩
  have := le_foldr_max listed
  omega

theorem nextPlanId_visible (ids : List PlanId) (day : Int) :
    (nextPlanId ids day).toList.all DecimalText.isSpace = false := by
  have visible : DecimalText.isSpace 'r' = false := by decide
  unfold nextPlanId
  simp [visible]

/- The legs. -/

@[simp] theorem decideLeg_ordermin {symbol : Pair} {weight price held b perWeight : ℚ}
    {c : Constraints} {exiting : Bool} :
    (decideLeg symbol weight price c held b exiting perWeight).ordermin = c.ordermin := by
  unfold decideLeg decideDelta decideBuy decideSell sellUpToB
  split_ifs <;> rfl

section
variable {b : HelperBook} {symbol : Pair} {d : LegDecision} {table : List LegDecision}

theorem helperLeg_ok (read : b.draftLeg symbol = .ok d) :
    d.symbol = symbol ∧ Sound d ∧ 0 < d.ordermin := by
  unfold HelperBook.draftLeg at read
  split at read
  · rename_i positive
    split at read
    · rename_i market
      have price : 0 < (b.asks symbol + b.bids symbol) / 2 := by linarith [market.1, market.2]
      have decided := @decideLeg_sound symbol (b.weights symbol) _ (b.held symbol)
        (b.venueB symbol) eurPerWeight
        ⟨b.ordermins symbol, b.lotSteps symbol, positive.2, positive.1.le⟩ b.exiting price
        (by decide)
      injection read with read
      split at read
      · subst read
        exact ⟨decideLeg_symbol, carry_sound _, by simpa [LegDecision.carry] using positive.1⟩
      · subst read
        exact ⟨decideLeg_symbol, decided, by simpa using positive.1⟩
    · cases read
  · cases read

theorem helperTable_symbols (read : helperLegs.mapM b.draftLeg = .ok table) :
    table.map LegDecision.symbol = helperLegs := by
  have pairs := (mapM_ok.mp read).imp fun _ _ leg => (helperLeg_ok leg).1.symm
  rw [← List.forall₂_map_right_iff, List.forall₂_eq_eq_eq] at pairs
  exact pairs.symm

theorem helperTable_apart (read : helperLegs.mapM b.draftLeg = .ok table) : Apart table := by
  unfold Apart
  rw [helperTable_symbols read]
  decide

theorem helperTable_sound (read : helperLegs.mapM b.draftLeg = .ok table) :
    ∀ d ∈ table, Sound d := by
  intro d mem
  obtain ⟨s, _, leg⟩ := mapM_ok_source read mem
  exact (helperLeg_ok leg).2.1

/-- A leg placed in the trimmed table has something to trade. -/
theorem helperLeg_sized (read : helperLegs.mapM b.draftLeg = .ok table) {freeEur reserve : ℚ}
    (mem : d ∈ trimBuysToCash table freeEur reserve) (placed : d.outcome = .placed) : Sized d := by
  have sound := trimBuysToCash_sound (helperTable_sound read) d mem
  unfold Sized
  rcases sound placed with ⟨side, _⟩ | ⟨side, _⟩
  · obtain ⟨n, notional, _, pos⟩ := sound.eur_buy (isPlaced_iff.mpr ⟨placed, side⟩)
    have buy : isSell d = false := by simp [isSell, side]
    rw [buy]
    exact ⟨n, notional, pos⟩
  · have sell := isPlaced_iff.mpr ⟨placed, side⟩
    obtain ⟨q, qty, _, _, _, enough⟩ := sound.eur_sell sell
    have listed := (sell_mem_trimBuysToCash (helperTable_apart read) sell).mp mem
    obtain ⟨s, _, leg⟩ := mapM_ok_source read listed
    have side : isSell d = true := by simp [isSell, side]
    rw [if_pos side]
    exact ⟨q, qty, (helperLeg_ok leg).2.2.trans_le enough⟩

/-- The plans of one table. -/
theorem helperPlans_dealt (read : helperLegs.mapM b.draftLeg = .ok table)
    {most : Option Nat} {plans : List (List LegDecision)} {freeEur reserve : ℚ}
    (dealt : assemblePlans (trimBuysToCash table freeEur reserve) most (some planCapEur) =
      .ok plans) :
    ∀ legs ∈ plans, legs ≠ [] ∧ (∀ leg ∈ legs, Sized leg) ∧
      (legs.map declared).sum ≤ planCapEur := by
  have each : ∀ leg ∈ ((trimBuysToCash table freeEur reserve).filter
      (·.outcome = .placed)).insertionSort PlanOrder,
      leg ∈ trimBuysToCash table freeEur reserve ∧ leg.outcome = .placed := by
    intro leg mem
    have there := (List.perm_insertionSort PlanOrder _).mem_iff.mp mem
    rw [List.mem_filter, decide_eq_true_eq] at there
    exact there
  intro legs mem
  have started : ∀ plan ∈ ([] : List (List LegDecision)), Dealt planCapEur
      (fun leg => leg ∈ trimBuysToCash table freeEur reserve ∧ leg.outcome = .placed) plan := by
    intro plan none_yet
    cases none_yet
  have plan := deal_dealt each started (by simp) dealt legs mem
  refine ⟨plan.some_legs, fun leg there => ?_, ?_⟩
  · obtain ⟨listed, placed⟩ := plan.legs leg there
    exact helperLeg_sized read listed placed
  · have sound : ∀ leg ∈ trimBuysToCash table freeEur reserve, Sound leg :=
      trimBuysToCash_sound (helperTable_sound read)
    have worth := declared_le_total (fun leg there => sound leg (plan.legs leg there).1)
      fun leg there => (plan.legs leg there).2
    exact worth.trans plan.under

/- The draft. -/

/-- No draft fails at the parse, and a plan that is written is one the walls take under the
    helper's cap or a larger one, of a number of intents the ruling allows and under an id the log
    lacks. -/
def HelperBook.Accepted (b : HelperBook) : Prop :=
  (∀ e, b.draft ≠ .error (.doesNotParse e)) ∧
    ∀ out plan, b.draft = .ok out → out.plan = some plan →
      plan.planId ∉ b.loggedIds ∧ plan.legs.length ≤ maxIntents ∧
        ∀ cap, planCapEur ≤ cap → Acceptable plan.document plan.legs b.now cap

theorem gate_error {e : PlanError} : b.gate ≠ .error (.doesNotParse e) := by
  intro failed
  unfold HelperBook.gate at failed
  split_ifs at failed
  · cases failed
  · cases failed
  · cases failed
  · split at failed
    · cases failed
    · split_ifs at failed
      · cases failed
      · split at failed <;> cases failed

theorem helperLeg_error {e : PlanError} : b.draftLeg symbol ≠ .error (.doesNotParse e) := by
  intro failed
  unfold HelperBook.draftLeg at failed
  split_ifs at failed <;> cases failed

theorem deal_error {most : Option Nat} {cap : Option ℚ} {legs : List LegDecision}
    {plans : List (List LegDecision)} {sum : ℚ} {e : PlanError} :
    deal most cap legs plans sum ≠ .error (.doesNotParse e) := by
  induction legs generalizing plans sum with
  | nil =>
    intro failed
    cases failed
  | cons leg rest ih =>
    unfold deal
    split
    · intro failed
      cases failed
    · split
      · exact ih
      · split
        · exact ih
        · exact ih

theorem write_parsed {windowEnd : Int} {decisions legs : List LegDecision}
    {later : List (List LegDecision)} (some_legs : legs ≠ []) (sized : ∀ leg ∈ legs, Sized leg) :
    b.write windowEnd decisions (legs :: later) =
      if rulingRefused ⟨nextPlanId b.loggedIds (dayOf b.now), b.now, legs.map intentOf⟩
        (fun s => (b.asks s + b.bids s) / 2) b.exiting windowEnd then .error .ruled
      else .ok ⟨queueLaterPlans decisions later, some ⟨nextPlanId b.loggedIds (dayOf b.now),
        planDocument (nextPlanId b.loggedIds (dayOf b.now)) b.now legs, legs⟩⟩ := by
  unfold HelperBook.write
  have visible := nextPlanId_visible b.loggedIds (dayOf b.now)
  generalize nextPlanId b.loggedIds (dayOf b.now) = id at visible ⊢
  simp only
  rw [parsePlan_document visible some_legs sized]

theorem ruling_count {plan : ProbePlan} {prices : Pair → ℚ} {exiting : Bool} {windowEnd : Int}
    (passed : rulingRefused plan prices exiting windowEnd ≠ true) :
    plan.intents.length ≤ maxIntents := by
  by_contra many
  apply passed
  simp [rulingRefused, not_le.mp many]

theorem helper_accepted (b : HelperBook) : b.Accepted := by
  constructor
  · intro e failed
    unfold HelperBook.draft at failed
    simp only [bind_error] at failed
    obtain gate | ⟨windowEnd, _, table | ⟨table, read, dealt | ⟨plans, dealt, written⟩⟩⟩ := failed
    · exact gate_error gate
    · obtain ⟨s, _, leg⟩ := mapM_error table
      exact helperLeg_error leg
    · exact deal_error dealt
    · have each := helperPlans_dealt read dealt
      cases plans with
      | nil => cases written
      | cons legs later =>
        obtain ⟨some_legs, sized, _⟩ := each legs List.mem_cons_self
        rw [write_parsed some_legs sized] at written
        split at written <;> cases written
  · intro out plan drafted planned
    unfold HelperBook.draft at drafted
    simp only [bind_ok] at drafted
    obtain ⟨windowEnd, _, table, read, plans, dealt, written⟩ := drafted
    have each := helperPlans_dealt read dealt
    cases plans with
    | nil =>
      injection written with written
      subst written
      cases planned
    | cons legs later =>
      obtain ⟨some_legs, sized, under⟩ := each legs List.mem_cons_self
      rw [write_parsed some_legs sized] at written
      split at written
      · cases written
      · rename_i passed
        injection written with written
        subst written
        injection planned with planned
        subst planned
        refine ⟨nextPlanId_fresh _ _, by simpa using ruling_count passed, ?_⟩
        intro cap room
        exact acceptable (nextPlanId_visible _ _) some_legs sized (under.trans room)

end

/-- The helper's plans are always taken. The loop's are when a figure it needs is missing and none
    is drafted, when no traded pair without a minimum is over its target by less than one lot step,
    and when the sells together exceed the cap, which drops those worth nothing first. -/
theorem drafted_plans_accepted (h : HelperBook) (b : CycleBook) :
    h.Accepted ∧
      (b.Accepted ↔ (∃ s ∈ spotPairs, (b.missing s).isSome) ∨
        ∀ s, b.SellsNothing s → b.maxPlanNotionalEur < b.soldEur) :=
  ⟨helper_accepted h, cycle_accepted_iff b⟩

/-- How the engine's parser reads the plans of a book. -/
def CycleBook.readings (b : CycleBook) : Option (List (Except PlanError ProbePlan)) :=
  match b.draftCyclePlan with
  | some (.ok plans) => some (plans.map fun legs => parsePlan (some (b.document legs)))
  | _ => none

/-- A satoshi a step, and no minimum. -/
def unminimed : Constraints where
  ordermin := 0
  lotStep := 1 / 100000000
  lot_pos := by norm_num
  ordermin_nonneg := le_rfl

/-- A flat book but for half a step of bitcoin, the venue giving no minimum. -/
def dusty : CycleBook where
  boundary := 490908
  now := 490908 * hour + 1
  nav := 1000
  missing := fun _ => none
  targets := fun _ => 0
  closes := fun _ => 50000
  instruments := fun _ => unminimed
  held := fun s => if s = .btcEur then 1 / 200000000 else 0
  earn := fun _ => 0
  eurFree := 900
  resting := []
  statuses := fun _ => some "TRADING"
  maxPlanNotionalEur := 500
  nav_pos := by norm_num
  closes_pos := fun _ => by norm_num
  cap_pos := by norm_num

/-- Its one plan sells nothing and does not parse. -/
theorem dusty_plan_refused :
    dusty.readings = some [.error (.field "qty" "must be a finite positive number")] ∧
      ¬ dusty.Accepted := by
  have read : dusty.readings =
      some [.error (.field "qty" "must be a finite positive number")] := by decide +kernel
  refine ⟨read, ?_⟩
  intro accepted
  unfold CycleBook.readings at read
  split at read
  · rename_i plans drafted
    injection read with read
    cases plans with
    | nil => cases read
    | cons legs later =>
      obtain ⟨plan, parsed, _⟩ := accepted _ legs drafted List.mem_cons_self
      rw [List.map_cons, parsed] at read
      cases read
  · cases read

end DraftPlans
