import Mathlib.Algebra.Order.BigOperators.GroupWithZero.List
import Zcrypto.Risk.GovernorLaws

/- The governor at the cadence of days: each day's bars compound to the day's return, and share the
   multiplier that the days' governor has for it. -/
namespace Risk

/-- What the bars of a day compound to. -/
def compound (bars : List (Int × ℚ)) (day : Int) : ℚ :=
  ((bars.filter fun bar => bar.1 = day).map fun bar => 1 + bar.2).prod

section
variable {config : GovernorConfig} {first day : Int} {count : Nat} {bars : List (Int × ℚ)} {b : DayBook}

/-- The days are those from the first, each with its bars' return. -/
structure Gathered (first : Int) (bars : List (Int × ℚ)) (b : DayBook) (count : Nat) : Prop where
  closed : b.closed = (List.range count).map fun (k : Nat) => (first + k, compound bars (first + k) - 1)
  current : b.current = some (first + count, compound bars (first + count))
  days : ∀ day, (∃ bar ∈ bars, bar.1 = day) ↔ first ≤ day ∧ day ≤ first + count

theorem compound_append (bars : List (Int × ℚ)) (bar : Int × ℚ) (day : Int) :
    compound (bars ++ [bar]) day = if bar.1 = day then compound bars day * (1 + bar.2) else compound bars day := by
  unfold compound
  rw [List.filter_append, List.map_append, List.prod_append]
  split
  · rename_i same
    rw [List.filter_cons_of_pos (by simpa using same)]
    simp
  · rename_i other
    rw [List.filter_cons_of_neg (by simpa using other)]
    simp

theorem compound_none (none : ∀ bar ∈ bars, bar.1 ≠ day) : compound bars day = 1 := by
  unfold compound
  rw [List.filter_eq_nil_iff.mpr fun bar mem => by simpa using none bar mem]
  rfl

theorem gathered_first (bar : Int × ℚ) : Gathered bar.1 [bar] (DayBook.add ⟨[], none⟩ bar) 0 where
  closed := rfl
  current := by simp [DayBook.add, compound]
  days := by
    intro day
    simp only [List.mem_singleton, exists_eq_left]
    omega

theorem Gathered.same (w : Gathered first bars b count) (x : ℚ) :
    Gathered first (bars ++ [(first + count, x)]) (b.add (first + count, x)) count := by
  have added : b.add (first + count, x) =
      { b with current := some (first + count, compound bars (first + count) * (1 + x)) } := by
    unfold DayBook.add
    rw [w.current]
    exact if_neg fun other => other rfl
  constructor
  · rw [added]
    show b.closed = _
    rw [w.closed]
    refine List.map_congr_left fun k mem => ?_
    have less := List.mem_range.mp mem
    rw [compound_append, if_neg (by show ¬ first + (count : Int) = first + k; omega)]
  · rw [added, compound_append, if_pos rfl]
  · intro day
    rw [← w.days day]
    constructor
    · rintro ⟨bar, mem, rfl⟩
      rcases List.mem_append.mp mem with old | new
      · exact ⟨bar, old, rfl⟩
      · rw [List.mem_singleton.mp new, w.days]
        show first ≤ first + (count : Int) ∧ first + (count : Int) ≤ first + count
        omega
    · rintro ⟨bar, mem, same⟩
      exact ⟨bar, List.mem_append_left _ mem, same⟩

theorem Gathered.next (w : Gathered first bars b count) (x : ℚ) :
    Gathered first (bars ++ [(first + count + 1, x)]) (b.add (first + count + 1, x)) (count + 1) := by
  have added : b.add (first + count + 1, x) = ⟨b.closed ++ [(first + count, compound bars (first + count) - 1)],
      some (first + count + 1, 1 * (1 + x))⟩ := by
    unfold DayBook.add
    rw [w.current]
    exact if_pos (by show first + (count : Int) + 1 ≠ first + count; omega)
  have later : first + ((count + 1 : Nat) : Int) = first + count + 1 := by
    omega
  constructor
  · rw [added, w.closed, List.range_succ, List.map_append, List.map_singleton]
    have older : ∀ k : Nat, k ≤ count → compound (bars ++ [(first + count + 1, x)]) (first + k) =
        compound bars (first + k) := by
      intro k le
      rw [compound_append, if_neg (by show ¬ first + (count : Int) + 1 = first + k; omega)]
    rw [older count le_rfl]
    show _ ++ _ = _ ++ _
    refine congrArg (· ++ _) (List.map_congr_left fun k mem => ?_)
    rw [older k (List.mem_range.mp mem).le]
  · have none : compound bars (first + count + 1) = 1 := by
      refine compound_none fun bar mem same => ?_
      have within := (w.days bar.1).mp ⟨bar, mem, rfl⟩
      omega
    rw [added, later, compound_append, if_pos rfl, none]
  · intro day
    rw [later]
    constructor
    · rintro ⟨bar, mem, rfl⟩
      rcases List.mem_append.mp mem with old | new
      · have within := (w.days bar.1).mp ⟨bar, old, rfl⟩
        omega
      · rw [List.mem_singleton.mp new]
        show first ≤ first + (count : Int) + 1 ∧ first + (count : Int) + 1 ≤ first + count + 1
        omega
    · rintro ⟨low, high⟩
      by_cases last : day = first + count + 1
      · exact ⟨(first + count + 1, x), by simp, last.symm⟩
      · obtain ⟨bar, mem, same⟩ := (w.days day).mpr ⟨low, by omega⟩
        exact ⟨bar, List.mem_append_left _ mem, same⟩

theorem validateDays_ok {next : Int} {rest : List Int} (ok : validateDays (day :: next :: rest) = .ok ()) :
    (next = day ∨ next = day + 1) ∧ validateDays (next :: rest) = .ok () := by
  unfold validateDays at ok
  split at ok
  · cases ok
  · split at ok
    · cases ok
    · exact ⟨by omega, ok⟩

theorem gathered_all (rest : List (Int × ℚ)) (w : Gathered first bars b count)
    (ok : validateDays ((first + count) :: rest.map Prod.fst) = .ok ()) :
    ∃ last, Gathered first (bars ++ rest) (rest.foldl DayBook.add b) last := by
  induction rest generalizing bars b count with
  | nil => exact ⟨count, by rw [List.append_nil]; exact w⟩
  | cons bar rest ih =>
    obtain ⟨step, ok⟩ := validateDays_ok ok
    obtain ⟨day, x⟩ := bar
    rw [List.foldl_cons, List.append_cons]
    rcases step with same | next
    · dsimp only at same ok
      subst same
      exact ih (w.same x) ok
    · dsimp only at next ok
      subst next
      refine ih (w.next x) ?_
      push_cast
      rw [← add_assoc]
      exact ok

theorem validateIntraday_ok {intradayReturns : List ℚ} {dayIndex : List Int}
    (ok : validateIntraday intradayReturns dayIndex = .ok ()) :
    intradayReturns ≠ [] ∧ dayIndex.length = intradayReturns.length ∧ (∀ x ∈ intradayReturns, -1 < x) ∧
      validateDays dayIndex = .ok () := by
  unfold validateIntraday at ok
  split at ok
  · cases ok
  rename_i some_
  split at ok
  · cases ok
  rename_i even
  split at ok
  · cases ok
  rename_i above
  split at ok
  · cases ok
  exact ⟨some_, not_not.mp even, by simpa using above, ok⟩

/-- The bars of accepted days are gathered day by day. -/
theorem gathered {intradayReturns : List ℚ} {dayIndex : List Int}
    (ok : validateIntraday intradayReturns dayIndex = .ok ()) :
    ∃ first count, dayIndex.head? = some first ∧ Gathered first (dayIndex.zip intradayReturns)
      ((dayIndex.zip intradayReturns).foldl DayBook.add ⟨[], none⟩) count := by
  obtain ⟨some_, even, -, days⟩ := validateIntraday_ok ok
  cases dayIndex with
  | nil => exact absurd (List.length_eq_zero_iff.mp even.symm) some_
  | cons day later =>
    cases intradayReturns with
    | nil => exact absurd rfl some_
    | cons x rest =>
      have zipped : (later.zip rest).map Prod.fst = later :=
        List.map_fst_zip (Nat.succ.inj even).le
      obtain ⟨count, w⟩ := gathered_all (later.zip rest) (gathered_first (day, x)) (by
        rw [zipped]
        simpa using days)
      exact ⟨day, count, rfl, w⟩

theorem compound_pos (above : ∀ bar ∈ bars, -1 < bar.2) (day : Int) : 0 < compound bars day := by
  unfold compound
  refine List.prod_pos ?_
  intro x mem
  obtain ⟨bar, there, rfl⟩ := List.mem_map.mp mem
  have := above bar (List.mem_filter.mp there).1
  linarith

theorem lookup_days (first : Int) (mults : List ℚ) (k : Nat) :
    (((List.range mults.length).map fun (k : Nat) => first + (k : Int)).zip mults).lookup (first + k) = mults[k]? := by
  induction mults generalizing first k with
  | nil => rfl
  | cons mult rest ih =>
    have later : (List.range rest.length).map ((fun (k : Nat) => first + (k : Int)) ∘ Nat.succ) =
        (List.range rest.length).map fun (k : Nat) => first + 1 + (k : Int) := by
      refine List.map_congr_left fun k _ => ?_
      show first + ((k + 1 : Nat) : Int) = first + 1 + k
      omega
    rw [List.length_cons, List.range_succ_eq_map, List.map_cons, List.map_map, later, List.zip_cons_cons]
    cases k with
    | zero => simp
    | succ k =>
      have other : (first + ((k + 1 : Nat) : Int) == first + ((0 : Nat) : Int)) = false :=
        beq_eq_false_iff_ne.mpr (by omega)
      have next : first + ((k + 1 : Nat) : Int) = first + 1 + k := by omega
      rw [List.lookup_cons, other, next, ih]
      rfl

/-- The days' returns. -/
def dayReturns (bars : List (Int × ℚ)) (first : Int) (count : Nat) : List ℚ :=
  (List.range (count + 1)).map fun (k : Nat) => compound bars (first + k) - 1

theorem Gathered.daysOf (w : Gathered first bars b count) : b.days =
    (List.range (count + 1)).map fun (k : Nat) => (first + (k : Int), compound bars (first + k) - 1) := by
  unfold DayBook.days
  rw [w.closed, w.current, List.range_succ, List.map_append]
  rfl

/-- Each bar has its day's multiplier. -/
theorem cadence {intradayReturns : List ℚ} {dayIndex : List Int} {gov : GovernorResult}
    (ok : validateIntraday intradayReturns dayIndex = .ok ())
    (w : Gathered first (dayIndex.zip intradayReturns)
      ((dayIndex.zip intradayReturns).foldl DayBook.add ⟨[], none⟩) count)
    (governed : drawdownGovernor config (dayReturns (dayIndex.zip intradayReturns) first count) = .ok gov) :
    ∃ mults, dailyCadenceGovernor config intradayReturns dayIndex = .ok mults ∧
      List.Forall₂ (fun day mult => gov.multipliers[(day - first).toNat]? = some mult) dayIndex mults := by
  have length : gov.multipliers.length = count + 1 := by
    obtain ⟨entries, g⟩ := governs governed
    rw [g.length.1]
    simp [dayReturns]
  have fst : ((Risk.daysOf dayIndex intradayReturns).map Prod.fst).zip gov.multipliers =
      ((List.range gov.multipliers.length).map fun (k : Nat) => first + (k : Int)).zip gov.multipliers := by
    rw [Risk.daysOf, w.daysOf, List.map_map, length]
    rfl
  have snd : (Risk.daysOf dayIndex intradayReturns).map Prod.snd =
      dayReturns (dayIndex.zip intradayReturns) first count := by
    rw [Risk.daysOf, w.daysOf, List.map_map]
    rfl
  have found : ∀ day ∈ dayIndex,
      gov.multipliers[(day - first).toNat]? = some (gov.multipliers.getD (day - first).toNat 0) ∧
      (((Risk.daysOf dayIndex intradayReturns).map Prod.fst).zip gov.multipliers).lookup day =
        some (gov.multipliers.getD (day - first).toNat 0) := by
    intro day mem
    obtain ⟨some_, even, -, -⟩ := validateIntraday_ok ok
    have zipped : (dayIndex.zip intradayReturns).map Prod.fst = dayIndex := List.map_fst_zip even.le
    rw [← zipped] at mem
    obtain ⟨bar, there, same⟩ := List.mem_map.mp mem
    obtain ⟨low, high⟩ := (w.days day).mp ⟨bar, there, same⟩
    have within : (day - first).toNat < gov.multipliers.length := by omega
    have at_ : first + ((day - first).toNat : Int) = day := by omega
    have there := lookup_days first gov.multipliers (day - first).toNat
    rw [at_, List.getElem?_eq_getElem within] at there
    rw [List.getD_eq_getElem _ _ within, fst]
    exact ⟨List.getElem?_eq_getElem within, there⟩
  refine ⟨dayIndex.map fun day => gov.multipliers.getD (day - first).toNat 0, ?_,
    List.forall₂_map_right_iff.mpr (List.forall₂_same.mpr fun day mem => (found day mem).1)⟩
  unfold dailyCadenceGovernor
  rw [ok]
  refine Fallible.then_ok.mpr ⟨rfl, ?_⟩
  dsimp only
  rw [snd, governed]
  refine Fallible.bind_ok.mpr ⟨gov, rfl, Fallible.mapM_ok.mpr
    (List.forall₂_map_right_iff.mpr (List.forall₂_same.mpr fun day mem => ?_))⟩
  rw [(found day mem).2]

end

end Risk
