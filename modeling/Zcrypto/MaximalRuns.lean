import Mathlib.Data.List.Basic
import Mathlib.Order.Basic

/- The maximal runs of a sequence of places, some of them on and some of them joined to the next, and a single pass
   that finds them by where each starts and how many places it has. -/
namespace MaximalRuns

structure Joining where
  on : Nat → Prop
  joins : Nat → Prop
  left : ∀ i, joins i → on i
  right : ∀ i, joins i → on (i + 1)

structure IsRun (J : Joining) (start len : Nat) : Prop where
  nonempty : 0 < len
  on : ∀ i, start ≤ i → i < start + len → J.on i
  joined : ∀ i, start ≤ i → i + 1 < start + len → J.joins i
  first : ∀ i, i + 1 = start → ¬ J.joins i
  last : ∀ i, i + 1 = start + len → ¬ J.joins i

section
variable {J : Joining} {a b m n : Nat}

theorem IsRun.ends_before (run : IsRun J a m) (run' : IsRun J b n) (before : a < b) : a + m ≤ b := by
  by_contra inside
  refine run'.first (b - 1) (by omega) (run.joined (b - 1) (by omega) (by omega))

theorem IsRun.same_start (run : IsRun J a m) (run' : IsRun J a n) : m = n := by
  have := run.nonempty
  have := run'.nonempty
  rcases Nat.lt_trichotomy m n with less | same | more
  · exact absurd (run'.joined (a + m - 1) (by omega) (by omega)) (run.last _ (by omega))
  · exact same
  · exact absurd (run.joined (a + n - 1) (by omega) (by omega)) (run'.last _ (by omega))

theorem IsRun.same_end (run : IsRun J a m) (run' : IsRun J b n) (same : a + m = b + n) : a = b ∧ m = n := by
  have := run.nonempty
  have := run'.nonempty
  rcases Nat.lt_trichotomy a b with less | rfl | more
  · have := run.ends_before run' less
    omega
  · exact ⟨rfl, run.same_start run'⟩
  · have := run'.ends_before run more
    omega

end

/-- As far to the left as places are joined. -/
theorem exists_left (J : Joining) (i : Nat) :
    ∃ a, a ≤ i ∧ (∀ j, a ≤ j → j < i → J.joins j) ∧ ∀ j, j + 1 = a → ¬ J.joins j := by
  induction i with
  | zero => exact ⟨0, Nat.le_refl _, by omega, by omega⟩
  | succ i ih =>
    by_cases joins : J.joins i
    · obtain ⟨a, low, joined, first⟩ := ih
      refine ⟨a, by omega, ?_, first⟩
      intro j from_ to_
      by_cases last : j = i
      · rw [last]
        exact joins
      · exact joined j from_ (by omega)
    · refine ⟨i + 1, Nat.le_refl _, by omega, ?_⟩
      intro j before
      obtain rfl : j = i := by omega
      exact joins

/-- As far to the right, where places come to an end. -/
theorem exists_right {J : Joining} {k : Nat} (ends : ∀ i, k ≤ i → ¬ J.on i) (i : Nat) (here : J.on i) :
    ∃ b, i ≤ b ∧ (∀ j, i ≤ j → j < b → J.joins j) ∧ ¬ J.joins b := by
  have inside : i < k := by
    by_contra past
    exact ends i (by omega) here
  obtain ⟨d, rfl⟩ : ∃ d, k = i + d := ⟨k - i, by omega⟩
  induction d generalizing i with
  | zero => omega
  | succ d ih =>
    by_cases joins : J.joins i
    · have next := J.right i joins
      have further : i + 1 < i + 1 + d := by
        by_contra none
        exact ends (i + 1) (by omega) next
      obtain ⟨b, low, joined, last⟩ := ih (i + 1) next (fun j past => ends j (by omega)) further
      refine ⟨b, by omega, ?_, last⟩
      intro j from_ to_
      by_cases first : j = i
      · rw [first]
        exact joins
      · exact joined j (by omega) to_
    · exact ⟨i, Nat.le_refl _, by omega, joins⟩

/-- Every place that is on is in a run. -/
theorem exists_run {J : Joining} {k i : Nat} (ends : ∀ i, k ≤ i → ¬ J.on i) (here : J.on i) :
    ∃ a n, IsRun J a n ∧ a ≤ i ∧ i < a + n := by
  obtain ⟨a, low, left, first⟩ := exists_left J i
  obtain ⟨b, high, right, last⟩ := exists_right ends i here
  have joined : ∀ j, a ≤ j → j < b → J.joins j := by
    intro j from_ to_
    by_cases before : j < i
    · exact left j from_ before
    · exact right j (by omega) to_
  refine ⟨a, b + 1 - a, ?_, low, by omega⟩
  constructor
  · omega
  · intro j from_ to_
    by_cases at_left : j = a
    · rw [at_left]
      by_cases alone : a = i
      · rw [alone]
        exact here
      · exact J.left a (joined a (Nat.le_refl _) (by omega))
    · have before := J.right (j - 1) (joined (j - 1) (by omega) (by omega))
      rwa [Nat.sub_add_cancel (by omega)] at before
  · intro j from_ to_
    exact joined j from_ (by omega)
  · exact first
  · intro j at_right
    obtain rfl : j = b := by omega
    exact last

/-- The runs that have ended, oldest first, and the one that is open. -/
structure Scan where
  runs : List (Nat × Nat) := []
  start : Nat := 0
  len : Nat := 0
  deriving DecidableEq, Repr

/-- The next place: whether it is on, and whether it follows the one before. -/
def Scan.see (s : Scan) (i : Nat) (here follows : Bool) : Scan :=
  if here && (s.len = 0 || (0 < s.len && follows)) then
    { s with start := if s.len = 0 then i else s.start, len := s.len + 1 }
  else
    { runs := if s.len ≠ 0 then s.runs ++ [(s.start, s.len)] else s.runs
      start := i
      len := if here then 1 else 0 }

def Scan.done (s : Scan) : List (Nat × Nat) :=
  if s.len ≠ 0 then s.runs ++ [(s.start, s.len)] else s.runs

/-- What a pass knows after `k` places. -/
structure Scanned (J : Joining) (k : Nat) (s : Scan) : Prop where
  runs : ∀ a n, (a, n) ∈ s.runs ↔ IsRun J a n ∧ a + n < k
  ascending : s.runs.Pairwise fun r r' => r.1 < r'.1
  shut : s.len = 0 → ∀ i, i + 1 = k → ¬ J.on i
  stands : s.len ≠ 0 → s.start + s.len = k
  on : ∀ i, s.start ≤ i → i < s.start + s.len → J.on i
  joined : ∀ i, s.start ≤ i → i + 1 < s.start + s.len → J.joins i
  first : s.len ≠ 0 → ∀ i, i + 1 = s.start → ¬ J.joins i

section
variable {J : Joining} {k : Nat} {s : Scan}

theorem scanned_new : Scanned J 0 {} := by
  constructor <;> simp

/-- Where the place before a run's end is not joined to the next, the open run is the one that ends there. -/
theorem Scanned.open_isRun (scanned : Scanned J k s) (open_ : s.len ≠ 0) (apart : ∀ i, i + 1 = k → ¬ J.joins i) :
    IsRun J s.start s.len where
  nonempty := Nat.pos_of_ne_zero open_
  on := scanned.on
  joined := scanned.joined
  first := scanned.first open_
  last := by
    rw [scanned.stands open_]
    exact apart

/-- The runs up to the place before: those there were, and the open one if nothing joins it to the next. -/
theorem Scanned.closed (scanned : Scanned J k s) (apart : s.len ≠ 0 → ∀ i, i + 1 = k → ¬ J.joins i) (a n : Nat) :
    (a, n) ∈ s.done ↔ IsRun J a n ∧ a + n < k + 1 := by
  unfold Scan.done
  by_cases open_ : s.len = 0
  · rw [if_neg (not_not.mpr open_), scanned.runs]
    constructor
    · rintro ⟨run, before⟩
      exact ⟨run, by omega⟩
    · rintro ⟨run, before⟩
      refine ⟨run, ?_⟩
      by_contra at_end
      have := run.nonempty
      exact scanned.shut open_ (a + n - 1) (by omega) (run.on _ (by omega) (by omega))
  · have stands := scanned.stands open_
    have own := scanned.open_isRun open_ (apart open_)
    rw [if_pos open_, List.mem_append, scanned.runs, List.mem_singleton, Prod.mk.injEq]
    constructor
    · rintro (⟨run, before⟩ | ⟨rfl, rfl⟩)
      · exact ⟨run, by omega⟩
      · exact ⟨own, by omega⟩
    · rintro ⟨run, before⟩
      by_cases earlier : a + n < k
      · exact Or.inl ⟨run, earlier⟩
      · exact Or.inr (run.same_end own (by omega))

theorem Scanned.done_ascending (scanned : Scanned J k s) : s.done.Pairwise fun r r' => r.1 < r'.1 := by
  unfold Scan.done
  split
  · rename_i open_
    refine List.pairwise_append.mpr ⟨scanned.ascending, List.pairwise_singleton _ _, ?_⟩
    intro r mem r' last
    obtain ⟨run, before⟩ := (scanned.runs r.1 r.2).mp mem
    rw [List.mem_singleton.mp last]
    have := run.nonempty
    have := scanned.stands open_
    by_contra later
    -- a run that has ended is not inside the one that is open
    have inside := scanned.joined (r.1 + r.2 - 1)
    exact run.last (r.1 + r.2 - 1) (by omega) (inside (by omega) (by omega))
  · exact scanned.ascending

theorem Scanned.see {here follows : Bool} (scanned : Scanned J k s) (is_on : here = true ↔ J.on k)
    (is_joined : ∀ i, i + 1 = k → J.on i → J.on k → (follows = true ↔ J.joins i)) :
    Scanned J (k + 1) (s.see k here follows) := by
  unfold Scan.see
  split
  · rename_i goes_on
    rw [Bool.and_eq_true] at goes_on
    have on_here := is_on.mp goes_on.1
    by_cases open_ : s.len = 0
    · -- a run starts here
      rw [open_] at goes_on ⊢
      constructor
      · intro a n
        have closed := scanned.closed (fun len => absurd open_ len) a n
        rwa [Scan.done, if_neg (not_not.mpr open_)] at closed
      · exact scanned.ascending
      · intro none
        cases none
      · simp
      · intro i from_ to_
        simp only [if_pos] at from_ to_
        obtain rfl : i = k := by omega
        exact on_here
      · intro i from_ to_
        simp only [if_pos] at from_ to_
        omega
      · intro _ i before joins
        simp only [if_pos] at before
        exact scanned.shut open_ i before (J.left i joins)
    · have follows_on : follows = true := by
        have either := goes_on.2
        simp only [open_, decide_false, Bool.false_or, Bool.and_eq_true] at either
        exact either.2
      have stands := scanned.stands open_
      have last_on : J.on (k - 1) := scanned.on (k - 1) (by omega) (by omega)
      have last_joined : J.joins (k - 1) := (is_joined (k - 1) (by omega) last_on on_here).mp follows_on
      rw [if_neg open_]
      constructor
      · intro a n
        rw [scanned.runs]
        constructor
        · rintro ⟨run, before⟩
          exact ⟨run, by omega⟩
        · rintro ⟨run, before⟩
          refine ⟨run, ?_⟩
          by_contra at_end
          exact run.last (k - 1) (by omega) last_joined
      · exact scanned.ascending
      · intro none
        cases none
      · intro _
        dsimp only
        omega
      · intro i from_ to_
        dsimp only at from_ to_
        by_cases here : i = k
        · rw [here]
          exact on_here
        · exact scanned.on i from_ (by omega)
      · intro i from_ to_
        dsimp only at from_ to_
        by_cases here : i + 1 = k
        · obtain rfl : i = k - 1 := by omega
          exact last_joined
        · exact scanned.joined i from_ (by omega)
      · intro _
        exact scanned.first open_
  · rename_i stops
    have apart : s.len ≠ 0 → ∀ i, i + 1 = k → ¬ J.joins i := by
      intro open_ i last joins
      have on_here : J.on k := last ▸ J.right i joins
      apply stops
      simp [is_on.mpr on_here, (is_joined i last (J.left i joins) on_here).mpr joins, Nat.pos_of_ne_zero open_]
    have started : here = true → s.len ≠ 0 := by
      intro on_here open_
      apply stops
      simp [on_here, open_]
    constructor
    · exact scanned.closed apart
    · exact scanned.done_ascending
    · intro none i last on_last
      obtain rfl : i = k := by omega
      rw [if_pos (is_on.mpr on_last)] at none
      cases none
    · intro some
      have on_here : here = true := by
        by_contra off
        rw [if_neg off] at some
        exact some rfl
      rw [if_pos on_here]
    · intro i from_ to_
      dsimp only at from_ to_
      split at to_
      · rename_i on_here
        obtain rfl : i = k := by omega
        exact is_on.mp on_here
      · omega
    · intro i from_ to_
      dsimp only at from_ to_
      split at to_ <;> omega
    · intro some i before
      apply apart _ i before
      apply started
      by_contra off
      rw [if_neg off] at some
      exact some rfl

/-- Nothing is on past the end: the runs are all there, and in their order. -/
theorem Scanned.exact (scanned : Scanned J k s) (ends : ∀ i, k ≤ i → ¬ J.on i) (a n : Nat) :
    (a, n) ∈ s.done ↔ IsRun J a n := by
  have apart : s.len ≠ 0 → ∀ i, i + 1 = k → ¬ J.joins i := by
    intro _ i last joins
    exact ends (i + 1) (by omega) (J.right i joins)
  rw [scanned.closed apart, and_iff_left_iff_imp]
  intro run
  by_contra beyond
  have := run.nonempty
  exact ends (a + n - 1) (by omega) (run.on _ (by omega) (by omega))

end

end MaximalRuns
