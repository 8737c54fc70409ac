import Mathlib.Algebra.BigOperators.Ring.List
import Mathlib.Algebra.Order.BigOperators.Group.Finset
import Mathlib.Algebra.Order.Field.Basic
import Mathlib.Tactic.FieldSimp
import Mathlib.Tactic.Linarith
import Mathlib.Tactic.Ring

/- A budget spent over sources in turn, each of a capacity and a rate: no other way to spend it over them is
   worth more where the rates fall. -/
namespace GreedyFill
variable {σ K : Type} [Field K] [LinearOrder K] [IsStrictOrderedRing K] {cap cap' rate : σ → K} {ks ks' : List σ}
  {m n r : K} {x : σ → K}

/-- What the budget is worth, each source drained before the next. -/
def worth (cap rate : σ → K) : List σ → K → K
  | [], _ => 0
  | s :: rest, n => if n ≤ cap s then n * rate s else cap s * rate s + worth cap rate rest (n - cap s)

def capacity (cap : σ → K) (ks : List σ) : K := (ks.map cap).sum

/-- A way to spend the budget. -/
structure Allots (cap : σ → K) (ks : List σ) (n : K) (x : σ → K) : Prop where
  within : ∀ s ∈ ks, 0 ≤ x s ∧ x s ≤ cap s
  whole : (ks.map x).sum = n

def value (rate : σ → K) (ks : List σ) (x : σ → K) : K := (ks.map fun s => x s * rate s).sum

theorem capacity_nonneg (caps : ∀ s ∈ ks, 0 ≤ cap s) : 0 ≤ capacity cap ks := by
  apply List.sum_nonneg
  intro c mem
  obtain ⟨s, of_ks, same⟩ := List.mem_map.mp mem
  exact same ▸ caps s of_ks

theorem worth_zero (caps : ∀ s ∈ ks, 0 ≤ cap s) : worth cap rate ks 0 = 0 := by
  cases ks with
  | nil => rfl
  | cons s rest => simp [worth, caps s List.mem_cons_self]

theorem worth_neg (ks : List σ) (n : K) : worth cap (fun s => -rate s) ks n = -worth cap rate ks n := by
  induction ks generalizing n with
  | nil => simp [worth]
  | cons s rest ih =>
    simp only [worth, ih]
    split <;> ring

theorem worth_positive (caps : ∀ s ∈ ks, 0 < cap s) (rates : ∀ s ∈ ks, 0 < rate s) (low : 0 < n)
    (high : n ≤ capacity cap ks) : 0 < worth cap rate ks n := by
  induction ks generalizing n with
  | nil => exact absurd high (by simpa [capacity] using low)
  | cons s rest ih =>
    obtain ⟨positive, caps'⟩ := List.forall_mem_cons.mp caps
    obtain ⟨earns, rates'⟩ := List.forall_mem_cons.mp rates
    unfold worth
    by_cases within : n ≤ cap s
    · rw [if_pos within]
      exact mul_pos low earns
    · rw [if_neg within]
      unfold capacity at high
      rw [List.map_cons, List.sum_cons] at high
      have later := ih caps' rates' (sub_pos.mpr (not_le.mp within)) (by unfold capacity; linarith)
      linarith [mul_pos positive earns]

theorem Allots.bounds (allots : Allots cap ks n x) : 0 ≤ n ∧ n ≤ capacity cap ks := by
  have whole := allots.whole
  have within := allots.within
  clear allots
  unfold capacity
  induction ks generalizing n with
  | nil =>
    simp only [List.map_nil, List.sum_nil] at whole ⊢
    exact ⟨whole.le, whole.ge⟩
  | cons s rest ih =>
    obtain ⟨here, later⟩ := List.forall_mem_cons.mp within
    rw [List.map_cons, List.sum_cons] at whole
    rw [List.map_cons, List.sum_cons]
    obtain ⟨low, high⟩ := ih rfl later
    exact ⟨by linarith, by linarith⟩

/-- No part of the budget is worth more than the best rate has it. -/
theorem worth_rises (caps : ∀ s ∈ ks, 0 ≤ cap s) (rates : ∀ s ∈ ks, rate s ≤ r) (low : 0 ≤ m) (more : m ≤ n)
    (high : n ≤ capacity cap ks) : worth cap rate ks n ≤ worth cap rate ks m + (n - m) * r := by
  induction ks generalizing m n with
  | nil =>
    have none_left : n = m := le_antisymm (by simpa [capacity] using high.trans low) more
    simp [worth, none_left]
  | cons s rest ih =>
    obtain ⟨positive, caps'⟩ := List.forall_mem_cons.mp caps
    obtain ⟨best, rates'⟩ := List.forall_mem_cons.mp rates
    have high' : n - cap s ≤ capacity cap rest := by
      unfold capacity at high ⊢
      rw [List.map_cons, List.sum_cons] at high
      linarith
    unfold worth
    by_cases within : n ≤ cap s
    · have within' : m ≤ cap s := more.trans within
      rw [if_pos within, if_pos within']
      have part : (n - m) * rate s ≤ (n - m) * r := mul_le_mul_of_nonneg_left best (sub_nonneg.mpr more)
      linarith
    · rw [if_neg within]
      by_cases within' : m ≤ cap s
      · rw [if_pos within']
        have drained := ih caps' rates' le_rfl (sub_nonneg.mpr (not_le.mp within).le) high'
        rw [worth_zero caps', zero_add, sub_zero] at drained
        have part : (cap s - m) * rate s ≤ (cap s - m) * r := mul_le_mul_of_nonneg_left best (sub_nonneg.mpr within')
        linarith
      · rw [if_neg within']
        have drained := ih caps' rates' (sub_nonneg.mpr (not_le.mp within').le) (sub_le_sub_right more _) high'
        linarith

theorem value_le (rates : ∀ s ∈ ks, rate s ≤ r) (parts : ∀ s ∈ ks, 0 ≤ x s) :
    value rate ks x ≤ (ks.map x).sum * r := by
  unfold value
  induction ks with
  | nil => simp
  | cons s rest ih =>
    obtain ⟨best, rates'⟩ := List.forall_mem_cons.mp rates
    obtain ⟨part, parts'⟩ := List.forall_mem_cons.mp parts
    have here : x s * rate s ≤ x s * r := mul_le_mul_of_nonneg_left best part
    simp only [List.map_cons, List.sum_cons]
    linarith [ih rates' parts']

/-- Where the rates fall, no way to spend the budget is worth more. -/
theorem worth_best (falling : ks.Pairwise fun s t => rate t ≤ rate s) (caps : ∀ s ∈ ks, 0 ≤ cap s)
    (allots : Allots cap ks n x) : value rate ks x ≤ worth cap rate ks n := by
  obtain ⟨within, whole⟩ := allots
  induction ks generalizing n with
  | nil => simp [value, worth]
  | cons s rest ih =>
    obtain ⟨first, falling'⟩ := List.pairwise_cons.mp falling
    obtain ⟨positive, caps'⟩ := List.forall_mem_cons.mp caps
    obtain ⟨here, within'⟩ := List.forall_mem_cons.mp within
    rw [List.map_cons, List.sum_cons] at whole
    have later := ih falling' caps' within' rfl
    obtain ⟨low, high⟩ : 0 ≤ (rest.map x).sum ∧ (rest.map x).sum ≤ capacity cap rest := Allots.bounds ⟨within', rfl⟩
    have split_value : value rate (s :: rest) x = x s * rate s + value rate rest x := by simp [value]
    rw [split_value]
    unfold worth
    by_cases within_first : n ≤ cap s
    · rw [if_pos within_first]
      have spread := value_le first fun t mem => (within' t mem).1
      have same : n * rate s = x s * rate s + (rest.map x).sum * rate s := by rw [← whole]; ring
      linarith
    · rw [if_neg within_first]
      -- what the first source could still take is moved to it from the others
      have moved := worth_rises caps' first (sub_nonneg.mpr (not_le.mp within_first).le)
        (by linarith [here.2] : n - cap s ≤ (rest.map x).sum) high
      have same : (rest.map x).sum - (n - cap s) = cap s - x s := by linarith
      rw [same] at moved
      linarith

section
variable [DecidableEq σ]

/-- The way the sources are drained in turn. -/
def drained (cap : σ → K) : List σ → K → σ → K
  | [], _, _ => 0
  | s :: rest, n, t => if t = s then min n (cap s) else drained cap rest (max 0 (n - cap s)) t

theorem drained_allots (rate : σ → K) (distinct : ks.Nodup) (caps : ∀ s ∈ ks, 0 ≤ cap s) (low : 0 ≤ n)
    (high : n ≤ capacity cap ks) :
    Allots cap ks n (drained cap ks n) ∧ value rate ks (drained cap ks n) = worth cap rate ks n := by
  induction ks generalizing n with
  | nil =>
    have none_left : n = 0 := le_antisymm (by simpa [capacity] using high) low
    exact ⟨⟨by simp, by simp [none_left]⟩, by simp [value, worth]⟩
  | cons s rest ih =>
    obtain ⟨apart, distinct'⟩ := List.nodup_cons.mp distinct
    obtain ⟨positive, caps'⟩ := List.forall_mem_cons.mp caps
    have high' : max 0 (n - cap s) ≤ capacity cap rest := by
      apply max_le (capacity_nonneg caps')
      unfold capacity at high ⊢
      rw [List.map_cons, List.sum_cons] at high
      linarith
    obtain ⟨⟨within, whole⟩, worth_same⟩ := ih distinct' caps' (le_max_left 0 (n - cap s)) high'
    have others : ∀ t ∈ rest, drained cap (s :: rest) n t = drained cap rest (max 0 (n - cap s)) t := by
      intro t mem
      have other : t ≠ s := fun same => apart (same ▸ mem)
      rw [drained, if_neg other]
    have first : drained cap (s :: rest) n s = min n (cap s) := by rw [drained, if_pos rfl]
    refine ⟨⟨?_, ?_⟩, ?_⟩
    · refine List.forall_mem_cons.mpr ⟨?_, ?_⟩
      · rw [first]
        exact ⟨le_min low positive, min_le_right n (cap s)⟩
      · intro t mem
        rw [others t mem]
        exact within t mem
    · rw [List.map_cons, List.sum_cons, first, List.map_congr_left others, whole]
      by_cases within_first : n ≤ cap s
      · rw [min_eq_left within_first, max_eq_left (by linarith), add_zero]
      · rw [min_eq_right (by linarith), max_eq_right (by linarith)]
        ring
    · have same : (rest.map fun t => drained cap (s :: rest) n t * rate t) =
          rest.map fun t => drained cap rest (max 0 (n - cap s)) t * rate t :=
        List.map_congr_left fun t mem => by rw [others t mem]
      unfold value at worth_same ⊢
      rw [List.map_cons, List.sum_cons, first, same, worth_same, worth]
      by_cases within_first : n ≤ cap s
      · rw [if_pos within_first, min_eq_left within_first, max_eq_left (by linarith), worth_zero caps', add_zero]
      · rw [if_neg within_first, min_eq_right (by linarith), max_eq_right (by linarith)]

/-- The budget's average worth falls as it grows. -/
theorem worth_average (falling : ks.Pairwise fun s t => rate t ≤ rate s) (distinct : ks.Nodup)
    (caps : ∀ s ∈ ks, 0 ≤ cap s) (low : 0 < m) (more : m ≤ n) (high : n ≤ capacity cap ks) :
    m * worth cap rate ks n ≤ n * worth cap rate ks m := by
  have positive : 0 < n := low.trans_le more
  obtain ⟨allots, same⟩ := drained_allots rate distinct caps positive.le high
  have share : 0 ≤ m / n ∧ m / n ≤ 1 := ⟨by positivity, (div_le_one positive).mpr more⟩
  have scaled : Allots cap ks m fun s => m / n * drained cap ks n s := by
    constructor
    · intro s mem
      obtain ⟨part, within⟩ := allots.within s mem
      exact ⟨mul_nonneg share.1 part, (mul_le_of_le_one_left part share.2).trans within⟩
    · rw [List.sum_map_mul_left, allots.whole]
      field_simp
  have best := worth_best falling caps scaled
  have split_value : value rate ks (fun s => m / n * drained cap ks n s) = m / n * worth cap rate ks n := by
    rw [← same]
    unfold value
    rw [← List.sum_map_mul_left]
    simp only [mul_assoc]
  rw [split_value] at best
  calc m * worth cap rate ks n = n * (m / n * worth cap rate ks n) := by field_simp
    _ ≤ n * worth cap rate ks m := mul_le_mul_of_nonneg_left best positive.le

/-- A way to spend the budget, where the sources that are new take nothing. -/
def extended (ks : List σ) (x : σ → K) (s : σ) : K := if s ∈ ks then x s else 0

theorem sum_extended (distinct : ks.Nodup) (distinct' : ks'.Nodup) (inside : ks ⊆ ks') (f : σ → K) :
    (ks'.map (extended ks f)).sum = (ks.map f).sum := by
  have subset : ks.toFinset ⊆ ks'.toFinset := fun s mem => by
    rw [List.mem_toFinset] at mem ⊢
    exact inside mem
  rw [← List.sum_toFinset _ distinct', ← List.sum_toFinset _ distinct, ← Finset.sum_subset subset]
  · exact Finset.sum_congr rfl fun s mem => if_pos (List.mem_toFinset.mp mem)
  · intro s _ outside
    exact if_neg fun mem => outside (List.mem_toFinset.mpr mem)

theorem Allots.extend (allots : Allots cap ks n x) (distinct : ks.Nodup) (distinct' : ks'.Nodup)
    (caps' : ∀ s ∈ ks', 0 ≤ cap' s) (inside : ks ⊆ ks') (wider : ∀ s ∈ ks, cap s ≤ cap' s) :
    Allots cap' ks' n (extended ks x) := by
  constructor
  · intro s mem
    unfold extended
    by_cases old : s ∈ ks
    · obtain ⟨part, within⟩ := allots.within s old
      rw [if_pos old]
      exact ⟨part, within.trans (wider s old)⟩
    · rw [if_neg old]
      exact ⟨le_rfl, caps' s mem⟩
  · rw [sum_extended distinct distinct' inside, allots.whole]

theorem value_extended (distinct : ks.Nodup) (distinct' : ks'.Nodup) (inside : ks ⊆ ks') :
    value rate ks' (extended ks x) = value rate ks x := by
  unfold value
  rw [← sum_extended distinct distinct' inside]
  congr 1
  apply List.map_congr_left
  intro s _
  simp only [extended, ite_mul, zero_mul]

/-- More sources, or wider ones, are worth no less. -/
theorem worth_wider (falling : ks'.Pairwise fun s t => rate t ≤ rate s) (distinct : ks.Nodup) (distinct' : ks'.Nodup)
    (caps : ∀ s ∈ ks, 0 ≤ cap s) (caps' : ∀ s ∈ ks', 0 ≤ cap' s) (inside : ks ⊆ ks')
    (wider : ∀ s ∈ ks, cap s ≤ cap' s) (low : 0 ≤ n) (high : n ≤ capacity cap ks) :
    n ≤ capacity cap' ks' ∧ worth cap rate ks n ≤ worth cap' rate ks' n := by
  obtain ⟨allots, same⟩ := drained_allots rate distinct caps low high
  have further := allots.extend distinct distinct' caps' inside wider
  have best := worth_best falling caps' further
  rw [value_extended distinct distinct' inside, same] at best
  exact ⟨further.bounds.2, best⟩

end

end GreedyFill
