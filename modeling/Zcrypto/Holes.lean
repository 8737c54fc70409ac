import Mathlib.Data.Finset.Max
import Mathlib.Data.Int.ConditionallyCompleteOrder
import Mathlib.Data.Int.Interval
import Mathlib.Order.ConditionallyCompleteLattice.Basic

/- The integers that a finite set leaves out between its least and its greatest member, and the
   steps of an ascending list that pass over them. -/
namespace Holes

section
variable {s t : Finset ℤ} {x : ℤ}

noncomputable def hull (s : Finset ℤ) : Finset ℤ :=
  if h : s.Nonempty then Finset.Icc (s.min' h) (s.max' h) else ∅

noncomputable def absent (s : Finset ℤ) : Finset ℤ := hull s \ s

theorem mem_hull : x ∈ hull s ↔ ∃ a ∈ s, ∃ b ∈ s, a ≤ x ∧ x ≤ b := by
  unfold hull
  split
  · rename_i some
    rw [Finset.mem_Icc]
    constructor
    · rintro ⟨low, high⟩
      exact ⟨_, s.min'_mem some, _, s.max'_mem some, low, high⟩
    · rintro ⟨a, ha, b, hb, low, high⟩
      exact ⟨(s.min'_le a ha).trans low, high.trans (s.le_max' b hb)⟩
  · rename_i none
    rw [Finset.not_nonempty_iff_eq_empty] at none
    simp [none]

theorem subset_hull : s ⊆ hull s := by
  intro x mem
  exact mem_hull.mpr ⟨x, mem, x, mem, le_refl x, le_refl x⟩

theorem mem_absent : x ∈ absent s ↔ (∃ a ∈ s, ∃ b ∈ s, a ≤ x ∧ x ≤ b) ∧ x ∉ s := by
  rw [absent, Finset.mem_sdiff, mem_hull]

theorem card_absent : (absent s).card + s.card = (hull s).card :=
  Finset.card_sdiff_add_card_eq_card subset_hull

theorem hull_fill (inside : t ⊆ absent s) : hull (s ∪ t) = hull s := by
  have within : ∀ y ∈ s ∪ t, ∃ a ∈ s, ∃ b ∈ s, a ≤ y ∧ y ≤ b := by
    intro y mem
    rcases Finset.mem_union.mp mem with old | new
    · exact ⟨y, old, y, old, le_refl y, le_refl y⟩
    · exact (mem_absent.mp (inside new)).1
  ext x
  rw [mem_hull, mem_hull]
  constructor
  · rintro ⟨a, ha, b, hb, low, high⟩
    obtain ⟨a', ha', -, -, low', -⟩ := within a ha
    obtain ⟨-, -, b', hb', -, high'⟩ := within b hb
    exact ⟨a', ha', b', hb', low'.trans low, high.trans high'⟩
  · rintro ⟨a, ha, b, hb, low, high⟩
    exact ⟨a, Finset.mem_union_left t ha, b, Finset.mem_union_left t hb, low, high⟩

/-- Filling some of what is absent leaves the rest absent. -/
theorem absent_fill (inside : t ⊆ absent s) : absent (s ∪ t) = absent s \ t := by
  unfold absent
  rw [hull_fill inside, sdiff_sdiff]
  rfl

theorem card_absent_fill (inside : t ⊆ absent s) :
    (absent (s ∪ t)).card + t.card = (absent s).card := by
  rw [absent_fill inside]
  exact Finset.card_sdiff_add_card_eq_card inside

end

/- Steps. -/

section
variable {l : List ℤ} {a b x : ℤ}

/-- The neighbours that leave something out between them. -/
def steps : List ℤ → List (ℤ × ℤ)
  | a :: b :: rest => if a + 1 < b then (a, b) :: steps (b :: rest) else steps (b :: rest)
  | _ => []

theorem steps_mem (mem : (a, b) ∈ steps l) : a ∈ l ∧ b ∈ l ∧ a + 1 < b := by
  induction l using steps.induct with
  | case1 c d rest wide ih =>
    rw [steps, if_pos wide] at mem
    rcases List.mem_cons.mp mem with same | later
    · cases same
      exact ⟨by simp, by simp, wide⟩
    · obtain ⟨ha, hb, wide⟩ := ih later
      exact ⟨List.mem_cons_of_mem c ha, List.mem_cons_of_mem c hb, wide⟩
  | case2 c d rest narrow ih =>
    rw [steps, if_neg narrow] at mem
    obtain ⟨ha, hb, wide⟩ := ih mem
    exact ⟨List.mem_cons_of_mem c ha, List.mem_cons_of_mem c hb, wide⟩
  | case3 l short => simp [steps] at mem

/-- What an ascending list leaves out is before its second member or left out after its first. -/
theorem absent_cons {rest : List ℤ} (sorted : (a :: b :: rest).Pairwise (· < ·)) :
    absent (a :: b :: rest).toFinset =
      Finset.Ioo a b ∪ absent (b :: rest).toFinset := by
  obtain ⟨first, sorted⟩ := List.pairwise_cons.mp sorted
  have second := (List.pairwise_cons.mp sorted).1
  have less := first b List.mem_cons_self
  have least : ∀ c ∈ b :: rest, b ≤ c := by
    intro c mem
    rcases List.mem_cons.mp mem with rfl | later
    · exact le_refl c
    · exact (second c later).le
  ext x
  simp only [Finset.mem_union, mem_absent, List.mem_toFinset, Finset.mem_Ioo]
  constructor
  · rintro ⟨⟨c, hc, d, hd, low, high⟩, out⟩
    rw [List.mem_cons, not_or] at out
    have above : a < x := by
      rcases List.mem_cons.mp hc with rfl | later
      · exact lt_of_le_of_ne low fun same => out.1 same.symm
      · exact (first c later).trans_le low
    by_cases before : x < b
    · exact .inl ⟨above, before⟩
    · refine .inr ⟨⟨b, List.mem_cons_self, d, ?_, by omega, high⟩, out.2⟩
      rcases List.mem_cons.mp hd with rfl | later
      · omega
      · exact later
  · rintro (⟨above, before⟩ | ⟨⟨c, hc, d, hd, low, high⟩, out⟩)
    · refine ⟨⟨a, by simp, b, by simp, above.le, before.le⟩, ?_⟩
      rw [List.mem_cons, not_or]
      refine ⟨above.ne', ?_⟩
      intro later
      have := least x later
      omega
    · refine ⟨⟨c, List.mem_cons_of_mem a hc, d, List.mem_cons_of_mem a hd, low, high⟩, ?_⟩
      rw [List.mem_cons, not_or]
      have := least c hc
      exact ⟨by omega, out⟩

/-- The steps pass over just what is left out. -/
theorem mem_absent_steps (sorted : l.Pairwise (· < ·)) :
    x ∈ absent l.toFinset ↔ ∃ step ∈ steps l, step.1 < x ∧ x < step.2 := by
  induction l using steps.induct with
  | case1 c d rest wide ih =>
    rw [absent_cons sorted, Finset.mem_union, ih (List.pairwise_cons.mp sorted).2, steps,
      if_pos wide, Finset.mem_Ioo]
    simp
  | case2 c d rest narrow ih =>
    rw [absent_cons sorted, Finset.mem_union, ih (List.pairwise_cons.mp sorted).2, steps,
      if_neg narrow, Finset.mem_Ioo]
    constructor
    · rintro (between | later)
      · omega
      · exact later
    · exact .inr
  | case3 l short =>
    match l, short with
    | [], _ => simp [absent, hull, steps]
    | [c], _ =>
      simp only [mem_absent, List.mem_toFinset, List.mem_singleton, steps, List.not_mem_nil]
      constructor
      · rintro ⟨⟨_, rfl, _, rfl, low, high⟩, out⟩
        omega
      · rintro ⟨_, none, -⟩
        cases none
    | c :: d :: rest, short => exact absurd rfl (short c d rest)

/-- A step passes over no member. -/
theorem steps_between (sorted : l.Pairwise (· < ·)) (mem : (a, b) ∈ steps l) (inside : x ∈ l) :
    x ≤ a ∨ b ≤ x := by
  by_contra between
  have out : x ∈ absent l.toFinset :=
    (mem_absent_steps sorted).mpr ⟨(a, b), mem, by omega, by omega⟩
  exact (mem_absent.mp out).2 (List.mem_toFinset.mpr inside)

theorem steps_pairwise (sorted : l.Pairwise (· < ·)) :
    (steps l).Pairwise fun step later => step.2 ≤ later.1 := by
  induction l using steps.induct with
  | case1 c d rest wide ih =>
    have after := (List.pairwise_cons.mp sorted).2
    rw [steps, if_pos wide, List.pairwise_cons]
    refine ⟨?_, ih after⟩
    intro step mem
    rcases List.mem_cons.mp (steps_mem mem).1 with same | later
    · exact same.ge
    · exact ((List.pairwise_cons.mp after).1 _ later).le
  | case2 c d rest narrow ih =>
    rw [steps, if_neg narrow]
    exact ih (List.pairwise_cons.mp sorted).2
  | case3 l short => simp [steps]

/-- What a fuller list still leaves out it leaves out inside a step of the first. -/
theorem steps_nested {l' : List ℤ} {a' b' : ℤ} (sorted : l.Pairwise (· < ·))
    (sorted' : l'.Pairwise (· < ·)) (more : ∀ x ∈ l, x ∈ l')
    (fewer : absent l'.toFinset ⊆ absent l.toFinset) (mem : (a', b') ∈ steps l') :
    ∃ step ∈ steps l, step.1 ≤ a' ∧ b' ≤ step.2 := by
  have wide := (steps_mem mem).2.2
  have out : a' + 1 ∈ absent l'.toFinset :=
    (mem_absent_steps sorted').mpr ⟨(a', b'), mem, by omega, wide⟩
  obtain ⟨⟨a, b⟩, step, below, above⟩ := (mem_absent_steps sorted).mp (fewer out)
  obtain ⟨ha, hb, -⟩ := steps_mem step
  refine ⟨(a, b), step, ?_, ?_⟩
  · have := steps_between sorted' mem (more a ha)
    simp only at *
    omega
  · have := steps_between sorted' mem (more b hb)
    simp only at *
    omega

theorem sum_steps (sorted : l.Pairwise (· < ·)) :
    ((steps l).map fun step => step.2 - step.1 - 1).sum = ((absent l.toFinset).card : ℤ) := by
  have apart {c d : ℤ} {rest : List ℤ} (sorted : (c :: d :: rest).Pairwise (· < ·)) :
      Disjoint (Finset.Ioo c d) (absent (d :: rest).toFinset) := by
    rw [Finset.disjoint_left]
    intro x between out
    obtain ⟨⟨e, mem, -, -, low, -⟩, -⟩ := mem_absent.mp out
    have second := (List.pairwise_cons.mp (List.pairwise_cons.mp sorted).2).1
    have least : d ≤ e := by
      rcases List.mem_cons.mp (List.mem_toFinset.mp mem) with rfl | later
      · exact le_refl e
      · exact (second e later).le
    have := (Finset.mem_Ioo.mp between).2
    omega
  induction l using steps.induct with
  | case1 c d rest wide ih =>
    rw [absent_cons sorted, Finset.card_union_of_disjoint (apart sorted), Int.card_Ioo, steps,
      if_pos wide, List.map_cons, List.sum_cons, ih (List.pairwise_cons.mp sorted).2]
    push_cast
    omega
  | case2 c d rest narrow ih =>
    have less := (List.pairwise_cons.mp sorted).1 d List.mem_cons_self
    rw [absent_cons sorted, Finset.card_union_of_disjoint (apart sorted), Int.card_Ioo, steps,
      if_neg narrow, ih (List.pairwise_cons.mp sorted).2]
    push_cast
    omega
  | case3 l short =>
    match l, short with
    | [], _ => simp [absent, hull, steps]
    | [c], _ => simp [absent, hull, steps]
    | c :: d :: rest, short => exact absurd rfl (short c d rest)

theorem hull_sorted {c : ℤ} (sorted : l.Pairwise (· < ·)) (first : l.head? = some a)
    (last : l.getLast? = some c) : hull l.toFinset = Finset.Icc a c := by
  have low : a ∈ l ∧ ∀ x ∈ l, a ≤ x := by
    obtain ⟨rest, rfl⟩ := List.head?_eq_some_iff.mp first
    have above := (List.pairwise_cons.mp sorted).1
    refine ⟨List.mem_cons_self, ?_⟩
    intro x mem
    rcases List.mem_cons.mp mem with rfl | later
    · exact le_refl x
    · exact (above x later).le
  have high : c ∈ l ∧ ∀ x ∈ l, x ≤ c := by
    obtain ⟨init, rfl⟩ := List.getLast?_eq_some_iff.mp last
    have below := (List.pairwise_append.mp sorted).2.2
    refine ⟨by simp, ?_⟩
    intro x mem
    rcases List.mem_append.mp mem with before | here
    · exact (below x before c (by simp)).le
    · exact (List.mem_singleton.mp here).le
  ext x
  simp only [mem_hull, List.mem_toFinset, Finset.mem_Icc]
  constructor
  · rintro ⟨d, hd, e, he, below, above⟩
    exact ⟨(low.2 d hd).trans below, above.trans (high.2 e he)⟩
  · rintro ⟨below, above⟩
    exact ⟨a, low.1, c, high.1, below, above⟩

end

end Holes
