import Mathlib.Data.List.Sublists
import Mathlib.Data.Nat.Choose.Basic

/- The combinations of a list's members, so many at a time, in the list's own order. -/
namespace Combinations
variable {α : Type} {k : Nat} {a : α} {l c : List α}

def combinations : Nat → List α → List (List α)
  | 0, _ => [[]]
  | _ + 1, [] => []
  | k + 1, a :: rest => (combinations k rest).map (a :: ·) ++ combinations (k + 1) rest

theorem combinations_perm (k : Nat) (l : List α) : (combinations k l).Perm (l.sublistsLen k) := by
  induction l generalizing k with
  | nil =>
    cases k with
    | zero => exact List.Perm.refl _
    | succ k => exact List.Perm.refl _
  | cons a rest ih =>
    cases k with
    | zero =>
      rw [List.sublistsLen_zero]
      exact List.Perm.refl _
    | succ k =>
      rw [List.sublistsLen_succ_cons]
      exact (((ih k).map _).append (ih (k + 1))).trans List.perm_append_comm

theorem mem_combinations : c ∈ combinations k l ↔ c.Sublist l ∧ c.length = k :=
  (combinations_perm k l).mem_iff.trans List.mem_sublistsLen

theorem combinations_nodup (distinct : l.Nodup) : (combinations k l).Nodup :=
  (combinations_perm k l).nodup_iff.mpr (List.nodup_sublistsLen k distinct)

theorem combinations_length : (combinations k l).length = l.length.choose k :=
  (combinations_perm k l).length_eq.trans (List.length_sublistsLen k l)

section
variable [DecidableEq α]

theorem combinations_without (outside : a ∉ l) : (combinations k l).countP (a ∈ ·) = 0 := by
  apply List.countP_eq_zero.mpr
  intro c mem
  have inside := (mem_combinations.mp mem).1
  simpa using fun of_c => outside (inside.subset of_c)

/-- A member is in as many combinations as the others have without it. -/
theorem combinations_with (distinct : l.Nodup) (mem : a ∈ l) :
    (combinations (k + 1) l).countP (a ∈ ·) = (l.length - 1).choose k := by
  induction l generalizing k with
  | nil => cases mem
  | cons b rest ih =>
    obtain ⟨apart, distinct⟩ := List.nodup_cons.mp distinct
    rw [combinations, List.countP_append, List.countP_map, List.length_cons, Nat.add_sub_cancel]
    by_cases here : a = b
    · subst here
      have each : (combinations k rest).countP ((fun c => decide (a ∈ c)) ∘ (a :: ·)) = (combinations k rest).length := by
        apply List.countP_eq_length.mpr
        intro c _
        simp
      rw [each, combinations_length, combinations_without apart, Nat.add_zero]
    · have later := List.mem_of_ne_of_mem here mem
      have same : (fun c => decide (a ∈ c)) ∘ (b :: ·) = fun c : List α => decide (a ∈ c) := by
        funext c
        simp [here]
      obtain ⟨n, count⟩ : ∃ n, rest.length = n + 1 := Nat.exists_eq_succ_of_ne_zero (List.length_pos_of_mem later).ne'
      rw [same, ih distinct later, count, Nat.add_sub_cancel]
      cases k with
      | zero => simp [combinations]
      | succ k =>
        rw [ih distinct later, count, Nat.add_sub_cancel]
        exact (Nat.choose_succ_succ n k).symm

end

end Combinations
