import Zcrypto.Prefixes

/- Figures of a window that trails a place, kept from one place to the next by what leaves the window and what enters it. -/
namespace Trailing
open Prefixes
variable {α β σ : Type}

/-- A figure of a list that can follow its list: one more at the end, one less at the start. -/
structure Figure (α σ : Type) where
  total : List α → σ
  add : σ → α → σ
  drop : σ → α → σ
  add_total : ∀ w x, total (w ++ [x]) = add (total w) x
  drop_total : ∀ w x, drop (total (x :: w)) x = total w

/-- The window of a length that ends before a place. -/
def window (xs : List α) (length k : Nat) : List α := slice xs (k - length) k

variable {xs : List α} {length k : Nat}

theorem slice_snoc {lo : Nat} {x : α} (inside : lo ≤ k) (here : xs[k]? = some x) :
    slice xs lo (k + 1) = slice xs lo k ++ [x] := by
  have within := (List.getElem?_eq_some_iff.mp here).1
  unfold slice
  rw [List.take_add_one, here, List.drop_append_of_le_length]
  · rfl
  · rw [List.length_take]
    omega

theorem slice_cons {lo : Nat} {x : α} (before : lo < k) (here : xs[lo]? = some x) :
    slice xs lo k = x :: slice xs (lo + 1) k := by
  obtain ⟨within, at_lo⟩ := List.getElem?_eq_some_iff.mp here
  unfold slice
  rw [List.drop_eq_getElem_cons (by rw [List.length_take]; omega), List.getElem_take, at_lo]

theorem slice_length {lo hi : Nat} (inside : hi ≤ xs.length) : (slice xs lo hi).length = hi - lo := by
  unfold slice
  rw [List.length_drop, List.length_take, Nat.min_eq_left inside]

theorem slice_map (f : α → β) (lo hi : Nat) : slice (xs.map f) lo hi = (slice xs lo hi).map f := by
  unfold slice
  rw [← List.map_take, ← List.map_drop]

theorem window_zero (xs : List α) (length : Nat) : window xs length 0 = [] := by
  unfold window slice
  rw [List.take_zero, List.drop_nil]

theorem window_length (inside : k ≤ xs.length) (whole : length ≤ k) : (window xs length k).length = length := by
  unfold window
  rw [slice_length inside]
  omega

variable (figure : Figure α σ)

/-- What enters takes the window a place on, once what leaves has left. -/
theorem drop_add (d : α) (some_ : 0 < length) (inside : k < xs.length) :
    figure.add (if length ≤ k then figure.drop (figure.total (window xs length k)) (xs.getD (k - length) d)
      else figure.total (window xs length k)) (xs.getD k d) = figure.total (window xs length (k + 1)) := by
  have enters := List.getElem?_eq_getElem inside
  have leaves := List.getElem?_eq_getElem (show k - length < xs.length by omega)
  rw [List.getD_eq_getElem?_getD, List.getD_eq_getElem?_getD, enters, leaves, Option.getD_some, Option.getD_some]
  unfold window
  split
  · rw [slice_cons (show k - length < k by omega) leaves, figure.drop_total, show k + 1 - length = k - length + 1 by omega,
      slice_snoc (by omega) enters, figure.add_total]
  · rw [show k + 1 - length = k - length by omega, slice_snoc (by omega) enters, figure.add_total]

/-- What enters may come first. -/
theorem add_drop (d : α) (some_ : 0 < length) (inside : k < xs.length) :
    (if length ≤ k then figure.drop (figure.add (figure.total (window xs length k)) (xs.getD k d)) (xs.getD (k - length) d)
      else figure.add (figure.total (window xs length k)) (xs.getD k d)) = figure.total (window xs length (k + 1)) := by
  have enters := List.getElem?_eq_getElem inside
  have leaves := List.getElem?_eq_getElem (show k - length < xs.length by omega)
  rw [List.getD_eq_getElem?_getD, List.getD_eq_getElem?_getD, enters, leaves, Option.getD_some, Option.getD_some]
  unfold window
  rw [← figure.add_total, ← slice_snoc (show k - length ≤ k by omega) enters]
  split
  · rw [slice_cons (show k - length < k + 1 by omega) leaves, figure.drop_total, show k + 1 - length = k - length + 1 by omega]
  · rw [show k + 1 - length = k - length by omega]

/-- A pass over places whose state is known at each answers of what is known. -/
theorem sweep_places {f : σ → Nat → σ × β} {states : Nat → σ} {n : Nat}
    (next : ∀ k < n, (f (states k) k).1 = states (k + 1)) :
    sweep f (states 0) (List.range n) = (List.range n).map fun k => (f (states k) k).2 := by
  have from_ : ∀ m a, (∀ k < a + m, (f (states k) k).1 = states (k + 1)) →
      sweep f (states a) (List.range' a m) = (List.range' a m).map fun k => (f (states k) k).2 := by
    intro m
    induction m with
    | zero =>
      intro a _
      rfl
    | succ m ih =>
      intro a next
      rw [List.range'_succ, sweep, List.map_cons, next a (by omega), ih (a + 1) (fun k inside => next k (by omega))]
  rw [List.range_eq_range']
  exact from_ n 0 (by simpa using next)

end Trailing
