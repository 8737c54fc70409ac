import Mathlib.Data.List.TakeWhile
import Mathlib.Data.List.TakeDrop
import Mathlib.Data.List.Infix
import Mathlib.Data.List.Zip

/- Lists that agree on their first places, and what is made of those alone: slices, rows, pairs, and what a pass with
   a state answers. -/
namespace Prefixes
variable {α β γ σ : Type} {m n : Nat} {xs ys : List α}

def Agree (n : Nat) (xs ys : List α) : Prop := xs.take n = ys.take n

/-- From the first place to before the second. -/
def slice (xs : List α) (lo hi : Nat) : List α := (xs.take hi).drop lo

theorem Agree.sooner (agree : Agree n xs ys) (sooner : m ≤ n) : Agree m xs ys := by
  unfold Agree at agree ⊢
  have shorter := congrArg (List.take m) agree
  rwa [List.take_take, List.take_take, Nat.min_eq_left sooner] at shorter

theorem Agree.at_ (agree : Agree n xs ys) {i : Nat} (inside : i < n) : xs[i]? = ys[i]? := by
  unfold Agree at agree
  rw [← List.getElem?_take_of_lt inside, agree, List.getElem?_take_of_lt inside]

theorem agree_of_each (each : ∀ i < n, xs[i]? = ys[i]?) : Agree n xs ys := by
  unfold Agree
  apply List.ext_getElem?
  intro i
  by_cases inside : i < n
  · rw [List.getElem?_take_of_lt inside, List.getElem?_take_of_lt inside, each i inside]
  · rw [List.getElem?_take_eq_none (by omega), List.getElem?_take_eq_none (by omega)]

theorem Agree.getD (agree : Agree n xs ys) {i : Nat} (inside : i < n) (d : α) : xs.getD i d = ys.getD i d := by
  rw [List.getD_eq_getElem?_getD, List.getD_eq_getElem?_getD, agree.at_ inside]

theorem Agree.slice (agree : Agree n xs ys) {lo hi : Nat} (inside : hi ≤ n) : slice xs lo hi = slice ys lo hi := by
  unfold Prefixes.slice
  rw [agree.sooner inside]

theorem Agree.map (agree : Agree n xs ys) (f : α → β) : Agree n (xs.map f) (ys.map f) := by
  unfold Agree at agree ⊢
  rw [← List.map_take, ← List.map_take, agree]

theorem Agree.zip {us vs : List β} (agree : Agree n xs ys) (also : Agree n us vs) : Agree n (xs.zip us) (ys.zip vs) := by
  unfold Agree at agree also ⊢
  rw [List.zip_eq_zipWith, List.zip_eq_zipWith, List.take_zipWith, List.take_zipWith, agree, also]

/-- Rows made one by one, each the same as far as they agree. -/
theorem agree_rows {f g : Nat → β} {a b : Nat} (same : ∀ i < n, f i = g i) (left : n ≤ a) (right : n ≤ b) :
    Agree n ((List.range a).map f) ((List.range b).map g) := by
  apply agree_of_each
  intro i inside
  rw [List.getElem?_map, List.getElem?_map, List.getElem?_range (by omega), List.getElem?_range (by omega)]
  exact congrArg some (same i inside)

/-- The place of what comes after things it is not among. -/
theorem idxOf?_split [BEq α] [LawfulBEq α] {before after : List α} {x : α} (fresh : x ∉ before) :
    (before ++ x :: after).idxOf? x = some before.length := by
  rw [List.idxOf?_eq_some_iff]
  refine ⟨by simp, by simp, ?_⟩
  intro j inside
  rw [List.getElem_append_left inside]
  intro same
  exact fresh (same ▸ List.getElem_mem inside)

theorem range_split {k : Nat} (inside : k < n) :
    List.range n = List.range k ++ k :: List.range' (k + 1) (n - (k + 1)) := by
  have joined := List.range'_append_1 (s := 0) (m := k) (n := n - (k + 1) + 1)
  rw [Nat.zero_add] at joined
  rw [List.range_eq_range', List.range_eq_range', ← List.range'_succ, joined]
  congr 1
  omega

/-- The place of a number among those that are chosen. -/
theorem place_of {p : Nat → Bool} {k : Nat} (inside : k < n) (holds : p k = true) :
    ((List.range n).filter p).idxOf? k = some ((List.range k).filter p).length := by
  rw [range_split inside, List.filter_append, List.filter_cons_of_pos holds]
  apply idxOf?_split
  intro mem
  have := List.mem_range.mp (List.mem_filter.mp mem).1
  omega

theorem place_of_none {p : Nat → Bool} {k : Nat} (not : p k = false) : ((List.range n).filter p).idxOf? k = none := by
  rw [List.idxOf?_eq_none_iff]
  intro mem
  rw [(List.mem_filter.mp mem).2] at not
  cases not

theorem getD_rows {f : Nat → β} {k : Nat} (inside : k < n) (d : β) : ((List.range n).map f).getD k d = f k := by
  rw [List.getD_eq_getElem?_getD, List.getElem?_map, List.getElem?_range inside]
  rfl

/-- What a pass answers for each item, with a state that it carries on. -/
def sweep (f : σ → α → σ × β) : σ → List α → List β
  | _, [] => []
  | s, x :: rest => (f s x).2 :: sweep f (f s x).1 rest

variable {f : σ → α → σ × β} {s : σ}

theorem sweep_take (n : Nat) : (sweep f s xs).take n = sweep f s (xs.take n) := by
  induction n generalizing s xs with
  | zero => rfl
  | succ n ih =>
    cases xs with
    | nil => rfl
    | cons x rest => rw [sweep, List.take_succ_cons, List.take_succ_cons, sweep, ih]

theorem sweep_map {g : γ → α} {zs : List γ} : sweep f s (zs.map g) = sweep (fun s z => f s (g z)) s zs := by
  induction zs generalizing s with
  | nil => rfl
  | cons z rest ih => rw [List.map_cons, sweep, ih, sweep]

theorem Agree.sweep (agree : Agree n xs ys) : Agree n (sweep f s xs) (sweep f s ys) := by
  unfold Agree at agree ⊢
  rw [sweep_take, sweep_take, agree]

end Prefixes
