import Zcrypto.Fallible
import Mathlib.Data.List.Sort
import Mathlib.Data.List.TakeWhile

/- Lists of what happens at instants, taken up to one. Two that are the same up to an instant are the same
   up to any earlier one, and so is what they leave after it. A sweep hands them out between boundaries, and
   one whose boundaries come by the instant cannot tell two such lists apart. -/
namespace UpTo
variable {α : Type} (at_ : α → Int)

/-- What comes before the first that is after an instant. -/
def early (t : Int) (xs : List α) : List α := xs.takeWhile (at_ · ≤ t)

/-- What is left from the first that is after an instant. -/
def late (t : Int) (xs : List α) : List α := xs.dropWhile (at_ · ≤ t)

def Agree (t : Int) (xs ys : List α) : Prop := early at_ t xs = early at_ t ys

def InOrder (xs : List α) : Prop := xs.Pairwise fun a b => at_ a ≤ at_ b

variable {at_} {s t : Int} {xs ys : List α}

theorem early_late (t : Int) (xs : List α) : early at_ t xs ++ late at_ t xs = xs :=
  List.takeWhile_append_dropWhile

theorem early_early (sooner : s ≤ t) : early at_ s (early at_ t xs) = early at_ s xs := by
  induction xs with
  | nil => rfl
  | cons x xs ih =>
    unfold early at ih ⊢
    by_cases here : at_ x ≤ s
    · have there : at_ x ≤ t := here.trans sooner
      simp [here, there, ih]
    · by_cases there : at_ x ≤ t
      · simp [here, there]
      · simp [here, there]

theorem early_rest (sooner : s ≤ t) : early at_ t (late at_ s xs) = late at_ s (early at_ t xs) := by
  induction xs with
  | nil => rfl
  | cons x xs ih =>
    unfold early late at ih ⊢
    by_cases here : at_ x ≤ s
    · have there : at_ x ≤ t := here.trans sooner
      simp [here, there, ih]
    · by_cases there : at_ x ≤ t
      · simp [here, there]
      · simp [here, there]

theorem Agree.early (agree : Agree at_ t xs ys) (sooner : s ≤ t) : early at_ s xs = early at_ s ys := by
  unfold Agree at agree
  rw [← early_early sooner, agree, early_early sooner]

theorem Agree.late (agree : Agree at_ t xs ys) (sooner : s ≤ t) : Agree at_ t (late at_ s xs) (late at_ s ys) := by
  unfold Agree at agree ⊢
  rw [early_rest sooner, agree, early_rest sooner]

theorem InOrder.late (order : InOrder at_ xs) (t : Int) : InOrder at_ (UpTo.late at_ t xs) :=
  order.sublist (List.dropWhile_sublist _)

/-- What is left of a list in order is all after the instant. -/
theorem InOrder.after (order : InOrder at_ xs) : ∀ x ∈ UpTo.late at_ t xs, t < at_ x := by
  induction xs with
  | nil => simp [UpTo.late]
  | cons x xs ih =>
    obtain ⟨first, rest⟩ := List.pairwise_cons.mp order
    intro y mem
    unfold UpTo.late at mem ih
    by_cases here : at_ x ≤ t
    · rw [List.dropWhile_cons_of_pos (by simpa using here)] at mem
      exact ih rest y mem
    · rw [List.dropWhile_cons_of_neg (by simpa using here)] at mem
      rcases List.mem_cons.mp mem with rfl | later
      · omega
      · have := first y later
        omega

/-- What is taken up to an instant is what is taken up to a sooner one, and what comes between. -/
theorem early_between (sooner : s ≤ t) (xs : List α) :
    early at_ t xs = early at_ s xs ++ early at_ t (late at_ s xs) := by
  have whole : early at_ s (early at_ t xs) ++ late at_ s (early at_ t xs) = early at_ t xs := early_late s _
  rw [early_early sooner, ← early_rest sooner] at whole
  exact whole.symm

theorem late_late (sooner : s ≤ t) (xs : List α) : late at_ t (late at_ s xs) = late at_ t xs := by
  induction xs with
  | nil => rfl
  | cons x xs ih =>
    unfold late at ih ⊢
    by_cases here : at_ x ≤ s
    · have there : at_ x ≤ t := here.trans sooner
      simp [here, there, ih]
    · simp [here]

theorem mem_early {x : α} (mem : x ∈ early at_ t xs) : at_ x ≤ t := by
  simpa using List.mem_takeWhile_imp mem

/- A sweep over boundaries. -/

section
variable {ε σ κ β : Type} (boundary : κ → Int) (at_ : α → Int) (time : β → Int)
  (step : κ → List α → List β → σ → Except ε σ)

/-- At each boundary a step is given what of the two lists comes by it. -/
def sweep : List κ → σ → List α → List β → Except ε (σ × List α × List β)
  | [], s, xs, ys => .ok (s, xs, ys)
  | k :: later, s, xs, ys => do
    let s ← step k (early at_ (boundary k) xs) (early time (boundary k) ys) s
    sweep later s (late at_ (boundary k) xs) (late time (boundary k) ys)

end

section
variable {ε σ κ β : Type} {boundary : κ → Int} {at_ : α → Int} {time : β → Int}
  {step : κ → List α → List β → σ → Except ε σ} {s : σ} {xs xs' : List α} {ys ys' : List β} {t : Int}

theorem sweep_append (first later : List κ) (s : σ) (xs : List α) (ys : List β) :
    sweep boundary at_ time step (first ++ later) s xs ys =
      sweep boundary at_ time step first s xs ys >>= fun (s, xs, ys) =>
        sweep boundary at_ time step later s xs ys := by
  induction first generalizing s xs ys with
  | nil => rfl
  | cons k first ih =>
    rw [List.cons_append, sweep, sweep, bind_assoc]
    congr 1
    funext stepped
    exact ih stepped _ _

/-- The boundaries by an instant, and those after it. -/
theorem sweep_split {ks : List κ} {out : σ × List α × List β} (t : Int)
    (swept : sweep boundary at_ time step ks s xs ys = .ok out) :
    ∃ s' left lefts, sweep boundary at_ time step (early boundary t ks) s xs ys = .ok (s', left, lefts) ∧
      sweep boundary at_ time step (late boundary t ks) s' left lefts = .ok out := by
  have whole : early boundary t ks ++ late boundary t ks = ks := early_late t ks
  rw [← whole, sweep_append] at swept
  obtain ⟨⟨s', left, lefts⟩, first, later⟩ := Fallible.bind_ok.mp swept
  exact ⟨s', left, lefts, first, later⟩

/-- Up to an instant a sweep is the same over lists that are, and leaves lists that are. -/
theorem sweep_agree {ks : List κ} {s' : σ} {left : List α} {lefts : List β} (soon : ∀ k ∈ ks, boundary k ≤ t)
    (first : Agree at_ t xs xs') (second : Agree time t ys ys')
    (swept : sweep boundary at_ time step ks s xs ys = .ok (s', left, lefts)) :
    ∃ left' lefts', sweep boundary at_ time step ks s xs' ys' = .ok (s', left', lefts') ∧
      Agree at_ t left left' ∧ Agree time t lefts lefts' := by
  induction ks generalizing s xs xs' ys ys' with
  | nil =>
    injection swept with same
    injection same with same rest
    injection rest with same_left same_lefts
    subst same same_left same_lefts
    exact ⟨xs', ys', rfl, first, second⟩
  | cons k ks ih =>
    obtain ⟨here, later⟩ := List.forall_mem_cons.mp soon
    unfold sweep at swept ⊢
    obtain ⟨stepped, step_ok, swept⟩ := Fallible.bind_ok.mp swept
    rw [← first.early here, ← second.early here, step_ok]
    exact ih later (first.late here) (second.late here) swept

/-- What is left of a list in order is in order. -/
theorem sweep_order {ks : List κ} {s' : σ} {left : List α} {lefts : List β} (order : InOrder time ys)
    (swept : sweep boundary at_ time step ks s xs ys = .ok (s', left, lefts)) : InOrder time lefts := by
  induction ks generalizing s xs ys with
  | nil =>
    injection swept with same
    injection same with _ rest
    injection rest with _ same
    exact same ▸ order
  | cons k ks ih =>
    unfold sweep at swept
    obtain ⟨stepped, _, swept⟩ := Fallible.bind_ok.mp swept
    exact ih (order.late _) swept

/-- Where a step takes what comes first ahead of the rest, what comes by an instant may be taken before the
    boundaries that are after it. -/
theorem sweep_ahead (ahead : List β → σ → σ) {k : κ} {ks : List κ} {out : σ × List α × List β}
    (splits : ∀ xs first rest s s', step k xs (first ++ rest) s = .ok s' → step k xs rest (ahead first s) = .ok s')
    (after : t < boundary k) (swept : sweep boundary at_ time step (k :: ks) s xs ys = .ok out) :
    sweep boundary at_ time step (k :: ks) (ahead (early time t ys) s) xs (late time t ys) = .ok out := by
  unfold sweep at swept ⊢
  have taken : early time (boundary k) ys = _ := early_between after.le ys
  rw [taken] at swept
  obtain ⟨stepped, step_ok, swept⟩ := Fallible.bind_ok.mp swept
  refine Fallible.bind_ok.mpr ⟨_, splits _ _ _ _ _ step_ok, ?_⟩
  rw [late_late after.le]
  exact swept

end

end UpTo
