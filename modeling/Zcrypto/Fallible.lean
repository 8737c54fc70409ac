import Mathlib.Data.List.Forall2

/- Computations that answer or fail: what a success says of its parts. -/
namespace Fallible
variable {ε δ α β : Type}

theorem bind_ok {x : Except ε α} {f : α → Except ε β} {b : β} :
    x >>= f = .ok b ↔ ∃ a, x = .ok a ∧ f a = .ok b := by
  cases x <;> simp [bind, Except.bind]

theorem ok_of_toBool {x : Except ε α} (ok : x.toBool = true) : ∃ a, x = .ok a := by
  cases x with
  | error e => cases ok
  | ok a => exact ⟨a, rfl⟩

/-- A check before the rest. -/
theorem then_ok {x : Except ε Unit} {f : Unit → Except ε β} {b : β} :
    x >>= f = .ok b ↔ x = .ok () ∧ f () = .ok b := by
  cases x <;> simp [bind, Except.bind]

theorem bind_error {x : Except ε α} {f : α → Except ε β} {e : ε} :
    x >>= f = .error e ↔ x = .error e ∨ ∃ a, x = .ok a ∧ f a = .error e := by
  cases x <;> simp [bind, Except.bind]

@[simp] theorem mapError_ok {x : Except ε α} {f : ε → δ} {a : α} :
    x.mapError f = .ok a ↔ x = .ok a := by
  cases x <;> simp [Except.mapError]

/-- A pass over a list succeeds item by item, in order. -/
theorem mapM_ok {f : α → Except ε β} {xs : List α} {ys : List β} :
    xs.mapM f = .ok ys ↔ List.Forall₂ (fun x y => f x = .ok y) xs ys := by
  induction xs generalizing ys with
  | nil =>
    rw [List.mapM_nil, List.forall₂_nil_left_iff]
    constructor
    · intro read
      injection read with same
      exact same.symm
    · intro same
      rw [same]
      rfl
  | cons x xs ih =>
    rw [List.mapM_cons, List.forall₂_cons_left_iff, bind_ok]
    constructor
    · rintro ⟨y, first, rest⟩
      obtain ⟨more, others, same⟩ := bind_ok.mp rest
      injection same with same
      exact ⟨y, more, first, ih.mp others, same.symm⟩
    · rintro ⟨y, more, first, others, same⟩
      exact ⟨y, first, bind_ok.mpr ⟨more, ih.mpr others, by rw [same]; rfl⟩⟩

/-- Lists paired off: each member of the first has its partner in the second. -/
theorem partner {R : α → β → Prop} {xs : List α} {ys : List β} (pairs : List.Forall₂ R xs ys)
    {x : α} (mem : x ∈ xs) : ∃ y ∈ ys, R x y := by
  induction pairs with
  | nil => cases mem
  | cons here others ih =>
    rcases List.mem_cons.mp mem with same | later
    · subst same
      exact ⟨_, List.mem_cons_self, here⟩
    · obtain ⟨y, there, related⟩ := ih later
      exact ⟨y, List.mem_cons_of_mem _ there, related⟩

theorem partner_of {R : α → β → Prop} {xs : List α} {ys : List β} (pairs : List.Forall₂ R xs ys)
    {y : β} (mem : y ∈ ys) : ∃ x ∈ xs, R x y :=
  partner (List.Forall₂.flip pairs) mem

/-- The last of a list has the last of the other for its partner. -/
theorem partner_last {R : α → β → Prop} {xs : List α} {x : α} {zs : List β}
    (pairs : List.Forall₂ R (xs ++ [x]) zs) :
    ∃ ys y, zs = ys ++ [y] ∧ List.Forall₂ R xs ys ∧ R x y := by
  induction xs generalizing zs with
  | nil =>
    obtain ⟨y, rest, related, none_left, same⟩ := List.forall₂_cons_left_iff.mp pairs
    rw [List.forall₂_nil_left_iff.mp none_left] at same
    exact ⟨[], y, same, .nil, related⟩
  | cons first xs ih =>
    obtain ⟨z, rest, here, others, same⟩ := List.forall₂_cons_left_iff.mp pairs
    obtain ⟨ys, y, parted, before, last⟩ := ih others
    exact ⟨z :: ys, y, by rw [same, parted]; rfl, .cons here before, last⟩

theorem mapM_ok_each {f : α → Except ε β} {xs : List α} {ys : List β} (h : xs.mapM f = .ok ys)
    {x : α} (mem : x ∈ xs) : ∃ y ∈ ys, f x = .ok y :=
  partner (mapM_ok.mp h) mem

/-- Each answer of a pass came from an item. -/
theorem mapM_ok_source {f : α → Except ε β} {xs : List α} {ys : List β} (h : xs.mapM f = .ok ys)
    {y : β} (mem : y ∈ ys) : ∃ x ∈ xs, f x = .ok y :=
  partner_of (mapM_ok.mp h) mem

/-- A pass whose each item answers what another's answer is mapped to. -/
theorem mapM_through {γ : Type} {f : α → Except ε β} {g : α → Except δ γ} {h : β → γ} {xs : List α} {ys : List β}
    (run : xs.mapM f = .ok ys) (each : ∀ x ∈ xs, ∀ y, f x = .ok y → g x = .ok (h y)) : xs.mapM g = .ok (ys.map h) := by
  rw [mapM_ok] at run ⊢
  induction run with
  | nil => exact .nil
  | cons one rest ih =>
    refine .cons (each _ List.mem_cons_self _ one) (ih ?_)
    intro x mem
    exact each x (List.mem_cons_of_mem _ mem)

/-- A pass of checks succeeds where each of them does. -/
theorem forM_ok {f : α → Except ε Unit} {xs : List α} :
    xs.forM f = .ok () ↔ ∀ x ∈ xs, f x = .ok () := by
  induction xs with
  | nil =>
    constructor
    · intro _ x mem
      cases mem
    · intro _
      rfl
  | cons x xs ih =>
    have step : (x :: xs).forM f = f x >>= fun _ => xs.forM f := rfl
    rw [step, then_ok, ih, List.forall_mem_cons]

/-- A pass fails where one of its items does. -/
theorem mapM_error {f : α → Except ε β} {xs : List α} {e : ε} (h : xs.mapM f = .error e) :
    ∃ x ∈ xs, f x = .error e := by
  induction xs with
  | nil => cases h
  | cons x xs ih =>
    rw [List.mapM_cons, bind_error] at h
    rcases h with first | ⟨y, _, rest⟩
    · exact ⟨x, List.mem_cons_self, first⟩
    · rcases bind_error.mp rest with later | ⟨more, _, done⟩
      · obtain ⟨z, there, failed⟩ := ih later
        exact ⟨z, List.mem_cons_of_mem _ there, failed⟩
      · cases done

/-- A pass that goes the same after what it does not depend on. -/
theorem foldlM_after {σ : Type} {f : σ → α → Except ε σ} {g : σ → β → σ}
    (apart : ∀ s s' x y, f s x = .ok s' → f (g s y) x = .ok (g s' y)) {xs : List α} {s s' : σ} (ys : List β)
    (h : xs.foldlM f s = .ok s') : xs.foldlM f (ys.foldl g s) = .ok (ys.foldl g s') := by
  induction xs generalizing s with
  | nil =>
    injection h with same
    rw [same]
    rfl
  | cons x xs ih =>
    rw [List.foldlM_cons] at h ⊢
    obtain ⟨mid, first, rest⟩ := bind_ok.mp h
    have one : f (ys.foldl g s) x = .ok (ys.foldl g mid) := by
      clear rest h ih
      induction ys generalizing s mid with
      | nil => exact first
      | cons y ys later => exact later (g mid y) (apart s mid x y first)
    exact bind_ok.mpr ⟨_, one, ih rest⟩

end Fallible
