import Mathlib.Data.List.Basic

/- A store that is written once: a key takes a value, finds the value it has, or refuses another. A run of
   writes that stops anywhere is taken up again by the same writes. -/
namespace WriteOnce

section
variable {κ α : Type} [DecidableEq κ] [DecidableEq α]

/-- The key that already has another value is the error. -/
def put (s : List (κ × α)) (item : κ × α) : Except κ (List (κ × α)) :=
  match s.lookup item.1 with
  | none => .ok (s ++ [item])
  | some held => if held = item.2 then .ok s else .error item.1

/-- The store as the writes leave it, the first refusal their end. -/
def fill (s : List (κ × α)) : List (κ × α) → List (κ × α)
  | [] => s
  | item :: rest =>
      match put s item with
      | .ok t => fill t rest
      | .error _ => s

/-- What one store holds another holds too. -/
def Grows (s t : List (κ × α)) : Prop :=
  ∀ k v, s.lookup k = some v → t.lookup k = some v

def Held (s : List (κ × α)) (items : List (κ × α)) : Prop :=
  ∀ item ∈ items, s.lookup item.1 = some item.2

variable {s t u : List (κ × α)} {item : κ × α} {items more : List (κ × α)} {k : κ} {v : α}

omit [DecidableEq α] in
theorem lookup_concat (absent : s.lookup item.1 = none) :
    (s ++ [item]).lookup k = if k = item.1 then some item.2 else s.lookup k := by
  obtain ⟨key, value⟩ := item
  induction s with
  | nil =>
    rw [List.nil_append, List.lookup_cons]
    by_cases same : k = key
    · simp [same]
    · have differs : (k == key) = false := by simpa using same
      simp [differs, same]
  | cons first rest ih =>
    obtain ⟨head, held⟩ := first
    rw [List.lookup_cons] at absent
    rw [List.cons_append, List.lookup_cons, List.lookup_cons]
    cases other : key == head with
    | true => simp [other] at absent
    | false =>
      rw [ih (by simpa [other] using absent)]
      by_cases same : k = key
      · subst same
        simp [other]
      · simp [same]

omit [DecidableEq α] in
theorem Grows.refl (s : List (κ × α)) : Grows s s :=
  fun _ _ found => found

omit [DecidableEq α] in
theorem Grows.trans (first : Grows s t) (second : Grows t u) : Grows s u :=
  fun k v found => second k v (first k v found)

/-- A write that is taken leaves the store as it was or one longer. -/
theorem put_ok (h : put s item = .ok t) :
    (t = s ∧ s.lookup item.1 = some item.2) ∨ (t = s ++ [item] ∧ s.lookup item.1 = none) := by
  unfold put at h
  split at h
  · rename_i absent
    injection h with same
    exact .inr ⟨same.symm, absent⟩
  · rename_i held found
    split at h
    · rename_i same
      injection h with unchanged
      exact .inl ⟨unchanged.symm, same ▸ found⟩
    · cases h

theorem put_held (held : s.lookup item.1 = some item.2) : put s item = .ok s := by
  simp [put, held]

theorem put_absent (absent : s.lookup item.1 = none) : put s item = .ok (s ++ [item]) := by
  simp [put, absent]

theorem put_grows (h : put s item = .ok t) : Grows s t := by
  rcases put_ok h with ⟨same, -⟩ | ⟨same, absent⟩
  · rw [same]
    exact Grows.refl s
  · intro k v found
    rw [same, lookup_concat absent, if_neg]
    · exact found
    · intro here
      rw [here, absent] at found
      cases found

theorem put_found (h : put s item = .ok t) : t.lookup item.1 = some item.2 := by
  rcases put_ok h with ⟨same, found⟩ | ⟨same, absent⟩
  · rw [same]
    exact found
  · rw [same, lookup_concat absent, if_pos rfl]

theorem fill_grows (s items : List (κ × α)) : Grows s (fill s items) := by
  induction items generalizing s with
  | nil => exact Grows.refl s
  | cons item rest ih =>
    rw [fill]
    cases taken : put s item with
    | ok t => exact (put_grows taken).trans (ih t)
    | error key => exact Grows.refl s

/-- What a store gains comes from the writes. -/
theorem fill_new (found : (fill s items).lookup k = some v) : s.lookup k = some v ∨ (k, v) ∈ items := by
  induction items generalizing s with
  | nil => exact .inl found
  | cons item rest ih =>
    rw [fill] at found
    cases taken : put s item with
    | error key => exact .inl (by simpa [taken] using found)
    | ok t =>
      rw [taken] at found
      rcases ih found with here | later
      · rcases put_ok taken with ⟨same, -⟩ | ⟨same, absent⟩
        · exact .inl (same ▸ here)
        · rw [same, lookup_concat absent] at here
          by_cases new : k = item.1
          · rw [if_pos new] at here
            injection here with value
            exact .inr (by rw [new, ← value]; exact List.mem_cons_self)
          · rw [if_neg new] at here
            exact .inl here
      · exact .inr (List.mem_cons_of_mem _ later)

/-- Writes only append. -/
theorem fill_appends (s items : List (κ × α)) : ∃ gained, fill s items = s ++ gained := by
  induction items generalizing s with
  | nil => exact ⟨[], (List.append_nil s).symm⟩
  | cons item rest ih =>
    rw [fill]
    cases taken : put s item with
    | error key => exact ⟨[], (List.append_nil s).symm⟩
    | ok t =>
      obtain ⟨gained, same⟩ := ih t
      rcases put_ok taken with ⟨here, -⟩ | ⟨here, -⟩
      · exact ⟨gained, same.trans (by rw [here])⟩
      · exact ⟨item :: gained, same.trans (by rw [here, List.append_assoc]; rfl)⟩

theorem fill_held (held : Held s items) : fill s (items ++ more) = fill s more := by
  induction items with
  | nil => rfl
  | cons item rest ih =>
    rw [List.cons_append, fill, put_held (held item List.mem_cons_self)]
    exact ih fun other mem => held other (List.mem_cons_of_mem item mem)

/-- Writes that stopped anywhere come to the same when they are made again from the start. -/
theorem fill_resume (s items more : List (κ × α)) :
    fill (fill s items) (items ++ more) = fill s (items ++ more) := by
  induction items generalizing s with
  | nil => rfl
  | cons item rest ih =>
    rw [List.cons_append]
    cases taken : put s item with
    | ok t =>
      have here : fill s (item :: rest) = fill t rest := by rw [fill, taken]
      have there : fill s (item :: (rest ++ more)) = fill t (rest ++ more) := by rw [fill, taken]
      rw [here, there, fill, put_held (fill_grows t rest _ _ (put_found taken))]
      exact ih t
    | error key =>
      have here : fill s (item :: rest) = s := by rw [fill, taken]
      rw [here]

/-- Either every write was taken, and the rest go on from there, or a refusal ended them. -/
theorem fill_append (s items more : List (κ × α)) :
    (Held (fill s items) items ∧ fill s (items ++ more) = fill (fill s items) more) ∨
      fill s (items ++ more) = fill s items := by
  induction items generalizing s with
  | nil => exact .inl ⟨fun _ mem => absurd mem List.not_mem_nil, rfl⟩
  | cons item rest ih =>
    rw [List.cons_append, fill, fill]
    cases taken : put s item with
    | error key => exact .inr rfl
    | ok t =>
      rcases ih t with ⟨held, on⟩ | refused
      · refine .inl ⟨?_, on⟩
        intro other mem
        rcases List.mem_cons.mp mem with same | later
        · rw [same]
          exact fill_grows t rest _ _ (put_found taken)
        · exact held other later
      · exact .inr refused

/-- One more write leaves the store as it was or one longer. -/
theorem fill_next (s items : List (κ × α)) (n : Nat) :
    fill s (items.take (n + 1)) = fill s (items.take n) ∨
      ∃ item, items[n]? = some item ∧ fill s (items.take (n + 1)) = fill s (items.take n) ++ [item] := by
  cases next : items[n]? with
  | none =>
    have short := List.getElem?_eq_none_iff.mp next
    rw [List.take_of_length_le short, List.take_of_length_le (Nat.le_succ_of_le short)]
    exact .inl rfl
  | some item =>
    have more : items.take (n + 1) = items.take n ++ [item] := by
      rw [List.take_add_one, next, Option.toList_some]
    rw [more]
    rcases fill_append s (items.take n) [item] with ⟨-, on⟩ | refused
    · rw [on, fill]
      cases taken : put (fill s (items.take n)) item with
      | error key => exact .inl rfl
      | ok t =>
        rcases put_ok taken with ⟨same, -⟩ | ⟨same, -⟩
        · exact .inl same
        · exact .inr ⟨item, rfl, same⟩
    · exact .inl refused

end

end WriteOnce
