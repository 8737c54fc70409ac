import Mathlib.Data.List.Sort
import Mathlib.Data.List.Nodup

/- Lists whose members are told apart by a key, and one such list laid over another: the keys
   both hold go to the first list unless they are taken from it. -/
namespace Keyed

section
variable {α κ : Type} [LinearOrder κ] (key : α → κ)

/-- No two members share a key. -/
def Distinct (l : List α) : Prop :=
  (l.map key).Nodup

/-- Every member's key is above those before it. -/
def Ascending (l : List α) : Prop :=
  l.Pairwise fun a b => key a < key b

def holds (l : List α) (k : κ) : Bool :=
  l.any fun a => key a = k

def arrange (l : List α) : List α :=
  l.insertionSort fun a b => key a ≤ key b

/-- `upper` laid over `lower`: the members of `lower`, except that a taken key's come from `upper`,
    and the members of `upper` at keys that `lower` has not. -/
def overlay (taken : κ → Bool) (lower upper : List α) : List α :=
  arrange key (lower.filter (fun a => !taken (key a)) ++ upper.filter (fun a => taken (key a)) ++
    upper.filter (fun a => !holds key lower (key a)))

variable {key} {l lower upper : List α} {taken : κ → Bool} {a b : α} {k : κ}

instance : Decidable (Distinct key l) :=
  inferInstanceAs (Decidable (l.map key).Nodup)

instance : Decidable (Ascending key l) :=
  inferInstanceAs (Decidable (l.Pairwise fun a b => key a < key b))

@[simp] theorem holds_iff : holds key l k = true ↔ ∃ a ∈ l, key a = k := by
  simp [holds]

@[simp] theorem mem_arrange : a ∈ arrange key l ↔ a ∈ l :=
  (List.perm_insertionSort _ l).mem_iff

@[simp] theorem length_arrange : (arrange key l).length = l.length :=
  (List.perm_insertionSort _ l).length_eq

theorem Ascending.distinct (h : Ascending key l) : Distinct key l :=
  List.pairwise_map.mpr (h.imp ne_of_lt)

omit [LinearOrder κ] in
theorem Distinct.same (h : Distinct key l) (ha : a ∈ l) (hb : b ∈ l) (same : key a = key b) :
    a = b :=
  List.inj_on_of_nodup_map h ha hb same

omit [LinearOrder κ] in
theorem Distinct.filter (h : Distinct key l) (p : α → Bool) : Distinct key (l.filter p) :=
  h.sublist (List.filter_sublist.map key)

theorem Distinct.arrange (h : Distinct key l) : Distinct key (arrange key l) :=
  ((List.perm_insertionSort _ l).map key).nodup_iff.mpr h

/-- Members with keys of their own stand in ascending order once they are arranged. -/
theorem Distinct.ascending (h : Distinct key l) : Ascending key (Keyed.arrange key l) := by
  have total : Std.Total (fun a b : α => key a ≤ key b) := ⟨fun a b => le_total (key a) (key b)⟩
  have trans : IsTrans α fun a b => key a ≤ key b := ⟨fun _ _ _ => le_trans⟩
  have sorted := List.pairwise_insertionSort (fun a b : α => key a ≤ key b) l
  have apart := List.pairwise_map.mp h.arrange
  exact (sorted.and apart).imp fun both => lt_of_le_of_ne both.1 both.2

/-- Members that stand in ascending order in one arrangement do so in no other. -/
theorem Ascending.arranges (h : Ascending key lower) (same : l.Perm lower) : arrange key l = lower := by
  have distinct : Distinct key l := (same.map key).nodup_iff.mpr h.distinct
  refine List.Perm.eq_of_pairwise ?_ distinct.ascending h ((List.perm_insertionSort _ l).trans same)
  exact fun a b _ _ less more => absurd less (lt_asymm more)

theorem mem_overlay : a ∈ overlay key taken lower upper ↔
    (a ∈ lower ∧ taken (key a) = false) ∨ (a ∈ upper ∧ taken (key a) = true) ∨
      (a ∈ upper ∧ ∀ b ∈ lower, key b ≠ key a) := by
  simp [overlay, holds]

/-- The keys taken are the lower list's own, so the three parts share none. -/
theorem ascending_overlay (hl : Distinct key lower) (hu : Distinct key upper)
    (within : ∀ k, taken k = true → holds key lower k = true) :
    Ascending key (overlay key taken lower upper) := by
  apply Distinct.ascending
  unfold Distinct
  rw [List.map_append, List.map_append, List.nodup_append, List.nodup_append]
  refine ⟨⟨hl.filter _, hu.filter _, ?_⟩, hu.filter _, ?_⟩
  · simp only [List.mem_map, List.mem_filter]
    rintro k ⟨a, ⟨-, free⟩, rfl⟩ _ ⟨b, ⟨-, took⟩, rfl⟩ same
    rw [same, took] at free
    cases free
  · simp only [List.mem_append, List.mem_map, List.mem_filter]
    rintro k (⟨a, ⟨old, -⟩, rfl⟩ | ⟨a, ⟨-, took⟩, rfl⟩) _ ⟨b, ⟨-, fresh⟩, rfl⟩ same
    · have held : holds key lower (key b) = true := holds_iff.mpr ⟨a, old, same⟩
      rw [held] at fresh
      cases fresh
    · rw [← same, within _ took] at fresh
      cases fresh

/-- With no key taken the overlay is the union by key. -/
theorem mem_overlay_none : a ∈ overlay key (fun _ => false) lower upper ↔
    a ∈ lower ∨ (a ∈ upper ∧ ∀ b ∈ lower, key b ≠ key a) := by
  simp [mem_overlay]

theorem length_overlay_none : (overlay key (fun _ => false) lower upper).length =
    lower.length + (upper.filter fun a => !holds key lower (key a)).length := by
  simp [overlay]

/-- Nothing is added where every upper key is there already. -/
theorem length_overlay_covered (covered : ∀ a ∈ upper, holds key lower (key a) = true) :
    (overlay key (fun _ => false) lower upper).length = lower.length := by
  rw [length_overlay_none, List.filter_eq_nil_iff.mpr, List.length_nil, Nat.add_zero]
  intro a mem
  simp [covered a mem]

/-- An overlay that added nothing had nothing to add. -/
theorem covered_of_length (same : (overlay key (fun _ => false) lower upper).length = lower.length) :
    ∀ a ∈ upper, holds key lower (key a) = true := by
  intro a mem
  rw [length_overlay_none] at same
  have none : upper.filter (fun a => !holds key lower (key a)) = [] :=
    List.length_eq_zero_iff.mp (by omega)
  have kept := List.filter_eq_nil_iff.mp none a mem
  simpa using kept

end

/- Lists of pairs. -/

section
variable {κ α : Type} [DecidableEq κ] {items : List (κ × α)} {k : κ} {v : α}

/-- Under keys of their own, the items alone say what is found. -/
theorem lookup_iff (distinct : (items.map Prod.fst).Nodup) :
    items.lookup k = some v ↔ (k, v) ∈ items := by
  induction items with
  | nil => simp
  | cons item rest ih =>
    obtain ⟨key, value⟩ := item
    rw [List.map_cons, List.nodup_cons] at distinct
    rw [List.lookup_cons, List.mem_cons]
    by_cases same : k = key
    · subst same
      simp only [beq_self_eq_true, Prod.mk.injEq, true_and, Option.some.injEq]
      constructor
      · intro found
        exact Or.inl found.symm
      · rintro (found | later)
        · exact found.symm
        · exact absurd (List.mem_map_of_mem later) distinct.1
    · have differs : (k == key) = false := by simpa using same
      simp only [differs, ih distinct.2, Prod.mk.injEq, same, false_and, false_or]

omit [DecidableEq κ] in
/-- The keys of a zip are the first list's, as far as the second goes. -/
theorem zip_keys_sublist (keys : List κ) (values : List α) :
    ((keys.zip values).map Prod.fst).Sublist keys := by
  induction keys generalizing values with
  | nil => simp
  | cons key rest ih =>
    cases values with
    | nil => simp
    | cons value others =>
      rw [List.zip_cons_cons, List.map_cons]
      exact (ih others).cons_cons key

omit [DecidableEq κ] in
theorem zip_map_right_self (keys : List κ) (f : κ → α) :
    keys.zip (keys.map f) = keys.map fun key => (key, f key) := by
  induction keys with
  | nil => rfl
  | cons key rest ih => rw [List.map_cons, List.zip_cons_cons, ih, List.map_cons]

/-- What was put under a key is what is there, the keys being all different. -/
theorem foldl_update {f : κ → Option α} (distinct : (items.map Prod.fst).Nodup)
    (mem : (k, v) ∈ items) :
    items.foldl (fun (f : κ → Option α) item => Function.update f item.1 (some item.2)) f k =
      some v := by
  have aside : ∀ {items : List (κ × α)} {f : κ → Option α}, k ∉ items.map Prod.fst →
      items.foldl (fun (f : κ → Option α) item => Function.update f item.1 (some item.2)) f k =
        f k := by
    intro items
    induction items with
    | nil => exact fun _ => rfl
    | cons item rest ih =>
      intro f absent
      rw [List.map_cons, List.mem_cons, not_or] at absent
      rw [List.foldl_cons, ih absent.2, Function.update_of_ne absent.1]
  induction items generalizing f with
  | nil => cases mem
  | cons item rest ih =>
    rw [List.map_cons, List.nodup_cons] at distinct
    rw [List.foldl_cons]
    rcases List.mem_cons.mp mem with same | later
    · subst same
      rw [aside distinct.1, Function.update_self]
    · exact ih distinct.2 later

end

end Keyed
