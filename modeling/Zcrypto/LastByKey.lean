import Zcrypto.Keyed

/- The last member of each key: of a list as it stands, and of its arrangement, which leaves members of one key
   in the order they had. -/
namespace LastByKey
open Keyed

section
variable {α κ : Type} [LinearOrder κ] (key : α → κ)

/-- Members whose key comes again are left out. -/
def keepLast : List α → List α
  | [] => []
  | x :: rest => if holds key rest (key x) then keepLast rest else x :: keepLast rest

/-- The last of a list that has a key. -/
def lastOf (l : List α) (k : κ) : Option α := (l.filter fun x => key x = k).getLast?

variable {key} {l l' : List α} {x y : α} {k : κ}

theorem keepLast_sublist (l : List α) : (keepLast key l).Sublist l := by
  induction l with
  | nil => exact .slnil
  | cons x rest ih =>
    unfold keepLast
    split
    · exact ih.cons x
    · exact ih.cons_cons x

theorem keepLast_distinct (key : α → κ) (l : List α) : Distinct key (keepLast key l) := by
  induction l with
  | nil => exact .nil
  | cons x rest ih =>
    unfold keepLast
    split
    · exact ih
    · rename_i alone
      refine List.nodup_cons.mpr ⟨fun mem => ?_, ih⟩
      obtain ⟨y, there, same⟩ := List.mem_map.mp mem
      exact alone (holds_iff.mpr ⟨y, (keepLast_sublist rest).mem there, same⟩)

theorem lastOf_cons (x : α) (rest : List α) (k : κ) :
    lastOf key (x :: rest) k = if key x = k then (lastOf key rest k).or (some x) else lastOf key rest k := by
  unfold lastOf
  by_cases same : key x = k
  · rw [if_pos same, List.filter_cons_of_pos (by simpa using same), List.getLast?_cons]
    cases (rest.filter fun x => key x = k).getLast? <;> rfl
  · rw [if_neg same, List.filter_cons_of_neg (by simpa using same)]

theorem lastOf_some (last : lastOf key l k = some x) : x ∈ l ∧ key x = k := by
  have mem := List.mem_of_getLast? last
  rw [List.mem_filter] at mem
  exact ⟨mem.1, by simpa using mem.2⟩

theorem lastOf_isSome (key : α → κ) (mem : x ∈ l) : ∃ y, lastOf key l (key x) = some y := by
  have there : x ∈ l.filter fun y => key y = key x := List.mem_filter.mpr ⟨mem, by simp⟩
  exact ⟨_, List.getLast?_eq_some_getLast (List.ne_nil_of_mem there)⟩

theorem lastOf_none (absent : ∀ x ∈ l, key x ≠ k) : lastOf key l k = none := by
  cases found : lastOf key l k with
  | none => rfl
  | some x => exact absurd (lastOf_some found).2 (absent x (lastOf_some found).1)

/-- What is kept is the last of its key. -/
theorem mem_keepLast : x ∈ keepLast key l ↔ lastOf key l (key x) = some x := by
  induction l with
  | nil => simp [keepLast, lastOf]
  | cons y rest ih =>
    rw [lastOf_cons]
    unfold keepLast
    split
    · rename_i again
      obtain ⟨z, there, same⟩ := holds_iff.mp again
      by_cases key_x : key y = key x
      · obtain ⟨last, found⟩ := lastOf_isSome key there
        rw [same, key_x] at found
        rw [ih, if_pos key_x, found]
        rfl
      · rw [ih, if_neg key_x]
    · rename_i alone
      have none : lastOf key rest (key y) = none :=
        lastOf_none fun z there same => alone (holds_iff.mpr ⟨z, there, same⟩)
      by_cases key_x : key y = key x
      · rw [if_pos key_x, ← key_x, none, List.mem_cons, ih, ← key_x, none]
        simp [eq_comm]
      · have other : x ≠ y := fun same => key_x (by rw [same])
        rw [if_neg key_x, List.mem_cons, or_iff_right other, ih]

theorem keepLast_ascending (ordered : l.Pairwise fun a b => key a ≤ key b) : Ascending key (keepLast key l) := by
  have apart := List.pairwise_map.mp (keepLast_distinct key l)
  exact ((ordered.sublist (keepLast_sublist l)).and apart).imp fun both => lt_of_le_of_ne both.1 both.2

/-- An arrangement leaves the members of a key in the order they had. -/
theorem arrange_filter (l : List α) (k : κ) :
    (arrange key l).filter (fun x => key x = k) = l.filter fun x => key x = k := by
  have alike : (l.filter fun x => key x = k).Pairwise fun a b => key a ≤ key b := by
    refine List.Pairwise.imp_of_mem ?_ (List.pairwise_of_forall fun _ _ => trivial)
    intro a b memA memB _
    have here : key a = k := by simpa using (List.mem_filter.mp memA).2
    have there : key b = k := by simpa using (List.mem_filter.mp memB).2
    rw [here, there]
  have total : Std.Total (fun a b : α => key a ≤ key b) := ⟨fun a b => le_total (key a) (key b)⟩
  have trans : IsTrans α fun a b => key a ≤ key b := ⟨fun _ _ _ => le_trans⟩
  have inside : (l.filter fun x => key x = k).Sublist (arrange key l) :=
    List.sublist_insertionSort alike List.filter_sublist
  have sub := inside.filter fun x => key x = k
  rw [List.filter_filter] at sub
  simp only [Bool.and_self] at sub
  have count := ((List.perm_insertionSort (fun a b : α => key a ≤ key b) l).filter fun x => key x = k).length_eq
  exact (sub.eq_of_length_le count.le).symm

theorem lastOf_arrange (l : List α) (k : κ) : lastOf key (arrange key l) k = lastOf key l k := by
  unfold lastOf
  rw [arrange_filter]

/-- Lists in ascending order with the same members are one list. -/
theorem ascending_ext (key : α → κ) (up : Ascending key l) (up' : Ascending key l') (same : ∀ x, x ∈ l ↔ x ∈ l') : l = l' := by
  have nodup : l.Nodup := up.imp fun less alike => absurd (congrArg key alike) less.ne
  have nodup' : l'.Nodup := up'.imp fun less alike => absurd (congrArg key alike) less.ne
  refine List.Perm.eq_of_pairwise ?_ up up' ((List.perm_ext_iff_of_nodup nodup nodup').mpr same)
  exact fun a b _ _ less more => absurd less (lt_asymm more)

/-- Ascending and of each key the last. -/
def Lasts (key : α → κ) (rows frame : List α) : Prop :=
  Ascending key frame ∧ ∀ x, x ∈ frame ↔ lastOf key rows (key x) = some x

/-- Every key that is there is kept. -/
theorem Lasts.covers {rows frame : List α} (lasts : Lasts key rows frame) (mem : x ∈ rows) :
    ∃ y ∈ frame, key y = key x := by
  obtain ⟨y, found⟩ := lastOf_isSome key mem
  have same := (lastOf_some found).2
  refine ⟨y, (lasts.2 y).mpr ?_, same⟩
  rw [same]
  exact found

/-- The last of each key, once the members are arranged, is the last there was. -/
theorem keepLast_arrange (l : List α) : Lasts key l (keepLast key (arrange key l)) := by
  have total : Std.Total (fun a b : α => key a ≤ key b) := ⟨fun a b => le_total (key a) (key b)⟩
  have trans : IsTrans α fun a b => key a ≤ key b := ⟨fun _ _ _ => le_trans⟩
  constructor
  · exact keepLast_ascending (List.pairwise_insertionSort _ l)
  · intro x
    rw [mem_keepLast, lastOf_arrange]

end

end LastByKey
