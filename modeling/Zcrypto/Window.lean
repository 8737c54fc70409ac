import Mathlib.Data.List.Nodup
import Zcrypto.Keyed

/- Dictionaries of which only the least keys are kept. A source whose dictionary changes tells of the keys
   among its least ones alone, and of a key that falls behind them it tells nothing; a follower that keeps
   no more than that many keys after every change holds the source's least ones. -/
namespace Window
open Keyed

variable {α β : Type} [LinearOrder α] [Zero β] [DecidableEq β]

/-- A key that is there keeps its place. -/
def assign (l : List (α × β)) (e : α × β) : List (α × β) :=
  if l.any (·.1 = e.1) then l.map fun old => if old.1 = e.1 then e else old else l ++ [e]

def erase (l : List (α × β)) (k : α) : List (α × β) := l.filter (·.1 ≠ k)

/-- A zero takes its key away. -/
def write (l : List (α × β)) (e : α × β) : List (α × β) := if e.2 = 0 then erase l e.1 else assign l e

def best (n : Nat) (l : List (α × β)) : List (α × β) := if n < l.length then (arrange Prod.fst l).take n else l

/-- What is told of a change: what is new or different among the least keys, and a zero for each of the
    least keys that is nowhere any more. -/
def Tells (n : Nat) (full full' : List (α × β)) (message : List (α × β)) : Prop :=
  ∀ k v, (k, v) ∈ message ↔ ((k, v) ∈ full'.take n ∧ (k, v) ∉ full.take n) ∨
    (v = 0 ∧ (∃ e ∈ full.take n, e.1 = k) ∧ ∀ e ∈ full', e.1 ≠ k)

/-- Entries that give a key one value. -/
def Consistent (message : List (α × β)) : Prop := ∀ a ∈ message, ∀ b ∈ message, a.1 = b.1 → a = b

section
variable {l full full' message : List (α × β)} {e x : α × β} {n : Nat}

omit [Zero β] [DecidableEq β] in
theorem mem_assign : x ∈ assign l e ↔ x = e ∨ (x ∈ l ∧ x.1 ≠ e.1) := by
  unfold assign
  split
  · rename_i there
    obtain ⟨old, mem, same⟩ := List.any_eq_true.mp there
    have same : old.1 = e.1 := by simpa using same
    rw [List.mem_map]
    constructor
    · rintro ⟨y, inside, rfl⟩
      split
      · exact .inl rfl
      · rename_i apart
        exact .inr ⟨inside, apart⟩
    · rintro (rfl | ⟨inside, apart⟩)
      · exact ⟨old, mem, if_pos same⟩
      · exact ⟨x, inside, if_neg apart⟩
  · rename_i absent
    have apart : ∀ y ∈ l, y.1 ≠ e.1 := fun y inside same =>
      absent (List.any_eq_true.mpr ⟨y, inside, by simpa using same⟩)
    rw [List.mem_append, List.mem_singleton]
    constructor
    · rintro (inside | rfl)
      · exact .inr ⟨inside, apart x inside⟩
      · exact .inl rfl
    · rintro (rfl | ⟨inside, -⟩)
      · exact .inr rfl
      · exact .inl inside

omit [Zero β] [DecidableEq β] in
theorem distinct_assign (distinct : Distinct Prod.fst l) : Distinct Prod.fst (assign l e) := by
  unfold assign Distinct at *
  split
  · rw [List.map_map]
    have same : (Prod.fst ∘ fun old : α × β => if old.1 = e.1 then e else old) = Prod.fst := by
      funext old
      simp only [Function.comp_apply]
      split
      · exact Eq.symm ‹_›
      · rfl
    rwa [same]
  · rename_i absent
    rw [List.map_append, List.nodup_append]
    refine ⟨distinct, List.nodup_singleton _, ?_⟩
    simp only [List.any_eq_true, decide_eq_true_eq, not_exists, not_and] at absent
    intro a mem b last
    obtain ⟨y, inside, rfl⟩ := List.mem_map.mp mem
    rw [List.map_singleton, List.mem_singleton] at last
    exact last ▸ absent y inside

theorem mem_write : x ∈ write l e ↔ (x = e ∧ e.2 ≠ 0) ∨ (x ∈ l ∧ x.1 ≠ e.1) := by
  unfold write erase
  split
  · rename_i zero
    simp [zero]
  · rename_i value
    simp [mem_assign, value]

theorem distinct_write (distinct : Distinct Prod.fst l) : Distinct Prod.fst (write l e) := by
  unfold write
  split
  · exact distinct.filter _
  · exact distinct_assign distinct

theorem distinct_writes (distinct : Distinct Prod.fst l) : Distinct Prod.fst (message.foldl write l) := by
  induction message generalizing l with
  | nil => exact distinct
  | cons first rest ih => exact ih (distinct_write distinct)

theorem mem_writes (consistent : Consistent message) : x ∈ message.foldl write l ↔
    (x ∈ message ∧ x.2 ≠ 0) ∨ (x ∈ l ∧ ∀ m ∈ message, m.1 ≠ x.1) := by
  induction message generalizing l with
  | nil => simp
  | cons first rest ih =>
    have fewer : Consistent rest := fun a ha b hb =>
      consistent a (List.mem_cons_of_mem _ ha) b (List.mem_cons_of_mem _ hb)
    rw [List.foldl_cons, ih fewer, mem_write]
    constructor
    · rintro (⟨later, value⟩ | ⟨⟨rfl, value⟩ | ⟨old, apart⟩, untold⟩)
      · exact .inl ⟨List.mem_cons_of_mem _ later, value⟩
      · exact .inl ⟨List.mem_cons_self, value⟩
      · refine .inr ⟨old, ?_⟩
        intro m mem
        rcases List.mem_cons.mp mem with rfl | later
        · exact Ne.symm apart
        · exact untold m later
    · rintro (⟨told, value⟩ | ⟨old, untold⟩)
      · by_cases later : x ∈ rest
        · exact .inl ⟨later, value⟩
        · obtain rfl : x = first := (List.mem_cons.mp told).resolve_right later
          refine .inr ⟨.inl ⟨rfl, value⟩, ?_⟩
          intro m mem same
          have again := consistent m (List.mem_cons_of_mem _ mem) x List.mem_cons_self same
          exact later (again ▸ mem)
      · refine .inr ⟨.inr ⟨old, Ne.symm (untold first List.mem_cons_self)⟩, ?_⟩
        exact fun m mem => untold m (List.mem_cons_of_mem _ mem)

omit [LinearOrder α] [Zero β] [DecidableEq β] in
theorem distinct_nodup (distinct : Distinct Prod.fst l) : l.Nodup := List.Nodup.of_map _ distinct

omit [Zero β] [DecidableEq β] in
theorem ascending_take (ascending : Ascending Prod.fst full) (n : Nat) : Ascending Prod.fst (full.take n) :=
  List.Pairwise.sublist (List.take_sublist n full) ascending

omit [Zero β] in
/-- What lies between the least keys of a dictionary and the dictionary itself has the same least keys. -/
theorem best_between (ascending : Ascending Prod.fst full) (distinct : Distinct Prod.fst l)
    (has : ∀ x ∈ full.take n, x ∈ l) (within : ∀ x ∈ l, ∃ y ∈ full, y.1 = x.1) :
    (best n l).Perm (full.take n) := by
  have least := ascending_take ascending n
  have nodup := distinct_nodup distinct
  have windows : (full.take n).Nodup := distinct_nodup least.distinct
  have behind : ∀ x ∈ l, x ∉ full.take n → ∃ y ∈ full.drop n, y.1 = x.1 := by
    intro x mem outside
    obtain ⟨y, inside, same⟩ := within x mem
    rw [← List.take_append_drop n full] at inside
    rcases List.mem_append.mp inside with kept | dropped
    · exact absurd (distinct.same (has y kept) mem same ▸ kept) outside
    · exact ⟨y, dropped, same⟩
  unfold best
  split
  · rename_i long
    let rest := l.filter (· ∉ full.take n)
    have split : l.Perm (full.take n ++ rest) := by
      rw [List.perm_ext_iff_of_nodup nodup]
      · intro x
        simp only [List.mem_append, rest, List.mem_filter, decide_eq_true_eq]
        constructor
        · intro mem
          by_cases inside : x ∈ full.take n
          · exact .inl inside
          · exact .inr ⟨mem, inside⟩
        · rintro (inside | ⟨mem, -⟩)
          · exact has x inside
          · exact mem
      · rw [List.nodup_append]
        refine ⟨windows, nodup.filter _, ?_⟩
        rintro a inside b outside rfl
        simp only [rest, List.mem_filter, decide_eq_true_eq] at outside
        exact outside.2 inside
    have apart : Distinct Prod.fst rest := distinct.filter _
    have sorted : Ascending Prod.fst (full.take n ++ arrange Prod.fst rest) := by
      refine List.pairwise_append.mpr ⟨least, apart.ascending, ?_⟩
      intro a inside b outside
      rw [mem_arrange] at outside
      simp only [rest, List.mem_filter, decide_eq_true_eq] at outside
      obtain ⟨y, dropped, same⟩ := behind b outside.1 outside.2
      rw [← same]
      unfold Ascending at ascending
      rw [← List.take_append_drop n full, List.pairwise_append] at ascending
      exact ascending.2.2 a inside y dropped
    have same : arrange Prod.fst l = full.take n ++ arrange Prod.fst rest :=
      sorted.arranges (split.trans ((List.perm_insertionSort _ rest).symm.append_left _))
    have length : (full.take n).length = n := by
      have fewer : (l.map Prod.fst).length ≤ (full.map Prod.fst).length := by
        refine (List.subperm_of_subset distinct ?_).length_le
        intro k mem
        obtain ⟨x, inside, rfl⟩ := List.mem_map.mp mem
        obtain ⟨y, there, key⟩ := within x inside
        exact key ▸ List.mem_map_of_mem there
      rw [List.length_map, List.length_map] at fewer
      rw [List.length_take]
      omega
    rw [same, List.take_left' length]
  · rename_i short
    refine ((List.subperm_of_subset windows has).perm_of_length_le ?_).symm
    by_contra more
    rw [List.length_take] at more
    have whole : full.take n = full := List.take_of_length_le (by omega)
    have all : l.length ≤ full.length := by
      refine (List.subperm_of_subset nodup ?_).length_le
      intro x mem
      obtain ⟨y, inside, same⟩ := within x mem
      rw [whole] at has
      exact distinct.same (has y inside) mem same ▸ inside
    omega

omit [DecidableEq β] in
theorem Tells.consistent (ascending : Ascending Prod.fst full') (tells : Tells n full full' message) :
    Consistent message := by
  have distinct := (ascending_take ascending n).distinct
  have gone {k : α} {v : β} (there : (k, v) ∈ full'.take n) (nowhere : ∀ e ∈ full', e.1 ≠ k) : False :=
    nowhere (k, v) (List.mem_of_mem_take there) rfl
  rintro ⟨k, v⟩ ha ⟨k', v'⟩ hb same
  obtain rfl : k = k' := same
  rcases (tells k v).mp ha with ⟨new, -⟩ | ⟨zero, -, nowhere⟩
  · rcases (tells k v').mp hb with ⟨new', -⟩ | ⟨-, -, nowhere⟩
    · exact distinct.same new new' rfl
    · exact (gone new nowhere).elim
  · rcases (tells k v').mp hb with ⟨new', -⟩ | ⟨zero', -, -⟩
    · exact (gone new' nowhere).elim
    · rw [zero, zero']

/-- A follower of the least keys that is told of a change, and keeps as many keys, follows on. -/
theorem follows (ascending : Ascending Prod.fst full) (ascending' : Ascending Prod.fst full')
    (values : ∀ x ∈ full', x.2 ≠ 0) (tells : Tells n full full' message) (at_ : l.Perm (full.take n)) :
    (best n (message.foldl write l)).Perm (full'.take n) := by
  have consistent := tells.consistent ascending'
  have distinct : Distinct Prod.fst l :=
    (at_.map Prod.fst).nodup_iff.mpr (ascending_take ascending n).distinct
  apply best_between ascending' (distinct_writes distinct)
  · rintro ⟨k, v⟩ new
    rw [mem_writes consistent]
    by_cases old : (k, v) ∈ full.take n
    · refine .inr ⟨at_.mem_iff.mpr old, ?_⟩
      rintro ⟨k', v'⟩ told same
      obtain rfl : k' = k := same
      rcases (tells k' v').mp told with ⟨there, other⟩ | ⟨-, -, nowhere⟩
      · have is := (ascending_take ascending' n).distinct.same there new rfl
        exact other (is ▸ old)
      · exact nowhere _ (List.mem_of_mem_take new) rfl
    · exact .inl ⟨(tells k v).mpr (.inl ⟨new, old⟩), values _ (List.mem_of_mem_take new)⟩
  · rintro ⟨k, v⟩ mem
    rcases (mem_writes consistent).mp mem with ⟨told, value⟩ | ⟨old, untold⟩
    · rcases (tells k v).mp told with ⟨there, -⟩ | ⟨zero, -, -⟩
      · exact ⟨(k, v), List.mem_of_mem_take there, rfl⟩
      · exact absurd zero value
    · by_contra nowhere
      push Not at nowhere
      have zero : (k, 0) ∈ message :=
        (tells k 0).mpr (.inr ⟨rfl, ⟨(k, v), at_.mem_iff.mp old, rfl⟩, nowhere⟩)
      exact untold (k, 0) zero rfl

/-- A follower that is given the least keys at the outset holds them. -/
theorem begins (ascending : Ascending Prod.fst full) (values : ∀ x ∈ full, x.2 ≠ 0)
    (given : message.Perm (full.take n)) : (best n (message.foldl assign [])).Perm (full.take n) := by
  have distinct : Distinct Prod.fst message :=
    (given.map Prod.fst).nodup_iff.mpr (ascending_take ascending n).distinct
  have consistent : Consistent message := fun a ha b hb same => distinct.same ha hb same
  have nonzero : ∀ x ∈ message, x.2 ≠ 0 := fun x mem =>
    values x (List.mem_of_mem_take (given.mem_iff.mp mem))
  have writes : message.foldl assign [] = message.foldl write [] := by
    refine List.foldl_ext _ _ _ fun l e mem => ?_
    rw [write, if_neg (nonzero e mem)]
  have empty : Distinct Prod.fst ([] : List (α × β)) := List.nodup_nil
  rw [writes]
  apply best_between ascending (distinct_writes empty)
  · intro x mem
    exact (mem_writes consistent).mpr (.inl ⟨given.mem_iff.mpr mem, values x (List.mem_of_mem_take mem)⟩)
  · intro x mem
    rcases (mem_writes consistent).mp mem with ⟨told, -⟩ | ⟨none, -⟩
    · exact ⟨x, List.mem_of_mem_take (given.mem_iff.mp told), rfl⟩
    · cases none

end

end Window
