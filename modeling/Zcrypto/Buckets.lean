import Mathlib.Algebra.BigOperators.Group.List.Basic
import Mathlib.Data.List.Flatten
import Mathlib.Data.List.Sort
import Mathlib.Order.Basic

/- A list cut where the key of its members changes, into runs that are never empty. A run keeps its first
   member by itself; runs of runs are the runs of a coarser key; and where the keys are in order, a run is
   all that has its key. -/
namespace Buckets
variable {α β κ κ' : Type}

structure Run (κ α : Type) where
  key : κ
  first : α
  rest : List α
  deriving DecidableEq, Repr

def Run.rows (r : Run κ α) : List α := r.first :: r.rest

def Run.last (r : Run κ α) : α := r.rows.getLast (List.cons_ne_nil _ _)

def Run.map (f : α → β) (r : Run κ α) : Run κ β := ⟨r.key, f r.first, r.rest.map f⟩

/-- A run under another name for its key. -/
def Run.rekey (f : κ → κ') (r : Run κ α) : Run κ' α := ⟨f r.key, r.first, r.rest⟩

/-- A run of runs as one run. -/
def Run.flat (r : Run κ (Run κ' α)) : Run κ α :=
  ⟨r.key, r.first.first, r.first.rest ++ r.rest.flatMap Run.rows⟩

theorem Run.map_rows (f : α → β) (r : Run κ α) : (r.map f).rows = r.rows.map f := rfl

theorem Run.map_last (f : α → β) (r : Run κ α) : (r.map f).last = f r.last := by
  unfold Run.last Run.rows Run.map
  simp only [← List.map_cons, List.getLast_map]

theorem Run.rekey_rows (f : κ → κ') (r : Run κ α) : (r.rekey f).rows = r.rows := rfl

theorem Run.rekey_last (f : κ → κ') (r : Run κ α) : (r.rekey f).last = r.last := rfl

theorem Run.flat_rows (r : Run κ (Run κ' α)) : r.flat.rows = r.rows.flatMap Run.rows := rfl

/-- The last of a run of runs is the last run's. -/
theorem Run.flat_last (r : Run κ (Run κ' α)) : r.flat.last = r.last.last := by
  have all : ∀ (rs : List (Run κ' α)) (some_ : rs ≠ []) (some' : rs.flatMap Run.rows ≠ []),
      (rs.flatMap Run.rows).getLast some' = (rs.getLast some_).last := by
    intro rs
    induction rs with
    | nil => exact fun some_ => absurd rfl some_
    | cons s more ih =>
      intro some_ some'
      cases more with
      | nil => simp [Run.last]
      | cons t more =>
        have rest : (t :: more).flatMap Run.rows ≠ [] := by simp [Run.rows]
        rw [List.getLast_cons (List.cons_ne_nil t more), ← ih (List.cons_ne_nil t more) rest]
        simp only [List.flatMap_cons]
        exact List.getLast_append_of_ne_nil _ rest
  exact all r.rows (List.cons_ne_nil _ _) (List.cons_ne_nil _ _)

/- What is folded over the rows of runs. -/

theorem foldl_flat {op : β → β → β} [Std.Associative op] (f : α → β) (rs : List (Run κ α)) (start : β) :
    ((rs.flatMap Run.rows).map f).foldl op start =
      (rs.map fun r => (r.rest.map f).foldl op (f r.first)).foldl op start := by
  induction rs generalizing start with
  | nil => rfl
  | cons r more ih =>
    rw [List.flatMap_cons, List.map_append, List.foldl_append, ih, List.map_cons, List.foldl_cons, Run.rows,
      List.map_cons, List.foldl_cons, List.foldl_assoc]

theorem sum_flat [AddCommMonoid β] (f : α → β) (rs : List (Run κ α)) :
    ((rs.flatMap Run.rows).map f).sum = (rs.map fun r => (r.rows.map f).sum).sum := by
  induction rs with
  | nil => rfl
  | cons r more ih =>
    rw [List.flatMap_cons, List.map_append, List.sum_append, ih, List.map_cons, List.sum_cons]

/-- A figure of runs that each took from its rows is that of all their rows. -/
theorem Run.fold_flat {op : β → β → β} [Std.Associative op] {f : α → β} {g : Run κ' α → β}
    (each : ∀ r, g r = (r.rest.map f).foldl op (f r.first)) (R : Run κ (Run κ' α)) :
    (R.rest.map g).foldl op (g R.first) = (R.flat.rest.map f).foldl op (f R.flat.first) := by
  unfold Run.flat
  rw [List.map_append, List.foldl_append, foldl_flat, each]
  exact congrArg (List.foldl op _) (List.map_congr_left fun r _ => each r)

section
variable [DecidableEq κ]

/-- One more member before the runs. -/
def push (k : κ) (x : α) : List (Run κ α) → List (Run κ α)
  | [] => [⟨k, x, []⟩]
  | r :: more => if r.key = k then ⟨k, x, r.rows⟩ :: more else ⟨k, x, []⟩ :: r :: more

def runs (key : α → κ) : List α → List (Run κ α)
  | [] => []
  | x :: l => push (key x) x (runs key l)

variable {key : α → κ} {l l' : List α} {r : Run κ α} {k : κ} {x : α}

theorem push_cons (k : κ) (x : α) (r : Run κ α) (more : List (Run κ α)) : push k x (r :: more) =
    if r.key = k then ⟨k, x, r.rows⟩ :: more else ⟨k, x, []⟩ :: r :: more := rfl

theorem push_rows (k : κ) (x : α) (rs : List (Run κ α)) : (push k x rs).flatMap Run.rows = x :: rs.flatMap Run.rows := by
  cases rs with
  | nil => rfl
  | cons r more =>
    rw [push_cons]
    split
    · rfl
    · rfl

theorem runs_rows (key : α → κ) (l : List α) : (runs key l).flatMap Run.rows = l := by
  induction l with
  | nil => rfl
  | cons x l ih => rw [runs, push_rows, ih]

theorem runs_key (mem : r ∈ runs key l) : ∀ x ∈ r.rows, key x = r.key := by
  induction l generalizing r with
  | nil => cases mem
  | cons x l ih =>
    unfold runs at mem
    cases before : runs key l with
    | nil =>
      rw [before] at mem
      obtain rfl := List.mem_singleton.mp mem
      intro y there
      rw [List.mem_singleton.mp there]
    | cons s more =>
      rw [before] at mem ih
      rw [push_cons] at mem
      split at mem
      · rename_i same
        rcases List.mem_cons.mp mem with rfl | later
        · intro y there
          rcases List.mem_cons.mp there with rfl | there
          · rfl
          · exact (ih List.mem_cons_self y there).trans same
        · exact ih (List.mem_cons_of_mem _ later)
      · rcases List.mem_cons.mp mem with rfl | later
        · intro y there
          rw [List.mem_singleton.mp there]
        · exact ih later

theorem push_flat [DecidableEq κ'] (f : κ' → κ) (k : κ') (x : α) (rs : List (Run κ' α)) :
    (runs (fun r => f r.key) (push k x rs)).map Run.flat =
      push (f k) x ((runs (fun r => f r.key) rs).map Run.flat) := by
  cases rs with
  | nil => rfl
  | cons r more =>
    rw [push_cons]
    split
    · rename_i same
      rw [runs, runs]
      cases runs (fun r => f r.key) more with
      | nil => simp [push, Run.flat, Run.rows, same]
      | cons R others =>
        by_cases alike : R.key = f k
        · simp [push_cons, alike, same, Run.flat, Run.rows]
        · simp [push_cons, alike, same, Run.flat, Run.rows]
    · rw [runs]
      cases runs (fun r => f r.key) (r :: more) with
      | nil => rfl
      | cons R others =>
        by_cases alike : R.key = f k
        · simp [push_cons, alike, Run.flat, Run.rows]
        · simp [push_cons, alike, Run.flat]

/-- The runs of a coarser key over the runs are its runs over the list. -/
theorem runs_runs [DecidableEq κ'] (f : κ' → κ) (key : α → κ') (l : List α) :
    (runs (fun r => f r.key) (runs key l)).map Run.flat = runs (fun x => f (key x)) l := by
  induction l with
  | nil => rfl
  | cons x l ih => rw [runs, push_flat, ih, runs]

theorem runs_map {key : β → κ} (f : α → β) (l : List α) :
    runs key (l.map f) = (runs (fun x => key (f x)) l).map (Run.map f) := by
  induction l with
  | nil => rfl
  | cons x l ih =>
    rw [List.map_cons, runs, runs, ih]
    cases runs (fun x => key (f x)) l with
    | nil => rfl
    | cons r more =>
      by_cases same : r.key = key (f x)
      · simp [push_cons, same, Run.rows, Run.map]
      · simp [push_cons, same, Run.map]

/-- Keys under other names, of which no two are one, cut a list where they did. -/
theorem runs_rekey [DecidableEq κ'] {f : κ → κ'} (once : Function.Injective f) (key : α → κ) (l : List α) :
    runs (fun x => f (key x)) l = (runs key l).map (Run.rekey f) := by
  induction l with
  | nil => rfl
  | cons x l ih =>
    rw [runs, runs, ih]
    cases runs key l with
    | nil => rfl
    | cons r more =>
      by_cases same : r.key = key x
      · simp [push_cons, same, Run.rekey, Run.rows]
      · have other : f r.key ≠ f (key x) := fun alike => same (once alike)
        simp [push_cons, same, other, Run.rekey]

/-- Lists of which no keys are shared are cut each by itself. -/
theorem runs_append (apart : ∀ a ∈ l, ∀ b ∈ l', key a ≠ key b) : runs key (l ++ l') = runs key l ++ runs key l' := by
  induction l with
  | nil => rfl
  | cons x l ih =>
    rw [List.cons_append, runs, runs, ih fun a mem => apart a (List.mem_cons_of_mem _ mem)]
    cases before : runs key l with
    | cons r more =>
      by_cases same : r.key = key x
      · simp [push_cons, same]
      · simp [push_cons, same]
    | nil =>
      cases after : runs key l' with
      | nil => rfl
      | cons r more =>
        have there : r ∈ runs key l' := by rw [after]; exact List.mem_cons_self
        have member : r.first ∈ l' := by
          rw [← runs_rows key l']
          exact List.mem_flatMap.mpr ⟨r, there, List.mem_cons_self⟩
        have other : r.key ≠ key x := by
          rw [← runs_key there r.first List.mem_cons_self]
          exact (apart x List.mem_cons_self r.first member).symm
        simp [push, other]

end

section
variable [LinearOrder κ] {key : α → κ} {l : List α} {r : Run κ α}

/-- Where the keys are in order, so are the runs, each with a key above the one before. -/
theorem runs_ascend (ordered : l.Pairwise fun a b => key a ≤ key b) :
    (runs key l).Pairwise fun r s => r.key < s.key := by
  induction l with
  | nil => exact .nil
  | cons x l ih =>
    obtain ⟨least, ordered⟩ := List.pairwise_cons.mp ordered
    have ascending := ih ordered
    have above : ∀ r ∈ runs key l, key x ≤ r.key := by
      intro r mem
      have member : r.first ∈ l := by
        rw [← runs_rows key l]
        exact List.mem_flatMap.mpr ⟨r, mem, List.mem_cons_self⟩
      rw [← runs_key mem r.first List.mem_cons_self]
      exact least r.first member
    rw [runs]
    cases before : runs key l with
    | nil => exact List.pairwise_singleton _ _
    | cons r more =>
      rw [before] at ascending above
      obtain ⟨next, ascending⟩ := List.pairwise_cons.mp ascending
      rw [push_cons]
      split
      · rename_i same
        exact List.pairwise_cons.mpr ⟨fun s mem => by rw [← same]; exact next s mem, ascending⟩
      · rename_i other
        have less : key x < r.key := lt_of_le_of_ne (above r List.mem_cons_self) (Ne.symm other)
        refine List.pairwise_cons.mpr ⟨fun s mem => ?_, List.pairwise_cons.mpr ⟨next, ascending⟩⟩
        rcases List.mem_cons.mp mem with rfl | later
        · exact less
        · exact less.trans (next s later)

theorem rows_filter {rs : List (Run κ α)} (keyed : ∀ r ∈ rs, ∀ x ∈ r.rows, key x = r.key)
    (ascending : rs.Pairwise fun r s => r.key < s.key) (mem : r ∈ rs) :
    (rs.flatMap Run.rows).filter (fun x => key x = r.key) = r.rows := by
  induction rs with
  | nil => cases mem
  | cons s more ih =>
    obtain ⟨next, ascending⟩ := List.pairwise_cons.mp ascending
    have keyed' : ∀ r ∈ more, ∀ x ∈ r.rows, key x = r.key := fun r there => keyed r (List.mem_cons_of_mem _ there)
    rw [List.flatMap_cons, List.filter_append]
    rcases List.mem_cons.mp mem with rfl | later
    · have own : r.rows.filter (fun x => key x = r.key) = r.rows :=
        List.filter_eq_self.mpr fun x there => by simpa using keyed r List.mem_cons_self x there
      have others : (more.flatMap Run.rows).filter (fun x => key x = r.key) = [] := by
        refine List.filter_eq_nil_iff.mpr fun x there => ?_
        obtain ⟨s, in_more, row⟩ := List.mem_flatMap.mp there
        have apart := next s in_more
        rw [keyed' s in_more x row]
        simpa using apart.ne'
      rw [own, others, List.append_nil]
    · have none : s.rows.filter (fun x => key x = r.key) = [] := by
        refine List.filter_eq_nil_iff.mpr fun x there => ?_
        have apart := next r later
        rw [keyed s List.mem_cons_self x there]
        simpa using apart.ne
      rw [none, List.nil_append, ih keyed' ascending later]

/-- Where the keys are in order, a run is all that has its key. -/
theorem runs_filter (ordered : l.Pairwise fun a b => key a ≤ key b) (mem : r ∈ runs key l) :
    l.filter (fun x => key x = r.key) = r.rows := by
  have all := rows_filter (fun r there => runs_key there) (runs_ascend ordered) mem
  rw [runs_rows] at all
  exact all

/-- Every key that is there has its run. -/
theorem exists_run (key : α → κ) {x : α} (mem : x ∈ l) : ∃ r ∈ runs key l, r.key = key x ∧ x ∈ r.rows := by
  rw [← runs_rows key l] at mem
  obtain ⟨r, there, row⟩ := List.mem_flatMap.mp mem
  exact ⟨r, there, (runs_key there x row).symm, row⟩

end

end Buckets
