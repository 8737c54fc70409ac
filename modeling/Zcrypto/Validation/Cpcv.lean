import Mathlib.Data.Int.Range
import Mathlib.Data.List.Sort
import Zcrypto.Combinations
import Zcrypto.Fallible

/- Combinatorial purged splits: what is tested, what is trained on, and what no split leaks. -/
namespace Validation
open Combinations

structure ValidationError where
  message : String
  deriving DecidableEq, Repr

def groupsFrom (base extra : Int) : List Nat → Int → List (Int × Int)
  | [], _ => []
  | i :: rest, start =>
    let stop := start + base + if i < extra then 1 else 0
    (start, stop) :: groupsFrom base extra rest stop

def makeGroups (nSamples nGroups : Int) : Except ValidationError (List (Int × Int)) :=
  if nGroups < 2 then .error ⟨s!"n_groups must be >= 2, got {nGroups}"⟩
  else if nSamples < nGroups then .error ⟨s!"n_samples ({nSamples}) must be >= n_groups ({nGroups})"⟩
  else .ok <| groupsFrom (nSamples / nGroups) (nSamples % nGroups) (List.range nGroups.toNat) 0

def checkTestGroups (nGroups nTestGroups : Int) : Except ValidationError Unit :=
  if 1 ≤ nTestGroups ∧ nTestGroups < nGroups then .ok ()
  else .error ⟨s!"n_test_groups must satisfy 1 <= k < n_groups, got {nTestGroups}"⟩

def nBacktestPaths (nGroups nTestGroups : Int) : Except ValidationError Nat :=
  if nGroups < 2 then .error ⟨s!"n_groups must be >= 2, got {nGroups}"⟩
  else do
    checkTestGroups nGroups nTestGroups
    return (nGroups - 1).toNat.choose (nTestGroups - 1).toNat

def blocksFrom (start prev : Int) : List Int → List (Int × Int)
  | [] => [(start, prev)]
  | p :: rest =>
    if p = prev + 1 then blocksFrom start p rest
    else (start, prev) :: blocksFrom p p rest

def contiguousBlocks : List Int → List (Int × Int)
  | [] => []
  | p :: rest => blocksFrom p p rest

structure Split where
  testGroups : List Nat
  train : List Int
  test : List Int
  deriving DecidableEq, Repr

/-- What a block of tests takes out of the training around it: labels that reach into it, then the embargo. -/
def removedAround (nSamples labelHorizon embargo : Int) (block : Int × Int) : List Int :=
  Int.range (max 0 (block.1 - labelHorizon)) block.1 ++
    Int.range (block.2 + 1) (min nSamples (block.2 + 1 + embargo))

def splitOf (nSamples labelHorizon embargo : Int) (groupPositions : List (List Int)) (testGroups : List Nat) :
    Split :=
  let test := (testGroups.flatMap fun g => groupPositions.getD g []).insertionSort (· ≤ ·)
  let removed := test ++ (contiguousBlocks test).flatMap (removedAround nSamples labelHorizon embargo)
  ⟨testGroups, (Int.range 0 nSamples).filter (· ∉ removed), test⟩

def cpcvSplits (nSamples nGroups nTestGroups labelHorizon embargo : Int) :
    Except ValidationError (List Split) :=
  if labelHorizon < 0 then .error ⟨s!"label_horizon must be >= 0, got {labelHorizon}"⟩
  else if embargo < 0 then .error ⟨s!"embargo must be >= 0, got {embargo}"⟩
  else do
    let groups ← makeGroups nSamples nGroups
    checkTestGroups nGroups nTestGroups
    let groupPositions := groups.map fun g => Int.range g.1 g.2
    return (combinations nTestGroups.toNat (List.range nGroups.toNat)).map
      (splitOf nSamples labelHorizon embargo groupPositions)

/- Blocks one after another. -/

inductive Partition : Int → Int → List (Int × Int) → Prop where
  | nil (stop : Int) : Partition stop stop []
  | cons {start mid stop : Int} {rest : List (Int × Int)} (valid : start < mid)
      (tail : Partition mid stop rest) : Partition start stop ((start, mid) :: rest)

def Holds (p : Int) (block : Int × Int) : Prop := block.1 ≤ p ∧ p < block.2

section
variable {start stop p : Int} {groups : List (Int × Int)}

theorem Partition.ordered (parts : Partition start stop groups) : start ≤ stop := by
  induction parts with
  | nil => exact le_refl _
  | cons valid tail ih => omega

theorem Partition.within (parts : Partition start stop groups) :
    ∀ g ∈ groups, start ≤ g.1 ∧ g.1 < g.2 ∧ g.2 ≤ stop := by
  induction parts with
  | nil => simp
  | cons valid tail ih =>
    have after := tail.ordered
    intro g mem
    cases mem with
    | head => exact ⟨le_refl _, valid, after⟩
    | tail _ later =>
      obtain ⟨low, between, high⟩ := ih g later
      exact ⟨by omega, between, high⟩

/-- Every position is in a block. -/
theorem Partition.find (parts : Partition start stop groups) (low : start ≤ p) (high : p < stop) :
    ∃ (i : Nat) (g : Int × Int), groups[i]? = some g ∧ Holds p g := by
  induction parts with
  | nil => omega
  | @cons start mid stop rest valid tail ih =>
    by_cases here : p < mid
    · exact ⟨0, (start, mid), rfl, low, here⟩
    · obtain ⟨i, g, found, holds⟩ := ih (by omega) high
      exact ⟨i + 1, g, found, holds⟩

/-- A position is in one block only. -/
theorem Partition.unique (parts : Partition start stop groups) {i j : Nat} {g h : Int × Int}
    (first : groups[i]? = some g) (second : groups[j]? = some h) (in_first : Holds p g) (in_second : Holds p h) :
    i = j := by
  unfold Holds at in_first in_second
  induction parts generalizing i j with
  | nil => simp at first
  | cons valid tail ih =>
    cases i with
    | zero =>
      cases j with
      | zero => rfl
      | succ j =>
        have later := tail.within h (List.mem_of_getElem? second)
        simp only [List.getElem?_cons_zero, Option.some.injEq] at first
        subst first
        omega
    | succ i =>
      cases j with
      | zero =>
        have later := tail.within g (List.mem_of_getElem? first)
        simp only [List.getElem?_cons_zero, Option.some.injEq] at second
        subst second
        omega
      | succ j => exact congrArg (· + 1) (ih first second)

theorem Partition.apart (parts : Partition start stop groups) : groups.Pairwise fun g h => g.2 ≤ h.1 := by
  induction parts with
  | nil => exact List.Pairwise.nil
  | cons valid tail ih => exact List.Pairwise.cons (fun h mem => (tail.within h mem).1) ih

end

/- The groups. -/

section
variable {base extra : Int}

theorem groupsFrom_length (indices : List Nat) (start : Int) :
    (groupsFrom base extra indices start).length = indices.length := by
  induction indices generalizing start with
  | nil => rfl
  | cons i rest ih => simp [groupsFrom, ih]

theorem groupsFrom_sizes (indices : List Nat) (start : Int) :
    ∀ g ∈ groupsFrom base extra indices start, g.2 - g.1 = base ∨ g.2 - g.1 = base + 1 := by
  induction indices generalizing start with
  | nil => simp [groupsFrom]
  | cons i rest ih =>
    intro g mem
    cases mem with
    | head =>
      dsimp only
      split <;> omega
    | tail _ later => exact ih _ g later

/-- The groups from the `k`-th on end where the sizes of as many groups put them. -/
theorem groupsFrom_partition (extra : Int) (some_each : 1 ≤ base) (m k : Nat) (start : Int) :
    Partition start (start + m * base + (min ((k : Int) + m) extra - min (k : Int) extra))
      (groupsFrom base extra (List.range' k m) start) := by
  induction m generalizing k start with
  | zero =>
    have none_left : start + ((0 : Nat) : Int) * base + (min ((k : Int) + (0 : Nat)) extra - min (k : Int) extra) = start := by
      simp
    rw [none_left]
    exact Partition.nil start
  | succ m ih =>
    have later := ih (k + 1) (start + base + if (k : Int) < extra then 1 else 0)
    have ends : start + ((m + 1 : Nat) : Int) * base + (min ((k : Int) + (m + 1 : Nat)) extra - min (k : Int) extra) =
        start + base + (if (k : Int) < extra then 1 else 0) + m * base +
          (min (((k + 1 : Nat) : Int) + m) extra - min ((k + 1 : Nat) : Int) extra) := by
      push_cast
      rw [Int.add_mul, Int.one_mul]
      split <;> omega
    rw [ends]
    exact Partition.cons (by split <;> omega) later

end

theorem makeGroups_ok {nSamples nGroups : Int} {groups : List (Int × Int)}
    (made : makeGroups nSamples nGroups = .ok groups) :
    2 ≤ nGroups ∧ (groups.length : Int) = nGroups ∧ Partition 0 nSamples groups ∧
      ∀ g ∈ groups, ∀ h ∈ groups, (g.2 - g.1) - (h.2 - h.1) ≤ 1 := by
  unfold makeGroups at made
  split at made
  · cases made
  · rename_i several
    split at made
    · cases made
    · rename_i enough
      injection made with same
      subst same
      have positive : 0 < nGroups := by omega
      have each : 1 ≤ nSamples / nGroups := (Int.le_ediv_iff_mul_le positive).mpr (by omega)
      have few := Int.emod_lt_of_pos nSamples positive
      have left := Int.emod_nonneg nSamples positive.ne'
      have all := groupsFrom_partition (nSamples % nGroups) each nGroups.toNat 0 0
      have whole : 0 + (nGroups.toNat : Int) * (nSamples / nGroups) +
          (min (((0 : Nat) : Int) + nGroups.toNat) (nSamples % nGroups) - min ((0 : Nat) : Int) (nSamples % nGroups)) =
            nSamples := by
        have divided := Int.mul_ediv_add_emod nSamples nGroups
        rw [Int.toNat_of_nonneg positive.le]
        push_cast
        omega
      rw [whole, ← List.range_eq_range'] at all
      refine ⟨by omega, ?_, all, ?_⟩
      · rw [groupsFrom_length, List.length_range, Int.toNat_of_nonneg positive.le]
      · intro g of_g h of_h
        have one := groupsFrom_sizes _ _ g of_g
        have two := groupsFrom_sizes _ _ h of_h
        omega

/- Runs of positions. -/

/-- The runs hold the positions they were read from, and no others. -/
structure Covers (positions : Int → Prop) (blocks : List (Int × Int)) : Prop where
  whole : ∀ block ∈ blocks, block.1 ≤ block.2 ∧ ∀ x, block.1 ≤ x → x ≤ block.2 → positions x
  every : ∀ x, positions x → ∃ block ∈ blocks, block.1 ≤ x ∧ x ≤ block.2

theorem blocksFrom_covers {start prev : Int} (rest : List Int) (valid : start ≤ prev) :
    Covers (fun x => start ≤ x ∧ x ≤ prev ∨ x ∈ rest) (blocksFrom start prev rest) := by
  induction rest generalizing start prev with
  | nil =>
    constructor
    · intro block mem
      have same := List.mem_singleton.mp mem
      subst same
      exact ⟨valid, fun x low high => Or.inl ⟨low, high⟩⟩
    · intro x held
      cases held with
      | inl inside => exact ⟨(start, prev), List.mem_singleton_self _, inside⟩
      | inr later => cases later
  | cons p rest ih =>
    unfold blocksFrom
    split
    · rename_i next
      have longer : start ≤ p := by omega
      have further := ih longer
      constructor
      · intro block mem
        obtain ⟨ordered, all⟩ := further.whole block mem
        refine ⟨ordered, fun x low high => ?_⟩
        cases all x low high with
        | inl inside =>
          by_cases last : x = p
          · exact Or.inr (List.mem_cons.mpr (Or.inl last))
          · exact Or.inl (by omega)
        | inr later => exact Or.inr (List.mem_cons_of_mem p later)
      · intro x held
        apply further.every
        cases held with
        | inl inside => exact Or.inl (by omega)
        | inr later =>
          cases later with
          | head => exact Or.inl (by omega)
          | tail _ later => exact Or.inr later
    · have further := ih (le_refl p)
      constructor
      · intro block mem
        cases mem with
        | head => exact ⟨valid, fun x low high => Or.inl ⟨low, high⟩⟩
        | tail _ later =>
          obtain ⟨ordered, all⟩ := further.whole block later
          refine ⟨ordered, fun x low high => Or.inr ?_⟩
          cases all x low high with
          | inl inside => exact List.mem_cons.mpr (Or.inl (by omega))
          | inr later => exact List.mem_cons_of_mem p later
      · intro x held
        cases held with
        | inl inside => exact ⟨(start, prev), List.mem_cons_self, inside⟩
        | inr later =>
          have held : p ≤ x ∧ x ≤ p ∨ x ∈ rest := by
            cases later with
            | head => exact Or.inl ⟨le_refl _, le_refl _⟩
            | tail _ later => exact Or.inr later
          obtain ⟨block, mem, inside⟩ := further.every x held
          exact ⟨block, List.mem_cons_of_mem _ mem, inside⟩

theorem contiguousBlocks_covers (positions : List Int) :
    Covers (· ∈ positions) (contiguousBlocks positions) := by
  cases positions with
  | nil =>
    constructor
    · intro block mem
      cases mem
    · intro x held
      cases held
  | cons p rest =>
    have all := blocksFrom_covers rest (le_refl p)
    have same : (fun x => p ≤ x ∧ x ≤ p ∨ x ∈ rest) = (· ∈ p :: rest) := by
      funext x
      have itself : p ≤ x ∧ x ≤ p ↔ x = p := by omega
      rw [List.mem_cons, itself]
    rw [same] at all
    exact all

/-- A tested position whose label horizon or embargo takes in a training position. -/
def Leaks (labelHorizon embargo p q : Int) : Prop :=
  p < q ∧ q ≤ p + labelHorizon ∨ p - embargo ≤ q ∧ q < p

section
variable {nSamples labelHorizon embargo p : Int} {test : List Int}

theorem mem_removedAround {block : Int × Int} (low : 0 ≤ p) (high : p < nSamples) :
    p ∈ removedAround nSamples labelHorizon embargo block ↔
      block.1 - labelHorizon ≤ p ∧ p < block.1 ∨ block.2 < p ∧ p ≤ block.2 + embargo := by
  unfold removedAround
  rw [List.mem_append, Int.mem_range_iff, Int.mem_range_iff]
  omega

/-- Taking out around the runs is taking out pair by pair. -/
theorem removed_iff (low : 0 ≤ p) (high : p < nSamples) (untested : p ∉ test) :
    p ∈ (contiguousBlocks test).flatMap (removedAround nSamples labelHorizon embargo) ↔
      ∃ q ∈ test, Leaks labelHorizon embargo p q := by
  have covers := contiguousBlocks_covers test
  rw [List.mem_flatMap]
  constructor
  · intro removed
    obtain ⟨block, mem, around⟩ := removed
    obtain ⟨ordered, all⟩ := covers.whole block mem
    cases (mem_removedAround low high).mp around with
    | inl before => exact ⟨block.1, all _ (le_refl _) ordered, Or.inl (by omega)⟩
    | inr after => exact ⟨block.2, all _ ordered (le_refl _), Or.inr (by omega)⟩
  · intro leaks
    obtain ⟨q, tested, leak⟩ := leaks
    obtain ⟨block, mem, inside⟩ := covers.every q tested
    obtain ⟨_, all⟩ := covers.whole block mem
    -- the position itself is in no run
    have outside : ¬ (block.1 ≤ p ∧ p ≤ block.2) := fun within => untested (all p within.1 within.2)
    refine ⟨block, mem, (mem_removedAround low high).mpr ?_⟩
    unfold Leaks at leak
    omega

end

/- A split. -/

theorem range_ascending (start stop : Int) : (Int.range start stop).Pairwise (· < ·) := by
  unfold Int.range
  rw [List.pairwise_map]
  exact List.pairwise_lt_range.imp fun less => by omega

/-- What a split says of its groups. -/
structure Exact (nSamples labelHorizon embargo : Int) (groups : List (Int × Int)) (s : Split) : Prop where
  test_ordered : s.test.Pairwise (· < ·)
  tested : ∀ p, p ∈ s.test ↔ ∃ i ∈ s.testGroups, ∃ g, groups[i]? = some g ∧ Holds p g
  train_ordered : s.train.Pairwise (· < ·)
  trained : ∀ p, p ∈ s.train ↔
    0 ≤ p ∧ p < nSamples ∧ p ∉ s.test ∧ ∀ q ∈ s.test, ¬ Leaks labelHorizon embargo p q

section
variable {nSamples labelHorizon embargo : Int} {groups : List (Int × Int)} {testGroups : List Nat}

theorem mem_positions (groups : List (Int × Int)) (i : Nat) (p : Int) :
    p ∈ (groups.map fun g => Int.range g.1 g.2).getD i [] ↔ ∃ g, groups[i]? = some g ∧ Holds p g := by
  rw [List.getD_eq_getElem?_getD, List.getElem?_map]
  cases groups[i]? with
  | none => simp
  | some g => simp [Int.mem_range_iff, Holds]

theorem positions_ordered (parts : Partition 0 nSamples groups) (ascend : testGroups.Pairwise (· < ·)) :
    (testGroups.flatMap fun i => (groups.map fun g => Int.range g.1 g.2).getD i []).Pairwise (· < ·) := by
  rw [List.pairwise_flatMap]
  constructor
  · intro i _
    rw [List.getD_eq_getElem?_getD, List.getElem?_map]
    cases groups[i]? with
    | none => exact List.Pairwise.nil
    | some g => exact range_ascending g.1 g.2
  · apply ascend.imp
    intro i j less p of_i q of_j
    obtain ⟨g, first, in_first⟩ := (mem_positions groups i p).mp of_i
    obtain ⟨h, second, in_second⟩ := (mem_positions groups j q).mp of_j
    obtain ⟨i_in, same⟩ := List.getElem?_eq_some_iff.mp first
    obtain ⟨j_in, same'⟩ := List.getElem?_eq_some_iff.mp second
    have apart := List.pairwise_iff_getElem.mp parts.apart i j i_in j_in less
    rw [same, same'] at apart
    unfold Holds at in_first in_second
    omega

theorem splitOf_exact (parts : Partition 0 nSamples groups) (ascend : testGroups.Pairwise (· < ·)) :
    Exact nSamples labelHorizon embargo groups
      (splitOf nSamples labelHorizon embargo (groups.map fun g => Int.range g.1 g.2) testGroups) := by
  have ordered := positions_ordered parts ascend
  have sorted := List.Pairwise.insertionSort_eq (ordered.imp (S := (· ≤ ·)) fun less => less.le)
  unfold splitOf
  simp only
  rw [sorted]
  constructor
  · exact ordered
  · intro p
    simp only [List.mem_flatMap, mem_positions]
  · exact (range_ascending 0 nSamples).filter _
  · intro p
    generalize (testGroups.flatMap fun i => (groups.map fun g => Int.range g.1 g.2).getD i []) = test
    rw [List.mem_filter, Int.mem_range_iff, decide_eq_true_eq, List.mem_append, not_or, and_assoc]
    constructor
    · intro kept
      obtain ⟨low, high, untested, unremoved⟩ := kept
      rw [removed_iff low high untested] at unremoved
      exact ⟨low, high, untested, fun q mem leak => unremoved ⟨q, mem, leak⟩⟩
    · intro kept
      obtain ⟨low, high, untested, unleaked⟩ := kept
      refine ⟨low, high, untested, ?_⟩
      rw [removed_iff low high untested]
      intro leaks
      obtain ⟨q, mem, leak⟩ := leaks
      exact unleaked q mem leak

end

/-- What a list of splits says: of its groups, of each split, and of all of them together. -/
structure Splits (nSamples nGroups nTestGroups labelHorizon embargo : Int) (splits : List Split) : Prop where
  groups : ∃ groups, makeGroups nSamples nGroups = .ok groups ∧ (groups.length : Int) = nGroups ∧
    Partition 0 nSamples groups ∧ (∀ g ∈ groups, ∀ h ∈ groups, (g.2 - g.1) - (h.2 - h.1) ≤ 1) ∧
    ∀ s ∈ splits, Exact nSamples labelHorizon embargo groups s
  paths : ∃ paths, nBacktestPaths nGroups nTestGroups = .ok paths ∧
    ∀ p, 0 ≤ p → p < nSamples → splits.countP (p ∈ ·.test) = paths
  distinct : (splits.map Split.testGroups).Nodup
  choices : ∀ c, c ∈ splits.map Split.testGroups ↔
    c.Pairwise (· < ·) ∧ (c.length : Int) = nTestGroups ∧ ∀ i ∈ c, (i : Int) < nGroups

theorem splits_exact (nSamples nGroups nTestGroups labelHorizon embargo : Int) {splits : List Split}
    (accepted : cpcvSplits nSamples nGroups nTestGroups labelHorizon embargo = .ok splits) :
    Splits nSamples nGroups nTestGroups labelHorizon embargo splits := by
  unfold cpcvSplits at accepted
  split at accepted
  · cases accepted
  split at accepted
  · cases accepted
  obtain ⟨groups, made, accepted⟩ := Fallible.bind_ok.mp accepted
  obtain ⟨bounds, accepted⟩ := Fallible.then_ok.mp accepted
  injection accepted with same
  obtain ⟨several, length, parts, sizes⟩ := makeGroups_ok made
  have within : 1 ≤ nTestGroups ∧ nTestGroups < nGroups := by
    unfold checkTestGroups at bounds
    split at bounds
    · assumption
    · cases bounds
  have chosen : splits.map Split.testGroups = combinations nTestGroups.toNat (List.range nGroups.toNat) := by
    rw [← same, List.map_map]
    exact List.map_id _
  have ascending : ∀ c, c ∈ combinations nTestGroups.toNat (List.range nGroups.toNat) → c.Pairwise (· < ·) :=
    fun c mem => List.pairwise_lt_range.sublist (mem_combinations.mp mem).1
  have exact_each : ∀ s ∈ splits, Exact nSamples labelHorizon embargo groups s := by
    intro s mem
    rw [← same] at mem
    obtain ⟨c, of_c, made_of⟩ := List.mem_map.mp mem
    rw [← made_of]
    exact splitOf_exact parts (ascending c of_c)
  refine ⟨⟨groups, made, length, parts, sizes, exact_each⟩, ?_, ?_, ?_⟩
  · refine ⟨(nGroups - 1).toNat.choose (nTestGroups - 1).toNat, ?_, ?_⟩
    · unfold nBacktestPaths
      rw [if_neg (by omega), bounds]
      rfl
    · intro p low high
      obtain ⟨i, g, found, holds⟩ := parts.find low high
      have inside : i < groups.length := (List.getElem?_eq_some_iff.mp found).1
      have picked : ∀ s ∈ splits, p ∈ s.test ↔ i ∈ s.testGroups := by
        intro s mem
        rw [(exact_each s mem).tested p]
        constructor
        · intro some_group
          obtain ⟨j, of_s, h, other, holds'⟩ := some_group
          rw [parts.unique found other holds holds']
          exact of_s
        · exact fun of_s => ⟨i, of_s, g, found, holds⟩
      calc splits.countP (p ∈ ·.test)
          = splits.countP (i ∈ ·.testGroups) := List.countP_congr fun s mem => by simpa using picked s mem
        _ = (splits.map Split.testGroups).countP (i ∈ ·) := by rw [List.countP_map]; rfl
        _ = (nGroups - 1).toNat.choose (nTestGroups - 1).toNat := by
          have one_more : nTestGroups.toNat = (nTestGroups - 1).toNat + 1 := by omega
          have fewer : (nGroups - 1).toNat = (List.range nGroups.toNat).length - 1 := by
            rw [List.length_range]
            omega
          rw [chosen, one_more, fewer]
          exact combinations_with List.nodup_range (List.mem_range.mpr (by omega))
  · rw [chosen]
    exact combinations_nodup List.nodup_range
  · intro c
    rw [chosen, mem_combinations]
    constructor
    · intro picked
      obtain ⟨sub, count⟩ := picked
      refine ⟨List.pairwise_lt_range.sublist sub, by omega, fun i mem => ?_⟩
      have less := List.mem_range.mp (sub.subset mem)
      omega
    · intro picked
      obtain ⟨ascend, count, less⟩ := picked
      refine ⟨?_, by omega⟩
      have inside : c ⊆ List.range nGroups.toNat := fun i mem => List.mem_range.mpr (by have := less i mem; omega)
      exact List.sublist_of_subperm_of_pairwise
        ((List.nodup_iff_pairwise_ne.mpr (ascend.imp fun less => less.ne)).subperm inside) ascend List.pairwise_lt_range

/-- Five samples in three groups, one tested at a time, a label reaching one ahead and an embargo of one. -/
theorem five_samples_exact :
    cpcvSplits 5 3 1 1 1 = .ok [⟨[0], [3, 4], [0, 1]⟩, ⟨[1], [0], [2, 3]⟩, ⟨[2], [0, 1, 2], [4]⟩] ∧
      Splits 5 3 1 1 1 [⟨[0], [3, 4], [0, 1]⟩, ⟨[1], [0], [2, 3]⟩, ⟨[2], [0, 1, 2], [4]⟩] :=
  ⟨by decide, splits_exact 5 3 1 1 1 (by decide)⟩

end Validation
