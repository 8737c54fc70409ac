import Zcrypto.Fallible
import Zcrypto.Rolling.Chain

/- What a read of a pair says besides its rows: the line it gives is the day's own, and whether holes are
   accepted changes nothing in what is read where both ways read. -/
namespace Rolling
open Tick (Pair)

section
variable {Bytes Digest Row : Type} [DecidableEq Digest] {sha256 : Content Bytes Digest → Digest}
  {tree : Tree Bytes Digest} {frames : Frames Bytes Row} {pair : Pair} {interval : Nat} {asOf d : Int}
  {window : Option (Int × Int)} {acceptHoles acceptHoles' : Bool} {line : Line Digest}

omit [DecidableEq Digest] in
theorem read_day (h : read sha256 tree d = .ok line) : line.day = d := by
  unfold read at h
  split at h
  · rename_i entry _
    obtain ⟨_, shaped, h⟩ := Fallible.bind_ok.mp h
    injection h with h
    unfold shape at shaped
    split at shaped
    · cases shaped
    · rename_i own
      rw [← h]
      exact not_not.mp own
  · cases h
  · cases h

theorem walkDown_last {setPairs : List Pair} {above : Option (Line Digest)} {below : List Int}
    {chain : List (Line Digest)} (h : walkDown sha256 tree setPairs above (d :: below) = .ok chain) :
    ∃ rest line, chain = rest ++ [line] ∧ line.day = d := by
  unfold walkDown at h
  obtain ⟨line, here, h⟩ := Fallible.bind_ok.mp h
  obtain ⟨_, _, h⟩ := Fallible.bind_ok.mp h
  obtain ⟨_, _, h⟩ := Fallible.bind_ok.mp h
  obtain ⟨rest, _, h⟩ := Fallible.bind_ok.mp h
  injection h with h
  exact ⟨rest, line, h.symm, read_day here⟩

/-- The newest of the days up to one of them is that day. -/
theorem upTo_newest {days : List Int} (ordered : days.Pairwise (· ≤ ·)) (mem : asOf ∈ days) :
    ∃ below, (days.filter fun d => d ≤ asOf).reverse = asOf :: below := by
  cases newest : (days.filter fun d => d ≤ asOf).reverse with
  | nil =>
    have there : asOf ∈ days.filter fun d => d ≤ asOf := List.mem_filter.mpr ⟨mem, by simp⟩
    rw [← List.mem_reverse, newest] at there
    cases there
  | cons d below =>
    have descending : (d :: below).Pairwise fun a b => b ≤ a := by
      rw [← newest, List.pairwise_reverse]
      exact ordered.filter _
    have there : d ∈ days.filter fun d => d ≤ asOf := by
      rw [← List.mem_reverse, newest]
      exact List.mem_cons_self
    have upTo : d ≤ asOf := by simpa using (List.mem_filter.mp there).2
    have among : asOf ∈ d :: below := by
      rw [← newest, List.mem_reverse]
      exact List.mem_filter.mpr ⟨mem, by simp⟩
    have least : asOf ≤ d := by
      rcases List.mem_cons.mp among with same | later
      · exact same.le
      · exact (List.pairwise_cons.mp descending).1 asOf later
    exact ⟨below, by rw [le_antisymm upTo least]⟩

theorem walkChain_last {chain : List (Line Digest)} (h : walkChain sha256 tree asOf = .ok chain) :
    ∃ rest line, chain = rest ++ [line] ∧ line.day = asOf := by
  unfold walkChain at h
  obtain ⟨_, held, h⟩ := Fallible.bind_ok.mp h
  obtain ⟨setPairs, _, h⟩ := Fallible.bind_ok.mp h
  have mem : asOf ∈ lineDays tree := by simpa using require_ok.mp held
  have total : Std.Total (fun a b : Int => a ≤ b) := ⟨le_total⟩
  have trans : IsTrans Int fun a b => a ≤ b := ⟨fun _ _ _ => le_trans⟩
  obtain ⟨below, newest⟩ := upTo_newest (List.pairwise_insertionSort _ (linesIn tree)) mem
  unfold lineDays at h
  rw [newest] at h
  exact walkDown_last h

/-- The parts of a read, in the order they are come to. -/
structure ReadParts (sha256 : Content Bytes Digest → Digest) (frames : Frames Bytes Row) (tree : Tree Bytes Digest)
    (pair : Pair) (interval : Nat) (asOf : Int) (window : Option (Int × Int)) (acceptHoles : Bool)
    (read : RollingRead Row Digest) (chain : List (Line Digest)) (base : Line Digest) (first : Path × Digest)
    (files : List (Path × Digest)) (rows : List (List Row)) : Prop where
  walked : walkChain sha256 tree asOf = .ok chain
  ends : ends asOf chain = .ok (base, read.line)
  base : listedBase pair base = .ok first
  listed : listed pair window acceptHoles chain.tail = .ok (files, read.holes)
  opened : (first :: files).mapM (opened sha256 frames tree) = .ok rows
  frame : read.frame = within frames window
    (if interval = baseGrid then rows.flatten else frames.deriveBars interval rows.flatten)

theorem readRolling_parts {read : RollingRead Row Digest}
    (h : readRolling sha256 frames tree pair interval asOf window acceptHoles = .ok read) :
    ∃ chain base first files rows,
      ReadParts sha256 frames tree pair interval asOf window acceptHoles read chain base first files rows := by
  obtain ⟨setPairs, pairs, h⟩ := Fallible.bind_ok.mp h
  obtain ⟨inSet, h⟩ := Fallible.then_ok.mp h
  obtain ⟨grid, h⟩ := Fallible.then_ok.mp h
  obtain ⟨chain, walked, h⟩ := Fallible.bind_ok.mp h
  obtain ⟨⟨base, line⟩, ends, h⟩ := Fallible.bind_ok.mp h
  obtain ⟨first, listedBase, h⟩ := Fallible.bind_ok.mp h
  obtain ⟨⟨files, holes⟩, listed, h⟩ := Fallible.bind_ok.mp h
  obtain ⟨rows, opened, h⟩ := Fallible.bind_ok.mp h
  injection h with h
  subst h
  exact ⟨chain, base, first, files, rows, walked, ends, listedBase, listed, opened, rfl⟩

/-- The line of a read is that of the day it was asked as of. -/
theorem readRolling_day {read : RollingRead Row Digest}
    (h : readRolling sha256 frames tree pair interval asOf window acceptHoles = .ok read) : read.line.day = asOf := by
  obtain ⟨chain, base, first, files, rows, parts⟩ := readRolling_parts h
  obtain ⟨rest, line, whole, own⟩ := walkChain_last parts.walked
  have ends := parts.ends
  rw [whole] at ends
  unfold Rolling.ends at ends
  cases rest with
  | nil =>
    injection ends with ends
    injection ends with _ last
    rw [← last]
    exact own
  | cons oldest days =>
    rw [List.cons_append] at ends
    injection ends with ends
    injection ends with _ last
    rw [← last, List.getLast?_concat]
    exact own

/-- Reads as of one day have one line. -/
theorem readRolling_line {pair' : Pair} {interval' : Nat} {window' : Option (Int × Int)}
    {read read' : RollingRead Row Digest}
    (h : readRolling sha256 frames tree pair interval asOf window acceptHoles = .ok read)
    (h' : readRolling sha256 frames tree pair' interval' asOf window' acceptHoles' = .ok read') :
    read.line = read'.line := by
  obtain ⟨chain, base, first, files, rows, parts⟩ := readRolling_parts h
  obtain ⟨chain', base', first', files', rows', parts'⟩ := readRolling_parts h'
  have chains : chain = chain' := Except.ok.inj (parts.walked.symm.trans parts'.walked)
  subst chains
  have both : (base, read.line) = (base', read'.line) := Except.ok.inj (parts.ends.symm.trans parts'.ends)
  exact (Prod.mk.inj both).2

omit [DecidableEq Digest] in
/-- The files and the holes listed are the same where they are listed with holes accepted and without. -/
theorem listed_accept {lines : List (Line Digest)} {both both' : List (Path × Digest) × List Int}
    (h : listed pair window acceptHoles lines = .ok both) (h' : listed pair window acceptHoles' lines = .ok both') :
    both = both' := by
  induction lines generalizing both both' with
  | nil =>
    injection h with h
    injection h' with h'
    exact h.symm.trans h'
  | cons line rest ih =>
    unfold listed at h h'
    cases hole : line.holes.lookup pair with
    | some reason =>
      rw [hole] at h h'
      simp only at h h'
      split at h
      · rename_i meeting
        rw [if_pos meeting] at h'
        obtain ⟨-, h⟩ := Fallible.then_ok.mp h
        obtain ⟨-, h'⟩ := Fallible.then_ok.mp h'
        obtain ⟨more, listed, h⟩ := Fallible.bind_ok.mp h
        obtain ⟨more', listed', h'⟩ := Fallible.bind_ok.mp h'
        injection h with h
        injection h' with h'
        rw [← h, ← h', ih listed listed']
      · rename_i apart
        rw [if_neg apart] at h'
        exact ih h h'
    | none =>
      rw [hole] at h h'
      simp only at h h'
      cases file : line.files.lookup (.day pair line.day) with
      | none =>
        rw [file] at h
        cases h
      | some digest =>
        rw [file] at h h'
        obtain ⟨more, listed, h⟩ := Fallible.bind_ok.mp h
        obtain ⟨more', listed', h'⟩ := Fallible.bind_ok.mp h'
        injection h with h
        injection h' with h'
        rw [← h, ← h', ih listed listed']

/-- A read that holes do not stop is the same with them accepted and without. -/
theorem readRolling_accept {read read' : RollingRead Row Digest}
    (h : readRolling sha256 frames tree pair interval asOf window acceptHoles = .ok read)
    (h' : readRolling sha256 frames tree pair interval asOf window acceptHoles' = .ok read') : read = read' := by
  obtain ⟨chain, base, first, files, rows, parts⟩ := readRolling_parts h
  obtain ⟨chain', base', first', files', rows', parts'⟩ := readRolling_parts h'
  have chains : chain = chain' := Except.ok.inj (parts.walked.symm.trans parts'.walked)
  subst chains
  have line := readRolling_line h h'
  have both : (base, read.line) = (base', read'.line) := Except.ok.inj (parts.ends.symm.trans parts'.ends)
  obtain ⟨rfl, -⟩ := Prod.mk.inj both
  have own : first = first' := Except.ok.inj (parts.base.symm.trans parts'.base)
  subst own
  obtain ⟨rfl, holes⟩ := Prod.mk.inj (listed_accept parts.listed parts'.listed)
  have same : rows = rows' := Except.ok.inj (parts.opened.symm.trans parts'.opened)
  subst same
  have frame := parts.frame.trans parts'.frame.symm
  cases read
  cases read'
  simp only at line holes frame
  rw [line, holes, frame]

end

end Rolling
