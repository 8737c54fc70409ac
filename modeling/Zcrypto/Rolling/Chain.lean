import Mathlib.Data.List.Chain
import Zcrypto.Keyed
import Zcrypto.Rolling.Plan

/- A tree whose lines are a chain from one base, each day's files in place, and what the readers find in it. -/
namespace Rolling
open Tick (Pair)

section
variable {Bytes Digest : Type}

def entryIn : Content Bytes Digest → Option (Entry Digest)
  | .line e => some e
  | .frame _ => none

/-- The lines of a tree in the order they were placed. -/
def entriesIn (tree : Tree Bytes Digest) : List (Entry Digest) :=
  tree.filterMap fun item => entryIn item.2

/-- Lines stand at their own day's path, frames at a file's. -/
def Fits : Path × Content Bytes Digest → Prop
  | (.line d, .line e) => e.day = d
  | (.line _, .frame _) => False
  | (.base _, .line _) => False
  | (.day _ _, .line _) => False
  | (.base _, .frame _) => True
  | (.day _ _, .frame _) => True

structure BaseLine (e : Entry Digest) : Prop where
  day : e.day = baseDay
  opens : e.prev = none
  files : ∀ file ∈ e.files, ∃ pair, file.1 = .base pair
  listed : e.files ≠ []
  holes : e.holes = []
  once : (named e).Nodup

/-- The set's pairs, as its base line has them. -/
def setOf (base : Entry Digest) : List Pair :=
  (named base).insertionSort (· ≤ ·)

variable (sha256 : Content Bytes Digest → Digest)

/-- The next calendar day, over the sha256 of the line below. -/
structure Linked (a b : Entry Digest) : Prop where
  day : b.day = a.day + 1
  prev : b.prev = some (sha256 (.line a))

structure Chain (base : Entry Digest) (days : List (Entry Digest)) : Prop where
  first : BaseLine base
  later : ∀ e ∈ days, DayLine (setOf base) e
  linked : (base :: days).IsChain (Linked sha256)

structure Sound (tree : Tree Bytes Digest) : Prop where
  distinct : (tree.map Prod.fst).Nodup
  fits : ∀ item ∈ tree, Fits item
  chain : ∀ base days, entriesIn tree = base :: days → Chain sha256 base days
  files : ∀ e ∈ entriesIn tree, ∀ file ∈ e.files, ∃ data,
    tree.lookup file.1 = some (.frame data) ∧ sha256 (.frame data) = file.2

variable {sha256} {tree t : Tree Bytes Digest} {base e a : Entry Digest} {days es : List (Entry Digest)}
  {setPairs : List Pair} {d : Int}

theorem Sound.empty : Sound sha256 [] :=
  ⟨.nil, fun _ mem => absurd mem List.not_mem_nil, fun _ _ none => (nomatch none),
    fun _ mem => absurd mem List.not_mem_nil⟩

theorem mem_entriesIn : e ∈ entriesIn tree ↔ ∃ path, (path, Content.line e) ∈ tree := by
  unfold entriesIn
  rw [List.mem_filterMap]
  constructor
  · rintro ⟨⟨path, content⟩, mem, some⟩
    cases content with
    | frame data => cases some
    | line entry =>
      injection some with same
      exact ⟨path, same ▸ mem⟩
  · rintro ⟨path, mem⟩
    exact ⟨(path, .line e), mem, rfl⟩

theorem linesIn_entries (fits : ∀ item ∈ tree, Fits item) :
    linesIn tree = (entriesIn tree).map Entry.day := by
  induction tree with
  | nil => rfl
  | cons item rest ih =>
    have here := fits item List.mem_cons_self
    have later := ih fun other mem => fits other (List.mem_cons_of_mem item mem)
    unfold linesIn entriesIn at later ⊢
    obtain ⟨path, content⟩ := item
    cases path with
    | line d =>
      cases content with
      | frame data => exact here.elim
      | line entry =>
        have here : entry.day = d := here
        simp only [List.filterMap_cons, entryIn, List.map_cons, later, here]
    | base pair =>
      cases content with
      | frame data => simpa only [List.filterMap_cons, entryIn] using later
      | line entry => exact here.elim
    | day pair d =>
      cases content with
      | frame data => simpa only [List.filterMap_cons, entryIn] using later
      | line entry => exact here.elim

theorem linked_ascending (linked : es.IsChain (Linked sha256)) : (es.map Entry.day).Pairwise (· < ·) := by
  have steps : es.IsChain fun a b => a.day < b.day := by
    apply linked.imp
    intro a b link
    have := link.day
    omega
  have trans : IsTrans (Entry Digest) fun a b => a.day < b.day := ⟨fun _ _ _ => Int.lt_trans⟩
  exact List.pairwise_map.mpr (List.isChain_iff_pairwise.mp steps)

theorem Sound.linked (sound : Sound sha256 tree) : (entriesIn tree).IsChain (Linked sha256) := by
  cases entries : entriesIn tree with
  | nil => exact .nil
  | cons base days => exact (sound.chain base days entries).linked

theorem Sound.lineDays (sound : Sound sha256 tree) : lineDays tree = (entriesIn tree).map Entry.day := by
  have ascending := (linked_ascending sound.linked).imp (S := fun a b => a ≤ b) Int.le_of_lt
  rw [Rolling.lineDays, linesIn_entries sound.fits]
  exact List.Pairwise.insertionSort_eq ascending

theorem Sound.found (sound : Sound sha256 tree) (mem : e ∈ entriesIn tree) :
    tree.lookup (.line e.day) = some (.line e) := by
  obtain ⟨path, mem⟩ := mem_entriesIn.mp mem
  have fits := sound.fits _ mem
  cases path with
  | line d =>
    have here : e.day = d := fits
    rw [here]
    exact (Keyed.lookup_iff sound.distinct).mpr mem
  | base pair => exact fits.elim
  | day pair d => exact fits.elim

theorem Sound.line_found (sound : Sound sha256 tree)
    (found : tree.lookup (.line d) = some (.line e)) : e ∈ entriesIn tree ∧ e.day = d := by
  have mem := (Keyed.lookup_iff sound.distinct).mp found
  exact ⟨mem_entriesIn.mpr ⟨_, mem⟩, sound.fits _ mem⟩

theorem Sound.line_absent (sound : Sound sha256 tree) (absent : ∀ e ∈ entriesIn tree, e.day ≠ d) :
    tree.lookup (.line d) = none := by
  cases found : tree.lookup (.line d) with
  | none => rfl
  | some content =>
    have mem := (Keyed.lookup_iff sound.distinct).mp found
    cases content with
    | frame data => exact (sound.fits _ mem).elim
    | line entry => exact absurd (sound.fits _ mem) (absent entry (mem_entriesIn.mpr ⟨_, mem⟩))

theorem BaseLine.shape (line : BaseLine e) : shape e.day e = .ok () := by
  have files : e.files.all (fun file => isBaseFile file.1) = true := by
    rw [List.all_eq_true]
    intro file mem
    obtain ⟨pair, path⟩ := line.files file mem
    rw [path]
    rfl
  simp [Rolling.shape, line.opens, line.listed, line.holes, files]

theorem setOf_nodup (line : BaseLine base) : (setOf base).Nodup :=
  (List.perm_insertionSort _ _).nodup_iff.mpr line.once

/-- A line of the tree is read as it was placed, and passes for the set's pairs. -/
theorem Sound.read (sound : Sound sha256 tree) (entries : entriesIn tree = base :: days)
    (mem : e ∈ entriesIn tree) : read sha256 tree e.day = .ok (Line.of sha256 e) ∧
      checkUnlessBase (Line.of sha256 e) (.ok (setOf base)) = .ok () := by
  have chain := sound.chain base days entries
  have shaped : shape e.day e = .ok () ∧
      checkUnlessBase (Line.of sha256 e) (.ok (setOf base)) = .ok () := by
    rw [entries] at mem
    rcases List.mem_cons.mp mem with same | later
    · rw [same]
      refine ⟨chain.first.shape, ?_⟩
      have opens : (Line.of sha256 base).prev = none := chain.first.opens
      rw [checkUnlessBase, opens]
    · have dayLine := chain.later e later
      refine ⟨dayLine.shape, ?_⟩
      unfold checkUnlessBase
      cases (Line.of sha256 e).prev with
      | none => rfl
      | some prev => exact DayLine.checkPairs dayLine (setOf_nodup chain.first)
  refine ⟨?_, shaped.2⟩
  rw [Rolling.read, sound.found mem]
  exact Fallible.bind_ok.mpr ⟨(), shaped.1, rfl⟩

theorem Sound.pairs (sound : Sound sha256 tree) (entries : entriesIn tree = base :: days) :
    pairs sha256 tree = .ok (setOf base) := by
  have first : base ∈ entriesIn tree := entries ▸ List.mem_cons_self
  have opens : (Line.of sha256 base).prev = none := (sound.chain base days entries).first.opens
  unfold Rolling.pairs
  rw [sound.lineDays, entries, List.map_cons]
  refine Fallible.bind_ok.mpr ⟨_, (sound.read entries first).1, ?_⟩
  exact Fallible.then_ok.mpr ⟨by rw [opens]; rfl, rfl⟩

variable [DecidableEq Digest]

/-- The walk down, by induction from the newest line. -/
theorem walkDown_linked {above : Option (Entry Digest)}
    (reads : ∀ e ∈ es, read sha256 tree e.day = .ok (Line.of sha256 e) ∧
      checkUnlessBase (Line.of sha256 e) (.ok setPairs) = .ok ())
    (linked : (es ++ above.toList).IsChain (Linked sha256)) :
    walkDown sha256 tree setPairs (above.map (Line.of sha256)) (es.map Entry.day).reverse =
      .ok (es.map (Line.of sha256)) := by
  induction es using List.reverseRecOn generalizing above with
  | nil => rfl
  | append_singleton es e ih =>
    obtain ⟨read, inSet⟩ := reads e (by simp)
    have link : checkLink (above.map (Line.of sha256)) (Line.of sha256 e) = .ok () := by
      cases above with
      | none => rfl
      | some a =>
        rw [List.append_assoc, List.isChain_append] at linked
        have next : Linked sha256 e a := by
          have pair := linked.2.1
          rw [List.singleton_append, Option.toList_some, List.isChain_cons_cons] at pair
          exact pair.1
        have day : (Line.of sha256 a).day = (Line.of sha256 e).day + 1 := next.day
        have prev : (Line.of sha256 a).prev = some (Line.of sha256 e).sha256 := next.prev
        simp only [Option.map_some, checkLink, day, prev, ne_eq, not_true, if_false]
    have below : walkDown sha256 tree setPairs (some (Line.of sha256 e)) (es.map Entry.day).reverse =
        .ok (es.map (Line.of sha256)) := by
      have upTo : (es ++ (some e).toList).IsChain (Linked sha256) := linked.left_of_append
      exact ih (fun other mem => reads other (List.mem_append_left _ mem)) upTo
    rw [List.map_append, List.map_singleton, List.reverse_append, List.reverse_singleton,
      List.singleton_append, walkDown]
    refine Fallible.bind_ok.mpr ⟨_, read, Fallible.then_ok.mpr ⟨inSet, Fallible.then_ok.mpr ⟨link, ?_⟩⟩⟩
    refine Fallible.bind_ok.mpr ⟨_, below, ?_⟩
    rw [List.map_append, List.map_singleton]
    rfl

omit [DecidableEq Digest] in
theorem filter_upTo {below above : List (Entry Digest)} (e : Entry Digest)
    (ascending : ((below ++ e :: above).map Entry.day).Pairwise (· < ·)) :
    ((below ++ e :: above).map Entry.day).filter (fun d => d ≤ e.day) = (below ++ [e]).map Entry.day := by
  rw [List.pairwise_map] at ascending
  obtain ⟨-, upper, across⟩ := List.pairwise_append.mp ascending
  have later := (List.pairwise_cons.mp upper).1
  have keeps : (below.map Entry.day).filter (fun d => d ≤ e.day) = below.map Entry.day := by
    rw [List.filter_eq_self]
    intro d mem
    obtain ⟨b, inside, same⟩ := List.mem_map.mp mem
    have := across b inside e List.mem_cons_self
    simp only [decide_eq_true_eq]
    omega
  have drops : (above.map Entry.day).filter (fun d => d ≤ e.day) = [] := by
    rw [List.filter_eq_nil_iff]
    intro d mem
    obtain ⟨a, inside, same⟩ := List.mem_map.mp mem
    have := later a inside
    simp only [decide_eq_true_eq]
    omega
  rw [List.map_append, List.map_cons, List.filter_append, List.filter_cons, keeps, drops]
  simp

/-- The chain up to a line is the lines placed up to it. -/
theorem Sound.walkChain (sound : Sound sha256 tree) {below above : List (Entry Digest)}
    (entries : entriesIn tree = below ++ e :: above) :
    walkChain sha256 tree e.day = .ok ((below ++ [e]).map (Line.of sha256)) := by
  have mem : e ∈ entriesIn tree := by simp [entries]
  have linked := sound.linked
  rw [entries] at linked
  have days := filter_upTo e (linked_ascending linked)
  have held : e.day ∈ Rolling.lineDays tree := by
    rw [sound.lineDays]
    exact List.mem_map_of_mem mem
  obtain ⟨base, others, opening⟩ : ∃ base others, entriesIn tree = base :: others := by
    rw [entries]
    cases below with
    | nil => exact ⟨_, _, rfl⟩
    | cons first rest => exact ⟨_, _, rfl⟩
  have reads : ∀ b ∈ below ++ [e], Rolling.read sha256 tree b.day = .ok (Line.of sha256 b) ∧
      checkUnlessBase (Line.of sha256 b) (.ok (setOf base)) = .ok () := by
    intro b inside
    apply sound.read opening
    rw [entries]
    rcases List.mem_append.mp inside with earlier | here
    · exact List.mem_append_left _ earlier
    · rw [List.mem_singleton.mp here]
      simp
  have upTo : (below ++ [e]).IsChain (Linked sha256) := by
    have parted : below ++ e :: above = (below ++ [e]) ++ above := by simp
    rw [parted] at linked
    exact linked.left_of_append
  have unbounded : ((below ++ [e]) ++ (none : Option (Entry Digest)).toList).IsChain (Linked sha256) := by
    simpa using upTo
  have walked := walkDown_linked reads unbounded
  unfold Rolling.walkChain
  refine Fallible.then_ok.mpr ⟨require_ok.mpr (by simpa using held), ?_⟩
  refine Fallible.bind_ok.mpr ⟨_, sound.pairs opening, ?_⟩
  rw [sound.lineDays, entries, days]
  exact walked

/-- The head is the line placed last. -/
theorem Sound.head (sound : Sound sha256 tree) {below : List (Entry Digest)}
    (entries : entriesIn tree = below ++ [e]) : head sha256 tree = .ok (Line.of sha256 e) := by
  have mem : e ∈ entriesIn tree := by simp [entries]
  obtain ⟨base, others, opening⟩ : ∃ base others, entriesIn tree = base :: others := by
    rw [entries]
    cases below with
    | nil => exact ⟨_, _, rfl⟩
    | cons first rest => exact ⟨_, _, rfl⟩
  obtain ⟨read, inSet⟩ := sound.read opening mem
  have present : (Line.of sha256 e).files.all (fun file => isFile tree file.1) = true := by
    rw [List.all_eq_true]
    intro file listed
    obtain ⟨data, found, -⟩ := sound.files e mem file listed
    simp [isFile, found]
  have readable : readLine sha256 tree e.day = .ok (Line.of sha256 e) := by
    refine Fallible.bind_ok.mpr ⟨_, read, Fallible.then_ok.mpr ⟨?_, rfl⟩⟩
    rw [sound.pairs opening]
    exact inSet
  unfold Rolling.head
  rw [sound.lineDays, entries, List.map_append, List.map_singleton, List.reverse_append,
    List.reverse_singleton, List.singleton_append, headOf]
  refine Fallible.bind_ok.mpr ⟨_, readable, ?_⟩
  have alone : entriesIn tree = below ++ e :: [] := entries
  rw [if_pos present, sound.walkChain alone, List.map_append, List.map_singleton]
  refine Fallible.bind_ok.mpr ⟨_, rfl, ?_⟩
  rw [List.getLast?_concat]

/- Placing. -/

omit [DecidableEq Digest] in
theorem entriesIn_concat (item : Path × Content Bytes Digest) :
    entriesIn (tree ++ [item]) = entriesIn tree ++ (entryIn item.2).toList := by
  unfold entriesIn
  rw [List.filterMap_append]
  cases h : entryIn item.2 with
  | none => simp [h]
  | some e => simp [h]

omit [DecidableEq Digest] in
theorem nodup_concat {path : Path} {content : Content Bytes Digest} (distinct : (tree.map Prod.fst).Nodup)
    (absent : tree.lookup path = none) : ((tree ++ [(path, content)]).map Prod.fst).Nodup := by
  rw [List.map_append, List.map_singleton, List.nodup_append]
  refine ⟨distinct, by simp, ?_⟩
  intro k mem k' here same
  obtain ⟨item, inside, key⟩ := List.mem_map.mp mem
  rw [List.mem_singleton.mp here] at same
  have found := List.lookup_eq_none_iff.mp absent item inside
  rw [key, same] at found
  simp at found

omit [DecidableEq Digest] in
theorem Sound.file_grows (sound : Sound sha256 tree) (grows : WriteOnce.Grows tree t)
    (mem : e ∈ entriesIn tree) {file : Path × Digest} (listed : file ∈ e.files) :
    ∃ data, t.lookup file.1 = some (.frame data) ∧ sha256 (.frame data) = file.2 := by
  obtain ⟨data, found, hash⟩ := sound.files e mem file listed
  exact ⟨data, grows _ _ found, hash⟩

omit [DecidableEq Digest] in
theorem Sound.frame (sound : Sound sha256 tree) {path : Path} {data : Bytes}
    (place : ∀ d, path ≠ .line d) (absent : tree.lookup path = none) :
    Sound sha256 (tree ++ [(path, .frame data)]) := by
  have same : entriesIn (tree ++ [(path, Content.frame data)]) = entriesIn tree := by
    rw [entriesIn_concat]
    exact List.append_nil _
  have grows : WriteOnce.Grows tree (tree ++ [(path, Content.frame data)]) := by
    intro k v found
    rw [WriteOnce.lookup_concat absent, if_neg]
    · exact found
    · intro here
      rw [here, absent] at found
      cases found
  constructor
  · exact nodup_concat sound.distinct absent
  · intro item mem
    rcases List.mem_append.mp mem with old | new
    · exact sound.fits item old
    · rw [List.mem_singleton.mp new]
      cases path with
      | line d => exact absurd rfl (place d)
      | base pair => exact trivial
      | day pair d => exact trivial
  · rw [same]
    exact sound.chain
  · rw [same]
    intro e mem file listed
    exact sound.file_grows grows mem listed

omit [DecidableEq Digest] in
/-- A line may be placed when it opens the chain or continues it, its files there already. -/
theorem Sound.line (sound : Sound sha256 tree) (absent : tree.lookup (.line e.day) = none)
    (chain : ∀ base days, entriesIn tree ++ [e] = base :: days → Chain sha256 base days)
    (files : ∀ file ∈ e.files, ∃ data, tree.lookup file.1 = some (.frame data) ∧
      sha256 (.frame data) = file.2) :
    Sound sha256 (tree ++ [(.line e.day, .line e)]) := by
  have more : entriesIn (tree ++ [(.line e.day, Content.line e)]) = entriesIn tree ++ [e] :=
    entriesIn_concat _
  have grows : WriteOnce.Grows tree (tree ++ [(.line e.day, Content.line e)]) := by
    intro k v found
    rw [WriteOnce.lookup_concat absent, if_neg]
    · exact found
    · intro here
      rw [here, absent] at found
      cases found
  constructor
  · exact nodup_concat sound.distinct absent
  · intro item mem
    rcases List.mem_append.mp mem with old | new
    · exact sound.fits item old
    · rw [List.mem_singleton.mp new]
      exact rfl
  · rw [more]
    exact chain
  · rw [more]
    intro other mem file listed
    rcases List.mem_append.mp mem with old | new
    · exact sound.file_grows grows old listed
    · rw [List.mem_singleton.mp new] at listed
      obtain ⟨data, found, hash⟩ := files file listed
      exact ⟨data, grows _ _ found, hash⟩

end

end Rolling
