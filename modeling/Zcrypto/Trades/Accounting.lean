import Mathlib.Tactic.Ring
import Zcrypto.Holes
import Zcrypto.Trades.Backfill

/- Where every missing id of a pair goes: what was detected is what the gaps' pages brought or did
   not, what they brought lies in hours that were healed, deferred or failed, and the archive that is
   read again has just the ids and the duplicates that were left. -/
namespace Trades
open Keyed Holes

/- First rows. -/

section
variable {l m : List Trade} {t : Trade} {i : Int}

def idSet (l : List Trade) : Finset ℤ := (ids l).toFinset

theorem mem_ids : i ∈ ids l ↔ ∃ t ∈ l, t.tradeId = i := List.mem_map

theorem mem_idSet : i ∈ idSet l ↔ i ∈ ids l := List.mem_toFinset

theorem ids_append : ids (l ++ m) = ids l ++ ids m := List.map_append

theorem idSet_append : idSet (l ++ m) = idSet l ∪ idSet m := by
  unfold idSet
  rw [ids_append, List.toFinset_append]

theorem idSet_perm (perm : l.Perm m) : idSet l = idSet m :=
  List.toFinset_eq_of_perm _ _ (perm.map _)

theorem firsts_sublist : (firsts l).Sublist l := by
  induction l with
  | nil => exact List.Sublist.refl []
  | cons t rest ih => exact (List.filter_sublist.trans ih).cons_cons t

theorem distinct_firsts : Distinct Trade.tradeId (firsts l) := by
  induction l with
  | nil => exact List.nodup_nil
  | cons t rest ih =>
    unfold Distinct firsts
    rw [List.map_cons, List.nodup_cons]
    refine ⟨?_, ih.filter _⟩
    intro mem
    obtain ⟨other, kept, same⟩ := List.mem_map.mp mem
    simp [same] at kept

theorem ids_firsts : i ∈ ids (firsts l) ↔ i ∈ ids l := by
  induction l with
  | nil => rfl
  | cons t rest ih =>
    simp only [mem_ids] at ih
    simp only [firsts, mem_ids, List.mem_cons, List.mem_filter, decide_eq_true_eq]
    constructor
    · rintro ⟨other, rfl | ⟨mem, -⟩, rfl⟩
      · exact ⟨other, .inl rfl, rfl⟩
      · obtain ⟨first, inside, same⟩ := ih.mp ⟨other, mem, rfl⟩
        exact ⟨first, .inr inside, same⟩
    · rintro ⟨other, rfl | mem, rfl⟩
      · exact ⟨other, .inl rfl, rfl⟩
      · by_cases same : other.tradeId = t.tradeId
        · exact ⟨t, .inl rfl, same.symm⟩
        · obtain ⟨first, inside, found⟩ := ih.mpr ⟨other, mem, rfl⟩
          exact ⟨first, .inr ⟨inside, by rw [found]; exact same⟩, found⟩

theorem firsts_distinct (distinct : Distinct Trade.tradeId l) : firsts l = l := by
  induction l with
  | nil => rfl
  | cons t rest ih =>
    unfold Distinct at distinct
    rw [List.map_cons, List.nodup_cons] at distinct
    rw [firsts, ih distinct.2, List.filter_eq_self.mpr]
    intro other mem
    have differs : other.tradeId ≠ t.tradeId := by
      intro same
      exact distinct.1 (List.mem_map.mpr ⟨other, mem, same⟩)
    simpa using differs

theorem firsts_append (apart : ∀ i ∈ ids m, i ∉ ids l) :
    firsts (l ++ m) = firsts l ++ firsts m := by
  induction l with
  | nil => rfl
  | cons t rest ih =>
    have later : ∀ i ∈ ids m, i ∉ ids rest := by
      intro i mem inside
      exact apart i mem (List.mem_cons_of_mem _ inside)
    rw [List.cons_append, firsts, ih later, List.filter_append, firsts, List.cons_append]
    congr 2
    rw [List.filter_eq_self]
    intro other mem
    have inside : other.tradeId ∈ ids m := ids_firsts.mp (List.mem_map_of_mem mem)
    have differs : other.tradeId ≠ t.tradeId := by
      intro same
      apply apart _ inside
      rw [same]
      exact List.mem_cons_self
    simpa using differs

theorem card_idSet : (idSet l).card = (firsts l).length := by
  have same : (ids (firsts l)).toFinset = idSet l := by
    ext i
    rw [mem_idSet, ← ids_firsts, List.mem_toFinset]
  rw [← same, ids, List.toFinset_card_of_nodup distinct_firsts, List.length_map]

end

/- Detection. -/

section
variable {frame : List Trade} {g : IdGap} {t : Trade}

/-- The ids that detection walks. -/
def walked (frame : List Trade) : List ℤ := ids (arrange Trade.tradeId (firsts frame))

theorem walked_sorted : (walked frame).Pairwise (· < ·) :=
  List.pairwise_map.mpr distinct_firsts.ascending

theorem walked_set : (walked frame).toFinset = idSet frame := by
  ext i
  rw [List.mem_toFinset, mem_idSet, ← ids_firsts]
  unfold walked
  rw [mem_ids, mem_ids]
  simp only [mem_arrange]

theorem idGaps_steps (l : List Trade) :
    (idGaps l).map (fun g => (g.afterId, g.beforeId)) = steps (ids l) := by
  induction l using idGaps.induct with
  | case1 a b rest wide ih =>
    rw [idGaps, if_pos wide, List.map_cons, ih]
    exact (if_pos wide).symm
  | case2 a b rest narrow ih =>
    rw [idGaps, if_neg narrow, ih]
    exact (if_neg narrow).symm
  | case3 l short =>
    match l, short with
    | [], _ => rfl
    | [a], _ => rfl
    | a :: b :: rest, short => exact (short a b rest rfl).elim

theorem detect_gaps (frame : List Trade) :
    (detect frame).gaps.map (fun g => (g.afterId, g.beforeId)) = steps (walked frame) := by
  unfold detect walked
  rw [← idGaps_steps]
  cases arrange Trade.tradeId (firsts frame) with
  | nil => rfl
  | cons low rest =>
    obtain ⟨high, last⟩ : ∃ high, (low :: rest).getLast? = some high :=
      ⟨_, List.getLast?_eq_some_getLast (List.cons_ne_nil low rest)⟩
    simp only [List.head?_cons, last]

theorem detect_counts (frame : List Trade) :
    (detect frame).rows = frame.length ∧ (detect frame).unique = (idSet frame).card ∧
      (detect frame).missing = (absent (idSet frame)).card := by
  have size : (arrange Trade.tradeId (firsts frame)).length = (idSet frame).card := by
    rw [length_arrange, card_idSet]
  have count := card_absent (s := idSet frame)
  have set : (walked frame).toFinset = idSet frame := walked_set
  have sorted : (walked frame).Pairwise (· < ·) := walked_sorted
  unfold walked at set sorted
  unfold detect
  cases walk : arrange Trade.tradeId (firsts frame) with
  | nil =>
    rw [walk] at set size
    have none : idSet frame = ∅ := set.symm
    have nothing : frame = [] := by
      cases frame with
      | nil => rfl
      | cons t rest => simp [idSet, ids] at none
    subst nothing
    simp [idSet, ids, absent, hull]
  | cons low rest =>
    obtain ⟨high, last⟩ : ∃ high, (low :: rest).getLast? = some high :=
      ⟨_, List.getLast?_eq_some_getLast (List.cons_ne_nil low rest)⟩
    rw [walk] at set sorted size
    have bounds : hull (idSet frame) = Finset.Icc low.tradeId high.tradeId := by
      rw [← set]
      apply hull_sorted sorted
      · rfl
      · rw [ids, List.getLast?_map, last]
        rfl
    have order : low.tradeId ≤ high.tradeId := by
      have mem : high.tradeId ∈ hull (idSet frame) := by
        apply subset_hull
        rw [← set, List.mem_toFinset]
        exact List.mem_map_of_mem (List.mem_of_getLast? last)
      rw [bounds] at mem
      exact (Finset.mem_Icc.mp mem).1
    rw [bounds, Int.card_Icc] at count
    simp only [List.head?_cons, last, size, true_and]
    omega

theorem detect_missing (frame : List Trade) :
    ((detect frame).gaps.map IdGap.missing).sum = (detect frame).missing := by
  rw [(detect_counts frame).2.2, ← walked_set, ← sum_steps walked_sorted, ← detect_gaps, List.map_map]
  rfl

theorem gap_step (mem : g ∈ (detect frame).gaps) : (g.afterId, g.beforeId) ∈ steps (walked frame) := by
  rw [← detect_gaps]
  exact List.mem_map_of_mem mem

/-- What is inside a gap is missing. -/
theorem inside_absent (mem : g ∈ (detect frame).gaps) (inside : g.inside t = true) :
    t.tradeId ∈ absent (idSet frame) := by
  rw [← walked_set, mem_absent_steps walked_sorted]
  unfold IdGap.inside at inside
  rw [Bool.and_eq_true, decide_eq_true_eq, decide_eq_true_eq] at inside
  exact ⟨_, gap_step mem, inside⟩

theorem gaps_apart (frame : List Trade) :
    (detect frame).gaps.Pairwise fun g later => g.beforeId ≤ later.afterId := by
  have sorted : (walked frame).Pairwise (· < ·) := walked_sorted
  have apart := steps_pairwise sorted
  rw [← detect_gaps] at apart
  exact List.pairwise_map.mp apart

end

/- Fetching. -/

section
variable {fetch : IdGap → Option (List Trade)} {gaps : List IdGap} {t : Trade}

theorem fetchTrades_distinct {till seen : Option Int} {frames page : List Trade}
    {answers : List Answer} (served : fetchTrades till seen frames answers = some page) :
    Distinct Trade.tradeId page := by
  have whole (frames : List Trade) : Distinct Trade.tradeId (fetched frames) :=
    distinct_firsts.arrange
  induction answers generalizing seen frames with
  | nil => cases served
  | cons answer rest ih =>
    cases answer with
    | fails => cases served
    | page rows =>
      unfold fetchTrades at served
      split at served
      · split at served
        · cases served
          exact whole _
        · split at served
          · cases served
            exact whole _
          · split at served
            · cases served
              exact whole _
            · exact ih served
      · cases served
        exact whole _

/-- A row that REST served for a gap, and that is inside it. -/
def Served (fetch : IdGap → Option (List Trade)) (gaps : List IdGap) (t : Trade) : Prop :=
  ∃ g ∈ gaps, g.inside t = true ∧ ∃ page, fetch g = some page ∧ t ∈ page

theorem mem_got : t ∈ (fetchGaps fetch gaps).got ↔ Served fetch gaps t := by
  unfold Served
  induction gaps with
  | nil => simp [fetchGaps]
  | cons g rest ih =>
    unfold fetchGaps
    cases answer : fetch g with
    | none => simp [ih, answer]
    | some page => simp [ih, answer, and_comm]

theorem fetched_count (fetch : IdGap → Option (List Trade)) (gaps : List IdGap) :
    ((fetchGaps fetch gaps).got.length : Int) + (fetchGaps fetch gaps).unrecoverable +
      (fetchGaps fetch gaps).failed = (gaps.map IdGap.missing).sum := by
  induction gaps with
  | nil => rfl
  | cons g rest ih =>
    rw [List.map_cons, List.sum_cons, ← ih]
    simp only [fetchGaps]
    cases fetch g with
    | none =>
      simp only
      omega
    | some page =>
      simp only [List.length_append]
      push_cast
      omega

theorem got_distinct (pages : ∀ g page, fetch g = some page → Distinct Trade.tradeId page)
    (apart : gaps.Pairwise fun g later => g.beforeId ≤ later.afterId) :
    Distinct Trade.tradeId (fetchGaps fetch gaps).got := by
  induction gaps with
  | nil => exact List.nodup_nil
  | cons g rest ih =>
    obtain ⟨before, later⟩ := List.pairwise_cons.mp apart
    unfold fetchGaps
    cases answer : fetch g with
    | none => exact ih later
    | some page =>
      unfold Distinct
      rw [List.map_append, List.nodup_append]
      refine ⟨(pages g page answer).filter _, ih later, ?_⟩
      intro i mem j mem' same
      obtain ⟨t, inside, rfl⟩ := List.mem_map.mp mem
      obtain ⟨t', got, rfl⟩ := List.mem_map.mp mem'
      obtain ⟨g', after, inside', -⟩ := mem_got.mp got
      have order := before g' after
      have below := (List.mem_filter.mp inside).2
      unfold IdGap.inside at below inside'
      simp only [Bool.and_eq_true, decide_eq_true_eq] at below inside'
      omega

end

/- The union of an hour. -/

section
variable {held rest : List Trade} {t : Trade}

/-- The rows of an hour are the union by id of what was held and what came to it. -/
structure Unites (held : List Trade) (came : Trade → Prop) (rows : List Trade) : Prop where
  once : Distinct Trade.tradeId rows
  whole : ∀ i, i ∈ ids rows ↔ i ∈ ids held ∨ ∃ t, came t ∧ t.tradeId = i
  kept : ∀ t ∈ rows, t.tradeId ∈ ids held → t ∈ held
  source : ∀ t ∈ rows, t ∈ held ∨ came t

theorem unionTrades_adds (held came : List Trade) :
    (came.filter fun t => t.tradeId ∈ (ids came).dedup.filter (· ∉ ids held)) =
      came.filter fun t => t.tradeId ∉ ids held := by
  apply List.filter_congr
  intro t mem
  have there : t.tradeId ∈ ids came := List.mem_map_of_mem mem
  simp [there]

theorem unionTrades_frame (held came : List Trade) : (unionTrades held came).frame =
    arrange Trade.tradeId
      (firsts held ++ firsts (came.filter fun t => t.tradeId ∉ ids held)) := by
  unfold unionTrades
  simp only [unionTrades_adds]
  rw [firsts_append]
  intro i mem
  obtain ⟨t, inside, rfl⟩ := mem_ids.mp mem
  simpa using (List.mem_filter.mp inside).2

theorem unionTrades_unites (held came : List Trade) :
    Unites held (· ∈ came) (unionTrades held came).frame := by
  rw [unionTrades_frame]
  constructor
  · apply Distinct.arrange
    unfold Distinct
    rw [List.map_append, List.nodup_append]
    refine ⟨distinct_firsts, distinct_firsts, ?_⟩
    intro i mem j mem' same
    have there : i ∈ ids held := ids_firsts.mp mem
    obtain ⟨t, inside, rfl⟩ := mem_ids.mp (ids_firsts.mp mem')
    have out := (List.mem_filter.mp inside).2
    simp [← same, there] at out
  · intro i
    have parts : i ∈ ids (arrange Trade.tradeId
        (firsts held ++ firsts (came.filter fun t => t.tradeId ∉ ids held))) ↔
        i ∈ ids (firsts held) ∨ i ∈ ids (firsts (came.filter fun t => t.tradeId ∉ ids held)) := by
      rw [← List.mem_append, ← ids_append, mem_ids, mem_ids]
      simp only [mem_arrange]
    rw [parts, ids_firsts, ids_firsts]
    by_cases there : i ∈ ids held
    · simp [there]
    · simp only [there, false_or, mem_ids, List.mem_filter, decide_eq_true_eq]
      constructor
      · rintro ⟨t, ⟨mem, -⟩, same⟩
        exact ⟨t, mem, same⟩
      · rintro ⟨t, mem, same⟩
        refine ⟨t, ⟨mem, ?_⟩, same⟩
        rw [same]
        rwa [mem_ids] at there
  · intro t mem there
    rcases List.mem_append.mp (mem_arrange.mp mem) with old | new
    · exact firsts_sublist.mem old
    · have out := (List.mem_filter.mp (firsts_sublist.mem new)).2
      simp [there] at out
  · intro t mem
    rcases List.mem_append.mp (mem_arrange.mp mem) with old | new
    · exact .inl (firsts_sublist.mem old)
    · exact .inr (List.mem_filter.mp (firsts_sublist.mem new)).1

/-- Where nothing that came was held, all of it is added. -/
theorem unionTrades_counts {held came : List Trade} (distinct : Distinct Trade.tradeId came)
    (fresh : ∀ i ∈ ids came, i ∉ ids held) :
    (unionTrades held came).addedFromSecondary = came.length ∧
      (unionTrades held came).frame.length = (firsts held).length + came.length := by
  constructor
  · unfold unionTrades
    simp only
    rw [List.filter_eq_self.mpr, ids, List.Nodup.dedup distinct, List.length_map]
    intro i mem
    have there : i ∈ ids came := List.mem_dedup.mp mem
    simpa using fresh i there
  · rw [unionTrades_frame, length_arrange, List.length_append, List.filter_eq_self.mpr,
      firsts_distinct distinct]
    intro t mem
    simpa using fresh _ (List.mem_map_of_mem mem)

end

/- The archive. -/

section
variable {r : Roots} {now hour : Int} {rows : List Trade} {frames frames' : List (Int × List Trade)}

/-- The settled hours of the archive are these frames, every one of them read. -/
def Reads (r : Roots) (now : Int) (frames : List (Int × List Trade)) : Prop :=
  settledSegments r now = frames.map fun f => (f.1, some f.2)

theorem readFrames_iff {segments : List (Int × Option (List Trade))} :
    readFrames segments = some frames ↔ segments = frames.map fun f => (f.1, some f.2) := by
  induction segments generalizing frames with
  | nil => cases frames <;> simp [readFrames]
  | cons s rest ih =>
    obtain ⟨hour, rows⟩ := s
    unfold readFrames
    cases rows with
    | none => cases frames <;> simp
    | some rows =>
      cases read : readFrames rest with
      | none =>
        cases frames with
        | nil => simp
        | cons f frames =>
          simp only [List.map_cons, List.cons.injEq, false_iff, not_and, reduceCtorEq]
          intro _ same
          rw [ih.mpr same] at read
          cases read
      | some more =>
        have whole := ih.mp read
        subst whole
        cases frames with
        | nil => simp
        | cons f frames =>
          simp only [Option.some.injEq, List.cons.injEq, List.map_cons, Prod.mk.injEq]
          constructor
          · rintro ⟨rfl, rfl⟩
            exact ⟨⟨rfl, rfl⟩, rfl⟩
          · rintro ⟨⟨rfl, rfl⟩, same⟩
            rw [ih.mpr same] at read
            exact ⟨rfl, (Option.some.inj read).symm⟩

theorem canonical_perm (r : Roots) : (canonicalSegments r).Perm
    (r.primary.segments.filter (fun s => !holds Prod.fst r.reconciled.segments s.1) ++
      r.reconciled.segments) :=
  List.perm_insertionSort _ _

theorem distinct_canonical (r : Roots) : Distinct Prod.fst (canonicalSegments r) := by
  apply Distinct.arrange
  unfold Distinct
  rw [List.map_append, List.nodup_append]
  refine ⟨r.primary.distinct.filter _, r.reconciled.distinct, ?_⟩
  intro h mem h' there same
  obtain ⟨s, kept, rfl⟩ := List.mem_map.mp mem
  obtain ⟨s', inside, rfl⟩ := List.mem_map.mp there
  have held : holds Prod.fst r.reconciled.segments s.1 = true := holds_iff.mpr ⟨s', inside, same.symm⟩
  simp [held] at kept

theorem Reads.distinct (reads : Reads r now frames) : Distinct Prod.fst frames := by
  have apart : Distinct Prod.fst (settledSegments r now) := (distinct_canonical r).filter _
  rw [reads] at apart
  simpa [Distinct, Function.comp_def] using apart

theorem Reads.settled (reads : Reads r now frames) {f : Int × List Trade} (mem : f ∈ frames) :
    settled now f.1 = true := by
  have inside : (f.1, some f.2) ∈ settledSegments r now := by
    rw [reads]
    exact List.mem_map_of_mem mem
  exact (List.mem_filter.mp inside).2

theorem canonical_publish (r : Roots) (hour : Int) (rows : List Trade) :
    (canonicalSegments (r.publish hour rows)).Perm
      ((canonicalSegments r).filter (fun s => s.1 ≠ hour) ++ [(hour, some rows)]) := by
  have lower : (r.publish hour rows).primary.segments.filter
        (fun s => !holds Prod.fst (r.publish hour rows).reconciled.segments s.1) =
      (r.primary.segments.filter (fun s => !holds Prod.fst r.reconciled.segments s.1)).filter
        fun s => s.1 ≠ hour := by
    rw [List.filter_filter]
    apply List.filter_congr
    intro s mem
    by_cases here : s.1 = hour
    · simp [Roots.publish, Root.put, holds, here]
    · have other : holds Prod.fst (r.publish hour rows).reconciled.segments s.1 =
          holds Prod.fst r.reconciled.segments s.1 := by
        rw [Bool.eq_iff_iff, holds_iff, holds_iff]
        simp only [Roots.publish, Root.put, List.mem_append, List.mem_filter, List.mem_singleton,
          decide_eq_true_eq]
        constructor
        · rintro ⟨a, ⟨inside, -⟩ | rfl, same⟩
          · exact ⟨a, inside, same⟩
          · exact absurd same.symm here
        · rintro ⟨a, inside, same⟩
          exact ⟨a, .inl ⟨inside, by rw [same]; exact here⟩, same⟩
      simp [other, here]
  refine (canonical_perm _).trans ?_
  rw [lower]
  have split := ((canonical_perm r).filter fun s => s.1 ≠ hour).append_right [(hour, some rows)]
  rw [List.filter_append, List.append_assoc] at split
  exact split.symm

/-- A rearrangement of what was read is what is read. -/
theorem reads_of_perm (perm : (settledSegments r now).Perm (frames.map fun f => (f.1, some f.2))) :
    ∃ frames', Reads r now frames' ∧ frames'.Perm frames := by
  refine ⟨(settledSegments r now).map fun s => (s.1, s.2.getD []), ?_, ?_⟩
  · have same : ∀ s ∈ settledSegments r now, (s.1, some (s.2.getD [])) = s := by
      intro s mem
      obtain ⟨f, -, rfl⟩ := List.mem_map.mp (perm.mem_iff.mp mem)
      rfl
    unfold Reads
    rw [List.map_map]
    exact ((List.map_congr_left same).trans (List.map_id _)).symm
  · have back := perm.map fun s : Int × Option (List Trade) => (s.1, s.2.getD [])
    simpa [Function.comp_def] using back

/-- Publishing a settled hour puts its rows in the place of what was there. -/
theorem Reads.publish (reads : Reads r now frames) (ready : Trades.settled now hour = true)
    (rows : List Trade) :
    ∃ frames', Reads (r.publish hour rows) now frames' ∧
      frames'.Perm (frames.filter (fun f => f.1 ≠ hour) ++ [(hour, rows)]) := by
  apply reads_of_perm
  have whole := (canonical_publish r hour rows).filter fun s => Trades.settled now s.1
  have kept : (canonicalSegments r).filter (fun s => Trades.settled now s.1) =
    frames.map fun f => (f.1, some f.2) := reads
  rw [List.filter_append, List.filter_comm, kept, List.filter_map] at whole
  rw [List.map_append]
  simpa [settledSegments, Function.comp_def, ready] using whole

theorem lookup_perm (distinct : Distinct Prod.fst frames')
    (perm : frames'.Perm (frames.filter (fun f => f.1 ≠ hour) ++ [(hour, rows)]))
    (before : Distinct Prod.fst frames) (h : Int) :
    frames'.lookup h = if h = hour then some rows else frames.lookup h := by
  ext v
  rw [lookup_iff distinct, perm.mem_iff]
  simp only [List.mem_append, List.mem_filter, decide_eq_true_eq, List.mem_singleton, Prod.mk.injEq]
  split
  · rename_i here
    simp [here, eq_comm]
  · rename_i other
    simp [other, lookup_iff before]

/-- The rows that were held for an hour. -/
def held (frames : List (Int × List Trade)) (hour : Int) : List Trade := (frames.lookup hour).getD []

theorem concat_split (distinct : Distinct Prod.fst frames) (hour : Int) :
    (concat frames).Perm (concat (frames.filter fun f => f.1 ≠ hour) ++ held frames hour) := by
  unfold concat held
  induction frames with
  | nil => simp
  | cons f rest ih =>
    obtain ⟨h, v⟩ := f
    obtain ⟨out, distinct⟩ := List.nodup_cons.mp distinct
    by_cases here : hour = h
    · subst here
      have kept : rest.filter (fun f => f.1 ≠ hour) = rest := by
        rw [List.filter_eq_self]
        intro f mem
        have differs : f.1 ≠ hour := by
          intro same
          exact out (List.mem_map.mpr ⟨f, mem, same⟩)
        simpa using differs
      simp only [List.flatMap_cons, List.lookup_cons_self, Option.getD_some, ne_eq, not_true_eq_false,
        decide_false, Bool.false_eq_true, not_false_eq_true, List.filter_cons_of_neg, kept]
      exact List.perm_append_comm
    · have differs : (hour == h) = false := by simpa using here
      rw [List.filter_cons_of_pos (by simpa using fun same => here same.symm), List.flatMap_cons,
        List.flatMap_cons, List.lookup_cons, differs, List.append_assoc]
      exact (ih distinct).append_left v

theorem concat_perm (perm : frames'.Perm (frames.filter (fun f => f.1 ≠ hour) ++ [(hour, rows)])) :
    (concat frames').Perm (concat (frames.filter fun f => f.1 ≠ hour) ++ rows) := by
  have flat := perm.flatMap_right Prod.snd
  rw [List.flatMap_append, List.flatMap_singleton] at flat
  exact flat

end

/- The mints. -/

section
variable {o : Outside} {s : Sweep} {hours : List Int} {hour : Int} {roots : Roots}

/-- An hour whose union reaches the archive, whether or not its mint raised. -/
def lands (o : Outside) (s : Sweep) (hour : Int) : Bool :=
  settled s.now hour && o.mint s.pair hour ≠ .raises false

theorem lands_iff : lands o s hour = true ↔
    settled s.now hour = true ∧ o.mint s.pair hour ≠ .raises false := by
  simp [lands]

/-- Rows that no frame holds, each of them once. -/
structure Fresh (s : Sweep) : Prop where
  hours : Distinct Prod.fst s.frames
  once : Distinct Trade.tradeId s.got
  absent : ∀ t ∈ s.got, t.tradeId ∉ ids (concat s.frames)

theorem Fresh.apart (fresh : Fresh s) (hour : Int) :
    ∀ i ∈ ids (gotAt s.got hour), i ∉ ids (held s.frames hour) := by
  intro i mem there
  obtain ⟨t, inside, rfl⟩ := mem_ids.mp mem
  obtain ⟨t', old, same⟩ := mem_ids.mp there
  apply fresh.absent t (List.mem_filter.mp inside).1
  refine mem_ids.mpr ⟨t', ?_, same⟩
  rw [(concat_split fresh.hours hour).mem_iff]
  exact List.mem_append_right _ old

theorem Fresh.added (fresh : Fresh s) (hour : Int) :
    (s.union hour).addedFromSecondary = (gotAt s.got hour).length :=
  (unionTrades_counts (fresh.once.filter _) (fresh.apart hour)).1

theorem Fresh.length (fresh : Fresh s) (hour : Int) : (s.union hour).frame.length =
    (firsts (held s.frames hour)).length + (gotAt s.got hour).length :=
  (unionTrades_counts (fresh.once.filter _) (fresh.apart hour)).2

theorem union_unites (s : Sweep) (hour : Int) :
    Unites (held s.frames hour) (· ∈ gotAt s.got hour) (s.union hour).frame :=
  unionTrades_unites _ _

/-- Every row that was fetched was healed, deferred or lost to a mint that failed. -/
theorem mintHours_rows (fresh : Fresh s) (hours : List Int) (roots : Roots) : (mintHours o s hours roots).recovered +
    (mintHours o s hours roots).deferred + (mintHours o s hours roots).mintFailed =
      (hours.map fun hour => ((gotAt s.got hour).length : Int)).sum := by
  induction hours generalizing roots with
  | nil => rfl
  | cons hour rest ih =>
    have added := fresh.added hour
    rw [List.map_cons, List.sum_cons]
    unfold mintHours
    split
    · split
      · have later := ih (roots.publish hour (s.union hour).frame)
        simp only
        omega
      · rename_i published _
        have later := ih (if published then roots.publish hour (s.union hour).frame else roots)
        simp only
        omega
    · have later := ih roots
      simp only
      omega

theorem mintHours_deferred : (mintHours o s hours roots).deferred =
    ((hours.filter fun hour => !settled s.now hour).map fun hour =>
      ((gotAt s.got hour).length : Int)).sum := by
  induction hours generalizing roots with
  | nil => rfl
  | cons hour rest ih =>
    unfold mintHours
    split
    · rename_i ready
      rw [List.filter_cons_of_neg (by simp [ready])]
      split
      · exact ih
      · exact ih
    · rename_i unready
      rw [List.filter_cons_of_pos (by simpa using unready), List.map_cons, List.sum_cons, ← ih]

/-- What the archive became: the unions of some hours in the place of what they held. -/
structure Healed (s : Sweep) (landed : List Int) (frames frames' : List (Int × List Trade)) : Prop where
  lookup : ∀ h, frames'.lookup h = if h ∈ landed then some (s.union h).frame else frames.lookup h
  length : ((concat frames').length : Int) = (concat frames).length +
    (landed.map fun h => ((s.union h).frame.length - (held s.frames h).length : Int)).sum
  ids : idSet (concat frames') = idSet (concat frames) ∪ idSet (landed.flatMap (gotAt s.got))

/-- One mint that lands, before others. -/
theorem Healed.cons {landed : List Int} {frames frames₁ frames' : List (Int × List Trade)}
    (before : Distinct Prod.fst frames) (after : Distinct Prod.fst frames₁)
    (same : frames.lookup hour = s.frames.lookup hour) (out : hour ∉ landed)
    (perm : frames₁.Perm (frames.filter (fun f => f.1 ≠ hour) ++ [(hour, (s.union hour).frame)]))
    (rest : Healed s landed frames₁ frames') : Healed s (hour :: landed) frames frames' := by
  have kept : held s.frames hour = held frames hour := by
    unfold held
    rw [same]
  have split := concat_split before hour
  have joined := concat_perm perm
  constructor
  · intro h
    rw [rest.lookup, lookup_perm after perm before]
    by_cases here : h = hour
    · simp [here, out]
    · simp [here]
  · rw [rest.length, joined.length_eq, split.length_eq, List.length_append, List.length_append,
      List.map_cons, List.sum_cons, kept]
    push_cast
    ring
  · have union : idSet (s.union hour).frame =
        idSet (held s.frames hour) ∪ idSet (gotAt s.got hour) := by
      ext i
      rw [mem_idSet, (union_unites s hour).whole, Finset.mem_union, mem_idSet, mem_idSet, mem_ids,
        mem_ids]
    rw [rest.ids, idSet_perm joined, idSet_perm split, idSet_append, idSet_append, union, kept,
      List.flatMap_cons, idSet_append]
    simp only [Finset.union_assoc]

theorem mintHours_healed {frames : List (Int × List Trade)} (nodup : hours.Nodup)
    (reads : Reads roots s.now frames)
    (same : ∀ h ∈ hours, frames.lookup h = s.frames.lookup h) :
    ∃ frames', Reads (mintHours o s hours roots).roots s.now frames' ∧
      Healed s (hours.filter (lands o s)) frames frames' := by
  induction hours generalizing roots frames with
  | nil =>
    refine ⟨frames, reads, ?_, ?_, ?_⟩
    · simp
    · simp
    · simp [idSet, ids]
  | cons hour rest ih =>
    obtain ⟨out, nodup⟩ := List.nodup_cons.mp nodup
    have later : ∀ h ∈ rest, frames.lookup h = s.frames.lookup h :=
      fun h mem => same h (List.mem_cons_of_mem hour mem)
    -- the hour is not touched again, so the rest go on from the archive it left
    have landing (ready : settled s.now hour = true) (landed : lands o s hour = true) :
        ∃ frames', Reads (mintHours o s rest (roots.publish hour (s.union hour).frame)).roots s.now
          frames' ∧ Healed s ((hour :: rest).filter (lands o s)) frames frames' := by
      obtain ⟨frames₁, reads₁, perm⟩ := reads.publish ready (s.union hour).frame
      have unchanged : ∀ h ∈ rest, frames₁.lookup h = s.frames.lookup h := by
        intro h mem
        have other : h ≠ hour := fun here => out (here ▸ mem)
        rw [lookup_perm reads₁.distinct perm reads.distinct, if_neg other]
        exact later h mem
      obtain ⟨frames', whole, healed⟩ := ih nodup reads₁ unchanged
      refine ⟨frames', whole, ?_⟩
      rw [List.filter_cons_of_pos landed]
      apply Healed.cons reads.distinct reads₁.distinct (same hour List.mem_cons_self) _ perm healed
      intro mem
      exact out (List.mem_filter.mp mem).1
    have skipping (lost : lands o s hour = false) :
        ∃ frames', Reads (mintHours o s rest roots).roots s.now frames' ∧
          Healed s ((hour :: rest).filter (lands o s)) frames frames' := by
      rw [List.filter_cons_of_neg (by simp [lost])]
      exact ih nodup reads later
    unfold mintHours
    split
    · rename_i ready
      split
      · rename_i returns
        exact landing ready (by simp [lands, ready, returns])
      · rename_i published raises
        cases published with
        | true => exact landing ready (by simp [lands, ready, raises])
        | false => exact skipping (by simp [lands, raises])
    · rename_i unready
      exact skipping (by simp [lands, unready])

end

/- Sums over the touched hours. -/

section
variable {α : Type} {l : List α} {f : α → Int}

theorem sum_split (p : α → Bool) : (l.map f).sum =
    ((l.filter p).map f).sum + ((l.filter fun a => !p a).map f).sum := by
  induction l with
  | nil => rfl
  | cons a rest ih =>
    cases yes : p a <;> simp [yes, ih] <;> ring

theorem sum_at {hours : List Int} (nodup : hours.Nodup) (k c : Int) :
    (hours.map fun h => if h = k then c else 0).sum = if k ∈ hours then c else 0 := by
  induction hours with
  | nil => rfl
  | cons h rest ih =>
    obtain ⟨out, nodup⟩ := List.nodup_cons.mp nodup
    rw [List.map_cons, List.sum_cons, ih nodup]
    by_cases here : h = k
    · subst here
      simp [out]
    · have other : k ≠ h := fun same => here same.symm
      simp [here, other]

theorem length_le_sum (positive : ∀ a ∈ l, 1 ≤ f a) : (l.length : Int) ≤ (l.map f).sum := by
  induction l with
  | nil => simp
  | cons a rest ih =>
    have first := positive a List.mem_cons_self
    have later := ih fun b mem => positive b (List.mem_cons_of_mem a mem)
    rw [List.map_cons, List.sum_cons, List.length_cons]
    push_cast
    omega

end

section
variable {s : Sweep} {hours : List Int} {hour : Int} {t : Trade}

theorem gotAt_filter (got : List Trade) (hour : Int) :
    gotAt got hour = got.filter fun t => floorHour t.ts = hour := by
  apply List.filter_congr
  intro t _
  rw [Bool.eq_iff_iff, Bool.and_eq_true, decide_eq_true_eq, decide_eq_true_eq, decide_eq_true_eq]
  unfold startOf floorHour hourMicros
  omega

theorem mem_gotAt {got : List Trade} : t ∈ gotAt got hour ↔ t ∈ got ∧ floorHour t.ts = hour := by
  rw [gotAt_filter, List.mem_filter, decide_eq_true_eq]

def Sweep.gotCount (s : Sweep) (hour : Int) : Int := (gotAt s.got hour).length

/-- The duplicates of an hour of its own. -/
def Sweep.excess (s : Sweep) (hour : Int) : Int :=
  (held s.frames hour).length - (firsts (held s.frames hour)).length

theorem excess_nonneg (s : Sweep) (hour : Int) : 0 ≤ s.excess hour := by
  have le := (firsts_sublist (l := held s.frames hour)).length_le
  unfold Sweep.excess
  omega

theorem sum_gotCount {got : List Trade} (nodup : hours.Nodup)
    (every : ∀ t ∈ got, floorHour t.ts ∈ hours) :
    (hours.map fun h => ((gotAt got h).length : Int)).sum = got.length := by
  induction got with
  | nil => simp [gotAt]
  | cons t rest ih =>
    have one : (hours.map fun h => ((gotAt (t :: rest) h).length : Int)).sum =
        (hours.map fun h => ((gotAt rest h).length : Int)).sum +
          (hours.map fun h => if h = floorHour t.ts then 1 else 0).sum := by
      rw [← List.sum_map_add]
      congr 1
      apply List.map_congr_left
      intro h _
      rw [gotAt_filter, gotAt_filter]
      by_cases here : floorHour t.ts = h
      · simp [here]
      · have differs : h ≠ floorHour t.ts := fun same => here same.symm
        simp [here, differs]
    rw [one, ih fun t mem => every t (List.mem_cons_of_mem _ mem), sum_at nodup,
      if_pos (every t List.mem_cons_self), List.length_cons]
    push_cast
    rfl

theorem sum_excess {frames : List (Int × List Trade)} (nodup : hours.Nodup)
    (distinct : Distinct Prod.fst frames)
    (every : ∀ f ∈ frames, repeated f.2 = true → f.1 ∈ hours) :
    (hours.map fun h => ((held frames h).length - (firsts (held frames h)).length : Int)).sum =
      (frames.map fun f => ((f.2.length : Int) - (firsts f.2).length)).sum := by
  induction frames with
  | nil => simp [held, firsts]
  | cons f rest ih =>
    obtain ⟨k, rows⟩ := f
    obtain ⟨out, distinct⟩ := List.nodup_cons.mp distinct
    have nothing : rest.lookup k = none := by
      rw [List.lookup_eq_none_iff]
      intro f mem
      have differs : k ≠ f.1 := by
        rintro rfl
        exact out (List.mem_map.mpr ⟨f, mem, rfl⟩)
      simpa using differs
    have one : (hours.map fun h => ((held ((k, rows) :: rest) h).length -
          (firsts (held ((k, rows) :: rest) h)).length : Int)).sum =
        (hours.map fun h => ((held rest h).length - (firsts (held rest h)).length : Int)).sum +
          (hours.map fun h => if h = k then ((rows.length : Int) - (firsts rows).length) else 0).sum := by
      rw [← List.sum_map_add]
      congr 1
      apply List.map_congr_left
      intro h _
      by_cases here : h = k
      · subst here
        simp [held, nothing, firsts]
      · have differs : (h == k) = false := by simpa using here
        simp [held, List.lookup_cons, differs, here]
    rw [one, ih distinct fun f mem => every f (List.mem_cons_of_mem _ mem), sum_at nodup,
      List.map_cons, List.sum_cons]
    split
    · exact add_comm _ _
    · rename_i untouched
      have none : rows.length = (firsts rows).length := by
        by_contra differs
        apply untouched
        apply every (k, rows) List.mem_cons_self
        simpa [repeated] using differs
      simp only
      omega

theorem mem_touched {frames : List (Int × List Trade)} {got : List Trade} :
    hour ∈ touched frames got ↔
      (∃ f ∈ frames, repeated f.2 = true ∧ f.1 = hour) ∨ ∃ t ∈ got, floorHour t.ts = hour := by
  simp [touched, and_assoc]

theorem nodup_touched (frames : List (Int × List Trade)) (got : List Trade) :
    (touched frames got).Nodup :=
  (List.perm_insertionSort _ _).nodup_iff.mpr (List.nodup_dedup _)

/-- A touched hour has a duplicate or a fetched row. -/
theorem touched_positive (distinct : Distinct Prod.fst s.frames)
    (mem : hour ∈ touched s.frames s.got) : 1 ≤ s.gotCount hour + s.excess hour := by
  have nonneg := excess_nonneg s hour
  rcases mem_touched.mp mem with ⟨f, inside, twice, rfl⟩ | ⟨t, inside, same⟩
  · have found : held s.frames f.1 = f.2 := by
      unfold held
      rw [(lookup_iff distinct).mpr inside]
      rfl
    have le := (firsts_sublist (l := f.2)).length_le
    have differs : f.2.length ≠ (firsts f.2).length := by simpa [repeated] using twice
    unfold Sweep.gotCount Sweep.excess
    rw [found]
    omega
  · have some : 0 < (gotAt s.got hour).length :=
      List.length_pos_of_mem (mem_gotAt.mpr ⟨inside, same⟩)
    unfold Sweep.gotCount
    omega

end

/- A pair's part of a run. -/

section
variable {o : Outside} {s : Sweep} {landed : List Int} {frames frames' : List (Int × List Trade)}

theorem flatMap_gotAt_distinct (fresh : Fresh s) (nodup : landed.Nodup) :
    Distinct Trade.tradeId (landed.flatMap (gotAt s.got)) := by
  induction landed with
  | nil => exact List.nodup_nil
  | cons hour rest ih =>
    obtain ⟨out, nodup⟩ := List.nodup_cons.mp nodup
    unfold Distinct
    rw [List.flatMap_cons, List.map_append, List.nodup_append]
    refine ⟨fresh.once.filter _, ih nodup, ?_⟩
    intro i mem j mem' same
    obtain ⟨t, here, rfl⟩ := List.mem_map.mp mem
    obtain ⟨t', there, rfl⟩ := List.mem_map.mp mem'
    obtain ⟨hour', inside, there⟩ := List.mem_flatMap.mp there
    obtain ⟨got, rfl⟩ := mem_gotAt.mp here
    obtain ⟨got', rfl⟩ := mem_gotAt.mp there
    obtain rfl := fresh.once.same got got' same
    exact out inside

theorem flatMap_gotAt_length (landed : List Int) : ((landed.flatMap (gotAt s.got)).length : Int) =
    (landed.map s.gotCount).sum := by
  induction landed with
  | nil => rfl
  | cons hour rest ih =>
    rw [List.flatMap_cons, List.length_append, List.map_cons, List.sum_cons, ← ih]
    push_cast
    rfl

/-- What was fetched, gap by gap. -/
structure Fetched (o : Outside) (s : Sweep) : Prop extends Fresh s where
  served : ∀ t, t ∈ s.got ↔ Served (o.fetch s.pair) (detect (concat s.frames)).gaps t

theorem Fetched.inside (fetched : Fetched o s) {t : Trade} (mem : t ∈ s.got) :
    t.tradeId ∈ absent (idSet (concat s.frames)) := by
  obtain ⟨g, gap, inside, -⟩ := (fetched.served t).mp mem
  exact inside_absent gap inside

theorem fetched_of_reads {r : Roots} {pair : String} {now : Int}
    {books : List (Int × Option (List Int))} (reads : Reads r now frames) : Fetched o
      ⟨pair, now, books, frames, (fetchGaps (o.fetch pair) (detect (concat frames)).gaps).got⟩ := by
  refine ⟨⟨reads.distinct, ?_, ?_⟩, fun t => mem_got⟩
  · exact got_distinct (fun g page served => fetchTrades_distinct served) (gaps_apart _)
  · intro t mem there
    obtain ⟨g, gap, inside, -⟩ := mem_got.mp mem
    exact (mem_absent.mp (inside_absent gap inside)).2 (mem_idSet.mpr there)

theorem landed_card (fetched : Fetched o s) (nodup : landed.Nodup) :
    ((idSet (landed.flatMap (gotAt s.got))).card : Int) = (landed.map s.gotCount).sum := by
  rw [card_idSet, firsts_distinct (flatMap_gotAt_distinct fetched.toFresh nodup),
    flatMap_gotAt_length]

theorem landed_inside (fetched : Fetched o s) (landed : List Int) :
    idSet (landed.flatMap (gotAt s.got)) ⊆ absent (idSet (concat s.frames)) := by
  intro i mem
  obtain ⟨t, inside, rfl⟩ := mem_ids.mp (mem_idSet.mp mem)
  obtain ⟨hour, -, here⟩ := List.mem_flatMap.mp inside
  exact fetched.inside (mem_gotAt.mp here).1

/-- Every row that landed is missing no more. -/
theorem Healed.missing (healed : Healed s landed s.frames frames') (fetched : Fetched o s)
    (nodup : landed.Nodup) : (detect (concat frames')).missing + (landed.map s.gotCount).sum =
      (detect (concat s.frames)).missing := by
  rw [(detect_counts _).2.2, (detect_counts _).2.2, healed.ids, ← landed_card fetched nodup,
    ← card_absent_fill (landed_inside fetched landed)]
  push_cast
  rfl

def duplicateRows (frames : List (Int × List Trade)) : Int :=
  (detect (concat frames)).rows - (detect (concat frames)).unique

/-- Every duplicate of an hour that landed is gone. -/
theorem Healed.duplicates (healed : Healed s landed s.frames frames') (fetched : Fetched o s)
    (nodup : landed.Nodup) :
    duplicateRows frames' + (landed.map s.excess).sum = duplicateRows s.frames := by
  have apart : Disjoint (idSet (concat s.frames)) (idSet (landed.flatMap (gotAt s.got))) := by
    rw [Finset.disjoint_left]
    intro i old new
    exact (mem_absent.mp (landed_inside fetched landed new)).2 old
  have rows : (landed.map fun h =>
      ((s.union h).frame.length - (held s.frames h).length : Int)).sum + (landed.map s.excess).sum =
        (landed.map s.gotCount).sum := by
    rw [← List.sum_map_add]
    congr 1
    apply List.map_congr_left
    intro h _
    rw [fetched.toFresh.length h]
    unfold Sweep.excess Sweep.gotCount
    push_cast
    ring
  unfold duplicateRows
  rw [(detect_counts _).1, (detect_counts _).2.1, (detect_counts _).1, (detect_counts _).2.1,
    healed.ids, Finset.card_union_of_disjoint apart, healed.length]
  push_cast
  rw [landed_card fetched nodup]
  omega

end

/- The accounts of a pair. -/

section
variable {o : Outside} {pair : String} {now : Int} {books : List (Int × Option (List Int))}
  {roots : Roots} {frames frames' : List (Int × List Trade)} {report : Report}

def fetchedFor (o : Outside) (pair : String) (frames : List (Int × List Trade)) : Fetch :=
  fetchGaps (o.fetch pair) (detect (concat frames)).gaps

def sweepOf (o : Outside) (pair : String) (now : Int) (books : List (Int × Option (List Int)))
    (frames : List (Int × List Trade)) : Sweep :=
  ⟨pair, now, books, frames, (fetchedFor o pair frames).got⟩

def hoursOf (o : Outside) (pair : String) (frames : List (Int × List Trade)) : List Int :=
  touched frames (fetchedFor o pair frames).got

def healOf (o : Outside) (pair : String) (now : Int) (books : List (Int × Option (List Int)))
    (roots : Roots) (frames : List (Int × List Trade)) : Heal :=
  mintHours o (sweepOf o pair now books frames) (hoursOf o pair frames) roots

theorem sum_hours (o : Outside) (pair : String) (books : List (Int × Option (List Int)))
    (reads : Reads roots now frames) :
    ((hoursOf o pair frames).map (sweepOf o pair now books frames).gotCount).sum =
      (fetchedFor o pair frames).got.length ∧
    ((hoursOf o pair frames).map (sweepOf o pair now books frames).excess).sum =
      (frames.map fun f => ((f.2.length : Int) - (firsts f.2).length)).sum := by
  have nodup : (hoursOf o pair frames).Nodup := nodup_touched _ _
  constructor
  · apply sum_gotCount nodup
    intro t mem
    exact mem_touched.mpr (.inr ⟨t, mem, rfl⟩)
  · apply sum_excess nodup reads.distinct
    intro f mem twice
    exact mem_touched.mpr (.inl ⟨f, mem, twice, rfl⟩)

/-- What is missing is recovered, unrecoverable, deferred, or its fetch or its mint failed. -/
theorem healOf_accounts (reads : Reads roots now frames) : (detect (concat frames)).missing =
    (healOf o pair now books roots frames).recovered + (fetchedFor o pair frames).unrecoverable +
      (healOf o pair now books roots frames).deferred + (fetchedFor o pair frames).failed +
        (healOf o pair now books roots frames).mintFailed := by
  have fetched : Fetched o (sweepOf o pair now books frames) := fetched_of_reads reads
  have rows := mintHours_rows fetched.toFresh (o := o) (hoursOf o pair frames) roots
  have whole := (sum_hours o pair books reads).1
  have count := fetched_count (o.fetch pair) (detect (concat frames)).gaps
  rw [detect_missing] at count
  unfold Sweep.gotCount at whole
  unfold fetchedFor healOf at *
  omega

/-- The settled hours whose union did not reach the archive. -/
def unlanded (o : Outside) (s : Sweep) (hours : List Int) : List Int :=
  (hours.filter fun h => !lands o s h).filter fun h => settled s.now h

theorem sum_unlanded {s : Sweep} (hours : List Int) (f : Int → Int) : (hours.map f).sum =
    ((hours.filter (lands o s)).map f).sum + ((unlanded o s hours).map f).sum +
      ((hours.filter fun h => !settled s.now h).map f).sum := by
  have unready : (hours.filter fun h => !lands o s h).filter (fun h => !settled s.now h) =
      hours.filter fun h => !settled s.now h := by
    rw [List.filter_filter]
    apply List.filter_congr
    intro h _
    cases ready : settled s.now h <;> simp [lands, ready]
  rw [sum_split (lands o s), sum_split (l := hours.filter fun h => !lands o s h)
    fun h => settled s.now h, unready]
  unfold unlanded
  ring

/-- The archive a run leaves is short of just what did not land. -/
theorem shortfall (reads : Reads roots now frames)
    (healed : Healed (sweepOf o pair now books frames)
      ((hoursOf o pair frames).filter (lands o (sweepOf o pair now books frames))) frames frames') :
    (detect (concat frames')).missing - ((fetchedFor o pair frames).unrecoverable +
        (healOf o pair now books roots frames).deferred + (fetchedFor o pair frames).failed) =
      ((unlanded o (sweepOf o pair now books frames) (hoursOf o pair frames)).map
        (sweepOf o pair now books frames).gotCount).sum ∧
    duplicateRows frames' - crossHour frames (detect (concat frames)) =
      ((unlanded o (sweepOf o pair now books frames) (hoursOf o pair frames)).map
        (sweepOf o pair now books frames).excess).sum := by
  have fetched : Fetched o (sweepOf o pair now books frames) := fetched_of_reads reads
  have nodup : (hoursOf o pair frames).Nodup := nodup_touched _ _
  obtain ⟨rows, doubles⟩ := sum_hours o pair books reads
  have count := fetched_count (o.fetch pair) (detect (concat frames)).gaps
  rw [detect_missing] at count
  rw [sum_unlanded (o := o) (s := sweepOf o pair now books frames)] at rows doubles
  have missing : _ = (detect (concat frames)).missing := healed.missing fetched (nodup.filter _)
  have duplicates : _ = duplicateRows frames := healed.duplicates fetched (nodup.filter _)
  constructor
  · have deferred : (healOf o pair now books roots frames).deferred = _ := mintHours_deferred
    unfold Sweep.gotCount fetchedFor at *
    omega
  · have unready : (((hoursOf o pair frames).filter fun h =>
        !settled (sweepOf o pair now books frames).now h).map
          (sweepOf o pair now books frames).excess).sum = 0 := by
      apply List.sum_eq_zero
      intro x mem
      obtain ⟨h, inside, rfl⟩ := List.mem_map.mp mem
      have early := (List.mem_filter.mp inside).2
      have none : held frames h = [] := by
        unfold held
        cases found : frames.lookup h with
        | none => rfl
        | some rows =>
          have ready := reads.settled ((lookup_iff reads.distinct).mp found)
          have same : (sweepOf o pair now books frames).now = now := rfl
          simp [same, ready] at early
      show ((held frames h).length : Int) - (firsts (held frames h)).length = 0
      rw [none]
      rfl
    unfold crossHour
    unfold duplicateRows at *
    omega

def Report.Violated (r : Report) : Prop :=
  ∃ missing unrecoverable deferred fetchErrors duplicateRows crossHour,
    Finding.violated missing unrecoverable deferred fetchErrors duplicateRows crossHour ∈ r.errors

/-- Only the check of what was read again finds a violation. -/
theorem violated_iff {fetchErrors healErrors : List Finding} {det : Detection} {u d f c : Int}
    (fetches : ∀ e ∈ fetchErrors, ∃ g, e = .fetch g) (mints : ∀ e ∈ healErrors, ∃ h, e = .mint h) :
    (∃ a b c' d' e' f', Finding.violated a b c' d' e' f' ∈
      fetchErrors ++ healErrors ++ recheck det u d f c) ↔
      det.missing - (u + d + f) ≠ 0 ∨ det.rows - det.unique - c ≠ 0 := by
  constructor
  · rintro ⟨a, b, c', d', e', f', mem⟩
    rw [List.mem_append, List.mem_append] at mem
    rcases mem with (fetch | mint) | found
    · obtain ⟨g, same⟩ := fetches _ fetch
      cases same
    · obtain ⟨h, same⟩ := mints _ mint
      cases same
    · unfold recheck at found
      split at found
      · assumption
      · cases found
  · intro differs
    refine ⟨det.missing, u, d, f, det.rows - det.unique, c, ?_⟩
    unfold recheck
    rw [if_pos differs]
    simp

theorem fetchGaps_errors {fetch : IdGap → Option (List Trade)} {gaps : List IdGap} :
    ∀ e ∈ (fetchGaps fetch gaps).errors, ∃ g, e = .fetch g := by
  induction gaps with
  | nil => simp [fetchGaps]
  | cons g rest ih =>
    simp only [fetchGaps]
    cases fetch g with
    | none =>
      intro e mem
      rcases List.mem_cons.mp mem with rfl | later
      · exact ⟨g, rfl⟩
      · exact ih e later
    | some page => exact ih

theorem mintHours_errors {s : Sweep} {hours : List Int} :
    ∀ e ∈ (mintHours o s hours roots).errors, ∃ h, e = .mint h := by
  induction hours generalizing roots with
  | nil => simp [mintHours]
  | cons hour rest ih =>
    unfold mintHours
    split
    · split
      · exact ih
      · intro e mem
        rcases List.mem_cons.mp mem with rfl | later
        · exact ⟨hour, rfl⟩
        · exact ih e later
    · exact ih

/-- A row that REST served for a gap of the pair, in an hour. -/
def Came (o : Outside) (pair : String) (frames : List (Int × List Trade)) (hour : Int) (t : Trade) :
    Prop :=
  Served (o.fetch pair) (detect (concat frames)).gaps t ∧ floorHour t.ts = hour

/-- A settled hour with a duplicate of its own or a row that came to it. -/
def Attempted (o : Outside) (pair : String) (now : Int) (frames : List (Int × List Trade))
    (hour : Int) : Prop :=
  settled now hour = true ∧
    ((∃ f ∈ frames, repeated f.2 = true ∧ f.1 = hour) ∨ ∃ t, Came o pair frames hour t)

theorem attempted_iff {hour : Int} : Attempted o pair now frames hour ↔
    settled now hour = true ∧ hour ∈ hoursOf o pair frames := by
  unfold Attempted Came hoursOf fetchedFor
  simp only [mem_touched, mem_got]

theorem mem_landed {hour : Int} :
    hour ∈ (hoursOf o pair frames).filter (lands o (sweepOf o pair now books frames)) ↔
      Attempted o pair now frames hour ∧ o.mint pair hour ≠ .raises false := by
  rw [List.mem_filter, attempted_iff, lands_iff]
  show _ ∧ settled now hour = true ∧ o.mint pair hour ≠ .raises false ↔ _
  tauto

theorem mem_unlanded {hour : Int} :
    hour ∈ unlanded o (sweepOf o pair now books frames) (hoursOf o pair frames) ↔
      Attempted o pair now frames hour ∧ o.mint pair hour = .raises false := by
  unfold unlanded
  rw [List.mem_filter, List.mem_filter, attempted_iff, Bool.not_eq_true', ← Bool.not_eq_true,
    lands_iff]
  show (_ ∧ ¬(settled now hour = true ∧ o.mint pair hour ≠ .raises false)) ∧
    settled now hour = true ↔ _
  tauto

/-- The canonical view that a run left: the unions of the hours whose mint published, and the rest
    as it was. -/
structure Left (o : Outside) (pair : String) (now : Int) (frames frames' : List (Int × List Trade)) :
    Prop where
  minted : ∀ h, Attempted o pair now frames h → o.mint pair h ≠ .raises false →
    ∃ rows, frames'.lookup h = some rows ∧ Unites (held frames h) (Came o pair frames h) rows
  others : ∀ h, ¬(Attempted o pair now frames h ∧ o.mint pair h ≠ .raises false) →
    frames'.lookup h = frames.lookup h

theorem Healed.left (healed : Healed (sweepOf o pair now books frames)
    ((hoursOf o pair frames).filter (lands o (sweepOf o pair now books frames))) frames frames') :
    Left o pair now frames frames' := by
  constructor
  · intro h attempted published
    refine ⟨_, (healed.lookup h).trans (if_pos (mem_landed.mpr ⟨attempted, published⟩)), ?_⟩
    have unites := union_unites (sweepOf o pair now books frames) h
    have came (t : Trade) : t ∈ gotAt (sweepOf o pair now books frames).got h ↔
        Came o pair frames h t := by
      rw [mem_gotAt]
      exact and_congr_left fun _ => mem_got
    simp only [came] at unites
    exact unites
  · intro h out
    rw [healed.lookup, if_neg fun mem => out (mem_landed.mp mem)]

/-- The check that is made of the archive after a run. -/
theorem healFrames_ran {after : Roots}
    (ran : healFrames o pair now books roots frames = some (report, after)) :
    after = o.meanwhile pair (healOf o pair now books roots frames).roots ∧
    ∃ reread, readFrames (settledSegments after now) = some reread ∧
      report.tradesMissing = (detect (concat frames)).missing ∧
      report.tradesRecovered = (healOf o pair now books roots frames).recovered ∧
      report.tradesUnrecoverable = (fetchedFor o pair frames).unrecoverable ∧
      report.tradesDeferred = (healOf o pair now books roots frames).deferred ∧
      report.tradesFetchFailed = (fetchedFor o pair frames).failed ∧
      report.tradesMintFailed = (healOf o pair now books roots frames).mintFailed ∧
      report.hoursMinted = (healOf o pair now books roots frames).minted ∧
      (report.Violated ↔
        (detect (concat reread)).missing - ((fetchedFor o pair frames).unrecoverable +
          (healOf o pair now books roots frames).deferred + (fetchedFor o pair frames).failed) ≠ 0 ∨
        duplicateRows reread - crossHour frames (detect (concat frames)) ≠ 0) := by
  unfold healFrames at ran
  simp only at ran
  split at ran
  · cases ran
  · rename_i reread read
    cases ran
    exact ⟨rfl, reread, read, rfl, rfl, rfl, rfl, rfl, rfl, rfl,
      violated_iff fetchGaps_errors mintHours_errors⟩

theorem healOf_left (o : Outside) (pair : String) (books : List (Int × Option (List Int)))
    (reads : Reads roots now frames) :
    ∃ frames', Reads (healOf o pair now books roots frames).roots now frames' ∧
      Healed (sweepOf o pair now books frames)
        ((hoursOf o pair frames).filter (lands o (sweepOf o pair now books frames))) frames frames' :=
  mintHours_healed (s := sweepOf o pair now books frames) (nodup_touched _ _) reads fun _ _ => rfl

/-- The archive as a run left it is short of something just where a mint did not publish. -/
theorem short_iff (reads : Reads roots now frames)
    (healed : Healed (sweepOf o pair now books frames)
      ((hoursOf o pair frames).filter (lands o (sweepOf o pair now books frames))) frames frames') :
    ((detect (concat frames')).missing - ((fetchedFor o pair frames).unrecoverable +
        (healOf o pair now books roots frames).deferred + (fetchedFor o pair frames).failed) ≠ 0 ∨
      duplicateRows frames' - crossHour frames (detect (concat frames)) ≠ 0) ↔
    ∃ h, Attempted o pair now frames h ∧ o.mint pair h = .raises false := by
  obtain ⟨missing, duplicates⟩ := shortfall reads healed
  rw [missing, duplicates]
  have some_iff : (∃ h, Attempted o pair now frames h ∧ o.mint pair h = .raises false) ↔
      unlanded o (sweepOf o pair now books frames) (hoursOf o pair frames) ≠ [] := by
    rw [← List.length_pos_iff, List.length_pos_iff_exists_mem]
    exact exists_congr fun h => mem_unlanded.symm
  rw [some_iff]
  constructor
  · rintro differs none
    rw [none] at differs
    simp at differs
  · intro some
    have positive : ∀ h ∈ unlanded o (sweepOf o pair now books frames) (hoursOf o pair frames),
        1 ≤ (sweepOf o pair now books frames).gotCount h +
          (sweepOf o pair now books frames).excess h := by
      intro h mem
      have inside : h ∈ touched (sweepOf o pair now books frames).frames
          (sweepOf o pair now books frames).got :=
        (List.mem_filter.mp (List.mem_filter.mp mem).1).1
      exact touched_positive reads.distinct inside
    have total := length_le_sum positive
    rw [List.sum_map_add] at total
    have length := List.length_pos_iff.mpr some
    omega

/- A second run. -/

/-- For a narrower window REST serves no row inside it that it did not serve for the wider one. -/
def NothingNew (o : Outside) (pair : String) (frames frames' : List (Int × List Trade)) : Prop :=
  ∀ g ∈ (detect (concat frames)).gaps, ∀ g' ∈ (detect (concat frames')).gaps,
    g.afterId ≤ g'.afterId → g'.beforeId ≤ g.beforeId →
      ∀ page page', o.fetch pair g = some page → o.fetch pair g' = some page' →
        ∀ t ∈ page', g'.inside t = true → t ∈ page

/-- What remains after a run without failures touches no settled hour. -/
theorem remains_unsettled (reads : Reads roots now frames)
    (healed : Healed (sweepOf o pair now books frames)
      ((hoursOf o pair frames).filter (lands o (sweepOf o pair now books frames))) frames frames')
    (distinct : Distinct Prod.fst frames')
    (ready : ∀ f ∈ frames', settled now f.1 = true)
    (served : ∀ g ∈ (detect (concat frames)).gaps, o.fetch pair g ≠ none)
    (published : ∀ h, Attempted o pair now frames h → o.mint pair h ≠ .raises false)
    (nothing : NothingNew o pair frames frames') :
    ∀ h ∈ hoursOf o pair frames', settled now h = false := by
  have fetched : Fetched o (sweepOf o pair now books frames) := fetched_of_reads reads
  have inside := landed_inside fetched ((hoursOf o pair frames).filter
    (lands o (sweepOf o pair now books frames)))
  have ids' : idSet (concat frames') = _ := healed.ids
  have fewer : absent (idSet (concat frames')) ⊆ absent (idSet (concat frames)) := by
    rw [ids']
    exact (absent_fill inside).trans_subset Finset.sdiff_subset
  intro h mem
  by_contra settles
  rw [Bool.not_eq_false] at settles
  rcases mem_touched.mp mem with ⟨f, inside', twice, rfl⟩ | ⟨t, got, rfl⟩
  · have found := (lookup_iff distinct).mpr inside'
    have left := healed.left
    by_cases attempted : Attempted o pair now frames f.1
    · obtain ⟨rows, same, unites⟩ := left.minted f.1 attempted (published f.1 attempted)
      obtain rfl : f.2 = rows := Option.some.inj (found.symm.trans same)
      simp [repeated, firsts_distinct unites.once] at twice
    · apply attempted
      rw [left.others f.1 fun both => attempted both.1] at found
      exact ⟨ready f inside', .inl ⟨f, (lookup_iff reads.distinct).mp found, twice, rfl⟩⟩
  · obtain ⟨g', gap', within', page', answer', there'⟩ := mem_got.mp got
    have more : ∀ x ∈ walked (concat frames), x ∈ walked (concat frames') := by
      intro x mem
      rw [← List.mem_toFinset, walked_set] at mem ⊢
      rw [ids']
      exact Finset.mem_union_left _ mem
    have sub : absent (walked (concat frames')).toFinset ⊆ absent (walked (concat frames)).toFinset := by
      rw [walked_set, walked_set]
      exact fewer
    obtain ⟨step, inStep, low, high⟩ :=
      steps_nested walked_sorted walked_sorted more sub (gap_step gap')
    rw [← detect_gaps] at inStep
    obtain ⟨g, gap, rfl⟩ := List.mem_map.mp inStep
    obtain ⟨page, answer⟩ := Option.ne_none_iff_exists'.mp (served g gap)
    have there := nothing g gap g' gap' low high page page' answer answer' t there' within'
    have within : g.inside t = true := by
      unfold IdGap.inside at *
      simp only [Bool.and_eq_true, decide_eq_true_eq] at *
      omega
    have came : Came o pair frames (floorHour t.ts) t := ⟨⟨g, gap, within, page, answer, there⟩, rfl⟩
    have attempted : Attempted o pair now frames (floorHour t.ts) := ⟨settles, .inr ⟨t, came⟩⟩
    have landed : _ ∈ (hoursOf o pair frames).filter (lands o (sweepOf o pair now books frames)) :=
      mem_landed.mpr ⟨attempted, published _ attempted⟩
    apply (mem_absent.mp (inside_absent gap' within')).2
    rw [ids', Finset.mem_union]
    right
    rw [mem_idSet]
    exact List.mem_map_of_mem (List.mem_flatMap.mpr
      ⟨_, landed, mem_gotAt.mpr ⟨mem_got.mpr came.1, rfl⟩⟩)

theorem mintHours_unsettled (o : Outside) (s : Sweep) (hours : List Int) (roots : Roots)
    (unready : ∀ h ∈ hours, settled s.now h = false) :
    (mintHours o s hours roots).roots = roots ∧ (mintHours o s hours roots).minted = 0 := by
  induction hours with
  | nil => exact ⟨rfl, rfl⟩
  | cons hour rest ih =>
    unfold mintHours
    rw [if_neg (by simp [unready hour List.mem_cons_self])]
    exact ih fun h mem => unready h (List.mem_cons_of_mem hour mem)

end

section
variable {o : Outside} {only : Option String} {now : Int} {detectOnly : Bool}
  {books : String → List (Int × Option (List Int))} {archive : List (String × Roots)}
  {entries : List Entry} {e : Entry} {frames : List (Int × List Trade)}

/-- A pair's part of a run is the pair healed on its own. -/
theorem backfill_entry (ran : backfill o only now detectOnly books archive = some entries)
    (mem : e ∈ entries) :
    healPair o detectOnly e.pair now (books e.pair) e.before = some (e.report, e.after) := by
  induction archive generalizing entries with
  | nil =>
    cases ran
    cases mem
  | cons first rest ih =>
    obtain ⟨pair, roots⟩ := first
    unfold backfill at ran
    split at ran
    · exact ih ran mem
    · split at ran
      · rename_i report after more healed later
        cases ran
        rcases List.mem_cons.mp mem with rfl | inside
        · exact healed
        · exact ih later inside
      · cases ran

theorem backfill_healed (ran : backfill o only now false books archive = some entries)
    (mem : e ∈ entries) (read : readFrames (settledSegments e.before now) = some frames) :
    healFrames o e.pair now (books e.pair) e.before frames = some (e.report, e.after) := by
  have healed := backfill_entry ran mem
  unfold healPair at healed
  rw [read] at healed
  simpa using healed

end

/- Runs over one hour with a gap of two ids. -/

def heldHour : Root := ⟨[(0, some [⟨1, 10, "a"⟩, ⟨4, 40, "d"⟩])], by decide⟩
def noHour : Root := ⟨[], by decide⟩

/-- Both ids are served, and the mint ends one way. -/
def bothServed (ends : MintEnd) (meanwhile : Roots → Roots) : Outside :=
  ⟨fun _ _ _ => [.page [⟨2, 20, "b"⟩, ⟨3, 30, "c"⟩]], fun _ _ => ends, fun _ => meanwhile⟩

/-- The page of the first window ends at its bound, and the narrower window brings one more. -/
def oneAtATime : Outside :=
  ⟨fun _ since till => if since < till then [.page [⟨2, 40, "b"⟩]] else [.page [⟨3, 40, "c"⟩]],
    fun _ _ => .returns, fun _ r => r⟩

/-- Another writes over the minted hour, with the same ids. -/
def rewritten (r : Roots) : Roots :=
  r.publish 0 [⟨1, 10, "z"⟩, ⟨2, 20, "b"⟩, ⟨3, 30, "c"⟩, ⟨4, 40, "d"⟩]

def sweepOnce (o : Outside) (r : Roots) : Option (List Entry) :=
  backfill o none (3 * hourMicros) false (fun _ => []) [("XBT/EUR", r)]

/-- A run, and another from where it ended. -/
def sweepTwice (o o' : Outside) (r : Roots) : Option (List Entry) :=
  (sweepOnce o r).bind fun entries => entries.head?.bind fun e => sweepOnce o' e.after

end Trades
