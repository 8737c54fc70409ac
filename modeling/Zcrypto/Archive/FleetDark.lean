import Mathlib.Tactic.Ring
import Zcrypto.Archive.Residual
import Zcrypto.Spans

/- The windows in which no stream recorded anything, and each stream's own silence around them. -/
namespace Archive

structure DarkWindow (τ : Type) where
  start : Int
  stop : Int
  seconds : τ
  deriving DecidableEq, Repr

section
variable {τ : Type} [LinearOrder τ] (seconds : Int → τ)

/-- The stamps in the bounds, in order and each once, between the bounds. -/
def edges (stamps : List Int) (hourStart hourEnd : Int) : List Int :=
  hourStart :: Keyed.arrange id (stamps.filter fun t => hourStart ≤ t ∧ t ≤ hourEnd).dedup ++ [hourEnd]

def fleetDarkWindows (minSeconds : τ) (stamps : List Int) (hourStart hourEnd : Int) : List (DarkWindow τ) :=
  (neighbourPairs (edges stamps hourStart hourEnd)).filterMap fun (a, b) =>
    if minSeconds < seconds (b - a) then some ⟨a, b, seconds (b - a)⟩ else none

/-- The place after the last that is no more than `x`, in a list in order. -/
def searchsortedRight (l : List Int) (x : Int) : Nat := (l.takeWhile fun e => e ≤ x).length

def containingDarkWindow (stamps : List Int) (window : DarkWindow τ) (hourStart hourEnd : Int) :
    Option (DarkWindow τ) :=
  let edges := edges stamps hourStart hourEnd
  match searchsortedRight edges window.start with
  | 0 => none
  | i + 1 => match edges[i]?, edges[i + 1]? with
    | some a, some b => if a ≤ window.start ∧ window.stop ≤ b then some ⟨a, b, seconds (b - a)⟩ else none
    | _, _ => none

end

/-- How much of the spans lies in the windows. -/
def overlapSeconds (spans windows : List (Int × Int)) : ℚ :=
  (spans.map fun span => ((Spans.merged windows).map fun w =>
    if 0 < exactSeconds (Spans.common span w) then exactSeconds (Spans.common span w) else 0).sum).sum

section
variable {stamps l : List Int} {hourStart hourEnd t x a b : Int}

theorem mem_edges : t ∈ edges stamps hourStart hourEnd ↔
    t = hourStart ∨ (t ∈ stamps ∧ hourStart ≤ t ∧ t ≤ hourEnd) ∨ t = hourEnd := by
  simp [edges]

theorem edges_ascend (ordered : hourStart ≤ hourEnd) : (edges stamps hourStart hourEnd).Pairwise (· ≤ ·) := by
  have distinct : Keyed.Distinct id (stamps.filter fun t => hourStart ≤ t ∧ t ≤ hourEnd).dedup := by
    unfold Keyed.Distinct
    rw [List.map_id]
    exact List.nodup_dedup _
  have within : ∀ t ∈ Keyed.arrange id (stamps.filter fun t => hourStart ≤ t ∧ t ≤ hourEnd).dedup,
      hourStart ≤ t ∧ t ≤ hourEnd := by
    intro t mem
    rw [Keyed.mem_arrange, List.mem_dedup] at mem
    exact of_decide_eq_true (List.mem_filter.mp mem).2
  unfold edges
  rw [List.cons_append, List.pairwise_cons, List.pairwise_append]
  refine ⟨?_, distinct.ascending.imp fun less => Int.le_of_lt less, List.pairwise_singleton _ _, ?_⟩
  · intro x mem
    rcases List.mem_append.mp mem with mark | last
    · exact (within x mark).1
    · rw [List.mem_singleton.mp last]
      exact ordered
  · intro x mark y last
    rw [List.mem_singleton.mp last]
    exact (within x mark).2

/-- In a list in order, with members on both sides of a place, the two that the place falls between. -/
theorem searchsorted_bracket (ascending : l.Pairwise (· ≤ ·)) (low : ∃ e ∈ l, e ≤ x) (high : ∃ e ∈ l, x < e) :
    ∃ i a b, searchsortedRight l x = i + 1 ∧ l[i]? = some a ∧ l[i + 1]? = some b ∧ a ∈ l ∧ b ∈ l ∧
      a ≤ x ∧ x < b ∧ ∀ e ∈ l, ¬ (a < e ∧ e < b) := by
  induction l with
  | nil =>
    obtain ⟨e, mem, -⟩ := low
    cases mem
  | cons first rest ih =>
    obtain ⟨least, ascending⟩ := List.pairwise_cons.mp ascending
    have reached : first ≤ x := by
      obtain ⟨e, mem, le⟩ := low
      rcases List.mem_cons.mp mem with rfl | later
      · exact le
      · exact (least e later).trans le
    have beyond : ∃ e ∈ rest, x < e := by
      obtain ⟨e, mem, less⟩ := high
      rcases List.mem_cons.mp mem with rfl | later
      · omega
      · exact ⟨e, later, less⟩
    have step : searchsortedRight (first :: rest) x = searchsortedRight rest x + 1 := by
      unfold searchsortedRight
      rw [List.takeWhile_cons_of_pos (by simpa using reached), List.length_cons]
    by_cases more : ∃ e ∈ rest, e ≤ x
    · obtain ⟨i, a, b, place, at_, next, memA, memB, le, less, apart⟩ := ih ascending more beyond
      refine ⟨i + 1, a, b, by rw [step, place], by simpa using at_, by simpa using next,
        List.mem_cons_of_mem _ memA, List.mem_cons_of_mem _ memB, le, less, ?_⟩
      intro e mem
      rcases List.mem_cons.mp mem with rfl | later
      · have under := least a memA
        omega
      · exact apart e later
    · cases rest with
      | nil =>
        obtain ⟨e, mem, -⟩ := beyond
        cases mem
      | cons second rest =>
        have after : x < second := by
          by_contra le
          exact more ⟨second, List.mem_cons_self, not_lt.mp le⟩
        have none : searchsortedRight (second :: rest) x = 0 := by
          unfold searchsortedRight
          rw [List.takeWhile_cons_of_neg (by simpa using after)]
          rfl
        refine ⟨0, first, second, by rw [step, none], rfl, rfl, List.mem_cons_self,
          List.mem_cons_of_mem _ List.mem_cons_self, reached, after, ?_⟩
        intro e mem
        rcases List.mem_cons.mp mem with rfl | mem
        · omega
        · rcases List.mem_cons.mp mem with rfl | later
          · omega
          · have above := (List.pairwise_cons.mp ascending).1 e later
            omega

end

section
variable {τ : Type} [LinearOrder τ] [Zero τ] {seconds : Int → τ} {minSeconds : τ} {stamps own : List Int}
  {hourStart hourEnd : Int} {w : DarkWindow τ}

/-- A window between two edges, with nothing of the stamps strictly inside. -/
structure Silence (seconds : Int → τ) (stamps : List Int) (hourStart hourEnd : Int) (w : DarkWindow τ) : Prop where
  low : hourStart ≤ w.start
  ordered : w.start < w.stop
  high : w.stop ≤ hourEnd
  start : w.start = hourStart ∨ w.start ∈ stamps
  stop : w.stop = hourEnd ∨ w.stop ∈ stamps
  apart : ∀ t ∈ stamps, ¬ (w.start < t ∧ t < w.stop)
  seconds : w.seconds = seconds (w.stop - w.start)

omit [LinearOrder τ] [Zero τ] in
theorem silence_iff (ordered : hourStart ≤ hourEnd) : Silence seconds stamps hourStart hourEnd w ↔
    w.start ∈ edges stamps hourStart hourEnd ∧ w.stop ∈ edges stamps hourStart hourEnd ∧ w.start < w.stop ∧
      (∀ e ∈ edges stamps hourStart hourEnd, ¬ (w.start < e ∧ e < w.stop)) ∧
      w.seconds = seconds (w.stop - w.start) := by
  simp only [mem_edges]
  constructor
  · intro s
    have low := s.low
    have high := s.high
    have less := s.ordered
    refine ⟨?_, ?_, less, ?_, s.seconds⟩
    · rcases s.start with start | start
      · exact .inl start
      · exact .inr (.inl ⟨start, by omega⟩)
    · rcases s.stop with stop | stop
      · exact .inr (.inr stop)
      · exact .inr (.inl ⟨stop, by omega⟩)
    · rintro e (rfl | ⟨mem, -⟩ | rfl)
      · omega
      · exact s.apart e mem
      · omega
  · rintro ⟨start, stop, less, apart, width⟩
    have low : hourStart ≤ w.start := by omega
    have high : w.stop ≤ hourEnd := by omega
    refine ⟨low, less, high, ?_, ?_, ?_, width⟩
    · rcases start with start | ⟨mem, -⟩ | last
      · exact .inl start
      · exact .inr mem
      · omega
    · rcases stop with first | ⟨mem, -⟩ | stop
      · omega
      · exact .inr mem
      · exact .inl stop
    · intro t mem inside
      exact apart t (.inr (.inl ⟨mem, by omega⟩)) inside

/-- The dark windows are the silences wider than the threshold. -/
theorem mem_fleetDarkWindows (conversion : Conversion seconds) (nonneg : 0 ≤ minSeconds)
    (ordered : hourStart ≤ hourEnd) : w ∈ fleetDarkWindows seconds minSeconds stamps hourStart hourEnd ↔
      Silence seconds stamps hourStart hourEnd w ∧ minSeconds < w.seconds := by
  unfold fleetDarkWindows
  rw [List.mem_filterMap]
  constructor
  · rintro ⟨⟨a, b⟩, mem, found⟩
    dsimp only at found
    split at found
    · rename_i is_wide
      obtain rfl := Option.some.inj found
      have less : a < b := by
        have wide := wide_ordered conversion nonneg is_wide
        omega
      obtain ⟨start, stop, apart⟩ := (mem_neighbourPairs (edges_ascend ordered) less).mp mem
      exact ⟨(silence_iff ordered).mpr ⟨start, stop, less, apart, rfl⟩, is_wide⟩
    · cases found
  · rintro ⟨s, is_wide⟩
    obtain ⟨start, stop, less, apart, width⟩ := (silence_iff ordered).mp s
    refine ⟨(w.start, w.stop), (mem_neighbourPairs (edges_ascend ordered) less).mpr ⟨start, stop, apart⟩, ?_⟩
    dsimp only
    rw [← width, if_pos is_wide]

omit [LinearOrder τ] [Zero τ] in
/-- A window with none of a stream's stamps strictly inside lies in one silence of the stream. -/
theorem containing_silence (s : Silence seconds stamps hourStart hourEnd w) (sub : ∀ t ∈ own, t ∈ stamps) :
    ∃ c, containingDarkWindow seconds own w hourStart hourEnd = some c ∧
      Silence seconds own hourStart hourEnd c ∧ c.start ≤ w.start ∧ w.stop ≤ c.stop := by
  have low := s.low
  have less := s.ordered
  have high := s.high
  have ordered : hourStart ≤ hourEnd := by omega
  obtain ⟨i, a, b, place, at_, next, memA, memB, le, after, apart⟩ :=
    searchsorted_bracket (edges_ascend ordered) ⟨hourStart, mem_edges.mpr (.inl rfl), low⟩
      ⟨hourEnd, mem_edges.mpr (.inr (.inr rfl)), less.trans_le high⟩
  have reach : w.stop ≤ b := by
    by_contra short
    rcases mem_edges.mp memB with first | ⟨mem, -⟩ | last
    · omega
    · exact s.apart b (sub b mem) ⟨after, by omega⟩
    · omega
  refine ⟨⟨a, b, seconds (b - a)⟩, ?_, (silence_iff ordered).mpr
    ⟨memA, memB, le.trans_lt after, apart, rfl⟩, le, reach⟩
  unfold containingDarkWindow
  dsimp only
  rw [place]
  dsimp only
  rw [at_, next]
  exact if_pos ⟨le, reach⟩

omit [LinearOrder τ] [Zero τ] in
/-- Two silences of one stream are the same or do not meet inside. -/
theorem silences_apart {c c' : DarkWindow τ} (s : Silence seconds own hourStart hourEnd c)
    (s' : Silence seconds own hourStart hourEnd c') : c = c' ∨ c.stop ≤ c'.start ∨ c'.stop ≤ c.start := by
  have ordered : hourStart ≤ hourEnd := s.low.trans (s.ordered.le.trans s.high)
  obtain ⟨start, stop, less, apart, width⟩ := (silence_iff ordered).mp s
  obtain ⟨start', stop', less', apart', width'⟩ := (silence_iff ordered).mp s'
  by_cases meet : c.start < c'.stop ∧ c'.start < c.stop
  · left
    have first := apart c'.start start'
    have first' := apart' c.start start
    have last := apart c'.stop stop'
    have last' := apart' c.stop stop
    have starts : c.start = c'.start := by omega
    have stops : c.stop = c'.stop := by omega
    cases c
    cases c'
    simp_all
  · omega

omit [LinearOrder τ] [Zero τ] in
/-- Where every stream is silent around a window of them all, that window is. -/
theorem silences_meet {streams : List (List Int)} {t : Int}
    (s : Silence seconds streams.flatten hourStart hourEnd w) (within : hourStart ≤ t ∧ t ≤ hourEnd) :
    (∀ own ∈ streams, ∀ c, containingDarkWindow seconds own w hourStart hourEnd = some c →
      c.start ≤ t ∧ t ≤ c.stop) ↔ w.start ≤ t ∧ t ≤ w.stop := by
  have around : ∀ own ∈ streams, ∃ c, containingDarkWindow seconds own w hourStart hourEnd = some c ∧
      Silence seconds own hourStart hourEnd c ∧ c.start ≤ w.start ∧ w.stop ≤ c.stop := fun own mem =>
    containing_silence s fun t there => List.mem_flatten.mpr ⟨own, mem, there⟩
  have less := s.ordered
  constructor
  · intro all
    constructor
    · by_contra before
      rcases s.start with first | mark
      · omega
      · -- the stream of the window's own edge has it strictly inside what would hold both
        obtain ⟨own, mem, there⟩ := List.mem_flatten.mp mark
        obtain ⟨c, found, silent, -, stop⟩ := around own mem
        have here := all own mem c found
        exact silent.apart w.start there (by omega)
    · by_contra after
      rcases s.stop with last | mark
      · omega
      · obtain ⟨own, mem, there⟩ := List.mem_flatten.mp mark
        obtain ⟨c, found, silent, start, -⟩ := around own mem
        have here := all own mem c found
        exact silent.apart w.stop there (by omega)
  · intro inside own mem c found
    obtain ⟨c', found', -, start, stop⟩ := around own mem
    obtain rfl := Option.some.inj (found'.symm.trans found)
    omega

end

/-- What the windows take of the spans is what they cover of them, in seconds. -/
theorem overlapSeconds_covered (spans windows : List (Int × Int)) : overlapSeconds spans windows =
    (spans.map fun span => exactSeconds (Spans.covered span windows).card).sum := by
  obtain ⟨covers, apart⟩ := Spans.merged_covers windows
  unfold overlapSeconds
  refine congrArg List.sum (List.map_congr_left fun span _ => ?_)
  have same : Spans.covered span windows = Spans.covered span (Spans.merged windows) := by
    unfold Spans.covered
    exact Finset.filter_congr fun t _ => (covers t).symm
  have each : ∀ x : Int, (if 0 < exactSeconds x then exactSeconds x else 0) = exactSeconds (x.toNat : Int) := by
    intro x
    by_cases pos : 0 < x
    · have kept : (x.toNat : Int) = x := Int.toNat_of_nonneg pos.le
      have high : 0 < exactSeconds x := div_pos (by exact_mod_cast pos) (by norm_num)
      rw [if_pos high, kept]
    · have gone : x.toNat = 0 := by omega
      have low : exactSeconds x ≤ 0 := div_nonpos_of_nonpos_of_nonneg (by exact_mod_cast not_lt.mp pos) (by norm_num)
      rw [if_neg (not_lt.mpr low), gone]
      simp [exactSeconds]
  have sums : ∀ l : List Nat, (l.map fun (n : Nat) => exactSeconds n).sum = exactSeconds (l.sum : Nat) := by
    intro l
    induction l with
    | nil => simp [exactSeconds]
    | cons n rest ih =>
      rw [List.map_cons, List.sum_cons, List.sum_cons, ih]
      unfold exactSeconds
      push_cast
      ring
  rw [same, Spans.covered_card apart, ← sums, List.map_map]
  exact congrArg List.sum (List.map_congr_left fun w _ => each _)

/-- Two streams, of which one ticks in what is the other's one silence. -/
def twoStreams : List (List Int) := [[0, 100000000], [0, 40000000, 100000000]]

end Archive
