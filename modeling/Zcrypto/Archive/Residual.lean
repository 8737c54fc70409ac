import Mathlib.Data.List.Pairwise
import Mathlib.Data.List.Sort
import Zcrypto.Archive.Splice

/- What a gap still lacks once it is spliced: the stretches between its boundaries and the messages in it
   that are wider than the threshold. The rows that would be spliced say the same as those that were. -/
namespace Archive
open Fallible

/-- Each of a list with the one after it. -/
def neighbourPairs (l : List Int) : List (Int × Int) := l.zip l.tail

section
variable {κ τ : Type} [LinearOrder τ] (seconds : Int → τ) (minGapSeconds : τ)

def boundaries (gap : Gap τ) (insideTs : List Int) : List Int :=
  gap.start :: (insideTs.filter fun t => gap.start ≤ t ∧ t ≤ gap.stop) ++ [gap.stop]

/-- An outer boundary keeps the gap's own ownership, and an inner one has none. -/
def residualWindow (gap : Gap τ) (pair : Int × Int) : Option (Gap τ) :=
  let (lo, hi) := pair
  if seconds (hi - lo) ≤ minGapSeconds then none
  else some
    { start := lo
      stop := hi
      seconds := seconds (hi - lo)
      startIsPrimaryMessage := if lo = gap.start then gap.startIsPrimaryMessage else false
      endIsPrimaryMessage := if hi = gap.stop then gap.endIsPrimaryMessage else false }

def residualOf (insideTs : List Int) (gap : Gap τ) : List (Gap τ) :=
  (neighbourPairs (boundaries gap insideTs)).filterMap (residualWindow seconds minGapSeconds gap)

def measureResidual (gaps : List (Gap τ)) (spliced : List (Row κ)) : Except CaptureError (List (Gap τ)) :=
  if gaps.isEmpty then .ok []
  else do
    let insideTs ← messageTs spliced
    .ok (gaps.flatMap (residualOf seconds minGapSeconds insideTs))

/-- What the messages fill of a gap: the stretches that are not wider than the threshold. -/
def filledWidth (insideTs : List Int) (gap : Gap τ) : Int :=
  (((neighbourPairs (boundaries gap insideTs)).filter fun w => seconds (w.2 - w.1) ≤ minGapSeconds).map
    fun w => w.2 - w.1).sum

end

section
variable {τ : Type}

def Gap.width (gap : Gap τ) : Int := gap.stop - gap.start

/-- A window without the flags of its boundaries. -/
def Gap.span (gap : Gap τ) : Int × Int × τ := (gap.start, gap.stop, gap.seconds)

def Gap.within (gap w : Gap τ) : Bool := gap.start ≤ w.start ∧ w.stop ≤ gap.stop

end

section
variable {l : List Int} {a b x e : Int}

/-- Two of an ascending list are neighbours where nothing of it lies between them. -/
theorem mem_neighbourPairs (ascending : l.Pairwise (· ≤ ·)) (less : a < b) :
    (a, b) ∈ neighbourPairs l ↔ a ∈ l ∧ b ∈ l ∧ ∀ x ∈ l, ¬ (a < x ∧ x < b) := by
  induction l with
  | nil => simp [neighbourPairs]
  | cons first rest ih =>
    cases rest with
    | nil =>
      simp only [neighbourPairs, List.tail_cons, List.zip_nil_right, List.not_mem_nil, List.mem_singleton,
        false_iff]
      rintro ⟨rfl, rfl, -⟩
      omega
    | cons second rest =>
      obtain ⟨least, ascending⟩ := List.pairwise_cons.mp ascending
      have le := least second List.mem_cons_self
      have above := (List.pairwise_cons.mp ascending).1
      have step : neighbourPairs (first :: second :: rest) =
          (first, second) :: neighbourPairs (second :: rest) := rfl
      rw [step, List.mem_cons, ih ascending]
      constructor
      · rintro (here | ⟨low, high, apart⟩)
        · obtain ⟨rfl, rfl⟩ := Prod.mk.inj here
          refine ⟨List.mem_cons_self, List.mem_cons_of_mem _ List.mem_cons_self, ?_⟩
          intro x mem
          rcases List.mem_cons.mp mem with rfl | mem
          · omega
          · rcases List.mem_cons.mp mem with rfl | mem
            · omega
            · have far := above x mem
              omega
        · refine ⟨List.mem_cons_of_mem _ low, List.mem_cons_of_mem _ high, ?_⟩
          intro x mem
          rcases List.mem_cons.mp mem with rfl | mem
          · have reached := least a low
            omega
          · exact apart x mem
      · rintro ⟨low, high, apart⟩
        have not_first : b ≠ first := by
          rintro rfl
          rcases List.mem_cons.mp low with rfl | low
          · omega
          · have reached := least a low
            omega
        have later := (List.mem_cons.mp high).resolve_left not_first
        by_cases here : first = a ∧ second = b
        · exact .inl (by rw [here.1, here.2])
        · right
          refine ⟨?_, later, fun x mem => apart x (List.mem_cons_of_mem _ mem)⟩
          rcases List.mem_cons.mp low with rfl | low
          · -- nothing lies between the first and the next but the first itself
            have between := apart second (List.mem_cons_of_mem _ List.mem_cons_self)
            have reached : second ≤ b := by
              rcases List.mem_cons.mp later with rfl | mem
              · omega
              · exact above b mem
            have same : a = second := by omega
            rw [same]
            exact List.mem_cons_self
          · exact low

theorem neighbourPairs_pairwise (ascending : l.Pairwise (· ≤ ·)) :
    (neighbourPairs l).Pairwise fun v w => v.2 ≤ w.1 := by
  induction l with
  | nil => exact List.Pairwise.nil
  | cons first rest ih =>
    cases rest with
    | nil => exact List.Pairwise.nil
    | cons second rest =>
      obtain ⟨-, ascending⟩ := List.pairwise_cons.mp ascending
      refine List.pairwise_cons.mpr ⟨?_, ih ascending⟩
      rintro ⟨low, high⟩ mem
      have later : low ∈ second :: rest := (List.of_mem_zip mem).1
      rcases List.mem_cons.mp later with rfl | mem
      · exact Int.le_refl _
      · exact (List.pairwise_cons.mp ascending).1 low mem

/-- The stretches between neighbours add up to the whole. -/
theorem neighbourPairs_width (a : Int) (l : List Int) (e : Int) :
    ((neighbourPairs (a :: l ++ [e])).map fun w => w.2 - w.1).sum = e - a := by
  induction l generalizing a with
  | nil => simp [neighbourPairs]
  | cons b rest ih =>
    have step : neighbourPairs (a :: b :: rest ++ [e]) = (a, b) :: neighbourPairs (b :: rest ++ [e]) := rfl
    rw [step, List.map_cons, List.sum_cons, ih]
    dsimp only
    omega

end

section
variable {κ τ : Type} [LinearOrder τ] [Zero τ] {seconds : Int → τ} {minGapSeconds : τ}
  {gap w : Gap τ} {ts ts' : List Int} {t : Int}

/-- A window of a gap between neighbouring boundaries, wider than the threshold. -/
structure ResidualWindow (seconds : Int → τ) (minGapSeconds : τ) (ts : List Int) (gap w : Gap τ) : Prop where
  low : gap.start ≤ w.start
  ordered : w.start < w.stop
  high : w.stop ≤ gap.stop
  start : w.start = gap.start ∨ w.start ∈ ts
  stop : w.stop = gap.stop ∨ w.stop ∈ ts
  apart : ∀ t ∈ ts, ¬ (w.start < t ∧ t < w.stop)
  seconds : w.seconds = seconds (w.stop - w.start)
  wide : minGapSeconds < w.seconds
  startFlag : w.startIsPrimaryMessage = if w.start = gap.start then gap.startIsPrimaryMessage else false
  endFlag : w.endIsPrimaryMessage = if w.stop = gap.stop then gap.endIsPrimaryMessage else false

omit [LinearOrder τ] [Zero τ] in
theorem boundaries_ascend (ascending : ts.Pairwise (· < ·)) (ordered : gap.start < gap.stop) :
    (boundaries gap ts).Pairwise (· ≤ ·) := by
  unfold boundaries
  rw [List.cons_append, List.pairwise_cons, List.pairwise_append]
  refine ⟨?_, (ascending.filter _).imp fun less => Int.le_of_lt less, List.pairwise_singleton _ _, ?_⟩
  · intro x mem
    rcases List.mem_append.mp mem with mark | last
    · exact (of_decide_eq_true (List.mem_filter.mp mark).2).1
    · obtain rfl := List.mem_singleton.mp last
      omega
  · intro x mark y last
    obtain rfl := List.mem_singleton.mp last
    exact (of_decide_eq_true (List.mem_filter.mp mark).2).2

omit [LinearOrder τ] [Zero τ] in
theorem mem_boundaries : t ∈ boundaries gap ts ↔
    t = gap.start ∨ (t ∈ ts ∧ gap.start ≤ t ∧ t ≤ gap.stop) ∨ t = gap.stop := by
  simp [boundaries]

omit [Zero τ] in
theorem residualWindow_some {v : Int × Int} : residualWindow seconds minGapSeconds gap v = some w ↔
    minGapSeconds < seconds (v.2 - v.1) ∧ w = ⟨v.1, v.2, seconds (v.2 - v.1),
      if v.1 = gap.start then gap.startIsPrimaryMessage else false,
      if v.2 = gap.stop then gap.endIsPrimaryMessage else false⟩ := by
  unfold residualWindow
  dsimp only
  split
  · rename_i narrow
    simp [not_lt.mpr narrow]
  · rename_i is_wide
    simp [not_le.mp is_wide, eq_comm]

theorem mem_residualOf (conversion : Conversion seconds) (nonneg : 0 ≤ minGapSeconds)
    (ascending : ts.Pairwise (· < ·)) (ordered : gap.start < gap.stop) :
    w ∈ residualOf seconds minGapSeconds ts gap ↔ ResidualWindow seconds minGapSeconds ts gap w := by
  unfold residualOf
  rw [List.mem_filterMap]
  have sorted := boundaries_ascend ascending ordered
  constructor
  · rintro ⟨⟨lo, hi⟩, pair, some_window⟩
    obtain ⟨is_wide, rfl⟩ := residualWindow_some.mp some_window
    have less : lo < hi := by
      have positive := wide_ordered conversion nonneg is_wide
      omega
    obtain ⟨low, high, apart⟩ := (mem_neighbourPairs sorted less).mp pair
    rw [mem_boundaries] at low high
    refine ⟨?_, less, ?_, ?_, ?_, ?_, rfl, is_wide, rfl, rfl⟩
    · dsimp only
      omega
    · dsimp only
      omega
    · rcases low with same | ⟨mem, -⟩ | same
      · exact .inl same
      · exact .inr mem
      · omega
    · rcases high with same | ⟨mem, -⟩ | same
      · omega
      · exact .inr mem
      · exact .inl same
    · intro t mem between
      dsimp only at between
      exact apart t (mem_boundaries.mpr (.inr (.inl ⟨mem, by omega, by omega⟩))) between
  · intro window
    have less := window.ordered
    have low := window.low
    have high := window.high
    refine ⟨(w.start, w.stop), (mem_neighbourPairs sorted less).mpr ⟨?_, ?_, ?_⟩, ?_⟩
    · rw [mem_boundaries]
      rcases window.start with same | mem
      · exact .inl same
      · exact .inr (.inl ⟨mem, low, by omega⟩)
    · rw [mem_boundaries]
      rcases window.stop with same | mem
      · exact .inr (.inr same)
      · exact .inr (.inl ⟨mem, by omega, high⟩)
    · intro t mem between
      rcases mem_boundaries.mp mem with same | ⟨mem, -⟩ | same
      · omega
      · exact window.apart t mem between
      · omega
    · rw [residualWindow_some]
      refine ⟨window.seconds ▸ window.wide, ?_⟩
      cases w
      simp only [Gap.mk.injEq, true_and]
      exact ⟨window.seconds, window.startFlag, window.endFlag⟩

/-- Windows in their order, of which each starts after the one before it. -/
def Ascends (gaps : List (Gap τ)) : Prop := gaps.Pairwise fun a b => a.start < b.start

omit [LinearOrder τ] [Zero τ] in
theorem ascends_ext {a b : List (Gap τ)} (first : Ascends a) (second : Ascends b)
    (same : ∀ w, w ∈ a ↔ w ∈ b) : a = b := by
  have irrefl : Std.Irrefl fun a b : Gap τ => a.start < b.start := ⟨fun _ => Int.lt_irrefl _⟩
  have antisymm : Std.Antisymm fun a b : Gap τ => a.start < b.start :=
    ⟨fun a b one two => absurd one (Int.not_lt.mpr (Int.le_of_lt two))⟩
  exact List.Pairwise.eq_of_mem_iff first second same

theorem residualOf_apart (conversion : Conversion seconds) (nonneg : 0 ≤ minGapSeconds)
    (ascending : ts.Pairwise (· < ·)) (ordered : gap.start < gap.stop) :
    (residualOf seconds minGapSeconds ts gap).Pairwise fun a b => a.start < a.stop ∧ a.stop ≤ b.start := by
  have apart := neighbourPairs_pairwise (boundaries_ascend ascending ordered)
  refine List.Pairwise.filterMap _ ?_ apart
  intro v v' le w some_w w' some_w'
  obtain ⟨is_wide, rfl⟩ := residualWindow_some.mp some_w
  obtain ⟨-, rfl⟩ := residualWindow_some.mp some_w'
  have positive := wide_ordered conversion nonneg is_wide
  dsimp only
  omega

omit [LinearOrder τ] [Zero τ] in
theorem ascends_of_apart {gaps : List (Gap τ)}
    (apart : gaps.Pairwise fun a b => a.start < a.stop ∧ a.stop ≤ b.start) : Ascends gaps :=
  apart.imp fun ⟨ordered, after⟩ => by omega

/-- Messages that agree inside a gap leave the same of it. -/
theorem residualOf_congr (conversion : Conversion seconds) (nonneg : 0 ≤ minGapSeconds)
    (ascending : ts.Pairwise (· < ·)) (ascending' : ts'.Pairwise (· < ·)) (ordered : gap.start < gap.stop)
    (agree : ∀ t, gap.start < t → t < gap.stop → (t ∈ ts ↔ t ∈ ts')) :
    residualOf seconds minGapSeconds ts gap = residualOf seconds minGapSeconds ts' gap := by
  have carries : ∀ {ts ts' : List Int}, (∀ t, gap.start < t → t < gap.stop → (t ∈ ts ↔ t ∈ ts')) → ∀ w,
      ResidualWindow seconds minGapSeconds ts gap w → ResidualWindow seconds minGapSeconds ts' gap w := by
    intro ts ts' agree w window
    have low := window.low
    have less := window.ordered
    have high := window.high
    refine { window with start := ?_, stop := ?_, apart := ?_ }
    · by_cases same : w.start = gap.start
      · exact .inl same
      · have mem := window.start.resolve_left same
        exact .inr ((agree w.start (by omega) (by omega)).mp mem)
    · by_cases same : w.stop = gap.stop
      · exact .inl same
      · have mem := window.stop.resolve_left same
        exact .inr ((agree w.stop (by omega) (by omega)).mp mem)
    · intro t mem between
      exact window.apart t ((agree t (by omega) (by omega)).mpr mem) between
  apply ascends_ext
  · exact ascends_of_apart (residualOf_apart conversion nonneg ascending ordered)
  · exact ascends_of_apart (residualOf_apart conversion nonneg ascending' ordered)
  · intro w
    rw [mem_residualOf conversion nonneg ascending ordered, mem_residualOf conversion nonneg ascending' ordered]
    exact ⟨carries agree w, carries (fun t low high => (agree t low high).symm) w⟩

omit [Zero τ] in
/-- What a gap lacks and what its messages fill make up the whole gap. -/
theorem residualOf_width (ts : List Int) (gap : Gap τ) :
    ((residualOf seconds minGapSeconds ts gap).map Gap.width).sum +
      filledWidth seconds minGapSeconds ts gap = gap.width := by
  have parts : ∀ l : List (Int × Int),
      ((l.filterMap (residualWindow seconds minGapSeconds gap)).map Gap.width).sum +
        ((l.filter fun w => seconds (w.2 - w.1) ≤ minGapSeconds).map fun w => w.2 - w.1).sum =
      (l.map fun w => w.2 - w.1).sum := by
    intro l
    induction l with
    | nil => rfl
    | cons v rest ih =>
      by_cases narrow : seconds (v.2 - v.1) ≤ minGapSeconds
      · have none_there : residualWindow seconds minGapSeconds gap v = none := if_pos narrow
        rw [List.filterMap_cons_none none_there, List.filter_cons_of_pos (by simpa using narrow), List.map_cons,
          List.sum_cons, List.map_cons, List.sum_cons]
        omega
      · obtain ⟨w, there, width⟩ : ∃ w, residualWindow seconds minGapSeconds gap v = some w ∧
            w.width = v.2 - v.1 := ⟨_, if_neg narrow, rfl⟩
        rw [List.filterMap_cons_some there, List.filter_cons_of_neg (by simpa using narrow), List.map_cons,
          List.sum_cons, List.map_cons, List.sum_cons, width]
        omega
  have whole := neighbourPairs_width gap.start (ts.filter fun t => gap.start ≤ t ∧ t ≤ gap.stop) gap.stop
  unfold residualOf filledWidth boundaries Gap.width
  exact (parts _).trans whole

end

/- What a partition that succeeded was given. -/

section
variable {κ τ : Type} {rows : List (Row κ)} {hourStart hourEnd : Int}

theorem firstDrop_sorted {ts : List Int} (none_there : firstDrop ts = none) : ts.Pairwise (· ≤ ·) := by
  rw [← List.isChain_iff_pairwise]
  induction ts with
  | nil => exact .nil
  | cons t rest ih =>
    cases rest with
    | nil => exact .singleton _
    | cons next rest =>
      unfold firstDrop at none_there
      split at none_there
      · cases none_there
      · rename_i ascends
        exact List.isChain_cons_cons.mpr ⟨Int.not_lt.mp ascends, ih none_there⟩

theorem messageTs_valid {ts : List Int} (ok : messageTs rows = .ok ts) :
    Ascending rows ∧ ts = neighbours (stamps rows) := by
  unfold messageTs at ok
  split at ok
  · cases ok
  · rename_i none_there
    injection ok with same
    exact ⟨List.pairwise_map.mp (firstDrop_sorted none_there), same.symm⟩

theorem validateRows_valid {name : Side} (ok : validateRowsWithinHour rows name hourStart hourEnd = .ok ()) :
    ∀ r ∈ rows, hourStart ≤ r.ts ∧ r.ts < hourEnd := by
  unfold validateRowsWithinHour at ok
  split at ok
  · cases ok
  · rename_i none_outside
    intro r mem
    have here := List.find?_eq_none.mp none_outside r mem
    rw [decide_eq_true_eq] at here
    omega

variable [LinearOrder τ] {seconds : Int → τ} {minGapSeconds : τ} {primary secondary : List (Row κ)}

theorem partitionGaps_valid {out : List (Gap τ) × List (Gap τ)}
    (ok : partitionGaps seconds minGapSeconds primary secondary hourStart hourEnd = .ok out) :
    hourStart % hourMicros = 0 ∧ hourEnd = hourStart + hourMicros ∧ InHour hourStart primary ∧
      InHour hourStart secondary := by
  unfold partitionGaps primarySilence at ok
  obtain ⟨bounds, ok⟩ := then_ok.mp ok
  obtain ⟨secondary_rows, ok⟩ := then_ok.mp ok
  obtain ⟨_, secondary_ts, ok⟩ := bind_ok.mp ok
  obtain ⟨gaps, silence, -⟩ := bind_ok.mp ok
  obtain ⟨-, silence⟩ := then_ok.mp silence
  obtain ⟨primary_rows, silence⟩ := then_ok.mp silence
  obtain ⟨_, primary_ts, -⟩ := bind_ok.mp silence
  unfold validateHourBounds at bounds
  split at bounds
  · cases bounds
  · split at bounds
    · cases bounds
    · rename_i aligned hour
      obtain rfl := Decidable.not_not.mp hour
      exact ⟨Decidable.not_not.mp aligned, rfl,
        ⟨(messageTs_valid primary_ts).1, validateRows_valid primary_rows⟩,
        ⟨(messageTs_valid secondary_ts).1, validateRows_valid secondary_rows⟩⟩

end

section
variable {κ τ : Type} {message : Int → Prop} {gap : Gap τ} {gaps : List (Gap τ)} {cursor : Option Int}

theorem placed_apart (placed : Placed message cursor gaps) :
    gaps.Pairwise fun a b => a.start < a.stop ∧ a.stop ≤ b.start := by
  induction gaps generalizing cursor with
  | nil => exact List.Pairwise.nil
  | cons gap rest ih =>
    obtain ⟨-, bounded, later⟩ := placed
    refine List.pairwise_cons.mpr ⟨?_, ih later⟩
    intro next mem
    exact ⟨bounded.ordered, (placed_mem later mem).1⟩

variable [LinearOrder τ] [Zero τ] {seconds : Int → τ} {minGapSeconds : τ} {hourStart : Int}
  {primary secondary : List (Row κ)}

omit [Zero τ] in
/-- A silence ends at an edge of the hour or at a message, on either side. -/
theorem silences_edges (silences : Silences seconds minGapSeconds hourStart primary gaps) (mem : gap ∈ gaps) :
    (gap.start = hourStart ∨ MessageOf primary gap.start) ∧
      (gap.stop = hourStart + hourMicros ∨ MessageOf primary gap.stop) := by
  by_cases empty : primary = []
  · rw [silences.absent empty, List.mem_singleton] at mem
    subst mem
    exact ⟨.inl rfl, .inl rfl⟩
  · have window := (silences.windows empty gap).mp mem
    exact ⟨window.start, window.stop⟩

omit [LinearOrder τ] [Zero τ] in
/-- Inside a gap that was spliced, the messages are the secondary's. -/
theorem splice_agrees (primary_hour : InHour hourStart primary) (secondary_hour : InHour hourStart secondary)
    (placed : Placed (MessageOf primary) none gaps) (mem : gap ∈ gaps) {t : Int} (after : gap.start < t)
    (before : t < gap.stop) :
    t ∈ neighbours (stamps (rowsOf (spliceBook primary secondary gaps))) ↔
      t ∈ neighbours (stamps secondary) := by
  have rows_are := mem_splice primary_hour.sorted secondary_hour.sorted placed
  have bounded := placed_bounded placed mem
  rw [mem_messages, mem_messages]
  constructor
  · rintro ⟨r, row, rfl⟩
    rcases (rows_are r).mp row with of_primary | ⟨of_secondary, -⟩
    · exact absurd ⟨after, before⟩ (bounded.apart r.ts (messageOf_mem of_primary))
    · exact ⟨r, of_secondary, rfl⟩
  · rintro ⟨r, row, rfl⟩
    refine ⟨r, (rows_are r).mpr (.inr ⟨row, gap, mem, ?_⟩), rfl⟩
    apply inside_of_apart bounded (Int.le_of_lt after) (Int.le_of_lt before)
    exact fun is_message => bounded.apart r.ts is_message ⟨after, before⟩

variable {ts : List Int} {w : Gap τ}

theorem mem_residual (conversion : Conversion seconds) (nonneg : 0 ≤ minGapSeconds)
    (ascending : ts.Pairwise (· < ·)) (placed : Placed message cursor gaps) :
    w ∈ gaps.flatMap (residualOf seconds minGapSeconds ts) ↔
      ∃ gap ∈ gaps, ResidualWindow seconds minGapSeconds ts gap w := by
  rw [List.mem_flatMap]
  constructor
  · rintro ⟨gap, mem, there⟩
    exact ⟨gap, mem, (mem_residualOf conversion nonneg ascending (placed_bounded placed mem).ordered).mp there⟩
  · rintro ⟨gap, mem, window⟩
    exact ⟨gap, mem,
      (mem_residualOf conversion nonneg ascending (placed_bounded placed mem).ordered).mpr window⟩

theorem residual_apart (conversion : Conversion seconds) (nonneg : 0 ≤ minGapSeconds)
    (ascending : ts.Pairwise (· < ·)) (placed : Placed message cursor gaps) :
    (gaps.flatMap (residualOf seconds minGapSeconds ts)).Pairwise
      fun a b => a.start < a.stop ∧ a.stop ≤ b.start := by
  rw [List.pairwise_flatMap]
  constructor
  · intro gap mem
    exact residualOf_apart conversion nonneg ascending (placed_bounded placed mem).ordered
  · have bounded : ∀ gap ∈ gaps, gap.start < gap.stop := fun gap mem => (placed_bounded placed mem).ordered
    refine (placed_apart placed).imp_of_mem ?_
    intro gap next mem mem' apart w there w' there'
    have window := (mem_residualOf conversion nonneg ascending (bounded gap mem)).mp there
    have window' := (mem_residualOf conversion nonneg ascending (bounded next mem')).mp there'
    have high := window.high
    have low := window'.low
    exact ⟨window.ordered, by omega⟩

/-- The windows in a gap are those that were measured for it. -/
theorem residual_within (conversion : Conversion seconds) (nonneg : 0 ≤ minGapSeconds)
    (ascending : ts.Pairwise (· < ·)) (placed : Placed message cursor gaps) (mem : gap ∈ gaps) :
    (gaps.flatMap (residualOf seconds minGapSeconds ts)).filter gap.within =
      residualOf seconds minGapSeconds ts gap := by
  have ordered := (placed_bounded placed mem).ordered
  apply ascends_ext
  · exact (ascends_of_apart (residual_apart conversion nonneg ascending placed)).filter _
  · exact ascends_of_apart (residualOf_apart conversion nonneg ascending ordered)
  · intro w
    rw [List.mem_filter, mem_residual conversion nonneg ascending placed,
      mem_residualOf conversion nonneg ascending ordered]
    constructor
    · rintro ⟨⟨other, mem', window⟩, within⟩
      have within : gap.start ≤ w.start ∧ w.stop ≤ gap.stop := of_decide_eq_true within
      have low := window.low
      have less := window.ordered
      have high := window.high
      by_cases same : gap = other
      · rw [same]
        exact window
      · -- gaps apart from each other have no window in common
        have ordered' := (placed_bounded placed mem').ordered
        have apart : gap.stop ≤ other.start ∨ other.stop ≤ gap.start := by
          have disjoint := (placed_apart placed).imp (S := fun a b => a.stop ≤ b.start ∨ b.stop ≤ a.start)
            fun ⟨_, after⟩ => .inl after
          have symm : Std.Symm fun a b : Gap τ => a.stop ≤ b.start ∨ b.stop ≤ a.start := ⟨fun _ _ => Or.symm⟩
          exact disjoint.forall mem mem' same
        omega
    · intro window
      exact ⟨⟨gap, mem, window⟩, decide_eq_true ⟨window.low, window.high⟩⟩

/-- A window that is measured is a silence of the spliced hour, and a silence within a gap is measured. -/
theorem residual_silences (conversion : Conversion seconds) (nonneg : 0 ≤ minGapSeconds)
    (silences : Silences seconds minGapSeconds hourStart primary gaps)
    {kept : List (Gap τ)} (sub : ∀ gap ∈ kept, gap ∈ gaps) (placed : Placed (MessageOf primary) none kept)
    {spliced : List (Row κ)} (hour : InHour hourStart spliced)
    (keeps : ∀ t, MessageOf primary t → MessageOf spliced t)
    (starts : ∀ gap ∈ kept, hourStart ≤ gap.start ∧ gap.stop ≤ hourStart + hourMicros)
    (some_row : kept ≠ [] → spliced ≠ []) {left : List (Gap τ)}
    (silent : Silences seconds minGapSeconds hourStart spliced left) :
    (kept.flatMap (residualOf seconds minGapSeconds (neighbours (stamps spliced)))).map Gap.span =
      (left.filter fun w => kept.any fun gap => gap.within w).map Gap.span := by
  have ascending : (neighbours (stamps spliced)).Pairwise (· < ·) :=
    neighbours_ascend (List.pairwise_map.mpr hour.sorted)
  have measured := ascends_of_apart (residual_apart conversion nonneg ascending placed)
  have found := ascends_of_apart (placed_apart silent.placed)
  have irrefl : Std.Irrefl fun a b : Int × Int × τ => a.1 < b.1 := ⟨fun _ => Int.lt_irrefl _⟩
  have antisymm : Std.Antisymm fun a b : Int × Int × τ => a.1 < b.1 :=
    ⟨fun a b one two => absurd one (Int.not_lt.mpr (Int.le_of_lt two))⟩
  refine List.Pairwise.eq_of_mem_iff (r := fun a b : Int × Int × τ => a.1 < b.1) (List.pairwise_map.mpr measured)
    (List.pairwise_map.mpr (found.filter _)) ?_
  intro span
  simp only [List.mem_map, List.mem_filter, mem_residual conversion nonneg ascending placed]
  constructor
  · rintro ⟨w, ⟨gap, mem, window⟩, rfl⟩
    obtain ⟨at_start, at_stop⟩ := silences_edges silences (sub gap mem)
    let silence : Gap τ := { w with
      startIsPrimaryMessage := decide (MessageOf spliced w.start)
      endIsPrimaryMessage := decide (MessageOf spliced w.stop) }
    refine ⟨silence, ⟨?_, ?_⟩, rfl⟩
    · refine (silent.windows (some_row (List.ne_nil_of_mem mem)) silence).mpr
        ⟨⟨window.ordered, ?_, decide_eq_true_iff, decide_eq_true_iff⟩, ?_, ?_, window.seconds, window.wide⟩
      · intro t is_message
        exact window.apart t ((mem_messages spliced t).mpr is_message)
      · show w.start = hourStart ∨ MessageOf spliced w.start
        rcases window.start with same | there
        · rw [same]
          exact at_start.imp_right (keeps _)
        · exact .inr ((mem_messages spliced _).mp there)
      · show w.stop = hourStart + hourMicros ∨ MessageOf spliced w.stop
        rcases window.stop with same | there
        · rw [same]
          exact at_stop.imp_right (keeps _)
        · exact .inr ((mem_messages spliced _).mp there)
    · exact List.any_eq_true.mpr ⟨gap, mem, decide_eq_true ⟨window.low, window.high⟩⟩
  · rintro ⟨silence, ⟨there, within⟩, rfl⟩
    obtain ⟨gap, mem, within⟩ := List.any_eq_true.mp within
    have within : gap.start ≤ silence.start ∧ silence.stop ≤ gap.stop := of_decide_eq_true within
    have window := (silent.windows (some_row (List.ne_nil_of_mem mem)) silence).mp there
    have edges := starts gap mem
    let w : Gap τ := { silence with
      startIsPrimaryMessage := if silence.start = gap.start then gap.startIsPrimaryMessage else false
      endIsPrimaryMessage := if silence.stop = gap.stop then gap.endIsPrimaryMessage else false }
    refine ⟨w, ⟨gap, mem, within.1, window.bounded.ordered, within.2, ?_, ?_, ?_, window.seconds, window.wide,
      rfl, rfl⟩, rfl⟩
    · show silence.start = gap.start ∨ _
      rcases window.start with same | is_message
      · exact .inl (by omega)
      · exact .inr ((mem_messages spliced _).mpr is_message)
    · show silence.stop = gap.stop ∨ _
      rcases window.stop with same | is_message
      · exact .inl (by omega)
      · exact .inr ((mem_messages spliced _).mpr is_message)
    · intro t mem
      exact window.bounded.apart t ((mem_messages spliced t).mp mem)

omit [Zero τ] in
theorem measureResidual_ok {spliced : List (Row κ)} (hour : InHour hourStart spliced) :
    measureResidual seconds minGapSeconds gaps spliced =
      .ok (gaps.flatMap (residualOf seconds minGapSeconds (neighbours (stamps spliced)))) := by
  unfold measureResidual
  cases gaps with
  | nil => rfl
  | cons gap rest =>
    rw [messageTs_ok hour]
    rfl

/-- What the spliced hour still lacks of its gaps: the silences in it, and the same from the secondary's rows
    alone; with what was filled it makes up each gap. -/
theorem residual_exact (conversion : Conversion seconds) (nonneg : 0 ≤ minGapSeconds) {hourEnd : Int}
    {blind : List (Gap τ)}
    (parted : partitionGaps seconds minGapSeconds primary secondary hourStart hourEnd = .ok (gaps, blind)) :
    ∃ residual silences,
      measureResidual seconds minGapSeconds gaps (rowsOf (spliceBook primary secondary gaps)) = .ok residual ∧
      measureResidual seconds minGapSeconds gaps secondary = .ok residual ∧
      primarySilence seconds minGapSeconds (rowsOf (spliceBook primary secondary gaps)) hourStart hourEnd =
        .ok silences ∧
      residual.map Gap.span = (silences.filter fun w => gaps.any fun gap => gap.within w).map Gap.span ∧
      (residual.Pairwise fun a b => a.stop ≤ b.start) ∧
      (∀ w ∈ residual, w.start < w.stop ∧ (∃ gap ∈ gaps, gap.within w = true) ∧
        w.seconds = seconds w.width ∧ minGapSeconds < w.seconds ∧
        ∀ r ∈ rowsOf (spliceBook primary secondary gaps), ¬ (w.start < r.ts ∧ r.ts < w.stop)) ∧
      ∀ gap ∈ gaps, gap.width = ((residual.filter gap.within).map Gap.width).sum +
        filledWidth seconds minGapSeconds
          (neighbours (stamps (rowsOf (spliceBook primary secondary gaps)))) gap := by
  obtain ⟨aligned, rfl, primary_hour, secondary_hour⟩ := partitionGaps_valid parted
  obtain ⟨all, silences, same⟩ := partitionGaps_ok conversion nonneg aligned primary_hour secondary_hour
  obtain ⟨rfl, -⟩ := Prod.mk.inj (Except.ok.inj (parted.symm.trans same))
  have placed := placed_filter silences.placed (secondaryCovers secondary)
  have sub : ∀ gap ∈ all.filter (secondaryCovers secondary), gap ∈ all := fun gap mem =>
    List.mem_of_mem_filter mem
  have rows_are := mem_splice primary_hour.sorted secondary_hour.sorted placed
  have spliced_hour := splice_inHour primary_hour secondary_hour placed
  have keeps : ∀ t, MessageOf primary t →
      MessageOf (rowsOf (spliceBook primary secondary (all.filter (secondaryCovers secondary)))) t :=
    fun t ⟨r, row, same⟩ => ⟨r, (rows_are r).mpr (.inl row), same⟩
  have edges : ∀ gap ∈ all.filter (secondaryCovers secondary),
      hourStart ≤ gap.start ∧ gap.stop ≤ hourStart + hourMicros := by
    intro gap mem
    obtain ⟨at_start, at_stop⟩ := silences_edges silences (sub gap mem)
    constructor
    · rcases at_start with same | ⟨r, row, same⟩
      · omega
      · have low := (primary_hour.within r row).1
        omega
    · rcases at_stop with same | ⟨r, row, same⟩
      · omega
      · have high := (primary_hour.within r row).2
        omega
  have some_row : all.filter (secondaryCovers secondary) ≠ [] →
      rowsOf (spliceBook primary secondary (all.filter (secondaryCovers secondary))) ≠ [] := by
    intro some_gap
    obtain ⟨gap, rest, first⟩ := List.exists_cons_of_ne_nil some_gap
    have mem : gap ∈ all.filter (secondaryCovers secondary) := by
      rw [first]
      exact List.mem_cons_self
    obtain ⟨r, row, witness⟩ := List.any_eq_true.mp (List.mem_filter.mp mem).2
    have within := (Bool.and_eq_true_iff.mp witness).1
    exact List.ne_nil_of_mem ((rows_are r).mpr (.inr ⟨row, gap, mem, within⟩))
  obtain ⟨left, found, silent⟩ := primarySilence_ok conversion nonneg aligned spliced_hour
  have ascending : (neighbours (stamps (rowsOf (spliceBook primary secondary
      (all.filter (secondaryCovers secondary)))))).Pairwise (· < ·) :=
    neighbours_ascend (List.pairwise_map.mpr spliced_hour.sorted)
  have ascending' : (neighbours (stamps secondary)).Pairwise (· < ·) :=
    neighbours_ascend (List.pairwise_map.mpr secondary_hour.sorted)
  refine ⟨_, left, measureResidual_ok spliced_hour, ?_, found, ?_, ?_, ?_, ?_⟩
  · rw [measureResidual_ok secondary_hour]
    refine congrArg Except.ok (List.flatMap_congr fun gap mem => ?_)
    refine residualOf_congr conversion nonneg ascending' ascending (placed_bounded placed mem).ordered ?_
    intro t after before
    exact (splice_agrees primary_hour secondary_hour placed mem after before).symm
  · exact residual_silences conversion nonneg silences sub placed spliced_hour keeps edges some_row silent
  · exact (residual_apart conversion nonneg ascending placed).imp fun ⟨_, after⟩ => after
  · intro w mem
    obtain ⟨gap, there, window⟩ := (mem_residual conversion nonneg ascending placed).mp mem
    refine ⟨window.ordered, ⟨gap, there, decide_eq_true ⟨window.low, window.high⟩⟩, window.seconds,
      window.wide, ?_⟩
    intro r row
    exact window.apart r.ts ((mem_messages _ _).mpr ⟨r, row, rfl⟩)
  · intro gap mem
    rw [residual_within conversion nonneg ascending placed mem]
    exact (residualOf_width _ gap).symm

end

/-- The hour's one gap, from its first message to its last. -/
def hourGap : Gap ℚ := ⟨0, 3599000000, 3599, true, true⟩

theorem hourEdges_residual_exact : ∃ residual silences,
    measureResidual exactSeconds 30 [hourGap] (rowsOf (spliceBook hourEdges loneUpdate [hourGap])) =
      .ok residual ∧
    measureResidual exactSeconds 30 [hourGap] loneUpdate = .ok residual ∧
    primarySilence exactSeconds 30 (rowsOf (spliceBook hourEdges loneUpdate [hourGap])) 0 hourMicros =
      .ok silences ∧
    residual.map Gap.span = (silences.filter fun w => [hourGap].any fun gap => gap.within w).map Gap.span := by
  have parted : partitionGaps exactSeconds 30 hourEdges loneUpdate 0 hourMicros = .ok ([hourGap], []) := by
    decide +kernel
  obtain ⟨residual, silences, measured, alone, found, same, -⟩ :=
    residual_exact exact_conversion (by norm_num) parted
  exact ⟨residual, silences, measured, alone, found, same⟩

end Archive
