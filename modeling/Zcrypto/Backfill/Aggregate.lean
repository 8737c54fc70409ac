import Mathlib.Algebra.BigOperators.Ring.Finset
import Mathlib.Algebra.BigOperators.Ring.List
import Mathlib.Data.List.Dedup
import Mathlib.Tactic.Ring
import Zcrypto.Tick.Bars

/- Minute rows made into bars of one grid, and those bars made coarser as a tape's are: two ways to one bar,
   which part where a window has no volume. Instants of rows are in seconds, those of frames in microseconds,
   and numbers are exact; a price that is no number is none. -/
namespace Backfill
open Buckets Tick

structure MinuteRow where
  ts : Int
  open_ : ℚ
  high : ℚ
  low : ℚ
  close : ℚ
  volume : ℚ
  count : Int
  deriving DecidableEq, Repr

structure MinuteBar where
  ts : Int
  open_ : ℚ
  high : ℚ
  low : ℚ
  close : ℚ
  vwap : ℚ
  volume : ℚ
  count : Int
  deriving DecidableEq, Repr

def bucketTs (intervalSecs ts : Int) : Int := ts / intervalSecs * intervalSecs

/-- The bar of a bucket's rows, which stand by their instants. -/
def minuteBar (r : Run Int MinuteRow) : MinuteBar where
  ts := r.key
  open_ := r.first.open_
  high := (r.rest.map MinuteRow.high).foldl max r.first.high
  low := (r.rest.map MinuteRow.low).foldl min r.first.low
  close := r.last.close
  vwap :=
    if (r.rows.map MinuteRow.volume).sum = 0 then r.last.close
    else (r.rows.map fun row => row.close * row.volume).sum / (r.rows.map MinuteRow.volume).sum
  volume := (r.rows.map MinuteRow.volume).sum
  count := (r.rows.map MinuteRow.count).sum

/-- A bucket as its first row and the others, of which no bucket is without. -/
def bucketRun (bucket : Int) : List MinuteRow → Option (Run Int MinuteRow)
  | [] => none
  | first :: rest => some ⟨bucket, first, rest⟩

def aggregateMinutes (minuteRows : List MinuteRow) (intervalSecs : Int) : List MinuteBar :=
  if minuteRows = [] then []
  else
    let buckets := (minuteRows.map fun r => bucketTs intervalSecs r.ts).dedup
    (Keyed.arrange id buckets).filterMap fun bucket =>
      let rows := minuteRows.filter fun r => bucketTs intervalSecs r.ts = bucket
      (bucketRun bucket (Keyed.arrange MinuteRow.ts rows)).map minuteBar

/- Frames. -/

structure FrameBar where
  ts : Int
  open_ : ℚ
  high : ℚ
  low : ℚ
  close : ℚ
  volume : ℚ
  count : Int
  vwap : Option ℚ
  deriving DecidableEq, Repr

def MinuteBar.frame (b : MinuteBar) : FrameBar :=
  ⟨b.ts * 1000000, b.open_, b.high, b.low, b.close, b.volume, b.count, some b.vwap⟩

section
variable (sort : List FrameBar → List FrameBar)

def toFrame (rows : List MinuteBar) : Except String (List FrameBar) :=
  let frame := (sort (rows.map MinuteBar.frame)).dedup
  if (frame.Pairwise fun a b => a.ts ≤ b.ts) ∧ (frame.map FrameBar.ts).Nodup then .ok frame
  else .error "OHLC frame has non-monotonic or conflicting-duplicate timestamps"

/-- A sum of prices by volumes is no number where one of the prices is none. -/
def pvSum (rows : List FrameBar) : Option ℚ := (rows.mapM fun b : FrameBar => b.vwap.map fun p => p * b.volume).map List.sum

/-- Nothing divided by nothing is no number, nor is anything else divided by it. -/
def quotient (pv : Option ℚ) (volume : ℚ) : Option ℚ := if volume = 0 then none else pv.map fun p => p / volume

def derivedBar (r : Run Int FrameBar) : FrameBar where
  ts := r.key
  open_ := r.first.open_
  high := (r.rest.map FrameBar.high).foldl max r.first.high
  low := (r.rest.map FrameBar.low).foldl min r.first.low
  close := r.last.close
  volume := (r.rows.map FrameBar.volume).sum
  count := (r.rows.map FrameBar.count).sum
  vwap := quotient (pvSum r.rows) (r.rows.map FrameBar.volume).sum

def deriveBars (intervalMinutes : Int) (bars : List FrameBar) : List FrameBar :=
  if bars = [] then bars else (runs (fun b => bucket intervalMinutes b.ts) (sort bars)).map derivedBar

/-- A base frame on the grid that is asked for. -/
def readBase (interval : Int) (base : List FrameBar) : List FrameBar :=
  if interval ≠ baseIntervalMinutes then deriveBars sort interval base else base

end

/-- Every window of the grid that holds a row holds one with a volume. -/
def Traded (k : Int) (rows : List MinuteRow) : Prop :=
  ∀ r ∈ rows, ∃ s ∈ rows, bucketTs (60 * k) s.ts = bucketTs (60 * k) r.ts ∧ 0 < s.volume

instance (k : Int) (rows : List MinuteRow) : Decidable (Traded k rows) :=
  inferInstanceAs (Decidable (∀ r ∈ rows, ∃ s ∈ rows, _))

/-- What a minute's row says of its prices and its volume. -/
structure MinuteRow.Plain (r : MinuteRow) : Prop where
  volume : 0 ≤ r.volume
  low : r.low ≤ r.close
  high : r.close ≤ r.high

/-- A price that is a number and lies between the bar's low and its high. -/
def FrameBar.Priced (b : FrameBar) : Prop := ∃ p, b.vwap = some p ∧ b.low ≤ p ∧ p ≤ b.high

section
variable {rows : List MinuteRow} {r : Run Int MinuteRow} {s k j : Int}

/- The bar of a window. -/

theorem bucketTs_mono (pos : 0 < s) {t u : Int} (le : t ≤ u) : bucketTs s t ≤ bucketTs s u :=
  Int.mul_le_mul_of_nonneg_right (Int.ediv_le_ediv pos le) pos.le

/-- A bucket lies in one bucket of any coarser grid. -/
theorem bucketTs_bucketTs (pos : 0 < j) (divides : j ∣ k) (t : Int) : bucketTs k (bucketTs j t) = bucketTs k t := by
  obtain ⟨c, rfl⟩ := divides
  unfold bucketTs
  rw [Int.mul_comm (t / j) j, Int.mul_ediv_mul_of_pos _ _ pos, Int.ediv_ediv_of_nonneg pos.le]

theorem bucket_seconds (t : Int) : bucket k (t * 1000000) = bucketTs (60 * k) t * 1000000 := by
  unfold bucket bucketTs minuteMicros
  have same : k * (60 * 1000000) = 60 * k * 1000000 := by ring
  rw [same, Int.mul_ediv_mul_of_pos_left _ _ (by decide), ← mul_assoc]

theorem volume_nonneg (plain : ∀ row ∈ r.rows, row.Plain) : 0 ≤ (minuteBar r).volume := by
  refine List.sum_nonneg fun v mem => ?_
  obtain ⟨row, there, rfl⟩ := List.mem_map.mp mem
  exact (plain row there).volume

/-- A window has volume where a row of it has. -/
theorem volume_pos_iff (plain : ∀ row ∈ r.rows, row.Plain) :
    0 < (minuteBar r).volume ↔ ∃ row ∈ r.rows, 0 < row.volume := by
  constructor
  · intro positive
    by_contra none
    push Not at none
    have nothing : (minuteBar r).volume = 0 := by
      refine List.sum_eq_zero fun v mem => ?_
      obtain ⟨row, there, rfl⟩ := List.mem_map.mp mem
      exact le_antisymm (none row there) (plain row there).volume
    exact absurd nothing positive.ne'
  · rintro ⟨row, there, positive⟩
    have member : row.volume ≤ (minuteBar r).volume := by
      refine List.single_le_sum (fun v mem => ?_) _ (List.mem_map_of_mem there)
      obtain ⟨row', there', rfl⟩ := List.mem_map.mp mem
      exact (plain row' there').volume
    exact positive.trans_le member

/-- The volume-weighted price telescopes, in a window without volume too. -/
theorem minuteBar_weight (plain : ∀ row ∈ r.rows, row.Plain) :
    (minuteBar r).vwap * (minuteBar r).volume = (r.rows.map fun row => row.close * row.volume).sum := by
  by_cases none : (minuteBar r).volume = 0
  · have still : ∀ row ∈ r.rows, row.volume = 0 := by
      intro row there
      by_contra some_
      have positive := lt_of_le_of_ne (plain row there).volume (Ne.symm some_)
      exact absurd none ((volume_pos_iff plain).mpr ⟨row, there, positive⟩).ne'
    have nothing : (r.rows.map fun row => row.close * row.volume).sum = 0 := by
      refine List.sum_eq_zero fun v mem => ?_
      obtain ⟨row, there, rfl⟩ := List.mem_map.mp mem
      rw [still row there, mul_zero]
    rw [none, mul_zero, nothing]
  · have price : (minuteBar r).vwap =
        (r.rows.map fun row => row.close * row.volume).sum / (minuteBar r).volume := if_neg none
    rw [price, div_mul_cancel₀ _ none]

theorem minuteBar_high {row : MinuteRow} (mem : row ∈ r.rows) : row.high ≤ (minuteBar r).high := by
  have top : (r.rows.map MinuteRow.high).max? = some (minuteBar r).high := rfl
  exact (List.max?_eq_some_iff.mp top).2 _ (List.mem_map_of_mem mem)

theorem minuteBar_low {row : MinuteRow} (mem : row ∈ r.rows) : (minuteBar r).low ≤ row.low := by
  have bottom : (r.rows.map MinuteRow.low).min? = some (minuteBar r).low := rfl
  exact (List.min?_eq_some_iff.mp bottom).2 _ (List.mem_map_of_mem mem)

/-- The price of a window is one between its low and its high, its close where there is no volume. -/
theorem minuteBar_priced (plain : ∀ row ∈ r.rows, row.Plain) : (minuteBar r).frame.Priced := by
  refine ⟨(minuteBar r).vwap, rfl, ?_⟩
  have least : ∀ row ∈ r.rows, (minuteBar r).low ≤ row.close := fun row there =>
    (minuteBar_low there).trans (plain row there).low
  have most : ∀ row ∈ r.rows, row.close ≤ (minuteBar r).high := fun row there =>
    (plain row there).high.trans (minuteBar_high there)
  by_cases none : (minuteBar r).volume = 0
  · have price : (minuteBar r).vwap = r.last.close := if_pos none
    have last : r.last ∈ r.rows := List.getLast_mem _
    rw [price]
    exact ⟨least _ last, most _ last⟩
  · have positive := lt_of_le_of_ne (volume_nonneg plain) (Ne.symm none)
    have weight := minuteBar_weight plain
    constructor
    · refine le_of_mul_le_mul_right ?_ positive
      calc (minuteBar r).low * (minuteBar r).volume
          = (r.rows.map fun row => (minuteBar r).low * row.volume).sum := (List.sum_map_mul_left _ _ _).symm
        _ ≤ (r.rows.map fun row => row.close * row.volume).sum := List.sum_le_sum fun row there =>
            mul_le_mul_of_nonneg_right (least row there) (plain row there).volume
        _ = (minuteBar r).vwap * (minuteBar r).volume := weight.symm
    · refine le_of_mul_le_mul_right ?_ positive
      calc (minuteBar r).vwap * (minuteBar r).volume
          = (r.rows.map fun row => row.close * row.volume).sum := weight
        _ ≤ (r.rows.map fun row => (minuteBar r).high * row.volume).sum := List.sum_le_sum fun row there =>
            mul_le_mul_of_nonneg_right (most row there) (plain row there).volume
        _ = (minuteBar r).high * (minuteBar r).volume := List.sum_map_mul_left _ _ _

/- The bars of a grid. -/

/-- The rows by their instants, cut into the windows of a grid. -/
def windows (s : Int) (rows : List MinuteRow) : List (Run Int MinuteRow) :=
  runs (fun row => bucketTs s row.ts) (Keyed.arrange MinuteRow.ts rows)

theorem windows_row {w : Run Int MinuteRow} (mem : w ∈ windows s rows) {row : MinuteRow} (there : row ∈ w.rows) :
    row ∈ rows := by
  have all : row ∈ (windows s rows).flatMap Run.rows := List.mem_flatMap.mpr ⟨w, mem, there⟩
  unfold windows at all
  rw [runs_rows] at all
  exact Keyed.mem_arrange.mp all

theorem bucketTs_ordered (pos : 0 < s) (distinct : Keyed.Distinct MinuteRow.ts rows) :
    (Keyed.arrange MinuteRow.ts rows).Pairwise fun a b => bucketTs s a.ts ≤ bucketTs s b.ts :=
  distinct.ascending.imp fun less => bucketTs_mono pos less.le

/-- The buckets that are filled row by row are the windows. -/
theorem aggregateMinutes_windows (pos : 0 < s) (distinct : Keyed.Distinct MinuteRow.ts rows) :
    aggregateMinutes rows s = (windows s rows).map minuteBar := by
  have ordered := bucketTs_ordered pos distinct
  have buckets : Keyed.arrange id (rows.map fun r => bucketTs s r.ts).dedup = (windows s rows).map Run.key := by
    have ascending : Keyed.Ascending id ((windows s rows).map Run.key) :=
      List.pairwise_map.mpr (runs_ascend ordered)
    refine ascending.arranges ((List.perm_ext_iff_of_nodup (List.nodup_dedup _) ?_).mpr fun key => ?_)
    · exact ascending.imp fun less => ne_of_lt less
    · rw [List.mem_dedup, List.mem_map, List.mem_map]
      constructor
      · rintro ⟨row, there, rfl⟩
        have arranged : row ∈ Keyed.arrange MinuteRow.ts rows := Keyed.mem_arrange.mpr there
        obtain ⟨w, mem, key, -⟩ := exists_run (fun row : MinuteRow => bucketTs s row.ts) arranged
        exact ⟨w, mem, key⟩
      · rintro ⟨w, mem, rfl⟩
        exact ⟨w.first, windows_row mem List.mem_cons_self, runs_key mem _ List.mem_cons_self⟩
  have bucketRows : ∀ w ∈ windows s rows,
      bucketRun w.key (Keyed.arrange MinuteRow.ts (rows.filter fun r => bucketTs s r.ts = w.key)) = some w := by
    intro w mem
    have same := (List.perm_insertionSort (fun a b : MinuteRow => a.ts ≤ b.ts) rows).symm.filter
      fun r => bucketTs s r.ts = w.key
    have ascending : Keyed.Ascending MinuteRow.ts
        ((Keyed.arrange MinuteRow.ts rows).filter fun r => bucketTs s r.ts = w.key) := distinct.ascending.filter _
    rw [ascending.arranges same, runs_filter ordered mem]
    rfl
  unfold aggregateMinutes
  split
  · rename_i none
    rw [none]
    rfl
  · simp only [buckets]
    rw [List.filterMap_map, ← List.filterMap_eq_map]
    refine List.filterMap_congr fun w mem => ?_
    simp only [Function.comp_apply, bucketRows w mem, Option.map_some]

theorem frames_ascend (pos : 0 < s) (distinct : Keyed.Distinct MinuteRow.ts rows) :
    ((windows s rows).map fun w => (minuteBar w).frame).Pairwise fun a b => a.ts < b.ts := by
  rw [List.pairwise_map]
  refine (runs_ascend (bucketTs_ordered pos distinct)).imp fun {v w} less => ?_
  show v.key * 1000000 < w.key * 1000000
  omega

theorem toFrame_windows {sort : List FrameBar → List FrameBar} (sorts : SortsByTs FrameBar.ts sort) (pos : 0 < s)
    (distinct : Keyed.Distinct MinuteRow.ts rows) : toFrame sort (aggregateMinutes rows s) =
      .ok ((windows s rows).map fun w => (minuteBar w).frame) := by
  have ascending := frames_ascend pos distinct
  have apart : (((windows s rows).map fun w => (minuteBar w).frame).map FrameBar.ts).Nodup :=
    List.pairwise_map.mpr (ascending.imp fun less => ne_of_lt less)
  unfold toFrame
  rw [aggregateMinutes_windows pos distinct, List.map_map]
  simp only [Function.comp_def]
  rw [sorts.same ascending, List.Nodup.dedup (List.Nodup.of_map _ apart)]
  exact if_pos ⟨ascending.imp fun less => less.le, apart⟩

theorem traded_iff (pos : 0 < k) (distinct : Keyed.Distinct MinuteRow.ts rows) (plain : ∀ row ∈ rows, row.Plain) :
    Traded k rows ↔ ∀ w ∈ windows (60 * k) rows, 0 < (minuteBar w).volume := by
  have wide : 0 < 60 * k := by omega
  constructor
  · intro traded w mem
    obtain ⟨row, there, same, positive⟩ := traded w.first (windows_row mem List.mem_cons_self)
    have key := same.trans (runs_key mem w.first List.mem_cons_self)
    have inside : row ∈ w.rows := by
      rw [← runs_filter (bucketTs_ordered wide distinct) mem, List.mem_filter]
      exact ⟨Keyed.mem_arrange.mpr there, by simpa using key⟩
    exact (volume_pos_iff fun row' there' => plain row' (windows_row mem there')).mpr ⟨row, inside, positive⟩
  · intro positive r there
    have arranged : r ∈ Keyed.arrange MinuteRow.ts rows := Keyed.mem_arrange.mpr there
    obtain ⟨w, mem, key, -⟩ := exists_run (fun row : MinuteRow => bucketTs (60 * k) row.ts) arranged
    obtain ⟨row, inside, some_⟩ :=
      (volume_pos_iff fun row' there' => plain row' (windows_row mem there')).mp (positive w mem)
    exact ⟨row, windows_row mem inside, (runs_key mem row inside).trans key, some_⟩

/- Bars made coarser. -/

theorem mapM_some {α β : Type} (f : α → β) (l : List α) : (l.mapM fun x => some (f x)) = some (l.map f) := by
  induction l with
  | nil => rfl
  | cons x l ih => rw [List.mapM_cons, ih]; rfl

/-- A bar of the tape in a frame. -/
def tapeFrame (b : Bar) : FrameBar := ⟨b.ts, b.open_, b.high, b.low, b.close, b.volume, b.count, some b.vwap⟩

/-- Where every bar has a volume, a bar is derived as it is of the tape's own. -/
theorem derivedBar_tape {r : Run Int Bar} (positive : ∀ b ∈ r.rows, 0 < b.volume) :
    derivedBar (r.map tapeFrame) = tapeFrame (coarseBar r) := by
  have some_ : (r.rows.map Bar.volume).sum ≠ 0 := by
    refine (List.sum_pos _ (fun v mem => ?_) (by simp [Run.rows])).ne'
    obtain ⟨b, there, rfl⟩ := List.mem_map.mp mem
    exact positive b there
  have volume : ((r.map tapeFrame).rows.map FrameBar.volume).sum = (r.rows.map Bar.volume).sum := by
    rw [Run.map_rows, List.map_map]
    rfl
  have count : ((r.map tapeFrame).rows.map FrameBar.count).sum = ((r.rows.map Bar.count).sum : Int) := by
    rw [Run.map_rows, List.map_map, Nat.cast_list_sum, List.map_map]
    rfl
  have close : (r.map tapeFrame).last.close = r.last.close := by
    rw [Run.map_last]
    rfl
  have price : quotient (pvSum (r.map tapeFrame).rows) ((r.map tapeFrame).rows.map FrameBar.volume).sum =
      some (coarseBar r).vwap := by
    unfold pvSum quotient
    rw [volume, if_neg some_, Run.map_rows, List.mapM_map]
    exact congrArg (Option.map fun p => p / _) (congrArg (Option.map List.sum) (mapM_some _ _))
  have high : (derivedBar (r.map tapeFrame)).high = (coarseBar r).high := congrArg (List.foldl max _) (List.map_map ..)
  have low : (derivedBar (r.map tapeFrame)).low = (coarseBar r).low := congrArg (List.foldl min _) (List.map_map ..)
  unfold derivedBar at *
  unfold tapeFrame
  rw [FrameBar.mk.injEq]
  exact ⟨rfl, rfl, high, low, close, volume, count, price⟩

/-- A window of base windows as their bars say it. -/
def stamped (R : Run Int (Run Int MinuteRow)) : Run Int FrameBar :=
  (R.map fun w => (minuteBar w).frame).rekey fun t => t * 1000000

/-- A bar derived of base bars is that of their rows, but for the price where there is no volume. -/
theorem derivedBar_stamped {R : Run Int (Run Int MinuteRow)} (plain : ∀ row ∈ R.flat.rows, row.Plain) :
    derivedBar (stamped R) = { (minuteBar R.flat).frame with
      vwap := if (minuteBar R.flat).volume = 0 then none else some (minuteBar R.flat).vwap } := by
  have volume : ((stamped R).rows.map FrameBar.volume).sum = (R.flat.rows.map MinuteRow.volume).sum := by
    rw [Run.flat_rows, sum_flat]
    unfold stamped
    rw [Run.rekey_rows, Run.map_rows, List.map_map]
    rfl
  have count : ((stamped R).rows.map FrameBar.count).sum = (R.flat.rows.map MinuteRow.count).sum := by
    rw [Run.flat_rows, sum_flat]
    unfold stamped
    rw [Run.rekey_rows, Run.map_rows, List.map_map]
    rfl
  have close : (stamped R).last.close = R.flat.last.close := by
    unfold stamped
    rw [Run.rekey_last, Run.map_last, Run.flat_last]
    rfl
  have weight : pvSum (stamped R).rows = some (R.flat.rows.map fun row => row.close * row.volume).sum := by
    have each : ∀ w ∈ R.rows, (minuteBar w).vwap * (minuteBar w).volume =
        (w.rows.map fun row => row.close * row.volume).sum := fun w mem =>
      minuteBar_weight fun row there => plain row (List.mem_flatMap.mpr ⟨w, mem, there⟩)
    have known : pvSum (stamped R).rows =
        some (R.rows.map fun w => (minuteBar w).vwap * (minuteBar w).volume).sum := by
      unfold pvSum stamped
      rw [Run.rekey_rows, Run.map_rows, List.mapM_map]
      exact congrArg (Option.map List.sum) (mapM_some _ _)
    rw [known, List.map_congr_left each, Run.flat_rows, sum_flat]
  have price : quotient (pvSum (stamped R).rows) ((stamped R).rows.map FrameBar.volume).sum =
      if (minuteBar R.flat).volume = 0 then none else some (minuteBar R.flat).vwap := by
    rw [weight, volume]
    unfold quotient
    by_cases none : (R.flat.rows.map MinuteRow.volume).sum = 0
    · rw [if_pos none]
      exact (if_pos none).symm
    · have mean : (minuteBar R.flat).vwap = _ := if_neg none
      rw [if_neg none, mean]
      exact (if_neg none).symm
  have high : (derivedBar (stamped R)).high = (minuteBar R.flat).high :=
    (congrArg (List.foldl max _) (List.map_map ..)).trans (Run.fold_flat (fun w => rfl) R)
  have low : (derivedBar (stamped R)).low = (minuteBar R.flat).low :=
    (congrArg (List.foldl min _) (List.map_map ..)).trans (Run.fold_flat (fun w => rfl) R)
  unfold derivedBar at *
  rw [FrameBar.mk.injEq]
  exact ⟨rfl, rfl, high, low, close, volume, count, price⟩

theorem derivedBar_traded {R : Run Int (Run Int MinuteRow)} (plain : ∀ row ∈ R.flat.rows, row.Plain)
    (positive : 0 < (minuteBar R.flat).volume) : derivedBar (stamped R) = (minuteBar R.flat).frame := by
  rw [derivedBar_stamped plain, if_neg positive.ne']
  rfl

theorem derivedBar_still {R : Run Int (Run Int MinuteRow)} (plain : ∀ row ∈ R.flat.rows, row.Plain)
    (still : ¬ 0 < (minuteBar R.flat).volume) : (derivedBar (stamped R)).vwap = none := by
  have nothing : (minuteBar R.flat).volume = 0 := le_antisymm (not_lt.mp still) (volume_nonneg plain)
  rw [derivedBar_stamped plain, if_pos nothing]

/-- The derived bar is the window's own where there is volume, and only there. -/
theorem derivedBar_frame_iff {R : Run Int (Run Int MinuteRow)} (plain : ∀ row ∈ R.flat.rows, row.Plain) :
    derivedBar (stamped R) = (minuteBar R.flat).frame ↔ 0 < (minuteBar R.flat).volume := by
  constructor
  · intro same
    by_contra still
    have none := derivedBar_still plain still
    rw [same] at none
    cases none
  · exact derivedBar_traded plain

theorem derivedBar_priced_iff {R : Run Int (Run Int MinuteRow)} (plain : ∀ row ∈ R.flat.rows, row.Plain) :
    (derivedBar (stamped R)).Priced ↔ 0 < (minuteBar R.flat).volume := by
  constructor
  · rintro ⟨p, price, -⟩
    by_contra still
    rw [derivedBar_still plain still] at price
    cases price
  · intro positive
    rw [derivedBar_traded plain positive]
    exact minuteBar_priced plain

theorem windows_coarse (divides : 15 ∣ k) (rows : List MinuteRow) : windows (60 * k) rows =
    (runs (fun w => bucketTs (60 * k) w.key) (windows 900 rows)).map Run.flat := by
  have base : (900 : Int) ∣ 60 * k := by
    obtain ⟨c, rfl⟩ := divides
    exact ⟨c, by ring⟩
  have key : (fun row : MinuteRow => bucketTs (60 * k) row.ts) =
      fun row => bucketTs (60 * k) (bucketTs 900 row.ts) :=
    funext fun row => (bucketTs_bucketTs (by decide) base row.ts).symm
  unfold windows
  rw [key]
  exact (runs_runs (bucketTs (60 * k)) (fun row : MinuteRow => bucketTs 900 row.ts) _).symm

theorem deriveBars_windows {sort : List FrameBar → List FrameBar} (sorts : SortsByTs FrameBar.ts sort)
    (distinct : Keyed.Distinct MinuteRow.ts rows) :
    deriveBars sort k ((windows 900 rows).map fun w => (minuteBar w).frame) =
      (runs (fun w => bucketTs (60 * k) w.key) (windows 900 rows)).map fun R => derivedBar (stamped R) := by
  have key : (fun w : Run Int MinuteRow => bucket k (minuteBar w).frame.ts) =
      fun w => bucketTs (60 * k) w.key * 1000000 := funext fun w => bucket_seconds w.key
  have once : Function.Injective fun t : Int => t * 1000000 := fun t u same => by
    simp only at same
    omega
  unfold deriveBars
  split
  · rename_i none
    rw [List.map_eq_nil_iff.mp none]
    rfl
  · rw [sorts.same (frames_ascend (by decide) distinct), runs_map, key,
      runs_rekey once (fun w : Run Int MinuteRow => bucketTs (60 * k) w.key), List.map_map, List.map_map]
    rfl

/-- The two ways to a coarse grid agree, and its prices are numbers in their range, where every window of it
    that holds a row has a volume, and nowhere else. -/
theorem aggregators_agree {sort : List FrameBar → List FrameBar} (sorts : SortsByTs FrameBar.ts sort)
    {rows : List MinuteRow} (distinct : Keyed.Distinct MinuteRow.ts rows) (plain : ∀ row ∈ rows, row.Plain) {k : Int}
    (pos : 0 < k) (divides : 15 ∣ k) :
    ∃ base coarse, toFrame sort (aggregateMinutes rows 900) = .ok base ∧
      toFrame sort (aggregateMinutes rows (60 * k)) = .ok coarse ∧
      (deriveBars sort k base = coarse ↔ Traded k rows) ∧
      ((∀ b ∈ deriveBars sort k base, b.Priced) ↔ Traded k rows) ∧
      ((∀ b ∈ readBase sort k base, b.Priced) ↔ k = baseIntervalMinutes ∨ Traded k rows) := by
  have wide : 0 < 60 * k := by omega
  have inside : ∀ R ∈ runs (fun w => bucketTs (60 * k) w.key) (windows 900 rows), ∀ row ∈ R.flat.rows, row.Plain := by
    intro R mem row there
    have window : R.flat ∈ windows (60 * k) rows := by
      rw [windows_coarse divides]
      exact List.mem_map_of_mem mem
    exact plain row (windows_row window there)
  have traded : Traded k rows ↔ ∀ R ∈ runs (fun w => bucketTs (60 * k) w.key) (windows 900 rows),
      0 < (minuteBar R.flat).volume := by
    rw [traded_iff pos distinct plain, windows_coarse divides, List.forall_mem_map]
  have priced : (∀ b ∈ deriveBars sort k ((windows 900 rows).map fun w => (minuteBar w).frame), b.Priced) ↔
      Traded k rows := by
    rw [deriveBars_windows sorts distinct, List.forall_mem_map, traded]
    exact forall₂_congr fun R mem => derivedBar_priced_iff (inside R mem)
  refine ⟨_, _, toFrame_windows sorts (by decide) distinct, toFrame_windows sorts wide distinct, ?_, priced, ?_⟩
  · rw [deriveBars_windows sorts distinct, windows_coarse divides, List.map_map, List.map_inj_left, traded]
    exact forall₂_congr fun R mem => derivedBar_frame_iff (inside R mem)
  · unfold readBase
    split
    · rename_i coarser
      rw [priced, or_iff_right coarser]
    · rename_i own
      refine iff_of_true (fun b mem => ?_) (.inl (not_not.mp own))
      obtain ⟨w, there, rfl⟩ := List.mem_map.mp mem
      exact minuteBar_priced fun row row_there => plain row (windows_row there row_there)

end

/-- Three minutes of two hours, the first of each hour without volume. -/
def twoHours : List MinuteRow :=
  [⟨3600, 11, 11, 11, 11, 0, 0⟩, ⟨0, 10, 12, 9, 10, 2, 1⟩, ⟨4500, 12, 14, 12, 13, 3, 2⟩]

instance (r : MinuteRow) : Decidable r.Plain :=
  decidable_of_iff (0 ≤ r.volume ∧ r.low ≤ r.close ∧ r.close ≤ r.high)
    ⟨fun h => ⟨h.1, h.2.1, h.2.2⟩, fun h => ⟨h.volume, h.low, h.high⟩⟩

theorem twoHours_agree : ∃ base coarse,
    toFrame (Keyed.arrange FrameBar.ts) (aggregateMinutes twoHours 900) = .ok base ∧
    toFrame (Keyed.arrange FrameBar.ts) (aggregateMinutes twoHours 3600) = .ok coarse ∧
    deriveBars (Keyed.arrange FrameBar.ts) 60 base = coarse ∧
    ∀ b ∈ deriveBars (Keyed.arrange FrameBar.ts) 60 base, b.Priced := by
  have distinct : Keyed.Distinct MinuteRow.ts twoHours := by decide
  have plain : ∀ row ∈ twoHours, row.Plain := by decide +kernel
  have quarters : (15 : Int) ∣ 60 := by decide
  obtain ⟨base, coarse, fine, hours, same, priced, -⟩ :=
    aggregators_agree (arrange_sorts FrameBar.ts) distinct plain (by decide) quarters
  have traded : Traded 60 twoHours := by decide +kernel
  exact ⟨base, coarse, fine, hours, same.mpr traded, priced.mpr traded⟩

/-- One minute without volume. -/
def stillHour : List MinuteRow := [⟨0, 100, 100, 100, 100, 0, 0⟩]

/-- An hour without volume is priced at its close one way and has no price the other. -/
theorem stillHour_splits : Keyed.Distinct MinuteRow.ts stillHour ∧ (∀ row ∈ stillHour, row.Plain) ∧
    toFrame (Keyed.arrange FrameBar.ts) (aggregateMinutes stillHour 900) =
      .ok [⟨0, 100, 100, 100, 100, 0, 0, some 100⟩] ∧
    toFrame (Keyed.arrange FrameBar.ts) (aggregateMinutes stillHour 3600) =
      .ok [⟨0, 100, 100, 100, 100, 0, 0, some 100⟩] ∧
    deriveBars (Keyed.arrange FrameBar.ts) 60 [⟨0, 100, 100, 100, 100, 0, 0, some 100⟩] =
      [⟨0, 100, 100, 100, 100, 0, 0, none⟩] := by
  decide +kernel

end Backfill
