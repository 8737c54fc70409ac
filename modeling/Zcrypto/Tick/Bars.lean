import Mathlib.Algebra.BigOperators.Group.List.Basic
import Mathlib.Algebra.Order.BigOperators.Group.List
import Mathlib.Algebra.Order.Field.Rat
import Mathlib.Tactic.Linarith
import Zcrypto.Buckets
import Zcrypto.Keyed

/- Bars of trades and the coarser bars of bars: in buckets from the epoch on, closed on the left, and none
   for a bucket without trades. Instants are in microseconds and numbers are exact. -/
namespace Tick
open Buckets

structure Print where
  ts : Int
  price : ℚ
  volume : ℚ
  deriving DecidableEq, Repr

structure Bar where
  ts : Int
  open_ : ℚ
  high : ℚ
  low : ℚ
  close : ℚ
  volume : ℚ
  count : Nat
  vwap : ℚ
  deriving DecidableEq, Repr

def minuteMicros : Int := 60 * 1000000

def baseIntervalMinutes : Int := 15

/-- The start of the bucket that an instant is in. -/
def bucket (intervalMinutes ts : Int) : Int :=
  ts / (intervalMinutes * minuteMicros) * (intervalMinutes * minuteMicros)

def barOf (r : Run Int Print) : Bar where
  ts := r.key
  open_ := r.first.price
  high := (r.rest.map Print.price).foldl max r.first.price
  low := (r.rest.map Print.price).foldl min r.first.price
  close := r.last.price
  volume := (r.rows.map Print.volume).sum
  count := r.rows.length
  vwap := (r.rows.map fun p => p.price * p.volume).sum / (r.rows.map Print.volume).sum

def coarseBar (r : Run Int Bar) : Bar where
  ts := r.key
  open_ := r.first.open_
  high := (r.rest.map Bar.high).foldl max r.first.high
  low := (r.rest.map Bar.low).foldl min r.first.low
  close := r.last.close
  volume := (r.rows.map Bar.volume).sum
  count := (r.rows.map Bar.count).sum
  vwap := (r.rows.map fun b => b.vwap * b.volume).sum / (r.rows.map Bar.volume).sum

def ticksToBars (sort : List Print → List Print) (intervalMinutes : Int) (df : List Print) : List Bar :=
  if df = [] then [] else (runs (fun p => bucket intervalMinutes p.ts) (sort df)).map barOf

section
variable (sort : List Bar → List Bar)

def deriveBars (intervalMinutes : Int) (bars : List Bar) : List Bar :=
  if bars = [] then bars else (runs (fun b => bucket intervalMinutes b.ts) (sort bars)).map coarseBar

/-- The files' bars one after another, on the grid that is asked for. -/
def readGrid (interval : Int) (frames : List (List Bar)) : List Bar :=
  if interval ≠ baseIntervalMinutes then deriveBars sort interval frames.flatten else frames.flatten

end

/-- What a sort by the instant is known to do: the rows in order, those of one instant in any. -/
structure SortsByTs {α : Type} (ts : α → Int) (sort : List α → List α) : Prop where
  perm : ∀ l, (sort l).Perm l
  ordered : ∀ l, (sort l).Pairwise fun a b => ts a ≤ ts b

/-- A trade as a bar of its own. -/
def Print.bar (p : Print) : Bar := ⟨p.ts, p.price, p.price, p.price, p.price, p.volume, 1, p.price⟩

/-- Bars in order made coarser. -/
def grouped (intervalMinutes : Int) (bars : List Bar) : List Bar :=
  (runs (fun b => bucket intervalMinutes b.ts) bars).map coarseBar

section
variable {α : Type} {ts : α → Int} {sort : List α → List α} {l : List α} {j k t u : Int} {bars : List Bar}

theorem SortsByTs.nil (sorts : SortsByTs ts sort) : sort [] = [] := (sorts.perm []).eq_nil

/-- Rows of which no two share an instant stand in one order alone. -/
theorem SortsByTs.same (sorts : SortsByTs ts sort) (ascending : l.Pairwise fun a b => ts a < ts b) : sort l = l := by
  refine List.Perm.eq_of_pairwise ?_ (sorts.ordered l) (ascending.imp fun less => le_of_lt less) (sorts.perm l)
  intro a b memA memB le ge
  have there := (sorts.perm l).mem_iff.mp memA
  have distinct : (l.map ts).Nodup := List.pairwise_map.mpr (ascending.imp fun less => ne_of_lt less)
  exact List.inj_on_of_nodup_map distinct there memB (le_antisymm le ge)

/- Buckets. -/

theorem bucket_mono (pos : 0 < k) (le : t ≤ u) : bucket k t ≤ bucket k u := by
  unfold bucket minuteMicros
  have wide : 0 < k * (60 * 1000000) := by omega
  exact Int.mul_le_mul_of_nonneg_right (Int.ediv_le_ediv wide le) wide.le

/-- A bucket lies in one bucket of any coarser grid. -/
theorem bucket_bucket (pos : 0 < j) (divides : j ∣ k) (t : Int) : bucket k (bucket j t) = bucket k t := by
  obtain ⟨c, rfl⟩ := divides
  unfold bucket minuteMicros
  have wide : 0 < j * (60 * 1000000) := by omega
  rw [Int.mul_right_comm j c, Int.mul_comm (t / (j * (60 * 1000000))) (j * (60 * 1000000)), Int.mul_ediv_mul_of_pos _ _ wide,
    Int.ediv_ediv_of_nonneg wide.le]

/- Runs of bars. -/

/-- The volume-weighted price telescopes: what a bar's price and volume make is what its trades make. -/
theorem coarseBar_weight {r : Run Int Bar} (positive : ∀ b ∈ r.rows, 0 < b.volume) :
    (coarseBar r).vwap * (coarseBar r).volume = (r.rows.map fun b => b.vwap * b.volume).sum := by
  have some_ : 0 < (r.rows.map Bar.volume).sum := by
    refine List.sum_pos _ (fun v mem => ?_) (by simp [Run.rows])
    obtain ⟨b, there, rfl⟩ := List.mem_map.mp mem
    exact positive b there
  exact div_mul_cancel₀ _ some_.ne'

theorem coarseBar_flat {R : Run Int (Run Int Bar)} (positive : ∀ r ∈ R.rows, ∀ b ∈ r.rows, 0 < b.volume) :
    coarseBar (R.map coarseBar) = coarseBar R.flat := by
  have volume : ((R.map coarseBar).rows.map Bar.volume).sum = (R.flat.rows.map Bar.volume).sum := by
    rw [Run.flat_rows, sum_flat, Run.map_rows, List.map_map]
    rfl
  have count : ((R.map coarseBar).rows.map Bar.count).sum = (R.flat.rows.map Bar.count).sum := by
    rw [Run.flat_rows, sum_flat, Run.map_rows, List.map_map]
    rfl
  have weight : ((R.map coarseBar).rows.map fun b => b.vwap * b.volume).sum =
      (R.flat.rows.map fun b => b.vwap * b.volume).sum := by
    rw [Run.flat_rows, sum_flat, Run.map_rows, List.map_map]
    exact congrArg List.sum (List.map_congr_left fun r mem => coarseBar_weight (positive r mem))
  have close : (R.map coarseBar).last.close = R.flat.last.close := by
    rw [Run.map_last, Run.flat_last]
    rfl
  have high : (coarseBar (R.map coarseBar)).high = (coarseBar R.flat).high :=
    (congrArg (List.foldl max _) (List.map_map ..)).trans (Run.fold_flat (fun r => rfl) R)
  have low : (coarseBar (R.map coarseBar)).low = (coarseBar R.flat).low :=
    (congrArg (List.foldl min _) (List.map_map ..)).trans (Run.fold_flat (fun r => rfl) R)
  unfold coarseBar at *
  rw [Bar.mk.injEq]
  exact ⟨rfl, rfl, high, low, close, volume, count, by rw [weight, volume]⟩

theorem coarseBar_bar (r : Run Int Print) : coarseBar (r.map Print.bar) = barOf r := by
  have last : (r.map Print.bar).last.close = r.last.price := by
    rw [Run.map_last]
    rfl
  have volume : ((r.map Print.bar).rows.map Bar.volume).sum = (r.rows.map Print.volume).sum := by
    rw [Run.map_rows, List.map_map]
    rfl
  have count : ((r.map Print.bar).rows.map Bar.count).sum = r.rows.length := by
    rw [Run.map_rows, List.map_map]
    show (r.rows.map fun _ => 1).sum = _
    simp
  have weight : ((r.map Print.bar).rows.map fun b => b.vwap * b.volume).sum =
      (r.rows.map fun p => p.price * p.volume).sum := by
    rw [Run.map_rows, List.map_map]
    rfl
  have extreme : ∀ (op : ℚ → ℚ → ℚ) (f : Bar → ℚ) (_ : ∀ p : Print, f p.bar = p.price),
      ((r.map Print.bar).rest.map f).foldl op r.first.price = (r.rest.map Print.price).foldl op r.first.price := by
    intro op f each
    unfold Run.map
    rw [List.map_map]
    exact congrArg (List.foldl op _) (List.map_congr_left fun p _ => each p)
  unfold coarseBar barOf
  rw [Bar.mk.injEq]
  exact ⟨rfl, rfl, extreme max Bar.high fun p => rfl, extreme min Bar.low fun p => rfl, last, volume, count,
    by rw [weight, volume]⟩

/- Grids. -/

theorem grouped_nil (k : Int) : grouped k [] = [] := rfl

theorem ticksToBars_grouped {sort : List Print → List Print} (sorts : SortsByTs Print.ts sort) (k : Int)
    (df : List Print) : ticksToBars sort k df = grouped k ((sort df).map Print.bar) := by
  have all : (runs (fun p => bucket k p.ts) (sort df)).map barOf = grouped k ((sort df).map Print.bar) := by
    unfold grouped
    rw [runs_map, List.map_map]
    exact List.map_congr_left fun r _ => (coarseBar_bar r).symm
  unfold ticksToBars
  split
  · rename_i none
    rw [none, sorts.nil]
    rfl
  · exact all

theorem deriveBars_grouped {sort : List Bar → List Bar} (sorts : SortsByTs Bar.ts sort) (k : Int)
    (bars : List Bar) : deriveBars sort k bars = grouped k (sort bars) := by
  unfold deriveBars
  split
  · rename_i none
    rw [none, sorts.nil]
    rfl
  · rfl

theorem grouped_ascend (pos : 0 < k) (ordered : bars.Pairwise fun a b => a.ts ≤ b.ts) :
    (grouped k bars).Pairwise fun a b => a.ts < b.ts := by
  unfold grouped
  rw [List.pairwise_map]
  exact runs_ascend (ordered.imp fun le => bucket_mono pos le)

/-- Bars made coarser twice are made coarser once. -/
theorem grouped_grouped (pos : 0 < j) (divides : j ∣ k) (positive : ∀ b ∈ bars, 0 < b.volume) :
    grouped k (grouped j bars) = grouped k bars := by
  have key : (fun b : Bar => bucket k (bucket j b.ts)) = fun b => bucket k b.ts :=
    funext fun b => bucket_bucket pos divides b.ts
  unfold grouped
  rw [runs_map, List.map_map, ← key, ← runs_runs (bucket k) (fun b : Bar => bucket j b.ts), List.map_map]
  refine List.map_congr_left fun R mem => coarseBar_flat fun r row b there => positive b ?_
  rw [← runs_rows (fun b : Bar => bucket j b.ts) bars]
  refine List.mem_flatMap.mpr ⟨r, ?_, there⟩
  rw [← runs_rows (fun r : Run Int Bar => bucket k r.key) (runs (fun b : Bar => bucket j b.ts) bars)]
  exact List.mem_flatMap.mpr ⟨R, mem, row⟩

/- Files of days. -/

/-- Each file's trades are on days before the next one's. -/
def DaysApart (files : List (List Print)) : Prop :=
  files.Pairwise fun a b => ∀ p ∈ a, ∀ q ∈ b, bucket 1440 p.ts < bucket 1440 q.ts

theorem DaysApart.bucket_ne {a b : List Print} (apart : ∀ p ∈ a, ∀ q ∈ b, bucket 1440 p.ts < bucket 1440 q.ts)
    {p q : Print} (memP : p ∈ a) (memQ : q ∈ b) : bucket 15 p.ts ≠ bucket 15 q.ts := by
  intro same
  have less := apart p memP q memQ
  have divides : (15 : Int) ∣ 1440 := by decide
  rw [← bucket_bucket (by decide) divides p.ts, same, bucket_bucket (by decide) divides] at less
  exact lt_irrefl _ less

/-- The files' bars one after another are those of their trades one after another. -/
theorem files_grouped {sort : List Print → List Print} (sorts : SortsByTs Print.ts sort)
    {files : List (List Print)} (apart : DaysApart files) :
    (files.map (ticksToBars sort 15)).flatten = grouped 15 ((files.flatMap sort).map Print.bar) := by
  induction files with
  | nil => rfl
  | cons first rest ih =>
    obtain ⟨next, apart⟩ := List.pairwise_cons.mp apart
    rw [List.map_cons, List.flatten_cons, ih apart, ticksToBars_grouped sorts, List.flatMap_cons, List.map_append]
    unfold grouped
    rw [← List.map_append, runs_append]
    intro a memA b memB
    obtain ⟨p, there, rfl⟩ := List.mem_map.mp memA
    obtain ⟨q, later, rfl⟩ := List.mem_map.mp memB
    obtain ⟨file, in_rest, row⟩ := List.mem_flatMap.mp later
    exact DaysApart.bucket_ne (next file in_rest) ((sorts.perm _).mem_iff.mp there) ((sorts.perm _).mem_iff.mp row)

theorem files_perm {sort : List Print → List Print} (sorts : SortsByTs Print.ts sort) (files : List (List Print)) :
    (files.flatMap sort).Perm files.flatten := by
  induction files with
  | nil => exact .nil
  | cons first rest ih =>
    rw [List.flatMap_cons, List.flatten_cons]
    exact (sorts.perm first).append ih

theorem files_ordered {sort : List Print → List Print} (sorts : SortsByTs Print.ts sort)
    {files : List (List Print)} (apart : DaysApart files) :
    (files.flatMap sort).Pairwise fun a b => a.ts ≤ b.ts := by
  induction files with
  | nil => exact .nil
  | cons first rest ih =>
    obtain ⟨next, apart⟩ := List.pairwise_cons.mp apart
    rw [List.flatMap_cons, List.pairwise_append]
    refine ⟨sorts.ordered first, ih apart, fun p memP q memQ => ?_⟩
    obtain ⟨file, in_rest, row⟩ := List.mem_flatMap.mp memQ
    have less := next file in_rest p ((sorts.perm _).mem_iff.mp memP) q ((sorts.perm _).mem_iff.mp row)
    by_contra after
    exact absurd (bucket_mono (k := 1440) (by decide) (not_le.mp after).le) (not_le.mpr less)

theorem deriveBars_ticks {sortBars : List Bar → List Bar}
    (sortsBars : SortsByTs Bar.ts sortBars) {prints : List Print} (positive : ∀ p ∈ prints, 0 < p.volume)
    (ordered : prints.Pairwise fun a b => a.ts ≤ b.ts) (pos : 0 < j) (divides : j ∣ k) :
    deriveBars sortBars k (grouped j (prints.map Print.bar)) = grouped k (prints.map Print.bar) := by
  have bars : (prints.map Print.bar).Pairwise fun a b => a.ts ≤ b.ts := List.pairwise_map.mpr ordered
  rw [deriveBars_grouped sortsBars, sortsBars.same (grouped_ascend pos bars), grouped_grouped pos divides]
  intro b mem
  obtain ⟨p, there, rfl⟩ := List.mem_map.mp mem
  exact positive p there

/-- Coarser bars are those of the trades: made of finer ones, made twice, and made of the files of days. -/
theorem coarse_bars_exact {sort : List Print → List Print} {sortBars : List Bar → List Bar}
    (sorts : SortsByTs Print.ts sort) (sortsBars : SortsByTs Bar.ts sortBars) :
    (∀ (trades : List Print) (k : Int), (∀ p ∈ trades, 0 < p.volume) → 0 < k → 15 ∣ k →
      deriveBars sortBars k (ticksToBars sort 15 trades) = ticksToBars sort k trades) ∧
    (∀ (bars : List Bar) (j k : Int), (∀ b ∈ bars, 0 < b.volume) → 0 < j → 0 < k → j ∣ k →
      deriveBars sortBars k (deriveBars sortBars j bars) = deriveBars sortBars k bars) ∧
    ∀ (files : List (List Print)) (k : Int), (∀ file ∈ files, ∀ p ∈ file, 0 < p.volume) → DaysApart files →
      0 < k → 15 ∣ k →
      (files.flatMap sort).Perm files.flatten ∧ ((files.flatMap sort).Pairwise fun a b => a.ts ≤ b.ts) ∧
      readGrid sortBars k (files.map (ticksToBars sort 15)) =
        (runs (fun p => bucket k p.ts) (files.flatMap sort)).map barOf ∧
      -- the tape sorted as a whole stands in that order if a sort leaves alone what is in order
      ((∀ l : List Print, (l.Pairwise fun a b => a.ts ≤ b.ts) → sort l = l) →
        (files.flatten.Pairwise fun a b => a.ts ≤ b.ts) →
        readGrid sortBars k (files.map (ticksToBars sort 15)) = ticksToBars sort k files.flatten) := by
  refine ⟨?_, ?_, ?_⟩
  · intro trades k positive _ divides
    rw [ticksToBars_grouped sorts, ticksToBars_grouped sorts]
    exact deriveBars_ticks sortsBars (fun p mem => positive p ((sorts.perm _).mem_iff.mp mem)) (sorts.ordered trades)
      (by decide) divides
  · intro bars j k positive pos _ divides
    rw [deriveBars_grouped sortsBars, deriveBars_grouped sortsBars, deriveBars_grouped sortsBars,
      sortsBars.same (grouped_ascend pos (sortsBars.ordered bars)), grouped_grouped pos divides]
    exact fun b mem => positive b ((sortsBars.perm _).mem_iff.mp mem)
  · intro files k positive apart _ divides
    have ordered := files_ordered sorts apart
    have whole : ∀ p ∈ files.flatMap sort, 0 < p.volume := by
      intro p mem
      obtain ⟨file, there, row⟩ := List.mem_flatten.mp ((files_perm sorts files).mem_iff.mp mem)
      exact positive file there p row
    have read : readGrid sortBars k (files.map (ticksToBars sort 15)) =
        grouped k ((files.flatMap sort).map Print.bar) := by
      unfold readGrid
      rw [files_grouped sorts apart]
      split
      · exact deriveBars_ticks sortsBars whole ordered (by decide) divides
      · rename_i base
        rw [not_not.mp base]
        rfl
    have bars : grouped k ((files.flatMap sort).map Print.bar) =
        (runs (fun p => bucket k p.ts) (files.flatMap sort)).map barOf := by
      unfold grouped
      rw [runs_map, List.map_map]
      exact List.map_congr_left fun r _ => coarseBar_bar r
    refine ⟨files_perm sorts files, ordered, read.trans bars, fun keeps tape => ?_⟩
    have same : files.flatMap sort = files.flatten := by
      have each : ∀ file ∈ files, sort file = file := fun file mem =>
        keeps file ((List.pairwise_flatten.mp tape).1 file mem)
      rw [List.flatMap_def, List.map_congr_left each, List.map_id']
    rw [read, same, ticksToBars_grouped sorts, keeps _ tape]

end

/-- The order that keeps rows of one instant as they are is one. -/
theorem arrange_sorts {α : Type} (ts : α → Int) : SortsByTs ts (Keyed.arrange ts) where
  perm l := List.perm_insertionSort _ l
  ordered l := by
    have total : Std.Total (fun a b : α => ts a ≤ ts b) := ⟨fun a b => le_total (ts a) (ts b)⟩
    have trans : IsTrans α fun a b => ts a ≤ ts b := ⟨fun _ _ _ => le_trans⟩
    exact List.pairwise_insertionSort _ l

/-- Three trades in two quarters of an hour, and one of the day after. -/
def twoDays : List (List Print) :=
  [[⟨0, 10, 1⟩, ⟨1, 40, 2⟩, ⟨1800 * 1000000, 20, 3⟩], [⟨86400 * 1000000, 30, 1⟩]]

instance (files : List (List Print)) : Decidable (DaysApart files) := inferInstanceAs (Decidable (files.Pairwise _))

theorem twoDays_exact :
    deriveBars (Keyed.arrange Bar.ts) 60 (ticksToBars (Keyed.arrange Print.ts) 15 twoDays.flatten) =
      ticksToBars (Keyed.arrange Print.ts) 60 twoDays.flatten ∧
    readGrid (Keyed.arrange Bar.ts) 1440 (twoDays.map (ticksToBars (Keyed.arrange Print.ts) 15)) =
      ticksToBars (Keyed.arrange Print.ts) 1440 twoDays.flatten ∧
    ticksToBars (Keyed.arrange Print.ts) 1440 twoDays.flatten =
      [⟨0, 10, 40, 10, 20, 6, 3, 25⟩, ⟨86400 * 1000000, 30, 30, 30, 30, 1, 1, 30⟩] := by
  obtain ⟨derived, -, read⟩ := coarse_bars_exact (arrange_sorts Print.ts) (arrange_sorts Bar.ts)
  refine ⟨derived twoDays.flatten 60 (by decide +kernel) (by decide) (by decide), ?_, by decide +kernel⟩
  obtain ⟨-, -, -, whole⟩ := read twoDays 1440 (by decide +kernel) (by decide +kernel) (by decide) (by decide)
  exact whole (fun l ordered => List.Pairwise.insertionSort_eq ordered) (by decide +kernel)

end Tick
