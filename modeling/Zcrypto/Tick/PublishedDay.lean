import Mathlib.Data.List.MinMax
import Zcrypto.Tick.Bars
import Zcrypto.Trades.Accounting

/- The day that is built from a pair's archived hours, and when the healer is known to be done with it: its
   own hours and the nearest archived ones around it hold every trade between their ids, once. -/
namespace Tick
open Buckets Keyed

structure Trade where
  tradeId : Int
  ts : Int
  price : ℚ
  qty : ℚ
  deriving DecidableEq, Repr

/-- The columns that bars are made of. -/
def Trade.print (t : Trade) : Print := ⟨t.ts, t.price, t.qty⟩

/-- The columns that detection reads. -/
def Trade.select (t : Trade) : Trades.Trade := ⟨t.tradeId, t.ts, ""⟩

def hourOf (ts : Int) : Int := ts / Trades.hourMicros

/-- A pair's archived hours, each with its rows. -/
abbrev Hours := List (Int × List Trade)

section
variable (hours : Hours) (d : Int)

def Hours.rows (hours : Hours) (hour : Int) : List Trade := (hours.lookup hour).getD []

def Hours.keys (hours : Hours) : List Int := hours.map Prod.fst

/-- The archived hours of a day. -/
def Hours.own : List Int := hours.keys.filter fun hour => d * 24 ≤ hour ∧ hour < (d + 1) * 24

/-- The rows of hours, hour by hour. -/
def Hours.concat (span : List Int) : List Trade := (arrange id span).flatMap hours.rows

def buildDay (sort : List Print → List Print) : Except String (List Bar) :=
  if hours.own d = [] then .error "tape-bars: no trade segments at all"
  else .ok (ticksToBars sort baseIntervalMinutes ((hours.concat (hours.own d)).map Trade.print))

def isHealComplete : Bool :=
  let before := hours.keys.filter fun hour => hour < d * 24
  let after := hours.keys.filter fun hour => (d + 1) * 24 ≤ hour
  if hours.own d = [] then false
  else match after.min? with
    | none => false
    | some next =>
      let detection := Trades.detect ((hours.concat (hours.own d ++ before.max?.toList ++ [next])).map Trade.select)
      detection.gaps.isEmpty && detection.duplicateIds.isEmpty

end

/-- The complete tape: ids ascend and times do not fall. -/
structure TradeTape where
  trades : List Trade
  ids : trades.Pairwise fun a b => a.tradeId < b.tradeId
  times : trades.Pairwise fun a b => a.ts ≤ b.ts

/-- Archived hours of a tape, each with rows of that hour. -/
structure Healed (tape : TradeTape) (hours : Hours) : Prop where
  distinct : hours.keys.Nodup
  segment : ∀ hour ∈ hours, hour.2 ≠ [] ∧ ∀ t ∈ hour.2, t ∈ tape.trades ∧ hourOf t.ts = hour.1

/-- What the archive says of a day that may be published, with an hour before it. -/
structure Settled (tape : TradeTape) (hours : Hours) (d : Int) : Prop where
  healed : Healed tape hours
  complete : isHealComplete hours d = true
  before : ∃ hour ∈ hours, hour.1 < d * 24

def dayTrades (tape : TradeTape) (d : Int) : List Trade :=
  tape.trades.filter fun t => d * 24 ≤ hourOf t.ts ∧ hourOf t.ts < (d + 1) * 24

/-- The day's trades of a bucket, by id. -/
def inBucket (tape : TradeTape) (d b : Int) : List Trade := (dayTrades tape d).filter fun t => bucket 15 t.ts = b

/-- A bar of trades that stand by id. -/
structure BarOf (trades : List Trade) (bar : Bar) : Prop where
  open_ : trades.head?.map Trade.price = some bar.open_
  close : trades.getLast?.map Trade.price = some bar.close
  high : (∃ t ∈ trades, t.price = bar.high) ∧ ∀ t ∈ trades, t.price ≤ bar.high
  low : (∃ t ∈ trades, t.price = bar.low) ∧ ∀ t ∈ trades, bar.low ≤ t.price
  volume : bar.volume = (trades.map Trade.qty).sum
  count : bar.count = trades.length
  vwap : bar.vwap = (trades.map fun t => t.price * t.qty).sum / (trades.map Trade.qty).sum

/-- The bars of the tape's day: one for each bucket with trades, in order. -/
structure TapeDay (tape : TradeTape) (d : Int) (bars : List Bar) : Prop where
  ascending : (bars.map Bar.ts).Pairwise (· < ·)
  buckets : ∀ b, b ∈ bars.map Bar.ts ↔ inBucket tape d b ≠ []
  each : ∀ bar ∈ bars, BarOf (inBucket tape d bar.ts) bar

/-- In each bucket the trades of its first instant have the first one's price, and those of its last instant
    the last one's. -/
def OnePrice (tape : TradeTape) (d : Int) : Prop :=
  ∀ b, ∀ t ∈ inBucket tape d b,
    (∀ first ∈ (inBucket tape d b).head?, t.ts = first.ts → t.price = first.price) ∧
    ∀ last ∈ (inBucket tape d b).getLast?, t.ts = last.ts → t.price = last.price

section
variable {tape : TradeTape} {hours : Hours} {d b hour : Int} {t u : Trade}

theorem rows_mem (healed : Healed tape hours) (mem : t ∈ hours.rows hour) :
    t ∈ tape.trades ∧ hourOf t.ts = hour ∧ hour ∈ hours.keys := by
  unfold Hours.rows at mem
  cases found : hours.lookup hour with
  | none =>
    rw [found] at mem
    cases mem
  | some rows =>
    have there : (hour, rows) ∈ hours := (lookup_iff healed.distinct).mp found
    rw [found] at mem
    obtain ⟨in_tape, at_⟩ := (healed.segment _ there).2 t mem
    exact ⟨in_tape, at_, List.mem_map_of_mem there⟩

theorem rows_of (healed : Healed tape hours) {rows : List Trade} (mem : (hour, rows) ∈ hours) :
    hours.rows hour = rows := by
  unfold Hours.rows
  rw [(lookup_iff healed.distinct).mpr mem]
  rfl

theorem mem_own : hour ∈ hours.own d ↔ hour ∈ hours.keys ∧ d * 24 ≤ hour ∧ hour < (d + 1) * 24 := by
  unfold Hours.own
  rw [List.mem_filter, decide_eq_true_iff]

theorem mem_concat {span : List Int} : t ∈ hours.concat span ↔ ∃ hour ∈ span, t ∈ hours.rows hour := by
  unfold Hours.concat
  simp only [List.mem_flatMap, mem_arrange]

theorem concat_append (hours : Hours) (span more : List Int) :
    (hours.concat (span ++ more)).Perm (hours.concat span ++ hours.concat more) := by
  have each : ∀ span, (hours.concat span).Perm (span.flatMap hours.rows) := fun span =>
    List.Perm.flatMap_right _ (List.perm_insertionSort _ span)
  refine (each _).trans ?_
  rw [List.flatMap_append]
  exact ((each span).append (each more)).symm

theorem mem_dayTrades : t ∈ dayTrades tape d ↔
    t ∈ tape.trades ∧ d * 24 ≤ hourOf t.ts ∧ hourOf t.ts < (d + 1) * 24 := by
  unfold dayTrades
  rw [List.mem_filter, decide_eq_true_iff]

theorem hourOf_mono {x y : Int} (less : hourOf x < hourOf y) : x < y := by
  by_contra after
  have le : hourOf y ≤ hourOf x := Int.ediv_le_ediv (by decide) (not_lt.mp after)
  omega

/-- A later trade has the higher id. -/
theorem TradeTape.id_lt (tape : TradeTape) (memT : t ∈ tape.trades) (memU : u ∈ tape.trades) (less : t.ts < u.ts) :
    t.tradeId < u.tradeId := by
  have both := tape.ids.and tape.times
  by_contra not_less
  rcases List.pairwise_iff_getElem.mp both with all
  obtain ⟨i, hi, rfl⟩ := List.getElem_of_mem memT
  obtain ⟨k, hk, rfl⟩ := List.getElem_of_mem memU
  rcases lt_trichotomy i k with before | rfl | after
  · exact not_less (all i k hi hk before).1
  · exact lt_irrefl _ less
  · have times := (all k i hk hi after).2
    omega

theorem TradeTape.same (tape : TradeTape) (memT : t ∈ tape.trades) (memU : u ∈ tape.trades)
    (same : t.tradeId = u.tradeId) : t = u := by
  have distinct : (tape.trades.map Trade.tradeId).Nodup :=
    List.pairwise_map.mpr (tape.ids.imp fun less => ne_of_lt less)
  exact List.inj_on_of_nodup_map distinct memT memU same

/- Detection that finds nothing. -/

theorem detect_none {frame : List Trades.Trade} (none : (Trades.detect frame).gaps = [])
    {a c x : Int} (memA : a ∈ Trades.ids frame) (memC : c ∈ Trades.ids frame) (low : a ≤ x) (high : x ≤ c) :
    x ∈ Trades.ids frame := by
  have missing := Trades.detect_missing frame
  rw [none, (Trades.detect_counts frame).2.2] at missing
  have nothing : Holes.absent (Trades.idSet frame) = ∅ := by
    rw [← Finset.card_eq_zero]
    simpa using missing.symm
  by_contra out
  have absent : x ∈ Holes.absent (Trades.idSet frame) :=
    Holes.mem_absent.mpr ⟨⟨a, Trades.mem_idSet.mpr memA, c, Trades.mem_idSet.mpr memC, low, high⟩,
      fun mem => out (Trades.mem_idSet.mp mem)⟩
  rw [nothing] at absent
  exact absurd absent (Finset.notMem_empty x)

theorem detect_once {frame : List Trades.Trade} (none : (Trades.detect frame).duplicateIds = []) :
    (Trades.ids frame).Nodup := by
  rw [List.nodup_iff_count_le_one]
  intro i
  by_contra more
  have mem : i ∈ Trades.ids frame := List.count_pos_iff.mp (by omega)
  have walked : i ∈ Trades.walked frame := by
    rw [← List.mem_toFinset, Trades.walked_set, Trades.mem_idSet]
    exact mem
  have duplicate : i ∈ (Trades.detect frame).duplicateIds := by
    unfold Trades.walked at walked
    unfold Trades.detect
    cases walk : arrange Trades.Trade.tradeId (Trades.firsts frame) with
    | nil =>
      rw [walk] at walked
      cases walked
    | cons low rest =>
      rw [walk] at walked
      obtain ⟨high, last⟩ : ∃ high, (low :: rest).getLast? = some high :=
        ⟨_, List.getLast?_eq_some_getLast (List.cons_ne_nil low rest)⟩
      simp only [List.head?_cons, last]
      exact List.mem_filter.mpr ⟨walked, by simpa using more⟩
  rw [none] at duplicate
  cases duplicate

/-- The archived hours of a settled day are the tape's day. -/
theorem settled_day (settled : Settled tape hours d) :
    hours.own d ≠ [] ∧ (hours.concat (hours.own d)).Perm (dayTrades tape d) := by
  obtain ⟨healed, complete, first, in_hours, early⟩ := settled
  unfold isHealComplete at complete
  dsimp only at complete
  split at complete
  · cases complete
  rename_i some_
  refine ⟨some_, ?_⟩
  split at complete
  · cases complete
  rename_i next least
  obtain ⟨latest, most⟩ : ∃ latest, (hours.keys.filter fun hour => hour < d * 24).max? = some latest := by
    have there : first.1 ∈ hours.keys.filter fun hour => hour < d * 24 :=
      List.mem_filter.mpr ⟨List.mem_map_of_mem in_hours, by simpa using early⟩
    cases most : (hours.keys.filter fun hour => hour < d * 24).max? with
    | none =>
      rw [List.max?_eq_none_iff.mp most] at there
      cases there
    | some latest => exact ⟨latest, rfl⟩
  rw [most, Bool.and_eq_true, List.isEmpty_iff, List.isEmpty_iff] at complete
  obtain ⟨gapless, once⟩ := complete
  have ids : ∀ frame : List Trade, Trades.ids (frame.map Trade.select) = frame.map Trade.tradeId := by
    intro frame
    unfold Trades.ids
    rw [List.map_map]
    rfl
  have distinct := detect_once once
  rw [ids] at distinct
  have members : ∀ {hour}, hour ∈ hours.keys → ∃ t, t ∈ hours.rows hour ∧ t ∈ tape.trades ∧ hourOf t.ts = hour := by
    intro hour key
    obtain ⟨⟨hour, rows⟩, there, rfl⟩ := List.mem_map.mp key
    obtain ⟨nonempty, all⟩ := healed.segment _ there
    obtain ⟨t, mem⟩ := List.exists_mem_of_ne_nil _ nonempty
    exact ⟨t, by rw [rows_of healed there]; exact mem, all t mem⟩
  obtain ⟨key, below⟩ := List.mem_filter.mp (List.max?_mem most)
  obtain ⟨key', above⟩ := List.mem_filter.mp (List.min?_mem least)
  have below := of_decide_eq_true below
  have above := of_decide_eq_true above
  obtain ⟨low, low_row, low_tape, low_hour⟩ := members key
  obtain ⟨high, high_row, high_tape, high_hour⟩ := members key'
  have nodup : (hours.concat (hours.own d)).Nodup := by
    have parts := concat_append hours (hours.own d) ([latest] ++ [next])
    rw [← List.append_assoc] at parts
    have all := (parts.map Trade.tradeId).nodup_iff.mp distinct
    rw [List.map_append] at all
    exact List.Nodup.of_map _ (List.nodup_append.mp all).1
  have nodup' : (dayTrades tape d).Nodup :=
    List.Nodup.filter _ (tape.ids.imp fun {a b} less same => by rw [same] at less; exact lt_irrefl _ less)
  rw [List.perm_ext_iff_of_nodup nodup nodup']
  intro t
  rw [mem_concat, mem_dayTrades]
  constructor
  · rintro ⟨hour, own, row⟩
    obtain ⟨in_tape, at_, -⟩ := rows_mem healed row
    rw [at_]
    exact ⟨in_tape, (mem_own.mp own).2⟩
  · rintro ⟨in_tape, from_, to_⟩
    -- the trade's id lies between those of the hours around the day, none of which is missing
    have after_low : low.tradeId < t.tradeId := tape.id_lt low_tape in_tape (hourOf_mono (by omega))
    have before_high : t.tradeId < high.tradeId := tape.id_lt in_tape high_tape (hourOf_mono (by omega))
    have held : ∀ {u hour}, u ∈ hours.rows hour → hour = latest ∨ hour = next →
        u.tradeId ∈ Trades.ids ((hours.concat (hours.own d ++ [latest] ++ [next])).map Trade.select) := by
      intro u hour row which
      rw [ids]
      refine List.mem_map_of_mem (mem_concat.mpr ⟨hour, ?_, row⟩)
      rcases which with rfl | rfl
      · simp
      · simp
    have mem := detect_none gapless (held low_row (.inl rfl)) (held high_row (.inr rfl)) after_low.le before_high.le
    rw [ids] at mem
    obtain ⟨u, there, same⟩ := List.mem_map.mp mem
    obtain ⟨hour, -, row⟩ := mem_concat.mp there
    obtain ⟨in_tape', at_, key⟩ := rows_mem healed row
    obtain rfl := tape.same in_tape' in_tape same
    exact ⟨hour, mem_own.mpr ⟨key, by omega, by omega⟩, row⟩

/- The bars of an arrangement of the day's trades. -/

theorem mem_inBucket : t ∈ inBucket tape d b ↔ t ∈ dayTrades tape d ∧ bucket 15 t.ts = b := by
  unfold inBucket
  rw [List.mem_filter, decide_eq_true_iff]

theorem inBucket_ordered (tape : TradeTape) (d b : Int) : (inBucket tape d b).Pairwise fun a c => a.ts ≤ c.ts :=
  (tape.times.filter _).filter _

/-- The day's trades in an order of their times. -/
structure Arranged (tape : TradeTape) (d : Int) (arr : List Print) : Prop where
  perm : arr.Perm ((dayTrades tape d).map Trade.print)
  ordered : arr.Pairwise fun a b => a.ts ≤ b.ts

section
variable {arr : List Print} {r : Run Int Print}

theorem Arranged.keys (arranged : Arranged tape d arr) :
    arr.Pairwise fun a b => bucket 15 a.ts ≤ bucket 15 b.ts :=
  arranged.ordered.imp fun le => bucket_mono (by decide) le

theorem Arranged.rows (arranged : Arranged tape d arr) (mem : r ∈ runs (fun p => bucket 15 p.ts) arr) :
    r.rows.Perm ((inBucket tape d r.key).map Trade.print) ∧ r.rows.Pairwise fun a b => a.ts ≤ b.ts := by
  have all := runs_filter arranged.keys mem
  rw [← all]
  refine ⟨(arranged.perm.filter _).trans ?_, arranged.ordered.filter _⟩
  rw [List.filter_map]
  rfl

/-- Of the picks of a chain the last goes beyond them all. -/
theorem foldl_pick {op : ℚ → ℚ → ℚ} {R : ℚ → ℚ → Prop} (refl : ∀ a, R a a) (trans : ∀ {a b c}, R a b → R b c → R a c)
    (pick : ∀ a b, op a b = a ∨ op a b = b) (left : ∀ a b, R a (op a b)) (right : ∀ a b, R b (op a b))
    (l : List ℚ) (start : ℚ) : l.foldl op start ∈ start :: l ∧ ∀ x ∈ start :: l, R x (l.foldl op start) := by
  induction l generalizing start with
  | nil =>
    refine ⟨List.mem_cons_self, fun x mem => ?_⟩
    rw [List.mem_singleton.mp mem]
    exact refl _
  | cons a l ih =>
    obtain ⟨mem, beyond⟩ := ih (op start a)
    rw [List.foldl_cons]
    constructor
    · rcases List.mem_cons.mp mem with same | later
      · rw [same]
        rcases pick start a with first | second
        · rw [first]
          exact List.mem_cons_self
        · rw [second]
          exact List.mem_cons_of_mem _ List.mem_cons_self
      · exact List.mem_cons_of_mem _ (List.mem_cons_of_mem _ later)
    · intro x there
      have next := beyond (op start a) List.mem_cons_self
      rcases List.mem_cons.mp there with rfl | there
      · exact trans (left x a) next
      · rcases List.mem_cons.mp there with rfl | later
        · exact trans (right start x) next
        · exact beyond x (List.mem_cons_of_mem _ later)

/-- What a bar says of no order among its trades. -/
theorem barOf_figures {trades : List Trade} (perm : r.rows.Perm (trades.map Trade.print)) :
    ((∃ t ∈ trades, t.price = (barOf r).high) ∧ ∀ t ∈ trades, t.price ≤ (barOf r).high) ∧
    ((∃ t ∈ trades, t.price = (barOf r).low) ∧ ∀ t ∈ trades, (barOf r).low ≤ t.price) ∧
    (barOf r).volume = (trades.map Trade.qty).sum ∧ (barOf r).count = trades.length ∧
    (barOf r).vwap = (trades.map fun t => t.price * t.qty).sum / (trades.map Trade.qty).sum := by
  have sums : ∀ f : Print → ℚ, (r.rows.map f).sum = (trades.map fun t => f t.print).sum := by
    intro f
    rw [(perm.map f).sum_eq, List.map_map]
    rfl
  have prices : (r.first.price :: r.rest.map Print.price).Perm (trades.map Trade.price) := by
    have all := perm.map Print.price
    rw [List.map_map] at all
    exact all
  have member : ∀ x, x ∈ r.first.price :: r.rest.map Print.price ↔ ∃ t ∈ trades, t.price = x := by
    intro x
    rw [prices.mem_iff, List.mem_map]
  obtain ⟨top, above⟩ := foldl_pick (R := (· ≤ ·)) le_refl le_trans max_choice le_max_left le_max_right
    (r.rest.map Print.price) r.first.price
  obtain ⟨bottom, below⟩ := foldl_pick (R := (· ≥ ·)) le_refl ge_trans min_choice min_le_left min_le_right
    (r.rest.map Print.price) r.first.price
  refine ⟨⟨(member _).mp top, fun t mem => above _ ((member _).mpr ⟨t, mem, rfl⟩)⟩,
    ⟨(member _).mp bottom, fun t mem => below _ ((member _).mpr ⟨t, mem, rfl⟩)⟩, sums Print.volume, ?_, ?_⟩
  · have length := perm.length_eq
    rw [List.length_map] at length
    exact length
  · show (r.rows.map fun p => p.price * p.volume).sum / (r.rows.map Print.volume).sum = _
    rw [sums, sums]
    rfl

/-- The first and the last row of a run are of its first and of its last instant. -/
theorem run_ends (ordered : r.rows.Pairwise fun a b => a.ts ≤ b.ts) :
    (r.first ∈ r.rows ∧ ∀ p ∈ r.rows, r.first.ts ≤ p.ts) ∧ r.last ∈ r.rows ∧ ∀ p ∈ r.rows, p.ts ≤ r.last.ts := by
  refine ⟨⟨List.mem_cons_self, fun p mem => ?_⟩, List.getLast_mem _, fun p mem => ?_⟩
  · rcases List.mem_cons.mp mem with rfl | later
    · exact le_rfl
    · exact (List.pairwise_cons.mp ordered).1 p later
  · have parted := List.dropLast_append_getLast (List.cons_ne_nil r.first r.rest)
    change r.rows.dropLast ++ [r.last] = r.rows at parted
    rw [← parted] at ordered mem
    rcases List.mem_append.mp mem with before | last
    · exact (List.pairwise_append.mp ordered).2.2 p before _ (List.mem_singleton.mpr rfl)
    · rw [List.mem_singleton.mp last]

theorem trades_ends {trades : List Trade} (ordered : trades.Pairwise fun a b => a.ts ≤ b.ts) (some_ : trades ≠ []) :
    ∃ first last, trades.head? = some first ∧ trades.getLast? = some last ∧ first ∈ trades ∧ last ∈ trades ∧
      ∀ t ∈ trades, first.ts ≤ t.ts ∧ t.ts ≤ last.ts := by
  obtain ⟨first, rest, rfl⟩ := List.exists_cons_of_ne_nil some_
  obtain ⟨last, is_last⟩ : ∃ last, (first :: rest).getLast? = some last :=
    ⟨_, List.getLast?_eq_some_getLast (List.cons_ne_nil _ _)⟩
  refine ⟨first, last, rfl, is_last, List.mem_cons_self, List.mem_of_getLast? is_last, fun t mem => ⟨?_, ?_⟩⟩
  · rcases List.mem_cons.mp mem with rfl | later
    · exact le_rfl
    · exact (List.pairwise_cons.mp ordered).1 t later
  · obtain ⟨before, parted⟩ := List.getLast?_eq_some_iff.mp is_last
    rw [parted] at ordered mem
    rcases List.mem_append.mp mem with earlier | same
    · exact (List.pairwise_append.mp ordered).2.2 t earlier _ (List.mem_singleton.mpr rfl)
    · rw [List.mem_singleton.mp same]

/-- With one price at each bucket's ends, every arrangement has the tape's bars. -/
theorem arranged_tapeDay (one : OnePrice tape d) (arranged : Arranged tape d arr) :
    TapeDay tape d ((runs (fun p => bucket 15 p.ts) arr).map barOf) := by
  have stamps : ((runs (fun p => bucket 15 p.ts) arr).map barOf).map Bar.ts =
      (runs (fun p => bucket 15 p.ts) arr).map Run.key := by
    rw [List.map_map]
    rfl
  constructor
  · rw [stamps, List.pairwise_map]
    exact runs_ascend arranged.keys
  · intro b
    rw [stamps, List.mem_map]
    constructor
    · rintro ⟨r, mem, rfl⟩ none
      have length := (arranged.rows mem).1.length_eq
      rw [none] at length
      cases length
    · intro some_
      obtain ⟨t, mem⟩ := List.exists_mem_of_ne_nil _ some_
      obtain ⟨in_day, at_⟩ := mem_inBucket.mp mem
      have there : t.print ∈ arr := arranged.perm.mem_iff.mpr (List.mem_map_of_mem in_day)
      obtain ⟨r, run, same, -⟩ := exists_run (fun p : Print => bucket 15 p.ts) there
      exact ⟨r, run, same.trans at_⟩
  · intro bar mem
    obtain ⟨r, run, rfl⟩ := List.mem_map.mp mem
    obtain ⟨perm, ordered⟩ := arranged.rows run
    obtain ⟨⟨first_row, first_least⟩, last_row, last_most⟩ := run_ends ordered
    obtain ⟨high, low, volume, count, vwap⟩ := barOf_figures perm
    have row : ∀ p ∈ r.rows, ∃ t ∈ inBucket tape d r.key, t.print = p := fun p mem =>
      List.mem_map.mp (perm.mem_iff.mp mem)
    have some_ : inBucket tape d r.key ≠ [] := by
      obtain ⟨t, there, -⟩ := row _ first_row
      exact List.ne_nil_of_mem there
    obtain ⟨first, last, head, tail, in_first, in_last, between⟩ :=
      trades_ends (inBucket_ordered tape d r.key) some_
    have rowed : ∀ t ∈ inBucket tape d r.key, t.print ∈ r.rows := fun t there =>
      perm.mem_iff.mpr (List.mem_map_of_mem there)
    refine ⟨?_, ?_, high, low, volume, count, vwap⟩
    · obtain ⟨t, there, same⟩ := row _ first_row
      have least := first_least first.print (rowed first in_first)
      rw [← same] at least
      have at_ : t.ts = first.ts := le_antisymm least (between t there).1
      show (inBucket tape d r.key).head?.map Trade.price = some r.first.price
      rw [head, ← same]
      exact congrArg some ((one r.key t there).1 first head at_).symm
    · obtain ⟨t, there, same⟩ := row _ last_row
      have most := last_most last.print (rowed last in_last)
      rw [← same] at most
      have at_ : t.ts = last.ts := le_antisymm (between t there).2 most
      show (inBucket tape d r.key).getLast?.map Trade.price = some r.last.price
      rw [tail, ← same]
      exact congrArg some ((one r.key t there).2 last tail at_).symm

theorem BarOf.same {trades : List Trade} {bar bar' : Bar} (stamp : bar.ts = bar'.ts) (one : BarOf trades bar)
    (other : BarOf trades bar') : bar = bar' := by
  have open_ := Option.some.inj (one.open_.symm.trans other.open_)
  have close := Option.some.inj (one.close.symm.trans other.close)
  have high : bar.high = bar'.high := by
    obtain ⟨⟨t, mem, same⟩, above⟩ := one.high
    obtain ⟨⟨t', mem', same'⟩, above'⟩ := other.high
    exact le_antisymm (by rw [← same]; exact above' t mem) (by rw [← same']; exact above t' mem')
  have low : bar.low = bar'.low := by
    obtain ⟨⟨t, mem, same⟩, below⟩ := one.low
    obtain ⟨⟨t', mem', same'⟩, below'⟩ := other.low
    exact le_antisymm (by rw [← same']; exact below t' mem') (by rw [← same]; exact below' t mem)
  cases bar
  cases bar'
  rw [Bar.mk.injEq]
  exact ⟨stamp, open_, high, low, close, one.volume.trans other.volume.symm, one.count.trans other.count.symm,
    one.vwap.trans other.vwap.symm⟩

/-- The bars of the tape's day are one list. -/
theorem TapeDay.same {bars bars' : List Bar} (one : TapeDay tape d bars) (other : TapeDay tape d bars') :
    bars = bars' := by
  have sub : ∀ {xs ys : List Bar}, TapeDay tape d xs → TapeDay tape d ys → ∀ bar ∈ xs, bar ∈ ys := by
    intro xs ys day day' bar mem
    have stamp := (day'.buckets bar.ts).mpr ((day.buckets bar.ts).mp (List.mem_map_of_mem mem))
    obtain ⟨bar', there, same⟩ := List.mem_map.mp stamp
    have each := day'.each bar' there
    rw [same] at each
    rw [BarOf.same same.symm (day.each bar mem) each]
    exact there
  have ascend : ∀ {xs : List Bar}, TapeDay tape d xs → xs.Pairwise fun a b => a.ts < b.ts := fun day =>
    List.pairwise_map.mp day.ascending
  have nodup : ∀ {xs : List Bar}, TapeDay tape d xs → xs.Nodup := fun day =>
    (ascend day).imp fun {a b} less same => by rw [same] at less; exact lt_irrefl _ less
  refine List.Perm.eq_of_pairwise ?_ (ascend one) (ascend other)
    ((List.perm_ext_iff_of_nodup (nodup one) (nodup other)).mpr fun bar => ⟨sub one other bar, sub other one bar⟩)
  exact fun a b _ _ less more => absurd less (lt_asymm more)

/- An order that tells a bucket's ends apart from the tape's. -/

/-- A member moved to just after those of its list that it is asked to follow. -/
def placed (p : Print → Bool) (l : List Print) (a : Print) : List Print :=
  (arrange Print.ts (l.erase a)).filter p ++ a :: (arrange Print.ts (l.erase a)).filter fun x => !p x

theorem placed_perm {p : Print → Bool} {l : List Print} {a : Print} (mem : a ∈ l) : (placed p l a).Perm l := by
  unfold placed
  refine List.perm_middle.trans ?_
  refine (List.Perm.cons a (List.filter_append_perm p _)).trans ?_
  exact (List.Perm.cons a ((arrange_sorts Print.ts).perm _)).trans (List.perm_cons_erase mem).symm

theorem placed_ordered {p : Print → Bool} {l : List Print} {a : Print} (before : ∀ x, p x = true → x.ts ≤ a.ts)
    (after : ∀ x, p x = false → a.ts ≤ x.ts) : (placed p l a).Pairwise fun x y => x.ts ≤ y.ts := by
  have ordered := (arrange_sorts Print.ts).ordered (l.erase a)
  have later : ∀ x ∈ (arrange Print.ts (l.erase a)).filter fun x => !p x, a.ts ≤ x.ts := fun x mem =>
    after x (by simpa using (List.mem_filter.mp mem).2)
  unfold placed
  rw [List.pairwise_append, List.pairwise_cons]
  refine ⟨ordered.filter _, ⟨later, ordered.filter _⟩, fun x mem y there => ?_⟩
  have first := before x (List.mem_filter.mp mem).2
  rcases List.mem_cons.mp there with rfl | there
  · exact first
  · exact first.trans (later y there)

/-- Some sort by the instant leaves the rows in any given order of their instants. -/
theorem exists_sort {l arr : List Print} (perm : arr.Perm l) (ordered : arr.Pairwise fun a b => a.ts ≤ b.ts) :
    ∃ sort, SortsByTs Print.ts sort ∧ sort l = arr := by
  refine ⟨fun x => if x = l then arr else arrange Print.ts x, ⟨fun x => ?_, fun x => ?_⟩, if_pos rfl⟩
  · split
    · rename_i same
      rw [same]
      exact perm
    · exact (arrange_sorts Print.ts).perm x
  · split
    · exact ordered
    · exact (arrange_sorts Print.ts).ordered x

/-- Where a trade of a bucket's first or last instant has another price than its end, an arrangement puts it
    at that end. -/
theorem arranged_ends (mem : t ∈ inBucket tape d b) :
    (∀ first ∈ (inBucket tape d b).head?, t.ts = first.ts → ∃ arr, Arranged tape d arr ∧
      ∃ r ∈ runs (fun p => bucket 15 p.ts) arr, r.key = b ∧ r.first = t.print) ∧
    ∀ last ∈ (inBucket tape d b).getLast?, t.ts = last.ts → ∃ arr, Arranged tape d arr ∧
      ∃ r ∈ runs (fun p => bucket 15 p.ts) arr, r.key = b ∧ r.last = t.print := by
  obtain ⟨first, last, head, tail, in_first, in_last, between⟩ :=
    trades_ends (inBucket_ordered tape d b) (List.ne_nil_of_mem mem)
  obtain ⟨in_day, at_⟩ := mem_inBucket.mp mem
  have there : t.print ∈ (dayTrades tape d).map Trade.print := List.mem_map_of_mem in_day
  -- a row of the bucket is a trade of it
  have own : ∀ p : Print, p ∈ arrange Print.ts (((dayTrades tape d).map Trade.print).erase t.print) →
      bucket 15 p.ts = b → ∃ u ∈ inBucket tape d b, u.print = p := by
    intro p row key
    rw [mem_arrange] at row
    obtain ⟨u, day, rfl⟩ := List.mem_map.mp (List.mem_of_mem_erase row)
    exact ⟨u, mem_inBucket.mpr ⟨day, key⟩, rfl⟩
  have run : ∀ arr, Arranged tape d arr → ∃ r ∈ runs (fun p => bucket 15 p.ts) arr, r.key = b ∧
      arr.filter (fun p => bucket 15 p.ts = b) = r.rows := by
    intro arr arranged
    obtain ⟨r, is_run, same, -⟩ := exists_run (fun p : Print => bucket 15 p.ts) (arranged.perm.mem_iff.mpr there)
    have key : r.key = b := same.trans at_
    have all := runs_filter arranged.keys is_run
    rw [key] at all
    exact ⟨r, is_run, key, all⟩
  have kept : decide (bucket 15 t.print.ts = b) = true := decide_eq_true at_
  constructor
  · intro first' is_first same
    obtain rfl := Option.some.inj (head.symm.trans is_first)
    have arranged : Arranged tape d (placed (fun x => x.ts < t.ts) ((dayTrades tape d).map Trade.print) t.print) :=
      ⟨placed_perm there, placed_ordered (fun x less => le_of_lt (of_decide_eq_true less))
        fun x not_less => not_lt.mp (of_decide_eq_false not_less)⟩
    obtain ⟨r, is_run, key, rows⟩ := run _ arranged
    refine ⟨_, arranged, r, is_run, key, ?_⟩
    unfold placed at rows
    rw [List.filter_append, List.filter_cons, if_pos kept] at rows
    have none : ((arrange Print.ts (((dayTrades tape d).map Trade.print).erase t.print)).filter
        fun x => x.ts < t.ts).filter (fun p => bucket 15 p.ts = b) = [] := by
      refine List.filter_eq_nil_iff.mpr fun p row key => ?_
      obtain ⟨in_all, less⟩ := List.mem_filter.mp row
      obtain ⟨u, in_bucket, rfl⟩ := own p in_all (of_decide_eq_true key)
      have least := (between u in_bucket).1
      have less : u.ts < t.ts := of_decide_eq_true less
      omega
    rw [none, List.nil_append] at rows
    exact (List.cons.inj rows).1.symm
  · intro last' is_last same
    obtain rfl := Option.some.inj (tail.symm.trans is_last)
    have arranged : Arranged tape d (placed (fun x => x.ts ≤ t.ts) ((dayTrades tape d).map Trade.print) t.print) :=
      ⟨placed_perm there, placed_ordered (fun x le => of_decide_eq_true le)
        fun x not_le_ => le_of_lt (not_le.mp (of_decide_eq_false not_le_))⟩
    obtain ⟨r, is_run, key, rows⟩ := run _ arranged
    refine ⟨_, arranged, r, is_run, key, ?_⟩
    unfold placed at rows
    rw [List.filter_append, List.filter_cons, if_pos kept] at rows
    have none : ((arrange Print.ts (((dayTrades tape d).map Trade.print).erase t.print)).filter
        fun x => !decide (x.ts ≤ t.ts)).filter (fun p => bucket 15 p.ts = b) = [] := by
      refine List.filter_eq_nil_iff.mpr fun p row key => ?_
      obtain ⟨in_all, later⟩ := List.mem_filter.mp row
      obtain ⟨u, in_bucket, rfl⟩ := own p in_all (of_decide_eq_true key)
      have most := (between u in_bucket).2
      have later : t.ts < u.print.ts := by simpa using later
      have later : t.ts < u.ts := later
      omega
    rw [none] at rows
    unfold Run.last
    simp only [← rows, List.getLast_append_of_ne_nil _ (List.cons_ne_nil _ _), List.getLast_singleton]

theorem buildDay_arranged {sort : List Print → List Print} (settled : Settled tape hours d)
    (sorts : SortsByTs Print.ts sort) : ∃ arr, Arranged tape d arr ∧
      buildDay hours d sort = .ok ((runs (fun p => bucket 15 p.ts) arr).map barOf) := by
  obtain ⟨some_, perm⟩ := settled_day settled
  refine ⟨sort ((hours.concat (hours.own d)).map Trade.print),
    ⟨(sorts.perm _).trans (perm.map _), sorts.ordered _⟩, ?_⟩
  unfold buildDay
  rw [if_neg some_]
  unfold ticksToBars baseIntervalMinutes
  split
  · rename_i none
    rw [none, sorts.nil]
    rfl
  · rfl

end

end

/- A day of two trades, with one before it and one after. -/

def beforeDay : Trade := ⟨1, 86399999999, 10, 1⟩
def afterDay : Trade := ⟨4, 172800000000, 10, 1⟩
def dayTwo (second : Int) : List Trade := [⟨2, 86400000000, 10, 1⟩, ⟨3, second, 20, 1⟩]

def hoursTwo (second : Int) : Hours := [(23, [beforeDay]), (24, dayTwo second), (48, [afterDay])]

/-- The second trade at the instant of the first. -/
def burstTape : TradeTape := ⟨beforeDay :: dayTwo 86400000000 ++ [afterDay], by decide, by decide⟩

def calmTape : TradeTape := ⟨beforeDay :: dayTwo 86400000001 ++ [afterDay], by decide, by decide⟩

theorem burst_settled : Settled burstTape (hoursTwo 86400000000) 1 where
  healed := ⟨by decide, by decide⟩
  complete := by decide +kernel
  before := ⟨(23, [beforeDay]), by decide, by decide⟩

theorem calm_settled : Settled calmTape (hoursTwo 86400000001) 1 where
  healed := ⟨by decide, by decide⟩
  complete := by decide +kernel
  before := ⟨(23, [beforeDay]), by decide, by decide⟩

/-- A sort that turns the rows of one instant around. -/
def backwards (l : List Print) : List Print := arrange Print.ts l.reverse

theorem backwards_sorts : SortsByTs Print.ts backwards where
  perm l := ((arrange_sorts Print.ts).perm _).trans (List.reverse_perm l)
  ordered _ := (arrange_sorts Print.ts).ordered _

end Tick
