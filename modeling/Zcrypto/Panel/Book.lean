import Zcrypto.Archive.Replay
import Zcrypto.DecimalText
import Zcrypto.Fallible

/- A pair's book as the panel carries it, each price and quantity with the digits it was written with, so
   that its state can be kept as text. Prices are compared by value, as in `OrderBook`. -/
namespace Panel
open DecimalText (Decimal)

def plain : Decimal → OrderBook.Decimal
  | .finite negative coefficient exponent =>
    .number (DecimalText.signed negative (coefficient * DecimalText.tenTo exponent))
  | .infinity negative => .infinity negative
  | .nan .. => .nan

abbrev Level := Decimal × Decimal
abbrev Side := List Level

structure Book where
  depth : Int
  bids : Side
  asks : Side
  deriving DecidableEq, Repr

/-- A level as it is read, where either half may be null. -/
abbrev RawLevel := Option Decimal × Option Decimal

def toDecimal : Option Decimal → Except String Decimal
  | some value => .ok value
  | none => .error "CaptureError: not a valid decimal price/qty: None"

def extractLevel (raw : RawLevel) : Except String Level := do
  let price ← toDecimal raw.1
  let qty ← toDecimal raw.2
  pure (price, qty)

/-- A price that is there keeps its place and its digits. -/
def put (level : Level) (side : Side) : Side :=
  if !(plain level.1).isNan && side.any (fun old => plain old.1 = plain level.1) then
    side.map fun old => if plain old.1 = plain level.1 then (old.1, level.2) else old
  else side ++ [level]

def putAll (levels : List Level) : Side := levels.foldl (fun side level => put level side) []

def drop (price : Decimal) (side : Side) : Side :=
  if (plain price).isNan then side else side.filter fun old => plain old.1 ≠ plain price

def sorted (reverse : Bool) (side : Side) : Except String Side :=
  if 2 ≤ side.length && side.any (fun level => (plain level.1).isNan) then
    .error "InvalidOperation: [<class 'decimal.InvalidOperation'>]"
  else
    .ok (side.insertionSort fun a b =>
      if reverse then (plain b.1).le (plain a.1) else (plain a.1).le (plain b.1))

def slice (depth : Int) (side : Side) : Side :=
  if 0 ≤ depth then side.take depth.toNat else side.take (side.length - depth.natAbs)

def pruneSide (depth : Int) (reverse : Bool) (side : Side) : Except String Side :=
  if depth < side.length then (sorted reverse side).map (slice depth) else .ok side

namespace Book

def prune (b : Book) : Except String Book := do
  let asks ← pruneSide b.depth false b.asks
  let bids ← pruneSide b.depth true b.bids
  pure { b with asks, bids }

/-- Both sides are sorted for the checksum. -/
def validate (b : Book) : Except String Book := do
  discard (sorted false b.asks)
  discard (sorted true b.bids)
  pure b

def ingestSnapshot (b : Book) (bids asks : List RawLevel) : Except String Book := do
  let bids ← bids.mapM extractLevel
  let asks ← asks.mapM extractLevel
  let b ← prune { b with bids := putAll bids, asks := putAll asks }
  b.validate

end Book

def applySide : List RawLevel → Side → Except String Side
  | [], side => .ok side
  | raw :: rest, side => do
    let (price, qty) ← extractLevel raw
    applySide rest (if plain qty = .number 0 then drop price side else put (price, qty) side)

def Book.ingestUpdate (b : Book) (bids asks : List RawLevel) : Except String Book := do
  let bids ← applySide bids b.bids
  let asks ← applySide asks b.asks
  let b ← Book.prune { b with bids, asks }
  b.validate

/-- A level of one message, as a segment holds it. -/
structure Row where
  ts : Int
  symbol : String
  type : String
  checksum : Option Int
  side : String
  price : Option Decimal
  qty : Option Decimal
  deriving DecidableEq, Repr

structure Message where
  ts : Int
  symbol : String
  type : String
  checksum : Option Int
  bids : List RawLevel
  asks : List RawLevel
  deriving DecidableEq, Repr

/-- A row put before the messages of the rows after it. -/
def regroupRow (row : Row) (later : List Message) : List Message :=
  let level := (row.price, row.qty)
  let bids := if row.side = "bid" then [level] else []
  let asks := if row.side = "bid" then [] else [level]
  match later with
  | m :: more =>
    if m.ts = row.ts ∧ m.symbol = row.symbol ∧ m.type = row.type ∧ m.checksum = row.checksum then
      { m with bids := bids ++ m.bids, asks := asks ++ m.asks } :: more
    else ⟨row.ts, row.symbol, row.type, row.checksum, bids, asks⟩ :: m :: more
  | [] => [⟨row.ts, row.symbol, row.type, row.checksum, bids, asks⟩]

/-- The messages that consecutive rows came in. -/
def regroupMessages (frame : List Row) : List Message := frame.foldr regroupRow []

def ingest (b : Book) (m : Message) : Except String Book :=
  if m.type = "snapshot" then b.ingestSnapshot m.bids m.asks else b.ingestUpdate m.bids m.asks

/- The same book by value. -/

def plainLevel (level : Level) : OrderBook.Level := (plain level.1, plain level.2)

def plainSide (side : Side) : OrderBook.Side := side.map plainLevel

def plainRaw (raw : RawLevel) : OrderBook.RawLevel := (raw.1.map plain, raw.2.map plain)

def Book.plain (b : Book) : OrderBook.Book := ⟨b.depth, plainSide b.bids, plainSide b.asks⟩

def Row.plain (row : Row) : Continuity.Row :=
  ⟨row.ts, row.symbol, row.type, row.checksum, row.side, row.price.map Panel.plain, row.qty.map Panel.plain⟩

def Message.plain (m : Message) : Continuity.Message :=
  ⟨m.ts, m.symbol, m.type, m.checksum, m.bids.map plainRaw, m.asks.map plainRaw⟩

section
variable {side other : Side} {level : Level} {price : Decimal} {b next : Book} {levels : List Level}

theorem plainSide_put (level : Level) (side : Side) :
    plainSide (put level side) = OrderBook.put (plainLevel level) (plainSide side) := by
  have same : (plainSide side).any (fun old => old.1 = (plainLevel level).1) =
      side.any fun old => plain old.1 = plain level.1 := List.any_map
  have price : (plainLevel level).1 = plain level.1 := rfl
  unfold put OrderBook.put
  rw [same, price]
  by_cases there : (!(plain level.1).isNan && side.any fun old => plain old.1 = plain level.1) = true
  · rw [if_pos there, if_pos there, plainSide, plainSide, List.map_map, List.map_map]
    apply List.map_congr_left
    intro old mem
    by_cases here : plain old.1 = plain level.1
    · simp [plainLevel, here]
    · simp [plainLevel, here]
  · rw [if_neg there, if_neg there, plainSide, List.map_append]
    rfl

theorem plainSide_putAll (levels : List Level) :
    plainSide (putAll levels) =
      (levels.map plainLevel).foldl (fun side level => OrderBook.put level side) [] := by
  have each : ∀ (start : Side), plainSide (levels.foldl (fun side level => put level side) start) =
      (levels.map plainLevel).foldl (fun side level => OrderBook.put level side) (plainSide start) := by
    induction levels with
    | nil => exact fun _ => rfl
    | cons level rest ih =>
      intro start
      rw [List.foldl_cons, ih, plainSide_put]
      rfl
  exact each []

theorem plainSide_drop (price : Decimal) (side : Side) :
    plainSide (drop price side) = OrderBook.drop (plain price) (plainSide side) := by
  unfold drop OrderBook.drop plainSide
  split
  · rfl
  · rw [List.filter_map]
    rfl

theorem plainSide_slice (depth : Int) (side : Side) :
    plainSide (slice depth side) = OrderBook.slice depth (plainSide side) := by
  unfold slice OrderBook.slice plainSide
  split
  · rw [List.map_take]
  · rw [List.map_take, List.length_map]

theorem sorted_plain (reverse : Bool) (side : Side) :
    (sorted reverse side).map plainSide = OrderBook.sorted reverse (plainSide side) := by
  have same : (plainSide side).any (fun level => level.1.isNan) =
      side.any fun level => (plain level.1).isNan := List.any_map
  have length : (plainSide side).length = side.length := List.length_map _
  unfold sorted OrderBook.sorted
  rw [same, length]
  split
  · rfl
  · rename_i numbers
    refine congrArg Except.ok (List.map_insertionSort _ _ plainLevel side ?_)
    intro a _ b _
    rfl

theorem extractLevel_plain (raw : RawLevel) :
    (extractLevel raw).map plainLevel = OrderBook.extractLevel (plainRaw raw) := by
  obtain ⟨price, qty⟩ := raw
  cases price with
  | none => rfl
  | some price =>
    cases qty with
    | none => rfl
    | some qty => rfl

theorem mapM_plain (raws : List RawLevel) :
    (raws.mapM extractLevel).map (List.map plainLevel) = (raws.map plainRaw).mapM OrderBook.extractLevel := by
  induction raws with
  | nil => rfl
  | cons raw rest ih =>
    rw [List.map_cons, List.mapM_cons, List.mapM_cons, ← ih, ← extractLevel_plain]
    cases extractLevel raw with
    | error e => rfl
    | ok level =>
      cases rest.mapM extractLevel with
      | error e => rfl
      | ok levels => rfl

theorem pruneSide_plain (depth : Int) (reverse : Bool) (side : Side) :
    (pruneSide depth reverse side).map plainSide = OrderBook.pruneSide depth reverse (plainSide side) := by
  have length : (plainSide side).length = side.length := List.length_map _
  unfold pruneSide OrderBook.pruneSide
  rw [length]
  split
  · rw [← sorted_plain]
    cases sorted reverse side with
    | error e => rfl
    | ok levels => exact congrArg Except.ok (plainSide_slice depth levels)
  · rfl

theorem prune_plain (b : Book) : b.prune.map Book.plain = b.plain.prune := by
  unfold Book.prune OrderBook.Book.prune Book.plain
  rw [← pruneSide_plain, ← pruneSide_plain]
  cases pruneSide b.depth false b.asks with
  | error e => rfl
  | ok asks =>
    cases pruneSide b.depth true b.bids with
    | error e => rfl
    | ok bids => rfl

theorem validate_plain (b : Book) : b.validate.map Book.plain = b.plain.validate := by
  unfold Book.validate OrderBook.Book.validate Book.plain
  rw [← sorted_plain, ← sorted_plain]
  cases sorted false b.asks with
  | error e => rfl
  | ok asks =>
    cases sorted true b.bids with
    | error e => rfl
    | ok bids => rfl

theorem applySide_plain (raws : List RawLevel) (side : Side) :
    (applySide raws side).map plainSide = OrderBook.applySide (raws.map plainRaw) (plainSide side) := by
  induction raws generalizing side with
  | nil => rfl
  | cons raw rest ih =>
    rw [List.map_cons, applySide, OrderBook.applySide, ← extractLevel_plain]
    cases extractLevel raw with
    | error e => rfl
    | ok level =>
      change (applySide rest (if plain level.2 = .number 0 then drop level.1 side else put level side)).map
        plainSide = OrderBook.applySide (rest.map plainRaw) (if plain level.2 = .number 0 then
          OrderBook.drop (plain level.1) (plainSide side) else OrderBook.put (plainLevel level) (plainSide side))
      rw [ih]
      split
      · rw [plainSide_drop]
      · rw [plainSide_put]

theorem prune_validate_plain (b : Book) :
    (b.prune >>= Book.validate).map Book.plain = b.plain.prune >>= OrderBook.Book.validate := by
  rw [← prune_plain]
  cases b.prune with
  | error e => rfl
  | ok pruned => exact validate_plain pruned

/-- What is ingested into the book is ingested into the book by value. -/
theorem ingest_plain (b : Book) (m : Message) :
    (ingest b m).map Book.plain = Continuity.ingest b.plain m.plain := by
  unfold ingest Continuity.ingest
  by_cases snapshot : m.type = "snapshot"
  · have other : m.plain.type = "snapshot" := snapshot
    rw [if_pos snapshot, if_pos other]
    unfold Book.ingestSnapshot OrderBook.Book.ingestSnapshot Message.plain
    dsimp only
    rw [← mapM_plain, ← mapM_plain]
    cases m.bids.mapM extractLevel with
    | error e => rfl
    | ok bids =>
      cases m.asks.mapM extractLevel with
      | error e => rfl
      | ok asks =>
        have both := prune_validate_plain { b with bids := putAll bids, asks := putAll asks }
        simp only [Book.plain, plainSide_putAll] at both
        exact both
  · have other : ¬ m.plain.type = "snapshot" := snapshot
    rw [if_neg snapshot, if_neg other]
    unfold Book.ingestUpdate OrderBook.Book.ingestUpdate Message.plain
    dsimp only
    have bids_plain := applySide_plain m.bids b.bids
    have asks_plain := applySide_plain m.asks b.asks
    rw [show b.plain.bids = plainSide b.bids from rfl, show b.plain.asks = plainSide b.asks from rfl,
      ← bids_plain, ← asks_plain]
    cases applySide m.bids b.bids with
    | error e => rfl
    | ok bids =>
      cases applySide m.asks b.asks with
      | error e => rfl
      | ok asks => exact prune_validate_plain { b with bids, asks }

theorem regroup_plain (frame : List Row) :
    (regroupMessages frame).map Message.plain = Continuity.regroupMessages (frame.map Row.plain) := by
  induction frame with
  | nil => rfl
  | cons row rest ih =>
    have step : ∀ later, (regroupRow row later).map Message.plain =
        Continuity.regroupRow row.plain (later.map Message.plain) := by
      intro later
      by_cases bid : row.side = "bid"
      · cases later with
        | nil => simp [regroupRow, Continuity.regroupRow, Row.plain, Message.plain, plainRaw, bid]
        | cons m more =>
          by_cases same : m.ts = row.ts ∧ m.symbol = row.symbol ∧ m.type = row.type ∧
              m.checksum = row.checksum
          · simp [regroupRow, Continuity.regroupRow, Row.plain, Message.plain, plainRaw, bid, same]
          · simp [regroupRow, Continuity.regroupRow, Row.plain, Message.plain, plainRaw, bid, same]
      · cases later with
        | nil => simp [regroupRow, Continuity.regroupRow, Row.plain, Message.plain, plainRaw, bid]
        | cons m more =>
          by_cases same : m.ts = row.ts ∧ m.symbol = row.symbol ∧ m.type = row.type ∧
              m.checksum = row.checksum
          · simp [regroupRow, Continuity.regroupRow, Row.plain, Message.plain, plainRaw, bid, same]
          · simp [regroupRow, Continuity.regroupRow, Row.plain, Message.plain, plainRaw, bid, same]
    calc
      (regroupMessages (row :: rest)).map Message.plain =
          Continuity.regroupRow row.plain ((regroupMessages rest).map Message.plain) := step _
      _ = Continuity.regroupMessages ((row :: rest).map Row.plain) := by rw [ih]; rfl

theorem ingestAll_plain (messages : List Message) (b : Book) :
    (messages.foldlM ingest b).map Book.plain = Continuity.ingestAll b.plain (messages.map Message.plain) := by
  unfold Continuity.ingestAll
  induction messages generalizing b with
  | nil => rfl
  | cons m rest ih =>
    rw [List.foldlM_cons, List.map_cons, List.foldlM_cons, ← ingest_plain]
    cases ingest b m with
    | error e => rfl
    | ok next => exact ih next

end

/-- How the prices and quantities of a segment are written does not decide what the book holds after it: rows and books
    equal by value end in books equal by value, or in the same error. -/
theorem digits_unread {frame frame' : List Row} {b b' : Book} (rows : frame.map Row.plain = frame'.map Row.plain)
    (start : b.plain = b'.plain) :
    ((regroupMessages frame).foldlM ingest b).map Book.plain =
      ((regroupMessages frame').foldlM ingest b').map Book.plain := by
  rw [ingestAll_plain, ingestAll_plain, regroup_plain, regroup_plain, rows, start]

/-- A bid put at 1.0 and taken off again at 1.00. -/
def bidAt (coefficient : Nat) (exponent : Int) (qty : Nat) : Row :=
  ⟨0, "BTC/EUR", "update", none, "bid", some (.finite false coefficient exponent), some (.finite false qty 0)⟩

theorem digits_unread_bid :
    ((regroupMessages [bidAt 10 (-1) 2, bidAt 100 (-2) 0]).foldlM ingest ⟨10, [], []⟩).map Book.plain =
      ((regroupMessages [bidAt 1 0 2, bidAt 1 0 0]).foldlM ingest ⟨10, [], []⟩).map Book.plain :=
  digits_unread (by decide +kernel) rfl

/- The prices of a side. -/

def keys (side : Side) : List OrderBook.Decimal := side.map fun level => plain level.1

/-- No two prices are one number. -/
def Apart (side : Side) : Prop := (keys side).Pairwise fun a b => a = b → a = .nan

/-- A book that passed its checksum's sort. -/
structure Book.Sound (depth : Int) (b : Book) : Prop where
  depth : b.depth = depth
  bids : (keys b.bids).Nodup
  asks : (keys b.asks).Nodup

theorem Book.Sound.empty (depth : Int) : Book.Sound depth ⟨depth, [], []⟩ :=
  ⟨rfl, List.nodup_nil, List.nodup_nil⟩

section
variable {side done : Side} {level : Level} {b next : Book} {m : Message} {depth : Int}

theorem isNan_iff {d : OrderBook.Decimal} : d.isNan = true ↔ d = .nan := by
  cases d with
  | number value => simp [OrderBook.Decimal.isNan]
  | infinity negative => simp [OrderBook.Decimal.isNan]
  | nan => simp [OrderBook.Decimal.isNan]

theorem apart_of_nodup (nodup : (keys side).Nodup) : Apart side :=
  nodup.imp fun differs same => absurd same differs

theorem Apart.sublist (apart : Apart side) (part : done.Sublist side) : Apart done :=
  List.Pairwise.sublist (part.map _) apart

theorem Apart.put (apart : Apart side) (level : Level) : Apart (Panel.put level side) := by
  unfold Panel.put
  split
  · have same : keys (side.map fun old => if plain old.1 = plain level.1 then (old.1, level.2) else old) =
        keys side := by
      unfold keys
      rw [List.map_map]
      apply List.map_congr_left
      intro old _
      by_cases here : plain old.1 = plain level.1
      · simp [here]
      · simp [here]
    rw [Apart, same]
    exact apart
  · rename_i absent
    unfold Apart keys at *
    rw [List.map_append, List.pairwise_append]
    refine ⟨apart, List.pairwise_singleton _ _, ?_⟩
    intro a old b new same
    rw [List.map_singleton, List.mem_singleton] at new
    obtain ⟨other, mem, rfl⟩ := List.mem_map.mp old
    rw [new] at same
    rw [Bool.and_eq_true, not_and, List.any_eq_true] at absent
    by_cases nan : (plain level.1).isNan = true
    · rw [same]
      exact isNan_iff.mp nan
    · exact absurd ⟨other, mem, decide_eq_true same⟩ (absent (by simpa using nan))

theorem putAll_apart (levels : List Level) : Apart (putAll levels) := by
  unfold putAll
  have each : ∀ start, Apart start → Apart (levels.foldl (fun side level => put level side) start) := by
    induction levels with
    | nil => exact fun _ apart => apart
    | cons level rest ih => exact fun start apart => ih _ (apart.put level)
  exact each [] List.Pairwise.nil

theorem Apart.drop (apart : Apart side) (price : Decimal) : Apart (Panel.drop price side) := by
  unfold Panel.drop
  split
  · exact apart
  · exact apart.sublist List.filter_sublist

theorem Apart.sorted (apart : Apart side) {reverse : Bool} (h : sorted reverse side = .ok done) :
    Apart done := by
  unfold Panel.sorted at h
  split at h
  · cases h
  · injection h with same
    rw [← same]
    have order := (List.perm_insertionSort (fun a b : Level =>
      if reverse then (plain b.1).le (plain a.1) else (plain a.1).le (plain b.1)) side).map
        fun level => plain level.1
    apply (List.Perm.pairwise_iff _ order).mpr apart
    intro a b first same
    rw [same]
    exact first same.symm

theorem sorted_nodup {reverse : Bool} (h : sorted reverse side = .ok done) (apart : Apart side) :
    (keys side).Nodup := by
  unfold sorted at h
  split at h
  · cases h
  · rename_i numbers
    rw [Bool.and_eq_true, not_and, decide_eq_true_eq] at numbers
    by_cases two : 2 ≤ side.length
    · have none := numbers two
      rw [List.any_eq_true] at none
      apply List.Pairwise.imp_of_mem _ apart
      intro a b mem _ first same
      obtain ⟨level, inside, key⟩ := List.mem_map.mp mem
      exact none ⟨level, inside, isNan_iff.mpr (key.trans (first same))⟩
    · match side, two with
      | [], _ => exact List.nodup_nil
      | [level], _ => exact List.nodup_singleton _
      | _ :: _ :: rest, two => exact absurd (by simp) two

theorem Apart.pruneSide (apart : Apart side) {reverse : Bool} (h : pruneSide depth reverse side = .ok done) :
    Apart done := by
  unfold Panel.pruneSide at h
  split at h
  · cases order : Panel.sorted reverse side with
    | error e =>
      rw [order] at h
      cases h
    | ok levels =>
      rw [order] at h
      injection h with same
      rw [← same]
      unfold slice
      split
      · exact (apart.sorted order).sublist (List.take_sublist _ _)
      · exact (apart.sorted order).sublist (List.take_sublist _ _)
  · injection h with same
    exact same ▸ apart

theorem discard_ok {x : Except String Side} {u : PUnit} (h : discard x = .ok u) : ∃ levels, x = .ok levels := by
  cases x with
  | error e => cases h
  | ok levels => exact ⟨levels, rfl⟩

theorem prune_validate (bids : Apart b.bids) (asks : Apart b.asks)
    (h : b.prune >>= Book.validate = .ok next) : next.Sound b.depth := by
  obtain ⟨pruned, prune, valid⟩ := Fallible.bind_ok.mp h
  obtain ⟨newAsks, cutAsks, prune⟩ := Fallible.bind_ok.mp prune
  obtain ⟨newBids, cutBids, prune⟩ := Fallible.bind_ok.mp prune
  injection prune with same
  obtain ⟨_, orderAsks, valid⟩ := Fallible.bind_ok.mp valid
  obtain ⟨_, orderBids, valid⟩ := Fallible.bind_ok.mp valid
  injection valid with unchanged
  obtain ⟨_, orderAsks⟩ := discard_ok orderAsks
  obtain ⟨_, orderBids⟩ := discard_ok orderBids
  subst unchanged
  subst same
  exact ⟨rfl, sorted_nodup orderBids (bids.pruneSide cutBids), sorted_nodup orderAsks (asks.pruneSide cutAsks)⟩

theorem applySide_apart {raws : List RawLevel} (apart : Apart side) (h : applySide raws side = .ok done) :
    Apart done := by
  induction raws generalizing side with
  | nil =>
    injection h with same
    exact same ▸ apart
  | cons raw rest ih =>
    rw [applySide] at h
    obtain ⟨⟨price, qty⟩, -, h⟩ := Fallible.bind_ok.mp h
    by_cases zero : plain qty = .number 0
    · exact ih (apart.drop price) (by simpa [zero] using h)
    · exact ih (apart.put (price, qty)) (by simpa [zero] using h)

/-- What an ingest leaves is a book that passed its sort. -/
theorem Book.Sound.ingest (sound : b.Sound depth) (h : Panel.ingest b m = .ok next) : next.Sound depth := by
  unfold Panel.ingest at h
  split at h
  · unfold Book.ingestSnapshot at h
    obtain ⟨bids, -, h⟩ := Fallible.bind_ok.mp h
    obtain ⟨asks, -, h⟩ := Fallible.bind_ok.mp h
    have result := prune_validate (putAll_apart bids) (putAll_apart asks) h
    rw [← sound.depth]
    exact result
  · unfold Book.ingestUpdate at h
    obtain ⟨bids, readBids, h⟩ := Fallible.bind_ok.mp h
    obtain ⟨asks, readAsks, h⟩ := Fallible.bind_ok.mp h
    have result := prune_validate (applySide_apart (apart_of_nodup sound.bids) readBids)
      (applySide_apart (apart_of_nodup sound.asks) readAsks) h
    rw [← sound.depth]
    exact result

end

end Panel
