import Mathlib.Data.List.Chain
import Zcrypto.Archive.Replay

/- The capture writer's fan-out of a book message into rows, and what regrouping makes of them. A run of
   rows with one key is one message again, so that neighbours that share the whole key come back as one. -/
namespace Continuity
open OrderBook

/-- A message as the handler has it, its numbers taken as exact. -/
structure Entry where
  ts : Int
  symbol : String
  snapshot : Bool
  checksum : Int
  bids : List Level
  asks : List Level
  deriving DecidableEq, Repr

namespace Entry
variable (e : Entry)

def rowType : String := if e.snapshot then "snapshot" else "update"

def rows (side : String) (levels : List Level) : List Row :=
  levels.map fun level => ⟨e.ts, e.symbol, e.rowType, e.checksum, side, level.1, level.2⟩

/-- One row a level: all bids, then all asks. -/
def fanOut : List Row := e.rows "bid" e.bids ++ e.rows "ask" e.asks

def message : Message :=
  ⟨e.ts, e.symbol, e.rowType, e.checksum, e.bids.map fun level => (some level.1, some level.2),
    e.asks.map fun level => (some level.1, some level.2)⟩

end Entry

abbrev RowKey := Int × String × String × Option Int

def Row.key (row : Row) : RowKey := (row.ts, row.symbol, row.type, row.checksum)
def Message.key (m : Message) : RowKey := (m.ts, m.symbol, m.type, m.checksum)
def Entry.key (e : Entry) : RowKey := (e.ts, e.symbol, e.rowType, e.checksum)

/-- The books that a replay passes through, up to the first message that it cannot take. -/
def books (b : Book) : List Message → List (Except String Book)
  | [] => []
  | m :: rest => ingest b m :: match ingest b m with
    | .ok b' => books b' rest
    | .error _ => []

section
variable {row : Row} {rows : List Row} {m : Message} {later : List Message} {e : Entry} {es : List Entry}

def Row.bids (row : Row) : List RawLevel := if row.side = "bid" then [(row.price, row.qty)] else []
def Row.asks (row : Row) : List RawLevel := if row.side = "bid" then [] else [(row.price, row.qty)]

theorem regroupRow_same (same : m.key = row.key) : regroupRow row (m :: later) =
    { m with bids := row.bids ++ m.bids, asks := row.asks ++ m.asks } :: later := by
  unfold Message.key Row.key at same
  obtain ⟨ts, symbol, type, checksum⟩ := by simpa only [Prod.mk.injEq] using same
  exact if_pos ⟨ts, symbol, type, checksum⟩

theorem regroupRow_apart (apart : ∀ m ∈ later.head?, m.key ≠ row.key) :
    regroupRow row later = ⟨row.ts, row.symbol, row.type, row.checksum, row.bids, row.asks⟩ :: later := by
  cases later with
  | nil => rfl
  | cons m more =>
    refine if_neg ?_
    rintro ⟨ts, symbol, type, checksum⟩
    apply apart m rfl
    simp only [Message.key, Row.key, ts, symbol, type, checksum]

theorem regroup_same (same : ∀ row ∈ rows, m.key = row.key) : rows.foldr regroupRow (m :: later) =
    { m with bids := rows.flatMap Row.bids ++ m.bids, asks := rows.flatMap Row.asks ++ m.asks } :: later := by
  induction rows with
  | nil => rfl
  | cons row rest ih =>
    rw [List.foldr_cons, ih fun r mem => same r (List.mem_cons_of_mem _ mem), regroupRow_same]
    · simp only [List.flatMap_cons, List.append_assoc]
    · exact same row List.mem_cons_self

/-- Rows of one key are one message, before a message of another. -/
theorem regroup_run {k : RowKey} (some : rows ≠ []) (same : ∀ row ∈ rows, row.key = k)
    (apart : ∀ m ∈ later.head?, m.key ≠ k) : rows.foldr regroupRow later =
      ⟨k.1, k.2.1, k.2.2.1, k.2.2.2, rows.flatMap Row.bids, rows.flatMap Row.asks⟩ :: later := by
  obtain ⟨before, last, rfl⟩ := List.eq_nil_or_concat' rows |>.resolve_left some
  have own := same last (by simp)
  subst own
  rw [List.foldr_append, List.foldr_cons, List.foldr_nil, regroupRow_apart apart, regroup_same]
  · simp [Row.key]
  · intro row mem
    exact (same row (List.mem_append_left _ mem)).symm

theorem fanOut_key (mem : row ∈ e.fanOut) : row.key = e.key := by
  unfold Entry.fanOut Entry.rows at mem
  rcases List.mem_append.mp mem with bid | ask
  · obtain ⟨level, -, rfl⟩ := List.mem_map.mp bid
    rfl
  · obtain ⟨level, -, rfl⟩ := List.mem_map.mp ask
    rfl

theorem fanOut_levels (e : Entry) : e.fanOut.flatMap Row.bids = e.message.bids ∧
    e.fanOut.flatMap Row.asks = e.message.asks := by
  have bid : ∀ levels : List Level, (e.rows "bid" levels).flatMap Row.bids =
      levels.map (fun level => (some level.1, some level.2)) ∧ (e.rows "bid" levels).flatMap Row.asks = [] := by
    intro levels
    unfold Entry.rows
    induction levels with
    | nil => exact ⟨rfl, rfl⟩
    | cons level rest ih => exact ⟨congrArg (List.cons _) ih.1, ih.2⟩
  have ask : ∀ levels : List Level, (e.rows "ask" levels).flatMap Row.bids = [] ∧
      (e.rows "ask" levels).flatMap Row.asks = levels.map fun level => (some level.1, some level.2) := by
    intro levels
    unfold Entry.rows
    induction levels with
    | nil => exact ⟨rfl, rfl⟩
    | cons level rest ih => exact ⟨ih.1, congrArg (List.cons _) ih.2⟩
  unfold Entry.fanOut Entry.message
  rw [List.flatMap_append, List.flatMap_append, (bid e.bids).1, (bid e.bids).2, (ask e.asks).1,
    (ask e.asks).2]
  exact ⟨List.append_nil _, List.nil_append _⟩

theorem fanOut_some (levels : e.bids ≠ [] ∨ e.asks ≠ []) : e.fanOut ≠ [] := by
  intro none
  obtain ⟨bids, asks⟩ := List.append_eq_nil_iff.mp none
  rcases levels with bid | ask
  · exact bid (List.map_eq_nil_iff.mp bids)
  · exact ask (List.map_eq_nil_iff.mp asks)

/-- A message comes back where the one after it has another key. -/
theorem regroup_fanOut (levels : e.bids ≠ [] ∨ e.asks ≠ []) (apart : ∀ m ∈ later.head?, m.key ≠ e.key) :
    e.fanOut.foldr regroupRow later = e.message :: later := by
  rw [regroup_run (fanOut_some levels) (fun row mem => fanOut_key mem) apart, (fanOut_levels e).1,
    (fanOut_levels e).2]
  rfl

/-- No two neighbours of what regrouping gives have one key. -/
theorem regroup_chain (frame : List Row) : (regroupMessages frame).IsChain fun a b => a.key ≠ b.key := by
  unfold regroupMessages
  induction frame with
  | nil => exact .nil
  | cons row rest ih =>
    rw [List.foldr_cons]
    generalize rest.foldr regroupRow [] = later at ih
    by_cases apart : ∀ m ∈ later.head?, m.key ≠ row.key
    · rw [regroupRow_apart apart]
      exact List.isChain_cons.mpr ⟨fun m mem => (apart m mem).symm, ih⟩
    · cases later with
      | nil => exact absurd (by simp) apart
      | cons m more =>
        have same : m.key = row.key := by simpa using apart
        rw [regroupRow_same same]
        rw [List.isChain_cons] at ih ⊢
        exact ih

end

/-- Every message that was written comes back from its rows, and the books with it, exactly where no two
    neighbours have their time, symbol, type and checksum in common. -/
theorem regroup_inverts (es : List Entry) (levels : ∀ e ∈ es, e.bids ≠ [] ∨ e.asks ≠ []) :
    (regroupMessages (es.flatMap Entry.fanOut) = es.map Entry.message ∧
      ∀ b, books b (regroupMessages (es.flatMap Entry.fanOut)) = books b (es.map Entry.message)) ↔
    es.IsChain fun a b => a.key ≠ b.key := by
  constructor
  · intro inverts
    have chain := regroup_chain (es.flatMap Entry.fanOut)
    rw [inverts.1, List.isChain_map] at chain
    exact chain
  · intro chain
    have inverts : regroupMessages (es.flatMap Entry.fanOut) = es.map Entry.message := by
      unfold regroupMessages
      induction es with
      | nil => rfl
      | cons e rest ih =>
        obtain ⟨apart, chain⟩ := List.isChain_cons.mp chain
        rw [List.flatMap_cons, List.foldr_append, ih (fun e mem => levels e (List.mem_cons_of_mem _ mem)) chain]
        apply regroup_fanOut (levels e List.mem_cons_self)
        intro m first
        rw [List.head?_map] at first
        obtain ⟨next, here, rfl⟩ := Option.mem_map.mp first
        exact (apart next here).symm
    exact ⟨inverts, fun b => by rw [inverts]⟩

/-- Two updates of one instant, whose levels are too deep for the checksum. -/
def deepUpdates : List Entry :=
  [⟨0, "BTC/EUR", false, 7, [(.number 100, .number 2)], []⟩,
    ⟨0, "BTC/EUR", false, 7, [], [(.number 120, .number 3)]⟩]

theorem regroup_inverts_update : regroupMessages ((deepUpdates.take 1).flatMap Entry.fanOut) =
    (deepUpdates.take 1).map Entry.message := by
  have inverts := regroup_inverts (deepUpdates.take 1) (by decide)
  exact (inverts.mpr (List.isChain_singleton _)).1

theorem regroup_merges : regroupMessages (deepUpdates.flatMap Entry.fanOut) ≠ deepUpdates.map Entry.message ∧
    (books ⟨100, [], []⟩ (regroupMessages (deepUpdates.flatMap Entry.fanOut))).length ≠
      (books ⟨100, [], []⟩ (deepUpdates.map Entry.message)).length := by
  decide +kernel

end Continuity
