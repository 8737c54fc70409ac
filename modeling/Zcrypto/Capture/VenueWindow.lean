import Mathlib.Order.Basic
import Zcrypto.Window
import Zcrypto.Capture.OrderBook
import Mathlib.Algebra.Ring.Rat

/- A venue's full books, of which its messages tell the levels within a depth, and a pair's book that is
   kept by them: after every message it holds the venue's best levels and no other. -/
namespace OrderBook
open Keyed Window

/- Kraken's checksum covers only the top price levels, whatever the depth. -/
def checksumLevels : Nat := 10

/-- The digits a price and a quantity are written with, as the pair's precisions have them, and the digest. -/
structure Recipe where
  price : Decimal → String
  qty : Decimal → String
  crc32 : String → Nat

def levelsText (r : Recipe) (levels : Side) : String :=
  String.join (levels.map fun level => r.price level.1 ++ r.qty level.2)

def Book.checksum (r : Recipe) (b : Book) : Except String Nat := do
  let asks ← sorted false b.asks
  let bids ← sorted true b.bids
  pure (r.crc32 (levelsText r (asks.take checksumLevels) ++ levelsText r (bids.take checksumLevels)))

/- The venue. -/

/-- All that stands at a venue, each side from its best level: the highest bid, the lowest ask. -/
structure FullBook where
  bids : List (ℚᵒᵈ × ℚ)
  asks : List (ℚ × ℚ)
  bestBids : Ascending Prod.fst bids
  bestAsks : Ascending Prod.fst asks
  standing : (∀ l ∈ bids, l.2 ≠ 0) ∧ ∀ l ∈ asks, l.2 ≠ 0

/-- The levels a message carries, of each side in any order. -/
structure Payload where
  bids : List (ℚᵒᵈ × ℚ)
  asks : List (ℚ × ℚ)

section
variable {α : Type} (price : α → ℚ)

def level (e : α × ℚ) : Level := (.number (price e.1), .number e.2)

def raw (e : α × ℚ) : RawLevel := (some (.number (price e.1)), some (.number e.2))

end

def Payload.rawBids (m : Payload) : List RawLevel := m.bids.map (raw OrderDual.ofDual)
def Payload.rawAsks (m : Payload) : List RawLevel := m.asks.map (raw id)

/-- The best levels of a full book, as levels of a pair's book. -/
def FullBook.topBids (v : FullBook) (n : Nat) : Side := (v.bids.take n).map (level OrderDual.ofDual)
def FullBook.topAsks (v : FullBook) (n : Nat) : Side := (v.asks.take n).map (level id)

/-- A snapshot of the window of a full book. -/
def Snapshot (n : Nat) (v : FullBook) (m : Payload) : Prop :=
  m.bids.Perm (v.bids.take n) ∧ m.asks.Perm (v.asks.take n)

/-- What the feed tells of one full book becoming another. -/
def Feeds (n : Nat) (v v' : FullBook) (m : Payload) : Prop :=
  Tells n v.bids v'.bids m.bids ∧ Tells n v.asks v'.asks m.asks

/-- The messages that follow a full book, each with the full book it leads to. -/
def Feed (n : Nat) : FullBook → List (Payload × FullBook) → Prop
  | _, [] => True
  | v, (m, v') :: rest => Feeds n v v' m ∧ Feed n v' rest

def lastBook (v : FullBook) (updates : List (Payload × FullBook)) : FullBook :=
  (updates.map Prod.snd).getLastD v

/-- A snapshot and the updates after it, ingested. -/
def ingestFeed (b : Book) (snapshot : Payload) (updates : List (Payload × FullBook)) : Except String Book := do
  let b ← b.ingestSnapshot snapshot.rawBids snapshot.rawAsks
  updates.foldlM (fun b u => b.ingestUpdate u.1.rawBids u.1.rawAsks) b

/- Levels of numbers. -/

section
variable {α : Type} [LinearOrder α] {price : α → ℚ} {l : List (α × ℚ)} {reverse : Bool} {n : Nat}

omit [LinearOrder α] in
theorem number_inj (inj : price.Injective) (a b : α) : Decimal.number (price a) = .number (price b) ↔ a = b := by
  rw [Decimal.number.injEq, inj.eq_iff]

theorem put_level (inj : price.Injective) (e : α × ℚ) (l : List (α × ℚ)) :
    put (level price e) (l.map (level price)) = (assign l e).map (level price) := by
  have there : (l.map (level price)).any (fun old => old.1 = (level price e).1) = l.any (·.1 = e.1) := by
    rw [List.any_map]
    refine congrArg (l.any ·) (funext fun old => ?_)
    exact decide_eq_decide.mpr (number_inj inj old.1 e.1)
  unfold put assign
  rw [there]
  show (if (!false && l.any (·.1 = e.1)) = true then _ else _) = _
  rw [Bool.not_false, Bool.true_and]
  split
  · rw [List.map_map, List.map_map]
    refine List.map_congr_left fun old _ => ?_
    simp only [Function.comp_apply, level, number_inj inj]
    split <;> rfl
  · rw [List.map_append, List.map_singleton]

theorem putAll_level (inj : price.Injective) (message l : List (α × ℚ)) :
    (message.map (level price)).foldl (fun side e => put e side) (l.map (level price)) =
      (message.foldl assign l).map (level price) := by
  induction message generalizing l with
  | nil => rfl
  | cons e rest ih => rw [List.map_cons, List.foldl_cons, put_level inj, ih, List.foldl_cons]

theorem drop_level (inj : price.Injective) (k : α) (l : List (α × ℚ)) :
    drop (.number (price k)) (l.map (level price)) = (erase l k).map (level price) := by
  unfold drop erase
  rw [if_neg (by simp [Decimal.isNan]), List.filter_map]
  refine congrArg (List.map (level price)) (List.filter_congr fun old _ => ?_)
  simp only [Function.comp_apply, level, ne_eq, number_inj inj]

omit [LinearOrder α] in
theorem extract_raw (message : List (α × ℚ)) :
    (message.map (raw price)).mapM extractLevel = .ok (message.map (level price)) := by
  induction message with
  | nil => rfl
  | cons e rest ih =>
    rw [List.map_cons, List.mapM_cons, ih]
    rfl

theorem applySide_level (inj : price.Injective) (message l : List (α × ℚ)) :
    applySide (message.map (raw price)) (l.map (level price)) = .ok ((message.foldl write l).map (level price)) := by
  induction message generalizing l with
  | nil => rfl
  | cons e rest ih =>
    rw [List.foldl_cons, ← ih]
    show applySide _ (if Decimal.number e.2 = .number 0 then drop (.number (price e.1)) (l.map (level price))
      else put (level price e) (l.map (level price))) = _
    unfold write
    by_cases zero : e.2 = 0
    · rw [if_pos zero, if_pos (congrArg Decimal.number zero), drop_level inj]
    · rw [if_neg zero, if_neg (fun same => zero (Decimal.number.inj same)), put_level inj]

/-- A price's order among a side's. -/
def Ranked (price : α → ℚ) (reverse : Bool) : Prop :=
  ∀ a b, (if reverse then price b ≤ price a else price a ≤ price b) ↔ a ≤ b

theorem sorted_level (ranked : Ranked price reverse) (l : List (α × ℚ)) :
    sorted reverse (l.map (level price)) = .ok ((arrange Prod.fst l).map (level price)) := by
  have numbers : (l.map (level price)).any (fun level => level.1.isNan) = false := by
    rw [List.any_map, List.any_eq_false]
    exact fun _ _ => by simp [level, Decimal.isNan]
  unfold sorted arrange
  rw [numbers, Bool.and_false, if_neg (by decide), Except.ok.injEq]
  refine (List.map_insertionSort _ _ _ _ fun a _ b _ => ?_).symm
  rw [← ranked a.1 b.1]
  cases reverse <;> simp [level, Decimal.le]

theorem pruneSide_level (ranked : Ranked price reverse) (l : List (α × ℚ)) :
    pruneSide n reverse (l.map (level price)) = .ok ((best n l).map (level price)) := by
  unfold pruneSide best
  rw [List.length_map, sorted_level ranked]
  by_cases long : n < l.length
  · rw [if_pos long, if_pos (by exact_mod_cast long)]
    show Except.ok (slice n _) = _
    unfold slice
    rw [if_pos (Int.natCast_nonneg n), Int.toNat_natCast, List.map_take]
  · rw [if_neg long, if_neg (by exact_mod_cast long)]

end

/- The pair's book. -/

/-- A book that holds some levels of numbers, each side in the order it came to have. -/
def stored (n : Nat) (bids : List (ℚᵒᵈ × ℚ)) (asks : List (ℚ × ℚ)) : Book :=
  ⟨n, bids.map (level OrderDual.ofDual), asks.map (level id)⟩

theorem ofDual_injective : (OrderDual.ofDual : ℚᵒᵈ → ℚ).Injective := fun _ _ same => same

theorem ranked_bids : Ranked (OrderDual.ofDual : ℚᵒᵈ → ℚ) true := fun _ _ => Iff.rfl

theorem ranked_asks : Ranked (id : ℚ → ℚ) false := fun _ _ => by simp

/-- A book that holds the best levels of a full book and no other. -/
structure Mirrors (n : Nat) (v : FullBook) (b : Book) : Prop where
  depth : b.depth = n
  bids : b.bids.Perm (v.topBids n)
  asks : b.asks.Perm (v.topAsks n)

section
variable {n : Nat} {bids : List (ℚᵒᵈ × ℚ)} {asks : List (ℚ × ℚ)} {v v' : FullBook} {m : Payload}

theorem prune_stored : (stored n bids asks).prune = .ok (stored n (best n bids) (best n asks)) := by
  unfold stored Book.prune
  rw [pruneSide_level ranked_asks, pruneSide_level ranked_bids]
  rfl

theorem validate_stored : (stored n bids asks).validate = .ok (stored n bids asks) := by
  unfold stored Book.validate
  rw [sorted_level ranked_asks, sorted_level ranked_bids]
  rfl

theorem ingestSnapshot_stored (b : Book) (depth : b.depth = n) (m : Payload) :
    b.ingestSnapshot m.rawBids m.rawAsks =
      .ok (stored n (best n (m.bids.foldl assign [])) (best n (m.asks.foldl assign []))) := by
  have filled : ({ b with
      bids := (m.bids.map (level OrderDual.ofDual)).foldl (fun side level => put level side) []
      asks := (m.asks.map (level id)).foldl (fun side level => put level side) [] } : Book) =
      stored n (m.bids.foldl assign []) (m.asks.foldl assign []) := by
    have bids := putAll_level ofDual_injective m.bids []
    have asks := putAll_level Function.injective_id m.asks []
    rw [List.map_nil] at bids asks
    rw [bids, asks, depth]
    rfl
  unfold Book.ingestSnapshot Payload.rawBids Payload.rawAsks
  rw [extract_raw, extract_raw]
  show (Book.prune _ >>= Book.validate) = _
  rw [filled, prune_stored]
  exact validate_stored

theorem ingestUpdate_stored (m : Payload) : (stored n bids asks).ingestUpdate m.rawBids m.rawAsks =
    .ok (stored n (best n (m.bids.foldl write bids)) (best n (m.asks.foldl write asks))) := by
  unfold stored Book.ingestUpdate Payload.rawBids Payload.rawAsks
  rw [applySide_level ofDual_injective, applySide_level Function.injective_id]
  show (Book.prune (stored n _ _) >>= Book.validate) = _
  rw [prune_stored]
  exact validate_stored

/-- Levels that are the best ones, each side in some order. -/
def Held (n : Nat) (v : FullBook) (b : Book) : Prop :=
  ∃ bids asks, b = stored n bids asks ∧ bids.Perm (v.bids.take n) ∧ asks.Perm (v.asks.take n)

theorem Held.mirrors {b : Book} (held : Held n v b) : Mirrors n v b := by
  obtain ⟨bids, asks, rfl, bidsAt, asksAt⟩ := held
  exact ⟨rfl, bidsAt.map _, asksAt.map _⟩

theorem held_snapshot {b : Book} (depth : b.depth = n) (snapshot : Snapshot n v m) :
    ∃ b', b.ingestSnapshot m.rawBids m.rawAsks = .ok b' ∧ Held n v b' := by
  refine ⟨_, ingestSnapshot_stored b depth m, _, _, rfl, ?_, ?_⟩
  · exact begins v.bestBids v.standing.1 snapshot.1
  · exact begins v.bestAsks v.standing.2 snapshot.2

theorem held_update {b : Book} (held : Held n v b) (feeds : Feeds n v v' m) :
    ∃ b', b.ingestUpdate m.rawBids m.rawAsks = .ok b' ∧ Held n v' b' := by
  obtain ⟨bids, asks, rfl, bidsAt, asksAt⟩ := held
  refine ⟨_, ingestUpdate_stored m, _, _, rfl, ?_, ?_⟩
  · exact follows v.bestBids v'.bestBids v'.standing.1 feeds.1 bidsAt
  · exact follows v.bestAsks v'.bestAsks v'.standing.2 feeds.2 asksAt

theorem held_updates {b : Book} {updates : List (Payload × FullBook)} (held : Held n v b)
    (feed : Feed n v updates) :
    ∃ b', updates.foldlM (fun b u => b.ingestUpdate u.1.rawBids u.1.rawAsks) b = .ok b' ∧
      Held n (lastBook v updates) b' := by
  induction updates generalizing v b with
  | nil => exact ⟨b, rfl, held⟩
  | cons update rest ih =>
    obtain ⟨m, next⟩ := update
    obtain ⟨b', now, at_⟩ := held_update held feed.1
    obtain ⟨b'', later, last⟩ := ih at_ feed.2
    refine ⟨b'', ?_, ?_⟩
    · rw [List.foldlM_cons, now]
      exact later
    · cases rest with
      | nil => exact last
      | cons _ _ => exact last

theorem checksum_held {b : Book} (held : Held n v b) (r : Recipe) : b.checksum r = .ok (r.crc32
    (levelsText r (v.topAsks (min checksumLevels n)) ++ levelsText r (v.topBids (min checksumLevels n)))) := by
  obtain ⟨bids, asks, rfl, bidsAt, asksAt⟩ := held
  unfold stored Book.checksum
  rw [sorted_level ranked_asks, sorted_level ranked_bids, (ascending_take v.bestBids n).arranges bidsAt,
    (ascending_take v.bestAsks n).arranges asksAt]
  show Except.ok (r.crc32 (levelsText r (((v.asks.take n).map (level id)).take checksumLevels) ++
    levelsText r (((v.bids.take n).map (level OrderDual.ofDual)).take checksumLevels))) = _
  rw [← List.map_take, ← List.map_take, List.take_take, List.take_take]
  rfl

theorem Feed.take {updates : List (Payload × FullBook)} (feed : Feed n v updates) (k : Nat) :
    Feed n v (updates.take k) := by
  induction updates generalizing v k with
  | nil =>
    rw [List.take_nil]
    exact feed
  | cons update rest ih =>
    obtain ⟨m, next⟩ := update
    cases k with
    | zero => trivial
    | succ k => exact ⟨feed.1, ih feed.2 k⟩

end

/-- After a snapshot of the first window and after each update, the sides of a book are the venue's best
    levels and no others, and its checksum is theirs. -/
theorem book_mirrors_venue (n : Nat) (v : FullBook) (snapshot : Payload) (updates : List (Payload × FullBook))
    (r : Recipe) (b : Book) (depth : b.depth = n) (first : Snapshot n v snapshot) (feed : Feed n v updates)
    (k : Nat) :
    ∃ b', ingestFeed b snapshot (updates.take k) = .ok b' ∧ Mirrors n (lastBook v (updates.take k)) b' ∧
      b'.checksum r = .ok (r.crc32 (levelsText r ((lastBook v (updates.take k)).topAsks (min checksumLevels n)) ++
        levelsText r ((lastBook v (updates.take k)).topBids (min checksumLevels n)))) := by
  obtain ⟨b₁, taken, held⟩ := held_snapshot depth first
  obtain ⟨b₂, told, last⟩ := held_updates held (feed.take k)
  refine ⟨b₂, ?_, last.mirrors, checksum_held last r⟩
  unfold ingestFeed
  rw [taken]
  exact told

/-- The digest bit by bit, of text that is ASCII. -/
def crc32 (text : String) : Nat :=
  let shift (c : Nat) : Nat := if c % 2 = 1 then (c / 2) ^^^ 0xEDB88320 else c / 2
  let one (c : Nat) (char : Char) : Nat := shift^[8] (c ^^^ char.toNat)
  text.toList.foldl one 0xFFFFFFFF ^^^ 0xFFFFFFFF

example : crc32 "123456789" = 0xCBF43926 := by decide +kernel

/-- The digits of a whole number. -/
def wholeDigits : Decimal → String
  | .number value => toString value.num.natAbs
  | _ => "0"

def wholeRecipe : Recipe := ⟨wholeDigits, wholeDigits, crc32⟩

/-- Two bids of which one is told of, until it goes. -/
def deepBook : FullBook where
  bids := [(OrderDual.toDual 100, 1), (OrderDual.toDual 99, 2)]
  asks := [(101, 1)]
  bestBids := by decide +kernel
  bestAsks := by decide +kernel
  standing := by decide +kernel

def thinBook : FullBook where
  bids := [(OrderDual.toDual 99, 2)]
  asks := [(101, 1)]
  bestBids := by decide +kernel
  bestAsks := by decide +kernel
  standing := by decide +kernel

theorem book_mirrors_venue_shift :
    ∃ b', ingestFeed ⟨1, [], []⟩ ⟨[(OrderDual.toDual 100, 1)], [(101, 1)]⟩
        [(⟨[(OrderDual.toDual 99, 2), (OrderDual.toDual 100, 0)], []⟩, thinBook)] = .ok b' ∧
      Mirrors 1 thinBook b' ∧ b'.checksum wholeRecipe = .ok (wholeRecipe.crc32
        (levelsText wholeRecipe (thinBook.topAsks 1) ++ levelsText wholeRecipe (thinBook.topBids 1))) := by
  have bids : Tells 1 deepBook.bids thinBook.bids [(OrderDual.toDual 99, 2), (OrderDual.toDual 100, 0)] := by
    intro k v
    constructor
    · intro told
      rcases List.mem_pair.mp told with new | gone
      · obtain ⟨rfl, rfl⟩ := Prod.mk.inj new
        decide +kernel
      · obtain ⟨rfl, rfl⟩ := Prod.mk.inj gone
        decide +kernel
    · rintro (⟨new, -⟩ | ⟨rfl, ⟨e, old, rfl⟩, -⟩)
      · exact List.mem_pair.mpr (.inl (List.mem_singleton.mp new))
      · rw [List.mem_singleton.mp old]
        decide +kernel
  have asks : Tells 1 deepBook.asks thinBook.asks [] := by
    intro k v
    constructor
    · exact fun told => by cases told
    · rintro (⟨new, other⟩ | ⟨rfl, ⟨e, old, rfl⟩, nowhere⟩)
      · exact absurd new other
      · exact absurd rfl (nowhere e old)
  exact book_mirrors_venue 1 deepBook ⟨[(OrderDual.toDual 100, 1)], [(101, 1)]⟩
    [(⟨[(OrderDual.toDual 99, 2), (OrderDual.toDual 100, 0)], []⟩, thinBook)] wholeRecipe ⟨1, [], []⟩ rfl
    ⟨.refl _, .refl _⟩ ⟨⟨bids, asks⟩, trivial⟩ 1

end OrderBook
