import Mathlib.Algebra.Order.Field.Rat
import Mathlib.Data.List.Sort
import Zcrypto.Fallible
import Zcrypto.GreedyFill

/- A second's row of the panel from the two sides of a book, and what it costs to fill a notional against a
   side. The arithmetic is exact, in any ordered field. -/
namespace Primitives
open GreedyFill

/-- The ladder for a quote: the notionals in the quote's own unit. -/
def notionalsFor (K : Type) [Field K] (quote : String) : Except String (List K) :=
  if quote = "EUR" then .ok [100, 1000, 10000]
  else if quote = "BTC" then
    .ok ([100, 1000, 10000].map fun n : K => n / (5587628413495087 / 100000000000))
  else .error s!"no notional ladder for quote '{quote}': add one to NOTIONALS_BY_QUOTE"

def fillSuffixes : List String := ["100", "1k", "10k"]

def depthLevels : List Nat := [1, 5, 10]

section
variable {K : Type} [Field K] [LinearOrder K]

/-- What is left of the notional after the levels, and the base that the rest comes to. -/
def walk : List (K × K) → K → K → K × K
  | [], remaining, baseQty => (remaining, baseQty)
  | (price, qty) :: rest, remaining, baseQty =>
    if remaining ≤ price * qty then (0, baseQty + remaining / price)
    else walk rest (remaining - price * qty) (baseQty + qty)

def fillBps (levels : List (K × K)) (notional mid : K) (buy : Bool) : Option K :=
  let out := walk levels notional 0
  if 0 < out.1 then none
  else
    let effective := notional / out.2
    some (if buy then (effective - mid) / mid * 10000 else (mid - effective) / mid * 10000)

def depthQty (levels : List (K × K)) (k : Nat) : K := ((levels.take k).map Prod.snd).sum

end

/-- A side of a book: a positive quantity at each of its prices, which are positive too. -/
structure Side (K : Type) [Field K] [LinearOrder K] where
  levels : List (K × K)
  distinct : (levels.map Prod.fst).Nodup
  positive : ∀ l ∈ levels, 0 < l.1 ∧ 0 < l.2

section
variable {K : Type} [Field K] [LinearOrder K]

/-- The levels in the order they are filled: a buy's asks from the lowest, a sell's bids from the highest. -/
def Side.sorted (side : Side K) (buy : Bool) : List (K × K) :=
  if buy then side.levels.insertionSort fun a b => a.1 ≤ b.1 else side.levels.insertionSort fun a b => b.1 ≤ a.1

def bestBid (bids : Side K) : Option K := (bids.levels.map Prod.fst).max?

def bestAsk (asks : Side K) : Option K := (asks.levels.map Prod.fst).min?

def Side.qtyAt (side : Side K) (price : K) : K := (side.levels.lookup price).getD 0

structure Row (K : Type) where
  updates : Nat
  staleSeconds : Option K
  spread : K
  spreadBps : K
  mid : K
  microprice : K
  imbalanceL1 : K
  fills : List (String × Option K)
  depths : List (String × K)

def midOf (bid ask : K) : K := (bid + ask) / 2

/-- A row, none where a side is empty. -/
def sampleRow (bids asks : Side K) (quote : String) (updates : Nat) (staleSeconds : Option K) :
    Except String (Option (Row K)) :=
  match bestBid bids, bestAsk asks with
  | some bid, some ask => do
    let bidQty := bids.qtyAt bid
    let askQty := asks.qtyAt ask
    let spread := ask - bid
    let mid := midOf bid ask
    let notionals ← notionalsFor K quote
    .ok <| some ⟨updates, staleSeconds, spread, spread / mid * 10000, mid,
      (askQty * bid + bidQty * ask) / (bidQty + askQty), bidQty / (bidQty + askQty),
      (fillSuffixes.zip notionals).flatMap fun rung =>
        [("fill_bps_bid_" ++ rung.1, fillBps (bids.sorted false) rung.2 mid false),
          ("fill_bps_ask_" ++ rung.1, fillBps (asks.sorted true) rung.2 mid true)],
      (depthLevels.map fun k => ("depth_qty_bid_l" ++ toString k, depthQty (bids.sorted false) k)) ++
        depthLevels.map fun k => ("depth_qty_ask_l" ++ toString k, depthQty (asks.sorted true) k)⟩
  | _, _ => .ok none

/- What a side offers, price by price. -/

def Side.prices (side : Side K) : List K := side.levels.map Prod.fst

/-- The notional at a price. -/
def Side.offer (side : Side K) (price : K) : K := price * side.qtyAt price

/-- The notional that a side shows. -/
def Side.visible (side : Side K) : K := (side.levels.map fun l => l.1 * l.2).sum

/-- A way to split a notional over the prices of a side. -/
def Side.Allocates (side : Side K) (notional : K) (x : K → K) : Prop :=
  (∀ l ∈ side.levels, 0 ≤ x l.1 ∧ x l.1 ≤ l.1 * l.2) ∧ (side.levels.map fun l => x l.1).sum = notional

/-- The base that a split buys, or sells. -/
def Side.base (side : Side K) (x : K → K) : K := (side.levels.map fun l => x l.1 / l.1).sum

/-- Each level of a side is on the other too, as large or larger. -/
def Side.Within (side other : Side K) : Prop := ∀ l ∈ side.levels, ∃ q, (l.1, q) ∈ other.levels ∧ l.2 ≤ q

/-- A buy's costs rise with the price it pays, a sell's fall with the one it gets. -/
def sign (K : Type) [Field K] (buy : Bool) : K := if buy then 1 else -1

def costBps (buy : Bool) (mid effective : K) : K := sign K buy * (effective - mid) / mid * 10000

def Side.fill (side : Side K) (buy : Bool) (notional mid : K) : Option K :=
  fillBps (side.sorted buy) notional mid buy

end

section
variable {K : Type} [Field K] [LinearOrder K] [IsStrictOrderedRing K] {side : Side K} {buy : Bool} {n mid : K}

theorem sign_cases (buy : Bool) : sign K buy = 1 ∨ sign K buy = -1 := by
  cases buy
  · exact Or.inr rfl
  · exact Or.inl rfl

theorem Side.sorted_perm (side : Side K) (buy : Bool) : (side.sorted buy).Perm side.levels := by
  unfold Side.sorted
  cases buy
  · exact List.perm_insertionSort _ _
  · exact List.perm_insertionSort _ _

theorem Side.qtyAt_level {l : K × K} (mem : l ∈ side.levels) : side.qtyAt l.1 = l.2 := by
  have distinct := side.distinct
  unfold Side.qtyAt
  generalize side.levels = levels at mem distinct
  induction levels with
  | nil => cases mem
  | cons first rest ih =>
    rw [List.map_cons, List.nodup_cons] at distinct
    rw [List.lookup_cons]
    cases mem with
    | head => simp
    | tail _ later =>
      have other : (l.1 == first.1) = false := by
        rw [beq_eq_false_iff_ne]
        intro same
        exact distinct.1 (same ▸ List.mem_map_of_mem later)
      rw [other]
      exact ih later distinct.2

theorem Side.offer_level {l : K × K} (mem : l ∈ side.levels) : side.offer l.1 = l.1 * l.2 := by
  unfold Side.offer
  rw [Side.qtyAt_level mem]

/-- The prices in the order they are filled. -/
def Side.ladder (side : Side K) (buy : Bool) : List K := (side.sorted buy).map Prod.fst

def rate (buy : Bool) (price : K) : K := sign K buy * (1 / price)

theorem mem_ladder {p : K} : p ∈ side.ladder buy ↔ ∃ q, (p, q) ∈ side.levels := by
  unfold Side.ladder
  rw [List.mem_map]
  constructor
  · intro found
    obtain ⟨l, mem, same⟩ := found
    exact ⟨l.2, same ▸ (side.sorted_perm buy).mem_iff.mp mem⟩
  · intro found
    obtain ⟨q, mem⟩ := found
    exact ⟨(p, q), (side.sorted_perm buy).mem_iff.mpr mem, rfl⟩

theorem ladder_distinct : (side.ladder buy).Nodup :=
  ((side.sorted_perm buy).map Prod.fst).nodup_iff.mpr side.distinct

theorem ladder_positive (side : Side K) (buy : Bool) : ∀ p ∈ side.ladder buy, 0 < p ∧ 0 < side.offer p := by
  intro p mem
  obtain ⟨q, of_side⟩ := mem_ladder.mp mem
  obtain ⟨price, qty⟩ := side.positive _ of_side
  rw [side.offer_level of_side]
  exact ⟨price, mul_pos price qty⟩

theorem ladder_offers : ∀ p ∈ side.ladder buy, 0 ≤ side.offer p := fun p mem => (ladder_positive side buy p mem).2.le

/-- The rates fall along the ladder. -/
theorem ladder_falling : (side.ladder buy).Pairwise fun p q => rate buy q ≤ rate buy p := by
  have positive := ladder_positive side buy
  have ordered : (side.ladder buy).Pairwise fun p q => if buy then p ≤ q else q ≤ p := by
    unfold Side.ladder Side.sorted
    rw [List.pairwise_map]
    cases buy
    · exact (List.pairwise_insertionSort (fun a b : K × K => b.1 ≤ a.1) side.levels).imp fun h => h
    · exact (List.pairwise_insertionSort (fun a b : K × K => a.1 ≤ b.1) side.levels).imp fun h => h
  refine (List.Pairwise.and_mem.mp ordered).imp ?_
  intro p q both
  obtain ⟨of_p, of_q, order⟩ := both
  have first := (positive p of_p).1
  have second := (positive q of_q).1
  unfold rate sign
  cases buy
  · have inverse := one_div_le_one_div_of_le second order
    simp only [Bool.false_eq_true, if_false]
    linarith
  · have inverse := one_div_le_one_div_of_le first order
    simp only [if_true, one_mul]
    exact inverse

theorem visible_ladder (side : Side K) (buy : Bool) : capacity side.offer (side.ladder buy) = side.visible := by
  have same : side.levels.map (fun l => side.offer l.1) = side.levels.map fun l => l.1 * l.2 :=
    List.map_congr_left fun l mem => Side.offer_level mem
  unfold capacity Side.visible Side.ladder
  rw [List.map_map, ← same]
  exact ((side.sorted_perm buy).map _).sum_eq

/-- The walk, over any prices: it fills what they offer. -/
theorem walk_worth {offer : K → K} {levels : List (K × K)} (agrees : ∀ l ∈ levels, offer l.1 = l.1 * l.2)
    (positive : ∀ l ∈ levels, 0 < l.1 ∧ 0 < l.2) (low : 0 < n) (b : K) :
    walk levels n b = if n ≤ capacity offer (levels.map Prod.fst)
      then (0, b + worth offer (fun p => 1 / p) (levels.map Prod.fst) n)
      else (n - capacity offer (levels.map Prod.fst), b + (levels.map Prod.snd).sum) := by
  induction levels generalizing n b with
  | nil =>
    have none_left : ¬ n ≤ 0 := not_le.mpr low
    simp [walk, capacity, none_left]
  | cons l rest ih =>
    obtain ⟨price, qty⟩ := l
    obtain ⟨here, agrees'⟩ := List.forall_mem_cons.mp agrees
    obtain ⟨⟨price_pos, qty_pos⟩, positive'⟩ := List.forall_mem_cons.mp positive
    simp only at here price_pos qty_pos
    have rest_offers : 0 ≤ capacity offer (rest.map Prod.fst) := by
      apply capacity_nonneg
      intro p mem
      obtain ⟨l, of_rest, same⟩ := List.mem_map.mp mem
      obtain ⟨price, qty⟩ := positive' l of_rest
      rw [← same, agrees' l of_rest]
      exact (mul_pos price qty).le
    have whole : capacity offer (((price, qty) :: rest).map Prod.fst) =
        price * qty + capacity offer (rest.map Prod.fst) := by
      unfold capacity
      rw [List.map_cons, List.map_cons, List.sum_cons, here]
    rw [whole, List.map_cons, List.map_cons, List.sum_cons]
    unfold walk worth
    simp only [here]
    by_cases within : n ≤ price * qty
    · rw [if_pos within, if_pos within, if_pos (within.trans (le_add_of_nonneg_right rest_offers)), mul_one_div]
    · have filled : price * qty * (1 / price) = qty := by field_simp
      rw [if_neg within, if_neg within, ih agrees' positive' (sub_pos.mpr (not_le.mp within)), filled]
      by_cases enough : n ≤ price * qty + capacity offer (rest.map Prod.fst)
      · rw [if_pos enough, if_pos (by linarith), add_assoc]
      · rw [if_neg enough, if_neg (by linarith), add_assoc, sub_sub]

/-- The base that a notional comes to. -/
def Side.baseOf (side : Side K) (buy : Bool) (n : K) : K := worth side.offer (fun p => 1 / p) (side.ladder buy) n

theorem worth_rate (side : Side K) (buy : Bool) (n : K) :
    worth side.offer (rate buy) (side.ladder buy) n = sign K buy * side.baseOf buy n := by
  unfold Side.baseOf
  cases buy
  · have negated : rate (K := K) false = fun p => -(1 / p) := by
      funext p
      simp [rate, sign]
    rw [negated, worth_neg]
    unfold sign
    simp only [Bool.false_eq_true, if_false, neg_one_mul]
  · have same : rate (K := K) true = fun p => 1 / p := by
      funext p
      simp [rate, sign]
    rw [same]
    simp [sign]

/-- A fill costs what its base comes to, where the side shows the notional. -/
theorem fill_eq (side : Side K) (buy : Bool) (mid : K) (low : 0 < n) : side.fill buy n mid =
    if n ≤ side.visible then some (costBps buy mid (n / side.baseOf buy n)) else none := by
  have agrees : ∀ l ∈ side.sorted buy, side.offer l.1 = l.1 * l.2 :=
    fun l mem => side.offer_level ((side.sorted_perm buy).mem_iff.mp mem)
  have positive : ∀ l ∈ side.sorted buy, 0 < l.1 ∧ 0 < l.2 :=
    fun l mem => side.positive l ((side.sorted_perm buy).mem_iff.mp mem)
  have walked := walk_worth agrees positive low 0
  rw [show capacity side.offer ((side.sorted buy).map Prod.fst) = side.visible from visible_ladder side buy] at walked
  unfold Side.fill fillBps
  rw [walked]
  by_cases shown : n ≤ side.visible
  · rw [if_pos shown, if_pos shown]
    simp only [lt_self_iff_false, if_false, zero_add]
    unfold costBps sign Side.baseOf Side.ladder
    cases buy
    · simp only [Bool.false_eq_true, if_false, neg_one_mul, neg_sub]
    · simp only [if_true, one_mul]
  · rw [if_neg shown, if_neg shown]
    simp only
    rw [if_pos (sub_pos.mpr (not_le.mp shown))]

theorem baseOf_positive (low : 0 < n) (shown : n ≤ side.visible) : 0 < side.baseOf buy n := by
  apply worth_positive
  · exact fun p mem => (ladder_positive side buy p mem).2
  · exact fun p mem => one_div_pos.mpr (ladder_positive side buy p mem).1
  · exact low
  · rw [visible_ladder]
    exact shown

/-- Of two fills, the one whose notional comes to more for its size costs less. -/
theorem cost_le {n' b b' : K} (mid_pos : 0 < mid) (base : 0 < b) (base' : 0 < b')
    (more : n * (sign K buy * b') ≤ n' * (sign K buy * b)) :
    costBps buy mid (n / b) ≤ costBps buy mid (n' / b') := by
  have order : sign K buy * (n / b) ≤ sign K buy * (n' / b') := by
    have crossed : sign K buy * n * b' ≤ sign K buy * n' * b := by linarith
    have divided := (div_le_div_iff₀ base base').mpr crossed
    rwa [mul_div_assoc, mul_div_assoc] at divided
  unfold costBps
  have shifted : sign K buy * (n / b - mid) ≤ sign K buy * (n' / b' - mid) := by linarith
  have hundredths : (0 : K) ≤ 10000 := by norm_num
  exact mul_le_mul_of_nonneg_right (div_le_div_of_nonneg_right shifted mid_pos.le) hundredths

/- Splits, as ways to spend the notional over the ladder. -/

theorem Side.sum_ladder (side : Side K) (buy : Bool) (f : K → K) :
    ((side.ladder buy).map f).sum = (side.levels.map fun l => f l.1).sum := by
  unfold Side.ladder
  rw [List.map_map]
  exact ((side.sorted_perm buy).map _).sum_eq

theorem allocates_iff (buy : Bool) {x : K → K} : side.Allocates n x ↔ Allots side.offer (side.ladder buy) n x := by
  constructor
  · intro allocates
    obtain ⟨within, whole⟩ := allocates
    constructor
    · intro p mem
      obtain ⟨q, of_side⟩ := mem_ladder.mp mem
      rw [side.offer_level of_side]
      exact within _ of_side
    · rw [side.sum_ladder, whole]
  · intro allots
    obtain ⟨within, whole⟩ := allots
    constructor
    · intro l mem
      have at_price := within l.1 (mem_ladder.mpr ⟨l.2, mem⟩)
      rw [side.offer_level mem] at at_price
      exact at_price
    · rw [← side.sum_ladder buy, whole]

theorem value_base (side : Side K) (buy : Bool) (x : K → K) :
    value (rate buy) (side.ladder buy) x = sign K buy * side.base x := by
  unfold value Side.base rate
  rw [side.sum_ladder buy fun p => x p * (sign K buy * (1 / p)), ← List.sum_map_mul_left]
  congr 1
  apply List.map_congr_left
  intro l _
  ring

theorem Side.Within.ladder {other : Side K} (within : side.Within other) (buy : Bool) :
    side.ladder buy ⊆ other.ladder buy ∧ ∀ p ∈ side.ladder buy, side.offer p ≤ other.offer p := by
  constructor
  · intro p mem
    obtain ⟨q, of_side⟩ := mem_ladder.mp mem
    obtain ⟨q', of_other, _⟩ := within _ of_side
    exact mem_ladder.mpr ⟨q', of_other⟩
  · intro p mem
    obtain ⟨q, of_side⟩ := mem_ladder.mp mem
    obtain ⟨q', of_other, more⟩ := within _ of_side
    rw [side.offer_level of_side, other.offer_level of_other]
    exact mul_le_mul_of_nonneg_left more (side.positive _ of_side).1.le

/- The row's own. -/

/-- The best price of a side: the lowest ask for a buy, the highest bid for a sell. -/
def Side.best (side : Side K) (buy : Bool) : Option K := if buy then bestAsk side else bestBid side

theorem best_rate (buy : Bool) {p : K} (best : side.best buy = some p) :
    0 < p ∧ ∀ q ∈ side.ladder buy, rate buy q ≤ rate buy p := by
  have prices : ∀ q ∈ side.ladder buy, q ∈ side.levels.map Prod.fst := by
    intro q mem
    obtain ⟨qty, of_side⟩ := mem_ladder.mp mem
    exact List.mem_map_of_mem of_side
  have positive : ∀ q ∈ side.levels.map Prod.fst, 0 < q := by
    intro q mem
    obtain ⟨l, of_side, same⟩ := List.mem_map.mp mem
    exact same ▸ (side.positive l of_side).1
  unfold Side.best at best
  cases buy
  · obtain ⟨of_side, top⟩ := List.max?_eq_some_iff.mp (show (side.levels.map Prod.fst).max? = some p from best)
    refine ⟨positive p of_side, ?_⟩
    intro q mem
    have inverse := one_div_le_one_div_of_le (positive q (prices q mem)) (top q (prices q mem))
    unfold rate sign
    simp only [Bool.false_eq_true, if_false]
    linarith
  · obtain ⟨of_side, bottom⟩ := List.min?_eq_some_iff.mp (show (side.levels.map Prod.fst).min? = some p from best)
    refine ⟨positive p of_side, ?_⟩
    intro q mem
    have inverse := one_div_le_one_div_of_le (positive p of_side) (bottom q (prices q mem))
    unfold rate sign
    simp only [if_true, one_mul]
    exact inverse

/-- What a fill on a side comes to, at any mid. -/
structure Optimal (side : Side K) (buy : Bool) (mid : K) : Prop where
  short : ∀ n, 0 < n → (side.fill buy n mid = none ↔ side.visible < n)
  best : ∀ n c, 0 < n → side.fill buy n mid = some c → ∃ x, side.Allocates n x ∧
    c = costBps buy mid (n / side.base x) ∧
      ∀ y, side.Allocates n y → sign K buy * side.base y ≤ sign K buy * side.base x
  larger : ∀ n n' c', 0 < n → n ≤ n' → side.fill buy n' mid = some c' →
    ∃ c, side.fill buy n mid = some c ∧ c ≤ c'
  wider : ∀ (other : Side K) n c, 0 < n → side.Within other → side.fill buy n mid = some c →
    ∃ c', other.fill buy n mid = some c' ∧ c' ≤ c
  touch : ∀ n c p, 0 < n → side.best buy = some p → side.fill buy n mid = some c → costBps buy mid p ≤ c

theorem fill_some {c : K} (low : 0 < n) (filled : side.fill buy n mid = some c) :
    n ≤ side.visible ∧ c = costBps buy mid (n / side.baseOf buy n) := by
  rw [fill_eq side buy mid low] at filled
  by_cases shown : n ≤ side.visible
  · rw [if_pos shown] at filled
    exact ⟨shown, (Option.some.inj filled).symm⟩
  · rw [if_neg shown] at filled
    cases filled

theorem fill_shown (low : 0 < n) (shown : n ≤ side.visible) :
    side.fill buy n mid = some (costBps buy mid (n / side.baseOf buy n)) := by
  rw [fill_eq side buy mid low, if_pos shown]

theorem fill_optimal (side : Side K) (buy : Bool) (mid_pos : 0 < mid) : Optimal side buy mid := by
  constructor
  · intro n low
    rw [fill_eq side buy mid low]
    by_cases shown : n ≤ side.visible
    · simp [shown]
    · simp [shown, not_le.mp shown]
  · intro n c low filled
    obtain ⟨shown, cost⟩ := fill_some low filled
    have high : n ≤ capacity side.offer (side.ladder buy) := (visible_ladder side buy).symm ▸ shown
    obtain ⟨allots, same⟩ := drained_allots (rate buy) ladder_distinct ladder_offers low.le high
    have base_same : side.base (drained side.offer (side.ladder buy) n) = side.baseOf buy n := by
      rw [value_base, worth_rate] at same
      rcases sign_cases (K := K) buy with s | s
      · rwa [s, one_mul, one_mul] at same
      · rw [s] at same
        linarith
    refine ⟨_, (allocates_iff buy).mpr allots, by rw [base_same, cost], ?_⟩
    intro y allocates
    rw [← value_base side buy, ← value_base side buy, same]
    exact worth_best ladder_falling ladder_offers ((allocates_iff buy).mp allocates)
  · intro n n' c' low more filled
    have low' := low.trans_le more
    obtain ⟨shown, cost⟩ := fill_some low' filled
    refine ⟨_, fill_shown low (more.trans shown), ?_⟩
    have order : n * (sign K buy * side.baseOf buy n') ≤ n' * (sign K buy * side.baseOf buy n) := by
      rw [← worth_rate, ← worth_rate]
      exact worth_average ladder_falling ladder_distinct ladder_offers low more ((visible_ladder side buy).symm ▸ shown)
    rw [cost]
    exact cost_le mid_pos (baseOf_positive low (more.trans shown)) (baseOf_positive low' shown) order
  · intro other n c low within filled
    obtain ⟨shown, cost⟩ := fill_some low filled
    have high : n ≤ capacity side.offer (side.ladder buy) := (visible_ladder side buy).symm ▸ shown
    obtain ⟨inside, wider⟩ := within.ladder buy
    obtain ⟨high', more⟩ : n ≤ capacity other.offer (other.ladder buy) ∧
        worth side.offer (rate buy) (side.ladder buy) n ≤ worth other.offer (rate buy) (other.ladder buy) n :=
      worth_wider ladder_falling ladder_distinct ladder_distinct ladder_offers ladder_offers inside wider low.le high
    have shown' : n ≤ other.visible := visible_ladder other buy ▸ high'
    have order : n * (sign K buy * side.baseOf buy n) ≤ n * (sign K buy * other.baseOf buy n) := by
      rw [← worth_rate, ← worth_rate]
      exact mul_le_mul_of_nonneg_left more low.le
    refine ⟨_, fill_shown low shown', ?_⟩
    rw [cost]
    exact cost_le mid_pos (baseOf_positive low shown') (baseOf_positive low shown) order
  · intro n c p low best filled
    obtain ⟨shown, cost⟩ := fill_some low filled
    obtain ⟨positive, rates⟩ := best_rate buy best
    have high : n ≤ capacity side.offer (side.ladder buy) := (visible_ladder side buy).symm ▸ shown
    have most := worth_rises ladder_offers rates le_rfl low.le high
    rw [worth_zero ladder_offers, zero_add, sub_zero, worth_rate] at most
    have same : n * rate buy p = sign K buy * (n / p) := by
      unfold rate
      ring
    rw [same] at most
    have at_best : n / (n / p) = p := by field_simp
    rw [cost, ← at_best]
    exact cost_le mid_pos (div_pos low positive) (baseOf_positive low shown) (mul_le_mul_of_nonneg_left most low.le)

theorem depthQty_mono (side : Side K) (buy : Bool) {k k' : Nat} (more : k ≤ k') :
    depthQty (side.sorted buy) k ≤ depthQty (side.sorted buy) k' := by
  have positive : ∀ l ∈ side.sorted buy, 0 ≤ l.2 :=
    fun l mem => (side.positive l ((side.sorted_perm buy).mem_iff.mp mem)).2.le
  unfold depthQty
  generalize side.sorted buy = levels at positive
  induction levels generalizing k k' with
  | nil => simp
  | cons l rest ih =>
    obtain ⟨here, later⟩ := List.forall_mem_cons.mp positive
    cases k' with
    | zero =>
      obtain rfl := Nat.le_zero.mp more
      exact le_rfl
    | succ k' =>
      have rest_nonneg : 0 ≤ ((rest.take k').map Prod.snd).sum := by
        apply List.sum_nonneg
        intro q mem
        obtain ⟨l, of_rest, same⟩ := List.mem_map.mp mem
        exact same ▸ later l (List.mem_of_mem_take of_rest)
      rw [List.take_succ_cons, List.map_cons, List.sum_cons]
      cases k with
      | zero => simpa using add_nonneg here rest_nonneg
      | succ k =>
        rw [List.take_succ_cons, List.map_cons, List.sum_cons]
        have further := ih (Nat.le_of_succ_le_succ more) later
        linarith

/-- At its best price a side costs half the spread. -/
theorem cost_best (buy : Bool) {bid ask : K} (mid_pos : 0 < midOf bid ask) :
    costBps buy (midOf bid ask) (if buy then ask else bid) = (ask - bid) / midOf bid ask * 10000 / 2 := by
  unfold costBps sign midOf at *
  cases buy
  · simp only [Bool.false_eq_true, if_false]
    field_simp
    ring
  · simp only [if_true]
    field_simp
    ring

/-- What the row of a two-sided book says of filling a notional. -/
structure FillCosts (bids asks : Side K) (bid ask : K) : Prop where
  sell : Optimal bids false (midOf bid ask)
  buy : Optimal asks true (midOf bid ask)
  half_spread : ∀ n c, 0 < n → bids.fill false n (midOf bid ask) = some c ∨ asks.fill true n (midOf bid ask) = some c →
    (ask - bid) / midOf bid ask * 10000 / 2 ≤ c
  depth : ∀ k k', k ≤ k' → depthQty (bids.sorted false) k ≤ depthQty (bids.sorted false) k' ∧
    depthQty (asks.sorted true) k ≤ depthQty (asks.sorted true) k'
  row : ∀ quote updates stale notionals, notionalsFor K quote = .ok notionals →
    ∃ row, sampleRow bids asks quote updates stale = .ok (some row) ∧ row.mid = midOf bid ask ∧
      row.spreadBps = (ask - bid) / midOf bid ask * 10000 ∧
      row.fills = (fillSuffixes.zip notionals).flatMap fun rung =>
        [("fill_bps_bid_" ++ rung.1, bids.fill false rung.2 (midOf bid ask)),
          ("fill_bps_ask_" ++ rung.1, asks.fill true rung.2 (midOf bid ask))]

theorem fill_costs (bids asks : Side K) {bid ask : K} (of_bids : bestBid bids = some bid)
    (of_asks : bestAsk asks = some ask) : FillCosts bids asks bid ask := by
  have mid_pos : 0 < midOf bid ask := by
    have low := (best_rate false of_bids).1
    have high := (best_rate true of_asks).1
    unfold midOf
    linarith
  have sell := fill_optimal bids false mid_pos
  have buy := fill_optimal asks true mid_pos
  refine ⟨sell, buy, ?_, fun k k' more => ⟨depthQty_mono bids false more, depthQty_mono asks true more⟩, ?_⟩
  · intro n c low filled
    cases filled with
    | inl sold =>
      rw [← cost_best false mid_pos]
      exact sell.touch n c bid low of_bids sold
    | inr bought =>
      rw [← cost_best true mid_pos]
      exact buy.touch n c ask low of_asks bought
  · intro quote updates stale notionals ladder
    unfold sampleRow
    rw [of_bids, of_asks]
    exact ⟨_, Fallible.bind_ok.mpr ⟨notionals, ladder, rfl⟩, rfl, rfl, rfl⟩

end

/- Two levels a side. -/

def twoBids : Side ℚ := ⟨[(99, 2), (100, 1)], by decide +kernel, by decide +kernel⟩

def twoAsks : Side ℚ := ⟨[(103, 5), (102, 1)], by decide +kernel, by decide +kernel⟩

theorem two_levels_fill_costs : FillCosts twoBids twoAsks 100 102 ∧
    twoAsks.fill true 205 101 = some (costBps true 101 (205 / 2)) := by
  have of_bids : bestBid twoBids = some 100 := by decide +kernel
  have of_asks : bestAsk twoAsks = some 102 := by decide +kernel
  exact ⟨fill_costs twoBids twoAsks of_bids of_asks, by decide +kernel⟩

end Primitives
