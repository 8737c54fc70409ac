import Zcrypto.Panel.Fills
import Mathlib.Algebra.Order.Group.Unbundled.Abs
import Mathlib.Algebra.Order.Group.Unbundled.Basic
import Mathlib.Algebra.Order.Monoid.Defs
import Mathlib.Algebra.Order.Ring.Rat

/- Which of two orders fills first, over any run of prints and boundaries and with exact arithmetic. The
   order of the smaller quantity leads, and so does the one with less of a queue ahead. -/
namespace Panel
open OrderBook (Decimal)

/-- What comes to an order: a print, or a boundary with the book and the tick it finds. -/
inductive Event (F : Type) where
  | print (trade : Print F)
  | boundary (book : Book) (ts : Int) (tick : Decimal)

/-- The instants of the prints. -/
def printTimes {F : Type} : List (Event F) → List Int
  | [] => []
  | .print trade :: rest => trade.ts :: printTimes rest
  | .boundary .. :: rest => printTimes rest

section
variable {F : Type} [Zero F] [Add F] [Sub F] [Max F] [Min F] [LE F] [DecidableLE F]

def Order.event (float : Decimal → F) (o : Order F) : Event F → Order F
  | .print trade => applyTrade o trade
  | .boundary book ts tick => tickCancel float book ts tick o

def Order.run (float : Decimal → F) (o : Order F) (events : List (Event F)) : Order F :=
  events.foldl (Order.event float) o

/-- No quantity of a print or of a level is negative. -/
def Event.Proper (float : Decimal → F) (o : Order F) : Event F → Prop
  | .print trade => 0 ≤ trade.qty
  | .boundary book _ _ => 0 ≤ float (qtyAt (levelsOf book o.side) o.price)

end

/- What a print and a boundary do. -/

@[simp] theorem event_print {F : Type} [Zero F] [Add F] [Sub F] [Max F] [Min F] [LE F] [DecidableLE F]
    (float : Decimal → F) (o : Order F) (trade : Print F) :
    o.event float (.print trade) = applyTrade o trade := rfl

@[simp] theorem event_boundary {F : Type} [Zero F] [Add F] [Sub F] [Max F] [Min F] [LE F] [DecidableLE F]
    (float : Decimal → F) (o : Order F) (book : Book) (ts : Int) (tick : Decimal) :
    o.event float (.boundary book ts tick) = tickCancel float book ts tick o := rfl

theorem isOpen_iff {F : Type} {o : Order F} : o.isOpen = true ↔ o.filledAt = none ∧ o.cancelledAt = none := by
  simp [Order.isOpen]

theorem filled_closed {F : Type} {o : Order F} {t : Int} (filled : o.filledAt = some t) : o.isOpen = false := by
  simp [Order.isOpen, filled]

theorem tickCancel_closed {F : Type} [Min F] {float : Decimal → F} {o : Order F} (closed : o.isOpen = false)
    (book : Book) (ts : Int) (tick : Decimal) : tickCancel float book ts tick o = o := by
  simp [tickCancel, closed]

theorem tickCancel_post {F : Type} [Min F] (float : Decimal → F) (book : Book) (ts : Int) (tick : Decimal)
    (o : Order F) : (tickCancel float book ts tick o).toPost = o.toPost := by
  unfold tickCancel
  split <;> rfl

theorem tickCancel_filled {F : Type} [Min F] (float : Decimal → F) (book : Book) (ts : Int) (tick : Decimal)
    (o : Order F) : (tickCancel float book ts tick o).filledAt = o.filledAt := by
  unfold tickCancel
  split <;> rfl

theorem tickCancel_mids {F : Type} [Min F] (float : Decimal → F) (book : Book) (ts : Int) (tick : Decimal)
    (o : Order F) : (tickCancel float book ts tick o).mids = o.mids := by
  unfold tickCancel
  split <;> rfl

section
variable {F : Type} [Zero F] [Add F] [Sub F] [Max F] [LE F] [DecidableLE F] {o : Order F}

/-- What a print has met of an order after it. -/
def met (o : Order F) (trade : Print F) : F :=
  o.filledQty + if through o trade then trade.qty else max 0 (trade.qty - o.aheadQty)

def aheadAfter (o : Order F) (trade : Print F) : F :=
  if through o trade then o.aheadQty else max 0 (o.aheadQty - trade.qty)

theorem applyTrade_closed (closed : o.isOpen = false) (trade : Print F) : applyTrade o trade = o := by
  simp [applyTrade, closed]

theorem applyTrade_apart {trade : Print F} (apart : meets o trade = false) : applyTrade o trade = o := by
  simp [applyTrade, apart]

theorem applyTrade_met {trade : Print F} (opened : o.isOpen = true) (meeting : meets o trade = true) :
    applyTrade o trade = { o with
      filledQty := met o trade
      aheadQty := aheadAfter o trade
      filledAt := if o.ourQty ≤ met o trade then some trade.ts else o.filledAt } := by
  unfold applyTrade met aheadAfter
  rw [opened, meeting]
  by_cases passed : through o trade = true
  · simp only [passed, Bool.not_true, Bool.or_self, Bool.false_eq_true, if_false, if_true]
    split <;> rfl
  · simp only [passed, Bool.not_true, Bool.or_self, Bool.false_eq_true, if_false]
    split <;> rfl

theorem applyTrade_mids (o : Order F) (trade : Print F) : (applyTrade o trade).mids = o.mids := by
  by_cases opened : o.isOpen = true
  · by_cases meeting : meets o trade = true
    · rw [applyTrade_met opened meeting]
    · rw [applyTrade_apart (by simpa using meeting)]
  · rw [applyTrade_closed (by simpa using opened)]

theorem applyTrade_post (o : Order F) (trade : Print F) : (applyTrade o trade).toPost = o.toPost := by
  by_cases opened : o.isOpen = true
  · by_cases meeting : meets o trade = true
    · rw [applyTrade_met opened meeting]
    · rw [applyTrade_apart (by simpa using meeting)]
  · rw [applyTrade_closed (by simpa using opened)]

end

section
variable {F : Type} [AddCommGroup F] [LinearOrder F] [IsOrderedAddMonoid F] {float : Decimal → F}
  {a b o : Order F}

/- The order that leads. -/

/-- One order has no more to fill and no more ahead of it than another, and all else alike. -/
structure Leads (a b : Order F) : Prop where
  ts : a.ts = b.ts
  side : a.side = b.side
  price : a.price = b.price
  ourQty : a.ourQty ≤ b.ourQty
  filledQty : b.filledQty ≤ a.filledQty
  aheadQty : a.aheadQty ≤ b.aheadQty
  levelQty : a.levelQty ≤ b.levelQty
  awaySince : a.awaySince = b.awaySince
  cancelledAt : a.cancelledAt = b.cancelledAt
  unfilled : a.filledAt = none ∧ b.filledAt = none

theorem Leads.isOpen (leads : Leads a b) : a.isOpen = b.isOpen := by
  unfold Order.isOpen
  rw [leads.unfilled.1, leads.unfilled.2, leads.cancelledAt]

theorem Leads.meets (leads : Leads a b) (trade : Print F) : meets a trade = meets b trade := by
  unfold Panel.meets
  rw [leads.side, leads.price]

theorem Leads.through (leads : Leads a b) (trade : Print F) : through a trade = through b trade := by
  unfold Panel.through
  rw [leads.side, leads.price]

theorem Leads.met (leads : Leads a b) (trade : Print F) : met b trade ≤ met a trade := by
  unfold Panel.met
  rw [leads.through]
  apply add_le_add leads.filledQty
  split
  · exact le_rfl
  · exact max_le_max le_rfl (sub_le_sub_left leads.aheadQty _)

theorem Leads.aheadAfter (leads : Leads a b) (trade : Print F) : aheadAfter a trade ≤ aheadAfter b trade := by
  unfold Panel.aheadAfter
  rw [leads.through]
  split
  · exact leads.aheadQty
  · exact max_le_max le_rfl (sub_le_sub_right leads.aheadQty _)

/-- After a print the order leads still, or it is the first that the print filled. -/
theorem Leads.print (leads : Leads a b) (trade : Print F) :
    Leads (applyTrade a trade) (applyTrade b trade) ∨
      (applyTrade a trade).filledAt = some trade.ts ∧
        ∀ t, (applyTrade b trade).filledAt = some t → t = trade.ts := by
  by_cases opened : b.isOpen = true
  · by_cases meeting : Panel.meets b trade = true
    · rw [applyTrade_met opened meeting,
        applyTrade_met (leads.isOpen.trans opened) ((leads.meets trade).trans meeting)]
      by_cases fills : a.ourQty ≤ Panel.met a trade
      · right
        refine ⟨by simp [fills], ?_⟩
        intro t filled
        simp only [leads.unfilled.2] at filled
        split at filled
        · injection filled with same
          exact same.symm
        · cases filled
      · left
        have lags : ¬ b.ourQty ≤ Panel.met b trade := by
          intro enough
          exact fills (leads.ourQty.trans (enough.trans (leads.met trade)))
        refine { leads with filledQty := leads.met trade, aheadQty := leads.aheadAfter trade, unfilled := ?_ }
        simp [fills, lags, leads.unfilled]
    · have apart : Panel.meets b trade = false := by simpa using meeting
      rw [applyTrade_apart apart, applyTrade_apart ((leads.meets trade).trans apart)]
      exact Or.inl leads
  · have closed : b.isOpen = false := by simpa using opened
    rw [applyTrade_closed closed, applyTrade_closed (leads.isOpen.trans closed)]
    exact Or.inl leads

theorem Leads.isAway (leads : Leads a b) (book : Book) (tick : Decimal) :
    isAway book tick a = isAway book tick b := by
  unfold Panel.isAway
  rw [leads.side, leads.price]

theorem Leads.boundary (leads : Leads a b) (book : Book) (ts : Int) (tick : Decimal) :
    Leads (tickCancel float book ts tick a) (tickCancel float book ts tick b) := by
  unfold tickCancel
  rw [leads.isOpen]
  by_cases closed : (!b.isOpen) = true
  · rw [if_pos closed, if_pos closed]
    exact leads
  · rw [if_neg closed, if_neg closed]
    refine ⟨leads.ts, leads.side, leads.price, leads.ourQty, leads.filledQty, ?_, ?_, ?_, ?_, leads.unfilled⟩
    · exact min_le_min leads.aheadQty leads.levelQty
    · simp only [capQueue, leads.side, leads.price, le_refl]
    · simp only [leads.isAway, leads.awaySince]
    · simp only [leads.isAway, leads.awaySince, leads.ts]

/- A run. -/

/-- What is filled no later than another. -/
def NoLater (a b : Option Int) : Prop := ∀ t, b = some t → ∃ s, a = some s ∧ s ≤ t

theorem noLater_leads (leads : Leads a b) : NoLater a.filledAt b.filledAt := by
  intro t filled
  rw [leads.unfilled.2] at filled
  cases filled

theorem event_closed (closed : o.isOpen = false) (e : Event F) : o.event float e = o := by
  cases e with
  | print trade => exact applyTrade_closed closed trade
  | boundary book ts tick => exact tickCancel_closed closed book ts tick

theorem run_closed (closed : o.isOpen = false) (events : List (Event F)) : o.run float events = o := by
  induction events with
  | nil => rfl
  | cons e events ih =>
    unfold Order.run at ih ⊢
    rw [List.foldl_cons, event_closed closed, ih]

theorem print_filled {trade : Print F} {t : Int} (filled : (applyTrade o trade).filledAt = some t) :
    o.filledAt = some t ∨ t = trade.ts := by
  by_cases opened : o.isOpen = true
  · by_cases meeting : meets o trade = true
    · rw [applyTrade_met opened meeting] at filled
      simp only at filled
      split at filled
      · injection filled with same
        exact Or.inr same.symm
      · exact Or.inl filled
    · rw [applyTrade_apart (by simpa using meeting)] at filled
      exact Or.inl filled
  · rw [applyTrade_closed (by simpa using opened)] at filled
    exact Or.inl filled

/-- An order is filled by a print of the run. -/
theorem run_filled {events : List (Event F)} {t : Int} (filled : (o.run float events).filledAt = some t) :
    o.filledAt = some t ∨ t ∈ printTimes events := by
  induction events generalizing o with
  | nil => exact Or.inl filled
  | cons e events ih =>
    rcases ih (o := o.event float e) filled with before | later
    · cases e with
      | print trade =>
        rcases print_filled before with held | now
        · exact Or.inl held
        · exact Or.inr (now ▸ List.mem_cons_self)
      | boundary book ts tick =>
        exact Or.inl ((tickCancel_filled float book ts tick o).symm.trans before)
    · cases e with
      | print trade => exact Or.inr (List.mem_cons_of_mem _ later)
      | boundary book ts tick => exact Or.inr later

/-- The prints come in the order of their instants. -/
def Timely (events : List (Event F)) : Prop := (printTimes events).Pairwise (· ≤ ·)

/-- Through any run, the order that leads is filled first, and while it is unfilled it leads still. -/
theorem Leads.run (leads : Leads a b) (events : List (Event F)) :
    Leads (a.run float events) (b.run float events) ∨
      (a.run float events).filledAt.isSome ∧
        (Timely events → NoLater (a.run float events).filledAt (b.run float events).filledAt) := by
  induction events generalizing a b with
  | nil => exact Or.inl leads
  | cons e events ih =>
    cases e with
    | boundary book ts tick => exact ih (leads.boundary book ts tick)
    | print trade =>
      rcases leads.print trade with still | ⟨filled, other⟩
      · rcases ih still with leads | ⟨filled, first⟩
        · exact Or.inl leads
        · exact Or.inr ⟨filled, fun timely => first (List.pairwise_cons.mp timely).2⟩
      · -- the leader is filled, and what fills the other comes no sooner
        right
        have stays : ((applyTrade a trade).run float events).filledAt = some trade.ts := by
          rw [run_closed (filled_closed filled), filled]
        have leader : (a.run float (.print trade :: events)).filledAt = some trade.ts := stays
        rw [leader]
        refine ⟨rfl, ?_⟩
        intro timely t filled_other
        refine ⟨trade.ts, rfl, ?_⟩
        rcases run_filled (o := applyTrade b trade) filled_other with now | later
        · exact le_of_eq (other t now).symm
        · exact (List.pairwise_cons.mp timely).1 t later

/-- One order is filled no later than another: at every moment of a run the first is filled where the
    second is, and where the prints come in order, at an instant that is no later. -/
def FillsFirst (float : Decimal → F) (a b : Order F) (events : List (Event F)) : Prop :=
  ((b.run float events).filledAt.isSome → (a.run float events).filledAt.isSome) ∧
    (Timely events → NoLater (a.run float events).filledAt (b.run float events).filledAt)

theorem Leads.fillsFirst (leads : Leads a b) (events : List (Event F)) : FillsFirst float a b events := by
  rcases leads.run events with still | ⟨filled, first⟩
  · refine ⟨?_, fun _ => noLater_leads still⟩
    rw [still.unfilled.2]
    intro none_filled
    cases none_filled
  · exact ⟨fun _ => filled, first⟩

theorem Leads.cancelled (leads : Leads a b) (events : List (Event F))
    (unfilled : (a.run float events).filledAt = none) :
    (a.run float events).cancelledAt = (b.run float events).cancelledAt := by
  rcases leads.run events with still | ⟨filled, _⟩
  · exact still.cancelledAt
  · rw [unfilled] at filled
    cases filled

/- The queue ahead. -/

theorem event_ahead_le {e : Event F} (bounded : 0 ≤ o.aheadQty) (proper : e.Proper float o) :
    (o.event float e).aheadQty ≤ o.aheadQty := by
  by_cases opened : o.isOpen = true
  · cases e with
    | print trade =>
      by_cases meeting : meets o trade = true
      · have qty : 0 ≤ trade.qty := proper
        have less : max 0 (o.aheadQty - trade.qty) ≤ o.aheadQty :=
          max_le bounded (sub_le_self _ qty)
        rw [event_print, applyTrade_met opened meeting]
        simp only [aheadAfter]
        split
        · exact le_rfl
        · exact less
      · exact le_of_eq (congrArg Order.aheadQty (applyTrade_apart (by simpa using meeting)))
    | boundary book ts tick =>
      rw [event_boundary, tickCancel, opened]
      exact min_le_left _ _
  · rw [event_closed (by simpa using opened)]

/-- Neither the bound nor the level that will cap it is negative. -/
def Bounded (o : Order F) : Prop := 0 ≤ o.aheadQty ∧ 0 ≤ o.levelQty

theorem event_bounded {e : Event F} (bounded : Bounded o) (proper : e.Proper float o) :
    Bounded (o.event float e) := by
  by_cases opened : o.isOpen = true
  · cases e with
    | print trade =>
      by_cases meeting : meets o trade = true
      · rw [event_print, applyTrade_met opened meeting]
        refine ⟨?_, bounded.2⟩
        simp only [aheadAfter]
        split
        · exact bounded.1
        · exact le_max_left _ _
      · rw [event_print, applyTrade_apart (by simpa using meeting)]
        exact bounded
    | boundary book ts tick =>
      have level : 0 ≤ float (qtyAt (levelsOf book o.side) o.price) := proper
      rw [event_boundary, tickCancel, opened]
      exact ⟨le_min bounded.1 bounded.2, level⟩
  · rw [event_closed (by simpa using opened)]
    exact bounded

theorem event_post (e : Event F) : (o.event float e).toPost = o.toPost := by
  cases e with
  | print trade => exact applyTrade_post o trade
  | boundary book ts tick => exact tickCancel_post float book ts tick o

theorem run_bounded {events : List (Event F)} (bounded : Bounded o)
    (proper : ∀ e ∈ events, e.Proper float o) : Bounded (o.run float events) := by
  induction events generalizing o with
  | nil => exact bounded
  | cons e events ih =>
    obtain ⟨first, rest⟩ := List.forall_mem_cons.mp proper
    apply ih (event_bounded bounded first)
    intro later mem
    have side : (o.event float e).side = o.side := congrArg Post.side (event_post e)
    have price : (o.event float e).price = o.price := congrArg Post.price (event_post e)
    have there := rest later mem
    cases later with
    | print trade => exact there
    | boundary book ts tick =>
      unfold Event.Proper at there ⊢
      rw [side, price]
      exact there

/- Orders of one post. -/

theorem leads_posted {p q : Post F} (same : q = { p with ourQty := q.ourQty, queueAheadQty := q.queueAheadQty })
    (ourQty : p.ourQty ≤ q.ourQty) (queue : p.queueAheadQty ≤ q.queueAheadQty) :
    Leads p.order q.order := by
  rw [same]
  exact ⟨rfl, rfl, rfl, ourQty, le_rfl, queue, queue, rfl, rfl, rfl, rfl⟩

theorem run_concat (events : List (Event F)) (e : Event F) :
    o.run float (events ++ [e]) = (o.run float events).event float e := by
  simp [Order.run]

theorem run_post (events : List (Event F)) : (o.run float events).toPost = o.toPost := by
  induction events generalizing o with
  | nil => rfl
  | cons e events ih => exact (ih (o := o.event float e)).trans (event_post e)

/-- Over any prints and any boundaries: where the larger of two orders of one post is filled, so is the
    smaller, no later; unless the smaller is filled, both are cancelled at the same boundary; the bound
    of the queue ahead never increases and is never negative, where no quantity of a print or of a level
    is; and less of a queue ahead fills an order no later. -/
theorem fills_monotone (float : Decimal → F) (post : Post F) {smaller larger less : F}
    (sizes : smaller ≤ larger) (queues : less ≤ post.queueAheadQty) (events : List (Event F)) :
    let small := { post with ourQty := smaller }.order
    let large := { post with ourQty := larger }.order
    FillsFirst float small large events ∧
      ((small.run float events).filledAt = none →
        (small.run float events).cancelledAt = (large.run float events).cancelledAt) ∧
      (0 ≤ post.queueAheadQty → (∀ e ∈ events, e.Proper float post.order) →
        0 ≤ (post.order.run float events).aheadQty ∧
          ∀ next : Event F, next.Proper float post.order →
            (post.order.run float (events ++ [next])).aheadQty ≤ (post.order.run float events).aheadQty) ∧
      FillsFirst float { post with queueAheadQty := less }.order post.order events := by
  have by_size : Leads { post with ourQty := smaller }.order { post with ourQty := larger }.order :=
    leads_posted rfl sizes le_rfl
  have by_queue : Leads { post with queueAheadQty := less }.order post.order :=
    leads_posted rfl le_rfl queues
  refine ⟨by_size.fillsFirst events, by_size.cancelled events, ?_, by_queue.fillsFirst events⟩
  intro start proper
  have bounded : Bounded (post.order.run float events) := run_bounded ⟨start, start⟩ proper
  refine ⟨bounded.1, ?_⟩
  intro next proper_next
  rw [run_concat]
  apply event_ahead_le bounded.1
  have same : (post.order.run float events).toPost = post.order.toPost := run_post events
  have side : (post.order.run float events).side = post.order.side := congrArg Post.side same
  have price : (post.order.run float events).price = post.order.price := congrArg Post.price same
  cases next with
  | print trade => exact proper_next
  | boundary book ts tick =>
    unfold Event.Proper at proper_next ⊢
    rw [side, price]
    exact proper_next

end

/- A bid of a hundred, three ahead of it, met by a print of two at its price and then by one through it. -/

def exact : Decimal → ℚ
  | .number value => value
  | _ => 0

def bidPost : Post ℚ :=
  ⟨0, "BTC/EUR", .bid, 0, .number 100, 1, 3, 300, 101, 198, none⟩

def twoPrints : List (Event ℚ) :=
  [.print ⟨500000, .sell, .number 100, 2⟩,
    .boundary ⟨100, [(.finite false 100 0, .finite false 1 0)], [(.finite false 102 0, .finite false 1 0)]⟩
      1000000 (.number 1),
    .print ⟨1500000, .sell, .number 99, 4⟩]

theorem twoPrints_monotone :
    let small := { bidPost with ourQty := 1 }.order
    let large := { bidPost with ourQty := 10 }.order
    FillsFirst exact small large twoPrints ∧
      ((small.run exact twoPrints).filledAt = none →
        (small.run exact twoPrints).cancelledAt = (large.run exact twoPrints).cancelledAt) ∧
      (0 ≤ bidPost.queueAheadQty → (∀ e ∈ twoPrints, e.Proper exact bidPost.order) →
        0 ≤ (bidPost.order.run exact twoPrints).aheadQty ∧
          ∀ next : Event ℚ, next.Proper exact bidPost.order →
            (bidPost.order.run exact (twoPrints ++ [next])).aheadQty ≤
              (bidPost.order.run exact twoPrints).aheadQty) ∧
      FillsFirst exact { bidPost with queueAheadQty := 1 }.order bidPost.order twoPrints :=
  fills_monotone exact bidPost (by decide) (by decide) twoPrints

end Panel
