import Zcrypto.Engine.Flatten
import Mathlib.Data.Rat.Star
import Mathlib.Algebra.Order.Ring.Star

/- The plan covers the whole account, and what it declines to sell the verdict calls clean. -/
namespace Flatten
open Effects Effects.Prog ProbePlans Orders Instruments

section
variable {α β γ δ : Type}

/-- Splitting a list of alternatives loses none and repeats none. -/
theorem split_perm (f : α → γ) (g : β → γ) (l : List (α ⊕ β)) :
    ((l.filterMap Sum.getLeft?).map f ++ (l.filterMap Sum.getRight?).map g).Perm
      (l.map (Sum.elim f g)) := by
  induction l with
  | nil => exact List.Perm.nil
  | cons x l ih =>
    cases x with
    | inl a =>
      simp only [List.filterMap_cons, Sum.getLeft?, Sum.getRight?, List.map_cons, List.cons_append,
        Sum.elim_inl]
      exact ih.cons (f a)
    | inr b =>
      simp only [List.filterMap_cons, Sum.getLeft?, Sum.getRight?, List.map_cons, Sum.elim_inr]
      exact List.perm_middle.trans (ih.cons (g b))

/-- A route that drops what is not kept, and names every row it takes, takes each kept row once. -/
theorem routed_map {route : δ → Option α} {keep : δ → Bool} {name : α → γ} {row : δ → γ}
    (dropped : ∀ d, keep d = false → route d = none)
    (taken : ∀ d, keep d = true → ∃ a, route d = some a ∧ name a = row d) (l : List δ) :
    (l.filterMap route).map name = (l.filter keep).map row := by
  induction l with
  | nil => rfl
  | cons d l ih =>
    cases kept : keep d with
    | false => rw [List.filterMap_cons, dropped d kept, List.filter_cons, kept]; exact ih
    | true =>
      obtain ⟨a, route_eq, named⟩ := taken d kept
      rw [List.filterMap_cons, route_eq, List.filter_cons, kept]
      simp [named, ih]

end

/-- The position a closer closes. -/
def Leg.position (l : Leg) : PositionRow :=
  ⟨l.symbol, if l.side = .sell then "LONG" else "SHORT", l.quantity⟩

def Unclosable.position (u : Unclosable) : PositionRow := ⟨u.symbol, u.side, u.quantity⟩

def isOpen (p : PositionRow) : Bool := p.side ≠ "FLAT"

/-- A balance that is not euros, and some of it free. -/
def isHeld (b : BalanceRow) : Bool := !isEuro b.code && 0 < b.free

/-- The base a balance is booked under, its own code where none is listed. -/
def BalanceRow.booked (listing : Listing) (b : BalanceRow) : String × ℚ :=
  ((resolveBase b.code (listedBases listing)).getD b.code, b.free)

section
variable {listing : Listing}

theorem routePosition_flat {p : PositionRow} (flat : isOpen p = false) :
    routePosition listing p = none := by
  simp only [isOpen, ne_eq, decide_not, Bool.not_eq_false', decide_eq_true_eq] at flat
  simp [routePosition, flat]

theorem closingSide_some {side : String} {s : Side} (h : closingSide side = some s) :
    side = if s = .sell then "LONG" else "SHORT" := by
  by_cases long : side = "LONG"
  · subst long
    cases h
    rfl
  by_cases short : side = "SHORT"
  · subst short
    cases h
    rfl
  · simp [closingSide, List.lookup_cons, beq_eq_false_iff_ne.mpr long,
      beq_eq_false_iff_ne.mpr short] at h

theorem routePosition_open {p : PositionRow} (isOpen : isOpen p = true) :
    ∃ a, routePosition listing p = some a ∧ Sum.elim Leg.position Unclosable.position a = p := by
  simp only [Flatten.isOpen, ne_eq, decide_not, Bool.not_eq_true', decide_eq_false_iff_not] at isOpen
  unfold routePosition
  rw [if_neg isOpen]
  split
  · exact ⟨_, rfl, rfl⟩
  rename_i s side
  split
  · exact ⟨_, rfl, rfl⟩
  · refine ⟨_, rfl, ?_⟩
    simp [Leg.position, ← closingSide_some side]

/-- Every position that is not flat is a leg or unclosable, once. -/
theorem marginLegs_cover (listing : Listing) (positions : List PositionRow) :
    ((marginLegs positions listing).1.map Leg.position ++
      (marginLegs positions listing).2.map Unclosable.position).Perm (positions.filter isOpen) := by
  have routed : (positions.filterMap (routePosition listing)).map
      (Sum.elim Leg.position Unclosable.position) = (positions.filter isOpen).map id :=
    routed_map (fun _ => routePosition_flat) (fun _ => routePosition_open) positions
  rw [List.map_id] at routed
  rw [← routed]
  exact split_perm _ _ _

theorem routeBalance_unheld {b : BalanceRow} (unheld : isHeld b = false) :
    routeBalance listing b = none := by
  unfold routeBalance
  split
  · rfl
  rename_i other
  split
  · rfl
  rename_i free
  simp [isHeld, other, not_le.mp free] at unheld

theorem routeBalance_held {b : BalanceRow} (held : isHeld b = true) :
    ∃ a, routeBalance listing b = some a ∧
      Sum.elim (fun l => (l.base, l.quantity)) (fun u => (u.base, u.free)) a = b.booked listing := by
  simp only [isHeld, Bool.and_eq_true, Bool.not_eq_true', decide_eq_true_eq] at held
  unfold routeBalance
  rw [if_neg (by simp [held.1]), if_neg (not_le.mpr held.2)]
  split
  · rename_i none
    exact ⟨_, rfl, by simp [BalanceRow.booked, none]⟩
  rename_i base found
  split
  · exact ⟨_, rfl, by simp [BalanceRow.booked, found]⟩
  · exact ⟨_, rfl, by simp [BalanceRow.booked, found]⟩

/-- Every balance held that is not euros is a leg or unsellable, once. -/
theorem spotLegs_cover (listing : Listing) (balances : List BalanceRow) :
    ((spotLegs balances listing).1.map (fun l => (l.base, l.quantity)) ++
      (spotLegs balances listing).2.map (fun u => (u.base, u.free))).Perm
      ((balances.filter isHeld).map (BalanceRow.booked listing)) := by
  have routed : (balances.filterMap (routeBalance listing)).map
      (Sum.elim (fun l => (l.base, l.quantity)) (fun u => (u.base, u.free))) =
      (balances.filter isHeld).map (BalanceRow.booked listing) :=
    routed_map (fun _ => routeBalance_unheld) (fun _ => routeBalance_held) balances
  rw [← routed]
  exact split_perm _ _ _

-- sizing

theorem tickFloored_idem (c : PairConstraints) (price : Option ℚ) :
    tickFloored (tickFloored price c) c = tickFloored price c := by
  cases price with
  | none => rfl
  | some p =>
    simp only [tickFloored, Option.bind_some]
    by_cases pos : 0 < floorToStep p c.tickSize
    · simp only [if_pos pos, Option.bind_some, floorToStep_idem c.tick_pos]
    · simp only [if_neg pos, Option.bind_none]

/-- The dust boundary does not move when the price it reads is floored to the tick already. -/
theorem classifyBalance_floored (free : ℚ) (c : PairConstraints) (price : Option ℚ) :
    classifyBalance free c (tickFloored price c) = classifyBalance free c price := by
  unfold classifyBalance size
  rw [tickFloored_idem]

theorem sizeLeg_send {leg : Leg} (spot : leg.kind = .spot) (c : PairConstraints) (price : Option ℚ) :
    (sizeLeg leg c price).send = true ↔ classifyBalance leg.quantity c price = .residual := by
  have notMargin : leg.kind ≠ .margin := by simp [spot]
  simp only [sizeLeg, if_neg notMargin, classifyBalance_floored]
  split
  · rename_i other
    simp [other]
  · rename_i residual
    simp [not_not.mp residual]

/-- A balance the planner routes is judged by the same constraints and the same price: it is a
    residual just where its leg is sent. -/
theorem judgeBalance_leg {row : BalanceRow} {leg : Leg} {c : PairConstraints}
    (prices : List (Symbol × ℚ)) (routed : routeBalance listing row = some (.inl leg))
    (read : constraintsFor leg.symbol listing = .ok c) :
    (judgeBalance listing prices row = none ↔
      (sizeLeg leg c (prices.lookup leg.symbol)).send = false) := by
  unfold routeBalance at routed
  split at routed
  · cases routed
  rename_i other
  split at routed
  · cases routed
  rename_i free
  split at routed
  · cases routed
  rename_i base based
  split at routed
  · cases routed
  rename_i symbol chosen
  cases routed
  rw [← Bool.not_eq_true, sizeLeg_send rfl]
  unfold judgeBalance
  rw [if_neg (by simp [other, not_le.mp free]), based, Option.bind_some, chosen]
  simp only [read]
  split
  · rename_i residual
    simp [residual]
  · rename_i clean
    simp [clean]

-- the plan

variable {w : World} {t : Tape}

theorem wp_sizeAll (constraints : List (Symbol × PairConstraints)) (prices : List (Symbol × ℚ))
    (legs : List Leg) :
    wp w (sizeAll constraints prices legs) ⟨fun out _ => out.map SizedLeg.leg = legs,
      fun _ => True, fun _ => True⟩ t := by
  unfold sizeAll
  induction legs generalizing t with
  | nil => simp [collect]
  | cons leg legs ih =>
    simp only [collect, wp_bind, wp_orRaise, wp_pure]
    refine ⟨?_, fun _ => trivial⟩
    intro c found
    apply wp_mono ih _ (fun _ _ => trivial) (fun _ _ => trivial)
    intro out _ legs_eq
    show (sizeLeg leg c _).leg :: out.map SizedLeg.leg = leg :: legs
    rw [show out.map SizedLeg.leg = legs from legs_eq]
    rfl

end

/-- Nothing of the snapshot is lost and nothing stands twice. -/
structure CoversAccount (snapshot : Snapshot) (listing : Listing) (plan : Plan) : Prop where
  positions : (plan.margin.map (fun s => s.leg.position) ++
    plan.unclosable.map Unclosable.position).Perm (snapshot.positions.filter isOpen)
  balances : (plan.spot.map (fun s => (s.leg.base, s.leg.quantity)) ++
    plan.unsellable.map (fun u => (u.base, u.free))).Perm
      ((snapshot.balances.filter isHeld).map (BalanceRow.booked listing))

section
variable {w : World} {t : Tape} {snapshot : Snapshot} {listing : Listing}

/-- A run that says nothing of its end. -/
theorem wp_any {α : Type} (m : Flat α) : wp w m (Post.always fun _ => True) t := by
  rw [wp_always]
  trivial

theorem wp_buildPlan (w : World) (t : Tape) (snapshot : Snapshot) (listing : Listing) :
    wp w (buildPlan snapshot listing)
    ⟨fun plan _ => CoversAccount snapshot listing plan, fun _ => True, fun _ => True⟩ t := by
  unfold buildPlan
  simp only [wp_bind]
  apply wp_mono (wp_any _) _ (fun _ _ => trivial) (fun _ _ => trivial)
  intro constraints _ _
  apply wp_mono (wp_any _) _ (fun _ _ => trivial) (fun _ _ => trivial)
  intro prices _ _
  apply wp_mono (wp_sizeAll _ _ _) _ (fun _ _ => trivial) (fun _ _ => trivial)
  intro margin _ marginLegs_eq
  apply wp_mono (wp_sizeAll _ _ _) _ (fun _ _ => trivial) (fun _ _ => trivial)
  intro spot _ spotLegs_eq
  show CoversAccount snapshot listing _
  constructor
  · have covered := marginLegs_cover listing snapshot.positions
    rw [← marginLegs_eq, List.map_map] at covered
    exact covered
  · have covered := spotLegs_cover listing snapshot.balances
    rw [← spotLegs_eq, List.map_map] at covered
    exact covered

end

/-- Every plan covers the account, each position and each balance held in one place of it; and a
    spot leg is sent just where its balance, judged on the same constraints and price, is residual:
    what the planner declines is not reported, and what is reported clean was not sendable. -/
theorem flatten_covers_and_agrees :
    (∀ (w : World) (t : Tape) (snapshot : Snapshot) (listing : Listing) (plan : Plan) (t' : Tape),
      buildPlan snapshot listing w t = (.ok plan, t') → CoversAccount snapshot listing plan) ∧
    (∀ (leg : Leg) (c : PairConstraints) (price : Option ℚ), leg.kind = .spot →
      ((sizeLeg leg c price).send = true ↔ classifyBalance leg.quantity c price = .residual)) ∧
    ∀ (listing : Listing) (prices : List (Symbol × ℚ)) (row : BalanceRow) (leg : Leg)
      (c : PairConstraints), routeBalance listing row = some (.inl leg) →
      constraintsFor leg.symbol listing = .ok c →
      (judgeBalance listing prices row = none ↔
        (sizeLeg leg c (prices.lookup leg.symbol)).send = false) := by
  refine ⟨?_, fun leg c price spot => sizeLeg_send spot c price, ?_⟩
  · intro w t snapshot listing plan t' built
    have covers := wp_buildPlan w t snapshot listing
    unfold wp at covers
    rw [built] at covers
    exact covers
  · intro listing prices row leg c routed read
    exact judgeBalance_leg prices routed read

/-- A listed pair, and three units of its base. -/
def listedSol : Listing :=
  [(⟨"SOL", "EUR"⟩, ⟨some ⟨"SOL", "EUR"⟩, "SOLEUR", .number 2, .number 1, .number 1⟩)]

def threeSol : Leg := ⟨.spot, "SOL", ⟨"SOL", "EUR"⟩, .sell, 3, .cash, "account_state.free"⟩

theorem flatten_agrees_on_three_sol : judgeBalance listedSol [] ⟨"SOL", 3⟩ = none ↔
    (sizeLeg threeSol ⟨⟨"SOL", "EUR"⟩, 2, 1, 1, by norm_num, by norm_num⟩ none).send = false :=
  flatten_covers_and_agrees.2.2 listedSol [] ⟨"SOL", 3⟩ threeSol _ (by decide) (by decide)

end Flatten
