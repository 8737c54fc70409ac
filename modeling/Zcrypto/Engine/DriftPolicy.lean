import Mathlib.Tactic.Linarith
import Zcrypto.Fallible
import Zcrypto.Engine.Accumulation

/- After every cycle an asset is held at its target or the delta is under a floor, nothing is held at
   anything between, and neither the book nor the drift says in which order the assets were listed. -/
namespace Accumulations

section
variable {isoWeek : Int → Int × Int} {minimums : Minimums} {nav : ℚ} {floorShorts : Bool} {s s' : CycleStages}
  {entries : List (String × ℚ)} {held : String → ℚ} {t : Tally}

/-- What is held of an asset after its decision. -/
def settle (minimums : Minimums) (nav : ℚ) (floorShorts : Bool) (s : CycleStages) (held : String → ℚ)
    (entry : String × ℚ) : ℚ :=
  if (minimums.of entry.1).met (s.targetOf nav floorShorts entry - held entry.1) (s.closeOf entry.1) then
    s.targetOf nav floorShorts entry
  else held entry.1

/-- Whether an asset's delta can be placed. -/
def Fills (minimums : Minimums) (nav : ℚ) (floorShorts : Bool) (s : CycleStages) (held : String → ℚ)
    (entry : String × ℚ) : Prop :=
  (minimums.of entry.1).met (s.targetOf nav floorShorts entry - held entry.1) (s.closeOf entry.1)

/-- What the loop has made of some entries. -/
structure Tallied (minimums : Minimums) (nav : ℚ) (floorShorts : Bool) (s : CycleStages)
    (entries : List (String × ℚ)) (t u : Tally) : Prop where
  own : ∀ e ∈ entries, u.held e.1 = settle minimums nav floorShorts s t.held e
  others : ∀ a, a ∉ entries.map Prod.fst → u.held a = t.held a
  placed : u.placed = true ↔ t.placed = true ∨ ∃ e ∈ entries, Fills minimums nav floorShorts s t.held e
  targetQty : u.targetQty = t.targetQty ++ entries.map fun e => (e.1, s.targetOf nav floorShorts e)
  driftEur : u.driftEur = t.driftEur + (entries.map fun e =>
    |s.targetOf nav floorShorts e - u.held e.1| * s.closeOf e.1).sum

theorem takeAsset_own (e : String × ℚ) :
    (takeAsset minimums nav floorShorts s t e).held e.1 = settle minimums nav floorShorts s t.held e := by
  unfold takeAsset settle
  by_cases fills : (minimums.of e.1).met (s.targetOf nav floorShorts e - t.held e.1) (s.closeOf e.1)
  · simp [fills]
  · simp [fills]

theorem takeAsset_other {e : String × ℚ} {a : String} (apart : a ≠ e.1) :
    (takeAsset minimums nav floorShorts s t e).held a = t.held a := by
  unfold takeAsset
  dsimp only
  split
  · exact Function.update_of_ne apart _ _
  · rfl

theorem settle_congr {held' : String → ℚ} {e : String × ℚ} (same : held e.1 = held' e.1) :
    settle minimums nav floorShorts s held e = settle minimums nav floorShorts s held' e := by
  unfold settle
  rw [same]

theorem tallied (distinct : (entries.map Prod.fst).Nodup) (t : Tally) :
    Tallied minimums nav floorShorts s entries t
      (entries.foldl (takeAsset minimums nav floorShorts s) t) := by
  induction entries generalizing t with
  | nil => exact ⟨by simp, fun _ _ => rfl, by simp, by simp, by simp⟩
  | cons e rest ih =>
    rw [List.map_cons, List.nodup_cons] at distinct
    have later := ih distinct.2 (takeAsset minimums nav floorShorts s t e)
    have apart : ∀ r ∈ rest, r.1 ≠ e.1 := by
      intro r mem same
      exact distinct.1 (same ▸ List.mem_map_of_mem mem)
    have first := later.others e.1 distinct.1
    rw [takeAsset_own] at first
    rw [List.foldl_cons]
    refine ⟨?_, ?_, ?_, ?_, ?_⟩
    · intro r mem
      rcases List.mem_cons.mp mem with rfl | inside
      · exact first
      · rw [later.own r inside]
        exact settle_congr (takeAsset_other (apart r inside))
    · intro a outside
      rw [List.map_cons, List.mem_cons, not_or] at outside
      rw [later.others a outside.2, takeAsset_other outside.1]
    · rw [later.placed]
      have fills : ∀ r ∈ rest, Fills minimums nav floorShorts s
          (takeAsset minimums nav floorShorts s t e).held r ↔ Fills minimums nav floorShorts s t.held r := by
        intro r mem
        unfold Fills
        rw [takeAsset_other (apart r mem)]
      have now : (takeAsset minimums nav floorShorts s t e).placed = true ↔
          t.placed = true ∨ Fills minimums nav floorShorts s t.held e := by
        simp [takeAsset, Fills]
      rw [now, List.exists_mem_cons_iff, or_assoc]
      have rest_fills : (∃ r ∈ rest, Fills minimums nav floorShorts s
          (takeAsset minimums nav floorShorts s t e).held r) ↔
          ∃ r ∈ rest, Fills minimums nav floorShorts s t.held r :=
        exists_congr fun r => and_congr_right fun mem => fills r mem
      rw [rest_fills]
    · rw [later.targetQty]
      simp [takeAsset]
    · rw [later.driftEur, List.map_cons, List.sum_cons, first, ← takeAsset_own, ← add_assoc]
      rfl

/- One cycle. -/

/-- What a cycle does to the held book, and what its row says. -/
structure Policy (minimums : Minimums) (nav : ℚ) (floorShorts : Bool) (s : CycleStages)
    (before after : String → ℚ) (row : Row) : Prop where
  others : ∀ a, a ∉ s.final.map Prod.fst → after a = before a
  moves : ∀ e ∈ s.final, (Fills minimums nav floorShorts s before e ∧ after e.1 = s.targetOf nav floorShorts e) ∨
    (¬ Fills minimums nav floorShorts s before e ∧ after e.1 = before e.1)
  settled : ∀ e ∈ s.final, after e.1 = s.targetOf nav floorShorts e ∨ ¬ Fills minimums nav floorShorts s after e
  near : ∀ e ∈ s.final, 0 < s.closeOf e.1 → after e.1 = s.targetOf nav floorShorts e ∨
    |s.targetOf nav floorShorts e - after e.1| <
      max (minimums.of e.1).orderminBase ((minimums.of e.1).costmin / s.closeOf e.1)
  placed : row.placed = true ↔ ∃ e ∈ s.final, Fills minimums nav floorShorts s before e
  changed : (∀ e ∈ s.final, 0 < (minimums.of e.1).orderminBase ∨ 0 < (minimums.of e.1).costmin) →
    (row.placed = true ↔ ∃ a, after a ≠ before a)
  stamp : row.cycleTs = s.cycleTs
  targets : row.targetQty = s.final.map fun e => (e.1, s.targetOf nav floorShorts e)
  drift : row.driftEur = (s.final.map fun e =>
    |s.targetOf nav floorShorts e - after e.1| * s.closeOf e.1).sum

theorem Minimum.met_zero {m : Minimum} {close : ℚ} (floor : 0 < m.orderminBase ∨ 0 < m.costmin) :
    ¬ m.met 0 close := by
  rintro ⟨quantity, euros⟩
  rw [abs_zero] at quantity euros
  rw [zero_mul] at euros
  rcases floor with pos | pos
  · exact absurd quantity (not_le.mpr pos)
  · exact absurd euros (not_le.mpr pos)

theorem takeCycle_policy (held : String → ℚ) (s : CycleStages) :
    Policy minimums nav floorShorts s held (takeCycle minimums nav floorShorts held s).held
      ((takeCycle minimums nav floorShorts held s).row nav s) := by
  have tally : Tallied minimums nav floorShorts s s.final ⟨held, false, [], 0⟩
      (takeCycle minimums nav floorShorts held s) := tallied s.distinct _
  have moves : ∀ e ∈ s.final, (Fills minimums nav floorShorts s held e ∧
      (takeCycle minimums nav floorShorts held s).held e.1 = s.targetOf nav floorShorts e) ∨
      (¬ Fills minimums nav floorShorts s held e ∧
        (takeCycle minimums nav floorShorts held s).held e.1 = held e.1) := by
    intro e mem
    have own := tally.own e mem
    unfold settle at own
    split at own
    · rename_i fills
      exact .inl ⟨fills, own⟩
    · rename_i short
      exact .inr ⟨short, own⟩
  have settled : ∀ e ∈ s.final, (takeCycle minimums nav floorShorts held s).held e.1 =
      s.targetOf nav floorShorts e ∨
      ¬ Fills minimums nav floorShorts s (takeCycle minimums nav floorShorts held s).held e := by
    intro e mem
    rcases moves e mem with ⟨-, there⟩ | ⟨short, same⟩
    · exact .inl there
    · right
      unfold Fills at short ⊢
      rw [same]
      exact short
  have placed : ((takeCycle minimums nav floorShorts held s).row nav s).placed = true ↔
      ∃ e ∈ s.final, Fills minimums nav floorShorts s held e := by
    simpa [Tally.row] using tally.placed
  refine ⟨tally.others, moves, settled, ?_, placed, ?_, rfl, ?_, ?_⟩
  · intro e mem pos
    refine (settled e mem).imp id fun short => ?_
    rw [lt_max_iff]
    by_contra both
    rw [not_or, not_lt, not_lt, div_le_iff₀ pos] at both
    exact short both
  · intro floors
    rw [placed]
    constructor
    · rintro ⟨e, mem, fills⟩
      refine ⟨e.1, fun same => ?_⟩
      rcases moves e mem with ⟨-, there⟩ | ⟨short, -⟩
      · unfold Fills at fills
        rw [← there, same, sub_self] at fills
        exact Minimum.met_zero (floors e mem) fills
      · exact short fills
    · rintro ⟨a, differs⟩
      by_cases inside : a ∈ s.final.map Prod.fst
      · obtain ⟨e, mem, rfl⟩ := List.mem_map.mp inside
        rcases moves e mem with ⟨fills, -⟩ | ⟨-, same⟩
        · exact ⟨e, mem, fills⟩
        · exact absurd same differs
      · exact absurd (tally.others a inside) differs
  · simpa [Tally.row] using tally.targetQty
  · simpa [Tally.row] using tally.driftEur

/- The window. -/

/-- The book after some cycles. -/
def heldAfter (minimums : Minimums) (nav : ℚ) (floorShorts : Bool) (held : String → ℚ)
    (cycles : List CycleStages) : String → ℚ :=
  cycles.foldl (fun held s => (takeCycle minimums nav floorShorts held s).held) held

theorem replayCycles_length (held : String → ℚ) (cycles : List CycleStages) :
    (replayCycles minimums nav floorShorts held cycles).length = cycles.length := by
  induction cycles generalizing held with
  | nil => rfl
  | cons s rest ih => simp [replayCycles, ih]

theorem replayCycles_row (held : String → ℚ) (pre post : List CycleStages) :
    (replayCycles minimums nav floorShorts held (pre ++ s :: post))[pre.length]? =
      some ((takeCycle minimums nav floorShorts (heldAfter minimums nav floorShorts held pre) s).row nav s) := by
  induction pre generalizing held with
  | nil => rfl
  | cons first pre ih =>
    rw [List.cons_append, replayCycles, List.length_cons, List.getElem?_cons_succ]
    exact ih _

theorem replayCycles_policy (held : String → ℚ) (pre post : List CycleStages) :
    ∃ row, (replayCycles minimums nav floorShorts held (pre ++ s :: post))[pre.length]? = some row ∧
      Policy minimums nav floorShorts s (heldAfter minimums nav floorShorts held pre)
        (heldAfter minimums nav floorShorts held (pre ++ [s])) row := by
  refine ⟨_, replayCycles_row held pre post, ?_⟩
  have last : heldAfter minimums nav floorShorts held (pre ++ [s]) =
      (takeCycle minimums nav floorShorts (heldAfter minimums nav floorShorts held pre) s).held := by
    unfold heldAfter
    rw [List.foldl_append]
    rfl
  rw [last]
  exact takeCycle_policy _ s

/- The order of the assets. -/

/-- Two cycles that differ in the order of their assets only. -/
structure CycleStages.Alike (s s' : CycleStages) : Prop where
  stamp : s'.cycleTs = s.cycleTs
  closes : s'.closes = s.closes
  final : s'.final.Perm s.final

structure Row.Alike (r r' : Row) : Prop where
  stamp : r'.cycleTs = r.cycleTs
  placed : r'.placed = r.placed
  targetQty : r'.targetQty.Perm r.targetQty
  driftEur : r'.driftEur = r.driftEur
  driftBps : r'.driftBps = r.driftBps

structure NavReport.Alike (r r' : NavReport) : Prop where
  nav : r'.nav = r.nav
  cycles : List.Forall₂ Row.Alike r.cycles r'.cycles
  nPlaced : r'.nPlaced = r.nPlaced
  medianDriftBps : r'.medianDriftBps = r.medianDriftBps
  p95DriftBps : r'.p95DriftBps = r.p95DriftBps
  weeks : r'.weeks = r.weeks

structure Payload.Alike (p p' : Payload) : Prop where
  header : p'.header = p.header
  nCycles : p'.nCycles = p.nCycles
  navs : p'.navs = p.navs
  byNav : List.Forall₂ NavReport.Alike p.byNav p'.byNav

/-- The same refusal, or payloads that are alike. -/
inductive AlikeAnswers : Except AccumulationError Payload → Except AccumulationError Payload → Prop where
  | refused (e : AccumulationError) : AlikeAnswers (.error e) (.error e)
  | given {p p' : Payload} : p.Alike p' → AlikeAnswers (.ok p) (.ok p')

theorem CycleStages.Alike.targetOf (alike : s.Alike s') : s'.targetOf nav floorShorts = s.targetOf nav floorShorts := by
  funext e
  unfold CycleStages.targetOf CycleStages.closeOf
  rw [alike.closes]

theorem CycleStages.Alike.closeOf (alike : s.Alike s') : s'.closeOf = s.closeOf := by
  funext a
  unfold CycleStages.closeOf
  rw [alike.closes]

theorem CycleStages.Alike.settle (alike : s.Alike s') (e : String × ℚ) :
    settle minimums nav floorShorts s' held e = settle minimums nav floorShorts s held e := by
  unfold Accumulations.settle
  rw [alike.targetOf, alike.closeOf]

theorem CycleStages.Alike.fills (alike : s.Alike s') (e : String × ℚ) :
    Fills minimums nav floorShorts s' held e ↔ Fills minimums nav floorShorts s held e := by
  unfold Fills
  rw [alike.targetOf, alike.closeOf]

theorem takeCycle_held_alike (alike : s.Alike s') (held : String → ℚ) :
    (takeCycle minimums nav floorShorts held s').held = (takeCycle minimums nav floorShorts held s).held := by
  have tally : Tallied minimums nav floorShorts s s.final ⟨held, false, [], 0⟩
      (takeCycle minimums nav floorShorts held s) := tallied s.distinct _
  have tally' : Tallied minimums nav floorShorts s' s'.final ⟨held, false, [], 0⟩
      (takeCycle minimums nav floorShorts held s') := tallied s'.distinct _
  funext a
  by_cases inside : a ∈ s.final.map Prod.fst
  · obtain ⟨e, mem, rfl⟩ := List.mem_map.mp inside
    rw [tally.own e mem, tally'.own e (alike.final.mem_iff.mpr mem), alike.settle]
  · have outside : a ∉ s'.final.map Prod.fst := fun there => inside ((alike.final.map _).mem_iff.mp there)
    rw [tally.others a inside, tally'.others a outside]

theorem takeCycle_row_alike (alike : s.Alike s') (held : String → ℚ) :
    ((takeCycle minimums nav floorShorts held s).row nav s).Alike
      ((takeCycle minimums nav floorShorts held s').row nav s') := by
  have policy : Policy minimums nav floorShorts s held _ _ := takeCycle_policy held s
  have policy' : Policy minimums nav floorShorts s' held _ _ := takeCycle_policy held s'
  have drift : ((takeCycle minimums nav floorShorts held s').row nav s').driftEur =
      ((takeCycle minimums nav floorShorts held s).row nav s).driftEur := by
    rw [policy.drift, policy'.drift, alike.targetOf, alike.closeOf, takeCycle_held_alike alike]
    exact (alike.final.map _).sum_eq
  refine ⟨alike.stamp, ?_, ?_, drift, ?_⟩
  · rw [Bool.eq_iff_iff, policy.placed, policy'.placed]
    refine exists_congr fun e => ?_
    rw [alike.final.mem_iff, alike.fills]
  · rw [policy.targets, policy'.targets, alike.targetOf]
    exact alike.final.map _
  · exact congrArg (fun eur => 10000 * eur / nav) drift

theorem replayCycles_alike {cycles cycles' : List CycleStages}
    (alike : List.Forall₂ CycleStages.Alike cycles cycles') (held : String → ℚ) :
    List.Forall₂ Row.Alike (replayCycles minimums nav floorShorts held cycles)
      (replayCycles minimums nav floorShorts held cycles') := by
  induction alike generalizing held with
  | nil => exact .nil
  | cons first rest ih =>
    unfold replayCycles
    refine .cons (takeCycle_row_alike first held) ?_
    rw [takeCycle_held_alike first held]
    exact ih _

end

/-- What two lists of rows agree on, entry by entry, they agree on as lists. -/
theorem map_eq_of_alike {α β : Type} {R : α → α → Prop} {f : α → β} {l l' : List α}
    (alike : List.Forall₂ R l l') (same : ∀ {a a'}, R a a' → f a' = f a) : l'.map f = l.map f := by
  induction alike with
  | nil => rfl
  | cons first rest ih => rw [List.map_cons, List.map_cons, same first, ih]

theorem orderedInsert_alike {R : CycleStages → CycleStages → Prop}
    (stamp : ∀ {s s'}, R s s' → s'.cycleTs = s.cycleTs) {s s' : CycleStages} {l l' : List CycleStages}
    (first : R s s') (rest : List.Forall₂ R l l') :
    List.Forall₂ R (l.orderedInsert (fun a b => a.cycleTs ≤ b.cycleTs) s)
      (l'.orderedInsert (fun a b => a.cycleTs ≤ b.cycleTs) s') := by
  induction rest with
  | nil => exact .cons first .nil
  | cons head tail ih =>
    rw [List.orderedInsert_cons, List.orderedInsert_cons, stamp first, stamp head]
    split
    · exact .cons first (.cons head tail)
    · exact .cons head ih

theorem inOrder_alike {stages stages' : List CycleStages} (alike : List.Forall₂ CycleStages.Alike stages stages') :
    List.Forall₂ CycleStages.Alike (inOrder stages) (inOrder stages') := by
  induction alike with
  | nil => exact .nil
  | cons first rest ih =>
    unfold inOrder at ih ⊢
    rw [List.insertionSort_cons, List.insertionSort_cons]
    exact orderedInsert_alike CycleStages.Alike.stamp first ih

theorem priced_alike {ordered ordered' : List CycleStages}
    (alike : List.Forall₂ CycleStages.Alike ordered ordered') :
    ordered'.all CycleStages.priced = ordered.all CycleStages.priced := by
  induction alike with
  | nil => rfl
  | cons first rest ih =>
    rw [List.all_cons, List.all_cons, ih]
    unfold CycleStages.priced
    rw [first.closes, first.final.all_eq]

theorem missingFrom_alike {minimums : Minimums} {s s' : CycleStages} (alike : s.Alike s') :
    missingFrom minimums s' = missingFrom minimums s := by
  unfold missingFrom
  refine List.Perm.eq_of_pairwise' (List.pairwise_insertionSort _ _) (List.pairwise_insertionSort _ _) ?_
  refine (List.perm_insertionSort _ _).trans (.trans ?_ (List.perm_insertionSort _ _).symm)
  exact (alike.final.map _).filter _

theorem uncovered_alike {minimums : Minimums} {ordered ordered' : List CycleStages}
    (alike : List.Forall₂ CycleStages.Alike ordered ordered') :
    uncovered minimums ordered' = uncovered minimums ordered := by
  unfold uncovered
  induction alike with
  | nil => rfl
  | cons first rest ih => rw [List.findSome?_cons, List.findSome?_cons, ih, missingFrom_alike first, first.stamp]

theorem weeklyDrift_alike {isoWeek : Int → Int × Int} {ordered ordered' : List CycleStages} {rows rows' : List Row}
    (stages : List.Forall₂ CycleStages.Alike ordered ordered') (alike : List.Forall₂ Row.Alike rows rows') :
    weeklyDrift isoWeek ordered' rows' = weeklyDrift isoWeek ordered rows := by
  have stamps : (ordered'.map fun s => isoWeek s.cycleTs) = ordered.map fun s => isoWeek s.cycleTs :=
    map_eq_of_alike stages fun alike => congrArg isoWeek (CycleStages.Alike.stamp alike)
  unfold weeklyDrift
  rw [stamps, map_eq_of_alike alike Row.Alike.driftBps]

section
variable {isoWeek : Int → Int × Int} {minimums : Minimums} {nav : ℚ} {floorShorts : Bool}
  {ordered ordered' : List CycleStages}

variable (isoWeek minimums nav floorShorts) in
theorem navReport_alike (alike : List.Forall₂ CycleStages.Alike ordered ordered') :
    (navReport isoWeek minimums nav floorShorts ordered = .error .raised ∧
      navReport isoWeek minimums nav floorShorts ordered' = .error .raised) ∨
    ∃ r r', navReport isoWeek minimums nav floorShorts ordered = .ok r ∧
      navReport isoWeek minimums nav floorShorts ordered' = .ok r' ∧ r.Alike r' := by
  have rows : List.Forall₂ Row.Alike (replayCycles minimums nav floorShorts (fun _ => 0) ordered)
      (replayCycles minimums nav floorShorts (fun _ => 0) ordered') := replayCycles_alike alike _
  have drifts := map_eq_of_alike rows Row.Alike.driftBps
  have placed := map_eq_of_alike rows Row.Alike.placed
  unfold navReport
  rw [priced_alike alike]
  by_cases all : ordered.all CycleStages.priced = true
  · right
    rw [if_pos all, if_pos all]
    refine ⟨_, _, rfl, rfl, rfl, rows, ?_, congrArg median drifts, congrArg p95 drifts,
      weeklyDrift_alike alike rows⟩
    dsimp only
    rw [← List.countP_eq_length_filter, ← List.countP_eq_length_filter]
    simpa only [List.countP_map, Function.id_comp] using congrArg (List.countP id) placed
  · left
    rw [if_neg all, if_neg all]
    exact ⟨rfl, rfl⟩

variable (isoWeek minimums floorShorts) in
theorem mapM_navReport_alike (alike : List.Forall₂ CycleStages.Alike ordered ordered') (navs : List ℚ) :
    ((navs.mapM fun nav => navReport isoWeek minimums nav floorShorts ordered) = .error .raised ∧
      (navs.mapM fun nav => navReport isoWeek minimums nav floorShorts ordered') = .error .raised) ∨
    ∃ rs rs', (navs.mapM fun nav => navReport isoWeek minimums nav floorShorts ordered) = .ok rs ∧
      (navs.mapM fun nav => navReport isoWeek minimums nav floorShorts ordered') = .ok rs' ∧
      List.Forall₂ NavReport.Alike rs rs' := by
  induction navs with
  | nil => exact .inr ⟨[], [], rfl, rfl, .nil⟩
  | cons nav navs ih =>
    rw [List.mapM_cons, List.mapM_cons]
    rcases navReport_alike isoWeek minimums nav floorShorts alike with
      ⟨raised, raised'⟩ | ⟨r, r', given, given', same⟩
    · rw [raised, raised']
      exact .inl ⟨rfl, rfl⟩
    · rw [given, given']
      rcases ih with ⟨raised, raised'⟩ | ⟨rs, rs', given, given', all⟩
      · rw [raised, raised']
        exact .inl ⟨rfl, rfl⟩
      · rw [given, given']
        exact .inr ⟨r :: rs, r' :: rs', rfl, rfl, .cons same all⟩

theorem accumulationPayload_alike {stages stages' : List CycleStages} (navs : List ℚ)
    (alike : List.Forall₂ CycleStages.Alike stages stages') :
    AlikeAnswers (accumulationPayload isoWeek stages minimums navs floorShorts)
      (accumulationPayload isoWeek stages' minimums navs floorShorts) := by
  have sorted := inOrder_alike alike
  unfold accumulationPayload
  dsimp only
  rw [uncovered_alike sorted]
  by_cases bad : navs.filter (· ≤ 0) ≠ []
  · rw [if_pos bad, if_pos bad]
    exact .refused _
  rw [if_neg bad, if_neg bad]
  cases uncovered minimums (inOrder stages) with
  | some e => exact .refused e
  | none =>
    dsimp only
    rcases mapM_navReport_alike isoWeek minimums floorShorts sorted navs with
      ⟨raised, raised'⟩ | ⟨rs, rs', given, given', all⟩
    · rw [raised, raised']
      exact .refused _
    · rw [given, given']
      exact .given ⟨rfl, sorted.length_eq.symm, rfl, all⟩

theorem reports_of_mapM {navs : List ℚ} {rs : List NavReport} {r : NavReport}
    (given : (navs.mapM fun nav => navReport isoWeek minimums nav floorShorts ordered) = .ok rs) (mem : r ∈ rs) :
    ∃ nav ∈ navs, navReport isoWeek minimums nav floorShorts ordered = .ok r := by
  induction navs generalizing rs with
  | nil =>
    cases given
    cases mem
  | cons nav navs ih =>
    rw [List.mapM_cons] at given
    cases now : navReport isoWeek minimums nav floorShorts ordered with
    | error e =>
      rw [now] at given
      cases given
    | ok first =>
      rw [now] at given
      cases later : navs.mapM fun nav => navReport isoWeek minimums nav floorShorts ordered with
      | error e =>
        rw [later] at given
        cases given
      | ok rest =>
        rw [later] at given
        cases given
        rcases List.mem_cons.mp mem with rfl | inside
        · exact ⟨nav, List.mem_cons_self, now⟩
        · obtain ⟨nav', there, is⟩ := ih later inside
          exact ⟨nav', List.mem_cons_of_mem _ there, is⟩

end

/- The policy. -/

end Accumulations
