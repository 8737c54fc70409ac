import Zcrypto.Engine.SoakSegment

/- The realized series of a soak check: what the cycles of a clean segment earned on the closes of a store, each
   cycle's targets held from its boundary to the next, and what ended the window. Arithmetic is exact. -/
namespace Soak
open Journal Replays Stores Fallible
open Cycles (h4 readStoreSeries symbolKeyedTargets)

inductive Refusal where
  | noSegment
  | assetSet (cycle : Int) (keys assets : List String)
  | engine (fault : Fault)
  | offGrid (asset : String) (count : Nat) (first : Option Int)
  | noSnapshot (cycle : Int)
  | snapshotEnd (cycle : Int) (found : Moment)
  | zeroDivision
  deriving DecidableEq, Repr

inductive Skip where
  | clock
  | store
  deriving DecidableEq, Repr

inductive WindowBound where
  | store
  | clock
  | journal
  deriving DecidableEq, Repr

/-- A present close that is not finite, and the cycle that was skipped for it. -/
structure Dropped where
  cycle : Int
  asset : String
  stamp : Int
  close : Stores.Num
  deriving DecidableEq, Repr

/-- One scored cycle. -/
structure Bar where
  ts : Int
  weights : List (String × ℚ)
  gross : ℚ
  turnover : ℚ
  net : ℚ
  deriving DecidableEq, Repr

/-- What the pass over the segment keeps. -/
structure Pass where
  bars : List Bar := []
  implausible : Bool := false
  prev : List (String × ℚ)
  skipped : List (Int × Skip) := []
  dropped : List Dropped := []
  deriving DecidableEq, Repr

structure RealizedSeries where
  cycleTs : List Int
  weights : List (List (String × ℚ))
  gross : List ℚ
  turnover : List ℚ
  net : List ℚ
  droppedTail : Int
  assets : List String
  chainOk : Option Bool
  implausible : Bool
  windowBound : WindowBound
  storeLastTs : Option Int
  journalLastCycleTs : Option Int
  storeBoundCycles : Nat
  droppedReasons : List Dropped
  deriving DecidableEq, Repr

/-- An asset with its closes. -/
abbrev Leg := String × Series

def snapshot240 (r : CycleRecord) : Except Refusal SnapshotEntry :=
  match r.snapshots.find? (inGrid "240") with
  | some entry => .ok entry
  | none => .error (.noSnapshot (time r))

def finiteAt (s : Series) (t : Int) : Option ℚ :=
  match s.closeAt t with
  | some (.finite q) => some q
  | _ => none

/-- The closes a cycle is entered and left at, where both are finite. -/
def bothCloses (t : Int) (leg : Leg) : Option (ℚ × ℚ) :=
  match finiteAt leg.2 (t - h4), finiteAt leg.2 t with
  | some entry, some exit => some (entry, exit)
  | _, _ => none

/-- The first present close of a cycle that is not finite. -/
def nonFinite (legs : List Leg) (t : Int) : Option Dropped :=
  (legs.flatMap fun leg => [t - h4, t].filterMap fun stamp =>
    match leg.2.closeAt stamp with
    | none | some (.finite _) => none
    | some close => some ⟨t, leg.1, stamp, close⟩).head?

/-- The targets of a cycle over every asset of the window. -/
def weightsOf (assets : List String) (r : CycleRecord) : List (String × ℚ) :=
  assets.map fun a => (a, ((symbolKeyedTargets r).get? a).getD 0)

def turnoverOf (weights prev : List (String × ℚ)) : ℚ :=
  (weights.map fun w => |w.2 - (prev.lookup w.1).getD 0|).sum

def returnsOf (closes : List (ℚ × ℚ)) : List ℚ := closes.map fun c => c.2 / c.1 - 1

def barOf (fee : ℚ) (weights prev : List (String × ℚ)) (t : Int) (returns : List ℚ) : Bar :=
  let gross := (List.zipWith (fun w r => w.2 * r) weights returns).sum
  ⟨t, weights, gross, turnoverOf weights prev, gross - fee * turnoverOf weights prev⟩

section
variable (legs : List Leg) (fee : ℚ) (now : Int)

/-- One cycle with its successor. -/
def score (p : Pass) (cycle : CycleRecord × CycleRecord) : Except Refusal Pass := do
  let t := time cycle.1
  let own ← snapshot240 cycle.1
  let next ← snapshot240 cycle.2
  if own.lastTs.moment ≠ ⟨true, t - h4⟩ then .error (.snapshotEnd t own.lastTs.moment)
  else if next.lastTs.moment ≠ ⟨true, t⟩ then .error (.snapshotEnd (time cycle.2) next.lastTs.moment)
  else if now < time cycle.2 then .ok { p with skipped := p.skipped ++ [(t, .clock)] }
  else
    match legs.mapM (bothCloses t) with
    | none =>
      .ok { p with
        skipped := p.skipped ++ [(t, .store)]
        dropped := p.dropped ++ (nonFinite legs t).toList }
    | some closes =>
      if closes.any fun c => c.1 = 0 then .error .zeroDivision
      else
        let weights := weightsOf (legs.map Prod.fst) cycle.1
        .ok { p with
          bars := p.bars ++ [barOf fee weights p.prev t (returnsOf closes)]
          implausible := p.implausible || (returnsOf closes).any fun r => 1 / 2 < |r|
          prev := weights }

/-- Whether consecutive scored cycles chain, where there are any to compare. -/
def chainConsistent (scored : List Int) : Option Bool :=
  if scored.length < 2 ∨ legs = [] then none
  else some ((scored.zip scored.tail).all fun (t, t') => legs.all fun leg =>
    leg.2.closeAt t = leg.2.closeAt (t' - h4))

/-- The newest stamp at which every asset has a finite close. -/
def storeLastUsable : Option Int :=
  match legs with
  | [] => none
  | leg :: rest => ((leg.2.ts.filter fun t => (finiteAt leg.2 t).isSome).filter fun t =>
      rest.all fun other => (finiteAt other.2 t).isSome).max?

/-- The cycles after the last scored one. -/
def trailing (segment : List CycleRecord) (bars : List Bar) : List Int :=
  (segment.dropLast.map time).filter fun t => bars.getLast?.all fun b => b.ts < t

def boundOf (trailing : List Int) (skipped : List (Int × Skip)) : WindowBound :=
  if trailing.countP (fun t => skipped.lookup t = some .store) ≠ 0 then .store
  else if trailing.any fun t => skipped.lookup t = some .clock then .clock
  else .journal

def assetsOf (segment : List CycleRecord) : List String :=
  ((segment.flatMap fun r => (symbolKeyedTargets r).keys).dedup).insertionSort (· ≤ ·)

/-- A record of the first schema has no leg but in euros. -/
def checkAssets (assets : List String) (r : CycleRecord) : Except Refusal Unit :=
  let keys := (symbolKeyedTargets r).keys
  let missing := assets.filter fun a => a ∉ keys
  let missing := if isSchema 1 r.schemaVersion then missing.filter fun a => "/EUR".toList.isSuffixOf a.toList else missing
  if missing ≠ [] then .error (.assetSet (time r) (keys.insertionSort (· ≤ ·)) assets) else .ok ()

def checkGrid (leg : Leg) : Except Refusal Unit :=
  let off := leg.2.ts.filter fun t => !onGrid t
  if off ≠ [] then .error (.offGrid leg.1 off.length off.head?) else .ok ()

end

def readLeg (store : Stores.Leg → File) (asset : String) : Except Refusal Leg :=
  ((readStoreSeries (store (asset, 240))).mapError .engine).map fun s => (asset, s)

def realizedSeries (records : List CycleRecord) (store : Stores.Leg → File) (fee : ℚ) (now : Int)
    (floor : Option Int) : Except Refusal RealizedSeries := do
  let segment := selectCleanSegment records floor
  if segment = [] then .error .noSegment
  else do
    let assets := assetsOf segment
    segment.forM (checkAssets assets)
    let legs ← assets.mapM (readLeg store)
    legs.forM checkGrid
    let p ← (segment.zip segment.tail).foldlM (score legs fee now) { prev := assets.map fun a => (a, 0) }
    let after := trailing segment p.bars
    .ok {
      cycleTs := p.bars.map Bar.ts
      weights := p.bars.map Bar.weights
      gross := p.bars.map Bar.gross
      turnover := p.bars.map Bar.turnover
      net := p.bars.map Bar.net
      droppedTail := segment.length - p.bars.length
      assets := assets
      chainOk := chainConsistent legs (p.bars.map Bar.ts)
      implausible := p.implausible
      windowBound := boundOf after p.skipped
      storeLastTs := storeLastUsable legs
      journalLastCycleTs := segment.getLast?.map time
      storeBoundCycles := after.countP fun t => p.skipped.lookup t = some .store
      droppedReasons := p.dropped }

/-- Why a cycle is skipped. -/
def reason (legs : List Leg) (now : Int) (cycle : CycleRecord × CycleRecord) : Option Skip :=
  if now < time cycle.2 then some .clock
  else if (legs.mapM (bothCloses (time cycle.1))).isNone then some .store
  else none

/-- The bars of scored cycles, each turned over from the one before. -/
def barsFrom (legs : List Leg) (fee : ℚ) : List (String × ℚ) → List CycleRecord → List Bar
  | _, [] => []
  | prev, r :: rest =>
    let weights := weightsOf (legs.map Prod.fst) r
    barOf fee weights prev (time r) (returnsOf ((legs.mapM (bothCloses (time r))).getD [])) :: barsFrom legs fee weights rest

section
variable {legs : List Leg} {fee : ℚ} {now : Int} {p p' : Pass} {cycle : CycleRecord × CycleRecord}

/-- The snapshots of a cycle and its successor end where the cycle's closes do. -/
def Snapped (cycle : CycleRecord × CycleRecord) : Prop :=
  (∃ own, snapshot240 cycle.1 = .ok own ∧ own.lastTs.moment = ⟨true, time cycle.1 - h4⟩) ∧
    ∃ next, snapshot240 cycle.2 = .ok next ∧ next.lastTs.moment = ⟨true, time cycle.1⟩

/-- What one cycle does to the pass. -/
inductive Scored (legs : List Leg) (fee : ℚ) (now : Int) (p : Pass) (cycle : CycleRecord × CycleRecord) : Pass → Prop
  | skips (why : Skip) (dropped : List Dropped) (skipped : reason legs now cycle = some why) :
    Scored legs fee now p cycle
      { p with skipped := p.skipped ++ [(time cycle.1, why)], dropped := p.dropped ++ dropped }
  | scores (closes : List (ℚ × ℚ)) ( implausible : Bool) (scored : reason legs now cycle = none)
    (both : legs.mapM (bothCloses (time cycle.1)) = some closes) (entries : ∀ c ∈ closes, c.1 ≠ 0) :
    Scored legs fee now p cycle
      { p with
        bars := p.bars ++ [barOf fee (weightsOf (legs.map Prod.fst) cycle.1) p.prev (time cycle.1) (returnsOf closes)]
        implausible := implausible
        prev := weightsOf (legs.map Prod.fst) cycle.1 }

theorem score_ok (done : score legs fee now p cycle = .ok p') : Snapped cycle ∧ Scored legs fee now p cycle p' := by
  unfold score at done
  obtain ⟨own, at_own, done⟩ := bind_ok.mp done
  obtain ⟨next, at_next, done⟩ := bind_ok.mp done
  split at done
  · cases done
  · rename_i own_ends
    split at done
    · cases done
    · rename_i next_ends
      refine ⟨⟨⟨own, at_own, not_not.mp own_ends⟩, next, at_next, not_not.mp next_ends⟩, ?_⟩
      split at done
      · rename_i late
        injection done with done
        subst done
        have skips : Scored legs fee now p cycle _ := .skips .clock [] (show reason legs now cycle = some .clock by
          rw [reason, if_pos late])
        rwa [List.append_nil] at skips
      · rename_i in_time
        split at done
        · rename_i absent
          injection done with done
          subst done
          exact .skips .store _ (by rw [reason, if_neg in_time, absent]; rfl)
        · rename_i closes both
          split at done
          · cases done
          · rename_i entries
            injection done with done
            subst done
            refine .scores closes _ (by rw [reason, if_neg in_time, both]; rfl) both ?_
            intro c mem zero
            apply entries
            simp only [List.any_eq_true, decide_eq_true_eq]
            exact ⟨c, mem, zero⟩

/-- What the pass makes of consecutive cycles: the bars of those it scores, and a reason for each of the others. -/
theorem score_run {cycles : List (CycleRecord × CycleRecord)} (done : cycles.foldlM (score legs fee now) p = .ok p') :
    p'.bars = p.bars ++ barsFrom legs fee p.prev ((cycles.filter fun c => reason legs now c = none).map Prod.fst) ∧
      p'.skipped = p.skipped ++ cycles.filterMap fun c => (reason legs now c).map fun why => (time c.1, why) := by
  induction cycles generalizing p with
  | nil =>
    injection done with same
    subst same
    simp [barsFrom]
  | cons cycle rest ih =>
    rw [List.foldlM_cons] at done
    obtain ⟨mid, one, more⟩ := bind_ok.mp done
    obtain ⟨bars, skipped⟩ := ih more
    rw [bars, skipped]
    cases (score_ok one).2 with
    | skips why dropped skips =>
      rw [List.filter_cons_of_neg (by simp [skips]), List.filterMap_cons_some (by rw [skips]; rfl)]
      exact ⟨rfl, by simp⟩
    | scores closes implausible scores both entries =>
      rw [List.filter_cons_of_pos (by simp [scores]), List.filterMap_cons_none (by rw [scores]; rfl), List.map_cons,
        barsFrom, both]
      exact ⟨by simp, rfl⟩

/-- Each scored bar is turned over from the weights of the one before. -/
theorem barsFrom_turnover (prev : List (String × ℚ)) (scored : List CycleRecord) :
    (barsFrom legs fee prev scored).map Bar.turnover =
      List.zipWith turnoverOf ((barsFrom legs fee prev scored).map Bar.weights)
        (prev :: (barsFrom legs fee prev scored).map Bar.weights) := by
  induction scored generalizing prev with
  | nil => rfl
  | cons r rest ih =>
    simp only [barsFrom, List.map_cons, List.zipWith_cons_cons]
    rw [ih]
    rfl

theorem barsFrom_ts (prev : List (String × ℚ)) (scored : List CycleRecord) :
    (barsFrom legs fee prev scored).map Bar.ts = scored.map time := by
  induction scored generalizing prev with
  | nil => rfl
  | cons r rest ih =>
    simp only [barsFrom, List.map_cons, ih]
    rfl

theorem barsFrom_weights (prev : List (String × ℚ)) (scored : List CycleRecord) :
    (barsFrom legs fee prev scored).map Bar.weights = scored.map (weightsOf (legs.map Prod.fst)) := by
  induction scored generalizing prev with
  | nil => rfl
  | cons r rest ih =>
    simp only [barsFrom, List.map_cons, ih]
    rfl

theorem barsFrom_net (prev : List (String × ℚ)) (scored : List CycleRecord) :
    ∀ bar ∈ barsFrom legs fee prev scored, bar.net = bar.gross - fee * bar.turnover := by
  induction scored generalizing prev with
  | nil => simp [barsFrom]
  | cons r rest ih =>
    intro bar mem
    rcases List.mem_cons.mp mem with rfl | later
    · rfl
    · exact ih _ bar later

end

/- A pass that looks each item up. -/

section
variable {α β : Type} {f : α → Option β}

theorem mapM_isSome {l : List α} : (l.mapM f).isSome ↔ ∀ x ∈ l, (f x).isSome := by
  induction l with
  | nil => simp
  | cons x rest ih =>
    rw [List.mapM_cons, List.forall_mem_cons, ← ih]
    cases f x <;> cases rest.mapM f <;> simp

theorem mapM_forall {l : List α} {ys : List β} (found : l.mapM f = some ys) :
    List.Forall₂ (fun x y => f x = some y) l ys := by
  induction l generalizing ys with
  | nil =>
    obtain rfl : [] = ys := by simpa using found
    exact .nil
  | cons x rest ih =>
    rw [List.mapM_cons] at found
    obtain ⟨y, first, found⟩ := Option.bind_eq_some_iff.mp found
    obtain ⟨more, others, same⟩ := Option.bind_eq_some_iff.mp found
    obtain rfl := Option.some.inj same
    exact .cons first (ih others)

theorem zip_tail_fst (l : List α) : (l.zip l.tail).map Prod.fst = l.dropLast := by
  cases l with
  | nil => rfl
  | cons x rest =>
    induction rest generalizing x with
    | nil => rfl
    | cons y rest ih =>
      rw [List.tail_cons, List.zip_cons_cons, List.map_cons, List.dropLast_cons_cons]
      exact congrArg (x :: ·) (ih y)

end

/-- A close of the store, where it is there and finite. -/
def quoteAt (store : Stores.Leg → File) (asset : String) (t : Int) : Option ℚ :=
  (readStoreSeries (store (asset, 240))).toOption.bind fun s => finiteAt s t

/-- The closes a cycle is scored on are there and finite for every asset. -/
def Quoted (store : Stores.Leg → File) (assets : List String) (t : Int) : Prop :=
  ∀ a ∈ assets, (quoteAt store a (t - h4)).isSome ∧ (quoteAt store a t).isSome

/-- What a cycle's weights made of the closes. -/
def earned (store : Stores.Leg → File) (assets : List String) (r : CycleRecord) : ℚ :=
  (assets.map fun a => ((symbolKeyedTargets r).get? a).getD 0 *
    ((quoteAt store a (time r)).getD 0 / (quoteAt store a (time r - h4)).getD 0 - 1)).sum

/-- A cycle after the last scored one. -/
def After (series : RealizedSeries) (cycle : CycleRecord × CycleRecord) : Prop :=
  ∀ t ∈ series.cycleTs, t < time cycle.1

/-- A realized series told of its segment, the store and the clock. -/
structure Realizes (segment : List CycleRecord) (store : Stores.Leg → File) (fee : ℚ) (now : Int)
    (series : RealizedSeries) : Prop where
  scored : ∃ scored : List CycleRecord, scored.Sublist segment.dropLast ∧ series.cycleTs = scored.map time ∧
    series.weights = scored.map (weightsOf series.assets) ∧ series.gross = scored.map (earned store series.assets)
  exactly : ∀ c ∈ segment.zip segment.tail,
    time c.1 ∈ series.cycleTs ↔ time c.2 ≤ now ∧ Quoted store series.assets (time c.1)
  never_last : ∀ r, segment.getLast? = some r → time r ∉ series.cycleTs
  counted : (series.cycleTs.length : Int) + series.droppedTail = segment.length
  turnover : series.turnover =
    List.zipWith turnoverOf series.weights (series.assets.map (fun a => (a, 0)) :: series.weights)
  net : series.net = List.zipWith (fun gross turnover => gross - fee * turnover) series.gross series.turnover
  store_bound : series.windowBound = .store ↔
    ∃ c ∈ segment.zip segment.tail, After series c ∧ time c.2 ≤ now ∧ ¬ Quoted store series.assets (time c.1)
  clock_bound : series.windowBound = .clock ↔
    (∃ c ∈ segment.zip segment.tail, After series c ∧ now < time c.2) ∧
      ∀ c ∈ segment.zip segment.tail, After series c → time c.2 ≤ now → Quoted store series.assets (time c.1)
  journal_bound : series.windowBound = .journal ↔ ∀ c ∈ segment.zip segment.tail, ¬ After series c

section
variable {store : Stores.Leg → File} {assets : List String} {legs : List Leg} {fee : ℚ} {now : Int}

/-- The legs are the assets with what the store has of each. -/
structure Read (store : Stores.Leg → File) (assets : List String) (legs : List Leg) : Prop where
  assets : legs.map Prod.fst = assets
  series : ∀ leg ∈ legs, readStoreSeries (store (leg.1, 240)) = .ok leg.2

theorem readLeg_ok {asset : String} {leg : Leg} :
    readLeg store asset = .ok leg ↔ leg.1 = asset ∧ readStoreSeries (store (asset, 240)) = .ok leg.2 := by
  obtain ⟨a, s⟩ := leg
  unfold readLeg
  cases readStoreSeries (store (asset, 240)) with
  | error e => simp [Except.mapError, Except.map]
  | ok s' =>
    simp only [Except.mapError, Except.map, Except.ok.injEq, Prod.mk.injEq]
    exact and_congr_left' eq_comm

theorem read_of (read : assets.mapM (readLeg store) = .ok legs) : Read store assets legs := by
  have each := mapM_ok.mp read
  constructor
  · induction each with
    | nil => rfl
    | cons one _ ih =>
      rw [List.map_cons, ih (mapM_ok.mpr ‹_›), (readLeg_ok.mp one).1]
  · intro leg mem
    obtain ⟨asset, _, one⟩ := mapM_ok_source read mem
    obtain ⟨rfl, there⟩ := readLeg_ok.mp one
    exact there

theorem Read.quote (read : Read store assets legs) {leg : Leg} (mem : leg ∈ legs) (t : Int) :
    quoteAt store leg.1 t = finiteAt leg.2 t := by
  rw [quoteAt, read.series leg mem]
  rfl

theorem bothCloses_some {t : Int} {leg : Leg} {c : ℚ × ℚ} :
    bothCloses t leg = some c ↔ finiteAt leg.2 (t - h4) = some c.1 ∧ finiteAt leg.2 t = some c.2 := by
  obtain ⟨entry, exit⟩ := c
  unfold bothCloses
  cases finiteAt leg.2 (t - h4) <;> cases finiteAt leg.2 t <;> simp

theorem Read.quoted (read : Read store assets legs) (t : Int) :
    (legs.mapM (bothCloses t)).isSome ↔ Quoted store assets t := by
  rw [mapM_isSome]
  unfold Quoted
  rw [← read.assets]
  constructor
  · intro both a mem
    obtain ⟨leg, leg_mem, rfl⟩ := List.mem_map.mp mem
    obtain ⟨c, found⟩ := Option.isSome_iff_exists.mp (both leg leg_mem)
    obtain ⟨entry, exit⟩ := bothCloses_some.mp found
    rw [read.quote leg_mem, read.quote leg_mem, entry, exit]
    exact ⟨rfl, rfl⟩
  · intro quoted leg mem
    obtain ⟨entry, exit⟩ := quoted leg.1 (List.mem_map_of_mem mem)
    rw [read.quote mem] at entry exit
    obtain ⟨x, at_entry⟩ := Option.isSome_iff_exists.mp entry
    obtain ⟨y, at_exit⟩ := Option.isSome_iff_exists.mp exit
    exact Option.isSome_iff_exists.mpr ⟨(x, y), bothCloses_some.mpr ⟨at_entry, at_exit⟩⟩

theorem Read.reason_none (read : Read store assets legs) (c : CycleRecord × CycleRecord) :
    reason legs now c = none ↔ time c.2 ≤ now ∧ Quoted store assets (time c.1) := by
  unfold reason
  rw [← read.quoted]
  by_cases late : now < time c.2
  · simp [late]
  · rw [if_neg late]
    have in_time : time c.2 ≤ now := not_lt.mp late
    cases legs.mapM (bothCloses (time c.1)) <;> simp [in_time]

theorem Read.reason_store (read : Read store assets legs) (c : CycleRecord × CycleRecord) :
    reason legs now c = some .store ↔ time c.2 ≤ now ∧ ¬ Quoted store assets (time c.1) := by
  unfold reason
  rw [← read.quoted]
  by_cases late : now < time c.2
  · simp [late]
  · rw [if_neg late]
    have in_time : time c.2 ≤ now := not_lt.mp late
    cases legs.mapM (bothCloses (time c.1)) <;> simp [in_time]

theorem reason_clock (c : CycleRecord × CycleRecord) : reason legs now c = some .clock ↔ now < time c.2 := by
  unfold reason
  by_cases late : now < time c.2
  · simp [late]
  · rw [if_neg late]
    cases legs.mapM (bothCloses (time c.1)) <;> simp [late]

/-- The gross of a scored cycle, told of the store. -/
theorem Read.gross (read : Read store assets legs) (prev : List (String × ℚ)) (scored : List CycleRecord)
    (all : ∀ r ∈ scored, Quoted store assets (time r)) :
    (barsFrom legs fee prev scored).map Bar.gross = scored.map (earned store assets) := by
  induction scored generalizing prev with
  | nil => rfl
  | cons r rest ih =>
    simp only [barsFrom, List.map_cons]
    rw [ih _ fun r' mem => all r' (List.mem_cons_of_mem _ mem)]
    congr 1
    obtain ⟨closes, found⟩ := Option.isSome_iff_exists.mp ((read.quoted (time r)).mpr (all r List.mem_cons_self))
    rw [found]
    unfold earned weightsOf
    rw [← read.assets]
    have each : ∀ leg ∈ legs, ∀ t, quoteAt store leg.1 t = finiteAt leg.2 t := fun leg mem t => read.quote mem t
    have pairs := mapM_forall found
    clear found read
    dsimp only [barOf, Option.getD_some, returnsOf]
    clear ih all
    induction pairs with
    | nil => rfl
    | cons one _ more =>
      rename_i leg c legs closes _
      obtain ⟨entry, exit⟩ := bothCloses_some.mp one
      simp only [List.map_cons, List.zipWith_cons_cons, List.sum_cons]
      rw [more fun leg mem => each leg (List.mem_cons_of_mem _ mem), each leg List.mem_cons_self,
        each leg List.mem_cons_self, entry, exit]
      rfl

end

end Soak
