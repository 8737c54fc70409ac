import Zcrypto.Engine.SoakRealized

/- What a soak check scores and what bounds its window, told of the records, the store and the clock. -/
namespace Soak
open Journal Stores Fallible
open Cycles (h4 readStoreSeries symbolKeyedTargets)

section
variable {segment : List CycleRecord} {legs : List Leg} {fee : ℚ} {now : Int}

/-- The pairs of a segment that ascends: their first times are apart. -/
theorem pairs_apart (ascending : (segment.map time).Pairwise (· < ·)) :
    ((segment.zip segment.tail).map fun c => time c.1).Nodup := by
  have firsts : (segment.zip segment.tail).map (fun c => time c.1) = segment.dropLast.map time := by
    rw [← zip_tail_fst, List.map_map]
    rfl
  rw [firsts]
  have part : (segment.dropLast.map time).Sublist (segment.map time) := (List.dropLast_sublist segment).map time
  exact (ascending.sublist part).imp ne_of_lt

/-- Scored cycles are as the segment has them, without its last. -/
theorem scored_sublist (p : CycleRecord × CycleRecord → Bool) :
    (((segment.zip segment.tail).filter p).map Prod.fst).Sublist segment.dropLast := by
  rw [← zip_tail_fst]
  exact List.filter_sublist.map Prod.fst

theorem time_scored (ascending : (segment.map time).Pairwise (· < ·)) (p : CycleRecord × CycleRecord → Bool)
    {c : CycleRecord × CycleRecord} (mem : c ∈ segment.zip segment.tail) :
    time c.1 ∈ (((segment.zip segment.tail).filter p).map Prod.fst).map time ↔ p c = true := by
  rw [List.map_map, List.mem_map]
  constructor
  · rintro ⟨c', scored, same⟩
    obtain ⟨mem', taken⟩ := List.mem_filter.mp scored
    rwa [← List.inj_on_of_nodup_map (pairs_apart ascending) mem' mem same]
  · intro taken
    exact ⟨c, List.mem_filter.mpr ⟨mem, taken⟩, rfl⟩

/-- Of an ascending list the last is the one to compare with. -/
theorem after_last {α : Type} {f : α → Int} {l : List α} (ascending : (l.map f).Pairwise (· < ·)) (t : Int) :
    (l.getLast?.all fun x => f x < t) = true ↔ ∀ u ∈ l.map f, u < t := by
  rcases List.eq_nil_or_concat l with rfl | ⟨front, last, rfl⟩
  · simp
  · rw [List.concat_eq_append] at ascending ⊢
    rw [List.getLast?_concat, Option.all_some, decide_eq_true_eq]
    constructor
    · intro before u mem
      rw [List.map_append, List.map_singleton] at ascending mem
      rcases List.mem_append.mp mem with earlier | at_end
      · have := (List.pairwise_append.mp ascending).2.2 u earlier (f last) (List.mem_singleton_self _)
        omega
      · rw [List.mem_singleton.mp at_end]
        exact before
    · intro all
      exact all (f last) (by simp)

/-- The skips by the time of the cycle that was skipped. -/
theorem skipped_lookup (ascending : (segment.map time).Pairwise (· < ·)) {c : CycleRecord × CycleRecord}
    (mem : c ∈ segment.zip segment.tail) (why : Skip) :
    ((segment.zip segment.tail).filterMap fun c => (reason legs now c).map fun why => (time c.1, why)).lookup
      (time c.1) = some why ↔ reason legs now c = some why := by
  have apart := pairs_apart ascending
  have keys : (((segment.zip segment.tail).filterMap fun c =>
      (reason legs now c).map fun why => (time c.1, why)).map Prod.fst).Sublist
      ((segment.zip segment.tail).map fun c => time c.1) := by
    generalize segment.zip segment.tail = pairs
    induction pairs with
    | nil => exact .slnil
    | cons c rest ih =>
      rw [List.filterMap_cons, List.map_cons]
      cases reason legs now c with
      | none => exact ih.cons _
      | some why => exact ih.cons_cons _
  rw [Keyed.lookup_iff (apart.sublist keys), List.mem_filterMap]
  constructor
  · rintro ⟨c', mem', given⟩
    obtain ⟨why', found, same⟩ := Option.map_eq_some_iff.mp given
    obtain ⟨at_c, rfl⟩ := Prod.mk.inj same
    rwa [← List.inj_on_of_nodup_map apart mem' mem at_c]
  · intro found
    exact ⟨c, mem, by rw [found]; rfl⟩

/-- What bounded the window, told of the cycles after the last scored one. -/
theorem boundOf_spec (ascending : (segment.map time).Pairwise (· < ·)) {bars : List Bar} {skipped : List (Int × Skip)}
    (times : (bars.map Bar.ts).Pairwise (· < ·))
    (skips : skipped = (segment.zip segment.tail).filterMap fun c =>
      (reason legs now c).map fun why => (time c.1, why)) :
    (boundOf (trailing segment bars) skipped = .store ↔ ∃ c ∈ segment.zip segment.tail,
      (∀ t ∈ bars.map Bar.ts, t < time c.1) ∧ reason legs now c = some .store) ∧
    (boundOf (trailing segment bars) skipped = .clock ↔ (∃ c ∈ segment.zip segment.tail,
      (∀ t ∈ bars.map Bar.ts, t < time c.1) ∧ reason legs now c = some .clock) ∧
      ¬ ∃ c ∈ segment.zip segment.tail, (∀ t ∈ bars.map Bar.ts, t < time c.1) ∧ reason legs now c = some .store) := by
  have has : ∀ why, (∃ t ∈ trailing segment bars, skipped.lookup t = some why) ↔ ∃ c ∈ segment.zip segment.tail,
      (∀ t ∈ bars.map Bar.ts, t < time c.1) ∧ reason legs now c = some why := by
    intro why
    unfold trailing
    rw [← zip_tail_fst, skips]
    constructor
    · rintro ⟨t, mem, found⟩
      obtain ⟨there, after⟩ := List.mem_filter.mp mem
      rw [List.map_map] at there
      obtain ⟨c, c_mem, rfl⟩ := List.mem_map.mp there
      exact ⟨c, c_mem, (after_last times _).mp after, (skipped_lookup ascending c_mem why).mp found⟩
    · rintro ⟨c, c_mem, after, found⟩
      refine ⟨time c.1, List.mem_filter.mpr ⟨?_, (after_last times _).mpr after⟩,
        (skipped_lookup ascending c_mem why).mpr found⟩
      exact List.mem_map_of_mem (List.mem_map_of_mem c_mem)
  rw [← has, ← has]
  unfold boundOf
  have counted : (trailing segment bars).countP (fun t => skipped.lookup t = some .store) ≠ 0 ↔
      ∃ t ∈ trailing segment bars, skipped.lookup t = some .store := by
    rw [← Nat.pos_iff_ne_zero, List.countP_pos_iff]
    simp
  by_cases store : ∃ t ∈ trailing segment bars, skipped.lookup t = some .store
  · rw [if_pos (counted.mpr store)]
    simp [store]
  · rw [if_neg fun count => store (counted.mp count)]
    by_cases clock : ∃ t ∈ trailing segment bars, skipped.lookup t = some .clock
    · have some_clock : (trailing segment bars).any (fun t => skipped.lookup t = some .clock) = true := by
        simpa using clock
      rw [if_pos some_clock]
      simp [store, clock]
    · have no_clock : ¬ (trailing segment bars).any (fun t => skipped.lookup t = some .clock) = true := by
        simpa using clock
      rw [if_neg no_clock]
      simp [store, clock]

end

/-- What lies behind a series that was returned. -/
structure Behind (segment : List CycleRecord) (store : Stores.Leg → File) (fee : ℚ) (now : Int) (legs : List Leg)
    (p : Pass) (series : RealizedSeries) : Prop where
  nonempty : segment ≠ []
  assetSet : series.assets = assetsOf segment
  assets : ∀ r ∈ segment, checkAssets series.assets r = .ok ()
  read : Read store series.assets legs
  onGrid : ∀ leg ∈ legs, checkGrid leg = .ok ()
  pass : (segment.zip segment.tail).foldlM (score legs fee now) { prev := series.assets.map fun a => (a, 0) } = .ok p
  cycleTs : series.cycleTs = p.bars.map Bar.ts
  weights : series.weights = p.bars.map Bar.weights
  gross : series.gross = p.bars.map Bar.gross
  turnover : series.turnover = p.bars.map Bar.turnover
  net : series.net = p.bars.map Bar.net
  droppedTail : series.droppedTail = segment.length - p.bars.length
  windowBound : series.windowBound = boundOf (trailing segment p.bars) p.skipped

section
variable {records : List CycleRecord} {store : Stores.Leg → File} {fee : ℚ} {now : Int} {floor : Option Int}
  {series : RealizedSeries}

theorem realizedSeries_behind (done : realizedSeries records store fee now floor = .ok series) :
    ∃ legs p, Behind (selectCleanSegment records floor) store fee now legs p series := by
  unfold realizedSeries at done
  simp only at done
  split at done
  · cases done
  · rename_i some
    obtain ⟨checked, done⟩ := then_ok.mp done
    obtain ⟨legs, read, done⟩ := bind_ok.mp done
    obtain ⟨grid, done⟩ := then_ok.mp done
    obtain ⟨p, pass, done⟩ := bind_ok.mp done
    injection done with done
    subst done
    exact ⟨legs, p, some, rfl, forM_ok.mp checked, read_of read, forM_ok.mp grid, pass, rfl, rfl, rfl, rfl, rfl, rfl, rfl⟩

theorem Behind.realizes {segment : List CycleRecord} {legs : List Leg} {p : Pass}
    (behind : Behind segment store fee now legs p series) (ascending : (segment.map time).Pairwise (· < ·)) :
    Realizes segment store fee now series := by
  have read := behind.read
  obtain ⟨bars, skipped⟩ := score_run behind.pass
  rw [List.nil_append] at bars skipped
  have times : series.cycleTs =
      (((segment.zip segment.tail).filter fun c => reason legs now c = none).map Prod.fst).map time := by
    rw [behind.cycleTs, bars, barsFrom_ts]
  have part := @scored_sublist segment fun c => decide (reason legs now c = none)
  have quoted : ∀ r ∈ ((segment.zip segment.tail).filter fun c => reason legs now c = none).map Prod.fst,
      Quoted store series.assets (time r) := by
    intro r mem
    obtain ⟨c, c_mem, rfl⟩ := List.mem_map.mp mem
    have scored := (List.mem_filter.mp c_mem).2
    exact ((read.reason_none c).mp (by simpa using scored)).2
  have up : (p.bars.map Bar.ts).Pairwise (· < ·) := by
    rw [← behind.cycleTs, times]
    exact ascending.sublist ((part.trans (List.dropLast_sublist segment)).map time)
  have bound := boundOf_spec ascending up skipped
  rw [← behind.windowBound, ← behind.cycleTs] at bound
  have store_bound : series.windowBound = .store ↔ ∃ c ∈ segment.zip segment.tail, After series c ∧ time c.2 ≤ now ∧
      ¬ Quoted store series.assets (time c.1) := by
    rw [bound.1]
    simp only [read.reason_store, After]
  have clock_bound : series.windowBound = .clock ↔
      (∃ c ∈ segment.zip segment.tail, After series c ∧ now < time c.2) ∧
        ∀ c ∈ segment.zip segment.tail, After series c → time c.2 ≤ now → Quoted store series.assets (time c.1) := by
    rw [bound.2]
    simp only [read.reason_store, reason_clock, not_exists, not_and, not_not, After]
  have exactly : ∀ c ∈ segment.zip segment.tail,
      time c.1 ∈ series.cycleTs ↔ time c.2 ≤ now ∧ Quoted store series.assets (time c.1) := by
    intro c mem
    rw [times, time_scored ascending _ mem, decide_eq_true_eq, read.reason_none]
  have lengths : p.bars.length =
      ((((segment.zip segment.tail).filter fun c => reason legs now c = none).map Prod.fst)).length := by
    rw [bars, ← List.length_map Bar.ts, barsFrom_ts, List.length_map]
  constructor
  · refine ⟨_, part, times, ?_, ?_⟩
    · rw [behind.weights, bars, barsFrom_weights, read.assets]
    · rw [behind.gross, bars]
      exact read.gross _ _ quoted
  · exact exactly
  · intro r last scored
    obtain ⟨front, whole⟩ := List.getLast?_eq_some_iff.mp last
    rw [times] at scored
    obtain ⟨r', mem, same⟩ := List.mem_map.mp scored
    have earlier := part.mem mem
    rw [whole, List.dropLast_concat] at earlier
    rw [whole, List.map_append] at ascending
    have := (List.pairwise_append.mp ascending).2.2 _ (List.mem_map_of_mem earlier) (time r) (by simp)
    omega
  · rw [behind.droppedTail, behind.cycleTs, List.length_map]
    omega
  · rw [behind.turnover, behind.weights, bars, barsFrom_turnover]
  · rw [behind.net, behind.gross, behind.turnover, bars]
    have each := @barsFrom_net legs fee (series.assets.map fun a => (a, 0))
      (((segment.zip segment.tail).filter fun c => reason legs now c = none).map Prod.fst)
    revert each
    generalize barsFrom legs fee _ _ = bars
    intro each
    induction bars with
    | nil => rfl
    | cons bar rest ih =>
      rw [List.map_cons, List.map_cons, List.map_cons, List.zipWith_cons_cons, each bar List.mem_cons_self,
        ih fun bar mem => each bar (List.mem_cons_of_mem _ mem)]
  · exact store_bound
  · exact clock_bound
  · have not_after_scored : ∀ c ∈ segment.zip segment.tail, After series c →
        ¬ (time c.2 ≤ now ∧ Quoted store series.assets (time c.1)) := by
      intro c mem after scored
      exact lt_irrefl _ (after _ ((exactly c mem).mpr scored))
    constructor
    · intro journal c mem after
      have unscored := not_after_scored c mem after
      by_cases late : now < time c.2
      · have no_clock : ¬ (series.windowBound = .clock) := by rw [journal]; decide
        have no_store : ¬ (series.windowBound = .store) := by rw [journal]; decide
        apply no_clock
        refine clock_bound.mpr ⟨⟨c, mem, after, late⟩, ?_⟩
        intro c' mem' after' in_time
        by_contra absent
        exact no_store (store_bound.mpr ⟨c', mem', after', in_time, absent⟩)
      · have in_time : time c.2 ≤ now := not_lt.mp late
        have absent : ¬ Quoted store series.assets (time c.1) := fun quoted => unscored ⟨in_time, quoted⟩
        have bound_store := store_bound.mpr ⟨c, mem, after, in_time, absent⟩
        rw [journal] at bound_store
        cases bound_store
    · intro none
      cases which : series.windowBound with
      | store =>
        obtain ⟨c, mem, after, _⟩ := store_bound.mp which
        exact absurd after (none c mem)
      | clock =>
        obtain ⟨⟨c, mem, after, _⟩, _⟩ := clock_bound.mp which
        exact absurd after (none c mem)
      | journal => rfl

/-- When a series is returned: the segment, its records and the store pass their checks, and no entry close of a scored
    cycle is zero. -/
structure Fit (segment : List CycleRecord) (store : Stores.Leg → File) (now : Int) : Prop where
  nonempty : segment ≠ []
  assets : ∀ r ∈ segment, checkAssets (assetsOf segment) r = .ok ()
  readable : ∀ a ∈ assetsOf segment, ∃ s, readStoreSeries (store (a, 240)) = .ok s ∧ ∀ t ∈ s.ts, onGrid t
  snapped : ∀ c ∈ segment.zip segment.tail, Snapped c
  entries : ∀ c ∈ segment.zip segment.tail, time c.2 ≤ now → Quoted store (assetsOf segment) (time c.1) →
    ∀ a ∈ assetsOf segment, quoteAt store a (time c.1 - h4) ≠ some 0

/-- Each step of a pass that succeeds has succeeded from some state. -/
theorem foldlM_each {ε σ α : Type} {f : σ → α → Except ε σ} {xs : List α} {s s' : σ} (done : xs.foldlM f s = .ok s')
    {x : α} (mem : x ∈ xs) : ∃ t t', f t x = .ok t' := by
  induction xs generalizing s with
  | nil => cases mem
  | cons y rest ih =>
    rw [List.foldlM_cons] at done
    obtain ⟨mid, one, more⟩ := bind_ok.mp done
    rcases List.mem_cons.mp mem with rfl | later
    · exact ⟨s, mid, one⟩
    · exact ih more later

theorem checkGrid_ok {leg : Leg} : checkGrid leg = .ok () ↔ ∀ t ∈ leg.2.ts, onGrid t := by
  unfold checkGrid
  simp only
  split
  · rename_i off
    simp only [reduceCtorEq, false_iff]
    intro all
    apply off
    rw [List.filter_eq_nil_iff]
    intro t mem
    simp [all t mem]
  · rename_i on
    simp only [true_iff]
    intro t mem
    have := List.filter_eq_nil_iff.mp (not_not.mp on) t mem
    simpa using this

/-- A cycle's closes as its legs have them are those of the store. -/
theorem Read.entries {legs : List Leg} {assets : List String} (read : Read store assets legs) {t : Int}
    {closes : List (ℚ × ℚ)} (both : legs.mapM (bothCloses t) = some closes) :
    (∀ c ∈ closes, c.1 ≠ 0) ↔ ∀ a ∈ assets, quoteAt store a (t - h4) ≠ some 0 := by
  have pairs := mapM_forall both
  rw [← read.assets]
  constructor
  · intro entries a mem zero
    obtain ⟨leg, leg_mem, rfl⟩ := List.mem_map.mp mem
    obtain ⟨c, c_mem, one⟩ := partner pairs leg_mem
    rw [read.quote leg_mem, (bothCloses_some.mp one).1] at zero
    exact entries c c_mem (Option.some.inj zero)
  · intro quotes c mem zero
    obtain ⟨leg, leg_mem, one⟩ := partner_of pairs mem
    apply quotes leg.1 (List.mem_map_of_mem leg_mem)
    rw [read.quote leg_mem, (bothCloses_some.mp one).1, zero]

theorem score_returns {legs : List Leg} {assets : List String} (read : Read store assets legs) {p : Pass}
    {cycle : CycleRecord × CycleRecord} (snapped : Snapped cycle)
    (entries : time cycle.2 ≤ now → Quoted store assets (time cycle.1) →
      ∀ a ∈ assets, quoteAt store a (time cycle.1 - h4) ≠ some 0) : ∃ p', score legs fee now p cycle = .ok p' := by
  obtain ⟨⟨own, at_own, own_ends⟩, next, at_next, next_ends⟩ := snapped
  unfold score
  rw [at_own, at_next]
  simp only [bind, Except.bind]
  rw [if_neg (not_not.mpr own_ends), if_neg (not_not.mpr next_ends)]
  by_cases late : now < time cycle.2
  · rw [if_pos late]
    exact ⟨_, rfl⟩
  · rw [if_neg late]
    cases both : legs.mapM (bothCloses (time cycle.1)) with
    | none => exact ⟨_, rfl⟩
    | some closes =>
      have quoted := (read.quoted (time cycle.1)).mp (by rw [both]; rfl)
      have nonzero := (read.entries both).mpr (entries (not_lt.mp late) quoted)
      have none_zero : ¬ (closes.any fun c => c.1 = 0) = true := by
        simp only [List.any_eq_true, decide_eq_true_eq, not_exists, not_and]
        exact nonzero
      dsimp only
      rw [if_neg none_zero]
      exact ⟨_, rfl⟩

theorem score_run_returns {legs : List Leg} {assets : List String} (read : Read store assets legs) {p : Pass}
    {cycles : List (CycleRecord × CycleRecord)} (snapped : ∀ c ∈ cycles, Snapped c)
    (entries : ∀ c ∈ cycles, time c.2 ≤ now → Quoted store assets (time c.1) →
      ∀ a ∈ assets, quoteAt store a (time c.1 - h4) ≠ some 0) :
    ∃ p', cycles.foldlM (score legs fee now) p = .ok p' := by
  induction cycles generalizing p with
  | nil => exact ⟨p, rfl⟩
  | cons c rest ih =>
    obtain ⟨mid, one⟩ := score_returns (p := p) read (snapped c List.mem_cons_self)
      (entries c List.mem_cons_self)
    obtain ⟨p', more⟩ := ih (p := mid) (fun c mem => snapped c (List.mem_cons_of_mem _ mem))
      fun c mem => entries c (List.mem_cons_of_mem _ mem)
    refine ⟨p', ?_⟩
    rw [List.foldlM_cons]
    exact bind_ok.mpr ⟨mid, one, more⟩

theorem read_returns {assets : List String} (readable : ∀ a ∈ assets, ∃ s, readStoreSeries (store (a, 240)) = .ok s) :
    ∃ legs, assets.mapM (readLeg store) = .ok legs := by
  induction assets with
  | nil => exact ⟨[], rfl⟩
  | cons a rest ih =>
    obtain ⟨s, first⟩ := readable a List.mem_cons_self
    obtain ⟨legs, others⟩ := ih fun a mem => readable a (List.mem_cons_of_mem _ mem)
    refine ⟨(a, s) :: legs, mapM_ok.mpr (.cons ?_ (mapM_ok.mp others))⟩
    exact readLeg_ok.mpr ⟨rfl, first⟩

theorem Behind.fit {segment : List CycleRecord} {legs : List Leg} {p : Pass}
    (behind : Behind segment store fee now legs p series) : Fit segment store now where
  nonempty := behind.nonempty
  assets := behind.assetSet ▸ behind.assets
  readable := by
    rw [← behind.assetSet, ← behind.read.assets]
    intro a mem
    obtain ⟨leg, leg_mem, rfl⟩ := List.mem_map.mp mem
    exact ⟨leg.2, behind.read.series leg leg_mem, checkGrid_ok.mp (behind.onGrid leg leg_mem)⟩
  snapped := by
    intro c mem
    obtain ⟨q, q', one⟩ := foldlM_each behind.pass mem
    exact (score_ok one).1
  entries := by
    rw [← behind.assetSet]
    intro c mem in_time quoted
    obtain ⟨q, q', one⟩ := foldlM_each behind.pass mem
    cases (score_ok one).2 with
    | skips why dropped skips =>
      rw [(behind.read.reason_none c).mpr ⟨in_time, quoted⟩] at skips
      cases skips
    | scores closes implausible scores both entries => exact (behind.read.entries both).mp entries

theorem Fit.returns (fit : Fit (selectCleanSegment records floor) store now) :
    ∃ series, realizedSeries records store fee now floor = .ok series := by
  obtain ⟨nonempty, assets, readable, snapped, entries⟩ := fit
  obtain ⟨legs, read⟩ := read_returns fun a mem => (readable a mem).imp fun s both => both.1
  have told := read_of read
  obtain ⟨p, pass⟩ := score_run_returns
    (p := { prev := (assetsOf (selectCleanSegment records floor)).map fun a => (a, 0) }) told snapped entries
  have grid : legs.forM checkGrid = .ok () := by
    apply forM_ok.mpr
    intro leg mem
    obtain ⟨s, there, on⟩ := readable leg.1 (told.assets ▸ List.mem_map_of_mem mem)
    rw [told.series leg mem] at there
    obtain rfl := Except.ok.inj there
    exact checkGrid_ok.mpr on
  unfold realizedSeries
  simp only
  rw [if_neg nonempty]
  exact ⟨_, then_ok.mpr ⟨forM_ok.mpr assets, bind_ok.mpr ⟨legs, read, then_ok.mpr ⟨grid,
    bind_ok.mpr ⟨p, pass, rfl⟩⟩⟩⟩⟩

end

/-- The segment and the window over it: for records of distinct times in any order, and for every store and clock. -/
theorem soak_window (records : List CycleRecord) (distinct : (records.map time).Nodup) (floor : Option Int) :
    (selectCleanSegment records floor = [] ↔ ∀ r ∈ records, onGrid (time r) = false) ∧
    (selectCleanSegment records floor ≠ [] → CleanSegment records floor (selectCleanSegment records floor)) ∧
    ∀ store fee now,
      ((∃ series, realizedSeries records store fee now floor = .ok series) ↔
        Fit (selectCleanSegment records floor) store now) ∧
      ∀ series, realizedSeries records store fee now floor = .ok series →
        Realizes (selectCleanSegment records floor) store fee now series := by
  refine ⟨selectCleanSegment_empty, selectCleanSegment_clean distinct, ?_⟩
  intro store fee now
  refine ⟨⟨?_, Fit.returns⟩, ?_⟩
  · rintro ⟨series, done⟩
    obtain ⟨legs, p, behind⟩ := realizedSeries_behind done
    exact behind.fit
  · intro series done
    obtain ⟨legs, p, behind⟩ := realizedSeries_behind done
    apply behind.realizes
    obtain ⟨start, len, _, window⟩ := (selectCleanSegment_clean distinct behind.nonempty).window
    rw [window]
    have part : (((orderedByTime records).drop start).take len).Sublist (orderedByTime records) :=
      (List.take_sublist _ _).trans (List.drop_sublist _ _)
    exact (orderedByTime_ascending distinct).sublist (part.map time)

/-- A record of a cycle whose four-hour snapshot ends where it should. -/
def cycleAt (t : Int) : CycleRecord where
  schemaVersion := .int 2
  cycleTs := ⟨t, some 0⟩
  snapshots := [⟨.text "A/EUR", .text "240", .int 1, ⟨t - h4, some 0⟩, ⟨t - h4, some 0⟩, .text "", .text "p240"⟩]
  finalTargets := .ofList [("A/EUR", .num (1 / 2))]
  startedAt := ⟨t, some 0⟩
  completedAt := ⟨t, some 0⟩
  codeVersion := .text ""
  builderPath := .text "fast"
  closes := none
  nav := none
  held := none

/-- Closes at the boundaries from the one before the epoch on, one of them zero. -/
def fiveCloses : Stores.Leg → File := fun _ => .frame ⟨frameSchema,
  [100, 110, 99, 99, 0].zipIdx.map fun (close, i) =>
    ⟨some ((i - 1) * h4), none, none, none, some (.finite close), none, none, none⟩⟩

/-- Three cycles out of order: two are scored, the last is not, and the journal is what ends the window. -/
theorem soak_window_three :
    CleanSegment [cycleAt (2 * h4), cycleAt 0, cycleAt h4] none [cycleAt 0, cycleAt h4, cycleAt (2 * h4)] ∧
    ∃ series, realizedSeries [cycleAt (2 * h4), cycleAt 0, cycleAt h4] fiveCloses (6 / 1000) (3 * h4) none = .ok series ∧
      Realizes [cycleAt 0, cycleAt h4, cycleAt (2 * h4)] fiveCloses (6 / 1000) (3 * h4) series := by
  have segment : selectCleanSegment [cycleAt (2 * h4), cycleAt 0, cycleAt h4] none =
      [cycleAt 0, cycleAt h4, cycleAt (2 * h4)] := by decide +kernel
  obtain ⟨_, clean, each⟩ := soak_window [cycleAt (2 * h4), cycleAt 0, cycleAt h4] (by decide +kernel) none
  obtain ⟨series, done⟩ := ok_of_toBool (x := realizedSeries [cycleAt (2 * h4), cycleAt 0, cycleAt h4] fiveCloses
    (6 / 1000) (3 * h4) none) (by decide +kernel)
  have realizes := (each fiveCloses (6 / 1000) (3 * h4)).2 series done
  have clean := clean (by rw [segment]; simp)
  rw [segment] at clean realizes
  exact ⟨clean, series, done, realizes⟩

/-- A record off the grid between two boundaries: the one run is cut short of the boundary that is there. -/
theorem off_grid_cuts :
    ([cycleAt 0, cycleAt (h4 / 2), cycleAt h4].map time).Nodup ∧
      selectCleanSegment [cycleAt 0, cycleAt (h4 / 2), cycleAt h4] none = [cycleAt 0] ∧
      onGrid (time (cycleAt h4)) ∧ time (cycleAt h4) = time (cycleAt 0) + h4 := by
  decide +kernel

end Soak
