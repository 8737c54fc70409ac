import Zcrypto.Engine.Cycle
import Zcrypto.Engine.StoreLaws
import Zcrypto.TextFile

/- A journaled cycle replays to its own targets: what the refresh leaves of a store, what alignment
   keeps of a series, what is read back of a snapshot, and the replay put together from them. -/
namespace Cycles
open Journal Stores Replays Fallible Keyed

/- The store a refresh leaves. -/

/-- A file whose stamps are all there and all different. -/
def StampedFile (file : File) : Prop := ∃ f, file = .frame f ∧ Stamped f.rows

theorem Seam.stamped {s r : List Bar} {x : Reconciled} (seam : Seam s r x fun _ => false)
    (old : Stamped s) (new : Stamped r) : Stamped x.merged := by
  rw [seam.merged]
  constructor
  · intro b mem
    rcases mem_overlay_none.mp mem with before | ⟨added, _⟩
    · exact old.present b before
    · exact new.present b added
  · apply Ascending.distinct
    apply ascending_overlay old.distinct new.distinct
    intro k took
    cases took

theorem refreshLeg_stamped {w : World} {now : Int} {leg : Leg} {file left : File}
    {entry : RefreshEntry} (ok : refreshLeg w now leg file = (left, .ok entry)) :
    StampedFile left := by
  rcases refreshLeg_cases w now leg file with
    ⟨e, refusal⟩ | ⟨_, torn⟩ | ⟨_, f, r, x, g, through, _, stamped, answered, seam, came⟩
  · rw [refusal] at ok
    cases ok
  · rw [torn] at ok
    cases ok
  · rw [through] at ok
    injection ok with same
    refine ⟨g, same.symm, ?_⟩
    have merged := Seam.stamped seam stamped (finished_ok answered).toStamped
    rcases came with rows | ⟨still, _⟩
    · rw [rows]
      exact merged
    · rw [still]
      exact stamped

theorem mem_legs {pairs : List String} {leg : Leg} :
    leg ∈ legs pairs ↔ leg.1 ∈ pairs ∧ leg.2 ∈ gridIntervals := by
  unfold legs
  simp only [List.mem_flatMap, List.mem_map]
  constructor
  · rintro ⟨pair, there, interval, grid, same⟩
    subst same
    exact ⟨there, grid⟩
  · rintro ⟨there, grid⟩
    exact ⟨leg.1, there, leg.2, grid, rfl⟩

section
variable {w : World} {now : Int} {pairs : List String} {store : Store} {leg : Leg}

theorem refreshStore_ran (w : World) (now : Int) (nodup : pairs.Nodup) (store : Store) :
    ∃ through left, legs pairs = through ++ left ∧
      Ran (refreshLeg w now) store (refreshStore w now pairs store) through left :=
  overLegs_ran (legs_nodup pairs nodup) store

/-- A refresh leaves the legs it was not asked for alone. -/
theorem refreshStore_aside (nodup : pairs.Nodup) (outside : leg ∉ legs pairs) :
    (refreshStore w now pairs store).store leg = store leg := by
  obtain ⟨through, left, inOrder, ran⟩ := refreshStore_ran w now nodup store
  rw [inOrder, List.mem_append, not_or] at outside
  apply ran.aside leg outside.1
  intro first
  exact outside.2 (List.mem_of_mem_head? first)

/-- One that succeeds leaves each leg it was asked for stamped. -/
theorem refreshStore_stamped (nodup : pairs.Nodup) {entries : List RefreshEntry}
    (ok : (refreshStore w now pairs store).result = .ok entries) (inside : leg ∈ legs pairs) :
    StampedFile ((refreshStore w now pairs store).store leg) := by
  obtain ⟨through, left, inOrder, ran⟩ := refreshStore_ran w now nodup store
  have all : left = [] := by
    cases left with
    | nil => rfl
    | cons first rest =>
      obtain ⟨e, failed, _⟩ := ran.raised first rfl
      rw [ok] at failed
      cases failed
  rw [inOrder, all, List.append_nil] at inside
  obtain ⟨entry, passed⟩ := ran.passed leg inside
  exact refreshLeg_stamped passed

end

theorem pendingOf_sublist {cycleTs : Int} {store : Store} {symbols pending : List String}
    (left : pendingOf cycleTs store symbols = .ok pending) : pending.Sublist symbols := by
  induction symbols generalizing pending with
  | nil =>
    injection left with same
    rw [← same]
  | cons symbol rest ih =>
    unfold pendingOf at left
    simp only [bind_ok] at left
    obtain ⟨waits, _, others, later, same⟩ := left
    injection same with same
    rw [← same]
    split
    · exact (ih later).cons_cons symbol
    · exact (ih later).cons symbol

/-- Every leg but those of the pending pairs is stamped. -/
def StampedBut (pending : List String) (store : Store) : Prop :=
  ∀ leg ∈ legs basket, leg.1 ∉ pending → StampedFile (store leg)

/-- The store a refresh settles on is stamped. -/
theorem refresh_settles {cycleTs : Int} {attempts : List Attempt} {pending : List String}
    {store settled : Store} (nodup : pending.Nodup) (stamped : StampedBut pending store)
    (done : refreshWithSettleVerify cycleTs attempts pending store = .settled settled) :
    ∀ leg ∈ legs basket, StampedFile (settled leg) := by
  induction attempts generalizing pending store with
  | nil => cases done
  | cons a rest ih =>
    unfold refreshWithSettleVerify at done
    simp only at done
    split at done
    · cases done
    · rename_i left pends
      have kept : ∀ leg ∈ legs basket, leg.1 ∉ pending →
          StampedFile ((refreshStore a.world a.now pending store).store leg) := by
        intro leg mem outside
        rw [refreshStore_aside nodup fun inside => outside (mem_legs.mp inside).1]
        exact stamped leg mem outside
      unfold pendingAfter at pends
      cases result : (refreshStore a.world a.now pending store).result with
      | error e =>
        have unsettled : isSettled left (refreshStore a.world a.now pending store) = false := by
          simp [isSettled, result, Except.isOk, Except.toBool]
        rw [unsettled, if_neg Bool.false_ne_true] at done
        rw [result] at pends
        simp only at pends
        split at pends
        · injection pends with same
          subst same
          split at done
          · cases done
          · exact ih nodup kept done
        · cases pends
      | ok entries =>
        rw [result] at pends
        have all : ∀ leg ∈ legs basket,
            StampedFile ((refreshStore a.world a.now pending store).store leg) := by
          intro leg mem
          by_cases inside : leg.1 ∈ pending
          · exact refreshStore_stamped nodup result (mem_legs.mpr ⟨inside, (mem_legs.mp mem).2⟩)
          · exact kept leg mem inside
        split at done
        · injection done with same
          rw [← same]
          exact all
        · split at done
          · cases done
          · have sublist := pendingOf_sublist pends
            exact ih (sublist.nodup basket_nodup) (fun leg mem _ => all leg mem) done

/- What alignment keeps. -/

section
variable {s a b : Series} {t : Int} {n : Stores.Num}

theorem closeAt_iff (distinct : s.ts.Nodup) : s.closeAt t = some n ↔ (t, some n) ∈ s.bars := by
  have keys : ((s.bars.reverse).map Prod.fst).Nodup := by
    rw [List.map_reverse, List.nodup_reverse]
    exact distinct.sublist (zip_keys_sublist s.ts s.closes)
  unfold Series.closeAt
  rw [Option.join_eq_some_iff, lookup_iff keys, List.mem_reverse]

theorem mem_priced : t ∈ s.priced ↔ ∃ n, (t, some n) ∈ s.bars := by
  unfold Series.priced
  simp only [List.mem_filterMap]
  constructor
  · rintro ⟨⟨stamp, close⟩, bar, there⟩
    cases close with
    | none => cases there
    | some n =>
      injection there with same
      exact ⟨n, same ▸ bar⟩
  · rintro ⟨n, bar⟩
    exact ⟨(t, some n), bar, rfl⟩

/-- Where the stamps differ, a stamp with a close is one at which a close is found. -/
theorem mem_priced_iff (distinct : s.ts.Nodup) : t ∈ s.priced ↔ (s.closeAt t).isSome := by
  rw [mem_priced, Option.isSome_iff_exists]
  simp only [closeAt_iff distinct]

/-- Series that answer alike at every stamp. -/
structure Agree (a b : Series) : Prop where
  aware : a.aware = b.aware
  priced : ∀ t, t ∈ a.priced ↔ t ∈ b.priced
  closeAt : ∀ t, a.closeAt t = b.closeAt t

theorem mem_sortedStamps {ts : List Int} : t ∈ sortedStamps ts ↔ t ∈ ts := by
  simp [sortedStamps]

theorem sortedStamps_nodup (ts : List Int) : (sortedStamps ts).Nodup := by
  unfold sortedStamps
  rw [(List.perm_insertionSort _ _).nodup_iff]
  exact List.nodup_dedup ts

theorem sortedStamps_same {left right : List Int} (same : ∀ t, t ∈ left ↔ t ∈ right) :
    sortedStamps left = sortedStamps right := by
  have perm : left.dedup.Perm right.dedup := by
    rw [List.perm_ext_iff_of_nodup (List.nodup_dedup left) (List.nodup_dedup right)]
    simpa using same
  unfold sortedStamps
  exact (((List.perm_insertionSort _ _).trans perm).trans
    (List.perm_insertionSort _ _).symm).eq_of_pairwise'
    (List.pairwise_insertionSort _ _) (List.pairwise_insertionSort _ _)

end

section
variable {raw : RawSeries} {symbol : String} {interval : Nat} {t : Int}

theorem mem_unionTs : t ∈ unionTs raw interval ↔
    ∃ symbol ∈ basket, t ∈ (raw (symbol, interval)).ts := by
  unfold unionTs
  rw [mem_sortedStamps, List.mem_flatMap]

theorem unionAlign_bars : (unionAlign raw interval symbol).bars =
    (unionTs raw interval).map fun t => (t, (raw (symbol, interval)).closeAt t) :=
  zip_map_right_self _ _

/-- A symbol of the basket answers aligned as it does in the store. -/
theorem unionAlign_closeAt (listed : symbol ∈ basket) (distinct : (raw (symbol, interval)).ts.Nodup) :
    (unionAlign raw interval symbol).closeAt t = (raw (symbol, interval)).closeAt t := by
  apply Option.ext
  intro n
  have unique : (unionAlign raw interval symbol).ts.Nodup := sortedStamps_nodup _
  rw [closeAt_iff unique, unionAlign_bars, List.mem_map]
  constructor
  · rintro ⟨stamp, _, same⟩
    injection same with stamps closes
    rw [← stamps, closes]
  · intro found
    have bar := (closeAt_iff distinct).mp found
    have stamp : t ∈ (raw (symbol, interval)).ts := (List.of_mem_zip bar).1
    exact ⟨t, mem_unionTs.mpr ⟨symbol, listed, stamp⟩, by rw [found]⟩

theorem unionAlign_agrees (listed : symbol ∈ basket) (aware : (raw (symbol, interval)).aware = true)
    (distinct : (raw (symbol, interval)).ts.Nodup) :
    Agree (raw (symbol, interval)) (unionAlign raw interval symbol) := by
  have unique : (unionAlign raw interval symbol).ts.Nodup := sortedStamps_nodup _
  have closeAt := fun t => (unionAlign_closeAt (t := t) listed distinct).symm
  refine ⟨aware, ?_, closeAt⟩
  intro t
  rw [mem_priced_iff distinct, mem_priced_iff unique, closeAt]

end

/- The selection. -/

theorem mapM_found {α β : Type} {f : α → Option β} {g : α → β} {xs : List α}
    (each : ∀ x ∈ xs, f x = some (g x)) : xs.mapM f = some (xs.map g) := by
  induction xs with
  | nil => rfl
  | cons x xs ih =>
    rw [List.mapM_cons, each x List.mem_cons_self,
      ih fun y mem => each y (List.mem_cons_of_mem _ mem)]
    rfl

theorem modelSymbols_listed {symbol : String} (model : symbol ∈ modelSymbols) : symbol ∈ basket :=
  (List.mem_filter.mp model).1

theorem lookup_map {f : String → Series} {symbol : String} {symbols : List String}
    (distinct : symbols.Nodup) (listed : symbol ∈ symbols) :
    (symbols.map fun symbol => (symbol, f symbol)).lookup symbol = some (f symbol) := by
  rw [lookup_iff, List.mem_map]
  · exact ⟨symbol, listed, rfl⟩
  · have same : Prod.fst ∘ (fun symbol => (symbol, f symbol)) = id := rfl
    rw [List.map_map, same, List.map_id]
    exact distinct

/-- The inputs the model takes of a series for each symbol. -/
def inputsOf (f : String → Series) : Inputs :=
  let ts := sortedStamps ((modelSymbols.map f).flatMap Series.priced)
  ⟨(modelSymbols.map f).any Series.aware, ts,
    (modelSymbols.zip (modelSymbols.map f)).map fun leg => (base leg.1, ts.map leg.2.closeAt)⟩

theorem selectModelInputs_basket (f : String → Series) :
    selectModelInputs (basket.map fun symbol => (symbol, f symbol)) = .ok (inputsOf f) := by
  have found : modelSymbols.mapM (fun symbol =>
      (basket.map fun symbol => (symbol, f symbol)).lookup symbol) = some (modelSymbols.map f) :=
    mapM_found fun symbol model => lookup_map basket_nodup (modelSymbols_listed model)
  unfold selectModelInputs
  rw [found]
  rfl

/-- The selection sees no more of the series than how they answer. -/
theorem inputsOf_agree {f g : String → Series}
    (agree : ∀ symbol ∈ modelSymbols, Agree (f symbol) (g symbol)) : inputsOf f = inputsOf g := by
  have stamps : sortedStamps ((modelSymbols.map f).flatMap Series.priced) =
      sortedStamps ((modelSymbols.map g).flatMap Series.priced) := by
    apply sortedStamps_same
    intro t
    simp only [List.mem_flatMap, List.mem_map]
    constructor
    · rintro ⟨_, ⟨symbol, model, rfl⟩, priced⟩
      exact ⟨_, ⟨symbol, model, rfl⟩, ((agree symbol model).priced t).mp priced⟩
    · rintro ⟨_, ⟨symbol, model, rfl⟩, priced⟩
      exact ⟨_, ⟨symbol, model, rfl⟩, ((agree symbol model).priced t).mpr priced⟩
  have aware : (modelSymbols.map f).any Series.aware = (modelSymbols.map g).any Series.aware := by
    rw [Bool.eq_iff_iff, List.any_eq_true, List.any_eq_true]
    simp only [List.mem_map]
    constructor
    · rintro ⟨_, ⟨symbol, model, rfl⟩, aware⟩
      exact ⟨_, ⟨symbol, model, rfl⟩, (agree symbol model).aware ▸ aware⟩
    · rintro ⟨_, ⟨symbol, model, rfl⟩, aware⟩
      exact ⟨_, ⟨symbol, model, rfl⟩, (agree symbol model).aware ▸ aware⟩
  have prices : ∀ ts : List Int,
      (modelSymbols.zip (modelSymbols.map f)).map (fun leg => (base leg.1, ts.map leg.2.closeAt)) =
        (modelSymbols.zip (modelSymbols.map g)).map
          fun leg => (base leg.1, ts.map leg.2.closeAt) := by
    intro ts
    rw [zip_map_right_self, zip_map_right_self, List.map_map, List.map_map]
    apply List.map_congr_left
    intro symbol model
    have same : (f symbol).closeAt = (g symbol).closeAt := funext (agree symbol model).closeAt
    simp only [Function.comp_apply, same]
  unfold inputsOf
  simp only
  rw [stamps, aware, prices]

def alignedOf (raw : RawSeries) (interval : Nat) : List (String × Series) :=
  basket.map fun symbol => (symbol, unionAlign raw interval symbol)

/-- Series read of a store, every leg's stamps different. -/
structure Plain (raw : RawSeries) : Prop where
  aware : ∀ leg ∈ legs basket, (raw leg).aware = true
  distinct : ∀ leg ∈ legs basket, (raw leg).ts.Nodup

/-- The selection is the same over the store's series and over the aligned ones. -/
theorem select_aligned {raw : RawSeries} (plain : Plain raw) {interval : Nat}
    (grid : interval ∈ gridIntervals) :
    selectModelInputs (rawOf raw interval) = selectModelInputs (alignedOf raw interval) := by
  have raws : selectModelInputs (rawOf raw interval) =
      .ok (inputsOf fun symbol => raw (symbol, interval)) := selectModelInputs_basket _
  have aligneds : selectModelInputs (alignedOf raw interval) =
      .ok (inputsOf fun symbol => unionAlign raw interval symbol) := selectModelInputs_basket _
  rw [raws, aligneds]
  congr 1
  apply inputsOf_agree
  intro symbol model
  have leg : (symbol, interval) ∈ legs basket := mem_legs.mpr ⟨modelSymbols_listed model, grid⟩
  exact unionAlign_agrees (modelSymbols_listed model) (plain.aware _ leg) (plain.distinct _ leg)

theorem readStoreSeries_stamped {file : File} (stamped : StampedFile file) :
    ∃ s, readStoreSeries file = .ok s ∧ s.aware = true ∧ s.ts.Nodup := by
  obtain ⟨f, is_frame, stamped⟩ := stamped
  subst is_frame
  have present : f.rows.all (fun b => b.ts.isSome) = true := List.all_eq_true.mpr stamped.present
  refine ⟨_, if_pos present, rfl, ?_⟩
  have apart := List.pairwise_map.mp stamped.distinct
  show (f.rows.filterMap Bar.ts).Nodup
  unfold List.Nodup
  rw [List.pairwise_filterMap]
  apply apart.imp
  intro a b differ t left u right same
  apply differ
  rw [stamp_eq, left, right, same]

theorem readAll_plain {store : Store} {raw : RawSeries}
    (stamped : ∀ leg ∈ legs basket, StampedFile (store leg)) (read : readAll store = .ok raw) :
    Plain raw := by
  unfold readAll at read
  rw [then_ok] at read
  obtain ⟨_, same⟩ := read
  injection same with same
  have each : ∀ leg ∈ legs basket, (raw leg).aware = true ∧ (raw leg).ts.Nodup := by
    intro leg mem
    obtain ⟨s, came, aware, distinct⟩ := readStoreSeries_stamped (stamped leg mem)
    rw [← same]
    unfold rawSeries
    rw [came]
    exact ⟨aware, distinct⟩
  exact ⟨fun leg mem => (each leg mem).1, fun leg mem => (each leg mem).2⟩

/- A snapshot read back. -/

section
variable {contentHash : Series → String} {cycleTs : Int} {raw : RawSeries} {files written : Files}
  {entries : List SnapshotEntry}

/-- What is journaled of a leg. -/
structure Journaled (contentHash : Series → String) (cycleTs : Int) (raw : RawSeries) (leg : Leg)
    (e : SnapshotEntry) : Prop where
  pair : e.pair = .text leg.1
  grid : e.grid = .text (toString leg.2)
  path : e.path = .text (snapshotPath cycleTs leg.1 leg.2)
  contentHash : e.contentHash = .text (contentHash (snapshotOf raw leg))
  nBars : e.nBars = .int (snapshotOf raw leg).ts.length
  first : (snapshotOf raw leg).stamps.head? = some e.firstTs.moment
  last : (snapshotOf raw leg).stamps.getLast? = some e.lastTs.moment

theorem snapshotEntry_journaled {leg : Leg} {e : SnapshotEntry}
    (made : snapshotEntry contentHash cycleTs leg.1 leg.2 (snapshotOf raw leg) = some e) :
    Journaled contentHash cycleTs raw leg e := by
  unfold snapshotEntry at made
  split at made
  · rename_i first last head tail
    injection made with same
    subst same
    exact ⟨rfl, rfl, rfl, rfl, rfl, by rw [head, Moment.moment_stamp],
      by rw [tail, Moment.moment_stamp]⟩
  · cases made

theorem mapM_some_pairs {α β : Type} {f : α → Option β} {xs : List α} {ys : List β}
    (made : xs.mapM f = some ys) : List.Forall₂ (fun x y => f x = some y) xs ys := by
  induction xs generalizing ys with
  | nil =>
    injection made with same
    rw [← same]
    exact .nil
  | cons x xs ih =>
    rw [List.mapM_cons] at made
    obtain ⟨y, first, rest⟩ := Option.bind_eq_some_iff.mp made
    obtain ⟨more, others, same⟩ := Option.bind_eq_some_iff.mp rest
    injection same with same
    rw [← same]
    exact .cons first (ih others)

theorem fileNames_nodup : (snapshotLegs.map fun leg => fileName leg.1 leg.2).Nodup := by
  decide +kernel

theorem snapshotPaths_nodup (cycleTs : Int) :
    (snapshotLegs.map fun leg => snapshotPath cycleTs leg.1 leg.2).Nodup := by
  have apart : Function.Injective (snapshotDir cycleTs ++ ·) :=
    fun _ _ same => (String.append_right_inj _).mp same
  have paths := fileNames_nodup.map apart
  rw [List.map_map] at paths
  exact paths

structure Snapshots (contentHash : Series → String) (cycleTs : Int) (raw : RawSeries)
    (entries : List SnapshotEntry) (written : Files) : Prop where
  entries : List.Forall₂ (Journaled contentHash cycleTs raw) snapshotLegs entries
  files : ∀ leg ∈ snapshotLegs,
    written (snapshotPath cycleTs leg.1 leg.2) = some (snapshotOf raw leg)

theorem journalSnapshots_ok
    (ok : journalSnapshots contentHash cycleTs raw files = .ok (entries, written)) :
    Snapshots contentHash cycleTs raw entries written := by
  unfold journalSnapshots at ok
  split at ok
  · cases ok
  · split at ok
    · cases ok
    · rename_i made
      injection ok with same
      injection same with entries_eq files_eq
      subst entries_eq
      refine ⟨(mapM_some_pairs made).imp fun _ _ => snapshotEntry_journaled, ?_⟩
      intro leg mem
      rw [← files_eq]
      apply foldl_update
      · rw [List.map_map]
        exact snapshotPaths_nodup cycleTs
      · exact List.mem_map_of_mem mem

variable (shots : Snapshots contentHash cycleTs raw entries written)

include shots

/-- Each snapshot reads back as the series it was written of. -/
theorem readSnapshot_back :
    entries.mapM (readSnapshot contentHash written) = .ok (snapshotLegs.map (snapshotOf raw)) := by
  rw [mapM_ok, List.forall₂_map_right_iff]
  apply List.Forall₂.flip
  have each : ∀ leg ∈ snapshotLegs, ∀ e, Journaled contentHash cycleTs raw leg e →
      readSnapshot contentHash written e = .ok (snapshotOf raw leg) := by
    intro leg mem e journaled
    have agrees : metadataAgrees e (snapshotOf raw leg) = true := by
      simp [metadataAgrees, journaled.nBars, journaled.first, journaled.last]
    unfold readSnapshot
    rw [journaled.path]
    simp only [Value.str]
    rw [shots.files leg mem]
    simp [journaled.contentHash, agrees]
  have pairs := shots.entries
  clear shots
  generalize snapshotLegs = ls at pairs each
  induction pairs with
  | nil => exact .nil
  | cons first rest ih =>
    exact .cons (each _ List.mem_cons_self _ first)
      (ih fun leg mem => each leg (List.mem_cons_of_mem _ mem))

/-- The series of one grid, as the replay gathers them. -/
theorem gridSeries_back {interval : Nat} :
    gridSeries (toString interval) (entries.zip (snapshotLegs.map (snapshotOf raw))) =
      (snapshotLegs.filter fun leg => leg.2 = interval).map
        fun leg => (leg.1, snapshotOf raw leg) := by
  have pairs := shots.entries
  clear shots
  generalize snapshotLegs = ls at pairs
  unfold gridSeries
  induction pairs with
  | nil => rfl
  | @cons leg e _ _ first rest ih =>
    have here : inGrid (toString interval) e = decide (leg.2 = interval) := by
      unfold inGrid
      rw [first.grid, decide_eq_decide]
      constructor
      · intro same
        injection same with same
        exact TextFile.toString_injective same
      · intro same
        rw [same]
    rw [List.map_cons, List.zip_cons_cons, List.filter_cons, List.filter_cons, here]
    by_cases grid : leg.2 = interval
    · rw [if_pos (decide_eq_true grid), if_pos (decide_eq_true grid), List.map_cons, List.map_cons,
        ih, first.pair]
      rfl
    · rw [if_neg (by simpa using grid), if_neg (by simpa using grid), ih]

omit shots in
theorem snapshotLegs_grid {interval : Nat} (grid : interval ∈ gridIntervals) :
    (snapshotLegs.filter fun leg => leg.2 = interval) =
      basket.map fun symbol => (symbol, interval) := by
  simp only [gridIntervals, List.mem_cons, List.not_mem_nil, or_false] at grid
  rcases grid with daily | quarter
  · subst daily
    decide
  · subst quarter
    decide

theorem gridSeries_aligned {interval : Nat} (grid : interval ∈ gridIntervals) :
    gridSeries (toString interval) (entries.zip (snapshotLegs.map (snapshotOf raw))) =
      alignedOf raw interval := by
  rw [gridSeries_back shots, snapshotLegs_grid grid, List.map_map]
  rfl

/-- A grid on its one calendar. -/
def alignedInputs (raw : RawSeries) (interval : Nat) : Inputs :=
  ⟨true, unionTs raw interval,
    basket.map fun symbol => (symbol, (unionAlign raw interval symbol).closes)⟩

omit shots in
theorem assemble_aligned (raw : RawSeries) (interval : Nat) :
    assemble (alignedOf raw interval) = .ok (alignedInputs raw interval) := by
  have calendars : ∀ symbols : List String, (symbols.map fun symbol =>
      (symbol, unionAlign raw interval symbol)).all (fun item =>
        decide (item.2.aware = true ∧ item.2.ts = unionTs raw interval)) = true := by
    intro symbols
    rw [List.all_map, List.all_eq_true]
    intro symbol _
    exact decide_eq_true ⟨rfl, rfl⟩
  exact if_pos (calendars _)

/-- The journaled four-hour snapshots end where an accepted record's boundary says. -/
theorem boundary_back {r : CycleRecord} (accepted : Accepted r) (snapshots : r.snapshots = entries) :
    (alignedInputs raw 240).stamps.getLast? = some (r.expectedLast "240").moment := by
  have journaled : ∀ e ∈ entries, inGrid "240" e = true →
      (alignedInputs raw 240).stamps.getLast? = some e.lastTs.moment := by
    intro e mem grid
    obtain ⟨leg, _, here⟩ := partner_of shots.entries mem
    have quarter : leg.2 = 240 := by
      simp only [inGrid, here.grid, decide_eq_true_eq, Value.text.injEq] at grid
      exact TextFile.toString_injective grid
    have last := here.last
    unfold snapshotOf at last
    rw [quarter] at last
    exact last
  have listed : (("ADA/EUR", 240) : Leg) ∈ snapshotLegs := by decide
  obtain ⟨e, mem, here⟩ := partner shots.entries listed
  have grid : inGrid "240" e = true := by
    unfold inGrid
    rw [here.grid]
    rfl
  have checked := accepted.boundary
  unfold checkBoundary at checked
  rw [forM_ok] at checked
  have quarter := checked e (snapshots ▸ mem)
  simp only [then_ok, need_ok] at quarter
  cases found : entryOf r.snapshots e.pair "240" with
  | none =>
    have absent := List.find?_eq_none.mp found e (List.mem_reverse.mpr (snapshots ▸ mem))
    simp [grid] at absent
  | some h4 =>
    have there : h4 ∈ entries := by
      rw [← snapshots]
      exact List.mem_reverse.mp (List.mem_of_find?_eq_some found)
    have same := List.find?_some found
    simp only [decide_eq_true_eq] at same
    rw [found] at quarter
    rw [journaled h4 there same.2]
    congr 1
    simpa using quarter.1

end

/- The cycle. -/

section
variable {contentHash : Series → String} {build : Builder} {x : Setting} {cycleTs : Stamp}
  {raw : RawSeries} {record : CycleRecord} {orders : List Order} {files : Files}

theorem amounts_nums (targets : Dict ℚ) : amounts (targets.map Value.num) = targets := by
  obtain ⟨items, distinct⟩ := targets
  unfold amounts Dict.map
  simp [Value.amount, Function.comp_def]

/-- A cycle over plain series journals a record that replays to its targets. -/
theorem cycleOver_replays (plain : Plain raw)
    (ran : cycleOver contentHash build x cycleTs raw = .ok (.success record orders files)) :
    validateRecord record = .ok () ∧
      replayCycle contentHash build files record = .ok (amounts record.finalTargets) := by
  unfold cycleOver at ran
  simp only [bind_ok] at ran
  obtain ⟨⟨entries, written⟩, shot, daily, selected_daily, quarter, selected_quarter, closes, _,
    model, was_built, targets, expanded, placed, _, ⟨⟩, validated, same⟩ := ran
  injection same with same
  injection same with record_eq orders_eq files_eq
  rw [record_eq] at validated
  have shots := journalSnapshots_ok shot
  have written_eq : written = files := files_eq
  rw [written_eq] at shots
  refine ⟨validated, ?_⟩
  have snapshots : record.snapshots = entries := by
    rw [← record_eq]
    rfl
  have schema : record.schemaVersion = .int 2 := by
    rw [← record_eq]
    rfl
  have final : amounts record.finalTargets = targets := by
    rw [← record_eq]
    exact amounts_nums targets
  have dailySeries : gridSeries "1440" (entries.zip (snapshotLegs.map (snapshotOf raw))) =
      alignedOf raw 1440 := by
    have daily_grid : 1440 ∈ gridIntervals := by decide
    exact gridSeries_aligned shots daily_grid
  have h4Series : gridSeries "240" (entries.zip (snapshotLegs.map (snapshotOf raw))) =
      alignedOf raw 240 := by
    have quarter_grid : 240 ∈ gridIntervals := by decide
    exact gridSeries_aligned shots quarter_grid
  unfold replayCycle
  simp only [bind_ok]
  refine ⟨(), validated, snapshotLegs.map (snapshotOf raw), ?_, alignedInputs raw 1440, ?_,
    alignedInputs raw 240, ?_, (), ?_, ?_⟩
  · rw [snapshots]
    exact readSnapshot_back shots
  · rw [snapshots, dailySeries]
    exact assemble_aligned raw 1440
  · rw [snapshots, h4Series]
    exact assemble_aligned raw 240
  · rw [need_ok, decide_eq_true_eq]
    exact boundary_back shots (accepted_of_validated validated) snapshots
  · have newer : isSchema 1 record.schemaVersion = false := by
      rw [schema]
      decide
    unfold modelTargets
    rw [newer, if_neg Bool.false_ne_true, snapshots, dailySeries, h4Series,
      ← select_aligned plain (by decide), ← select_aligned plain (by decide), final]
    simp only [bind_ok]
    exact ⟨daily, selected_daily, quarter, selected_quarter, model, was_built, expanded⟩

end

/-- Every successful cycle journals a record that is accepted and replays, over the snapshots it
    journaled, to exactly its targets; and the model's inputs are the same selected from the store as
    from the aligned series. -/
theorem cycle_replays (contentHash : Series → String) (build : Builder) (x : Setting)
    (cycleTs : Stamp) (store : Store) (record : CycleRecord) (orders : List Order) (files : Files)
    (ran : runCycle contentHash build x cycleTs store = .ok (.success record orders files)) :
    validateRecord record = .ok () ∧
      replayCycle contentHash build files record = .ok (amounts record.finalTargets) ∧
      ∃ boundary settled raw, normalizeCycleTs cycleTs = .ok boundary ∧
        refreshWithSettleVerify boundary.moment.instant x.attempts basket store = .settled settled ∧
        readAll settled = .ok raw ∧
        ∀ interval ∈ gridIntervals,
          selectModelInputs (rawOf raw interval) = selectModelInputs (alignedOf raw interval) := by
  unfold runCycle at ran
  simp only [bind_ok] at ran
  obtain ⟨boundary, normal, ran⟩ := ran
  split at ran
  · cases ran
  · cases ran
  · cases ran
  · rename_i settled done
    simp only [bind_ok] at ran
    obtain ⟨raw, read, ran⟩ := ran
    split at ran
    · cases ran
    · have every : StampedBut basket store :=
        fun leg mem outside => absurd (mem_legs.mp mem).1 outside
      have plain := readAll_plain (refresh_settles basket_nodup every done) read
      obtain ⟨validated, replays⟩ := cycleOver_replays plain ran
      exact ⟨validated, replays, boundary, settled, raw, normal, done, read,
        fun interval grid => select_aligned plain grid⟩

/- A cycle that succeeds. -/

/-- A boundary at noon. -/
def noon : Int := 490908 * ProbePlans.hour

/-- A bar so many before the one the boundary expects. -/
def barBefore (interval before : Nat) : Candle where
  ts := .value (expectedTail noon interval / 1000000 - before * interval * 60)
  open_ := .value (.finite 2)
  high := .value (.finite 2)
  low := .value (.finite 2)
  close := .value (.finite 2)
  vwap := .value (.finite 2)
  volume := .value (.finite 1)
  count := .value 1

def answered (leg : Leg) : List Candle := [barBefore leg.2 1, barBefore leg.2 0]

def upToDate (leg : Leg) : File := .frame ⟨frameSchema, (answered leg).filterMap Candle.cast⟩

/-- A venue that answers what the store holds. -/
def repeating : World where
  fetch leg := some (answered leg)
  canonical _ := .absent
  write _ _ := none

def atNoon : Setting where
  attempts := [⟨repeating, noon, noon⟩]
  startedAt := noon
  completedAt := noon
  positions := none
  journal := []
  files := fun _ => none
  codeVersion := "1"
  nav := 1000

def zeros (_ : Series) : String := String.ofList (List.replicate 64 '0')

def half : Builder := fun _ _ => some ⟨[("BTC", 1 / 2)], by decide⟩

def CycleResult.journaled : CycleResult → Option (CycleRecord × List Order × Files)
  | .success record orders files => some (record, orders, files)
  | _ => none

theorem noon_cycle_succeeds :
    ((runCycle zeros half atNoon ⟨noon, some 0⟩ upToDate).toOption.bind CycleResult.journaled).isSome =
      true := by
  decide +kernel

theorem noon_cycle_replays : ∃ record orders files,
    runCycle zeros half atNoon ⟨noon, some 0⟩ upToDate = .ok (.success record orders files) ∧
      validateRecord record = .ok () ∧
      replayCycle zeros half files record = .ok (amounts record.finalTargets) := by
  have succeeds := noon_cycle_succeeds
  cases result : runCycle zeros half atNoon ⟨noon, some 0⟩ upToDate with
  | error f =>
    rw [result] at succeeds
    cases succeeds
  | ok outcome =>
    rw [result] at succeeds
    cases outcome with
    | success record orders files =>
      obtain ⟨validated, replays, _⟩ := cycle_replays zeros half atNoon ⟨noon, some 0⟩ upToDate
        record orders files result
      exact ⟨record, orders, files, rfl, validated, replays⟩
    | _ => cases succeeds

end Cycles
