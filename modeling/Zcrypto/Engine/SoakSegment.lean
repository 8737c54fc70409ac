import Mathlib.Data.List.MinMax
import Zcrypto.MaximalRuns
import Zcrypto.Engine.Cycle

/- The clean segment of a journal: the run of records, each on a four-hour boundary and four hours after the one
   before, over which a soak check scores. Records are as their validation leaves them, so their stamps are aware. -/
namespace Soak
open Journal MaximalRuns
open Cycles (h4)

def time (r : CycleRecord) : Int := r.cycleTs.moment.instant

def onGrid (t : Int) : Bool := t % h4 = 0

/-- The pass over the times in their order, each with its place and the time before it. -/
def scanRuns : Nat → Option Int → Scan → List Int → Scan
  | _, _, s, [] => s
  | i, before, s, t :: rest => scanRuns (i + 1) (some t) (s.see i (onGrid t) (before = some (t - h4))) rest

def runsOf (times : List Int) : List (Nat × Nat) := (scanRuns 0 none {} times).done

/-- The newest run longer than the floor, or with none the longest, the first of equals. -/
def chosen (runs : List (Nat × Nat)) (floor : Option Int) : Option (Nat × Nat) :=
  match floor.bind fun f => (runs.filter fun run => f < run.2).getLast? with
  | some run => some run
  | none => runs.argmax Prod.snd

def orderedByTime (records : List CycleRecord) : List CycleRecord :=
  records.insertionSort fun r r' => time r ≤ time r'

def selectCleanSegment (records : List CycleRecord) (floor : Option Int) : List CycleRecord :=
  match chosen (runsOf ((orderedByTime records).map time)) floor with
  | none => []
  | some (start, len) => ((orderedByTime records).drop start).take len

/-- Places of times: on where the time is a boundary, joined where the next is the boundary after it. -/
def grid (times : List Int) : Joining where
  on i := ∃ t, times[i]? = some t ∧ onGrid t
  joins i := ∃ t, times[i]? = some t ∧ times[i + 1]? = some (t + h4) ∧ onGrid t
  left := by
    intro i ⟨t, here, _, boundary⟩
    exact ⟨t, here, boundary⟩
  right := by
    intro i ⟨t, _, next, boundary⟩
    refine ⟨t + h4, next, ?_⟩
    unfold onGrid at boundary ⊢
    simpa using boundary

section
variable {times : List Int} {floor : Option Int} {a n : Nat}

theorem scanned_scanRuns (pre rest : List Int) (whole : times = pre ++ rest) (s : Scan)
    (scanned : Scanned (grid times) pre.length s) :
    Scanned (grid times) times.length (scanRuns pre.length pre.getLast? s rest) := by
  induction rest generalizing pre s with
  | nil =>
    rw [whole, List.append_nil] at scanned ⊢
    exact scanned
  | cons t rest ih =>
    have here : times[pre.length]? = some t := by rw [whole, List.getElem?_append_right (le_refl _)]; simp
    have step : Scanned (grid times) (pre.length + 1)
        (s.see pre.length (onGrid t) (pre.getLast? = some (t - h4))) := by
      apply scanned.see
      · constructor
        · intro boundary
          exact ⟨t, here, boundary⟩
        · rintro ⟨t', here', boundary⟩
          rw [here] at here'
          rwa [Option.some.inj here']
      · intro i last on_last _
        obtain ⟨t', here', boundary⟩ := on_last
        have before : pre.getLast? = some t' := by
          rw [List.getLast?_eq_getElem?, ← last, Nat.add_sub_cancel, ← here', whole,
            List.getElem?_append_left (by omega)]
        rw [before, decide_eq_true_eq, Option.some.injEq]
        constructor
        · rintro rfl
          refine ⟨_, here', ?_, boundary⟩
          rw [last, here, sub_add_cancel]
        · rintro ⟨t'', here'', next, _⟩
          rw [here'] at here''
          rw [last, here] at next
          have := Option.some.inj here''
          have := Option.some.inj next
          omega
    have after := ih (pre ++ [t]) (by rw [whole, List.append_assoc, List.singleton_append]) _
      (by rw [List.length_append]; exact step)
    rw [List.length_append, List.getLast?_concat] at after
    exact after

theorem scanned_times : Scanned (grid times) times.length (scanRuns 0 none {} times) :=
  scanned_scanRuns [] times rfl {} scanned_new

theorem runsOf_exact : (a, n) ∈ runsOf times ↔ IsRun (grid times) a n := by
  apply scanned_times.exact
  rintro i past ⟨t, here, _⟩
  rw [List.getElem?_eq_none past] at here
  cases here

theorem runsOf_ascending : (runsOf times).Pairwise fun r r' => r.1 < r'.1 := scanned_times.done_ascending

/-- Which run is chosen, told of all of them. -/
structure Chosen (times : List Int) (floor : Option Int) (a n : Nat) : Prop where
  run : IsRun (grid times) a n
  newest : ∀ f, floor = some f → (∃ b m, IsRun (grid times) b m ∧ f < m) →
    f < n ∧ ∀ b m, IsRun (grid times) b m → f < m → b ≤ a
  longest : (∀ f, floor = some f → ∀ b m, IsRun (grid times) b m → (m : Int) ≤ f) →
    ∀ b m, IsRun (grid times) b m → m ≤ n ∧ (m = n → a ≤ b)

theorem ascending_index (_ : BEq (Nat × Nat)) [LawfulBEq (Nat × Nat)] {runs : List (Nat × Nat)}
    (ascending : runs.Pairwise fun r r' => r.1 < r'.1) {r r' : Nat × Nat} (mem : r ∈ runs) (mem' : r' ∈ runs) (before : runs.idxOf r ≤ runs.idxOf r') : r.1 ≤ r'.1 := by
  rcases Nat.lt_or_eq_of_le before with less | same
  · have later := List.pairwise_iff_getElem.mp ascending _ _ (List.idxOf_lt_length_of_mem mem)
      (List.idxOf_lt_length_of_mem mem') less
    rw [List.getElem_idxOf, List.getElem_idxOf] at later
    exact le_of_lt later
  · rw [(List.idxOf_inj mem).mp same]

theorem chosen_newest {f : Int} {last : Nat × Nat} (bound : floor = some f)
    (found : ((runsOf times).filter fun run => f < run.2).getLast? = some last) : Chosen times floor last.1 last.2 := by
  obtain ⟨front, whole⟩ := List.getLast?_eq_some_iff.mp found
  have mem : last ∈ (runsOf times).filter fun run => f < run.2 := by rw [whole]; simp
  obtain ⟨there, longer⟩ := List.mem_filter.mp mem
  have longer : f < last.2 := by simpa using longer
  constructor
  · exact runsOf_exact.mp there
  · intro f' bound' _
    obtain rfl := Option.some.inj (bound.symm.trans bound')
    refine ⟨longer, ?_⟩
    intro b m run more
    have in_filter : (b, m) ∈ (runsOf times).filter fun run => f < run.2 :=
      List.mem_filter.mpr ⟨runsOf_exact.mpr run, by simpa using more⟩
    have up : ((runsOf times).filter fun run => f < run.2).Pairwise fun r r' => r.1 < r'.1 :=
      runsOf_ascending.filter _
    rw [whole] at in_filter up
    rcases List.mem_append.mp in_filter with earlier | at_end
    · exact le_of_lt ((List.pairwise_append.mp up).2.2 _ earlier last (by simp))
    · rw [← List.mem_singleton.mp at_end]
  · intro short
    have := short f bound _ _ (runsOf_exact.mp there)
    omega

theorem chosen_longest {most : Nat × Nat}
    (none_longer : ∀ f, floor = some f → ∀ run ∈ runsOf times, (run.2 : Int) ≤ f)
    (found : (runsOf times).argmax Prod.snd = some most) : Chosen times floor most.1 most.2 := by
  constructor
  · exact runsOf_exact.mp (List.argmax_mem found)
  · rintro f bound ⟨b, m, run, more⟩
    have := none_longer f bound (b, m) (runsOf_exact.mpr run)
    dsimp only at this
    omega
  · intro _ b m run
    have there := runsOf_exact.mpr run
    refine ⟨List.le_of_mem_argmax there found, ?_⟩
    intro same
    exact ascending_index instBEqOfDecidableEq runsOf_ascending (List.argmax_mem found) there
      (List.index_of_argmax found there (le_of_eq same.symm))

theorem chosen_runs (start len : Nat) (found : chosen (runsOf times) floor = some (start, len)) :
    Chosen times floor start len := by
  unfold chosen at found
  split at found
  · rename_i last newest
    obtain rfl := Option.some.inj found
    obtain ⟨f, bound, newest⟩ := Option.bind_eq_some_iff.mp newest
    exact chosen_newest bound newest
  · rename_i none_longer
    apply chosen_longest _ found
    intro f bound run mem
    rw [bound, Option.bind_some, List.getLast?_eq_none_iff] at none_longer
    by_contra longer
    have : run ∈ (runsOf times).filter fun run => f < run.2 := List.mem_filter.mpr ⟨mem, by simpa using longer⟩
    rw [none_longer] at this
    cases this

theorem chosen_none : chosen (runsOf times) floor = none ↔ runsOf times = [] := by
  unfold chosen
  constructor
  · intro none
    split at none
    · cases none
    · exact List.argmax_eq_none.mp none
  · intro empty
    rw [empty]
    cases floor <;> rfl

end

section
variable {records : List CycleRecord} {floor : Option Int}

theorem orderedByTime_perm (records : List CycleRecord) : (orderedByTime records).Perm records :=
  List.perm_insertionSort _ _

theorem orderedByTime_ascending (distinct : (records.map time).Nodup) :
    ((orderedByTime records).map time).Pairwise (· < ·) := by
  have : Std.Total fun r r' : CycleRecord => time r ≤ time r' := ⟨fun r r' => le_total _ _⟩
  have : IsTrans CycleRecord fun r r' => time r ≤ time r' := ⟨fun _ _ _ => le_trans⟩
  have sorted : (orderedByTime records).Pairwise fun r r' => time r ≤ time r' :=
    List.pairwise_insertionSort (fun r r' : CycleRecord => time r ≤ time r') records
  have apart : ((orderedByTime records).map time).Nodup :=
    ((orderedByTime_perm records).map time).nodup_iff.mpr distinct
  rw [List.pairwise_map]
  exact (sorted.and (List.pairwise_map.mp apart)).imp fun both => lt_of_le_of_ne both.1 both.2

/-- The times of a run: the boundary it starts on, and four hours on with each. -/
theorem run_times {times : List Int} {a n : Nat} (run : IsRun (grid times) a n) :
    ∃ t, onGrid t ∧ (times.drop a).take n = (List.range n).map fun i : Nat => t + i * h4 := by
  have some := run.nonempty
  obtain ⟨t, here, boundary⟩ := run.on a (le_refl _) (by omega)
  refine ⟨t, boundary, ?_⟩
  have each : ∀ i, i < n → times[a + i]? = Option.some (t + i * h4) := by
    intro i inside
    induction i with
    | zero => simpa using here
    | succ i ih =>
      obtain ⟨t', at_i, next, _⟩ := run.joined (a + i) (by omega) (by omega)
      rw [ih (by omega)] at at_i
      rw [← Nat.add_assoc, next, ← Option.some.inj at_i]
      congr 1
      push_cast
      ring
  apply List.ext_getElem?
  intro i
  by_cases inside : i < n
  · rw [List.getElem?_take_of_lt inside, List.getElem?_drop, each i inside]
    simp [inside]
  · rw [List.getElem?_take_eq_none (by omega), List.getElem?_eq_none (by simp; omega)]

/-- Two boundaries that follow one another and are both there are joined, or a time off the grid is between them. -/
theorem apart_between {times : List Int} {i : Nat} {t : Int} (ascending : times.Pairwise (· < ·)) (boundary : onGrid t)
    (here : times[i]? = some t) (there : t + h4 ∈ times) (apart : ¬ (grid times).joins i) :
    ∃ t' ∈ times, onGrid t' = false ∧ t < t' ∧ t' < t + h4 := by
  have step : h4 = 14400000000 := rfl
  obtain ⟨j, at_j⟩ := List.mem_iff_getElem?.mp there
  have order := List.pairwise_iff_getElem.mp ascending
  obtain ⟨i_in, i_at⟩ := List.getElem?_eq_some_iff.mp here
  obtain ⟨j_in, j_at⟩ := List.getElem?_eq_some_iff.mp at_j
  have later : i < j := by
    rcases Nat.lt_trichotomy i j with less | rfl | more
    · exact less
    · omega
    · have := order j i j_in i_in more
      omega
  have next_in : i + 1 < times.length := by omega
  have next_at := List.getElem?_eq_getElem next_in
  have above := order i (i + 1) i_in next_in (Nat.lt_succ_self i)
  have below : times[i + 1] < t + h4 := by
    rcases Nat.lt_or_eq_of_le (Nat.succ_le_of_lt later) with less | same
    · have := order (i + 1) j next_in j_in less
      omega
    · exfalso
      apply apart
      refine ⟨t, here, ?_, boundary⟩
      rw [← at_j, ← same]
  refine ⟨times[i + 1], List.getElem_mem next_in, ?_, by omega, below⟩
  unfold onGrid at boundary ⊢
  simp only [decide_eq_true_eq, decide_eq_false_iff_not] at boundary ⊢
  rw [step] at boundary below ⊢
  omega

/-- The places of a window of a list. -/
theorem mem_window {α : Type} {l : List α} {a n : Nat} {x : α} :
    x ∈ (l.drop a).take n ↔ ∃ i, a ≤ i ∧ i < a + n ∧ l[i]? = some x := by
  rw [List.mem_iff_getElem?]
  constructor
  · rintro ⟨i, here⟩
    by_cases inside : i < n
    · rw [List.getElem?_take_of_lt inside, List.getElem?_drop] at here
      exact ⟨a + i, by omega, by omega, here⟩
    · rw [List.getElem?_take_eq_none (by omega)] at here
      cases here
  · rintro ⟨i, from_, to_, here⟩
    refine ⟨i - a, ?_⟩
    rw [List.getElem?_take_of_lt (by omega), List.getElem?_drop, Nat.add_sub_cancel' from_]
    exact here

/-- A run ends where an off-grid time cuts it off from a boundary that is there, and nowhere else before one. -/
theorem run_edges {times : List Int} {a n : Nat} (ascending : times.Pairwise (· < ·)) (run : IsRun (grid times) a n)
    {t : Int} (mem : t ∈ times) (next : t + h4 ∈ times)
    (cut : ¬ (t ∈ (times.drop a).take n ↔ t + h4 ∈ (times.drop a).take n)) :
    ∃ t' ∈ times, onGrid t' = false ∧ t < t' ∧ t' < t + h4 := by
  have same_place : ∀ (i j : Nat) (u : Int), times[i]? = some u → times[j]? = some u → i = j := by
    intro i j u at_i at_j
    obtain ⟨i_in, rfl⟩ := List.getElem?_eq_some_iff.mp at_i
    obtain ⟨j_in, same⟩ := List.getElem?_eq_some_iff.mp at_j
    have apart : times.Nodup := ascending.imp ne_of_lt
    exact apart.getElem_inj_iff.mp same.symm
  have boundary : onGrid t := by
    have on_run : ∀ u, u ∈ (times.drop a).take n → onGrid u := by
      intro u inside
      obtain ⟨i, from_, to_, here⟩ := mem_window.mp inside
      obtain ⟨u', here', on_grid⟩ := run.on i from_ to_
      rw [here] at here'
      rwa [Option.some.inj here']
    by_cases inside : t ∈ (times.drop a).take n
    · exact on_run t inside
    · have other : t + h4 ∈ (times.drop a).take n := by
        by_contra outside
        exact cut ⟨fun h => absurd h inside, fun h => absurd h outside⟩
      have := on_run _ other
      unfold onGrid at this ⊢
      simpa using this
  obtain ⟨i, here⟩ := List.mem_iff_getElem?.mp mem
  apply apart_between ascending boundary here next
  rintro ⟨u, here', there, _⟩
  rw [here] at here'
  obtain rfl := Option.some.inj here'
  apply cut
  constructor
  · intro inside
    obtain ⟨j, from_, to_, at_j⟩ := mem_window.mp inside
    obtain rfl := same_place i j t here at_j
    refine mem_window.mpr ⟨i + 1, by omega, ?_, there⟩
    by_contra beyond
    exact run.last i (by omega) ⟨t, here, there, boundary⟩
  · intro inside
    obtain ⟨j, from_, to_, at_j⟩ := mem_window.mp inside
    obtain rfl := same_place (i + 1) j (t + h4) there at_j
    refine mem_window.mpr ⟨i, ?_, by omega, here⟩
    by_contra before
    exact run.first i (by omega) ⟨t, here, there, boundary⟩

theorem grid_ends {times : List Int} (i : Nat) (past : times.length ≤ i) : ¬ (grid times).on i := by
  rintro ⟨t, here, _⟩
  rw [List.getElem?_eq_none past] at here
  cases here

/-- There is a run wherever there is a boundary. -/
theorem runsOf_eq_nil {times : List Int} : runsOf times = [] ↔ ∀ t ∈ times, onGrid t = false := by
  constructor
  · intro none t mem
    by_contra boundary
    obtain ⟨i, here⟩ := List.mem_iff_getElem?.mp mem
    obtain ⟨a, n, run, _⟩ := exists_run grid_ends (J := grid times) (i := i) ⟨t, here, by simpa using boundary⟩
    have there := runsOf_exact.mpr run
    rw [none] at there
    cases there
  · intro off
    rw [List.eq_nil_iff_forall_not_mem]
    rintro ⟨a, n⟩ mem
    have run := runsOf_exact.mp mem
    have := run.nonempty
    obtain ⟨t, here, boundary⟩ := run.on a (le_refl _) (by omega)
    rw [off t (List.mem_of_getElem? here)] at boundary
    cases boundary

theorem selectCleanSegment_empty :
    selectCleanSegment records floor = [] ↔ ∀ r ∈ records, onGrid (time r) = false := by
  have off : (∀ t ∈ (orderedByTime records).map time, onGrid t = false) ↔ ∀ r ∈ records, onGrid (time r) = false := by
    simp [(orderedByTime_perm records).mem_iff]
  rw [← off, ← runsOf_eq_nil, ← chosen_none]
  unfold selectCleanSegment
  cases found : chosen (runsOf ((orderedByTime records).map time)) floor with
  | none => simp
  | some run =>
    have picked := chosen_runs run.1 run.2 found
    obtain ⟨t, here, _⟩ := picked.run.on run.1 (le_refl _) (by have := picked.run.nonempty; omega)
    simp only [List.take_eq_nil_iff, List.drop_eq_nil_iff, reduceCtorEq, iff_false, not_or]
    constructor
    · have := picked.run.nonempty
      omega
    · obtain ⟨inside, _⟩ := List.getElem?_eq_some_iff.mp here
      rw [List.length_map] at inside
      omega

/-- The segment told of the times on record: boundaries in a row, a run that is maximal at both ends among records that
    follow one another, and of these the newest longer than the floor, or else the first of the longest. -/
structure CleanSegment (records : List CycleRecord) (floor : Option Int) (segment : List CycleRecord) : Prop where
  window : ∃ start len, Chosen ((orderedByTime records).map time) floor start len ∧
    segment = ((orderedByTime records).drop start).take len
  boundaries : ∃ t, onGrid t ∧ segment.map time = (List.range segment.length).map fun i : Nat => t + i * h4
  edges : ∀ r ∈ records, ∀ r' ∈ records, time r' = time r + h4 → ¬ (r ∈ segment ↔ r' ∈ segment) →
    ∃ between ∈ records, onGrid (time between) = false ∧ time r < time between ∧ time between < time r'

theorem mem_times {α : Type} {f : α → Int} {l : List α} (distinct : (l.map f).Nodup) {part : List α}
    (sublist : part.Sublist l) {x : α} (mem : x ∈ l) : f x ∈ part.map f ↔ x ∈ part := by
  constructor
  · intro there
    obtain ⟨y, y_mem, same⟩ := List.mem_map.mp there
    rwa [← List.inj_on_of_nodup_map distinct (sublist.mem y_mem) mem same]
  · exact List.mem_map_of_mem

theorem selectCleanSegment_clean (distinct : (records.map time).Nodup) (some : selectCleanSegment records floor ≠ []) :
    CleanSegment records floor (selectCleanSegment records floor) := by
  unfold selectCleanSegment at some ⊢
  cases found : chosen (runsOf ((orderedByTime records).map time)) floor with
  | none =>
    rw [found] at some
    exact absurd rfl some
  | some run =>
    have picked := chosen_runs run.1 run.2 found
    have ascending := orderedByTime_ascending distinct
    have perm := orderedByTime_perm records
    have apart : ((orderedByTime records).map time).Nodup := (perm.map time).nodup_iff.mpr distinct
    have window : (((orderedByTime records).drop run.1).take run.2).map time =
        (((orderedByTime records).map time).drop run.1).take run.2 := by
      rw [List.map_take, List.map_drop]
    have part : (((orderedByTime records).drop run.1).take run.2).Sublist (orderedByTime records) :=
      (List.take_sublist _ _).trans (List.drop_sublist _ _)
    refine ⟨⟨run.1, run.2, picked, rfl⟩, ?_, ?_⟩
    · obtain ⟨t, boundary, times⟩ := run_times picked.run
      have count : (((orderedByTime records).drop run.1).take run.2).length = run.2 := by
        have lengths := congrArg List.length (window.trans times)
        simpa using lengths
      exact ⟨t, boundary, by dsimp only; rw [count, window, times]⟩
    · intro r mem r' mem' next cut
      have at_r := List.mem_map_of_mem (f := time) (perm.mem_iff.mpr mem)
      have at_r' := List.mem_map_of_mem (f := time) (perm.mem_iff.mpr mem')
      rw [next] at at_r'
      obtain ⟨t, there, off, above, below⟩ := run_edges ascending picked.run at_r at_r' (by
        intro both
        apply cut
        rw [← window, ← next, mem_times apart part (perm.mem_iff.mpr mem),
          mem_times apart part (perm.mem_iff.mpr mem')] at both
        exact both)
      obtain ⟨between, between_mem, rfl⟩ := List.mem_map.mp there
      exact ⟨between, perm.mem_iff.mp between_mem, off, above, by rw [next]; exact below⟩

end

end Soak
