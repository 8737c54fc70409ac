import Zcrypto.Tick.Sweep

/- What a sweep can still reach. A day below the floor of one sweep is below the floor of every later one,
   since the newest settled day and the newest final only move forward. -/
namespace Tick

section
variable {Bytes : Type} {tape : Tape Bytes} {index : SegmentIndex} {pair p : Pair} {d e last mark : Int}
  {settled : List Int} {rescan : Int}

/- Days. -/

theorem mem_daysOf : d ∈ daysOf index pair ↔ ∃ hour, (pair, hour) ∈ index ∧ dayOf hour = d := by
  unfold daysOf
  rw [(List.perm_insertionSort _ _).mem_iff, List.mem_dedup, List.mem_map]
  constructor
  · rintro ⟨⟨q, hour⟩, mem, same⟩
    obtain ⟨mem, here⟩ := List.mem_filter.mp mem
    have here : q = pair := by simpa using here
    exact ⟨hour, here ▸ mem, same⟩
  · rintro ⟨hour, mem, same⟩
    exact ⟨(pair, hour), List.mem_filter.mpr ⟨mem, by simp⟩, same⟩

theorem daysOf_grows {index' : SegmentIndex} (more : ∀ segment ∈ index, segment ∈ index')
    (mem : d ∈ daysOf index pair) : d ∈ daysOf index' pair := by
  obtain ⟨hour, here, same⟩ := mem_daysOf.mp mem
  exact mem_daysOf.mpr ⟨hour, more _ here, same⟩

theorem daysOf_sorted (index : SegmentIndex) (pair : Pair) : (daysOf index pair).Pairwise (· < ·) := by
  unfold daysOf
  generalize ((index.filter fun segment => segment.1 = pair).map fun segment => dayOf segment.2) = days
  have total : Std.Total (fun a b : Int => a ≤ b) := ⟨fun a b => Int.le_total a b⟩
  have trans : IsTrans Int fun a b => a ≤ b := ⟨fun _ _ _ => Int.le_trans⟩
  have sorted := List.pairwise_insertionSort (fun a b : Int => a ≤ b) days.dedup
  have apart := (List.perm_insertionSort (fun a b : Int => a ≤ b) days.dedup).nodup_iff.mpr
    (List.nodup_dedup days)
  exact (sorted.and apart).imp fun both => by
    obtain ⟨below, differ⟩ := both
    omega

theorem mem_archiveCalendar {entry : Pair × List Int} (mem : entry ∈ archiveCalendar index) :
    entry.2 = daysOf index entry.1 := by
  unfold archiveCalendar at mem
  obtain ⟨q, -, same⟩ := List.mem_map.mp mem
  rw [← same]

/- Finals. -/

theorem mem_publishedDays : d ∈ publishedDays tape pair ↔ finalExists tape pair d = true := by
  unfold publishedDays finalExists finalOf
  induction tape with
  | nil => simp
  | cons item rest ih =>
    obtain ⟨⟨q, e⟩, final⟩ := item
    rw [List.filter_cons, List.lookup_cons]
    by_cases here : (pair, d) = (q, e)
    · cases here
      simp
    · have differs : ((pair, d) == (q, e)) = false := by simpa using here
      rw [differs]
      by_cases same : q = pair
      · subst same
        have other : d ≠ e := by
          intro same
          exact here (by rw [same])
        simp only [decide_true, if_true, List.map_cons, List.mem_cons, other, false_or, ih]
      · rw [if_neg (by simpa using same), ih]

theorem publishedDays_publishDay {data : Bytes} : e ∈ publishedDays (publishDay tape p d data) pair ↔
    e ∈ publishedDays tape pair ∨ (p = pair ∧ e = d) := by
  unfold publishedDays publishDay
  rw [List.filter_append, List.map_append, List.mem_append]
  by_cases same : p = pair
  · simp [same]
  · simp [same]

theorem watermark_none (none : watermark tape pair = none) : publishedDays tape pair = [] :=
  List.max?_eq_none_iff.mp none

theorem watermark_some (some : watermark tape pair = some mark) :
    mark ∈ publishedDays tape pair ∧ ∀ e ∈ publishedDays tape pair, e ≤ mark := by
  have spec := List.max?_eq_some_iff.mp some
  exact ⟨spec.1, spec.2⟩

/- One pair's candidates. -/

theorem getLast_greatest (sorted : settled.Pairwise (· < ·)) (newest : settled.getLast? = some last)
    (mem : e ∈ settled) : e ≤ last := by
  obtain ⟨init, rfl⟩ := List.getLast?_eq_some_iff.mp newest
  rcases List.mem_append.mp mem with before | here
  · have := (List.pairwise_append.mp sorted).2.2 e before last (by simp)
    omega
  · have : e = last := by simpa using here
    omega

theorem todo_sublist (tape : Tape Bytes) (pair : Pair) (rescan : Int) (settled : List Int) :
    (candidates tape pair rescan settled).1.Sublist settled := by
  unfold candidates
  split
  · exact List.nil_sublist settled
  · exact List.Sublist.refl settled
  · exact List.filter_sublist

/-- A settled day without a final is either a candidate or a gap. -/
theorem todo_or_gap (mem : d ∈ settled) (open_ : finalExists tape pair d = false) :
    d ∈ (candidates tape pair rescan settled).2 ↔ d ∉ (candidates tape pair rescan settled).1 := by
  unfold candidates
  split
  · rename_i none
    rw [List.getLast?_eq_none_iff.mp none] at mem
    cases mem
  · simp [mem]
  · rw [List.mem_filter, List.mem_filter, List.mem_filter, open_]
    simp only [mem, Bool.not_false, and_true, true_and]
    simp only [decide_eq_true_eq]
    omega

theorem gap_open (gap : d ∈ (candidates tape pair rescan settled).2) :
    d ∈ settled ∧ finalExists tape pair d = false := by
  unfold candidates at gap
  split at gap
  · cases gap
  · cases gap
  · obtain ⟨mem, none⟩ := List.mem_filter.mp gap
    exact ⟨(List.mem_filter.mp mem).1, by simpa using none⟩

theorem gap_floor (gap : d ∈ (candidates tape pair rescan settled).2) :
    ∃ mark ∈ publishedDays tape pair, ∃ last ∈ settled, d ≤ mark ∧ d < last - rescan := by
  unfold candidates at gap
  split at gap
  · cases gap
  · cases gap
  · rename_i last mark newest reached
    obtain ⟨mem, -⟩ := List.mem_filter.mp gap
    have below : d < min (last - rescan) (mark + 1) := by simpa using (List.mem_filter.mp mem).2
    exact ⟨mark, (watermark_some reached).1, last, List.mem_of_getLast? newest, by omega, by omega⟩

/-- A day with a final at or after it, and a settled day more than the window after it, is out of reach. -/
theorem todo_floor (sorted : settled.Pairwise (· < ·)) (published : mark ∈ publishedDays tape pair)
    (late : d ≤ mark) (mem : last ∈ settled) (far : d < last - rescan) :
    d ∉ (candidates tape pair rescan settled).1 := by
  unfold candidates
  split
  · simp
  · rename_i none
    rw [watermark_none none] at published
    cases published
  · rename_i newest top found reached
    have above := getLast_greatest sorted found mem
    have beyond := (watermark_some reached).2 mark published
    intro todo
    have floor : min (newest - rescan) (top + 1) ≤ d := by simpa using (List.mem_filter.mp todo).2
    omega

/-- No candidate lies more than the window before a final, where the finals are of settled days. -/
theorem todo_near (sorted : settled.Pairwise (· < ·))
    (within : ∀ e ∈ publishedDays tape pair, e ∈ settled) (narrow : rescan ≤ rescanDays)
    (todo : d ∈ (candidates tape pair rescan settled).1) (published : e ∈ publishedDays tape pair) :
    e ≤ d + rescanDays := by
  by_contra far
  apply todo_floor sorted published (d := d) _ (within e published) _ todo
  · have : rescanDays = 3 := rfl
    omega
  · omega

end

/- Histories. -/

section
variable {Bytes : Type} {w : World Bytes} {past : List Start} {event : Event Bytes} {p : Pair}
  {d e : Int} {s b : Start}

/-- A sweep begun after another, that waits no longer and looks back no further. -/
structure Start.Follows (s b : Start) : Prop where
  clock : b.now ≤ s.now
  settle : s.settle ≤ b.settle
  rescan : s.rescan ≤ b.rescan

theorem Start.Follows.settles (follows : s.Follows b) (settled : b.settles d = true) :
    s.settles d = true := by
  obtain ⟨clock, settle, -⟩ := follows
  have settled : b.settle ≤ b.now - dayEnd d := by simpa [Start.settles] using settled
  have : s.settle ≤ s.now - dayEnd d := by omega
  simpa [Start.settles] using this

def Admits (past : List Start) (event : Event Bytes) : Prop :=
  ∀ s, startOf event = some s → (∀ b ∈ past, s.Follows b) ∧ s.rescan ≤ rescanDays

/-- An archived day that settled in some sweep, and that the sweep under way has in its index. -/
structure Covered (past : List Start) (w : World Bytes) (p : Pair) (d : Int) : Prop where
  archived : d ∈ daysOf w.index p
  settled : ∃ s ∈ past, s.settles d = true
  walked : ∀ sweep, w.sweep = some sweep → d ∈ daysOf sweep.index p

structure Sweep.Sound (past : List Start) (w : World Bytes) (sweep : Sweep) : Prop where
  begun : sweep.start ∈ past
  latest : ∀ b ∈ past, sweep.start.Follows b
  narrow : sweep.start.rescan ≤ rescanDays
  walked : ∀ segment ∈ sweep.index, segment ∈ w.index
  calendar : ∀ entry ∈ sweep.left, entry.2 = daysOf sweep.index entry.1
  settled : ∀ d ∈ sweep.todo, d ∈ daysOf sweep.index sweep.pair ∧ sweep.start.settles d = true
  ascending : sweep.todo.Pairwise (· < ·)
  near : ∀ d ∈ sweep.todo, ∀ e ∈ publishedDays w.tape sweep.pair, e ≤ d + rescanDays

structure Steady (past : List Start) (w : World Bytes) : Prop where
  finals : ∀ p, ∀ d ∈ publishedDays w.tape p, Covered past w p d
  sweep : ∀ sweep, w.sweep = some sweep → sweep.Sound past w

/-- A day that no sweep takes any more: it has a final at or after it, a covered day stands more than a
    window after it, and the sweep under way is past it. -/
structure Closed (past : List Start) (w : World Bytes) (p : Pair) (d : Int) : Prop where
  mark : ∃ e ∈ publishedDays w.tape p, d ≤ e
  last : ∃ e, Covered past w p e ∧ ∃ s ∈ past, s.settles e = true ∧ d < e - s.rescan
  passed : ∀ sweep, w.sweep = some sweep → sweep.pair = p → d ∉ sweep.todo

theorem Steady.initial : Steady [] ({} : World Bytes) := by
  constructor
  · intro p d mem
    cases mem
  · intro sweep some
    cases some

/-- A covered day is among the settled days of every sweep that has yet to reach its pair. -/
theorem Covered.settled_now (covered : Covered past w p d) {sweep : Sweep}
    (under : w.sweep = some sweep) (sound : sweep.Sound past w) :
    d ∈ (daysOf sweep.index p).filter sweep.start.settles := by
  obtain ⟨b, begun, settled⟩ := covered.settled
  exact List.mem_filter.mpr ⟨covered.walked sweep under, (sound.latest b begun).settles settled⟩

/-- The newest final more than a window after a day closes it. -/
theorem Steady.closed (steady : Steady past w) (mem : e ∈ publishedDays w.tape p)
    (far : d + rescanDays < e) (narrow : ∀ s ∈ past, s.rescan ≤ rescanDays) : Closed past w p d := by
  have covered := steady.finals p e mem
  have window : rescanDays = 3 := rfl
  constructor
  · exact ⟨e, mem, by omega⟩
  · obtain ⟨s, begun, settled⟩ := covered.settled
    have := narrow s begun
    exact ⟨e, covered, s, begun, settled, by omega⟩
  · intro sweep under here todo
    have near := (steady.sweep sweep under).near d todo e (here ▸ mem)
    omega

/- One event. -/

theorem attempt_keeps (tape : Tape Bytes) (sweep : Sweep) (a : Attempt Bytes) :
    (sweep.attempt tape a).2.start = sweep.start ∧ (sweep.attempt tape a).2.index = sweep.index ∧
      (sweep.attempt tape a).2.left = sweep.left ∧ (sweep.attempt tape a).2.pair = sweep.pair ∧
      (sweep.attempt tape a).2.todo = sweep.todo.tail := by
  unfold Sweep.attempt
  cases todo : sweep.todo with
  | nil => simp [todo]
  | cons d rest =>
    by_cases there : finalExists tape sweep.pair d
    · simp [there]
    · cases a <;> simp [there]

theorem attempt_grows {tape : Tape Bytes} {sweep : Sweep} {a : Attempt Bytes}
    (mem : e ∈ publishedDays tape p) : e ∈ publishedDays (sweep.attempt tape a).1 p := by
  have add {d : Int} {data : Bytes} : e ∈ publishedDays (publishDay tape sweep.pair d data) p :=
    publishedDays_publishDay.mpr (.inl mem)
  unfold Sweep.attempt
  cases sweep.todo with
  | nil => exact mem
  | cons d rest =>
    by_cases there : finalExists tape sweep.pair d
    · simpa [there] using mem
    · cases a with
      | unhealed => simpa [there] using mem
      | raised text => simpa [there] using mem
      | raisedLate data text => simpa [there] using add
      | written data height => simpa [there] using add

/-- An attempt publishes nothing but the first of the candidates. -/
theorem attempt_published {tape : Tape Bytes} {sweep : Sweep} {a : Attempt Bytes}
    (mem : e ∈ publishedDays (sweep.attempt tape a).1 p) :
    e ∈ publishedDays tape p ∨ (sweep.pair = p ∧ ∃ rest, sweep.todo = e :: rest) := by
  have split_ {d : Int} {data : Bytes} {rest : List Int} (todo : sweep.todo = d :: rest)
      (mem : e ∈ publishedDays (publishDay tape sweep.pair d data) p) :
      e ∈ publishedDays tape p ∨ (sweep.pair = p ∧ ∃ rest, sweep.todo = e :: rest) := by
    rcases publishedDays_publishDay.mp mem with old | ⟨here, same⟩
    · exact .inl old
    · exact .inr ⟨here, rest, same ▸ todo⟩
  unfold Sweep.attempt at mem
  cases todo : sweep.todo with
  | nil => exact .inl (by simpa [todo] using mem)
  | cons d rest =>
    rw [todo] at mem
    rw [← todo]
    by_cases there : finalExists tape sweep.pair d
    · exact .inl (by simpa [there] using mem)
    · cases a with
      | unhealed => exact .inl (by simpa [there] using mem)
      | raised text => exact .inl (by simpa [there] using mem)
      | raisedLate data text => exact split_ todo (by simpa [there] using mem)
      | written data height => exact split_ todo (by simpa [there] using mem)

theorem after_index (w : World Bytes) (event : Event Bytes) :
    ∀ segment ∈ w.index, segment ∈ (w.after event).index := by
  intro segment mem
  cases event with
  | mint pair hour => exact List.mem_append_left _ mem
  | start s => exact mem
  | stop => exact mem
  | visit =>
    unfold World.after
    cases under : w.sweep with
    | none => exact mem
    | some sweep =>
      by_cases done : sweep.todo = []
      · simpa [done] using mem
      · simpa [done] using mem
  | attempt a =>
    unfold World.after
    cases under : w.sweep with
    | none => exact mem
    | some sweep => exact mem

theorem after_grows (w : World Bytes) (event : Event Bytes) (mem : e ∈ publishedDays w.tape p) :
    e ∈ publishedDays (w.after event).tape p := by
  cases event with
  | mint pair hour => exact mem
  | start s => exact mem
  | stop => exact mem
  | visit =>
    unfold World.after
    cases under : w.sweep with
    | none => exact mem
    | some sweep =>
      by_cases done : sweep.todo = []
      · simpa [done] using mem
      · simpa [done] using mem
  | attempt a =>
    unfold World.after
    cases under : w.sweep with
    | none => exact mem
    | some sweep => exact attempt_grows mem

/-- The sweep after an event: one just begun over the whole index, or the one before it moved on. -/
theorem after_sweep {w : World Bytes} {event : Event Bytes} {after : Sweep}
    (under : (w.after event).sweep = some after) :
    (∃ s, event = .start s ∧ after = { start := s, index := w.index, left := archiveCalendar w.index }) ∨
    ∃ before, w.sweep = some before ∧ startOf event = none ∧
      (after = before ∧ (w.after event).tape = w.tape ∨
       before.todo = [] ∧ after = before.visit w.tape ∧ (w.after event).tape = w.tape ∨
       ∃ a, after = (before.attempt w.tape a).2 ∧ (w.after event).tape = (before.attempt w.tape a).1) := by
  cases event with
  | mint pair hour => exact .inr ⟨after, under, rfl, .inl ⟨rfl, rfl⟩⟩
  | start s =>
    injection under with same
    exact .inl ⟨s, rfl, same.symm⟩
  | stop => cases under
  | visit =>
    unfold World.after at under ⊢
    cases earlier : w.sweep with
    | none =>
      simp only [earlier] at under
      cases under
    | some before =>
      simp only [earlier] at under ⊢
      refine .inr ⟨before, rfl, rfl, ?_⟩
      by_cases done : before.todo = []
      · rw [if_pos done] at under ⊢
        injection under with same
        exact .inr (.inl ⟨done, same.symm, rfl⟩)
      · rw [if_neg done] at under ⊢
        rw [earlier] at under
        injection under with same
        exact .inl ⟨same.symm, rfl⟩
  | attempt a =>
    unfold World.after at under ⊢
    cases earlier : w.sweep with
    | none =>
      simp only [earlier] at under
      cases under
    | some before =>
      simp only [earlier] at under ⊢
      injection under with same
      exact .inr ⟨before, rfl, rfl, .inr (.inr ⟨a, same.symm, rfl⟩)⟩

/-- An event publishes nothing but the first of the candidates of the sweep under way. -/
theorem after_published {w : World Bytes} {event : Event Bytes}
    (mem : e ∈ publishedDays (w.after event).tape p) : e ∈ publishedDays w.tape p ∨
      ∃ sweep, w.sweep = some sweep ∧ sweep.pair = p ∧ ∃ rest, sweep.todo = e :: rest := by
  cases event with
  | mint pair hour => exact .inl mem
  | start s => exact .inl mem
  | stop => exact .inl mem
  | visit =>
    unfold World.after at mem
    cases under : w.sweep with
    | none => exact .inl (by simpa [under] using mem)
    | some sweep =>
      by_cases done : sweep.todo = []
      · exact .inl (by simpa [under, done] using mem)
      · exact .inl (by simpa [under, done] using mem)
  | attempt a =>
    unfold World.after at mem
    cases under : w.sweep with
    | none => exact .inl (by simpa [under] using mem)
    | some sweep =>
      simp only [under] at mem
      rcases attempt_published mem with old | ⟨here, first⟩
      · exact .inl old
      · exact .inr ⟨sweep, rfl, here, first⟩

theorem visit_keeps (tape : Tape Bytes) (sweep : Sweep) : (sweep.visit tape).start = sweep.start ∧
    (sweep.visit tape).index = sweep.index ∧ ∀ entry ∈ (sweep.visit tape).left, entry ∈ sweep.left := by
  unfold Sweep.visit
  cases left : sweep.left with
  | nil => simp [left]
  | cons entry rest => simp +contextual

/-- A visit of the next pair, or of none. -/
theorem visit_todo (tape : Tape Bytes) (sweep : Sweep) : (sweep.visit tape).todo = sweep.todo ∨
    ∃ entry ∈ sweep.left, (sweep.visit tape).pair = entry.1 ∧ (sweep.visit tape).todo =
      (candidates tape entry.1 sweep.start.rescan (entry.2.filter sweep.start.settles)).1 := by
  unfold Sweep.visit
  cases sweep.left with
  | nil => exact .inl rfl
  | cons entry left => exact .inr ⟨entry, List.mem_cons_self, rfl, rfl⟩

/-- What was begun, with what an event begins. -/
def withBegun (past : List Start) (event : Event Bytes) : List Start :=
  past ++ (startOf event).toList

theorem mem_withBegun : s ∈ withBegun past event ↔ s ∈ past ∨ startOf event = some s := by
  unfold withBegun
  rw [List.mem_append, Option.mem_toList]

theorem Covered.after (covered : Covered past w p d) :
    Covered (withBegun past event) (w.after event) p d := by
  obtain ⟨archived, ⟨s, begun, settled⟩, walked⟩ := covered
  constructor
  · exact daysOf_grows (after_index w event) archived
  · exact ⟨s, mem_withBegun.mpr (.inl begun), settled⟩
  · intro sweep under
    rcases after_sweep under with ⟨s, -, same⟩ | ⟨before, earlier, -, moved⟩
    · rw [same]
      exact archived
    · have here := walked before earlier
      rcases moved with ⟨same, -⟩ | ⟨-, same, -⟩ | ⟨a, same, -⟩
      · rw [same]
        exact here
      · rw [same, (visit_keeps w.tape before).2.1]
        exact here
      · rw [same, (attempt_keeps w.tape before a).2.1]
        exact here

/-- The sweep's settled candidates, when it has just come to a pair. -/
theorem Steady.visited (steady : Steady past w) {sweep : Sweep} (under : w.sweep = some sweep)
    {entry : Pair × List Int} (mem : entry ∈ sweep.left) :
    (∀ e ∈ publishedDays w.tape entry.1, e ∈ entry.2.filter sweep.start.settles) ∧
      (entry.2.filter sweep.start.settles).Pairwise (· < ·) := by
  have sound := steady.sweep sweep under
  have days := sound.calendar entry mem
  constructor
  · intro e published
    rw [days]
    exact (steady.finals entry.1 e published).settled_now under sound
  · rw [days]
    exact (daysOf_sorted _ _).filter _

theorem Steady.visit (steady : Steady past w) {sweep : Sweep} (under : w.sweep = some sweep)
    (done : sweep.todo = []) : (sweep.visit w.tape).Sound past w := by
  have before := steady.sweep sweep under
  obtain ⟨start, index, left⟩ := visit_keeps w.tape sweep
  constructor
  · rw [start]
    exact before.begun
  · rw [start]
    exact before.latest
  · rw [start]
    exact before.narrow
  · rw [index]
    exact before.walked
  · intro entry mem
    rw [index]
    exact before.calendar entry (left entry mem)
  all_goals rcases visit_todo w.tape sweep with same | ⟨entry, mem, pair, todo⟩
  · rw [same, done]
    simp
  · intro d here
    rw [todo] at here
    obtain ⟨listed, settled⟩ := List.mem_filter.mp ((todo_sublist _ _ _ _).subset here)
    rw [start, index, pair, ← before.calendar entry mem]
    exact ⟨listed, settled⟩
  · rw [same, done]
    exact .nil
  · rw [todo]
    exact (steady.visited under mem).2.sublist (todo_sublist _ _ _ _)
  · rw [same, done]
    simp
  · intro d here e published
    rw [todo] at here
    rw [pair] at published
    obtain ⟨within, sorted⟩ := steady.visited under mem
    exact todo_near sorted within before.narrow here published

theorem Sweep.Sound.carry {sweep : Sweep} (sound : sweep.Sound past w) {w' : World Bytes}
    (more : ∀ segment ∈ w.index, segment ∈ w'.index) (tape : w'.tape = w.tape) :
    sweep.Sound past w' :=
  { sound with
    walked := fun segment mem => more segment (sound.walked segment mem)
    near := tape ▸ sound.near }

theorem Sweep.Sound.attempt {sweep : Sweep} (before : sweep.Sound past w) {w' : World Bytes}
    {a : Attempt Bytes} (more : ∀ segment ∈ w.index, segment ∈ w'.index) (tape : w'.tape = (sweep.attempt w.tape a).1) :
    (sweep.attempt w.tape a).2.Sound past w' := by
  obtain ⟨start, walked, left, pair, todo⟩ := attempt_keeps w.tape sweep a
  have inside : ∀ d ∈ sweep.todo.tail, d ∈ sweep.todo := fun d => List.mem_of_mem_tail
  constructor
  · rw [start]
    exact before.begun
  · rw [start]
    exact before.latest
  · rw [start]
    exact before.narrow
  · rw [walked]
    exact fun segment mem => more segment (before.walked segment mem)
  · rw [left, walked]
    exact before.calendar
  · rw [todo, walked, start, pair]
    intro d mem
    exact before.settled d (inside d mem)
  · rw [todo]
    exact before.ascending.tail
  · -- the one day that may be new comes before the candidates still left
    rw [todo, pair, tape]
    intro d mem e published
    rcases attempt_published published with old | ⟨-, rest, first⟩
    · exact before.near d (inside d mem) e old
    · have ascending := before.ascending
      rw [first, List.tail_cons] at mem
      rw [first] at ascending
      have := (List.pairwise_cons.mp ascending).1 d mem
      have : rescanDays = 3 := rfl
      omega

theorem Steady.after (steady : Steady past w) (admits : Admits past event) :
    Steady (withBegun past event) (w.after event) := by
  have wider : ∀ sweep : Sweep, ∀ w' : World Bytes, startOf event = none → sweep.Sound past w' →
      sweep.Sound (withBegun past event) w' := by
    intro sweep w' none sound
    have same : withBegun past event = past := by rw [withBegun, none, Option.toList_none, List.append_nil]
    rw [same]
    exact sound
  constructor
  · intro p d mem
    rcases after_published mem with old | ⟨sweep, under, here, rest, first⟩
    · exact (steady.finals p d old).after
    · have sound := steady.sweep sweep under
      have todo : d ∈ sweep.todo := first ▸ List.mem_cons_self
      obtain ⟨listed, settled⟩ := sound.settled d todo
      rw [here] at listed
      have covered : Covered past w p d := by
        constructor
        · exact daysOf_grows sound.walked listed
        · exact ⟨sweep.start, sound.begun, settled⟩
        · intro other same
          rw [under] at same
          injection same with same
          exact same ▸ listed
      exact covered.after
  · intro sweep under
    rcases after_sweep under with ⟨s, same, new⟩ | ⟨before, earlier, none, moved⟩
    · subst same new
      obtain ⟨follows, narrow⟩ := admits s rfl
      constructor
      · exact mem_withBegun.mpr (.inr rfl)
      · intro b begun
        rcases mem_withBegun.mp begun with old | new
        · exact follows b old
        · injection new with new
          subst new
          exact ⟨Int.le_refl _, Int.le_refl _, Int.le_refl _⟩
      · exact narrow
      · exact fun segment mem => mem
      · exact fun entry mem => mem_archiveCalendar mem
      · exact fun d mem => absurd mem List.not_mem_nil
      · exact .nil
      · exact fun d mem => absurd mem List.not_mem_nil
    · apply wider sweep _ none
      have sound := steady.sweep before earlier
      have more := after_index w event
      rcases moved with ⟨same, tape⟩ | ⟨done, same, tape⟩ | ⟨a, same, tape⟩
      · rw [same]
        exact sound.carry more tape
      · rw [same]
        exact (steady.visit earlier done).carry more tape
      · rw [same]
        exact sound.attempt more tape

theorem Closed.after (closed : Closed past w p d) (steady : Steady past w) :
    Closed (withBegun past event) (w.after event) p d := by
  constructor
  · obtain ⟨e, published, late⟩ := closed.mark
    exact ⟨e, after_grows w event published, late⟩
  · obtain ⟨e, covered, s, begun, settled, far⟩ := closed.last
    exact ⟨e, covered.after, s, mem_withBegun.mpr (.inl begun), settled, far⟩
  · intro sweep under here todo
    rcases after_sweep under with ⟨s, -, new⟩ | ⟨before, earlier, -, moved⟩
    · rw [new] at todo
      cases todo
    · have sound := steady.sweep before earlier
      rcases moved with ⟨same, -⟩ | ⟨done, same, -⟩ | ⟨a, same, -⟩
      · subst same
        exact closed.passed sweep earlier here todo
      · subst same
        rcases visit_todo w.tape before with none | ⟨entry, mem, pair, some⟩
        · rw [none, done] at todo
          cases todo
        · obtain ⟨mark, published, late⟩ := closed.mark
          obtain ⟨last, covered, s, begun, -, far⟩ := closed.last
          rw [here] at pair
          subst pair
          rw [some] at todo
          have settled := covered.settled_now earlier sound
          rw [← sound.calendar entry mem] at settled
          have narrower := (sound.latest s begun).rescan
          exact todo_floor (steady.visited earlier mem).2 published late settled (by omega) todo
      · subst same
        obtain ⟨-, -, -, pair, rest⟩ := attempt_keeps w.tape before a
        rw [pair] at here
        rw [rest] at todo
        exact closed.passed before earlier here (List.mem_of_mem_tail todo)

/-- A day counted as a gap is closed from then on. -/
theorem Steady.gap (steady : Steady past w) {sweep : Sweep} (under : w.sweep = some sweep)
    (done : sweep.todo = []) {days : List Int} {left : List (Pair × List Int)}
    (next : sweep.left = (p, days) :: left)
    (gap : d ∈ (candidates w.tape p sweep.start.rescan (days.filter sweep.start.settles)).2) :
    Closed past (w.after .visit) p d := by
  have sound := steady.sweep sweep under
  have first : (p, days) ∈ sweep.left := next ▸ List.mem_cons_self
  have listed : days = daysOf sweep.index p := sound.calendar (p, days) first
  have visited : w.after .visit = { w with sweep := some (sweep.visit w.tape) } := by
    simp only [World.after, under, if_pos done]
  obtain ⟨mark, published, last, settled, late, far⟩ := gap_floor gap
  obtain ⟨mem, ready⟩ := List.mem_filter.mp settled
  rw [listed] at mem
  rw [visited]
  constructor
  · exact ⟨mark, published, late⟩
  · refine ⟨last, ?_, sweep.start, sound.begun, ready, far⟩
    constructor
    · exact daysOf_grows sound.walked mem
    · exact ⟨sweep.start, sound.begun, ready⟩
    · intro after same
      injection same with same
      rw [← same, (visit_keeps w.tape sweep).2.1]
      exact mem
  · intro after same here todo
    injection same with same
    rw [← same] at todo
    have exactly : (sweep.visit w.tape).todo =
        (candidates w.tape p sweep.start.rescan (days.filter sweep.start.settles)).1 := by
      rw [Sweep.visit, next]
    rw [exactly] at todo
    obtain ⟨mem, open_⟩ := gap_open gap
    exact (todo_or_gap mem open_).mp gap todo

end

/- Runs. -/

section
variable {Bytes : Type} {events : List (Event Bytes)} {n m : Nat} {p : Pair} {d e : Int}

def begunAt (events : List (Event Bytes)) (n : Nat) : List Start :=
  (events.take n).filterMap startOf

theorem admits_next (clocked : Clocked events) (unwidened : Unwidened events) {event : Event Bytes}
    (next : events[n]? = some event) : Admits (begunAt events n) event := by
  intro s start
  obtain ⟨inside, same⟩ := List.getElem?_eq_some_iff.mp next
  have parted : events = events.take n ++ event :: events.drop (n + 1) := by
    rw [← same, ← List.drop_eq_getElem_cons inside, List.take_append_drop]
  have starts : events.filterMap startOf = begunAt events n ++ s :: (events.drop (n + 1)).filterMap startOf := by
    conv_lhs => rw [parted]
    rw [List.filterMap_append, List.filterMap_cons, start]
    rfl
  obtain ⟨narrower, narrow⟩ := unwidened
  rw [Clocked, starts] at clocked
  rw [starts] at narrower narrow
  constructor
  · intro b begun
    have clock := (List.pairwise_append.mp clocked).2.2 b begun s List.mem_cons_self
    have options := (List.pairwise_append.mp narrower).2.2 b begun s List.mem_cons_self
    exact ⟨clock, options.1, options.2⟩
  · exact narrow s (by simp)

theorem worldAt_next {event : Event Bytes} (next : events[n]? = some event) :
    worldAt events (n + 1) = (worldAt events n).after event ∧
      begunAt events (n + 1) = withBegun (begunAt events n) event := by
  have more : events.take (n + 1) = events.take n ++ [event] := by
    rw [List.take_add_one, next, Option.toList_some]
  constructor
  · rw [worldAt, more, List.foldl_concat]
    rfl
  · rw [begunAt, more, List.filterMap_append, List.filterMap_cons, List.filterMap_nil]
    cases start : startOf event with
    | none => simp [withBegun, begunAt, start]
    | some s => simp [withBegun, begunAt, start]

theorem worldAt_over (ended : events[n]? = none) :
    worldAt events (n + 1) = worldAt events n ∧ begunAt events (n + 1) = begunAt events n := by
  have short := List.getElem?_eq_none_iff.mp ended
  unfold worldAt begunAt
  rw [List.take_of_length_le short, List.take_of_length_le (Nat.le_succ_of_le short)]
  exact ⟨rfl, rfl⟩

theorem steady_at (clocked : Clocked events) (unwidened : Unwidened events) (n : Nat) :
    Steady (begunAt events n) (worldAt events n) := by
  induction n with
  | zero => exact Steady.initial
  | succ n ih =>
    cases next : events[n]? with
    | none =>
      obtain ⟨world, begun⟩ := worldAt_over next
      rw [world, begun]
      exact ih
    | some event =>
      obtain ⟨world, begun⟩ := worldAt_next next
      rw [world, begun]
      exact ih.after (admits_next clocked unwidened next)

theorem closed_stays (clocked : Clocked events) (unwidened : Unwidened events)
    (closed : Closed (begunAt events n) (worldAt events n) p d) (later : n ≤ m) :
    Closed (begunAt events m) (worldAt events m) p d := by
  induction m, later using Nat.le_induction with
  | base => exact closed
  | succ m later ih =>
    cases next : events[m]? with
    | none =>
      obtain ⟨world, begun⟩ := worldAt_over next
      rw [world, begun]
      exact ih
    | some event =>
      obtain ⟨world, begun⟩ := worldAt_next next
      rw [world, begun]
      exact ih.after (steady_at clocked unwidened m)

/-- A closed day gets no final any more. -/
theorem closed_never (clocked : Clocked events) (unwidened : Unwidened events)
    (closed : Closed (begunAt events n) (worldAt events n) p d) (later : n ≤ m)
    (published : d ∈ publishedDays (worldAt events m).tape p) :
    d ∈ publishedDays (worldAt events n).tape p := by
  induction m, later using Nat.le_induction with
  | base => exact published
  | succ m later ih =>
    apply ih
    cases next : events[m]? with
    | none => exact (worldAt_over next).1 ▸ published
    | some event =>
      rw [(worldAt_next next).1] at published
      rcases after_published published with old | ⟨sweep, under, here, rest, first⟩
      · exact old
      · have still := closed_stays clocked unwidened closed later
        exact absurd (first ▸ List.mem_cons_self) (still.passed sweep under here)

end

end Tick
