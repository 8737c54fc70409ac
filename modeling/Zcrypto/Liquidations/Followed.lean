import Mathlib.Data.List.Pairwise
import Zcrypto.Liquidations.Coinalyze
import Zcrypto.TextFile

/- What a coin's writer keeps of the rows it is given: of those that may still come, each that its mark,
   its open hour or its floor is past has landed, is buffered, or was dropped with a buffer. -/
namespace Coinalyze
open Segments Effects Effects.Prog

/- A coin's rows. -/

/-- The row of a bucket of the symbol. -/
def Stamped (symbol : String) (r : Row) : Prop := ∃ t sides, 0 ≤ t ∧ r = bucketRow symbol t sides

theorem Stamped.whole {symbol : String} {r : Row} (h : Stamped symbol r) : ∃ t, r.ts = t * second := by
  obtain ⟨t, sides, -, rfl⟩ := h
  exact ⟨t, rfl⟩

theorem toString_nonneg {t : Int} (le : 0 ≤ t) : toString t = toString t.toNat := by
  obtain ⟨n, rfl⟩ := Int.eq_ofNat_of_zero_le le
  rfl

/-- A row's key says when its bucket started. -/
theorem Stamped.ts_eq {symbol : String} {q r : Row} (one : Stamped symbol q) (two : Stamped symbol r)
    (same : q.key = r.key) : q.ts = r.ts := by
  obtain ⟨t, sides, le, rfl⟩ := one
  obtain ⟨t', sides', le', rfl⟩ := two
  have texts : toString t = toString t' := by
    simpa [bucketRow, String.append_assoc, String.append_right_inj] using same
  rw [toString_nonneg le, toString_nonneg le'] at texts
  have equal := TextFile.toString_injective texts
  show t * second = t' * second
  rw [show t = t' by omega]

/- What outlives a process, and what a living one adds. -/

section
variable {symbol : String} {due due' lost lost' : Row → Prop} {mark now now' : Int} {t t' : Tape}
  {w : World}

/-- What landed of a coin's rows, in order; of those that may still come, everything up to one that
    landed, or of an hour that is merged or published, has landed or is lost. -/
structure Kept (symbol : String) (due lost : Row → Prop) (now : Int) (t : Tape) : Prop where
  reached : Reached Segments.System.blank.tape t
  shelf : Shelf (fun g => Aligned g ∧ g ≤ now) t
  ascending : (landedRows t.trace).Pairwise fun a b => a.ts < b.ts
  stamped : ∀ r ∈ landedRows t.trace, Stamped symbol r
  passed : ∀ r ∈ landedRows t.trace, ∀ q, due q → q.ts ≤ r.ts → q ∈ landedRows t.trace ∨ lost q
  closed : ∀ g, (t.disk.files g).finalized = true → ∀ q, due q → hourStart q.ts ≤ g →
    q ∈ landedRows t.trace ∨ lost q

/-- It has landed, is buffered or is lost. -/
def Accounted (lost : Row → Prop) (t : Tape) (q : Row) : Prop :=
  q ∈ landedRows t.trace ∨ q ∈ t.mem.buffer ∨ lost q

/-- What a writer's memory adds. -/
structure Alive (symbol : String) (due lost : Row → Prop) (mark now : Int) (t : Tape) : Prop
    extends Kept symbol due lost now t where
  held : t.mem.held = []
  ordered : (landedRows t.trace ++ t.mem.buffer).Pairwise fun a b => a.ts < b.ts
  buffered : ∀ r ∈ t.mem.buffer, Stamped symbol r
  marked : ∀ r ∈ landedRows t.trace ++ t.mem.buffer,
    r.ts ≤ mark ∨ ∃ F, t.mem.floor = some F ∧ r.ts < F
  own : ∀ r ∈ t.mem.buffer, t.mem.currentHour = some (hourStart r.ts)
  current : ∀ cur, t.mem.currentHour = some cur → Aligned cur ∧
    (∀ F, t.mem.floor = some F → F ≤ cur) ∧ ∀ g, (t.disk.files g).finalized = true → g < cur
  floor : ∀ F, t.mem.floor = some F → Aligned F
  idle : t.mem.currentHour = none → ∀ g, (t.disk.files g).finalized = true →
    (∃ F, t.mem.floor = some F ∧ g < F) ∨ ∀ q, due q → g < hourStart q.ts
  covered : ∀ q, due q → (q.ts ≤ mark ∨
    ∃ F, (t.mem.currentHour.or t.mem.floor) = some F ∧ q.ts < F) → Accounted lost t q
  seen : ∀ k ∈ t.mem.seen, ∃ r, Stamped symbol r ∧ r.key = k ∧ r.ts ≤ mark

theorem Kept.asked {n : Nat} (h : Kept symbol due lost now t) :
    Kept symbol due lost now { t with asked := n } :=
  ⟨h.reached.aside rfl rfl, ⟨h.shelf.filed, h.shelf.done, h.shelf.parts, h.shelf.inside, h.shelf.spills,
    h.shelf.listed⟩, h.ascending, h.stamped, h.passed, h.closed⟩

theorem Kept.later (h : Kept symbol due lost now t) (fewer : ∀ q, due' q → due q)
    (more : ∀ q, lost q → lost' q) (le : now ≤ now') : Kept symbol due' lost' now' t := by
  refine ⟨h.reached, h.shelf.mono fun g done => ⟨done.1, done.2.trans le⟩, h.ascending, h.stamped, ?_, ?_⟩
  · exact fun r landed q d before => (h.passed r landed q (fewer q d) before).imp id (more q)
  · exact fun g done q d before => (h.closed g done q (fewer q d) before).imp id (more q)

theorem Alive.later (h : Alive symbol due lost mark now t) (fewer : ∀ q, due' q → due q)
    (more : ∀ q, lost q → lost' q) (le : now ≤ now') : Alive symbol due' lost' mark now' t := by
  refine ⟨h.toKept.later fewer more le, h.held, h.ordered, h.buffered, h.marked, h.own, h.current, h.floor,
    ?_, ?_, h.seen⟩
  · exact fun none g done => (h.idle none g done).imp id fun all q d => all q (fewer q d)
  · exact fun q d before => (h.covered q (fewer q d) before).imp id (Or.imp id (more q))

theorem Alive.asked {n : Nat} (h : Alive symbol due lost mark now t) :
    Alive symbol due lost mark now { t with asked := n } :=
  ⟨h.toKept.asked, h.held, h.ordered, h.buffered, h.marked, h.own, h.current, h.floor, h.idle, h.covered,
    h.seen⟩

/- A row is given to the writer. -/

/-- What is lost after a call: what was before it, and the rows that were in memory or offered and are
    nowhere, where a file operation failed. -/
structure Loses (w : World) (t : Tape) (offered : List Row) (t' : Tape) (lost lost' : Row → Prop) :
    Prop where
  more : ∀ q, lost q → lost' q
  gone : ∀ q ∈ t.mem.buffer ++ offered, q ∉ t'.mem.buffer → q ∉ landedRows t'.trace →
    Failed w t.asked t'.asked → lost' q

/-- Whatever was followed is so still. -/
theorem Loses.accounted {offered : List Row} {done : Int → Prop} {n : Nat} {q : Row}
    (loses : Loses w t offered t' lost lost') (asked : n = t.asked)
    (carried : Carried w done n (landedRows t.trace) (t.mem.buffer ++ offered) t')
    (before : Accounted lost t q ∨ q ∈ offered) : Accounted lost' t' q := by
  subst asked
  obtain ⟨j, landed, -, all⟩ := carried.split
  have inside : q ∈ t.mem.buffer ++ offered → Accounted lost' t' q := by
    intro mem
    rcases all q mem with flushed | buffered | failed
    · exact .inl (by rw [landed]; exact List.mem_append_right _ flushed)
    · exact .inr (.inl buffered)
    · by_cases here : q ∈ landedRows t'.trace ∨ q ∈ t'.mem.buffer
      · exact here.elim .inl fun buffered => .inr (.inl buffered)
      · exact .inr (.inr (loses.gone q mem (fun b => here (.inr b)) (fun l => here (.inl l)) failed))
  rcases before with (old | buffered | gone) | new
  · exact .inl (by rw [landed]; exact List.mem_append_left _ old)
  · exact inside (List.mem_append_left _ buffered)
  · exact .inr (.inr (loses.more q gone))
  · exact inside (List.mem_append_right _ new)

/-- The hours that are merged or published. -/
def Done (t : Tape) (g : Int) : Prop := Aligned g ∧ (t.disk.files g).finalized = true

theorem Kept.calm (h : Kept symbol due lost now t) :
    Calm (Done t) t.mem (landedRows t.trace) t.asked t := by
  refine ⟨⟨h.shelf.filed, ?_, h.shelf.parts, h.shelf.inside, h.shelf.spills, h.shelf.listed⟩, rfl, rfl,
    le_refl _⟩
  exact fun g done => ⟨(h.shelf.done g done).1, done⟩

namespace Alive
variable (h : Alive symbol due lost mark now t)
include h

theorem writable : Writable (Done t) t.mem := by
  intro some
  obtain ⟨r, mem⟩ := List.exists_mem_of_ne_nil _ some
  obtain ⟨aligned, -, past⟩ := h.current _ (h.own r mem)
  refine ⟨hourStart r.ts, h.own r mem, aligned, fun g done => past g done.2, ?_⟩
  intro q inside
  have same := (h.own q inside).symm.trans (h.own r mem)
  exact Option.some.inj same

theorem empty (none : t.mem.currentHour = none) : t.mem.buffer = [] := by
  apply List.eq_nil_iff_forall_not_mem.mpr
  intro r mem
  have opened := h.own r mem
  rw [none] at opened
  cases opened

/-- A row that may still come before the floor has been followed. -/
theorem before_floor {q : Row} {F : Int} (d : due q) (floor : t.mem.floor = some F) (less : q.ts < F) :
    Accounted lost t q := by
  cases opened : t.mem.currentHour with
  | none => exact h.covered q d (.inr ⟨F, by simp [opened, floor], less⟩)
  | some cur =>
    have le := (h.current cur opened).2.1 F floor
    exact h.covered q d (.inr ⟨cur, by simp [opened], by omega⟩)

/-- And so has one up to a row that landed or is buffered. -/
theorem followed {q r : Row} (d : due q) (mem : r ∈ landedRows t.trace ++ t.mem.buffer)
    (le : q.ts ≤ r.ts) : Accounted lost t q := by
  rcases h.marked r mem with before | ⟨F, floor, less⟩
  · exact h.covered q d (.inl (le.trans before))
  · exact h.before_floor d floor (by omega)

variable {event : Row}
  (late : (t.mem.currentHour.or t.mem.floor).any (hourStart event.ts < ·) = false)
include late

theorem floor_le {F : Int} (floor : t.mem.floor = some F) : F ≤ hourStart event.ts := by
  cases opened : t.mem.currentHour with
  | none => simpa [opened, floor] using late
  | some cur =>
    have le : cur ≤ hourStart event.ts := by simpa [opened] using late
    exact ((h.current cur opened).2.1 F floor).trans le

/-- Every row that landed or is buffered comes before it. -/
theorem earlier (after : mark < event.ts) {q : Row}
    (mem : q ∈ landedRows t.trace ++ t.mem.buffer) : q.ts < event.ts := by
  rcases h.marked q mem with le | ⟨F, floor, less⟩
  · exact lt_of_le_of_lt le after
  · exact (less.trans_le (h.floor_le late floor)).trans_le (hourStart_le _)

theorem ordered_with (after : mark < event.ts) :
    (landedRows t.trace ++ (t.mem.buffer ++ [event])).Pairwise fun a b => a.ts < b.ts := by
  rw [← List.append_assoc]
  apply List.pairwise_append.mpr ⟨h.ordered, List.pairwise_singleton _ _, ?_⟩
  intro q mem r last
  rw [List.mem_singleton.mp last]
  exact h.earlier late after mem

/-- Every hour that is merged or published comes before its own. -/
theorem done_before (d : due event) {g : Int} (done : Done t g) : Before (hourStart event.ts) g := by
  refine ⟨done.1, ?_⟩
  cases opened : t.mem.currentHour with
  | none =>
    rcases h.idle opened g done.2 with ⟨F, floor, less⟩ | all
    · exact less.trans_le (h.floor_le late floor)
    · exact all event d
  | some cur =>
    have le : cur ≤ hourStart event.ts := by simpa [opened] using late
    exact ((h.current cur opened).2.2 g done.2).trans_le le

end Alive

/-- A row up to one that landed is not buffered: what is buffered comes after all that landed. -/
theorem passed_of (ordered : (landedRows t.trace ++ t.mem.buffer).Pairwise fun a b => a.ts < b.ts)
    {q r : Row} (landed : r ∈ landedRows t.trace) (le : q.ts ≤ r.ts) (accounted : Accounted lost t q) :
    q ∈ landedRows t.trace ∨ lost q := by
  rcases accounted with there | buffered | gone
  · exact .inl there
  · have less := (List.pairwise_append.mp ordered).2.2 r landed q buffered
    omega
  · exact .inr gone

theorem closed_of {g : Int} (own : ∀ q ∈ t.mem.buffer, g < hourStart q.ts) {q : Row}
    (le : hourStart q.ts ≤ g) (accounted : Accounted lost t q) : q ∈ landedRows t.trace ∨ lost q := by
  rcases accounted with there | buffered | gone
  · exact .inl there
  · have less := own q buffered
    omega
  · exact .inr gone

theorem lt_next_hour (ts : Int) : ts < hourStart ts + hourMicros := by
  unfold hourStart hourMicros
  omega

/-- A row of an hour before another's comes before it. -/
theorem ts_lt_of_hour {q : Row} {g ts : Int} (before : Before (hourStart ts) g)
    (le : hourStart q.ts ≤ g) : q.ts < ts := by
  have next := aligned_next before.1 (aligned_hourStart ts) before.2
  have inside := lt_next_hour q.ts
  have start := hourStart_le ts
  omega

/-- The writer took the row. -/
theorem Alive.enter {event : Row} (h : Alive symbol due lost mark now t) (stamped : Stamped symbol event)
    (after : mark < event.ts) (le : event.ts ≤ now)
    (late : (t.mem.currentHour.or t.mem.floor).any (hourStart event.ts < ·) = false)
    (handled : ∀ q, due q → q.ts < event.ts → Accounted lost t q)
    (same : ∀ q, due q → q.ts = event.ts → q = event) (reached : Reached t t')
    (entered : Entered w t.mem t.asked (landedRows t.trace) (t.mem.buffer ++ [event])
      (hourStart event.ts) t')
    (seen : ∀ k ∈ t'.mem.seen, k = event.key ∨ k ∈ t.mem.seen ∨
      ∃ q ∈ landedRows t.trace ++ t.mem.buffer, q.key = k)
    (loses : Loses w t [event] t' lost lost') : Alive symbol due lost' event.ts now t' := by
  obtain ⟨j, landed, sub, -⟩ := entered.split
  have rows : ∀ q ∈ landedRows t'.trace ++ t'.mem.buffer,
      q ∈ landedRows t.trace ++ t.mem.buffer ∨ q = event := by
    intro q mem
    rw [landed, List.append_assoc] at mem
    rcases List.mem_append.mp mem with old | new
    · exact .inl (List.mem_append_left _ old)
    · rcases List.mem_append.mp (sub.subset new) with old | last
      · exact .inl (List.mem_append_right _ old)
      · exact .inr (List.mem_singleton.mp last)
  have le_event : ∀ q ∈ landedRows t'.trace ++ t'.mem.buffer, q.ts ≤ event.ts := by
    intro q mem
    rcases rows q mem with old | rfl
    · exact le_of_lt (h.earlier late after old)
    · exact le_refl _
  have stamps : ∀ q ∈ landedRows t'.trace ++ t'.mem.buffer, Stamped symbol q := by
    intro q mem
    rcases rows q mem with old | rfl
    · rcases List.mem_append.mp old with first | last
      · exact h.stamped q first
      · exact h.buffered q last
    · exact stamped
  have ordered : (landedRows t'.trace ++ t'.mem.buffer).Pairwise fun a b => a.ts < b.ts := by
    rw [landed, List.append_assoc]
    exact (h.ordered_with late after).sublist ((List.Sublist.refl _).append sub)
  have accounted : ∀ q, due q → q.ts ≤ event.ts → Accounted lost' t' q := by
    intro q d before
    apply loses.accounted rfl entered.toCarried
    rcases lt_or_eq_of_le before with less | equal
    · exact .inl (handled q d less)
    · exact .inr (List.mem_singleton.mpr (same q d equal))
  refine ⟨⟨h.reached.trans reached, ?_, ordered.sublist (List.sublist_append_left _ _),
    fun r mem => stamps r (List.mem_append_left _ mem), ?_, ?_⟩, ?_, ordered,
    fun r mem => stamps r (List.mem_append_right _ mem), fun r mem => .inl (le_event r mem), ?_, ?_, ?_, ?_,
    ?_, ?_⟩
  · apply entered.toShelf.mono
    intro g before
    have start := hourStart_le event.ts
    have early := before.2
    exact ⟨before.1, by omega⟩
  · intro r mem q d before
    exact passed_of ordered mem before
      (accounted q d (before.trans (le_event r (List.mem_append_left _ mem))))
  · intro g done q d before
    have early := entered.done g done
    apply closed_of _ before (accounted q d (le_of_lt (ts_lt_of_hour early before)))
    intro r mem
    rw [entered.own r mem]
    exact early.2
  · exact entered.held.trans h.held
  · intro r mem
    rw [entered.opened, entered.own r mem]
  · intro cur opened
    obtain rfl := Option.some.inj (entered.opened.symm.trans opened)
    refine ⟨aligned_hourStart _, ?_, fun g done => (entered.done g done).2⟩
    intro F floor
    rw [entered.floor] at floor
    exact h.floor_le late floor
  · intro F floor
    rw [entered.floor] at floor
    exact h.floor F floor
  · intro none
    rw [entered.opened] at none
    cases none
  · intro q d before
    apply accounted q d
    rcases before with le | ⟨F, limit, less⟩
    · exact le
    · rw [entered.opened] at limit
      obtain rfl := Option.some.inj limit
      have start := hourStart_le event.ts
      omega
  · intro k key
    rcases seen k key with rfl | old | ⟨q, mem, rfl⟩
    · exact ⟨event, stamped, rfl, le_refl _⟩
    · obtain ⟨r, whose, same, before⟩ := h.seen k old
      exact ⟨r, whose, same, by omega⟩
    · refine ⟨q, ?_, rfl, le_of_lt (h.earlier late after mem)⟩
      rcases List.mem_append.mp mem with first | last
      · exact h.stamped q first
      · exact h.buffered q last

/-- The writer refused the row as late: what may still come up to it has been followed. -/
theorem Alive.refuse {event : Row} {m : Mem} (h : Alive symbol due lost mark now t)
    (after : mark < event.ts) (d : due event)
    (late : (t.mem.currentHour.or t.mem.floor).any (hourStart event.ts < ·) = true)
    (reached : Reached t t') (calm : Calm (Done t) m (landedRows t.trace) t.asked t')
    (current : m.currentHour = t.mem.currentHour) (buffer : m.buffer = t.mem.buffer)
    (floor : m.floor = t.mem.floor) (held : m.held = t.mem.held) (seen : m.seen = t.mem.seen)
    (more : ∀ q, lost q → lost' q) :
    Alive symbol due lost' event.ts now t' ∧
      ∀ q, Accounted lost t q ∨ q = event → Accounted lost' t' q := by
  obtain ⟨F, limit, less⟩ : ∃ F, (t.mem.currentHour.or t.mem.floor) = some F ∧
      hourStart event.ts < F := by
    simpa only [Option.any_eq_true, decide_eq_true_eq] using late
  have aligned : Aligned F := by
    cases opened : t.mem.currentHour with
    | none => exact h.floor F (by simpa [opened] using limit)
    | some cur =>
      obtain rfl : cur = F := by simpa [opened] using limit
      exact (h.current cur opened).1
  have before : event.ts < F := by
    have next := aligned_next (aligned_hourStart event.ts) aligned less
    have inside := lt_next_hour event.ts
    omega
  have finalized : ∀ g, (t'.disk.files g).finalized = true → (t.disk.files g).finalized = true :=
    fun g done => (calm.done g done).2
  have mem := calm.mem
  have landed := calm.landed
  have keeps : ∀ q, Accounted lost t q → Accounted lost' t' q := by
    intro q accounted
    unfold Accounted
    rw [landed, mem, buffer]
    exact accounted.imp id (Or.imp id (more q))
  have covered : ∀ q, due q → q.ts < F → Accounted lost' t' q :=
    fun q d less => keeps q (h.covered q d (.inr ⟨F, limit, less⟩))
  refine ⟨⟨⟨h.reached.trans reached, ?_, ?_, ?_, ?_, ?_⟩, ?_, ?_, ?_, ?_, ?_, ?_, ?_, ?_, ?_, ?_⟩, ?_⟩
  · exact calm.toShelf.mono fun g done => h.shelf.done g done.2
  · rw [landed]
    exact h.ascending
  · rw [landed]
    exact h.stamped
  · rw [landed]
    exact fun r there q d le => (h.passed r there q d le).imp id (more q)
  · rw [landed]
    exact fun g done q d le => (h.closed g (finalized g done) q d le).imp id (more q)
  · rw [mem, held]
    exact h.held
  · rw [landed, mem, buffer]
    exact h.ordered
  · rw [mem, buffer]
    exact h.buffered
  · rw [landed, mem, buffer, floor]
    exact fun r there => (h.marked r there).imp (fun le => by omega) id
  · rw [mem, buffer, current]
    exact h.own
  · rw [mem, current, floor]
    intro cur opened
    obtain ⟨aligned, past, done⟩ := h.current cur opened
    exact ⟨aligned, past, fun g yes => done g (finalized g yes)⟩
  · rw [mem, floor]
    exact h.floor
  · rw [mem, current, floor]
    exact fun none g done => h.idle none g (finalized g done)
  · rw [mem, current, floor]
    intro q d passed
    rcases passed with le | inside
    · exact covered q d (by omega)
    · exact keeps q (h.covered q d (.inr inside))
  · rw [mem, seen]
    intro k key
    obtain ⟨r, whose, same, le⟩ := h.seen k key
    exact ⟨r, whose, same, by omega⟩
  · rintro q (accounted | rfl)
    · exact keeps q accounted
    · exact covered q d before

/-- A writer that is killed in a call leaves what it had to keep. -/
theorem Alive.strand {done : Int → Prop} {offered b : List Row} (h : Alive symbol due lost mark now t)
    (reached : Reached t t')
    (stranded : Stranded w done t.asked (landedRows t.trace) b t.mem.buffer t')
    (bound : ∀ g, done g → Aligned g ∧ g ≤ now')
    (ordered : (landedRows t.trace ++ b).Pairwise fun a b => a.ts < b.ts)
    (stamped : ∀ r ∈ b, Stamped symbol r) (fewer : ∀ q, due' q → due q)
    (handled : ∀ q, due' q → ∀ r ∈ b, q.ts ≤ r.ts → q = r ∨ Accounted lost t q)
    (closed : ∀ q, due' q → ∀ g, (t'.disk.files g).finalized = true → hourStart q.ts ≤ g →
      Accounted lost t q)
    (loses : Loses w t offered t' lost lost') : Kept symbol due' lost' now' t' := by
  obtain ⟨j, c, landed, sub, buffer, later, all⟩ := stranded.split
  have sorted := ordered.sublist ((List.Sublist.refl (landedRows t.trace)).append sub)
  -- what was followed has landed, is lost, or is left behind what landed
  have followed : ∀ q, Accounted lost t q → q ∈ landedRows t'.trace ∨ lost' q ∨ q ∈ c := by
    rintro q (old | buffered | gone)
    · exact .inl (by rw [landed]; exact List.mem_append_left _ old)
    · rcases all q buffered with flushed | left | failed
      · exact .inl (by rw [landed]; exact List.mem_append_right _ flushed)
      · exact .inr (.inr left)
      · by_cases there : q ∈ landedRows t'.trace ∨ q ∈ c
        · exact there.elim .inl fun left => .inr (.inr left)
        · refine .inr (.inl (loses.gone q (List.mem_append_left _ buffered) ?_ (fun l => there (.inl l)) failed))
          intro kept
          rcases buffer q kept with flushed | left
          · exact there (.inl (by rw [landed]; exact List.mem_append_right _ flushed))
          · exact there (.inr left)
    · exact .inr (.inl (loses.more q gone))
  refine ⟨h.reached.trans reached, stranded.toShelf.mono bound, ?_, ?_, ?_, ?_⟩
  · rw [landed]
    exact sorted.sublist ((List.Sublist.refl _).append (List.sublist_append_left _ _))
  · intro r mem
    rw [landed] at mem
    rcases List.mem_append.mp mem with old | flushed
    · exact h.stamped r old
    · exact stamped r (sub.subset (List.mem_append_left _ flushed))
  · intro r mem q d before
    rw [landed] at mem
    rcases List.mem_append.mp mem with old | flushed
    · rcases h.passed r old q (fewer q d) before with there | gone
      · exact .inl (by rw [landed]; exact List.mem_append_left _ there)
      · exact .inr (loses.more q gone)
    · rcases handled q d r (sub.subset (List.mem_append_left _ flushed)) before with rfl | accounted
      · exact .inl (by rw [landed]; exact List.mem_append_right _ flushed)
      · rcases followed q accounted with there | gone | left
        · exact .inl there
        · exact .inr gone
        · have inside := (List.pairwise_append.mp sorted).2.1
          have less := (List.pairwise_append.mp inside).2.2 r flushed q left
          omega
  · intro g finalized q d before
    rcases followed q (closed q d g finalized before) with there | gone | left
    · exact .inl there
    · exact .inr gone
    · have less := later q left g finalized
      omega

/-- A row that comes after the mark and is not ahead of the clock, once every row before it that may
    still come has been followed: the writer that lives is past it, and one that is killed has kept
    what it must. -/
theorem Alive.append {event : Row} (h : Alive symbol due lost mark now t) (stamped : Stamped symbol event)
    (d : due event) (after : mark < event.ts) (le : event.ts ≤ now)
    (clock : event.ts ≤ w.clock t.asked) (oracle : w.oracle = false) (dedup : w.dedup = true)
    (handled : ∀ q, due q → q.ts < event.ts → Accounted lost t q)
    (same : ∀ q, due q → q.ts = event.ts → q = event) :
    wp w (Segments.append event)
      ⟨fun _ t' => t.asked ≤ t'.asked ∧ ∀ lost', Loses w t [event] t' lost lost' →
          Alive symbol due lost' event.ts now t' ∧
          ∀ q, Accounted lost t q ∨ q = event → Accounted lost' t' q,
        fun _ => False,
        fun t' => t.asked ≤ t'.asked ∧ ∀ lost', Loses w t [event] t' lost lost' →
          Kept symbol due lost' now t'⟩ t := by
  have moves := moves_append event t (.refl (a := t)) (w := w)
  cases late : (t.mem.currentHour.or t.mem.floor).any (hourStart event.ts < ·) with
  | true =>
    apply wp_mono (wp_both (wp_append_late clock late h.calm) moves)
    · rintro _ t' ⟨calm, reached⟩
      refine ⟨calm.since, fun lost' loses => ?_⟩
      exact h.refuse after d late reached calm rfl rfl rfl rfl rfl loses.more
    · exact fun _ h => h.1
    · exact fun _ h => h.1.elim
  | false =>
    have fresh : event.key ∉ t.mem.seen := by
      intro key
      obtain ⟨r, whose, same_key, before⟩ := h.seen _ key
      have equal := whose.ts_eq stamped same_key
      omega
    have new : ∀ q ∈ landedRows t.trace ++ t.mem.buffer, q.key ≠ event.key := by
      intro q mem same_key
      have whose : Stamped symbol q := by
        rcases List.mem_append.mp mem with first | last
        · exact h.stamped q first
        · exact h.buffered q last
      have equal := whose.ts_eq stamped same_key
      have less := h.earlier late after mem
      omega
    have accepted := wp_append oracle dedup clock late h.writable h.empty
      (fun cur opened => (h.current cur opened).1) (fun g => h.done_before late d) fresh new h.calm
    apply wp_mono (wp_both accepted moves)
    · rintro _ t' ⟨⟨entered, seen⟩, reached⟩
      refine ⟨entered.since, fun lost' loses => ⟨?_, ?_⟩⟩
      · exact h.enter stamped after le late handled same reached entered seen loses
      · exact fun q before => loses.accounted rfl entered.toCarried (before.imp id List.mem_singleton.mpr)
    · exact fun _ h => h.1
    · rintro t' ⟨stranded, reached⟩
      refine ⟨stranded.since, fun lost' loses => ?_⟩
      have start := hourStart_le event.ts
      have bound : ∀ g, Before (hourStart event.ts) g → Aligned g ∧ g ≤ now := by
        intro g before
        have early := before.2
        exact ⟨before.1, by omega⟩
      apply h.strand reached stranded bound (h.ordered_with late after) _ (fun _ d => d) _ _ loses
      · intro r mem
        rcases List.mem_append.mp mem with old | last
        · exact h.buffered r old
        · exact List.mem_singleton.mp last ▸ stamped
      · intro q comes r mem before
        rcases List.mem_append.mp mem with old | last
        · have less := h.earlier late after (List.mem_append_right _ old)
          exact .inr (handled q comes (by omega))
        · obtain rfl := List.mem_singleton.mp last
          rcases lt_or_eq_of_le before with less | equal
          · exact .inr (handled q comes less)
          · exact .inl (same q comes equal)
      · intro q d g finalized before
        exact handled q d (ts_lt_of_hour (stranded.done g finalized) before)

/- A sweep, and the close. -/

theorem aligned_next_hour {g : Int} (aligned : Aligned g) : Aligned (g + hourMicros) := by
  unfold Aligned hourMicros at *
  omega

/-- Hours that no row which may still come is in are swept. -/
theorem Alive.sweep {cutoff : Int} (h : Alive symbol due lost mark now t) (le : cutoff ≤ now)
    (fewer : ∀ q, due' q → due q)
    (past : ∀ q, due' q → ∀ g, Before cutoff g → g + hourMicros ≤ q.ts)
    (reached : Reached t t')
    (finalized : Finalized w (Done t) t.mem t.asked (landedRows t.trace) cutoff t')
    (loses : Loses w t [] t' lost lost') : Alive symbol due' lost' mark now t' := by
  obtain ⟨j, landed, sub, -⟩ := finalized.split
  have carried : Carried w (fun g => Done t g ∨ Before cutoff g) t.asked (landedRows t.trace)
      (t.mem.buffer ++ []) t' := by
    rw [List.append_nil]
    exact finalized.toCarried
  have keeps : ∀ q, Accounted lost t q → Accounted lost' t' q :=
    fun q accounted => loses.accounted rfl carried (.inl accounted)
  have rows : ∀ q ∈ landedRows t'.trace ++ t'.mem.buffer, q ∈ landedRows t.trace ++ t.mem.buffer := by
    intro q mem
    rw [landed, List.append_assoc] at mem
    exact ((List.Sublist.refl _).append sub).subset mem
  have stamps : ∀ q ∈ landedRows t'.trace ++ t'.mem.buffer, Stamped symbol q := by
    intro q mem
    rcases List.mem_append.mp (rows q mem) with first | last
    · exact h.stamped q first
    · exact h.buffered q last
  have ordered : (landedRows t'.trace ++ t'.mem.buffer).Pairwise fun a b => a.ts < b.ts := by
    rw [landed, List.append_assoc]
    exact h.ordered.sublist ((List.Sublist.refl _).append sub)
  have beyond : ∀ q, due' q → ∀ g, Before cutoff g → g < hourStart q.ts := by
    intro q d g before
    have start := hourStart_mono (past q d g before)
    have same : hourStart (g + hourMicros) = g + hourMicros := by
      have aligned := before.1
      unfold hourStart Aligned hourMicros at *
      omega
    rw [same] at start
    unfold hourMicros at start
    omega
  refine ⟨⟨h.reached.trans reached, ?_, ordered.sublist (List.sublist_append_left _ _),
    fun r mem => stamps r (List.mem_append_left _ mem), ?_, ?_⟩, ?_, ordered,
    fun r mem => stamps r (List.mem_append_right _ mem), ?_, ?_, ?_, ?_, ?_, ?_, ?_⟩
  · apply finalized.toShelf.mono
    rintro g (done | before)
    · exact h.shelf.done g done.2
    · exact ⟨before.1, (le_of_lt before.2).trans le⟩
  · intro r mem q d before
    have inside := rows r (List.mem_append_left _ mem)
    exact passed_of ordered mem before (keeps q (h.followed (fewer q d) inside before))
  · intro g done q d before
    rcases finalized.done g done with old | new
    · rcases h.closed g old.2 q (fewer q d) before with there | gone
      · exact .inl (by rw [landed]; exact List.mem_append_left _ there)
      · exact .inr (loses.more q gone)
    · have less := beyond q d g new
      omega
  · exact finalized.held.trans h.held
  · intro r mem
    rcases h.marked r (rows r mem) with before | ⟨F, floor, less⟩
    · exact .inl before
    · obtain ⟨F', floor', le'⟩ := finalized.raised F floor
      exact .inr ⟨F', floor', by omega⟩
  · intro r mem
    rcases finalized.current with ⟨current, buffer, -⟩ | ⟨-, empty, -⟩
    · rw [current]
      exact h.own r (buffer ▸ mem)
    · rw [empty] at mem
      cases mem
  · intro cur opened
    rcases finalized.current with ⟨current, -, late⟩ | ⟨none, -, -⟩
    · rw [current] at opened
      obtain ⟨aligned, past, done⟩ := h.current cur opened
      have cutoff_le := late cur opened
      refine ⟨aligned, ?_, ?_⟩
      · intro F floor
        rcases finalized.floor F floor with old | ⟨g, before, rfl⟩
        · exact past F old
        · exact aligned_next before.1 aligned (before.2.trans_le cutoff_le)
      · intro g yes
        rcases finalized.done g yes with old | new
        · exact done g old.2
        · exact new.2.trans_le cutoff_le
    · rw [none] at opened
      cases opened
  · intro F floor
    rcases finalized.floor F floor with old | ⟨g, before, rfl⟩
    · exact h.floor F old
    · exact aligned_next_hour before.1
  · intro none g yes
    rcases finalized.done g yes with old | new
    · rcases finalized.current with ⟨current, -, -⟩ | ⟨-, -, cur, opened, less⟩
      · rcases h.idle (current ▸ none) g old.2 with ⟨F, floor, before⟩ | all
        · obtain ⟨F', floor', le'⟩ := finalized.raised F floor
          exact .inl ⟨F', floor', by omega⟩
        · exact .inr fun q d => all q (fewer q d)
      · have before := (h.current cur opened).2.2 g old.2
        exact .inr fun q d => beyond q d g ⟨old.1, by omega⟩
    · exact .inr fun q d => beyond q d g new
  · intro q d passed
    rcases passed with before | ⟨F, limit, less⟩
    · exact keeps q (h.covered q (fewer q d) (.inl before))
    · cases opened : t'.mem.currentHour with
      | some cur =>
        obtain rfl : cur = F := by simpa [opened] using limit
        rcases finalized.current with ⟨current, -, -⟩ | ⟨none, -, -⟩
        · rw [current] at opened
          exact keeps q (h.covered q (fewer q d) (.inr ⟨cur, by simp [opened], less⟩))
        · rw [none] at opened
          cases opened
      | none =>
        have floor : t'.mem.floor = some F := by simpa [opened] using limit
        rcases finalized.floor F floor with old | ⟨g, before, rfl⟩
        · exact keeps q (h.before_floor (fewer q d) old less)
        · have after := past q d g before
          omega
  · rw [finalized.seen]
    exact h.seen

/-- A sweep that is killed. -/
theorem Alive.sweep_killed {cutoff : Int} (h : Alive symbol due lost mark now t) (le : cutoff ≤ now)
    (fewer : ∀ q, due' q → due q)
    (past : ∀ q, due' q → ∀ g, Before cutoff g → g + hourMicros ≤ q.ts)
    (reached : Reached t t')
    (stranded : Stranded w (fun g => Done t g ∨ Before cutoff g) t.asked (landedRows t.trace)
      t.mem.buffer t.mem.buffer t')
    (loses : Loses w t [] t' lost lost') : Kept symbol due' lost' now t' := by
  apply h.strand reached stranded _ h.ordered h.buffered fewer _ _ loses
  · rintro g (done | before)
    · exact h.shelf.done g done.2
    · exact ⟨before.1, (le_of_lt before.2).trans le⟩
  · exact fun q d r mem before => .inr (h.followed (fewer q d) (List.mem_append_right _ mem) before)
  · intro q d g finalized before
    rcases stranded.done g finalized with old | new
    · exact (h.closed g old.2 q (fewer q d) before).imp id .inr
    · have next := past q d g new
      have inside := lt_next_hour q.ts
      omega

/-- A close, whether or not it is killed. -/
theorem Alive.closes (h : Alive symbol due lost mark now t) (reached : Reached t t')
    (stranded : Stranded w (Done t) t.asked (landedRows t.trace) t.mem.buffer t.mem.buffer t')
    (loses : Loses w t [] t' lost lost') : Kept symbol due lost' now t' := by
  apply h.strand reached stranded _ h.ordered h.buffered (fun _ d => d) _ _ loses
  · exact fun g done => h.shelf.done g done.2
  · exact fun q d r mem before => .inr (h.followed d (List.mem_append_right _ mem) before)
  · exact fun q d g finalized before =>
      (h.closed g (stranded.done g finalized).2 q d before).imp id .inr

/- A start. -/

/-- A writer that was constructed and has been given nothing. -/
structure Built (symbol : String) (due lost : Row → Prop) (now : Int) (t : Tape) : Prop
    extends Kept symbol due lost now t where
  fresh : ∃ at_ F, t.mem = { Mem.fresh at_ with floor := F }
  behind : ∀ g, (t.disk.files g).finalized = true → ∃ F, t.mem.floor = some F ∧ g < F
  floor : ∀ F, t.mem.floor = some F → ∃ g, (t.disk.files g).finalized = true ∧ F = g + hourMicros

theorem Kept.landed_same (h : Kept symbol due lost now t) (reached : Reached t t')
    (shelf : Shelf (Done t) t') (same : landedRows t'.trace = landedRows t.trace) :
    Kept symbol due lost now t' := by
  refine ⟨h.reached.trans reached, shelf.mono fun g done => h.shelf.done g done.2, ?_, ?_, ?_, ?_⟩
  · rw [same]
    exact h.ascending
  · rw [same]
    exact h.stamped
  · rw [same]
    exact h.passed
  · rw [same]
    exact fun g done => h.closed g (shelf.done g done).2

theorem Kept.construct (h : Kept symbol due lost now t) (clock : ∀ i, t.asked ≤ i → now ≤ w.clock i) :
    wp w Segments.construct
      ⟨fun _ t' => t.asked ≤ t'.asked ∧ Built symbol due lost now t', fun _ => False,
        fun t' => t.asked ≤ t'.asked ∧ Kept symbol due lost now t'⟩ t := by
  have early : ∀ g, Done t g → ∀ i, t.asked ≤ i → g ≤ w.clock i :=
    fun g done i le => (h.shelf.done g done.2).2.trans (clock i le)
  have moves := moves_construct t (.refl (a := t)) (w := w)
  apply wp_mono (wp_both (wp_construct early h.calm.toShelf) moves)
  · rintro _ t' ⟨constructed, reached⟩
    have kept := h.landed_same reached constructed.toShelf constructed.landed
    exact ⟨constructed.since, kept, constructed.fresh, constructed.behind, constructed.floor⟩
  · exact fun _ h => h.1
  · rintro t' ⟨⟨m, calm⟩, reached⟩
    exact ⟨calm.since, h.landed_same reached calm.toShelf calm.landed⟩

theorem contents_blank : Contents Segments.System.blank.tape.disk Segments.System.blank.tape.trace :=
  fun hour => ⟨rfl, by simp [Segments.System.blank, HourFiles.blank], by simp [Segments.System.blank,
    HourFiles.blank], by simp [Segments.System.blank, HourFiles.blank]⟩

theorem Kept.contents (h : Kept symbol due lost now t) (spotless : Spotless t.disk) :
    Contents t.disk t.trace :=
  h.reached.contents contents_blank spotless h.shelf.filed

/-- What a reader of an hour sees has landed in it. -/
theorem Kept.visible_landed (h : Kept symbol due lost now t) (spotless : Spotless t.disk) {g : Int}
    {r : Row} (mem : r ∈ visible (t.disk.files g)) :
    r ∈ landedRows t.trace ∧ hourStart r.ts = g := by
  have contents := h.contents spotless g
  rcases List.mem_append.mp mem with final | parts
  · have inside : r ∈ landedIn g t.trace := by
      rw [← contents.stored]
      exact List.mem_append_left _ final
    rw [landedIn_eq h.shelf.filed] at inside
    simpa using List.mem_filter.mp inside
  · obtain ⟨p, part, row⟩ := List.mem_flatMap.mp parts
    obtain ⟨beside, landed⟩ := contents.parts p part
    exact ⟨h.shelf.inside g p part r row, (h.shelf.filed g p.rows beside landed).2.2 r row⟩

/-- An hour with a final or a part shows a row. -/
theorem Kept.visible_some (h : Kept symbol due lost now t) (spotless : Spotless t.disk) {g : Int}
    (some : (t.disk.files g).final.isSome = true ∨ (t.disk.files g).parts ≠ []) :
    visible (t.disk.files g) ≠ [] := by
  have contents := h.contents spotless g
  rcases some with final | parts
  · obtain ⟨m, same⟩ := Option.isSome_iff_exists.mp final
    have rows := contents.final
    intro nothing
    rw [visible, same] at nothing
    rw [same] at rows
    exact rows (by rw [(List.append_eq_nil_iff.mp nothing).1.symm]; rfl)
  · obtain ⟨p, part⟩ := List.exists_mem_of_ne_nil _ parts
    obtain ⟨beside, landed⟩ := contents.parts p part
    have rows := (h.shelf.filed g p.rows beside landed).2.1
    intro nothing
    exact rows (List.flatMap_eq_nil_iff.mp (List.append_eq_nil_iff.mp nothing).2 p part)

/-- A row that landed is in an hour that is merged or published, or a reader of its hour sees it. -/
theorem Kept.landed_where (h : Kept symbol due lost now t) (spotless : Spotless t.disk) {r : Row}
    (mem : r ∈ landedRows t.trace) :
    (t.disk.files (hourStart r.ts)).finalized = true ∨ r ∈ visible (t.disk.files (hourStart r.ts)) := by
  have contents := h.contents spotless (hourStart r.ts)
  have inside : r ∈ landedIn (hourStart r.ts) t.trace := by
    rw [landedIn_eq h.shelf.filed]
    exact List.mem_filter.mpr ⟨mem, by simp⟩
  rw [← contents.stored] at inside
  rcases List.mem_append.mp inside with final | rest
  · exact .inr (List.mem_append_left _ final)
  · cases merging : (t.disk.files (hourStart r.ts)).merging with
    | some m => exact .inl (by simp [HourFiles.finalized, merging])
    | none =>
      rw [merging] at rest
      exact .inr (List.mem_append_right _ rest)

/-- The newest hour with a final or a part. -/
theorem newestHour_spec {d : Disk} {N : Int} (newest : newestHour d = some N) :
    ((d.files N).final.isSome = true ∨ (d.files N).parts ≠ []) ∧
      ∀ g ∈ d.hours, (d.files g).final.isSome = true ∨ (d.files g).parts ≠ [] → g ≤ N := by
  have sorted : (d.hoursWith fun f => f.final.isSome || f.parts ≠ []).Pairwise (· ≤ ·) :=
    List.pairwise_insertionSort _ _
  have mem : ∀ g, g ∈ d.hoursWith (fun f => f.final.isSome || f.parts ≠ []) ↔
      g ∈ d.hours ∧ ((d.files g).final.isSome = true ∨ (d.files g).parts ≠ []) := by
    intro g
    simp [Disk.hoursWith]
  unfold newestHour at newest
  obtain ⟨before, split⟩ := List.getLast?_eq_some_iff.mp newest
  constructor
  · exact ((mem N).mp (by rw [split]; simp)).2
  · intro g listed some
    have inside := (mem g).mpr ⟨listed, some⟩
    rw [split] at inside sorted
    rcases List.mem_append.mp inside with first | last
    · exact (List.pairwise_append.mp sorted).2.2 g first N (by simp)
    · rw [List.mem_singleton.mp last]

theorem visible_from {f : HourFiles} {r : Row} (mem : r ∈ visible f) :
    f.final.isSome = true ∨ f.parts ≠ [] := by
  rcases List.mem_append.mp mem with final | parts
  · left
    cases same : f.final with
    | none =>
      rw [same] at final
      cases final
    | some rows => rfl
  · right
    intro none
    rw [none] at parts
    cases parts

theorem Kept.visible_listed (h : Kept symbol due lost now t) {g : Int} {r : Row}
    (mem : r ∈ visible (t.disk.files g)) : g ∈ t.disk.hours := by
  apply h.shelf.listed g
  exact (visible_from mem).imp (fun final => by simp [HourFiles.finalized, final]) id

/-- Where a reader sees a row there is a mark. -/
theorem Kept.mark_some (h : Kept symbol due lost now t) (spotless : Spotless t.disk) {g : Int} {r : Row}
    (mem : r ∈ visible (t.disk.files g)) : ∃ m, newestMark t.disk = some m := by
  have listed : g ∈ t.disk.hoursWith fun f => f.final.isSome || f.parts ≠ [] := by
    simpa [Disk.hoursWith] using ⟨h.visible_listed mem, visible_from mem⟩
  obtain ⟨N, hour⟩ : ∃ N, newestHour t.disk = some N :=
    Option.isSome_iff_exists.mp (List.getLast?_isSome.mpr (List.ne_nil_of_mem listed))
  have rows := h.visible_some spotless (newestHour_spec hour).1
  cases max : ((visible (t.disk.files N)).map Row.ts).max? with
  | none => exact absurd (List.map_eq_nil_iff.mp (List.max?_eq_none_iff.mp max)) rows
  | some M => exact ⟨M / second, by simp [newestMark, hour, max]⟩

/-- The mark that priming reads is past no row that landed but one of an hour that is merged or
    published, and is itself the stamp of one that landed. -/
theorem Built.mark_spec (h : Built symbol due lost now t) (spotless : Spotless t.disk) :
    (∀ r ∈ landedRows t.trace, (t.disk.files (hourStart r.ts)).finalized = true ∨
      ∃ m, newestMark t.disk = some m ∧ r.ts ≤ m * second) ∧
    ∀ m, newestMark t.disk = some m → ∃ r ∈ landedRows t.trace, r.ts = m * second := by
  have newest : ∀ m, newestMark t.disk = some m → ∃ N M, newestHour t.disk = some N ∧
      M ∈ (visible (t.disk.files N)).map Row.ts ∧
      (∀ ts ∈ (visible (t.disk.files N)).map Row.ts, ts ≤ M) ∧ M = m * second := by
    intro m same
    simp only [newestMark, Option.bind_eq_bind, Option.bind_eq_some_iff, Option.pure_def,
      Option.some.injEq] at same
    obtain ⟨N, hour, M, max, rfl⟩ := same
    obtain ⟨mem, all⟩ := List.max?_eq_some_iff.mp max
    refine ⟨N, M, hour, mem, all, ?_⟩
    obtain ⟨r, row, rfl⟩ := List.mem_map.mp mem
    obtain ⟨s, whole⟩ := (h.stamped r (h.visible_landed spotless row).1).whole
    rw [whole]
    unfold second
    omega
  constructor
  · intro r mem
    rcases h.landed_where spotless mem with done | seen
    · exact .inl done
    · obtain ⟨m, same⟩ := h.mark_some spotless seen
      obtain ⟨N, M, hour, last, all, rfl⟩ := newest m same
      refine .inr ⟨m, same, ?_⟩
      obtain ⟨v, row, newest_ts⟩ := List.mem_map.mp last
      have le := (newestHour_spec hour).2 _ (h.visible_listed seen) (visible_from seen)
      rcases lt_or_eq_of_le le with less | same_hour
      · obtain ⟨-, own⟩ := h.visible_landed spotless row
        have aligned : Aligned N := own ▸ aligned_hourStart v.ts
        have next := aligned_next (aligned_hourStart r.ts) aligned less
        have inside := lt_next_hour r.ts
        have start := hourStart_le v.ts
        rw [own] at start
        omega
      · exact all r.ts (List.mem_map_of_mem (same_hour ▸ seen))
  · intro m same
    obtain ⟨N, M, -, mem, -, rfl⟩ := newest m same
    obtain ⟨r, row, same⟩ := List.mem_map.mp mem
    exact ⟨r, (h.visible_landed spotless row).1, same⟩

/-- A writer whose mark was read off what is there. -/
theorem Built.alive (h : Built symbol due lost now t) (spotless : Spotless t.disk)
    (nonneg : ∀ q, due q → 0 ≤ q.ts) :
    Alive symbol due lost ((newestMark t.disk).getD (-1) * second) now t := by
  obtain ⟨at_, floor, mem⟩ := h.fresh
  obtain ⟨marked, mark⟩ := h.mark_spec spotless
  have current : t.mem.currentHour = none := by rw [mem]; rfl
  have buffer : t.mem.buffer = [] := by rw [mem]; rfl
  refine ⟨h.toKept, by rw [mem]; rfl, ?_, by simp [buffer], ?_, by simp [buffer], by simp [current], ?_, ?_,
    ?_, ?_⟩
  · rw [buffer, List.append_nil]
    exact h.ascending
  · rw [buffer, List.append_nil]
    intro r landed
    rcases marked r landed with done | ⟨m, same, le⟩
    · obtain ⟨F, floor, less⟩ := h.behind _ done
      obtain ⟨g, done', rfl⟩ := h.floor F floor
      have next := aligned_next (aligned_hourStart r.ts) (aligned_next_hour (h.shelf.done g done').1) less
      have inside := lt_next_hour r.ts
      exact .inr ⟨_, floor, by omega⟩
    · left
      rw [same]
      exact le
  · intro F floor
    obtain ⟨g, done, rfl⟩ := h.floor F floor
    exact aligned_next_hour (h.shelf.done g done).1
  · exact fun _ g done => .inl (h.behind g done)
  · intro q d passed
    rcases passed with le | ⟨F, limit, less⟩
    · cases same : newestMark t.disk with
      | none =>
        have positive := nonneg q d
        rw [same] at le
        unfold second at le
        simp at le
        omega
      | some m =>
        obtain ⟨r, landed, whole⟩ := mark m same
        rw [same] at le
        exact (h.passed r landed q d (by rw [whole]; exact le)).imp id .inr
    · rw [current, Option.none_or] at limit
      obtain ⟨g, done, rfl⟩ := h.floor F limit
      have aligned := (h.shelf.done g done).1
      have le : hourStart q.ts ≤ g := by
        unfold hourStart Aligned hourMicros at *
        omega
      exact (h.closed g done q d le).imp id .inr
  · rw [mem]
    simp [Mem.fresh]

end

end Coinalyze
