import Mathlib.Data.Finset.Card
import Mathlib.Data.List.Dedup
import Zcrypto.Capture.NoEarlyHour

/- The guard against stamps from the future. It refuses few distinct stamps between two it accepts, and
   what it judges the next row by changes with an accepted row only: the newest stamp taken stays where
   it was or is brought up to the row's own. -/
namespace Segments
open Effects Effects.Prog

/-- Both the clock and the stream find a stamp ahead of them. -/
def Mem.ahead (m : Mem) (now ts : Int) : Prop :=
  now + maxTsAhead < ts ∧
    ∀ newest, m.maxTs = some newest → newest + max (now - m.maxAt) 0 + maxTsAhead < ts

theorem implausible_iff {m : Mem} {now ts : Int} : m.implausible now ts = true ↔
    now + maxTsAbsurd < ts ∨ (m.drops < maxConsecutiveDrops ∧ m.ahead now ts) := by
  unfold Mem.implausible Mem.ahead
  split
  · rename_i absurd
    simp [absurd]
  · rename_i believed
    split
    · rename_i full
      simp [believed, not_lt.mpr full]
    · rename_i room
      cases m.maxTs with
      | none => simp [believed, not_le.mp room]
      | some newest => simp [believed, not_le.mp room, and_comm]

/-- The clock as the next row's judgement reads it. -/
def System.reads (w : World) (s : System) : Int := w.clock s.tape.asked

def System.refuses (w : World) (s : System) (event : Row) : Bool :=
  s.tape.mem.implausible (s.reads w) event.ts

section
variable {w : World} {s : System} {event : Row}

/-- What a call that returns makes of the process. -/
theorem answer_is {α : Type} {m : Seg α} {t : Tape} (alive : s.alive = true)
    (left : wp w m ⟨fun _ t' => t' = t, fun _ => False, fun _ => False⟩ s.tape) :
    s.answer w m = ⟨t, true⟩ := by
  unfold System.answer
  rw [if_pos alive]
  unfold wp at left
  generalize m w s.tape = out at *
  rcases out with ⟨_ | _ | _, t'⟩
  · exact congrArg (System.mk · true) left
  · exact left.elim
  · exact left.elim

theorem step_refused (alive : s.alive = true) (refused : s.refuses w event = true) :
    step w s (.append event) = ⟨{ s.tape with
      asked := s.tape.asked + 1, mem := s.tape.mem.refuse event.ts }, true⟩ := by
  unfold System.refuses System.reads at refused
  apply answer_is alive
  unfold append
  rw [wp_bind, wp_utcnow]
  dsimp only
  rw [wp_bind, wp_gets]
  dsimp only
  rw [wp_ite, if_pos refused]
  rfl

/-- What a call leaves behind where the process lives on. -/
theorem answer_lives {α : Type} {m : Seg α} {j d : Tape → Prop} (left : wp w m ⟨fun _ => j, j, d⟩ s.tape)
    (lives : (s.answer w m).alive = true) : j (s.answer w m).tape := by
  unfold System.answer at lives ⊢
  unfold wp at left
  split
  · rename_i alive
    rw [if_pos alive] at lives
    generalize m w s.tape = out at *
    rcases out with ⟨_ | _ | _, t⟩
    · exact left
    · exact left
    · cases lives
  · rename_i dead
    rw [if_neg dead] at lives
    exact absurd lives dead

theorem answer_alive {α : Type} {m : Seg α} (lives : (s.answer w m).alive = true) : s.alive = true := by
  unfold System.answer at lives
  split at lives
  · assumption
  · exact lives

end

/- What is in memory. -/

section
variable {w : World} {P : Mem → Prop} {hour : Int}

/-- An assertion about the memory that is kept. -/
abbrev Minds {α : Type} (w : World) (P : Mem → Prop) (m : Seg α) : Prop := Keeps w (fun t => P t.mem) m

/-- An assertion about the memory that is not about the open hour. -/
structure Indifferent (P : Mem → Prop) : Prop where
  buffer : ∀ m b, P m → P { m with buffer := b }
  currentHour : ∀ m h, P m → P { m with currentHour := h }
  seen : ∀ m keys, P m → P { m with seen := keys }
  heldSeen : ∀ m keys, P m → P { m with heldSeen := keys }
  floor : ∀ m f, P m → P { m with floor := f }

theorem minds_fileOp : Minds w P fileOp := keeps_fileOp fun _ _ _ h => h

theorem minds_utcnow : Minds w P utcnow := fun _ h => h

theorem minds_setMem {f : Mem → Mem} (h : ∀ m, P m → P (f m)) : Minds w P (setMem f) :=
  keeps_modify fun t kept => h t.mem kept

variable (hour) in
theorem minds_outlasts : Outlasts hour fun t => P t.mem :=
  ⟨fun _ _ _ h => h, fun _ _ h _ _ => h, fun _ _ h => h⟩

theorem minds_mergeHour (hour : Int) : Minds w P (mergeHour hour) := (minds_outlasts hour).mergeHour

theorem minds_sweep (before : Int) : Minds w P (sweep before) :=
  keeps_bind (keeps_gets _) fun _ => keeps_forEach fun hour => minds_mergeHour hour

theorem minds_writePart (rows : List Row) (hour : Int) (marker : Marker) :
    Minds w P (writePart rows hour marker) := by
  unfold writePart
  apply keeps_attempt _ (keeps_pure _)
  apply keeps_bind minds_fileOp
  intro _
  apply keeps_bind
  · exact keeps_modify fun t h => h
  intro _
  apply keeps_bind minds_fileOp
  intro _
  apply keeps_bind _ fun _ => keeps_pure _
  apply (minds_outlasts hour).replaceDurably
  intro t h
  cases marker with
  | part => exact h
  | held => exact h

theorem minds_diskKeys (files : List File) : Minds w P (diskKeys files) := by
  unfold diskKeys
  apply keeps_ite (fun _ => keeps_pure _)
  intro _
  apply keeps_attempt (keeps_bind minds_fileOp fun _ => keeps_pure _)
  apply keeps_bind _ fun _ => keeps_pure _
  apply keeps_collect
  intro file
  exact keeps_attempt (keeps_bind minds_fileOp fun _ => keeps_pure _) (keeps_pure _)

theorem minds_redeemHeld (hour : Int) : Minds w P (redeemHeld hour) := by
  unfold redeemHeld
  apply keeps_bind (keeps_gets _)
  intro f
  apply keeps_forEach
  intro file
  apply keeps_attempt _ (keeps_pure _)
  exact keeps_bind minds_fileOp fun _ => keeps_modify fun t h => h

theorem minds_flushBuffer (indifferent : Indifferent P) : Minds w P flushBuffer := by
  unfold flushBuffer
  apply keeps_bind (keeps_gets _)
  intro m
  apply keeps_ite (fun _ => keeps_pure _)
  intro _
  apply keeps_bind (keeps_orRaise _)
  intro hour
  apply keeps_bind (minds_writePart _ _ _)
  intro _
  exact minds_setMem fun m => indifferent.buffer m []

theorem minds_finalizeHour (indifferent : Indifferent P) (hour : Int) : Minds w P (finalizeHour hour) :=
  keeps_bind (minds_flushBuffer indifferent) fun _ => minds_mergeHour hour

theorem minds_openHour (indifferent : Indifferent P) (hour : Int) : Minds w P (openHour hour) := by
  unfold openHour
  apply keeps_bind (minds_setMem fun m => indifferent.currentHour m _)
  intro _
  apply keeps_bind (minds_redeemHeld hour)
  intro _
  apply keeps_bind (minds_setMem fun m => indifferent.seen m _)
  intro _
  apply keeps_bind (keeps_env _)
  intro dedup
  apply keeps_ite _ fun _ => keeps_pure _
  intro _
  apply keeps_bind (keeps_gets _)
  intro f
  exact keeps_bind (minds_diskKeys _) fun keys => minds_setMem fun m => indifferent.seen m keys

theorem minds_enterHour (indifferent : Indifferent P) (hour : Int) : Minds w P (enterHour hour) := by
  unfold enterHour
  apply keeps_bind (keeps_gets _)
  intro m
  cases m.currentHour with
  | none => exact keeps_bind (minds_sweep hour) fun _ => minds_openHour indifferent hour
  | some current =>
    apply keeps_ite _ fun _ => keeps_pure _
    intro _
    exact keeps_bind (minds_finalizeHour indifferent current) fun _ => minds_openHour indifferent hour

/-- A stamp that is not past the newest one leaves it where it is. -/
theorem minds_anchor {ts : Int} (low : ∀ m, P m → ∃ newest, m.maxTs = some newest ∧ ts ≤ newest) :
    Minds w P (anchor ts) := by
  unfold anchor
  apply keeps_gets_bind
  intro t h
  obtain ⟨newest, same, le⟩ := low t.mem h
  rw [wp_ite, if_neg (by simpa [same] using le)]
  exact h

theorem minds_store (indifferent : Indifferent P) {event : Row} (anchored : Minds w P (anchor event.ts)) :
    Minds w P (store event) := by
  unfold store
  apply keeps_bind anchored
  intro _
  apply keeps_bind (minds_setMem fun m => indifferent.buffer m _)
  intro _
  apply keeps_bind (keeps_gets _)
  intro m
  apply keeps_bind (keeps_env _)
  intro flushRows
  exact keeps_when (minds_flushBuffer indifferent)

theorem minds_admitRow (indifferent : Indifferent P) {event : Row} (anchored : Minds w P (anchor event.ts)) :
    Minds w P (admitRow event) := by
  unfold admitRow
  apply keeps_bind (keeps_gets _)
  intro m
  apply keeps_bind (keeps_env _)
  intro dedup
  apply keeps_ite _ fun _ => minds_store indifferent anchored
  intro _
  apply keeps_ite (fun _ => keeps_pure _)
  intro _
  apply keeps_bind (minds_setMem fun m => indifferent.seen m _)
  exact fun _ => minds_store indifferent anchored

theorem minds_heldKeys (indifferent : Indifferent P) (hour : Int) : Minds w P (heldKeys hour) := by
  unfold heldKeys
  apply keeps_bind (keeps_gets _)
  intro m
  cases m.heldSeen.lookup hour with
  | some keys => exact keeps_pure keys
  | none =>
    apply keeps_bind (keeps_gets _)
    intro f
    apply keeps_bind (minds_diskKeys _)
    intro keys
    exact keeps_bind (minds_setMem fun m => indifferent.heldSeen m _) fun _ => keeps_pure _

theorem minds_close (indifferent : Indifferent P) (dropped : ∀ m, P m → P { m with held := [], heldSeen := [] }) :
    Minds w P close := by
  unfold close
  apply keeps_bind (minds_flushBuffer indifferent)
  intro _
  apply keeps_bind (keeps_gets _)
  intro m
  apply keeps_bind _ fun _ => minds_setMem dropped
  apply keeps_forEach
  intro held
  exact keeps_when (keeps_bind (minds_writePart _ _ _) fun _ => keeps_pure _)

theorem minds_attemptHour {finalize : Seg Unit} (h : Minds w P finalize) (hour : Int) :
    Minds w P (attemptHour hour finalize) := by
  unfold attemptHour
  apply keeps_bind (keeps_gets _)
  intro before
  apply keeps_bind h
  intro _
  exact keeps_bind (keeps_gets _) fun _ => keeps_pure _

theorem minds_finalizeCompletedHours (indifferent : Indifferent P) (cutoff : Int) :
    Minds w P (finalizeCompletedHours cutoff) := by
  unfold finalizeCompletedHours finalizeOpen
  apply keeps_bind (keeps_env _)
  intro oracle
  apply keeps_ite (fun _ => keeps_raise)
  intro _
  apply keeps_bind
  · apply keeps_bind (keeps_gets _)
    intro m
    cases m.currentHour.filter (· < cutoff) with
    | none => exact keeps_pure _
    | some hour =>
      apply keeps_bind (minds_attemptHour (minds_finalizeHour indifferent hour) hour)
      intro attempted
      exact keeps_bind (minds_setMem fun m => indifferent.currentHour m _) fun _ => keeps_pure _
  intro opened
  apply keeps_bind (keeps_gets _)
  intro stuck
  apply keeps_bind (keeps_gets _)
  intro left
  apply keeps_bind (keeps_collect fun hour => minds_attemptHour (minds_mergeHour hour) hour)
  intro swept
  exact keeps_bind (minds_setMem fun m => indifferent.floor m _) fun _ => keeps_pure _

/-- A new writer starts from a fresh memory. -/
theorem minds_construct (indifferent : Indifferent P) (fresh : ∀ now, P (Mem.fresh now)) (t : Tape) :
    wp w construct ⟨fun _ t => P t.mem, fun t => P t.mem, fun _ => True⟩ t := by
  have recovers : Minds w P recover := by
    unfold recover
    apply keeps_bind (keeps_gets _)
    intro hours
    apply keeps_bind
    · exact keeps_forEach fun hour => keeps_attempt (minds_outlasts hour).recoverHour (keeps_pure _)
    intro _
    apply keeps_bind (keeps_gets _)
    intro segments
    apply keeps_bind (keeps_collect fun hour => keeps_bind minds_utcnow fun _ => keeps_pure _)
    exact fun closed => minds_setMem fun m => indifferent.floor m _
  show wp w recover _ { t with asked := t.asked + 1, mem := Mem.fresh (w.clock t.asked) }
  exact wp_mono (recovers _ (fresh _)) (fun _ _ h => h) (fun _ h => h) fun _ _ => trivial

end

/- A row. -/

section
variable {w : World} {s : System} {m₀ : Mem} {event : Row} {ts : Int}

/-- Every row that is held was taken as the newest one or before it. -/
def Mem.Behind (m : Mem) : Prop :=
  ∀ e ∈ m.held, ∀ r ∈ e.2, ∃ newest, m.maxTs = some newest ∧ r.ts ≤ newest

/-- The guard as it was, beside rows that were held before. -/
structure Guarded (m₀ m : Mem) : Prop where
  drops : m.drops = m₀.drops
  lastDropTs : m.lastDropTs = m₀.lastDropTs
  maxTs : m.maxTs = m₀.maxTs
  maxAt : m.maxAt = m₀.maxAt
  held : ∀ e ∈ m.held, ∀ r ∈ e.2, ∃ e' ∈ m₀.held, r ∈ e'.2

/-- The guard with its newest stamp brought up to a row's own. -/
structure Raised (m₀ : Mem) (ts : Int) (m : Mem) : Prop where
  drops : m.drops = m₀.drops
  lastDropTs : m.lastDropTs = m₀.lastDropTs
  maxTs : ∃ newest, m.maxTs = some newest ∧ ts ≤ newest ∧ ∀ old, m₀.maxTs = some old → old ≤ newest
  held : ∀ e ∈ m.held, ∀ r ∈ e.2, r.ts = ts ∨ ∃ e' ∈ m₀.held, r ∈ e'.2

/-- What an accepted row may make of the guard. -/
def Passed (m₀ : Mem) (ts : Int) (m : Mem) : Prop := Guarded m₀ m ∨ Raised m₀ ts m

theorem indifferent_guarded : Indifferent (Guarded m₀) :=
  ⟨fun _ _ h => ⟨h.1, h.2, h.3, h.4, h.5⟩, fun _ _ h => ⟨h.1, h.2, h.3, h.4, h.5⟩,
    fun _ _ h => ⟨h.1, h.2, h.3, h.4, h.5⟩, fun _ _ h => ⟨h.1, h.2, h.3, h.4, h.5⟩,
    fun _ _ h => ⟨h.1, h.2, h.3, h.4, h.5⟩⟩

theorem indifferent_raised : Indifferent (Raised m₀ ts) :=
  ⟨fun _ _ h => ⟨h.1, h.2, h.3, h.4⟩, fun _ _ h => ⟨h.1, h.2, h.3, h.4⟩, fun _ _ h => ⟨h.1, h.2, h.3, h.4⟩,
    fun _ _ h => ⟨h.1, h.2, h.3, h.4⟩, fun _ _ h => ⟨h.1, h.2, h.3, h.4⟩⟩

theorem Passed.behind {m : Mem} (h : Passed m₀ ts m) (behind : m₀.Behind) : m.Behind := by
  intro e mem r row
  rcases h with same | more
  · obtain ⟨e', mem', row'⟩ := same.held e mem r row
    rw [same.maxTs]
    exact behind e' mem' r row'
  · obtain ⟨newest, is, le, later⟩ := more.maxTs
    refine ⟨newest, is, ?_⟩
    rcases more.held e mem r row with own | ⟨e', mem', row'⟩
    · exact own ▸ le
    · obtain ⟨old, was, below⟩ := behind e' mem' r row'
      exact below.trans (later old was)

theorem mem_heldRows {held : List (Int × List Row)} {hour : Int} {r : Row}
    (row : r ∈ (held.lookup hour).getD []) : ∃ e ∈ held, r ∈ e.2 := by
  cases found : held.lookup hour with
  | none =>
    rw [found] at row
    cases row
  | some rows =>
    rw [found] at row
    obtain ⟨before, after, split, -⟩ := List.lookup_eq_some_iff.mp found
    exact ⟨(hour, rows), by simp [split], row⟩

/-- A row that had been held leaves the guard as it is. -/
theorem guarded_admitRow (behind : m₀.Behind) {e : Int × List Row} (mem : e ∈ m₀.held) (row : event ∈ e.2) :
    Minds w (Guarded m₀) (admitRow event) := by
  apply minds_admitRow indifferent_guarded
  apply minds_anchor
  intro m h
  rw [h.maxTs]
  exact behind e mem event row

theorem guarded_drain (behind : m₀.Behind) (hour : Int) : Minds w (Guarded m₀) (drain hour) := by
  unfold drain
  apply keeps_gets_bind
  intro t start
  have known : ∀ r ∈ (t.mem.held.lookup hour).getD [], ∃ e ∈ m₀.held, r ∈ e.2 := by
    intro r row
    obtain ⟨e, mem, inside⟩ := mem_heldRows row
    exact start.held e mem r inside
  apply keeps_bind _ _ t start
  · apply minds_setMem
    intro m h
    refine ⟨h.drops, h.lastDropTs, h.maxTs, h.maxAt, ?_⟩
    exact fun e mem => h.held e (List.mem_of_mem_filter mem)
  intro _
  apply keeps_bind (minds_enterHour indifferent_guarded hour)
  intro _
  apply keeps_forEach_mem
  intro r row
  obtain ⟨e, mem, inside⟩ := known r row
  exact guarded_admitRow behind mem inside

theorem raised_anchor {d : Tape → Prop} (m₁ : Mem)
    (same : m₁.drops = m₀.drops ∧ m₁.lastDropTs = m₀.lastDropTs ∧ m₁.maxTs = m₀.maxTs)
    (held : ∀ e ∈ m₁.held, ∀ r ∈ e.2, r.ts = ts ∨ ∃ e' ∈ m₀.held, r ∈ e'.2)
    (t : Tape) (is : t.mem = m₁) :
    wp w (anchor ts) ⟨fun _ t => Raised m₀ ts t.mem, fun _ => False, d⟩ t := by
  subst is
  unfold anchor
  rw [wp_bind, wp_gets]
  dsimp only
  rw [wp_ite]
  split
  · rename_i past
    rw [wp_bind, wp_utcnow]
    refine ⟨same.1, same.2.1, ⟨ts, rfl, le_refl ts, ?_⟩, held⟩
    intro old was
    rw [same.2.2, was] at past
    simpa using le_of_lt (by simpa using past)
  · rename_i low
    refine ⟨same.1, same.2.1, ?_, held⟩
    rw [same.2.2] at low ⊢
    cases was : m₀.maxTs with
    | none => simp [was] at low
    | some newest =>
      rw [was] at low
      refine ⟨newest, rfl, by simpa using low, ?_⟩
      rintro old ⟨⟩
      exact le_refl _

/-- A row of its own either leaves the guard as it was or raises it. -/
theorem passed_admitRow (t : Tape) (start : Guarded m₀ t.mem) :
    wp w (admitRow event) ⟨fun _ t => Passed m₀ event.ts t.mem, fun t => Passed m₀ event.ts t.mem,
      fun _ => True⟩ t := by
  have stores (t : Tape) (start : Guarded m₀ t.mem) : wp w (store event)
      ⟨fun _ t => Passed m₀ event.ts t.mem, fun t => Passed m₀ event.ts t.mem, fun _ => True⟩ t := by
    have rest : Minds w (Raised m₀ event.ts) (do
        setMem fun m => { m with buffer := m.buffer ++ [event] }
        let m ← gets Tape.mem
        let flushRows ← env World.flushRows
        when (flushRows ≤ m.buffer.length) flushBuffer) := by
      apply keeps_bind
      · exact minds_setMem fun m h => indifferent_raised.buffer m (m.buffer ++ [event]) h
      intro _
      apply keeps_bind (keeps_gets _)
      intro m
      apply keeps_bind (keeps_env _)
      intro flushRows
      exact keeps_when (minds_flushBuffer indifferent_raised)
    unfold store
    rw [wp_bind]
    apply wp_mono (raised_anchor t.mem ⟨start.drops, start.lastDropTs, start.maxTs⟩
      (fun e mem r row => .inr (start.held e mem r row)) t rfl)
    · exact fun _ t h => wp_mono (rest t h) (fun _ _ h => .inr h) (fun _ h => .inr h) fun _ _ => trivial
    · exact fun _ h => h.elim
    · exact fun _ h => h
  unfold admitRow
  rw [wp_bind, wp_gets]
  dsimp only
  rw [wp_bind, wp_env]
  dsimp only
  rw [wp_ite]
  split
  · rw [wp_ite]
    split
    · exact .inl start
    · rw [wp_bind]
      exact stores _ (indifferent_guarded.seen _ _ start)
  · exact stores t start

theorem mem_assign_rows {xs : List (Int × List Row)} {hour : Int} {rows : List Row} {e : Int × List Row}
    (mem : e ∈ assign xs hour rows) : e.2 = rows ∨ e ∈ xs := by
  unfold assign at mem
  split at mem
  · obtain ⟨old, inside, rfl⟩ := List.mem_map.mp mem
    split
    · exact .inl rfl
    · exact .inr inside
  · rcases List.mem_append.mp mem with inside | last
    · exact .inr inside
    · exact .inl (by rw [List.mem_singleton.mp last])

theorem raised_park {hour : Int} (t : Tape) (start : Guarded m₀ t.mem) :
    wp w (park hour event) ⟨fun _ t => Raised m₀ event.ts t.mem, fun t => Raised m₀ event.ts t.mem,
      fun _ => True⟩ t := by
  have rest : Minds w (Raised m₀ event.ts) (do
      let m ← gets Tape.mem
      let flushRows ← env World.flushRows
      let rows := (m.held.lookup hour).getD []
      when (flushRows ≤ rows.length) do
        let _ ← writePart rows hour .held
        setMem fun m => { m with held := assign m.held hour [] }) := by
    apply keeps_bind (keeps_gets _)
    intro m
    apply keeps_bind (keeps_env _)
    intro flushRows
    apply keeps_when
    apply keeps_bind (minds_writePart _ _ _)
    intro _
    apply minds_setMem
    intro m h
    refine ⟨h.drops, h.lastDropTs, h.maxTs, ?_⟩
    intro e mem r row
    rcases mem_assign_rows mem with empty | inside
    · rw [empty] at row
      cases row
    · exact h.held e inside r row
  unfold park setMem
  rw [wp_bind, wp_modify]
  dsimp only
  rw [wp_bind]
  refine wp_mono (raised_anchor { t.mem with
      held := assign t.mem.held hour ((t.mem.held.lookup hour).getD [] ++ [event]) }
      ⟨start.drops, start.lastDropTs, start.maxTs⟩ ?_ _ rfl) ?_ (fun _ h => h.elim) fun _ h => h
  · intro e mem r row
    rcases mem_assign_rows mem with filled | inside
    · rw [filled] at row
      rcases List.mem_append.mp row with old | own
      · obtain ⟨e', mem', inside⟩ := mem_heldRows old
        exact .inr (start.held e' mem' r inside)
      · exact .inl (by rw [List.mem_singleton.mp own])
    · exact .inr (start.held e inside r row)
  · exact fun _ t h => wp_mono (rest t h) (fun _ _ h => h) (fun _ h => h) fun _ _ => trivial

theorem passed_hold {hour : Int} (t : Tape) (start : Guarded m₀ t.mem) :
    wp w (hold hour event) ⟨fun _ t => Passed m₀ event.ts t.mem, fun t => Passed m₀ event.ts t.mem,
      fun _ => True⟩ t := by
  have parks (t : Tape) (start : Guarded m₀ t.mem) : wp w (park hour event)
      ⟨fun _ t => Passed m₀ event.ts t.mem, fun t => Passed m₀ event.ts t.mem, fun _ => True⟩ t :=
    wp_mono (raised_park t start) (fun _ _ h => .inr h) (fun _ h => .inr h) fun _ h => h
  unfold hold
  rw [wp_bind, wp_env]
  dsimp only
  rw [wp_ite]
  split
  · rw [wp_bind]
    refine wp_mono (minds_heldKeys indifferent_guarded hour t start) ?_ (fun _ h => .inl h) fun _ _ => trivial
    intro keys t' start'
    dsimp only
    rw [wp_ite]
    split
    · exact .inl start'
    · rw [wp_bind]
      exact parks _ (indifferent_guarded.heldSeen _ _ start')
  · exact parks t start

theorem passed_corroborate {hour : Int} (behind : m₀.Behind) (t : Tape) (start : Guarded m₀ t.mem) :
    wp w (corroborate hour event) ⟨fun _ t => Passed m₀ event.ts t.mem,
      fun t => Passed m₀ event.ts t.mem, fun _ => True⟩ t := by
  unfold corroborate
  rw [wp_bind]
  show wp w _ _ { t with asked := t.asked + 1 }
  rw [wp_bind, wp_gets]
  dsimp only
  rw [wp_bind]
  have drains (hours : List Int) : Minds w (Guarded m₀) (forEach hours drain) :=
    keeps_forEach fun hour => guarded_drain behind hour
  refine wp_mono (drains _ _ start) ?_ (fun _ h => .inl h) fun _ _ => trivial
  intro _ t' start'
  dsimp only
  rw [wp_ite]
  split
  · rw [wp_bind]
    refine wp_mono (minds_enterHour indifferent_guarded hour t' start') ?_ (fun _ h => .inl h)
      fun _ _ => trivial
    exact fun _ t h => passed_admitRow t h
  · exact passed_hold t' start'

/-- The guard re-armed. -/
def Mem.rearm (m : Mem) : Mem := { m with drops := 0, lastDropTs := none }

theorem passed_append (t : Tape) (behind : t.mem.Behind)
    (accepted : t.mem.implausible (w.clock t.asked) event.ts = false) :
    wp w (append event) ⟨fun _ t' => Passed t.mem.rearm event.ts t'.mem,
      fun t' => Passed t.mem.rearm event.ts t'.mem, fun _ => True⟩ t := by
  have start : Guarded t.mem.rearm t.mem.rearm := ⟨rfl, rfl, rfl, rfl, fun e mem r row => ⟨e, mem, row⟩⟩
  have behind : t.mem.rearm.Behind := behind
  unfold append
  rw [wp_bind, wp_utcnow]
  dsimp only
  rw [wp_bind, wp_gets]
  dsimp only
  rw [wp_ite, if_neg (by simp [accepted]), wp_bind]
  show wp w _ _ { t with asked := t.asked + 1, mem := t.mem.rearm }
  rw [wp_ite]
  split
  · exact .inl start
  · rw [wp_bind, wp_env]
    dsimp only
    rw [wp_ite]
    split
    · exact passed_corroborate behind _ start
    · rw [wp_bind]
      refine wp_mono (minds_enterHour indifferent_guarded _ _ start) ?_ (fun _ h => .inl h) fun _ _ => trivial
      exact fun _ t h => passed_admitRow t h

end

/- Runs. -/

section
variable {w : World} {s : System} {event : Row}

theorem Mem.Behind.refuse {m : Mem} (behind : m.Behind) (ts : Int) : (m.refuse ts).Behind := by
  unfold Mem.refuse
  split
  · exact behind
  · exact behind

theorem step_accepted (behind : s.tape.mem.Behind) (accepted : s.refuses w event = false)
    (lives : (step w s (.append event)).alive = true) :
    Passed s.tape.mem.rearm event.ts (step w s (.append event)).tape.mem :=
  answer_lives (passed_append s.tape behind accepted) lives

theorem indifferent_behind : Indifferent Mem.Behind :=
  ⟨fun _ _ h => h, fun _ _ h => h, fun _ _ h => h, fun _ _ h => h, fun _ _ h => h⟩

theorem step_behind {input : Input} (behind : s.alive = true → s.tape.mem.Behind)
    (lives : (step w s input).alive = true) : (step w s input).tape.mem.Behind := by
  cases input with
  | start =>
    have built := minds_construct (w := w) indifferent_behind (fun now e mem => by cases mem) s.tape
    exact answer_lives (s := ⟨s.tape, true⟩) built lives
  | append event =>
    have alive := answer_alive lives
    cases refused : s.refuses w event with
    | true =>
      rw [step_refused alive refused]
      exact (behind alive).refuse event.ts
    | false => exact (step_accepted (behind alive) refused lives).behind (behind alive)
  | close =>
    have closed : Minds w Mem.Behind close :=
      minds_close indifferent_behind fun m _ e mem => by cases mem
    exact answer_lives (closed s.tape (behind (answer_alive lives))) lives
  | finalizeCompletedHours cutoff =>
    have finalized := minds_finalizeCompletedHours (w := w) indifferent_behind cutoff
    exact answer_lives (finalized s.tape (behind (answer_alive lives))) lives

theorem run_behind (w : World) (inputs : List Input) (alive : (run w inputs).alive = true) :
    (run w inputs).tape.mem.Behind := by
  induction inputs using List.reverseRecOn with
  | nil => cases alive
  | append_singleton inputs input ih =>
    unfold run at ih alive ⊢
    rw [List.foldl_concat] at alive ⊢
    exact step_behind ih alive

/-- The stamps less than a day ahead of the clock that a writer refuses before the next one it accepts. -/
def refusals (w : World) : System → List Input → List Int
  | _, [] => []
  | _, .start :: _ => []
  | s, .append event :: rest =>
    if s.alive && s.refuses w event then
      if s.reads w + maxTsAbsurd < event.ts then refusals w (step w s (.append event)) rest
      else event.ts :: refusals w (step w s (.append event)) rest
    else []
  | s, .close :: rest => refusals w (step w s .close) rest
  | s, .finalizeCompletedHours cutoff :: rest => refusals w (step w s (.finalizeCompletedHours cutoff)) rest

theorem refusals_dead {later : List Input} (dead : s.alive = false) : refusals w s later = [] := by
  induction later with
  | nil => rfl
  | cons input rest ih =>
    cases input with
    | start => rfl
    | append event => simp [refusals, dead]
    | close =>
      have same : step w s .close = s := by simp [step, System.answer, dead]
      rw [refusals, same, ih]
    | finalizeCompletedHours cutoff =>
      have same : step w s (.finalizeCompletedHours cutoff) = s := by simp [step, System.answer, dead]
      rw [refusals, same, ih]

/-- What is neither a row nor a new writer leaves the run of refusals as it is. -/
theorem step_drops {input : Input} (quiet : input = .close ∨ ∃ cutoff, input = .finalizeCompletedHours cutoff)
    (lives : (step w s input).alive = true) :
    (step w s input).tape.mem.drops = s.tape.mem.drops ∧
      (step w s input).tape.mem.lastDropTs = s.tape.mem.lastDropTs := by
  let Same : Mem → Prop := fun m => m.drops = s.tape.mem.drops ∧ m.lastDropTs = s.tape.mem.lastDropTs
  have indifferent : Indifferent Same :=
    ⟨fun _ _ h => h, fun _ _ h => h, fun _ _ h => h, fun _ _ h => h, fun _ _ h => h⟩
  have start : Same s.tape.mem := ⟨rfl, rfl⟩
  rcases quiet with rfl | ⟨cutoff, rfl⟩
  · exact answer_lives (minds_close indifferent (fun _ h => h) s.tape start) lives
  · exact answer_lives (minds_finalizeCompletedHours indifferent cutoff s.tape start) lives

/-- A full run refuses nothing less than a day ahead. -/
theorem refusals_full (later : List Input) (full : maxConsecutiveDrops ≤ s.tape.mem.drops) :
    refusals w s later = [] := by
  induction later generalizing s with
  | nil => rfl
  | cons input rest ih =>
    have quiet (input : Input) (is : input = .close ∨ ∃ cutoff, input = .finalizeCompletedHours cutoff) :
        refusals w (step w s input) rest = [] := by
      cases lives : (step w s input).alive with
      | false => exact refusals_dead lives
      | true => exact ih (by rwa [(step_drops is lives).1])
    cases input with
    | start => rfl
    | append event =>
      unfold refusals
      split
      · rename_i both
        rw [Bool.and_eq_true] at both
        have grown : s.tape.mem.drops ≤ (s.tape.mem.refuse event.ts).drops := by
          unfold Mem.refuse
          split
          · exact le_refl _
          · exact Nat.le_succ _
        split
        · rw [step_refused both.1 both.2]
          exact ih (full.trans grown)
        · rename_i believed
          rcases implausible_iff.mp both.2 with absurd_ | ⟨room, -⟩
          · exact absurd absurd_ believed
          · omega
      · rfl
    | close => exact quiet _ (.inl rfl)
    | finalizeCompletedHours cutoff => exact quiet _ (.inr ⟨cutoff, rfl⟩)

theorem card_insert_room {ts : Int} {tail : List Int} {n : Nat}
    (h : tail.toFinset.card ≤ n + if ts ∈ tail then 1 else 0) : (insert ts tail.toFinset).card ≤ n + 1 := by
  by_cases inside : ts ∈ tail
  · rw [if_pos inside] at h
    rwa [Finset.insert_eq_of_mem (List.mem_toFinset.mpr inside)]
  · rw [if_neg inside] at h
    exact (Finset.card_insert_le _ _).trans (Nat.succ_le_succ h)

/-- Each distinct stamp that is refused takes one of the places left, but for the last one again. -/
theorem refusals_card (later : List Input) : (refusals w s later).toFinset.card ≤
    (maxConsecutiveDrops - s.tape.mem.drops) +
      if ∃ ts ∈ refusals w s later, s.tape.mem.lastDropTs = some ts then 1 else 0 := by
  induction later generalizing s with
  | nil => simp [refusals]
  | cons input rest ih =>
    have quiet (input : Input) (is : input = .close ∨ ∃ cutoff, input = .finalizeCompletedHours cutoff) :
        (refusals w (step w s input) rest).toFinset.card ≤ (maxConsecutiveDrops - s.tape.mem.drops) +
          if ∃ ts ∈ refusals w (step w s input) rest, s.tape.mem.lastDropTs = some ts then 1 else 0 := by
      cases lives : (step w s input).alive with
      | false => simp [refusals_dead lives]
      | true =>
        rw [← (step_drops is lives).1, ← (step_drops is lives).2]
        exact ih
    cases input with
    | start => simp [refusals]
    | append event =>
      unfold refusals
      split
      · rename_i both
        rw [Bool.and_eq_true] at both
        have later := ih (s := step w s (.append event))
        by_cases full : maxConsecutiveDrops ≤ s.tape.mem.drops
        · have none := refusals_full (w := w) (.append event :: rest) full
          unfold refusals at none
          rw [if_pos (by rw [both.1, both.2]; rfl)] at none
          rw [none]
          simp
        have refused := step_refused both.1 both.2
        generalize refusals w (step w s (.append event)) rest = tail at later ⊢
        rw [refused] at later
        unfold Mem.refuse at later
        dsimp only at later
        by_cases again : s.tape.mem.lastDropTs = some event.ts
        · rw [if_pos again] at later
          split
          · exact later
          · rw [List.toFinset_cons, if_pos ⟨event.ts, List.mem_cons_self, again⟩]
            exact card_insert_room (by simpa [again] using later)
        · rw [if_neg again] at later
          have room := card_insert_room (by simpa using later)
          have wide : (if s.reads w + maxTsAbsurd < event.ts then tail else event.ts :: tail).toFinset.card ≤
              (insert event.ts tail.toFinset).card := by
            split
            · exact Finset.card_le_card (Finset.subset_insert _ _)
            · rw [List.toFinset_cons]
          omega
      · simp
    | close => exact quiet _ (.inl rfl)
    | finalizeCompletedHours cutoff => exact quiet _ (.inr ⟨cutoff, rfl⟩)

theorem refusals_few {later : List Input} (armed : s.alive = true →
    s.tape.mem.drops = 0 ∧ s.tape.mem.lastDropTs = none) :
    (refusals w s later).toFinset.card ≤ maxConsecutiveDrops := by
  cases alive : s.alive with
  | false => simp [refusals_dead alive]
  | true =>
    have card := refusals_card (w := w) (s := s) later
    rw [(armed alive).1, (armed alive).2] at card
    simpa using card

theorem accepted_armed (behind : s.tape.mem.Behind) (accepted : s.refuses w event = false)
    (lives : (step w s (.append event)).alive = true) :
    (step w s (.append event)).tape.mem.drops = 0 ∧
      (step w s (.append event)).tape.mem.lastDropTs = none := by
  rcases step_accepted behind accepted lives with same | more
  · exact ⟨same.drops, same.lastDropTs⟩
  · exact ⟨more.drops, more.lastDropTs⟩

theorem start_armed (lives : (step w s .start).alive = true) :
    (step w s .start).tape.mem.drops = 0 ∧ (step w s .start).tape.mem.lastDropTs = none := by
  let Armed : Mem → Prop := fun m => m.drops = 0 ∧ m.lastDropTs = none
  have indifferent : Indifferent Armed :=
    ⟨fun _ _ h => h, fun _ _ h => h, fun _ _ h => h, fun _ _ h => h, fun _ _ h => h⟩
  have built := minds_construct (w := w) indifferent (fun _ => ⟨rfl, rfl⟩) s.tape
  exact answer_lives (s := ⟨s.tape, true⟩) built lives

end

end Segments
