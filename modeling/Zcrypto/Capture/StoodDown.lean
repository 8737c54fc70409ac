import Zcrypto.Capture.Plausibility

/- What becomes of a row that the guard let through. One that is neither late nor a replay is taken, and
   the rows behind it that carry its stamp are then judged as it was; one that is not leaves the guard
   where it was, with its run of refusals forgotten. -/
namespace Segments
open Effects Effects.Prog

/-- A key that no row of an hour's files has, nor one in memory that may yet be written to them. -/
structure Unkept (hour : Int) (key : String) (t : Tape) : Prop where
  files : ∀ f ∈ (t.disk.files hour).parts ++ (t.disk.files hour).held, ∀ r ∈ f.rows, r.key ≠ key
  held : ∀ e ∈ t.mem.held, ∀ r ∈ e.2, r.key ≠ key
  heldSeen : ∀ e ∈ t.mem.heldSeen, e.1 = hour → key ∉ e.2
  buffer : ∀ r ∈ t.mem.buffer, r.key ≠ key

/-- A key that no row of an hour was taken under. -/
structure Unmet (hour : Int) (key : String) (t : Tape) : Prop extends Unkept hour key t where
  seen : t.mem.currentHour = some hour → key ∉ t.mem.seen

section
variable {w : World} {hour g : Int} {key : String} {t : Tape} {Q : Mem → Prop}

theorem Unkept.put {f : HourFiles} (h : Unkept hour key t)
    (own : ∀ p ∈ f.parts ++ f.held, p ∈ (t.disk.files g).parts ++ (t.disk.files g).held ∨
      ∀ r ∈ p.rows, r.key ≠ key) : Unkept hour key (t.setFiles g f) := by
  refine ⟨?_, h.held, h.heldSeen, h.buffer⟩
  unfold Tape.setFiles Disk.put
  simp only [Function.update_apply]
  split
  · rename_i same
    subst same
    intro p mem r row
    rcases own p mem with old | new
    · exact h.files p old r row
    · exact new r row
  · exact h.files

theorem Unkept.landPart {f : HourFiles} {rows : List Row} (h : Unkept hour key t)
    (parts : f.parts = (t.disk.files g).parts) (held : ∀ p ∈ f.held, p ∈ (t.disk.files g).held)
    (own : ∀ r ∈ rows, r.key ≠ key) : Unkept hour key (t.landPart g rows f) := by
  have put := h.put (g := g) (f := { f with parts := f.parts ++ [⟨nextSeq f.parts, rows⟩] }) (by
    intro p mem
    simp only [List.mem_append, List.mem_singleton] at mem ⊢
    rcases mem with (old | rfl) | spill
    · exact .inl (.inl (parts ▸ old))
    · exact .inr own
    · exact .inl (.inr (held p spill)))
  exact ⟨put.files, put.held, put.heldSeen, put.buffer⟩

/-- Such a key, of a writer that looks at keys, beside an assertion about the memory. -/
def Kept (w : World) (hour : Int) (key : String) (Q : Mem → Prop) (t : Tape) : Prop :=
  (w.dedup = true → Unkept hour key t) ∧ Q t.mem

theorem kept_asked (t : Tape) (n : Nat) (h : Kept w hour key Q t) : Kept w hour key Q { t with asked := n } :=
  ⟨fun dedup => ⟨(h.1 dedup).files, (h.1 dedup).held, (h.1 dedup).heldSeen, (h.1 dedup).buffer⟩, h.2⟩

theorem kept_outlasts (g : Int) : Outlasts g (Kept w hour key Q) := by
  refine ⟨fun t n _ h => kept_asked t n h, ?_, ?_⟩
  · intro t f h held parts
    refine ⟨fun dedup => (h.1 dedup).put ?_, h.2⟩
    intro p mem
    rw [held] at mem
    rcases List.mem_append.mp mem with part | spill
    · exact .inl (List.mem_append_left _ (parts p part))
    · exact .inl (List.mem_append_right _ spill)
  · intro t file h
    refine ⟨fun dedup => ?_, h.2⟩
    have put := (h.1 dedup).put (g := g)
      (f := { t.disk.files g with parts := (t.disk.files g).parts.filter (· ≠ file) }) (by
        intro p mem
        rcases List.mem_append.mp mem with part | spill
        · exact .inl (List.mem_append_left _ (List.mem_of_mem_filter part))
        · exact .inl (List.mem_append_right _ spill))
    exact ⟨put.files, put.held, put.heldSeen, put.buffer⟩

/-- A program whose raises are all handled, and that keeps an assertion until it dies. -/
abbrev Calmly {α : Type} (w : World) (I J : Tape → Prop) (m : Seg α) : Prop :=
  Leads w I J (fun _ => False) (fun _ => True) m

theorem calmly_attempt {α : Type} {I : Tape → Prop} {m : Seg α} (kept : Keeps w I m) (a : α) :
    Calmly w I I (attempt m (pure a)) := by
  intro t start
  rw [wp_attempt]
  exact wp_mono (kept t start) (fun _ _ h => h) (fun _ h => h) fun _ _ => trivial

theorem kept_fileOp : Keeps w (Kept w hour key Q) fileOp := keeps_fileOp fun t n _ h => kept_asked t n h

theorem kept_mergeHour (g : Int) : Calmly w (Kept w hour key Q) (Kept w hour key Q) (mergeHour g) := by
  unfold mergeHour
  apply leads_gets_bind
  intro t start
  rw [wp_ite]
  split
  · exact start
  · exact calmly_attempt ((kept_outlasts g).mergeFound _) () t start

theorem kept_sweep (before : Int) : Calmly w (Kept w hour key Q) (Kept w hour key Q) (sweep before) := by
  unfold sweep
  apply leads_gets_bind
  intro t start
  exact leads_forEach (fun g => kept_mergeHour g) t start

theorem kept_writePart {rows : List Row} (own : w.dedup = true → ∀ r ∈ rows, r.key ≠ key) (g : Int) :
    Calmly w (Kept w hour key Q) (Kept w hour key Q) (writePart rows g .part) := by
  unfold writePart
  apply calmly_attempt
  apply keeps_bind kept_fileOp
  intro _
  apply keeps_bind
  · apply keeps_modify
    intro t h
    have same : (t.disk.mkdir g).files = t.disk.files := by
      unfold Disk.mkdir
      split <;> rfl
    refine ⟨fun dedup => ⟨?_, (h.1 dedup).held, (h.1 dedup).heldSeen, (h.1 dedup).buffer⟩, h.2⟩
    show ∀ f ∈ ((t.disk.mkdir g).files hour).parts ++ ((t.disk.mkdir g).files hour).held, _
    rw [same]
    exact (h.1 dedup).files
  intro _
  apply keeps_bind kept_fileOp
  intro _
  apply keeps_bind _ fun _ => keeps_pure _
  apply (kept_outlasts g).replaceDurably
  exact fun t h => ⟨fun dedup => (h.1 dedup).landPart rfl (fun _ mem => mem) (own dedup), h.2⟩

theorem kept_setMem {Q' : Mem → Prop} {f : Mem → Mem} (held : ∀ m, ∀ e ∈ (f m).held, e ∈ m.held)
    (heldSeen : ∀ m, ∀ e ∈ (f m).heldSeen, e ∈ m.heldSeen) (buffer : ∀ m, ∀ r ∈ (f m).buffer, r ∈ m.buffer)
    (then_ : ∀ m, Q m → Q' (f m)) : Calmly w (Kept w hour key Q) (Kept w hour key Q') (setMem f) := by
  apply leads_modify
  intro t h
  refine ⟨fun dedup => ⟨(h.1 dedup).files, ?_, ?_, ?_⟩, then_ t.mem h.2⟩
  · exact fun e mem => (h.1 dedup).held e (held t.mem e mem)
  · exact fun e mem => (h.1 dedup).heldSeen e (heldSeen t.mem e mem)
  · exact fun r mem => (h.1 dedup).buffer r (buffer t.mem r mem)

theorem kept_flushBuffer (opened : ∀ m, Q m → m.currentHour.isSome = true)
    (emptied : ∀ m, Q m → Q { m with buffer := [] }) :
    Calmly w (Kept w hour key Q) (Kept w hour key Q) flushBuffer := by
  unfold flushBuffer
  apply leads_gets_bind
  intro t start
  rw [wp_ite]
  split
  · exact start
  · obtain ⟨current, same⟩ := Option.isSome_iff_exists.mp (opened t.mem start.2)
    rw [wp_bind, wp_orRaise]
    refine ⟨fun g is => ?_, fun none => by simp [same] at none⟩
    dsimp only
    apply leads_bind (kept_writePart (fun dedup => (start.1 dedup).buffer) g) _ t start
    intro _
    exact kept_setMem (fun _ _ mem => mem) (fun _ _ mem => mem) (fun _ _ mem => by cases mem) emptied

theorem kept_redeemHeld (g : Int) : Calmly w (Kept w hour key Q) (Kept w hour key Q) (redeemHeld g) := by
  unfold redeemHeld filesOf
  apply leads_gets_bind
  intro t start
  have same : w.dedup = true → g = hour → ∀ file ∈ (t.disk.files g).held, ∀ r ∈ file.rows, r.key ≠ key := by
    intro dedup is file mem
    subst is
    exact (start.1 dedup).files file (List.mem_append_right _ mem)
  refine leads_forEach_mem ?_ t start
  intro file mem
  apply calmly_attempt
  apply keeps_bind kept_fileOp
  intro _
  apply keeps_modify
  intro t' h
  refine ⟨fun dedup => ?_, h.2⟩
  by_cases is : g = hour
  · exact (h.1 dedup).landPart rfl (fun _ spill => List.mem_of_mem_filter spill) (same dedup is file mem)
  · refine ⟨?_, (h.1 dedup).held, (h.1 dedup).heldSeen, (h.1 dedup).buffer⟩
    unfold Tape.redeem Tape.landPart Disk.put
    dsimp only
    rw [Function.update_of_ne (Ne.symm is)]
    exact (h.1 dedup).files

/-- The open hour is not past the row's own, and where it is that one the key is not among its keys. -/
def Yet (w : World) (hour : Int) (key : String) (m : Mem) : Prop :=
  (∀ current, m.currentHour = some current → current ≤ hour) ∧
    (w.dedup = true → m.currentHour = some hour → key ∉ m.seen)

/-- Such an hour is open, and it is at or past another. -/
def Open (w : World) (hour : Int) (key : String) (g : Int) (m : Mem) : Prop :=
  Yet w hour key m ∧ ∃ current, m.currentHour = some current ∧ g ≤ current

theorem kept_openHour (le : g ≤ hour) :
    Calmly w (Kept w hour key Q) (Kept w hour key (Open w hour key g)) (openHour g) := by
  have opened : Calmly w (Kept w hour key Q) (Kept w hour key fun m => m.currentHour = some g)
      (setMem fun m => { m with currentHour := some g }) :=
    kept_setMem (fun _ _ mem => mem) (fun _ _ mem => mem) (fun _ _ mem => mem) fun _ _ => rfl
  have cleared : Calmly w (Kept w hour key fun m => m.currentHour = some g)
      (Kept w hour key fun m => m.currentHour = some g) (setMem fun m => { m with seen := [] }) :=
    kept_setMem (fun _ _ mem => mem) (fun _ _ mem => mem) (fun _ _ mem => mem) fun _ h => h
  unfold openHour
  apply leads_bind opened
  intro _
  apply leads_bind (kept_redeemHeld g)
  intro _
  apply leads_bind cleared
  intro _ t start
  rw [wp_bind, wp_env]
  dsimp only
  rw [wp_ite]
  split
  · rename_i dedup
    unfold filesOf
    rw [wp_bind, wp_gets]
    dsimp only
    rw [wp_bind]
    apply wp_mono (wp_diskKeys (fun t n _ h => kept_asked t n h) _ start)
    · rintro keys t' ⟨h, inside⟩
      refine ⟨fun dedup => ⟨(h.1 dedup).files, (h.1 dedup).held, (h.1 dedup).heldSeen, (h.1 dedup).buffer⟩,
        ⟨?_, ?_⟩, g, h.2, le_refl g⟩
      · intro current same
        obtain rfl := Option.some.inj (h.2.symm.trans same)
        exact le
      · intro _ same own
        obtain rfl : g = hour := Option.some.inj (h.2.symm.trans same)
        obtain ⟨p, part, row⟩ := List.mem_flatMap.mp (inside key own)
        obtain ⟨r, row, is⟩ := List.mem_map.mp row
        exact (start.1 dedup).files p (List.mem_append_left _ part) r row is
    · exact fun _ h => h
    · exact fun _ _ => trivial
  · rename_i plain
    refine ⟨start.1, ⟨?_, fun dedup => absurd dedup plain⟩, g, start.2, le_refl g⟩
    intro current same
    obtain rfl := Option.some.inj (start.2.symm.trans same)
    exact le

theorem kept_enterHour (le : g ≤ hour) : Calmly w (Kept w hour key (Yet w hour key))
    (Kept w hour key (Open w hour key g)) (enterHour g) := by
  unfold enterHour
  apply leads_gets_bind
  intro t start
  cases opened : t.mem.currentHour with
  | none => exact leads_bind (kept_sweep g) (fun _ => kept_openHour le) t start
  | some current =>
    dsimp only
    rw [wp_ite]
    split
    · have here : Kept w hour key (fun m => m.currentHour = some current) t := ⟨start.1, opened⟩
      have flushed : Calmly w (Kept w hour key fun m => m.currentHour = some current)
          (Kept w hour key fun m => m.currentHour = some current) flushBuffer :=
        kept_flushBuffer (fun _ h => by simp [h]) fun _ h => h
      have finalized : Calmly w (Kept w hour key fun m => m.currentHour = some current)
          (Kept w hour key fun m => m.currentHour = some current) (finalizeHour current) :=
        leads_bind flushed fun _ => kept_mergeHour current
      exact leads_bind finalized (fun _ => kept_openHour le) t here
    · rename_i not
      exact ⟨start.1, start.2, current, opened, not_lt.mp not⟩

/- Held rows. -/

theorem kept_anchor (ts : Int) :
    Calmly w (Kept w hour key (Open w hour key g)) (Kept w hour key (Open w hour key g)) (anchor ts) := by
  unfold anchor
  apply leads_gets_bind
  intro t start
  rw [wp_ite]
  split
  · exact ⟨fun dedup => ⟨(start.1 dedup).files, (start.1 dedup).held, (start.1 dedup).heldSeen,
      (start.1 dedup).buffer⟩, start.2⟩
  · exact start

theorem kept_store {r : Row} (other : w.dedup = true → r.key ≠ key) :
    Calmly w (Kept w hour key (Open w hour key g)) (Kept w hour key (Open w hour key g)) (store r) := by
  unfold store
  apply leads_bind (kept_anchor r.ts)
  intro _
  have buffered : Calmly w (Kept w hour key (Open w hour key g)) (Kept w hour key (Open w hour key g))
      (setMem fun m => { m with buffer := m.buffer ++ [r] }) := by
    apply leads_modify
    intro t h
    refine ⟨fun dedup => ⟨(h.1 dedup).files, (h.1 dedup).held, (h.1 dedup).heldSeen, ?_⟩, h.2⟩
    intro q mem
    rcases List.mem_append.mp mem with old | new
    · exact (h.1 dedup).buffer q old
    · obtain rfl := List.mem_singleton.mp new
      exact other dedup
  have flushed : Calmly w (Kept w hour key (Open w hour key g)) (Kept w hour key (Open w hour key g))
      flushBuffer := by
    apply kept_flushBuffer
    · rintro m ⟨-, current, same, -⟩
      rw [same]
      rfl
    · exact fun m h => h
  apply leads_bind buffered
  intro _
  apply leads_gets_bind
  intro t start
  rw [wp_bind, wp_env]
  exact leads_when (fun _ => flushed) (fun _ _ h => h) t start

theorem kept_admitRow {r : Row} (other : w.dedup = true → r.key ≠ key) :
    Calmly w (Kept w hour key (Open w hour key g)) (Kept w hour key (Open w hour key g)) (admitRow r) := by
  unfold admitRow
  apply leads_gets_bind
  intro t start
  rw [wp_bind, wp_env]
  dsimp only
  rw [wp_ite]
  split
  · rename_i dedup
    rw [wp_ite]
    split
    · exact start
    · rw [wp_bind]
      apply kept_store other
      refine ⟨fun dedup => ⟨(start.1 dedup).files, (start.1 dedup).held, (start.1 dedup).heldSeen,
        (start.1 dedup).buffer⟩, ⟨start.2.1.1, ?_⟩, start.2.2⟩
      intro dedup same mem
      rcases List.mem_cons.mp mem with own | old
      · exact absurd own.symm (other dedup)
      · exact start.2.1.2 dedup same old
  · exact kept_store other t start

theorem kept_drain (le : g ≤ hour) : Calmly w (Kept w hour key (Yet w hour key))
    (Kept w hour key (Yet w hour key)) (drain g) := by
  have parted : Calmly w (Kept w hour key (Yet w hour key)) (Kept w hour key (Yet w hour key))
      (setMem fun m => { m with
        held := m.held.filter (·.1 ≠ g), heldSeen := m.heldSeen.filter (·.1 ≠ g) }) :=
    kept_setMem (fun _ _ mem => List.mem_of_mem_filter mem) (fun _ _ mem => List.mem_of_mem_filter mem)
      (fun _ _ mem => mem) fun _ h => h
  unfold drain
  apply leads_gets_bind
  intro t start
  have other : ∀ r ∈ (t.mem.held.lookup g).getD [], w.dedup = true → r.key ≠ key := by
    intro r row dedup
    obtain ⟨e, mem, inside⟩ := mem_heldRows row
    exact (start.1 dedup).held e mem r inside
  apply leads_bind parted _ t start
  intro _
  apply leads_bind (kept_enterHour le)
  intro _
  have all : Calmly w (Kept w hour key (Open w hour key g)) (Kept w hour key (Open w hour key g))
      (forEach ((t.mem.held.lookup g).getD []) admitRow) :=
    leads_forEach_mem fun r row => kept_admitRow (other r row)
  exact all.weaken (fun _ h => h) (fun _ h => ⟨h.1, h.2.1⟩) fun _ h => h

/- The row itself. -/

/-- The newest stamp is at or past a row's own. -/
def Taken (ts : Int) (m : Mem) : Prop := ∃ newest, m.maxTs = some newest ∧ ts ≤ newest

theorem indifferent_taken {ts : Int} : Indifferent (Taken ts) :=
  ⟨fun _ _ h => h, fun _ _ h => h, fun _ _ h => h, fun _ _ h => h, fun _ _ h => h⟩

/-- A program that takes a row unless the process dies first. -/
abbrev Takes {α : Type} (w : World) (ts : Int) (m : Seg α) (t : Tape) : Prop :=
  wp w m ⟨fun _ t => Taken ts t.mem, fun t => Taken ts t.mem, fun _ => True⟩ t

theorem taken_anchor {ts : Int} {d : Tape → Prop} (t : Tape) :
    wp w (anchor ts) ⟨fun _ t => Taken ts t.mem, fun _ => False, d⟩ t := by
  have raised : wp w (anchor ts) ⟨fun _ t' => Raised t.mem ts t'.mem, fun _ => False, d⟩ t :=
    raised_anchor t.mem ⟨rfl, rfl, rfl⟩ (fun e mem r row => .inr ⟨e, mem, row⟩) t rfl
  refine wp_mono raised ?_ (fun _ h => h) fun _ h => h
  rintro _ t' ⟨-, -, ⟨newest, same, le, -⟩, -⟩
  exact ⟨newest, same, le⟩

theorem taken_store (event : Row) (t : Tape) : Takes w event.ts (store event) t := by
  have rest : Minds w (Taken event.ts) (do
      setMem fun m => { m with buffer := m.buffer ++ [event] }
      let m ← gets Tape.mem
      let flushRows ← env World.flushRows
      when (flushRows ≤ m.buffer.length) flushBuffer) := by
    apply keeps_bind
    · exact minds_setMem fun m h => indifferent_taken.buffer m (m.buffer ++ [event]) h
    intro _
    apply keeps_bind (keeps_gets _)
    intro m
    apply keeps_bind (keeps_env _)
    intro flushRows
    exact keeps_when (minds_flushBuffer indifferent_taken)
  unfold store
  unfold Takes
  rw [wp_bind]
  apply wp_mono (taken_anchor t)
  · exact fun _ t h => wp_mono (rest t h) (fun _ _ h => h) (fun _ h => h) fun _ _ => trivial
  · exact fun _ h => h.elim
  · exact fun _ h => h

theorem taken_park (hour : Int) (event : Row) (t : Tape) : Takes w event.ts (park hour event) t := by
  have rest : Minds w (Taken event.ts) (do
      let m ← gets Tape.mem
      let flushRows ← env World.flushRows
      let rows := (m.held.lookup hour).getD []
      when (flushRows ≤ rows.length) do
        let _ ← writePart rows hour .held
        setMem fun m => { m with held := assign m.held hour [] }) := by
    apply keeps_bind (keeps_gets _)
    intro m
    apply keeps_bind (keeps_env _)
    intro flushRows
    apply keeps_when
    apply keeps_bind (minds_writePart _ _ _)
    intro _
    exact minds_setMem fun m h => h
  unfold park setMem Takes
  rw [wp_bind, wp_modify]
  dsimp only
  rw [wp_bind]
  apply wp_mono (taken_anchor _)
  · exact fun _ t h => wp_mono (rest t h) (fun _ _ h => h) (fun _ h => h) fun _ _ => trivial
  · exact fun _ h => h.elim
  · exact fun _ h => h

theorem taken_admitRow {event : Row} (t : Tape) (new : w.dedup = true → event.key ∉ t.mem.seen) :
    Takes w event.ts (admitRow event) t := by
  unfold admitRow Takes
  rw [wp_bind, wp_gets]
  dsimp only
  rw [wp_bind, wp_env]
  dsimp only
  rw [wp_ite]
  split
  · rename_i dedup
    rw [wp_ite, if_neg (new dedup), wp_bind]
    exact taken_store event _
  · exact taken_store event t

theorem taken_hold {event : Row} (t : Tape) (start : w.dedup = true → Unkept hour event.key t) :
    Takes w event.ts (hold hour event) t := by
  unfold hold Takes
  rw [wp_bind, wp_env]
  dsimp only
  rw [wp_ite]
  split
  · rename_i dedup
    have unkept := start dedup
    unfold heldKeys
    rw [wp_bind, wp_bind, wp_gets]
    dsimp only
    cases found : t.mem.heldSeen.lookup hour with
    | some keys =>
      obtain ⟨before, after, split, -⟩ := List.lookup_eq_some_iff.mp found
      have new : event.key ∉ keys := unkept.heldSeen (hour, keys) (by simp [split]) rfl
      dsimp only
      rw [wp_pure]
      dsimp only
      rw [wp_ite, if_neg new, wp_bind]
      exact taken_park hour event _
    | none =>
      unfold filesOf
      dsimp only
      rw [wp_bind, wp_gets]
      dsimp only
      rw [wp_bind]
      apply wp_mono (wp_diskKeys (I := fun _ => True) (fun _ _ _ h => h) _ trivial)
      · rintro keys t' ⟨-, inside⟩
        have new : event.key ∉ keys := by
          intro mem
          obtain ⟨p, part, row⟩ := List.mem_flatMap.mp (inside _ mem)
          obtain ⟨r, row, is⟩ := List.mem_map.mp row
          exact unkept.files p part r row is
        dsimp only
        rw [wp_bind]
        show wp w (if event.key ∈ keys then _ else _) _ _
        rw [wp_ite, if_neg new, wp_bind]
        exact taken_park hour event _
      · exact fun _ h => h.elim
      · exact fun _ _ => trivial
  · exact taken_park hour event t

/-- A row of an hour that is not closed. -/
def Mem.Punctual (m : Mem) (ts : Int) : Prop :=
  ∀ floor, m.currentHour.or m.floor = some floor → floor ≤ hourStart ts

/-- A row the guard lets through is taken where it is not late and its key is new. -/
theorem taken_append {event : Row} (t : Tape) (accepted : t.mem.implausible (w.clock t.asked) event.ts = false)
    (punctual : t.mem.Punctual event.ts) (new : w.dedup = true → Unmet (hourStart event.ts) event.key t) : Takes w event.ts (append event) t := by
  have start (n : Nat) : Kept w (hourStart event.ts) event.key (Yet w (hourStart event.ts) event.key)
      { t with asked := n, mem := t.mem.rearm } := by
    refine ⟨fun dedup => ⟨(new dedup).files, (new dedup).held, (new dedup).heldSeen, (new dedup).buffer⟩,
      ?_, fun dedup => (new dedup).seen⟩
    intro current same
    have same : t.mem.currentHour = some current := same
    exact punctual current (by rw [same]; rfl)
  have enters (t : Tape) (start : Kept w (hourStart event.ts) event.key
      (Yet w (hourStart event.ts) event.key) t) : Takes w event.ts (do
        enterHour (hourStart event.ts)
        admitRow event) t := by
    unfold Takes
    rw [wp_bind]
    apply wp_mono (kept_enterHour (le_refl _) t start)
    · rintro _ t' ⟨-, ⟨before, unseen⟩, current, same, le⟩
      apply taken_admitRow
      have here : current = hourStart event.ts := le_antisymm (before current same) le
      exact fun dedup => unseen dedup (here ▸ same)
    · exact fun _ h => h.elim
    · exact fun _ h => h
  unfold append Takes
  rw [wp_bind, wp_utcnow]
  dsimp only
  rw [wp_bind, wp_gets]
  dsimp only
  rw [wp_ite, if_neg (by simp [accepted]), wp_bind]
  show wp w _ _ { t with asked := t.asked + 1, mem := t.mem.rearm }
  have on_time : (t.mem.currentHour.or t.mem.floor).any (hourStart event.ts < ·) = false := by
    cases same : t.mem.currentHour.or t.mem.floor with
    | none => rfl
    | some floor => simpa using punctual floor same
  rw [wp_ite, if_neg (by simp [on_time]), wp_bind, wp_env]
  dsimp only
  rw [wp_ite]
  split
  · unfold corroborate
    rw [wp_bind]
    show wp w _ _ { t with asked := t.asked + 1 + 1, mem := t.mem.rearm }
    rw [wp_bind, wp_gets]
    dsimp only
    rw [wp_bind]
    have drains (hours : List Int) (le : ∀ g ∈ hours, g ≤ hourStart event.ts) :
        Calmly w (Kept w (hourStart event.ts) event.key (Yet w (hourStart event.ts) event.key))
          (Kept w (hourStart event.ts) event.key (Yet w (hourStart event.ts) event.key)) (forEach hours drain) :=
      leads_forEach_mem fun g mem => kept_drain (le g mem)
    apply wp_mono (drains _ _ _ (start _))
    · intro _ t' held
      dsimp only
      rw [wp_ite]
      split
      · exact enters t' held
      · exact taken_hold t' held.1
    · exact fun _ h => h.elim
    · exact fun _ _ => trivial
    · intro g mem
      simp only [List.mem_insertionSort, List.mem_filter, decide_eq_true_eq, Bool.decide_and,
        Bool.and_eq_true] at mem
      exact mem.2.1
  · exact enters _ (start _)

theorem step_late {s : System} {event : Row} (alive : s.alive = true) (accepted : s.refuses w event = false)
    (late : ¬ s.tape.mem.Punctual event.ts) : step w s (.append event) =
      ⟨{ s.tape with asked := s.tape.asked + 1, mem := s.tape.mem.rearm }, true⟩ := by
  unfold System.refuses System.reads at accepted
  have closed : (s.tape.mem.currentHour.or s.tape.mem.floor).any (hourStart event.ts < ·) = true := by
    unfold Mem.Punctual at late
    push Not at late
    obtain ⟨floor, same, past⟩ := late
    rw [same]
    simpa using past
  apply answer_is alive
  unfold append
  rw [wp_bind, wp_utcnow]
  dsimp only
  rw [wp_bind, wp_gets]
  dsimp only
  rw [wp_ite, if_neg (by simp [accepted]), wp_bind]
  show wp w _ _ { s.tape with asked := s.tape.asked + 1, mem := s.tape.mem.rearm }
  rw [wp_ite, if_pos closed]
  rfl

end

/- Messages. -/

/-- What the guard says of rows that arrive one after the other, until the process dies. -/
def verdicts (w : World) : System → List Row → List Bool
  | _, [] => []
  | s, event :: rest =>
    if s.alive then s.refuses w event :: verdicts w (step w s (.append event)) rest else []

/-- The clock as it reads it for each of them. -/
def readings (w : World) : System → List Row → List Int
  | _, [] => []
  | s, event :: rest => if s.alive then s.reads w :: readings w (step w s (.append event)) rest else []

/-- All are refused or all are accepted. -/
def Agree (verdicts : List Bool) : Prop := (∀ v ∈ verdicts, v = true) ∨ ∀ v ∈ verdicts, v = false

/-- Where the rows that share a row's stamp are judged as it is: the stamp is a whole day ahead or is not
    ahead at all, or the run of refusals has room for it, or the run is full and the row is taken. -/
def System.Even (w : World) (s : System) (event : Row) : Prop :=
  s.reads w + maxTsAbsurd < event.ts ∨ ¬ s.tape.mem.ahead (s.reads w) event.ts ∨
    s.tape.mem.drops + (if s.tape.mem.lastDropTs = some event.ts then 0 else 1) < maxConsecutiveDrops ∨
    (maxConsecutiveDrops ≤ s.tape.mem.drops ∧ s.tape.mem.Punctual event.ts ∧
      (w.dedup = true → Unmet (hourStart event.ts) event.key s.tape))

section
variable {w : World} {s : System} {now ts : Int} {rows : List Row}

theorem Taken.not_ahead {m : Mem} (taken : Taken ts m) : ¬ m.ahead now ts := by
  rintro ⟨-, stream⟩
  obtain ⟨newest, same, le⟩ := taken
  have past := stream newest same
  unfold maxTsAhead at past
  omega

theorem Passed.not_ahead {m₀ m : Mem} (passed : Passed m₀ ts m) (level : ¬ m₀.ahead now ts) :
    ¬ m.ahead now ts := by
  rcases passed with same | more
  · unfold Mem.ahead at level ⊢
    rwa [same.maxTs, same.maxAt]
  · obtain ⟨newest, is, le, -⟩ := more.maxTs
    exact Taken.not_ahead ⟨newest, is, le⟩

/-- A stamp that is not ahead is not ahead of what its own rows bring about. -/
theorem verdicts_accepted (behind : s.alive = true → s.tape.mem.Behind)
    (level : s.alive = true → ¬ s.tape.mem.ahead now ts) (believed : ts ≤ now + maxTsAbsurd)
    (own : ∀ r ∈ rows, r.ts = ts) (reads : ∀ reading ∈ readings w s rows, reading = now) :
    ∀ v ∈ verdicts w s rows, v = false := by
  induction rows generalizing s with
  | nil => exact fun _ mem => by cases mem
  | cons event rest ih =>
    unfold verdicts
    unfold readings at reads
    split
    · rename_i alive
      rw [if_pos alive] at reads
      have accepted : s.refuses w event = false := by
        rw [← Bool.not_eq_true]
        intro refused
        unfold System.refuses at refused
        rw [own event List.mem_cons_self, reads _ List.mem_cons_self] at refused
        rcases implausible_iff.mp refused with absurd_ | ⟨-, ahead⟩
        · omega
        · exact level alive ahead
      have rest_false := ih (s := step w s (.append event)) (fun lives => step_behind behind lives)
        (fun lives => by
          have passed := step_accepted (behind alive) accepted lives
          rw [own event List.mem_cons_self] at passed
          exact passed.not_ahead (level alive))
        (fun r mem => own r (List.mem_cons_of_mem _ mem))
        (fun reading mem => reads reading (List.mem_cons_of_mem _ mem))
      intro v mem
      rcases List.mem_cons.mp mem with rfl | later
      · exact accepted
      · exact rest_false v later
    · exact fun _ mem => by cases mem

/-- A stamp that is refused for good, or that the run of refusals ended with while there is room. -/
theorem verdicts_refused (ahead : now + maxTsAbsurd < ts ∨ s.tape.mem.ahead now ts ∧
      s.tape.mem.drops < maxConsecutiveDrops ∧ s.tape.mem.lastDropTs = some ts)
    (own : ∀ r ∈ rows, r.ts = ts) (reads : ∀ reading ∈ readings w s rows, reading = now) :
    ∀ v ∈ verdicts w s rows, v = true := by
  induction rows generalizing s with
  | nil => exact fun _ mem => by cases mem
  | cons event rest ih =>
    unfold verdicts
    unfold readings at reads
    split
    · rename_i alive
      rw [if_pos alive] at reads
      have refused : s.refuses w event = true := by
        unfold System.refuses
        rw [own event List.mem_cons_self, reads _ List.mem_cons_self]
        exact implausible_iff.mpr (ahead.imp id fun h => ⟨h.2.1, h.1⟩)
      have after := step_refused alive refused
      rw [own event List.mem_cons_self] at after
      have rest_true := ih (s := step w s (.append event))
        (by
          rw [after]
          rcases ahead with absurd_ | ⟨ahead, room, last⟩
          · exact .inl absurd_
          · right
            unfold Mem.refuse
            rw [if_pos last]
            exact ⟨ahead, room, last⟩)
        (fun r mem => own r (List.mem_cons_of_mem _ mem))
        (fun reading mem => reads reading (List.mem_cons_of_mem _ mem))
      intro v mem
      rcases List.mem_cons.mp mem with rfl | later
      · exact refused
      · exact rest_true v later
    · exact fun _ mem => by cases mem

variable {first second : Row} {rest : List Row}

theorem verdicts_cons (alive : s.alive = true) :
    verdicts w s (first :: rest) = s.refuses w first :: verdicts w (step w s (.append first)) rest := by
  rw [verdicts, if_pos alive]

theorem refuses_iff : s.refuses w first = true ↔ s.reads w + maxTsAbsurd < first.ts ∨
    (s.tape.mem.drops < maxConsecutiveDrops ∧ s.tape.mem.ahead (s.reads w) first.ts) := implausible_iff

/-- The rows behind the first one, under the same reading. -/
theorem readings_rest (alive : s.alive = true)
    (reads : ∀ reading ∈ readings w s (first :: rest), reading = s.reads w) :
    ∀ reading ∈ readings w (step w s (.append first)) rest, reading = s.reads w := by
  rw [readings, if_pos alive] at reads
  exact fun reading mem => reads reading (List.mem_cons_of_mem _ mem)

theorem agree_of_even (behind : s.alive = true → s.tape.mem.Behind) (alive : s.alive = true)
    (even : s.Even w first) (own : ∀ r ∈ rest, r.ts = first.ts)
    (reads : ∀ reading ∈ readings w s (first :: rest), reading = s.reads w) :
    Agree (verdicts w s (first :: rest)) := by
  have all_own : ∀ r ∈ first :: rest, r.ts = first.ts := by
    intro r mem
    rcases List.mem_cons.mp mem with rfl | later
    · rfl
    · exact own r later
  by_cases absurd_ : s.reads w + maxTsAbsurd < first.ts
  · exact .inl (verdicts_refused (.inl absurd_) all_own reads)
  by_cases ahead : s.tape.mem.ahead (s.reads w) first.ts
  · rw [verdicts_cons alive]
    rcases even with far | level | room | ⟨full, punctual, new⟩
    · exact absurd far absurd_
    · exact absurd ahead level
    · -- the first row takes the last place there may be, and the others take none
      left
      have below : s.tape.mem.drops < maxConsecutiveDrops := by omega
      have refused : s.refuses w first = true := refuses_iff.mpr (.inr ⟨below, ahead⟩)
      have tail : ∀ v ∈ verdicts w (step w s (.append first)) rest, v = true := by
        refine verdicts_refused (.inr ?_) own (readings_rest alive reads)
        rw [step_refused alive refused]
        unfold Mem.refuse
        dsimp only
        split
        · rename_i again
          exact ⟨ahead, below, again⟩
        · rename_i fresh
          rw [if_neg fresh] at room
          exact ⟨ahead, room, rfl⟩
      intro v mem
      rcases List.mem_cons.mp mem with rfl | later
      · exact refused
      · exact tail v later
    · -- the guard stands down for the first row, and the first row re-anchors it
      right
      have accepted : s.refuses w first = false := by
        rw [← Bool.not_eq_true, refuses_iff]
        rintro (far | ⟨below, -⟩)
        · exact absurd_ far
        · omega
      have tail : ∀ v ∈ verdicts w (step w s (.append first)) rest, v = false := by
        refine verdicts_accepted (fun lives => step_behind behind lives) ?_ (not_lt.mp absurd_) own
          (readings_rest alive reads)
        intro lives
        exact (answer_lives (taken_append s.tape accepted punctual new) lives).not_ahead
      intro v mem
      rcases List.mem_cons.mp mem with rfl | later
      · exact accepted
      · exact tail v later
  · exact .inr (verdicts_accepted behind (fun _ => ahead) (not_lt.mp absurd_) all_own reads)

/-- The last place of a run of refusals is taken by the first row of a message, and its second gets in. -/
theorem not_agree_full (alive : s.alive = true) (believed : ¬ s.reads w + maxTsAbsurd < first.ts)
    (ahead : s.tape.mem.ahead (s.reads w) first.ts) (below : s.tape.mem.drops < maxConsecutiveDrops)
    (fills : maxConsecutiveDrops ≤ s.tape.mem.drops + if s.tape.mem.lastDropTs = some first.ts then 0 else 1)
    (same : second.ts = first.ts)
    (reads : ∀ reading ∈ readings w s (first :: second :: rest), reading = s.reads w) :
    ¬ Agree (verdicts w s (first :: second :: rest)) := by
  have refused : s.refuses w first = true := refuses_iff.mpr (.inr ⟨below, ahead⟩)
  have after := step_refused alive refused
  have fresh : s.tape.mem.lastDropTs ≠ some first.ts := by
    intro again
    rw [if_pos again] at fills
    omega
  rw [if_neg fresh] at fills
  have next := readings_rest alive reads
  have alive' : (step w s (.append first)).alive = true := by rw [after]
  rw [readings, if_pos alive'] at next
  have reading := next _ List.mem_cons_self
  have accepted : (step w s (.append first)).refuses w second = false := by
    rw [← Bool.not_eq_true, refuses_iff, reading, same]
    rintro (far | ⟨room, -⟩)
    · exact believed far
    · rw [after] at room
      unfold Mem.refuse at room
      rw [if_neg fresh] at room
      exact absurd fills (not_le.mpr room)
  rw [verdicts_cons alive, verdicts_cons alive', refused, accepted]
  rintro (all | none)
  · exact absurd (all false (by simp)) (by decide)
  · exact absurd (none true (by simp)) (by decide)

/-- The guard stands down for a late row, and is not re-anchored by it. -/
theorem not_agree_late (alive : s.alive = true) (believed : ¬ s.reads w + maxTsAbsurd < first.ts)
    (ahead : s.tape.mem.ahead (s.reads w) first.ts) (full : maxConsecutiveDrops ≤ s.tape.mem.drops)
    (late : ¬ s.tape.mem.Punctual first.ts) (same : second.ts = first.ts)
    (reads : ∀ reading ∈ readings w s (first :: second :: rest), reading = s.reads w) :
    ¬ Agree (verdicts w s (first :: second :: rest)) := by
  have accepted : s.refuses w first = false := by
    rw [← Bool.not_eq_true, refuses_iff]
    rintro (far | ⟨below, -⟩)
    · exact believed far
    · omega
  have after := step_late alive accepted late
  have next := readings_rest alive reads
  have alive' : (step w s (.append first)).alive = true := by rw [after]
  rw [readings, if_pos alive'] at next
  have reading := next _ List.mem_cons_self
  have refused : (step w s (.append first)).refuses w second = true := by
    rw [refuses_iff, reading, same, after]
    exact .inr ⟨(by decide : 0 < maxConsecutiveDrops), ahead⟩
  rw [verdicts_cons alive, verdicts_cons alive', refused, accepted]
  rintro (all | none)
  · exact absurd (all false (by simp)) (by decide)
  · exact absurd (none true (by simp)) (by decide)

/-- In every state a writer can reach: between two rows it accepts, or from its construction on, the guard
    refuses few distinct stamps less than a day ahead. A message of rows that share a stamp under one
    reading of the clock is judged as one where the stamp is even with the guard, and nowhere else, but that
    a full run may also take the row of a key it has met. -/
theorem guard_judges_messages (w : World) (inputs : List Input) :
    (∀ event later, (run w inputs).refuses w event = false →
      (refusals w (step w (run w inputs) (.append event)) later).toFinset.card ≤ maxConsecutiveDrops) ∧
    (∀ later, (refusals w (step w (run w inputs) .start) later).toFinset.card ≤ maxConsecutiveDrops) ∧
    ∀ first rest, (run w inputs).alive = true → (∀ r ∈ rest, r.ts = first.ts) →
      (∀ reading ∈ readings w (run w inputs) (first :: rest), reading = (run w inputs).reads w) →
      (rest = [] ∨ (run w inputs).Even w first → Agree (verdicts w (run w inputs) (first :: rest))) ∧
      (w.dedup = false ∨ (run w inputs).tape.mem.drops < maxConsecutiveDrops ∨
          ¬ (run w inputs).tape.mem.Punctual first.ts →
        Agree (verdicts w (run w inputs) (first :: rest)) → rest = [] ∨ (run w inputs).Even w first) := by
  have behind := run_behind w inputs
  generalize run w inputs = s at behind ⊢
  refine ⟨?_, fun later => refusals_few start_armed, ?_⟩
  · intro event later accepted
    apply refusals_few
    intro lives
    exact accepted_armed (behind (answer_alive lives)) accepted lives
  intro first rest alive own reads
  constructor
  · rintro (rfl | even)
    · rw [verdicts_cons alive, verdicts]
      cases s.refuses w first with
      | true => exact .inl (by simp)
      | false => exact .inr (by simp)
    · exact agree_of_even behind alive even own reads
  · intro plain agree
    by_contra not
    rw [not_or] at not
    obtain ⟨some, odd⟩ := not
    obtain ⟨second, more, rfl⟩ := List.exists_cons_of_ne_nil some
    have same := own second List.mem_cons_self
    unfold System.Even at odd
    rw [not_or, not_or, not_or, not_not] at odd
    obtain ⟨believed, ahead, fills, taken⟩ := odd
    by_cases below : s.tape.mem.drops < maxConsecutiveDrops
    · exact not_agree_full alive believed ahead below (not_lt.mp fills) same reads agree
    · have full := not_lt.mp below
      have late : ¬ s.tape.mem.Punctual first.ts := by
        rcases plain with dedup | low | late
        · intro punctual
          exact taken ⟨full, punctual, fun yes => by rw [dedup] at yes; cases yes⟩
        · exact absurd low below
        · exact late
      exact not_agree_late alive believed ahead full late same reads agree

end

/-- A writer of messages without a key, under a clock that stands still. -/
def standing : World := ⟨1000, false, false, fun _ => .ok, fun _ => 0, fun _ => none⟩

/-- Behind two refused stamps the first row of a bad message is refused, and the rest of it gets in. -/
theorem message_split : ¬ ∀ (w : World) (inputs : List Input) (first : Row) (rest : List Row),
    (run w inputs).alive = true → (∀ r ∈ rest, r.ts = first.ts) →
    (∀ reading ∈ readings w (run w inputs) (first :: rest), reading = (run w inputs).reads w) →
    Agree (verdicts w (run w inputs) (first :: rest)) := by
  intro claim
  have agree := claim standing [.start, .append ⟨300000001, "a", ""⟩, .append ⟨300000002, "b", ""⟩]
    ⟨300000003, "c", ""⟩ [⟨300000003, "d", ""⟩] (by decide +kernel) (by decide +kernel) (by decide +kernel)
  have split : verdicts standing (run standing
      [.start, .append ⟨300000001, "a", ""⟩, .append ⟨300000002, "b", ""⟩])
      [⟨300000003, "c", ""⟩, ⟨300000003, "d", ""⟩] = [true, false] := by decide +kernel
  rw [split] at agree
  rcases agree with all | none
  · exact absurd (all false (by simp)) (by decide)
  · exact absurd (none true (by simp)) (by decide)

end Segments
