import Zcrypto.Capture.SegmentWriter

/- What a call can do to the disk, one change after another. A call that raises or dies has made some
   of its changes, so an assertion that every change keeps holds wherever a call stops. -/
namespace Segments
open Effects Effects.Prog

/-- One change, with what is known when it is made. Memory and what was asked of the host may be
    anything after the first. -/
inductive Move : Tape → Tape → Prop where
  | aside {t t' : Tape} (disk : t'.disk = t.disk) (trace : t'.trace = t.trace) : Move t t'
  | mkdir (t : Tape) (hour : Int) : Move t { t with disk := t.disk.mkdir hour }
  | land (t : Tape) (hour : Int) (rows : List Row) (marker : Marker) : Move t (t.land hour rows marker)
  | redeem (t : Tape) (hour : Int) (file : File) : Move t (t.redeem hour file)
  | sink (t : Tape) (hour : Int) (inputs : List File) (some : inputs ≠ [])
      (merging : (t.disk.files hour).merging = none) (final : (t.disk.files hour).final = none)
      (parts : ∀ part ∈ (t.disk.files hour).parts, part ∈ inputs)
      (whole : (t.disk.files hour).corrupt = [] → inputs = (t.disk.files hour).parts) :
      Move t (t.sinkMerging hour (inputs.flatMap File.rows))
  | certify (t : Tape) (hour : Int) (m : List Row) (merging : (t.disk.files hour).merging = some m)
      (final : (t.disk.files hour).final = none) : Move t (t.certify hour)
  | unlink (t : Tape) (hour : Int) (file : File) (m : List Row)
      (merging : (t.disk.files hour).merging = some m) (final : (t.disk.files hour).final = none)
      (manifest : (t.disk.files hour).manifest = some m)
      (there : file ∈ (t.disk.files hour).parts ∨ .unlinked hour file.rows (some m) ∈ t.trace) :
      Move t (t.unlinkPart hour file)
  | publish (t : Tape) (hour : Int) (m : List Row) (merging : (t.disk.files hour).merging = some m)
      (final : (t.disk.files hour).final = none) (manifest : (t.disk.files hour).manifest = some m)
      (parts : (t.disk.files hour).parts = []) : Move t (t.publish hour)
  | quarantinePart (t : Tape) (hour : Int) (file : File)
      (merging : (t.disk.files hour).merging = none) (final : (t.disk.files hour).final = none)
      (there : (t.disk.files hour).corrupt = [] → file ∈ (t.disk.files hour).parts) :
      Move t (t.quarantinePart hour file)
  | quarantineFinal (t : Tape) (hour : Int) (rows : List Row)
      (merging : (t.disk.files hour).merging = none)
      (final : (t.disk.files hour).final = some rows) : Move t (t.quarantineFinal hour)
  | quarantineMerging (t : Tape) (hour : Int) (m : List Row)
      (merging : (t.disk.files hour).merging = some m) (final : (t.disk.files hour).final = none) :
      Move t (t.quarantineMerging hour)

/-- What some changes lead to. -/
def Reached (t₀ : Tape) : Tape → Prop := Relation.ReflTransGen Move t₀

/-- What every change keeps, they all keep. -/
theorem Reached.keeps {P : Tape → Prop} {t₀ t : Tape} (reached : Reached t₀ t) (start : P t₀)
    (closed : ∀ t t', P t → Move t t' → P t') : P t := by
  induction reached with
  | refl => exact start
  | tail _ move ih => exact closed _ _ ih move

theorem files_put (d : Disk) (hour other : Int) (f : HourFiles) :
    (d.put hour f).files other = if other = hour then f else d.files other := by
  unfold Disk.put
  simp [Function.update_apply]

@[simp] theorem files_put_self (d : Disk) (hour : Int) (f : HourFiles) :
    (d.put hour f).files hour = f := by
  simp [files_put]

/- One file operation after another. -/

section
variable {w : World} {hour : Int} {t₀ : Tape} {p q : Disk → List Event → Prop} {α β : Type}

/-- A state that was reached, and an assertion about its disk and what happened to it. -/
structure At (t₀ : Tape) (p : Disk → List Event → Prop) (t : Tape) : Prop where
  reached : Reached t₀ t
  holds : p t.disk t.trace

/-- From one assertion to another, and reached wherever it stops. -/
abbrev Goes (w : World) (t₀ : Tape) (p q : Disk → List Event → Prop) (m : Seg α) : Prop :=
  Leads w (At t₀ p) (At t₀ q) (Reached t₀) (Reached t₀) m

abbrev Moves (w : World) (t₀ : Tape) (m : Seg α) : Prop := Keeps w (Reached t₀) m

theorem Goes.moves {m : Seg α} (h : Goes w t₀ (fun _ _ => True) (fun _ _ => True) m) : Moves w t₀ m :=
  h.weaken (fun _ reached => ⟨reached, trivial⟩) (fun _ h => h.reached) fun _ h => h

theorem Reached.aside {t t' : Tape} (reached : Reached t₀ t) (disk : t'.disk = t.disk)
    (trace : t'.trace = t.trace) : Reached t₀ t' :=
  reached.tail (.aside disk trace)

/-- An operation that fails has touched nothing. -/
theorem leads_fileOp : Leads w (At t₀ p) (At t₀ p) (At t₀ p) (Reached t₀) fileOp := by
  intro t start
  have same : At t₀ p { t with asked := t.asked + 1 } := ⟨start.reached.aside rfl rfl, start.holds⟩
  cases fault : w.fault t.asked with
  | ok => simpa [wp, fileOp, fault] using same
  | raises => simpa [wp, fileOp, fault] using same
  | kills => simpa [wp, fileOp, fault] using same.reached

theorem goes_fileOp : Goes w t₀ p p fileOp :=
  leads_fileOp.weaken (fun _ h => h) (fun _ h => h) fun _ h => h.reached

theorem moves_fileOp : Moves w t₀ fileOp := goes_fileOp.moves

theorem moves_pure (a : α) : Moves w t₀ (pure a : Seg α) := keeps_pure a
theorem moves_setMem (f : Mem → Mem) : Moves w t₀ (setMem f) := fun _ start => start.aside rfl rfl
theorem moves_utcnow : Moves w t₀ utcnow := fun _ start => start.aside rfl rfl
theorem moves_gets (f : Tape → α) : Moves w t₀ (gets f) := keeps_gets f
theorem moves_env (f : World → α) : Moves w t₀ (env f : Seg α) := keeps_env f

theorem goes_readsBack : Goes w t₀ p p readsBack := by
  have reads : Leads w (At t₀ p) (At t₀ p) (At t₀ p) (Reached t₀) (do fileOp; pure true) :=
    leads_bind leads_fileOp fun _ _ start => start
  exact leads_attempt reads fun _ start => start

theorem goes_modify {f : Tape → Tape} (move : ∀ t, p t.disk t.trace → Move t (f t))
    (after : ∀ t, p t.disk t.trace → q (f t).disk (f t).trace) : Goes w t₀ p q (modify f) :=
  leads_modify fun t h => ⟨h.reached.tail (move t h.holds), after t h.holds⟩

theorem goes_replaceDurably {f : Tape → Tape} (move : ∀ t, p t.disk t.trace → Move t (f t))
    (after : ∀ t, p t.disk t.trace → q (f t).disk (f t).trace) : Goes w t₀ p q (replaceDurably f) := by
  unfold replaceDurably
  apply leads_bind goes_fileOp
  intro _
  apply leads_bind goes_fileOp
  intro _
  exact leads_bind (goes_modify move after) fun _ => goes_fileOp

theorem goes_quarantine {f : Tape → Tape} (move : ∀ t, p t.disk t.trace → Move t (f t))
    (after : ∀ t, p t.disk t.trace → q (f t).disk (f t).trace) : Goes w t₀ p q (quarantine f) :=
  leads_bind goes_fileOp fun _ => goes_modify move after

/- The commit. -/

/-- The merge of the hour is whole and unpublished. -/
structure Ready (hour : Int) (m : List Row) (d : Disk) (trace : List Event) : Prop where
  merging : (d.files hour).merging = some m
  final : (d.files hour).final = none

/-- It is certified, and of its parts these are not unlinked yet. -/
structure Certified (hour : Int) (m : List Row) (parts : List File) (d : Disk) (trace : List Event) :
    Prop extends Ready hour m d trace where
  manifest : (d.files hour).manifest = some m
  left : ∀ part ∈ (d.files hour).parts, part ∈ parts
  listed : ∀ part ∈ parts,
    part ∈ (d.files hour).parts ∨ .unlinked hour part.rows (some m) ∈ trace

theorem goes_writeManifest (m : List Row) : Goes w t₀ (Ready hour m)
    (fun d trace => Ready hour m d trace ∧ (d.files hour).manifest = some m) (writeManifest hour) := by
  unfold writeManifest
  apply leads_bind goes_fileOp
  intro _
  apply leads_bind goes_fileOp
  intro _
  apply goes_replaceDurably
  · intro t ready
    exact .certify t hour m ready.merging ready.final
  · intro t ready
    refine ⟨⟨?_, ?_⟩, ?_⟩
    · simp [Tape.certify, Tape.setFiles, ready.merging]
    · simp [Tape.certify, Tape.setFiles, ready.final]
    · simp [Tape.certify, Tape.setFiles, ready.merging]

theorem goes_unlinkAll (m : List Row) (parts : List File) :
    Goes w t₀ (Certified hour m parts) (Certified hour m []) (forEach parts (unlinkPart hour)) := by
  induction parts with
  | nil => exact fun _ start => start
  | cons part rest ih =>
    unfold forEach
    apply leads_bind _ fun _ => ih
    unfold unlinkPart
    apply leads_bind goes_fileOp
    intro _
    apply goes_modify
    · intro t certified
      exact .unlink t hour part m certified.merging certified.final certified.manifest
        (certified.listed part List.mem_cons_self)
    · intro t certified
      refine ⟨⟨?_, ?_⟩, ?_, ?_, ?_⟩
      · simp [Tape.unlinkPart, certified.merging]
      · simp [Tape.unlinkPart, certified.final]
      · simp [Tape.unlinkPart, certified.manifest]
      · intro other mem
        simp only [Tape.unlinkPart, files_put_self, List.mem_filter, decide_eq_true_eq] at mem
        rcases List.mem_cons.mp (certified.left other mem.1) with same | later
        · exact absurd same mem.2
        · exact later
      · intro other mem
        simp only [Tape.unlinkPart, files_put_self, List.mem_filter, decide_eq_true_eq,
          certified.merging, List.mem_cons]
        rcases certified.listed other (List.mem_cons_of_mem part mem) with there | gone
        · by_cases same : other = part
          · exact .inr (.inl (by rw [same]))
          · exact .inl ⟨there, same⟩
        · exact .inr (.inr gone)

theorem goes_commit (m : List Row) : Goes w t₀ (Ready hour m) (fun _ _ => True) (commit hour) := by
  unfold commit
  apply leads_bind (goes_writeManifest m)
  intro _
  apply leads_gets_bind
  intro t start
  rw [wp_bind]
  have certified : At t₀ (Certified hour m (t.disk.files hour).parts) t :=
    ⟨start.reached, start.holds.1, start.holds.2, fun _ mem => mem, fun _ mem => .inl mem⟩
  apply wp_mono (goes_unlinkAll m _ t certified)
  · intro _ t unlinked
    refine goes_replaceDurably ?_ (fun _ _ => trivial) t unlinked
    intro t certified
    have none : (t.disk.files hour).parts = [] :=
      List.eq_nil_iff_forall_not_mem.mpr fun part mem => by simpa using certified.left part mem
    exact .publish t hour m certified.merging certified.final certified.manifest none
  · exact fun _ h => h
  · exact fun _ h => h

/- The merge. -/

/-- Nothing stands in the way of a merge of these parts. -/
structure Mergeable (hour : Int) (inputs : List File) (d : Disk) (trace : List Event) : Prop where
  merging : (d.files hour).merging = none
  final : (d.files hour).final = none
  parts : ∀ part ∈ (d.files hour).parts, part ∈ inputs
  whole : (d.files hour).corrupt = [] → inputs = (d.files hour).parts

theorem Mergeable.quarantine {file : File} {before after : List File} {t : Tape}
    (h : Mergeable hour (before ++ file :: after) t.disk t.trace) :
    Mergeable hour (before ++ after) (t.quarantinePart hour file).disk
      (t.quarantinePart hour file).trace := by
  constructor
  · simp [Tape.quarantinePart, Tape.setFiles, h.merging]
  · simp [Tape.quarantinePart, Tape.setFiles, h.final]
  · intro part mem
    simp only [Tape.quarantinePart, Tape.setFiles, files_put_self, List.mem_filter,
      decide_eq_true_eq] at mem
    have listed := h.parts part mem.1
    simp only [List.mem_append, List.mem_cons] at listed ⊢
    tauto
  · intro nothing
    simp [Tape.quarantinePart, Tape.setFiles] at nothing

theorem wp_salvage (inputs before : List File) (t : Tape)
    (start : At t₀ (Mergeable hour (before ++ inputs)) t) :
    wp w (salvage hour inputs)
      ⟨fun kept => At t₀ (Mergeable hour (before ++ kept)), Reached t₀, Reached t₀⟩ t := by
  induction inputs generalizing before t with
  | nil => exact start
  | cons file rest ih =>
    unfold salvage readable
    simp only [wp_bind]
    apply wp_mono (goes_readsBack t start)
    · intro reads t start
      cases reads with
      | true =>
        simp only [if_true, wp_pure]
        apply wp_mono (ih (before ++ [file]) t (by simpa using start))
        · intro more t kept
          simpa using kept
        · exact fun _ h => h
        · exact fun _ h => h
      | false =>
        simp only [Bool.false_eq_true, if_false, wp_bind, wp_pure]
        have aside : Goes w t₀ (Mergeable hour (before ++ file :: rest))
            (Mergeable hour (before ++ rest)) (quarantine fun t => t.quarantinePart hour file) :=
          goes_quarantine (fun t h => .quarantinePart t hour file h.merging h.final
            fun spotless => by simp [← h.whole spotless])
            fun _ => Mergeable.quarantine
        apply wp_mono (aside t start)
        · intro _ t kept
          exact ih before t kept
        · exact fun _ h => h
        · exact fun _ h => h
    · exact fun _ h => h
    · exact fun _ h => h

/-- Whether a merge was written says which assertion holds. -/
def Sunk (hour : Int) (sunk : Bool) (d : Disk) (trace : List Event) : Prop :=
  sunk = true → ∃ m, Ready hour m d trace

theorem wp_sinkAgain (inputs : List File) (t : Tape) (start : At t₀ (Mergeable hour inputs) t) :
    wp w (sinkAgain hour inputs) ⟨fun kept => At t₀ (Mergeable hour kept), Reached t₀, Reached t₀⟩ t := by
  unfold sinkAgain
  rw [wp_bind]
  apply wp_mono (wp_salvage inputs [] t start)
  · intro kept t held
    simp only [wp_bind, wp_when, wp_pure]
    split
    · exact goes_fileOp t held
    · exact held
  · exact fun _ h => h
  · exact fun _ h => h

theorem wp_sink (inputs : List File) (t : Tape) (start : At t₀ (Mergeable hour inputs) t) :
    wp w (sink hour inputs) ⟨fun sunk => At t₀ (Sunk hour sunk), Reached t₀, Reached t₀⟩ t := by
  have read : wp w (attempt (do fileOp; pure inputs) (sinkAgain hour inputs))
      ⟨fun kept => At t₀ (Mergeable hour kept), Reached t₀, Reached t₀⟩ t := by
    rw [wp_attempt, wp_bind]
    apply wp_mono (leads_fileOp t start)
    · exact fun _ _ h => h
    · exact fun t start => wp_sinkAgain inputs t start
    · exact fun _ h => h
  unfold sink
  rw [wp_bind]
  apply wp_mono read
  · intro kept t held
    simp only [wp_ite, wp_pure, wp_bind]
    split
    · exact ⟨held.reached, fun yes => by cases yes⟩
    · rename_i some
      refine goes_replaceDurably ?_ ?_ t held
      · intro t mergeable
        exact .sink t hour kept some mergeable.merging mergeable.final mergeable.parts mergeable.whole
      · intro t mergeable _
        refine ⟨kept.flatMap File.rows, ?_, ?_⟩
        · simp [Tape.sinkMerging, Tape.setFiles]
        · simp [Tape.sinkMerging, Tape.setFiles, mergeable.final]
  · exact fun _ h => h
  · exact fun _ h => h

theorem wp_writeMerging (inputs : List File) (t : Tape) (start : At t₀ (Mergeable hour inputs) t) :
    wp w (writeMerging hour inputs) ⟨fun sunk => At t₀ (Sunk hour sunk), Reached t₀, Reached t₀⟩ t := by
  unfold writeMerging
  simp only [wp_bind, wp_attempt, wp_raise, wp_pure]
  apply wp_mono (wp_sink inputs t start)
  · exact fun sunk t held => goes_fileOp t held
  · exact fun t reached => moves_fileOp t reached
  · exact fun _ h => h

theorem goes_mergeParts (parts : List File) :
    Goes w t₀ (Mergeable hour parts) (fun _ _ => True) (mergeParts hour parts) := by
  intro t start
  unfold mergeParts
  rw [wp_bind]
  apply wp_mono (wp_writeMerging parts t start)
  · intro sunk t held
    cases sunk with
    | true =>
      obtain ⟨m, ready⟩ := held.holds rfl
      exact goes_commit m t ⟨held.reached, ready⟩
    | false => exact ⟨held.reached, trivial⟩
  · exact fun _ h => h
  · exact fun _ h => h

/-- What `mergeHour` found is what is there. -/
theorem wp_mergeFound (t : Tape) (reached : Reached t₀ t) :
    wp w (mergeFound hour (t.disk.files hour)) (Post.always (Reached t₀)) t := by
  have merges (parts : List File) (t : Tape) (start : At t₀ (Mergeable hour parts) t) :
      wp w (mergeParts hour parts) (Post.always (Reached t₀)) t :=
    wp_mono (goes_mergeParts parts t start) (fun _ _ h => h.reached) (fun _ h => h) fun _ h => h
  unfold mergeFound
  split
  · exact reached
  · rename_i unmerged
    have merging : (t.disk.files hour).merging = none := by simpa using unmerged
    split
    · rename_i published
      obtain ⟨rows, final⟩ := Option.isSome_iff_exists.mp published
      unfold mergeOverFinal
      rw [wp_bind]
      have start : At t₀ (fun d _ => d.files hour = t.disk.files hour) t := ⟨reached, rfl⟩
      apply wp_mono (goes_readsBack t start)
      · intro reads t' held
        cases reads with
        | true => exact held.reached
        | false =>
          have aside : Goes w t₀ (fun d _ => d.files hour = t.disk.files hour)
              (Mergeable hour (t.disk.files hour).parts)
              (quarantine fun t => t.quarantineFinal hour) := by
            apply goes_quarantine
            · intro t' same
              exact .quarantineFinal t' hour rows (by rw [same, merging]) (by rw [same, final])
            · intro t' same
              constructor
              · simp [Tape.quarantineFinal, Tape.setFiles, same, merging]
              · simp [Tape.quarantineFinal, Tape.setFiles]
              · simp [Tape.quarantineFinal, Tape.setFiles, same]
              · simp [Tape.quarantineFinal, Tape.setFiles, same]
          simp only [Bool.false_eq_true, if_false, wp_bind]
          exact wp_mono (aside t' held) (fun _ t h => merges _ t h) (fun _ h => h) fun _ h => h
      · exact fun _ h => h
      · exact fun _ h => h
    · rename_i unpublished
      have final : (t.disk.files hour).final = none := by simpa using unpublished
      exact merges _ t ⟨reached, merging, final, fun _ mem => mem, fun _ => rfl⟩

theorem moves_mergeHour (hour : Int) : Moves w t₀ (mergeHour hour) := by
  unfold mergeHour
  apply keeps_gets_bind
  intro t reached
  rw [wp_ite]
  split
  · exact reached
  · rw [wp_attempt]
    exact wp_mono (wp_mergeFound t reached) (fun _ _ h => h) (fun _ h => h) fun _ h => h

theorem moves_sweep (before : Int) : Moves w t₀ (sweep before) :=
  keeps_bind (moves_gets _) fun _ => keeps_forEach fun hour => moves_mergeHour hour

/- The open hour. -/

theorem moves_modify {f : Tape → Tape} (move : ∀ t, Move t (f t)) : Moves w t₀ (modify f) :=
  keeps_modify fun t reached => reached.tail (move t)

theorem moves_writePart (rows : List Row) (hour : Int) (marker : Marker) :
    Moves w t₀ (writePart rows hour marker) := by
  unfold writePart replaceDurably
  apply keeps_attempt _ (moves_pure _)
  apply keeps_bind moves_fileOp
  intro _
  apply keeps_bind
  · exact moves_modify fun t => .mkdir t hour
  intro _
  apply keeps_bind moves_fileOp
  intro _
  apply keeps_bind _ fun _ => moves_pure _
  apply keeps_bind moves_fileOp
  intro _
  apply keeps_bind moves_fileOp
  intro _
  apply keeps_bind _ fun _ => moves_fileOp
  exact moves_modify fun t => .land t hour rows marker

theorem moves_diskKeys (files : List File) : Moves w t₀ (diskKeys files) := by
  unfold diskKeys
  apply keeps_ite (fun _ => moves_pure _)
  intro _
  apply keeps_attempt (keeps_bind moves_fileOp fun _ => moves_pure _)
  apply keeps_bind _ fun _ => moves_pure _
  apply keeps_collect
  intro file
  exact keeps_attempt (keeps_bind moves_fileOp fun _ => moves_pure _) (moves_pure _)

theorem moves_flushBuffer : Moves w t₀ flushBuffer := by
  unfold flushBuffer
  apply keeps_bind (moves_gets _)
  intro m
  apply keeps_ite (fun _ => moves_pure _)
  intro _
  apply keeps_bind (keeps_orRaise _)
  intro hour
  exact keeps_bind (moves_writePart _ _ _) fun _ => moves_setMem _

theorem moves_finalizeHour (hour : Int) : Moves w t₀ (finalizeHour hour) :=
  keeps_bind moves_flushBuffer fun _ => moves_mergeHour hour

theorem moves_redeemHeld (hour : Int) : Moves w t₀ (redeemHeld hour) := by
  unfold redeemHeld
  apply keeps_bind (moves_gets _)
  intro f
  apply keeps_forEach
  intro file
  apply keeps_attempt _ (moves_pure _)
  exact keeps_bind moves_fileOp fun _ => moves_modify fun t => .redeem t hour file

theorem moves_openHour (hour : Int) : Moves w t₀ (openHour hour) := by
  unfold openHour
  apply keeps_bind (moves_setMem _)
  intro _
  apply keeps_bind (moves_redeemHeld hour)
  intro _
  apply keeps_bind (moves_setMem _)
  intro _
  apply keeps_bind (moves_env _)
  intro dedup
  apply keeps_ite _ fun _ => moves_pure _
  intro _
  apply keeps_bind (moves_gets _)
  intro f
  exact keeps_bind (moves_diskKeys _) fun _ => moves_setMem _

theorem moves_enterHour (hour : Int) : Moves w t₀ (enterHour hour) := by
  unfold enterHour
  apply keeps_bind (moves_gets _)
  intro m
  cases m.currentHour with
  | none => exact keeps_bind (moves_sweep hour) fun _ => moves_openHour hour
  | some current =>
    apply keeps_ite _ fun _ => moves_pure _
    exact fun _ => keeps_bind (moves_finalizeHour current) fun _ => moves_openHour hour

/- Rows. -/

theorem moves_anchor (ts : Int) : Moves w t₀ (anchor ts) := by
  unfold anchor
  apply keeps_bind (moves_gets _)
  intro m
  apply keeps_ite _ fun _ => moves_pure _
  exact fun _ => keeps_bind moves_utcnow fun _ => moves_setMem _

theorem moves_store (event : Row) : Moves w t₀ (store event) := by
  unfold store
  apply keeps_bind (moves_anchor _)
  intro _
  apply keeps_bind (moves_setMem _)
  intro _
  apply keeps_bind (moves_gets _)
  intro m
  apply keeps_bind (moves_env _)
  intro flushRows
  exact keeps_when moves_flushBuffer

theorem moves_admitRow (event : Row) : Moves w t₀ (admitRow event) := by
  unfold admitRow
  apply keeps_bind (moves_gets _)
  intro m
  apply keeps_bind (moves_env _)
  intro dedup
  apply keeps_ite _ fun _ => moves_store event
  intro _
  apply keeps_ite (fun _ => moves_pure _)
  exact fun _ => keeps_bind (moves_setMem _) fun _ => moves_store event

theorem moves_heldKeys (hour : Int) : Moves w t₀ (heldKeys hour) := by
  unfold heldKeys
  apply keeps_bind (moves_gets _)
  intro m
  cases m.heldSeen.lookup hour with
  | some keys => exact moves_pure keys
  | none =>
    apply keeps_bind (moves_gets _)
    intro f
    apply keeps_bind (moves_diskKeys _)
    intro keys
    exact keeps_bind (moves_setMem _) fun _ => moves_pure keys

theorem moves_park (hour : Int) (event : Row) : Moves w t₀ (park hour event) := by
  unfold park
  apply keeps_bind (moves_setMem _)
  intro _
  apply keeps_bind (moves_anchor _)
  intro _
  apply keeps_bind (moves_gets _)
  intro m
  apply keeps_bind (moves_env _)
  intro flushRows
  apply keeps_when
  exact keeps_bind (moves_writePart _ _ _) fun _ => moves_setMem _

theorem moves_hold (hour : Int) (event : Row) : Moves w t₀ (hold hour event) := by
  unfold hold
  apply keeps_bind (moves_env _)
  intro dedup
  apply keeps_ite _ fun _ => moves_park hour event
  intro _
  apply keeps_bind (moves_heldKeys hour)
  intro keys
  apply keeps_ite (fun _ => moves_pure _)
  exact fun _ => keeps_bind (moves_setMem _) fun _ => moves_park hour event

theorem moves_drain (hour : Int) : Moves w t₀ (drain hour) := by
  unfold drain
  apply keeps_bind (moves_gets _)
  intro m
  apply keeps_bind (moves_setMem _)
  intro _
  apply keeps_bind (moves_enterHour hour)
  intro _
  exact keeps_forEach moves_admitRow

theorem moves_corroborate (hour : Int) (event : Row) : Moves w t₀ (corroborate hour event) := by
  unfold corroborate
  apply keeps_bind
  · exact fun _ start => start.aside rfl rfl
  intro confirmed
  apply keeps_bind (moves_gets _)
  intro m
  apply keeps_bind (keeps_forEach moves_drain)
  intro _
  apply keeps_ite _ fun _ => moves_hold hour event
  exact fun _ => keeps_bind (moves_enterHour hour) fun _ => moves_admitRow event

theorem moves_append (event : Row) : Moves w t₀ (append event) := by
  unfold append
  apply keeps_bind moves_utcnow
  intro now
  apply keeps_bind (moves_gets _)
  intro m
  apply keeps_ite (fun _ => moves_setMem _)
  intro _
  apply keeps_bind (moves_setMem _)
  intro _
  apply keeps_ite (fun _ => moves_pure _)
  intro _
  apply keeps_bind (moves_env _)
  intro oracle
  apply keeps_ite (fun _ => moves_corroborate _ event)
  exact fun _ => keeps_bind (moves_enterHour _) fun _ => moves_admitRow event

theorem moves_close : Moves w t₀ close := by
  unfold close
  apply keeps_bind moves_flushBuffer
  intro _
  apply keeps_bind (moves_gets _)
  intro m
  apply keeps_bind _ fun _ => moves_setMem _
  apply keeps_forEach
  intro held
  exact keeps_when (keeps_bind (moves_writePart _ _ _) fun _ => moves_pure _)

theorem moves_attemptHour {finalize : Seg Unit} (h : Moves w t₀ finalize) (hour : Int) :
    Moves w t₀ (attemptHour hour finalize) := by
  unfold attemptHour
  apply keeps_bind (moves_gets _)
  intro before
  apply keeps_bind h
  intro _
  exact keeps_bind (moves_gets _) fun _ => moves_pure _

theorem moves_finalizeOpen (cutoff : Int) : Moves w t₀ (finalizeOpen cutoff) := by
  unfold finalizeOpen
  apply keeps_bind (moves_gets _)
  intro m
  cases m.currentHour.filter (· < cutoff) with
  | none => exact moves_pure _
  | some hour =>
    apply keeps_bind (moves_attemptHour (moves_finalizeHour hour) hour)
    intro attempted
    exact keeps_bind (moves_setMem _) fun _ => moves_pure _

theorem moves_finalizeCompletedHours (cutoff : Int) : Moves w t₀ (finalizeCompletedHours cutoff) := by
  unfold finalizeCompletedHours
  apply keeps_bind (moves_env _)
  intro oracle
  apply keeps_ite (fun _ => keeps_raise)
  intro _
  apply keeps_bind (moves_finalizeOpen cutoff)
  intro opened
  apply keeps_bind (moves_gets _)
  intro stuck
  apply keeps_bind (moves_gets _)
  intro left
  apply keeps_bind (keeps_collect fun hour => moves_attemptHour (moves_mergeHour hour) hour)
  intro swept
  exact keeps_bind (moves_setMem _) fun _ => moves_pure _

/- Construction. -/

theorem moves_recoverHour (hour : Int) : Moves w t₀ (recoverHour hour) := by
  unfold recoverHour
  apply keeps_gets_bind
  intro t reached
  simp only [wp_ite, wp_pure, wp_raise]
  split
  · exact reached
  · rename_i unpublished
    split
    · exact reached
    · rename_i merged
      obtain ⟨m, merging⟩ := Option.ne_none_iff_exists'.mp (by simpa using merged)
      have ready : At t₀ (Ready hour m) t := ⟨reached, merging, by simpa using unpublished⟩
      have aside : Goes w t₀ (Ready hour m) (fun _ _ => True)
          (quarantine fun t => t.quarantineMerging hour) :=
        goes_quarantine (fun t ready => .quarantineMerging t hour m ready.merging ready.final)
          fun _ _ => trivial
      rw [wp_bind]
      apply wp_mono (goes_readsBack t ready)
      · intro reads t ready
        cases reads with
        | true => exact wp_mono (goes_commit m t ready) (fun _ _ h => h.reached) (fun _ h => h) fun _ h => h
        | false => exact wp_mono (aside t ready) (fun _ _ h => h.reached) (fun _ h => h) fun _ h => h
      · exact fun _ h => h
      · exact fun _ h => h

theorem moves_recover : Moves w t₀ recover := by
  unfold recover
  apply keeps_bind (moves_gets _)
  intro hours
  apply keeps_bind (keeps_forEach fun hour =>
    keeps_attempt (moves_recoverHour hour) (moves_pure _))
  intro _
  apply keeps_bind (moves_gets _)
  intro segments
  apply keeps_bind (keeps_collect fun hour => keeps_bind moves_utcnow fun _ => moves_pure _)
  exact fun closed => moves_setMem _

theorem moves_construct : Moves w t₀ construct := by
  unfold construct
  apply keeps_bind moves_utcnow
  intro now
  exact keeps_bind (moves_setMem _) fun _ => moves_recover

/- Runs. -/

theorem after_tape (out : Outcome α × Tape) : (System.after out).tape = out.2 := by
  rcases out with ⟨_ | _ | _, t⟩ <;> rfl

theorem answer_reached {m : Seg α} {s : System} (h : Moves w s.tape m) :
    Reached s.tape (s.answer w m).tape := by
  unfold System.answer
  split
  · rw [after_tape]
    exact Keeps.final h .refl
  · exact .refl

theorem step_reached (w : World) (s : System) (input : Input) :
    Reached s.tape (step w s input).tape := by
  cases input with
  | start =>
    show Reached s.tape (System.after (construct w s.tape)).tape
    rw [after_tape]
    exact Keeps.final moves_construct .refl
  | append event => exact answer_reached (moves_append event)
  | close => exact answer_reached moves_close
  | finalizeCompletedHours cutoff => exact answer_reached (moves_finalizeCompletedHours cutoff)

theorem run_reached (w : World) (inputs : List Input) :
    Reached System.blank.tape (run w inputs).tape := by
  have further : ∀ s : System, Reached s.tape (inputs.foldl (step w) s).tape := by
    induction inputs with
    | nil => exact fun s => .refl
    | cons input rest ih => exact fun s => (step_reached w s input).trans (ih _)
  exact further System.blank

end

end Segments
