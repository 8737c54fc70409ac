import Zcrypto.Archive.Pull
import Zcrypto.Capture.Durability

/- Which parts a pull deletes. An hour that is merged once, with every part of it readable and none
   after it, has a final with the rows of all its parts, and the mirror's final is that one. -/
namespace Pull
open Segments

/- An hour merged once. -/

def Unlinked (trace : List Event) (hour : Int) : Prop := ∃ rows m, .unlinked hour rows m ∈ trace

/-- A part reaches the hour, and one of its parts was unlinked. -/
def Reopens (hour : Int) : Event → Event → Prop
  | .landed later _ _, .unlinked earlier _ _ => later = hour ∧ earlier = hour
  | _, _ => False

/-- No part reached an hour beside its merging file, nor this hour after its parts were unlinked, and
    no file of it was set aside as unreadable. -/
structure Untroubled (t : Tape) (hour : Int) : Prop where
  clear : Clear t.trace
  once : t.trace.Pairwise fun later earlier => ¬Reopens hour later earlier
  readable : (t.disk.files hour).corrupt = []

/-- A final stands alone, and an hour with neither a final nor a merging file has lost no part. -/
structure Merged (t : Tape) (hour : Int) : Prop where
  published : ∀ rows, (t.disk.files hour).final = some rows →
    (t.disk.files hour).parts = [] ∧ (t.disk.files hour).merging = none ∧ Unlinked t.trace hour
  merging : ∀ m, (t.disk.files hour).merging = some m →
    (t.disk.files hour).parts ≠ [] ∨ Unlinked t.trace hour

section
variable {t t' : Tape} {hour : Int}

theorem move_trace (move : Move t t') : t.trace <:+ t'.trace := by
  cases move with
  | aside disk trace =>
    exact trace ▸ List.suffix_rfl
  | land hour rows marker =>
    cases marker with
    | part => exact List.suffix_cons _ _
    | held => exact List.suffix_rfl
  | redeem hour file => exact List.suffix_cons _ _
  | unlink hour file m merging final manifest there => exact List.suffix_cons _ _
  | _ => exact List.suffix_rfl

/-- What was set aside stays aside. -/
theorem move_corrupt (move : Move t t')
    (readable : (t'.disk.files hour).corrupt = []) : (t.disk.files hour).corrupt = [] := by
  have put {h : Int} {f : HourFiles} (same : ((t.disk.put h f).files hour).corrupt = [])
      (kept : f.corrupt = [] → (t.disk.files h).corrupt = []) :
      (t.disk.files hour).corrupt = [] := by
    rw [files_put] at same
    split at same
    · rename_i here
      rw [here]
      exact kept same
    · exact same
  cases move with
  | aside disk trace => rwa [disk] at readable
  | mkdir hour' =>
    have same : (t.disk.mkdir hour').files = t.disk.files := by
      unfold Disk.mkdir
      split <;> rfl
    simpa only [same] using readable
  | land hour' rows marker => cases marker <;> exact put readable id
  | redeem hour' file => exact put readable id
  | sink hour' inputs some merging final parts whole => exact put readable id
  | certify hour' m merging final => exact put readable id
  | unlink hour' file m merging final manifest there => exact put readable id
  | publish hour' m merging final manifest parts => exact put readable id
  | quarantinePart hour' file merging final there => exact put readable fun none => by cases none
  | quarantineFinal hour' rows merging final => exact put readable fun none => by simp [final] at none
  | quarantineMerging hour' m merging final =>
    exact put readable fun none => by simp [merging] at none

theorem move_untroubled (move : Move t t') (untroubled : Untroubled t' hour) :
    Untroubled t hour := by
  have earlier := move_trace move
  refine ⟨?_, untroubled.once.sublist earlier.sublist, move_corrupt move untroubled.readable⟩
  intro other rows mem
  exact untroubled.clear other rows (earlier.mem mem)

/-- The files of an hour become others, and so for what is known of them. -/
theorem Merged.put {other : Int} {f : HourFiles} {trace : List Event} (h : Merged t hour)
    (later : t.trace <:+ trace)
    (published : other = hour → ∀ rows, f.final = some rows →
      f.parts = [] ∧ f.merging = none ∧ Unlinked trace hour)
    (merging : other = hour → ∀ m, f.merging = some m → f.parts ≠ [] ∨ Unlinked trace hour) :
    Merged { t with disk := t.disk.put other f, trace := trace } hour := by
  have still (unlinked : Unlinked t.trace hour) : Unlinked trace hour := by
    obtain ⟨rows, m, mem⟩ := unlinked
    exact ⟨rows, m, later.mem mem⟩
  constructor
  · intro rows
    rw [files_put]
    split
    · rename_i here
      exact published here.symm rows
    · intro final
      obtain ⟨parts, none, unlinked⟩ := h.published rows final
      exact ⟨parts, none, still unlinked⟩
  · intro m
    rw [files_put]
    split
    · rename_i here
      exact merging here.symm m
    · intro there
      exact (h.merging m there).imp_right still

theorem Merged.same {f : HourFiles} {trace : List Event} {other : Int} (h : Merged t hour)
    (later : t.trace <:+ trace) (parts : f.parts = (t.disk.files other).parts)
    (merging : f.merging = (t.disk.files other).merging)
    (final : f.final = (t.disk.files other).final) :
    Merged { t with disk := t.disk.put other f, trace := trace } hour := by
  have still (unlinked : Unlinked t.trace hour) : Unlinked trace hour := by
    obtain ⟨rows, m, mem⟩ := unlinked
    exact ⟨rows, m, later.mem mem⟩
  apply h.put later
  · rintro rfl rows there
    obtain ⟨none, alone, unlinked⟩ := h.published rows (final.symm.trans there)
    exact ⟨parts.trans none, merging.trans alone, still unlinked⟩
  · rintro rfl m there
    rw [parts]
    exact (h.merging m (merging.symm.trans there)).imp_right still

/-- A part that lands in an untroubled hour finds neither a final nor a merging file. -/
theorem Merged.fresh {rows : List Row} {beside : Bool} (h : Merged t hour)
    (untroubled : Untroubled t' hour) (same : beside = (t.disk.files hour).merging.isSome)
    (landed : t'.trace = .landed hour rows beside :: t.trace) :
    (t.disk.files hour).final = none ∧ (t.disk.files hour).merging = none := by
  constructor
  · cases final : (t.disk.files hour).final with
    | none => rfl
    | some bytes =>
      obtain ⟨-, -, old, m, mem⟩ := h.published bytes final
      have once := untroubled.once
      rw [landed] at once
      exact ((List.pairwise_cons.mp once).1 _ mem ⟨rfl, rfl⟩).elim
  · cases merging : (t.disk.files hour).merging with
    | none => rfl
    | some m =>
      rw [merging] at same
      have clear := untroubled.clear hour rows
      rw [landed, same] at clear
      exact (clear List.mem_cons_self).elim

/-- A part lands, with the hour's other files as they are. -/
theorem Merged.land {other : Int} {rows : List Row} {f : HourFiles} (h : Merged t hour)
    (merging : f.merging = (t.disk.files other).merging)
    (final : f.final = (t.disk.files other).final)
    (untroubled : Untroubled (t.landPart other rows f) hour) :
    Merged (t.landPart other rows f) hour := by
  have fresh : other = hour → f.final = none ∧ f.merging = none := by
    rintro rfl
    rw [merging, final]
    exact h.fresh untroubled (congrArg _ merging) rfl
  apply h.put (List.suffix_cons _ _)
  · intro here bytes there
    rw [show f.final = none from (fresh here).1] at there
    cases there
  · intro here m there
    rw [show f.merging = none from (fresh here).2] at there
    cases there

theorem Merged.move (h : Merged t hour) (move : Move t t') (untroubled : Untroubled t' hour) :
    Merged t' hour := by
  cases move with
  | aside disk trace =>
    constructor
    · rw [disk, trace]
      exact h.published
    · rw [disk, trace]
      exact h.merging
  | mkdir other =>
    have same : (t.disk.mkdir other).files = t.disk.files := by
      unfold Disk.mkdir
      split <;> rfl
    exact ⟨by simpa only [same] using h.published, by simpa only [same] using h.merging⟩
  | land other rows marker =>
    cases marker with
    | part => exact h.land rfl rfl untroubled
    | held => exact h.same List.suffix_rfl rfl rfl rfl
  | redeem other file => exact h.land (f := { t.disk.files other with
      held := (t.disk.files other).held.filter (· ≠ file) }) rfl rfl untroubled
  | sink other inputs some merging final parts whole =>
    apply h.put List.suffix_rfl
    · rintro rfl bytes there
      rw [final] at there
      cases there
    · rintro rfl m _
      left
      have readable := untroubled.readable
      simp only [Tape.sinkMerging, Tape.setFiles, files_put_self] at readable
      rw [← whole readable]
      exact some
  | certify other m merging final => exact h.same List.suffix_rfl rfl rfl rfl
  | unlink other file m merging final manifest there =>
    apply h.put (List.suffix_cons _ _)
    · rintro rfl bytes there
      rw [final] at there
      cases there
    · rintro rfl m _
      exact .inr ⟨_, _, List.mem_cons_self⟩
  | publish other m merging final manifest parts =>
    apply h.put List.suffix_rfl
    · rintro rfl bytes _
      refine ⟨parts, rfl, ?_⟩
      rcases h.merging m merging with some | unlinked
      · exact absurd parts some
      · exact unlinked
    · rintro rfl m there
      cases there
  | quarantinePart other file merging final there =>
    apply h.put List.suffix_rfl
    · rintro rfl bytes there
      rw [final] at there
      cases there
    · rintro rfl m there
      rw [merging] at there
      cases there
  | quarantineFinal other rows merging final =>
    apply h.put List.suffix_rfl
    · rintro rfl bytes there
      cases there
    · rintro rfl m there
      rw [merging] at there
      cases there
  | quarantineMerging other m merging final =>
    apply h.put List.suffix_rfl
    · rintro rfl bytes there
      rw [final] at there
      cases there
    · rintro rfl m there
      cases there

/-- A final that is there stays, as it is. -/
theorem move_final (move : Move t t') (untroubled : Untroubled t' hour) {rows : List Row}
    (final : (t.disk.files hour).final = some rows) : (t'.disk.files hour).final = some rows := by
  have put {h : Int} {f : HourFiles}
      (kept : (t.disk.files h).final = some rows → f.final = some rows) :
      ((t.disk.put h f).files hour).final = some rows := by
    rw [files_put]
    split
    · rename_i here
      rw [here] at final
      exact kept final
    · exact final
  cases move with
  | aside disk trace => rwa [disk]
  | mkdir hour' =>
    have same : (t.disk.mkdir hour').files = t.disk.files := by
      unfold Disk.mkdir
      split <;> rfl
    simpa only [same] using final
  | land hour' rows' marker => cases marker <;> exact put id
  | redeem hour' file => exact put id
  | sink hour' inputs some merging final' parts whole => exact put id
  | certify hour' m merging final' => exact put id
  | unlink hour' file m merging final' manifest there => exact put id
  | publish hour' m merging final' manifest parts =>
    exact put fun there => by simp [final'] at there
  | quarantinePart hour' file merging final' there => exact put id
  | quarantineFinal hour' rows' merging final' =>
    by_cases here : hour' = hour
    · subst here
      have readable := untroubled.readable
      simp [Tape.quarantineFinal, Tape.setFiles, final'] at readable
    · show ((t.disk.put hour' _).files hour).final = some rows
      rw [files_put, if_neg fun same => here same.symm]
      exact final
  | quarantineMerging hour' m merging final' => exact put id

/-- Every part on disk has landed. -/
def Landed (t : Tape) : Prop :=
  ∀ hour, ∀ part ∈ (t.disk.files hour).parts, ∃ beside, .landed hour part.rows beside ∈ t.trace

theorem Landed.put {hour : Int} {f : HourFiles} {trace : List Event} (h : Landed t)
    (later : t.trace <:+ trace) (parts : ∀ part ∈ f.parts,
      part ∈ (t.disk.files hour).parts ∨ ∃ beside, .landed hour part.rows beside ∈ trace) :
    Landed { t with disk := t.disk.put hour f, trace := trace } := by
  have still {other : Int} {part : File} (mem : part ∈ (t.disk.files other).parts) :
      ∃ beside, .landed other part.rows beside ∈ trace := by
    obtain ⟨beside, landed⟩ := h other part mem
    exact ⟨beside, later.mem landed⟩
  intro other part mem
  rw [files_put] at mem
  split at mem
  · rename_i here
    subst here
    rcases parts part mem with old | new
    · exact still old
    · exact new
  · exact still mem

theorem Landed.move (h : Landed t) (move : Move t t') : Landed t' := by
  have stays (hour : Int) : ∀ part ∈ (t.disk.files hour).parts,
      part ∈ (t.disk.files hour).parts ∨ ∃ beside, .landed hour part.rows beside ∈ t.trace :=
    fun _ mem => .inl mem
  have one (hour : Int) (rows : List Row) (seq : Nat) (beside : Bool) :
      ∀ part ∈ (t.disk.files hour).parts ++ [⟨seq, rows⟩], part ∈ (t.disk.files hour).parts ∨
        ∃ b, .landed hour part.rows b ∈ Event.landed hour rows beside :: t.trace := by
    intro part mem
    rcases List.mem_append.mp mem with old | new
    · exact .inl old
    · rw [List.mem_singleton.mp new]
      exact .inr ⟨beside, List.mem_cons_self⟩
  cases move with
  | aside disk trace =>
    unfold Landed
    rw [disk, trace]
    exact h
  | mkdir hour =>
    have same : (t.disk.mkdir hour).files = t.disk.files := by
      unfold Disk.mkdir
      split <;> rfl
    unfold Landed at h ⊢
    simpa only [same] using h
  | land hour rows marker =>
    cases marker with
    | part => exact h.put (List.suffix_cons _ _) (one hour rows _ _)
    | held => exact h.put List.suffix_rfl (stays hour)
  | redeem hour file => exact h.put (List.suffix_cons _ _) (one hour file.rows _ _)
  | sink hour inputs some merging final parts whole => exact h.put List.suffix_rfl (stays hour)
  | certify hour m merging final => exact h.put List.suffix_rfl (stays hour)
  | unlink hour file m merging final manifest there =>
    exact h.put (List.suffix_cons _ _) fun _ mem => .inl (List.mem_of_mem_filter mem)
  | publish hour m merging final manifest parts => exact h.put List.suffix_rfl (stays hour)
  | quarantinePart hour file merging final there =>
    exact h.put List.suffix_rfl fun _ mem => .inl (List.mem_of_mem_filter mem)
  | quarantineFinal hour rows merging final => exact h.put List.suffix_rfl (stays hour)
  | quarantineMerging hour m merging final => exact h.put List.suffix_rfl (stays hour)

end

/- The mirror. -/

/-- What a history knows: every part that was copied has landed, and a final that was copied is the
    source's. -/
structure Faithful (t : Tape) (m : Mirror) : Prop where
  safe : Safe t.disk t.trace
  landed : Landed t
  merged : ∀ hour, Untroubled t hour → Merged t hour
  parts : ∀ hour, ∀ part ∈ (m hour).parts, ∃ beside, .landed hour part.rows beside ∈ t.trace
  final : ∀ hour, Untroubled t hour → ∀ rows, (m hour).final = some rows →
    (t.disk.files hour).final = some rows

section
variable {t t' : Tape} {m m' : Mirror} {s s' : Setup}

theorem Faithful.move (h : Faithful t m) (move : Move t t') : Faithful t' m := by
  refine ⟨h.safe.move move, h.landed.move move, ?_, ?_, ?_⟩
  · intro hour untroubled
    exact (h.merged hour (move_untroubled move untroubled)).move move untroubled
  · intro hour part mem
    obtain ⟨beside, landed⟩ := h.parts hour part mem
    exact ⟨beside, (move_trace move).mem landed⟩
  · intro hour untroubled rows final
    exact move_final move untroubled (h.final hour (move_untroubled move untroubled) rows final)

theorem mem_copy {d : Disk} {name : Name} {hour : Int} {part : File}
    (mem : part ∈ (m.copy d name hour).parts) :
    part ∈ (m hour).parts ∨ part ∈ (d.files hour).parts := by
  cases name with
  | part hour' seq =>
    cases found : (d.files hour').parts.find? fun f => f.seq = seq with
    | none => exact .inl (by simpa only [Mirror.copy, found] using mem)
    | some f =>
      simp only [Mirror.copy, found, Function.update_apply] at mem
      split at mem
      · rename_i here
        subst here
        simp only [List.mem_append, List.mem_filter, List.mem_singleton] at mem
        rcases mem with ⟨old, -⟩ | rfl
        · exact .inl old
        · exact .inr (List.mem_of_find?_eq_some found)
      · exact .inl mem
  | final hour' =>
    left
    cases found : (d.files hour').final with
    | none => simpa only [Mirror.copy, found] using mem
    | some rows =>
      simp only [Mirror.copy, found, Function.update_apply] at mem
      split at mem
      · rename_i here
        rwa [here]
      · exact mem
  | sidecar hour' =>
    left
    cases found : (d.files hour').manifest with
    | none => simpa only [Mirror.copy, found] using mem
    | some rows =>
      simp only [Mirror.copy, found, Function.update_apply] at mem
      split at mem
      · rename_i here
        rwa [here]
      · exact mem

theorem final_copy {d : Disk} {name : Name} {hour : Int} {rows : List Row}
    (final : (m.copy d name hour).final = some rows) :
    (m hour).final = some rows ∨ (d.files hour).final = some rows := by
  cases name with
  | part hour' seq =>
    left
    cases found : (d.files hour').parts.find? fun f => f.seq = seq with
    | none => simpa only [Mirror.copy, found] using final
    | some f =>
      simp only [Mirror.copy, found, Function.update_apply] at final
      split at final
      · rename_i here
        rwa [here]
      · exact final
  | final hour' =>
    cases found : (d.files hour').final with
    | none => exact .inl (by simpa only [Mirror.copy, found] using final)
    | some bytes =>
      simp only [Mirror.copy, found, Function.update_apply] at final
      split at final
      · rename_i here
        rw [here, found]
        exact .inr final
      · exact .inl final
  | sidecar hour' =>
    left
    cases found : (d.files hour').manifest with
    | none => simpa only [Mirror.copy, found] using final
    | some bytes =>
      simp only [Mirror.copy, found, Function.update_apply] at final
      split at final
      · rename_i here
        rwa [here]
      · exact final

theorem Faithful.copy (h : Faithful t m) (name : Name) : Faithful t (m.copy t.disk name) := by
  refine ⟨h.safe, h.landed, h.merged, ?_, ?_⟩
  · intro hour part mem
    rcases mem_copy mem with old | new
    · exact h.parts hour part old
    · exact h.landed hour part new
  · intro hour untroubled rows final
    rcases final_copy final with old | new
    · exact h.final hour untroubled rows old
    · exact new

theorem Faithful.prune (h : Faithful t m) (c : Cycle) : Faithful t (m.prune c) :=
  ⟨h.safe, h.landed, h.merged, fun hour part mem => h.parts hour part (List.mem_of_mem_filter mem),
    h.final⟩

theorem Faithful.interleaves {a b : Tape × Mirror} (h : Faithful a.1 a.2) (chain : Interleaves a b) :
    Faithful b.1 b.2 := by
  induction chain with
  | refl => exact h
  | tail _ last ih =>
    cases last with
    | change m move => exact ih.move move
    | copy t m name => exact ih.copy name
    | prune t m c => exact ih.prune c

theorem Faithful.course (h : Faithful s.host.tape s.mirror) (course : Course s s') :
    Faithful s'.host.tape s'.mirror := by
  cases course with
  | call w input m chain => exact Faithful.interleaves (a := (_, _)) h chain
  | copy name => exact h.copy name
  | prune c => exact h.prune c

theorem faithful_blank : Faithful Setup.blank.host.tape Setup.blank.mirror := by
  refine ⟨run_safe ⟨0, false, false, fun _ => .ok, fun _ => 0, fun _ => none⟩ [], ?_, ?_, ?_, ?_⟩
  · intro hour part mem
    cases mem
  · intro hour _
    constructor
    · intro rows final
      cases final
    · intro m merging
      cases merging
  · intro hour part mem
    cases mem
  · intro hour _ rows final
    cases final

theorem faithful_history (history : Relation.ReflTransGen Course Setup.blank s) :
    Faithful s.host.tape s.mirror := by
  induction history with
  | refl => exact faithful_blank
  | tail _ last ih => exact ih.course last

theorem faithful_passes (history : Relation.ReflTransGen Course Setup.blank s)
    (passes : Passes s t m) : Faithful t m := by
  have there := faithful_history history
  cases passes with
  | between => exact there
  | within w input before after => exact Faithful.interleaves (a := (_, _)) there before

/-- The final of an untroubled hour has the rows of every part that landed in it. -/
theorem Faithful.merges {hour : Int} {part : File} {rows : List Row} (h : Faithful t m)
    (untroubled : Untroubled t hour) (mem : part ∈ (m hour).parts) (final : (m hour).final = some rows) :
    part.rows <:+: rows := by
  obtain ⟨beside, landed⟩ := h.parts hour part mem
  have same := h.final hour untroubled rows final
  obtain ⟨none, merging, -⟩ := (h.merged hour untroubled).published rows same
  obtain ⟨c, held, inside⟩ := (h.safe untroubled.clear).durable.kept hour part.rows beside landed
  have only : c = rows := by
    simpa [HourFiles.contents, none, merging, same, untroubled.readable] using held
  rw [← only]
  exact inside

/-- The rows that the mirror has of an hour. -/
def MirrorHour.rows (h : MirrorHour) : List Row := h.parts.flatMap File.rows ++ h.final.getD []

/-- In every history, where no part reached an hour beside its merging file nor this hour after its
    parts were unlinked, and no file of it was set aside, a pull deletes a part only beside a final
    that verified and has every row of the part, and the mirror loses no row. -/
theorem pruned_parts_are_merged (history : Relation.ReflTransGen Course Setup.blank s)
    (passes : Passes s t m) (hour : Int) (untroubled : Untroubled t hour) (c : Cycle) :
    (∀ part ∈ (m hour).parts, part ∉ (m.prune c hour).parts →
      ∃ rows, (m hour).final = some rows ∧ (m hour).sidecar = some rows ∧ part.rows <:+: rows) ∧
    ∀ row ∈ (m hour).rows, row ∈ (m.prune c hour).rows := by
  have deleted : ∀ part ∈ (m hour).parts, part ∉ (m.prune c hour).parts →
      ∃ rows, (m hour).final = some rows ∧ (m hour).sidecar = some rows ∧ part.rows <:+: rows := by
    intro part mem gone
    have pruned : (verified m c.sliceOf c.scope hour && c.unlinks hour part) = true := by
      by_contra kept
      apply gone
      exact List.mem_filter.mpr ⟨mem, by rwa [Bool.not_eq_true', ← Bool.not_eq_true]⟩
    rw [Bool.and_eq_true] at pruned
    have whole : verifyManifest (m hour) = true := (Bool.and_eq_true_iff.mp pruned.1).2
    unfold verifyManifest at whole
    rw [Bool.and_eq_true, Option.isSome_iff_exists, decide_eq_true_eq] at whole
    obtain ⟨⟨rows, final⟩, sidecar⟩ := whole
    refine ⟨rows, final, sidecar.trans final, ?_⟩
    exact (faithful_passes history passes).merges untroubled mem final
  refine ⟨deleted, ?_⟩
  intro row mem
  rcases List.mem_append.mp mem with part | final
  · obtain ⟨part, inside, row_mem⟩ := List.mem_flatMap.mp part
    by_cases kept : part ∈ (m.prune c hour).parts
    · exact List.mem_append_left _ (List.mem_flatMap.mpr ⟨part, kept, row_mem⟩)
    · obtain ⟨rows, final, -, within⟩ := deleted part inside kept
      apply List.mem_append_right
      have same : (m.prune c hour).final = some rows := final
      rw [same]
      exact within.subset row_mem
  · exact List.mem_append_right _ final

end

/- Histories in which a pull copies between calls. -/

inductive Deed where
  | call (w : World) (input : Input)
  | copy (name : Name)

def Setup.after (s : Setup) : Deed → Setup
  | .call w input => ⟨step w s.host input, s.mirror⟩
  | .copy name => { s with mirror := s.mirror.copy s.host.tape.disk name }

def pulled (deeds : List Deed) : Setup := deeds.foldl Setup.after Setup.blank

theorem history_pulled (deeds : List Deed) :
    Relation.ReflTransGen Course Setup.blank (pulled deeds) := by
  have further : ∀ s : Setup, Relation.ReflTransGen Course s (deeds.foldl Setup.after s) := by
    induction deeds with
    | nil => exact fun s => .refl
    | cons deed rest ih =>
      intro s
      apply (ih (s.after deed)).head
      cases deed with
      | call w input =>
        apply Course.call
        exact (step_reached w s.host input).lift (fun t => (t, s.mirror)) fun _ _ => .change _
      | copy name => exact .copy s name
  exact further Setup.blank

def clocked (now : Int) : World := ⟨1, false, false, fun _ => .ok, fun _ => now, fun _ => none⟩

def everything : Cycle := ⟨fun _ => 0, ⟨none, 0⟩, fun _ _ => true⟩

/-- A part is copied, its hour is finalized when the next one begins, and the final is copied. -/
def twoHours : List Deed :=
  [.call (clocked 36000000020) .start,
    .call (clocked 36000000020) (.append ⟨36000000010, "a", "x"⟩),
    .copy (.part 36000000000 0),
    .call (clocked 39600000020) (.append ⟨39600000010, "b", "y"⟩),
    .copy (.final 36000000000), .copy (.sidecar 36000000000)]

theorem pruned_parts_are_merged_twoHours :
    ((pulled twoHours).mirror 36000000000).parts = [⟨0, [⟨36000000010, "a", "x"⟩]⟩] ∧
      ((pulled twoHours).mirror.prune everything 36000000000).parts = [] ∧
      ∃ rows, ((pulled twoHours).mirror 36000000000).final = some rows ∧
        [⟨36000000010, "a", "x"⟩] <:+: rows := by
  have parts : ((pulled twoHours).mirror 36000000000).parts = [⟨0, [⟨36000000010, "a", "x"⟩]⟩] := by
    decide +kernel
  have pruned : ((pulled twoHours).mirror.prune everything 36000000000).parts = [] := by
    decide +kernel
  have trace : (pulled twoHours).host.tape.trace =
      [.landed 39600000000 [⟨39600000010, "b", "y"⟩] false,
        .unlinked 36000000000 [⟨36000000010, "a", "x"⟩] (some [⟨36000000010, "a", "x"⟩]),
        .landed 36000000000 [⟨36000000010, "a", "x"⟩] false] := by
    decide +kernel
  have untroubled : Untroubled (pulled twoHours).host.tape 36000000000 := by
    refine ⟨?_, ?_, by decide +kernel⟩
    · intro hour rows
      rw [trace]
      simp
    · rw [trace]
      simp [Reopens]
  obtain ⟨rows, final, -, inside⟩ := (pruned_parts_are_merged (history_pulled twoHours) .between
    36000000000 untroubled everything).1 ⟨0, [⟨36000000010, "a", "x"⟩]⟩ (by rw [parts]; simp)
      (by rw [pruned]; simp)
  exact ⟨parts, pruned, rows, final, inside⟩

/-- A restart under a clock that lags leaves the final of the hour out of the floor, and a row that is
    replayed after it lands beside the final. -/
def lagging : List Deed :=
  [.call (clocked 36000000020) .start,
    .call (clocked 36000000020) (.append ⟨36000000010, "a", "x"⟩),
    .call (clocked 39600000020) (.append ⟨39600000010, "b", "y"⟩),
    .call (clocked 35400000000) .start,
    .call (clocked 35400000000) (.append ⟨36000000101, "c", "x"⟩),
    .call (clocked 35400000000) (.append ⟨36000000102, "d", "x"⟩),
    .call (clocked 35400000000) (.append ⟨36000000103, "e", "x"⟩),
    .call (clocked 35400000000) (.append ⟨36000000104, "f", "x"⟩),
    .copy (.part 36000000000 0), .copy (.final 36000000000), .copy (.sidecar 36000000000)]

theorem lagging_clock_prunes_rows : ¬ ∀ (s : Setup) (t : Tape) (m : Mirror),
    Relation.ReflTransGen Course Setup.blank s → Passes s t m → ∀ (c : Cycle) (hour : Int),
      ∀ part ∈ (m hour).parts, part ∉ (m.prune c hour).parts →
        ∃ rows, (m hour).final = some rows ∧ ∀ row ∈ part.rows, row ∈ rows := by
  intro all
  have mirrored : (pulled lagging).mirror 36000000000 = ⟨[⟨0, [⟨36000000104, "f", "x"⟩]⟩],
      some [⟨36000000010, "a", "x"⟩], some [⟨36000000010, "a", "x"⟩]⟩ := by
    decide +kernel
  have pruned : ((pulled lagging).mirror.prune everything 36000000000).parts = [] := by
    decide +kernel
  obtain ⟨rows, final, inside⟩ := all _ _ _ (history_pulled lagging) .between everything 36000000000
    ⟨0, [⟨36000000104, "f", "x"⟩]⟩ (by rw [mirrored]; simp) (by rw [pruned]; simp)
  rw [mirrored] at final
  obtain rfl := Option.some.inj final
  have missing := inside ⟨36000000104, "f", "x"⟩ (by simp)
  simp at missing

end Pull
