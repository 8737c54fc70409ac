import Zcrypto.Capture.Durability
import Zcrypto.Capture.Merging
import Zcrypto.Capture.NoEarlyHour

/- What an hour's files hold of what has landed. Where nothing was set aside and no part landed beside
   a merging file, they hold each row that landed as often as it did. -/
namespace Segments
open Effects Effects.Prog

/-- The rows of the parts that reached the disk, in the order in which they did. -/
def landedRows : List Event → List Row
  | [] => []
  | .landed _ rows _ :: rest => landedRows rest ++ rows
  | .unlinked .. :: rest => landedRows rest

/-- Those of one hour. -/
def landedIn (hour : Int) : List Event → List Row
  | [] => []
  | .landed other rows _ :: rest =>
    if other = hour then landedIn hour rest ++ rows else landedIn hour rest
  | .unlinked .. :: rest => landedIn hour rest

/-- The rows of an hour. A merging file stands for the parts it was merged from. -/
def HourFiles.stored (f : HourFiles) : List Row :=
  f.final.getD [] ++ f.merging.getD (f.parts.flatMap File.rows)

/-- Every part that landed has rows, of its hour, and no merging file was there. -/
def Filed (trace : List Event) : Prop :=
  ∀ hour rows beside, .landed hour rows beside ∈ trace →
    beside = false ∧ rows ≠ [] ∧ ∀ r ∈ rows, hourStart r.ts = hour

def Spotless (d : Disk) : Prop := ∀ hour, (d.files hour).corrupt = []

section
variable {trace : List Event} {hour : Int} {r : Row}

theorem landedIn_eq (filed : Filed trace) :
    landedIn hour trace = (landedRows trace).filter fun r => hourStart r.ts = hour := by
  induction trace with
  | nil => rfl
  | cons ev rest ih =>
    have before := ih fun h rows beside mem => filed h rows beside (List.mem_cons_of_mem ev mem)
    cases ev with
    | landed other rows beside =>
      have own := (filed other rows beside List.mem_cons_self).2.2
      simp only [landedIn, landedRows, List.filter_append, before]
      split
      · rename_i same
        subst same
        have all : rows.filter (fun r => hourStart r.ts = other) = rows :=
          List.filter_eq_self.mpr fun r mem => by simpa using own r mem
        rw [all]
      · rename_i different
        have none : rows.filter (fun r => hourStart r.ts = hour) = [] := by
          apply List.filter_eq_nil_iff.mpr
          intro r mem
          rw [own r mem]
          simpa using different
        rw [none, List.append_nil]
    | unlinked other rows merging => simpa [landedIn, landedRows] using before

theorem Filed.tail {ev : Event} (filed : Filed (ev :: trace)) : Filed trace :=
  fun hour rows beside mem => filed hour rows beside (List.mem_cons_of_mem ev mem)

end

/- One change. -/

theorem Move.spotless {t t' : Tape} (move : Move t t') (spotless : Spotless t'.disk) :
    Spotless t.disk := by
  have put {hour : Int} {f : HourFiles} (same : t'.disk = t.disk.put hour f)
      (grows : f.corrupt = [] → (t.disk.files hour).corrupt = []) : Spotless t.disk := by
    intro other
    have there := spotless other
    rw [same, files_put] at there
    split at there
    · rename_i same
      subst same
      exact grows there
    · exact there
  cases move with
  | aside disk trace =>
    rw [disk] at spotless
    exact spotless
  | mkdir hour =>
    intro other
    have there := spotless other
    unfold Disk.mkdir at there
    split at there
    · exact there
    · exact there
  | land hour rows marker =>
    cases marker with
    | part => exact put rfl fun none => none
    | held => exact put rfl fun none => none
  | redeem hour file => exact put rfl fun none => none
  | sink hour inputs some merging final parts whole => exact put rfl fun none => none
  | certify hour m merging final => exact put rfl fun none => none
  | unlink hour file m merging final manifest there => exact put rfl fun none => none
  | publish hour m merging final manifest parts => exact put rfl fun none => none
  | quarantinePart hour file merging final there => exact put rfl fun none => by cases none
  | quarantineFinal hour rows merging final =>
    refine put rfl fun none => ?_
    rw [final] at none
    cases none
  | quarantineMerging hour m merging final =>
    refine put rfl fun none => ?_
    rw [merging] at none
    cases none

theorem Reached.spotless {t t' : Tape} (reached : Reached t t') (spotless : Spotless t'.disk) :
    Spotless t.disk := by
  induction reached with
  | refl => exact spotless
  | tail _ move ih => exact ih (move.spotless spotless)

/-- What an hour's files hold is what landed in it. -/
structure Content (hour : Int) (f : HourFiles) (trace : List Event) : Prop where
  stored : f.stored = landedIn hour trace
  parts : ∀ p ∈ f.parts, ∃ beside, .landed hour p.rows beside ∈ trace
  merging : f.merging ≠ some []
  final : f.final ≠ some []

def Contents (d : Disk) (trace : List Event) : Prop := ∀ hour, Content hour (d.files hour) trace

section
variable {d : Disk} {trace : List Event} {hour : Int} {f : HourFiles}

theorem Content.unlinked {other : Int} {rows : List Row} {merging : Option (List Row)}
    (h : Content hour f trace) : Content hour f (.unlinked other rows merging :: trace) := by
  refine ⟨h.stored, ?_, h.merging, h.final⟩
  intro p mem
  obtain ⟨beside, landed⟩ := h.parts p mem
  exact ⟨beside, List.mem_cons_of_mem _ landed⟩

theorem Contents.put (h : Contents d trace) (content : Content hour f trace) : Contents (d.put hour f) trace := by
  intro other
  rw [files_put]
  split
  · rename_i same
    subst same
    exact content
  · exact h other

/-- A part lands in an hour that has no merging file. -/
theorem Contents.landPart {t : Tape} {rows : List Row} (h : Contents t.disk t.trace)
    (parts : f.parts = (t.disk.files hour).parts) (merging : f.merging = (t.disk.files hour).merging)
    (final : f.final = (t.disk.files hour).final) (filed : Filed (t.landPart hour rows f).trace) :
    Contents (t.landPart hour rows f).disk (t.landPart hour rows f).trace := by
  have none : (t.disk.files hour).merging = none := by
    simpa [merging] using (filed hour rows _ List.mem_cons_self).1
  intro other
  unfold Tape.landPart
  dsimp only
  rw [files_put]
  split
  · rename_i here
    subst here
    have content := h other
    have before := content.stored
    simp only [HourFiles.stored, none, Option.getD_none] at before
    refine ⟨?_, ?_, by rw [merging]; exact content.merging, by rw [final]; exact content.final⟩
    · simp [HourFiles.stored, parts, merging, final, none, landedIn, ← before]
    · intro p mem
      rcases List.mem_append.mp mem with old | new
      · obtain ⟨b, landed⟩ := content.parts p (parts ▸ old)
        exact ⟨b, List.mem_cons_of_mem _ landed⟩
      · obtain rfl := List.mem_singleton.mp new
        exact ⟨_, List.mem_cons_self⟩
  · rename_i elsewhere
    have content := h other
    have apart : ¬ hour = other := fun same => elsewhere same.symm
    refine ⟨by simp [landedIn, apart, content.stored], ?_, content.merging, content.final⟩
    intro p mem
    obtain ⟨b, landed⟩ := content.parts p mem
    exact ⟨b, List.mem_cons_of_mem _ landed⟩

end

theorem Contents.move {t t' : Tape} (held : Contents t.disk t.trace) (move : Move t t')
    (spotless : Spotless t'.disk) (filed : Filed t'.trace) : Contents t'.disk t'.trace := by
  have before := move.spotless spotless
  cases move with
  | aside disk trace =>
    rw [disk, trace]
    exact held
  | mkdir hour =>
    intro other
    unfold Disk.mkdir
    split
    · exact held other
    · exact held other
  | land hour rows marker =>
    cases marker with
    | part => exact held.landPart rfl rfl rfl filed
    | held => exact held.put ⟨(held hour).stored, (held hour).parts, (held hour).merging, (held hour).final⟩
  | redeem hour file => exact held.landPart rfl rfl rfl filed
  | sink hour inputs some merging final parts whole =>
    have content := held hour
    have inside := whole (before hour)
    apply held.put
    refine ⟨?_, content.parts, ?_, content.final⟩
    · rw [← content.stored]
      simp [HourFiles.stored, merging, inside]
    · intro nothing
      obtain ⟨file, mem⟩ := List.exists_mem_of_ne_nil inputs some
      obtain ⟨beside, landed⟩ := content.parts file (inside ▸ mem)
      have rows := List.flatMap_eq_nil_iff.mp (Option.some.inj nothing) file mem
      exact (filed hour file.rows beside landed).2.1 rows
  | certify hour m merging final =>
    exact held.put ⟨(held hour).stored, (held hour).parts, (held hour).merging, (held hour).final⟩
  | unlink hour file m merging final manifest there =>
    have content := held hour
    have put : Contents (t.disk.put hour
        { t.disk.files hour with parts := (t.disk.files hour).parts.filter (· ≠ file) }) t.trace := by
      apply held.put
      refine ⟨?_, ?_, content.merging, content.final⟩
      · rw [← content.stored]
        simp [HourFiles.stored, merging]
      · exact fun p mem => content.parts p (List.mem_of_mem_filter mem)
    exact fun other => (put other).unlinked
  | publish hour m merging final manifest parts =>
    have content := held hour
    apply held.put
    refine ⟨?_, content.parts, by simp, ?_⟩
    · rw [← content.stored]
      simp [HourFiles.stored, merging, final, parts]
    · simpa [merging] using content.merging
  | quarantinePart hour file merging final there =>
    have nothing := spotless hour
    simp [Tape.quarantinePart, Tape.setFiles] at nothing
  | quarantineFinal hour rows merging final =>
    have nothing := spotless hour
    simp [Tape.quarantineFinal, Tape.setFiles, final] at nothing
  | quarantineMerging hour m merging final =>
    have nothing := spotless hour
    simp [Tape.quarantineMerging, Tape.setFiles, merging] at nothing

/-- An hour that no part has landed in has none, and nothing was made of any. -/
structure Bare (f : HourFiles) : Prop where
  parts : f.parts = []
  merging : f.merging = none
  final : f.final = none
  corrupt : f.corrupt = []

theorem Bare.put {d : Disk} {hour other : Int} {f : HourFiles} (bare : Bare (d.files hour))
    (own : other = hour → Bare f) : Bare ((d.put other f).files hour) := by
  rw [files_put]
  split
  · rename_i same
    exact own same.symm
  · exact bare

theorem Bare.move {t t' : Tape} {hour : Int} (bare : Bare (t.disk.files hour)) (move : Move t t')
    (unlanded : ∀ rows beside, .landed hour rows beside ∉ t'.trace) : Bare (t'.disk.files hour) := by
  cases move with
  | aside disk trace => exact disk ▸ bare
  | mkdir other =>
    unfold Disk.mkdir
    split
    · exact bare
    · exact bare
  | land other rows marker =>
    cases marker with
    | part =>
      apply bare.put
      rintro rfl
      exact absurd List.mem_cons_self (unlanded rows _)
    | held =>
      apply bare.put
      rintro rfl
      exact ⟨bare.parts, bare.merging, bare.final, bare.corrupt⟩
  | redeem other file =>
    apply bare.put
    rintro rfl
    exact absurd List.mem_cons_self (unlanded file.rows _)
  | sink other inputs some merging final parts whole =>
    apply bare.put
    rintro rfl
    exact absurd ((whole bare.corrupt).trans bare.parts) some
  | certify other m merging final =>
    apply bare.put
    rintro rfl
    exact ⟨bare.parts, bare.merging, bare.final, bare.corrupt⟩
  | unlink other file m merging final manifest there =>
    apply bare.put
    rintro rfl
    exact absurd (bare.merging.symm.trans merging) (by simp)
  | publish other m merging final manifest parts =>
    apply bare.put
    rintro rfl
    exact absurd (bare.merging.symm.trans merging) (by simp)
  | quarantinePart other file merging final there =>
    apply bare.put
    rintro rfl
    have inside := there bare.corrupt
    rw [bare.parts] at inside
    cases inside
  | quarantineFinal other rows merging final =>
    apply bare.put
    rintro rfl
    exact absurd (bare.final.symm.trans final) (by simp)
  | quarantineMerging other m merging final =>
    apply bare.put
    rintro rfl
    exact absurd (bare.merging.symm.trans merging) (by simp)

theorem Move.trace_grows {t t' : Tape} (move : Move t t') : ∀ ev ∈ t.trace, ev ∈ t'.trace := by
  cases move with
  | aside disk trace =>
    rw [trace]
    exact fun _ mem => mem
  | land hour rows marker =>
    cases marker with
    | part => exact fun _ mem => List.mem_cons_of_mem _ mem
    | held => exact fun _ mem => mem
  | redeem hour file => exact fun _ mem => List.mem_cons_of_mem _ mem
  | unlink hour file m merging final manifest there => exact fun _ mem => List.mem_cons_of_mem _ mem
  | _ => exact fun _ mem => mem

theorem Reached.bare {t t' : Tape} {hour : Int} (reached : Reached t t')
    (bare : Bare (t.disk.files hour)) (unlanded : ∀ rows beside, .landed hour rows beside ∉ t'.trace) :
    Bare (t'.disk.files hour) := by
  induction reached with
  | refl => exact bare
  | tail _ move ih =>
    have before := ih fun rows beside mem => unlanded rows beside (move.trace_grows _ mem)
    exact before.move move unlanded

theorem Move.filed {t t' : Tape} (move : Move t t') (filed : Filed t'.trace) : Filed t.trace := by
  cases move with
  | aside disk trace =>
    rw [trace] at filed
    exact filed
  | land hour rows marker =>
    cases marker with
    | part => exact filed.tail
    | held => exact filed
  | redeem hour file => exact filed.tail
  | unlink hour file m merging final manifest there => exact filed.tail
  | _ => exact filed

theorem Reached.contents {t t' : Tape} (reached : Reached t t') (contents : Contents t.disk t.trace)
    (spotless : Spotless t'.disk) (filed : Filed t'.trace) : Contents t'.disk t'.trace := by
  induction reached with
  | refl => exact contents
  | tail _ move ih =>
    exact (ih (move.spotless spotless) (move.filed filed)).move move spotless filed

end Segments
