import Zcrypto.Capture.Moves
import Mathlib.Data.List.Infix

/- Where the rows of a part are at every later moment. A merge and a commit lose nothing while no
   part is written or redeemed beside a merging file; the wall-clock sweep can reopen an hour that
   has one. -/
namespace Segments
open Effects Effects.Prog

def HourFiles.contents (f : HourFiles) : List (List Row) :=
  f.parts.map File.rows ++ (f.merging.toList ++ (f.final.toList ++ f.corrupt))

/-- Some part, merging file, final or file set aside has these rows, whole and in order. -/
def HourFiles.Holds (f : HourFiles) (rows : List Row) : Prop := ∃ c ∈ f.contents, rows <:+: c

instance (f : HourFiles) (rows : List Row) : Decidable (f.Holds rows) := by
  unfold HourFiles.Holds
  infer_instance

/-- The parts are inside the merging file where there is one. -/
def HourFiles.Sealed (f : HourFiles) : Prop :=
  ∀ m, f.merging = some m → ∀ p ∈ f.parts, p.rows <:+: m

/-- No part has reached an hour whose merging file was on disk. -/
def Clear (trace : List Event) : Prop := ∀ hour rows, .landed hour rows true ∉ trace

structure Durable (d : Disk) (trace : List Event) : Prop where
  kept : ∀ hour rows beside, .landed hour rows beside ∈ trace → (d.files hour).Holds rows
  merged : ∀ hour rows merging, .unlinked hour rows merging ∈ trace →
    ∃ m, merging = some m ∧ rows <:+: m

structure Sound (d : Disk) (trace : List Event) : Prop where
  durable : Durable d trace
  sealed : ∀ hour, (d.files hour).Sealed

def Safe (d : Disk) (trace : List Event) : Prop := Clear trace → Sound d trace

theorem Clear.tail {ev : Event} {trace : List Event} (h : Clear (ev :: trace)) : Clear trace := by
  intro hour rows mem
  exact h hour rows (List.mem_cons_of_mem _ mem)

section
variable {d : Disk} {trace : List Event} {hour : Int} {f : HourFiles}

/-- The files of an hour become others that hold no less. -/
theorem Sound.put (h : Sound d trace) (grows : ∀ rows, (d.files hour).Holds rows → f.Holds rows)
    (stays : f.Sealed) : Sound (d.put hour f) trace := by
  constructor
  · constructor
    · intro other rows beside landed
      rw [files_put]
      split
      · subst other
        exact grows rows (h.durable.kept hour rows beside landed)
      · exact h.durable.kept other rows beside landed
    · exact h.durable.merged
  · intro other
    rw [files_put]
    split
    · exact stays
    · exact h.sealed other

theorem Safe.put (h : Safe d trace) (grows : ∀ rows, (d.files hour).Holds rows → f.Holds rows)
    (stays : (d.files hour).Sealed → f.Sealed) : Safe (d.put hour f) trace :=
  fun clear => (h clear).put grows (stays ((h clear).sealed hour))

theorem Safe.mkdir (h : Safe d trace) : Safe (d.mkdir hour) trace := by
  unfold Disk.mkdir
  split
  · exact h
  · intro clear
    have sound := h clear
    exact ⟨⟨sound.durable.kept, sound.durable.merged⟩, sound.sealed⟩

/-- A part lands: either a merging file was there or the hour has none. -/
theorem Safe.land {rows : List Row} (h : Safe d trace)
    (grows : ∀ old, (d.files hour).Holds old → f.Holds old) (new : f.Holds rows) :
    Safe (d.put hour f) (.landed hour rows f.merging.isSome :: trace) := by
  intro clear
  have none_there : f.merging = none := by
    cases there : f.merging with
    | none => rfl
    | some m =>
      have beside := clear hour rows
      rw [there] at beside
      simp at beside
  have sound := (h clear.tail).put grows (by simp [HourFiles.Sealed, none_there])
  refine ⟨⟨?_, ?_⟩, sound.sealed⟩
  · intro other old beside landed
    rcases List.mem_cons.mp landed with same | older
    · injection same with same_hour same_rows
      subst same_hour same_rows
      simpa using new
    · exact sound.durable.kept other old beside older
  · intro other old merging unlinked
    rcases List.mem_cons.mp unlinked with same | older
    · cases same
    · exact sound.durable.merged other old merging older

/-- What a part held is still there without it, where the merging file has its rows. -/
theorem holds_without {file : File} {m rows : List Row} (there : f.merging = some m)
    (inside : file.rows <:+: m) (h : f.Holds rows) :
    { f with parts := f.parts.filter (· ≠ file) }.Holds rows := by
  obtain ⟨c, mem, held⟩ := h
  by_cases gone : c = file.rows
  · subst gone
    exact ⟨m, by simp [HourFiles.contents, there], held.trans inside⟩
  · refine ⟨c, ?_, held⟩
    simp only [HourFiles.contents, List.mem_append, List.mem_map] at mem ⊢
    rcases mem with ⟨p, part, rfl⟩ | rest
    · have other : p ≠ file := fun same => gone (by rw [same])
      exact Or.inl ⟨p, by simp [part, other], rfl⟩
    · exact Or.inr rest

theorem Safe.unlink {file : File} {m : List Row} (h : Safe d trace)
    (there : (d.files hour).merging = some m) (inside : Clear trace → file.rows <:+: m) :
    Safe (d.put hour { d.files hour with parts := (d.files hour).parts.filter (· ≠ file) })
      (.unlinked hour file.rows (d.files hour).merging :: trace) := by
  intro clear
  have whole := inside clear.tail
  have stays : { d.files hour with parts := (d.files hour).parts.filter (· ≠ file) }.Sealed := by
    intro bytes same p part
    exact (h clear.tail).sealed hour bytes same p (List.mem_of_mem_filter part)
  have sound := (h clear.tail).put (fun _ => holds_without there whole) stays
  refine ⟨⟨?_, ?_⟩, sound.sealed⟩
  · intro other old beside landed
    rcases List.mem_cons.mp landed with same | older
    · cases same
    · exact sound.durable.kept other old beside older
  · intro other old merging unlinked
    rcases List.mem_cons.mp unlinked with same | older
    · injection same with _ same_rows same_merging
      subst same_rows same_merging
      exact ⟨m, there, whole⟩
    · exact sound.durable.merged other old merging older

end

/- One change. -/

theorem Safe.move {t t' : Tape} (safe : Safe t.disk t.trace) (move : Move t t') :
    Safe t'.disk t'.trace := by
  cases move with
  | aside disk trace =>
    rw [disk, trace]
    exact safe
  | mkdir hour => exact safe.mkdir
  | land hour rows marker =>
    cases marker with
    | part =>
      apply safe.land
      · rintro old ⟨c, mem, inside⟩
        refine ⟨c, ?_, inside⟩
        simp only [HourFiles.contents, List.map_append, List.mem_append] at mem ⊢
        tauto
      · exact ⟨rows, by simp [HourFiles.contents], List.infix_rfl⟩
    | held => exact safe.put (fun _ holds => holds) fun whole => whole
  | redeem hour file =>
    apply safe.land
    · rintro old ⟨c, mem, inside⟩
      refine ⟨c, ?_, inside⟩
      simp only [HourFiles.contents, List.map_append, List.mem_append] at mem ⊢
      tauto
    · exact ⟨file.rows, by simp [HourFiles.contents], List.infix_rfl⟩
  | sink hour inputs some merging final parts whole =>
    apply safe.put
    · rintro rows ⟨c, mem, inside⟩
      refine ⟨c, ?_, inside⟩
      simp only [HourFiles.contents, merging, Option.toList_none, List.nil_append,
        List.mem_append] at mem ⊢
      tauto
    · intro _ bytes same part mem
      injection same with same
      subst same
      rw [List.flatMap_def]
      exact List.infix_of_mem_flatten (List.mem_map_of_mem (parts part mem))
  | certify hour m merging final => exact safe.put (fun _ holds => holds) fun whole => whole
  | unlink hour file m merging final manifest there =>
    apply safe.unlink merging
    intro clear
    rcases there with there | gone
    · exact (safe clear).sealed hour m merging file there
    · obtain ⟨m', same, inside⟩ := (safe clear).durable.merged hour file.rows (some m) gone
      rw [Option.some.inj same]
      exact inside
  | publish hour m merging final manifest parts =>
    apply safe.put
    · rintro rows ⟨c, mem, inside⟩
      refine ⟨c, ?_, inside⟩
      simpa [HourFiles.contents, merging, final] using mem
    · intro _ bytes same
      cases same
  | quarantinePart hour file merging final there =>
    apply safe.put
    · rintro rows ⟨c, mem, inside⟩
      refine ⟨c, ?_, inside⟩
      simp only [HourFiles.contents, List.mem_append, List.mem_map, List.mem_cons] at mem ⊢
      rcases mem with ⟨part, there, rfl⟩ | rest
      · by_cases same : part = file
        · simp [same]
        · exact Or.inl ⟨part, by simp [there, same], rfl⟩
      · tauto
    · intro whole bytes same part mem
      exact whole bytes same part (List.mem_of_mem_filter mem)
  | quarantineFinal hour rows merging final =>
    apply safe.put
    · rintro rows ⟨c, mem, inside⟩
      refine ⟨c, ?_, inside⟩
      simp only [HourFiles.contents, List.mem_append] at mem ⊢
      tauto
    · intro whole
      exact whole
  | quarantineMerging hour m merging final =>
    apply safe.put
    · rintro rows ⟨c, mem, inside⟩
      refine ⟨c, ?_, inside⟩
      simp only [HourFiles.contents, List.mem_append] at mem ⊢
      tauto
    · intro _ bytes same
      cases same

theorem run_safe (w : World) (inputs : List Input) :
    Safe (run w inputs).tape.disk (run w inputs).tape.trace := by
  apply (run_reached w inputs).keeps (P := fun t => Safe t.disk t.trace)
  · intro _
    refine ⟨⟨?_, ?_⟩, ?_⟩
    · intro hour rows beside landed
      cases landed
    · intro hour rows merging unlinked
      cases unlinked
    · intro hour m there
      cases there
  · exact fun t t' safe move => safe.move move

end Segments
