import Zcrypto.Capture.Moves

/- What outlasts a merge. It gives its hour other files, which hold the same spills and no part that
   was not there, and it touches nothing else on disk and nothing in memory. -/
namespace Segments
open Effects Effects.Prog

/-- An assertion that whatever a merge of the hour does keeps. -/
structure Outlasts (hour : Int) (I : Tape → Prop) : Prop where
  asked : ∀ t n, t.asked ≤ n → I t → I { t with asked := n }
  files : ∀ t f, I t → f.held = (t.disk.files hour).held →
    (∀ p ∈ f.parts, p ∈ (t.disk.files hour).parts) → I (t.setFiles hour f)
  unlink : ∀ t file, I t → I (t.unlinkPart hour file)

/-- An operation that fails and one that does not leave what was asked of the host behind. -/
theorem keeps_fileOp {w : World} {I : Tape → Prop}
    (asked : ∀ t n, t.asked ≤ n → I t → I { t with asked := n }) : Keeps w I fileOp := by
  intro t start
  have later := asked t (t.asked + 1) (Nat.le_succ _) start
  cases fault : w.fault t.asked with
  | ok => simpa [wp, fileOp, fault, Post.leaving] using later
  | raises => simpa [wp, fileOp, fault, Post.leaving] using later
  | kills => simpa [wp, fileOp, fault, Post.leaving] using later

theorem wp_utcnow {w : World} {t : Tape} {Q : Post Tape Int} :
    wp w utcnow Q t ↔ Q.ok (w.clock t.asked) { t with asked := t.asked + 1 } := Iff.rfl

theorem keeps_readsBack {w : World} {I : Tape → Prop}
    (asked : ∀ t n, t.asked ≤ n → I t → I { t with asked := n }) : Keeps w I readsBack :=
  keeps_attempt (keeps_bind (keeps_fileOp asked) fun _ => keeps_pure _) (keeps_pure _)

/-- The keys that are read are keys of the files. -/
theorem wp_diskKeys {w : World} {I : Tape → Prop} {t : Tape}
    (asked : ∀ t n, t.asked ≤ n → I t → I { t with asked := n }) (files : List File) (start : I t) :
    wp w (diskKeys files)
      ⟨fun keys t => I t ∧ ∀ k ∈ keys, k ∈ keysOf files, fun _ => False, I⟩ t := by
  have each : ∀ f ∈ files, ∀ t, I t →
      wp w (attempt (do fileOp; pure (keysOf [f])) (pure []))
        ⟨fun keys t => I t ∧ ∀ k ∈ keys, k ∈ keysOf files, fun _ => False, I⟩ t := by
    intro f mem t start
    rw [wp_attempt, wp_bind]
    apply wp_mono (keeps_fileOp asked t start)
    · intro _ t kept
      refine ⟨kept, ?_⟩
      intro k key
      simp only [keysOf, List.flatMap_cons, List.flatMap_nil, List.append_nil] at key
      exact List.mem_flatMap.mpr ⟨f, mem, key⟩
    · exact fun t kept => ⟨kept, by simp⟩
    · exact fun _ h => h
  unfold diskKeys
  rw [wp_ite]
  split
  · exact ⟨start, by simp⟩
  · rw [wp_attempt, wp_bind]
    apply wp_mono (keeps_fileOp asked t start)
    · exact fun _ t kept => ⟨kept, fun _ key => key⟩
    · intro t kept
      dsimp only
      rw [wp_bind]
      apply wp_mono (wp_collect each kept)
      · rintro keys t ⟨kept, inside, -⟩
        refine ⟨kept, ?_⟩
        intro k key
        obtain ⟨ks, mem, own⟩ := List.mem_flatten.mp key
        obtain ⟨_, _, keyed⟩ := inside ks mem
        exact keyed k own
      · exact fun _ h => h
      · exact fun _ h => h
    · exact fun _ h => h

namespace Outlasts
variable {w : World} {hour : Int} {I : Tape → Prop} (h : Outlasts hour I)
include h

theorem replaceDurably {f : Tape → Tape} (renamed : ∀ t, I t → I (f t)) :
    Keeps w I (replaceDurably f) := by
  unfold Segments.replaceDurably
  apply keeps_bind (keeps_fileOp h.asked)
  intro _
  apply keeps_bind (keeps_fileOp h.asked)
  intro _
  exact keeps_bind (keeps_modify renamed) fun _ => keeps_fileOp h.asked

theorem quarantine {f : Tape → Tape} (renamed : ∀ t, I t → I (f t)) : Keeps w I (quarantine f) :=
  keeps_bind (keeps_fileOp h.asked) fun _ => keeps_modify renamed

theorem commit : Keeps w I (commit hour) := by
  unfold Segments.commit writeManifest
  apply keeps_bind
  · apply keeps_bind (keeps_fileOp h.asked)
    intro _
    apply keeps_bind (keeps_fileOp h.asked)
    intro _
    exact h.replaceDurably fun t kept => h.files t _ kept rfl fun _ mem => mem
  · intro _
    apply keeps_bind (keeps_gets _)
    intro f
    apply keeps_bind
    · apply keeps_forEach
      intro file
      apply keeps_bind (keeps_fileOp h.asked)
      intro _
      exact keeps_modify fun t kept => h.unlink t file kept
    · intro _
      exact h.replaceDurably fun t kept => h.files t _ kept rfl fun _ mem => mem

theorem quarantinePart (t : Tape) (file : File) (kept : I t) : I (t.quarantinePart hour file) := by
  unfold Tape.quarantinePart
  exact h.files t _ kept rfl fun _ mem => List.mem_of_mem_filter mem

theorem salvage (inputs : List File) : Keeps w I (salvage hour inputs) := by
  induction inputs with
  | nil => exact keeps_pure _
  | cons file rest ih =>
    unfold Segments.salvage readable
    apply keeps_bind
    · apply keeps_bind (keeps_readsBack h.asked)
      intro reads
      apply keeps_ite (fun _ => keeps_pure _)
      intro _
      apply keeps_bind _ fun _ => keeps_pure _
      exact h.quarantine fun t kept => h.quarantinePart t file kept
    · intro kept
      exact keeps_bind ih fun _ => keeps_pure _

theorem sink (inputs : List File) : Keeps w I (sink hour inputs) := by
  unfold Segments.sink sinkAgain
  apply keeps_bind
  · apply keeps_attempt (keeps_bind (keeps_fileOp h.asked) fun _ => keeps_pure _)
    apply keeps_bind (h.salvage inputs)
    intro kept
    exact keeps_bind (keeps_when (keeps_fileOp h.asked)) fun _ => keeps_pure _
  · intro kept
    apply keeps_ite (fun _ => keeps_pure _)
    intro _
    apply keeps_bind _ fun _ => keeps_pure _
    exact h.replaceDurably fun t kept => h.files t _ kept rfl fun _ mem => mem

theorem mergeParts (parts : List File) : Keeps w I (mergeParts hour parts) := by
  unfold Segments.mergeParts writeMerging
  apply keeps_bind
  · apply keeps_bind
    · exact keeps_attempt (h.sink parts) (keeps_bind (keeps_fileOp h.asked) fun _ => keeps_raise)
    · intro sunk
      exact keeps_bind (keeps_fileOp h.asked) fun _ => keeps_pure _
  · intro sunk
    exact keeps_ite (fun _ => h.commit) fun _ => keeps_pure _

theorem mergeFound (f : HourFiles) : Keeps w I (mergeFound hour f) := by
  unfold Segments.mergeFound mergeOverFinal
  apply keeps_ite (fun _ => keeps_pure _)
  intro _
  apply keeps_ite _ fun _ => h.mergeParts f.parts
  intro _
  apply keeps_bind (keeps_readsBack h.asked)
  intro reads
  apply keeps_ite (fun _ => keeps_pure _)
  intro _
  apply keeps_bind
  · exact h.quarantine fun t kept => h.files t _ kept rfl fun _ mem => mem
  · exact fun _ => h.mergeParts f.parts

theorem mergeHour : Keeps w I (mergeHour hour) := by
  unfold Segments.mergeHour
  apply keeps_bind (keeps_gets _)
  intro f
  apply keeps_ite (fun _ => keeps_pure _)
  intro _
  exact keeps_attempt (h.mergeFound f) (keeps_pure _)

theorem recoverHour : Keeps w I (recoverHour hour) := by
  unfold Segments.recoverHour
  apply keeps_bind (keeps_gets _)
  intro f
  apply keeps_ite (fun _ => keeps_pure _)
  intro _
  apply keeps_ite (fun _ => keeps_raise)
  intro _
  apply keeps_bind (keeps_readsBack h.asked)
  intro reads
  apply keeps_ite (fun _ => h.commit)
  intro _
  exact h.quarantine fun t kept => h.files t _ kept rfl fun _ mem => mem

end Outlasts

end Segments
