import Zcrypto.Keyed
import Zcrypto.Panel.Materialize

/- What a state file keeps of a book: read back, it is the book that was written, level by level in its
   order. And the hours of one pair as a fold of their carries. -/
namespace Panel
open DecimalText (Decimal)

/- The state file. -/

section
variable {side : Side} {depth : Int}

theorem object_distinct {items : List (String × String)} (distinct : (items.map Prod.fst).Nodup) :
    object items = items := by
  have each : ∀ held, ((held ++ items).map Prod.fst).Nodup →
      items.foldl (fun held item =>
        if held.any (fun old => old.1 = item.1) then held.map fun old => if old.1 = item.1 then item else old
        else held ++ [item]) held = held ++ items := by
    clear distinct
    induction items with
    | nil => exact fun held _ => (List.append_nil held).symm
    | cons item rest ih =>
      intro held distinct
      have absent : ¬ (held.any fun old => old.1 = item.1) = true := by
        intro there
        obtain ⟨old, mem, same⟩ := List.any_eq_true.mp there
        rw [List.map_append, List.nodup_append] at distinct
        exact distinct.2.2 old.1 (List.mem_map_of_mem mem) item.1 (by simp) (of_decide_eq_true same)
      rw [List.foldl_cons, if_neg absent, ih]
      · rw [List.append_assoc, List.singleton_append]
      · rw [List.append_assoc, List.singleton_append]
        exact distinct
  exact each [] distinct

/-- Prices that differ by value differ as text. -/
theorem sideDoc_eq (apart : (keys side).Nodup) :
    sideDoc side = side.map fun level => (level.1.text, level.2.text) := by
  apply object_distinct
  rw [List.map_map]
  have values := List.pairwise_map.mp apart
  apply List.pairwise_map.mpr
  apply values.imp
  intro a b differs same
  exact differs (congrArg plain (DecimalText.text_injective same))

theorem putAll_distinct (apart : (keys side).Nodup) : putAll side = side := by
  have each : ∀ held, (keys (held ++ side)).Nodup →
      side.foldl (fun side level => put level side) held = held ++ side := by
    clear apart
    induction side with
    | nil => exact fun held _ => (List.append_nil held).symm
    | cons level rest ih =>
      intro held distinct
      have absent : ¬ (!(plain level.1).isNan && held.any fun old => plain old.1 = plain level.1) = true := by
        intro there
        obtain ⟨old, mem, same⟩ := List.any_eq_true.mp (Bool.and_eq_true_iff.mp there).2
        unfold keys at distinct
        rw [List.map_append, List.nodup_append] at distinct
        exact distinct.2.2 _ (List.mem_map_of_mem mem) (plain level.1) (by simp) (of_decide_eq_true same)
      rw [List.foldl_cons, put, if_neg absent, ih]
      · rw [List.append_assoc, List.singleton_append]
      · rw [List.append_assoc, List.singleton_append]
        exact distinct
  exact each [] apart

theorem parseSide_sideDoc (apart : (keys side).Nodup) : parseSide (sideDoc side) = some side := by
  have levels : (side.map fun level => (level.1.text, level.2.text)).mapM parseLevel = some side := by
    clear apart
    induction side with
    | nil => rfl
    | cons level rest ih =>
      rw [List.map_cons, List.mapM_cons, ih]
      simp [parseLevel, DecimalText.ofText_text]
  rw [sideDoc_eq apart, parseSide, levels, Option.map_some, putAll_distinct apart]

/-- A state that is there is the book it was written from. -/
theorem loadState_written {Sample Bytes : Type} {sampler : Sampler Sample Bytes} {tree : Tree Bytes}
    {hour : Int} {book : Book} {lastMsgTs : Option Int} (sound : book.Sound sampler.depth)
    (found : tree.lookup (.state hour) = some (writeState hour book lastMsgTs).2) :
    loadState sampler tree hour = (some book, lastMsgTs) := by
  unfold loadState
  rw [found]
  simp only [writeState, parseSide_sideDoc sound.bids, parseSide_sideDoc sound.asks, ← sound.depth]

end

/- One hour keeps the book sound. -/

section
variable {Sample Bytes : Type} {sampler : Sampler Sample Bytes} {depth : Int} {w next : Walk} {m : Message}
  {messages rest : List Message}

theorem Walk.apply_sound (sound : w.book.Sound depth) (h : w.apply m = .ok next) : next.book.Sound depth := by
  obtain ⟨book, read, same⟩ := Fallible.bind_ok.mp h
  injection same with same
  rw [← same]
  exact sound.ingest read

theorem Walk.upTo_sound {boundary : Int} (sound : w.book.Sound depth)
    (h : w.upTo boundary messages = .ok (next, rest)) : next.book.Sound depth := by
  induction messages generalizing w with
  | nil =>
    injection h with same
    injection same with same
    exact same ▸ sound
  | cons m later ih =>
    rw [Walk.upTo] at h
    split at h
    · obtain ⟨applied, step, h⟩ := Fallible.bind_ok.mp h
      exact ih (apply_sound sound step) h
    · injection h with same
      injection same with same
      exact same ▸ sound

theorem foldlM_sound (sound : w.book.Sound depth) (h : messages.foldlM Walk.apply w = .ok next) :
    next.book.Sound depth := by
  induction messages generalizing w with
  | nil =>
    injection h with same
    exact same ▸ sound
  | cons m later ih =>
    rw [List.foldlM_cons] at h
    obtain ⟨applied, step, h⟩ := Fallible.bind_ok.mp h
    exact ih (Walk.apply_sound sound step) h

theorem sampleSeconds_sound {quote : String} {seconds : List Int} {rows : List (Int × Sample)}
    (sound : w.book.Sound depth)
    (h : sampleSeconds sampler quote seconds w messages = .ok (rows, next, rest)) : next.book.Sound depth := by
  induction seconds generalizing w messages rows with
  | nil =>
    injection h with same
    injection same with _ same
    injection same with same
    exact same ▸ sound
  | cons second later ih =>
    rw [sampleSeconds] at h
    obtain ⟨⟨walked, left⟩, walk, h⟩ := Fallible.bind_ok.mp h
    obtain ⟨row, -, h⟩ := Fallible.bind_ok.mp h
    obtain ⟨⟨more, ended, behind⟩, go, h⟩ := Fallible.bind_ok.mp h
    injection h with same
    injection same with _ same
    injection same with ended_next behind_rest
    rw [ended_next, behind_rest] at go
    have walked_sound : walked.book.Sound depth := Walk.upTo_sound sound walk
    exact ih (w := { walked with updates := 0 }) walked_sound go

theorem materializeHour_sound {pair : String} {hour : Int} {frame : List Row} {book : Option Book}
    {lastMsgTs last : Option Int} {rows : List (Int × Sample)} {ended : Book}
    (sound : ∀ b ∈ book, b.Sound sampler.depth)
    (h : materializeHour sampler pair hour frame book lastMsgTs = .ok (rows, ended, last)) :
    ended.Sound sampler.depth := by
  obtain ⟨start, anchored, h⟩ := Fallible.bind_ok.mp h
  have opening : start.Sound sampler.depth := by
    unfold anchor at anchored
    split at anchored
    · injection anchored with same
      rw [← same]
      exact Book.Sound.empty _
    · cases book with
      | none => cases anchored
      | some carried =>
        injection anchored with same
        rw [← same]
        exact sound carried rfl
  obtain ⟨⟨sampled, walked, left⟩, seconds, h⟩ := Fallible.bind_ok.mp h
  obtain ⟨drained, drain, h⟩ := Fallible.bind_ok.mp h
  injection h with same
  injection same with _ same
  injection same with same
  rw [← same]
  have walked_sound : walked.book.Sound sampler.depth :=
    sampleSeconds_sound (w := ⟨start, lastMsgTs, 0⟩) opening (Fallible.mapError_ok.mp seconds)
  exact foldlM_sound walked_sound (Fallible.mapError_ok.mp drain)

end

end Panel
