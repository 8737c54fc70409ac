import Mathlib.Data.List.ReduceOption
import Zcrypto.Capture.Content

/- What a call of a writer that has no oracle does with the rows that have landed and those it
   buffers: the buffer lands whole and in order, or it is dropped where a file operation failed. -/
namespace Segments
open Effects Effects.Prog

/-- One of the file operations from the one to the other failed. -/
def Failed (w : World) (n m : Nat) : Prop := ∃ i, n ≤ i ∧ i < m ∧ w.fault i = .raises

instance (w : World) (n m : Nat) : Decidable (Failed w n m) :=
  decidable_of_iff (∃ i ∈ List.range m, n ≤ i ∧ w.fault i = .raises) (by
    simp only [Failed, List.mem_range]
    grind)

theorem Failed.later {w : World} {n m m' : Nat} (h : Failed w n m) (le : m ≤ m') : Failed w n m' := by
  obtain ⟨i, first, before, raises⟩ := h
  exact ⟨i, first, by omega, raises⟩

theorem Failed.earlier {w : World} {n n' m : Nat} (h : Failed w n m) (le : n' ≤ n) : Failed w n' m := by
  obtain ⟨i, first, before, raises⟩ := h
  exact ⟨i, by omega, before, raises⟩

/-- The disk of a writer without spills, on which only such hours are merged or published. -/
structure Shelf (done : Int → Prop) (t : Tape) : Prop where
  filed : Filed t.trace
  done : ∀ g, (t.disk.files g).finalized = true → done g
  parts : ∀ g, (t.disk.files g).parts ≠ [] → Aligned g
  inside : ∀ g, ∀ p ∈ (t.disk.files g).parts, ∀ r ∈ p.rows, r ∈ landedRows t.trace
  spills : ∀ g, (t.disk.files g).held = []
  listed : ∀ g, (t.disk.files g).finalized = true ∨ (t.disk.files g).parts ≠ [] → g ∈ t.disk.hours

/-- Such a disk, with what is in memory, what has landed and how far the host has been asked. -/
structure Calm (done : Int → Prop) (m : Mem) (rows : List Row) (n : Nat) (t : Tape) : Prop
    extends Shelf done t where
  mem : t.mem = m
  landed : landedRows t.trace = rows
  since : n ≤ t.asked

section
variable {w : World} {done done' : Int → Prop} {m : Mem} {rows : List Row} {n : Nat} {t : Tape}
  {hour : Int}

theorem Shelf.mono (h : Shelf done t) (le : ∀ g, done g → done' g) : Shelf done' t :=
  ⟨h.filed, fun g yes => le g (h.done g yes), h.parts, h.inside, h.spills, h.listed⟩

theorem Calm.mono (h : Calm done m rows n t) (le : ∀ g, done g → done' g) : Calm done' m rows n t :=
  ⟨h.toShelf.mono le, h.mem, h.landed, h.since⟩

theorem Calm.asked {k : Nat} (h : Calm done m rows n t) (le : t.asked ≤ k) :
    Calm done m rows n { t with asked := k } :=
  ⟨⟨h.filed, h.done, h.parts, h.inside, h.spills, h.listed⟩, h.mem, h.landed, h.since.trans le⟩

theorem Calm.remembered {f : Mem → Mem} (h : Calm done m rows n t) :
    Calm done (f m) rows n { t with mem := f t.mem } :=
  ⟨⟨h.filed, h.done, h.parts, h.inside, h.spills, h.listed⟩, by rw [← h.mem], h.landed, h.since⟩

/-- The files of an hour become others that only a merge makes of them. -/
theorem Shelf.put {f : HourFiles} (h : Shelf done t) (yes : done hour) (there : hour ∈ t.disk.hours)
    (held : f.held = (t.disk.files hour).held)
    (parts : ∀ p ∈ f.parts, p ∈ (t.disk.files hour).parts) : Shelf done (t.setFiles hour f) := by
  refine ⟨h.filed, ?_, ?_, ?_, ?_, ?_⟩
  · intro g
    simp only [Tape.setFiles, files_put]
    split
    · rename_i same
      exact fun _ => same ▸ yes
    · exact h.done g
  · intro g
    simp only [Tape.setFiles, files_put]
    split
    · rename_i same
      intro some
      obtain ⟨p, mem⟩ := List.exists_mem_of_ne_nil f.parts some
      exact same ▸ h.parts hour (List.ne_nil_of_mem (parts p mem))
    · exact h.parts g
  · intro g
    simp only [Tape.setFiles, files_put]
    split
    · exact fun p mem => h.inside hour p (parts p mem)
    · exact h.inside g
  · intro g
    simp only [Tape.setFiles, files_put]
    split
    · exact held.trans (h.spills hour)
    · exact h.spills g
  · intro g
    simp only [Tape.setFiles, files_put]
    split
    · rename_i same
      exact fun _ => same ▸ there
    · exact h.listed g

theorem Shelf.unlinked {rows : List Row} {merging : Option (List Row)} (h : Shelf done t) :
    Shelf done { t with trace := .unlinked hour rows merging :: t.trace } := by
  refine ⟨?_, h.done, h.parts, h.inside, h.spills, h.listed⟩
  intro g rs beside landed
  rcases List.mem_cons.mp landed with same | older
  · cases same
  · exact h.filed g rs beside older

theorem calm_outlasts (yes : done hour) :
    Outlasts hour fun t => Calm done m rows n t ∧ hour ∈ t.disk.hours := by
  refine ⟨?_, ?_, ?_⟩
  · exact fun t k le h => ⟨h.1.asked le, h.2⟩
  · exact fun t f h held parts => ⟨⟨h.1.toShelf.put yes h.2 held parts, h.1.mem, h.1.landed, h.1.since⟩, h.2⟩
  · intro t file h
    have put := h.1.toShelf.put yes h.2
      (f := { t.disk.files hour with parts := (t.disk.files hour).parts.filter (· ≠ file) }) rfl
      fun _ mem => List.mem_of_mem_filter mem
    exact ⟨⟨put.unlinked, h.1.mem, h.1.landed, h.1.since⟩, h.2⟩

theorem calm_fileOp : Keeps w (Calm done m rows n) fileOp := keeps_fileOp fun _ _ le h => h.asked le

/-- A merge raises nothing. -/
theorem mergeHour_leads (yes : done hour) :
    Leads w (Calm done m rows n) (Calm done m rows n) (fun _ => False) (Calm done m rows n)
      (mergeHour hour) := by
  unfold mergeHour
  apply leads_gets_bind
  intro t calm
  rw [wp_ite]
  split
  · exact calm
  · rename_i parts
    have there := calm.listed hour (.inr parts)
    have outlasts : Outlasts hour fun t => Calm done m rows n t ∧ hour ∈ t.disk.hours :=
      calm_outlasts yes
    have merged := outlasts.mergeFound (w := w) (t.disk.files hour) t ⟨calm, there⟩
    rw [wp_attempt]
    exact wp_mono merged (fun _ _ h => h.1) (fun _ h => h.1) fun _ h => h.1

theorem sweep_leads {before : Int} (yes : ∀ g, Aligned g → g < before → done g) :
    Leads w (Calm done m rows n) (Calm done m rows n) (fun _ => False) (Calm done m rows n)
      (sweep before) := by
  unfold sweep
  apply leads_gets_bind
  intro t calm
  apply leads_forEach_mem _ t calm
  intro g mem
  simp only [Disk.hoursWith, List.mem_filter, List.mem_insertionSort, decide_eq_true_eq] at mem
  exact mergeHour_leads (yes g (calm.parts g mem.1.2) mem.2)

/- A part is written. -/

/-- The operation that raised is among those of this call. -/
theorem failing_fileOp {I : Tape → Prop} (asked : ∀ t n, t.asked ≤ n → I t → I { t with asked := n })
    (since : ∀ t, I t → n ≤ t.asked) :
    Leads w I I (fun t => I t ∧ Failed w n t.asked) I fileOp := by
  intro t start
  have later := asked t (t.asked + 1) (Nat.le_succ _) start
  cases fault : w.fault t.asked with
  | ok => simpa [wp, fileOp, fault] using later
  | raises =>
    have failed : Failed w n (t.asked + 1) := ⟨t.asked, since t start, Nat.lt_succ_self _, fault⟩
    simpa [wp, fileOp, fault] using ⟨later, failed⟩
  | kills => simpa [wp, fileOp, fault] using later

theorem Calm.mkdir (h : Calm done m rows n t) :
    Calm done m rows n { t with disk := t.disk.mkdir hour } := by
  have same : (t.disk.mkdir hour).files = t.disk.files := by
    unfold Disk.mkdir
    split <;> rfl
  have more : ∀ g, g ∈ t.disk.hours → g ∈ (t.disk.mkdir hour).hours := by
    intro g mem
    unfold Disk.mkdir
    split
    · exact mem
    · exact List.mem_cons_of_mem _ mem
  refine ⟨⟨h.filed, ?_, ?_, ?_, ?_, ?_⟩, h.mem, h.landed, h.since⟩
  · intro g
    rw [same]
    exact h.done g
  · intro g
    rw [same]
    exact h.parts g
  · intro g
    rw [same]
    exact h.inside g
  · intro g
    rw [same]
    exact h.spills g
  · intro g
    rw [same]
    exact fun some => more g (h.listed g some)

theorem mem_mkdir (d : Disk) : hour ∈ (d.mkdir hour).hours := by
  unfold Disk.mkdir
  split
  · assumption
  · exact List.mem_cons_self

/-- A part of an hour that is neither merged nor published lands. -/
theorem Calm.land {part : List Row} (h : Calm done m rows n t) (there : hour ∈ t.disk.hours)
    (aligned : Aligned hour) (open_ : ¬ done hour) (some : part ≠ [])
    (own : ∀ r ∈ part, hourStart r.ts = hour) :
    Calm done m (rows ++ part) n (t.land hour part .part) := by
  have none : (t.disk.files hour).finalized ≠ true := fun yes => open_ (h.done hour yes)
  have apart : (t.disk.files hour).merging.isSome = false := by
    rw [ne_eq, Bool.not_eq_true, HourFiles.finalized, Bool.or_eq_false_iff] at none
    exact none.1
  refine ⟨⟨?_, ?_, ?_, ?_, ?_, ?_⟩, h.mem, ?_, h.since⟩
  · intro g rs beside landed
    rcases List.mem_cons.mp landed with same | older
    · injection same with same_hour same_rows same_beside
      subst same_hour same_rows same_beside
      exact ⟨apart, some, own⟩
    · exact h.filed g rs beside older
  · intro g
    simp only [Tape.land, Tape.landPart, files_put]
    split
    · rename_i same
      subst same
      exact fun yes => absurd yes none
    · exact h.done g
  · intro g
    simp only [Tape.land, Tape.landPart, files_put]
    split
    · rename_i same
      exact fun _ => same ▸ aligned
    · exact h.parts g
  · intro g
    simp only [Tape.land, Tape.landPart, files_put, landedRows]
    split
    · intro p mem r row
      rcases List.mem_append.mp mem with old | new
      · exact List.mem_append_left _ (h.inside hour p old r row)
      · obtain rfl := List.mem_singleton.mp new
        exact List.mem_append_right _ row
    · exact fun p mem r row => List.mem_append_left _ (h.inside g p mem r row)
  · intro g
    simp only [Tape.land, Tape.landPart, files_put]
    split
    · exact h.spills hour
    · exact h.spills g
  · intro g
    simp only [Tape.land, Tape.landPart, files_put]
    split
    · rename_i same
      exact fun _ => same ▸ there
    · exact h.listed g
  · simp only [Tape.land, Tape.landPart, landedRows]
    rw [h.landed]

/-- A part that is written has landed or a file operation failed. -/
theorem wp_writePart {part : List Row} (aligned : Aligned hour) (open_ : ¬ done hour)
    (some : part ≠ []) (own : ∀ r ∈ part, hourStart r.ts = hour) (calm : Calm done m rows n t) :
    wp w (writePart part hour .part)
      ⟨fun _ t => Calm done m (rows ++ part) n t ∨ Calm done m rows n t ∧ Failed w n t.asked,
        fun _ => False,
        fun t => Calm done m (rows ++ part) n t ∨ Calm done m rows n t⟩ t := by
  let Before := Calm done m rows n
  let Made : Tape → Prop := fun t => Calm done m rows n t ∧ hour ∈ t.disk.hours
  let After := Calm done m (rows ++ part) n
  let Raised : Tape → Prop := fun t => After t ∨ Before t ∧ Failed w n t.asked
  let Dead : Tape → Prop := fun t => After t ∨ Before t
  have first : Leads w Before Before Raised Dead fileOp := fun t start =>
    wp_mono (failing_fileOp (fun _ _ le h => h.asked le) (fun _ h => h.since) t start)
      (fun _ _ h => h) (fun _ h => .inr h) fun _ h => .inr h
  have made : Leads w Made Made Raised Dead fileOp := fun t start =>
    wp_mono (failing_fileOp (I := Made) (fun _ _ le h => ⟨h.1.asked le, h.2⟩) (fun _ h => h.1.since) t start)
      (fun _ _ h => h) (fun _ h => .inr ⟨h.1.1, h.2⟩) fun _ h => .inr h.1
  have last : Leads w After After Raised Dead fileOp := fun t start =>
    wp_mono (calm_fileOp t start) (fun _ _ h => h) (fun _ h => .inl h) fun _ h => .inl h
  have whole : Leads w Before After Raised Dead (do
      fileOp
      modify fun t => { t with disk := t.disk.mkdir hour }
      fileOp
      replaceDurably fun t => t.land hour part .part
      pure true) := by
    apply leads_bind first
    intro _
    apply leads_bind (leads_modify (j := Made) fun t h => ⟨h.mkdir, mem_mkdir _⟩)
    intro _
    apply leads_bind made
    intro _
    unfold replaceDurably
    apply leads_bind
    · apply leads_bind made
      intro _
      apply leads_bind made
      intro _
      apply leads_bind (leads_modify (j := After) fun t h => h.1.land h.2 aligned open_ some own)
      exact fun _ => last
    · exact fun _ _ h => h
  unfold writePart
  rw [wp_attempt]
  apply wp_mono (whole t calm)
  · exact fun _ _ h => .inl h
  · exact fun _ h => h
  · exact fun _ h => h

/- What became of some rows. -/

/-- Of the rows that might land some have, in order, and some more are left behind them, in hours past
    every one that is merged or published; for each of the rest of those to be kept an operation
    failed. -/
structure Stranded (w : World) (done : Int → Prop) (n : Nat) (rows b kept : List Row) (t : Tape) : Prop
    extends Shelf done t where
  since : n ≤ t.asked
  split : ∃ j c, landedRows t.trace = rows ++ j ∧ (j ++ c).Sublist b ∧
    (∀ q ∈ t.mem.buffer, q ∈ j ∨ q ∈ c) ∧
    (∀ q ∈ c, ∀ g, (t.disk.files g).finalized = true → g < hourStart q.ts) ∧
    ∀ q ∈ kept, q ∈ j ∨ q ∈ c ∨ Failed w n t.asked

/-- Of the rows some have landed and the buffered ones come after them, in order; where one did
    neither, an operation failed. -/
structure Carried (w : World) (done : Int → Prop) (n : Nat) (rows b : List Row) (t : Tape) : Prop
    extends Shelf done t where
  since : n ≤ t.asked
  split : ∃ j, landedRows t.trace = rows ++ j ∧ (j ++ t.mem.buffer).Sublist b ∧
    ∀ q ∈ b, q ∈ j ∨ q ∈ t.mem.buffer ∨ Failed w n t.asked

theorem Calm.carried (h : Calm done m rows n t) : Carried w done n rows m.buffer t := by
  refine ⟨h.toShelf, h.since, [], by rw [h.landed, List.append_nil], ?_, ?_⟩
  · rw [h.mem]
    exact List.Sublist.refl _
  · intro q mem
    rw [h.mem]
    exact .inr (.inl mem)

theorem Carried.stranded {b : List Row} (h : Carried w done n rows b t)
    (later : ∀ q ∈ t.mem.buffer, ∀ g, (t.disk.files g).finalized = true → g < hourStart q.ts) :
    Stranded w done n rows b b t := by
  obtain ⟨j, landed, sub, all⟩ := h.split
  exact ⟨h.toShelf, h.since, j, t.mem.buffer, landed, sub, fun _ mem => .inr mem, later, all⟩

theorem Stranded.mono {b kept : List Row} (h : Stranded w done n rows b kept t)
    (le : ∀ g, done g → done' g) : Stranded w done' n rows b kept t :=
  ⟨h.toShelf.mono le, h.since, h.split⟩

/-- What follows a state in which some rows have landed and others are in memory. -/
theorem Stranded.after {k : Nat} {j b c kept kept' : List Row}
    (h : Stranded w done k (rows ++ j) c kept' t) (le : n ≤ k) (sub : (j ++ c).Sublist b)
    (all : ∀ q ∈ kept, q ∈ j ∨ q ∈ kept' ∨ Failed w n k) : Stranded w done n rows b kept t := by
  obtain ⟨j', c', landed, sub', buffer, later, all'⟩ := h.split
  refine ⟨h.toShelf, le.trans h.since, j ++ j', c', by rw [landed, List.append_assoc], ?_, ?_, later, ?_⟩
  · rw [List.append_assoc]
    exact ((List.Sublist.refl j).append sub').trans sub
  · exact fun q mem => (buffer q mem).imp (List.mem_append_right _) id
  intro q mem
  rcases all q mem with early | inside | failed
  · exact .inl (List.mem_append_left _ early)
  · rcases all' q inside with now | kept | failed
    · exact .inl (List.mem_append_right _ now)
    · exact .inr (.inl kept)
    · exact .inr (.inr (failed.earlier le))
  · exact .inr (.inr (failed.later h.since))

theorem Carried.after {k : Nat} {j b c : List Row} (h : Carried w done k (rows ++ j) c t)
    (le : n ≤ k) (sub : (j ++ c).Sublist b) (all : ∀ q ∈ b, q ∈ j ∨ q ∈ c ∨ Failed w n k) :
    Carried w done n rows b t := by
  obtain ⟨j', landed, sub', all'⟩ := h.split
  refine ⟨h.toShelf, le.trans h.since, j ++ j', by rw [landed, List.append_assoc], ?_, ?_⟩
  · rw [List.append_assoc]
    exact ((List.Sublist.refl j).append sub').trans sub
  · intro q mem
    rcases all q mem with early | inside | failed
    · exact .inl (List.mem_append_left _ early)
    · rcases all' q inside with now | kept | failed
      · exact .inl (List.mem_append_right _ now)
      · exact .inr (.inl kept)
      · exact .inr (.inr (failed.earlier le))
    · exact .inr (.inr (failed.later h.since))

/-- What the buffer holds may be written: its hour is open, and past every one that is merged or
    published. -/
def Writable (done : Int → Prop) (m : Mem) : Prop :=
  m.buffer ≠ [] → ∃ cur, m.currentHour = some cur ∧ Aligned cur ∧ (∀ g, done g → g < cur) ∧
    ∀ r ∈ m.buffer, hourStart r.ts = cur

theorem Writable.later (writable : Writable done m) {q : Row} (mem : q ∈ m.buffer) {g : Int}
    (yes : done g) : g < hourStart q.ts := by
  obtain ⟨cur, -, -, past, own⟩ := writable (List.ne_nil_of_mem mem)
  rw [own q mem]
  exact past g yes

/-- The buffer has landed, or it was dropped and an operation failed. -/
theorem wp_flushBuffer (writable : Writable done m) (calm : Calm done m rows n t) :
    wp w flushBuffer
      ⟨fun _ t => ∃ j, Calm done { m with buffer := [] } (rows ++ j) n t ∧ j.Sublist m.buffer ∧
          ∀ q ∈ m.buffer, q ∈ j ∨ Failed w n t.asked,
        fun _ => False, Stranded w done n rows m.buffer m.buffer⟩ t := by
  unfold flushBuffer
  rw [wp_bind, wp_gets]
  dsimp only
  rw [wp_ite, calm.mem]
  split
  · rename_i empty
    have same : { m with buffer := [] } = m := by
      cases m
      simp_all
    refine ⟨[], ?_, List.nil_sublist _, by simp [empty]⟩
    rw [same, List.append_nil]
    exact calm
  · rename_i some
    obtain ⟨cur, opened, aligned, past, own⟩ := writable some
    have open_ : ¬ done cur := fun yes => lt_irrefl _ (past cur yes)
    rw [wp_bind, wp_orRaise]
    refine ⟨fun hour same => ?_, fun none => by simp [opened] at none⟩
    obtain rfl : cur = hour := Option.some.inj (opened.symm.trans same)
    dsimp only
    rw [wp_bind]
    apply wp_mono (wp_writePart aligned open_ some own calm)
    · rintro _ t (landed | ⟨kept, failed⟩)
      · exact ⟨m.buffer, landed.remembered (f := fun m => { m with buffer := [] }), List.Sublist.refl _,
          fun q mem => .inl mem⟩
      · refine ⟨[], ?_, List.nil_sublist _, fun q mem => .inr failed⟩
        rw [List.append_nil]
        exact kept.remembered (f := fun m => { m with buffer := [] })
    · exact fun _ h => h
    · rintro t (landed | kept)
      · refine ⟨landed.toShelf, landed.since, m.buffer, [], landed.landed, by simp, ?_, by simp,
          fun q mem => .inl mem⟩
        rw [landed.mem]
        exact fun q mem => .inl mem
      · apply kept.carried.stranded
        rw [kept.mem]
        exact fun q mem g yes => writable.later mem (kept.done g yes)

theorem wp_finalizeHour (writable : Writable done m) (le : ∀ g, done g → done' g) (yes : done' hour)
    (calm : Calm done m rows n t) :
    wp w (finalizeHour hour)
      ⟨fun _ t => ∃ j, Calm done' { m with buffer := [] } (rows ++ j) n t ∧ j.Sublist m.buffer ∧
          ∀ q ∈ m.buffer, q ∈ j ∨ Failed w n t.asked,
        fun _ => False, Stranded w done' n rows m.buffer m.buffer⟩ t := by
  unfold finalizeHour
  rw [wp_bind]
  apply wp_mono (wp_flushBuffer writable calm)
  · rintro _ t ⟨j, calm, sub, all⟩
    have from_ : Calm done' { m with buffer := [] } (rows ++ j) t.asked t :=
      ⟨calm.toShelf.mono le, calm.mem, calm.landed, le_refl _⟩
    apply wp_mono (mergeHour_leads yes t from_)
    · intro _ t' merged
      refine ⟨j, ⟨merged.toShelf, merged.mem, merged.landed, calm.since.trans merged.since⟩, sub, ?_⟩
      exact fun q mem => (all q mem).imp id fun failed => failed.later merged.since
    · exact fun _ h => h
    · intro t' merged
      refine ⟨merged.toShelf, calm.since.trans merged.since, j, [], merged.landed, by simpa using sub, ?_,
        by simp, ?_⟩
      · simp [merged.mem]
      · exact fun q mem => (all q mem).imp id fun failed => .inr (failed.later merged.since)
  · exact fun _ h => h
  · exact fun _ h => h.mono le

/- An hour is entered. -/

/-- The hour is open, and the keys it starts with are those of its parts. -/
theorem wp_openHour (dedup : w.dedup = true) (empty : m.buffer = []) (calm : Calm done m rows n t) :
    wp w (openHour hour)
      ⟨fun _ t => ∃ keys, Calm done { m with currentHour := some hour, seen := keys } rows n t ∧
          ∀ k ∈ keys, ∃ q ∈ rows, q.key = k,
        fun _ => False, Stranded w done n rows m.buffer m.buffer⟩ t := by
  have opened : Calm done { m with currentHour := some hour, seen := [] } rows n
      { t with mem := { t.mem with currentHour := some hour, seen := [] } } :=
    calm.remembered (f := fun m => { m with currentHour := some hour, seen := [] })
  unfold openHour redeemHeld filesOf
  simp only [wp_bind, setMem, wp_modify, wp_gets, calm.spills hour, forEach, wp_pure, wp_env, wp_ite,
    dedup, if_true]
  apply wp_mono (wp_diskKeys (fun _ _ le h => h.asked le) _ opened)
  · rintro keys t' ⟨kept, inside⟩
    refine ⟨keys, kept.remembered (f := fun m => { m with seen := keys }), ?_⟩
    intro k key
    obtain ⟨p, mem, own⟩ := List.mem_flatMap.mp (inside k key)
    obtain ⟨q, row, same⟩ := List.mem_map.mp own
    have landed := calm.inside hour p mem q row
    rw [calm.landed] at landed
    exact ⟨q, landed, same⟩
  · exact fun _ h => h
  · intro t' h
    have stranded := (h.carried (w := w)).stranded (by simp [h.mem, empty])
    exact stranded

/-- An hour that starts before another. -/
def Before (hour g : Int) : Prop := Aligned g ∧ g < hour

/-- The hour is open, and what it was opened with. -/
structure Entered (w : World) (m : Mem) (n : Nat) (rows b : List Row) (hour : Int) (t : Tape) : Prop
    extends Carried w (Before hour) n rows b t where
  opened : t.mem.currentHour = some hour
  floor : t.mem.floor = m.floor
  held : t.mem.held = m.held
  own : ∀ q ∈ t.mem.buffer, hourStart q.ts = hour

theorem wp_enterHour (dedup : w.dedup = true) (writable : Writable done m)
    (idle : m.currentHour = none → m.buffer = [])
    (current : ∀ cur, m.currentHour = some cur → Aligned cur ∧ cur ≤ hour)
    (before : ∀ g, done g → Before hour g) (calm : Calm done m rows n t) :
    wp w (enterHour hour)
      ⟨fun _ t => Entered w m n rows m.buffer hour t ∧
          ∀ k ∈ t.mem.seen, k ∈ m.seen ∨ ∃ q ∈ landedRows t.trace, q.key = k,
        fun _ => False, Stranded w (Before hour) n rows m.buffer m.buffer⟩ t := by
  unfold enterHour
  rw [wp_bind, wp_gets]
  dsimp only
  rw [calm.mem]
  cases opened : m.currentHour with
  | none =>
    dsimp only
    rw [wp_bind]
    have empty := idle opened
    have swept : Leads w (Calm (Before hour) m rows n) _ _ _ (sweep hour) :=
      sweep_leads fun g aligned less => ⟨aligned, less⟩
    apply wp_mono (swept t (calm.mono before))
    · intro _ t calm
      apply wp_mono (wp_openHour dedup empty calm)
      · rintro _ t ⟨keys, calm, seen⟩
        have carried := calm.carried (w := w)
        have mem := calm.mem
        refine ⟨⟨carried, by rw [mem], by rw [mem], by rw [mem], ?_⟩, ?_⟩
        · simp [mem, empty]
        · rw [mem, calm.landed]
          exact fun k key => .inr (seen k key)
      · exact fun _ h => h
      · exact fun _ h => h
    · exact fun _ h => h
    · exact fun _ h => h.carried.stranded (by simp [h.mem, empty])
  | some cur =>
    obtain ⟨aligned, le⟩ := current cur opened
    dsimp only
    rw [wp_ite]
    split
    · rename_i less
      rw [wp_bind]
      have closed : Before hour cur := ⟨aligned, less⟩
      apply wp_mono (wp_finalizeHour writable before closed calm)
      · rintro _ t ⟨j, calm, sub, all⟩
        have from_ : Calm (Before hour) { m with buffer := [] } (rows ++ j) t.asked t :=
          ⟨calm.toShelf, calm.mem, calm.landed, le_refl _⟩
        have sub' : (j ++ []).Sublist m.buffer := by simpa using sub
        have all' : ∀ q ∈ m.buffer, q ∈ j ∨ q ∈ ([] : List Row) ∨ Failed w n t.asked :=
          fun q mem => (all q mem).imp id .inr
        apply wp_mono (wp_openHour dedup rfl from_)
        · rintro _ t' ⟨keys, later, seen⟩
          have carried := (later.carried (w := w)).after calm.since sub' all'
          have mem := later.mem
          refine ⟨⟨carried, by rw [mem], by rw [mem], by rw [mem], by simp [mem]⟩, ?_⟩
          rw [mem, later.landed]
          exact fun k key => .inr (seen k key)
        · exact fun _ h => h
        · exact fun t' h => h.after calm.since sub' all'
      · exact fun _ h => h
      · exact fun _ h => h
    · rename_i same
      obtain rfl : cur = hour := by omega
      have carried := (calm.mono before).carried (w := w)
      have mem := calm.mem
      refine ⟨⟨carried, by rw [mem, opened], by rw [mem], by rw [mem], ?_⟩, ?_⟩
      · rw [mem]
        intro q inside
        obtain ⟨hour, here, -, -, own⟩ := writable (List.ne_nil_of_mem inside)
        obtain rfl := Option.some.inj (opened.symm.trans here)
        exact own q inside
      · rw [mem]
        exact fun k key => .inl key

/- A row is taken. -/

/-- Nothing of a memory but when its newest row came changes. -/
theorem wp_anchor (ts : Int) (calm : Calm done m rows n t) :
    wp w (anchor ts)
      ⟨fun _ t => ∃ newest at_, Calm done { m with maxTs := newest, maxAt := at_ } rows n t,
        fun _ => False, fun _ => False⟩ t := by
  unfold anchor
  rw [wp_bind, wp_gets]
  dsimp only
  rw [calm.mem, wp_ite]
  split
  · have later := calm.asked (k := t.asked + 1) (Nat.le_succ _)
    exact ⟨some ts, w.clock t.asked,
      later.remembered (f := fun m => { m with maxTs := some ts, maxAt := w.clock t.asked })⟩
  · exact ⟨m.maxTs, m.maxAt, calm⟩

/-- The row is buffered or, with the rest of the buffer, written or dropped. -/
theorem wp_store {event : Row} (aligned : Aligned hour) (ts : hourStart event.ts = hour)
    (opened : m.currentHour = some hour) (own : ∀ q ∈ m.buffer, hourStart q.ts = hour)
    (calm : Calm (Before hour) m rows n t) :
    wp w (store event)
      ⟨fun _ t => Entered w m n rows (m.buffer ++ [event]) hour t ∧ t.mem.seen = m.seen,
        fun _ => False,
          Stranded w (Before hour) n rows (m.buffer ++ [event]) (m.buffer ++ [event])⟩ t := by
  unfold store
  rw [wp_bind]
  apply wp_mono (wp_anchor event.ts calm)
  · rintro _ t ⟨newest, at_, calm⟩
    have buffered := calm.remembered (f := fun m => { m with buffer := m.buffer ++ [event] })
    have whole : ∀ q ∈ m.buffer ++ [event], hourStart q.ts = hour := by
      intro q mem
      rcases List.mem_append.mp mem with old | new
      · exact own q old
      · rw [List.mem_singleton.mp new]
        exact ts
    simp only [wp_bind, setMem, wp_modify, wp_gets, wp_env, wp_when]
    split
    · have writable : Writable (Before hour)
          { m with maxTs := newest, maxAt := at_, buffer := m.buffer ++ [event] } :=
        fun _ => ⟨hour, opened, aligned, fun _ before => before.2, whole⟩
      apply wp_mono (wp_flushBuffer writable buffered)
      · rintro _ t ⟨j, flushed, sub, all⟩
        have mem := flushed.mem
        refine ⟨⟨⟨flushed.toShelf, flushed.since, j, flushed.landed, ?_, ?_⟩, ?_, ?_, ?_, ?_⟩, ?_⟩
        · simpa [mem] using sub
        · exact fun q inside => (all q inside).imp id .inr
        · rw [mem]
          exact opened
        · rw [mem]
        · rw [mem]
        · simp [mem]
        · rw [mem]
      · exact fun _ h => h
      · exact fun _ h => h
    · have mem := buffered.mem
      refine ⟨⟨buffered.carried, ?_, ?_, ?_, ?_⟩, ?_⟩
      · rw [mem]
        exact opened
      · rw [mem]
      · rw [mem]
      · rw [mem]
        exact whole
      · show t.mem.seen = m.seen
        rw [calm.mem]
  · exact fun _ h => h.elim
  · exact fun _ h => h.elim

/-- A row is not dropped for a stamp that is not ahead of the clock. -/
theorem not_implausible {now ts : Int} (le : ts ≤ now) : m.implausible now ts = false := by
  have absurd : ¬ now + maxTsAbsurd < ts := by
    unfold maxTsAbsurd
    omega
  have ahead : ¬ now + maxTsAhead < ts := by
    unfold maxTsAhead
    omega
  unfold Mem.implausible
  rw [if_neg absurd]
  split
  · rfl
  · cases m.maxTs with
    | none => simp [ahead]
    | some newest => simp [ahead]

/-- A row that is neither ahead of the clock nor late, nor has a key that was seen, is taken. -/
theorem wp_append {event : Row} (oracle : w.oracle = false) (dedup : w.dedup = true)
    (sane : event.ts ≤ w.clock t.asked)
    (late : (m.currentHour.or m.floor).any (hourStart event.ts < ·) = false)
    (writable : Writable done m) (idle : m.currentHour = none → m.buffer = [])
    (current : ∀ cur, m.currentHour = some cur → Aligned cur)
    (before : ∀ g, done g → Before (hourStart event.ts) g)
    (fresh : event.key ∉ m.seen) (new : ∀ q ∈ rows ++ m.buffer, q.key ≠ event.key)
    (calm : Calm done m rows n t) :
    wp w (append event)
      ⟨fun _ t => Entered w m n rows (m.buffer ++ [event]) (hourStart event.ts) t ∧
          ∀ k ∈ t.mem.seen, k = event.key ∨ k ∈ m.seen ∨ ∃ q ∈ rows ++ m.buffer, q.key = k,
        fun _ => False,
        Stranded w (Before (hourStart event.ts)) n rows (m.buffer ++ [event]) m.buffer⟩ t := by
  obtain rfl := calm.mem
  have asked : Calm done t.mem rows n { t with asked := t.asked + 1 } := calm.asked (Nat.le_succ _)
  have believed := not_implausible (m := t.mem) sane
  let m' : Mem := { t.mem with drops := 0, lastDropTs := none }
  have accepted : Calm done m' rows n
      { t with asked := t.asked + 1, mem := { t.mem with drops := 0, lastDropTs := none } } :=
    asked.remembered (f := fun m => { m with drops := 0, lastDropTs := none })
  have current' : ∀ cur, m'.currentHour = some cur → Aligned cur ∧ cur ≤ hourStart event.ts := by
    intro cur opened
    have opened : t.mem.currentHour = some cur := opened
    refine ⟨current cur opened, ?_⟩
    simpa [opened] using late
  unfold append
  rw [wp_bind, wp_utcnow]
  dsimp only
  rw [wp_bind, wp_gets]
  dsimp only
  rw [believed]
  simp only [Bool.false_eq_true, if_false, wp_bind, setMem, wp_modify, late, wp_env, oracle]
  apply wp_mono (wp_enterHour dedup (m := m') writable idle current' before accepted)
  · rintro _ t' ⟨entered, seen⟩
    obtain ⟨j, landed, sub, all⟩ := entered.split
    have inside : ∀ q ∈ landedRows t'.trace, q ∈ rows ++ t.mem.buffer := by
      intro q mem
      rw [landed] at mem
      rcases List.mem_append.mp mem with old | flushed
      · exact List.mem_append_left _ old
      · exact List.mem_append_right _ (sub.subset (List.mem_append_left _ flushed))
    have unseen : event.key ∉ t'.mem.seen := by
      intro key
      rcases seen _ key with old | ⟨q, row, same⟩
      · exact fresh old
      · exact new q (inside q row) same
    let m'' : Mem := { t'.mem with seen := event.key :: t'.mem.seen }
    have from_ : Calm (Before (hourStart event.ts)) m'' (rows ++ j) t'.asked { t' with mem := m'' } :=
      ⟨⟨entered.filed, entered.done, entered.parts, entered.inside, entered.spills, entered.listed⟩,
        rfl, landed, le_refl _⟩
    have sub' : (j ++ (t'.mem.buffer ++ [event])).Sublist (t.mem.buffer ++ [event]) := by
      rw [← List.append_assoc]
      exact sub.append (List.Sublist.refl _)
    have all' : ∀ q ∈ t.mem.buffer ++ [event],
        q ∈ j ∨ q ∈ t'.mem.buffer ++ [event] ∨ Failed w n t'.asked := by
      intro q mem
      rcases List.mem_append.mp mem with old | last
      · exact (all q old).imp id (Or.imp (List.mem_append_left _) id)
      · exact .inr (.inl (List.mem_append_right _ last))
    unfold admitRow
    simp only [wp_bind, wp_gets, wp_env, dedup, if_true, wp_ite, unseen, if_false, setMem, wp_modify]
    apply wp_mono (wp_store (m := m'') (aligned_hourStart _) rfl entered.opened entered.own from_)
    · rintro _ t'' ⟨stored, kept⟩
      refine ⟨⟨stored.toCarried.after entered.since sub' all', stored.opened, ?_, ?_, stored.own⟩, ?_⟩
      · exact stored.floor.trans entered.floor
      · exact stored.held.trans entered.held
      · intro k key
        rw [kept] at key
        rcases List.mem_cons.mp key with same | older
        · exact .inl same
        · rcases seen k older with old | ⟨q, row, same⟩
          · exact .inr (.inl old)
          · exact .inr (.inr ⟨q, inside q row, same⟩)
    · exact fun _ h => h
    · exact fun t'' h => h.after entered.since sub' fun q mem => all' q (List.mem_append_left _ mem)
  · exact fun _ h => h
  · intro t' h
    obtain ⟨j, c, landed, sub, rest⟩ := h.split
    exact ⟨h.toShelf, h.since, j, c, landed, sub.trans (List.sublist_append_left _ _), rest⟩

/-- A late row changes nothing but the count of the rows refused in a row. -/
theorem wp_append_late {event : Row} (sane : event.ts ≤ w.clock t.asked)
    (late : (m.currentHour.or m.floor).any (hourStart event.ts < ·) = true)
    (calm : Calm done m rows n t) :
    wp w (append event)
      ⟨fun _ t => Calm done { m with drops := 0, lastDropTs := none } rows n t,
        fun _ => False, fun _ => False⟩ t := by
  obtain rfl := calm.mem
  have asked : Calm done t.mem rows n { t with asked := t.asked + 1 } := calm.asked (Nat.le_succ _)
  have believed := not_implausible (m := t.mem) sane
  unfold append
  rw [wp_bind, wp_utcnow]
  dsimp only
  rw [wp_bind, wp_gets]
  dsimp only
  rw [believed]
  simp only [Bool.false_eq_true, if_false, wp_bind, setMem, wp_modify, late, if_true, wp_pure]
  exact asked.remembered (f := fun m => { m with drops := 0, lastDropTs := none })

theorem wp_close (held : m.held = []) (writable : Writable done m) (calm : Calm done m rows n t) :
    wp w close
      ⟨fun _ t => Carried w done n rows m.buffer t ∧ t.mem.buffer = [], fun _ => False,
        Stranded w done n rows m.buffer m.buffer⟩ t := by
  unfold close
  rw [wp_bind]
  apply wp_mono (wp_flushBuffer writable calm)
  · rintro _ t ⟨j, calm, sub, all⟩
    have mem := calm.mem
    simp only [wp_bind, wp_gets, mem, held, forEach, wp_pure, setMem, wp_modify]
    have closed := calm.remembered (f := fun _ => { m with held := [], heldSeen := [], buffer := [] })
    refine ⟨⟨closed.toShelf, closed.since, j, closed.landed, ?_, ?_⟩, trivial⟩
    · simpa using sub
    · exact fun q inside => (all q inside).imp id .inr
  · exact fun _ h => h
  · exact fun _ h => h

/- The wall-clock sweep. -/

/-- What a sweep up to a cutoff leaves in memory. -/
structure Finalized (w : World) (done : Int → Prop) (m : Mem) (n : Nat) (rows : List Row)
    (cutoff : Int) (t : Tape) : Prop
    extends Carried w (fun g => done g ∨ Before cutoff g) n rows m.buffer t where
  held : t.mem.held = m.held
  seen : t.mem.seen = m.seen
  current : t.mem.currentHour = m.currentHour ∧ t.mem.buffer = m.buffer ∧
      (∀ cur, m.currentHour = some cur → cutoff ≤ cur) ∨
    t.mem.currentHour = none ∧ t.mem.buffer = [] ∧ ∃ cur, m.currentHour = some cur ∧ cur < cutoff
  raised : ∀ F, m.floor = some F → ∃ F', t.mem.floor = some F' ∧ F ≤ F'
  floor : ∀ F, t.mem.floor = some F → m.floor = some F ∨ ∃ g, Before cutoff g ∧ F = g + hourMicros

theorem wp_attemptHour {finalize : Seg Unit} {i d : Tape → Prop} {t : Tape}
    (h : wp w finalize ⟨fun _ => i, fun _ => False, d⟩ t) :
    wp w (attemptHour hour finalize)
      ⟨fun a t => i t ∧ a.hour = hour, fun _ => False, d⟩ t := by
  unfold attemptHour filesOf
  simp only [wp_bind, wp_gets, wp_pure]
  exact wp_mono h (fun _ _ kept => ⟨kept, trivial⟩) (fun _ h => h) fun _ h => h

/-- The open hour, where it is before the cutoff, is closed. -/
theorem wp_finalizeOpen {cutoff : Int} (writable : Writable done m)
    (current : ∀ cur, m.currentHour = some cur → Aligned cur) (calm : Calm done m rows n t) :
    wp w (finalizeOpen cutoff)
      ⟨fun opened t => ∃ m' j, Calm (fun g => done g ∨ Before cutoff g) m' (rows ++ j) n t ∧
          (j ++ m'.buffer).Sublist m.buffer ∧
          (∀ q ∈ m.buffer, q ∈ j ∨ q ∈ m'.buffer ∨ Failed w n t.asked) ∧
          (∀ q ∈ m'.buffer, ∀ g, done g ∨ Before cutoff g → g < hourStart q.ts) ∧
          (m' = m ∧ (∀ cur, m.currentHour = some cur → cutoff ≤ cur) ∨
            m' = { m with buffer := [], currentHour := none } ∧
              ∃ cur, m.currentHour = some cur ∧ cur < cutoff) ∧
          ∀ a ∈ opened, Before cutoff a.hour,
        fun _ => False, Stranded w (fun g => done g ∨ Before cutoff g) n rows m.buffer m.buffer⟩ t := by
  unfold finalizeOpen
  rw [wp_bind, wp_gets]
  dsimp only
  rw [calm.mem]
  cases due : m.currentHour.filter (· < cutoff) with
  | none =>
    have late : ∀ cur, m.currentHour = some cur → cutoff ≤ cur := by
      intro cur opened
      simpa [opened] using due
    refine ⟨m, [], ?_, List.Sublist.refl _, fun q mem => .inr (.inl mem), ?_, .inl ⟨rfl, late⟩, by simp⟩
    · rw [List.append_nil]
      exact calm.mono fun g => .inl
    · intro q mem g passed
      rcases passed with old | before
      · exact writable.later mem old
      · obtain ⟨cur, opened, -, -, own⟩ := writable (List.ne_nil_of_mem mem)
        rw [own q mem]
        exact before.2.trans_le (late cur opened)
  | some hour =>
    obtain ⟨opened, less⟩ := Option.filter_eq_some_iff.mp due
    have less : hour < cutoff := by simpa using less
    have before : Before cutoff hour := ⟨current hour opened, less⟩
    dsimp only
    rw [wp_bind]
    have passed : done hour ∨ Before cutoff hour := .inr before
    have closes : wp w (finalizeHour hour) _ t :=
      wp_finalizeHour writable (fun g (yes : done g) => (.inl yes : done g ∨ Before cutoff g)) passed calm
    apply wp_mono (wp_attemptHour closes)
    · rintro a t ⟨⟨j, calm, sub, all⟩, same⟩
      simp only [wp_bind, setMem, wp_modify, wp_pure]
      refine ⟨_, j, calm.remembered (f := fun m => { m with currentHour := none }), by simpa using sub,
        fun q mem => (all q mem).imp id .inr, by simp, .inr ⟨rfl, hour, opened, less⟩, ?_⟩
      intro b mem
      rw [List.mem_singleton.mp mem, same]
      exact before
    · exact fun _ h => h
    · exact fun _ h => h

/-- The floor past some hours is the old one or past one of them. -/
theorem floor_from {old : Option Int} {hours : List Int} {F : Int}
    (same : (old.toList ++ hours.map (· + hourMicros)).max? = some F) :
    old = some F ∨ ∃ g ∈ hours, F = g + hourMicros := by
  have mem := (List.max?_eq_some_iff.mp same).1
  rcases List.mem_append.mp mem with first | later
  · exact .inl (Option.mem_toList.mp first)
  · obtain ⟨g, inside, rfl⟩ := List.mem_map.mp later
    exact .inr ⟨g, inside, rfl⟩

theorem le_floor {old : Option Int} {hours : List Int} {F : Int}
    (mem : F ∈ old.toList ++ hours.map (· + hourMicros)) :
    ∃ F', (old.toList ++ hours.map (· + hourMicros)).max? = some F' ∧ F ≤ F' := by
  cases same : (old.toList ++ hours.map (· + hourMicros)).max? with
  | none =>
    rw [List.max?_eq_none_iff.mp same] at mem
    cases mem
  | some F' => exact ⟨F', rfl, (List.max?_eq_some_iff.mp same).2 F mem⟩

theorem wp_finalizeCompletedHours {cutoff : Int} (oracle : w.oracle = false)
    (writable : Writable done m) (current : ∀ cur, m.currentHour = some cur → Aligned cur)
    (calm : Calm done m rows n t) :
    wp w (finalizeCompletedHours cutoff)
      ⟨fun _ t => Finalized w done m n rows cutoff t, fun _ => False,
        Stranded w (fun g => done g ∨ Before cutoff g) n rows m.buffer m.buffer⟩ t := by
  unfold finalizeCompletedHours
  simp only [wp_bind, wp_env, oracle, Bool.false_eq_true, if_false]
  apply wp_mono (wp_finalizeOpen writable current calm)
  · rintro opened t ⟨m', j, calm, sub, all, past, memory, due⟩
    simp only [wp_gets]
    have from_ : Calm (fun g => done g ∨ Before cutoff g) m' (rows ++ j) t.asked t :=
      ⟨calm.toShelf, calm.mem, calm.landed, le_refl _⟩
    have each : ∀ g ∈ (t.disk.hoursWith fun f => f.parts ≠ []).filter (· < cutoff),
        ∀ s, Calm (fun g => done g ∨ Before cutoff g) m' (rows ++ j) t.asked s →
        wp w (attemptHour g (mergeHour g))
          ⟨fun a s => Calm (fun g => done g ∨ Before cutoff g) m' (rows ++ j) t.asked s ∧
              (a.hour = g ∧ Before cutoff g),
            fun _ => False, Calm (fun g => done g ∨ Before cutoff g) m' (rows ++ j) t.asked⟩ s := by
      intro g mem s kept
      simp only [Disk.hoursWith, List.mem_filter, List.mem_insertionSort, decide_eq_true_eq] at mem
      have before : Before cutoff g := ⟨calm.parts g mem.1.2, mem.2⟩
      apply wp_mono (wp_attemptHour (mergeHour_leads (.inr before) s kept))
      · exact fun a s h => ⟨h.1, h.2, before⟩
      · exact fun _ h => h
      · exact fun _ h => h
    apply wp_mono (wp_collect each from_)
    · rintro swept t' ⟨kept, hours, -⟩
      simp only [setMem, wp_modify, wp_pure]
      have finalized : ∀ a ∈ opened ++ swept, Before cutoff a.hour := by
        intro a mem
        rcases List.mem_append.mp mem with first | later
        · exact due a first
        · obtain ⟨g, -, same, before⟩ := hours a later
          rw [same]
          exact before
      have since := calm.since.trans kept.since
      have mem := kept.mem
      have shelf := (kept.remembered (f := fun m => { m with
        floor := (m.floor.toList ++ (((opened ++ swept).filter fun a => a.isFinal && !a.alreadyFinal).map
          Attempt.hour).map (· + hourMicros)).max? })).toShelf
      refine ⟨⟨shelf, since, j, kept.landed, ?_, ?_⟩, ?_, ?_, ?_, ?_, ?_⟩
      · simpa [mem] using sub
      · intro q inside
        rw [mem]
        exact (all q inside).imp id (Or.imp id fun failed => failed.later kept.since)
      · rw [mem]
        rcases memory with ⟨rfl, -⟩ | ⟨rfl, -⟩ <;> rfl
      · rw [mem]
        rcases memory with ⟨rfl, -⟩ | ⟨rfl, -⟩ <;> rfl
      · rw [mem]
        rcases memory with ⟨rfl, late⟩ | ⟨rfl, closed⟩
        · exact .inl ⟨rfl, rfl, late⟩
        · exact .inr ⟨rfl, rfl, closed⟩
      · intro F floor
        rw [mem]
        apply le_floor (List.mem_append_left _ _)
        rw [Option.mem_toList]
        rcases memory with ⟨rfl, -⟩ | ⟨rfl, -⟩ <;> exact floor
      · intro F floor
        rw [mem] at floor
        rcases floor_from floor with old | ⟨g, inside, same⟩
        · left
          rcases memory with ⟨rfl, -⟩ | ⟨rfl, -⟩ <;> exact old
        · obtain ⟨a, attempted, rfl⟩ := List.mem_map.mp inside
          exact .inr ⟨a.hour, finalized a (List.mem_of_mem_filter attempted), same⟩
    · exact fun _ h => h
    · intro t' kept
      refine ⟨kept.toShelf, calm.since.trans kept.since, j, m'.buffer, kept.landed, sub, ?_, ?_, ?_⟩
      · rw [kept.mem]
        exact fun q mem => .inr mem
      · exact fun q mem g yes => past q mem g (kept.done g yes)
      · exact fun q inside => (all q inside).imp id (Or.imp id fun failed => failed.later kept.since)
  · exact fun _ h => h
  · exact fun _ h => h

/- Construction. -/

/-- A new memory, whose floor is past every hour that is merged or published and past one at most. -/
structure Constructed (done : Int → Prop) (n : Nat) (rows : List Row) (t : Tape) : Prop
    extends Shelf done t where
  since : n ≤ t.asked
  landed : landedRows t.trace = rows
  fresh : ∃ now F, t.mem = { Mem.fresh now with floor := F }
  behind : ∀ g, (t.disk.files g).finalized = true → ∃ F, t.mem.floor = some F ∧ g < F
  floor : ∀ F, t.mem.floor = some F → ∃ g, (t.disk.files g).finalized = true ∧ F = g + hourMicros

theorem wp_recoverHour (yes : done hour) (calm : Calm done m rows n t) :
    wp w (attempt (recoverHour hour) (pure ()))
      ⟨fun _ => Calm done m rows n, fun _ => False, Calm done m rows n⟩ t := by
  rw [wp_attempt]
  by_cases finalized : (t.disk.files hour).finalized = true
  · have outlasts : Outlasts hour fun t => Calm done m rows n t ∧ hour ∈ t.disk.hours :=
      calm_outlasts yes
    have recovered := outlasts.recoverHour (w := w) t ⟨calm, calm.listed hour (.inl finalized)⟩
    exact wp_mono recovered (fun _ _ h => h.1) (fun _ h => h.1) fun _ h => h.1
  · rw [Bool.not_eq_true, HourFiles.finalized, Bool.or_eq_false_iff] at finalized
    unfold recoverHour filesOf
    rw [wp_bind, wp_gets]
    dsimp only
    rw [wp_ite, if_neg (by simp [finalized.2]), wp_ite, if_pos (by simpa using finalized.1)]
    exact calm

theorem wp_closedHour (early : ∀ i, n ≤ i → hour ≤ w.clock i) {d : Disk} {t : Tape}
    (calm : Calm done m rows n t) (disk : t.disk = d) :
    wp w (closedHour hour)
      ⟨fun b t => (Calm done m rows n t ∧ t.disk = d) ∧ b = some hour, fun _ => False,
        fun _ => False⟩ t := by
  have later := calm.asked (k := t.asked + 1) (Nat.le_succ _)
  have passed : ¬ w.clock t.asked + maxTsAhead < hour := by
    have le := early t.asked calm.since
    unfold maxTsAhead
    omega
  unfold closedHour
  rw [wp_bind, wp_utcnow]
  dsimp only
  rw [wp_pure, if_neg passed]
  exact ⟨⟨later, disk⟩, rfl⟩

theorem wp_recover (early : ∀ g, done g → ∀ i, n ≤ i → g ≤ w.clock i) {now : Int}
    (calm : Calm done (Mem.fresh now) rows n t) :
    wp w recover
      ⟨fun _ t => Constructed done n rows t, fun _ => False,
        fun t => ∃ m, Calm done m rows n t⟩ t := by
  have recovers : Leads w (Calm done (Mem.fresh now) rows n) (Calm done (Mem.fresh now) rows n)
      (fun _ => False) (fun t => ∃ m, Calm done m rows n t)
      (forEach (t.disk.hoursWith fun f => f.merging.isSome) fun hour =>
        attempt (recoverHour hour) (pure ())) := by
    apply leads_forEach_mem
    intro g mem s kept
    simp only [Disk.hoursWith, List.mem_filter, List.mem_insertionSort] at mem
    have yes : done g := calm.done g (by simp [HourFiles.finalized, mem.2])
    exact wp_mono (wp_recoverHour yes kept) (fun _ _ h => h) (fun _ h => h) fun _ h => ⟨_, h⟩
  unfold recover
  rw [wp_bind, wp_gets]
  dsimp only
  rw [wp_bind]
  apply wp_mono (recovers t calm)
  · intro _ t calm
    simp only [wp_bind, wp_gets]
    have each : ∀ g ∈ t.disk.hoursWith (fun f => f.final.isSome) ++
        t.disk.hoursWith (fun f => f.merging.isSome), ∀ s, Calm done (Mem.fresh now) rows n s ∧ s.disk = t.disk →
        wp w (closedHour g) ⟨fun b s => (Calm done (Mem.fresh now) rows n s ∧ s.disk = t.disk) ∧ b = some g,
          fun _ => False, fun t => ∃ m, Calm done m rows n t⟩ s := by
      rintro g mem s ⟨kept, disk⟩
      have yes : done g := by
        apply calm.done g
        simp only [Disk.hoursWith, List.mem_append, List.mem_filter, List.mem_insertionSort] at mem
        rcases mem with ⟨-, final⟩ | ⟨-, merging⟩
        · simp [HourFiles.finalized, final]
        · simp [HourFiles.finalized, merging]
      exact wp_mono (wp_closedHour (early g yes) kept disk) (fun _ _ h => h) (fun _ h => h)
        fun _ h => h.elim
    apply wp_mono (wp_collect each ⟨calm, rfl⟩)
    · rintro closed t' ⟨⟨kept, disk⟩, back, forth⟩
      simp only [setMem, wp_modify]
      have set := kept.remembered (f := fun m => { m with
        floor := closed.reduceOption.max?.map (· + hourMicros) })
      refine ⟨set.toShelf, set.since, set.landed, ⟨now, _, set.mem⟩, ?_, ?_⟩
      · intro g finalized
        have listed := kept.listed g (.inl finalized)
        have mem : g ∈ t.disk.hoursWith (fun f => f.final.isSome) ++
            t.disk.hoursWith (fun f => f.merging.isSome) := by
          rw [HourFiles.finalized, Bool.or_eq_true] at finalized
          simp only [Disk.hoursWith, List.mem_append, List.mem_filter, List.mem_insertionSort]
          rw [← disk]
          tauto
        obtain ⟨b, inside, rfl⟩ := forth g mem
        have reduced := List.reduceOption_mem_iff.mpr inside
        cases same : closed.reduceOption.max? with
        | none =>
          rw [List.max?_eq_none_iff.mp same] at reduced
          cases reduced
        | some last =>
          have le := (List.max?_eq_some_iff.mp same).2 g reduced
          refine ⟨last + hourMicros, rfl, ?_⟩
          unfold hourMicros
          omega
      · intro F floor
        obtain ⟨g, newest, rfl⟩ := Option.map_eq_some_iff.mp floor
        have reduced := List.reduceOption_mem_iff.mp (List.max?_eq_some_iff.mp newest).1
        obtain ⟨g', mem, same⟩ := back _ reduced
        obtain rfl := Option.some.inj same
        refine ⟨g, ?_, rfl⟩
        simp only [Disk.hoursWith, List.mem_append, List.mem_filter, List.mem_insertionSort] at mem
        rw [← disk] at mem
        rcases mem with ⟨-, final⟩ | ⟨-, merging⟩
        · simp [HourFiles.finalized, final]
        · simp [HourFiles.finalized, merging]
    · exact fun _ h => h
    · exact fun _ h => h
  · exact fun _ h => h
  · exact fun _ h => h

/-- A start of which no hour is ahead of the clock loses and adds no row. -/
theorem wp_construct (early : ∀ g, done g → ∀ i, t.asked ≤ i → g ≤ w.clock i) (shelf : Shelf done t) :
    wp w construct
      ⟨fun _ t' => Constructed done t.asked (landedRows t.trace) t', fun _ => False,
        fun t' => ∃ m, Calm done m (landedRows t.trace) t.asked t'⟩ t := by
  have asked : Calm done t.mem (landedRows t.trace) t.asked { t with asked := t.asked + 1 } :=
    ⟨⟨shelf.filed, shelf.done, shelf.parts, shelf.inside, shelf.spills, shelf.listed⟩, rfl, rfl,
      Nat.le_succ _⟩
  unfold construct
  rw [wp_bind, wp_utcnow]
  dsimp only
  rw [wp_bind]
  exact wp_recover early (asked.remembered (f := fun _ => Mem.fresh (w.clock t.asked)))

end

end Segments
