import Zcrypto.Panel.FillLedger
import Zcrypto.Panel.FillOrder

/- Runs closed one pair's directory, killed at any write and taken up again: every day file has the rows of the
   orders that some run posted on its day, and once a run has completed the manifest's checks pass. -/
namespace Panel
open OrderBook (Decimal)

/- The days that a run writes. -/

/-- Where a run may have begun: at its `since`, or at a midnight after it. -/
def Began (since start : Int) : Prop := start = since ∨ ∃ day, start = midnight day ∧ since ≤ start

/-- A day's rows and its entry, as a run makes them. -/
structure Whole {F : Type} (params : RunParams) (posts : List (Post F)) (day : Int) (rows : List (FillRow F))
    (entry : Entry) : Prop where
  kept : (rows.map FillRow.post).Perm (onDay day posts)
  balanced : entry.Balanced (spanHours params day) rows.length
  since : dayOf params.since ≤ day
  till : midnight day < params.till

/-- Days one after another, each landed whole. -/
def Landed {F : Type} (params : RunParams) (posts : List (Post F)) (first : Int) (n : Nat)
    (writes : List (DayWrite F)) : Prop :=
  ∃ (rows : Int → List (FillRow F)) (entry : Int → Entry),
    writes = (upFrom first n).flatMap (fun d => writeDay d (rows d) (entry d)) ∧
    ∀ d ∈ upFrom first n, Whole params posts d (rows d) (entry d)

theorem upFrom_before {first : Int} {n : Nat} {days rest : List Int} (split : days ++ rest = upFrom first n) :
    days = upFrom first days.length := by
  induction days generalizing first n with
  | nil => rfl
  | cons day days ih =>
    cases n with
    | zero => cases split
    | succ n =>
      rw [upFrom, List.cons_append, List.cons.injEq] at split
      rw [List.length_cons, upFrom, ← ih split.2, split.1]

/-- A day's hours in the run are its hours in the span. -/
theorem spanHours_eq {since till start day : Int} {m : Nat} {depth : Int} (began : Began since start)
    (later : dayOf start ≤ day) (inside : start + m ≤ till)
    (closed : midnight day + 24 < start + m ∨ start + m = till) :
    (upFrom start m).countP (dayOf · = day) = spanHours (RunParams.of depth since till) day := by
  rw [count_hours]
  unfold spanHours hoursTo
  rw [length_upFrom]
  simp only [RunParams.of]
  have same : max since (midnight day) = max start (midnight day) := by
    rcases began with rfl | ⟨d, rfl, after⟩
    · rfl
    · unfold midnight dayOf at *
      omega
  rw [same]
  congr 1
  rcases closed with landed | ended
  · omega
  · rw [ended]

theorem dayOf_mono {a b : Int} (le : a ≤ b) : dayOf a ≤ dayOf b := by
  unfold dayOf
  omega

theorem Began.day {since start : Int} (began : Began since start) : dayOf since ≤ dayOf start := by
  rcases began with rfl | ⟨day, rfl, after⟩
  · exact Int.le_refl _
  · exact dayOf_mono after

section
variable {F : Type} {depth since till start : Int} {m : Nat} {posts : List (Post F)} {writes : List (DayWrite F)}
  {landed : List Int} {shown : Int → List (FillRow F)} {p : Progress F}

/-- A day of which every row is filed, with its entry. -/
theorem Kept.whole (kept : Kept start m posts writes landed shown p) {day : Int} {rows : List (FillRow F)}
    (filed : (rows.map FillRow.post).Perm (onDay day posts)) (began : Began since start) (later : dayOf start ≤ day)
    (inside : start + m ≤ till) (closed : midnight day + 24 < start + m ∨ start + m = till)
    (before : midnight day < till) :
    Whole (RunParams.of depth since till) posts day (rowsFrame rows) (p.entry day) where
  kept := ((rowsFrame_perm rows).map FillRow.post).trans filed
  balanced := by
    have counted := kept.entries day
    have length : (rowsFrame rows).length = (onDay day posts).length := by
      rw [(rowsFrame_perm rows).length_eq, ← filed.length_eq, List.length_map]
    rw [spanHours_eq began later inside closed, ← length] at counted
    exact counted
  since := began.day.trans later
  till := before

theorem days_some {day : Int} (mem : day ∈ upFrom (dayOf start) (daysIn start m)) : 0 < m := by
  by_contra none_
  have zero : m = 0 := by omega
  rw [zero] at mem
  cases mem

/-- The days that a run has landed on its way. -/
theorem Kept.landed_days (kept : Kept start m posts writes landed shown p) (depth : Int) (began : Began since start)
    (inside : 0 < m → start + m ≤ till) :
    Landed (RunParams.of depth since till) posts (dayOf start) landed.length writes := by
  have days := upFrom_before kept.days
  refine ⟨fun d => rowsFrame (shown d), p.entry, ?_, ?_⟩
  · rw [← days]
    exact kept.writes
  · intro d mem
    have later := (mem_upFrom.mp mem).1
    rw [← days] at mem
    have hours := inside (days_some (by rw [← kept.days]; exact List.mem_append_left _ mem))
    have past := kept.past d mem
    have none_carried : onDay d (p.carried.map Order.toPost) = [] := by
      refine List.filter_eq_nil_iff.mpr fun q of_carried => ?_
      obtain ⟨o, carried, rfl⟩ := List.mem_map.mp of_carried
      simp only [decide_eq_true_eq]
      intro same
      exact kept.open_ o carried (same ▸ mem)
    have filed := kept.kept d
    rw [none_carried, List.append_nil] at filed
    exact kept.whole filed began later hours (Or.inl past) (by omega)

/-- Every day of the span, where the data has ended. -/
theorem Kept.finished_days (kept : Kept start m posts writes landed shown p) (depth : Int) (float : Decimal → F)
    (began : Began since start) (ended : 0 < m → start + m = till) :
    Landed (RunParams.of depth since till) posts (dayOf start) (daysIn start m) (writes ++ p.finish float) := by
  obtain ⟨shown', all, filed⟩ := kept.finish
  refine ⟨fun d => rowsFrame (shown' d), p.entry, all, ?_⟩
  intro d mem
  have some_hours := days_some mem
  have whole := ended some_hours
  obtain ⟨later, sooner⟩ := (mem_days some_hours).mp mem
  refine kept.whole (filed d) began later whole.le (Or.inr whole) ?_
  unfold dayOf midnight at *
  omega

end

section
variable {F Sample Bytes : Type} [Zero F] [NatCast F] [Add F] [Sub F] [Mul F] [Div F]
  [Max F] [Min F] [LE F] [DecidableLE F] [DecidableEq F]

/-- A run of the command closed the pair. -/
structure Command (F Sample Bytes : Type) where
  sampler : Sampler Sample Bytes
  source : Source F Bytes
  codeRef : String
  since : Int
  till : Int

namespace Command
variable (float : Decimal → F) (pair : String) (c : Command F Sample Bytes)

def params : RunParams := RunParams.of c.sampler.depth c.since c.till

def produce (tree : DayTree F) : List (DayWrite F) × Except String Totals :=
  producePair c.sampler float c.source pair c.codeRef c.since c.till tree

/-- The orders that the run posts from a start on. -/
def postsFrom (start : Int) : List (Post F) :=
  (Progress.start F).postsOver c.sampler float c.source pair (hoursTo start c.till)

/-- Every hour of its span can be run. -/
def GetsThrough (start : Int) : Prop :=
  ∃ written q, (Progress.start F).hours c.sampler float c.source pair (hoursTo start c.till) = (written, .ok q)

def apply (tree : DayTree F) (writes : List (DayWrite F)) : DayTree F :=
  writes.foldl (DayTree.write c.params c.codeRef) tree

/-- The tree as a run leaves it that is killed after so many of its writes. -/
def leaves (tree : DayTree F) (n : Nat) : DayTree F := c.apply tree ((c.produce float pair tree).1.take n)

end Command

variable {float : Decimal → F} {pair : String} {c : Command F Sample Bytes} {tree : DayTree F}

/-- A run lands whole days from its start on, and a completed one every day of its span. -/
theorem produce_landed (began : Began c.since (tree.startOf c.since))
    (accepted : checkRunRecord tree c.params c.codeRef = .ok ()) :
    ∃ n, Landed c.params (c.postsFrom float pair (tree.startOf c.since)) (dayOf (tree.startOf c.since)) n
        (c.produce float pair tree).1 ∧
      (c.GetsThrough float pair (tree.startOf c.since) →
        n = daysIn (tree.startOf c.since) (c.till - tree.startOf c.since).toNat ∧
          ∀ q ∈ c.postsFrom float pair (tree.startOf c.since),
            dayAt q.ts ∈ upFrom (dayOf (tree.startOf c.since)) n) := by
  set start := tree.startOf c.since with of_start
  have zero : start + ((0 : Nat) : Int) = start := by omega
  obtain ⟨m, p, landed, shown, le, kept, ended⟩ :=
    hours_kept c.sampler float c.source pair (c.till - start).toNat (kept_start start)
  rw [zero] at kept ended
  rw [Nat.zero_add, List.nil_append, List.nil_append] at kept
  have hours_eq : hoursTo start c.till = upFrom start (c.till - start).toNat := rfl
  unfold Command.params at accepted ⊢
  unfold Command.produce producePair Command.postsFrom
  simp only [accepted, ← of_start]
  rw [← hours_eq] at kept ended
  cases hours : (Progress.start F).hours c.sampler float c.source pair (hoursTo start c.till) with
  | mk written out =>
    rw [hours] at kept ended
    have inside : 0 < m → start + m ≤ c.till := by omega
    have on_the_way := kept.landed_days c.sampler.depth began inside
    cases out with
    | error e =>
      refine ⟨_, on_the_way, fun through => ?_⟩
      obtain ⟨_, _, same⟩ := through
      rw [hours] at same
      cases same
    | ok q =>
      obtain ⟨same, all⟩ := ended q rfl
      subst same
      have closed : 0 < m → start + m = c.till := by omega
      have finished := kept.finished_days c.sampler.depth float began closed
      refine ⟨daysIn start m, ?_, fun _ => ⟨by rw [all], kept.posted⟩⟩
      simp only
      split <;> exact finished

end

/- What the trees hold. -/

namespace DayTree

section
variable {F : Type}

/-- An entry that balances, of a day of the span. -/
def Stands (params : RunParams) (day : Int) (entry : Entry) : Prop :=
  (∃ posts, entry.Balanced (spanHours params day) posts) ∧ dayOf params.since ≤ day ∧ midnight day < params.till

/-- Every file before a day was made and has its entry; every entry stands, and one with posts has its file
    unless it is of that day or a later one. -/
structure Sound (params : RunParams) (made : Int → List (FillRow F) → Prop) (next : Int) (tree : DayTree F) :
    Prop where
  files : ∀ d rows, tree.files.lookup d = some rows → d < next ∧ made d rows ∧
    ∃ record entry, tree.record = some record ∧ record.days.lookup d = some entry ∧ rows.length = entry.counts.posts
  params_eq : ∀ record, tree.record = some record → record.params = params
  entries : ∀ record d entry, tree.record = some record → record.days.lookup d = some entry →
    Stands params d entry ∧ (entry.counts.posts ≠ 0 → d ∈ tree.files ∨ next ≤ d)

variable {params : RunParams} {codeRef : String} {made made' : Int → List (FillRow F) → Prop} {next : Int}
  {tree : DayTree F} {entry : Entry} {rows : List (FillRow F)}

theorem empty_sound (params : RunParams) (made : Int → List (FillRow F) → Prop) (next : Int) :
    Sound params made next (DayTree.empty F) where
  files := by simp [DayTree.empty]
  params_eq := by simp [DayTree.empty]
  entries := by simp [DayTree.empty]

theorem Sound.mono (sound : Sound params made next tree) (more : ∀ d rows, made d rows → made' d rows) :
    Sound params made' next tree where
  files := fun d rows held => by
    obtain ⟨before, of_made, rest⟩ := sound.files d rows held
    exact ⟨before, more d rows of_made, rest⟩
  params_eq := sound.params_eq
  entries := sound.entries

/-- The record after an entry's write. -/
theorem write_entry (params : RunParams) (codeRef : String) (tree : DayTree F) (next : Int) (entry : Entry) (d : Int) : ∃ days, (tree.write params codeRef (.entry next entry)).record =
      some ⟨params, codeRef, days⟩ ∧ (tree.write params codeRef (.entry next entry)).files = tree.files ∧
      days.lookup d = if d = next then some entry else (tree.record.bind fun record => record.days.lookup d) := by
  refine ⟨_, rfl, rfl, ?_⟩
  by_cases same : d = next
  · subst same
    rw [if_pos rfl, AList.lookup_insert]
  · rw [if_neg same, AList.lookup_insert_ne same]
    cases tree.record with
    | none => simp
    | some record => rfl

theorem Sound.entered (codeRef : String) (sound : Sound params made next tree) (stands : Stands params next entry) :
    Sound params made next (tree.write params codeRef (.entry next entry)) := by
  refine ⟨?_, ?_, ?_⟩
  · intro d rows held
    obtain ⟨days, record, _, found⟩ := write_entry params codeRef tree next entry d
    obtain ⟨before, of_made, old, e, of_record, of_days, length⟩ := sound.files d rows held
    refine ⟨before, of_made, _, e, record, ?_, length⟩
    have other : d ≠ next := by omega
    rw [found, if_neg other, of_record]
    exact of_days
  · intro record same
    injection same with same
    rw [← same]
  · intro record d e same of_days
    obtain ⟨days, wrote, files, found⟩ := write_entry params codeRef tree next entry d
    rw [wrote] at same
    injection same with same
    subst same
    rw [files]
    simp only [found] at of_days
    by_cases here : d = next
    · rw [if_pos here] at of_days
      injection of_days with same
      subst same here
      exact ⟨stands, fun _ => Or.inr (Int.le_refl _)⟩
    · rw [if_neg here] at of_days
      obtain ⟨old, of_record, of_days⟩ := Option.bind_eq_some_iff.mp of_days
      exact sound.entries old d e of_record of_days

/-- The entry of a day, as the record holds it. -/
def entryOf (tree : DayTree F) (day : Int) : Option Entry := tree.record.bind fun record => record.days.lookup day

theorem Sound.filed (codeRef : String) (sound : Sound params made next tree) (held : tree.entryOf next = some entry)
    (length : rows.length = entry.counts.posts) (of_made : made next rows) :
    Sound params made (next + 1) (tree.write params codeRef (.file next rows)) := by
  obtain ⟨record, of_record, of_days⟩ := Option.bind_eq_some_iff.mp held
  refine ⟨?_, sound.params_eq, ?_⟩
  · intro d found_rows found
    have found : (tree.files.insert next rows).lookup d = some found_rows := found
    by_cases here : d = next
    · subst here
      rw [AList.lookup_insert] at found
      injection found with same
      subst same
      exact ⟨by omega, of_made, record, entry, of_record, of_days, length⟩
    · rw [AList.lookup_insert_ne here] at found
      obtain ⟨before, rest⟩ := sound.files d found_rows found
      exact ⟨by omega, rest⟩
  · intro old d e same of_old
    obtain ⟨stands, there⟩ := sound.entries old d e same of_old
    refine ⟨stands, fun some_posts => ?_⟩
    have inserted : d ∈ (tree.write params codeRef (.file next rows)).files ↔ d = next ∨ d ∈ tree.files :=
      AList.mem_insert _
    rw [inserted]
    rcases there some_posts with file | later
    · exact Or.inl (Or.inr file)
    · by_cases here : d = next
      · exact Or.inl (Or.inl here)
      · exact Or.inr (by omega)

/-- A day without a post needs no file. -/
theorem Sound.unposted (sound : Sound params made next tree) (held : tree.entryOf next = some entry)
    (none_ : entry.counts.posts = 0) : Sound params made (next + 1) tree := by
  refine ⟨?_, sound.params_eq, ?_⟩
  · intro d rows found
    obtain ⟨before, rest⟩ := sound.files d rows found
    exact ⟨by omega, rest⟩
  · intro record d e same of_days
    obtain ⟨stands, there⟩ := sound.entries record d e same of_days
    refine ⟨stands, fun some_posts => ?_⟩
    rcases there some_posts with file | later
    · exact Or.inl file
    · refine Or.inr ?_
      have other : d ≠ next := by
        rintro rfl
        unfold entryOf at held
        rw [same, Option.bind_some, of_days] at held
        injection held with same_entry
        rw [same_entry] at some_posts
        exact some_posts none_
      omega

theorem entryOf_written (params : RunParams) (codeRef : String) (tree : DayTree F) (day : Int) (entry : Entry) :
    (tree.write params codeRef (.entry day entry)).entryOf day = some entry := by
  obtain ⟨days, wrote, _, found⟩ := write_entry params codeRef tree day entry day
  unfold entryOf
  rw [wrote, Option.bind_some, found, if_pos rfl]

variable {posts : List (Post F)} {first : Int} {n : Nat} {writes : List (DayWrite F)}

theorem stands_of (whole : Whole params posts next rows entry) : Stands params next entry :=
  ⟨⟨_, whole.balanced⟩, whole.since, whole.till⟩

/-- A day landed whole. -/
theorem Sound.day (codeRef : String) (sound : Sound params made next tree)
    (whole : Whole params posts next rows entry) (of_made : made next rows) :
    Sound params made (next + 1) ((writeDay next rows entry).foldl (DayTree.write params codeRef) tree) := by
  have entered := sound.entered codeRef (stands_of whole)
  have held := entryOf_written params codeRef tree next entry
  unfold writeDay
  by_cases none_ : rows.isEmpty = true
  · rw [if_pos none_]
    refine entered.unposted held ?_
    rw [whole.balanced.posted, List.isEmpty_iff.mp none_]
    rfl
  · rw [if_neg none_]
    exact entered.filed codeRef held whole.balanced.posted.symm of_made

/-- A day that is cut after any of its writes. -/
theorem Sound.day_cut (codeRef : String) (sound : Sound params made next tree)
    (whole : Whole params posts next rows entry) (of_made : made next rows) (k : Nat) :
    ∃ next', Sound params made next' (((writeDay next rows entry).take k).foldl (DayTree.write params codeRef) tree) := by
  cases k with
  | zero => exact ⟨next, sound⟩
  | succ k =>
    cases k with
    | zero => exact ⟨next, by simpa [writeDay] using sound.entered codeRef (stands_of whole)⟩
    | succ k =>
      have all : (writeDay next rows entry).take (k + 1 + 1) = writeDay next rows entry := by
        refine List.take_of_length_le ?_
        unfold writeDay
        split <;> simp
      rw [all]
      exact ⟨next + 1, sound.day codeRef whole of_made⟩

/-- Days landed one after another, and cut after any write. -/
theorem Sound.landed (codeRef : String) (sound : Sound params made first tree) (landed : Landed params posts first n writes)
    (of_made : ∀ d rows, first ≤ d → (rows.map FillRow.post).Perm (onDay d posts) → made d rows) :
    Sound params made (first + n) (writes.foldl (DayTree.write params codeRef) tree) ∧
      ∀ k, ∃ next, Sound params made next ((writes.take k).foldl (DayTree.write params codeRef) tree) := by
  obtain ⟨rows, entry, rfl, whole⟩ := landed
  induction n generalizing first tree with
  | zero =>
    have same : first + ((0 : Nat) : Int) = first := by omega
    rw [same]
    exact ⟨sound, fun k => ⟨first, by simpa [upFrom] using sound⟩⟩
  | succ n ih =>
    obtain ⟨here, later⟩ := List.forall_mem_cons.mp whole
    have made_here := of_made first (rows first) (Int.le_refl _) here.kept
    have after := sound.day codeRef here made_here
    obtain ⟨all, cut⟩ := ih after (fun d rows le => of_made d rows (by omega)) later
    have same : first + 1 + (n : Int) = first + (n + 1 : Nat) := by omega
    rw [same] at all
    simp only [upFrom, List.flatMap_cons, List.foldl_append, List.take_append]
    refine ⟨all, fun k => ?_⟩
    rcases Nat.le_total k (writeDay first (rows first) (entry first)).length with within | beyond
    · rw [Nat.sub_eq_zero_of_le within]
      exact sound.day_cut codeRef here made_here k
    · rw [List.take_of_length_le beyond]
      exact cut _

/-- What each day's file is after the days have landed. -/
theorem landed_files (rows : Int → List (FillRow F)) (entry : Int → Entry) (d : Int) :
    (((upFrom first n).flatMap fun d => writeDay d (rows d) (entry d)).foldl (DayTree.write params codeRef)
        tree).files.lookup d =
      if d ∈ upFrom first n ∧ rows d ≠ [] then some (rows d) else tree.files.lookup d := by
  induction n generalizing first tree with
  | zero => simp [upFrom]
  | succ n ih =>
    rw [upFrom, List.flatMap_cons, List.foldl_append, ih]
    have one : ((writeDay first (rows first) (entry first)).foldl (DayTree.write params codeRef) tree).files.lookup d =
        if d = first ∧ rows first ≠ [] then some (rows first) else tree.files.lookup d := by
      unfold writeDay
      by_cases none_ : rows first = []
      · simp [none_, DayTree.write]
      · have some_rows : (rows first).isEmpty = false := by simpa using none_
        simp only [some_rows, Bool.false_eq_true, if_false, List.foldl_cons, List.foldl_nil, DayTree.write]
        by_cases here : d = first
        · subst here
          simp [none_]
        · rw [AList.lookup_insert_ne here]
          simp [here]
    rw [one]
    by_cases here : d = first
    · subst here
      have before : d ∉ upFrom (d + 1) n := by
        rw [mem_upFrom]
        omega
      simp [before]
    · simp [here]

/-- The checks pass where no entry is of a later day than the files may be. -/
theorem Sound.checks (sound : Sound params made next tree) (ended : ∀ d, midnight d < params.till → d < next) :
    tree.files.entries.forM (checkFile tree.record) = .ok () ∧
      ∀ record, tree.record = some record → record.days.entries.forM (checkEntry tree record.params) = .ok () := by
  constructor
  · rw [Fallible.forM_ok]
    intro item mem
    obtain ⟨_, _, record, entry, of_record, of_days, length⟩ := sound.files item.1 item.2 (AList.mem_lookup_iff.mpr mem)
    unfold checkFile
    rw [of_record]
    simp [of_days, length]
  · intro record of_record
    rw [Fallible.forM_ok]
    intro item mem
    obtain ⟨⟨⟨_, balanced⟩, _, before⟩, there⟩ :=
      sound.entries record item.1 item.2 of_record (AList.mem_lookup_iff.mpr mem)
    have total := balanced.total
    unfold Counts.total at total
    have none_left : ¬ (item.2.counts.posts ≠ 0 ∧ item.1 ∉ tree.files) := by
      rintro ⟨some_posts, absent⟩
      rcases there some_posts with file | later
      · exact absent file
      · have := ended item.1 before
        omega
    unfold checkEntry
    rw [sound.params_eq record of_record]
    simp only [if_neg none_left, total, balanced.hours, ne_eq, not_true_eq_false, if_false]

end

end DayTree

/- Sessions. -/

section
variable {F Sample Bytes : Type} [Zero F] [NatCast F] [Add F] [Sub F] [Mul F] [Div F]
  [Max F] [Min F] [LE F] [DecidableLE F] [DecidableEq F]

/-- Made by one of the runs: the rows of the orders that it posted on the day. -/
def MadeBy (float : Decimal → F) (pair : String) (runs : List (Command F Sample Bytes)) (day : Int)
    (rows : List (FillRow F)) : Prop :=
  ∃ c ∈ runs, ∃ start, Began c.since start ∧ dayOf start ≤ day ∧
    (rows.map FillRow.post).Perm (onDay day (c.postsFrom float pair start))

/-- The pair's directory after runs that were each killed after so many writes. -/
def treeAfter (float : Decimal → F) (pair : String) (sessions : List (Command F Sample Bytes × Nat)) : DayTree F :=
  sessions.foldl (fun tree s => s.1.leaves float pair tree s.2) (DayTree.empty F)

variable {float : Decimal → F} {pair : String} {c : Command F Sample Bytes} {tree : DayTree F}
  {params : RunParams} {made : Int → List (FillRow F) → Prop} {next : Int}

/-- A run that is not refused takes the tree up where its files end. -/
theorem accepted_sound (sound : DayTree.Sound params made next tree)
    (accepted : checkRunRecord tree c.params c.codeRef = .ok ()) :
    DayTree.Sound c.params made (dayOf (tree.startOf c.since)) tree ∧ Began c.since (tree.startOf c.since) ∧
      (tree.files.keys ≠ [] → ∃ day, tree.startOf c.since = midnight day) := by
  have same_params : ∀ record, tree.record = some record → record.params = c.params := by
    intro record of_record
    unfold checkRunRecord at accepted
    rw [of_record] at accepted
    simp only at accepted
    split at accepted
    · rename_i checks
      simp only [RunRecord.checks, Bool.and_eq_true, decide_eq_true_eq] at checks
      exact checks.1
    · cases accepted
  have of_params : ∀ record, tree.record = some record → params = c.params := fun record of_record =>
    (sound.params_eq record of_record).symm.trans (same_params record of_record)
  unfold DayTree.startOf
  cases newest_eq : tree.files.keys.max? with
  | none =>
    have empty : tree.files.keys = [] := List.max?_eq_none_iff.mp newest_eq
    refine ⟨⟨?_, same_params, ?_⟩, Or.inl rfl, fun some_file => absurd empty some_file⟩
    · intro d rows found
      have there : d ∈ tree.files.keys := AList.mem_keys.mp (AList.lookup_isSome.mp (by rw [found]; rfl))
      rw [empty] at there
      cases there
    · intro record d entry of_record of_days
      obtain ⟨stands, _⟩ := sound.entries record d entry of_record of_days
      rw [of_params record of_record] at stands
      exact ⟨stands, fun _ => Or.inr stands.2.1⟩
  | some newest =>
    obtain ⟨of_files, above⟩ := List.max?_eq_some_iff.mp newest_eq
    have day_eq : dayOf (midnight (newest + 1)) = newest + 1 := by
      unfold dayOf midnight
      omega
    obtain ⟨rows, found⟩ := Option.isSome_iff_exists.mp (AList.lookup_isSome.mpr (AList.mem_keys.mpr of_files))
    obtain ⟨before, _, record, entry, of_record, of_days, _⟩ := sound.files newest rows found
    obtain ⟨⟨_, since, _⟩, _⟩ := sound.entries record newest entry of_record of_days
    rw [of_params record of_record] at since
    simp only [day_eq]
    refine ⟨⟨?_, same_params, ?_⟩, Or.inr ⟨newest + 1, rfl, ?_⟩, fun _ => ⟨newest + 1, rfl⟩⟩
    · intro d rows found
      obtain ⟨_, rest⟩ := sound.files d rows found
      have there : d ∈ tree.files.keys := AList.mem_keys.mp (AList.lookup_isSome.mp (by rw [found]; rfl))
      have := above d there
      exact ⟨by omega, rest⟩
    · intro record d entry of_record of_days
      obtain ⟨stands, there⟩ := sound.entries record d entry of_record of_days
      rw [of_params record of_record] at stands
      refine ⟨stands, fun some_posts => ?_⟩
      rcases there some_posts with file | later
      · exact Or.inl file
      · exact Or.inr (by omega)
    · have of_since : c.params.since = c.since := rfl
      unfold dayOf midnight at *
      omega

/-- A run that is refused writes nothing. -/
theorem refused_writes {e : String} (refused : checkRunRecord tree c.params c.codeRef = .error e) :
    c.produce float pair tree = ([], .error e) := by
  unfold Command.produce producePair
  unfold Command.params at refused
  simp only [refused]

/-- A session keeps the tree sound, wherever it is killed. -/
theorem session_sound {runs : List (Command F Sample Bytes)}
    (sound : DayTree.Sound params (MadeBy float pair runs) next tree) (n : Nat) :
    ∃ params next, DayTree.Sound params (MadeBy float pair (runs ++ [c])) next (c.leaves float pair tree n) := by
  have more : DayTree.Sound params (MadeBy float pair (runs ++ [c])) next tree :=
    sound.mono fun d rows ⟨run, mem, rest⟩ => ⟨run, List.mem_append_left _ mem, rest⟩
  unfold Command.leaves Command.apply
  cases checked : checkRunRecord tree c.params c.codeRef with
  | error e =>
    rw [refused_writes checked]
    exact ⟨params, next, by simpa using more⟩
  | ok u =>
    obtain ⟨begins, began, _⟩ := accepted_sound more checked
    obtain ⟨k, landed, _⟩ := produce_landed began checked
    have of_made : ∀ d rows, dayOf (tree.startOf c.since) ≤ d →
        (rows.map FillRow.post).Perm (onDay d (c.postsFrom float pair (tree.startOf c.since))) →
          MadeBy float pair (runs ++ [c]) d rows :=
      fun d rows later kept => ⟨c, List.mem_append_right _ (List.mem_singleton_self c), _, began, later, kept⟩
    obtain ⟨next', cut⟩ := (begins.landed c.codeRef landed of_made).2 n
    exact ⟨c.params, next', cut⟩

theorem sessions_sound (sessions : List (Command F Sample Bytes × Nat)) {runs : List (Command F Sample Bytes)}
    (sound : DayTree.Sound params (MadeBy float pair runs) next tree) :
    ∃ params next, DayTree.Sound params (MadeBy float pair (runs ++ sessions.map Prod.fst)) next
      (sessions.foldl (fun tree s => s.1.leaves float pair tree s.2) tree) := by
  induction sessions generalizing tree params next runs with
  | nil => exact ⟨params, next, by simpa using sound⟩
  | cons s sessions ih =>
    obtain ⟨params', next', after⟩ := session_sound (c := s.1) sound s.2
    obtain ⟨params'', next'', all⟩ := ih after
    refine ⟨params'', next'', ?_⟩
    rw [List.append_assoc, List.singleton_append] at all
    exact all

/- A run that completes. -/

theorem landed_order {posts : List (Post F)} {first : Int} {n : Nat} {writes : List (DayWrite F)}
    (landed : Landed params posts first n writes) :
    (writes.filter DayWrite.isEntry).map DayWrite.day = upFrom first n ∧
      ((writes.filter (!·.isEntry)).map DayWrite.day).Sublist (upFrom first n) := by
  obtain ⟨rows, entry, rfl, _⟩ := landed
  generalize upFrom first n = days
  induction days with
  | nil => simp
  | cons d days ih =>
    rw [List.flatMap_cons, List.filter_append, List.filter_append, List.map_append, List.map_append, ih.1]
    unfold writeDay
    by_cases none_ : (rows d).isEmpty = true
    · rw [if_pos none_]
      exact ⟨rfl, ih.2.cons d⟩
    · rw [if_neg none_]
      exact ⟨rfl, ih.2.cons_cons d⟩

/-- What a completed run leaves. -/
structure Complete (float : Decimal → F) (pair : String) (runs : List (Command F Sample Bytes))
    (c : Command F Sample Bytes) (tree left : DayTree F) : Prop where
  posted : ∀ q ∈ c.postsFrom float pair (tree.startOf c.since), dayOf (tree.startOf c.since) ≤ dayAt q.ts
  filed : ∀ d, dayOf (tree.startOf c.since) ≤ d → (((left.files.lookup d).getD []).map FillRow.post).Perm
    (onDay d (c.postsFrom float pair (tree.startOf c.since)))
  before : ∀ d, d < dayOf (tree.startOf c.since) → left.files.lookup d = tree.files.lookup d
  made : ∀ d rows, left.files.lookup d = some rows → MadeBy float pair (runs ++ [c]) d rows
  entries : ∀ record d entry, left.record = some record → record.days.lookup d = some entry →
    entry.counts.posts + entry.counts.skippedNoQuote + entry.counts.skippedStale = postsPerHour * entry.hours ∧
    entry.hours + entry.hoursUnanchored.length + entry.hoursAbsent.length = spanHours c.params d
  ascending : ((((c.produce float pair tree).1.filter DayWrite.isEntry).map DayWrite.day).Pairwise (· < ·)) ∧
    (((c.produce float pair tree).1.filter (!·.isEntry)).map DayWrite.day).Pairwise (· < ·)
  checked : left.files.entries.forM (checkFile left.record) = .ok () ∧
    ∀ record, left.record = some record → record.days.entries.forM (checkEntry left record.params) = .ok ()

/-- A completed run was not refused, and it left a day file. -/
theorem completed_ok {totals : Totals} (completed : (c.produce float pair tree).2 = .ok totals) :
    checkRunRecord tree c.params c.codeRef = .ok () ∧ c.GetsThrough float pair (tree.startOf c.since) ∧
      (c.apply tree (c.produce float pair tree).1).files.keys ≠ [] := by
  cases checked : checkRunRecord tree c.params c.codeRef with
  | error e =>
    rw [refused_writes checked] at completed
    cases completed
  | ok u =>
    refine ⟨rfl, ?_⟩
    unfold Command.produce producePair at completed ⊢
    unfold Command.params at checked
    simp only [checked] at completed ⊢
    split at completed
    · cases completed
    · rename_i written q ran
      refine ⟨⟨written, q, ran⟩, ?_⟩
      split at completed
      · cases completed
      · rename_i some_files
        rw [if_neg some_files]
        intro none_
        refine some_files (List.isEmpty_iff.mpr ?_)
        exact List.map_eq_nil_iff.mp none_

theorem complete (sessions : List (Command F Sample Bytes × Nat)) (c : Command F Sample Bytes) {totals : Totals}
    (completed : (c.produce float pair (treeAfter float pair sessions)).2 = .ok totals) :
    Complete float pair (sessions.map Prod.fst) c (treeAfter float pair sessions)
      (c.apply (treeAfter float pair sessions) (c.produce float pair (treeAfter float pair sessions)).1) := by
  obtain ⟨accepted, through, some_files⟩ := completed_ok completed
  obtain ⟨params, next, sound⟩ := sessions_sound sessions
    (DayTree.empty_sound c.params (MadeBy float pair []) 0)
  rw [List.nil_append] at sound
  rw [show sessions.foldl (fun tree s => s.1.leaves float pair tree s.2) (DayTree.empty F) =
    treeAfter float pair sessions from rfl] at sound
  generalize treeAfter float pair sessions = tree at *
  have more : DayTree.Sound params (MadeBy float pair (sessions.map Prod.fst ++ [c])) next tree :=
    sound.mono fun d rows ⟨run, mem, rest⟩ => ⟨run, List.mem_append_left _ mem, rest⟩
  obtain ⟨begins, began, at_midnight⟩ := accepted_sound more accepted
  obtain ⟨n, landed, all⟩ := produce_landed began accepted
  obtain ⟨of_n, posted⟩ := all through
  obtain ⟨order, order_files⟩ := landed_order landed
  have of_made : ∀ d rows, dayOf (tree.startOf c.since) ≤ d →
      (rows.map FillRow.post).Perm (onDay d (c.postsFrom float pair (tree.startOf c.since))) →
        MadeBy float pair (sessions.map Prod.fst ++ [c]) d rows :=
    fun d rows later kept => ⟨c, List.mem_append_right _ (List.mem_singleton_self c), _, began, later, kept⟩
  obtain ⟨after, _⟩ := begins.landed c.codeRef landed of_made
  unfold Command.apply at some_files ⊢
  -- every day of the span has been landed
  have ended : ∀ d, midnight d < c.params.till → d < dayOf (tree.startOf c.since) + n := by
    intro d before
    have till : c.params.till = c.till := rfl
    rw [till] at before
    by_cases some_hours : tree.startOf c.since < c.till
    · rw [of_n]
      unfold daysIn dayOf midnight at *
      rw [if_neg (by omega)]
      omega
    · have none_ : n = 0 := by
        rw [of_n]
        unfold daysIn
        rw [if_pos (by omega)]
      have nothing : (c.produce float pair tree).1 = [] := by
        obtain ⟨_, _, same, _⟩ := landed
        rw [same, none_]
        rfl
      rw [nothing] at some_files
      obtain ⟨day, start⟩ := at_midnight some_files
      rw [start] at some_hours ⊢
      unfold dayOf midnight at *
      omega
  obtain ⟨files_ok, entries_ok⟩ := after.checks ended
  refine ⟨?_, ?_, ?_, ?_, ?_, ?_, files_ok, entries_ok⟩
  · exact fun q mem => (mem_upFrom.mp (posted q mem)).1
  · intro d later
    obtain ⟨rows, entry, same, whole⟩ := landed
    rw [same, DayTree.landed_files]
    by_cases inside : d ∈ upFrom (dayOf (tree.startOf c.since)) n
    · have kept := (whole d inside).kept
      by_cases none_ : rows d = []
      · have absent : tree.files.lookup d = none := by
          cases found : tree.files.lookup d with
          | none => rfl
          | some old =>
            have := (begins.files d old found).1
            omega
        rw [none_] at kept
        simpa [none_, absent] using kept
      · simpa [inside, none_] using kept
    · have absent : tree.files.lookup d = none := by
        cases found : tree.files.lookup d with
        | none => rfl
        | some old =>
          have := (begins.files d old found).1
          omega
      have none_posted : onDay d (c.postsFrom float pair (tree.startOf c.since)) = [] := by
        refine List.filter_eq_nil_iff.mpr fun q mem => ?_
        simp only [decide_eq_true_eq]
        intro same
        exact inside (same ▸ posted q mem)
      simp [inside, absent, none_posted]
  · intro d earlier
    obtain ⟨rows, entry, same, _⟩ := landed
    have outside : d ∉ upFrom (dayOf (tree.startOf c.since)) n := by
      rw [mem_upFrom]
      omega
    rw [same, DayTree.landed_files]
    simp [outside]
  · exact fun d rows found => (after.files d rows found).2.1
  · intro record d entry of_record of_days
    obtain ⟨⟨⟨_, balanced⟩, _, _⟩, _⟩ := after.entries record d entry of_record of_days
    exact ⟨balanced.total, balanced.hours⟩
  · refine ⟨?_, (upFrom_pairwise _ _).sublist order_files⟩
    rw [order]
    exact upFrom_pairwise _ _

/-- Left by runs of which the last completed. -/
def LeftComplete (Sample Bytes : Type) (float : Decimal → F) (pair : String) (left : DayTree F) : Prop :=
  ∃ (sessions : List (Command F Sample Bytes × Nat)) (c : Command F Sample Bytes) (totals : Totals),
    (c.produce float pair (treeAfter float pair sessions)).2 = .ok totals ∧
      left = c.apply (treeAfter float pair sessions) (c.produce float pair (treeAfter float pair sessions)).1

/-- After any sessions, each killed at any write, a run that completes files every order it posts once and
    under its day, and the checks pass over any pairs so left. -/
theorem posts_conserved (Sample Bytes : Type) (float : Decimal → F) :
    (∀ (pair : String) (sessions : List (Command F Sample Bytes × Nat)) (c : Command F Sample Bytes) (totals : Totals),
      (c.produce float pair (treeAfter float pair sessions)).2 = .ok totals →
        Complete float pair (sessions.map Prod.fst) c (treeAfter float pair sessions)
          (c.apply (treeAfter float pair sessions) (c.produce float pair (treeAfter float pair sessions)).1)) ∧
    ∀ trees : List (String × DayTree F), (∀ item ∈ trees, LeftComplete Sample Bytes float item.1 item.2) →
      checkFills (trees.map Prod.snd) = .ok () := by
  refine ⟨fun pair sessions c totals completed => complete sessions c completed, ?_⟩
  intro trees left
  have checked : ∀ tree ∈ trees.map Prod.snd, tree.files.entries.forM (checkFile tree.record) = .ok () ∧
      ∀ record, tree.record = some record → record.days.entries.forM (checkEntry tree record.params) = .ok () := by
    intro tree mem
    obtain ⟨item, of_trees, rfl⟩ := List.mem_map.mp mem
    obtain ⟨sessions, c, totals, completed, same⟩ := left item of_trees
    rw [same]
    exact (complete sessions c completed).checked
  unfold checkFills
  refine Fallible.then_ok.mpr ⟨Fallible.forM_ok.mpr fun tree mem => (checked tree mem).1, ?_⟩
  refine Fallible.forM_ok.mpr fun tree mem => ?_
  cases held : tree.record with
  | none => rfl
  | some record => exact (checked tree mem).2 record held

/-- A run that gets through its hours and has posted completes. -/
theorem completes (began : Began c.since (tree.startOf c.since))
    (accepted : checkRunRecord tree c.params c.codeRef = .ok ())
    (through : c.GetsThrough float pair (tree.startOf c.since))
    (some_posts : c.postsFrom float pair (tree.startOf c.since) ≠ []) :
    ∃ totals, (c.produce float pair tree).2 = .ok totals := by
  obtain ⟨n, ⟨rows, entry, same, whole⟩, all⟩ := produce_landed began accepted
  obtain ⟨_, posted⟩ := all through
  obtain ⟨q, of_posts⟩ := List.exists_mem_of_ne_nil _ some_posts
  have inside := posted q of_posts
  have on_day : q ∈ onDay (dayAt q.ts) (c.postsFrom float pair (tree.startOf c.since)) :=
    List.mem_filter.mpr ⟨of_posts, by simp⟩
  have some_rows : rows (dayAt q.ts) ≠ [] := by
    intro none_
    have row := (whole _ inside).kept.mem_iff.mpr on_day
    rw [none_] at row
    cases row
  have found : ((c.produce float pair tree).1.foldl (DayTree.write c.params c.codeRef) tree).files.lookup (dayAt q.ts) =
      if dayAt q.ts ∈ upFrom (dayOf (tree.startOf c.since)) n ∧ rows (dayAt q.ts) ≠ [] then some (rows (dayAt q.ts))
      else tree.files.lookup (dayAt q.ts) := by
    rw [same]
    exact DayTree.landed_files rows entry (dayAt q.ts)
  rw [if_pos ⟨inside, some_rows⟩] at found
  obtain ⟨written, p, ran⟩ := through
  unfold Command.produce producePair at found ⊢
  unfold Command.params at accepted found
  simp only [accepted, ran] at found ⊢
  split
  · rename_i no_files
    rw [if_pos no_files] at found
    have empty : ((written ++ p.finish float).foldl
        (DayTree.write (RunParams.of c.sampler.depth c.since c.till) c.codeRef) tree).files = ∅ :=
      AList.ext (List.isEmpty_iff.mp no_files)
    rw [empty, AList.lookup_empty] at found
    cases found
  · exact ⟨_, rfl⟩

end

/- An hour whose book is empty until its last half minute. -/

section
variable {F : Type} [Zero F] [NatCast F] [Add F] [Sub F] [Mul F] [Div F] [Max F] [Min F] [LE F] [DecidableLE F]
  [DecidableEq F] {float : Decimal → F} {pair : String} {hour : Int}

def emptyHour (F : Type) (skipped : Nat) : Hour F := ⟨⟨100, [], []⟩, none, [], [], [], ⟨0, skipped, 0⟩, .number 0⟩

theorem second_empty (boundary : Int) (onGrid : Bool) (skipped : Nat) :
    (emptyHour F skipped).second float pair boundary onGrid [] [] =
      .ok (emptyHour F (skipped + if onGrid then ordersPerPost else 0)) := by
  cases onGrid <;> rfl

theorem seconds_empty {messages : List Message} (ks later : List Nat) (skipped : Nat)
    (before : ∀ k ∈ ks, ∀ m ∈ messages.head?, boundaryOf hour k < m.ts) :
    Hour.seconds float pair hour (ks ++ later) (emptyHour F skipped) messages [] =
      Hour.seconds float pair hour later (emptyHour F (skipped + ordersPerPost * gridSeconds ks)) messages [] := by
  induction ks generalizing skipped with
  | nil => rfl
  | cons k ks ih =>
    obtain ⟨here, rest⟩ := List.forall_mem_cons.mp before
    have taken : messages.takeWhile (·.ts ≤ boundaryOf hour k) = [] ∧
        messages.dropWhile (·.ts ≤ boundaryOf hour k) = messages := by
      cases messages with
      | nil => exact ⟨rfl, rfl⟩
      | cons m messages =>
        have after := here m rfl
        constructor
        · rw [List.takeWhile_cons_of_neg (by simpa using after)]
        · rw [List.dropWhile_cons_of_neg (by simpa using after)]
    rw [List.cons_append, Hour.seconds]
    simp only [taken.1, taken.2, List.takeWhile_nil, List.dropWhile_nil, second_empty]
    have counted : skipped + ordersPerPost * gridSeconds (k :: ks) =
        (skipped + if (k % gridS = 0 : Bool) then ordersPerPost else 0) + ordersPerPost * gridSeconds ks := by
      unfold gridSeconds
      rw [List.countP_cons, Nat.mul_add]
      split <;> omega
    rw [counted, ← ih _ rest]
    rfl

end

/- One hour, absent from the panel and with no trades, whose book comes in its last half minute: four orders
   are posted, and they are carried where the data ends. -/

def lateQuotes : List Row :=
  [⟨3570500000, "BTC/EUR", "snapshot", none, "bid", some (.finite false 100 0), some (.finite false 1 0)⟩,
    ⟨3570500000, "BTC/EUR", "snapshot", none, "ask", some (.finite false 102 0), some (.finite false 1 0)⟩]

def lateRun : Command ℚ Unit Unit :=
  ⟨⟨fun _ _ _ _ _ => .ok none, fun _ => (), fun _ => "digest", 100⟩,
    ⟨fun hour => if hour = 0 then some ⟨false, lateQuotes⟩ else none, fun _ => none, []⟩, "code", 0, 1⟩

theorem lateQuotes_posted : ∃ h, runHour exact (regroupMessages lateQuotes) [] ⟨100, [], []⟩ 0 "BTC/EUR" [] none = .ok h ∧
    h.orders ≠ [] := by
  have whole : secondsPerHour = 3571 + 29 := by decide
  have before : ∀ k ∈ List.range 3571, ∀ m ∈ (regroupMessages lateQuotes).head?, boundaryOf 0 k < m.ts := by
    intro k mem m head
    have inside := List.mem_range.mp mem
    injection head with same
    rw [← same]
    unfold boundaryOf startOf
    simp only
    omega
  have ended : ((Hour.seconds exact "BTC/EUR" 0 ((List.range 29).map (3571 + ·)) (emptyHour ℚ (4 * 239))
      (regroupMessages lateQuotes) [] >>= fun out => out.1.rest out.2.1 out.2.2).toOption.map
        fun h => h.orders.isEmpty) = some false := by decide +kernel
  have grid : 0 + ordersPerPost * gridSeconds (List.range 3571) = 4 * 239 := by decide +kernel
  have ran : runHour exact (regroupMessages lateQuotes) [] ⟨100, [], []⟩ 0 "BTC/EUR" [] none =
      (Hour.seconds exact "BTC/EUR" 0 ((List.range 29).map (3571 + ·)) (emptyHour ℚ (4 * 239))
        (regroupMessages lateQuotes) [] >>= fun out => out.1.rest out.2.1 out.2.2) := by
    unfold runHour
    rw [whole, List.range_add, ← grid, ← seconds_empty _ _ 0 before]
    rfl
  rw [ran]
  cases out : (Hour.seconds exact "BTC/EUR" 0 ((List.range 29).map (3571 + ·)) (emptyHour ℚ (4 * 239))
      (regroupMessages lateQuotes) [] >>= fun out => out.1.rest out.2.1 out.2.2) with
  | error e =>
    rw [out] at ended
    cases ended
  | ok h =>
    rw [out] at ended
    refine ⟨h, rfl, fun none_ => ?_⟩
    simp [Except.toOption, none_] at ended

theorem lateRun_posted : lateRun.GetsThrough exact "BTC/EUR" 0 ∧ lateRun.postsFrom exact "BTC/EUR" 0 ≠ [] := by
  obtain ⟨h, ran, some_orders⟩ := lateQuotes_posted
  have opened : opening lateRun.sampler lateRun.source (Progress.start ℚ) 0 =
      .ok (.anchored (regroupMessages lateQuotes) [] ⟨100, [], []⟩ none) := rfl
  have simulated : simulateHour exact (regroupMessages lateQuotes) [] ⟨100, [], []⟩ 0 "BTC/EUR" [] none =
      .ok ⟨h.rows, h.carried, h.book, h.lastMsgTs, h.counts⟩ := Fallible.bind_ok.mpr ⟨h, ran, rfl⟩
  obtain ⟨q, hour⟩ : ∃ q, (Progress.start ℚ).hour lateRun.sampler exact lateRun.source "BTC/EUR" 0 = .ok q := by
    unfold Progress.hour
    simp only [opening_same, opened]
    exact ⟨_, Fallible.bind_ok.mpr ⟨_, rfl, Fallible.bind_ok.mpr ⟨_, simulated, rfl⟩⟩⟩
  have span : hoursTo 0 lateRun.till = [0] := rfl
  have posts : (Progress.start ℚ).postsOf lateRun.sampler exact lateRun.source "BTC/EUR" 0 =
      h.orders.map Order.toPost := by
    unfold Progress.postsOf
    rw [opened]
    simp only
    unfold hourPosts
    rw [show (Progress.start ℚ).carried = [] from rfl, ran]
    rfl
  constructor
  · unfold Command.GetsThrough
    rw [span]
    unfold Progress.hours
    rw [hour]
    exact ⟨_, _, rfl⟩
  · unfold Command.postsFrom
    rw [span]
    unfold Progress.postsOver
    rw [hour]
    simp only [posts]
    intro none_
    exact some_orders (List.map_eq_nil_iff.mp (List.append_eq_nil_iff.mp none_).1)

theorem lateRun_completed : ∃ totals, (lateRun.produce exact "BTC/EUR" (DayTree.empty ℚ)).2 = .ok totals := by
  have start : (DayTree.empty ℚ).startOf lateRun.since = 0 := rfl
  have began : Began lateRun.since ((DayTree.empty ℚ).startOf lateRun.since) := Or.inl start
  have accepted : checkRunRecord (DayTree.empty ℚ) lateRun.params lateRun.codeRef = .ok () := rfl
  have through : lateRun.GetsThrough exact "BTC/EUR" ((DayTree.empty ℚ).startOf lateRun.since) := by
    rw [start]
    exact lateRun_posted.1
  have some_posts : lateRun.postsFrom exact "BTC/EUR" ((DayTree.empty ℚ).startOf lateRun.since) ≠ [] := by
    rw [start]
    exact lateRun_posted.2
  exact completes began accepted through some_posts

theorem lateRun_conserved :
    ∃ left : DayTree ℚ, Complete exact "BTC/EUR" [lateRun] lateRun (treeAfter exact "BTC/EUR" [(lateRun, 0)]) left ∧
      checkFills [left] = .ok () := by
  have fresh : treeAfter exact "BTC/EUR" [(lateRun, 0)] = DayTree.empty ℚ := rfl
  have completed : ∃ totals, (lateRun.produce exact "BTC/EUR" (treeAfter exact "BTC/EUR" [(lateRun, 0)])).2 = .ok totals := by
    rw [fresh]
    exact lateRun_completed
  obtain ⟨totals, completed⟩ := completed
  obtain ⟨each, all⟩ := posts_conserved Unit Unit exact
  have conserved := each "BTC/EUR" [(lateRun, 0)] lateRun totals completed
  generalize left : lateRun.apply (treeAfter exact "BTC/EUR" [(lateRun, 0)])
    (lateRun.produce exact "BTC/EUR" (treeAfter exact "BTC/EUR" [(lateRun, 0)])).1 = tree at conserved
  have of_run : LeftComplete Unit Unit exact "BTC/EUR" tree := ⟨[(lateRun, 0)], lateRun, totals, completed, left.symm⟩
  exact ⟨tree, conserved, all [("BTC/EUR", tree)] (List.forall_mem_singleton.mpr of_run)⟩

end Panel
