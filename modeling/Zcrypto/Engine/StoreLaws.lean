import Mathlib.Data.List.Dedup
import Zcrypto.Engine.Store
import Zcrypto.Fallible

/- What a refresh and a seed make of the store: the union with the finished rows of the answer,
   nothing twice, and nothing at a refusal. -/
namespace Stores
open Keyed Fallible

section
variable {w : World} {now : Int} {leg : Leg} {file : File} {s r left right : List Bar} {a b : Bar}

theorem mem_mapM {α β : Type} {f : α → Option β} {l : List α} {m : List β} (h : l.mapM f = some m)
    {b : β} : b ∈ m ↔ ∃ a ∈ l, f a = some b := by
  induction l generalizing m with
  | nil =>
    simp only [List.mapM_nil, Option.pure_def, Option.some.injEq] at h
    simp [← h]
  | cons a l ih =>
    simp only [List.mapM_cons, Option.pure_def, Option.bind_eq_bind, Option.bind_eq_some_iff,
      Option.some.injEq] at h
    obtain ⟨first, head, tail, later, rfl⟩ := h
    simp [ih later, head, eq_comm]

theorem stamp_eq : a.stamp = b.stamp ↔ a.ts = b.ts := by
  unfold Bar.stamp
  cases a.ts <;> cases b.ts <;> simp

-- frames

theorem nUnique_iff {rows : List Bar} :
    nUnique rows = rows.length ↔ Distinct Bar.stamp rows := by
  have apart : Distinct Bar.stamp rows ↔ (rows.map Bar.ts).Nodup := by
    unfold Distinct List.Nodup
    rw [List.pairwise_map, List.pairwise_map]
    simp only [ne_eq, stamp_eq]
  rw [apart, nUnique]
  constructor
  · intro same
    apply List.dedup_eq_self.mp
    apply (List.dedup_sublist _).eq_of_length
    rw [same, List.length_map]
  · intro nodup
    rw [List.dedup_eq_self.mpr nodup, List.length_map]

/-- What the store readers are owed of a frame's rows. -/
structure Stamped (rows : List Bar) : Prop where
  present : ∀ b ∈ rows, b.ts.isSome = true
  distinct : Distinct Bar.stamp rows

theorem frameDifferences_nil {f : Frame} {interval : Nat} (none : frameDifferences f interval = []) :
    Stamped f.rows := by
  unfold frameDifferences at none
  simp only at none
  split at none
  · contradiction
  split at none
  · cases none
  split at none
  · cases none
  split at none
  · cases none
  rename_i nulls
  split at none
  · cases none
  rename_i repeated
  constructor
  · intro b mem
    have kept := List.filter_eq_nil_iff.mp (not_not.mp nulls) b mem
    simpa [Option.isSome_iff_ne_none] using kept
  · exact nUnique_iff.mp (not_not.mp repeated)

theorem requireStoreFrame_ok {source : Source} {f : Frame} {interval : Nat}
    (ok : requireStoreFrame source f interval = .ok ()) : Stamped f.rows := by
  unfold requireStoreFrame at ok
  simp only at ok
  split at ok
  · cases ok
  rename_i none
  exact frameDifferences_nil (not_not.mp none)

theorem requireRestFrame_ok {rows : List Bar} {interval : Nat}
    (ok : requireRestFrame rows interval = .ok ()) : Stamped rows := by
  unfold requireRestFrame at ok
  split at ok
  · rename_i empty
    subst empty
    constructor
    · simp
    · exact List.nodup_nil
  · exact requireStoreFrame_ok ok

theorem storeFrame_ok {fnName : String} {f : Frame} (ok : storeFrame fnName leg file = .ok f) :
    file = .frame f ∧ Stamped f.rows := by
  simp only [storeFrame, refused, bind_ok, mapError_ok] at ok
  obtain ⟨g, reads, ⟨⟩, required, same⟩ := ok
  cases same
  constructor
  · cases file <;> cases reads
    rfl
  · exact requireStoreFrame_ok required

/-- The rows of an answer that have finished by `now`. -/
structure Finished (w : World) (now : Int) (leg : Leg) (rows : List Bar) : Prop extends
    Stamped rows where
  answered : ∃ candles, w.fetch leg = some candles
  rows : ∀ candles, w.fetch leg = some candles → ∀ b, b ∈ rows ↔
    ∃ c ∈ candles, c.cast = some b ∧ completed leg.2 now b = true

theorem mem_toFrame {candles : List Candle} {rows : List Bar} (ok : toFrame candles = .ok rows) :
    b ∈ rows ↔ ∃ c ∈ candles, c.cast = some b := by
  unfold toFrame at ok
  split at ok
  · cases ok
  rename_i raw cast
  split at ok
  · cases ok
  simp only at ok
  split at ok
  · cases ok
  cases ok
  rw [List.mem_eraseDups, mem_arrange]
  exact mem_mapM cast

theorem finished_ok {fnName : String} (ok : finished w fnName now leg = .ok r) :
    Finished w now leg r := by
  simp only [finished, refused, bind_ok, mapError_ok] at ok
  obtain ⟨candles, fetched, frame, framed, ⟨⟩, required, same⟩ := ok
  cases same
  have answer : w.fetch leg = some candles := by
    cases h : w.fetch leg with
    | none =>
      rw [h] at fetched
      cases fetched
    | some found =>
      rw [h] at fetched
      cases fetched
      rfl
  refine ⟨requireRestFrame_ok required, ⟨candles, answer⟩, ?_⟩
  intro found fetched b
  cases answer.symm.trans fetched
  simp only [dropInProgress, List.mem_filter, mem_toFrame framed]
  constructor
  · rintro ⟨⟨c, mem, cast⟩, done⟩
    exact ⟨c, mem, cast, done⟩
  · rintro ⟨c, mem, cast, done⟩
    exact ⟨⟨c, mem, cast⟩, done⟩

/-- Another moment, and another world that answers the same, at which no more rows have finished. -/
structure SameAnswer (w : World) (now : Int) (later : World) (then_ : Int) : Prop where
  fetch : ∀ leg, later.fetch leg = w.fetch leg
  completed : ∀ leg candles, w.fetch leg = some candles → ∀ c ∈ candles, ∀ b, c.cast = some b →
    completed leg.2 then_ b = completed leg.2 now b

theorem finished_same {fnName : String} {later : World} {then_ : Int}
    (same : SameAnswer w now later then_) :
    finished later fnName then_ leg = finished w fnName now leg := by
  unfold finished
  rw [same.fetch leg]
  cases answer : w.fetch leg with
  | none => rfl
  | some candles =>
    cases framed : toFrame candles with
    | error e => simp only [Option.elim_some, bind, Except.bind, framed, Except.mapError]
    | ok frame =>
      have drops : dropInProgress frame leg.2 then_ = dropInProgress frame leg.2 now := by
        apply List.filter_congr
        intro b mem
        obtain ⟨c, member, cast⟩ := (mem_toFrame framed).mp mem
        exact same.completed leg candles answer c member b cast
      simp only [Option.elim_some, bind, Except.bind, framed, Except.mapError, drops]

/-- Whose name a refusal carries does not matter to what is finished. -/
theorem finished_name {fnName other : String} (ok : finished w fnName now leg = .ok r) :
    finished w other now leg = .ok r := by
  simp only [finished, refused, bind_ok, mapError_ok] at ok ⊢
  exact ok

-- the seam

theorem mem_shared : (a, b) ∈ shared left right ↔
    a ∈ left ∧ b ∈ right ∧ a.ts.isSome = true ∧ a.ts = b.ts := by
  simp only [shared, List.mem_flatMap, List.mem_map, List.mem_filter, Bool.and_eq_true,
    decide_eq_true_eq]
  constructor
  · rintro ⟨_, old, _, ⟨new, present, same⟩, pair⟩
    cases pair
    exact ⟨old, new, present, same⟩
  · rintro ⟨old, new, present, same⟩
    exact ⟨a, old, b, ⟨new, present, same⟩, rfl⟩

/-- Where no close is absent, the mismatches are the shared rows whose closes differ. -/
theorem mem_mismatches (priced : ((shared s r).filter disagrees).filter isAbsent = []) :
    (a, b) ∈ (shared s r).filter disagrees ↔ (a, b) ∈ shared s r ∧ a.close ≠ b.close := by
  rw [List.mem_filter]
  constructor
  · rintro ⟨mem, differs⟩
    have kept := List.filter_eq_nil_iff.mp priced (a, b) (List.mem_filter.mpr ⟨mem, differs⟩)
    have both : a.close ≠ b.close ∨ isAbsent (a, b) = true := by
      simpa [disagrees, isAbsent, or_assoc] using differs
    exact ⟨mem, both.resolve_right kept⟩
  · rintro ⟨mem, differs⟩
    exact ⟨mem, by simp [disagrees, differs]⟩

/-- What a reconciled seam merges. The stamps it takes from the answer are those at which the
    closes differ. -/
structure Seam (s r : List Bar) (x : Reconciled) (taken : WithBot Int → Bool) : Prop where
  merged : x.merged = overlay Bar.stamp taken s r
  count : x.replacedTailRows = 0 ↔ taken = fun _ => false
  takes : ∀ k, taken k = true ↔ ∃ a b, (a, b) ∈ shared s r ∧ a.close ≠ b.close ∧ a.stamp = k

theorem reconcile_ok {least : Nat} {allow : Bool} {x : Reconciled}
    (ok : reconcile s r least allow = .ok x) :
    ∃ taken, Seam s r x taken ∧ (allow = false → taken = fun _ => false) ∧
      ((shared s r).filter disagrees).filter isAbsent = [] := by
  unfold reconcile seamOverlap at ok
  simp only at ok
  split at ok
  · cases ok
  split at ok
  · cases ok
  rename_i priced
  replace priced := not_not.mp priced
  split at ok
  · cases ok
  rename_i allowed
  cases ok
  refine ⟨_, ⟨rfl, ?_, ?_⟩, ?_, priced⟩
  · rw [List.length_eq_zero_iff]
    constructor
    · intro empty
      rw [empty]
      rfl
    · intro never
      apply List.eq_nil_iff_forall_not_mem.mpr
      intro k mem
      have held := congrFun never k
      rw [List.contains_iff_mem.mpr mem] at held
      cases held
  · intro k
    simp only [List.contains_iff_mem, List.mem_dedup, List.mem_map, Prod.exists,
      mem_mismatches priced, and_assoc]
  · intro strict
    subst strict
    cases differing : (shared s r).filter disagrees with
    | nil => rfl
    | cons p rest => exact (allowed p rest differing rfl).elim

/-- The frame has a row at each of the answer's stamps, and the answer's close there. -/
structure Covers (m r : List Bar) : Prop where
  held : ∀ b ∈ r, holds Bar.stamp m b.stamp = true
  agrees : ∀ a ∈ m, ∀ b ∈ r, a.ts = b.ts → a.close = b.close

theorem Seam.covers {x : Reconciled} {taken : WithBot Int → Bool} (seam : Seam s r x taken)
    (old : Stamped s) (new : Stamped r) : Covers x.merged r := by
  rw [seam.merged]
  constructor
  · intro b mem
    rw [holds_iff]
    by_cases there : ∃ a ∈ s, a.stamp = b.stamp
    · obtain ⟨a, ha, same⟩ := there
      cases took : taken a.stamp with
      | true => exact ⟨b, mem_overlay.mpr (Or.inr (Or.inl ⟨mem, same ▸ took⟩)), rfl⟩
      | false => exact ⟨a, mem_overlay.mpr (Or.inl ⟨ha, took⟩), same⟩
    · simp only [not_exists, not_and] at there
      exact ⟨b, mem_overlay.mpr (Or.inr (Or.inr ⟨mem, there⟩)), rfl⟩
  · intro a ha b hb same
    rcases mem_overlay.mp ha with ⟨mem, kept⟩ | ⟨mem, -⟩ | ⟨mem, -⟩
    · by_contra differs
      have among : (a, b) ∈ shared s r := mem_shared.mpr ⟨mem, hb, old.present a mem, same⟩
      rw [(seam.takes a.stamp).mpr ⟨a, b, among, differs, rfl⟩] at kept
      cases kept
    all_goals rw [new.distinct.same mem hb (stamp_eq.mpr same)]

/-- A covering frame takes nothing more from the answer. -/
theorem Covers.reconciled {least : Nat} {allow : Bool} {x : Reconciled} (covers : Covers s r)
    (ok : reconcile s r least allow = .ok x) :
    x.replacedTailRows = 0 ∧ x.merged.length = s.length := by
  obtain ⟨taken, seam, -, -⟩ := reconcile_ok ok
  have never : taken = fun _ => false := by
    funext k
    cases took : taken k with
    | false => rfl
    | true =>
      obtain ⟨a, b, among, differs, -⟩ := (seam.takes k).mp took
      obtain ⟨ha, hb, -, same⟩ := mem_shared.mp among
      exact absurd (covers.agrees a ha b hb same) differs
  subst never
  constructor
  · exact seam.count.mpr rfl
  · rw [seam.merged]
    exact length_overlay_covered covers.held

/-- A seam that took and added nothing was covered already. -/
theorem Seam.covered {x : Reconciled} {taken : WithBot Int → Bool} (seam : Seam s r x taken)
    (old : Stamped s) (none : x.replacedTailRows = 0) (same : x.merged.length = s.length) :
    Covers s r := by
  have never := seam.count.mp none
  constructor
  · apply covered_of_length
    rw [← never, ← seam.merged, same]
  · intro a ha b hb equal
    by_contra differs
    have among : (a, b) ∈ shared s r := mem_shared.mpr ⟨ha, hb, old.present a ha, equal⟩
    have took := (seam.takes a.stamp).mpr ⟨a, b, among, differs, rfl⟩
    rw [never] at took
    cases took

-- one leg

/-- The row an answer adds to a frame: finished, at a stamp the frame has not. -/
def Adds (w : World) (now : Int) (leg : Leg) (old : Frame) (b : Bar) : Prop :=
  ∃ candles, w.fetch leg = some candles ∧ (∃ c ∈ candles, c.cast = some b) ∧
    completed leg.2 now b = true ∧ ∀ o ∈ old.rows, o.ts ≠ b.ts

/-- What a refresh makes of a leg's file. -/
structure Merged (w : World) (now : Int) (leg : Leg) (old new : Frame) : Prop where
  ascending : Ascending Bar.stamp new.rows
  present : ∀ b ∈ new.rows, b.ts.isSome = true
  union : ∀ b, b ∈ new.rows ↔ b ∈ old.rows ∨ Adds w now leg old b

/-- The leg's file is covered by the finished rows, wherever it is a frame and the answer one. -/
def Settled (w : World) (now : Int) (leg : Leg) (file : File) : Prop :=
  ∀ f r, file = .frame f → finished w "refresh_store" now leg = .ok r → Covers f.rows r

theorem writeParquet_cases (w : World) (leg : Leg) (f : Frame) :
    writeParquet w leg f = (.frame f, .ok ()) ∨
    ∃ left, writeParquet w leg f = (left, .error (.write leg)) := by
  unfold writeParquet
  cases w.write leg f with
  | none => exact Or.inl rfl
  | some left => exact Or.inr ⟨left, rfl⟩

theorem refreshReconciled_ok {f : Frame} {x : Reconciled}
    (ok : refreshReconciled w now leg file = .ok (f, x)) :
    file = .frame f ∧ Stamped f.rows ∧ ∃ r, finished w "refresh_store" now leg = .ok r ∧
      reconcile f.rows r refreshMinOverlap false = .ok x := by
  simp only [refreshReconciled, refused, bind_ok, mapError_ok] at ok
  obtain ⟨g, stored, r, answered, y, reconciled, same⟩ := ok
  cases same
  obtain ⟨file_eq, stamped⟩ := storeFrame_ok stored
  exact ⟨file_eq, stamped, r, answered, reconciled⟩

/-- A leg of a refresh: refused with its file as it was, or merged, or its write raised. -/
theorem refreshLeg_cases (w : World) (now : Int) (leg : Leg) (file : File) :
    (∃ e, refreshLeg w now leg file = (file, .error e)) ∨
    (∃ left, refreshLeg w now leg file = (left, .error (.write leg))) ∨
    ∃ entry f r x g, refreshLeg w now leg file = (.frame g, .ok entry) ∧ file = .frame f ∧
      Stamped f.rows ∧ finished w "refresh_store" now leg = .ok r ∧
      Seam f.rows r x (fun _ => false) ∧
      (g.rows = x.merged ∨ g = f ∧ x.merged.length = f.rows.length) := by
  unfold refreshLeg
  split
  · rename_i e _
    exact Or.inl ⟨e, rfl⟩
  rename_i f x ok
  obtain ⟨file_eq, stamped, r, answered, reconciled⟩ := refreshReconciled_ok ok
  obtain ⟨taken, seam, strict, -⟩ := reconcile_ok reconciled
  rw [strict rfl] at seam
  simp only
  split
  · rcases writeParquet_cases w leg ⟨frameSchema, x.merged⟩ with
      wrote | ⟨left, wrote⟩
    · rw [wrote]
      exact Or.inr (Or.inr ⟨_, f, r, x, _, rfl, file_eq, stamped, answered, seam, Or.inl rfl⟩)
    · rw [wrote]
      exact Or.inr (Or.inl ⟨left, rfl⟩)
  · rename_i none
    have same : x.merged.length = f.rows.length := by omega
    subst file_eq
    exact Or.inr (Or.inr ⟨_, f, r, x, f, rfl, rfl, stamped, answered, seam, Or.inr ⟨rfl, same⟩⟩)

theorem seedReconciled_ok {existed : Bool} {f : Frame} {x : Reconciled}
    (ok : seedReconciled leg file r existed = .ok (f, x)) :
    file = .frame f ∧ Stamped f.rows ∧ reconcile f.rows r minSeamOverlap existed = .ok x := by
  simp only [seedReconciled, refused, bind_ok, mapError_ok] at ok
  obtain ⟨g, stored, y, reconciled, same⟩ := ok
  cases same
  obtain ⟨file_eq, stamped⟩ := storeFrame_ok stored
  exact ⟨file_eq, stamped, reconciled⟩

/-- What a seed lays the answer over: the file that is there, or the canonical's copy. -/
theorem seeded_cases (w : World) (leg : Leg) (file : File) :
    (∃ e, seeded w leg file = (file, .error e)) ∨
    (∃ left, seeded w leg file = (left, .error (.write leg))) ∨
    (file = .absent ∧ seeded w leg file = (w.canonical leg, .ok ())) ∨
    seeded w leg file = (file, .ok ()) := by
  unfold seeded
  split
  · rename_i none
    split
    · rename_i e _
      exact Or.inl ⟨e, rfl⟩
    · rename_i f ok
      simp only [refused, bind_ok, mapError_ok] at ok
      obtain ⟨g, reads, ⟨⟩, -, same⟩ := ok
      cases same
      have copied : w.canonical leg = .frame f := by
        cases found : w.canonical leg with
        | frame g =>
          rw [found] at reads
          cases reads
          rfl
        | absent | unreadable =>
          rw [found] at reads
          cases reads
      rcases writeParquet_cases w leg f with wrote | torn
      · rw [wrote, copied]
        exact Or.inr (Or.inr (Or.inl ⟨none, rfl⟩))
      · exact Or.inr (Or.inl torn)
  · exact Or.inr (Or.inr (Or.inr rfl))

theorem refreshLeg_merges {left : File} {entry : RefreshEntry}
    (ok : refreshLeg w now leg file = (left, .ok entry))
    (ascending : ∀ f, file = .frame f → Ascending Bar.stamp f.rows) :
    ∃ f g, file = .frame f ∧ left = .frame g ∧ Merged w now leg f g := by
  rcases refreshLeg_cases w now leg file with
    ⟨e, refusal⟩ | ⟨_, torn⟩ | ⟨_, f, r, x, g, through, rfl, stamped, answered, seam, came⟩
  · rw [refusal] at ok
    cases ok
  · rw [torn] at ok
    cases ok
  rw [through] at ok
  cases ok
  have answer := finished_ok answered
  obtain ⟨candles, fetched⟩ := answer.answered
  have adds : ∀ b, (b ∈ r ∧ ∀ o ∈ f.rows, o.stamp ≠ b.stamp) ↔ Adds w now leg f b := by
    intro b
    simp only [ne_eq, stamp_eq, answer.rows candles fetched b]
    constructor
    · rintro ⟨⟨c, mem, cast, done⟩, fresh⟩
      exact ⟨candles, fetched, ⟨c, mem, cast⟩, done, fresh⟩
    · rintro ⟨found, again, ⟨c, mem, cast⟩, done, fresh⟩
      cases fetched.symm.trans again
      exact ⟨⟨c, mem, cast, done⟩, fresh⟩
  refine ⟨f, g, rfl, rfl, ?_⟩
  rcases came with rows | ⟨rfl, same⟩
  · rw [seam.merged] at rows
    constructor
    · rw [rows]
      apply ascending_overlay stamped.distinct answer.distinct
      simp
    · intro b mem
      rw [rows, mem_overlay_none] at mem
      exact mem.elim (stamped.present b) fun new => answer.present b new.1
    · intro b
      rw [rows, mem_overlay_none, adds]
  · constructor
    · exact ascending g rfl
    · exact stamped.present
    · intro b
      rw [← adds]
      rw [seam.merged] at same
      constructor
      · exact Or.inl
      · rintro (old | ⟨new, fresh⟩)
        · exact old
        · obtain ⟨o, mem, at_⟩ := holds_iff.mp (covered_of_length same b new)
          exact absurd at_ (fresh o mem)

theorem refreshLeg_settles {left : File} {entry : RefreshEntry}
    (ok : refreshLeg w now leg file = (left, .ok entry)) : Settled w now leg left := by
  rcases refreshLeg_cases w now leg file with
    ⟨e, refusal⟩ | ⟨_, torn⟩ | ⟨_, f, r, x, g, through, rfl, stamped, answered, seam, came⟩
  · rw [refusal] at ok
    cases ok
  · rw [torn] at ok
    cases ok
  rw [through] at ok
  cases ok
  intro h found is_h again
  cases is_h
  cases answered.symm.trans again
  rcases came with rows | ⟨rfl, same⟩
  · rw [rows]
    exact seam.covers stamped (finished_ok answered).toStamped
  · exact seam.covered stamped (seam.count.mpr rfl) same

/-- A settled leg is left as it is, whether the run goes through it or not. -/
theorem refreshLeg_still (settled : Settled w now leg file) :
    (refreshLeg w now leg file).1 = file := by
  unfold refreshLeg
  split
  · rfl
  rename_i f x ok
  obtain ⟨rfl, -, r, answered, reconciled⟩ := refreshReconciled_ok ok
  have none := ((settled f r rfl answered).reconciled reconciled).2
  simp only [none, sub_self, ne_eq, not_true_eq_false, if_false]

theorem seedOver_cases (file : File) (existed : Bool) (new : Stamped r) :
    (∃ e, seedOver w leg file r existed = (file, .error e)) ∨
    (∃ left, seedOver w leg file r existed = (left, .error (.write leg))) ∨
    ∃ entry g, seedOver w leg file r existed = (.frame g, .ok entry) ∧ Covers g.rows r := by
  unfold seedOver
  split
  · rename_i e _
    exact Or.inl ⟨e, rfl⟩
  rename_i f x ok
  obtain ⟨rfl, old, reconciled⟩ := seedReconciled_ok ok
  obtain ⟨taken, seam, -, -⟩ := reconcile_ok reconciled
  simp only
  split
  · rcases writeParquet_cases w leg ⟨frameSchema, x.merged⟩ with
      wrote | ⟨left, wrote⟩
    · rw [wrote]
      exact Or.inr (Or.inr ⟨_, _, rfl, seam.covers old new⟩)
    · rw [wrote]
      exact Or.inr (Or.inl ⟨left, rfl⟩)
  · rename_i none
    refine Or.inr (Or.inr ⟨_, f, rfl, seam.covered old ?_ ?_⟩) <;> omega

/-- A leg of a seed. Where it is refused its file is what it was, or the canonical's copy where
    there was none. -/
theorem seedLeg_cases (w : World) (now : Int) (leg : Leg) (file : File) :
    (∃ e, seedLeg w now leg file = (file, .error e)) ∨
    (∃ left, seedLeg w now leg file = (left, .error (.write leg))) ∨
    (file = .absent ∧ ∃ e, seedLeg w now leg file = (w.canonical leg, .error e)) ∨
    ∃ entry g r, seedLeg w now leg file = (.frame g, .ok entry) ∧
      finished w "seed_store" now leg = .ok r ∧ Covers g.rows r := by
  unfold seedLeg
  split
  · rename_i e _
    exact Or.inl ⟨e, rfl⟩
  rename_i r answered
  have new := (finished_ok answered).toStamped
  rcases seeded_cases w leg file with
    ⟨e, laid⟩ | ⟨left, laid⟩ | ⟨none, laid⟩ | laid
  · rw [laid]
    exact Or.inl ⟨e, rfl⟩
  · rw [laid]
    exact Or.inr (Or.inl ⟨left, rfl⟩)
  · rw [laid]
    rcases seedOver_cases (w.canonical leg) (file ≠ .absent) new with
      ⟨e, refusal⟩ | torn | ⟨entry, g, through, covers⟩
    · exact Or.inr (Or.inr (Or.inl ⟨none, e, refusal⟩))
    · exact Or.inr (Or.inl torn)
    · exact Or.inr (Or.inr (Or.inr ⟨entry, g, r, through, answered, covers⟩))
  · rw [laid]
    rcases seedOver_cases file (file ≠ .absent) new with
      ⟨e, refusal⟩ | torn | ⟨entry, g, through, covers⟩
    · exact Or.inl ⟨e, refusal⟩
    · exact Or.inr (Or.inl torn)
    · exact Or.inr (Or.inr (Or.inr ⟨entry, g, r, through, answered, covers⟩))

theorem seedLeg_settles {left : File} {entry : SeedEntry}
    (ok : seedLeg w now leg file = (left, .ok entry)) :
    left ≠ .absent ∧ Settled w now leg left := by
  rcases seedLeg_cases w now leg file with
    ⟨e, refusal⟩ | ⟨_, torn⟩ | ⟨-, e, refusal⟩ | ⟨_, g, r, through, answered, covers⟩
  · rw [refusal] at ok
    cases ok
  · rw [torn] at ok
    cases ok
  · rw [refusal] at ok
    cases ok
  rw [through] at ok
  cases ok
  refine ⟨nofun, ?_⟩
  intro h found is_h again
  cases is_h
  cases (finished_name answered).symm.trans again
  exact covers

/-- A settled leg is left as a seed finds it. -/
theorem seedLeg_still (there : file ≠ .absent) (settled : Settled w now leg file) :
    (seedLeg w now leg file).1 = file := by
  unfold seedLeg
  split
  · rfl
  rename_i r answered
  have kept : seeded w leg file = (file, .ok ()) := if_neg there
  rw [kept]
  unfold seedOver
  simp only
  split
  · rfl
  rename_i f x ok
  obtain ⟨rfl, -, reconciled⟩ := seedReconciled_ok ok
  obtain ⟨replaced, none⟩ := (settled f r rfl (finished_name answered)).reconciled reconciled
  simp [replaced, none]

-- runs

/-- What a run made of a store: the legs it went through, and those left from the one that raised. -/
structure Ran {ε : Type} (step : Leg → File → File × Except Failure ε) (store : Store) (run : Run ε)
    (through left : List Leg) : Prop where
  passed : ∀ leg ∈ through, ∃ entry, step leg (store leg) = (run.store leg, .ok entry)
  raised : ∀ leg, left.head? = some leg →
    ∃ e, run.result = .error e ∧ step leg (store leg) = (run.store leg, .error e)
  done : left = [] → ∃ entries, run.result = .ok entries
  aside : ∀ leg, leg ∉ through → left.head? ≠ some leg → run.store leg = store leg

theorem overLegs_ran {ε : Type} {step : Leg → File → File × Except Failure ε} {ls : List Leg}
    (nodup : ls.Nodup) (store : Store) :
    ∃ through left, ls = through ++ left ∧ Ran step store (overLegs step ls store) through left := by
  induction ls generalizing store with
  | nil => exact ⟨[], [], rfl, by simp, by simp, fun _ => ⟨[], rfl⟩, fun _ _ _ => rfl⟩
  | cons leg rest ih =>
    obtain ⟨fresh, apart⟩ := List.nodup_cons.mp nodup
    unfold overLegs
    split
    · rename_i left e came
      refine ⟨[], leg :: rest, rfl, by simp, ?_, by simp, ?_⟩
      · rintro _ ⟨⟩
        exact ⟨e, rfl, by simpa using came⟩
      · intro l _ other
        apply Function.update_of_ne
        rintro rfl
        exact other rfl
    · rename_i left entry came
      obtain ⟨through, remaining, parts, ran⟩ := ih apart (Function.update store leg left)
      have outside : leg ∉ through ∧ remaining.head? ≠ some leg := by
        rw [parts] at fresh
        constructor
        · intro mem
          exact fresh (List.mem_append_left _ mem)
        · intro head
          exact fresh (List.mem_append_right _ (List.mem_of_mem_head? head))
      have before : ∀ l, l ∈ rest → Function.update store leg left l = store l := by
        intro l mem
        apply Function.update_of_ne
        rintro rfl
        exact fresh mem
      refine ⟨leg :: through, remaining, by rw [parts]; rfl, ?_, ?_, ?_, ?_⟩
      · intro l mem
        rcases List.mem_cons.mp mem with rfl | later
        · refine ⟨entry, ?_⟩
          rw [ran.aside l outside.1 outside.2, Function.update_self]
          exact came
        · obtain ⟨found, stepped⟩ := ran.passed l later
          rw [before l (by simp [parts, later])] at stepped
          exact ⟨found, stepped⟩
      · intro l head
        obtain ⟨e, failed, stepped⟩ := ran.raised l head
        rw [before l (by simp [parts, List.mem_of_mem_head? head])] at stepped
        refine ⟨e, ?_, stepped⟩
        simp only [failed]
        rfl
      · intro none
        obtain ⟨entries, ok⟩ := ran.done none
        refine ⟨entry :: entries, ?_⟩
        simp only [ok]
        rfl
      · intro l out other
        rw [List.mem_cons, not_or] at out
        exact (ran.aside l out.2 other).trans (Function.update_of_ne out.1 _ _)

/-- A run that finds each leg as it would leave it, as far as one that raises, changes nothing. -/
theorem overLegs_still {ε : Type} {step : Leg → File → File × Except Failure ε} {store : Store}
    {through left : List Leg} (still : ∀ leg ∈ through, (step leg (store leg)).1 = store leg)
    (raises : ∀ leg, left.head? = some leg → ∃ e, step leg (store leg) = (store leg, .error e)) :
    (overLegs step (through ++ left) store).store = store := by
  induction through with
  | nil =>
    cases left with
    | nil => rfl
    | cons leg after =>
      obtain ⟨e, came⟩ := raises leg rfl
      simp [overLegs, came]
  | cons leg through ih =>
    have kept := still leg (by simp)
    rw [List.cons_append]
    unfold overLegs
    split
    · rename_i file e came
      rw [came] at kept
      rw [show file = store leg from kept, Function.update_eq_self]
    · rename_i file entry came
      rw [came] at kept
      rw [show file = store leg from kept, Function.update_eq_self]
      exact ih fun l mem => still l (List.mem_cons_of_mem _ mem)

theorem Ran.still {ε : Type} {step : Leg → File → File × Except Failure ε} {store : Store}
    {run : Run ε} {through left : List Leg} (ran : Ran step store run through left)
    (same : (step leg (store leg)).1 = store leg) : run.store leg = store leg := by
  by_cases mem : leg ∈ through
  · obtain ⟨entry, came⟩ := ran.passed leg mem
    rw [came] at same
    exact same
  by_cases head : left.head? = some leg
  · obtain ⟨e, -, came⟩ := ran.raised leg head
    rw [came] at same
    exact same
  · exact ran.aside leg mem head

theorem legs_nodup (pairs : List String) (nodup : pairs.Nodup) : (legs pairs).Nodup := by
  unfold legs
  rw [List.nodup_flatMap]
  constructor
  · intro pair _
    simp [gridIntervals]
  · apply nodup.imp
    intro a b differ
    simp [gridIntervals, Function.onFun, Ne.symm differ]

theorem Settled.later {later : World} {then_ : Int} (settled : Settled w now leg file)
    (same : SameAnswer w now later then_) : Settled later then_ leg file := by
  intro f r is_f answered
  rw [finished_same same] at answered
  exact settled f r is_f answered

/-- A refused leg is refused again. -/
theorem refreshLeg_again {later : World} {then_ : Int} {left : File} {e : Failure}
    (same : SameAnswer w now later then_) (raised : refreshLeg w now leg file = (left, .error e))
    (written : e ≠ .write leg) : left = file ∧ refreshLeg later then_ leg file = (file, .error e) := by
  have reads : refreshReconciled later then_ leg file = refreshReconciled w now leg file := by
    unfold refreshReconciled
    rw [finished_same same]
  unfold refreshLeg at raised ⊢
  rw [reads]
  cases came : refreshReconciled w now leg file with
  | error found =>
    rw [came] at raised
    cases raised
    exact ⟨rfl, rfl⟩
  | ok fx =>
    obtain ⟨f, x⟩ := fx
    rw [came] at raised
    simp only at raised
    split at raised
    · rcases writeParquet_cases w leg ⟨frameSchema, x.merged⟩ with
        wrote | ⟨_, wrote⟩
      all_goals rw [wrote] at raised; cases raised
      exact absurd rfl written
    · cases raised

end

/-- What one refresh makes of the store: the legs before one that raised are merged, and the others
    are as they were, except one whose own write raised. -/
structure RefreshLaws (w : World) (now : Int) (pairs : List String) (store : Store)
    (run : Run RefreshEntry) (through left : List Leg) : Prop where
  inOrder : legs pairs = through ++ left
  done : left = [] ↔ ∃ entries, run.result = .ok entries
  merged : ∀ leg ∈ through, ∃ f g, store leg = .frame f ∧ run.store leg = .frame g ∧
    Merged w now leg f g
  aside : ∀ leg, leg ∉ through → run.result ≠ .error (.write leg) → run.store leg = store leg

/-- What a seed makes of the store where it is refused: the refused leg is as it was, or where there
    was no file the canonical's copy. -/
structure SeedLaws (w : World) (store : Store) (run : Run SeedEntry) (through left : List Leg) :
    Prop where
  inOrder : legs basket = through ++ left
  done : left = [] ↔ ∃ entries, run.result = .ok entries
  aside : ∀ leg, leg ∉ through → run.result ≠ .error (.write leg) → run.store leg = store leg ∨
    (left.head? = some leg ∧ store leg = .absent ∧ run.store leg = w.canonical leg)

section
variable {w : World} {now : Int} {pairs : List String} {store : Store}

theorem refresh_ran (w : World) (now : Int) (store : Store) (nodup : pairs.Nodup) :
    ∃ through left, legs pairs = through ++ left ∧
    Ran (refreshLeg w now) store (refreshStore w now pairs store) through left :=
  overLegs_ran (legs_nodup pairs nodup) store

theorem seed_ran (w : World) (now : Int) (store : Store) :
    ∃ through left, legs basket = through ++ left ∧
    Ran (seedLeg w now) store (seedStore w now store) through left :=
  overLegs_ran (legs_nodup basket (by decide)) store

theorem refresh_laws (nodup : pairs.Nodup)
    (stored : ∀ leg ∈ legs pairs, ∀ f, store leg = .frame f → Ascending Bar.stamp f.rows) :
    ∃ through left, RefreshLaws w now pairs store (refreshStore w now pairs store) through left := by
  obtain ⟨through, left, parts, ran⟩ := refresh_ran w now store nodup
  refine ⟨through, left, parts, ⟨ran.done, ?_⟩, ?_, ?_⟩
  · rintro ⟨entries, ok⟩
    cases left with
    | nil => rfl
    | cons leg after =>
      obtain ⟨e, failed, -⟩ := ran.raised leg rfl
      cases ok.symm.trans failed
  · intro leg mem
    obtain ⟨entry, came⟩ := ran.passed leg mem
    exact refreshLeg_merges came (stored leg (by simp [parts, mem]))
  · intro leg out unwritten
    by_cases head : left.head? = some leg
    · obtain ⟨e, failed, came⟩ := ran.raised leg head
      have other : e ≠ .write leg := by
        rintro rfl
        exact unwritten failed
      exact (refreshLeg_again ⟨fun _ => rfl, fun _ _ _ _ _ _ _ => rfl⟩ came other).1
    · exact ran.aside leg out head

theorem seed_laws :
    ∃ through left, SeedLaws w store (seedStore w now store) through left := by
  obtain ⟨through, left, parts, ran⟩ := seed_ran w now store
  refine ⟨through, left, parts, ⟨ran.done, ?_⟩, ?_⟩
  · rintro ⟨entries, ok⟩
    cases left with
    | nil => rfl
    | cons leg after =>
      obtain ⟨e, failed, -⟩ := ran.raised leg rfl
      cases ok.symm.trans failed
  · intro leg out unwritten
    by_cases head : left.head? = some leg
    · obtain ⟨e, failed, came⟩ := ran.raised leg head
      rcases seedLeg_cases w now leg (store leg) with
        ⟨_, refusal⟩ | ⟨_, torn⟩ | ⟨none, _, refusal⟩ | ⟨_, _, _, through, -⟩
      · rw [refusal] at came
        injection came with kept
        exact Or.inl kept.symm
      · rw [torn] at came
        injection came with _ wrote
        cases wrote
        exact absurd failed unwritten
      · rw [refusal] at came
        injection came with copied
        exact Or.inr ⟨head, none, copied.symm⟩
      · simp [through] at came
    · exact Or.inl (ran.aside leg out head)

/-- Every leg a refresh went through is settled, and one it refused would be refused again. -/
theorem refresh_again (nodup : pairs.Nodup) {later : World} {then_ : Int}
    (same : SameAnswer w now later then_)
    (written : ∀ leg, (refreshStore w now pairs store).result ≠ .error (.write leg)) :
    (refreshStore later then_ pairs (refreshStore w now pairs store).store).store =
      (refreshStore w now pairs store).store := by
  obtain ⟨through, left, parts, ran⟩ := refresh_ran w now store nodup
  show (overLegs (refreshLeg later then_) (legs pairs) (refreshStore w now pairs store).store).store = _
  rw [parts]
  apply overLegs_still
  · intro leg mem
    obtain ⟨entry, came⟩ := ran.passed leg mem
    exact refreshLeg_still ((refreshLeg_settles came).later same)
  · intro leg head
    obtain ⟨e, failed, came⟩ := ran.raised leg head
    have other : e ≠ .write leg := by
      rintro rfl
      exact written leg failed
    obtain ⟨kept, again⟩ := refreshLeg_again same came other
    rw [← kept] at again
    exact ⟨e, again⟩

/-- A leg a refresh went through is one a seed leaves alone. -/
theorem seed_after_refresh {later : World} {then_ : Int} {leg : Leg}
    (same : SameAnswer w now later then_) (nodup : pairs.Nodup) (mem : leg ∈ legs pairs)
    (ok : ∃ entries, (refreshStore w now pairs store).result = .ok entries) :
    (seedStore later then_ (refreshStore w now pairs store).store).store leg =
      (refreshStore w now pairs store).store leg := by
  obtain ⟨through, left, parts, ran⟩ := refresh_ran w now store nodup
  obtain ⟨_, _, _, seeds⟩ := seed_ran later then_
    (refreshStore w now pairs store).store
  have all : left = [] := by
    obtain ⟨entries, ok⟩ := ok
    cases left with
    | nil => rfl
    | cons first after =>
      obtain ⟨e, failed, -⟩ := ran.raised first rfl
      cases ok.symm.trans failed
  subst all
  rw [List.append_nil] at parts
  obtain ⟨entry, came⟩ := ran.passed leg (parts ▸ mem)
  apply seeds.still
  apply seedLeg_still
  · intro none
    rcases refreshLeg_cases w now leg (store leg) with
      ⟨_, refusal⟩ | ⟨_, torn⟩ | ⟨_, _, _, _, _, stepped, -⟩
    · simp [refusal] at came
    · simp [torn] at came
    · rw [stepped] at came
      injection came with file
      cases file.trans none
  · exact (refreshLeg_settles came).later same

theorem seed_again {later : World} {then_ : Int} (same : SameAnswer w now later then_)
    (ok : ∃ entries, (seedStore w now store).result = .ok entries) :
    (seedStore later then_ (seedStore w now store).store).store = (seedStore w now store).store := by
  obtain ⟨through, left, parts, ran⟩ := seed_ran w now store
  show (overLegs (seedLeg later then_) (legs basket) (seedStore w now store).store).store = _
  rw [parts]
  apply overLegs_still
  · intro leg mem
    obtain ⟨entry, came⟩ := ran.passed leg mem
    obtain ⟨there, settled⟩ := seedLeg_settles came
    exact seedLeg_still there (settled.later same)
  · intro leg head
    obtain ⟨entries, ok⟩ := ok
    obtain ⟨e, failed, -⟩ := ran.raised leg head
    cases ok.symm.trans failed

/-- Every refresh merges the legs it goes through and leaves the rest; done again on the same answer,
    with no more of its rows finished, a refresh or a seed changes nothing; and a refused seed has
    at most copied the canonical. -/
theorem store_merge_laws (w : World) (now : Int) (pairs : List String) (nodup : pairs.Nodup)
    (store : Store)
    (stored : ∀ leg ∈ legs pairs, ∀ f, store leg = .frame f → Ascending Bar.stamp f.rows) :
    let run := refreshStore w now pairs store
    let sown := seedStore w now store
    (∃ through left, RefreshLaws w now pairs store run through left) ∧
    (∃ through left, SeedLaws w store sown through left) ∧
    ∀ later then_, SameAnswer w now later then_ →
      ((∀ leg, run.result ≠ .error (.write leg)) →
        (refreshStore later then_ pairs run.store).store = run.store) ∧
      ((∃ entries, run.result = .ok entries) →
        ∀ leg ∈ legs pairs, (seedStore later then_ run.store).store leg = run.store leg) ∧
      ((∃ entries, sown.result = .ok entries) →
        (seedStore later then_ sown.store).store = sown.store) := by
  refine ⟨refresh_laws nodup stored, seed_laws, ?_⟩
  intro later then_ same
  refine ⟨refresh_again nodup same, ?_, seed_again same⟩
  intro ok leg mem
  exact seed_after_refresh same nodup mem ok

def quoted (t : Int) (price : ℚ) : Candle :=
  let p : Cell Num := .value (.finite price)
  ⟨.value t, p, p, p, p, p, p, .value 1⟩

def flat (t : Int) (price : ℚ) : Bar :=
  let p : Option Num := some (.finite price)
  ⟨some t, p, p, p, p, p, p, some 1⟩

/-- Both grids of every pair hold the first of the answer's two candles. -/
def twoCandles : World where
  fetch _ := some [quoted 0 1, quoted 86400 1]
  canonical _ := .frame ⟨frameSchema, [flat 0 1]⟩
  write _ _ := none

def oneBar : Store := fun _ => .frame ⟨frameSchema, [flat 0 1]⟩

def oneDay : Int := 86400000000

theorem store_merge_laws_twice :
    (refreshStore twoCandles (2 * oneDay) ["BTC/EUR"]
      (refreshStore twoCandles (2 * oneDay) ["BTC/EUR"] oneBar).store).store =
    (refreshStore twoCandles (2 * oneDay) ["BTC/EUR"] oneBar).store := by
  obtain ⟨-, -, again⟩ := store_merge_laws twoCandles (2 * oneDay) ["BTC/EUR"] (by decide) oneBar
    (by
      rintro leg - f ⟨⟩
      decide)
  apply (again twoCandles (2 * oneDay) ⟨fun _ => rfl, fun _ _ _ _ _ _ _ => rfl⟩).1
  intro leg
  have ok : ((refreshStore twoCandles (2 * oneDay) ["BTC/EUR"] oneBar).result.toOption).isSome := by
    decide
  intro torn
  rw [torn] at ok
  cases ok

/-- The same answer once its last candle has finished adds that candle; a first seed that the seam
    refuses leaves the copied canonical; and a write that raises leaves what it leaves. -/
theorem merge_laws_break :
    ((refreshStore twoCandles oneDay ["BTC/EUR"] oneBar).result.toOption.isSome = true ∧
      (refreshStore twoCandles (2 * oneDay) ["BTC/EUR"]
        (refreshStore twoCandles oneDay ["BTC/EUR"] oneBar).store).store ("BTC/EUR", 1440) ≠
      (refreshStore twoCandles oneDay ["BTC/EUR"] oneBar).store ("BTC/EUR", 1440)) ∧
    ((seedStore twoCandles oneDay fun _ => .absent).result =
        .error (.engine "seed_store" ("ADA/EUR", 1440) (.shortfall 1 6 (.shortLeg 1))) ∧
      (seedStore twoCandles oneDay fun _ => .absent).store ("ADA/EUR", 1440) ≠ .absent) ∧
    (refreshStore { twoCandles with write := fun _ _ => some .unreadable } (2 * oneDay) ["BTC/EUR"]
      oneBar).store ("BTC/EUR", 1440) = .unreadable := by
  refine ⟨⟨?_, ?_⟩, ⟨?_, ?_⟩, ?_⟩
  · decide
  · decide
  · rfl
  · decide
  · decide

end
end Stores
