import Zcrypto.Registry.Reconcile

/- What a count keeps of the attempts: each has one class, and a result that a log holds is counted by the
   attempt that its absorptions lead to. -/
namespace Reconcile

section
variable {M : Type} {digest : M → String} {lines : List (Line digest)}

/- The attempts of a log. -/

theorem attempts_ids (lines : List (Line digest)) : ((attemptsOf lines).map Attempt.id).Sublist
    (((lines.filterMap beginOf).map Begin.attempt).dedup.insertionSort (· ≤ ·)) := by
  have named : ∀ ids : List Nat, ((ids.filterMap fun id =>
      ((lines.filterMap beginOf).reverse.find? fun b => b.attempt = id).map fun b =>
        (⟨id, b, (lines.filterMap endOf).reverse.find? fun e => e.attempt = id⟩ : Attempt digest)).map
          Attempt.id).Sublist ids := by
    intro ids
    induction ids with
    | nil => exact .slnil
    | cons id ids ih =>
      rw [List.filterMap_cons]
      cases (lines.filterMap beginOf).reverse.find? fun b => b.attempt = id with
      | none => exact ih.cons id
      | some b => exact ih.cons_cons id
  exact named _

theorem attempts_nodup (lines : List (Line digest)) : ((attemptsOf lines).map Attempt.id).Nodup := by
  apply (attempts_ids lines).nodup
  exact (List.perm_insertionSort _ _).nodup_iff.mpr (List.nodup_dedup _)

theorem attempt_unique {x y : Attempt digest} (x_mem : x ∈ attemptsOf lines) (y_mem : y ∈ attemptsOf lines)
    (same : x.id = y.id) : x = y :=
  List.inj_on_of_nodup_map (attempts_nodup lines) x_mem y_mem same

theorem refs_nodup (lines : List (Line digest)) (logId : String) :
    ((attemptsOf lines).map fun x => x.ref logId).Nodup := by
  have ids : (((attemptsOf lines).map fun x => x.ref logId).map Ref.id).Nodup := by
    rw [List.map_map]
    exact attempts_nodup lines
  exact ids.of_map

/- The classes. -/

variable {alive : Begin → Bool} {asks : Asks} {landed : Landed M} {attempts : List (Attempt digest)}
  {x y : Attempt digest} {c : Class}

def Listed (asks : Asks) (landed : Landed M) (x : Attempt digest) : Prop :=
  ∃ listing ∈ listings landed, listing.2.ref = x.ref asks.logId

/-- A begin whose process ended without an end. -/
def Gone (alive : Begin → Bool) (x : Attempt digest) : Prop := x.ended = none ∧ alive x.began = false

def Unlanded (asks : Asks) (landed : Landed M) (x : Attempt digest) : Prop :=
  some x.id ≠ asks.own ∧ x.ref asks.logId ∉ landedIds landed

/-- A later attempt that ran the same and came to the same, or that ended where this one did not. -/
structure Absorbs (alive : Begin → Bool) (asks : Asks) (landed : Landed M) (x y : Attempt digest) :
    Prop where
  later : x.id < y.id
  listed : Listed asks landed x → some y.id = asks.own
  arguments : arguments y.began.invocation = arguments x.began.invocation
  spec : y.began.specHash = x.began.specHash
  outcome : ∃ f, y.ended = some f ∧ ((∃ e, x.ended = some e ∧ e.metricsHash.isSome = true ∧
    f.metricsHash = e.metricsHash ∧ f.verdict = e.verdict ∧ f.stop = e.stop) ∨ Gone alive x)

/-- The first of the attempts that absorb one. -/
def FirstAbsorber (alive : Begin → Bool) (asks : Asks) (landed : Landed M)
    (attempts : List (Attempt digest)) (x : Attempt digest) (id : Nat) : Prop :=
  ∃ before y after, attempts = before ++ y :: after ∧ y.id = id ∧ Absorbs alive asks landed x y ∧
    ∀ z ∈ before, ¬ Absorbs alive asks landed x z

def Unabsorbed (alive : Begin → Bool) (asks : Asks) (landed : Landed M)
    (attempts : List (Attempt digest)) (x : Attempt digest) : Prop :=
  ∀ y ∈ attempts, ¬ Absorbs alive asks landed x y

def StoppedOrFailed (x : Attempt digest) : Prop :=
  ∃ e, x.ended = some e ∧ (e.stop ≠ none ∨ e.failed ≠ none)

def Held (alive : Begin → Bool) (asks : Asks) (x : Attempt digest) : Prop :=
  asks.hold = some (heldKey x) ∧ (Gone alive x ∨ (x.ended ≠ none ∧ asks.holdFinished = true))

/-- The class of an attempt by what it takes to be of it. -/
inductive Classed (alive : Begin → Bool) (asks : Asks) (landed : Landed M)
    (attempts : List (Attempt digest)) (x : Attempt digest) : Class → Prop where
  | own (mine : some x.id = asks.own) : Classed alive asks landed attempts x .own
  | landed (other : some x.id ≠ asks.own) (named : x.ref asks.logId ∈ landedIds landed) :
      Classed alive asks landed attempts x .landed
  | absorbed {id : Nat} (unlanded : Unlanded asks landed x)
      (first : FirstAbsorber alive asks landed attempts x id) :
      Classed alive asks landed attempts x (.absorbed id)
  | idle (unlanded : Unlanded asks landed x) (alone : Unabsorbed alive asks landed attempts x)
      (unlisted : ¬ Listed asks landed x) (idle : StoppedOrFailed x) :
      Classed alive asks landed attempts x .idle
  | held (unlanded : Unlanded asks landed x) (alone : Unabsorbed alive asks landed attempts x)
      (counts : StoppedOrFailed x → Listed asks landed x) (held : Held alive asks x) :
      Classed alive asks landed attempts x .held
  | orphan (unlanded : Unlanded asks landed x) (alone : Unabsorbed alive asks landed attempts x)
      (counts : StoppedOrFailed x → Listed asks landed x) (free : ¬ Held alive asks x) :
      Classed alive asks landed attempts x .orphan

theorem listed_iff : isListed asks landed x = true ↔ Listed asks landed x := by
  simp only [isListed, decide_eq_true_eq, List.mem_map, Listed]

theorem gone_iff : isGone alive x = true ↔ Gone alive x := by
  simp [isGone, Gone]

theorem absorbs_iff : absorbs x y asks.own (isGone alive x) (isListed asks landed x) = true ↔
      Absorbs alive asks landed x y := by
  unfold absorbs
  constructor
  · intro found
    split at found
    · cases found
    rename_i apart
    rw [not_or, not_and, not_not, listed_iff] at apart
    split at found
    · cases found
    rename_i same
    rw [not_or, not_not, not_not] at same
    refine ⟨by omega, apart.2, same.1, same.2, ?_⟩
    split at found
    · rename_i e f x_ended y_ended
      simp only [Bool.and_eq_true, decide_eq_true_eq] at found
      obtain ⟨⟨⟨hash, hashes⟩, verdicts⟩, stops⟩ := found
      exact ⟨f, y_ended, .inl ⟨e, x_ended, hash, hashes, verdicts, stops⟩⟩
    · rename_i f x_ended y_ended
      exact ⟨f, y_ended, .inr (gone_iff.mp found)⟩
    · cases found
  · rintro ⟨later, listed, arguments, spec, f, y_ended, outcome⟩
    rw [if_neg (by rw [not_or, not_and, not_not, listed_iff]; exact ⟨by omega, listed⟩),
      if_neg (by rw [not_or, not_not, not_not]; exact ⟨arguments, spec⟩), y_ended]
    rcases outcome with ⟨e, x_ended, hash, hashes, verdicts, stops⟩ | gone
    · rw [x_ended]
      simp [hash, hashes, verdicts, stops]
    · have is_gone := gone_iff.mpr gone
      rw [gone.1]
      exact is_gone

theorem absorber_some {id : Nat} : absorber x attempts asks.own (isGone alive x) (isListed asks landed x) = some id ↔
      FirstAbsorber alive asks landed attempts x id := by
  unfold absorber FirstAbsorber
  simp only [Option.map_eq_some_iff, List.find?_eq_some_iff_append, absorbs_iff, Bool.not_eq_true',
    ← Bool.not_eq_true]
  constructor
  · rintro ⟨y, ⟨holds, before, after, parted, none⟩, same⟩
    exact ⟨before, y, after, parted, same, holds, none⟩
  · rintro ⟨before, y, after, parted, same, holds, none⟩
    exact ⟨y, ⟨holds, before, after, parted, none⟩, same⟩

theorem absorber_none : absorber x attempts asks.own (isGone alive x) (isListed asks landed x) = none ↔
      Unabsorbed alive asks landed attempts x := by
  unfold absorber Unabsorbed
  simp only [Option.map_eq_none_iff, List.find?_eq_none, absorbs_iff]

theorem held_iff : asks.hold = some (heldKey x) ∧
    (isGone alive x = true ∨ (x.ended.isSome = true ∧ asks.holdFinished = true)) ↔
      Held alive asks x := by
  rw [gone_iff, ← Option.ne_none_iff_isSome]
  rfl

theorem idle_iff : ((x.ended.bind End.stop).isSome = true ∨ (x.ended.bind End.failed).isSome = true) ↔
    StoppedOrFailed x := by
  unfold StoppedOrFailed
  cases x.ended with
  | none => simp
  | some e => simp [Option.isSome_iff_ne_none]

theorem classOf_classed : Classed alive asks landed attempts x (classOf alive asks landed attempts x) := by
  unfold classOf
  split
  · rename_i mine
    exact .own mine
  rename_i other
  split
  · rename_i named
    exact .landed other named
  rename_i unnamed
  have unlanded : Unlanded asks landed x := ⟨other, unnamed⟩
  simp only
  split
  · rename_i id found
    exact .absorbed unlanded (absorber_some.mp found)
  rename_i none
  have alone := absorber_none.mp none
  split
  · rename_i idle
    exact .idle unlanded alone (by rw [← listed_iff, idle.2]; decide) (idle_iff.mp (.inl idle.1))
  rename_i running
  split
  · rename_i idle
    exact .idle unlanded alone (by rw [← listed_iff, idle.2]; decide) (idle_iff.mp (.inr idle.1))
  rename_i unfailed
  have counts : StoppedOrFailed x → Listed asks landed x := by
    intro idle
    rw [← listed_iff]
    by_contra unlisted
    rw [Bool.not_eq_true] at unlisted
    rcases idle_iff.mpr idle with stopped | failed
    · exact running ⟨stopped, unlisted⟩
    · exact unfailed ⟨failed, unlisted⟩
  split
  · rename_i held
    exact .held unlanded alone counts (held_iff.mp held)
  · rename_i free
    exact .orphan unlanded alone counts (fun held => free (held_iff.mpr held))

theorem first_unique {id id' : Nat} (first : FirstAbsorber alive asks landed attempts x id)
    (first' : FirstAbsorber alive asks landed attempts x id') : id = id' :=
  Option.some.inj ((absorber_some.mpr first).symm.trans (absorber_some.mpr first'))

theorem first_absorbed {id : Nat} (first : FirstAbsorber alive asks landed attempts x id) :
    ¬ Unabsorbed alive asks landed attempts x := by
  obtain ⟨before, y, after, rfl, -, holds, -⟩ := first
  exact fun alone => alone y (by simp) holds

theorem classed_unique {c' : Class} (one : Classed alive asks landed attempts x c)
    (another : Classed alive asks landed attempts x c') : c = c' := by
  cases one with
  | own mine =>
    cases another with
    | own => rfl
    | landed apart => exact absurd mine apart
    | absorbed unlanded | idle unlanded | held unlanded | orphan unlanded => exact absurd mine unlanded.1
  | landed other named =>
    cases another with
    | own mine => exact absurd mine other
    | landed => rfl
    | absorbed unlanded | idle unlanded | held unlanded | orphan unlanded =>
      exact absurd named unlanded.2
  | absorbed unlanded first =>
    cases another with
    | own mine => exact absurd mine unlanded.1
    | landed _ named => exact absurd named unlanded.2
    | absorbed _ first' => rw [first_unique first first']
    | idle _ alone | held _ alone | orphan _ alone => exact absurd alone (first_absorbed first)
  | idle unlanded alone unlisted idle =>
    cases another with
    | own mine => exact absurd mine unlanded.1
    | landed _ named => exact absurd named unlanded.2
    | absorbed _ first => exact absurd alone (first_absorbed first)
    | idle => rfl
    | held _ _ counts | orphan _ _ counts => exact absurd (counts idle) unlisted
  | held unlanded alone counts held =>
    cases another with
    | own mine => exact absurd mine unlanded.1
    | landed _ named => exact absurd named unlanded.2
    | absorbed _ first => exact absurd alone (first_absorbed first)
    | idle _ _ unlisted idle => exact absurd (counts idle) unlisted
    | held => rfl
    | orphan _ _ _ free => exact absurd held free
  | orphan unlanded alone counts free =>
    cases another with
    | own mine => exact absurd mine unlanded.1
    | landed _ named => exact absurd named unlanded.2
    | absorbed _ first => exact absurd alone (first_absorbed first)
    | idle _ _ unlisted idle => exact absurd (counts idle) unlisted
    | held _ _ _ held => exact absurd held free
    | orphan => rfl

theorem classed_iff :
    Classed alive asks landed attempts x c ↔ classOf alive asks landed attempts x = c := by
  constructor
  · exact fun classed => classed_unique classOf_classed classed
  · rintro rfl
    exact classOf_classed

/- The orphans. -/

def Orphan.ref (orphan : Orphan M) : Ref := ⟨orphan.log, orphan.id, orphan.began⟩

def ownAbsorbed (asks : Asks) : Class → Bool
  | .absorbed y => some y = asks.own
  | _ => false

theorem visit_fold (xs : List (Attempt digest)) (found : List (Orphan M) × List Absorbed) :
    xs.foldl (visit alive asks landed attempts) found =
      (found.1 ++ (xs.filter fun x => classOf alive asks landed attempts x = .orphan).map
          (fun x => x.orphan asks.logId),
        found.2 ++ (xs.filter fun x => ownAbsorbed asks (classOf alive asks landed attempts x)).map
          fun x => ⟨x.id, x.began.lineHash⟩) := by
  induction xs generalizing found with
  | nil => simp
  | cons x xs ih =>
    rw [List.foldl_cons, ih, List.filter_cons, List.filter_cons]
    unfold visit
    cases class_ : classOf alive asks landed attempts x with
    | absorbed y =>
      by_cases mine : some y = asks.own <;> simp [ownAbsorbed, mine]
    | own | landed | idle | held | orphan => simp [ownAbsorbed]

theorem carry_fold (ids mine : List Ref) (listings : List (Int × Entry M)) (seen : List Ref)
    (orphans : List (Orphan M)) : ∃ more,
      (listings.foldl (carry ids mine) (seen, orphans)).2 = orphans ++ more ∧
        (more.map Orphan.ref).Nodup ∧ ∀ o ∈ more, o.ref ∉ seen ∧ o.ref ∉ ids ∧ o.ref ∉ mine := by
  induction listings generalizing seen orphans with
  | nil => exact ⟨[], (List.append_nil _).symm, List.nodup_nil, fun _ mem => nomatch mem⟩
  | cons listing listings ih =>
    rw [List.foldl_cons]
    simp only [carry]
    split
    · exact ih seen orphans
    rename_i fresh
    split
    · rename_i carried
      obtain ⟨more, found, nodup, apart⟩ := ih (listing.2.ref :: seen)
        (orphans ++ [listing.2.orphan listing.1])
      refine ⟨listing.2.orphan listing.1 :: more, ?_, ?_, ?_⟩
      · rw [found, List.append_assoc]
        rfl
      · rw [List.map_cons, List.nodup_cons]
        refine ⟨?_, nodup⟩
        intro again
        obtain ⟨o, mem, same⟩ := List.mem_map.mp again
        apply (apart o mem).1
        rw [same]
        exact List.mem_cons_self
      · intro o mem
        rcases List.mem_cons.mp mem with rfl | mem
        · exact ⟨fresh, carried⟩
        · exact ⟨fun there => (apart o mem).1 (List.mem_cons_of_mem _ there), (apart o mem).2⟩
    · obtain ⟨more, found, nodup, apart⟩ := ih (listing.2.ref :: seen) orphans
      refine ⟨more, found, nodup, ?_⟩
      intro o mem
      exact ⟨fun there => (apart o mem).1 (List.mem_cons_of_mem _ there), (apart o mem).2⟩

end

section
variable {M : Type} {digest : M → String} (alive : Begin → Bool) (asks : Asks)
  (lines : List (Line digest)) (landed : Landed M)

def isOrphan (x : Attempt digest) : Bool :=
  classOf alive asks landed (attemptsOf lines) x = .orphan

/-- The orphans are the local ones and those that are carried. -/
theorem reconcile_orphans : ∃ carried,
    (reconcile alive asks lines landed).orphans =
      ((attemptsOf lines).filter (isOrphan alive asks lines landed)).map (fun x => x.orphan asks.logId) ++
        carried ∧ (carried.map Orphan.ref).Nodup ∧ ∀ o ∈ carried, o.ref ∉ landedIds landed ∧
          o.ref ∉ (attemptsOf lines).map fun x => x.ref asks.logId := by
  obtain ⟨carried, found, nodup, apart⟩ := carry_fold (landedIds landed)
    ((attemptsOf lines).map fun x => x.ref asks.logId) (listings landed) []
    ((attemptsOf lines).foldl (visit alive asks landed (attemptsOf lines)) ([], [])).1
  refine ⟨carried, ?_, nodup, fun o mem => (apart o mem).2⟩
  simp only [reconcile]
  rw [found, visit_fold, List.nil_append]
  rfl

/-- What a chain of absorptions takes from one attempt to the next. -/
def Step (x y : Attempt digest) : Prop :=
  y ∈ attemptsOf lines ∧ x.id < y.id ∧ Classed alive asks landed (attemptsOf lines) x (.absorbed y.id)

/-- What a run came to, by its arguments and the spec it ran. -/
structure Result where
  arguments : Arguments
  specHash : String
  verdict : String
  metricsHash : Option String
  deriving DecidableEq

def Attempt.result (x : Attempt digest) : Option Result :=
  x.ended.bind fun e => e.verdict.map fun verdict =>
    ⟨Reconcile.arguments x.began.invocation, x.began.specHash, verdict, e.metricsHash⟩

/-- An attempt that counts for a family: an orphan of it, or the run of a record of it. -/
def CountsFor (family : String) (y : Attempt digest) : Prop :=
  (Classed alive asks landed (attemptsOf lines) y .orphan ∧ y.began.family = family) ∨
    ∃ record ∈ landed.records, record.family = family ∧
      record.reference.map Reference.ref = some (y.ref asks.logId)

/-- What a count is of a log and what landed. -/
structure Accounts (count : Count M) : Prop where
  classes : ∀ x ∈ attemptsOf lines, ∃! c, Classed alive asks landed (attemptsOf lines) x c
  orphans : ∀ x ∈ attemptsOf lines, x.ref asks.logId ∈ count.orphans.map Orphan.ref ↔
    Classed alive asks landed (attemptsOf lines) x .orphan
  distinct : (count.orphans.map Orphan.ref).Nodup
  unlanded : ∀ o ∈ count.orphans, o.ref ∉ landedIds landed
  absorbs : ∀ a, a ∈ count.absorbs ↔ ∃ x ∈ attemptsOf lines, a = ⟨x.id, x.began.lineHash⟩ ∧
    ∃ own, asks.own = some own ∧ Classed alive asks landed (attemptsOf lines) x (.absorbed own)
  absorbs_once : (count.absorbs.map Absorbed.id).Nodup
  represented : asks.hold = none → ∀ x ∈ attemptsOf lines, ∀ e, x.ended = some e → e.verdict ≠ none →
    ∃ y f, Relation.ReflTransGen (Step alive asks lines landed) x y ∧ y ∈ attemptsOf lines ∧
      y.ended = some f ∧ f.verdict = e.verdict ∧ f.metricsHash = e.metricsHash ∧
        (asks.own = some y.id ∨ y.ref asks.logId ∈ landedIds landed ∨ ∃ o ∈ count.orphans,
          o.ref = y.ref asks.logId ∧ o.verdict = e.verdict ∧ o.metrics.map digest = e.metricsHash)
  required : ∀ (family : String) (results : List Result), results.Nodup →
    (∀ r ∈ results, ∃ x ∈ attemptsOf lines, x.result = some r ∧ ∃ y ∈ attemptsOf lines,
      Relation.ReflTransGen (Step alive asks lines landed) x y ∧
        CountsFor alive asks lines landed family y) → results.length + 1 ≤ count.requiredN family

variable {alive asks lines landed}

theorem isOrphan_iff {x : Attempt digest} : isOrphan alive asks lines landed x = true ↔
    Classed alive asks landed (attemptsOf lines) x .orphan := by
  rw [classed_iff]
  exact decide_eq_true_iff

theorem local_refs : (((attemptsOf lines).filter (isOrphan alive asks lines landed)).map fun x =>
    x.orphan asks.logId).map Orphan.ref =
      ((attemptsOf lines).filter (isOrphan alive asks lines landed)).map fun x => x.ref asks.logId := by
  rw [List.map_map]
  rfl

theorem orphans_distinct : ((reconcile alive asks lines landed).orphans.map Orphan.ref).Nodup := by
  obtain ⟨carried, found, nodup, apart⟩ := reconcile_orphans alive asks lines landed
  rw [found, List.map_append, local_refs, List.nodup_append]
  refine ⟨(refs_nodup lines asks.logId).sublist (List.filter_sublist.map _), nodup, ?_⟩
  intro ref local_mem other carried_mem same
  obtain ⟨o, mem, rfl⟩ := List.mem_map.mp carried_mem
  apply (apart o mem).2
  rw [← same]
  exact (List.filter_sublist.map _).subset local_mem

theorem orphans_unlanded : ∀ o ∈ (reconcile alive asks lines landed).orphans, o.ref ∉ landedIds landed := by
  obtain ⟨carried, found, -, apart⟩ := reconcile_orphans alive asks lines landed
  rw [found]
  intro o mem
  rcases List.mem_append.mp mem with own | other
  · obtain ⟨x, listed, rfl⟩ := List.mem_map.mp own
    have orphan := isOrphan_iff.mp (List.mem_filter.mp listed).2
    cases orphan with
    | orphan unlanded => exact unlanded.2
  · exact (apart o other).1

theorem orphans_local {x : Attempt digest} (mem : x ∈ attemptsOf lines) :
    x.ref asks.logId ∈ (reconcile alive asks lines landed).orphans.map Orphan.ref ↔
      Classed alive asks landed (attemptsOf lines) x .orphan := by
  obtain ⟨carried, found, -, apart⟩ := reconcile_orphans alive asks lines landed
  rw [found, List.map_append, local_refs, List.mem_append, ← isOrphan_iff]
  constructor
  · rintro (own | other)
    · obtain ⟨y, listed, same⟩ := List.mem_map.mp own
      obtain ⟨y_mem, orphan⟩ := List.mem_filter.mp listed
      rw [← attempt_unique y_mem mem (congrArg Ref.id same)]
      exact orphan
    · obtain ⟨o, carried_mem, same⟩ := List.mem_map.mp other
      exfalso
      apply (apart o carried_mem).2
      rw [same]
      exact List.mem_map.mpr ⟨x, mem, rfl⟩
  · intro orphan
    exact .inl (List.mem_map_of_mem (List.mem_filter.mpr ⟨mem, orphan⟩))

theorem absorbs_own (a : Absorbed) : a ∈ (reconcile alive asks lines landed).absorbs ↔
    ∃ x ∈ attemptsOf lines, a = ⟨x.id, x.began.lineHash⟩ ∧
      ∃ own, asks.own = some own ∧ Classed alive asks landed (attemptsOf lines) x (.absorbed own) := by
  unfold reconcile
  simp only [visit_fold, List.nil_append, List.mem_map, List.mem_filter, classed_iff]
  constructor
  · rintro ⟨x, ⟨mem, own⟩, rfl⟩
    unfold ownAbsorbed at own
    split at own
    · rename_i y class_
      exact ⟨x, mem, rfl, y, (of_decide_eq_true own).symm, class_⟩
    · cases own
  · rintro ⟨x, mem, rfl, own, asked, class_⟩
    exact ⟨x, ⟨mem, by simp [ownAbsorbed, class_, asked]⟩, rfl⟩

theorem absorbs_nodup : ((reconcile alive asks lines landed).absorbs.map Absorbed.id).Nodup := by
  simp only [reconcile, visit_fold, List.nil_append, List.map_map]
  exact (attempts_nodup lines).sublist (List.filter_sublist.map _)

/- The chains. -/

theorem step_of {x : Attempt digest} {id : Nat}
    (class_ : Classed alive asks landed (attemptsOf lines) x (.absorbed id)) : ∃ y, y.id = id ∧
      Step alive asks lines landed x y ∧ Absorbs alive asks landed x y := by
  cases class_ with
  | absorbed unlanded first =>
    have absorbed := Classed.absorbed unlanded first
    obtain ⟨before, y, after, parted, rfl, absorbs, -⟩ := first
    have mem : y ∈ attemptsOf lines := by
      rw [parted]
      simp
    exact ⟨y, rfl, ⟨mem, absorbs.later, absorbed⟩, absorbs⟩

theorem step_absorbs {x y : Attempt digest} (step : Step alive asks lines landed x y) :
    Absorbs alive asks landed x y := by
  obtain ⟨mem, -, class_⟩ := step
  obtain ⟨z, same, ⟨z_mem, -, -⟩, absorbs⟩ := step_of class_
  rw [← attempt_unique z_mem mem same]
  exact absorbs

/-- What absorbs an attempt that ended came to the same. -/
theorem absorbs_outcome {x y : Attempt digest} {e : End digest} (absorbs : Absorbs alive asks landed x y)
    (ended : x.ended = some e) : ∃ f, y.ended = some f ∧ f.verdict = e.verdict ∧
      f.metricsHash = e.metricsHash := by
  obtain ⟨f, y_ended, ⟨e', ended', -, hashes, verdicts, -⟩ | gone⟩ := absorbs.outcome
  · obtain rfl := Option.some.inj (ended.symm.trans ended')
    exact ⟨f, y_ended, verdicts, hashes⟩
  · rw [gone.1] at ended
    cases ended

theorem absorbs_result {x y : Attempt digest} {r : Result} (absorbs : Absorbs alive asks landed x y)
    (result : x.result = some r) : y.result = some r := by
  cases ended : x.ended with
  | none =>
    rw [Attempt.result, ended] at result
    cases result
  | some e =>
    obtain ⟨f, y_ended, verdicts, hashes⟩ := absorbs_outcome absorbs ended
    rw [Attempt.result, ended] at result
    rw [Attempt.result, y_ended, ← result]
    simp only [Option.bind_some, verdicts, hashes, absorbs.arguments, absorbs.spec]

theorem chain_result {x y : Attempt digest} {r : Result}
    (chain : Relation.ReflTransGen (Step alive asks lines landed) x y) (result : x.result = some r) :
    y.result = some r := by
  induction chain with
  | refl => exact result
  | tail _ step ih => exact absorbs_result (step_absorbs step) ih

theorem decided_runs {e : End digest} (decided : e.verdict ≠ none) : e.stop = none ∧ e.failed = none ∧
    e.metrics.isSome = true := by
  have one := e.one
  have held := e.held
  cases verdict : e.verdict with
  | none => exact absurd verdict decided
  | some v =>
    rw [verdict] at one
    cases stop : e.stop with
    | some s =>
      cases failed : e.failed <;> simp [stop, failed] at one
    | none =>
      cases failed : e.failed with
      | some f => simp [stop, failed] at one
      | none =>
        rw [failed] at held
        exact ⟨rfl, rfl, held⟩

theorem fewer_above {x y : Attempt digest} (later : x.id < y.id) (mem : y ∈ attemptsOf lines) :
    ((attemptsOf lines).filter fun z => y.id < z.id).length <
      ((attemptsOf lines).filter fun z => x.id < z.id).length := by
  have within : (attemptsOf lines).filter (fun z => y.id < z.id) =
      ((attemptsOf lines).filter fun z => x.id < z.id).filter fun z => y.id < z.id := by
    rw [List.filter_filter]
    apply List.filter_congr
    intro z _
    by_cases above : y.id < z.id
    · simp [above, later.trans above]
    · simp [above]
  rw [within, List.length_filter_lt_length_iff_exists]
  exact ⟨y, List.mem_filter.mpr ⟨mem, decide_eq_true later⟩, by simp⟩

theorem orphan_there {x : Attempt digest} {e : End digest} (mem : x ∈ attemptsOf lines)
    (ended : x.ended = some e) (class_ : Classed alive asks landed (attemptsOf lines) x .orphan) :
    ∃ o ∈ (reconcile alive asks lines landed).orphans, o.ref = x.ref asks.logId ∧ o.verdict = e.verdict ∧
      o.metrics.map digest = e.metricsHash := by
  obtain ⟨carried, found, -⟩ := reconcile_orphans alive asks lines landed
  refine ⟨x.orphan asks.logId, ?_, rfl, ?_, ?_⟩
  · rw [found]
    apply List.mem_append_left
    exact List.mem_map.mpr ⟨x, List.mem_filter.mpr ⟨mem, isOrphan_iff.mpr class_⟩, rfl⟩
  · simp [Attempt.orphan, ended]
  · simp [Attempt.orphan, ended, e.hashed]

/-- An attempt with a verdict leads to its own run, to one that landed, or to an orphan. -/
theorem chain_ends (unheld : asks.hold = none) {x : Attempt digest} (mem : x ∈ attemptsOf lines)
    {e : End digest} (ended : x.ended = some e) (decided : e.verdict ≠ none) :
    ∃ y f, Relation.ReflTransGen (Step alive asks lines landed) x y ∧ y ∈ attemptsOf lines ∧
      y.ended = some f ∧ f.verdict = e.verdict ∧ f.metricsHash = e.metricsHash ∧
        (asks.own = some y.id ∨ y.ref asks.logId ∈ landedIds landed ∨ ∃ o ∈ (reconcile alive asks lines
          landed).orphans, o.ref = y.ref asks.logId ∧ o.verdict = e.verdict ∧
            o.metrics.map digest = e.metricsHash) := by
  -- fewer attempts are above the absorber of one than above it
  generalize left : ((attemptsOf lines).filter fun z => x.id < z.id).length = n
  induction n using Nat.strong_induction_on generalizing x e with
  | _ n ih =>
    obtain ⟨c, class_⟩ : ∃ c, Classed alive asks landed (attemptsOf lines) x c := ⟨_, classOf_classed⟩
    cases class_ with
    | own mine => exact ⟨x, e, .refl, mem, ended, rfl, rfl, .inl mine.symm⟩
    | landed _ named => exact ⟨x, e, .refl, mem, ended, rfl, rfl, .inr (.inl named)⟩
    | absorbed unlanded first =>
      obtain ⟨y, -, step, absorbs⟩ := step_of (.absorbed unlanded first)
      obtain ⟨f, y_ended, verdicts, hashes⟩ := absorbs_outcome absorbs ended
      have fewer := fewer_above step.2.1 step.1
      rw [left] at fewer
      obtain ⟨z, g, chain, z_mem, z_ended, same_verdict, same_hash, ends⟩ :=
        ih _ fewer step.1 y_ended (verdicts ▸ decided) rfl
      rw [verdicts, hashes] at ends
      exact ⟨z, g, .head step chain, z_mem, z_ended, same_verdict.trans verdicts,
        same_hash.trans hashes, ends⟩
    | idle _ _ _ idle =>
      obtain ⟨e', ended', stopped⟩ := idle
      obtain rfl := Option.some.inj (ended.symm.trans ended')
      obtain ⟨stop, failed, -⟩ := decided_runs decided
      rcases stopped with some_stop | some_failed
      · exact absurd stop some_stop
      · exact absurd failed some_failed
    | held _ _ _ held =>
      have asked := held.1
      rw [unheld] at asked
      cases asked
    | orphan unlanded alone counts free =>
      have there := orphan_there mem ended (.orphan unlanded alone counts free)
      exact ⟨x, e, .refl, mem, ended, rfl, rfl, .inr (.inr there)⟩

/- The counts. -/

def familyOrphans (alive : Begin → Bool) (asks : Asks) (lines : List (Line digest)) (landed : Landed M)
    (family : String) : List (Attempt digest) :=
  (attemptsOf lines).filter fun y => isOrphan alive asks lines landed y && y.began.family = family

def familyRuns (asks : Asks) (lines : List (Line digest)) (landed : Landed M) (family : String) :
    List (Attempt digest) :=
  (attemptsOf lines).filter fun y => landed.records.any fun record => record.family = family &&
    record.reference.map Reference.ref = some (y.ref asks.logId)

theorem familyOrphans_length (family : String) :
    (familyOrphans alive asks lines landed family).length ≤
      (reconcile alive asks lines landed).orphans.countP fun orphan => orphan.family = family := by
  obtain ⟨carried, found, -⟩ := reconcile_orphans alive asks lines landed
  have counted : (familyOrphans alive asks lines landed family).length =
      (((attemptsOf lines).filter (isOrphan alive asks lines landed)).map fun x =>
        x.orphan asks.logId).countP fun orphan => orphan.family = family := by
    rw [List.countP_map, List.countP_filter, List.countP_eq_length_filter]
    congr 1
    apply List.filter_congr
    intro y _
    exact Bool.and_comm _ _
  rw [found, List.countP_append, counted]
  exact Nat.le_add_right _ _

/-- A record is of one attempt, so the attempts that records ran are no more than the records. -/
theorem familyRuns_length (family : String) : (familyRuns asks lines landed family).length ≤
    landed.records.countP fun record => record.family = family := by
  have distinct : ((familyRuns asks lines landed family).map fun y => y.ref asks.logId).Nodup :=
    (refs_nodup lines asks.logId).sublist (List.filter_sublist.map _)
  have named : (familyRuns asks lines landed family).map (fun y => y.ref asks.logId) ⊆
      (landed.records.filter fun record => record.family = family).filterMap fun record =>
        record.reference.map Reference.ref := by
    intro ref mem
    obtain ⟨y, listed, rfl⟩ := List.mem_map.mp mem
    have ran := (List.mem_filter.mp listed).2
    rw [List.any_eq_true] at ran
    obtain ⟨record, record_mem, holds⟩ := ran
    simp only [Bool.and_eq_true, decide_eq_true_eq] at holds
    exact List.mem_filterMap.mpr ⟨record, List.mem_filter.mpr ⟨record_mem, by simp [holds.1]⟩, holds.2⟩
  calc (familyRuns asks lines landed family).length
      = ((familyRuns asks lines landed family).map fun y => y.ref asks.logId).length := by
        rw [List.length_map]
    _ ≤ _ := (List.subperm_of_subset distinct named).length_le
    _ ≤ (landed.records.filter fun record => record.family = family).length :=
        List.length_filterMap_le _ _
    _ = landed.records.countP fun record => record.family = family :=
        List.countP_eq_length_filter.symm

theorem counts_listed {family : String} {y : Attempt digest} (mem : y ∈ attemptsOf lines)
    (counts : CountsFor alive asks lines landed family y) :
    y ∈ familyOrphans alive asks lines landed family ++ familyRuns asks lines landed family := by
  rw [List.mem_append]
  rcases counts with ⟨orphan, same⟩ | ⟨record, record_mem, same, ran⟩
  · refine .inl (List.mem_filter.mpr ⟨mem, ?_⟩)
    rw [isOrphan_iff.mpr orphan, same]
    simp
  · refine .inr (List.mem_filter.mpr ⟨mem, ?_⟩)
    rw [List.any_eq_true]
    exact ⟨record, record_mem, by simp [same, ran]⟩

theorem results_required {family : String} {results : List Result} (distinct : results.Nodup)
    (counted : ∀ r ∈ results, ∃ x ∈ attemptsOf lines, x.result = some r ∧ ∃ y ∈ attemptsOf lines,
      Relation.ReflTransGen (Step alive asks lines landed) x y ∧
        CountsFor alive asks lines landed family y) :
    results.length + 1 ≤ (reconcile alive asks lines landed).requiredN family := by
  have named : results ⊆ (familyOrphans alive asks lines landed family ++
      familyRuns asks lines landed family).filterMap Attempt.result := by
    intro r mem
    obtain ⟨x, -, result, y, y_mem, chain, counts⟩ := counted r mem
    exact List.mem_filterMap.mpr ⟨y, counts_listed y_mem counts, chain_result chain result⟩
  have few := (List.subperm_of_subset distinct named).length_le.trans (List.length_filterMap_le _ _)
  rw [List.length_append] at few
  have orphans : (familyOrphans alive asks lines landed family).length ≤ _ := familyOrphans_length family
  have runs : (familyRuns asks lines landed family).length ≤ _ := familyRuns_length family
  have records : (reconcile alive asks lines landed).records = landed.records := rfl
  unfold Count.requiredN
  rw [records]
  omega

/-- For every log, all that landed and whatever is asked, the count accounts for the log. -/
theorem reconcile_accounts (alive : Begin → Bool) (asks : Asks) (lines : List (Line digest))
    (landed : Landed M) : Accounts alive asks lines landed (reconcile alive asks lines landed) where
  classes x _ := ⟨classOf alive asks landed (attemptsOf lines) x, classOf_classed,
    fun _ other => (classed_iff.mp other).symm⟩
  orphans _ mem := orphans_local mem
  distinct := orphans_distinct
  unlanded := orphans_unlanded
  absorbs := absorbs_own
  absorbs_once := absorbs_nodup
  represented unheld _ mem _ ended decided := chain_ends unheld mem ended decided
  required _ _ distinct counted := results_required distinct counted

end

/- What landed is taken at its word. -/

section

def familyResults {M : Type} {digest : M → String} (lines : List (Line digest)) (family : String) :
    List Result :=
  (((attemptsOf lines).filter fun x => x.began.family = family).filterMap Attempt.result).dedup

def lineHash (digit : Char) : String := String.ofList (List.replicate 64 digit)

def hourlyRun (attempt : Nat) (digit : Char) : Begin where
  attempt := attempt
  pid := 7
  boot := "b"
  invocation := ⟨⟨"b1-hourly", "ohlc", none, none, false, none⟩, "c"⟩
  specHash := lineHash 'a'
  family := "B1"
  lineHash := lineHash digit

def hourlyEnd (attempt : Nat) (verdict metrics : String) : End (id : String → String) :=
  ⟨attempt, some verdict, none, none, some metrics, some metrics, by rfl, rfl, rfl⟩

/-- Two runs of the same arguments that came to different numbers. -/
def twoRuns : List (Line (id : String → String)) :=
  [.genesis, .begins (hourlyRun 1 '1'), .begins (hourlyRun 2 '2'), .ends (hourlyEnd 2 "reject" "low"),
    .ends (hourlyEnd 1 "adopt" "high")]

def hourlyLog : String := String.ofList (List.replicate 32 '0')

/-- The record of the second run, which absorbed the first before its end. -/
def secondLanded : Landed String :=
  ⟨[⟨1, "B1", lineHash 'f', some ⟨⟨⟨hourlyLog, 2, lineHash '2', [⟨1, lineHash '1'⟩]⟩, []⟩,
    by decide +kernel⟩⟩], []⟩

def nothingLanded : Landed String := ⟨[], []⟩

/-- A result is not counted that a landed record absorbs, nor one of the run that asks, which is the one
    that is added. -/
theorem results_uncounted :
    (verifyChain twoRuns = true ∧ (reconcile (fun _ => false) ⟨hourlyLog, none, none, true⟩ twoRuns
      secondLanded).requiredN "B1" < (familyResults twoRuns "B1").length + 1) ∧
    (reconcile (fun _ => false) ⟨hourlyLog, some 1, none, true⟩ twoRuns nothingLanded).requiredN "B1" <
      (familyResults twoRuns "B1").length + 1 := by
  decide +kernel

end

end Reconcile
