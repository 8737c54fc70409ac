import Zcrypto.Engine.Runs

/- The daily loss hold, once a draft record carries it: every later mark and every later
   derivation of the date reads that record, or one that took its place and kept its hold. -/
namespace DayLoss
open ProbePlans ExecGate ExecLedger LedgerLaws Effects Effects.Prog Controller Orders
  OrderEvents Sweeps Pickup CyclePlan Timer Footprint

/-- Figures that mark equity carry the hold. -/
def Holding (f : Figures) : Prop := f.equityEur.isSome → f.dayLossHold = some true

/-- The record marked equity, and it holds its date. -/
structure Latches (r : DraftRecord) : Prop where
  marked : r.figures.equityEur.isSome
  held : dayLossHeld [r] = true

/-- The hold stands on the record of boundary `c`, of the series that began at `start`: no draft in
    flight minted the series or is of an earlier boundary or another date, and one of `c` itself
    carries the hold in whatever it marked. -/
structure Recorded (start c : Int) (seriesStart : Option Int) (drafts : List (Int × DraftRecord))
    (pending : Option PendingDraft) (derived hold : Bool) : Prop where
  series : seriesStart = some start
  record : ∃ r, drafts.lookup c = some r ∧ Latches r
  pending : ∀ w, pending = some w → w.mintedSeries = false ∧ c ≤ w.boundary ∧
    dayOfBoundary w.boundary = dayOfBoundary c ∧
    (w.boundary = c → ∀ f, w.marked = some f → Holding f)
  hold : derived = true → hold = true

abbrev HoldStands (start c : Int) (s : St) : Prop :=
  Recorded start c s.disk.seriesStart s.disk.drafts s.drafting.pendingDraft
    s.holds.dayLossHoldDerived s.holds.dayLossHold

/-- An instant of the record's date, no earlier than its boundary. -/
structure OnDate (c t : Int) : Prop where
  past : instantOf c ≤ t
  date : dayOf t = dayOfBoundary c

/-- Every answer of the clock since the `first` is of the date. -/
def Dated (e : Env) (first c : Int) (asks : Nat) : Prop :=
  ∀ k : Nat, first ≤ k → k < asks → OnDate c (e.clock k)

/-- What a run keeps for as long as the date lasts, with `P` a fact of what it read. -/
def Kept (e : Env) (first start c : Int) (P : Prop) (s : St) : Prop :=
  first ≤ s.asks ∧ (Dated e first c s.asks → P ∧ HoldStands start c s)

/-- What a process that died leaves of it: the disk's part. -/
def Left (e : Env) (first start c : Int) (s : St) : Prop :=
  first ≤ s.asks ∧ (Dated e first c s.asks → s.disk.seriesStart = some start ∧
    ∃ r, s.disk.drafts.lookup c = some r ∧ Latches r)

-- the records

theorem mem_recordsSince {drafts : List (Int × DraftRecord)} {since until_ c : Int} {r : DraftRecord}
    (held : drafts.lookup c = some r) (lower : since ≤ instantOf c) (upper : instantOf c ≤ until_) :
    (c, r) ∈ recordsSince drafts since until_ := by
  obtain ⟨before, after, rfl, -⟩ := List.lookup_eq_some_iff.mp held
  simp [recordsSince, lower, upper]

theorem dayLossHeld_of_mem {records : List DraftRecord} {r : DraftRecord} (mem : r ∈ records)
    (held : dayLossHeld [r] = true) : dayLossHeld records = true := by
  unfold dayLossHeld at *
  rw [List.any_eq_true]
  refine ⟨r, mem, ?_⟩
  simpa using held

theorem midnight_le {c t : Int} (date : dayOf t = dayOfBoundary c) : midnight t ≤ instantOf c := by
  simp only [midnight, instantOf, dayOfBoundary, hoursPerDay, hour, minute, second] at *
  omega

theorem dayOf_instantOf (b : Int) : dayOf (instantOf b) = dayOfBoundary b := by
  simp only [dayOf, hourOf, instantOf, dayOfBoundary, hoursPerDay, hour, minute, second]
  omega

theorem lookup_others {α : Type} (xs : List (Int × α)) {b c : Int} (other : c ≠ b) :
    (xs.filter fun d => d.1 ≠ b).lookup c = xs.lookup c := by
  induction xs with
  | nil => rfl
  | cons y rest ih =>
    obtain ⟨k, v⟩ := y
    by_cases dropped : k = b
    · subst dropped
      simpa [List.lookup_cons, beq_false_of_ne other] using ih
    · by_cases found : c = k
      · simp [found ▸ other, found]
      · simpa [List.lookup_cons, dropped, beq_false_of_ne found] using ih

theorem lookup_replaced {α : Type} (xs : List (Int × α)) (b c : Int) (x : α) :
    ((b, x) :: xs.filter fun d => d.1 ≠ b).lookup c = if c = b then some x else xs.lookup c := by
  by_cases same : c = b
  · simp [same]
  · rw [if_neg same, List.lookup_cons, beq_false_of_ne same]
    exact lookup_others xs same

-- what every function keeps

section
variable {e : Env} {first start c : Int} {P Q : Prop} {s : St}

theorem Dated.before {asks : Nat} (h : Dated e first c (asks + 1)) : Dated e first c asks := by
  intro k from_ below
  exact h k from_ (Nat.lt_succ_of_lt below)

theorem Kept.mono (h : Kept e first start c P s) (weaker : P → Q) : Kept e first start c Q s := by
  refine ⟨h.1, fun dated => ?_⟩
  exact ⟨weaker (h.2 dated).1, (h.2 dated).2⟩

theorem Kept.learn (h : Kept e first start c P s) (q : P → HoldStands start c s → Q) :
    Kept e first start c (P ∧ Q) s := by
  refine ⟨h.1, fun dated => ?_⟩
  obtain ⟨p, stands⟩ := h.2 dated
  exact ⟨⟨p, q p stands⟩, stands⟩

theorem Kept.left (h : Kept e first start c P s) : Left e first start c s := by
  refine ⟨h.1, fun dated => ?_⟩
  exact ⟨(h.2 dated).2.series, (h.2 dated).2.record⟩

/-- A change of the equity's marks and the draft in flight, which keeps the record. -/
theorem Kept.moved {t : St} (h : Kept e first start c P s) (asks : t.asks = s.asks)
    (moves : P → HoldStands start c s → HoldStands start c t) : Kept e first start c P t := by
  refine ⟨asks ▸ h.1, fun dated => ?_⟩
  rw [asks] at dated
  obtain ⟨p, stands⟩ := h.2 dated
  exact ⟨p, moves p stands⟩

theorem Kept.asked (h : Kept e first start c P s) :
    Kept e first start c P { s with asks := s.asks + 1 } := by
  refine ⟨?_, fun dated => h.2 dated.before⟩
  have := h.1
  push_cast
  omega

theorem kept_latching (e : Env) (first start c : Int) (P : Prop) :
    Latching (Kept e first start c P) (Left e first start c) where
  ask := fun _ h => h.asked
  dies := fun _ h => h.asked.left
  aside := by
    intro s t same h
    unfold Kept HoldStands
    rw [asks_of_trading same.trading, pendingDraft_of_trading same.trading,
      seriesStart_of_guards same.guards, drafts_of_guards same.guards,
      dayLossHold_of_guards same.guards, dayLossHoldDerived_of_guards same.guards]
    exact h
  note := fun _ _ _ h => h
  file := fun _ _ _ h => h
  run := fun _ _ _ h => h
  latch := fun _ h => h
  killFile := fun _ _ h => h

theorem kept_socketFree (e : Env) (first start c : Int) (P : Prop) :
    SocketFree (Kept e first start c P) where
  sockets := fun _ _ h => h
  watched := fun _ _ _ h => h

theorem kept_submits (e : Env) (first start c : Int) (P : Prop) :
    Submits e (Kept e first start c P) (Left e first start c) :=
  (kept_latching e first start c P).submits (fun _ _ h => h) (fun _ _ h => h)

theorem kept_delivery (P : Prop) (n : Nat) (x : Delivery) :
    Leaves e (Kept e first start c P) (Left e first start c) (reenter n x) :=
  (kept_latching e first start c P).keeps_reenter (kept_submits e first start c P) n x

end

/-- A program whose result says more, for as long as the date lasts. -/
def Learns (e : Env) (first start c : Int) (P : Prop) {α : Type} (m : M α) (Q : α → Prop) : Prop :=
  ∀ s, Kept e first start c P s → wp e m
    ⟨fun a => Kept e first start c (P ∧ Q a), Kept e first start c P, Left e first start c⟩ s

section
variable {e : Env} {first start c : Int} {P : Prop} {α β : Type}

theorem learns_bind {m : M α} {k : α → M β} {Q : α → Prop} {R : β → Prop}
    (body : Learns e first start c P m Q) (rest : ∀ a, Learns e first start c (P ∧ Q a) (k a) R) :
    Learns e first start c P (m >>= k) R := by
  intro s h
  rw [wp_bind]
  refine wp_mono (body s h) (fun a t learned => ?_) (fun _ kept => kept) (fun _ left => left)
  exact wp_mono (rest a t learned) (fun _ _ kept => kept.mono fun known => ⟨known.1.1, known.2⟩)
    (fun _ kept => kept.mono And.left) (fun _ left => left)

theorem learns_pure {a : α} {Q : α → Prop} (known : P → Q a) :
    Learns e first start c P (pure a) Q :=
  fun _ h => h.learn fun p _ => known p

theorem learns_keeps {m : M α} (kept : Leaves e (Kept e first start c P) (Left e first start c) m) :
    Learns e first start c P m fun _ => True :=
  fun _ h => kept.elim h (fun _ _ kept => kept.mono fun p => ⟨p, trivial⟩) (fun _ kept => kept)
    (fun _ left => left)

theorem learns_ite {p : Prop} [Decidable p] {m n : M α} {Q : α → Prop}
    (yes : p → Learns e first start c P m Q) (no : ¬p → Learns e first start c P n Q) :
    Learns e first start c P (if p then m else n) Q := by
  split
  · exact yes ‹_›
  · exact no ‹_›

theorem learns_attempt {m : M α} {handler : M α} {Q : α → Prop}
    (body : Learns e first start c P m Q) (caught : Learns e first start c P handler Q) :
    Learns e first start c P (attempt m handler) Q := by
  intro s h
  rw [wp_attempt]
  exact wp_mono (body s h) (fun _ _ kept => kept) (fun t kept => caught t kept) (fun _ left => left)

theorem learns_get {Q : St → Prop} (known : ∀ s, P → HoldStands start c s → Q s) :
    Learns e first start c P Prog.get Q :=
  fun s h => h.learn (known s)

theorem learns_ask (f : Env → Nat → α) : Learns e first start c P (ask f) fun _ => True :=
  learns_keeps ((kept_latching e first start c P).keeps_ask f)

theorem Learns.leaves {m : M α} {Q : α → Prop} (h : Learns e first start c P m Q) :
    Leaves e (Kept e first start c P) (Left e first start c) m :=
  fun s start => wp_mono (h s start) (fun _ _ kept => kept.mono And.left) (fun _ kept => kept)
    (fun _ left => left)

theorem keeps_bind_learned {m : M α} {k : α → M β} {Q : α → Prop}
    (body : Learns e first start c P m Q)
    (rest : ∀ a, Leaves e (Kept e first start c (P ∧ Q a)) (Left e first start c) (k a)) :
    Leaves e (Kept e first start c P) (Left e first start c) (m >>= k) :=
  (learns_bind body fun a => learns_keeps (rest a)).leaves

end

-- the derivation and the records

section
variable {e : Env} {first start c : Int} {P : Prop} (begun : start ≤ instantOf c)

theorem derived_holds {s : St} (h : HoldStands start c s) {t : Int} (on : OnDate c t)
    (begun : start ≤ instantOf c) :
    dayLossHeld ((recordsSince s.disk.drafts (max start (midnight t)) t).map Prod.snd) = true := by
  obtain ⟨r, held, latches⟩ := h.record
  have mem := mem_recordsSince held (max_le begun (midnight_le on.date)) on.past
  exact dayLossHeld_of_mem (List.mem_map.mpr ⟨_, mem, rfl⟩) latches.held

section
include begun

/-- The derivation holds, whether or not the process had derived before. -/
theorem derive_leads {t : Int} (due : P → OnDate c t) {s : St}
    (h : Kept e first start c P { s with holds := { s.holds with dayLossHoldDerived := false } }) :
    wp e (deriveDayLossHold t) (Post.leaving (Kept e first start c P) (Left e first start c)) s := by
  simp only [deriveDayLossHold, CyclePlan.file, wp_attempt, wp_bind, wp_ask, wp_ite, wp_raise, wp_get,
    wp_modify]
  have next := h.asked
  split
  · exact next.left
  · split
    · exact next.moved rfl fun _ stands => { stands with hold := fun _ => rfl }
    · refine next.moved rfl fun known stands => { stands with hold := fun _ => ?_ }
      have series : s.disk.seriesStart = some start := stands.series
      simp only [series]
      exact derived_holds stands (due known) begun

theorem keeps_derive {t : Int} (due : P → OnDate c t) :
    Leaves e (Kept e first start c P) (Left e first start c) (deriveDayLossHold t) := by
  intro s h
  exact derive_leads begun due
    (h.moved rfl fun _ stands => { stands with hold := fun no => by cases no })

theorem keeps_deriveOnce {t : Int} (due : P → OnDate c t) :
    Leaves e (Kept e first start c P) (Left e first start c) (do
      modify fun s : St => { s with holds.dayLossHoldDerived := true }
      deriveDayLossHold t) := by
  intro s h
  rw [wp_bind, wp_modify]
  exact derive_leads begun due
    (h.moved rfl fun _ stands => { stands with hold := fun no => by cases no })

end

theorem dayLossHeld_singleton (r : DraftRecord) : dayLossHeld [r] =
    (r.figures.dayLossBps.any (fun bps => decide (dayLossHoldBps ≤ bps)) ||
      (r.figures.equityEur.isSome && r.dayLossHold)) := by
  simp [dayLossHeld]

/-- A record written over the one that holds keeps its mark, or marks the hold itself. -/
theorem keeps_writeDraftRecord {b t : Int} {status : DraftStatus} {figures : Figures}
    {planId : Option PlanId} (holding : P → b = c → Holding figures) :
    Leaves e (Kept e first start c P) (Left e first start c)
      (writeDraftRecord b t status figures planId) := by
  intro s h
  simp only [writeDraftRecord, CyclePlan.file, wp_attempt, wp_bind, wp_ask, wp_ite, wp_raise, wp_get,
    wp_modify, wp_pure]
  have next := h.asked
  split
  · exact next.left
  · split
    · exact next
    · refine next.moved rfl fun known stands => { stands with record := ?_ }
      obtain ⟨r, held, latches⟩ := stands.record
      rw [lookup_replaced]
      split
      · rename_i same
        subst same
        have holds := holding known rfl
        refine ⟨_, rfl, ?_⟩
        cases equity : figures.equityEur with
        | none =>
          have marked : r.figures.equityEur.isSome = true := latches.marked
          have old := latches.held
          rw [dayLossHeld_singleton] at old
          simp only [held, marked, if_true]
          refine ⟨marked, ?_⟩
          rw [dayLossHeld_singleton]
          exact old
        | some x =>
          have hold : figures.dayLossHold = some true := holds (by rw [equity]; rfl)
          refine ⟨by rw [equity]; rfl, ?_⟩
          rw [dayLossHeld_singleton]
          simp [equity, hold]
      · exact ⟨r, held, latches⟩

/-- The end of a draft writes its own mark, or the mark its record already has. -/
theorem keeps_finishDraft {t : Int} {status : DraftStatus} {figures : Option Figures}
    {planId : Option PlanId} (holding : P → ∀ f, figures = some f → Holding f) :
    Leaves e (Kept e first start c P) (Left e first start c)
      (finishDraft t status figures planId) := by
  refine keeps_get_bind fun s h => ?_
  rw [wp_forSome]
  refine ⟨fun draft pending => ?_, fun _ => h⟩
  let written := ((figures.filter fun f => f.equityEur.isSome).or draft.marked).or figures
  let Q := draft.boundary = c → Holding (written.getD { nav := draft.record.nav })
  have known : Kept e first start c (P ∧ Q) s := by
    refine h.learn fun p stands same => ?_
    obtain ⟨-, -, -, marked⟩ := stands.pending draft pending
    cases own : figures.filter fun f => f.equityEur.isSome with
    | some f =>
      have mem : figures = some f := (Option.filter_eq_some_iff.mp own).1
      simpa [written, own] using holding p f mem
    | none =>
      cases mark : draft.marked with
      | some f => simpa [written, own, mark] using marked same f mark
      | none =>
        cases given : figures with
        | some f =>
          rw [given] at own
          simpa only [written, given, own, mark, Option.or_none, Option.none_or, Option.getD_some]
            using holding p f given
        | none =>
          intro none
          simp [written, mark, given] at none
  have cleared : Leaves e (Kept e first start c (P ∧ Q)) (Left e first start c)
      (modify fun s : St => { s with drafting.pendingDraft := none }) := by
    refine keeps_modify fun u h => ?_
    exact h.moved rfl fun _ stands => { stands with pending := fun w gone => by cases gone }
  have latching := kept_latching e first start c (P ∧ Q)
  have body : Leaves e (Kept e first start c (P ∧ Q)) (Left e first start c) (do
      modify fun s : St => { s with drafting.pendingDraft := none }
      writeDraftRecord draft.boundary t status (written.getD { nav := draft.record.nav }) planId
      attempt (do
        let v ← evaluate t
        commit (writeExecRecord draft.boundary v t)) (pure ())) :=
    keeps_bind cleared fun _ => keeps_bind (keeps_writeDraftRecord fun both => both.2) fun _ =>
      keeps_attempt (keeps_bind (latching.keeps_evaluate _) fun _ =>
        latching.keeps_commit fun _ _ => .verdict) (keeps_pure ())
  exact body.elim known (fun _ _ kept => kept.mono And.left) (fun _ kept => kept.mono And.left)
    (fun _ left => left)

end

-- the marks

/-- A draft of the record's date, no earlier than its boundary, that minted no series. -/
structure DraftOk (c : Int) (draft : PendingDraft) : Prop where
  unminted : draft.mintedSeries = false
  later : c ≤ draft.boundary
  date : dayOfBoundary draft.boundary = dayOfBoundary c

theorem markOf_holds {drafts : List (Int × DraftRecord)} {start c b : Int} {r : DraftRecord}
    (begun : start ≤ instantOf c) (later : c ≤ b) (date : dayOfBoundary b = dayOfBoundary c)
    (held : drafts.lookup c = some r) (latches : Latches r) (equity nav : ℚ) :
    (markOf drafts b start false equity nav).hold = true := by
  have past : instantOf c ≤ instantOf b := by
    simp only [instantOf, hour, minute, second]
    omega
  have found := mem_recordsSince held begun past
  have today : midnight (instantOf b) ≤ instantOf c :=
    midnight_le ((dayOf_instantOf b).trans date)
  have kept : r ∈ (((recordsSince drafts start (instantOf b)).filter fun d =>
      midnight (instantOf b) ≤ instantOf d.1).map Prod.snd) :=
    List.mem_map.mpr ⟨_, List.mem_filter.mpr ⟨found, by simpa using today⟩, rfl⟩
  simp [markOf, dayLossHeld_of_mem kept latches.held]

section
variable {e : Env} {first start c : Int} {P : Prop}

theorem learns_gets {α : Type} {f : St → α} {Q : α → Prop}
    (known : ∀ s, P → HoldStands start c s → Q (f s)) : Learns e first start c P (gets f) Q :=
  fun s h => h.learn (known s)

theorem learns_raise {α : Type} {Q : α → Prop} :
    Learns e first start c P (raise : M α) Q :=
  fun _ h => h

theorem learns_file {α : Type} {act : M α} {Q : α → Prop}
    (body : Learns e first start c P act Q) : Learns e first start c P (CyclePlan.file act) Q := by
  intro s h
  have latching := kept_latching e first start c P
  simp only [CyclePlan.file, wp_bind, wp_ask, wp_ite, wp_raise]
  split
  · exact latching.dies s h
  · split
    · exact latching.ask s h
    · exact body _ (latching.ask s h)

section
variable (begun : start ≤ instantOf c) {deliver : Delivery → M Unit}
  (kills : ∀ P, Kills e (Kept e first start c P) (Left e first start c) deliver)
include begun kills

theorem learns_markPriced {draft : PendingDraft} (ok : P → DraftOk c draft) (equity nav : ℚ) :
    Learns e first start c P (markPriced deliver draft equity nav) Holding := by
  refine learns_bind (learns_file (learns_gets (Q := fun x => x = some start)
    fun s _ stands => stands.series)) fun read => ?_
  refine learns_bind (learns_file (learns_gets
    (Q := fun drafts => ∃ r, drafts.lookup c = some r ∧ Latches r)
    fun s _ stands => stands.record)) fun drafts => ?_
  let mark := markOf drafts draft.boundary (read.getD 0) (read.isNone || draft.mintedSeries) equity nav
  have holds (known : (P ∧ read = some start) ∧ ∃ r, drafts.lookup c = some r ∧ Latches r) :
      mark.hold = true := by
    obtain ⟨⟨p, rfl⟩, r, held, latches⟩ := known
    have draftOk := ok p
    simpa [mark, draftOk.unminted] using
      markOf_holds begun draftOk.later draftOk.date held latches equity nav
  have minting : Leaves e (Kept e first start c ((P ∧ read = some start) ∧
        ∃ r, drafts.lookup c = some r ∧ Latches r)) (Left e first start c)
      (when (read = none) (mintSeriesStart draft.boundary)) := by
    intro s h
    rw [wp_when]
    split
    · rename_i absent
      have never : Kept e first start c False s := h.mono fun known => by
        cases absent.symm.trans known.1.2
      have latching := kept_latching e first start c False
      have body : Leaves e (Kept e first start c False) (Left e first start c)
          (mintSeriesStart draft.boundary) :=
        keeps_bind (latching.keeps_fileAct (keeps_modify fun u h => h.moved rfl False.elim))
          fun _ => keeps_modify fun u h => h.moved rfl False.elim
      exact body.elim never (fun _ _ kept => kept.mono False.elim) (fun _ kept => kept.mono False.elim)
        (fun _ left => left)
    · exact h
  have holding {Q : Prop} (q : Q → mark.hold = true) : Leaves e (Kept e first start c Q)
      (Left e first start c) (modify fun s : St => { s with holds.dayLossHold := mark.hold }) := by
    refine keeps_modify fun s h => ?_
    exact h.moved rfl fun known stands => { stands with hold := fun _ => q known }
  refine learns_bind (learns_keeps minting) fun _ =>
    learns_bind (learns_keeps (holding fun known => holds known.1)) fun _ => ?_
  refine learns_bind (learns_get (Q := fun _ => True) fun _ _ _ => trivial) fun s => ?_
  refine learns_bind (learns_keeps (keeps_when (kills _ _))) fun _ => learns_pure fun known _ => ?_
  exact congrArg some (holds known.1.1.1.1)

theorem learns_markEquity {draft : PendingDraft} (ok : P → DraftOk c draft) (book : VenueBook) :
    Learns e first start c P (markEquity deliver book draft) Holding := by
  refine learns_bind (learns_get (Q := fun _ => True) fun _ _ _ => trivial) fun s => ?_
  rcases bookCoinEur book draft.record.closes with _ | coin
  · exact learns_pure fun _ none => by cases none
  · rcases draft.record.nav with _ | nav
    · exact learns_pure fun _ none => by cases none
    · exact learns_ite (fun _ => learns_raise)
        (fun _ => learns_markPriced begun kills (fun known => ok known.1) _ _)

-- the draft

end

/-- What a draft ends on carries the hold where it marks equity. -/
def Drafted.Holds : Drafted → Prop
  | .finished _ figures _ | .retry _ figures => Holding figures
  | .waiting => True

/-- An edit of the draft in flight that leaves it the draft it is. -/
theorem keeps_editDraft {f : PendingDraft → PendingDraft}
    (same : ∀ d, (f d).boundary = d.boundary ∧ (f d).mintedSeries = d.mintedSeries)
    (marks : P → ∀ d m, (f d).marked = some m → d.marked = some m ∨ Holding m) :
    Leaves e (Kept e first start c P) (Left e first start c) (editDraft f) := by
  refine keeps_modify fun s h => h.moved rfl fun known stands => { stands with pending := ?_ }
  intro w edited
  obtain ⟨old, held, rfl⟩ := Option.map_eq_some_iff.mp edited
  obtain ⟨unminted, later, date, marked⟩ := stands.pending old held
  rw [(same old).1, (same old).2]
  refine ⟨unminted, later, date, fun own m mark => ?_⟩
  rcases marks known old m mark with kept | holding
  · exact marked own m kept
  · exact holding

theorem keeps_spendDraftTry {t : Int} {status : DraftStatus} {figures : Figures}
    (holding : P → Holding figures) : Leaves e (Kept e first start c P) (Left e first start c)
      (spendDraftTry t status figures) :=
  keeps_bind (keeps_editDraft (fun _ => ⟨rfl, rfl⟩) fun _ _ _ mark => .inl mark) fun _ =>
    keeps_bind keeps_get fun _ => keeps_when (keeps_finishDraft fun known f own => by
      cases own
      exact holding known)

theorem accepts_kept : Accepts (Kept e first start c P) := fun _ _ _ _ _ _ _ h => h

section
variable (begun : start ≤ instantOf c) {deliver : Delivery → M Unit}
  (kills : ∀ P, Kills e (Kept e first start c P) (Left e first start c) deliver)
include begun kills

theorem learns_draftOnce {draft : PendingDraft} (ok : P → DraftOk c draft) (t : Int) :
    Learns e first start c P (draftOnce deliver t draft) Drafted.Holds := by
  have bare : Holding { nav := draft.record.nav } := by
    intro none
    cases none
  refine learns_bind (learns_ask _) fun read => ?_
  rcases read with _ | book
  · exact learns_pure fun _ => bare
  refine learns_bind (learns_keeps ((kept_latching e first start c _).keeps_aside fun _ => ⟨rfl, rfl⟩))
    fun _ => ?_
  refine learns_bind (Q := fun marked => ∀ f, marked = some f → Holding f) ?_ fun marked => ?_
  · refine learns_attempt (learns_bind (learns_markEquity begun kills (fun known => ok known.1.1) book)
      fun f => learns_pure fun known g same => ?_) (learns_pure fun _ g none => by cases none)
    cases same
    exact known.2
  rcases marked with _ | mark
  · exact learns_pure fun _ => bare
  let figures : Figures := { mark with
    nav := draft.record.nav, eurTotal := some book.eurTotal, eurFree := some book.eurFree }
  have holding {Q : Prop} (known : Q ∧ ∀ f, some mark = some f → Holding f) : Holding figures :=
    known.2 mark rfl
  refine learns_bind (learns_keeps (keeps_when (keeps_editDraft (fun _ => ⟨rfl, rfl⟩)
    fun known d m set => .inr ?_))) fun _ => ?_
  · cases set
    exact holding known
  refine learns_ite (fun _ => learns_pure fun known => holding known.1) fun _ => ?_
  refine learns_bind (learns_ask _) fun table => ?_
  rcases table with _ | _ | legs
  · exact learns_pure fun known => holding known.1.1
  · exact learns_pure fun known => holding known.1.1
  rcases drafted : draftedPlan draft.boundary t legs with _ | p <;> simp only [drafted]
  · exact learns_pure fun known => holding known.1.1
  have latching := kept_latching e first start c
  refine learns_bind (learns_keeps ((latching _).keeps_moved fun _ => ⟨rfl, .inl rfl⟩)) fun _ => ?_
  refine learns_bind (learns_keeps (keeps_attempt (keeps_bind
    ((latching _).keeps_accept accepts_kept p _ _ _) fun _ => keeps_pure _) (keeps_pure _)))
    fun outcome => ?_
  rcases outcome with _ | _ | _ | _
  · exact learns_pure fun known => holding known.1.1.1.1
  · exact learns_pure fun known => holding known.1.1.1.1
  · exact learns_pure fun _ => trivial
  · exact learns_bind (learns_keeps ((latching _).keeps_tryScan _)) fun _ =>
      learns_pure fun known => holding known.1.1.1.1.1

theorem keeps_draftCyclePlan (t : Int) :
    Leaves e (Kept e first start c P) (Left e first start c) (draftCyclePlan deliver t) := by
  refine keeps_get_bind fun s h => ?_
  rw [wp_forSome]
  refine ⟨fun draft pending => ?_, fun _ => h⟩
  have known : Kept e first start c (P ∧ DraftOk c draft) s := by
    refine h.learn fun _ stands => ?_
    obtain ⟨unminted, later, date, -⟩ := stands.pending draft pending
    exact ⟨unminted, later, date⟩
  have latching := kept_latching e first start c (P ∧ DraftOk c draft)
  refine Leaves.elim (i := Kept e first start c (P ∧ DraftOk c draft)) (d := Left e first start c) ?_ known
    (fun _ _ kept => kept.mono And.left) (fun _ kept => kept.mono And.left) (fun _ left => left)
  refine keeps_ite (fun _ => keeps_finishDraft fun _ _ none => by cases none) fun _ =>
    keeps_bind latching.keeps_nothingInFlight fun _ => keeps_when
      (keeps_bind_learned (learns_draftOnce begun kills And.right t) fun drafted => ?_)
  cases drafted with
  | waiting => exact keeps_pure ()
  | retry status figures => exact keeps_spendDraftTry fun known => known.2
  | finished status figures planId =>
    refine keeps_finishDraft fun known f own => ?_
    cases own
    exact known.2

omit begun kills in
/-- A draft armed is of the record's date and no earlier than its boundary. -/
theorem keeps_armCycleDraft {b : Int}
    (due : P → c ≤ b ∧ dayOfBoundary b = dayOfBoundary c) :
    Leaves e (Kept e first start c P) (Left e first start c) (armCycleDraft b) := by
  have latching := kept_latching e first start c P
  refine keeps_bind (latching.keeps_aside fun _ => ⟨rfl, rfl⟩) fun _ => keeps_bind (keeps_env _)
    fun _ => keeps_when (keeps_bind latching.keeps_now fun t =>
      keeps_bind (keeps_finishDraft fun _ _ none => by cases none) fun _ =>
      keeps_bind (latching.keeps_ask _) fun read => ?_)
  rcases read.join with _ | record
  · exact keeps_writeDraftRecord fun _ _ none => by cases none
  · refine keeps_modify fun s h => h.moved rfl fun known stands => { stands with pending := ?_ }
    intro w armed
    cases armed
    exact ⟨rfl, (due known).1, (due known).2, fun _ m none => by cases none⟩

omit begun kills in
theorem boundaryAt_due {t : Int} (aligned : c % boundaryHours = 0) (on : OnDate c t) :
    c ≤ boundaryAt t ∧ dayOfBoundary (boundaryAt t) = dayOfBoundary c := by
  obtain ⟨past, date⟩ := on
  simp only [instantOf, boundaryAt, dayOf, hourOf, dayOfBoundary, boundaryHours, hoursPerDay, hour,
    minute, second] at *
  omega

theorem keeps_takePlan {t : Int} (aligned : c % boundaryHours = 0) (on : P → OnDate c t) :
    Leaves e (Kept e first start c P) (Left e first start c) (takePlan deliver t) := by
  have latching := kept_latching e first start c P
  have rearming : Leaves e (Kept e first start c P) (Left e first start c) (rearmCycleDraft t) :=
    keeps_bind (latching.keeps_aside fun _ => ⟨rfl, rfl⟩) fun _ => keeps_bind keeps_get fun _ =>
      keeps_when (keeps_bind (latching.keeps_ask _) fun _ => keeps_bind (latching.keeps_ask _) fun _ =>
        keeps_when (keeps_armCycleDraft fun known => boundaryAt_due aligned (on known)))
  have picking : Leaves e (Kept e first start c P) (Left e first start c) (pickup t) :=
    latching.keeps_pickup fun p => latching.keeps_accept accepts_kept p _ _ _
  exact keeps_bind keeps_get fun _ => keeps_when (keeps_bind (keeps_when rearming) fun _ =>
    keeps_bind keeps_get fun _ => keeps_bind (keeps_when (keeps_draftCyclePlan begun kills t)) fun _ =>
    keeps_bind keeps_get fun _ => keeps_when picking)

theorem keeps_onBoundary {b : Int} (later : c ≤ b) (date : dayOfBoundary b = dayOfBoundary c) :
    Leaves e (Kept e first start c P) (Left e first start c) (onBoundary deliver b) := by
  have latching := kept_latching e first start c P
  have on : OnDate c (instantOf b) := by
    refine ⟨?_, (dayOf_instantOf b).trans date⟩
    simp only [instantOf, hour, minute, second]
    omega
  exact keeps_bind (keeps_attempt (keeps_bind latching.keeps_now fun _ =>
    keeps_bind (keeps_derive begun fun _ => on) fun _ => keeps_bind (latching.keeps_evaluate _) fun _ =>
    keeps_bind (latching.keeps_commit fun _ _ => .verdict) fun _ =>
    latching.keeps_evaluateTracking (kills P)) (keeps_pure ())) fun _ =>
    keeps_armCycleDraft fun _ => ⟨later, date⟩

omit begun kills in
/-- The tick's own instant is an answer of the clock. -/
theorem learns_now : Learns e first start c P now fun t => OnDate c t := by
  intro s h
  rw [wp_now]
  have next := h.asked
  split
  · exact next.left
  · refine ⟨next.1, fun dated => ?_⟩
    obtain ⟨known, stands⟩ := next.2 dated
    exact ⟨⟨known, dated s.asks h.1 (Nat.lt_succ_self _)⟩, stands⟩

theorem keeps_onTimer (aligned : c % boundaryHours = 0)
    (hd : ∀ P x, Leaves e (Kept e first start c P) (Left e first start c) (deliver x)) :
    Leaves e (Kept e first start c P) (Left e first start c) (onTimer deliver) := by
  refine keeps_bind_learned learns_now fun t => ?_
  have latching := kept_latching e first start c (P ∧ OnDate c t)
  have sockets := kept_socketFree e first start c (P ∧ OnDate c t)
  have submits := kept_submits e first start c (P ∧ OnDate c t)
  have passing : Leaves e (Kept e first start c (P ∧ OnDate c t)) (Left e first start c)
      (passes deliver t) :=
    latching.keeps_passes (kills _) (hd _) (keeps_deriveOnce begun And.right)
      (latching.keeps_liftFreeze sockets) (latching.keeps_freeze sockets (hd _))
      (latching.keeps_rereadPass (kills _) sockets t)
  exact keeps_attempt (keeps_bind passing fun _ =>
    keeps_bind (keeps_takePlan begun kills aligned And.right) fun _ =>
    keeps_bind (latching.keeps_pump (hd _) (kills _) submits (fun _ _ _ h => h) t) fun _ =>
    latching.keeps_refreshGate t) latching.keeps_dropPlan

end

-- the run

/-- An input of the date: no alert is of an earlier boundary or another date, and the operator
    leaves the series alone. -/
structure Within (c : Int) (x : Input) : Prop where
  alert : ∀ b, x = .boundary b → c ≤ b ∧ dayOfBoundary b = dayOfBoundary c
  series : x ≠ .clearSeriesStart

theorem kept_react (begun : start ≤ instantOf c) (aligned : c % boundaryHours = 0) {x : Input}
    (within : Within c x) (process : x.needsProcess = true) :
    Leaves e (Kept e first start c True) (Left e first start c) (react x) := by
  have latching := kept_latching e first start c True
  have sockets := kept_socketFree e first start c True
  have submits := kept_submits e first start c True
  have hd (P : Prop) (x : Delivery) :
      Leaves e (Kept e first start c P) (Left e first start c) (reenter e.depth x) :=
    kept_delivery P e.depth x
  have kills (P : Prop) : Kills e (Kept e first start c P) (Left e first start c) (reenter e.depth) :=
    (kept_latching e first start c P).keeps_tripKill (hd P)
  refine latching.keeps_react (hd True) (kills True) submits (keeps_onTimer begun kills aligned hd)
    (latching.keeps_onSocketState sockets) (fun b alert => ?_) process
  obtain ⟨later, date⟩ := within.alert b alert
  exact keeps_onBoundary begun kills later date

/-- A fresh process has derived nothing, and drafts nothing. -/
theorem kept_start {s : St} (h : Left e first start c s) : wp e Timer.start
    (Post.leaving (Kept e first start c True) (Left e first start c)) s := by
  refine (kept_latching e first start c True).starts_fresh ⟨h.1, fun dated => ?_⟩
  obtain ⟨series, record⟩ := h.2 dated
  exact ⟨trivial, ⟨series, record, fun w none => (by cases none), fun no => (by cases no)⟩⟩

theorem kept_taken (begun : start ≤ instantOf c) (aligned : c % boundaryHours = 0) {x : Input}
    (within : Within c x) : Taken e (Kept e first start c True) (Left e first start c) x where
  live := by
    by_cases process : x.needsProcess = true
    · exact kept_react begun aligned within process
    · cases x with
      | start => exact fun s h => kept_start h.left
      | dropFile f => exact keeps_modify fun _ h => h
      | setKillFile text => exact keeps_modify fun _ h => h
      | clearSeriesStart => exact absurd rfl within.series
      | _ => exact absurd rfl process
  starts := fun _ _ h => kept_start h
  operated := by
    intro idle started s h
    cases x with
    | start => exact absurd rfl started
    | dropFile f => exact h
    | setKillFile text => exact h
    | clearSeriesStart => exact absurd rfl within.series
    | _ => cases idle

end

/-- From a state in which the hold stands on a record of boundary `c`, over every run whose
    alerts, clock and operator stay within its date and its series: the record holds on, or one
    that took its place does, and so does every process that has derived the hold. -/
theorem day_loss_hold_stands (e : Env) (n : Node) (xs : List Input) (start c : Int)
    (begun : start ≤ instantOf c) (aligned : c % boundaryHours = 0)
    (series : n.st.disk.seriesStart = some start)
    (record : ∃ r, n.st.disk.drafts.lookup c = some r ∧ Latches r)
    (stands : n.alive = true → HoldStands start c n.st) (within : ∀ x ∈ xs, Within c x)
    (dated : Dated e n.st.asks c (steps e n xs).st.asks) :
    (∃ r, (steps e n xs).st.disk.drafts.lookup c = some r ∧ Latches r) ∧
    ((steps e n xs).alive = true → HoldStands start c (steps e n xs).st) := by
  have run : Stands (Kept e n.st.asks start c True) (Left e n.st.asks start c) (steps e n xs) :=
    stands_steps n xs (fun x mem => kept_taken begun aligned (within x mem)) ⟨fun live => ⟨le_rfl, fun _ => ⟨trivial, stands live⟩⟩, fun _ => ⟨le_rfl, fun _ => ⟨series, record⟩⟩⟩
  refine ⟨?_, fun live => ((run.1 live).2 dated).2⟩
  cases alive : (steps e n xs).alive with
  | true => exact ((run.1 alive).left.2 dated).2
  | false => exact ((run.2 alive).2 dated).2

/- A record of the day's first boundary that marked equity and holds. -/
def heldRecord : DraftRecord :=
  { draftedAt := 0, status := .ok
    figures := { equityEur := some 960, dayLossBps := some 400, dayLossHold := some true }
    dayLossHold := true, planId := none }

def heldHost : Node :=
  idle { plainDisk fun _ => none with drafts := [(0, heldRecord)], seriesStart := some 0 } blankIntent
    fun _ => blankRow

def emptyHost : Node :=
  idle { plainDisk fun _ => none with seriesStart := some 0 } blankIntent fun _ => blankRow

/- The first derivation cannot read its file. -/
def unreadable : Env := { plain with fileFails := fun n => decide (n = 2) }

theorem plain_dated (first : Int) (asks : Nat) (small : asks ≤ 1000) : Dated plain first 0 asks := by
  intro k _ below
  constructor
  · simp only [plain, instantOf, hour, minute, second]
    omega
  · simp only [plain, dayOf, hourOf, dayOfBoundary, hoursPerDay, hour, minute, second]
    omega

theorem heldRecord_latches : Latches heldRecord := ⟨rfl, by decide +kernel⟩

section
attribute [local irreducible] steps

/-- A restart on the date of a record that holds, and a boundary of it. -/
theorem day_loss_hold_stands_restart :
    ∃ r, (steps plain heldHost [.start, .timer, .boundary 4]).st.disk.drafts.lookup 0 = some r ∧
      Latches r :=
  (day_loss_hold_stands plain heldHost [.start, .timer, .boundary 4] 0 0
    (by decide) (by decide) rfl ⟨heldRecord, rfl, heldRecord_latches⟩ (fun live => by cases live)
    (fun x mem => by
      constructor
      · rintro b rfl
        simp at mem
        subst mem
        decide
      · rintro rfl
        simp at mem)
    (plain_dated _ _ (by decide +kernel))).1

/-- The hold of a derivation that could not read its records goes with the next that can. -/
theorem hold_dropped_once_read :
    (steps unreadable emptyHost [.start, .timer]).st.holds.dayLossHold = true ∧
    (steps unreadable emptyHost [.start, .timer, .boundary 0]).st.holds.dayLossHold = false := by
  decide +kernel

end
end DayLoss
