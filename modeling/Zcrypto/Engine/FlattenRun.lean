import Zcrypto.Engine.FlattenPlan

/- What the exit code of the red button says of what was sent and what is left. -/
namespace Flatten
open Effects Effects.Prog ProbePlans Orders Instruments

def Event.writes : Event → Bool
  | .cancel _ | .order .. => true
  | _ => false

def Request.isPositions : Request → Bool
  | .positions _ => true
  | _ => false

def Request.isScoped : Request → Bool
  | .positions (some _) => true
  | _ => false

/-- What a sweep that ends clean may have met after its cancel: no failure, or one of a read for the
    record, or one of a position read that was read again pair by pair. -/
def Event.steppedOver : Event → Bool
  | .read r forRecord failed => !failed || forRecord || r.isPositions
  | .refused r forRecord => forRecord || r.isScoped
  | .cancel _ => false
  | .order .. => true

def Unwritten (t : Tape) : Prop := ∀ ev ∈ t.trace, ev.writes = false

/-- The trace since `older`, every failure of it stepped over. -/
structure Since (older : List Event) (forRecord : Bool) (t : Tape) : Prop where
  flag : t.forRecord = forRecord
  grown : ∃ newer, t.trace = newer ++ older ∧ ∀ ev ∈ newer, ev.steppedOver = true

/-- An assertion that no read and no refusal of an answer breaks. -/
structure Notes (i : Tape → Prop) : Prop where
  failure : ∀ t words, i t → i { t with failure := words }
  read : ∀ t r failed, i t →
    i { t with asks := t.asks + 1, trace := .read r t.forRecord failed :: t.trace }
  refused : ∀ t r, i t → i { t with trace := .refused r t.forRecord :: t.trace }

section
variable {w : World} {i j r d : Tape → Prop} {α : Type} {older : List Event} {listing : Listing}

theorem leads_call {q : Request} {answer : World → Nat → Except String α}
    (answers : ∀ t, i t →
      j { t with asks := t.asks + 1, trace := .read q t.forRecord false :: t.trace })
    (fails : ∀ t words, i t → r { t with
      asks := t.asks + 1, trace := .read q t.forRecord true :: t.trace, failure := words }) :
    Leads w i j r d (call q answer) := by
  intro t start
  simp only [call, wp_bind, wp_gets, wp_env]
  cases answer w t.asks with
  | ok a => exact answers t start
  | error words => exact fails t words start

theorem leads_shape {q : Request} {found : Except String α} (shaped : ∀ t, i t → j t)
    (fails : ∀ t words, i t → r { t with
      trace := .refused q t.forRecord :: t.trace, failure := words }) :
    Leads w i j r d (shape q found) := by
  intro t start
  cases found with
  | ok a => exact shaped t start
  | error words => exact fails t words start

theorem Notes.keeps_call (n : Notes i) (q : Request) (answer : World → Nat → Except String α) :
    Leaves w i d (call q answer) :=
  leads_call (fun t start => n.read t q false start) fun t words start =>
    n.failure _ words (n.read t q true start)

theorem Notes.keeps_shape (n : Notes i) (q : Request) (found : Except String α) :
    Leaves w i d (shape q found) :=
  leads_shape (fun _ start => start) fun t words start => n.failure _ words (n.refused t q start)

theorem Notes.keeps_unreachable (n : Notes i) (words : String) :
    Leaves w i d (unreachable words : Flat α) :=
  keeps_bind (keeps_modify fun t start => n.failure t words start) fun _ => keeps_raise

theorem Notes.keeps_readListing (n : Notes i) : Leaves w i d readListing := by
  apply keeps_bind (n.keeps_call _ _)
  intro rows
  apply keeps_ite
  · exact fun _ => n.keeps_shape _ _
  · intro _
    apply keeps_bind (keeps_env _)
    intro failed
    cases failed with
    | none => exact keeps_pure _
    | some words => exact n.keeps_shape _ _

theorem Notes.keeps_readOpenOrders (n : Notes i) : Leaves w i d readOpenOrders :=
  keeps_bind (n.keeps_call _ _) fun _ => n.keeps_shape _ _

theorem Notes.keeps_readPositions (n : Notes i) : Leaves w i d readPositions :=
  keeps_bind (n.keeps_call _ _) fun _ => n.keeps_shape _ _

theorem Notes.keeps_pairByPair (n : Notes i) (failure : String) (names : List String)
    (readAny : Bool) (rows : List PositionRow) (unread : List Unread) :
    Leaves w i d (pairByPair listing failure names readAny rows unread) := by
  induction names generalizing readAny rows unread with
  | nil =>
    unfold pairByPair
    exact keeps_ite (fun _ => keeps_pure _) fun _ => n.keeps_unreachable _
  | cons name names ih =>
    unfold pairByPair
    split
    · exact ih _ _ _
    · apply keeps_bind
      · apply keeps_attempt _ (keeps_pure _)
        apply keeps_bind (n.keeps_call _ _)
        intro answer
        exact keeps_bind (n.keeps_shape _ _) fun _ => keeps_pure _
      · intro found
        cases found with
        | some read => exact ih _ _ _
        | none =>
          apply keeps_ite
          · exact fun _ => keeps_bind (keeps_gets _) fun _ => ih _ _ _
          · exact fun _ => n.keeps_unreachable _

theorem Notes.keeps_readMarginPositions (n : Notes i) : Leaves w i d (readMarginPositions listing) := by
  apply keeps_bind
  · apply keeps_attempt _ (keeps_pure _)
    exact keeps_bind (n.keeps_call _ _) fun _ => keeps_pure _
  · intro answer
    cases answer with
    | some answer => exact keeps_bind (n.keeps_shape _ _) fun _ => keeps_pure _
    | none => exact keeps_bind (keeps_gets _) fun _ => n.keeps_pairByPair _ _ _ _ _

theorem Notes.keeps_readBalances (n : Notes i) : Leaves w i d readBalances :=
  keeps_bind (n.keeps_call _ _) fun _ => n.keeps_shape _ _

theorem Notes.keeps_readSnapshot (n : Notes i) (beforeTheCancel : Bool) :
    Leaves w i d (readSnapshot listing beforeTheCancel) := by
  apply keeps_bind
  · apply keeps_attempt
    · exact keeps_bind n.keeps_readOpenOrders fun _ => keeps_pure _
    · exact keeps_ite (fun _ => keeps_bind (keeps_gets _) fun _ => keeps_pure _) fun _ => keeps_raise
  · intro _
    apply keeps_bind n.keeps_readMarginPositions
    intro _
    exact keeps_bind n.keeps_readBalances fun _ => keeps_pure _

theorem Notes.keeps_buildPlan (n : Notes i) (snapshot : Snapshot) :
    Leaves w i d (buildPlan snapshot listing) := by
  apply keeps_bind
  · apply keeps_collect
    intro e
    exact keeps_bind (n.keeps_shape _ _) fun _ => keeps_pure _
  intro constraints
  apply keeps_bind
  · apply keeps_collect
    intro e
    apply keeps_attempt _ (keeps_pure _)
    apply keeps_bind _ fun _ => keeps_pure _
    exact keeps_bind (n.keeps_call _ _) fun _ => n.keeps_shape _ _
  intro prices
  have sizes : ∀ legs, Leaves w i d (sizeAll constraints prices.reduceOption legs) := by
    intro legs
    apply keeps_collect
    intro leg
    exact keeps_bind (keeps_orRaise _) fun _ => keeps_pure _
  exact keeps_bind (sizes _) fun _ => keeps_bind (sizes _) fun _ => keeps_pure _

theorem Notes.keeps_preparePlan (n : Notes i) : Leaves w i d preparePlan := by
  apply keeps_bind n.keeps_readListing
  intro listing
  apply keeps_bind (n.keeps_readSnapshot true)
  intro snapshot
  exact keeps_bind (n.keeps_buildPlan snapshot) fun _ => keeps_pure _

theorem unwritten_notes : Notes Unwritten where
  failure := fun _ _ h => h
  read := by
    rintro t r failed h ev (_ | ⟨_, mem⟩)
    · rfl
    · exact h ev mem
  refused := by
    rintro t r h ev (_ | ⟨_, mem⟩)
    · rfl
    · exact h ev mem

-- the sweep

theorem Since.push {forRecord : Bool} {t : Tape} (h : Since older forRecord t) {ev : Event}
    (step : ev.steppedOver = true) (asks : Nat) (failure : String) :
    Since older forRecord { t with asks, failure, trace := ev :: t.trace } := by
  obtain ⟨newer, grown, each⟩ := h.grown
  refine ⟨h.flag, ev :: newer, by simp [grown], ?_⟩
  rintro x (_ | ⟨_, mem⟩)
  · exact step
  · exact each x mem

/-- What is read for the record may fail. -/
theorem since_notes : Notes (Since older true) where
  failure := fun _ _ h => ⟨h.flag, h.grown⟩
  read := fun t r failed h => h.push (by simp [Event.steppedOver, h.flag]) _ _
  refused := fun t r h => h.push (by simp [Event.steppedOver, h.flag]) _ _

abbrev Sweeping (older : List Event) : Tape → Prop := Since older false

/-- A program of the sweep whose raise ends it. -/
abbrev Sweeps (w : World) (older : List Event) {α : Type} (m : Flat α) : Prop :=
  Leads w (Sweeping older) (Sweeping older) (fun _ => True) (fun _ => False) m

theorem sweeps_call {q : Request} {answer : World → Nat → Except String α} :
    Sweeps w older (call q answer) :=
  leads_call (fun _ h => h.push rfl _ _) fun _ _ _ => trivial

theorem sweeps_shape {q : Request} {found : Except String α} : Sweeps w older (shape q found) :=
  leads_shape (fun _ h => h) fun _ _ _ => trivial

theorem sweeps_of_keeps {m : Flat α} (h : Leaves w (Sweeping older) (fun _ => False) m) :
    Sweeps w older m :=
  h.leads (fun _ kept => kept) fun _ _ => trivial

theorem sweeps_collect {β : Type} {xs : List β} {f : β → Flat α} (each : ∀ b, Sweeps w older (f b)) :
    Sweeps w older (collect xs f) := by
  induction xs with
  | nil => exact sweeps_of_keeps (keeps_pure _)
  | cons b rest ih =>
    exact leads_bind (each b) fun _ => leads_bind ih fun _ => sweeps_of_keeps (keeps_pure _)

/-- One pair's own read: stepped over where it fails or its rows are refused. -/
theorem keeps_scopedRead (symbol : Symbol) : Leaves w (Sweeping older) d (do
    let answer ← positionReports (some symbol)
    let read ← shape (.positions (some symbol)) (positionRows answer)
    pure (some read)) := by
  apply keeps_bind
  · exact leads_call (fun t h => h.push (by simp [Event.steppedOver]) _ _)
      fun t words h => h.push (by simp [Event.steppedOver, Request.isPositions]) _ _
  · intro answer
    apply keeps_bind _ fun _ => keeps_pure _
    exact leads_shape (fun _ h => h) fun t words h =>
      h.push (by simp [Event.steppedOver, Request.isScoped]) _ _

theorem sweeps_pairByPair (failure : String) (names : List String) (readAny : Bool)
    (rows : List PositionRow) (unread : List Unread) :
    Sweeps w older (pairByPair listing failure names readAny rows unread) := by
  have ends : ∀ {β : Type}, Sweeps w older (unreachable failure : Flat β) :=
    fun t _ => trivial
  induction names generalizing readAny rows unread with
  | nil =>
    unfold pairByPair
    exact leads_ite (fun _ => sweeps_of_keeps (keeps_pure _)) fun _ => ends
  | cons name names ih =>
    unfold pairByPair
    split
    · exact ih _ _ _
    · apply leads_bind (sweeps_of_keeps (keeps_attempt (keeps_scopedRead _) (keeps_pure _)))
      intro found
      cases found with
      | some read => exact ih _ _ _
      | none =>
        apply leads_ite
        · exact fun _ => leads_bind (sweeps_of_keeps (keeps_gets _)) fun _ => ih _ _ _
        · exact fun _ => ends

theorem sweeps_readMarginPositions : Sweeps w older (readMarginPositions listing) := by
  apply leads_bind
  · apply sweeps_of_keeps
    apply keeps_attempt _ (keeps_pure _)
    apply keeps_bind _ fun _ => keeps_pure _
    exact leads_call (fun t h => h.push (by simp [Event.steppedOver]) _ _)
      fun t words h => h.push (by simp [Event.steppedOver, Request.isPositions]) _ _
  · intro answer
    cases answer with
    | some answer => exact leads_bind sweeps_shape fun _ => sweeps_of_keeps (keeps_pure _)
    | none => exact leads_bind (sweeps_of_keeps (keeps_gets _)) fun _ => sweeps_pairByPair _ _ _ _ _

theorem sweeps_readForTheRecord {m : Flat α} (reads : ∀ {i : Tape → Prop}, Notes i →
    Leaves w i (fun _ => False) m) : Sweeps w older (readForTheRecord m) := by
  have begins : Leads w (Sweeping older) (Since older true) (fun _ => True) (fun _ => False)
      (Prog.modify fun t => { t with forRecord := true }) :=
    leads_modify fun t h => ⟨rfl, h.grown⟩
  have ends : Leads w (Since older true) (Sweeping older) (fun _ => True) (fun _ => False)
      (Prog.modify fun t => { t with forRecord := false }) :=
    leads_modify fun t h => ⟨rfl, h.grown⟩
  apply leads_bind begins
  intro _
  apply leads_bind
  · apply Leaves.leads _ (fun _ kept => kept) fun _ _ => trivial
    exact keeps_attempt (keeps_bind (reads since_notes) fun _ => keeps_pure _) (keeps_pure _)
  intro found
  exact leads_bind ends fun _ => sweeps_of_keeps (keeps_pure _)

theorem sweeps_sendLeg (sized : SizedLeg) (c : PairConstraints) (index : Nat) (passName : String) :
    Sweeps w older (sendLeg sized c index passName) := by
  apply sweeps_of_keeps
  apply keeps_ite _ fun _ => keeps_pure _
  intro _
  apply keeps_bind (keeps_env _)
  intro stamp
  apply keeps_attempt
  · apply keeps_bind _ fun _ => keeps_pure _
    apply keeps_bind (keeps_env _)
    intro mints
    apply keeps_ite
    · intro _
      apply keeps_bind (keeps_gets _)
      intro n
      apply keeps_bind (keeps_env _)
      intro answer
      apply keeps_bind (keeps_modify fun t h => h.push rfl _ _)
      intro _
      cases answer with
      | ok a => exact keeps_pure _
      | error words => exact keeps_bind (keeps_modify fun t h => ⟨h.flag, h.grown⟩) fun _ => keeps_raise
    · exact fun _ => keeps_bind (keeps_modify fun t h => ⟨h.flag, h.grown⟩) fun _ => keeps_raise
  · exact keeps_bind (keeps_gets _) fun _ => keeps_pure _

theorem sweeps_sendAll (passName : String) (legs : List (SizedLeg × PairConstraints)) (index : Nat) :
    Sweeps w older (sendAll passName legs index) := by
  induction legs generalizing index with
  | nil => exact sweeps_of_keeps (keeps_pure _)
  | cons leg legs ih =>
    apply leads_bind (sweeps_sendLeg _ _ _ _)
    intro outcome
    apply leads_bind
    · exact sweeps_of_keeps (keeps_modify fun t h => ⟨h.flag, h.grown⟩)
    · exact fun _ => ih _

theorem sweeps_sizedWithConstraints (legs : List Leg) (plan : Plan) :
    Sweeps w older (sizedWithConstraints legs listing plan) := by
  apply sweeps_collect
  intro leg
  apply leads_bind _ fun _ => sweeps_of_keeps (keeps_pure _)
  unfold constraintsAt
  cases plan.constraints.lookup leg.symbol with
  | some c => exact sweeps_of_keeps (keeps_pure _)
  | none => exact sweeps_shape

theorem sweeps_spotPass (plan : Plan) (passName : String) (index : Nat) :
    Sweeps w older (spotPass listing plan passName index) := by
  apply leads_bind
  · exact leads_bind sweeps_call fun _ => sweeps_shape
  intro balances
  apply leads_bind (sweeps_sizedWithConstraints _ _)
  exact fun _ => sweeps_sendAll _ _ _

-- the final snapshot

theorem wp_call {q : Request} {answer : World → Nat → Except String α} {Q : Post Tape α} {t : Tape} :
    wp w (call q answer) Q t ↔
      (∀ a, answer w t.asks = .ok a → Q.ok a { t with
        asks := t.asks + 1, trace := .read q t.forRecord false :: t.trace }) ∧
      ∀ words, answer w t.asks = .error words → Q.raised { t with
        asks := t.asks + 1, trace := .read q t.forRecord true :: t.trace, failure := words } := by
  simp only [call, wp_bind, wp_gets, wp_env]
  cases answer w t.asks with
  | ok a => simp
  | error words => simp [unreachable]

theorem wp_shape {q : Request} {found : Except String α} {Q : Post Tape α} {t : Tape} :
    wp w (shape q found) Q t ↔ (∀ a, found = .ok a → Q.ok a t) ∧
      ∀ words, found = .error words → Q.raised { t with
        trace := .refused q t.forRecord :: t.trace, failure := words } := by
  cases found with
  | ok a => simp [shape]
  | error words => simp [shape, unreachable]

/-- A read that went pair by pair names what it could not see. -/
theorem wp_pairByPair (failure : String) (names : List String) (readAny : Bool)
    (rows : List PositionRow) {unread : List Unread} (named : unread ≠ []) {t : Tape} :
    wp w (pairByPair listing failure names readAny rows unread)
      ⟨fun out _ => out.2 ≠ [], fun _ => True, fun _ => False⟩ t := by
  induction names generalizing readAny rows unread t with
  | nil =>
    unfold pairByPair
    rw [wp_ite]
    split
    · exact named
    · trivial
  | cons name names ih =>
    unfold pairByPair
    split
    · exact ih _ _ (by simp)
    · rw [wp_bind, wp_attempt]
      have reads : ∀ symbol : Symbol, Leaves w (fun _ => True) (fun _ => False) (do
          let answer ← positionReports (some symbol)
          let read ← shape (.positions (some symbol)) (positionRows answer)
          pure (some read)) := by
        intro symbol
        have notes : Notes fun _ => True := ⟨fun _ _ h => h, fun _ _ _ h => h, fun _ _ h => h⟩
        apply keeps_bind (notes.keeps_call _ _)
        intro answer
        exact keeps_bind (notes.keeps_shape _ _) fun _ => keeps_pure _
      apply (reads _).elim trivial
      · intro found t _
        cases found with
        | some read => exact ih _ _ named
        | none =>
          simp only [wp_ite]
          split
          · exact ih _ _ (by simp)
          · trivial
      · intro t _
        simp only [wp_pure, wp_ite]
        split
        · exact ih _ _ (by simp)
        · trivial
      · exact fun _ dead => dead

theorem wp_readMarginPositions {t : Tape} : wp w (readMarginPositions listing)
    ⟨fun out t' => out.2 = [] → ∃ answer, w.positions t.asks none = .ok answer ∧
        positionRows answer = .ok out.1 ∧ t' = { t with
          asks := t.asks + 1, trace := .read (.positions none) t.forRecord false :: t.trace },
      fun _ => True, fun _ => False⟩ t := by
  unfold readMarginPositions positionReports
  simp only [wp_bind, wp_attempt, wp_call, wp_pure]
  constructor
  · intro answer asked
    simp only [wp_shape]
    constructor
    · intro rows read _
      exact ⟨answer, asked, read, trivial⟩
    · exact fun _ _ => trivial
  · intro words failed
    simp only [wp_gets]
    apply wp_mono
    · exact wp_pairByPair words Stores.basket false [] (List.cons_ne_nil _ [])
    · intro out _ named whole
      exact absurd whole named
    · exact fun _ h => h
    · exact fun _ h => h

/-- The last three reads, each whole, and what each was read as. -/
structure ReadWhole (w : World) (t t' : Tape) (s : Snapshot) : Prop where
  trace : t'.trace = .read .account t.forRecord false ::
    .read (.positions none) t.forRecord false :: .read .orders t.forRecord false :: t.trace
  orders : ∃ orders, w.orders t.asks = .ok (some orders) ∧ s.orders = some orders
  positions : ∃ answer, w.positions (t.asks + 1) none = .ok answer ∧
    positionRows answer = .ok s.positions
  balances : ∃ balances, w.account (t.asks + 2) = .ok (some balances) ∧
    balances.mapM balanceRow = .ok s.balances

theorem wp_readSnapshot {t : Tape} : wp w (readSnapshot listing false)
    ⟨fun s t' => s.unread = [] → ReadWhole w t t' s, fun _ => True, fun _ => False⟩ t := by
  unfold readSnapshot readOpenOrders
  simp only [wp_bind, wp_attempt, wp_call, wp_shape, wp_pure, Bool.false_eq_true, if_false, wp_raise,
    implies_true, and_true]
  intro answer asked orders read
  apply wp_mono
  · exact wp_readMarginPositions
  · rintro ⟨positions, unread⟩ t₁ whole
    unfold readBalances
    simp only [wp_bind, wp_call, wp_shape, implies_true, and_true]
    intro state account balances booked none
    obtain ⟨answered, positionsAsked, positionsRead, rfl⟩ := whole (by simpa using none)
    constructor
    · rfl
    · refine ⟨orders, ?_, rfl⟩
      rw [asked]
      cases answer <;> cases read
      rfl
    · exact ⟨answered, positionsAsked, positionsRead⟩
    · cases state with
      | none => cases booked
      | some found => exact ⟨found, account, booked⟩
  · exact fun _ h => h
  · exact fun _ h => h

theorem sweeps_sendLegs (plan : Plan) : Sweeps w older (sendLegs listing plan) := by
  apply leads_bind (sweeps_readForTheRecord fun n => n.keeps_readOpenOrders)
  intro rows
  apply leads_bind
  · exact sweeps_of_keeps (keeps_modify fun t h => ⟨h.flag, h.grown⟩)
  intro _
  apply leads_bind sweeps_readMarginPositions
  intro positions
  apply leads_bind (sweeps_sizedWithConstraints _ _)
  intro closers
  apply leads_bind (sweeps_sendAll _ _ _)
  intro index
  apply leads_bind (sweeps_readForTheRecord fun n => n.keeps_readPositions)
  intro _
  apply leads_bind (sweeps_spotPass _ _ _)
  exact fun _ => sweeps_spotPass _ _ _

/-- What a sweep that met no failure of its own did: a cancel, what was stepped over, and the three
    whole reads of its verdict. -/
structure Swept (w : World) (older : List Event) (t' : Tape) (final : Snapshot) : Prop where
  ended : ∃ t₁, Sweeping (.cancel true :: older) t₁ ∧ ReadWhole w t₁ t' final

theorem wp_sweep (plan : Plan) {t : Tape} (flag : t.forRecord = false) :
    wp w (sweep listing plan) ⟨fun result t' =>
      result.cancelOk = true → result.postWriteFailure = none →
        ∃ final, result.final = some final ∧ (final.unread = [] → Swept w t.trace t' final),
      fun _ => False, fun _ => False⟩ t := by
  unfold sweep cancelAll
  simp only [wp_bind, wp_gets, wp_env, wp_modify, wp_pure, wp_attempt, wp_get]
  have start : Sweeping (.cancel (w.cancelAllOrders t.asks).isNone :: t.trace)
      { t with asks := t.asks + 1, trace := .cancel (w.cancelAllOrders t.asks).isNone :: t.trace } :=
    ⟨flag, [], rfl, by simp⟩
  apply wp_mono
  · exact sweeps_sendLegs plan _ start
  · intro _ t₁ swept
    apply wp_mono
    · exact wp_readSnapshot
    · intro final t' whole cancelled _
      refine ⟨final, rfl, fun seen => ⟨t₁, ?_, whole seen⟩⟩
      rw [show (w.cancelAllOrders t.asks).isNone = true from cancelled] at swept
      exact swept
    · intro _ _ _ failed
      cases failed
    · exact fun _ dead => dead
  · intro _ _ _ failed
    cases failed
  · exact fun _ dead => dead

end

-- the verdict

/-- Nothing rests, every position is flat, and every balance held is routed and not residual. -/
structure AccountFlat (listing : Listing) (prices : List (Symbol × ℚ)) (final : Snapshot) : Prop where
  orders : final.orders = some []
  positions : ∀ p ∈ final.positions, p.side = "FLAT"
  balances : ∀ b ∈ final.balances, isHeld b = true → ∃ base symbol c,
    resolveBase b.code (listedBases listing) = some base ∧ choosePair base listing = some symbol ∧
    constraintsFor symbol listing = .ok c ∧
    classifyBalance b.free c (prices.lookup symbol) ≠ .residual

section
variable {final : Snapshot} {listing : Listing} {prices : List (Symbol × ℚ)}

theorem judgeFinal_unread (none : judgeFinal final listing prices = []) : final.unread = [] := by
  unfold judgeFinal at none
  simp only [List.append_eq_nil_iff, List.map_eq_nil_iff] at none
  exact none.1.2

theorem judgeFinal_flat {orders : List String} (read : final.orders = some orders)
    (none : judgeFinal final listing prices = []) : AccountFlat listing prices final := by
  unfold judgeFinal at none
  simp only [List.append_eq_nil_iff, List.filterMap_eq_nil_iff] at none
  obtain ⟨⟨⟨resting, positions⟩, -⟩, balances⟩ := none
  constructor
  · rw [read] at resting ⊢
    cases orders with
    | nil => rfl
    | cons o rest => cases resting
  · intro p mem
    have judged := positions p mem
    unfold judgePosition at judged
    split at judged
    · assumption
    · cases judged
  · intro b mem held
    simp only [isHeld, Bool.and_eq_true, Bool.not_eq_true', decide_eq_true_eq] at held
    have judged := balances b mem
    unfold judgeBalance at judged
    rw [if_neg (by simp [held.1, held.2])] at judged
    split at judged
    · cases judged
    rename_i symbol routed
    obtain ⟨base, based, chosen⟩ := Option.bind_eq_some_iff.mp routed
    split at judged
    · cases judged
    rename_i c constrained
    split at judged
    · cases judged
    rename_i clean
    exact ⟨base, symbol, c, based, chosen, constrained, clean⟩

end

-- the run

/-- What the clean code of a run that was to write says. -/
structure Clean (w : World) (t : Tape) : Prop where
  killFile : ∃ text, w.killFile = some text
  confirmed : ∃ reply, w.prompt = .ok reply ∧ matchesConfirm reply = true
  swept : ∃ listing plan planned final, preparePlan w Tape.blank = (.ok (listing, plan), planned) ∧
    plan.unread = [] ∧ Swept w planned.trace t final ∧ AccountFlat listing plan.prices final

section
variable {w : World} {listing : Listing} {plan : Plan}

theorem wp_carryOut {t : Tape} (flag : t.forRecord = false) : wp w (carryOut listing plan)
    ⟨fun code t' => (code = 0 ∨ code = 2) ∧ (code = 0 → ∃ final, plan.unread = [] ∧
      Swept w t.trace t' final ∧ AccountFlat listing plan.prices final),
      fun _ => False, fun _ => False⟩ t := by
  unfold carryOut
  rw [wp_bind]
  apply wp_mono (wp_sweep plan flag)
  · intro result t' swept
    simp only [wp_pure, exitCode]
    split
    · exact ⟨Or.inr rfl, fun zero => by cases zero⟩
    rename_i clean
    simp only [not_or, Option.isSome_iff_ne_none, not_not, Bool.not_eq_false,
      decide_eq_true_eq] at clean
    obtain ⟨whole, cancelled, residuals, planned⟩ := clean
    refine ⟨Or.inl rfl, fun _ => ?_⟩
    obtain ⟨final, is_final, ended⟩ := swept cancelled whole
    simp only [residualsOf, is_final] at residuals
    have swept := ended (judgeFinal_unread residuals)
    obtain ⟨t₁, -, read⟩ := swept.ended
    obtain ⟨orders, -, orders_eq⟩ := read.orders
    exact ⟨final, planned, swept, judgeFinal_flat orders_eq residuals⟩
  · exact fun _ h => h
  · exact fun _ h => h

theorem forRecord_notes {forRecord : Bool} : Notes fun t => t.forRecord = forRecord :=
  ⟨fun _ _ h => h, fun _ _ _ h => h, fun _ _ h => h⟩

theorem Unwritten.of_notWrites {t : Tape} (h : Unwritten t) : ¬∃ ev ∈ t.trace, ev.writes = true := by
  rintro ⟨ev, mem, writes⟩
  rw [h ev mem] at writes
  cases writes

/-- What a run's end says, whatever the code. -/
structure TellsTruth (w : World) (execute : Bool) (code : Nat) (t : Tape) : Prop where
  known : code = 0 ∨ code = 1 ∨ code = 2 ∨ code = 3
  refused : code = 1 ∨ code = 3 → Unwritten t
  wrote : (∃ ev ∈ t.trace, ev.writes = true) → code = 0 ∨ code = 2
  dryRun : execute = false → Unwritten t
  clean : execute = true → code = 0 → Clean w t

theorem TellsTruth.unwritten {execute : Bool} {code : Nat} {t : Tape} (h : Unwritten t)
    (ends : code = 1 ∨ code = 3 ∨ (code = 0 ∧ execute = false)) : TellsTruth w execute code t where
  known := by omega
  refused := fun _ => h
  wrote := fun writes => (h.of_notWrites writes).elim
  dryRun := fun _ => h
  clean := by
    rintro rfl rfl
    simp at ends

theorem wp_confirmAndCarryOut {planned : Tape}
    (prepared : preparePlan w Tape.blank = (.ok (listing, plan), planned))
    (unwritten : Unwritten planned) (flag : planned.forRecord = false)
    (killFile : ∃ text, w.killFile = some text) :
    wp w (confirmAndCarryOut listing plan)
      ⟨TellsTruth w true, fun _ => False, fun _ => False⟩ planned := by
  unfold confirmAndCarryOut
  rw [wp_bind, wp_env]
  cases asked : w.prompt with
  | error words => exact TellsTruth.unwritten unwritten (Or.inl rfl)
  | ok reply =>
    simp only [wp_ite]
    split
    · rename_i matched
      apply wp_mono (wp_carryOut flag)
      · rintro code t ⟨known, clean⟩
        constructor
        · omega
        · omega
        · exact fun _ => known
        · intro zero
          cases zero
        · intro _ zero
          obtain ⟨final, whole, swept, flat⟩ := clean zero
          exact ⟨killFile, ⟨reply, asked, matched⟩, listing, plan, planned, final, prepared, whole,
            swept, flat⟩
      · exact fun _ h => h
      · exact fun _ h => h
    · exact TellsTruth.unwritten unwritten (Or.inl rfl)

/-- Nothing is raised, and the code tells the truth. -/
theorem wp_runFlatten (execute : Bool) : wp w (runFlatten execute)
    ⟨TellsTruth w execute, fun _ => False, fun _ => False⟩ Tape.blank := by
  have blank : Unwritten Tape.blank := by simp [Unwritten, Tape.blank]
  unfold runFlatten
  simp only [wp_bind, wp_env, wp_ite, wp_pure, wp_attempt]
  split
  · exact TellsTruth.unwritten blank (Or.inl rfl)
  rename_i present
  split
  · exact TellsTruth.unwritten blank (Or.inl rfl)
  split
  · exact TellsTruth.unwritten blank (Or.inr (Or.inl rfl))
  have unwritten := unwritten_notes.keeps_preparePlan (w := w) (d := fun _ => False) Tape.blank blank
  have flag := forRecord_notes.keeps_preparePlan (w := w) (d := fun _ => False) Tape.blank
    (show Tape.blank.forRecord = false from rfl)
  apply wp_mono (wp_both (wp_runs preparePlan) (wp_both unwritten flag))
  · rintro ⟨listing, plan⟩ planned ⟨prepared, unwritten, flag⟩
    dsimp only
    split
    · exact TellsTruth.unwritten unwritten (Or.inl rfl)
    split
    · rename_i dry
      exact TellsTruth.unwritten unwritten (Or.inr (Or.inr ⟨rfl, dry⟩))
    · rename_i wet
      rw [Bool.not_eq_false] at wet
      subst wet
      apply wp_confirmAndCarryOut prepared unwritten flag
      exact Option.ne_none_iff_exists'.mp fun none => present ⟨rfl, none⟩
  · rintro planned ⟨-, unwritten, -⟩
    exact TellsTruth.unwritten unwritten (Or.inr (Or.inl rfl))
  · rintro planned ⟨-, dead, -⟩
    exact dead

end

/-- Whatever the venue answers and whichever reads and writes fail: a run ends with a code, refused
    and unreachable mean nothing was sent, a run that sent anything ends clean or partial, a dry
    run sends nothing, and clean after a sweep means the account was read flat. -/
theorem flatten_exit_tells_truth (w : World) (execute : Bool) :
    ∃ code t, runFlatten execute w Tape.blank = (.ok code, t) ∧ TellsTruth w execute code t := by
  have ran := wp_runFlatten (w := w) execute
  unfold wp at ran
  generalize runFlatten execute w Tape.blank = run at ran ⊢
  obtain ⟨code | _ | _, t⟩ := run
  · exact ⟨code, t, rfl, ran⟩
  · exact ran.elim
  · exact ran.elim

/-- An account with nothing in it; the reads the journal alone wants fail after the cancel. -/
def emptyAccount : World where
  instruments _ := .ok [⟨some ⟨"SOL", "EUR"⟩, "SOLEUR", .number 2, .number 1, .number 1⟩]
  cacheInstrument _ := none
  orders n := if n = 5 then .error "timed out" else .ok (some [])
  positions n _ := if n = 7 then .error "timed out" else .ok (some [])
  account _ := .ok (some [])
  book _ _ := .error "no book"
  cancelAllOrders _ := none
  submitOrder _ _ := .error "no order"
  mintsQuantity _ _ := true
  killFile := some "wrapper"
  tty := true
  venue := ⟨"online", true⟩
  planShown := true
  prompt := .ok "FLATTEN"
  stamp := "260101000000"

theorem flatten_exit_tells_truth_clean : ∃ t, Clean emptyAccount t := by
  obtain ⟨code, t, ran, truth⟩ := flatten_exit_tells_truth emptyAccount true
  refine ⟨t, truth.clean rfl ?_⟩
  have zero : (runFlatten true emptyAccount Tape.blank).1 = .ok 0 := by decide
  rw [ran] at zero
  injection zero

/-- A clean run in which two reads after the first write failed. -/
theorem clean_despite_failed_reads :
    (runFlatten true emptyAccount Tape.blank).1 = .ok 0 ∧
    ∃ newer older, (runFlatten true emptyAccount Tape.blank).2.trace = newer ++ .cancel true :: older ∧
      .read .orders true true ∈ newer ∧ .read (.positions none) true true ∈ newer := by
  refine ⟨by decide, [.read .account false false, .read (.positions none) false false,
    .read .orders false false, .read .account false false, .read .account false false,
    .read (.positions none) true true, .read (.positions none) false false,
    .read .orders true true], [.read .account false false, .read (.positions none) false false,
    .read .orders false false, .read .listing false false], by decide, by decide, by decide⟩

end Flatten
