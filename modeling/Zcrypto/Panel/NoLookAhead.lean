import Zcrypto.Panel.FillHour
import Zcrypto.Panel.Ladder

/- Two runs over messages and prints that are the same up to an instant: what the panel, the fills and the
   ladder say of what comes by the instant is the same. A run is taken up to the instant, and whatever it
   does afterwards is stamped later. -/
namespace Panel
open OrderBook (Decimal)

/- The panel. -/

section
variable {Sample Bytes : Type} {sampler : Sampler Sample Bytes} {w next next' : Walk}
  {messages messages' left left' : List Message} {rows rows' : List (Int × Sample)} {t : Int}

theorem upTo_eq (boundary : Int) (messages : List Message) (w : Walk) :
    w.upTo boundary messages = (UpTo.early Message.ts boundary messages).foldlM Walk.apply w >>= fun w =>
      .ok (w, UpTo.late Message.ts boundary messages) := by
  induction messages generalizing w with
  | nil => rfl
  | cons m rest ih =>
    unfold Walk.upTo UpTo.early UpTo.late
    by_cases here : m.ts ≤ boundary
    · rw [if_pos here, List.takeWhile_cons_of_pos (by simpa using here),
        List.dropWhile_cons_of_pos (by simpa using here), List.foldlM_cons, bind_assoc]
      congr 1
      funext applied
      exact ih applied
    · rw [if_neg here, List.takeWhile_cons_of_neg (by simpa using here),
        List.dropWhile_cons_of_neg (by simpa using here)]
      rfl

theorem upTo_agree {boundary : Int} (soon : boundary ≤ t) (agree : UpTo.Agree Message.ts t messages messages')
    (walked : w.upTo boundary messages = .ok (next, left)) :
    ∃ left', w.upTo boundary messages' = .ok (next, left') ∧ UpTo.Agree Message.ts t left left' := by
  rw [upTo_eq] at walked ⊢
  obtain ⟨applied, all, walked⟩ := Fallible.bind_ok.mp walked
  injection walked with same
  injection same with same_next same_left
  subst same_next same_left
  rw [← agree.early soon, all]
  exact ⟨_, rfl, agree.late soon⟩

/-- A row is stamped with a boundary of its own. -/
theorem sampleSeconds_stamped {quote : String} {seconds : List Int}
    (read : sampleSeconds sampler quote seconds w messages = .ok (rows, next, left)) :
    ∀ row ∈ rows, row.1 ∈ seconds := by
  induction seconds generalizing w messages rows next left with
  | nil =>
    injection read with same
    injection same with same
    simp [← same]
  | cons boundary later ih =>
    rw [sampleSeconds] at read
    obtain ⟨⟨walked, behind⟩, walk, read⟩ := Fallible.bind_ok.mp read
    obtain ⟨row, _, read⟩ := Fallible.bind_ok.mp read
    obtain ⟨⟨more, ended, _⟩, go, read⟩ := Fallible.bind_ok.mp read
    injection read with same
    injection same with same
    intro item mem
    rw [← same] at mem
    rcases List.mem_append.mp mem with here | there
    · obtain ⟨sample, _, made⟩ := Option.mem_map.mp (Option.mem_toList.mp here)
      rw [← made]
      exact List.mem_cons_self
    · exact List.mem_cons_of_mem _ (ih go item there)

/-- The rows stamped by an instant, second by second. -/
theorem sampleSeconds_agree {quote : String} {seconds : List Int} (order : UpTo.InOrder id seconds)
    (agree : UpTo.Agree Message.ts t messages messages')
    (read : sampleSeconds sampler quote seconds w messages = .ok (rows, next, left))
    (read' : sampleSeconds sampler quote seconds w messages' = .ok (rows', next', left')) :
    rows.filter (·.1 ≤ t) = rows'.filter (·.1 ≤ t) := by
  induction seconds generalizing w messages messages' rows rows' next next' left left' with
  | nil =>
    injection read with same
    injection same with same
    injection read' with same'
    injection same' with same'
    rw [← same, ← same']
  | cons boundary later ih =>
    obtain ⟨first, rest⟩ := List.pairwise_cons.mp order
    by_cases soon : boundary ≤ t
    · rw [sampleSeconds] at read read'
      obtain ⟨⟨walked, behind⟩, walk, read⟩ := Fallible.bind_ok.mp read
      obtain ⟨row, sampled, read⟩ := Fallible.bind_ok.mp read
      obtain ⟨⟨more, ended, _⟩, go, read⟩ := Fallible.bind_ok.mp read
      obtain ⟨behind', walk', still⟩ := upTo_agree soon agree walk
      rw [walk'] at read'
      obtain ⟨_, same_walk, read'⟩ := Fallible.bind_ok.mp read'
      injection same_walk with same_walk
      subst same_walk
      obtain ⟨_, same_row, read'⟩ := Fallible.bind_ok.mp read'
      rw [sampled] at same_row
      injection same_row with same_row
      subst same_row
      obtain ⟨⟨more', ended', _⟩, go', read'⟩ := Fallible.bind_ok.mp read'
      injection read with same
      injection same with same
      injection read' with same'
      injection same' with same'
      rw [← same, ← same', List.filter_append, List.filter_append, ih rest still go go']
    · -- every row of either is stamped later
      have nothing : ∀ {ms rows next left}, sampleSeconds sampler quote (boundary :: later) w ms =
          .ok (rows, next, left) → rows.filter (·.1 ≤ t) = [] := by
        intro ms rows next left read
        rw [List.filter_eq_nil_iff]
        intro row mem
        have later_row : t < row.1 := by
          rcases List.mem_cons.mp (sampleSeconds_stamped read row mem) with here | there
          · omega
          · have := first _ there
            simp only [id] at this
            omega
        simpa using later_row
      rw [nothing read, nothing read']

theorem range_order (hour : Int) (n : Nat) : UpTo.InOrder (boundaryOf hour) (List.range n) := by
  refine List.pairwise_lt_range.imp ?_
  intro a b less
  unfold boundaryOf
  omega

theorem boundaries_eq (hour : Int) : boundaries hour = (List.range secondsPerHour).map (boundaryOf hour) := by
  unfold boundaries
  rw [List.bind_eq_flatMap, List.map_flatMap]
  exact List.flatMap_pure_eq_map _ _

theorem boundaries_order (hour : Int) : UpTo.InOrder id (boundaries hour) := by
  rw [boundaries_eq]
  exact List.pairwise_map.mpr (range_order hour secondsPerHour)

/-- Two hours of the panel that are sampled from one book. -/
theorem materializeHour_agree {pair : String} {hour : Int} {frame frame' : List Row} {book : Option Book}
    {lastMsgTs last last' : Option Int} {ended ended' : Book}
    (opening : anchor sampler (regroupMessages frame) book = anchor sampler (regroupMessages frame') book)
    (agree : UpTo.Agree Message.ts t (regroupMessages frame) (regroupMessages frame'))
    (read : materializeHour sampler pair hour frame book lastMsgTs = .ok (rows, ended, last))
    (read' : materializeHour sampler pair hour frame' book lastMsgTs = .ok (rows', ended', last')) :
    rows.filter (·.1 ≤ t) = rows'.filter (·.1 ≤ t) := by
  have order := boundaries_order hour
  unfold materializeHour at read read'
  generalize boundaries hour = grid at order read read'
  obtain ⟨start, anchored, read⟩ := Fallible.bind_ok.mp read
  obtain ⟨start', anchored', read'⟩ := Fallible.bind_ok.mp read'
  rw [← opening, anchored] at anchored'
  injection anchored' with same_start
  subst same_start
  obtain ⟨⟨sampled, walked, left⟩, seconds, read⟩ := Fallible.bind_ok.mp read
  obtain ⟨⟨sampled', walked', left'⟩, seconds', read'⟩ := Fallible.bind_ok.mp read'
  obtain ⟨_, _, read⟩ := Fallible.bind_ok.mp read
  obtain ⟨_, _, read'⟩ := Fallible.bind_ok.mp read'
  injection read with same
  injection same with same
  injection read' with same'
  injection same' with same'
  rw [← same, ← same']
  exact sampleSeconds_agree order agree (Fallible.mapError_ok.mp seconds)
    (Fallible.mapError_ok.mp seconds')

end

/- The prints of a second that come by the instant, and the others after them. -/

section
variable {F : Type} {float : Decimal → F} {h next : Hour F} {messages : List Message} {prints : List (Print F)}

section
variable [Zero F] [Add F] [Sub F] [Max F] [LE F] [DecidableLE F]

theorem prints_book (prints : List (Print F)) (h : Hour F) :
    (prints.foldl Hour.print h).book = h.book ∧ (prints.foldl Hour.print h).rows = h.rows ∧
      (prints.foldl Hour.print h).orders =
        prints.foldl (fun orders trade => orders.map (applyTrade · trade)) h.orders := by
  induction prints generalizing h with
  | nil => exact ⟨rfl, rfl, rfl⟩
  | cons trade prints ih => exact ih (h.print trade)

theorem prints_tick (prints : List (Print F)) (h : Hour F) (tick : Decimal) :
    prints.foldl Hour.print { h with tick } = { prints.foldl Hour.print h with tick } := by
  induction prints generalizing h with
  | nil => rfl
  | cons trade prints ih => exact ih (h.print trade)

/-- A print does not touch the book, and a message touches nothing else. -/
theorem ingests_prints (prints : List (Print F)) (read : messages.foldlM Hour.ingest h = .ok next) :
    messages.foldlM Hour.ingest (prints.foldl Hour.print h) = .ok (prints.foldl Hour.print next) := by
  refine Fallible.foldlM_after ?_ prints read
  intro h next m trade read
  obtain ⟨book, applied, same⟩ := Fallible.bind_ok.mp read
  injection same with same
  subst same
  exact Fallible.bind_ok.mpr ⟨book, applied, rfl⟩

end

variable [Zero F] [NatCast F] [Add F] [Sub F] [Mul F] [Div F] [Max F] [Min F] [LE F] [DecidableLE F]
  [DecidableEq F] {pair : String} {hour : Int}

theorem second_split {boundary : Int} {onGrid : Bool} (first later : List (Print F))
    (stepped : h.second float pair boundary onGrid messages (first ++ later) = .ok next) :
    (first.foldl Hour.print h).second float pair boundary onGrid messages later = .ok next := by
  unfold Hour.second at stepped ⊢
  obtain ⟨read, ingested, stepped⟩ := Fallible.bind_ok.mp stepped
  refine Fallible.bind_ok.mpr ⟨_, ingests_prints first ingested, ?_⟩
  obtain ⟨book, _⟩ := prints_book first read
  cases onGrid with
  | false =>
    simp only [Bool.false_eq_true, if_false, List.foldl_append] at stepped ⊢
    exact stepped
  | true =>
    simp only [if_true, List.foldl_append, prints_tick, book] at stepped ⊢
    exact stepped

theorem seconds_sweep (ks : List Nat) (h : Hour F) (messages : List Message) (prints : List (Print F)) :
    Hour.seconds float pair hour ks h messages prints =
      UpTo.sweep (boundaryOf hour) Message.ts Print.ts
        (fun k => Hour.second float pair (boundaryOf hour k) (k % gridS = 0)) ks h messages prints := by
  induction ks generalizing h messages prints with
  | nil => rfl
  | cons k ks ih =>
    rw [Hour.seconds, UpTo.sweep]
    exact congrArg (bind _) (funext fun stepped => ih stepped _ _)

/-- The seconds of an hour and what is left after them. -/
def Hour.finish (float : Decimal → F) (pair : String) (hour : Int) (ks : List Nat) (messages : List Message)
    (prints : List (Print F)) (h : Hour F) : Except String (Hour F) := do
  let (h, messages, prints) ← Hour.seconds float pair hour ks h messages prints
  h.rest messages prints

/-- The prints by an instant may be taken before the seconds that end after it. -/
theorem finish_split {t : Int} {ks : List Nat} (later : ∀ k ∈ ks, t < boundaryOf hour k)
    (ran : h.finish float pair hour ks messages prints = .ok next) :
    ∃ next', ((UpTo.early Print.ts t prints).foldl Hour.print h).finish float pair hour ks messages
        (UpTo.late Print.ts t prints) = .ok next' ∧ next'.orders = next.orders ∧ next'.rows = next.rows := by
  unfold Hour.finish at ran ⊢
  obtain ⟨⟨ended, left, lefts⟩, seconds, rest⟩ := Fallible.bind_ok.mp ran
  cases ks with
  | nil =>
    injection seconds with same
    injection same with same_ended same
    injection same with same_left same_lefts
    subst same_ended same_left same_lefts
    obtain ⟨read, ingested, same⟩ := Fallible.bind_ok.mp rest
    injection same with same
    subst same
    obtain ⟨_, rows, orders⟩ := prints_book (UpTo.early Print.ts t prints) read
    refine ⟨_, Fallible.bind_ok.mpr ⟨_, rfl, Fallible.bind_ok.mpr ⟨_, ingests_prints _ ingested, rfl⟩⟩, ?_, rows⟩
    simp only [orders]
    rw [← List.foldl_append, UpTo.early_late]
  | cons k ks =>
    refine ⟨next, Fallible.bind_ok.mpr ⟨(ended, left, lefts), ?_, rest⟩, rfl, rfl⟩
    rw [seconds_sweep] at seconds ⊢
    refine UpTo.sweep_ahead (fun prints h => prints.foldl Hour.print h) ?_ (later k List.mem_cons_self) seconds
    exact fun _ first rest _ _ => second_split first rest

/- The hour up to an instant. -/

/-- The seconds whose boundaries come by an instant, and the prints that come by it after the last of them. -/
def hourAt (float : Decimal → F) (t : Int) (messages : List Message) (trades : List (Print F)) (book : Book)
    (hour : Int) (pair : String) (carried : List (Order F)) (lastMsgTs : Option Int) : Except String (Hour F) := do
  let (h, _, trades) ← Hour.seconds float pair hour (UpTo.early (boundaryOf hour) t (List.range secondsPerHour))
    (Hour.start book lastMsgTs carried) messages trades
  pure ((UpTo.early Print.ts t trades).foldl Hour.print h)

variable {t : Int} {trades trades' : List (Print F)} {messages' : List Message} {book : Book}
  {carried : List (Order F)} {lastMsgTs : Option Int}

/-- It cannot tell apart messages and prints that are the same up to the instant. -/
theorem hourAt_agree (agree : UpTo.Agree Message.ts t messages messages')
    (prints : UpTo.Agree Print.ts t trades trades')
    (ran : hourAt float t messages trades book hour pair carried lastMsgTs = .ok h) :
    hourAt float t messages' trades' book hour pair carried lastMsgTs = .ok h := by
  unfold hourAt at ran ⊢
  generalize List.range secondsPerHour = grid at ran ⊢
  rw [seconds_sweep] at ran ⊢
  obtain ⟨⟨ended, left, lefts⟩, swept, ran⟩ := Fallible.bind_ok.mp ran
  obtain ⟨left', lefts', swept', _, still⟩ :=
    UpTo.sweep_agree (fun k mem => UpTo.mem_early mem) agree prints swept
  rw [swept']
  unfold UpTo.Agree at still
  simp only [still] at ran
  exact ran

theorem seconds_split {ks : List Nat} {out : Hour F × List Message × List (Print F)} (t : Int)
    (ran : Hour.seconds float pair hour ks h messages prints = .ok out) :
    ∃ begun left lefts,
      Hour.seconds float pair hour (UpTo.early (boundaryOf hour) t ks) h messages prints = .ok (begun, left, lefts) ∧
      Hour.seconds float pair hour (UpTo.late (boundaryOf hour) t ks) begun left lefts = .ok out := by
  simp only [seconds_sweep] at ran ⊢
  exact UpTo.sweep_split t ran

theorem seconds_order {ks : List Nat} {left : List Message} {lefts : List (Print F)}
    (order : UpTo.InOrder Print.ts prints)
    (ran : Hour.seconds float pair hour ks h messages prints = .ok (next, left, lefts)) :
    UpTo.InOrder Print.ts lefts := by
  rw [seconds_sweep] at ran
  exact UpTo.sweep_order order ran

/-- Seconds that end after an instant, with prints that come after it. -/
theorem finish_filed {ks : List Nat} (instants : ∀ k ∈ ks, t < boundaryOf hour k) (times : ∀ p ∈ prints, t < p.ts)
    (sound : h.Sound) (ran : h.finish float pair hour ks messages prints = .ok next) :
    ∃ posts, Filed float (t < ·) h posts next ∧ ∀ p ∈ posts, t < p.ts := by
  obtain ⟨⟨ended, left, lefts⟩, seconds, rest⟩ := Fallible.bind_ok.mp ran
  obtain ⟨⟨posts, went, stamped⟩, behind⟩ := seconds_went (P := (t < ·)) instants times sound seconds
  obtain ⟨filed, _⟩ := rest_filed (P := (t < ·)) behind rest
  refine ⟨posts, ?_, ?_⟩
  · have both := went.filed.trans filed
    rwa [List.append_nil] at both
  · intro p mem
    obtain ⟨k, of_ks, same⟩ := stamped p mem
    rw [same]
    exact instants k of_ks

/-- What the hour does after an instant is stamped after it. -/
theorem runHour_goes (order : UpTo.InOrder Print.ts trades)
    (ran : runHour float messages trades book hour pair carried lastMsgTs = .ok next) :
    ∃ h posts next', hourAt float t messages trades book hour pair carried lastMsgTs = .ok h ∧
      Filed float (t < ·) h posts next' ∧ (∀ p ∈ posts, t < p.ts) ∧ next'.orders = next.orders ∧
      next'.rows = next.rows := by
  have grid_order := range_order hour secondsPerHour
  unfold runHour at ran
  unfold hourAt
  generalize List.range secondsPerHour = grid at grid_order ran ⊢
  obtain ⟨⟨ended, left, lefts⟩, seconds, rest⟩ := Fallible.bind_ok.mp ran
  obtain ⟨begun, behind, behinds, first, later⟩ := seconds_split t seconds
  have behinds_order := seconds_order order first
  have finished : begun.finish float pair hour (UpTo.late (boundaryOf hour) t grid) behind behinds = .ok next :=
    Fallible.bind_ok.mpr ⟨_, later, rest⟩
  obtain ⟨next', ran', orders, rows⟩ := finish_split grid_order.after finished
  obtain ⟨⟨_, went, _⟩, _⟩ := seconds_went (P := fun _ => True) (fun _ _ => trivial) (fun _ _ => trivial)
    (start_sound book lastMsgTs carried) first
  have of_prints : ((UpTo.early Print.ts t behinds).foldl Hour.print begun).Sound ∧
      Filed float (fun _ => True) begun [] ((UpTo.early Print.ts t behinds).foldl Hour.print begun) ∧ _ :=
    prints_filed (fun _ _ => trivial) went.sound
  obtain ⟨sound, _⟩ := of_prints
  obtain ⟨posts, filed, stamped⟩ := finish_filed grid_order.after behinds_order.after sound ran'
  exact ⟨_, posts, next', Fallible.bind_ok.mpr ⟨_, first, rfl⟩, filed, stamped, orders, rows⟩

/- Two rows of one order. -/

/-- What a row says of its order. -/
structure Outcome (F : Type) where
  post : Post F
  filled : Bool
  timeToFill : Option Int
  fillPrice : Option F

def FillRow.outcome (r : FillRow F) : Outcome F := ⟨r.post, r.filled, r.timeToFill, r.fillPrice⟩

def LadderRow.outcome (r : LadderRow F) : Outcome F := ⟨r.post, r.filled, r.timeToFill, r.fillPrice⟩

/-- One post, and where the first has its fill by an instant so has the second. -/
structure Outcome.By (t : Int) (a b : Outcome F) : Prop where
  post : b.post = a.post
  fill : ∀ after, a.timeToFill = some after → a.post.ts + after ≤ t →
    b.filled = a.filled ∧ b.timeToFill = some after ∧ b.fillPrice = a.fillPrice

/-- The rows of one order in two runs, which left it the same at an instant: its post, a fill or a
    cancellation by the instant, and each mid that is read by it. -/
structure Alike (t : Int) (p : Order F) (r r' : FillRow F) : Prop where
  post : r.post = p.toPost
  there : r.outcome.By t r'.outcome
  back : r'.outcome.By t r.outcome
  cancelled : ∀ after, p.ts + after ≤ t → (r.cancelledAfter = some after ↔ r'.cancelledAfter = some after)
  mids : ∀ name v, p.mids name = some v → r.mids name = some v ∧ r'.mids name = some v

end

section
variable {F : Type} {float : Decimal → F} {t : Int} {p o o' : Order F}

/-- What is set by an instant was set before what comes after it. -/
theorem set_by {x y : Option Int} {ts after : Int} (kept : ∀ s, x = some s → y = some s)
    (since : x = none → ∀ s, y = some s → t < s) (set_ : y.map (· - ts) = some after) (soon : ts + after ≤ t) :
    x = some (ts + after) := by
  obtain ⟨s, held, rfl⟩ := Option.map_eq_some_iff.mp set_
  cases before : x with
  | none =>
    have := since before s held
    omega
  | some u =>
    have same := kept u before
    rw [held] at same
    injection same with same
    rw [← same]
    congr 1
    omega

theorem Since.outcome_by (first : Since (t < ·) p o) (second : Since (t < ·) p o') :
    (FillRow.ofOrder float o).outcome.By t (FillRow.ofOrder float o').outcome := by
  have posts : o'.toPost = o.toPost := second.post.trans first.post.symm
  have prices : o'.price = o.price := congrArg Post.price posts
  have times : o'.ts = o.ts := congrArg Post.ts posts
  refine ⟨posts, ?_⟩
  intro after set_ soon
  have before := set_by first.filled first.unfilled set_ soon
  have held := first.filled _ before
  have held' := second.filled _ before
  refine ⟨by simp [FillRow.outcome, FillRow.ofOrder, held, held'], ?_,
    by simp [FillRow.outcome, FillRow.ofOrder, held, held', prices]⟩
  simp only [FillRow.outcome, FillRow.ofOrder, held', times, Option.map_some]
  congr 1
  omega

theorem Since.cancelled_by (first : Since (t < ·) p o) (second : Since (t < ·) p o') {after : Int}
    (soon : p.ts + after ≤ t) (set_ : (FillRow.ofOrder float o).cancelledAfter = some after) :
    (FillRow.ofOrder float o').cancelledAfter = some after := by
  have times : o.ts = p.ts := congrArg Post.ts first.post
  have times' : o'.ts = p.ts := congrArg Post.ts second.post
  simp only [FillRow.ofOrder, times] at set_
  have before := set_by first.cancelled first.uncancelled set_ soon
  simp only [FillRow.ofOrder, second.cancelled _ before, times', Option.map_some]
  congr 1
  omega

theorem Since.alike (first : Since (t < ·) p o) (second : Since (t < ·) p o') :
    Alike t p (FillRow.ofOrder float o) (FillRow.ofOrder float o') where
  post := first.post
  there := first.outcome_by second
  back := second.outcome_by first
  cancelled := fun _ soon => ⟨first.cancelled_by second soon, second.cancelled_by first soon⟩
  mids := fun name v held => ⟨first.mids name v held, second.mids name v held⟩

end

/- The fills. -/

section
variable {F : Type} [Zero F] [NatCast F] [Add F] [Sub F] [Mul F] [Div F] [Max F] [Min F] [LE F] [DecidableLE F]
  [DecidableEq F] {float : Decimal → F} {t : Int} {messages messages' : List Message}
  {trades trades' : List (Print F)} {book : Book} {hour : Int} {pair : String} {carried : List (Order F)}
  {lastMsgTs : Option Int}

/-- The rows of an hour and of the orders it carries on. -/
def Simulated.all (float : Decimal → F) (out : Simulated F) : List (FillRow F) :=
  out.rows ++ flush float out.carried

/-- The rows given by an instant, those of the orders that are there at it, and those posted later. -/
theorem simulateHour_goes {out : Simulated F} (order : UpTo.InOrder Print.ts trades)
    (ran : simulateHour float messages trades book hour pair carried lastMsgTs = .ok out) :
    ∃ h gone later, hourAt float t messages trades book hour pair carried lastMsgTs = .ok h ∧
      List.Forall₂ (Since (t < ·)) h.carried gone ∧
      (out.all float).Perm (h.rows ++ gone.map (FillRow.ofOrder float) ++ later) ∧
      ∀ r ∈ later, t < r.post.ts := by
  obtain ⟨next, ran, same⟩ := Fallible.bind_ok.mp ran
  injection same with same
  obtain ⟨h, posts, next', begun, filed, stamped, orders, rows⟩ := runHour_goes (t := t) order ran
  obtain ⟨_, given, of_rows, gone, others, perm, all, keys⟩ := filed
  refine ⟨h, gone, others.map (FillRow.ofOrder float), begun, all, ?_, ?_⟩
  · have carried_same : next'.carried = next.carried := congrArg (List.filter Order.isCarried) orders
    have shown := perm.map (FillRow.ofOrder float)
    rw [List.map_append, List.map_append, carried_same] at shown
    unfold Simulated.all flush
    rw [← same, ← rows, of_rows, List.append_assoc, List.append_assoc]
    exact shown.append_left h.rows
  · intro r mem
    obtain ⟨o, of_others, rfl⟩ := List.mem_map.mp mem
    exact stamped _ (keys.mem_iff.mp (List.mem_map_of_mem of_others))

/-- Two hours from one state. -/
theorem simulateHour_agree {out out' : Simulated F} (agree : UpTo.Agree Message.ts t messages messages')
    (prints : UpTo.Agree Print.ts t trades trades') (order : UpTo.InOrder Print.ts trades)
    (order' : UpTo.InOrder Print.ts trades')
    (ran : simulateHour float messages trades book hour pair carried lastMsgTs = .ok out)
    (ran' : simulateHour float messages' trades' book hour pair carried lastMsgTs = .ok out') :
    ∃ h pairs later later', hourAt float t messages trades book hour pair carried lastMsgTs = .ok h ∧
      hourAt float t messages' trades' book hour pair carried lastMsgTs = .ok h ∧
      List.Forall₂ (fun p rows => Alike t p rows.1 rows.2) h.carried pairs ∧
      (out.all float).Perm (h.rows ++ pairs.map Prod.fst ++ later) ∧
      (out'.all float).Perm (h.rows ++ pairs.map Prod.snd ++ later') ∧
      ∀ r ∈ later ++ later', t < r.post.ts := by
  obtain ⟨h, gone, later, begun, all, perm, stamped⟩ := simulateHour_goes (t := t) order ran
  obtain ⟨h', gone', later', begun', all', perm', stamped'⟩ := simulateHour_goes (t := t) order' ran'
  have one := hourAt_agree agree prints begun
  rw [begun'] at one
  injection one with same
  subst same
  obtain ⟨both, rfl, rfl, since⟩ := Members.forall₂_both all all'
  refine ⟨h', both.map (Prod.map (FillRow.ofOrder float) (FillRow.ofOrder float)), later, later', begun, begun',
    ?_, ?_, ?_, ?_⟩
  · rw [List.forall₂_map_right_iff]
    exact since.imp fun _ _ each => each.1.alike each.2
  · rw [List.map_map] at perm ⊢
    exact perm
  · rw [List.map_map] at perm' ⊢
    exact perm'
  · intro r mem
    rcases List.mem_append.mp mem with first | second
    · exact stamped r first
    · exact stamped' r second

/- The ladder. -/

variable {e next : Episode F} {prints : List (Print F)}

theorem Episode.ingests_prints (prints : List (Print F)) (read : messages.foldlM Episode.ingest e = .ok next) :
    messages.foldlM Episode.ingest (prints.foldl Episode.print e) = .ok (prints.foldl Episode.print next) := by
  refine Fallible.foldlM_after ?_ prints read
  intro e next m trade read
  obtain ⟨book, applied, same⟩ := Fallible.bind_ok.mp read
  injection same with same
  subst same
  exact Fallible.bind_ok.mpr ⟨book, applied, rfl⟩

theorem Episode.second_split {k : Nat} (first later : List (Print F))
    (stepped : e.second float pair hour k messages (first ++ later) = .ok next) :
    (first.foldl Episode.print e).second float pair hour k messages later = .ok next := by
  unfold Episode.second at stepped ⊢
  obtain ⟨read, ingested, stepped⟩ := Fallible.bind_ok.mp stepped
  refine Fallible.bind_ok.mpr ⟨_, Episode.ingests_prints first ingested, ?_⟩
  rw [← List.foldl_append]
  exact stepped

theorem since_cap {P : Int → Prop} (book : Book) (o : Order F) : Since P o (capOpen float book o) := by
  unfold capOpen
  split
  · refine ⟨rfl, fun _ held => held, ?_, fun _ held => held, ?_, fun _ _ held => held⟩
    · intro absent s set_
      simp only [capQueue, absent] at set_
      cases set_
    · intro absent s set_
      simp only [capQueue, absent] at set_
      cases set_
  · exact Since.refl o

theorem Episode.prints_goes {P : Int → Prop} (times : ∀ p ∈ prints, P p.ts) (e : Episode F) :
    List.Forall₂ (Since P) e.orders (prints.foldl Episode.print e).orders := by
  induction prints generalizing e with
  | nil => exact List.forall₂_refl _
  | cons trade prints ih =>
    obtain ⟨first, rest⟩ := List.forall_mem_cons.mp times
    have one : List.Forall₂ (Since P) e.orders (e.print trade).orders :=
      List.forall₂_map_right_iff.mpr (List.forall₂_same.mpr fun o _ => since_print o first)
    exact Members.forall₂_trans one (ih rest (e.print trade))

theorem Episode.ingests_orders (read : messages.foldlM Episode.ingest e = .ok next) : next.orders = e.orders := by
  induction messages generalizing e with
  | nil =>
    injection read with same
    rw [same]
  | cons m messages ih =>
    rw [List.foldlM_cons] at read
    obtain ⟨mid, first, rest⟩ := Fallible.bind_ok.mp read
    obtain ⟨book, _, same⟩ := Fallible.bind_ok.mp first
    injection same with same
    rw [ih rest, ← same]

/-- A second in which nothing is posted. -/
theorem Episode.second_goes {P : Int → Prop} {k : Nat} (times : ∀ p ∈ prints, P p.ts) (unposted : k ≠ postOffset)
    (stepped : e.second float pair hour k messages prints = .ok next) :
    List.Forall₂ (Since P) e.orders next.orders := by
  unfold Episode.second at stepped
  obtain ⟨read, ingested, stepped⟩ := Fallible.bind_ok.mp stepped
  rw [if_neg unposted] at stepped
  injection stepped with same
  rw [← same, ← Episode.ingests_orders ingested]
  refine Members.forall₂_trans (Episode.prints_goes times read) ?_
  exact List.forall₂_map_right_iff.mpr (List.forall₂_same.mpr fun o _ => since_cap _ o)

/-- What an episode carries through its seconds. -/
abbrev Episode.seconds (float : Decimal → F) (pair : String) (hour : Int) (ks : List Nat) (e : Episode F)
    (messages : List Message) (prints : List (Print F)) :
    Except String (Episode F × List Message × List (Print F)) :=
  UpTo.sweep (boundaryOf hour) Message.ts Print.ts (Episode.second float pair hour) ks e messages prints

theorem Episode.seconds_goes {P : Int → Prop} {ks : List Nat} {left : List Message} {lefts : List (Print F)}
    (times : ∀ p ∈ prints, P p.ts) (unposted : ∀ k ∈ ks, k ≠ postOffset)
    (ran : e.seconds float pair hour ks messages prints = .ok (next, left, lefts)) :
    List.Forall₂ (Since P) e.orders next.orders := by
  induction ks generalizing e messages prints with
  | nil =>
    injection ran with same
    injection same with same
    rw [same]
    exact List.forall₂_refl _
  | cons k ks ih =>
    obtain ⟨first, later⟩ := List.forall_mem_cons.mp unposted
    unfold Episode.seconds UpTo.sweep at ran
    obtain ⟨mid, stepped, ran⟩ := Fallible.bind_ok.mp ran
    have one := Episode.second_goes (fun p mem => times p ((List.takeWhile_sublist _).subset mem)) first stepped
    exact Members.forall₂_trans one (ih (fun p mem => times p ((List.dropWhile_sublist _).subset mem)) later ran)

/-- Every order of an episode is of its one post. -/
def Episode.Posted (hour : Int) (e : Episode F) : Prop := ∀ o ∈ e.orders, o.ts = boundaryOf hour postOffset

theorem posted_goes {orders : List (Order F)} (stamped : ∀ o ∈ orders, o.ts = t)
    {orders' : List (Order F)} (goes : List.Forall₂ (Since fun _ => True) orders orders') :
    ∀ o ∈ orders', o.ts = t := by
  intro o mem
  obtain ⟨p, before, since⟩ := Fallible.partner_of goes mem
  have same : o.ts = p.ts := congrArg Post.ts since.post
  rw [same]
  exact stamped p before

theorem Episode.second_posted {k : Nat} (posted : e.Posted hour)
    (stepped : e.second float pair hour k messages prints = .ok next) : next.Posted hour := by
  by_cases here : k = postOffset
  · unfold Episode.second at stepped
    obtain ⟨read, _, stepped⟩ := Fallible.bind_ok.mp stepped
    rw [if_pos here] at stepped
    obtain ⟨⟨posts, counts⟩, made, stepped⟩ := Fallible.bind_ok.mp stepped
    injection stepped with same
    subst same
    obtain ⟨stamped, _⟩ := postAt_ok made
    intro o mem
    obtain ⟨p, of_posts, rfl⟩ := List.mem_map.mp mem
    rw [← here]
    exact stamped p of_posts
  · exact posted_goes posted (Episode.second_goes (P := fun _ => True) (fun _ _ => trivial) here stepped)

theorem Episode.seconds_posted {ks : List Nat} {left : List Message} {lefts : List (Print F)}
    (posted : e.Posted hour) (ran : e.seconds float pair hour ks messages prints = .ok (next, left, lefts)) :
    next.Posted hour := by
  induction ks generalizing e messages prints with
  | nil =>
    injection ran with same
    injection same with same
    exact same ▸ posted
  | cons k ks ih =>
    unfold Episode.seconds UpTo.sweep at ran
    obtain ⟨mid, stepped, ran⟩ := Fallible.bind_ok.mp ran
    exact ih (Episode.second_posted posted stepped) ran

theorem boundaryOf_le {k n : Nat} (le : k ≤ n) : boundaryOf hour k ≤ boundaryOf hour n := by
  unfold boundaryOf
  omega

/-- The orders of an episode that is posted, at an instant before its box end and at its end. -/
theorem Episode.goes {ks : List Nat} {left : List Message} {lefts : List (Print F)} (posted : boundaryOf hour postOffset ≤ t)
    (open_ : ∃ k ∈ ks, t < boundaryOf hour k) (grid : UpTo.InOrder (boundaryOf hour) ks)
    (order : UpTo.InOrder Print.ts prints)
    (ran : e.seconds float pair hour ks messages prints = .ok (next, left, lefts)) :
    ∃ begun behind behinds,
      e.seconds float pair hour (UpTo.early (boundaryOf hour) t ks) messages prints = .ok (begun, behind, behinds) ∧
      List.Forall₂ (Since (t < ·)) ((UpTo.early Print.ts t behinds).foldl Episode.print begun).orders next.orders := by
  obtain ⟨begun, behind, behinds, first, later⟩ := UpTo.sweep_split t ran
  have behinds_order := UpTo.sweep_order order first
  refine ⟨begun, behind, behinds, first, ?_⟩
  have after := grid.after (t := t)
  have whole : UpTo.early (boundaryOf hour) t ks ++ UpTo.late (boundaryOf hour) t ks = ks := UpTo.early_late t ks
  cases left_ks : UpTo.late (boundaryOf hour) t ks with
  | nil =>
    obtain ⟨k, of_ks, opened⟩ := open_
    rw [left_ks, List.append_nil] at whole
    rw [← whole] at of_ks
    have := UpTo.mem_early of_ks
    omega
  | cons k later_ks =>
    rw [left_ks] at later after
    have ahead := UpTo.sweep_ahead (fun prints e => prints.foldl Episode.print e)
      (fun _ first rest _ _ => Episode.second_split first rest) (after k List.mem_cons_self) later
    apply Episode.seconds_goes behinds_order.after ?_ ahead
    intro j of_ks same
    have := after j of_ks
    rw [same] at this
    omega

/-- Two episodes from one state. -/
theorem simulateEpisode_agree {rows rows' : List (LadderRow F)} {counts counts' : Counts}
    (agree : UpTo.Agree Message.ts t messages messages') (prints : UpTo.Agree Print.ts t trades trades')
    (order : UpTo.InOrder Print.ts trades) (order' : UpTo.InOrder Print.ts trades')
    (ran : simulateEpisode float messages trades book hour pair lastMsgTs = .ok (rows, counts))
    (ran' : simulateEpisode float messages' trades' book hour pair lastMsgTs = .ok (rows', counts')) :
    (∀ r ∈ rows ++ rows', r.post.ts = boundaryOf hour postOffset) ∧
      (boundaryOf hour postOffset ≤ t → List.Forall₂ (fun r r' => r.outcome.By t r'.outcome ∧
        r'.outcome.By t r.outcome) rows rows') ∧
      (boundaryOf hour boxEnd ≤ t → rows = rows') := by
  have last_of_grid : boxEnd ∈ List.range (boxEnd + 1) := List.self_mem_range_succ
  have of_grid : ∀ k ∈ List.range (boxEnd + 1), boundaryOf hour k ≤ boundaryOf hour boxEnd := fun k mem =>
    boundaryOf_le (Nat.lt_succ_iff.mp (List.mem_range.mp mem))
  have grid_order := range_order hour (boxEnd + 1)
  unfold simulateEpisode at ran ran'
  generalize List.range (boxEnd + 1) = grid at last_of_grid of_grid grid_order ran ran'
  obtain ⟨⟨e, left, lefts⟩, swept, ran⟩ := Fallible.bind_ok.mp ran
  obtain ⟨⟨e', left', lefts'⟩, swept', ran'⟩ := Fallible.bind_ok.mp ran'
  injection ran with same
  injection same with same_rows
  injection ran' with same'
  injection same' with same_rows'
  subst same_rows same_rows'
  have whole : boundaryOf hour boxEnd ≤ t → e = e' := by
    intro ended
    obtain ⟨_, _, one, _⟩ := UpTo.sweep_agree (fun k mem => (of_grid k mem).trans ended) agree prints swept
    rw [swept'] at one
    injection one with one
    injection one with one
    exact one.symm
  refine ⟨?_, ?_, ?_⟩
  · have stamped := Episode.seconds_posted (by simp [Episode.Posted]) swept
    have stamped' := Episode.seconds_posted (by simp [Episode.Posted]) swept'
    intro r mem
    rcases List.mem_append.mp mem with here | there
    · obtain ⟨o, of_orders, rfl⟩ := List.mem_map.mp here
      exact stamped o of_orders
    · obtain ⟨o, of_orders, rfl⟩ := List.mem_map.mp there
      exact stamped' o of_orders
  · intro posted
    by_cases ended : boundaryOf hour boxEnd ≤ t
    · rw [whole ended]
      exact List.forall₂_same.mpr fun r _ =>
        have by_itself : r.outcome.By t r.outcome := ⟨rfl, fun _ set_ _ => ⟨rfl, set_, rfl⟩⟩
        ⟨by_itself, by_itself⟩
    · have open_ : ∃ k ∈ grid, t < boundaryOf hour k := ⟨boxEnd, last_of_grid, by omega⟩
      obtain ⟨begun, behind, behinds, first, since⟩ := Episode.goes posted open_ grid_order order swept
      obtain ⟨begun', behind', behinds', first', since'⟩ := Episode.goes posted open_ grid_order order' swept'
      obtain ⟨_, _, one, _, still⟩ :=
        UpTo.sweep_agree (fun k mem => UpTo.mem_early mem) agree prints first
      have same := first'.symm.trans one
      injection same with same
      injection same with same_begun same
      injection same with _ same_behinds
      subst same_begun same_behinds
      unfold UpTo.Agree at still
      rw [← still] at since'
      obtain ⟨both, of_e, of_e', pairs⟩ := Members.forall₂_both since since'
      rw [← of_e, ← of_e', List.forall₂_map_left_iff, List.forall₂_map_right_iff, List.forall₂_map_left_iff,
        List.forall₂_map_right_iff]
      refine List.forall₂_same.mpr fun item mem => ?_
      obtain ⟨p, _, one, other⟩ := Fallible.partner_of pairs mem
      exact ⟨one.outcome_by other, other.outcome_by one⟩
  · intro ended
    rw [whole ended]

end

/- All three. -/

theorem anchor_same {Sample Bytes : Type} (sampler : Sampler Sample Bytes) {messages messages' : List Message}
    (opening : opensWithSnapshot messages = opensWithSnapshot messages') (book : Option Book) :
    anchor sampler messages book = anchor sampler messages' book := by
  unfold anchor
  unfold opensWithSnapshot at opening
  rw [opening]

/-- Over messages and prints that are the same up to an instant: the panel's rows by it are the same where
    the two hours open alike, the fills' rows of an order are alike as of it, and so are the ladder's, which
    are the same from the box end on. -/
theorem no_look_ahead {Sample Bytes F : Type} [Zero F] [NatCast F] [Add F] [Sub F] [Mul F] [Div F] [Max F] [Min F]
    [LE F] [DecidableLE F] [DecidableEq F] (sampler : Sampler Sample Bytes) (float : Decimal → F) (pair : String)
    (hour : Int) (lastMsgTs : Option Int) (t : Int) :
    (∀ (book : Option Book) (frame frame' : List Row) (rows rows' : List (Int × Sample)) (ended ended' : Book)
      (last last' : Option Int),
      UpTo.Agree Message.ts t (regroupMessages frame) (regroupMessages frame') →
      opensWithSnapshot (regroupMessages frame) = opensWithSnapshot (regroupMessages frame') →
      materializeHour sampler pair hour frame book lastMsgTs = .ok (rows, ended, last) →
      materializeHour sampler pair hour frame' book lastMsgTs = .ok (rows', ended', last') →
      rows.filter (·.1 ≤ t) = rows'.filter (·.1 ≤ t)) ∧
    ∀ (book : Book) (messages messages' : List Message) (trades trades' : List (Print F)),
      UpTo.Agree Message.ts t messages messages' → UpTo.Agree Print.ts t trades trades' →
      UpTo.InOrder Print.ts trades → UpTo.InOrder Print.ts trades' →
      (∀ (carried : List (Order F)) (out out' : Simulated F),
        simulateHour float messages trades book hour pair carried lastMsgTs = .ok out →
        simulateHour float messages' trades' book hour pair carried lastMsgTs = .ok out' →
        ∃ h pairs later later', hourAt float t messages trades book hour pair carried lastMsgTs = .ok h ∧
          hourAt float t messages' trades' book hour pair carried lastMsgTs = .ok h ∧
          List.Forall₂ (fun p rows => Alike t p rows.1 rows.2) h.carried pairs ∧
          (out.all float).Perm (h.rows ++ pairs.map Prod.fst ++ later) ∧
          (out'.all float).Perm (h.rows ++ pairs.map Prod.snd ++ later') ∧
          ∀ r ∈ later ++ later', t < r.post.ts) ∧
      ∀ (rows rows' : List (LadderRow F)) (counts counts' : Counts),
        simulateEpisode float messages trades book hour pair lastMsgTs = .ok (rows, counts) →
        simulateEpisode float messages' trades' book hour pair lastMsgTs = .ok (rows', counts') →
        (∀ r ∈ rows ++ rows', r.post.ts = boundaryOf hour postOffset) ∧
          (boundaryOf hour postOffset ≤ t → List.Forall₂ (fun r r' => r.outcome.By t r'.outcome ∧
            r'.outcome.By t r.outcome) rows rows') ∧
          (boundaryOf hour boxEnd ≤ t → rows = rows') := by
  refine ⟨?_, ?_⟩
  · intro book frame frame' rows rows' ended ended' last last' agree opening read read'
    exact materializeHour_agree (anchor_same sampler opening book) agree read read'
  · intro book messages messages' trades trades' agree prints order order'
    refine ⟨?_, ?_⟩
    · intro carried out out' ran ran'
      exact simulateHour_agree agree prints order order' ran ran'
    · intro rows rows' counts counts' ran ran'
      exact simulateEpisode_agree agree prints order order' ran ran'

/- An hour that goes on from the book it is given until its last half second, when a snapshot comes, or
   nothing does: the snapshot is its own anchor, so the hour has no row before it. -/

def quotedRows : Sampler Nat Nat :=
  ⟨fun bids asks _ _ _ => .ok (if bids.isEmpty || asks.isEmpty then none else some bids.length), List.length,
    fun _ => "digest", 100⟩

def quotedBook : Book :=
  ⟨100, [(.finite false 100 0, .finite false 1 0)], [(.finite false 102 0, .finite false 1 0)]⟩

def lateRow (type : String) : List Row :=
  [⟨3599500000, "BTC/EUR", type, none, "bid", some (.finite false 100 0), some (.finite false 1 0)⟩]

/-- What is sampled of a book while no message comes. -/
theorem sampleSeconds_still (quote : String) (book : Book) (last : Option Int) {seconds : List Int}
    {messages : List Message} (still : ∀ b ∈ seconds, ∀ m ∈ messages.head?, b < m.ts) :
    sampleSeconds quotedRows quote seconds ⟨book, last, 0⟩ messages =
      .ok (seconds.flatMap fun b => ((if book.bids.isEmpty || book.asks.isEmpty then none
        else some book.bids.length).map (b, ·)).toList, ⟨book, last, 0⟩, messages) := by
  induction seconds with
  | nil => rfl
  | cons b seconds ih =>
    obtain ⟨first, rest⟩ := List.forall_mem_cons.mp still
    have walk : Walk.upTo b messages ⟨book, last, 0⟩ = .ok (⟨book, last, 0⟩, messages) := by
      cases messages with
      | nil => rfl
      | cons m messages =>
        have after := first m rfl
        rw [Walk.upTo, if_neg (by omega)]
    rw [sampleSeconds]
    refine Fallible.bind_ok.mpr ⟨_, walk, Fallible.bind_ok.mpr ⟨_, rfl, Fallible.bind_ok.mpr ⟨_, ih rest, ?_⟩⟩⟩
    rw [List.flatMap_cons]
    rfl

theorem boundaries_before : ∀ b ∈ boundaries 0, b < 3599500000 := by
  intro b mem
  rw [boundaries_eq] at mem
  obtain ⟨k, of_range, rfl⟩ := List.mem_map.mp mem
  have inside := List.mem_range.mp of_range
  unfold secondsPerHour at inside
  unfold boundaryOf startOf
  omega

/-- An hour with nothing in it before its last half second. -/
theorem still_hour (frame : List Row) (start : Book) {w : Walk}
    (late : ∀ m ∈ (regroupMessages frame).head?, m.ts = 3599500000)
    (anchored : anchor quotedRows (regroupMessages frame) (some quotedBook) = .ok start)
    (drained : (regroupMessages frame).foldlM Walk.apply ⟨start, none, 0⟩ = .ok w) :
    materializeHour quotedRows "BTC/EUR" 0 frame (some quotedBook) none =
      .ok ((boundaries 0).flatMap fun b => ((if start.bids.isEmpty || start.asks.isEmpty then none
        else some start.bids.length).map (b, ·)).toList, w.book, w.lastMsgTs) := by
  have before := boundaries_before
  unfold materializeHour
  generalize boundaries 0 = grid at before ⊢
  have still : ∀ b ∈ grid, ∀ m ∈ (regroupMessages frame).head?, b < m.ts := by
    intro b mem m head
    rw [late m head]
    exact before b mem
  have sampled := sampleSeconds_still (quoteOf "BTC/EUR") start none still
  exact Fallible.bind_ok.mpr ⟨start, anchored, Fallible.bind_ok.mpr ⟨_, Fallible.mapError_ok.mpr sampled,
    Fallible.bind_ok.mpr ⟨w, Fallible.mapError_ok.mpr drained, rfl⟩⟩⟩

theorem late_snapshot_fails :
    ∃ rows rows' ended ended' last last',
      UpTo.Agree Message.ts 3599000000 (regroupMessages (lateRow "snapshot")) (regroupMessages []) ∧
      materializeHour quotedRows "BTC/EUR" 0 (lateRow "snapshot") (some quotedBook) none = .ok (rows, ended, last) ∧
      materializeHour quotedRows "BTC/EUR" 0 [] (some quotedBook) none = .ok (rows', ended', last') ∧
      rows.filter (·.1 ≤ 3599000000) ≠ rows'.filter (·.1 ≤ 3599000000) := by
  refine ⟨_, _, _, _, _, _, rfl, still_hour _ ⟨100, [], []⟩ (by simp [regroupMessages, lateRow, regroupRow])
    rfl rfl, still_hour [] quotedBook (by simp [regroupMessages]) rfl rfl, ?_⟩
  intro same
  have first : ((0 : Int), 1) ∈ ((boundaries 0).flatMap fun b => [(b, 1)]).filter (·.1 ≤ 3599000000) := by
    have zero : (0 : Int) ∈ boundaries 0 := by
      rw [boundaries_eq]
      exact List.mem_map.mpr ⟨0, List.mem_range.mpr (by unfold secondsPerHour; omega), rfl⟩
    rw [List.mem_filter]
    exact ⟨List.mem_flatMap.mpr ⟨0, zero, List.mem_singleton_self _⟩, by decide⟩
  have nothing : ((boundaries 0).flatMap fun b => ((none : Option Nat).map (b, ·)).toList) = [] := by simp
  have moved : ((0 : Int), 1) ∈ ((boundaries 0).flatMap fun b => ((none : Option Nat).map (b, ·)).toList).filter
      (·.1 ≤ 3599000000) := Eq.mp (congrArg (((0 : Int), 1) ∈ ·) same.symm) first
  rw [nothing] at moved
  cases moved

/- An hour of a one-sided book and no message: nothing is posted, and nothing can fail. -/

section
variable {F : Type} [Zero F] [NatCast F] [Add F] [Sub F] [Mul F] [Div F] [Max F] [Min F] [LE F] [DecidableLE F]
  [DecidableEq F] (float : Decimal → F) (pair : String) (hour : Int)

theorem postAt_quiet {book : Book} (quiet : best book .bid = none) (boundary : Int) (lastMsgTs : Option Int)
    (counts : Counts) : ∃ after, postAt float book boundary pair lastMsgTs counts = .ok ([], after) := by
  have unposted : postOrders float book boundary pair (staleness boundary lastMsgTs) = .ok [] := by
    unfold postOrders
    rw [quiet]
  unfold postAt
  rw [unposted]
  split
  · exact ⟨_, rfl⟩
  · exact ⟨_, rfl⟩

theorem readDue_book (boundary : Int) (h : Hour F) : (h.readDue float boundary).book = h.book := by
  have each : ∀ (mid : F) (due : List Awaited) (h : Hour F),
      (due.foldl (Hour.readMid float mid) h).book = h.book := by
    intro mid due
    induction due with
    | nil => exact fun _ => rfl
    | cons a due ih =>
      intro h
      rw [List.foldl_cons, ih]
      unfold Hour.readMid
      split <;> rfl
  unfold Hour.readDue
  split
  · rfl
  · exact each _ _ _

theorem second_quiet {h : Hour F} (boundary : Int) (onGrid : Bool) (prints : List (Print F))
    (quiet : best h.book .bid = none) :
    ∃ next, h.second float pair boundary onGrid [] prints = .ok next ∧ best next.book .bid = none := by
  have settled : ∀ ticked : Hour F, ticked.book = h.book →
      (Hour.readDue float boundary { prints.foldl Hour.print ticked with
        orders := (prints.foldl Hour.print ticked).orders.map
          (tickCancel float (prints.foldl Hour.print ticked).book boundary (prints.foldl Hour.print ticked).tick)
        }).book = h.book := by
    intro ticked same
    obtain ⟨book, _⟩ := prints_book prints ticked
    rw [readDue_book]
    exact book.trans same
  unfold Hour.second
  cases onGrid with
  | false => exact ⟨_, rfl, (congrArg (best · .bid) (settled h rfl)).trans quiet⟩
  | true =>
    have still := (congrArg (best · .bid) (settled { h with tick := pairTick h.book } rfl)).trans quiet
    obtain ⟨counts, posted⟩ := postAt_quiet float pair still boundary _ _
    exact ⟨_, Fallible.bind_ok.mpr ⟨h, rfl, Fallible.bind_ok.mpr ⟨_, posted, rfl⟩⟩, still⟩

theorem seconds_quiet (ks : List Nat) (h : Hour F) (prints : List (Print F)) (quiet : best h.book .bid = none) :
    ∃ next left, Hour.seconds float pair hour ks h [] prints = .ok (next, [], left) := by
  induction ks generalizing h prints with
  | nil => exact ⟨h, prints, rfl⟩
  | cons k ks ih =>
    obtain ⟨mid, stepped, still⟩ := second_quiet float pair (boundaryOf hour k)
      (k % gridS = 0) (prints.takeWhile (·.ts ≤ boundaryOf hour k)) quiet
    obtain ⟨next, left, later⟩ := ih mid (prints.dropWhile (·.ts ≤ boundaryOf hour k)) still
    exact ⟨next, left, Fallible.bind_ok.mpr ⟨mid, stepped, later⟩⟩

theorem simulateHour_quiet {book : Book} (trades : List (Print F)) (carried : List (Order F))
    (lastMsgTs : Option Int) (quiet : best book .bid = none) :
    ∃ out, simulateHour float [] trades book hour pair carried lastMsgTs = .ok out := by
  obtain ⟨next, left, ran⟩ := seconds_quiet float pair hour
    (List.range secondsPerHour) (Hour.start book lastMsgTs carried) trades quiet
  exact ⟨_, Fallible.bind_ok.mpr ⟨_, Fallible.bind_ok.mpr ⟨_, ran, rfl⟩, rfl⟩⟩

end

/-- A print of two at a bid's price, and then one through it or nothing. -/
def onePrint : List (Print ℚ) := [⟨500000, .sell, .number 100, 2⟩]

def thenThrough : List (Print ℚ) := onePrint ++ [⟨2000000, .sell, .number 99, 4⟩]

theorem late_update_unseen :
    ∃ rows rows' ended ended' last last' out out' eps eps' counts counts',
      materializeHour quotedRows "BTC/EUR" 0 (lateRow "update") (some quotedBook) none = .ok (rows, ended, last) ∧
      materializeHour quotedRows "BTC/EUR" 0 [] (some quotedBook) none = .ok (rows', ended', last') ∧
      rows.filter (·.1 ≤ 1000000) = rows'.filter (·.1 ≤ 1000000) ∧
      simulateHour exact [] onePrint ⟨100, [], []⟩ 0 "BTC/EUR" [bidPost.order] none = .ok out ∧
      simulateHour exact [] thenThrough ⟨100, [], []⟩ 0 "BTC/EUR" [bidPost.order] none = .ok out' ∧
      (∃ h pairs later later',
        hourAt exact 1000000 [] onePrint ⟨100, [], []⟩ 0 "BTC/EUR" [bidPost.order] none = .ok h ∧
        hourAt exact 1000000 [] thenThrough ⟨100, [], []⟩ 0 "BTC/EUR" [bidPost.order] none = .ok h ∧
        List.Forall₂ (fun p rows => Alike 1000000 p rows.1 rows.2) h.carried pairs ∧
        (out.all exact).Perm (h.rows ++ pairs.map Prod.fst ++ later) ∧
        (out'.all exact).Perm (h.rows ++ pairs.map Prod.snd ++ later') ∧
        ∀ r ∈ later ++ later', 1000000 < r.post.ts) ∧
      simulateEpisode exact [] onePrint ⟨100, [], []⟩ 0 "BTC/EUR" none = .ok (eps, counts) ∧
      simulateEpisode exact [] thenThrough ⟨100, [], []⟩ 0 "BTC/EUR" none = .ok (eps', counts') ∧
      ∀ r ∈ eps ++ eps', r.post.ts = boundaryOf 0 postOffset := by
  have quiet : best ⟨100, [], []⟩ .bid = none := rfl
  obtain ⟨out, ran⟩ := simulateHour_quiet exact "BTC/EUR" 0
    onePrint [bidPost.order] none quiet
  obtain ⟨out', ran'⟩ := simulateHour_quiet exact "BTC/EUR" 0
    thenThrough [bidPost.order] none quiet
  obtain ⟨⟨eps, counts⟩, episode⟩ : ∃ out, simulateEpisode exact [] onePrint ⟨100, [], []⟩ 0 "BTC/EUR" none = .ok out :=
    Fallible.ok_of_toBool (by decide +kernel)
  obtain ⟨⟨eps', counts'⟩, episode'⟩ : ∃ out,
      simulateEpisode exact [] thenThrough ⟨100, [], []⟩ 0 "BTC/EUR" none = .ok out :=
    Fallible.ok_of_toBool (by decide +kernel)
  obtain ⟨panel, rest⟩ := no_look_ahead quotedRows exact "BTC/EUR" 0 none 1000000
  obtain ⟨fills, ladder⟩ := rest ⟨100, [], []⟩ [] [] onePrint thenThrough rfl rfl
    (by simp [UpTo.InOrder, onePrint]) (by simp [UpTo.InOrder, thenThrough, onePrint])
  obtain ⟨w, drained⟩ : ∃ w, (regroupMessages (lateRow "update")).foldlM Walk.apply ⟨quotedBook, none, 0⟩ = .ok w :=
    Fallible.ok_of_toBool (by decide +kernel)
  have read := still_hour (lateRow "update") quotedBook (by simp [regroupMessages, lateRow, regroupRow]) rfl drained
  have read' := still_hour [] quotedBook (w := ⟨quotedBook, none, 0⟩) (by simp [regroupMessages]) rfl rfl
  have same := panel (some quotedBook) (lateRow "update") [] _ _ _ _ _ _ rfl rfl read read'
  exact ⟨_, _, _, _, _, _, out, out', eps, eps', counts, counts', read, read', same, ran, ran',
    fills _ _ _ ran ran', episode, episode',
    (ladder _ _ _ _ episode episode').1⟩

end Panel
