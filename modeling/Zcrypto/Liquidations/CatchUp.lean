import Zcrypto.Liquidations.Followed
import Mathlib.Order.ConditionallyCompleteLattice.Basic
import Mathlib.Data.Int.ConditionallyCompleteOrder

/- The poller catches up. No bucket is stored twice, and each that a cycle received is stored, still
   buffered, or was dropped with a buffer that was not written; a mark is past no other bucket that
   may still come. -/
namespace Coinalyze
open Segments Effects Effects.Prog

/-- What the service has of each symbol's closed buckets, with its sides where they are numbers, and
    the start of the first bucket that it still has at a request. -/
structure Service where
  bucket : String → Int → Option (Option String)
  since : Nat → Int

/-- An answer has every closed bucket of its window that the service still has, as the service has it. -/
structure Service.Faithful (s : Service) (h : Host) : Prop where
  nonneg : ∀ symbol t sides, s.bucket symbol t = some sides → 0 ≤ t
  purges : Monotone s.since
  answers : ∀ n frm upto payload entry history, h.fetch n frm upto = some payload →
    some entry ∈ payload → entry.history = some history →
    ∀ b : Bucket, b.t + bucketSeconds ≤ upto - closeMarginSeconds →
      (b ∈ history ↔ frm ≤ b.t ∧ s.since n ≤ b.t ∧ s.bucket entry.symbol b.t = some b.sides)

/-- The rows of a coin that may still come. -/
def due (s : Service) (coin : String) (lo : Int) (q : Row) : Prop :=
  ∃ t sides, s.bucket (symbolFor coin) t = some (some sides) ∧ lo ≤ t ∧
    q = bucketRow (symbolFor coin) t sides

/-- The start of the first bucket that a cycle from then on may receive. -/
def edge (h : Host) (s : Service) (n : Nat) : Int :=
  max (h.world.clock n / second - catchupWindowSeconds) (s.since n)

section
variable {h : Host} {s : Service} {lo lo' : Int} {coin : String} {q r : Row} {n m : Nat}

theorem due_mono (le : lo ≤ lo') (d : due s coin lo' q) : due s coin lo q := by
  obtain ⟨t, sides, held, after, rfl⟩ := d
  exact ⟨t, sides, held, le.trans after, rfl⟩

theorem due_nonneg (faithful : s.Faithful h) (d : due s coin lo q) : 0 ≤ q.ts := by
  obtain ⟨t, sides, held, -, rfl⟩ := d
  have start := faithful.nonneg _ t _ held
  show 0 ≤ t * second
  unfold second
  omega

theorem due_eq (one : due s coin lo q) (two : due s coin lo r) (same : q.ts = r.ts) : q = r := by
  obtain ⟨t, sides, held, -, rfl⟩ := one
  obtain ⟨t', sides', held', -, rfl⟩ := two
  have equal : t * second = t' * second := same
  unfold second at equal
  obtain rfl : t = t' := by omega
  rw [held] at held'
  rw [Option.some.inj (Option.some.inj held')]

theorem edge_mono (faithful : s.Faithful h) (clock : Monotone h.world.clock) (le : n ≤ m) :
    edge h s n ≤ edge h s m := by
  have later := clock le
  have purged := faithful.purges le
  unfold edge second
  omega

/- A coin at an idle process and in a running one. -/

/-- What of a coin outlasts the process. -/
abbrev Rests (h : Host) (s : Service) (lo : Int) (p : Poller) (coin : String) : Prop :=
  Kept (symbolFor coin) (due s coin lo) (· ∈ p.dropped coin) (h.world.clock p.asked) (p.tapes coin)

/-- A coin's writer is past nothing that may still come and was not followed, and all that was
    received has been. -/
structure Lives (h : Host) (s : Service) (lo : Int) (p : Poller) (coin : String) : Prop where
  alive : Alive (symbolFor coin) (due s coin lo) (· ∈ p.dropped coin) (p.mark coin * second)
    (h.world.clock p.asked) (p.tapes coin)
  received : ∀ e ∈ p.received coin, Accounted (· ∈ p.dropped coin) (p.tapes coin) e.2

/-- Of every coin, up to what may still come from now on. -/
structure Resting (h : Host) (s : Service) (p : Poller) : Prop where
  rests : ∃ lo, lo ≤ edge h s p.asked ∧ ∀ coin ∈ coins, Rests h s lo p coin

structure Living (h : Host) (s : Service) (lo : Int) (p : Poller) : Prop where
  lo_le : lo ≤ edge h s p.asked
  lives : ∀ coin ∈ coins, Lives h s lo p coin

variable {p p' : Poller}

theorem Living.resting (l : Living h s lo p) : Resting h s p :=
  ⟨lo, l.lo_le, fun coin mem => (l.lives coin mem).alive.toKept⟩

/-- What happens to other coins leaves a coin as it is. -/
theorem Rests.frame (r : Rests h s lo p coin) (clock : Monotone h.world.clock) (le : p.asked ≤ p'.asked)
    (tapes : p'.tapes coin = p.tapes coin) (dropped : p'.dropped coin = p.dropped coin) :
    Rests h s lo p' coin := by
  unfold Rests
  rw [tapes, dropped]
  exact r.later (fun _ d => d) (fun _ d => d) (clock le)

theorem Lives.frame (l : Lives h s lo p coin) (clock : Monotone h.world.clock) (le : p.asked ≤ p'.asked)
    (tapes : p'.tapes coin = p.tapes coin) (dropped : p'.dropped coin = p.dropped coin)
    (marks : p'.marks coin = p.marks coin) (received : p'.received coin = p.received coin) :
    Lives h s lo p' coin := by
  constructor
  · rw [tapes, dropped, Poller.mark, marks]
    exact l.alive.later (fun _ d => d) (fun _ d => d) (clock le)
  · rw [tapes, dropped, received]
    exact l.received

/-- Less may come later. -/
theorem Lives.raise (l : Lives h s lo p coin) (le : lo ≤ lo') : Lives h s lo' p coin :=
  ⟨l.alive.later (fun _ d => due_mono le d) (fun _ d => d) (le_refl _), l.received⟩

/-- Asking the host for something else. -/
theorem Living.asked (l : Living h s lo p) (faithful : s.Faithful h) (clock : Monotone h.world.clock)
    (le : p.asked ≤ n) : Living h s lo { p with asked := n } :=
  ⟨l.lo_le.trans (edge_mono faithful clock le),
    fun coin mem => (l.lives coin mem).frame clock le rfl rfl rfl rfl⟩

/- Files that cannot be read are set aside, and never taken back. -/

def Clean (p : Poller) : Prop := ∀ coin ∈ coins, Spotless (p.tapes coin).disk

/-- What holds of a poller of which nothing was set aside. -/
abbrev Where (P : Poller → Prop) (p : Poller) : Prop := Clean p → P p

/- A writer's call. -/

/-- The tape a call finds. -/
def Poller.entry (p : Poller) (coin : String) : Tape := { p.tapes coin with asked := p.asked }

/-- What a call leaves. -/
def Poller.left (p : Poller) (w : World) (coin : String) (offered : List Row) (t : Tape) : Poller :=
  { p with
    tapes := Function.update p.tapes coin t
    asked := t.asked
    dropped := Function.update p.dropped coin
      (p.dropped coin ++ droppedBy w ((p.tapes coin).mem.buffer ++ offered) p.asked t) }

theorem wp_writing {α : Type} {offered : List Row} {call : Seg α} {Q : Post Poller α} :
    wp h (writing coin offered call) Q p ↔
      wp (settings h.world) call
        ⟨fun a t => Q.ok a (p.left h.world coin offered t),
          fun t => Q.raised (p.left h.world coin offered t),
          fun t => Q.died (p.left h.world coin offered t)⟩ (p.entry coin) := by
  unfold wp writing writer Poller.left Poller.entry
  simp only [Function.update_self]
  rcases call (settings h.world) { p.tapes coin with asked := p.asked } with ⟨_ | _ | _, t⟩ <;> rfl

@[simp] theorem left_tapes {offered : List Row} {t : Tape} :
    (p.left h.world coin offered t).tapes coin = t := Function.update_self ..

/-- What it dropped is what is lost. -/
theorem loses_left (coin : String) (offered : List Row) (t : Tape) :
    Loses (settings h.world) (p.entry coin) offered t (· ∈ p.dropped coin)
      (· ∈ (p.left h.world coin offered t).dropped coin) := by
  constructor
  · intro q mem
    simp only [Poller.left, Function.update_self]
    exact List.mem_append_left _ mem
  · intro q mem buffered landed failed
    have fails : Failed h.world p.asked t.asked := failed
    simp only [Poller.left, Function.update_self, droppedBy, if_pos fails]
    exact List.mem_append_right _ (List.mem_filter.mpr ⟨mem, by simp [buffered, landed]⟩)

theorem clean_left {offered : List Row} {t : Tape} (mem : coin ∈ coins)
    (reached : Reached (p.tapes coin) t) (clean : Clean (p.left h.world coin offered t)) : Clean p := by
  intro other there
  have spotless := clean other there
  by_cases same : other = coin
  · subst same
    simp only [Poller.left, Function.update_self] at spotless
    exact reached.spotless spotless
  · simpa [Poller.left, Function.update_of_ne same] using spotless

/-- A call of one coin's writer, where the coin may be followed and the others stay as they are. -/
theorem wp_call {α : Type} {offered : List Row} {call : Seg α} {Q : Post Tape α} (mem : coin ∈ coins)
    (moves : ∀ t₀, Moves (settings h.world) t₀ call)
    (spec : Clean p → wp (settings h.world) call Q (p.entry coin)) :
    wp h (writing coin offered call)
      ⟨fun a p' => Where (fun p' => Clean p ∧ ∃ t, Q.ok a t ∧ p' = p.left h.world coin offered t) p',
        Where fun p' => Clean p ∧ ∃ t, Q.raised t ∧ p' = p.left h.world coin offered t,
        Where fun p' => Clean p ∧ ∃ t, Q.died t ∧ p' = p.left h.world coin offered t⟩ p := by
  rw [wp_writing]
  have entry : Reached (p.tapes coin) (p.entry coin) := Relation.ReflTransGen.refl.tail (.aside rfl rfl)
  have reaches := moves (p.tapes coin) (p.entry coin) entry
  by_cases clean : Clean p
  · apply wp_mono (spec clean)
    · exact fun a t ok _ => ⟨clean, t, ok, rfl⟩
    · exact fun t raised _ => ⟨clean, t, raised, rfl⟩
    · exact fun t died _ => ⟨clean, t, died, rfl⟩
  · apply wp_mono reaches
    · exact fun a t reached after => absurd (clean_left mem reached after) clean
    · exact fun t reached after => absurd (clean_left mem reached after) clean
    · exact fun t reached after => absurd (clean_left mem reached after) clean

/-- Nothing but one coin's state is other than it was. -/
structure Elsewhere (coin : String) (p p' : Poller) : Prop where
  asked : p.asked ≤ p'.asked
  tapes : ∀ other, other ≠ coin → p'.tapes other = p.tapes other
  dropped : ∀ other, other ≠ coin → p'.dropped other = p.dropped other
  marks : ∀ other, other ≠ coin → p'.marks other = p.marks other
  received : p'.received = p.received

theorem elsewhere_left (coin : String) (offered : List Row) {t : Tape} (le : p.asked ≤ t.asked) :
    Elsewhere coin p (p.left h.world coin offered t) :=
  ⟨le, fun _ apart => Function.update_of_ne apart _ _, fun _ apart => Function.update_of_ne apart _ _,
    fun _ _ => rfl, rfl⟩

theorem Living.change (l : Living h s lo p) (faithful : s.Faithful h) (clock : Monotone h.world.clock)
    (same : Elsewhere coin p p') (own : Lives h s lo p' coin) : Living h s lo p' := by
  refine ⟨l.lo_le.trans (edge_mono faithful clock same.asked), ?_⟩
  intro other mem
  by_cases here : other = coin
  · exact here ▸ own
  · exact (l.lives other mem).frame clock same.asked (same.tapes other here) (same.dropped other here)
      (same.marks other here) (by rw [same.received])

theorem Living.killed (l : Living h s lo p) (faithful : s.Faithful h) (clock : Monotone h.world.clock)
    (same : Elsewhere coin p p') (own : Rests h s lo p' coin) : Resting h s p' := by
  refine ⟨lo, l.lo_le.trans (edge_mono faithful clock same.asked), ?_⟩
  intro other mem
  by_cases here : other = coin
  · exact here ▸ own
  · exact Rests.frame (l.lives other mem).alive.toKept clock same.asked (same.tapes other here)
      (same.dropped other here)

end

/- A cycle. -/

section
variable {h : Host} {s : Service} {lo frm upto : Int} {coin : String} {n : Nat} {p : Poller}

/-- Within a cycle, no bucket that it takes for closed is ahead of the clock. -/
structure Cycle (h : Host) (s : Service) (lo upto : Int) (p : Poller) : Prop
    extends Living h s lo p where
  clock : upto * second ≤ h.world.clock p.asked

/-- The closed ones of some buckets have been followed. -/
def Taken (coin : String) (cutoff : Int) (buckets : List Bucket) (p : Poller) : Prop :=
  ∀ b ∈ buckets, b.t + bucketSeconds ≤ cutoff → ∀ sides, b.sides = some sides →
    Accounted (· ∈ p.dropped coin) (p.tapes coin) (bucketRow (symbolFor coin) b.t sides)

/-- What a history has of the closed buckets that may still come. -/
def Complete (s : Service) (coin : String) (lo upto : Int) (history : List Bucket) : Prop :=
  ∀ b : Bucket, b.t + bucketSeconds ≤ upto - closeMarginSeconds →
    (b ∈ history ↔ lo ≤ b.t ∧ s.bucket (symbolFor coin) b.t = some b.sides)

/-- A closed bucket past the mark: each before it that may still come was in the history before it. -/
theorem wp_append_next (faithful : s.Faithful h) (mem : coin ∈ coins)
    {history first rest : List Bucket} {b : Bucket} {sides : String}
    (complete : Complete s coin lo upto history)
    (sorted : first ++ b :: rest = history.insertionSort (·.t ≤ ·.t))
    (closed : b.t + bucketSeconds ≤ upto - closeMarginSeconds) (recent : lo ≤ b.t)
    (bucket : s.bucket (symbolFor coin) b.t = some (some sides)) (past : p.mark coin < b.t)
    (cycle : Cycle h s lo upto p) (taken : Taken coin (upto - closeMarginSeconds) first p) :
    wp (settings h.world) (append (bucketRow (symbolFor coin) b.t sides))
      ⟨fun _ t => p.asked ≤ t.asked ∧ ∀ lost', Loses (settings h.world) (p.entry coin)
          [bucketRow (symbolFor coin) b.t sides] t (· ∈ p.dropped coin) lost' →
          Alive (symbolFor coin) (due s coin lo) lost' (b.t * second) (h.world.clock p.asked) t ∧
          ∀ q, Accounted (· ∈ p.dropped coin) (p.tapes coin) q ∨
            q = bucketRow (symbolFor coin) b.t sides → Accounted lost' t q,
        fun _ => False,
        fun t => p.asked ≤ t.asked ∧ ∀ lost', Loses (settings h.world) (p.entry coin)
          [bucketRow (symbolFor coin) b.t sides] t (· ∈ p.dropped coin) lost' →
          Kept (symbolFor coin) (due s coin lo) lost' (h.world.clock p.asked) t⟩ (p.entry coin) := by
  have alive := ((cycle.lives coin mem).alive).asked (n := p.asked)
  have comes : due s coin lo (bucketRow (symbolFor coin) b.t sides) := ⟨b.t, sides, bucket, recent, rfl⟩
  have later : p.mark coin * second < b.t * second := by
    unfold second
    omega
  have ahead : b.t * second ≤ h.world.clock p.asked := by
    have bound := cycle.clock
    unfold second bucketSeconds closeMarginSeconds at *
    omega
  have stamped : Stamped (symbolFor coin) (bucketRow (symbolFor coin) b.t sides) :=
    ⟨b.t, sides, faithful.nonneg _ b.t _ bucket, rfl⟩
  refine alive.append (w := settings h.world) stamped comes later ahead ahead rfl rfl ?_
    fun q d equal => due_eq d comes equal
  rintro q ⟨t, others, held, since, rfl⟩ before
  have less : t < b.t := by
    have before : t * second < b.t * second := before
    unfold second at before
    omega
  have closed' : t + bucketSeconds ≤ upto - closeMarginSeconds := by omega
  have listed : (⟨t, some others⟩ : Bucket) ∈ first ++ b :: rest := by
    rw [sorted, List.mem_insertionSort]
    exact (complete ⟨t, some others⟩ closed').mpr ⟨since, held⟩
  have order := List.pairwise_insertionSort (·.t ≤ ·.t) history
  rw [← sorted] at order
  rcases List.mem_append.mp listed with old | new
  · exact taken _ old closed' others rfl
  · rcases List.mem_cons.mp new with rfl | further
    · exact absurd less (lt_irrefl _)
    · have le := List.rel_of_pairwise_cons (List.pairwise_append.mp order).2.1 further
      exact absurd less (not_lt.mpr le)

theorem wp_offer (faithful : s.Faithful h) (clock : Monotone h.world.clock) (mem : coin ∈ coins)
    {history first rest : List Bucket} {b : Bucket} (complete : Complete s coin lo upto history)
    (sorted : first ++ b :: rest = history.insertionSort (·.t ≤ ·.t))
    (start : Where (fun p => Cycle h s lo upto p ∧ Taken coin (upto - closeMarginSeconds) first p) p) :
    wp h (offer coin (symbolFor coin) (upto - closeMarginSeconds) b)
      ⟨fun _ => Where fun p => Cycle h s lo upto p ∧
          Taken coin (upto - closeMarginSeconds) (first ++ [b]) p,
        Where (Living h s lo), Where (Resting h s)⟩ p := by
  have inside : b ∈ history := by
    rw [← List.mem_insertionSort (r := (·.t ≤ ·.t)), ← sorted]
    simp
  unfold offer
  rw [wp_bind, wp_get]
  dsimp only
  rw [wp_ite]
  split
  · rename_i unclosed
    intro clean
    obtain ⟨cycle, taken⟩ := start clean
    refine ⟨cycle, ?_⟩
    intro other there closed
    rcases List.mem_append.mp there with old | last
    · exact taken other old closed
    · rw [List.mem_singleton.mp last] at closed
      omega
  · rename_i closed
    have closed : b.t + bucketSeconds ≤ upto - closeMarginSeconds := by omega
    obtain ⟨recent, bucket⟩ := (complete b closed).mp inside
    have comes : ∀ sides, b.sides = some sides →
        due s coin lo (bucketRow (symbolFor coin) b.t sides) :=
      fun sides same => ⟨b.t, sides, by rw [bucket, same], recent, rfl⟩
    rw [wp_ite]
    split
    · rename_i past
      intro clean
      obtain ⟨cycle, taken⟩ := start clean
      refine ⟨cycle, ?_⟩
      intro other there closed sides same
      rcases List.mem_append.mp there with old | last
      · exact taken other old closed sides same
      · obtain rfl := List.mem_singleton.mp last
        apply (cycle.lives coin mem).alive.covered _ (comes sides same)
        left
        show other.t * second ≤ p.mark coin * second
        unfold second
        omega
    · rename_i after
      rw [wp_bind, wp_orRaise]
      refine ⟨fun sides same => ?_, fun _ clean => (start clean).1.toLiving⟩
      dsimp only
      rw [wp_bind]
      have spec := fun clean : Clean p => wp_append_next faithful mem complete sorted closed
        recent (by rw [bucket, same]) (by omega) (start clean).1 (start clean).2
      apply wp_mono (wp_call mem (fun t₀ => moves_append _) spec)
      · rintro _ p' appended clean
        obtain ⟨before, t, ⟨le, result⟩, rfl⟩ := appended clean
        obtain ⟨cycle, taken⟩ := start before
        obtain ⟨alive, follows⟩ := result _ (loses_left coin _ t)
        have newest : max b.t ((p.left h.world coin [bucketRow (symbolFor coin) b.t sides] t).mark coin) =
            b.t := max_eq_left (by show p.mark coin ≤ b.t; omega)
        have own : Lives h s lo { p.left h.world coin [bucketRow (symbolFor coin) b.t sides] t with
            marks := Function.update p.marks coin (some b.t) } coin := by
          constructor
          · simp only [Poller.mark, Function.update_self, Option.getD_some, left_tapes]
            exact alive.later (fun _ d => d) (fun _ d => d) (clock le)
          · simp only [left_tapes]
            exact fun e there => follows e.2 (.inl ((cycle.lives coin mem).received e there))
        have elsewhere : Elsewhere coin p
            { p.left h.world coin [bucketRow (symbolFor coin) b.t sides] t with
              marks := Function.update p.marks coin (some b.t) } := by
          have left := elsewhere_left (h := h) (p := p) coin
            [bucketRow (symbolFor coin) b.t sides] le
          exact ⟨left.asked, left.tapes, left.dropped, fun _ apart => Function.update_of_ne apart _ _, rfl⟩
        dsimp only
        rw [newest]
        refine ⟨⟨cycle.toLiving.change faithful clock elsewhere own, cycle.clock.trans (clock le)⟩, ?_⟩
        intro other there closed sides' same'
        simp only [left_tapes]
        apply follows
        rcases List.mem_append.mp there with old | last
        · exact .inl (taken other old closed sides' same')
        · right
          obtain rfl := List.mem_singleton.mp last
          rw [same] at same'
          rw [Option.some.inj same']
      · exact fun p' raised clean => (raised clean).2.choose_spec.1.elim
      · intro p' died clean
        obtain ⟨before, t, ⟨le, result⟩, rfl⟩ := died clean
        have own : Rests h s lo (p.left h.world coin [bucketRow (symbolFor coin) b.t sides] t) coin := by
          unfold Rests
          rw [left_tapes]
          exact (result _ (loses_left coin _ t)).later (fun _ d => d) (fun _ d => d) (clock le)
        exact (start before).1.toLiving.killed faithful clock (elsewhere_left coin _ le) own

theorem wp_offers (faithful : s.Faithful h) (clock : Monotone h.world.clock) (mem : coin ∈ coins)
    {history : List Bucket} (complete : Complete s coin lo upto history) (rest first : List Bucket)
    (sorted : first ++ rest = history.insertionSort (·.t ≤ ·.t)) (p : Poller)
    (start : Where (fun p => Cycle h s lo upto p ∧ Taken coin (upto - closeMarginSeconds) first p) p) :
    wp h (forEach rest (offer coin (symbolFor coin) (upto - closeMarginSeconds)))
      ⟨fun _ => Where fun p => Cycle h s lo upto p ∧
          Taken coin (upto - closeMarginSeconds) (first ++ rest) p,
        Where (Living h s lo), Where (Resting h s)⟩ p := by
  induction rest generalizing first p with
  | nil => simpa [forEach] using start
  | cons b rest ih =>
    unfold forEach
    rw [wp_bind]
    apply wp_mono (wp_offer faithful clock mem complete sorted start)
    · intro _ p' taken
      have further := ih (first ++ [b]) (by simpa using sorted) p' taken
      simpa using further
    · exact fun _ h => h
    · exact fun _ h => h

theorem coinOf_spec {symbol : String} (known : coinOf symbol = some coin) :
    coin ∈ coins ∧ symbolFor coin = symbol := by
  constructor
  · exact List.mem_of_find?_eq_some known
  · simpa using List.find?_some known

/-- The rows of a history that were taken are received. -/
theorem Cycle.receive {history : List Bucket} (cycle : Cycle h s lo upto p) (mem : coin ∈ coins)
    (taken : Taken coin (upto - closeMarginSeconds) history p) :
    Cycle h s lo upto
      (p.receive coin n (closedRows (symbolFor coin) (upto - closeMarginSeconds) history)) := by
  refine ⟨⟨cycle.lo_le, ?_⟩, cycle.clock⟩
  intro other there
  have lives := cycle.lives other there
  refine ⟨lives.alive, ?_⟩
  intro e received
  by_cases same : other = coin
  · subst same
    simp only [Poller.receive, Function.update_self] at received
    rcases List.mem_append.mp received with old | new
    · exact lives.received e old
    · obtain ⟨r, row, rfl⟩ := List.mem_map.mp new
      obtain ⟨b, inside, shown⟩ := List.mem_filterMap.mp row
      split at shown
      · cases shown
      · rename_i closed
        obtain ⟨sides, some, rfl⟩ := Option.map_eq_some_iff.mp shown
        exact taken b inside (by omega) sides some
  · simp only [Poller.receive, Function.update_of_ne same] at received
    exact lives.received e received

theorem takeEntry_leads (faithful : s.Faithful h) (clock : Monotone h.world.clock) {entry : Option Entry}
    (complete : ∀ e history, entry = some e → e.history = some history →
      ∀ coin, coinOf e.symbol = some coin → Complete s coin lo upto history) :
    Leads h (Where (Cycle h s lo upto)) (Where (Cycle h s lo upto)) (Where (Living h s lo))
      (Where (Resting h s)) (takeEntry n (upto - closeMarginSeconds) entry) := by
  intro p start
  unfold takeEntry
  rw [wp_bind, wp_orRaise]
  refine ⟨fun e same => ?_, fun _ clean => (start clean).toLiving⟩
  dsimp only
  cases known : coinOf e.symbol with
  | none => exact start
  | some coin =>
    obtain ⟨mem, symbol⟩ := coinOf_spec known
    dsimp only
    rw [wp_bind, wp_orRaise]
    refine ⟨fun history ordered => ?_, fun _ clean => (start clean).toLiving⟩
    have whole := complete e history same ordered coin known
    dsimp only
    rw [wp_bind, ← symbol]
    apply wp_mono (wp_offers faithful clock mem whole _ [] rfl p fun clean => ⟨start clean, by simp [Taken]⟩)
    · intro _ p' taken clean
      obtain ⟨cycle, followed⟩ := taken clean
      apply cycle.receive mem
      intro b inside
      have sorted : b ∈ history.insertionSort (·.t ≤ ·.t) := (List.mem_insertionSort _).mpr inside
      exact followed b sorted
    · exact fun _ h => h
    · exact fun _ h => h

/- The host. -/

theorem wp_utcnow {Q : Post Poller Int} :
    wp h utcnow Q p ↔ Q.ok (h.world.clock p.asked) { p with asked := p.asked + 1 } := Iff.rfl

theorem wp_fetch {frm upto : Int} {Q : Post Poller (List (Option Entry))} :
    wp h (fetchLiquidationHistory frm upto) Q p ↔
      (∀ payload, h.fetch p.asked frm upto = some payload → Q.ok payload { p with asked := p.asked + 1 }) ∧
      (h.fetch p.asked frm upto = none → Q.raised { p with asked := p.asked + 1 }) := by
  unfold wp fetchLiquidationHistory
  cases h.fetch p.asked frm upto <;> simp

theorem wp_checkDisk {Q : Post Poller DiskCheck} :
    wp h checkDisk Q p ↔ Q.ok (h.check p.asked) { p with asked := p.asked + 1 } := Iff.rfl

theorem wp_readsNewest {Q : Post Poller Bool} :
    wp h readsNewest Q p ↔ Q.ok (h.primes p.asked) { p with asked := p.asked + 1 } := Iff.rfl

/-- Of a running process every coin lives. -/
def Running (h : Host) (s : Service) (p : Poller) : Prop := ∃ lo, Living h s lo p

theorem Running.asked (r : Running h s p) (faithful : s.Faithful h) (clock : Monotone h.world.clock)
    {m : Nat} (le : p.asked ≤ m) : Running h s { p with asked := m } := by
  obtain ⟨lo, living⟩ := r
  exact ⟨lo, living.asked faithful clock le⟩

theorem pollCycle_leaves (faithful : s.Faithful h) (clock : Monotone h.world.clock) :
    Leaves h (Where (Running h s)) (Where (Resting h s)) pollCycle := by
  intro p start
  unfold pollCycle
  rw [wp_bind, wp_utcnow]
  dsimp only
  rw [wp_bind, wp_gets]
  dsimp only
  rw [wp_bind, wp_fetch]
  refine ⟨fun payload fetched => ?_, fun _ clean => (start clean).asked faithful clock (Nat.le_add_right _ 2)⟩
  dsimp only
  let upto := h.world.clock p.asked / second
  let lo := max (upto - catchupWindowSeconds) (s.since (p.asked + 1))
  have times : upto * second ≤ h.world.clock (p.asked + 2) := by
    have later := clock (show p.asked ≤ p.asked + 2 by omega)
    unfold upto second
    omega
  have began : Where (Cycle h s lo upto) { p with asked := p.asked + 1 + 1 } := by
    intro clean
    obtain ⟨lo', living⟩ := start clean
    have earlier : lo' ≤ lo := by
      have first := living.lo_le
      have purged := faithful.purges (show p.asked ≤ p.asked + 1 by omega)
      unfold edge at first
      unfold lo upto
      omega
    have now := living.asked faithful clock (show p.asked ≤ p.asked + 1 + 1 by omega)
    refine ⟨⟨?_, fun coin mem => (now.lives coin mem).raise earlier⟩, times⟩
    have later := clock (show p.asked ≤ p.asked + 1 + 1 by omega)
    have purged := faithful.purges (show p.asked + 1 ≤ p.asked + 1 + 1 by omega)
    unfold edge lo upto second
    dsimp only
    omega
  have each : ∀ entry ∈ payload, Leads h (Where (Cycle h s lo upto)) (Where (Cycle h s lo upto))
      (Where (Living h s lo)) (Where (Resting h s))
      (takeEntry (p.asked + 1) (upto - closeMarginSeconds) entry) := by
    intro entry mem
    apply takeEntry_leads faithful clock
    rintro e history rfl ordered coin known b closed
    have answered := faithful.answers _ _ _ payload e history fetched mem ordered b closed
    rw [answered, (coinOf_spec known).2]
    unfold lo upto
    grind
  apply wp_mono (leads_forEach_mem each _ began)
  · exact fun _ p' after clean => ⟨lo, (after clean).toLiving⟩
  · exact fun p' after clean => ⟨lo, after clean⟩
  · exact fun p' after => after

end

end Coinalyze
