import Zcrypto.Liquidations.Stages

/- In every run of the poller, whatever fails and wherever it is killed, no bucket is stored twice and
   none that a mark is past is lost but with a buffer that could not be written. -/
namespace Coinalyze
open Segments Effects Effects.Prog

section
variable {h : Host} {s : Service}

/-- What holds of a poller at each stage. -/
structure Sound (h : Host) (s : Service) (y : System) : Prop where
  rests : Where (Resting h s) y.poller
  running : y.stage = .running → Where (Running h s) y.poller
  stopped : y.stage = .stopped → Where (fun p => ∀ coin ∈ coins, Settled p coin) y.poller

theorem Sound.ended {p : Poller} (rests : Where (Resting h s) p) : Sound h s ⟨p, .ended⟩ :=
  ⟨rests, fun other => (nomatch other), fun other => (nomatch other)⟩

theorem Running.resting {p : Poller} (r : Running h s p) : Resting h s p := by
  obtain ⟨lo, living⟩ := r
  exact living.resting

theorem sound_running {p : Poller} (running : Where (Running h s) p) : Sound h s ⟨p, .running⟩ :=
  ⟨fun clean => (running clean).resting, fun _ => running, fun other => (nomatch other)⟩

theorem sound_blank : Sound h s System.blank := by
  apply Sound.ended
  intro _
  refine ⟨edge h s 0, le_refl _, ?_⟩
  intro coin _
  refine ⟨.refl, ⟨by simp [Filed, Segments.System.blank], ?_, ?_, ?_, ?_, ?_⟩, ?_, ?_, ?_, ?_⟩
  all_goals simp [Segments.System.blank, HourFiles.blank, HourFiles.finalized, landedRows]

theorem step_sound (faithful : s.Faithful h) (clock : Monotone h.world.clock)
    (primes : ∀ n, h.primes n = true) (y : System) (input : Input) (sound : Sound h s y) :
    Sound h s (step h y input) := by
  cases input with
  | start =>
    have starts := start_leads faithful clock primes y.poller sound.rests
    unfold wp at starts
    dsimp only [step]
    rcases result : start h y.poller with ⟨_ | _ | _, p⟩ <;> rw [result] at starts
    · exact sound_running starts
    · exact .ended starts
    · exact .ended starts
  | poll =>
    dsimp only [step]
    split
    · rename_i running
      have polls := pollOnce_leaves faithful clock y.poller (sound.running running)
      unfold wp Post.leaving at polls
      rcases result : pollOnce h y.poller with ⟨_ | _ | _, p⟩ <;> rw [result] at polls
      · exact sound_running polls
      · have stops := stop_leads faithful clock p polls
        unfold wp at stops
        apply Sound.ended
        rcases closed : stop h p with ⟨_ | _ | _, p'⟩ <;> rw [closed] at stops
        · exact fun clean => (stops clean).1
        · exact stops
        · exact stops
      · exact .ended polls
    · exact sound
  | stop =>
    dsimp only [step]
    split
    · rename_i running
      have stops := stop_leads faithful clock y.poller (sound.running running)
      unfold wp at stops
      rcases result : stop h y.poller with ⟨_ | _ | _, p⟩ <;> rw [result] at stops
      · exact ⟨fun clean => (stops clean).1, fun other => (nomatch other), fun _ clean => (stops clean).2⟩
      · exact .ended stops
      · exact .ended stops
    · exact sound

theorem run_sound (faithful : s.Faithful h) (clock : Monotone h.world.clock)
    (primes : ∀ n, h.primes n = true) (inputs : List Input) : Sound h s (run h inputs) := by
  unfold run
  induction inputs using List.reverseRecOn with
  | nil => exact sound_blank
  | append_singleton inputs input ih =>
    rw [List.foldl_append]
    exact step_sound faithful clock primes _ input ih

/- What a reader of the files finds. -/

def Poller.stored (p : Poller) (coin : String) (hour : Int) : List Row :=
  ((p.tapes coin).disk.files hour).stored

variable {p : Poller} {lo : Int} {coin : String}

theorem Rests.stored_eq (rests : Rests h s lo p coin) (clean : Clean p) (mem : coin ∈ coins) (hour : Int) :
    p.stored coin hour =
      (landedRows (p.tapes coin).trace).filter fun r => hourStart r.ts = hour := by
  unfold Poller.stored
  rw [(Kept.contents rests (clean coin mem) hour).stored, landedIn_eq rests.shelf.filed]

/-- An hour's rows are of distinct buckets, and of that hour. -/
theorem Rests.stored_once (rests : Rests h s lo p coin) (clean : Clean p) (mem : coin ∈ coins)
    (hour : Int) :
    ((p.stored coin hour).map Row.ts).Nodup ∧ ∀ r ∈ p.stored coin hour, hourStart r.ts = hour := by
  rw [rests.stored_eq clean mem]
  constructor
  · have ascending := rests.ascending.sublist (List.filter_sublist (p := fun r => hourStart r.ts = hour))
    exact List.pairwise_map.mpr (ascending.imp fun less => ne_of_lt less)
  · intro r inside
    simpa using (List.mem_filter.mp inside).2

/-- A row that landed is stored once. -/
theorem Rests.stored_count (rests : Rests h s lo p coin) (clean : Clean p) (mem : coin ∈ coins) {r : Row}
    (landed : r ∈ landedRows (p.tapes coin).trace) : (p.stored coin (hourStart r.ts)).count r = 1 := by
  apply List.count_eq_one_of_mem
  · exact (rests.stored_once clean mem (hourStart r.ts)).1.of_map
  · rw [rests.stored_eq clean mem]
    exact List.mem_filter.mpr ⟨landed, by simp⟩

end

/- The files, whatever is set aside. -/

/-- Every file of a tape was made by the moves of its writer. -/
def Moved (p : Poller) : Prop := ∀ coin, Reached Segments.System.blank.tape (p.tapes coin)

section
variable {h : Host}

theorem Moved.put {p p' : Poller} {coin : String} {t : Tape} (moved : Moved p)
    (reached : Reached Segments.System.blank.tape t) (tapes : p'.tapes = Function.update p.tapes coin t) :
    Moved p' := by
  intro other
  rw [tapes, Function.update_apply]
  split
  · exact reached
  · exact moved other

theorem moved_writer {α : Type} {coin : String} {call : Seg α}
    (moves : Moves (settings h.world) Segments.System.blank.tape call) : Keeps h Moved (writer coin call) := by
  intro p moved
  rw [wp_writer]
  have entry : Reached Segments.System.blank.tape (p.entry coin) := (moved coin).aside rfl rfl
  apply wp_mono (moves (p.entry coin) entry)
  · exact fun _ t reached => moved.put reached rfl
  · exact fun t reached => moved.put reached rfl
  · exact fun t reached => moved.put reached rfl

theorem moved_writing {α : Type} {coin : String} {offered : List Row} {call : Seg α}
    (moves : Moves (settings h.world) Segments.System.blank.tape call) :
    Keeps h Moved (writing coin offered call) := by
  intro p moved
  rw [wp_writing]
  have entry : Reached Segments.System.blank.tape (p.entry coin) := (moved coin).aside rfl rfl
  apply wp_mono (moves (p.entry coin) entry)
  · exact fun _ t reached => moved.put reached rfl
  · exact fun t reached => moved.put reached rfl
  · exact fun t reached => moved.put reached rfl

theorem moved_fetch (frm upto : Int) : Keeps h Moved (fetchLiquidationHistory frm upto) := by
  intro p moved
  rw [wp_fetch]
  exact ⟨fun _ _ => moved, fun _ => moved⟩

theorem moved_utcnow : Keeps h Moved utcnow := fun _ moved => moved

theorem moved_offer (coin symbol : String) (cutoff : Int) (b : Bucket) :
    Keeps h Moved (offer coin symbol cutoff b) := by
  apply keeps_bind keeps_get
  intro p
  apply keeps_ite
  · exact fun _ => keeps_pure ()
  · intro _
    apply keeps_ite
    · exact fun _ => keeps_pure ()
    · intro _
      apply keeps_bind (keeps_orRaise _)
      intro sides
      apply keeps_bind (moved_writing (moves_append _))
      intro _
      exact keeps_modify fun _ moved => moved

theorem moved_takeEntry (n : Nat) (cutoff : Int) (entry : Option Entry) :
    Keeps h Moved (takeEntry n cutoff entry) := by
  apply keeps_bind (keeps_orRaise _)
  intro e
  cases coinOf e.symbol with
  | none => exact keeps_pure ()
  | some coin =>
    apply keeps_bind (keeps_orRaise _)
    intro history
    apply keeps_bind (keeps_forEach fun b => moved_offer coin e.symbol cutoff b)
    intro _
    exact keeps_modify fun _ moved => moved

theorem moved_sweepWriters (cutoff : Int) (rest : List String) :
    Keeps h Moved (sweepWriters cutoff rest) := by
  induction rest with
  | nil => exact keeps_pure true
  | cons coin rest ih =>
    unfold sweepWriters
    apply keeps_bind
    · apply keeps_attempt
      · apply keeps_bind (moved_writing (moves_finalizeCompletedHours cutoff))
        exact fun _ => keeps_pure _
      · exact keeps_pure none
    · intro outcome
      cases outcome with
      | none => exact keeps_pure false
      | some outcome => exact keeps_bind ih fun _ => keeps_pure _

theorem moved_pollOnce : Keeps h Moved pollOnce := by
  apply keeps_bind fun _ moved => moved
  intro check
  apply keeps_ite
  · intro _
    apply keeps_bind
    · apply keeps_attempt
      · apply keeps_bind
        · apply keeps_bind moved_utcnow
          intro now
          apply keeps_bind (keeps_gets _)
          intro n
          apply keeps_bind (moved_fetch _ _)
          intro payload
          exact keeps_forEach fun entry => moved_takeEntry _ _ entry
        · exact fun _ => keeps_pure true
      · exact keeps_pure false
    · intro polled
      apply keeps_ite
      · intro _
        apply keeps_bind moved_utcnow
        exact fun now => moved_sweepWriters _ coins
      · exact fun _ => keeps_pure false
  · exact fun _ => keeps_pure false

theorem moved_primeCoin (coin : String) : Keeps h Moved (primeCoin coin) := by
  apply keeps_bind fun _ moved => moved
  intro readable
  exact keeps_ite (fun _ => keeps_modify fun _ moved => moved) fun _ => keeps_pure ()

theorem moved_start : Keeps h Moved start := by
  intro p moved
  have began : Moved { p with received := fun _ => [] } := moved
  have constructs : Keeps h Moved (forEach coins fun coin => writer coin construct) :=
    keeps_forEach fun coin => moved_writer moves_construct
  unfold start primeBucketWatermarks
  rw [wp_bind, wp_modify]
  dsimp only
  rw [wp_bind]
  apply constructs.elim began
  · intro _ p' moved
    dsimp only
    rw [wp_bind, wp_modify]
    exact keeps_forEach moved_primeCoin _ moved
  · exact fun _ h => h
  · exact fun _ h => h

theorem moved_stop : Keeps h Moved stop := keeps_forEach fun _ => moved_writing moves_close

theorem step_moved (y : System) (input : Input) (moved : Moved y.poller) :
    Moved (step h y input).poller := by
  cases input with
  | start =>
    have kept : Moved (start h y.poller).2 := Keeps.final (e := h) moved_start moved
    dsimp only [step]
    rcases result : start h y.poller with ⟨_ | _ | _, p⟩ <;> rw [result] at kept <;> exact kept
  | poll =>
    have kept : Moved (pollOnce h y.poller).2 := Keeps.final (e := h) moved_pollOnce moved
    dsimp only [step]
    split
    · rcases result : pollOnce h y.poller with ⟨_ | _ | _, p⟩ <;> rw [result] at kept
      · exact kept
      · exact Keeps.final (e := h) moved_stop kept
      · exact kept
    · exact moved
  | stop =>
    have kept : Moved (stop h y.poller).2 := Keeps.final (e := h) moved_stop moved
    dsimp only [step]
    split
    · rcases result : stop h y.poller with ⟨_ | _ | _, p⟩ <;> rw [result] at kept <;> exact kept
    · exact moved

theorem run_moved (inputs : List Input) : Moved (run h inputs).poller := by
  unfold run
  induction inputs using List.reverseRecOn with
  | nil => exact fun _ => .refl
  | append_singleton inputs input ih =>
    rw [List.foldl_append]
    exact step_moved _ input ih

/-- The hours that a part has landed in. -/
def landedHours : List Event → List Int
  | [] => []
  | .landed hour _ _ :: rest => hour :: landedHours rest
  | .unlinked .. :: rest => landedHours rest

theorem mem_landedHours {trace : List Event} {hour : Int} {rows : List Row} {beside : Bool}
    (landed : .landed hour rows beside ∈ trace) : hour ∈ landedHours trace := by
  induction trace with
  | nil => cases landed
  | cons ev rest ih =>
    cases ev with
    | landed other rows' beside' =>
      rcases List.mem_cons.mp landed with same | older
      · injection same with same
        exact same ▸ List.mem_cons_self
      · exact List.mem_cons_of_mem other (ih older)
    | unlinked other rows' merging =>
      rcases List.mem_cons.mp landed with same | older
      · cases same
      · exact ih older

/-- Nothing was set aside where nothing is among the files of the hours that a part has landed in. -/
theorem clean_of (inputs : List Input)
    (landed : ∀ coin ∈ coins, ∀ hour ∈ landedHours ((run h inputs).poller.tapes coin).trace,
      (((run h inputs).poller.tapes coin).disk.files hour).corrupt = []) :
    Clean (run h inputs).poller := by
  intro coin mem hour
  by_cases inside : hour ∈ landedHours ((run h inputs).poller.tapes coin).trace
  · exact landed coin mem hour inside
  · have bare := (run_moved inputs coin).bare ⟨rfl, rfl, rfl, rfl⟩
      fun rows beside there => inside (mem_landedHours there)
    exact bare.corrupt

end

/- A host that answers truly. -/

def btc : String := symbolFor "BTC"

/-- Two buckets of successive hours. -/
def history : List Bucket := [⟨1800, some "a"⟩, ⟨3600, some "b"⟩]

/-- It answers with the closed ones of the window, and its clock goes on at each question. -/
def serving (fault : Nat → Fault) : Host where
  world := ⟨5000, true, false, fault, fun n => n * 150000000, fun _ => none⟩
  fetch := fun _ frm upto => some [some ⟨btc, some (history.filter fun b =>
    frm ≤ b.t ∧ b.t + bucketSeconds ≤ upto - closeMarginSeconds)⟩]
  check := fun _ => .healthy
  primes := fun _ => true

def truth : Service where
  bucket := fun symbol t => if symbol = btc then
    if t = 1800 then some (some "a") else if t = 3600 then some (some "b") else none
  else none
  since := fun _ => 0

theorem truth_faithful (fault : Nat → Fault) : truth.Faithful (serving fault) := by
  refine ⟨?_, monotone_const, ?_⟩
  · intro symbol t sides held
    unfold truth at held
    grind
  · rintro n frm upto payload entry answered fetched mem ordered ⟨t, sides⟩ closed
    obtain rfl := Option.some.inj fetched
    obtain rfl := Option.some.inj (List.mem_singleton.mp mem)
    obtain rfl := Option.some.inj ordered
    dsimp only at closed
    unfold truth history
    grind

theorem serving_clock (fault : Nat → Fault) : Monotone (serving fault).world.clock := by
  intro a b le
  show (a : Int) * 150000000 ≤ b * 150000000
  omega

/-- Where the second hour is opened the first one's buffer cannot be written. -/
def faltering (n : Nat) : Fault := if n = 30 then .raises else .ok

def polls : List Input := [.start, .poll, .poll, .poll, .stop]

theorem clean_serving : Clean (run (serving faltering) polls).poller := by
  apply clean_of
  decide +kernel

end Coinalyze
