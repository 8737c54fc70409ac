import Zcrypto.Engine.Runs

/- The chokepoint: what stood in the trace, on the disk and in the process when an order
   was sent. -/
namespace Chokepoint
open ProbePlans ExecGate ExecLedger LedgerLaws Effects Effects.Prog Controller Orders
  OrderEvents Timer Footprint

/- Whether the process the trace ends in has set its kill latch. -/
def latched : List Effect → Bool
  | [] => false
  | .latched _ :: _ => true
  | .started :: _ => false
  | _ :: older => latched older

/- A submission permitted by its own evaluation and written ahead of its send. -/
structure Lawful (e : Env) (x : Submission) (older : List Effect) : Prop where
  ahead : ∃ rest, older = .rowWritten x.boundary x.row :: .evaluated x.verdict :: rest
  folded : ∃ killFile r dayLoss, x.verdict = foldHolds x.frozen x.unread dayLoss
    (ExecGate.evaluate e.config.armedInConfig killFile r)
  permitted : levelPermits x.verdict.level x.row.intent = true
  unheld : x.frozen = false ∧ x.unread = false
  durable : x.row.state = .submitting ∧ x.row ∈ x.ledger.rows x.boundary
  unlatched : x.killTripped = false ∧ latched older = false

def AllLawful (e : Env) : List Effect → Prop
  | [] => True
  | .sent x :: older => Lawful e x older ∧ AllLawful e older
  | _ :: older => AllLawful e older

/- The latch is the trace's own, and every submission so far was lawful. -/
def Guarded (e : Env) (s : St) : Prop := AllLawful e s.trace ∧ s.killTripped = latched s.trace

theorem guarded_note {e : Env} {s : St} {x : Effect} (plain : isNote x = true)
    (h : Guarded e s) : Guarded e { s with trace := x :: s.trace } := by
  cases x <;> first | exact h | cases plain

theorem guarded_routine (e : Env) : Routine (Guarded e) (Guarded e) where
  ask := fun _ h => h
  dies := fun _ h => h
  blind := fun s t same h => by
    unfold Guarded
    rwa [trace_of_trading same, killTripped_of_trading same]
  watched := fun _ x watch h => by
    cases x <;> first | exact h | cases watch
  note := fun _ _ plain h => guarded_note plain h
  run := fun _ _ _ h => h
  latch := fun _ h => ⟨h.1, rfl⟩
  file := fun _ _ _ h => h

/- The one send, from a state in which everything `Lawful` asks for stands. -/
theorem keeps_send {e : Env} {deliver : Delivery → M Unit}
    (hd : ∀ d, Keeps e (Guarded e) (deliver d)) {b : Int} {row : Row} {v : GateVerdict} {s : St}
    (start : Guarded e s)
    (lawful : Lawful e ⟨b, row, v, s.disk.ledger, s.sockets.frozen,
      s.holds.reconciliationRefusal.isSome, s.killTripped, s.run.ctx.targetQty, s.run.ctx.filled⟩
      s.trace) :
    wp e (send deliver b row v) (Post.always (Guarded e)) s := by
  have h := guarded_routine e
  have raised : Keeps e (Guarded e) (do
      markAmbiguous "submit raised"
      let a ← ctx
      let _ ← journalIntent a.index .ambiguous ["submit raised -- venue outcome unknown"] a.filled
      pure Submitted.ambiguous) :=
    keeps_bind (h.keeps_markAmbiguous _) fun _ => keeps_bind (keeps_gets _) fun _ =>
      keeps_bind (h.keeps_journalIntent _ _ _ _) fun _ => keeps_pure _
  simp only [send, alloc, wp_bind, wp_get, wp_modify, wp_pure, wp_attempt, wp_ask, wp_emit]
  split
  · exact start
  · refine (h.keeps_callVenue hd _).elim ⟨⟨lawful, start.1⟩, start.2⟩ (fun _ _ kept => kept)
      (fun t kept => ?_) (fun _ kept => kept)
    simpa only [wp_bind, wp_pure] using raised { t with
      trace := .submitReturned row.clientOrderId :: t.trace } kept

theorem appended_mem {b : Int} {row : Row} {v : GateVerdict} {t : Int} {l l' : Ledger}
    (h : appendSubmittedRow b row v t l = some l') : row ∈ l'.rows b := by
  rw [(appendSubmittedRow_rows h).1, if_pos rfl]
  simp

/- The row filed ahead, and the order sent, right after the evaluation that permits it. -/
theorem keeps_permitted {e : Env} {deliver : Delivery → M Unit}
    (hd : ∀ d, Keeps e (Guarded e) (deliver d)) {row : Row} {v : GateVerdict} {s : St}
    (start : Guarded e s) (fresh : ∃ older, s.trace = .evaluated v :: older)
    (folded : ∃ killFile r dayLoss, v = foldHolds s.sockets.frozen
      s.holds.reconciliationRefusal.isSome dayLoss
      (ExecGate.evaluate e.config.armedInConfig killFile r))
    (permitted : levelPermits v.level row.intent = true) (submitting : row.state = .submitting)
    (unlatched : s.killTripped = false) :
    wp e (do
      let stored ← writeAhead row v
      match stored with
      | none => refuseSubmission ["exec ledger write failed"]
      | some b => send deliver b row v) (Post.always (Guarded e)) s := by
  have h := guarded_routine e
  have refused (t : St) (kept : Guarded e t) :
      wp e (refuseSubmission ["exec ledger write failed"]) (Post.always (Guarded e)) t :=
    h.keeps_refuseSubmission _ t kept
  simp only [writeAhead, commit, wp_bind, wp_attempt, wp_get, wp_orRaise, wp_now, wp_pure, wp_emit,
    wp_modify, wp_ask, wp_ite, wp_raise]
  refine ⟨fun b filed => ?_, fun _ => refused s start⟩
  split
  · exact start
  · split
    · exact start
    · split
      · exact refused _ start
      · refine ⟨fun l stored => ?_, fun _ => refused _ start⟩
        refine keeps_send hd ?_ ?_
        · exact start
        · obtain ⟨killFile, r, dayLoss, rfl⟩ := folded
          exact
            { ahead := fresh.imp fun _ same => congrArg _ same
              folded := ⟨_, _, _, rfl⟩
              permitted
              unheld := permits_unheld permitted
              durable := ⟨submitting, appended_mem stored⟩
              unlatched := ⟨unlatched, start.2 ▸ unlatched⟩ }

theorem guarded_submits (e : Env) : Submits e (Guarded e) (Guarded e) := by
  intro deliver order hd s start
  have h := guarded_routine e
  simp only [submit, wp_bind, wp_now, Background.wp_evaluate, wp_get, wp_ite, wp_orRaise]
  split
  · exact start
  · split
    · exact start
    · split
      · exact h.keeps_refuseSubmission _ _ start
      · split
        · rename_i _ _ unlatched permitted
          refine ⟨fun p _ => ⟨fun payload _ => ?_, fun _ => start⟩, fun _ => start⟩
          rw [← wp_bind]
          refine keeps_permitted hd ?_ ?_ ?_ ?_ ?_ ?_
          · exact start
          · exact ⟨_, rfl⟩
          · exact ⟨_, _, _, rfl⟩
          · exact permitted
          · rfl
          · exact Bool.eq_false_iff.mpr unlatched
        · exact h.keeps_refuseSubmission _ _ start

theorem guarded_lasting (e : Env) : Lasting e (Guarded e) (Guarded e) where
  toRoutine := guarded_routine e
  cleared := fun _ h => h
  edited := fun _ _ _ h => h
  submits := guarded_submits e
  pulls := fun _ _ _ h => h
  accepted := fun _ _ _ _ _ _ _ h => h
  armed := fun _ _ h => h
  started := fun _ h => ⟨(h.elim id id).1, rfl⟩
  operated := (guarded_routine e).blind

example : ((steps plain (plainHost fun _ => none) [.start, .dropFile (.plan (twoLegs .execute)),
    .timer, .quote .btcEur (some 10) (some 11)]).st.trace.any fun x =>
      match x with | .sent x => x.row.ordered = 10 | _ => false) = true := by
  decide +kernel

end Chokepoint
