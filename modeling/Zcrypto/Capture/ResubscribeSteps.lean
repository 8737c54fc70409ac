import Zcrypto.Capture.Resubscribe

/- What a step keeps of the numbers of frames, of the requests, and of the frames that calls and waiters stand for. -/
namespace Resubscribe

variable {pairs : List String} {depth : Nat} {c : Client} {e : Event}

theorem mem_send {socket : Nat} {message : Message} {after : Option Nat} {f : Frame} :
    f ∈ (c.send socket message after).frames ↔ f ∈ c.frames ∨ f = ⟨c.frames.length, socket, message, after⟩ := by
  simp [Client.send]

theorem Numbered.send {socket : Nat} (numbered : Numbered c) (known : socket < c.sockets) (message : Message)
    (after : Option Nat) : Numbered (c.send socket message after) where
  ascending := by
    refine List.pairwise_append.mpr ⟨numbered.ascending, List.pairwise_singleton _ _, ?_⟩
    intro f mem g at_end
    rw [List.mem_singleton.mp at_end]
    exact numbered.bounded f mem
  bounded := by
    intro f mem
    have longer : (c.send socket message after).frames.length = c.frames.length + 1 := by simp [Client.send]
    rw [longer]
    rcases mem_send.mp mem with earlier | rfl
    · have := numbered.bounded f earlier
      omega
    · exact Nat.lt_succ_self _
  sockets := by
    intro f mem
    rcases mem_send.mp mem with earlier | rfl
    · exact numbered.sockets f earlier
    · exact known
  installed := numbered.installed

theorem numbered_next (numbered : Numbered c) (comes : Comes c e) : Numbered (next pairs depth c e) := by
  have ⟨ascending, bounded, sockets, installed⟩ := numbered
  cases e with
  | connects =>
    apply Numbered.send
    · refine ⟨ascending, bounded, ?_, ?_⟩
      · intro f mem
        exact Nat.lt_succ_of_lt (sockets f mem)
      · intro n live
        obtain rfl := Option.some.inj live
        exact Nat.lt_succ_self _
    · exact Nat.lt_succ_self _
  | connectFails => exact ⟨ascending, bounded, sockets, installed⟩
  | subscribeReturns socket frame channel =>
    cases channel with
    | book =>
      apply Numbered.send
      · exact ⟨ascending, bounded, sockets, installed⟩
      · exact installed socket comes.1
    | trade => exact ⟨ascending, bounded, sockets, installed⟩
  | drops socket =>
    refine ⟨ascending, bounded, sockets, ?_⟩
    intro n live
    cases live
  | closes socket => exact ⟨ascending, bounded, sockets, installed⟩
  | resubscribes pair =>
    simp only [next, Client.resubscribeBook]
    split
    · exact numbered
    · rename_i socket live
      apply Numbered.send
      · exact ⟨ascending, bounded, sockets, installed⟩
      · exact installed socket live
  | callReturns k => exact ⟨ascending, bounded, sockets, installed⟩
  | callRaises k => exact ⟨ascending, bounded, sockets, installed⟩
  | replies reqId success =>
    simp only [next, Client.noteReply]
    split
    · exact numbered
    · split
      · exact numbered
      · exact ⟨ascending, bounded, sockets, installed⟩
  | timerFires w => exact ⟨ascending, bounded, sockets, installed⟩
  | waiterResumes w timedOut =>
    have waited : Numbered (c.timesOut w timedOut) := by
      unfold Client.timesOut
      split
      · exact ⟨ascending, bounded, sockets, installed⟩
      · exact numbered
    simp only [next, Client.subscribeAfterAck]
    split
    · exact ⟨waited.ascending, waited.bounded, waited.sockets, waited.installed⟩
    · rename_i same
      apply Numbered.send
      · exact ⟨waited.ascending, waited.bounded, waited.sockets, waited.installed⟩
      · exact waited.installed w.socket (not_not.mp same)
  | waiterReturns w frame => exact ⟨ascending, bounded, sockets, installed⟩
  | waiterRaises w frame => exact ⟨ascending, bounded, sockets, installed⟩

theorem Correlated.mint (correlated : Correlated c) : Correlated c.mint where
  issued := by
    intro r mem
    rcases Finset.mem_insert.mp mem with rfl | earlier
    · refine ⟨le_refl _, ?_, ?_⟩
      · intro there
        have := correlated.answered _ there
        omega
      · intro there
        have := correlated.rejected _ there
        omega
    · obtain ⟨low, open_still⟩ := correlated.issued r earlier
      exact ⟨Nat.le_succ_of_le low, open_still⟩
  pending := by
    intro r mem
    obtain ⟨low, open_still⟩ := correlated.pending r mem
    exact ⟨Nat.le_succ_of_le low, open_still⟩
  answered := fun r mem => Nat.le_succ_of_le (correlated.answered r mem)
  rejected := fun r mem => Nat.le_succ_of_le (correlated.rejected r mem)
  answered_once := correlated.answered_once
  rejected_once := correlated.rejected_once
  counted := correlated.counted
  frames := fun f mem r id => Nat.le_succ_of_le (correlated.frames f mem r id)
  alone := correlated.alone

theorem Correlated.send {message : Message} (correlated : Correlated c)
    (fresh : ∀ r, message.reqId = some r → r ≤ c.reqSeq ∧ ∀ f ∈ c.frames, f.message.reqId ≠ some r) (socket : Nat)
    (after : Option Nat) : Correlated (c.send socket message after) where
  issued := correlated.issued
  pending := correlated.pending
  answered := correlated.answered
  rejected := correlated.rejected
  answered_once := correlated.answered_once
  rejected_once := correlated.rejected_once
  counted := correlated.counted
  frames := by
    intro f mem r id
    rcases mem_send.mp mem with earlier | rfl
    · exact correlated.frames f earlier r id
    · exact (fresh r id).1
  alone := by
    intro f f_mem g g_mem r f_id g_id
    rcases mem_send.mp f_mem with f_earlier | rfl
    · rcases mem_send.mp g_mem with g_earlier | rfl
      · exact correlated.alone f f_earlier g g_earlier r f_id g_id
      · exact absurd f_id ((fresh r g_id).2 f f_earlier)
    · rcases mem_send.mp g_mem with g_earlier | rfl
      · exact absurd g_id ((fresh r f_id).2 g g_earlier)
      · rfl

/-- The request that is minted next is of no frame yet. -/
theorem Correlated.unused (correlated : Correlated c) :
    ∀ r, some (c.reqSeq + 1) = some r → r ≤ c.mint.reqSeq ∧ ∀ f ∈ c.mint.frames, f.message.reqId ≠ some r := by
  intro r same
  obtain rfl := Option.some.inj same
  refine ⟨le_refl _, ?_⟩
  intro f mem id
  have := correlated.frames f mem _ id
  omega

theorem Correlated.noteReply (correlated : Correlated c) (reqId : Option Nat) (success : Bool) :
    Correlated (c.noteReply reqId success) := by
  unfold Client.noteReply
  split
  · exact correlated
  · rename_i r
    split
    · exact correlated
    · rename_i open_still
      obtain ⟨low, unanswered, unrejected⟩ := correlated.issued r (not_not.mp open_still)
      constructor
      · intro r' mem
        obtain ⟨other, mem⟩ := Finset.mem_erase.mp mem
        obtain ⟨low', unanswered', unrejected'⟩ := correlated.issued r' mem
        refine ⟨low', ?_, ?_⟩
        · dsimp only
          split
          · simp [unanswered', other]
          · exact unanswered'
        · dsimp only
          split
          · exact unrejected'
          · simp [unrejected', other]
      · intro r' mem
        obtain ⟨other, mem⟩ := Finset.mem_erase.mp mem
        obtain ⟨low', unanswered'⟩ := correlated.pending r' mem
        refine ⟨low', ?_⟩
        dsimp only
        split
        · simp [unanswered', other]
        · exact unanswered'
      · intro r' mem
        dsimp only at mem
        split at mem
        · rcases List.mem_append.mp mem with earlier | now
          · exact correlated.answered r' earlier
          · rwa [List.mem_singleton.mp now]
        · exact correlated.answered r' mem
      · intro r' mem
        dsimp only at mem
        split at mem
        · exact correlated.rejected r' mem
        · rcases List.mem_append.mp mem with earlier | now
          · exact correlated.rejected r' earlier
          · rwa [List.mem_singleton.mp now]
      · dsimp only
        split
        · simpa [List.concat_eq_append] using correlated.answered_once.concat unanswered
        · exact correlated.answered_once
      · dsimp only
        split
        · exact correlated.rejected_once
        · simpa [List.concat_eq_append] using correlated.rejected_once.concat unrejected
      · have := correlated.counted
        cases success <;> simp [this]
      · exact correlated.frames
      · exact correlated.alone

theorem Correlated.timesOut (correlated : Correlated c) (w : Waiter) (timedOut : Bool) :
    Correlated (c.timesOut w timedOut) := by
  unfold Client.timesOut
  split
  · obtain ⟨issued, pending, answered, rejected, answered_once, rejected_once, counted, frames, alone⟩ := correlated
    refine ⟨issued, ?_, answered, rejected, answered_once, rejected_once, counted, frames, alone⟩
    intro r mem
    exact pending r (Finset.mem_of_mem_erase mem)
  · exact correlated

theorem correlated_next (correlated : Correlated c) : Correlated (next pairs depth c e) := by
  have ⟨issued, pending, answered, rejected, answered_once, rejected_once, counted, frames, alone⟩ := correlated
  have none_new : ∀ r, (none : Option Nat) = some r → r ≤ c.reqSeq ∧ ∀ f ∈ c.frames, f.message.reqId ≠ some r := by
    intro r same
    cases same
  cases e with
  | connects =>
    apply Correlated.send
    · exact ⟨issued, pending, answered, rejected, answered_once, rejected_once, counted, frames, alone⟩
    · exact none_new
  | subscribeReturns socket frame channel =>
    cases channel with
    | book =>
      apply Correlated.send
      · exact ⟨issued, pending, answered, rejected, answered_once, rejected_once, counted, frames, alone⟩
      · exact none_new
    | trade => exact ⟨issued, pending, answered, rejected, answered_once, rejected_once, counted, frames, alone⟩
  | resubscribes pair =>
    simp only [next, Client.resubscribeBook]
    split
    · exact correlated
    · apply Correlated.send
      · have minted := correlated.mint
        refine ⟨minted.issued, ?_, minted.answered, minted.rejected, minted.answered_once, minted.rejected_once,
          minted.counted, minted.frames, minted.alone⟩
        intro r mem
        rcases Finset.mem_insert.mp mem with rfl | earlier
        · refine ⟨le_refl _, ?_⟩
          intro there
          have := answered _ there
          omega
        · exact minted.pending r earlier
      · exact correlated.unused
  | replies reqId success => exact correlated.noteReply reqId success
  | waiterResumes w timedOut =>
    have waited := correlated.timesOut w timedOut
    simp only [next, Client.subscribeAfterAck]
    split
    · exact ⟨waited.issued, waited.pending, waited.answered, waited.rejected, waited.answered_once,
        waited.rejected_once, waited.counted, waited.frames, waited.alone⟩
    · apply Correlated.send
      · have minted := waited.mint
        exact ⟨minted.issued, minted.pending, minted.answered, minted.rejected, minted.answered_once,
          minted.rejected_once, minted.counted, minted.frames, minted.alone⟩
      · exact waited.unused
  | connectFails | drops | closes | callReturns | callRaises | timerFires | waiterReturns | waiterRaises =>
    exact ⟨issued, pending, answered, rejected, answered_once, rejected_once, counted, frames, alone⟩

theorem Carried.send {socket : Nat} {message : Message} {after : Option Nat} (carried : Carried c)
    (numbered : Numbered c)
    (waited : ∀ r, after = some r → ∃ u ∈ c.frames, ∃ p, Unsubscribes u socket p r ∧ message.symbol = [p]) :
    Carried (c.send socket message after) where
  calls := by
    intro k mem
    obtain ⟨out, u, u_mem, of_u⟩ := carried.calls k mem
    exact ⟨out, u, mem_send.mpr (Or.inl u_mem), of_u⟩
  apart := carried.apart
  returned := by
    intro f mem
    have longer : (c.send socket message after).frames.length = c.frames.length + 1 := by simp [Client.send]
    have := carried.returned f mem
    omega
  waiters := by
    intro w mem
    obtain ⟨u, u_mem, of_u⟩ := carried.waiters w mem
    exact ⟨u, mem_send.mpr (Or.inl u_mem), of_u⟩
  sending := by
    intro w mem f phase
    obtain ⟨g, g_mem, of_g⟩ := carried.sending w mem f phase
    exact ⟨g, mem_send.mpr (Or.inl g_mem), of_g⟩
  stream := by
    intro channel f at_send
    obtain ⟨g, g_mem, of_g⟩ := carried.stream channel f at_send
    exact ⟨g, mem_send.mpr (Or.inl g_mem), of_g⟩
  after := by
    intro g mem r id
    rcases mem_send.mp mem with earlier | rfl
    · obtain ⟨u, u_mem, of_u⟩ := carried.after g earlier r id
      exact ⟨u, mem_send.mpr (Or.inl u_mem), of_u⟩
    · obtain ⟨u, u_mem, p, of_u, symbol⟩ := waited r id
      exact ⟨u, mem_send.mpr (Or.inl u_mem), p, of_u, symbol, numbered.bounded u u_mem⟩

/-- A frame that subscribes is the frame of no call. -/
theorem Carried.apart_subscribe {k : Call} {g : Frame} (carried : Carried c) (numbered : Numbered c)
    (k_mem : k ∈ c.calls) (g_mem : g ∈ c.frames) (way : g.message.method = .subscribe) : k.frame ≠ g.no := by
  intro same
  obtain ⟨_, u, u_mem, no, _, u_way, _⟩ := carried.calls k k_mem
  obtain rfl := same_no numbered.ascending u_mem g_mem (no.trans same)
  rw [way] at u_way
  cases u_way

theorem Carried.erased_apart {k k' : Call} (carried : Carried c) (mem : k ∈ c.calls)
    (mem' : k' ∈ c.calls.erase k) : k'.frame ≠ k.frame := by
  have apart := ((List.perm_cons_erase mem).map (·.frame)).nodup_iff.mp carried.apart
  have alone := (List.nodup_cons.mp apart).1
  intro same
  exact alone (List.mem_map.mpr ⟨k', mem', same⟩)

theorem Carried.erased (carried : Carried c) (k : Call) : ((c.calls.erase k).map (·.frame)).Nodup :=
  carried.apart.sublist (List.erase_sublist.map _)

/-- The waiters may go on, as long as each is one there was or has what is asked of it. -/
theorem Carried.withWaiters {c' : Client} (carried : Carried c) (frames : c'.frames = c.frames)
    (returned : c'.returned = c.returned) (calls : c'.calls = c.calls) (stream : c'.stream = c.stream)
    (waiters : ∀ w ∈ c'.waiters, w ∈ c.waiters ∨ ((∃ u ∈ c.frames, Unsubscribes u w.socket w.pair w.reqId) ∧
      ∀ f, w.phase = .sending f → ∃ g ∈ c.frames, g.no = f ∧ Subscribes g w.socket [w.pair])) : Carried c' where
  calls := by
    rw [frames, returned, calls]
    exact carried.calls
  apart := by
    rw [calls]
    exact carried.apart
  returned := by
    rw [frames, returned]
    exact carried.returned
  waiters := by
    intro w mem
    rw [frames]
    rcases waiters w mem with earlier | ⟨own, _⟩
    · exact carried.waiters w earlier
    · exact own
  sending := by
    intro w mem f phase
    rw [frames]
    rcases waiters w mem with earlier | ⟨_, own⟩
    · exact carried.sending w earlier f phase
    · exact own f phase
  stream := by
    rw [frames, stream]
    exact carried.stream
  after := by
    rw [frames]
    exact carried.after

/-- A subscribe goes out: its frame is of no call. -/
theorem Carried.subscribed {c' : Client} {g : Frame} (carried : Carried c) (numbered : Numbered c)
    (g_mem : g ∈ c.frames) (way : g.message.method = .subscribe) (frames : c'.frames = c.frames)
    (returned : c'.returned = insert g.no c.returned) (calls : c'.calls = c.calls)
    (waiters : ∀ w ∈ c'.waiters, w ∈ c.waiters) (stream : ∀ channel f, c'.stream = .subscribing channel f →
      c.stream = .subscribing channel f) : Carried c' where
  calls := by
    rw [frames, returned, calls]
    intro k mem
    obtain ⟨unreturned, of_k⟩ := carried.calls k mem
    refine ⟨?_, of_k⟩
    intro out
    rcases Finset.mem_insert.mp out with same | earlier
    · exact carried.apart_subscribe numbered mem g_mem way same
    · exact unreturned earlier
  apart := by
    rw [calls]
    exact carried.apart
  returned := by
    rw [frames, returned]
    intro f out
    rcases Finset.mem_insert.mp out with rfl | earlier
    · exact numbered.bounded g g_mem
    · exact carried.returned f earlier
  waiters := by
    rw [frames]
    exact fun w mem => carried.waiters w (waiters w mem)
  sending := by
    rw [frames]
    exact fun w mem => carried.sending w (waiters w mem)
  stream := by
    rw [frames]
    exact fun channel f at_send => carried.stream channel f (stream channel f at_send)
  after := by
    rw [frames]
    exact carried.after

theorem Carried.resubscribeBook (carried : Carried c) (numbered : Numbered c) (pair : String) :
    Carried (c.resubscribeBook depth pair) := by
  unfold Client.resubscribeBook
  split
  · exact carried
  · rename_i socket live
    have sent : Carried (c.send socket
        (buildUnsubscribeMessage .book [pair] (some depth) (some (c.reqSeq + 1))) none) := by
      apply carried.send numbered
      intro r same
      cases same
    refine ⟨?_, ?_, sent.returned, sent.waiters, sent.sending, sent.stream, sent.after⟩
    · intro k mem
      rcases List.mem_cons.mp mem with rfl | earlier
      · refine ⟨?_, _, mem_send.mpr (Or.inr rfl), rfl, rfl, rfl, rfl, rfl⟩
        intro out
        exact absurd (carried.returned _ out) (lt_irrefl _)
      · exact sent.calls k earlier
    · refine List.nodup_cons.mpr ⟨?_, carried.apart⟩
      intro there
      obtain ⟨k, mem, same⟩ := List.mem_map.mp there
      obtain ⟨_, u, u_mem, no, _⟩ := carried.calls k mem
      have := numbered.bounded u u_mem
      dsimp only at same
      omega

theorem Carried.callReturns {k : Call} (carried : Carried c) (numbered : Numbered c) (k_mem : k ∈ c.calls) :
    Carried (c.callReturns k) where
  calls := by
    intro k' mem
    obtain ⟨unreturned, of_k'⟩ := carried.calls k' (List.mem_of_mem_erase mem)
    refine ⟨?_, of_k'⟩
    intro out
    rcases Finset.mem_insert.mp out with same | earlier
    · exact carried.erased_apart k_mem mem same
    · exact unreturned earlier
  apart := carried.erased k
  returned := by
    intro f out
    rcases Finset.mem_insert.mp out with rfl | earlier
    · obtain ⟨_, u, u_mem, no, _⟩ := carried.calls k k_mem
      rw [← no]
      exact numbered.bounded u u_mem
    · exact carried.returned f earlier
  waiters := by
    intro w mem
    rcases List.mem_cons.mp mem with rfl | earlier
    · obtain ⟨_, u, u_mem, _, of_u⟩ := carried.calls k k_mem
      exact ⟨u, u_mem, of_u⟩
    · exact carried.waiters w earlier
  sending := by
    intro w mem f phase
    rcases List.mem_cons.mp mem with rfl | earlier
    · cases phase
    · exact carried.sending w earlier f phase
  stream := carried.stream
  after := carried.after

theorem Carried.subscribeAfterAck {w : Waiter} (carried : Carried c) (numbered : Numbered c)
    (w_mem : w ∈ c.waiters) : Carried (c.subscribeAfterAck depth w) := by
  unfold Client.subscribeAfterAck
  split
  · exact carried.withWaiters rfl rfl rfl rfl fun w' mem => Or.inl (List.mem_of_mem_erase mem)
  · obtain ⟨u, u_mem, of_u⟩ := carried.waiters w w_mem
    have sent : Carried (c.send w.socket
        (buildSubscribeMessage .book [w.pair] (some depth) (some (c.reqSeq + 1))) (some w.reqId)) := by
      apply carried.send numbered
      intro r same
      obtain rfl := Option.some.inj same
      exact ⟨u, u_mem, w.pair, of_u, rfl⟩
    refine sent.withWaiters rfl rfl rfl rfl ?_
    intro w' mem
    rcases List.mem_cons.mp mem with rfl | earlier
    · right
      refine ⟨⟨u, mem_send.mpr (Or.inl u_mem), of_u⟩, ?_⟩
      intro f phase
      obtain rfl := Phase.sending.inj phase
      exact ⟨_, mem_send.mpr (Or.inr rfl), rfl, rfl, rfl, rfl, rfl⟩
    · exact Or.inl (List.mem_of_mem_erase earlier)

theorem carried_next (carried : Carried c) (numbered : Numbered c) (comes : Comes c e) :
    Carried (next pairs depth c e) := by
  have unwaited : ∀ (socket : Nat) (symbol : List String) (r : Nat), (none : Option Nat) = some r →
      ∃ u ∈ c.frames, ∃ p, Unsubscribes u socket p r ∧ symbol = [p] := by
    intro socket symbol r same
    cases same
  cases e with
  | connects =>
    have sent : Carried (c.send c.sockets (buildSubscribeMessage .book pairs (some depth) none) none) :=
      carried.send numbered (unwaited _ _)
    refine ⟨sent.calls, sent.apart, sent.returned, sent.waiters, sent.sending, ?_, sent.after⟩
    intro channel f at_send
    obtain ⟨rfl, rfl⟩ := Stream.subscribing.inj at_send
    exact ⟨_, mem_send.mpr (Or.inr rfl), rfl, rfl⟩
  | subscribeReturns socket frame channel =>
    obtain ⟨g, g_mem, rfl, way⟩ := carried.stream channel frame comes.2
    cases channel with
    | book =>
      have out : Carried { c with returned := insert g.no c.returned } :=
        carried.subscribed numbered g_mem way rfl rfl rfl (fun _ mem => mem) fun _ _ same => same
      have sent : Carried ({ c with returned := insert g.no c.returned }.send socket
          (buildSubscribeMessage .trade pairs none none) none) :=
        out.send ⟨numbered.ascending, numbered.bounded, numbered.sockets, numbered.installed⟩ (unwaited _ _)
      refine ⟨sent.calls, sent.apart, sent.returned, sent.waiters, sent.sending, ?_, sent.after⟩
      intro channel f at_send
      obtain ⟨rfl, rfl⟩ := Stream.subscribing.inj at_send
      exact ⟨_, mem_send.mpr (Or.inr rfl), rfl, rfl⟩
    | trade =>
      refine carried.subscribed numbered g_mem way rfl rfl rfl (fun _ mem => mem) ?_
      intro channel f at_send
      cases at_send
  | drops socket =>
    refine ⟨carried.calls, carried.apart, carried.returned, carried.waiters, carried.sending, ?_, carried.after⟩
    intro channel f at_send
    cases at_send
  | resubscribes pair => exact carried.resubscribeBook numbered pair
  | callReturns k => exact carried.callReturns numbered comes
  | callRaises k =>
    refine ⟨?_, carried.erased k, carried.returned, carried.waiters, carried.sending, carried.stream, carried.after⟩
    exact fun k' mem => carried.calls k' (List.mem_of_mem_erase mem)
  | replies reqId success =>
    simp only [next, Client.noteReply]
    split
    · exact carried
    · split
      · exact carried
      · exact carried.withWaiters rfl rfl rfl rfl fun _ mem => Or.inl mem
  | timerFires w =>
    refine carried.withWaiters rfl rfl rfl rfl ?_
    intro w' mem
    rcases List.mem_cons.mp mem with rfl | earlier
    · right
      refine ⟨carried.waiters w comes.1, ?_⟩
      intro f phase
      cases phase
    · exact Or.inl (List.mem_of_mem_erase earlier)
  | waiterResumes w timedOut =>
    have waited : Carried (c.timesOut w timedOut) ∧ Numbered (c.timesOut w timedOut) ∧
        w ∈ (c.timesOut w timedOut).waiters := by
      unfold Client.timesOut
      split
      · exact ⟨carried.withWaiters rfl rfl rfl rfl fun _ mem => Or.inl mem,
          ⟨numbered.ascending, numbered.bounded, numbered.sockets, numbered.installed⟩, comes.1⟩
      · exact ⟨carried, numbered, comes.1⟩
    exact waited.1.subscribeAfterAck waited.2.1 waited.2.2
  | waiterReturns w frame =>
    obtain ⟨g, g_mem, rfl, of_g⟩ := carried.sending w comes.1 frame comes.2
    exact carried.subscribed numbered g_mem of_g.2.2.1 rfl rfl rfl (fun _ mem => List.mem_of_mem_erase mem)
      fun _ _ same => same
  | waiterRaises w frame =>
    exact carried.withWaiters rfl rfl rfl rfl fun _ mem => Or.inl (List.mem_of_mem_erase mem)
  | connectFails | closes =>
    exact ⟨carried.calls, carried.apart, carried.returned, carried.waiters, carried.sending, carried.stream,
      carried.after⟩

end Resubscribe
