import Zcrypto.Capture.ResubscribeSteps

/- No unsubscribe on a live socket stays without its subscribe, and no entry without its owner: what a step keeps of
   these, and what follows for every run of a client. -/
namespace Resubscribe

variable {pairs : List String} {depth : Nat} {c : Client} {e : Event}

theorem MadeGood.mono {c' : Client} {u : Frame} (good : MadeGood c u) (frames : ∀ g ∈ c.frames, g ∈ c'.frames)
    (returned : c.returned ⊆ c'.returned)
    (calls : ∀ k ∈ c.calls, k.frame = u.no → k.socket = u.socket → u.message.symbol = [k.pair] →
      k ∈ c'.calls ∨ MadeGood c' u)
    (waiters : ∀ w ∈ c.waiters, w.socket = u.socket → u.message.symbol = [w.pair] →
      (∀ f, w.phase = .sending f → u.no < f) → w ∈ c'.waiters ∨ MadeGood c' u) : MadeGood c' u := by
  rcases good with ⟨k, mem, no, at_k, symbol⟩ | ⟨w, mem, at_w, symbol, before⟩ | ⟨g, mem, later, subscribes, out⟩
  · rcases calls k mem no at_k symbol with there | good
    · exact Or.inl ⟨k, there, no, at_k, symbol⟩
    · exact good
  · rcases waiters w mem at_w symbol before with there | good
    · exact Or.inr (Or.inl ⟨w, there, at_w, symbol, before⟩)
    · exact good
  · exact Or.inr (Or.inr ⟨g, frames g mem, later, subscribes, returned out⟩)

/-- More frames and more returns, with the calls and waiters there were. -/
theorem MadeGood.more {c' : Client} {u : Frame} (good : MadeGood c u) (frames : ∀ g ∈ c.frames, g ∈ c'.frames)
    (returned : c.returned ⊆ c'.returned) (calls : c'.calls = c.calls) (waiters : c'.waiters = c.waiters) :
    MadeGood c' u :=
  good.mono frames returned (fun _ mem _ _ _ => Or.inl (calls ▸ mem)) fun _ mem _ _ _ => Or.inl (waiters ▸ mem)

theorem MadeGood.ofWaiter {w : Waiter} {u : Frame} (mem : w ∈ c.waiters) (at_w : w.socket = u.socket)
    (symbol : u.message.symbol = [w.pair]) (before : ∀ f, w.phase = .sending f → u.no < f) : MadeGood c u :=
  Or.inr (Or.inl ⟨w, mem, at_w, symbol, before⟩)

theorem covered_connects (numbered : Numbered c) : Covered pairs (c.connects pairs depth) where
  bulk := by
    intro n live
    obtain rfl := Option.some.inj live
    exact ⟨_, mem_send.mpr (Or.inr rfl), rfl, rfl, rfl, rfl⟩
  madeGood := by
    intro n live u mem at_n way
    obtain rfl := Option.some.inj live.1
    rcases mem_send.mp mem with earlier | rfl
    · have := numbered.sockets u earlier
      omega
    · cases way

/-- A subscribe that is sent on a live socket leaves the unsubscribes as they are. -/
theorem Covered.send {socket : Nat} {message : Message} {after : Option Nat} (covered : Covered pairs c)
    (way : message.method = .subscribe) : Covered pairs (c.send socket message after) where
  bulk := by
    intro n live
    obtain ⟨g, mem, of_g⟩ := covered.bulk n live
    exact ⟨g, mem_send.mpr (Or.inl mem), of_g⟩
  madeGood := by
    intro n live u mem at_n u_way
    rcases mem_send.mp mem with earlier | rfl
    · exact (covered.madeGood n live u earlier at_n u_way).more (fun g mem => mem_send.mpr (Or.inl mem))
        (Finset.Subset.refl _) rfl rfl
    · rw [way] at u_way
      cases u_way

theorem covered_resubscribeBook (covered : Covered pairs c) (pair : String) :
    Covered pairs (c.resubscribeBook depth pair) := by
  unfold Client.resubscribeBook
  split
  · exact covered
  · rename_i socket live
    constructor
    · intro n live'
      obtain ⟨g, mem, of_g⟩ := covered.bulk n live'
      exact ⟨g, mem_send.mpr (Or.inl mem), of_g⟩
    · intro n live' u mem at_n way
      rcases mem_send.mp mem with earlier | rfl
      · refine (covered.madeGood n live' u earlier at_n way).mono (fun g mem => mem_send.mpr (Or.inl mem))
          (Finset.Subset.refl _) ?_ ?_
        · exact fun k mem _ _ _ => Or.inl (List.mem_cons_of_mem _ mem)
        · exact fun w mem _ _ _ => Or.inl mem
      · exact Or.inl ⟨_, List.mem_cons_self, rfl, rfl, rfl⟩

theorem covered_callReturns {k : Call} (covered : Covered pairs c) : Covered pairs (c.callReturns k) where
  bulk := covered.bulk
  madeGood := by
    intro n live u mem at_n way
    refine (covered.madeGood n live u mem at_n way).mono (fun _ mem => mem) (Finset.subset_insert _ _) ?_ ?_
    · intro k' k_mem _ at_k symbol
      by_cases same : k' = k
      · right
        subst same
        apply MadeGood.ofWaiter List.mem_cons_self at_k symbol
        intro f phase
        cases phase
      · exact Or.inl ((List.mem_erase_of_ne same).mpr k_mem)
    · exact fun w mem _ _ _ => Or.inl (List.mem_cons_of_mem _ mem)

/-- What raises on a socket that is down takes nothing from a live one. -/
theorem Live.apart {n socket : Nat} (live : Live c n) (raised : socket ∈ c.down) : socket ≠ n := by
  rintro rfl
  exact live.2 raised

theorem covered_callRaises {k : Call} (covered : Covered pairs c) (raised : k.socket ∈ c.down) :
    Covered pairs (c.callRaises k) where
  bulk := covered.bulk
  madeGood := by
    intro n live u mem at_n way
    refine (covered.madeGood n live u mem at_n way).mono (fun _ mem => mem) (Finset.Subset.refl _) ?_ ?_
    · intro k' k_mem _ at_k _
      left
      apply (List.mem_erase_of_ne ?_).mpr k_mem
      rintro rfl
      exact Live.apart live raised (at_k.trans at_n)
    · exact fun w mem _ _ _ => Or.inl mem

/-- A waiter that stood elsewhere than on a live socket is missed by no unsubscribe on it. -/
theorem covered_waiterEnds {w : Waiter} (covered : Covered pairs c) (elsewhere : ∀ n, Live c n → w.socket ≠ n) :
    Covered pairs { c with waiters := c.waiters.erase w } where
  bulk := covered.bulk
  madeGood := by
    intro n live u mem at_n way
    refine (covered.madeGood n live u mem at_n way).mono (fun _ mem => mem) (Finset.Subset.refl _) ?_ ?_
    · exact fun k mem _ _ _ => Or.inl mem
    · intro w' w_mem at_w _ _
      left
      apply (List.mem_erase_of_ne ?_).mpr w_mem
      rintro rfl
      exact elsewhere n live (at_w.trans at_n)

theorem covered_timerFires {w : Waiter} (covered : Covered pairs c) : Covered pairs (c.timerFires w) where
  bulk := covered.bulk
  madeGood := by
    intro n live u mem at_n way
    refine (covered.madeGood n live u mem at_n way).mono (fun _ mem => mem) (Finset.Subset.refl _) ?_ ?_
    · exact fun k mem _ _ _ => Or.inl mem
    · intro w' w_mem at_w symbol _
      by_cases same : w' = w
      · right
        subst same
        refine MadeGood.ofWaiter (w := { w' with phase := .waiting true }) List.mem_cons_self at_w symbol ?_
        intro f phase
        cases phase
      · exact Or.inl (List.mem_cons_of_mem _ ((List.mem_erase_of_ne same).mpr w_mem))

theorem covered_subscribeAfterAck {w : Waiter} (covered : Covered pairs c) (numbered : Numbered c) :
    Covered pairs (c.subscribeAfterAck depth w) := by
  unfold Client.subscribeAfterAck
  split
  · rename_i other
    apply covered_waiterEnds covered
    rintro n live rfl
    exact other live.1
  · constructor
    · intro n live
      obtain ⟨g, mem, of_g⟩ := covered.bulk n live
      exact ⟨g, mem_send.mpr (Or.inl mem), of_g⟩
    · intro n live u mem at_n way
      rcases mem_send.mp mem with earlier | rfl
      · refine (covered.madeGood n live u earlier at_n way).mono (fun g mem => mem_send.mpr (Or.inl mem))
          (Finset.Subset.refl _) ?_ ?_
        · exact fun k mem _ _ _ => Or.inl mem
        · intro w' w_mem at_w symbol _
          by_cases same : w' = w
          · right
            subst same
            refine MadeGood.ofWaiter (w := { w' with phase := .sending c.frames.length }) List.mem_cons_self at_w
              symbol ?_
            intro f phase
            obtain rfl := Phase.sending.inj phase
            exact numbered.bounded u earlier
          · exact Or.inl (List.mem_cons_of_mem _ ((List.mem_erase_of_ne same).mpr w_mem))
      · cases way

theorem covered_waiterReturns {w : Waiter} {frame : Nat} (covered : Covered pairs c) (carried : Carried c)
    (mem : w ∈ c.waiters) (phase : w.phase = .sending frame) : Covered pairs (c.waiterReturns w frame) where
  bulk := covered.bulk
  madeGood := by
    obtain ⟨g, g_mem, no, subscribes⟩ := carried.sending w mem frame phase
    intro n live u u_mem at_n way
    refine (covered.madeGood n live u u_mem at_n way).mono (fun _ mem => mem) (Finset.subset_insert _ _) ?_ ?_
    · exact fun k mem _ _ _ => Or.inl mem
    · intro w' w_mem at_w symbol before
      by_cases same : w' = w
      · -- the frame that has returned is later than the unsubscribe it was held back for
        right
        subst same
        right
        right
        refine ⟨g, g_mem, ?_, ?_, ?_⟩
        · rw [no]
          exact before frame phase
        · rw [← at_w, symbol]
          exact subscribes
        · rw [no]
          exact Finset.mem_insert_self _ _
      · exact Or.inl ((List.mem_erase_of_ne same).mpr w_mem)

theorem covered_next (covered : Covered pairs c) (numbered : Numbered c) (carried : Carried c) (comes : Comes c e) :
    Covered pairs (next pairs depth c e) := by
  cases e with
  | connects => exact covered_connects numbered
  | connectFails => exact ⟨covered.bulk, covered.madeGood⟩
  | subscribeReturns socket frame channel =>
    have out : Covered pairs { c with returned := insert frame c.returned } := by
      constructor
      · exact covered.bulk
      · intro n live u mem at_n way
        exact (covered.madeGood n live u mem at_n way).more (fun _ mem => mem) (Finset.subset_insert _ _) rfl rfl
    cases channel with
    | book =>
      have sent : Covered pairs ({ c with returned := insert frame c.returned }.send socket
          (buildSubscribeMessage .trade pairs none none) none) := out.send rfl
      exact ⟨sent.bulk, sent.madeGood⟩
    | trade => exact ⟨out.bulk, out.madeGood⟩
  | drops socket =>
    constructor
    · intro n live
      cases live
    · intro n live
      cases live.1
  | closes socket =>
    refine ⟨covered.bulk, ?_⟩
    intro n live
    apply covered.madeGood n
    refine ⟨live.1, ?_⟩
    intro down
    exact live.2 (Finset.mem_insert_of_mem down)
  | resubscribes pair => exact covered_resubscribeBook covered pair
  | callReturns k => exact covered_callReturns covered
  | callRaises k => exact covered_callRaises covered comes.2
  | replies reqId success =>
    simp only [next, Client.noteReply]
    split
    · exact covered
    · split
      · exact covered
      · exact ⟨covered.bulk, covered.madeGood⟩
  | timerFires w => exact covered_timerFires covered
  | waiterResumes w timedOut =>
    have waited : Covered pairs (c.timesOut w timedOut) ∧ Numbered (c.timesOut w timedOut) := by
      unfold Client.timesOut
      split
      · exact ⟨⟨covered.bulk, covered.madeGood⟩,
          ⟨numbered.ascending, numbered.bounded, numbered.sockets, numbered.installed⟩⟩
      · exact ⟨covered, numbered⟩
    exact covered_subscribeAfterAck waited.1 waited.2
  | waiterReturns w frame => exact covered_waiterReturns covered carried comes.1 comes.2
  | waiterRaises w frame =>
    apply covered_waiterEnds covered
    intro n live
    exact Live.apart live comes.2.2

/-- The entry of a wait that goes on is gone: the reply took it, or the timeout does. -/
theorem timesOut_gone {w : Waiter} {timedOut : Bool} (correlated : Correlated c)
    (ready : timedOut ∨ w.reqId ∈ c.answered) : w.reqId ∉ (c.timesOut w timedOut).pending := by
  unfold Client.timesOut
  split
  · exact Finset.notMem_erase _ _
  · rename_i untimed
    intro mem
    rcases ready with timed | answered
    · exact untimed timed
    · exact (correlated.pending _ mem).2 answered

/-- Entries go, and of the calls and waiters only such as own none. -/
theorem Owned.fewer {c' : Client} (owned : Owned c) (pending : ∀ r ∈ c'.pending, r ∈ c.pending)
    (calls : ∀ k ∈ c.calls, k.reqId ∈ c'.pending → k ∈ c'.calls ∨ ∃ w ∈ c'.waiters, w.reqId = k.reqId ∧
      ∃ timedOut, w.phase = .waiting timedOut)
    (waiters : ∀ w ∈ c.waiters, (∃ timedOut, w.phase = .waiting timedOut) → w.reqId ∈ c'.pending →
      ∃ w' ∈ c'.waiters, w'.reqId = w.reqId ∧ ∃ timedOut, w'.phase = .waiting timedOut) : Owned c' := by
  intro r mem
  rcases owned r (pending r mem) with ⟨k, k_mem, rfl⟩ | ⟨w, w_mem, rfl, waits⟩
  · rcases calls k k_mem mem with there | waits
    · exact Or.inl ⟨k, there, rfl⟩
    · exact Or.inr waits
  · exact Or.inr (waiters w w_mem waits mem)

theorem owned_next (owned : Owned c) (correlated : Correlated c) (comes : Comes c e) (gone : EntryGone c e) :
    Owned (next pairs depth c e) := by
  cases e with
  | subscribeReturns socket frame channel =>
    cases channel with
    | book => exact owned
    | trade => exact owned
  | resubscribes pair =>
    simp only [next, Client.resubscribeBook]
    split
    · exact owned
    · intro r mem
      rcases Finset.mem_insert.mp mem with rfl | earlier
      · exact Or.inl ⟨_, List.mem_cons_self, rfl⟩
      · rcases owned r earlier with ⟨k, k_mem, same⟩ | waits
        · exact Or.inl ⟨k, List.mem_cons_of_mem _ k_mem, same⟩
        · exact Or.inr waits
  | callReturns k =>
    refine owned.fewer (fun _ mem => mem) ?_ ?_
    · intro k' mem _
      by_cases same : k' = k
      · right
        rw [same]
        exact ⟨_, List.mem_cons_self, rfl, false, rfl⟩
      · exact Or.inl ((List.mem_erase_of_ne same).mpr mem)
    · intro w mem waits _
      exact ⟨w, List.mem_cons_of_mem _ mem, rfl, waits⟩
  | callRaises k =>
    refine owned.fewer (fun _ mem => mem) ?_ ?_
    · intro k' mem still
      left
      apply (List.mem_erase_of_ne ?_).mpr mem
      rintro rfl
      exact gone still
    · exact fun w mem waits _ => ⟨w, mem, rfl, waits⟩
  | replies reqId success =>
    simp only [next, Client.noteReply]
    split
    · exact owned
    · split
      · exact owned
      · refine owned.fewer (fun _ mem => Finset.mem_of_mem_erase mem) ?_ ?_
        · exact fun k mem _ => Or.inl mem
        · exact fun w mem waits _ => ⟨w, mem, rfl, waits⟩
  | timerFires w =>
    refine owned.fewer (fun _ mem => mem) (fun k mem _ => Or.inl mem) ?_
    intro w' mem waits _
    by_cases same : w' = w
    · rw [same]
      exact ⟨_, List.mem_cons_self, rfl, true, rfl⟩
    · exact ⟨w', List.mem_cons_of_mem _ ((List.mem_erase_of_ne same).mpr mem), rfl, waits⟩
  | waiterResumes w timedOut =>
    have gone := timesOut_gone correlated comes.2.2
    have kept : ∀ r ∈ (c.timesOut w timedOut).pending, r ∈ c.pending := by
      intro r
      unfold Client.timesOut
      split
      · exact Finset.mem_of_mem_erase
      · exact id
    have others : ∀ w' ∈ c.waiters, w'.reqId ∈ (c.timesOut w timedOut).pending → w' ∈ c.waiters.erase w := by
      intro w' mem still
      apply (List.mem_erase_of_ne ?_).mpr mem
      rintro rfl
      exact gone still
    have calls : (c.timesOut w timedOut).calls = c.calls ∧ (c.timesOut w timedOut).waiters = c.waiters := by
      unfold Client.timesOut
      split <;> exact ⟨rfl, rfl⟩
    simp only [next, Client.subscribeAfterAck]
    split
    · refine owned.fewer kept (fun k mem _ => Or.inl (calls.1 ▸ mem)) ?_
      intro w' mem waits still
      exact ⟨w', calls.2 ▸ others w' mem still, rfl, waits⟩
    · refine owned.fewer kept (fun k mem _ => Or.inl (calls.1 ▸ mem)) ?_
      intro w' mem waits still
      exact ⟨w', List.mem_cons_of_mem _ (calls.2 ▸ others w' mem still), rfl, waits⟩
  | waiterReturns w frame =>
    refine owned.fewer (fun _ mem => mem) (fun k mem _ => Or.inl mem) ?_
    rintro w' mem ⟨timedOut, waits⟩ _
    refine ⟨w', (List.mem_erase_of_ne ?_).mpr mem, rfl, timedOut, waits⟩
    rintro rfl
    rw [comes.2] at waits
    cases waits
  | waiterRaises w frame =>
    refine owned.fewer (fun _ mem => mem) (fun k mem _ => Or.inl mem) ?_
    rintro w' mem ⟨timedOut, waits⟩ _
    refine ⟨w', (List.mem_erase_of_ne ?_).mpr mem, rfl, timedOut, waits⟩
    rintro rfl
    rw [comes.2.1] at waits
    cases waits
  | connects | connectFails | drops | closes => exact owned

/-! Runs of a new client. -/

structure Sane (pairs : List String) (c : Client) : Prop where
  numbered : Numbered c
  correlated : Correlated c
  carried : Carried c
  covered : Covered pairs c

theorem sane_new : Sane pairs {} where
  numbered := by constructor <;> simp
  correlated := by constructor <;> simp
  carried := by constructor <;> simp
  covered := by constructor <;> simp [Live]

theorem sane_step {c' : Client} (sane : Sane pairs c) (done : step pairs depth c e = some c') : Sane pairs c' := by
  unfold step at done
  split at done
  · rename_i comes
    obtain rfl := Option.some.inj done
    exact ⟨numbered_next sane.numbered comes, correlated_next sane.correlated,
      carried_next sane.carried sane.numbered comes, covered_next sane.covered sane.numbered sane.carried comes⟩
  · cases done

theorem owned_step {c' : Client} (owned : Owned c) (sane : Sane pairs c) (gone : EntryGone c e)
    (done : step pairs depth c e = some c') : Owned c' := by
  unfold step at done
  split at done
  · rename_i comes
    obtain rfl := Option.some.inj done
    exact owned_next owned sane.correlated comes gone
  · cases done

theorem sane_run {c' : Client} {events : List Event} (sane : Sane pairs c)
    (done : events.foldlM (step pairs depth) c = some c') : Sane pairs c' := by
  induction events generalizing c with
  | nil =>
    obtain rfl := Option.some.inj done
    exact sane
  | cons e rest ih =>
    rw [List.foldlM_cons] at done
    obtain ⟨c₁, one, more⟩ := Option.bind_eq_some_iff.mp done
    exact ih (sane_step sane one) more

theorem owned_run {c' : Client} {events : List Event} (sane : Sane pairs c) (owned : Owned c)
    (gone : Throughout pairs depth EntryGone c events) (done : events.foldlM (step pairs depth) c = some c') :
    Owned c' := by
  induction events generalizing c with
  | nil =>
    obtain rfl := Option.some.inj done
    exact owned
  | cons e rest ih =>
    rw [List.foldlM_cons] at done
    obtain ⟨c₁, one, more⟩ := Option.bind_eq_some_iff.mp done
    exact ih (sane_step sane one) (owned_step owned sane gone.1 one) (gone.2 c₁ one) more

/-- An unsubscribe that raises while its entry is there leaves the entry to nobody. -/
theorem entry_left {k : Call} (sane : Sane pairs c) (mem : k ∈ c.calls) (there : k.reqId ∈ c.pending)
    (ended : c.waiters = []) : ¬ NoneLeft (c.callRaises k) := by
  intro none_left
  obtain ⟨k', mem', same⟩ := none_left ended k.reqId there
  apply sane.carried.erased_apart mem mem'
  obtain ⟨_, u, u_mem, no, _, _, _, id⟩ := sane.carried.calls k mem
  obtain ⟨_, u', u_mem', no', _, _, _, id'⟩ := sane.carried.calls k' (List.mem_of_mem_erase mem')
  rw [same] at id'
  obtain rfl := sane.correlated.alone u' u_mem' u u_mem _ id' id
  rw [← no', no]

/-- In every state of every run no pair is stranded; entries are left in none, as long as no unsubscribe raises while
    its entry is there, and one that does leaves it there if no waiter is pending. -/
theorem never_strands (pairs : List String) (depth : Nat) (events : List Event) (c : Client)
    (done : run pairs depth events = some c) :
    NeverStrands pairs c ∧ (Throughout pairs depth EntryGone {} events → NoneLeft c) ∧
      ∀ k, Comes c (.callRaises k) → c.waiters = [] → ¬ EntryGone c (.callRaises k) →
        ¬ NoneLeft (next pairs depth c (.callRaises k)) := by
  have sane : Sane pairs c := sane_run sane_new done
  refine ⟨neverStrands_of sane.numbered sane.correlated sane.carried sane.covered, ?_, ?_⟩
  · intro gone
    apply noneLeft_of
    refine owned_run sane_new ?_ gone done
    intro r mem
    simp at mem
  · intro k comes ended there
    exact entry_left sane comes.1 (not_not.mp there) ended

/-- The reply comes before its send raises, and takes the entry. -/
def repliedFirst : List Event :=
  [.connects, .subscribeReturns 0 0 .book, .resubscribes "BTC/EUR", .replies (some 1) true, .closes 0,
    .callRaises ⟨"BTC/EUR", 0, 1, 2⟩]

theorem never_strands_replied :
    ∃ c, run ["BTC/EUR", "ETH/EUR"] 100 repliedFirst = some c ∧ NeverStrands ["BTC/EUR", "ETH/EUR"] c ∧
      NoneLeft c := by
  have comes : (run ["BTC/EUR", "ETH/EUR"] 100 repliedFirst).isSome := by decide
  obtain ⟨c, done⟩ := Option.isSome_iff_exists.mp comes
  have kept := never_strands ["BTC/EUR", "ETH/EUR"] 100 repliedFirst c done
  exact ⟨c, done, kept.1, kept.2.1 (by decide)⟩

/-- The socket closes under the unsubscribe: no waiter is made, and the entry is there for good. -/
theorem failed_unsubscribe_left :
    ∃ c, run ["BTC/EUR"] 100 [.connects, .subscribeReturns 0 0 .book, .resubscribes "BTC/EUR", .closes 0,
      .callRaises ⟨"BTC/EUR", 0, 1, 2⟩, .drops 0] = some c ∧ c.waiters = [] ∧ c.calls = [] ∧ c.pending = {1} ∧
      ¬ NoneLeft c := by
  refine ⟨_, rfl, rfl, rfl, rfl, ?_⟩
  intro none_left
  obtain ⟨k, mem, _⟩ := none_left rfl 1 (by decide)
  cases mem

end Resubscribe
