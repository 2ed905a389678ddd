import WgReceivePath.Step

/-!
# What each step does

The step functions of the receive machine, inverted: for every context an inductive relation
with one constructor per transition, which names the guard under which the transition is
taken and the state it leads to.  The invariants of the following modules are proved by
cases on these relations; only this module unfolds the step functions, so that a change to a
function of the source is a change to one of them, to one constructor here and to the cases
of the invariants it concerns.

* `ProducerStep`, `RxStep`, `WorkerStep`, `PollMove`, `PollStep`, `TimerStep`, `RemoveStep`,
  `EnvStep` : the transitions of a context.  The state after a transition is written as an
  update of the state before, so that a case split leaves a term of which every field is
  known.
* `Transition` : the transitions of the machine, and `step_cases`, by which every step is
  one.

The relations forget what no invariant uses: which values the diagnostics get, and what the
environment has chosen.  Where a run is to be built and not only analysed they are exact
(`ProducerStep.taken`, `WorkerStep.taken`).
-/

namespace WgReceivePath

open Function (update)

variable {cfg : Config} {s s' : State}

/-- The transitions of `wg_packet_consume_data` on packet `x`.  The three accesses of the
enqueue are separate constructors, since the second one alone changes the order of the
queue. -/
inductive ProducerStep (cfg : Config) (s : State) (x : Skb) : State → Prop
  | lookupMiss (pc : s.prod x = .lookup) :
      ProducerStep cfg s x { s with
        keypair := update s.keypair x none
        prod := update s.prod x .keypairGet }
  | lookupHit (k : Keypair) (pc : s.prod x = .lookup)
      (counted : s.peerRef (cfg.peer k) ≠ 0) :
      ProducerStep cfg s x { s with
        keypair := update s.keypair x (some k)
        peerRef := update s.peerRef (cfg.peer k) (s.peerRef (cfg.peer k) + 1)
        prod := update s.prod x .keypairGet
        hist := { s.hist with
          peerGets := update s.hist.peerGets x (s.hist.peerGets x + 1) } }
  | keypairNull (pc : s.prod x = .keypairGet) (missing : s.keypair x = none) :
      ProducerStep cfg s x { s with prod := update s.prod x .errPeerPut }
  | keypairGone (k : Keypair) (pc : s.prod x = .keypairGet)
      (found : s.keypair x = some k) (zero : s.keypairRef k = 0) :
      ProducerStep cfg s x { s with prod := update s.prod x .errPeerPut }
  | keypairHit (k : Keypair) (pc : s.prod x = .keypairGet)
      (found : s.keypair x = some k) (counted : s.keypairRef k ≠ 0) :
      ProducerStep cfg s x { s with
        keypairRef := update s.keypairRef k (s.keypairRef k + 1)
        prod := update s.prod x .checkDead
        hist := { s.hist with
          keypairGets := update s.hist.keypairGets x (s.hist.keypairGets x + 1) } }
  | peerDead (k : Keypair) (pc : s.prod x = .checkDead)
      (found : s.keypair x = some k) (dead : s.isDead (cfg.peer k) = true) :
      ProducerStep cfg s x { s with prod := update s.prod x .errKeypairPut }
  | peerAlive (k : Keypair) (pc : s.prod x = .checkDead)
      (found : s.keypair x = some k) (alive : s.isDead (cfg.peer k) = false) :
      ProducerStep cfg s x { s with prod := update s.prod x .initState }
  | initState (k : Keypair) (pc : s.prod x = .initState)
      (found : s.keypair x = some k) :
      ProducerStep cfg s x { s with
        state := update s.state x .uncrypted
        prod := update s.prod x .reserve }
  | reject (k : Keypair) (pc : s.prod x = .reserve) (found : s.keypair x = some k)
      (full : (s.rxQueue (cfg.peer k)).reserve x = none) :
      ProducerStep cfg s x { s with
        prod := update s.prod x .errKeypairPut
        hist := { s.hist with obs := s.hist.obs ++ [.reject (cfg.peer k)] } }
  | accept (k : Keypair) (q : PrevQueue Skb) (pc : s.prod x = .reserve)
      (found : s.keypair x = some k)
      (room : (s.rxQueue (cfg.peer k)).reserve x = some q) :
      ProducerStep cfg s x { s with
        rxQueue := update s.rxQueue (cfg.peer k) q
        prod := update s.prod x .enqueue
        hist := { s.hist with obs := s.hist.obs ++ [.accept (cfg.peer k)] } }
  | enqClear (k : Keypair) (q : PrevQueue Skb) (pc : s.prod x = .enqueue)
      (found : s.keypair x = some k)
      (enq : (s.rxQueue (cfg.peer k)).enq x = .clear)
      (taken : (s.rxQueue (cfg.peer k)).enqueueStep x = some q) :
      ProducerStep cfg s x { s with rxQueue := update s.rxQueue (cfg.peer k) q }
  | enqXchg (k : Keypair) (q : PrevQueue Skb) (pc : s.prod x = .enqueue)
      (found : s.keypair x = some k)
      (enq : (s.rxQueue (cfg.peer k)).enq x = .xchg)
      (taken : (s.rxQueue (cfg.peer k)).enqueueStep x = some q) :
      ProducerStep cfg s x { s with
        rxQueue := update s.rxQueue (cfg.peer k) q
        hist := { s.hist with
          exchanged := update s.hist.exchanged (cfg.peer k)
            (s.hist.exchanged (cfg.peer k) ++ [x]) } }
  | enqLink (k : Keypair) (q : PrevQueue Skb) (prev : Node Skb)
      (pc : s.prod x = .enqueue) (found : s.keypair x = some k)
      (enq : (s.rxQueue (cfg.peer k)).enq x = .link prev)
      (taken : (s.rxQueue (cfg.peer k)).enqueueStep x = some q) :
      ProducerStep cfg s x { s with
        rxQueue := update s.rxQueue (cfg.peer k) q
        prod := update s.prod x .nextCpu }
  | nextCpu (k : Keypair) (pc : s.prod x = .nextCpu) (found : s.keypair x = some k) :
      ProducerStep cfg s x { s with
        prod := update s.prod x (.storeCpu (wgCpumaskNextOnline cfg.cpus s.lastCpu)) }
  | storeCpu (k : Keypair) (c : Cpu) (pc : s.prod x = .storeCpu c)
      (found : s.keypair x = some k) :
      ProducerStep cfg s x { s with
        lastCpu := some c
        prod := update s.prod x (.produce c) }
  | produce (k : Keypair) (c : Cpu) (pc : s.prod x = .produce c)
      (found : s.keypair x = some k) (room : s.ring.length < MAX_QUEUED_PACKETS) :
      ProducerStep cfg s x { s with
        ring := s.ring ++ [x]
        rx := update s.rx x ⟨.ring, .uncrypted, .producer⟩
        prod := update s.prod x (.queueWork c) }
  | ringFull (k : Keypair) (c : Cpu) (pc : s.prod x = .produce c)
      (found : s.keypair x = some k) (full : ¬ s.ring.length < MAX_QUEUED_PACKETS) :
      ProducerStep cfg s x { s with
        rx := update s.rx x ⟨.get, .dead, .producer⟩
        prod := update s.prod x .completing
        hist := { s.hist with
          handledBy := update s.hist.handledBy x (s.hist.handledBy x ++ [.producer]) } }
  | queueWork (k : Keypair) (c : Cpu) (pc : s.prod x = .queueWork c)
      (found : s.keypair x = some k) :
      ProducerStep cfg s x { s with
        worker := update s.worker c { s.worker c with pending := true }
        prod := update s.prod x .done }
  | completed (k : Keypair) (pc : s.prod x = .completing)
      (found : s.keypair x = some k) (returned : (s.rx x).pc = .done) :
      ProducerStep cfg s x { s with prod := update s.prod x .done }
  | errKeypairPut (k : Keypair) (pc : s.prod x = .errKeypairPut)
      (found : s.keypair x = some k) :
      ProducerStep cfg s x { s with
        keypairRef := update s.keypairRef k (s.keypairRef k - 1)
        prod := update s.prod x .errPeerPut
        hist := { s.hist with
          keypairPuts := update s.hist.keypairPuts x (s.hist.keypairPuts x + 1) } }
  | errPeerPut (k : Keypair) (pc : s.prod x = .errPeerPut)
      (found : s.keypair x = some k) :
      ProducerStep cfg s x { s with
        peerRef := update s.peerRef (cfg.peer k) (s.peerRef (cfg.peer k) - 1)
        prod := update s.prod x .freed
        hist := { s.hist with
          peerPuts := update s.hist.peerPuts x (s.hist.peerPuts x + 1) } }
  | errPeerNull (pc : s.prod x = .errPeerPut) (missing : s.keypair x = none) :
      ProducerStep cfg s x { s with prod := update s.prod x .freed }

theorem enqueueStep_cases {x : Skb} {k : Keypair} (pc : s.prod x = .enqueue)
    (found : s.keypair x = some k) (taken : enqueueStep s x (cfg.peer k) = some s') :
    ProducerStep cfg s x s' := by
  unfold enqueueStep at taken
  cases enq : (s.rxQueue (cfg.peer k)).enq x with
  | idle => simp [enq] at taken
  | clear =>
      simp only [enq, Option.map_eq_some_iff] at taken
      obtain ⟨q, queue, rfl⟩ := taken
      exact .enqClear k q pc found enq queue
  | xchg =>
      simp only [enq, Option.map_eq_some_iff] at taken
      obtain ⟨q, queue, rfl⟩ := taken
      exact .enqXchg k q pc found enq queue
  | link prev =>
      simp only [enq, Option.map_eq_some_iff] at taken
      obtain ⟨q, queue, rfl⟩ := taken
      exact .enqLink k q prev pc found enq queue

/-- The steps of `wg_packet_consume_data` behind the lookup of the keypair, one after the
other. -/
theorem foundStep_cases {x : Skb} {k : Keypair} (found : s.keypair x = some k)
    (taken : foundStep cfg s x k = some s') : ProducerStep cfg s x s' := by
  unfold foundStep State.setProd at taken
  cases pc : s.prod x with
  | keypairGet =>
      by_cases zero : s.keypairRef k = 0 <;> simp [pc, zero] at taken <;> subst taken
      · exact .keypairGone k pc found zero
      · exact .keypairHit k pc found zero
  | checkDead =>
      cases dead : s.isDead (cfg.peer k) <;> simp [pc, dead] at taken <;> subst taken
      · exact .peerAlive k pc found dead
      · exact .peerDead k pc found dead
  | initState =>
      simp [pc] at taken
      exact taken ▸ .initState k pc found
  | reserve =>
      cases room : (s.rxQueue (cfg.peer k)).reserve x <;> simp [pc, room] at taken <;>
        subst taken
      · exact .reject k pc found room
      · exact .accept k _ pc found room
  | enqueue => exact enqueueStep_cases pc found (by simpa [pc] using taken)
  | nextCpu =>
      simp [pc] at taken
      exact taken ▸ .nextCpu k pc found
  | storeCpu c =>
      simp [pc] at taken
      exact taken ▸ .storeCpu k c pc found
  | produce c =>
      by_cases room : s.ring.length < MAX_QUEUED_PACKETS <;> simp [pc, room] at taken <;>
        subst taken
      · exact .produce k c pc found room
      · exact .ringFull k c pc found room
  | queueWork c =>
      simp [pc] at taken
      exact taken ▸ .queueWork k c pc found
  | completing =>
      simp [pc] at taken
      exact taken.2 ▸ .completed k pc found taken.1
  | errKeypairPut =>
      simp [pc] at taken
      exact taken ▸ .errKeypairPut k pc found
  | errPeerPut =>
      simp [pc] at taken
      exact taken ▸ .errPeerPut k pc found
  | fresh => simp [pc] at taken
  | lookup => simp [pc] at taken
  | done => simp [pc] at taken
  | freed => simp [pc] at taken

theorem producerStep_cases {x : Skb} {found : Option Keypair}
    (taken : producerStep cfg s x found = some s') : ProducerStep cfg s x s' := by
  unfold producerStep at taken
  split at taken
  · rename_i pc
    cases taken
    unfold lookupStep
    cases found with
    | none => exact .lookupMiss pc
    | some k =>
        by_cases zero : s.peerRef (cfg.peer k) = 0 <;> simp only [zero, ↓reduceIte]
        · exact .lookupMiss pc
        · exact .lookupHit k pc zero
  · split at taken
    · rename_i k keypair
      exact foundStep_cases keypair taken
    · rename_i missing
      split at taken <;> simp [State.setProd] at taken <;> subst taken
      · exact .keypairNull ‹_› missing
      · exact .errPeerNull ‹_› missing

/-! ## Completions and workers -/

/-- The transitions of the completion of `x`, a packet of keypair `k`.  The verdict may be
any state other than `UNCRYPTED`: no invariant depends on how it comes about. -/
inductive RxStep (cfg : Config) (s : State) (x : Skb) (k : Keypair) : State → Prop
  | decrypt (valid : Bool) (st : PacketState) (pc : (s.rx x).pc = .decrypt)
      (verdict : st ≠ .uncrypted) :
      RxStep cfg s x k { s with
        valid := update s.valid k valid
        rx := update s.rx x { s.rx x with pc := .get, st := st } }
  | get (pc : (s.rx x).pc = .get) :
      RxStep cfg s x k { s with
        peerRef := update s.peerRef (cfg.peer k) (s.peerRef (cfg.peer k) + 1)
        rx := update s.rx x { s.rx x with pc := .store } }
  | store (pc : (s.rx x).pc = .store) :
      RxStep cfg s x k { s with
        state := update s.state x (s.rx x).st
        rx := update s.rx x { s.rx x with pc := .gate }
        hist := { s.hist with
          left := update s.hist.left x
            (s.hist.left x + if s.state x = .uncrypted then 1 else 0) } }
  | gateHead (pc : (s.rx x).pc = .gate) (on : s.knobs.headwake ≠ 0)
      (crypted : (s.rx x).st = .crypted) :
      RxStep cfg s x k { s with
        rx := update s.rx x { s.rx x with pc := .readBlocked } }
  | gateStock (pc : (s.rx x).pc = .gate)
      (stock : ¬ (s.knobs.headwake ≠ 0 ∧ (s.rx x).st = .crypted)) :
      RxStep cfg s x k { s with rx := update s.rx x { s.rx x with pc := .trigGate } }
  | blockedWake (pc : (s.rx x).pc = .readBlocked)
      (hit : ∀ b, s.blockedOn (cfg.peer k) = some b → cfg.addr b = cfg.addr x) :
      RxStep cfg s x k { s with rx := update s.rx x { s.rx x with pc := .schedule } }
  | blockedSilent (b : Skb) (pc : (s.rx x).pc = .readBlocked)
      (parked : s.blockedOn (cfg.peer k) = some b) (miss : cfg.addr b ≠ cfg.addr x) :
      RxStep cfg s x k { s with rx := update s.rx x { s.rx x with pc := .put } }
  | trigStock (pc : (s.rx x).pc = .trigGate)
      (stock : s.knobs.trigK = 0 ∨ (s.rx x).st ≠ .crypted) :
      RxStep cfg s x k { s with rx := update s.rx x { s.rx x with pc := .schedule } }
  | trigCount (pc : (s.rx x).pc = .trigGate) (on : s.knobs.trigK ≠ 0)
      (crypted : (s.rx x).st = .crypted) :
      RxStep cfg s x k { s with rx := update s.rx x { s.rx x with pc := .count } }
  | count (pc : (s.rx x).pc = .count) (next : RxPc)
      (branch : next = if reachesBatch (s.ready (cfg.peer k)) s.knobs.trigK
        then .xchgArmed else .cmpxchgArmed) :
      RxStep cfg s x k { s with
        ready := update s.ready (cfg.peer k) (s.ready (cfg.peer k) + 1)
        rx := update s.rx x { s.rx x with pc := next }
        hist := { s.hist with
          readyIncs := update s.hist.readyIncs (cfg.peer k)
            (s.hist.readyIncs (cfg.peer k) + 1) } }
  | xchgArmed (pc : (s.rx x).pc = .xchgArmed) (next : RxPc)
      (branch : next = if s.armed (cfg.peer k) then .tryCancel else .schedule) :
      RxStep cfg s x k { s with
        armed := update s.armed (cfg.peer k) false
        rx := update s.rx x { s.rx x with pc := next } }
  | tryCancel (pc : (s.rx x).pc = .tryCancel) :
      RxStep cfg s x k { s with
        timer := update s.timer (cfg.peer k) (s.timer (cfg.peer k)).tryToCancel
        rx := update s.rx x { s.rx x with pc := .schedule } }
  | casLost (pc : (s.rx x).pc = .cmpxchgArmed) (held : s.armed (cfg.peer k) = true) :
      RxStep cfg s x k { s with
        armed := update s.armed (cfg.peer k) true
        rx := update s.rx x { s.rx x with pc := .put } }
  | casWon (pc : (s.rx x).pc = .cmpxchgArmed) (free : s.armed (cfg.peer k) = false) :
      RxStep cfg s x k { s with
        armed := update s.armed (cfg.peer k) true
        rx := update s.rx x { s.rx x with pc := .startTimer } }
  | startTimer (pc : (s.rx x).pc = .startTimer) :
      RxStep cfg s x k { s with
        timer := update s.timer (cfg.peer k) (s.timer (cfg.peer k)).start
        rx := update s.rx x { s.rx x with pc := .put } }
  | schedule (pc : (s.rx x).pc = .schedule) :
      RxStep cfg s x k { s with
        napi := update s.napi (cfg.peer k) (s.napi (cfg.peer k)).schedule
        rx := update s.rx x { s.rx x with pc := .put }
        hist := { s.hist with obs := s.hist.obs ++ [.schedule (cfg.peer k)] } }
  | put (pc : (s.rx x).pc = .put) :
      RxStep cfg s x k { s with
        peerRef := update s.peerRef (cfg.peer k) (s.peerRef (cfg.peer k) - 1)
        rx := update s.rx x { s.rx x with pc := .done } }

/-- The steps of a completion.  The wake policy branches on the parameters, and each branch
ends in a wake or in a return. -/
theorem rxStep_cases {x : Skb} {k : Keypair} {expired auth : Bool}
    (taken : rxStep cfg s x k expired auth = some s') : RxStep cfg s x k s' := by
  unfold rxStep State.setRx at taken
  cases pc : (s.rx x).pc with
  | unqueued => simp [pc] at taken
  | ring => simp [pc] at taken
  | done => simp [pc] at taken
  | decrypt =>
      simp only [pc, Option.some.injEq] at taken
      exact taken ▸ .decrypt _ _ pc (by split <;> simp)
  | get =>
      simp only [pc, Option.some.injEq] at taken
      exact taken ▸ .get pc
  | store =>
      simp only [pc, Option.some.injEq] at taken
      exact taken ▸ .store pc
  | gate =>
      simp only [pc, Option.some.injEq] at taken
      by_cases head : s.knobs.headwake ≠ 0 ∧ (s.rx x).st = .crypted
      · rw [if_pos head] at taken
        exact taken ▸ .gateHead pc head.1 head.2
      · rw [if_neg head] at taken
        exact taken ▸ .gateStock pc head
  | readBlocked =>
      simp only [pc, Option.some.injEq] at taken
      cases parked : s.blockedOn (cfg.peer k) with
      | none =>
          simp only [parked] at taken
          exact taken ▸ .blockedWake pc (by simp [parked])
      | some b =>
          simp only [parked] at taken
          by_cases same : cfg.addr b = cfg.addr x
          · rw [if_pos same] at taken
            exact taken ▸ .blockedWake pc (by simpa [parked] using same)
          · rw [if_neg same] at taken
            exact taken ▸ .blockedSilent b pc parked same
  | trigGate =>
      simp only [pc, Option.some.injEq] at taken
      by_cases stock : s.knobs.trigK = 0 ∨ (s.rx x).st ≠ .crypted
      · rw [if_pos stock] at taken
        exact taken ▸ .trigStock pc stock
      · rw [if_neg stock] at taken
        push Not at stock
        exact taken ▸ .trigCount pc stock.1 stock.2
  | count =>
      simp only [pc, Option.some.injEq] at taken
      exact taken ▸ .count pc _ rfl
  | xchgArmed =>
      simp only [pc, Option.some.injEq] at taken
      exact taken ▸ .xchgArmed pc _ rfl
  | tryCancel =>
      simp only [pc, Option.some.injEq] at taken
      exact taken ▸ .tryCancel pc
  | cmpxchgArmed =>
      simp only [pc, Option.some.injEq] at taken
      cases held : s.armed (cfg.peer k) with
      | true => exact taken ▸ (by simpa [held] using RxStep.casLost pc held)
      | false => exact taken ▸ (by simpa [held] using RxStep.casWon pc held)
  | startTimer =>
      simp only [pc, Option.some.injEq] at taken
      exact taken ▸ .startTimer pc
  | schedule =>
      simp only [pc, Option.some.injEq] at taken
      exact taken ▸ .schedule pc
  | put =>
      simp only [pc, Option.some.injEq] at taken
      exact taken ▸ .put pc

/-- The transitions of `wg_packet_decrypt_worker` on CPU `c`. -/
inductive WorkerStep (s : State) (c : Cpu) : State → Prop
  | start (pc : (s.worker c).pc = .idle) (queued : (s.worker c).pending = true) :
      WorkerStep s c { s with
        worker := update s.worker c
          { s.worker c with pc := .loop, pending := false } }
  | finish (pc : (s.worker c).pc = .loop) (empty : s.ring = []) :
      WorkerStep s c { s with
        worker := update s.worker c
          { s.worker c with pc := .idle, finished := (s.worker c).finished + 1 } }
  | take (x : Skb) (rest : List Skb) (pc : (s.worker c).pc = .loop)
      (head : s.ring = x :: rest) :
      WorkerStep s c { s with
        ring := rest
        rx := update s.rx x ⟨.decrypt, .uncrypted, .worker c⟩
        worker := update s.worker c { s.worker c with pc := .busy x }
        hist := { s.hist with
          handledBy := update s.hist.handledBy x
            (s.hist.handledBy x ++ [.worker c]) } }
  | back (x : Skb) (pc : (s.worker c).pc = .busy x) (returned : (s.rx x).pc = .done) :
      WorkerStep s c { s with
        worker := update s.worker c { s.worker c with pc := .loop } }

theorem workerStep_cases {c : Cpu} (taken : workerStep s c = some s') :
    WorkerStep s c s' := by
  unfold workerStep at taken
  cases pc : (s.worker c).pc with
  | idle =>
      simp only [pc] at taken
      split at taken <;> simp at taken
      exact taken ▸ .start pc ‹_›
  | loop =>
      cases head : s.ring <;> simp only [pc, head, Option.some.injEq] at taken
      · exact taken ▸ (by simpa [head] using WorkerStep.finish pc head)
      · exact taken ▸ .take _ _ pc head
  | busy x =>
      simp only [pc] at taken
      split at taken <;> simp at taken
      exact taken ▸ .back x pc ‹_›

/-! ## The poll -/

/-- The private steps of the poll of `p`: it goes on to another frame and changes nothing
else but the diagnostic data.  An invariant that does not speak of the poll's frame is kept
by all of them at once. -/
inductive PollMove (cfg : Config) (s : State) (p : Peer) : PollFrame → Prop
  | start (pc : (s.poll p).pc = .idle) (sched : (s.napi p).sched = true) :
      PollMove cfg s p { PollFrame.idle with pc := .entry }
  | readState (site : PeekSite) (x : Skb) (pc : (s.poll p).pc = .readState site x) :
      PollMove cfg s p { s.poll p with pc := afterRead site x (s.state x) }
  | endpoint (x : Skb) (pc : (s.poll p).pc = .endpoint x) :
      PollMove cfg s p
        { s.poll p with pc := if cfg.endpointOk x then .consume x else .keypairPut x }
  | stealEnter (pc : (s.poll p).pc = .stealGate) (on : s.knobs.steal ≠ 0)
      (room : (s.poll p).workDone < cfg.budget) :
      PollMove cfg s p { s.poll p with pc := .stealWhile, pulled := 0 }
  | stealSkip (pc : (s.poll p).pc = .stealGate)
      (off : ¬ (s.knobs.steal ≠ 0 ∧ (s.poll p).workDone < cfg.budget)) :
      PollMove cfg s p { s.poll p with pc := .diagClose }
  | stealMore (pc : (s.poll p).pc = .stealWhile)
      (more : (s.poll p).pulled < s.knobs.steal.toNat) :
      PollMove cfg s p { s.poll p with pc := .peek .stealHead }
  | stealStop (pc : (s.poll p).pc = .stealWhile)
      (enough : ¬ (s.poll p).pulled < s.knobs.steal.toNat) :
      PollMove cfg s p { s.poll p with pc := .stealEnd }
  | stealBack (job : Skb) (pc : (s.poll p).pc = .stealBusy job)
      (returned : (s.rx job).pc = .done) :
      PollMove cfg s p
        { s.poll p with pc := .stealWhile, pulled := (s.poll p).pulled + 1 }
  | stealCheck (pc : (s.poll p).pc = .stealEnd) (pulled : (s.poll p).pulled ≠ 0) :
      PollMove cfg s p { s.poll p with pc := .peek .stealDone }
  | stealNone (pc : (s.poll p).pc = .stealEnd) (pulled : (s.poll p).pulled = 0) :
      PollMove cfg s p { s.poll p with pc := .diagClose }
  | statNone (pc : (s.poll p).pc = .stealStat none) :
      PollMove cfg s p { s.poll p with pc := .diagClose }
  | statSome (x : Skb) (pc : (s.poll p).pc = .stealStat (some x)) :
      PollMove cfg s p { s.poll p with pc := .readState .stealDone x }
  | unblocked (pc : (s.poll p).pc = .stealUnblocked) :
      PollMove cfg s p { s.poll p with pc := .peek .deliver }
  | close (pc : (s.poll p).pc = .diagClose) (room : (s.poll p).workDone < cfg.budget) :
      PollMove cfg s p { s.poll p with pc := .diagGate }
  | exhausted (pc : (s.poll p).pc = .diagClose)
      (spent : ¬ (s.poll p).workDone < cfg.budget) :
      PollMove cfg s p { s.poll p with pc := .idle }
  | diagOn (pc : (s.poll p).pc = .diagGate) (on : s.knobs.diag ≠ 0) :
      PollMove cfg s p { s.poll p with pc := .peek .diag }
  | diagOff (pc : (s.poll p).pc = .diagGate) (off : s.knobs.diag = 0) :
      PollMove cfg s p { s.poll p with pc := .headwakeGate }
  | missNone (pc : (s.poll p).pc = .diagMiss none) :
      PollMove cfg s p
        { s.poll p with pc := .diagClass .empty, miss := (s.napi p).missed }
  | missSome (x : Skb) (pc : (s.poll p).pc = .diagMiss (some x)) :
      PollMove cfg s p
        { s.poll p with pc := .readState .diag x, miss := (s.napi p).missed }
  | classStall (cls : HeadClass) (pc : (s.poll p).pc = .diagClass cls) :
      PollMove cfg s p { s.poll p with pc := .stallFlip cls }
  | classPass (cls : HeadClass) (pc : (s.poll p).pc = .diagClass cls) :
      PollMove cfg s p { s.poll p with pc := .headwakeGate }
  | stallFlip (cls : HeadClass) (pc : (s.poll p).pc = .stallFlip cls) :
      PollMove cfg s p { s.poll p with pc := .stallOpen cls }
  | stallOpen (cls : HeadClass) (pc : (s.poll p).pc = .stallOpen cls) :
      PollMove cfg s p { s.poll p with pc := .headwakeGate }
  | headwakeOn (pc : (s.poll p).pc = .headwakeGate) (on : s.knobs.headwake ≠ 0) :
      PollMove cfg s p { s.poll p with pc := .peek .publish }
  | headwakeOff (pc : (s.poll p).pc = .headwakeGate) (off : s.knobs.headwake = 0) :
      PollMove cfg s p { s.poll p with pc := .suppGate }
  | suppOn (pc : (s.poll p).pc = .suppGate) (on : s.knobs.supp ≠ 0) :
      PollMove cfg s p { s.poll p with pc := .peek .supp }
  | suppOff (pc : (s.poll p).pc = .suppGate) (off : s.knobs.supp = 0) :
      PollMove cfg s p { s.poll p with pc := .complete }
  | suppTest (pc : (s.poll p).pc = .suppTest) :
      PollMove cfg s p { s.poll p with pc := .suppClear, wasSet := (s.napi p).missed }
  | suppCount (pc : (s.poll p).pc = .suppCount) :
      PollMove cfg s p { s.poll p with pc := .complete }

/-- The private steps of a poll, point by point.  The diagnostics are forgotten here. -/
theorem pollControl_cases {p : Peer} {r : PollFrame × DiagStats × PeerStall}
    (taken : pollControl cfg s p = some r) : PollMove cfg s p r.1 := by
  unfold pollControl at taken
  cases pc : (s.poll p).pc with
  | idle =>
      simp only [pc] at taken
      split at taken <;> cases taken
      exact .start pc ‹_›
  | readState site x =>
      simp only [pc] at taken
      cases taken
      exact .readState site x pc
  | endpoint x =>
      simp only [pc] at taken
      cases taken
      exact .endpoint x pc
  | stealGate =>
      simp only [pc] at taken
      split at taken <;> cases taken
      · rename_i on
        exact .stealEnter pc on.1 on.2
      · exact .stealSkip pc ‹_›
  | stealWhile =>
      simp only [pc] at taken
      cases taken
      dsimp only
      split
      · exact .stealMore pc ‹_›
      · exact .stealStop pc ‹_›
  | stealBusy job =>
      simp only [pc] at taken
      split at taken <;> cases taken
      exact .stealBack job pc ‹_›
  | stealEnd =>
      simp only [pc] at taken
      cases taken
      dsimp only
      split
      · exact .stealCheck pc ‹_›
      · exact .stealNone pc (not_not.mp ‹_›)
  | stealStat head =>
      simp only [pc] at taken
      cases head <;> cases taken
      · exact .statNone pc
      · exact .statSome _ pc
  | stealUnblocked =>
      simp only [pc] at taken
      cases taken
      exact .unblocked pc
  | diagClose =>
      simp only [pc] at taken
      split at taken <;> cases taken <;> dsimp only <;> split
      · exact .close pc ‹_›
      · exact .exhausted pc ‹_›
      · exact .close pc ‹_›
      · exact .exhausted pc ‹_›
  | diagGate =>
      simp only [pc] at taken
      cases taken
      dsimp only
      split
      · exact .diagOn pc ‹_›
      · exact .diagOff pc (not_not.mp ‹_›)
  | diagMiss head =>
      simp only [pc] at taken
      cases head <;> cases taken
      · exact .missNone pc
      · exact .missSome _ pc
  | diagClass cls =>
      simp only [pc] at taken
      cases taken
      dsimp only
      split
      · exact .classStall cls pc
      · exact .classPass cls pc
  | stallFlip cls =>
      simp only [pc] at taken
      split at taken <;> cases taken <;> exact .stallFlip cls pc
  | stallOpen cls =>
      simp only [pc] at taken
      cases taken
      exact .stallOpen cls pc
  | headwakeGate =>
      simp only [pc] at taken
      cases taken
      dsimp only
      split
      · exact .headwakeOn pc ‹_›
      · exact .headwakeOff pc (not_not.mp ‹_›)
  | suppGate =>
      simp only [pc] at taken
      cases taken
      dsimp only
      split
      · exact .suppOn pc ‹_›
      · exact .suppOff pc (not_not.mp ‹_›)
  | suppTest =>
      simp only [pc] at taken
      cases taken
      exact .suppTest pc
  | suppCount =>
      simp only [pc] at taken
      cases taken
      exact .suppCount pc
  | _ => simp [pc] at taken

/-- The transitions of the poll of `p`: its private steps, and those that write to shared
memory. -/
inductive PollStep (cfg : Config) (s : State) (p : Peer) : State → Prop
  | control (f : PollFrame) (stats : DiagStats) (stall : PeerStall)
      (own : PollMove cfg s p f) :
      PollStep cfg s p { s with
        poll := update s.poll p f
        stats := stats
        stall := update s.stall p stall }
  | entry (pc : (s.poll p).pc = .entry) :
      PollStep cfg s p { s with
        ready := update s.ready p 0
        poll := update s.poll p { s.poll p with pc := .peek .deliver }
        hist := { s.hist with readyIncs := update s.hist.readyIncs p 0 } }
  | peekMore (site : PeekSite) (pc : (s.poll p).pc = .peek site)
      (running : (s.rxQueue p).peekStep.2 = none) :
      PollStep cfg s p { s with
        rxQueue := update s.rxQueue p (s.rxQueue p).peekStep.1
        poll := update s.poll p { s.poll p with pc := .peek site } }
  | peekDone (site : PeekSite) (head : Option Skb) (pc : (s.poll p).pc = .peek site)
      (returned : (s.rxQueue p).peekStep.2 = some head) :
      PollStep cfg s p { s with
        rxQueue := update s.rxQueue p (s.rxQueue p).peekStep.1
        poll := update s.poll p { s.poll p with pc := afterPeek site head } }
  | drop (x : Skb) (st : PacketState) (pc : (s.poll p).pc = .dropPeeked x st) :
      PollStep cfg s p { s with
        rxQueue := update s.rxQueue p (s.rxQueue p).wgPrevQueueDropPeeked
        poll := update s.poll p
          { s.poll p with pc := if st = .crypted then .validate x else .keypairPut x }
        hist := { s.hist with
          dropped := update s.hist.dropped p (s.hist.dropped p ++ [x])
          obs := s.hist.obs ++ [.drop p x] } }
  | validate (x : Skb) (k : Keypair) (pc : (s.poll p).pc = .validate x)
      (found : s.keypair x = some k) :
      PollStep cfg s p { s with
        counter := update s.counter k ((s.counter k).counterValidate (cfg.nonce x)).1
        poll := update s.poll p
          { s.poll p with
            pc := if ((s.counter k).counterValidate (cfg.nonce x)).2 then .endpoint x
              else .keypairPut x }
        hist := { s.hist with
          validated := update s.hist.validated p (s.hist.validated p ++ [x]) } }
  | consume (x : Skb) (k : Keypair) (pc : (s.poll p).pc = .consume x)
      (found : s.keypair x = some k) :
      PollStep cfg s p { s with
        poll := update s.poll p { s.poll p with pc := .keypairPut x }
        hist := { s.hist with
          consumed := update s.hist.consumed p (s.hist.consumed p ++ [x]) } }
  | consumeRouted (x : Skb) (k : Keypair) (r : Peer) (pc : (s.poll p).pc = .consume x)
      (found : s.keypair x = some k) (counted : s.peerRef r ≠ 0) :
      PollStep cfg s p { s with
        peerRef := update s.peerRef r (s.peerRef r + 1)
        poll := update s.poll p { s.poll p with pc := .routedPut r x }
        hist := { s.hist with
          consumed := update s.hist.consumed p (s.hist.consumed p ++ [x]) } }
  | routedPut (x : Skb) (k : Keypair) (r : Peer) (pc : (s.poll p).pc = .routedPut r x)
      (found : s.keypair x = some k) :
      PollStep cfg s p { s with
        peerRef := update s.peerRef r (s.peerRef r - 1)
        poll := update s.poll p { s.poll p with pc := .keypairPut x } }
  | keypairPut (x : Skb) (k : Keypair) (pc : (s.poll p).pc = .keypairPut x)
      (found : s.keypair x = some k) :
      PollStep cfg s p { s with
        keypairRef := update s.keypairRef k (s.keypairRef k - 1)
        poll := update s.poll p { s.poll p with pc := .peerPut x }
        hist := { s.hist with
          keypairPuts := update s.hist.keypairPuts x (s.hist.keypairPuts x + 1) } }
  | peerPut (x : Skb) (k : Keypair) (pc : (s.poll p).pc = .peerPut x)
      (found : s.keypair x = some k) :
      PollStep cfg s p { s with
        peerRef := update s.peerRef p (s.peerRef p - 1)
        poll := update s.poll p
          { s.poll p with
            pc := if (s.poll p).workDone + 1 < cfg.budget then .peek .deliver
              else .stealGate
            workDone := (s.poll p).workDone + 1 }
        hist := { s.hist with
          peerPuts := update s.hist.peerPuts x (s.hist.peerPuts x + 1) } }
  | stealDry (stats : DiagStats) (pc : (s.poll p).pc = .stealConsume)
      (empty : s.ring = []) :
      PollStep cfg s p { s with
        poll := update s.poll p { s.poll p with pc := .stealEnd }
        stats := stats }
  | stealTake (job : Skb) (rest : List Skb) (pc : (s.poll p).pc = .stealConsume)
      (head : s.ring = job :: rest) :
      PollStep cfg s p { s with
        ring := rest
        rx := update s.rx job ⟨.decrypt, .uncrypted, .poll p⟩
        poll := update s.poll p { s.poll p with pc := .stealBusy job }
        hist := { s.hist with
          handledBy := update s.hist.handledBy job
            (s.hist.handledBy job ++ [.poll p]) } }
  | publishStore (head : Option Skb) (pc : (s.poll p).pc = .publishStore head) :
      PollStep cfg s p { s with
        blockedOn := update s.blockedOn p head
        poll := update s.poll p { s.poll p with pc := .peek .recheck } }
  | recheckSet (pc : (s.poll p).pc = .recheckSet) :
      PollStep cfg s p { s with
        napi := update s.napi p { s.napi p with missed := true }
        poll := update s.poll p { s.poll p with pc := .suppGate } }
  | suppClear (pc : (s.poll p).pc = .suppClear) :
      PollStep cfg s p { s with
        napi := update s.napi p { s.napi p with missed := false }
        poll := update s.poll p { s.poll p with pc := .peek .suppRecheck } }
  | suppSet (stats : DiagStats) (pc : (s.poll p).pc = .suppSet) :
      PollStep cfg s p { s with
        napi := update s.napi p { s.napi p with missed := true }
        poll := update s.poll p { s.poll p with pc := .complete }
        stats := stats }
  | complete (pc : (s.poll p).pc = .complete) :
      PollStep cfg s p { s with
        napi := update s.napi p (s.napi p).completeDone
        poll := update s.poll p { s.poll p with pc := .idle }
        hist := { s.hist with
          obs := s.hist.obs ++ [.complete p (s.poll p).workDone] } }

theorem deliverStep_cases {p : Peer} {x : Skb} {k : Keypair} {routed : Option Peer}
    (pc : (s.poll p).pc = .validate x ∨ (s.poll p).pc = .consume x ∨
      (∃ r, (s.poll p).pc = .routedPut r x) ∨ (s.poll p).pc = .keypairPut x ∨
      (s.poll p).pc = .peerPut x) (found : s.keypair x = some k)
    (taken : deliverStep cfg s p x k routed = some s') : PollStep cfg s p s' := by
  unfold deliverStep at taken
  rcases pc with pc | pc | ⟨r, pc⟩ | pc | pc <;> simp only [pc] at taken
  · cases taken
    exact .validate x k pc found
  · cases routed with
    | none =>
        cases taken
        exact .consume x k pc found
    | some r =>
        by_cases zero : s.peerRef r = 0 <;> simp only [zero, ↓reduceIte] at taken
        · simp at taken
        · cases taken
          exact .consumeRouted x k r pc found zero
  · cases taken
    exact .routedPut x k r pc found
  · cases taken
    exact .keypairPut x k pc found
  · cases taken
    exact .peerPut x k pc found

/-- The steps of a poll: a private one, a peek, a delivery, or an access to shared memory of
its own. -/
theorem pollStep_cases {p : Peer} {routed : Option Peer}
    (taken : pollStep cfg s p routed = some s') : PollStep cfg s p s' := by
  unfold pollStep at taken
  cases pc : (s.poll p).pc with
  | entry =>
      simp only [pc, Option.some.injEq] at taken
      exact taken ▸ .entry pc
  | peek site =>
      simp only [pc, Option.some.injEq] at taken
      cases ret : (s.rxQueue p).peekStep.2 <;> simp only [ret] at taken
      · exact taken ▸ .peekMore site pc ret
      · exact taken ▸ .peekDone site _ pc ret
  | dropPeeked x st =>
      simp only [pc, Option.some.injEq] at taken
      exact taken ▸ .drop x st pc
  | validate x =>
      simp only [pc, Option.bind_eq_some_iff] at taken
      obtain ⟨k, found, taken⟩ := taken
      exact deliverStep_cases (.inl pc) found taken
  | consume x =>
      simp only [pc, Option.bind_eq_some_iff] at taken
      obtain ⟨k, found, taken⟩ := taken
      exact deliverStep_cases (.inr (.inl pc)) found taken
  | routedPut r x =>
      simp only [pc, Option.bind_eq_some_iff] at taken
      obtain ⟨k, found, taken⟩ := taken
      exact deliverStep_cases (.inr (.inr (.inl ⟨r, pc⟩))) found taken
  | keypairPut x =>
      simp only [pc, Option.bind_eq_some_iff] at taken
      obtain ⟨k, found, taken⟩ := taken
      exact deliverStep_cases (.inr (.inr (.inr (.inl pc)))) found taken
  | peerPut x =>
      simp only [pc, Option.bind_eq_some_iff] at taken
      obtain ⟨k, found, taken⟩ := taken
      exact deliverStep_cases (.inr (.inr (.inr (.inr pc)))) found taken
  | stealConsume =>
      cases head : s.ring <;> simp only [pc, head, Option.some.injEq] at taken
      · exact taken ▸ (by simpa [head] using PollStep.stealDry _ pc head)
      · exact taken ▸ .stealTake _ _ pc head
  | publishStore head =>
      simp only [pc, Option.some.injEq] at taken
      exact taken ▸ .publishStore head pc
  | recheckSet =>
      simp only [pc, Option.some.injEq] at taken
      exact taken ▸ .recheckSet pc
  | suppClear =>
      simp only [pc, Option.some.injEq] at taken
      exact taken ▸ .suppClear pc
  | suppSet =>
      simp only [pc, Option.some.injEq] at taken
      exact taken ▸ .suppSet _ pc
  | complete =>
      simp only [pc, Option.some.injEq] at taken
      exact taken ▸ .complete pc
  | _ =>
      simp only [pc, Option.map_eq_some_iff] at taken
      obtain ⟨r, control, rfl⟩ := taken
      exact .control _ _ _ (pollControl_cases control)

/-! ## The timer, the removal of a peer, and the environment -/

/-- The transitions of the coalescing timer of `p`. -/
inductive TimerStep (s : State) (p : Peer) : State → Prop
  | fire (pending : (s.timer p).pending = true) (idle : (s.timer p).cb = .idle) :
      TimerStep s p { s with timer := update s.timer p ⟨false, .clear⟩ }
  | clear (cb : (s.timer p).cb = .clear) :
      TimerStep s p { s with
        armed := update s.armed p false
        timer := update s.timer p { s.timer p with cb := .wake } }
  | wake (cb : (s.timer p).cb = .wake) :
      TimerStep s p { s with
        napi := update s.napi p (s.napi p).schedule
        timer := update s.timer p { s.timer p with cb := .idle }
        hist := { s.hist with obs := s.hist.obs ++ [.schedule p] } }

theorem timerFire_cases {p : Peer} (taken : timerFire s p = some s') :
    TimerStep s p s' := by
  unfold timerFire at taken
  split at taken <;> simp at taken
  rename_i ready
  exact taken ▸ .fire ready.1 ready.2

theorem timerRun_cases {p : Peer} (taken : timerRun s p = some s') :
    TimerStep s p s' := by
  unfold timerRun at taken
  cases cb : (s.timer p).cb <;> simp only [cb] at taken
  · simp at taken
  · cases taken
    exact .clear cb
  · cases taken
    exact .wake cb

/-- The transitions of `wg_peer_remove(p)`. -/
inductive RemoveStep (cfg : Config) (s : State) (p : Peer) : State → Prop
  | makeDead (pc : s.tear p = .live) :
      RemoveStep cfg s p { s with
        tear := update s.tear p .dead
        isDead := update s.isDead p true }
  | synchronize (pc : s.tear p = .dead) :
      RemoveStep cfg s p { s with tear := update s.tear p (.syncing s.nextSkb) }
  | synchronized (n : Skb) (pc : s.tear p = .syncing n)
      (outside : ∀ x < n, (s.prod x).inSection = false) :
      RemoveStep cfg s p { s with tear := update s.tear p .clear }
  | clear (pc : s.tear p = .clear) :
      RemoveStep cfg s p { s with tear := update s.tear p (.flush false) }
  | flush (again : Bool) (pc : s.tear p = .flush again) :
      RemoveStep cfg s p { s with
        tear := update s.tear p (.flushing again fun c => (s.worker c).queued) }
  | flushed (again : Bool) (target : Cpu → ℕ) (pc : s.tear p = .flushing again target)
      (ended : ∀ c < cfg.cpus, target c ≤ (s.worker c).finished) :
      RemoveStep cfg s p { s with
        tear := update s.tear p (if again then .cancelTimer else .flush true) }
  | cancelTimer (pc : s.tear p = .cancelTimer) (idle : (s.timer p).cb = .idle) :
      RemoveStep cfg s p { s with
        tear := update s.tear p .disableNapi
        timer := update s.timer p ⟨false, .idle⟩ }
  | disableNapi (pc : s.tear p = .disableNapi) :
      RemoveStep cfg s p { s with
        tear := update s.tear p .waitNapi
        napi := update s.napi p { s.napi p with disable := true } }
  | disabled (pc : s.tear p = .waitNapi) (stopped : (s.napi p).sched = false) :
      RemoveStep cfg s p { s with tear := update s.tear p .finalPut }
  | finalPut (pc : s.tear p = .finalPut) :
      RemoveStep cfg s p { s with
        tear := update s.tear p .returned
        peerRef := update s.peerRef p (s.peerRef p - 1) }

/-- The steps of `wg_peer_remove`, in its order. -/
theorem removeStep_cases {p : Peer} (taken : removeStep cfg s p = some s') :
    RemoveStep cfg s p s' := by
  unfold removeStep at taken
  cases pc : s.tear p with
  | live =>
      simp only [pc, Option.some.injEq] at taken
      exact taken ▸ .makeDead pc
  | dead =>
      simp only [pc, Option.some.injEq] at taken
      exact taken ▸ .synchronize pc
  | syncing n =>
      simp only [pc] at taken
      split at taken <;> simp at taken
      exact taken ▸ .synchronized n pc ‹_›
  | clear =>
      simp only [pc, Option.some.injEq] at taken
      exact taken ▸ .clear pc
  | flush again =>
      simp only [pc, Option.some.injEq] at taken
      exact taken ▸ .flush again pc
  | flushing again target =>
      simp only [pc] at taken
      split at taken <;> simp only [Option.some.injEq, reduceCtorEq] at taken
      exact taken ▸ .flushed again target pc ‹_›
  | cancelTimer =>
      simp only [pc] at taken
      split at taken <;> simp at taken
      exact taken ▸ .cancelTimer pc ‹_›
  | disableNapi =>
      simp only [pc, Option.some.injEq] at taken
      exact taken ▸ .disableNapi pc
  | waitNapi =>
      simp only [pc] at taken
      split at taken <;> simp at taken
      rename_i stopped
      exact taken ▸ .disabled pc (by simpa using stopped)
  | finalPut =>
      simp only [pc, Option.some.injEq] at taken
      exact taken ▸ .finalPut pc
  | returned => simp [pc] at taken

/-- The transitions of the environment: arrivals, writes to the module
parameters, references of other holders, and time. -/
inductive EnvStep (s : State) : Action → State → Prop
  | receive :
      EnvStep s .receive { s with
        nextSkb := s.nextSkb + 1
        prod := update s.prod s.nextSkb .lookup }
  | setKnobs (knobs : Knobs) : EnvStep s (.setKnobs knobs) { s with knobs := knobs }
  | peerGet (p : Peer) (counted : s.peerRef p ≠ 0) :
      EnvStep s (.peerGet p) { s with
        peerRef := update s.peerRef p (s.peerRef p + 1)
        peerOther := update s.peerOther p (s.peerOther p + 1) }
  | peerPut (p : Peer) (held : s.peerOther p ≠ 0) :
      EnvStep s (.peerPut p) { s with
        peerRef := update s.peerRef p (s.peerRef p - 1)
        peerOther := update s.peerOther p (s.peerOther p - 1) }
  | keypairGet (k : Keypair) (counted : s.keypairRef k ≠ 0) :
      EnvStep s (.keypairGet k) { s with
        keypairRef := update s.keypairRef k (s.keypairRef k + 1)
        keypairOther := update s.keypairOther k (s.keypairOther k + 1) }
  | keypairPut (k : Keypair) (held : s.keypairOther k ≠ 0) :
      EnvStep s (.keypairPut k) { s with
        keypairRef := update s.keypairRef k (s.keypairRef k - 1)
        keypairOther := update s.keypairOther k (s.keypairOther k - 1) }
  | tick (ns : BitVec 64) : EnvStep s (.tick ns) { s with clock := s.clock + ns }

/-- **Every step of the machine is a transition of one of its contexts.**  A step of the
timer is the expiry or a step of the callback. -/
inductive Transition (cfg : Config) (s : State) : Action → State → Prop
  | producer {x : Skb} {found : Option Keypair} {s' : State}
      (move : ProducerStep cfg s x s') : Transition cfg s (.producer x found) s'
  | complete {x : Skb} {expired auth : Bool} {s' : State} (k : Keypair)
      (found : s.keypair x = some k) (move : RxStep cfg s x k s') :
      Transition cfg s (.complete x expired auth) s'
  | worker {c : Cpu} {s' : State} (present : c < cfg.cpus) (move : WorkerStep s c s') :
      Transition cfg s (.worker c) s'
  | poll {p : Peer} {routed : Option Peer} {s' : State} (present : p < cfg.peers)
      (move : PollStep cfg s p s') : Transition cfg s (.poll p routed) s'
  | timer {p : Peer} {a : Action} {s' : State} (is : a = .timerFire p ∨ a = .timerRun p)
      (move : TimerStep s p s') : Transition cfg s a s'
  | remove {p : Peer} {s' : State} (present : p < cfg.peers)
      (move : RemoveStep cfg s p s') : Transition cfg s (.remove p) s'
  | env {a : Action} {s' : State} (move : EnvStep s a s') : Transition cfg s a s'

/-- A step that the machine takes is a transition.  All invariants are proved from this
inversion. -/
theorem step_cases {a : Action} (taken : step cfg s a = some s') :
    Transition cfg s a s' := by
  cases a with
  | receive =>
      cases taken
      exact .env .receive
  | producer x found => exact .producer (producerStep_cases taken)
  | complete x expired auth =>
      simp only [step, completeStep, Option.bind_eq_some_iff] at taken
      obtain ⟨k, found, taken⟩ := taken
      exact .complete k found (rxStep_cases taken)
  | worker c =>
      simp only [step] at taken
      split at taken
      · exact .worker ‹_› (workerStep_cases taken)
      · simp at taken
  | poll p routed =>
      simp only [step] at taken
      split at taken
      · exact .poll ‹_› (pollStep_cases taken)
      · simp at taken
  | timerFire p => exact .timer (.inl rfl) (timerFire_cases taken)
  | timerRun p => exact .timer (.inr rfl) (timerRun_cases taken)
  | remove p =>
      simp only [step] at taken
      split at taken
      · exact .remove ‹_› (removeStep_cases taken)
      · simp at taken
  | setKnobs knobs =>
      cases taken
      exact .env (.setKnobs knobs)
  | peerGet p =>
      simp only [step] at taken
      split at taken <;> simp at taken
      exact taken ▸ .env (.peerGet p ‹_›)
  | peerPut p =>
      simp only [step] at taken
      split at taken <;> simp at taken
      exact taken ▸ .env (.peerPut p ‹_›)
  | keypairGet k =>
      simp only [step] at taken
      split at taken <;> simp at taken
      exact taken ▸ .env (.keypairGet k ‹_›)
  | keypairPut k =>
      simp only [step] at taken
      split at taken <;> simp at taken
      exact taken ▸ .env (.keypairPut k ‹_›)
  | tick ns =>
      cases taken
      exact .env (.tick ns)

/-! ## The relations are exact -/

theorem ProducerStep.taken {x : Skb} (move : ProducerStep cfg s x s') :
    ∃ found, producerStep cfg s x found = some s' := by
  cases move with
  | lookupMiss pc => exact ⟨none, by simp [producerStep, pc, lookupStep]⟩
  | lookupHit k pc counted => exact ⟨some k, by simp [producerStep, pc, lookupStep, counted]⟩
  | keypairNull pc missing => exact ⟨none, by simp [producerStep, pc, missing, State.setProd]⟩
  | errPeerNull pc missing => exact ⟨none, by simp [producerStep, pc, missing, State.setProd]⟩
  | enqClear k q pc found enq taken =>
      exact ⟨none, by simp [producerStep, pc, found, foundStep, enqueueStep, enq, taken]⟩
  | enqXchg k q pc found enq taken =>
      exact ⟨none, by simp [producerStep, pc, found, foundStep, enqueueStep, enq, taken]⟩
  | enqLink k q prev pc found enq taken =>
      exact ⟨none, by simp [producerStep, pc, found, foundStep, enqueueStep, enq, taken]⟩
  | _ => exact ⟨none, by simp [producerStep, foundStep, State.setProd, *]⟩

theorem WorkerStep.taken {c : Cpu} (move : WorkerStep s c s') : workerStep s c = some s' := by
  cases move <;> simp [workerStep, *]

theorem Transition.pollStep {p : Peer} {routed : Option Peer}
    (move : Transition cfg s (.poll p routed) s') : PollStep cfg s p s' := by
  cases move with
  | poll present move => exact move
  | timer is move => simp at is
  | env move => cases move

theorem Transition.removeStep {p : Peer} (move : Transition cfg s (.remove p) s') :
    RemoveStep cfg s p s' := by
  cases move with
  | remove present move => exact move
  | timer is move => simp at is
  | env move => cases move

end WgReceivePath
