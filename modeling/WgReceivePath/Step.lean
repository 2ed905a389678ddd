import WgReceivePath.State

/-!
# The steps of the fork's receive path

One step is one atomic access to shared memory by one context, with the private control flow
that follows it; a read of a module parameter is a step of its own, since the parameters may
be written at any moment.  `step` is executable: an action that is not enabled returns
`none`, and an interleaving is a list of actions.

What the environment decides comes with the action: the keypair a receiver index is found
under, whether a keypair has expired and whether the authentication tag of a packet is
right, and the peer that a decrypted packet's source address routes to.

## Main definitions

* `producerStep` : `wg_packet_consume_data`, with the enqueue on the peer's queue and the
  choice of a CPU inlined (`lookupStep`, `foundStep`, `enqueueStep`).
* `rxStep` : `decrypt_packet` and `wg_queue_enqueue_per_peer_rx`, which every context runs
  that completes a packet; `workerStep` is the decrypt worker around it.
* `pollStep` : `wg_packet_rx_poll`.  Its control flow, which changes the poll's own frame
  and the diagnostics only, is `pollControl`; what it does with a packet it has dropped from
  the queue is `deliverStep`.
* `timerFire`, `timerRun` : the coalescing timer; `removeStep` : `wg_peer_remove`.

A poll that has used up its budget becomes idle with `SCHED` still set, and its next step is
a new poll.  In dev.c that is `napi_poll`, which puts the instance back on its list; while a
disable is pending it completes the instance instead (`napi_disable_pending`), which is not
modelled: here `napi_disable` waits until the poll completes by itself.
-/

namespace WgReceivePath

open Function (update)

/-! ## Producers: `wg_packet_consume_data` -/

/-- `wg_cpumask_next_online`, on CPUs `0 .. cpus - 1`. -/
def wgCpumaskNextOnline (cpus : ℕ) : Option Cpu → Cpu
  | none => 0
  | some last => if last + 1 < cpus then last + 1 else 0

theorem wgCpumaskNextOnline_lt {cpus : ℕ} (pos : 0 < cpus) (last : Option Cpu) :
    wgCpumaskNextOnline cpus last < cpus := by
  unfold wgCpumaskNextOnline
  split
  · exact pos
  · split
    · assumption
    · exact pos

/-- The producer of `x` goes on to `pc`. -/
def State.setProd (s : State) (x : Skb) (pc : ProdPc) : State :=
  { s with prod := update s.prod x pc }

/-- A memory access of `__wg_prev_queue_enqueue(&peer->rx_queue, x)`; the exchange
on `head` fixes the packet's place in the queue. -/
def enqueueStep (s : State) (x : Skb) (p : Peer) : Option State :=
  match (s.rxQueue p).enq x with
  | .idle => none
  | .clear =>
      ((s.rxQueue p).enqueueStep x).map fun q =>
        { s with rxQueue := update s.rxQueue p q }
  | .xchg =>
      ((s.rxQueue p).enqueueStep x).map fun q =>
        { s with
          rxQueue := update s.rxQueue p q
          hist := { s.hist with
            exchanged := update s.hist.exchanged p (s.hist.exchanged p ++ [x]) } }
  | .link _ =>
      ((s.rxQueue p).enqueueStep x).map fun q =>
        { s with
          rxQueue := update s.rxQueue p q
          prod := update s.prod x .nextCpu }

/-- `wg_packet_consume_data` from `wg_noise_keypair_get` on, for a packet whose lookup found
the keypair `k`: the reference, the test for a dead peer, the enqueue, the choice of a CPU
and the decrypt ring, with the two labels at which the references are put again. -/
def foundStep (cfg : Config) (s : State) (x : Skb) (k : Keypair) : Option State :=
  let p := cfg.peer k
  match s.prod x with
  | .keypairGet =>
      if s.keypairRef k = 0 then some (s.setProd x .errPeerPut)
      else some { s with
        keypairRef := update s.keypairRef k (s.keypairRef k + 1)
        prod := update s.prod x .checkDead
        hist := { s.hist with
          keypairGets := update s.hist.keypairGets x (s.hist.keypairGets x + 1) } }
  | .checkDead => some (s.setProd x (if s.isDead p then .errKeypairPut else .initState))
  | .initState =>
      some { s with
        state := update s.state x .uncrypted
        prod := update s.prod x .reserve }
  | .reserve =>
      match (s.rxQueue p).reserve x with
      | none =>
          some { s with
            prod := update s.prod x .errKeypairPut
            hist := { s.hist with obs := s.hist.obs ++ [.reject p] } }
      | some q =>
          some { s with
            rxQueue := update s.rxQueue p q
            prod := update s.prod x .enqueue
            hist := { s.hist with obs := s.hist.obs ++ [.accept p] } }
  | .enqueue => enqueueStep s x p
  | .nextCpu => some (s.setProd x (.storeCpu (wgCpumaskNextOnline cfg.cpus s.lastCpu)))
  | .storeCpu c =>
      some { s with lastCpu := some c, prod := update s.prod x (.produce c) }
  | .produce c =>
      if s.ring.length < MAX_QUEUED_PACKETS then
        some { s with
          ring := s.ring ++ [x]
          rx := update s.rx x ⟨.ring, .uncrypted, .producer⟩
          prod := update s.prod x (.queueWork c) }
      else
        some { s with
          rx := update s.rx x ⟨.get, .dead, .producer⟩
          prod := update s.prod x .completing
          hist := { s.hist with
            handledBy := update s.hist.handledBy x (s.hist.handledBy x ++ [.producer]) } }
  | .queueWork c =>
      some { s with
        worker := update s.worker c { s.worker c with pending := true }
        prod := update s.prod x .done }
  | .completing => if (s.rx x).pc = .done then some (s.setProd x .done) else none
  | .errKeypairPut =>
      some { s with
        keypairRef := update s.keypairRef k (s.keypairRef k - 1)
        prod := update s.prod x .errPeerPut
        hist := { s.hist with
          keypairPuts := update s.hist.keypairPuts x (s.hist.keypairPuts x + 1) } }
  | .errPeerPut =>
      some { s with
        peerRef := update s.peerRef p (s.peerRef p - 1)
        prod := update s.prod x .freed
        hist := { s.hist with
          peerPuts := update s.hist.peerPuts x (s.hist.peerPuts x + 1) } }
  | .fresh | .lookup | .done | .freed => none

/-- `wg_index_hashtable_lookup` when the index is that of `found`: it returns the
keypair only together with a reference on its peer. -/
def lookupStep (cfg : Config) (s : State) (x : Skb) (found : Option Keypair) : State :=
  match found with
  | none => { s with keypair := update s.keypair x none, prod := update s.prod x .keypairGet }
  | some k =>
      let p := cfg.peer k
      if s.peerRef p = 0 then
        { s with keypair := update s.keypair x none, prod := update s.prod x .keypairGet }
      else
        { s with
          keypair := update s.keypair x (some k)
          peerRef := update s.peerRef p (s.peerRef p + 1)
          prod := update s.prod x .keypairGet
          hist := { s.hist with
            peerGets := update s.hist.peerGets x (s.hist.peerGets x + 1) } }

/-- A step of `wg_packet_consume_data` on packet `x`. -/
def producerStep (cfg : Config) (s : State) (x : Skb) (found : Option Keypair) :
    Option State :=
  match s.prod x with
  | .lookup => some (lookupStep cfg s x found)
  | pc =>
      match s.keypair x with
      | some k => foundStep cfg s x k
      | none =>
          -- no keypair: `err_keypair` with a `NULL` peer
          match pc with
          | .keypairGet => some (s.setProd x .errPeerPut)
          | .errPeerPut => some (s.setProd x .freed)
          | _ => none

/-! ## Completions: `wg_queue_enqueue_per_peer_rx` -/

/-- `decrypt_packet` on a keypair whose `receiving.is_valid` is `valid`: the new value of
that flag, and the result.  A keypair that is too old or whose counter is at its limit is
marked invalid; the tag is looked at only after that. -/
def decryptPacket (valid : Bool) (counter : ReplayCounter) (expired auth : Bool) :
    Bool × Bool :=
  if !valid || expired || REJECT_AFTER_MESSAGES ≤ counter.counter then (false, false)
  else (valid, auth)

/-- The completion frame of `x` goes on to `pc`. -/
def State.setRx (s : State) (x : Skb) (pc : RxPc) : State :=
  { s with rx := update s.rx x { s.rx x with pc := pc } }

/-- The test `atomic_inc_return(&peer->rx_ready) >= (int)wg_trig_k`, on 32-bit integers: the
parameter is cut to 32 bits and both sides are read as signed numbers. -/
def reachesBatch (ready : BitVec 32) (trigK : BitVec 64) : Bool :=
  (trigK.setWidth 32).sle (ready + 1)

/-- A step of the completion of `x`, a packet of keypair `k`: `decrypt_packet` and then
`wg_queue_enqueue_per_peer_rx`.  After the store of the packet's state the wake policy runs:
the head-aware wake, the batching trigger with its timer, or the plain `napi_schedule`. -/
def rxStep (cfg : Config) (s : State) (x : Skb) (k : Keypair) (expired auth : Bool) :
    Option State :=
  let p := cfg.peer k
  let f := s.rx x
  match f.pc with
  | .unqueued | .ring | .done => none
  | .decrypt =>
      let r := decryptPacket (s.valid k) (s.counter k) expired auth
      some { s with
        valid := update s.valid k r.1
        rx := update s.rx x
          { f with pc := .get, st := if r.2 then .crypted else .dead } }
  | .get =>
      some { s with
        peerRef := update s.peerRef p (s.peerRef p + 1)
        rx := update s.rx x { f with pc := .store } }
  | .store =>
      some { s with
        state := update s.state x f.st
        rx := update s.rx x { f with pc := .gate }
        hist := { s.hist with
          left := update s.hist.left x
            (s.hist.left x + if s.state x = .uncrypted then 1 else 0) } }
  | .gate =>
      some (s.setRx x
        (if s.knobs.headwake ≠ 0 ∧ f.st = .crypted then .readBlocked else .trigGate))
  | .readBlocked =>
      -- the pointers are only compared, and addresses may have been reused
      some (s.setRx x
        (match s.blockedOn p with
          | none => .schedule
          | some b => if cfg.addr b = cfg.addr x then .schedule else .put))
  | .trigGate =>
      some (s.setRx x
        (if s.knobs.trigK = 0 ∨ f.st ≠ .crypted then .schedule else .count))
  | .count =>
      some { s with
        ready := update s.ready p (s.ready p + 1)
        rx := update s.rx x
          { f with
            pc := if reachesBatch (s.ready p) s.knobs.trigK then .xchgArmed
              else .cmpxchgArmed }
        hist := { s.hist with
          readyIncs := update s.hist.readyIncs p (s.hist.readyIncs p + 1) } }
  | .xchgArmed =>
      some { s with
        armed := update s.armed p false
        rx := update s.rx x { f with pc := if s.armed p then .tryCancel else .schedule } }
  | .tryCancel =>
      some { s with
        timer := update s.timer p (s.timer p).tryToCancel
        rx := update s.rx x { f with pc := .schedule } }
  | .cmpxchgArmed =>
      some { s with
        armed := update s.armed p true
        rx := update s.rx x { f with pc := if s.armed p then .put else .startTimer } }
  | .startTimer =>
      some { s with
        timer := update s.timer p (s.timer p).start
        rx := update s.rx x { f with pc := .put } }
  | .schedule =>
      some { s with
        napi := update s.napi p (s.napi p).schedule
        rx := update s.rx x { f with pc := .put }
        hist := { s.hist with obs := s.hist.obs ++ [.schedule p] } }
  | .put =>
      some { s with
        peerRef := update s.peerRef p (s.peerRef p - 1)
        rx := update s.rx x { f with pc := .done } }

/-- A step of the completion of packet `x`. -/
def completeStep (cfg : Config) (s : State) (x : Skb) (expired auth : Bool) :
    Option State :=
  (s.keypair x).bind fun k => rxStep cfg s x k expired auth

/-- A step of `wg_packet_decrypt_worker` on CPU `c`. -/
def workerStep (s : State) (c : Cpu) : Option State :=
  let w := s.worker c
  match w.pc with
  | .idle =>
      if w.pending then
        some { s with worker := update s.worker c { w with pc := .loop, pending := false } }
      else none
  | .loop =>
      match s.ring with
      | [] =>
          some { s with
            worker := update s.worker c { w with pc := .idle, finished := w.finished + 1 } }
      | x :: rest =>
          some { s with
            ring := rest
            rx := update s.rx x ⟨.decrypt, .uncrypted, .worker c⟩
            worker := update s.worker c { w with pc := .busy x }
            hist := { s.hist with
              handledBy := update s.hist.handledBy x
                (s.hist.handledBy x ++ [.worker c]) } }
  | .busy x =>
      if (s.rx x).pc = .done then
        some { s with worker := update s.worker c { w with pc := .loop } }
      else none

/-! ## The poll: `wg_packet_rx_poll` -/

/-- What the poll does with the result of a peek. -/
def afterPeek : PeekSite → Option Skb → PollPc
  | .deliver, none => .stealGate
  | .stealHead, none => .stealEnd
  | .stealDone, head => .stealStat head
  | .diag, head => .diagMiss head
  | .publish, head => .publishStore head
  | .recheck, none => .suppGate
  | .supp, none => .complete
  | .suppRecheck, none => .suppCount
  | site, some x => .readState site x

/-- What the poll does with the state of the packet a peek returned. -/
def afterRead (site : PeekSite) (x : Skb) (st : PacketState) : PollPc :=
  match site with
  | .deliver => if st = .uncrypted then .stealGate else .dropPeeked x st
  | .stealHead => if st = .uncrypted then .stealConsume else .stealEnd
  | .stealDone => if st = .uncrypted then .diagClose else .stealUnblocked
  | .diag => .diagClass (if st = .uncrypted then .uncrypted else .none)
  -- no state is read between the two peeks around the publication
  | .publish => .publishStore (some x)
  | .recheck => if st = .uncrypted then .suppGate else .recheckSet
  | .supp => if st = .uncrypted then .suppTest else .complete
  | .suppRecheck => if st = .uncrypted then .suppCount else .suppSet

/-- The steps of the poll that change nothing but its own frame and the diagnostic data:
reads of shared memory and of the module parameters, and the `wg_diag` bookkeeping.  Where
the budget is spent the poll becomes idle and `SCHED` stays, so that it is polled again,
also while a disable is pending. -/
def pollControl (cfg : Config) (s : State) (p : Peer) :
    Option (PollFrame × DiagStats × PeerStall) :=
  let f := s.poll p
  let stats := s.stats
  let stall := s.stall p
  let diag := s.knobs.diag ≠ 0
  match f.pc with
  | .idle =>
      if (s.napi p).sched then some ({ PollFrame.idle with pc := .entry }, stats, stall)
      else none
  | .readState site x => some ({ f with pc := afterRead site x (s.state x) }, stats, stall)
  | .endpoint x =>
      some ({ f with pc := if cfg.endpointOk x then .consume x else .keypairPut x },
        stats, stall)
  | .stealGate =>
      if s.knobs.steal ≠ 0 ∧ f.workDone < cfg.budget then
        some ({ f with pc := .stealWhile, pulled := 0 }, stats, stall)
      else some ({ f with pc := .diagClose }, stats, stall)
  | .stealWhile =>
      some ({ f with
        pc := if f.pulled < s.knobs.steal.toNat then .peek .stealHead else .stealEnd },
        stats, stall)
  | .stealBusy job =>
      if (s.rx job).pc = .done then
        some ({ f with pc := .stealWhile, pulled := f.pulled + 1 }, stats, stall)
      else none
  | .stealEnd =>
      some ({ f with pc := if f.pulled ≠ 0 then .peek .stealDone else .diagClose },
        stats, stall)
  | .stealStat head =>
      some ({ f with
        pc := match head with
          | none => .diagClose
          | some x => .readState .stealDone x },
        if diag then
          { stats with stealPulled := stats.stealPulled + BitVec.ofNat 64 f.pulled }
        else stats, stall)
  | .stealUnblocked =>
      some ({ f with pc := .peek .deliver },
        if diag then { stats with stealUnblocked := stats.stealUnblocked + 1 } else stats,
        stall)
  | .diagClose =>
      let f := { f with pc := if f.workDone < cfg.budget then .diagGate else .idle }
      if diag ∧ 0 < f.workDone ∧ stall.startNs ≠ 0 then
        some (f, wgStallClose s.clock stall stats, .closed)
      else some (f, stats, stall)
  | .diagGate =>
      some ({ f with pc := if diag then .peek .diag else .headwakeGate }, stats, stall)
  | .diagMiss head =>
      some ({ f with
        pc := match head with
          | none => .diagClass .empty
          | some x => .readState .diag x
        miss := (s.napi p).missed }, stats, stall)
  | .diagClass cls =>
      some ({ f with
        pc := if f.workDone = 0 ∧ cls ≠ .none then .stallFlip cls else .headwakeGate },
        stats.classify cls f.miss, stall)
  | .stallFlip cls =>
      if stall.startNs ≠ 0 ∧ stall.cls ≠ cls then
        some ({ f with pc := .stallOpen cls }, wgStallClose s.clock stall stats, .closed)
      else some ({ f with pc := .stallOpen cls }, stats, stall)
  | .stallOpen cls =>
      some ({ f with pc := .headwakeGate }, stats,
        if stall.startNs = 0 then ⟨s.clock, cls⟩ else stall)
  | .headwakeGate =>
      some ({ f with pc := if s.knobs.headwake ≠ 0 then .peek .publish else .suppGate },
        stats, stall)
  | .suppGate =>
      some ({ f with pc := if s.knobs.supp ≠ 0 then .peek .supp else .complete },
        stats, stall)
  | .suppTest =>
      some ({ f with pc := .suppClear, wasSet := (s.napi p).missed }, stats, stall)
  | .suppCount =>
      some ({ f with pc := .complete },
        if diag ∧ f.wasSet then
          { stats with
            suppCleared := stats.suppCleared + 1
            suppResetRace := stats.suppResetRace + if (s.napi p).missed then 1 else 0 }
        else stats, stall)
  | _ => none

/-- The poll of `p` goes on to `pc`. -/
def State.setPoll (s : State) (p : Peer) (pc : PollPc) : State :=
  { s with poll := update s.poll p { s.poll p with pc := pc } }

/-- The poll's handling of a dropped packet `x` of keypair `k`, up to the end of the loop
body: the replay counter, the endpoint, `wg_packet_consume_data_done` with the reference on
the routed peer, and the two references of the packet. -/
def deliverStep (cfg : Config) (s : State) (p : Peer) (x : Skb) (k : Keypair)
    (routed : Option Peer) : Option State :=
  let f := s.poll p
  match f.pc with
  | .validate _ =>
      let r := (s.counter k).counterValidate (cfg.nonce x)
      some { s with
        counter := update s.counter k r.1
        poll := update s.poll p { f with pc := if r.2 then .endpoint x else .keypairPut x }
        hist := { s.hist with
          validated := update s.hist.validated p (s.hist.validated p ++ [x]) } }
  | .consume _ =>
      let hist := { s.hist with
        consumed := update s.hist.consumed p (s.hist.consumed p ++ [x]) }
      match routed with
      | none =>
          some { s with poll := update s.poll p { f with pc := .keypairPut x }, hist := hist }
      | some r =>
          if s.peerRef r = 0 then none
          else some { s with
            peerRef := update s.peerRef r (s.peerRef r + 1)
            poll := update s.poll p { f with pc := .routedPut r x }
            hist := hist }
  | .routedPut r _ =>
      some { s with
        peerRef := update s.peerRef r (s.peerRef r - 1)
        poll := update s.poll p { f with pc := .keypairPut x } }
  | .keypairPut _ =>
      some { s with
        keypairRef := update s.keypairRef k (s.keypairRef k - 1)
        poll := update s.poll p { f with pc := .peerPut x }
        hist := { s.hist with
          keypairPuts := update s.hist.keypairPuts x (s.hist.keypairPuts x + 1) } }
  | .peerPut _ =>
      -- the poll puts its own peer, which is the packet's
      some { s with
        peerRef := update s.peerRef p (s.peerRef p - 1)
        poll := update s.poll p
          { f with
            pc := if f.workDone + 1 < cfg.budget then .peek .deliver else .stealGate
            workDone := f.workDone + 1 }
        hist := { s.hist with
          peerPuts := update s.hist.peerPuts x (s.hist.peerPuts x + 1) } }
  | _ => none

/-- A step of `wg_packet_rx_poll` for peer `p`.  Where nothing shared is written it is a
step of `pollControl`. -/
def pollStep (cfg : Config) (s : State) (p : Peer) (routed : Option Peer) :
    Option State :=
  let f := s.poll p
  match f.pc with
  | .entry =>
      some { s with
        ready := update s.ready p 0
        poll := update s.poll p { f with pc := .peek .deliver }
        hist := { s.hist with readyIncs := update s.hist.readyIncs p 0 } }
  | .peek site =>
      let r := (s.rxQueue p).peekStep
      some { s with
        rxQueue := update s.rxQueue p r.1
        poll := update s.poll p
          { f with
            pc := match r.2 with
              | none => .peek site
              | some head => afterPeek site head } }
  | .dropPeeked x st =>
      some { s with
        rxQueue := update s.rxQueue p (s.rxQueue p).wgPrevQueueDropPeeked
        poll := update s.poll p
          { f with pc := if st = .crypted then .validate x else .keypairPut x }
        hist := { s.hist with
          dropped := update s.hist.dropped p (s.hist.dropped p ++ [x])
          obs := s.hist.obs ++ [.drop p x] } }
  | .validate x | .consume x | .routedPut _ x | .keypairPut x | .peerPut x =>
      (s.keypair x).bind fun k => deliverStep cfg s p x k routed
  | .stealConsume =>
      match s.ring with
      | [] =>
          some { s with
            poll := update s.poll p { f with pc := .stealEnd }
            stats :=
              if s.knobs.diag ≠ 0 ∧ f.pulled = 0 then
                { s.stats with stealDryruns := s.stats.stealDryruns + 1 }
              else s.stats }
      | job :: rest =>
          some { s with
            ring := rest
            rx := update s.rx job ⟨.decrypt, .uncrypted, .poll p⟩
            poll := update s.poll p { f with pc := .stealBusy job }
            hist := { s.hist with
              handledBy := update s.hist.handledBy job
                (s.hist.handledBy job ++ [.poll p]) } }
  | .publishStore head =>
      some { s with
        blockedOn := update s.blockedOn p head
        poll := update s.poll p { f with pc := .peek .recheck } }
  | .recheckSet =>
      some { s with
        napi := update s.napi p { s.napi p with missed := true }
        poll := update s.poll p { f with pc := .suppGate } }
  | .suppClear =>
      some { s with
        napi := update s.napi p { s.napi p with missed := false }
        poll := update s.poll p { f with pc := .peek .suppRecheck } }
  | .suppSet =>
      some { s with
        napi := update s.napi p { s.napi p with missed := true }
        poll := update s.poll p { f with pc := .complete }
        stats :=
          if s.knobs.diag ≠ 0 then
            { s.stats with suppRearmed := s.stats.suppRearmed + 1 }
          else s.stats }
  | .complete =>
      some { s with
        napi := update s.napi p (s.napi p).completeDone
        poll := update s.poll p { f with pc := .idle }
        hist := { s.hist with obs := s.hist.obs ++ [.complete p f.workDone] } }
  | _ =>
      (pollControl cfg s p).map fun r =>
        { s with
          poll := update s.poll p r.1
          stats := r.2.1
          stall := update s.stall p r.2.2 }

/-! ## The timer, the removal of a peer, and the environment -/

/-- The pending timer of `p` expires. -/
def timerFire (s : State) (p : Peer) : Option State :=
  if (s.timer p).pending ∧ (s.timer p).cb = .idle then
    some { s with timer := update s.timer p ⟨false, .clear⟩ }
  else none

/-- A step of the callback `wg_rx_coalesce_timer`. -/
def timerRun (s : State) (p : Peer) : Option State :=
  match (s.timer p).cb with
  | .idle => none
  | .clear =>
      some { s with
        armed := update s.armed p false
        timer := update s.timer p { s.timer p with cb := .wake } }
  | .wake =>
      some { s with
        napi := update s.napi p (s.napi p).schedule
        timer := update s.timer p { s.timer p with cb := .idle }
        hist := { s.hist with obs := s.hist.obs ++ [.schedule p] } }

/-- The producer of a packet is inside its `rcu_read_lock_bh` section. -/
def ProdPc.inSection : ProdPc → Bool
  | .fresh | .errPeerPut | .done | .freed => false
  | _ => true

/-- A step of `wg_peer_remove(p)`.  `synchronize_net`, `flush_workqueue`, `hrtimer_cancel`
and `napi_disable` are steps that are enabled only once what they wait for has come to pass.
-/
def removeStep (cfg : Config) (s : State) (p : Peer) : Option State :=
  let goto := fun pc => { s with tear := update s.tear p pc }
  match s.tear p with
  | .live => some { goto .dead with isDead := update s.isDead p true }
  | .dead => some (goto (.syncing s.nextSkb))
  | .syncing n =>
      if ∀ x < n, (s.prod x).inSection = false then some (goto .clear) else none
  | .clear => some (goto (.flush false))
  | .flush again => some (goto (.flushing again fun c => (s.worker c).queued))
  | .flushing again target =>
      if ∀ c < cfg.cpus, target c ≤ (s.worker c).finished then
        some (goto (if again then .cancelTimer else .flush true))
      else none
  | .cancelTimer =>
      if (s.timer p).cb = .idle then
        some { goto .disableNapi with timer := update s.timer p ⟨false, .idle⟩ }
      else none
  | .disableNapi =>
      some { goto .waitNapi with napi := update s.napi p { s.napi p with disable := true } }
  | .waitNapi => if (s.napi p).sched then none else some (goto .finalPut)
  | .finalPut =>
      some { goto .returned with peerRef := update s.peerRef p (s.peerRef p - 1) }
  | .returned => none

/-- The actions of a run: which context takes the next step, and what the environment
decides for it. -/
inductive Action where
  /-- a data packet arrives and its receive section begins -/
  | receive
  /-- a step of the producer; `found` is the keypair of its receiver index -/
  | producer (x : Skb) (found : Option Keypair)
  /-- a step of the completion; the flags are what `decrypt_packet` finds out -/
  | complete (x : Skb) (expired auth : Bool)
  | worker (c : Cpu)
  /-- a step of the poll; `routed` is what `wg_allowedips_lookup_src` finds -/
  | poll (p : Peer) (routed : Option Peer)
  | timerFire (p : Peer)
  | timerRun (p : Peer)
  | remove (p : Peer)
  /-- the module parameters are written -/
  | setKnobs (knobs : Knobs)
  /-- a reference outside the data receive path is taken or dropped -/
  | peerGet (p : Peer)
  | peerPut (p : Peer)
  | keypairGet (k : Keypair)
  | keypairPut (k : Keypair)
  /-- time passes -/
  | tick (ns : BitVec 64)
  deriving DecidableEq, Repr

/-- **The receive machine of the fork.**  Every interleaving of the contexts, at the
granularity of single accesses, is a sequence of these steps; contexts exist for the CPUs
and peers of the configuration only. -/
def step (cfg : Config) (s : State) : Action → Option State
  | .receive =>
      some { s with nextSkb := s.nextSkb + 1, prod := update s.prod s.nextSkb .lookup }
  | .producer x found => producerStep cfg s x found
  | .complete x expired auth => completeStep cfg s x expired auth
  | .worker c => if c < cfg.cpus then workerStep s c else none
  | .poll p routed => if p < cfg.peers then pollStep cfg s p routed else none
  | .timerFire p => timerFire s p
  | .timerRun p => timerRun s p
  | .remove p => if p < cfg.peers then removeStep cfg s p else none
  | .setKnobs knobs => some { s with knobs := knobs }
  | .peerGet p =>
      if s.peerRef p = 0 then none
      else some { s with
        peerRef := update s.peerRef p (s.peerRef p + 1)
        peerOther := update s.peerOther p (s.peerOther p + 1) }
  | .peerPut p =>
      if s.peerOther p = 0 then none
      else some { s with
        peerRef := update s.peerRef p (s.peerRef p - 1)
        peerOther := update s.peerOther p (s.peerOther p - 1) }
  | .keypairGet k =>
      if s.keypairRef k = 0 then none
      else some { s with
        keypairRef := update s.keypairRef k (s.keypairRef k + 1)
        keypairOther := update s.keypairOther k (s.keypairOther k + 1) }
  | .keypairPut k =>
      if s.keypairOther k = 0 then none
      else some { s with
        keypairRef := update s.keypairRef k (s.keypairRef k - 1)
        keypairOther := update s.keypairOther k (s.keypairOther k - 1) }
  | .tick ns => some { s with clock := s.clock + ns }

/-! ## Concrete runs -/

/-- A configuration to run: two CPUs, `peers` peers, and keypair `k` belongs to peer `k %
peers`.  It is executable, so that a concrete run is decided by evaluation. -/
def smallConfig (peers : ℕ) (pos : 0 < peers) : Config where
  peers := peers
  cpus := 2
  budget := 64
  peer := fun k => k % peers
  addr := fun x => x
  nonce := fun x => BitVec.ofNat 64 x
  endpointOk := fun _ => true
  peer_lt := fun k => Nat.mod_lt k pos
  cpus_pos := by decide
  budget_pos := by decide

/-- Packet `x` of keypair `k` arrives and its producer runs to the end. -/
def arrive (x : Skb) (k : Keypair) : List Action :=
  .receive :: List.replicate 12 (.producer x (some k))

/-- `n` steps of the completion of `x`, which decrypts to a good packet. -/
def completes (x : Skb) (n : ℕ) : List Action := List.replicate n (.complete x false true)

/-- `n` steps of the work item of CPU `c`. -/
def works (c : Cpu) (n : ℕ) : List Action := List.replicate n (.worker c)

/-- `n` steps of the poll of `p`. -/
def polls (p : Peer) (n : ℕ) : List Action := List.replicate n (.poll p none)

end WgReceivePath
