import WgReceivePath.Pristine
import WgReceivePath.Occupancy

/-!
# The peek of the diagnostics is observable

With `wg_diag` on, the poll looks at the head of its queue once more after the delivery
loop, to classify it.  `wg_prev_queue_peek` is not a read: it takes the packet off the list
and decrements the queue's count.  A producer that was refused at a full queue may then be
accepted, and the poll completes without having dropped anything.

The pristine poll cannot do that.  It peeks in its delivery loop only, and when every
accepted packet has been announced by `napi_schedule`, hence is decrypted, a packet that it
has taken off the list is dropped before the poll completes (`OffRun.trapped`).  The fork
does it, whatever the configuration (`forkTrace_full`), so that the two machines have the
same traces exactly if `wg_diag` is off (`stock_behaviour_iff`).

## What carries the proof

* That no pristine run has the trace: `AnnouncedOk` counts the calls of `napi_schedule`
  against the accepted packets, so that the trace itself says that all queued packets are
  decrypted (`OffRun.decrypted`).  From the refusal on the queue is full and uncached, or
  the poll is `Committed` to drop what it has cached, and `Trapped` carries this through the
  two observable actions that follow.
* That the fork has it: a run for any configuration and any value of `wg_diag`.  1024
  packets fill the queue while the first one is half-linked and hides the others (`Filling`,
  by induction on their number); the poll parks behind the hidden packet, the link is
  stored, and its diagnostic peek takes the packet off the list.  The run is put together
  from segments, each from a symbolic state (`reach_accept` to `reach_close`).
-/

namespace WgReceivePath

open Function (update update_self update_of_ne)
open Finset (range)

variable {cfg : Config} {s s' : State} {x : Skb} {p : Peer}

/-! ## Every accepted packet is announced once

With all parameters off every stored verdict is followed by one `napi_schedule`.  Counting
them in the trace says which packets are decrypted, without looking at the state. -/

/-- The packet has been accepted into a queue. -/
def ProdPc.accepted : ProdPc → Bool
  | .enqueue => true
  | pc => pc.queued

/-- The completion is past `napi_schedule`. -/
def RxPc.announced : RxPc → Bool
  | .put | .done => true
  | _ => false

/-- One for an accepted packet of `p` that is still to be announced by `napi_schedule`, and
zero for any other. -/
def owedWake (cfg : Config) (keypair : Option Keypair) (prod : ProdPc) (rx : RxPc) (p : Peer) : ℕ :=
  if keypair.map cfg.peer = some p ∧ prod.accepted = true ∧ rx.announced = false then 1 else 0

/-- The calls of `napi_schedule` for `p` and those to come are the accepted packets.  With
all parameters off every completion announces its packet, and once. -/
def AnnouncedOk (cfg : Config) (nextSkb : ℕ) (keypair : Skb → Option Keypair)
    (prod : Skb → ProdPc) (rx : Skb → RxFrame) (obs : List Obs) : Prop :=
  ∀ p, obs.count (.accept p) =
    obs.count (.schedule p) + ∑ x ∈ range nextSkb, owedWake cfg (keypair x) (prod x) (rx x).pc p

/-- `AnnouncedOk` of a state. -/
abbrev Announced (cfg : Config) (s : State) : Prop :=
  AnnouncedOk cfg s.nextSkb s.keypair s.prod s.rx s.hist.obs

/-- One packet changes, together with what is observed. -/
theorem AnnouncedOk.change (h : Announced cfg s) (x : Skb) (keypair : Option Keypair)
    (prod : ProdPc) (rx : RxFrame) (more : List Obs) (born : x < s.nextSkb)
    (balance : ∀ p, more.count (.accept p) + owedWake cfg (s.keypair x) (s.prod x) (s.rx x).pc p =
      more.count (.schedule p) + owedWake cfg keypair prod rx.pc p) :
    AnnouncedOk cfg s.nextSkb (update s.keypair x keypair) (update s.prod x prod)
      (update s.rx x rx) (s.hist.obs ++ more) := by
  intro p
  rw [List.count_append, List.count_append]
  have before : s.hist.obs.count (.accept p) + more.count (.schedule p) =
      s.hist.obs.count (.schedule p) + more.count (.schedule p) +
        ∑ y ∈ range s.nextSkb, owedWake cfg (s.keypair y) (s.prod y) (s.rx y).pc p := by
    rw [h p]
    exact add_right_comm _ _ _
  refine Finset.counter_change (Finset.mem_range.mpr born)
    (fun y ne => by simp only [update_of_ne ne]) before ?_
  · simp only [update_self]
    have here := balance p
    omega

/-- One packet moves on without being accepted or announced. -/
theorem AnnouncedOk.silent (h : Announced cfg s) (x : Skb) (keypair : Option Keypair)
    (prod : ProdPc) (rx : RxFrame) (born : x < s.nextSkb)
    (same : ∀ p, owedWake cfg keypair prod rx.pc p =
      owedWake cfg (s.keypair x) (s.prod x) (s.rx x).pc p) :
    AnnouncedOk cfg s.nextSkb (update s.keypair x keypair) (update s.prod x prod)
      (update s.rx x rx) s.hist.obs := by
  have changed := h.change x keypair prod rx [] born
    (fun p => by rw [same p]; simp)
  simpa only [List.append_nil] using changed

/-- The producer moves on and the packet stays accepted, or stays outside. -/
theorem AnnouncedOk.setProd {prod : ProdPc} (h : Announced cfg s) (x : Skb) (born : x < s.nextSkb)
    (same : prod.accepted = (s.prod x).accepted) :
    AnnouncedOk cfg s.nextSkb s.keypair (update s.prod x prod) s.rx s.hist.obs := by
  have moved := h.silent x (s.keypair x) prod (s.rx x) born
    (fun p => by simp only [owedWake, same])
  simpa using moved

/-- The completion moves on and stays before `napi_schedule`, or after it. -/
theorem AnnouncedOk.setRx {rx : RxFrame} (h : Announced cfg s) (x : Skb) (born : x < s.nextSkb)
    (same : rx.pc.announced = (s.rx x).pc.announced) :
    AnnouncedOk cfg s.nextSkb s.keypair s.prod (update s.rx x rx) s.hist.obs := by
  have moved := h.silent x (s.keypair x) (s.prod x) rx born
    (fun p => by simp only [owedWake, same])
  simpa using moved

/-- The steps of a producer.  Acceptance is one observable action, and from it on the packet
owes a wake. -/
theorem AnnouncedOk.producer (h : Announced cfg s) (life : Life s)
    (move : ProducerStep cfg s x s') : Announced cfg s' := by
  have born : ∀ {pc : ProdPc}, s.prod x = pc → pc ≠ .fresh → x < s.nextSkb :=
    fun pc seen => life.born (pc ▸ seen)
  have unqueued : (s.prod x).produced = false → (s.rx x).pc = .unqueued :=
    (life.packet x).unqueued_of
  -- the packet is not in a queue before, and not after
  have outside : ∀ {pc pc' : ProdPc} (key : Option Keypair), s.prod x = pc → pc ≠ .fresh →
      pc.accepted = false → pc'.accepted = false →
      AnnouncedOk cfg s.nextSkb (update s.keypair x key) (update s.prod x pc') s.rx
        s.hist.obs := by
    intro pc pc' key at' seen before after
    have moved := h.silent x key pc' (s.rx x) (born at' seen)
      (fun p => by simp [owedWake, at', before, after])
    simpa using moved
  cases move with
  | lookupMiss pc => exact outside none pc (by simp) rfl rfl
  | lookupHit k pc counted => exact outside (some k) pc (by simp) rfl rfl
  | reject k pc found full =>
      intro p
      have moved : Announced cfg { s with prod := update s.prod x .errKeypairPut } :=
        h.setProd x (born pc (by simp)) (by rw [pc]; rfl)
      simpa using moved p
  | accept k q pc found room =>
      have before := unqueued (by simp [pc, ProdPc.produced])
      have moved := h.change x (s.keypair x) .enqueue (s.rx x) [.accept (cfg.peer k)]
        (born pc (by simp)) ?_
      · simpa using moved
      · intro p
        by_cases mine : cfg.peer k = p
        · simp [owedWake, pc, found, before, mine, ProdPc.accepted, ProdPc.queued,
            RxPc.announced]
        · simp [owedWake, found, mine]
  | enqClear k q pc found enq taken => exact h
  | enqXchg k q pc found enq taken => exact h
  | produce k c pc found room =>
      have before := unqueued (by simp [pc, ProdPc.produced])
      have moved := h.silent x (s.keypair x) (.queueWork c)
        ⟨.ring, .uncrypted, .producer⟩ (born pc (by simp)) (fun p => by
          simp [owedWake, pc, before, ProdPc.accepted, ProdPc.queued, RxPc.announced])
      simpa using moved
  | ringFull k c pc found full =>
      have before := unqueued (by simp [pc, ProdPc.produced])
      have moved := h.silent x (s.keypair x) .completing
        ⟨.get, .dead, .producer⟩ (born pc (by simp)) (fun p => by
          simp [owedWake, pc, before, ProdPc.accepted, ProdPc.queued, RxPc.announced])
      simpa using moved
  | keypairNull pc missing => exact h.setProd x (born pc (by simp)) (by rw [pc]; rfl)
  | keypairGone k pc found zero => exact h.setProd x (born pc (by simp)) (by rw [pc]; rfl)
  | keypairHit k pc found counted => exact h.setProd x (born pc (by simp)) (by rw [pc]; rfl)
  | peerDead k pc found dead => exact h.setProd x (born pc (by simp)) (by rw [pc]; rfl)
  | peerAlive k pc found alive => exact h.setProd x (born pc (by simp)) (by rw [pc]; rfl)
  | initState k pc found => exact h.setProd x (born pc (by simp)) (by rw [pc]; rfl)
  | enqLink k q prev pc found enq taken =>
      exact h.setProd x (born pc (by simp)) (by rw [pc]; rfl)
  | nextCpu k pc found => exact h.setProd x (born pc (by simp)) (by rw [pc]; rfl)
  | storeCpu k c pc found => exact h.setProd x (born pc (by simp)) (by rw [pc]; rfl)
  | queueWork k c pc found => exact h.setProd x (born pc (by simp)) (by rw [pc]; rfl)
  | completed k pc found returned => exact h.setProd x (born pc (by simp)) (by rw [pc]; rfl)
  | errKeypairPut k pc found => exact h.setProd x (born pc (by simp)) (by rw [pc]; rfl)
  | errPeerPut k pc found => exact h.setProd x (born pc (by simp)) (by rw [pc]; rfl)
  | errPeerNull pc missing => exact h.setProd x (born pc (by simp)) (by rw [pc]; rfl)

/-- A packet whose completion runs has arrived, and is accepted. -/
theorem PacketLife.accepted (life : Life s) (busy : (s.rx x).pc ≠ .unqueued) :
    x < s.nextSkb ∧ (s.prod x).accepted = true := by
  have produced : (s.prod x).produced = true := by
    by_contra early
    exact busy ((life.packet x).unqueued_of (by simpa using early))
  refine ⟨life.born (fun fresh => by simp [fresh, ProdPc.produced] at produced), ?_⟩
  cases pc : s.prod x <;> simp_all [ProdPc.produced, ProdPc.accepted, ProdPc.queued]

/-- The steps of a completion.  Its `napi_schedule` is the wake that the packet owed. -/
theorem AnnouncedOk.complete {k : Keypair} (h : Announced cfg s) (life : Life s)
    (plain : (s.rx x).pc.plain = true) (found : s.keypair x = some k)
    (off : KnobsOff s) (move : RxStep cfg s x k s') : Announced cfg s' := by
  have born : ∀ {pc : RxPc}, (s.rx x).pc = pc → pc ≠ .unqueued →
      x < s.nextSkb ∧ (s.prod x).accepted = true := fun pc busy => life.accepted (pc ▸ busy)
  cases move with
  | decrypt valid st pc verdict => exact h.setRx x (born pc (by simp)).1 (by rw [pc]; rfl)
  | get pc => exact h.setRx x (born pc (by simp)).1 (by rw [pc]; rfl)
  | store pc => exact h.setRx x (born pc (by simp)).1 (by rw [pc]; rfl)
  | gateHead pc on crypted => exact absurd off.headwake on
  | gateStock pc stock => exact h.setRx x (born pc (by simp)).1 (by rw [pc]; rfl)
  | trigStock pc stock => exact h.setRx x (born pc (by simp)).1 (by rw [pc]; rfl)
  | trigCount pc on crypted => exact absurd off.trigK on
  | schedule pc =>
      obtain ⟨arrived, accepted⟩ := born pc (by simp)
      have moved := h.change x (s.keypair x) (s.prod x) { s.rx x with pc := .put }
        [.schedule (cfg.peer k)] arrived ?_
      · simpa using moved
      · intro p
        by_cases mine : cfg.peer k = p
        · simp [owedWake, pc, found, accepted, mine, RxPc.announced]
        · simp [owedWake, found, mine]
  | put pc => exact h.setRx x (born pc (by simp)).1 (by rw [pc]; rfl)
  | _ => simp_all [RxPc.plain]

/-- A packet on the ring is taken over for decryption. -/
theorem AnnouncedOk.take {ctx : Ctx} {rest : List Skb} (h : Announced cfg s) (life : Life s)
    (head : s.ring = x :: rest) :
    AnnouncedOk cfg s.nextSkb s.keypair s.prod (update s.rx x ⟨.decrypt, .uncrypted, ctx⟩)
      s.hist.obs := by
  have pc : (s.rx x).pc = .ring := (life.mem_ring x).mp (by simp [head])
  exact h.setRx x (life.accepted (by simp [pc])).1 (by rw [pc]; rfl)

/-- Nothing of the peer's packets is accepted or announced. -/
theorem AnnouncedOk.append {more : List Obs} (h : Announced cfg s)
    (neither : ∀ p, more.count (.accept p) = 0 ∧ more.count (.schedule p) = 0) :
    AnnouncedOk cfg s.nextSkb s.keypair s.prod s.rx (s.hist.obs ++ more) := by
  intro p
  rw [List.count_append, List.count_append, (neither p).1, (neither p).2]
  exact h p

theorem AnnouncedOk.receive (h : Announced cfg s) :
    AnnouncedOk cfg (s.nextSkb + 1) s.keypair (update s.prod s.nextSkb .lookup) s.rx
      s.hist.obs := by
  intro p
  have others : ∀ y ∈ range s.nextSkb, owedWake cfg (s.keypair y)
      (update s.prod s.nextSkb .lookup y) (s.rx y).pc p =
      owedWake cfg (s.keypair y) (s.prod y) (s.rx y).pc p := by
    intro y mem
    rw [update_of_ne (Finset.mem_range.mp mem).ne]
  rw [Finset.sum_range_succ, Finset.sum_congr rfl others, update_self]
  simpa [owedWake, ProdPc.accepted, ProdPc.queued] using h p

/-- Every step of the fork with all parameters off keeps the balance of acceptances and
announcements. -/
theorem AnnouncedOk.step {a : Action} (h : Announced cfg s) (life : Life s) (run : OffRun cfg s)
    (move : Transition cfg s a s') : Announced cfg s' := by
  cases move with
  | producer move => exact h.producer life move
  | complete k found move => exact h.complete life (run.plain.rx _) found run.off move
  | worker present move =>
      cases move with
      | take x rest pc head => exact h.take life head
      | _ => exact h
  | poll present move =>
      cases move with
      | stealTake job rest pc head => exact h.take life head
      | drop x st pc => exact h.append (by simp)
      | complete pc => exact h.append (by simp)
      | _ => exact h
  | timer is move =>
      have stopped := run.timers.stopped
      cases move <;> simp_all
  | remove present move => cases move <;> exact h
  | env move =>
      cases move with
      | receive => exact h.receive
      | _ => exact h

/-- With all parameters off, what was accepted is announced or still to be. -/
theorem OffRun.announced (run : OffRun cfg s) : Announced cfg s :=
  run.reach.invariant (I := Announced cfg) (fun p => by simp [State.init, History.start])
    fun _ _ _ reach h _ taken =>
      h.step (Reachable.life reach) (Reachable.offRun reach) (step_cases taken)

/-- When as many packets were announced as accepted, all queued packets are decrypted: none
of them owes a wake, and a wake comes after the store of the verdict. -/
theorem OffRun.decrypted (run : OffRun cfg s)
    (all : s.hist.obs.count (.accept p) = s.hist.obs.count (.schedule p))
    (mem : x ∈ s.hist.exchanged p) : s.state x ≠ .uncrypted := by
  have life := Reachable.life run.reach
  obtain ⟨mine, inside⟩ := ((Reachable.queues run.reach).mem p x).mp mem
  have accepted : (s.prod x).accepted = true := by
    rcases inside with queued | ⟨prev, link⟩
    · cases pc : s.prod x <;> simp_all [ProdPc.queued, ProdPc.accepted]
    · have := (((Reachable.queues run.reach).enq p x).mp (by simp [link])).1
      rw [this]
      rfl
  have born : x < s.nextSkb :=
    life.born (fun fresh => by simp [fresh, ProdPc.accepted, ProdPc.queued] at accepted)
  -- every summand is zero
  have none := run.announced p
  rw [all, left_eq_add, Finset.sum_eq_zero_iff] at none
  have announced : (s.rx x).pc.announced = true := by
    by_contra silent
    have := none x (Finset.mem_range.mpr born)
    simp [owedWake, mine, accepted, silent] at this
  have stored : (s.rx x).pc.stored = true := by
    cases pc : (s.rx x).pc <;> simp_all [RxPc.announced, RxPc.stored]
  have packet := life.packet x
  rw [packet.state, if_pos stored]
  exact packet.verdict (RxPc.decided_of_stored stored)

/-! ## The pristine poll drops what it takes

Once all packets of a full queue are decrypted, a poll that has cached one is bound to drop
it: nothing can make the packet undeliverable, and the poll does not complete before. -/

/-- A full queue, as the trace shows it: as many packets accepted as fit, all of them
announced and none dropped. -/
structure FullTrace (p : Peer) (obs : List Obs) : Prop where
  accepts : obs.count (.accept p) = MAX_QUEUED_PACKETS
  schedules : obs.count (.schedule p) = MAX_QUEUED_PACKETS
  drops : obs.filterMap (Obs.dropped? p) = []

/-- The poll has taken a decrypted packet off the list and is about to drop it.  Nothing can
keep it from that: the pristine poll has no test in between. -/
def Committed (s : State) (p : Peer) : Prop :=
  ∃ x, (s.rxQueue p).peeked = some x ∧ s.state x ≠ .uncrypted ∧
    ((s.poll p).pc = .readState .deliver x ∨ ∃ st, (s.poll p).pc = .dropPeeked x st)

/-- What an observable action says about the state it is taken in. -/
def Obs.Enabled (s s' : State) : Obs → Prop
  | .reject p => (s.rxQueue p).count = MAX_QUEUED_PACKETS ∧ s'.rxQueue = s.rxQueue
  | .accept p => (s.rxQueue p).count ≠ MAX_QUEUED_PACKETS
  | .complete p _ => (s.poll p).pc = .complete
  | .drop _ _ | .schedule _ => True

/-- A step is silent, or one observable action.  What is observed is recorded in the
history, one entry at a time. -/
theorem Transition.obs {a : Action} (move : Transition cfg s a s') :
    s'.hist.obs = s.hist.obs ∨
      ∃ o : Obs, s'.hist.obs = s.hist.obs ++ [o] ∧ o.Enabled s s' := by
  cases move with
  | producer move =>
      cases move with
      | reject k pc found full =>
          refine .inr ⟨.reject (cfg.peer k), rfl, ?_, rfl⟩
          unfold PrevQueue.reserve at full
          split at full
          · assumption
          · cases full
      | accept k q pc found room =>
          refine .inr ⟨.accept (cfg.peer k), rfl, fun full => ?_⟩
          simp [PrevQueue.reserve, full] at room
      | _ => exact .inl rfl
  | complete k found move =>
      cases move with
      | schedule pc => exact .inr ⟨.schedule (cfg.peer k), rfl, trivial⟩
      | _ => exact .inl rfl
  | worker present move => cases move <;> exact .inl rfl
  | @poll p _ _ present move =>
      cases move with
      | drop x st pc => exact .inr ⟨.drop p x, rfl, trivial⟩
      | complete pc => exact .inr ⟨.complete p _, rfl, pc⟩
      | _ => exact .inl rfl
  | @timer p _ _ is move =>
      cases move with
      | wake cb => exact .inr ⟨.schedule p, rfl, trivial⟩
      | _ => exact .inl rfl
  | remove present move => cases move <;> exact .inl rfl
  | env move => cases move <;> exact .inl rfl

/-- The cached packet of a queue is one that was exchanged into it. -/
theorem QueueOk.mem_of_peeked (queues : Queues cfg s) (cached : (s.rxQueue p).peeked = some x) :
    x ∈ s.hist.exchanged p := by
  obtain ⟨order, represents⟩ := queues.represents p
  obtain ⟨-, rest, queued⟩ := represents.peeked_eq_some cached
  rw [order, queued]
  simp

/-- A producer does not touch the cache, nor the state of a queued packet.  It enqueues
packets of its own, which are not on the queue yet. -/
theorem ProducerStep.queue_frame {y : Skb} (move : ProducerStep cfg s x s') (queues : Queues cfg s)
    (mem : y ∈ s.hist.exchanged p) :
    (s'.rxQueue p).peeked = (s.rxQueue p).peeked ∧ s'.state y = s.state y ∧
      s'.poll = s.poll := by
  have other : s.prod x = .initState → y ≠ x := by
    rintro pc rfl
    rcases ((queues.mem p y).mp mem).2 with queued | ⟨prev, link⟩
    · simp [pc, ProdPc.queued] at queued
    · have := ((queues.enq p y).mp (by simp [link])).1
      simp [pc] at this
  have cache : ∀ k q, q.peeked = (s.rxQueue (cfg.peer k)).peeked →
      (update s.rxQueue (cfg.peer k) q p).peeked = (s.rxQueue p).peeked := by
    intro k q same
    rcases eq_or_ne p (cfg.peer k) with rfl | ne
    · rw [update_self, same]
    · rw [update_of_ne ne]
  cases move with
  | initState k pc found => exact ⟨rfl, update_of_ne (other pc) _ _, rfl⟩
  | accept k q pc found room => exact ⟨cache k q (PrevQueue.reserve_peeked room).1, rfl, rfl⟩
  | enqClear k q pc found enq taken =>
      exact ⟨cache k q (PrevQueue.enqueueStep_peeked taken).1, rfl, rfl⟩
  | enqXchg k q pc found enq taken =>
      exact ⟨cache k q (PrevQueue.enqueueStep_peeked taken).1, rfl, rfl⟩
  | enqLink k q prev pc found enq taken =>
      exact ⟨cache k q (PrevQueue.enqueueStep_peeked taken).1, rfl, rfl⟩
  | _ => exact ⟨rfl, rfl, rfl⟩

/-- The poll that holds a decrypted packet drops it. -/
theorem Committed.pollStep (h : Committed s p) (move : PollStep cfg s p s') :
    Committed s' p ∨ ∃ x, s'.hist.obs = s.hist.obs ++ [.drop p x] := by
  obtain ⟨x, cached, decrypted, pc | ⟨st, pc⟩⟩ := h
  · cases move with
    | control f stats stall own =>
        left
        cases own with
        | readState site y pc' =>
            rw [pc] at pc'
            cases pc'
            refine ⟨x, cached, decrypted, .inr ⟨s.state x, ?_⟩⟩
            simp [afterRead, decrypted]
        | _ => simp_all
    | _ => simp_all
  · cases move with
    | control f stats stall own => cases own <;> simp_all
    | drop y st' pc' => exact .inr ⟨y, rfl⟩
    | _ => simp_all

/-- A poll that is committed to a drop stays so until it has dropped, whatever the others
do. -/
theorem Committed.step {a : Action} (h : Committed s p) (run : OffRun cfg s)
    (move : Transition cfg s a s') :
    Committed s' p ∨ ∃ x, s'.hist.obs = s.hist.obs ++ [.drop p x] := by
  have queues := Reachable.queues run.reach
  cases move with
  | producer move =>
      obtain ⟨x, cached, decrypted, place⟩ := h
      obtain ⟨same, state, poll⟩ := move.queue_frame queues (queues.mem_of_peeked cached)
      exact .inl ⟨x, by rw [same, cached], by rwa [state], by rwa [poll]⟩
  | @complete y _ _ _ k found move =>
      obtain ⟨x, cached, decrypted, place⟩ := h
      have frame := move.frame
      refine .inl ⟨x, by rw [frame.rxQueue, cached], ?_, by rwa [frame.poll]⟩
      cases move with
      | store pc =>
          rcases eq_or_ne x y with rfl | ne
          · have packet := (Reachable.life run.reach).packet x
            simpa using packet.verdict (by simp [pc, RxPc.decided])
          · simpa [ne] using decrypted
      | _ => exact decrypted
  | worker present move => cases move <;> exact .inl h
  | @poll p' _ _ present move =>
      rcases eq_or_ne p p' with rfl | ne
      · exact h.pollStep move
      · left
        cases move <;> simpa [Committed, ne] using h
  | timer is move => cases move <;> exact .inl h
  | remove present move => cases move <;> exact .inl h
  | env move => cases move <;> exact .inl h

/-- A packet gets into the cache by the delivery loop's peek.  The other peek of the source,
that of the diagnostics, is the one that the pristine poll does not have. -/
theorem uncached_step {a : Action} (free : (s.rxQueue p).peeked = none) (run : OffRun cfg s)
    (move : Transition cfg s a s') :
    (s'.rxQueue p).peeked = none ∨
      ∃ x, (s'.rxQueue p).peeked = some x ∧ (s'.poll p).pc = .readState .deliver x := by
  cases move with
  | @producer y _ _ move =>
      left
      have cache : ∀ k q, q.peeked = (s.rxQueue (cfg.peer k)).peeked →
          (update s.rxQueue (cfg.peer k) q p).peeked = none := by
        intro k q same
        rcases eq_or_ne p (cfg.peer k) with rfl | ne
        · rw [update_self, same, free]
        · rw [update_of_ne ne, free]
      cases move with
      | accept k q pc found room => exact cache k q (PrevQueue.reserve_peeked room).1
      | enqClear k q pc found enq taken => exact cache k q (PrevQueue.enqueueStep_peeked taken).1
      | enqXchg k q pc found enq taken => exact cache k q (PrevQueue.enqueueStep_peeked taken).1
      | enqLink k q prev pc found enq taken =>
          exact cache k q (PrevQueue.enqueueStep_peeked taken).1
      | _ => exact free
  | complete k found move => exact .inl (by rw [move.frame.rxQueue]; exact free)
  | worker present move => cases move <;> exact .inl free
  | @poll p' _ _ present move =>
      rcases eq_or_ne p p' with rfl | ne
      · have plain := run.plain.poll p
        obtain ⟨-, represents⟩ := (Reachable.queues run.reach).represents p
        cases move with
        | peekMore site pc running =>
            left
            simpa [free] using PrevQueue.peekStep_running running
        | peekDone site head pc returned =>
            rw [pc] at plain
            cases head with
            | none =>
                left
                simpa using (PrevQueue.peekStep_null represents returned).1
            | some x =>
                right
                refine ⟨x, by simpa using PrevQueue.peekStep_some returned, ?_⟩
                cases site with
                | deliver => simp [afterPeek]
                | _ => simp [PollPc.plain] at plain
        | drop x st pc =>
            left
            simp [PrevQueue.wgPrevQueueDropPeeked]
        | _ => exact .inl free
      · left
        cases move <;> simpa [ne] using free
  | timer is move => cases move <;> exact .inl free
  | remove present move => cases move <;> exact .inl free
  | env move => cases move <;> exact .inl free

/-- What a refusal at a full queue, followed by an acceptance, commits the poll to.  The
invariant is about one trace `pre` at a time. -/
structure Trapped (pre : List Obs) (p : Peer) (s : State) : Prop where
  refused : s.hist.obs = pre ++ [.reject p] → (s.rxQueue p).peeked = none ∨ Committed s p
  accepted : s.hist.obs = pre ++ [.reject p] ++ [.accept p] → Committed s p
  completed : ∀ n, s.hist.obs ≠ pre ++ [.reject p] ++ [.accept p] ++ [.complete p n]

/-- The step argument of `OffRun.trapped`.  The trap is sprung by the refusal, and the two
actions that the trace has after it would have to come before the drop. -/
theorem Trapped.step {pre : List Obs} {a : Action} (h : Trapped pre p s) (full : FullTrace p pre)
    (run : OffRun cfg s) (run' : OffRun cfg s') (move : Transition cfg s a s') :
    Trapped pre p s' := by
  have occupied := Reachable.occupied run.reach p
  -- a committed poll stays so, unless the packet is seen to be dropped
  have keeps : ∀ {o : List Obs}, Committed s p → s'.hist.obs = s.hist.obs ++ o →
      (∀ x, o ≠ [.drop p x]) → Committed s' p := by
    intro o committed obs other
    rcases committed.step run move with committed | ⟨x, dropped⟩
    · exact committed
    · exact absurd (List.append_cancel_left (obs.symm.trans dropped)) (other x)
  rcases move.obs with silent | ⟨o, visible, enabled⟩
  · -- nothing is observed
    refine ⟨fun obs => ?_, fun obs => ?_, fun n obs => h.completed n (silent ▸ obs)⟩
    · rcases h.refused (silent ▸ obs) with free | committed
      · rcases uncached_step free run move with free | ⟨x, cached, pc⟩
        · exact .inl free
        · refine .inr ⟨x, cached, run'.decrypted (p := p) ?_
            ((Reachable.queues run'.reach).mem_of_peeked cached), .inl pc⟩
          simp [obs, full.accepts, full.schedules]
      · exact .inr (keeps (o := []) committed (by simpa using silent) (by simp))
    · exact keeps (o := []) (h.accepted (silent ▸ obs)) (by simpa using silent) (by simp)
  · -- the last observed action is `o`
    refine ⟨fun obs => ?_, fun obs => ?_, fun n obs => ?_⟩
    · obtain ⟨before, last⟩ := List.append_singleton_inj.mp (visible.symm.trans obs)
      subst last
      obtain ⟨count, same⟩ := enabled
      left
      have all := occupied.occupied
      rw [before, full.accepts, occupied.dropped, before, full.drops, count] at all
      rw [same]
      exact Option.toList_eq_nil_iff.mp (List.eq_nil_of_length_eq_zero (by simpa using all))
    · obtain ⟨before, last⟩ := List.append_singleton_inj.mp (visible.symm.trans obs)
      subst last
      rcases h.refused before with free | committed
      · -- nothing was taken, so the queue is still full
        refine absurd ?_ enabled
        have all := occupied.occupied
        rw [occupied.dropped, before] at all
        have rejected : [Obs.reject p].filterMap (Obs.dropped? p) = [] := rfl
        simpa [free, full.accepts, full.drops, rejected] using all.symm
      · exact keeps committed visible (by simp)
    · obtain ⟨before, last⟩ := List.append_singleton_inj.mp (visible.symm.trans obs)
      subst last
      obtain ⟨x, -, -, pc | ⟨st, pc⟩⟩ := h.accepted before
      · simp [Obs.Enabled, pc] at enabled
      · simp [Obs.Enabled, pc] at enabled

theorem OffRun.trapped {pre : List Obs} (full : FullTrace p pre) (run : OffRun cfg s) :
    Trapped pre p s := by
  refine run.reach.invariant (I := Trapped pre p) ⟨?_, ?_, ?_⟩ fun s a s' reach h guard taken => ?_
  · simp [State.init, History.start]
  · simp [State.init, History.start]
  · simp [State.init, History.start]
  · exact h.step full (Reachable.offRun reach) (Reachable.offRun (.next reach guard taken))
      (step_cases taken)

/-- **The pristine poll does not complete** between an acceptance that followed a refusal
and the drop of the packet that made room for it. -/
theorem not_pristineTrace {pre : List Obs} {n : ℕ} (full : FullTrace p pre) :
    ¬ PristineTrace cfg (pre ++ [.reject p] ++ [.accept p] ++ [.complete p n]) := by
  rw [← forkTrace_iff]
  rintro ⟨s, reach, obs⟩
  exact ((Reachable.offRun reach).trapped full).completed n obs

/-! ## The fork's poll does not

The run is built for an arbitrary configuration, with the queue filled by induction.  Each
segment starts from a state that is known up to the fields it needs, and the segments are
put together by `Reach`. -/

section Run

variable {k : Keypair}

/-- The receive path of keypair `k` and its peer is open: a packet that arrives comes to the
queue. -/
structure Receiving (cfg : Config) (k : Keypair) (s : State) : Prop where
  peer : s.peerRef (cfg.peer k) ≠ 0
  keypair : s.keypairRef k ≠ 0
  alive : s.isDead (cfg.peer k) = false

/-- A packet of keypair `k` has arrived and come to the test of the queue's capacity. -/
def State.accept (cfg : Config) (k : Keypair) (s : State) : State :=
  { s with
    nextSkb := s.nextSkb + 1
    keypair := update s.keypair s.nextSkb (some k)
    peerRef := update s.peerRef (cfg.peer k) (s.peerRef (cfg.peer k) + 1)
    keypairRef := update s.keypairRef k (s.keypairRef k + 1)
    state := update s.state s.nextSkb .uncrypted
    prod := update s.prod s.nextSkb .reserve
    hist := { s.hist with
      peerGets := update s.hist.peerGets s.nextSkb (s.hist.peerGets s.nextSkb + 1)
      keypairGets := update s.hist.keypairGets s.nextSkb
        (s.hist.keypairGets s.nextSkb + 1) } }

theorem reach_accept (receiving : Receiving cfg k s) :
    Machine.Reach (step cfg) Fixed s (s.accept cfg k) := by
  refine Machine.reach_of_foldl
    (.receive :: List.replicate 4 (.producer s.nextSkb (some k))) ?_ ?_
  · simp [Fixed, WritesOnly]
  · simp [List.replicate_succ, step, producerStep, lookupStep, foundStep, State.setProd,
      receiving.peer, receiving.keypair, receiving.alive, State.accept]

/-- Packet `x` has been accepted and exchanged into the queue. -/
def State.insert (cfg : Config) (k : Keypair) (x : Skb) (s : State) : State :=
  let q := s.rxQueue (cfg.peer k)
  { s with
    rxQueue := update s.rxQueue (cfg.peer k)
      { q with
        head := .skb x
        next := update q.next (.skb x) none
        count := q.count + 1
        enq := update q.enq x (.link q.head) }
    prod := update s.prod x .enqueue
    hist := { s.hist with
      exchanged := update s.hist.exchanged (cfg.peer k) (s.hist.exchanged (cfg.peer k) ++ [x])
      obs := s.hist.obs ++ [.accept (cfg.peer k)] } }

theorem reach_insert (pc : s.prod x = .reserve) (found : s.keypair x = some k)
    (room : (s.rxQueue (cfg.peer k)).count ≠ MAX_QUEUED_PACKETS) :
    Machine.Reach (step cfg) Fixed s (s.insert cfg k x) := by
  refine Machine.reach_of_foldl (List.replicate 3 (.producer x none)) ?_ ?_
  · simp [Fixed, WritesOnly]
  · simp [List.replicate_succ, step, producerStep, foundStep, enqueueStep, PrevQueue.reserve,
      PrevQueue.enqueueStep, pc, found, room, State.insert]

/-- Packet `x` has been linked behind `prev`, handed to a work item, decrypted and announced. -/
def State.serve (cfg : Config) (k : Keypair) (x : Skb) (prev : Node Skb) (s : State) : State :=
  let q := s.rxQueue (cfg.peer k)
  let c := wgCpumaskNextOnline cfg.cpus s.lastCpu
  let r := decryptPacket (s.valid k) (s.counter k) false true
  let st := if r.2 then .crypted else .dead
  { s with
    rxQueue := update s.rxQueue (cfg.peer k)
      { q with
        next := update q.next prev (some (.skb x))
        enq := update q.enq x .idle }
    lastCpu := some c
    worker := update s.worker c ⟨.idle, false, (s.worker c).finished + 1⟩
    prod := update s.prod x .done
    valid := update s.valid k r.1
    state := update s.state x st
    rx := update s.rx x ⟨.done, st, .worker c⟩
    napi := update s.napi (cfg.peer k) (s.napi (cfg.peer k)).schedule
    hist := { s.hist with
      handledBy := update s.hist.handledBy x (s.hist.handledBy x ++ [.worker c])
      left := update s.hist.left x (s.hist.left x + if s.state x = .uncrypted then 1 else 0)
      obs := s.hist.obs ++ [.schedule (cfg.peer k)] } }

theorem reach_serve {prev : Node Skb} (off : KnobsOff s) (pc : s.prod x = .enqueue)
    (found : s.keypair x = some k) (link : (s.rxQueue (cfg.peer k)).enq x = .link prev)
    (ring : s.ring = []) (idle : ∀ c, (s.worker c).pc = .idle) :
    Machine.Reach (step cfg) Fixed s (s.serve cfg k x prev) := by
  have present := wgCpumaskNextOnline_lt cfg.cpus_pos s.lastCpu
  generalize place : wgCpumaskNextOnline cfg.cpus s.lastCpu = c at present
  refine Machine.reach_of_foldl
    (List.replicate 5 (.producer x none) ++ List.replicate 2 (.worker c) ++
      List.replicate 7 (.complete x false true) ++ List.replicate 2 (.worker c)) ?_ ?_
  · simp [Fixed, WritesOnly]
  · simp [List.replicate_succ, step, producerStep, foundStep, enqueueStep, State.setProd,
      PrevQueue.enqueueStep, workerStep, completeStep, rxStep, State.setRx, pc, found, link, ring,
      idle, present, place, off.headwake, off.trigK, State.serve, MAX_QUEUED_PACKETS]

/-- A packet has been refused: the queue is full. -/
def State.refuse (cfg : Config) (k : Keypair) (x : Skb) (s : State) : State :=
  { s with
    prod := update s.prod x .errKeypairPut
    hist := { s.hist with obs := s.hist.obs ++ [.reject (cfg.peer k)] } }

theorem reach_refuse (pc : s.prod x = .reserve) (found : s.keypair x = some k)
    (full : (s.rxQueue (cfg.peer k)).count = MAX_QUEUED_PACKETS) :
    Machine.Reach (step cfg) Fixed s (s.refuse cfg k x) := by
  refine Machine.reach_of_foldl ([.producer x none]) ?_ ?_
  · simp [Fixed, WritesOnly]
  · simp [step, producerStep, foundStep, PrevQueue.reserve, pc, found, full, State.refuse]

/-- The poll has found nothing to deliver and comes to the test of `wg_diag`. -/
def State.park (p : Peer) (s : State) : State :=
  { s with
    ready := update s.ready p 0
    poll := update s.poll p { PollFrame.idle with pc := .diagGate }
    hist := { s.hist with readyIncs := update s.hist.readyIncs p 0 } }

theorem reach_park (present : p < cfg.peers) (off : KnobsOff s) (pc : (s.poll p).pc = .idle)
    (sched : (s.napi p).sched = true) (deq : (s.rxQueue p).deq = .idle)
    (free : (s.rxQueue p).peeked = none) (tail : (s.rxQueue p).tail = .stub)
    (next : (s.rxQueue p).next .stub = none) :
    Machine.Reach (step cfg) Fixed s (s.park p) := by
  refine Machine.reach_of_foldl (List.replicate 5 (.poll p none)) ?_ ?_
  · simp [Fixed, WritesOnly]
  · simp [List.replicate_succ, step, present, pollStep, pollControl, PrevQueue.peekStep, afterPeek,
      PollFrame.idle, pc, sched, deq, free, tail, next, off.steal, cfg.budget_pos, State.park]

/-- The diagnostics' peek has taken packet `x`, which `y` follows, off the list. -/
def State.look (p : Peer) (x y : Skb) (s : State) : State :=
  { s with
    rxQueue := update s.rxQueue p
      { s.rxQueue p with
        tail := .skb y
        count := (s.rxQueue p).count - 1
        peeked := some x
        deq := .idle }
    poll := update s.poll p { s.poll p with pc := .diagMiss (some x) } }

theorem reach_look {y : Skb} (present : p < cfg.peers) (diag : s.knobs.diag ≠ 0)
    (pc : (s.poll p).pc = .diagGate) (deq : (s.rxQueue p).deq = .idle)
    (free : (s.rxQueue p).peeked = none) (tail : (s.rxQueue p).tail = .stub)
    (first : (s.rxQueue p).next .stub = some (.skb x))
    (second : (s.rxQueue p).next (.skb x) = some (.skb y)) :
    Machine.Reach (step cfg) Fixed s (s.look p x y) := by
  have diag : s.knobs.diag ≠ 0#64 := diag
  refine Machine.reach_of_foldl (List.replicate 4 (.poll p none)) ?_ ?_
  · simp [Fixed, WritesOnly]
  · simp [List.replicate_succ, step, present, pollStep, pollControl, PrevQueue.peekStep,
      PrevQueue.afterLoad, afterPeek, pc, diag, deq, free, tail, first, second, State.look]

/-- From there the poll completes without dropping the packet. -/
theorem reach_close (present : p < cfg.peers) (off : KnobsOff s)
    (pc : (s.poll p).pc = .diagMiss (some x)) (decrypted : s.state x ≠ .uncrypted) :
    ∃ t, Machine.Reach (step cfg) Fixed s t ∧
      t.hist.obs = s.hist.obs ++ [.complete p (s.poll p).workDone] := by
  refine ⟨{ s with
      napi := update s.napi p (s.napi p).completeDone
      poll := update s.poll p { s.poll p with pc := .idle, miss := (s.napi p).missed }
      stats := s.stats.classify .none (s.napi p).missed
      hist := { s.hist with obs := s.hist.obs ++ [.complete p (s.poll p).workDone] } },
    Machine.reach_of_foldl (List.replicate 6 (.poll p none)) ?_ ?_, rfl⟩
  · simp [Fixed, WritesOnly]
  · simp [List.replicate_succ, step, present, pollStep, pollControl, afterRead, pc, decrypted,
      off.headwake, off.supp]

/-- The packets `0 .. m` of keypair `k` have arrived; packet `0` is half-linked and hides
the others, which are all announced, from the poll.  The fields are what the next segment of
the run needs. -/
structure Filling (cfg : Config) (k : Keypair) (m : ℕ) (s : State) : Prop where
  off : KnobsOff s
  diag : s.knobs.diag ≠ 0
  receiving : Receiving cfg k s
  arrived : s.nextSkb = m + 1
  ring : s.ring = []
  workers : ∀ c, (s.worker c).pc = .idle
  poll : (s.poll (cfg.peer k)).pc = .idle
  enabled : (s.napi (cfg.peer k)).disable = false
  sched : 0 < m → (s.napi (cfg.peer k)).sched = true
  producer : s.prod 0 = .enqueue
  keypair : s.keypair 0 = some k
  head : (s.rxQueue (cfg.peer k)).head = .skb m
  tail : (s.rxQueue (cfg.peer k)).tail = .stub
  first : (s.rxQueue (cfg.peer k)).next .stub = none
  second : 0 < m → (s.rxQueue (cfg.peer k)).next (.skb 0) = some (.skb 1)
  link : (s.rxQueue (cfg.peer k)).enq 0 = .link .stub
  deq : (s.rxQueue (cfg.peer k)).deq = .idle
  free : (s.rxQueue (cfg.peer k)).peeked = none
  count : (s.rxQueue (cfg.peer k)).count = m + 1
  accepts : s.hist.obs.count (.accept (cfg.peer k)) = m + 1
  schedules : s.hist.obs.count (.schedule (cfg.peer k)) = m
  drops : s.hist.obs.filterMap (Obs.dropped? (cfg.peer k)) = []

theorem exists_filling_zero (cfg : Config) (k : Keypair) {diag : BitVec 64} (on : diag ≠ 0) :
    ∃ s, Reachable cfg ⟨0, 0, 0, 0, diag⟩ Fixed s ∧ Filling cfg k 0 s := by
  let start := State.init ⟨0, 0, 0, 0, diag⟩
  have admitted : Machine.Reach (step cfg) Fixed start (start.accept cfg k) :=
    reach_accept ⟨by simp [start, State.init], by simp [start, State.init], rfl⟩
  have inserted : Machine.Reach (step cfg) Fixed (start.accept cfg k)
      ((start.accept cfg k).insert cfg k 0) :=
    reach_insert (by simp [start, State.init, State.accept])
      (by simp [start, State.init, State.accept])
      (by simp [start, State.init, State.accept, PrevQueue.wgPrevQueueInit, MAX_QUEUED_PACKETS])
  refine ⟨_, admitted.trans inserted, ?_⟩
  constructor
  case off => constructor <;> rfl
  case diag => exact on
  case receiving => constructor <;> simp [start, State.init, State.accept, State.insert]
  all_goals simp [start, State.init, State.accept, State.insert, PrevQueue.wgPrevQueueInit,
    History.start, PollFrame.idle, Obs.dropped?]

/-- One more packet is accepted behind the hidden one.  The count goes up, and the poll
still sees nothing. -/
theorem Filling.next {m : ℕ} (h : Filling cfg k m s) (room : m + 1 < MAX_QUEUED_PACKETS) :
    ∃ t, Machine.Reach (step cfg) Fixed s t ∧ Filling cfg k (m + 1) t := by
  have admitted : Machine.Reach (step cfg) Fixed s (s.accept cfg k) := reach_accept h.receiving
  have inserted : Machine.Reach (step cfg) Fixed (s.accept cfg k)
      ((s.accept cfg k).insert cfg k (m + 1)) :=
    reach_insert (by simp [State.accept, h.arrived]) (by simp [State.accept, h.arrived])
      (by simpa [State.accept, h.count] using room.ne)
  have served : Machine.Reach (step cfg) Fixed ((s.accept cfg k).insert cfg k (m + 1))
      (((s.accept cfg k).insert cfg k (m + 1)).serve cfg k (m + 1) (.skb m)) :=
    reach_serve ⟨h.off.trigK, h.off.headwake, h.off.supp, h.off.steal⟩ (by simp [State.insert])
      (by simp [State.insert, State.accept, h.arrived])
      (by simp [State.insert, State.accept, h.head]) h.ring h.workers
  refine ⟨_, (admitted.trans inserted).trans served, ?_⟩
  constructor
  case off => exact ⟨h.off.trigK, h.off.headwake, h.off.supp, h.off.steal⟩
  case diag => exact h.diag
  case receiving =>
    have := h.receiving
    constructor <;> simp [State.serve, State.accept, State.insert, this.alive]
  case workers =>
    intro c
    have := h.workers c
    simp only [State.serve, State.insert, State.accept, Function.update_apply]
    split <;> simp [this]
  case second =>
    rcases Nat.eq_zero_or_pos m with rfl | later
    · simp [State.serve, State.insert, State.accept]
    · have := h.second later
      simp [State.serve, State.insert, State.accept, this, later.ne]
  all_goals simp [State.serve, State.insert, State.accept, Napi.schedule, Obs.dropped?, h.arrived,
    h.ring, h.poll, h.enabled, h.producer, h.keypair, h.tail, h.first, h.link, h.deq, h.free,
    h.count, h.accepts, h.schedules, h.drops]

theorem exists_filling (cfg : Config) (k : Keypair) {diag : BitVec 64} (on : diag ≠ 0) (m : ℕ)
    (room : m < MAX_QUEUED_PACKETS) :
    ∃ s, Reachable cfg ⟨0, 0, 0, 0, diag⟩ Fixed s ∧ Filling cfg k m s := by
  induction m with
  | zero => exact exists_filling_zero cfg k on
  | succ m ih =>
      obtain ⟨s, reach, filling⟩ := ih (Nat.lt_of_succ_lt room)
      obtain ⟨t, run, filled⟩ := filling.next room
      exact ⟨t, reach.trans run, filled⟩

/-- **The fork completes a poll** between an acceptance that followed a refusal and the drop
of the packet that made room for it. -/
theorem forkTrace_full (cfg : Config) (k : Keypair) {diag : BitVec 64} (on : diag ≠ 0) :
    ∃ pre, FullTrace (cfg.peer k) pre ∧ ForkTrace cfg diag
      (pre ++ [.reject (cfg.peer k)] ++ [.accept (cfg.peer k)] ++
        [.complete (cfg.peer k) 0]) := by
  obtain ⟨s, reach, h⟩ := exists_filling cfg k on 1023 (by decide)
  have present := cfg.peer_lt k
  have sched := h.sched (by decide)
  have second := h.second (by decide)
  have off : ∀ {t : State}, t.knobs = s.knobs → KnobsOff t := by
    intro t same
    exact ⟨by rw [same, h.off.trigK], by rw [same, h.off.headwake], by rw [same, h.off.supp],
      by rw [same, h.off.steal]⟩
  -- the poll looks at the queue while packet `0` hides the others, then packet `0` is served
  let parked := s.park (cfg.peer k)
  have park : Machine.Reach (step cfg) Fixed s parked :=
    reach_park present h.off h.poll sched h.deq h.free h.tail h.first
  let served := parked.serve cfg k 0 .stub
  have serve : Machine.Reach (step cfg) Fixed parked served :=
    reach_serve (off rfl) h.producer h.keypair h.link h.ring h.workers
  -- a packet is refused, the diagnostics look, and the next packet is accepted
  let admitted := served.accept cfg k
  have accepting : Machine.Reach (step cfg) Fixed served admitted :=
    reach_accept ⟨h.receiving.peer, h.receiving.keypair, h.receiving.alive⟩
  let refused := admitted.refuse cfg k 1024
  have refuse : Machine.Reach (step cfg) Fixed admitted refused := by
    refine reach_refuse ?_ ?_ ?_
    · simp [admitted, served, parked, State.accept, State.serve, State.park, h.arrived]
    · simp [admitted, served, parked, State.accept, State.serve, State.park, h.arrived]
    · simp [admitted, served, parked, State.accept, State.serve, State.park, h.count,
        MAX_QUEUED_PACKETS]
  let looked := refused.look (cfg.peer k) 0 1
  have look : Machine.Reach (step cfg) Fixed refused looked := by
    refine reach_look present h.diag ?_ ?_ ?_ ?_ ?_ ?_
    all_goals simp [refused, admitted, served, parked, State.refuse, State.accept, State.serve,
      State.park, h.deq, h.free, h.tail, second]
  let again := looked.accept cfg k
  have accepting' : Machine.Reach (step cfg) Fixed looked again := by
    refine reach_accept ⟨?_, ?_, h.receiving.alive⟩
    · simp [looked, refused, admitted, State.look, State.refuse, State.accept]
    · simp [looked, refused, admitted, State.look, State.refuse, State.accept]
  let accepted := again.insert cfg k 1025
  have accept : Machine.Reach (step cfg) Fixed again accepted := by
    refine reach_insert ?_ ?_ ?_
    · simp [again, looked, refused, admitted, served, parked, State.look, State.refuse,
        State.accept, State.serve, State.park, h.arrived]
    · simp [again, looked, refused, admitted, served, parked, State.look, State.refuse,
        State.accept, State.serve, State.park, h.arrived]
    · simp [again, looked, refused, admitted, served, parked, State.look, State.refuse,
        State.accept, State.serve, State.park, h.count, MAX_QUEUED_PACKETS]
  have decrypted : accepted.state 0 ≠ .uncrypted := by
    simp only [accepted, again, looked, refused, admitted, served, parked, State.insert,
      State.look, State.refuse, State.accept, State.serve, State.park, h.arrived]
    rw [update_of_ne (by decide), update_of_ne (by decide), update_self]
    split <;> simp
  obtain ⟨t, close, obs⟩ := reach_close (s := accepted) present (off rfl)
    (by simp [accepted, again, looked, State.insert, State.look, State.accept]) decrypted
  refine ⟨s.hist.obs ++ [.schedule (cfg.peer k)], ⟨?_, ?_, ?_⟩, t, ?_, ?_⟩
  · simp [h.accepts, MAX_QUEUED_PACKETS]
  · simp [h.schedules, MAX_QUEUED_PACKETS]
  · simp [h.drops, Obs.dropped?]
  · exact (((((((reach.trans park).trans serve).trans accepting).trans refuse).trans look).trans
      accepting').trans accept).trans close
  · rw [obs]
    simp [accepted, again, looked, refused, admitted, served, parked, State.insert, State.look,
      State.refuse, State.accept, State.serve, State.park, PollFrame.idle]

end Run

/-! ## Knobs off means stock behaviour exactly without diagnostics -/

/-- **The fork with the other parameters off has the traces of the pristine machine if and
only if `wg_diag` is off**, in every configuration. -/
theorem stock_behaviour_iff (cfg : Config) (diag : BitVec 64) :
    (∀ obs, ForkTrace cfg diag obs ↔ PristineTrace cfg obs) ↔ diag = 0 := by
  constructor
  · intro same
    by_contra on
    obtain ⟨pre, full, trace⟩ := forkTrace_full cfg 0 on
    exact not_pristineTrace full ((same _).mp trace)
  · rintro rfl obs
    exact forkTrace_iff obs

/-- With one peer and `wg_diag` set to one the fork has a trace of its own. -/
theorem diag_changes_behaviour :
    ∃ obs, ForkTrace (smallConfig 1 (by decide)) 1 obs ∧
      ¬ PristineTrace (smallConfig 1 (by decide)) obs := by
  have on : (1 : BitVec 64) ≠ 0 := by decide
  obtain ⟨pre, full, trace⟩ := forkTrace_full (smallConfig 1 (by decide)) 0 on
  exact ⟨_, trace, not_pristineTrace full⟩

end WgReceivePath
