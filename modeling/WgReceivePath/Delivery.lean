import WgReceivePath.QueueOrder

/-!
# What the poll hands on

A packet that the poll has dropped from the queue goes to `counter_validate` if its verdict
is `CRYPTED`, and to `wg_packet_consume_data_done` if its nonce is fresh and its endpoint
can be read.

## Main result

`in_order_exactly_once` : in every run, each packet of a peer's queue is taken over by at
most one context and leaves `UNCRYPTED` at most once (exactly once if the run comes to
rest), and the poll drops packets in the order in which they were enqueued.  Two runs that
enqueue the same packets with the same verdicts hand the same packets on in the same order,
whatever their module parameters and schedules are.

## What carries the proof

`DeliveryOk` relates the three histories of a peer: what was validated is the `CRYPTED` part
of what was dropped, and what was consumed is a function (`replay`) of what was validated,
since the replay counters of a peer's keypairs are touched by that peer's poll alone.  The
packet that the poll is just handling is in between, and the invariant counts it on the side
where it belongs (`PollPc.validating`, `PollPc.consuming`).  The order of delivery therefore
depends on the order of the exchanges on `queue->head` and on the verdicts only; with
`QueueOk.order` the first is the order of the enqueues.
-/

namespace WgReceivePath

open Function (update update_self update_of_ne)

variable {cfg : Config} {s s' : State} {x : Skb} {p : Peer}

/-! ## The replay filter as a function of the validated packets

A peer's keypairs are validated against by its poll alone.  So what the filter answers for a
packet is a function of the packets validated before it, and not of the schedule. -/

/-- One packet through `counter_validate` and `wg_socket_endpoint_from_skb`: the replay
counters, and the packets that went on.  It is the loop body of the poll without the machine
around it. -/
def replayStep (cfg : Config) (keypair : Skb → Option Keypair)
    (acc : (Keypair → ReplayCounter) × List Skb) (x : Skb) :
    (Keypair → ReplayCounter) × List Skb :=
  match keypair x with
  | none => acc
  | some k =>
      let r := (acc.1 k).counterValidate (cfg.nonce x)
      (update acc.1 k r.1, if r.2 && cfg.endpointOk x then acc.2 ++ [x] else acc.2)

/-- A list of packets through the replay filter, from zeroed counters.  It is a function of
the packets, their keypairs and the configuration, and of nothing else that happens in a
run. -/
def replay (cfg : Config) (keypair : Skb → Option Keypair) (xs : List Skb) :
    (Keypair → ReplayCounter) × List Skb :=
  xs.foldl (replayStep cfg keypair) (fun _ => .zero, [])

theorem replay_concat (keypair : Skb → Option Keypair) (xs : List Skb) (x : Skb) :
    replay cfg keypair (xs ++ [x]) = replayStep cfg keypair (replay cfg keypair xs) x := by
  simp [replay]

theorem replay_congr {keypair keypair' : Skb → Option Keypair} {xs : List Skb}
    (same : ∀ x ∈ xs, keypair' x = keypair x) :
    replay cfg keypair' xs = replay cfg keypair xs := by
  unfold replay
  refine List.foldl_ext _ _ _ fun acc x mem => ?_
  simp only [replayStep, same x mem]

/-! ## The invariant

The packet in the hands of the poll is dropped, perhaps validated, and not yet consumed.  It
is accounted for by the program point, so that the three histories agree at every step. -/

/-- The packet dropped but not yet validated. -/
def PollPc.validating : PollPc → List Skb
  | .validate x => [x]
  | _ => []

/-- The packet validated but not yet consumed, if it will be. -/
def PollPc.consuming (cfg : Config) : PollPc → List Skb
  | .endpoint x => if cfg.endpointOk x then [x] else []
  | .consume x => [x]
  | _ => []

/-- How a peer's deliveries fit together.  The verdict that the poll has read is the stored
one, the packets dropped are decided, and the three histories are functions of one another
up to the packet in the poll's hands. -/
structure DeliveryOk (cfg : Config) (p : Peer) (rx : Skb → RxFrame)
    (keypair : Skb → Option Keypair) (counter : Keypair → ReplayCounter)
    (frame : PollFrame) (dropped validated consumed : List Skb) : Prop where
  verdict : ∀ x st, frame.pc = .dropPeeked x st → (rx x).pc.stored = true ∧ (rx x).st = st
  stored : ∀ x ∈ dropped, (rx x).pc.stored = true
  validated_eq : validated ++ frame.pc.validating =
    dropped.filter fun x => (rx x).st = .crypted
  counter_eq : ∀ k, cfg.peer k = p → counter k = (replay cfg keypair validated).1 k
  consumed_eq : consumed ++ frame.pc.consuming cfg = (replay cfg keypair validated).2

/-- `DeliveryOk` of every peer. -/
abbrev Deliveries (cfg : Config) (s : State) : Prop :=
  ∀ p, DeliveryOk cfg p s.rx s.keypair s.counter (s.poll p) (s.hist.dropped p)
    (s.hist.validated p) (s.hist.consumed p)

section Peer

variable {rx rx' : Skb → RxFrame} {keypair : Skb → Option Keypair}
  {counter : Keypair → ReplayCounter} {frame frame' : PollFrame}
  {dropped validated consumed : List Skb}

theorem DeliveryOk.mem_dropped (h : DeliveryOk cfg p rx keypair counter frame dropped
    validated consumed) (mem : x ∈ validated ++ frame.pc.validating) : x ∈ dropped := by
  rw [h.validated_eq] at mem
  exact List.mem_of_mem_filter mem

/-- Completions go on: what is stored stays. -/
theorem DeliveryOk.setRx (h : DeliveryOk cfg p rx keypair counter frame dropped validated
    consumed)
    (stays : ∀ y, (rx y).pc.stored = true → (rx' y).pc.stored = true ∧ (rx' y).st = (rx y).st) :
    DeliveryOk cfg p rx' keypair counter frame dropped validated consumed := by
  refine ⟨fun y st pc => ?_, fun y mem => (stays y (h.stored y mem)).1, ?_, h.counter_eq,
    h.consumed_eq⟩
  · obtain ⟨stored, verdict⟩ := h.verdict y st pc
    exact ⟨(stays y stored).1, (stays y stored).2.trans verdict⟩
  · rw [h.validated_eq]
    refine List.filter_congr fun y mem => ?_
    rw [(stays y (h.stored y mem)).2]

/-- Other packets are looked up, and other peers' polls validate: a peer's deliveries depend
on the keypairs of its own packets and on the counters of its own keypairs. -/
theorem DeliveryOk.setOthers (h : DeliveryOk cfg p rx keypair counter frame dropped validated
    consumed) (keypair' : Skb → Option Keypair) (counter' : Keypair → ReplayCounter)
    (key : ∀ y ∈ dropped, keypair' y = keypair y)
    (own : ∀ k, cfg.peer k = p → counter' k = counter k) :
    DeliveryOk cfg p rx keypair' counter' frame dropped validated consumed := by
  have same : replay cfg keypair' validated = replay cfg keypair validated :=
    replay_congr fun y mem => key y (h.mem_dropped (List.mem_append_left _ mem))
  refine ⟨h.verdict, h.stored, h.validated_eq, fun k peer => ?_, ?_⟩
  · rw [own k peer, same]
    exact h.counter_eq k peer
  · rw [same]
    exact h.consumed_eq

/-- The poll moves on between points where it has no dropped packet in hand. -/
theorem DeliveryOk.setFrame (h : DeliveryOk cfg p rx keypair counter frame dropped validated
    consumed)
    (verdict : ∀ x st, frame'.pc = .dropPeeked x st →
      (rx x).pc.stored = true ∧ (rx x).st = st)
    (validating : frame'.pc.validating = frame.pc.validating)
    (consuming : frame'.pc.consuming cfg = frame.pc.consuming cfg) :
    DeliveryOk cfg p rx keypair counter frame' dropped validated consumed :=
  ⟨verdict, h.stored, validating ▸ h.validated_eq, h.counter_eq, consuming ▸ h.consumed_eq⟩

/-- The poll drops the packet in its hands.  From here on the program point accounts for the
packet: it is dropped, and neither validated nor consumed. -/
theorem DeliveryOk.drop {st : PacketState} (h : DeliveryOk cfg p rx keypair counter frame
    dropped validated consumed) (pc : frame.pc = .dropPeeked x st) :
    DeliveryOk cfg p rx keypair counter
      { frame with pc := if st = .crypted then .validate x else .keypairPut x }
      (dropped ++ [x]) validated consumed := by
  obtain ⟨stored, verdict⟩ := h.verdict x st pc
  have before : validated = dropped.filter fun x => (rx x).st = .crypted := by
    simpa [pc, PollPc.validating] using h.validated_eq
  refine ⟨?_, ?_, ?_, h.counter_eq, ?_⟩
  · intro y st'
    dsimp only
    split <;> simp
  · intro y mem
    rcases List.mem_append.mp mem with old | new
    · exact h.stored y old
    · rw [List.mem_singleton.mp new]
      exact stored
  · rw [List.filter_append, ← before]
    dsimp only
    split <;> simp_all [PollPc.validating]
  · have := h.consumed_eq
    simp only [pc, PollPc.consuming] at this
    rw [← this]
    dsimp only
    split <;> rfl

/-- The dropped packet goes through `counter_validate`.  The counter of its keypair is the
one that the filter has reached on the packets validated so far, and goes on by one step. -/
theorem DeliveryOk.validate {k : Keypair} (h : DeliveryOk cfg p rx keypair counter frame
    dropped validated consumed) (pc : frame.pc = .validate x) (found : keypair x = some k)
    (own : cfg.peer k = p) :
    DeliveryOk cfg p rx keypair
      (update counter k ((counter k).counterValidate (cfg.nonce x)).1)
      { frame with
        pc := if ((counter k).counterValidate (cfg.nonce x)).2 then .endpoint x
          else .keypairPut x }
      dropped (validated ++ [x]) consumed := by
  have before : consumed = (replay cfg keypair validated).2 := by
    simpa [pc, PollPc.consuming] using h.consumed_eq
  refine ⟨?_, h.stored, ?_, fun k' peer => ?_, ?_⟩
  · intro y st
    dsimp only
    split <;> simp
  · have := h.validated_eq
    simp only [pc, PollPc.validating] at this
    rw [← this]
    dsimp only
    split <;> simp [PollPc.validating]
  · rw [replay_concat, replayStep, found, h.counter_eq k own]
    rcases eq_or_ne k' k with rfl | ne
    · simp
    · simpa [ne] using h.counter_eq k' peer
  · rw [replay_concat, replayStep, found, ← before]
    dsimp only
    rw [← h.counter_eq k own]
    cases fresh : ((counter k).counterValidate (cfg.nonce x)).2 <;>
      cases read : cfg.endpointOk x <;> simp [PollPc.consuming, read]

/-- The validated packet is handed to `wg_packet_consume_data_done`. -/
theorem DeliveryOk.consume {pc' : PollPc} (h : DeliveryOk cfg p rx keypair counter frame
    dropped validated consumed) (pc : frame.pc = .consume x)
    (after : pc' = .keypairPut x ∨ ∃ r, pc' = .routedPut r x) :
    DeliveryOk cfg p rx keypair counter { frame with pc := pc' } dropped validated
      (consumed ++ [x]) := by
  have checked := h.validated_eq
  have handed := h.consumed_eq
  simp only [pc, PollPc.validating, PollPc.consuming] at checked handed
  rcases after with rfl | ⟨r, rfl⟩
  · exact ⟨by simp, h.stored, checked, h.counter_eq, by simpa [PollPc.consuming] using handed⟩
  · exact ⟨by simp, h.stored, checked, h.counter_eq, by simpa [PollPc.consuming] using handed⟩

end Peer

/-! ## The invariant along runs

All steps but those of the peer's own poll leave its histories alone; what they can change
is the verdict of a packet, and a verdict is stored before the packet can be dropped. -/

/-- The completion of a packet keeps what is stored. -/
theorem RxMove.stays (move : RxMove s x s') (y : Skb) (stored : (s.rx y).pc.stored = true) :
    (s'.rx y).pc.stored = true ∧ (s'.rx y).st = (s.rx y).st := by
  rcases eq_or_ne y x with rfl | ne
  · cases move with
    | decide st pc verdict rx state left => simp [pc, RxPc.stored] at stored
    | get pc rx state left => simp [pc, RxPc.stored] at stored
    | store pc rx state left => simp [pc, RxPc.stored] at stored
    | wake pc' before after rx state left => simpa [rx] using after
  · cases move with
    | decide st pc verdict rx state left => simpa [rx, ne] using stored
    | get pc rx state left => simpa [rx, ne] using stored
    | store pc rx state left => simpa [rx, ne] using stored
    | wake pc' before after rx state left => simpa [rx, ne] using stored

/-- A packet that gets its first completion frame was not stored before. -/
theorem stays_of_fresh {f : RxFrame} {rx : Skb → RxFrame} (fresh : (rx x).pc.stored = false)
    (y : Skb) (stored : (rx y).pc.stored = true) :
    (update rx x f y).pc.stored = true ∧ (update rx x f y).st = (rx y).st := by
  have ne : y ≠ x := by
    rintro rfl
    simp [fresh] at stored
  simpa [ne] using stored

/-- The private steps of the poll: the verdict it read is stored, and no dropped
packet is skipped. -/
theorem PollMove.delivery {f : PollFrame} (own : PollMove cfg s p f) (life : Life s) :
    (∀ x st, f.pc = .dropPeeked x st → (s.rx x).pc.stored = true ∧ (s.rx x).st = st) ∧
      f.pc.validating = (s.poll p).pc.validating ∧
      f.pc.consuming cfg = (s.poll p).pc.consuming cfg := by
  cases own with
  | readState site y pc =>
      have state := (life.packet y).state
      cases site <;> simp only [afterRead, pc] <;> (try split) <;>
        simp_all [PollPc.validating, PollPc.consuming]
  | endpoint y pc =>
      cases read : cfg.endpointOk y <;> simp [PollPc.validating, PollPc.consuming, read, pc]
  | _ => simp_all [PollPc.validating, PollPc.consuming]

theorem Deliveries.other (h : Deliveries cfg s) {q : Peer} {f : PollFrame} (ne : q ≠ p) :
    DeliveryOk cfg q s.rx s.keypair s.counter (update s.poll p f q) (s.hist.dropped q)
      (s.hist.validated q) (s.hist.consumed q) := by
  simpa only [update_of_ne ne] using h q

/-- The poll moves on, with no effect on the histories. -/
theorem Deliveries.setPoll (h : Deliveries cfg s) (f : PollFrame)
    (verdict : ∀ x st, f.pc = .dropPeeked x st → (s.rx x).pc.stored = true ∧ (s.rx x).st = st)
    (validating : f.pc.validating = (s.poll p).pc.validating)
    (consuming : f.pc.consuming cfg = (s.poll p).pc.consuming cfg) (q : Peer) :
    DeliveryOk cfg q s.rx s.keypair s.counter (update s.poll p f q) (s.hist.dropped q)
      (s.hist.validated q) (s.hist.consumed q) := by
  rcases eq_or_ne q p with rfl | ne
  · simpa only [update_self] using (h q).setFrame verdict validating consuming
  · exact Deliveries.other h ne

theorem afterPeek_delivery (cfg : Config) (site : PeekSite) (head : Option Skb) :
    (∀ x st, afterPeek site head ≠ .dropPeeked x st) ∧
      (afterPeek site head).validating = [] ∧ (afterPeek site head).consuming cfg = [] := by
  cases site <;> cases head <;> simp [afterPeek, PollPc.validating, PollPc.consuming]

/-- The steps of a poll, for the histories of every peer.  Those of the other peers are
untouched; for its own peer a drop, a validation and a delivery are the three steps that
count. -/
theorem Deliveries.pollStep (h : Deliveries cfg s) (life : Life s) (queues : Queues cfg s)
    (move : PollStep cfg s p s') : Deliveries cfg s' := by
  have free : ∀ {pc : PollPc}, (s.poll p).pc = pc → pc.validating = [] →
      pc.consuming cfg = [] → ∀ f : PollFrame, (∀ x st, f.pc ≠ .dropPeeked x st) →
      f.pc.validating = [] → f.pc.consuming cfg = [] → ∀ q,
      DeliveryOk cfg q s.rx s.keypair s.counter (update s.poll p f q) (s.hist.dropped q)
        (s.hist.validated q) (s.hist.consumed q) := by
    rintro _ rfl validating consuming f verdict validating' consuming'
    exact Deliveries.setPoll h f (fun x st pc => absurd pc (verdict x st))
      (validating'.trans validating.symm) (consuming'.trans consuming.symm)
  cases move with
  | control f stats stall own =>
      obtain ⟨verdict, validating, consuming⟩ := own.delivery life
      exact Deliveries.setPoll h f verdict validating consuming
  | drop x st pc =>
      intro q
      rcases eq_or_ne q p with rfl | ne
      · simpa only [update_self] using (h q).drop pc
      · simpa only [update_of_ne ne] using h q
  | validate x k pc found =>
      have mem : x ∈ s.hist.dropped p :=
        (h p).mem_dropped (List.mem_append_right _ (by simp [pc, PollPc.validating]))
      have own : cfg.peer k = p := by
        have := (queues.mem p x).mp ((queues.represents p).1 ▸ List.mem_append_left _ mem)
        simpa [found] using this.1
      intro q
      rcases eq_or_ne q p with rfl | ne
      · simpa only [update_self] using (h q).validate pc found own
      · have other := (h q).setOthers s.keypair
          (update s.counter k ((s.counter k).counterValidate (cfg.nonce x)).1)
          (fun _ _ => rfl) (fun k' peer => by
            have : k' ≠ k := by
              rintro rfl
              exact ne (peer.symm.trans own)
            simp [this])
        simpa only [update_of_ne ne] using other
  | consume x k pc found =>
      intro q
      rcases eq_or_ne q p with rfl | ne
      · simpa only [update_self] using (h q).consume pc (.inl rfl)
      · simpa only [update_of_ne ne] using h q
  | consumeRouted x k r pc found counted =>
      intro q
      rcases eq_or_ne q p with rfl | ne
      · simpa only [update_self] using (h q).consume pc (.inr ⟨r, rfl⟩)
      · simpa only [update_of_ne ne] using h q
  | peekDone site head pc returned =>
      obtain ⟨verdict, validating, consuming⟩ := afterPeek_delivery cfg site head
      exact free pc rfl rfl _ verdict validating consuming
  | peerPut x k pc found =>
      refine free pc rfl rfl _ ?_ ?_ ?_ <;> dsimp only <;> split <;>
        simp [PollPc.validating, PollPc.consuming]
  | entry pc => exact free pc rfl rfl _ (by simp) rfl rfl
  | peekMore site pc running => exact free pc rfl rfl _ (by simp) rfl rfl
  | routedPut x k r pc found => exact free pc rfl rfl _ (by simp) rfl rfl
  | keypairPut x k pc found => exact free pc rfl rfl _ (by simp) rfl rfl
  | stealDry stats pc empty => exact free pc rfl rfl _ (by simp) rfl rfl
  | stealTake job rest pc head =>
      have ring : (s.rx job).pc = .ring := (life.mem_ring job).mp (by simp [head])
      intro q
      exact (free pc rfl rfl { s.poll p with pc := .stealBusy job } (by simp) rfl rfl q).setRx
        (stays_of_fresh (by simp [ring, RxPc.stored]))
  | publishStore head pc => exact free pc rfl rfl _ (by simp) rfl rfl
  | recheckSet pc => exact free pc rfl rfl _ (by simp) rfl rfl
  | suppClear pc => exact free pc rfl rfl _ (by simp) rfl rfl
  | suppSet stats pc => exact free pc rfl rfl _ (by simp) rfl rfl
  | complete pc => exact free pc rfl rfl _ (by simp) rfl rfl

/-- The steps of a producer.  It writes to a packet that is not in any of the histories yet.
-/
theorem Deliveries.producer (h : Deliveries cfg s) (life : Life s) (queues : Queues cfg s)
    (move : ProducerStep cfg s x s') : Deliveries cfg s' := by
  have packet := life.packet x
  have unknown : s.prod x = .lookup → ∀ q, x ∉ s.hist.dropped q := by
    intro pc q mem
    have exch := (queues.mem q x).mp ((queues.represents q).1 ▸ List.mem_append_left _ mem)
    have enq := (queues.enq q x).mp
    rcases exch.2 with queued | ⟨prev, link⟩
    · simp [pc, ProdPc.queued] at queued
    · simpa [pc] using enq (by simp [link])
  have lookup : ∀ key, s.prod x = .lookup → ∀ q, DeliveryOk cfg q s.rx
      (update s.keypair x key) s.counter (s.poll q) (s.hist.dropped q) (s.hist.validated q)
      (s.hist.consumed q) := by
    intro key pc q
    refine (h q).setOthers _ _ (fun y mem => ?_) (fun _ _ => rfl)
    have ne : y ≠ x := by
      rintro rfl
      exact unknown pc q mem
    simp [ne]
  cases move with
  | lookupMiss pc => exact lookup none pc
  | lookupHit k pc counted => exact lookup (some k) pc
  | produce k c pc found room =>
      have := packet.unqueued_of (by simp [pc, ProdPc.produced])
      exact fun q => (h q).setRx (stays_of_fresh (by simp [this, RxPc.stored]))
  | ringFull k c pc found full =>
      have := packet.unqueued_of (by simp [pc, ProdPc.produced])
      exact fun q => (h q).setRx (stays_of_fresh (by simp [this, RxPc.stored]))
  | _ => exact h

theorem Deliveries.step {a : Action} (h : Deliveries cfg s) (life : Life s)
    (queues : Queues cfg s) (move : Transition cfg s a s') : Deliveries cfg s' := by
  cases move with
  | producer move => exact Deliveries.producer h life queues move
  | complete k found move =>
      have kept := fun q => (h q).setRx move.move.stays
      cases move <;> exact kept
  | worker present move =>
      cases move with
      | take x rest pc head =>
          have ring : (s.rx x).pc = .ring := (life.mem_ring x).mp (by simp [head])
          exact fun q => (h q).setRx (stays_of_fresh (by simp [ring, RxPc.stored]))
      | _ => exact h
  | poll present move => exact Deliveries.pollStep h life queues move
  | timer is move => cases move <;> exact h
  | remove present move => cases move <;> exact h
  | env move => cases move <;> exact h

theorem deliveries_init (cfg : Config) (knobs : Knobs) :
    Deliveries cfg (State.init knobs) := by
  intro p
  constructor <;> simp [State.init, History.start, PollFrame.idle, PollPc.validating,
    PollPc.consuming, replay]

variable {knobs : Knobs} {ok : State → Action → Prop}

theorem Reachable.deliveries (reach : Reachable cfg knobs ok s) : Deliveries cfg s :=
  reach.invariant (deliveries_init cfg knobs) fun _ _ _ reach h _ taken =>
    Deliveries.step h (Reachable.life reach) (Reachable.queues reach) (step_cases taken)

/-! ## Exactly once, in order

A packet leaves `UNCRYPTED` by the store of its one completion.  When the run has come to
rest every queued packet has been dropped, and the histories are complete. -/

/-- A packet that its producer took over itself is `DEAD`: the ring was full.  It never went
through `decrypt_packet`. -/
def ProducerDead (rx : Skb → RxFrame) : Prop :=
  ∀ x, (rx x).pc.taken = true → (rx x).ctx = .producer →
    (rx x).pc ≠ .decrypt ∧ (rx x).st = .dead

theorem ProducerDead.setRx {rx : Skb → RxFrame} {f : RxFrame} (h : ProducerDead rx)
    (self : f.pc.taken = true → f.ctx = .producer → f.pc ≠ .decrypt ∧ f.st = .dead) :
    ProducerDead (update rx x f) := by
  intro y taken ctx
  rcases eq_or_ne y x with rfl | ne
  · simpa using self (by simpa using taken) (by simpa using ctx)
  · simp only [update_of_ne ne] at taken ctx ⊢
    exact h y taken ctx

/-- A completion past `decrypt_packet` keeps its verdict. -/
theorem ProducerDead.wake {rx : Skb → RxFrame} {pc : RxPc} (h : ProducerDead rx)
    (before : (rx x).pc.taken = true) (after : pc ≠ .decrypt) :
    ProducerDead (update rx x { rx x with pc := pc }) :=
  h.setRx fun _ ctx => ⟨after, (h x before ctx).2⟩

/-- A producer that was refused stays refused: its packet is never exchanged into the queue.
-/
theorem ProducerDead.step {a : Action} (h : ProducerDead s.rx)
    (move : Transition cfg s a s') : ProducerDead s'.rx := by
  cases move with
  | producer move =>
      cases move with
      | produce k c pc found room => exact h.setRx (by simp [RxPc.taken])
      | ringFull k c pc found full => exact h.setRx (by simp)
      | _ => exact h
  | @complete x _ _ _ k found move =>
      cases move.move with
      | decide st pc verdict rx state left =>
          rw [rx]
          refine h.setRx fun _ ctx => absurd pc (h x ?_ ctx).1
          simp [pc, RxPc.taken]
      | get pc rx state left =>
          rw [rx]
          exact h.wake (by simp [pc, RxPc.taken]) (by simp)
      | store pc rx state left =>
          rw [rx]
          exact h.wake (by simp [pc, RxPc.taken]) (by simp)
      | wake pc' before after rx state left =>
          rw [rx]
          refine h.wake (RxPc.taken_of_stored before) ?_
          rintro rfl
          simp [RxPc.stored] at after
  | worker present move =>
      cases move with
      | take x rest pc head => exact h.setRx (by simp)
      | _ => exact h
  | poll present move =>
      cases move with
      | stealTake job rest pc head => exact h.setRx (by simp)
      | _ => exact h
  | timer is move => cases move <;> exact h
  | remove present move => cases move <;> exact h
  | env move => cases move <;> exact h

theorem Reachable.producerDead (reach : Reachable cfg knobs ok s) : ProducerDead s.rx :=
  reach.invariant (I := fun s => ProducerDead s.rx)
    (fun _ taken => by simp [State.init, RxPc.taken] at taken)
    fun _ _ _ _ h _ taken => h.step (step_cases taken)

/-- What holds of the packets of a peer's `rx_queue` at every moment. -/
structure ExactlyOnce (s : State) (p : Peer) : Prop where
  /-- no packet is enqueued twice -/
  nodup : (s.hist.exchanged p).Nodup
  /-- at most one context takes a packet over, and it makes the packet's state leave
  `UNCRYPTED` at most once -/
  handler : ∀ x ∈ s.hist.exchanged p,
    s.state x = .uncrypted ∧ s.hist.left x = 0 ∧ (s.hist.handledBy x).length ≤ 1 ∨
      s.state x ≠ .uncrypted ∧ s.hist.left x = 1 ∧ ∃ c, s.hist.handledBy x = [c]
  /-- the producer takes a packet over only to mark it `DEAD` -/
  producer : ∀ x ∈ s.hist.exchanged p, s.hist.handledBy x = [.producer] →
    s.state x ≠ .crypted
  /-- the poll drops packets in the order of the exchanges on `queue->head` -/
  order : s.hist.dropped p <+: s.hist.exchanged p
  /-- and only after their state has left `UNCRYPTED` -/
  decided : ∀ x ∈ s.hist.dropped p, s.state x ≠ .uncrypted

/-- The peer's queue has been drained and its poll is at rest: every packet that was
enqueued has been dropped, and the one that was dropped last has been handled to the end. -/
def Drained (s : State) (p : Peer) : Prop :=
  s.hist.dropped p = s.hist.exchanged p ∧ (s.poll p).pc = .idle

instance (s : State) (p : Peer) : Decidable (Drained s p) :=
  inferInstanceAs (Decidable (_ ∧ _))

theorem PacketOk.state_ne_iff {prod : ProdPc} {rx : RxFrame} {state : PacketState}
    {keypair : Option Keypair} {handledBy : List Ctx} {left : ℕ}
    (h : PacketOk prod rx state keypair handledBy left) :
    state ≠ .uncrypted ↔ rx.pc.stored = true := by
  cases stored : rx.pc.stored with
  | false => simpa using h.state_eq stored
  | true =>
      have := h.state
      rw [if_pos stored] at this
      simpa [this] using h.verdict (RxPc.decided_of_stored stored)

/-- Every packet is taken over by one context at most, and leaves `UNCRYPTED` at most once.
Both are read off its completion frame. -/
theorem Reachable.exactlyOnce (reach : Reachable cfg knobs ok s) (p : Peer) :
    ExactlyOnce s p where
  nodup := reach.queues.nodup p
  handler x _ := by
    have packet := reach.life.packet x
    cases stored : (s.rx x).pc.stored with
    | false =>
        refine .inl ⟨packet.state_eq stored, by simpa [stored] using packet.left, ?_⟩
        rw [packet.handledBy]
        split <;> simp
    | true =>
        refine .inr ⟨packet.state_ne_iff.mpr stored, by simpa [stored] using packet.left,
          (s.rx x).ctx, ?_⟩
        simpa [RxPc.taken_of_stored stored] using packet.handledBy
  producer x _ own := by
    have packet := reach.life.packet x
    have handled := packet.handledBy
    rw [own] at handled
    cases taken : (s.rx x).pc.taken with
    | false => simp [taken] at handled
    | true =>
        have ctx : (s.rx x).ctx = .producer := by simpa [taken, eq_comm] using handled
        rw [packet.state, (reach.producerDead x taken ctx).2]
        split <;> simp
  order := by
    rw [(reach.queues.represents p).1]
    exact List.prefix_append _ _
  decided x mem :=
    ((reach.life.packet x).state_ne_iff).mpr ((reach.deliveries p).stored x mem)

/-- A drained queue's packets went to `counter_validate` in order, those with a good
verdict, and from there through the replay filter. -/
theorem Drained.delivered (drained : Drained s p) (reach : Reachable cfg knobs ok s) :
    s.hist.validated p = (s.hist.exchanged p).filter (fun x => s.state x = .crypted) ∧
      s.hist.consumed p = (replay cfg s.keypair (s.hist.validated p)).2 := by
  obtain ⟨all, idle⟩ := drained
  have delivery := reach.deliveries p
  refine ⟨?_, by simpa [idle, PollPc.consuming] using delivery.consumed_eq⟩
  have validated := delivery.validated_eq
  rw [idle, all] at validated
  simp only [PollPc.validating, List.append_nil] at validated
  rw [validated]
  refine List.filter_congr fun x mem => ?_
  have stored := delivery.stored x (all ▸ mem)
  simp [(reach.life.packet x).state, stored]

/-- **In order and exactly once, whatever the parameters and the schedule.**  In
every run, each packet of a peer's queue is taken over by at most one context and
leaves `UNCRYPTED` at most once, and by exactly one and exactly once if the run
comes to rest; the poll drops packets in the order they were enqueued.  Two runs
that enqueue the same packets with the same verdicts and drain the queue hand the
same packets on in the same order. -/
theorem in_order_exactly_once (cfg : Config) (knobs : Knobs) (s : State)
    (reach : Reachable cfg knobs AnyStep s) (p : Peer) :
    ExactlyOnce s p ∧
      (Quiescent cfg s → s.ring = [] → ∀ x ∈ s.hist.exchanged p,
        s.hist.left x = 1 ∧ ∃ c, s.hist.handledBy x = [c]) ∧
      ∀ knobs' s', Reachable cfg knobs' AnyStep s' →
        s'.hist.exchanged p = s.hist.exchanged p →
        (∀ x ∈ s.hist.exchanged p, s'.keypair x = s.keypair x ∧ s'.state x = s.state x) →
        Drained s p → Drained s' p →
        s'.hist.validated p = s.hist.validated p ∧ s'.hist.consumed p = s.hist.consumed p := by
  refine ⟨reach.exactlyOnce p, fun quiet empty x mem => ?_, ?_⟩
  · have done := quiet.exchanged_done reach empty mem
    have packet := reach.life.packet x
    exact ⟨by simpa [done, RxPc.stored] using packet.left, (s.rx x).ctx,
      by simpa [done, RxPc.taken] using packet.handledBy⟩
  · intro knobs' s' reach' order same drained drained'
    obtain ⟨validated, consumed⟩ := drained.delivered reach
    obtain ⟨validated', consumed'⟩ := drained'.delivered reach'
    have equal : s'.hist.validated p = s.hist.validated p := by
      rw [validated, validated', order]
      refine List.filter_congr fun x mem => ?_
      rw [(same x mem).2]
    refine ⟨equal, ?_⟩
    rw [consumed, consumed', equal]
    refine congrArg Prod.snd (replay_congr fun x mem => (same x ?_).1)
    rw [validated] at mem
    exact List.mem_of_mem_filter mem

/-- Two packets, once decrypted by two workers with all parameters zero, the second
one first, and once with `wg_headwake` and `wg_steal` set, the second one by the
peer's own poll. -/
theorem in_order_exactly_once_two : ∃ s s',
    (Reachable (smallConfig 1 (by decide)) ⟨0, 0, 0, 0, 0⟩ AnyStep s ∧
      Reachable (smallConfig 1 (by decide)) ⟨0, 1, 1, 1, 1⟩ AnyStep s' ∧
      s.hist.handledBy 1 = [.worker 1] ∧ s'.hist.handledBy 1 = [.poll 0]) ∧
    ExactlyOnce s 0 ∧ s'.hist.validated 0 = s.hist.validated 0 ∧
      s'.hist.consumed 0 = s.hist.consumed 0 ∧ s.hist.consumed 0 = [0, 1] := by
  have run : ∃ s, Reachable (smallConfig 1 (by decide)) ⟨0, 0, 0, 0, 0⟩ AnyStep s ∧
      s.hist.handledBy 1 = [.worker 1] ∧ s.hist.exchanged 0 = [0, 1] ∧
      s.hist.consumed 0 = [0, 1] ∧ Drained s 0 ∧
      ∀ x ∈ [0, 1], s.keypair x = some 0 ∧ s.state x = .crypted :=
    Machine.exists_reach_of_exec
      (arrive 0 0 ++ arrive 1 0 ++ works 0 2 ++ works 1 2 ++ completes 1 7 ++
        completes 0 7 ++ polls 0 33) (by decide +kernel)
  have run' : ∃ s, Reachable (smallConfig 1 (by decide)) ⟨0, 1, 1, 1, 1⟩ AnyStep s ∧
      s.hist.handledBy 1 = [.poll 0] ∧ s.hist.exchanged 0 = [0, 1] ∧ Drained s 0 ∧
      ∀ x ∈ [0, 1], s.keypair x = some 0 ∧ s.state x = .crypted :=
    Machine.exists_reach_of_exec
      (arrive 0 0 ++ arrive 1 0 ++ works 0 2 ++ completes 0 7 ++ polls 0 25 ++
        completes 1 7 ++ polls 0 53) (by decide +kernel)
  obtain ⟨s, reach, worker, order, consumed, drained, data⟩ := run
  obtain ⟨s', reach', poll, order', drained', data'⟩ := run'
  obtain ⟨once, -, equal⟩ := in_order_exactly_once _ _ s reach 0
  obtain ⟨validated, handed⟩ := equal _ s' reach' (order'.trans order.symm)
    (fun x mem => by
      rw [order] at mem
      exact ⟨(data' x mem).1.trans (data x mem).1.symm, (data' x mem).2.trans (data x mem).2.symm⟩)
    drained drained'
  exact ⟨s, s', ⟨reach, reach', worker, poll⟩, once, validated, handed, consumed⟩

end WgReceivePath
