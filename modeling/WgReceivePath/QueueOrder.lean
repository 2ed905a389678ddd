import WgReceivePath.PacketLife

/-!
# The order of a peer's packets

`QueueOk` connects the pointer-level queue to the history: the packets that were exchanged
into a peer's `rx_queue` are those its poll has dropped, followed by those the queue holds,
in one order (`QueueOk.order`).  The frames inside `__wg_prev_queue_enqueue` are exactly the
producers that stand there, so that the queue's own view of its producers and the machine's
agree.

`State.queued` is what the queue of a peer holds according to the history.  It is the form
in which the later modules speak of the queue: they never look at a pointer again.

What carries the proof is on the consumer's side: a packet that the poll has in a local
variable is still the one that the queue has cached (`HeadCached`), since only the poll
itself peeks and drops.  A drop therefore takes off the first packet of the queue, and what
was dropped stays a prefix of what was exchanged.  On the producers' side the exchange on
`head` is the only step that changes what the queue holds; the other accesses keep
`PrevQueue.Represents`.
-/

namespace WgReceivePath

open Function (update update_self update_of_ne)

variable {cfg : Config} {s s' : State} {x : Skb} {p : Peer}

/-! ## The packet in the poll's hands

Between the peek that returns a packet and its drop the poll works with a local variable.
Nobody else touches the cache, so that the variable and the cache agree. -/

/-- The head packet a program point of the poll has in a local variable, still cached in the
queue.  Between the peek and the drop the poll may be anywhere in its control flow. -/
def PollPc.head? : PollPc → Option Skb
  | .readState _ x => some x
  | .dropPeeked x _ => some x
  | .stealStat head => head
  | .diagMiss head => head
  | .publishStore head => head
  | _ => none

/-- A packet in the poll's hands is the one the queue has cached.  Producers do not touch
the cache, and no other poll works on this queue. -/
def HeadCached (poll : Peer → PollFrame) (rxQueue : Peer → PrevQueue Skb) : Prop :=
  ∀ p x, (poll p).pc.head? = some x → (rxQueue p).peeked = some x

/-- `HeadCached` of a state. -/
abbrev Cached (s : State) : Prop := HeadCached s.poll s.rxQueue

theorem PollMove.head? {f : PollFrame} (own : PollMove cfg s p f)
    (head : f.pc.head? = some x) : (s.poll p).pc.head? = some x := by
  cases own with
  | readState site y pc =>
      rw [pc]
      cases site <;> simp only [afterRead] at head <;> (try split at head) <;>
        simp_all [PollPc.head?]
  | endpoint y pc =>
      dsimp only at head
      split at head <;> simp [PollPc.head?] at head
  | statSome y pc => simpa [pc, PollPc.head?] using head
  | missSome y pc => simpa [pc, PollPc.head?] using head
  | _ => simp [PollPc.head?] at head

theorem afterPeek_head? {site : PeekSite} {head : Option Skb}
    (h : (afterPeek site head).head? = some x) : head = some x := by
  cases site <;> cases head <;> simp_all [afterPeek, PollPc.head?]

theorem PrevQueue.reserve_peeked {q q' : PrevQueue Skb} (taken : q.reserve x = some q') :
    q'.peeked = q.peeked ∧ q'.deq = q.deq := by
  unfold reserve at taken
  split at taken <;> cases taken
  exact ⟨rfl, rfl⟩

theorem PrevQueue.enqueueStep_peeked {q q' : PrevQueue Skb}
    (taken : q.enqueueStep x = some q') : q'.peeked = q.peeked ∧ q'.deq = q.deq := by
  unfold enqueueStep at taken
  split at taken <;> cases taken <;> exact ⟨rfl, rfl⟩

/-- Producers leave the cache alone. -/
theorem HeadCached.setQueue {q : PrevQueue Skb} (h : Cached s) (p : Peer)
    (same : q.peeked = (s.rxQueue p).peeked) :
    HeadCached s.poll (update s.rxQueue p q) := by
  intro p' y head
  rcases eq_or_ne p' p with rfl | ne
  · simpa [same] using h p' y head
  · simpa [ne] using h p' y head

/-- The poll moves to a point where it has a packet in hand only if it is cached. -/
theorem HeadCached.setPoll {f : PollFrame} (h : Cached s) (p : Peer)
    {q : PrevQueue Skb} (cached : ∀ y, f.pc.head? = some y → q.peeked = some y) :
    HeadCached (update s.poll p f) (update s.rxQueue p q) := by
  intro p' y head
  rcases eq_or_ne p' p with rfl | ne
  · simpa using cached y (by simpa using head)
  · simpa [ne] using h p' y (by simpa [ne] using head)

/-- The poll moves to a point where it has no packet in hand. -/
theorem HeadCached.setPollNone {f : PollFrame} (h : Cached s) (p : Peer)
    (none : f.pc.head? = none) : HeadCached (update s.poll p f) s.rxQueue := by
  simpa using h.setPoll p (f := f) (q := s.rxQueue p) (by simp [none])

theorem HeadCached.producer (h : Cached s)
    (move : ProducerStep cfg s x s') : Cached s' := by
  cases move with
  | accept k q pc found room => exact h.setQueue _ (PrevQueue.reserve_peeked room).1
  | enqClear k q pc found enq taken =>
      exact h.setQueue _ (PrevQueue.enqueueStep_peeked taken).1
  | enqXchg k q pc found enq taken =>
      exact h.setQueue _ (PrevQueue.enqueueStep_peeked taken).1
  | enqLink k q prev pc found enq taken =>
      exact h.setQueue _ (PrevQueue.enqueueStep_peeked taken).1
  | _ => exact h

theorem HeadCached.pollStep (h : Cached s) (move : PollStep cfg s p s') :
    Cached s' := by
  cases move with
  | control f stats stall own =>
      simpa using h.setPoll p (f := f) (q := s.rxQueue p)
        fun y head => h p y (own.head? head)
  | peekMore site pc running => exact h.setPoll p (by simp [PollPc.head?])
  | peekDone site head pc returned =>
      refine h.setPoll p fun y some => ?_
      rw [afterPeek_head? some] at returned
      exact PrevQueue.peekStep_some returned
  | drop y st pc => exact h.setPoll p (by intro; dsimp only; split <;> simp [PollPc.head?])
  | validate y k pc found =>
      exact h.setPollNone p (by dsimp only; split <;> simp [PollPc.head?])
  | peerPut y k pc found =>
      exact h.setPollNone p (by dsimp only; split <;> simp [PollPc.head?])
  | _ => exact h.setPollNone p rfl

theorem HeadCached.step {a : Action} (h : Cached s)
    (move : Transition cfg s a s') : Cached s' := by
  cases move with
  | producer move => exact h.producer move
  | complete k found move => cases move <;> exact h
  | worker present move => cases move <;> exact h
  | poll present move => exact h.pollStep move
  | timer is move => cases move <;> exact h
  | remove present move => cases move <;> exact h
  | env move => cases move <;> exact h

variable {knobs : Knobs} {ok : State → Action → Prop}

theorem headCached_init (knobs : Knobs) : Cached (State.init knobs) := by
  simp [HeadCached, State.init, PollFrame.idle, PollPc.head?]

theorem Reachable.headCached (reach : Reachable cfg knobs ok s) : Cached s :=
  reach.invariant (headCached_init knobs) fun _ _ _ _ h _ taken => h.step (step_cases taken)

/-! ## The queue and its history

The history grows by an exchange, and by a drop; the queue changes by the same two and by
the consumer's moves inside it.  The equation between them is the invariant. -/

/-- The producer is certainly past the exchange on `head`.  At `enqueue` it depends on the
frame inside the queue. -/
def ProdPc.queued : ProdPc → Bool
  | .nextCpu | .storeCpu _ | .produce _ | .queueWork _ | .completing | .done => true
  | _ => false

/-- The packets a peer's queue holds, according to the history: those that were exchanged
in, without as many as were dropped. -/
def State.queued (s : State) (p : Peer) : List Skb :=
  (s.hist.exchanged p).drop (s.hist.dropped p).length

/-- How the queues, the producers inside them and the history agree.  `enq` and `mem` tie
the frames inside the queue to the producers, `order` the pointers to the history. -/
structure QueueOk (cfg : Config) (prod : Skb → ProdPc) (keypair : Skb → Option Keypair)
    (rxQueue : Peer → PrevQueue Skb) (exchanged dropped : Peer → List Skb) : Prop where
  enq : ∀ p x, (rxQueue p).enq x ≠ .idle ↔
    prod x = .enqueue ∧ (keypair x).map cfg.peer = some p
  mem : ∀ p x, x ∈ exchanged p ↔ (keypair x).map cfg.peer = some p ∧
    ((prod x).queued = true ∨ ∃ prev, (rxQueue p).enq x = .link prev)
  nodup : ∀ p, (exchanged p).Nodup
  order : ∀ p, ∃ xs, exchanged p = dropped p ++ xs ∧ (rxQueue p).Represents xs

/-- `QueueOk` of a state. -/
abbrev Queues (cfg : Config) (s : State) : Prop :=
  QueueOk cfg s.prod s.keypair s.rxQueue s.hist.exchanged s.hist.dropped

/-- What the history says is queued is what the pointers hold. -/
theorem QueueOk.represents (h : Queues cfg s) (p : Peer) :
    s.hist.exchanged p = s.hist.dropped p ++ s.queued p ∧
      (s.rxQueue p).Represents (s.queued p) := by
  obtain ⟨xs, order, represents⟩ := h.order p
  have : s.queued p = xs := by simp [State.queued, order]
  rw [this]
  exact ⟨order, represents⟩

/-- A producer outside `__wg_prev_queue_enqueue` moves on. -/
theorem QueueOk.setProd (h : Queues cfg s) (x : Skb) (pc : ProdPc)
    (outside : s.prod x ≠ .enqueue) (outside' : pc ≠ .enqueue)
    (same : pc.queued = (s.prod x).queued) :
    QueueOk cfg (update s.prod x pc) s.keypair s.rxQueue s.hist.exchanged
      s.hist.dropped := by
  refine ⟨fun p y => ?_, fun p y => ?_, h.nodup, h.order⟩
  · rcases eq_or_ne y x with rfl | ne
    · simpa [outside, outside'] using h.enq p y
    · simpa [ne] using h.enq p y
  · rcases eq_or_ne y x with rfl | ne
    · simpa [same] using h.mem p y
    · simpa [ne] using h.mem p y

/-- A packet that no queue knows yet is looked up. -/
theorem QueueOk.lookup (h : Queues cfg s) (x : Skb) (key : Option Keypair)
    (pc : s.prod x = .lookup) :
    QueueOk cfg (update s.prod x .keypairGet) (update s.keypair x key) s.rxQueue
      s.hist.exchanged s.hist.dropped := by
  have idle : ∀ p, (s.rxQueue p).enq x = .idle := by
    intro p
    by_contra busy
    simpa [pc] using (h.enq p x).mp busy
  have notMem : ∀ p, x ∉ s.hist.exchanged p := by
    intro p mem
    simpa [pc, idle, ProdPc.queued] using (h.mem p x).mp mem
  refine ⟨fun p y => ?_, fun p y => ?_, h.nodup, h.order⟩
  · rcases eq_or_ne y x with rfl | ne
    · simp [idle]
    · simpa [ne] using h.enq p y
  · rcases eq_or_ne y x with rfl | ne
    · simp [notMem, idle, ProdPc.queued]
    · simpa [ne] using h.mem p y

/-- One queue changes, in the frame of `x` only.  The other frames inside the enqueue are
the same producers as before. -/
theorem QueueOk.setQueue {q : PrevQueue Skb} {k : Keypair} (h : Queues cfg s) (x : Skb)
    (pc : ProdPc) (exch : List Skb) (found : s.keypair x = some k)
    (others : ∀ y, y ≠ x → q.enq y = (s.rxQueue (cfg.peer k)).enq y)
    (memOthers : ∀ y, y ≠ x → (y ∈ exch ↔ y ∈ s.hist.exchanged (cfg.peer k)))
    (enq : q.enq x ≠ .idle ↔ pc = .enqueue)
    (mem : x ∈ exch ↔ pc.queued = true ∨ ∃ prev, q.enq x = .link prev)
    (nodup : exch.Nodup)
    (order : ∃ xs, exch = s.hist.dropped (cfg.peer k) ++ xs ∧ q.Represents xs) :
    QueueOk cfg (update s.prod x pc) s.keypair (update s.rxQueue (cfg.peer k) q)
      (update s.hist.exchanged (cfg.peer k) exch) s.hist.dropped := by
  -- in the other queues the packet has no frame, and it was never exchanged there
  have idle : ∀ p, p ≠ cfg.peer k → (s.rxQueue p).enq x = .idle := by
    intro p ne
    by_contra busy
    exact ne (by simpa [found, eq_comm] using ((h.enq p x).mp busy).2)
  refine ⟨fun p y => ?_, fun p y => ?_, fun p => ?_, fun p => ?_⟩
  · rcases eq_or_ne p (cfg.peer k) with rfl | nep <;> rcases eq_or_ne y x with rfl | ne
    · simpa [found] using enq
    · simpa [ne, others y ne] using h.enq (cfg.peer k) y
    · simp [nep, idle p nep, found, nep.symm]
    · simpa [ne, nep] using h.enq p y
  · rcases eq_or_ne p (cfg.peer k) with rfl | nep <;> rcases eq_or_ne y x with rfl | ne
    · simpa [found] using mem
    · simpa [ne, others y ne, memOthers y ne] using h.mem (cfg.peer k) y
    · have := h.mem p y
      simp only [found, Option.map_some, Option.some.injEq, nep.symm, false_and,
        iff_false] at this
      simp [nep, nep.symm, found, this]
    · simpa [ne, nep] using h.mem p y
  · rcases eq_or_ne p (cfg.peer k) with rfl | nep
    · simpa using nodup
    · simpa [nep] using h.nodup p
  · rcases eq_or_ne p (cfg.peer k) with rfl | nep
    · simpa using order
    · simpa [nep] using h.order p

/-- What the three memory accesses of an enqueue do to the frames in the queue. -/
theorem PrevQueue.enqueueStep_enq {q q' : PrevQueue Skb} (taken : q.enqueueStep x = some q') :
    (∀ y, y ≠ x → q'.enq y = q.enq y) ∧
      (q.enq x = .clear → q'.enq x = .xchg) ∧
      (∀ prev, q.enq x = .link prev → q'.enq x = .idle) := by
  unfold enqueueStep at taken
  split at taken <;> cases taken <;> simp_all

theorem PrevQueue.reserve_enq {q q' : PrevQueue Skb} (taken : q.reserve x = some q') :
    (∀ y, y ≠ x → q'.enq y = q.enq y) ∧ q'.enq x = .clear := by
  unfold reserve at taken
  split at taken <;> cases taken
  simp_all

/-- The steps of a producer.  Its exchange appends to the queue and to the history at once;
its other accesses change neither. -/
theorem QueueOk.producer (h : Queues cfg s) (move : ProducerStep cfg s x s') :
    Queues cfg s' := by
  cases move with
  | lookupMiss pc => exact h.lookup x none pc
  | lookupHit k pc counted => exact h.lookup x (some k) pc
  | accept k q pc found room =>
      obtain ⟨others, enq⟩ := PrevQueue.reserve_enq room
      have idle : (s.rxQueue (cfg.peer k)).enq x = .idle := by
        by_contra busy
        simpa [pc] using ((h.enq _ x).mp busy).1
      have notMem : x ∉ s.hist.exchanged (cfg.peer k) := by
        simp [h.mem, pc, idle, ProdPc.queued]
      obtain ⟨xs, order, represents⟩ := h.order (cfg.peer k)
      have kept := PrevQueue.represents_reserve represents idle
        (fun mem => notMem (order ▸ List.mem_append_right _ mem)) room
      simpa using h.setQueue x .enqueue _ found others (fun _ _ => Iff.rfl)
        (by simp [enq]) (by simp [notMem, enq, ProdPc.queued]) (h.nodup _) ⟨xs, order, kept⟩
  | enqClear k q pc found enq taken =>
      obtain ⟨others, enq', -⟩ := PrevQueue.enqueueStep_enq taken
      obtain ⟨xs, order, represents⟩ := h.order (cfg.peer k)
      have notMem : x ∉ s.hist.exchanged (cfg.peer k) := by
        simp [h.mem, pc, enq, ProdPc.queued]
      have changed := h.setQueue x (s.prod x) _ found others (fun _ _ => Iff.rfl)
        (by simp [enq' enq, pc]) (by simp [notMem, enq' enq, pc, ProdPc.queued]) (h.nodup _)
        ⟨xs, order, PrevQueue.represents_clear represents enq taken⟩
      simpa using changed
  | enqXchg k q pc found enq taken =>
      obtain ⟨others, -⟩ := PrevQueue.enqueueStep_enq taken
      obtain ⟨xs, order, represents⟩ := h.order (cfg.peer k)
      have notMem : x ∉ s.hist.exchanged (cfg.peer k) := by
        simp [h.mem, pc, enq, ProdPc.queued]
      obtain ⟨appended, link⟩ := PrevQueue.represents_xchg represents enq taken
      have changed := h.setQueue x (s.prod x) (s.hist.exchanged (cfg.peer k) ++ [x])
        found others
        (fun y ne => by simp [ne]) (by simp [link, pc]) (by simp [link])
        (List.nodup_append.mpr ⟨h.nodup _, by simp, by
          rintro a mem b single rfl
          exact notMem ((List.mem_singleton.mp single) ▸ mem)⟩)
        ⟨xs ++ [x], by simp [order], appended⟩
      simpa using changed
  | enqLink k q prev pc found enq taken =>
      obtain ⟨others, -, enq'⟩ := PrevQueue.enqueueStep_enq taken
      obtain ⟨xs, order, represents⟩ := h.order (cfg.peer k)
      have mem : x ∈ s.hist.exchanged (cfg.peer k) := by
        simp [h.mem, found, enq]
      have changed := h.setQueue x .nextCpu _ found others (fun _ _ => Iff.rfl)
        (by simp [enq' prev enq]) (by simp [mem, ProdPc.queued]) (h.nodup _)
        ⟨xs, order, PrevQueue.represents_link represents enq taken⟩
      simpa using changed
  | keypairNull pc missing =>
      exact h.setProd x _ (by simp [pc]) (by simp) (by simp [pc, ProdPc.queued])
  | keypairGone k pc found zero =>
      exact h.setProd x _ (by simp [pc]) (by simp) (by simp [pc, ProdPc.queued])
  | keypairHit k pc found counted =>
      exact h.setProd x _ (by simp [pc]) (by simp) (by simp [pc, ProdPc.queued])
  | peerDead k pc found dead =>
      exact h.setProd x _ (by simp [pc]) (by simp) (by simp [pc, ProdPc.queued])
  | peerAlive k pc found alive =>
      exact h.setProd x _ (by simp [pc]) (by simp) (by simp [pc, ProdPc.queued])
  | initState k pc found =>
      exact h.setProd x _ (by simp [pc]) (by simp) (by simp [pc, ProdPc.queued])
  | reject k pc found full =>
      exact h.setProd x _ (by simp [pc]) (by simp) (by simp [pc, ProdPc.queued])
  | nextCpu k pc found =>
      exact h.setProd x _ (by simp [pc]) (by simp) (by simp [pc, ProdPc.queued])
  | storeCpu k c pc found =>
      exact h.setProd x _ (by simp [pc]) (by simp) (by simp [pc, ProdPc.queued])
  | produce k c pc found room =>
      exact h.setProd x _ (by simp [pc]) (by simp) (by simp [pc, ProdPc.queued])
  | ringFull k c pc found full =>
      exact h.setProd x _ (by simp [pc]) (by simp) (by simp [pc, ProdPc.queued])
  | queueWork k c pc found =>
      exact h.setProd x _ (by simp [pc]) (by simp) (by simp [pc, ProdPc.queued])
  | completed k pc found returned =>
      exact h.setProd x _ (by simp [pc]) (by simp) (by simp [pc, ProdPc.queued])
  | errKeypairPut k pc found =>
      exact h.setProd x _ (by simp [pc]) (by simp) (by simp [pc, ProdPc.queued])
  | errPeerPut k pc found =>
      exact h.setProd x _ (by simp [pc]) (by simp) (by simp [pc, ProdPc.queued])
  | errPeerNull pc missing =>
      exact h.setProd x _ (by simp [pc]) (by simp) (by simp [pc, ProdPc.queued])

/-- The consumer changes its queue without touching the producers' frames. -/
theorem QueueOk.consume {q : PrevQueue Skb} {drops : List Skb} (h : Queues cfg s) (p : Peer)
    (enq : q.enq = (s.rxQueue p).enq)
    (order : ∃ xs, s.hist.exchanged p = drops ++ xs ∧ q.Represents xs) :
    QueueOk cfg s.prod s.keypair (update s.rxQueue p q) s.hist.exchanged
      (update s.hist.dropped p drops) := by
  refine ⟨fun p' y => ?_, fun p' y => ?_, h.nodup, fun p' => ?_⟩
  · rcases eq_or_ne p' p with rfl | ne
    · simpa [enq] using h.enq p' y
    · simpa [ne] using h.enq p' y
  · rcases eq_or_ne p' p with rfl | ne
    · simpa [enq] using h.mem p' y
    · simpa [ne] using h.mem p' y
  · rcases eq_or_ne p' p with rfl | ne
    · simpa using order
    · simpa [ne] using h.order p'

theorem QueueOk.peek (h : Queues cfg s) (p : Peer) :
    QueueOk cfg s.prod s.keypair (update s.rxQueue p (s.rxQueue p).peekStep.1)
      s.hist.exchanged s.hist.dropped := by
  obtain ⟨xs, order, represents⟩ := h.order p
  simpa using h.consume p PrevQueue.peekStep_enq
    ⟨xs, order, PrevQueue.represents_peekStep represents⟩

theorem QueueOk.pollStep (h : Queues cfg s) (cached : Cached s)
    (move : PollStep cfg s p s') : Queues cfg s' := by
  cases move with
  | peekMore site pc running => exact h.peek p
  | peekDone site head pc returned => exact h.peek p
  | drop x st pc =>
      obtain ⟨xs, order, represents⟩ := h.order p
      obtain ⟨rest, rfl, dropped⟩ := PrevQueue.represents_dropPeeked represents
        (cached p x (by simp [pc, PollPc.head?]))
      exact h.consume p rfl ⟨rest, by simp [order], dropped⟩
  | _ => exact h

theorem QueueOk.step {a : Action} (h : Queues cfg s) (life : Life s) (cached : Cached s)
    (move : Transition cfg s a s') : Queues cfg s' := by
  cases move with
  | producer move => exact h.producer move
  | complete k found move => cases move <;> exact h
  | worker present move => cases move <;> exact h
  | poll present move => exact h.pollStep cached move
  | timer is move => cases move <;> exact h
  | remove present move => cases move <;> exact h
  | env move =>
      cases move with
      | receive =>
          have fresh := life.fresh s.nextSkb le_rfl
          exact h.setProd _ _ (by simp [fresh]) (by simp) (by simp [fresh, ProdPc.queued])
      | _ => exact h

theorem queueOk_init (cfg : Config) (knobs : Knobs) : Queues cfg (State.init knobs) := by
  refine ⟨?_, ?_, fun _ => List.nodup_nil, fun _ => ⟨[], rfl, PrevQueue.represents_init⟩⟩
  · simp [State.init, PrevQueue.wgPrevQueueInit]
  · simp [State.init, History.start]

/-- **The queues are in order in every run.**  In particular no packet is lost, duplicated
or overtaken on its way through a queue. -/
theorem Reachable.queues (reach : Reachable cfg knobs ok s) : Queues cfg s :=
  reach.invariant (queueOk_init cfg knobs) fun _ _ _ reach h _ taken =>
    h.step (Reachable.life reach) (Reachable.headCached reach) (step_cases taken)

theorem exchanged_peer (queues : Queues cfg s) (mem : x ∈ s.hist.exchanged p) :
    p < cfg.peers := by
  obtain ⟨k, -, rfl⟩ := Option.map_eq_some_iff.mp ((queues.mem p x).mp mem).1
  exact cfg.peer_lt k

/-- A packet is exchanged into one queue only. -/
theorem exchanged_unique {p' : Peer} (queues : Queues cfg s) (mem : x ∈ s.hist.exchanged p)
    (mem' : x ∈ s.hist.exchanged p') : p' = p := by
  have peer := ((queues.mem p x).mp mem).1
  have peer' := ((queues.mem p' x).mp mem').1
  exact Option.some.inj (peer'.symm.trans peer)

theorem mem_exchanged_of_mem_dropped (queues : Queues cfg s) (mem : x ∈ s.hist.dropped p) :
    x ∈ s.hist.exchanged p := by
  rw [(queues.represents p).1]
  exact List.mem_append_left _ mem

theorem mem_exchanged_of_mem_queued (mem : x ∈ s.queued p) : x ∈ s.hist.exchanged p :=
  List.mem_of_mem_drop mem

/-- In a quiet state every packet of a queue has run its completion to the end. -/
theorem Quiescent.exchanged_done (quiet : Quiescent cfg s) (reach : Reachable cfg knobs ok s)
    (empty : s.ring = []) (mem : x ∈ s.hist.exchanged p) : (s.rx x).pc = .done := by
  have life := reach.life
  have queued := ((reach.queues.mem p x).mp mem).2
  have seen : s.prod x ≠ .fresh := by
    intro fresh
    rcases queued with queued | ⟨prev, link⟩
    · simp [fresh, ProdPc.queued] at queued
    · simpa [fresh] using ((reach.queues.enq p x).mp (by simp [link])).1
  have produced : (s.prod x).produced = true := by
    rcases quiet.1 x (life.born seen) with done | freed
    · simp [done, ProdPc.produced]
    · rcases queued with queued | ⟨prev, link⟩
      · simp [freed, ProdPc.queued] at queued
      · simpa [freed] using ((reach.queues.enq p x).mp (by simp [link])).1
  exact quiet.done life reach.owned empty produced

end WgReceivePath
