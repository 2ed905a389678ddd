import WgReceivePath.QueueOrder
import WgReceivePath.Lib.Sums

/-!
# What the queue's count counts

`count` is what `wg_prev_queue_enqueue` compares with `MAX_QUEUED_PACKETS`.  It goes up when
a packet is accepted and down when the consumer takes the packet into the `peeked` cache,
which is before the poll has dropped it.  So the accepted packets of a peer are the counted
ones, the cached one and the dropped ones (`OccupiedOk.occupied`), and a packet that was
refused and then one that was accepted say that the consumer has taken a packet in between.

The invariant ties three views of the same packets together: the observable actions, the
history of the exchanges, and the counter.  A producer that has its place and has not
exchanged its packet in yet is in the first and the third but not in the second
(`EnqPc.waiting`); with it the three agree at every step.  The one step with an argument is
the consumer's decrement: that there is something to decrement follows from the other two
views, since the packet it is about to return was accepted and has not been dropped
(`OccupiedOk.peek`).
-/

namespace WgReceivePath

open Function (update update_self update_of_ne)
open Finset (range counter_change)

variable {cfg : Config} {knobs : Knobs} {ok : State → Action → Prop} {s s' : State}
  {x : Skb} {p : Peer}

/-- The packet that an observable action drops from the queue of `p`. -/
def Obs.dropped? (p : Peer) : Obs → Option Skb
  | .drop q x => if q = p then some x else none
  | _ => none

/-- A producer that has a place in the queue and has not exchanged `head` yet. -/
def EnqPc.waiting : EnqPc Skb → ℕ
  | .clear | .xchg => 1
  | .idle | .link _ => 0

/-- The packets of peer `p` that were accepted so far: those exchanged in or about to be,
and those counted, dropped or cached. -/
structure OccupiedOk (nextSkb : ℕ) (q : PrevQueue Skb) (exchanged dropped : List Skb)
    (obs : List Obs) (p : Peer) : Prop where
  accepted : obs.count (.accept p) = exchanged.length + ∑ x ∈ range nextSkb, (q.enq x).waiting
  occupied : obs.count (.accept p) = q.count + dropped.length + q.peeked.toList.length
  dropped : dropped = obs.filterMap (Obs.dropped? p)

/-- `OccupiedOk` of every peer in a state. -/
abbrev Occupied (s : State) : Prop :=
  ∀ p, OccupiedOk s.nextSkb (s.rxQueue p) (s.hist.exchanged p) (s.hist.dropped p) s.hist.obs p

section Counting

variable {n : ℕ} {q q' : PrevQueue Skb} {exchanged dropped : List Skb} {obs more : List Obs}

/-- Observable actions that neither accept nor drop a packet of `p`. -/
theorem OccupiedOk.append (h : OccupiedOk n q exchanged dropped obs p)
    (accepts : more.count (.accept p) = 0) (drops : more.filterMap (Obs.dropped? p) = []) :
    OccupiedOk n q exchanged dropped (obs ++ more) p := by
  refine ⟨?_, ?_, ?_⟩
  · rw [List.count_append, accepts, add_zero, h.accepted]
  · rw [List.count_append, accepts, add_zero, h.occupied]
  · rw [List.filterMap_append, drops, List.append_nil]
    exact h.dropped

/-- `wg_prev_queue_enqueue` accepts a packet. -/
theorem OccupiedOk.reserve (h : OccupiedOk n q exchanged dropped obs p) (born : x < n)
    (idle : q.enq x = .idle) (room : q.reserve x = some q') :
    OccupiedOk n q' exchanged dropped (obs ++ [.accept p]) p := by
  obtain ⟨others, clear⟩ := PrevQueue.reserve_enq room
  have counted : q'.count = q.count + 1 := by
    unfold PrevQueue.reserve at room
    split at room <;> cases room
    rfl
  have accepts : (obs ++ [Obs.accept p]).count (.accept p) = obs.count (.accept p) + 1 := by
    simp
  refine ⟨?_, ?_, ?_⟩
  · refine counter_change (Finset.mem_range.mpr born) (fun y ne => by rw [others y ne])
      h.accepted ?_
    rw [accepts, idle, clear]
    rfl
  · rw [accepts, counted, (PrevQueue.reserve_peeked room).1, h.occupied]
    omega
  · rw [List.filterMap_append, ← h.dropped]
    simp [Obs.dropped?]

/-- The memory accesses of `__wg_prev_queue_enqueue`. -/
theorem OccupiedOk.enqueue {exchanged' : List Skb} (h : OccupiedOk n q exchanged dropped obs p)
    (born : x < n) (taken : q.enqueueStep x = some q')
    (balance : exchanged'.length + (q'.enq x).waiting = exchanged.length + (q.enq x).waiting) :
    OccupiedOk n q' exchanged' dropped obs p := by
  obtain ⟨others, -⟩ := PrevQueue.enqueueStep_enq taken
  have counted : q'.count = q.count := by
    unfold PrevQueue.enqueueStep at taken
    split at taken <;> cases taken <;> rfl
  refine ⟨?_, ?_, h.dropped⟩
  · have changed : ∑ y ∈ range n, (q'.enq y).waiting + (q.enq x).waiting =
        ∑ y ∈ range n, (q.enq y).waiting + (q'.enq x).waiting :=
      Finset.sum_change (f := fun y => (q.enq y).waiting) (g := fun y => (q'.enq y).waiting)
        (Finset.mem_range.mpr born) (fun y ne => by rw [others y ne])
    have accepted := h.accepted
    omega
  · rw [counted, (PrevQueue.enqueueStep_peeked taken).1, h.occupied]

/-- `wg_prev_queue_peek` moves a counted packet into the cache. -/
theorem PrevQueue.peekStep_count
    (dec : ∀ t, q.deq = .dec t → t ≠ .stub ∧ q.peeked = none ∧ 0 < q.count) :
    q.peekStep.1.count + q.peekStep.1.peeked.toList.length =
      q.count + q.peeked.toList.length := by
  unfold peekStep afterLoad
  cases deq : q.deq with
  | dec t =>
      obtain ⟨packet, free, positive⟩ := dec t deq
      cases t with
      | stub => exact absurd rfl packet
      | skb y =>
          simp only [Node.skb?_skb, free, Option.toList_some, Option.toList_none,
            List.length_singleton, List.length_nil]
          omega
  | _ => dsimp only <;> repeat' first | rfl | split

/-- The consumer takes a packet off the list only if one is counted: the packet was
accepted and has not been dropped. -/
theorem OccupiedOk.peek (h : OccupiedOk n q exchanged dropped obs p) {xs : List Skb}
    (order : exchanged = dropped ++ xs) (represents : q.Represents xs) :
    OccupiedOk n q.peekStep.1 exchanged dropped obs p := by
  have moved := PrevQueue.peekStep_count (q := q) (fun t deq => ?_)
  · refine ⟨by rw [PrevQueue.peekStep_enq]; exact h.accepted, ?_, h.dropped⟩
    have := h.occupied
    omega
  · obtain ⟨c, chain, rfl⟩ := represents
    have inside := chain.deq
    simp only [PrevQueue.DeqOk, deq] at inside
    refine ⟨inside.1, inside.2, ?_⟩
    have accepted := h.accepted
    have occupied := h.occupied
    cases t with
    | stub => exact absurd rfl inside.1
    | skb y =>
        simp only [order, PrevQueue.held, deq, Node.skb?_skb, Option.toList_some,
          List.length_append, List.length_singleton] at accepted
        simp only [inside.2, Option.toList_none, List.length_nil] at occupied
        omega

/-- `wg_prev_queue_drop_peeked`. -/
theorem OccupiedOk.drop (h : OccupiedOk n q exchanged dropped obs p) (cached : q.peeked = some x) :
    OccupiedOk n q.wgPrevQueueDropPeeked exchanged (dropped ++ [x]) (obs ++ [.drop p x]) p := by
  have accepts : (obs ++ [Obs.drop p x]).count (.accept p) = obs.count (.accept p) := by simp
  refine ⟨by rw [accepts]; exact h.accepted, ?_, ?_⟩
  · rw [accepts, h.occupied]
    simp only [PrevQueue.wgPrevQueueDropPeeked, cached, List.length_append,
      List.length_singleton, Option.toList_some, Option.toList_none, List.length_nil]
    omega
  · rw [List.filterMap_append, ← h.dropped]
    simp [Obs.dropped?]

end Counting

/-- The queue of one peer changes, and the other peers see nothing of it. -/
theorem Occupied.change {q : PrevQueue Skb} {exchanged dropped : List Skb} (h : Occupied s)
    (p : Peer) (more : List Obs)
    (self : OccupiedOk s.nextSkb q exchanged dropped (s.hist.obs ++ more) p)
    (others : ∀ p', p' ≠ p → more.count (.accept p') = 0 ∧
      more.filterMap (Obs.dropped? p') = []) :
    ∀ p', OccupiedOk s.nextSkb (update s.rxQueue p q p')
      (update s.hist.exchanged p exchanged p') (update s.hist.dropped p dropped p')
      (s.hist.obs ++ more) p' := by
  intro p'
  rcases eq_or_ne p' p with rfl | ne
  · simpa only [update_self] using self
  · simpa only [update_of_ne ne] using (h p').append (others p' ne).1 (others p' ne).2

theorem Occupied.setQueue {q : PrevQueue Skb} {exchanged : List Skb} (h : Occupied s) (p : Peer)
    (self : OccupiedOk s.nextSkb q exchanged (s.hist.dropped p) s.hist.obs p) :
    ∀ p', OccupiedOk s.nextSkb (update s.rxQueue p q p')
      (update s.hist.exchanged p exchanged p') (s.hist.dropped p') s.hist.obs p' := by
  have changed := h.change p [] (by rwa [List.append_nil]) (by simp)
  simpa only [List.append_nil, Function.update_eq_self] using changed

/-- The steps of a producer.  The reservation of a place is observable and counted at once,
and the exchange moves the packet from the waiting ones to the history. -/
theorem Occupied.producer (h : Occupied s) (life : Life s) (queues : Queues cfg s)
    (move : ProducerStep cfg s x s') : Occupied s' := by
  have born : ∀ {pc : ProdPc}, s.prod x = pc → pc ≠ .fresh → x < s.nextSkb :=
    fun pc seen => life.born (pc ▸ seen)
  cases move with
  | reject k pc found full => exact fun p => (h p).append (by simp) (by simp [Obs.dropped?])
  | accept k q pc found room =>
      have idle : (s.rxQueue (cfg.peer k)).enq x = .idle := by
        by_contra busy
        simpa [pc] using ((queues.enq _ x).mp busy).1
      have self := (h (cfg.peer k)).reserve (born pc (by simp)) idle room
      simpa using h.change _ _ self fun p' ne => by simp [Obs.dropped?, Ne.symm ne]
  | enqClear k q pc found enq taken =>
      have after := (PrevQueue.enqueueStep_enq taken).2.1 enq
      have self := (h (cfg.peer k)).enqueue (born pc (by simp)) taken (by rw [enq, after]; rfl)
      simpa using h.setQueue _ self
  | enqXchg k q pc found enq taken =>
      have after : q.enq x = .link (s.rxQueue (cfg.peer k)).head := by
        simp only [PrevQueue.enqueueStep, enq, Option.some.injEq] at taken
        simp [← taken]
      have balance : (s.hist.exchanged (cfg.peer k) ++ [x]).length + (q.enq x).waiting =
          (s.hist.exchanged (cfg.peer k)).length +
            ((s.rxQueue (cfg.peer k)).enq x).waiting := by
        simp [enq, after, EnqPc.waiting]
      have self := (h (cfg.peer k)).enqueue (born pc (by simp)) taken balance
      simpa using h.setQueue _ self
  | enqLink k q prev pc found enq taken =>
      have after := (PrevQueue.enqueueStep_enq taken).2.2 prev enq
      have self := (h (cfg.peer k)).enqueue (born pc (by simp)) taken (by rw [enq, after]; rfl)
      simpa using h.setQueue _ self
  | _ => exact h

theorem Occupied.pollStep (h : Occupied s) (queues : Queues cfg s) (cached : Cached s)
    (move : PollStep cfg s p s') : Occupied s' := by
  obtain ⟨xs, order, represents⟩ := queues.order p
  have peeked := (h p).peek order represents
  cases move with
  | peekMore site pc running =>
      simpa using h.setQueue p peeked
  | peekDone site head pc returned =>
      simpa using h.setQueue p peeked
  | drop x st pc =>
      have self := (h p).drop (cached p x (by simp [pc, PollPc.head?]))
      simpa using h.change p _ self fun p' ne => by simp [Obs.dropped?, Ne.symm ne]
  | complete pc => exact fun p => (h p).append (by simp) (by simp [Obs.dropped?])
  | _ => exact h

/-- A packet that has not arrived is not being enqueued. -/
theorem Occupied.receive (h : Occupied s) (life : Life s) (queues : Queues cfg s) (p : Peer) :
    OccupiedOk (s.nextSkb + 1) (s.rxQueue p) (s.hist.exchanged p) (s.hist.dropped p)
      s.hist.obs p := by
  have idle : (s.rxQueue p).enq s.nextSkb = .idle := by
    by_contra busy
    have := ((queues.enq p _).mp busy).1
    simp [life.fresh s.nextSkb le_rfl] at this
  refine ⟨?_, (h p).occupied, (h p).dropped⟩
  rw [Finset.sum_range_succ, idle]
  exact (h p).accepted

theorem Occupied.step {a : Action} (h : Occupied s) (life : Life s) (queues : Queues cfg s)
    (cached : Cached s) (move : Transition cfg s a s') : Occupied s' := by
  cases move with
  | producer move => exact h.producer life queues move
  | complete k found move =>
      cases move with
      | schedule pc => exact fun p => (h p).append (by simp) (by simp [Obs.dropped?])
      | _ => exact h
  | worker present move => cases move <;> exact h
  | poll present move => exact h.pollStep queues cached move
  | timer is move =>
      cases move with
      | wake cb => exact fun p => (h p).append (by simp) (by simp [Obs.dropped?])
      | _ => exact h
  | remove present move => cases move <;> exact h
  | env move =>
      cases move with
      | receive => exact h.receive life queues
      | _ => exact h

/-- **The accepted packets of a peer are those counted, cached or dropped**, in every run.
-/
theorem Reachable.occupied (reach : Reachable cfg knobs ok s) : Occupied s :=
  reach.invariant (fun p => ⟨by simp [State.init, History.start, PrevQueue.wgPrevQueueInit,
      EnqPc.waiting], rfl, rfl⟩)
    fun _ _ _ reach h _ taken => h.step (Reachable.life reach) (Reachable.queues reach)
      (Reachable.headCached reach) (step_cases taken)

end WgReceivePath
