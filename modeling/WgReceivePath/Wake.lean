import WgReceivePath.Poll

/-!
# No wake is lost

A peer whose queue holds packets must have a wake coming: its NAPI is scheduled, or a
completion of one of its packets is on its way to `napi_schedule`, or its coalescing timer
will fire.  This module states that as an invariant of one peer (`WakeOk`), by the phase its
poll is in, and proves it for every run in which

* a poll that completes with `wg_headwake` off leaves no stale `rx_blocked_on` behind
  (`HeadwakeOk`), and
* no `hrtimer_try_to_cancel` takes away a timer that `rx_timer_armed` still promises
  (`CancelOk`).

## Main definitions

* `Waker b pc x` : the completion of `x` will wake a poll that is parked on `b`: it has not
  yet read `rx_blocked_on` and would find nothing or its own packet there, or it is already
  on its way.
* `Awake` : a wake is on its way, by `MISSED`, by the timer or by a waker among the peer's
  packets.
* `Phase` : *free*, while the poll delivers; *soft*, after its delivery loop has stopped,
  when a wake is owed only if producers see `rx_blocked_on = NULL`; *fresh*, right after it
  has published its head and before it has looked again; and *hard*, when it is ready to go
  to sleep.  A sleeping poll is in the hard phase, unless it is scheduled.
* `SleepOk` : what each phase guarantees, with the notion of a wake a parameter.  `WakeOk`
  is the instance in which the wakes are those of `Awake`; the removal of a peer takes
  another.

## What carries the proof

The two sides meet in one memory access each.  A producer exchanges its packet into the
queue before its completion reads `rx_blocked_on`, and the poll publishes `rx_blocked_on`
before it looks at the queue once more: whichever comes second sees the other
(`WakeOk.exchange` on the one side, `SleepOf.null` and `SleepOf.readState` on the other).
What a poll relies on when it goes to sleep is written down once, as `Wakes`: a head that is
`UNCRYPTED` has a completion that will wake it, and so has a packet that is still
half-linked, and `SleepOf.pollStep` uses nothing else of the other contexts.  The dequeue
that has seen the last packet of the list and finds more behind it (`SleepOk.head`) is the
one place where a wake is owed from within a peek.

`WakeOf.step` is the step over all contexts, and `Reachable.wake` the run.
-/

namespace WgReceivePath

open Function (update update_self update_of_ne)

variable {cfg : Config} {s s' : State} {x : Skb} {p : Peer}

/-! ## Wakes that are on their way

A completion wakes the poll or finds that it need not.  Which of the two depends on a read
of `rx_blocked_on` that may still be ahead, so that a wake on its way is a statement about
the present value of the pointer. -/

/-- The completion has still to decide whether to wake the poll.  With `wg_headwake` on it
will look at `rx_blocked_on`. -/
def RxPc.undecided : RxPc → Bool
  | .unqueued | .ring | .decrypt | .get | .store | .gate | .readBlocked => true
  | _ => false

/-- The completion goes on to `napi_schedule` or to the timer, whatever `rx_blocked_on` is
now. -/
def RxPc.waking : RxPc → Bool
  | .trigGate | .count | .xchgArmed | .tryCancel | .cmpxchgArmed | .startTimer => true
  | .schedule => true
  | _ => false

/-- The completion of `x`, at `pc`, will wake a poll that is parked on `b`.  A completion
that has still to decide wakes a poll that has published nothing, or this packet. -/
def Waker (b : Option Skb) (pc : RxPc) (x : Skb) : Prop :=
  pc.undecided = true ∧ (b = none ∨ b = some x) ∨ pc.waking = true

/-- A wake is on its way: by `MISSED`, by the timer, or by a completion of one of
the peer's packets `exch`. -/
def Awake (missed : Bool) (rx : Skb → RxFrame) (exch : List Skb) (b : Option Skb)
    (timer : Timer) : Prop :=
  missed = true ∨ timer.pending = true ∨ timer.cb ≠ .idle ∨
    ∃ x ∈ exch, Waker b (rx x).pc x

theorem Awake.of_missed {rx : Skb → RxFrame} {exch : List Skb} {b : Option Skb}
    {timer : Timer} : Awake true rx exch b timer := .inl rfl

theorem Awake.of_pending {missed : Bool} {rx : Skb → RxFrame} {exch : List Skb}
    {b : Option Skb} {timer : Timer} (pending : timer.pending = true) :
    Awake missed rx exch b timer := .inr (.inl pending)

theorem Awake.of_waker {missed : Bool} {rx : Skb → RxFrame} {exch : List Skb}
    {b : Option Skb} {timer : Timer} (mem : x ∈ exch) (waker : Waker b (rx x).pc x) :
    Awake missed rx exch b timer := .inr (.inr (.inr ⟨x, mem, waker⟩))

/-- Wakes stay on their way while every waker goes on waking. -/
theorem Awake.mono {missed : Bool} {rx rx' : Skb → RxFrame} {exch exch' : List Skb}
    {b : Option Skb} {timer : Timer} (h : Awake missed rx exch b timer)
    (keep : ∀ y ∈ exch, Waker b (rx y).pc y → y ∈ exch' ∧ Waker b (rx' y).pc y) :
    Awake missed rx' exch' b timer := by
  rcases h with missed | pending | cb | ⟨y, mem, waker⟩
  · exact .inl missed
  · exact .inr (.inl pending)
  · exact .inr (.inr (.inl cb))
  · obtain ⟨mem', waker'⟩ := keep y mem waker
    exact .of_waker mem' waker'

/-- One packet's completion goes on, still waking if it was. -/
theorem Awake.setRx {missed : Bool} {rx : Skb → RxFrame} {exch : List Skb}
    {b : Option Skb} {timer : Timer} {f : RxFrame} (h : Awake missed rx exch b timer)
    (keep : Waker b (rx x).pc x → Waker b f.pc x) :
    Awake missed (update rx x f) exch b timer := by
  refine h.mono fun y mem waker => ⟨mem, ?_⟩
  rcases eq_or_ne y x with rfl | ne
  · simpa using keep waker
  · simpa [ne] using waker

/-! ## The invariant of one peer

By the phase of the poll.  While it delivers nothing is owed; from the end of its delivery
loop on the phases say what is owed and to whom it is visible. -/

/-- Phases of the poll, as far as wakes are concerned.  They are read off the program point
(`PollPc.phase`). -/
inductive Phase where
  | parked
  | free
  | soft
  | fresh
  | hard

/-- The phase of a program point.  The stealing loop and the diagnostics are soft: the poll
has found no deliverable head but has not published one either. -/
def PollPc.phase : PollPc → Phase
  | .idle => .parked
  | .entry | .peek .deliver | .readState .deliver _ | .dropPeeked _ _ | .validate _ => .free
  | .endpoint _ | .consume _ | .routedPut _ _ | .keypairPut _ | .peerPut _ => .free
  | .stealUnblocked => .free
  | .stealGate | .stealWhile | .peek .stealHead | .readState .stealHead _ => .soft
  | .stealConsume | .stealBusy _ | .stealEnd | .peek .stealDone | .stealStat _ => .soft
  | .readState .stealDone _ | .diagClose | .diagGate | .peek .diag | .diagMiss _ => .soft
  | .readState .diag _ | .diagClass _ | .stallFlip _ | .stallOpen _ | .headwakeGate => .soft
  | .peek .publish | .readState .publish _ | .publishStore _ => .soft
  | .peek .recheck | .readState .recheck _ | .recheckSet => .fresh
  | .peek .suppRecheck | .readState .suppRecheck _ | .suppSet => .fresh
  | .suppGate | .peek .supp | .readState .supp _ | .suppTest | .suppClear => .hard
  | .suppCount | .complete => .hard

/-- What a sleeping poll may leave behind in `rx_blocked_on`: nothing, or the packet that it
has cached, which is then the head of the queue. -/
def Published (b : Option Skb) (q : PrevQueue Skb) : Prop := b = none ∨ b = q.peeked

/-- What each phase guarantees.  In the soft phase it is conditional: as long as
`rx_blocked_on` is `NULL`, the packets that came in since have completions that will wake
the poll. -/
def PhaseOk (budget : ℕ) (frame : PollFrame) (q : PrevQueue Skb) (queued : List Skb)
    (b : Option Skb) (sched : Bool) (awake : Prop) : Prop :=
  match frame.pc.phase with
  | .parked => sched = true ∨ Published b q ∧ (queued = [] ∨ awake)
  | .free => True
  | .soft => frame.workDone < budget → b = none → queued = [] ∨ awake
  | .fresh => Published b q
  | .hard => Published b q ∧ (queued = [] ∨ awake)

/-- What a poll that goes to sleep leaves behind, where `wake` says that a wake is on
its way. -/
structure SleepOk (budget : ℕ) (frame : PollFrame) (q : PrevQueue Skb) (queued : List Skb)
    (b : Option Skb) (sched : Bool) (wake : Prop) : Prop where
  /-- a dequeue that saw the last packet of the list and then finds more behind it
  owes these to producers that saw the published `NULL` -/
  head : ∀ t, q.deq = .head t → b = none → queued.length ≤ 1 ∨ wake
  phase : PhaseOk budget frame q queued b sched wake

/-- `rx_timer_armed` promises a timer that is pending, about to clear it, or about
to be started by one of the peer's completions. -/
def ArmedOk (armed : Bool) (rx : Skb → RxFrame) (exch : List Skb) (timer : Timer) : Prop :=
  armed = true → timer.pending = true ∨ timer.cb = .clear ∨
    ∃ x ∈ exch, (rx x).pc = .startTimer

/-- **No wake of the peer is lost.**  A peer with packets in its queue and no poll running
has a wake on its way, its NAPI is not disabled, and `rx_timer_armed` promises a timer that
is there. -/
structure WakeOk (budget : ℕ) (frame : PollFrame) (q : PrevQueue Skb)
    (queued exch : List Skb) (b : Option Skb) (napi : Napi) (rx : Skb → RxFrame)
    (armed : Bool) (timer : Timer) : Prop
    extends SleepOk budget frame q queued b napi.sched (Awake napi.missed rx exch b timer)
    where
  enabled : napi.disable = false
  armed : ArmedOk armed rx exch timer

section Peer

variable {budget : ℕ} {frame frame' : PollFrame} {q q' : PrevQueue Skb}
  {queued queued' exch exch' : List Skb} {b : Option Skb} {napi : Napi}
  {rx rx' : Skb → RxFrame} {armed armed' : Bool} {timer timer' : Timer} {awake awake' : Prop}

theorem PhaseOk.mono {sched : Bool} (h : PhaseOk budget frame q queued b sched awake)
    (keep : awake → queued = [] ∨ awake') : PhaseOk budget frame q queued b sched awake' := by
  have covered : queued = [] ∨ awake → queued = [] ∨ awake' := fun now => now.elim .inl keep
  unfold PhaseOk at h ⊢
  cases phase : frame.pc.phase with
  | parked =>
      rw [phase] at h
      exact h.imp_right fun rest => ⟨rest.1, covered rest.2⟩
  | free => trivial
  | soft =>
      rw [phase] at h
      exact fun room none => covered (h room none)
  | fresh =>
      rw [phase] at h
      exact h
  | hard =>
      rw [phase] at h
      exact ⟨h.1, covered h.2⟩

/-- Whatever the phase, a wake on its way is enough once `rx_blocked_on` is as a
sleeping poll leaves it. -/
theorem PhaseOk.of_awake {sched : Bool} (h : PhaseOk budget frame q queued b sched awake)
    (now : awake') : PhaseOk budget frame q queued' b sched awake' := by
  unfold PhaseOk at h ⊢
  cases phase : frame.pc.phase with
  | parked =>
      rw [phase] at h
      exact h.imp_right fun rest => ⟨rest.1, .inr now⟩
  | free => trivial
  | soft => exact fun _ _ => .inr now
  | fresh =>
      rw [phase] at h
      exact h
  | hard =>
      rw [phase] at h
      exact ⟨h.1, .inr now⟩

/-- Another reason to expect a wake. -/
theorem SleepOk.mono {sched : Bool} (h : SleepOk budget frame q queued b sched awake)
    (keep : awake → queued = [] ∨ awake') : SleepOk budget frame q queued b sched awake' := by
  refine ⟨fun t deq none => ?_, h.phase.mono keep⟩
  rcases h.head t deq none with short | now
  · exact .inl short
  · rcases keep now with empty | now
    · exact .inl (by simp [empty])
    · exact .inr now

/-- Producers change neither the cache nor the dequeue in progress. -/
theorem SleepOk.setQueue {sched : Bool} (h : SleepOk budget frame q queued b sched awake)
    (same : q'.peeked = q.peeked ∧ q'.deq = q.deq) :
    SleepOk budget frame q' queued b sched awake := by
  refine ⟨fun t deq => h.head t (same.2 ▸ deq), ?_⟩
  have phase := h.phase
  unfold PhaseOk Published at phase ⊢
  rwa [same.1]

/-- The poll moves on outside `wg_prev_queue_peek`. -/
theorem SleepOk.setFrame {sched : Bool} (frame' : PollFrame) (q' : PrevQueue Skb)
    (queued' : List Skb) (idle : q'.deq = .idle)
    (phase : PhaseOk budget frame' q' queued' b sched awake) :
    SleepOk budget frame' q' queued' b sched awake :=
  ⟨fun t deq => by simp [idle] at deq, phase⟩

/-- The poll moves on within its phase. -/
theorem SleepOk.stay {sched : Bool} (h : SleepOk budget frame q queued b sched awake)
    (frame' : PollFrame) (idle : q.deq = .idle) (same : frame'.pc.phase = frame.pc.phase)
    (workDone : frame'.workDone = frame.workDone) :
    SleepOk budget frame' q queued b sched awake := by
  refine .setFrame _ _ _ idle ?_
  have phase := h.phase
  unfold PhaseOk at phase ⊢
  rwa [same, workDone]

/-- The poll moves to the free phase. -/
theorem SleepOk.toFree {sched : Bool} (frame' : PollFrame) (q' : PrevQueue Skb)
    (queued' : List Skb) (idle : q'.deq = .idle) (free : frame'.pc.phase = .free) :
    SleepOk budget frame' q' queued' b sched awake :=
  .setFrame _ _ _ idle (by simp [PhaseOk, free])

/-- Completions of the peer go on. -/
theorem WakeOk.mono (h : WakeOk budget frame q queued exch b napi rx armed timer)
    (rx' : Skb → RxFrame) (armed' : Bool) (timer' : Timer) (armed : ArmedOk armed' rx' exch timer')
    (keep : Awake napi.missed rx exch b timer → Awake napi.missed rx' exch b timer') :
    WakeOk budget frame q queued exch b napi rx' armed' timer' :=
  ⟨h.toSleepOk.mono fun now => .inr (keep now), h.enabled, armed⟩

/-- A packet is exchanged into the queue.  If producers see `NULL` published, the
packet's own completion will wake the poll; if not, the queue was not empty, and
a wake was on its way before. -/
theorem WakeOk.exchange (h : WakeOk budget frame q queued exch b napi rx armed timer)
    (same : q'.peeked = q.peeked ∧ q'.deq = q.deq)
    (undecided : (rx x).pc.undecided = true)
    (nonempty : q.peeked ≠ none → queued ≠ []) :
    WakeOk budget frame q' (queued ++ [x]) (exch ++ [x]) b napi rx armed timer := by
  have keep : Awake napi.missed rx exch b timer → Awake napi.missed rx (exch ++ [x]) b timer :=
    fun now => now.mono fun y mem waker => ⟨List.mem_append_left _ mem, waker⟩
  have own : b = none → Awake napi.missed rx (exch ++ [x]) b timer := fun none =>
    .of_waker (x := x) (by simp) (.inl ⟨undecided, .inl none⟩)
  refine ⟨⟨fun t _ none => .inr (own none), ?_⟩, h.enabled, fun on => ?_⟩
  · -- in the two phases that end with a sleeping poll
    have asleep : Published b q ∧ (queued = [] ∨ Awake napi.missed rx exch b timer) →
        Published b q' ∧ (queued ++ [x] = [] ∨ Awake napi.missed rx (exch ++ [x]) b timer) := by
      rintro ⟨published, covered⟩
      refine ⟨by simpa [Published, same.1] using published, .inr ?_⟩
      by_cases none : b = none
      · exact own none
      · have some : b = q.peeked := published.resolve_left none
        rcases covered with empty | now
        · exact absurd empty (nonempty (some ▸ none))
        · exact keep now
    have phase := h.phase
    unfold PhaseOk at phase ⊢
    cases here : frame.pc.phase with
    | parked =>
        rw [here] at phase
        exact phase.imp_right asleep
    | free => trivial
    | soft => exact fun _ none => .inr (own none)
    | fresh =>
        rw [here] at phase
        simpa [Published, same.1] using phase
    | hard =>
        rw [here] at phase
        exact asleep phase
  · rcases h.armed on with pending | cb | ⟨y, mem, pc⟩
    · exact .inl pending
    · exact .inr (.inl cb)
    · exact .inr (.inr ⟨y, List.mem_append_left _ mem, pc⟩)

/-- `napi_schedule`: a sleeping poll is scheduled, a running one gets `MISSED`. -/
theorem WakeOk.schedule (h : WakeOk budget frame q queued exch b napi rx armed timer)
    (poll : PollOk budget frame q napi) (armed : ArmedOk armed' rx' exch timer') :
    WakeOk budget frame q queued exch b napi.schedule rx' armed' timer' := by
  have on : napi.schedule = { napi with sched := true, missed := napi.missed || napi.sched } := by
    simp [Napi.schedule, h.enabled]
  rw [on]
  cases sched : napi.sched with
  | true =>
      rw [Bool.or_true]
      have now : Awake true rx' exch b timer' := .of_missed
      have phase : PhaseOk budget frame q queued b napi.sched
          (Awake true rx' exch b timer') := h.phase.of_awake now
      rw [sched] at phase
      exact ⟨⟨fun _ _ _ => .inr now, phase⟩, h.enabled, armed⟩
  | false =>
      have idle : frame.pc = .idle := by
        by_contra busy
        simpa [sched] using poll.sched busy
      refine ⟨⟨fun t deq => ?_, by simp [PhaseOk, idle, PollPc.phase]⟩, h.enabled, armed⟩
      simp [poll.deq (by simp [idle, PollPc.peeking])] at deq

end Peer

/-! ## The steps of the other contexts

Producers add packets behind what the poll has seen, and the completion of the new packet
becomes the waker.  Completions move towards their wake, and the one that performs it sets
`SCHED` or `MISSED`. -/

/-- `WakeOk` of a peer in a state. -/
abbrev WakeOf (cfg : Config) (s : State) (p : Peer) : Prop :=
  WakeOk cfg.budget (s.poll p) (s.rxQueue p) (s.queued p) (s.hist.exchanged p)
    (s.blockedOn p) (s.napi p) s.rx (s.armed p) (s.timer p)

/-- A completion that is not about to start the timer goes on. -/
theorem ArmedOk.setRx {armed : Bool} {rx : Skb → RxFrame} {exch : List Skb} {timer : Timer}
    {f : RxFrame} (h : ArmedOk armed rx exch timer) (pc : (rx x).pc ≠ .startTimer) :
    ArmedOk armed (update rx x f) exch timer := by
  intro on
  rcases h on with pending | cb | ⟨y, mem, start⟩
  · exact .inl pending
  · exact .inr (.inl cb)
  · have ne : y ≠ x := by
      rintro rfl
      exact pc start
    exact .inr (.inr ⟨y, mem, by simpa [ne] using start⟩)

/-- A completion that is not about to start the timer goes on, still waking if it
was. -/
theorem WakeOk.setRx {budget : ℕ} {frame : PollFrame} {q : PrevQueue Skb}
    {queued exch : List Skb} {b : Option Skb} {napi : Napi} {rx : Skb → RxFrame}
    {armed : Bool} {timer : Timer} {f : RxFrame}
    (h : WakeOk budget frame q queued exch b napi rx armed timer)
    (pc : (rx x).pc ≠ .startTimer) (keep : Waker b (rx x).pc x → Waker b f.pc x) :
    WakeOk budget frame q queued exch b napi (update rx x f) armed timer :=
  h.mono _ _ _ (h.armed.setRx pc) fun now => now.setRx keep

/-- An undecided completion goes on to an undecided point. -/
theorem WakeOk.undecided {budget : ℕ} {frame : PollFrame} {q : PrevQueue Skb}
    {queued exch : List Skb} {b : Option Skb} {napi : Napi} {rx : Skb → RxFrame}
    {armed : Bool} {timer : Timer} {f : RxFrame}
    (h : WakeOk budget frame q queued exch b napi rx armed timer)
    (before : (rx x).pc.undecided = true) (after : f.pc.undecided = true) :
    WakeOk budget frame q queued exch b napi (update rx x f) armed timer := by
  refine h.setRx (fun start => by simp [start, RxPc.undecided] at before) ?_
  rintro (⟨-, seen⟩ | waking)
  · exact .inl ⟨after, seen⟩
  · cases pc : (rx x).pc <;> simp_all [RxPc.undecided, RxPc.waking]

theorem WakeOf.setQueue {q : PrevQueue Skb} (h : WakeOf cfg s p) (p' : Peer)
    (same : q.peeked = (s.rxQueue p').peeked ∧ q.deq = (s.rxQueue p').deq) :
    WakeOk cfg.budget (s.poll p) (update s.rxQueue p' q p) (s.queued p)
      (s.hist.exchanged p) (s.blockedOn p) (s.napi p) s.rx (s.armed p) (s.timer p) := by
  rcases eq_or_ne p p' with rfl | ne
  · have kept := h.toSleepOk.setQueue same
    exact ⟨by simpa using kept, h.enabled, h.armed⟩
  · simpa [ne] using h

/-- The steps of a producer.  Its exchange gives the queue a packet, and the packet's
completion, which is still to come, is the wake for it. -/
theorem WakeOf.producer (h : WakeOf cfg s p) (life : Life s) (queues : Queues cfg s)
    (move : ProducerStep cfg s x s') : WakeOf cfg s' p := by
  have packet := life.packet x
  cases move with
  | accept k q pc found room => exact WakeOf.setQueue h _ (PrevQueue.reserve_peeked room)
  | enqClear k q pc found enq taken =>
      exact WakeOf.setQueue h _ (PrevQueue.enqueueStep_peeked taken)
  | enqLink k q prev pc found enq taken =>
      exact WakeOf.setQueue h _ (PrevQueue.enqueueStep_peeked taken)
  | enqXchg k q pc found enq taken =>
      rcases eq_or_ne p (cfg.peer k) with rfl | ne
      · obtain ⟨order, represents⟩ := queues.represents (cfg.peer k)
        have unqueued := packet.unqueued_of (by simp [pc, ProdPc.produced])
        have exchanged := WakeOk.exchange (x := x) h (PrevQueue.enqueueStep_peeked taken)
          (by simp [unqueued, RxPc.undecided]) (fun cached empty => by
            obtain ⟨y, head⟩ := Option.ne_none_iff_exists'.mp cached
            obtain ⟨-, rest, cons⟩ := represents.peeked_eq_some head
            simp [empty] at cons)
        have le : (s.hist.dropped (cfg.peer k)).length ≤
            (s.hist.exchanged (cfg.peer k)).length := by
          rw [order]
          simp
        simpa [WakeOf, State.queued, List.drop_append_of_le_length le] using exchanged
      · simpa [WakeOf, State.queued, ne] using h
  | produce k c pc found room =>
      have unqueued := packet.unqueued_of (by simp [pc, ProdPc.produced])
      exact WakeOk.undecided h (by simp [unqueued, RxPc.undecided]) rfl
  | ringFull k c pc found full =>
      have unqueued := packet.unqueued_of (by simp [pc, ProdPc.produced])
      exact WakeOk.undecided h (by simp [unqueued, RxPc.undecided]) rfl
  | _ => exact h

/-- A packet that is taken over is in its peer's history. -/
theorem mem_exchanged_of_taken {k : Keypair} (life : Life s) (queues : Queues cfg s)
    (found : s.keypair x = some k) (taken : (s.rx x).pc.taken = true) :
    x ∈ s.hist.exchanged (cfg.peer k) := by
  have produced : (s.prod x).produced = true := by
    by_contra early
    have := (life.packet x).unqueued_of (by simpa using early)
    simp [this, RxPc.taken] at taken
  refine (queues.mem _ x).mpr ⟨by simp [found], .inl ?_⟩
  cases pc : s.prod x <;> simp_all [ProdPc.produced, ProdPc.queued]

/-- What a completion does to another peer's wake. -/
theorem WakeOf.elsewhere {k : Keypair} (h : WakeOf cfg s p) (queues : Queues cfg s)
    (found : s.keypair x = some k) (ne : p ≠ cfg.peer k) (f : RxFrame) :
    WakeOk cfg.budget (s.poll p) (s.rxQueue p) (s.queued p) (s.hist.exchanged p)
      (s.blockedOn p) (s.napi p) (update s.rx x f) (s.armed p) (s.timer p) := by
  have same : ∀ y ∈ s.hist.exchanged p, update s.rx x f y = s.rx y := by
    intro y mem
    refine update_of_ne ?_ _ _
    rintro rfl
    have := ((queues.mem p y).mp mem).1
    simp [found, ne.symm] at this
  refine h.mono _ _ _ (fun on => ?_) fun now => now.mono fun y mem waker =>
    ⟨mem, by rwa [same y mem]⟩
  rcases h.armed on with pending | cb | ⟨y, mem, start⟩
  · exact .inl pending
  · exact .inr (.inl cb)
  · exact .inr (.inr ⟨y, mem, by rwa [same y mem]⟩)

/-- A completion of the peer's own packet.  Its steps go on waking, or hand the wake over:
to the NAPI, or to the timer.  `promised` is the one assumption: where it cancels a timer,
no other completion relies on it. -/
theorem WakeOf.complete {k : Keypair} (h : WakeOf cfg s (cfg.peer k)) (life : Life s)
    (queues : Queues cfg s) (polls : Polls cfg s) (found : s.keypair x = some k)
    (promised : (s.rx x).pc = .tryCancel → (s.timer (cfg.peer k)).pending = true →
      (s.timer (cfg.peer k)).cb = .idle → s.armed (cfg.peer k) = true →
      ∃ y ∈ s.hist.exchanged (cfg.peer k), (s.rx y).pc = .startTimer)
    (move : RxStep cfg s x k s') : WakeOf cfg s' (cfg.peer k) := by
  have mem : (s.rx x).pc.taken = true → x ∈ s.hist.exchanged (cfg.peer k) :=
    mem_exchanged_of_taken life queues found
  cases move with
  | decrypt valid st pc verdict =>
      exact WakeOk.undecided h (by simp [pc, RxPc.undecided]) rfl
  | get pc => exact WakeOk.undecided h (by simp [pc, RxPc.undecided]) rfl
  | store pc => exact WakeOk.undecided h (by simp [pc, RxPc.undecided]) rfl
  | gateHead pc on crypted => exact WakeOk.undecided h (by simp [pc, RxPc.undecided]) rfl
  | gateStock pc stock => exact WakeOk.setRx h (by simp [pc]) fun _ => .inr rfl
  | blockedWake pc hit => exact WakeOk.setRx h (by simp [pc]) fun _ => .inr rfl
  | blockedSilent b pc parked miss =>
      -- the poll is parked on another packet, so this completion was no waker
      refine WakeOk.setRx h (by simp [pc]) fun waker => ?_
      rcases waker with ⟨-, none | some⟩ | waking
      · simp [parked] at none
      · exact absurd (by simp_all) miss
      · simp [pc, RxPc.waking] at waking
  | trigStock pc stock => exact WakeOk.setRx h (by simp [pc]) fun _ => .inr rfl
  | trigCount pc on crypted => exact WakeOk.setRx h (by simp [pc]) fun _ => .inr rfl
  | count pc next branch =>
      refine WakeOk.setRx h (by simp [pc]) fun _ => .inr ?_
      subst branch
      dsimp only
      split <;> rfl
  | xchgArmed pc next branch =>
      have waking : next.waking = true := by
        subst branch
        split <;> rfl
      have disarmed := WakeOk.mono h (update s.rx x { s.rx x with pc := next }) false
        (s.timer (cfg.peer k)) (by simp [ArmedOk]) fun now => now.setRx fun _ => .inr waking
      simpa [WakeOf, State.queued] using disarmed
  | tryCancel pc =>
      have own := mem (by simp [pc, RxPc.taken])
      have armed : ArmedOk (s.armed (cfg.peer k))
          (update s.rx x { s.rx x with pc := .schedule }) (s.hist.exchanged (cfg.peer k))
          (s.timer (cfg.peer k)).tryToCancel := by
        intro on
        by_cases idle : (s.timer (cfg.peer k)).cb = .idle
        · have start : ∃ y ∈ s.hist.exchanged (cfg.peer k), (s.rx y).pc = .startTimer := by
            rcases h.armed on with pending | cb | start
            · exact promised pc pending idle on
            · simp [idle] at cb
            · exact start
          obtain ⟨y, memy, start⟩ := start
          have ne : y ≠ x := by
            rintro rfl
            simp [pc] at start
          exact .inr (.inr ⟨y, memy, by simpa [ne] using start⟩)
        · have same : (s.timer (cfg.peer k)).tryToCancel = s.timer (cfg.peer k) := by
            simp [Timer.tryToCancel, idle]
          rw [same]
          exact h.armed.setRx (by simp [pc]) on
      have cancelled := WakeOk.mono h _ _ _ armed
        (fun _ => .of_waker own (by simp [Waker, RxPc.waking]))
      simpa [WakeOf, State.queued] using cancelled
  | casLost pc held =>
      -- whoever holds the flag has a timer coming
      have armed := h.armed.setRx (x := x) (f := { s.rx x with pc := .put }) (by simp [pc])
      have now : Awake (s.napi (cfg.peer k)).missed (update s.rx x { s.rx x with pc := .put })
          (s.hist.exchanged (cfg.peer k)) (s.blockedOn (cfg.peer k))
          (s.timer (cfg.peer k)) := by
        rcases armed held with pending | cb | ⟨y, memy, start⟩
        · exact .of_pending pending
        · exact .inr (.inr (.inl (by simp [cb])))
        · exact .of_waker memy (.inr (by simp [start, RxPc.waking]))
      simpa [WakeOf, State.queued, held] using WakeOk.mono h _ _ _ armed fun _ => now
  | casWon pc free =>
      have own := mem (by simp [pc, RxPc.taken])
      have won := WakeOk.mono h (update s.rx x { s.rx x with pc := .startTimer }) true
        (s.timer (cfg.peer k)) (fun _ => .inr (.inr ⟨x, own, by simp⟩))
        fun now => now.setRx fun _ => .inr rfl
      simpa [WakeOf, State.queued] using won
  | startTimer pc =>
      have started := WakeOk.mono h (update s.rx x { s.rx x with pc := .put })
        (s.armed (cfg.peer k)) (s.timer (cfg.peer k)).start
        (fun _ => .inl rfl) fun _ => .of_pending rfl
      simpa [WakeOf, State.queued] using started
  | schedule pc =>
      have scheduled := WakeOk.schedule h (polls _)
        (h.armed.setRx (x := x) (f := { s.rx x with pc := .put }) (by simp [pc]))
      simpa [WakeOf, State.queued] using scheduled
  | put pc =>
      refine WakeOk.setRx h (by simp [pc]) fun waker => ?_
      simp [Waker, pc, RxPc.undecided, RxPc.waking] at waker

/-! ## The steps of the peer's poll

What the poll sees when it finds nothing to deliver: an empty queue, a half-linked packet,
or a head that is not decrypted.  In the last two cases a completion is still ahead of its
decision, and will wake it. -/

theorem undecided_of_uncrypted (life : Life s) (uncrypted : s.state x = .uncrypted) :
    (s.rx x).pc.undecided = true := by
  have packet := life.packet x
  have early : (s.rx x).pc.stored = false := by
    by_contra stored
    have stored : (s.rx x).pc.stored = true := by simpa using stored
    have state := packet.state
    rw [if_pos stored, uncrypted] at state
    exact packet.verdict (RxPc.decided_of_stored stored) state.symm
  cases pc : (s.rx x).pc <;> simp_all [RxPc.stored, RxPc.undecided]

/-- The completion of an `UNCRYPTED` head will wake a poll that sleeps on it. -/
theorem awake_of_uncrypted (life : Life s) (queues : Queues cfg s)
    (cached : (s.rxQueue p).peeked = some x) (uncrypted : s.state x = .uncrypted)
    (published : Published (s.blockedOn p) (s.rxQueue p)) :
    Awake (s.napi p).missed s.rx (s.hist.exchanged p) (s.blockedOn p) (s.timer p) := by
  obtain ⟨order, represents⟩ := queues.represents p
  obtain ⟨-, rest, cons⟩ := represents.peeked_eq_some cached
  have mem : x ∈ s.hist.exchanged p := by
    rw [order, cons]
    simp
  refine .of_waker mem (.inl ⟨undecided_of_uncrypted life uncrypted, ?_⟩)
  rwa [← cached]

/-- The completion of a packet that its producer has still to link will wake a poll
that has published `NULL`. -/
theorem awake_of_halfLinked (life : Life s) (queues : Queues cfg s)
    (half : (s.rxQueue p).HalfLinked) (none : s.blockedOn p = none) :
    Awake (s.napi p).missed s.rx (s.hist.exchanged p) (s.blockedOn p) (s.timer p) := by
  obtain ⟨y, prev, link⟩ := half
  obtain ⟨pc, peer⟩ := (queues.enq p y).mp (by simp [link])
  have unqueued := (life.packet y).unqueued_of (by simp [pc, ProdPc.produced])
  have mem : y ∈ s.hist.exchanged p := (queues.mem p y).mpr ⟨peer, .inr ⟨prev, link⟩⟩
  exact .of_waker mem (.inl ⟨by simp [unqueued, RxPc.undecided], .inl none⟩)

/-- A peek keeps what was published: it changes the cache only if that was empty. -/
theorem Published.peek {b : Option Skb} {q : PrevQueue Skb} {xs : List Skb}
    (h : Published b q) (represents : q.Represents xs) : Published b q.peekStep.1 := by
  rcases h with none | same
  · exact .inl none
  · cases cached : q.peeked with
    | none => exact .inl (same.trans cached)
    | some x =>
        rw [peekStep_of_cached represents cached]
        exact .inr same

/-! ### Sleeping polls, whatever wakes them -/

/-- The poll of `p` leaves a wake behind when it goes to sleep, where `W` says from
`NAPI_STATE_MISSED` and `rx_blocked_on` whether there is one.  The lemmas of this section
are about any such `W`. -/
abbrev SleepOf (cfg : Config) (s : State) (p : Peer) (W : Bool → Option Skb → Prop) : Prop :=
  SleepOk cfg.budget (s.poll p) (s.rxQueue p) (s.queued p) (s.blockedOn p) (s.napi p).sched
    (W (s.napi p).missed (s.blockedOn p))

/-- What the poll relies on: the wakes of the packets it goes to sleep on.  `MISSED` is
always a wake, since the poll is then called once more. -/
structure Wakes (s : State) (p : Peer) (W : Bool → Option Skb → Prop) : Prop where
  missed : ∀ b, W true b
  uncrypted : ∀ x, (s.rxQueue p).peeked = some x → s.state x = .uncrypted →
    Published (s.blockedOn p) (s.rxQueue p) → W (s.napi p).missed (s.blockedOn p)
  halfLinked : (s.rxQueue p).HalfLinked → s.blockedOn p = none →
    W (s.napi p).missed (s.blockedOn p)

variable {W : Bool → Option Skb → Prop}

/-- A poll that has published `NULL` and peeks in vain sleeps on an empty queue, or
a wake is on its way. -/
theorem SleepOf.null (h : SleepOf cfg s p W) (wakes : Wakes s p W) (queues : Queues cfg s)
    (returned : (s.rxQueue p).peekStep.2 = some none) (none : s.blockedOn p = none) :
    s.queued p = [] ∨ W (s.napi p).missed (s.blockedOn p) := by
  have represents := (queues.represents p).2
  rcases (PrevQueue.peekStep_null represents returned).2 with empty | half | ⟨t, deq, moved⟩
  · exact .inl empty
  · exact .inr (wakes.halfLinked half none)
  · refine .inr ((h.head t deq none).resolve_left fun short => ?_)
    exact moved (represents.head_eq short deq)

/-- A poll that completes with `wg_headwake` off has no head published: every
producer that will see `wg_headwake` on then finds `NULL`. -/
def HeadwakeOk (p : Peer) (s : State) : Action → Prop
  | .poll p' _ => p' = p → (s.poll p).pc = .headwakeGate → s.knobs.headwake = 0 →
      s.blockedOn p = none
  | _ => True

instance (p : Peer) (s : State) : DecidablePred (HeadwakeOk p s)
  | .poll .. => inferInstanceAs (Decidable (_ → _))
  | .receive | .producer .. | .complete .. | .worker _ | .timerFire _ => .isTrue trivial
  | .timerRun _ | .remove _ | .setKnobs _ | .peerGet _ | .peerPut _ => .isTrue trivial
  | .keypairGet _ | .keypairPut _ | .tick _ => .isTrue trivial

/-- The poll reads the state of the packet it has peeked.  If it is `UNCRYPTED`, then its
completion has not stored the verdict, and with the head published it will find its own
packet there. -/
theorem SleepOf.readState {site : PeekSite} (h : SleepOf cfg s p W) (wakes : Wakes s p W)
    (cached : (s.rxQueue p).peeked = some x) (idle : (s.rxQueue p).deq = .idle)
    (pc : (s.poll p).pc = .readState site x) :
    SleepOk cfg.budget { s.poll p with pc := afterRead site x (s.state x) } (s.rxQueue p)
      (s.queued p) (s.blockedOn p) (s.napi p).sched
      (W (s.napi p).missed (s.blockedOn p)) := by
  have asleep : s.state x = .uncrypted → Published (s.blockedOn p) (s.rxQueue p) →
      W (s.napi p).missed (s.blockedOn p) := wakes.uncrypted x cached
  have phase := h.phase
  cases site with
  | deliver =>
      by_cases uncrypted : s.state x = .uncrypted
      · refine .setFrame _ _ _ idle ?_
        simp only [PhaseOk, afterRead, uncrypted, if_true, PollPc.phase]
        exact fun _ none => .inr (asleep uncrypted (.inl none))
      · exact .toFree _ _ _ idle (by simp [afterRead, uncrypted, PollPc.phase])
  | stealHead =>
      exact h.stay _ idle (by simp only [afterRead, pc]; split <;> rfl) rfl
  | stealDone =>
      by_cases uncrypted : s.state x = .uncrypted
      · exact h.stay _ idle (by simp [afterRead, uncrypted, pc, PollPc.phase]) rfl
      · exact .toFree _ _ _ idle (by simp [afterRead, uncrypted, PollPc.phase])
  | diag => exact h.stay _ idle (by simp [afterRead, pc, PollPc.phase]) rfl
  | publish => exact h.stay _ idle (by simp [afterRead, pc, PollPc.phase]) rfl
  | recheck =>
      simp only [PhaseOk, pc, PollPc.phase] at phase
      by_cases uncrypted : s.state x = .uncrypted
      · refine .setFrame _ _ _ idle ?_
        simp only [PhaseOk, afterRead, uncrypted, if_true, PollPc.phase]
        exact ⟨phase, .inr (asleep uncrypted phase)⟩
      · exact h.stay _ idle (by simp [afterRead, uncrypted, pc, PollPc.phase]) rfl
  | supp => exact h.stay _ idle (by simp only [afterRead, pc]; split <;> rfl) rfl
  | suppRecheck =>
      simp only [PhaseOk, pc, PollPc.phase] at phase
      by_cases uncrypted : s.state x = .uncrypted
      · refine .setFrame _ _ _ idle ?_
        simp only [PhaseOk, afterRead, uncrypted, if_true, PollPc.phase]
        exact ⟨phase, .inr (asleep uncrypted phase)⟩
      · exact h.stay _ idle (by simp [afterRead, uncrypted, pc, PollPc.phase]) rfl

/-- The private steps of the poll. -/
theorem SleepOf.control {f : PollFrame} (h : SleepOf cfg s p W) (wakes : Wakes s p W)
    (cached : Cached s) (polls : Polls cfg s)
    (headwake : (s.poll p).pc = .headwakeGate → s.knobs.headwake = 0 → s.blockedOn p = none)
    (own : PollMove cfg s p f) :
    SleepOk cfg.budget f (s.rxQueue p) (s.queued p) (s.blockedOn p) (s.napi p).sched
      (W (s.napi p).missed (s.blockedOn p)) := by
  have idle : (s.rxQueue p).deq = .idle := (polls p).deq own.ok.1
  have phase := h.phase
  cases own with
  | start pc sched => exact .toFree _ _ _ idle rfl
  | readState site x pc =>
      exact SleepOf.readState h wakes (cached p x (by simp [pc, PollPc.head?])) idle pc
  | endpoint x pc => exact .toFree _ _ _ idle (by dsimp only; split <;> rfl)
  | unblocked pc => exact .toFree _ _ _ idle rfl
  | exhausted pc spent =>
      have sched := (polls p).sched (by simp [pc])
      exact .setFrame _ _ _ idle (.inl sched)
  | headwakeOff pc off =>
      have none := headwake pc off
      have room := (polls p).workDone (by simp [pc, PollPc.completing])
      simp only [PhaseOk, pc, PollPc.phase] at phase
      exact .setFrame _ _ _ idle ⟨.inl none, phase room none⟩
  | _ => exact h.stay _ idle (by simp_all [PollPc.phase]) rfl

/-- A memory access of a peek that does not return yet. -/
theorem SleepOf.peekMore {site : PeekSite} (h : SleepOf cfg s p W) (wakes : Wakes s p W)
    (queues : Queues cfg s) (pc : (s.poll p).pc = .peek site)
    (running : (s.rxQueue p).peekStep.2 = none) :
    SleepOk cfg.budget { s.poll p with pc := .peek site } (s.rxQueue p).peekStep.1
      (s.queued p) (s.blockedOn p) (s.napi p).sched
      (W (s.napi p).missed (s.blockedOn p)) := by
  refine ⟨fun t deq none => ?_, ?_⟩
  · rcases PrevQueue.peekStep_head (queues.represents p).2 deq with one | half
    · exact .inl one.le
    · exact .inr (wakes.halfLinked half none)
  · have phase := h.phase
    unfold PhaseOk Published at phase ⊢
    rw [PrevQueue.peekStep_running running, ← pc]
    exact phase

/-- A peek returns.  If it returns nothing, the queue was empty or the next packet
half-linked; if it returns a packet, the poll goes on to read its state. -/
theorem SleepOf.peekDone {site : PeekSite} {head : Option Skb} (h : SleepOf cfg s p W)
    (wakes : Wakes s p W) (queues : Queues cfg s) (pc : (s.poll p).pc = .peek site)
    (returned : (s.rxQueue p).peekStep.2 = some head) :
    SleepOk cfg.budget { s.poll p with pc := afterPeek site head } (s.rxQueue p).peekStep.1
      (s.queued p) (s.blockedOn p) (s.napi p).sched
      (W (s.napi p).missed (s.blockedOn p)) := by
  have idle : (s.rxQueue p).peekStep.1.deq = .idle :=
    PrevQueue.peekStep_isSome.mp (by simp [returned])
  have published : Published (s.blockedOn p) (s.rxQueue p) →
      Published (s.blockedOn p) (s.rxQueue p).peekStep.1 :=
    fun now => now.peek (queues.represents p).2
  refine .setFrame _ _ _ idle ?_
  have phase := h.phase
  cases head with
  | none =>
      -- the poll may go to sleep on this result
      have empty := SleepOf.null h wakes queues returned
      have fresh : Published (s.blockedOn p) (s.rxQueue p) → s.blockedOn p = none := by
        rintro (none | same)
        · exact none
        · cases cached : (s.rxQueue p).peeked with
          | none => exact same.trans cached
          | some x => simp [peekStep_of_cached (queues.represents p).2 cached] at returned
      cases site <;> simp only [PhaseOk, pc, afterPeek, PollPc.phase] at phase ⊢
      case deliver => exact fun _ none => empty none
      case recheck => exact ⟨published phase, empty (fresh phase)⟩
      case suppRecheck => exact ⟨published phase, empty (fresh phase)⟩
      case supp => exact ⟨published phase.1, phase.2⟩
      all_goals exact phase
  | some x =>
      cases site <;> simp only [PhaseOk, pc, afterPeek, PollPc.phase] at phase ⊢
      case recheck => exact published phase
      case suppRecheck => exact published phase
      case supp => exact ⟨published phase.1, phase.2⟩
      all_goals exact phase

/-- **A poll goes to sleep only if it leaves a wake behind.**  This is the poll's side of
the argument, for any notion of a wake that satisfies `Wakes`. -/
theorem SleepOf.pollStep (h : SleepOf cfg s p W) (wakes : Wakes s p W)
    (queues : Queues cfg s) (cached : Cached s) (polls : Polls cfg s)
    (headwake : (s.poll p).pc = .headwakeGate → s.knobs.headwake = 0 → s.blockedOn p = none)
    (move : PollStep cfg s p s') : SleepOf cfg s' p W := by
  have phase := h.phase
  have idle : (s.poll p).pc.peeking = false → (s.rxQueue p).deq = .idle := (polls p).deq
  -- the steps of the delivery loop stay in the free phase
  have free : ∀ f : PollFrame, (s.poll p).pc.peeking = false → f.pc.phase = .free →
      SleepOk cfg.budget f (s.rxQueue p) (s.queued p) (s.blockedOn p) (s.napi p).sched
        (W (s.napi p).missed (s.blockedOn p)) :=
    fun f outside free => .toFree _ _ _ (idle outside) free
  cases move with
  | control f stats stall own =>
      simpa [SleepOf, State.queued] using SleepOf.control h wakes cached polls headwake own
  | entry pc => simpa [SleepOf, State.queued] using free _ (by simp [pc, PollPc.peeking]) rfl
  | peekMore site pc running =>
      simpa [SleepOf, State.queued] using SleepOf.peekMore h wakes queues pc running
  | peekDone site head pc returned =>
      simpa [SleepOf, State.queued] using SleepOf.peekDone h wakes queues pc returned
  | drop x st pc =>
      have dropped : SleepOk cfg.budget
          { s.poll p with pc := if st = .crypted then .validate x else .keypairPut x }
          (s.rxQueue p).wgPrevQueueDropPeeked
          ((s.hist.exchanged p).drop ((s.hist.dropped p).length + 1)) (s.blockedOn p)
          (s.napi p).sched (W (s.napi p).missed (s.blockedOn p)) :=
        .toFree _ _ _ (idle (by simp [pc, PollPc.peeking])) (by dsimp only; split <;> rfl)
      simpa [SleepOf, State.queued] using dropped
  | validate x k pc found =>
      simpa [SleepOf, State.queued] using free _ (by simp [pc, PollPc.peeking])
        (by dsimp only; split <;> rfl)
  | consume x k pc found =>
      simpa [SleepOf, State.queued] using free _ (by simp [pc, PollPc.peeking]) rfl
  | consumeRouted x k r pc found counted =>
      simpa [SleepOf, State.queued] using free _ (by simp [pc, PollPc.peeking]) rfl
  | routedPut x k r pc found =>
      simpa [SleepOf, State.queued] using free _ (by simp [pc, PollPc.peeking]) rfl
  | keypairPut x k pc found =>
      simpa [SleepOf, State.queued] using free _ (by simp [pc, PollPc.peeking]) rfl
  | peerPut x k pc found =>
      by_cases room : (s.poll p).workDone + 1 < cfg.budget
      · simpa [SleepOf, State.queued, room] using free _ (by simp [pc, PollPc.peeking]) rfl
      · -- the budget is used up, and the poll will be called again
        have spent : SleepOk cfg.budget
            { s.poll p with pc := .stealGate, workDone := (s.poll p).workDone + 1 }
            (s.rxQueue p) (s.queued p) (s.blockedOn p) (s.napi p).sched
            (W (s.napi p).missed (s.blockedOn p)) :=
          .setFrame _ _ _ (idle (by simp [pc, PollPc.peeking])) fun less => absurd less room
        simpa [SleepOf, State.queued, room] using spent
  | stealDry stats pc empty =>
      have stay := h.stay { s.poll p with pc := .stealEnd }
        (idle (by simp [pc, PollPc.peeking])) (by simp [pc, PollPc.phase]) rfl
      simpa [SleepOf, State.queued] using stay
  | stealTake job rest pc head =>
      have stay := h.stay { s.poll p with pc := .stealBusy job }
        (idle (by simp [pc, PollPc.peeking])) (by simp [pc, PollPc.phase]) rfl
      simpa [SleepOf, State.queued] using stay
  | publishStore head pc =>
      have published : Published head (s.rxQueue p) := by
        cases head with
        | none => exact .inl rfl
        | some x => exact .inr (cached p x (by simp [pc, PollPc.head?])).symm
      refine .setFrame _ _ _ (idle (by simp [pc, PollPc.peeking])) ?_
      simpa [PhaseOk, PollPc.phase] using published
  | recheckSet pc =>
      simp only [PhaseOk, pc, PollPc.phase] at phase
      refine .setFrame _ _ _ (idle (by simp [pc, PollPc.peeking])) ?_
      simpa [PhaseOk, PollPc.phase] using ⟨phase, .inr (wakes.missed _)⟩
  | suppClear pc =>
      simp only [PhaseOk, pc, PollPc.phase] at phase
      refine .setFrame _ _ _ (idle (by simp [pc, PollPc.peeking])) ?_
      simpa [PhaseOk, PollPc.phase] using phase.1
  | suppSet stats pc =>
      simp only [PhaseOk, pc, PollPc.phase] at phase
      refine .setFrame _ _ _ (idle (by simp [pc, PollPc.peeking])) ?_
      simpa [PhaseOk, PollPc.phase] using ⟨phase, .inr (wakes.missed _)⟩
  | complete pc =>
      simp only [PhaseOk, pc, PollPc.phase] at phase
      refine .setFrame _ _ _ (idle (by simp [pc, PollPc.peeking])) ?_
      cases missed : (s.napi p).missed with
      | true => simp [PhaseOk, PollPc.phase, Napi.completeDone, missed]
      | false =>
          simp only [missed] at phase
          simpa [PhaseOk, PollPc.phase, Napi.completeDone, missed, State.queued] using phase

/-! ### The wakes of a live peer -/

/-- What a step of the poll of `p` leaves alone: the frames of the other polls, the
keypairs, the timers, the history of the exchanges, and up to a stolen packet the
completions. -/
structure PollRule (s : State) (p : Peer) (s' : State) : Prop where
  poll : ∀ q ≠ p, s'.poll q = s.poll q
  keypair : s'.keypair = s.keypair
  armed : s'.armed = s.armed
  timer : s'.timer = s.timer
  exchanged : s'.hist.exchanged = s.hist.exchanged
  disable : ∀ q, (s'.napi q).disable = (s.napi q).disable
  /-- a stolen packet aside, the completions stay where they are -/
  rx : s'.rx = s.rx ∨
    ∃ job ∈ s.ring, s'.rx = update s.rx job ⟨.decrypt, .uncrypted, .poll p⟩

theorem PollStep.rule (move : PollStep cfg s p s') : PollRule s p s' := by
  have poll : ∀ (f : PollFrame), ∀ q ≠ p, update s.poll p f q = s.poll q :=
    fun f q ne => update_of_ne ne f s.poll
  have disable : ∀ (n : Napi) (q : Peer), n.disable = (s.napi p).disable →
      (update s.napi p n q).disable = (s.napi q).disable := by
    intro n q same
    rcases eq_or_ne q p with rfl | ne
    · rw [update_self, same]
    · rw [update_of_ne ne]
  cases move with
  | stealTake job rest pc head =>
      exact ⟨poll _, rfl, rfl, rfl, rfl, fun _ => rfl, .inr ⟨job, by simp [head], rfl⟩⟩
  | recheckSet pc => exact ⟨poll _, rfl, rfl, rfl, rfl, fun q => disable _ q rfl, .inl rfl⟩
  | suppClear pc => exact ⟨poll _, rfl, rfl, rfl, rfl, fun q => disable _ q rfl, .inl rfl⟩
  | suppSet stats pc => exact ⟨poll _, rfl, rfl, rfl, rfl, fun q => disable _ q rfl, .inl rfl⟩
  | complete pc => exact ⟨poll _, rfl, rfl, rfl, rfl, fun q => disable _ q rfl, .inl rfl⟩
  | _ => exact ⟨poll _, rfl, rfl, rfl, rfl, fun _ => rfl, .inl rfl⟩

/-- The wakes `Awake` counts are those a poll relies on. -/
theorem wakes_awake (life : Life s) (queues : Queues cfg s) (p : Peer) :
    Wakes s p fun missed b => Awake missed s.rx (s.hist.exchanged p) b (s.timer p) where
  missed _ := .of_missed
  uncrypted _ cached uncrypted published :=
    awake_of_uncrypted life queues cached uncrypted published
  halfLinked half none := awake_of_halfLinked life queues half none

/-- A context takes a packet off the ring, which wakes or does not wake as before. -/
theorem WakeOf.take {f : RxFrame} (h : WakeOf cfg s p) (life : Life s) (mem : x ∈ s.ring)
    (after : f.pc.undecided = true) :
    WakeOk cfg.budget (s.poll p) (s.rxQueue p) (s.queued p) (s.hist.exchanged p)
      (s.blockedOn p) (s.napi p) (update s.rx x f) (s.armed p) (s.timer p) := by
  have pc : (s.rx x).pc = .ring := (life.mem_ring x).mp mem
  exact WakeOk.undecided h (by simp [pc, RxPc.undecided]) after

theorem WakeOf.pollStep (h : WakeOf cfg s p) (life : Life s) (queues : Queues cfg s)
    (cached : Cached s) (polls : Polls cfg s)
    (headwake : (s.poll p).pc = .headwakeGate → s.knobs.headwake = 0 → s.blockedOn p = none)
    (move : PollStep cfg s p s') : WakeOf cfg s' p := by
  have rule := move.rule
  have asleep := SleepOf.pollStep h.toSleepOk (wakes_awake life queues p) queues cached polls
    headwake move
  -- with the completions as they were before the step
  have before : WakeOk cfg.budget (s'.poll p) (s'.rxQueue p) (s'.queued p)
      (s'.hist.exchanged p) (s'.blockedOn p) (s'.napi p) s.rx (s'.armed p) (s'.timer p) := by
    rw [rule.armed, rule.timer, rule.exchanged]
    exact ⟨asleep, (rule.disable p).trans h.enabled, h.armed⟩
  rcases rule.rx with same | ⟨job, mem, taken⟩
  · unfold WakeOf
    rwa [same]
  · have pc : (s.rx job).pc = .ring := (life.mem_ring job).mp mem
    unfold WakeOf
    rw [taken]
    exact before.undecided (by simp [pc, RxPc.undecided]) rfl

/-- The poll of another peer. -/
theorem WakeOf.pollOther {p' : Peer} (h : WakeOf cfg s p) (life : Life s) (ne : p ≠ p')
    (move : PollStep cfg s p' s') : WakeOf cfg s' p := by
  cases move with
  | stealTake job rest pc head =>
      simpa [WakeOf, State.queued, ne] using h.take (f := ⟨.decrypt, .uncrypted, .poll p'⟩) life
        (show job ∈ s.ring by simp [head]) rfl
  | _ => simpa [WakeOf, State.queued, ne] using h

/-! ## Whole runs

The two conditions are on single steps: the completion of a poll with `wg_headwake` off, and
the cancel of a timer.  All other steps keep the invariant without a condition. -/

/-- `hrtimer_try_to_cancel` does not take a pending timer away while
`rx_timer_armed` promises it, unless a completion is about to start it again. -/
def CancelOk (cfg : Config) (p : Peer) (s : State) : Action → Prop
  | .complete x _ _ => s.peerOf cfg x = some p → (s.rx x).pc = .tryCancel →
      (s.timer p).pending = true → (s.timer p).cb = .idle → s.armed p = true →
      ∃ y ∈ s.hist.exchanged p, (s.rx y).pc = .startTimer
  | _ => True

instance (cfg : Config) (p : Peer) (s : State) : DecidablePred (CancelOk cfg p s)
  | .complete .. => inferInstanceAs (Decidable (_ → _))
  | .receive | .producer .. | .poll .. | .worker _ | .timerFire _ => .isTrue trivial
  | .timerRun _ | .remove _ | .setKnobs _ | .peerGet _ | .peerPut _ => .isTrue trivial
  | .keypairGet _ | .keypairPut _ | .tick _ => .isTrue trivial

/-- `wg_peer_remove` takes neither the timer nor the NAPI of the peer away. -/
def RemoveOk (p : Peer) (s : State) : Action → Prop
  | .remove p' => p' = p → s.tear p ≠ .disableNapi ∧
      (s.tear p = .cancelTimer → (s.timer p).pending = false)
  | _ => True

/-- The steps of the timer.  It fires by scheduling the NAPI, and clears `rx_timer_armed`
before that. -/
theorem WakeOf.timer {p' : Peer} (h : WakeOf cfg s p) (polls : Polls cfg s)
    (move : TimerStep s p' s') : WakeOf cfg s' p := by
  rcases eq_or_ne p p' with rfl | ne
  · cases move with
    | fire pending idle =>
        have fired := WakeOk.mono h s.rx (s.armed p) ⟨false, .clear⟩
          (fun _ => .inr (.inl rfl)) fun _ => .inr (.inr (.inl (by simp)))
        simpa [WakeOf, State.queued] using fired
    | clear cb =>
        have cleared := WakeOk.mono h s.rx false { s.timer p with cb := .wake }
          (by simp [ArmedOk]) fun _ => .inr (.inr (.inl (by simp)))
        simpa [WakeOf, State.queued] using cleared
    | wake cb =>
        have armed : ArmedOk (s.armed p) s.rx (s.hist.exchanged p)
            { s.timer p with cb := .idle } := by
          intro on
          rcases h.armed on with pending | clear | start
          · exact .inl pending
          · simp [cb] at clear
          · exact .inr (.inr start)
        simpa [WakeOf, State.queued] using WakeOk.schedule h (polls p) armed
  · cases move <;> simpa [WakeOf, State.queued, ne] using h

theorem WakeOf.remove {p' : Peer} (h : WakeOf cfg s p)
    (kept : p' = p → s.tear p ≠ .disableNapi ∧
      (s.tear p = .cancelTimer → (s.timer p).pending = false))
    (move : RemoveStep cfg s p' s') : WakeOf cfg s' p := by
  rcases eq_or_ne p p' with rfl | ne
  · obtain ⟨enabled, quiet⟩ := kept rfl
    cases move with
    | cancelTimer pc idle =>
        have same : s.timer p = ⟨false, .idle⟩ := by
          rw [← idle, ← quiet pc]
        simpa [WakeOf, State.queued, same] using h
    | disableNapi pc => exact absurd pc enabled
    | _ => exact h
  · cases move <;> simpa [WakeOf, State.queued, ne] using h

/-- **No step loses a wake**, unless it is one of those the guards exclude.  Every context
appears here with one lemma. -/
theorem WakeOf.step {a : Action} (h : WakeOf cfg s p) (life : Life s) (queues : Queues cfg s)
    (cached : Cached s) (polls : Polls cfg s) (headwake : HeadwakeOk p s a)
    (cancel : CancelOk cfg p s a) (remove : RemoveOk p s a)
    (move : Transition cfg s a s') : WakeOf cfg s' p := by
  cases move with
  | producer move => exact h.producer life queues move
  | @complete x _ _ _ k found move =>
      rcases eq_or_ne p (cfg.peer k) with rfl | ne
      · exact h.complete life queues polls found (cancel (by simp [State.peerOf, found])) move
      · have kept := h.elsewhere queues found ne
        cases move <;> simpa [WakeOf, State.queued, ne] using kept _
  | worker present move =>
      cases move with
      | take x rest pc head => exact h.take life (show x ∈ s.ring by simp [head]) rfl
      | _ => exact h
  | @poll p' _ _ present move =>
      rcases eq_or_ne p p' with rfl | ne
      · exact h.pollStep life queues cached polls (headwake rfl) move
      · exact h.pollOther life ne move
  | timer is move => exact h.timer polls move
  | remove present move => exact h.remove remove move
  | env move => cases move <;> exact h

theorem wakeOf_init (cfg : Config) (knobs : Knobs) (p : Peer) :
    WakeOf cfg (State.init knobs) p := by
  refine ⟨⟨?_, ?_⟩, rfl, by simp [ArmedOk, State.init]⟩
  · simp [State.init, PrevQueue.wgPrevQueueInit]
  · simp [PhaseOk, Published, State.init, PollFrame.idle, PollPc.phase, State.queued,
      History.start]

variable {knobs : Knobs} {ok : State → Action → Prop}

/-- Only `wg_peer_remove(p)` marks the peer or changes its own program point, and it
starts with the mark. -/
theorem Transition.tear {a : Action} (move : Transition cfg s a s') (p : Peer) :
    s'.tear p = s.tear p ∧ s'.isDead p = s.isDead p ∨
      a = .remove p ∧ RemoveStep cfg s p s' ∧ s'.tear p ≠ .live := by
  cases move with
  | producer move => cases move <;> exact .inl ⟨rfl, rfl⟩
  | complete k found move => exact .inl ⟨by rw [move.frame.tear], by rw [move.frame.isDead]⟩
  | worker present move => cases move <;> exact .inl ⟨rfl, rfl⟩
  | poll present move => cases move <;> exact .inl ⟨rfl, rfl⟩
  | timer is move => cases move <;> exact .inl ⟨rfl, rfl⟩
  | @remove p' _ present move =>
      rcases eq_or_ne p p' with rfl | ne
      · refine .inr ⟨rfl, move, ?_⟩
        cases move with
        | flushed again target pc ended => cases again <;> simp
        | _ => simp
      · left
        cases move <;> simp [ne]
  | env move => cases move <;> exact .inl ⟨rfl, rfl⟩

/-- The removal of a peer starts with `is_dead`. -/
theorem Reachable.live (reach : Reachable cfg knobs ok s) :
    s.isDead p = false → s.tear p = .live := by
  refine reach.invariant (I := fun s => s.isDead p = false → s.tear p = .live)
    (fun _ => rfl) fun s a s' _ h _ taken alive => ?_
  rcases (step_cases taken).tear p with ⟨tear, dead⟩ | ⟨-, move, -⟩
  · rw [tear]
    exact h (dead ▸ alive)
  · cases move <;> simp_all

/-- **No wake of a live peer is lost** in a run whose steps meet the guards.  A live peer is
not being removed, so that the guard on the removal holds by itself. -/
theorem Reachable.wake (reach : Reachable cfg knobs ok s)
    (guards : ∀ s a, ok s a → HeadwakeOk p s a ∧ CancelOk cfg p s a)
    (live : s.isDead p = false) : WakeOf cfg s p := by
  refine reach.invariant (I := fun s => s.tear p = .live → WakeOf cfg s p)
    (fun _ => wakeOf_init cfg knobs p) ?_ (reach.live live)
  intro s a s' reach h met taken live'
  have move := step_cases taken
  obtain ⟨headwake, cancel⟩ := guards s a met
  have live : s.tear p = .live := by
    rcases move.tear p with ⟨tear, -⟩ | ⟨-, -, gone⟩
    · exact tear ▸ live'
    · exact absurd live' gone
  have remove : RemoveOk p s a := by
    cases a <;> simp [RemoveOk, live]
  exact (h live).step (Reachable.life reach) (Reachable.queues reach)
    (Reachable.headCached reach) (Reachable.polls reach) headwake cancel remove move

end WgReceivePath
