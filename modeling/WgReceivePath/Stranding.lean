import WgReceivePath.Wake

/-!
# Stranded packets

When every producer, worker and poll has come to rest, the decrypt ring is empty and a
peer's NAPI is not scheduled, nothing but the coalescing timer will ever look at the peer's
`rx_queue` again: a packet that is still in it is stranded.  This module draws the
consequences of `WakeOf` for such states.

* `no_packet_stranded` : with the module parameters fixed and `wg_trig_k = 0` no packet is
  stranded.
* `packet_stranded_live` : when `wg_headwake` is switched while packets are in flight, one
  may be: a poll that completes with `wg_headwake` off does not refresh `rx_blocked_on`, and
  the pointer it leaves behind silences the completions that see it on again.
  `no_packet_stranded_live` excludes that step and nothing else.
* `timer_loses_wake` : with `wg_trig_k ≥ 1`, one may be: between
  `atomic_xchg(&rx_timer_armed, 0)` and `hrtimer_try_to_cancel` another completion may have
  armed the timer again, and then loses it while `rx_timer_armed` stays set.
  `timer_keeps_wake` excludes that step.

Both runs are exhibited step by step, and without the step that goes wrong the property
holds.

What carries the proofs, besides `Reachable.wake`, are two invariants by which parameters
that stay zero take part of the code out of play: with `wg_trig_k = 0` no timer is ever
armed (`TimersOff`), so that no cancel can go wrong, and with `wg_headwake = 0` nothing is
ever published (`NothingPublished`).  In a state at rest all completions have run to their
end (`Quiescent.exchanged_done`), so that a wake on its way can only be the timer's
(`WakeOf.atRest`).
-/

namespace WgReceivePath

open Function (update update_self update_of_ne)

variable {cfg : Config} {s s' : State} {x : Skb} {p : Peer} {knobs : Knobs}
  {ok : State → Action → Prop}

/-! ## Runs with restricted module parameters -/

/-- The action writes only module parameters that satisfy `P`.  A guard on runs: what is
written may be any value that satisfies it, at any moment. -/
def WritesOnly (P : Knobs → Prop) : Action → Prop
  | .setKnobs knobs => P knobs
  | _ => True

/-- The action does not write the module parameters. -/
abbrev Fixed (_ : State) : Action → Prop := WritesOnly fun _ => False

instance (P : Knobs → Prop) [DecidablePred P] : DecidablePred (WritesOnly P)
  | .setKnobs knobs => inferInstanceAs (Decidable (P knobs))
  | .receive | .producer .. | .complete .. | .worker _ | .poll .. | .timerFire _ => .isTrue trivial
  | .timerRun _ | .remove _ | .peerGet _ | .peerPut _ | .keypairGet _ => .isTrue trivial
  | .keypairPut _ | .tick _ => .isTrue trivial

/-- What holds of the parameters at the start and of everything written to them
holds of them throughout. -/
theorem Reachable.written {P : Knobs → Prop} (reach : Reachable cfg knobs ok s)
    (writes : ∀ s a, ok s a → WritesOnly P a) (start : P knobs) : P s.knobs := by
  refine reach.invariant (I := fun s => P s.knobs) start fun s a s' _ h met taken => ?_
  cases step_cases taken with
  | producer move => cases move <;> exact h
  | complete k found move => cases move <;> exact h
  | worker present move => cases move <;> exact h
  | poll present move => cases move <;> exact h
  | timer is move => cases move <;> exact h
  | remove present move => cases move <;> exact h
  | env move =>
      cases move with
      | setKnobs knobs => exact writes s _ met
      | _ => exact h

theorem Fixed.writesOnly {P : Knobs → Prop} {a : Action} (fixed : Fixed s a) :
    WritesOnly P a := by
  cases a with
  | setKnobs knobs => exact fixed.elim
  | _ => trivial

/-- Fixed parameters keep their values. -/
theorem Reachable.fixed (reach : Reachable cfg knobs ok s) (fixed : ∀ s a, ok s a → Fixed s a) :
    s.knobs = knobs :=
  reach.written (P := fun now => now = knobs) (fun s a met => (fixed s a met).writesOnly) rfl

/-! ## `wg_trig_k = 0`: the timer is out of play

The timer is started by the coalescing branch only.  While the parameter is zero no
completion takes it, and the conditions about timers hold trivially. -/

/-- Between the test of `wg_trig_k` and the wake, on the coalescing path. -/
def RxPc.coalescing : RxPc → Bool
  | .count | .xchgArmed | .tryCancel | .cmpxchgArmed | .startTimer => true
  | _ => false

/-- No completion coalesces and no timer is armed, for any peer. -/
structure TimersOff (rx : Skb → RxFrame) (armed : Peer → Bool) (timer : Peer → Timer) :
    Prop where
  coalescing : ∀ x, (rx x).pc.coalescing = false
  disarmed : ∀ p, armed p = false
  stopped : ∀ p, timer p = ⟨false, .idle⟩

theorem TimersOff.setRx {rx : Skb → RxFrame} {armed : Peer → Bool} {timer : Peer → Timer}
    {f : RxFrame} (h : TimersOff rx armed timer) (after : f.pc.coalescing = false) :
    TimersOff (update rx x f) armed timer := by
  refine ⟨fun y => ?_, h.disarmed, h.stopped⟩
  rcases eq_or_ne y x with rfl | ne
  · simpa using after
  · simpa [ne] using h.coalescing y

/-- No step starts a timer or sets `rx_timer_armed` while `wg_trig_k` is zero. -/
theorem TimersOff.step {a : Action} (h : TimersOff s.rx s.armed s.timer)
    (stock : ∀ x, (s.rx x).pc = .trigGate → (s.rx x).st = .crypted → s.knobs.trigK = 0)
    (move : Transition cfg s a s') :
    TimersOff s'.rx s'.armed s'.timer := by
  cases move with
  | producer move =>
      cases move with
      | produce k c pc found room => exact h.setRx rfl
      | ringFull k c pc found full => exact h.setRx rfl
      | _ => exact h
  | @complete x _ _ _ k found move =>
      have before := h.coalescing x
      cases move with
      | trigCount pc on crypted => exact absurd (stock x pc crypted) on
      | count pc next branch => simp [pc, RxPc.coalescing] at before
      | xchgArmed pc next branch => simp [pc, RxPc.coalescing] at before
      | tryCancel pc => simp [pc, RxPc.coalescing] at before
      | casLost pc held => simp [pc, RxPc.coalescing] at before
      | casWon pc free => simp [pc, RxPc.coalescing] at before
      | startTimer pc => simp [pc, RxPc.coalescing] at before
      | _ => exact h.setRx rfl
  | worker present move =>
      cases move with
      | take x rest pc head => exact h.setRx rfl
      | _ => exact h
  | poll present move =>
      cases move with
      | stealTake job rest pc head => exact h.setRx rfl
      | _ => exact h
  | @timer p _ _ is move => cases move <;> simp_all [h.stopped p]
  | @remove p _ present move =>
      cases move with
      | cancelTimer pc idle =>
          refine ⟨h.coalescing, h.disarmed, fun p' => ?_⟩
          rcases eq_or_ne p' p with rfl | ne
          · simp
          · simpa [ne] using h.stopped p'
      | _ => exact h
  | env move => cases move <;> exact h

/-- No timer is ever armed if no completion finds `wg_trig_k` set. -/
theorem Reachable.timersOff_of_stock (reach : Reachable cfg knobs ok s)
    (stock : ∀ s, Reachable cfg knobs ok s → ∀ x, (s.rx x).pc = .trigGate →
      (s.rx x).st = .crypted → s.knobs.trigK = 0) : TimersOff s.rx s.armed s.timer :=
  reach.invariant (I := fun s => TimersOff s.rx s.armed s.timer)
    ⟨fun _ => rfl, fun _ => rfl, fun _ => rfl⟩ fun s _ _ reach h _ taken =>
      h.step (stock s reach) (step_cases taken)

theorem Reachable.timersOff (reach : Reachable cfg knobs ok s)
    (writes : ∀ s a, ok s a → WritesOnly (fun knobs => knobs.trigK = 0) a)
    (start : knobs.trigK = 0) : TimersOff s.rx s.armed s.timer :=
  reach.timersOff_of_stock fun _ reach _ _ _ => Reachable.written reach writes start

/-- A completion that does not coalesce cancels no timer. -/
theorem TimersOff.cancelOk {a : Action} (h : TimersOff s.rx s.armed s.timer) :
    CancelOk cfg p s a := by
  cases a with
  | complete x expired auth =>
      intro _ pc
      simpa [pc, RxPc.coalescing] using h.coalescing x
  | _ => trivial

/-! ## `wg_headwake = 0`: nothing is ever published

A poll publishes its head only with the parameter on.  While it is off `rx_blocked_on` stays
`NULL`, so that no value is left behind that could silence a completion. -/

/-- Between the test of `wg_headwake` and the store to `rx_blocked_on`. -/
def PollPc.publishing : PollPc → Bool
  | .peek .publish | .readState .publish _ | .publishStore _ => true
  | _ => false

/-- No poll has published a head or is about to, so that every completion finds `NULL`. -/
structure NothingPublished (poll : Peer → PollFrame) (blockedOn : Peer → Option Skb) :
    Prop where
  publishing : ∀ p, (poll p).pc.publishing = false
  blockedOn : ∀ p, blockedOn p = none

theorem NothingPublished.setPoll {poll : Peer → PollFrame} {blockedOn : Peer → Option Skb}
    {f : PollFrame} (h : NothingPublished poll blockedOn) (p : Peer)
    (after : f.pc.publishing = false) : NothingPublished (update poll p f) blockedOn := by
  refine ⟨fun p' => ?_, h.blockedOn⟩
  rcases eq_or_ne p' p with rfl | ne
  · simpa using after
  · simpa [ne] using h.publishing p'

theorem PollMove.publishing {f : PollFrame} (own : PollMove cfg s p f)
    (off : s.knobs.headwake = 0) (before : (s.poll p).pc.publishing = false) :
    f.pc.publishing = false := by
  cases own with
  | readState site x pc =>
      cases site <;> simp only [afterRead] <;> (try split) <;>
        simp_all [PollPc.publishing]
  | endpoint x pc =>
      dsimp only
      split <;> rfl
  | headwakeOn pc on => exact absurd off on
  | _ => rfl

theorem afterPeek_publishing {site : PeekSite} {head : Option Skb}
    (before : (PollPc.peek site).publishing = false) :
    (afterPeek site head).publishing = false := by
  cases site <;> cases head <;> simp_all [afterPeek, PollPc.publishing]

theorem NothingPublished.pollStep (h : NothingPublished s.poll s.blockedOn)
    (off : s.knobs.headwake = 0) (move : PollStep cfg s p s') :
    NothingPublished s'.poll s'.blockedOn := by
  have before := h.publishing p
  cases move with
  | control f stats stall own => exact h.setPoll p (own.publishing off before)
  | peekMore site pc running => exact h.setPoll p (pc ▸ before)
  | peekDone site head pc returned => exact h.setPoll p (afterPeek_publishing (pc ▸ before))
  | drop x st pc => exact h.setPoll p (by dsimp only; split <;> rfl)
  | validate x k pc found => exact h.setPoll p (by dsimp only; split <;> rfl)
  | peerPut x k pc found => exact h.setPoll p (by dsimp only; split <;> rfl)
  | publishStore head pc => simp [pc, PollPc.publishing] at before
  | _ => exact h.setPoll p rfl

theorem Reachable.nothingPublished (reach : Reachable cfg knobs ok s)
    (writes : ∀ s a, ok s a → WritesOnly (fun knobs => knobs.headwake = 0) a)
    (start : knobs.headwake = 0) : NothingPublished s.poll s.blockedOn := by
  refine reach.invariant (I := fun s => NothingPublished s.poll s.blockedOn)
    ⟨fun _ => rfl, fun _ => rfl⟩ fun s a s' reach h _ taken => ?_
  cases step_cases taken with
  | producer move => cases move <;> exact h
  | complete k found move => cases move <;> exact h
  | worker present move => cases move <;> exact h
  | poll present move => exact h.pollStep (Reachable.written reach writes start) move
  | timer is move => cases move <;> exact h
  | remove present move => cases move <;> exact h
  | env move => cases move <;> exact h

/-! ## Quiet states

At rest no completion is on its way and no poll is scheduled, so that of the possible wakes
only the timer is left. -/

/-- All producers, workers and polls are at rest, the ring is empty, and the live peer `p`
is not scheduled.  Its timer may be pending. -/
abbrev AtRest (cfg : Config) (s : State) (p : Peer) : Prop :=
  Quiescent cfg s ∧ s.ring = [] ∧ s.isDead p = false ∧ (s.napi p).sched = false

/-- **What is left in a quiet state.**  A peer none of whose wakes was lost has an
empty queue, unless its timer is pending or running. -/
theorem WakeOf.atRest (h : WakeOf cfg s p) (reach : Reachable cfg knobs ok s)
    (rest : AtRest cfg s p) :
    (s.rxQueue p).Vacant ∨ (s.timer p).pending = true ∨ (s.timer p).cb ≠ .idle := by
  obtain ⟨quiet, empty, -, unscheduled⟩ := rest
  have polls := reach.polls p
  obtain ⟨-, represents⟩ := reach.queues.represents p
  cases queued : s.queued p with
  | nil =>
      have idle : (s.poll p).pc = .idle := by
        by_contra busy
        simpa [unscheduled] using polls.sched busy
      exact .inl (PrevQueue.represents_nil (queued ▸ represents)
        (polls.deq (by simp [idle, PollPc.peeking])))
  | cons x rest =>
      have mem : x ∈ s.hist.exchanged p := mem_exchanged_of_mem_queued (by simp [queued])
      have idle := quiet.2.2 p (exchanged_peer reach.queues mem)
      have phase := h.phase
      simp only [PhaseOk, idle, PollPc.phase, unscheduled, queued] at phase
      rcases phase with sched | ⟨-, covered⟩
      · simp at sched
      · rcases covered with nil | missed | pending | running | ⟨y, memy, waker⟩
        · simp at nil
        · simpa [unscheduled] using polls.missed missed
        · exact .inr (.inl pending)
        · exact .inr (.inr running)
        · have done := quiet.exchanged_done reach empty memy
          simp [Waker, done, RxPc.undecided, RxPc.waking] at waker

/-! ## Fixed parameters, `wg_trig_k = 0` -/

/-- With the parameters fixed, a poll never completes over a stale head. -/
theorem Reachable.headwakeOk {a : Action} (reach : Reachable cfg knobs ok s)
    (fixed : ∀ s a, ok s a → Fixed s a) (p : Peer) : HeadwakeOk p s a := by
  cases a with
  | poll p' routed =>
      intro _ _ off
      rw [reach.fixed fixed] at off
      have published := reach.nothingPublished (fun s a met => (fixed s a met).writesOnly) off
      exact published.blockedOn p
  | _ => trivial

/-- **No stranded packet with fixed parameters.**  With `wg_trig_k = 0` and whatever the
other parameters are, a live peer that is not scheduled in a quiet state with an empty ring
has an empty queue.  The interleaving that led to the state may be any. -/
theorem no_packet_stranded (cfg : Config) (knobs : Knobs) (trigK : knobs.trigK = 0)
    (s : State) (reach : Reachable cfg knobs Fixed s) (p : Peer) (rest : AtRest cfg s p) :
    (s.rxQueue p).Vacant := by
  have off := reach.timersOff (fun _ _ met => Fixed.writesOnly met) trigK
  -- no completion ever cancels a timer, and no poll completes over a stale head
  have guarded : Reachable cfg knobs (fun s a => HeadwakeOk p s a ∧ CancelOk cfg p s a) s :=
    Machine.Reach.strengthen (fun s a reach met => ⟨Reachable.headwakeOk reach (fun _ _ => id) p,
      (Reachable.timersOff reach (fun _ _ met => Fixed.writesOnly met) trigK).cancelOk⟩) reach
  have wake := guarded.wake (fun _ _ met => met) rest.2.2.1
  rcases wake.atRest reach rest with vacant | pending | running
  · exact vacant
  · simp [off.stopped p] at pending
  · simp [off.stopped p] at running

/-- Two packets on their way through `wg_headwake`, `wg_supp`, `wg_steal` and
`wg_diag`, the second one taken off the ring by the peer's own poll. -/
theorem no_packet_stranded_stealing : ∃ s,
    (Reachable (smallConfig 1 (by decide)) ⟨0, 1, 1, 1, 1⟩ Fixed s ∧
      AtRest (smallConfig 1 (by decide)) s 0 ∧ s.hist.dropped 0 = [0, 1]) ∧
    (s.rxQueue 0).Vacant := by
  have run : ∃ s, Reachable (smallConfig 1 (by decide)) ⟨0, 1, 1, 1, 1⟩ Fixed s ∧
      AtRest (smallConfig 1 (by decide)) s 0 ∧ s.hist.dropped 0 = [0, 1] :=
    Machine.exists_reach_of_exec
      (arrive 0 0 ++ arrive 1 0 ++ works 0 2 ++ completes 0 7 ++ polls 0 25 ++
        completes 1 7 ++ works 0 2 ++ polls 0 53) (by decide +kernel)
  obtain ⟨s, reach, rest, dropped⟩ := run
  exact ⟨s, ⟨reach, rest, dropped⟩, no_packet_stranded _ _ rfl s reach 0 rest⟩

/-! ## Parameters written at any moment, `wg_trig_k = 0` -/

/-- `wg_trig_k` stays zero; the other parameters may be written at any moment. -/
abbrev TrigZero (_ : State) : Action → Prop := WritesOnly fun knobs => knobs.trigK = 0

/-- **No stranded packet with parameters written live**, in a run in which no poll
of the peer completes with `wg_headwake` off over a head it published before. -/
theorem no_packet_stranded_live (cfg : Config) (knobs : Knobs) (trigK : knobs.trigK = 0)
    (p : Peer) (s : State)
    (reach : Reachable cfg knobs (fun s a => TrigZero s a ∧ HeadwakeOk p s a) s)
    (rest : AtRest cfg s p) : (s.rxQueue p).Vacant := by
  have off := reach.timersOff (fun _ _ met => met.1) trigK
  have guarded : Reachable cfg knobs (fun s a => HeadwakeOk p s a ∧ CancelOk cfg p s a) s :=
    Machine.Reach.strengthen (fun s a reach met => ⟨met.2,
      (Reachable.timersOff reach (fun _ _ met => met.1) trigK).cancelOk⟩) reach
  have wake := guarded.wake (fun _ _ met => met) rest.2.2.1
  rcases wake.atRest reach rest with vacant | pending | running
  · exact vacant
  · simp [off.stopped p] at pending
  · simp [off.stopped p] at running

/-- `wg_headwake` is switched off before the first packet's poll completes and on
again before the second packet arrives, with nothing published in between. -/
theorem no_packet_stranded_live_switched : ∃ s,
    (Reachable (smallConfig 1 (by decide)) ⟨0, 1, 0, 0, 0⟩
        (fun s a => TrigZero s a ∧ HeadwakeOk 0 s a) s ∧
      AtRest (smallConfig 1 (by decide)) s 0 ∧ s.hist.dropped 0 = [0, 1]) ∧
    (s.rxQueue 0).Vacant := by
  have run : ∃ s, Reachable (smallConfig 1 (by decide)) ⟨0, 1, 0, 0, 0⟩
        (fun s a => TrigZero s a ∧ HeadwakeOk 0 s a) s ∧
      AtRest (smallConfig 1 (by decide)) s 0 ∧ s.hist.dropped 0 = [0, 1] :=
    Machine.exists_reach_of_exec
      (arrive 0 0 ++ works 0 2 ++ completes 0 7 ++ works 0 2 ++ [.setKnobs ⟨0, 0, 0, 0, 0⟩] ++
        polls 0 24 ++ [.setKnobs ⟨0, 1, 0, 0, 0⟩] ++ arrive 1 0 ++ works 1 2 ++
        completes 1 7 ++ works 1 2 ++ polls 0 27) (by decide +kernel)
  obtain ⟨s, reach, rest, dropped⟩ := run
  exact ⟨s, ⟨reach, rest, dropped⟩, no_packet_stranded_live _ _ rfl 0 s reach rest⟩

/-- **A packet stranded by switching `wg_headwake`.**  The poll publishes the
`UNCRYPTED` head 0; while `wg_headwake` is off it delivers both packets and
completes, leaving `rx_blocked_on` at packet 0; the completion of packet 2 sees
`wg_headwake` on again and finds the poll blocked on another packet. -/
theorem packet_stranded_live : ∃ s,
    Reachable (smallConfig 1 (by decide)) ⟨0, 1, 0, 0, 0⟩ TrigZero s ∧
      AtRest (smallConfig 1 (by decide)) s 0 ∧ ¬ (s.rxQueue 0).Vacant :=
  Machine.exists_reach_of_exec
    (arrive 0 0 ++ arrive 1 0 ++ works 0 2 ++ works 1 2 ++ completes 1 7 ++ polls 0 16 ++
      [.setKnobs ⟨0, 0, 0, 0, 0⟩] ++ completes 0 7 ++ polls 0 31 ++
      [.setKnobs ⟨0, 1, 0, 0, 0⟩] ++ works 0 2 ++ works 1 2 ++ arrive 2 0 ++ works 0 2 ++
      completes 2 6 ++ works 0 2) (by decide +kernel)

/-! ## Coalescing -/

/-- **The coalescing timer keeps its wake**, whatever the fixed parameters are, in a
run in which no completion of the peer cancels a timer that another one has armed
again: a packet that is left in the queue of a peer at rest has a pending timer. -/
theorem timer_keeps_wake (cfg : Config) (knobs : Knobs) (p : Peer) (s : State)
    (reach : Reachable cfg knobs (fun s a => Fixed s a ∧ CancelOk cfg p s a) s)
    (rest : AtRest cfg s p) (returned : (s.timer p).cb = .idle)
    (queued : ¬ (s.rxQueue p).Vacant) : (s.timer p).pending = true := by
  have guarded : Reachable cfg knobs (fun s a => HeadwakeOk p s a ∧ CancelOk cfg p s a) s :=
    Machine.Reach.strengthen (fun s a reach met =>
      ⟨Reachable.headwakeOk reach (fun _ _ met => met.1) p, met.2⟩) reach
  have wake := guarded.wake (fun _ _ met => met) rest.2.2.1
  rcases wake.atRest reach rest with vacant | pending | running
  · exact absurd vacant queued
  · exact pending
  · exact absurd returned running

/-- With `wg_trig_k = 2`, the first packet waits in the queue for its timer. -/
theorem timer_keeps_wake_one : ∃ s,
    (Reachable (smallConfig 1 (by decide)) ⟨2, 0, 0, 0, 0⟩
        (fun s a => Fixed s a ∧ CancelOk (smallConfig 1 (by decide)) 0 s a) s ∧
      AtRest (smallConfig 1 (by decide)) s 0 ∧ (s.timer 0).cb = .idle ∧
      ¬ (s.rxQueue 0).Vacant) ∧ (s.timer 0).pending = true := by
  have run : ∃ s, Reachable (smallConfig 1 (by decide)) ⟨2, 0, 0, 0, 0⟩
        (fun s a => Fixed s a ∧ CancelOk (smallConfig 1 (by decide)) 0 s a) s ∧
      AtRest (smallConfig 1 (by decide)) s 0 ∧ (s.timer 0).cb = .idle ∧
      ¬ (s.rxQueue 0).Vacant :=
    Machine.exists_reach_of_exec
      (arrive 0 0 ++ works 0 2 ++ completes 0 9 ++ works 0 2) (by decide +kernel)
  obtain ⟨s, reach, rest, returned, queued⟩ := run
  exact ⟨s, ⟨reach, rest, returned, queued⟩,
    timer_keeps_wake _ _ 0 s reach rest returned queued⟩

/-- **A packet stranded by a late cancel**, with `wg_trig_k = 2`.  The completion of
packet 1 reaches the batch and takes `rx_timer_armed`; before it cancels, the
timer of packet 0 fires and both packets are delivered, and packet 2 arms the
timer again.  The cancel hits that timer.  The flag stays set, so packet 3, the
first of the next batch, neither starts the timer nor wakes the poll. -/
theorem timer_loses_wake : ∃ s,
    Reachable (smallConfig 1 (by decide)) ⟨2, 0, 0, 0, 0⟩ Fixed s ∧
      AtRest (smallConfig 1 (by decide)) s 0 ∧ (s.timer 0).cb = .idle ∧
      ¬ (s.rxQueue 0).Vacant ∧ (s.timer 0).pending = false :=
  Machine.exists_reach_of_exec
    (arrive 0 0 ++ arrive 1 0 ++ works 0 2 ++ works 1 2 ++ completes 0 9 ++ works 0 1 ++
      completes 1 7 ++ [.timerFire 0, .timerRun 0, .timerRun 0] ++ polls 0 33 ++
      arrive 2 0 ++ works 0 1 ++ completes 2 9 ++ works 0 1 ++ completes 1 3 ++ works 1 1 ++
      polls 0 24 ++ arrive 3 0 ++ works 0 1 ++ completes 3 8 ++ works 0 2 ++ works 1 1)
    (by decide +kernel)

end WgReceivePath
