import WgReceivePath.Stranding

/-!
# The pristine receive path

The receive path of `build/wg515-pristine`, on the state of the fork.  The two drivers share
their producers, their work items and the queue; they differ in
`wg_queue_enqueue_per_peer_rx`, which here calls `napi_schedule` right after it has stored
the packet's state, in `wg_packet_rx_poll`, which here is the delivery loop alone, and in
`wg_peer_remove`, which here has no timer to cancel.

With all its parameters off the fork does the same.  Its extra program points are tests of
the parameters that find them zero, and the store of a zero to `rx_ready`.  The two machines
are compared by their observable traces (`ForkTrace`, `PristineTrace`), and `forkTrace_iff`
says that with everything off these are the same.

## What carries the proof

* Every pristine step is a run of the fork between the same two states (`Pristine.lift`):
  the step itself, followed by the tests that the fork makes after it (`reach_schedule`,
  `reach_afterLoop`).
* The fork's state, with the extra program points mapped to the point that follows the tests
  (`stock`), moves by pristine steps only (`stock_step`): a test is no step at all, and what
  is left is the same step.  The mapping forgets where exactly the fork stands and nothing
  else, so that most steps commute with it because they do not touch a frame that it
  changes.

Both directions use `Reach.simulate`.  That the fork never leaves the points of the pristine
driver by more than these tests is an invariant of its runs with all parameters off
(`PlainOk`, `OffRun`).
-/

namespace WgReceivePath

open Function (update update_self update_of_ne)

variable {cfg : Config} {s s' : State} {x : Skb} {p : Peer}

namespace Pristine

/-- A step of the completion of `x`: `decrypt_packet` and then the pristine
`wg_queue_enqueue_per_peer_rx`, which goes from the store of the state straight to
`napi_schedule`.  Its other points are those of the fork. -/
def rxStep (cfg : Config) (s : State) (x : Skb) (k : Keypair) (expired auth : Bool) :
    Option State :=
  match (s.rx x).pc with
  | .store =>
      some { s with
        state := update s.state x (s.rx x).st
        rx := update s.rx x { s.rx x with pc := .schedule }
        hist := { s.hist with
          left := update s.hist.left x
            (s.hist.left x + if s.state x = .uncrypted then 1 else 0) } }
  | .decrypt | .get | .schedule | .put => WgReceivePath.rxStep cfg s x k expired auth
  | _ => none

/-- Where the poll goes when its delivery loop has ended. -/
def afterLoop (cfg : Config) (workDone : ℕ) : PollPc :=
  if workDone < cfg.budget then .complete else .idle

/-- A step of the pristine `wg_packet_rx_poll` for peer `p`: the delivery loop, and then the
completion if there is budget left. -/
def pollStep (cfg : Config) (s : State) (p : Peer) (routed : Option Peer) :
    Option State :=
  let f := s.poll p
  match f.pc with
  | .idle =>
      if (s.napi p).sched then
        some { s with
          poll := update s.poll p { PollFrame.idle with pc := .peek .deliver } }
      else none
  | .peek .deliver =>
      let r := (s.rxQueue p).peekStep
      some { s with
        rxQueue := update s.rxQueue p r.1
        poll := update s.poll p
          { f with
            pc := match r.2 with
              | none => .peek .deliver
              | some none => afterLoop cfg f.workDone
              | some (some x) => .readState .deliver x } }
  | .readState .deliver x =>
      some (s.setPoll p
        (if s.state x = .uncrypted then afterLoop cfg f.workDone
          else .dropPeeked x (s.state x)))
  | .peerPut x =>
      (s.keypair x).map fun _ =>
        { s with
          peerRef := update s.peerRef p (s.peerRef p - 1)
          poll := update s.poll p
            { f with
              pc := if f.workDone + 1 < cfg.budget then .peek .deliver
                else afterLoop cfg (f.workDone + 1)
              workDone := f.workDone + 1 }
          hist := { s.hist with
            peerPuts := update s.hist.peerPuts x (s.hist.peerPuts x + 1) } }
  | .dropPeeked _ _ | .validate _ | .endpoint _ | .consume _ | .routedPut _ _ =>
      WgReceivePath.pollStep cfg s p routed
  | .keypairPut _ | .complete => WgReceivePath.pollStep cfg s p routed
  | _ => none

/-- A step of the pristine `wg_peer_remove(p)`. -/
def removeStep (cfg : Config) (s : State) (p : Peer) : Option State :=
  match s.tear p with
  | .flushing true target =>
      if ∀ c < cfg.cpus, target c ≤ (s.worker c).finished then
        some { s with tear := update s.tear p .disableNapi }
      else none
  | .cancelTimer => none
  | _ => WgReceivePath.removeStep cfg s p

/-- **The pristine receive machine.**  It has no timer and no parameters, so that the
actions about these are never enabled. -/
def step (cfg : Config) (s : State) : Action → Option State
  | .complete x expired auth =>
      (s.keypair x).bind fun k => rxStep cfg s x k expired auth
  | .poll p routed => if p < cfg.peers then pollStep cfg s p routed else none
  | .remove p => if p < cfg.peers then removeStep cfg s p else none
  | .timerFire _ | .timerRun _ | .setKnobs _ => none
  | a => WgReceivePath.step cfg s a

/-- All parameters off. -/
def noKnobs : Knobs := ⟨0, 0, 0, 0, 0⟩

/-- The reachable states of the pristine machine. -/
abbrev Reachable (cfg : Config) : State → Prop :=
  Machine.Reach (step cfg) AnyStep (State.init noKnobs)

end Pristine

/-! ## The fork's tests of parameters that are off

From the store of a verdict, and from the end of the delivery loop, the fork runs through
tests that fail.  The two lemmas are these runs. -/

/-- All parameters but `wg_diag` are off. -/
structure KnobsOff (s : State) : Prop where
  trigK : s.knobs.trigK = 0
  headwake : s.knobs.headwake = 0
  supp : s.knobs.supp = 0
  steal : s.knobs.steal = 0

/-- The two tests between the store of a packet's state and `napi_schedule`. -/
theorem reach_schedule {k : Keypair} (off : KnobsOff s) (found : s.keypair x = some k)
    (pc : (s.rx x).pc = .gate) :
    Machine.Reach (step cfg) Fixed s (s.setRx x .schedule) := by
  have gate : step cfg s (.complete x false false) = some (s.setRx x .trigGate) := by
    simp [step, completeStep, found, rxStep, pc, off.headwake]
  have trig : step cfg (s.setRx x .trigGate) (.complete x false false) =
      some (s.setRx x .schedule) := by
    simp [step, completeStep, found, rxStep, State.setRx, off.trigK]
  exact (Machine.Reach.single (a := .complete x false false) trivial gate).trans
    (.single (a := .complete x false false) trivial trig)

/-- The tests between the delivery loop and `napi_complete_done`.  Each reads a parameter,
finds it zero and goes on. -/
theorem reach_afterLoop (off : KnobsOff s) (diag : s.knobs.diag = 0) (present : p < cfg.peers)
    (pc : (s.poll p).pc = .stealGate) :
    Machine.Reach (step cfg) Fixed s
      (s.setPoll p (Pristine.afterLoop cfg (s.poll p).workDone)) := by
  have close : step cfg s (.poll p none) = some (s.setPoll p .diagClose) := by
    simp [step, present, pollStep, pollControl, pc, off.steal, State.setPoll]
  by_cases room : (s.poll p).workDone < cfg.budget
  · have diagGate : step cfg (s.setPoll p .diagClose) (.poll p none) =
        some (s.setPoll p .diagGate) := by
      simp [step, present, pollStep, pollControl, State.setPoll, diag, room]
    have headwake : step cfg (s.setPoll p .diagGate) (.poll p none) =
        some (s.setPoll p .headwakeGate) := by
      simp [step, present, pollStep, pollControl, State.setPoll, diag]
    have supp : step cfg (s.setPoll p .headwakeGate) (.poll p none) =
        some (s.setPoll p .suppGate) := by
      simp [step, present, pollStep, pollControl, State.setPoll, off.headwake]
    have complete : step cfg (s.setPoll p .suppGate) (.poll p none) =
        some (s.setPoll p .complete) := by
      simp [step, present, pollStep, pollControl, State.setPoll, off.supp]
    rw [Pristine.afterLoop, if_pos room]
    exact ((((Machine.Reach.single (a := .poll p none) trivial close).trans
      (.single (a := .poll p none) trivial diagGate)).trans
      (.single (a := .poll p none) trivial headwake)).trans
      (.single (a := .poll p none) trivial supp)).trans
      (.single (a := .poll p none) trivial complete)
  · have idle : step cfg (s.setPoll p .diagClose) (.poll p none) =
        some (s.setPoll p .idle) := by
      simp [step, present, pollStep, pollControl, State.setPoll, diag, room]
    rw [Pristine.afterLoop, if_neg room]
    exact (Machine.Reach.single (a := .poll p none) trivial close).trans
      (.single (a := .poll p none) trivial idle)

/-! ## The fork with all parameters off

No frame ever gets to a point that only a parameter leads to.  So the cases of the steps at
those points need not be considered in what follows. -/

/-- The completions' program points that are reached with all parameters off. -/
def RxPc.plain : RxPc → Bool
  | .readBlocked | .count | .xchgArmed | .tryCancel | .cmpxchgArmed | .startTimer => false
  | _ => true

/-- The poll's program points that are reached with all parameters off. -/
def PollPc.plain : PollPc → Bool
  | .idle | .entry | .peek .deliver | .readState .deliver _ | .dropPeeked _ _ => true
  | .validate _ | .endpoint _ | .consume _ | .routedPut _ _ | .keypairPut _ | .peerPut _ => true
  | .stealGate | .diagClose | .diagGate | .headwakeGate | .suppGate | .complete => true
  | _ => false

/-- What is special about the fork with all parameters off: its frames stand at plain
points, and `rx_ready` is never counted. -/
structure PlainOk (rx : Skb → RxFrame) (poll : Peer → PollFrame) (ready : Peer → BitVec 32)
    (incs : Peer → ℕ) : Prop where
  rx : ∀ x, (rx x).pc.plain = true
  poll : ∀ p, (poll p).pc.plain = true
  ready : ∀ p, ready p = 0
  incs : ∀ p, incs p = 0

/-- `PlainOk` of a state. -/
abbrev Plain (s : State) : Prop := PlainOk s.rx s.poll s.ready s.hist.readyIncs

theorem PlainOk.setRx {f : RxFrame} (h : Plain s) (x : Skb) (after : f.pc.plain = true) :
    PlainOk (update s.rx x f) s.poll s.ready s.hist.readyIncs := by
  refine ⟨fun y => ?_, h.poll, h.ready, h.incs⟩
  rcases eq_or_ne y x with rfl | ne
  · rwa [update_self]
  · rw [update_of_ne ne]
    exact h.rx y

theorem PlainOk.setPoll {f : PollFrame} (h : Plain s) (p : Peer) (after : f.pc.plain = true) :
    PlainOk s.rx (update s.poll p f) s.ready s.hist.readyIncs := by
  refine ⟨h.rx, fun q => ?_, h.ready, h.incs⟩
  rcases eq_or_ne q p with rfl | ne
  · rwa [update_self]
  · rw [update_of_ne ne]
    exact h.poll q

theorem PollMove.plain {f : PollFrame} (own : PollMove cfg s p f) (off : KnobsOff s)
    (diag : s.knobs.diag = 0) (before : (s.poll p).pc.plain = true) : f.pc.plain = true := by
  cases own with
  | readState site x pc =>
      cases site with
      | deliver =>
          dsimp only [afterRead]
          split <;> rfl
      | _ => simp [pc, PollPc.plain] at before
  | endpoint x pc =>
      dsimp only
      split <;> rfl
  | diagOn pc on => exact absurd diag on
  | headwakeOn pc on => exact absurd off.headwake on
  | suppOn pc on => exact absurd off.supp on
  | stealEnter pc on room => exact absurd off.steal on
  | _ => simp_all [PollPc.plain]

/-- The steps of a poll stay at plain points: every other point is behind a test of a
parameter. -/
theorem PlainOk.pollStep (h : Plain s) (off : KnobsOff s) (diag : s.knobs.diag = 0)
    (move : PollStep cfg s p s') : Plain s' := by
  have before := h.poll p
  cases move with
  | control f stats stall own => exact h.setPoll p (own.plain off diag before)
  | entry pc =>
      have moved := h.setPoll (f := { s.poll p with pc := .peek .deliver }) p rfl
      have zero : ∀ {α : Type} (g : Peer → α) (z : α), (∀ q, g q = z) →
          ∀ q, update g p z q = z := by
        intro α g z all q
        rcases eq_or_ne q p with rfl | ne
        · rw [update_self]
        · rw [update_of_ne ne, all]
      exact ⟨moved.rx, moved.poll, zero _ _ h.ready, zero _ _ h.incs⟩
  | peekMore site pc running =>
      rw [pc] at before
      exact h.setPoll p before
  | peekDone site head pc returned =>
      rw [pc] at before
      cases site with
      | deliver => cases head <;> exact h.setPoll p rfl
      | _ => simp [PollPc.plain] at before
  | drop x st pc => exact h.setPoll p (by dsimp only; split <;> rfl)
  | validate x k pc found => exact h.setPoll p (by dsimp only; split <;> rfl)
  | consume x k pc found => exact h.setPoll p rfl
  | consumeRouted x k r pc found counted => exact h.setPoll p rfl
  | routedPut x k r pc found => exact h.setPoll p rfl
  | keypairPut x k pc found => exact h.setPoll p rfl
  | peerPut x k pc found => exact h.setPoll p (by dsimp only; split <;> rfl)
  | complete pc => exact h.setPoll p rfl
  | _ => simp_all [PollPc.plain]

/-- Every step stays at plain points, as long as the parameters are off. -/
theorem PlainOk.step {a : Action} (h : Plain s) (off : KnobsOff s) (diag : s.knobs.diag = 0)
    (move : Transition cfg s a s') : Plain s' := by
  cases move with
  | producer move =>
      cases move with
      | produce k c pc found room => exact h.setRx _ rfl
      | ringFull k c pc found full => exact h.setRx _ rfl
      | _ => exact h
  | @complete x _ _ _ k found move =>
      have before := h.rx x
      cases move with
      | gateHead pc on crypted => exact absurd off.headwake on
      | trigCount pc on crypted => exact absurd off.trigK on
      | decrypt valid st pc verdict => exact h.setRx x rfl
      | get pc => exact h.setRx x rfl
      | store pc => exact h.setRx x rfl
      | gateStock pc stock => exact h.setRx x rfl
      | trigStock pc stock => exact h.setRx x rfl
      | schedule pc => exact h.setRx x rfl
      | put pc => exact h.setRx x rfl
      | _ => simp_all [RxPc.plain]
  | worker present move =>
      cases move with
      | take x rest pc head => exact h.setRx x rfl
      | _ => exact h
  | poll present move => exact h.pollStep off diag move
  | timer is move => cases move <;> exact h
  | remove present move => cases move <;> exact h
  | env move => cases move <;> exact h

/-- What is known of a run of the fork with all parameters off.  It bundles the facts that
both directions of the simulation use. -/
structure OffRun (cfg : Config) (s : State) : Prop where
  reach : Reachable cfg Pristine.noKnobs Fixed s
  off : KnobsOff s
  diag : s.knobs.diag = 0
  timers : TimersOff s.rx s.armed s.timer
  plain : Plain s

theorem Reachable.offRun (reach : Reachable cfg Pristine.noKnobs Fixed s) : OffRun cfg s := by
  have off : ∀ s, Reachable cfg Pristine.noKnobs Fixed s → KnobsOff s ∧ s.knobs.diag = 0 := by
    intro s reach
    have same := Reachable.fixed reach fun _ _ => id
    exact ⟨⟨by rw [same]; rfl, by rw [same]; rfl, by rw [same]; rfl, by rw [same]; rfl⟩,
      by rw [same]; rfl⟩
  have timers := Reachable.timersOff reach (fun _ _ met => Fixed.writesOnly met) rfl
  refine ⟨reach, (off s reach).1, (off s reach).2, timers, ?_⟩
  refine reach.invariant (I := Plain) ⟨fun _ => rfl, fun _ => rfl, fun _ => rfl, fun _ => rfl⟩
    fun s a s' reach h _ taken => ?_
  exact h.step (off s reach).1 (off s reach).2 (step_cases taken)

/-! ## Every pristine step is a run of the fork

The direction from the pristine driver to the fork.  A step of a shared part is the same
step; one that ends at a point where the fork tests a parameter is prolonged by the tests.
-/

namespace Pristine

/-- The completion of a packet.  Behind the store of the verdict the fork has tests to make
before it comes to `napi_schedule`. -/
theorem lift_complete {k : Keypair} {expired auth : Bool} (run : OffRun cfg s)
    (found : s.keypair x = some k) (taken : rxStep cfg s x k expired auth = some s') :
    Machine.Reach (WgReceivePath.step cfg) Fixed s s' := by
  unfold rxStep at taken
  split at taken
  · rename_i pc
    -- the store, and the two tests
    cases taken
    let t : State := { s with
      state := update s.state x (s.rx x).st
      rx := update s.rx x { s.rx x with pc := .gate }
      hist := { s.hist with
        left := update s.hist.left x
          (s.hist.left x + if s.state x = .uncrypted then 1 else 0) } }
    have store : WgReceivePath.step cfg s (.complete x expired auth) = some t := by
      simp [WgReceivePath.step, completeStep, found, WgReceivePath.rxStep, pc, t]
    have off : KnobsOff t := ⟨run.off.trigK, run.off.headwake, run.off.supp, run.off.steal⟩
    have tests : Machine.Reach (WgReceivePath.step cfg) Fixed t (t.setRx x .schedule) :=
      reach_schedule (k := k) off found (by simp [t])
    have gone : t.setRx x .schedule = { s with
        state := update s.state x (s.rx x).st
        rx := update s.rx x { s.rx x with pc := .schedule }
        hist := { s.hist with
          left := update s.hist.left x
            (s.hist.left x + if s.state x = .uncrypted then 1 else 0) } } := by
      simp [State.setRx, t]
    rw [gone] at tests
    exact (Machine.Reach.single (a := .complete x expired auth) trivial store).trans tests
  all_goals first
    | cases taken
    | exact .single (a := .complete x expired auth) trivial
        (by simpa [WgReceivePath.step, completeStep, found] using taken)

/-- The poll of a peer.  At its entry the fork resets `rx_ready`, which is zero already;
behind the delivery loop it has its tests to make. -/
theorem lift_poll {routed : Option Peer} (run : OffRun cfg s) (present : p < cfg.peers)
    (taken : pollStep cfg s p routed = some s') :
    Machine.Reach (WgReceivePath.step cfg) Fixed s s' := by
  -- a step of the fork that ends at the tests behind the loop goes through them
  have through : ∀ t : State, t.knobs = s.knobs → (t.poll p).pc = .stealGate →
      WgReceivePath.step cfg s (.poll p routed) = some t →
      Machine.Reach (WgReceivePath.step cfg) Fixed s
        (t.setPoll p (afterLoop cfg (t.poll p).workDone)) := by
    intro t knobs pc first
    have off : KnobsOff t := ⟨knobs ▸ run.off.trigK, knobs ▸ run.off.headwake,
      knobs ▸ run.off.supp, knobs ▸ run.off.steal⟩
    exact (Machine.Reach.single (a := .poll p routed) trivial first).trans
      (reach_afterLoop off (knobs ▸ run.diag) present pc)
  -- a step that the two machines share
  have shared : WgReceivePath.pollStep cfg s p routed = some s' →
      Machine.Reach (WgReceivePath.step cfg) Fixed s s' := fun same =>
    .single (a := .poll p routed) trivial (by simpa [WgReceivePath.step, present] using same)
  cases pc : (s.poll p).pc with
  | idle =>
      simp only [pollStep, pc] at taken
      split at taken <;> cases taken
      rename_i sched
      let t : State := { s with poll := update s.poll p { PollFrame.idle with pc := .entry } }
      have start : WgReceivePath.step cfg s (.poll p routed) = some t := by
        simp [WgReceivePath.step, present, WgReceivePath.pollStep, pollControl, pc, sched, t]
      have entry : WgReceivePath.step cfg t (.poll p routed) = some { s with
          poll := update s.poll p { PollFrame.idle with pc := .peek .deliver } } := by
        have incs : update s.hist.readyIncs p 0 = s.hist.readyIncs := by
          rw [← run.plain.incs p, Function.update_eq_self]
        simp only [WgReceivePath.step, present, if_true, WgReceivePath.pollStep, t, update_self,
          Function.update_idem, incs]
        rw [← run.plain.ready p, Function.update_eq_self]
      exact (Machine.Reach.single (a := .poll p routed) trivial start).trans
        (.single (a := .poll p routed) trivial entry)
  | peek site =>
      cases site with
      | deliver =>
          simp only [pollStep, pc, Option.some.injEq] at taken
          cases returned : (s.rxQueue p).peekStep.2 with
          | none =>
              refine shared ?_
              rw [returned] at taken
              simpa [WgReceivePath.pollStep, pc, returned] using taken
          | some head =>
              cases head with
              | none =>
                  rw [returned] at taken
                  have ended := through { s with
                    rxQueue := update s.rxQueue p (s.rxQueue p).peekStep.1
                    poll := update s.poll p { s.poll p with pc := .stealGate } } rfl (by simp)
                    (by simp [WgReceivePath.step, present, WgReceivePath.pollStep, pc, returned,
                      afterPeek])
                  simpa [State.setPoll, taken] using ended
              | some x =>
                  refine shared ?_
                  rw [returned] at taken
                  simpa [WgReceivePath.pollStep, pc, returned, afterPeek] using taken
      | _ => simp [pollStep, pc] at taken
  | readState site x =>
      cases site with
      | deliver =>
          simp only [pollStep, pc, Option.some.injEq] at taken
          by_cases uncrypted : s.state x = .uncrypted
          · have ended := through (s.setPoll p .stealGate) rfl (by simp [State.setPoll])
              (by simp [WgReceivePath.step, present, WgReceivePath.pollStep, pollControl, pc,
                afterRead, uncrypted, State.setPoll])
            rw [if_pos uncrypted] at taken
            simpa [← taken, State.setPoll] using ended
          · refine shared ?_
            simpa [WgReceivePath.pollStep, pollControl, pc, afterRead, uncrypted,
              State.setPoll] using taken
      | _ => simp [pollStep, pc] at taken
  | peerPut x =>
      simp only [pollStep, pc, Option.map_eq_some_iff] at taken
      obtain ⟨k, found, taken⟩ := taken
      by_cases room : (s.poll p).workDone + 1 < cfg.budget
      · refine shared ?_
        simpa [WgReceivePath.pollStep, deliverStep, pc, found, room] using taken
      · have ended := through { s with
            peerRef := update s.peerRef p (s.peerRef p - 1)
            poll := update s.poll p
              { s.poll p with pc := .stealGate, workDone := (s.poll p).workDone + 1 }
            hist := { s.hist with
              peerPuts := update s.hist.peerPuts x (s.hist.peerPuts x + 1) } } rfl (by simp)
            (by simp [WgReceivePath.step, present, WgReceivePath.pollStep, deliverStep, pc, found,
              room])
        simpa [room, ← taken, State.setPoll] using ended
  | dropPeeked x st => exact shared (by simpa only [pollStep, pc] using taken)
  | validate x => exact shared (by simpa only [pollStep, pc] using taken)
  | endpoint x => exact shared (by simpa only [pollStep, pc] using taken)
  | consume x => exact shared (by simpa only [pollStep, pc] using taken)
  | routedPut r x => exact shared (by simpa only [pollStep, pc] using taken)
  | keypairPut x => exact shared (by simpa only [pollStep, pc] using taken)
  | complete => exact shared (by simpa only [pollStep, pc] using taken)
  | _ => simp [pollStep, pc] at taken

/-- The removal of a peer.  The fork has one more step, the cancel of a timer that was never
started. -/
theorem lift_remove (run : OffRun cfg s) (present : p < cfg.peers)
    (taken : removeStep cfg s p = some s') :
    Machine.Reach (WgReceivePath.step cfg) Fixed s s' := by
  unfold removeStep at taken
  split at taken
  · rename_i target pc
    -- the flush, and the timer that is not there
    split at taken <;> cases taken
    rename_i ended
    let t : State := { s with tear := update s.tear p .cancelTimer }
    have flushed : WgReceivePath.step cfg s (.remove p) = some t := by
      simp only [WgReceivePath.step, present, if_true, WgReceivePath.removeStep, pc]
      rw [if_pos ended]
    have stopped := run.timers.stopped p
    have cancel : WgReceivePath.step cfg t (.remove p) =
        some { s with tear := update s.tear p .disableNapi } := by
      have same : update s.timer p ⟨false, .idle⟩ = s.timer := by
        rw [← stopped, Function.update_eq_self]
      simp [WgReceivePath.step, present, WgReceivePath.removeStep, t, stopped, same]
    exact (Machine.Reach.single (a := .remove p) trivial flushed).trans
      (.single (a := .remove p) trivial cancel)
  · cases taken
  · exact .single (a := .remove p) trivial (by simpa [WgReceivePath.step, present] using taken)

/-- **Every pristine step is a run of the fork** with all parameters off: the same step, and
the tests behind it. -/
theorem lift {a : Action} (run : OffRun cfg s) (taken : step cfg s a = some s') :
    Machine.Reach (WgReceivePath.step cfg) Fixed s s' := by
  cases a with
  | complete x expired auth =>
      simp only [step, Option.bind_eq_some_iff] at taken
      obtain ⟨k, found, taken⟩ := taken
      exact lift_complete run found taken
  | poll p routed =>
      simp only [step] at taken
      split at taken
      · exact lift_poll run ‹_› taken
      · cases taken
  | remove p =>
      simp only [step] at taken
      split at taken
      · exact lift_remove run ‹_› taken
      · cases taken
  | receive => exact .single (a := .receive) trivial taken
  | producer x found => exact .single (a := .producer x found) trivial taken
  | worker c => exact .single (a := .worker c) trivial taken
  | peerGet p => exact .single (a := .peerGet p) trivial taken
  | peerPut p => exact .single (a := .peerPut p) trivial taken
  | keypairGet k => exact .single (a := .keypairGet k) trivial taken
  | keypairPut k => exact .single (a := .keypairPut k) trivial taken
  | tick ns => exact .single (a := .tick ns) trivial taken
  | _ => cases taken

/-- The states of the pristine machine are states of the fork. -/
theorem Reachable.fork {t : State} (reach : Reachable cfg t) : OffRun cfg t := by
  have fork : WgReceivePath.Reachable cfg noKnobs Fixed t :=
    Machine.Reach.invariant (I := WgReceivePath.Reachable cfg noKnobs Fixed) .start
      (fun _ _ _ _ fork _ taken => fork.trans (lift (WgReceivePath.Reachable.offRun fork) taken))
      reach
  exact WgReceivePath.Reachable.offRun fork

end Pristine

/-! ## Every step of the fork is a pristine step or none

The other direction, for the state with the extra points mapped away.  Steps commute with
the mapping, since it changes frames of completions, polls and removals only, and these in a
way that no other context sees. -/

/-- The completion's place in the pristine machine. -/
def stockRx (f : RxFrame) : RxFrame :=
  match f.pc with
  | .gate | .trigGate => { f with pc := .schedule }
  | _ => f

/-- The poll's place in the pristine machine. -/
def stockPoll (cfg : Config) (f : PollFrame) : PollFrame :=
  match f.pc with
  | .entry => { f with pc := .peek .deliver }
  | .stealGate | .diagClose => { f with pc := Pristine.afterLoop cfg f.workDone }
  | .diagGate | .headwakeGate | .suppGate => { f with pc := .complete }
  | _ => f

/-- The removal's place in the pristine machine. -/
def stockTear : TearPc → TearPc
  | .cancelTimer => .disableNapi
  | pc => pc

/-- The fork's state as one of the pristine machine: a frame at one of the fork's extra
points is put at the point that follows it with all parameters off. -/
def stock (cfg : Config) (s : State) : State :=
  { s with
    rx := stockRx ∘ s.rx
    poll := stockPoll cfg ∘ s.poll
    tear := stockTear ∘ s.tear }

theorem stockRx_done {f : RxFrame} : (stockRx f).pc = .done ↔ f.pc = .done := by
  unfold stockRx
  split <;> simp_all

/-- The fork goes on within a place of the pristine machine. -/
theorem stock_setPoll {f : PollFrame} (same : stockPoll cfg f = stockPoll cfg (s.poll p)) :
    stock cfg { s with poll := update s.poll p f } = stock cfg s := by
  simp only [stock, Function.comp_update, same]
  rw [← Function.comp_apply (f := stockPoll cfg), Function.update_eq_self]

theorem stock_setRx {pc : RxPc} (same : stockRx { s.rx x with pc := pc } = stockRx (s.rx x)) :
    stock cfg (s.setRx x pc) = stock cfg s := by
  simp only [stock, State.setRx, Function.comp_update, same]
  rw [← Function.comp_apply (f := stockRx), Function.update_eq_self]

/-- The producers are the same in both drivers. -/
theorem stock_producer (move : ProducerStep cfg s x s') :
    ProducerStep cfg (stock cfg s) x (stock cfg s') := by
  cases move with
  | produce k c pc found room =>
      have moved : ProducerStep cfg (stock cfg s) x _ := .produce k c pc found room
      simpa [stock, Function.comp_update, stockRx] using moved
  | ringFull k c pc found full =>
      have moved : ProducerStep cfg (stock cfg s) x _ := .ringFull k c pc found full
      simpa [stock, Function.comp_update, stockRx] using moved
  | completed k pc found returned => exact .completed k pc found (stockRx_done.mpr returned)
  | lookupMiss pc => exact .lookupMiss pc
  | lookupHit k pc counted => exact .lookupHit k pc counted
  | keypairNull pc missing => exact .keypairNull pc missing
  | keypairGone k pc found zero => exact .keypairGone k pc found zero
  | keypairHit k pc found counted => exact .keypairHit k pc found counted
  | peerDead k pc found dead => exact .peerDead k pc found dead
  | peerAlive k pc found alive => exact .peerAlive k pc found alive
  | initState k pc found => exact .initState k pc found
  | reject k pc found full => exact .reject k pc found full
  | accept k q pc found room => exact .accept k q pc found room
  | enqClear k q pc found enq taken => exact .enqClear k q pc found enq taken
  | enqXchg k q pc found enq taken => exact .enqXchg k q pc found enq taken
  | enqLink k q prev pc found enq taken => exact .enqLink k q prev pc found enq taken
  | nextCpu k pc found => exact .nextCpu k pc found
  | storeCpu k c pc found => exact .storeCpu k c pc found
  | queueWork k c pc found => exact .queueWork k c pc found
  | errKeypairPut k pc found => exact .errKeypairPut k pc found
  | errPeerPut k pc found => exact .errPeerPut k pc found
  | errPeerNull pc missing => exact .errPeerNull pc missing

theorem stock_worker {c : Cpu} (move : WorkerStep s c s') :
    WorkerStep (stock cfg s) c (stock cfg s') := by
  cases move with
  | start pc queued => exact .start pc queued
  | finish pc empty => exact .finish pc empty
  | take x rest pc head =>
      have moved : WorkerStep (stock cfg s) c _ := .take x rest pc head
      simpa [stock, Function.comp_update, stockRx] using moved
  | back x pc returned => exact .back x pc (stockRx_done.mpr returned)

/-- The completions: the tests of the parameters are no steps of the pristine machine.  The
mapping has put the frame behind them already. -/
theorem stock_complete {k : Keypair} {expired auth : Bool} (run : OffRun cfg s)
    (taken : rxStep cfg s x k expired auth = some s') :
    stock cfg s' = stock cfg s ∨
      Pristine.rxStep cfg (stock cfg s) x k expired auth = some (stock cfg s') := by
  have plain := run.plain.rx x
  cases pc : (s.rx x).pc with
  | gate =>
      simp only [rxStep, pc, run.off.headwake, ne_eq, not_true_eq_false, false_and, if_false,
        Option.some.injEq] at taken
      exact .inl (taken ▸ stock_setRx (by simp [stockRx, pc]))
  | trigGate =>
      simp only [rxStep, pc, run.off.trigK, true_or, if_true, Option.some.injEq] at taken
      exact .inl (taken ▸ stock_setRx (by simp [stockRx, pc]))
  | decrypt =>
      simp only [rxStep, pc, Option.some.injEq] at taken
      subst taken
      right
      cases verdict : (decryptPacket (s.valid k) (s.counter k) expired auth).2 <;>
        simp [Pristine.rxStep, rxStep, stock, pc, stockRx, verdict, Function.comp_update]
  | get =>
      simp only [rxStep, pc, Option.some.injEq] at taken
      subst taken
      right
      simp [Pristine.rxStep, rxStep, stock, pc, stockRx, Function.comp_update]
  | store =>
      simp only [rxStep, pc, Option.some.injEq] at taken
      subst taken
      right
      by_cases first : s.state x = .uncrypted <;>
        simp [Pristine.rxStep, stock, pc, stockRx, first, Function.comp_update]
  | schedule =>
      simp only [rxStep, pc, Option.some.injEq] at taken
      subst taken
      right
      simp [Pristine.rxStep, rxStep, stock, pc, stockRx, Function.comp_update]
  | put =>
      simp only [rxStep, pc, Option.some.injEq] at taken
      subst taken
      right
      simp [Pristine.rxStep, rxStep, stock, pc, stockRx, Function.comp_update]
  | unqueued => simp [rxStep, pc] at taken
  | ring => simp [rxStep, pc] at taken
  | done => simp [rxStep, pc] at taken
  | _ => simp [pc, RxPc.plain] at plain

/-- The points of the poll that the pristine one lacks: the store to `rx_ready`, and the
tests behind the delivery loop. -/
def PollPc.isExtra : PollPc → Bool
  | .entry | .stealGate | .diagClose | .diagGate | .headwakeGate | .suppGate => true
  | _ => false

/-- With the parameters off these points only lead on to the next one, which is mapped to
the same point. -/
theorem stock_pollStep_extra {routed : Option Peer} (run : OffRun cfg s)
    (extra : (s.poll p).pc.isExtra = true) (taken : pollStep cfg s p routed = some s') :
    stock cfg s' = stock cfg s := by
  cases pc : (s.poll p).pc with
  | entry =>
      simp only [pollStep, pc, Option.some.injEq] at taken
      have incs : update s.hist.readyIncs p 0 = s.hist.readyIncs := by
        rw [← run.plain.incs p, Function.update_eq_self]
      have ready : update s.ready p 0 = s.ready := by
        rw [← run.plain.ready p, Function.update_eq_self]
      rw [incs, ready] at taken
      rw [← taken]
      exact stock_setPoll (by simp [stockPoll, pc])
  | diagClose =>
      simp only [pollStep, pollControl, pc, run.diag, ne_eq, not_true_eq_false, false_and,
        if_false, Option.map_some, Option.some.injEq, Function.update_eq_self] at taken
      refine taken ▸ stock_setPoll ?_
      by_cases room : (s.poll p).workDone < cfg.budget <;>
        simp [stockPoll, pc, room, Pristine.afterLoop]
  | stealGate | diagGate | headwakeGate | suppGate =>
      simp only [pollStep, pollControl, pc, run.off.steal, run.diag, run.off.headwake,
        run.off.supp, ne_eq, not_true_eq_false, false_and, if_false, Option.map_some,
        Option.some.injEq, Function.update_eq_self] at taken
      exact taken ▸ stock_setPoll (by simp [stockPoll, pc])
  | _ => simp [pc, PollPc.isExtra] at extra

/-- The packet that the poll is delivering, up to the put of its keypair. -/
def PollPc.delivering : PollPc → Option Skb
  | .validate x | .consume x | .routedPut _ x | .keypairPut x => some x
  | _ => none

/-- The delivery of a packet is the same in both drivers: it does not touch the points that
are mapped, and the frame goes on to one that is not. -/
theorem stock_deliverStep {k : Keypair} {routed : Option Peer}
    (delivering : (s.poll p).pc.delivering = some x)
    (taken : deliverStep cfg s p x k routed = some s') :
    deliverStep cfg (stock cfg s) p x k routed = some (stock cfg s') := by
  cases pc : (s.poll p).pc with
  | validate y =>
      simp only [deliverStep, pc, Option.some.injEq] at taken
      subst taken
      cases valid : ((s.counter k).counterValidate (cfg.nonce x)).2 <;>
        simp [deliverStep, stock, stockPoll, pc, valid, Function.comp_update]
  | consume y =>
      simp only [deliverStep, pc] at taken
      cases routed with
      | none =>
          cases taken
          simp [deliverStep, stock, stockPoll, pc, Function.comp_update]
      | some r =>
          dsimp only at taken
          split at taken <;> cases taken
          rename_i counted
          simp [deliverStep, stock, stockPoll, pc, counted, Function.comp_update]
  | routedPut r y | keypairPut y =>
      simp only [deliverStep, pc, Option.some.injEq] at taken
      subst taken
      simp [deliverStep, stock, stockPoll, pc, Function.comp_update]
  | _ => simp [pc, PollPc.delivering] at delivering

theorem stock_pollStep_delivering {routed : Option Peer}
    (delivering : (s.poll p).pc.delivering = some x)
    (taken : pollStep cfg s p routed = some s') :
    Pristine.pollStep cfg (stock cfg s) p routed = some (stock cfg s') := by
  have same : ((stock cfg s).poll p).pc = (s.poll p).pc ∧
      pollStep cfg s p routed = (s.keypair x).bind fun k => deliverStep cfg s p x k routed := by
    cases pc : (s.poll p).pc <;> simp [pc, PollPc.delivering] at delivering <;> subst delivering <;>
      simp [stock, stockPoll, pollStep, pc]
  have delegated : Pristine.pollStep cfg (stock cfg s) p routed =
      (s.keypair x).bind fun k => deliverStep cfg (stock cfg s) p x k routed := by
    cases pc : (s.poll p).pc <;> simp [pc, PollPc.delivering] at delivering <;> subst delivering <;>
      simp [Pristine.pollStep, pollStep, same.1, pc] <;> rfl
  rw [same.2, Option.bind_eq_some_iff] at taken
  obtain ⟨k, found, delivered⟩ := taken
  rw [delegated, found]
  exact stock_deliverStep delivering delivered

/-- The polls: neither are the tests behind the delivery loop.  All other steps of the poll
are common to both. -/
theorem stock_pollStep {routed : Option Peer} (run : OffRun cfg s)
    (taken : pollStep cfg s p routed = some s') :
    stock cfg s' = stock cfg s ∨
      Pristine.pollStep cfg (stock cfg s) p routed = some (stock cfg s') := by
  have plain := run.plain.poll p
  cases pc : (s.poll p).pc with
  | entry | stealGate | diagClose | diagGate | headwakeGate | suppGate =>
      exact .inl (stock_pollStep_extra run (by rw [pc]; rfl) taken)
  | validate x | consume x | routedPut r x | keypairPut x =>
      exact .inr (stock_pollStep_delivering (by rw [pc]; rfl) taken)
  | idle =>
      simp only [pollStep, pollControl, pc] at taken
      split at taken <;> cases taken
      rename_i sched
      right
      simp [Pristine.pollStep, stock, stockPoll, pc, sched, Function.comp_update, PollFrame.idle]
  | peek site =>
      cases site with
      | deliver =>
          right
          simp only [pollStep, pc, Option.some.injEq] at taken
          subst taken
          cases returned : (s.rxQueue p).peekStep.2 with
          | none =>
              simp [Pristine.pollStep, stock, stockPoll, pc, returned, Function.comp_update]
          | some head =>
              cases head <;> simp [Pristine.pollStep, stock, stockPoll, pc, returned, afterPeek,
                Function.comp_update]
      | _ => simp [pc, PollPc.plain] at plain
  | readState site x =>
      cases site with
      | deliver =>
          right
          simp only [pollStep, pollControl, pc, Option.map_some, Option.some.injEq,
            Function.update_eq_self] at taken
          subst taken
          by_cases uncrypted : s.state x = .uncrypted <;>
            simp [Pristine.pollStep, stock, stockPoll, pc, afterRead, uncrypted, State.setPoll,
              Function.comp_update]
      | _ => simp [pc, PollPc.plain] at plain
  | peerPut x =>
      -- the loop is left for the tests in one driver, and for its end in the other
      right
      simp only [pollStep, pc, Option.bind_eq_some_iff] at taken
      obtain ⟨k, found, taken⟩ := taken
      simp only [deliverStep, pc, Option.some.injEq] at taken
      subst taken
      by_cases room : (s.poll p).workDone + 1 < cfg.budget <;>
        simp [Pristine.pollStep, stock, stockPoll, pc, found, room, Function.comp_update]
  | dropPeeked x st =>
      right
      simp only [pollStep, pc, Option.some.injEq] at taken
      subst taken
      by_cases crypted : st = .crypted <;>
        simp [Pristine.pollStep, pollStep, stock, stockPoll, pc, crypted, Function.comp_update]
  | endpoint x =>
      right
      simp only [pollStep, pollControl, pc, Option.map_some, Option.some.injEq] at taken
      subst taken
      cases known : cfg.endpointOk x <;>
        simp [Pristine.pollStep, pollStep, pollControl, stock, stockPoll, pc, known,
          Function.comp_update]
  | complete =>
      right
      simp only [pollStep, pc, Option.some.injEq] at taken
      subst taken
      simp [Pristine.pollStep, pollStep, stock, stockPoll, pc, Function.comp_update]
  | _ => simp [pc, PollPc.plain] at plain

/-- The removal: there is no timer to cancel.  The step that cancels it is mapped to none.
-/
theorem stock_remove (run : OffRun cfg s) (move : RemoveStep cfg s p s') :
    stock cfg s' = stock cfg s ∨
      Pristine.removeStep cfg (stock cfg s) p = some (stock cfg s') := by
  -- the place of the removal in the pristine machine
  have place : ∀ pc, s.tear p = pc → (stock cfg s).tear p = stockTear pc := by
    rintro pc rfl
    rfl
  cases move with
  | cancelTimer pc idle =>
      left
      have same : update s.timer p ⟨false, .idle⟩ = s.timer := by
        rw [← run.timers.stopped p, Function.update_eq_self]
      have stays : update (stockTear ∘ s.tear) p .disableNapi = stockTear ∘ s.tear := by
        rw [show TearPc.disableNapi = (stockTear ∘ s.tear) p by simp [pc, stockTear],
          Function.update_eq_self]
      simp only [stock, Function.comp_update, stockTear, same, stays]
  | flushed again target pc ended =>
      right
      have place := place _ pc
      have ended : ∀ c < cfg.cpus, target c ≤ ((stock cfg s).worker c).finished := ended
      cases again with
      | false =>
          simp only [Pristine.removeStep, removeStep, place, stockTear]
          rw [if_pos ended]
          simp [stock, Function.comp_update, stockTear]
      | true =>
          simp only [Pristine.removeStep, place, stockTear]
          rw [if_pos ended]
          simp [stock, Function.comp_update, stockTear]
  | synchronized n pc outside =>
      right
      have outside : ∀ x < n, ((stock cfg s).prod x).inSection = false := outside
      simp only [Pristine.removeStep, removeStep, place _ pc, stockTear]
      rw [if_pos outside]
      simp [stock, Function.comp_update, stockTear]
  | disabled pc stopped =>
      right
      simp [Pristine.removeStep, removeStep, stock, pc, stockTear, stopped, Function.comp_update]
  | makeDead pc =>
      right
      simp [Pristine.removeStep, removeStep, stock, pc, stockTear, Function.comp_update]
  | synchronize pc =>
      right
      simp [Pristine.removeStep, removeStep, stock, pc, stockTear, Function.comp_update]
  | clear pc =>
      right
      simp [Pristine.removeStep, removeStep, stock, pc, stockTear, Function.comp_update]
  | flush again pc =>
      right
      simp [Pristine.removeStep, removeStep, stock, pc, stockTear, Function.comp_update]
  | disableNapi pc =>
      right
      simp [Pristine.removeStep, removeStep, stock, pc, stockTear, Function.comp_update]
  | finalPut pc =>
      right
      simp [Pristine.removeStep, removeStep, stock, pc, stockTear, Function.comp_update]

/-- **Every step of the fork** with all parameters off **is a pristine step or none.**  A
silent step is a run of length zero of the pristine machine. -/
theorem stock_step {a : Action} (run : OffRun cfg s) (fixed : Fixed s a)
    (taken : step cfg s a = some s') :
    Machine.Reach (Pristine.step cfg) AnyStep (stock cfg s) (stock cfg s') := by
  -- no step, or one
  have of_or : ∀ b, stock cfg s' = stock cfg s ∨
      Pristine.step cfg (stock cfg s) b = some (stock cfg s') →
      Machine.Reach (Pristine.step cfg) AnyStep (stock cfg s) (stock cfg s') := by
    rintro b (same | moved)
    · rw [same]
      exact .start
    · exact .single trivial moved
  cases a with
  | complete x expired auth =>
      simp only [step, completeStep, Option.bind_eq_some_iff] at taken
      obtain ⟨k, found, taken⟩ := taken
      refine of_or (.complete x expired auth) ((stock_complete run taken).imp_right fun moved => ?_)
      simpa [Pristine.step, stock, found] using moved
  | poll p routed =>
      simp only [step] at taken
      split at taken
      · rename_i present
        refine of_or (.poll p routed) ((stock_pollStep run taken).imp_right fun moved => ?_)
        simpa [Pristine.step, present] using moved
      · cases taken
  | remove p =>
      simp only [step] at taken
      split at taken
      · rename_i present
        refine of_or (.remove p)
          ((stock_remove run (removeStep_cases taken)).imp_right fun moved => ?_)
        simpa [Pristine.step, present] using moved
      · cases taken
  | timerFire p =>
      have stopped := run.timers.stopped p
      simp [step, timerFire, stopped] at taken
  | timerRun p =>
      have stopped := run.timers.stopped p
      simp [step, timerRun, stopped] at taken
  | setKnobs knobs => exact fixed.elim
  | producer x found =>
      obtain ⟨found, moved⟩ := (stock_producer (producerStep_cases taken)).taken
      exact of_or (.producer x found) (.inr moved)
  | worker c =>
      simp only [step] at taken
      split at taken
      · rename_i present
        have moved : WorkerStep (stock cfg s) c (stock cfg s') :=
          stock_worker (workerStep_cases taken)
        have taken := moved.taken
        exact of_or (.worker c) (.inr (by simpa [Pristine.step, step, present] using taken))
      · cases taken
  | receive =>
      cases taken
      exact of_or .receive (.inr rfl)
  | peerGet p =>
      simp only [step] at taken
      split at taken <;> cases taken
      exact of_or (.peerGet p) (.inr (by simp [Pristine.step, step, stock, *]))
  | peerPut p =>
      simp only [step] at taken
      split at taken <;> cases taken
      exact of_or (.peerPut p) (.inr (by simp [Pristine.step, step, stock, *]))
  | keypairGet k =>
      simp only [step] at taken
      split at taken <;> cases taken
      exact of_or (.keypairGet k) (.inr (by simp [Pristine.step, step, stock, *]))
  | keypairPut k =>
      simp only [step] at taken
      split at taken <;> cases taken
      exact of_or (.keypairPut k) (.inr (by simp [Pristine.step, step, stock, *]))
  | tick ns =>
      cases taken
      exact of_or (.tick ns) (.inr rfl)

/-- The states of the fork with all parameters off, as pristine states. -/
theorem Reachable.stock (reach : Reachable cfg Pristine.noKnobs Fixed s) :
    Pristine.Reachable cfg (stock cfg s) := by
  have simulated : ∃ t, Pristine.Reachable cfg t ∧ t = WgReceivePath.stock cfg s := by
    refine Machine.Reach.simulate (R := fun s t => t = WgReceivePath.stock cfg s) rfl ?_ reach
    rintro s a s' t reach rfl fixed taken
    exact ⟨_, stock_step (Reachable.offRun reach) fixed taken, rfl⟩
  obtain ⟨t, run, rfl⟩ := simulated
  exact run

/-! ## The observable traces -/

/-- The traces of the fork with all parameters off but `wg_diag`, which keeps its value: the
observable actions of its finite runs. -/
def ForkTrace (cfg : Config) (diag : BitVec 64) (obs : List Obs) : Prop :=
  ∃ s, Reachable cfg ⟨0, 0, 0, 0, diag⟩ Fixed s ∧ s.hist.obs = obs

/-- The traces of the pristine machine. -/
def PristineTrace (cfg : Config) (obs : List Obs) : Prop :=
  ∃ s, Pristine.Reachable cfg s ∧ s.hist.obs = obs

/-- With `wg_diag` off the fork and the pristine machine have the same traces. -/
theorem forkTrace_iff (obs : List Obs) : ForkTrace cfg 0 obs ↔ PristineTrace cfg obs := by
  constructor
  · rintro ⟨s, reach, rfl⟩
    exact ⟨stock cfg s, Reachable.stock reach, rfl⟩
  · rintro ⟨t, reach, rfl⟩
    exact ⟨t, (Pristine.Reachable.fork reach).reach, rfl⟩

end WgReceivePath
