import WgReceivePath.QueueOrder

/-!
# What a poll knows at each of its program points

Facts about one peer's poll that do not depend on the other contexts: a running poll owns
`NAPI_STATE_SCHED`, a dequeue is in progress only while the poll peeks, a poll on its way to
`napi_complete_done` has budget left, and a poll that is about to suppress `MISSED` has its
head cached.

`PollOk` collects them for one peer, by the poll's program point, and `Reachable.polls` has
them in every run.  They are what the later modules may assume when they look at a single
step of a poll: that it can only complete with budget left is why a poll that stops for its
budget stays scheduled, and that the head is cached while `MISSED` is being suppressed is
why the second peek of `wg_supp` sees the same packet as the first (`peekStep_of_cached`).

The private steps of the poll are taken together: `PollMove.ok` says once what any of them
may do to these facts, and the cases of `PollStep` that write to shared memory come one by
one.
-/

namespace WgReceivePath

open Function (update update_self update_of_ne)

variable {cfg : Config} {s s' : State} {x : Skb} {p : Peer}

/-- Behind the test `work_done < budget` of the completion: from here on the poll goes to
`napi_complete_done` and nowhere else. -/
def PollPc.completing : PollPc → Bool
  | .diagGate | .diagMiss _ | .diagClass _ | .stallFlip _ | .stallOpen _ => true
  | .headwakeGate | .publishStore _ | .recheckSet => true
  | .suppGate | .suppTest | .suppClear | .suppCount | .suppSet | .complete => true
  | .peek .diag | .peek .publish | .peek .recheck | .peek .supp | .peek .suppRecheck => true
  | .readState .diag _ | .readState .publish _ | .readState .recheck _ => true
  | .readState .supp _ | .readState .suppRecheck _ => true
  | _ => false

/-- Between the test of an `UNCRYPTED` head and the second peek of `wg_supp`. -/
def PollPc.suppressing : PollPc → Bool
  | .suppTest | .suppClear | .peek .suppRecheck => true
  | _ => false

/-- The poll is inside `wg_prev_queue_peek`. -/
def PollPc.peeking : PollPc → Bool
  | .peek _ => true
  | _ => false

/-- What one peer's poll knows.  `sched` says that it owns the NAPI instance while it runs,
`deq` that the queue's consumer side is at rest outside a peek, and the other fields what
the control flow behind it has established. -/
structure PollOk (budget : ℕ) (frame : PollFrame) (q : PrevQueue Skb) (napi : Napi) :
    Prop where
  sched : frame.pc ≠ .idle → napi.sched = true
  missed : napi.missed = true → napi.sched = true
  deq : frame.pc.peeking = false → q.deq = .idle
  workDone : frame.pc.completing = true → frame.workDone < budget
  cached : frame.pc.suppressing = true → q.peeked ≠ none

/-- `PollOk` of every peer. -/
abbrev Polls (cfg : Config) (s : State) : Prop :=
  ∀ p, PollOk cfg.budget (s.poll p) (s.rxQueue p) (s.napi p)

section Peer

variable {budget : ℕ} {frame frame' : PollFrame} {q q' : PrevQueue Skb} {napi napi' : Napi}

/-- Producers leave the consumer's part of the queue alone. -/
theorem PollOk.setQueue (h : PollOk budget frame q napi)
    (same : q'.peeked = q.peeked ∧ q'.deq = q.deq) : PollOk budget frame q' napi :=
  ⟨h.sched, h.missed, fun pc => same.2.trans (h.deq pc), h.workDone,
    fun pc => same.1 ▸ h.cached pc⟩

theorem PollOk.setNapi (h : PollOk budget frame q napi)
    (sched : napi.sched = true → napi'.sched = true)
    (missed : napi'.missed = true → napi'.sched = true) : PollOk budget frame q napi' :=
  ⟨fun pc => sched (h.sched pc), missed, h.deq, h.workDone, h.cached⟩

theorem PollOk.schedule (h : PollOk budget frame q napi) :
    PollOk budget frame q napi.schedule := by
  refine h.setNapi ?_ ?_
  · unfold Napi.schedule
    split <;> simp
  · unfold Napi.schedule
    split
    · exact h.missed
    · simp

/-- The poll moves on, from a point outside `wg_prev_queue_peek`. -/
theorem PollOk.setFrame (h : PollOk budget frame q napi) (running : napi.sched = true)
    (outside : frame.pc.peeking = false)
    (workDone : frame'.pc.completing = true → frame'.workDone < budget)
    (cached : frame'.pc.suppressing = true → q.peeked ≠ none) :
    PollOk budget frame' q napi :=
  ⟨fun _ => running, h.missed, fun _ => h.deq outside, workDone, cached⟩

end Peer

theorem afterRead_completing {site : PeekSite} {st : PacketState}
    (now : (afterRead site x st).completing = true) :
    (PollPc.readState site x).completing = true := by
  cases site <;> simp only [afterRead] at now <;> (try split at now) <;>
    simp_all [PollPc.completing]

/-- The private steps of the poll: none of them is inside a peek, and none comes to the
completion or to the suppression except from there, or with what these rely on. -/
theorem PollMove.ok {f : PollFrame} (own : PollMove cfg s p f) :
    (s.poll p).pc.peeking = false ∧ ((s.poll p).pc ≠ .idle ∨ (s.napi p).sched = true) ∧
      (f.pc.completing = true → (s.poll p).pc.completing = true ∧
        f.workDone = (s.poll p).workDone ∨ f.workDone < cfg.budget) ∧
      (f.pc.suppressing = true → (s.poll p).pc.suppressing = true ∨
        ∃ x, (s.poll p).pc.head? = some x) := by
  cases own with
  | readState site y pc =>
      rw [pc]
      exact ⟨rfl, by simp, fun now => .inl ⟨afterRead_completing now, rfl⟩,
        fun _ => .inr ⟨y, rfl⟩⟩
  | endpoint y pc =>
      rw [pc]
      refine ⟨rfl, by simp, ?_, ?_⟩ <;> dsimp only <;> split <;>
        simp [PollPc.completing, PollPc.suppressing]
  | _ => simp_all [PollPc.peeking, PollPc.completing, PollPc.suppressing]

theorem afterPeek_ok (site : PeekSite) (head : Option Skb) :
    (afterPeek site head).peeking = false ∧ (afterPeek site head).suppressing = false ∧
      ((afterPeek site head).completing = true → (PollPc.peek site).completing = true) := by
  cases site <;> cases head <;>
    simp [afterPeek, PollPc.peeking, PollPc.suppressing, PollPc.completing]

/-- A poll that has its head cached peeks in one step. -/
theorem peekStep_of_cached {q : PrevQueue Skb} {xs : List Skb} (represents : q.Represents xs)
    (cached : q.peeked = some x) : q.peekStep = (q, some (some x)) := by
  simp [PrevQueue.peekStep, (represents.peeked_eq_some cached).1, cached]

theorem Polls.change (h : Polls cfg s) (p : Peer) {f : PollFrame} {q : PrevQueue Skb}
    {n : Napi} (self : PollOk cfg.budget f q n) (p' : Peer) :
    PollOk cfg.budget (update s.poll p f p') (update s.rxQueue p q p')
      (update s.napi p n p') := by
  rcases eq_or_ne p' p with rfl | ne
  · simpa only [update_self] using self
  · simpa only [update_of_ne ne] using h p'

/-- The poll moves on, its queue and NAPI unchanged. -/
theorem Polls.setPoll (h : Polls cfg s) {f : PollFrame}
    (self : PollOk cfg.budget f (s.rxQueue p) (s.napi p)) (p' : Peer) :
    PollOk cfg.budget (update s.poll p f p') (s.rxQueue p') (s.napi p') := by
  simpa using Polls.change h p self p'

theorem Polls.setNapi (h : Polls cfg s) {n : Napi}
    (self : PollOk cfg.budget (s.poll p) (s.rxQueue p) n) (p' : Peer) :
    PollOk cfg.budget (s.poll p') (s.rxQueue p') (update s.napi p n p') := by
  simpa using Polls.change h p self p'

theorem Polls.setQueue (h : Polls cfg s) {q : PrevQueue Skb}
    (self : PollOk cfg.budget (s.poll p) q (s.napi p)) (p' : Peer) :
    PollOk cfg.budget (s.poll p') (update s.rxQueue p q p') (s.napi p') := by
  simpa using Polls.change h p self p'

/-- The steps of a poll.  Outside a peek the consumer's side of its queue is at rest; the
points behind a test know what the test has found, and the only way to lose `SCHED` is the
completion, which ends the poll. -/
theorem Polls.pollStep (h : Polls cfg s) (cached : Cached s) (queues : Queues cfg s)
    (move : PollStep cfg s p s') : Polls cfg s' := by
  have own := h p
  have move' : ∀ {pc : PollPc}, (s.poll p).pc = pc → pc ≠ .idle → pc.peeking = false →
      ∀ f : PollFrame, f.pc.completing = false → f.pc.suppressing = false →
      PollOk cfg.budget f (s.rxQueue p) (s.napi p) := by
    rintro _ rfl busy outside f completing suppressing
    exact own.setFrame (own.sched busy) outside (by simp [completing]) (by simp [suppressing])
  cases move with
  | control f stats stall move =>
      obtain ⟨outside, running, completing, suppressing⟩ := move.ok
      refine Polls.setPoll h (own.setFrame ?_ outside ?_ ?_)
      · rcases running with busy | sched
        · exact own.sched busy
        · exact sched
      · intro now
        rcases completing now with ⟨before, same⟩ | less
        · exact same ▸ own.workDone before
        · exact less
      · intro now
        rcases suppressing now with before | ⟨x, head⟩
        · exact own.cached before
        · simp [cached p x head]
  | peekMore site pc running =>
      have sched := own.sched (by simp [pc])
      have more := Polls.change h p (f := { s.poll p with pc := .peek site })
        (q := (s.rxQueue p).peekStep.1) (n := s.napi p)
        ⟨fun _ => sched, own.missed, by simp [PollPc.peeking],
          fun now => own.workDone (by simpa [pc] using now), fun now => ?_⟩
      · simpa using more
      · -- with a cached head the peek would have returned
        have some := own.cached (by simpa [pc] using now)
        obtain ⟨x, head⟩ := Option.ne_none_iff_exists'.mp some
        simp [peekStep_of_cached (queues.represents p).2 head] at running
  | peekDone site head pc returned =>
      have sched := own.sched (by simp [pc])
      obtain ⟨-, suppressing, completing⟩ := afterPeek_ok site head
      have idle : (s.rxQueue p).peekStep.1.deq = .idle :=
        PrevQueue.peekStep_isSome.mp (by simp [returned])
      have done := Polls.change h p (f := { s.poll p with pc := afterPeek site head })
        (q := (s.rxQueue p).peekStep.1) (n := s.napi p)
        ⟨fun _ => sched, own.missed, fun _ => idle,
          fun now => own.workDone (by simpa [pc] using completing now),
          by simp [suppressing]⟩
      simpa using done
  | drop x st pc =>
      have dropped := Polls.change h p
        (f := { s.poll p with pc := if st = .crypted then .validate x else .keypairPut x })
        (q := (s.rxQueue p).wgPrevQueueDropPeeked) (n := s.napi p)
        ⟨fun _ => own.sched (by simp [pc]), own.missed,
          fun _ => own.deq (by simp [pc, PollPc.peeking]),
          by dsimp only; split <;> simp [PollPc.completing],
          by dsimp only; split <;> simp [PollPc.suppressing]⟩
      simpa using dropped
  | validate x k pc found =>
      refine Polls.setPoll h (move' pc (by simp) rfl _ ?_ ?_) <;> dsimp only <;> split <;> rfl
  | peerPut x k pc found =>
      refine Polls.setPoll h (move' pc (by simp) rfl _ ?_ ?_) <;> dsimp only <;> split <;> rfl
  | entry pc => exact Polls.setPoll h (move' pc (by simp) rfl _ rfl rfl)
  | consume x k pc found => exact Polls.setPoll h (move' pc (by simp) rfl _ rfl rfl)
  | consumeRouted x k r pc found counted =>
      exact Polls.setPoll h (move' pc (by simp) rfl _ rfl rfl)
  | routedPut x k r pc found => exact Polls.setPoll h (move' pc (by simp) rfl _ rfl rfl)
  | keypairPut x k pc found => exact Polls.setPoll h (move' pc (by simp) rfl _ rfl rfl)
  | stealDry stats pc empty => exact Polls.setPoll h (move' pc (by simp) rfl _ rfl rfl)
  | stealTake job rest pc head => exact Polls.setPoll h (move' pc (by simp) rfl _ rfl rfl)
  | publishStore head pc =>
      exact Polls.setPoll h (own.setFrame (own.sched (by simp [pc])) (by simp [pc, PollPc.peeking])
        (fun _ => own.workDone (by simp [pc, PollPc.completing])) (by simp [PollPc.suppressing]))
  | recheckSet pc =>
      have sched := own.sched (by simp [pc])
      have kept := Polls.change h p (f := { s.poll p with pc := .suppGate })
        (q := s.rxQueue p) (n := { s.napi p with missed := true })
        ⟨fun _ => sched, fun _ => sched, fun _ => own.deq (by simp [pc, PollPc.peeking]),
          fun _ => own.workDone (by simp [pc, PollPc.completing]), by simp [PollPc.suppressing]⟩
      simpa using kept
  | suppClear pc =>
      have sched := own.sched (by simp [pc])
      have kept := Polls.change h p (f := { s.poll p with pc := .peek .suppRecheck })
        (q := s.rxQueue p) (n := { s.napi p with missed := false })
        ⟨fun _ => sched, by simp, fun _ => own.deq (by simp [pc, PollPc.peeking]),
          fun _ => own.workDone (by simp [pc, PollPc.completing]),
          fun _ => own.cached (by simp [pc, PollPc.suppressing])⟩
      simpa using kept
  | suppSet stats pc =>
      have sched := own.sched (by simp [pc])
      have kept := Polls.change h p (f := { s.poll p with pc := .complete })
        (q := s.rxQueue p) (n := { s.napi p with missed := true })
        ⟨fun _ => sched, fun _ => sched, fun _ => own.deq (by simp [pc, PollPc.peeking]),
          fun _ => own.workDone (by simp [pc, PollPc.completing]), by simp [PollPc.suppressing]⟩
      simpa using kept
  | complete pc =>
      have kept := Polls.change h p (f := { s.poll p with pc := .idle })
        (q := s.rxQueue p) (n := (s.napi p).completeDone)
        ⟨by simp, by simp [Napi.completeDone], fun _ => own.deq (by simp [pc, PollPc.peeking]),
          by simp [PollPc.completing], by simp [PollPc.suppressing]⟩
      simpa using kept

/-- Every step of the machine keeps what the polls know.  The other contexts write to
neither their frames nor the consumer's side of a queue, and `napi_schedule` only sets bits.
-/
theorem Polls.step {a : Action} (h : Polls cfg s) (cached : Cached s) (queues : Queues cfg s)
    (move : Transition cfg s a s') : Polls cfg s' := by
  cases move with
  | producer move =>
      cases move with
      | accept k q pc found room =>
          exact Polls.setQueue h ((h _).setQueue (PrevQueue.reserve_peeked room))
      | enqClear k q pc found enq taken =>
          exact Polls.setQueue h ((h _).setQueue (PrevQueue.enqueueStep_peeked taken))
      | enqXchg k q pc found enq taken =>
          exact Polls.setQueue h ((h _).setQueue (PrevQueue.enqueueStep_peeked taken))
      | enqLink k q prev pc found enq taken =>
          exact Polls.setQueue h ((h _).setQueue (PrevQueue.enqueueStep_peeked taken))
      | _ => exact h
  | complete k found move =>
      cases move with
      | schedule pc => exact Polls.setNapi h (h _).schedule
      | _ => exact h
  | worker present move => cases move <;> exact h
  | poll present move => exact Polls.pollStep h cached queues move
  | timer is move =>
      cases move with
      | wake cb => exact Polls.setNapi h (h _).schedule
      | _ => exact h
  | remove present move =>
      cases move with
      | disableNapi pc => exact Polls.setNapi h ((h _).setNapi id (h _).missed)
      | _ => exact h
  | env move => cases move <;> exact h

theorem polls_init (cfg : Config) (knobs : Knobs) : Polls cfg (State.init knobs) := by
  intro p
  constructor <;> simp [State.init, PollFrame.idle, PrevQueue.wgPrevQueueInit,
    PollPc.completing, PollPc.suppressing]

variable {knobs : Knobs} {ok : State → Action → Prop}

theorem Reachable.polls (reach : Reachable cfg knobs ok s) : Polls cfg s :=
  reach.invariant (polls_init cfg knobs) fun _ _ _ reach h _ taken =>
    Polls.step h (Reachable.headCached reach) (Reachable.queues reach) (step_cases taken)

end WgReceivePath
