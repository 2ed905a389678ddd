import WgReceivePath.Teardown
import WgReceivePath.References

/-!
# What a removed peer leaves behind

When `wg_peer_remove` returns, the peer's NAPI is disabled for good: what its last poll has
not dropped from `rx_queue` stays there, with the references it holds.  This module follows
the queue of a peer through its removal.

Up to `napi_disable` no wake of the peer is lost (`WakeOf`), except that of a timer which
`hrtimer_cancel` takes away.  After it the only wakes are `NAPI_STATE_MISSED` and the second
look of a poll that has pulled packets itself (`DrainOf`); the completions that would have
woken the poll are done by then, unless a poll of another peer holds them.  So the queue is
empty in the end

* if `hrtimer_cancel` and `napi_disable` found no timer of a non-empty queue, and
* if no other peer's poll held a packet of the peer at `napi_disable`,

and in runs that miss either condition it need not be (`teardown_leaves_packets`).

## What carries the proof

`Draining` is the invariant over the stages of the removal: `WakeOf` up to the cancel,
`DrainOf` while the removal waits for the poll, and an empty queue after that.  `DrainOf`
uses the poll's side of the wake argument again, `SleepOf.pollStep`, with `MISSED` as the
only wake: once no other poll holds a packet of the peer its completions are all done
(`Settled`), so that no head is `UNCRYPTED` and no packet half-linked, and a poll that
relies on wakes of such packets relies on none (`Settled.wakes`).  The one exception is a
packet that the poll itself has taken over and not yet finished, and then it will look at
its head again (`DrainOf.recheck`).  The other contexts can no longer touch what the last
polls look at (`Untouched`).
-/

namespace WgReceivePath

open Function (update update_self update_of_ne)

variable {cfg : Config} {s s' : State} {x : Skb} {p : Peer} {knobs : Knobs}
  {ok : State → Action → Prop}

/-! ## Polls of other peers

A packet of the peer that a poll of another peer has taken off the ring is out of reach of
the flushes.  The condition excludes that at `napi_disable`; after it no new one can arise,
for the ring is empty of the peer. -/

/-- No other peer's poll has taken over a packet of `p`.  Past the first flush this stays
so, since the ring holds no packet of the peer any more. -/
def OthersFree (cfg : Config) (p : Peer) (s : State) : Prop :=
  ∀ p' < cfg.peers, p' ≠ p → (s.poll p').pc.stolen.bind (s.peerOf cfg) ≠ some p

instance (cfg : Config) (p : Peer) (s : State) : Decidable (OthersFree cfg p s) :=
  inferInstanceAs (Decidable (∀ p' < cfg.peers, _))

theorem PollPc.stolen_eq_none {pc : PollPc} (free : ∀ job, pc ≠ .stealBusy job) :
    pc.stolen = none := by
  cases pc <;> simp_all [stolen]

theorem PollPc.stolen_eq_some {pc : PollPc} : pc.stolen = some x ↔ pc = .stealBusy x := by
  cases pc <;> simp [stolen]

/-- A poll takes packets over from the ring only. -/
theorem PollStep.stolen (move : PollStep cfg s p s') :
    (s'.poll p).pc.stolen = none ∨ ∃ job ∈ s.ring, (s'.poll p).pc.stolen = some job := by
  cases move with
  | control f stats stall own => exact .inl (by simpa using PollPc.stolen_eq_none own.stealBusy.1)
  | peekDone site head pc returned =>
      exact .inl (by simpa using PollPc.stolen_eq_none (afterPeek_ne_stealBusy site head))
  | drop x st pc => exact .inl (by simp only [update_self]; split <;> rfl)
  | validate x k pc found => exact .inl (by simp only [update_self]; split <;> rfl)
  | peerPut x k pc found => exact .inl (by simp only [update_self]; split <;> rfl)
  | stealTake job rest pc head => exact .inr ⟨job, by simp [head], by simp [PollPc.stolen]⟩
  | _ => exact .inl (by simp [PollPc.stolen])

/-- Past the first flush no poll takes over another packet of the peer: the ring has none.
-/
theorem OthersFree.step {a : Action} (h : OthersFree cfg p s) (life : Life s)
    (owned : Owned cfg s) (tear : TearOf cfg s p) (past : 6 ≤ (s.tear p).stage)
    (move : Transition cfg s a s') : OthersFree cfg p s' := by
  cases move with
  | @producer x found _ move =>
      have looked : ∀ key : Option Keypair, s.prod x = .lookup → ∀ p' < cfg.peers, p' ≠ p →
          ((s.poll p').pc.stolen.bind fun y => (update s.keypair x key y).map cfg.peer) ≠
            some p := by
        intro key pc p' present ne
        cases stolen : (s.poll p').pc.stolen with
        | none => simp
        | some y =>
            have busy := PollPc.stolen_eq_some.mp stolen
            have taken := (owned.owner y (.poll p') ⟨present, busy⟩).2
            have other : y ≠ x := by
              rintro rfl
              have unqueued := (life.packet y).unqueued_of (by simp [pc, ProdPc.produced])
              simp [unqueued, RxPc.taken] at taken
            simpa [stolen, State.peerOf, other] using h p' present ne
      cases move with
      | lookupMiss pc => exact looked none pc
      | lookupHit k pc counted => exact looked (some k) pc
      | _ => exact h
  | complete k found move => cases move <;> exact h
  | worker present move => cases move <;> exact h
  | @poll q _ _ present move =>
      have rule := move.rule
      have peer : s'.peerOf cfg = s.peerOf cfg := by
        funext y
        rw [State.peerOf, State.peerOf, rule.keypair]
      intro p' present' ne
      rw [peer]
      rcases eq_or_ne p' q with rfl | other
      · rcases move.stolen with none | ⟨job, mem, some⟩
        · simp [none]
        · simpa [some] using tear.ringFree past job mem
      · rw [rule.poll p' other]
        exact h p' present' ne
  | timer is move => cases move <;> exact h
  | remove present move => cases move <;> exact h
  | env move => cases move <;> exact h

/-! ## Once the polls of other peers are out of the way -/

/-- The completions of the peer's packets are done, but for the one that its own poll runs,
and no packet is half linked.  Nothing of the peer is in motion but its poll. -/
structure Settled (s : State) (p : Peer) : Prop where
  done : ∀ x ∈ s.hist.exchanged p, (s.rx x).pc = .done ∨ (s.poll p).pc = .stealBusy x
  linked : ¬ (s.rxQueue p).HalfLinked

/-- Once no other poll holds a packet of the peer, its completions are done, but for one
that its own poll runs. -/
theorem TearOf.settled (tear : TearOf cfg s p) (life : Life s) (owned : Owned cfg s)
    (queues : Queues cfg s) (past : 8 ≤ (s.tear p).stage) (others : OthersFree cfg p s) :
    Settled s p := by
  have frozen := tear.frozen (by omega)
  have notHalf : ∀ y prev, (s.rxQueue p).enq y ≠ .link prev := by
    intro y prev link
    obtain ⟨pc, peer⟩ := (queues.enq p y).mp (by simp [link])
    have out := frozen y peer
    simp [pc, ProdPc.admitted] at out
  have linked : ¬ (s.rxQueue p).HalfLinked := by
    rintro ⟨y, prev, link⟩
    exact notHalf y prev link
  refine ⟨fun x mem => ?_, linked⟩
  obtain ⟨mine, queued⟩ := (queues.mem p x).mp mem
  have mine : s.peerOf cfg x = some p := mine
  rcases tear.holder life owned past mine with unqueued | done | ⟨p', present, busy⟩
  · -- a packet of the queue whose producer is gone has been produced
    have produced : (s.prod x).produced = true := by
      rcases queued with queued | ⟨prev, link⟩
      · have out := frozen x mine
        cases pc : s.prod x <;> simp_all [ProdPc.queued, ProdPc.admitted, ProdPc.produced]
      · exact absurd link (notHalf x prev)
    have := (life.packet x).unqueued.mp unqueued
    simp [this] at produced
  · exact .inl done
  · rcases eq_or_ne p' p with rfl | ne
    · exact .inr busy
    · exact absurd (by simpa [busy, PollPc.stolen] using mine) (others p' present ne)

/-! ## The last polls

After `napi_disable` has set its bit no `napi_schedule` succeeds.  A poll that is still
running ends, and is called again only if a wake was missed. -/

/-- The poll has decrypted a packet itself and will look at its head once more before it
goes to sleep: the code behind the stealing loop peeks again if anything was pulled. -/
def PollFrame.rechecks (f : PollFrame) : Bool :=
  match f.pc with
  | .stealBusy _ | .peek .stealDone | .stealStat (some _) | .readState .stealDone _ => true
  | .stealWhile | .peek .stealHead | .readState .stealHead _ => f.pulled != 0
  | .stealConsume | .stealEnd => f.pulled != 0
  | _ => false

/-- With the NAPI disabled, `MISSED` is the only wake there is. -/
abbrev MissedWakes (missed : Bool) (_ : Option Skb) : Prop := missed = true

/-- A disabled peer's poll looks at the queue again, or leaves nothing in it.  `MISSED`
counts as looking again, since the poll is then called once more even though the NAPI is
disabled. -/
def DrainOf (cfg : Config) (s : State) (p : Peer) : Prop :=
  (s.poll p).rechecks = true ∧
      (∀ t, (s.rxQueue p).deq = .head t → (s.queued p).length ≤ 1 ∨ (s.napi p).missed = true) ∨
    SleepOf cfg s p MissedWakes

theorem Settled.stored (h : Settled s p) (life : Life s) (mem : x ∈ s.hist.exchanged p)
    (free : (s.poll p).pc ≠ .stealBusy x) : s.state x ≠ .uncrypted := by
  intro uncrypted
  have undecided := undecided_of_uncrypted life uncrypted
  rcases h.done x mem with done | busy
  · simp [done, RxPc.undecided] at undecided
  · exact free busy

theorem mem_exchanged_of_peeked (queues : Queues cfg s)
    (cached : (s.rxQueue p).peeked = some x) : x ∈ s.hist.exchanged p := by
  obtain ⟨order, represents⟩ := queues.represents p
  obtain ⟨-, rest, cons⟩ := represents.peeked_eq_some cached
  rw [order, cons]
  simp

/-- A poll that is not inside a completion has all wakes it needs: none. -/
theorem Settled.wakes (h : Settled s p) (life : Life s) (queues : Queues cfg s)
    (free : ∀ job, (s.poll p).pc ≠ .stealBusy job) : Wakes s p MissedWakes where
  missed _ := rfl
  uncrypted x cached uncrypted _ :=
    absurd uncrypted (h.stored life (mem_exchanged_of_peeked queues cached) (free x))
  halfLinked half _ := absurd half h.linked

/-- The poll of a disabled peer that will look again.  It has pulled a packet from the ring,
and then the code peeks at its queue once more before it completes; until that peek the
queue may hold anything. -/
theorem DrainOf.recheck (settled : Settled s p) (life : Life s) (queues : Queues cfg s)
    (cached : Cached s) (polls : Polls cfg s) (rechecks : (s.poll p).rechecks = true)
    (head : ∀ t, (s.rxQueue p).deq = .head t →
      (s.queued p).length ≤ 1 ∨ (s.napi p).missed = true)
    (move : PollStep cfg s p s') : DrainOf cfg s' p := by
  have idle : (s.poll p).pc.peeking = false → (s.rxQueue p).deq = .idle := (polls p).deq
  cases move with
  | control f stats stall own =>
      have outside := idle own.ok.1
      -- on to a point from which the poll still looks again
      have again : f.rechecks = true → DrainOf cfg { s with
          poll := update s.poll p f, stats := stats, stall := update s.stall p stall } p := by
        intro again
        exact .inl ⟨by simpa using again, fun t deq => by simp [outside] at deq⟩
      cases own with
      | stealBack job pc returned => exact again (by simp [PollFrame.rechecks])
      | stealMore pc more => exact again (by simpa [PollFrame.rechecks, pc] using rechecks)
      | stealStop pc enough => exact again (by simpa [PollFrame.rechecks, pc] using rechecks)
      | stealCheck pc pulled => exact again (by simp [PollFrame.rechecks])
      | stealNone pc pulled => simp [PollFrame.rechecks, pc, pulled] at rechecks
      | statSome x pc => exact again (by simp [PollFrame.rechecks])
      | readState site x pc =>
          cases site with
          | stealHead =>
              have pulled : (s.poll p).pulled ≠ 0 := by
                simpa [PollFrame.rechecks, pc] using rechecks
              by_cases uncrypted : s.state x = .uncrypted
              · exact again (by simpa [PollFrame.rechecks, afterRead, uncrypted] using pulled)
              · exact again (by simpa [PollFrame.rechecks, afterRead, uncrypted] using pulled)
          | stealDone =>
              -- the second look finds the head decrypted, and the poll delivers it
              have mem := mem_exchanged_of_peeked queues (cached p x (by simp [pc, PollPc.head?]))
              have stored := settled.stored life mem (by simp [pc])
              refine .inr (SleepOk.toFree _ _ _ outside ?_)
              simp [afterRead, stored, PollPc.phase]
          | _ => simp [PollFrame.rechecks, pc] at rechecks
      | _ => simp_all [PollFrame.rechecks]
  | peekMore site pc running =>
      refine .inl ⟨?_, fun t deq => ?_⟩
      · simpa [PollFrame.rechecks, pc] using rechecks
      · simp only [update_self] at deq
        rcases PrevQueue.peekStep_head (queues.represents p).2 deq with one | half
        · exact .inl one.le
        · exact absurd half settled.linked
  | peekDone site found pc returned =>
      have outside : (s.rxQueue p).peekStep.1.deq = .idle :=
        PrevQueue.peekStep_isSome.mp (by simp [returned])
      have again : (afterPeek site found = .stealEnd ∨
          ∃ x, afterPeek site found = .readState .stealHead x) → (s.poll p).pulled ≠ 0 →
          DrainOf cfg { s with
            rxQueue := update s.rxQueue p (s.rxQueue p).peekStep.1
            poll := update s.poll p { s.poll p with pc := afterPeek site found } } p := by
        intro next pulled
        refine .inl ⟨?_, fun t deq => by simp [outside] at deq⟩
        rcases next with next | ⟨x, next⟩ <;> simpa [PollFrame.rechecks, next] using pulled
      cases site with
      | stealHead =>
          have pulled : (s.poll p).pulled ≠ 0 := by
            simpa [PollFrame.rechecks, pc] using rechecks
          cases found with
          | none => exact again (.inl rfl) pulled
          | some x => exact again (.inr ⟨x, rfl⟩) pulled
      | stealDone =>
          cases found with
          | some x => exact .inl ⟨by simp [PollFrame.rechecks, afterPeek], fun t deq => by
              simp [outside] at deq⟩
          | none =>
              -- the second look finds nothing
              have represents := (queues.represents p).2
              have empty : s.queued p = [] ∨ (s.napi p).missed = true := by
                rcases (PrevQueue.peekStep_null represents returned).2 with
                  empty | half | ⟨t, deq, moved⟩
                · exact .inl empty
                · exact absurd half settled.linked
                · refine .inr ((head t deq).resolve_left fun short => ?_)
                  exact moved (represents.head_eq short deq)
              refine .inr (SleepOk.setFrame _ _ _ (by simpa using outside) ?_)
              simpa [PhaseOk, PollPc.phase, afterPeek, State.queued] using fun _ _ => empty
      | _ => simp [PollFrame.rechecks, pc] at rechecks
  | stealDry stats pc empty =>
      refine .inl ⟨by simpa [PollFrame.rechecks, pc] using rechecks, fun t deq => ?_⟩
      simp [idle (by simp [pc, PollPc.peeking])] at deq
  | stealTake job rest pc front =>
      refine .inl ⟨by simp [PollFrame.rechecks], fun t deq => ?_⟩
      simp [idle (by simp [pc, PollPc.peeking])] at deq
  | _ => simp_all [PollFrame.rechecks]

/-- **The polls of a disabled peer do not stop before the queue is empty.** -/
theorem DrainOf.pollStep (h : DrainOf cfg s p) (settled : Settled s p) (life : Life s)
    (queues : Queues cfg s) (cached : Cached s) (polls : Polls cfg s)
    (headwake : (s.poll p).pc = .headwakeGate → s.knobs.headwake = 0 → s.blockedOn p = none)
    (move : PollStep cfg s p s') : DrainOf cfg s' p := by
  have idle : (s.poll p).pc.peeking = false → (s.rxQueue p).deq = .idle := (polls p).deq
  rcases h with ⟨rechecks, head⟩ | asleep
  · exact .recheck settled life queues cached polls rechecks head move
  · by_cases busy : ∃ job, (s.poll p).pc = .stealBusy job
    · obtain ⟨job, pc⟩ := busy
      refine .recheck settled life queues cached polls (by simp [PollFrame.rechecks, pc])
        (fun t deq => ?_) move
      simp [idle (by simp [pc, PollPc.peeking])] at deq
    · push Not at busy
      exact .inr (SleepOf.pollStep asleep (settled.wakes life queues busy) queues cached polls
        headwake move)

/-! ## The other contexts

No producer and no completion of the peer is left, so that queue, head and verdicts are
those that the poll sees. -/

/-- What the last polls of `p` look at stays as it is: the frame, the queue and its history,
the published head and the NAPI bits. -/
structure Untouched (s s' : State) (p : Peer) : Prop where
  poll : s'.poll p = s.poll p
  rxQueue : s'.rxQueue p = s.rxQueue p
  exchanged : s'.hist.exchanged p = s.hist.exchanged p
  dropped : s'.hist.dropped p = s.hist.dropped p
  blockedOn : s'.blockedOn p = s.blockedOn p
  napi : s'.napi p = s.napi p

theorem Untouched.queued (h : Untouched s s' p) : s'.queued p = s.queued p := by
  rw [State.queued, State.queued, h.exchanged, h.dropped]

theorem Napi.schedule_disabled {n : Napi} (disabled : n.disable = true) : n.schedule = n := by
  rw [Napi.schedule, if_pos disabled]

/-- Only its own poll works for a peer that is dead and disabled.  Producers are turned
away, the flushes have ended the work items, and the other polls hold nothing of it. -/
theorem Transition.untouched {a : Action} (move : Transition cfg s a s') (tear : TearOf cfg s p)
    (past : 3 ≤ (s.tear p).stage) (disabled : (s.napi p).disable = true)
    (notPoll : ∀ routed, a ≠ .poll p routed) (notRemove : a ≠ .remove p) :
    Untouched s s' p := by
  have quiet := Napi.schedule_disabled disabled
  cases move with
  | @producer x found _ move =>
      have foreign : ∀ k, s.keypair x = some k → (s.prod x).admitted = true →
          p ≠ cfg.peer k := by
        rintro k found admitted rfl
        have out := tear.frozen past x (by simp [State.peerOf, found])
        simp [out] at admitted
      cases move with
      | accept k q pc found room =>
          have ne := foreign k found (by simp [pc, ProdPc.admitted])
          exact ⟨rfl, by simp [ne], rfl, rfl, rfl, rfl⟩
      | enqClear k q pc found enq taken =>
          have ne := foreign k found (by simp [pc, ProdPc.admitted])
          exact ⟨rfl, by simp [ne], rfl, rfl, rfl, rfl⟩
      | enqXchg k q pc found enq taken =>
          have ne := foreign k found (by simp [pc, ProdPc.admitted])
          exact ⟨rfl, by simp [ne], by simp [ne], rfl, rfl, rfl⟩
      | enqLink k q prev pc found enq taken =>
          have ne := foreign k found (by simp [pc, ProdPc.admitted])
          exact ⟨rfl, by simp [ne], rfl, rfl, rfl, rfl⟩
      | _ => exact ⟨rfl, rfl, rfl, rfl, rfl, rfl⟩
  | complete k found move =>
      cases move with
      | schedule pc =>
          refine ⟨rfl, rfl, rfl, rfl, rfl, ?_⟩
          rcases eq_or_ne p (cfg.peer k) with rfl | ne
          · simpa using quiet
          · simp [ne]
      | _ => exact ⟨rfl, rfl, rfl, rfl, rfl, rfl⟩
  | worker present move => cases move <;> exact ⟨rfl, rfl, rfl, rfl, rfl, rfl⟩
  | @poll p' routed _ present move =>
      have ne : p ≠ p' := by
        rintro rfl
        exact notPoll routed rfl
      cases move <;> constructor <;> simp [ne]
  | @timer p' _ _ is move =>
      cases move with
      | wake cb =>
          refine ⟨rfl, rfl, rfl, rfl, rfl, ?_⟩
          rcases eq_or_ne p p' with rfl | ne
          · simpa using quiet
          · simp [ne]
      | _ => exact ⟨rfl, rfl, rfl, rfl, rfl, rfl⟩
  | @remove p' _ present move =>
      have ne : p ≠ p' := by
        rintro rfl
        exact notRemove rfl
      cases move with
      | disableNapi pc => exact ⟨rfl, rfl, rfl, rfl, rfl, by simp [ne]⟩
      | _ => exact ⟨rfl, rfl, rfl, rfl, rfl, rfl⟩
  | env move => cases move <;> exact ⟨rfl, rfl, rfl, rfl, rfl, rfl⟩

theorem DrainOf.untouched (h : DrainOf cfg s p) (same : Untouched s s' p) : DrainOf cfg s' p := by
  unfold DrainOf SleepOf
  rw [same.poll, same.rxQueue, same.queued, same.blockedOn, same.napi]
  exact h

/-- The empty queue of a dead peer stays empty, since no producer can exchange a packet into
it any more. -/
theorem queued_nil_step {a : Action} (empty : s.queued p = []) (queues : Queues cfg s)
    (cached : Cached s) (tear : TearOf cfg s p) (past : 3 ≤ (s.tear p).stage)
    (move : Transition cfg s a s') : s'.queued p = [] := by
  cases move with
  | @producer x found _ move =>
      cases move with
      | enqXchg k q pc found enq taken =>
          have ne : p ≠ cfg.peer k := by
            rintro rfl
            have out := tear.frozen past x (by simp [State.peerOf, found])
            simp [pc, ProdPc.admitted] at out
          simpa [State.queued, ne] using empty
      | _ => exact empty
  | complete k found move => cases move <;> exact empty
  | worker present move => cases move <;> exact empty
  | @poll p' _ _ present move =>
      cases move with
      | drop x st pc =>
          rcases eq_or_ne p p' with rfl | ne
          · -- a poll drops what its queue holds
            have peeked := cached p x (by simp [pc, PollPc.head?])
            obtain ⟨-, rest, cons⟩ := (queues.represents p).2.peeked_eq_some peeked
            simp [empty] at cons
          · simpa [State.queued, ne] using empty
      | _ => exact empty
  | timer is move => cases move <;> exact empty
  | remove present move => cases move <;> exact empty
  | env move => cases move <;> exact empty

/-! ## The queue of a peer through its removal

The three stretches of the removal have three different reasons why nothing is lost, and the
invariant is their case distinction. -/

instance (pc : TearPc) : Decidable (pc = .disableNapi) :=
  decidable_of_iff (pc.stage = 9) (by
    cases pc with
    | flush again => cases again <;> simp [TearPc.stage]
    | flushing again target => cases again <;> simp [TearPc.stage]
    | _ => simp [TearPc.stage])

/-- A removal that loses no wake: `hrtimer_cancel` and `napi_disable` find a live timer only
if the queue is empty, and at `napi_disable` no other peer's poll holds a packet of the
peer.  Both are conditions on the state before a step of the removal. -/
def TeardownOk (cfg : Config) (p : Peer) (s : State) : Action → Prop
  | .remove p' => p' = p →
      (s.tear p = .cancelTimer → (s.timer p).pending = true → s.queued p = []) ∧
      (s.tear p = .disableNapi → (s.timer p ≠ ⟨false, .idle⟩ → s.queued p = []) ∧
        OthersFree cfg p s)
  | _ => True

instance (cfg : Config) (p : Peer) (s : State) : DecidablePred (TeardownOk cfg p s)
  | .remove _ => inferInstanceAs (Decidable (_ → _))
  | .receive | .producer .. | .complete .. | .worker _ | .poll .. => .isTrue trivial
  | .timerFire _ | .timerRun _ | .setKnobs _ | .peerGet _ | .peerPut _ => .isTrue trivial
  | .keypairGet _ | .keypairPut _ | .tick _ => .isTrue trivial

/-- What keeps the poll going at each stage of the removal. -/
structure Draining (cfg : Config) (s : State) (p : Peer) : Prop where
  awake : (s.tear p).stage ≤ 8 → WakeOf cfg s p
  cancelled : (s.tear p).stage = 9 → WakeOf cfg s p ∨ s.queued p = []
  disabled : 10 ≤ (s.tear p).stage → (s.napi p).disable = true ∧ OthersFree cfg p s
  draining : (s.tear p).stage = 10 → DrainOf cfg s p ∨ s.queued p = []
  drained : 11 ≤ (s.tear p).stage → s.queued p = [] ∧ (s.napi p).sched = false

/-- At `napi_disable` the wakes that the disabled NAPI would ignore are not needed. -/
theorem WakeOf.drain (h : WakeOf cfg s p) (settled : Settled s p) (polls : Polls cfg s)
    (timer : s.timer p ≠ ⟨false, .idle⟩ → s.queued p = []) : DrainOf cfg s p := by
  by_cases busy : ∃ job, (s.poll p).pc = .stealBusy job
  · obtain ⟨job, pc⟩ := busy
    refine .inl ⟨by simp [PollFrame.rechecks, pc], fun t deq => ?_⟩
    simp [(polls p).deq (by simp [pc, PollPc.peeking])] at deq
  · push Not at busy
    refine .inr (h.toSleepOk.mono ?_)
    rintro (missed | pending | running | ⟨x, mem, waker⟩)
    · exact .inr missed
    · exact .inl (timer fun stopped => by simp [stopped] at pending)
    · exact .inl (timer fun stopped => by simp [stopped] at running)
    · rcases settled.done x mem with done | own
      · simp [Waker, done, RxPc.undecided, RxPc.waking] at waker
      · exact absurd own (busy x)

theorem Draining.of_wake (wake : WakeOf cfg s p) (early : (s.tear p).stage ≤ 8) :
    Draining cfg s p :=
  ⟨fun _ => wake, fun _ => .inl wake, by omega, by omega, by omega⟩

/-- The steps of the removal itself.  At the cancel and at the disable the conditions of the
run are used, and the last wait ends when the poll has gone to sleep with nothing owed. -/
theorem Draining.remove (h : Draining cfg s p) (reach : Reachable cfg knobs ok s)
    (met : TeardownOk cfg p s (.remove p)) (move : RemoveStep cfg s p s') :
    Draining cfg s' p := by
  obtain ⟨cancel, disable⟩ := met rfl
  have early : (s.tear p).stage ≤ 7 → WakeOf cfg s' p := by
    intro early
    refine (h.awake (by omega)).remove (fun _ => ⟨fun pc => ?_, fun pc => ?_⟩) move
    · simp [pc, TearPc.stage] at early
    · simp [pc, TearPc.stage] at early
  cases move with
  | makeDead pc => exact .of_wake (early (by simp [pc, TearPc.stage])) (by simp [TearPc.stage])
  | synchronize pc => exact .of_wake (early (by simp [pc, TearPc.stage])) (by simp [TearPc.stage])
  | synchronized n pc outside =>
      exact .of_wake (early (by simp [pc, TearPc.stage])) (by simp [TearPc.stage])
  | clear pc => exact .of_wake (early (by simp [pc, TearPc.stage])) (by simp [TearPc.stage])
  | flush again pc =>
      cases again <;>
        exact .of_wake (early (by simp [pc, TearPc.stage])) (by simp [TearPc.stage])
  | flushed again target pc ended =>
      cases again <;>
        exact .of_wake (early (by simp [pc, TearPc.stage])) (by simp [TearPc.stage])
  | cancelTimer pc idle =>
      refine ⟨by simp [TearPc.stage], fun _ => ?_, ?_, ?_, ?_⟩
      · by_cases pending : (s.timer p).pending = true
        · exact .inr (cancel pc pending)
        · have wake := h.awake (by simp [pc, TearPc.stage])
          exact .inl (wake.remove (fun _ => ⟨by simp [pc], fun _ => by simpa using pending⟩)
            (.cancelTimer pc idle))
      all_goals simp [TearPc.stage]
  | disableNapi pc =>
      obtain ⟨timer, others⟩ := disable pc
      have stage : 8 ≤ (s.tear p).stage := by simp [pc, TearPc.stage]
      have settled := (reach.tear p).settled reach.life reach.owned reach.queues stage others
      refine ⟨by simp [TearPc.stage], by simp [TearPc.stage], fun _ => ⟨by simp, others⟩,
        fun _ => ?_, by simp [TearPc.stage]⟩
      rcases h.cancelled (by simp [pc, TearPc.stage]) with wake | empty
      · left
        simpa [DrainOf, SleepOf, State.queued] using wake.drain settled reach.polls timer
      · exact .inr empty
  | disabled pc stopped =>
      have polls := reach.polls p
      refine ⟨by simp [TearPc.stage], by simp [TearPc.stage],
        fun _ => h.disabled (by simp [pc, TearPc.stage]), by simp [TearPc.stage],
        fun _ => ⟨?_, stopped⟩⟩
      rcases h.draining (by simp [pc, TearPc.stage]) with drain | empty
      · -- the poll has stopped, so it saw the end of the queue
        have idle : (s.poll p).pc = .idle := by
          by_contra busy
          simpa [stopped] using polls.sched busy
        rcases drain with ⟨rechecks, -⟩ | asleep
        · simp [PollFrame.rechecks, idle] at rechecks
        · have phase := asleep.phase
          simp only [PhaseOk, idle, PollPc.phase, stopped] at phase
          rcases phase with sched | ⟨-, empty | missed⟩
          · simp at sched
          · exact empty
          · simpa [stopped] using polls.missed missed
      · exact empty
  | finalPut pc =>
      refine ⟨by simp [TearPc.stage], by simp [TearPc.stage],
        fun _ => h.disabled (by simp [pc, TearPc.stage]), by simp [TearPc.stage],
        fun _ => h.drained (by simp [pc, TearPc.stage])⟩

/-- The steps of everybody else, by the stretch the removal is in. -/
theorem Draining.other {a : Action} (h : Draining cfg s p) (reach : Reachable cfg knobs ok s)
    (headwake : HeadwakeOk p s a) (cancel : CancelOk cfg p s a) (ne : a ≠ .remove p)
    (move : Transition cfg s a s') : Draining cfg s' p := by
  have tear := reach.tear p
  have same : s'.tear p = s.tear p := by
    rcases move.tear p with ⟨same, -⟩ | ⟨removes, -⟩
    · exact same
    · exact absurd removes ne
  have wake : WakeOf cfg s p → WakeOf cfg s' p := by
    intro wake
    refine wake.step reach.life reach.queues reach.headCached reach.polls headwake cancel ?_ move
    cases a with
    | remove p' => exact fun eq => absurd (by rw [eq]) ne
    | _ => trivial
  have empty : 9 ≤ (s.tear p).stage → s.queued p = [] → s'.queued p = [] := fun stage empty =>
    queued_nil_step empty reach.queues reach.headCached tear (by omega) move
  refine ⟨fun stage => ?_, fun stage => ?_, fun stage => ?_, fun stage => ?_, fun stage => ?_⟩ <;>
    rw [same] at stage
  · exact wake (h.awake stage)
  · exact (h.cancelled stage).imp wake (empty (by omega))
  · obtain ⟨disable, others⟩ := h.disabled stage
    refine ⟨?_, others.step reach.life reach.owned tear (by omega) move⟩
    by_cases own : ∃ routed, a = .poll p routed
    · obtain ⟨routed, rfl⟩ := own
      rw [move.pollStep.rule.disable, disable]
    · push Not at own
      rw [(move.untouched tear (by omega) disable own ne).napi, disable]
  · obtain ⟨disable, others⟩ := h.disabled (by omega)
    refine (h.draining stage).imp (fun drain => ?_) (empty (by omega))
    by_cases own : ∃ routed, a = .poll p routed
    · obtain ⟨routed, rfl⟩ := own
      have settled := tear.settled reach.life reach.owned reach.queues (by omega) others
      exact drain.pollStep settled reach.life reach.queues reach.headCached reach.polls
        (headwake rfl) move.pollStep
    · push Not at own
      exact drain.untouched (move.untouched tear (by omega) disable own ne)
  · obtain ⟨disable, -⟩ := h.disabled (by omega)
    obtain ⟨nil, stopped⟩ := h.drained stage
    refine ⟨empty (by omega) nil, ?_⟩
    by_cases own : ∃ routed, a = .poll p routed
    · -- a poll that is not scheduled does not run
      obtain ⟨routed, rfl⟩ := own
      have idle : (s.poll p).pc = .idle := by
        by_contra busy
        simpa [stopped] using (reach.polls p).sched busy
      cases move.pollStep with
      | control f stats stall moved => exact stopped
      | _ => simp_all
    · push Not at own
      rw [(move.untouched tear (by omega) disable own ne).napi, stopped]

/-- **The queue of a removed peer is drained**, in a run whose steps lose no wake.  The
conditions are those of `Reachable.wake` and that on the removal. -/
theorem Reachable.draining (reach : Reachable cfg knobs ok s)
    (guards : ∀ s a, Reachable cfg knobs ok s → ok s a →
      HeadwakeOk p s a ∧ CancelOk cfg p s a ∧ TeardownOk cfg p s a) :
    Draining cfg s p := by
  refine reach.invariant (I := fun s => Draining cfg s p)
    (.of_wake (wakeOf_init cfg knobs p) (by simp [State.init, TearPc.stage]))
    fun s a s' reach h met taken => ?_
  obtain ⟨headwake, cancel, teardown⟩ := guards s a reach met
  have move := step_cases taken
  by_cases own : a = .remove p
  · subst own
    exact h.remove reach teardown move.removeStep
  · exact h.other reach headwake cancel own move

/-! ## What is left when `wg_peer_remove` returns -/

instance (pc : TearPc) : Decidable (pc = .returned) :=
  decidable_of_iff (pc.stage = 12) (by
    cases pc with
    | flush again => cases again <;> simp [TearPc.stage]
    | flushing again target => cases again <;> simp [TearPc.stage]
    | _ => simp [TearPc.stage])

/-- No packet of `p` is in its queue, on the ring or in the hands of a work item or a poll,
and every packet of `p` whose producer has returned has put its references. -/
structure ReceiveDrained (cfg : Config) (s : State) (p : Peer) : Prop where
  queue : (s.rxQueue p).Vacant
  ring : ∀ x ∈ s.ring, s.peerOf cfg x ≠ some p
  workers : ∀ c < cfg.cpus, ∀ x, (s.worker c).pc = .busy x → s.peerOf cfg x ≠ some p
  polls : ∀ p' < cfg.peers, ∀ x, (s.poll p').pc = .stealBusy x → s.peerOf cfg x ≠ some p
  released : ∀ x, s.peerOf cfg x = some p → s.prod x = .done ∨ s.prod x = .freed →
    s.hist.peerPuts x = s.hist.peerGets x ∧ s.hist.keypairPuts x = s.hist.keypairGets x

/-- **Teardown drains the receive side** with fixed parameters, in a run in which no
wake of the peer is lost: `hrtimer_try_to_cancel` takes no timer that is still
promised, `hrtimer_cancel` and `napi_disable` find a live timer only if the queue is
empty, and at `napi_disable` no other peer's poll holds a packet of the peer. -/
theorem teardown_drains (cfg : Config) (knobs : Knobs) (p : Peer) (s : State)
    (reach : Reachable cfg knobs
      (fun s a => Fixed s a ∧ CancelOk cfg p s a ∧ TeardownOk cfg p s a) s)
    (returned : s.tear p = .returned) : ReceiveDrained cfg s p := by
  have draining : Draining cfg s p := reach.draining fun s a reach met =>
    ⟨Reachable.headwakeOk reach (fun _ _ met => met.1) p, met.2.1, met.2.2⟩
  have tear := reach.tear p
  have queues := reach.queues
  have stage : (s.tear p).stage = 12 := by rw [returned]; rfl
  obtain ⟨-, others⟩ := draining.disabled (by omega)
  obtain ⟨empty, stopped⟩ := draining.drained (by omega)
  have idle : (s.poll p).pc = .idle := by
    by_contra busy
    simpa [stopped] using (reach.polls p).sched busy
  obtain ⟨order, represents⟩ := queues.represents p
  refine ⟨?_, tear.ringFree (by omega), tear.workersFree (by omega), fun p' present x busy => ?_,
    fun x mine ended => ?_⟩
  · exact PrevQueue.represents_nil (empty ▸ represents)
      ((reach.polls p).deq (by simp [idle, PollPc.peeking]))
  · rcases eq_or_ne p' p with rfl | ne
    · simp [idle] at busy
    · simpa [busy, PollPc.stolen] using others p' present ne
  · refine Ended.released ?_ reach.held
    rcases ended with done | freed
    · -- a packet that its producer has left in the queue has been dropped
      have mem : x ∈ s.hist.exchanged p :=
        (queues.mem p x).mpr ⟨mine, .inl (by simp [done, ProdPc.queued])⟩
      rw [order, empty, List.append_nil] at mem
      exact .inr ⟨p, mem, by simp [idle, PollPc.inHand]⟩
    · exact .inl freed

/-- A packet is on the ring when its peer's removal begins, and the last poll delivers
it after `napi_disable`. -/
theorem teardown_drains_one : ∃ s,
    (Reachable (smallConfig 1 (by decide)) ⟨0, 1, 1, 1, 0⟩
        (fun s a => Fixed s a ∧ CancelOk (smallConfig 1 (by decide)) 0 s a ∧
          TeardownOk (smallConfig 1 (by decide)) 0 s a) s ∧
      s.tear 0 = .returned ∧ s.hist.dropped 0 = [0]) ∧
    ReceiveDrained (smallConfig 1 (by decide)) s 0 := by
  have run : ∃ s, Reachable (smallConfig 1 (by decide)) ⟨0, 1, 1, 1, 0⟩
        (fun s a => Fixed s a ∧ CancelOk (smallConfig 1 (by decide)) 0 s a ∧
          TeardownOk (smallConfig 1 (by decide)) 0 s a) s ∧
      s.tear 0 = .returned ∧ s.hist.dropped 0 = [0] :=
    Machine.exists_reach_of_exec
      (arrive 0 0 ++ List.replicate 5 (.remove 0) ++ works 0 2 ++ completes 0 7 ++ works 0 2 ++
        List.replicate 5 (.remove 0) ++ polls 0 31 ++ List.replicate 2 (.remove 0))
      (by decide +kernel)
  obtain ⟨s, reach, returned, dropped⟩ := run
  exact ⟨s, ⟨reach, returned, dropped⟩, teardown_drains _ _ 0 s reach returned⟩

/-- **Teardown leaves packets behind.**  With `wg_trig_k = 2`, `hrtimer_cancel` takes
away the timer that was to wake the poll for packet 0, which stays in the queue with
its references.  With `wg_steal = 1`, the poll of peer 1 has packet 2 of peer 0 in its
hands when the removal of peer 0 returns. -/
theorem teardown_leaves_packets :
    (∃ s, Reachable (smallConfig 1 (by decide)) ⟨2, 0, 0, 0, 0⟩ Fixed s ∧
      s.tear 0 = .returned ∧ ¬ (s.rxQueue 0).Vacant ∧
      s.peerOf (smallConfig 1 (by decide)) 0 = some 0 ∧ s.prod 0 = .done ∧
      s.hist.peerPuts 0 ≠ s.hist.peerGets 0) ∧
    ∃ s, Reachable (smallConfig 2 (by decide)) ⟨0, 0, 0, 1, 0⟩ Fixed s ∧
      s.tear 0 = .returned ∧ (s.poll 1).pc = .stealBusy 2 ∧
      s.peerOf (smallConfig 2 (by decide)) 2 = some 0 ∧ (s.rx 2).pc = .decrypt :=
  ⟨Machine.exists_reach_of_exec
      (arrive 0 0 ++ works 0 2 ++ completes 0 9 ++ works 0 2 ++ List.replicate 12 (.remove 0))
      (by decide +kernel),
    Machine.exists_reach_of_exec
      (arrive 0 1 ++ arrive 1 1 ++ works 0 2 ++ works 1 2 ++
        List.replicate 7 (.complete 1 false false) ++ works 1 2 ++ arrive 2 0 ++
        List.replicate 3 (.remove 0) ++ polls 1 11 ++ completes 0 7 ++ works 0 4 ++
        List.replicate 9 (.remove 0))
      (by decide +kernel)⟩

end WgReceivePath
