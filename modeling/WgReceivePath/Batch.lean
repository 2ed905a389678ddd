import WgReceivePath.Stranding
import Mathlib.Data.BitVec

/-!
# The batch behind a wake

With `wg_trig_k` on, a completion of a `CRYPTED` packet bumps `rx_ready` and calls
`napi_schedule` at once only when the count has reached `wg_trig_k`; a poll resets the count
when it enters.  The parameter is an `unsigned long`, the count an `atomic_t`, and the test
is

    atomic_inc_return(&peer->rx_ready) >= (int)wg_trig_k

## Main results

* `wake_has_batch` : whenever a completion comes to its `napi_schedule` by this branch, at
  least `wg_trig_k` completions have incremented `rx_ready` since the last poll entry if and
  only if `wg_trig_k` is below `2 ^ 31`.
* `wake_without_batch` : a threshold that the cast turns into zero, and a poll that enters
  between the increment and the wake.

## What carries the proof

* `reachesBatch_iff` : below `2 ^ 31` on both sides, the test is the comparison of the two
  numbers.  The cast keeps the low 32 bits of the parameter and reads them as a signed
  number, so that from `2 ^ 31` on the threshold tested is not the one that was set.
* `Batching` : the runs that the result is about.  The two parameters keep their values, and
  no poll of the peer enters while one of its completions stands between its increment and
  its `napi_schedule` (`Unbroken`): the count that led to the wake would be reset before the
  wake.
* `Batched` : the invariant of one peer.  `rx_ready` is the number of increments since the
  last poll entry, modulo `2 ^ 32`, and a packet on the waking branch has passed the test
  with a count that has not been lost since (`Behind`).  Other increments only add to it
  (`Behind.more`); a poll entry is the one step that can lose it (`Batched.enter`).
-/

namespace WgReceivePath

open Function (update update_self update_of_ne)

variable {cfg : Config} {s s' : State} {x : Skb} {p : Peer} {knobs : Knobs} {k : BitVec 64}

/-! ## The test on 32-bit integers

The one place where the width of the integers matters.  The count is compared as a signed
number, and so is the low half of the parameter. -/

/-- Where neither side loses bits, the test compares the numbers themselves.  The number
counted is `n + 1`, since the test is on the value after the increment. -/
theorem reachesBatch_iff {n : ℕ} (few : n + 1 < 2 ^ 31) (small : k.toNat < 2 ^ 31) :
    reachesBatch (BitVec.ofNat 32 n) k = true ↔ k.toNat ≤ n + 1 := by
  have count : (BitVec.ofNat 32 n + 1).toNat = n + 1 := by
    rw [BitVec.toNat_add, BitVec.toNat_ofNat, show (1 : BitVec 32).toNat = 1 from rfl]
    omega
  have threshold : (k.setWidth 32).toNat = k.toNat := by
    rw [BitVec.toNat_setWidth]
    omega
  rw [reachesBatch, BitVec.sle_iff_toInt_le, BitVec.toInt_eq_toNat_of_lt (by omega),
    BitVec.toInt_eq_toNat_of_lt (by omega), count, threshold]
  omega

/-! ## The runs -/

/-- On the branch of `wg_queue_enqueue_per_peer_rx` that wakes for the count: between the
`atomic_inc_return` that has reached the threshold and the `napi_schedule`. -/
def RxPc.batch : RxPc → Bool
  | .xchgArmed | .tryCancel | .schedule => true
  | _ => false

/-- The action is not the entry of a poll of `p` while a good packet of `p` is on the waking
branch. -/
def Unbroken (cfg : Config) (p : Peer) (s : State) : Action → Prop
  | .poll q _ => q = p → (s.poll p).pc = .entry → ∀ x, s.peerOf cfg x = some p →
      (s.rx x).st = .crypted → (s.rx x).pc.batch = false
  | _ => True

/-- `wg_trig_k` keeps its value and `wg_headwake` stays off, and no poll of `p` enters between the
increment of one of its completions and the wake that follows.  The other parameters may be written
at any moment, and the other peers do what they like. -/
def Batching (cfg : Config) (p : Peer) (k : BitVec 64) (s : State) (a : Action) : Prop :=
  WritesOnly (fun knobs => knobs.trigK = k ∧ knobs.headwake = 0) a ∧ Unbroken cfg p s a

/-! ## The invariant

`rx_ready` is reset by a plain store at the entry of a poll and bumped by completions.
Between two entries it counts them, up to its width; what a completion has seen of it stays
true as long as no entry intervenes. -/

/-- The test that the packet's own increment was put to, with the increments counted since
the last poll entry at that moment.  They are at most those counted now, as long as no poll
has entered. -/
def Passed32 (k : BitVec 64) (incs : ℕ) : Prop :=
  ∃ n, n + 1 ≤ incs ∧ reachesBatch (BitVec.ofNat 32 n) k = true

/-- A good packet about to wake its peer has passed the test.  It comes to its wake by the
count alone: with `wg_headwake` off it never looks at `rx_blocked_on`. -/
structure Behind (k : BitVec 64) (f : RxFrame) (incs : ℕ) : Prop where
  unread : f.st = .crypted → f.pc ≠ .readBlocked
  passed : f.st = .crypted → f.pc.batch = true → Passed32 k incs

theorem Behind.of_early {f : RxFrame} {incs : ℕ} (read : f.pc ≠ .readBlocked)
    (early : f.st = .crypted → f.pc.batch = false) : Behind k f incs where
  unread _ := read
  passed crypted late := by simp [early crypted] at late

theorem Behind.of_bad {f : RxFrame} {incs : ℕ} (bad : f.st ≠ .crypted) : Behind k f incs where
  unread crypted := absurd crypted bad
  passed crypted := absurd crypted bad

/-- More increments keep what was counted. -/
theorem Behind.more {f : RxFrame} {incs incs' : ℕ} (h : Behind k f incs) (le : incs ≤ incs') :
    Behind k f incs' where
  unread := h.unread
  passed crypted late := by
    obtain ⟨n, counted, reached⟩ := h.passed crypted late
    exact ⟨n, counted.trans le, reached⟩

/-- The step stays on the waking branch. -/
theorem Behind.goOn {f : RxFrame} {incs : ℕ} {pc : RxPc} (h : Behind k f incs)
    (before : f.pc.batch = true) (after : pc.batch = true) :
    Behind k { f with pc := pc } incs where
  unread _ read := by
    dsimp only at read
    simp [read, RxPc.batch] at after
  passed crypted _ := h.passed crypted before

/-- The count and the packets of a peer: `rx_ready` is the number of increments since the last poll
entry, modulo `2 ^ 32`, and the good packets on the waking branch have passed the test. -/
structure Batched (cfg : Config) (p : Peer) (k : BitVec 64) (s : State) : Prop where
  ready : s.ready p = BitVec.ofNat 32 (s.hist.readyIncs p)
  behind : ∀ x, s.peerOf cfg x = some p → Behind k (s.rx x) (s.hist.readyIncs p)

theorem Batched.start (cfg : Config) (p : Peer) (k : BitVec 64) (knobs : Knobs) :
    Batched cfg p k (.init knobs) where
  ready := rfl
  behind _ found := by simp [State.peerOf, State.init] at found

/-- A frame is written and nothing else that the invariant speaks of. -/
theorem Batched.setRx (h : Batched cfg p k s) (f : RxFrame)
    (rx : s'.rx = update s.rx x f) (keypair : s'.keypair = s.keypair) (ready : s'.ready = s.ready)
    (incs : s'.hist.readyIncs = s.hist.readyIncs)
    (own : s.peerOf cfg x = some p → Behind k f (s.hist.readyIncs p)) :
    Batched cfg p k s' := by
  refine ⟨by rw [ready, incs, h.ready], fun y found => ?_⟩
  replace found : s.peerOf cfg y = some p := by rwa [State.peerOf, keypair] at found
  rw [rx, incs]
  rcases eq_or_ne y x with rfl | ne
  · rw [update_self]
    exact own found
  · rw [update_of_ne ne]
    exact h.behind y found

/-- Nothing that the invariant speaks of is written. -/
theorem Batched.same (h : Batched cfg p k s) (rx : s'.rx = s.rx)
    (keypair : s'.keypair = s.keypair) (ready : s'.ready = s.ready)
    (incs : s'.hist.readyIncs = s.hist.readyIncs) : Batched cfg p k s' := by
  refine ⟨by rw [ready, incs, h.ready], fun y found => ?_⟩
  rw [rx, incs]
  exact h.behind y (by simpa [State.peerOf, keypair] using found)

/-- A producer finds the keypair of a packet that no completion has. -/
theorem Batched.lookup (h : Batched cfg p k s) (life : Life s)
    (pc : s.prod x = .lookup) (found : Option Keypair)
    (rx : s'.rx = s.rx) (keypair : s'.keypair = update s.keypair x found)
    (ready : s'.ready = s.ready) (incs : s'.hist.readyIncs = s.hist.readyIncs) :
    Batched cfg p k s' := by
  refine ⟨by rw [ready, incs, h.ready], fun y peer => ?_⟩
  rw [rx, incs]
  rcases eq_or_ne y x with rfl | ne
  · have free := (life.packet y).unqueued_of (by simp [pc, ProdPc.produced])
    exact .of_early (by simp [free]) (by simp [free, RxPc.batch])
  · exact h.behind y (by simpa [State.peerOf, keypair, ne] using peer)

theorem Batched.producer (h : Batched cfg p k s) (life : Life s)
    (move : ProducerStep cfg s x s') : Batched cfg p k s' := by
  cases move with
  | produce k c pc found room =>
      exact h.setRx _ rfl rfl rfl rfl fun _ => .of_early (by simp) fun _ => rfl
  | ringFull k c pc found full =>
      exact h.setRx _ rfl rfl rfl rfl fun _ => .of_early (by simp) fun _ => rfl
  | lookupMiss pc => exact h.lookup life pc _ rfl rfl rfl rfl
  | lookupHit k pc => exact h.lookup life pc _ rfl rfl rfl rfl
  | _ => exact h.same rfl rfl rfl rfl

/-- The increment of the peer's `rx_ready` by the completion of `x`, and the test. -/
theorem Batched.count (h : Batched cfg p s.knobs.trigK s) (next : RxPc)
    (branch : next = if reachesBatch (s.ready p) s.knobs.trigK then .xchgArmed else .cmpxchgArmed)
    (rx : s'.rx = update s.rx x { s.rx x with pc := next }) (keypair : s'.keypair = s.keypair)
    (ready : s'.ready p = s.ready p + 1)
    (incs : s'.hist.readyIncs p = s.hist.readyIncs p + 1) : Batched cfg p s.knobs.trigK s' := by
  refine ⟨?_, fun y peer => ?_⟩
  · rw [ready, incs, h.ready, BitVec.ofNat_add]
    rfl
  · replace peer : s.peerOf cfg y = some p := by rwa [State.peerOf, keypair] at peer
    rw [rx, incs]
    rcases eq_or_ne y x with rfl | ne
    · rw [update_self]
      rw [h.ready] at branch
      subst branch
      split
      · next reached => exact ⟨fun _ => by simp, fun _ _ => ⟨_, le_rfl, reached⟩⟩
      · exact .of_early (by simp) fun _ => rfl
    · rw [update_of_ne ne]
      exact (h.behind y peer).more (Nat.le_succ _)

/-- A completion of another peer's packet. -/
theorem Batched.elsewhere {key : Keypair} (h : Batched cfg p k s) (found : s.keypair x = some key)
    (ne : p ≠ cfg.peer key) (move : RxStep cfg s x key s') : Batched cfg p k s' := by
  have other : s.peerOf cfg x ≠ some p := by
    simpa [State.peerOf, found] using fun same => ne same.symm
  cases move with
  | count pc next branch =>
      refine ⟨?_, fun y peer => ?_⟩
      · simpa only [update_of_ne ne] using h.ready
      · have aside : y ≠ x := fun same => other (same ▸ peer)
        simpa only [update_of_ne ne, update_of_ne aside] using h.behind y peer
  | _ => exact h.setRx _ rfl rfl rfl rfl fun mine => absurd mine other

theorem Batched.complete {key : Keypair} (h : Batched cfg p s.knobs.trigK s)
    (on : s.knobs.trigK ≠ 0) (off : s.knobs.headwake = 0) (found : s.keypair x = some key)
    (move : RxStep cfg s x key s') : Batched cfg p s.knobs.trigK s' := by
  rcases ne_or_eq p (cfg.peer key) with ne | rfl
  · exact h.elsewhere found ne move
  have before := h.behind x (by simp [State.peerOf, found])
  cases move with
  | count pc next branch =>
      exact h.count next branch rfl rfl (update_self ..) (update_self ..)
  | gateHead pc set crypted => exact absurd off set
  | blockedWake pc hit =>
      exact h.setRx _ rfl rfl rfl rfl fun _ => .of_bad fun crypted => before.unread crypted pc
  | trigStock pc stock =>
      exact h.setRx _ rfl rfl rfl rfl fun _ => .of_bad (stock.resolve_left on)
  | xchgArmed pc next branch =>
      refine h.setRx _ rfl rfl rfl rfl fun _ => before.goOn (by simp [pc, RxPc.batch]) ?_
      subst branch
      split <;> rfl
  | tryCancel pc =>
      exact h.setRx _ rfl rfl rfl rfl fun _ => before.goOn (by simp [pc, RxPc.batch]) rfl
  | _ => exact h.setRx _ rfl rfl rfl rfl fun _ => .of_early (by simp) fun _ => rfl

/-- A poll of the peer enters and the count starts over.  No good packet of the peer is on the
waking branch then, so nothing that a packet has counted is lost. -/
theorem Batched.enter (h : Batched cfg p k s) (rx : s'.rx = s.rx)
    (unbroken : ∀ x, s.peerOf cfg x = some p → (s.rx x).st = .crypted →
      (s.rx x).pc.batch = false)
    (keypair : s'.keypair = s.keypair) (ready : s'.ready p = 0)
    (incs : s'.hist.readyIncs p = 0) : Batched cfg p k s' := by
  refine ⟨by rw [ready, incs]; rfl, fun y peer => ?_⟩
  replace peer : s.peerOf cfg y = some p := by rwa [State.peerOf, keypair] at peer
  rw [rx, incs]
  refine ⟨(h.behind y peer).unread, fun crypted late => ?_⟩
  rw [unbroken y peer crypted] at late
  cases late

theorem Batched.poll {q : Peer} {routed : Option Peer} (h : Batched cfg p k s)
    (unbroken : Unbroken cfg p s (.poll q routed)) (move : PollStep cfg s q s') :
    Batched cfg p k s' := by
  cases move with
  | entry pc =>
      rcases eq_or_ne q p with rfl | ne
      · exact h.enter rfl (unbroken rfl pc) rfl (update_self ..) (update_self ..)
      · refine ⟨?_, fun y peer => ?_⟩
        · simpa only [update_of_ne ne.symm] using h.ready
        · simpa only [update_of_ne ne.symm] using h.behind y peer
  | stealTake job rest pc head =>
      exact h.setRx _ rfl rfl rfl rfl fun _ => .of_early (by simp) fun _ => rfl
  | _ => exact h.same rfl rfl rfl rfl

/-- What one step keeps. -/
theorem Batched.step {a : Action} (h : Batched cfg p s.knobs.trigK s) (life : Life s)
    (on : s.knobs.trigK ≠ 0) (off : s.knobs.headwake = 0) (unbroken : Unbroken cfg p s a)
    (move : Transition cfg s a s') : Batched cfg p s.knobs.trigK s' := by
  cases move with
  | producer move => exact h.producer life move
  | complete key found move => exact h.complete on off found move
  | worker present move =>
      cases move with
      | take x rest pc head =>
          exact h.setRx _ rfl rfl rfl rfl fun _ => .of_early (by simp) fun _ => rfl
      | _ => exact h.same rfl rfl rfl rfl
  | poll present move => exact h.poll unbroken move
  | timer is move =>
      rcases is with rfl | rfl <;> cases move <;> exact h.same rfl rfl rfl rfl
  | remove present move => cases move <;> exact h.same rfl rfl rfl rfl
  | env move => cases move <;> exact h.same rfl rfl rfl rfl

/-- What a whole run keeps. -/
theorem batched_of_reach (on : knobs.trigK ≠ 0) (off : knobs.headwake = 0)
    (reach : Reachable cfg knobs (Batching cfg p knobs.trigK) s) :
    Batched cfg p knobs.trigK s := by
  refine reach.invariant (I := fun s => Batched cfg p knobs.trigK s) (.start cfg p _ knobs) ?_
  intro s a s' reach h guard taken
  have reach : Reachable cfg knobs (Batching cfg p knobs.trigK) s := reach
  obtain ⟨same, stock⟩ : s.knobs.trigK = knobs.trigK ∧ s.knobs.headwake = 0 :=
    reach.written (fun _ _ met => met.1) ⟨rfl, off⟩
  rw [← same] at h on ⊢
  exact h.step reach.life on stock guard.2 (step_cases taken)

/-! ## The batch behind a wake

Below `2 ^ 31` a completion that has passed the test has seen at least the threshold, and
what it has seen is still counted.  From `2 ^ 31` on there is nothing to prove: the batch
cannot be complete while fewer than `2 ^ 31` increments are counted. -/

/-- **The batch behind a wake.**  Let `wg_trig_k` be on and `wg_headwake` off, in a run in which no
poll of the peer enters between the increment of one of its completions and the wake that follows.
When a completion of a `CRYPTED` packet comes to its `napi_schedule`, and fewer than `2 ^ 31`
completions have incremented `rx_ready` since the last poll entry, then these are at least
`wg_trig_k` if and only if `wg_trig_k` is itself below `2 ^ 31`. -/
theorem wake_has_batch (cfg : Config) (knobs : Knobs) (on : knobs.trigK ≠ 0)
    (off : knobs.headwake = 0) (p : Peer) (s : State)
    (reach : Reachable cfg knobs (Batching cfg p knobs.trigK) s)
    (x : Skb) (peer : s.peerOf cfg x = some p) (waking : (s.rx x).pc = .schedule)
    (crypted : (s.rx x).st = .crypted) (few : s.hist.readyIncs p < 2 ^ 31) :
    knobs.trigK.toNat ≤ s.hist.readyIncs p ↔ knobs.trigK.toNat < 2 ^ 31 := by
  have behind := (batched_of_reach on off reach).behind x peer
  obtain ⟨n, counted, reached⟩ := behind.passed crypted (by simp [waking, RxPc.batch])
  refine ⟨fun enough => enough.trans_lt few, fun small => ?_⟩
  exact ((reachesBatch_iff (counted.trans_lt few) small).mp reached).trans counted

/-- The action is no step of a poll and writes no parameter. -/
def Unpolled (_ : State) : Action → Prop
  | .poll _ _ | .setKnobs _ => False
  | _ => True

instance decidableUnpolled (s : State) : DecidablePred (Unpolled s)
  | .poll _ _ | .setKnobs _ => .isFalse id
  | .receive | .producer .. | .complete .. | .worker _ | .timerFire _ => .isTrue trivial
  | .timerRun _ | .remove _ | .peerGet _ | .peerPut _ | .keypairGet _ => .isTrue trivial
  | .keypairPut _ | .tick _ => .isTrue trivial

theorem batching_of_unpolled {a : Action} (unpolled : Unpolled s a) : Batching cfg p k s a := by
  cases a with
  | poll p routed => exact unpolled.elim
  | setKnobs knobs => exact unpolled.elim
  | _ => exact ⟨trivial, trivial⟩

/-- With `wg_trig_k = 2` the second packet's completion wakes the peer, and two increments are
counted at the wake. -/
theorem wake_has_batch_two : ∃ s,
    Reachable (smallConfig 1 (by decide)) ⟨2, 0, 0, 0, 0⟩
        (Batching (smallConfig 1 (by decide)) 0 2) s ∧
      s.peerOf (smallConfig 1 (by decide)) 1 = some 0 ∧ (s.rx 1).pc = .schedule ∧
      (s.rx 1).st = .crypted ∧ s.hist.readyIncs 0 = 2 ∧
      (2 : BitVec 64).toNat ≤ s.hist.readyIncs 0 := by
  have run : ∃ s, Reachable (smallConfig 1 (by decide)) ⟨2, 0, 0, 0, 0⟩ Unpolled s ∧
      s.peerOf (smallConfig 1 (by decide)) 1 = some 0 ∧ (s.rx 1).pc = .schedule ∧
      (s.rx 1).st = .crypted ∧ s.hist.readyIncs 0 = 2 :=
    Machine.exists_reach_of_exec
      (arrive 0 0 ++ arrive 1 0 ++ works 0 2 ++ completes 0 9 ++ works 0 2 ++ completes 1 8)
      (by decide +kernel)
  obtain ⟨s, run, peer, waking, crypted, two⟩ := run
  have run : Reachable (smallConfig 1 (by decide)) ⟨2, 0, 0, 0, 0⟩
      (Batching (smallConfig 1 (by decide)) 0 2) s :=
    run.strengthen fun _ _ _ unpolled => batching_of_unpolled unpolled
  have batch := wake_has_batch _ ⟨2, 0, 0, 0, 0⟩ (by decide) rfl 0 s run 1 peer waking crypted
    (by rw [two]; decide)
  exact ⟨s, run, peer, waking, crypted, two, batch.mpr (by decide)⟩

/-- **Wakes without their batch.**  With `wg_trig_k = 2 ^ 32` the threshold tested is zero, and the
first packet's completion wakes the peer for itself alone.  With `wg_trig_k = 2` the second
packet's completion has counted two, the timer of the first one fires and a poll enters, and the
wake then finds the count at zero. -/
theorem wake_without_batch :
    (∃ s, Reachable (smallConfig 1 (by decide)) ⟨2 ^ 32, 0, 0, 0, 0⟩ Fixed s ∧
      s.peerOf (smallConfig 1 (by decide)) 0 = some 0 ∧ (s.rx 0).pc = .schedule ∧
      (s.rx 0).st = .crypted ∧ s.hist.readyIncs 0 = 1 ∧
      s.hist.readyIncs 0 < (2 ^ 32 : BitVec 64).toNat) ∧
    ∃ s, Reachable (smallConfig 1 (by decide)) ⟨2, 0, 0, 0, 0⟩ Fixed s ∧
      s.peerOf (smallConfig 1 (by decide)) 1 = some 0 ∧ (s.rx 1).pc = .schedule ∧
      (s.rx 1).st = .crypted ∧ s.hist.readyIncs 0 = 0 ∧
      s.hist.readyIncs 0 < (2 : BitVec 64).toNat := by
  constructor
  · exact Machine.exists_reach_of_exec (arrive 0 0 ++ works 0 2 ++ completes 0 7)
      (by decide +kernel)
  · exact Machine.exists_reach_of_exec
      (arrive 0 0 ++ arrive 1 0 ++ works 0 2 ++ completes 0 9 ++ works 0 2 ++ completes 1 6 ++
        [.timerFire 0, .timerRun 0, .timerRun 0] ++ polls 0 2 ++ completes 1 1)
      (by decide +kernel)

end WgReceivePath
