import WgReceivePath.Wake
import WgReceivePath.References

/-!
# The budget contract of the poll

`wg_packet_rx_poll` has two loops joined by `goto deliver`.  While it runs, other contexts
feed the ring and the queue at will.  `poll_contract` says that it ends nevertheless, and
what it has done when it has: how much budget it used, how many entries of the decrypt ring
it consumed, and that it called `napi_complete_done` exactly if budget was left.

## Main definitions

* `State.remaining`, what a poll has still to do: the budget that is left counts first, then
  the distance to the next delivery (`pollRank`).
* `Tally`, the counts of one poll, kept beside the machine (`tallied`).
* `TallyOk`, how the counts and the poll's frame are related at every program point.

## What carries the proof

Termination is a ranking argument.  Every step of the poll's own lowers `State.remaining`
(`PollStep.remaining`, `RxStep.remaining`), and the steps of the other contexts do not raise
it (`Aside.remaining`).  The jump back costs no budget, but it is taken only with a
deliverable head in the cache, and such a head stays deliverable, so the rank of the
delivery loop is low there (`sure`).

The counts are an invariant by stages (`StageOk`).  Its one inequality that is not read off
the code is the bound on the ring: a steal pass is followed by a delivery or is the last
one, so that with `w` packets delivered `w` passes are over.
-/

namespace WgReceivePath

open Function (update update_self update_of_ne)

variable {cfg : Config} {s s' : State} {x : Skb} {p : Peer}

/-! ## How far a call is from its end

The two functions that a poll calls in the middle of a step sequence: a peek of its queue,
and a completion that it runs for a stolen packet.  Neither has a loop of its own. -/

/-- The steps that a dequeue in progress still takes, at most.  A dequeue can skip the stub
and then push it back, so that the longest one passes every point. -/
def DeqPc.fuel : DeqPc Skb → ℕ
  | .idle => 8
  | .second _ => 7
  | .head _ => 6
  | .clear _ => 5
  | .xchg _ => 4
  | .link _ _ => 3
  | .reload _ => 2
  | .dec _ => 1

/-- The steps that a peek still takes, at most: one with a packet in the cache, a whole
dequeue without. -/
def PrevQueue.peekFuel (q : PrevQueue Skb) : ℕ := if q.peeked.isSome then 1 else q.deq.fuel

theorem PrevQueue.peekFuel_bounds (q : PrevQueue Skb) : 1 ≤ q.peekFuel ∧ q.peekFuel ≤ 8 := by
  unfold peekFuel
  split
  · decide
  · cases q.deq <;> simp [DeqPc.fuel]

/-- A peek that goes on comes closer to its end.  Every point of the dequeue leads to a
later one, and only the skipped stub makes it look twice. -/
theorem PrevQueue.peekFuel_lt {q : PrevQueue Skb} (running : q.peekStep.2 = none)
    (uncached : q.peeked = none) : q.peekStep.1.peekFuel < q.peekFuel := by
  have load : ∀ t nx, (q.afterLoad t nx).deq.fuel ≤ 6 := by
    rintro t (_ | n)
    · exact le_rfl
    · exact (by decide : 1 ≤ 6)
  have still := PrevQueue.peekStep_running running
  rw [peekFuel, peekFuel, still, uncached]
  simp only [Option.isSome_none, Bool.false_eq_true, ↓reduceIte]
  cases pc : q.deq with
  | idle =>
      simp only [peekStep, pc, uncached] at running ⊢
      cases tail : q.tail with
      | stub =>
          simp only [tail] at running ⊢
          cases next : q.next .stub with
          | none => simp [next] at running
          | some n => exact (by decide : 7 < 8)
      | skb a => exact Nat.lt_succ_of_le ((load _ _).trans (by decide))
  | second t =>
      simp only [peekStep, pc]
      exact Nat.lt_succ_of_le (load _ _)
  | dec t => simp [peekStep, pc] at running
  | head t =>
      simp only [peekStep, pc] at running ⊢
      split at running
      · rename_i last
        rw [if_pos last]
        exact (by decide : 5 < 6)
      · cases running
  | clear t => simp [peekStep, pc, DeqPc.fuel]
  | xchg t => simp [peekStep, pc, DeqPc.fuel]
  | link t prev => simp [peekStep, pc, DeqPc.fuel]
  | reload t =>
      simp only [peekStep, pc] at running ⊢
      cases next : q.next t with
      | none => simp [next] at running
      | some n => exact (by decide : 1 < 2)

/-- The steps that a call of `wg_queue_enqueue_per_peer_rx` still takes, at most, with the
decryption before it. -/
def RxPc.fuel : RxPc → ℕ
  | .unqueued | .ring | .decrypt => 10
  | .get => 9
  | .store => 8
  | .gate => 7
  | .trigGate => 6
  | .count => 5
  | .xchgArmed => 4
  | .tryCancel | .readBlocked | .cmpxchgArmed => 3
  | .startTimer | .schedule => 2
  | .put => 1
  | .done => 0

theorem RxStep.fuel {k : Keypair} (move : RxStep cfg s x k s') :
    (s'.rx x).pc.fuel < (s.rx x).pc.fuel := by
  cases move with
  | count pc next branch =>
      rw [pc]
      subst branch
      simp only [update_self]
      split <;> decide
  | xchgArmed pc next branch =>
      rw [pc]
      subst branch
      simp only [update_self]
      split <;> decide
  | _ => simp_all [RxPc.fuel]

/-! ## The rank of a program point

The numbers are chosen from the end of the poll backwards, so that each point is above all
points it can go to.  The one edge that goes up is the jump to `deliver`, and there the rank
is the low one, because a head is known to be deliverable. -/

/-- The cached head is deliverable.  Then a delivery loop that starts now drops a packet,
whatever the other contexts do. -/
def sure (q : PrevQueue Skb) (rx : Skb → RxFrame) : Bool :=
  match q.peeked with
  | some x => (rx x).pc.stored
  | none => false

/-- How far the poll is from its next delivery, or from its end.  A steal pass has
`steal - pulled` entries to go, of at most 22 steps each. -/
def pollRank (steal : ℕ) (f : PollFrame) (q : PrevQueue Skb) (rx : Skb → RxFrame) : ℕ :=
  match f.pc with
  | .idle => 0
  | .entry => 83 + 22 * steal
  -- delivery, with a drop to come or not
  | .peek .deliver => if sure q rx then 9 else 74 + 22 * steal + q.peekFuel
  | .readState .deliver x => if (rx x).pc.stored then 8 else 74 + 22 * steal
  | .dropPeeked _ _ => 7
  | .validate _ => 6
  | .endpoint _ => 5
  | .consume _ => 4
  | .routedPut _ _ => 3
  | .keypairPut _ => 2
  | .peerPut _ => 1
  -- the steal pass
  | .stealGate => 73 + 22 * steal
  | .stealWhile => 72 + 22 * (steal - f.pulled)
  | .peek .stealHead => 85 + 22 * (steal - f.pulled - 1) + q.peekFuel
  | .readState .stealHead _ => 85 + 22 * (steal - f.pulled - 1)
  | .stealConsume => 84 + 22 * (steal - f.pulled - 1)
  | .stealBusy job => 73 + 22 * (steal - f.pulled - 1) + (rx job).pc.fuel
  | .stealEnd => 71
  | .peek .stealDone => 62 + q.peekFuel
  | .stealStat _ => 62
  | .readState .stealDone _ => 61
  | .stealUnblocked => 60
  -- the completion
  | .diagClose => 59
  | .diagGate => 58
  | .peek .diag => 49 + q.peekFuel
  | .diagMiss _ => 49
  | .readState .diag _ => 48
  | .diagClass _ => 47
  | .stallFlip _ => 46
  | .stallOpen _ => 45
  | .headwakeGate => 44
  | .peek .publish => 35 + q.peekFuel
  | .readState .publish _ => 35
  | .publishStore _ => 34
  | .peek .recheck => 25 + q.peekFuel
  | .readState .recheck _ => 25
  | .recheckSet => 24
  | .suppGate => 23
  | .peek .supp => 14 + q.peekFuel
  | .readState .supp _ => 14
  | .suppTest => 13
  | .suppClear => 12
  | .peek .suppRecheck => 3 + q.peekFuel
  | .readState .suppRecheck _ => 3
  | .suppCount | .suppSet => 2
  | .complete => 1

/-- The rank of the poll of `p`. -/
abbrev State.rank (s : State) (p : Peer) : ℕ :=
  pollRank s.knobs.steal.toNat (s.poll p) (s.rxQueue p) s.rx

/-- What the poll of `p` has still to do: the budget that is left counts first.  The factor
is above every rank, so that a delivery pays for the whole way to the next one. -/
def State.remaining (cfg : Config) (s : State) (p : Peer) : ℕ :=
  (cfg.budget - (s.poll p).workDone) * (84 + 22 * s.knobs.steal.toNat) + s.rank p

/-- A packet is deliverable exactly if its verdict has been stored.  The rank is stated with
the frame of the completion, the code reads the packet's state. -/
theorem PacketLife.stored_iff (life : Life s) (x : Skb) :
    (s.rx x).pc.stored = true ↔ s.state x ≠ .uncrypted := by
  have ok := life.packet x
  cases stored : (s.rx x).pc.stored with
  | false => simp [ok.state_eq stored]
  | true =>
      have verdict := ok.verdict (RxPc.decided_of_stored stored)
      simpa [ok.state, stored] using verdict

/-! ## The poll's own steps -/

/-- The private steps of a running poll lower its rank, and keep `work_done`.  The jump back
to `deliver` is one of them, and it needs the deliverable head. -/
theorem PollMove.rank {f : PollFrame} (own : PollMove cfg s p f) (life : Life s)
    (busy : (s.poll p).pc ≠ .idle)
    (jump : (s.poll p).pc = .stealUnblocked → sure (s.rxQueue p) s.rx = true) :
    f.workDone = (s.poll p).workDone ∧
      pollRank s.knobs.steal.toNat f (s.rxQueue p) s.rx < s.rank p := by
  have fuel := (s.rxQueue p).peekFuel_bounds
  cases own with
  | start pc sched => exact absurd pc busy
  | readState site x pc =>
      refine ⟨rfl, ?_⟩
      have stored := life.stored_iff x
      simp only [State.rank, pollRank, pc]
      cases site with
      | deliver =>
          by_cases uncrypted : s.state x = .uncrypted
          · have early : ¬ (s.rx x).pc.stored = true := fun late => stored.mp late uncrypted
            simp [afterRead, uncrypted, early]
          · simp [afterRead, uncrypted, stored.mpr uncrypted]
      | stealHead =>
          by_cases uncrypted : s.state x = .uncrypted
          · simp [afterRead, uncrypted]
          · simp only [afterRead, uncrypted, ↓reduceIte]
            omega
      | _ => by_cases uncrypted : s.state x = .uncrypted <;> simp [afterRead, uncrypted]
  | endpoint x pc =>
      refine ⟨rfl, ?_⟩
      simp only [State.rank, pollRank, pc]
      cases cfg.endpointOk x <;> simp
  | unblocked pc =>
      refine ⟨rfl, ?_⟩
      simp only [State.rank, pollRank, pc, jump pc, ↓reduceIte]
      decide
  | stealMore pc more =>
      refine ⟨rfl, ?_⟩
      simp only [State.rank, pollRank, pc]
      omega
  | stealBack job pc returned =>
      refine ⟨rfl, ?_⟩
      simp only [State.rank, pollRank, pc, returned]
      omega
  | _ =>
      refine ⟨rfl, ?_⟩
      simp_all only [State.rank, pollRank]
      omega

/-- The end of a peek lowers the rank.  With a deliverable head in the cache the peek
returns that head, so the low rank before is justified. -/
theorem rank_afterPeek {head : Option Skb} {steal : ℕ} {f : PollFrame} {q q' : PrevQueue Skb}
    {rx : Skb → RxFrame} (site : PeekSite) (pc : f.pc = .peek site)
    (cached : sure q rx = true → ∃ x, head = some x ∧ (rx x).pc.stored = true) :
    pollRank steal { f with pc := afterPeek site head } q' rx < pollRank steal f q rx := by
  have fuel := q.peekFuel_bounds
  simp only [pollRank, pc]
  cases site with
  | deliver =>
      by_cases ready : sure q rx = true
      · obtain ⟨x, rfl, stored⟩ := cached ready
        simp [afterPeek, ready, stored]
      · rw [if_neg ready]
        cases head with
        | none =>
            simp only [afterPeek]
            omega
        | some x =>
            simp only [afterPeek]
            split <;> omega
  | _ => cases head <;> simp only [afterPeek] <;> omega

theorem sure_iff {q : PrevQueue Skb} {rx : Skb → RxFrame} :
    sure q rx = true ↔ ∃ x, q.peeked = some x ∧ (rx x).pc.stored = true := by
  unfold sure
  cases q.peeked <;> simp

/-- **Every step of a running poll leaves less to do.**  A packet in hand is counted in
`work_done` at the end of its delivery, which lowers the budget that is left; every other
step lowers the rank. -/
theorem PollStep.remaining (move : PollStep cfg s p s') (life : Life s) (queues : Queues cfg s)
    (busy : (s.poll p).pc ≠ .idle)
    (jump : (s.poll p).pc = .stealUnblocked → sure (s.rxQueue p) s.rx = true)
    (room : (s.poll p).pc.inHand ≠ none → (s.poll p).workDone < cfg.budget) :
    s'.remaining cfg p < s.remaining cfg p := by
  -- all steps but the last one of a delivery keep `work_done`
  have lower : ∀ {t : State} {f : PollFrame}, t.poll p = f → t.knobs = s.knobs →
      f.workDone = (s.poll p).workDone → t.rank p < s.rank p →
      t.remaining cfg p < s.remaining cfg p := by
    rintro t _ rfl knobs same less
    rw [State.remaining, State.remaining, knobs, same]
    exact Nat.add_lt_add_left less _
  cases move with
  | control f stats stall own =>
      obtain ⟨same, less⟩ := own.rank life busy jump
      exact lower (update_self _ _ _) rfl same (by simpa [State.rank] using less)
  | peekMore site pc running =>
      have uncached : (s.rxQueue p).peeked = none := by
        cases peeked : (s.rxQueue p).peeked with
        | none => rfl
        | some x => simp [peekStep_of_cached (queues.represents p).2 peeked] at running
      have fuel := PrevQueue.peekFuel_lt running uncached
      have unsure : ¬ sure (s.rxQueue p) s.rx = true := by simp [sure, uncached]
      refine lower (update_self _ _ _) rfl rfl ?_
      simp only [State.rank, update_self, pollRank, pc]
      cases site with
      | deliver =>
          simp only [if_neg unsure]
          split <;> omega
      | _ =>
          simp only
          omega
  | peekDone site head pc returned =>
      refine lower (update_self _ _ _) rfl rfl ?_
      simp only [State.rank, update_self]
      refine rank_afterPeek site pc fun ready => ?_
      obtain ⟨x, cached, stored⟩ := sure_iff.mp ready
      rw [peekStep_of_cached (queues.represents p).2 cached] at returned
      exact ⟨x, (Option.some.inj returned).symm, stored⟩
  | peerPut x k pc found =>
      have room := room (by simp [pc, PollPc.inHand])
      have fuel := (s.rxQueue p).peekFuel_bounds
      have less : cfg.budget - (s.poll p).workDone =
          cfg.budget - ((s.poll p).workDone + 1) + 1 := by omega
      simp only [State.remaining, State.rank, update_self]
      rw [less, Nat.add_mul, Nat.one_mul]
      by_cases more : (s.poll p).workDone + 1 < cfg.budget
      · by_cases ready : sure (s.rxQueue p) s.rx = true
        · simp only [pollRank, pc, more, ready, ↓reduceIte]
          omega
        · simp only [pollRank, pc, more, ready, ↓reduceIte, Bool.false_eq_true]
          omega
      · simp only [pollRank, pc, more, ↓reduceIte]
        omega
  | drop x st pc =>
      refine lower (update_self _ _ _) rfl rfl ?_
      simp only [State.rank, update_self]
      cases st <;> simp [pollRank, pc]
  | validate x k pc found =>
      refine lower (update_self _ _ _) rfl rfl ?_
      simp only [State.rank, update_self]
      cases ((s.counter k).counterValidate (cfg.nonce x)).2 <;> simp [pollRank, pc]
  | stealTake job rest pc head =>
      refine lower (update_self _ _ _) rfl rfl ?_
      simp only [State.rank, update_self, pollRank, pc, RxPc.fuel]
      omega
  | entry pc =>
      have fuel := (s.rxQueue p).peekFuel_bounds
      refine lower (update_self _ _ _) rfl rfl ?_
      simp only [State.rank, update_self, pollRank, pc]
      split <;> omega
  | publishStore head pc =>
      have fuel := (s.rxQueue p).peekFuel_bounds
      refine lower (update_self _ _ _) rfl rfl ?_
      simp only [State.rank, update_self, pollRank, pc]
      omega
  | suppClear pc =>
      have fuel := (s.rxQueue p).peekFuel_bounds
      refine lower (update_self _ _ _) rfl rfl ?_
      simp only [State.rank, update_self, pollRank, pc]
      omega
  | stealDry stats pc empty =>
      refine lower (update_self _ _ _) rfl rfl ?_
      simp only [State.rank, update_self, pollRank, pc]
      omega
  | _ =>
      refine lower (update_self _ _ _) rfl rfl ?_
      simp_all only [State.rank, update_self, pollRank]
      decide

/-! ## The steps of the other contexts

A context other than the poll can make the head deliverable, which lowers the rank, and can
put more packets into the queue and on the ring, which the rank does not see. -/

/-- A step of the poll of `p`: of its own code, or of a completion it runs for a stolen
packet. -/
def OwnStep (p : Peer) (s : State) : Action → Prop
  | .poll q _ => q = p
  | .complete x _ _ => (s.rx x).ctx = .poll p
  | _ => False

/-- What the other contexts leave alone: the poll's frame, the consumer's side of its queue,
the verdicts that are stored, and the completion that the poll runs for a stolen packet. -/
structure Aside (p : Peer) (s s' : State) : Prop where
  poll : s'.poll p = s.poll p
  peeked : (s'.rxQueue p).peeked = (s.rxQueue p).peeked
  deq : (s'.rxQueue p).deq = (s.rxQueue p).deq
  stored : ∀ x, (s.rx x).pc.stored = true → (s'.rx x).pc.stored = true
  job : ∀ job, (s.poll p).pc = .stealBusy job → s'.rx job = s.rx job

theorem Aside.sure (h : Aside p s s') (ready : sure (s.rxQueue p) s.rx = true) :
    sure (s'.rxQueue p) s'.rx = true := by
  obtain ⟨x, cached, stored⟩ := sure_iff.mp ready
  exact sure_iff.mpr ⟨x, h.peeked.trans cached, h.stored x stored⟩

/-- **The other contexts give the poll nothing more to do.**  The rank looks at the cache
and at verdicts, and a verdict that is stored stays so. -/
theorem Aside.remaining (h : Aside p s s') (steal : s'.knobs.steal = s.knobs.steal) :
    s'.remaining cfg p ≤ s.remaining cfg p := by
  have fuel : (s'.rxQueue p).peekFuel = (s.rxQueue p).peekFuel := by
    rw [PrevQueue.peekFuel, PrevQueue.peekFuel, h.peeked, h.deq]
  have bounds := (s.rxQueue p).peekFuel_bounds
  rw [State.remaining, State.remaining, State.rank, State.rank, h.poll, steal]
  refine Nat.add_le_add_left ?_ _
  cases pc : (s.poll p).pc with
  | peek site =>
      simp only [pollRank, pc, fuel]
      cases site with
      | deliver =>
          by_cases ready : WgReceivePath.sure (s.rxQueue p) s.rx = true
          · simp [ready, h.sure ready]
          · rw [if_neg ready]
            dsimp only
            split <;> omega
      | _ => exact le_rfl
  | readState site x =>
      simp only [pollRank, pc]
      cases site with
      | deliver =>
          by_cases stored : (s.rx x).pc.stored = true
          · simp [stored, h.stored x stored]
          · dsimp only
            rw [if_neg stored]
            split <;> omega
      | _ => exact le_rfl
  | stealBusy job => simp [pollRank, pc, h.job job pc]
  | _ => simp [pollRank, pc]

/-- A completion frame changes only when it is created, or by a step of its packet.  So a
verdict can be lost only by the packet's own completion, which does not go back. -/
theorem Transition.rx {a : Action} (move : Transition cfg s a s') (life : Life s) (y : Skb) :
    s'.rx y = s.rx y ∨ (s.rx y).pc.taken = false ∨
      ∃ expired auth k, a = .complete y expired auth ∧ RxStep cfg s y k s' := by
  have created : ∀ {z : Skb} (f : RxFrame), (s.rx z).pc.taken = false →
      update s.rx z f y = s.rx y ∨ (s.rx y).pc.taken = false := by
    intro z f free
    rcases eq_or_ne y z with rfl | ne
    · exact .inr free
    · exact .inl (update_of_ne ne f s.rx)
  have ring : ∀ {z : Skb}, z ∈ s.ring → (s.rx z).pc.taken = false := by
    intro z mem
    rw [(life.mem_ring z).mp mem]
    rfl
  have split : ∀ {P Q R : Prop}, P ∨ Q → P ∨ Q ∨ R := fun h => h.imp_right .inl
  cases move with
  | @producer x found _ move =>
      have unqueued : (s.prod x).produced = false → (s.rx x).pc.taken = false := by
        intro early
        rw [(life.packet x).unqueued_of early]
        rfl
      cases move with
      | produce k c pc found room =>
          exact split (created _ (unqueued (by simp [pc, ProdPc.produced])))
      | ringFull k c pc found full =>
          exact split (created _ (unqueued (by simp [pc, ProdPc.produced])))
      | _ => exact .inl rfl
  | @complete x expired auth _ k found move =>
      rcases eq_or_ne y x with rfl | ne
      · exact .inr (.inr ⟨expired, auth, k, rfl, move⟩)
      · cases move.move with
        | decide st pc verdict rx => exact .inl (by rw [rx, update_of_ne ne])
        | get pc rx => exact .inl (by rw [rx, update_of_ne ne])
        | store pc rx => exact .inl (by rw [rx, update_of_ne ne])
        | wake pc' before after rx => exact .inl (by rw [rx, update_of_ne ne])
  | worker present move =>
      cases move with
      | take x rest pc head => exact split (created _ (ring (by simp [head])))
      | _ => exact .inl rfl
  | poll present move =>
      rcases move.rule.rx with same | ⟨job, mem, same⟩
      · exact .inl (by rw [same])
      · rw [same]
        exact split (created _ (ring mem))
  | timer is move => cases move <;> exact .inl rfl
  | remove present move => cases move <;> exact .inl rfl
  | env move => cases move <;> exact .inl rfl

/-- What is stored stays stored. -/
theorem Transition.stored {a : Action} (move : Transition cfg s a s') (life : Life s) (y : Skb)
    (stored : (s.rx y).pc.stored = true) : (s'.rx y).pc.stored = true := by
  rcases move.rx life y with same | free | ⟨-, -, k, -, move⟩
  · rwa [same]
  · rw [RxPc.taken_of_stored stored] at free
    cases free
  · exact (move.move.stays y stored).1

/-- The steps of the other contexts stay aside.  A producer works at the other end of the
queue, a completion stores verdicts, and a completion that the poll itself runs is the
poll's own step. -/
theorem Transition.aside {a : Action} (move : Transition cfg s a s') (life : Life s)
    (owned : Owned cfg s) (present : p < cfg.peers) (other : ¬ OwnStep p s a) :
    Aside p s s' := by
  have job : ∀ job, (s.poll p).pc = .stealBusy job → s'.rx job = s.rx job := by
    intro job pc
    obtain ⟨ctx, taken⟩ := owned.owner job (.poll p) ⟨present, pc⟩
    rcases move.rx life job with same | free | ⟨expired, auth, k, rfl, -⟩
    · exact same
    · rw [taken] at free
      cases free
    · exact absurd ctx other
  have stored := fun y => move.stored life y
  have queue : ∀ {q : Peer} {q' : PrevQueue Skb},
      q'.peeked = (s.rxQueue q).peeked ∧ q'.deq = (s.rxQueue q).deq →
      (update s.rxQueue q q' p).peeked = (s.rxQueue p).peeked ∧
        (update s.rxQueue q q' p).deq = (s.rxQueue p).deq := by
    intro q q' same
    rcases eq_or_ne p q with rfl | ne
    · rwa [update_self]
    · rw [update_of_ne ne]
      exact ⟨rfl, rfl⟩
  cases move with
  | producer move =>
      cases move with
      | accept k q pc found room =>
          have same := queue (PrevQueue.reserve_peeked room)
          exact ⟨rfl, same.1, same.2, stored, job⟩
      | enqClear k q pc found enq taken =>
          have same := queue (PrevQueue.enqueueStep_peeked taken)
          exact ⟨rfl, same.1, same.2, stored, job⟩
      | enqXchg k q pc found enq taken =>
          have same := queue (PrevQueue.enqueueStep_peeked taken)
          exact ⟨rfl, same.1, same.2, stored, job⟩
      | enqLink k q prev pc found enq taken =>
          have same := queue (PrevQueue.enqueueStep_peeked taken)
          exact ⟨rfl, same.1, same.2, stored, job⟩
      | _ => exact ⟨rfl, rfl, rfl, stored, job⟩
  | complete k found move =>
      have same := move.frame
      exact ⟨by rw [same.poll], by rw [same.rxQueue], by rw [same.rxQueue], stored, job⟩
  | worker present move => cases move <;> exact ⟨rfl, rfl, rfl, stored, job⟩
  | @poll q routed _ present move =>
      have ne : p ≠ q := fun same => other same.symm
      have frame := move.rule.poll p ne
      have foreign : ∀ q' : PrevQueue Skb, update s.rxQueue q q' p = s.rxQueue p :=
        fun q' => update_of_ne ne q' s.rxQueue
      cases move with
      | peekMore site pc running =>
          exact ⟨frame, congrArg _ (foreign _), congrArg _ (foreign _), stored, job⟩
      | peekDone site head pc returned =>
          exact ⟨frame, congrArg _ (foreign _), congrArg _ (foreign _), stored, job⟩
      | drop x st pc =>
          exact ⟨frame, congrArg _ (foreign _), congrArg _ (foreign _), stored, job⟩
      | _ => exact ⟨frame, rfl, rfl, stored, job⟩
  | timer is move => cases move <;> exact ⟨rfl, rfl, rfl, stored, job⟩
  | remove present move => cases move <;> exact ⟨rfl, rfl, rfl, stored, job⟩
  | env move => cases move <;> exact ⟨rfl, rfl, rfl, stored, job⟩

/-- A completion that the poll runs leaves it less to do. -/
theorem RxStep.remaining {k : Keypair} (move : RxStep cfg s x k s')
    (pc : (s.poll p).pc = .stealBusy x) : s'.remaining cfg p < s.remaining cfg p := by
  have same := move.frame
  have knobs : s'.knobs = s.knobs := by cases move <;> rfl
  have fuel := move.fuel
  simp only [State.remaining, State.rank, same.poll, knobs, pollRank, pc]
  omega

/-! ## What one poll does

The counts are attached to the machine from outside.  Their invariant is stated by the stage
of the poll, since most program points of a stage share one equation. -/

/-- The counts of one call of `wg_packet_rx_poll`.  They are no part of the driver's state,
and nothing in the machine reads them. -/
structure Tally where
  /-- steps of its own -/
  own : ℕ
  /-- packets dropped from `rx_queue` -/
  drops : ℕ
  /-- entries consumed from the decrypt ring -/
  pulls : ℕ
  /-- jumps back to `deliver` since the last drop -/
  unanswered : ℕ
  /-- the arguments of its calls of `napi_complete_done` -/
  completes : List ℕ

def Tally.zero : Tally := ⟨0, 0, 0, 0, []⟩

/-- A step of the poll's own code.  A drop answers the jumps before it. -/
def Tally.poll (t : Tally) (s : State) (p : Peer) : Tally :=
  let t := { t with own := t.own + 1 }
  match (s.poll p).pc with
  | .dropPeeked _ _ => { t with drops := t.drops + 1, unanswered := 0 }
  | .stealConsume => { t with pulls := t.pulls + if s.ring = [] then 0 else 1 }
  | .stealUnblocked => { t with unanswered := t.unanswered + 1 }
  | .complete => { t with completes := t.completes ++ [(s.poll p).workDone] }
  | _ => t

/-- The counts after an action. -/
def Tally.count (p : Peer) (s : State) (t : Tally) : Action → Tally
  | .poll q _ => if q = p then t.poll s p else t
  | .complete x _ _ => if (s.rx x).ctx = .poll p then { t with own := t.own + 1 } else t
  | _ => t

/-- The machine with the counts of the poll of `p`: the same steps, and the counts beside
them. -/
def tallied (cfg : Config) (p : Peer) (st : State × Tally) (a : Action) :
    Option (State × Tally) :=
  (step cfg st.1 a).map fun s' => (s', st.2.count p st.1 a)

/-- `wg_steal` keeps its value. -/
def StealFixed (s : State) : Action → Prop
  | .setKnobs knobs => knobs.steal = s.knobs.steal
  | _ => True

instance (s : State) (a : Action) : Decidable (StealFixed s a) := by
  cases a <;> unfold StealFixed <;> infer_instance

/-- The poll of `p` has not returned, and `wg_steal` is not changed.  The bound on the ring
is stated with one value of `wg_steal`, and the source reads it again at every pass. -/
def InPoll (p : Peer) (st : State × Tally) (a : Action) : Prop :=
  (st.1.poll p).pc ≠ .idle ∧ StealFixed st.1 a

instance (p : Peer) (st : State × Tally) (a : Action) : Decidable (InPoll p st a) :=
  inferInstanceAs (Decidable (_ ∧ _))

/-- The parts of the poll, as far as the counts differ between them. -/
inductive Stage where
  | deliver
  /-- a packet is dropped and not yet counted in `work_done` -/
  | dropped
  | gate
  | steal
  /-- inside the steal loop, before the ring -/
  | pull
  /-- inside the steal loop, after the ring -/
  | busy
  | leave
  | idle
  deriving DecidableEq

def PollPc.stage : PollPc → Stage
  | .entry | .peek .deliver | .readState .deliver _ | .dropPeeked _ _ => .deliver
  | .validate _ | .endpoint _ | .consume _ | .routedPut _ _ | .keypairPut _ => .dropped
  | .peerPut _ => .dropped
  | .stealGate => .gate
  | .stealWhile | .stealEnd | .peek .stealDone | .stealStat _ => .steal
  | .readState .stealDone _ | .stealUnblocked => .steal
  | .peek .stealHead | .readState .stealHead _ | .stealConsume => .pull
  | .stealBusy _ => .busy
  | .idle => .idle
  | _ => .leave

/-- The counts at each part of the poll.  A steal pass follows at most one drop, so with
`w` packets delivered `w` passes are over. -/
def StageOk (budget steal w pulled : ℕ) (t : Tally) : Stage → Prop
  | .deliver => t.drops = w ∧ w < budget ∧ t.completes = [] ∧
      t.pulls ≤ (w + if t.unanswered = 0 then 0 else 1) * steal
  | .dropped => t.drops = w + 1 ∧ w < budget ∧ t.completes = [] ∧ t.unanswered = 0 ∧
      t.pulls ≤ (w + 1) * steal
  | .gate => t.drops = w ∧ w ≤ budget ∧ t.completes = [] ∧ t.unanswered = 0 ∧
      t.pulls ≤ w * steal
  | .steal => t.drops = w ∧ w < budget ∧ t.completes = [] ∧ t.unanswered = 0 ∧
      t.pulls ≤ w * steal + pulled ∧ pulled ≤ steal
  | .pull => t.drops = w ∧ w < budget ∧ t.completes = [] ∧ t.unanswered = 0 ∧
      t.pulls ≤ w * steal + pulled ∧ pulled < steal
  | .busy => t.drops = w ∧ w < budget ∧ t.completes = [] ∧ t.unanswered = 0 ∧
      t.pulls ≤ w * steal + (pulled + 1) ∧ pulled < steal
  | .leave => t.drops = w ∧ w ≤ budget ∧ t.completes = [] ∧ t.unanswered = 0 ∧
      t.pulls ≤ budget * steal
  | .idle => t.drops = w ∧ w ≤ budget ∧ t.completes = (if w < budget then [w] else []) ∧
      t.unanswered = 0 ∧ t.pulls ≤ budget * steal

section Stages

variable {budget steal w pulled pulled' : ℕ} {t : Tally}

theorem StageOk.own {stage : Stage} (h : StageOk budget steal w pulled t stage) (n : ℕ) :
    StageOk budget steal w pulled { t with own := n } stage := by
  cases stage <;> exact h

/-- What a steal pass may take is what the packet to be delivered next allows: the passes
before it are paid by the packets delivered so far. -/
theorem StageOk.pass (h : StageOk budget steal w pulled t .steal) :
    t.pulls ≤ (w + 1) * steal := by
  have := h.2.2.2.2
  rw [Nat.succ_mul]
  omega

theorem StageOk.leave_of_steal (h : StageOk budget steal w pulled t .steal) :
    StageOk budget steal w pulled' t .leave :=
  ⟨h.1, h.2.1.le, h.2.2.1, h.2.2.2.1, h.pass.trans (Nat.mul_le_mul_right _ h.2.1)⟩

theorem StageOk.leave_of_gate (h : StageOk budget steal w pulled t .gate) :
    StageOk budget steal w pulled' t .leave :=
  ⟨h.1, h.2.1, h.2.2.1, h.2.2.2.1, h.2.2.2.2.trans (Nat.mul_le_mul_right _ h.2.1)⟩

theorem StageOk.steal_of_pull (h : StageOk budget steal w pulled t .pull) :
    StageOk budget steal w pulled t .steal :=
  ⟨h.1, h.2.1, h.2.2.1, h.2.2.2.1, h.2.2.2.2.1, h.2.2.2.2.2.le⟩

theorem StageOk.gate_of_deliver (h : StageOk budget steal w pulled t .deliver)
    (answered : t.unanswered = 0) : StageOk budget steal w pulled' t .gate := by
  obtain ⟨drops, room, completes, pulls⟩ := h
  rw [if_pos answered, Nat.add_zero] at pulls
  exact ⟨drops, room.le, completes, answered, pulls⟩

/-- `wg_prev_queue_drop_peeked`. -/
theorem StageOk.drop (h : StageOk budget steal w pulled t .deliver) :
    StageOk budget steal w pulled { t with drops := t.drops + 1, unanswered := 0 } .dropped := by
  obtain ⟨drops, room, completes, pulls⟩ := h
  refine ⟨congrArg (· + 1) drops, room, completes, rfl, pulls.trans ?_⟩
  refine Nat.mul_le_mul_right _ (Nat.add_le_add_left ?_ _)
  split <;> decide

/-- `++work_done`. -/
theorem StageOk.count (h : StageOk budget steal w pulled t .dropped) :
    StageOk budget steal (w + 1) pulled t
      (if w + 1 < budget then .deliver else .gate) := by
  obtain ⟨drops, room, completes, answered, pulls⟩ := h
  split <;> rename_i more
  · refine ⟨drops, more, completes, ?_⟩
    rw [if_pos answered]
    exact pulls
  · exact ⟨drops, room, completes, answered, pulls⟩

/-- `goto deliver`. -/
theorem StageOk.jump (h : StageOk budget steal w pulled t .steal) :
    StageOk budget steal w pulled' { t with unanswered := t.unanswered + 1 } .deliver := by
  refine ⟨h.1, h.2.1, h.2.2.1, ?_⟩
  rw [if_neg (Nat.succ_ne_zero _)]
  exact h.pass

end Stages

/-- A delivery loop at this point delivers at least one packet: the head it is going to see
is deliverable, or it has seen it. -/
def certain (pc : PollPc) (q : PrevQueue Skb) (rx : Skb → RxFrame) : Bool :=
  match pc with
  | .peek .deliver => sure q rx
  | .readState .deliver x => (rx x).pc.stored
  | .dropPeeked _ _ => true
  | _ => false

/-- The counts agree with the poll's frame: with its stage, and with a deliverable head
wherever a jump is still unanswered or about to be made. -/
structure TallyOk (budget steal : ℕ) (f : PollFrame) (q : PrevQueue Skb) (rx : Skb → RxFrame)
    (t : Tally) : Prop where
  stage : StageOk budget steal f.workDone f.pulled t f.pc.stage
  answered : t.unanswered ≠ 0 → certain f.pc q rx = true
  jump : f.pc = .stealUnblocked → sure q rx = true

/-- `TallyOk` of the poll of `p`. -/
abbrev Tallies (cfg : Config) (p : Peer) (s : State) (t : Tally) : Prop :=
  TallyOk cfg.budget s.knobs.steal.toNat (s.poll p) (s.rxQueue p) s.rx t

/-- Jumps are open in the delivery loop only. -/
theorem StageOk.answered {budget steal w pulled : ℕ} {t : Tally} {stage : Stage}
    (h : StageOk budget steal w pulled t stage) (out : stage ≠ .deliver) :
    t.unanswered = 0 := by
  cases stage with
  | deliver => exact absurd rfl out
  | dropped => exact h.2.2.2.1
  | gate => exact h.2.2.2.1
  | steal => exact h.2.2.2.1
  | pull => exact h.2.2.2.1
  | busy => exact h.2.2.2.1
  | leave => exact h.2.2.2.1
  | idle => exact h.2.2.2.1

/-- Outside the delivery loop the stage says it all. -/
theorem TallyOk.of_stage {budget steal : ℕ} {f : PollFrame} {q : PrevQueue Skb}
    {rx : Skb → RxFrame} {t : Tally}
    (stage : StageOk budget steal f.workDone f.pulled t f.pc.stage)
    (out : f.pc.stage ≠ .deliver) (calm : f.pc ≠ .stealUnblocked) :
    TallyOk budget steal f q rx t :=
  ⟨stage, fun pending => absurd (stage.answered out) pending, fun pc => absurd pc calm⟩

/-- The private steps of a running poll.  The head that the test for `goto deliver` finds is
the cached one, by `Cached`. -/
theorem PollMove.tally {f : PollFrame} {t : Tally} (own : PollMove cfg s p f)
    (ok : Tallies cfg p s t) (life : Life s) (cached : Cached s)
    (busy : (s.poll p).pc ≠ .idle) :
    TallyOk cfg.budget s.knobs.steal.toNat f (s.rxQueue p) s.rx (t.poll s p) := by
  have stage := ok.stage
  cases own with
  | start pc sched => exact absurd pc busy
  | readState site x pc =>
      have stored := life.stored_iff x
      simp only [Tally.poll, pc] at stage ⊢
      replace stage := stage.own (t.own + 1)
      cases site with
      | deliver =>
          by_cases uncrypted : s.state x = .uncrypted
          · have answered : t.unanswered = 0 := by
              by_contra pending
              have late := ok.answered pending
              rw [pc] at late
              exact stored.mp late uncrypted
            simp only [afterRead, uncrypted, ↓reduceIte]
            exact .of_stage (stage.gate_of_deliver answered) (by simp [PollPc.stage]) (by simp)
          · simp only [afterRead, uncrypted, ↓reduceIte]
            exact ⟨stage, fun _ => rfl, by simp⟩
      | stealHead =>
          by_cases uncrypted : s.state x = .uncrypted
          · simp only [afterRead, uncrypted, ↓reduceIte]
            exact .of_stage stage (by simp [PollPc.stage]) (by simp)
          · simp only [afterRead, uncrypted, ↓reduceIte]
            exact .of_stage stage.steal_of_pull (by simp [PollPc.stage]) (by simp)
      | stealDone =>
          by_cases uncrypted : s.state x = .uncrypted
          · simp only [afterRead, uncrypted, ↓reduceIte]
            exact .of_stage stage.leave_of_steal (by simp [PollPc.stage]) (by simp)
          · simp only [afterRead, uncrypted, ↓reduceIte]
            refine ⟨stage, fun pending => ?_, fun _ => ?_⟩
            · exact absurd (stage.answered (by simp [PollPc.stage])) pending
            · exact sure_iff.mpr ⟨x, cached p x (by rw [pc]; rfl), stored.mpr uncrypted⟩
      | _ =>
          by_cases uncrypted : s.state x = .uncrypted <;>
            simp only [afterRead, uncrypted, ↓reduceIte] <;>
            exact .of_stage stage (by simp [PollPc.stage]) (by simp)
  | endpoint x pc =>
      simp only [Tally.poll, pc] at stage ⊢
      replace stage := stage.own (t.own + 1)
      split <;> exact .of_stage stage (by simp [PollPc.stage]) (by simp)
  | stealEnter pc on room =>
      simp only [Tally.poll, pc] at stage ⊢
      obtain ⟨drops, -, completes, answered, pulls⟩ := stage
      exact .of_stage ⟨drops, room, completes, answered, pulls, Nat.zero_le _⟩
        (by simp [PollPc.stage]) (by simp)
  | stealSkip pc off =>
      simp only [Tally.poll, pc] at stage ⊢
      exact .of_stage (stage.own (t.own + 1)).leave_of_gate (by simp [PollPc.stage]) (by simp)
  | stealMore pc more =>
      simp only [Tally.poll, pc] at stage ⊢
      obtain ⟨drops, room, completes, answered, pulls, -⟩ := stage
      exact .of_stage ⟨drops, room, completes, answered, pulls, more⟩ (by simp [PollPc.stage])
        (by simp)
  | stealBack job pc returned =>
      simp only [Tally.poll, pc] at stage ⊢
      exact .of_stage (stage.own (t.own + 1)) (by simp [PollPc.stage]) (by simp)
  | stealNone pc pulled =>
      simp only [Tally.poll, pc] at stage ⊢
      exact .of_stage (stage.own (t.own + 1)).leave_of_steal (by simp [PollPc.stage]) (by simp)
  | statNone pc =>
      simp only [Tally.poll, pc] at stage ⊢
      exact .of_stage (stage.own (t.own + 1)).leave_of_steal (by simp [PollPc.stage]) (by simp)
  | unblocked pc =>
      have ready := ok.jump pc
      simp only [Tally.poll, pc] at stage ⊢
      exact ⟨(stage.own (t.own + 1)).jump, fun _ => ready, by simp⟩
  | exhausted pc spent =>
      simp only [Tally.poll, pc] at stage ⊢
      obtain ⟨drops, most, completes, answered, pulls⟩ := stage
      refine .of_stage ⟨drops, most, ?_, answered, pulls⟩ (by simp [PollPc.stage]) (by simp)
      rw [if_neg spent]
      exact completes
  | _ =>
      have pc := ‹(s.poll p).pc = _›
      simp only [Tally.poll, pc] at stage ⊢
      exact .of_stage (stage.own (t.own + 1)) (by simp [PollPc.stage]) (by simp)

/-- The end of a peek, with `answered` for a deliverable head in the cache.  At the other
places of a peek no jump is open. -/
theorem TallyOk.afterPeek {budget steal : ℕ} {f : PollFrame} {q q' : PrevQueue Skb}
    {rx : Skb → RxFrame} {t : Tally} {head : Option Skb} (site : PeekSite)
    (pc : f.pc = .peek site) (ok : TallyOk budget steal f q rx t)
    (cached : sure q rx = true → ∃ x, head = some x ∧ (rx x).pc.stored = true) :
    TallyOk budget steal { f with pc := afterPeek site head } q' rx t := by
  have stage := ok.stage
  rw [pc] at stage
  cases site with
  | deliver =>
      have ready : t.unanswered ≠ 0 → ∃ x, head = some x ∧ (rx x).pc.stored = true := by
        intro pending
        have late := ok.answered pending
        rw [pc] at late
        exact cached late
      cases head with
      | none =>
          have answered : t.unanswered = 0 := by
            by_contra pending
            obtain ⟨x, ⟨⟩, -⟩ := ready pending
          exact .of_stage (stage.gate_of_deliver answered)
            (by simp [WgReceivePath.afterPeek, PollPc.stage]) (by simp [WgReceivePath.afterPeek])
      | some y =>
          refine ⟨stage, fun pending => ?_, by simp [WgReceivePath.afterPeek]⟩
          obtain ⟨x, ⟨⟩, stored⟩ := ready pending
          exact stored
  | stealHead =>
      cases head with
      | none =>
          exact .of_stage stage.steal_of_pull (by simp [WgReceivePath.afterPeek, PollPc.stage])
            (by simp [WgReceivePath.afterPeek])
      | some y =>
          exact .of_stage stage (by simp [WgReceivePath.afterPeek, PollPc.stage])
            (by simp [WgReceivePath.afterPeek])
  | _ =>
      cases head <;> exact .of_stage stage (by simp [WgReceivePath.afterPeek, PollPc.stage])
        (by simp [WgReceivePath.afterPeek])

/-- **Every step of a running poll keeps its counts.**  The steps on shared state are those
of the delivery and of the steal loop; the others are private. -/
theorem PollStep.tally {t : Tally} (move : PollStep cfg s p s') (ok : Tallies cfg p s t)
    (life : Life s) (cached : Cached s) (queues : Queues cfg s) (polls : Polls cfg s)
    (busy : (s.poll p).pc ≠ .idle) : Tallies cfg p s' (t.poll s p) := by
  have stage := ok.stage
  cases move with
  | control f stats stall own =>
      simpa only [Tallies, update_self] using own.tally ok life cached busy
  | entry pc =>
      simp only [Tallies, update_self, Tally.poll, pc] at stage ⊢
      refine ⟨stage, fun pending => ?_, by simp⟩
      have late := ok.answered pending
      simp [certain, pc] at late
  | peekMore site pc running =>
      have unsure : ¬ sure (s.rxQueue p) s.rx = true := by
        intro ready
        obtain ⟨x, head, -⟩ := sure_iff.mp ready
        simp [peekStep_of_cached (queues.represents p).2 head] at running
      simp only [Tallies, update_self, Tally.poll, pc] at stage ⊢
      refine ⟨stage, fun pending => ?_, by simp⟩
      have late := ok.answered pending
      cases site <;> simp [certain, pc, unsure] at late
  | peekDone site head pc returned =>
      have ready : sure (s.rxQueue p) s.rx = true →
          ∃ x, head = some x ∧ (s.rx x).pc.stored = true := by
        intro ready
        obtain ⟨x, first, stored⟩ := sure_iff.mp ready
        rw [peekStep_of_cached (queues.represents p).2 first] at returned
        exact ⟨x, (Option.some.inj returned).symm, stored⟩
      simp only [Tallies, update_self, Tally.poll, pc]
      exact .afterPeek site pc ⟨stage.own _, ok.answered, ok.jump⟩ ready
  | drop x st pc =>
      simp only [Tallies, update_self, Tally.poll, pc] at stage ⊢
      replace stage := (stage.own (t.own + 1)).drop
      split <;> exact .of_stage stage (by simp [PollPc.stage]) (by simp)
  | validate x k pc found =>
      simp only [Tallies, update_self, Tally.poll, pc] at stage ⊢
      replace stage := stage.own (t.own + 1)
      split <;> exact .of_stage stage (by simp [PollPc.stage]) (by simp)
  | peerPut x k pc found =>
      simp only [Tallies, update_self, Tally.poll, pc] at stage ⊢
      have answered : t.unanswered = 0 := stage.answered (by simp [PollPc.stage])
      replace stage := (stage.own (t.own + 1)).count
      by_cases more : (s.poll p).workDone + 1 < cfg.budget
      · rw [if_pos more] at stage ⊢
        exact ⟨stage, fun pending => absurd answered pending, by simp⟩
      · rw [if_neg more] at stage ⊢
        exact .of_stage stage (by simp [PollPc.stage]) (by simp)
  | stealDry stats pc empty =>
      simp only [Tallies, update_self, Tally.poll, pc, if_pos empty] at stage ⊢
      exact .of_stage (stage.own (t.own + 1)).steal_of_pull (by simp [PollPc.stage]) (by simp)
  | stealTake job rest pc head =>
      simp only [Tallies, update_self, Tally.poll, pc, head, reduceCtorEq, ↓reduceIte] at stage ⊢
      obtain ⟨drops, room, completes, answered, pulls, less⟩ := stage
      exact .of_stage ⟨drops, room, completes, answered, Nat.succ_le_succ pulls, less⟩
        (by simp [PollPc.stage]) (by simp)
  | complete pc =>
      have room := (polls p).workDone (by simp [pc, PollPc.completing])
      simp only [Tallies, update_self, Tally.poll, pc] at stage ⊢
      obtain ⟨drops, most, completes, answered, pulls⟩ := stage
      refine .of_stage ⟨drops, most, ?_, answered, pulls⟩ (by simp [PollPc.stage]) (by simp)
      rw [if_pos room]
      simp [completes]
  | _ =>
      have pc := ‹(s.poll p).pc = _›
      simp only [Tallies, update_self, Tally.poll, pc] at stage ⊢
      exact .of_stage (stage.own (t.own + 1)) (by simp [PollPc.stage]) (by simp)

/-- The other contexts keep the counts. -/
theorem Aside.tally {t : Tally} (h : Aside p s s') (steal : s'.knobs.steal = s.knobs.steal)
    (ok : Tallies cfg p s t) : Tallies cfg p s' t := by
  rw [Tallies, h.poll, steal]
  refine ⟨ok.stage, fun pending => ?_, fun pc => h.sure (ok.jump pc)⟩
  have late := ok.answered pending
  cases pc : (s.poll p).pc with
  | peek site =>
      rw [pc] at late
      cases site <;> first | exact h.sure late | exact late
  | readState site x =>
      rw [pc] at late
      cases site <;> first | exact h.stored x late | exact late
  | dropPeeked y st => rfl
  | _ =>
      rw [pc] at late
      cases late

/-- A completion that the poll runs keeps the counts. -/
theorem RxStep.tally {k : Keypair} {t : Tally} (move : RxStep cfg s x k s')
    (pc : (s.poll p).pc = .stealBusy x) (ok : Tallies cfg p s t) :
    Tallies cfg p s' { t with own := t.own + 1 } := by
  have same := move.frame
  have knobs : s'.knobs = s.knobs := by cases move <;> rfl
  rw [Tallies, same.poll, knobs]
  exact .of_stage (ok.stage.own _) (by simp [pc, PollPc.stage]) (by simp [pc])

/-! ## The poll is never stuck

Every program point of the poll has a step.  Where it runs a completion, that completion has
a step of its own; and no step of it waits for another context. -/

/-- The keypair of a packet on the ring's far side. -/
theorem PacketLife.keypair_of_taken (life : Life s) (taken : (s.rx x).pc.taken = true) :
    ∃ k, s.keypair x = some k := by
  have ok := life.packet x
  have produced : (s.prod x).produced = true := by
    by_contra early
    rw [ok.unqueued_of (Bool.not_eq_true _ ▸ early)] at taken
    cases taken
  refine Option.isSome_iff_exists.mp (ok.found ?_)
  cases prod : s.prod x <;> simp_all [ProdPc.produced, ProdPc.found]

/-- A completion that has not returned goes on. -/
theorem complete_enabled {k : Keypair} (found : s.keypair x = some k)
    (taken : (s.rx x).pc.taken = true) (running : (s.rx x).pc ≠ .done) :
    (step cfg s (.complete x false false)).isSome = true := by
  rw [step, completeStep, found, Option.bind_some]
  unfold rxStep
  cases pc : (s.rx x).pc <;> simp_all [RxPc.taken]

/-- **A running poll can take a step of its own**: of its code, or of the completion it
runs.  It waits for no one, so that it ends with the bound on its steps. -/
theorem own_enabled (life : Life s) (owned : Owned cfg s) (held : Held s)
    (queues : Queues cfg s) (present : p < cfg.peers) (busy : (s.poll p).pc ≠ .idle) :
    ∃ a, OwnStep p s a ∧ (step cfg s a).isSome = true := by
  have inHand : ∀ y, (s.poll p).pc.inHand = some y → ∃ k, s.keypair y = some k :=
    fun y own => Option.isSome_iff_exists.mp (dropped_held queues (held.hand p y own) own).2.1
  by_cases job : ∃ job, (s.poll p).pc = .stealBusy job ∧ (s.rx job).pc ≠ .done
  · obtain ⟨job, pc, running⟩ := job
    obtain ⟨ctx, taken⟩ := owned.owner job (.poll p) ⟨present, pc⟩
    obtain ⟨k, found⟩ := life.keypair_of_taken taken
    exact ⟨.complete job false false, ctx, complete_enabled found taken running⟩
  · refine ⟨.poll p none, rfl, ?_⟩
    rw [step, if_pos present]
    unfold pollStep
    cases pc : (s.poll p).pc with
    | idle => exact absurd pc busy
    | validate y =>
        obtain ⟨k, found⟩ := inHand y (by rw [pc]; rfl)
        simp [found, deliverStep, pc]
    | consume y =>
        obtain ⟨k, found⟩ := inHand y (by rw [pc]; rfl)
        simp [found, deliverStep, pc]
    | routedPut r y =>
        obtain ⟨k, found⟩ := inHand y (by rw [pc]; rfl)
        simp [found, deliverStep, pc]
    | keypairPut y =>
        obtain ⟨k, found⟩ := inHand y (by rw [pc]; rfl)
        simp [found, deliverStep, pc]
    | peerPut y =>
        obtain ⟨k, found⟩ := inHand y (by rw [pc]; rfl)
        simp [found, deliverStep, pc]
    | stealConsume =>
        simp only [pc]
        split <;> rfl
    | stealBusy y =>
        have returned : (s.rx y).pc = .done := by
          by_contra running
          exact job ⟨y, pc, running⟩
        simp [pollControl, pc, returned]
    | stealGate =>
        simp only [pollControl, pc, Option.isSome_map]
        split <;> rfl
    | diagClose =>
        simp only [pollControl, pc, Option.isSome_map]
        split <;> rfl
    | stallFlip cls =>
        simp only [pollControl, pc, Option.isSome_map]
        split <;> rfl
    | _ => simp [pollControl, pc]

/-! ## The contract -/

/-- What holds all through a poll that began with `wg_steal = steal`.  The steps taken and
the steps that are left stay within one bound. -/
structure Running (cfg : Config) (p : Peer) (steal : BitVec 64) (bound : ℕ)
    (st : State × Tally) : Prop where
  steal : st.1.knobs.steal = steal
  tally : Tallies cfg p st.1 st.2
  own : st.2.own + st.1.remaining cfg p ≤ bound

variable {knobs : Knobs} {ok : State → Action → Prop} {st st' : State × Tally} {a : Action}

theorem Tally.poll_own (t : Tally) (s : State) (p : Peer) : (t.poll s p).own = t.own + 1 := by
  unfold Tally.poll
  cases (s.poll p).pc <;> rfl

/-- Only a write changes the parameters. -/
theorem Transition.steal (move : Transition cfg s a s') (fixed : StealFixed s a) :
    s'.knobs.steal = s.knobs.steal := by
  cases move with
  | env move =>
      cases move with
      | setKnobs knobs => exact fixed
      | _ => rfl
  | producer move => cases move <;> rfl
  | complete k found move => cases move <;> rfl
  | worker present move => cases move <;> rfl
  | poll present move => cases move <;> rfl
  | timer is move => cases move <;> rfl
  | remove present move => cases move <;> rfl

/-- What is not the poll's own step is not counted. -/
theorem Tally.count_other (t : Tally) (other : ¬ OwnStep p s a) : t.count p s a = t := by
  cases a with
  | poll q routed => exact if_neg other
  | complete x expired auth => exact if_neg other
  | _ => rfl

/-- **One step during a poll**, of the poll or of anyone else.  A step that is not the
poll's own counts nothing and leaves what it has still to do. -/
theorem Running.kept {t : Tally} {steal : BitVec 64} {bound : ℕ}
    (h : Running cfg p steal bound (s, t)) (reach : Reachable cfg knobs ok s)
    (present : p < cfg.peers) (guard : InPoll p (s, t) a) (move : Transition cfg s a s') :
    Running cfg p steal bound (s', t.count p s a) := by
  have life := reach.life
  have owned := reach.owned
  have tally : Tallies cfg p s t := h.tally
  have before : t.own + s.remaining cfg p ≤ bound := h.own
  have fixed := move.steal guard.2
  suffices both : Tallies cfg p s' (t.count p s a) ∧
      (t.count p s a).own + s'.remaining cfg p ≤ bound from
    ⟨fixed.trans h.steal, both.1, both.2⟩
  by_cases own : OwnStep p s a
  · -- a step of the poll: either of its code or of the completion it runs
    cases move with
    | @poll q routed _ there move =>
        obtain rfl : q = p := own
        have room : (s.poll q).pc.inHand ≠ none → (s.poll q).workDone < cfg.budget := by
          intro hand
          have stage := tally.stage
          cases pc : (s.poll q).pc <;> simp only [pc, PollPc.inHand, ne_eq, not_true_eq_false,
            reduceCtorEq, not_false_eq_true] at hand <;> rw [pc] at stage <;> exact stage.2.1
        have less := move.remaining life reach.queues guard.1 tally.jump room
        have counted := move.tally tally life reach.headCached reach.queues reach.polls guard.1
        have count : t.count q s (.poll q routed) = t.poll s q := if_pos rfl
        rw [count]
        refine ⟨counted, ?_⟩
        rw [Tally.poll_own]
        omega
    | @complete x expired auth _ k found move =>
        have active : (s.rx x).pc ≠ .done ∧ (s.rx x).pc.taken = true := by
          cases move <;> simp_all [RxPc.taken]
        have pc : (s.poll p).pc = .stealBusy x := by
          have busy := owned.owned x active.2 active.1
          rw [own] at busy
          exact busy.2
        have less := move.remaining pc
        have count : t.count p s (.complete x expired auth) = { t with own := t.own + 1 } :=
          if_pos own
        rw [count]
        refine ⟨move.tally pc tally, ?_⟩
        dsimp only
        omega
    | timer is move => rcases is with rfl | rfl <;> exact own.elim
    | env move => cases move <;> exact own.elim
    | _ => exact own.elim
  · have aside := move.aside life owned present own
    rw [Tally.count_other t own]
    exact ⟨aside.tally fixed tally, (Nat.add_le_add_left (aside.remaining fixed) _).trans before⟩

/-- A step of the counted machine is a step of the machine, so that the invariants of its
runs hold during the poll. -/
theorem reachable_of_tallied {st₀ : State × Tally} (before : Reachable cfg knobs AnyStep st₀.1)
    (run : Machine.Reach (tallied cfg p) (InPoll p) st₀ st) :
    Reachable cfg knobs AnyStep st.1 := by
  induction run with
  | start => exact before
  | next _ _ counted ih =>
      obtain ⟨s', taken, rfl⟩ := Option.map_eq_some_iff.mp counted
      exact .next ih trivial taken

/-- The invariant of a whole poll. -/
theorem Running.run {steal : BitVec 64} {bound : ℕ} {st₀ : State × Tally}
    (start : Running cfg p steal bound st₀) (reach : Reachable cfg knobs AnyStep st₀.1)
    (present : p < cfg.peers) (run : Machine.Reach (tallied cfg p) (InPoll p) st₀ st) :
    Running cfg p steal bound st := by
  refine run.invariant start fun st a st' run h guard counted => ?_
  obtain ⟨s', taken, rfl⟩ := Option.map_eq_some_iff.mp counted
  exact h.kept (reachable_of_tallied reach run) present guard (step_cases taken)

/-- The call of a poll.  Nothing is counted yet, and what it has to do is within the bound.
-/
theorem Running.call {s₀ : State} {routed : Option Peer} (idle : (s₀.poll p).pc = .idle)
    (call : step cfg s₀ (.poll p routed) = some s) :
    Running cfg p s.knobs.steal ((cfg.budget + 1) * (84 + 22 * s.knobs.steal.toNat))
      (s, .zero) := by
  have frame : s.poll p = { PollFrame.idle with pc := .entry } := by
    have move := step_cases call
    cases move with
    | poll present move =>
        cases move with
        | control f stats stall own =>
            cases own with
            | start pc sched => exact update_self _ _ _
            | _ => simp_all
        | _ => simp_all
    | timer is move => simp at is
    | env move => cases move
  refine ⟨rfl, ?_, ?_⟩
  · rw [Tallies, frame]
    exact ⟨⟨rfl, cfg.budget_pos, rfl, Nat.zero_le _⟩, fun pending => absurd rfl pending, by simp⟩
  · rw [State.remaining, State.rank, frame]
    simp only [Tally.zero, PollFrame.idle, pollRank, Nat.sub_zero, Nat.zero_add, Nat.succ_mul]
    omega

/-- **The budget contract of `wg_packet_rx_poll`.**  Let the poll of `p` be called, and let
`st` be any state of the run up to its return, whatever the other contexts do in between,
with `wg_steal` left alone.  The poll has taken boundedly many steps of its own, and as
long as it has not returned it has a step to take: it terminates.  When it has returned,
`work_done` is the number of packets it dropped from `rx_queue`, within the budget; it
consumed at most `budget * wg_steal` entries of the ring; no jump back to `deliver` was
left without a drop; and it called `napi_complete_done` once, with `work_done`, if budget
was left, and never otherwise. -/
theorem poll_contract (cfg : Config) (knobs : Knobs) (s₀ s : State)
    (reach : Reachable cfg knobs AnyStep s₀) (p : Peer) (routed : Option Peer)
    (idle : (s₀.poll p).pc = .idle) (call : step cfg s₀ (.poll p routed) = some s)
    (st : State × Tally) (run : Machine.Reach (tallied cfg p) (InPoll p) (s, .zero) st) :
    st.2.own ≤ (cfg.budget + 1) * (84 + 22 * s.knobs.steal.toNat) ∧
      ((st.1.poll p).pc ≠ .idle → ∃ a, OwnStep p st.1 a ∧ (step cfg st.1 a).isSome = true) ∧
      ((st.1.poll p).pc = .idle →
        (st.1.poll p).workDone = st.2.drops ∧ st.2.drops ≤ cfg.budget ∧
        st.2.pulls ≤ cfg.budget * s.knobs.steal.toNat ∧ st.2.unanswered = 0 ∧
        st.2.completes = if st.2.drops < cfg.budget then [st.2.drops] else []) := by
  have present : p < cfg.peers := by
    by_contra absent
    simp [step, absent] at call
  have called : Reachable cfg knobs AnyStep s := .next reach trivial call
  have now := (Running.call idle call).run called present run
  have reach' := reachable_of_tallied called run
  refine ⟨?_, fun busy => ?_, fun returned => ?_⟩
  · exact (Nat.le_add_right _ _).trans now.own
  · exact own_enabled reach'.life reach'.owned reach'.held reach'.queues present busy
  · have stage := now.tally.stage
    rw [returned, now.steal] at stage
    obtain ⟨drops, most, completes, answered, pulls⟩ := stage
    rw [← drops] at most completes
    exact ⟨drops.symm, most, pulls, answered, completes⟩

/-- With `wg_steal = 1` the poll is called for a deliverable head with a packet on the ring
behind it: it drops the first, decrypts the second itself, jumps back and drops that too. -/
theorem poll_contract_two : ∃ s₀ s st,
    (Reachable (smallConfig 1 (by decide)) ⟨0, 0, 0, 1, 0⟩ AnyStep s₀ ∧
      (s₀.poll 0).pc = .idle ∧ step (smallConfig 1 (by decide)) s₀ (.poll 0 none) = some s ∧
      Machine.Reach (tallied (smallConfig 1 (by decide)) 0) (InPoll 0) (s, .zero) st ∧
      (st.1.poll 0).pc = .idle ∧ st.2.drops = 2 ∧ st.2.pulls = 1) ∧
    st.2.own ≤ 65 * (84 + 22 * s.knobs.steal.toNat) ∧ (st.1.poll 0).workDone = 2 ∧
      st.2.unanswered = 0 ∧ st.2.completes = [2] := by
  have run : ∃ s₀, Reachable (smallConfig 1 (by decide)) ⟨0, 0, 0, 1, 0⟩ AnyStep s₀ ∧
      (s₀.poll 0).pc = .idle ∧
      (step (smallConfig 1 (by decide)) s₀ (.poll 0 none)).any (fun s =>
        (Machine.exec (Machine.guarded (tallied (smallConfig 1 (by decide)) 0) (InPoll 0))
          (s, .zero) (polls 0 24 ++ completes 1 7 ++ polls 0 25)).any fun st =>
            (st.1.poll 0).pc = .idle ∧ st.2.drops = 2 ∧ st.2.pulls = 1) = true :=
    Machine.exists_reach_of_exec (arrive 0 0 ++ arrive 1 0 ++ works 0 2 ++ completes 0 7)
      (by decide +kernel)
  obtain ⟨s₀, reach, idle, later⟩ := run
  cases call : step (smallConfig 1 (by decide)) s₀ (.poll 0 none) with
  | none => simp [call] at later
  | some s =>
      rw [call] at later
      obtain ⟨st, run, returned, drops, pulls⟩ := Machine.exists_reach_of_exec
        (polls 0 24 ++ completes 1 7 ++ polls 0 25) later
      obtain ⟨bound, -, contract⟩ :=
        poll_contract _ _ s₀ s reach 0 none idle call st run
      obtain ⟨workDone, -, -, answered, completes⟩ := contract returned
      rw [drops] at workDone completes
      exact ⟨s₀, s, st, ⟨reach, idle, call, run, returned, drops, pulls⟩, bound, workDone,
        answered, completes⟩

end WgReceivePath
