import Mathlib.Tactic.Abel
import WgReceivePath.Lib.Sums
import WgReceivePath.Session.Transitions

/-!
# No packet is lost or sent twice

The packets of a peer are staged, in the hands of a call of the send path, in a batch that
is being encrypted, sent, or dropped.  `packets_conserved` says that these add up, as
multisets, to the packets that came in, whatever the interleaving: a call that finds no
usable keypair puts its packets back, and what two calls do at the same time neither loses
nor doubles a packet.

The invariant is the equation itself (`State.Conserved`).  A step moves packets of one call,
and the sum over the calls changes in one summand (`conserved_sender`); all other steps
leave the equation as it is (`conserved_congr`) or add on both sides.
-/

namespace WgReceivePath
namespace Session

variable {n m : ℕ} {s s' : State n m} {a : Action n m}

/-- The packets in the hands of a call of the send path. -/
def SendPc.packets : SendPc → List Packet
  | .idle | .fresh _ => []
  | .stolen packets | .deref packets _ | .keyed packets _ | .checked packets _ => packets
  | .assigning done rest _ => done.map Prod.fst ++ rest
  | .outInvalid packets _ | .outNokey packets _ => packets

namespace State

/-- The packets that are neither sent nor dropped: staged, in the hands of a call, or in a
batch. -/
def underway (s : State n m) : Multiset Packet :=
  s.staged + ∑ i, ((s.senders i).packets : Multiset Packet) +
    (s.batches.flatMap fun batch => batch.1.map Prod.fst : List Packet)

/-- The packets that were sent. -/
def sent (s : State n m) : Multiset Packet := (s.wire.map fun e => e.2.2 : List Packet)

/-- Every packet that came in is under way, sent or dropped. -/
def Conserved (s : State n m) : Prop :=
  (s.arrived : Multiset Packet) = s.underway + s.sent + s.dropped

end State

theorem conserved_init (n m : ℕ) : (State.init n m).Conserved := by
  simp [State.Conserved, State.underway, State.sent, State.init, SendPc.packets]

/-- A call of the send path moves on, and what it lets go of is staged, batched or dropped.
The other calls are one summand that is the same before and after. -/
theorem conserved_sender {i : Fin n} {pc : SendPc} (inv : s.Conserved)
    (arrived : s'.arrived = s.arrived) (senders : s'.senders = Function.update s.senders i pc)
    (wire : s'.wire = s.wire)
    (balance : (s.staged : Multiset Packet) + (s.senders i).packets +
        (s.batches.flatMap fun batch => batch.1.map Prod.fst : List Packet) + s.dropped =
      s'.staged + pc.packets +
        (s'.batches.flatMap fun batch => batch.1.map Prod.fst : List Packet) + s'.dropped) :
    s'.Conserved := by
  obtain ⟨rest, before, after⟩ := Finset.exists_sum_update
    (fun pc : SendPc => (pc.packets : Multiset Packet)) s.senders i
  unfold State.Conserved State.underway State.sent at inv ⊢
  rw [arrived, inv, senders, after, before, wire]
  calc _ = ((s.staged : Multiset Packet) + (s.senders i).packets +
          (s.batches.flatMap fun batch => batch.1.map Prod.fst : List Packet) + s.dropped) +
          (rest + (s.wire.map fun e => e.2.2 : List Packet)) := by abel
    _ = _ := by rw [balance]; abel

/-- Nothing happens to a packet. -/
theorem conserved_congr (inv : s.Conserved) (arrived : s'.arrived = s.arrived)
    (staged : s'.staged = s.staged) (senders : s'.senders = s.senders)
    (batches : s'.batches = s.batches) (wire : s'.wire = s.wire)
    (dropped : s'.dropped = s.dropped) : s'.Conserved := by
  unfold State.Conserved State.underway State.sent at inv ⊢
  rw [arrived, staged, senders, batches, wire, dropped, inv]

/-- Every step keeps the balance: what leaves one place arrives in another.  A case is a
step that moves packets of one call, of the staged ones or of a batch; references and slots
do not matter. -/
theorem conserved_step (inv : s.Conserved) (move : Transition s a s') : s'.Conserved := by
  cases move with
  | xmit packets =>
      have split : (s.staged : Multiset Packet) =
          (s.staged.take (s.staged.length - MAX_STAGED_PACKETS) : List Packet) +
            (s.staged.drop (s.staged.length - MAX_STAGED_PACKETS) : List Packet) := by
        rw [Multiset.coe_add, List.take_append_drop]
      unfold State.Conserved State.underway State.sent at inv ⊢
      simp only [xmitStep, ← Multiset.coe_add]
      rw [inv, split]
      abel
  | keepalive packet =>
      unfold State.Conserved State.underway State.sent at inv ⊢
      simp only [← Multiset.coe_add]
      rw [inv]
      abel
  | purge =>
      unfold State.Conserved State.underway State.sent at inv ⊢
      simp only [← Multiset.coe_add, Multiset.coe_nil]
      rw [inv]
      abel
  | transmit first | dead first =>
      unfold State.Conserved State.underway State.sent at inv ⊢
      simp only [State.keypairPut_frame, first, List.flatMap_cons, List.map_append, List.map_map,
        Function.comp_def, ← Multiset.coe_add] at inv ⊢
      rw [inv]
      abel
  | fault | stealNone | lookup | getFoundFailed | getFound | authentic | notAuthentic | overtaken
  | publish | replace | reclaim => exact conserved_congr inv rfl rfl rfl rfl rfl rfl
  | @steal i pc | @derefNone i _ pc | @deref i _ _ pc | @getFailed i _ _ pc | @get i _ _ _ pc
  | @valid i _ _ _ pc | @notValid i _ _ pc | @expired i _ _ pc | @notExpired i _ _ pc
  | @reject i _ _ _ _ _ pc | @assign i _ _ _ _ _ pc | @restage i _ pc | @keepFresh i _ pc
  | @readFresh i _ pc =>
      refine conserved_sender inv rfl rfl rfl ?_
      simp [pc, SendPc.packets, State.sender, State.leave, State.store, add_comm]
  | @submit i _ _ pc =>
      refine conserved_sender inv rfl rfl rfl ?_
      simp only [pc, SendPc.packets, State.sender, List.append_nil, List.flatMap_append,
        List.flatMap_singleton, ← Multiset.coe_add, Multiset.coe_nil]
      abel
  | @refuse i _ _ pc =>
      refine conserved_sender inv (by simp [State.sender]) (by simp [State.sender]; rfl)
        (by simp [State.sender]) ?_
      simp only [pc, SendPc.packets, State.sender, State.keypairPut_frame, List.append_nil,
        ← Multiset.coe_add, Multiset.coe_nil]
      abel
  | @markInvalid i _ _ pc | @putKey i _ _ pc =>
      refine conserved_sender inv (by simp [State.sender]) (by simp [State.sender]; rfl)
        (by simp [State.sender]) ?_
      simp [pc, SendPc.packets, State.sender]
  | confirm | release | beginSession | expire | clear =>
      apply conserved_congr inv <;> simp [State.receiver, keypairCreate]

/-- **Packets are conserved.**  In every state of every run, the packets that came in are
those under way, those sent and those dropped.  As multisets: a packet that came in once is
in one of these places, and there once. -/
theorem packets_conserved (reach : Reachable s) :
    (s.arrived : Multiset Packet) = s.underway + s.sent + s.dropped :=
  reach.invariant (I := State.Conserved) (conserved_init n m) fun _ _ _ _ inv _ taken =>
    conserved_step inv (step_transition taken)

/-- A run in which a packet finds no keypair, is put back, and is sent under the keypair of a
session that began in between. -/
theorem packets_conserved_run : ∃ s : State 1 0, Reachable s ∧ s.wire = [(0, 0, 7)] ∧
    (s.arrived : Multiset Packet) = s.underway + s.sent + s.dropped := by
  obtain ⟨s, reach, sent⟩ : ∃ s : State 1 0, Reachable s ∧ s.wire = [(0, 0, 7)] :=
    Machine.exists_reach_of_exec
      [.xmit [7], .send 0 .steal, .send 0 .deref, .send 0 .restage, .beginSession true, .publish,
        .send 0 .steal, .send 0 .deref, .send 0 .get, .send 0 .checkValid,
        .send 0 (.checkBirthdate false), .send 0 .assign, .send 0 (.submit true),
        .transmit true] (by decide)
  exact ⟨s, reach, sent, packets_conserved reach⟩

end Session
end WgReceivePath
