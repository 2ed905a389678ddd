import WgReceivePath.Session.Transitions

/-!
# A responder waits for the confirmation

The side that responds to a handshake does not know whether the other side has the keys
until it receives a packet under them.  `sent_confirmed` says that it sends nothing before:
every packet on the wire is under a keypair that this side initiated, or under which it has
received a packet.

A packet is sent under a keypair that was current when the call read the slot.  The current
slot is written by `add_new_keypair`, for a keypair of this side's own handshake, and by
`wg_noise_received_with_keypair`, for one that a packet has just been received under; the
invariant `Confirmed` follows such a keypair from the slot to the wire.  Trust is never
taken back (`State.Trusts` only grows), so that no order of events is needed here.
-/

namespace WgReceivePath
namespace Session

variable {n m : ℕ} {s s' : State n m} {a : Action n m} {k : Key}

/-- This side may send under the keypair: it created it as the initiator, or has received a
packet under it. -/
def State.Trusts (s : State n m) (k : Key) : Prop := k ∈ s.initiated ∨ k ∈ s.received

/-- The keypair that a call of the send path has got hold of. -/
def SendPc.uses (pc : SendPc) (k : Key) : Prop := pc.pointer = some k ∨ pc.key = some k

/-- Only trusted keypairs get to the current slot, and from there to the wire.  The fields
follow the way of a keypair through the send path. -/
structure Confirmed (s : State n m) : Prop where
  current : ∀ k, s.current = some k → s.Trusts k
  installing : ∀ k, s.worker = .installing k → k ∈ s.initiated
  confirming : ∀ j k, s.receivers j = .confirming k → k ∈ s.received
  senders : ∀ i k, (s.senders i).uses k → s.Trusts k
  batches : ∀ batch ∈ s.batches, s.Trusts batch.2
  wire : ∀ e ∈ s.wire, s.Trusts e.1

theorem confirmed_init (n m : ℕ) : Confirmed (State.init n m) := by
  constructor <;> simp [State.init, SendPc.uses, SendPc.pointer, SendPc.key]

namespace Confirmed

/-- A step that moves no call, packet or batch.  The current slot may become empty. -/
theorem congr (confirmed : Confirmed s) (current : s'.current = s.current ∨ s'.current = none)
    (worker : ∀ k, s'.worker = .installing k → s.worker = .installing k)
    (receivers : s'.receivers = s.receivers) (senders : s'.senders = s.senders)
    (batches : s'.batches = s.batches) (wire : s'.wire = s.wire)
    (received : s'.received = s.received) (initiated : s'.initiated = s.initiated) :
    Confirmed s' := by
  have trusts (k : Key) : s'.Trusts k ↔ s.Trusts k := by
    rw [State.Trusts, received, initiated]
    rfl
  constructor
  · intro k at'
    obtain same | none := current
    · exact (trusts k).mpr (confirmed.current k (same ▸ at'))
    · cases none.symm.trans at'
  · intro k at'
    rw [initiated]
    exact confirmed.installing k (worker k at')
  · rw [receivers, received]
    exact confirmed.confirming
  · intro i k
    rw [senders, trusts]
    exact confirmed.senders i k
  · intro batch
    rw [batches, trusts]
    exact confirmed.batches batch
  · intro e
    rw [wire, trusts]
    exact confirmed.wire e

/-- A call moves on with a trusted keypair, or with none. -/
theorem sender (confirmed : Confirmed s) {i : Fin n} {pc : SendPc}
    (uses : ∀ k, pc.uses k → s.Trusts k) : Confirmed (s.sender i pc) where
  current := confirmed.current
  installing := confirmed.installing
  confirming := confirmed.confirming
  senders i' k used := by
    rcases eq_or_ne i' i with rfl | ne
    · exact uses k (by simpa [State.sender] using used)
    · exact confirmed.senders i' k (by simpa [State.sender, ne] using used)
  batches := confirmed.batches
  wire := confirmed.wire

/-- A packet moves on. -/
theorem receiver (confirmed : Confirmed s) {j : Fin m} {pc : ReceivePc}
    (confirming : ∀ k, pc = .confirming k → k ∈ s.received) : Confirmed (s.receiver j pc) where
  current := confirmed.current
  installing := confirmed.installing
  confirming j' k := by
    rcases eq_or_ne j' j with rfl | ne
    · simpa [State.receiver] using confirming k
    · simpa [State.receiver, ne] using confirmed.confirming j' k
  senders := confirmed.senders
  batches := confirmed.batches
  wire := confirmed.wire

theorem put (confirmed : Confirmed s) (o : Option Key) (now : Bool) :
    Confirmed (s.keypairPut o now) := by
  apply confirmed.congr <;> simp

/-- The first batch is sent or dropped. -/
theorem transmit (confirmed : Confirmed s) {batch : List (Packet × BitVec 64)}
    {rest : List (List (Packet × BitVec 64) × Key)} (first : s.batches = (batch, k) :: rest)
    {wire : List (Key × BitVec 64 × Packet)} {dropped : List Packet}
    (sent : ∀ e ∈ wire, e ∈ s.wire ∨ e.1 = k) :
    Confirmed { s with batches := rest, wire := wire, dropped := dropped } where
  current := confirmed.current
  installing := confirmed.installing
  confirming := confirmed.confirming
  senders := confirmed.senders
  batches batch mem := confirmed.batches batch (by simp [first, mem])
  wire e mem := by
    obtain old | rfl := sent e mem
    · exact confirmed.wire e old
    · exact confirmed.batches (batch, e.1) (by simp [first])

/-- A packet has been received under the keypair. -/
theorem receive (confirmed : Confirmed s) (k : Key) :
    Confirmed { s with received := k :: s.received } where
  current k' at' := (confirmed.current k' at').imp_right (List.mem_cons_of_mem k)
  installing := confirmed.installing
  confirming j k' at' := List.mem_cons_of_mem k (confirmed.confirming j k' at')
  senders i k' used := (confirmed.senders i k' used).imp_right (List.mem_cons_of_mem k)
  batches batch mem := (confirmed.batches batch mem).imp_right (List.mem_cons_of_mem k)
  wire e mem := (confirmed.wire e mem).imp_right (List.mem_cons_of_mem k)

/-- A confirmed keypair becomes the current one. -/
theorem slide (confirmed : Confirmed s) (mem : k ∈ s.received) : Confirmed (s.slide k) := by
  have moved : Confirmed { s with previous := s.current } :=
    confirmed.congr (.inl rfl) (fun _ => id) rfl rfl rfl rfl rfl rfl
  have put := moved.put s.previous true
  refine ⟨?_, put.installing, put.confirming, put.senders, put.batches, put.wire⟩
  rintro k' ⟨⟩
  exact .inr (by simpa [State.slide] using mem)

/-- A new keypair does not get to the current slot at once. -/
theorem beginSession (confirmed : Confirmed s) (initiator : Bool) :
    Confirmed ((keypairCreate s initiator).addNewKeypair s.keys initiator) := by
  have weaken {k : Key} : s.Trusts k → (keypairCreate s initiator).Trusts k := by
    cases initiator
    · exact id
    · exact Or.imp_left (List.mem_cons_of_mem _)
  have created : Confirmed (keypairCreate s initiator) :=
    { current := fun k at' => weaken (confirmed.current k at')
      installing := fun k at' => by
        cases initiator with
        | false => cases at'
        | true =>
            cases at'
            exact List.mem_cons_self ..
      confirming := confirmed.confirming
      senders := fun i k used => weaken (confirmed.senders i k used)
      batches := fun batch mem => weaken (confirmed.batches batch mem)
      wire := fun e mem => weaken (confirmed.wire e mem) }
  apply created.congr <;> simp

end Confirmed

/-- Every step keeps it.  A keypair enters the current slot by `publish`, as the initiator's
own, and by `confirm`, after a packet was received under it. -/
theorem confirmed_step (confirmed : Confirmed s) (move : Transition s a s') : Confirmed s' := by
  have trusted {i : Fin n} {pc : SendPc} (pc_eq : s.senders i = pc) (k : Key) (used : pc.uses k) :
      s.Trusts k := confirmed.senders i k (pc_eq ▸ used)
  cases move with
  | fault | keepalive | purge | stealNone | reclaim =>
      exact confirmed.congr (.inl rfl) (fun _ => id) rfl rfl rfl rfl rfl rfl
  | xmit packets => apply confirmed.congr <;> simp [xmitStep]
  | @steal i pc =>
      have stolen : Confirmed { s with staged := [] } :=
        confirmed.congr (.inl rfl) (fun _ => id) rfl rfl rfl rfl rfl rfl
      exact stolen.sender (by simp [SendPc.uses, SendPc.pointer, SendPc.key])
  | @restage i packets pc =>
      have staged : Confirmed { s with staged := packets ++ s.staged } :=
        confirmed.congr (.inl rfl) (fun _ => id) rfl rfl rfl rfl rfl rfl
      exact staged.sender (by simp [SendPc.uses, SendPc.pointer, SendPc.key])
  | @derefNone i _ pc => exact confirmed.sender (by simp [SendPc.uses, SendPc.pointer, SendPc.key])
  | @deref i packets k pc current | @keepFresh i k pc current =>
      refine confirmed.sender fun k' used => confirmed.current k' ?_
      simpa [SendPc.uses, SendPc.pointer, SendPc.key, current] using used
  | @getFailed i _ _ pc | @readFresh i _ pc =>
      exact (confirmed.sender (by simp [SendPc.uses, SendPc.pointer, SendPc.key])).congr (.inl rfl)
        (fun _ => id) rfl rfl rfl rfl rfl rfl
  | @get i packets k kp pc =>
      refine (confirmed.sender fun k' used => trusted pc k' ?_).congr (.inl rfl)
        (fun _ => id) rfl rfl rfl rfl rfl rfl
      simpa [SendPc.uses, SendPc.pointer, SendPc.key] using used
  | @valid i _ _ _ pc | @notValid i _ _ pc | @expired i _ _ pc | @notExpired i _ _ pc =>
      refine confirmed.sender fun k' used => trusted pc k' ?_
      simpa [SendPc.uses, SendPc.pointer, SendPc.key] using used
  | @reject i _ _ _ k _ pc | @assign i _ _ _ k _ pc =>
      refine (confirmed.sender fun k' used => trusted pc k' ?_).congr (.inl rfl)
        (fun _ => id) rfl rfl rfl rfl rfl rfl
      simpa [SendPc.uses, SendPc.pointer, SendPc.key] using used
  | @submit i done k pc =>
      have batched : Confirmed { s with
          batches := s.batches ++ [(done, k)]
          used := s.used ++ done.map fun e : Packet × BitVec 64 => (k, e.2) } :=
        { confirmed with
          batches := fun batch mem => by
            obtain old | rfl : batch ∈ s.batches ∨ batch = (done, k) := by simpa using mem
            · exact confirmed.batches batch old
            · exact trusted pc k (.inr rfl) }
      exact batched.sender (by simp [SendPc.uses, SendPc.pointer, SendPc.key])
  | @refuse i done k pc =>
      have logged : Confirmed { s with dropped := s.dropped ++ done.map Prod.fst } :=
        confirmed.congr (.inl rfl) (fun _ => id) rfl rfl rfl rfl rfl rfl
      exact (logged.put (some k) false).sender
        (by simp [SendPc.uses, SendPc.pointer, SendPc.key])
  | @markInvalid i packets k pc =>
      have invalid : Confirmed (s.invalidate k) := by apply confirmed.congr <;> simp
      refine invalid.sender fun k' used => ?_
      have := trusted pc k' (by simpa [SendPc.uses, SendPc.pointer, SendPc.key] using used)
      simpa [State.Trusts] using this
  | @putKey i packets k pc =>
      exact (confirmed.put (some k) false).sender
        (by simp [SendPc.uses, SendPc.pointer, SendPc.key])
  | @transmit batch k rest first =>
      refine (confirmed.transmit first fun e mem => ?_).put (some k) false
      obtain old | ⟨a, b, -, rfl⟩ := by simpa using mem
      · exact .inl old
      · exact .inr rfl
  | @dead batch k rest first =>
      exact (confirmed.transmit first fun e mem => .inl mem).put (some k) false
  | lookup => exact confirmed.receiver (by simp)
  | getFoundFailed | getFound =>
      exact (confirmed.receiver (by simp)).congr (.inl rfl) (fun _ => id) rfl rfl rfl rfl rfl rfl
  | @authentic j k pc' pc on =>
      refine (confirmed.receive k).receiver fun k' at' => ?_
      obtain rfl | rfl := on
      · cases at'
        exact List.mem_cons_self ..
      · cases at'
  | notAuthentic | overtaken => exact confirmed.receiver (by simp)
  | @confirm j k pc => exact (confirmed.slide (confirmed.confirming j k pc)).receiver (by simp)
  | release => exact (confirmed.put _ _).receiver (by simp)
  | beginSession => exact confirmed.beginSession _
  | @publish k pc =>
      exact
        { confirmed with
          current := by
            rintro k' ⟨⟩
            exact .inl (confirmed.installing k pc)
          installing := fun k' at' => by cases at' }
  | replace => exact confirmed.congr (.inl rfl) (by simp [State.leave]) rfl rfl rfl rfl rfl rfl
  | expire => apply confirmed.congr <;> simp
  | clear => apply confirmed.congr <;> simp [State.keypairsClear]

/-- **Key confirmation.**  In every run, whatever was sent was sent under a keypair that this
side initiated, or under which it had received a packet. -/
theorem sent_confirmed (reach : Reachable s) (e : Key × BitVec 64 × Packet) (sent : e ∈ s.wire) :
    e.1 ∈ s.initiated ∨ e.1 ∈ s.received := by
  have confirmed : Confirmed s := reach.invariant (confirmed_init n m)
    fun _ _ _ _ confirmed _ taken => confirmed_step confirmed (step_transition taken)
  exact confirmed.wire e sent

/-- A responder's session, up to the first packet it sends. -/
theorem sent_confirmed_run : ∃ s : State 1 1, Reachable s ∧
    (s.initiated = [] ∧ (0, 0, 7) ∈ s.wire) ∧ (0 ∈ s.initiated ∨ 0 ∈ s.received) := by
  obtain ⟨s, reach, sent⟩ : ∃ s : State 1 1, Reachable s ∧
      s.initiated = [] ∧ (0, 0, 7) ∈ s.wire :=
    Machine.exists_reach_of_exec
      [.beginSession false, .replace true, .receive 0 (.lookup 0), .receive 0 .get,
        .receive 0 (.authenticate true), .receive 0 .confirm, .xmit [7], .send 0 .steal,
        .send 0 .deref, .send 0 .get, .send 0 .checkValid, .send 0 (.checkBirthdate false),
        .send 0 .assign, .send 0 (.submit true), .transmit true] (by decide)
  exact ⟨s, reach, sent, sent_confirmed reach _ sent.2⟩

end Session
end WgReceivePath
