import Mathlib.Data.Fintype.Option
import Mathlib.Data.Fintype.Sum
import Mathlib.Logic.Function.Basic
import WgReceivePath.Lib.Machine
import WgReceivePath.ReplayCounter

/-!
# Sessions of a peer: keypairs, nonces and staged packets

The part of WireGuard that a peer's keypairs pass through: `noise.c` installs a keypair in
one of three slots and in the index table, `send.c` takes a reference on the current one,
gives the staged packets their nonces and hands them to the encryption queue, and the
receive path finds a keypair by its index and confirms it.  Any number of calls of the send
path (`n`) and of packets on the receive path (`m`) are under way at the same time, next to
one handshake worker (`handshake->lock` is held by at most one), the transmit worker and the
timers.

## Main definitions

* `State`, the sessions of one peer: the keypairs in memory with their counts, the index
  table, the three slots, and where everybody stands.
* `sendStep`, `receiveStep`, `xmitStep`, `transmitStep`, `keypairCreate`,
  `State.addNewKeypair`, `State.slide`, `State.keypairsClear`: the source's functions, cut
  at their accesses to shared memory.
* `step` and `Reachable`, the machine.

## How the code is embedded

A step of the machine is one atomic access of the source, or one section under a spinlock.
The current slot and the index table are also read without the lock, so the section of
`add_new_keypair` for an initiator is cut in two: the puts, and the store to the current
slot that follows them.

References are counted as the source counts them.  A use of memory that has been freed, or a
put on a count of zero, sets `fault`.  A keypair whose count drops to zero goes to
`call_rcu`, which waits for the readers that are in an RCU section at that moment, and for
no others.
-/

namespace WgReceivePath
namespace Session

/-- A keypair, by its `internal_id`. -/
abbrev Key := ℕ

/-- A packet. -/
abbrev Packet := ℕ

/-- The fields of `struct noise_keypair` that the session depends on.  The keys themselves
are those of the handshake, and the receiving counter is that of the replay window. -/
structure Keypair where
  sendingCounter : BitVec 64
  isValid : Bool
  refcount : ℕ
  deriving DecidableEq, Repr

/-- `MAX_STAGED_PACKETS`. -/
def MAX_STAGED_PACKETS : ℕ := 128

/-- Where a call of `wg_packet_send_staged_packets`, or of `keep_key_fresh`, stands. -/
inductive SendPc
  | idle
  /-- It has taken over the staged packets. -/
  | stolen (packets : List Packet)
  /-- It has read the pointer to the current keypair, in its RCU section. -/
  | deref (packets : List Packet) (k : Key)
  /-- It has a reference on the keypair. -/
  | keyed (packets : List Packet) (k : Key)
  /-- It has seen that the keypair is valid. -/
  | checked (packets : List Packet) (k : Key)
  /-- It walks the packets and assigns nonces. -/
  | assigning (done : List (Packet × BitVec 64)) (rest : List Packet) (k : Key)
  /-- At the label `out_invalid`. -/
  | outInvalid (packets : List Packet) (k : Key)
  /-- At the label `out_nokey`; `none` once the reference is put, or if there is none. -/
  | outNokey (packets : List Packet) (k : Option Key)
  /-- `keep_key_fresh` has read the pointer to the current keypair, in its RCU section. -/
  | fresh (k : Key)
  deriving DecidableEq, Repr

/-- Where a data packet stands on the receive path. -/
inductive ReceivePc
  | idle
  /-- `wg_index_hashtable_lookup` has returned the entry, in its RCU section. -/
  | found (k : Key)
  /-- The packet has a reference on its keypair. -/
  | holding (k : Key)
  /-- `wg_noise_received_with_keypair` has seen the keypair in the next slot. -/
  | confirming (k : Key)
  /-- Only the reference is left to be put. -/
  | releasing (k : Key)
  deriving DecidableEq, Repr

/-- Where `wg_noise_handshake_begin_session` stands. -/
inductive WorkerPc
  | idle
  /-- In `add_new_keypair`, before the store to the current slot. -/
  | installing (k : Key)
  /-- Before `wg_index_hashtable_replace`. -/
  | installed (k : Key)
  deriving DecidableEq, Repr

/-- Who may be in an RCU section: the handshake worker, a call of the send path, a packet on the
receive path. -/
abbrev Reader (n m : ℕ) := Option (Fin n ⊕ Fin m)

/-- The sessions of one peer.  `waiting k` are the readers that `call_rcu` still waits for before
it frees the keypair.  The last six fields are logs: the nonces given to packets that went to
the encryption queue, and the packets that were sent, each with its keypair; the packets that
were freed unsent; those that came in; the keypairs under which a packet has been received; the
keypairs that this side created as the initiator. -/
structure State (n m : ℕ) where
  memory : Key → Option Keypair
  table : Key → Bool
  waiting : Key → Reader n m → Bool
  fault : Bool
  keys : ℕ
  current : Option Key
  previous : Option Key
  next : Option Key
  worker : WorkerPc
  senders : Fin n → SendPc
  receivers : Fin m → ReceivePc
  staged : List Packet
  batches : List (List (Packet × BitVec 64) × Key)
  used : List (Key × BitVec 64)
  wire : List (Key × BitVec 64 × Packet)
  dropped : List Packet
  arrived : List Packet
  received : List Key
  initiated : List Key

/-- No keypair and no packet, and nobody under way. -/
def State.init (n m : ℕ) : State n m where
  memory := fun _ => none
  table := fun _ => false
  waiting := fun _ _ => false
  fault := false
  keys := 0
  current := none
  previous := none
  next := none
  worker := .idle
  senders := fun _ => .idle
  receivers := fun _ => .idle
  staged := []
  batches := []
  used := []
  wire := []
  dropped := []
  arrived := []
  received := []
  initiated := []

/-- The steps of `wg_packet_send_staged_packets` and of `keep_key_fresh`. -/
inductive SendAction
  | steal
  | deref
  | get
  | checkValid
  | checkBirthdate (expired : Bool)
  | assign
  | submit (queued : Bool)
  | markInvalid
  | putKey
  | restage
  | keepFresh
  | readFresh
  deriving DecidableEq, Repr

/-- The steps of a data packet on the receive path that concern its keypair. -/
inductive ReceiveAction
  | lookup (k : Key)
  | get
  | authenticate (authentic : Bool)
  | confirm
  | release
  deriving DecidableEq, Repr

/-- The steps of a session. -/
inductive Action (n m : ℕ)
  | xmit (packets : List Packet)
  | keepalive (packet : Packet)
  | purge
  | send (i : Fin n) (a : SendAction)
  | transmit (crypted : Bool)
  | receive (j : Fin m) (a : ReceiveAction)
  | beginSession (initiator : Bool)
  | publish
  | replace (hashed : Bool)
  | expire
  | clear
  | reclaim (k : Key)
  deriving DecidableEq, Repr

variable {n m : ℕ}

/-- A call that is in its RCU section has the pointer to a keypair, and no reference.  What
it points to may lose its last reference meanwhile. -/
def SendPc.pointer : SendPc → Option Key
  | .deref _ k | .fresh k => some k
  | _ => none

/-- As `SendPc.pointer`, on the receive path. -/
def ReceivePc.pointer : ReceivePc → Option Key
  | .found k => some k
  | _ => none

namespace State

/-! ## Memory and references

A keypair in memory has its count, and an address that was freed is never used again.  So a
pointer to a freed keypair is recognised when it is followed. -/

/-- The readers that are in an RCU section. -/
def reading (s : State n m) : Reader n m → Bool
  | none => s.worker != .idle
  | some (.inl i) => (s.senders i).pointer.isSome
  | some (.inr j) => (s.receivers j).pointer.isSome

/-- A reader leaves its RCU section: no `call_rcu` waits for it any longer. -/
def leave (s : State n m) (r : Reader n m) : State n m :=
  { s with waiting := fun k r' => s.waiting k r' && decide (r' ≠ r) }

/-- An access to a keypair.  One to a keypair that was freed is a fault. -/
def load (s : State n m) (k : Key) (f : Keypair → State n m) : State n m :=
  match s.memory k with
  | none => { s with fault := true }
  | some kp => f kp

/-- A store to a keypair. -/
def store (s : State n m) (k : Key) (kp : Keypair) : State n m :=
  { s with memory := Function.update s.memory k (some kp) }

/-- `wg_index_hashtable_remove`. -/
def unhash (s : State n m) (k : Key) : State n m :=
  { s with table := Function.update s.table k false }

/-- `call_rcu`: it waits for the readers that are in a section now.  A reader that enters
one later is not waited for. -/
def callRcu (s : State n m) (k : Key) : State n m :=
  { s with waiting := Function.update s.waiting k s.reading }

/-- `kref_put`, with `keypair_free_kref` as the release function. -/
def krefPut (s : State n m) (k : Key) : State n m :=
  s.load k fun kp =>
    match kp.refcount with
    | 0 => { s with fault := true }
    | 1 => ((s.store k { kp with refcount := 0 }).unhash k).callRcu k
    | count + 2 => s.store k { kp with refcount := count + 1 }

/-- `wg_noise_keypair_put`.  With `unreference_now` the entry leaves the index table before
the reference is put, so that it is not found by its index again. -/
def keypairPut (s : State n m) (k : Option Key) (unreferenceNow : Bool) : State n m :=
  match k with
  | none => s
  | some k => if unreferenceNow then (s.unhash k).krefPut k else s.krefPut k

/-- A call of the send path moves on. -/
def sender (s : State n m) (i : Fin n) (pc : SendPc) : State n m :=
  { s with senders := Function.update s.senders i pc }

/-- A packet moves on along the receive path. -/
def receiver (s : State n m) (j : Fin m) (pc : ReceivePc) : State n m :=
  { s with receivers := Function.update s.receivers j pc }

/-! ## The slots

The functions of `noise.c` that change the three slots, each a section under
`keypairs->keypair_update_lock`.  Their puts may free a keypair at once, as far as the
readers allow it. -/

/-- `add_new_keypair`, up to the store to the current slot when this side is the initiator.
A responder's keypair goes to the next slot and waits there to be confirmed. -/
def addNewKeypair (s : State n m) (k : Key) (initiator : Bool) : State n m :=
  if initiator then
    match s.next with
    | some _ =>
        ({ s with next := none, previous := s.next }.keypairPut s.current true).keypairPut
          s.previous true
    | none => { s with previous := s.current }.keypairPut s.previous true
  else
    { { s with next := some k }.keypairPut s.next true with previous := none }.keypairPut
      s.previous true

/-- The locked part of `wg_noise_received_with_keypair`, for the keypair in the next slot. -/
def slide (s : State n m) (k : Key) : State n m :=
  { { s with previous := s.current }.keypairPut s.previous true with
    current := some k
    next := none }

/-- `wg_noise_keypairs_clear`: the three slots one after the other, in the source's order.
-/
def keypairsClear (s : State n m) : State n m :=
  let s₁ := { s with next := none }.keypairPut s.next true
  let s₂ := { s₁ with previous := none }.keypairPut s.previous true
  { s₂ with current := none }.keypairPut s.current true

/-- `sending.is_valid = false`. -/
def invalidate (s : State n m) (k : Key) : State n m :=
  s.load k fun kp => s.store k { kp with isValid := false }

/-- `wg_noise_expire_current_peer_keypairs`: the keypairs stay in their slots, but are no
longer sent under. -/
def expireCurrentPeerKeypairs (s : State n m) : State n m :=
  let s₁ := match s.next with
    | none => s
    | some k => s.invalidate k
  match s.current with
  | none => s₁
  | some k => s₁.invalidate k

end State

/-! ## The steps -/

/-- The steps of `wg_packet_send_staged_packets` and of `keep_key_fresh`; the latter only reads
the keypair, to decide whether to ask for a handshake. -/
def sendStep (s : State n m) (i : Fin n) : SendAction → Option (State n m)
  | .steal =>
      match s.senders i with
      | .idle =>
          if s.staged = [] then some s
          else some ({ s with staged := [] }.sender i (.stolen s.staged))
      | _ => none
  | .deref =>
      match s.senders i with
      | .stolen packets =>
          match s.current with
          | none => some (s.sender i (.outNokey packets none))
          | some k => some (s.sender i (.deref packets k))
      | _ => none
  | .get =>
      match s.senders i with
      | .deref packets k =>
          some (s.load k fun kp =>
            -- `kref_get_unless_zero`
            if kp.refcount = 0 then (s.sender i (.outNokey packets none)).leave (some (.inl i))
            else
              ((s.store k { kp with refcount := kp.refcount + 1 }).sender i
                (.keyed packets k)).leave (some (.inl i)))
      | _ => none
  | .checkValid =>
      match s.senders i with
      | .keyed packets k =>
          some (s.load k fun kp =>
            if kp.isValid then s.sender i (.checked packets k)
            else s.sender i (.outNokey packets (some k)))
      | _ => none
  | .checkBirthdate expired =>
      match s.senders i with
      | .checked packets k =>
          if expired then some (s.sender i (.outInvalid packets k))
          else some (s.sender i (.assigning [] packets k))
      | _ => none
  | .assign =>
      match s.senders i with
      | .assigning done (packet :: rest) k =>
          some (s.load k fun kp =>
            let nonce := kp.sendingCounter
            let s' := s.store k { kp with sendingCounter := nonce + 1 }
            if REJECT_AFTER_MESSAGES ≤ nonce then
              s'.sender i (.outInvalid (done.map Prod.fst ++ packet :: rest) k)
            else s'.sender i (.assigning (done ++ [(packet, nonce)]) rest k))
      | _ => none
  | .submit queued =>
      match s.senders i with
      | .assigning done [] k =>
          if queued then
            some ({ s with
              batches := s.batches ++ [(done, k)]
              used := s.used ++ done.map fun e : Packet × BitVec 64 => (k, e.2) }.sender i .idle)
          else
            some (({ s with dropped := s.dropped ++ done.map Prod.fst }.keypairPut (some k)
              false).sender i .idle)
      | _ => none
  | .markInvalid =>
      match s.senders i with
      | .outInvalid packets k => some ((s.invalidate k).sender i (.outNokey packets (some k)))
      | _ => none
  | .putKey =>
      match s.senders i with
      | .outNokey packets (some k) =>
          some ((s.keypairPut (some k) false).sender i (.outNokey packets none))
      | _ => none
  | .restage =>
      match s.senders i with
      | .outNokey packets none =>
          some ({ s with staged := packets ++ s.staged }.sender i .idle)
      | _ => none
  | .keepFresh =>
      match s.senders i, s.current with
      | .idle, some k => some (s.sender i (.fresh k))
      | _, _ => none
  | .readFresh =>
      match s.senders i with
      | .fresh k => some (s.load k fun _ => (s.sender i .idle).leave (some (.inl i)))
      | _ => none

/-- The steps of a data packet on the receive path.  A packet that is not queued, not decrypted
or not new to the replay window is not `authentic`. -/
def receiveStep (s : State n m) (j : Fin m) : ReceiveAction → Option (State n m)
  | .lookup k =>
      match s.receivers j with
      | .idle => if s.table k then some (s.receiver j (.found k)) else none
      | _ => none
  | .get =>
      match s.receivers j with
      | .found k =>
          some (s.load k fun kp =>
            if kp.refcount = 0 then (s.receiver j .idle).leave (some (.inr j))
            else
              ((s.store k { kp with refcount := kp.refcount + 1 }).receiver j
                (.holding k)).leave (some (.inr j)))
      | _ => none
  | .authenticate authentic =>
      match s.receivers j with
      | .holding k =>
          if authentic then
            some ({ s with received := k :: s.received }.receiver j
              (if s.next = some k then .confirming k else .releasing k))
          else some (s.receiver j (.releasing k))
      | _ => none
  | .confirm =>
      match s.receivers j, s.worker with
      -- The worker has the lock.
      | _, .installing _ => none
      | .confirming k, _ =>
          if s.next = some k then some ((s.slide k).receiver j (.releasing k))
          else some (s.receiver j (.releasing k))
      | _, _ => none
  | .release =>
      match s.receivers j with
      | .releasing k => some ((s.keypairPut (some k) false).receiver j .idle)
      | _ => none

/-- `wg_xmit` stages packets, after it has dropped the oldest ones beyond the limit. -/
def xmitStep (s : State n m) (packets : List Packet) : State n m :=
  { s with
    arrived := s.arrived ++ packets
    dropped := s.dropped ++ s.staged.take (s.staged.length - MAX_STAGED_PACKETS)
    staged := s.staged.drop (s.staged.length - MAX_STAGED_PACKETS) ++ packets }

/-- `wg_packet_tx_worker` takes the first batch: it is sent, or freed when it is dead.
Either way the reference of the batch is put. -/
def transmitStep (s : State n m) (crypted : Bool) : Option (State n m) :=
  match s.batches with
  | [] => none
  | (batch, k) :: rest =>
      if crypted then
        some ({ s with
          batches := rest
          wire := s.wire ++ batch.map fun e : Packet × BitVec 64 => (k, e.2, e.1) }.keypairPut
            (some k) false)
      else
        some ({ s with
          batches := rest
          dropped := s.dropped ++ batch.map Prod.fst }.keypairPut (some k) false)

/-- `keypair_create` in `wg_noise_handshake_begin_session`.  The one reference of the new
keypair is that of the slot it is going to. -/
def keypairCreate (s : State n m) (initiator : Bool) : State n m :=
  { s with
    memory := Function.update s.memory s.keys
      (some { sendingCounter := 0, isValid := true, refcount := 1 })
    keys := s.keys + 1
    worker := if initiator then .installing s.keys else .installed s.keys
    initiated := if initiator then s.keys :: s.initiated else s.initiated }

/-- A step of the sessions.  The check of `wg_packet_send_keepalive` that no packet is staged is
made without the lock and may be out of date. -/
def step (s : State n m) : Action n m → Option (State n m)
  | .xmit packets => some (xmitStep s packets)
  | .keepalive packet =>
      some { s with arrived := s.arrived ++ [packet], staged := s.staged ++ [packet] }
  | .purge => some { s with dropped := s.dropped ++ s.staged, staged := [] }
  | .send i a => sendStep s i a
  | .transmit crypted => transmitStep s crypted
  | .receive j a => receiveStep s j a
  | .beginSession initiator =>
      match s.worker with
      | .idle => some ((keypairCreate s initiator).addNewKeypair s.keys initiator)
      | _ => none
  | .publish =>
      match s.worker with
      | .installing k => some { s with current := some k, worker := .installed k }
      | _ => none
  | .replace hashed =>
      match s.worker with
      | .installed k =>
          some (s.load k fun _ =>
            { s with
              table := if hashed then Function.update s.table k true else s.table
              worker := .idle }.leave none)
      | _ => none
  | .expire =>
      match s.worker with
      | .installing _ => none
      | _ => some s.expireCurrentPeerKeypairs
  | .clear =>
      match s.worker with
      | .installing _ => none
      | _ => some s.keypairsClear
  | .reclaim k =>
      match s.memory k with
      | none => none
      | some kp =>
          if kp.refcount = 0 ∧ ∀ r, s.waiting k r = false then
            some { s with memory := Function.update s.memory k none }
          else none

/-- The states of all runs. -/
abbrev Reachable : State n m → Prop := Machine.Reach step (fun _ _ => True) (State.init n m)

end Session
end WgReceivePath
