import Mathlib.Algebra.Order.BigOperators.Group.Finset
import Mathlib.Algebra.Order.Group.Multiset
import Mathlib.Data.BitVec
import Mathlib.Tactic.Abel
import WgReceivePath.Lib.Sums
import WgReceivePath.Session.Transitions

/-!
# No nonce is used twice

The nonces of a keypair come from its 64-bit counter, which calls of the send path advance
without a lock.  `nonces_distinct` says that no two packets are encrypted under the same
keypair and nonce in any run, and that no nonce is at `REJECT_AFTER_MESSAGES` or beyond.

## What carries the proof

Distinctness is a matter of the counter not wrapping: as long as it does not, every nonce
drawn is the value of the counter, and above all drawn before (`Counters.below`).

A call that draws a nonce from `REJECT_AFTER_MESSAGES` on gives it up, but the counter has
advanced, and other calls that have passed the check of `is_valid` may do the same before the
keypair is marked.  What keeps the counter from wrapping is that each call can do so once:
afterwards it marks the keypair itself and lets go of it.  `SendPc.mayExceed` says which
calls still can, and the invariant bounds the counter by the limit and the number of the
others (`Counters.bounded`).  Between the limit and `2 ^ 64` there is room for
`COUNTER_WINDOW_SIZE + 1` such calls, which is the condition of the theorem.
-/

namespace WgReceivePath
namespace Session

variable {n m : ℕ} {s s' : State n m} {a : Action n m} {k : Key}

/-! ## Nonces and counters

The invariant is about the counters and the validity of keypairs, `State.sending`.  Most of
what a session does to a keypair concerns its references, and leaves both alone. -/

/-- The nonces that a call has assigned, with their keypair. -/
def SendPc.nonces : SendPc → List (Key × BitVec 64)
  | .assigning done _ k => done.map fun e => (k, e.2)
  | .idle | .stolen _ | .deref _ _ | .keyed _ _ | .checked _ _ | .outInvalid _ _ | .outNokey _ _
  | .fresh _ => []

/-- The call can advance the counter of the keypair beyond the limit before it sees that the
keypair, now valid or not, is no longer to be used.  A call that is past the check can
whether the keypair is valid or not; a call before it can only while the keypair is valid.
-/
def SendPc.mayExceed (valid : Bool) (k : Key) : SendPc → Bool
  | .checked _ k' | .assigning _ _ k' => valid || k' == k
  | .outInvalid _ k' => valid && k' != k
  | .idle | .stolen _ | .deref _ _ | .keyed _ _ | .outNokey _ _ | .fresh _ => valid

theorem SendPc.mayExceed_mono {pc : SendPc} {valid valid' : Bool}
    (le : valid' = true → valid = true) (may : pc.mayExceed valid' k = true) :
    pc.mayExceed valid k = true := by
  cases pc <;> cases valid <;> cases valid' <;> simp_all [SendPc.mayExceed]

namespace State

/-- All nonces that have been assigned. -/
def nonces (s : State n m) : Multiset (Key × BitVec 64) :=
  s.used + ∑ i, ((s.senders i).nonces : Multiset (Key × BitVec 64))

/-- The counter of a keypair, and whether it is valid: what the invariant is about.
References are put and taken without a change to it. -/
def sending (s : State n m) (k : Key) : Option (BitVec 64 × Bool) :=
  (s.memory k).map fun kp => (kp.sendingCounter, kp.isValid)

/-- The number of calls that can advance the counter beyond the limit.  A call that has done
so is no longer counted. -/
def exceeding (s : State n m) (valid : Bool) (k : Key) : ℕ :=
  ∑ i, ((s.senders i).mayExceed valid k).toNat

theorem sending_store (s : State n m) (k : Key) (kp : Keypair) :
    (s.store k kp).sending =
      Function.update s.sending k (some (kp.sendingCounter, kp.isValid)) := by
  funext k'
  rcases eq_or_ne k' k with rfl | ne
  · simp [sending, store]
  · simp [sending, store, ne]

theorem sending_eq {kp : Keypair} (found : s.memory k = some kp) :
    s.sending k = some (kp.sendingCounter, kp.isValid) := by
  simp [sending, found]

/-- A store to the count alone. -/
theorem sending_store_of_eq {kp : Keypair} (found : s.memory k = some kp) (count : ℕ) :
    (s.store k { kp with refcount := count }).sending = s.sending := by
  rw [sending_store, ← sending_eq found, Function.update_eq_self]

@[simp]
theorem sending_krefPut (s : State n m) (k : Key) : (s.krefPut k).sending = s.sending := by
  obtain eq | ⟨kp, found, _, eq⟩ | ⟨kp, count, found, _, eq⟩ := s.krefPut_cases k <;> rw [eq]
  · rfl
  · exact sending_store_of_eq found 0
  · exact sending_store_of_eq found _

@[simp]
theorem sending_keypairPut (s : State n m) (o : Option Key) (now : Bool) :
    (s.keypairPut o now).sending = s.sending := by
  cases o with
  | none => rfl
  | some k =>
      cases now with
      | false => exact s.sending_krefPut k
      | true => exact (s.unhash k).sending_krefPut k

theorem sending_slide (s : State n m) (k : Key) : (s.slide k).sending = s.sending :=
  sending_keypairPut { s with previous := s.current } s.previous true

theorem sending_keypairsClear (s : State n m) : s.keypairsClear.sending = s.sending := by
  refine (sending_keypairPut ..).trans ((sending_keypairPut ..).trans ?_)
  exact sending_keypairPut { s with next := none } s.next true

theorem sending_addNewKeypair (s : State n m) (k : Key) (initiator : Bool) :
    (s.addNewKeypair k initiator).sending = s.sending := by
  unfold addNewKeypair
  cases initiator with
  | false =>
      refine (sending_keypairPut ..).trans ?_
      exact sending_keypairPut { s with next := some k } s.next true
  | true =>
      cases s.next with
      | none => exact sending_keypairPut ..
      | some k' => exact (sending_keypairPut ..).trans (sending_keypairPut ..)

/-- `is_valid = false` leaves the counters alone. -/
theorem sending_invalidate {counter : BitVec 64} {valid' : Bool} {k' : Key}
    (found : (s.invalidate k).sending k' = some (counter, valid')) :
    ∃ valid, s.sending k' = some (counter, valid) ∧
      (valid' = true → valid = true ∧ k' ≠ k) := by
  unfold invalidate load at found
  cases at' : s.memory k with
  | none =>
      rw [at'] at found
      have : s.sending k' = some (counter, valid') := found
      refine ⟨valid', this, fun h => ⟨h, ?_⟩⟩
      rintro rfl
      simp [sending, at'] at this
  | some kp =>
      rw [at'] at found
      simp only [sending_store] at found
      rcases eq_or_ne k' k with rfl | ne
      · rw [Function.update_self] at found
        cases found
        exact ⟨kp.isValid, sending_eq at', by simp⟩
      · rw [Function.update_of_ne ne] at found
        exact ⟨valid', found, fun h => ⟨h, ne⟩⟩

theorem sending_expire (k' : Key) (counter : BitVec 64) (valid' : Bool)
    (found : s.expireCurrentPeerKeypairs.sending k' = some (counter, valid')) :
    ∃ valid, s.sending k' = some (counter, valid) ∧ (valid' = true → valid = true) := by
  unfold expireCurrentPeerKeypairs at found
  cases nextAt : s.next <;> cases currentAt : s.current <;>
    simp only [nextAt, currentAt] at found
  · exact ⟨valid', found, id⟩
  · obtain ⟨valid, found', less⟩ := sending_invalidate found
    exact ⟨valid, found', fun h => (less h).1⟩
  · obtain ⟨valid, found', less⟩ := sending_invalidate found
    exact ⟨valid, found', fun h => (less h).1⟩
  · obtain ⟨valid₁, found₁, less₁⟩ := sending_invalidate found
    obtain ⟨valid, found', less⟩ := sending_invalidate found₁
    exact ⟨valid, found', fun h => (less (less₁ h).1).1⟩

end State

/-! ## The invariant

A call that draws a nonce advances the counter by one.  If the nonce is below the limit it
is new; if not, the call loses its right to do it again, so that the bound is kept. -/

/-- The counters are bounded, and no nonce was assigned twice, at the limit or beyond.  The
nonces are those of the log and those in the hands of the calls. -/
structure Counters (s : State n m) : Prop where
  fresh : ∀ k, s.keys ≤ k → s.sending k = none
  bounded : ∀ k counter valid, s.sending k = some (counter, valid) →
    counter.toNat + s.exceeding valid k ≤ REJECT_AFTER_MESSAGES.toNat + n
  known : ∀ k nonce, (k, nonce) ∈ s.nonces → k < s.keys
  limit : ∀ k nonce, (k, nonce) ∈ s.nonces → nonce.toNat < REJECT_AFTER_MESSAGES.toNat
  below : ∀ k nonce counter valid, (k, nonce) ∈ s.nonces → s.sending k = some (counter, valid) →
    nonce.toNat < counter.toNat
  distinct : s.nonces.Nodup

theorem exceeding_le (s : State n m) (valid : Bool) (k : Key) : s.exceeding valid k ≤ n := by
  calc s.exceeding valid k ≤ ∑ _i : Fin n, 1 := Finset.sum_le_sum fun i _ => Bool.toNat_le _
    _ = n := by simp

theorem counters_init (n m : ℕ) : Counters (State.init n m) := by
  have none : (State.init n m).nonces = 0 := by simp [State.nonces, State.init, SendPc.nonces]
  have empty (k : Key) : (State.init n m).sending k = Option.none := rfl
  constructor <;> simp [none, empty]

namespace Counters

/-- The counters stand still, keypairs become invalid or go, and calls move away from the
counter. -/
theorem weaken (counters : Counters s) (keys : s'.keys = s.keys) (nonces : s'.nonces ≤ s.nonces)
    (sending : ∀ k counter valid', s'.sending k = some (counter, valid') →
      ∃ valid, s.sending k = some (counter, valid) ∧ ∀ i,
        (s'.senders i).mayExceed valid' k = true → (s.senders i).mayExceed valid k = true) :
    Counters s' where
  fresh k le := by
    cases found : s'.sending k with
    | none => rfl
    | some e =>
        obtain ⟨valid, found', -⟩ := sending k e.1 e.2 found
        rw [counters.fresh k (keys ▸ le)] at found'
        cases found'
  bounded k counter valid' found := by
    obtain ⟨valid, found', less⟩ := sending k counter valid' found
    refine le_trans (Nat.add_le_add_left (Finset.sum_le_sum fun i _ => ?_) _)
      (counters.bounded k counter valid found')
    exact Bool.toNat_le_toNat (less i)
  known k nonce mem := keys ▸ counters.known k nonce (Multiset.mem_of_le nonces mem)
  limit k nonce mem := counters.limit k nonce (Multiset.mem_of_le nonces mem)
  below k nonce counter valid' mem found := by
    obtain ⟨valid, found', -⟩ := sending k counter valid' found
    exact counters.below k nonce counter valid (Multiset.mem_of_le nonces mem) found'
  distinct := Multiset.nodup_of_le nonces counters.distinct

/-- The same, when no call moves. -/
theorem congr (counters : Counters s) (keys : s'.keys = s.keys) (used : s'.used = s.used)
    (senders : s'.senders = s.senders)
    (sending : ∀ k counter valid', s'.sending k = some (counter, valid') →
      ∃ valid, s.sending k = some (counter, valid) ∧ (valid' = true → valid = true)) :
    Counters s' := by
  refine counters.weaken keys (by rw [State.nonces, used, senders]; rfl)
    fun k counter valid' found => ?_
  obtain ⟨valid, found', less⟩ := sending k counter valid' found
  exact ⟨valid, found', fun i => by rw [senders]; exact SendPc.mayExceed_mono less⟩

/-- The staged packets and the logs do not matter. -/
theorem logs (counters : Counters s) (staged dropped arrived : List Packet) :
    Counters { s with staged := staged, dropped := dropped, arrived := arrived } :=
  counters.congr rfl rfl rfl fun _ _ valid found => ⟨valid, found, id⟩

/-- The same, when one call moves. -/
theorem sender (counters : Counters s) {i : Fin n} {pc : SendPc} (keys : s'.keys = s.keys)
    (senders : s'.senders = Function.update s.senders i pc)
    (used : (s'.used : Multiset (Key × BitVec 64)) + pc.nonces ≤ s.used + (s.senders i).nonces)
    (sending : ∀ k counter valid', s'.sending k = some (counter, valid') →
      ∃ valid, s.sending k = some (counter, valid) ∧ (valid' = true → valid = true) ∧
        (pc.mayExceed valid' k = true → (s.senders i).mayExceed valid k = true)) :
    Counters s' := by
  obtain ⟨rest, before, after⟩ := Finset.exists_sum_update
    (fun pc : SendPc => (pc.nonces : Multiset (Key × BitVec 64))) s.senders i
  have nonces : s'.nonces ≤ s.nonces := by
    rw [State.nonces, State.nonces, senders, before, after, ← add_assoc, ← add_assoc]
    exact add_le_add_left used rest
  refine counters.weaken keys nonces fun k counter valid' found => ?_
  obtain ⟨valid, found', less, may⟩ := sending k counter valid' found
  refine ⟨valid, found', fun i' => ?_⟩
  rw [senders]
  rcases eq_or_ne i' i with rfl | ne
  · simpa using may
  · simpa [ne] using SendPc.mayExceed_mono less

/-- A call draws the next value of the counter.  What it does with it is left open: the nonces
are below the counter and the counter is in its bound. -/
theorem draw (counters : Counters s) {i : Fin n} {pc : SendPc} {kp : Keypair}
    (found : s.memory k = some kp)
    (next : (kp.sendingCounter + 1).toNat = kp.sendingCounter.toNat + 1)
    (bounded : kp.sendingCounter.toNat + 1 +
      (s.sender i pc).exceeding kp.isValid k ≤ REJECT_AFTER_MESSAGES.toNat + n)
    (others : ∀ k' valid, k' ≠ k →
      pc.mayExceed valid k' = true → (s.senders i).mayExceed valid k' = true)
    (nonces : ∀ e ∈ (s.sender i pc).nonces, e ∈ s.nonces ∨
      e = (k, kp.sendingCounter) ∧ kp.sendingCounter.toNat < REJECT_AFTER_MESSAGES.toNat)
    (distinct : (s.sender i pc).nonces.Nodup) :
    Counters ((s.store k { kp with sendingCounter := kp.sendingCounter + 1 }).sender i pc) := by
  have sending : ((s.store k { kp with sendingCounter := kp.sendingCounter + 1 }).sender i
      pc).sending = Function.update s.sending k (some (kp.sendingCounter + 1, kp.isValid)) :=
    s.sending_store k _
  have there := State.sending_eq found
  have known : k < s.keys := by
    by_contra le
    rw [counters.fresh k (Nat.le_of_not_lt le)] at there
    cases there
  constructor
  · intro k' le
    rw [sending, Function.update_of_ne (known.trans_le le).ne']
    exact counters.fresh k' le
  · intro k' counter valid found'
    rcases eq_or_ne k' k with rfl | ne
    · rw [sending, Function.update_self] at found'
      cases found'
      rw [next]
      exact bounded
    · rw [sending, Function.update_of_ne ne] at found'
      refine le_trans (Nat.add_le_add_left (Finset.sum_le_sum fun i' _ => ?_) _)
        (counters.bounded k' counter valid found')
      refine Bool.toNat_le_toNat fun may => ?_
      rcases eq_or_ne i' i with rfl | other
      · exact others k' valid ne (by simpa [State.sender] using may)
      · simpa [State.sender, State.store, other] using may
  · intro k' nonce mem
    obtain old | ⟨⟨⟩, -⟩ := nonces _ mem
    · exact counters.known k' nonce old
    · exact known
  · intro k' nonce mem
    obtain old | ⟨⟨⟩, limit⟩ := nonces _ mem
    · exact counters.limit k' nonce old
    · exact limit
  · intro k' nonce counter valid mem found'
    rcases eq_or_ne k' k with rfl | ne
    · rw [sending, Function.update_self] at found'
      cases found'
      rw [next]
      obtain old | ⟨⟨⟩, -⟩ := nonces _ mem
      · exact (counters.below k' nonce _ _ old there).trans (Nat.lt_succ_self _)
      · exact Nat.lt_succ_self _
    · rw [sending, Function.update_of_ne ne] at found'
      obtain old | ⟨⟨⟩, -⟩ := nonces _ mem
      · exact counters.below k' nonce counter valid old found'
      · exact absurd rfl ne
  · exact distinct

/-- A call draws a nonce and gives it up: it cannot do so again.  The counter goes up by
one, the number of calls that may exceed goes down by one. -/
theorem reject (counters : Counters s) (few : REJECT_AFTER_MESSAGES.toNat + n < 2 ^ 64) {i : Fin n}
    {done : List (Packet × BitVec 64)} {rest packets : List Packet} {kp : Keypair}
    (pc : s.senders i = .assigning done rest k) (found : s.memory k = some kp) :
    Counters ((s.store k { kp with sendingCounter := kp.sendingCounter + 1 }).sender i
      (.outInvalid packets k)) := by
  have bounded := counters.bounded k _ _ (State.sending_eq found)
  obtain ⟨others, before, after⟩ := Finset.exists_sum_update
    (fun pc : SendPc => (pc.mayExceed kp.isValid k).toNat) s.senders i
  rw [State.exceeding, before, pc] at bounded
  have nonces : (s.sender i (.outInvalid packets k)).nonces ≤ s.nonces := by
    obtain ⟨kept, before, after⟩ := Finset.exists_sum_update
      (fun pc : SendPc => (pc.nonces : Multiset (Key × BitVec 64))) s.senders i
    rw [State.nonces, State.nonces, before]
    refine add_le_add_right ?_ _
    exact (after _).trans_le (add_le_add_left (Multiset.zero_le _) kept)
  simp only [SendPc.mayExceed, beq_self_eq_true, Bool.or_true, Bool.toNat_true] at bounded
  refine counters.draw found ?_ ?_ ?_ (fun e mem => .inl (Multiset.mem_of_le nonces mem))
    (Multiset.nodup_of_le nonces counters.distinct)
  · have room : kp.sendingCounter.toNat + 1 < 2 ^ 64 := by omega
    exact (BitVec.toNat_add ..).trans (Nat.mod_eq_of_lt room)
  · have still : (s.sender i (.outInvalid packets k)).exceeding kp.isValid k = others := by
      refine (after _).trans ?_
      simp [SendPc.mayExceed]
    omega
  · intro k' valid ne
    simp [pc, SendPc.mayExceed, ne.symm]

/-- A call draws a nonce below the limit.  It is the value of the counter, and all others
are below that. -/
theorem assign (counters : Counters s) {i : Fin n} {done : List (Packet × BitVec 64)}
    {packet : Packet} {rest : List Packet} {kp : Keypair}
    (pc : s.senders i = .assigning done (packet :: rest) k) (found : s.memory k = some kp)
    (accept : kp.sendingCounter.toNat < REJECT_AFTER_MESSAGES.toNat) :
    Counters ((s.store k { kp with sendingCounter := kp.sendingCounter + 1 }).sender i
      (.assigning (done ++ [(packet, kp.sendingCounter)]) rest k)) := by
  obtain ⟨kept, before, after⟩ := Finset.exists_sum_update
    (fun pc : SendPc => (pc.nonces : Multiset (Key × BitVec 64))) s.senders i
  have nonces : (s.sender i (.assigning (done ++ [(packet, kp.sendingCounter)]) rest k)).nonces =
      {(k, kp.sendingCounter)} + s.nonces := by
    rw [State.nonces, State.nonces, before, pc]
    refine (congrArg _ (after _)).trans ?_
    simp only [SendPc.nonces, State.sender, List.map_append, List.map_cons, List.map_nil,
      ← Multiset.coe_add, Multiset.coe_singleton]
    abel
  have small : REJECT_AFTER_MESSAGES.toNat < 2 ^ 64 := by decide
  refine counters.draw found ?_ ?_ ?_ ?_ ?_
  · exact (BitVec.toNat_add ..).trans (Nat.mod_eq_of_lt (lt_of_le_of_lt accept small))
  · exact Nat.add_le_add accept (exceeding_le _ _ _)
  · intro k' valid ne
    simp [pc, SendPc.mayExceed]
  · intro e mem
    rw [nonces] at mem
    obtain new | old := Multiset.mem_add.mp mem
    · exact .inr ⟨Multiset.mem_singleton.mp new, accept⟩
    · exact .inl old
  · rw [nonces, Multiset.singleton_add, Multiset.nodup_cons]
    refine ⟨fun old => ?_, counters.distinct⟩
    exact (counters.below k _ _ _ old (State.sending_eq found)).false

/-- A new keypair starts at zero.  Nobody has drawn a nonce under it, for it has not been
there before. -/
theorem keypairCreate (counters : Counters s) (initiator : Bool) :
    Counters (keypairCreate s initiator) := by
  have sending : (Session.keypairCreate s initiator).sending =
      Function.update s.sending s.keys (some (0, true)) := s.sending_store s.keys _
  have ne {k : Key} {nonce : BitVec 64} (mem : (k, nonce) ∈ s.nonces) : k ≠ s.keys :=
    (counters.known k nonce mem).ne
  constructor
  · intro k le
    rw [sending, Function.update_of_ne (Nat.lt_of_succ_le le).ne']
    exact counters.fresh k (Nat.le_of_succ_le le)
  · intro k counter valid found
    rcases eq_or_ne k s.keys with rfl | other
    · rw [sending, Function.update_self] at found
      cases found
      exact (Nat.zero_add _).trans_le ((exceeding_le _ _ _).trans (Nat.le_add_left ..))
    · rw [sending, Function.update_of_ne other] at found
      exact counters.bounded k counter valid found
  · intro k nonce mem
    exact (counters.known k nonce mem).trans (Nat.lt_succ_self _)
  · exact counters.limit
  · intro k nonce counter valid mem found
    rw [sending, Function.update_of_ne (ne mem)] at found
    exact counters.below k nonce counter valid mem found
  · exact counters.distinct

end Counters

/-- Every step keeps the counters.  Only the draw of a nonce and the creation of a keypair
touch one. -/
theorem counters_step (few : REJECT_AFTER_MESSAGES.toNat + n < 2 ^ 64) (counters : Counters s)
    (move : Transition s a s') : Counters s' := by
  have same {s₁ s' : State n m} (eq : s'.sending = s₁.sending) :
      ∀ k counter valid', s'.sending k = some (counter, valid') →
        ∃ valid, s₁.sending k = some (counter, valid) ∧ (valid' = true → valid = true) :=
    fun k counter valid' found => ⟨valid', eq ▸ found, id⟩
  cases move with
  | fault | keepalive | purge | stealNone | lookup | getFoundFailed | authentic
  | notAuthentic | overtaken | publish | replace =>
      exact counters.congr rfl rfl rfl (same rfl)
  | xmit => exact counters.logs _ _ _
  | @steal i pc | @derefNone i _ pc | @deref i _ _ pc | @getFailed i _ _ pc | @notValid i _ _ pc
  | @notExpired i _ _ pc | @restage i _ pc | @keepFresh i _ pc | @readFresh i _ pc =>
      refine counters.sender rfl rfl ?_ fun k counter valid found => ⟨valid, found, id, ?_⟩ <;>
        simp [pc, SendPc.nonces, SendPc.mayExceed, State.sender, State.leave]
  | @expired i _ _ pc | @submit i _ _ pc =>
      refine counters.sender rfl rfl ?_ fun k counter valid found => ⟨valid, found, id, ?_⟩
      · simp [pc, SendPc.nonces, State.sender]
      · cases valid <;> simp [pc, SendPc.mayExceed]
  | @valid i _ k kp pc found valid =>
      refine counters.sender rfl rfl ?_ fun k' counter valid' found' => ⟨valid', found', id, ?_⟩
      · simp [pc, SendPc.nonces, State.sender]
      · have : s.sending k = some (kp.sendingCounter, true) := valid ▸ State.sending_eq found
        rcases eq_or_ne k k' with rfl | ne
        · obtain ⟨-, rfl⟩ := Prod.mk.inj (Option.some.inj (this.symm.trans found'))
          simp [pc, SendPc.mayExceed]
        · simp [pc, SendPc.mayExceed, ne]
  | @get i _ k kp pc found =>
      refine counters.sender rfl rfl ?_ fun k' counter valid' found' => ⟨valid', ?_, id, ?_⟩
      · simp [pc, SendPc.nonces, State.sender, State.leave, State.store]
      · exact congrFun (State.sending_store_of_eq found _) k' ▸ found'
      · simp [pc, SendPc.mayExceed]
  | @getFound j k kp pc found =>
      exact counters.congr rfl rfl rfl (same (State.sending_store_of_eq found _))
  | @reject i _ _ _ k kp pc found => exact counters.reject few pc found
  | @assign i _ _ _ k kp pc found accept => exact counters.assign pc found accept
  | @refuse i done k pc =>
      have logged := counters.logs s.staged (s.dropped ++ done.map Prod.fst) s.arrived
      refine logged.sender (by simp [State.sender]) (by simp [State.sender]; rfl) ?_
        fun k' counter valid' found' => ⟨valid', ?_, id, ?_⟩
      · simpa [pc, SendPc.nonces, State.sender] using (List.sublist_append_left _ _).subperm
      · exact congrFun (State.sending_keypairPut ..) k' ▸ found'
      · cases valid' <;> simp [pc, SendPc.mayExceed]
  | @putKey i packets k pc =>
      refine counters.sender (by simp [State.sender]) (by simp [State.sender]; rfl) ?_
        fun k' counter valid' found' => ⟨valid', ?_, id, ?_⟩
      · simp [pc, SendPc.nonces, State.sender]
      · exact congrFun (State.sending_keypairPut ..) k' ▸ found'
      · simp [pc, SendPc.mayExceed]
  | @markInvalid i packets k pc =>
      refine counters.sender (by simp [State.sender]) (by simp [State.sender]; rfl) ?_
        fun k' counter valid' found' => ?_
      · simp [pc, SendPc.nonces, State.sender]
      · have found'' : (s.invalidate k).sending k' = some (counter, valid') := found'
        obtain ⟨valid, found, less⟩ := State.sending_invalidate found''
        refine ⟨valid, found, fun h => (less h).1, fun may => ?_⟩
        obtain ⟨rfl, ne⟩ := less may
        simp [pc, SendPc.mayExceed, ne.symm]
  | transmit | dead =>
      exact counters.congr (by simp) (by simp) (by simp) (same (State.sending_keypairPut ..))
  | release =>
      exact counters.congr (by simp [State.receiver]) (by simp [State.receiver])
        (by simp [State.receiver]) (same (State.sending_keypairPut ..))
  | @confirm j k =>
      exact counters.congr (by simp [State.receiver]) (by simp [State.receiver])
        (by simp [State.receiver]) (same (s.sending_slide k))
  | @beginSession initiator =>
      exact (counters.keypairCreate initiator).congr (by simp) (by simp) (by simp)
        (same (State.sending_addNewKeypair ..))
  | expire => exact counters.congr (by simp) (by simp) (by simp) State.sending_expire
  | clear =>
      exact counters.congr (by simp) (by simp) (by simp) (same (State.sending_keypairsClear ..))
  | @reclaim k =>
      refine counters.congr rfl rfl rfl fun k' counter valid found => ⟨valid, ?_, id⟩
      rcases eq_or_ne k' k with rfl | ne
      · simp [State.sending] at found
      · simpa [State.sending, ne] using found

/-! ## What is on the wire

The log has the nonces of all packets that were queued for encryption.  What is sent is part
of it, and no two entries are the same. -/

/-- The nonces of the packets that were sent or are being encrypted. -/
def State.sealed (s : State n m) : Multiset (Key × BitVec 64) :=
  (s.wire.map (fun e => (e.1, e.2.1)) : List (Key × BitVec 64)) +
    (s.batches.flatMap fun batch => batch.1.map fun e => (batch.2, e.2) : List (Key × BitVec 64))

/-- What is sent or being encrypted has its nonce in the log.  A batch is logged when it is
queued, and its nonces do not change on the way to the wire. -/
theorem sealed_step (le : s.sealed ≤ s.used) (move : Transition s a s') : s'.sealed ≤ s'.used := by
  cases move with
  | @submit i done k pc =>
      have added : (State.sender { s with
          batches := s.batches ++ [(done, k)]
          used := s.used ++ done.map fun e => (k, e.2) } i .idle).sealed =
          s.sealed + (done.map fun e => (k, e.2) : List (Key × BitVec 64)) := by
        simp only [State.sealed, State.sender, List.flatMap_append, List.flatMap_singleton,
          ← Multiset.coe_add, add_assoc]
      rw [added]
      exact add_le_add_left le _
  | @transmit batch k rest first =>
      refine le_of_eq_of_le ?_ (le.trans_eq (by simp))
      simp only [State.sealed, State.keypairPut_frame, first, List.flatMap_cons, List.map_append,
        List.map_map, Function.comp_def, ← Multiset.coe_add, add_assoc]
  | @dead batch k rest first =>
      refine le_trans ?_ (le.trans_eq (by simp))
      simp only [State.sealed, State.keypairPut_frame, first, List.flatMap_cons,
        ← Multiset.coe_add]
      exact add_le_add_right (Multiset.le_add_left ..) _
  | refuse | markInvalid | putKey | confirm | release | beginSession | expire | clear =>
      simpa [State.sealed, State.sender, State.receiver, keypairCreate] using le
  | xmit => simpa only [State.sealed, xmitStep] using le
  | _ => exact le

/-- **No nonce is used twice.**  With fewer calls of the send path at a time than the counter has
room for beyond `REJECT_AFTER_MESSAGES`, no two packets are encrypted under the same keypair and
nonce in any run, on the wire or not, and no nonce is at the limit or beyond. -/
theorem nonces_distinct (few : REJECT_AFTER_MESSAGES.toNat + n < 2 ^ 64) (reach : Reachable s) :
    s.used.Nodup ∧ (s.wire.map fun e => (e.1, e.2.1)).Nodup ∧
      ∀ e ∈ s.used, e.2.toNat < REJECT_AFTER_MESSAGES.toNat := by
  have counters : Counters s := reach.invariant (counters_init n m)
    fun _ _ _ _ counters _ taken => counters_step few counters (step_transition taken)
  have sealed : s.sealed ≤ s.used := reach.invariant (I := fun s => s.sealed ≤ s.used)
    (by simp [State.sealed, State.init]) fun _ _ _ _ le _ taken =>
      sealed_step le (step_transition taken)
  have used : s.used ≤ s.nonces := Multiset.le_add_right ..
  refine ⟨?_, ?_, fun e mem => ?_⟩
  · exact Multiset.coe_nodup.mp (Multiset.nodup_of_le used counters.distinct)
  · exact Multiset.coe_nodup.mp (Multiset.nodup_of_le
      (((Multiset.le_add_right _ _).trans sealed).trans used) counters.distinct)
  · exact counters.limit e.1 e.2 (Multiset.mem_of_le used mem)

/-- Two packets that were staged together. -/
theorem nonces_distinct_run : ∃ s : State 1 0, Reachable s ∧ s.wire = [(0, 0, 7), (0, 1, 8)] ∧
    s.used.Nodup ∧ (s.wire.map fun e => (e.1, e.2.1)).Nodup ∧
      ∀ e ∈ s.used, e.2.toNat < REJECT_AFTER_MESSAGES.toNat := by
  obtain ⟨s, reach, sent⟩ : ∃ s : State 1 0, Reachable s ∧ s.wire = [(0, 0, 7), (0, 1, 8)] :=
    Machine.exists_reach_of_exec
      [.beginSession true, .publish, .xmit [7, 8], .send 0 .steal, .send 0 .deref, .send 0 .get,
        .send 0 .checkValid, .send 0 (.checkBirthdate false), .send 0 .assign, .send 0 .assign,
        .send 0 (.submit true), .transmit true] (by decide)
  exact ⟨s, reach, sent, nonces_distinct (by decide) reach⟩

end Session
end WgReceivePath
