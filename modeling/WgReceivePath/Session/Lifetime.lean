import Mathlib.Algebra.Order.Group.Multiset
import Mathlib.Tactic.Abel
import WgReceivePath.Lib.Sums
import WgReceivePath.Session.Transitions

/-!
# The life of a keypair

A keypair is freed when its count drops to zero and the readers of that moment are gone.
`no_fault` says that nobody uses it afterwards, and that no count is put below zero, in
every orderly run and whatever the interleaving.

## Main definitions

* `State.held`, the multiset of all references: of the slots, of the calls of the send path,
  of the packets on the receive path and of the batches.
* `Sound s refs entries`, what holds of the memory when `refs` are the references and only
  `entries` may be in the index table.
* `Live`, the invariant: `Sound` for the references and slots of the state, and a new
  keypair is still in its slot when it goes to the index table.
* `Orderly`, the two conditions on the order of events, which the source does not enforce by
  a lock.

## What carries the proof

The count of a keypair is the number of its references.  Its entry is in the index table
only while it is in a slot, so a reader that finds it there, or in the current slot, finds
it with a reference, and `call_rcu` waits for the reader if the count drops to zero later
(`Sound.guarded`).

The sections under the lock put up to three keypairs while the slots are being changed, and
in between the counts and the slots do not agree.  `Sound` therefore has the references as a
parameter: a put takes one summand away (`Sound.putSlot`, `Sound.put`), a get adds one
(`Sound.get`), and each section is a chain of these that starts and ends with the references
of a state.

Neither condition of `Orderly` can be dropped: `fault_of_clear` and `fault_of_early_put` are
runs with a use after free in which only the other one holds.
-/

namespace WgReceivePath
namespace Session

variable {n m : ℕ} {s s' : State n m} {a : Action n m} {k : Key}
  {refs entries : Multiset Key}

/-! ## Who holds a reference

References are a multiset of keypairs, so that to put one is to take an element away.  The
calls, packets and batches contribute sums, of which a step changes one summand. -/

/-- The reference behind a pointer that may be null. -/
def ref : Option Key → Multiset Key
  | none => 0
  | some k => {k}

@[simp]
theorem ref_none : ref none = 0 := rfl

@[simp]
theorem ref_some (k : Key) : ref (some k) = {k} := rfl

/-- The references of the calls, of the packets and of the batches: all but those of the
slots. -/
def heldBy (senders : Fin n → SendPc) (receivers : Fin m → ReceivePc)
    (batches : List (List (Packet × BitVec 64) × Key)) : Multiset Key :=
  ∑ i, ref (senders i).key + ∑ j, ref (receivers j).key + (batches.map Prod.snd : List Key)

theorem heldBy_sender (senders : Fin n → SendPc) (receivers : Fin m → ReceivePc)
    (batches : List (List (Packet × BitVec 64) × Key)) (i : Fin n) :
    ∃ rest, heldBy senders receivers batches = ref (senders i).key + rest ∧
      ∀ pc, heldBy (Function.update senders i pc) receivers batches = ref pc.key + rest := by
  obtain ⟨rest, before, after⟩ :=
    Finset.exists_sum_update (fun pc : SendPc => ref pc.key) senders i
  refine ⟨rest + (∑ j, ref (receivers j).key + (batches.map Prod.snd : List Key)), ?_,
    fun pc => ?_⟩
  · rw [heldBy, before]
    abel
  · rw [heldBy, after]
    abel

theorem heldBy_receiver (senders : Fin n → SendPc) (receivers : Fin m → ReceivePc)
    (batches : List (List (Packet × BitVec 64) × Key)) (j : Fin m) :
    ∃ rest, heldBy senders receivers batches = ref (receivers j).key + rest ∧
      ∀ pc, heldBy senders (Function.update receivers j pc) batches = ref pc.key + rest := by
  obtain ⟨rest, before, after⟩ :=
    Finset.exists_sum_update (fun pc : ReceivePc => ref pc.key) receivers j
  refine ⟨rest + (∑ i, ref (senders i).key + (batches.map Prod.snd : List Key)), ?_,
    fun pc => ?_⟩
  · rw [heldBy, before]
    abel
  · rw [heldBy, after]
    abel

theorem heldBy_append (senders : Fin n → SendPc) (receivers : Fin m → ReceivePc)
    (batches : List (List (Packet × BitVec 64) × Key)) (batch : List (Packet × BitVec 64))
    (k : Key) :
    heldBy senders receivers (batches ++ [(batch, k)]) =
      {k} + heldBy senders receivers batches := by
  simp only [heldBy, List.map_append, List.map_cons, List.map_nil, ← Multiset.coe_add,
    Multiset.coe_singleton]
  abel

theorem heldBy_cons (senders : Fin n → SendPc) (receivers : Fin m → ReceivePc)
    (batches : List (List (Packet × BitVec 64) × Key)) (batch : List (Packet × BitVec 64))
    (k : Key) :
    heldBy senders receivers ((batch, k) :: batches) =
      {k} + heldBy senders receivers batches := by
  simp only [heldBy, List.map_cons, ← Multiset.cons_coe, ← Multiset.singleton_add]
  abel

namespace State

/-- The keypair that the current slot has a reference on.  While `add_new_keypair` is at
work it is already the new one, although the slot still points to the old one. -/
def owner (s : State n m) : Option Key :=
  match s.worker with
  | .installing k => some k
  | _ => s.current

/-- The references of the slots. -/
def slots (s : State n m) : Multiset Key := ref s.owner + ref s.previous + ref s.next

/-- All references. -/
def held (s : State n m) : Multiset Key := s.slots + heldBy s.senders s.receivers s.batches

/-- The reference count of a keypair; zero when there is none, so that a freed keypair has
no references. -/
def count (s : State n m) (k : Key) : ℕ := (s.memory k).elim 0 Keypair.refcount

/-- The keypair that a reader has a pointer to, without a reference. -/
def pointer (s : State n m) : Reader n m → Option Key
  | none => none
  | some (.inl i) => (s.senders i).pointer
  | some (.inr j) => (s.receivers j).pointer

end State

/-! ## The invariant of the memory

Stated for arbitrary references and entries, so that it holds in the middle of a section
under the lock as well.  Each operation of the source is one lemma; the sections are chains
of them. -/

/-- The counts are those of the references `refs`, the keypairs in the index table are among
`entries`, and every reader's keypair is there, and waits for the reader if its count is
zero.  In the middle of a section under the lock `refs` and `entries` are not those of the
slots. -/
structure Sound (s : State n m) (refs entries : Multiset Key) : Prop where
  fault : s.fault = false
  counted : ∀ k, s.count k = refs.count k
  fresh : ∀ k, s.keys ≤ k → s.memory k = none
  indexed : ∀ k, s.table k = true → k ∈ entries
  guarded : ∀ r k, s.pointer r = some k →
    ∃ kp, s.memory k = some kp ∧ (kp.refcount = 0 → s.waiting k r = true)

namespace Sound

/-- The invariant is about the memory and the readers. -/
theorem congr (sound : Sound s refs entries) (memory : s'.memory = s.memory)
    (table : s'.table = s.table) (waiting : s'.waiting = s.waiting) (fault : s'.fault = s.fault)
    (keys : s'.keys = s.keys) (senders : s'.senders = s.senders)
    (receivers : s'.receivers = s.receivers) : Sound s' refs entries where
  fault := fault ▸ sound.fault
  counted k := by rw [State.count, memory]; exact sound.counted k
  fresh k := by rw [keys, memory]; exact sound.fresh k
  indexed k := by rw [table]; exact sound.indexed k
  guarded r k pointer := by
    rw [memory, waiting]
    refine sound.guarded r k ?_
    rcases r with _ | i | j
    · exact pointer
    · simpa only [State.pointer, senders] using pointer
    · simpa only [State.pointer, receivers] using pointer

/-- A keypair with a reference is there. -/
theorem exists_keypair (sound : Sound s refs entries) (mem : k ∈ refs) :
    ∃ kp, s.memory k = some kp ∧ kp.refcount ≠ 0 := by
  have positive : s.count k ≠ 0 := by
    rw [sound.counted k]
    exact Multiset.count_ne_zero.mpr mem
  cases found : s.memory k with
  | none => simp [State.count, found] at positive
  | some kp => exact ⟨kp, rfl, by simpa [State.count, found] using positive⟩

theorem count_eq (sound : Sound s refs entries) {kp : Keypair} (found : s.memory k = some kp) :
    kp.refcount = refs.count k := by
  rw [← sound.counted k, State.count, found, Option.elim_some]

/-- A store to a keypair does not make its count zero.  The counts of the others stay as
they are. -/
theorem store (sound : Sound s refs entries) {kp kp' : Keypair} {refs' : Multiset Key}
    (found : s.memory k = some kp) (positive : kp'.refcount = 0 → kp.refcount = 0)
    (counted : refs'.count k = kp'.refcount)
    (others : ∀ k', k' ≠ k → refs'.count k' = refs.count k') :
    Sound (s.store k kp') refs' entries where
  fault := sound.fault
  counted k' := by
    rcases eq_or_ne k' k with rfl | ne
    · simp [State.count, State.store, counted]
    · rw [others k' ne, ← sound.counted k']
      simp [State.count, State.store, ne]
  fresh k' le := by
    have ne : k' ≠ k := by
      rintro rfl
      simp [sound.fresh _ le] at found
    simpa [State.store, ne] using sound.fresh k' le
  indexed := sound.indexed
  guarded r k' pointer := by
    obtain ⟨kp₁, found₁, wait⟩ := sound.guarded r k' pointer
    rcases eq_or_ne k' k with rfl | ne
    · obtain rfl : kp = kp₁ := by simpa [found] using found₁
      exact ⟨kp', by simp [State.store], fun zero => wait (positive zero)⟩
    · exact ⟨kp₁, by simpa [State.store, ne] using found₁, wait⟩

/-- A new reference. -/
theorem get (sound : Sound s refs entries) {kp : Keypair} (found : s.memory k = some kp) :
    Sound (s.store k { kp with refcount := kp.refcount + 1 }) ({k} + refs) entries := by
  refine sound.store found (by simp) ?_ fun k' ne => ?_
  · rw [Multiset.count_add, Multiset.count_singleton_self, ← sound.count_eq found, add_comm]
  · rw [Multiset.count_add, Multiset.count_singleton, if_neg ne, zero_add]

/-- The last reference goes: the keypair waits for everybody who has a pointer to it.  They
are all in an RCU section now, because a pointer is kept in one only. -/
theorem free (sound : Sound s ({k} + refs) entries) {kp : Keypair}
    (found : s.memory k = some kp) (last : kp.refcount = 1) :
    Sound (((s.store k { kp with refcount := 0 }).unhash k).callRcu k) refs entries where
  fault := sound.fault
  counted k' := by
    have counted := sound.counted k'
    rw [Multiset.count_add, Multiset.count_singleton] at counted
    rcases eq_or_ne k' k with rfl | ne
    · have : refs.count k' = 0 := by
        simp [State.count, found, last] at counted
        simpa using counted
      simp [State.count, State.store, State.unhash, State.callRcu, this]
    · rw [if_neg ne, zero_add] at counted
      rw [← counted]
      simp [State.count, State.store, State.unhash, State.callRcu, ne]
  fresh k' le := by
    have ne : k' ≠ k := by
      rintro rfl
      simp [sound.fresh _ le] at found
    simpa [State.store, State.unhash, State.callRcu, ne] using sound.fresh k' le
  indexed k' hashed := by
    rcases eq_or_ne k' k with rfl | ne
    · simp [State.store, State.unhash, State.callRcu] at hashed
    · exact sound.indexed k' (by simpa [State.store, State.unhash, State.callRcu, ne] using hashed)
  guarded r k' pointer := by
    obtain ⟨kp₁, found₁, wait⟩ := sound.guarded r k' pointer
    rcases eq_or_ne k' k with rfl | ne
    · refine ⟨_, Function.update_self .., fun _ => ?_⟩
      change Function.update s.waiting k' _ k' r = true
      rw [Function.update_self]
      rcases r with _ | i | j
      · cases pointer
      · exact Option.isSome_of_mem pointer
      · exact Option.isSome_of_mem pointer
    · refine ⟨kp₁, by simpa [State.store, State.unhash, State.callRcu, ne] using found₁, ?_⟩
      simpa [State.store, State.unhash, State.callRcu, ne] using wait

/-- `kref_put` takes one reference away.  That there is one to take is a hypothesis, so the
count is not zero and there is no fault. -/
theorem krefPut (sound : Sound s ({k} + refs) entries) : Sound (s.krefPut k) refs entries := by
  obtain ⟨kp, found, positive⟩ := sound.exists_keypair (k := k) (by simp)
  have count := sound.count_eq found
  rw [Multiset.count_add, Multiset.count_singleton_self] at count
  unfold State.krefPut State.load
  rw [found]
  match size : kp.refcount with
  | 0 => exact absurd size positive
  | 1 => simpa [size] using sound.free found size
  | c + 2 =>
      have less : refs.count k = c + 1 := by omega
      simp only [size]
      refine sound.store found (by simp [size]) less fun k' ne => ?_
      rw [Multiset.count_add, Multiset.count_singleton, if_neg ne, zero_add]

/-- A slot puts its keypair, which leaves the index table at once.  Nobody finds it there
any more, even if other references keep it in memory. -/
theorem putSlot {o : Option Key} (sound : Sound s (ref o + refs) (ref o + entries)) :
    Sound (s.keypairPut o true) refs entries := by
  cases o with
  | none => simpa using sound
  | some k =>
      refine krefPut (s := s.unhash k) ⟨sound.fault, sound.counted, sound.fresh, ?_,
        sound.guarded⟩
      intro k' hashed
      rcases eq_or_ne k' k with rfl | ne
      · simp [State.unhash] at hashed
      · have mem := sound.indexed k' (by simpa [State.unhash, ne] using hashed)
        simpa [ne] using mem

/-- Anybody else puts a keypair.  It stays in the index table if it was there. -/
theorem put (sound : Sound s ({k} + refs) entries) :
    Sound (s.keypairPut (some k) false) refs entries :=
  sound.krefPut

/-- A reader without a pointer leaves its RCU section. -/
theorem leave (sound : Sound s refs entries) {r : Reader n m} (none : s.pointer r = none) :
    Sound (s.leave r) refs entries where
  fault := sound.fault
  counted := sound.counted
  fresh := sound.fresh
  indexed := sound.indexed
  guarded r' k pointer := by
    obtain ⟨kp, found, wait⟩ := sound.guarded r' k pointer
    have ne : r' ≠ r := by
      rintro rfl
      cases none.symm.trans pointer
    exact ⟨kp, found, fun zero => by simp [State.leave, wait zero, ne]⟩

/-- A call of the send path moves on; if it then has a pointer, it is one to a keypair with a
reference. -/
theorem sender (sound : Sound s refs entries) {i : Fin n} {pc : SendPc}
    (live : ∀ k, pc.pointer = some k → ∃ kp, s.memory k = some kp ∧ kp.refcount ≠ 0) :
    Sound (s.sender i pc) refs entries where
  fault := sound.fault
  counted := sound.counted
  fresh := sound.fresh
  indexed := sound.indexed
  guarded r k pointer := by
    rcases eq_or_ne r (some (.inl i)) with rfl | ne
    · obtain ⟨kp, found, positive⟩ := live k (by simpa [State.pointer, State.sender] using pointer)
      exact ⟨kp, found, fun zero => absurd zero positive⟩
    · refine sound.guarded r k ?_
      rcases r with _ | i' | j
      · exact pointer
      · have : i' ≠ i := fun eq => ne (eq ▸ rfl)
        simpa [State.pointer, State.sender, this] using pointer
      · exact pointer

/-- As `sender`, on the receive path. -/
theorem receiver (sound : Sound s refs entries) {j : Fin m} {pc : ReceivePc}
    (live : ∀ k, pc.pointer = some k → ∃ kp, s.memory k = some kp ∧ kp.refcount ≠ 0) :
    Sound (s.receiver j pc) refs entries where
  fault := sound.fault
  counted := sound.counted
  fresh := sound.fresh
  indexed := sound.indexed
  guarded r k pointer := by
    rcases eq_or_ne r (some (.inr j)) with rfl | ne
    · obtain ⟨kp, found, positive⟩ :=
        live k (by simpa [State.pointer, State.receiver] using pointer)
      exact ⟨kp, found, fun zero => absurd zero positive⟩
    · refine sound.guarded r k ?_
      rcases r with _ | i | j'
      · exact pointer
      · exact pointer
      · have : j' ≠ j := fun eq => ne (eq ▸ rfl)
        simpa [State.pointer, State.receiver, this] using pointer

/-- `is_valid = false`. -/
theorem invalidate (sound : Sound s refs entries) (mem : k ∈ refs) :
    Sound (s.invalidate k) refs entries := by
  obtain ⟨kp, found, _⟩ := sound.exists_keypair mem
  unfold State.invalidate State.load
  rw [found]
  exact sound.store found id (sound.count_eq found).symm fun _ _ => rfl

/-- A new keypair, with the reference of its slot. -/
theorem keypairCreate (sound : Sound s refs entries) (initiator : Bool) :
    Sound (keypairCreate s initiator) ({s.keys} + refs) ({s.keys} + entries) where
  fault := sound.fault
  counted k := by
    rw [Multiset.count_add, Multiset.count_singleton]
    have counted := sound.counted k
    rcases eq_or_ne k s.keys with rfl | ne
    · have none : s.count s.keys = 0 := by simp [State.count, sound.fresh _ le_rfl]
      rw [if_pos rfl, ← counted, none]
      simp [State.count, Session.keypairCreate]
    · rw [if_neg ne, zero_add, ← counted]
      simp [State.count, Session.keypairCreate, ne]
  fresh k le := by
    have ne : k ≠ s.keys := (Nat.lt_of_succ_le le).ne'
    simpa [Session.keypairCreate, ne] using sound.fresh k (Nat.le_of_succ_le le)
  indexed k hashed := Multiset.mem_add.mpr (.inr (sound.indexed k hashed))
  guarded r k pointer := by
    obtain ⟨kp, found, wait⟩ := sound.guarded r k pointer
    have ne : k ≠ s.keys := by
      rintro rfl
      simp [sound.fresh _ le_rfl] at found
    exact ⟨kp, by simpa [Session.keypairCreate, ne] using found, wait⟩

/-- The slots change under the lock: what was in them before, and is no longer, is put. -/
theorem slide (sound : Sound s (ref s.previous + refs) (ref s.previous + entries)) :
    Sound (s.slide k) refs entries := by
  have moved : Sound { s with previous := s.current } _ _ :=
    sound.congr rfl rfl rfl rfl rfl rfl rfl
  exact moved.putSlot.congr rfl rfl rfl rfl rfl rfl rfl

theorem keypairsClear
    (sound : Sound s (ref s.next + (ref s.previous + (ref s.current + refs)))
      (ref s.next + (ref s.previous + (ref s.current + entries)))) :
    Sound s.keypairsClear refs entries := by
  have next : Sound { s with next := none } _ _ := sound.congr rfl rfl rfl rfl rfl rfl rfl
  have previous : Sound { { s with next := none }.keypairPut s.next true with previous := none }
      _ _ := next.putSlot.congr rfl rfl rfl rfl rfl rfl rfl
  refine Sound.putSlot ?_
  exact previous.putSlot.congr rfl rfl rfl rfl rfl rfl rfl

theorem addNext
    (sound : Sound s (ref s.next + (ref s.previous + refs))
      (ref s.next + (ref s.previous + entries))) :
    Sound (s.addNewKeypair k false) refs entries := by
  have next : Sound { s with next := some k } _ _ := sound.congr rfl rfl rfl rfl rfl rfl rfl
  have previous : Sound { { s with next := some k }.keypairPut s.next true with previous := none }
      _ _ := next.putSlot.congr rfl rfl rfl rfl rfl rfl rfl
  exact previous.putSlot

theorem addCurrent_of_next (pending : s.next ≠ none)
    (sound : Sound s (ref s.current + (ref s.previous + refs))
      (ref s.current + (ref s.previous + entries))) :
    Sound (s.addNewKeypair k true) refs entries := by
  obtain ⟨k', next⟩ := Option.ne_none_iff_exists'.mp pending
  have demoted : Sound { s with next := none, previous := s.next } _ _ :=
    sound.congr rfl rfl rfl rfl rfl rfl rfl
  have put := demoted.putSlot.putSlot
  rw [next] at put
  simpa [State.addNewKeypair, next] using put

theorem addCurrent_of_no_next (idle : s.next = none)
    (sound : Sound s (ref s.previous + refs) (ref s.previous + entries)) :
    Sound (s.addNewKeypair k true) refs entries := by
  have kept : Sound { s with previous := s.current } _ _ :=
    sound.congr rfl rfl rfl rfl rfl rfl rfl
  have put := kept.putSlot
  rw [idle] at put
  simpa [State.addNewKeypair, idle] using put

/-- A keypair nobody waits for any more is freed.  No reader has a pointer to it, for then
it would be waited for. -/
theorem reclaim (sound : Sound s refs entries) {kp : Keypair} (found : s.memory k = some kp)
    (zero : kp.refcount = 0) (grace : ∀ r, s.waiting k r = false) :
    Sound { s with memory := Function.update s.memory k none } refs entries where
  fault := sound.fault
  counted k' := by
    rw [← sound.counted k']
    rcases eq_or_ne k' k with rfl | ne
    · simp [State.count, found, zero]
    · simp [State.count, ne]
  fresh k' le := by
    rcases eq_or_ne k' k with rfl | ne
    · simp
    · simpa [ne] using sound.fresh k' le
  indexed := sound.indexed
  guarded r k' pointer := by
    obtain ⟨kp', found', wait⟩ := sound.guarded r k' pointer
    have ne : k' ≠ k := by
      rintro rfl
      obtain rfl : kp = kp' := by simpa [found] using found'
      simpa [grace r] using wait zero
    exact ⟨kp', by simpa [ne] using found', wait⟩

end Sound

/-! ## The order of events

What is needed beyond the memory: the worker's new keypair is in its slot while it is on its
way to the index table, and a reader of the current slot finds a keypair that still has a
reference.  The first could be broken by `wg_noise_keypairs_clear`, the second by
`add_new_keypair` itself. -/

/-- `wg_noise_keypairs_clear` does not run between `add_new_keypair` and
`wg_index_hashtable_replace`, and the current slot is not read while it points to a keypair
that `add_new_keypair` has already put for the last time.  All other steps are unrestricted.
-/
def Orderly (s : State n m) : Action n m → Prop
  | .clear => s.worker = .idle
  | .send _ .deref | .send _ .keepFresh =>
      s.current.all (fun k => (s.memory k).any fun kp => kp.refcount ≠ 0) = true
  | _ => True

instance (s : State n m) : DecidablePred (Orderly s)
  | .clear => inferInstanceAs (Decidable (_ = _))
  | .send _ .deref => inferInstanceAs (Decidable (_ = _))
  | .send _ .keepFresh => inferInstanceAs (Decidable (_ = _))
  | .send _ .steal | .send _ .get | .send _ .checkValid | .send _ (.checkBirthdate _)
  | .send _ .assign | .send _ (.submit _) | .send _ .markInvalid | .send _ .putKey
  | .send _ .restage | .send _ .readFresh => inferInstanceAs (Decidable True)
  | .xmit _ | .keepalive _ | .purge | .transmit _ | .receive _ _ | .beginSession _ | .publish
  | .replace _ | .expire | .reclaim _ => inferInstanceAs (Decidable True)

/-- A keypair that the worker has added is still in its slot when it goes to the index
table.  Otherwise its entry would outlive the reference of the slot. -/
def Placed (s : State n m) : Prop :=
  match s.worker with
  | .idle => True
  | .installing _ => s.next = none
  | .installed k => s.next = some k ∨ s.current = some k ∧ s.next = none

/-- The invariant of orderly runs: the memory is sound for the references and the slots of
the state, and the worker's keypair is in its place. -/
structure Live (s : State n m) : Prop where
  sound : Sound s s.held s.slots
  placed : Placed s

theorem live_init (n m : ℕ) : Live (State.init n m) where
  sound :=
    { fault := rfl
      counted := fun k => by
        simp [State.count, State.init, State.held, State.slots, State.owner, heldBy, SendPc.key,
          ReceivePc.key]
      fresh := fun _ _ => rfl
      indexed := fun k hashed => by simp [State.init] at hashed
      guarded := fun r k pointer => by
        rcases r with _ | i | j <;>
          simp [State.pointer, State.init, SendPc.pointer, ReceivePc.pointer] at pointer }
  placed := trivial

theorem Placed.congr (placed : Placed s) (worker : s'.worker = s.worker)
    (current : s'.current = s.current) (next : s'.next = s.next) : Placed s' := by
  unfold Placed at placed ⊢
  rw [worker, current, next]
  exact placed

namespace Live

theorem exists_of_slots (live : Live s) (mem : k ∈ s.slots) :
    ∃ kp, s.memory k = some kp ∧ kp.refcount ≠ 0 :=
  live.sound.exists_keypair (Multiset.mem_add.mpr (.inl mem))

theorem mem_of_sender {i : Fin n} (key : (s.senders i).key = some k) : k ∈ s.held := by
  obtain ⟨rest, held, -⟩ := heldBy_sender s.senders s.receivers s.batches i
  rw [State.held, held, key]
  simp

theorem congr (live : Live s) (sound : Sound s' s.held s.slots) (worker : s'.worker = s.worker)
    (current : s'.current = s.current) (previous : s'.previous = s.previous)
    (next : s'.next = s.next) (senders : s'.senders = s.senders)
    (receivers : s'.receivers = s.receivers) (batches : s'.batches = s.batches) : Live s' := by
  have slots : s'.slots = s.slots := by
    rw [State.slots, State.owner, worker, current, previous, next]
    rfl
  have held : s'.held = s.held := by
    rw [State.held, slots, senders, receivers, batches]
    rfl
  exact ⟨by rw [held, slots]; exact sound, live.placed.congr worker current next⟩

/-- The staged packets and the logs do not matter. -/
theorem logs (live : Live s) (staged dropped arrived : List Packet) (received : List Key) :
    Live { s with
      staged := staged, dropped := dropped, arrived := arrived, received := received } :=
  live.congr (live.sound.congr rfl rfl rfl rfl rfl rfl rfl) rfl rfl rfl rfl rfl rfl rfl

/-- A call moves on, with the reference it had. -/
theorem sender (live : Live s) {i : Fin n} {pc : SendPc} (same : pc.key = (s.senders i).key)
    (there : ∀ k, pc.pointer = some k → ∃ kp, s.memory k = some kp ∧ kp.refcount ≠ 0) :
    Live (s.sender i pc) := by
  obtain ⟨rest, before, after⟩ := heldBy_sender s.senders s.receivers s.batches i
  have held : (s.sender i pc).held = s.held := by
    rw [State.held, State.held, before, ← same]
    exact congrArg (s.slots + ·) (after pc)
  exact ⟨held ▸ live.sound.sender there, live.placed⟩

/-- A packet moves on, with the reference it had. -/
theorem receiver (live : Live s) {j : Fin m} {pc : ReceivePc}
    (same : pc.key = (s.receivers j).key)
    (there : ∀ k, pc.pointer = some k → ∃ kp, s.memory k = some kp ∧ kp.refcount ≠ 0) :
    Live (s.receiver j pc) := by
  obtain ⟨rest, before, after⟩ := heldBy_receiver s.senders s.receivers s.batches j
  have held : (s.receiver j pc).held = s.held := by
    rw [State.held, State.held, before, ← same]
    exact congrArg (s.slots + ·) (after pc)
  exact ⟨held ▸ live.sound.receiver there, live.placed⟩

/-- A reader without a pointer leaves its RCU section. -/
theorem leave (live : Live s) {r : Reader n m} (none : s.pointer r = none) : Live (s.leave r) :=
  live.congr (live.sound.leave none) rfl rfl rfl rfl rfl rfl rfl

/-- A store that leaves the count as it is. -/
theorem store (live : Live s) {kp kp' : Keypair} (found : s.memory k = some kp)
    (same : kp'.refcount = kp.refcount) : Live (s.store k kp') :=
  live.congr (live.sound.store found (fun zero => same ▸ zero)
    ((live.sound.count_eq found).symm.trans same.symm) fun _ _ => rfl)
    rfl rfl rfl rfl rfl rfl rfl

theorem invalidate (live : Live s) (mem : k ∈ s.held) : Live (s.invalidate k) := by
  apply live.congr (live.sound.invalidate mem) <;> simp

/-- A call takes a reference on the keypair it has a pointer to. -/
theorem get (live : Live s) {i : Fin n} {packets : List Packet} {kp : Keypair}
    (pc : s.senders i = .deref packets k) (found : s.memory k = some kp) :
    Live (((s.store k { kp with refcount := kp.refcount + 1 }).sender i
      (.keyed packets k)).leave (some (.inl i))) := by
  obtain ⟨rest, before, after⟩ := heldBy_sender s.senders s.receivers s.batches i
  have sound := live.sound.get found
  rw [State.held, before, pc] at sound
  refine ⟨?_, live.placed⟩
  have held : (((s.store k { kp with refcount := kp.refcount + 1 }).sender i
      (.keyed packets k)).leave (some (.inl i))).held = {k} + (s.slots + (0 + rest)) := by
    refine (congrArg (s.slots + ·) (after _)).trans ?_
    simp only [SendPc.key, ref_some]
    abel
  rw [held]
  refine (sound.sender (by simp [SendPc.pointer])).leave ?_
  simp [State.pointer, State.sender, SendPc.pointer]

/-- As `get`, on the receive path. -/
theorem getFound (live : Live s) {j : Fin m} {kp : Keypair} (pc : s.receivers j = .found k)
    (found : s.memory k = some kp) :
    Live (((s.store k { kp with refcount := kp.refcount + 1 }).receiver j
      (.holding k)).leave (some (.inr j))) := by
  obtain ⟨rest, before, after⟩ := heldBy_receiver s.senders s.receivers s.batches j
  have sound := live.sound.get found
  rw [State.held, before, pc] at sound
  refine ⟨?_, live.placed⟩
  have held : (((s.store k { kp with refcount := kp.refcount + 1 }).receiver j
      (.holding k)).leave (some (.inr j))).held = {k} + (s.slots + (0 + rest)) := by
    refine (congrArg (s.slots + ·) (after _)).trans ?_
    simp only [ReceivePc.key, ref_some]
    abel
  rw [held]
  refine (sound.receiver (by simp [ReceivePc.pointer])).leave ?_
  simp [State.pointer, State.receiver, ReceivePc.pointer]

/-- A call puts its reference. -/
theorem put (live : Live s) {i : Fin n} {pc : SendPc} (key : (s.senders i).key = some k)
    (let_go : pc.key = none) (none : pc.pointer = none) :
    Live ((s.keypairPut (some k) false).sender i pc) := by
  obtain ⟨rest, before, after⟩ := heldBy_sender s.senders s.receivers s.batches i
  have sound := live.sound
  have held : ((s.keypairPut (some k) false).sender i pc).held = s.slots + rest := by
    simp [State.held, State.slots, State.owner, State.sender, after, let_go]
  have slots : ((s.keypairPut (some k) false).sender i pc).slots = s.slots := by
    simp [State.slots, State.owner, State.sender]
  rw [State.held, before, key, ref_some, add_left_comm] at sound
  refine ⟨?_, live.placed.congr (by simp [State.sender]) (by simp [State.sender])
    (by simp [State.sender])⟩
  rw [held, slots]
  exact sound.put.sender (by simp [none])

/-- A packet puts its reference. -/
theorem release (live : Live s) {j : Fin m} (pc : s.receivers j = .releasing k) :
    Live ((s.keypairPut (some k) false).receiver j .idle) := by
  obtain ⟨rest, before, after⟩ := heldBy_receiver s.senders s.receivers s.batches j
  have sound := live.sound
  have held : ((s.keypairPut (some k) false).receiver j .idle).held = s.slots + rest := by
    simp [State.held, State.slots, State.owner, State.receiver, after, ReceivePc.key]
  have slots : ((s.keypairPut (some k) false).receiver j .idle).slots = s.slots := by
    simp [State.slots, State.owner, State.receiver]
  rw [State.held, before, pc, ReceivePc.key, ref_some, add_left_comm] at sound
  refine ⟨?_, live.placed.congr (by simp [State.receiver]) (by simp [State.receiver])
    (by simp [State.receiver])⟩
  rw [held, slots]
  exact sound.put.receiver (by simp [ReceivePc.pointer])

/-- The reference goes with the batch. -/
theorem submit (live : Live s) {i : Fin n} {done : List (Packet × BitVec 64)}
    (pc : s.senders i = .assigning done [] k) (used : List (Key × BitVec 64)) :
    Live ({ s with batches := s.batches ++ [(done, k)], used := used }.sender i .idle) := by
  obtain ⟨rest, before, after⟩ := heldBy_sender s.senders s.receivers s.batches i
  have held : ({ s with batches := s.batches ++ [(done, k)], used := used }.sender i .idle).held =
      s.held := by
    have batched := heldBy_append (Function.update s.senders i .idle) s.receivers s.batches done k
    rw [after, SendPc.key, ref_none, zero_add] at batched
    rw [State.held, State.held, before, pc]
    exact congrArg (s.slots + ·) batched
  have sound : Sound { s with batches := s.batches ++ [(done, k)], used := used } s.held s.slots :=
    live.sound.congr rfl rfl rfl rfl rfl rfl rfl
  exact ⟨held ▸ sound.sender (by simp [SendPc.pointer]), live.placed⟩

/-- The transmit worker puts the reference of a batch. -/
theorem transmit (live : Live s) {batch : List (Packet × BitVec 64)}
    {rest : List (List (Packet × BitVec 64) × Key)} (first : s.batches = (batch, k) :: rest)
    (wire : List (Key × BitVec 64 × Packet)) (dropped : List Packet) :
    Live ({ s with batches := rest, wire := wire, dropped := dropped }.keypairPut (some k)
      false) := by
  have sound := live.sound
  rw [State.held, first, heldBy_cons, add_left_comm] at sound
  have taken : Sound { s with batches := rest, wire := wire, dropped := dropped }
      ({k} + (s.slots + heldBy s.senders s.receivers rest)) s.slots :=
    sound.congr rfl rfl rfl rfl rfl rfl rfl
  refine ⟨?_, live.placed.congr (by simp) (by simp) (by simp)⟩
  convert taken.put using 1 <;> simp [State.held, State.slots, State.owner]

/-- The next keypair becomes the current one, the current one the previous one, and the
previous one is put.  The references of the slots move with them. -/
theorem slide (live : Live s) (unlocked : ∀ k, s.worker ≠ .installing k)
    (next : s.next = some k) : Live (s.slide k) := by
  have owner (s' : State n m) (same : s'.worker = s.worker) : s'.owner = s'.current := by
    unfold State.owner
    rw [same]
    split
    · exact absurd ‹_› (unlocked _)
    · rfl
  have entries : s.slots = ref s.previous + ({k} + ref s.current) := by
    rw [State.slots, owner s rfl, next, ref_some]
    abel
  have slots : (s.slide k).slots = {k} + ref s.current := by
    rw [State.slots, owner (s.slide k) (by simp)]
    simp [State.slide]
  have sound := live.sound
  rw [State.held, entries, add_assoc] at sound
  constructor
  · rw [State.held, slots]
    simpa using sound.slide
  · have placed := live.placed
    unfold Placed at placed ⊢
    simp only [State.slide_frame]
    split
    · trivial
    · exact absurd ‹_› (unlocked _)
    · rename_i k' worker
      rw [worker] at placed
      obtain placed | ⟨-, placed⟩ := placed
      · exact .inr ⟨next.symm.trans placed, rfl⟩
      · cases next.symm.trans placed

/-- All slots are emptied. -/
theorem clear (live : Live s) (idle : s.worker = .idle) : Live s.keypairsClear := by
  have sound := live.sound
  have entries : s.slots = ref s.next + (ref s.previous + (ref s.current + 0)) := by
    simp only [State.slots, State.owner, idle]
    abel
  have slots : s.keypairsClear.slots = 0 := by
    simp [State.slots, State.owner, idle, State.keypairsClear]
  rw [State.held, entries] at sound
  constructor
  · rw [State.held, slots]
    refine Sound.keypairsClear ?_
    convert sound using 1
    simp only [State.keypairsClear_frame]
    abel
  · simp [Placed, idle]

/-- A new session.  Its three cases are those of `add_new_keypair`: a responder, and an
initiator with or without a keypair in the next slot. -/
theorem beginSession (live : Live s) (idle : s.worker = .idle) (initiator : Bool) :
    Live ((keypairCreate s initiator).addNewKeypair s.keys initiator) := by
  have sound := live.sound.keypairCreate initiator
  have entries : s.slots = ref s.current + ref s.previous + ref s.next := by
    simp only [State.slots, State.owner, idle]
  rw [State.held, entries] at sound
  cases initiator with
  | false =>
      have slots : ((keypairCreate s false).addNewKeypair s.keys false).slots =
          ref s.current + {s.keys} := by
        simp [State.slots, State.owner, State.addNewKeypair, keypairCreate]
      constructor
      · rw [State.held, slots]
        refine Sound.addNext ?_
        convert sound using 1
        · simp only [State.addNewKeypair_frame, keypairCreate]
          abel
        · simp only [keypairCreate]
          abel
      · simp [Placed, State.addNewKeypair, keypairCreate]
  | true =>
      cases next : s.next with
      | none =>
          have slots : ((keypairCreate s true).addNewKeypair s.keys true).slots =
              {s.keys} + ref s.current := by
            simp [State.slots, State.owner, State.addNewKeypair, keypairCreate, next]
          constructor
          · rw [State.held, slots]
            refine Sound.addCurrent_of_no_next next ?_
            convert sound using 1
            · simp only [State.addNewKeypair_frame, keypairCreate, next, ref_none]
              abel
            · simp only [keypairCreate, next, ref_none]
              abel
          · simp [Placed, State.addNewKeypair, keypairCreate, next]
      | some k =>
          have slots : ((keypairCreate s true).addNewKeypair s.keys true).slots =
              {s.keys} + {k} := by
            simp [State.slots, State.owner, State.addNewKeypair, keypairCreate, next]
          constructor
          · rw [State.held, slots]
            refine Sound.addCurrent_of_next (by simp [keypairCreate, next]) ?_
            convert sound using 1
            · simp only [State.addNewKeypair_frame, keypairCreate, next, ref_some]
              abel
            · simp only [keypairCreate, next, ref_some]
              abel
          · simp [Placed, State.addNewKeypair, keypairCreate, next]

/-- The new keypair is published in the current slot. -/
theorem publish (live : Live s) (pc : s.worker = .installing k) :
    Live { s with current := some k, worker := .installed k } := by
  have slots : ({ s with current := some k, worker := .installed k } : State n m).slots =
      s.slots := by
    simp [State.slots, State.owner, pc]
  have placed := live.placed
  constructor
  · rw [State.held, slots]
    exact live.sound.congr rfl rfl rfl rfl rfl rfl rfl
  · rw [Placed, pc] at placed
    exact .inr ⟨rfl, placed⟩

/-- The keypair takes the place of the handshake in the index table.  It is still in its
slot, so that the entry has the reference of the slot behind it. -/
theorem replace (live : Live s) (pc : s.worker = .installed k) (hashed : Bool) :
    Live ({ s with
      table := if hashed then Function.update s.table k true else s.table
      worker := .idle }.leave none) := by
  have mem : k ∈ s.slots := by
    have placed := live.placed
    rw [Placed, pc] at placed
    obtain next | ⟨current, -⟩ := placed
    · simp [State.slots, next]
    · simp [State.slots, State.owner, pc, current]
  have slots : ({ s with
      table := if hashed then Function.update s.table k true else s.table
      worker := .idle } : State n m).slots = s.slots := by
    simp [State.slots, State.owner, pc]
  refine Live.leave (s := { s with
    table := if hashed then Function.update s.table k true else s.table
    worker := .idle }) ⟨?_, trivial⟩ rfl
  rw [State.held, slots]
  refine ⟨live.sound.fault, live.sound.counted, live.sound.fresh, fun k' entry => ?_,
    live.sound.guarded⟩
  rcases eq_or_ne k' k with rfl | ne
  · exact mem
  · refine live.sound.indexed k' ?_
    cases hashed <;> simpa [ne] using entry

/-- The keypairs in the slots are there. -/
theorem expire (live : Live s) (unlocked : ∀ k, s.worker ≠ .installing k) :
    Live s.expireCurrentPeerKeypairs := by
  have owner : s.owner = s.current := by
    unfold State.owner
    split
    · exact absurd ‹_› (unlocked _)
    · rfl
  have current {k : Key} (current : s.current = some k) : k ∈ s.held := by
    simp [State.held, State.slots, owner, current]
  have next {k : Key} (next : s.next = some k) : k ∈ s.held := by
    simp [State.held, State.slots, next]
  have sound : Sound s.expireCurrentPeerKeypairs s.held s.slots := by
    unfold State.expireCurrentPeerKeypairs
    cases nextAt : s.next <;> cases currentAt : s.current
    · exact live.sound
    · exact live.sound.invalidate (current currentAt)
    · exact live.sound.invalidate (next nextAt)
    · exact (live.sound.invalidate (next nextAt)).invalidate (current currentAt)
  apply live.congr sound <;> simp

/-- Who is about to access a keypair has a reference on it, or a pointer that keeps it.  So
the one case of `Transition` that faults does not arise. -/
theorem not_gone (live : Live s) (touched : s.Touches k) : s.memory k ≠ none := by
  obtain ⟨i, pointer | key⟩ | ⟨j, pointer⟩ | worker := touched
  · obtain ⟨kp, found, -⟩ := live.sound.guarded (some (.inl i)) k pointer
    simp [found]
  · obtain ⟨kp, found, -⟩ := live.sound.exists_keypair (mem_of_sender key)
    simp [found]
  · obtain ⟨kp, found, -⟩ := live.sound.guarded (some (.inr j)) k pointer
    simp [found]
  · have placed := live.placed
    rw [Placed, worker] at placed
    have mem : k ∈ s.slots := by
      obtain next | ⟨current, -⟩ := placed
      · simp [State.slots, next]
      · simp [State.slots, State.owner, worker, current]
    obtain ⟨kp, found, -⟩ := live.exists_of_slots mem
    simp [found]

end Live

/-- An orderly read of the current slot finds a keypair with a reference. -/
theorem Orderly.current {i : Fin n} {a : SendAction} (orderly : Orderly s (.send i a))
    (reads : a = .deref ∨ a = .keepFresh) (current : s.current = some k) :
    ∃ kp, s.memory k = some kp ∧ kp.refcount ≠ 0 := by
  obtain rfl | rfl := reads <;> simpa [Orderly, current, Option.any_eq_true] using orderly

/-- **The invariant is kept** by every orderly step, one case for each kind of access.  The
order of events is used at `clear` and at the two reads of the current slot only. -/
theorem Live.step (live : Live s) (orderly : Orderly s a) (move : Transition s a s') :
    Live s' := by
  cases move with
  | fault touched gone => exact absurd gone (live.not_gone touched)
  | stealNone => exact live
  | xmit | keepalive | purge => exact live.logs _ _ _ _
  | @steal i pc =>
      have stolen := live.logs [] s.dropped s.arrived s.received
      refine stolen.sender ?_ ?_ <;> simp [pc, SendPc.key, SendPc.pointer]
  | @restage i packets pc =>
      have staged := live.logs (packets ++ s.staged) s.dropped s.arrived s.received
      refine staged.sender ?_ ?_ <;> simp [pc, SendPc.key, SendPc.pointer]
  | @derefNone i _ pc | @valid i _ _ _ pc | @notValid i _ _ pc | @expired i _ _ pc
  | @notExpired i _ _ pc =>
      refine live.sender ?_ ?_ <;> simp [pc, SendPc.key, SendPc.pointer]
  | @deref i packets k pc current =>
      refine live.sender (by simp [pc, SendPc.key]) ?_
      rintro k' ⟨⟩
      exact orderly.current (.inl rfl) current
  | @keepFresh i k pc current =>
      refine live.sender (by simp [pc, SendPc.key]) ?_
      rintro k' ⟨⟩
      exact orderly.current (.inr rfl) current
  | @getFailed i _ _ pc | @readFresh i _ pc =>
      refine Live.leave (live.sender ?_ ?_) ?_ <;>
        simp [pc, SendPc.key, SendPc.pointer, State.pointer, State.sender]
  | get pc found => exact live.get pc found
  | @reject i _ _ _ _ _ pc found | @assign i _ _ _ _ _ pc found =>
      refine Live.sender (live.store found ?_) ?_ ?_ <;>
        simp [pc, SendPc.key, SendPc.pointer, State.store]
  | submit pc => exact live.submit pc _
  | @refuse i done k pc =>
      have logged := live.logs s.staged (s.dropped ++ done.map Prod.fst) s.arrived s.received
      exact logged.put (by simp [pc, SendPc.key]) rfl rfl
  | @markInvalid i packets k pc =>
      refine (live.invalidate (mem_of_sender (i := i) ?_)).sender ?_ ?_ <;>
        simp [pc, SendPc.key, SendPc.pointer]
  | @putKey i packets k pc => exact live.put (by simp [pc, SendPc.key]) rfl rfl
  | transmit first => exact live.transmit first _ _
  | dead first => exact live.transmit first _ _
  | @lookup j k pc hashed =>
      refine live.receiver (by simp [pc, ReceivePc.key]) ?_
      rintro k' ⟨⟩
      exact live.exists_of_slots (live.sound.indexed k hashed)
  | @getFoundFailed j _ pc =>
      refine Live.leave (live.receiver ?_ ?_) ?_ <;>
        simp [pc, ReceivePc.key, ReceivePc.pointer, State.pointer, State.receiver]
  | getFound pc found => exact live.getFound pc found
  | @authentic j k pc' pc on =>
      have logged := live.logs s.staged s.dropped s.arrived (k :: s.received)
      refine logged.receiver ?_ ?_ <;>
        obtain rfl | rfl := on <;> simp [pc, ReceivePc.key, ReceivePc.pointer]
  | @notAuthentic j _ pc | @overtaken j _ pc =>
      refine live.receiver ?_ ?_ <;> simp [pc, ReceivePc.key, ReceivePc.pointer]
  | @confirm j k pc unlocked next =>
      refine Live.receiver (live.slide unlocked next) ?_ ?_ <;>
        simp [pc, ReceivePc.key, ReceivePc.pointer]
  | release pc => exact live.release pc
  | beginSession idle => exact live.beginSession idle _
  | publish pc => exact live.publish pc
  | replace pc => exact live.replace pc _
  | expire unlocked => exact live.expire unlocked
  | clear => exact live.clear orderly
  | reclaim found zero grace =>
      exact live.congr (live.sound.reclaim found zero grace) rfl rfl rfl rfl rfl rfl rfl

/-- **No use after free.**  In every orderly run, whatever the interleaving, no keypair is
accessed after it was freed and no count is put below zero; the count of every keypair is the
number of references on it. -/
theorem no_fault (reach : Machine.Reach step Orderly (State.init n m) s) :
    s.fault = false ∧ ∀ k, s.count k = s.held.count k := by
  have live : Live s := reach.invariant (live_init n m) fun _ _ _ _ live orderly taken =>
    live.step orderly (step_transition taken)
  exact ⟨live.sound.fault, live.sound.counted⟩

/-- A packet holds the last reference on a keypair that was cleared from its slot. -/
theorem no_fault_run : ∃ s : State 0 1,
    Machine.Reach step Orderly (State.init 0 1) s ∧
      (s.receivers 0 = .holding 0 ∧ s.table 0 = false ∧ s.count 0 = 1) ∧
      s.fault = false ∧ ∀ k, s.count k = s.held.count k := by
  obtain ⟨s, reach, last⟩ : ∃ s : State 0 1, Machine.Reach step Orderly (State.init 0 1) s ∧
      s.receivers 0 = .holding 0 ∧ s.table 0 = false ∧ s.count 0 = 1 :=
    Machine.exists_reach_of_exec
      [.beginSession false, .replace true, .receive 0 (.lookup 0), .receive 0 .get, .clear]
      (by decide)
  exact ⟨s, reach, last, no_fault reach⟩

/-- The slots are cleared before the new keypair goes to the index table: its entry is left there
when it is freed, and the next packet finds it. -/
theorem fault_of_clear : ∃ s : State 0 1,
    Machine.Reach step (fun s a => a = .clear ∨ Orderly s a) (State.init 0 1) s ∧
      s.fault = true :=
  Machine.exists_reach_of_exec
    [.beginSession false, .clear, .replace true, .reclaim 0, .receive 0 (.lookup 0),
      .receive 0 .get] (by decide)

/-- `add_new_keypair` puts the current keypair while the slot still points to it: a call that
reads the slot then is not among the readers that `call_rcu` waits for. -/
theorem fault_of_early_put : ∃ s : State 1 0,
    Machine.Reach step (fun s a => a = .send 0 .deref ∨ Orderly s a) (State.init 1 0) s ∧
      s.fault = true :=
  Machine.exists_reach_of_exec
    [.beginSession true, .publish, .replace true, .beginSession false, .replace true,
      .beginSession true, .xmit [7], .send 0 .steal, .send 0 .deref, .publish, .replace true,
      .reclaim 0, .send 0 .get] (by decide)

end Session
end WgReceivePath
