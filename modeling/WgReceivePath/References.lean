import WgReceivePath.Delivery
import WgReceivePath.Lib.Sums
import Mathlib.Algebra.BigOperators.Group.Finset.Piecewise

/-!
# Reference counts

A packet of a peer holds one reference on the peer from its lookup on and one on its keypair
from `wg_noise_keypair_get` on, until its producer gives up on it or the poll is through
with it; a call of `wg_queue_enqueue_per_peer_rx` holds one more on the peer, and so does a
poll that has the peer from `wg_allowedips_lookup_src`.

## Main result

`references_conserved` : in every run each count is the sum of what is held, each packet
takes each reference at most once, and a packet that has come to its end has put what it
took.  The reference of the routed peer is a term of its own: without it the sum is off by
one while a poll delivers (`routed_reference_uncounted`).

## What carries the proof

`PacketRefs` says what a packet holds at each point of its life, as a function of its
producer's program point and of whether its poll has let go of it (`Released`).  A packet is
in the hands of a poll between the drop and the puts; that it was dropped from one queue
only, and once, is `QueueOk.order`.  `PeerSum` and `KeypairSum` say that the counters are
sums of weights, one weight for each packet and each poll, and a step changes one weight and
the counter by the same amount (`PeerSum.change`, from `Finset.counter_change`).  Where a
counter goes down, the weight that is given up bounds it from below, so that the truncated
subtraction of the model is the real one.
-/

namespace WgReceivePath

open Function (update update_self update_of_ne)
open Finset (range sum_change counter_change le_counter)

variable {cfg : Config} {s s' : State} {x : Skb} {p : Peer}

/-! ## What a packet holds

The references of a packet follow from where its producer stands and whether the poll is
through with it.  Each is taken once and put once, and the history records both. -/

/-- The packet that the poll has dropped and whose reference on the peer it has still to
release.  The poll puts the keypair first, so that there is a point at which only this one
is left. -/
def PollPc.inHand : PollPc → Option Skb
  | .validate x | .endpoint x | .consume x | .routedPut _ x | .keypairPut x => some x
  | .peerPut x => some x
  | _ => none

/-- The packet whose reference on the keypair the poll has still to release. -/
def PollPc.keyInHand : PollPc → Option Skb
  | .validate x | .endpoint x | .consume x | .routedPut _ x | .keypairPut x => some x
  | _ => none

/-- The packet was dropped by its poll, and is no longer in its hands. -/
def Released (hand : PollPc → Option Skb) (poll : Peer → PollFrame)
    (dropped : Peer → List Skb) (x : Skb) : Prop :=
  ∃ p, x ∈ dropped p ∧ hand (poll p).pc ≠ some x

/-- The references of one packet, by where it stands.  `put` and `keyPut` say that the poll
has released those on the peer and on the keypair; before that the producer may have, on one
of its error paths. -/
structure PacketRefs (prod : ProdPc) (keypair : Option Keypair)
    (gets puts keyGets keyPuts : ℕ) (put keyPut : Prop) : Prop where
  unknown : prod = .fresh ∨ prod = .lookup → keypair = none
  peerGets : gets = if keypair.isSome then 1 else 0
  peerHeld : prod ≠ .freed → ¬ put → puts = 0
  peerPut : prod = .freed ∨ put → puts = gets
  keyEarly : prod = .fresh ∨ prod = .lookup ∨ prod = .keypairGet → keyGets = 0 ∧ keyPuts = 0
  keyFound : prod.found = true → keyGets = 1
  keyHeld : prod.found = true → ¬ keyPut → keyPuts = 0
  keyEnded : prod = .errPeerPut ∨ prod = .freed ∨ keyPut → keyPuts = keyGets ∧ keyGets ≤ 1

/-- What all packets hold, together with the fact that a packet in a poll's hands is one
that it has dropped. -/
structure RefData (prod : Skb → ProdPc) (keypair : Skb → Option Keypair)
    (poll : Peer → PollFrame) (dropped : Peer → List Skb)
    (peerGets peerPuts keypairGets keypairPuts : Skb → ℕ) : Prop where
  hand : ∀ p x, (poll p).pc.inHand = some x → x ∈ dropped p
  packet : ∀ x, PacketRefs (prod x) (keypair x) (peerGets x) (peerPuts x) (keypairGets x)
    (keypairPuts x) (Released PollPc.inHand poll dropped x)
    (Released PollPc.keyInHand poll dropped x)

/-- `RefData` of a state. -/
abbrev Held (s : State) : Prop :=
  RefData s.prod s.keypair s.poll s.hist.dropped s.hist.peerGets s.hist.peerPuts
    s.hist.keypairGets s.hist.keypairPuts

/-- The poll moves on with the same packet in its hands. -/
theorem released_setPoll {hand : PollPc → Option Skb} {poll : Peer → PollFrame}
    {dropped : Peer → List Skb} {f : PollFrame} (same : hand f.pc = hand (poll p).pc) :
    Released hand (update poll p f) dropped x ↔ Released hand poll dropped x := by
  have (p' : Peer) : hand (update poll p f p').pc = hand (poll p').pc := by
    rcases eq_or_ne p' p with rfl | ne
    · simpa using same
    · simp [ne]
  simp [Released, this]

/-- The poll lets go of the packet in its hands. -/
theorem released_put {hand : PollPc → Option Skb} {poll : Peer → PollFrame}
    {dropped : Peer → List Skb} {f : PollFrame} {y : Skb} (mem : x ∈ dropped p)
    (before : hand (poll p).pc = some x) (after : hand f.pc = none) :
    Released hand (update poll p f) dropped y ↔ y = x ∨ Released hand poll dropped y := by
  constructor
  · rintro ⟨p', memy, free⟩
    rcases eq_or_ne p' p with rfl | ne
    · by_cases same : y = x
      · exact .inl same
      · exact .inr ⟨p', memy, by simpa [before] using Ne.symm same⟩
    · exact .inr ⟨p', memy, by simpa [ne] using free⟩
  · rintro (rfl | ⟨p', memy, free⟩)
    · exact ⟨p, mem, by simp [after]⟩
    · rcases eq_or_ne p' p with rfl | ne
      · exact ⟨p', memy, by simp [after]⟩
      · exact ⟨p', memy, by simpa [ne] using free⟩

/-- The poll drops a packet and takes it into its hands. -/
theorem released_drop {hand : PollPc → Option Skb} {poll : Peer → PollFrame}
    {dropped : Peer → List Skb} {f : PollFrame} {y : Skb} (fresh : ∀ p', x ∉ dropped p')
    (before : hand (poll p).pc = none) (after : hand f.pc = some x) :
    Released hand (update poll p f) (update dropped p (dropped p ++ [x])) y ↔
      Released hand poll dropped y := by
  constructor
  · rintro ⟨p', memy, free⟩
    rcases eq_or_ne p' p with rfl | ne
    · simp only [update_self, List.mem_append, List.mem_singleton, after] at memy free
      rcases memy with memy | rfl
      · exact ⟨p', memy, by simp [before]⟩
      · exact absurd rfl free
    · exact ⟨p', by simpa [ne] using memy, by simpa [ne] using free⟩
  · rintro ⟨p', memy, free⟩
    rcases eq_or_ne p' p with rfl | ne
    · refine ⟨p', by simp [memy], ?_⟩
      rw [update_self, after]
      rintro ⟨⟩
      exact fresh p' memy
    · exact ⟨p', by simpa [ne] using memy, by simpa [ne] using free⟩

/-- A packet that was not exchanged into its queue has not been dropped from it. -/
theorem not_released {hand : PollPc → Option Skb} (queues : Queues cfg s)
    (early : (s.prod x).queued = false) (outside : s.prod x ≠ .enqueue) :
    ¬ Released hand s.poll s.hist.dropped x := by
  rintro ⟨p, mem, -⟩
  rcases ((queues.mem p x).mp (mem_exchanged_of_mem_dropped queues mem)).2 with
    queued | ⟨prev, link⟩
  · simp [early] at queued
  · exact outside ((queues.enq p x).mp (by simp [link])).1

section Packet

variable {prod prod' : ProdPc} {keypair : Option Keypair} {gets puts keyGets keyPuts : ℕ}
  {put keyPut : Prop}

/-- Between `wg_noise_keypair_get` and the end of the producer nothing changes. -/
theorem PacketRefs.found (h : PacketRefs prod keypair gets puts keyGets keyPuts put keyPut)
    (before : prod.found = true) (after : prod'.found = true) :
    PacketRefs prod' keypair gets puts keyGets keyPuts put keyPut := by
  have early : ∀ {pc : ProdPc}, pc.found = true → pc ≠ .fresh ∧ pc ≠ .lookup ∧
      pc ≠ .keypairGet ∧ pc ≠ .errPeerPut ∧ pc ≠ .freed := by
    intro pc found
    cases pc <;> simp_all [ProdPc.found]
  obtain ⟨fresh, lookup, get, err, freed⟩ := early after
  obtain ⟨-, -, -, -, freed'⟩ := early before
  refine ⟨by simp [fresh, lookup], h.peerGets, fun _ => h.peerHeld freed', ?_,
    by simp [fresh, lookup, get], fun _ => h.keyFound before, fun _ => h.keyHeld before, ?_⟩
  · rintro (ended | put)
    · exact absurd ended freed
    · exact h.peerPut (.inr put)
  · rintro (ended | ended | put)
    · exact absurd ended err
    · exact absurd ended freed
    · exact h.keyEnded (.inr (.inr put))

/-- The packet arrives. -/
theorem PacketRefs.arrive (h : PacketRefs .fresh keypair gets puts keyGets keyPuts put keyPut) :
    PacketRefs .lookup keypair gets puts keyGets keyPuts put keyPut :=
  ⟨fun _ => h.unknown (.inl rfl), h.peerGets, fun _ => h.peerHeld (by simp),
    fun ended => h.peerPut (by simpa using ended), fun _ => h.keyEarly (.inl rfl),
    by simp [ProdPc.found], by simp [ProdPc.found],
    fun ended => h.keyEnded (by simpa using ended)⟩

/-- `wg_index_hashtable_lookup`. -/
theorem PacketRefs.lookup (h : PacketRefs .lookup keypair gets puts keyGets keyPuts put keyPut)
    (fresh : ¬ put) (keyFresh : ¬ keyPut) (key : Option Keypair) :
    PacketRefs .keypairGet key (gets + if key.isSome then 1 else 0) puts keyGets keyPuts put
      keyPut := by
  have none := h.unknown (.inr rfl)
  have gets := h.peerGets
  refine ⟨by simp, by simp [gets, none], fun _ => h.peerHeld (by simp), by simp [fresh],
    fun _ => h.keyEarly (by simp), by simp [ProdPc.found], by simp [ProdPc.found],
    by simp [keyFresh]⟩

/-- `wg_noise_keypair_get` fails. -/
theorem PacketRefs.keypairMiss
    (h : PacketRefs .keypairGet keypair gets puts keyGets keyPuts put keyPut)
    (fresh : ¬ put) : PacketRefs .errPeerPut keypair gets puts keyGets keyPuts put keyPut := by
  obtain ⟨zero, zero'⟩ := h.keyEarly (by simp)
  exact ⟨by simp, h.peerGets, fun _ => h.peerHeld (by simp), by simp [fresh], by simp,
    by simp [ProdPc.found], by simp [ProdPc.found], fun _ => by simp [zero, zero']⟩

/-- `wg_noise_keypair_get` succeeds. -/
theorem PacketRefs.keypairHit
    (h : PacketRefs .keypairGet keypair gets puts keyGets keyPuts put keyPut)
    (fresh : ¬ put) (keyFresh : ¬ keyPut) :
    PacketRefs .checkDead keypair gets puts (keyGets + 1) keyPuts put keyPut := by
  obtain ⟨zero, zero'⟩ := h.keyEarly (by simp)
  exact ⟨by simp, h.peerGets, fun _ => h.peerHeld (by simp), by simp [fresh], by simp,
    fun _ => by simp [zero], fun _ _ => zero', by simp [keyFresh]⟩

/-- The producer gives up on the packet: `err`. -/
theorem PacketRefs.errKeypairPut
    (h : PacketRefs .errKeypairPut keypair gets puts keyGets keyPuts put keyPut)
    (fresh : ¬ put) (keyFresh : ¬ keyPut) :
    PacketRefs .errPeerPut keypair gets puts keyGets (keyPuts + 1) put keyPut := by
  have one := h.keyFound rfl
  have zero := h.keyHeld rfl keyFresh
  exact ⟨by simp, h.peerGets, fun _ => h.peerHeld (by simp), by simp [fresh], by simp,
    by simp [ProdPc.found], by simp [ProdPc.found], fun _ => by simp [one, zero]⟩

/-- The producer gives up on the packet: `err_keypair`. -/
theorem PacketRefs.errPeerPut
    (h : PacketRefs .errPeerPut keypair gets puts keyGets keyPuts put keyPut)
    (fresh : ¬ put) : PacketRefs .freed keypair gets (puts + if keypair.isSome then 1 else 0)
      keyGets keyPuts put keyPut := by
  have zero := h.peerHeld (by simp) fresh
  have ended := h.keyEnded (.inl rfl)
  exact ⟨by simp, h.peerGets, by simp, fun _ => by rw [zero, h.peerGets, zero_add], by simp,
    by simp [ProdPc.found], by simp [ProdPc.found], fun _ => ended⟩

end Packet

/-- One packet changes in the hands of its producer. -/
theorem RefData.change {prod : ProdPc} {keypair : Option Keypair}
    {gets puts keyGets keyPuts : ℕ} (h : Held s) (x : Skb)
    (self : PacketRefs prod keypair gets puts keyGets keyPuts
      (Released PollPc.inHand s.poll s.hist.dropped x)
      (Released PollPc.keyInHand s.poll s.hist.dropped x)) :
    RefData (update s.prod x prod) (update s.keypair x keypair) s.poll s.hist.dropped
      (update s.hist.peerGets x gets) (update s.hist.peerPuts x puts)
      (update s.hist.keypairGets x keyGets) (update s.hist.keypairPuts x keyPuts) := by
  refine ⟨h.hand, fun y => ?_⟩
  rcases eq_or_ne y x with rfl | ne
  · simpa only [update_self] using self
  · simpa only [update_of_ne ne] using h.packet y

/-- The producer moves on between `wg_noise_keypair_get` and its end. -/
theorem RefData.setProd (h : Held s) (x : Skb) (pc : ProdPc)
    (before : (s.prod x).found = true) (after : pc.found = true) :
    RefData (update s.prod x pc) s.keypair s.poll s.hist.dropped s.hist.peerGets
      s.hist.peerPuts s.hist.keypairGets s.hist.keypairPuts := by
  simpa using h.change x ((h.packet x).found before after)

/-- The steps of a producer: a lookup takes a reference, and a packet that is given up puts
what it has. -/
theorem RefData.producer (h : Held s) (queues : Queues cfg s)
    (move : ProducerStep cfg s x s') : Held s' := by
  have packet := h.packet x
  have fresh : ∀ hand : PollPc → Option Skb, (s.prod x).queued = false →
      s.prod x ≠ .enqueue → ¬ Released hand s.poll s.hist.dropped x :=
    fun _ => not_released queues
  cases move with
  | lookupMiss pc =>
      rw [pc] at packet fresh
      simpa using h.change x (packet.lookup (fresh _ rfl (by simp)) (fresh _ rfl (by simp)) none)
  | lookupHit k pc counted =>
      rw [pc] at packet fresh
      simpa using h.change x
        (packet.lookup (fresh _ rfl (by simp)) (fresh _ rfl (by simp)) (some k))
  | keypairNull pc missing =>
      rw [pc] at packet fresh
      simpa using h.change x (packet.keypairMiss (fresh _ rfl (by simp)))
  | keypairGone k pc found zero =>
      rw [pc] at packet fresh
      simpa using h.change x (packet.keypairMiss (fresh _ rfl (by simp)))
  | keypairHit k pc found counted =>
      rw [pc] at packet fresh
      simpa using h.change x
        (packet.keypairHit (fresh _ rfl (by simp)) (fresh _ rfl (by simp)))
  | errKeypairPut k pc found =>
      rw [pc] at packet fresh
      simpa using h.change x
        (packet.errKeypairPut (fresh _ rfl (by simp)) (fresh _ rfl (by simp)))
  | errPeerPut k pc found =>
      rw [pc] at packet fresh
      have some : (s.keypair x).isSome = true := by simp [found]
      simpa [some] using h.change x (packet.errPeerPut (fresh _ rfl (by simp)))
  | errPeerNull pc missing =>
      rw [pc] at packet fresh
      have none : (s.keypair x).isSome = false := by simp [missing]
      simpa [none] using h.change x (packet.errPeerPut (fresh _ rfl (by simp)))
  | enqClear k q pc found enq taken => exact h
  | enqXchg k q pc found enq taken => exact h
  | peerDead k pc found dead => exact h.setProd x _ (by simp [pc, ProdPc.found]) rfl
  | peerAlive k pc found alive => exact h.setProd x _ (by simp [pc, ProdPc.found]) rfl
  | initState k pc found => exact h.setProd x _ (by simp [pc, ProdPc.found]) rfl
  | reject k pc found full => exact h.setProd x _ (by simp [pc, ProdPc.found]) rfl
  | accept k q pc found room => exact h.setProd x _ (by simp [pc, ProdPc.found]) rfl
  | enqLink k q prev pc found enq taken => exact h.setProd x _ (by simp [pc, ProdPc.found]) rfl
  | nextCpu k pc found => exact h.setProd x _ (by simp [pc, ProdPc.found]) rfl
  | storeCpu k c pc found => exact h.setProd x _ (by simp [pc, ProdPc.found]) rfl
  | produce k c pc found room => exact h.setProd x _ (by simp [pc, ProdPc.found]) rfl
  | ringFull k c pc found full => exact h.setProd x _ (by simp [pc, ProdPc.found]) rfl
  | queueWork k c pc found => exact h.setProd x _ (by simp [pc, ProdPc.found]) rfl
  | completed k pc found returned => exact h.setProd x _ (by simp [pc, ProdPc.found]) rfl

theorem PollMove.inHand {f : PollFrame} (own : PollMove cfg s p f) :
    f.pc.inHand = (s.poll p).pc.inHand ∧ f.pc.keyInHand = (s.poll p).pc.keyInHand := by
  cases own with
  | readState site x pc =>
      cases site <;> simp only [afterRead] <;> (try split) <;>
        simp [pc, PollPc.inHand, PollPc.keyInHand]
  | endpoint x pc =>
      dsimp only
      split <;> simp [pc, PollPc.inHand, PollPc.keyInHand]
  | _ => simp_all [PollPc.inHand, PollPc.keyInHand]

theorem afterPeek_inHand (site : PeekSite) (head : Option Skb) :
    (afterPeek site head).inHand = none ∧ (afterPeek site head).keyInHand = none := by
  cases site <;> cases head <;> simp [afterPeek, PollPc.inHand, PollPc.keyInHand]

/-- The poll moves on with the same packet in its hands. -/
theorem RefData.setPoll {f : PollFrame} (h : Held s)
    (same : f.pc.inHand = (s.poll p).pc.inHand ∧ f.pc.keyInHand = (s.poll p).pc.keyInHand) :
    RefData s.prod s.keypair (update s.poll p f) s.hist.dropped s.hist.peerGets
      s.hist.peerPuts s.hist.keypairGets s.hist.keypairPuts := by
  refine ⟨fun p' y hand => ?_, fun y => ?_⟩
  · rcases eq_or_ne p' p with rfl | ne
    · exact h.hand p' y (by simpa [same.1] using hand)
    · exact h.hand p' y (by simpa [ne] using hand)
  · rw [released_setPoll same.1, released_setPoll same.2]
    exact h.packet y

theorem PacketRefs.release {prod : ProdPc} {keypair : Option Keypair}
    {gets puts keyGets keyPuts : ℕ} {put keyPut : Prop}
    (h : PacketRefs prod keypair gets puts keyGets keyPuts put keyPut)
    (found : prod.found = true) (some : keypair.isSome = true) (held : ¬ put) :
    PacketRefs prod keypair gets (puts + 1) keyGets keyPuts True keyPut := by
  have freed : prod ≠ .freed := by
    rintro rfl
    simp [ProdPc.found] at found
  refine ⟨h.unknown, h.peerGets, by simp, fun _ => ?_, h.keyEarly, h.keyFound, h.keyHeld,
    h.keyEnded⟩
  rw [h.peerHeld freed held, h.peerGets, if_pos some]

theorem PacketRefs.keyRelease {prod : ProdPc} {keypair : Option Keypair}
    {gets puts keyGets keyPuts : ℕ} {put keyPut : Prop}
    (h : PacketRefs prod keypair gets puts keyGets keyPuts put keyPut)
    (found : prod.found = true) (held : ¬ keyPut) :
    PacketRefs prod keypair gets puts keyGets (keyPuts + 1) put True := by
  refine ⟨h.unknown, h.peerGets, h.peerHeld, h.peerPut, ?_, h.keyFound, by simp, fun _ => ?_⟩
  · rintro (rfl | rfl | rfl) <;> simp [ProdPc.found] at found
  · simp [h.keyHeld found held, h.keyFound found]

/-- A dropped packet has its keypair, and is not released while the poll of its queue
has it in its hands. -/
theorem dropped_held {hand : PollPc → Option Skb} (queues : Queues cfg s)
    (mem : x ∈ s.hist.dropped p) (own : hand (s.poll p).pc = some x) :
    (s.prod x).found = true ∧ (s.keypair x).isSome = true ∧
      ¬ Released hand s.poll s.hist.dropped x := by
  have exchanged := mem_exchanged_of_mem_dropped queues mem
  obtain ⟨peer, queued⟩ := (queues.mem p x).mp exchanged
  refine ⟨?_, ?_, ?_⟩
  · rcases queued with queued | ⟨prev, link⟩
    · cases pc : s.prod x <;> simp_all [ProdPc.queued, ProdPc.found]
    · have pc := ((queues.enq p x).mp (by simp [link])).1
      simp [pc, ProdPc.found]
  · cases key : s.keypair x <;> simp_all
  · rintro ⟨p', mem', free⟩
    obtain rfl := exchanged_unique queues exchanged (mem_exchanged_of_mem_dropped queues mem')
    exact free own

/-- The packet that a poll is about to drop has not been dropped from any queue. -/
theorem not_dropped_of_cached (queues : Queues cfg s)
    (cached : (s.rxQueue p).peeked = some x) (p' : Peer) : x ∉ s.hist.dropped p' := by
  intro mem
  obtain ⟨order, represents⟩ := queues.represents p
  obtain ⟨-, rest, cons⟩ := represents.peeked_eq_some cached
  have exchanged : x ∈ s.hist.exchanged p := by
    rw [order, cons]
    simp
  obtain rfl := exchanged_unique queues exchanged (mem_exchanged_of_mem_dropped queues mem)
  have nodup := queues.nodup p'
  rw [order, cons] at nodup
  exact (List.nodup_append.mp nodup).2.2 x mem x (by simp) rfl

/-- The poll drops the packet in its cache. -/
theorem RefData.drop {f : PollFrame} (h : Held s) (fresh : ∀ p', x ∉ s.hist.dropped p')
    (before : (s.poll p).pc.inHand = none ∧ (s.poll p).pc.keyInHand = none)
    (after : f.pc.inHand = some x ∧ f.pc.keyInHand = some x) :
    RefData s.prod s.keypair (update s.poll p f)
      (update s.hist.dropped p (s.hist.dropped p ++ [x])) s.hist.peerGets s.hist.peerPuts
      s.hist.keypairGets s.hist.keypairPuts := by
  refine ⟨fun p' y hand => ?_, fun y => ?_⟩
  · rcases eq_or_ne p' p with rfl | ne
    · have : y = x := by simpa [after.1, eq_comm] using hand
      simp [this]
    · simpa [ne] using h.hand p' y (by simpa [ne] using hand)
  · rw [released_drop fresh before.1 after.1, released_drop fresh before.2 after.2]
    exact h.packet y

/-- The poll puts the keypair of the packet in its hands. -/
theorem RefData.keypairPut {f : PollFrame} (h : Held s) (queues : Queues cfg s)
    (before : (s.poll p).pc.inHand = some x ∧ (s.poll p).pc.keyInHand = some x)
    (after : f.pc.inHand = some x ∧ f.pc.keyInHand = none) :
    RefData s.prod s.keypair (update s.poll p f) s.hist.dropped s.hist.peerGets s.hist.peerPuts
      s.hist.keypairGets (update s.hist.keypairPuts x (s.hist.keypairPuts x + 1)) := by
  have mem := h.hand p x before.1
  obtain ⟨found, -, held⟩ := dropped_held queues mem before.2
  have same : f.pc.inHand = (s.poll p).pc.inHand := after.1.trans before.1.symm
  refine ⟨fun p' y hand => ?_, fun y => ?_⟩
  · rcases eq_or_ne p' p with rfl | ne
    · exact h.hand p' y (by simpa [same] using hand)
    · exact h.hand p' y (by simpa [ne] using hand)
  · rw [released_setPoll same, released_put mem before.2 after.2]
    rcases eq_or_ne y x with rfl | ne
    · simpa using (h.packet y).keyRelease found held
    · simpa [ne] using h.packet y

/-- The poll puts the peer of the packet in its hands. -/
theorem RefData.peerPut {f : PollFrame} (h : Held s) (queues : Queues cfg s)
    (before : (s.poll p).pc.inHand = some x ∧ (s.poll p).pc.keyInHand = none)
    (after : f.pc.inHand = none ∧ f.pc.keyInHand = none) :
    RefData s.prod s.keypair (update s.poll p f) s.hist.dropped s.hist.peerGets
      (update s.hist.peerPuts x (s.hist.peerPuts x + 1)) s.hist.keypairGets
      s.hist.keypairPuts := by
  have mem := h.hand p x before.1
  obtain ⟨found, some, held⟩ := dropped_held queues mem before.1
  have same : f.pc.keyInHand = (s.poll p).pc.keyInHand := after.2.trans before.2.symm
  refine ⟨fun p' y hand => ?_, fun y => ?_⟩
  · rcases eq_or_ne p' p with rfl | ne
    · simp [after.1] at hand
    · exact h.hand p' y (by simpa [ne] using hand)
  · rw [released_setPoll same, released_put mem before.1 after.1]
    rcases eq_or_ne y x with rfl | ne
    · simpa using (h.packet y).release found some held
    · simpa [ne] using h.packet y

/-- The steps of a poll.  A packet in its hands still has its references, and they are put
one after the other. -/
theorem RefData.pollStep (h : Held s) (queues : Queues cfg s) (cached : Cached s)
    (move : PollStep cfg s p s') : Held s' := by
  cases move with
  | control f stats stall own => exact h.setPoll own.inHand
  | entry pc => exact h.setPoll (by simp [pc, PollPc.inHand, PollPc.keyInHand])
  | peekMore site pc running => exact h.setPoll (by simp [pc, PollPc.inHand, PollPc.keyInHand])
  | peekDone site head pc returned =>
      obtain ⟨hand, keyHand⟩ := afterPeek_inHand site head
      refine h.setPoll ⟨hand.trans ?_, keyHand.trans ?_⟩ <;> rw [pc] <;> rfl
  | drop x st pc =>
      have head := cached p x (by simp [pc, PollPc.head?])
      refine h.drop (not_dropped_of_cached queues head) (by rw [pc]; exact ⟨rfl, rfl⟩) ?_
      dsimp only
      split <;> exact ⟨rfl, rfl⟩
  | validate x k pc found =>
      refine h.setPoll ?_
      dsimp only
      split <;> simp [pc, PollPc.inHand, PollPc.keyInHand]
  | consume x k pc found => exact h.setPoll (by simp [pc, PollPc.inHand, PollPc.keyInHand])
  | consumeRouted x k r pc found counted =>
      exact h.setPoll (by simp [pc, PollPc.inHand, PollPc.keyInHand])
  | routedPut x k r pc found => exact h.setPoll (by simp [pc, PollPc.inHand, PollPc.keyInHand])
  | keypairPut x k pc found =>
      exact h.keypairPut queues (by rw [pc]; exact ⟨rfl, rfl⟩) ⟨rfl, rfl⟩
  | peerPut x k pc found =>
      refine h.peerPut queues (by rw [pc]; exact ⟨rfl, rfl⟩) ?_
      dsimp only
      split <;> exact ⟨rfl, rfl⟩
  | stealDry stats pc empty => exact h.setPoll (by simp [pc, PollPc.inHand, PollPc.keyInHand])
  | stealTake job rest pc head => exact h.setPoll (by simp [pc, PollPc.inHand, PollPc.keyInHand])
  | publishStore head pc => exact h.setPoll (by simp [pc, PollPc.inHand, PollPc.keyInHand])
  | recheckSet pc => exact h.setPoll (by simp [pc, PollPc.inHand, PollPc.keyInHand])
  | suppClear pc => exact h.setPoll (by simp [pc, PollPc.inHand, PollPc.keyInHand])
  | suppSet stats pc => exact h.setPoll (by simp [pc, PollPc.inHand, PollPc.keyInHand])
  | complete pc => exact h.setPoll (by simp [pc, PollPc.inHand, PollPc.keyInHand])

theorem RefData.step {a : Action} (h : Held s) (life : Life s) (queues : Queues cfg s)
    (cached : Cached s) (move : Transition cfg s a s') : Held s' := by
  cases move with
  | producer move => exact h.producer queues move
  | complete k found move => cases move <;> exact h
  | worker present move => cases move <;> exact h
  | poll present move => exact h.pollStep queues cached move
  | timer is move => cases move <;> exact h
  | remove present move => cases move <;> exact h
  | env move =>
      cases move with
      | receive =>
          have fresh := life.fresh s.nextSkb le_rfl
          have packet := h.packet s.nextSkb
          rw [fresh] at packet
          simpa using h.change s.nextSkb packet.arrive
      | _ => exact h

variable {knobs : Knobs} {ok : State → Action → Prop}

theorem held_init (knobs : Knobs) : Held (State.init knobs) := by
  refine ⟨by simp [State.init, PollFrame.idle, PollPc.inHand], fun x => ?_⟩
  constructor <;> simp [State.init, History.start, Released, ProdPc.found]

theorem Reachable.held (reach : Reachable cfg knobs ok s) : Held s :=
  reach.invariant (held_init knobs) fun _ _ _ reach h _ taken =>
    h.step (Reachable.life reach) (Reachable.queues reach) (Reachable.headCached reach)
      (step_cases taken)

/-! ## The counters are sums

A counter of the source is one number that many contexts change.  Here it is the sum of what
each packet and each poll holds, and a step that changes it changes one summand. -/

/-- Inside `wg_queue_enqueue_per_peer_rx`, from its `wg_peer_get` to its
`wg_peer_put`. -/
def RxPc.inside : RxPc → Bool
  | .unqueued | .ring | .decrypt | .get | .done => false
  | _ => true

/-- The references on `p` that a packet and its completion frame hold: one from the lookup
until it is put, and one while it is inside `wg_queue_enqueue_per_peer_rx`. -/
def peerWeight (cfg : Config) (key : Option Keypair) (gets puts : ℕ) (pc : RxPc)
    (p : Peer) : ℕ :=
  if key.map cfg.peer = some p then (gets - puts) + (if pc.inside then 1 else 0) else 0

/-- The reference on `p` that a poll holds from `wg_allowedips_lookup_src`. -/
def routedWeight (p : Peer) : PollPc → ℕ
  | .routedPut r _ => if r = p then 1 else 0
  | _ => 0

/-- The reference on a keypair that a packet holds. -/
def keypairWeight (key : Option Keypair) (gets puts : ℕ) (k : Keypair) : ℕ :=
  if key = some k then gets - puts else 0

/-- The base reference, which `wg_peer_remove` drops last. -/
def TearPc.base : TearPc → ℕ
  | .returned => 0
  | _ => 1

/-- Every peer's count is the sum of what is held: the base reference, what other parts of
the driver hold, the polls that route to the peer, and the packets. -/
def PeerSum (cfg : Config) (n : ℕ) (keypair : Skb → Option Keypair) (rx : Skb → RxFrame)
    (poll : Peer → PollFrame) (tear : Peer → TearPc) (gets puts : Skb → ℕ)
    (other ref : Peer → ℕ) : Prop :=
  ∀ p, ref p = (tear p).base + other p +
    ∑ p' ∈ range cfg.peers, routedWeight p (poll p').pc +
    ∑ x ∈ range n, peerWeight cfg (keypair x) (gets x) (puts x) (rx x).pc p

/-- Every keypair's count is the sum of what is held. -/
def KeypairSum (n : ℕ) (keypair : Skb → Option Keypair) (gets puts : Skb → ℕ)
    (other ref : Keypair → ℕ) : Prop :=
  ∀ k, ref k = other k + ∑ x ∈ range n, keypairWeight (keypair x) (gets x) (puts x) k

/-- `PeerSum` of a state. -/
abbrev PeerCounts (cfg : Config) (s : State) : Prop :=
  PeerSum cfg s.nextSkb s.keypair s.rx s.poll s.tear s.hist.peerGets s.hist.peerPuts
    s.peerOther s.peerRef

/-- `KeypairSum` of a state. -/
abbrev KeypairCounts (s : State) : Prop :=
  KeypairSum s.nextSkb s.keypair s.hist.keypairGets s.hist.keypairPuts s.keypairOther
    s.keypairRef

section Sums

variable {n : ℕ} {keypair keypair' : Skb → Option Keypair} {rx rx' : Skb → RxFrame}
  {poll poll' : Peer → PollFrame} {tear : Peer → TearPc} {gets gets' puts puts' : Skb → ℕ}
  {other ref ref' : Peer → ℕ}

/-- One packet changes, and the counts go along.  The balance is an equation between the old
and the new weight of the packet, for every peer, and needs no subtraction. -/
theorem PeerSum.change (h : PeerSum cfg n keypair rx poll tear gets puts other ref)
    (x : Skb) (born : x < n)
    (others : ∀ y, y ≠ x → keypair' y = keypair y ∧ rx' y = rx y ∧ gets' y = gets y ∧
      puts' y = puts y)
    (balance : ∀ p, ref' p + peerWeight cfg (keypair x) (gets x) (puts x) (rx x).pc p =
      ref p + peerWeight cfg (keypair' x) (gets' x) (puts' x) (rx' x).pc p) :
    PeerSum cfg n keypair' rx' poll tear gets' puts' other ref' := by
  intro p
  refine counter_change (Finset.mem_range.mpr born) (fun y ne => ?_) (h p) (balance p)
  obtain ⟨key, frame, get, put⟩ := others y ne
  rw [key, frame, get, put]

/-- One poll changes, and the counts go along. -/
theorem PeerSum.setPoll {f : PollFrame}
    (h : PeerSum cfg n keypair rx poll tear gets puts other ref) (present : p < cfg.peers)
    (balance : ∀ q, ref' q + routedWeight q (poll p).pc = ref q + routedWeight q f.pc) :
    PeerSum cfg n keypair rx (update poll p f) tear gets puts other ref' := by
  intro q
  have moved : ∑ p' ∈ range cfg.peers, routedWeight q (update poll p f p').pc +
      routedWeight q (poll p).pc =
        ∑ p' ∈ range cfg.peers, routedWeight q (poll p').pc + routedWeight q f.pc := by
    have := sum_change (g := fun p' => routedWeight q (update poll p f p').pc)
      (f := fun p' => routedWeight q (poll p').pc) (Finset.mem_range.mpr present)
      (fun p' ne => by simp [ne])
    simpa using this
  have counted := h q
  have := balance q
  omega

/-- A completion goes on inside or outside `wg_queue_enqueue_per_peer_rx`. -/
theorem PeerSum.setRx {f : RxFrame}
    (h : PeerSum cfg n keypair rx poll tear gets puts other ref) (x : Skb)
    (same : f.pc.inside = (rx x).pc.inside) :
    PeerSum cfg n keypair (update rx x f) poll tear gets puts other ref := by
  have weight (y : Skb) (p : Peer) :
      peerWeight cfg (keypair y) (gets y) (puts y) (update rx x f y).pc p =
        peerWeight cfg (keypair y) (gets y) (puts y) (rx y).pc p := by
    rcases eq_or_ne y x with rfl | ne
    · simp [peerWeight, same]
    · simp [ne]
  intro p
  simp only [weight]
  exact h p

theorem PeerSum.weight_le (h : PeerSum cfg n keypair rx poll tear gets puts other ref)
    (born : x < n) (p : Peer) :
    peerWeight cfg (keypair x) (gets x) (puts x) (rx x).pc p ≤ ref p :=
  le_counter (f := fun x => peerWeight cfg (keypair x) (gets x) (puts x) (rx x).pc p)
    (Finset.mem_range.mpr born) (h p)

theorem PeerSum.routedWeight_le (h : PeerSum cfg n keypair rx poll tear gets puts other ref)
    (present : p < cfg.peers) (r : Peer) : routedWeight r (poll p).pc ≤ ref r :=
  le_counter (f := fun p => routedWeight r (poll p).pc) (Finset.mem_range.mpr present)
    ((h r).trans (Nat.add_right_comm _ _ _))

theorem KeypairSum.weight_le {other ref : Keypair → ℕ}
    (h : KeypairSum n keypair gets puts other ref) (born : x < n) (k : Keypair) :
    keypairWeight (keypair x) (gets x) (puts x) k ≤ ref k :=
  le_counter (f := fun x => keypairWeight (keypair x) (gets x) (puts x) k)
    (Finset.mem_range.mpr born) (h k)

theorem KeypairSum.change {other ref ref' : Keypair → ℕ}
    (h : KeypairSum n keypair gets puts other ref) (x : Skb) (born : x < n)
    (others : ∀ y, y ≠ x → keypair' y = keypair y ∧ gets' y = gets y ∧ puts' y = puts y)
    (balance : ∀ k, ref' k + keypairWeight (keypair x) (gets x) (puts x) k =
      ref k + keypairWeight (keypair' x) (gets' x) (puts' x) k) :
    KeypairSum n keypair' gets' puts' other ref' := by
  intro k
  refine counter_change (Finset.mem_range.mpr born) (fun y ne => ?_) (h k) (balance k)
  obtain ⟨key, get, put⟩ := others y ne
  rw [key, get, put]

end Sums

/-- The count of the packet's peer changes as the packet's weight does, and no other
count does. -/
theorem peer_balance {ref : Peer → ℕ} {k : Keypair} {gets puts gets' puts' v : ℕ}
    {pc pc' : RxPc} (own : v + ((gets - puts) + if pc.inside then 1 else 0) =
      ref (cfg.peer k) + ((gets' - puts') + if pc'.inside then 1 else 0)) (p : Peer) :
    update ref (cfg.peer k) v p + peerWeight cfg (some k) gets puts pc p =
      ref p + peerWeight cfg (some k) gets' puts' pc' p := by
  rcases eq_or_ne p (cfg.peer k) with rfl | ne
  · simpa [peerWeight] using own
  · simp [peerWeight, ne, ne.symm]

/-- The steps of a producer change the weight of its packet, and the peer's counter with it.
-/
theorem PeerSum.producer (h : PeerCounts cfg s) (life : Life s) (held : Held s)
    (queues : Queues cfg s) (move : ProducerStep cfg s x s') : PeerCounts cfg s' := by
  have packet := held.packet x
  have unqueued := (life.packet x).unqueued_of
  cases move with
  | lookupMiss pc =>
      have none := packet.unknown (.inr pc)
      simpa [PeerCounts, ← none] using h
  | lookupHit k pc counted =>
      have none := packet.unknown (.inr pc)
      have zero := packet.peerGets
      have puts := packet.peerHeld (by simp [pc])
        (not_released queues (by simp [pc, ProdPc.queued]) (by simp [pc]))
      rw [none] at zero
      have free := unqueued (by simp [pc, ProdPc.produced])
      refine PeerSum.change h x (life.born (by simp [pc])) (fun y ne => by simp [ne]) fun p => ?_
      rcases eq_or_ne p (cfg.peer k) with rfl | ne
      · simp [peerWeight, none, zero, puts, free, RxPc.inside]
      · simp [peerWeight, none, ne, ne.symm]
  | errPeerPut k pc found =>
      have born := life.born (x := x) (by simp [pc])
      have one := packet.peerGets
      have puts := packet.peerHeld (by simp [pc])
        (not_released queues (by simp [pc, ProdPc.queued]) (by simp [pc]))
      have free := unqueued (by simp [pc, ProdPc.produced])
      have positive := PeerSum.weight_le h born (cfg.peer k)
      simp only [peerWeight, found, one, puts, free, RxPc.inside] at positive
      refine PeerSum.change h x born (fun y ne => by simp [ne]) fun p => ?_
      dsimp only
      rw [found, update_self, one, puts]
      refine peer_balance ?_ p
      simp [found, free, RxPc.inside] at positive ⊢
      omega
  | produce k c pc found room =>
      have free := unqueued (by simp [pc, ProdPc.produced])
      exact PeerSum.setRx h x (by simp [free, RxPc.inside])
  | ringFull k c pc found full =>
      have free := unqueued (by simp [pc, ProdPc.produced])
      exact PeerSum.setRx h x (by simp [free, RxPc.inside])
  | _ => exact h

/-- The steps of a completion: the reference of the call is taken before the store of the
verdict and put at the end. -/
theorem PeerSum.complete {k : Keypair} (h : PeerCounts cfg s) (life : Life s)
    (found : s.keypair x = some k) (move : RxStep cfg s x k s') : PeerCounts cfg s' := by
  have born : (s.rx x).pc ≠ .unqueued → x < s.nextSkb := by
    intro queued
    refine life.born fun fresh => queued ((life.packet x).unqueued_of ?_)
    simp [fresh, ProdPc.produced]
  cases move with
  | get pc =>
      refine PeerSum.change h x (born (by simp [pc])) (fun y ne => by simp [ne]) fun p => ?_
      dsimp only
      rw [found, update_self, pc]
      refine peer_balance ?_ p
      simp [RxPc.inside]
      omega
  | put pc =>
      have positive := PeerSum.weight_le h (born (by simp [pc])) (cfg.peer k)
      simp only [peerWeight, found, pc, RxPc.inside] at positive
      refine PeerSum.change h x (born (by simp [pc])) (fun y ne => by simp [ne]) fun p => ?_
      dsimp only
      rw [found, update_self, pc]
      refine peer_balance ?_ p
      simp [RxPc.inside] at positive ⊢
      omega
  | count pc next branch =>
      refine PeerSum.setRx h x ?_
      subst branch
      dsimp only
      split <;> simp [pc, RxPc.inside]
  | xchgArmed pc next branch =>
      refine PeerSum.setRx h x ?_
      subst branch
      dsimp only
      split <;> simp [pc, RxPc.inside]
  | _ => exact PeerSum.setRx h x (by simp_all [RxPc.inside])

theorem PollMove.routedWeight {f : PollFrame} (own : PollMove cfg s p f) (q : Peer) :
    routedWeight q f.pc = 0 ∧ routedWeight q (s.poll p).pc = 0 := by
  cases own with
  | readState site x pc =>
      cases site <;> simp only [afterRead] <;> (try split) <;>
        simp [pc, WgReceivePath.routedWeight]
  | endpoint x pc =>
      dsimp only
      split <;> simp [pc, WgReceivePath.routedWeight]
  | _ => simp_all [WgReceivePath.routedWeight]

theorem afterPeek_routedWeight (site : PeekSite) (head : Option Skb) (q : Peer) :
    routedWeight q (afterPeek site head) = 0 := by
  cases site <;> cases head <;> simp [afterPeek, routedWeight]

/-- The steps of a poll change the weight of the packet in hand, or that of the routed peer,
which may be another peer's counter. -/
theorem PeerSum.pollStep (h : PeerCounts cfg s) (life : Life s) (held : Held s)
    (queues : Queues cfg s) (present : p < cfg.peers) (move : PollStep cfg s p s') :
    PeerCounts cfg s' := by
  -- a step between points without a routed peer
  have quiet : ∀ f : PollFrame, (∀ q, routedWeight q (s.poll p).pc = 0) →
      (∀ q, routedWeight q f.pc = 0) →
      PeerSum cfg s.nextSkb s.keypair s.rx (update s.poll p f) s.tear s.hist.peerGets
        s.hist.peerPuts s.peerOther s.peerRef := fun f before after =>
    PeerSum.setPoll h present fun q => by rw [before, after]
  cases move with
  | control f stats stall own =>
      exact quiet f (fun q => (own.routedWeight q).2) fun q => (own.routedWeight q).1
  | entry pc => exact quiet _ (by simp [pc, routedWeight]) (by simp [routedWeight])
  | peekMore site pc running => exact quiet _ (by simp [pc, routedWeight]) (by simp [routedWeight])
  | peekDone site head pc returned =>
      exact quiet _ (by simp [pc, routedWeight]) (afterPeek_routedWeight site head)
  | drop x st pc =>
      refine quiet _ (by simp [pc, routedWeight]) fun q => ?_
      dsimp only
      split <;> rfl
  | validate x k pc found =>
      refine quiet _ (by simp [pc, routedWeight]) fun q => ?_
      dsimp only
      split <;> rfl
  | consume x k pc found => exact quiet _ (by simp [pc, routedWeight]) (by simp [routedWeight])
  | consumeRouted x k r pc found counted =>
      refine PeerSum.setPoll h present fun q => ?_
      rcases eq_or_ne q r with rfl | ne
      · simp [pc, routedWeight]
      · simp [pc, routedWeight, ne, ne.symm]
  | routedPut x k r pc found =>
      have positive := PeerSum.routedWeight_le h present r
      simp only [pc, routedWeight, if_true] at positive
      refine PeerSum.setPoll h present fun q => ?_
      rcases eq_or_ne q r with rfl | ne
      · simp only [pc, routedWeight, update_self, if_true]
        omega
      · simp [pc, routedWeight, ne, ne.symm]
  | keypairPut x k pc found => exact quiet _ (by simp [pc, routedWeight]) (by simp [routedWeight])
  | peerPut x k pc found =>
      have hand : (s.poll p).pc.inHand = some x := by rw [pc]; rfl
      have mem := held.hand p x hand
      have exchanged := mem_exchanged_of_mem_dropped queues mem
      have peer : cfg.peer k = p := by
        simpa [found] using ((queues.mem p x).mp exchanged).1
      obtain ⟨known, -, unreleased⟩ := dropped_held queues mem hand
      have freed : s.prod x ≠ .freed := fun ended => by simp [ended, ProdPc.found] at known
      have born := life.born (x := x) fun fresh => by simp [fresh, ProdPc.found] at known
      have packet := held.packet x
      have one := packet.peerGets
      have puts := packet.peerHeld freed unreleased
      have positive := PeerSum.weight_le h born p
      simp only [peerWeight, found, one, puts] at positive
      have moved := quiet
        { s.poll p with
          pc := if (s.poll p).workDone + 1 < cfg.budget then .peek .deliver else .stealGate
          workDone := (s.poll p).workDone + 1 }
        (by simp [pc, routedWeight]) (fun q => by dsimp only; split <;> rfl)
      refine PeerSum.change moved x born (fun y ne => by simp [ne]) fun q => ?_
      dsimp only
      rw [found, update_self, one, puts, ← peer]
      refine peer_balance ?_ q
      simp [found, peer] at positive ⊢
      omega
  | stealDry stats pc empty => exact quiet _ (by simp [pc, routedWeight]) (by simp [routedWeight])
  | stealTake job rest pc head =>
      have ring : (s.rx job).pc = .ring := (life.mem_ring job).mp (by simp [head])
      exact PeerSum.setRx (quiet _ (by simp [pc, routedWeight]) (by simp [routedWeight])) job
        (by simp [ring, RxPc.inside])
  | publishStore head pc => exact quiet _ (by simp [pc, routedWeight]) (by simp [routedWeight])
  | recheckSet pc => exact quiet _ (by simp [pc, routedWeight]) (by simp [routedWeight])
  | suppClear pc => exact quiet _ (by simp [pc, routedWeight]) (by simp [routedWeight])
  | suppSet stats pc => exact quiet _ (by simp [pc, routedWeight]) (by simp [routedWeight])
  | complete pc => exact quiet _ (by simp [pc, routedWeight]) (by simp [routedWeight])

/-- The removal of a peer goes on, with or without its base reference.  The reference of the
list is the one that `wg_peer_remove` puts at its end. -/
theorem PeerSum.remove (h : PeerCounts cfg s) (move : RemoveStep cfg s p s') :
    PeerCounts cfg s' := by
  -- a step that keeps the base reference
  have goto : ∀ pc : TearPc, pc.base = (s.tear p).base →
      PeerSum cfg s.nextSkb s.keypair s.rx s.poll (update s.tear p pc) s.hist.peerGets
        s.hist.peerPuts s.peerOther s.peerRef := by
    intro pc same q
    rcases eq_or_ne q p with rfl | ne
    · simpa [same] using h q
    · simpa [ne] using h q
  cases move with
  | finalPut pc =>
      intro q
      have counted := h q
      rcases eq_or_ne q p with rfl | ne
      · simp only [pc, TearPc.base] at counted
        simp only [update_self, TearPc.base, counted]
        omega
      · simpa [ne] using counted
  | flushed again target pc ended => exact goto _ (by cases again <;> simp [pc, TearPc.base])
  | makeDead pc => exact goto _ (by simp [pc, TearPc.base])
  | synchronize pc => exact goto _ (by simp [pc, TearPc.base])
  | synchronized n pc outside => exact goto _ (by simp [pc, TearPc.base])
  | clear pc => exact goto _ (by simp [pc, TearPc.base])
  | flush again pc => exact goto _ (by simp [pc, TearPc.base])
  | cancelTimer pc idle => exact goto _ (by simp [pc, TearPc.base])
  | disableNapi pc => exact goto _ (by simp [pc, TearPc.base])
  | disabled pc stopped => exact goto _ (by simp [pc, TearPc.base])

/-- The environment: a new packet holds nothing, and what other parts of the driver take and
put is a term of the sum. -/
theorem PeerSum.env {a : Action} (h : PeerCounts cfg s) (life : Life s) (held : Held s)
    (move : EnvStep s a s') : PeerCounts cfg s' := by
  cases move with
  | receive =>
      intro q
      have none := (held.packet s.nextSkb).unknown (.inl (life.fresh _ le_rfl))
      rw [Finset.sum_range_succ, none]
      simpa [peerWeight] using h q
  | peerGet p counted =>
      intro q
      have count := h q
      rcases eq_or_ne q p with rfl | ne
      · simp only [update_self]
        omega
      · simpa [ne] using count
  | peerPut p holds =>
      intro q
      have count := h q
      rcases eq_or_ne q p with rfl | ne
      · simp only [update_self]
        omega
      · simpa [ne] using count
  | _ => exact h

theorem PeerSum.step {a : Action} (h : PeerCounts cfg s) (life : Life s) (held : Held s)
    (queues : Queues cfg s) (move : Transition cfg s a s') : PeerCounts cfg s' := by
  cases move with
  | producer move => exact PeerSum.producer h life held queues move
  | complete k found move => exact PeerSum.complete h life found move
  | worker present move =>
      cases move with
      | take x rest pc head =>
          have ring : (s.rx x).pc = .ring := (life.mem_ring x).mp (by simp [head])
          exact PeerSum.setRx h x (by simp [ring, RxPc.inside])
      | _ => exact h
  | poll present move => exact PeerSum.pollStep h life held queues present move
  | timer is move => cases move <;> exact h
  | remove present move => exact PeerSum.remove h move
  | env move => exact PeerSum.env h life held move

theorem Reachable.peerCounts (reach : Reachable cfg knobs ok s) : PeerCounts cfg s := by
  refine reach.invariant (I := PeerCounts cfg) (fun p => ?_) fun _ _ _ reach h _ taken =>
    PeerSum.step h (Reachable.life reach) (Reachable.held reach) (Reachable.queues reach)
      (step_cases taken)
  simp [State.init, TearPc.base, PollFrame.idle, routedWeight]

/-! ### Keypairs -/

theorem keypair_balance {ref : Keypair → ℕ} {k : Keypair} {gets puts gets' puts' v : ℕ}
    (own : v + (gets - puts) = ref k + (gets' - puts')) (k' : Keypair) :
    update ref k v k' + keypairWeight (some k) gets puts k' =
      ref k' + keypairWeight (some k) gets' puts' k' := by
  rcases eq_or_ne k' k with rfl | ne
  · simpa [keypairWeight] using own
  · simp [keypairWeight, ne, ne.symm]

/-- The steps of a producer: the lookup of a keypair takes a reference, and a refused packet
puts it. -/
theorem KeypairSum.producer (h : KeypairCounts s) (life : Life s) (held : Held s)
    (queues : Queues cfg s) (move : ProducerStep cfg s x s') : KeypairCounts s' := by
  have packet := held.packet x
  cases move with
  | lookupMiss pc =>
      have none := packet.unknown (.inr pc)
      simpa [KeypairCounts, ← none] using h
  | lookupHit k pc counted =>
      obtain ⟨zero, zero'⟩ := packet.keyEarly (by simp [pc])
      refine KeypairSum.change h x (life.born (by simp [pc])) (fun y ne => by simp [ne]) ?_
      simp [keypairWeight, zero, zero']
  | keypairHit k pc found counted =>
      obtain ⟨zero, zero'⟩ := packet.keyEarly (by simp [pc])
      refine KeypairSum.change h x (life.born (by simp [pc])) (fun y ne => by simp [ne])
        fun k' => ?_
      dsimp only
      rw [found, update_self, zero, zero']
      exact keypair_balance (by omega) k'
  | errKeypairPut k pc found =>
      have born := life.born (x := x) (by simp [pc])
      have one := packet.keyFound (by simp [pc, ProdPc.found])
      have zero := packet.keyHeld (by simp [pc, ProdPc.found])
        (not_released queues (by simp [pc, ProdPc.queued]) (by simp [pc]))
      have positive := KeypairSum.weight_le h born k
      simp only [keypairWeight, found, one, zero, if_true] at positive
      refine KeypairSum.change h x born (fun y ne => by simp [ne]) fun k' => ?_
      dsimp only
      rw [found, update_self, one, zero]
      exact keypair_balance (by omega) k'
  | _ => exact h

theorem KeypairSum.pollStep (h : KeypairCounts s) (life : Life s) (held : Held s)
    (queues : Queues cfg s) (move : PollStep cfg s p s') : KeypairCounts s' := by
  cases move with
  | keypairPut x k pc found =>
      have hand : (s.poll p).pc.keyInHand = some x := by rw [pc]; rfl
      have mem := held.hand p x (by rw [pc]; rfl)
      obtain ⟨known, -, unreleased⟩ := dropped_held queues mem hand
      have born := life.born (x := x) fun fresh => by simp [fresh, ProdPc.found] at known
      have one := (held.packet x).keyFound known
      have zero := (held.packet x).keyHeld known unreleased
      have positive := KeypairSum.weight_le h born k
      simp only [keypairWeight, found, one, zero, if_true] at positive
      refine KeypairSum.change h x born (fun y ne => by simp [ne]) fun k' => ?_
      dsimp only
      rw [found, update_self, one, zero]
      exact keypair_balance (by omega) k'
  | _ => exact h

/-- The environment, for keypairs: a new packet holds nothing, and what other parts of the
driver take and put is a term of the sum. -/
theorem KeypairSum.env {a : Action} (h : KeypairCounts s) (life : Life s) (held : Held s)
    (move : EnvStep s a s') : KeypairCounts s' := by
  cases move with
  | receive =>
      intro k
      have none := (held.packet s.nextSkb).unknown (.inl (life.fresh _ le_rfl))
      rw [Finset.sum_range_succ, none]
      simpa [keypairWeight] using h k
  | keypairGet k counted =>
      intro k'
      have count := h k'
      rcases eq_or_ne k' k with rfl | ne
      · simp only [update_self]
        omega
      · simpa [ne] using count
  | keypairPut k holds =>
      intro k'
      have count := h k'
      rcases eq_or_ne k' k with rfl | ne
      · simp only [update_self]
        omega
      · simpa [ne] using count
  | _ => exact h

theorem Reachable.keypairCounts (reach : Reachable cfg knobs ok s) : KeypairCounts s := by
  refine reach.invariant (I := KeypairCounts) (fun k => ?_) fun s a s' reach h _ taken => ?_
  · simp [State.init]
  · have life := Reachable.life reach
    have held := Reachable.held reach
    have queues := Reachable.queues reach
    cases step_cases taken with
    | producer move => exact KeypairSum.producer h life held queues move
    | complete k found move => cases move <;> exact h
    | worker present move => cases move <;> exact h
    | poll present move => exact KeypairSum.pollStep h life held queues move
    | timer is move => cases move <;> exact h
    | remove present move => cases move <;> exact h
    | env move => exact KeypairSum.env h life held move

/-! ## Conservation

The sums, in words that do not mention program points: how many packets hold a reference,
how many calls are inside the enqueue, how many polls have a routed peer. -/

/-- The packets of `p` that were looked up and not yet released. -/
def packetsHolding (cfg : Config) (s : State) (p : Peer) : Finset Skb :=
  {x ∈ range s.nextSkb | s.peerOf cfg x = some p ∧ s.hist.peerPuts x < s.hist.peerGets x}

/-- The calls of `wg_queue_enqueue_per_peer_rx` in progress for packets of `p`; a call
is named by its packet. -/
def callsInside (cfg : Config) (s : State) (p : Peer) : Finset Skb :=
  {x ∈ range s.nextSkb | s.peerOf cfg x = some p ∧ (s.rx x).pc.inside}

/-- The polls that have `p` from `wg_allowedips_lookup_src` and have still to put it. -/
def pollsRouting (cfg : Config) (s : State) (p : Peer) : Finset Peer :=
  {p' ∈ range cfg.peers | routedWeight p (s.poll p').pc = 1}

/-- The packets that use keypair `k` and have not yet released it. -/
def packetsUsing (s : State) (k : Keypair) : Finset Skb :=
  {x ∈ range s.nextSkb | s.keypair x = some k ∧ s.hist.keypairPuts x < s.hist.keypairGets x}

/-- The packet has come to its end: its producer has freed it, or its poll has dropped
it and is through with it. -/
def Ended (s : State) (x : Skb) : Prop :=
  s.prod x = .freed ∨ ∃ p, x ∈ s.hist.dropped p ∧ (s.poll p).pc.inHand ≠ some x

theorem PacketRefs.le_one {prod : ProdPc} {keypair : Option Keypair}
    {gets puts keyGets keyPuts : ℕ} {put keyPut : Prop}
    (h : PacketRefs prod keypair gets puts keyGets keyPuts put keyPut) :
    puts ≤ gets ∧ gets ≤ 1 ∧ keyPuts ≤ keyGets ∧ keyGets ≤ 1 := by
  have gets : gets ≤ 1 := by
    rw [h.peerGets]
    split <;> simp
  refine ⟨?_, gets, ?_⟩
  · by_cases ended : prod = .freed ∨ put
    · exact (h.peerPut ended).le
    · push Not at ended
      simp [h.peerHeld ended.1 ended.2]
  · by_cases early : prod = .fresh ∨ prod = .lookup ∨ prod = .keypairGet
    · simp [h.keyEarly early]
    · by_cases ended : prod = .errPeerPut ∨ prod = .freed ∨ keyPut
      · exact ⟨(h.keyEnded ended).1.le, (h.keyEnded ended).2⟩
      · push Not at early ended
        have found : prod.found = true := by
          cases prod <;> simp_all [ProdPc.found]
        simp [h.keyFound found, h.keyHeld found ended.2.2]

/-- A packet whose peer is released has released its keypair. -/
theorem Ended.released (ended : Ended s x) (held : Held s) :
    s.hist.peerPuts x = s.hist.peerGets x ∧ s.hist.keypairPuts x = s.hist.keypairGets x := by
  have packet := held.packet x
  have sub : ∀ pc : PollPc, ∀ y, pc.keyInHand = some y → pc.inHand = some y := by
    intro pc y hand
    cases pc <;> simp_all [PollPc.keyInHand, PollPc.inHand]
  refine ⟨packet.peerPut ended, (packet.keyEnded ?_).1⟩
  rcases ended with freed | ⟨p, mem, free⟩
  · exact .inr (.inl freed)
  · exact .inr (.inr ⟨p, mem, fun hand => free (sub _ _ hand)⟩)

/-- **Reference conservation.**  In every run a peer's count is the sum of the
references held outside the receive path, of one for each poll that has the peer
from `wg_allowedips_lookup_src`, of one for each packet looked up and not yet
released and of one for each call of `wg_queue_enqueue_per_peer_rx`; a keypair's
count is the sum of its other holders and of one for each packet that uses it; and
every packet takes each reference at most once and has put what it took when it
ends. -/
theorem references_conserved (cfg : Config) (knobs : Knobs) (s : State)
    (reach : Reachable cfg knobs AnyStep s) :
    (∀ p, s.peerRef p = (s.tear p).base + s.peerOther p + (pollsRouting cfg s p).card +
      (packetsHolding cfg s p).card + (callsInside cfg s p).card) ∧
    (∀ k, s.keypairRef k = s.keypairOther k + (packetsUsing s k).card) ∧
    ∀ x, s.hist.peerGets x ≤ 1 ∧ s.hist.peerPuts x ≤ s.hist.peerGets x ∧
      s.hist.keypairGets x ≤ 1 ∧ s.hist.keypairPuts x ≤ s.hist.keypairGets x ∧
      (Ended s x → s.hist.peerPuts x = s.hist.peerGets x ∧
        s.hist.keypairPuts x = s.hist.keypairGets x) := by
  have held := reach.held
  refine ⟨fun p => ?_, fun k => ?_, fun x => ?_⟩
  · have routed : ∑ p' ∈ range cfg.peers, routedWeight p (s.poll p').pc =
        (pollsRouting cfg s p).card := by
      rw [pollsRouting, Finset.card_filter]
      refine Finset.sum_congr rfl fun p' _ => ?_
      cases (s.poll p').pc <;> simp only [routedWeight] <;> (try split) <;> simp
    have packets : ∑ x ∈ range s.nextSkb, peerWeight cfg (s.keypair x) (s.hist.peerGets x)
        (s.hist.peerPuts x) (s.rx x).pc p =
          (packetsHolding cfg s p).card + (callsInside cfg s p).card := by
      rw [packetsHolding, callsInside, Finset.card_filter, Finset.card_filter,
        ← Finset.sum_add_distrib]
      refine Finset.sum_congr rfl fun x _ => ?_
      obtain ⟨puts, gets, -⟩ := (held.packet x).le_one
      by_cases own : s.peerOf cfg x = some p
      · have own' : (s.keypair x).map cfg.peer = some p := own
        simp only [peerWeight, own, own', true_and, if_true]
        congr 1
        split <;> omega
      · have own' : (s.keypair x).map cfg.peer ≠ some p := own
        simp [peerWeight, own, own']
    rw [reach.peerCounts p, routed, packets, add_assoc _ (packetsHolding cfg s p).card]
  · rw [reach.keypairCounts k, packetsUsing, Finset.card_filter]
    congr 1
    refine Finset.sum_congr rfl fun x _ => ?_
    obtain ⟨-, -, puts, gets⟩ := (held.packet x).le_one
    by_cases own : s.keypair x = some k
    · simp only [keypairWeight, own, true_and, if_true]
      split <;> omega
    · simp [keypairWeight, own]
  · obtain ⟨puts, gets, keyPuts, keyGets⟩ := (held.packet x).le_one
    exact ⟨gets, puts, keyGets, keyPuts, fun ended => ended.released held⟩

/-- Packet 0 is in its poll's hands, between `wg_allowedips_lookup_src` and the put,
while packet 1 is inside `wg_queue_enqueue_per_peer_rx`. -/
theorem references_conserved_two : ∃ s,
    (Reachable (smallConfig 1 (by decide)) ⟨0, 0, 0, 0, 0⟩ AnyStep s ∧
      (s.tear 0).base + s.peerOther 0 = 1 ∧ s.peerRef 0 = 5) ∧
    s.peerRef 0 = (s.tear 0).base + s.peerOther 0 +
      (pollsRouting (smallConfig 1 (by decide)) s 0).card +
      (packetsHolding (smallConfig 1 (by decide)) s 0).card +
      (callsInside (smallConfig 1 (by decide)) s 0).card := by
  have run : ∃ s, Reachable (smallConfig 1 (by decide)) ⟨0, 0, 0, 0, 0⟩ AnyStep s ∧
      (s.tear 0).base + s.peerOther 0 = 1 ∧ s.peerRef 0 = 5 :=
    Machine.exists_reach_of_exec
      (arrive 0 0 ++ arrive 1 0 ++ works 0 2 ++ works 1 2 ++ completes 0 7 ++ completes 1 3 ++
        polls 0 9 ++ [.poll 0 (some 0)]) (by decide +kernel)
  obtain ⟨s, reach, outside, count⟩ := run
  exact ⟨s, ⟨reach, outside, count⟩, (references_conserved _ _ s reach).1 0⟩

/-- **The reference of `wg_allowedips_lookup_src`.**  While the poll holds it for the
one packet there is, the count is three: neither the base reference nor the packet
accounts for it. -/
theorem routed_reference_uncounted : ∃ s,
    Reachable (smallConfig 1 (by decide)) ⟨0, 0, 0, 0, 0⟩ AnyStep s ∧
      s.isDead 0 = false ∧
      s.peerRef 0 ≠ (s.tear 0).base + s.peerOther 0 +
        (packetsHolding (smallConfig 1 (by decide)) s 0).card +
        (callsInside (smallConfig 1 (by decide)) s 0).card :=
  Machine.exists_reach_of_exec
    (arrive 0 0 ++ works 0 2 ++ completes 0 7 ++ polls 0 14 ++ [.poll 0 (some 0)])
    (by decide +kernel)

end WgReceivePath
