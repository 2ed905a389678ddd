import WgReceivePath.Noise.Protocol
import WgReceivePath.Noise.Schedule

/-!
# What a message proves to its receiver

The devices run their handshakes over a network that belongs to an attacker: it reads what
is sent, and what arrives is whatever it can derive.  Peers may be configured with public
keys whose private keys the attacker has, and a device may have lost its own.  A pair of a
device and a peer is *trusted* when neither private key is among these.

## Main results

* `consumeInitiation_read`: an initiation that a device has consumed from a trusted peer was
  created by that peer, for this device.
* `consumeResponse_agreed`: a response that a device has consumed from a peer whose private
  key is secret was created by that peer, for this device, from this very initiation and
  with the same chaining key.  The secret key of the device itself is not needed here: the
  exchange of its ephemeral key with the static key of the peer is already tainted.

## What carries the proof

The honest devices seal what they create, and the log of what they have created therefore
bounds what the attacker can have under a key it does not know: everything it derives is
`Safe` relative to that log (`Derives.safe`).  A ciphertext that decrypts under a tainted
key is therefore in the log.  Which entry it is, and that the entry was meant for this
device, is read off its label, which is the hash of the whole transcript (`Noise.Schedule`).
-/

namespace WgReceivePath
namespace Noise

open Symbolic

variable {D P : Type}

/-! ## The devices and the attacker -/

/-- Devices with their private keys, the names that the attacker does not have, and among
them those that the devices pick as ephemeral keys.  The private keys of the devices need
not be secret, and neither need the peers be devices. -/
structure Network (D P : Type) where
  cfg : Config D P Term
  static : D → ℕ
  secret : ℕ → Prop
  ephemeral : ℕ → Prop
  identity : ∀ d, cfg.identity d = ⟨.pub (static d), .name (static d), true⟩
  remote : ∀ d p, ∃ b, (cfg.initial d p).remoteStatic = .pub b
  lookup : ∀ d t p, cfg.lookup d t = some p → (cfg.initial d p).remoteStatic = t
  precomputed : ∀ d p, (cfg.initial d p).precomputedStaticStatic =
    .dh (.name (static d)) (cfg.initial d p).remoteStatic
  psk : ∀ d p, (∃ a, (cfg.initial d p).presharedKey = .name a) ∨
    ∃ n, (cfg.initial d p).presharedKey = .const n
  zeroed : ∀ d p, (cfg.initial d p).state = .zeroed
  secret_of_ephemeral : ∀ x, ephemeral x → secret x

namespace Network

/-- The attacker has got all names but the ephemeral keys. -/
def leaked (N : Network D P) : Network D P :=
  { N with secret := N.ephemeral, secret_of_ephemeral := fun _ h => h }

/-- The public key of a peer. -/
def remoteStatic (N : Network D P) (d : D) (p : P) : Term := (N.cfg.initial d p).remoteStatic

/-- The attacker does not have the private key of the peer. -/
def PeerTrusted (N : Network D P) (d : D) (p : P) : Prop :=
  ∃ b, N.secret b ∧ N.remoteStatic d p = .pub b

/-- The attacker has neither private key. -/
def Trusted (N : Network D P) (d : D) (p : P) : Prop :=
  N.secret (N.static d) ∧ N.PeerTrusted d p

/-- What the attacker derives from what was sent. -/
def Derives (N : Network D P) (s : State D P Term) : Term → Prop :=
  Symbolic.Derives N.secret {t | t ∈ s.sent}

/-- The devices pick ephemeral keys, and what arrives comes from the attacker.  All other
steps are unrestricted. -/
def Attacked (N : Network D P) (s : State D P Term) : Action D P Term → Prop
  | .createInitiation _ _ ephemeral timestamp _ =>
      (∃ x, N.ephemeral x ∧ ephemeral = .name x) ∧ ∃ n, timestamp = .const n
  | .createResponse _ _ ephemeral _ => ∃ x, N.ephemeral x ∧ ephemeral = .name x
  | .receiveInitiation _ src =>
      N.Derives s src.unencryptedEphemeral ∧ N.Derives s src.encryptedStatic ∧
        N.Derives s src.encryptedTimestamp
  | .receiveResponse _ src =>
      N.Derives s src.unencryptedEphemeral ∧ N.Derives s src.encryptedNothing
  | .check _ _ | .commitInitiation _ _ | .commitResponse _ | .beginSession _ _ | .clear _ _
  | .release _ _ => True

end Network

/-! ## What was sealed

The log determines every message that honest devices have sealed.  It only grows, and the
predicate `Sealed` grows with it. -/

/-- What the devices have created. -/
structure Log (D P : Type) where
  initiations : List (InitiationLog D P Term)
  responses : List (ResponseLog D P Term)

/-- The log has grown. -/
structure Log.Le (L L' : Log D P) : Prop where
  initiations : ∀ i ∈ L.initiations, i ∈ L'.initiations
  responses : ∀ r ∈ L.responses, r ∈ L'.responses

/-- One more initiation. -/
def Log.addInitiation (L : Log D P) (i : InitiationLog D P Term) : Log D P :=
  { L with initiations := i :: L.initiations }

/-- One more response. -/
def Log.addResponse (L : Log D P) (r : ResponseLog D P Term) : Log D P :=
  { L with responses := r :: L.responses }

theorem Log.le_addInitiation (L : Log D P) (i : InitiationLog D P Term) :
    L.Le (L.addInitiation i) :=
  ⟨fun _ => List.mem_cons_of_mem i, fun _ => id⟩

theorem Log.le_addResponse (L : Log D P) (r : ResponseLog D P Term) : L.Le (L.addResponse r) :=
  ⟨fun _ => id, fun _ => List.mem_cons_of_mem r⟩

/-- The public key of an ephemeral key. -/
def publicOf : Term → Term
  | .name x => .pub x
  | t => t

namespace Network

variable (N : Network D P)

/-- The encrypted static public key of an initiation. -/
def staticSeal (i : InitiationLog D P Term) : Term :=
  sealedStatic symbolic (N.remoteStatic i.device i.peer) (publicOf i.ephemeral)
    (.dh i.ephemeral (N.remoteStatic i.device i.peer)) (.pub (N.static i.device))

/-- The encrypted timestamp of an initiation. -/
def timestampSeal (i : InitiationLog D P Term) : Term :=
  sealedTimestamp symbolic (N.remoteStatic i.device i.peer) (publicOf i.ephemeral)
    (.dh i.ephemeral (N.remoteStatic i.device i.peer))
    (.dh (.name (N.static i.device)) (N.remoteStatic i.device i.peer))
    (.pub (N.static i.device)) i.timestamp

/-- The keys of a response. -/
def keys (r : ResponseLog D P Term) : Term × Term × Term :=
  responseKeys symbolic r.before.chainingKey (publicOf r.ephemeral)
    (.dh r.ephemeral r.before.remoteEphemeral) (.dh r.ephemeral (N.remoteStatic r.device r.peer))
    (N.cfg.initial r.device r.peer).presharedKey

/-- The encrypted empty string of a response. -/
def nothingSeal (r : ResponseLog D P Term) : Term :=
  .enc (N.keys r).2.2 (nothingHash symbolic r.before.hash (publicOf r.ephemeral) (N.keys r).2.1)
    symbolic.empty

/-- A device has sealed this under a key that the attacker does not have.  What is sealed
under a key that it has is no matter of the log. -/
def Sealed (L : Log D P) (k l t : Term) : Prop :=
  Tainted N.secret k ∧
    ((∃ i ∈ L.initiations, .enc k l t = N.staticSeal i ∨ .enc k l t = N.timestampSeal i) ∨
      ∃ r ∈ L.responses, .enc k l t = N.nothingSeal r)

end Network

section

variable {N : Network D P} {L L' : Log D P} {s : State D P Term} {d : D} {p : P} {e t : Term}

theorem Network.Sealed.mono (le : L.Le L') {k l : Term} (sealed : N.Sealed L k l t) :
    N.Sealed L' k l t := by
  obtain ⟨tainted, ⟨i, mem, eq⟩ | ⟨r, mem, eq⟩⟩ := sealed
  · exact ⟨tainted, .inl ⟨i, le.initiations i mem, eq⟩⟩
  · exact ⟨tainted, .inr ⟨r, le.responses r mem, eq⟩⟩

/-! ## What the devices know

What a device knows after a message is a matter of the transcript it has computed.  The two
sides compute it from their own halves of the exchanges, so that each has its own
expressions for it. -/

namespace Network

/-- The hash of a responder after an initiation. -/
def readHash (N : Network D P) (d : D) (p : P) (e t : Term) : Term :=
  initiationHash symbolic (.pub (N.static d)) e
    (sealedStatic symbolic (.pub (N.static d)) e (.dh (.name (N.static d)) e)
      (N.remoteStatic d p))
    (sealedTimestamp symbolic (.pub (N.static d)) e (.dh (.name (N.static d)) e)
      (.dh (.name (N.static d)) (N.remoteStatic d p)) (N.remoteStatic d p) t)

/-- The chaining key of a responder after an initiation. -/
def readKey (N : Network D P) (d : D) (p : P) (e : Term) : Term :=
  (timestampKeys symbolic e (.dh (.name (N.static d)) e)
    (.dh (.name (N.static d)) (N.remoteStatic d p))).1

/-- The hash of an initiator after its initiation. -/
def createdHash (N : Network D P) (d : D) (p : P) (x : ℕ) (t : Term) : Term :=
  initiationHash symbolic (N.remoteStatic d p) (.pub x)
    (sealedStatic symbolic (N.remoteStatic d p) (.pub x) (.dh (.name x) (N.remoteStatic d p))
      (.pub (N.static d)))
    (sealedTimestamp symbolic (N.remoteStatic d p) (.pub x)
      (.dh (.name x) (N.remoteStatic d p)) (.dh (.name (N.static d)) (N.remoteStatic d p))
      (.pub (N.static d)) t)

/-- The chaining key of an initiator after its initiation. -/
def createdKey (N : Network D P) (d : D) (p : P) (x : ℕ) : Term :=
  (timestampKeys symbolic (.pub x) (.dh (.name x) (N.remoteStatic d p))
    (.dh (.name (N.static d)) (N.remoteStatic d p))).1

/-- A trusted peer has created an initiation for this device, with this ephemeral key and
timestamp.  For a peer that is not trusted nothing is said. -/
def Authentic (N : Network D P) (L : Log D P) (d : D) (p : P) (e t : Term) : Prop :=
  N.Trusted d p → ∃ i ∈ L.initiations,
    N.remoteStatic d p = .pub (N.static i.device) ∧
      N.remoteStatic i.device i.peer = .pub (N.static d) ∧
      publicOf i.ephemeral = e ∧ i.timestamp = t

/-- A peer has created a response to this device with this chaining key. -/
def Agreed (N : Network D P) (L : Log D P) (d : D) (p : P) (ck : Term) : Prop :=
  ∃ r ∈ L.responses, N.remoteStatic d p = .pub (N.static r.device) ∧
    N.remoteStatic r.device r.peer = .pub (N.static d) ∧ r.chainingKey = ck

/-- An initiation from the peer has been read: its ephemeral key is safe, it is authentic,
and hash and chaining key are those of its transcript. -/
structure Read (N : Network D P) (L : Log D P) (d : D) (p : P) (e t hash ck : Term) : Prop where
  safe : Safe N.secret (N.Sealed L) e
  authentic : N.Authentic L d p e t
  hash : hash = N.readHash d p e t
  chainingKey : ck = N.readKey d p e

/-- What is in the log was created by the devices: with ephemeral keys of theirs, and for a
response from an initiation that was read. -/
structure Honest (N : Network D P) (L : Log D P) : Prop where
  initiations : ∀ i ∈ L.initiations, ∃ x, N.ephemeral x ∧ i.ephemeral = .name x
  responses : ∀ r ∈ L.responses, (∃ y, N.ephemeral y ∧ r.ephemeral = .name y) ∧
    r.chainingKey = (N.keys r).1 ∧
    ∃ t, N.Read L r.device r.peer r.before.remoteEphemeral t r.before.hash r.before.chainingKey

theorem Authentic.mono (le : L.Le L') (authentic : N.Authentic L d p e t) :
    N.Authentic L' d p e t := by
  intro trusted
  obtain ⟨i, mem, facts⟩ := authentic trusted
  exact ⟨i, le.initiations i mem, facts⟩

theorem Agreed.mono (le : L.Le L') {ck : Term} (agreed : N.Agreed L d p ck) :
    N.Agreed L' d p ck := by
  obtain ⟨r, mem, facts⟩ := agreed
  exact ⟨r, le.responses r mem, facts⟩

theorem Read.mono (le : L.Le L') {hash ck : Term} (read : N.Read L d p e t hash ck) :
    N.Read L' d p e t hash ck :=
  ⟨read.safe.mono fun _ _ _ => Sealed.mono le, read.authentic.mono le, read.hash,
    read.chainingKey⟩

theorem Honest.addInitiation (honest : N.Honest L) {i : InitiationLog D P Term} {x : ℕ}
    (ephemeral : N.ephemeral x) (name : i.ephemeral = .name x) :
    N.Honest (L.addInitiation i) where
  initiations := List.forall_mem_cons.mpr ⟨⟨x, ephemeral, name⟩, honest.initiations⟩
  responses r mem := by
    obtain ⟨own, chainingKey, t, read⟩ := honest.responses r mem
    exact ⟨own, chainingKey, t, read.mono (L.le_addInitiation i)⟩

theorem Honest.addResponse (honest : N.Honest L) {r : ResponseLog D P Term} {y : ℕ}
    (ephemeral : N.ephemeral y) (name : r.ephemeral = .name y)
    (chainingKey : r.chainingKey = (N.keys r).1)
    (read : N.Read L r.device r.peer r.before.remoteEphemeral t r.before.hash
      r.before.chainingKey) : N.Honest (L.addResponse r) where
  initiations := honest.initiations
  responses r' mem := by
    obtain rfl | old := List.mem_cons.mp mem
    · exact ⟨⟨y, ephemeral, name⟩, chainingKey, t, read.mono (L.le_addResponse r')⟩
    · obtain ⟨own, chainingKey, t, read⟩ := honest.responses r' old
      exact ⟨own, chainingKey, t, read.mono (L.le_addResponse r)⟩

/-! ## What is sent is safe

A ciphertext of a device is safe in either case: under a tainted key because it is in the
log, under a key that the attacker may have because its content may be known. -/

theorem graded_static (N : Network D P) (sealed : Term → Term → Term → Prop) (d : D) (p : P) :
    Graded N.secret sealed (.dh (.name (N.static d)) (N.remoteStatic d p)) := by
  obtain ⟨b, remote⟩ := N.remote d p
  rw [remoteStatic, remote]
  exact graded_dh _ trivial

theorem graded_psk (N : Network D P) (sealed : Term → Term → Term → Prop) (d : D) (p : P) :
    Graded N.secret sealed (N.cfg.initial d p).presharedKey := by
  obtain ⟨a, psk⟩ | ⟨n, psk⟩ := N.psk d p
  · rw [psk]
    exact graded_name a
  · rw [psk]
    exact .inr trivial

theorem safe_remoteStatic (N : Network D P) (sealed : Term → Term → Term → Prop) (d : D) (p : P) :
    Safe N.secret sealed (N.remoteStatic d p) := by
  obtain ⟨b, remote⟩ := N.remote d p
  rw [remoteStatic, remote]
  trivial

theorem tainted_static (trusted : N.Trusted d p) :
    Tainted N.secret (.dh (.name (N.static d)) (N.remoteStatic d p)) := by
  obtain ⟨own, b, other, remote⟩ := trusted
  rw [remote]
  exact (tainted_shared _ _).mpr ⟨own, other⟩

theorem tainted_ephemeral {x : ℕ} (ephemeral : N.ephemeral x) (trusted : N.PeerTrusted d p) :
    Tainted N.secret (.dh (.name x) (N.remoteStatic d p)) := by
  obtain ⟨b, other, remote⟩ := trusted
  rw [remote]
  exact (tainted_shared _ _).mpr ⟨N.secret_of_ephemeral x ephemeral, other⟩

/-- The static public key of an initiation is sent safely: it is public itself. -/
theorem safe_staticSeal {i : InitiationLog D P Term} {x : ℕ} (mem : i ∈ L.initiations)
    (ephemeral : i.ephemeral = .name x) : Safe N.secret (N.Sealed L) (N.staticSeal i) := by
  obtain ⟨d, p, _, t⟩ := i
  cases ephemeral
  have e : Graded N.secret (N.Sealed L) (.pub x) := .inr trivial
  have es : Graded N.secret (N.Sealed L) (.dh (.name x) (N.remoteStatic d p)) :=
    graded_dh x (N.safe_remoteStatic _ d p)
  exact Graded.safe_enc (graded_staticKeys e es).2 trivial fun tainted =>
    ⟨tainted, .inl ⟨_, mem, .inl rfl⟩⟩

/-- The timestamp of an initiation is sent safely: it is a constant. -/
theorem safe_timestampSeal {i : InitiationLog D P Term} {x n : ℕ} (mem : i ∈ L.initiations)
    (ephemeral : i.ephemeral = .name x) (timestamp : i.timestamp = .const n) :
    Safe N.secret (N.Sealed L) (N.timestampSeal i) := by
  obtain ⟨d, p, _, _⟩ := i
  cases ephemeral
  cases timestamp
  have e : Graded N.secret (N.Sealed L) (.pub x) := .inr trivial
  have es : Graded N.secret (N.Sealed L) (.dh (.name x) (N.remoteStatic d p)) :=
    graded_dh x (N.safe_remoteStatic _ d p)
  have ss := N.graded_static (N.Sealed L) d p
  exact Graded.safe_enc (graded_timestampKeys e es ss).2 trivial fun tainted =>
    ⟨tainted, .inl ⟨_, mem, .inr rfl⟩⟩

/-- The empty string of a response is sent safely, whatever its keys are made from. -/
theorem safe_nothingSeal (honest : N.Honest L) {r : ResponseLog D P Term}
    (mem : r ∈ L.responses) : Safe N.secret (N.Sealed L) (N.nothingSeal r) := by
  obtain ⟨⟨y, -, ephemeral⟩, -, t, read⟩ := honest.responses r mem
  obtain ⟨d, p, before, _, _⟩ := r
  cases ephemeral
  have ck : Graded N.secret (N.Sealed L) before.chainingKey := by
    rw [read.chainingKey]
    exact (graded_timestampKeys read.safe.graded (graded_dh _ read.safe) (N.graded_static _ d p)).1
  have e : Graded N.secret (N.Sealed L) (.pub y) := .inr trivial
  have ee : Graded N.secret (N.Sealed L) (.dh (.name y) before.remoteEphemeral) :=
    graded_dh y read.safe
  have se : Graded N.secret (N.Sealed L) (.dh (.name y) (N.remoteStatic d p)) :=
    graded_dh y (N.safe_remoteStatic _ d p)
  exact Graded.safe_enc (graded_responseKeys ck e ee se (N.graded_psk _ d p)) trivial
    fun tainted => ⟨tainted, .inr ⟨_, mem, rfl⟩⟩

theorem Derives.safe (sent : ∀ t ∈ s.sent, Safe N.secret (N.Sealed L) t)
    (derives : N.Derives s t) : Safe N.secret (N.Sealed L) t :=
  Symbolic.Derives.safe (fun _ _ _ sealed => sealed.1) sent derives

/-! ## What a message proves

The receiver has opened a ciphertext under a key that it has computed itself.  If that key
is tainted the ciphertext is in the log, and comparing labels says from whom it is and for
whom. -/

/-- **Authentication of the initiator.**  What a device has consumed is an initiation of the peer
it was looked up for, if the two are trusted. -/
theorem consumeInitiation_read (honest : N.Honest L) {handshake : P → Handshake Term}
    {src : Initiation Term} {v : Verified Term}
    (precomputed : (handshake p).precomputedStaticStatic =
      .dh (.name (N.static d)) (N.remoteStatic d p))
    (safe : Safe N.secret (N.Sealed L) src.unencryptedEphemeral)
    (safeTimestamp : Safe N.secret (N.Sealed L) src.encryptedTimestamp)
    (consumed : consumeInitiation symbolic (N.cfg.identity d) (N.cfg.lookup d) handshake src =
      some (p, v)) :
    N.Read L d p v.ephemeral v.timestamp v.hash v.chainingKey := by
  obtain ⟨-, es, u, t, exchange, openStatic, known, -, openTimestamp, rfl⟩ :=
    (consumeInitiation_eq_some_iff symbolic).mp consumed
  obtain ⟨index, e, encryptedStatic, encryptedTimestamp⟩ := src
  dsimp only at *
  rw [N.identity] at *
  rw [precomputed] at *
  cases exchange
  have static := Term.dec_eq_some.mp openStatic
  have timestamp := Term.dec_eq_some.mp openTimestamp
  subst static timestamp
  obtain rfl : N.remoteStatic d p = u := N.lookup d u p known
  refine ⟨safe, fun trusted => ?_, rfl, rfl⟩
  -- The key of the timestamp is tainted, so a device has sealed it; the label says which one.
  obtain ⟨-, ⟨i, mem, eq | eq⟩ | ⟨r, mem, eq⟩⟩ :=
    safeTimestamp.sealed_of_tainted (tainted_timestampKeys (.inr (N.tainted_static trusted))).2
  · exact absurd (Term.enc.inj eq).2.1 timestampHash_ne_staticHash
  · obtain ⟨-, label, text⟩ := Term.enc.inj eq
    obtain ⟨responder, ephemeral, static⟩ := timestampHash_injective label
    exact ⟨i, mem, (Term.enc.inj static).2.2, responder.symm, ephemeral.symm, text.symm⟩
  · obtain ⟨-, -, _, read⟩ := honest.responses r mem
    have label := (Term.enc.inj eq).2.1
    rw [read.hash] at label
    exact absurd label.symm nothingHash_ne_timestampHash

/-- What an initiator knows of its handshake: the hash and the chaining key are those of an
initiation it has created. -/
structure Created (N : Network D P) (d : D) (p : P) (x : ℕ) (t hash ck : Term) : Prop where
  ephemeral : N.ephemeral x
  hash : hash = N.createdHash d p x t
  chainingKey : ck = N.createdKey d p x

/-- The ephemeral keys of the two sides taint the chaining key of the response. -/
theorem tainted_keys {r : ResponseLog D P Term} {x y : ℕ} (ephemeral_x : N.ephemeral x)
    (ephemeral_y : N.ephemeral y) (own : r.ephemeral = .name y)
    (other : r.before.remoteEphemeral = .pub x) : Tainted N.ephemeral (N.keys r).1 := by
  rw [keys, own, other]
  exact (tainted_responseKeys (.inr ((tainted_shared y x).mpr ⟨ephemeral_y, ephemeral_x⟩))).1

/-- **Authentication of the responder.**  A response that a device has consumed was created by
the peer with the same chaining key, if the private key of the peer is secret. -/
theorem consumeResponse_agreed (honest : N.Honest L) {hs : Handshake Term} {x : ℕ}
    {src : Response Term} {a : Accepted Term} (created : N.Created d p x t hs.hash hs.chainingKey)
    (safe : Safe N.secret (N.Sealed L) src.encryptedNothing)
    (consumed : consumeResponse symbolic (N.cfg.identity d) hs src = some a)
    (trusted : N.PeerTrusted d p) :
    Tainted N.ephemeral a.chainingKey ∧ N.Agreed L d p a.chainingKey := by
  obtain ⟨-, -, ee, se, u, exchange, exchange', opened, rfl⟩ :=
    (consumeResponse_eq_some_iff symbolic).mp consumed
  rw [Term.dec_eq_some.mp opened] at safe
  have tainted : Tainted N.secret hs.chainingKey := by
    rw [created.chainingKey]
    exact (tainted_timestampKeys (.inl (tainted_ephemeral created.ephemeral trusted))).1
  obtain ⟨-, ⟨i, mem, eq | eq⟩ | ⟨r, mem, eq⟩⟩ :=
    safe.sealed_of_tainted (tainted_responseKeys (.inl tainted)).2
  · have label := (Term.enc.inj eq).2.1
    rw [created.hash] at label
    exact absurd label nothingHash_ne_staticHash
  · have label := (Term.enc.inj eq).2.1
    rw [created.hash] at label
    exact absurd label nothingHash_ne_timestampHash
  · obtain ⟨⟨y, ephemeral_y, own⟩, chainingKey, t', read⟩ := honest.responses r mem
    obtain ⟨key, label, -⟩ := Term.enc.inj eq
    obtain ⟨hash, -, -⟩ := nothingHash_injective label
    rw [created.hash, read.hash] at hash
    obtain ⟨responder, initiator, static, -⟩ := initiationHash_injective hash
    have same : (responseKeys symbolic hs.chainingKey src.unencryptedEphemeral ee se
        hs.presharedKey).1 = (N.keys r).1 := by
      obtain ⟨psk, mixed⟩ := kdf_injective key
      simp only [responseKeys, keys] at psk mixed ⊢
      rw [psk, mixed]
    dsimp only
    rw [same]
    exact ⟨tainted_keys created.ephemeral ephemeral_y own initiator.symm, r, mem, responder,
      (Term.enc.inj static).2.2.symm, chainingKey⟩

end Network

end

end Noise
end WgReceivePath
