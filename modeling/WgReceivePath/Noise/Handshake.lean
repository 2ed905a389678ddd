import Mathlib.Data.Nat.Notation

/-!
# The handshake: `Noise_IKpsk2`

The functions of `noise.c` that build and check the two messages of a handshake,

    <- s
    ...
    -> e, es, s, ss, {t}
    <- e, ee, se, psk, {}

and derive the keys of a session from them.

## Main definitions

* `Crypto`, the primitives that the kernel provides; `Crypto.Lawful` is what both sides rely
  on.
* `kdf`, `mixDh`, `mixHash`, `mixPsk`, `messageEncrypt`, `messageDecrypt`,
  `messageEphemeral`: the key schedule.
* `createInitiation`, `consumeInitiation`, `createResponse`, `consumeResponse`,
  `beginSession`: the messages.  The two that consume a message are cut where the source
  takes the write lock, and what they then copy to the peer is a function of its own
  (`commitInitiation`, `commitResponse`).

The functions are written over strings of an arbitrary type and the primitives, so that they
can be run on any instance of these.  What the functions keep under `handshake->lock` is a
`Handshake`; a function that writes to it before it fails returns it as it has left it.
-/

namespace WgReceivePath
namespace Noise

/-- The primitives.  `curve25519` fails when the result is the zero point; `newer a b`
stands for `memcmp(a, b) > 0`; `zero` is the string of zeros of any length.  Nothing is
assumed of them here. -/
structure Crypto (α : Type) where
  blake2s : (data : α) → α
  append : α → α → α
  hmac : (key data : α) → α
  curve25519 : (secret point : α) → Option α
  generatePublic : (secret : α) → Option α
  encrypt : (key hash plaintext : α) → α
  decrypt : (key hash ciphertext : α) → Option α
  newer : α → α → Bool
  byte : ℕ → α
  empty : α
  zero : α
  handshakeName : α
  identifierName : α

/-- What is true of the primitives whatever their strength: both sides of a key exchange get the
same point, which is not zero, and what was encrypted is decrypted. -/
structure Crypto.Lawful {α : Type} (c : Crypto α) : Prop where
  exchange : ∀ {a A b B}, c.generatePublic a = some A → c.generatePublic b = some B →
    ∃ k, c.curve25519 a B = some k ∧ c.curve25519 b A = some k ∧ k ≠ c.zero
  decrypt_encrypt : ∀ key hash plaintext,
    c.decrypt key hash (c.encrypt key hash plaintext) = some plaintext

/-- `newer` is a strict order, as `memcmp` is. -/
structure Crypto.Ordered {α : Type} (c : Crypto α) : Prop where
  irrefl : ∀ a, c.newer a a = false
  trans : ∀ {a b d}, c.newer a b = true → c.newer b d = true → c.newer a d = true

/-- `enum noise_handshake_state`. -/
inductive HandshakeState
  | zeroed
  | createdInitiation
  | consumedInitiation
  | createdResponse
  | consumedResponse
  deriving DecidableEq, Repr

/-- `struct noise_handshake`.  The peer's public key, the exchange precomputed with it and
the preshared key are configuration; the latest timestamp outlives a handshake, and the rest
comes and goes with one. -/
structure Handshake (α : Type) where
  state : HandshakeState
  lastInitiationConsumption : ℕ
  ephemeralPrivate : α
  remoteStatic : α
  remoteEphemeral : α
  precomputedStaticStatic : α
  presharedKey : α
  hash : α
  chainingKey : α
  latestTimestamp : α
  remoteIndex : ℕ

/-- `struct noise_static_identity`. -/
structure Identity (α : Type) where
  staticPublic : α
  staticPrivate : α
  hasIdentity : Bool

/-- `struct message_handshake_initiation`. -/
structure Initiation (α : Type) where
  senderIndex : ℕ
  unencryptedEphemeral : α
  encryptedStatic : α
  encryptedTimestamp : α

/-- `struct message_handshake_response`. -/
structure Response (α : Type) where
  senderIndex : ℕ
  receiverIndex : ℕ
  unencryptedEphemeral : α
  encryptedNothing : α

/-- What a new keypair gets from the handshake. -/
structure Session (α : Type) where
  initiator : Bool
  remoteIndex : ℕ
  sending : α
  receiving : α
  deriving DecidableEq

variable {α : Type} (c : Crypto α)

/-! ## The key schedule

The chaining key takes in every exchange, the hash every string that goes over the network.
A key that is used for encryption depends on both. -/

/-- The chaining key that `wg_noise_init` computes. -/
def handshakeInitChainingKey : α := c.blake2s c.handshakeName

/-- The hash that `wg_noise_init` computes. -/
def handshakeInitHash : α :=
  c.blake2s (c.append (handshakeInitChainingKey c) c.identifierName)

/-- `kdf`: the three keys that data expands to.  The callers of the source ask for one, two
or three of them. -/
def kdf (data chainingKey : α) : α × α × α :=
  let secret := c.hmac chainingKey data
  let first := c.hmac secret (c.byte 1)
  let second := c.hmac secret (c.append first (c.byte 2))
  let third := c.hmac secret (c.append second (c.byte 3))
  (first, second, third)

/-- `derive_keys`. -/
def deriveKeys (chainingKey : α) : α × α :=
  let (first, second, _) := kdf c c.empty chainingKey
  (first, second)

/-- `mix_dh`: the next chaining key, and a key. -/
def mixDh (chainingKey secret point : α) : Option (α × α) := do
  let dhCalculation ← c.curve25519 secret point
  let (first, second, _) := kdf c dhCalculation chainingKey
  return (first, second)

/-- `mix_precomputed_dh`.  A precomputed exchange of zeros stands for a peer without one,
and is refused. -/
def mixPrecomputedDh [DecidableEq α] (chainingKey precomputed : α) : Option (α × α) :=
  if precomputed = c.zero then none
  else
    let (first, second, _) := kdf c precomputed chainingKey
    some (first, second)

/-- `mix_hash`. -/
def mixHash (hash src : α) : α := c.blake2s (c.append hash src)

/-- `mix_psk`: the next chaining key, the next hash, and a key. -/
def mixPsk (chainingKey hash psk : α) : α × α × α :=
  let (first, tempHash, key) := kdf c psk chainingKey
  (first, mixHash c hash tempHash, key)

/-- `handshake_init`: chaining key and hash. -/
def handshakeInit (remoteStatic : α) : α × α :=
  (handshakeInitChainingKey c, mixHash c (handshakeInitHash c) remoteStatic)

/-- `message_encrypt`: the ciphertext, and the next hash. -/
def messageEncrypt (plaintext key hash : α) : α × α :=
  let ciphertext := c.encrypt key hash plaintext
  (ciphertext, mixHash c hash ciphertext)

/-- `message_decrypt`: the plaintext, and the next hash. -/
def messageDecrypt (ciphertext key hash : α) : Option (α × α) := do
  let plaintext ← c.decrypt key hash ciphertext
  return (plaintext, mixHash c hash ciphertext)

/-- `message_ephemeral`: chaining key and hash. -/
def messageEphemeral (ephemeral chainingKey hash : α) : α × α :=
  ((kdf c ephemeral chainingKey).1, mixHash c hash ephemeral)

/-! ## The messages

A function that fails has not necessarily left the handshake as it was.  What it has written
is returned, and the caller of the model stores it. -/

/-- `handshake_zero`: what belongs to one handshake is cleared, and the configuration of the
peer and its latest timestamp stay. -/
def handshakeZero (hs : Handshake α) : Handshake α :=
  { hs with
    ephemeralPrivate := c.zero
    remoteEphemeral := c.zero
    hash := c.zero
    chainingKey := c.zero
    remoteIndex := 0
    state := .zeroed }

/-- `wg_noise_handshake_create_initiation`, with the random ephemeral key, the time and the
index that it picks.  When an exchange fails the handshake is left half written, with its
old state. -/
def createInitiation [DecidableEq α] (id : Identity α) (hs : Handshake α)
    (ephemeral timestamp : α) (index : ℕ) : Handshake α × Option (Initiation α) :=
  if id.hasIdentity = false then (hs, none)
  else
    let (chainingKey, hash) := handshakeInit c hs.remoteStatic
    let hs := { hs with chainingKey := chainingKey, hash := hash, ephemeralPrivate := ephemeral }
    match c.generatePublic ephemeral with
    | none => (hs, none)
    | some e =>
        let (chainingKey, hash) := messageEphemeral c e chainingKey hash
        let hs := { hs with chainingKey := chainingKey, hash := hash }
        -- es
        match mixDh c chainingKey ephemeral hs.remoteStatic with
        | none => (hs, none)
        | some (chainingKey, key) =>
            -- s
            let (encryptedStatic, hash) := messageEncrypt c id.staticPublic key hash
            let hs := { hs with chainingKey := chainingKey, hash := hash }
            -- ss
            match mixPrecomputedDh c chainingKey hs.precomputedStaticStatic with
            | none => (hs, none)
            | some (chainingKey, key) =>
                -- {t}
                let (encryptedTimestamp, hash) := messageEncrypt c timestamp key hash
                ({ hs with
                    chainingKey := chainingKey, hash := hash, state := .createdInitiation },
                  some
                    { senderIndex := index
                      unencryptedEphemeral := e
                      encryptedStatic := encryptedStatic
                      encryptedTimestamp := encryptedTimestamp })

/-- What `wg_noise_handshake_consume_initiation` has computed before it takes the lock. -/
structure Verified (α : Type) where
  ephemeral : α
  timestamp : α
  hash : α
  chainingKey : α
  remoteIndex : ℕ

/-- `wg_noise_handshake_consume_initiation`, up to the lock: the peer, found by its public
key, and what the message says.  Nothing of the peer's handshake is written. -/
def consumeInitiation [DecidableEq α] {P : Type} (id : Identity α) (lookup : α → Option P)
    (handshake : P → Handshake α) (src : Initiation α) : Option (P × Verified α) := do
  guard (id.hasIdentity = true)
  let (chainingKey, hash) := handshakeInit c id.staticPublic
  let e := src.unencryptedEphemeral
  let (chainingKey, hash) := messageEphemeral c e chainingKey hash
  -- es
  let (chainingKey, key) ← mixDh c chainingKey id.staticPrivate e
  -- s
  let (s, hash) ← messageDecrypt c src.encryptedStatic key hash
  let peer ← lookup s
  -- ss
  let (chainingKey, key) ←
    mixPrecomputedDh c chainingKey (handshake peer).precomputedStaticStatic
  -- {t}
  let (t, hash) ← messageDecrypt c src.encryptedTimestamp key hash
  return (peer,
    { ephemeral := e
      timestamp := t
      hash := hash
      chainingKey := chainingKey
      remoteIndex := src.senderIndex })

/-- `NSEC_PER_SEC / INITIATIONS_PER_SECOND`. -/
def initiationInterval : ℕ := 1000000000 / 50

/-- The checks under the read lock: neither a replay nor a flood. -/
def initiationAllowed (hs : Handshake α) (v : Verified α) (now : ℕ) : Bool :=
  c.newer v.timestamp hs.latestTimestamp &&
    decide (hs.lastInitiationConsumption + initiationInterval ≤ now)

/-- What is copied to the peer under the write lock.  The timestamp is compared once more,
since another initiation may have been committed after the check. -/
def commitInitiation (hs : Handshake α) (v : Verified α) (now : ℕ) : Handshake α :=
  { hs with
    remoteEphemeral := v.ephemeral
    latestTimestamp :=
      if c.newer v.timestamp hs.latestTimestamp then v.timestamp else hs.latestTimestamp
    hash := v.hash
    chainingKey := v.chainingKey
    remoteIndex := v.remoteIndex
    lastInitiationConsumption :=
      if hs.lastInitiationConsumption < now then now else hs.lastInitiationConsumption
    state := .consumedInitiation }

/-- `wg_noise_handshake_create_response`. -/
def createResponse (hs : Handshake α) (ephemeral : α) (index : ℕ) :
    Handshake α × Option (Response α) :=
  if hs.state ≠ .consumedInitiation then (hs, none)
  else
    let hs := { hs with ephemeralPrivate := ephemeral }
    match c.generatePublic ephemeral with
    | none => (hs, none)
    | some e =>
        let (chainingKey, hash) := messageEphemeral c e hs.chainingKey hs.hash
        let hs := { hs with chainingKey := chainingKey, hash := hash }
        -- ee
        match mixDh c chainingKey ephemeral hs.remoteEphemeral with
        | none => (hs, none)
        | some (chainingKey, _) =>
            let hs := { hs with chainingKey := chainingKey }
            -- se
            match mixDh c chainingKey ephemeral hs.remoteStatic with
            | none => (hs, none)
            | some (chainingKey, _) =>
                -- psk
                let (chainingKey, hash, key) := mixPsk c chainingKey hs.hash hs.presharedKey
                -- {}
                let (encryptedNothing, hash) := messageEncrypt c c.empty key hash
                ({ hs with
                    chainingKey := chainingKey, hash := hash, state := .createdResponse },
                  some
                    { senderIndex := index
                      receiverIndex := hs.remoteIndex
                      unencryptedEphemeral := e
                      encryptedNothing := encryptedNothing })

/-- What `wg_noise_handshake_consume_response` has computed before it takes the write lock. -/
structure Accepted (α : Type) where
  ephemeral : α
  hash : α
  chainingKey : α
  remoteIndex : ℕ

/-- `wg_noise_handshake_consume_response`, up to the write lock, from the copy of the handshake
made under the read lock. -/
def consumeResponse (id : Identity α) (hs : Handshake α) (src : Response α) :
    Option (Accepted α) := do
  guard (id.hasIdentity = true)
  guard (hs.state = .createdInitiation)
  let e := src.unencryptedEphemeral
  let (chainingKey, hash) := messageEphemeral c e hs.chainingKey hs.hash
  -- ee
  let (chainingKey, _) ← mixDh c chainingKey hs.ephemeralPrivate e
  -- se
  let (chainingKey, _) ← mixDh c chainingKey id.staticPrivate e
  -- psk
  let (chainingKey, hash, key) := mixPsk c chainingKey hash hs.presharedKey
  -- {}
  let (_, hash) ← messageDecrypt c src.encryptedNothing key hash
  return {
    ephemeral := e
    hash := hash
    chainingKey := chainingKey
    remoteIndex := src.senderIndex }

/-- What is copied to the peer, unless its state has changed. -/
def commitResponse (hs : Handshake α) (accepted : Accepted α) : Option (Handshake α) :=
  if hs.state ≠ .createdInitiation then none
  else
    some
      { hs with
        remoteEphemeral := accepted.ephemeral
        hash := accepted.hash
        chainingKey := accepted.chainingKey
        remoteIndex := accepted.remoteIndex
        state := .consumedResponse }

/-- The keys of a session, for the initiator or the responder. -/
def sessionOf (initiator : Bool) (remoteIndex : ℕ) (chainingKey : α) : Session α :=
  let (first, second) := deriveKeys c chainingKey
  { initiator := initiator
    remoteIndex := remoteIndex
    sending := if initiator then first else second
    receiving := if initiator then second else first }

/-- `wg_noise_handshake_begin_session`: the session, and the handshake it leaves.  This side
is the initiator if the handshake has consumed a response. -/
def beginSession (hs : Handshake α) : Option (Session α × Handshake α) :=
  if hs.state ≠ .createdResponse ∧ hs.state ≠ .consumedResponse then none
  else
    some (sessionOf c (decide (hs.state = .consumedResponse)) hs.remoteIndex hs.chainingKey,
      handshakeZero c hs)

/-! ## What a peer keeps

The keys a peer is configured with never change, and the latest timestamp only when an
initiation is committed. -/

/-- The configuration of the peer and its latest timestamp are the same. -/
structure Handshake.Kept (hs hs' : Handshake α) : Prop where
  remoteStatic : hs'.remoteStatic = hs.remoteStatic
  precomputedStaticStatic : hs'.precomputedStaticStatic = hs.precomputedStaticStatic
  presharedKey : hs'.presharedKey = hs.presharedKey
  latestTimestamp : hs'.latestTimestamp = hs.latestTimestamp

theorem createInitiation_kept [DecidableEq α] (id : Identity α) (hs : Handshake α)
    (ephemeral timestamp : α) (index : ℕ) :
    hs.Kept (createInitiation c id hs ephemeral timestamp index).1 := by
  unfold createInitiation
  split
  · exact ⟨rfl, rfl, rfl, rfl⟩
  · dsimp only
    split
    · exact ⟨rfl, rfl, rfl, rfl⟩
    · split
      · exact ⟨rfl, rfl, rfl, rfl⟩
      · split <;> exact ⟨rfl, rfl, rfl, rfl⟩

theorem createResponse_kept (hs : Handshake α) (ephemeral : α) (index : ℕ) :
    hs.Kept (createResponse c hs ephemeral index).1 := by
  unfold createResponse
  split
  · exact ⟨rfl, rfl, rfl, rfl⟩
  · dsimp only
    split
    · exact ⟨rfl, rfl, rfl, rfl⟩
    · split
      · exact ⟨rfl, rfl, rfl, rfl⟩
      · split <;> exact ⟨rfl, rfl, rfl, rfl⟩

theorem commitResponse_kept {hs hs' : Handshake α} {accepted : Accepted α}
    (committed : commitResponse hs accepted = some hs') : hs.Kept hs' := by
  unfold commitResponse at committed
  split at committed
  · cases committed
  · cases committed
    exact ⟨rfl, rfl, rfl, rfl⟩

theorem handshakeZero_kept (hs : Handshake α) : hs.Kept (handshakeZero c hs) :=
  ⟨rfl, rfl, rfl, rfl⟩

theorem beginSession_kept {hs hs' : Handshake α} {session : Session α}
    (begun : beginSession c hs = some (session, hs')) : hs.Kept hs' := by
  unfold beginSession at begun
  split at begun
  · cases begun
  · cases begun
    exact handshakeZero_kept c hs

end Noise
end WgReceivePath
