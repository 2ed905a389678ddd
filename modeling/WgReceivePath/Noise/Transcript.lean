import Mathlib.Data.Option.Basic
import WgReceivePath.Noise.Handshake

/-!
# What the two sides compute

Both sides of a handshake mix the same strings in the same order, one from its half of each
key exchange, the other from its own.  The definitions of this module name the chaining
keys, hashes and keys at each point by the strings they are made from; the theorems say when
each of the functions of the handshake succeeds and what it then returns, in these terms.

For the two functions that create a message this is an equation (`createInitiation_eq`,
`createResponse_eq`), and for the two that consume one an equivalence with the checks that
were passed (`consumeInitiation_eq_some_iff`, `consumeResponse_eq_some_iff`).  Later modules
use these four, and do not unfold the functions.
-/

namespace WgReceivePath
namespace Noise

variable {α : Type} (c : Crypto α)

/-! ## The initiation

After `e`, `es`, `s`, `ss` and the timestamp.  The hash takes in the two ciphertexts, so
that the hash after an initiation determines all of it. -/

/-- The keys after `e` and `es`: the next chaining key, and the key of the static public key. -/
def staticKeys (e es : α) : α × α × α :=
  kdf c es (kdf c e (handshakeInitChainingKey c)).1

/-- The keys after `ss`: the next chaining key, and the key of the timestamp. -/
def timestampKeys (e es ss : α) : α × α × α := kdf c ss (staticKeys c e es).1

/-- The hash that goes with the encrypted static public key. -/
def staticHash (responder e : α) : α :=
  mixHash c (mixHash c (handshakeInitHash c) responder) e

/-- The hash that goes with the encrypted timestamp. -/
def timestampHash (responder e encryptedStatic : α) : α :=
  mixHash c (staticHash c responder e) encryptedStatic

/-- The hash after the initiation. -/
def initiationHash (responder e encryptedStatic encryptedTimestamp : α) : α :=
  mixHash c (timestampHash c responder e encryptedStatic) encryptedTimestamp

/-- The encrypted static public key of an initiator. -/
def sealedStatic (responder e es initiator : α) : α :=
  c.encrypt (staticKeys c e es).2.1 (staticHash c responder e) initiator

/-- The encrypted timestamp of an initiator. -/
def sealedTimestamp (responder e es ss initiator t : α) : α :=
  c.encrypt (timestampKeys c e es ss).2.1
    (timestampHash c responder e (sealedStatic c responder e es initiator)) t

/-- The handshake of an initiator that has created its initiation.  Its hash is that of the
whole message, its chaining key the one after `ss`. -/
def initiated (hs : Handshake α) (ephemeral e es initiator t : α) : Handshake α :=
  { hs with
    ephemeralPrivate := ephemeral
    chainingKey := (timestampKeys c e es hs.precomputedStaticStatic).1
    hash := initiationHash c hs.remoteStatic e (sealedStatic c hs.remoteStatic e es initiator)
      (sealedTimestamp c hs.remoteStatic e es hs.precomputedStaticStatic initiator t)
    state := .createdInitiation }

/-- The creation of an initiation, when the exchanges succeed. -/
theorem createInitiation_eq [DecidableEq α] {id : Identity α} {hs : Handshake α}
    {ephemeral t e es : α} (index : ℕ) (identity : id.hasIdentity = true)
    (ephemeralPublic : c.generatePublic ephemeral = some e)
    (exchange : c.curve25519 ephemeral hs.remoteStatic = some es)
    (nonzero : hs.precomputedStaticStatic ≠ c.zero) :
    createInitiation c id hs ephemeral t index =
      (initiated c hs ephemeral e es id.staticPublic t,
        some
          { senderIndex := index
            unencryptedEphemeral := e
            encryptedStatic := sealedStatic c hs.remoteStatic e es id.staticPublic
            encryptedTimestamp := sealedTimestamp c hs.remoteStatic e es
              hs.precomputedStaticStatic id.staticPublic t }) := by
  simp [createInitiation, identity, ephemeralPublic, mixDh, exchange, mixPrecomputedDh, nonzero,
    handshakeInit, messageEphemeral, messageEncrypt, initiated, initiationHash, timestampHash,
    staticHash, sealedTimestamp, sealedStatic, timestampKeys, staticKeys]

/-- An initiation is consumed exactly if both ciphertexts are authentic under the keys that
this side computes, and the static public key in it is that of a peer. -/
theorem consumeInitiation_eq_some_iff [DecidableEq α] {P : Type} {id : Identity α}
    {lookup : α → Option P} {handshake : P → Handshake α} {src : Initiation α} {peer : P}
    {v : Verified α} :
    consumeInitiation c id lookup handshake src = some (peer, v) ↔
      id.hasIdentity = true ∧ ∃ es s t,
        c.curve25519 id.staticPrivate src.unencryptedEphemeral = some es ∧
        c.decrypt (staticKeys c src.unencryptedEphemeral es).2.1
          (staticHash c id.staticPublic src.unencryptedEphemeral) src.encryptedStatic = some s ∧
        lookup s = some peer ∧ (handshake peer).precomputedStaticStatic ≠ c.zero ∧
        c.decrypt
          (timestampKeys c src.unencryptedEphemeral es
            (handshake peer).precomputedStaticStatic).2.1
          (timestampHash c id.staticPublic src.unencryptedEphemeral src.encryptedStatic)
          src.encryptedTimestamp = some t ∧
        v =
          { ephemeral := src.unencryptedEphemeral
            timestamp := t
            hash := initiationHash c id.staticPublic src.unencryptedEphemeral src.encryptedStatic
              src.encryptedTimestamp
            chainingKey := (timestampKeys c src.unencryptedEphemeral es
              (handshake peer).precomputedStaticStatic).1
            remoteIndex := src.senderIndex } := by
  simp only [consumeInitiation, mixDh, mixPrecomputedDh, messageDecrypt, messageEphemeral,
    handshakeInit, Option.bind_eq_bind, Option.bind_eq_some_iff, Option.guard_eq_some',
    Option.pure_def, Prod.exists, Option.some.injEq, Prod.mk.injEq, Option.ite_none_left_eq_some]
  constructor
  · rintro ⟨-, identity, _, _, ⟨es, exchange, rfl, rfl⟩, _, _, ⟨s, static, rfl, rfl⟩, p, known, _,
      _, ⟨nonzero, rfl, rfl⟩, _, _, ⟨t, time, rfl, rfl⟩, rfl, rfl⟩
    exact ⟨identity, es, s, t, exchange, static, known, nonzero, time, rfl⟩
  · rintro ⟨identity, es, s, t, exchange, static, known, nonzero, time, rfl⟩
    exact ⟨(), identity, _, _, ⟨es, exchange, rfl, rfl⟩, _, _, ⟨s, static, rfl, rfl⟩, peer, known,
      _, _, ⟨nonzero, rfl, rfl⟩, _, _, ⟨t, time, rfl, rfl⟩, rfl, rfl⟩

/-! ## The response

After `e`, `ee`, `se` and `psk`, from the chaining key and the hash that the initiation has
left on either side. -/

/-- The keys after `e`, `ee`, `se` and `psk`: the last chaining key, the string that goes into the
hash, and the key of the empty string. -/
def responseKeys (chainingKey e ee se psk : α) : α × α × α :=
  kdf c psk (kdf c se (kdf c ee (kdf c e chainingKey).1).1).1

/-- The hash that goes with the encrypted empty string. -/
def nothingHash (hash e temp : α) : α := mixHash c (mixHash c hash e) temp

/-- The encrypted empty string of a responder. -/
def sealedNothing (chainingKey hash e ee se psk : α) : α :=
  c.encrypt (responseKeys c chainingKey e ee se psk).2.2
    (nothingHash c hash e (responseKeys c chainingKey e ee se psk).2.1) c.empty

/-- The handshake of a responder that has created its response: its chaining key is the one
that the session is derived from. -/
def responded (hs : Handshake α) (ephemeral e ee se : α) : Handshake α :=
  { hs with
    ephemeralPrivate := ephemeral
    chainingKey := (responseKeys c hs.chainingKey e ee se hs.presharedKey).1
    hash := mixHash c
      (nothingHash c hs.hash e (responseKeys c hs.chainingKey e ee se hs.presharedKey).2.1)
      (sealedNothing c hs.chainingKey hs.hash e ee se hs.presharedKey)
    state := .createdResponse }

/-- The creation of a response, when the exchanges succeed. -/
theorem createResponse_eq (hs : Handshake α) {ephemeral e ee se : α} (index : ℕ)
    (state : hs.state = .consumedInitiation)
    (ephemeralPublic : c.generatePublic ephemeral = some e)
    (exchange : c.curve25519 ephemeral hs.remoteEphemeral = some ee)
    (exchange' : c.curve25519 ephemeral hs.remoteStatic = some se) :
    createResponse c hs ephemeral index =
      (responded c hs ephemeral e ee se,
        some
          { senderIndex := index
            receiverIndex := hs.remoteIndex
            unencryptedEphemeral := e
            encryptedNothing :=
              sealedNothing c hs.chainingKey hs.hash e ee se hs.presharedKey }) := by
  simp [createResponse, state, ephemeralPublic, mixDh, exchange, exchange', messageEphemeral,
    messageEncrypt, mixPsk, responded, sealedNothing, nothingHash, responseKeys]

/-- A response is consumed exactly if its ciphertext is authentic under the key that this
side computes from the initiation it has created. -/
theorem consumeResponse_eq_some_iff {id : Identity α} {hs : Handshake α} {src : Response α}
    {accepted : Accepted α} :
    consumeResponse c id hs src = some accepted ↔
      id.hasIdentity = true ∧ hs.state = .createdInitiation ∧ ∃ ee se plaintext,
        c.curve25519 hs.ephemeralPrivate src.unencryptedEphemeral = some ee ∧
        c.curve25519 id.staticPrivate src.unencryptedEphemeral = some se ∧
        c.decrypt
          (responseKeys c hs.chainingKey src.unencryptedEphemeral ee se hs.presharedKey).2.2
          (nothingHash c hs.hash src.unencryptedEphemeral
            (responseKeys c hs.chainingKey src.unencryptedEphemeral ee se hs.presharedKey).2.1)
          src.encryptedNothing = some plaintext ∧
        accepted =
          { ephemeral := src.unencryptedEphemeral
            hash := mixHash c
              (nothingHash c hs.hash src.unencryptedEphemeral
                (responseKeys c hs.chainingKey src.unencryptedEphemeral ee se
                  hs.presharedKey).2.1)
              src.encryptedNothing
            chainingKey :=
              (responseKeys c hs.chainingKey src.unencryptedEphemeral ee se hs.presharedKey).1
            remoteIndex := src.senderIndex } := by
  simp only [consumeResponse, mixDh, messageDecrypt, messageEphemeral, mixPsk,
    Option.bind_eq_bind, Option.bind_eq_some_iff, Option.guard_eq_some', Option.pure_def,
    Prod.exists, Option.some.injEq, Prod.mk.injEq]
  constructor
  · rintro ⟨-, identity, -, state, _, _, ⟨ee, exchange, rfl, rfl⟩, _, _,
      ⟨se, exchange', rfl, rfl⟩, _, _, ⟨plaintext, nothing, rfl, rfl⟩, rfl⟩
    exact ⟨identity, state, ee, se, plaintext, exchange, exchange', nothing, rfl⟩
  · rintro ⟨identity, state, ee, se, plaintext, exchange, exchange', nothing, rfl⟩
    exact ⟨(), identity, (), state, _, _, ⟨ee, exchange, rfl, rfl⟩, _, _,
      ⟨se, exchange', rfl, rfl⟩, _, _, ⟨plaintext, nothing, rfl, rfl⟩, rfl⟩

end Noise
end WgReceivePath
