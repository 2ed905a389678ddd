import WgReceivePath.Noise.Terms
import WgReceivePath.Noise.Transcript

/-!
# Two configured peers agree on their keys

An exchange in which nothing is lost or changed: one side creates an initiation, the other
consumes it and responds, the first consumes the response, and both begin a session.
`exchange_agrees` says that it goes through whatever the keys are, and that what one side
sends with the other receives with, in both directions.

The chaining keys and hashes of the two sides go through different computations (each has
its own half of every key exchange), so this is a statement about the order of all mixing
steps on both sides.  It needs no more of the primitives than that both halves of an
exchange give the same point and that decryption undoes encryption (`Crypto.Lawful`); the
names of `Noise.Transcript` are the strings on which the two sides meet.
-/

namespace WgReceivePath
namespace Noise

variable {α P : Type} {c : Crypto α}

/-- Both sides know each other's public key and have the same preshared key, and
`wg_noise_precompute_static_static` has run. -/
structure Configured (c : Crypto α) (i r : Identity α) (hi hr : Handshake α) : Prop where
  hasIdentity_i : i.hasIdentity = true
  hasIdentity_r : r.hasIdentity = true
  public_i : c.generatePublic i.staticPrivate = some i.staticPublic
  public_r : c.generatePublic r.staticPrivate = some r.staticPublic
  remote_i : hi.remoteStatic = r.staticPublic
  remote_r : hr.remoteStatic = i.staticPublic
  psk : hi.presharedKey = hr.presharedKey
  precomputed_i : c.curve25519 i.staticPrivate r.staticPublic = some hi.precomputedStaticStatic
  precomputed_r : c.curve25519 r.staticPrivate i.staticPublic = some hr.precomputedStaticStatic

/-- What a responder reads from an initiation is what the initiator has put into it.  The
exchanges are named by their results, which both sides have. -/
theorem consumeInitiation_sealed [DecidableEq α] (lawful : c.Lawful) {r : Identity α}
    {lookup : α → Option P} {handshake : P → Handshake α} {peer : P} {initiator e es t : α}
    (index : ℕ) (identity : r.hasIdentity = true)
    (exchange : c.curve25519 r.staticPrivate e = some es)
    (known : lookup initiator = some peer)
    (nonzero : (handshake peer).precomputedStaticStatic ≠ c.zero) :
    consumeInitiation c r lookup handshake
        { senderIndex := index
          unencryptedEphemeral := e
          encryptedStatic := sealedStatic c r.staticPublic e es initiator
          encryptedTimestamp := sealedTimestamp c r.staticPublic e es
            (handshake peer).precomputedStaticStatic initiator t } =
      some (peer,
        { ephemeral := e
          timestamp := t
          hash := initiationHash c r.staticPublic e
            (sealedStatic c r.staticPublic e es initiator)
            (sealedTimestamp c r.staticPublic e es
              (handshake peer).precomputedStaticStatic initiator t)
          chainingKey := (timestampKeys c e es (handshake peer).precomputedStaticStatic).1
          remoteIndex := index }) := by
  rw [consumeInitiation_eq_some_iff]
  refine ⟨identity, es, initiator, t, exchange, ?_, known, nonzero, ?_, rfl⟩
  · exact lawful.decrypt_encrypt ..
  · exact lawful.decrypt_encrypt ..

/-- A response is accepted by an initiator with the same hash and chaining key.  It then
goes on with the responder's chaining key. -/
theorem consumeResponse_sealed (lawful : c.Lawful) {i : Identity α} (hs : Handshake α)
    {e ee se : α} (sender receiver : ℕ) (identity : i.hasIdentity = true)
    (state : hs.state = .createdInitiation)
    (exchange : c.curve25519 hs.ephemeralPrivate e = some ee)
    (exchange' : c.curve25519 i.staticPrivate e = some se) :
    consumeResponse c i hs
        { senderIndex := sender
          receiverIndex := receiver
          unencryptedEphemeral := e
          encryptedNothing := sealedNothing c hs.chainingKey hs.hash e ee se hs.presharedKey } =
      some
        { ephemeral := e
          hash := mixHash c
            (nothingHash c hs.hash e
              (responseKeys c hs.chainingKey e ee se hs.presharedKey).2.1)
            (sealedNothing c hs.chainingKey hs.hash e ee se hs.presharedKey)
          chainingKey := (responseKeys c hs.chainingKey e ee se hs.presharedKey).1
          remoteIndex := sender } := by
  rw [consumeResponse_eq_some_iff]
  exact ⟨identity, state, ee, se, c.empty, exchange, exchange', lawful.decrypt_encrypt .., rfl⟩

/-- A handshake between two sides, message by message, with the ephemeral keys, the time and the
indices that they pick. -/
def exchange [DecidableEq α] (c : Crypto α) (i r : Identity α) (hi : Handshake α)
    (lookup : α → Option P) (handshake : P → Handshake α) (ei er t : α) (ii ir now : ℕ) :
    Option (Session α × Session α) := do
  let (hi, initiation) := createInitiation c i hi ei t ii
  let (peer, verified) ← consumeInitiation c r lookup handshake (← initiation)
  guard (initiationAllowed c (handshake peer) verified now = true)
  let hr := commitInitiation c (handshake peer) verified now
  let (hr, response) := createResponse c hr er ir
  let accepted ← consumeResponse c i hi (← response)
  let (initiator, _) ← beginSession c (← commitResponse hi accepted)
  let (responder, _) ← beginSession c hr
  return (initiator, responder)

/-- **Agreement.**  The exchange between two configured sides goes through, and the two sessions
have each other's keys and indices. -/
theorem exchange_agrees [DecidableEq α] (lawful : c.Lawful) {i r : Identity α} {hi : Handshake α}
    {lookup : α → Option P} {handshake : P → Handshake α} (peer : P)
    (configured : Configured c i r hi (handshake peer))
    (known : lookup i.staticPublic = some peer) {ei er Ei Er t : α}
    (public_ei : c.generatePublic ei = some Ei) (public_er : c.generatePublic er = some Er)
    (fresh : c.newer t (handshake peer).latestTimestamp = true) (ii ir : ℕ) {now : ℕ}
    (calm : (handshake peer).lastInitiationConsumption + initiationInterval ≤ now) :
    ∃ si sr, exchange c i r hi lookup handshake ei er t ii ir now = some (si, sr) ∧
      si.sending = sr.receiving ∧ si.receiving = sr.sending ∧
      si.remoteIndex = ir ∧ sr.remoteIndex = ii := by
  obtain ⟨es, es_i, es_r, -⟩ := lawful.exchange public_ei configured.public_r
  obtain ⟨ss, ss_i, ss_r, ss_ne⟩ := lawful.exchange configured.public_i configured.public_r
  obtain ⟨ee, ee_i, ee_r, -⟩ := lawful.exchange public_ei public_er
  obtain ⟨se, se_i, se_r, -⟩ := lawful.exchange configured.public_i public_er
  have pre_i : hi.precomputedStaticStatic = ss :=
    Option.some.inj (configured.precomputed_i.symm.trans ss_i)
  have pre_r : (handshake peer).precomputedStaticStatic = ss :=
    Option.some.inj (configured.precomputed_r.symm.trans ss_r)
  have nonzero : (handshake peer).precomputedStaticStatic ≠ c.zero := pre_r ▸ ss_ne
  -- The two sides have the same precomputed key, so what one seals the other opens.
  have same : hi.precomputedStaticStatic = (handshake peer).precomputedStaticStatic :=
    pre_i.trans pre_r.symm
  have create := createInitiation_eq c (t := t) ii configured.hasIdentity_i public_ei
    (configured.remote_i.symm ▸ es_i) (same.symm ▸ nonzero)
  rw [configured.remote_i, same] at create
  have consume := consumeInitiation_sealed lawful (t := t) ii configured.hasIdentity_r es_r known
    nonzero
  obtain ⟨v, read⟩ : ∃ v : Verified α, v =
      { ephemeral := Ei
        timestamp := t
        hash := initiationHash c r.staticPublic Ei
          (sealedStatic c r.staticPublic Ei es i.staticPublic)
          (sealedTimestamp c r.staticPublic Ei es
            (handshake peer).precomputedStaticStatic i.staticPublic t)
        chainingKey := (timestampKeys c Ei es (handshake peer).precomputedStaticStatic).1
        remoteIndex := ii } := ⟨_, rfl⟩
  rw [← read] at consume
  have respond := createResponse_eq c (commitInitiation c (handshake peer) v now) ir rfl
    public_er (by rw [read]; exact ee_r) (configured.remote_r.symm ▸ se_r)
  have accept := consumeResponse_sealed lawful (initiated c hi ei Ei es i.staticPublic t) ir ii
    configured.hasIdentity_i rfl ee_i se_i
  -- At this point the two sides have the same chaining key, hash and preshared key.
  have chainingKey : (initiated c hi ei Ei es i.staticPublic t).chainingKey =
      (commitInitiation c (handshake peer) v now).chainingKey := by
    simp [initiated, commitInitiation, read, same]
  have hash : (initiated c hi ei Ei es i.staticPublic t).hash =
      (commitInitiation c (handshake peer) v now).hash := by
    simp [initiated, commitInitiation, read, same, configured.remote_i]
  have psk : (initiated c hi ei Ei es i.staticPublic t).presharedKey =
      (commitInitiation c (handshake peer) v now).presharedKey := configured.psk
  rw [chainingKey, hash, psk] at accept
  have allowed : initiationAllowed c (handshake peer) v now = true := by
    simp [initiationAllowed, read, fresh, calm]
  have receiver : (commitInitiation c (handshake peer) v now).remoteIndex = ii := by
    simp [commitInitiation, read]
  rw [receiver] at respond
  let last := (responded c (commitInitiation c (handshake peer) v now) er Er ee se).chainingKey
  refine ⟨sessionOf c true ir last, sessionOf c false ii last, ?_, rfl, rfl, rfl, rfl⟩
  simp only [exchange, create, consume, allowed, respond, accept, guard, if_true,
    Option.bind_eq_bind, Option.bind_some, Option.pure_def]
  simp [commitResponse, beginSession, initiated, responded, receiver, last]

open Symbolic in
/-- The exchange on terms, between the owners of the names 0 and 1. -/
theorem exchange_agrees_terms : ∃ si sr,
    exchange symbolic ⟨.pub 0, .name 0, true⟩ ⟨.pub 1, .name 1, true⟩ (newHandshake 0 (.pub 1))
        (fun t => if t = .pub 0 then some () else none) (fun _ => newHandshake 1 (.pub 0))
        (.name 2) (.name 3) (.const 9) 10 11 1000000000 = some (si, sr) ∧
      si.sending = sr.receiving ∧ si.receiving = sr.sending ∧
      si.remoteIndex = 11 ∧ sr.remoteIndex = 10 := by
  have public_ei : symbolic.generatePublic (.name 2) = some (.pub 2) := rfl
  have public_er : symbolic.generatePublic (.name 3) = some (.pub 3) := rfl
  refine exchange_agrees symbolic_lawful () ?_ ?_ public_ei public_er ?_ 10 11 ?_
  · exact ⟨rfl, rfl, rfl, rfl, rfl, rfl, rfl, rfl, rfl⟩
  · decide
  · decide
  · decide

end Noise
end WgReceivePath
