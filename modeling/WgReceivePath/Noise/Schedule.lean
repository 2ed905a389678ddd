import WgReceivePath.Noise.Terms
import WgReceivePath.Noise.Transcript

/-!
# The key schedule on terms

On symbolic terms a secret that is mixed into a chaining key taints all later keys of the
handshake (`tainted_timestampKeys`, `tainted_responseKeys`), and what is mixed from parts
that are tainted or safe is itself one or the other (`graded_kdf`).  So the attacker either
has nothing of a key, or the key gives it nothing.

The labels of the three ciphertexts of a handshake tell them apart: they are hashes of
transcripts of different lengths, so that none can stand for another
(`timestampHash_ne_staticHash`, `nothingHash_ne_staticHash`,
`nothingHash_ne_timestampHash`).  And each determines the transcript before it, because
hashing is injective on terms.
-/

namespace WgReceivePath
namespace Noise

open Symbolic

variable {secret : ℕ → Prop} {sealed : Term → Term → Term → Prop} {data ck e es ss : Term}

/-! ## The key schedule on terms -/

theorem tainted_kdf (tainted : Tainted secret ck ∨ Tainted secret data) :
    Tainted secret (kdf symbolic data ck).1 ∧ Tainted secret (kdf symbolic data ck).2.1 ∧
      Tainted secret (kdf symbolic data ck).2.2 :=
  ⟨.inl tainted, .inl tainted, .inl tainted⟩

theorem graded_kdf (gradedCk : Graded secret sealed ck) (gradedData : Graded secret sealed data) :
    Graded secret sealed (kdf symbolic data ck).1 ∧
      Graded secret sealed (kdf symbolic data ck).2.1 ∧
      Graded secret sealed (kdf symbolic data ck).2.2 := by
  have byte (n : ℕ) : Graded secret sealed (symbolic.byte n) := .inr trivial
  have extracted := gradedCk.hmac gradedData
  have first := extracted.hmac (byte 1)
  have second := extracted.hmac (first.pair (byte 2))
  exact ⟨first, second, extracted.hmac (second.pair (byte 3))⟩

theorem kdf_injective {data' ck' : Term}
    (same : (kdf symbolic data ck).2.2 = (kdf symbolic data' ck').2.2) :
    data = data' ∧ ck = ck' := by
  simp only [kdf, symbolic, Term.hmac.injEq] at same
  exact ⟨same.1.2, same.1.1⟩

/-- Either of the two exchanges of an initiation taints the keys that follow. -/
theorem tainted_timestampKeys (tainted : Tainted secret es ∨ Tainted secret ss) :
    Tainted secret (timestampKeys symbolic e es ss).1 ∧
      Tainted secret (timestampKeys symbolic e es ss).2.1 := by
  have mixed : Tainted secret (staticKeys symbolic e es).1 ∨ Tainted secret ss :=
    tainted.imp_left fun tainted => (tainted_kdf (.inr tainted)).1
  exact ⟨(tainted_kdf mixed).1, (tainted_kdf mixed).2.1⟩

/-- The chaining key and the exchange of the ephemeral keys both taint the keys of a response. -/
theorem tainted_responseKeys {ee se psk : Term} (tainted : Tainted secret ck ∨ Tainted secret ee) :
    Tainted secret (responseKeys symbolic ck e ee se psk).1 ∧
      Tainted secret (responseKeys symbolic ck e ee se psk).2.2 := by
  have exchanged : Tainted secret (kdf symbolic ee (kdf symbolic e ck).1).1 :=
    (tainted_kdf (tainted.imp_left fun tainted => (tainted_kdf (.inl tainted)).1)).1
  have last : Tainted secret (kdf symbolic se (kdf symbolic ee (kdf symbolic e ck).1).1).1 :=
    (tainted_kdf (.inl exchanged)).1
  exact ⟨(tainted_kdf (.inl last)).1, (tainted_kdf (.inl last)).2.2⟩

theorem graded_staticKeys (graded_e : Graded secret sealed e)
    (graded_es : Graded secret sealed es) :
    Graded secret sealed (staticKeys symbolic e es).1 ∧
      Graded secret sealed (staticKeys symbolic e es).2.1 := by
  have init : Graded secret sealed (handshakeInitChainingKey symbolic) := .inr trivial
  have keys := graded_kdf (graded_kdf init graded_e).1 graded_es
  exact ⟨keys.1, keys.2.1⟩

theorem graded_timestampKeys (graded_e : Graded secret sealed e)
    (graded_es : Graded secret sealed es) (graded_ss : Graded secret sealed ss) :
    Graded secret sealed (timestampKeys symbolic e es ss).1 ∧
      Graded secret sealed (timestampKeys symbolic e es ss).2.1 := by
  have keys := graded_kdf (graded_staticKeys graded_e graded_es).1 graded_ss
  exact ⟨keys.1, keys.2.1⟩

theorem graded_responseKeys {ee se psk : Term} (graded : Graded secret sealed ck)
    (graded_e : Graded secret sealed e) (graded_ee : Graded secret sealed ee)
    (graded_se : Graded secret sealed se) (graded_psk : Graded secret sealed psk) :
    Graded secret sealed (responseKeys symbolic ck e ee se psk).2.2 :=
  (graded_kdf (graded_kdf (graded_kdf (graded_kdf graded graded_e).1 graded_ee).1 graded_se).1
    graded_psk).2.2

/-! ## The labels of the ciphertexts -/

section labels

variable {r r' e' cs cs' ct h tmp tmp' : Term}

theorem timestampHash_ne_staticHash :
    timestampHash symbolic r e cs ≠ staticHash symbolic r' e' := by
  simp [timestampHash, staticHash, mixHash, handshakeInitHash, handshakeInitChainingKey, symbolic]

theorem nothingHash_ne_staticHash :
    nothingHash symbolic (initiationHash symbolic r e cs ct) e' tmp ≠
      staticHash symbolic r' h := by
  simp [nothingHash, initiationHash, timestampHash, staticHash, mixHash, handshakeInitHash,
    handshakeInitChainingKey, symbolic]

theorem nothingHash_ne_timestampHash :
    nothingHash symbolic (initiationHash symbolic r e cs ct) e' tmp ≠
      timestampHash symbolic r' h cs' := by
  simp [nothingHash, initiationHash, timestampHash, staticHash, mixHash, handshakeInitHash,
    handshakeInitChainingKey, symbolic]

theorem timestampHash_injective
    (same : timestampHash symbolic r e cs = timestampHash symbolic r' e' cs') :
    r = r' ∧ e = e' ∧ cs = cs' := by
  simpa [timestampHash, staticHash, mixHash, symbolic, and_assoc] using same

theorem nothingHash_injective {h' : Term}
    (same : nothingHash symbolic h e tmp = nothingHash symbolic h' e' tmp') :
    h = h' ∧ e = e' ∧ tmp = tmp' := by
  simpa [nothingHash, mixHash, symbolic, and_assoc] using same

theorem initiationHash_injective {ct' : Term}
    (same : initiationHash symbolic r e cs ct = initiationHash symbolic r' e' cs' ct') :
    r = r' ∧ e = e' ∧ cs = cs' ∧ ct = ct' := by
  simpa [initiationHash, timestampHash, staticHash, mixHash, symbolic, and_assoc] using same

end labels

end Noise
end WgReceivePath
