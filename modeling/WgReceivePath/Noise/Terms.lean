import WgReceivePath.Lib.Symbolic
import WgReceivePath.Noise.Handshake

/-!
# The primitives on symbolic terms

Perfect primitives: hashes and ciphertexts are terms of their own, so that equal results
have equal arguments, a key exchange is a term that both orders of its keys give, and a
timestamp is a constant.  They are lawful (`symbolic_lawful`) and their timestamps are
ordered (`symbolic_ordered`), so that what is proved of arbitrary primitives holds of them,
and they can be run.
-/

namespace WgReceivePath
namespace Noise

open Symbolic

/-- The primitives on terms.  Only names have a public key, and a ciphertext is decrypted
with exactly its key and its label. -/
def symbolic : Crypto Term where
  blake2s := .hash
  append := .pair
  hmac := .hmac
  curve25519 secret point := some (.dh secret point)
  generatePublic
    | .name a => some (.pub a)
    | _ => none
  encrypt := .enc
  decrypt := Term.dec
  newer
    | .const m, .const n => decide (n < m)
    | _, _ => false
  byte := .const
  empty := .const 4
  zero := .const 0
  handshakeName := .const 5
  identifierName := .const 6

theorem symbolic_lawful : symbolic.Lawful where
  exchange {a A b B} public_a public_b := by
    obtain ⟨x, rfl, rfl⟩ : ∃ x, a = .name x ∧ A = .pub x := by
      cases a <;> simp_all [symbolic]
    obtain ⟨y, rfl, rfl⟩ : ∃ y, b = .name y ∧ B = .pub y := by
      cases b <;> simp_all [symbolic]
    refine ⟨Term.dh (.name x) (.pub y), rfl, congrArg some (Term.dh_comm y x), ?_⟩
    simp [Term.dh, symbolic]
  decrypt_encrypt _ _ _ := Term.dec_enc ..

theorem newer_symbolic {t u : Term} (newer : symbolic.newer t u = true) :
    ∃ m n, t = .const m ∧ u = .const n ∧ n < m := by
  simp only [symbolic] at newer
  split at newer
  · exact ⟨_, _, rfl, rfl, of_decide_eq_true newer⟩
  · cases newer

theorem symbolic_ordered : symbolic.Ordered where
  irrefl t := by
    refine Bool.eq_false_iff.mpr fun newer => ?_
    obtain ⟨m, n, rfl, same, less⟩ := newer_symbolic newer
    cases same
    exact lt_irrefl m less
  trans newer newer' := by
    obtain ⟨l, m, rfl, rfl, less⟩ := newer_symbolic newer
    obtain ⟨_, n, same, rfl, less'⟩ := newer_symbolic newer'
    cases same
    exact decide_eq_true (less'.trans less)

/-- The handshake of a peer with the given public key, on the side with the given private
key, as it is configured: the static exchange is computed and nothing has happened yet. -/
def newHandshake (own : ℕ) (remote : Term) : Handshake Term where
  state := .zeroed
  lastInitiationConsumption := 0
  ephemeralPrivate := .const 0
  remoteStatic := remote
  remoteEphemeral := .const 0
  precomputedStaticStatic := .dh (.name own) remote
  presharedKey := .const 0
  hash := .const 0
  chainingKey := .const 0
  latestTimestamp := .const 0
  remoteIndex := 0

end Noise
end WgReceivePath
