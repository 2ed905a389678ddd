import Mathlib.Data.Nat.Notation
import Mathlib.Data.Set.Basic
import Mathlib.Tactic.SplitIfs

/-!
# Symbolic cryptography

The term algebra of messages with perfect primitives, and an attacker who controls the
network: it knows every public constant and public key and every private name that is not
secret, and derives what it can from what has been sent.

## Main definitions

* `Term` with the key exchange `dh`, which gives both sides the same term, and opening,
  `dec`, which takes the key and the label that a message was sealed with.
* `Derives secret sent` : what the attacker derives from what was sent.
* `Tainted secret` : a secret is mixed into the term, on a path that no honest sealing
  hides.
* `Safe secret sealed` : the attacker may have the term, given what honest parties have
  sealed.

## What carries the proofs

The set of everything the attacker may ever know is bounded by a set of *safe* terms that is
closed under derivation.  Honest parties seal messages under keys the attacker does not
have; the set is therefore relative to a predicate `sealed` of the messages so sealed, which
are safe although their keys are not.  The rules are:

* `Derives.safe` : if all that was sent is safe, so is all that can be derived;
* `Tainted.not_safe` : a term is not safe if a secret is mixed into it, whatever is sealed.

Together they give secrecy (a tainted term is never derived) and authentication
(`Safe.sealed_of_tainted`: a message under a tainted key was sealed by an honest party).  An
invariant of a protocol then has to say of each message that is sent that it is safe, and of
each key that it is tainted; it never has to speak of the attacker.
-/

namespace Symbolic

/-- Messages.  Private keys are names; `shared a b` is the result of the key exchange between two
of them, `point` that of an exchange with anything else. -/
inductive Term
  | const (n : ℕ)
  | name (a : ℕ)
  | pub (a : ℕ)
  | shared (a b : ℕ)
  | point (secret point : Term)
  | hash (t : Term)
  | hmac (key data : Term)
  | pair (x y : Term)
  | enc (key label text : Term)
  deriving DecidableEq

namespace Term

/-- The key exchange.  Both sides get the same term. -/
def dh : Term → Term → Term
  | name a, pub b => shared (min a b) (max a b)
  | t, u => point t u

/-- Opening a sealed message takes the key and the label it was sealed with. -/
def dec (key label : Term) : Term → Option Term
  | enc key' label' text => if key' = key ∧ label' = label then some text else none
  | _ => none

theorem dh_comm (a b : ℕ) : dh (name a) (pub b) = dh (name b) (pub a) := by
  simp only [dh, min_comm, max_comm]

theorem dec_enc (key label text : Term) :
    dec key label (enc key label text) = some text := by
  simp [dec]

theorem dec_eq_some {key label t text : Term} :
    dec key label t = some text ↔ t = enc key label text := by
  constructor
  · intro opened
    unfold dec at opened
    split at opened
    · split_ifs at opened with same
      obtain ⟨rfl, rfl⟩ := same
      cases opened
      rfl
    · cases opened
  · rintro rfl
    exact dec_enc ..

end Term

/-- What the attacker derives from the messages in `sent`: the closure of these, of the
constants, the public keys and the names that are not secret under the primitives,
projections and opening with a known key. -/
inductive Derives (secret : ℕ → Prop) (sent : Set Term) : Term → Prop
  | sent {t} (mem : t ∈ sent) : Derives secret sent t
  | const (n) : Derives secret sent (.const n)
  | pub (a) : Derives secret sent (.pub a)
  | name {a} (open_ : ¬ secret a) : Derives secret sent (.name a)
  | dh {t u} (left : Derives secret sent t) (right : Derives secret sent u) :
      Derives secret sent (.dh t u)
  | hash {t} (known : Derives secret sent t) : Derives secret sent (.hash t)
  | hmac {k t} (key : Derives secret sent k) (known : Derives secret sent t) :
      Derives secret sent (.hmac k t)
  | pair {t u} (left : Derives secret sent t) (right : Derives secret sent u) :
      Derives secret sent (.pair t u)
  | fst {t u} (known : Derives secret sent (.pair t u)) : Derives secret sent t
  | snd {t u} (known : Derives secret sent (.pair t u)) : Derives secret sent u
  | enc {k l t} (key : Derives secret sent k) (label : Derives secret sent l)
      (known : Derives secret sent t) : Derives secret sent (.enc k l t)
  | dec {k l t} (known : Derives secret sent (.enc k l t)) (key : Derives secret sent k) :
      Derives secret sent t

variable {secret : ℕ → Prop} {sealed sealed' : Term → Term → Term → Prop} {sent : Set Term}
  {t u k l : Term}

/-- A secret is mixed into the term.  A shared secret takes both private keys to be secret,
since either side can compute it; a sealed message is not tainted, since it is sent. -/
def Tainted (secret : ℕ → Prop) : Term → Prop
  | .name a => secret a
  | .shared a b => secret a ∧ secret b
  | .point t u => Tainted secret t ∨ Tainted secret u
  | .hash t => Tainted secret t
  | .hmac k t => Tainted secret k ∨ Tainted secret t
  | .pair t u => Tainted secret t ∨ Tainted secret u
  | .const _ | .pub _ | .enc _ _ _ => False

/-- The attacker may have the term, given what honest parties have sealed.  A sealed message
is safe if its parts are or if an honest party sealed it. -/
def Safe (secret : ℕ → Prop) (sealed : Term → Term → Term → Prop) : Term → Prop
  | .name a => ¬ secret a
  | .shared a b => ¬ secret a ∨ ¬ secret b
  | .point t u => Safe secret sealed t ∧ Safe secret sealed u
  | .hash t => Safe secret sealed t
  | .hmac k t => Safe secret sealed k ∧ Safe secret sealed t
  | .pair t u => Safe secret sealed t ∧ Safe secret sealed u
  | .enc k l t => sealed k l t ∨ Safe secret sealed k ∧ Safe secret sealed t
  | .const _ | .pub _ => True

theorem Tainted.not_safe (tainted : Tainted secret t) : ¬ Safe secret sealed t := by
  induction t with
  | const | pub | enc => exact absurd tainted id
  | name a => exact fun safe => safe tainted
  | shared a b => exact fun safe => safe.elim (· tainted.1) (· tainted.2)
  | hash t ih => exact ih tainted
  | point t u iht ihu => exact fun safe => tainted.elim (iht · safe.1) (ihu · safe.2)
  | hmac t u iht ihu => exact fun safe => tainted.elim (iht · safe.1) (ihu · safe.2)
  | pair t u iht ihu => exact fun safe => tainted.elim (iht · safe.1) (ihu · safe.2)

/-- More secrets taint more. -/
theorem Tainted.mono {secret' : ℕ → Prop} (more : ∀ a, secret a → secret' a)
    (tainted : Tainted secret t) : Tainted secret' t := by
  induction t with
  | const | pub | enc => exact tainted
  | name a => exact more a tainted
  | shared a b => exact ⟨more a tainted.1, more b tainted.2⟩
  | hash t ih => exact ih tainted
  | point t u iht ihu => exact tainted.imp iht ihu
  | hmac t u iht ihu => exact tainted.imp iht ihu
  | pair t u iht ihu => exact tainted.imp iht ihu

/-- With fewer secrets the attacker derives more. -/
theorem Derives.leak {secret' : ℕ → Prop} (fewer : ∀ a, secret' a → secret a)
    (derives : Derives secret sent t) : Derives secret' sent t := by
  induction derives with
  | sent mem => exact .sent mem
  | const n => exact .const n
  | pub a => exact .pub a
  | name open_ => exact .name fun h => open_ (fewer _ h)
  | dh _ _ left right => exact .dh left right
  | hash _ ih => exact .hash ih
  | hmac _ _ key ih => exact .hmac key ih
  | pair _ _ left right => exact .pair left right
  | fst _ ih => exact .fst ih
  | snd _ ih => exact .snd ih
  | enc _ _ _ key label ih => exact .enc key label ih
  | dec _ _ ih key => exact .dec ih key

/-- Sealing more makes no term unsafe. -/
theorem Safe.mono (more : ∀ k l t, sealed k l t → sealed' k l t) (safe : Safe secret sealed t) :
    Safe secret sealed' t := by
  induction t with
  | const | pub => trivial
  | name | shared => exact safe
  | hash t ih => exact ih safe
  | point t u iht ihu => exact ⟨iht safe.1, ihu safe.2⟩
  | hmac t u iht ihu => exact ⟨iht safe.1, ihu safe.2⟩
  | pair t u iht ihu => exact ⟨iht safe.1, ihu safe.2⟩
  | enc k l t ihk ihl iht => exact safe.imp (more k l t) fun h => ⟨ihk h.1, iht h.2⟩

theorem safe_shared (a b : ℕ) :
    Safe secret sealed (.shared (min a b) (max a b)) ↔ ¬ secret a ∨ ¬ secret b := by
  rcases le_total a b with le | le
  · simp [Safe, le]
  · simp [Safe, le, or_comm]

theorem tainted_shared (a b : ℕ) :
    Tainted secret (.shared (min a b) (max a b)) ↔ secret a ∧ secret b := by
  rcases le_total a b with le | le
  · simp [Tainted, le]
  · simp [Tainted, le, and_comm]

theorem Safe.dh (left : Safe secret sealed t) (right : Safe secret sealed u) :
    Safe secret sealed (.dh t u) := by
  unfold Term.dh
  split
  · exact (safe_shared _ _).mpr (.inl left)
  · exact ⟨left, right⟩

/-- **The closed set.**  If honest parties seal only under tainted keys and all that was sent is
safe, everything the attacker derives is safe. -/
theorem Derives.safe (keys : ∀ k l t, sealed k l t → Tainted secret k)
    (safe : ∀ t ∈ sent, Safe secret sealed t) (derives : Derives secret sent t) :
    Safe secret sealed t := by
  induction derives with
  | sent mem => exact safe _ mem
  | const | pub => trivial
  | name open_ => exact open_
  | dh _ _ left right => exact left.dh right
  | hash _ ih => exact ih
  | hmac _ _ key ih => exact ⟨key, ih⟩
  | pair _ _ left right => exact ⟨left, right⟩
  | fst _ ih => exact ih.1
  | snd _ ih => exact ih.2
  | enc _ _ _ key _ ih => exact .inr ⟨key, ih⟩
  | dec _ _ ih key =>
      obtain honest | ⟨-, text⟩ := ih
      · exact absurd key (keys _ _ _ honest).not_safe
      · exact text

/-- A message under a tainted key comes from an honest party. -/
theorem Safe.sealed_of_tainted (safe : Safe secret sealed (.enc k l t))
    (tainted : Tainted secret k) : sealed k l t :=
  safe.resolve_right fun h => tainted.not_safe h.1

/-! ## Tainted or safe

What an honest party computes from its secrets and from what it has received is one or the
other. -/

/-- The term is tainted or safe. -/
def Graded (secret : ℕ → Prop) (sealed : Term → Term → Term → Prop) (t : Term) : Prop :=
  Tainted secret t ∨ Safe secret sealed t

theorem Safe.graded (safe : Safe secret sealed t) : Graded secret sealed t := .inr safe

theorem graded_name (a : ℕ) : Graded secret sealed (.name a) := Classical.em _

theorem Graded.mono (more : ∀ k l t, sealed k l t → sealed' k l t)
    (graded : Graded secret sealed t) : Graded secret sealed' t :=
  graded.imp_right (Safe.mono more)

theorem Graded.hmac (key : Graded secret sealed k) (data : Graded secret sealed t) :
    Graded secret sealed (.hmac k t) := by
  obtain key | key := key
  · exact .inl (.inl key)
  · exact data.imp .inr fun data => ⟨key, data⟩

theorem Graded.pair (left : Graded secret sealed t) (right : Graded secret sealed u) :
    Graded secret sealed (.pair t u) := by
  obtain left | left := left
  · exact .inl (.inl left)
  · exact right.imp .inr fun right => ⟨left, right⟩

/-- What is encrypted can be sent, if it is recorded as sealed whenever its key is tainted. -/
theorem Graded.safe_enc (key : Graded secret sealed k) (text : Safe secret sealed t)
    (recorded : Tainted secret k → sealed k l t) : Safe secret sealed (.enc k l t) :=
  key.elim (fun tainted => .inl (recorded tainted)) fun safe => .inr ⟨safe, text⟩

/-- A key exchange with what the attacker has sent. -/
theorem graded_dh (a : ℕ) (safe : Safe secret sealed u) :
    Graded secret sealed (.dh (.name a) u) := by
  by_cases known : secret a
  · unfold Term.dh
    split
    · rename_i a' b names
      cases names
      by_cases known' : secret b
      · exact .inl ((tainted_shared _ _).mpr ⟨known, known'⟩)
      · exact .inr ((safe_shared _ _).mpr (.inr known'))
    · exact .inl (.inl known)
  · exact .inr (Safe.dh known safe)

end Symbolic
