import WgReceivePath.AllowedIps.Table

/-!
# Tries as linked prefixes

What the pointers of a trie mean does not depend on how a node stores its address.  A `View`
keeps of every node its family, the prefix it stands for, its peer and the slot it hangs
from; next to that what every slot points to and the lists of the peers.

## Main definitions

* `View.Linked`: slots and back pointers agree, and every child extends the prefix of its
  parent by the bit of its slot.
* `View.walk`, the nodes of a search for a key.
* `View.add`, `View.connect` and `View.replace`, what the source does to the links.

## Main results

* `Linked.exists_walk`: the search for a key passes every node whose prefix it extends, so
  that a prefix has at most one node (`Linked.unique`).
* `Linked.leaf`, `Linked.insertAbove` and `Linked.replaced`: the three ways in which the
  source relinks a trie keep a view linked.  A leaf is hung from an empty slot, a node is
  put above another one, and a node with at most one child is replaced by that child.

There is no inductive tree behind a view.  Being linked is local, one condition for a node
and one for a slot, so that a change of a few pointers is checked at these pointers; the
global facts follow by induction on the length of prefixes.
-/

namespace WgReceivePath
namespace AllowedIps

variable {P : Type}

/-- What the structure of a trie depends on in a node. -/
structure Tag (P : Type) where
  family : Family
  pre : List Bool
  peer : Option P
  parent : Option Slot

/-- A table without the bytes of its nodes: their tags, what every slot holds, the list of
every peer and the next free address. -/
@[ext] structure View (P : Type) where
  tag : Ptr → Option (Tag P)
  slot : Slot → Option Ptr
  list : P → List Ptr
  next : Ptr

namespace View

/-- A prefix of the family may hang from the slot: the slot is a root of that family, or the
prefix goes on with the bit of the slot after that of its node. -/
def Above (v : View P) (f : Family) (p : List Bool) : Slot → Prop
  | .root g => g = f
  | .bit n b => ∃ above, v.tag n = some above ∧ above.family = f ∧ above.pre ++ [b] <+: p

/-- Slots and back pointers agree, and prefixes grow downwards.  The first field is about
nodes, the second one about slots. -/
structure Linked (v : View P) : Prop where
  hangs : ∀ {n g}, v.tag n = some g →
    ∃ σ, g.parent = some σ ∧ v.slot σ = some n ∧ v.Above g.family g.pre σ
  held : ∀ {σ n}, v.slot σ = some n → ∃ g, v.tag n = some g ∧ g.parent = some σ

variable {v : View P} {f : Family} {n d : Ptr} {g below : Tag P} {σ : Slot}

/-! ## Walking down

A walk for a key is the path that a search takes.  It never branches, its prefixes grow, and
it passes every node that the key extends. -/

/-- The next node of a search for `key`, below a node that matches. -/
def down (v : View P) (key : List Bool) (n : Ptr) : Option Ptr :=
  (v.tag n).bind fun g =>
    if g.pre <+: key then key[g.pre.length]?.bind fun b => v.slot (.bit n b) else none

/-- The nodes of a search for `key`, from the root on. -/
def walk (v : View P) (f : Family) (key : List Bool) : ℕ → Option Ptr
  | 0 => v.slot (.root f)
  | k + 1 => (v.walk f key k).bind (v.down key)

theorem down_eq_some {key : List Bool} :
    v.down key n = some d ↔ ∃ g b, v.tag n = some g ∧ g.pre ++ [b] <+: key ∧
      v.slot (.bit n b) = some d := by
  constructor
  · intro next
    simp only [down, Option.bind_eq_some_iff, Option.ite_none_right_eq_some] at next
    obtain ⟨g, tagged, ⟨rest, rfl⟩, b, bit, held⟩ := next
    refine ⟨g, b, tagged, ?_, held⟩
    cases rest with
    | nil => simp at bit
    | cons a rest => simp_all
  · rintro ⟨g, b, tagged, ⟨rest, rfl⟩, held⟩
    simp [down, tagged, held]

namespace Linked

/-- A slot of a node leads to a longer prefix of the same family. -/
theorem child (linked : v.Linked) {b : Bool} (tagged : v.tag n = some g)
    (held : v.slot (.bit n b) = some d) :
    ∃ below, v.tag d = some below ∧ below.family = g.family ∧ g.pre ++ [b] <+: below.pre := by
  obtain ⟨below, tagged', parent⟩ := linked.held held
  obtain ⟨σ, parent', -, above⟩ := linked.hangs tagged'
  obtain rfl : σ = .bit n b := by simpa [parent] using parent'.symm
  obtain ⟨g', same, family, extends'⟩ := above
  obtain rfl : g = g' := by simpa [tagged] using same
  exact ⟨below, tagged', family.symm, extends'⟩

theorem root_family (linked : v.Linked) (held : v.slot (.root f) = some n) :
    ∃ g, v.tag n = some g ∧ g.family = f := by
  obtain ⟨g, tagged, parent⟩ := linked.held held
  obtain ⟨σ, parent', -, above⟩ := linked.hangs tagged
  obtain rfl : σ = .root f := by simpa [parent] using parent'.symm
  exact ⟨g, tagged, above.symm⟩

/-- What hangs from a slot is of the family that may hang there. -/
theorem held_family (linked : v.Linked) {p : List Bool} (above : v.Above f p σ)
    (held : v.slot σ = some n) :
    ∃ g, v.tag n = some g ∧ g.family = f ∧ g.parent = some σ ∧ v.Above f g.pre σ := by
  obtain ⟨g, tagged, parent⟩ := linked.held held
  obtain ⟨σ', parent', -, above'⟩ := linked.hangs tagged
  obtain rfl : σ = σ' := by simpa [parent] using parent'
  have family : g.family = f := by
    cases σ with
    | root f' => exact above'.symm.trans above
    | bit m b =>
        obtain ⟨up, at_up, family, -⟩ := above
        obtain ⟨up', at_up', family', -⟩ := above'
        obtain rfl : up = up' := by simpa [at_up] using at_up'
        exact family'.symm.trans family
  exact ⟨g, tagged, family, parent, family ▸ above'⟩

/-- The nodes of a search are nodes of the family, each with a longer prefix.  Hence a
search has at most one node more than the address has bits. -/
theorem walk_tagged (linked : v.Linked) {key : List Bool} {k : ℕ}
    (passed : v.walk f key k = some n) :
    ∃ g, v.tag n = some g ∧ g.family = f ∧ k ≤ g.pre.length := by
  induction k generalizing n with
  | zero =>
      obtain ⟨g, tagged, family⟩ := linked.root_family passed
      exact ⟨g, tagged, family, Nat.zero_le _⟩
  | succ k ih =>
      obtain ⟨m, before, next⟩ := Option.bind_eq_some_iff.mp passed
      obtain ⟨g, tagged, family, deep⟩ := ih before
      obtain ⟨g', b, same, -, held⟩ := down_eq_some.mp next
      obtain rfl : g = g' := by simpa [tagged] using same
      obtain ⟨below, tagged', family', extends'⟩ := linked.child tagged held
      have longer := extends'.length_le
      refine ⟨below, tagged', family'.trans family, ?_⟩
      simp only [List.length_append, List.length_singleton] at longer
      omega

theorem walk_lt (linked : v.Linked) {key : List Bool} {i j : ℕ} (less : i < j)
    (first : v.walk f key i = some n) (tagged : v.tag n = some g)
    (second : v.walk f key j = some d) (tagged' : v.tag d = some below) :
    g.pre.length < below.pre.length := by
  induction j generalizing d below with
  | zero => omega
  | succ j ih =>
      obtain ⟨m, before, next⟩ := Option.bind_eq_some_iff.mp second
      obtain ⟨middle, b, at_m, -, held⟩ := down_eq_some.mp next
      obtain ⟨last, at_d, -, extends'⟩ := linked.child at_m held
      obtain rfl : below = last := by simpa [tagged'] using at_d
      have longer := extends'.length_le
      simp only [List.length_append, List.length_singleton] at longer
      obtain rfl | earlier : i = j ∨ i < j := by omega
      · obtain rfl : n = m := by simpa [first] using before
        obtain rfl : g = middle := by simpa [tagged] using at_m
        omega
      · exact (ih earlier before at_m).trans longer

/-- **A search passes every node it matches.**  By induction on the length of the prefix: the
node hangs from the root, or from a node with a shorter prefix of the same key. -/
theorem exists_walk (linked : v.Linked) {key : List Bool} (tagged : v.tag n = some g)
    (matching : g.pre <+: key) : ∃ k, v.walk g.family key k = some n := by
  induction size : g.pre.length using Nat.strong_induction_on generalizing n g with
  | _ size ih =>
      obtain ⟨σ, parent, held, above⟩ := linked.hangs tagged
      cases σ with
      | root f =>
          obtain rfl : f = g.family := above
          exact ⟨0, held⟩
      | bit m b =>
          obtain ⟨up, tagged', family, extends'⟩ := above
          have shorter := extends'.length_le
          simp only [List.length_append, List.length_singleton] at shorter
          obtain ⟨k, passed⟩ := ih up.pre.length (by omega) tagged'
            ((List.prefix_append _ _).trans (extends'.trans matching)) rfl
          refine ⟨k + 1, ?_⟩
          rw [walk, ← family, passed]
          exact down_eq_some.mpr ⟨up, b, tagged', extends'.trans matching, held⟩

/-- A prefix has at most one node: a search for it passes both, and their prefixes are
equally long. -/
theorem unique (linked : v.Linked) {m : Ptr} {h : Tag P} (tagged : v.tag n = some g)
    (tagged' : v.tag m = some h) (family : g.family = h.family) (same : g.pre = h.pre) :
    n = m := by
  have matching : g.pre <+: h.pre := by rw [same]
  obtain ⟨i, first⟩ := linked.exists_walk tagged matching
  obtain ⟨j, second⟩ := linked.exists_walk tagged' (List.prefix_refl h.pre)
  rw [family] at first
  obtain less | rfl | less := Nat.lt_trichotomy i j
  · have := linked.walk_lt less first tagged second tagged'
    simp [same] at this
  · simpa [first] using second
  · have := linked.walk_lt less second tagged' first tagged
    simp [same] at this

end Linked

/-! ## Relinking

Each change is described by what it does to tags and slots.  The proofs go through the nodes
and slots that were touched, and leave the rest to `Above.mono`. -/

/-- A new node, not linked yet. -/
def add (v : View P) (n : Ptr) (g : Tag P) : View P :=
  { v with tag := Function.update v.tag n (some g) }

/-- `connect_node`: the node hangs from the slot. -/
def connect (v : View P) (σ : Slot) (n : Ptr) : View P :=
  { v with
    tag := Function.update v.tag n ((v.tag n).map fun g => { g with parent := some σ })
    slot := Function.update v.slot σ (some n) }

/-- The node is gone and its slot points to what hung below it. -/
def replace (v : View P) (σ : Slot) (n : Ptr) (child : Option Ptr) : View P :=
  { v with
    tag := fun m =>
      if m = n then none
      else if child = some m then (v.tag m).map fun g => { g with parent := some σ }
      else v.tag m
    slot := fun τ =>
      if τ = σ then child
      else if τ = .bit n false ∨ τ = .bit n true then none
      else v.slot τ }

/-- No slot of a node that is not there. -/
theorem Linked.slot_bit_eq_none (linked : v.Linked) (absent : v.tag n = none) (b : Bool) :
    v.slot (.bit n b) = none := by
  by_contra held
  obtain ⟨d, held⟩ := Option.ne_none_iff_exists'.mp held
  obtain ⟨g, tagged, parent⟩ := linked.held held
  obtain ⟨σ, parent', -, above⟩ := linked.hangs tagged
  obtain rfl : σ = .bit n b := by simpa [parent] using parent'.symm
  obtain ⟨up, tagged', -⟩ := above
  simp [absent] at tagged'

/-- A change of tags that keeps families and prefixes keeps what may hang where.  Every
change of the links is of this kind at the nodes that stay. -/
theorem Above.mono {w : View P} {p : List Bool}
    (kept : ∀ {n g}, v.tag n = some g →
      ∃ g', w.tag n = some g' ∧ g'.family = g.family ∧ g'.pre = g.pre)
    (above : v.Above f p σ) : w.Above f p σ := by
  cases σ with
  | root g => exact above
  | bit n b =>
      obtain ⟨up, tagged, family, extends'⟩ := above
      obtain ⟨up', tagged', family', pre⟩ := kept tagged
      exact ⟨up', tagged', family'.trans family, pre ▸ extends'⟩

theorem Above.connect {p : List Bool} {τ : Slot} (above : v.Above f p σ) :
    (v.connect τ n).Above f p σ := by
  refine above.mono fun {m g} tagged => ?_
  by_cases here : m = n
  · subst here
    exact ⟨{ g with parent := some τ }, by simp [View.connect, tagged], rfl, rfl⟩
  · exact ⟨g, by simpa [View.connect, here] using tagged, rfl, rfl⟩

/-- **A leaf is hung from an empty slot.**  The new node is the only one that has to be
looked at. -/
theorem Linked.leaf (linked : v.Linked) (absent : v.tag n = none) (empty : v.slot σ = none)
    (above : v.Above g.family g.pre σ) : ((v.add n g).connect σ n).Linked := by
  have kept : ∀ {m h}, v.tag m = some h → ((v.add n g).connect σ n).tag m = some h := by
    intro m h tagged
    have other : m ≠ n := by rintro rfl; simp [absent] at tagged
    simp [add, connect, other, tagged]
  refine ⟨?_, ?_⟩
  · intro m h tagged
    by_cases here : m = n
    · subst here
      obtain rfl : { g with parent := some σ } = h := by simpa [add, connect] using tagged
      exact ⟨σ, rfl, by simp [connect],
        above.mono fun tagged => ⟨_, kept tagged, rfl, rfl⟩⟩
    · have before : v.tag m = some h := by simpa [add, connect, here] using tagged
      obtain ⟨τ, parent, held, above'⟩ := linked.hangs before
      have other : τ ≠ σ := by rintro rfl; simp [empty] at held
      exact ⟨τ, parent, by simpa [connect, add, other] using held,
        above'.mono fun tagged => ⟨_, kept tagged, rfl, rfl⟩⟩
  · intro τ m held
    by_cases here : τ = σ
    · subst here
      obtain rfl : n = m := by simpa [connect] using held
      exact ⟨{ g with parent := some τ }, by simp [add, connect], rfl⟩
    · obtain ⟨h, tagged, parent⟩ := linked.held (by simpa [connect, add, here] using held)
      exact ⟨h, kept tagged, parent⟩

/-- **A node is put above another one.**  The slot now leads to the new node, and that to
the old one; the prefixes stay ordered, because the new one lies between. -/
theorem Linked.insertAbove (linked : v.Linked) {b : Bool} (absent : v.tag n = none)
    (held : v.slot σ = some d) (tagged : v.tag d = some below)
    (above : v.Above g.family g.pre σ) (family : below.family = g.family)
    (longer : g.pre ++ [b] <+: below.pre) :
    (((v.add n g).connect (.bit n b) d).connect σ n).Linked := by
  have apart : d ≠ n := by rintro rfl; simp [absent] at tagged
  have fresh : σ ≠ .bit n b := by
    rintro rfl; simp [linked.slot_bit_eq_none absent] at held
  have at_n : (((v.add n g).connect (.bit n b) d).connect σ n).tag n =
      some { g with parent := some σ } := by simp [add, connect, apart.symm]
  have at_d : (((v.add n g).connect (.bit n b) d).connect σ n).tag d =
      some { below with parent := some (.bit n b) } := by simp [add, connect, apart, tagged]
  have other : ∀ {m}, m ≠ n → m ≠ d →
      (((v.add n g).connect (.bit n b) d).connect σ n).tag m = v.tag m := by
    intro m notNew notBelow; simp [add, connect, notNew, notBelow]
  have kept : ∀ {m h}, v.tag m = some h →
      ∃ h', (((v.add n g).connect (.bit n b) d).connect σ n).tag m = some h' ∧
        h'.family = h.family ∧ h'.pre = h.pre := by
    intro m h tagged'
    have notNew : m ≠ n := by rintro rfl; simp [absent] at tagged'
    by_cases here : m = d
    · subst here
      obtain rfl : below = h := by simpa [tagged] using tagged'
      exact ⟨_, at_d, rfl, rfl⟩
    · exact ⟨h, (other notNew here).trans tagged', rfl, rfl⟩
  obtain ⟨below', same, parent⟩ := linked.held held
  obtain rfl : below = below' := by simpa [tagged] using same
  refine ⟨?_, ?_⟩
  · intro m h tagged'
    by_cases new : m = n
    · subst new
      obtain rfl : { g with parent := some σ } = h := by simpa [at_n] using tagged'
      exact ⟨σ, rfl, by simp [connect], above.mono kept⟩
    by_cases low : m = d
    · subst low
      obtain rfl : { below with parent := some (.bit n b) } = h := by simpa [at_d] using tagged'
      exact ⟨.bit n b, rfl, by simp [connect, add, fresh.symm],
        { g with parent := some σ }, at_n, family.symm, longer⟩
    · obtain ⟨τ, parent', held', above'⟩ := linked.hangs ((other new low).symm.trans tagged')
      have notSlot : τ ≠ σ := by
        rintro rfl; exact low (by simpa [held] using held'.symm)
      have notBit : τ ≠ .bit n b := by
        rintro rfl; simp [linked.slot_bit_eq_none absent] at held'
      exact ⟨τ, parent', by simpa [connect, add, notSlot, notBit] using held', above'.mono kept⟩
  · intro τ m held'
    by_cases atSlot : τ = σ
    · subst atSlot
      obtain rfl : n = m := by simpa [connect] using held'
      exact ⟨_, at_n, rfl⟩
    by_cases atBit : τ = .bit n b
    · subst atBit
      obtain rfl : d = m := by simpa [connect, atSlot] using held'
      exact ⟨_, at_d, rfl⟩
    · have before : v.slot τ = some m := by simpa [connect, add, atSlot, atBit] using held'
      obtain ⟨h, tagged', parent'⟩ := linked.held before
      have new : m ≠ n := by rintro rfl; simp [absent] at tagged'
      have low : m ≠ d := by
        rintro rfl
        obtain rfl : below = h := by simpa [tagged] using tagged'
        exact atSlot (by simpa [parent] using parent'.symm)
      exact ⟨h, (other new low).trans tagged', parent'⟩

/-- **A node with at most one child is replaced by it.**  The child's prefix extends that of
the node, so it may hang from the node's slot. -/
theorem Linked.replaced (linked : v.Linked) {child : Option Ptr} (tagged : v.tag n = some g)
    (parent : g.parent = some σ)
    (only : ∀ d, child = some d ↔ ∃ b, v.slot (.bit n b) = some d) :
    (v.replace σ n child).Linked := by
  obtain ⟨σ', parent', held, above⟩ := linked.hangs tagged
  obtain rfl : σ = σ' := by simpa [parent] using parent'
  have notSelf : ∀ b, σ ≠ .bit n b := by
    rintro b rfl
    obtain ⟨up, tagged', -, extends'⟩ := above
    obtain rfl : g = up := by simpa [tagged] using tagged'
    exact absurd extends'.length_le (by simp)
  have kept : ∀ {m h}, v.tag m = some h → m ≠ n →
      ∃ h', (v.replace σ n child).tag m = some h' ∧ h'.family = h.family ∧ h'.pre = h.pre := by
    intro m h tagged' other
    by_cases low : child = some m
    · exact ⟨{ h with parent := some σ }, by simp [replace, other, low, tagged'], rfl, rfl⟩
    · exact ⟨h, by simp [replace, other, low, tagged'], rfl, rfl⟩
  have lift : ∀ {f p τ}, (∀ b, τ ≠ .bit n b) → v.Above f p τ →
      (v.replace σ n child).Above f p τ := by
    intro f p τ outside above
    cases τ with
    | root f' => exact above
    | bit m b =>
        obtain ⟨up, tagged', family, extends'⟩ := above
        have other : m ≠ n := by rintro rfl; exact outside b rfl
        obtain ⟨up', tagged'', family', pre⟩ := kept tagged' other
        exact ⟨up', tagged'', family'.trans family, pre ▸ extends'⟩
  refine ⟨?_, ?_⟩
  · intro m h tagged'
    have other : m ≠ n := by rintro rfl; simp [replace] at tagged'
    by_cases low : child = some m
    · obtain ⟨b, held'⟩ := (only m).mp low
      obtain ⟨below, tagged'', family, extends'⟩ := linked.child tagged held'
      obtain rfl : { below with parent := some σ } = h := by
        simpa [replace, other, low, tagged''] using tagged'
      refine ⟨σ, rfl, by simp [replace, low], ?_⟩
      rw [show ({ below with parent := some σ } : Tag P).family = g.family from family]
      have longer : g.pre <+: below.pre := (List.prefix_append _ _).trans extends'
      refine lift notSelf ?_
      cases σ with
      | root f' => exact above
      | bit m' b' =>
          obtain ⟨up, at_up, family', extends''⟩ := above
          exact ⟨up, at_up, family', extends''.trans longer⟩
    · have before : v.tag m = some h := by simpa [replace, other, low] using tagged'
      obtain ⟨τ, parent'', held', above'⟩ := linked.hangs before
      have notSlot : τ ≠ σ := by
        rintro rfl; exact other (by simpa [held] using held'.symm)
      have outside : ∀ b, τ ≠ .bit n b := by
        rintro b rfl; exact low ((only m).mpr ⟨b, held'⟩)
      exact ⟨τ, parent'', by simpa [replace, notSlot, outside] using held', lift outside above'⟩
  · intro τ m held'
    by_cases atSlot : τ = σ
    · subst atSlot
      have low : child = some m := by simpa [replace] using held'
      obtain ⟨b, held''⟩ := (only m).mp low
      obtain ⟨below, tagged', -, extends'⟩ := linked.child tagged held''
      have other : m ≠ n := by
        rintro rfl
        obtain rfl : g = below := by simpa [tagged] using tagged'
        exact absurd extends'.length_le (by simp)
      exact ⟨{ below with parent := some τ }, by simp [replace, other, low, tagged'], rfl⟩
    · simp only [replace, if_neg atSlot] at held'
      split at held'
      · cases held'
      · next outside =>
          obtain ⟨h, tagged', parent''⟩ := linked.held held'
          have other : m ≠ n := by
            rintro rfl
            obtain rfl : g = h := by simpa [tagged] using tagged'
            exact atSlot (by simpa [parent] using parent''.symm)
          have low : child ≠ some m := by
            intro isChild
            obtain ⟨b, held''⟩ := (only m).mp isChild
            obtain ⟨h', tagged'', parent'''⟩ := linked.held held''
            obtain rfl : h = h' := by simpa [tagged'] using tagged''
            obtain rfl : τ = .bit n b := by simpa [parent''] using parent'''
            cases b <;> simp at outside
          exact ⟨h, by simp [replace, other, low, tagged'], parent''⟩

end View
end AllowedIps
end WgReceivePath
