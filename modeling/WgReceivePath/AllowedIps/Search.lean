import WgReceivePath.AllowedIps.View

/-!
# Searching the trie

The two loops of `allowedips.c` that walk down a trie, against the linked view of the table.
Both end within the address width, without a fault.

## Main results

* `findNode_spec`: `find_node` ends at the deepest node with a peer among those the address
  extends.
* `lookup_eq`: hence `lookup` is a longest-prefix match over the routes of the table.
* `nodePlacement_spec`: `node_placement` ends at the node of a prefix, or at the slot where
  that node has to be hung.

## What carries the proof

A node that was set up by `copy_and_assign_cidr` (`Node.Shaped`) means what its fields say:
`prefix_matches` and `choose` are the two steps of `View.walk`.  Each loop is then an
induction on its fuel, with the position in the walk as the invariant.  For `find_node` the
node remembered so far is the deepest one before that position (`View.Deepest`); for
`node_placement` the slot it is about to read is one the prefix may hang from
(`View.Above`).
-/

namespace WgReceivePath
namespace AllowedIps

variable {P : Type}

/-! ## The view of a table

A node's prefix is the first `cidr` bits of the address it stores.  The other fields that
`copy_and_assign_cidr` sets are functions of these, and `Node.Shaped` says that they are. -/

namespace Node

/-- The prefix that a node stands for. -/
def pre (node : Node P) : List Bool := (addrBits node.bitlen node.bits).take node.cidr

/-- What the trie depends on in a node. -/
def tag (node : Node P) : Tag P where
  family := node.bitlen
  pre := node.pre
  peer := node.peer
  parent := node.parentBitPacked

/-- The fields that `copy_and_assign_cidr` sets fit together.  They are redundant, and every
access of the search relies on it. -/
structure Shaped (node : Node P) : Prop where
  cidr_le : node.cidr ≤ node.bitlen.bits
  at_a : node.bitAtA = AllowedIps.bitAtA node.bitlen node.cidr
  at_b : node.bitAtB = AllowedIps.bitAtB node.cidr
  long : node.bitlen.bytes ≤ node.bits.length

variable {node : Node P}

theorem Shaped.length_pre (shaped : node.Shaped) : node.pre.length = node.cidr := by
  simp [pre, shaped.cidr_le]

/-- `prefix_matches` compares the prefix of the node with the address. -/
theorem Shaped.prefixMatches_iff (shaped : node.Shaped) (key : Bytes) :
    node.prefixMatches node.bitlen key = true ↔ node.pre <+: addrBits node.bitlen key := by
  rw [prefixMatches, decide_eq_true_iff, le_commonBits_iff shaped.cidr_le,
    List.prefix_iff_eq_take, shaped.length_pre, pre]

/-- `choose` reads the bit of the key that follows the prefix of the node. -/
theorem Shaped.choose_eq (shaped : node.Shaped) {key : Bytes}
    (small : node.cidr < node.bitlen.bits) (long : node.bitlen.bytes ≤ key.length) :
    node.choose key = some (addrBit node.bitlen key node.cidr) := by
  rw [choose, shaped.at_a, shaped.at_b]
  exact AllowedIps.choose_eq small long

/-- The bit after a shorter prefix is read off the stored address. -/
theorem Shaped.addrBit_of_concat (shaped : node.Shaped) {p : List Bool} {b : Bool}
    (extends' : p ++ [b] <+: node.pre) : addrBit node.bitlen node.bits p.length = b := by
  have small : p.length < node.cidr := by
    have := extends'.length_le
    simp only [List.length_append, List.length_singleton, shaped.length_pre] at this
    omega
  obtain ⟨rest, whole⟩ := extends'
  have bit : node.pre[p.length]? = some b := by simp [← whole]
  simpa [pre, List.getElem?_take, small,
    addrBits_getElem? _ _ (small.trans_le shaped.cidr_le)] using bit

theorem new_shaped {f : Family} {src : Bytes} {cidr : ℕ} {peer : Option P}
    (small : cidr ≤ f.bits) (long : f.bytes ≤ src.length) :
    (Node.new f src cidr peer).Shaped where
  cidr_le := small
  at_a := rfl
  at_b := rfl
  long := by simp [new, long]

theorem addrBit_append {f : Family} {a b : Bytes} {i : ℕ} (small : i < f.bits)
    (long : f.bytes ≤ a.length) : addrBit f (a.take f.bytes ++ b) i = addrBit f a i := by
  have inside := bitAtA_lt small
  simp [addrBit, List.getD_eq_getElem?_getD, List.getElem?_append, long, inside,
    inside.trans_le long]

theorem addrBits_new {f : Family} {src : Bytes} {cidr : ℕ} {peer : Option P}
    (long : f.bytes ≤ src.length) :
    addrBits f (Node.new f src cidr peer).bits = addrBits f src :=
  List.map_congr_left fun _ member => addrBit_append (List.mem_range.mp member) long

theorem new_pre {f : Family} {src : Bytes} {cidr : ℕ} {peer : Option P}
    (long : f.bytes ≤ src.length) :
    (Node.new f src cidr peer).pre = (addrBits f src).take cidr :=
  congrArg (List.take cidr) (addrBits_new long)

end Node

namespace Table

/-- The view of a table. -/
def view (t : Table P) : View P where
  tag n := (t.nodes n).map Node.tag
  slot
    | .root f => t.root f
    | .bit n b => (t.nodes n).bind fun node => node.bit b
  list := t.allowedipsList
  next := t.next

/-- Every node in memory has been set up. -/
def Shaped (t : Table P) : Prop := ∀ {n node}, t.nodes n = some node → node.Shaped

variable {t : Table P} {f : Family}

theorem view_tag_eq_some {n : Ptr} {g : Tag P} :
    t.view.tag n = some g ↔ ∃ node, t.nodes n = some node ∧ node.tag = g := by
  simp [view]

end Table

/-! ## `find_node`

The loop remembers the last node with a peer.  Since prefixes grow along a walk, the last
one is the one with the longest prefix. -/

namespace View

variable {v : View P} {f : Family} {key : List Bool}

/-- The search for `key` passes, as its `i`-th node, a node with a peer that it matches. -/
def Passes (v : View P) (f : Family) (key : List Bool) (i : ℕ) (n : Ptr) : Prop :=
  v.walk f key i = some n ∧ ∃ g, v.tag n = some g ∧ g.pre <+: key ∧ g.peer.isSome

/-- From the `k`-th node on, the last such node, or else `found`.  It is what the loop
returns when it stands at the `k`-th node with `found` in its hand. -/
def Deepest (v : View P) (f : Family) (key : List Bool) (k : ℕ) (found r : Option Ptr) : Prop :=
  (r = found ∧ ∀ i n, k ≤ i → ¬ v.Passes f key i n) ∨
    ∃ j n, k ≤ j ∧ r = some n ∧ v.Passes f key j n ∧ ∀ i m, j < i → ¬ v.Passes f key i m

theorem walk_eq_none_of_le {i k : ℕ} (ended : v.walk f key k = none) (later : k ≤ i) :
    v.walk f key i = none := by
  induction i, later using Nat.le_induction with
  | base => exact ended
  | succ i _ ih => simp [walk, ih]

theorem not_passes_of_ended {i k : ℕ} {n : Ptr} (ended : v.walk f key k = none)
    (later : k ≤ i) : ¬ v.Passes f key i n := by
  rintro ⟨passed, -⟩
  simp [walk_eq_none_of_le ended later] at passed

theorem Deepest.of_ended {k : ℕ} {found : Option Ptr} (ended : v.walk f key k = none) :
    v.Deepest f key k found found :=
  .inl ⟨rfl, fun _ _ later => not_passes_of_ended ended later⟩

/-- One turn of the loop: the node passed is remembered when it has a peer. -/
theorem Deepest.pass {k : ℕ} {n : Ptr} {g : Tag P} {found r : Option Ptr}
    (passed : v.walk f key k = some n) (tagged : v.tag n = some g) (matching : g.pre <+: key)
    (rest : v.Deepest f key (k + 1) (if g.peer.isSome then some n else found) r) :
    v.Deepest f key k found r := by
  obtain ⟨rfl, none⟩ | ⟨j, m, later, rfl, passes, last⟩ := rest
  · by_cases peer : g.peer.isSome
    · simp only [peer, if_true]
      exact .inr ⟨k, n, le_rfl, rfl, ⟨passed, g, tagged, matching, peer⟩,
        fun i m later => none i m later⟩
    · simp only [peer]
      refine .inl ⟨rfl, fun i m later passes => ?_⟩
      obtain rfl | later : k = i ∨ k + 1 ≤ i := by omega
      · obtain ⟨passed', g', tagged', -, peer'⟩ := passes
        obtain rfl : n = m := by simpa [passed] using passed'
        obtain rfl : g = g' := by simpa [tagged] using tagged'
        exact peer peer'
      · exact none i m later passes
  · exact .inr ⟨j, m, by omega, rfl, passes, last⟩

end View

namespace Table

variable {t : Table P} {f : Family} {key : Bytes}

theorem view_slot_bit {n : Ptr} {node : Node P} (alive : t.nodes n = some node) (b : Bool) :
    t.view.slot (.bit n b) = node.bit b := by simp [view, alive]

/-- A node of a search: it is in memory, of the family, and not deeper than its prefix. -/
theorem exists_of_walk (linked : t.view.Linked) {target : List Bool} {k : ℕ} {n : Ptr}
    (passed : t.view.walk f target k = some n) :
    ∃ node, t.nodes n = some node ∧ node.bitlen = f ∧ k ≤ node.pre.length := by
  obtain ⟨g, tagged, family, deep⟩ := linked.walk_tagged passed
  obtain ⟨node, alive, rfl⟩ := view_tag_eq_some.mp tagged
  exact ⟨node, alive, family, deep⟩

/-- **The loop of `find_node`** ends, at the deepest matching node with a peer.  By
induction on the fuel, along the walk for the address. -/
theorem findNode_spec (linked : t.view.Linked) (shaped : t.Shaped)
    (long : f.bytes ≤ key.length) (fuel k : ℕ) (found : Option Ptr) (small : k ≤ f.bits + 1)
    (enough : f.bits + 2 ≤ fuel + k) :
    ∃ r, t.findNode f key fuel (t.view.walk f (addrBits f key) k) found = some r ∧
      t.view.Deepest f (addrBits f key) k found r := by
  induction fuel generalizing k found with
  | zero => omega
  | succ fuel ih =>
      cases passed : t.view.walk f (addrBits f key) k with
      | none => exact ⟨found, rfl, .of_ended passed⟩
      | some n =>
          obtain ⟨node, alive, rfl, deep⟩ := exists_of_walk linked passed
          have shape := shaped alive
          have tagged : t.view.tag n = some node.tag := view_tag_eq_some.mpr ⟨node, alive, rfl⟩
          rw [shape.length_pre] at deep
          have cidr_le := shape.cidr_le
          simp only [findNode, alive, Option.bind_eq_bind, Option.bind_some,
            shape.prefixMatches_iff]
          split
          · next matching =>
              split
              · next whole =>
                  have ended : t.view.walk node.bitlen (addrBits node.bitlen key) (k + 1) =
                      none := by
                    have short : (addrBits node.bitlen key)[node.pre.length]? = none := by
                      simp [shape.length_pre, whole]
                    simp [View.walk, passed, View.down, tagged, Node.tag, short]
                  exact ⟨_, rfl, .pass passed tagged matching (.of_ended ended)⟩
              · next notWhole =>
                  have bit : node.cidr < node.bitlen.bits := by omega
                  have next : t.view.walk node.bitlen (addrBits node.bitlen key) (k + 1) =
                      node.bit (addrBit node.bitlen key node.cidr) := by
                    simp [View.walk, passed, View.down, tagged, Node.tag, matching,
                      shape.length_pre, addrBits_getElem? _ _ bit, view_slot_bit alive]
                  obtain ⟨r, runs, deepest⟩ := ih (k + 1)
                    (if node.peer.isSome then some n else found) (by omega) (by omega)
                  rw [next] at runs
                  exact ⟨r, by simp [shape.choose_eq bit long, runs],
                    .pass passed tagged matching deepest⟩
          · next differs =>
              refine ⟨found, rfl, .inl ⟨rfl, fun i m later passes => ?_⟩⟩
              obtain rfl | later : k = i ∨ k + 1 ≤ i := by omega
              · obtain ⟨passed', g, tagged', matching, -⟩ := passes
                obtain rfl : n = m := by simpa [passed] using passed'
                obtain rfl : node.tag = g := by simpa [tagged] using tagged'
                exact differs matching
              · have ended : t.view.walk node.bitlen (addrBits node.bitlen key) (k + 1) =
                    none := by
                  simp [View.walk, passed, View.down, tagged, Node.tag, differs]
                exact View.not_passes_of_ended ended later passes

end Table

/-! ## `lookup`

The routes are the abstract meaning of a table: at most one peer for a prefix.  A lookup
asks for the longest prefix of the address that has one. -/

/-- What a table is for: at most one peer for every prefix of either family. -/
abbrev Routes (P : Type) := Family → List Bool → Option P

/-- The nodes with a peer are the routes: a prefix has a route exactly if it has a node with
that peer. -/
def View.Represents (v : View P) (routes : Routes P) : Prop :=
  ∀ f p x, routes f p = some x ↔
    ∃ n g, v.tag n = some g ∧ g.family = f ∧ g.pre = p ∧ g.peer = some x

namespace Table

variable {t : Table P} {f : Family} {routes : Routes P}

/-- **`lookup` is a longest-prefix match.**  Every route that the address extends has a node
on the walk, in the order of the lengths, so the deepest one is the longest. -/
theorem lookup_eq (linked : t.view.Linked) (shaped : t.Shaped)
    (represents : t.view.Represents routes) (ip : Addr f) :
    t.lookup f ip.bytes = some (List.longestMatch (routes f) (netBits f ip.bytes)) := by
  have long : f.bytes ≤ (swapEndian f ip.bytes).length := (length_swapEndian ip.size).ge
  obtain ⟨r, runs, deepest⟩ :=
    findNode_spec linked shaped long (fuel f) 0 none (by omega) (by simp [fuel])
  rw [addrBits_swapEndian ip.size] at runs deepest
  have start : t.findNode f (swapEndian f ip.bytes) (fuel f) (t.root f) none = some r := runs
  -- a bound prefix of the address belongs to a node that the search passes
  have passes : ∀ p x, p <+: netBits f ip.bytes → routes f p = some x →
      ∃ i n g, t.view.Passes f (netBits f ip.bytes) i n ∧ t.view.tag n = some g ∧ g.pre = p := by
    intro p x before bound
    obtain ⟨n, g, tagged, rfl, rfl, peer⟩ := (represents f p x).mp bound
    obtain ⟨i, passed⟩ := linked.exists_walk tagged before
    exact ⟨i, n, g, ⟨passed, g, tagged, before, by simp [peer]⟩, tagged, rfl⟩
  obtain ⟨rfl, unmatched⟩ | ⟨j, n, -, rfl, ⟨passed, g, tagged, matching, peer⟩, last⟩ := deepest
  · have unbound : List.longestMatch (routes f) (netBits f ip.bytes) = none := by
      refine List.longestMatch_eq_none fun p before => ?_
      by_contra bound
      obtain ⟨x, bound⟩ := Option.ne_none_iff_exists'.mp bound
      obtain ⟨i, n, -, passed, -⟩ := passes p x before bound
      exact unmatched i n (Nat.zero_le i) passed
    simp [lookup, start, unbound]
  · obtain ⟨x, peer⟩ := Option.isSome_iff_exists.mp peer
    obtain ⟨g', same, family, -⟩ := linked.walk_tagged passed
    obtain rfl : g = g' := by simpa [tagged] using same
    have answer : List.longestMatch (routes f) (netBits f ip.bytes) = some x := by
      refine List.longestMatch_of_longest matching
        ((represents f g.pre x).mpr ⟨n, g, tagged, family, rfl, peer⟩) fun q before longer => ?_
      by_contra bound
      obtain ⟨y, bound⟩ := Option.ne_none_iff_exists'.mp bound
      obtain ⟨i, m, h, passes', tagged', rfl⟩ := passes q y before bound
      obtain later | earlier := Nat.lt_or_ge j i
      · exact last i m later passes'
      · obtain rfl | less := Nat.eq_or_lt_of_le earlier
        · obtain rfl : m = n := by simpa [passes'.1] using passed
          obtain rfl : g = h := by simpa [tagged] using tagged'
          omega
        · have := linked.walk_lt less passes'.1 tagged' passed tagged
          omega
    obtain ⟨node, alive, rfl⟩ := view_tag_eq_some.mp tagged
    have stored : node.peer = some x := peer
    simp [lookup, start, alive, stored, answer]

end Table

/-! ## `node_placement`

Either the prefix has a node, or there is a gap for it: a slot it may hang from whose
content does not lead to it.  A gap is what `add` needs to relink and what `remove` needs to
conclude that there is no route. -/

/-- The slot belongs to the node that `node_placement` passed last, or is the root. -/
def HangsAt (f : Family) (parent : Option Ptr) (σ : Slot) : Prop :=
  (parent = none ∧ σ = .root f) ∨ ∃ p b, parent = some p ∧ σ = .bit p b

/-- Where the node of a new prefix has to go: the prefix may hang from the slot, and what
hangs there is not on the way to it. -/
structure View.Gap (v : View P) (f : Family) (target : List Bool) (σ : Slot) : Prop where
  above : v.Above f target σ
  differs : ∀ {d below}, v.slot σ = some d → v.tag d = some below → ¬ below.pre <+: target

/-- A prefix with a gap has no node: the search for it passes the slot of the gap and ends.
What hangs there is no prefix of the target, so that the walk stops, and a node of the
target would lie behind. -/
theorem View.Gap.absent {v : View P} {f : Family} {target : List Bool} {σ : Slot} {n : Ptr}
    {g : Tag P} (gap : v.Gap f target σ) (linked : v.Linked) (tagged : v.tag n = some g)
    (family : g.family = f) : g.pre ≠ target := by
  rintro rfl
  obtain ⟨k, passed⟩ := linked.exists_walk tagged (List.prefix_refl g.pre)
  rw [family] at passed
  -- the search reaches the slot at some position
  obtain ⟨i, reached, shorter⟩ : ∃ i, v.walk f g.pre i = v.slot σ ∧
      ∀ j m h, j < i → v.walk f g.pre j = some m → v.tag m = some h →
        h.pre.length < g.pre.length := by
    have above := gap.above
    cases σ with
    | root f' =>
        obtain rfl : f' = f := above
        exact ⟨0, rfl, fun j _ _ less => absurd less (Nat.not_lt_zero j)⟩
    | bit p b =>
        obtain ⟨up, at_up, family', longer⟩ := above
        obtain ⟨i, reached⟩ :=
          linked.exists_walk at_up ((List.prefix_append _ _).trans longer)
        rw [family'] at reached
        have short := longer.length_le
        simp only [List.length_append, List.length_singleton] at short
        refine ⟨i + 1, ?_, fun j m h less passed' tagged' => ?_⟩
        · simp only [walk, reached, Option.bind_some]
          cases held : v.slot (.bit p b) with
          | some d => exact down_eq_some.mpr ⟨up, b, at_up, longer, held⟩
          | none =>
              by_contra other
              obtain ⟨d, other⟩ := Option.ne_none_iff_exists'.mp other
              obtain ⟨up', b', at_up', longer', held'⟩ := down_eq_some.mp other
              obtain rfl : up = up' := by simpa [at_up] using at_up'
              have same := longer.eq_of_length_eq longer' (by simp)
              obtain rfl : b = b' := by simpa using same
              simp [held] at held'
        · obtain rfl | earlier : j = i ∨ j < i := by omega
          · obtain rfl : p = m := by simpa [reached] using passed'
            obtain rfl : up = h := by simpa [at_up] using tagged'
            omega
          · have := linked.walk_lt earlier passed' tagged' reached at_up
            omega
  obtain less | rfl | more := Nat.lt_trichotomy k i
  · exact absurd (shorter k n g less passed tagged) (lt_irrefl _)
  · exact gap.differs (reached ▸ passed) tagged (List.prefix_refl _)
  · have ended : v.walk f g.pre (i + 1) = none := by
      cases held : v.slot σ with
      | none => simp [walk, reached, held]
      | some d =>
          obtain ⟨below, at_d, -⟩ := linked.held held
          simp [walk, reached, held, down, at_d, gap.differs held at_d]
    simp [walk_eq_none_of_le ended more] at passed

namespace Table

variable {t : Table P} {f : Family} {key : Bytes} {cidr : ℕ}

/-- The outcome of `node_placement` for a prefix: its node, or the gap for it below the node
passed last. -/
def Placed (t : Table P) (f : Family) (target : List Bool) : Bool × Option Ptr → Prop
  | (true, r) => ∃ n g, r = some n ∧ t.view.tag n = some g ∧ g.family = f ∧ g.pre = target
  | (false, r) => ∃ σ, HangsAt f r σ ∧ t.view.Gap f target σ

/-- **The loop of `node_placement`** ends, at the node of the prefix or at the gap for it.
By induction on the fuel; the slot that is read next may hold the prefix. -/
theorem nodePlacement_spec (linked : t.view.Linked) (shaped : t.Shaped)
    (long : f.bytes ≤ key.length) (width : cidr ≤ f.bits) (fuel k : ℕ) (parent : Option Ptr)
    (σ : Slot) (hangs : HangsAt f parent σ)
    (above : t.view.Above f ((addrBits f key).take cidr) σ) (small : k ≤ f.bits + 1)
    (deep : ∀ {d below}, t.view.slot σ = some d → t.view.tag d = some below →
      k ≤ below.pre.length)
    (enough : f.bits + 2 ≤ fuel + k) :
    ∃ r, t.nodePlacement f key cidr fuel (t.view.slot σ) parent = some r ∧
      t.Placed f ((addrBits f key).take cidr) r := by
  induction fuel generalizing k parent σ with
  | zero => omega
  | succ fuel ih =>
      cases held : t.view.slot σ with
      | none => exact ⟨(false, parent), rfl, σ, hangs, above, fun held' => by simp [held] at held'⟩
      | some n =>
          obtain ⟨g, tagged, family, -⟩ := linked.held_family above held
          have deep := deep held tagged
          obtain ⟨node, alive, rfl⟩ := view_tag_eq_some.mp tagged
          have shallow : k ≤ node.pre.length := deep
          obtain rfl : node.bitlen = f := family
          have shape := shaped alive
          have cidr_le := shape.cidr_le
          have length := shape.length_pre
          have matching_iff : node.cidr ≤ cidr ∧ node.prefixMatches node.bitlen key = true ↔
              node.pre <+: (addrBits node.bitlen key).take cidr := by
            rw [shape.prefixMatches_iff, List.prefix_take_iff, shape.length_pre, and_comm]
          simp only [nodePlacement, alive, Option.bind_eq_bind, Option.bind_some, matching_iff]
          split
          · next matching =>
              split
              · next exact' =>
                  refine ⟨_, rfl, n, node.tag, rfl, tagged, rfl, ?_⟩
                  refine matching.eq_of_length ?_
                  simp [length, exact', width]
              · next notExact =>
                  have shorter : node.cidr < cidr := by
                    have := matching.length_le
                    simp only [length, List.length_take] at this
                    omega
                  have bit : node.cidr < node.bitlen.bits := by omega
                  have extends' : node.pre ++ [addrBit node.bitlen key node.cidr] <+:
                      (addrBits node.bitlen key).take cidr := by
                    obtain ⟨rest, whole⟩ := matching
                    have read : (node.pre ++ rest)[node.pre.length]? =
                        some (addrBit node.bitlen key node.cidr) := by
                      rw [whole, length, List.getElem?_take, if_pos shorter,
                        addrBits_getElem? _ _ bit]
                    cases rest with
                    | nil => simp at read
                    | cons a rest =>
                        obtain rfl : a = addrBit node.bitlen key node.cidr := by simpa using read
                        exact ⟨rest, by simpa using whole⟩
                  obtain ⟨r, runs, placed⟩ := ih (k + 1) (some n)
                    (.bit n (addrBit node.bitlen key node.cidr)) (.inr ⟨n, _, rfl, rfl⟩)
                    ⟨node.tag, tagged, rfl, extends'⟩ (by omega)
                    (fun held' tagged' => by
                      obtain ⟨below, at_d, -, longer⟩ := linked.child tagged held'
                      obtain rfl : below = _ := by simpa [at_d] using tagged'
                      have := longer.length_le
                      simp only [List.length_append, List.length_singleton] at this
                      omega)
                    (by omega)
                  rw [view_slot_bit alive] at runs
                  exact ⟨r, by simp [shape.choose_eq bit long, runs], placed⟩
          · next differs =>
              refine ⟨_, rfl, σ, hangs, above, fun held' tagged' matching => differs ?_⟩
              obtain rfl : n = _ := by simpa [held] using held'
              obtain rfl : node.tag = _ := by simpa [tagged] using tagged'
              exact matching

/-- `node_placement` as `add` and `remove` call it. -/
theorem nodePlacement_root (linked : t.view.Linked) (shaped : t.Shaped)
    (long : f.bytes ≤ key.length) (width : cidr ≤ f.bits) :
    ∃ r, t.nodePlacement f key cidr (fuel f) (t.root f) none = some r ∧
      t.Placed f ((addrBits f key).take cidr) r :=
  nodePlacement_spec linked shaped long width (fuel f) 0 none (.root f) (.inl ⟨rfl, rfl⟩) rfl
    (by omega) (fun _ _ => Nat.zero_le _) (by simp [fuel])

end Table

end AllowedIps
end WgReceivePath
