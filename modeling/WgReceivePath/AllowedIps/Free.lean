import Mathlib.Data.Finset.Card
import WgReceivePath.AllowedIps.Remove

/-!
# Freeing the table

`wg_allowedips_free` traverses each trie twice, with a stack of `MAX_ALLOWEDIPS_DEPTH`
pointers on the kernel stack: once to take the nodes off the lists of their peers and once
to free them.

## Main results

* `drainStack_eq`: a traversal visits every node below the stack once and never overflows
  the stack.
* `free_good`: after `wg_allowedips_free` no node is in memory and no route is left.

## What carries the proof

The nodes that are still to be visited are those below a node on the stack
(`View.remaining`), and no node is below two of them; so a step removes exactly the visited
node from that set (`remaining_cons`).  The node at position `i` of the stack has a prefix
of at least `i` bits (`View.Ranked`), because a node makes room for two children with longer
prefixes.  A prefix has at most 128 bits, so the stack of 129 entries suffices, with nothing
to spare for an address of 128 bits.
-/

namespace WgReceivePath
namespace AllowedIps

variable {P : Type}

namespace View

variable {v : View P} {f : Family} {n c d : Ptr} {g h below : Tag P}

/-- The second node is in the subtree of the first: its prefix extends that of the first. -/
def Under (v : View P) (n c : Ptr) : Prop :=
  ∃ g h, v.tag n = some g ∧ v.tag c = some h ∧ g.family = h.family ∧ g.pre <+: h.pre

theorem Under.refl (tagged : v.tag n = some g) : v.Under n n :=
  ⟨g, g, tagged, tagged, rfl, List.prefix_refl _⟩

namespace Linked

/-- A node below another one is below one of its children.  The walk to the lower node
passes the upper one, and its next node is the child. -/
theorem descend (linked : v.Linked) (tagged : v.tag n = some g) (tagged' : v.tag c = some h)
    (family : g.family = h.family) (before : g.pre <+: h.pre) (other : c ≠ n) :
    ∃ b d below, v.slot (.bit n b) = some d ∧ v.tag d = some below ∧
      below.family = h.family ∧ below.pre <+: h.pre := by
  obtain ⟨i, first⟩ := linked.exists_walk tagged before
  obtain ⟨j, last⟩ := linked.exists_walk tagged' (List.prefix_refl h.pre)
  rw [family] at first
  have less : i < j := by
    by_contra notLess
    obtain rfl | earlier := Nat.eq_or_lt_of_le (Nat.not_lt.mp notLess)
    · exact other (by simpa [first] using last.symm)
    · have := linked.walk_lt earlier last tagged' first tagged
      have := before.length_le
      omega
  have present : ∀ k, k ≤ j → ∃ m, v.walk h.family h.pre k = some m := by
    intro k early
    by_contra absent
    have ended : v.walk h.family h.pre k = none := by
      by_contra some'
      exact absent (Option.ne_none_iff_exists'.mp some')
    simp [walk_eq_none_of_le ended early] at last
  obtain ⟨d, next⟩ := present (i + 1) less
  have step : v.down h.pre n = some d := by simpa [walk, first] using next
  obtain ⟨g', b, same, -, held⟩ := down_eq_some.mp step
  obtain rfl : g = g' := by simpa [tagged] using same
  obtain ⟨below, at_d, family', -⟩ := linked.child tagged held
  refine ⟨b, d, below, held, at_d, family'.trans family, ?_⟩
  obtain rfl | later := Nat.eq_or_lt_of_le less
  · obtain rfl : d = c := by simpa [next] using last
    obtain rfl : below = h := by simpa [at_d] using tagged'
    exact List.prefix_refl _
  · obtain ⟨m, further⟩ := present (i + 1 + 1) later
    have step' : v.down h.pre d = some m := by simpa [walk, first, step] using further
    obtain ⟨below', b', same', inside, -⟩ := down_eq_some.mp step'
    obtain rfl : below = below' := by simpa [at_d] using same'
    exact (List.prefix_append _ _).trans inside

/-- The subtree of a node: the node and the subtrees of its children.  This turns prefixes
into the recursion that the traversal makes. -/
theorem under_iff (linked : v.Linked) (tagged : v.tag n = some g) :
    v.Under n c ↔ c = n ∨ ∃ b d, v.slot (.bit n b) = some d ∧ v.Under d c := by
  constructor
  · rintro ⟨g', h, same, tagged', family, before⟩
    obtain rfl : g = g' := by simpa [tagged] using same
    by_cases here : c = n
    · exact .inl here
    · obtain ⟨b, d, below, held, at_d, family', inside⟩ :=
        linked.descend tagged tagged' family before here
      exact .inr ⟨b, d, held, below, h, at_d, tagged', family', inside⟩
  · rintro (rfl | ⟨b, d, held, below, h, at_d, tagged', family, inside⟩)
    · exact .refl tagged
    · obtain ⟨below', same, family', longer⟩ := linked.child tagged held
      obtain rfl : below = below' := by simpa [at_d] using same
      exact ⟨g, h, tagged, tagged', family'.symm.trans family,
        (List.prefix_append _ _).trans (longer.trans inside)⟩

/-- A node is not below its children. -/
theorem not_under_self (linked : v.Linked) (tagged : v.tag n = some g) {b : Bool}
    (held : v.slot (.bit n b) = some d) : ¬ v.Under d n := by
  rintro ⟨below, g', at_d, same, -, inside⟩
  obtain rfl : g = g' := by simpa [tagged] using same
  obtain ⟨below', same', -, longer⟩ := linked.child tagged held
  obtain rfl : below = below' := by simpa [at_d] using same'
  exact absurd (longer.trans inside).length_le (by simp)

/-- The subtrees of the two children are apart. -/
theorem not_under_both (linked : v.Linked) (tagged : v.tag n = some g) {d' : Ptr}
    (zero : v.slot (.bit n false) = some d) (one : v.slot (.bit n true) = some d')
    (under : v.Under d c) : ¬ v.Under d' c := by
  rintro ⟨below', h', at_d', same, -, inside'⟩
  obtain ⟨below, h, at_d, tagged', -, inside⟩ := under
  obtain rfl : h = h' := by simpa [tagged'] using same
  obtain ⟨low, same₀, -, longer⟩ := linked.child tagged zero
  obtain rfl : below = low := by simpa [at_d] using same₀
  obtain ⟨high, same₁, -, longer'⟩ := linked.child tagged one
  obtain rfl : below' = high := by simpa [at_d'] using same₁
  have clash := (longer.trans inside).eq_of_length_eq (longer'.trans inside') (by simp)
  simp at clash

/-- Every node of a family is below its root.  The walk to the node begins there. -/
theorem under_root (linked : v.Linked) (tagged : v.tag c = some h) :
    ∃ r, v.slot (.root h.family) = some r ∧ v.Under r c := by
  obtain ⟨j, last⟩ := linked.exists_walk tagged (List.prefix_refl h.pre)
  have present : ∃ r, v.slot (.root h.family) = some r := by
    by_contra absent
    have ended : v.walk h.family h.pre 0 = none := by
      by_contra some'
      exact absent (Option.ne_none_iff_exists'.mp some')
    simp [walk_eq_none_of_le ended (Nat.zero_le j)] at last
  obtain ⟨r, root⟩ := present
  obtain ⟨g, at_r, family⟩ := linked.root_family root
  refine ⟨r, root, g, h, at_r, tagged, family, ?_⟩
  cases j with
  | zero =>
      obtain rfl : r = c := by simpa [walk, root] using last
      obtain rfl : g = h := by simpa [at_r] using tagged
      exact List.prefix_refl _
  | succ j =>
      have first : v.walk h.family h.pre 0 = some r := root
      have step : v.walk h.family h.pre 1 ≠ none := by
        intro ended
        simp [walk_eq_none_of_le ended (Nat.succ_le_succ (Nat.zero_le j))] at last
      obtain ⟨m, step⟩ := Option.ne_none_iff_exists'.mp step
      have step' : v.down h.pre r = some m := by simpa [walk, root] using step
      obtain ⟨g', b, same, inside, -⟩ := down_eq_some.mp step'
      obtain rfl : g = g' := by simpa [at_r] using same
      exact (List.prefix_append _ _).trans inside

end Linked

/-! ## The stack

A depth-first traversal with an explicit stack.  The stack partitions what is left to do
into subtrees, and a step replaces a subtree by those of its children; this is stated on
views, once for both visits. -/

/-- The node at position `i` of the stack has a prefix of at least `i` bits. -/
def Ranked (v : View P) : List Ptr → Prop
  | [] => True
  | n :: rest => (∀ g, v.tag n = some g → rest.length ≤ g.pre.length) ∧ v.Ranked rest

/-- The nodes on the stack have subtrees of their own and stand for long enough prefixes.
It is the invariant of the traversal. -/
structure Stacked (v : View P) (stack : List Ptr) : Prop where
  present : ∀ n ∈ stack, (v.tag n).isSome
  apart : stack.Pairwise fun a b => ∀ c, v.Under a c → ¬ v.Under b c
  ranked : v.Ranked stack

/-- What the loop pushes for a node. -/
def kids (v : View P) (n : Ptr) : List Ptr :=
  (v.slot (.bit n true)).toList ++ (v.slot (.bit n false)).toList

theorem mem_kids : d ∈ v.kids n ↔ ∃ b, v.slot (.bit n b) = some d := by
  simp [kids, Bool.exists_bool, or_comm]

/-- The step of the loop: a node makes room for its children.  Their subtrees lie in that of
the node, so that they are apart from all others; and their prefixes are longer, so that the
upper one may stand one place higher. -/
theorem Stacked.step (linked : v.Linked) {rest : List Ptr} (stacked : v.Stacked (n :: rest)) :
    v.Stacked (v.kids n ++ rest) := by
  obtain ⟨g, tagged⟩ := Option.isSome_iff_exists.mp (stacked.present n List.mem_cons_self)
  obtain ⟨apartHead, apartRest⟩ := List.pairwise_cons.mp stacked.apart
  have inside : ∀ {d c}, d ∈ v.kids n → v.Under d c → v.Under n c := by
    intro d c member under
    obtain ⟨b, held⟩ := mem_kids.mp member
    exact (linked.under_iff tagged).mpr (.inr ⟨b, d, held, under⟩)
  refine ⟨?_, ?_, ?_⟩
  · intro m member
    obtain kid | old := List.mem_append.mp member
    · obtain ⟨b, held⟩ := mem_kids.mp kid
      obtain ⟨below, at_m, -⟩ := linked.held held
      simp [at_m]
    · exact stacked.present m (List.mem_cons_of_mem _ old)
  · refine List.pairwise_append.mpr ⟨?_, apartRest, fun d member m old c under =>
      apartHead m old c (inside member under)⟩
    unfold kids
    cases one : v.slot (.bit n true) with
    | none => cases v.slot (.bit n false) <;> simp
    | some d' =>
        cases zero : v.slot (.bit n false) with
        | none => simp
        | some d =>
            simpa using fun c under' under => linked.not_under_both tagged zero one under under'
  · obtain ⟨rank, ranked⟩ := stacked.ranked
    have short := rank g tagged
    have deeper : ∀ {b d below}, v.slot (.bit n b) = some d → v.tag d = some below →
        rest.length + 1 ≤ below.pre.length := by
      intro b d below held at_d
      obtain ⟨below', same, -, longer⟩ := linked.child tagged held
      obtain rfl : below = below' := by simpa [at_d] using same
      have := longer.length_le
      simp only [List.length_append, List.length_singleton] at this
      omega
    unfold kids
    cases one : v.slot (.bit n true) with
    | none =>
        cases zero : v.slot (.bit n false) with
        | none => simpa using ranked
        | some d => exact ⟨fun below at_d => Nat.le_of_succ_le (deeper zero at_d), ranked⟩
    | some d' =>
        cases zero : v.slot (.bit n false) with
        | none => exact ⟨fun below at_d => Nat.le_of_succ_le (deeper one at_d), ranked⟩
        | some d =>
            exact ⟨fun below at_d => deeper one at_d,
              fun below at_d => Nat.le_of_succ_le (deeper zero at_d), ranked⟩

open Classical in
/-- The nodes that are still to be visited. -/
noncomputable def remaining (v : View P) (stack : List Ptr) : Finset Ptr :=
  (Finset.range v.next).filter fun c => ∃ n ∈ stack, v.Under n c

theorem mem_remaining (fresh : ∀ {n}, v.next ≤ n → v.tag n = none) {stack : List Ptr} :
    c ∈ v.remaining stack ↔ ∃ n ∈ stack, v.Under n c := by
  simp only [remaining, Finset.mem_filter, Finset.mem_range, and_iff_right_iff_imp]
  rintro ⟨n, -, -, h, -, tagged, -⟩
  by_contra late
  simp [fresh (Nat.not_lt.mp late)] at tagged

theorem card_remaining_le (stack : List Ptr) : (v.remaining stack).card ≤ v.next := by
  have inside : v.remaining stack ⊆ Finset.range v.next := by
    intro c member
    simp only [remaining, Finset.mem_filter] at member
    exact member.1
  exact (Finset.card_le_card inside).trans (Finset.card_range _).le

/-- A visited node is no longer to be visited, everything else below it still is.  So the
number of nodes to be visited bounds the turns of the loop. -/
theorem remaining_cons (linked : v.Linked) (fresh : ∀ {n}, v.next ≤ n → v.tag n = none)
    {rest : List Ptr} (stacked : v.Stacked (n :: rest)) :
    n ∉ v.remaining (v.kids n ++ rest) ∧
      v.remaining (n :: rest) = insert n (v.remaining (v.kids n ++ rest)) := by
  obtain ⟨g, tagged⟩ := Option.isSome_iff_exists.mp (stacked.present n List.mem_cons_self)
  obtain ⟨apartHead, -⟩ := List.pairwise_cons.mp stacked.apart
  constructor
  · rw [mem_remaining fresh]
    rintro ⟨m, member, under⟩
    obtain kid | old := List.mem_append.mp member
    · obtain ⟨b, held⟩ := mem_kids.mp kid
      exact linked.not_under_self tagged held under
    · exact apartHead m old n (.refl tagged) under
  · ext c
    rw [Finset.mem_insert, mem_remaining fresh, mem_remaining fresh]
    simp only [List.mem_cons, exists_eq_or_imp, linked.under_iff tagged, List.mem_append,
      mem_kids]
    constructor
    · rintro ((rfl | ⟨b, d, held, under⟩) | ⟨m, old, under⟩)
      · exact .inl rfl
      · exact .inr ⟨d, .inl ⟨b, held⟩, under⟩
      · exact .inr ⟨m, .inr old, under⟩
    · rintro (rfl | ⟨m, ⟨b, held⟩ | old, under⟩)
      · exact .inl (.inl rfl)
      · exact .inl (.inr ⟨b, m, held, under⟩)
      · exact .inr ⟨m, old, under⟩

end View

namespace Table

variable {t : Table P} {routes : Routes P}

/-- Two pushes fit while the node between them has a prefix within the address width. -/
theorem pushRcu_eq {stack : List Ptr} {x : Option Ptr}
    (room : ∀ n, x = some n → stack.length < MAX_ALLOWEDIPS_DEPTH) :
    pushRcu stack x = some (x.toList ++ stack) := by
  cases x with
  | none => rfl
  | some n => simp [pushRcu, Nat.not_le.mpr (room n rfl)]

/-- **The traversal visits every node below the stack once** and never overflows the stack.
`after D` is the table once the nodes of `D` have been visited; the theorem is used with the
two visits of `wg_allowedips_free`, which change a table in different ways. -/
theorem drainStack_eq (good : t.Good routes)
    {visit : Table P → Ptr → Node P → Option (Table P)} (after : Finset Ptr → Table P)
    (start : Finset Ptr)
    (kept : ∀ D n, start ⊆ D → n ∉ D → (after D).nodes n = t.nodes n)
    (visits : ∀ D n node, start ⊆ D → n ∉ D → t.nodes n = some node →
      visit (after D) n node = some (after (insert n D)))
    (fuel : ℕ) (stack : List Ptr) (D : Finset Ptr) (grown : start ⊆ D)
    (stacked : t.view.Stacked stack) (unvisited : Disjoint D (t.view.remaining stack))
    (enough : (t.view.remaining stack).card < fuel) :
    drainStack visit fuel stack (after D) = some (after (D ∪ t.view.remaining stack)) := by
  have linked := good.sound.linked
  have fresh : ∀ {n}, t.view.next ≤ n → t.view.tag n = none := good.sound.fresh
  induction fuel generalizing stack D with
  | zero => omega
  | succ fuel ih =>
      cases stack with
      | nil =>
          have done : t.view.remaining [] = ∅ := by simp [View.remaining]
          simp [drainStack, done]
      | cons n rest =>
          obtain ⟨apart, split⟩ := View.remaining_cons linked fresh stacked
          have next := stacked.step linked
          obtain ⟨g, tagged⟩ :=
            Option.isSome_iff_exists.mp (stacked.present n List.mem_cons_self)
          obtain ⟨node, alive, rfl⟩ := view_tag_eq_some.mp tagged
          have notYet : n ∉ D := fun member =>
            Finset.disjoint_left.mp unvisited member (split ▸ Finset.mem_insert_self ..)
          -- the pushes: a child has a prefix longer than the stack, and at most the width
          have room : ∀ b d, node.bit b = some d → rest.length + 1 < MAX_ALLOWEDIPS_DEPTH := by
            intro b d held
            obtain ⟨below, at_d, -, longer⟩ :=
              linked.child tagged ((view_slot_bit alive b).trans held)
            obtain ⟨lower, alive', rfl⟩ := view_tag_eq_some.mp at_d
            have shape := good.shaped alive'
            have short := stacked.ranked.1 node.tag tagged
            have deep := longer.length_le
            have width := shape.cidr_le
            have narrow : lower.bitlen.bits ≤ 128 := by cases lower.bitlen <;> simp [Family.bits]
            have length : lower.tag.pre.length = lower.cidr := shape.length_pre
            simp only [List.length_append, List.length_singleton, length] at deep
            simp only [MAX_ALLOWEDIPS_DEPTH]
            omega
          have pushed : (pushRcu rest (node.bit false)).bind
              (fun stack => pushRcu stack (node.bit true)) = some (t.view.kids n ++ rest) := by
            rw [pushRcu_eq fun d held => (Nat.lt_succ_self _).trans (room false d held)]
            simp only [Option.bind_some]
            rw [pushRcu_eq fun d held => ?_]
            · simp [View.kids, view_slot_bit alive]
            · have := room true d held
              cases node.bit false <;> simp <;> omega
          have rest' := ih (t.view.kids n ++ rest) (insert n D)
            (grown.trans (Finset.subset_insert n D)) next ?_ ?_
          · have whole : insert n D ∪ t.view.remaining (t.view.kids n ++ rest) =
                D ∪ t.view.remaining (n :: rest) := by
              rw [split]; ext c; simp only [Finset.mem_union, Finset.mem_insert]; tauto
            rw [whole] at rest'
            have read : (after D).nodes n = some node := (kept D n grown notYet).trans alive
            simp only [drainStack, read, Option.bind_eq_bind, Option.bind_some]
            rw [← Option.bind_assoc, pushed, Option.bind_some, visits D n node grown notYet alive,
              Option.bind_some, rest']
          · rw [Finset.disjoint_insert_left]
            refine ⟨apart, unvisited.mono_right ?_⟩
            rw [split]
            exact Finset.subset_insert ..
          · rw [split, Finset.card_insert_of_notMem apart] at enough
            omega

/-! ## `wg_allowedips_free`

The roots are gone before the traversal begins, so that the table it works on is no longer a
good one.  The traversal therefore runs on `without`, a table described by which nodes are
freed and which are off their lists, and all facts about nodes come from the good table it
started with. -/

/-- The table once the nodes of `gone` are freed and those of `off` are off their lists. -/
def without (t : Table P) (gone off : Finset Ptr) : Table P :=
  { t with
    nodes := fun n => if n ∈ gone then none else t.nodes n
    root := fun _ => none
    allowedipsList := fun p => (t.allowedipsList p).filter (· ∉ off) }

/-- The nodes of one family are those below its root. -/
theorem remaining_root (good : t.Good routes) {f : Family} {r : Ptr} (top : t.root f = some r) :
    t.view.Stacked [r] ∧
      ∀ c, c ∈ t.view.remaining [r] ↔ ∃ h, t.view.tag c = some h ∧ h.family = f := by
  have linked := good.sound.linked
  have fresh : ∀ {n}, t.view.next ≤ n → t.view.tag n = none := good.sound.fresh
  have held : t.view.slot (.root f) = some r := top
  obtain ⟨g, tagged, family⟩ := linked.root_family held
  refine ⟨⟨by simp [tagged], List.pairwise_singleton .., fun g _ => Nat.zero_le _, trivial⟩,
    fun c => ?_⟩
  rw [View.mem_remaining fresh]
  simp only [List.mem_singleton, exists_eq_left]
  constructor
  · rintro ⟨g', h, same, tagged', family', -⟩
    obtain rfl : g = g' := by simpa [tagged] using same
    exact ⟨h, tagged', family'.symm.trans family⟩
  · rintro ⟨h, tagged', rfl⟩
    obtain ⟨r', held', under⟩ := linked.under_root tagged'
    obtain rfl : r = r' := by simpa [held] using held'
    exact under

/-- Taking a node with a peer off its list.  A node is on the list of its own peer only, and
a node without a peer is on none, so that one description covers both. -/
theorem listDel_without (good : t.Good routes) {n : Ptr} {node : Node P} {gone D : Finset Ptr}
    (alive : t.nodes n = some node) :
    (if node.peer.isSome then (t.without gone D).listDel n else t.without gone D) =
      t.without gone (insert n D) := by
  have filtered : ∀ p, (t.allowedipsList p).filter (· ∉ insert n D) =
      ((t.allowedipsList p).filter (· ∉ D)).erase n := by
    intro p
    have nodup : ((t.allowedipsList p).filter (· ∉ D)).Nodup := (good.sound.nodup p).filter _
    rw [nodup.erase_eq_filter, List.filter_filter]
    refine List.filter_congr fun m _ => ?_
    by_cases here : m = n <;> simp [here]
  split
  · simp only [listDel, without, filtered]
  · next peerless =>
      have unlisted : ∀ p, n ∉ t.allowedipsList p := by
        intro p member
        obtain ⟨f, q, stored⟩ := good.sound.listed.mp member
        obtain ⟨g, tagged, -, -, peer⟩ := View.entry_eq_some.mp stored
        obtain ⟨node', alive', rfl⟩ := view_tag_eq_some.mp tagged
        obtain rfl : node = node' := by simpa [alive] using alive'
        have peer' : node.peer = some p := peer
        simp [peer'] at peerless
      have same : ∀ p, ((t.allowedipsList p).filter (· ∉ D)).erase n =
          (t.allowedipsList p).filter (· ∉ D) := fun p =>
        List.erase_of_not_mem fun member => unlisted p (List.mem_of_mem_filter member)
      simp only [without, filtered, same]

/-- The two traversals of one trie, after those of others: the first takes its nodes off the
lists, the second frees them.  The second reads the child pointers of nodes that the first
has left in place. -/
theorem freeRoot_eq (good : t.Good routes) {f : Family} {r : Ptr} (top : t.root f = some r)
    (gone : Finset Ptr) (apart : Disjoint gone (t.view.remaining [r])) :
    (t.without gone gone).freeRoot (some r) =
      some (t.without (gone ∪ t.view.remaining [r]) (gone ∪ t.view.remaining [r])) := by
  obtain ⟨stacked, -⟩ := remaining_root good top
  have enough : (t.view.remaining [r]).card < t.next + 1 :=
    Nat.lt_succ_of_le (View.card_remaining_le [r])
  have lists : (t.without gone gone).rootRemovePeerLists r =
      some (t.without gone (gone ∪ t.view.remaining [r])) := by
    refine drainStack_eq good (fun D => t.without gone D) gone ?_ ?_
      (t.next + 1) [r] gone (Finset.Subset.refl _) stacked apart enough
    · intro D n grown outside
      have notGone : n ∉ gone := fun member => outside (grown member)
      simp [without, notGone]
    · intro D n node _ outside alive
      exact congrArg some (listDel_without good alive)
  have frees : (t.without gone (gone ∪ t.view.remaining [r])).rootFreeRcu r =
      some (t.without (gone ∪ t.view.remaining [r]) (gone ∪ t.view.remaining [r])) := by
    refine drainStack_eq good (fun D => t.without D (gone ∪ t.view.remaining [r])) gone ?_ ?_
      (t.next + 1) [r] gone (Finset.Subset.refl _) stacked apart enough
    · intro D n _ outside
      simp [without, outside]
    · intro D n node _ outside alive
      simp only [free, without, outside, alive, if_false, Option.map_some, Option.some.injEq,
        Table.mk.injEq, and_true]
      funext m
      by_cases here : m = n
      · subst here; simp
      · simp [here]
  simp only [freeRoot, lists, Option.bind_eq_bind, Option.bind_some, frees]

/-- A root that is not set has nothing to free. -/
theorem freeRoot_none (gone : Finset Ptr) :
    (t.without gone gone).freeRoot none = some (t.without gone gone) := rfl

open Classical in
/-- The addresses of the nodes of a family. -/
noncomputable def ofFamily (t : Table P) (f : Family) : Finset Ptr :=
  (Finset.range t.next).filter fun c => ∃ h, t.view.tag c = some h ∧ h.family = f

theorem mem_ofFamily (good : t.Good routes) {f : Family} {c : Ptr} :
    c ∈ t.ofFamily f ↔ ∃ h, t.view.tag c = some h ∧ h.family = f := by
  simp only [ofFamily, Finset.mem_filter, Finset.mem_range, and_iff_right_iff_imp]
  rintro ⟨h, tagged, -⟩
  by_contra late
  have absent : t.view.tag c = none := good.sound.fresh (Nat.not_lt.mp late)
  simp [absent] at tagged

/-- Either half of `wg_allowedips_free` frees the nodes of its family. -/
theorem freeRoot_family (good : t.Good routes) (f : Family) (gone : Finset Ptr)
    (apart : Disjoint gone (t.ofFamily f)) :
    (t.without gone gone).freeRoot (t.root f) =
      some (t.without (gone ∪ t.ofFamily f) (gone ∪ t.ofFamily f)) := by
  cases top : t.root f with
  | none =>
      have empty : t.ofFamily f = ∅ := by
        refine Finset.eq_empty_of_forall_notMem fun c member => ?_
        obtain ⟨h, tagged, rfl⟩ := (mem_ofFamily good).mp member
        obtain ⟨r, held, -⟩ := good.sound.linked.under_root tagged
        simp [view, top] at held
      rw [empty, Finset.union_empty]
      exact freeRoot_none gone
  | some r =>
      obtain ⟨-, below⟩ := remaining_root good top
      have same : t.view.remaining [r] = t.ofFamily f := by
        ext c; rw [below, mem_ofFamily good]
      rw [← same] at apart ⊢
      exact freeRoot_eq good top gone apart

/-- **`wg_allowedips_free` frees every node** and leaves no route.  The source clears both
roots first, and then goes through the trie of either family. -/
theorem free_good (good : t.Good routes) :
    ∃ t₁ t₂, (t.without ∅ ∅).freeRoot (t.root .v4) = some t₁ ∧
      t₁.freeRoot (t.root .v6) = some t₂ ∧ t₂.Good (fun _ _ => none) ∧ ∀ n, t₂.nodes n = none := by
  have apart : Disjoint (∅ ∪ t.ofFamily .v4) (t.ofFamily .v6) := by
    rw [Finset.empty_union, Finset.disjoint_left]
    intro c four six
    obtain ⟨g, tagged, family⟩ := (mem_ofFamily good).mp four
    obtain ⟨h, tagged', family'⟩ := (mem_ofFamily good).mp six
    obtain rfl : g = h := by simpa [tagged] using tagged'
    simp [family] at family'
  refine ⟨_, _, freeRoot_family good .v4 ∅ (Finset.disjoint_empty_left _),
    freeRoot_family good .v6 _ apart, ?_⟩
  have all : ∀ c h, t.view.tag c = some h → c ∈ (∅ ∪ t.ofFamily .v4) ∪ t.ofFamily .v6 := by
    intro c h tagged
    rw [Finset.empty_union, Finset.mem_union, mem_ofFamily good, mem_ofFamily good]
    cases family : h.family with
    | v4 => exact .inl ⟨h, tagged, family⟩
    | v6 => exact .inr ⟨h, tagged, family⟩
  generalize (∅ ∪ t.ofFamily .v4) ∪ t.ofFamily .v6 = gone at all
  have empty : ∀ n, (t.without gone gone).nodes n = none := by
    intro n
    by_cases member : n ∈ gone
    · simp [without, member]
    · have absent : t.nodes n = none := by
        by_contra present
        obtain ⟨node, alive⟩ := Option.ne_none_iff_exists'.mp present
        exact member (all n node.tag (view_tag_eq_some.mpr ⟨node, alive, rfl⟩))
      simp [without, member, absent]
  have tags : ∀ n, (t.without gone gone).view.tag n = none := by simp [view, empty]
  refine ⟨⟨fun alive => by simp [empty] at alive, ?_, ?_⟩, empty⟩
  · refine ⟨⟨fun tagged => by simp [tags] at tagged, fun {σ n} held => ?_⟩, ?_, ?_, ?_, ?_⟩
    · cases σ with
      | root f => simp [view, without] at held
      | bit m b => simp [view, empty] at held
    · intro p n
      simp only [View.entry, tags, Option.map_none, reduceCtorEq, exists_false, iff_false]
      intro member
      have both := List.mem_filter.mp member
      obtain ⟨f, q, stored⟩ := good.sound.listed.mp both.1
      obtain ⟨g, tagged, -⟩ := View.entry_eq_some.mp stored
      simp [all n g tagged] at both
    · exact fun p => (good.sound.nodup p).filter _
    · exact fun _ => tags _
    · intro f p x
      simp [tags]
  · intro n f q stored
    simp [View.entry, tags] at stored

end Table

end AllowedIps
end WgReceivePath
