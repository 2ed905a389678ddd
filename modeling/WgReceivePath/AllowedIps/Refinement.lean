import Mathlib.Data.Set.Card
import WgReceivePath.AllowedIps.Free

/-!
# The table refines a set of routes

What the allowed-IPs table is for: a set of routes, changed one prefix, one peer or as a
whole at a time, and asked for the longest match of an address (`Routes.apply`,
`List.longestMatch`).

## Main results

* `lookup_after_run`: any sequence of calls, with allocations failing anywhere, runs without
  a fault and leaves a table that answers every lookup like the routes do.
* `nodes_after_run`: the table does so in memory proportional to the number of routes.

## What carries the proof

`Table.Good t routes` is the refinement relation, `init_good` its start and `run_good` its
step, one case for each call; `runAll_good` is the induction over a sequence.  The bound on
the memory is counting: a node without a peer has two children, the children of all these
are different nodes, and a node with a peer is a route (`card_peerless_le`, `count_eq`).
-/

namespace WgReceivePath
namespace AllowedIps

variable {P : Type}

/-- The routes after a call that returned the code.  This is the specification: it knows
nothing of nodes and memory, and a call that fails changes nothing. -/
def Routes.apply [DecidableEq P] (routes : Routes P) (code : Code) : Op P → Routes P
  | .insert f ip cidr peer _ _ =>
      if code = .ok then routes.set f ((netBits f ip.bytes).take cidr) peer else routes
  | .remove f ip cidr peer =>
      if code = .ok ∧ routes f ((netBits f ip.bytes).take cidr) = peer then
        routes.set f ((netBits f ip.bytes).take cidr) none
      else routes
  | .removeByPeer p => routes.dropPeer p
  | .free => fun _ _ => none

/-- The codes that a call may return: an argument is refused exactly when it makes no sense,
and memory is short only when an allocation failed. -/
def Op.Returns : Op P → Code → Prop
  | .insert f _ cidr peer memory memory', code =>
      (code = .einval ↔ f.bits < cidr ∨ peer = none) ∧
        (code = .enomem → (memory && memory') = false)
  | .remove f _ cidr _, code => code = if f.bits < cidr then .einval else .ok
  | .removeByPeer _, code => code = .ok
  | .free, code => code = .ok

/-- A sequence of calls, with the codes they return. -/
def Table.runAll [DecidableEq P] (t : Table P) : List (Op P) → Option (List Code × Table P)
  | [] => some ([], t)
  | op :: ops => do
      let (code, t) ← t.run op
      let (codes, t) ← t.runAll ops
      some (code :: codes, t)

/-- The routes after a sequence of calls that returned the codes. -/
def Routes.applyAll [DecidableEq P] (routes : Routes P) : List (Op P) → List Code → Routes P
  | op :: ops, code :: codes => (routes.apply code op).applyAll ops codes
  | _, _ => routes

/-- The number of routes. -/
noncomputable def Routes.count (routes : Routes P) : ℕ :=
  Set.ncard {e : Family × List Bool | routes e.1 e.2 ≠ none}

namespace Table

variable {t : Table P} {routes : Routes P}

/-- The sequence number is no part of the invariant. -/
theorem Good.withSeq (good : t.Good routes) (seq : BitVec 64) :
    ({ t with seq := seq } : Table P).Good routes :=
  ⟨fun alive => good.shaped alive, good.sound, good.full⟩

theorem init_good : (Table.init : Table P).Good fun _ _ => none := by
  refine ⟨fun alive => by simp [init] at alive, ⟨⟨?_, ?_⟩, ?_, ?_, ?_, ?_⟩, ?_⟩
  · intro n g tagged; simp [view, init] at tagged
  · intro σ n held; cases σ <;> simp [view, init] at held
  · intro p n; simp [view, init, View.entry]
  · intro p; exact List.nodup_nil
  · intro n _; rfl
  · intro f p x; simp [view, init]
  · intro n f q stored; simp [view, init, View.entry] at stored

/-! ## Nodes and routes

The number of nodes is bounded by counting edges.  A node without a peer has two children,
no node is the child of two others, and so there are twice as many children as nodes without
a peer. -/

/-- The number of nodes in memory. -/
def liveNodes (t : Table P) : ℕ :=
  ((Finset.range t.next).filter fun n => (t.nodes n).isSome).card

open Classical in
/-- The nodes with a peer, or those without. -/
noncomputable def withPeer (t : Table P) (some' : Bool) : Finset Ptr :=
  (Finset.range t.next).filter fun n => ∃ g, t.view.tag n = some g ∧ g.peer.isSome = some'

theorem mem_withPeer (good : t.Good routes) {some' : Bool} {n : Ptr} :
    n ∈ t.withPeer some' ↔ ∃ g, t.view.tag n = some g ∧ g.peer.isSome = some' := by
  simp only [withPeer, Finset.mem_filter, Finset.mem_range, and_iff_right_iff_imp]
  rintro ⟨g, tagged, -⟩
  by_contra late
  have absent : t.view.tag n = none := good.sound.fresh (Nat.not_lt.mp late)
  simp [absent] at tagged

/-- A node has a peer or it has none. -/
theorem liveNodes_eq (good : t.Good routes) :
    t.liveNodes = (t.withPeer true).card + (t.withPeer false).card := by
  rw [liveNodes, ← Finset.card_union_of_disjoint]
  · congr 1
    ext n
    rw [Finset.mem_union, mem_withPeer good, mem_withPeer good, Finset.mem_filter,
      Finset.mem_range]
    constructor
    · rintro ⟨-, alive⟩
      obtain ⟨node, alive⟩ := Option.isSome_iff_exists.mp alive
      have tagged : t.view.tag n = some node.tag := view_tag_eq_some.mpr ⟨node, alive, rfl⟩
      cases peer : node.tag.peer.isSome with
      | true => exact .inl ⟨node.tag, tagged, peer⟩
      | false => exact .inr ⟨node.tag, tagged, peer⟩
    · intro some'
      obtain ⟨g, tagged⟩ : ∃ g, t.view.tag n = some g := by
        obtain ⟨g, tagged, -⟩ | ⟨g, tagged, -⟩ := some' <;> exact ⟨g, tagged⟩
      obtain ⟨node, alive, -⟩ := view_tag_eq_some.mp tagged
      refine ⟨?_, by simp [alive]⟩
      by_contra late
      have absent : t.view.tag n = none := good.sound.fresh (Nat.not_lt.mp late)
      simp [absent] at tagged
  · rw [Finset.disjoint_left]
    intro n first second
    obtain ⟨g, tagged, peer⟩ := (mem_withPeer good).mp first
    obtain ⟨h, tagged', peerless⟩ := (mem_withPeer good).mp second
    obtain rfl : g = h := by simpa [tagged] using tagged'
    simp [peer] at peerless

/-- The children of the nodes without a peer are different nodes, so there are not more nodes
without a peer than with one. -/
theorem card_peerless_le (good : t.Good routes) :
    2 * (t.withPeer false).card ≤ t.liveNodes := by
  have pairs : 2 * (t.withPeer false).card =
      ((t.withPeer false) ×ˢ (Finset.univ : Finset Bool)).card := by
    rw [Finset.card_product, Finset.card_univ, Fintype.card_bool, mul_comm]
  have held : ∀ e ∈ (t.withPeer false) ×ˢ (Finset.univ : Finset Bool),
      ∃ d, t.view.slot (.bit e.1 e.2) = some d := by
    intro e member
    obtain ⟨g, tagged, peerless⟩ := (mem_withPeer good).mp (Finset.mem_product.mp member).1
    have stored : t.view.entry e.1 = some (g.family, g.pre, none) := by
      rw [View.entry_of_tag tagged, Tag.entry]
      cases peer : g.peer <;> simp_all
    exact Option.isSome_iff_exists.mp (good.full _ _ _ stored (by simp) e.2)
  rw [pairs, liveNodes]
  refine Finset.card_le_card_of_injOn (fun e => (t.view.slot (.bit e.1 e.2)).getD 0) ?_ ?_
  · intro e member
    obtain ⟨d, slot⟩ := held e member
    obtain ⟨h, tagged, -⟩ := good.sound.linked.held slot
    obtain ⟨node, alive, -⟩ := view_tag_eq_some.mp tagged
    simp only [slot, Option.getD_some, Finset.coe_filter, Finset.mem_range, Set.mem_ofPred_eq,
      alive, Option.isSome_some, and_true]
    by_contra late
    have absent : t.view.tag d = none := good.sound.fresh (Nat.not_lt.mp late)
    simp [absent] at tagged
  · rintro ⟨n, b⟩ first ⟨m, c⟩ second same
    obtain ⟨d, slot⟩ := held _ first
    obtain ⟨d', slot'⟩ := held _ second
    obtain rfl : d = d' := by simpa [slot, slot'] using same
    obtain ⟨h, tagged, parent⟩ := good.sound.linked.held slot
    obtain ⟨h', tagged', parent'⟩ := good.sound.linked.held slot'
    obtain rfl : h = h' := by simpa [tagged] using tagged'
    simpa [parent] using parent'

/-- There is one node with a peer for every route, since a prefix has at most one node.  The
bijection sends a node to its family and prefix. -/
theorem count_eq (good : t.Good routes) : routes.count = (t.withPeer true).card := by
  let place : Ptr → Family × List Bool := fun n =>
    ((t.view.tag n).map fun g => (g.family, g.pre)).getD (.v4, [])
  have image : {e : Family × List Bool | routes e.1 e.2 ≠ none} =
      ((t.withPeer true).image place : Set (Family × List Bool)) := by
    ext ⟨f, q⟩
    simp only [Set.mem_ofPred_eq, Finset.coe_image, Set.mem_image, Finset.mem_coe,
      mem_withPeer good]
    constructor
    · intro bound
      obtain ⟨x, bound⟩ := Option.ne_none_iff_exists'.mp bound
      obtain ⟨n, g, tagged, rfl, rfl, peer⟩ := (good.sound.represents f q x).mp bound
      exact ⟨n, ⟨g, tagged, by simp [peer]⟩, by simp [place, tagged]⟩
    · rintro ⟨n, ⟨g, tagged, peer⟩, same⟩
      obtain ⟨rfl, rfl⟩ : g.family = f ∧ g.pre = q := by simpa [place, tagged] using same
      rw [good.sound.route_eq tagged]
      exact Option.isSome_iff_ne_none.mp peer
  rw [Routes.count, image, Set.ncard_coe_finset, Finset.card_image_of_injOn]
  intro n first m second same
  obtain ⟨g, tagged, -⟩ := (mem_withPeer good).mp first
  obtain ⟨h, tagged', -⟩ := (mem_withPeer good).mp second
  obtain ⟨family, pre⟩ : g.family = h.family ∧ g.pre = h.pre := by
    simpa [place, tagged, tagged'] using same
  exact good.sound.linked.unique tagged tagged' family pre

/-! ## Sequences of calls

The refinement itself: one call, a sequence of calls, and what a sequence from the empty
table amounts to for a lookup and for the memory. -/

variable [DecidableEq P]

/-- **One call** runs without a fault, returns a code that its arguments allow, and changes
the routes accordingly.  It is the step of the refinement. -/
theorem run_good (good : t.Good routes) (op : Op P) :
    ∃ code t', t.run op = some (code, t') ∧ op.Returns code ∧
      t'.Good (routes.apply code op) := by
  cases op with
  | insert f ip cidr peer memory memory' =>
      have long : f.bytes ≤ (swapEndian f ip.bytes).length := (length_swapEndian ip.size).ge
      obtain ⟨code, t', runs, codes, good'⟩ :=
        add_good (good.withSeq (t.seq + 1)) long cidr peer memory memory'
      rw [addrBits_swapEndian ip.size] at good'
      exact ⟨code, t', runs, codes, good'⟩
  | remove f ip cidr peer =>
      have long : f.bytes ≤ (swapEndian f ip.bytes).length := (length_swapEndian ip.size).ge
      obtain ⟨code, t', runs, codes, good'⟩ :=
        remove_good (good.withSeq (t.seq + 1)) long cidr peer
      rw [addrBits_swapEndian ip.size] at good'
      exact ⟨code, t', runs, codes, good'⟩
  | removeByPeer p =>
      cases list : t.allowedipsList p with
      | nil =>
          obtain ⟨t', runs, good'⟩ := removeEntries_good p good list (Nat.lt_succ_self _)
          obtain rfl : t = t' := by simpa [removeEntries] using runs
          exact ⟨.ok, t, by simp [run, list], rfl, good'⟩
      | cons n rest =>
          obtain ⟨t', runs, good'⟩ := removeEntries_good p
            (good.withSeq (t.seq + 1)) list (Nat.lt_succ_self _)
          refine ⟨.ok, t', ?_, rfl, good'⟩
          simp only [run, list]
          rw [show removeEntries p (rest.length + 2) (some n) { t with seq := t.seq + 1 } =
            some t' from runs]
          rfl
  | free =>
      have good₀ := good.withSeq (t.seq + 1)
      obtain ⟨t₁, t₂, first, second, good', -⟩ := free_good good₀
      have start : ({ t with seq := t.seq + 1, root := fun _ => none } : Table P) =
          ({ t with seq := t.seq + 1 } : Table P).without ∅ ∅ := by simp [without]
      have first' : (({ t with seq := t.seq + 1 } : Table P).without ∅ ∅).freeRoot
          (t.root .v4) = some t₁ := first
      have second' : t₁.freeRoot (t.root .v6) = some t₂ := second
      refine ⟨.ok, t₂, ?_, rfl, good'⟩
      simp only [run, start, first', second', Option.bind_eq_bind, Option.bind_some]

/-- Any sequence of calls. -/
theorem runAll_good (good : t.Good routes) (ops : List (Op P)) :
    ∃ codes t', t.runAll ops = some (codes, t') ∧ List.Forall₂ Op.Returns ops codes ∧
      t'.Good (routes.applyAll ops codes) := by
  induction ops generalizing t routes with
  | nil => exact ⟨[], t, rfl, .nil, good⟩
  | cons op ops ih =>
      obtain ⟨code, t₁, first, returns, good₁⟩ := run_good good op
      obtain ⟨codes, t', rest, returns', good'⟩ := ih good₁
      exact ⟨code :: codes, t', by simp [runAll, first, rest], .cons returns returns', good'⟩

/-- **The table is a longest-prefix match over its routes.**  After any sequence of insertions,
removals, removals of a peer and frees, in which any allocation may have failed, a lookup of
any address ends without a fault at the peer of the longest route that the address extends. -/
theorem lookup_after_run (ops : List (Op P)) :
    ∃ codes t, (Table.init : Table P).runAll ops = some (codes, t) ∧
      List.Forall₂ Op.Returns ops codes ∧ ∀ f (ip : Addr f), t.lookup f ip.bytes =
        some (List.longestMatch (Routes.applyAll (fun _ _ => none) ops codes f)
          (netBits f ip.bytes)) := by
  obtain ⟨codes, t, runs, returns, good⟩ := runAll_good init_good ops
  exact ⟨codes, t, runs, returns, fun f ip =>
    lookup_eq good.sound.linked good.shaped good.sound.represents ip⟩

/-- **Memory is proportional to the routes**: after any sequence of calls the table keeps at
most two nodes for every route, so with the last route the last node is gone. -/
theorem nodes_after_run (ops : List (Op P)) :
    ∃ codes t, (Table.init : Table P).runAll ops = some (codes, t) ∧
      t.liveNodes ≤ 2 * (Routes.applyAll (fun _ _ => none) ops codes : Routes P).count := by
  obtain ⟨codes, t, runs, -, good⟩ := runAll_good init_good ops
  refine ⟨codes, t, runs, ?_⟩
  have all := liveNodes_eq good
  have half := card_peerless_le good
  rw [count_eq good]
  omega

end Table
end AllowedIps
end WgReceivePath
