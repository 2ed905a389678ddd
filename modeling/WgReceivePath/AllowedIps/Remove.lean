import WgReceivePath.AllowedIps.Insert

/-!
# Removal

`remove_node` takes a peer away from its node.  A node with two children stays, without a
peer; any other node is replaced by its child, and when it was a leaf below a node without a
peer, that one is replaced by its other child as well: it is the only node that was left
with a single child (`removeNode_good`).

`wg_allowedips_remove_by_peer` runs `remove_node` along the list of the peer.  The loop has
read the next entry before it removes one, and a removal may free two nodes; the entry read
ahead is still in memory, because the node that a removal frees besides its argument has no
peer (`removeEntries_good`).

The proof goes through the two replacements with one exception to fullness: first the node
whose peer was cleared, then its parent (`View.FullBut`).
-/

namespace WgReceivePath
namespace AllowedIps

variable {P : Type}

namespace View

variable {v : View P} {routes : Routes P} {n : Ptr} {g : Tag P} {σ : Slot} {child : Option Ptr}

/-- A node with a peer needs no exception. -/
theorem FullBut.of_peer (full : v.FullBut (some n)) (tagged : v.tag n = some g)
    (peer : g.peer.isSome) : v.Full := by
  intro m f q stored _
  refine full m f q stored ?_
  rintro ⟨⟩
  simp_all [entry_of_tag tagged, Tag.entry]

/-- A node that is replaced by a child leaves no exception. -/
theorem FullBut.replace (full : v.FullBut (some n)) (some' : child.isSome) :
    (v.replace σ n child).Full := by
  intro m f q stored _ b
  rw [entry_replace] at stored
  split at stored
  · cases stored
  · next other =>
      have before := full m f q stored (by simpa using Ne.symm other) b
      by_cases here : Slot.bit m b = σ
      · simpa [View.replace, here] using some'
      · simpa [View.replace, here, other] using before

/-- A leaf that is taken away leaves at most its parent as an exception, since the parent's
slot is the only one that became empty. -/
theorem FullBut.replaceLeaf {m : Ptr} {b : Bool} (full : v.FullBut (some n)) :
    (v.replace (.bit m b) n child).FullBut (some m) := by
  intro k f q stored notParent c
  rw [entry_replace] at stored
  split at stored
  · cases stored
  · next other =>
      have before := full k f q stored (by simpa using Ne.symm other) c
      have notSlot : k ≠ m := by rintro rfl; exact notParent rfl
      simpa [View.replace, notSlot, other] using before

theorem FullBut.replaceRoot {f : Family} (full : v.FullBut (some n)) :
    (v.replace (.root f) n child).Full := by
  intro k f q stored _ c
  rw [entry_replace] at stored
  split at stored
  · cases stored
  · next other =>
      have before := full k f q stored (by simpa using Ne.symm other) c
      simpa [View.replace, other] using before

/-- The view after the peer of a node was cleared. -/
def clear (v : View P) (n : Ptr) : View P :=
  { v with
    tag := Function.update v.tag n ((v.tag n).map fun g => { g with peer := none })
    list := fun p => (v.list p).erase n }

theorem Sound.clear [DecidableEq P] (sound : v.Sound routes) (tagged : v.tag n = some g) :
    (v.clear n).Sound (routes.set g.family g.pre none) := by
  have tags : (v.clear n).tag = Function.update v.tag n (some { g with peer := none }) := by
    simp [View.clear, tagged]
  refine sound.set (sound.linked.setPeer tagged none tags rfl) (fun {m} later => ?_) ?_
    (.inr ⟨g.peer, entry_of_tag tagged⟩) (fun m other f q y => ?_) (fun p => ?_)
  · have absent : v.tag m = none := sound.fresh later
    have other : m ≠ n := by rintro rfl; simp [absent] at tagged
    simpa [tags, other] using absent
  · simp [entry, tags, Tag.entry]
  · simp [entry, tags, other]
  · simp [View.clear]

theorem Full.clear (full : v.Full) : (v.clear n).FullBut (some n) := by
  intro m f q stored other b
  have elsewhere : m ≠ n := by rintro rfl; exact other rfl
  have before : v.entry m = some (f, q, none) := by
    simpa [entry, View.clear, elsewhere] using stored
  exact full m f q before (by simp) b

end View

/-- The routes without those to the peer. -/
def Routes.dropPeer [DecidableEq P] (routes : Routes P) (p : P) : Routes P :=
  fun f q => if routes f q = some p then none else routes f q

namespace Table

variable {t : Table P} {routes : Routes P} {n : Ptr} {g : Tag P}

/-- The peer of a node is cleared, its list shortened. -/
theorem clear_yields (shaped : t.Shaped) (tagged : t.view.tag n = some g) :
    Yields ((t.listDel n).modify n fun node => { node with peer := none }) (t.view.clear n) := by
  obtain ⟨node, alive, rfl⟩ := view_tag_eq_some.mp tagged
  have old := shaped alive
  have shaped' : (t.listDel n).Shaped := shaped
  have alive' : (t.listDel n).nodes n = some node := alive
  refine (modify_yields shaped' alive' ⟨old.cidr_le, old.at_a, old.at_b, old.long⟩ rfl).congr ?_
  simp only [View.clear, tagged]
  rfl

/-- The child that takes the place of a node without two of them. -/
theorem only_child {v : View P} {bit : Bool → Option Ptr}
    (bits : ∀ b, v.slot (.bit n b) = bit b)
    (notBoth : ((bit false).isSome && (bit true).isSome) = false) (d : Ptr) :
    bit (bit false).isNone = some d ↔ ∃ b, v.slot (.bit n b) = some d := by
  simp only [bits, Bool.exists_bool]
  cases zero : bit false <;> cases one : bit true <;> simp_all

/-- The replacement of a node without a peer by its only child. -/
theorem replaceNode_sound (shaped : t.Shaped) (sound : t.view.Sound routes) {σ : Slot}
    {child : Option Ptr} (tagged : t.view.tag n = some g) (parent : g.parent = some σ)
    (peerless : g.peer = none)
    (only : ∀ d, child = some d ↔ ∃ b, t.view.slot (.bit n b) = some d) :
    Yields (t.replaceNode n child) (t.view.replace σ n child) ∧
      (t.view.replace σ n child).Sound routes := by
  obtain ⟨σ', parent', -, above⟩ := sound.linked.hangs tagged
  obtain rfl : σ = σ' := by simpa [parent] using parent'
  refine ⟨replaceNode_yields shaped tagged parent above.valid ?_ ?_,
    sound.replace tagged parent peerless only⟩
  · rintro b rfl
    obtain ⟨up, at_up, -, longer⟩ := above
    obtain rfl : g = up := by simpa [tagged] using at_up
    exact absurd longer.length_le (by simp)
  · intro d isChild
    obtain ⟨b, held⟩ := (only d).mp isChild
    obtain ⟨below, at_d, -, longer⟩ := sound.linked.child tagged held
    refine ⟨?_, by simp [at_d]⟩
    rintro rfl
    obtain rfl : g = below := by simpa [tagged] using at_d
    exact absurd longer.length_le (by simp)

/-- A node without a peer that lost one child is replaced by the other one.  It had both, so
the other one is there. -/
theorem replaceParent_good {b : Bool} {upper : Node P} (shaped : t.Shaped)
    (sound : t.view.Sound routes) (full : t.view.FullBut (some n))
    (alive : t.nodes n = some upper) (peerless : upper.peer = none)
    (gone : t.view.slot (.bit n b) = none) (sibling : (t.view.slot (.bit n !b)).isSome) :
    ∃ t', t.replaceNode n (upper.bit !b) = some t' ∧ t'.Good routes ∧
      t'.allowedipsList = t.allowedipsList := by
  have tagged : t.view.tag n = some upper.tag := view_tag_eq_some.mpr ⟨upper, alive, rfl⟩
  have bit := view_slot_bit alive (!b)
  have only : ∀ d, upper.bit (!b) = some d ↔ ∃ c, t.view.slot (.bit n c) = some d := by
    intro d
    rw [← bit]
    constructor
    · exact fun held => ⟨!b, held⟩
    · rintro ⟨c, held⟩
      obtain rfl | rfl : c = b ∨ c = !b := by cases b <;> cases c <;> simp
      · simp [gone] at held
      · exact held
  obtain ⟨σ, parent, -, -⟩ := sound.linked.hangs tagged
  obtain ⟨⟨t', runs, shaped', view'⟩, sound'⟩ :=
    replaceNode_sound shaped sound tagged parent peerless only
  refine ⟨t', runs, ⟨shaped', view' ▸ sound', ?_⟩, ?_⟩
  · rw [view']; exact full.replace (bit ▸ sibling)
  · show t'.view.list = _
    rw [view']
    rfl

/-- A prefix with a gap has no route. -/
theorem route_eq_none_of_gap (sound : t.view.Sound routes) {f : Family} {target : List Bool}
    {σ : Slot} (gap : t.view.Gap f target σ) : routes f target = none := by
  by_contra bound
  obtain ⟨x, bound⟩ := Option.ne_none_iff_exists'.mp bound
  obtain ⟨n, g, tagged, rfl, rfl, -⟩ := (sound.represents f target x).mp bound
  exact gap.absent sound.linked tagged rfl rfl

variable [DecidableEq P]

/-- **`remove_node` takes one route away** and keeps the invariant.  The cases are those of
the source: two children, then by the slot the node hung from, and whether its parent has a
peer. -/
theorem removeNode_good (good : t.Good routes) (tagged : t.view.tag n = some g) :
    ∃ t', t.removeNode n = some t' ∧ t'.Good (routes.set g.family g.pre none) ∧
      ∀ p, t'.allowedipsList p = (t.allowedipsList p).erase n := by
  obtain ⟨node, alive, rfl⟩ := view_tag_eq_some.mp tagged
  simp only [removeNode, alive, Option.bind_eq_bind, Option.bind_some]
  obtain ⟨t₁, run₁, shaped₁, view₁⟩ := clear_yields good.shaped tagged
  rw [run₁]
  simp only [Option.bind_some]
  have sound₁ : t₁.view.Sound (routes.set node.tag.family node.tag.pre none) :=
    view₁ ▸ good.sound.clear tagged
  have full₁ : t₁.view.FullBut (some n) := by rw [view₁]; exact View.Full.clear good.full
  have lists₁ : ∀ p, t₁.view.list p = (t.allowedipsList p).erase n := by rw [view₁]; intro p; rfl
  have bits : ∀ b, t₁.view.slot (.bit n b) = node.bit b := by
    intro b; rw [view₁]; exact view_slot_bit alive b
  have tagged₁ : t₁.view.tag n = some { node.tag with peer := none } := by
    rw [view₁]; simp [View.clear, tagged]
  split
  · next both =>
      refine ⟨t₁, rfl, ⟨shaped₁, sound₁, full₁.full fun b => ?_⟩, lists₁⟩
      rw [bits]
      cases b <;> simp_all
  · next notBoth =>
      obtain ⟨σ, parent, -, above⟩ := good.sound.linked.hangs tagged
      have packed : node.parentBitPacked = some σ := parent
      have only := only_child bits (by simpa using notBoth)
      obtain ⟨⟨t₂, run₂, shaped₂, view₂⟩, sound₂⟩ :=
        replaceNode_sound shaped₁ sound₁ tagged₁ parent rfl only
      have lists₂ : ∀ p, t₂.view.list p = (t.allowedipsList p).erase n := by
        intro p; rw [view₂]; exact lists₁ p
      rw [run₂, packed]
      simp only [Option.bind_some]
      cases σ with
      | root f =>
          refine ⟨t₂, rfl, ⟨shaped₂, view₂ ▸ sound₂, ?_⟩, lists₂⟩
          rw [view₂]; exact full₁.replaceRoot
      | bit m b =>
          obtain ⟨up, at_m, -, longer⟩ := above
          have apart : m ≠ n := by
            rintro rfl
            obtain rfl : node.tag = up := by simpa [tagged] using at_m
            exact absurd longer.length_le (by simp)
          have entry₂ : t₂.view.entry m = some up.entry := by
            rw [view₂, View.entry_replace, if_neg apart, view₁]
            simp [View.entry, View.clear, apart, at_m]
          obtain ⟨up₂, at_m₂, -, -, peer₂⟩ := View.entry_eq_some.mp entry₂
          obtain ⟨upper, alive₂, rfl⟩ := view_tag_eq_some.mp at_m₂
          have full₂ : t₂.view.FullBut (some m) := by
            rw [view₂]; exact full₁.replaceLeaf
          simp only [alive₂, Option.bind_some]
          split
          · next leaf =>
              have leaf : (node.bit false = none ∧ node.bit true = none) ∧ upper.peer = none := by
                simpa using leaf
              obtain ⟨⟨zero, one⟩, peerless⟩ := leaf
              have childless : node.bit (node.bit false).isNone = none := by simp [zero, one]
              have gone : t₂.view.slot (.bit m b) = none := by
                rw [view₂]; simp [View.replace, childless]
              have kept : t₂.view.slot (.bit m !b) = t.view.slot (.bit m !b) := by
                rw [view₂, view₁]; simp [View.replace, View.clear, apart]
              have stored : t.view.entry m = some (up.family, up.pre, none) := by
                rw [View.entry_of_tag at_m, Tag.entry, ← peer₂]
                exact congrArg (fun x => some (up.family, up.pre, x)) peerless
              obtain ⟨t₃, run₃, good₃, lists₃⟩ := replaceParent_good shaped₂ (view₂ ▸ sound₂)
                full₂ alive₂ peerless gone (kept ▸ good.full m _ _ stored (by simp) !b)
              exact ⟨t₃, run₃, good₃, fun p => (congrFun lists₃ p).trans (lists₂ p)⟩
          · next notLeaf =>
              refine ⟨t₂, rfl, ⟨shaped₂, view₂ ▸ sound₂, ?_⟩, lists₂⟩
              by_cases peer : upper.peer.isSome
              · exact full₂.of_peer at_m₂ peer
              · rw [view₂]
                refine full₁.replace ?_
                cases zero : node.bit false <;> cases one : node.bit true <;> simp_all

/-- **`remove` takes the route of the prefix away** when it leads to the peer.  If the
prefix has no node, or its node another peer, nothing is to be done; a call without a peer
finds a route to nobody. -/
theorem remove_good (good : t.Good routes) {f : Family} {key : Bytes}
    (long : f.bytes ≤ key.length) (cidr : ℕ) (peer : Option P) :
    ∃ code t', t.remove f key cidr peer = some (code, t') ∧
      code = (if f.bits < cidr then .einval else .ok) ∧
      t'.Good (if code = .ok ∧ routes f ((addrBits f key).take cidr) = peer then
        routes.set f ((addrBits f key).take cidr) none else routes) := by
  by_cases wide : f.bits < cidr
  · exact ⟨.einval, t, by simp [remove, wide], by simp [wide], good⟩
  have width : cidr ≤ f.bits := Nat.not_lt.mp wide
  have untouched : routes f ((addrBits f key).take cidr) = none →
      routes.set f ((addrBits f key).take cidr) none = routes := by
    intro unbound
    funext f' q
    unfold Routes.set
    split
    · next same => obtain ⟨rfl, rfl⟩ := same; exact unbound.symm
    · rfl
  simp only [remove, if_neg wide]
  obtain ⟨⟨found, parent⟩, runs, placed⟩ :=
    nodePlacement_root good.sound.linked good.shaped long width
  cases top : t.root f with
  | none =>
      have gap : t.view.Gap f ((addrBits f key).take cidr) (.root f) :=
        ⟨rfl, fun held => by simp [view, top] at held⟩
      have unbound := route_eq_none_of_gap good.sound gap
      exact ⟨.ok, t, rfl, rfl, by simpa [untouched unbound] using good⟩
  | some r =>
      rw [top] at runs
      simp only [runs, Option.bind_eq_bind, Option.bind_some]
      cases found with
      | false =>
          obtain ⟨σ, -, gap⟩ := placed
          have unbound := route_eq_none_of_gap good.sound gap
          exact ⟨.ok, t, rfl, rfl, by simpa [untouched unbound] using good⟩
      | true =>
          obtain ⟨n, g, rfl, tagged, rfl, pre⟩ := placed
          obtain ⟨node, alive, rfl⟩ := view_tag_eq_some.mp tagged
          have route : routes node.tag.family node.tag.pre = node.peer :=
            good.sound.route_eq tagged
          rw [← pre, route]
          simp only [alive, Option.bind_some]
          by_cases same : peer = node.peer
          · obtain ⟨t', removed, good', -⟩ := removeNode_good good tagged
            exact ⟨.ok, t', by simp [same, removed], rfl, by simpa [same] using good'⟩
          · exact ⟨.ok, t, by simp [same], rfl, by simpa [Ne.symm same] using good⟩

/-! ## `wg_allowedips_remove_by_peer`

`list_for_each_entry_safe` keeps a pointer to the entry after the one that is removed.  It
is safe only if the removal of one entry does not free the next, and that is what the lists
of the invariant say: the next entry has a peer, and the second node that a removal may free
has none. -/

/-- **The loop over the list of a peer** takes all of its routes away.  By induction on the
list, which loses its first entry at every turn. -/
theorem removeEntries_good (p : P) {entries : List Ptr} {fuel : ℕ} (good : t.Good routes)
    (list : t.allowedipsList p = entries) (enough : entries.length < fuel) :
    ∃ t', removeEntries p fuel entries.head? t = some t' ∧ t'.Good (routes.dropPeer p) := by
  induction entries generalizing t routes fuel with
  | nil =>
      obtain ⟨fuel, rfl⟩ := Nat.exists_eq_succ_of_ne_zero (Nat.ne_zero_of_lt enough)
      have none' : routes.dropPeer p = routes := by
        funext f q
        refine if_neg fun bound => ?_
        obtain ⟨n, g, tagged, -, -, peer⟩ := (good.sound.represents f q p).mp bound
        have member : n ∈ t.view.list p :=
          good.sound.listed.mpr ⟨g.family, g.pre, by
            rw [View.entry_of_tag tagged, Tag.entry, peer]⟩
        simp [view, list] at member
      exact ⟨t, rfl, none'.symm ▸ good⟩
  | cons n rest ih =>
      obtain ⟨fuel, rfl⟩ := Nat.exists_eq_succ_of_ne_zero (Nat.ne_zero_of_lt enough)
      have member : n ∈ t.view.list p := by simp [view, list]
      obtain ⟨f, q, stored⟩ := good.sound.listed.mp member
      obtain ⟨g, tagged, rfl, rfl, peer⟩ := View.entry_eq_some.mp stored
      obtain ⟨t₁, removed, good₁, lists₁⟩ := removeNode_good good tagged
      have next : listNext (t.allowedipsList p) n = rest.head? := by simp [listNext, list]
      have list₁ : t₁.allowedipsList p = rest := by simp [lists₁, list]
      obtain ⟨t', runs, good'⟩ := ih good₁ list₁ (Nat.lt_of_succ_lt_succ enough)
      have route : routes g.family g.pre = some p := (good.sound.route_eq tagged).trans peer
      have same : (routes.set g.family g.pre none).dropPeer p = routes.dropPeer p := by
        funext f q
        unfold Routes.dropPeer Routes.set
        by_cases here : f = g.family ∧ q = g.pre
        · obtain ⟨rfl, rfl⟩ := here; simp [route]
        · simp [here]
      exact ⟨t', by simp [removeEntries, next, removed, runs], same ▸ good'⟩

end Table
end AllowedIps
end WgReceivePath
