import WgReceivePath.AllowedIps.Invariant

/-!
# Insertion

`add` keeps the invariant on each of its paths.  On success the route of the prefix is set,
on failure no route changes (`add_good`).

1. The prefix has a node already, and the node changes its peer (`exact_added`).
2. The new node becomes a leaf (`leaf_added`).
3. It takes the place of a node whose prefix it is a prefix of, or a node without a peer is
  put where the two prefixes part, with both below it (`addAround_added`, `branch_added`).
4. The second allocation fails, and the first node is taken back (`undo_added`).

## What carries the proof

`node_placement` has found a gap for the prefix, which says that the prefix may hang from
the slot and that what hangs there is not on the way to it.  From this and `common_bits`
alone follows how the two addresses part (`exists_longer`, `exists_parting`), and with it
which of the relinkings of `AllowedIps.View` the path is.  The branch with two new nodes is
two of them in a row (`Linked.branch`); the source does them in another order, which the
view does not see.
-/

namespace WgReceivePath
namespace AllowedIps

variable {P : Type}

/-- The invariant of a table, for the routes it stands for: its nodes are set up, its view
is sound, and no node is superfluous. -/
structure Table.Good (t : Table P) (routes : Routes P) : Prop where
  shaped : t.Shaped
  sound : t.view.Sound routes
  full : t.view.Full

/-! ## Views of the intermediate tables

`add` allocates the new node and puts it on its peer's list before it knows where the node
goes.  The view of that moment is `extend`: a node that hangs nowhere.  It is not linked,
and the lemmas say which links make it so. -/

namespace View

variable {v w : View P} {n d : Ptr} {g below : Tag P} {σ : Slot} {f : Family} {p : List Bool}

/-- Being linked is a matter of tags and slots. -/
theorem Linked.congr (linked : v.Linked) (tags : w.tag = v.tag) (slots : w.slot = v.slot) :
    w.Linked := by
  cases v
  cases w
  cases tags
  cases slots
  exact ⟨linked.hangs, linked.held⟩

/-- Being linked is not a matter of peers: families, prefixes and parents are the same, and
the slots are. -/
theorem Linked.setPeer (linked : v.Linked) (tagged : v.tag n = some g) (x : Option P)
    (tags : w.tag = Function.update v.tag n (some { g with peer := x }))
    (slots : w.slot = v.slot) : w.Linked := by
  have kept : ∀ {m h}, v.tag m = some h → ∃ h', w.tag m = some h' ∧ h'.family = h.family ∧
      h'.pre = h.pre ∧ h'.parent = h.parent := by
    intro m h tagged'
    by_cases here : m = n
    · subst here
      obtain rfl : g = h := by simpa [tagged] using tagged'
      exact ⟨{ g with peer := x }, by simp [tags], rfl, rfl, rfl⟩
    · exact ⟨h, by simpa [tags, here] using tagged', rfl, rfl, rfl⟩
  refine ⟨fun {m h} tagged' => ?_, fun {τ m} held => ?_⟩
  · have old : ∃ h₀, v.tag m = some h₀ ∧ h₀.family = h.family ∧ h₀.pre = h.pre ∧
        h₀.parent = h.parent := by
      by_cases here : m = n
      · subst here
        obtain rfl : { g with peer := x } = h := by simpa [tags] using tagged'
        exact ⟨g, tagged, rfl, rfl, rfl⟩
      · exact ⟨h, by simpa [tags, here] using tagged', rfl, rfl, rfl⟩
    obtain ⟨h₀, tagged₀, family, pre, parent⟩ := old
    obtain ⟨τ, parent', held, above⟩ := linked.hangs tagged₀
    refine ⟨τ, parent.symm.trans parent', slots ▸ held, ?_⟩
    rw [← family, ← pre]
    exact above.mono fun tagged => by
      obtain ⟨h', tagged', family', pre', -⟩ := kept tagged
      exact ⟨h', tagged', family', pre'⟩
  · obtain ⟨h, tagged', parent⟩ := linked.held (slots ▸ held)
    obtain ⟨h', tagged'', -, -, parent'⟩ := kept tagged'
    exact ⟨h', tagged'', parent'.trans parent⟩

theorem FullBut.connect {except : Option Ptr} (full : v.FullBut except) (σ : Slot) (n : Ptr) :
    (v.connect σ n).FullBut except := by
  intro m f q stored other b
  rw [entry_connect] at stored
  by_cases here : Slot.bit m b = σ
  · simp [View.connect, here]
  · simpa [View.connect, here] using full m f q stored other b

theorem FullBut.full (full : v.FullBut (some n)) (here : ∀ b, (v.slot (.bit n b)).isSome) :
    v.Full := by
  intro m f q stored _
  by_cases same : n = m
  · exact same ▸ here
  · exact full m f q stored (by simpa using same)

/-- The view after a node was allocated for a peer and put on its list. -/
def extend [DecidableEq P] (v : View P) (g : Tag P) (x : P) : View P :=
  { v.add v.next g with
    list := Function.update v.list x (v.list x ++ [v.next])
    next := v.next + 1 }

/-- **The branch of `add` with two new nodes** ends like the other two in a row: the node
without a peer is put above `d`, and then the new node is a leaf of it.  The source links the
leaf before it publishes the node above. -/
theorem Linked.branch (linked : v.Linked) {m : Ptr} {branch : Tag P} {b : Bool}
    (absent : v.tag n = none) (absent' : v.tag m = none) (apart : n ≠ m)
    (held : v.slot σ = some d) (tagged : v.tag d = some below)
    (above : v.Above branch.family branch.pre σ)
    (familyBelow : below.family = branch.family) (familyNew : g.family = branch.family)
    (longerBelow : branch.pre ++ [b] <+: below.pre) (longerNew : branch.pre ++ [!b] <+: g.pre) :
    (((((v.add n g).add m branch).connect (.bit m b) d).connect (.bit m !b) n).connect
      σ m).Linked := by
  have low : d ≠ n := by rintro rfl; simp [absent] at tagged
  have low' : d ≠ m := by rintro rfl; simp [absent'] at tagged
  have outside : ∀ c, σ ≠ .bit m c := by
    rintro c rfl; simp [linked.slot_bit_eq_none absent'] at held
  have parts : Slot.bit m b ≠ .bit m !b := by simp
  have first := linked.insertAbove absent' held tagged above familyBelow longerBelow
  have at_n : (((v.add m branch).connect (.bit m b) d).connect σ m).tag n = none := by
    simp [add, View.connect, apart, low.symm, absent]
  have empty : (((v.add m branch).connect (.bit m b) d).connect σ m).slot (.bit m !b) =
      none := by
    simp [add, View.connect, (outside (!b)).symm, parts.symm, linked.slot_bit_eq_none absent']
  have hung := first.leaf at_n empty
    ⟨{ branch with parent := some σ }, by simp [add, View.connect, low'.symm], familyNew.symm,
      longerNew⟩
  refine hung.congr ?_ ?_
  · funext k
    by_cases isNew : k = n
    · subst isNew; simp [add, View.connect, apart, low.symm]
    by_cases isBranch : k = m
    · subst isBranch; simp [add, View.connect, apart.symm, low'.symm]
    by_cases isBelow : k = d
    · subst isBelow; simp [add, View.connect, low, low']
    · simp [add, View.connect, isNew, isBranch, isBelow]
  · funext τ
    by_cases atSlot : τ = σ
    · subst atSlot; simp [add, View.connect, outside]
    by_cases atNew : τ = .bit m !b
    · subst atNew; simp [add, View.connect, atSlot]
    · simp [add, View.connect, atSlot, atNew]

end View

namespace View

variable [DecidableEq P] {v w : View P} {routes : Routes P} {g below : Tag P} {x : P} {σ : Slot}
  {d : Ptr}

/-- Outside of the new node an extended view is the old one. -/
theorem entry_extend (g : Tag P) (x : P) (m : Ptr) :
    (v.extend g x).entry m = if m = v.next then some g.entry else v.entry m := by
  by_cases here : m = v.next
  · subst here; simp [entry, extend, add]
  · simp [entry, extend, add, here]

theorem extend_full (full : v.Full) (peer : g.peer = some x) : (v.extend g x).Full := by
  intro m f q stored _
  rw [entry_extend] at stored
  split at stored
  · simp [Tag.entry, peer] at stored
  · exact full m f q stored (by simp)

theorem tag_extend_of_le (sound : v.Sound routes) {n : Ptr} (later : v.next + 1 ≤ n) :
    (v.extend g x).tag n = none := by
  have other : n ≠ v.next := (Nat.lt_of_succ_le later).ne'
  have absent : v.tag n = none := sound.fresh (Nat.le_of_succ_le later)
  simp [extend, add, other, absent]

theorem Sound.tag_extend (sound : v.Sound routes) {n : Ptr} {h : Tag P}
    (tagged : v.tag n = some h) : (v.extend g x).tag n = some h := by
  have other : n ≠ v.next := by rintro rfl; simp [sound.fresh le_rfl] at tagged
  simpa [extend, add, other] using tagged

theorem Sound.valid_extend (sound : v.Sound routes) (valid : v.Valid σ) :
    (v.extend g x).Valid σ := by
  cases σ with
  | root f => trivial
  | bit n b =>
      obtain ⟨h, tagged⟩ := Option.isSome_iff_exists.mp valid
      simp [Valid, sound.tag_extend tagged]

/-- A new node for a peer sets the route of its prefix. -/
theorem Sound.inserted (sound : v.Sound routes) (linked : w.Linked)
    (fresh : ∀ {n}, w.next ≤ n → w.tag n = none) (peer : g.peer = some x)
    (after : w.entry v.next = some g.entry)
    (others : ∀ m, m ≠ v.next → ∀ f q y, w.entry m = some (f, q, some y) ↔
      v.entry m = some (f, q, some y))
    (list : w.list = (v.extend g x).list) :
    w.Sound (routes.set g.family g.pre (some x)) := by
  have absent : v.entry v.next = none := by simp [entry, sound.fresh le_rfl]
  have unlisted : ∀ p, v.next ∉ v.list p := by
    intro p member
    obtain ⟨f, q, stored⟩ := sound.listed.mp member
    simp [absent] at stored
  refine sound.set linked fresh (peer ▸ after) (.inl absent) others fun p => ?_
  rw [list, List.erase_of_not_mem (unlisted p)]
  by_cases here : p = x
  · subst here; simp [extend]
  · simp [extend, here, Ne.symm here]

/-- The new node becomes a leaf. -/
theorem Sound.leaf (sound : v.Sound routes) (peer : g.peer = some x)
    (above : v.Above g.family g.pre σ) (empty : v.slot σ = none) :
    ((v.extend g x).connect σ v.next).Sound (routes.set g.family g.pre (some x)) := by
  refine sound.inserted ((sound.linked.leaf (sound.fresh le_rfl) empty above).congr rfl rfl)
    (fun {n} later => ?_) peer (by simp [entry_extend]) (fun m other f q y => ?_) rfl
  · have later' : v.next + 1 ≤ n := later
    have other : n ≠ v.next := (Nat.lt_of_succ_le later').ne'
    simpa [connect, other] using tag_extend_of_le sound later'
  · simp [entry_extend, other]

/-- The new node is put above the one in its slot. -/
theorem Sound.above (sound : v.Sound routes) {b : Bool} (peer : g.peer = some x)
    (above : v.Above g.family g.pre σ) (held : v.slot σ = some d)
    (tagged : v.tag d = some below) (family : below.family = g.family)
    (longer : g.pre ++ [b] <+: below.pre) :
    (((v.extend g x).connect (.bit v.next b) d).connect σ v.next).Sound
      (routes.set g.family g.pre (some x)) := by
  refine sound.inserted
    ((sound.linked.insertAbove (sound.fresh le_rfl) held tagged above family longer).congr
      rfl rfl)
    (fun {n} later => ?_) peer (by simp [entry_extend]) (fun m other f q y => ?_) rfl
  · have later' : v.next + 1 ≤ n := later
    have other : n ≠ v.next := (Nat.lt_of_succ_le later').ne'
    have low : n ≠ d := by
      rintro rfl; simp [sound.fresh (Nat.le_of_succ_le later')] at tagged
    simpa [connect, other, low] using tag_extend_of_le sound later'
  · simp [entry_extend, other]

/-- The view with a second new node, without a peer. -/
def extendBranch (v : View P) (g branch : Tag P) (x : P) : View P :=
  { (v.extend g x).add (v.next + 1) branch with next := v.next + 2 }

/-- The new node and the one in its slot are put below a node for their common prefix.  The
route that is set is that of the new node; the node for the common prefix has no peer and is
no route. -/
theorem Sound.branch (sound : v.Sound routes) {branch : Tag P} {b : Bool}
    (peer : g.peer = some x) (peerless : branch.peer = none) (held : v.slot σ = some d)
    (tagged : v.tag d = some below) (above : v.Above branch.family branch.pre σ)
    (familyBelow : below.family = branch.family) (familyNew : g.family = branch.family)
    (longerBelow : branch.pre ++ [b] <+: below.pre) (longerNew : branch.pre ++ [!b] <+: g.pre) :
    ((((v.extendBranch g branch x).connect (.bit (v.next + 1) b) d).connect
      (.bit (v.next + 1) !b) v.next).connect σ (v.next + 1)).Sound
        (routes.set g.family g.pre (some x)) := by
  have fresh : v.tag v.next = none := sound.fresh le_rfl
  have fresh' : v.tag (v.next + 1) = none := sound.fresh (Nat.le_succ _)
  refine sound.inserted
    ((sound.linked.branch fresh fresh' (Nat.succ_ne_self _).symm held tagged above familyBelow
      familyNew longerBelow longerNew).congr rfl rfl)
    (fun {n} later => ?_) peer ?_ (fun m other f q y => ?_) rfl
  · have later' : v.next + 2 ≤ n := later
    have one : v.next + 1 ≤ n := Nat.le_of_succ_le later'
    have other : n ≠ v.next := (Nat.lt_of_succ_le one).ne'
    have other' : n ≠ v.next + 1 := (Nat.lt_of_succ_le later').ne'
    have low : n ≠ d := by
      rintro rfl; simp [sound.fresh (Nat.le_of_succ_le one)] at tagged
    simpa [connect, extendBranch, add, other, other', low] using tag_extend_of_le sound one
  · simp only [entry_connect]
    simp [entry, extendBranch, extend, add]
  · simp only [entry_connect]
    by_cases second : m = v.next + 1
    · subst second
      simp [entry, extendBranch, add, fresh', Tag.entry, peerless]
    · have same : (v.extendBranch g branch x).entry m = (v.extend g x).entry m := by
        simp [entry, extendBranch, add, second]
      rw [same, entry_extend, if_neg other]

theorem branch_full (full : v.Full) {branch : Tag P} {b : Bool} (peer : g.peer = some x) :
    ((((v.extendBranch g branch x).connect (.bit (v.next + 1) b) d).connect
      (.bit (v.next + 1) !b) v.next).connect σ (v.next + 1)).Full := by
  have but : (v.extendBranch g branch x).FullBut (some (v.next + 1)) := by
    intro m f q stored other
    have same : (v.extendBranch g branch x).entry m = (v.extend g x).entry m := by
      have other : m ≠ v.next + 1 := by rintro rfl; exact other rfl
      simp [entry, extendBranch, add, other]
    exact extend_full full peer m f q (same ▸ stored) (by simp)
  refine (((but.connect _ _).connect _ _).connect σ _).full fun c => ?_
  by_cases atSlot : Slot.bit (v.next + 1) c = σ
  · simp [connect, atSlot]
  · by_cases side : c = b
    · subst side; simp [connect, atSlot]
    · obtain rfl : c = !b := by cases b <;> cases c <;> simp_all
      simp [connect, atSlot]

end View

namespace Table

variable {t : Table P} {routes : Routes P} {f : Family} {key : Bytes} {cidr : ℕ} {x : P}
  {σ : Slot} {n d : Ptr} {g : Tag P}

theorem alloc_shaped (shaped : t.Shaped) {node : Node P} (new : node.Shaped) :
    (t.alloc node).Shaped := shaped.update new

/-- An allocated node has no children and hangs nowhere. -/
theorem view_alloc {node : Node P} (fresh : t.view.tag t.next = none)
    (childless : node.bit = fun _ => none) :
    (t.alloc node).view = { t.view.add t.next node.tag with next := t.next + 1 } := by
  have absent : t.nodes t.next = none := by simpa [view] using fresh
  ext1 <;> try rfl
  · funext m
    by_cases here : m = t.next
    · subst here; simp [view, alloc, View.add]
    · simp [view, alloc, View.add, here]
  · funext τ
    cases τ with
    | root f => rfl
    | bit m b =>
        by_cases here : m = t.next
        · subst here; simp [view, alloc, View.add, absent, childless]
        · simp [view, alloc, View.add, here]

theorem new_tag {peer : Option P} (long : f.bytes ≤ key.length) :
    (Node.new f key cidr peer).tag = ⟨f, (addrBits f key).take cidr, peer, none⟩ := by
  simp only [Node.tag, Node.new_pre long]
  rfl

/-- The last statement of `add` hangs the node from the slot found for its prefix. -/
theorem connectBelow_yields (shaped : t.Shaped) {parent : Option Ptr}
    (hangs : HangsAt f parent σ) (tagged : t.view.tag n = some g)
    (above : t.view.Above f g.pre σ) (family : g.family = f) :
    Yields (t.connectBelow f parent n) (t.view.connect σ n) := by
  obtain ⟨rfl, rfl⟩ | ⟨p, b, rfl, rfl⟩ := hangs
  · exact connectNode_yields shaped tagged trivial
  · obtain ⟨up, at_up, family', longer⟩ := above
    exact chooseAndConnectNode_yields shaped at_up tagged (family'.trans family.symm) longer

/-! ## Where two addresses part

What `common_bits` says about prefixes, as facts about lists of bits.  Of two prefixes
neither of which is a prefix of the other there is a first bit in which they differ, and
`choose` reads it. -/

theorem take_concat (a : Bytes) {k c : ℕ} (less : k < c) (small : k < f.bits) :
    (addrBits f a).take k ++ [addrBit f a k] <+: (addrBits f a).take c := by
  have next : (addrBits f a).take (k + 1) = (addrBits f a).take k ++ [addrBit f a k] := by
    rw [List.take_add_one, addrBits_getElem? f a small]
    rfl
  rw [← next]
  exact List.take_prefix_take_left less

theorem take_eq_of_concat {p : List Bool} {a : Bytes} {k : ℕ} {b : Bool}
    (inside : p ++ [b] <+: (addrBits f a).take k) :
    p ++ [b] = (addrBits f a).take (p.length + 1) := by
  have short := inside.length_le
  rw [List.prefix_iff_eq_take.mp inside, List.take_take]
  congr 1
  simp only [List.length_append, List.length_singleton, List.length_take] at short ⊢
  omega

/-- The key agrees with an address in all of its prefix, but is not extended by it: the
prefix of the address is longer.  This is the path where the new node goes above. -/
theorem exists_longer {a : Bytes} {c : ℕ} (width : cidr ≤ f.bits)
    (agree : cidr ≤ commonBits f a key)
    (differs : ¬ (addrBits f a).take c <+: (addrBits f key).take cidr) (small : c ≤ f.bits) :
    ∃ b, (addrBits f key).take cidr ++ [b] <+: (addrBits f a).take c := by
  have same := (le_commonBits_iff width).mp agree
  have less : cidr < c := by
    by_contra notLess
    refine differs ?_
    rw [← same]
    exact List.take_prefix_take_left (Nat.not_lt.mp notLess)
  exact ⟨addrBit f a cidr, same ▸ take_concat a less (by omega)⟩

/-- The key and an address part before the end of both prefixes.  This is the path with a
new node for what they have in common. -/
theorem exists_parting {a : Bytes} {c : ℕ} (width : cidr ≤ f.bits)
    (parts : commonBits f a key < cidr)
    (differs : ¬ (addrBits f a).take c <+: (addrBits f key).take cidr) :
    ∃ b, (addrBits f key).take (commonBits f a key) ++ [b] <+: (addrBits f a).take c ∧
      (addrBits f key).take (commonBits f a key) ++ [!b] <+: (addrBits f key).take cidr := by
  have inside : commonBits f a key < f.bits := by omega
  have same := (le_commonBits_iff inside.le).mp (le_refl (commonBits f a key))
  have less : commonBits f a key < c := by
    by_contra notLess
    refine differs ?_
    have shorter : (addrBits f a).take c = (addrBits f key).take c :=
      (le_commonBits_iff (by omega)).mp (Nat.not_lt.mp notLess)
    rw [shorter]
    exact List.take_prefix_take_left (by omega)
  have different : addrBit f a (commonBits f a key) ≠ addrBit f key (commonBits f a key) := by
    intro equal
    have further : commonBits f a key + 1 ≤ commonBits f a key := by
      refine (le_commonBits_iff (by omega)).mpr ((take_addrBits_eq_iff (by omega)).mpr ?_)
      intro i before
      obtain earlier | rfl : i < commonBits f a key ∨ i = commonBits f a key := by omega
      · exact (take_addrBits_eq_iff inside.le).mp same i earlier
      · exact equal
    omega
  refine ⟨addrBit f a (commonBits f a key), same ▸ take_concat a less inside, ?_⟩
  have flipped : (!addrBit f a (commonBits f a key)) = addrBit f key (commonBits f a key) := by
    cases first : addrBit f a (commonBits f a key) <;>
      cases second : addrBit f key (commonBits f a key) <;> simp_all
  rw [flipped]
  exact take_concat key parts inside

/-- The slot that holds two prefixes holds what they have in common, as long as they have
the bit of the slot in common. -/
theorem above_common {v : View P} {a : Bytes} {c : ℕ} (width : cidr ≤ f.bits)
    (first : v.Above f ((addrBits f key).take cidr) σ)
    (second : v.Above f ((addrBits f a).take c) σ) :
    v.Above f ((addrBits f key).take (min cidr (commonBits f a key))) σ := by
  cases σ with
  | root f' => exact first
  | bit p b =>
      obtain ⟨up, at_up, family, inKey⟩ := first
      obtain ⟨up', at_up', -, inOther⟩ := second
      obtain rfl : up = up' := by simpa [at_up] using at_up'
      have first := take_eq_of_concat inKey
      have second := take_eq_of_concat inOther
      have short := inKey.length_le
      simp only [List.length_append, List.length_singleton, List.length_take] at short
      have common : up.pre.length + 1 ≤ commonBits f a key :=
        (le_commonBits_iff (by omega)).mpr (second.symm.trans first)
      refine ⟨up, at_up, family, ?_⟩
      rw [first]
      exact List.take_prefix_take_left (by omega)

/-- `choose` finds the bit of the slot from the key.  `add` computes the slot a second time,
after `node_placement` has walked through it. -/
theorem choose_of_above (good : t.Good routes) (long : f.bytes ≤ key.length) {b : Bool}
    (above : t.view.Above f ((addrBits f key).take cidr) (.bit n b)) :
    ∃ node, t.nodes n = some node ∧ node.choose key = some b := by
  obtain ⟨g, tagged, family, longer⟩ := above
  obtain ⟨node, alive, rfl⟩ := view_tag_eq_some.mp tagged
  have shape := good.shaped alive
  obtain rfl : node.bitlen = f := family
  have inside : node.pre ++ [b] <+: addrBits node.bitlen key :=
    longer.trans ( List.take_prefix _ _)
  have small : node.cidr < node.bitlen.bits := by
    have := inside.length_le
    simp only [List.length_append, List.length_singleton, shape.length_pre,
      length_addrBits] at this
    omega
  obtain ⟨rest, whole⟩ := inside
  have read : (addrBits node.bitlen key)[node.cidr]? = some b := by
    simp [← whole, ← shape.length_pre]
  rw [addrBits_getElem? _ _ small] at read
  exact ⟨node, alive, by rw [shape.choose_eq small long, read]⟩

/-! ## The paths of `add`

One lemma for each path.  A path ends in a chain of relinkings whose views were shown sound
above, so that each proof is the composition of the corresponding `Yields`. -/

/-- What `add` leaves when its code is `code`: the invariant, with the route set exactly if
the code is `ok`. -/
def Added (routes : Routes P) (f : Family) (target : List Bool) (peer : Option P)
    (r : Option (Code × Table P)) (codes : Code → Prop) : Prop :=
  ∃ code t', r = some (code, t') ∧ codes code ∧
    t'.Good (if code = .ok then routes.set f target peer else routes)

theorem Added.of_yields {target : List Bool} {peer : Option P} {codes : Code → Prop}
    {r : Option (Table P)} {v : View P} (yields : Yields r v)
    (sound : v.Sound (routes.set f target peer)) (full : v.Full) (ok : codes .ok) :
    Added routes f target peer (r.bind fun t => some (.ok, t)) codes := by
  obtain ⟨t', rfl, shaped, rfl⟩ := yields
  exact ⟨.ok, t', rfl, ok, shaped, sound, full⟩

theorem Added.bind {target : List Bool} {peer : Option P} {codes : Code → Prop}
    {r : Option (Table P)} {next : Table P → Option (Code × Table P)} {v : View P}
    (first : Yields r v)
    (rest : ∀ t' : Table P, t'.Shaped → t'.view = v →
      Added routes f target peer (next t') codes) :
    Added routes f target peer (r.bind next) codes := by
  obtain ⟨t', rfl, shaped, view⟩ := first
  exact rest t' shaped view

section Paths

variable [DecidableEq P]

/-- The table after the new node was allocated and put on the list of its peer. -/
def withNew (t : Table P) (f : Family) (key : Bytes) (cidr : ℕ) (x : P) : Table P :=
  (t.alloc (Node.new f key cidr (some x))).listAddTail t.next x

/-- The tag of the new node. -/
def newTag (f : Family) (key : Bytes) (cidr : ℕ) (x : P) : Tag P :=
  ⟨f, (addrBits f key).take cidr, some x, none⟩

theorem withNew_shaped (good : t.Good routes) (long : f.bytes ≤ key.length)
    (width : cidr ≤ f.bits) : (t.withNew f key cidr x).Shaped :=
  alloc_shaped good.shaped (Node.new_shaped width long)

theorem view_withNew (good : t.Good routes) (long : f.bytes ≤ key.length) :
    (t.withNew f key cidr x).view = t.view.extend (newTag f key cidr x) x := by
  have allocated : (t.alloc (Node.new f key cidr (some x))).view =
      { t.view.add t.next (newTag f key cidr x) with next := t.next + 1 } := by
    rw [view_alloc (good.sound.fresh le_rfl) rfl, new_tag long, newTag]
  have listed : (t.withNew f key cidr x).view =
      { (t.alloc (Node.new f key cidr (some x))).view with
        list := Function.update t.allowedipsList x (t.allowedipsList x ++ [t.next]) } := rfl
  rw [listed, allocated]
  rfl

/-- The new node becomes a leaf. -/
theorem leaf_added (good : t.Good routes) (long : f.bytes ≤ key.length) (width : cidr ≤ f.bits)
    {codes : Code → Prop} (ok : codes .ok)
    (above : t.view.Above f ((addrBits f key).take cidr) σ) (empty : t.view.slot σ = none) :
    Added routes f ((addrBits f key).take cidr) (some x)
      (((t.withNew f key cidr x).connectNode σ t.next).bind fun t => some (.ok, t)) codes := by
  have shaped : (t.withNew f key cidr x).Shaped := withNew_shaped good long width
  have view : (t.withNew f key cidr x).view = t.view.extend (newTag f key cidr x) x :=
    view_withNew good long
  have tagged : (t.withNew f key cidr x).view.tag t.next = some (newTag f key cidr x) := by
    rw [view]; exact Function.update_self ..
  have valid : (t.withNew f key cidr x).view.Valid σ := by
    rw [view]; exact good.sound.valid_extend above.valid
  have yields := connectNode_yields shaped tagged valid
  rw [view] at yields
  exact .of_yields yields (good.sound.leaf rfl above empty)
    (View.FullBut.connect (View.extend_full good.full rfl) σ _) ok

/-- The three links of a branch, from the table with both new nodes.  The source links the
old node first, then the new one, and publishes the branch last. -/
theorem branch_added (good : t.Good routes) {parent : Option Ptr} {codes : Code → Prop}
    {t₀ : Table P} {below : Tag P} {common : List Bool} {b : Bool}
    (hangs : HangsAt f parent σ) (shaped₀ : t₀.Shaped)
    (view₀ : t₀.view = t.view.extendBranch (newTag f key cidr x) ⟨f, common, none, none⟩ x)
    (held : t.view.slot σ = some d) (tagged : t.view.tag d = some below)
    (family : below.family = f) (above : t.view.Above f common σ)
    (longerBelow : common ++ [b] <+: below.pre)
    (longerNew : common ++ [!b] <+: (addrBits f key).take cidr) (ok : codes .ok) :
    Added routes f ((addrBits f key).take cidr) (some x)
      ((t₀.chooseAndConnectNode (t.next + 1) d).bind fun t₁ =>
        (t₁.chooseAndConnectNode (t.next + 1) t.next).bind fun t₂ =>
          (t₂.connectBelow f parent (t.next + 1)).bind fun t₃ => some (.ok, t₃)) codes := by
  have sound := good.sound
  have apart : d ≠ t.view.next := by
    rintro rfl; simp [sound.fresh le_rfl] at tagged
  have apart' : d ≠ t.view.next + 1 := by
    rintro rfl; simp [sound.fresh (Nat.le_succ _)] at tagged
  have branchTagged : t₀.view.tag (t.next + 1) = some ⟨f, common, none, none⟩ := by
    rw [view₀]; exact Function.update_self ..
  have newTagged : t₀.view.tag t.next = some (newTag f key cidr x) := by
    rw [view₀]
    exact (Function.update_of_ne (Nat.succ_ne_self _).symm ..).trans (Function.update_self ..)
  have lowTagged : t₀.view.tag d = some below := by
    rw [view₀]
    exact (Function.update_of_ne apart' ..).trans (sound.tag_extend tagged)
  have kept : ∀ {m h}, t.view.tag m = some h → t₀.view.tag m = some h := by
    intro m h tagged
    have other : m ≠ t.view.next + 1 := by
      rintro rfl; simp [sound.fresh (Nat.le_succ _)] at tagged
    rw [view₀]
    exact (Function.update_of_ne other ..).trans (sound.tag_extend tagged)
  refine .bind (chooseAndConnectNode_yields shaped₀ branchTagged lowTagged family.symm
    longerBelow) fun t₁ shaped₁ view₁ => ?_
  have branchTagged₁ : t₁.view.tag (t.next + 1) = some ⟨f, common, none, none⟩ := by
    rw [view₁]; exact (Function.update_of_ne apart'.symm ..).trans branchTagged
  have newTagged₁ : t₁.view.tag t.next = some (newTag f key cidr x) := by
    rw [view₁]; exact (Function.update_of_ne apart.symm ..).trans newTagged
  refine .bind (chooseAndConnectNode_yields shaped₁ branchTagged₁ newTagged₁ rfl longerNew)
    fun t₂ shaped₂ view₂ => ?_
  have branchTagged₂ : t₂.view.tag (t.next + 1) = some ⟨f, common, none, none⟩ := by
    rw [view₂]; exact (Function.update_of_ne (Nat.succ_ne_self _) ..).trans branchTagged₁
  have above₂ : t₂.view.Above f common σ := by
    rw [view₂, view₁]
    exact (above.mono fun tagged => ⟨_, kept tagged, rfl, rfl⟩).connect.connect
  refine .of_yields ((connectBelow_yields shaped₂ hangs branchTagged₂ above₂ rfl).congr
    (by rw [view₂, view₁, view₀])) ?_ ?_ ok
  · exact sound.branch rfl rfl held tagged above family rfl longerBelow longerNew
  · exact View.branch_full good.full rfl

/-- The failure of the second allocation leaves the routes as they were: the first node is
off its list and freed, and it was never linked. -/
theorem undo_added (good : t.Good routes) {codes : Code → Prop} {t₀ : Table P} {g : Tag P}
    {target : List Bool} {peer : Option P}
    (shaped₀ : t₀.Shaped) (view₀ : t₀.view = t.view.extend g x) (failed : codes .enomem) :
    Added routes f target peer
      (((t₀.listDel t.next).free t.next).bind fun t₁ => some (.enomem, t₁)) codes := by
  have sound := good.sound
  have fresh : t.view.tag t.view.next = none := sound.fresh le_rfl
  have shaped : (t₀.listDel t.next).Shaped := shaped₀
  have view : (t₀.listDel t.next).view = { t.view.extend g x with
      list := fun p => ((t.view.extend g x).list p).erase t.next } := by
    rw [← view₀]; rfl
  have tagged : (t₀.listDel t.next).view.tag t.next = some g := by
    rw [view]; exact Function.update_self ..
  obtain ⟨t₁, freed, shaped₁, view₁⟩ := free_yields shaped tagged
  have restored : t₁.view = { t.view with next := t.view.next + 1 } := by
    rw [view₁, view]
    ext1
    · funext m
      by_cases here : m = t.view.next
      · subst here; exact (Function.update_self ..).trans fresh.symm
      · exact (Function.update_of_ne here ..).trans (Function.update_of_ne here ..)
    · funext τ
      show (if τ = .bit t.next false ∨ τ = .bit t.next true then none else t.view.slot τ) = _
      split
      · next here =>
          obtain rfl | rfl := here <;> exact (sound.linked.slot_bit_eq_none fresh _).symm
      · rfl
    · funext p
      have unlisted : t.view.next ∉ t.view.list p := by
        intro member
        obtain ⟨f, q, stored⟩ := sound.listed.mp member
        simp [View.entry, fresh] at stored
      show ((Function.update t.view.list x (t.view.list x ++ [t.view.next])) p).erase
        t.view.next = t.view.list p
      by_cases here : p = x
      · subst here
        simp [List.erase_append_right _ unlisted]
      · simp [here, List.erase_of_not_mem unlisted]
    · rfl
  refine ⟨.enomem, t₁, by rw [freed]; rfl, failed, shaped₁, ?_, ?_⟩
  · rw [restored]
    exact ⟨sound.linked.congr rfl rfl, sound.listed, sound.nodup,
      fun later => sound.fresh (Nat.le_of_succ_le later), sound.represents⟩
  · rw [restored]
    exact good.full

/-- The new node takes the place of another one, above it or beside it.  The case is decided
by whether the whole new prefix is common to both; if the second allocation fails, the table
is as before but for the freed node. -/
theorem addAround_added (good : t.Good routes) (long : f.bytes ≤ key.length)
    (width : cidr ≤ f.bits) {parent : Option Ptr} {memory : Bool} {codes : Code → Prop}
    (ok : codes .ok) (failed : memory = false → codes .enomem)
    (hangs : HangsAt f parent σ) (gap : t.view.Gap f ((addrBits f key).take cidr) σ)
    (held : t.view.slot σ = some d) :
    Added routes f ((addrBits f key).take cidr) (some x)
      ((t.withNew f key cidr x).addAround f key cidr t.next parent d memory) codes := by
  have shaped : (t.withNew f key cidr x).Shaped := withNew_shaped good long width
  have view : (t.withNew f key cidr x).view = t.view.extend (newTag f key cidr x) x :=
    view_withNew good long
  obtain ⟨below, tagged, family, -, aboveBelow⟩ :=
    good.sound.linked.held_family gap.above held
  have differs := gap.differs held tagged
  -- the node below as the new table stores it
  obtain ⟨lower, alive, rfl⟩ := view_tag_eq_some.mp
    ((congrArg (fun v => View.tag v d) view).trans (good.sound.tag_extend tagged))
  have shape : lower.Shaped := shaped alive
  have bitlen : lower.bitlen = f := family
  have pre : lower.pre = (addrBits f lower.bits).take lower.cidr := by rw [Node.pre, bitlen]
  have small : lower.cidr ≤ f.bits := bitlen ▸ shape.cidr_le
  have fresh : (t.withNew f key cidr x).nodes t.next = some (Node.new f key cidr (some x)) := by
    simp [withNew, alloc, listAddTail]
  have above_extend : ∀ {p}, t.view.Above f p σ →
      (t.view.extend (newTag f key cidr x) x).Above f p σ :=
    fun above => above.mono fun tagged => ⟨_, good.sound.tag_extend tagged, rfl, rfl⟩
  have newTagged : (t.view.extend (newTag f key cidr x) x).tag t.next =
      some (newTag f key cidr x) := Function.update_self ..
  have lowTagged : (t.withNew f key cidr x).view.tag d = some lower.tag :=
    view_tag_eq_some.mpr ⟨lower, alive, rfl⟩
  have apart : d ≠ t.next := by
    rintro rfl
    have absent : t.view.tag t.next = none := good.sound.fresh le_rfl
    simp [absent] at tagged
  replace differs : ¬ (addrBits f lower.bits).take lower.cidr <+:
      (addrBits f key).take cidr := pre ▸ differs
  simp only [addAround, alive, fresh, Option.bind_eq_bind, Option.bind_some]
  split
  · next above' =>
      have agree : cidr ≤ commonBits f lower.bits key := by
        have same : cidr = min cidr (commonBits f lower.bits key) := above'
        omega
      obtain ⟨b, longer⟩ := exists_longer width agree differs small
      refine .bind (chooseAndConnectNode_yields shaped (by rw [view]; exact newTagged)
        lowTagged family.symm (pre ▸ longer)) fun t₁ shaped₁ view₁ => ?_
      rw [view] at view₁
      refine .of_yields ((connectBelow_yields shaped₁ hangs (g := newTag f key cidr x) ?_ ?_
        rfl).congr (by rw [view₁]))
        (good.sound.above rfl gap.above held tagged family (pre ▸ longer)) ?_ ok
      · rw [view₁]; simpa [View.connect, apart.symm] using newTagged
      · rw [view₁]; exact (above_extend gap.above).connect
      · exact View.FullBut.connect
          (View.FullBut.connect (View.extend_full good.full rfl) _ _) _ _
  · next beside =>
      have parts : commonBits f lower.bits key < cidr := by
        have unequal : cidr ≠ min cidr (commonBits f lower.bits key) := beside
        omega
      have shorter : min cidr (commonBits f lower.bits key) = commonBits f lower.bits key := by
        omega
      obtain ⟨b, longerBelow, longerNew⟩ := exists_parting width parts differs
      have aboveLower : t.view.Above f ((addrBits f lower.bits).take lower.cidr) σ := by
        rw [← pre]; exact aboveBelow
      have aboveBranch : t.view.Above f
          ((addrBits f key).take (commonBits f lower.bits key)) σ :=
        shorter ▸ above_common width gap.above aboveLower
      split
      · rw [shorter]
        have stored : f.bytes ≤ (Node.new f key cidr (some x)).bits.length :=
          (Node.new_shaped width long).long
        have viewBranch : ((t.withNew f key cidr x).alloc (Node.new f
            (Node.new f key cidr (some x)).bits (commonBits f lower.bits key) none)).view =
            t.view.extendBranch (newTag f key cidr x)
              ⟨f, (addrBits f key).take (commonBits f lower.bits key), none, none⟩ x := by
          rw [view_alloc (view ▸ View.tag_extend_of_le good.sound le_rfl) rfl, view,
            new_tag stored, Node.addrBits_new long]
          rfl
        have shapedBranch : ((t.withNew f key cidr x).alloc (Node.new f
            (Node.new f key cidr (some x)).bits (commonBits f lower.bits key) none)).Shaped :=
          alloc_shaped shaped (Node.new_shaped (by omega) stored)
        have longerLower : (addrBits f key).take (commonBits f lower.bits key) ++ [b] <+:
            lower.pre := pre ▸ longerBelow
        exact branch_added good hangs shapedBranch viewBranch held tagged family aboveBranch
          longerLower longerNew ok
      · next noMemory => exact undo_added good shaped view (failed (by simpa using noMemory))

/-- The prefix has a node already: it changes its peer and its list.  The node may have had
another peer, the same one, or none. -/
theorem exact_added (good : t.Good routes) {codes : Code → Prop} (ok : codes .ok)
    (tagged : t.view.tag n = some g) :
    Added routes g.family g.pre (some x)
      ((t.modify n fun node => { node with peer := some x }).bind fun t =>
        some (.ok, (t.listDel n).listAddTail n x)) codes := by
  have sound := good.sound
  obtain ⟨node, alive, rfl⟩ := view_tag_eq_some.mp tagged
  have old := good.shaped alive
  have yields : Yields (t.modify n fun node => { node with peer := some x }) { t.view with
      tag := Function.update t.view.tag n (some { node.tag with peer := some x }) } :=
    modify_yields good.shaped alive ⟨old.cidr_le, old.at_a, old.at_b, old.long⟩ rfl
  obtain ⟨t₁, stored, shaped₁, view₁⟩ := yields
  have tags : t₁.view.tag =
      Function.update t.view.tag n (some { node.tag with peer := some x }) := by rw [view₁]
  have slots : t₁.view.slot = t.view.slot := by rw [view₁]
  have next : t₁.view.next = t.view.next := by rw [view₁]
  have lists : ∀ p, ((t₁.listDel n).listAddTail n x).view.list p =
      (t.view.list p).erase n ++ if some x = some p then [n] else [] := by
    intro p
    have base : t₁.view.list = t.view.list := by rw [view₁]
    replace base : t₁.allowedipsList = t.view.list := base
    by_cases here : p = x
    · subst here; simp [view, listDel, listAddTail, base]
    · simp [view, listDel, listAddTail, base, here, Ne.symm here]
  have entries : ∀ m, ((t₁.listDel n).listAddTail n x).view.entry m =
      if m = n then some (node.tag.family, node.tag.pre, some x) else t.view.entry m := by
    intro m
    show (t₁.view.tag m).map Tag.entry = _
    rw [tags]
    by_cases here : m = n
    · subst here; simp [Tag.entry]
    · simp [here, View.entry]
  refine ⟨.ok, (t₁.listDel n).listAddTail n x, by rw [stored]; rfl, ok, shaped₁, ?_, ?_⟩
  · refine sound.set (sound.linked.setPeer tagged (some x) tags slots)
      (fun {m} later => ?_) (by simp [entries])
      (.inr ⟨node.tag.peer, View.entry_of_tag tagged⟩) (fun m other f q y => ?_) lists
    · have later' : t.view.next ≤ m := next ▸ later
      have absent := sound.fresh later'
      have other : m ≠ n := by rintro rfl; simp [absent] at tagged
      show t₁.view.tag m = none
      rw [tags]
      simpa [other] using absent
    · rw [entries, if_neg other]
  · intro m f q stored' _ b
    rw [entries] at stored'
    split at stored'
    · simp at stored'
    · show (t₁.view.slot (.bit m b)).isSome
      rw [slots]
      exact good.full m f q stored' (by simp) b

theorem withNew_nodes (good : t.Good routes) {node : Node P} (alive : t.nodes n = some node) :
    (t.withNew f key cidr x).nodes n = some node := by
  have absent : t.view.tag t.next = none := good.sound.fresh le_rfl
  have other : n ≠ t.next := by
    rintro rfl
    rw [view_tag_eq_some.mpr ⟨node, alive, rfl⟩] at absent
    cases absent
  exact (Function.update_of_ne other ..).trans alive

/-- **`add` sets the route of the prefix**, or fails and changes none.  It refuses its
arguments exactly if the prefix is too long or there is no peer, and it is short of memory
only if an allocation failed. -/
theorem add_good (good : t.Good routes) (long : f.bytes ≤ key.length) (cidr : ℕ)
    (peer : Option P) (memory memory' : Bool) :
    Added routes f ((addrBits f key).take cidr) peer (t.add f key cidr peer memory memory')
      fun code => (code = .einval ↔ f.bits < cidr ∨ peer = none) ∧
        (code = .enomem → (memory && memory') = false) := by
  cases peer with
  | none => exact ⟨.einval, t, rfl, by simp, good⟩
  | some x =>
      by_cases wide : f.bits < cidr
      · exact ⟨.einval, t, by simp [add, wide], by simp [wide], good⟩
      have width : cidr ≤ f.bits := Nat.not_lt.mp wide
      simp only [add, if_neg wide]
      obtain ⟨⟨found, parent⟩, runs, placed⟩ :=
        nodePlacement_root good.sound.linked good.shaped long width
      cases top : t.root f with
      | none =>
          dsimp only
          split
          · exact leaf_added good long width (by simp [wide]) rfl top
          · next noMemory =>
              exact ⟨.enomem, t, rfl, ⟨by simp [wide], fun _ => by simp_all⟩, good⟩
      | some r =>
          rw [top] at runs
          simp only [runs, Option.bind_eq_bind, Option.bind_some]
          cases found with
          | true =>
              obtain ⟨n, g, rfl, tagged, rfl, pre⟩ := placed
              rw [← pre]
              exact exact_added good (by simp [wide]) tagged
          | false =>
              obtain ⟨σ, hangs, gap⟩ := placed
              dsimp only
              split
              · next hasMemory =>
                  have failed : memory' = false → (memory && memory') = false := by simp_all
                  obtain ⟨rfl, rfl⟩ | ⟨p, b, rfl, rfl⟩ := hangs
                  · exact addAround_added good long width (by simp [wide])
                      (fun none => by simpa [wide] using failed none) (.inl ⟨rfl, rfl⟩) gap top
                  · obtain ⟨node, alive, choice⟩ := choose_of_above good long gap.above
                    have stored : (t.withNew f key cidr x).nodes p = some node :=
                      withNew_nodes good alive
                    have held := view_slot_bit alive b
                    show Added _ _ _ _ (((t.withNew f key cidr x).nodes p).bind _) _
                    rw [stored]
                    show Added _ _ _ _ ((node.choose key).bind _) _
                    rw [choice]
                    cases bit : node.bit b with
                    | none =>
                        rw [bit] at held
                        simp only [Option.bind_some, bit]
                        exact leaf_added good long width (by simp [wide]) gap.above held
                    | some down =>
                        rw [bit] at held
                        simp only [Option.bind_some, bit]
                        exact addAround_added good long width (by simp [wide])
                          (fun none => by simpa [wide] using failed none)
                          (.inr ⟨p, b, rfl, rfl⟩) gap held
              · next noMemory =>
                  exact ⟨.enomem, t, rfl, ⟨by simp [wide], fun _ => by simp_all⟩, good⟩

end Paths

end Table

end AllowedIps
end WgReceivePath
