import WgReceivePath.AllowedIps.Update

/-!
# The invariant of the table

The invariant has two parts, both about the view of a table.

* `View.Sound`: it is linked, the list of every peer holds the nodes with that peer, each
  once, and these nodes are the routes.
* `View.Full`: a node without a peer has both children.  While a removal is under way one
  node may be an exception (`View.FullBut`).

Every statement of `allowedips.c` that gives a node a peer or takes it away changes one
route, whatever it does to the links (`Sound.set`); replacing a node without a peer changes
none (`Sound.replace`).  All paths of insertion and removal are cases of these two.  They
are stated with the *entry* of a node, its family, prefix and peer, because entries are what
relinking keeps (`entry_connect`, `entry_replace`).
-/

namespace WgReceivePath
namespace AllowedIps

variable {P : Type}

/-- The route that a node stands for. -/
def Tag.entry (g : Tag P) : Family × List Bool × Option P := (g.family, g.pre, g.peer)

/-- The route that the node at an address stands for. -/
def View.entry (v : View P) (n : Ptr) : Option (Family × List Bool × Option P) :=
  (v.tag n).map Tag.entry

/-- The routes with one of them set. -/
def Routes.set (routes : Routes P) (f : Family) (p : List Bool) (x : Option P) : Routes P :=
  fun f' q => if f' = f ∧ q = p then x else routes f' q

namespace View

/-- Links, lists and routes belong together. -/
structure Sound (v : View P) (routes : Routes P) : Prop where
  linked : v.Linked
  listed : ∀ {p n}, n ∈ v.list p ↔ ∃ f q, v.entry n = some (f, q, some p)
  nodup : ∀ p, (v.list p).Nodup
  fresh : ∀ {n}, v.next ≤ n → v.tag n = none
  represents : v.Represents routes

/-- A node without a peer has both children, with at most one exception: the node that a
removal is about to replace. -/
def FullBut (v : View P) (except : Option Ptr) : Prop :=
  ∀ n f q, v.entry n = some (f, q, none) → except ≠ some n → ∀ b, (v.slot (.bit n b)).isSome

/-- A node without a peer has both children. -/
def Full (v : View P) : Prop := v.FullBut none

variable {v w : View P} {routes : Routes P} {n d : Ptr} {g : Tag P} {f : Family}
  {q : List Bool} {x : Option P} {σ : Slot}

theorem entry_of_tag (tagged : v.tag n = some g) : v.entry n = some g.entry := by
  simp [entry, tagged]

theorem entry_eq_some : v.entry n = some (f, q, x) ↔
    ∃ g, v.tag n = some g ∧ g.family = f ∧ g.pre = q ∧ g.peer = x := by
  simp [entry, Tag.entry]

theorem represents_iff : v.Represents routes ↔
    ∀ f p x, routes f p = some x ↔ ∃ n, v.entry n = some (f, p, some x) := by
  simp only [Represents, entry_eq_some]

theorem Linked.entry_unique (linked : v.Linked) {m : Ptr} {y : Option P}
    (first : v.entry n = some (f, q, x)) (second : v.entry m = some (f, q, y)) : n = m := by
  obtain ⟨g, tagged, family, pre, -⟩ := entry_eq_some.mp first
  obtain ⟨h, tagged', family', pre', -⟩ := entry_eq_some.mp second
  exact linked.unique tagged tagged' (family.trans family'.symm) (pre.trans pre'.symm)

/-- The route of the prefix of a node leads to its peer. -/
theorem Sound.route_eq (sound : v.Sound routes) (tagged : v.tag n = some g) :
    routes g.family g.pre = g.peer := by
  cases peer : g.peer with
  | some y => exact (sound.represents _ _ y).mpr ⟨n, g, tagged, rfl, rfl, peer⟩
  | none =>
      by_contra bound
      obtain ⟨y, bound⟩ := Option.ne_none_iff_exists'.mp bound
      obtain ⟨m, h, tagged', family, pre, peer'⟩ := (sound.represents _ _ y).mp bound
      obtain rfl := sound.linked.unique tagged' tagged family pre
      obtain rfl : g = h := by simpa [tagged] using tagged'
      simp [peer] at peer'

/-! ## Changing a route

Both lemmas speak of the view after a whole operation and not of its steps.  In between the
links may be anything; what counts is that they are links again, and which entries have
changed. -/

/-- **One node changes its peer.**  Its prefix is the one route that changes, and it moves
to the end of the list of its new peer.  The node may be new, and the links may have
changed, as long as they are links again. -/
theorem Sound.set (sound : v.Sound routes) (linked : w.Linked)
    (fresh : ∀ {n}, w.next ≤ n → w.tag n = none)
    (after : w.entry n = some (f, q, x))
    (before : v.entry n = none ∨ ∃ y, v.entry n = some (f, q, y))
    (others : ∀ m, m ≠ n → ∀ f q y, w.entry m = some (f, q, some y) ↔
      v.entry m = some (f, q, some y))
    [DecidableEq P]
    (lists : ∀ p, w.list p = (v.list p).erase n ++ if x = some p then [n] else []) :
    w.Sound (routes.set f q x) where
  linked := linked
  listed := by
    intro p m
    rw [lists, List.mem_append]
    by_cases here : m = n
    · subst here
      have gone : m ∉ (v.list p).erase m := (sound.nodup p).not_mem_erase
      simp only [gone, false_or, after, Option.some.injEq, Prod.mk.injEq]
      constructor
      · intro member
        split at member
        · next same => exact ⟨f, q, rfl, rfl, same⟩
        · simp at member
      · rintro ⟨-, -, -, -, same⟩
        simp [same]
    · have notTail : m ∉ (if x = some p then [n] else []) := by split <;> simp [here]
      simp only [notTail, or_false, List.mem_erase_of_ne here, sound.listed, others m here]
  nodup := by
    intro p
    rw [lists]
    have shorter : ((v.list p).erase n).Nodup := (sound.nodup p).erase n
    split
    · refine shorter.append (List.nodup_singleton n) ?_
      simpa using (sound.nodup p).not_mem_erase
    · simpa using shorter
  fresh := fresh
  represents := by
    have entries := represents_iff.mp sound.represents
    refine represents_iff.mpr fun f' q' y => ?_
    unfold Routes.set
    split
    · next same =>
        obtain ⟨rfl, rfl⟩ := same
        constructor
        · rintro rfl; exact ⟨n, after⟩
        · rintro ⟨m, stored⟩
          obtain rfl := linked.entry_unique after stored
          simpa [after] using stored
    · next other =>
        rw [entries]
        refine exists_congr fun m => ?_
        by_cases here : m = n
        · subst here
          have not_v : v.entry m ≠ some (f', q', some y) := by
            obtain absent | ⟨z, present⟩ := before
            · simp [absent]
            · rw [present]; rintro ⟨⟩; exact other ⟨rfl, rfl⟩
          have not_w : w.entry m ≠ some (f', q', some y) := by
            rw [after]; rintro ⟨⟩; exact other ⟨rfl, rfl⟩
          simp [not_v, not_w]
        · exact (others m here f' q' y).symm

@[simp] theorem entry_connect (m : Ptr) : (v.connect σ n).entry m = v.entry m := by
  by_cases here : m = n
  · subst here
    cases tagged : v.tag m <;> simp [entry, connect, tagged, Tag.entry]
  · simp [entry, connect, here]

theorem entry_replace {child : Option Ptr} (m : Ptr) :
    (v.replace σ n child).entry m = if m = n then none else v.entry m := by
  unfold entry replace
  split
  · simp_all
  · next other =>
      simp only [other, if_false]
      split
      · cases v.tag m <;> simp [Tag.entry]
      · rfl

/-- **A node without a peer is replaced by its child**: no route changes. -/
theorem Sound.replace (sound : v.Sound routes) {child : Option Ptr} (tagged : v.tag n = some g)
    (parent : g.parent = some σ) (peerless : g.peer = none)
    (only : ∀ d, child = some d ↔ ∃ b, v.slot (.bit n b) = some d) :
    (v.replace σ n child).Sound routes where
  linked := sound.linked.replaced tagged parent only
  listed := by
    intro p m
    rw [entry_replace]
    refine (sound.listed (p := p)).trans ?_
    by_cases here : m = n
    · subst here; simp [entry_of_tag tagged, Tag.entry, peerless]
    · simp [here]
  nodup := sound.nodup
  fresh := by
    intro m later
    have absent : v.tag m = none := sound.fresh later
    simp [View.replace, absent]
  represents := by
    refine represents_iff.mpr fun f q y => ?_
    rw [represents_iff.mp sound.represents]
    refine exists_congr fun m => ?_
    rw [entry_replace]
    by_cases here : m = n
    · subst here; simp [entry_of_tag tagged, Tag.entry, peerless]
    · simp [here]

end View
end AllowedIps
end WgReceivePath
