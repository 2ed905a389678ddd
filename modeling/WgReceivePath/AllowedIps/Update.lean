import WgReceivePath.AllowedIps.Search

/-!
# Relinking a table

The statements of `allowedips.c` that write to memory, as changes of the view of the table.

`Yields r v` says that a computation runs without a fault and leaves a table with the view
`v`, all of its nodes set up.  Each operation has one such lemma: a store to a node, a store
to a slot, a free, `connect_node`, `choose_and_connect_node`, and the replacement of a node
by its child.  Longer operations are composed with `Yields.bind`.  The next files prove that
the views are the right ones, and do not look at memory again.
-/

namespace WgReceivePath
namespace AllowedIps

variable {P : Type}

/-- The computation succeeds, with a table of that view and nodes that are set up. -/
def Yields (r : Option (Table P)) (v : View P) : Prop := ∃ t, r = some t ∧ t.Shaped ∧ t.view = v

theorem Yields.bind {r : Option (Table P)} {next : Table P → Option (Table P)} {v w : View P}
    (first : Yields r v) (rest : ∀ t : Table P, t.Shaped → t.view = v → Yields (next t) w) :
    Yields (r.bind next) w := by
  obtain ⟨t, rfl, shaped, view⟩ := first
  exact rest t shaped view

theorem Yields.congr {r : Option (Table P)} {v w : View P} (yields : Yields r v) (same : v = w) :
    Yields r w := same ▸ yields

/-- The slot is a root or belongs to a node, so that a store to it is no fault. -/
def View.Valid (v : View P) : Slot → Prop
  | .root _ => True
  | .bit n _ => (v.tag n).isSome

theorem View.Above.valid {v : View P} {f : Family} {p : List Bool} {σ : Slot}
    (above : v.Above f p σ) : v.Valid σ := by
  cases σ with
  | root g => trivial
  | bit n b =>
      obtain ⟨up, tagged, -⟩ := above
      simp [Valid, tagged]

namespace Table

variable {t : Table P} {n d : Ptr} {node : Node P} {g : Tag P} {σ : Slot}

theorem Shaped.update (shaped : t.Shaped) (new : node.Shaped) :
    ({ t with nodes := Function.update t.nodes n (some node) } : Table P).Shaped := by
  intro m other alive
  by_cases here : m = n
  · subst here
    obtain rfl : node = other := by simpa using alive
    exact new
  · exact shaped (by simpa [here] using alive)

/-- A store that keeps the child pointers changes one tag. -/
theorem modify_yields (shaped : t.Shaped) {change : Node P → Node P}
    (alive : t.nodes n = some node) (new : (change node).Shaped)
    (kept : (change node).bit = node.bit) :
    Yields (t.modify n change)
      { t.view with tag := Function.update t.view.tag n (some (change node).tag) } := by
  refine ⟨_, by rw [modify, alive]; rfl, shaped.update new, ?_⟩
  ext1
  · funext m
    by_cases here : m = n
    · subst here; simp [view]
    · simp [view, here]
  · funext τ
    cases τ with
    | root f => rfl
    | bit m b =>
        by_cases here : m = n
        · subst here; simp [view, kept, alive]
        · simp [view, here]
  all_goals rfl

/-- A store to a slot changes what the slot holds and no tag.  A child pointer is part of
its node in memory, but not of the node's tag. -/
theorem assign_yields (shaped : t.Shaped) (valid : t.view.Valid σ) (value : Option Ptr) :
    Yields (t.assign σ value)
      { t.view with slot := Function.update t.view.slot σ value } := by
  cases σ with
  | root f =>
      refine ⟨_, rfl, shaped, ?_⟩
      ext1 <;> try rfl
      funext τ
      cases τ with
      | root f' =>
          by_cases here : f' = f
          · subst here; simp [view]
          · simp [view, here]
      | bit m b => simp [view]
  | bit m b =>
      obtain ⟨g, tagged⟩ := Option.isSome_iff_exists.mp valid
      obtain ⟨node, alive, rfl⟩ := view_tag_eq_some.mp tagged
      have old := shaped alive
      have new : ({ node with bit := Function.update node.bit b value } : Node P).Shaped :=
        ⟨old.cidr_le, old.at_a, old.at_b, old.long⟩
      refine ⟨_, by rw [assign, modify, alive]; rfl, shaped.update new, ?_⟩
      ext1 <;> try rfl
      · funext k
        by_cases here : k = m
        · subst here; simp [view, alive, Node.tag, Node.pre]
        · simp [view, here]
      · funext τ
        cases τ with
        | root f => simp [view]
        | bit k c =>
            by_cases here : k = m
            · subst here
              by_cases same : c = b
              · subst same; simp [view]
              · simp [view, same, alive]
            · simp [view, here]

theorem free_yields (shaped : t.Shaped) (tagged : t.view.tag n = some g) :
    Yields (t.free n)
      { t.view with
        tag := Function.update t.view.tag n none
        slot := fun τ =>
          if τ = .bit n false ∨ τ = .bit n true then none else t.view.slot τ } := by
  obtain ⟨node, alive, -⟩ := view_tag_eq_some.mp tagged
  refine ⟨_, by rw [free, alive]; rfl, ?_, ?_⟩
  · intro m other alive'
    have elsewhere : m ≠ n := by rintro rfl; simp at alive'
    exact shaped (by simpa [elsewhere] using alive')
  · ext1 <;> try rfl
    · funext m
      by_cases here : m = n
      · subst here; simp [view]
      · simp [view, here]
    · funext τ
      cases τ with
      | root f => simp [view]
      | bit m b =>
          by_cases here : m = n
          · subst here; cases b <;> simp [view]
          · simp [view, here]

/-- `connect_node`. -/
theorem connectNode_yields (shaped : t.Shaped) (tagged : t.view.tag n = some g)
    (valid : t.view.Valid σ) : Yields (t.connectNode σ n) (t.view.connect σ n) := by
  obtain ⟨node, alive, rfl⟩ := view_tag_eq_some.mp tagged
  have old := shaped alive
  refine (modify_yields shaped alive ?_ rfl).bind fun t' shaped' view' => ?_
  · exact ⟨old.cidr_le, old.at_a, old.at_b, old.long⟩
  · have valid' : t'.view.Valid σ := by
      rw [view']
      cases σ with
      | root f => trivial
      | bit m b =>
          by_cases here : m = n
          · subst here; simp [View.Valid]
          · simpa [View.Valid, here] using valid
    refine (assign_yields shaped' valid' (some n)).congr ?_
    rw [view']
    simp [View.connect, tagged, Node.tag, Node.pre]

/-- `choose_and_connect_node` finds the slot by the prefixes: the bit it reads of the stored
address is the one by which the node's prefix goes on after its parent's. -/
theorem chooseAndConnectNode_yields (shaped : t.Shaped) {p : Ptr} {up : Tag P} {b : Bool}
    (above : t.view.tag p = some up) (tagged : t.view.tag n = some g)
    (family : up.family = g.family) (longer : up.pre ++ [b] <+: g.pre) :
    Yields (t.chooseAndConnectNode p n) (t.view.connect (.bit p b) n) := by
  obtain ⟨upper, alive, rfl⟩ := view_tag_eq_some.mp above
  obtain ⟨node, alive', rfl⟩ := view_tag_eq_some.mp tagged
  have shape := shaped alive
  have shape' := shaped alive'
  have same : upper.bitlen = node.bitlen := family
  have extends' : upper.pre ++ [b] <+: node.pre := longer
  have small : upper.cidr < upper.bitlen.bits := by
    have := extends'.length_le
    have := shape'.cidr_le
    simp only [List.length_append, List.length_singleton, shape.length_pre,
      shape'.length_pre] at *
    rw [same]
    omega
  have chosen : upper.choose node.bits = some b := by
    rw [shape.choose_eq small (same ▸ shape'.long), same, ← shape.length_pre,
      shape'.addrBit_of_concat extends']
  have valid : t.view.Valid (.bit p b) := by simp [View.Valid, above]
  have connected := connectNode_yields shaped tagged valid
  simpa only [chooseAndConnectNode, alive, alive', chosen, Option.bind_eq_bind,
    Option.bind_some] using connected

theorem setParent_yields (shaped : t.Shaped) {child : Option Ptr}
    (below : ∀ d, child = some d → (t.view.tag d).isSome) :
    Yields (t.setParent σ child)
      { t.view with
        tag := fun m =>
          if child = some m then (t.view.tag m).map fun g => { g with parent := some σ }
          else t.view.tag m } := by
  cases child with
  | none => exact ⟨t, rfl, shaped, by simp⟩
  | some d =>
      obtain ⟨h, tagged⟩ := Option.isSome_iff_exists.mp (below d rfl)
      obtain ⟨node, alive, rfl⟩ := view_tag_eq_some.mp tagged
      have old := shaped alive
      refine (modify_yields shaped alive
        ⟨old.cidr_le, old.at_a, old.at_b, old.long⟩ rfl).congr ?_
      ext1 <;> try rfl
      funext m
      by_cases here : m = d
      · subst here; simp [tagged, Node.tag, Node.pre]
      · simp [here, Ne.symm here]

/-- The replacement of a node by its child.  The slot is not one of the node itself, so that
the free does not take it away. -/
theorem replaceNode_yields (shaped : t.Shaped) {child : Option Ptr}
    (tagged : t.view.tag n = some g) (parent : g.parent = some σ) (valid : t.view.Valid σ)
    (outside : ∀ b, σ ≠ .bit n b)
    (below : ∀ d, child = some d → d ≠ n ∧ (t.view.tag d).isSome) :
    Yields (t.replaceNode n child) (t.view.replace σ n child) := by
  obtain ⟨node, alive, rfl⟩ := view_tag_eq_some.mp tagged
  have slot : node.parentBitPacked = some σ := parent
  simp only [replaceNode, alive, slot, Option.bind_eq_bind, Option.bind_some]
  refine (setParent_yields shaped fun d isChild => (below d isChild).2).bind
    fun t₁ shaped₁ view₁ => ?_
  have valid₁ : t₁.view.Valid σ := by
    rw [view₁]
    cases σ with
    | root f => trivial
    | bit m b =>
        simp only [View.Valid] at valid ⊢
        split <;> simpa using valid
  refine (assign_yields shaped₁ valid₁ child).bind fun t₂ shaped₂ view₂ => ?_
  have notChild : child ≠ some n := fun isChild => (below n isChild).1 rfl
  have tagged₂ : t₂.view.tag n = some node.tag := by
    rw [view₂, view₁]; simpa [notChild] using tagged
  refine (free_yields shaped₂ tagged₂).congr ?_
  rw [view₂, view₁]
  ext1 <;> try rfl
  · funext m
    by_cases here : m = n
    · subst here; simp [View.replace]
    · simp [View.replace, here]
  · funext τ
    by_cases here : τ = σ
    · subst here; simp [View.replace, outside]
    · simp [View.replace, here]

end Table
end AllowedIps
end WgReceivePath
