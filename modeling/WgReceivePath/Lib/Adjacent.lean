import Mathlib.Data.List.Infix
import Mathlib.Data.List.Nodup

/-!
# Neighbours in a list

`Adjacent l a b` says that `b` stands right after `a` in `l`.  A singly linked structure is
a list whose neighbours are connected, so its invariants are statements about neighbours:
"whenever `b` stands right after `a`, the next pointer of `a` is `b`".

Two operations change such a structure, and there is one lemma for each: `adjacent_concat`
says which neighbours an element that is appended at the end gets, and `adjacent_cons_cons`
which ones the list loses when its front is dropped.  Where a list has no repetitions, as
the cells of a linked list have none, a neighbour is unique (`Adjacent.right_unique`) and
the last element has none (`Adjacent.getLast?_ne`); these two are what makes a pointer
determine the rest of the list.
-/

namespace List

variable {α : Type*}

/-- `b` stands right after `a` in `l`.  Stated with the infix relation of the library, so
that its monotonicity is that of infixes. -/
def Adjacent (l : List α) (a b : α) : Prop := [a, b] <:+: l

@[simp] theorem not_adjacent_nil (a b : α) : ¬ Adjacent [] a b := by
  simp [Adjacent]

@[simp] theorem not_adjacent_singleton (x a b : α) : ¬ Adjacent [x] a b := by
  intro h
  have := h.length_le
  simp at this

/-- The neighbours of a list are its first two elements and the neighbours of
its tail. -/
@[simp] theorem adjacent_cons_cons {x y a b : α} {l : List α} :
    Adjacent (x :: y :: l) a b ↔ (a = x ∧ b = y) ∨ Adjacent (y :: l) a b := by
  simp [Adjacent, infix_cons_iff, List.cons_prefix_cons]

/-- Dropping the front loses no neighbours of the rest. -/
theorem Adjacent.cons {x a b : α} {l : List α} (h : Adjacent l a b) :
    Adjacent (x :: l) a b :=
  h.trans (suffix_cons x l).isInfix

/-- Appending one element adds one pair of neighbours: the old last element and
the new one. -/
theorem adjacent_concat {l : List α} {z a b : α} :
    Adjacent (l ++ [z]) a b ↔ Adjacent l a b ∨ (l.getLast? = some a ∧ b = z) := by
  induction l with
  | nil => simp
  | cons x l ih =>
      cases l with
      | nil => simp [eq_comm]
      | cons y l =>
          simp only [cons_append, adjacent_cons_cons, getLast?_cons_cons] at ih ⊢
          rw [ih, or_assoc]

theorem Adjacent.mem_left {l : List α} {a b : α} (h : Adjacent l a b) : a ∈ l :=
  h.subset (by simp)

theorem Adjacent.mem_right {l : List α} {a b : α} (h : Adjacent l a b) : b ∈ l :=
  h.subset (by simp)

/-- Without repetitions the element after `a` is determined.  This is how a next pointer
that is read from memory is known to be the cell that the abstract list has there. -/
theorem Adjacent.right_unique {l : List α} {a b b' : α} (nodup : l.Nodup)
    (h : Adjacent l a b) (h' : Adjacent l a b') : b = b' := by
  induction l with
  | nil => simp at h
  | cons x l ih =>
      cases l with
      | nil => simp at h
      | cons y l =>
          obtain ⟨absent, nodup⟩ := nodup_cons.mp nodup
          rw [adjacent_cons_cons] at h h'
          rcases h with ⟨rfl, rfl⟩ | h <;> rcases h' with ⟨ha, rfl⟩ | h'
          · rfl
          · exact absurd h'.mem_left absent
          · exact absurd (ha ▸ h.mem_left) absent
          · exact ih nodup h h'

/-- Without repetitions the last element has nothing after it. -/
theorem Adjacent.getLast?_ne {l : List α} {a b : α} (nodup : l.Nodup)
    (h : Adjacent l a b) : l.getLast? ≠ some a := by
  induction l with
  | nil => simp at h
  | cons x l ih =>
      cases l with
      | nil => simp at h
      | cons y l =>
          obtain ⟨absent, nodup⟩ := nodup_cons.mp nodup
          rw [adjacent_cons_cons] at h
          rw [getLast?_cons_cons]
          rcases h with ⟨rfl, rfl⟩ | h
          · intro last
            exact absent (mem_of_getLast? last)
          · exact ih nodup h

end List
