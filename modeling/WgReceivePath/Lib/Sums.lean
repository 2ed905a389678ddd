import Mathlib.Algebra.BigOperators.Group.Finset.Basic

/-!
# Sums in which one summand changes

A counter that is kept equal to a finite sum of contributions is maintained one contribution
at a time: a reference count is the sum of what each holder holds, and a step of one holder
changes one summand and the counter by the same amount.

The lemmas are in additive form (`counter' + f i = counter + g i`), so that a counter may go
up or down without subtraction on the natural numbers.  `counter_change` is the step of the
invariant, `le_counter` what it gives at the point where the counter reaches zero: no
summand is left.  `exists_sum_update` does the same for a family of states in a commutative
monoid, where the contributions are multisets and there is no subtraction at all.
-/

namespace Finset

variable {ι : Type*}

/-- One summand changes. -/
theorem sum_change [DecidableEq ι] {s : Finset ι} {f g : ι → ℕ} {i : ι} (mem : i ∈ s)
    (same : ∀ j, j ≠ i → g j = f j) : ∑ j ∈ s, g j + f i = ∑ j ∈ s, f j + g i := by
  have rest : ∑ j ∈ s.erase i, g j = ∑ j ∈ s.erase i, f j :=
    sum_congr rfl fun j memj => same j (ne_of_mem_erase memj)
  rw [← add_sum_erase s g mem, ← add_sum_erase s f mem, rest]
  omega

/-- A counter that goes along with the one summand that changes stays a sum.  The balance is
between the old and the new contribution of `i`, on both sides of an equation, so that it
covers a get, a put and a hand-over alike. -/
theorem counter_change [DecidableEq ι] {s : Finset ι} {f g : ι → ℕ} {i : ι}
    {base counter counter' : ℕ} (mem : i ∈ s) (same : ∀ j, j ≠ i → g j = f j)
    (h : counter = base + ∑ j ∈ s, f j) (balance : counter' + f i = counter + g i) :
    counter' = base + ∑ j ∈ s, g j := by
  have := sum_change mem same
  omega

/-- Each summand is at most the counter. -/
theorem le_counter [DecidableEq ι] {s : Finset ι} {f : ι → ℕ} {i : ι} {base counter : ℕ}
    (mem : i ∈ s) (h : counter = base + ∑ j ∈ s, f j) : f i ≤ counter := by
  rw [h, ← add_sum_erase s f mem]
  omega

/-- A family of which one member changes: the rest of the sum is the same before and after,
whatever the new member is. -/
theorem exists_sum_update {α M : Type*} [Fintype ι] [DecidableEq ι] [AddCommMonoid M] (f : α → M)
    (g : ι → α) (i : ι) :
    ∃ rest, ∑ j, f (g j) = f (g i) + rest ∧ ∀ x, ∑ j, f (Function.update g i x j) = f x + rest := by
  refine ⟨∑ j ∈ univ.erase i, f (g j), (add_sum_erase univ _ (mem_univ i)).symm, fun x => ?_⟩
  rw [← add_sum_erase univ _ (mem_univ i), Function.update_self]
  exact congrArg _ (sum_congr rfl fun j mem => by
    rw [Function.update_of_ne (ne_of_mem_erase mem)])

end Finset
