import Mathlib.Algebra.Order.Field.Rat
import Mathlib.Data.Finset.Max
import Mathlib.Data.Finset.Powerset
import Mathlib.Data.Fintype.BigOperators
import Mathlib.Data.Fintype.Pi
import Mathlib.Data.Nat.Bitwise
import Mathlib.Tactic.Positivity

/-!
# Randomization tests

A randomization test compares an observed statistic with its values over a finite space of
relabelings.  Its p-value counts the relabelings whose statistic is at least as large, and
`card_pvalue_le` is its validity: at most a fraction `α` of the relabelings has a p-value of
at most `α`.  The statement is about counting alone; under the hypothesis of no effect the
observed labelling is drawn uniformly, and the fraction is a probability.

The count may only be too large (`dominates`), so that a tolerance in the comparison, which
counts a relabeling slightly below the observed one as a hit, does no harm.  What carries
the proof is the relabeling with the least statistic among those that are rejected: all of
the rejected ones count as its hits, and it has few (`card_le_of_hits`).

## The spaces

Two spaces come with their enumerations, since a program runs through them in some order:
the sign vectors of length `n`, as the bits of the numbers below `2 ^ n` (`countP_bits`),
and the subsets of a given size, as the combinations of a list in the order of
`itertools.combinations` (`countP_combinations_range`).  The lemmas say that counting in the
order of the program is counting over the finite set.
-/

namespace Randomization

open Finset

/-! ## Validity

Only the order of the statistic is used, and that the hits of a relabeling are at least as
many as the relabelings with no smaller statistic (`dominates`).  How the hits are counted,
and with which tolerance, is left to the test. -/

section Validity

variable {Ω K : Type*} [LinearOrder K]

/-- Relabelings with few hits are few: the one with the least statistic among them is hit by
all of them, so their number is at most its number of hits. -/
theorem card_le_of_hits {space : Finset Ω} {stat : Ω → K} {hits : Ω → ℕ} {few : Finset Ω}
    {bound : ℚ} (inside : few ⊆ space) (nonneg : 0 ≤ bound)
    (dominates : ∀ ω ∈ space, #{ω' ∈ space | stat ω ≤ stat ω'} ≤ hits ω)
    (rare : ∀ ω ∈ few, (hits ω : ℚ) ≤ bound) : (few.card : ℚ) ≤ bound := by
  rcases few.eq_empty_or_nonempty with rfl | nonempty
  · simpa using nonneg
  · obtain ⟨least, mem, minimal⟩ := few.exists_min_image stat nonempty
    have hit : few ⊆ {ω' ∈ space | stat least ≤ stat ω'} := by
      intro ω memω
      exact mem_filter.mpr ⟨inside memω, minimal ω memω⟩
    calc (few.card : ℚ) ≤ #{ω' ∈ space | stat least ≤ stat ω'} := by
          exact_mod_cast card_le_card hit
      _ ≤ hits least := by exact_mod_cast dominates least (inside mem)
      _ ≤ bound := rare least mem

/-- **A randomization test is valid at every level.**  Whatever the statistic is, at most a
fraction `α` of the relabelings gets a p-value of at most `α`, as long as the hits of each
count at least the relabelings whose statistic is no smaller. -/
theorem card_pvalue_le {space : Finset Ω} {hits : Ω → ℕ} {α : ℚ} (stat : Ω → K)
    (nonempty : space.Nonempty) (nonneg : 0 ≤ α)
    (dominates : ∀ ω ∈ space, #{ω' ∈ space | stat ω ≤ stat ω'} ≤ hits ω) :
    (#{ω ∈ space | (hits ω : ℚ) / space.card ≤ α} : ℚ) ≤ α * space.card := by
  have positive : (0 : ℚ) < space.card := by exact_mod_cast nonempty.card_pos
  refine card_le_of_hits (filter_subset _ _) (by positivity) dominates fun ω mem => ?_
  exact (div_le_iff₀ positive).mp (mem_filter.mp mem).2

end Validity

/-! ## Sign vectors as numbers -/

section Bits

variable {n : ℕ}

/-- The first `n` bits of a number. -/
def bits (n m : ℕ) : Fin n → Bool := fun i => m.testBit i

theorem bits_injOn : Set.InjOn (bits n) (range (2 ^ n)) := by
  intro m small m' small' same
  rw [coe_range, Set.mem_Iio] at small small'
  apply Nat.eq_of_testBit_eq
  intro i
  by_cases inside : i < n
  · exact congrFun same ⟨i, inside⟩
  · have large : 2 ^ n ≤ 2 ^ i := Nat.pow_le_pow_right (by decide) (not_lt.mp inside)
    rw [Nat.testBit_lt_two_pow (small.trans_le large),
      Nat.testBit_lt_two_pow (small'.trans_le large)]

/-- The numbers below `2 ^ n` are the sign vectors of length `n`. -/
theorem image_bits : (range (2 ^ n)).image (bits n) = univ := by
  refine eq_univ_of_card _ ?_
  rw [card_image_of_injOn bits_injOn, card_range]
  simp

/-- Counting over the numbers is counting over the sign vectors. -/
theorem countP_bits (P : (Fin n → Bool) → Prop) [DecidablePred P] :
    (List.range (2 ^ n)).countP (fun m => P (bits n m)) = #{b | P b} := by
  have counted : (List.range (2 ^ n)).countP (fun m => P (bits n m)) =
      #{m ∈ range (2 ^ n) | P (bits n m)} := by
    rw [List.countP_eq_length_filter]
    rfl
  rw [counted, ← image_bits, filter_image, card_image_of_injOn]
  exact bits_injOn.mono (coe_subset.mpr (filter_subset _ _))

end Bits

/-! ## Combinations -/

section Combinations

variable {ι κ : Type*}

/-- The `k`-element sublists of a list, in the order of their positions, as
`itertools.combinations` produces them. -/
def combinations : ℕ → List ι → List (List ι)
  | 0, _ => [[]]
  | _ + 1, [] => []
  | k + 1, x :: xs => (combinations k xs).map (x :: ·) ++ combinations (k + 1) xs

theorem combinations_perm (k : ℕ) (xs : List ι) :
    (combinations k xs).Perm (xs.sublistsLen k) := by
  induction xs generalizing k with
  | nil => cases k <;> simp [combinations]
  | cons x xs ih =>
      cases k with
      | zero => simp [combinations]
      | succ k =>
          rw [combinations, List.sublistsLen_succ_cons]
          exact (((ih k).map _).append (ih (k + 1))).trans List.perm_append_comm

theorem combinations_map (f : ι → κ) (k : ℕ) (xs : List ι) :
    combinations k (xs.map f) = (combinations k xs).map (List.map f) := by
  induction xs generalizing k with
  | nil => cases k <;> simp [combinations]
  | cons x xs ih =>
      cases k with
      | zero => simp [combinations]
      | succ k => simp [combinations, ih, Function.comp_def]

/-- As multisets, the combinations are the sub-multisets of that size. -/
theorem coe_combinations (k : ℕ) (xs : List ι) :
    ((combinations k xs).map Multiset.ofList : Multiset (Multiset ι)) =
      Multiset.powersetCard k xs := by
  rw [Multiset.powersetCard_coe]
  exact Multiset.coe_eq_coe.mpr ((combinations_perm k xs).map _)

theorem mem_combinations {k : ℕ} {xs c : List ι} :
    c ∈ combinations k xs ↔ c.Sublist xs ∧ c.length = k := by
  rw [(combinations_perm k xs).mem_iff, List.mem_sublistsLen]

theorem length_combinations (k : ℕ) (xs : List ι) :
    (combinations k xs).length = xs.length.choose k := by
  rw [(combinations_perm k xs).length_eq, List.length_sublistsLen]

/-- Counting over the combinations does not depend on the order of the list, if what is
counted does not depend on the order within a combination. -/
theorem countP_combinations_perm {xs ys : List ι} (perm : xs.Perm ys) (k : ℕ)
    (P : Multiset ι → Prop) [DecidablePred P] :
    (combinations k xs).countP (fun c => P (.ofList c)) =
      (combinations k ys).countP fun c => P (.ofList c) := by
  have count : ∀ zs : List ι, (combinations k zs).countP (fun c => P (.ofList c)) =
      (Multiset.powersetCard k (zs : Multiset ι)).countP P := by
    intro zs
    rw [← coe_combinations, Multiset.coe_countP, List.countP_map]
    rfl
  rw [count, count, Multiset.coe_eq_coe.mpr perm]

/-- Counting over the combinations of the positions is counting over the sets of positions. -/
theorem countP_combinations_range (k n : ℕ) (P : Finset ℕ → Prop) [DecidablePred P] :
    (combinations k (List.range n)).countP (fun c => P c.toFinset) =
      #{S ∈ powersetCard k (range n) | P S} := by
  have sets : (combinations k (List.range n)).countP (fun c => P c.toFinset) =
      (Multiset.powersetCard k (List.range n : Multiset ℕ)).countP fun m => P m.toFinset := by
    rw [← coe_combinations, Multiset.coe_countP, List.countP_map]
    rfl
  have range : (List.range n : Multiset ℕ) = (range n).val := rfl
  rw [sets, range, ← map_val_val_powersetCard, Multiset.countP_map, card_def, filter_val]
  simp only [val_toFinset]

end Combinations

end Randomization
