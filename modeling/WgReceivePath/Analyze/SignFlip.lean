import WgReceivePath.Lib.PyFloat
import WgReceivePath.Lib.Randomization
import Mathlib.Algebra.BigOperators.Fin
import Mathlib.Algebra.BigOperators.Ring.Finset
import Mathlib.Data.Fin.VecNotation
import Mathlib.Tactic.Linarith

/-!
# The sign-flip test

`signflip_p` (analyze_confirm.py) is the exact two-sided sign-flip test on the mean of
paired deltas: it enumerates the sign vectors as the bits of the numbers below `2 ^ n` and
counts those whose mean is at least as far from zero as the observed one, with a slack of
`1e-12`.

## Main result

`signflip_valid`: on exact rationals the test is valid at every level, its p-value has a
floor, and it does not depend on the order of the data or on a common sign.

## What carries the proof

The count is taken over sign vectors (`signflipP_asList`), so that it is a question about
functions from positions to signs and no longer about bits.  A further sign vector in front
of the data only re-indexes what is counted (`hits_signed`).  Hence the p-values of all
signed versions of the data are ranks in one family, and validity is that of a randomization
test (`Lib.Randomization`).  The slack can only add to the count; on a grid that is coarser
than it, it adds nothing (`hits_grid`).
-/

namespace WgReceivePath.Analyze

open Finset Randomization

/-! ## The function -/

/-- What the statistics can raise. -/
inductive StatError where
  /-- `SystemExit`: more than twenty blocks -/
  | tooLarge (n : ℕ)
  /-- `StatisticsError`: the mean of no data -/
  | noData
  deriving DecidableEq, Repr

/-- The slack of the comparison, `1e-12`. -/
def tieTolerance : ℚ := 1 / 10 ^ 12

/-- `d if (m >> i) & 1 else -d for i, d in enumerate(deltas)`. -/
def flips (m : ℕ) (deltas : List PyFloat) : List PyFloat :=
  deltas.zipIdx.map fun d => if m.testBit d.2 then d.1 else d.1.neg

/-- `abs(s / n) >= abs(obs) - 1e-12` for the sum `s` under the signs `m`.  The sum is
rounded at each addition, in the order of the data. -/
def isHit (round : ℚ → PyFloat) (deltas : List PyFloat) (obs : PyFloat) (m : ℕ) : Bool :=
  match PyFloat.div round (PyFloat.sum round (flips m deltas)) (.fin deltas.length) with
  | none => false
  | some mean => (PyFloat.sub round obs.abs (.fin tieTolerance)).le mean.abs

/-- `signflip_p`: the observed mean and the p-value.  The p-value is an exact quotient of
counts; only the comparisons are made on floats. -/
def signflipP (round : ℚ → PyFloat) (deltas : List PyFloat) :
    Except StatError (PyFloat × ℚ) :=
  let n := deltas.length
  if 20 < n then .error (.tooLarge n)
  else if n = 0 then .error .noData
  else
    let obs := PyFloat.mean round deltas
    let hits := (List.range (2 ^ n)).countP (isHit round deltas obs)
    .ok (obs, hits / 2 ^ n)

/-! ## On exact rationals

Without rounding the order of additions does not matter, and a number below `2 ^ n` is its
vector of bits. -/

variable {n : ℕ} {d : Fin n → ℚ} {e : Fin n → Bool}

/-- The data with the signs of `e`. -/
def signed (e : Fin n → Bool) (d : Fin n → ℚ) : Fin n → ℚ :=
  fun i => if e i then d i else -d i

/-- The mean of the data. -/
def meanOf (d : Fin n → ℚ) : ℚ := (∑ i, d i) / n

/-- The number of sign vectors that count against `d`. -/
def hits (d : Fin n → ℚ) : ℕ :=
  #{e : Fin n → Bool | |meanOf d| - tieTolerance ≤ |meanOf (signed e d)|}

/-- The data as the argument of `signflip_p`. -/
def asList (d : Fin n → ℚ) : List PyFloat := (List.ofFn d).map .fin

theorem flips_asList (m : ℕ) (d : Fin n → ℚ) :
    flips m (asList d) = asList (signed (bits n m) d) := by
  apply List.ext_getElem
  · simp [flips, asList]
  · intro i inside inside'
    simp only [flips, asList, signed, bits, List.getElem_map, List.getElem_zipIdx,
      List.getElem_ofFn, zero_add]
    by_cases bit : m.testBit i
    · simp [bit]
    · simp [bit]

/-- **On exact rationals `signflip_p` counts sign vectors.** -/
theorem signflipP_asList (positive : 0 < n) (small : n ≤ 20) (d : Fin n → ℚ) :
    signflipP .fin (asList d) = .ok (.fin (meanOf d), hits d / 2 ^ n) := by
  have nonzero : (n : ℚ) ≠ 0 := by exact_mod_cast positive.ne'
  have length : ∀ d : Fin n → ℚ, (asList d).length = n := by simp [asList]
  have mean : PyFloat.mean .fin (asList d) = .fin (meanOf d) := by
    rw [asList, PyFloat.mean_fin, List.sum_ofFn, List.length_ofFn, meanOf]
  have counted : (List.range (2 ^ n)).countP (isHit .fin (asList d) (.fin (meanOf d))) =
      hits d := by
    rw [hits, ← countP_bits]
    congr 1
    funext m
    have total : PyFloat.sum .fin (flips m (asList d)) = .fin (∑ i, signed (bits n m) d i) := by
      rw [flips_asList, asList, PyFloat.sum_fin, List.sum_ofFn]
    rw [isHit, total, length, PyFloat.div_fin _ nonzero]
    simp [meanOf]
  simp only [signflipP, length, not_lt.mpr small, positive.ne', ↓reduceIte, mean, counted]

/-! ## Signs in front of the data

The sign vectors are a group under composition, and the data under a sign vector are an
orbit.  Everything that the theorem says besides validity is invariance under a part of this
action. -/

/-- Signs compose. -/
theorem signed_signed (e e' : Fin n → Bool) (d : Fin n → ℚ) :
    signed e' (signed e d) = signed (fun i => e' i == e i) d := by
  funext i
  cases h : e i <;> cases h' : e' i <;> simp [signed, h, h']

/-- Composing with a sign vector is its own inverse.  It is the re-indexing behind
`hits_signed`. -/
def flipEquiv (e : Fin n → Bool) : (Fin n → Bool) ≃ (Fin n → Bool) where
  toFun e' := fun i => e' i == e i
  invFun e' := fun i => e' i == e i
  left_inv e' := by
    funext i
    cases h : e i <;> cases h' : e' i <;> simp [h, h']
  right_inv e' := by
    funext i
    cases h : e i <;> cases h' : e' i <;> simp [h, h']

/-- Signs in front of the data re-index the sign vectors that are counted. -/
theorem hits_signed (e : Fin n → Bool) (d : Fin n → ℚ) :
    hits (signed e d) =
      #{e' : Fin n → Bool | |meanOf (signed e d)| - tieTolerance ≤ |meanOf (signed e' d)|} := by
  rw [hits]
  refine card_equiv (flipEquiv e) fun e' => ?_
  rw [mem_filter, mem_filter, signed_signed]
  simp [flipEquiv]

theorem meanOf_signed_true (d : Fin n → ℚ) : meanOf (signed (fun _ => true) d) = meanOf d := by
  simp [signed, meanOf]

theorem meanOf_signed_false (d : Fin n → ℚ) :
    meanOf (signed (fun _ => false) d) = -meanOf d := by
  simp [signed, meanOf, neg_div]

/-- All data negated are the data under the all-negative sign vector. -/
theorem hits_neg (d : Fin n → ℚ) : hits (fun i => -d i) = hits d := by
  have same : (fun i => -d i) = signed (fun _ => false) d := rfl
  rw [same, hits_signed, meanOf_signed_false, abs_neg, hits]

theorem meanOf_signed_comp (σ : Equiv.Perm (Fin n)) (e : Fin n → Bool) (d : Fin n → ℚ) :
    meanOf (signed e (d ∘ σ)) = meanOf (signed (e ∘ σ.symm) d) := by
  rw [meanOf, meanOf, ← Equiv.sum_comp σ (signed (e ∘ σ.symm) d)]
  simp [signed]

/-- The order of the data does not matter. -/
theorem hits_comp (σ : Equiv.Perm (Fin n)) (d : Fin n → ℚ) : hits (d ∘ σ) = hits d := by
  have mean : meanOf (d ∘ σ) = meanOf d := by
    simp [meanOf, Equiv.sum_comp σ d]
  rw [hits, hits, mean]
  refine card_equiv (σ.arrowCongr (Equiv.refl Bool)) fun e => ?_
  rw [mem_filter, mem_filter, meanOf_signed_comp]
  simp [Equiv.arrowCongr]

/-- The data and the negated data count against themselves. -/
theorem two_le_hits (positive : 0 < n) (d : Fin n → ℚ) : 2 ≤ hits d := by
  have slack : (0 : ℚ) ≤ tieTolerance := by norm_num [tieTolerance]
  have differ : (fun _ : Fin n => true) ≠ fun _ => false := by
    intro same
    simpa using congrFun same ⟨0, positive⟩
  rw [← card_pair differ]
  refine card_le_card fun e mem => ?_
  rcases mem_insert.mp mem with rfl | mem
  · simpa [meanOf_signed_true] using slack
  · rw [mem_singleton.mp mem]
    simpa [meanOf_signed_false] using slack

/-- On a grid that is coarser than the slack the slack does nothing: two means are equal or
further apart than it. -/
theorem hits_grid {u : ℚ} (grid : ∀ i, ∃ z : ℤ, d i = z * u) (coarse : 1 / 10 ^ 12 < u / n) :
    hits d = #{e : Fin n → Bool | |∑ i, d i| ≤ |∑ i, signed e d i|} := by
  have slack : tieTolerance < u / n := coarse
  have small : (0 : ℚ) < u / n := lt_of_le_of_lt (by norm_num [tieTolerance]) slack
  rcases Nat.eq_zero_or_pos n with rfl | positive
  · simp at small
  have nonneg : (0 : ℚ) < n := by exact_mod_cast positive
  have pos : 0 < u := (div_pos_iff_of_pos_right nonneg).mp small
  choose z grid using grid
  -- every signed sum is on the grid
  have onGrid : ∀ e : Fin n → Bool, ∃ k : ℤ, ∑ i, signed e d i = k * u := by
    intro e
    refine ⟨∑ i, if e i then z i else -z i, ?_⟩
    rw [Int.cast_sum, sum_mul]
    refine sum_congr rfl fun i _ => ?_
    simp only [signed, grid]
    split <;> simp
  obtain ⟨k, total⟩ := onGrid fun _ => true
  have total : ∑ i, d i = k * u := by simpa [signed] using total
  rw [hits]
  congr 1
  ext e
  obtain ⟨k', partial'⟩ := onGrid e
  rw [mem_filter, mem_filter, meanOf, meanOf, partial', total, abs_div, abs_div,
    abs_of_pos nonneg, abs_mul, abs_mul, abs_of_pos pos]
  refine and_congr_right fun _ => ?_
  rw [mul_le_mul_iff_left₀ pos]
  constructor
  · intro hit
    by_contra below
    have below : |k'| + 1 ≤ |k| := by exact_mod_cast not_le.mp below
    have gap : ((|k'| : ℤ) + 1 : ℚ) ≤ ((|k| : ℤ) : ℚ) := by exact_mod_cast below
    have step : (|(k' : ℚ)| + 1) * (u / n) ≤ |(k : ℚ)| * (u / n) := by
      refine mul_le_mul_of_nonneg_right ?_ small.le
      simpa using gap
    rw [mul_div_assoc, mul_div_assoc] at hit
    linarith
  · intro hit
    have : |(k : ℚ)| * u / n ≤ |(k' : ℚ)| * u / n := by gcongr
    have : (0 : ℚ) ≤ tieTolerance := by norm_num [tieTolerance]
    linarith

/-! ## The test is valid -/

/-- `signflip_p` returns on the data, with a p-value of at most `α`.  It is stated with the
function itself, so that a run that raises rejects nothing. -/
def rejects (α : ℚ) (d : Fin n → ℚ) : Bool :=
  match signflipP .fin (asList d) with
  | .ok (_, p) => p ≤ α
  | .error _ => false

theorem rejects_iff (positive : 0 < n) (small : n ≤ 20) {α : ℚ} :
    rejects α d ↔ (hits d : ℚ) / 2 ^ n ≤ α := by
  simp [rejects, signflipP_asList positive small]

theorem card_rejects_le (positive : 0 < n) (small : n ≤ 20) (d : Fin n → ℚ) {α : ℚ}
    (nonneg : 0 ≤ α) :
    (#{e : Fin n → Bool | rejects α (signed e d)} : ℚ) ≤ α * 2 ^ n := by
  have slack : (0 : ℚ) ≤ tieTolerance := by norm_num [tieTolerance]
  have size : (#(univ : Finset (Fin n → Bool)) : ℚ) = 2 ^ n := by simp
  have counted : #{e : Fin n → Bool | rejects α (signed e d)} =
      #{e : Fin n → Bool | (hits (signed e d) : ℚ) / #(univ : Finset (Fin n → Bool)) ≤ α} := by
    congr 1
    ext e
    rw [mem_filter, mem_filter, rejects_iff positive small, size]
  rw [counted, ← size]
  refine card_pvalue_le (fun e => |meanOf (signed e d)|) univ_nonempty nonneg
    fun e _ => ?_
  rw [hits_signed]
  refine card_le_card fun e' mem => ?_
  have larger := (mem_filter.mp mem).2
  exact mem_filter.mpr ⟨mem_univ _, by linarith⟩

/-- **The sign-flip test is a valid test at every level.**  The p-value is never below its
floor, does not depend on the order of the data or on a common sign, and on a grid coarser
than the slack it is the exact fraction. -/
theorem signflip_valid (positive : 0 < n) (small : n ≤ 20) (d : Fin n → ℚ) :
    (∀ α : ℚ, 0 ≤ α →
      (#{e : Fin n → Bool | rejects α (signed e d)} : ℚ) ≤ α * 2 ^ n) ∧
    ∃ obs p, signflipP .fin (asList d) = .ok (obs, p) ∧ 2 / 2 ^ n ≤ p ∧
      (∀ σ : Equiv.Perm (Fin n), ∃ obs', signflipP .fin (asList (d ∘ σ)) = .ok (obs', p)) ∧
      (∃ obs', signflipP .fin (asList fun i => -d i) = .ok (obs', p)) ∧
      ∀ u : ℚ, 1 / 10 ^ 12 < u / n → (∀ i, ∃ z : ℤ, d i = z * u) →
        p = (#{e : Fin n → Bool | |∑ i, d i| ≤ |∑ i, signed e d i|} : ℚ) / 2 ^ n := by
  refine ⟨fun α nonneg => card_rejects_le positive small d nonneg, _, _,
    signflipP_asList positive small d, ?_, fun σ => ⟨.fin (meanOf (d ∘ σ)), ?_⟩,
    ⟨.fin (meanOf fun i => -d i), ?_⟩, fun u coarse grid => ?_⟩
  · have floor : (2 : ℚ) ≤ hits d := by exact_mod_cast two_le_hits positive d
    gcongr
  · rw [signflipP_asList positive small, hits_comp]
  · rw [signflipP_asList positive small, hits_neg]
  · rw [hits_grid grid coarse]

/-- Three deltas of the same sign have the least p-value that eight sign vectors allow, whatever
their order and common sign, and at most two of the vectors reject at that level. -/
theorem signflip_valid_three :
    (#{e : Fin 3 → Bool | rejects (1 / 4) (signed e ![1, 2, 3])} : ℚ) ≤ 2 ∧
      signflipP .fin (asList ![1, 2, 3]) = .ok (.fin 2, 1 / 4) ∧
      (∀ σ : Equiv.Perm (Fin 3),
        ∃ obs, signflipP .fin (asList (![1, 2, 3] ∘ σ)) = .ok (obs, 1 / 4)) ∧
      (∃ obs, signflipP .fin (asList fun i => -![1, 2, 3] i) = .ok (obs, 1 / 4)) ∧
      (1 / 4 : ℚ) =
        #{e : Fin 3 → Bool | |∑ i, ![(1 : ℚ), 2, 3] i| ≤ |∑ i, signed e ![1, 2, 3] i|} / 2 ^ 3 := by
  obtain ⟨valid, obs, p, run, -, order, opposite, grid⟩ :=
    signflip_valid (n := 3) (by decide) (by decide) ![1, 2, 3]
  have value : signflipP .fin (asList ![1, 2, 3]) = .ok (.fin 2, 1 / 4) := by
    have mean : meanOf ![1, 2, 3] = 2 := by decide +kernel
    have extreme : hits ![1, 2, 3] = 2 := by decide +kernel
    rw [signflipP_asList (by decide) (by decide), mean, extreme]
    norm_num
  rw [value] at run
  cases run
  refine ⟨(valid (1 / 4) (by norm_num)).trans (by norm_num), value, order, opposite,
    grid 1 (by norm_num) fun i => ⟨i + 1, ?_⟩⟩
  revert i
  decide +kernel

end WgReceivePath.Analyze
