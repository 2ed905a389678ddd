import WgReceivePath.Analyze.SignFlip

/-!
# The two-sample permutation test

`exact_perm_p` (analyze_single.py) enumerates the ways of choosing the first group from the
pool of both groups, as the combinations of the positions, and counts those whose difference
of means is at least as far from zero as the observed one.  `exact_perm_valid` says what it
returns on exact rationals, that the test is valid at every level, and that exchanging the
groups negates the difference and keeps the p-value.

## What carries the proof

The difference of means of a split depends on the sum of the first group only (`splitDiff`),
so that the count is one over the sets of positions of the pool (`permHits_eq_card`) and
does not change with the order of the pool (`permHits_perm`).  For validity the pool is
fixed and the split varies: the p-value of every split is a rank in one family, as for the
sign-flip test.  For the symmetry the complement of a split is a split with the groups
exchanged (`permHits_swap`).
-/

namespace WgReceivePath.Analyze

open Finset Randomization

/-! ## The function -/

/-- `[pool[i] for i in idx]`. -/
def pick (pool : List PyFloat) (idx : List ℕ) : List PyFloat := idx.map (pool.getD · .nan)

/-- `[i for i in range(len(pool)) if i not in s]`. -/
def others (n : ℕ) (idx : List ℕ) : List ℕ := (List.range n).filter (· ∉ idx)

/-- `exact_perm_p`: the observed difference of means and the p-value.  An empty group has no
mean. -/
def exactPermP (round : ℚ → PyFloat) (a b : List PyFloat) : Except StatError (PyFloat × ℚ) :=
  if b.isEmpty ∨ a.isEmpty then .error .noData
  else
    let obs := PyFloat.sub round (PyFloat.mean round b) (PyFloat.mean round a)
    let pool := a ++ b
    let splits := combinations a.length (List.range pool.length)
    let hits := splits.countP fun idx =>
      let ai := pick pool idx
      let bi := pick pool (others pool.length idx)
      (PyFloat.sub round obs.abs (.fin tieTolerance)).le
        (PyFloat.sub round (PyFloat.mean round bi) (PyFloat.mean round ai)).abs
    .ok (obs, hits / splits.length)

/-! ## On exact rationals

The source enumerates positions; the statistic depends on values.  `combinations_pool` goes
from one to the other, and from there on the order of the pool plays no part. -/

/-- The value at a position of the pool. -/
def valueAt (pool : List ℚ) (i : ℕ) : ℚ := pool.getD i 0

/-- The difference of means when the first group sums to `s`. -/
def splitDiff (na nb : ℕ) (total s : ℚ) : ℚ := (total - s) / nb - s / na

/-- The splits of the pool that count against the difference `obs`.  It counts values and
not positions, so that it is evidently a matter of the pool as a multiset. -/
def permHits (na nb : ℕ) (pool : List ℚ) (obs : ℚ) : ℕ :=
  (combinations na pool).countP fun c => |obs| - tieTolerance ≤ |splitDiff na nb pool.sum c.sum|

section Exact

variable {a b pool : List ℚ} {na nb : ℕ} {obs : ℚ}

theorem map_valueAt (pool : List ℚ) : (List.range pool.length).map (valueAt pool) = pool := by
  apply List.ext_getElem
  · simp
  · intro i inside inside'
    simp [valueAt, inside']

/-- The combinations of the pool are taken over its positions. -/
theorem combinations_pool (k : ℕ) (pool : List ℚ) : combinations k pool =
    (combinations k (List.range pool.length)).map (List.map (valueAt pool)) := by
  rw [← combinations_map, map_valueAt]

theorem pick_fin {idx : List ℕ} (inside : ∀ i ∈ idx, i < pool.length) :
    pick (pool.map .fin) idx = (idx.map (valueAt pool)).map .fin := by
  rw [pick, List.map_map]
  refine List.map_congr_left fun i mem => ?_
  have bound := inside i mem
  simp [valueAt, bound]

/-- The positions are those chosen and the others. -/
theorem perm_others {n : ℕ} {idx : List ℕ} (sub : idx.Sublist (List.range n)) :
    (idx ++ others n idx).Perm (List.range n) := by
  have chosen : idx.Perm ((List.range n).filter (· ∈ idx)) := by
    rw [List.perm_ext_iff_of_nodup (List.nodup_range.sublist sub) (List.nodup_range.filter _)]
    intro i
    rw [List.mem_filter, decide_eq_true_iff]
    exact ⟨fun mem => ⟨sub.subset mem, mem⟩, fun mem => mem.2⟩
  refine (chosen.append_right _).trans ?_
  have whole := List.filter_append_perm (· ∈ idx) (List.range n)
  simpa [others] using whole

theorem sum_others {idx : List ℕ} (sub : idx.Sublist (List.range pool.length)) :
    ((others pool.length idx).map (valueAt pool)).sum =
      pool.sum - (idx.map (valueAt pool)).sum := by
  have whole := ((perm_others sub).map (valueAt pool)).sum_eq
  rw [map_valueAt, List.map_append, List.sum_append] at whole
  linarith

theorem length_others {n : ℕ} {idx : List ℕ} (sub : idx.Sublist (List.range n)) :
    (others n idx).length = n - idx.length := by
  have whole := (perm_others sub).length_eq
  rw [List.length_append, List.length_range] at whole
  omega

/-- **On exact rationals `exact_perm_p` counts splits of the pool.**  The means of the two
groups of a split are replaced by the difference that depends on the sum of the first only.
-/
theorem exactPermP_fin (nonemptyA : a ≠ []) (nonemptyB : b ≠ []) :
    exactPermP .fin (a.map .fin) (b.map .fin) =
      .ok (.fin (b.sum / b.length - a.sum / a.length),
        permHits a.length b.length (a ++ b) (b.sum / b.length - a.sum / a.length) /
          (a.length + b.length).choose a.length) := by
  have split : ∀ idx ∈ combinations a.length (List.range (a ++ b).length),
      PyFloat.sub .fin
        (PyFloat.mean .fin (pick ((a ++ b).map .fin) (others (a ++ b).length idx)))
        (PyFloat.mean .fin (pick ((a ++ b).map .fin) idx)) =
      .fin (splitDiff a.length b.length (a ++ b).sum (idx.map (valueAt (a ++ b))).sum) := by
    intro idx mem
    obtain ⟨sub, length⟩ := mem_combinations.mp mem
    have inside : ∀ i ∈ idx, i < (a ++ b).length := fun i mem =>
      List.mem_range.mp (sub.subset mem)
    have inside' : ∀ i ∈ others (a ++ b).length idx, i < (a ++ b).length := fun i mem =>
      List.mem_range.mp (List.mem_filter.mp mem).1
    have rest : (others (a ++ b).length idx).length = b.length := by
      rw [length_others sub, length, List.length_append]
      omega
    rw [pick_fin inside, pick_fin inside', PyFloat.mean_fin, PyFloat.mean_fin, PyFloat.sub_fin,
      sum_others sub, List.length_map, List.length_map, rest, length, splitDiff]
  have counted : permHits a.length b.length (a ++ b) (b.sum / b.length - a.sum / a.length) =
      (combinations a.length (List.range (a ++ b).length)).countP fun idx =>
        |b.sum / b.length - a.sum / a.length| - tieTolerance ≤
          |splitDiff a.length b.length (a ++ b).sum (idx.map (valueAt (a ++ b))).sum| := by
    rw [permHits, combinations_pool, List.countP_map]
    rfl
  have length : (combinations a.length (List.range (a ++ b).length)).length =
      (a.length + b.length).choose a.length := by
    rw [length_combinations, List.length_range, List.length_append]
  rw [exactPermP, if_neg (by simp [nonemptyA, nonemptyB]), counted, ← length]
  simp only [PyFloat.mean_fin, PyFloat.sub_fin, PyFloat.abs_fin, ← List.map_append,
    List.length_map]
  congr 4
  refine List.countP_congr fun idx mem => ?_
  rw [split idx mem, PyFloat.abs_fin, PyFloat.le_fin]

/-- The order of the pool does not matter. -/
theorem permHits_perm {pool' : List ℚ} (perm : pool'.Perm pool) :
    permHits na nb pool' obs = permHits na nb pool obs := by
  have hit := countP_combinations_perm perm na fun c =>
    |obs| - tieTolerance ≤ |splitDiff na nb pool.sum c.sum|
  rw [permHits, permHits, perm.sum_eq]
  simpa using hit

/-- The splits are the sets of positions.  Equal values at different positions count as
different splits, as in the source. -/
theorem permHits_eq_card : permHits na nb pool obs =
    #{S ∈ powersetCard na (range pool.length) |
      |obs| - tieTolerance ≤ |splitDiff na nb pool.sum (∑ i ∈ S, valueAt pool i)|} := by
  rw [← countP_combinations_range, permHits, combinations_pool, List.countP_map]
  refine List.countP_congr fun idx mem => ?_
  have distinct := List.nodup_range.sublist (mem_combinations.mp mem).1
  rw [Function.comp_apply, List.sum_toFinset _ distinct]

theorem sum_valueAt (pool : List ℚ) : ∑ i ∈ range pool.length, valueAt pool i = pool.sum := by
  rw [← List.toFinset_range, List.sum_toFinset _ List.nodup_range, map_valueAt]

theorem splitDiff_swap (total s : ℚ) :
    splitDiff nb na total (total - s) = -splitDiff na nb total s := by
  rw [splitDiff, splitDiff, sub_sub_cancel, neg_sub]

/-- The complement of a split is a split with the groups exchanged, and its difference of
means is the negative one. -/
theorem permHits_swap (obs : ℚ) (length : pool.length = na + nb) :
    permHits nb na pool (-obs) = permHits na nb pool obs := by
  have complement : ∀ {m m' : ℕ} {S : Finset ℕ}, pool.length = m + m' →
      S ∈ powersetCard m (range pool.length) →
      range pool.length \ S ∈ powersetCard m' (range pool.length) := by
    intro m m' S length mem
    obtain ⟨subset, card⟩ := mem_powersetCard.mp mem
    refine mem_powersetCard.mpr ⟨sdiff_subset, ?_⟩
    rw [card_sdiff_of_subset subset, card_range, card, length, Nat.add_sub_cancel_left]
  have value : ∀ {S : Finset ℕ}, S ⊆ range pool.length →
      ∑ i ∈ range pool.length \ S, valueAt pool i = pool.sum - ∑ i ∈ S, valueAt pool i := by
    intro S subset
    rw [← sum_valueAt, ← sum_sdiff subset, add_sub_cancel_right]
  rw [permHits_eq_card, permHits_eq_card]
  refine card_nbij' (range pool.length \ ·) (range pool.length \ ·) ?_ ?_ ?_ ?_
  · intro S mem
    obtain ⟨split, hit⟩ := mem_filter.mp mem
    refine mem_filter.mpr ⟨complement (by omega) split, ?_⟩
    rw [value (mem_powersetCard.mp split).1, splitDiff_swap, abs_neg, ← abs_neg obs]
    exact hit
  · intro S mem
    obtain ⟨split, hit⟩ := mem_filter.mp mem
    refine mem_filter.mpr ⟨complement length split, ?_⟩
    rw [value (mem_powersetCard.mp split).1, splitDiff_swap, abs_neg, abs_neg]
    exact hit
  · intro S mem
    exact Finset.sdiff_sdiff_eq_self (mem_powersetCard.mp (mem_filter.mp mem).1).1
  · intro S mem
    exact Finset.sdiff_sdiff_eq_self (mem_powersetCard.mp (mem_filter.mp mem).1).1

end Exact

/-! ## The test is valid

For the validity every split of the pool is handed to `exact_perm_p` as two groups of its
own.  The pool that it then enumerates is the same in another order, so that all splits are
ranked in one family. -/

/-- The values at a set of positions, in order.  It is how a split is handed to
`exact_perm_p` as two groups. -/
def groupAt (pool : List ℚ) (S : Finset ℕ) : List ℚ :=
  ((List.range pool.length).filter (· ∈ S)).map (valueAt pool)

/-- `exact_perm_p` returns on the groups, with a p-value of at most `α`. -/
def permRejects (α : ℚ) (a b : List ℚ) : Bool :=
  match exactPermP .fin (a.map .fin) (b.map .fin) with
  | .ok (_, p) => p ≤ α
  | .error _ => false

section Groups

variable {pool : List ℚ} {S : Finset ℕ}

theorem toFinset_positions (subset : S ⊆ range pool.length) :
    ((List.range pool.length).filter (· ∈ S)).toFinset = S := by
  ext i
  rw [List.mem_toFinset, List.mem_filter, List.mem_range, decide_eq_true_iff]
  exact ⟨fun mem => mem.2, fun mem => ⟨mem_range.mp (subset mem), mem⟩⟩

theorem sum_groupAt (subset : S ⊆ range pool.length) :
    (groupAt pool S).sum = ∑ i ∈ S, valueAt pool i := by
  rw [groupAt, ← List.sum_toFinset _ (List.nodup_range.filter _), toFinset_positions subset]

theorem length_groupAt (subset : S ⊆ range pool.length) : (groupAt pool S).length = #S := by
  rw [groupAt, List.length_map, ← List.toFinset_card_of_nodup (List.nodup_range.filter _),
    toFinset_positions subset]

/-- The groups of a split are the pool in another order. -/
theorem perm_groupAt : (groupAt pool S ++ groupAt pool (range pool.length \ S)).Perm pool := by
  have rest : (List.range pool.length).filter (· ∈ range pool.length \ S) =
      (List.range pool.length).filter (· ∉ S) := by
    refine List.filter_congr fun i mem => ?_
    simp [List.mem_range.mp mem]
  have whole := List.filter_append_perm (· ∈ S) (List.range pool.length)
  have mapped := whole.map (valueAt pool)
  rw [map_valueAt] at mapped
  rw [groupAt, groupAt, ← List.map_append, rest]
  simpa using mapped

/-- The observed difference of a split, from its positions. -/
def diffAt (na nb : ℕ) (pool : List ℚ) (S : Finset ℕ) : ℚ :=
  splitDiff na nb pool.sum (∑ i ∈ S, valueAt pool i)

/-- The sizes of the two groups of a split, and the sum of the second. -/
theorem groupAt_split {na nb : ℕ} (length : pool.length = na + nb)
    (split : S ∈ powersetCard na (range pool.length)) :
    (groupAt pool S).length = na ∧ (groupAt pool (range pool.length \ S)).length = nb ∧
      (groupAt pool (range pool.length \ S)).sum = pool.sum - ∑ i ∈ S, valueAt pool i := by
  obtain ⟨subset, card⟩ := mem_powersetCard.mp split
  refine ⟨by rw [length_groupAt subset, card], ?_, ?_⟩
  · rw [length_groupAt sdiff_subset, card_sdiff_of_subset subset, card_range, card, length,
      Nat.add_sub_cancel_left]
  · rw [sum_groupAt sdiff_subset, ← sum_valueAt, ← sum_sdiff subset, add_sub_cancel_right]

theorem permRejects_groupAt {na nb : ℕ} {α : ℚ} (positiveA : 0 < na) (positiveB : 0 < nb)
    (length : pool.length = na + nb) (split : S ∈ powersetCard na (range pool.length)) :
    permRejects α (groupAt pool S) (groupAt pool (range pool.length \ S)) ↔
      (permHits na nb pool (diffAt na nb pool S) : ℚ) / (na + nb).choose na ≤ α := by
  obtain ⟨subset, card⟩ := mem_powersetCard.mp split
  obtain ⟨lengthA, lengthB, sumB⟩ := groupAt_split length split
  have nonemptyA : groupAt pool S ≠ [] := List.ne_nil_of_length_pos (by omega)
  have nonemptyB : groupAt pool (range pool.length \ S) ≠ [] :=
    List.ne_nil_of_length_pos (by omega)
  rw [permRejects, exactPermP_fin nonemptyA nonemptyB, lengthA, lengthB, sumB,
    sum_groupAt subset, permHits_perm perm_groupAt, decide_eq_true_iff]
  rfl

/-- The splits whose p-value is at most `α`.  A split that is at least as far apart as another is
among those that its p-value counts, so that the general bound on p-values applies. -/
theorem card_permRejects_le {na nb : ℕ} {α : ℚ} (positiveA : 0 < na) (positiveB : 0 < nb)
    (length : pool.length = na + nb) (nonneg : 0 ≤ α) :
    (#{S ∈ powersetCard na (range pool.length) |
      permRejects α (groupAt pool S) (groupAt pool (range pool.length \ S))} : ℚ) ≤
      α * pool.length.choose na := by
  have size : #(powersetCard na (range pool.length)) = pool.length.choose na := by
    rw [card_powersetCard, card_range]
  have counted : ∀ S ∈ powersetCard na (range pool.length),
      permRejects α (groupAt pool S) (groupAt pool (range pool.length \ S)) ↔
      (permHits na nb pool (diffAt na nb pool S) : ℚ) / #(powersetCard na (range pool.length)) ≤
        α := by
    intro S split
    rw [permRejects_groupAt positiveA positiveB length split, size, length]
  rw [filter_congr counted, ← size]
  refine card_pvalue_le (fun S => |diffAt na nb pool S|) ?_ nonneg fun S split => ?_
  · rw [← card_pos, size]
    exact Nat.choose_pos (by omega)
  · rw [permHits_eq_card]
    refine card_le_card fun S' mem => ?_
    obtain ⟨split', larger⟩ := mem_filter.mp mem
    have slack : (0 : ℚ) ≤ tieTolerance := by norm_num [tieTolerance]
    have larger : |diffAt na nb pool S| ≤ |diffAt na nb pool S'| := larger
    exact mem_filter.mpr ⟨split', (sub_le_self _ slack).trans larger⟩

end Groups

/-- The difference of the means of two groups, the second minus the first. -/
def meanDiff (a b : List ℚ) : ℚ := b.sum / b.length - a.sum / a.length

/-- The splits of the pool into groups of the given sizes whose means lie at least as far apart as
`obs`, up to the tolerance of the comparison. -/
def extremeSplits (na : ℕ) (pool : List ℚ) (obs : ℚ) : Finset (Finset ℕ) :=
  {S ∈ powersetCard na (range pool.length) |
    |obs| - tieTolerance ≤
      |meanDiff (groupAt pool S) (groupAt pool (range pool.length \ S))|}

theorem meanDiff_groupAt {pool : List ℚ} {S : Finset ℕ} {na nb : ℕ}
    (length : pool.length = na + nb) (split : S ∈ powersetCard na (range pool.length)) :
    meanDiff (groupAt pool S) (groupAt pool (range pool.length \ S)) = diffAt na nb pool S := by
  obtain ⟨subset, card⟩ := mem_powersetCard.mp split
  obtain ⟨lengthA, lengthB, sumB⟩ := groupAt_split length split
  rw [meanDiff, lengthA, lengthB, sumB, sum_groupAt subset]
  rfl

/-- The hits of `exact_perm_p` are the extreme splits. -/
theorem permHits_eq_extremeSplits {pool : List ℚ} {na nb : ℕ} {obs : ℚ}
    (length : pool.length = na + nb) : permHits na nb pool obs = #(extremeSplits na pool obs) := by
  rw [permHits_eq_card, extremeSplits]
  refine congrArg card (filter_congr fun S split => ?_)
  rw [meanDiff_groupAt length split, diffAt]

/-- **The permutation test is valid and symmetric.**  What `exact_perm_p` returns is the
difference of the means of the two groups, and the fraction of the splits of the pool that are at
least as extreme.  Among the splits of the pool, those whose p-value is at most `α` are at most a
fraction `α`; exchanging the groups keeps the p-value and negates the observed difference. -/
theorem exact_perm_valid (a b : List ℚ) (nonemptyA : a ≠ []) (nonemptyB : b ≠ []) :
    (∀ α : ℚ, 0 ≤ α →
      (#{S ∈ powersetCard a.length (range (a ++ b).length) |
        permRejects α (groupAt (a ++ b) S)
          (groupAt (a ++ b) (range (a ++ b).length \ S))} : ℚ) ≤
      α * (a ++ b).length.choose a.length) ∧
    ∃ p : ℚ, p = #(extremeSplits a.length (a ++ b) (meanDiff a b)) /
        (a ++ b).length.choose a.length ∧
      exactPermP .fin (a.map .fin) (b.map .fin) = .ok (.fin (meanDiff a b), p) ∧
      exactPermP .fin (b.map .fin) (a.map .fin) = .ok (.fin (-meanDiff a b), p) := by
  have length : (a ++ b).length = a.length + b.length := List.length_append
  constructor
  · intro α nonneg
    exact card_permRejects_le (List.length_pos_of_ne_nil nonemptyA)
      (List.length_pos_of_ne_nil nonemptyB) length nonneg
  · refine ⟨_, rfl, ?_, ?_⟩
    · rw [exactPermP_fin nonemptyA nonemptyB, ← permHits_eq_extremeSplits length, length]
      rfl
    · have swapped := permHits_swap (meanDiff a b) length
      have negated : a.sum / a.length - b.sum / b.length = -meanDiff a b := by
        rw [meanDiff, neg_sub]
      rw [exactPermP_fin nonemptyB nonemptyA, negated, permHits_perm List.perm_append_comm,
        swapped, permHits_eq_extremeSplits length, add_comm b.length, length, Nat.choose_symm_add]

/-- Two runs against two runs.  Two of the six splits are as extreme as the observed one, so that
the p-value is a third, and at most a third of the splits have a p-value of at most a third. -/
theorem exact_perm_valid_two :
    (#{S ∈ powersetCard 2 (range 4) | permRejects (1 / 3) (groupAt [1, 2, 5, 7] S)
        (groupAt [1, 2, 5, 7] (range 4 \ S))} : ℚ) ≤ 2 ∧
      exactPermP .fin [.fin 1, .fin 2] [.fin 5, .fin 7] = .ok (.fin (9 / 2), 1 / 3) ∧
      exactPermP .fin [.fin 5, .fin 7] [.fin 1, .fin 2] = .ok (.fin (-(9 / 2)), 1 / 3) := by
  obtain ⟨valid, p, fraction, forth, back⟩ := exact_perm_valid [1, 2] [5, 7] (by simp) (by simp)
  have diff : meanDiff [1, 2] [5, 7] = 9 / 2 := by norm_num [meanDiff]
  have extreme : #(extremeSplits 2 [1, 2, 5, 7] (9 / 2)) = 2 := by decide +kernel
  have third : p = 1 / 3 := by
    rw [fraction, diff]
    change ((#(extremeSplits 2 [1, 2, 5, 7] (9 / 2)) : ℕ) : ℚ) / (Nat.choose 4 2 : ℕ) = 1 / 3
    rw [extreme]
    norm_num [Nat.choose]
  rw [diff, third] at forth back
  refine ⟨(valid (1 / 3) (by norm_num)).trans ?_, forth, back⟩
  norm_num [Nat.choose]

end WgReceivePath.Analyze
