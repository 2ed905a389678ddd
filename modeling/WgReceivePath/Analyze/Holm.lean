import WgReceivePath.Lib.Dict
import Mathlib.Algebra.Order.Field.Rat
import Mathlib.Data.Finset.Lattice.Fold
import Mathlib.Data.List.Sort
import Mathlib.Order.Bounds.Basic
import Mathlib.Tactic.Linarith

/-!
# The Holm adjustment

`holm` (analyze_confirm.py) sorts the p-values of a family and runs through them once with a
running maximum.  The adjusted value of a key is the closed-testing one: the maximum over
the sets `S` of keys that contain it of the capped Bonferroni value `min 1 (|S| * min of p
over S)` (`holm_closed`).

## What carries the proof

The loop computes the step-down values of the sorted list (`holmLoop_entries`), and a
step-down value is the maximum over the suffixes of that list that contain the key
(`stepDown_greatest`).  A suffix is a set of keys whose least p-value is its first
(`suffixValues_subset`), and every set of keys is dominated by the suffix that starts at its
first member, which is larger and has the same least p-value (`exists_suffixValue`).  So the
two maxima are the same.

A maximum over sets does not depend on the order of the list, and it is monotone in the
p-values; that is why these come for free.
-/

namespace WgReceivePath.Analyze

open Finset

variable {κ : Type*}

/-! ## The function -/

/-- The loop of `holm`: `rank` pairs of the `m` are done, `running` is the maximum so far.
The factor goes down with the rank, the running maximum keeps the values in order. -/
def holmLoop [DecidableEq κ] (m : ℕ) : ℕ → ℚ → List (κ × ℚ) → Dict κ ℚ → Dict κ ℚ
  | _, _, [], adj => adj
  | rank, running, (key, p) :: rest, adj =>
      let running := max running (min 1 (((m : ℚ) - rank) * p))
      holmLoop m (rank + 1) running rest (adj.set key running)

/-- `sorted(pairs, key=lambda kp: kp[1])`, which is stable. -/
def sortedByP (pairs : List (κ × ℚ)) : List (κ × ℚ) :=
  pairs.insertionSort fun x y => x.2 ≤ y.2

/-- `holm`: the adjusted value of each key. -/
def holm [DecidableEq κ] (pairs : List (κ × ℚ)) : Dict κ ℚ :=
  holmLoop pairs.length 0 0 (sortedByP pairs) .empty

/-! ## The step-down values

The rank of the source is the number of pairs done.  Here it is the length of the rest,
which does not depend on where the loop began. -/

/-- The adjusted values of a sorted list, the rank replaced by the length of the rest. -/
def stepDown : ℚ → List (κ × ℚ) → List (κ × ℚ)
  | _, [] => []
  | running, (key, p) :: rest =>
      let running := max running (min 1 ((rest.length + 1 : ℕ) * p))
      (key, running) :: stepDown running rest

theorem stepDown_keys (running : ℚ) (sorted : List (κ × ℚ)) :
    (stepDown running sorted).map Prod.fst = sorted.map Prod.fst := by
  induction sorted generalizing running with
  | nil => rfl
  | cons x rest ih => rw [stepDown, List.map_cons, List.map_cons, ih]

/-- The capped Bonferroni values of the suffixes that contain `i`. -/
def suffixValues (sorted : List (κ × ℚ)) (i : κ) : Set ℚ :=
  {v | ∃ x rest, x :: rest <:+ sorted ∧ i ∈ (x :: rest).map Prod.fst ∧
    v = min 1 ((rest.length + 1 : ℕ) * x.2)}

theorem suffixValues_cons (x : κ × ℚ) (rest : List (κ × ℚ)) {i : κ}
    (mem : i ∈ (x :: rest).map Prod.fst) :
    suffixValues (x :: rest) i =
      insert (min 1 ((rest.length + 1 : ℕ) * x.2)) (suffixValues rest i) := by
  ext v
  constructor
  · rintro ⟨y, tail, suffix, mem, rfl⟩
    rcases List.suffix_cons_iff.mp suffix with same | suffix
    · obtain ⟨rfl, rfl⟩ := List.cons.inj same
      exact .inl rfl
    · exact .inr ⟨y, tail, suffix, mem, rfl⟩
  · rintro (rfl | ⟨y, tail, suffix, mem, rfl⟩)
    · exact ⟨x, rest, List.suffix_rfl, mem, rfl⟩
    · exact ⟨y, tail, suffix.trans (List.suffix_cons x rest), mem, rfl⟩

/-- The step-down value is the running maximum or the best suffix.  By induction on the
list, whose first pair is the one suffix that the rest does not have. -/
theorem stepDown_greatest {running : ℚ} {sorted : List (κ × ℚ)} {i : κ} {v : ℚ}
    (distinct : (sorted.map Prod.fst).Nodup) (mem : (i, v) ∈ stepDown running sorted) :
    IsGreatest (insert running (suffixValues sorted i)) v := by
  induction sorted generalizing running with
  | nil => cases mem
  | cons x rest ih =>
      rw [List.map_cons, List.nodup_cons] at distinct
      have present : i ∈ (x :: rest).map Prod.fst := by
        rw [← stepDown_keys running]
        exact List.mem_map.mpr ⟨_, mem, rfl⟩
      rw [suffixValues_cons x rest present]
      rw [stepDown, List.mem_cons] at mem
      rcases mem with here | later
      · -- no later suffix contains the first key
        cases here
        have none : suffixValues rest x.1 = ∅ := by
          refine Set.eq_empty_iff_forall_notMem.mpr ?_
          rintro v ⟨y, tail, suffix, mem, -⟩
          obtain ⟨e, inside, key⟩ := List.mem_map.mp mem
          exact distinct.1 (List.mem_map.mpr ⟨e, suffix.subset inside, key⟩)
        rw [none, insert_empty_eq]
        exact isGreatest_pair
      · have tail := ih distinct.2 later
        refine ⟨?_, ?_⟩
        · rcases tail.1 with best | best
          · rcases max_choice running (min 1 ((rest.length + 1 : ℕ) * x.2)) with first | first
            · exact .inl (best.trans first)
            · exact .inr (.inl (best.trans first))
          · exact .inr (.inr best)
        · have above : max running (min 1 ((rest.length + 1 : ℕ) * x.2)) ≤ v := tail.2 (.inl rfl)
          rintro w (rfl | rfl | inside)
          · exact (le_max_left _ _).trans above
          · exact (le_max_right _ _).trans above
          · exact tail.2 (.inr inside)

/-! ## Sets of keys

Closed testing asks for a maximum over all sets of keys.  Only the suffixes of the sorted
list matter: a set is contained in the suffix at its first member, which is as small in its
least p-value and larger in size. -/

/-- The capped Bonferroni values of the sets of keys that contain `i`. -/
def closedValues (keys : Finset κ) (p : κ → ℚ) (i : κ) : Set ℚ :=
  {v | ∃ S ⊆ keys, ∃ mem : i ∈ S, v = min 1 (#S * S.inf' ⟨i, mem⟩ p)}

section Sets

variable {sorted : List (κ × ℚ)} {p : κ → ℚ} {i : κ}

/-- The suffix at the first member of a set contains the set, and starts in it. -/
theorem exists_suffix [DecidableEq κ] {S : Finset κ} (inside : ∀ k ∈ S, k ∈ sorted.map Prod.fst)
    (nonempty : S.Nonempty) :
    ∃ x rest, x :: rest <:+ sorted ∧ x.1 ∈ S ∧ ∀ k ∈ S, k ∈ (x :: rest).map Prod.fst := by
  induction sorted with
  | nil =>
      obtain ⟨k, mem⟩ := nonempty
      simpa using inside k mem
  | cons y tail ih =>
      by_cases first : y.1 ∈ S
      · exact ⟨y, tail, List.suffix_rfl, first, inside⟩
      · obtain ⟨x, rest, suffix, mem, all⟩ := ih fun k mem => by
          rcases List.mem_cons.mp (inside k mem) with rfl | later
          · exact absurd mem first
          · exact later
        exact ⟨x, rest, suffix.trans (List.suffix_cons y tail), mem, all⟩

/-- The first p-value of a sorted suffix is the least. -/
theorem le_of_mem_suffix {x : κ × ℚ} {rest : List (κ × ℚ)} {k : κ}
    (ordered : sorted.Pairwise fun x y => x.2 ≤ y.2) (values : ∀ e ∈ sorted, p e.1 = e.2)
    (suffix : x :: rest <:+ sorted) (mem : k ∈ (x :: rest).map Prod.fst) : p x.1 ≤ p k := by
  obtain ⟨e, inside, rfl⟩ := List.mem_map.mp mem
  rcases List.mem_cons.mp inside with rfl | later
  · exact le_rfl
  · have ordered := (List.pairwise_cons.mp (ordered.sublist suffix.sublist)).1 e later
    rw [values x (suffix.subset List.mem_cons_self), values e (suffix.subset inside)]
    exact ordered

/-- A suffix is a set of keys. -/
theorem suffixValues_subset [DecidableEq κ] (distinct : (sorted.map Prod.fst).Nodup)
    (ordered : sorted.Pairwise fun x y => x.2 ≤ y.2) (values : ∀ e ∈ sorted, p e.1 = e.2) :
    suffixValues sorted i ⊆ closedValues (sorted.map Prod.fst).toFinset p i := by
  rintro v ⟨x, rest, suffix, mem, rfl⟩
  have keys : ((x :: rest).map Prod.fst).Nodup := distinct.sublist (suffix.sublist.map _)
  have card : #((x :: rest).map Prod.fst).toFinset = rest.length + 1 := by
    rw [List.toFinset_card_of_nodup keys, List.length_map, List.length_cons]
  refine ⟨((x :: rest).map Prod.fst).toFinset, ?_, List.mem_toFinset.mpr mem, ?_⟩
  · intro k inside
    rw [List.mem_toFinset] at inside ⊢
    exact (suffix.sublist.map _).subset inside
  · have least : ((x :: rest).map Prod.fst).toFinset.inf' ⟨i, List.mem_toFinset.mpr mem⟩ p =
        p x.1 := by
      apply le_antisymm
      · exact inf'_le p (List.mem_toFinset.mpr (by simp))
      · refine le_inf' _ _ fun k inside => ?_
        exact le_of_mem_suffix ordered values suffix (List.mem_toFinset.mp inside)
    rw [card, least, values x (suffix.subset List.mem_cons_self)]

/-- A set of keys is dominated by a suffix. -/
theorem exists_suffixValue [DecidableEq κ] (ordered : sorted.Pairwise fun x y => x.2 ≤ y.2)
    (values : ∀ e ∈ sorted, p e.1 = e.2) (nonneg : ∀ e ∈ sorted, 0 ≤ e.2) {v : ℚ}
    (mem : v ∈ closedValues (sorted.map Prod.fst).toFinset p i) :
    ∃ w ∈ suffixValues sorted i, v ≤ w := by
  obtain ⟨S, subset, mem, rfl⟩ := mem
  obtain ⟨x, rest, suffix, first, all⟩ :=
    exists_suffix (fun k inside => List.mem_toFinset.mp (subset inside)) ⟨i, mem⟩
  have inside : x ∈ sorted := suffix.subset List.mem_cons_self
  refine ⟨_, ⟨x, rest, suffix, all i mem, rfl⟩, min_le_min_left 1 ?_⟩
  have card : #S ≤ rest.length + 1 := by
    have below := card_le_card fun k mem => List.mem_toFinset.mpr (all k mem)
    have length := List.toFinset_card_le ((x :: rest).map Prod.fst)
    rw [List.length_map, List.length_cons] at length
    exact below.trans length
  have least : S.inf' ⟨i, mem⟩ p = x.2 := by
    rw [← values x inside]
    apply le_antisymm
    · exact inf'_le p first
    · exact le_inf' _ _ fun k inside => le_of_mem_suffix ordered values suffix (all k inside)
  rw [least]
  exact mul_le_mul_of_nonneg_right (by exact_mod_cast card) (nonneg x inside)

theorem closedValues_mono {keys : Finset κ} {q : κ → ℚ} (le : ∀ k ∈ keys, p k ≤ q k) {v : ℚ}
    (mem : v ∈ closedValues keys p i) : ∃ w ∈ closedValues keys q i, v ≤ w := by
  obtain ⟨S, subset, mem, rfl⟩ := mem
  refine ⟨_, ⟨S, subset, mem, rfl⟩, min_le_min_left 1 ?_⟩
  refine mul_le_mul_of_nonneg_left ?_ (Nat.cast_nonneg _)
  exact le_inf' _ _ fun k inside => (inf'_le p inside).trans (le k (subset inside))

end Sets

/-! ## Closed testing

The loop enters each key once, so the dictionary is the list of step-down values; what was
shown of these is then a property of the function. -/

section Closed

variable [DecidableEq κ] {pairs : List (κ × ℚ)} {p : κ → ℚ} {i : κ}

/-- The loop sets the step-down values one after the other. -/
theorem holmLoop_entries {m rank : ℕ} {running : ℚ} {sorted : List (κ × ℚ)} {adj : Dict κ ℚ}
    (length : rank + sorted.length = m) (distinct : (sorted.map Prod.fst).Nodup)
    (fresh : ∀ k ∈ sorted.map Prod.fst, k ∉ adj.keys) :
    (holmLoop m rank running sorted adj).entries = adj.entries ++ stepDown running sorted := by
  induction sorted generalizing rank running adj with
  | nil => simp [holmLoop, stepDown]
  | cons x rest ih =>
      rw [List.map_cons, List.nodup_cons] at distinct
      have new : x.1 ∉ adj.keys := fresh x.1 (by simp)
      have left : (m : ℚ) - rank = (rest.length + 1 : ℕ) := by
        rw [← length, List.length_cons]
        push_cast
        exact add_sub_cancel_left _ _
      rw [holmLoop, stepDown, left, ih (by rw [← length, List.length_cons]; omega) distinct.2 ?_,
        Dict.entries_set_new _ new, List.append_assoc, List.singleton_append]
      intro k mem
      have other : k ≠ x.1 := by
        rintro rfl
        exact distinct.1 mem
      rw [Dict.keys_set, if_neg new, List.mem_append, List.mem_singleton]
      exact not_or.mpr ⟨fresh k (by simp [List.mem_map.mp mem]), other⟩

/-- The p-values as a function of the key. -/
def valueOf (pairs : List (κ × ℚ)) (k : κ) : ℚ := (Dict.find k pairs).getD 0

theorem valueOf_of_mem (distinct : (pairs.map Prod.fst).Nodup) {e : κ × ℚ} (mem : e ∈ pairs) :
    valueOf pairs e.1 = e.2 := by
  rw [valueOf, Dict.find_of_mem distinct mem, Option.getD_some]

theorem holm_get? (distinct : (pairs.map Prod.fst).Nodup) {v : ℚ} :
    (holm pairs).get? i = some v ↔ (i, v) ∈ stepDown 0 (sortedByP pairs) := by
  have perm : (sortedByP pairs).Perm pairs := List.perm_insertionSort _ _
  rw [← Dict.mem_entries, holm, holmLoop_entries]
  · simp [Dict.empty]
  · rw [zero_add, perm.length_eq]
  · exact (perm.map Prod.fst).nodup_iff.mpr distinct
  · simp [Dict.empty, Dict.keys]

/-- **The adjusted value is the closed-testing one.**  It is stated for any function `p`
that agrees with the list, so that it can be used with the same `p` for several orders of a
list. -/
theorem holm_greatest (pairs : List (κ × ℚ)) (p : κ → ℚ) (distinct : (pairs.map Prod.fst).Nodup)
    (unit : ∀ e ∈ pairs, 0 ≤ e.2 ∧ e.2 ≤ 1) (values : ∀ e ∈ pairs, p e.1 = e.2)
    (mem : i ∈ pairs.map Prod.fst) :
    ∃ v, (holm pairs).get? i = some v ∧
      IsGreatest (closedValues (pairs.map Prod.fst).toFinset p i) v := by
  have perm : (sortedByP pairs).Perm pairs := List.perm_insertionSort _ _
  have ordered : (sortedByP pairs).Pairwise fun x y => x.2 ≤ y.2 :=
    List.pairwise_insertionSort _ _
  have distinct' := (perm.map Prod.fst).nodup_iff.mpr distinct
  have values' : ∀ e ∈ sortedByP pairs, p e.1 = e.2 := fun e mem => values e (perm.mem_iff.mp mem)
  have nonneg : ∀ e ∈ sortedByP pairs, 0 ≤ e.2 := fun e mem => (unit e (perm.mem_iff.mp mem)).1
  have keys : ((sortedByP pairs).map Prod.fst).toFinset = (pairs.map Prod.fst).toFinset :=
    List.toFinset_eq_of_perm _ _ (perm.map Prod.fst)
  rw [← (perm.map Prod.fst).mem_iff, ← stepDown_keys 0] at mem
  obtain ⟨⟨k, v⟩, inside, rfl⟩ := List.mem_map.mp mem
  have greatest := stepDown_greatest distinct' inside
  refine ⟨v, (holm_get? distinct).mpr inside, ?_⟩
  have single : min 1 (p k) ∈ closedValues (pairs.map Prod.fst).toFinset p k := by
    rw [stepDown_keys, (perm.map Prod.fst).mem_iff] at mem
    exact ⟨{k}, by simpa using mem, mem_singleton_self k, by simp⟩
  rw [← keys] at single ⊢
  refine ⟨?_, fun w member => ?_⟩
  · rcases greatest.1 with rfl | best
    · -- the start of the running maximum is only best if the p-value is zero
      obtain ⟨w, best, above⟩ := exists_suffixValue ordered values' nonneg single
      obtain ⟨e, member, key⟩ : ∃ e ∈ pairs, e.1 = k := by
        rw [stepDown_keys, (perm.map Prod.fst).mem_iff] at mem
        simpa using mem
      have least : 0 ≤ min 1 (p k) := by
        rw [← key, values e member]
        exact le_min zero_le_one (unit e member).1
      have zero : w = 0 := le_antisymm (greatest.2 (.inr best)) (least.trans above)
      rw [← zero]
      exact suffixValues_subset distinct' ordered values' best
    · exact suffixValues_subset distinct' ordered values' best
  · obtain ⟨best, inside, above⟩ := exists_suffixValue ordered values' nonneg member
    exact above.trans (greatest.2 (.inr inside))

end Closed

/-- **`holm` computes the closed-testing Bonferroni adjustment.**  The adjusted value is the
maximum over the sets of keys that contain the key; it does not depend on the order of the
list, lies between the p-value and one, and is monotone in the p-values. -/
theorem holm_closed [DecidableEq κ] (pairs : List (κ × ℚ)) (distinct : (pairs.map Prod.fst).Nodup)
    (unit : ∀ e ∈ pairs, 0 ≤ e.2 ∧ e.2 ≤ 1) (i : κ) (pi : ℚ) (mem : (i, pi) ∈ pairs) :
    ∃ v, (holm pairs).get? i = some v ∧
      IsGreatest {v | ∃ S ⊆ (pairs.map Prod.fst).toFinset, ∃ mem : i ∈ S,
        v = min 1 (#S * S.inf' ⟨i, mem⟩ (valueOf pairs))} v ∧
      (∀ pairs' : List (κ × ℚ), pairs'.Perm pairs → (holm pairs').get? i = some v) ∧
      pi ≤ v ∧ v ≤ 1 ∧
      ∀ raised : κ → ℚ, (∀ e ∈ pairs, e.2 ≤ raised e.1 ∧ raised e.1 ≤ 1) →
        ∃ w, (holm (pairs.map fun e => (e.1, raised e.1))).get? i = some w ∧ v ≤ w := by
  have values : ∀ e ∈ pairs, valueOf pairs e.1 = e.2 := fun e mem => valueOf_of_mem distinct mem
  have present : i ∈ pairs.map Prod.fst := List.mem_map.mpr ⟨_, mem, rfl⟩
  obtain ⟨v, found, greatest⟩ := holm_greatest pairs (valueOf pairs) distinct unit values present
  refine ⟨v, found, greatest, fun pairs' perm => ?_, ?_, ?_, fun raised bound => ?_⟩
  · obtain ⟨w, found', greatest'⟩ := holm_greatest pairs' (valueOf pairs)
      ((perm.map Prod.fst).nodup_iff.mpr distinct)
      (fun e mem => unit e (perm.mem_iff.mp mem)) (fun e mem => values e (perm.mem_iff.mp mem))
      ((perm.map Prod.fst).mem_iff.mpr present)
    rw [List.toFinset_eq_of_perm _ _ (perm.map Prod.fst)] at greatest'
    rw [found', greatest'.unique greatest]
  · have single : min 1 pi ≤ v := by
      refine greatest.2 ⟨{i}, by simpa using present, mem_singleton_self i, ?_⟩
      simp [values _ mem]
    rwa [min_eq_right (unit _ mem).2] at single
  · obtain ⟨S, -, -, rfl⟩ := greatest.1
    exact min_le_left _ _
  · have keys : (pairs.map fun e => (e.1, raised e.1)).map Prod.fst = pairs.map Prod.fst := by
      rw [List.map_map]
      rfl
    obtain ⟨w, found', greatest'⟩ := holm_greatest (pairs.map fun e => (e.1, raised e.1)) raised
      (i := i) (by rwa [keys])
      (by
        intro e mem
        obtain ⟨e, member, rfl⟩ := List.mem_map.mp mem
        exact ⟨(unit e member).1.trans (bound e member).1, (bound e member).2⟩)
      (by
        intro e mem
        obtain ⟨e, -, rfl⟩ := List.mem_map.mp mem
        rfl)
      (by rwa [keys])
    rw [keys] at greatest'
    obtain ⟨u, member, above⟩ := closedValues_mono (q := raised) (fun k inside => by
      obtain ⟨e, mem, rfl⟩ := List.mem_map.mp (List.mem_toFinset.mp inside)
      rw [values e mem]
      exact (bound e mem).1) greatest.1
    exact ⟨w, found', above.trans (greatest'.2 member)⟩

/-- Two tests of p-values `3/100` and `1/100`: the first is adjusted to `3/100`, the maximum over
the sets of keys that contain it, in either order of the list. -/
theorem holm_closed_two :
    (holm [(0, 3 / 100), (1, 1 / 100)]).get? (0 : ℕ) = some (3 / 100) ∧
      IsGreatest {v | ∃ S ⊆ ({0, 1} : Finset ℕ), ∃ mem : 0 ∈ S,
        v = min 1 (#S * S.inf' ⟨0, mem⟩ (valueOf [(0, 3 / 100), (1, 1 / 100)]))} (3 / 100) ∧
      (holm [(1, 1 / 100), (0, 3 / 100)]).get? (0 : ℕ) = some (3 / 100) ∧
      ∀ raised : ℕ → ℚ, (∀ e ∈ [((0 : ℕ), (3 / 100 : ℚ)), (1, 1 / 100)],
          e.2 ≤ raised e.1 ∧ raised e.1 ≤ 1) →
        ∃ w, (holm [(0, raised 0), (1, raised 1)]).get? 0 = some w ∧ 3 / 100 ≤ w := by
  obtain ⟨v, found, greatest, order, -, -, raised⟩ :=
    holm_closed [(0, 3 / 100), ((1 : ℕ), 1 / 100)] (by decide) (by norm_num) 0 (3 / 100) (by simp)
  have value : (holm [(0, 3 / 100), ((1 : ℕ), 1 / 100)]).get? 0 = some (3 / 100) := by
    decide +kernel
  obtain rfl : v = 3 / 100 := Option.some.inj (found.symm.trans value)
  exact ⟨value, greatest, order _ (.swap _ _ _), raised⟩

end WgReceivePath.Analyze
