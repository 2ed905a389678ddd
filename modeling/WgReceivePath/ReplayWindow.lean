import WgReceivePath.ReplayCounter
import Mathlib.Order.Lattice

/-!
# The replay window is exact

`backtrack` is a ring of 128 words of 64 bits, and the bit of a number `v` is bit `v % 64`
of word `v / 64 % 128`.  The words from `counter / 64 - 127` up to `counter / 64` are
*current*: no two numbers in them share a bit.  The window is one word smaller than the
ring, so that a number that passes the window test lies in a current word.

## Main result

`replay_window_exact` : after any sequence of calls on a zeroed counter, the next call
returns true exactly for a number below the limit that no earlier call has accepted and that
is not behind the window.  So a number is accepted at most once, and at least once if it
comes in time; neither follows from the other.

## What carries the proof

`Window c seen` says that the counter is the greatest of the accepted numbers `seen`, and
that the bits of the numbers in current words are those of `seen`.  It says nothing about
the other words, which may hold stale bits.  Advancing the counter clears exactly the words
that become current (`Window.advance`): with fewer than 128 words to go these are the words
between the old index and the new one, and with more they are all of them.  A call that gets
past the two limits finds its number in a current word (`Window.testAndSet`), and answers
from one bit.  `Window.validate` is the step over one call, `Window.calls` the run over a
sequence; `NoWrap` says on the way that no addition of the function wraps.
-/

namespace WgReceivePath

namespace ReplayCounter

variable {c : ReplayCounter} {seen : List ℕ} {v w : ℕ}

/-- The bit of the number `v`. -/
def holds (c : ReplayCounter) (v : ℕ) : Bool :=
  (c.backtrack (BitVec.ofNat 64 (v / 64 % 128))).getLsbD (v % 64)

/-- The word of `v` is one of the 128 words that end with the counter's.  Two numbers of
current words that share a bit of the ring are equal. -/
def Current (c : ReplayCounter) (v : ℕ) : Prop :=
  v / 64 ≤ c.counter.toNat / 64 ∧ c.counter.toNat / 64 ≤ v / 64 + 127

/-! ## The words of the ring

Indices are computed modulo the number of words, on 64-bit numbers.  The lemmas move from
there to numbers without a modulus, for which two positions in the window never collide. -/

theorem slot_eq (index : BitVec 64) : slot index = BitVec.ofNat 64 (index.toNat % 128) := by
  apply BitVec.eq_of_toNat_eq
  have mask : (COUNTER_BITS_TOTAL / BITS_PER_LONG - 1).toNat = 2 ^ 7 - 1 := by decide
  have small : index.toNat % 128 < 2 ^ 64 := by omega
  rw [slot, BitVec.toNat_and, mask, Nat.and_two_pow_sub_one_eq_mod, BitVec.toNat_ofNat,
    Nat.mod_eq_of_lt small]

theorem ofNat_mod_inj (same : BitVec.ofNat 64 (v % 128) = BitVec.ofNat 64 (w % 128)) :
    v % 128 = w % 128 := by
  have := congrArg BitVec.toNat same
  simp only [BitVec.toNat_ofNat] at this
  omega

theorem toNat_shiftRight_six (x : BitVec 64) : (x >>> 6).toNat = x.toNat / 64 := by
  rw [BitVec.toNat_ushiftRight, Nat.shiftRight_eq_div_pow]

/-- The word that iteration `i` of the loop clears. -/
theorem slot_add (indexCurrent : BitVec 64) (i : ℕ) :
    slot (BitVec.ofNat 64 i + indexCurrent) =
      BitVec.ofNat 64 ((indexCurrent.toNat + i) % 128) := by
  rw [slot_eq, BitVec.toNat_add, BitVec.toNat_ofNat]
  congr 1
  omega

/-- The loop clears the words `indexCurrent + 1 .. indexCurrent + n`. -/
theorem clearWords_cleared (indexCurrent : BitVec 64) {n i : ℕ}
    (backtrack : BitVec 64 → BitVec 64) (low : 1 ≤ i) (high : i ≤ n) :
    clearWords indexCurrent n backtrack
      (BitVec.ofNat 64 ((indexCurrent.toNat + i) % 128)) = 0 := by
  induction n with
  | zero => omega
  | succ n ih =>
      rw [clearWords, slot_add, Function.update_apply]
      split
      · rfl
      · rename_i other
        have : i ≠ n + 1 := by
          rintro rfl
          exact other rfl
        exact ih (by omega)

/-- The loop leaves the other words alone. -/
theorem clearWords_kept {indexCurrent word : BitVec 64} {n : ℕ}
    (backtrack : BitVec 64 → BitVec 64)
    (outside : ∀ i, 1 ≤ i → i ≤ n →
      word ≠ BitVec.ofNat 64 ((indexCurrent.toNat + i) % 128)) :
    clearWords indexCurrent n backtrack word = backtrack word := by
  induction n with
  | zero => rfl
  | succ n ih =>
      rw [clearWords, slot_add,
        Function.update_of_ne (outside (n + 1) (by omega) le_rfl)]
      exact ih fun i low high => outside i low (by omega)

/-- `test_and_set_bit` answers from the number's bit. -/
theorem testAndSet_snd (c : ReplayCounter) (their : BitVec 64) :
    (c.testAndSet their).2 = !c.holds their.toNat := by
  have place : (their &&& (BITS_PER_LONG - 1)).toNat = their.toNat % 64 := by
    have mask : (BITS_PER_LONG - 1).toNat = 2 ^ 6 - 1 := by decide
    rw [BitVec.toNat_and, mask, Nat.and_two_pow_sub_one_eq_mod]
  have nonzero : BitVec.twoPow 64 (their.toNat % 64) ≠ 0#64 := by
    intro zero
    have := congrArg (fun b => b.getLsbD (their.toNat % 64)) zero
    simp [Nat.mod_lt] at this
  simp only [testAndSet, place, ← BitVec.twoPow_eq, BitVec.and_twoPow, slot_eq,
    toNat_shiftRight_six, holds]
  cases bit : (c.backtrack (BitVec.ofNat 64 (their.toNat / 64 % 128))).getLsbD
      (their.toNat % 64) with
  | false => simp
  | true => simpa using nonzero

/-- `test_and_set_bit` sets the number's bit, which is the bit of the numbers that share its
place in the ring. -/
theorem testAndSet_holds (c : ReplayCounter) (their : BitVec 64) (v : ℕ) :
    (c.testAndSet their).1.holds v =
      (c.holds v || (v / 64 % 128 == their.toNat / 64 % 128 && v % 64 == their.toNat % 64)) := by
  have place : (their &&& (BITS_PER_LONG - 1)).toNat = their.toNat % 64 := by
    have mask : (BITS_PER_LONG - 1).toNat = 2 ^ 6 - 1 := by decide
    rw [BitVec.toNat_and, mask, Nat.and_two_pow_sub_one_eq_mod]
  simp only [testAndSet, holds, place, ← BitVec.twoPow_eq, slot_eq, toNat_shiftRight_six,
    Function.update_apply]
  by_cases same : v / 64 % 128 = their.toNat / 64 % 128
  · rw [if_pos (by rw [same]), BitVec.getLsbD_or, BitVec.getLsbD_twoPow, same]
    simp [Nat.mod_lt, eq_comm, Bool.beq_eq_decide_eq]
  · rw [if_neg (fun eq => same (ofNat_mod_inj eq))]
    simp [same]

/-! ## The window

The bits of the numbers in current words are exact; about all others nothing is known.  A
call advances the window, tests one bit and sets it. -/

/-- The numbers `seen` have been accepted: the counter is the greatest of them, and the bits
of the current words are theirs.  Words that are not current are left open. -/
structure Window (c : ReplayCounter) (seen : List ℕ) : Prop where
  bound : c.counter.toNat ≤ REJECT_AFTER_MESSAGES.toNat
  counter : c.counter.toNat = seen.foldr max 0
  bits : ∀ v, c.Current v → (c.holds v = true ↔ v ∈ seen)

theorem window_zero : Window zero [] := by
  refine ⟨by decide, rfl, fun v _ => ?_⟩
  simp [holds, zero]

theorem le_foldr_max (mem : v ∈ seen) : v ≤ seen.foldr max 0 := by
  induction seen with
  | nil => simp at mem
  | cons w rest ih =>
      rcases List.mem_cons.mp mem with rfl | mem
      · exact le_max_left _ _
      · exact (ih mem).trans (le_max_right _ _)

/-- The counter advances past all numbers seen so far: the words that become current are
clear.  The numbers of the words that stay current keep their bits, and no number seen is in
a new word. -/
theorem Window.advance {their : BitVec 64} (h : Window c seen)
    (later : c.counter.toNat < their.toNat) (v : ℕ) (current : (c.advance their).Current v) :
    (c.advance their).holds v = true ↔ v ∈ seen := by
  have bound := their.isLt
  obtain ⟨low, high⟩ := current
  have low : v / 64 ≤ their.toNat / 64 := low
  have high : their.toNat / 64 ≤ v / 64 + 127 := high
  have gap : (their >>> 6 - c.counter >>> 6).toNat =
      their.toNat / 64 - c.counter.toNat / 64 := by
    rw [BitVec.toNat_sub, toNat_shiftRight_six, toNat_shiftRight_six]
    omega
  have words : (COUNTER_BITS_TOTAL / BITS_PER_LONG).toNat = 128 := by decide
  have top : (if their >>> 6 - c.counter >>> 6 < COUNTER_BITS_TOTAL / BITS_PER_LONG
      then their >>> 6 - c.counter >>> 6 else COUNTER_BITS_TOTAL / BITS_PER_LONG).toNat =
      min (their.toNat / 64 - c.counter.toNat / 64) 128 := by
    simp only [BitVec.lt_def, gap, words]
    split <;> simp only [gap, words] <;> omega
  simp only [ReplayCounter.advance, holds, top]
  by_cases old : v / 64 ≤ c.counter.toNat / 64
  · -- the word was current before and is not cleared
    rw [clearWords_kept]
    · exact h.bits v ⟨old, by omega⟩
    · intro i first last same
      have := ofNat_mod_inj same
      rw [toNat_shiftRight_six] at this
      omega
  · -- the word has just been cleared, and its numbers are greater than all seen
    have unseen : v ∉ seen := by
      intro mem
      have := le_foldr_max mem
      have := h.counter
      omega
    -- the iteration that clears it, counted modulo the ring
    obtain ⟨i, first, last, same⟩ : ∃ i, 1 ≤ i ∧
        i ≤ min (their.toNat / 64 - c.counter.toNat / 64) 128 ∧
        v / 64 % 128 = ((c.counter >>> 6).toNat + i) % 128 := by
      rw [toNat_shiftRight_six]
      by_cases near : v / 64 - c.counter.toNat / 64 ≤ 128
      · exact ⟨v / 64 - c.counter.toNat / 64, by omega, by omega, by congr 1; omega⟩
      · refine ⟨(v / 64 - c.counter.toNat / 64 - 1) % 128 + 1, by omega, by omega, by omega⟩
    rw [same, clearWords_cleared _ _ first last]
    simp [unseen]

/-- A number in a current word is tested and recorded. -/
theorem Window.testAndSet {their : BitVec 64}
    (bits : ∀ v, c.Current v → (c.holds v = true ↔ v ∈ seen))
    (current : c.Current their.toNat) :
    ((c.testAndSet their).2 = true ↔ their.toNat ∉ seen) ∧
      ∀ v, c.Current v → ((c.testAndSet their).1.holds v = true ↔
        v ∈ seen ∨ v = their.toNat) := by
  constructor
  · rw [testAndSet_snd, ← bits _ current]
    simp
  · intro v inside
    rw [testAndSet_holds, Bool.or_eq_true, bits v inside]
    refine or_congr_right ⟨fun same => ?_, ?_⟩
    · -- two numbers of current words with the same bit are equal
      simp only [Bool.and_eq_true, beq_iff_eq] at same
      obtain ⟨low, high⟩ := inside
      obtain ⟨low', high'⟩ := current
      omega
    · rintro rfl
      simp

/-- The number that a call admits, and what the call does with it: the answer in terms of
the numbers seen, and the window over these and the new one. -/
theorem Window.validate {x : BitVec 64} (h : Window c seen) :
    ((c.counterValidate x).2 = true ↔ x.toNat < REJECT_AFTER_MESSAGES.toNat ∧
      x.toNat + 1 ∉ seen ∧ c.counter.toNat ≤ x.toNat + 1 + COUNTER_WINDOW_SIZE.toNat) ∧
    Window (c.counterValidate x).1
      (if (c.counterValidate x).2 then (x.toNat + 1) :: seen else seen) := by
  have limit : REJECT_AFTER_MESSAGES.toNat = 2 ^ 64 - 8130 := by decide
  have limit' : (REJECT_AFTER_MESSAGES + 1).toNat = 2 ^ 64 - 8129 := by decide
  have size : COUNTER_WINDOW_SIZE.toNat = 8128 := by decide
  have bound := h.bound
  unfold counterValidate
  by_cases refused : c.counter ≥ REJECT_AFTER_MESSAGES + 1 ∨ x ≥ REJECT_AFTER_MESSAGES
  · -- the counter itself never reaches the limit
    rw [if_pos refused]
    simp only [ge_iff_le, BitVec.le_def, limit, limit'] at refused
    refine ⟨?_, by simpa using h⟩
    simp only [Bool.false_eq_true, false_iff, limit]
    omega
  · rw [if_neg refused]
    simp only [ge_iff_le, BitVec.le_def, limit, limit', not_or, not_le] at refused
    have next : (x + 1).toNat = x.toNat + 1 := by
      rw [BitVec.toNat_add]
      exact Nat.mod_eq_of_lt (by simp; omega)
    have edge : (COUNTER_WINDOW_SIZE + (x + 1)).toNat = x.toNat + 1 + 8128 := by
      rw [BitVec.toNat_add, next, size]
      omega
    dsimp only
    by_cases outside : COUNTER_WINDOW_SIZE + (x + 1) < c.counter
    · rw [if_pos outside]
      rw [BitVec.lt_def, edge] at outside
      refine ⟨?_, by simpa using h⟩
      simp only [Bool.false_eq_true, false_iff, size]
      omega
    · rw [if_neg outside]
      rw [BitVec.lt_def, edge, not_lt] at outside
      -- after the advance the number is the counter, or lies below it in a current word
      by_cases later : x + 1 > c.counter
      · rw [if_pos later]
        rw [gt_iff_lt, BitVec.lt_def, next] at later
        have current : (c.advance (x + 1)).Current (x + 1).toNat :=
          ⟨le_rfl, by simp [ReplayCounter.advance]⟩
        obtain ⟨answer, bits⟩ := Window.testAndSet (h.advance (by rw [next]; exact later)) current
        have unseen : x.toNat + 1 ∉ seen := by
          intro mem
          have := le_foldr_max mem
          have := h.counter
          omega
        rw [next] at answer bits
        refine ⟨answer.trans ⟨fun fresh => ⟨by omega, fresh, by omega⟩, fun all => all.2.1⟩, ?_⟩
        rw [if_pos (answer.mpr unseen)]
        refine ⟨?_, ?_, fun v inside => ?_⟩
        · simp only [ReplayCounter.testAndSet, ReplayCounter.advance, next, limit]
          omega
        · have := h.counter
          simp only [ReplayCounter.testAndSet, ReplayCounter.advance, next, List.foldr_cons]
          omega
        · rw [bits v inside, List.mem_cons, or_comm]
      · rw [if_neg later]
        rw [gt_iff_lt, BitVec.lt_def, next, not_lt] at later
        have current : c.Current (x + 1).toNat := by
          rw [next]
          exact ⟨by omega, by omega⟩
        obtain ⟨answer, bits⟩ := Window.testAndSet h.bits current
        rw [next] at answer bits
        refine ⟨answer.trans ⟨fun fresh => ⟨by omega, fresh, by omega⟩, fun all => all.2.1⟩, ?_⟩
        have same : (c.testAndSet (x + 1)).1.counter = c.counter := rfl
        have counter := h.counter
        by_cases fresh : x.toNat + 1 ∈ seen
        · have replay : (c.testAndSet (x + 1)).2 = false := by
            simpa using mt answer.mp (not_not.mpr fresh)
          rw [replay, if_neg (by simp)]
          refine ⟨bound, counter, fun v inside => (bits v inside).trans ?_⟩
          constructor
          · rintro (mem | rfl)
            · exact mem
            · exact fresh
          · exact .inl
        · rw [if_pos (answer.mpr fresh)]
          refine ⟨bound, ?_, fun v inside => ?_⟩
          · rw [same, List.foldr_cons]
            omega
          · rw [bits v inside, List.mem_cons, or_comm]

/-! ## Sequences of calls

The accepted numbers are those for which a call returned true.  The greatest of them is the
counter, and the window is what the theorem says about the next call. -/

/-- The counter after the calls `counter_validate(counter, x)` for `x` in the list. -/
def calls (c : ReplayCounter) (xs : List (BitVec 64)) : ReplayCounter :=
  xs.foldl (fun c x => (c.counterValidate x).1) c

/-- The numbers among `xs` whose call returns true, the last one first. -/
def accepted (c : ReplayCounter) : List (BitVec 64) → List (BitVec 64)
  | [] => []
  | x :: xs =>
      accepted (c.counterValidate x).1 xs ++ if (c.counterValidate x).2 then [x] else []

/-- The maximum of `x + 1` over a list, `0` for the empty list. -/
def greatest (xs : List (BitVec 64)) : ℕ := (xs.map (·.toNat + 1)).foldr max 0

/-- Every sequence of calls keeps the window. -/
theorem Window.calls (earlier xs : List (BitVec 64))
    (h : Window c (earlier.map (·.toNat + 1))) :
    Window (c.calls xs) ((c.accepted xs ++ earlier).map (·.toNat + 1)) := by
  induction xs generalizing c earlier with
  | nil => exact h
  | cons x xs ih =>
      have kept := h.validate (x := x).2
      rw [ReplayCounter.accepted, List.append_assoc]
      refine ih _ ?_
      split <;> rename_i answer <;> simpa [answer] using kept

/-- No addition of the function wraps on a number that its first test admits: neither the
two sums of the limits nor the indices of the loop that clears words. -/
structure NoWrap (c : ReplayCounter) (x : BitVec 64) : Prop where
  limit : (REJECT_AFTER_MESSAGES + 1).toNat = REJECT_AFTER_MESSAGES.toNat + 1
  next : x < REJECT_AFTER_MESSAGES → (x + 1).toNat = x.toNat + 1
  edge : x < REJECT_AFTER_MESSAGES →
    (COUNTER_WINDOW_SIZE + (x + 1)).toNat = COUNTER_WINDOW_SIZE.toNat + (x.toNat + 1)
  words : ∀ i : ℕ, i ≤ (COUNTER_BITS_TOTAL / BITS_PER_LONG).toNat →
    (BitVec.ofNat 64 i + c.counter >>> 6).toNat = i + (c.counter >>> 6).toNat

theorem noWrap (c : ReplayCounter) (x : BitVec 64) : NoWrap c x := by
  have limit : REJECT_AFTER_MESSAGES.toNat = 2 ^ 64 - 8130 := by decide
  have size : COUNTER_WINDOW_SIZE.toNat = 8128 := by decide
  have next : x < REJECT_AFTER_MESSAGES → (x + 1).toNat = x.toNat + 1 := by
    intro admitted
    rw [BitVec.lt_def, limit] at admitted
    rw [BitVec.toNat_add]
    exact Nat.mod_eq_of_lt (by simp; omega)
  refine ⟨by decide, next, fun admitted => ?_, fun i small => ?_⟩
  · rw [BitVec.toNat_add, next admitted, size]
    rw [BitVec.lt_def, limit] at admitted
    omega
  · have words : (COUNTER_BITS_TOTAL / BITS_PER_LONG).toNat = 128 := by decide
    have bound := c.counter.isLt
    rw [BitVec.toNat_add, BitVec.toNat_ofNat, toNat_shiftRight_six]
    omega

end ReplayCounter

open ReplayCounter in
/-- **The replay window is exact.**  After any calls on a zeroed counter, the next call
returns true exactly for a number below the limit that no earlier call accepted and that is
not behind the window; the counter is the maximum over the accepted numbers, and no addition
wraps. -/
theorem replay_window_exact (history : List (BitVec 64)) (x : BitVec 64) :
    (((zero.calls history).counterValidate x).2 = true ↔
      x < REJECT_AFTER_MESSAGES ∧ x ∉ zero.accepted history ∧
        greatest (zero.accepted history) ≤ x.toNat + 1 + COUNTER_WINDOW_SIZE.toNat) ∧
    (zero.calls history).counter.toNat = greatest (zero.accepted history) ∧
    NoWrap (zero.calls history) x := by
  have window := Window.calls [] history window_zero
  rw [List.append_nil] at window
  refine ⟨?_, window.counter, noWrap _ _⟩
  rw [window.validate.1, window.counter, BitVec.lt_def]
  refine and_congr_right fun _ => and_congr_left fun _ => not_congr ?_
  rw [List.mem_map]
  constructor
  · rintro ⟨y, mem, same⟩
    exact BitVec.eq_of_toNat_eq (Nat.succ_injective same) ▸ mem
  · exact fun mem => ⟨x, mem, rfl⟩

end WgReceivePath
