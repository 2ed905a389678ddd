import Mathlib.Data.Nat.Bitwise
import Mathlib.Data.BitVec
import WgReceivePath.Lib.LongestPrefix

/-!
# Addresses as bit strings

`allowedips.c` stores an address in host order, so that a machine word of it can be compared
with one `xor` and one `fls`.  This file models those byte operations, on a little-endian
machine, and gives them their meaning.

## Main definitions

* `swapEndian`, `bitAtA`, `bitAtB`, `chooseAt`, `fls128` and `commonBits`, as the source
  computes them.
* `addrBits`, the bits of the address that a stored key stands for, from the most
  significant one on; `netBits` is the same for an address in network order.

## Main results

* `le_commonBits_iff`: `common_bits` measures how far two keys agree from the front.
* `choose_eq`: `choose` reads the bit that follows a prefix.
* `addrBits_swapEndian`: `swap_endian` changes the order of the bytes and not the address.

Everything above this file speaks of lists of bits and their prefixes only.  The bridge is
bit by bit: the word that `common_bits` loads has the address bits in it, the first one on
top (`testBit_v4`, `testBit_v6_high`, `testBit_v6_low`), and `fls` of an `xor` is the place
of the first difference (`le_sub_fls_iff`).
-/

namespace WgReceivePath
namespace AllowedIps

/-- The two address families.  The source passes `bits`, 32 or 128, where this type stands.
-/
inductive Family
  | v4
  | v6
  deriving DecidableEq, Repr

/-- The address width, `bits`. -/
def Family.bits : Family → ℕ
  | .v4 => 32
  | .v6 => 128

/-- The address length in bytes, `bits / 8U`. -/
def Family.bytes (f : Family) : ℕ := f.bits / 8

/-- A byte string. -/
abbrev Bytes := List (BitVec 8)

/-! ## The byte operations of the source

A key is the byte string as it lies in memory.  A machine word is a number, so that `xor`
and `fls` are those of numbers; the width of a word is in the number of bytes that are
loaded. -/

/-- `swap_endian`: network order to host order, by whole words.  A 128-bit address is two
words, each turned round and left in its place. -/
def swapEndian : Family → Bytes → Bytes
  | .v4, src => (src.take 4).reverse
  | .v6, src => (src.take 8).reverse ++ ((src.drop 8).take 8).reverse

/-- `bit_at_a`, the byte that holds the bit after a prefix of `cidr` bits.  The exclusive or
is the little-endian case of `copy_and_assign_cidr`: it counts the bytes of a word from its
end. -/
def bitAtA (f : Family) (cidr : ℕ) : ℕ := (cidr / 8) ^^^ ((f.bits / 8 - 1) % 8)

/-- `bit_at_b`, the place of that bit in its byte. -/
def bitAtB (cidr : ℕ) : ℕ := 7 - cidr % 8

/-- The byte read of `choose`; a read past the end of the key is `none`. -/
def chooseAt (a b : ℕ) (key : Bytes) : Option Bool :=
  key[a]?.map fun byte : BitVec 8 => (byte >>> b).getLsbD 0

/-- A little-endian load of the given bytes. -/
def load : Bytes → ℕ
  | [] => 0
  | b :: rest => b.toNat + 256 * load rest

/-- `fls` and `fls64`: the position of the highest set bit, counted from one. -/
def fls (n : ℕ) : ℕ := if n = 0 then 0 else n.log2 + 1

/-- `fls128` of the words `a` and `b`. -/
def fls128 (a b : ℕ) : ℕ := if a = 0 then fls b else fls a + 64

/-- `common_bits`. -/
def commonBits : Family → Bytes → Bytes → ℕ
  | .v4, node, key => 32 - fls (load (node.take 4) ^^^ load (key.take 4))
  | .v6, node, key =>
      128 - fls128 (load (node.take 8) ^^^ load (key.take 8))
        (load ((node.drop 8).take 8) ^^^ load ((key.drop 8).take 8))

/-! ## What they mean

Everything is reduced to single bits.  A loaded word has the bits of its bytes, the byte at
`bit_at_a` holds the bit after a prefix, and two keys have a prefix in common when they
agree on its bits. -/

/-- Bit `i` of the address that `key` stores in host order, from the front.  It is stated
with the source's own indices, so that `choose` reads such a bit by definition. -/
def addrBit (f : Family) (key : Bytes) (i : ℕ) : Bool :=
  (key.getD (bitAtA f i) 0).getLsbD (bitAtB i)

/-- The bits of the address that `key` stores in host order. -/
def addrBits (f : Family) (key : Bytes) : List Bool := (List.range f.bits).map (addrBit f key)

/-- The bits of an address in network order. -/
def netBits (f : Family) (ip : Bytes) : List Bool :=
  (List.range f.bits).map fun i => (ip.getD (i / 8) 0).getLsbD (7 - i % 8)

@[simp] theorem length_addrBits (f : Family) (key : Bytes) :
    (addrBits f key).length = f.bits := by simp [addrBits]

@[simp] theorem length_netBits (f : Family) (ip : Bytes) :
    (netBits f ip).length = f.bits := by simp [netBits]

theorem addrBits_getElem? (f : Family) (key : Bytes) {i : ℕ} (small : i < f.bits) :
    (addrBits f key)[i]? = some (addrBit f key i) := by
  simp [addrBits, small]

theorem testBit_load (bytes : Bytes) (j : ℕ) :
    (load bytes).testBit j = (bytes.getD (j / 8) 0).getLsbD (j % 8) := by
  induction bytes generalizing j with
  | nil => simp [load]
  | cons b rest ih =>
      have small : b.toNat < 2 ^ 8 := b.isLt
      have split : load (b :: rest) = 2 ^ 8 * load rest + b.toNat := by
        simp only [load]; omega
      rw [split, Nat.testBit_two_pow_mul_add _ small]
      by_cases low : j < 8
      · simp [low, Nat.div_eq_of_lt low, Nat.mod_eq_of_lt low, BitVec.getLsbD]
      · obtain ⟨k, rfl⟩ := Nat.exists_eq_add_of_le (Nat.not_lt.mp low)
        have quotient : (8 + k) / 8 = k / 8 + 1 := by omega
        simp [ih, quotient]

theorem fls_le_iff (n k : ℕ) : fls n ≤ k ↔ n < 2 ^ k := by
  unfold fls
  split
  · next zero => exact ⟨fun _ => zero ▸ Nat.two_pow_pos k, fun _ => Nat.zero_le k⟩
  · next positive => rw [Nat.succ_le_iff, Nat.log2_lt positive]

/-- Counting from the top of a word, `fls` finds the first set bit: all bits before it are
clear. -/
theorem le_sub_fls_iff {width n c : ℕ} (word : n < 2 ^ width) (small : c ≤ width) :
    c ≤ width - fls n ↔ ∀ i < c, n.testBit (width - 1 - i) = false := by
  have whole : fls n ≤ width := (fls_le_iff n width).mpr word
  have bound : c ≤ width - fls n ↔ n < 2 ^ (width - c) := by
    rw [← fls_le_iff]; omega
  rw [bound]
  constructor
  · intro less i before
    exact Nat.testBit_lt_two_pow
      (less.trans_le (Nat.pow_le_pow_right Nat.two_pos (by omega)))
  · intro clear
    refine Nat.lt_pow_two_of_testBit n fun j later => ?_
    by_cases inside : j < width
    · simpa [show width - 1 - (width - 1 - j) = j by omega] using
        clear (width - 1 - j) (by omega)
    · exact Nat.testBit_lt_two_pow
        (word.trans_le (Nat.pow_le_pow_right Nat.two_pos (Nat.not_lt.mp inside)))

theorem testBit_load_word (key : Bytes) (offset size j : ℕ) :
    (load ((key.drop offset).take size)).testBit j =
      (decide (j < 8 * size) && (key.getD (offset + j / 8) 0).getLsbD (j % 8)) := by
  rw [testBit_load]
  by_cases inside : j < 8 * size
  · have byte : j / 8 < size := by omega
    simp [inside, List.getD_eq_getElem?_getD, byte]
  · have byte : size ≤ j / 8 := by omega
    simp [inside, List.getD_eq_getElem?_getD, Nat.not_lt.mpr byte]

/-- Two words compare like the one double word they make up, so that 128-bit addresses need
no case of their own below. -/
theorem fls128_eq {a b : ℕ} (small : b < 2 ^ 64) : fls128 a b = fls (2 ^ 64 * a + b) := by
  unfold fls128
  split
  · next zero => simp [zero]
  · next positive =>
      have low := Nat.log2_self_le positive
      have high := Nat.lt_log2_self (n := a)
      have whole : 2 ^ 64 * a + b ≠ 0 := by omega
      have log : (2 ^ 64 * a + b).log2 = a.log2 + 64 := by
        rw [Nat.log2_eq_iff whole, Nat.pow_add, show a.log2 + 64 + 1 = a.log2 + 1 + 64 by omega,
          Nat.pow_add 2 (a.log2 + 1)]
        omega
      simp only [fls, if_neg positive, if_neg whole, log]

theorem bitAtA_v4 {i : ℕ} (small : i < 32) : bitAtA .v4 i = 3 - i / 8 := by
  have table : ∀ q < 4, q ^^^ 3 = 3 - q := by decide
  exact table (i / 8) (by omega)

theorem bitAtA_v6 {i : ℕ} (small : i < 128) :
    bitAtA .v6 i = if i < 64 then 7 - i / 8 else 23 - i / 8 := by
  have table : ∀ q < 16, q ^^^ 7 = if q < 8 then 7 - q else 23 - q := by decide
  have read : bitAtA .v6 i = if i / 8 < 8 then 7 - i / 8 else 23 - i / 8 :=
    table (i / 8) (by omega)
  rw [read]
  exact if_congr (by omega) rfl rfl

theorem bitAtA_lt {f : Family} {i : ℕ} (small : i < f.bits) : bitAtA f i < f.bytes := by
  cases f with
  | v4 => rw [bitAtA_v4 small]; simp only [Family.bytes, Family.bits]; omega
  | v6 =>
      simp only [Family.bits] at small
      rw [bitAtA_v6 small]
      simp only [Family.bytes, Family.bits]
      split <;> omega

/-- `choose` reads the bit that follows the first `cidr` ones, within the key. -/
theorem choose_eq {f : Family} {cidr : ℕ} {key : Bytes} (small : cidr < f.bits)
    (long : f.bytes ≤ key.length) :
    chooseAt (bitAtA f cidr) (bitAtB cidr) key = some (addrBit f key cidr) := by
  have inside : bitAtA f cidr < key.length := (bitAtA_lt small).trans_le long
  simp [chooseAt, addrBit, List.getD_eq_getElem?_getD, inside]

theorem take_addrBits_eq_iff {f : Family} {a b : Bytes} {c : ℕ} (small : c ≤ f.bits) :
    (addrBits f a).take c = (addrBits f b).take c ↔
      ∀ i < c, addrBit f a i = addrBit f b i := by
  simp [addrBits, ← List.map_take, List.take_range, Nat.min_eq_left small]

theorem load_word_lt (key : Bytes) (offset size : ℕ) :
    load ((key.drop offset).take size) < 2 ^ (8 * size) :=
  Nat.lt_pow_two_of_testBit _ fun j later => by
    simp [testBit_load_word, Nat.not_lt.mpr later]

/-- The machine word that `common_bits` loads holds the address bits, the first one on top. -/
theorem testBit_v4 (key : Bytes) {i : ℕ} (small : i < 32) :
    (load (key.take 4)).testBit (31 - i) = addrBit .v4 key i := by
  have word := testBit_load_word key 0 4 (31 - i)
  have byte : (31 - i) / 8 = 3 - i / 8 := by omega
  have place : (31 - i) % 8 = 7 - i % 8 := by omega
  simpa [addrBit, bitAtA_v4 small, bitAtB, byte, place, show 31 - i < 32 by omega] using word

theorem testBit_v6_high (key : Bytes) {i : ℕ} (small : i < 64) :
    (load (key.take 8)).testBit (63 - i) = addrBit .v6 key i := by
  have word := testBit_load_word key 0 8 (63 - i)
  have byte : (63 - i) / 8 = 7 - i / 8 := by omega
  have place : (63 - i) % 8 = 7 - i % 8 := by omega
  simpa [addrBit, bitAtA_v6 (small.trans (by decide)), small, bitAtB, byte, place,
    show 63 - i < 64 by omega] using word

theorem testBit_v6_low (key : Bytes) {i : ℕ} (large : 64 ≤ i) (small : i < 128) :
    (load ((key.drop 8).take 8)).testBit (127 - i) = addrBit .v6 key i := by
  have word := testBit_load_word key 8 8 (127 - i)
  have byte : 8 + (127 - i) / 8 = 23 - i / 8 := by omega
  have place : (127 - i) % 8 = 7 - i % 8 := by omega
  simpa [addrBit, bitAtA_v6 small, Nat.not_lt.mpr large, bitAtB, byte, place,
    show 127 - i < 64 by omega] using word

/-- **`common_bits` measures agreement from the front**: it is at least `c` exactly when the
first `c` address bits of the two keys are the same. -/
theorem le_commonBits_iff {f : Family} {a b : Bytes} {c : ℕ} (small : c ≤ f.bits) :
    c ≤ commonBits f a b ↔ (addrBits f a).take c = (addrBits f b).take c := by
  rw [take_addrBits_eq_iff small]
  cases f with
  | v4 =>
      have word : load (a.take 4) ^^^ load (b.take 4) < 2 ^ 32 :=
        Nat.xor_lt_two_pow (load_word_lt a 0 4) (load_word_lt b 0 4)
      simp only [Family.bits] at small
      rw [commonBits, le_sub_fls_iff word small]
      refine forall₂_congr fun i before => ?_
      have inside : i < 32 := by omega
      simp [Nat.testBit_xor, testBit_v4 _ inside]
  | v6 =>
      have high : load (a.take 8) ^^^ load (b.take 8) < 2 ^ 64 :=
        Nat.xor_lt_two_pow (load_word_lt a 0 8) (load_word_lt b 0 8)
      have low : load ((a.drop 8).take 8) ^^^ load ((b.drop 8).take 8) < 2 ^ 64 :=
        Nat.xor_lt_two_pow (load_word_lt a 8 8) (load_word_lt b 8 8)
      have word : 2 ^ 64 * (load (a.take 8) ^^^ load (b.take 8)) +
          (load ((a.drop 8).take 8) ^^^ load ((b.drop 8).take 8)) < 2 ^ 128 := by omega
      simp only [Family.bits] at small
      rw [commonBits, fls128_eq low, le_sub_fls_iff word small]
      refine forall₂_congr fun i before => ?_
      rw [Nat.testBit_two_pow_mul_add _ low]
      by_cases front : i < 64
      · have top : 128 - 1 - i - 64 = 63 - i := by omega
        simp [show ¬ 127 - i < 64 by omega, top, Nat.testBit_xor, testBit_v6_high _ front]
      · have inside : i < 128 := by omega
        simp [show 127 - i < 64 by omega, Nat.testBit_xor,
          testBit_v6_low _ (Nat.not_lt.mp front) inside]

/-- `swap_endian` changes the order of the bytes and not the address.  For either family the
byte that holds a bit is found on both sides, in host order by `bit_at_a` and in network
order by its place. -/
theorem addrBits_swapEndian {f : Family} {ip : Bytes} (size : ip.length = f.bytes) :
    addrBits f (swapEndian f ip) = netBits f ip := by
  refine List.map_congr_left fun i member => ?_
  have small : i < f.bits := List.mem_range.mp member
  cases f with
  | v4 =>
      simp only [Family.bits, Family.bytes] at small size
      have byte : 3 - (3 - i / 8) = i / 8 := by omega
      simp [addrBit, bitAtA_v4 small, bitAtB, swapEndian, List.getD_eq_getElem?_getD,
        size, byte, show 3 - i / 8 < 4 by omega, show i / 8 < 4 by omega]
  | v6 =>
      simp only [Family.bits, Family.bytes] at small size
      rw [addrBit, bitAtA_v6 small]
      split
      · next front =>
          have byte : 7 - (7 - i / 8) = i / 8 := by omega
          simp [bitAtB, swapEndian, List.getD_eq_getElem?_getD, List.getElem?_append, size, byte,
            show 7 - i / 8 < 8 by omega, show i / 8 < 16 by omega]
      · next back =>
          have byte : 8 + (7 - (23 - i / 8 - 8)) = i / 8 := by omega
          simp [bitAtB, swapEndian, List.getD_eq_getElem?_getD, List.getElem?_append, size, byte,
            show ¬ 23 - i / 8 < 8 by omega, show 23 - i / 8 - 8 < 8 by omega,
            show i / 8 < 16 by omega]

theorem length_swapEndian {f : Family} {ip : Bytes} (size : ip.length = f.bytes) :
    (swapEndian f ip).length = f.bytes := by
  cases f <;> simp_all [swapEndian, Family.bytes, Family.bits]

end AllowedIps
end WgReceivePath
