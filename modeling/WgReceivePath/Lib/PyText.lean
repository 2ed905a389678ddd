import WgReceivePath.Lib.PyFloat
import Mathlib.Data.List.DropRight
import Mathlib.Data.List.Lex
import Mathlib.Data.List.Sort
import Mathlib.Tactic.Linarith

/-!
# Python's text operations

Text is the list of its code points.  The character classes are those of the Unicode
database of Python 3.11: `str.isspace`, the decimal digits that `int` and `float` read, and
`str.isdigit`, which knows some more.  They are tables of code points here, as they are
there.

## Main definitions

* `strip`, `split`, `partition` and `lines` are the string methods that a parser of small
  text files uses.
* `int?` and `float?` are the built-in conversions, with `none` for `ValueError`: signs,
  surrounding spaces, single underscores between digits, digits of other scripts, the limit
  on the number of digits, and for `float` fractions, exponents and the special literals.
* `le` is the order of texts by code points and `sorted` the built-in function on them.  The
  order is linear (`le_iff`), so that the sorted list does not depend on the order of the
  input (`sorted_eq_of_perm`).

## Two conversions of one text

The grammar of `float` contains that of `int`: a text that `int` reads is read by `float` as
the same number (`float?_of_int?`).  A program that has validated a field with one
conversion and reads it with the other relies on this.  The proof follows the two parsers:
single underscores between digits are what both drop (`ungrouped_of_grouped`), a sign stays
in front (`sign_ungrouped`), and digits alone are neither a special literal nor anything
with an exponent (`float?_body`).
-/

/-- Text as its code points.  A Python string literal is coerced to it. -/
abbrev Text := List Char

instance : Coe String Text := ⟨String.toList⟩

instance : LawfulBEq Text := inferInstance

namespace Text

/-! ## Spaces -/

/-- The code points for which `str.isspace` holds. -/
def spaces : List ℕ :=
  [32, 9, 10, 11, 12, 13, 28, 29, 30, 31, 133, 160, 5760, 8192, 8193, 8194, 8195, 8196, 8197,
    8198, 8199, 8200, 8201, 8202, 8232, 8233, 8239, 8287, 12288]

/-- `str.isspace`, of one character. -/
def isSpace (c : Char) : Bool := spaces.contains c.toNat

/-- The spaces that `int` and `float` skip: the information separators, which `str.isspace`
counts as spaces, are not among them. -/
def isNumSpace (c : Char) : Bool := isSpace c && !(28 ≤ c.toNat && c.toNat ≤ 31)

/-- `str.strip`. -/
def strip (t : Text) : Text := (t.dropWhile isSpace).rdropWhile isSpace

/-- The text without the spaces around a number. -/
def stripNum (t : Text) : Text := (t.dropWhile isNumSpace).rdropWhile isNumSpace

/-- `str.split()`: the maximal runs without a space. -/
def split (t : Text) : List Text := (t.splitOnP isSpace).filter (· ≠ [])

/-- `str.partition(sep)`: what stands before the first `sep`, and what stands after it, if
there is one. -/
def partition (sep : Char) (t : Text) : Text × Option Text :=
  (t.takeWhile (· ≠ sep), (t.dropWhile (· ≠ sep)).tail?)

/-- The lines of a file, without their ends.  A last line may lack its end, and an empty
piece behind the last line end is no line. -/
def lines (content : Text) : List Text :=
  let pieces := content.splitOn '\n'
  if pieces.getLast? = some [] then pieces.dropLast else pieces

theorem strip_eq_nil {t : Text} : strip t = [] ↔ ∀ c ∈ t, isSpace c = true := by
  rw [strip, List.rdropWhile_eq_nil_iff]
  constructor
  · intro spaces
    rw [← List.dropWhile_eq_nil_iff]
    by_contra nonempty
    have first := List.head_dropWhile_not isSpace nonempty
    rw [spaces _ (List.head_mem nonempty)] at first
    cases first
  · intro spaces
    simp [List.dropWhile_eq_nil_iff.mpr spaces]

theorem partition_of_notMem {sep : Char} {t : Text} (absent : sep ∉ t) :
    (partition sep t).2 = none := by
  have all : t.dropWhile (· ≠ sep) = [] := by
    rw [List.dropWhile_eq_nil_iff]
    intro c mem
    simpa using fun same : c = sep => absent (same ▸ mem)
  rw [partition, all]
  rfl

/-- No piece of a split contains the separator. -/
theorem notMem_of_mem_splitOn {sep : Char} {t piece : Text} (mem : piece ∈ t.splitOn sep) :
    sep ∉ piece := by
  induction t generalizing piece with
  | nil =>
      rw [List.splitOn_nil, List.mem_singleton] at mem
      simp [mem]
  | cons c rest ih =>
      rw [List.splitOn_cons_eq_if_modifyHead] at mem
      split at mem
      · rcases List.mem_cons.mp mem with rfl | later
        · simp
        · exact ih later
      · rename_i other
        cases pieces : rest.splitOn sep with
        | nil => exact absurd pieces (List.splitOn_ne_nil sep rest)
        | cons first others =>
            rw [pieces, List.modifyHead_cons] at mem
            rcases List.mem_cons.mp mem with rfl | later
            · have absent : sep ∉ first := ih (pieces ▸ List.mem_cons_self)
              have ne : sep ≠ c := fun same => other (by simp [same])
              exact List.not_mem_cons_of_ne_of_not_mem ne absent
            · exact ih (pieces ▸ List.mem_cons_of_mem _ later)

/-- A line has no line end. -/
theorem newline_notMem_lines {content line : Text} (mem : line ∈ lines content) :
    '\n' ∉ line := by
  have piece : line ∈ content.splitOn '\n' := by
    unfold lines at mem
    dsimp only at mem
    split at mem
    · exact List.dropLast_subset _ mem
    · exact mem
  exact notMem_of_mem_splitOn piece

/-! ## Digits

Python reads the decimal digits of all scripts.  A run of ten code points stands for the
digits 0 to 9, so a table of the zeros suffices. -/

/-- The zeros of the decimal digits of all scripts; the other nine digits follow each. -/
def zeros : List ℕ :=
  [48, 1632, 1776, 1984, 2406, 2534, 2662, 2790, 2918, 3046, 3174, 3302, 3430, 3558, 3664, 3792,
    3872, 4160, 4240, 6112, 6160, 6470, 6608, 6784, 6800, 6992, 7088, 7232, 7248, 42528, 43216,
    43264, 43472, 43504, 43600, 44016, 65296, 66720, 68912, 69734, 69872, 69942, 70096, 70384,
    70736, 70864, 71248, 71360, 71472, 71904, 72016, 72784, 73040, 73120, 92768, 92864, 93008,
    120782, 120792, 120802, 120812, 120822, 123200, 123632, 125264, 130032]

/-- The value of a decimal digit. -/
def digit? (c : Char) : Option ℕ :=
  (zeros.find? fun z => z ≤ c.toNat && c.toNat < z + 10).map (c.toNat - ·)

/-- `str.isdecimal`, of one character. -/
def isDecimal (c : Char) : Bool := (digit? c).isSome

/-- The ranges of the digits that are not decimal: superscripts, circled digits and the
like. -/
def otherDigits : List (ℕ × ℕ) :=
  [(178, 179), (185, 185), (4969, 4977), (6618, 6618), (8304, 8304), (8308, 8313), (8320, 8329),
    (9312, 9320), (9332, 9340), (9352, 9360), (9450, 9450), (9461, 9469), (9471, 9471),
    (10102, 10110), (10112, 10120), (10122, 10130), (68160, 68163), (69216, 69224),
    (69714, 69722), (127232, 127242)]

/-- `str.isdigit`: not empty, and every character is a digit, decimal or not.  Some of these
texts, superscripts for instance, are refused by `int`. -/
def isDigit (t : Text) : Bool :=
  t ≠ [] && t.all fun c =>
    isDecimal c || otherDigits.any fun r => r.1 ≤ c.toNat && c.toNat ≤ r.2

/-- The number that a list of digits denotes. -/
def value (digits : List ℕ) : ℕ := digits.foldl (fun n d => 10 * n + d) 0

/-- A sign, and the text behind it. -/
def sign : Text → Bool × Text
  | '+' :: rest => (false, rest)
  | '-' :: rest => (true, rest)
  | rest => (false, rest)

/-! ## `int`

Underscores may stand between digits, one at a time.  The limit on the number of digits is
that of the interpreter, which refuses to convert longer texts. -/

/-- Decimal digits with single underscores between them, as `int` reads them. -/
def grouped : Text → Option (List ℕ)
  | [] => none
  | [c] => (digit? c).map ([·])
  | c :: '_' :: rest => (digit? c).bind fun d => (grouped rest).map (d :: ·)
  | c :: next :: rest => (digit? c).bind fun d => (grouped (next :: rest)).map (d :: ·)

/-- The default of `sys.set_int_max_str_digits`. -/
def MAX_STR_DIGITS : ℕ := 4300

/-- `int(t)`: spaces around the number are skipped, a sign may stand in front, and more than
`MAX_STR_DIGITS` digits are refused. -/
def int? (t : Text) : Option ℤ :=
  let signed := sign (stripNum t)
  (grouped signed.2).bind fun digits =>
    if MAX_STR_DIGITS < digits.length then none
    else some (if signed.1 then -(value digits : ℤ) else value digits)

/-! ## `float`

The literal is an exact rational number before it is rounded.  Infinity and NaN are read as
well, in any case. -/

/-- The text without its underscores, each of which must stand between two digits.
`after` says that a digit has been read last. -/
def ungrouped : Bool → Text → Option Text
  | _, [] => some []
  | after, c :: rest =>
      if c = '_' then
        if after && (rest.head?.any isDecimal) then ungrouped false rest else none
      else (ungrouped (isDecimal c) rest).map (c :: ·)

/-- The exponent of a decimal literal, `0` if there is none. -/
def exponent? : Text → Option ℤ
  | [] => some 0
  | c :: rest =>
      let signed := sign rest
      if (c = 'e' ∨ c = 'E') ∧ signed.2 ≠ [] ∧ signed.2.all isDecimal then
        let e : ℤ := value (signed.2.filterMap digit?)
        some (if signed.1 then -e else e)
      else none

/-- A decimal literal without a sign. -/
def decimal? (t : Text) : Option ℚ :=
  let whole := t.takeWhile isDecimal
  let rest := t.dropWhile isDecimal
  let frac := if rest.head? = some '.' then rest.tail.takeWhile isDecimal else []
  let tail := if rest.head? = some '.' then rest.tail.dropWhile isDecimal else rest
  if whole = [] ∧ frac = [] then none
  else (exponent? tail).map fun e =>
    ((value ((whole ++ frac).filterMap digit?) * 10 ^ e.toNat : ℕ) : ℚ) /
      (10 ^ (frac.length + (-e).toNat) : ℕ)

/-- The literals that are not decimal. -/
def special? (t : Text) (negative : Bool) : Option PyFloat :=
  let lower := t.map Char.toLower
  if lower = ("nan" : Text) then some .nan
  else if lower = ("inf" : Text) ∨ lower = ("infinity" : Text) then some (.inf negative)
  else none

/-- `float(t)`: spaces and underscores as for `int`, then a special literal or a decimal
one, which is rounded once. -/
def float? (round : ℚ → PyFloat) (t : Text) : Option PyFloat :=
  (ungrouped false (stripNum t)).bind fun body =>
    let signed := sign body
    match special? signed.2 signed.1 with
    | some v => some v
    | none => (decimal? signed.2).map fun q => round (if signed.1 then -q else q)

/-! ## The order of text

`sorted` of texts compares code points.  Since the order is linear the result is determined
by the multiset of the texts. -/

/-- `s <= t`, by code points: the comparison that `sorted` uses. -/
def le : Text → Text → Bool
  | [], _ => true
  | _ :: _, [] => false
  | c :: s, d :: t => c.toNat < d.toNat || (c = d && le s t)

/-- `sorted` of texts. -/
def sorted (ts : List Text) : List Text := ts.insertionSort fun s t => le s t

theorem sorted_perm (ts : List Text) : (sorted ts).Perm ts := List.perm_insertionSort _ ts

/-- The order is the lexicographic one of the code points, hence linear. -/
theorem le_iff {s t : Text} : le s t = true ↔ s.map Char.toNat ≤ t.map Char.toNat := by
  rw [← not_lt]
  induction s generalizing t with
  | nil => simp [le]
  | cons c s ih =>
      cases t with
      | nil => simp [le]
      | cons d t =>
          have equal : c = d ↔ c.toNat = d.toNat := Char.toNat_inj.symm
          rw [List.map_cons, List.map_cons, List.cons_lt_cons_iff, not_or, not_and, ← ih, le]
          simp only [Bool.or_eq_true, Bool.and_eq_true, decide_eq_true_eq, equal]
          constructor
          · rintro (less | ⟨same, rest⟩)
            · exact ⟨by omega, by omega⟩
            · exact ⟨by omega, fun _ => rest⟩
          · rintro ⟨notMore, rest⟩
            rcases Nat.lt_or_eq_of_le (not_lt.mp notMore) with less | same
            · exact .inl less
            · exact .inr ⟨same, rest same.symm⟩

instance : Std.Total fun s t : Text => le s t = true where
  total s t := by
    simp only [le_iff]
    exact le_total _ _

instance : IsTrans Text fun s t => le s t = true where
  trans s t u := by
    simp only [le_iff]
    exact le_trans

instance : Std.Antisymm fun s t : Text => le s t = true where
  antisymm s t below above := by
    have same := le_antisymm (le_iff.mp below) (le_iff.mp above)
    exact List.map_injective_iff.mpr (fun _ _ => Char.toNat_inj.mp) same

/-- What `sorted` returns does not depend on the order in which the texts are given, hence
not on the iteration order of a set. -/
theorem sorted_eq_of_perm {ts us : List Text} (perm : ts.Perm us)
    (ordered : us.Pairwise fun s t => le s t = true) : sorted ts = us :=
  ((sorted_perm ts).trans perm).eq_of_pairwise' (List.pairwise_insertionSort _ ts) ordered

/-! ## What `int` reads, `float` reads -/

theorem isDecimal_iff {c : Char} :
    isDecimal c = true ↔ ∃ z ∈ zeros, z ≤ c.toNat ∧ c.toNat < z + 10 := by
  rw [isDecimal, digit?, Option.isSome_map, List.find?_isSome]
  simp

/-- Between the digits of ASCII and the next ones there is none. -/
theorem isDecimal_gap {c : Char} (decimal : isDecimal c = true) :
    48 ≤ c.toNat ∧ (c.toNat < 58 ∨ 1632 ≤ c.toNat) := by
  obtain ⟨z, mem, low, high⟩ := isDecimal_iff.mp decimal
  have zeros : z = 48 ∨ 1632 ≤ z := (by decide : ∀ z ∈ zeros, z = 48 ∨ 1632 ≤ z) z mem
  omega

theorem isDecimal_ne {c d : Char} (decimal : isDecimal c = true) (other : isDecimal d = false) :
    c ≠ d := by
  rintro rfl
  rw [decimal] at other
  cases other

/-- No digit is a space. -/
theorem not_isSpace {c : Char} (decimal : isDecimal c = true) : isSpace c = false := by
  obtain ⟨z, mem, low, high⟩ := isDecimal_iff.mp decimal
  have apart : ∀ z ∈ zeros, ∀ s ∈ spaces, ¬ (z ≤ s ∧ s < z + 10) := by decide +kernel
  rw [isSpace, List.contains_eq_mem, decide_eq_false_iff_not]
  exact fun space => apart z mem _ space ⟨low, high⟩

theorem not_isNumSpace {c : Char} (decimal : isDecimal c = true) : isNumSpace c = false := by
  rw [isNumSpace, not_isSpace decimal, Bool.false_and]

/-- Digits are no special literal. -/
theorem special?_digits {t : Text} (negative : Bool) (some : t ≠ [])
    (digits : ∀ c ∈ t, isDecimal c = true) : special? t negative = none := by
  obtain ⟨c, rest, rfl⟩ := List.exists_cons_of_ne_nil some
  have gap := isDecimal_gap (digits c List.mem_cons_self)
  have lower : c.toLower = c := by
    unfold Char.toLower
    refine dif_neg ?_
    rintro ⟨low, high⟩
    have low : 65 ≤ c.toNat := low
    have high : c.toNat ≤ 90 := high
    omega
  have head : ∀ d : Char, isDecimal d = false →
      ∀ tail, (c :: rest).map Char.toLower ≠ d :: tail := by
    intro d other tail same
    rw [List.map_cons, lower] at same
    exact isDecimal_ne (digits c List.mem_cons_self) other (List.cons.inj same).1
  have nan : (c :: rest).map Char.toLower ≠ ("nan" : Text) := head 'n' (by decide) ['a', 'n']
  have inf : (c :: rest).map Char.toLower ≠ ("inf" : Text) := head 'i' (by decide) ['n', 'f']
  have infinity : (c :: rest).map Char.toLower ≠ ("infinity" : Text) :=
    head 'i' (by decide) ['n', 'f', 'i', 'n', 'i', 't', 'y']
  simp only [special?, nan, inf, infinity, or_self, ↓reduceIte]

/-- A literal made of digits. -/
theorem decimal?_digits {t : Text} (some : t ≠ []) (digits : ∀ c ∈ t, isDecimal c = true) :
    decimal? t = Option.some (value (t.filterMap digit?) : ℚ) := by
  have whole : t.takeWhile isDecimal = t := List.takeWhile_eq_self_iff.mpr digits
  have rest : t.dropWhile isDecimal = [] := List.dropWhile_eq_nil_iff.mpr digits
  simp [decimal?, whole, rest, some, exponent?]

theorem isDecimal_of_digit? {c : Char} {d : ℕ} (digit : digit? c = some d) :
    isDecimal c = true := by
  rw [isDecimal, digit, Option.isSome_some]

theorem grouped_head {t : Text} {ds : List ℕ} (groups : grouped t = some ds) :
    t.head?.any isDecimal = true := by
  cases t using grouped.fun_cases with
  | case1 => cases groups
  | case2 c =>
      obtain ⟨d, digit, -⟩ := Option.map_eq_some_iff.mp groups
      exact isDecimal_of_digit? digit
  | case3 c rest =>
      simp only [grouped, Option.bind_eq_some_iff] at groups
      obtain ⟨d, digit, -⟩ := groups
      exact isDecimal_of_digit? digit
  | case4 c next rest other =>
      rw [grouped.eq_4 _ _ _ other, Option.bind_eq_some_iff] at groups
      obtain ⟨d, digit, -⟩ := groups
      exact isDecimal_of_digit? digit

/-- A digit is kept. -/
theorem ungrouped_cons {c : Char} {d : ℕ} {rest cs : Text} (digit : digit? c = some d)
    (after : Bool) (tail : ungrouped true rest = some cs) :
    ungrouped after (c :: rest) = some (c :: cs) := by
  have decimal := isDecimal_of_digit? digit
  rw [ungrouped, if_neg (isDecimal_ne decimal (by decide)), decimal, tail]
  rfl

/-- Single underscores between digits are dropped. -/
theorem ungrouped_of_grouped {t : Text} {ds : List ℕ} (groups : grouped t = some ds)
    (after : Bool) :
    ∃ cs, ungrouped after t = some cs ∧ cs ≠ [] ∧ (∀ c ∈ cs, isDecimal c = true) ∧
      cs.filterMap digit? = ds := by
  induction t using grouped.induct generalizing ds after with
  | case1 => cases groups
  | case2 c =>
      obtain ⟨d, digit, rfl⟩ := Option.map_eq_some_iff.mp groups
      exact ⟨[c], ungrouped_cons digit after rfl, by simp, by simp [isDecimal_of_digit? digit],
        by simp [digit]⟩
  | case3 c rest ih =>
      simp only [grouped, Option.bind_eq_some_iff, Option.map_eq_some_iff] at groups
      obtain ⟨d, digit, ds, groups, rfl⟩ := groups
      obtain ⟨cs, tail, -, digits, rfl⟩ := ih groups false
      have skipped : ungrouped true ('_' :: rest) = some cs := by
        rw [ungrouped, if_pos rfl, grouped_head groups, tail]
        rfl
      exact ⟨c :: cs, ungrouped_cons digit after skipped, by simp,
        List.forall_mem_cons.mpr ⟨isDecimal_of_digit? digit, digits⟩, by simp [digit]⟩
  | case4 c next rest other ih =>
      rw [grouped.eq_4 _ _ _ other, Option.bind_eq_some_iff] at groups
      obtain ⟨d, digit, groups⟩ := groups
      obtain ⟨ds, rest, rfl⟩ := Option.map_eq_some_iff.mp groups
      obtain ⟨cs, tail, -, digits, rfl⟩ := ih rest true
      exact ⟨c :: cs, ungrouped_cons digit after tail, by simp,
        List.forall_mem_cons.mpr ⟨isDecimal_of_digit? digit, digits⟩, by simp [digit]⟩

/-- What `float` makes of digits behind a sign. -/
theorem float?_body (round : ℚ → PyFloat) {cs : Text} (negative : Bool) (some : cs ≠ [])
    (digits : ∀ c ∈ cs, isDecimal c = true) :
    (match special? cs negative with
      | .some v => Option.some v
      | none => (decimal? cs).map fun q => round (if negative then -q else q)) =
      Option.some (round ((if negative then -(value (cs.filterMap digit?) : ℤ)
        else value (cs.filterMap digit?) : ℤ) : ℚ)) := by
  rw [special?_digits negative some digits, decimal?_digits some digits]
  cases negative <;> simp

theorem sign_digits {t : Text} (digits : ∀ c ∈ t, isDecimal c = true) : sign t = (false, t) := by
  cases t with
  | nil => rfl
  | cons c rest =>
      have decimal := digits c List.mem_cons_self
      have plus := isDecimal_ne decimal (by decide : isDecimal '+' = false)
      have minus := isDecimal_ne decimal (by decide : isDecimal '-' = false)
      unfold sign
      split <;> simp_all

/-- The sign stays in front of the digits. -/
theorem sign_ungrouped {t : Text} {ds : List ℕ} (groups : grouped (sign t).2 = some ds) :
    ∃ body cs, ungrouped false t = some body ∧ sign body = ((sign t).1, cs) ∧ cs ≠ [] ∧
      (∀ c ∈ cs, isDecimal c = true) ∧ cs.filterMap digit? = ds := by
  obtain ⟨cs, tail, some, digits, value⟩ := ungrouped_of_grouped groups false
  cases t using sign.fun_cases with
  | case1 rest =>
      refine ⟨'+' :: cs, cs, ?_, rfl, some, digits, value⟩
      rw [ungrouped, if_neg (by decide), (by decide : isDecimal '+' = false)]
      exact congrArg _ tail
  | case2 rest =>
      refine ⟨'-' :: cs, cs, ?_, rfl, some, digits, value⟩
      rw [ungrouped, if_neg (by decide), (by decide : isDecimal '-' = false)]
      exact congrArg _ tail
  | case3 t plus minus =>
      have unsigned : sign t = (false, t) := sign.eq_3 t plus minus
      rw [unsigned] at tail ⊢
      exact ⟨cs, cs, tail, sign_digits digits, some, digits, value⟩

/-- **What `int` reads, `float` reads as the same number.**  In particular the two
conversions of one field agree, whatever script its digits are from and wherever its
underscores stand. -/
theorem float?_of_int? (round : ℚ → PyFloat) {t : Text} {n : ℤ} (int : int? t = some n) :
    float? round t = some (round n) := by
  simp only [int?, Option.bind_eq_some_iff] at int
  obtain ⟨ds, groups, number⟩ := int
  obtain ⟨body, cs, text, signed, nonempty, digits, rfl⟩ := sign_ungrouped groups
  split at number
  · cases number
  · cases number
    simp only [float?, text, Option.bind_some, signed]
    exact float?_body round _ nonempty digits

theorem ungrouped_digits {t : Text} (digits : ∀ c ∈ t, isDecimal c = true) (after : Bool) :
    ungrouped after t = some t := by
  induction t generalizing after with
  | nil => rfl
  | cons c rest ih =>
      obtain ⟨d, digit⟩ := Option.isSome_iff_exists.mp (digits c List.mem_cons_self)
      exact ungrouped_cons digit after (ih (fun c mem => digits c (List.mem_cons_of_mem _ mem)) _)

theorem stripNum_digits {t : Text} (digits : ∀ c ∈ t, isDecimal c = true) : stripNum t = t := by
  have front : t.dropWhile isNumSpace = t := by
    rw [List.dropWhile_eq_self_iff]
    intro nonempty
    rw [not_isNumSpace (digits _ (List.getElem_mem nonempty))]
    decide
  rw [stripNum, front, List.rdropWhile_eq_self_iff]
  intro nonempty
  rw [not_isNumSpace (digits _ (List.getLast_mem nonempty))]
  decide

/-- Digits alone. -/
theorem float?_digits (round : ℚ → PyFloat) {t : Text} (nonempty : t ≠ [])
    (digits : ∀ c ∈ t, isDecimal c = true) :
    float? round t = some (round (value (t.filterMap digit?))) := by
  simp only [float?, stripNum_digits digits, ungrouped_digits digits, Option.bind_some,
    sign_digits digits]
  exact float?_body round false nonempty digits

end Text
