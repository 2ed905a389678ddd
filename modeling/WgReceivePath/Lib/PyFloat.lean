import Mathlib.Algebra.Order.Field.Rat
import Mathlib.Data.Int.Log
import Mathlib.Data.Rat.Floor

/-!
# Python's floats

The values of Python's `float` type as the extended rationals with a NaN.  Every operation
is the exact one on rationals followed by a rounding `round`, which is a parameter:
`binary64` is what the hardware does, and `PyFloat.fin`, which does not round, is arithmetic
on exact rationals.  A theorem that quantifies over the rounding therefore holds of the
program as it runs and of the program one would like to have; a theorem about the statistics
themselves is stated at `PyFloat.fin`.

The two zeros are one value here: Python tells them apart only in printing and in the sign
of an infinite quotient, and its division by zero is an error.

## Main definitions

* `PyFloat` with its order (`lt`, `le`), which is false whenever a NaN takes part, and its
  operations.  `div` is partial: Python raises `ZeroDivisionError`.
* `sum` adds from the left and rounds at every addition; `mean` is `statistics.mean`, which
  is exact and rounds once.
* `binary64` is the rounding to the nearest double, ties to even, with subnormal numbers and
  overflow to infinity.  It is executable, so that a run of the analyser can be evaluated.

The simp lemmas at the end say that without rounding each operation is the one on rationals.
-/

/-- A value of Python's `float` type: a NaN, one of the two infinities, or a finite number,
which is a rational. -/
inductive PyFloat where
  | nan
  | inf (negative : Bool)
  | fin (q : ℚ)
  deriving DecidableEq, Repr

namespace PyFloat

/-- `math.isfinite`. -/
def isFinite : PyFloat → Bool
  | .fin _ => true
  | _ => false

def neg : PyFloat → PyFloat
  | .nan => .nan
  | .inf n => .inf !n
  | .fin q => .fin (-q)

def abs : PyFloat → PyFloat
  | .nan => .nan
  | .inf _ => .inf false
  | .fin q => .fin |q|

/-- `x < y`, which is false if either is a NaN.  A check of the form `if x < bound: raise`
therefore lets a NaN through, and one of the form `if not x >= bound` does not. -/
def lt : PyFloat → PyFloat → Bool
  | .nan, _ | _, .nan => false
  | .inf n, .inf m => n && !m
  | .inf n, .fin _ => n
  | .fin _, .inf m => !m
  | .fin p, .fin q => decide (p < q)

/-- `x <= y`. -/
def le : PyFloat → PyFloat → Bool
  | .nan, _ | _, .nan => false
  | .inf n, .inf m => n || !m
  | .inf n, .fin _ => n
  | .fin _, .inf m => !m
  | .fin p, .fin q => decide (p ≤ q)

/-- `int(x)`, toward zero; an infinity or a NaN has none, and Python raises `OverflowError`
or `ValueError`. -/
def toInt? : PyFloat → Option ℤ
  | .fin q => some (if 0 ≤ q then ⌊q⌋ else ⌈q⌉)
  | _ => none

section Operations

variable (round : ℚ → PyFloat)

def add : PyFloat → PyFloat → PyFloat
  | .nan, _ | _, .nan => .nan
  | .inf n, .inf m => if n = m then .inf n else .nan
  | .inf n, .fin _ | .fin _, .inf n => .inf n
  | .fin p, .fin q => round (p + q)

def sub (x y : PyFloat) : PyFloat := add round x y.neg

def mul : PyFloat → PyFloat → PyFloat
  | .nan, _ | _, .nan => .nan
  | .inf n, .inf m => .inf (n != m)
  | .inf n, .fin q | .fin q, .inf n => if q = 0 then .nan else .inf (n != decide (q < 0))
  | .fin p, .fin q => round (p * q)

/-- `x / y`; `none` is `ZeroDivisionError`. -/
def div : PyFloat → PyFloat → Option PyFloat
  | _, .fin 0 => none
  | .nan, _ | _, .nan => some .nan
  | .inf _, .inf _ => some .nan
  | .inf n, .fin q => some (.inf (n != decide (q < 0)))
  | .fin _, .inf _ => some (.fin 0)
  | .fin p, .fin q => some (round (p / q))

/-- The built-in `sum`, from the left, with a rounding at every addition. -/
def sum (xs : List PyFloat) : PyFloat := xs.foldl (add round) (.fin 0)

/-- The rationals among the values, if there is no infinity and no NaN. -/
def finite? (xs : List PyFloat) : Option (List ℚ) :=
  xs.mapM fun
    | .fin q => some q
    | _ => none

/-- `statistics.mean` of a non-empty list: exact, and rounded once.  With values that
are not finite, it is the sum of these. -/
def mean (xs : List PyFloat) : PyFloat :=
  match finite? xs with
  | some qs => round (qs.sum / qs.length)
  | none => sum round (xs.filter fun x => !x.isFinite)

end Operations

/-! ## Rounding to binary64 -/

/-- The integer nearest to a nonnegative rational, ties to even.  It is applied to the
quotient of a number by its last place. -/
def roundHalfEven (q : ℚ) : ℤ :=
  let n := ⌊q⌋
  let rest := q - n
  if rest < 1 / 2 then n
  else if 1 / 2 < rest then n + 1
  else if n % 2 = 0 then n else n + 1

/-- Round to the nearest binary64 number, ties to even; the exponent is at least that
of the subnormal numbers, and values that round to `2 ^ 1024` or more are infinite. -/
def binary64 (q : ℚ) : PyFloat :=
  if q = 0 then .fin 0
  else
    let ulp : ℚ := 2 ^ (max (Int.log 2 |q|) (-1022) - 52)
    let magnitude : ℚ := roundHalfEven (|q| / ulp) * ulp
    if 2 ^ 1024 ≤ magnitude then .inf (decide (q < 0))
    else .fin (if q < 0 then -magnitude else magnitude)

/-! ## Arithmetic without rounding -/

section Exact

variable (p q : ℚ)

@[simp] theorem isFinite_fin : (fin q).isFinite = true := rfl

theorem isFinite_iff {x : PyFloat} : x.isFinite = true ↔ ∃ q, x = fin q := by
  cases x <;> simp [isFinite]

@[simp] theorem neg_fin : (fin q).neg = fin (-q) := rfl

@[simp] theorem abs_fin : (fin q).abs = fin |q| := rfl

@[simp] theorem lt_fin : (fin p).lt (fin q) = decide (p < q) := rfl

@[simp] theorem le_fin : (fin p).le (fin q) = decide (p ≤ q) := rfl

@[simp] theorem add_fin : add fin (fin p) (fin q) = fin (p + q) := rfl

@[simp] theorem sub_fin : sub fin (fin p) (fin q) = fin (p - q) := by
  simp [sub, sub_eq_add_neg]

@[simp] theorem mul_fin : mul fin (fin p) (fin q) = fin (p * q) := rfl

theorem div_fin {q : ℚ} (nonzero : q ≠ 0) : div fin (fin p) (fin q) = some (fin (p / q)) := by
  unfold div
  split <;> simp_all

theorem foldl_add_fin (start : ℚ) (qs : List ℚ) :
    (qs.map fin).foldl (add fin) (fin start) = fin (start + qs.sum) := by
  induction qs generalizing start with
  | nil => simp
  | cons q qs ih =>
      rw [List.map_cons, List.foldl_cons, add_fin, ih, List.sum_cons, add_assoc]

@[simp] theorem sum_fin (qs : List ℚ) : sum fin (qs.map fin) = fin qs.sum := by
  rw [sum, foldl_add_fin, zero_add]

theorem finite?_fin (qs : List ℚ) : finite? (qs.map fin) = some qs := by
  unfold finite?
  induction qs with
  | nil => rfl
  | cons q qs ih => simp [ih]

@[simp] theorem mean_fin (qs : List ℚ) : mean fin (qs.map fin) = fin (qs.sum / qs.length) := by
  rw [mean, finite?_fin]

end Exact

end PyFloat
