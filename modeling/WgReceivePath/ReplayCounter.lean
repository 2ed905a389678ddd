import Mathlib.Data.Nat.Notation
import Mathlib.Logic.Function.Basic

/-!
# The replay counter

`counter_validate` (receive.c) decides from a keypair's `noise_replay_counter` whether a
packet's nonce is fresh.  It is the RFC 6479 bitmap: a ring of words that is cleared a word
at a time as the window advances.  The arithmetic is that of the source, on 64-bit words;
the spin lock around it makes the whole call one atomic step of the receive path.

The function has three parts, and each is a definition here: `advance` moves the counter up
and clears the words that the window enters (`clearWords` is its loop), `testAndSet` is the
`test_and_set_bit` on the word of the number, and `counterValidate` puts the two limits in
front of them.  The constants keep the names of messages.h and are of the width they have
there, so that a sum that could wrap is written as it is in the source.  What the function
computes is in `ReplayWindow`; the receive path only calls it.
-/

namespace WgReceivePath

/-- `COUNTER_BITS_TOTAL` (messages.h). -/
def COUNTER_BITS_TOTAL : BitVec 64 := 8192

/-- `BITS_PER_LONG`. -/
def BITS_PER_LONG : BitVec 64 := 64

/-- The window, `COUNTER_BITS_TOTAL - BITS_PER_LONG`: one word less than the ring, so that
the word that is being filled never shares its place with a number that is still in the
window. -/
def COUNTER_WINDOW_SIZE : BitVec 64 := COUNTER_BITS_TOTAL - BITS_PER_LONG

/-- The limit on nonces, `U64_MAX - COUNTER_WINDOW_SIZE - 1`: below it, adding the window
size does not wrap. -/
def REJECT_AFTER_MESSAGES : BitVec 64 := BitVec.allOnes 64 - COUNTER_WINDOW_SIZE - 1

/-- `struct noise_replay_counter` without its lock. -/
structure ReplayCounter where
  counter : BitVec 64
  backtrack : BitVec 64 → BitVec 64

namespace ReplayCounter

/-- A zeroed counter. -/
def zero : ReplayCounter := ⟨0, fun _ => 0⟩

/-- The word of the ring that holds the bits of word index `index`. -/
def slot (index : BitVec 64) : BitVec 64 :=
  index &&& (COUNTER_BITS_TOTAL / BITS_PER_LONG - 1)

/-- `for (i = 1; i <= top; ++i) backtrack[(i + index_current) & …] = 0`, with the
iterations still to do counted down. -/
def clearWords (indexCurrent : BitVec 64) :
    ℕ → (BitVec 64 → BitVec 64) → BitVec 64 → BitVec 64
  | 0, backtrack => backtrack
  | n + 1, backtrack =>
      Function.update (clearWords indexCurrent n backtrack)
        (slot (BitVec.ofNat 64 (n + 1) + indexCurrent)) 0

/-- Move the window up to `their`, clearing the words it enters. -/
def advance (c : ReplayCounter) (their : BitVec 64) : ReplayCounter :=
  let index := their >>> 6
  let indexCurrent := c.counter >>> 6
  let words := COUNTER_BITS_TOTAL / BITS_PER_LONG
  let top := if index - indexCurrent < words then index - indexCurrent else words
  { counter := their
    backtrack := clearWords indexCurrent top.toNat c.backtrack }

/-- `test_and_set_bit` on the bit of `their`; the result is `true` when the bit
was clear. -/
def testAndSet (c : ReplayCounter) (their : BitVec 64) : ReplayCounter × Bool :=
  let index := slot (their >>> 6)
  let mask := 1#64 <<< (their &&& (BITS_PER_LONG - 1)).toNat
  let word := c.backtrack index
  ({ c with backtrack := Function.update c.backtrack index (word ||| mask) },
    word &&& mask == 0)

/-- `counter_validate`: refuse at the limits, refuse what is behind the window, else advance
if the number is ahead of the counter and test and set its bit. -/
def counterValidate (c : ReplayCounter) (theirCounter : BitVec 64) :
    ReplayCounter × Bool :=
  if c.counter ≥ REJECT_AFTER_MESSAGES + 1 ∨ theirCounter ≥ REJECT_AFTER_MESSAGES then
    (c, false)
  else
    let their := theirCounter + 1
    if COUNTER_WINDOW_SIZE + their < c.counter then (c, false)
    else testAndSet (if their > c.counter then c.advance their else c) their

end ReplayCounter

end WgReceivePath
