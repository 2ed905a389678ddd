import Mathlib.Data.Nat.Notation

/-!
# The diagnostic counters

With `wg_diag` set the poll counts what it saw at its completion point and accounts
delivery-blocked *episodes*: an episode opens at a poll that delivered nothing, under the
class of the head it observed, and closes at the next poll that delivers or that observes
the other class (receive.c, `wg_stall_close`).

`DiagStats` are the module parameters that hold the counts, `PeerStall` the two fields of a
peer that hold its open episode.  The counters are plain `unsigned long`s, so they wrap, and
all CPUs write the same ones without a lock; in the machine each of these writes is a step
of the poll that makes it.  `wgStallClose` and `StallArray.account` are the two functions
that the classifier calls; when it calls them is part of the poll (`pollControl`), and what
they add up to over a run is in `Episodes`.
-/

namespace WgReceivePath

/-- The head class of the classifier, the `u8` that `rx_stall_class` holds. -/
inductive HeadClass where
  /-- `0`: the head is deliverable, or no episode is open -/
  | none
  /-- `1`: the queue looked empty -/
  | empty
  /-- `2`: the head is `UNCRYPTED` -/
  | uncrypted
  deriving DecidableEq, Repr

/-- One of the arrays `wg_diag_stall_empty[7]`, `wg_diag_stall_uncrypt[7]`: the number of
episodes, their total and their greatest duration, and a histogram of the durations in four
bins. -/
structure StallArray where
  episodes : BitVec 64
  totalNs : BitVec 64
  maxNs : BitVec 64
  le16us : BitVec 64
  le128us : BitVec 64
  le1ms : BitVec 64
  gt1ms : BitVec 64
  deriving DecidableEq, Repr

/-- The `wg_diag_*` module parameters, one field for each, in the order of main.c. -/
structure DiagStats where
  emptyMissed : BitVec 64
  emptyNomiss : BitVec 64
  uncryptMissed : BitVec 64
  uncryptNomiss : BitVec 64
  suppCleared : BitVec 64
  suppRearmed : BitVec 64
  suppResetRace : BitVec 64
  stallEmpty : StallArray
  stallUncrypt : StallArray
  stealPulled : BitVec 64
  stealUnblocked : BitVec 64
  stealDryruns : BitVec 64
  deriving DecidableEq, Repr

/-- The open episode of a peer: `rx_stall_start_ns` and `rx_stall_class`. -/
structure PeerStall where
  startNs : BitVec 64
  cls : HeadClass
  deriving DecidableEq, Repr

def StallArray.zero : StallArray := ⟨0, 0, 0, 0, 0, 0, 0⟩

def DiagStats.zero : DiagStats :=
  ⟨0, 0, 0, 0, 0, 0, 0, .zero, .zero, 0, 0, 0⟩

/-- No episode is open. -/
def PeerStall.closed : PeerStall := ⟨0, .none⟩

/-- Account one episode of duration `d`: the count, the sum, the maximum and one of the four
bins. -/
def StallArray.account (a : StallArray) (d : BitVec 64) : StallArray :=
  let a := { a with
    episodes := a.episodes + 1
    totalNs := a.totalNs + d
    maxNs := if d > a.maxNs then d else a.maxNs }
  if d ≤ 16000 then { a with le16us := a.le16us + 1 }
  else if d ≤ 128000 then { a with le128us := a.le128us + 1 }
  else if d ≤ 1000000 then { a with le1ms := a.le1ms + 1 }
  else { a with gt1ms := a.gt1ms + 1 }

/-- Close the open episode at the time `now` that `ktime_get_ns` returns: its duration goes
to the array of its class.  The class is compared with `2` only, so that every other one
counts as empty. -/
def wgStallClose (now : BitVec 64) (peer : PeerStall) (stats : DiagStats) : DiagStats :=
  let d := now - peer.startNs
  if peer.cls = .uncrypted then
    { stats with stallUncrypt := stats.stallUncrypt.account d }
  else { stats with stallEmpty := stats.stallEmpty.account d }

/-- The counters of the completion point: the head class against `MISSED`. -/
def DiagStats.classify (stats : DiagStats) (cls : HeadClass) (miss : Bool) : DiagStats :=
  match cls, miss with
  | .none, _ => stats
  | .empty, true => { stats with emptyMissed := stats.emptyMissed + 1 }
  | .empty, false => { stats with emptyNomiss := stats.emptyNomiss + 1 }
  | .uncrypted, true => { stats with uncryptMissed := stats.uncryptMissed + 1 }
  | .uncrypted, false => { stats with uncryptNomiss := stats.uncryptNomiss + 1 }

end WgReceivePath
