import WgReceivePath.Step
import Mathlib

/-!
# The blocked episodes

With `wg_diag` set a poll accounts delivery-blocked episodes in three places: the close
after the steal loop, and the close and the open at the completion point.  A timestamp that
is zero stands for "no episode is open".

## Two levels

* `Classifier.poll` is what one poll does to the per-peer fields and the arrays, put
  together from the same steps as the machine: `pollControl_stall` says of each step of the
  poll that it changes the diagnostic data as the classifier does.
* `Episodes.poll` says what an episode is, without arrays and without the timestamp as a
  flag: it opens at a poll that delivered nothing and saw a class, and closes at the first
  later poll that delivered or saw the other class.

## What carries the proof

`Tracks` connects the two levels: the per-peer fields say which episode is open, and the
arrays are the account of the closed ones (`Accounted`).  A poll keeps it (`Tracks.poll`),
so the arrays after any sequence of polls are those of its closed episodes
(`stall_accounting`).  That the flag can be trusted rests on the clock being positive
(`Tracks.startNs`).  The counters of episodes wrap (`stall_accounting_wraps`); the totals do
not, since the episodes are disjoint and their total is bounded by the time that has passed
(`Tracks.elapsed`).
-/

namespace WgReceivePath

/-! ## One poll -/

/-- A call of `wg_packet_rx_poll` as the classifier sees it: what it delivered, and what it
saw at the completion point if it came there. -/
structure PollRun where
  workDone : ℕ
  /-- the head class and `MISSED` at the completion point, if `work_done < budget` -/
  completion : Option (HeadClass × Bool)
  /-- the budget is positive, so a poll that uses it up has delivered -/
  full : completion = none → 0 < workDone

/-- The class that the poll observed. -/
def PollRun.cls (run : PollRun) : HeadClass :=
  match run.completion with
  | none => .none
  | some (cls, _) => cls

/-- The diagnostic data, and how often `ktime_get_ns` has been called.  The clock is a
function of the number of the reading, so that a poll which reads it twice may get two
values. -/
structure Classifier where
  stats : DiagStats
  stall : PeerStall
  calls : ℕ

namespace Classifier

/-- Everything zero. -/
def start : Classifier := ⟨.zero, .closed, 0⟩

variable (clock : ℕ → BitVec 64)

/-- `wg_stall_close`. -/
def close (c : Classifier) : Classifier :=
  ⟨wgStallClose (clock c.calls) c.stall c.stats, .closed, c.calls + 1⟩

/-- A poll that delivered anything ends the open episode. -/
def delivered (workDone : ℕ) (c : Classifier) : Classifier :=
  if 0 < workDone ∧ c.stall.startNs ≠ 0 then c.close clock else c

/-- The class flipped in the middle of an episode. -/
def flipped (cls : HeadClass) (c : Classifier) : Classifier :=
  if c.stall.startNs ≠ 0 ∧ c.stall.cls ≠ cls then c.close clock else c

/-- A wasted poll opens an episode. -/
def opened (cls : HeadClass) (c : Classifier) : Classifier :=
  if c.stall.startNs = 0 then { c with stall := ⟨clock c.calls, cls⟩, calls := c.calls + 1 }
  else c

/-- The classifier of one poll (receive.c, `wg_packet_rx_poll` after the steal loop). -/
def poll (c : Classifier) (run : PollRun) : Classifier :=
  let c := c.delivered clock run.workDone
  match run.completion with
  | none => c
  | some (cls, miss) =>
      let c := { c with stats := c.stats.classify cls miss }
      if run.workDone = 0 ∧ cls ≠ .none then (c.flipped clock cls).opened clock cls else c

/-- The array of a class. -/
def array (c : Classifier) (cls : HeadClass) : StallArray :=
  if cls = .uncrypted then c.stats.stallUncrypt else c.stats.stallEmpty

end Classifier

/-! ## The machine

Each step of the poll that touches the diagnostic data does what the classifier says it does
there.  The classifier is thus no second description of the source, but the same steps put
in one place. -/

/-- What the classifier of `p` has, at the present time. -/
def State.classifier (s : State) (p : Peer) : Classifier := ⟨s.stats, s.stall p, 0⟩

/-- **The poll's steps in the machine are those of the classifier.**  With `wg_diag` set,
the arrays and the per-peer fields change at three program points only. -/
theorem pollControl_stall {cfg : Config} {s : State} {p : Peer} {f : PollFrame}
    {stats : DiagStats} {stall : PeerStall} (diag : s.knobs.diag ≠ 0)
    (taken : pollControl cfg s p = some (f, stats, stall)) :
    let c := s.classifier p
    let c' : Classifier :=
      match (s.poll p).pc with
      | .diagClose => c.delivered (fun _ => s.clock) (s.poll p).workDone
      | .diagClass cls => { c with stats := c.stats.classify cls (s.poll p).miss }
      | .stallFlip cls => c.flipped (fun _ => s.clock) cls
      | .stallOpen cls => c.opened (fun _ => s.clock) cls
      | _ => c
    stall = c'.stall ∧ stats.stallEmpty = c'.stats.stallEmpty ∧
      stats.stallUncrypt = c'.stats.stallUncrypt := by
  intro c c'
  cases pc : (s.poll p).pc <;> simp only [pollControl, pc] at taken <;>
    simp only [c', pc]
  case diagClose =>
    split at taken <;> rename_i delivered <;> cases taken
    · have same : c.delivered (fun _ => s.clock) (s.poll p).workDone =
          c.close fun _ => s.clock := if_pos delivered.2
      rw [same]
      exact ⟨rfl, rfl, rfl⟩
    · have same : c.delivered (fun _ => s.clock) (s.poll p).workDone = c :=
        if_neg fun both => delivered ⟨diag, both⟩
      rw [same]
      exact ⟨rfl, rfl, rfl⟩
  case stallFlip cls =>
    split at taken <;> rename_i flip <;> cases taken
    · have same : c.flipped (fun _ => s.clock) cls = c.close fun _ => s.clock := if_pos flip
      rw [same]
      exact ⟨rfl, rfl, rfl⟩
    · have same : c.flipped (fun _ => s.clock) cls = c := if_neg flip
      rw [same]
      exact ⟨rfl, rfl, rfl⟩
  case stallOpen cls =>
    cases taken
    by_cases free : (s.stall p).startNs = 0
    · have same : c.opened (fun _ => s.clock) cls =
          { c with stall := ⟨s.clock, cls⟩, calls := 1 } := if_pos free
      rw [same, if_pos free]
      exact ⟨rfl, rfl, rfl⟩
    · have same : c.opened (fun _ => s.clock) cls = c := if_neg free
      rw [same, if_neg free]
      exact ⟨rfl, rfl, rfl⟩
  -- the other steps leave the arrays alone
  all_goals
    first
    | (cases taken; done)
    | (cases taken; exact ⟨rfl, rfl, rfl⟩)
    | (split at taken <;> cases taken <;> exact ⟨rfl, rfl, rfl⟩)
    | (cases taken; split <;> exact ⟨rfl, rfl, rfl⟩)

/-! ## What an episode is

The specification.  It knows which episode is open and when it began; it has no arrays, no
flag value and no word size. -/

/-- The episodes of a sequence of polls: the open one with its class and its opening time,
and the closed ones with class and duration, in the order in which they closed. -/
structure Episodes where
  current : Option (HeadClass × ℕ)
  closed : List (HeadClass × ℕ)
  /-- the readings of the clock so far -/
  calls : ℕ

namespace Episodes

def start : Episodes := ⟨none, [], 0⟩

/-- The durations of the closed episodes of a class. -/
def durations (e : Episodes) (cls : HeadClass) : List ℕ :=
  (e.closed.filter (·.1 = cls)).map Prod.snd

variable (clock : ℕ → BitVec 64)

/-- The episode of class `cls` that began at `start` ends. -/
def close (e : Episodes) (cls : HeadClass) (start : ℕ) : Episodes :=
  ⟨none, e.closed ++ [(cls, (clock e.calls).toNat - start)], e.calls + 1⟩

/-- An episode of class `cls` begins. -/
def opens (e : Episodes) (cls : HeadClass) : Episodes :=
  ⟨some (cls, (clock e.calls).toNat), e.closed, e.calls + 1⟩

/-- An episode opens at a poll that delivered nothing and observed a class, when none is
open.  It closes at the first later poll that delivered, or that delivered nothing and
observed another class, which opens a new one. -/
def poll (e : Episodes) (run : PollRun) : Episodes :=
  match e.current with
  | none => if run.workDone = 0 ∧ run.cls ≠ .none then e.opens clock run.cls else e
  | some (cls, start) =>
      if 0 < run.workDone then e.close clock cls start
      else if run.cls ≠ .none ∧ run.cls ≠ cls then
        (e.close clock cls start).opens clock run.cls
      else e

theorem durations_close_self (e : Episodes) (cls : HeadClass) (start : ℕ) :
    (e.close clock cls start).durations cls =
      e.durations cls ++ [(clock e.calls).toNat - start] := by
  simp [durations, close]

theorem durations_close_of_ne (e : Episodes) {cls cls' : HeadClass} (start : ℕ)
    (ne : cls ≠ cls') : (e.close clock cls start).durations cls' = e.durations cls' := by
  simp [durations, close, ne]

end Episodes

/-! ## The arrays

The account of a list of durations: their number, their sum, their maximum and their
histogram, each at the width of its counter. -/

/-- The array is the account of the durations `ds`: their number, total and maximum, and
their histogram.  The entries that count are read modulo `2 ^ 64`, the maximum is exact. -/
structure Accounted (a : StallArray) (ds : List ℕ) : Prop where
  episodes : a.episodes = BitVec.ofNat 64 ds.length
  totalNs : a.totalNs = BitVec.ofNat 64 ds.sum
  maxNs : a.maxNs.toNat = ds.foldl max 0
  le16us : a.le16us = BitVec.ofNat 64 (ds.countP (· ≤ 16000))
  le128us : a.le128us = BitVec.ofNat 64 (ds.countP fun d => 16000 < d ∧ d ≤ 128000)
  le1ms : a.le1ms = BitVec.ofNat 64 (ds.countP fun d => 128000 < d ∧ d ≤ 1000000)
  gt1ms : a.gt1ms = BitVec.ofNat 64 (ds.countP (1000000 < ·))

theorem Accounted.zero : Accounted .zero [] :=
  ⟨rfl, rfl, rfl, rfl, rfl, rfl, rfl⟩

/-- `wg_stall_close` on an array, entry by entry. -/
theorem StallArray.account_eq (a : StallArray) (d : BitVec 64) : a.account d =
    { episodes := a.episodes + 1
      totalNs := a.totalNs + d
      maxNs := if d > a.maxNs then d else a.maxNs
      le16us := a.le16us + if d.toNat ≤ 16000 then 1 else 0
      le128us := a.le128us + if 16000 < d.toNat ∧ d.toNat ≤ 128000 then 1 else 0
      le1ms := a.le1ms + if 128000 < d.toNat ∧ d.toNat ≤ 1000000 then 1 else 0
      gt1ms := a.gt1ms + if 1000000 < d.toNat then 1 else 0 } := by
  have le16 : d ≤ 16000 ↔ d.toNat ≤ 16000 := BitVec.le_def
  have le128 : d ≤ 128000 ↔ d.toNat ≤ 128000 := BitVec.le_def
  have le1m : d ≤ 1000000 ↔ d.toNat ≤ 1000000 := BitVec.le_def
  simp only [account, le16, le128, le1m]
  by_cases first : d.toNat ≤ 16000
  · have not128 : ¬(16000 < d.toNat ∧ d.toNat ≤ 128000) := by omega
    have not1m : ¬(128000 < d.toNat ∧ d.toNat ≤ 1000000) := by omega
    have notMore : ¬1000000 < d.toNat := by omega
    simp [first, not128, not1m, notMore]
  · by_cases second : d.toNat ≤ 128000
    · have not1m : ¬(128000 < d.toNat ∧ d.toNat ≤ 1000000) := by omega
      have notMore : ¬1000000 < d.toNat := by omega
      simp [first, second, not1m, notMore, Nat.lt_of_not_le first]
    · by_cases third : d.toNat ≤ 1000000
      · have notMore : ¬1000000 < d.toNat := by omega
        simp [first, second, third, notMore, Nat.lt_of_not_le second]
      · simp [first, second, third, Nat.lt_of_not_le third]

/-- One more episode.  Each field of the array takes in its duration, and the histogram
counts it in one bucket. -/
theorem Accounted.account {a : StallArray} {ds : List ℕ} (h : Accounted a ds)
    (d : BitVec 64) : Accounted (a.account d) (ds ++ [d.toNat]) := by
  have bin : ∀ P : ℕ → Bool, BitVec.ofNat 64 ((ds ++ [d.toNat]).countP P) =
      BitVec.ofNat 64 (ds.countP P) + if P d.toNat then 1 else 0 := by
    intro P
    rw [List.countP_append, List.countP_singleton, BitVec.ofNat_add]
    cases P d.toNat <;> rfl
  rw [StallArray.account_eq]
  refine ⟨?_, ?_, ?_, ?_, ?_, ?_, ?_⟩
  · rw [List.length_append, BitVec.ofNat_add, h.episodes]
    rfl
  · rw [List.sum_append, List.sum_singleton, BitVec.ofNat_add, h.totalNs, BitVec.ofNat_toNat,
      BitVec.setWidth_eq]
  · rw [List.foldl_append, ← h.maxNs, List.foldl_cons, List.foldl_nil]
    show (if d > a.maxNs then d else a.maxNs).toNat = max a.maxNs.toNat d.toNat
    split <;> rename_i larger
    · exact (max_eq_right (Nat.le_of_lt (BitVec.lt_def.mp larger))).symm
    · exact (max_eq_left (Nat.le_of_not_lt fun lt => larger (BitVec.lt_def.mpr lt))).symm
  · rw [bin, h.le16us]
    simp
  · rw [bin, h.le128us]
    simp
  · rw [bin, h.le1ms]
    simp
  · rw [bin, h.gt1ms]
    simp

/-- Every duration is in one bin. -/
theorem Accounted.histogram {a : StallArray} {ds : List ℕ} (h : Accounted a ds) :
    a.episodes = a.le16us + a.le128us + a.le1ms + a.gt1ms := by
  have split : ds.length = ds.countP (· ≤ 16000) +
      ds.countP (fun d => 16000 < d ∧ d ≤ 128000) +
      ds.countP (fun d => 128000 < d ∧ d ≤ 1000000) + ds.countP (1000000 < ·) := by
    clear h
    induction ds with
    | nil => rfl
    | cons d rest ih =>
        simp only [List.length_cons, List.countP_cons, decide_eq_true_eq]
        split_ifs <;> omega
  rw [h.episodes, h.le16us, h.le128us, h.le1ms, h.gt1ms, split, BitVec.ofNat_add,
    BitVec.ofNat_add, BitVec.ofNat_add]

/-! ## The classifier tracks the episodes

A poll closes at most two episodes and opens at most one.  The lemmas follow it through its
three places, and the two levels agree after each; the durations of closed episodes stay
disjoint, since an episode opens at the clock of a poll and closes at that of a later one.
-/

section Tracks

variable {clock : ℕ → BitVec 64} {c : Classifier} {e : Episodes} {cls : HeadClass}

/-- The per-peer fields say which episode is open, the arrays are those of the closed ones,
and the closed ones fit before the open one, or before the last reading of the clock. -/
structure Tracks (clock : ℕ → BitVec 64) (c : Classifier) (e : Episodes) : Prop where
  calls : c.calls = e.calls
  idle : e.current = none → c.stall = .closed
  busy : ∀ cls start, e.current = some (cls, start) →
    cls ≠ .none ∧ c.stall.cls = cls ∧ c.stall.startNs.toNat = start ∧ 0 < start ∧
      start ≤ (clock (e.calls - 1)).toNat
  accounted : ∀ cls, cls ≠ .none → Accounted (c.array cls) (e.durations cls)
  elapsed : (clock 0).toNat + (e.durations .empty).sum + (e.durations .uncrypted).sum ≤
    match e.current with
    | none => (clock (e.calls - 1)).toNat
    | some (_, start) => start

theorem tracks_start : Tracks clock .start .start := by
  refine ⟨rfl, fun _ => rfl, ?_, ?_, ?_⟩
  · intro cls start none
    cases none
  · intro cls _
    cases cls <;> exact .zero
  · exact Nat.le_refl _

/-- The counters of the completion point are apart from the arrays. -/
theorem Tracks.classify (h : Tracks clock c e) (cls : HeadClass) (miss : Bool) :
    Tracks clock { c with stats := c.stats.classify cls miss } e := by
  refine ⟨h.calls, h.idle, h.busy, fun cls' some => ?_, h.elapsed⟩
  have same : ({ c with stats := c.stats.classify cls miss } : Classifier).array cls' =
      c.array cls' := by
    cases cls <;> cases miss <;> rfl
  rw [same]
  exact h.accounted cls' some

/-- The close of an episode, at the clock of this poll.  Its duration is the difference of
the two readings, which does not wrap because the clock has not gone back. -/
theorem Tracks.close {start : ℕ} (h : Tracks clock c e)
    (monotone : Monotone fun k => (clock k).toNat) (current : e.current = some (cls, start)) :
    Tracks clock (c.close clock) (e.close clock cls start) := by
  obtain ⟨some, same, began, -, past⟩ := h.busy cls start current
  have past : start ≤ (clock e.calls).toNat := past.trans (monotone (Nat.sub_le _ _))
  have duration : (clock c.calls - c.stall.startNs).toNat = (clock e.calls).toNat - start := by
    have below : c.stall.startNs ≤ clock c.calls := by
      rw [BitVec.le_def, began, h.calls]
      exact past
    rw [BitVec.toNat_sub_of_le below, began, h.calls]
  have fits := h.elapsed
  rw [current] at fits
  refine ⟨by rw [Classifier.close, Episodes.close, h.calls], fun _ => rfl, ?_, ?_, ?_⟩
  · intro cls' start' none
    cases none
  · intro cls' some'
    rcases eq_or_ne cls cls' with rfl | ne
    · have more := (h.accounted cls some).account (clock c.calls - c.stall.startNs)
      rw [duration] at more
      rw [Episodes.durations_close_self]
      have same : (c.close clock).array cls =
          (c.array cls).account (clock c.calls - c.stall.startNs) := by
        cases cls with
        | none => exact absurd rfl some
        | empty => simp [Classifier.array, Classifier.close, wgStallClose, same]
        | uncrypted => simp [Classifier.array, Classifier.close, wgStallClose, same]
      rw [same]
      exact more
    · rw [Episodes.durations_close_of_ne clock e start ne]
      have other : (c.close clock).array cls' = c.array cls' := by
        cases cls <;> cases cls' <;>
          simp_all [Classifier.array, Classifier.close, wgStallClose]
      rw [other]
      exact h.accounted cls' some'
  · -- the closed episode fills the time between its opening and this reading
    show _ ≤ (clock e.calls).toNat
    cases cls with
    | none => exact absurd rfl some
    | empty =>
        rw [Episodes.durations_close_self, Episodes.durations_close_of_ne clock e start (by simp),
          List.sum_append, List.sum_singleton]
        simp only at fits
        omega
    | uncrypted =>
        rw [Episodes.durations_close_self, Episodes.durations_close_of_ne clock e start (by simp),
          List.sum_append, List.sum_singleton]
        simp only at fits
        omega

theorem Tracks.opens (h : Tracks clock c e) (monotone : Monotone fun k => (clock k).toNat)
    (positive : ∀ k, 0 < (clock k).toNat) (current : e.current = none) (some : cls ≠ .none) :
    Tracks clock (c.opened clock cls) (e.opens clock cls) := by
  have free : c.stall.startNs = 0 := by rw [h.idle current]; rfl
  have fits := h.elapsed
  rw [current] at fits
  rw [Classifier.opened, if_pos free]
  refine ⟨by rw [Episodes.opens, h.calls], ?_, ?_, h.accounted, ?_⟩
  · intro none
    cases none
  · rintro cls' start' same
    cases same
    refine ⟨some, rfl, by rw [h.calls], positive _, ?_⟩
    exact Nat.le_refl _
  · exact fits.trans (monotone (Nat.sub_le _ _))

/-- An episode is open exactly if the timestamp is not zero. -/
theorem Tracks.startNs (h : Tracks clock c e) :
    c.stall.startNs = 0 ↔ e.current = none := by
  cases current : e.current with
  | none => simp [h.idle current, PeerStall.closed]
  | some running =>
      obtain ⟨-, -, began, positive, -⟩ := h.busy running.1 running.2 current
      have nonzero : c.stall.startNs ≠ 0 := by
        intro zero
        rw [zero] at began
        exact positive.ne began
      simpa using nonzero

/-- **A poll keeps track**: whatever it delivered and saw, the classifier does to its data
what the poll does to the episodes. -/
theorem Tracks.poll (h : Tracks clock c e) (monotone : Monotone fun k => (clock k).toNat)
    (positive : ∀ k, 0 < (clock k).toNat) (run : PollRun) :
    Tracks clock (c.poll clock run) (e.poll clock run) := by
  cases current : e.current with
  | none =>
      have free : c.stall.startNs = 0 := h.startNs.mpr current
      have still : c.delivered clock run.workDone = c := if_neg fun both => both.2 free
      rw [Classifier.poll, still, Episodes.poll, current]
      rcases run with ⟨work, _ | ⟨cls, miss⟩, full⟩
      · show Tracks clock c (if work = 0 ∧ HeadClass.none ≠ .none then _ else e)
        rw [if_neg fun both => both.2 rfl]
        exact h
      · show Tracks clock (if work = 0 ∧ cls ≠ .none then _ else _)
          (if work = 0 ∧ cls ≠ .none then _ else _)
        split <;> rename_i wasted
        · rw [Classifier.flipped, if_neg fun both => both.1 free]
          exact (h.classify _ miss).opens monotone positive current wasted.2
        · exact h.classify _ miss
  | some running =>
      obtain ⟨cls, start⟩ := running
      have taken : c.stall.startNs ≠ 0 := fun zero => by simp [h.startNs.mp zero] at current
      have same : c.stall.cls = cls := (h.busy cls start current).2.1
      rw [Classifier.poll, Episodes.poll, current]
      by_cases productive : 0 < run.workDone
      · have ended : c.delivered clock run.workDone = c.close clock :=
          if_pos ⟨productive, taken⟩
        have closed := h.close monotone current
        rw [ended]
        simp only [if_pos productive]
        rcases run with ⟨work, _ | ⟨cls', miss⟩, full⟩
        · exact closed
        · show Tracks clock (if work = 0 ∧ cls' ≠ .none then _ else _) _
          rw [if_neg fun wasted => productive.ne' wasted.1]
          exact closed.classify _ miss
      · have still : c.delivered clock run.workDone = c := if_neg fun both => productive both.1
        rw [still]
        simp only [if_neg productive]
        rcases run with ⟨work, _ | ⟨cls', miss⟩, full⟩
        · exact absurd (full rfl) productive
        · have marked := h.classify cls' miss
          show Tracks clock (if work = 0 ∧ cls' ≠ .none then _ else _)
            (if cls' ≠ .none ∧ cls' ≠ cls then _ else _)
          by_cases observed : cls' = .none
          · rw [if_neg fun both => both.2 observed, if_neg fun both => both.1 observed]
            exact marked
          · rw [if_pos ⟨Nat.eq_zero_of_not_pos productive, observed⟩]
            by_cases flip : cls' = cls
            · -- the class is still the one the episode opened with
              rw [Classifier.flipped, if_neg fun both => both.2 (same.trans flip.symm),
                Classifier.opened, if_neg taken, if_neg fun both => both.2 flip]
              exact marked
            · rw [Classifier.flipped, if_pos ⟨taken, fun eq => flip (eq.symm.trans same)⟩,
                if_pos ⟨observed, flip⟩]
              exact (marked.close monotone current).opens monotone positive rfl observed

/-- Any sequence of polls. -/
theorem Tracks.polls (h : Tracks clock c e) (monotone : Monotone fun k => (clock k).toNat)
    (positive : ∀ k, 0 < (clock k).toNat) (runs : List PollRun) :
    Tracks clock (runs.foldl (Classifier.poll clock) c) (runs.foldl (Episodes.poll clock) e) := by
  induction runs generalizing c e with
  | nil => exact h
  | cons run rest ih => exact ih (h.poll monotone positive run)

end Tracks

/-- **The stall classifier accounts exactly the blocked episodes.**  After any sequence of
polls the arrays hold the number of closed episodes of their class, the total and the maximum
of their durations, and their histogram, the counters modulo `2 ^ 64`; the class is set
exactly while the timestamp is; and the totals together do not exceed the elapsed time. -/
theorem stall_accounting (clock : ℕ → BitVec 64) (monotone : Monotone fun k => (clock k).toNat)
    (positive : ∀ k, 0 < (clock k).toNat) (runs : List PollRun) :
    let c := runs.foldl (Classifier.poll clock) .start
    let e := runs.foldl (Episodes.poll clock) .start
    (∀ cls, cls ≠ .none →
      (c.array cls).episodes = BitVec.ofNat 64 (e.durations cls).length ∧
      (c.array cls).totalNs.toNat = (e.durations cls).sum ∧
      (c.array cls).maxNs.toNat = (e.durations cls).foldl max 0 ∧
      (c.array cls).le16us = BitVec.ofNat 64 ((e.durations cls).countP (· ≤ 16000)) ∧
      (c.array cls).le128us =
        BitVec.ofNat 64 ((e.durations cls).countP fun d => 16000 < d ∧ d ≤ 128000) ∧
      (c.array cls).le1ms =
        BitVec.ofNat 64 ((e.durations cls).countP fun d => 128000 < d ∧ d ≤ 1000000) ∧
      (c.array cls).gt1ms = BitVec.ofNat 64 ((e.durations cls).countP (1000000 < ·)) ∧
      (c.array cls).episodes = (c.array cls).le16us + (c.array cls).le128us +
        (c.array cls).le1ms + (c.array cls).gt1ms) ∧
    (c.stall.cls ≠ .none ↔ c.stall.startNs ≠ 0) ∧
    (c.array .empty).totalNs.toNat + (c.array .uncrypted).totalNs.toNat ≤
      (clock (c.calls - 1)).toNat - (clock 0).toNat := by
  intro c e
  have tracks : Tracks clock c e := tracks_start.polls monotone positive runs
  have fits : (clock 0).toNat + (e.durations .empty).sum + (e.durations .uncrypted).sum ≤
      (clock (c.calls - 1)).toNat := by
    refine tracks.elapsed.trans ?_
    rw [tracks.calls]
    cases current : e.current with
    | none => exact Nat.le_refl _
    | some running => exact (tracks.busy running.1 running.2 current).2.2.2.2
  have last := (clock (c.calls - 1)).isLt
  -- the totals are below the elapsed time, so they did not wrap
  have total : ∀ cls, cls ≠ .none → (c.array cls).totalNs.toNat = (e.durations cls).sum := by
    intro cls some
    have small : (e.durations cls).sum < 2 ^ 64 := by
      cases cls with
      | none => exact absurd rfl some
      | empty => omega
      | uncrypted => omega
    rw [(tracks.accounted cls some).totalNs, BitVec.toNat_ofNat, Nat.mod_eq_of_lt small]
  refine ⟨fun cls some => ?_, ?_, ?_⟩
  · have account := tracks.accounted cls some
    exact ⟨account.episodes, total cls some, account.maxNs, account.le16us, account.le128us,
      account.le1ms, account.gt1ms, account.histogram⟩
  · refine not_congr (Iff.trans ?_ tracks.startNs.symm)
    cases current : e.current with
    | none => simp [tracks.idle current, PeerStall.closed]
    | some running =>
        obtain ⟨some, same, -⟩ := tracks.busy running.1 running.2 current
        simp [same, some]
  · rw [total .empty (by simp), total .uncrypted (by simp)]
    omega

/-- A poll that delivered nothing and found the queue empty. -/
def PollRun.wasted : PollRun := ⟨0, some (.empty, false), nofun⟩

/-- A poll that delivered a packet and found the queue empty after it. -/
def PollRun.productive : PollRun := ⟨1, some (.empty, false), nofun⟩

/-- One episode of 5 ns, at the readings 1 and 6: it is counted once, in the first class of the
histogram, it is closed, and the totals are the time that has passed. -/
theorem stall_accounting_one :
    let clock : ℕ → BitVec 64 := fun k => if k = 0 then 1 else 6
    let c := [PollRun.wasted, .productive].foldl (Classifier.poll clock) .start
    ((c.array .empty).episodes = 1 ∧ (c.array .empty).totalNs.toNat = 5 ∧
      (c.array .empty).maxNs.toNat = 5 ∧ (c.array .empty).le16us = 1 ∧
      (c.array .empty).le128us = 0 ∧ (c.array .empty).le1ms = 0 ∧ (c.array .empty).gt1ms = 0) ∧
    c.stall.startNs = 0 ∧
    (c.array .empty).totalNs.toNat + (c.array .uncrypted).totalNs.toNat ≤ 5 := by
  intro clock c
  have monotone : Monotone fun k => (clock k).toNat := by
    intro k k' le
    by_cases first : k = 0
    · by_cases last : k' = 0
      · simp [clock, first, last]
      · simp [clock, first, last]
    · have last : k' ≠ 0 := by omega
      simp [clock, first, last]
  have positive : ∀ k, 0 < (clock k).toNat := by
    intro k
    by_cases first : k = 0
    · simp [clock, first]
    · simp [clock, first]
  obtain ⟨arrays, running, total⟩ :=
    stall_accounting clock monotone positive [PollRun.wasted, .productive]
  have durations : ([PollRun.wasted, .productive].foldl (Episodes.poll clock) .start).durations
      .empty = [5] := by decide
  obtain ⟨episodes, sum, longest, le16us, le128us, le1ms, gt1ms, -⟩ := arrays .empty (by decide)
  rw [durations] at episodes sum longest le16us le128us le1ms gt1ms
  refine ⟨⟨episodes, sum, longest, le16us, le128us, le1ms, gt1ms⟩, ?_, total⟩
  exact not_not.mp fun busy => running.mpr busy (by decide)

/-- `n` times a wasted poll and a productive one. -/
def PollRun.stalls (n : ℕ) : List PollRun :=
  (List.replicate n [PollRun.wasted, .productive]).flatten

/-- They are `n` episodes, of no duration if the clock stands still. -/
theorem foldl_stalls (n : ℕ) (e : Episodes) (idle : e.current = none) :
    ((PollRun.stalls n).foldl (Episodes.poll fun _ => 1) e).closed =
      e.closed ++ List.replicate n (.empty, 0) := by
  induction n generalizing e with
  | zero => simp [PollRun.stalls]
  | succ n ih =>
      have once : [PollRun.wasted, .productive].foldl (Episodes.poll fun _ => 1) e =
          ⟨none, e.closed ++ [(.empty, 0)], e.calls + 2⟩ := by
        simp [Episodes.poll, idle, PollRun.cls, PollRun.wasted, PollRun.productive,
          Episodes.opens, Episodes.close]
      rw [PollRun.stalls, List.replicate_succ, List.flatten_cons, List.foldl_append, once]
      rw [PollRun.stalls] at ih
      rw [ih _ rfl, List.replicate_succ, List.append_assoc, List.singleton_append]

theorem stalls_durations (n : ℕ) :
    (((PollRun.stalls n).foldl (Episodes.poll fun _ => 1) .start).durations .empty).length =
      n := by
  rw [Episodes.durations, foldl_stalls _ _ rfl]
  simp [Episodes.start]

theorem stalls_episodes (n : ℕ) :
    (((PollRun.stalls n).foldl (Classifier.poll fun _ => 1) .start).array .empty).episodes =
      BitVec.ofNat 64 n := by
  have monotone : Monotone fun _ : ℕ => (1 : BitVec 64).toNat := monotone_const
  have tracks := tracks_start.polls monotone (fun _ => by decide) (PollRun.stalls n)
  rw [(tracks.accounted .empty (by simp)).episodes, stalls_durations]

/-- The counter of episodes wraps: after `2 ^ 64` of them it reads zero. -/
theorem stall_accounting_wraps :
    ∃ (clock : ℕ → BitVec 64) (runs : List PollRun),
      (Monotone fun k => (clock k).toNat) ∧ (∀ k, 0 < (clock k).toNat) ∧
      ((runs.foldl (Classifier.poll clock) .start).array .empty).episodes.toNat ≠
        ((runs.foldl (Episodes.poll clock) .start).durations .empty).length := by
  have positive : 0 < (1 : BitVec 64).toNat := by decide
  refine ⟨fun _ => 1, PollRun.stalls (2 ^ 64), monotone_const, fun _ => positive, ?_⟩
  rw [stalls_episodes, stalls_durations]
  decide

end WgReceivePath
