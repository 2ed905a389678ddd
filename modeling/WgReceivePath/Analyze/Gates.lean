import WgReceivePath.Analyze.Load
import WgReceivePath.Analyze.SignFlip

/-!
# The validity gates

The class `Analysis` of `analyze_confirm.py`: the metrics of a loaded artifact, the gates on
its loads, kernel warnings, losses and sample counts, and the deltas of the comparisons.  A
gate returns the reason for which it voids a comparison, or none.

## Main definitions

* `Metric`, `FAVOR`, `COMPS`, `SECONDARY`, `INTERACTION_COMPONENTS`: what is compared.
* `Reason`, why a comparison or the campaign is void, with the numbers that the message
  shows.
* `Analysis.absLoadRowReason`, `pairReason`, `dmesgRowReason`, `latencyRowReason`: the gates
  of one row or pair.
* `Analysis.campaignVoidReasons`, `comparisonVoidReason`, `interactionVoidReason`: the gates
  as `analyze` asks them.

The same rows are gated twice in CPU-only mode: all of them before any statistics, and those
of a comparison before it is reported.  The two do not compare with the same limits.  All
arithmetic is that of Python's floats, with the rounding a parameter of the analysis.
-/

namespace WgReceivePath.Analyze

/-! ## Metrics and comparisons -/

inductive Metric where
  | gbps
  | totalBusyCe
  | effGbpsPerCe
  | softirqCe
  | systemCe
  | p50HalfRttUs
  | p90HalfRttUs
  | p99HalfRttUs
  | p999HalfRttUs
  deriving DecidableEq, Repr

def Metric.text : Metric → Text
  | .gbps => "gbps"
  | .totalBusyCe => "total_busy_ce"
  | .effGbpsPerCe => "eff_gbps_per_ce"
  | .softirqCe => "softirq_ce"
  | .systemCe => "system_ce"
  | .p50HalfRttUs => "p50_half_rtt_us"
  | .p90HalfRttUs => "p90_half_rtt_us"
  | .p99HalfRttUs => "p99_half_rtt_us"
  | .p999HalfRttUs => "p999_half_rtt_us"

/-- `metric.endswith("_us")`. -/
def Metric.isLat (m : Metric) : Bool := ("_us" : Text).isSuffixOf m.text

/-- The favorable direction. -/
def FAVOR : Metric → Option ℤ
  | .gbps | .effGbpsPerCe => some 1
  | .systemCe => none
  | _ => some (-1)

def COMPS : List (Cond × Cond) :=
  [(.steal4, .off), (.both, .off), (.bsteal4, .steal4), (.bsteal4, .both), (.bsteal4, .off)]

def SECONDARY : List (Cond × Cond) :=
  [(.both, .off), (.bsteal4, .steal4), (.bsteal4, .both), (.bsteal4, .off)]

def INTERACTION_COMPONENTS : List (Cond × Cond) := [(.bsteal4, .steal4), (.both, .off)]

def MIN_OBS_P999 : ℚ := 100000

def MIN_OBS_OTHER : ℚ := 10000

/-- The observations that a metric needs. -/
def needOf (metric : Metric) : ℚ := if metric = .p999HalfRttUs then MIN_OBS_P999 else MIN_OBS_OTHER

/-- Why a comparison or the campaign is void, with what the message shows. -/
inductive Reason where
  | absLoadRange (blk : Text) (c : Cond) (l target lo hi : PyFloat)
  | absLoadDev (blk : Text) (c : Cond) (l dev target : PyFloat)
  | pairwise (blk : Text) (a b : Cond) (la lb mis : PyFloat)
  | dmesg (blk : Text) (c : Cond)
  | component (a b : Cond) (why : Reason)
  | loss (blk : Text) (c : Cond) (loss : PyFloat)
  | support (blk : Text) (c : Cond) (latN : ℤ) (need : ℚ) (metric : Metric)

/-! ## Reading -/

/-- `float(r[key])`. -/
def Row.float (round : ℚ → PyFloat) (r : Row) (key : Text) : Except PyError PyFloat := do
  let value ← demand (r.get? key) (.keyError key)
  let raw ← demand value .typeError
  demand (raw.float? round) .valueError

/-- `x / y`. -/
def divide (round : ℚ → PyFloat) (x y : PyFloat) : Except PyError PyFloat :=
  demand (PyFloat.div round x y) .zeroDivision

/-- `int(x)`. -/
def toInt (x : PyFloat) : Except PyError ℤ :=
  demand x.toInt? (if x = .nan then .valueError else .overflow)

/-- `st.mean(xs)`. -/
def mean (round : ℚ → PyFloat) (xs : List PyFloat) : Except PyError PyFloat := do
  require (xs ≠ []) .noData
  return PyFloat.mean round xs

/-- `signflip_p(deltas)`. -/
def signflip (round : ℚ → PyFloat) (deltas : List PyFloat) : Except PyError (PyFloat × ℚ) :=
  (signflipP round deltas).mapError fun
    | .tooLarge n => .tooManyBlocks n
    | .noData => .noData

/-! ## The analysis -/

/-- A loaded artifact and the target load, with the rounding of its arithmetic.  Whether the
run is a smoke run does not matter for the gates. -/
structure Analysis where
  round : ℚ → PyFloat
  mode : Mode
  blocks : List Text
  table : Table
  target : PyFloat

/-- `Analysis(mode, blocks, table, smoke, target)`. -/
def Artifact.analysis (art : Artifact) (round : ℚ → PyFloat) (target : PyFloat) : Analysis :=
  ⟨round, art.mode, art.blocks, art.table, target⟩

namespace Analysis

variable (an : Analysis)

/-- `self.row(b, c)`. -/
def row (b : Text) (c : Cond) : Except PyError Row :=
  demand (an.table.get? (some b, c)) (.keyError b)

/-- `float(self.row(b, c)[key])`. -/
def num (b : Text) (c : Cond) (key : Text) : Except PyError PyFloat := do
  let r ← an.row b c
  r.float an.round key

def metric (name : Metric) (b : Text) (c : Cond) : Except PyError PyFloat :=
  match name with
  | .effGbpsPerCe => do
      let gbps ← an.num b c "gbps"
      let ce ← an.num b c "total_busy_ce"
      divide an.round gbps ce
  | _ => an.num b c name.text

/-- The rows of these conditions, block by block. -/
def rowsOf (conds : List Cond) : List (Text × Cond) :=
  an.blocks.flatMap fun blk => conds.map fun c => (blk, c)

/-- `_abs_load_row_reason`.  A CPU-only load must lie in an interval around the target; a
legacy load must have a small relative deviation, which is divided by the target as it is.
-/
def absLoadRowReason (blk : Text) (c : Cond) : Except PyError (Option Reason) := do
  let l ← an.num blk c "load_window_gbps"
  let tol := an.round 5
  if an.mode = .fixedloadCpu then
    let part ← divide an.round tol (.fin 100)
    let lo := an.target.mul an.round (PyFloat.sub an.round (.fin 1) part)
    let hi := an.target.mul an.round (PyFloat.add an.round (.fin 1) part)
    let guard := an.round (1 / 10 ^ 9)
    return if l.lt (lo.sub an.round guard) || (hi.add an.round guard).lt l then
      some (.absLoadRange blk c l an.target lo hi) else none
  else
    let dev ← divide an.round (PyFloat.mul an.round (.fin 100) (l.sub an.round an.target).abs)
      an.target
    return if tol.lt dev then some (.absLoadDev blk c l dev an.target) else none

/-- `abs_load_reason`. -/
def absLoadReason (conds : List Cond) : Except PyError (Option Reason) :=
  if an.mode = .confirm then return none
  else (an.rowsOf conds).findSomeM? fun e => an.absLoadRowReason e.1 e.2

/-- `int(float(self.row(blk, c)["dmesg_new"])) > 0`. -/
def warned (blk : Text) (c : Cond) : Except PyError Bool := do
  let x ← an.num blk c "dmesg_new"
  let n ← toInt x
  return 0 < n

/-- The dmesg gate of one row. -/
def dmesgRowReason (blk : Text) (c : Cond) : Except PyError (Option Reason) := do
  return if ← an.warned blk c then some (.dmesg blk c) else none

/-- The loads of a pair, and `100 * abs(la - lb) / ((la + lb) / 2)`. -/
def mismatch (a b : Cond) (blk : Text) : Except PyError (PyFloat × PyFloat × PyFloat) := do
  let la ← an.num blk a "load_window_gbps"
  let lb ← an.num blk b "load_window_gbps"
  let half ← divide an.round (la.add an.round lb) (.fin 2)
  let mis ← divide an.round (PyFloat.mul an.round (.fin 100) (la.sub an.round lb).abs) half
  return (la, lb, mis)

/-- The pairwise gate of one block. -/
def pairReason (limit : PyFloat) (a b : Cond) (blk : Text) : Except PyError (Option Reason) := do
  let (la, lb, mis) ← an.mismatch a b blk
  return if limit.lt mis then some (.pairwise blk a b la lb mis) else none

/-- `LOAD_GATE_PCT`. -/
def loadGatePct : PyFloat := an.round (3 / 2)

/-- `campaign_void_reasons`: all rows and all compared pairs of a CPU-only artifact, with a
guard on the pairwise limit.  All reasons are collected, not only the first. -/
def campaignVoidReasons : Except PyError (List Reason) := do
  if an.mode ≠ .fixedloadCpu then return []
  let rows ← (an.rowsOf CONDS).mapM' fun e => do
    let load ← an.absLoadRowReason e.1 e.2
    let dmesg ← an.dmesgRowReason e.1 e.2
    return load.toList ++ dmesg.toList
  let limit := an.loadGatePct.add an.round (an.round (1 / 10 ^ 9))
  let pairs ← (COMPS.flatMap fun ab => an.blocks.map fun blk => (ab, blk)).mapM' fun e =>
    an.pairReason limit e.1.1 e.1.2 e.2
  return rows.flatten ++ pairs.reduceOption

/-- The first of two gates that gives a reason. -/
def orElse (first second : Except PyError (Option Reason)) : Except PyError (Option Reason) := do
  match ← first with
  | some why => return some why
  | none => second

/-- `load_void_reason`. -/
def loadVoidReason (a b : Cond) : Except PyError (Option Reason) :=
  if an.mode = .confirm then return none
  else orElse (an.absLoadReason [a, b]) (an.blocks.findSomeM? (an.pairReason an.loadGatePct a b))

/-- `dmesg_void_reason`. -/
def dmesgVoidReason (conds : List Cond) : Except PyError (Option Reason) :=
  if an.mode ≠ .fixedloadCpu then return none
  else (an.rowsOf conds).findSomeM? fun e => an.dmesgRowReason e.1 e.2

/-- The loss and support gates of one row. -/
def latencyRowReason (metric : Metric) (blk : Text) (c : Cond) :
    Except PyError (Option Reason) := do
  let sent ← an.num blk c "valid_sent_msgs"
  let drop ← an.num blk c "valid_dropped_msgs"
  let loss ← divide an.round (PyFloat.mul an.round (.fin 100) drop) sent
  if (an.round 1).lt loss then return some (.loss blk c loss)
  let latN ← an.num blk c "lat_n"
  if latN.lt (.fin (needOf metric)) then
    let shown ← toInt latN
    return some (.support blk c shown (needOf metric) metric)
  return none

/-- `latency_void_reason`. -/
def latencyVoidReason (metric : Metric) (conds : List Cond) : Except PyError (Option Reason) :=
  (an.rowsOf conds).findSomeM? fun e => an.latencyRowReason metric e.1 e.2

/-- The gates of a comparison, as `analyze` asks them: load, then kernel warnings, then, for
a latency metric, loss and support. -/
def comparisonVoidReason (metric : Metric) (a b : Cond) : Except PyError (Option Reason) :=
  orElse (orElse (an.loadVoidReason a b) (an.dmesgVoidReason [a, b]))
    (if metric.isLat then an.latencyVoidReason metric [a, b] else return none)

/-- `interaction_void_reason`. -/
def interactionVoidReason (metric : Metric) : Except PyError (Option Reason) :=
  orElse
    (INTERACTION_COMPONENTS.findSomeM? fun ab => do
      return (← an.loadVoidReason ab.1 ab.2).map (.component ab.1 ab.2))
    (orElse (an.dmesgVoidReason CONDS)
      (if metric.isLat then an.latencyVoidReason metric CONDS else return none))

/-- `deltas_for`. -/
def deltasFor (metric : Metric) (a b : Cond) : Except PyError (List PyFloat) :=
  an.blocks.mapM' fun blk => do
    let x ← an.metric metric blk a
    let y ← an.metric metric blk b
    return x.sub an.round y

/-- `interaction_deltas`. -/
def interactionDeltas (metric : Metric) : Except PyError (List PyFloat) :=
  an.blocks.mapM' fun blk => do
    let bsteal4 ← an.metric metric blk .bsteal4
    let steal4 ← an.metric metric blk .steal4
    let both ← an.metric metric blk .both
    let off ← an.metric metric blk .off
    return PyFloat.sub an.round (bsteal4.sub an.round steal4) (both.sub an.round off)

/-- `st.mean([an.metric(metric, blk, c) for blk in blocks])`. -/
def metricMean (metric : Metric) (c : Cond) : Except PyError PyFloat := do
  mean an.round (← an.blocks.mapM' fun blk => an.metric metric blk c)

/-- `st.mean([float(an.row(b, c)[key]) for b in blocks])`. -/
def columnMean (key : Text) (c : Cond) : Except PyError PyFloat := do
  mean an.round (← an.blocks.mapM' fun blk => an.num blk c key)

end Analysis

end WgReceivePath.Analyze
