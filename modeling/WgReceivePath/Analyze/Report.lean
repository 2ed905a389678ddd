import WgReceivePath.Analyze.Gates
import WgReceivePath.Analyze.Holm

/-!
# The analysis and its output

`analyze` loads an artifact, prints descriptive tables, applies the gates, and prints one
line for each comparison: a report with its p-value, or a VOID line.  `main` reads the
command line and turns exceptions into exit statuses.

## Main definitions

* `Line`, a line of the output as data: what it says and about what, not its wording.
  `Line.isInference` and `Line.isVoid` are the two kinds that the results are about.
* `Setting`, the environment together with the draws of the bootstrap, of which nothing is
  known.
* `gateComparison`, `reportComparison`, `analyzeMetric`, `analyze`, `main`: the functions.

The lines of an analysis that raises stay printed, which is why `analyze` is a `Printing`
computation.  The comparisons are gone through twice, as in the source: first the gates,
which collect the p-values of the family, and then the reports, which need their Holm
values.
-/

namespace WgReceivePath.Analyze

/-! ## Lines

The output as data.  Numbers are those that are printed, before they are formatted. -/

/-- What is compared: two conditions, or the two effects of stealing. -/
inductive Test where
  | pair (a b : Cond)
  | interaction
  deriving DecidableEq, Repr

inductive Tag where
  | primary
  | secondary
  | secondaryHolm
  | exploratory
  deriving DecidableEq, Repr

inductive Direction where
  | favorable
  | unfavorable
  | zero
  deriving DecidableEq, Repr

/-- The report of one test: what is printed in its line.  The p-value is a quotient of
counts, the other numbers are floats. -/
structure Report where
  metric : Metric
  test : Test
  n : ℕ
  obs : PyFloat
  rel : PyFloat
  median : PyFloat
  ci : PyFloat × PyFloat
  pos : ℕ
  neg : ℕ
  zero : ℕ
  p : ℚ
  pAdj : Option ℚ
  tag : Tag
  direction : Direction

/-- Why `main` refuses a command line. -/
inductive Refusal where
  | badValue (flag : Text)
  | blocksWithoutSmoke (blocks : ℤ)
  | cpuSmokeBlocks (blocks : Option ℤ)
  | severalArtifacts (argv : List Text)
  | usage

/-- A line of the output. -/
inductive Line where
  | blank
  | smokeMark
  | header (path : Text) (mode : Mode) (src : Text) (n : ℕ)
  | structureOk (n : ℕ) (diag : ℤ)
  | pFloor (n : ℕ)
  | columns (summary : List Metric)
  | means (c : Cond) (cells : List PyFloat)
  | descriptiveOnly
  | loads (target : PyFloat) (means : List PyFloat)
  | campaignVoid (count : ℕ)
  | campaignReason (why : Reason)
  | countersTitle
  | counters (c : Cond) (unc pulled : PyFloat)
  | smokeEnd
  | metricTitle (metric : Metric) (fav : ℤ)
  | void (metric : Metric) (test : Test) (why : Reason)
  | suppressed
  | descriptive (metric : Metric) (test : Test) (n : ℕ) (mean rel : PyFloat)
  | report (r : Report)
  | deltas (ds : List PyFloat)
  | interactionNote (smoke : Bool)
  /-- a verdict on the primary comparison steal4-off of these metrics -/
  | verdict (metrics : List Metric) (passed : Bool)
  | verdictVoid (metrics : List Metric)
  | dmesgMax (worst : ℤ)
  | dmesg (worst total : ℤ)
  -- what `main` prints
  | refused (why : Refusal)
  | invalidArtifact (why : Invalid)
  | cannotRead

/-- Does the line give a p-value, an interval, a Holm value or a verdict?  A descriptive
line, which is what a smoke run prints instead of a report, does not. -/
def Line.isInference : Line → Bool
  | .report _ | .verdict _ _ => true
  | _ => false

/-- Does the line void something? -/
def Line.isVoid : Line → Bool
  | .campaignVoid _ | .campaignReason _ | .void _ _ _ | .verdictVoid _ => true
  | _ => false

/-! ## One line -/

/-- The environment of an analysis, and the indices that `rng.choices` draws for the line of a
metric and a test, in resample after resample.  Nothing is known of them. -/
structure Setting extends Env where
  choices : Metric → Test → ℕ → List ℕ

/-- `st.median`. -/
def median (round : ℚ → PyFloat) (xs : List PyFloat) : PyFloat :=
  let sorted := xs.insertionSort fun x y => x.le y
  let n := sorted.length
  let upper := sorted.getD (n / 2) .nan
  if n % 2 = 1 then upper
  else
    (PyFloat.div round (PyFloat.add round (sorted.getD (n / 2 - 1) .nan) upper) (.fin 2)).getD .nan

def BOOT_N : ℕ := 10000

/-- `boot_ci`: the means of the resamples at the ranks `int(0.025 * BOOT_N)` and
`int(0.975 * BOOT_N)`. -/
def bootCi (round : ℚ → PyFloat) (deltas : List PyFloat) (choices : ℕ → List ℕ) :
    PyFloat × PyFloat :=
  let means := (List.range BOOT_N).map fun i =>
    PyFloat.mean round ((choices i).map fun j => deltas.getD j .nan)
  let sorted := means.insertionSort fun x y => x.le y
  (sorted.getD 250 .nan, sorted.getD 9750 .nan)

/-- `obs * fav`. -/
def favored (round : ℚ → PyFloat) (obs : PyFloat) (fav : ℤ) : PyFloat := obs.mul round (.fin fav)

def directionOf (round : ℚ → PyFloat) (obs : PyFloat) (fav : ℤ) : Direction :=
  if PyFloat.lt (.fin 0) (favored round obs fav) then .favorable
  else if (favored round obs fav).lt (.fin 0) then .unfavorable
  else .zero

open Printing

/-- What prints lines and may raise. -/
abbrev Output := Printing Line PyError

/-- The report of a test with this mean, relative effect and p-value. -/
def reportOf (set : Setting) (metric : Metric) (test : Test) (ds : List PyFloat)
    (obs rel : PyFloat) (p : ℚ) (fav : ℤ) (tag : Tag) (pAdj : Option ℚ) : Report :=
  let pos := ds.countP fun d => PyFloat.lt (.fin 0) d
  let neg := ds.countP fun d => d.lt (.fin 0)
  { metric, test, n := ds.length, obs, rel, median := median set.round ds
    ci := bootCi set.round ds (set.choices metric test)
    pos, neg, zero := ds.length - pos - neg, p, pAdj, tag
    direction := directionOf set.round obs fav }

/-- `report_line`.  In a smoke run it prints means and deltas and no p-value. -/
def reportLine (set : Setting) (smoke : Bool) (metric : Metric) (test : Test)
    (ds : List PyFloat) (baseMean : PyFloat) (fav : ℤ) (tag : Tag) (pAdj : Option ℚ) :
    Output (Option (PyFloat × ℚ)) := do
  let average ← eval (mean set.round ds)
  let rel ← eval (divide set.round (PyFloat.mul set.round (.fin 100) average) baseMean)
  if smoke then
    emit (.descriptive metric test ds.length average rel)
    emit (.deltas ds)
    return none
  else
    let flip ← eval (signflip set.round ds)
    emit (.report (reportOf set metric test ds flip.1 rel flip.2 fav tag pAdj))
    emit (.deltas ds)
    return some flip

/-- `void_line`. -/
def voidLine (metric : Metric) (test : Test) (why : Reason) : Output Unit := do
  emit (.void metric test why)
  emit .suppressed

/-! ## One metric

The comparisons that pass carry their deltas from the first loop to the second.  The family
of the Holm adjustment consists of the members that passed, and a void test is not replaced
by anything. -/

/-- The metrics with p-values, in order. -/
def metricsOf : Mode → List Metric
  | .confirm => [.gbps, .totalBusyCe, .effGbpsPerCe]
  | .fixedloadCpu => [.totalBusyCe]
  | .fixedload =>
      [.totalBusyCe, .softirqCe, .p99HalfRttUs, .p999HalfRttUs, .p90HalfRttUs, .p50HalfRttUs]

/-- The metrics of the descriptive table. -/
def summaryOf : Mode → List Metric
  | .fixedloadCpu => [.totalBusyCe, .softirqCe, .systemCe]
  | mode => metricsOf mode

/-- `fam_primary`. -/
def famPrimary (mode : Mode) (metric : Metric) : Bool :=
  match mode with
  | .confirm => metric = .gbps || metric = .totalBusyCe
  | .fixedload => metric = .totalBusyCe || metric = .p99HalfRttUs
  | .fixedloadCpu => metric = .totalBusyCe

/-- The tag of the line of a comparison. -/
def tagOf (mode : Mode) (metric : Metric) (ab : Cond × Cond) : Tag :=
  if ab = (.steal4, .off) then
    if famPrimary mode metric then .primary
    else if metric.isLat then .exploratory else .secondary
  else if !metric.isLat || metric = .p99HalfRttUs then .secondaryHolm else .exploratory

/-- The deltas of a test that is not void, and its p-value if it is part of the family. -/
abbrev Passed := List PyFloat × Option ℚ

/-- The p-value of a member of the family, in a run that is not a smoke run. -/
def familyP (round : ℚ → PyFloat) (smoke member : Bool) (ds : List PyFloat) :
    Except PyError (Option ℚ) := do
  if !smoke && member then
    let flip ← signflip round ds
    return some flip.2
  else return none

/-- The first loop over the comparisons: the gates.  A comparison that passes carries its
deltas on, and its p-value if it is a member of the family. -/
def gateComparison (an : Analysis) (smoke : Bool) (metric : Metric) (ab : Cond × Cond) :
    Output (Option Passed) := do
  match ← eval (an.comparisonVoidReason metric ab.1 ab.2) with
  | some why =>
      voidLine metric (.pair ab.1 ab.2) why
      return none
  | none =>
      let ds ← eval (an.deltasFor metric ab.1 ab.2)
      let p ← eval (familyP an.round smoke (SECONDARY.contains ab) ds)
      return some (ds, p)

/-- The gates of the interaction. -/
def gateInteraction (an : Analysis) (smoke : Bool) (metric : Metric) :
    Except PyError (Reason ⊕ Passed) := do
  match ← an.interactionVoidReason metric with
  | some why => return .inl why
  | none =>
      let ds ← an.interactionDeltas metric
      let p ← familyP an.round smoke true ds
      return .inr (ds, p)

/-- The p-value that a comparison adds to `sec_ps`. -/
def comparisonP (e : (Cond × Cond) × Option Passed) : Option (Test × ℚ) :=
  e.2.bind fun passed => passed.2.map fun p => (.pair e.1.1 e.1.2, p)

/-- The p-value that the interaction adds to `sec_ps`. -/
def interactionP : Reason ⊕ Passed → Option (Test × ℚ)
  | .inl _ => none
  | .inr passed => passed.2.map fun p => (.interaction, p)

/-- `sec_ps`: the p-values of the family, in order. -/
def secPs (results : List ((Cond × Cond) × Option Passed)) (inter : Reason ⊕ Passed) :
    List (Test × ℚ) :=
  results.filterMap comparisonP ++ (interactionP inter).toList

/-- The second loop over the comparisons: the reports.  The base mean was computed before the
first loop; it is the same one. -/
def reportComparison (set : Setting) (an : Analysis) (smoke : Bool) (metric : Metric) (fav : ℤ)
    (adj : Dict Test ℚ) (e : (Cond × Cond) × Option Passed) : Output (Option (PyFloat × ℚ)) := do
  match e.2 with
  | none => return none
  | some passed =>
      let base ← eval (an.metricMean metric e.1.2)
      let pAdj := if e.1 = (.steal4, .off) then none else adj.get? (.pair e.1.1 e.1.2)
      reportLine set smoke metric (.pair e.1.1 e.1.2) passed.1 base fav (tagOf an.mode metric e.1)
        pAdj

/-- The line of the interaction. -/
def reportInteraction (set : Setting) (an : Analysis) (smoke : Bool) (metric : Metric) (fav : ℤ)
    (adj : Dict Test ℚ) (inter : Reason ⊕ Passed) : Output Unit := do
  match inter with
  | .inl why => voidLine metric .interaction why
  | .inr passed =>
      let base ← eval (an.metricMean metric .off)
      let _ ← reportLine set smoke metric .interaction passed.1 base fav .secondaryHolm
        (adj.get? .interaction)
      emit (.interactionNote smoke)

/-- What a metric contributes to the end of the analysis: whether something was voided, and its
verdict if it has one. -/
structure Outcome where
  voided : Bool
  verdict : Option Bool

/-- `(obs * fav > 0) and (p < 0.05)`. -/
def verdictOf (round : ℚ → PyFloat) (fav : ℤ) (r : PyFloat × ℚ) : Bool :=
  PyFloat.lt (.fin 0) (favored round r.1 fav) && r.2 < 1 / 20

/-- The tests of a metric behind their gates: the Holm values and the reports. -/
def reportMetric (set : Setting) (an : Analysis) (smoke : Bool) (metric : Metric) (fav : ℤ)
    (gates : List (Option Passed)) (inter : Reason ⊕ Passed) : Output Outcome := do
  let adj := holm (secPs (COMPS.zip gates) inter)
  let reports ← (COMPS.zip gates).mapM' (reportComparison set an smoke metric fav adj)
  reportInteraction set an smoke metric fav adj inter
  let primary := if famPrimary an.mode metric then reports.headD none else none
  return ⟨gates.any Option.isNone || inter.isLeft, primary.map (verdictOf an.round fav)⟩

/-- One round of the loop over the metrics. -/
def analyzeMetric (set : Setting) (an : Analysis) (smoke : Bool) (metric : Metric) :
    Output Outcome := do
  let fav ← eval (demand (FAVOR metric) (.keyError metric.text))
  emit (.metricTitle metric fav)
  let _ ← eval ([.off, .steal4, .both].mapM' (an.metricMean metric))
  let gates ← COMPS.mapM' (gateComparison an smoke metric)
  let inter ← eval (gateInteraction an smoke metric)
  reportMetric set an smoke metric fav gates inter

/-! ## The analysis

The preflight stands between the descriptive tables and the comparisons.  What it voids is
the whole campaign, with its own end. -/

/-- `st.mean` of two counters for each condition. -/
def counterLines (an : Analysis) : Output Unit := do
  emit .blank
  emit .countersTitle
  let _ ← CONDS.mapM' fun c => do
    let unc ← eval (an.columnMean "unc_n" c)
    let pulled ← eval (an.columnMean "steal_pulled" c)
    emit (.counters c unc pulled)

/-- The lines above the comparisons. -/
def preamble (an : Analysis) (path src : Text) (smoke : Bool) : Output Unit := do
  if smoke then emit .smokeMark
  emit (.header path an.mode src an.blocks.length)
  emit (.structureOk an.blocks.length (DIAG_EXPECT an.mode))
  if !smoke then emit (.pFloor an.blocks.length)
  emit .blank
  emit (.columns (summaryOf an.mode))
  let _ ← CONDS.mapM' fun c => do
    let cells ← eval ((summaryOf an.mode).mapM' fun m => an.metricMean m c)
    emit (.means c cells)
  if an.mode = .fixedloadCpu then emit .descriptiveOnly
  if an.mode ≠ .confirm then
    let means ← eval (CONDS.mapM' (an.columnMean "load_window_gbps"))
    emit .blank
    emit (.loads an.target means)

/-- The end of a campaign that the preflight voids: the reasons and the counters, and exit
status 2. -/
def campaignVoidLines (an : Analysis) (smoke : Bool) (reasons : List Reason) : Output ℤ := do
  emit .blank
  emit (.campaignVoid reasons.length)
  let _ ← reasons.mapM' fun why => emit (.campaignReason why)
  counterLines an
  if smoke then emit .smokeEnd
  return 2

/-- The warnings of a row, if its `dmesg_new` looks like a number:
`r.get("dmesg_new", "").replace(".", "").isdigit()`. -/
def dmesgCount (round : ℚ → PyFloat) (r : Row) : Except PyError (Option ℤ) :=
  match r.get? "dmesg_new" with
  | none => return none
  | some none => .error .attributeError
  | some (some raw) =>
      if Text.isDigit (raw.filter (· ≠ '.')) then do
        let x ← demand (raw.float? round) .valueError
        let n ← toInt x
        return some n
      else return none

/-- The warnings of the rows. -/
def dmesgCounts (an : Analysis) : Except PyError (List ℤ) := do
  let counts ← an.table.entries.mapM' fun e => dmesgCount an.round e.2
  return counts.reduceOption

/-- `max(counts, default=0)`. -/
def worstOf (counts : List ℤ) : ℤ := counts.max?.getD 0

/-- The verdict lines. -/
def verdictLines (an : Analysis) (voided : Bool) (verdict : Metric → Option Bool) :
    Output Unit := do
  match an.mode with
  | .confirm =>
      match verdict .gbps, verdict .totalBusyCe with
      | some gbps, some ce => emit (.verdict [.gbps, .totalBusyCe] (gbps && ce))
      | _, _ => emit (.verdictVoid [.gbps, .totalBusyCe])
  | .fixedloadCpu =>
      match verdict .totalBusyCe with
      | some passed => emit (.verdict [.totalBusyCe] passed)
      | none => emit (.verdictVoid [.totalBusyCe])
      counterLines an
  | .fixedload =>
      match verdict .totalBusyCe with
      | some passed => emit (.verdict [.totalBusyCe] passed)
      | none => emit (.verdictVoid [.totalBusyCe])
      match verdict .p99HalfRttUs with
      | some passed => emit (.verdict [.p99HalfRttUs] passed)
      | none => if voided then emit (.verdictVoid [.p99HalfRttUs])

/-- The lines below the comparisons. -/
def conclusion (an : Analysis) (smoke : Bool) (outcomes : List (Metric × Outcome)) : Output ℤ := do
  let voided := outcomes.any fun e => e.2.voided
  let verdict := fun m => (outcomes.find? fun e => e.1 = m).bind fun e => e.2.verdict
  emit .blank
  if smoke then
    let counts ← eval (dmesgCounts an)
    emit (.dmesgMax (worstOf counts))
    emit .smokeEnd
  else
    verdictLines an voided verdict
    let counts ← eval (dmesgCounts an)
    emit (.dmesg (worstOf counts) counts.sum)
  return if voided then 2 else 0

/-- The analysis of a loaded artifact: the preflight decides whether there are any
comparisons at all. -/
def analyzeLoaded (set : Setting) (an : Analysis) (path src : Text) (smoke : Bool) : Output ℤ := do
  preamble an path src smoke
  let reasons ← eval an.campaignVoidReasons
  if reasons ≠ [] then campaignVoidLines an smoke reasons
  else
    let outcomes ← (metricsOf an.mode).mapM' fun m => do
      return (m, ← analyzeMetric set an smoke m)
    conclusion an smoke outcomes

/-- `analyze`. -/
def analyze (set : Setting) (path : Text) (flag : Option Text) (blocksOverride : Option ℤ)
    (smoke : Bool) (target : PyFloat) (cpuOnly : Bool) : Output ℤ := do
  let art ← eval (loadArtifact set.toEnv path flag blocksOverride cpuOnly)
  analyzeLoaded set (art.analysis set.round target) path art.src smoke

/-! ## The command line

Flags are taken out of the arguments one after the other, and what is left must be one path.
-/

/-- The call of `analyze` that a command line asks for. -/
structure Call where
  path : Text
  flag : Option Text
  blocks : Option ℤ
  smoke : Bool
  target : PyFloat
  cpuOnly : Bool
  deriving DecidableEq

/-- A flag and its value taken out of the arguments. -/
def takeFlag (flag : Text) (argv : List Text) : Except Refusal (Option Text × List Text) :=
  if flag ∈ argv then do
    let i := argv.idxOf flag
    let value ← demand argv[i + 1]? (.badValue flag)
    return (some value, argv.take i ++ argv.drop (i + 2))
  else return (none, argv)

/-- The command line of `main`, behind `--selftest`.  An override of the number of blocks is
refused outside of a smoke run. -/
def parseArgs (round : ℚ → PyFloat) (argv : List Text) : Except Refusal Call := do
  let smoke := decide (("--smoke" : Text) ∈ argv)
  let argv := argv.erase "--smoke"
  let cpuOnly := decide (("--cpu-only" : Text) ∈ argv)
  let argv := argv.erase "--cpu-only"
  let (flag, argv) ← takeFlag "--mode" argv
  let (blocks, argv) ← takeFlag "--blocks" argv
  let blocks ← blocks.mapM fun t => demand t.int? (.badValue "--blocks")
  let (target, argv) ← takeFlag "--target-load" argv
  let target ← target.mapM fun t => demand (t.float? round) (.badValue "--target-load")
  require (blocks = none ∨ smoke = true) (.blocksWithoutSmoke (blocks.getD 0))
  require (¬ (cpuOnly = true ∧ smoke = true ∧ blocks ≠ some 1)) (.cpuSmokeBlocks blocks)
  match argv with
  | [] => .error .usage
  | [path] => return ⟨path, flag, blocks, smoke, target.getD (round (38 / 10)), cpuOnly⟩
  | _ => .error (.severalArtifacts argv)

/-- The handlers of `main` around `analyze`: an artifact that is rejected or cannot be
opened ends with exit status 1.  Nothing else is caught. -/
def handled (out : Output ℤ) : Output ℤ :=
  match out.result with
  | .error (.invalid why) => ⟨out.lines ++ [.invalidArtifact why], .ok 1⟩
  | .error .os => ⟨out.lines ++ [.cannotRead], .ok 1⟩
  | _ => out

/-- `main`, with the selftest a parameter. -/
def main (set : Setting) (selftest : Output ℤ) (argv : List Text) : Output ℤ :=
  if ("--selftest" : Text) ∈ argv then selftest
  else match parseArgs set.round argv with
    | .error why => ⟨[.refused why], .ok 1⟩
    | .ok call =>
        handled (analyze set call.path call.flag call.blocks call.smoke call.target call.cpuOnly)

end WgReceivePath.Analyze
