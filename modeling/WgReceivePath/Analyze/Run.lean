import WgReceivePath.Analyze.Report
import WgReceivePath.Analyze.Conditions

/-!
# What a metric prints

`Ready` collects what the computations behind a metric return: the reason of each gate, the
deltas, means and p-values of each test.  With it the lines of the metric are known
(`Ready.lines`, `Ready.analyzeMetric_eq`): for each test a VOID line or a report, the Holm
values being those of the tests of the family that passed their gates.

The source goes through the comparisons twice and treats the interaction apart.  Here both
are a `Test`, and a test has one reason, one list of deltas and one p-value wherever they
are asked for; the lemmas below say so for each of the functions in turn, and
`Ready.secPs_eq` says that the p-values collected on the way are those of the family.
-/

namespace WgReceivePath.Analyze

open Printing

/-! ## Tests -/

/-- The family of the Holm adjustment. -/
def secondaryFamily : List Test := SECONDARY.map (fun ab => .pair ab.1 ab.2) ++ [.interaction]

/-- The tests of a metric. -/
def plannedTests : List Test := COMPS.map (fun ab => .pair ab.1 ab.2) ++ [.interaction]

/-- The condition that the effect of a test is relative to. -/
def Test.base : Test → Cond
  | .pair _ b => b
  | .interaction => .off

/-- The conditions that a test involves. -/
def Test.conds : Test → List Cond
  | .pair a b => [a, b]
  | .interaction => CONDS

def Test.tag (mode : Mode) (metric : Metric) : Test → Tag
  | .pair a b => tagOf mode metric (a, b)
  | .interaction => .secondaryHolm

namespace Analysis

variable (an : Analysis) (metric : Metric)

/-- The gates of a test. -/
def testReason : Test → Except PyError (Option Reason)
  | .pair a b => an.comparisonVoidReason metric a b
  | .interaction => an.interactionVoidReason metric

/-- The deltas of a test. -/
def testDeltas : Test → Except PyError (List PyFloat)
  | .pair a b => an.deltasFor metric a b
  | .interaction => an.interactionDeltas metric

end Analysis

/-! ## What is known of a metric

Each function of the metric is evaluated on the data of `Ready`.  The equations are used
from the inside out: one line, one loop, the whole metric. -/

/-- What the computations behind a metric return, with the proofs that they do.  In a smoke
run no p-values are computed, and `flip` is arbitrary. -/
structure Ready (set : Setting) (an : Analysis) (smoke : Bool) (metric : Metric) where
  fav : ℤ
  why : Test → Option Reason
  deltas : Test → List PyFloat
  base : Cond → PyFloat
  average : Test → PyFloat
  rel : Test → PyFloat
  flip : Test → PyFloat × ℚ
  round_eq : an.round = set.round
  fav_eq : FAVOR metric = some fav
  why_eq : ∀ t, an.testReason metric t = .ok (why t)
  deltas_eq : ∀ t, an.testDeltas metric t = .ok (deltas t)
  base_eq : ∀ c, an.metricMean metric c = .ok (base c)
  average_eq : ∀ t, mean set.round (deltas t) = .ok (average t)
  rel_eq : ∀ t, divide set.round (PyFloat.mul set.round (.fin 100) (average t)) (base t.base) =
    .ok (rel t)
  flip_eq : smoke = false → ∀ t, signflip set.round (deltas t) = .ok (flip t)

namespace Ready

variable {set : Setting} {an : Analysis} {smoke : Bool} {metric : Metric}
  (ready : Ready set an smoke metric)

/-- The line of a test that is not void. -/
def line (t : Test) (pAdj : Option ℚ) : Line :=
  if smoke then .descriptive metric t (ready.deltas t).length (ready.average t) (ready.rel t)
  else .report (reportOf set metric t (ready.deltas t) (ready.flip t).1 (ready.rel t)
    (ready.flip t).2 ready.fav (t.tag an.mode metric) pAdj)

/-- The p-value of a test of the family. -/
def memberP (t : Test) : Option (Test × ℚ) :=
  if !smoke && (ready.why t).isNone then some (t, (ready.flip t).2) else none

/-- The p-values of the family. -/
def family : List (Test × ℚ) := secondaryFamily.filterMap ready.memberP

/-- The Holm value of a test. -/
def pAdj (t : Test) : Option ℚ :=
  if t = .pair .steal4 .off then none else (holm ready.family).get? t

/-- The lines of the gates of a test. -/
def voidLines (t : Test) : List Line :=
  match ready.why t with
  | some why => [.void metric t why, .suppressed]
  | none => []

/-- The lines of the report of a test. -/
def reportLines (t : Test) : List Line :=
  match ready.why t with
  | some _ => []
  | none => [ready.line t (ready.pAdj t), .deltas (ready.deltas t)]

/-- The lines of the metric. -/
def lines : List Line :=
  [.metricTitle metric ready.fav] ++
    COMPS.flatMap (fun ab => ready.voidLines (.pair ab.1 ab.2)) ++
    COMPS.flatMap (fun ab => ready.reportLines (.pair ab.1 ab.2)) ++
    ready.voidLines .interaction ++ ready.reportLines .interaction ++
    (if ready.why .interaction = none then [.interactionNote smoke] else [])

/-- What the metric contributes to the end of the analysis. -/
def outcome : Outcome where
  voided := plannedTests.any fun t => (ready.why t).isSome
  verdict :=
    if !smoke && famPrimary an.mode metric && (ready.why (.pair .steal4 .off)).isNone then
      some (verdictOf set.round ready.fav (ready.flip (.pair .steal4 .off)))
    else none

/-- The p-value of a test for the family. -/
def testP (t : Test) (member : Bool) : Option ℚ :=
  if !smoke && member then some (ready.flip t).2 else none

/-- What a comparison that passes its gates carries on: its deltas, and its p-value if it is
a member of the family. -/
def passed (ab : Cond × Cond) : Option Passed :=
  match ready.why (.pair ab.1 ab.2) with
  | some _ => none
  | none =>
      some (ready.deltas (.pair ab.1 ab.2), ready.testP (.pair ab.1 ab.2) (SECONDARY.contains ab))

/-- What the interaction carries on. -/
def inter : Reason ⊕ Passed :=
  match ready.why .interaction with
  | some why => .inl why
  | none => .inr (ready.deltas .interaction, ready.testP .interaction true)

theorem reportLine_eq (t : Test) (pAdj : Option ℚ) :
    reportLine set smoke metric t (ready.deltas t) (ready.base t.base) ready.fav
        (t.tag an.mode metric) pAdj =
      ⟨[ready.line t pAdj, .deltas (ready.deltas t)],
        .ok (if smoke then none else some (ready.flip t))⟩ := by
  rw [reportLine, ready.average_eq, eval_ok_bind, ready.rel_eq, eval_ok_bind, line]
  by_cases quick : smoke = true
  · simp only [if_pos quick]
    rfl
  · simp only [if_neg quick, ready.flip_eq (Bool.eq_false_of_not_eq_true quick), eval_ok_bind]
    rfl

theorem familyP_eq (t : Test) (member : Bool) :
    familyP an.round smoke member (ready.deltas t) = .ok (ready.testP t member) := by
  rw [familyP, ready.round_eq, testP]
  by_cases tested : (!smoke && member) = true
  · have final : smoke = false := by simpa using (Bool.and_eq_true_iff.mp tested).1
    rw [if_pos tested, if_pos tested, ready.flip_eq final]
    rfl
  · rw [if_neg tested, if_neg tested]
    rfl

theorem gateComparison_eq (ab : Cond × Cond) :
    gateComparison an smoke metric ab = ⟨ready.voidLines (.pair ab.1 ab.2),
      .ok (ready.passed ab)⟩ := by
  have gate : an.comparisonVoidReason metric ab.1 ab.2 = .ok (ready.why (.pair ab.1 ab.2)) :=
    ready.why_eq (.pair ab.1 ab.2)
  have deltas : an.deltasFor metric ab.1 ab.2 = .ok (ready.deltas (.pair ab.1 ab.2)) :=
    ready.deltas_eq (.pair ab.1 ab.2)
  rw [gateComparison, gate, eval_ok_bind, voidLines, passed]
  cases ready.why (.pair ab.1 ab.2) with
  | some why => rfl
  | none =>
      rw [deltas, eval_ok_bind, ready.familyP_eq, eval_ok_bind]
      rfl

theorem gateInteraction_eq : gateInteraction an smoke metric = .ok ready.inter := by
  have gate : an.interactionVoidReason metric = .ok (ready.why .interaction) :=
    ready.why_eq .interaction
  have deltas : an.interactionDeltas metric = .ok (ready.deltas .interaction) :=
    ready.deltas_eq .interaction
  rw [gateInteraction, gate, ok_bind, inter]
  cases ready.why .interaction with
  | some why => rfl
  | none =>
      dsimp only
      rw [deltas, ok_bind, ready.familyP_eq, ok_bind]
      rfl

theorem comparisonP_eq {ab : Cond × Cond} (member : ab ∈ SECONDARY) :
    comparisonP (ab, ready.passed ab) = ready.memberP (.pair ab.1 ab.2) := by
  rw [comparisonP, passed, memberP, testP]
  cases ready.why (.pair ab.1 ab.2) with
  | some why => simp
  | none =>
      simp only [List.contains_iff_mem.mpr member, Bool.and_true, Option.bind_some,
        Option.isNone_none]
      split <;> rfl

theorem interactionP_eq : interactionP ready.inter = ready.memberP .interaction := by
  rw [inter, memberP, testP]
  cases ready.why .interaction with
  | some why => simp [interactionP]
  | none =>
      simp only [interactionP, Bool.and_true, Option.isNone_none]
      split <;> rfl

/-- The p-values that `holm` gets are those of the family, the void tests left out. -/
theorem secPs_eq : secPs (COMPS.zip (COMPS.map ready.passed)) ready.inter = ready.family := by
  have primary : comparisonP ((.steal4, .off), ready.passed (.steal4, .off)) = none := by
    have other : SECONDARY.contains (.steal4, .off) = false := rfl
    rw [comparisonP, passed, testP, other, Bool.and_false]
    cases ready.why (.pair .steal4 .off) <;> rfl
  have split : COMPS.zip (COMPS.map ready.passed) =
      ((.steal4, .off), ready.passed (.steal4, .off)) ::
        SECONDARY.map fun ab => (ab, ready.passed ab) := rfl
  have each : (SECONDARY.map fun ab => (ab, ready.passed ab)).filterMap comparisonP =
      (SECONDARY.map fun ab => .pair ab.1 ab.2).filterMap ready.memberP := by
    rw [List.filterMap_map, List.filterMap_map]
    exact List.filterMap_congr fun ab member => ready.comparisonP_eq member
  rw [secPs, split, List.filterMap_cons_none primary, each, interactionP_eq, family,
    secondaryFamily, List.filterMap_append]
  cases last : ready.memberP .interaction <;> simp [last]

theorem reportComparison_eq (ab : Cond × Cond) :
    reportComparison set an smoke metric ready.fav (holm ready.family)
        (ab, ready.passed ab) =
      ⟨ready.reportLines (.pair ab.1 ab.2),
        .ok (if !smoke && (ready.why (.pair ab.1 ab.2)).isNone then
          some (ready.flip (.pair ab.1 ab.2)) else none)⟩ := by
  rw [passed, reportLines]
  cases gate : ready.why (.pair ab.1 ab.2) with
  | some why =>
      rw [Option.isNone_some, Bool.and_false]
      rfl
  | none =>
      have same : (if ab = (.steal4, .off) then none
          else (holm ready.family).get? (.pair ab.1 ab.2)) = ready.pAdj (.pair ab.1 ab.2) := by
        rw [pAdj]
        refine if_congr ⟨fun same => by rw [same], fun same => ?_⟩ rfl rfl
        exact Prod.ext (Test.pair.inj same).1 (Test.pair.inj same).2
      have line := ready.reportLine_eq (.pair ab.1 ab.2) (ready.pAdj (.pair ab.1 ab.2))
      rw [reportComparison]
      dsimp only
      rw [ready.base_eq, eval_ok_bind, same]
      refine line.trans ?_
      cases smoke <;> rfl

theorem reportInteraction_eq :
    reportInteraction set an smoke metric ready.fav (holm ready.family) ready.inter =
      ⟨ready.voidLines .interaction ++ ready.reportLines .interaction ++
        (if ready.why .interaction = none then [.interactionNote smoke] else []), .ok ()⟩ := by
  rw [inter, voidLines, reportLines]
  cases ready.why .interaction with
  | some why => rfl
  | none =>
      have line : reportLine set smoke metric .interaction (ready.deltas .interaction)
          (ready.base .off) ready.fav .secondaryHolm ((holm ready.family).get? .interaction) = _ :=
        ready.reportLine_eq .interaction (ready.pAdj .interaction)
      rw [reportInteraction]
      dsimp only
      rw [ready.base_eq, eval_ok_bind, line, done_bind]
      rfl

theorem voided_eq :
    ((COMPS.map ready.passed).any Option.isNone || ready.inter.isLeft) = ready.outcome.voided := by
  have pair : ∀ ab, (ready.passed ab).isNone = (ready.why (.pair ab.1 ab.2)).isSome := fun ab => by
    rw [passed]
    cases ready.why (.pair ab.1 ab.2) <;> rfl
  have last : ready.inter.isLeft = (ready.why .interaction).isSome := by
    rw [inter]
    cases ready.why .interaction <;> rfl
  rw [outcome, plannedTests, List.any_append, List.any_map, List.any_map, last]
  simp only [Function.comp_def, pair, List.any_cons, List.any_nil, Bool.or_false]

theorem verdict_eq :
    Option.map (verdictOf an.round ready.fav) (if famPrimary an.mode metric then
      (COMPS.map fun ab => if !smoke && (ready.why (.pair ab.1 ab.2)).isNone then
        some (ready.flip (.pair ab.1 ab.2)) else none).headD none else none) =
      ready.outcome.verdict := by
  -- the first comparison is the primary one
  change Option.map _ (if famPrimary an.mode metric then
    if !smoke && (ready.why (.pair .steal4 .off)).isNone then
      some (ready.flip (.pair .steal4 .off)) else none else none) = _
  rw [outcome, ready.round_eq]
  cases famPrimary an.mode metric <;> cases ready.why (.pair .steal4 .off) <;> cases smoke <;> rfl

theorem reportMetric_eq :
    reportMetric set an smoke metric ready.fav (COMPS.map ready.passed) ready.inter =
      ⟨COMPS.flatMap (fun ab => ready.reportLines (.pair ab.1 ab.2)) ++
        (ready.voidLines .interaction ++ ready.reportLines .interaction ++
          (if ready.why .interaction = none then [.interactionNote smoke] else [])),
        .ok ready.outcome⟩ := by
  have zipped : COMPS.zip (COMPS.map ready.passed) = COMPS.map fun ab => (ab, ready.passed ab) :=
    rfl
  have reports : (COMPS.map fun ab => (ab, ready.passed ab)).mapM'
      (reportComparison set an smoke metric ready.fav (holm ready.family)) =
      ⟨COMPS.flatMap (fun ab => ready.reportLines (.pair ab.1 ab.2)),
        .ok (COMPS.map fun ab => if !smoke && (ready.why (.pair ab.1 ab.2)).isNone then
          some (ready.flip (.pair ab.1 ab.2)) else none)⟩ :=
    map_mapM'_of_eq fun ab _ => ready.reportComparison_eq ab
  rw [reportMetric]
  dsimp only
  rw [ready.secPs_eq, zipped, reports, done_bind, ready.reportInteraction_eq, done_bind]
  simp only [ready.voided_eq, ready.verdict_eq, pure_lines, pure_result, List.append_nil]

/-- **The lines of a metric**, and what it contributes to the end of the analysis.  No line
is left open. -/
theorem analyzeMetric_eq :
    analyzeMetric set an smoke metric = ⟨ready.lines, .ok ready.outcome⟩ := by
  have bases : ([.off, .steal4, .both] : List Cond).mapM' (an.metricMean metric) =
      .ok [ready.base .off, ready.base .steal4, ready.base .both] := by
    rw [mapM'_ok]
    simp only [List.map_cons, List.map_nil, ready.base_eq]
  have gates : COMPS.mapM' (gateComparison an smoke metric) =
      ⟨COMPS.flatMap (fun ab => ready.voidLines (.pair ab.1 ab.2)), .ok (COMPS.map ready.passed)⟩ :=
    mapM'_of_eq fun ab _ => ready.gateComparison_eq ab
  have fav : demand (FAVOR metric) (PyError.keyError metric.text) = .ok ready.fav :=
    demand_ok.mpr ready.fav_eq
  rw [analyzeMetric, fav, eval_ok_bind, emit_bind, bases, eval_ok_bind, gates, done_bind,
    ready.gateInteraction_eq, eval_ok_bind, ready.reportMetric_eq, lines]
  simp only [List.append_assoc, List.cons_append, List.nil_append]

end Ready

end WgReceivePath.Analyze
