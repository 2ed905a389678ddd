import WgReceivePath.Analyze.GateB

/-!
# The CPU-only campaign

A CPU-only campaign is meant to be all or nothing: the preflight gates every row and every
compared pair, and a campaign that it lets pass is to be reported in full, with the Holm
values of five tests.  The comparisons ask the same gates again, but the preflight allows a
mismatch of the loads of a pair of 1.5 percent and `1e-9` (`Analysis.passes_campaign`), a
comparison only 1.5 percent.

## Main results

* `voided_whole` and `reported_whole`, the two ends of a campaign.
* `partly_voided`: a pair between the two limits voids its comparison after the preflight.
* `campaign_whole`: so a campaign is all or nothing if and only if there is no such pair, or
  the preflight voids it for another reason.

The whole argument is about two values of one parameter: `Analysis.Campaign limit` says that
all rows pass and all pairs up to the limit, the preflight decides it at one value, and the
comparisons at the other.
-/

namespace WgReceivePath.Analyze

open Printing

/-! ## The preflight

The preflight collects all reasons instead of stopping at the first, so that it returns an
empty list if and only if each gate gives none. -/

section Loops

variable {α ρ : Type} {xs : List α} {P : α → Prop}

/-- A loop that collects reasons finds none if no round does. -/
theorem exists_flatten {g : α → Except PyError (List ρ)}
    (rounds : ∀ x ∈ xs, ∃ rs, g x = .ok rs ∧ (rs = [] ↔ P x)) :
    ∃ ys, xs.mapM' g = .ok ys ∧ (ys.flatten = [] ↔ ∀ x ∈ xs, P x) := by
  obtain ⟨ys, returned, -, all⟩ := mapM'_returns_iff rounds
  exact ⟨ys, returned, List.flatten_eq_nil_iff.trans all⟩

theorem exists_reduceOption {g : α → Except PyError (Option ρ)}
    (rounds : ∀ x ∈ xs, Passes (g x) (P x)) :
    ∃ ys, xs.mapM' g = .ok ys ∧ (ys.reduceOption = [] ↔ ∀ x ∈ xs, P x) := by
  obtain ⟨ys, returned, -, all⟩ := mapM'_returns_iff rounds
  exact ⟨ys, returned, List.filterMap_eq_nil_iff.trans all⟩

end Loops

namespace Analysis

variable (an : Analysis)

/-- The mismatch of a compared pair in a block. -/
def mis (ab : Cond × Cond) (blk : Text) : ℚ := mismatchPct (an.load blk ab.1) (an.load blk ab.2)

/-- A row passes the absolute gate and the dmesg gate. -/
def RowPasses (blk : Text) (c : Cond) : Prop :=
  an.absLoadRowReason blk c = .ok none ∧ ¬ 0 < an.value blk c "dmesg_new"

/-- All rows pass, and all compared pairs up to a limit.  The preflight and the comparisons
ask this with different limits. -/
def Campaign (limit : ℚ) : Prop :=
  (∀ blk ∈ an.blocks, ∀ c ∈ CONDS, an.RowPasses blk c) ∧
    ∀ ab ∈ COMPS, ∀ blk ∈ an.blocks, an.mis ab blk ≤ limit

variable {an}

/-- **The preflight returns, and finds nothing if and only if all rows pass, and all pairs up to
1.5 percent and the guard.** -/
theorem passes_campaign (valid : an.Valid) (exact : an.round = .fin)
    (cpu : an.mode = .fixedloadCpu) : ∃ reasons, an.campaignVoidReasons = .ok reasons ∧
      (reasons = [] ↔ an.Campaign (3 / 2 + 1 / 10 ^ 9)) := by
  have gateB : an.mode ≠ .confirm := by simp [cpu]
  have row : ∀ e ∈ an.rowsOf CONDS, ∃ rs, (do
      let load ← an.absLoadRowReason e.1 e.2
      let dmesg ← an.dmesgRowReason e.1 e.2
      return load.toList ++ dmesg.toList) = .ok rs ∧ (rs = [] ↔ an.RowPasses e.1 e.2) := by
    intro e mem
    simp only [rowsOf, List.mem_flatMap, List.mem_map] at mem
    obtain ⟨blk, block, c, -, rfl⟩ := mem
    obtain ⟨load, returned, passes⟩ := range_returns valid exact cpu block c
    obtain ⟨dmesg, returned', passes'⟩ := passes_dmesgRow valid exact cpu block c
    refine ⟨load.toList ++ dmesg.toList, ?_, ?_⟩
    · rw [returned, ok_bind, returned', ok_bind]
      rfl
    · rw [RowPasses, ← passes, ← passes', List.append_eq_nil_iff, Option.toList_eq_nil_iff,
        Option.toList_eq_nil_iff]
  obtain ⟨rows, rows_eq, rows_iff⟩ := exists_flatten row
  obtain ⟨pairs, pairs_eq, pairs_iff⟩ :
      ∃ ys, (COMPS.flatMap fun ab => an.blocks.map fun blk => (ab, blk)).mapM' (fun e =>
          an.pairReason (.fin (3 / 2 + 1 / 10 ^ 9)) e.1.1 e.1.2 e.2) = .ok ys ∧
        (ys.reduceOption = [] ↔ ∀ e ∈ COMPS.flatMap fun ab => an.blocks.map fun blk => (ab, blk),
          an.mis e.1 e.2 ≤ 3 / 2 + 1 / 10 ^ 9) := by
    refine exists_reduceOption fun e mem => ?_
    obtain ⟨ab, -, inside⟩ := List.mem_flatMap.mp mem
    obtain ⟨blk, block, rfl⟩ := List.mem_map.mp inside
    exact passes_pair valid exact gateB block ab.1 ab.2 _
  refine ⟨rows.flatten ++ pairs.reduceOption, ?_, ?_⟩
  · rw [campaignVoidReasons, if_neg (by simp [cpu]), rows_eq, ok_bind, loadGatePct, exact,
      PyFloat.add_fin]
    dsimp only
    rw [pairs_eq]
    rfl
  · rw [List.append_eq_nil_iff, rows_iff, pairs_iff, Campaign, forall_rowsOf]
    simp only [List.mem_flatMap, List.mem_map]
    constructor
    · rintro ⟨rows, pairs⟩
      exact ⟨rows, fun ab comp blk block => pairs (ab, blk) ⟨ab, comp, blk, block, rfl⟩⟩
    · rintro ⟨rows, pairs⟩
      refine ⟨rows, ?_⟩
      rintro e ⟨ab, comp, blk, block, rfl⟩
      exact pairs ab comp blk block

/-- A campaign that passes up to 1.5 percent is clear in all its tests: the pairs that a
test involves are compared pairs. -/
theorem clear_of_campaign (campaign : an.Campaign (3 / 2)) {m : Metric} (plain : m.isLat = false)
    {t : Test} (test : t ∈ plannedTests) :
    an.Clear (fun blk c => an.absLoadRowReason blk c = .ok none) m t := by
  obtain ⟨rows, pairs⟩ := campaign
  have loads : ∀ ab ∈ COMPS,
      an.LoadsFit (fun blk c => an.absLoadRowReason blk c = .ok none) ab.1 ab.2 := fun ab comp =>
    ⟨fun blk block c _ => (rows blk block c (mem_CONDS c)).1, pairs ab comp⟩
  have quiet : ∀ conds, an.NoWarnings conds := fun _ _ blk block c _ =>
    (rows blk block c (mem_CONDS c)).2
  have supported : ∀ conds, an.Supported m conds := by simp [Supported, plain]
  rcases List.mem_append.mp test with pair | last
  · obtain ⟨ab, comp, rfl⟩ := List.mem_map.mp pair
    exact ⟨loads ab comp, quiet _, supported _⟩
  · obtain rfl := List.mem_singleton.mp last
    refine ⟨fun ab component => loads ab ?_, quiet _, supported _⟩
    exact (by decide : ∀ ab ∈ INTERACTION_COMPONENTS, ab ∈ COMPS) ab component

end Analysis

/-! ## The two ends of a campaign

Voided as a whole, the campaign has no inference and exits with 2; reported as a whole, it
has no VOID line and exits with 0.  Which of the two a campaign comes to is decided by the
reasons of the preflight and of the tests, through the general description of the output. -/

variable {set : Setting} {an : Analysis} {path src : Text}

/-- The campaign is voided as a whole: nothing is inferred. -/
def VoidedWhole (an : Analysis) (out : Output ℤ) : Prop :=
  (∃ reasons, an.campaignVoidReasons = .ok reasons ∧ reasons ≠ []) ∧ out.result = .ok 2 ∧
    ∀ l ∈ out.lines, l.isInference = false

/-- The campaign is reported as a whole: nothing is voided, the primary comparison is reported,
and the Holm values are those of exactly the five predeclared tests. -/
def ReportedWhole (out : Output ℤ) : Prop :=
  out.result = .ok 0 ∧ (∀ l ∈ out.lines, l.isVoid = false) ∧
    (∃ r, .report r ∈ out.lines ∧ r.metric = .totalBusyCe ∧ r.test = .pair .steal4 .off ∧
      r.pAdj = none) ∧
    ∃ p : Test → ℚ, ∀ t ∈ [Test.pair .both .off, .pair .bsteal4 .steal4, .pair .bsteal4 .both,
        .pair .bsteal4 .off, .interaction],
      ∃ r, .report r ∈ out.lines ∧ r.metric = .totalBusyCe ∧ r.test = t ∧ r.p = p t ∧
        r.pAdj = (holm [(.pair .both .off, p (.pair .both .off)),
          (.pair .bsteal4 .steal4, p (.pair .bsteal4 .steal4)),
          (.pair .bsteal4 .both, p (.pair .bsteal4 .both)),
          (.pair .bsteal4 .off, p (.pair .bsteal4 .off)),
          (.interaction, p .interaction)]).get? t

theorem dmesgCount_count {r : Row} {n : ℤ} (count : r.Count "dmesg_new" n) (nonneg : 0 ≤ n) :
    ∃ n, dmesgCount .fin r = .ok n := by
  obtain ⟨raw, field, value⟩ := count
  exact dmesgCount_returns (Option.join_eq_some_iff.mp field) (Text.float?_of_int? .fin value)
    nonneg

/-- The warnings of a CPU-only artifact can be counted. -/
theorem dmesgCounts_cpu (valid : an.Valid) (exact : an.round = .fin)
    (cpu : an.mode = .fixedloadCpu) : ∃ ns, dmesgCounts an = .ok ns := by
  refine dmesgCounts_returns fun e entry => ?_
  obtain ⟨n, nonneg, count⟩ := (checkRow_ok.mp (valid.entries e entry)).counts "dmesg_new"
    (by rw [cpu]; decide)
  rw [exact]
  exact dmesgCount_count count nonneg

/-- A campaign that fails the preflight is voided as a whole. -/
theorem voided_whole {smoke : Bool} (valid : an.Valid) (cpu : an.mode = .fixedloadCpu)
    {reasons : List Reason} (found : an.campaignVoidReasons = .ok reasons) (some : reasons ≠ []) :
    VoidedWhole an (analyzeLoaded set an path src smoke) := by
  have ends : (campaignVoidLines an smoke reasons).result = .ok 2 := by
    have loop : Returns (reasons.mapM' fun why =>
        (emit (.campaignReason why) : Output Unit)) := .mapM' fun _ _ => .emit _
    obtain ⟨us, returned⟩ := loop
    rw [campaignVoidLines, emit_bind, emit_bind, bind_of_ok returned,
      (counterLines_returns valid cpu).eq_done, done_bind]
    cases smoke <;> rfl
  have output : analyzeLoaded set an path src smoke =
      ⟨(preamble an path src smoke).lines ++ (campaignVoidLines an smoke reasons).lines,
        .ok 2⟩ := by
    rw [analyzeLoaded, (preamble_returns valid).eq_done, done_bind, found, eval_ok_bind,
      if_pos some, ends]
  refine ⟨⟨reasons, found, some⟩, by rw [output], fun l mem => ?_⟩
  rw [output] at mem
  rcases List.mem_append.mp mem with first | later
  · exact Line.isInference_of_quiet (preamble_all l first)
  · exact campaignVoidLines_all l later

/-- The analysis of a CPU-only artifact, whatever its target. -/
theorem exists_runs_cpu (valid : an.Valid) (same : an.round = set.round) (exact : set.round = .fin)
    (cpu : an.mode = .fixedloadCpu) (few : an.blocks.length ≤ 20) :
    ∃ runs : Runs set an false, ∀ m listed t, (runs.ready m listed).why t = none ↔
      an.Clear (fun blk c => an.absLoadRowReason blk c = .ok none) m t :=
  Analysis.exists_runs valid same exact (by simp [cpu]) (fun _ => few) fun _ mem c =>
    Analysis.range_returns valid (same.trans exact) cpu mem c

theorem Analysis.Campaign.mono {limit limit' : ℚ} (campaign : an.Campaign limit)
    (le : limit ≤ limit') : an.Campaign limit' :=
  ⟨campaign.1, fun ab comp blk block => (campaign.2 ab comp blk block).trans le⟩

/-- Nothing is found by a preflight that everything passes. -/
theorem campaign_clear (valid : an.Valid) (exact : an.round = .fin) (cpu : an.mode = .fixedloadCpu)
    (campaign : an.Campaign (3 / 2 + 1 / 10 ^ 9)) : an.campaignVoidReasons = .ok [] := by
  obtain ⟨reasons, returned, passes⟩ := Analysis.passes_campaign valid exact cpu
  rw [returned, passes.mpr campaign]

/-- The p-values that `holm` gets when nothing is void: those of all five tests of the
family. -/
theorem family_of_passed {m : Metric} (ready : Ready set an false m)
    (passed : ∀ t ∈ plannedTests, ready.why t = none) :
    ready.family = secondaryFamily.map fun t => (t, (ready.flip t).2) := by
  rw [Ready.family, ← List.filterMap_eq_map]
  refine List.filterMap_congr fun t member => ?_
  have test : t ∈ plannedTests := (by decide : ∀ t ∈ secondaryFamily, t ∈ plannedTests) t member
  rw [Ready.memberP, passed t test]
  rfl

section Passed

variable {smoke : Bool} (runs : Runs set an smoke)
  (passed : ∀ m listed, ∀ t ∈ plannedTests, (runs.ready m listed).why t = none)

include passed

/-- Where nothing is void, the exit status is 0. -/
theorem result_of_passed (valid : an.Valid) (clear : an.campaignVoidReasons = .ok [])
    (counts : ∃ ns, dmesgCounts an = .ok ns) :
    (analyzeLoaded set an path src smoke).result = .ok 0 := by
  have kept : ¬ (runs.outcomes.any fun e => e.2.voided) = true := by
    rw [runs.any_voided]
    rintro ⟨m, listed, t, test, reason⟩
    exact reason (passed m listed t test)
  rw [runs.analyzeLoaded_eq valid clear, conclusion_result valid counts, if_neg kept]

/-- Where nothing is void, a CPU-only analysis has its verdict. -/
theorem verdict_of_passed (cpu : an.mode = .fixedloadCpu) (final : smoke = false) :
    verdictIn runs.outcomes .totalBusyCe ≠ none := by
  have single : metricsOf an.mode = [.totalBusyCe] := by
    rw [cpu]
    rfl
  have found : (runs.outcomes.find? fun e => e.1 = .totalBusyCe) =
      some (.totalBusyCe, runs.outcome .totalBusyCe) := by
    rw [Runs.outcomes, single]
    rfl
  have listed := totalBusyCe_listed an.mode
  have primary : (!smoke && famPrimary an.mode .totalBusyCe &&
      ((runs.ready _ listed).why (.pair .steal4 .off)).isNone) = true := by
    rw [cpu, passed _ listed _ (by decide), final]
    rfl
  rw [verdictIn, found, Option.bind_some, Runs.outcome, dif_pos listed, Ready.outcome,
    if_pos primary]
  exact Option.some_ne_none _

/-- Where nothing is void, no line voids anything. -/
theorem unvoided_of_passed (valid : an.Valid) (clear : an.campaignVoidReasons = .ok [])
    (cpu : an.mode = .fixedloadCpu) {l : Line}
    (mem : l ∈ (analyzeLoaded set an path src smoke).lines) : l.isVoid = false := by
  by_contra void
  have void := Bool.eq_true_of_not_eq_false void
  have result := Line.isResult_of_isVoid void
  rcases runs.mem_of_result valid clear mem result with ⟨m, listed, line⟩ | after
  · obtain ⟨t, test, ⟨-, rfl⟩ | ⟨why, reason, -⟩⟩ := (runs.ready m listed).result_cases line result
    · exact absurd void (ne_true_of_eq_false ((runs.ready m listed).line_not_isVoid _))
    · rw [passed m listed t test] at reason
      cases reason
  · obtain ⟨final, ⟨m, ms, pass, verdict, rfl, -⟩ | ⟨ms, rfl, none⟩⟩ :=
      conclusion_all l after result
    · cases void
    · exact verdict_of_passed runs passed cpu final (none cpu)

end Passed

/-- A campaign that passes up to 1.5 percent is reported as a whole.  All tests pass, so
that nothing is voided, the verdict is there, and the family of the Holm values is complete.
-/
theorem reported_whole (valid : an.Valid) (same : an.round = set.round) (exact : set.round = .fin)
    (cpu : an.mode = .fixedloadCpu) (few : an.blocks.length ≤ 20)
    (campaign : an.Campaign (3 / 2)) : ReportedWhole (analyzeLoaded set an path src false) := by
  have clear := campaign_clear valid (same.trans exact) cpu (campaign.mono (by norm_num))
  obtain ⟨runs, passes⟩ := exists_runs_cpu valid same exact cpu few
  have plain : ∀ m ∈ metricsOf an.mode, m.isLat = false := by
    rw [cpu]
    decide
  have passed : ∀ m listed, ∀ t ∈ plannedTests, (runs.ready m listed).why t = none := by
    intro m listed t test
    rw [passes]
    exact Analysis.clear_of_campaign campaign (plain m listed) test
  have listed := totalBusyCe_listed an.mode
  have report : ∀ t ∈ plannedTests, ∃ r, .report r ∈ (analyzeLoaded set an path src false).lines ∧
      r.metric = .totalBusyCe ∧ r.test = t ∧ r.p = ((runs.ready _ listed).flip t).2 ∧
      r.pAdj = (runs.ready _ listed).pAdj t := fun t test =>
    runs.report_mem valid clear rfl listed test (passed _ listed t test)
  refine ⟨?_, fun l mem => unvoided_of_passed runs passed valid clear cpu mem, ?_,
    fun t => ((runs.ready _ listed).flip t).2, fun t member => ?_⟩
  · exact result_of_passed runs passed valid clear (dmesgCounts_cpu valid (same.trans exact) cpu)
  · obtain ⟨r, line, metric, test, -, adjusted⟩ := report (.pair .steal4 .off) (by decide)
    exact ⟨r, line, metric, test, adjusted⟩
  · have member : t ∈ secondaryFamily := member
    obtain ⟨r, line, metric, test, p, adjusted⟩ :=
      report t ((by decide : ∀ t ∈ secondaryFamily, t ∈ plannedTests) t member)
    refine ⟨r, line, metric, test, p, ?_⟩
    rw [adjusted, Ready.pAdj,
      if_neg ((by decide : ∀ t ∈ secondaryFamily, t ≠ .pair .steal4 .off) t member),
      family_of_passed _ (passed _ listed)]
    rfl

/-- A pair between the two limits passes the preflight and is then voided: its comparison is
asked again, without the guard. -/
theorem partly_voided (valid : an.Valid) (same : an.round = set.round) (exact : set.round = .fin)
    (cpu : an.mode = .fixedloadCpu) (few : an.blocks.length ≤ 20)
    (campaign : an.Campaign (3 / 2 + 1 / 10 ^ 9)) {ab : Cond × Cond} (comp : ab ∈ COMPS)
    {blk : Text} (block : blk ∈ an.blocks) (above : 3 / 2 < an.mis ab blk) :
    Voided (analyzeLoaded set an path src false) .totalBusyCe (.pair ab.1 ab.2) := by
  have clear := campaign_clear valid (same.trans exact) cpu campaign
  obtain ⟨runs, passes⟩ := exists_runs_cpu valid same exact cpu few
  have listed := totalBusyCe_listed an.mode
  have reason : (runs.ready _ listed).why (.pair ab.1 ab.2) ≠ none := by
    rw [ne_eq, passes]
    rintro ⟨⟨-, pairs⟩, -⟩
    exact absurd (pairs blk block) (not_le.mpr above)
  obtain ⟨l, line, voids⟩ :=
    ((runs.ready _ listed).voids_iff (mem_plannedTests comp)).mpr ⟨rfl, reason⟩
  exact ⟨l, runs.mem_ready listed line valid clear, voids⟩

theorem Line.isVoid_of_voids {m : Metric} {t : Test} {l : Line} (voids : l.voids m t = true) :
    l.isVoid = true := by
  cases l <;> first | rfl | cases voids

/-- **All or nothing.**  On exact rationals, for an accepted CPU-only artifact, every target and a
run that is not a smoke run: the campaign is voided or reported as a whole if and only if some row
fails, or some compared pair by more than the guard, or no compared pair at all. -/
theorem campaign_whole (set : Setting) (exact : set.round = .fin) {flag : Option Text}
    {cpuOnly : Bool} {art : Artifact}
    (loaded : loadArtifact set.toEnv path flag none cpuOnly = .ok art)
    (cpu : art.mode = .fixedloadCpu) (target : PyFloat) :
    let an := art.analysis set.round target
    let out := analyze set path flag none false target cpuOnly
    VoidedWhole an out ∨ ReportedWhole out ↔
      (∃ blk ∈ an.blocks, ∃ c ∈ CONDS, ¬ an.RowPasses blk c) ∨
      (∃ ab ∈ COMPS, ∃ blk ∈ an.blocks, 3 / 2 + 1 / 10 ^ 9 < an.mis ab blk) ∨
      ∀ ab ∈ COMPS, ∀ blk ∈ an.blocks, an.mis ab blk ≤ 3 / 2 := by
  intro an out
  have valid : an.Valid := loadArtifact_valid target loaded
  have output : out = analyzeLoaded set an path art.src false := analyze_of_loaded loaded _
  have few : an.blocks.length ≤ 20 := few_of_full loaded
  obtain ⟨reasons, returned, passes⟩ := Analysis.passes_campaign valid exact cpu
  rw [output]
  by_cases campaign : an.Campaign (3 / 2 + 1 / 10 ^ 9)
  · have passed : ¬ ∃ blk ∈ an.blocks, ∃ c ∈ CONDS, ¬ an.RowPasses blk c := by
      rintro ⟨blk, block, c, cond, fails⟩
      exact fails (campaign.1 blk block c cond)
    have within : ¬ ∃ ab ∈ COMPS, ∃ blk ∈ an.blocks, 3 / 2 + 1 / 10 ^ 9 < an.mis ab blk := by
      rintro ⟨ab, comp, blk, block, above⟩
      exact absurd (campaign.2 ab comp blk block) (not_le.mpr above)
    simp only [passed, within, false_or]
    constructor
    · rintro (⟨⟨found, same, some⟩, -⟩ | ⟨-, whole, -⟩)
      · rw [returned, passes.mpr campaign, Except.ok.injEq] at same
        exact absurd same.symm some
      · intro ab comp blk block
        by_contra above
        obtain ⟨l, line, voids⟩ :=
          partly_voided valid rfl exact cpu few campaign comp block (not_le.mp above)
        exact absurd (Line.isVoid_of_voids voids) (ne_true_of_eq_false (whole l line))
    · exact fun below => .inr (reported_whole valid rfl exact cpu few ⟨campaign.1, below⟩)
  · have some : reasons ≠ [] := fun none => campaign (passes.mp none)
    refine iff_of_true (.inl (voided_whole valid cpu returned some)) ?_
    by_contra fine
    simp only [not_or, not_exists, not_and, not_not, not_lt] at fine
    exact campaign ⟨fine.1, fine.2.1⟩

/-! ## Written campaigns

Two campaigns of eight blocks.  The first is quiet and exactly on target.  In the second one
pair of loads lies in the gap between the two limits, which is `1e-9` percent wide. -/

/-- A row passes at a rational target. -/
theorem rowPasses_of_range {target : ℚ} (valid : an.Valid) (exact : an.round = .fin)
    (cpu : an.mode = .fixedloadCpu) (rational : an.target = .fin target) {blk : Text}
    (block : blk ∈ an.blocks) (c : Cond)
    (range : target * (1 - 5 / 100) ≤ an.load blk c ∧ an.load blk c ≤ target * (1 + 5 / 100))
    (quiet : an.value blk c "dmesg_new" = 0) : an.RowPasses blk c := by
  refine ⟨(Analysis.passes_range valid exact cpu block c rational).iff.mpr ⟨?_, ?_⟩,
    by rw [quiet]; exact lt_irrefl 0⟩
  · linarith [range.1]
  · linarith [range.2]

/-- A campaign whose loads are all 3.8 Gbps passes at every target that is near to that. -/
theorem campaign_of_loads {target : ℚ} (valid : an.Valid) (exact : an.round = .fin)
    (cpu : an.mode = .fixedloadCpu) (rational : an.target = .fin target)
    (loads : ∀ blk ∈ an.blocks, ∀ c ∈ CONDS, fieldValue an.table blk c "load_window_gbps" = 19 / 5 ∧
      fieldValue an.table blk c "dmesg_new" = 0)
    (near : target * (1 - 5 / 100) ≤ 19 / 5 ∧ 19 / 5 ≤ target * (1 + 5 / 100)) :
    an.Campaign (3 / 2) := by
  have load : ∀ blk ∈ an.blocks, ∀ c, an.load blk c = 19 / 5 := by
    intro blk block c
    exact (loads blk block c (mem_CONDS c)).1
  refine ⟨fun blk block c cond => ?_, fun ab _ blk block => ?_⟩
  · exact rowPasses_of_range valid exact cpu rational block c (by rwa [load blk block c])
      (loads blk block c cond).2
  · rw [Analysis.mis, load blk block, load blk block, mismatchPct]
    norm_num

/-- At 3.8 Gbps throughout, the campaign is reported as a whole. -/
theorem campaign_whole_eight : ∃ art,
    loadArtifact (writtenEight .fixedloadCpu).toEnv "a" none none true = .ok art ∧
      art.mode = .fixedloadCpu ∧
      ReportedWhole
        (analyze (writtenEight .fixedloadCpu) "a" none none false (.fin (19 / 5)) true) := by
  obtain ⟨art, loaded, cpu, loads⟩ := exists_eight_cpu
  have valid := loadArtifact_valid (.fin (19 / 5)) loaded
  have campaign := campaign_of_loads valid rfl cpu rfl loads (by norm_num)
  have clear := campaign_clear valid rfl cpu
    ⟨campaign.1, fun ab comp blk block => (campaign.2 ab comp blk block).trans (by norm_num)⟩
  have whole := (campaign_whole (writtenEight .fixedloadCpu) rfl loaded cpu (.fin (19 / 5))).mpr
    (.inr (.inr campaign.2))
  refine ⟨art, loaded, cpu, whole.resolve_left ?_⟩
  -- the preflight finds nothing, so that the campaign is not voided
  rintro ⟨⟨reasons, found, some⟩, -⟩
  rw [show (art.analysis (writtenEight .fixedloadCpu).round (.fin (19 / 5))).campaignVoidReasons =
    .ok [] from clear, Except.ok.injEq] at found
  exact some found.symm

/-- The loads of block 1 in off and steal4, further apart than 1.5 percent of their mean by
`5e-10` percent. -/
def apart (b : Text) (c : Cond) : Option Text :=
  if b = ("1" : Text) then
    match c with
    | .off => some "3.7714999999905"
    | .steal4 => some "3.8285000000095"
    | _ => none
  else none

def writtenApart : Setting :=
  writtenSetting eightBlocks (written .fixedloadCpu eightBlocks (mutated "load_window_gbps" apart))

/-- A campaign that passes the preflight and is then voided in its primary comparison, with another
one reported. -/
theorem campaign_partly_voided : ∃ art,
    loadArtifact writtenApart.toEnv "a" none none true = .ok art ∧ art.mode = .fixedloadCpu ∧
      (art.analysis .fin (.fin (19 / 5))).campaignVoidReasons = .ok [] ∧
      Voided (analyze writtenApart "a" none none false (.fin (19 / 5)) true) .totalBusyCe
        (.pair .steal4 .off) ∧
      Reported (analyze writtenApart "a" none none false (.fin (19 / 5)) true) .totalBusyCe
        (.pair .both .off) := by
  obtain ⟨art, loaded, tested⟩ : ∃ art,
      loadArtifact writtenApart.toEnv "a" none none true = .ok art ∧
        decide (art.mode = .fixedloadCpu ∧
          (∀ blk ∈ art.blocks, ∀ c ∈ CONDS,
            (361 / 100 ≤ fieldValue art.table blk c "load_window_gbps" ∧
              fieldValue art.table blk c "load_window_gbps" ≤ 399 / 100) ∧
            fieldValue art.table blk c "dmesg_new" = 0) ∧
          (∀ ab ∈ COMPS, ∀ blk ∈ art.blocks,
            (art.analysis .fin (.fin (19 / 5))).mis ab blk ≤ 3 / 2 + 1 / 10 ^ 9) ∧
          (∃ blk ∈ art.blocks,
            3 / 2 < (art.analysis .fin (.fin (19 / 5))).mis (.steal4, .off) blk) ∧
          ∀ blk ∈ art.blocks,
            (art.analysis .fin (.fin (19 / 5))).mis (.both, .off) blk ≤ 3 / 2) = true :=
    exists_of_returnsWith (by decide +kernel)
  obtain ⟨cpu, rows, pairs, ⟨blk, block, above⟩, below⟩ := of_decide_eq_true tested
  have valid := loadArtifact_valid (.fin (19 / 5)) loaded
  have few := few_of_full loaded
  have campaign : (art.analysis .fin (.fin (19 / 5))).Campaign (3 / 2 + 1 / 10 ^ 9) := by
    refine ⟨fun blk block c cond => ?_, pairs⟩
    obtain ⟨⟨low, high⟩, quiet⟩ := rows blk block c cond
    exact rowPasses_of_range valid rfl cpu rfl block c
      ⟨le_trans (by norm_num) low, high.trans (by norm_num)⟩ quiet
  have clear := campaign_clear valid rfl cpu campaign
  rw [analyze_of_loaded loaded]
  refine ⟨art, loaded, cpu, clear, ?_, ?_⟩
  · exact partly_voided valid rfl rfl cpu few campaign (by decide) block above
  · obtain ⟨runs, passes⟩ := exists_runs_cpu valid rfl rfl cpu few
    have listed := totalBusyCe_listed (art.analysis .fin (.fin (19 / 5))).mode
    refine (runs.reported_iff valid clear listed (by decide)).mpr ((passes _ listed _).mpr ?_)
    refine ⟨⟨fun blk block c _ => ?_, below⟩, fun _ blk block c _ => ?_, ?_⟩
    · exact (campaign.1 blk block c (mem_CONDS c)).1
    · exact (campaign.1 blk block c (mem_CONDS c)).2
    · intro lat
      cases lat

end WgReceivePath.Analyze
