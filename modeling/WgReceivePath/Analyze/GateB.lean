import WgReceivePath.Analyze.Output

/-!
# Gate B: fixed-load artifacts

In both fixed-load modes a test passes if and only if its rows are clear (`Analysis.Clear`):
their loads fit the target and each other, no row of a CPU-only artifact has kernel
warnings, and the rows of a latency metric have little loss and enough observations
(`Analysis.passes_test`).  What a mode asks of a single load (`A` below) is the one
difference.

`legacy_gates` is the result for the legacy mode: the reports are exactly those of the tests
whose rows are fit, in terms of loads, losses and observations (`Analysis.Fit`), and the
exit status tells whether a test was voided.

The proof has three parts, which the CPU-only mode shares: the gates return and have their
conditions (`Analysis.passes_test`), so the analysis runs (`Analysis.exists_runs`), so its
output is known (`Analyze.Output`).  What is special here is the translation of percentages
into differences (`Analysis.clear_iff_fit`).
-/

namespace WgReceivePath.Analyze

open Printing

/-! ## Clear rows

The condition for a test to pass, for an absolute gate `A` that is left open: an interval in
CPU-only mode, a relative deviation in the legacy mode. -/

namespace Analysis

section Clear

variable (an : Analysis) (A : Text → Cond → Prop) (metric : Metric)

/-- The loads of a pair fit, row by row and with each other. -/
def LoadsFit (a b : Cond) : Prop :=
  (∀ blk ∈ an.blocks, ∀ c ∈ [a, b], A blk c) ∧
    ∀ blk ∈ an.blocks, mismatchPct (an.load blk a) (an.load blk b) ≤ 3 / 2

/-- No row has kernel warnings, in CPU-only mode. -/
def NoWarnings (conds : List Cond) : Prop :=
  an.mode = .fixedloadCpu → ∀ blk ∈ an.blocks, ∀ c ∈ conds, ¬ 0 < an.value blk c "dmesg_new"

/-- Little loss and enough observations, for a latency metric. -/
def Supported (conds : List Cond) : Prop :=
  metric.isLat = true → ∀ blk ∈ an.blocks, ∀ c ∈ conds,
    100 * an.value blk c "valid_dropped_msgs" / an.value blk c "valid_sent_msgs" ≤ 1 ∧
      needOf metric ≤ an.value blk c "lat_n"

/-- The rows that a test involves pass its gates.  `A` is what the absolute gate asks of a
load; it depends on the mode and on the target. -/
def Clear : Test → Prop
  | .pair a b => an.LoadsFit A a b ∧ an.NoWarnings [a, b] ∧ an.Supported metric [a, b]
  | .interaction =>
      (∀ ab ∈ INTERACTION_COMPONENTS, an.LoadsFit A ab.1 ab.2) ∧ an.NoWarnings CONDS ∧
        an.Supported metric CONDS

end Clear

variable {an : Analysis} {A : Text → Cond → Prop} {metric : Metric}

theorem forall_conds {P : Cond → Prop} :
    (∀ c ∈ CONDS, P c) ↔ (∀ c ∈ [Cond.bsteal4, .steal4], P c) ∧ ∀ c ∈ [Cond.both, .off], P c := by
  simp only [CONDS, List.forall_mem_cons, List.not_mem_nil, false_imp_iff, implies_true, and_true]
  tauto

/-- The interaction is clear if and only if its two components are, since they involve all
four conditions. -/
theorem clear_interaction : an.Clear A metric .interaction ↔
    an.Clear A metric (.pair .bsteal4 .steal4) ∧ an.Clear A metric (.pair .both .off) := by
  simp only [Clear, INTERACTION_COMPONENTS, NoWarnings, Supported, forall_conds,
    List.forall_mem_cons (a := (Cond.bsteal4, Cond.steal4)),
    List.forall_mem_singleton (a := (Cond.both, Cond.off)), forall_and]
  tauto

/-- Latency is a matter of the legacy mode. -/
theorem mode_of_isLat {mode : Mode} (listed : metric ∈ metricsOf mode) (lat : metric.isLat = true) :
    mode = .fixedload := by
  have none : ∀ m ∈ metricsOf mode, m.isLat = true → mode = .fixedload := by
    cases mode <;> decide
  exact none metric listed lat

/-- **The gates of a test pass if and only if its rows are clear.** -/
theorem passes_test (valid : an.Valid) (exact : an.round = .fin) (gateB : an.mode ≠ .confirm)
    (absolute : ∀ blk ∈ an.blocks, ∀ c, Passes (an.absLoadRowReason blk c) (A blk c))
    (listed : metric ∈ metricsOf an.mode) (t : Test) :
    Passes (an.testReason metric t) (an.Clear A metric t) := by
  have load : ∀ a b, Passes (an.loadVoidReason a b) (an.LoadsFit A a b) := fun a b =>
    passes_load valid exact gateB fun blk mem c _ => absolute blk mem c
  have dmesg : ∀ conds, Passes (an.dmesgVoidReason conds) (an.NoWarnings conds) := by
    intro conds
    by_cases cpu : an.mode = .fixedloadCpu
    · exact (passes_dmesg valid exact cpu conds).congr
        (by simp only [NoWarnings, cpu, true_imp_iff])
    · rw [dmesgVoidReason, if_pos cpu]
      exact Passes.none.congr (by simp only [NoWarnings, cpu, false_imp_iff])
  cases t with
  | pair a b =>
      exact passes_comparison (load a b) (dmesg [a, b]) fun lat =>
        passes_latency valid exact (mode_of_isLat listed lat) metric [a, b]
  | interaction =>
      exact passes_interaction (fun ab _ => load ab.1 ab.2) (dmesg CONDS) fun lat =>
        passes_latency valid exact (mode_of_isLat listed lat) metric CONDS

/-- The computations behind every metric return, and the tests pass that are clear.  The
number of blocks matters for p-values only. -/
theorem exists_runs {set : Setting} {smoke : Bool} (valid : an.Valid) (same : an.round = set.round)
    (exact : set.round = .fin) (gateB : an.mode ≠ .confirm)
    (few : smoke = false → an.blocks.length ≤ 20)
    (absolute : ∀ blk ∈ an.blocks, ∀ c, Passes (an.absLoadRowReason blk c) (A blk c)) :
    ∃ runs : Runs set an smoke, ∀ m listed t,
      (runs.ready m listed).why t = none ↔ an.Clear A m t := by
  refine Runs.exists_of_forall fun m listed => exists_ready valid same listed few (fun c => ?_)
    (passes_test valid (same.trans exact) gateB absolute listed)
  rcases summary_columns (metricsOf_subset listed) with ⟨-, confirm⟩ | ⟨plain, column⟩
  · exact absurd confirm gateB
  · obtain ⟨q, positive, mean⟩ := valid.metricMean_positive (same.trans exact) plain column c
    exact ⟨_, mean, by simpa using positive.ne'⟩

end Analysis

/-! ## The analysis of a loaded artifact -/

variable {set : Setting} {path : Text} {flag : Option Text} {blocks : Option ℤ} {smoke : Bool}
  {cpuOnly : Bool} {art : Artifact}

theorem analyze_of_loaded (loaded : loadArtifact set.toEnv path flag blocks cpuOnly = .ok art)
    (target : PyFloat) : analyze set path flag blocks smoke target cpuOnly =
      analyzeLoaded set (art.analysis set.round target) path art.src smoke := by
  rw [analyze, loaded, eval_ok_bind]

/-- Without an override the number of blocks is the one that the mode expects. -/
theorem length_of_loaded {env : Env} (loaded : loadArtifact env path flag none cpuOnly = .ok art) :
    (art.blocks.length : ℤ) = EXPECT_BLOCKS art.mode := by
  obtain ⟨records, -, -, accepted, -⟩ := loadArtifact_ok.mp loaded
  exact (orderBlocks_ok.mp accepted.ordered).2.2

/-- These are few enough for p-values. -/
theorem few_of_full {env : Env} (loaded : loadArtifact env path flag none cpuOnly = .ok art) :
    art.blocks.length ≤ 20 := by
  have most : ∀ mode, EXPECT_BLOCKS mode ≤ 20 := by
    intro mode
    cases mode <;> decide
  exact_mod_cast (length_of_loaded loaded).trans_le (most art.mode)

/-- A run that is not a smoke run has no override. -/
theorem few_of_loaded {env : Env} (permitted : blocks = none ∨ smoke = true)
    (loaded : loadArtifact env path flag blocks cpuOnly = .ok art) :
    smoke = false → art.blocks.length ≤ 20 := by
  intro final
  obtain rfl : blocks = none := permitted.resolve_right (by simp [final])
  exact few_of_full loaded

/-- Some line reports the test. -/
def Reported (out : Output ℤ) (m : Metric) (t : Test) : Prop :=
  ∃ l ∈ out.lines, l.reports m t = true

/-- Some line voids the test. -/
def Voided (out : Output ℤ) (m : Metric) (t : Test) : Prop := ∃ l ∈ out.lines, l.voids m t = true

/-- The analysis of a written artifact, with no draws to speak of. -/
def writtenSetting (blocks : List Text) (records : List (List Text)) : Setting where
  toEnv := writtenEnv .fin blocks records
  choices _ _ _ := []

theorem writtenSetting_round (blocks : List Text) (records : List (List Text)) :
    (writtenSetting blocks records).round = .fin := rfl

/-- A written artifact of eight blocks in one of the fixed-load modes. -/
def writtenEight (mode : Mode) : Setting :=
  writtenSetting eightBlocks (written mode eightBlocks fun _ _ row => row)

/-- The call that a command line asks for, by evaluation. -/
theorem parsed_of_test {round : ℚ → PyFloat} {argv : List Text} {call : Call}
    (tested : returnsWith (parseArgs round argv) (fun found => decide (found = call)) = true) :
    parseArgs round argv = .ok call := by
  obtain ⟨found, parsed, same⟩ := exists_of_returnsWith tested
  rw [parsed, of_decide_eq_true same]

/-! ## The legacy mode

The gates compare percentages, and `Analysis.Fit` compares differences.  The two agree
because loads are positive.  The exit status needs one more fact: the warnings of the rows
are counted at the end, and the legacy mode does not check that field. -/

/-- The field is a plain decimal integer. -/
def Row.PlainDecimal (r : Row) (key : Text) : Prop :=
  ∃ raw, r.get? key = some (some raw) ∧ raw ≠ [] ∧ ∀ ch ∈ raw, Text.isDecimal ch = true

/-- The warnings of a row can be counted if the field is a number. -/
theorem dmesgCount_returns {r : Row} {raw : Text} {n : ℤ}
    (field : r.get? "dmesg_new" = some (some raw)) (value : raw.float? .fin = some (.fin n))
    (nonneg : 0 ≤ n) : ∃ n, dmesgCount .fin r = .ok n := by
  rw [dmesgCount, field]
  dsimp only
  split
  · rw [value, demand, ok_bind, toInt_intCast nonneg]
    exact ⟨_, rfl⟩
  · exact ⟨none, rfl⟩

theorem dmesgCount_plain {r : Row} (plain : r.PlainDecimal "dmesg_new") :
    ∃ n, dmesgCount .fin r = .ok n := by
  obtain ⟨raw, field, nonempty, digits⟩ := plain
  have value := Text.float?_digits .fin nonempty digits
  rw [← Int.cast_natCast (Text.value _)] at value
  exact dmesgCount_returns field value (Int.natCast_nonneg _)

theorem dmesgCounts_returns {an : Analysis}
    (each : ∀ e ∈ an.table.entries, ∃ n, dmesgCount an.round e.2 = .ok n) :
    ∃ ns, dmesgCounts an = .ok ns := by
  obtain ⟨ns, returned, -⟩ := mapM'_returns each
  rw [dmesgCounts, returned, ok_bind]
  exact ⟨_, rfl⟩

/-- The rows of a comparison are fit for it: in every block both loads are within 5 percent of the
target, they differ by at most 1.5 percent of their mean, and for a latency metric both rows have
at most 1 percent of loss and enough observations. -/
def Analysis.Fit (an : Analysis) (target : ℚ) (m : Metric) (a b : Cond) : Prop :=
  ∀ blk ∈ an.blocks,
    (∀ c ∈ [a, b], |an.load blk c - target| ≤ 5 / 100 * target) ∧
    |an.load blk a - an.load blk b| ≤ 15 / 1000 * ((an.load blk a + an.load blk b) / 2) ∧
    (m.isLat = true → ∀ c ∈ [a, b],
      an.value blk c "valid_dropped_msgs" ≤ 1 / 100 * an.value blk c "valid_sent_msgs" ∧
        (if m = .p999HalfRttUs then 100000 else 10000) ≤ an.value blk c "lat_n")

instance (an : Analysis) (target : ℚ) (m : Metric) (a b : Cond) :
    Decidable (an.Fit target m a b) :=
  inferInstanceAs (Decidable (∀ blk ∈ an.blocks, _))

theorem mismatchPct_le {la lb limit : ℚ} (posa : 0 < la) (posb : 0 < lb) :
    mismatchPct la lb ≤ limit ↔ |la - lb| ≤ limit / 100 * ((la + lb) / 2) := by
  rw [mismatchPct, div_le_iff₀ (by positivity)]
  constructor <;> intro h <;> linarith

namespace Analysis

variable {an : Analysis} {m : Metric}

/-- Clear and fit are the same.  The percentages are multiplied out, and in the legacy mode
there are no warnings to look at. -/
theorem clear_iff_fit (valid : an.Valid) (exact : an.round = .fin) (legacy : an.mode = .fixedload)
    {target : ℚ} (positive : 0 < target) (a b : Cond) :
    an.Clear (fun blk c => 100 * |an.load blk c - target| / target ≤ 5) m (.pair a b) ↔
      an.Fit target m a b := by
  have deviation : ∀ l : ℚ, 100 * |l - target| / target ≤ 5 ↔ |l - target| ≤ 5 / 100 * target := by
    intro l
    rw [div_le_iff₀ positive]
    constructor <;> intro h <;> linarith
  have pair : ∀ blk ∈ an.blocks, mismatchPct (an.load blk a) (an.load blk b) ≤ 3 / 2 ↔
      |an.load blk a - an.load blk b| ≤ 15 / 1000 * ((an.load blk a + an.load blk b) / 2) := by
    intro blk mem
    have gateB : an.mode ≠ .confirm := by simp [legacy]
    rw [mismatchPct_le (load_exact valid exact gateB mem a).2
      (load_exact valid exact gateB mem b).2]
    norm_num
  have loss : ∀ blk ∈ an.blocks, ∀ c,
      100 * an.value blk c "valid_dropped_msgs" / an.value blk c "valid_sent_msgs" ≤ 1 ↔
        an.value blk c "valid_dropped_msgs" ≤ 1 / 100 * an.value blk c "valid_sent_msgs" := by
    intro blk mem c
    rw [div_le_iff₀ (sent_exact valid exact legacy mem c).2]
    constructor <;> intro h <;> linarith
  have quiet : an.NoWarnings [a, b] := by simp [NoWarnings, legacy]
  simp only [Clear, LoadsFit, Supported, quiet, true_and, Fit, deviation]
  constructor
  · rintro ⟨⟨rows, pairs⟩, supported⟩ blk mem
    refine ⟨rows blk mem, (pair blk mem).mp (pairs blk mem), fun lat c cond => ?_⟩
    obtain ⟨little, enough⟩ := supported lat blk mem c cond
    exact ⟨(loss blk mem c).mp little, enough⟩
  · intro fit
    refine ⟨⟨fun blk mem => (fit blk mem).1, fun blk mem => (pair blk mem).mpr (fit blk mem).2.1⟩,
      fun lat blk mem c cond => ?_⟩
    obtain ⟨little, enough⟩ := (fit blk mem).2.2 lat c cond
    exact ⟨(loss blk mem c).mpr little, enough⟩

end Analysis

theorem campaignVoidReasons_legacy {an : Analysis} (legacy : an.mode ≠ .fixedloadCpu) :
    an.campaignVoidReasons = .ok [] := by
  rw [Analysis.campaignVoidReasons, if_pos legacy]
  rfl

theorem mem_plannedTests {ab : Cond × Cond} (mem : ab ∈ COMPS) : .pair ab.1 ab.2 ∈ plannedTests :=
  List.mem_append_left _ (List.mem_map_of_mem mem)

/-- **The legacy gates are exact.**  On exact rationals, for an accepted legacy artifact whose
`dmesg_new` fields are plain decimal integers and a positive target, with an override of the
number of blocks only in a smoke run: a comparison is reported if and only if its rows are fit for
it, the interaction if and only if its two components are, and the exit status is 2 if something
is voided and 0 otherwise. -/
theorem legacy_gates (set : Setting) (exact : set.round = .fin)
    (permitted : blocks = none ∨ smoke = true)
    (loaded : loadArtifact set.toEnv path flag blocks cpuOnly = .ok art)
    (legacy : art.mode = .fixedload)
    (plain : ∀ e ∈ art.table.entries, e.2.PlainDecimal "dmesg_new")
    {target : ℚ} (positive : 0 < target) :
    let an := art.analysis set.round (.fin target)
    let out := analyze set path flag blocks smoke (.fin target) cpuOnly
    (∀ m ∈ metricsOf .fixedload,
      (∀ ab ∈ COMPS, Reported out m (.pair ab.1 ab.2) ↔ an.Fit target m ab.1 ab.2) ∧
      (Reported out m .interaction ↔
        Reported out m (.pair .bsteal4 .steal4) ∧ Reported out m (.pair .both .off))) ∧
    (out.result = .ok 2 ∧ (∃ m t, Voided out m t) ∨
      out.result = .ok 0 ∧ ¬ ∃ m t, Voided out m t) := by
  intro an out
  have valid : an.Valid := loadArtifact_valid (.fin target) loaded
  have clear : an.campaignVoidReasons = .ok [] := campaignVoidReasons_legacy (by simp [an,
    Artifact.analysis, legacy])
  have mode : an.mode = .fixedload := legacy
  obtain ⟨runs, passes⟩ : ∃ runs : Runs set an smoke, _ :=
    Analysis.exists_runs valid rfl exact (by simp [mode]) (few_of_loaded permitted loaded)
      fun blk mem c => Analysis.passes_deviation valid exact mode mem c rfl positive.ne'
  have output : out = analyzeLoaded set an path art.src smoke := analyze_of_loaded loaded _
  have reported : ∀ m ∈ metricsOf .fixedload, ∀ t ∈ plannedTests, Reported out m t ↔
      an.Clear (fun blk c => 100 * |an.load blk c - target| / target ≤ 5) m t := by
    intro m listed t test
    rw [← mode] at listed
    rw [Reported, output, runs.reported_iff valid clear listed test, passes]
  refine ⟨fun m listed => ⟨fun ab comp => ?_, ?_⟩, ?_⟩
  · rw [reported m listed _ (mem_plannedTests comp),
      Analysis.clear_iff_fit valid exact mode positive]
  · rw [reported m listed _ (by decide), reported m listed _ (by decide),
      reported m listed _ (by decide), Analysis.clear_interaction]
  · have counts : ∃ ns, dmesgCounts an = .ok ns := dmesgCounts_returns fun e entry => by
      rw [show an.round = .fin from exact]
      exact dmesgCount_plain (plain e entry)
    have voided : (runs.outcomes.any fun e => e.2.voided) = true ↔ ∃ m t, Voided out m t := by
      rw [output]
      exact runs.voided_iff valid clear
    have status : out.result = .ok (if runs.outcomes.any fun e => e.2.voided then 2 else 0) := by
      rw [output, runs.analyzeLoaded_eq valid clear]
      exact conclusion_result valid counts
    rw [← voided, status]
    by_cases some : (runs.outcomes.any fun e => e.2.voided) = true
    · exact .inl ⟨by rw [if_pos some], some⟩
    · exact .inr ⟨by rw [if_neg some], some⟩

/-- The written legacy artifact is accepted; every load is 3.8 Gbps, nothing is lost, and there are
no kernel warnings. -/
theorem exists_eight_legacy : ∃ art,
    loadArtifact (writtenEight .fixedload).toEnv "a" none none false = .ok art ∧
      art.mode = .fixedload ∧
      (∀ blk ∈ art.blocks, ∀ c ∈ CONDS, fieldValue art.table blk c "load_window_gbps" = 19 / 5) ∧
      (∀ blk ∈ art.blocks, ∀ c ∈ CONDS, fieldValue art.table blk c "valid_dropped_msgs" = 0 ∧
        fieldValue art.table blk c "valid_sent_msgs" = 119200 ∧
        fieldValue art.table blk c "lat_n" = 119199) ∧
      ∀ e ∈ art.table.entries, e.2.get? "dmesg_new" = some (some ['0']) := by
  obtain ⟨art, loaded, tested⟩ : ∃ art,
      loadArtifact (writtenEight .fixedload).toEnv "a" none none false = .ok art ∧
        decide (art.mode = .fixedload ∧
          (∀ blk ∈ art.blocks, ∀ c ∈ CONDS,
            fieldValue art.table blk c "load_window_gbps" = 19 / 5) ∧
          (∀ blk ∈ art.blocks, ∀ c ∈ CONDS, fieldValue art.table blk c "valid_dropped_msgs" = 0 ∧
            fieldValue art.table blk c "valid_sent_msgs" = 119200 ∧
            fieldValue art.table blk c "lat_n" = 119199) ∧
          ∀ e ∈ art.table.entries, e.2.get? "dmesg_new" = some (some ['0'])) = true :=
    exists_of_returnsWith (by decide +kernel)
  exact ⟨art, loaded, of_decide_eq_true tested⟩

/-- The written legacy artifact at 3.8 Gbps: every comparison and the interaction are reported in
every metric, and the run ends with 0 or 2 according to what is voided. -/
theorem legacy_gates_eight :
    let out := analyze (writtenEight .fixedload) "a" none none false (.fin (19 / 5)) false
    (∀ m ∈ metricsOf .fixedload,
      (∀ ab ∈ COMPS, Reported out m (.pair ab.1 ab.2)) ∧ Reported out m .interaction) ∧
    (out.result = .ok 2 ∧ (∃ m t, Voided out m t) ∨
      out.result = .ok 0 ∧ ¬ ∃ m t, Voided out m t) := by
  intro out
  obtain ⟨art, loaded, legacy, loads, counts, zero⟩ := exists_eight_legacy
  have plain : ∀ e ∈ art.table.entries, e.2.PlainDecimal "dmesg_new" := fun e entry =>
    ⟨['0'], zero e entry, by decide, List.forall_mem_singleton.mpr (by decide)⟩
  have fit : ∀ m a b, (art.analysis .fin (.fin (19 / 5))).Fit (19 / 5) m a b := by
    intro m a b blk block
    have load : ∀ c, (art.analysis .fin (.fin (19 / 5))).load blk c = 19 / 5 := fun c =>
      loads blk block c (mem_CONDS c)
    refine ⟨fun c _ => ?_, ?_, fun _ c _ => ?_⟩
    · rw [load]
      norm_num
    · rw [load, load]
      norm_num
    · obtain ⟨dropped, sent, lat⟩ := counts blk block c (mem_CONDS c)
      rw [Analysis.value, Analysis.value, Analysis.value]
      change fieldValue art.table blk c _ ≤ 1 / 100 * fieldValue art.table blk c _ ∧
        _ ≤ fieldValue art.table blk c _
      rw [dropped, sent, lat]
      split <;> norm_num
  obtain ⟨reports, status⟩ := legacy_gates (writtenEight .fixedload) rfl (.inl rfl) loaded legacy
    plain (by norm_num : (0 : ℚ) < 19 / 5)
  have pairs : ∀ m ∈ metricsOf .fixedload, ∀ ab ∈ COMPS, Reported out m (.pair ab.1 ab.2) :=
    fun m listed ab comp => ((reports m listed).1 ab comp).mpr (fit m ab.1 ab.2)
  refine ⟨fun m listed => ⟨pairs m listed, (reports m listed).2.mpr ?_⟩, status⟩
  exact ⟨pairs m listed (.bsteal4, .steal4) (by decide), pairs m listed (.both, .off) (by decide)⟩

/-- The written CPU-only artifact is accepted; every load is 3.8 Gbps, and there are no kernel
warnings. -/
theorem exists_eight_cpu : ∃ art,
    loadArtifact (writtenEight .fixedloadCpu).toEnv "a" none none true = .ok art ∧
      art.mode = .fixedloadCpu ∧
      ∀ blk ∈ art.blocks, ∀ c ∈ CONDS, fieldValue art.table blk c "load_window_gbps" = 19 / 5 ∧
        fieldValue art.table blk c "dmesg_new" = 0 := by
  obtain ⟨art, loaded, tested⟩ : ∃ art,
      loadArtifact (writtenEight .fixedloadCpu).toEnv "a" none none true = .ok art ∧
        decide (art.mode = .fixedloadCpu ∧ ∀ blk ∈ art.blocks, ∀ c ∈ CONDS,
          fieldValue art.table blk c "load_window_gbps" = 19 / 5 ∧
            fieldValue art.table blk c "dmesg_new" = 0) = true :=
    exists_of_returnsWith (by decide +kernel)
  exact ⟨art, loaded, of_decide_eq_true tested⟩

end WgReceivePath.Analyze
