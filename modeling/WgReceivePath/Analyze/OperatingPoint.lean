import WgReceivePath.Analyze.Campaign

/-!
# The operating point of gate B

`--target-load` moves the target of the absolute load gate.  What a test that passed tells
about its loads depends on the mode: a legacy row passes if its relative deviation, divided
by the target with its sign, is at most 5 percent, which says nothing for a negative target;
a CPU-only row passes if its load is in an interval around whatever target was given, while
the target that the metadata must state is 3.8.

`operating_point` says what an inference of gate B therefore tells: it is about loads near
the target (`Analysis.OnPoint`) if and only if the target is positive in the legacy mode,
and 3.8 in CPU-only mode.  The rows of a test that was inferred from have passed the
absolute gate (`Clear.absolute`, `Runs.inference_cases`), and `onPoint_iff` compares that
gate with the target; `operating_point_moved` has an inference off the operating point in
either mode.
-/

namespace WgReceivePath.Analyze

open Printing

namespace Analysis

variable {an : Analysis} {target : ℚ}

/-- What the absolute gate asks of a row, in either mode, as the source compares it. -/
def Absolute (an : Analysis) (target : ℚ) (blk : Text) (c : Cond) : Prop :=
  if an.mode = .fixedloadCpu then target * (1 - 5 / 100) - 1 / 10 ^ 9 ≤ an.load blk c ∧
    an.load blk c ≤ target * (1 + 5 / 100) + 1 / 10 ^ 9
  else 100 * |an.load blk c - target| / target ≤ 5

theorem passes_absolute (valid : an.Valid) (exact : an.round = .fin) (gateB : an.mode ≠ .confirm)
    (rational : an.target = .fin target) (nonzero : target ≠ 0) :
    ∀ blk ∈ an.blocks, ∀ c, Passes (an.absLoadRowReason blk c) (an.Absolute target blk c) := by
  intro blk mem c
  rw [Absolute]
  cases mode : an.mode with
  | confirm => exact absurd mode gateB
  | fixedload => exact passes_deviation valid exact mode mem c rational nonzero
  | fixedloadCpu => exact passes_range valid exact mode mem c rational

/-- The guard of the CPU-only mode. -/
def guardOf : Mode → ℚ
  | .fixedloadCpu => 1 / 10 ^ 9
  | _ => 0

/-- The loads of these conditions are within 5 percent of the target, which in CPU-only mode is
3.8. -/
def OnPoint (an : Analysis) (target : ℚ) (conds : List Cond) : Prop :=
  (∀ blk ∈ an.blocks, ∀ c ∈ conds,
    |an.load blk c - target| ≤ 5 / 100 * |target| + guardOf an.mode) ∧
    (an.mode = .fixedloadCpu → target = 38 / 10)

/-- Rows that pass are on the operating point if the target is one to be near to, and only
then: a load is positive, so it is not near to a negative target. -/
theorem onPoint_iff (valid : an.Valid) (exact : an.round = .fin) (gateB : an.mode ≠ .confirm)
    {conds : List Cond} (involved : conds ≠ [])
    (passed : ∀ blk ∈ an.blocks, ∀ c ∈ conds, an.Absolute target blk c) :
    an.OnPoint target conds ↔
      (an.mode = .fixedload → 0 < target) ∧ (an.mode = .fixedloadCpu → target = 38 / 10) := by
  refine and_congr_left fun _ => ?_
  cases mode : an.mode with
  | confirm => exact absurd mode gateB
  | fixedload =>
      simp only [guardOf, add_zero, true_imp_iff]
      constructor
      · intro near
        -- a positive load is not near to a negative target
        obtain ⟨blk, block⟩ := List.exists_mem_of_ne_nil _ valid.some
        obtain ⟨c, cond⟩ := List.exists_mem_of_ne_nil _ involved
        have positive := (load_exact valid exact gateB block c).2
        have close := near blk block c cond
        by_contra negative
        rw [abs_of_nonneg (by linarith), abs_of_nonpos (not_lt.mp negative)] at close
        linarith
      · intro positive blk block c cond
        have deviation := passed blk block c cond
        rw [Absolute, mode, if_neg (by simp), div_le_iff₀ positive] at deviation
        rw [abs_of_pos positive]
        linarith
  | fixedloadCpu =>
      simp only [reduceCtorEq, false_imp_iff, iff_true, guardOf]
      intro blk block c cond
      have range := passed blk block c cond
      rw [Absolute, if_pos mode] at range
      rcases le_total 0 target with nonneg | nonpos
      · rw [abs_of_nonneg nonneg, abs_le]
        constructor <;> linarith [range.1, range.2]
      · rw [abs_of_nonpos nonpos, abs_le]
        constructor <;> linarith [range.1, range.2]

/-- The rows of a clear test pass the absolute gate. -/
theorem Clear.absolute {A : Text → Cond → Prop} {m : Metric} {t : Test} (clear : an.Clear A m t) :
    ∀ blk ∈ an.blocks, ∀ c ∈ t.conds, A blk c := by
  intro blk block
  cases t with
  | pair a b => exact clear.1.1 blk block
  | interaction =>
      exact forall_conds.mpr ⟨(clear.1 (.bsteal4, .steal4) (by decide)).1 blk block,
        (clear.1 (.both, .off) (by decide)).1 blk block⟩

end Analysis

variable {set : Setting} {smoke : Bool} {art : Artifact} {target : ℚ}

/-- The analysis of an accepted gate B artifact at a rational target.  A target of zero is
left out, since the legacy gate divides by it. -/
theorem exists_runs_of_loaded {path : Text} {flag : Option Text} {blocks : Option ℤ}
    {cpuOnly : Bool} (exact : set.round = .fin) (permitted : blocks = none ∨ smoke = true)
    (loaded : loadArtifact set.toEnv path flag blocks cpuOnly = .ok art)
    (gateB : art.mode ≠ .confirm) (nonzero : target ≠ 0) :
    ∃ runs : Runs set (art.analysis set.round (.fin target)) smoke, ∀ m listed t,
      (runs.ready m listed).why t = none ↔ (art.analysis set.round (.fin target)).Clear
        ((art.analysis set.round (.fin target)).Absolute target) m t := by
  have valid := loadArtifact_valid (.fin target) loaded
  exact Analysis.exists_runs valid rfl exact gateB (few_of_loaded permitted loaded)
    (Analysis.passes_absolute valid exact gateB rfl nonzero)

/-- A test that passed is about some conditions. -/
theorem Test.conds_ne_nil (t : Test) : t.conds ≠ [] := by
  cases t <;> simp [Test.conds, CONDS]

/-- **What an inference of gate B tells about the operating point.**  On exact rationals, for every
command line with a finite nonzero target and every accepted gate B artifact: an inference of the
analysis is about loads within 5 percent of the target, which in CPU-only mode is 3.8, if and only
if the target is positive in the legacy mode, and 3.8 in CPU-only mode. -/
theorem operating_point (set : Setting) (exact : set.round = .fin) {argv : List Text} {call : Call}
    (parsed : parseArgs set.round argv = .ok call)
    (loaded : loadArtifact set.toEnv call.path call.flag call.blocks call.cpuOnly = .ok art)
    (gateB : art.mode ≠ .confirm) (rational : call.target = .fin target) (nonzero : target ≠ 0)
    {l : Line} (mem : l ∈ (analyze set call.path call.flag call.blocks call.smoke call.target
      call.cpuOnly).lines) (inference : l.isInference = true) :
    (art.analysis set.round call.target).OnPoint target l.conds ↔
      (art.mode = .fixedload → 0 < target) ∧ (art.mode = .fixedloadCpu → target = 38 / 10) := by
  rw [rational] at mem ⊢
  have valid := loadArtifact_valid (.fin target) loaded
  obtain ⟨runs, passes⟩ := exists_runs_of_loaded exact (parseArgs_permitted parsed) loaded gateB
    nonzero
  rw [analyze_of_loaded loaded] at mem
  have clear := clear_of_inference mem inference
  obtain ⟨-, m, listed, t, -, passed, conds⟩ :=
    runs.inference_cases valid clear mem inference
  rw [conds]
  exact Analysis.onPoint_iff valid exact gateB t.conds_ne_nil
    ((passes m listed t).mp passed).absolute

/-- The primary comparison of a run that is not a smoke run is inferred from if its rows are
clear. -/
theorem exists_inference {path : Text} {flag : Option Text} {cpuOnly : Bool}
    (exact : set.round = .fin) (loaded : loadArtifact set.toEnv path flag none cpuOnly = .ok art)
    (gateB : art.mode ≠ .confirm) (nonzero : target ≠ 0)
    (preflight : (art.analysis set.round (.fin target)).campaignVoidReasons = .ok [])
    (clear : (art.analysis set.round (.fin target)).Clear
      ((art.analysis set.round (.fin target)).Absolute target) .totalBusyCe (.pair .steal4 .off)) :
    ∃ l ∈ (analyze set path flag none false (.fin target) cpuOnly).lines,
      l.isInference = true ∧ l.conds = [.steal4, .off] := by
  have valid := loadArtifact_valid (.fin target) loaded
  obtain ⟨runs, passes⟩ := exists_runs_of_loaded exact (.inl rfl) loaded gateB nonzero
  have listed := totalBusyCe_listed (art.analysis set.round (.fin target)).mode
  rw [analyze_of_loaded loaded]
  obtain ⟨r, line, -, test, -⟩ := runs.report_mem valid preflight rfl listed (by decide)
    ((passes _ listed (.pair .steal4 .off)).mpr clear)
  exact ⟨_, line, rfl, by rw [Line.conds, test, Test.conds]⟩

/-- Loads of 3.8 Gbps throughout are clear if 3.8 passes the absolute gate. -/
theorem clear_of_loads {an : Analysis}
    (loads : ∀ blk ∈ an.blocks, ∀ c ∈ CONDS, fieldValue an.table blk c "load_window_gbps" = 19 / 5)
    (passes : if an.mode = .fixedloadCpu then target * (1 - 5 / 100) - 1 / 10 ^ 9 ≤ 19 / 5 ∧
        19 / 5 ≤ target * (1 + 5 / 100) + 1 / 10 ^ 9
      else 100 * |19 / 5 - target| / target ≤ 5)
    (quiet : an.NoWarnings [.steal4, .off]) :
    an.Clear (an.Absolute target) .totalBusyCe (.pair .steal4 .off) := by
  have load : ∀ blk ∈ an.blocks, ∀ c, an.load blk c = 19 / 5 := fun blk block c =>
    loads blk block c (mem_CONDS c)
  refine ⟨⟨fun blk block c _ => ?_, fun blk block => ?_⟩, quiet, ?_⟩
  · rwa [Analysis.Absolute, load blk block c]
  · rw [load blk block, load blk block, mismatchPct]
    norm_num
  · intro lat
    cases lat

theorem clear_of_legacy_loads {an : Analysis} (legacy : an.mode = .fixedload)
    (loads : ∀ blk ∈ an.blocks, ∀ c ∈ CONDS, fieldValue an.table blk c "load_window_gbps" = 19 / 5)
    (passes : 100 * |19 / 5 - target| / target ≤ 5) :
    an.Clear (an.Absolute target) .totalBusyCe (.pair .steal4 .off) :=
  clear_of_loads loads (by rwa [if_neg (by simp [legacy])]) fun cpu => by simp [legacy] at cpu

/-- The call that a command line with the artifact `a` and nothing else asks for. -/
def plainCall (target : ℚ) (cpuOnly : Bool) : Call := ⟨"a", none, none, false, .fin target, cpuOnly⟩

/-- At the default target, an inference from the written legacy artifact is on the operating
point. -/
theorem operating_point_default : ∃ art l,
    parseArgs .fin ["a"] = .ok (plainCall (38 / 10) false) ∧
      loadArtifact (writtenEight .fixedload).toEnv "a" none none false = .ok art ∧
      art.mode = .fixedload ∧
      l ∈ (analyze (writtenEight .fixedload) "a" none none false (.fin (38 / 10)) false).lines ∧
      l.isInference = true ∧
      (art.analysis .fin (.fin (38 / 10))).OnPoint (38 / 10) l.conds := by
  obtain ⟨art, loaded, legacy, loads, -⟩ := exists_eight_legacy
  have gateB : art.mode ≠ .confirm := by simp [legacy]
  have nonzero : (38 / 10 : ℚ) ≠ 0 := by norm_num
  have parsed : parseArgs .fin ["a"] = .ok (plainCall (38 / 10) false) :=
    parsed_of_test (by decide +kernel)
  obtain ⟨l, line, inference, -⟩ := exists_inference rfl loaded gateB nonzero
    (campaignVoidReasons_legacy (by simp [Artifact.analysis, legacy]))
    (clear_of_legacy_loads legacy loads (by norm_num))
  refine ⟨art, l, parsed, loaded, legacy, line, inference, ?_⟩
  exact (operating_point (writtenEight .fixedload) rfl parsed loaded gateB rfl nonzero line
    inference).mpr ⟨fun _ => by norm_num, fun cpu => by simp [legacy] at cpu⟩

/-- A negative target in the legacy mode, and a target of 3.9 in CPU-only mode: the primary
comparison is inferred from, off the operating point. -/
theorem operating_point_moved :
    (∃ art l, parseArgs .fin ["a", "--target-load", "-1"] = .ok (plainCall (-1) false) ∧
      loadArtifact (writtenEight .fixedload).toEnv "a" none none false = .ok art ∧
      art.mode = .fixedload ∧
      l ∈ (analyze (writtenEight .fixedload) "a" none none false (.fin (-1)) false).lines ∧
      l.isInference = true ∧ ¬ (art.analysis .fin (.fin (-1))).OnPoint (-1) l.conds) ∧
    ∃ art l,
      parseArgs .fin ["--cpu-only", "a", "--target-load", "3.9"] =
        .ok (plainCall (39 / 10) true) ∧
      loadArtifact (writtenEight .fixedloadCpu).toEnv "a" none none true = .ok art ∧
      art.mode = .fixedloadCpu ∧
      l ∈ (analyze (writtenEight .fixedloadCpu) "a" none none false (.fin (39 / 10)) true).lines ∧
      l.isInference = true ∧ ¬ (art.analysis .fin (.fin (39 / 10))).OnPoint (39 / 10) l.conds := by
  constructor
  · obtain ⟨art, loaded, legacy, loads, -⟩ := exists_eight_legacy
    have gateB : art.mode ≠ .confirm := by simp [legacy]
    have nonzero : (-1 : ℚ) ≠ 0 := by norm_num
    have valid := loadArtifact_valid (.fin (-1)) loaded
    have clear : (art.analysis .fin (.fin (-1))).Clear _ .totalBusyCe (.pair .steal4 .off) :=
      clear_of_legacy_loads legacy loads (by norm_num : 100 * |19 / 5 - (-1 : ℚ)| / -1 ≤ 5)
    obtain ⟨l, line, inference, conds⟩ := exists_inference rfl loaded gateB nonzero
      (campaignVoidReasons_legacy (by simp [Artifact.analysis, legacy])) clear
    refine ⟨art, l, parsed_of_test (by decide +kernel), loaded, legacy, line, inference, ?_⟩
    rw [conds]
    intro near
    have positive := ((Analysis.onPoint_iff valid rfl gateB (Test.conds_ne_nil _)
      clear.absolute).mp near).1 legacy
    norm_num at positive
  · obtain ⟨art, loaded, cpu, loads⟩ := exists_eight_cpu
    have gateB : art.mode ≠ .confirm := by simp [cpu]
    have nonzero : (39 / 10 : ℚ) ≠ 0 := by norm_num
    have valid := loadArtifact_valid (.fin (39 / 10)) loaded
    have campaign := campaign_of_loads valid rfl cpu rfl loads (by norm_num)
    have clear : (art.analysis .fin (.fin (39 / 10))).Clear
        ((art.analysis .fin (.fin (39 / 10))).Absolute (39 / 10)) .totalBusyCe
        (.pair .steal4 .off) :=
      clear_of_loads (fun blk block c cond => (loads blk block c cond).1)
        (by rw [if_pos (show (art.analysis _ _).mode = _ from cpu)]; norm_num)
        fun _ blk block c _ => (campaign.1 blk block c (mem_CONDS c)).2
    obtain ⟨l, line, inference, conds⟩ := exists_inference rfl loaded gateB nonzero
      (campaign_clear valid rfl cpu (campaign.mono (by norm_num))) clear
    refine ⟨art, l, parsed_of_test (by decide +kernel), loaded, cpu, line, inference, ?_⟩
    exact fun near => absurd (near.2 cpu) (by norm_num)

end WgReceivePath.Analyze
