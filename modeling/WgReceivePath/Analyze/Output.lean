import WgReceivePath.Analyze.Run

/-!
# The output of an analysis

What a whole analysis prints, from what its metrics print.

## Main results

* `exists_ready`: a valid analysis reads every field that it looks up
  (`Analysis.Valid.metric_reads`), so the computations behind a metric return as soon as its
  gates do and no base mean is zero.
* `Runs.analyzeLoaded_eq`: if that is so for every metric of the mode (`Runs`), the output
  is known as a whole: the preamble, the lines of the metrics, the conclusion.
* `Runs.reported_iff` and `Runs.voided_iff`: a test is reported if and only if its gates
  give no reason, and voided if and only if they give one.
* `Runs.inference_cases`: every inference is about a test that has passed its gates.

Preamble and conclusion are handled by predicates on their lines (`All`), without their
exact text: they have no results but verdicts (`preamble_all`, `conclusion_all`).
-/

namespace WgReceivePath.Analyze

open Printing

/-! ## Statistics that return -/

section Statistics

variable {round : ℚ → PyFloat}

theorem divide_returns (x : PyFloat) {y : PyFloat} (nonzero : y ≠ .fin 0) :
    ∃ z, divide round x y = .ok z := by
  simp only [divide, demand_ok]
  unfold PyFloat.div
  split
  · exact absurd rfl nonzero
  all_goals exact ⟨_, rfl⟩

theorem mean_returns {xs : List PyFloat} (some : xs ≠ []) :
    mean round xs = .ok (PyFloat.mean round xs) := by
  rw [mean, require, if_pos some]
  rfl

/-- `signflip_p` refuses only an empty sample and one of more than twenty. -/
theorem signflip_returns {ds : List PyFloat} (some : ds ≠ []) (few : ds.length ≤ 20) :
    ∃ r, signflip round ds = .ok r := by
  rw [signflip, signflipP]
  dsimp only
  rw [if_neg (not_lt.mpr few), if_neg (by simpa using some)]
  exact ⟨_, rfl⟩

end Statistics

/-! ## Metrics that can be read

The numeric columns of a mode contain those of its metrics, with one exception: the
efficiency is a quotient of two columns.  It can be read, since its denominator is positive,
but it need not be finite. -/

/-- A metric of the table is a column of positive numbers, or a quotient of two. -/
theorem summary_columns {mode : Mode} {m : Metric} (mem : m ∈ summaryOf mode) :
    m = .effGbpsPerCe ∧ mode = .confirm ∨ m ≠ .effGbpsPerCe ∧ m.text ∈ numColumns mode := by
  revert m
  cases mode <;> decide

theorem metricsOf_subset {mode : Mode} {m : Metric} (mem : m ∈ metricsOf mode) :
    m ∈ summaryOf mode := by
  cases mode with
  | fixedloadCpu => exact List.mem_cons.mpr (.inl (List.mem_singleton.mp mem))
  | _ => exact mem

theorem totalBusyCe_listed (mode : Mode) : .totalBusyCe ∈ metricsOf mode := by
  cases mode <;> decide

theorem favor_of_listed {mode : Mode} {m : Metric} (mem : m ∈ metricsOf mode) :
    ∃ fav, FAVOR m = some fav := by
  have listed : ∀ m ∈ metricsOf mode, (FAVOR m).isSome = true := by
    cases mode <;> decide
  exact Option.isSome_iff_exists.mp (listed m mem)

namespace Analysis.Valid

variable {an : Analysis} (valid : an.Valid)

include valid

theorem metric_positive {blk : Text} (mem : blk ∈ an.blocks) (c : Cond) {m : Metric}
    (plain : m ≠ .effGbpsPerCe) (column : m.text ∈ numColumns an.mode) :
    ∃ q : ℚ, 0 < q ∧ an.metric m blk c = .ok (.fin q) := by
  have read := valid.num_positive mem c column
  cases m with
  | effGbpsPerCe => exact absurd rfl plain
  | _ => exact read

theorem metric_reads {blk : Text} (mem : blk ∈ an.blocks) (c : Cond) {m : Metric}
    (listed : m ∈ summaryOf an.mode) : ∃ x, an.metric m blk c = .ok x := by
  rcases summary_columns listed with ⟨rfl, confirm⟩ | ⟨plain, column⟩
  · obtain ⟨gbps, -, readGbps⟩ :=
      valid.num_positive mem c (by rw [confirm]; decide : ("gbps" : Text) ∈ numColumns an.mode)
    obtain ⟨ce, positive, readCe⟩ := valid.num_positive mem c
      (by rw [confirm]; decide : ("total_busy_ce" : Text) ∈ numColumns an.mode)
    rw [metric, readGbps, ok_bind, readCe, ok_bind]
    exact divide_returns _ (by simpa using positive.ne')
  · obtain ⟨q, -, read⟩ := valid.metric_positive mem c plain column
    exact ⟨_, read⟩

/-- The deltas of a test, one for each block. -/
theorem testDeltas_returns {m : Metric} (listed : m ∈ summaryOf an.mode) (t : Test) :
    ∃ ds, an.testDeltas m t = .ok ds ∧ ds.length = an.blocks.length := by
  have reads : ∀ blk ∈ an.blocks, ∀ c, ∃ x, an.metric m blk c = .ok x :=
    fun blk mem c => valid.metric_reads mem c listed
  cases t with
  | pair a b =>
      refine mapM'_returns fun blk mem => ?_
      obtain ⟨x, readx⟩ := reads blk mem a
      obtain ⟨y, ready⟩ := reads blk mem b
      rw [readx, ok_bind, ready, ok_bind]
      exact ⟨_, rfl⟩
  | interaction =>
      refine mapM'_returns fun blk mem => ?_
      obtain ⟨bsteal4, read₁⟩ := reads blk mem .bsteal4
      obtain ⟨steal4, read₂⟩ := reads blk mem .steal4
      obtain ⟨both, read₃⟩ := reads blk mem .both
      obtain ⟨off, read₄⟩ := reads blk mem .off
      rw [read₁, ok_bind, read₂, ok_bind, read₃, ok_bind, read₄, ok_bind]
      exact ⟨_, rfl⟩

theorem metricMean_returns {m : Metric} (listed : m ∈ summaryOf an.mode) (c : Cond) :
    ∃ x, an.metricMean m c = .ok x := by
  obtain ⟨xs, returned, length⟩ := mapM'_returns fun blk mem => valid.metric_reads mem c listed
  rw [metricMean, returned, ok_bind]
  exact ⟨_, mean_returns (by simpa [← List.length_pos_iff, length] using valid.some)⟩

theorem columnMean_returns {key : Text} {c : Cond}
    (reads : ∀ blk ∈ an.blocks, ∃ x, an.num blk c key = .ok x) :
    ∃ x, an.columnMean key c = .ok x := by
  obtain ⟨xs, returned, length⟩ := mapM'_returns reads
  rw [columnMean, returned, ok_bind]
  exact ⟨_, mean_returns (by simpa [← List.length_pos_iff, length] using valid.some)⟩

/-- On exact rationals the mean of a column of positive numbers is positive, so that
relative effects exist. -/
theorem metricMean_positive (exact : an.round = .fin) {m : Metric} (plain : m ≠ .effGbpsPerCe)
    (column : m.text ∈ numColumns an.mode) (c : Cond) :
    ∃ q : ℚ, 0 < q ∧ an.metricMean m c = .ok (.fin q) := by
  have reads : ∀ blk ∈ an.blocks,
      an.metric m blk c = .ok (.fin (an.value blk c m.text)) ∧ 0 < an.value blk c m.text := by
    intro blk mem
    have read := num_exact valid exact mem c column
    cases m with
    | effGbpsPerCe => exact absurd rfl plain
    | _ => exact read
  have returned : an.blocks.mapM' (fun blk => an.metric m blk c) =
      .ok ((an.blocks.map fun blk => an.value blk c m.text).map .fin) := by
    rw [mapM'_ok, List.map_map, List.map_map]
    exact List.map_congr_left fun blk mem => (reads blk mem).1
  have some : an.blocks.map (fun blk => an.value blk c m.text) ≠ [] := by simpa using valid.some
  refine ⟨_, ?_, by
    rw [metricMean, returned, ok_bind, exact, mean_returns (by simpa using valid.some),
      PyFloat.mean_fin]⟩
  have length := List.length_pos_iff.mpr some
  have sum : 0 < (an.blocks.map fun blk => an.value blk c m.text).sum := by
    refine List.sum_pos _ (fun q mem => ?_) some
    obtain ⟨blk, block, rfl⟩ := List.mem_map.mp mem
    exact (reads blk block).2
  positivity

end Analysis.Valid

/-! ## The lines of a metric

Of the lines of a metric only two kinds matter for what follows: a test is reported, or it
is voided.  The others are recognised by not being about a result. -/

/-- The computations behind a metric of a valid analysis return if its gates do, if no base mean
is zero, and if there are not too many blocks for p-values. -/
theorem exists_ready {set : Setting} {an : Analysis} {smoke : Bool} {m : Metric} {P : Test → Prop}
    (valid : an.Valid) (round : an.round = set.round) (listed : m ∈ metricsOf an.mode)
    (few : smoke = false → an.blocks.length ≤ 20)
    (base : ∀ c, ∃ x, an.metricMean m c = .ok x ∧ x ≠ .fin 0)
    (gates : ∀ t, Passes (an.testReason m t) (P t)) :
    ∃ ready : Ready set an smoke m, ∀ t, ready.why t = none ↔ P t := by
  obtain ⟨fav, favorable⟩ := favor_of_listed listed
  choose why why_eq passes using gates
  choose base base_eq nonzero using base
  choose deltas deltas_eq length using valid.testDeltas_returns (metricsOf_subset listed)
  have some : ∀ t, deltas t ≠ [] := fun t => by
    rw [← List.length_pos_iff, length, List.length_pos_iff]
    exact valid.some
  have flips : ∀ t, ∃ r, smoke = false → signflip set.round (deltas t) = .ok r := by
    intro t
    cases smoke with
    | true => exact ⟨(.nan, 0), by simp⟩
    | false =>
        obtain ⟨r, returned⟩ := signflip_returns (some t) ((length t).trans_le (few rfl))
        exact ⟨r, fun _ => returned⟩
  choose flip flip_eq using flips
  have quotients : ∀ t : Test, ∃ x, divide set.round
      (PyFloat.mul set.round (.fin 100) (PyFloat.mean set.round (deltas t))) (base t.base) =
        .ok x := fun t => divide_returns _ (nonzero t.base)
  choose rel rel_eq using quotients
  exact ⟨⟨fav, why, deltas, base, fun t => PyFloat.mean set.round (deltas t), rel, flip, round,
    favorable, why_eq, deltas_eq, base_eq, fun t => mean_returns (some t), rel_eq,
    fun final t => flip_eq t final⟩, passes⟩

/-- Does the line report this test of this metric, with or without a p-value? -/
def Line.reports (m : Metric) (t : Test) : Line → Bool
  | .report r => r.metric = m && r.test = t
  | .descriptive metric test _ _ _ => metric = m && test = t
  | _ => false

/-- Does the line void this test of this metric? -/
def Line.voids (m : Metric) (t : Test) : Line → Bool
  | .void metric test _ => metric = m && test = t
  | _ => false

/-- Is the line about a test, or about the campaign as a whole? -/
def Line.isResult : Line → Bool
  | .descriptive .. => true
  | l => l.isInference || l.isVoid

/-- The conditions that an inference is about. -/
def Line.conds : Line → List Cond
  | .report r => r.test.conds
  | .verdict _ _ => [.steal4, .off]
  | _ => []

theorem Line.isResult_of_isInference {l : Line} (inference : l.isInference = true) :
    l.isResult = true := by
  cases l <;> first | rfl | cases inference

theorem Line.isResult_of_isVoid {l : Line} (void : l.isVoid = true) : l.isResult = true := by
  cases l <;> first | rfl | cases void

theorem Line.isInference_of_quiet {l : Line} (quiet : l.isResult = false) :
    l.isInference = false := by
  cases l <;> first | rfl | cases quiet

theorem Line.isResult_of_reports {m : Metric} {t : Test} {l : Line}
    (reports : l.reports m t = true) : l.isResult = true := by
  cases l <;> first | rfl | cases reports

theorem Line.isResult_of_voids {m : Metric} {t : Test} {l : Line} (voids : l.voids m t = true) :
    l.isResult = true := by
  cases l <;> first | rfl | cases voids

/-- A line without a result is about no test. -/
theorem Line.about_none {m : Metric} {t : Test} {l : Line} (quiet : l.isResult = false) :
    l.reports m t = false ∧ l.voids m t = false := by
  cases l <;> first | exact ⟨rfl, rfl⟩ | cases quiet

namespace Ready

variable {set : Setting} {an : Analysis} {smoke : Bool} {metric : Metric}
  (ready : Ready set an smoke metric) {l : Line} {t : Test}

/-- A line of a metric belongs to one of its tests, or is its title or the note of the
interaction. -/
theorem mem_lines : l ∈ ready.lines ↔ l = .metricTitle metric ready.fav ∨
    (∃ t ∈ plannedTests, l ∈ ready.voidLines t ∨ l ∈ ready.reportLines t) ∨
      ready.why .interaction = none ∧ l = .interactionNote smoke := by
  have note : l ∈ (if ready.why .interaction = none then [.interactionNote smoke] else []) ↔
      ready.why .interaction = none ∧ l = .interactionNote smoke := by
    split <;> simp [*]
  simp only [lines, plannedTests, List.mem_append, List.mem_flatMap, List.mem_singleton,
    List.mem_map, note]
  constructor
  · rintro (((((rfl | ⟨ab, comp, void⟩) | ⟨ab, comp, report⟩) | void) | report) | last)
    · exact .inl rfl
    · exact .inr (.inl ⟨_, .inl ⟨ab, comp, rfl⟩, .inl void⟩)
    · exact .inr (.inl ⟨_, .inl ⟨ab, comp, rfl⟩, .inr report⟩)
    · exact .inr (.inl ⟨_, .inr rfl, .inl void⟩)
    · exact .inr (.inl ⟨_, .inr rfl, .inr report⟩)
    · exact .inr (.inr last)
  · rintro (rfl | ⟨t, ⟨ab, comp, rfl⟩ | rfl, void | report⟩ | last)
    · exact .inl (.inl (.inl (.inl (.inl rfl))))
    · exact .inl (.inl (.inl (.inl (.inr ⟨ab, comp, void⟩))))
    · exact .inl (.inl (.inl (.inr ⟨ab, comp, report⟩)))
    · exact .inl (.inl (.inr void))
    · exact .inl (.inr report)
    · exact .inr last

theorem mem_voidLines : l ∈ ready.voidLines t ↔
    ∃ why, ready.why t = some why ∧ (l = .void metric t why ∨ l = .suppressed) := by
  rw [voidLines]
  cases ready.why t with
  | none => simp
  | some why => simp

theorem mem_reportLines : l ∈ ready.reportLines t ↔
    ready.why t = none ∧ (l = ready.line t (ready.pAdj t) ∨ l = .deltas (ready.deltas t)) := by
  rw [reportLines]
  cases ready.why t with
  | none => simp
  | some why => simp

/-- A result among the lines of a metric is the report of a test that passed, or the VOID line of
one that did not. -/
theorem result_cases (mem : l ∈ ready.lines) (result : l.isResult = true) : ∃ t ∈ plannedTests,
    ready.why t = none ∧ l = ready.line t (ready.pAdj t) ∨
      ∃ why, ready.why t = some why ∧ l = .void metric t why := by
  rcases ready.mem_lines.mp mem with rfl | ⟨t, test, void | report⟩ | ⟨-, rfl⟩
  · cases result
  · obtain ⟨why, reason, rfl | rfl⟩ := ready.mem_voidLines.mp void
    · exact ⟨t, test, .inr ⟨why, reason, rfl⟩⟩
    · cases result
  · obtain ⟨passed, rfl | rfl⟩ := ready.mem_reportLines.mp report
    · exact ⟨t, test, .inl ⟨passed, rfl⟩⟩
    · cases result
  · cases result

theorem line_reports (pAdj : Option ℚ) {m : Metric} {t' : Test} :
    (ready.line t pAdj).reports m t' = true ↔ metric = m ∧ t = t' := by
  by_cases quick : smoke = true
  · rw [line, if_pos quick]
    simp [Line.reports]
  · rw [line, if_neg quick]
    change (decide (metric = m) && decide (t = t')) = true ↔ _
    simp

theorem line_not_isVoid (pAdj : Option ℚ) : (ready.line t pAdj).isVoid = false := by
  rw [line]
  split <;> rfl

theorem line_not_voids (pAdj : Option ℚ) {m : Metric} {t' : Test} :
    (ready.line t pAdj).voids m t' = false := by
  rw [line]
  split <;> rfl

theorem metric_of_about {m : Metric} (mem : l ∈ ready.lines)
    (about : l.reports m t = true ∨ l.voids m t = true) : metric = m := by
  have result : l.isResult = true := about.elim Line.isResult_of_reports Line.isResult_of_voids
  obtain ⟨t', -, ⟨-, rfl⟩ | ⟨why, -, rfl⟩⟩ := ready.result_cases mem result
  · rw [ready.line_reports, ready.line_not_voids] at about
    simpa using about.imp_left And.left
  · simp only [Line.reports, Line.voids, Bool.and_eq_true, decide_eq_true_eq] at about
    simpa using about.imp_right And.left

/-- A test is reported if and only if its gates give no reason. -/
theorem reports_iff {m : Metric} (test : t ∈ plannedTests) :
    (∃ l ∈ ready.lines, l.reports m t = true) ↔ metric = m ∧ ready.why t = none := by
  constructor
  · rintro ⟨l, mem, reports⟩
    obtain ⟨t', -, ⟨passed, rfl⟩ | ⟨why, -, rfl⟩⟩ :=
      ready.result_cases mem (Line.isResult_of_reports reports)
    · obtain ⟨rfl, rfl⟩ := (ready.line_reports _).mp reports
      exact ⟨rfl, passed⟩
    · cases reports
  · rintro ⟨rfl, passed⟩
    exact ⟨_, ready.mem_lines.mpr
      (.inr (.inl ⟨t, test, .inr (ready.mem_reportLines.mpr ⟨passed, .inl rfl⟩)⟩)),
      (ready.line_reports _).mpr ⟨rfl, rfl⟩⟩

/-- A test is voided if and only if its gates give a reason. -/
theorem voids_iff {m : Metric} (test : t ∈ plannedTests) :
    (∃ l ∈ ready.lines, l.voids m t = true) ↔ metric = m ∧ ready.why t ≠ none := by
  constructor
  · rintro ⟨l, mem, voids⟩
    obtain ⟨t', -, ⟨passed, rfl⟩ | ⟨why, reason, rfl⟩⟩ :=
      ready.result_cases mem (Line.isResult_of_voids voids)
    · rw [ready.line_not_voids] at voids
      cases voids
    · obtain ⟨rfl, rfl⟩ : metric = m ∧ t' = t := by simpa [Line.voids] using voids
      exact ⟨rfl, by simp [reason]⟩
  · rintro ⟨rfl, void⟩
    obtain ⟨why, reason⟩ := Option.ne_none_iff_exists'.mp void
    exact ⟨.void metric t why, ready.mem_lines.mpr
      (.inr (.inl ⟨t, test, .inl (ready.mem_voidLines.mpr ⟨why, reason, .inl rfl⟩)⟩)),
      by simp [Line.voids]⟩

end Ready

/-! ## Before and after the metrics

What the preamble and the conclusion print does not depend on a computation that may fail in
a valid analysis.  They report and void no test; the conclusion has the verdicts. -/

variable {set : Setting} {an : Analysis} {smoke : Bool} {path src : Text}

/-- The preamble has no results. -/
theorem preamble_all : All (fun l => l.isResult = false) (preamble an path src smoke) := by
  unfold preamble
  dsimp only
  repeat' first
    | exact .emit rfl
    | exact .eval _
    | exact .pure _
    | refine .mapM' fun _ _ => ?_
    | refine .bind ?_ fun _ _ => ?_
    | split

theorem counterLines_all : All (fun l => l.isResult = false) (counterLines an) := by
  unfold counterLines
  repeat' first
    | exact .emit rfl
    | exact .eval _
    | exact .pure _
    | refine .mapM' fun _ _ => ?_
    | refine .bind ?_ fun _ _ => ?_

/-- A campaign that is voided has no inferences. -/
theorem campaignVoidLines_all {reasons : List Reason} :
    All (fun l => l.isInference = false) (campaignVoidLines an smoke reasons) := by
  have counters : All (fun l => l.isInference = false) (counterLines an) := fun l mem =>
    Line.isInference_of_quiet (counterLines_all l mem)
  unfold campaignVoidLines
  dsimp only
  repeat' first
    | exact .emit rfl
    | exact .pure _
    | exact counters
    | refine .mapM' fun _ _ => ?_
    | refine .bind ?_ fun _ _ => ?_
    | split

/-- An inference comes after a preflight that finds nothing.  The lines of a voided campaign
have none. -/
theorem clear_of_inference {l : Line} (mem : l ∈ (analyzeLoaded set an path src smoke).lines)
    (inference : l.isInference = true) : an.campaignVoidReasons = .ok [] := by
  rw [analyzeLoaded, mem_bind_lines] at mem
  rcases mem with first | ⟨-, -, later⟩
  · exact absurd inference (ne_true_of_eq_false (Line.isInference_of_quiet (preamble_all l first)))
  · rcases mem_bind_lines.mp later with none | ⟨reasons, returned, line⟩
    · cases none
    · by_cases clear : reasons = []
      · rw [← clear]
        exact returned
      · rw [if_pos clear] at line
        exact absurd inference (ne_true_of_eq_false (campaignVoidLines_all l line))

/-- The verdict of a metric. -/
def verdictIn (outcomes : List (Metric × Outcome)) (m : Metric) : Option Bool :=
  (outcomes.find? fun e => e.1 = m).bind fun e => e.2.verdict

/-- The results of a conclusion are verdicts of metrics that have one, and in CPU-only mode the
void verdict of a metric that has none.  There are none in a smoke run. -/
theorem conclusion_all {outcomes : List (Metric × Outcome)} :
    All (fun l => l.isResult = true → smoke = false ∧
      ((∃ m ms passed verdict, l = .verdict (m :: ms) passed ∧
          verdictIn outcomes m = some verdict) ∨
        ∃ ms, l = .verdictVoid ms ∧
          (an.mode = .fixedloadCpu → verdictIn outcomes .totalBusyCe = none)))
      (conclusion an smoke outcomes) := by
  have counters : ∀ {P : Line → Prop}, All (fun l => l.isResult = true → P l) (counterLines an) :=
    fun l mem => (ne_true_of_eq_false (counterLines_all l mem)).elim
  -- what is said of the CPU-only mode holds in the branches of the others
  have legacy : ∀ {mode other : Mode} {P : Prop}, mode = other → other ≠ .fixedloadCpu →
      mode = .fixedloadCpu → P := fun is no cpu => absurd (is.symm.trans cpu) no
  unfold conclusion verdictLines
  dsimp only
  repeat' first
    | exact .emit Bool.false_ne_true.elim
    | exact .emit fun _ => ⟨Bool.eq_false_of_not_eq_true ‹_›, .inl ⟨_, _, _, _, rfl, ‹_›⟩⟩
    | exact .emit fun _ => ⟨Bool.eq_false_of_not_eq_true ‹_›, .inr ⟨_, rfl, fun _ => ‹_›⟩⟩
    | exact .emit fun _ => ⟨Bool.eq_false_of_not_eq_true ‹_›, .inr ⟨_, rfl, legacy ‹_› (by decide)⟩⟩
    | exact .eval _
    | exact .pure _
    | exact counters
    | refine .bind ?_ fun _ _ => ?_
    | split

/-- The conclusion reports and voids no test. -/
theorem conclusion_not_about {outcomes : List (Metric × Outcome)} :
    All (fun l => ∀ m t, l.reports m t = false ∧ l.voids m t = false)
      (conclusion an smoke outcomes) := by
  intro l mem m t
  by_cases result : l.isResult = true
  · obtain ⟨-, ⟨_, _, _, _, rfl, -⟩ | ⟨_, rfl, -⟩⟩ := conclusion_all l mem result
    · exact ⟨rfl, rfl⟩
    · exact ⟨rfl, rfl⟩
  · exact Line.about_none (Bool.eq_false_of_not_eq_true result)

/-- The preamble reads the metrics of the table and, in a fixed-load mode, the loads.  All
of these are there. -/
theorem preamble_returns (valid : an.Valid) : Returns (preamble an path src smoke) := by
  have cells : ∀ c, ∃ xs, (summaryOf an.mode).mapM' (fun m => an.metricMean m c) = .ok xs := by
    intro c
    obtain ⟨xs, returned, -⟩ := mapM'_returns fun m listed => valid.metricMean_returns listed c
    exact ⟨xs, returned⟩
  have loads : an.mode ≠ .confirm →
      ∃ xs, CONDS.mapM' (an.columnMean "load_window_gbps") = .ok xs := by
    intro gateB
    have column : ("load_window_gbps" : Text) ∈ numColumns an.mode := by
      cases mode : an.mode with
      | confirm => exact absurd mode gateB
      | fixedload => decide
      | fixedloadCpu => decide
    have reads : ∀ c ∈ CONDS, ∃ x, an.columnMean "load_window_gbps" c = .ok x := by
      intro c _
      refine valid.columnMean_returns fun blk mem => ?_
      obtain ⟨q, -, read⟩ := valid.num_positive mem c column
      exact ⟨_, read⟩
    obtain ⟨xs, returned, -⟩ := mapM'_returns reads
    exact ⟨xs, returned⟩
  unfold preamble
  dsimp only
  repeat' first
    | exact .emit _
    | exact .eval (cells _)
    | exact .eval (loads ‹_›)
    | exact .pure _
    | refine .mapM' fun _ _ => ?_
    | refine .bind ?_ fun _ _ => ?_
    | split

theorem counterLines_returns (valid : an.Valid) (cpu : an.mode = .fixedloadCpu) :
    Returns (counterLines an) := by
  have counts : ∀ c, ∀ key ∈ countColumns an.mode, ∃ x, an.columnMean key c = .ok x := by
    intro c key column
    refine valid.columnMean_returns fun blk mem => ?_
    obtain ⟨n, -, read⟩ := valid.num_count mem c column
    exact ⟨_, read⟩
  refine .bind (.emit _) fun _ _ => .bind (.emit _) fun _ _ => .bind ?_ fun _ _ => .pure _
  refine .mapM' fun c _ => ?_
  refine .bind (.eval (counts c _ (by rw [cpu]; decide))) fun _ _ => ?_
  exact .bind (.eval (counts c _ (by rw [cpu]; decide))) fun _ _ => .emit _

/-- The exit status tells whether something was voided. -/
theorem conclusion_result {outcomes : List (Metric × Outcome)} (valid : an.Valid)
    (counts : ∃ ns, dmesgCounts an = .ok ns) :
    (conclusion an smoke outcomes).result =
      .ok (if outcomes.any fun e => e.2.voided then 2 else 0) := by
  obtain ⟨ns, counts⟩ := counts
  have verdicts : ∀ voided verdict, Returns (verdictLines an voided verdict) := by
    intro voided verdict
    unfold verdictLines
    dsimp only
    repeat' first
      | exact .emit _
      | exact .pure _
      | exact counterLines_returns valid ‹_›
      | refine .bind (.emit _) fun _ _ => ?_
      | split
  rw [conclusion]
  dsimp only
  rw [emit_bind, counts]
  by_cases quick : smoke = true
  · rw [if_pos quick, eval_ok_bind]
    rfl
  · rw [if_neg quick, (verdicts _ _).eq_done, done_bind, eval_ok_bind]
    rfl

/-! ## The whole output

With the computations behind every metric known, the output is a concatenation, and a
question about it is one about the lines of a single metric. -/

/-- A call that `main` makes overrides the number of blocks only in a smoke run. -/
theorem parseArgs_permitted {round : ℚ → PyFloat} {argv : List Text} {call : Call}
    (parsed : parseArgs round argv = .ok call) : call.blocks = none ∨ call.smoke = true := by
  simp only [parseArgs, except_bind_ok, require_ok, exists_const] at parsed
  obtain ⟨⟨flag, rest⟩, -, ⟨blocks, rest⟩, -, count, -, ⟨target, rest⟩, -, value, -, permitted, -,
    found⟩ := parsed
  dsimp only at found
  split at found
  · cases found
  · cases found
    exact permitted
  · cases found

/-- The computations behind every metric of the mode return.  It is what the theorems about
an output assume, and `Analysis.exists_runs` provides it. -/
structure Runs (set : Setting) (an : Analysis) (smoke : Bool) where
  ready : ∀ m ∈ metricsOf an.mode, Ready set an smoke m

namespace Runs

variable (runs : Runs set an smoke) {m : Metric} {t : Test} {l : Line}

/-- What is known of each metric is known of all. -/
theorem exists_of_forall {P : Metric → Test → Prop}
    (each : ∀ m ∈ metricsOf an.mode, ∃ ready : Ready set an smoke m, ∀ t,
      ready.why t = none ↔ P m t) :
    ∃ runs : Runs set an smoke, ∀ m listed t, (runs.ready m listed).why t = none ↔ P m t := by
  choose ready passes using each
  exact ⟨⟨ready⟩, passes⟩

/-- The lines of a metric, and what it contributes to the end. -/
def lines (m : Metric) : List Line :=
  if listed : m ∈ metricsOf an.mode then (runs.ready m listed).lines else []

def outcome (m : Metric) : Outcome :=
  if listed : m ∈ metricsOf an.mode then (runs.ready m listed).outcome else ⟨false, none⟩

def outcomes : List (Metric × Outcome) := (metricsOf an.mode).map fun m => (m, runs.outcome m)

/-- **The output of an analysis that the preflight lets pass.** -/
theorem analyzeLoaded_eq (valid : an.Valid) (clear : an.campaignVoidReasons = .ok []) :
    analyzeLoaded set an path src smoke =
      ⟨(preamble an path src smoke).lines ++ (metricsOf an.mode).flatMap runs.lines ++
        (conclusion an smoke runs.outcomes).lines, (conclusion an smoke runs.outcomes).result⟩ := by
  have rounds : (metricsOf an.mode).mapM' (fun m => do return (m, ← analyzeMetric set an smoke m)) =
      ⟨(metricsOf an.mode).flatMap runs.lines, .ok runs.outcomes⟩ := by
    refine mapM'_of_eq fun m listed => ?_
    rw [(runs.ready m listed).analyzeMetric_eq, done_bind, lines, outcome, dif_pos listed,
      dif_pos listed]
    simp
  rw [analyzeLoaded, (preamble_returns valid).eq_done, done_bind, clear, eval_ok_bind]
  simp only [ne_eq, not_true_eq_false, if_false]
  rw [rounds, done_bind, List.append_assoc]

theorem mem_ready (listed : m ∈ metricsOf an.mode) (line : l ∈ (runs.ready m listed).lines)
    (valid : an.Valid) (clear : an.campaignVoidReasons = .ok []) :
    l ∈ (analyzeLoaded set an path src smoke).lines := by
  rw [runs.analyzeLoaded_eq valid clear]
  refine List.mem_append_left _ (List.mem_append_right _ (List.mem_flatMap.mpr ⟨m, listed, ?_⟩))
  rwa [lines, dif_pos listed]

/-- A result is a line of a metric or of the conclusion. -/
theorem mem_of_result (valid : an.Valid) (clear : an.campaignVoidReasons = .ok [])
    (mem : l ∈ (analyzeLoaded set an path src smoke).lines) (result : l.isResult = true) :
    (∃ m, ∃ listed : m ∈ metricsOf an.mode, l ∈ (runs.ready m listed).lines) ∨
      l ∈ (conclusion an smoke runs.outcomes).lines := by
  rw [runs.analyzeLoaded_eq valid clear, List.mem_append, List.mem_append] at mem
  rcases mem with (first | inside) | after
  · exact absurd result (ne_true_of_eq_false (preamble_all l first))
  · obtain ⟨m, listed, line⟩ := List.mem_flatMap.mp inside
    rw [lines, dif_pos listed] at line
    exact .inl ⟨m, listed, line⟩
  · exact .inr after

/-- A line that reports or voids a test is one of the metric's lines. -/
theorem ready_of_about (valid : an.Valid) (clear : an.campaignVoidReasons = .ok [])
    (mem : l ∈ (analyzeLoaded set an path src smoke).lines)
    (about : l.reports m t = true ∨ l.voids m t = true) :
    ∃ listed : m ∈ metricsOf an.mode, l ∈ (runs.ready m listed).lines := by
  have result : l.isResult = true := about.elim Line.isResult_of_reports Line.isResult_of_voids
  rcases runs.mem_of_result valid clear mem result with ⟨m', listed, line⟩ | after
  · obtain rfl := (runs.ready m' listed).metric_of_about line about
    exact ⟨listed, line⟩
  · obtain ⟨unreported, unvoided⟩ := conclusion_not_about l after m t
    exact about.elim (ne_true_of_eq_false unreported).elim (ne_true_of_eq_false unvoided).elim

/-- A test is reported if and only if its gates give no reason. -/
theorem reported_iff (valid : an.Valid) (clear : an.campaignVoidReasons = .ok [])
    (listed : m ∈ metricsOf an.mode) (test : t ∈ plannedTests) :
    (∃ l ∈ (analyzeLoaded set an path src smoke).lines, l.reports m t = true) ↔
      (runs.ready m listed).why t = none := by
  constructor
  · rintro ⟨l, mem, reports⟩
    obtain ⟨listed, line⟩ := runs.ready_of_about valid clear mem (.inl reports)
    exact (((runs.ready m listed).reports_iff test).mp ⟨l, line, reports⟩).2
  · intro passed
    obtain ⟨l, line, reports⟩ := ((runs.ready m listed).reports_iff test).mpr ⟨rfl, passed⟩
    exact ⟨l, runs.mem_ready listed line valid clear, reports⟩

/-- In a run that is not a smoke run, a test that passes its gates is reported with its p-value. -/
theorem report_mem (valid : an.Valid) (clear : an.campaignVoidReasons = .ok [])
    (final : smoke = false) (listed : m ∈ metricsOf an.mode) (test : t ∈ plannedTests)
    (passed : (runs.ready m listed).why t = none) :
    ∃ r : Report, .report r ∈ (analyzeLoaded set an path src smoke).lines ∧ r.metric = m ∧
      r.test = t ∧ r.p = ((runs.ready m listed).flip t).2 ∧
      r.pAdj = (runs.ready m listed).pAdj t := by
  have line := (runs.ready m listed).mem_lines.mpr
    (.inr (.inl ⟨t, test, .inr ((runs.ready m listed).mem_reportLines.mpr ⟨passed, .inl rfl⟩)⟩))
  rw [Ready.line, if_neg (by simp [final])] at line
  exact ⟨_, runs.mem_ready listed line valid clear, rfl, rfl, rfl, rfl⟩

/-- Something is voided if and only if the gates of some test give a reason. -/
theorem any_voided : (runs.outcomes.any fun e => e.2.voided) = true ↔
    ∃ m listed, ∃ t ∈ plannedTests, (runs.ready m listed).why t ≠ none := by
  simp only [outcomes, List.any_map, List.any_eq_true, Function.comp_def]
  constructor
  · rintro ⟨m, listed, voided⟩
    rw [outcome, dif_pos listed, Ready.outcome, List.any_eq_true] at voided
    obtain ⟨t, test, reason⟩ := voided
    exact ⟨m, listed, t, test, Option.isSome_iff_ne_none.mp reason⟩
  · rintro ⟨m, listed, t, test, reason⟩
    refine ⟨m, listed, ?_⟩
    rw [outcome, dif_pos listed, Ready.outcome, List.any_eq_true]
    exact ⟨t, test, Option.isSome_iff_ne_none.mpr reason⟩

/-- Something is voided if and only if some line says so. -/
theorem voided_iff (valid : an.Valid) (clear : an.campaignVoidReasons = .ok []) :
    (runs.outcomes.any fun e => e.2.voided) = true ↔
      ∃ m t, ∃ l ∈ (analyzeLoaded set an path src smoke).lines, l.voids m t = true := by
  rw [any_voided]
  constructor
  · rintro ⟨m, listed, t, test, reason⟩
    obtain ⟨l, line, voids⟩ := ((runs.ready m listed).voids_iff test).mpr ⟨rfl, reason⟩
    exact ⟨m, t, l, runs.mem_ready listed line valid clear, voids⟩
  · rintro ⟨m, t, l, mem, voids⟩
    obtain ⟨listed, line⟩ := runs.ready_of_about valid clear mem (.inr voids)
    obtain ⟨t', test, ⟨-, rfl⟩ | ⟨why, reason, -⟩⟩ :=
      (runs.ready m listed).result_cases line (Line.isResult_of_voids voids)
    · exact absurd voids (ne_true_of_eq_false ((runs.ready m listed).line_not_voids _))
    · exact ⟨m, listed, t', test, by simp [reason]⟩

/-- A metric with a verdict is listed, and its primary comparison has passed. -/
theorem passed_of_verdict {verdict : Bool} (found : verdictIn runs.outcomes m = some verdict) :
    ∃ listed, (runs.ready m listed).why (.pair .steal4 .off) = none := by
  obtain ⟨e, found, verdict⟩ := Option.bind_eq_some_iff.mp found
  obtain ⟨m', listed, rfl⟩ := List.mem_map.mp (List.mem_of_find?_eq_some found)
  obtain rfl : m' = m := by simpa using List.find?_some found
  refine ⟨listed, ?_⟩
  rw [outcome, dif_pos listed, Ready.outcome] at verdict
  by_contra reason
  rw [Option.isNone_eq_false_iff.mpr (Option.isSome_iff_ne_none.mpr reason), Bool.and_false]
    at verdict
  cases verdict

/-- **Every inference is about a test that has passed its gates**, and there are none in a smoke
run. -/
theorem inference_cases (valid : an.Valid) (clear : an.campaignVoidReasons = .ok [])
    (mem : l ∈ (analyzeLoaded set an path src smoke).lines) (inference : l.isInference = true) :
    smoke = false ∧ ∃ m listed, ∃ t ∈ plannedTests,
      (runs.ready m listed).why t = none ∧ l.conds = t.conds := by
  have result := Line.isResult_of_isInference inference
  rcases runs.mem_of_result valid clear mem result with ⟨m, listed, line⟩ | after
  · obtain ⟨t, test, ⟨passed, rfl⟩ | ⟨why, -, rfl⟩⟩ :=
      (runs.ready m listed).result_cases line result
    · by_cases quick : smoke = true
      · rw [Ready.line, if_pos quick] at inference
        cases inference
      · refine ⟨Bool.eq_false_of_not_eq_true quick, m, listed, t, test, passed, ?_⟩
        rw [Ready.line, if_neg quick]
        rfl
    · cases inference
  · obtain ⟨final, ⟨m, ms, passed, verdict, rfl, found⟩ | ⟨ms, rfl, -⟩⟩ :=
      conclusion_all l after result
    · obtain ⟨listed, passed⟩ := runs.passed_of_verdict found
      exact ⟨final, m, listed, .pair .steal4 .off, by decide, passed, rfl⟩
    · cases inference

end Runs

end WgReceivePath.Analyze
