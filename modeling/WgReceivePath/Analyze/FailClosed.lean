import WgReceivePath.Analyze.GateB

/-!
# No inference from a malformed artifact

Whatever the files contain and whatever the command line says, an inference is printed only
by a run that is not a smoke run (`analyzeLoaded_final`), over an artifact that has been
accepted in full (`fail_closed`).

`WellFormed` says in terms of the rows of the CSV what acceptance means: a complete design
with distinct labels, positions that are permutations, readbacks that state the treatment,
one srcversion up to white space, and positive finite numbers in the columns of the metrics
(`wellFormed_of_loaded`).  It is a statement about the file, and the order of the blocks is
not in it.

Two things that one might expect are not in it either, and `odd_artifact_accepted` shows
that they do not hold: srcversions are compared up to white space, and a metric that is a
quotient of two columns may be infinite.
-/

namespace WgReceivePath.Analyze

open Printing

/-! ## Smoke runs infer nothing

This holds of every analysis, valid or not, and whether it returns or raises: it is a
property of each line that can be printed, by going through the function. -/

section Smoke

variable {set : Setting} {an : Analysis} {smoke : Bool} {path src : Text}

/-- The lines of a metric have inferences only in a run that is not a smoke run.  Whether
the computations return does not matter: what is printed is printed. -/
theorem analyzeMetric_final {m : Metric} :
    All (fun l => l.isInference = true → smoke = false) (analyzeMetric set an smoke m) := by
  have void : ∀ m t why, All (fun l => l.isInference = true → smoke = false) (voidLine m t why) :=
    fun _ _ _ => .bind (.emit Bool.false_ne_true.elim) fun _ _ => .emit Bool.false_ne_true.elim
  have report : ∀ t ds base fav tag pAdj, All (fun l => l.isInference = true → smoke = false)
      (reportLine set smoke m t ds base fav tag pAdj) := by
    intro t ds base fav tag pAdj
    refine .bind (.eval _) fun _ _ => .bind (.eval _) fun _ _ => ?_
    split
    · exact .bind (.emit Bool.false_ne_true.elim) fun _ _ =>
        .bind (.emit Bool.false_ne_true.elim) fun _ _ => .pure _
    · refine .bind (.eval _) fun _ _ => .bind (.emit fun _ => ?_) fun _ _ =>
        .bind (.emit Bool.false_ne_true.elim) fun _ _ => .pure _
      exact Bool.eq_false_of_not_eq_true ‹_›
  unfold analyzeMetric reportMetric
  dsimp only
  refine .bind (.eval _) fun fav _ => .bind (.emit Bool.false_ne_true.elim) fun _ _ =>
    .bind (.eval _) fun _ _ => .bind (.mapM' fun ab _ => ?_) fun _ _ => .bind (.eval _) fun _ _ =>
    .bind (.mapM' fun e _ => ?_) fun _ _ => .bind ?_ fun _ _ => .pure _
  · refine .bind (.eval _) fun why _ => ?_
    split
    · exact .bind (void _ _ _) fun _ _ => .pure _
    · exact .bind (.eval _) fun _ _ => .bind (.eval _) fun _ _ => .pure _
  · unfold reportComparison
    split
    · exact .pure _
    · exact .bind (.eval _) fun _ _ => report _ _ _ _ _ _
  · unfold reportInteraction
    split
    · exact void _ _ _
    · exact .bind (.eval _) fun _ _ => .bind (report _ _ _ _ _ _) fun _ _ =>
        .emit Bool.false_ne_true.elim

/-- **A smoke run infers nothing**, whether its artifact is valid or not. -/
theorem analyzeLoaded_final : All (fun l => l.isInference = true → smoke = false)
    (analyzeLoaded set an path src smoke) := by
  have quiet : All (fun l => l.isInference = true → smoke = false) (preamble an path src smoke) :=
    fun l mem => (ne_true_of_eq_false (Line.isInference_of_quiet (preamble_all l mem))).elim
  refine .bind quiet fun _ _ => .bind (.eval _) fun _ _ => ?_
  split
  · exact fun l mem => (ne_true_of_eq_false (campaignVoidLines_all l mem)).elim
  · refine .bind (.mapM' fun m _ => .bind analyzeMetric_final fun _ _ => .pure _) fun _ _ => ?_
    exact fun l mem inference => (conclusion_all l mem (Line.isResult_of_isInference inference)).1

end Smoke

/-! ## Accepted rows

The keys of the table are the product of the labels and the conditions, since every label
has all conditions and every entry has a label.  Read back in terms of the file, that is the
complete design. -/

/-- What an accepted artifact looks like, in terms of its rows.  The fields are about the
file alone; the sidecars have their own theorem. -/
structure WellFormed (round : ℚ → PyFloat) (mode : Mode) (rows : List Row) (labels : List Text) :
    Prop where
  distinct : labels.Nodup
  count : labels.length = if mode = .confirm then 12 else 8
  /-- one row for each label and each condition, and no other row -/
  design : (rows.map fun r => (r.get "block", r.get "cond")).Perm
    (labels.flatMap fun b => CONDS.map fun c => (some b, some c.text))
  positions : ∀ b ∈ labels, ((rows.filter fun r => r.get "block" = some b).map
    fun r => r.get "position").Perm (([("1" : Text), "2", "3", "4"] : List Text).map some)
  /-- the readback is the one that the condition of the row prescribes, in some order -/
  knobs : ∀ r ∈ rows, ∃ c raw, r.get "cond" = some c.text ∧ r.get "knobs" = some raw ∧
    ((raw.splitOn ';').map knobEntry).Perm ((expectedKnobs c mode).map fun e => (e.1, some e.2))
  srcversion : ∃ src, src ≠ [] ∧ ∀ r ∈ rows, ((r.get "srcversion").getD []).strip = src
  metrics : ∀ m ∈ metricsOf mode, m ≠ .effGbpsPerCe → ∀ r ∈ rows, r.Positive round m.text

section Accepted

variable {env : Env} {mode : Mode} {want : ℤ} {rows : List Row} {table : Table}
  {blocks : List Text}

namespace Accepted

variable (accepted : Accepted env mode want rows table blocks)

include accepted

theorem hasConditions {b : Text} (block : b ∈ blocks) : HasConditions table b :=
  (checkBlock_ok.mp (accepted.blocks b block)).1

theorem mem_entries {e : (Option Text × Cond) × Row} :
    e ∈ table.entries ↔ ∃ b ∈ blocks, ∃ c, ((some b, c), rowAt table b c) = e := by
  constructor
  · intro entry
    have found := table.mem_entries.mp entry
    obtain ⟨b, block, label⟩ := accepted.mem_keys.mp
      (table.mem_keys.mpr ⟨_, found⟩ : (e.1.1, e.1.2) ∈ table.keys)
    have key : (some b, e.1.2) = e.1 := Prod.ext label.symm rfl
    refine ⟨b, block, e.1.2, Prod.ext key ?_⟩
    rw [← key, (accepted.hasConditions block).get?] at found
    exact Option.some.inj found
  · rintro ⟨b, block, c, rfl⟩
    exact table.mem_entries.mpr ((accepted.hasConditions block).get? c)

/-- The entries are the rows of the blocks. -/
theorem entries_perm : table.entries.Perm
    (blocks.flatMap fun b => CONDS.map fun c => ((some b, c), rowAt table b c)) := by
  have nodup :
      (blocks.flatMap fun b => CONDS.map fun c => ((some b, c), rowAt table b c)).Nodup := by
    have keys : (blocks.flatMap fun b => CONDS.map fun c => ((some b, c), rowAt table b c)).map
        Prod.fst = (blocks.map some) ×ˢ CONDS := by
      simp only [List.map_flatMap, List.map_map, Function.comp_def, SProd.sprod, List.product,
        List.flatMap_map]
    refine .of_map Prod.fst ?_
    rw [keys]
    exact (accepted.blocks_nodup.map (Option.some_injective _)).product (by decide : CONDS.Nodup)
  refine (List.perm_ext_iff_of_nodup table.distinct.of_map nodup).mpr fun e => ?_
  simp only [List.mem_flatMap, List.mem_map, accepted.mem_entries, mem_CONDS, true_and]

/-- The rows of an accepted artifact are a complete design. -/
theorem design : (rows.map fun r => (r.get "block", r.get "cond")).Perm
    (blocks.flatMap fun b => CONDS.map fun c => (some b, some c.text)) := by
  refine .trans (.of_eq (buildTable_ok accepted.built).rowKeys) ?_
  rw [Dict.keys, List.map_map]
  refine (accepted.entries_perm.map _).trans (.of_eq ?_)
  simp only [List.map_flatMap, List.map_map, Function.comp_def, asLabels]

/-- The positions of a block are a permutation. -/
theorem positions {b : Text} (block : b ∈ blocks) :
    ((rows.filter fun r => r.get "block" = some b).map fun r => r.get "position").Perm
      (blockPositions.map some) :=
  ((buildTable_ok accepted.built).positions (accepted.hasConditions block)).trans
    (checkBlock_ok.mp (accepted.blocks b block)).2

theorem entry_of_row {r : Row} (row : r ∈ rows) : ∃ e ∈ table.entries, e.2 = r := by
  rw [← (buildTable_ok accepted.built).rows] at row
  exact List.mem_map.mp row

end Accepted

end Accepted

/-- **An artifact that is accepted without an override is well formed.**  The number of
blocks is the one that the mode prescribes. -/
theorem wellFormed_of_loaded {env : Env} {path : Text} {flag : Option Text} {cpuOnly : Bool}
    {art : Artifact} (loaded : loadArtifact env path flag none cpuOnly = .ok art) :
    ∃ records, env.csv path = .ok records ∧
      WellFormed env.round art.mode (dictReader records) art.blocks := by
  have length := length_of_loaded loaded
  obtain ⟨records, there, identified, accepted, -⟩ := loadArtifact_ok.mp loaded
  have identified := identify_ok.mp identified
  have row : ∀ r ∈ dictReader records, ∃ c, r.get "cond" = some c.text ∧
      ∃ b, checkRow env.round art.mode ⟨b, c⟩ r = .ok () := by
    intro r row
    obtain ⟨e, entry, rfl⟩ := accepted.entry_of_row row
    exact ⟨e.1.2, (buildTable_ok accepted.built).cond e entry, e.1.1, accepted.rows e entry⟩
  refine ⟨records, there, accepted.blocks_nodup, ?_, accepted.design, fun b => accepted.positions,
    fun r mem => ?_, ⟨art.src, identified.present, identified.srcversion⟩,
    fun m listed plain r mem => ?_⟩
  · have count : (art.blocks.length : ℤ) = ((if art.mode = .confirm then 12 else 8 : ℕ) : ℤ) :=
      length.trans (by cases art.mode <;> rfl)
    exact_mod_cast count
  · obtain ⟨c, cond, b, passed⟩ := row r mem
    obtain ⟨raw, field, entries⟩ := (checkRow_ok.mp passed).readback
    exact ⟨c, raw, cond, field, entries⟩
  · obtain ⟨c, -, b, passed⟩ := row r mem
    rcases summary_columns (metricsOf_subset listed) with ⟨rfl, -⟩ | ⟨-, column⟩
    · exact absurd rfl plain
    · exact (checkRow_ok.mp passed).numbers _ column

/-! ## The command line -/

/-- The lines that the handlers of `main` add are no inferences. -/
theorem handled_lines (out : Output ℤ) : ∃ added, (handled out).lines = out.lines ++ added ∧
    ∀ l ∈ added, l.isInference = false := by
  unfold handled
  split
  · exact ⟨_, rfl, List.forall_mem_singleton.mpr rfl⟩
  · exact ⟨_, rfl, List.forall_mem_singleton.mpr rfl⟩
  · exact ⟨[], (List.append_nil _).symm, by simp⟩

theorem mem_of_handled {out : Output ℤ} {l : Line} (mem : l ∈ (handled out).lines)
    (inference : l.isInference = true) : l ∈ out.lines := by
  obtain ⟨added, lines, quiet⟩ := handled_lines out
  rw [lines] at mem
  rcases List.mem_append.mp mem with line | late
  · exact line
  · exact absurd inference (ne_true_of_eq_false (quiet l late))

theorem mem_handled {out : Output ℤ} {l : Line} (mem : l ∈ out.lines) :
    l ∈ (handled out).lines := by
  obtain ⟨added, lines, -⟩ := handled_lines out
  rw [lines]
  exact List.mem_append_left _ mem

/-- **Artifact validation fails closed.**  Whatever the files contain, whatever the command line
other than `--selftest`, and however numbers are rounded: an inference in the output of `main` is
one of a run that is not a smoke run, over a well formed artifact. -/
theorem fail_closed (set : Setting) (selftest : Output ℤ) {argv : List Text}
    (analysis : ("--selftest" : Text) ∉ argv) {l : Line}
    (mem : l ∈ (main set selftest argv).lines) (inference : l.isInference = true) :
    ∃ call art records, parseArgs set.round argv = .ok call ∧ call.smoke = false ∧
      set.csv call.path = .ok records ∧
      loadArtifact set.toEnv call.path call.flag call.blocks call.cpuOnly = .ok art ∧
      WellFormed set.round art.mode (dictReader records) art.blocks := by
  rw [main, if_neg analysis] at mem
  cases parsed : parseArgs set.round argv with
  | error why =>
      rw [parsed] at mem
      rw [List.mem_singleton.mp mem] at inference
      cases inference
  | ok call =>
      rw [parsed] at mem
      have line := mem_of_handled mem inference
      rw [analyze] at line
      rcases mem_bind_lines.mp line with none | ⟨art, loaded, line⟩
      · cases none
      · have final := analyzeLoaded_final l line inference
        have override : call.blocks = none :=
          (parseArgs_permitted parsed).resolve_right (by simp [final])
        have loaded : loadArtifact set.toEnv call.path call.flag call.blocks call.cpuOnly =
            .ok art := loaded
        rw [override] at loaded
        obtain ⟨records, there, formed⟩ := wellFormed_of_loaded loaded
        exact ⟨call, art, records, rfl, final, there, by rw [override]; exact loaded, formed⟩

/-! ## A written confirm artifact

An artifact that is accepted and has an infinite metric value.  The quotient of two columns
is not checked, and a huge numerator over a tiny denominator overflows. -/

/-- In confirm mode no gate voids a test of these metrics. -/
theorem passes_confirm {an : Analysis} (confirm : an.mode = .confirm) {m : Metric}
    (plain : m.isLat = false) (t : Test) : Passes (an.testReason m t) True := by
  have load : ∀ a b, Passes (an.loadVoidReason a b) True := fun a b => by
    rw [Analysis.loadVoidReason, if_pos confirm]
    exact Passes.none
  have dmesg : ∀ conds, Passes (an.dmesgVoidReason conds) True := fun conds => by
    rw [Analysis.dmesgVoidReason, if_pos (by simp [confirm])]
    exact Passes.none
  have lat : ∀ {P : Prop}, m.isLat = true → P := fun yes => by simp [plain] at yes
  cases t with
  | pair a b =>
      exact (Analysis.passes_comparison (T := True) (load a b) (dmesg _) lat).congr (by simp)
  | interaction =>
      exact (Analysis.passes_interaction (L := fun _ => True) (T := True) (fun ab _ => load _ _)
        (dmesg _) lat).congr (by simp)

/-- The first row of the artifact gets another value. -/
def first (value : Text) (b : Text) (c : Cond) : Option Text :=
  if b = ("1" : Text) ∧ c = .off then some value else none

def twelveBlocks : List Text := eightBlocks ++ (["9", "10", "11", "12"] : List Text)

/-- A written confirm artifact, read by the hardware's arithmetic.  Its first row has a blank behind
its srcversion, a huge throughput and a tiny load. -/
def writtenOdd : Setting where
  toEnv := writtenEnv .binary64 [] (written .confirm twelveBlocks fun b c row =>
    mutated "srcversion" (first "ABC ") b c (mutated "gbps" (first "1e300") b c
      (mutated "total_busy_ce" (first "1e-300") b c row)))
  choices _ _ _ := []

def oddCall : Call := ⟨"a", none, none, false, .binary64 (38 / 10), false⟩

/-- The quotient of the first row is infinite, and no base mean is zero. -/
theorem exists_odd : ∃ art, loadArtifact writtenOdd.toEnv "a" none none false = .ok art ∧
    art.mode = .confirm ∧ ("1" : Text) ∈ art.blocks ∧
    (art.analysis .binary64 oddCall.target).metric .effGbpsPerCe "1" .off = .ok (.inf false) ∧
    ∀ m ∈ metricsOf .confirm, ∀ c ∈ CONDS, ∃ x,
      (art.analysis .binary64 oddCall.target).metricMean m c = .ok x ∧ x ≠ .fin 0 := by
  obtain ⟨art, loaded, tested⟩ : ∃ art,
      loadArtifact writtenOdd.toEnv "a" none none false = .ok art ∧
        decide (art.mode = .confirm ∧ ("1" : Text) ∈ art.blocks ∧
          returnsWith ((art.analysis .binary64 oddCall.target).metric .effGbpsPerCe "1" .off)
            (fun x => decide (x = .inf false)) = true ∧
          ∀ m ∈ metricsOf .confirm, ∀ c ∈ CONDS,
            returnsWith ((art.analysis .binary64 oddCall.target).metricMean m c)
              (fun x => decide (x ≠ .fin 0)) = true) = true :=
    exists_of_returnsWith (by decide +kernel)
  obtain ⟨confirm, block, quotient, means⟩ := of_decide_eq_true tested
  refine ⟨art, loaded, confirm, block, ?_, fun m listed c cond => ?_⟩
  · obtain ⟨x, read, same⟩ := exists_of_returnsWith quotient
    rw [read, of_decide_eq_true same]
  · obtain ⟨x, read, nonzero⟩ := exists_of_returnsWith (means m listed c cond)
    exact ⟨x, read, of_decide_eq_true nonzero⟩

/-- The quotient of the first row enters the deltas of a test that is reported with a
p-value.  The computations behind the metric return on infinities as well, and in confirm
mode no gate looks at them. -/
theorem odd_inference (selftest : Output ℤ) : ∃ r : Report,
    .report r ∈ (main writtenOdd selftest ["a"]).lines ∧ r.metric = .effGbpsPerCe ∧
      r.test = .pair .steal4 .off := by
  obtain ⟨art, loaded, confirm, -, -, means⟩ := exists_odd
  have parsed : parseArgs writtenOdd.round ["a"] = .ok oddCall := parsed_of_test (by decide +kernel)
  have valid := loadArtifact_valid oddCall.target loaded
  have listed : ∀ m ∈ metricsOf art.mode, m ∈ metricsOf .confirm ∧ m.isLat = false := by
    rw [confirm]
    decide
  obtain ⟨runs, passes⟩ :
      ∃ runs : Runs writtenOdd (art.analysis .binary64 oddCall.target) false, _ :=
    Runs.exists_of_forall fun m mem => exists_ready valid rfl mem
      (few_of_loaded (.inl rfl) loaded) (fun c => means m (listed m mem).1 c (mem_CONDS c))
      (passes_confirm confirm (listed m mem).2)
  have metric : .effGbpsPerCe ∈ metricsOf (art.analysis .binary64 oddCall.target).mode := by
    change _ ∈ metricsOf art.mode
    rw [confirm]
    decide
  have legacy : (art.analysis .binary64 oddCall.target).mode ≠ .fixedloadCpu := by
    simp [Artifact.analysis, confirm]
  obtain ⟨r, line, same, test, -⟩ := runs.report_mem valid (campaignVoidReasons_legacy legacy) rfl
    metric (by decide : Test.pair .steal4 .off ∈ plannedTests) ((passes _ metric _).mpr trivial)
  refine ⟨r, ?_, same, test⟩
  rw [main, if_neg (by decide), parsed]
  refine mem_handled ?_
  change _ ∈ (analyze writtenOdd "a" none none false oddCall.target false).lines
  rw [analyze_of_loaded loaded]
  exact line

/-- The artifact behind it is well formed. -/
theorem fail_closed_odd : ∃ call art records,
    parseArgs .binary64 ["a"] = .ok call ∧ call.smoke = false ∧
      writtenOdd.csv call.path = .ok records ∧
      loadArtifact writtenOdd.toEnv call.path call.flag call.blocks call.cpuOnly = .ok art ∧
      WellFormed .binary64 art.mode (dictReader records) art.blocks := by
  obtain ⟨r, line, -⟩ := odd_inference ⟨[], .ok 0⟩
  exact fail_closed writtenOdd ⟨[], .ok 0⟩ (by decide) line rfl

/-- Two srcversions, one with a blank behind it, and an infinite metric value: a p-value is printed
all the same. -/
theorem odd_artifact_accepted : ∃ records art r,
    writtenOdd.csv "a" = .ok records ∧
      loadArtifact writtenOdd.toEnv "a" none none false = .ok art ∧
      (∃ row ∈ dictReader records, row.get "srcversion" = some "ABC ") ∧
      (∃ row ∈ dictReader records, row.get "srcversion" = some "ABC") ∧
      ("1" : Text) ∈ art.blocks ∧
      (art.analysis .binary64 oddCall.target).metric .effGbpsPerCe "1" .off = .ok (.inf false) ∧
      .report r ∈ (main writtenOdd ⟨[], .ok 0⟩ ["a"]).lines ∧ r.metric = .effGbpsPerCe ∧
      r.test = .pair .steal4 .off := by
  obtain ⟨art, loaded, -, block, quotient, -⟩ := exists_odd
  obtain ⟨r, line, metric, test⟩ := odd_inference ⟨[], .ok 0⟩
  exact ⟨_, art, r, rfl, loaded, by decide +kernel, by decide +kernel, block, quotient, line,
    metric, test⟩

end WgReceivePath.Analyze
