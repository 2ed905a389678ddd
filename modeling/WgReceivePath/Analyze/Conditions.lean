import WgReceivePath.Analyze.Accept

/-!
# The gates as conditions

On exact rationals a gate is a condition on the fields of the rows.  `Passes gate P` says
that the gate returns, and that it gives no reason if and only if `P` holds.  It goes along
with the ways in which gates are combined (`Passes.orElse`, `Passes.findSomeM?`), so that
each gate of a valid analysis has its condition.

## Main results

* `passes_range` and `passes_deviation`: the absolute gate of a row, in either fixed-load
  mode.
* `passes_pair`, `passes_dmesgRow`, `passes_latencyRow`: the other gates of a row or a pair.
* `passes_comparison` and `passes_interaction`: the gates of a test from those of its rows.

That a gate returns is half of each statement, and rests on the validity of the analysis: a
field is there, a load is not zero, a count is an integer.
-/

namespace WgReceivePath.Analyze

/-! ## Gates and conditions

A gate is asked only when the gates before it have returned without a reason.  With `Passes`
that is no concern: a combined gate passes if all its parts do, in whatever order they are
asked. -/

/-- The gate returns, and gives no reason if and only if the condition holds.  One notion
for both, because a later gate is asked only if the earlier ones return without a reason. -/
def Passes {ρ : Type} (gate : Except PyError (Option ρ)) (P : Prop) : Prop :=
  ∃ reason, gate = .ok reason ∧ (reason = none ↔ P)

namespace Passes

variable {ρ α : Type} {first second gate : Except PyError (Option ρ)} {P Q : Prop}

theorem iff (passes : Passes gate P) : gate = .ok none ↔ P := by
  obtain ⟨reason, rfl, cond⟩ := passes
  rw [← cond, Except.ok.injEq]

theorem none : Passes (.ok none : Except PyError (Option ρ)) True := ⟨_, rfl, by simp⟩

theorem ofIf {ok : Prop} [Decidable ok] {why : ρ} :
    Passes (.ok (if ok then some why else .none)) (¬ ok) := by
  refine ⟨_, rfl, ?_⟩
  split <;> simp [*]

theorem congr (passes : Passes gate P) (same : P ↔ Q) : Passes gate Q := by
  obtain ⟨reason, returned, cond⟩ := passes
  exact ⟨reason, returned, cond.trans same⟩

theorem orElse {first second : Except PyError (Option Reason)} (passes : Passes first P)
    (passes' : Passes second Q) : Passes (Analysis.orElse first second) (P ∧ Q) := by
  obtain ⟨reason, rfl, cond⟩ := passes
  obtain ⟨reason', rfl, cond'⟩ := passes'
  cases reason with
  | none => exact ⟨reason', rfl, by simp [← cond, ← cond']⟩
  | some why => exact ⟨some why, rfl, by simp [← cond]⟩

theorem findSomeM? {f : α → Except PyError (Option ρ)} {xs : List α} {P : α → Prop}
    (passes : ∀ x ∈ xs, Passes (f x) (P x)) : Passes (xs.findSomeM? f) (∀ x ∈ xs, P x) := by
  induction xs with
  | nil => exact ⟨.none, rfl, by simp⟩
  | cons x rest ih =>
      obtain ⟨reason, returned, cond⟩ := passes x List.mem_cons_self
      obtain ⟨reason', returned', cond'⟩ := ih fun y mem => passes y (List.mem_cons_of_mem x mem)
      rw [List.findSomeM?, returned]
      cases reason with
      | none => exact ⟨reason', returned', by simp [← cond, cond']⟩
      | some why => exact ⟨some why, rfl, by simp [← cond]⟩

theorem map {σ : Type} (passes : Passes gate P) (f : ρ → σ) :
    Passes (do return (← gate).map f) P := by
  obtain ⟨reason, rfl, cond⟩ := passes
  exact ⟨reason.map f, rfl, by simp [cond]⟩

end Passes

theorem divide_fin {p q : ℚ} (nonzero : q ≠ 0) :
    divide .fin (.fin p) (.fin q) = .ok (.fin (p / q)) := by
  rw [divide, PyFloat.div_fin p nonzero, demand]

theorem toInt_intCast {n : ℤ} (nonneg : 0 ≤ n) : toInt (.fin n) = .ok n := by
  rw [toInt, demand_ok, PyFloat.toInt?, if_pos (by exact_mod_cast nonneg), Int.floor_intCast]

/-- The mismatch of two loads, in percent of their mean. -/
def mismatchPct (la lb : ℚ) : ℚ := 100 * |la - lb| / ((la + lb) / 2)

namespace Analysis

variable {an : Analysis}

theorem forall_rowsOf {conds : List Cond} {P : Text → Cond → Prop} :
    (∀ e ∈ an.rowsOf conds, P e.1 e.2) ↔ ∀ blk ∈ an.blocks, ∀ c ∈ conds, P blk c := by
  simp only [rowsOf, List.mem_flatMap, List.mem_map]
  constructor
  · exact fun each blk block c cond => each (blk, c) ⟨blk, block, c, cond, rfl⟩
  · rintro each e ⟨blk, block, c, cond, rfl⟩
    exact each blk block c cond

/-- A gate over the rows of some conditions. -/
theorem passes_rows {conds : List Cond} {gate : Text → Cond → Except PyError (Option Reason)}
    {P : Text → Cond → Prop}
    (passes : ∀ blk ∈ an.blocks, ∀ c ∈ conds, Passes (gate blk c) (P blk c)) :
    Passes ((an.rowsOf conds).findSomeM? fun e => gate e.1 e.2)
      (∀ blk ∈ an.blocks, ∀ c ∈ conds, P blk c) :=
  (Passes.findSomeM? (forall_rowsOf.mpr passes)).congr forall_rowsOf

/-- The exact value of a field. -/
def value (an : Analysis) (b : Text) (c : Cond) (key : Text) : ℚ := fieldValue an.table b c key

/-- The measured load of a row. -/
def load (an : Analysis) (b : Text) (c : Cond) : ℚ := an.value b c "load_window_gbps"

section Exact

variable (valid : an.Valid) (exact : an.round = .fin)

include valid exact

theorem num_exact {b : Text} (mem : b ∈ an.blocks) (c : Cond) {key : Text}
    (column : key ∈ numColumns an.mode) :
    an.num b c key = .ok (.fin (an.value b c key)) ∧ 0 < an.value b c key := by
  obtain ⟨q, positive, read⟩ := valid.num_positive mem c column
  rw [value, fieldValue_eq exact read]
  exact ⟨read, positive⟩

theorem count_exact {b : Text} (mem : b ∈ an.blocks) (c : Cond) {key : Text}
    (column : key ∈ countColumns an.mode) :
    an.num b c key = .ok (.fin (an.value b c key)) ∧ ∃ n : ℤ, 0 ≤ n ∧ an.value b c key = n := by
  obtain ⟨n, nonneg, read⟩ := valid.num_count mem c column
  rw [exact] at read
  rw [value, fieldValue_eq exact read]
  exact ⟨read, n, nonneg, rfl⟩

variable (gateB : an.mode ≠ .confirm)

include gateB

theorem load_exact {b : Text} (mem : b ∈ an.blocks) (c : Cond) :
    an.num b c "load_window_gbps" = .ok (.fin (an.load b c)) ∧ 0 < an.load b c := by
  refine num_exact valid exact mem c ?_
  cases mode : an.mode with
  | confirm => exact absurd mode gateB
  | fixedload => decide
  | fixedloadCpu => decide

/-! ## The load gates

The comparisons of the source are on floats.  On exact rationals each is an inequality
between fields of the rows, with the tolerances of the source as rational numbers. -/

/-- The pairwise gate of a block. -/
theorem passes_pair {blk : Text} (mem : blk ∈ an.blocks) (a b : Cond) (limit : ℚ) :
    Passes (an.pairReason (.fin limit) a b blk)
      (mismatchPct (an.load blk a) (an.load blk b) ≤ limit) := by
  obtain ⟨reada, posa⟩ := load_exact valid exact gateB mem a
  obtain ⟨readb, posb⟩ := load_exact valid exact gateB mem b
  have half : (an.load blk a + an.load blk b) / 2 ≠ 0 := by positivity
  have mis : an.mismatch a b blk = .ok (.fin (an.load blk a), .fin (an.load blk b),
      .fin (mismatchPct (an.load blk a) (an.load blk b))) := by
    simp only [mismatch, reada, readb, exact, ok_bind, PyFloat.add_fin, PyFloat.sub_fin,
      PyFloat.abs_fin, PyFloat.mul_fin, divide_fin two_ne_zero, divide_fin half]
    rfl
  rw [pairReason, mis]
  exact Passes.ofIf.congr (by simp [PyFloat.lt_fin])

/-- The load gates of a comparison, given what the absolute gate asks of a row. -/
theorem passes_load {a b : Cond} {A : Text → Cond → Prop}
    (absolute : ∀ blk ∈ an.blocks, ∀ c ∈ [a, b], Passes (an.absLoadRowReason blk c) (A blk c)) :
    Passes (an.loadVoidReason a b) ((∀ blk ∈ an.blocks, ∀ c ∈ [a, b], A blk c) ∧
      ∀ blk ∈ an.blocks, mismatchPct (an.load blk a) (an.load blk b) ≤ 3 / 2) := by
  rw [loadVoidReason, if_neg gateB, absLoadReason, if_neg gateB, loadGatePct, exact]
  exact (passes_rows absolute).orElse
    (.findSomeM? fun blk mem => passes_pair valid exact gateB mem a b (3 / 2))

omit gateB in
/-- The warnings of a row, in CPU-only mode. -/
theorem warned_exact (cpu : an.mode = .fixedloadCpu) {blk : Text} (mem : blk ∈ an.blocks)
    (c : Cond) : an.warned blk c = .ok (decide (0 < an.value blk c "dmesg_new")) := by
  obtain ⟨read, n, nonneg, same⟩ :=
    count_exact valid exact mem c (by rw [cpu]; decide : ("dmesg_new" : Text) ∈ _)
  rw [warned, read, ok_bind, same, toInt_intCast nonneg, ok_bind]
  simp only [Int.cast_pos]
  rfl

omit gateB in
/-- The absolute gate of a CPU-only row is an interval around the target, with a guard.  The
target may have either sign. -/
theorem passes_range (cpu : an.mode = .fixedloadCpu) {blk : Text} (mem : blk ∈ an.blocks)
    (c : Cond) {target : ℚ} (rational : an.target = .fin target) :
    Passes (an.absLoadRowReason blk c) (target * (1 - 5 / 100) - 1 / 10 ^ 9 ≤ an.load blk c ∧
      an.load blk c ≤ target * (1 + 5 / 100) + 1 / 10 ^ 9) := by
  obtain ⟨read, -⟩ := load_exact valid exact (by simp [cpu]) mem c
  have hundred : (100 : ℚ) ≠ 0 := by norm_num
  simp only [absLoadRowReason, read, ok_bind, if_pos cpu, exact, rational, divide_fin hundred,
    PyFloat.mul_fin, PyFloat.sub_fin, PyFloat.add_fin, PyFloat.lt_fin]
  refine Passes.ofIf.congr ?_
  simp [not_or]

omit gateB in
/-- It returns for every target, be it rational or not. -/
theorem range_returns (cpu : an.mode = .fixedloadCpu) {blk : Text} (mem : blk ∈ an.blocks)
    (c : Cond) : Passes (an.absLoadRowReason blk c) (an.absLoadRowReason blk c = .ok none) := by
  obtain ⟨read, -⟩ := load_exact valid exact (by simp [cpu]) mem c
  have hundred : (100 : ℚ) ≠ 0 := by norm_num
  have returns : ∃ reason, an.absLoadRowReason blk c = .ok reason := by
    simp only [absLoadRowReason, read, ok_bind, if_pos cpu, exact, divide_fin hundred]
    exact ⟨_, rfl⟩
  obtain ⟨reason, returned⟩ := returns
  exact ⟨reason, returned, by rw [returned, Except.ok.injEq]⟩

omit gateB in
/-- The absolute gate of a legacy row is a relative deviation.  The quotient has the sign of
the target, so that a negative target lets every load pass. -/
theorem passes_deviation (legacy : an.mode = .fixedload) {blk : Text} (mem : blk ∈ an.blocks)
    (c : Cond) {target : ℚ} (rational : an.target = .fin target) (nonzero : target ≠ 0) :
    Passes (an.absLoadRowReason blk c) (100 * |an.load blk c - target| / target ≤ 5) := by
  obtain ⟨read, -⟩ := load_exact valid exact (by simp [legacy]) mem c
  simp only [absLoadRowReason, read, ok_bind, legacy, reduceCtorEq, if_false, exact, rational,
    PyFloat.sub_fin, PyFloat.abs_fin, PyFloat.mul_fin, divide_fin nonzero, PyFloat.lt_fin]
  exact Passes.ofIf.congr (by simp)

omit gateB in
theorem passes_dmesgRow (cpu : an.mode = .fixedloadCpu) {blk : Text} (mem : blk ∈ an.blocks)
    (c : Cond) : Passes (an.dmesgRowReason blk c) (¬ 0 < an.value blk c "dmesg_new") := by
  rw [dmesgRowReason, warned_exact valid exact cpu mem c, ok_bind]
  exact Passes.ofIf.congr (by simp only [decide_eq_true_eq])

omit gateB in
theorem passes_dmesg (cpu : an.mode = .fixedloadCpu) (conds : List Cond) :
    Passes (an.dmesgVoidReason conds)
      (∀ blk ∈ an.blocks, ∀ c ∈ conds, ¬ 0 < an.value blk c "dmesg_new") := by
  rw [dmesgVoidReason, if_neg (by simp [cpu])]
  refine passes_rows fun blk mem c _ => passes_dmesgRow valid exact cpu mem c

omit gateB in
theorem sent_exact (legacy : an.mode = .fixedload) {blk : Text} (mem : blk ∈ an.blocks) (c : Cond) :
    an.num blk c "valid_sent_msgs" = .ok (.fin (an.value blk c "valid_sent_msgs")) ∧
      0 < an.value blk c "valid_sent_msgs" := by
  obtain ⟨n, positive, read⟩ := valid.num_sent legacy mem c
  rw [exact] at read
  rw [value, fieldValue_eq exact read]
  exact ⟨read, by exact_mod_cast positive⟩

omit gateB in
/-- The loss and support gates of a legacy row.  Something was sent, so that the loss is a
quotient, and the number of observations is an integer, so that the message can show it. -/
theorem passes_latencyRow (legacy : an.mode = .fixedload) (metric : Metric) {blk : Text}
    (mem : blk ∈ an.blocks) (c : Cond) : Passes (an.latencyRowReason metric blk c)
      (100 * an.value blk c "valid_dropped_msgs" / an.value blk c "valid_sent_msgs" ≤ 1 ∧
        needOf metric ≤ an.value blk c "lat_n") := by
  obtain ⟨readDrop, -⟩ :=
    count_exact valid exact mem c (by rw [legacy]; decide : ("valid_dropped_msgs" : Text) ∈ _)
  obtain ⟨readLat, n, nonneg, lat⟩ :=
    count_exact valid exact mem c (by rw [legacy]; decide : ("lat_n" : Text) ∈ _)
  obtain ⟨readSent, sent⟩ := sent_exact valid exact legacy mem c
  have int : toInt (.fin (an.value blk c "lat_n")) = .ok n := lat ▸ toInt_intCast nonneg
  simp only [latencyRowReason, readSent, readDrop, readLat, ok_bind, exact, PyFloat.mul_fin,
    divide_fin sent.ne', PyFloat.lt_fin, int, decide_eq_true_eq]
  by_cases loss : 1 < 100 * an.value blk c "valid_dropped_msgs" / an.value blk c "valid_sent_msgs"
  · rw [if_pos loss]
    exact ⟨_, rfl, by simp only [reduceCtorEq, not_le.mpr loss, false_and]⟩
  · rw [if_neg loss]
    refine Passes.congr (P := ¬ an.value blk c "lat_n" < needOf metric) ?_ ?_
    · by_cases support : an.value blk c "lat_n" < needOf metric
      · rw [if_pos support]
        exact ⟨_, rfl, by simp only [reduceCtorEq, support, not_true]⟩
      · rw [if_neg support]
        exact ⟨_, rfl, by simp only [support, not_false_iff]⟩
    · rw [not_lt, iff_and_self]
      exact fun _ => not_lt.mp loss

omit gateB in
theorem passes_latency (legacy : an.mode = .fixedload) (metric : Metric) (conds : List Cond) :
    Passes (an.latencyVoidReason metric conds) (∀ blk ∈ an.blocks, ∀ c ∈ conds,
      100 * an.value blk c "valid_dropped_msgs" / an.value blk c "valid_sent_msgs" ≤ 1 ∧
        needOf metric ≤ an.value blk c "lat_n") :=
  passes_rows fun _ mem c _ => passes_latencyRow valid exact legacy metric mem c

/-! ## The gates of a comparison -/

omit valid exact gateB in
theorem passes_latencyIf {metric : Metric} {conds : List Cond} {T : Prop}
    (latency : metric.isLat = true → Passes (an.latencyVoidReason metric conds) T) :
    Passes (if metric.isLat then an.latencyVoidReason metric conds else return none)
      (metric.isLat = true → T) := by
  cases lat : metric.isLat with
  | true => exact (latency lat).congr (by simp)
  | false => exact Passes.none.congr (by simp)

omit valid exact gateB in
/-- A comparison passes if its load, dmesg and latency gates do. -/
theorem passes_comparison {metric : Metric} {a b : Cond} {L D T : Prop}
    (load : Passes (an.loadVoidReason a b) L) (dmesg : Passes (an.dmesgVoidReason [a, b]) D)
    (latency : metric.isLat = true → Passes (an.latencyVoidReason metric [a, b]) T) :
    Passes (an.comparisonVoidReason metric a b) (L ∧ D ∧ (metric.isLat = true → T)) := by
  rw [comparisonVoidReason, ← and_assoc]
  exact (load.orElse dmesg).orElse (passes_latencyIf latency)

omit valid exact gateB in
/-- The interaction passes if the load gates of its components do, and the dmesg and latency gates
of all rows. -/
theorem passes_interaction {metric : Metric} {L : Cond × Cond → Prop} {D T : Prop}
    (load : ∀ ab ∈ INTERACTION_COMPONENTS, Passes (an.loadVoidReason ab.1 ab.2) (L ab))
    (dmesg : Passes (an.dmesgVoidReason CONDS) D)
    (latency : metric.isLat = true → Passes (an.latencyVoidReason metric CONDS) T) :
    Passes (an.interactionVoidReason metric)
      ((∀ ab ∈ INTERACTION_COMPONENTS, L ab) ∧ D ∧ (metric.isLat = true → T)) := by
  rw [interactionVoidReason]
  exact (Passes.findSomeM? fun ab mem => (load ab mem).map _).orElse
    (dmesg.orElse (passes_latencyIf latency))

end Exact

end Analysis

end WgReceivePath.Analyze
