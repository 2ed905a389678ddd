import WgReceivePath.Analyze.Sidecars
import Mathlib.Data.List.ReduceOption

/-!
# Loading an artifact

`load_artifact` reads the CSV, finds out its mode, builds the table of its rows, orders the
block labels by the integers that they denote, and checks blocks, rows and sidecars.  What
it raises is `Invalid`, but for the places where Python itself raises: reading a file, and
`int` and `sorted` on labels and positions that are absent or not integral.

## Main definitions

* `identify`, `buildTable`, `orderBlocks`, `checkBlock`, `checkRow` and `loadArtifact`, the
  function in its stages.
* `Env`, the environment.  The order in which Python iterates over a set of labels is part
  of it, since `sorted` is stable and labels with the same integer keep that order.
* `Accepted`, what holds of the rows of an artifact that is loaded.

## Main results

For each stage a lemma says when it returns, in terms of the rows alone: `identify_ok`,
`buildTable_returns`, `checkIds_ok`, `checkBlock_ok`; `loadArtifact_ok` puts them together.
`sidecars_linked` says what the sidecars of an accepted CPU-only artifact are.
-/

namespace WgReceivePath.Analyze

/-- The environment of an analysis: the files, the rounding of floats, and the order in which
a set of labels is iterated over, which Python does not specify. -/
structure Env extends Disk where
  round : ℚ → PyFloat
  labelOrder : List (Option Text) → List (Option Text)
  labelOrder_perm : ∀ labels, (labelOrder labels).Perm labels

/-! ## The artifact as a whole -/

/-- Is this mode flag, if there is one, right for the mode? -/
def okFlag (flag : Option Text) (mode : Mode) : Bool :=
  match flag with
  | none | some [] => true
  | some flag => flag = mode.text || (mode = .fixedloadCpu && flag = Mode.fixedload.text)

/-- The mode that the header of an artifact shows. -/
def modeOf (first : Row) : Mode :=
  if ("cpu_only" : Text) ∈ first.keys then .fixedloadCpu
  else if ("p999_half_rtt_us" : Text) ∈ first.keys then .fixedload
  else .confirm

/-- `(r.get("srcversion") or "").strip()`. -/
def srcversionOf (r : Row) : Text := ((r.get "srcversion").getD []).strip

/-- The mode of the rows, and their one srcversion.  The mode is read off the header, the
flags must agree with it. -/
def identify (path : Text) (rows : List Row) (flag : Option Text) (cpuOnly : Bool) :
    Except Invalid (Mode × Text) := do
  let first ← demand rows.head? (.emptyArtifact path)
  let mode := modeOf first
  require (mode = .fixedloadCpu → cpuOnly = true) .needsCpuOnly
  require (cpuOnly = true → mode = .fixedloadCpu) .notCpuOnly
  require (okFlag flag mode = true) (.wrongMode (flag.getD []) mode)
  let src := rows.map srcversionOf
  require ([] ∉ src) .emptySrcversion
  require (src.dedup.length = 1) (.severalSrcversions (Text.sorted src.dedup))
  return (mode, srcversionOf first)

/-- The loop that fills the table, the next row being line `i`.  It rejects an unknown
condition and a second row for the same label and condition; the label itself is not looked
at. -/
def buildTable : ℕ → List Row → Table → Except Invalid Table
  | _, [], table => .ok table
  | i, r :: rest, table => do
      let cond ← demand ((r.get "cond").bind Cond.ofText?) (.unknownCondition i (r.get "cond"))
      let key := (r.get "block", cond)
      require (key ∉ table.keys) (.duplicateRow key.1 cond)
      buildTable (i + 1) rest (table.set key r)

/-- `blocks_override or EXPECT_BLOCKS[mode]`. -/
def wanted (blocksOverride : Option ℤ) (mode : Mode) : ℤ :=
  match blocksOverride with
  | none | some 0 => EXPECT_BLOCKS mode
  | some n => n

/-! ## Block labels

Labels are compared by their integers and looked up by their text.  `sorted` is stable, so
that labels with the same integer stay in the order in which the set was iterated over. -/

/-- `int(b)`. -/
def labelInt (b : Option Text) : Except PyError ℤ := do
  let t ← demand b .typeError
  demand t.int? .valueError

/-- `{b for b, _ in table}`. -/
def labelsOf (env : Env) (table : Table) : List (Option Text) :=
  env.labelOrder (table.keys.map Prod.fst).dedup

/-- `sorted(labels)`, which cannot compare `None` to anything. -/
def sortedLabels (labels : List (Option Text)) : Except PyError (List (Option Text)) := do
  require (¬ (none ∈ labels ∧ 2 ≤ labels.length)) .typeError
  return if none ∈ labels then labels else (Text.sorted labels.reduceOption).map some

/-- The exact block ids that a CPU-only artifact must have.  A label that is no integer is
caught, but the message about it sorts the labels. -/
def checkIds (want : ℤ) (labels : List (Option Text)) : Except PyError Unit :=
  match labels.mapM' labelInt with
  | .ok ids =>
      let ids := ids.insertionSort (· ≤ ·)
      require (ids = (List.range want.toNat).map fun i : ℕ => (i : ℤ) + 1)
        (.invalid (.blockIds ids want))
  | .error _ => do
      let shown ← sortedLabels labels
      .error (.invalid (.labelNotIntegral shown))

/-- `sorted(labels, key=lambda x: int(x))`. -/
def sortBlocks (labels : List (Option Text)) : Except PyError (List Text) := do
  let keyed ← labels.mapM' fun b => do
    let n ← labelInt b
    return (b.getD [], n)
  return (keyed.insertionSort fun x y => x.2 ≤ y.2).map Prod.fst

/-- The block labels in order, with their number, and for a CPU-only artifact their integers,
as expected. -/
def orderBlocks (mode : Mode) (want : ℤ) (labels : List (Option Text)) :
    Except PyError (List Text) := do
  if mode = .fixedloadCpu then checkIds want labels
  let blocks ← sortBlocks labels
  require ((blocks.length : ℤ) = want) (.invalid (.blockCount blocks.length want))
  return blocks

/-- The positions that the rows of a block must have. -/
def blockPositions : List Text := ["1", "2", "3", "4"]

/-- `table[(b, c)].get("position")`. -/
def positionOf (table : Table) (b : Text) (c : Cond) : Option Text :=
  (table.get? (some b, c)).bind fun r => r.get "position"

/-- The checks of one block: all conditions are there, and the positions are 1 to 4.  An
absent position cannot be sorted next to others. -/
def checkBlock (table : Table) (b : Text) : Except PyError Unit := do
  let missing := CONDS.filter fun c => (some b, c) ∉ table.keys
  require (missing = []) (.invalid (.missingConditions b missing))
  let pos := CONDS.map (positionOf table b)
  require (none ∉ pos) .typeError
  let pos := Text.sorted pos.reduceOption
  require (pos = blockPositions) (.invalid (.positions b pos))

/-! ## Rows -/

/-- `fnum`, for its check only. -/
def checkNum (round : ℚ → PyFloat) (r : Row) (ctx : Ctx) (key : Text) : Except Invalid Unit := do
  let _ ← fnum round r key ctx true

/-- `inum` with the bound `lo=0`, for its check only. -/
def checkCount (r : Row) (ctx : Ctx) (key : Text) : Except Invalid Unit := do
  let _ ← inum r key ctx 0 none false

/-- The fields that only the rows of one mode have. -/
def checkFields (round : ℚ → PyFloat) (mode : Mode) (ctx : Ctx) (r : Row) :
    Except Invalid Unit := do
  match mode with
  | .confirm => checkNum round r ctx "gbps"
  | .fixedloadCpu =>
      require (r.get "cpu_only" = some "1") (.cpuOnlyMarker ctx (r.get "cpu_only"))
      require (r.get "probe_mode" = some "none") (.probeMode ctx (r.get "probe_mode"))
      (["load_window_gbps", "load_iperf_gbps", "window_s", "ping_ms"] : List Text).forM
        (checkNum round r ctx)
      (["retransmits", "hs_age_s", "dmesg_new", "unc_n", "unc_total_ns", "steal_pulled",
        "steal_unblocked", "steal_dryruns"] : List Text).forM (checkCount r ctx)
  | .fixedload =>
      (["load_window_gbps", "lat_duration_s"] : List Text).forM (checkNum round r ctx)
      let trs ← inum r "total_run_sent_msgs" ctx 0 none true
      let _ ← inum r "total_run_recv_msgs" ctx 0 (some trs) true
      let vs ← inum r "valid_sent_msgs" ctx 0 none true
      let vr ← inum r "valid_recv_msgs" ctx 0 (some vs) true
      let _ ← inum r "valid_dropped_msgs" ctx 0 (some vs) false
      checkCount r ctx "valid_dup_msgs"
      checkCount r ctx "valid_ooo_msgs"
      let _ ← inum r "lat_n" ctx 0 (some vr) true
      (["p50_half_rtt_us", "p90_half_rtt_us", "p99_half_rtt_us", "p999_half_rtt_us"] :
        List Text).forM (checkNum round r ctx)

/-- The checks of one row: its readback, its raw files, the numbers that every mode has, and
the fields of its mode. -/
def checkRow (round : ℚ → PyFloat) (mode : Mode) (ctx : Ctx) (r : Row) :
    Except Invalid Unit := do
  let kv ← parseKnobs (r.get "knobs") ctx
  checkTreatment kv ctx.cond mode ctx
  checkRawRef r mode ctx
  (["softirq_ce", "system_ce", "total_busy_ce"] : List Text).forM (checkNum round r ctx)
  checkFields round mode ctx r

/-! ## The function -/

/-- What `load_artifact` returns. -/
structure Artifact where
  mode : Mode
  blocks : List Text
  table : Table
  src : Text

/-- The checks of the table behind the labels: blocks, rows and sidecars. -/
def checkTable (env : Env) (path : Text) (mode : Mode) (src : Text) (table : Table)
    (blocks : List Text) : Except PyError Unit := do
  blocks.forM (checkBlock table)
  invalidly (table.entries.forM fun e => checkRow env.round mode ⟨e.1.1, e.1.2⟩ e.2)
  if mode = .fixedloadCpu then
    checkCpuSidecars env.round env.toDisk path table src

/-- `load_artifact`. -/
def loadArtifact (env : Env) (path : Text) (flag : Option Text) (blocksOverride : Option ℤ)
    (cpuOnly : Bool) : Except PyError Artifact := do
  let records ← (env.csv path).mapError ReadError.raised
  let rows := dictReader records
  let (mode, src) ← invalidly (identify path rows flag cpuOnly)
  let table ← invalidly (buildTable 2 rows .empty)
  let blocks ← orderBlocks mode (wanted blocksOverride mode) (labelsOf env table)
  checkTable env path mode src table blocks
  return ⟨mode, blocks, table, src⟩

/-! ## What the table holds

The loop that builds the table stops at the first row it rejects.  What it accepts is
described by the rows as a whole: known conditions, and no two rows with the same label and
condition. -/

variable {env : Env} {path src : Text} {flag : Option Text} {blocksOverride : Option ℤ}
  {cpuOnly : Bool} {mode : Mode} {want : ℤ} {rows : List Row} {table : Table}
  {labels : List (Option Text)} {blocks : List Text}

/-- The rows agree with the flags on their mode, and with each other on their srcversion. -/
structure Identified (rows : List Row) (flag : Option Text) (cpuOnly : Bool) (mode : Mode)
    (src : Text) : Prop where
  shown : rows.head?.map modeOf = some mode
  marker : mode = .fixedloadCpu ↔ cpuOnly = true
  flagged : okFlag flag mode = true
  present : src ≠ []
  srcversion : ∀ r ∈ rows, srcversionOf r = src

theorem Identified.ne_nil (identified : Identified rows flag cpuOnly mode src) : rows ≠ [] := by
  rintro rfl
  cases identified.shown

/-- The mode and the srcversion are found exactly if the rows agree on them. -/
theorem identify_ok :
    identify path rows flag cpuOnly = .ok (mode, src) ↔ Identified rows flag cpuOnly mode src := by
  simp only [identify, except_bind_ok, demand_ok, require_ok, exists_const, dedup_length_eq_one]
  constructor
  · rintro ⟨first, head, needs, only, flags, present, ⟨src, -, all⟩, same⟩
    cases same
    have mem : first ∈ rows := List.mem_of_head? head
    have each : ∀ r ∈ rows, srcversionOf r = src := fun r mem => all _ (List.mem_map_of_mem mem)
    refine ⟨by rw [head]; rfl, ⟨needs, only⟩, flags, fun empty => ?_,
      fun r row => (each r row).trans (each first mem).symm⟩
    exact present (List.mem_map.mpr ⟨first, mem, empty⟩)
  · intro identified
    obtain ⟨first, head, rfl⟩ := Option.map_eq_some_iff.mp identified.shown
    have each : ∀ v ∈ rows.map srcversionOf, v = src := by
      intro v mem
      obtain ⟨r, row, rfl⟩ := List.mem_map.mp mem
      exact identified.srcversion r row
    have own := identified.srcversion first (List.mem_of_head? head)
    refine ⟨first, head, identified.marker.mp, identified.marker.mpr, identified.flagged,
      fun empty => identified.present (each _ empty).symm, ⟨src, ?_, each⟩, ?_⟩
    · exact own ▸ List.mem_map_of_mem (List.mem_of_head? head)
    · rw [own]
      rfl

/-- The rows under their own labels and conditions: the table has the rows of the file and
in their order. -/
structure Tabled (rows : List Row) (table : Table) : Prop where
  rows : table.entries.map Prod.snd = rows
  block : ∀ e ∈ table.entries, e.2.get "block" = e.1.1
  cond : ∀ e ∈ table.entries, e.2.get "cond" = some e.1.2.text

/-- The rows are entered one by one under their own labels and conditions.  By induction on
the rows, with the table so far. -/
theorem buildTable_ok (built : buildTable 2 rows .empty = .ok table) : Tabled rows table := by
  have go : ∀ (rows : List Row) (i : ℕ) (start : Table), buildTable i rows start = .ok table →
      table.entries.map Prod.snd = start.entries.map Prod.snd ++ rows ∧
      ∀ e ∈ table.entries, e ∈ start.entries ∨
        e.2.get "block" = e.1.1 ∧ e.2.get "cond" = some e.1.2.text := by
    intro rows
    induction rows with
    | nil =>
        intro i start built
        cases built
        exact ⟨by simp, fun e mem => .inl mem⟩
    | cons r rest ih =>
        intro i start built
        simp only [buildTable, except_bind_ok, demand_ok, require_ok, exists_const] at built
        obtain ⟨c, cond, new, built⟩ := built
        obtain ⟨values, keys⟩ := ih _ _ built
        rw [Dict.entries_set_new start new] at values keys
        refine ⟨by simpa using values, fun e mem => ?_⟩
        rcases keys e mem with here | later
        · rcases List.mem_append.mp here with old | this
          · exact .inl old
          · rw [List.mem_singleton.mp this]
            obtain ⟨t, text, found⟩ := Option.bind_eq_some_iff.mp cond
            exact .inr ⟨rfl, text.trans (congrArg some (Cond.ofText?_eq_some.mp found))⟩
        · exact .inr later
  obtain ⟨values, keys⟩ := go rows 2 .empty built
  refine ⟨values, fun e mem => ?_, fun e mem => ?_⟩
  · exact ((keys e mem).resolve_left (by simp [Dict.empty])).1
  · exact ((keys e mem).resolve_left (by simp [Dict.empty])).2

/-- The block label and the condition of a row. -/
def rowKey (r : Row) : Option Text × Option Text := (r.get "block", r.get "cond")

/-- The rows that a table is made of: their conditions are known, and no two of them have the same
label and the same condition. -/
structure Tabular (rows : List Row) : Prop where
  cond : ∀ r ∈ rows, ∃ c : Cond, r.get "cond" = some c.text
  distinct : (rows.map rowKey).Nodup

/-- A key of the table as the fields of its row. -/
def asLabels (key : Option Text × Cond) : Option Text × Option Text := (key.1, some key.2.text)

theorem asLabels_injective : Function.Injective asLabels := by
  rintro ⟨b, c⟩ ⟨b', c'⟩ same
  obtain ⟨rfl, text⟩ := Prod.mk.inj same
  have text : Cond.ofText? c.text = Cond.ofText? c'.text :=
    congrArg Cond.ofText? (Option.some.inj text)
  rw [Cond.ofText?_eq_some.mpr rfl, Cond.ofText?_eq_some.mpr rfl] at text
  rw [Option.some.inj text]

theorem Tabled.rowKeys (tabled : Tabled rows table) :
    rows.map rowKey = table.keys.map asLabels := by
  rw [← tabled.rows, Dict.keys, List.map_map, List.map_map]
  exact List.map_congr_left fun e entry => Prod.ext (tabled.block e entry) (tabled.cond e entry)

/-- The rows can be entered if their keys are new.  By induction on the rows, with the keys that
are set already in front of theirs. -/
theorem buildTable_returns_from {i : ℕ} {start : Table}
    (known : ∀ r ∈ rows, ∃ c : Cond, r.get "cond" = some c.text)
    (distinct : (start.keys.map asLabels ++ rows.map rowKey).Nodup) :
    ∃ table, buildTable i rows start = .ok table := by
  induction rows generalizing i start with
  | nil => exact ⟨start, rfl⟩
  | cons r rest ih =>
      rw [List.forall_mem_cons] at known
      obtain ⟨⟨c, cond⟩, known⟩ := known
      have own : rowKey r = asLabels (r.get "block", c) := Prod.ext rfl cond
      have new : (r.get "block", c) ∉ start.keys := fun old =>
        List.disjoint_of_nodup_append distinct (List.mem_map_of_mem old) (own ▸ List.mem_cons_self)
      have later : ((start.set (r.get "block", c) r).keys.map asLabels ++
          rest.map rowKey).Nodup := by
        rw [Dict.keys_set, if_neg new, List.map_append, List.append_assoc]
        simpa [own] using distinct
      obtain ⟨table, built⟩ := ih known later
      refine ⟨table, ?_⟩
      simp only [buildTable, except_bind_ok, demand_ok, require_ok, exists_const]
      exact ⟨c, by rw [cond]; exact Cond.ofText?_eq_some.mpr rfl, new, built⟩

/-- A table is built of tabular rows, and of no others. -/
theorem buildTable_returns : (∃ table, buildTable 2 rows .empty = .ok table) ↔ Tabular rows := by
  constructor
  · rintro ⟨table, built⟩
    have tabled := buildTable_ok built
    refine ⟨fun r row => ?_, ?_⟩
    · rw [← tabled.rows] at row
      obtain ⟨e, entry, rfl⟩ := List.mem_map.mp row
      exact ⟨e.1.2, tabled.cond e entry⟩
    · rw [tabled.rowKeys]
      exact table.distinct.map asLabels_injective
  · rintro ⟨known, distinct⟩
    exact buildTable_returns_from known (by simpa [Dict.keys, Dict.empty] using distinct)

/-- The row of a block and a condition. -/
def rowAt (table : Table) (b : Text) (c : Cond) : Row := (table.get? (some b, c)).getD .empty

/-- The block has a row for each condition. -/
def HasConditions (table : Table) (b : Text) : Prop := ∀ c, (some b, c) ∈ table.keys

theorem HasConditions.get? {b : Text} (complete : HasConditions table b) (c : Cond) :
    table.get? (some b, c) = some (rowAt table b c) := by
  obtain ⟨r, found⟩ := table.mem_keys.mp (complete c)
  rw [rowAt, found, Option.getD_some]

/-- The entries of a complete block are its four rows. -/
theorem HasConditions.entries {b : Text} (complete : HasConditions table b) :
    (table.entries.filter fun e => e.1.1 = some b).Perm
      (CONDS.map fun c => ((some b, c), rowAt table b c)) := by
  have nodup : (CONDS.map fun c => ((some b, c), rowAt table b c)).Nodup := by
    refine .of_map Prod.fst ?_
    rw [List.map_map]
    exact (by decide : CONDS.Nodup).map fun c c' same => (Prod.mk.inj same).2
  refine (List.perm_ext_iff_of_nodup (table.distinct.of_map.filter _) nodup).mpr fun e => ?_
  simp only [List.mem_filter, decide_eq_true_eq, List.mem_map]
  constructor
  · rintro ⟨entry, label⟩
    have key : (some b, e.1.2) = e.1 := Prod.ext label.symm rfl
    have found := table.mem_entries.mp entry
    rw [← key, complete.get?] at found
    exact ⟨e.1.2, mem_CONDS _, Prod.ext key (Option.some.inj found)⟩
  · rintro ⟨c, -, rfl⟩
    exact ⟨table.mem_entries.mpr (complete.get? c), rfl⟩

/-- The rows of a block, as the file has them. -/
def blockRows (rows : List Row) (b : Text) : List Row := rows.filter fun r => r.get "block" = some b

/-- The positions of a complete block, from the file and from the table. -/
theorem Tabled.positions (tabled : Tabled rows table) {b : Text}
    (complete : HasConditions table b) :
    ((blockRows rows b).map fun r => r.get "position").Perm (CONDS.map (positionOf table b)) := by
  have own : (blockRows rows b).map (fun r => r.get "position") =
      (table.entries.filter fun e => e.1.1 = some b).map fun e => e.2.get "position" := by
    rw [blockRows, ← tabled.rows, List.filter_map, List.map_map]
    congr 1
    refine List.filter_congr fun e entry => ?_
    rw [Function.comp_apply, tabled.block e entry]
  rw [own]
  refine (complete.entries.map _).trans (.of_eq ?_)
  rw [List.map_map]
  refine List.map_congr_left fun c _ => ?_
  rw [positionOf, complete.get?]
  rfl

/-! ## What the labels are

The labels of an accepted artifact denote integers, and they are in order.
`mem_before_of_below` and `sortBlocks_first` say what is known of the order without knowing
how a set is iterated over. -/

/-- Every label is present and denotes an integer. -/
def Integral (labels : List (Option Text)) : Prop :=
  ∀ b ∈ labels, ∃ t n, b = some t ∧ t.int? = some n

theorem labelInt_ok {b : Option Text} {n : ℤ} :
    labelInt b = .ok n ↔ ∃ t, b = some t ∧ t.int? = some n := by
  simp only [labelInt, except_bind_ok, demand_ok]

theorem mem_labelsOf {b : Option Text} :
    b ∈ labelsOf env table ↔ ∃ c, (b, c) ∈ table.keys := by
  rw [labelsOf, (env.labelOrder_perm _).mem_iff, List.mem_dedup, List.mem_map]
  constructor
  · rintro ⟨⟨b, c⟩, mem, rfl⟩
    exact ⟨c, mem⟩
  · rintro ⟨c, mem⟩
    exact ⟨(b, c), mem, rfl⟩

theorem nodup_labelsOf : (labelsOf env table).Nodup :=
  (env.labelOrder_perm _).nodup_iff.mpr (List.nodup_dedup _)

/-- What `int` reads, label by label. -/
theorem keyed_iff {keyed : List (Text × ℤ)} :
    (labels.map fun b => do return (b.getD [], ← labelInt b)) = keyed.map .ok ↔
      labels = keyed.map (fun e => some e.1) ∧ ∀ e ∈ keyed, e.1.int? = some e.2 := by
  induction keyed generalizing labels with
  | nil => simp
  | cons e rest ih =>
      cases labels with
      | nil => simp
      | cons b others =>
          rw [List.map_cons, List.map_cons, List.map_cons, List.cons.injEq, List.cons.injEq, ih,
            List.forall_mem_cons]
          simp only [except_bind_ok, labelInt_ok]
          constructor
          · rintro ⟨⟨n, ⟨t, rfl, value⟩, same⟩, labels, values⟩
            cases same
            exact ⟨⟨rfl, labels⟩, value, values⟩
          · rintro ⟨⟨rfl, labels⟩, value, values⟩
            exact ⟨⟨e.2, ⟨e.1, rfl, value⟩, rfl⟩, labels, values⟩

/-- The labels are sorted by the integers that they denote, if all of them do.  The labels
and their integers are one list of pairs, which is sorted by its second components. -/
theorem sortBlocks_iff : sortBlocks labels = .ok blocks ↔ ∃ keyed : List (Text × ℤ),
    labels = keyed.map (fun e => some e.1) ∧ (∀ e ∈ keyed, e.1.int? = some e.2) ∧
      (keyed.insertionSort fun x y => x.2 ≤ y.2).map Prod.fst = blocks := by
  simp only [sortBlocks, except_bind_ok, mapM'_ok, keyed_iff]
  refine exists_congr fun keyed => ?_
  rw [and_assoc]
  simp [pure, Except.pure]

theorem sortBlocks_ok (sorted : sortBlocks labels = .ok blocks) :
    (blocks.map some).Perm labels ∧ ∀ b ∈ blocks, ∃ n, b.int? = some n := by
  obtain ⟨keyed, rfl, values, rfl⟩ := sortBlocks_iff.mp sorted
  have order := keyed.perm_insertionSort fun x y => x.2 ≤ y.2
  constructor
  · rw [List.map_map]
    exact order.map _
  · intro b mem
    obtain ⟨e, inside, rfl⟩ := List.mem_map.mp mem
    exact ⟨e.2, values e (order.mem_iff.mp inside)⟩

/-- Labels that denote integers are sorted. -/
theorem sortBlocks_returns (integral : Integral labels) :
    ∃ blocks, sortBlocks labels = .ok blocks := by
  have keyed : ∃ keyed : List (Text × ℤ), labels = keyed.map (fun e => some e.1) ∧
      ∀ e ∈ keyed, e.1.int? = some e.2 := by
    induction labels with
    | nil => exact ⟨[], rfl, by simp⟩
    | cons b rest ih =>
        obtain ⟨⟨t, n, rfl, value⟩, later⟩ := List.forall_mem_cons.mp integral
        obtain ⟨keyed, rfl, values⟩ := ih later
        exact ⟨(t, n) :: keyed, rfl, List.forall_mem_cons.mpr ⟨value, values⟩⟩
  obtain ⟨keyed, labels, values⟩ := keyed
  exact ⟨_, sortBlocks_iff.mpr ⟨keyed, labels, values, rfl⟩⟩

/-- One label denotes a smaller integer than another. -/
def Below (b b' : Text) : Prop := ∃ n n', b.int? = some n ∧ b'.int? = some n' ∧ n < n'

theorem sortBlocks_pairwise (sorted : sortBlocks labels = .ok blocks) :
    blocks.Pairwise fun b b' => ¬ Below b' b := by
  obtain ⟨keyed, rfl, values, rfl⟩ := sortBlocks_iff.mp sorted
  rw [List.pairwise_map]
  refine (List.pairwise_insertionSort (fun x y : Text × ℤ => x.2 ≤ y.2) keyed).imp_of_mem ?_
  rintro x y memx memy le ⟨m, n, valuey, valuex, less⟩
  rw [values x ((keyed.perm_insertionSort _).mem_iff.mp memx)] at valuex
  rw [values y ((keyed.perm_insertionSort _).mem_iff.mp memy)] at valuey
  cases valuex
  cases valuey
  exact absurd le (not_le.mpr less)

/-- A label with a smaller integer stands before, wherever it was met. -/
theorem mem_before_of_below {before after : List Text} {b b' : Text}
    (sorted : sortBlocks labels = .ok (before ++ b :: after)) (label : some b' ∈ labels)
    (below : Below b' b) : b' ∈ before := by
  have inside : b' ∈ before ++ b :: after := by
    rwa [← (sortBlocks_ok sorted).1.mem_iff,
      List.mem_map_of_injective (Option.some_injective _)] at label
  rcases List.mem_append.mp inside with here | later
  · exact here
  · -- from the label on, no integer is smaller
    rcases List.mem_cons.mp later with rfl | later
    · obtain ⟨n, n', value, value', less⟩ := below
      rw [value] at value'
      cases value'
      exact absurd less (lt_irrefl _)
    · have tail := (List.pairwise_append.mp (sortBlocks_pairwise sorted)).2.1
      exact absurd below (List.rel_of_pairwise_cons tail later)

/-- Of the labels that denote one integer the first that is met comes first: only smaller
ones stand before it.  The sort is stable, so the order of iteration decides. -/
theorem sortBlocks_first {b : Text} {rest : List (Option Text)}
    (sorted : sortBlocks (some b :: rest) = .ok blocks) :
    ∃ before after, blocks = before ++ b :: after ∧ ∀ b' ∈ before, Below b' b := by
  obtain ⟨keyed, labels, values, split⟩ := sortBlocks_iff.mp sorted
  obtain ⟨e, others, rfl, same, rfl⟩ := List.map_eq_cons_iff.mp labels.symm
  obtain rfl := Option.some.inj same
  rw [List.insertionSort_cons_eq_take_drop, List.map_append, List.map_cons] at split
  refine ⟨_, _, split.symm, fun b' mem => ?_⟩
  obtain ⟨e', taken, rfl⟩ := List.mem_map.mp mem
  have less := List.mem_takeWhile_imp taken
  have inside : e' ∈ others := by
    rw [← List.mem_insertionSort fun x y : Text × ℤ => x.2 ≤ y.2]
    exact (List.takeWhile_sublist _).subset taken
  rw [List.forall_mem_cons] at values
  exact ⟨e'.2, e.2, values.2 e' inside, values.1, by simpa using less⟩

/-- The blocks in order: their ids are right in CPU-only mode, they can be sorted, and they
are as many as wanted. -/
theorem orderBlocks_ok : orderBlocks mode want labels = .ok blocks ↔
    (mode = .fixedloadCpu → checkIds want labels = .ok ()) ∧ sortBlocks labels = .ok blocks ∧
      (blocks.length : ℤ) = want := by
  have tail : (do
      let blocks ← sortBlocks labels
      require ((blocks.length : ℤ) = want) (.invalid (.blockCount blocks.length want))
      return blocks) = .ok blocks ↔
        sortBlocks labels = .ok blocks ∧ (blocks.length : ℤ) = want := by
    simp only [except_bind_ok, require_ok, exists_const]
    constructor
    · rintro ⟨found, sorted, count, same⟩
      cases same
      exact ⟨sorted, count⟩
    · rintro ⟨sorted, count⟩
      exact ⟨blocks, sorted, count, rfl⟩
  unfold orderBlocks
  by_cases cpu : mode = .fixedloadCpu
  · rw [if_pos cpu, except_bind_ok, ← tail]
    constructor
    · rintro ⟨⟨⟩, ids, rest⟩
      exact ⟨fun _ => ids, rest⟩
    · rintro ⟨ids, rest⟩
      exact ⟨(), ids cpu, rest⟩
  · rw [if_neg cpu, ← tail]
    constructor
    · exact fun rest => ⟨fun yes => absurd yes cpu, rest⟩
    · exact fun both => both.2

/-- The integers of the labels of a CPU-only artifact are `1..want`, in some order.  The
label that cannot be read leads to another message, and never to acceptance. -/
theorem checkIds_ok : checkIds want labels = .ok () ↔
    ∃ ids : List ℤ, labels.map labelInt = ids.map .ok ∧
      ids.Perm ((List.range want.toNat).map fun i : ℕ => (i : ℤ) + 1) := by
  have ordered : ((List.range want.toNat).map fun i : ℕ => (i : ℤ) + 1).Pairwise (· ≤ ·) := by
    rw [List.pairwise_map]
    exact List.pairwise_lt_range.imp fun less => by omega
  unfold checkIds
  split
  · rename_i ids read
    rw [require_ok]
    constructor
    · exact fun same => ⟨ids, mapM'_ok.mp read, same ▸ (ids.perm_insertionSort _).symm⟩
    · rintro ⟨ids', read', perm⟩
      rw [← mapM'_ok, read] at read'
      cases read'
      exact ((ids.perm_insertionSort _).trans perm).eq_of_pairwise'
        (List.pairwise_insertionSort _ ids) ordered
  · rename_i e raised
    constructor
    · intro passed
      rw [except_bind_ok] at passed
      obtain ⟨shown, -, raised⟩ := passed
      cases raised
    · rintro ⟨ids, read, -⟩
      rw [← mapM'_ok, raised] at read
      cases read

/-- The rows of an artifact pass every check but that of the sidecars. -/
structure Accepted (env : Env) (mode : Mode) (want : ℤ) (rows : List Row) (table : Table)
    (blocks : List Text) : Prop where
  built : buildTable 2 rows .empty = .ok table
  ordered : orderBlocks mode want (labelsOf env table) = .ok blocks
  blocks : ∀ b ∈ blocks, checkBlock table b = .ok ()
  rows : ∀ e ∈ table.entries, checkRow env.round mode ⟨e.1.1, e.1.2⟩ e.2 = .ok ()

theorem checkTable_ok : checkTable env path mode src table blocks = .ok () ↔
    (∀ b ∈ blocks, checkBlock table b = .ok ()) ∧
    (∀ e ∈ table.entries, checkRow env.round mode ⟨e.1.1, e.1.2⟩ e.2 = .ok ()) ∧
    (mode = .fixedloadCpu → checkCpuSidecars env.round env.toDisk path table src = .ok ()) := by
  simp only [checkTable, except_bind_ok, forM_ok, invalidly_ok, exists_const]
  by_cases cpu : mode = .fixedloadCpu
  · simp [cpu]
  · simp [cpu, pure, Except.pure]

/-- What holds of an artifact that is loaded: the file was read, its rows are identified and
accepted, and the sidecars of a CPU-only artifact have passed. -/
theorem loadArtifact_ok {art : Artifact} :
    loadArtifact env path flag blocksOverride cpuOnly = .ok art ↔
      ∃ records, env.csv path = .ok records ∧
        identify path (dictReader records) flag cpuOnly = .ok (art.mode, art.src) ∧
        Accepted env art.mode (wanted blocksOverride art.mode) (dictReader records) art.table
          art.blocks ∧
        (art.mode = .fixedloadCpu →
          checkCpuSidecars env.round env.toDisk path art.table art.src = .ok ()) := by
  simp only [loadArtifact, except_bind_ok, mapError_ok, invalidly_ok]
  constructor
  · rintro ⟨records, there, ⟨mode, src⟩, identified, table, built, blocks, ordered, ⟨⟩, checked,
      same⟩
    cases same
    obtain ⟨each, rows, sidecars⟩ := checkTable_ok.mp checked
    exact ⟨records, there, identified, ⟨built, ordered, each, rows⟩, sidecars⟩
  · rintro ⟨records, there, identified, accepted, sidecars⟩
    exact ⟨records, there, _, identified, _, accepted.built, _, accepted.ordered, (),
      checkTable_ok.mpr ⟨accepted.blocks, accepted.rows, sidecars⟩, rfl⟩

theorem map_some_reduceOption {xs : List (Option Text)} (present : none ∉ xs) :
    xs.reduceOption.map some = xs := by
  induction xs with
  | nil => rfl
  | cons x rest ih =>
      rw [List.mem_cons, not_or] at present
      cases x with
      | none => exact absurd rfl present.1
      | some t => rw [List.reduceOption_cons_of_some, List.map_cons, ih present.2]

/-- A block passes if it has one row for each condition, at the positions 1 to 4. -/
theorem checkBlock_ok {b : Text} : checkBlock table b = .ok () ↔
    HasConditions table b ∧ (CONDS.map (positionOf table b)).Perm (blockPositions.map some) := by
  simp only [checkBlock, except_bind_ok, require_ok, exists_const, List.filter_eq_nil_iff,
    decide_eq_true_eq, not_not]
  refine and_congr ⟨fun each c => each c (mem_CONDS c), fun each c _ => each c⟩ ?_
  constructor
  · rintro ⟨present, order⟩
    have sorted := (Text.sorted_perm (CONDS.map (positionOf table b)).reduceOption).map some
    rw [order, map_some_reduceOption present] at sorted
    exact sorted.symm
  · intro perm
    refine ⟨fun absent => ?_, Text.sorted_eq_of_perm ?_ (by decide)⟩
    · obtain ⟨t, -, same⟩ := List.mem_map.mp (perm.mem_iff.mp absent)
      cases same
    · exact perm.filterMap id

namespace Accepted

variable (accepted : Accepted env mode want rows table blocks)

include accepted

theorem labels_perm : (blocks.map some).Perm (labelsOf env table) :=
  (sortBlocks_ok (orderBlocks_ok.mp accepted.ordered).2.1).1

theorem blocks_nodup : blocks.Nodup :=
  (accepted.labels_perm.nodup_iff.mpr nodup_labelsOf).of_map some

/-- The keys of the table are the product of the labels and the conditions. -/
theorem mem_keys {b : Option Text} {c : Cond} :
    (b, c) ∈ table.keys ↔ ∃ t ∈ blocks, b = some t := by
  constructor
  · intro mem
    have label := accepted.labels_perm.mem_iff.mpr (mem_labelsOf.mpr ⟨c, mem⟩)
    obtain ⟨t, inside, rfl⟩ := List.mem_map.mp label
    exact ⟨t, inside, rfl⟩
  · rintro ⟨t, mem, rfl⟩
    exact (checkBlock_ok.mp (accepted.blocks t mem)).1 c

theorem distinctRuns : DistinctRuns table := by
  intro b c c' r r' found found' same
  obtain ⟨t, mem, rfl⟩ := accepted.mem_keys.mp (table.mem_keys.mpr ⟨r, found⟩)
  have positions := (checkBlock_ok.mp (accepted.blocks t mem)).2
  have distinct : (CONDS.map (positionOf table t)).Nodup :=
    positions.nodup_iff.mpr (by decide)
  refine List.inj_on_of_nodup_map distinct (mem_CONDS c) (mem_CONDS c') ?_
  simp only [positionOf, found, found', Option.bind_some, same]

end Accepted

/-! ## Written artifacts

The selftest writes its own artifacts (`_write`) and mutates their rows.  These are the same ones,
without the noise on the numbers. -/

/-- The position of a condition in a block. -/
def Cond.position : Cond → Text
  | .off => "1"
  | .both => "2"
  | .steal4 => "3"
  | .bsteal4 => "4"

/-- The readback that belongs to a condition. -/
def writtenKnobs (mode : Mode) (c : Cond) : Text :=
  let diag : Text := if mode = .confirm then "0" else "1"
  let (wake, steal) : Text × Text := match c with
    | .off => ("0", "0")
    | .both => ("1", "0")
    | .steal4 => ("0", "4")
    | .bsteal4 => ("1", "4")
  (["supp=", wake, ";headwake=", wake, ";steal=", steal, ";diag=", diag, ";delay=0",
    ";trig_k=0"] : List Text).flatten

def writtenRef (mode : Mode) (b : Text) (c : Cond) : Text :=
  let name := (["_b", b, "p", c.position, "_", c.text] : List Text).flatten
  let iperf : Text := "iperf" ++ name ++ ".json"
  if mode = .fixedload then iperf ++ ";sockperf" ++ name ++ ".txt" else iperf

/-- The fields that only one mode has. -/
def writtenExtra : Mode → List (Text × Text)
  | .confirm => [("gbps", "4")]
  | .fixedload =>
      [("load_window_gbps", "3.8"), ("total_run_sent_msgs", "120400"),
        ("total_run_recv_msgs", "120399"), ("lat_duration_s", "59.6"),
        ("valid_sent_msgs", "119200"), ("valid_recv_msgs", "119200"),
        ("valid_dropped_msgs", "0"), ("valid_dup_msgs", "0"), ("valid_ooo_msgs", "0"),
        ("lat_n", "119199"), ("p50_half_rtt_us", "95"), ("p90_half_rtt_us", "180"),
        ("p99_half_rtt_us", "610"), ("p999_half_rtt_us", "1464")]
  | .fixedloadCpu =>
      [("cpu_only", "1"), ("probe_mode", "none"), ("load_window_gbps", "3.8"),
        ("load_iperf_gbps", "3.58"), ("window_s", "60.1"), ("retransmits", "900"),
        ("ping_ms", "0.62"), ("hs_age_s", "12"), ("unc_n", "8000"), ("unc_total_ns", "5000"),
        ("steal_pulled", "0"), ("steal_unblocked", "0"), ("steal_dryruns", "1000")]

/-- The fields of one row. -/
def writtenFields (mode : Mode) (b : Text) (c : Cond) : List (Text × Text) :=
  ([("srcversion", "ABC"), ("block", b), ("position", c.position), ("cond", c.text),
    ("knobs", writtenKnobs mode c), ("softirq_ce", "1"), ("system_ce", "4"),
    ("total_busy_ce", "5"), ("dmesg_new", "0"), ("raw_ref", writtenRef mode b c)] :
    List (Text × Text)) ++ writtenExtra mode

/-- One field of some rows changed. -/
def mutated (key : Text) (value : Text → Cond → Option Text) (b : Text) (c : Cond)
    (row : List (Text × Text)) : List (Text × Text) :=
  row.map fun e => if e.1 = key then (key, (value b c).getD e.2) else e

/-- The records of an artifact with these blocks, its rows changed by `mutate`. -/
def written (mode : Mode) (blocks : List Text)
    (mutate : Text → Cond → List (Text × Text) → List (Text × Text)) : List (List Text) :=
  let rows := blocks.flatMap fun b => CONDS.map fun c => mutate b c (writtenFields mode b c)
  (rows.headD []).map Prod.fst :: rows.map fun row => row.map Prod.snd

def writtenMeta : Text :=
  let head : Text := List.replicate 40 'd'
  let fields := CPU_META_EXACT_STR ++
    ([("module_srcversion", "ABC"), ("audited_head", head),
      ("harness_gitrev", canonicalGitrev head), ("application_cap_gbps", "3.58"),
      ("per_stream_mbit", "895"), ("delivered_target_gbps", "3.8"),
      ("absolute_tolerance_pct", "5"), ("paired_tolerance_pct", "1.5")] : List (Text × Text))
  fields.flatMap fun e => e.1 ++ "=" ++ e.2 ++ "\n"

def writtenPercore (blocks : List Text) : Text :=
  let lines := blocks.flatMap fun b => CONDS.flatMap fun c =>
    (["cpu0", "cpu1"] : List Text).map fun cpu =>
      (["t", b, c.position, c.text, cpu, "0.1", "0.01", "0.09"] : List Text)
  (PERCORE_HEADER :: lines).flatMap fun fields => (fields.intersperse [' ']).flatten ++ "\n"

/-- The artifact and its sidecars, under every name. -/
def writtenEnv (round : ℚ → PyFloat) (blocks : List Text) (records : List (List Text)) : Env where
  csv _ := .ok records
  text path :=
    if (".meta" : Text).isSuffixOf path then some ⟨writtenMeta, none⟩
    else some ⟨writtenPercore blocks, none⟩
  round := round
  labelOrder labels := labels
  labelOrder_perm _ := .rfl

def eightBlocks : List Text := ["1", "2", "3", "4", "5", "6", "7", "8"]

/-! ## Linkage -/

/-- **Sidecar linkage is exact**: for accepted rows, whatever the sidecars contain, metadata that
passes states the predeclared identity, each validated key on one line; and the per-core lines
are one line for each run of the CSV and each CPU of one set. -/
theorem sidecars_linked (round : ℚ → PyFloat) (disk : Disk) (path src : Text)
    (accepted : Accepted env .fixedloadCpu want rows table blocks)
    (passed : checkCpuSidecars round disk path table src = .ok ()) :
    ∃ metadata percore, disk.text (path ++ ".meta") = some ⟨metadata, none⟩ ∧
      disk.text (path ++ ".percore") = some ⟨percore, none⟩ ∧ Identity round metadata src ∧
      ∃ lines cpus, Linked round percore table lines cpus :=
  checkCpuSidecars_ok accepted.distinctRuns passed

/-- A written artifact of one block is linked to its sidecars. -/
theorem sidecars_linked_written :
    let env := writtenEnv .fin ["1"] (written .fixedloadCpu ["1"] fun _ _ row => row)
    ∃ art, loadArtifact env "a" none (some 1) true = .ok art ∧
      ∃ metadata percore, env.text ("a" ++ ".meta") = some ⟨metadata, none⟩ ∧
        env.text ("a" ++ ".percore") = some ⟨percore, none⟩ ∧ Identity .fin metadata art.src ∧
        ∃ lines cpus, Linked .fin percore art.table lines cpus := by
  intro env
  obtain ⟨art, loaded, cpu⟩ : ∃ art, loadArtifact env "a" none (some 1) true = .ok art ∧
      decide (art.mode = .fixedloadCpu) = true := exists_of_returnsWith (by decide +kernel)
  obtain ⟨records, -, -, accepted, sidecars⟩ := loadArtifact_ok.mp loaded
  have cpu := of_decide_eq_true cpu
  rw [cpu] at accepted
  exact ⟨art, loaded, sidecars_linked .fin env.toDisk "a" art.src accepted (sidecars cpu)⟩

end WgReceivePath.Analyze
