import WgReceivePath.Analyze.Accept

/-!
# Block labels

Labels are dictionary keys by their text and block numbers by their integer.  `load_artifact` is
meant to fail closed on them: whatever the files contain, it raises `Invalid` or returns blocks
with distinct integers.

It does not always.  A file that cannot be decoded, or that `csv` gives up on, raises what reading
it raises.  Outside CPU-only mode `sorted(labels, key=int)` meets labels that nobody has looked at,
in every mode `sorted` meets positions that may be absent, and two spellings of one integer are two
blocks.

## Main definitions

* `FailsClosed`: what a computation raises, if anything, is `Invalid`.  It splits along sequences
  and loops (`failsClosed_bind`, `failsClosed_forM`).
* `LabelsSound`: what the rows need.  It is a condition on the fields of the rows and on the lines
  of the sidecars; the predicates in it are those that the checks of `load_artifact` have been
  shown to be equivalent to (`identify_ok`, `buildTable_returns`, `checkBlock_ok`, `checkRow_ok`,
  `metaLoop_returns`, `percoreLoop_returns`).

## The order of the labels

The blocks are checked in the order of their integers, and blocks with the same integer in the
order in which Python iterates over a set.  So whether a block with an absent position is reached
depends on that order, unless a block with a smaller integer stops the loop.  The main theorem is
about every order: `mem_before_of_below` says that a smaller block is always met before, and
`sortBlocks_first` gives, for each label, an order in which nothing else is.
-/

namespace WgReceivePath.Analyze

/-! ## Raising nothing but `Invalid`

The rules are equivalences, so that a function fails closed if and only if its parts do
wherever they are reached.  What is reached is described by what the earlier parts return.
-/

/-- What is raised, if anything, is `Invalid`.  Nothing is said about a computation that
returns. -/
def FailsClosed {α : Type} (x : Except PyError α) : Prop :=
  ∀ e, x = .error e → ∃ why, e = .invalid why

section FailsClosed

variable {α β : Type} {x : Except PyError α} {f : α → Except PyError β}

theorem failsClosed_ok (a : α) : FailsClosed (.ok a : Except PyError α) := by
  intro e raised
  cases raised

theorem failsClosed_invalid (why : Invalid) :
    FailsClosed (.error (.invalid why) : Except PyError α) := by
  intro e raised
  cases raised
  exact ⟨why, rfl⟩

theorem failsClosed_invalidly (check : Except Invalid α) : FailsClosed (invalidly check) := by
  intro e raised
  obtain ⟨why, -, same⟩ := invalidly_error.mp raised
  exact ⟨why, same⟩

theorem failsClosed_require {ok : Prop} [Decidable ok] {e : PyError} :
    FailsClosed (require ok e) ↔ ok ∨ ∃ why, e = .invalid why := by
  unfold require
  split
  · rename_i yes
    exact ⟨fun _ => .inl yes, fun _ => failsClosed_ok ()⟩
  · rename_i no
    constructor
    · exact fun closed => .inr (closed e rfl)
    · rintro (yes | invalid) e' raised
      · exact absurd yes no
      · cases raised
        exact invalid

theorem failsClosed_demand (value : Option α) (why : Invalid) :
    FailsClosed (demand value (.invalid why)) := by
  cases value with
  | none => exact failsClosed_invalid why
  | some a => exact failsClosed_ok a

/-- A sequence fails closed if its first part does, and the second whenever it is reached. -/
theorem failsClosed_bind :
    FailsClosed (x >>= f) ↔ FailsClosed x ∧ ∀ a, x = .ok a → FailsClosed (f a) := by
  cases x with
  | error e =>
      constructor
      · exact fun closed => ⟨fun e' raised => closed e' (by cases raised; rfl), by simp⟩
      · rintro ⟨closed, -⟩ e' raised
        cases raised
        exact closed e rfl
  | ok a =>
      constructor
      · exact fun closed => ⟨failsClosed_ok a, fun a' same => by cases same; exact closed⟩
      · exact fun both => both.2 a rfl

/-- A loop of checks fails closed if every check does that is reached. -/
theorem failsClosed_forM {xs : List α} {f : α → Except PyError Unit} :
    FailsClosed (xs.forM f) ↔ ∀ before x after, xs = before ++ x :: after →
      (∀ y ∈ before, f y = .ok ()) → FailsClosed (f x) := by
  constructor
  · intro closed before x after split passed e raised
    exact closed e (forM_error.mpr ⟨before, x, after, split, passed, raised⟩)
  · intro each e raised
    obtain ⟨before, x, after, split, passed, raised⟩ := forM_error.mp raised
    exact each before x after split passed e raised

end FailsClosed

/-! ## The stages

The stages of `load_artifact` that touch labels, in terms of a list of labels. -/

variable {env : Env} {path src : Text} {mode : Mode} {want : ℤ} {table : Table}
  {labels : List (Option Text)} {blocks : List Text}

/-- `int` itself never raises `Invalid`. -/
theorem labelInt_raises {b : Option Text} {e : PyError} (raised : labelInt b = .error e)
    (why : Invalid) : e ≠ .invalid why := by
  cases b with
  | none =>
      cases raised
      simp
  | some t =>
      simp only [labelInt, demand, except_bind_error, reduceCtorEq, false_or] at raised
      obtain ⟨t', -, raised⟩ := raised
      cases value : t'.int? with
      | none =>
          rw [value] at raised
          cases raised
          simp
      | some n =>
          rw [value] at raised
          cases raised

theorem integral_iff : Integral labels ↔ ∀ b ∈ labels, ∃ n, labelInt b = .ok n := by
  simp only [Integral, labelInt_ok]
  exact forall₂_congr fun b mem => exists_comm

theorem not_integral_of_raised {b : Option Text} {e : PyError} (mem : b ∈ labels)
    (raised : labelInt b = .error e) : ¬ Integral labels := by
  intro integral
  obtain ⟨n, value⟩ := integral_iff.mp integral b mem
  rw [raised] at value
  cases value

theorem integral_of_sortBlocks (sorted : sortBlocks labels = .ok blocks) : Integral labels := by
  obtain ⟨perm, values⟩ := sortBlocks_ok sorted
  intro b mem
  obtain ⟨t, inside, rfl⟩ := List.mem_map.mp (perm.mem_iff.mpr mem)
  obtain ⟨n, value⟩ := values t inside
  exact ⟨t, n, rfl, value⟩

theorem failsClosed_sortBlocks : FailsClosed (sortBlocks labels) ↔ Integral labels := by
  cases sorted : sortBlocks labels with
  | ok blocks => exact ⟨fun _ => integral_of_sortBlocks sorted, fun _ => failsClosed_ok blocks⟩
  | error e =>
      simp only [sortBlocks, except_bind_error, pure, Except.pure, reduceCtorEq, and_false,
        exists_const, or_false] at sorted
      obtain ⟨b, mem, raised⟩ := mapM'_error sorted
      simp only [except_bind_error, reduceCtorEq, and_false, exists_const, or_false] at raised
      constructor
      · intro closed
        obtain ⟨why, same⟩ := closed e rfl
        exact absurd same (labelInt_raises raised why)
      · exact fun integral => absurd integral (not_integral_of_raised mem raised)

/-- The message of the CPU-only check sorts the labels that it complains about. -/
theorem failsClosed_sortedLabels :
    FailsClosed (sortedLabels labels) ↔ ¬ (none ∈ labels ∧ 2 ≤ labels.length) := by
  rw [sortedLabels, failsClosed_bind, failsClosed_require]
  constructor
  · rintro ⟨comparable | ⟨why, same⟩, -⟩
    · exact comparable
    · cases same
  · exact fun comparable => ⟨.inl comparable, fun _ _ => failsClosed_ok _⟩

theorem integral_of_read {ids : List ℤ} (read : labels.map labelInt = ids.map .ok) :
    Integral labels := by
  refine integral_iff.mpr fun b mem => ?_
  obtain ⟨n, -, value⟩ := List.mem_map.mp (read ▸ List.mem_map_of_mem mem)
  exact ⟨n, value.symm⟩

theorem integral_of_checkIds (passed : checkIds want labels = .ok ()) : Integral labels := by
  obtain ⟨ids, read, -⟩ := checkIds_ok.mp passed
  exact integral_of_read read

theorem failsClosed_checkIds : FailsClosed (checkIds want labels) ↔
    Integral labels ∨ ¬ (none ∈ labels ∧ 2 ≤ labels.length) := by
  unfold checkIds
  split
  · rename_i ids read
    constructor
    · exact fun _ => .inl (integral_of_read (mapM'_ok.mp read))
    · exact fun _ => failsClosed_require.mpr (.inr ⟨_, rfl⟩)
  · rename_i e read
    obtain ⟨b, mem, raised⟩ := mapM'_error read
    rw [failsClosed_bind, failsClosed_sortedLabels,
      or_iff_right (not_integral_of_raised mem raised)]
    exact and_iff_left fun shown _ => failsClosed_invalid _

/-- Ordering the blocks fails closed on labels that denote integers; in CPU-only mode also
on others, unless an absent label stands next to another one.  The check of the ids comes
first there, and it catches what `int` raises. -/
theorem failsClosed_orderBlocks : FailsClosed (orderBlocks mode want labels) ↔
    Integral labels ∨ mode = .fixedloadCpu ∧ ¬ (none ∈ labels ∧ 2 ≤ labels.length) := by
  have tail : FailsClosed (do
      let blocks ← sortBlocks labels
      require ((blocks.length : ℤ) = want) (.invalid (.blockCount blocks.length want))
      return blocks) ↔ Integral labels := by
    rw [failsClosed_bind, failsClosed_sortBlocks]
    refine and_iff_left fun blocks _ => failsClosed_bind.mpr ⟨?_, fun _ _ => failsClosed_ok _⟩
    exact failsClosed_require.mpr (.inr ⟨_, rfl⟩)
  unfold orderBlocks
  by_cases cpu : mode = .fixedloadCpu
  · rw [if_pos cpu, failsClosed_bind, failsClosed_checkIds]
    simp only [cpu, true_and]
    exact and_iff_left fun _ passed => tail.mpr (integral_of_checkIds passed)
  · rw [if_neg cpu, or_iff_left fun both => cpu both.1]
    exact tail

/-! ## Reading

A file is read in pieces, and a line that is rejected ends the reading.  So whether a
failure further on is met depends on the lines before it. -/

/-- What reading raises is not `Invalid`. -/
theorem not_failsClosed_raised {α : Type} (e : ReadError) :
    ¬ FailsClosed (.error e.raised : Except PyError α) := by
  intro closed
  obtain ⟨why, same⟩ := closed e.raised rfl
  cases e <;> cases same

theorem failsClosed_read {α : Type} {x : Except ReadError α} :
    FailsClosed (x.mapError ReadError.raised) ↔ ∃ a, x = .ok a := by
  cases x with
  | ok a => exact ⟨fun _ => ⟨a, rfl⟩, fun _ => failsClosed_ok a⟩
  | error e =>
      constructor
      · exact fun closed => absurd closed (not_failsClosed_raised e)
      · rintro ⟨a, same⟩
        cases same

theorem failsClosed_finish {file : TextFile} : FailsClosed file.finish ↔ file.failure = none := by
  cases failure : file.failure with
  | none =>
      rw [show file.finish = .ok () from TextFile.finish_ok.mpr failure]
      exact ⟨fun _ => rfl, fun _ => failsClosed_ok ()⟩
  | some e =>
      rw [show file.finish = .error e.raised by rw [TextFile.finish, failure]]
      constructor
      · exact fun closed => absurd closed (not_failsClosed_raised e)
      · intro none
        cases none

/-- A sidecar that exists can be read as far as its lines are accepted: the metadata, and if
it states the identity, the per-core file.  A line that is rejected ends the reading before
a later failure is met. -/
def SidecarsReadable (round : ℚ → PyFloat) (disk : Disk) (path src : Text) : Prop :=
  ∀ metadata, disk.text (path ++ ".meta") = some metadata → MetaLines metadata.text.lines →
    metadata.failure = none ∧
    (Identity round metadata.text src →
      ∀ percore, disk.text (path ++ ".percore") = some percore →
        (∀ line rest, percore.text.lines = line :: rest →
          line.split.take 8 = PERCORE_HEADER ∧ PercoreLines round rest) → percore.failure = none)

/-- The part of `check_cpu_sidecars` that reads the per-core file.  It does not fail closed
in one case: every line that is delivered is accepted, and then reading fails. -/
theorem failsClosed_percore {round : ℚ → PyFloat} {pcP : Text} {table : Table}
    {percore : TextFile} :
    FailsClosed (do
      let header ← readHeader percore
      require (header.take 8 = PERCORE_HEADER) (.invalid (.percoreHeader pcP header))
      let runs ← invalidly (percoreLoop round pcP 2 percore.text.lines.tail [] .empty)
      percore.finish
      invalidly (checkRuns pcP runs table)) ↔
    ((∀ line rest, percore.text.lines = line :: rest →
      line.split.take 8 = PERCORE_HEADER ∧ PercoreLines round rest) → percore.failure = none) := by
  unfold readHeader
  cases percore.text.lines with
  | nil =>
      -- the line that `readline` returns at the end of the file is empty
      simp only [failsClosed_bind, failsClosed_finish, failsClosed_require, failsClosed_invalidly,
        failsClosed_ok, except_bind_ok, require_ok, pure, Except.pure]
      constructor
      · exact fun closed _ => closed.1.1
      · intro closed
        refine ⟨⟨closed (by simp), fun _ _ => trivial⟩, ?_⟩
        rintro header ⟨-, -, empty⟩
        cases empty
        exact ⟨.inr ⟨_, rfl⟩, fun _ same => absurd same (by decide)⟩
  | cons line rest =>
      simp only [failsClosed_bind, failsClosed_finish, failsClosed_require, failsClosed_invalidly,
        failsClosed_ok, invalidly_ok, require_ok, pure, Except.pure]
      constructor
      · rintro ⟨-, closed⟩ accepted
        obtain ⟨header, lines⟩ := accepted line rest rfl
        obtain ⟨runs, read⟩ := percoreLoop_returns.mpr lines
        exact (((closed _ rfl).2 () header).2 runs read).1
      · rintro closed
        refine ⟨trivial, fun header same => ⟨.inr ⟨_, rfl⟩, fun _ right => ⟨trivial, ?_⟩⟩⟩
        cases same
        refine fun runs read => ⟨closed fun line' rest' same => ?_, fun _ _ => trivial⟩
        cases same
        exact ⟨right, percoreLoop_returns.mp ⟨runs, read⟩⟩

theorem failsClosed_checkCpuSidecars {round : ℚ → PyFloat} {disk : Disk} :
    FailsClosed (checkCpuSidecars round disk path table src) ↔
      SidecarsReadable round disk path src := by
  simp only [checkCpuSidecars, failsClosed_bind (x := demand _ _), failsClosed_demand, true_and,
    demand_ok]
  refine forall₂_congr fun metadata there => ?_
  simp only [failsClosed_bind (x := invalidly _), failsClosed_bind (x := TextFile.finish _),
    failsClosed_bind (x := demand _ _), failsClosed_invalidly, failsClosed_finish,
    failsClosed_demand, invalidly_ok, TextFile.finish_ok, demand_ok, true_and,
    failsClosed_percore]
  constructor
  · intro closed lines
    obtain ⟨kv, read⟩ := metaLoop_returns.mpr lines
    obtain ⟨whole, closed⟩ := closed kv read
    exact ⟨whole, fun identity => closed () whole () ((checkIdentity_ok read).mpr identity)⟩
  · intro readable kv read
    obtain ⟨whole, closed⟩ := readable (metaLoop_returns.mp ⟨kv, read⟩)
    exact ⟨whole, fun _ _ _ passed => closed ((checkIdentity_ok read).mp passed)⟩

/-! ## The fields of the rows

What the rows are asked for, without the table and without the order of the labels. -/

variable {rows : List Row} {flag : Option Text} {blocksOverride : Option ℤ} {cpuOnly : Bool}

/-- Every block field is present and denotes an integer. -/
def IntegralBlocks (rows : List Row) : Prop :=
  ∀ r ∈ rows, ∃ t n, r.get "block" = some t ∧ t.int? = some n

/-- A block field is absent, and another one is not. -/
def SomeBlocksAbsent (rows : List Row) : Prop :=
  (∃ r ∈ rows, r.get "block" = none) ∧ ∃ r ∈ rows, r.get "block" ≠ none

/-- No two block fields spell one integer differently. -/
def OneSpelling (rows : List Row) : Prop :=
  ∀ r ∈ rows, ∀ r' ∈ rows, ∀ t t' n, r.get "block" = some t → r'.get "block" = some t' →
    t.int? = some n → t'.int? = some n → t = t'

/-- A block field denotes this integer. -/
def Denoted (rows : List Row) (n : ℤ) : Prop :=
  ∃ r ∈ rows, ∃ t, r.get "block" = some t ∧ t.int? = some n

/-- The block fields are as many integers as wanted, and in CPU-only mode they are
`1..want`, each in one spelling.  It is when the blocks are put in order
(`Tabled.orderBlocks_returns`). -/
structure Counted (mode : Mode) (want : ℤ) (rows : List Row) : Prop where
  integral : IntegralBlocks rows
  count : ((rows.map fun r => r.get "block").dedup.length : ℤ) = want
  ids : mode = .fixedloadCpu → OneSpelling rows ∧ ∀ n, Denoted rows n ↔ 1 ≤ n ∧ n ≤ want

/-- The block has a row for each condition. -/
def Complete (rows : List Row) (b : Text) : Prop :=
  ∀ c : Cond, ∃ r ∈ rows, r.get "block" = some b ∧ r.get "cond" = some c.text

/-- The block is complete, and its rows are at the positions 1 to 4. -/
def Placed (rows : List Row) (b : Text) : Prop :=
  Complete rows b ∧
    ((blockRows rows b).map fun r => r.get "position").Perm (blockPositions.map some)

/-- The block is complete, and a row of it has no position. -/
def Unplaced (rows : List Row) (b : Text) : Prop :=
  Complete rows b ∧ ∃ r ∈ blockRows rows b, r.get "position" = none

/-- The checks of the rows pass. -/
def RowsOk (round : ℚ → PyFloat) (mode : Mode) (rows : List Row) : Prop :=
  ∀ r ∈ rows, ∃ c : Cond, r.get "cond" = some c.text ∧ RowOk round mode c r

/-- **What the rows and the sidecars need** so that the labels are handled fail-closed.  Unless the
rows are rejected before that, every label denotes an integer (in CPU-only mode it is enough that
no absent label stands next to another one).  If the labels are as many as wanted, then a block
with an absent position comes after one that is rejected; and if all blocks and rows are right,
then no integer is spelled in two ways, and in CPU-only mode the sidecars can be read. -/
def LabelsSound (round : ℚ → PyFloat) (disk : Disk) (path : Text) (rows : List Row)
    (flag : Option Text) (blocksOverride : Option ℤ) (cpuOnly : Bool) : Prop :=
  ∀ mode src, Identified rows flag cpuOnly mode src → Tabular rows →
    (IntegralBlocks rows ∨ mode = .fixedloadCpu ∧ ¬ SomeBlocksAbsent rows) ∧
    (Counted mode (wanted blocksOverride mode) rows →
      (∀ b, Unplaced rows b →
        ∃ r ∈ rows, ∃ b', r.get "block" = some b' ∧ Below b' b ∧ ¬ Placed rows b') ∧
      ((∀ r ∈ rows, ∀ b, r.get "block" = some b → Placed rows b) → RowsOk round mode rows →
        OneSpelling rows ∧ (mode = .fixedloadCpu → SidecarsReadable round disk path src)))

/-! ## The table and its rows

The translation of the stages into these terms.  A table has the rows of the file under
their own labels, so that what a stage finds in the table is a statement about rows. -/

theorem mem_blockIds {n : ℤ} :
    n ∈ (List.range want.toNat).map (fun i : ℕ => (i : ℤ) + 1) ↔ 1 ≤ n ∧ n ≤ want := by
  rw [List.mem_map]
  constructor
  · rintro ⟨i, mem, rfl⟩
    rw [List.mem_range] at mem
    omega
  · rintro ⟨low, high⟩
    exact ⟨(n - 1).toNat, by rw [List.mem_range]; omega, by omega⟩

theorem nodup_blockIds : ((List.range want.toNat).map fun i : ℕ => (i : ℤ) + 1).Nodup :=
  List.nodup_range.map fun i j same => by simpa using same

section Rows

variable (tabled : Tabled rows table)

include tabled

theorem Tabled.mem_labelsOf {b : Option Text} :
    b ∈ labelsOf env table ↔ ∃ r ∈ rows, r.get "block" = b := by
  rw [Analyze.mem_labelsOf, ← tabled.rows]
  constructor
  · rintro ⟨c, mem⟩
    obtain ⟨e, mem, key⟩ := List.mem_map.mp mem
    exact ⟨e.2, List.mem_map_of_mem mem, by rw [tabled.block e mem, key]⟩
  · rintro ⟨r, mem, rfl⟩
    obtain ⟨e, entry, rfl⟩ := List.mem_map.mp mem
    exact ⟨e.1.2, List.mem_map.mpr ⟨e, entry, by rw [tabled.block e entry]⟩⟩

theorem Tabled.labels_perm :
    (labelsOf env table).Perm (rows.map fun r => r.get "block").dedup := by
  refine (List.perm_ext_iff_of_nodup nodup_labelsOf (List.nodup_dedup _)).mpr fun b => ?_
  rw [tabled.mem_labelsOf, List.mem_dedup, List.mem_map]

theorem Tabled.integral : Integral (labelsOf env table) ↔ IntegralBlocks rows := by
  constructor
  · intro integral r mem
    exact integral _ (tabled.mem_labelsOf.mpr ⟨r, mem, rfl⟩)
  · intro integral b mem
    obtain ⟨r, row, rfl⟩ := tabled.mem_labelsOf.mp mem
    exact integral r row

/-- An absent label stands next to another one exactly if some rows lack the field and
others do not. -/
theorem Tabled.someAbsent :
    (none ∈ labelsOf env table ∧ 2 ≤ (labelsOf env table).length) ↔ SomeBlocksAbsent rows := by
  rw [tabled.mem_labelsOf, SomeBlocksAbsent, and_congr_right_iff]
  rintro ⟨r, mem, absent⟩
  have here : none ∈ labelsOf env table := tabled.mem_labelsOf.mpr ⟨r, mem, absent⟩
  constructor
  · -- if all were absent, then there would be one label
    intro two
    by_contra all
    have only : labelsOf env table ⊆ [none] := by
      intro b mem
      obtain ⟨r', row, rfl⟩ := tabled.mem_labelsOf.mp mem
      exact List.mem_singleton.mpr (not_not.mp fun present => all ⟨r', row, present⟩)
    have := (List.subperm_of_subset nodup_labelsOf only).length_le
    rw [List.length_singleton] at this
    omega
  · rintro ⟨r', row, present⟩
    have distinct : [none, r'.get "block"].Nodup :=
      List.nodup_cons.mpr ⟨fun mem => present (List.mem_singleton.mp mem).symm,
        List.nodup_singleton _⟩
    refine (List.subperm_of_subset distinct ?_).length_le
    exact List.cons_subset.mpr ⟨here, List.cons_subset.mpr
      ⟨tabled.mem_labelsOf.mpr ⟨r', row, rfl⟩, List.nil_subset _⟩⟩

/-- The labels denote distinct integers if no two fields spell one differently. -/
theorem Tabled.labelInt_inj (integral : IntegralBlocks rows) :
    ((labelsOf env table).map labelInt).Nodup ↔ OneSpelling rows := by
  rw [List.nodup_map_iff_inj_on nodup_labelsOf]
  constructor
  · intro inj r row r' row' t t' n label label' value value'
    refine Option.some.inj (inj _ (tabled.mem_labelsOf.mpr ⟨r, row, label⟩) _
      (tabled.mem_labelsOf.mpr ⟨r', row', label'⟩) ?_)
    rw [labelInt_ok.mpr ⟨t, rfl, value⟩, labelInt_ok.mpr ⟨t', rfl, value'⟩]
  · intro one b mem b' mem' same
    obtain ⟨r, row, rfl⟩ := tabled.mem_labelsOf.mp mem
    obtain ⟨r', row', rfl⟩ := tabled.mem_labelsOf.mp mem'
    obtain ⟨t, n, label, value⟩ := integral r row
    rw [label, labelInt_ok.mpr ⟨t, rfl, value⟩] at same
    obtain ⟨t', label', value'⟩ := labelInt_ok.mp same.symm
    rw [label, label', one r row r' row' t t' n label label' value value']

theorem Tabled.oneSpelling (sorted : sortBlocks (labelsOf env table) = .ok blocks) :
    (blocks.map Text.int?).Nodup ↔ OneSpelling rows := by
  obtain ⟨perm, -⟩ := sortBlocks_ok sorted
  have integral : IntegralBlocks rows := tabled.integral.mp (integral_of_sortBlocks sorted)
  have read : (fun t : Text => labelInt (some t)) =
      (fun n => demand n PyError.valueError) ∘ Text.int? := rfl
  have inj : Function.Injective fun n : Option ℤ => demand n PyError.valueError := by
    rintro (_ | n) (_ | n') same <;> simp_all [demand]
  have labels : ((labelsOf env table).map labelInt).Nodup ↔ OneSpelling rows :=
    tabled.labelInt_inj integral
  rw [← labels, ← (perm.map labelInt).nodup_iff, List.map_map]
  change _ ↔ (blocks.map fun t => labelInt (some t)).Nodup
  rw [read, ← List.map_map, List.nodup_map_iff inj]

theorem Tabled.complete {b : Text} : HasConditions table b ↔ Complete rows b := by
  refine forall_congr' fun c => ?_
  have key : (some b, c) ∈ table.keys ↔ asLabels (some b, c) ∈ rows.map rowKey := by
    rw [tabled.rowKeys, List.mem_map_of_injective asLabels_injective]
  rw [key, List.mem_map]
  exact exists_congr fun r => and_congr_right fun _ => Prod.ext_iff

theorem Tabled.checkBlock_ok {b : Text} : checkBlock table b = .ok () ↔ Placed rows b := by
  rw [Analyze.checkBlock_ok, Placed, ← tabled.complete]
  refine and_congr_right fun complete => ?_
  have same := tabled.positions complete
  exact ⟨same.trans, same.symm.trans⟩

theorem Tabled.failsClosed_checkBlock {b : Text} :
    FailsClosed (checkBlock table b) ↔ ¬ Unplaced rows b := by
  have complete : (CONDS.filter fun c => (some b, c) ∉ table.keys) = [] ↔ Complete rows b := by
    rw [← tabled.complete, List.filter_eq_nil_iff]
    simp only [decide_eq_true_eq, not_not]
    exact ⟨fun each c => each c (mem_CONDS c), fun each c _ => each c⟩
  have absent : Complete rows b → (none ∈ CONDS.map (positionOf table b) ↔
      ∃ r ∈ blockRows rows b, r.get "position" = none) := by
    intro all
    rw [← (tabled.positions (tabled.complete.mpr all)).mem_iff, List.mem_map]
  simp only [checkBlock, failsClosed_bind, failsClosed_require, require_ok, complete]
  constructor
  · rintro ⟨-, closed⟩ ⟨all, without⟩
    rcases (closed () all).1 with present | ⟨why, same⟩
    · exact present ((absent all).mpr without)
    · cases same
  · intro placed
    refine ⟨.inr ⟨_, rfl⟩, fun _ all => ⟨.inl fun without => ?_, fun _ _ => .inr ⟨_, rfl⟩⟩⟩
    exact placed ⟨all, (absent all).mp without⟩

theorem Tabled.rowsOk {round : ℚ → PyFloat} :
    (∀ e ∈ table.entries, checkRow round mode ⟨e.1.1, e.1.2⟩ e.2 = .ok ()) ↔
      RowsOk round mode rows := by
  rw [RowsOk, ← tabled.rows, List.forall_mem_map]
  refine forall₂_congr fun e entry => ?_
  rw [checkRow_ok]
  constructor
  · exact fun ok => ⟨e.1.2, tabled.cond e entry, ok⟩
  · rintro ⟨c, cond, ok⟩
    have same : asLabels (e.1.1, c) = asLabels e.1 :=
      Prod.ext rfl (cond.symm.trans (tabled.cond e entry))
    rwa [← congrArg Prod.snd (asLabels_injective same)]

/-- The exact block ids of a CPU-only artifact.  A list of integers without repetition that
has the elements of `1..want` is a permutation of it, and repetitions are different
spellings. -/
theorem Tabled.checkIds_ok : checkIds want (labelsOf env table) = .ok () ↔
    IntegralBlocks rows ∧ OneSpelling rows ∧ ∀ n, Denoted rows n ↔ 1 ≤ n ∧ n ≤ want := by
  have ok : Function.Injective (Except.ok : ℤ → Except PyError ℤ) := fun _ _ => Except.ok.inj
  have denoted : ∀ {ids : List ℤ}, (labelsOf env table).map labelInt = ids.map .ok →
      ∀ n, n ∈ ids ↔ Denoted rows n := by
    intro ids read n
    rw [← List.mem_map_of_injective ok, ← read, List.mem_map]
    simp only [labelInt_ok, tabled.mem_labelsOf]
    constructor
    · rintro ⟨_, ⟨r, row, rfl⟩, t, label, value⟩
      exact ⟨r, row, t, label, value⟩
    · rintro ⟨r, row, t, label, value⟩
      exact ⟨_, ⟨r, row, rfl⟩, t, label, value⟩
  rw [Analyze.checkIds_ok]
  constructor
  · rintro ⟨ids, read, perm⟩
    have integral := tabled.integral.mp (integral_of_read read)
    refine ⟨integral, ?_, fun n => ?_⟩
    · have labels : ((labelsOf env table).map labelInt).Nodup ↔ OneSpelling rows :=
        tabled.labelInt_inj integral
      rw [← labels, read, List.nodup_map_iff ok, perm.nodup_iff]
      exact nodup_blockIds
    · rw [← denoted read, perm.mem_iff, mem_blockIds]
  · rintro ⟨integral, one, ids⟩
    obtain ⟨read, values⟩ : ∃ read : List ℤ, read.map .ok = (labelsOf env table).map labelInt := by
      rw [← Set.mem_range, Set.range_list_map]
      intro value mem
      obtain ⟨b, label, rfl⟩ := List.mem_map.mp mem
      obtain ⟨n, same⟩ := integral_iff.mp (tabled.integral.mpr integral) b label
      exact ⟨n, same.symm⟩
    refine ⟨read, values.symm, (List.perm_ext_iff_of_nodup ?_ nodup_blockIds).mpr fun n => ?_⟩
    · rw [← List.nodup_map_iff ok, values, tabled.labelInt_inj integral]
      exact one
    · rw [denoted values.symm, mem_blockIds, ids]

/-- The blocks are put in order if they are counted right, and only then. -/
theorem Tabled.orderBlocks_returns :
    (∃ blocks, orderBlocks mode want (labelsOf env table) = .ok blocks) ↔
      Counted mode want rows := by
  have length : ∀ {blocks}, sortBlocks (labelsOf env table) = .ok blocks →
      blocks.length = (rows.map fun r => r.get "block").dedup.length := by
    intro blocks sorted
    rw [← tabled.labels_perm.length_eq, ← (sortBlocks_ok sorted).1.length_eq, List.length_map]
  simp only [orderBlocks_ok, tabled.checkIds_ok]
  constructor
  · rintro ⟨blocks, ids, sorted, count⟩
    exact ⟨tabled.integral.mp (integral_of_sortBlocks sorted), length sorted ▸ count,
      fun cpu => (ids cpu).2⟩
  · rintro ⟨integral, count, ids⟩
    have labels : Integral (labelsOf env table) := tabled.integral.mpr integral
    obtain ⟨blocks, sorted⟩ := sortBlocks_returns labels
    exact ⟨blocks, fun cpu => ⟨integral, ids cpu⟩, sorted, length sorted ▸ count⟩

/-- The checks behind the labels fail closed if every block that is reached has its positions, and
if the sidecars can be read once they are. -/
theorem Tabled.failsClosed_checkTable :
    FailsClosed (checkTable env path mode src table blocks) ↔
      (∀ before b after, blocks = before ++ b :: after → (∀ a ∈ before, Placed rows a) →
        ¬ Unplaced rows b) ∧
      ((∀ b ∈ blocks, Placed rows b) → RowsOk env.round mode rows → mode = .fixedloadCpu →
        SidecarsReadable env.round env.toDisk path src) := by
  have sidecars : FailsClosed (if mode = .fixedloadCpu then
      checkCpuSidecars env.round env.toDisk path table src else pure ()) ↔
      (mode = .fixedloadCpu → SidecarsReadable env.round env.toDisk path src) := by
    split
    · rename_i cpu
      rw [failsClosed_checkCpuSidecars]
      exact ⟨fun closed _ => closed, fun closed => closed cpu⟩
    · rename_i legacy
      exact ⟨fun _ cpu => absurd cpu legacy, fun _ => failsClosed_ok ()⟩
  simp only [checkTable, failsClosed_bind, failsClosed_forM, forM_ok, failsClosed_invalidly,
    invalidly_ok, tabled.failsClosed_checkBlock, tabled.checkBlock_ok, tabled.rowsOk, sidecars,
    true_and]
  refine and_congr_right fun _ => ?_
  exact ⟨fun closed placed ok => closed () placed () ok,
    fun closed _ placed _ ok => closed placed ok⟩

end Rows

/-! ## The artifact

Both directions of the main theorem go through the stages in order.  For the direction from
failing closed to sound rows an order of the labels has to be chosen that shows what is
wrong. -/

/-- Loading fails closed if the file can be read and every stage that is reached does. -/
theorem failsClosed_loadArtifact :
    FailsClosed (loadArtifact env path flag blocksOverride cpuOnly) ↔
      ∃ records, env.csv path = .ok records ∧ ∀ mode src table,
        Identified (dictReader records) flag cpuOnly mode src →
        buildTable 2 (dictReader records) .empty = .ok table →
        FailsClosed (orderBlocks mode (wanted blocksOverride mode) (labelsOf env table)) ∧
        ∀ blocks, orderBlocks mode (wanted blocksOverride mode) (labelsOf env table) = .ok blocks →
          FailsClosed (checkTable env path mode src table blocks) := by
  simp only [loadArtifact, failsClosed_bind, failsClosed_read, mapError_ok, invalidly_ok,
    failsClosed_invalidly, true_and]
  constructor
  · rintro ⟨⟨records, read⟩, each⟩
    refine ⟨records, read, fun mode src table identified built => ?_⟩
    obtain ⟨labels, reached⟩ :=
      each records read (mode, src) (identify_ok.mpr identified) table built
    exact ⟨labels, fun blocks ordered => (reached blocks ordered).1⟩
  · rintro ⟨records, read, each⟩
    refine ⟨⟨records, read⟩, fun records' read' found identified table built => ?_⟩
    rw [read] at read'
    cases read'
    obtain ⟨labels, reached⟩ := each found.1 found.2 table (identify_ok.mp identified) built
    exact ⟨labels, fun blocks ordered => ⟨reached blocks ordered, fun _ _ => failsClosed_ok _⟩⟩

/-- The blocks that are put in order are the block fields. -/
theorem Tabled.mem_blocks (tabled : Tabled rows table)
    (ordered : orderBlocks mode want (labelsOf env table) = .ok blocks) {b : Text} :
    b ∈ blocks ↔ ∃ r ∈ rows, r.get "block" = some b := by
  obtain ⟨-, sorted, -⟩ := orderBlocks_ok.mp ordered
  rw [← tabled.mem_labelsOf, ← (sortBlocks_ok sorted).1.mem_iff,
    List.mem_map_of_injective (Option.some_injective _)]

/-- The labels in an order that starts with one of them. -/
def startingWith (b : Option Text) (labels : List (Option Text)) : List (Option Text) :=
  if labels.contains b then b :: labels.erase b else labels

theorem startingWith_perm (b : Option Text) (labels : List (Option Text)) :
    (startingWith b labels).Perm labels := by
  unfold startingWith
  split
  next mem => exact (List.perm_cons_erase (List.contains_iff_mem.mp mem)).symm
  next => exact .rfl

/-- The environment with these files in which the labels are met starting with `b`. -/
def envStarting (disk : Disk) (round : ℚ → PyFloat) (b : Option Text) : Env where
  toDisk := disk
  round := round
  labelOrder := startingWith b
  labelOrder_perm := startingWith_perm b

/-- A block that is met first is reached unless a smaller one is rejected: in that order
only smaller blocks stand before it. -/
theorem reached_of_first {disk : Disk} {round : ℚ → PyFloat} (tabled : Tabled rows table)
    (counted : Counted mode want rows) {b : Text} (label : ∃ r ∈ rows, r.get "block" = some b) :
    ∃ before after,
      orderBlocks mode want (labelsOf (envStarting disk round (some b)) table) =
        .ok (before ++ b :: after) ∧ ∀ b' ∈ before, Below b' b := by
  obtain ⟨blocks, ordered⟩ : ∃ blocks, orderBlocks mode want
      (labelsOf (envStarting disk round (some b)) table) = .ok blocks :=
    tabled.orderBlocks_returns.mpr counted
  have first : ∃ rest, labelsOf (envStarting disk round (some b)) table = some b :: rest := by
    have mem : some b ∈ (table.keys.map Prod.fst).dedup := by
      rw [← ((envStarting disk round (some b)).labelOrder_perm _).mem_iff]
      exact tabled.mem_labelsOf.mpr label
    exact ⟨_, if_pos (List.contains_iff_mem.mpr mem)⟩
  obtain ⟨rest, first⟩ := first
  obtain ⟨-, sorted, -⟩ := orderBlocks_ok.mp ordered
  rw [first] at sorted
  obtain ⟨before, after, rfl, below⟩ := sortBlocks_first sorted
  exact ⟨before, after, ordered, below⟩

/-- If loading fails closed in every order of the labels, then the rows are sound.  Each
conjunct is found by the order that starts with the label it is about. -/
theorem labelsSound_of_closed {disk : Disk} {round : ℚ → PyFloat} {records : List (List Text)}
    (read : disk.csv path = .ok records)
    (closed : ∀ b, FailsClosed
      (loadArtifact (envStarting disk round b) path flag blocksOverride cpuOnly))
    (distinct : ∀ art, loadArtifact (envStarting disk round none) path flag blocksOverride
      cpuOnly = .ok art → (art.blocks.map Text.int?).Nodup) :
    LabelsSound round disk path (dictReader records) flag blocksOverride cpuOnly := by
  intro mode src identified tabular
  obtain ⟨table, built⟩ := buildTable_returns.mpr tabular
  have tabled := buildTable_ok built
  have stages : ∀ b, FailsClosed (orderBlocks mode (wanted blocksOverride mode)
      (labelsOf (envStarting disk round b) table)) ∧
      ∀ blocks, orderBlocks mode (wanted blocksOverride mode)
        (labelsOf (envStarting disk round b) table) = .ok blocks →
        FailsClosed (checkTable (envStarting disk round b) path mode src table blocks) := by
    intro b
    obtain ⟨records', read', each⟩ := failsClosed_loadArtifact.mp (closed b)
    rw [show (envStarting disk round b).csv path = .ok records from read] at read'
    cases read'
    exact each mode src table identified built
  refine ⟨?_, fun counted => ⟨fun b unplaced => ?_, fun placed ok => ?_⟩⟩
  · have labels := (stages none).1
    rwa [failsClosed_orderBlocks, tabled.integral, tabled.someAbsent] at labels
  · -- in the order that starts with the block, nothing stops the loop before it but smaller ones
    by_contra all
    obtain ⟨r, row, label, -⟩ := unplaced.1 .off
    obtain ⟨before, after, ordered, below⟩ := reached_of_first tabled counted ⟨r, row, label⟩
    refine (tabled.failsClosed_checkTable.mp ((stages (some b)).2 _ ordered)).1 before b after rfl
      (fun b' mem => ?_) unplaced
    by_contra rejected
    obtain ⟨r', row', label'⟩ := (tabled.mem_blocks ordered).mp (List.mem_append_left _ mem)
    exact all ⟨r', row', b', label', below b' mem, rejected⟩
  · obtain ⟨blocks, ordered⟩ : ∃ blocks, orderBlocks mode (wanted blocksOverride mode)
        (labelsOf (envStarting disk round none) table) = .ok blocks :=
      tabled.orderBlocks_returns.mpr counted
    have whole : ∀ b ∈ blocks, Placed (dictReader records) b := by
      intro b mem
      obtain ⟨r, row, label⟩ := (tabled.mem_blocks ordered).mp mem
      exact placed r row b label
    refine ⟨?_, (tabled.failsClosed_checkTable.mp ((stages none).2 blocks ordered)).2 whole ok⟩
    by_cases cpu : mode = .fixedloadCpu
    · exact (counted.ids cpu).1
    · rw [← tabled.oneSpelling (orderBlocks_ok.mp ordered).2.1]
      exact distinct ⟨mode, blocks, table, src⟩ (loadArtifact_ok.mpr ⟨records, read,
        identify_ok.mpr identified, ⟨built, ordered, fun b mem => tabled.checkBlock_ok.mpr
          (whole b mem), tabled.rowsOk.mpr ok⟩, fun yes => absurd yes cpu⟩)

/-- Sound rows are loaded fail-closed, in any order of the labels. -/
theorem LabelsSound.failsClosed {records : List (List Text)} (read : env.csv path = .ok records)
    (sound : LabelsSound env.round env.toDisk path (dictReader records) flag blocksOverride
      cpuOnly) : FailsClosed (loadArtifact env path flag blocksOverride cpuOnly) := by
  refine failsClosed_loadArtifact.mpr ⟨records, read, fun mode src table identified built => ?_⟩
  have tabled := buildTable_ok built
  obtain ⟨labels, reached⟩ := sound mode src identified (buildTable_returns.mp ⟨table, built⟩)
  rw [failsClosed_orderBlocks, tabled.integral, tabled.someAbsent]
  refine ⟨labels, fun blocks ordered => tabled.failsClosed_checkTable.mpr ⟨?_, fun whole ok => ?_⟩⟩
  · rintro before b after rfl passed unplaced
    obtain ⟨r, row, b', label, below, rejected⟩ :=
      (reached (tabled.orderBlocks_returns.mp ⟨_, ordered⟩)).1 b unplaced
    refine rejected (passed b' (mem_before_of_below (orderBlocks_ok.mp ordered).2.1 ?_ below))
    exact tabled.mem_labelsOf.mpr ⟨r, row, label⟩
  · refine ((reached (tabled.orderBlocks_returns.mp ⟨_, ordered⟩)).2 ?_ ok).2
    exact fun r row b label => whole b ((tabled.mem_blocks ordered).mpr ⟨r, row, label⟩)

theorem LabelsSound.nodup {records : List (List Text)} (read : env.csv path = .ok records)
    (sound : LabelsSound env.round env.toDisk path (dictReader records) flag blocksOverride
      cpuOnly) {art : Artifact}
    (loaded : loadArtifact env path flag blocksOverride cpuOnly = .ok art) :
    (art.blocks.map Text.int?).Nodup := by
  obtain ⟨records', read', identified, accepted, -⟩ := loadArtifact_ok.mp loaded
  rw [read] at read'
  cases read'
  have tabled := buildTable_ok accepted.built
  obtain ⟨-, reached⟩ := sound _ _ (identify_ok.mp identified)
    (buildTable_returns.mp ⟨_, accepted.built⟩)
  rw [tabled.oneSpelling (orderBlocks_ok.mp accepted.ordered).2.1]
  refine ((reached (tabled.orderBlocks_returns.mp ⟨_, accepted.ordered⟩)).2 ?_
    (tabled.rowsOk.mp accepted.rows)).1
  intro r row b label
  exact tabled.checkBlock_ok.mp
    (accepted.blocks b ((tabled.mem_blocks accepted.ordered).mpr ⟨r, row, label⟩))

/-- Rows whose blocks are integers in one spelling, and whose positions are all there, are sound
if the sidecars can be read. -/
theorem labelsSound_of_fields {round : ℚ → PyFloat} {disk : Disk} (integral : IntegralBlocks rows)
    (one : OneSpelling rows) (positions : ∀ r ∈ rows, r.get "position" ≠ none)
    (readable : ∀ src, SidecarsReadable round disk path src) :
    LabelsSound round disk path rows flag blocksOverride cpuOnly := by
  refine fun mode src _ _ => ⟨.inl integral, fun _ => ⟨fun b unplaced => ?_, fun _ _ => ?_⟩⟩
  · obtain ⟨-, r, row, absent⟩ := unplaced
    exact absurd absent (positions r (List.mem_of_mem_filter row))
  · exact ⟨one, fun _ => readable src⟩

/-- **Loading an artifact fails closed on its labels**, in whatever order Python iterates
over them, if and only if the file can be read and its rows are sound.  Failing closed
includes that accepted blocks have distinct integers. -/
theorem loadArtifact_labels (disk : Disk) (round : ℚ → PyFloat) (path : Text)
    (flag : Option Text) (blocksOverride : Option ℤ) (cpuOnly : Bool) :
    (∀ env : Env, env.toDisk = disk → env.round = round →
      FailsClosed (loadArtifact env path flag blocksOverride cpuOnly) ∧
      ∀ art, loadArtifact env path flag blocksOverride cpuOnly = .ok art →
        (art.blocks.map Text.int?).Nodup) ↔
      ∃ records, disk.csv path = .ok records ∧
        LabelsSound round disk path (dictReader records) flag blocksOverride cpuOnly := by
  constructor
  · intro closed
    obtain ⟨records, read, -⟩ :=
      failsClosed_loadArtifact.mp (closed (envStarting disk round none) rfl rfl).1
    exact ⟨records, read, labelsSound_of_closed read
      (fun b => (closed (envStarting disk round b) rfl rfl).1)
      (closed (envStarting disk round none) rfl rfl).2⟩
  · rintro ⟨records, read, sound⟩ env rfl rfl
    exact ⟨sound.failsClosed read, fun art loaded => sound.nodup read loaded⟩

/-- Does it raise `ValueError`? -/
def raisesValueError {α : Type} : Except PyError α → Bool
  | .error .valueError => true
  | _ => false

theorem not_failsClosed_of_valueError {α : Type} {x : Except PyError α}
    (raised : raisesValueError x = true) : ¬ FailsClosed x := by
  intro closed
  cases x with
  | ok a => cases raised
  | error e =>
      obtain ⟨why, rfl⟩ := closed e rfl
      cases raised

/-- A label that is no integer raises `ValueError`, and two spellings of one integer are accepted
as two of the twelve blocks. -/
theorem loadArtifact_labels_spellings :
    let load := fun labels : List Text =>
      loadArtifact (writtenEnv .fin [] (written .confirm labels fun _ _ row => row)) "a" none none
        false
    ¬ FailsClosed (load ["x"]) ∧
      ∃ art, load ["1", "01", "2", "3", "4", "5", "6", "7", "8", "9", "10", "11"] = .ok art ∧
        ¬ (art.blocks.map Text.int?).Nodup := by
  intro load
  constructor
  · exact not_failsClosed_of_valueError (by decide +kernel)
  · obtain ⟨art, loaded, repeated⟩ : ∃ art, load
        ["1", "01", "2", "3", "4", "5", "6", "7", "8", "9", "10", "11"] = .ok art ∧
        decide (¬ (art.blocks.map Text.int?).Nodup) = true :=
      exists_of_returnsWith (by decide +kernel)
    exact ⟨art, loaded, of_decide_eq_true repeated⟩

end WgReceivePath.Analyze
