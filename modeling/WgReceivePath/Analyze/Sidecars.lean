import WgReceivePath.Analyze.Artifact
import Mathlib.Data.List.Dedup

/-!
# The sidecars of a CPU-only artifact

`check_cpu_sidecars` ties a CPU-only CSV to its metadata file and its per-core file.

## Main definitions

* `TextFile` and `Disk`, the files as they are read.  A sidecar is read line by line, and
  reading may fail after some lines have been delivered and checked; so what is raised can
  depend on what comes first.
* `metaLoop` and `checkIdentity`, the metadata; `percoreLoop` and `checkRuns`, the per-core
  lines.
* `Identity`: the metadata states the predeclared identity.
* `Linked`: the per-core rows are, run by run, one row for each CPU of one fixed set.

## Main results

`metaLoop_returns` and `percoreLoop_returns` say for which lines the loops return,
`checkIdentity_ok` and `checkCpuSidecars_ok` what holds when the comparisons pass.

The product in `Linked` is nowhere checked as such.  The loop over the per-core lines keeps
a set of triples and one record for each run (`RunInfo`); what it accumulates is what a
run's lines say (`percoreLoop_ok`), and the product follows from the comparisons after the
loop, which ask for the same set of CPUs in every run and for the runs of the CSV
(`checkRuns_ok`).
-/

namespace WgReceivePath.Analyze

/-! ## Files

The CSV is read to its end before anything is checked, the sidecars are checked line by line
while they are read.  Hence the two kinds of file. -/

/-- What reading a file can raise. -/
inductive ReadError where
  | os
  | unicodeDecode
  | csvError
  deriving DecidableEq, Repr

/-- The exception that it is. -/
def ReadError.raised : ReadError → PyError
  | .os => .os
  | .unicodeDecode => .unicodeDecode
  | .csvError => .csvError

/-- A file that is read line by line.  It is opened and decoded piece by piece, so that some
lines may be delivered before reading fails.  A failure at once, such as that of opening it,
is one with no lines. -/
structure TextFile where
  /-- the text of the lines that are delivered, their ends translated to newlines -/
  text : Text
  /-- what is raised when the next line is asked for, if that is not the end of the file -/
  failure : Option ReadError

/-- The end of a loop over the lines of a file. -/
def TextFile.finish (file : TextFile) : Except PyError Unit :=
  match file.failure with
  | none => .ok ()
  | some e => .error e.raised

theorem TextFile.finish_ok {file : TextFile} {u : Unit} :
    file.finish = .ok u ↔ file.failure = none := by
  unfold finish
  split <;> simp [*]

/-- The files that an analysis reads. -/
structure Disk where
  /-- the records that `csv.reader` finds in a file, which is read to its end at once, or what is
  raised instead -/
  csv : Text → Except ReadError (List (List Text))
  /-- the files for which `os.path.exists` is true -/
  text : Text → Option TextFile

/-- The rows by block label and condition. -/
abbrev Table := Dict (Option Text × Cond) Row

/-! ## The predeclared identity -/

/-- The float literals are rounded as the fields are; the integers are exact. -/
def CPU_META_EXACT_NUM (round : ℚ → PyFloat) : List (Text × PyFloat) :=
  [("application_cap_gbps", round (358 / 100)), ("per_stream_mbit", .fin 895),
    ("delivered_target_gbps", round (38 / 10)), ("absolute_tolerance_pct", .fin 5),
    ("paired_tolerance_pct", round (3 / 2))]

def CPU_META_EXACT_STR : List (Text × Text) :=
  [("cpu_only", "1"), ("probe_mode", "none"),
    ("delivered_target_metric", "wg0_rx_bytes_exact_window")]

def CPU_META_VALIDATED : List Text :=
  ["application_cap_gbps", "per_stream_mbit", "delivered_target_gbps",
    "absolute_tolerance_pct", "paired_tolerance_pct", "cpu_only", "probe_mode",
    "delivered_target_metric", "module_srcversion", "audited_head", "harness_gitrev"]

/-- A lowercase hexadecimal digit. -/
def isHex (c : Char) : Bool := '0' ≤ c && c ≤ '9' || 'a' ≤ c && c ≤ 'f'

/-- `AUDITED_HEAD_RE.match`; `$` also matches before a last newline. -/
def isAuditedHead (t : Text) : Bool :=
  let body := if t.getLast? = some '\n' then t.dropLast else t
  body.length = 40 && body.all isHex

/-- The canonical stamp of a commit. -/
def canonicalGitrev (head : Text) : Text :=
  "commit=" ++ head ++ " branch=" ++ "cloudlab-receive-path-findings" ++ " dirty=0"

/-- The loop over the lines of the metadata, `n` of them read.  Only the validated keys must
not occur twice; for others the last value counts. -/
def metaLoop (path : Text) : ℕ → List Text → Dict Text Text → Except Invalid (Dict Text Text)
  | _, [], kv => .ok kv
  | n, body :: rest, kv =>
      if body.strip = [] then metaLoop path (n + 1) rest kv
      else do
        let k := (body.partition '=').1
        let v ← demand (body.partition '=').2 (.malformedMetadata path (n + 1) body)
        require (k.strip ≠ [] ∧ k = k.strip) (.malformedMetadata path (n + 1) body)
        require (¬ (k ∈ CPU_META_VALIDATED ∧ k ∈ kv.keys)) (.duplicateField path k)
        metaLoop path (n + 1) rest (kv.set k v)

/-- The comparisons of the metadata with the predeclared identity, in the order of the
source. -/
def checkIdentity (round : ℚ → PyFloat) (path : Text) (kv : Dict Text Text) (src : Text) :
    Except Invalid Unit := do
  CPU_META_EXACT_STR.forM fun e => do
    let got ← demand (kv.get? e.1) (.missingField path e.1)
    require (got = e.2) (.fieldValue path e.1 got)
  (CPU_META_EXACT_NUM round).forM fun e => do
    let raw ← demand (kv.get? e.1) (.missingField path e.1)
    require (raw = raw.strip ∧ raw ≠ []) (.fieldSpace path e.1 raw)
    let num ← demand (raw.float? round) (.fieldNotNumeric path e.1 raw)
    require (num.isFinite = true ∧ num = e.2) (.fieldValue path e.1 raw)
  require (kv.get? "module_srcversion" = some src)
    (.srcversionMismatch path (kv.get? "module_srcversion") src)
  let head := (kv.get? "audited_head").getD []
  require (isAuditedHead head = true) (.auditedHead path head)
  require (kv.get? "harness_gitrev" = some (canonicalGitrev head))
    (.harnessGitrev path (canonicalGitrev head) (kv.get? "harness_gitrev"))

/-! ## The per-core rows -/

/-- A line of the per-core file. -/
structure Percore where
  timestamp : Text
  block : Text
  position : Text
  cond : Text
  cpu : Text
  busy : Text
  softirq : Text
  system : Text
  deriving DecidableEq, Repr

/-- The run that a line belongs to. -/
def Percore.run (f : Percore) : Text × Text := (f.block, f.position)

/-- What must not occur twice. -/
def Percore.key (f : Percore) : Text × Text × Text := (f.block, f.position, f.cpu)

/-- The three values of a line. -/
def Percore.values (f : Percore) : List Text := [f.busy, f.softirq, f.system]

/-- `line.split()`, if it has eight fields. -/
def Percore.ofLine? (line : Text) : Option Percore :=
  match line.split with
  | [timestamp, block, position, cond, cpu, busy, softirq, system] =>
      some ⟨timestamp, block, position, cond, cpu, busy, softirq, system⟩
  | _ => none

/-- What is known of a run: the set of its conditions, and its CPUs in the order of the
lines. -/
structure RunInfo where
  conds : List Text
  cpus : List Text

/-- One more line of a run. -/
def RunInfo.add (info : Option RunInfo) (f : Percore) : RunInfo :=
  let ⟨conds, cpus⟩ := info.getD ⟨[], []⟩
  ⟨if f.cond ∈ conds then conds else conds ++ [f.cond], cpus ++ [f.cpu]⟩

/-- The check of one value. -/
def checkValue (round : ℚ → PyFloat) (path : Text) (n : ℕ) (x : Text) : Except Invalid Unit := do
  let v ← demand (x.float? round) (.percoreMalformed path n x)
  require (v.isFinite = true) (.percoreNonFinite path n x)
  require (v.lt (.fin 0) = false) (.percoreNegative path n x)

/-- The loop over the lines behind the header, the next one being line `n`. -/
def percoreLoop (round : ℚ → PyFloat) (path : Text) : ℕ → List Text →
    List (Text × Text × Text) → Dict (Text × Text) RunInfo →
    Except Invalid (Dict (Text × Text) RunInfo)
  | _, [], _, runs => .ok runs
  | n, line :: rest, seen, runs => do
      let f ← demand (Percore.ofLine? line) (.percoreFields path n line.split.length)
      require (f.key ∉ seen) (.percoreDuplicate path n f.block f.position f.cpu)
      f.values.forM (checkValue round path n)
      percoreLoop round path (n + 1) rest (f.key :: seen)
        (runs.set f.run (.add (runs.get? f.run) f))

def PERCORE_HEADER : List Text :=
  ["timestamp", "block", "position", "cond", "cpu", "busy_ce", "softirq_ce", "system_ce"]

/-- The condition of each run of the CSV, by block and position. -/
def wantRuns (table : Table) : Dict (Option Text × Option Text) Cond :=
  .ofList (table.entries.map fun e => ((e.1.1, e.2.get "position"), e.1.2))

/-- A run of the per-core file as a run of the CSV. -/
def asRun (key : Text × Text) : Option Text × Option Text := (some key.1, some key.2)

/-- The comparisons of the per-core runs with those of the CSV: the same runs, each under
its own condition, and one set of CPUs for all of them. -/
def checkRuns (path : Text) (runs : Dict (Text × Text) RunInfo) (table : Table) :
    Except Invalid Unit := do
  require ((∀ key ∈ runs.keys, asRun key ∈ (wantRuns table).keys) ∧
    ∀ key ∈ (wantRuns table).keys, key ∈ runs.keys.map asRun) (.percoreRuns path)
  runs.entries.forM fun e => do
    let c ← demand ((wantRuns table).get? (asRun e.1)) (.percoreCond path e.1.1 e.1.2)
    require (c.text ∈ e.2.conds ∧ ∀ cond ∈ e.2.conds, cond = c.text)
      (.percoreCond path e.1.1 e.1.2)
  require ((runs.entries.map fun e => Text.sorted e.2.cpus).dedup.length = 1)
    (.percoreCpus path)

/-- `fh.readline().split()`.  At the end of the file the line is empty. -/
def readHeader (percore : TextFile) : Except PyError (List Text) :=
  match percore.text.lines with
  | [] => do
      percore.finish
      return []
  | line :: _ => return line.split

/-- `check_cpu_sidecars`. -/
def checkCpuSidecars (round : ℚ → PyFloat) (disk : Disk) (path : Text) (table : Table)
    (src : Text) : Except PyError Unit := do
  let metaP := path ++ ".meta"
  let pcP := path ++ ".percore"
  let metadata ← demand (disk.text metaP) (.invalid (.noMetadata metaP))
  let kv ← invalidly (metaLoop metaP 0 metadata.text.lines .empty)
  metadata.finish
  invalidly (checkIdentity round metaP kv src)
  let percore ← demand (disk.text pcP) (.invalid (.noPercore pcP))
  let header ← readHeader percore
  require (header.take 8 = PERCORE_HEADER) (.invalid (.percoreHeader pcP header))
  let runs ← invalidly (percoreLoop round pcP 2 percore.text.lines.tail [] .empty)
  percore.finish
  invalidly (checkRuns pcP runs table)

/-! ## What the metadata states

The loop reads the lines in order and keeps a dictionary.  For the validated keys, which may
stand on one line only, the dictionary is the same as the list of values (`metaValues`), and
the rest is about that list. -/

/-- The values of a key, one for each line that has it. -/
def metaValues (lines : List Text) (key : Text) : List Text :=
  lines.filterMap fun body =>
    if (body.partition '=').1 = key then (body.partition '=').2 else none

theorem metaValues_blank {body : Text} (blank : body.strip = []) (lines : List Text)
    (key : Text) : metaValues (body :: lines) key = metaValues lines key := by
  have absent : '=' ∉ body := fun mem =>
    absurd (Text.strip_eq_nil.mp blank _ mem) (by decide)
  simp [metaValues, Text.partition_of_notMem absent]

theorem metaValues_cons {body v : Text} (value : (body.partition '=').2 = some v)
    (lines : List Text) (key : Text) :
    metaValues (body :: lines) key =
      if (body.partition '=').1 = key then v :: metaValues lines key
      else metaValues lines key := by
  rw [metaValues, List.filterMap_cons, value]
  split <;> simp_all [metaValues]

/-- A validated key stands on one line at most, and what is read is its value.  By induction
on the lines, with what was read before in `kv`. -/
theorem metaLoop_ok {path : Text} {n : ℕ} {lines : List Text} {kv kv' : Dict Text Text}
    (read : metaLoop path n lines kv = .ok kv') {k : Text} (validated : k ∈ CPU_META_VALIDATED) :
    metaValues lines k = [] ∧ kv'.get? k = kv.get? k ∨
      kv.get? k = none ∧ ∃ v, metaValues lines k = [v] ∧ kv'.get? k = some v := by
  induction lines generalizing n kv with
  | nil =>
      cases read
      exact .inl ⟨rfl, rfl⟩
  | cons body rest ih =>
      rw [metaLoop] at read
      split at read
      · rename_i blank
        rw [metaValues_blank blank]
        exact ih read
      · simp only [except_bind_ok, demand_ok, require_ok, exists_const] at read
        obtain ⟨v, value, -, fresh, read⟩ := read
        rw [metaValues_cons value]
        have later := ih read
        rw [Dict.get?_set] at later
        split
        · -- the key of this line
          rename_i same
          have new : kv.get? k = none :=
            kv.get?_eq_none.mpr fun old => fresh (same ▸ ⟨validated, old⟩)
          rw [if_pos same.symm] at later
          rcases later with ⟨empty, found⟩ | ⟨none, -⟩
          · exact .inr ⟨new, v, by rw [empty], found⟩
          · cases none
        · rename_i other
          rwa [if_neg (Ne.symm other)] at later

/-- The lines that the loop over the metadata accepts: each is blank or `key=value` with a key
that is not empty and has no space around it, and no validated key stands on two of them. -/
structure MetaLines (lines : List Text) : Prop where
  shape : ∀ body ∈ lines, body.strip ≠ [] → (body.partition '=').2 ≠ none ∧
    (body.partition '=').1.strip ≠ [] ∧ (body.partition '=').1 = (body.partition '=').1.strip
  once : ∀ k ∈ CPU_META_VALIDATED, (metaValues lines k).length ≤ 1

theorem metaLines_blank {body : Text} (blank : body.strip = []) {lines : List Text} :
    MetaLines (body :: lines) ↔ MetaLines lines := by
  constructor
  · intro all
    refine ⟨fun b mem => all.shape b (List.mem_cons_of_mem _ mem), fun k validated => ?_⟩
    rw [← metaValues_blank blank]
    exact all.once k validated
  · intro later
    refine ⟨List.forall_mem_cons.mpr ⟨fun text => absurd blank text, later.shape⟩,
      fun k known => ?_⟩
    rw [metaValues_blank blank]
    exact later.once k known

/-- A line with a text in front: its key and value are well formed, and if the key is
validated it does not come again. -/
theorem metaLines_text {body v : Text} (text : body.strip ≠ [])
    (value : (body.partition '=').2 = some v) {lines : List Text} :
    MetaLines (body :: lines) ↔
      ((body.partition '=').1.strip ≠ [] ∧ (body.partition '=').1 = (body.partition '=').1.strip) ∧
      MetaLines lines ∧
      ((body.partition '=').1 ∈ CPU_META_VALIDATED →
        metaValues lines (body.partition '=').1 = []) := by
  constructor
  · intro all
    refine ⟨(all.shape body List.mem_cons_self text).2, ⟨?_, fun k known => ?_⟩, fun known => ?_⟩
    · exact fun b mem => all.shape b (List.mem_cons_of_mem _ mem)
    · have once := all.once k known
      rw [metaValues_cons value] at once
      split at once
      · exact Nat.le_of_succ_le once
      · exact once
    · have once := all.once _ known
      rw [metaValues_cons value, if_pos rfl, List.length_cons] at once
      exact List.length_eq_zero_iff.mp (by omega)
  · rintro ⟨key, later, none⟩
    refine ⟨List.forall_mem_cons.mpr ⟨fun _ => ⟨by simp [value], key⟩, later.shape⟩,
      fun k known => ?_⟩
    rw [metaValues_cons value]
    split
    · rename_i same
      rw [← same, none (same ▸ known), List.length_singleton]
    · exact later.once k known

/-- Of a validated key that has been read before, no line is left. -/
def Unread (kv : Dict Text Text) (lines : List Text) : Prop :=
  ∀ k ∈ CPU_META_VALIDATED, k ∈ kv.keys → metaValues lines k = []

/-- Reading a line: its key must be new if it is validated, and is one of those read before from
then on. -/
theorem unread_text {body v : Text} (value : (body.partition '=').2 = some v) {lines : List Text}
    {kv : Dict Text Text} :
    Unread kv (body :: lines) ∧ ((body.partition '=').1 ∈ CPU_META_VALIDATED →
        metaValues lines (body.partition '=').1 = []) ↔
      ¬ ((body.partition '=').1 ∈ CPU_META_VALIDATED ∧ (body.partition '=').1 ∈ kv.keys) ∧
        Unread (kv.set (body.partition '=').1 v) lines := by
  constructor
  · rintro ⟨unread, last⟩
    have left : ∀ k ∈ CPU_META_VALIDATED, k ∈ kv.keys →
        (body.partition '=').1 ≠ k ∧ metaValues lines k = [] := by
      intro k known old
      have empty := unread k known old
      rw [metaValues_cons value] at empty
      split at empty
      · cases empty
      · exact ⟨‹_›, empty⟩
    refine ⟨fun both => (left _ both.1 both.2).1 rfl, fun k known old => ?_⟩
    rcases Dict.mem_keys_set.mp old with rfl | old
    · exact last known
    · exact (left k known old).2
  · rintro ⟨fresh, unread⟩
    refine ⟨fun k known old => ?_, fun known => unread _ known (Dict.mem_keys_set.mpr (.inl rfl))⟩
    have other : (body.partition '=').1 ≠ k := by
      rintro rfl
      exact fresh ⟨known, old⟩
    rw [metaValues_cons value, if_neg other]
    exact unread k known (Dict.mem_keys_set.mpr (.inr old))

/-- By induction on the lines, with the keys met so far in `kv`. -/
theorem metaLoop_returns_from {path : Text} {n : ℕ} {lines : List Text} {kv : Dict Text Text} :
    (∃ kv', metaLoop path n lines kv = .ok kv') ↔ MetaLines lines ∧ Unread kv lines := by
  induction lines generalizing n kv with
  | nil =>
      exact ⟨fun _ => ⟨⟨by simp, fun _ _ => Nat.zero_le 1⟩, fun _ _ _ => rfl⟩, fun _ => ⟨kv, rfl⟩⟩
  | cons body rest ih =>
      rw [metaLoop]
      split
      · rename_i blank
        rw [ih, metaLines_blank blank]
        simp only [Unread, metaValues_blank blank]
      · rename_i text
        simp only [except_bind_ok, demand_ok, require_ok, exists_const]
        constructor
        · rintro ⟨kv', v, value, key, fresh, read⟩
          obtain ⟨later, unread⟩ := ih.mp ⟨kv', read⟩
          obtain ⟨unread, last⟩ := (unread_text value).mpr ⟨fresh, unread⟩
          exact ⟨(metaLines_text text value).mpr ⟨key, later, last⟩, unread⟩
        · rintro ⟨all, unread⟩
          obtain ⟨v, value⟩ :=
            Option.ne_none_iff_exists'.mp (all.shape body List.mem_cons_self text).1
          obtain ⟨key, later, last⟩ := (metaLines_text text value).mp all
          obtain ⟨fresh, unread⟩ := (unread_text value).mp ⟨unread, last⟩
          obtain ⟨kv', read⟩ := ih.mpr ⟨later, unread⟩
          exact ⟨kv', v, value, key, fresh, read⟩

/-- The loop over the metadata returns on the lines that are described, and on no others. -/
theorem metaLoop_returns {path : Text} {n : ℕ} {lines : List Text} :
    (∃ kv, metaLoop path n lines .empty = .ok kv) ↔ MetaLines lines := by
  rw [metaLoop_returns_from]
  simp [Unread, Dict.keys, Dict.empty]

/-- The metadata states the predeclared identity: every validated key stands on exactly one
line, the fixed values are as declared, and the provenance is a commit with its canonical
stamp. -/
structure Identity (round : ℚ → PyFloat) (metadata src : Text) : Prop where
  once : ∀ k ∈ CPU_META_VALIDATED, (metaValues metadata.lines k).length = 1
  strings : ∀ e ∈ CPU_META_EXACT_STR, metaValues metadata.lines e.1 = [e.2]
  numbers : ∀ e ∈ CPU_META_EXACT_NUM round, e.2.isFinite = true ∧
    ∃ raw, metaValues metadata.lines e.1 = [raw] ∧ raw.strip = raw ∧ raw.float? round = some e.2
  srcversion : metaValues metadata.lines "module_srcversion" = [src]
  provenance : ∃ head, metaValues metadata.lines "audited_head" = [head] ∧ head.length = 40 ∧
    (∀ c ∈ head, isHex c = true) ∧
    metaValues metadata.lines "harness_gitrev" = [canonicalGitrev head]

/-- A value is part of its line. -/
theorem metaValues_subset {lines : List Text} {key v : Text} (mem : v ∈ metaValues lines key) :
    ∃ body ∈ lines, v ⊆ body := by
  obtain ⟨body, line, value⟩ := List.mem_filterMap.mp mem
  refine ⟨body, line, ?_⟩
  split at value
  · cases rest : body.dropWhile (· ≠ '=') with
    | nil =>
        simp only [Text.partition, rest] at value
        cases value
    | cons c tail =>
        simp only [Text.partition, rest, List.tail?_cons, Option.some.injEq] at value
        subst value
        exact fun d mem => (List.dropWhile_sublist _).subset (rest ▸ List.mem_cons_of_mem c mem)
  · cases value

/-- The validated keys are those of the identity, and three more. -/
theorem mem_validated (round : ℚ → PyFloat) {k : Text} : k ∈ CPU_META_VALIDATED ↔
    (∃ e ∈ CPU_META_EXACT_NUM round, e.1 = k) ∨ (∃ e ∈ CPU_META_EXACT_STR, e.1 = k) ∨
      k ∈ (["module_srcversion", "audited_head", "harness_gitrev"] : List Text) := by
  have all : CPU_META_VALIDATED = (CPU_META_EXACT_NUM round).map Prod.fst ++
      (CPU_META_EXACT_STR.map Prod.fst ++
        (["module_srcversion", "audited_head", "harness_gitrev"] : List Text)) := rfl
  rw [all, List.mem_append, List.mem_append, List.mem_map, List.mem_map]

/-- A commit hash without a line end in it. -/
theorem isAuditedHead_iff {head : Text} (line : '\n' ∉ head) :
    isAuditedHead head = true ↔ head.length = 40 ∧ ∀ c ∈ head, isHex c = true := by
  have last : head.getLast? ≠ some '\n' := fun last => line (List.mem_of_getLast? last)
  simp [isAuditedHead, last]

/-- What is read for a validated key is the value of its only line. -/
theorem metaLoop_get? {path : Text} {n : ℕ} {lines : List Text} {kv : Dict Text Text}
    (read : metaLoop path n lines .empty = .ok kv) {k : Text} (validated : k ∈ CPU_META_VALIDATED)
    {v : Text} : kv.get? k = some v ↔ metaValues lines k = [v] := by
  rcases metaLoop_ok read validated with ⟨empty, none⟩ | ⟨-, v', values, found⟩
  · simp [empty, none]
  · simp [values, found]

/-- The checks of the identity ask for every validated key, so that each has a line. -/
theorem validated_once (round : ℚ → PyFloat) {lines : List Text}
    (strings : ∀ e ∈ CPU_META_EXACT_STR, ∃ raw, metaValues lines e.1 = [raw])
    (numbers : ∀ e ∈ CPU_META_EXACT_NUM round, ∃ raw, metaValues lines e.1 = [raw])
    (others : ∀ k ∈ (["module_srcversion", "audited_head", "harness_gitrev"] : List Text),
      ∃ raw, metaValues lines k = [raw]) :
    ∀ k ∈ CPU_META_VALIDATED, (metaValues lines k).length = 1 := by
  intro k validated
  rw [List.length_eq_one_iff]
  rcases (mem_validated round).mp validated with ⟨e, mem, rfl⟩ | ⟨e, mem, rfl⟩ | other
  · exact numbers e mem
  · exact strings e mem
  · exact others k other

/-- **The metadata of an accepted artifact states the predeclared identity**, and metadata that
states it is accepted. -/
theorem checkIdentity_ok {round : ℚ → PyFloat} {path metadata src : Text} {kv : Dict Text Text}
    (read : metaLoop path 0 metadata.lines .empty = .ok kv) :
    checkIdentity round path kv src = .ok () ↔ Identity round metadata src := by
  have value {k : Text} (validated : k ∈ CPU_META_VALIDATED) {v : Text} :
      kv.get? k = some v ↔ metaValues metadata.lines k = [v] := metaLoop_get? read validated
  have string {e} (mem : e ∈ CPU_META_EXACT_STR) : e.1 ∈ CPU_META_VALIDATED :=
    (mem_validated round).mpr (.inr (.inl ⟨e, mem, rfl⟩))
  have number {e} (mem : e ∈ CPU_META_EXACT_NUM round) : e.1 ∈ CPU_META_VALIDATED :=
    (mem_validated round).mpr (.inl ⟨e, mem, rfl⟩)
  have head : ∀ v, kv.get? "audited_head" = some v → '\n' ∉ v := by
    intro v found newline
    obtain ⟨body, mem, subset⟩ := metaValues_subset
      ((value (by decide)).mp found ▸ List.mem_singleton_self v)
    exact Text.newline_notMem_lines mem (subset newline)
  simp only [checkIdentity, except_bind_ok, demand_ok, require_ok, forM_ok, exists_const]
  constructor
  · rintro ⟨strings, numbers, srcversion, audited, stamp⟩
    have strings : ∀ e ∈ CPU_META_EXACT_STR, metaValues metadata.lines e.1 = [e.2] := by
      intro e mem
      obtain ⟨got, found, rfl⟩ := strings e mem
      exact (value (string mem)).mp found
    have numbers : ∀ e ∈ CPU_META_EXACT_NUM round, e.2.isFinite = true ∧
        ∃ raw, metaValues metadata.lines e.1 = [raw] ∧ raw.strip = raw ∧
          raw.float? round = some e.2 := by
      intro e mem
      obtain ⟨raw, found, ⟨space, -⟩, num, read, finite, rfl⟩ := numbers e mem
      exact ⟨finite, raw, (value (number mem)).mp found, space.symm, read⟩
    have srcversion := (value (by decide)).mp srcversion
    -- an absent hash is checked as the empty text
    obtain ⟨commit, found⟩ : ∃ commit, kv.get? "audited_head" = some commit := by
      cases found : kv.get? "audited_head" with
      | none =>
          rw [found] at audited
          exact absurd audited (by decide)
      | some commit => exact ⟨commit, rfl⟩
    rw [found, Option.getD_some] at audited stamp
    have values := (value (by decide)).mp found
    have stamped := (value (by decide)).mp stamp
    obtain ⟨length, hex⟩ := (isAuditedHead_iff (head commit found)).mp audited
    refine ⟨validated_once round (fun e mem => ⟨_, strings e mem⟩) (fun e mem => ?_) ?_,
      strings, numbers, srcversion, commit, values, length, hex, stamped⟩
    · obtain ⟨-, raw, values, -⟩ := numbers e mem
      exact ⟨raw, values⟩
    · simp only [List.forall_mem_cons, List.not_mem_nil, false_imp_iff, implies_true, and_true]
      exact ⟨⟨_, srcversion⟩, ⟨_, values⟩, ⟨_, stamped⟩⟩
  · rintro ⟨-, strings, numbers, srcversion, commit, values, length, hex, stamped⟩
    have found := (value (by decide)).mpr values
    rw [found, Option.getD_some]
    refine ⟨fun e mem => ⟨e.2, (value (string mem)).mpr (strings e mem), rfl⟩, fun e mem => ?_,
      (value (by decide)).mpr srcversion,
      (isAuditedHead_iff (head commit found)).mpr ⟨length, hex⟩, (value (by decide)).mpr stamped⟩
    obtain ⟨finite, raw, values, space, read⟩ := numbers e mem
    refine ⟨raw, (value (number mem)).mpr values, ⟨space.symm, ?_⟩, e.2, read, finite, rfl⟩
    rintro rfl
    cases read

/-! ## What the per-core rows are

The loop keeps triples to find repetitions, and a record for each run.  Since no triple
occurs twice, the CPUs of a run are distinct, and equal sorted lists of them are equal sets:
that is what makes the rows a product. -/

/-- What the lines of a run say, one after the other. -/
def gather (rows : List Percore) (info : Option RunInfo) : Option RunInfo :=
  rows.foldl (fun info f => some (.add info f)) info

/-- The lines of a run. -/
def linesOf (rows : List Percore) (run : Text × Text) : List Percore :=
  rows.filter fun f => f.run = run

theorem mem_linesOf {rows : List Percore} {run : Text × Text} {f : Percore} :
    f ∈ linesOf rows run ↔ f ∈ rows ∧ f.run = run := by
  rw [linesOf, List.mem_filter, decide_eq_true_eq]

theorem checkValue_ok {round : ℚ → PyFloat} {path : Text} {n : ℕ} {x : Text} :
    checkValue round path n x = .ok () ↔ ∃ q, 0 ≤ q ∧ x.float? round = some (.fin q) := by
  simp only [checkValue, except_bind_ok, demand_ok, require_ok, exists_const]
  constructor
  · rintro ⟨v, read, finite, negative⟩
    obtain ⟨q, rfl⟩ := PyFloat.isFinite_iff.mp finite
    exact ⟨q, by simpa using negative, read⟩
  · rintro ⟨q, nonneg, read⟩
    exact ⟨.fin q, read, rfl, by simpa using nonneg⟩

/-- **The loop accumulates what the lines of each run say.**  The lines parse, no two have
the same block, position and CPU, their values are finite and not negative, and each run has
the record of its lines. -/
theorem percoreLoop_ok {round : ℚ → PyFloat} {path : Text} {n : ℕ} {lines : List Text}
    {seen : List (Text × Text × Text)} {runs runs' : Dict (Text × Text) RunInfo}
    (read : percoreLoop round path n lines seen runs = .ok runs') :
    ∃ rows, lines.map Percore.ofLine? = rows.map some ∧ (rows.map Percore.key).Nodup ∧
      (∀ f ∈ rows, f.key ∉ seen) ∧
      (∀ f ∈ rows, ∀ x ∈ f.values, ∃ q, 0 ≤ q ∧ x.float? round = some (.fin q)) ∧
      ∀ run, runs'.get? run = gather (linesOf rows run) (runs.get? run) := by
  induction lines generalizing n seen runs with
  | nil =>
      cases read
      exact ⟨[], rfl, List.nodup_nil, by simp, by simp, fun run => rfl⟩
  | cons line rest ih =>
      simp only [percoreLoop, except_bind_ok, demand_ok, require_ok, forM_ok, exists_const] at read
      obtain ⟨f, parsed, fresh, values, read⟩ := read
      obtain ⟨rows, lines, distinct, unseen, finite, get?⟩ := ih read
      refine ⟨f :: rows, ?_, ?_, ?_, ?_, ?_⟩
      · rw [List.map_cons, List.map_cons, parsed, lines]
      · rw [List.map_cons, List.nodup_cons]
        refine ⟨fun mem => ?_, distinct⟩
        obtain ⟨g, mem, same⟩ := List.mem_map.mp mem
        exact unseen g mem (same ▸ List.mem_cons_self)
      · refine List.forall_mem_cons.mpr ⟨fresh, fun g mem old => ?_⟩
        exact unseen g mem (List.mem_cons_of_mem _ old)
      · exact List.forall_mem_cons.mpr ⟨fun x mem => checkValue_ok.mp (values x mem), finite⟩
      · intro run
        rw [get?, Dict.get?_set, linesOf, linesOf, List.filter_cons]
        by_cases own : f.run = run
        · subst own
          simp [gather]
        · simp [own, Ne.symm own]

/-- The lines behind the header that the loop accepts: eight fields each, no two with the same
block, position and CPU, and values that are finite and not negative. -/
def PercoreLines (round : ℚ → PyFloat) (lines : List Text) : Prop :=
  ∃ rows : List Percore, lines.map Percore.ofLine? = rows.map some ∧
    (rows.map Percore.key).Nodup ∧
    ∀ f ∈ rows, ∀ x ∈ f.values, ∃ q, 0 ≤ q ∧ x.float? round = some (.fin q)

/-- By induction on the rows that the lines parse to; the triples that have been seen are those of
other lines. -/
theorem percoreLoop_returns_from {round : ℚ → PyFloat} {path : Text} {n : ℕ} {lines : List Text}
    {rows : List Percore} {seen : List (Text × Text × Text)} {runs : Dict (Text × Text) RunInfo}
    (parsed : lines.map Percore.ofLine? = rows.map some) (distinct : (rows.map Percore.key).Nodup)
    (unseen : ∀ f ∈ rows, f.key ∉ seen)
    (values : ∀ f ∈ rows, ∀ x ∈ f.values, ∃ q, 0 ≤ q ∧ x.float? round = some (.fin q)) :
    ∃ runs', percoreLoop round path n lines seen runs = .ok runs' := by
  induction rows generalizing lines n seen runs with
  | nil =>
      rw [List.map_nil, List.map_eq_nil_iff] at parsed
      exact ⟨runs, by rw [parsed]; rfl⟩
  | cons f rest ih =>
      obtain ⟨line, others, rfl, this, later⟩ := List.map_eq_cons_iff.mp parsed
      rw [List.map_cons, List.nodup_cons] at distinct
      rw [List.forall_mem_cons] at unseen values
      have fresh : ∀ g ∈ rest, g.key ∉ f.key :: seen := by
        intro g mem old
        rcases List.mem_cons.mp old with same | old
        · exact distinct.1 (same ▸ List.mem_map_of_mem mem)
        · exact unseen.2 g mem old
      obtain ⟨runs', read⟩ := ih later distinct.2 fresh values.2
      refine ⟨runs', ?_⟩
      simp only [percoreLoop, except_bind_ok, demand_ok, require_ok, forM_ok, exists_const]
      exact ⟨f, this, unseen.1, fun x mem => checkValue_ok.mpr (values.1 x mem), read⟩

/-- The loop over the per-core lines returns on the lines that are described, and on no
others. -/
theorem percoreLoop_returns {round : ℚ → PyFloat} {path : Text} {n : ℕ} {lines : List Text} :
    (∃ runs, percoreLoop round path n lines [] .empty = .ok runs) ↔ PercoreLines round lines := by
  constructor
  · rintro ⟨runs, read⟩
    obtain ⟨rows, parsed, distinct, -, values, -⟩ := percoreLoop_ok read
    exact ⟨rows, parsed, distinct, values⟩
  · rintro ⟨rows, parsed, distinct, values⟩
    exact percoreLoop_returns_from parsed distinct (fun _ _ => List.not_mem_nil) values

/-- What is gathered of a run: its CPUs in order, and the set of its conditions.  By
induction on the lines, from what was gathered before. -/
theorem gather_some {rows : List Percore} {info : Option RunInfo} {info' : RunInfo}
    (gathered : gather rows info = some info') :
    info'.cpus = (info.getD ⟨[], []⟩).cpus ++ rows.map Percore.cpu ∧
      ∀ c, c ∈ info'.conds ↔ c ∈ (info.getD ⟨[], []⟩).conds ∨ ∃ f ∈ rows, f.cond = c := by
  induction rows generalizing info with
  | nil =>
      have same : info = some info' := gathered
      simp [same]
  | cons f rest ih =>
      have rest : gather rest (some (.add info f)) = some info' := gathered
      obtain ⟨cpus, conds⟩ := ih rest
      constructor
      · rw [cpus, Option.getD_some, RunInfo.add, List.map_cons]
        simp
      · intro c
        rw [conds c, Option.getD_some, RunInfo.add]
        dsimp only
        split
        · rename_i old
          constructor
          · rintro (here | ⟨g, mem, same⟩)
            · exact .inl here
            · exact .inr ⟨g, List.mem_cons_of_mem f mem, same⟩
          · rintro (here | ⟨g, mem, rfl⟩)
            · exact .inl here
            · rcases List.mem_cons.mp mem with rfl | mem
              · exact .inl old
              · exact .inr ⟨g, mem, rfl⟩
        · simp [eq_comm, or_assoc]

theorem gather_eq_none {rows : List Percore} : gather rows none = none ↔ rows = [] := by
  have some : ∀ (rows : List Percore) (info : RunInfo), gather rows (.some info) ≠ none := by
    intro rows
    induction rows with
    | nil => exact fun info => Option.some_ne_none info
    | cons f rest ih => exact fun info => ih _
  cases rows with
  | nil => exact ⟨fun _ => rfl, fun _ => rfl⟩
  | cons f rest => exact ⟨fun none => absurd none (some rest _), fun nil => by cases nil⟩

/-- The rows of the CSV, as far as the sidecars refer to them: no two of them share a block and
a position. -/
def DistinctRuns (table : Table) : Prop :=
  ∀ b c c' r r', table.get? (b, c) = some r → table.get? (b, c') = some r' →
    r.get "position" = r'.get "position" → c = c'

/-- The run of the CSV with this block label, position and condition. -/
def IsRun (table : Table) (b p : Text) (c : Cond) : Prop :=
  ∃ r, table.get? (some b, c) = some r ∧ r.get "position" = some p

/-- The per-core lines are one line for each run of the CSV and each CPU of one set. -/
structure Linked (round : ℚ → PyFloat) (percore : Text) (table : Table)
    (rows : List Percore) (cpus : Set Text) : Prop where
  lines : percore.lines.tail.map Percore.ofLine? = rows.map some
  once : (rows.map Percore.key).Nodup
  product : ∀ b p cpu, (b, p, cpu) ∈ rows.map Percore.key ↔ (∃ c, IsRun table b p c) ∧ cpu ∈ cpus
  labelled : ∀ f ∈ rows, ∀ c, IsRun table f.block f.position c → f.cond = c.text
  values : ∀ f ∈ rows, ∀ x ∈ f.values, ∃ q, 0 ≤ q ∧ x.float? round = some (.fin q)

theorem mem_wantRuns {table : Table} {b p : Text} :
    asRun (b, p) ∈ (wantRuns table).keys ↔ ∃ c, IsRun table b p c := by
  rw [wantRuns, Dict.mem_keys_ofList, List.map_map, List.mem_map]
  constructor
  · rintro ⟨⟨⟨b', c⟩, r⟩, mem, same⟩
    obtain ⟨rfl, position⟩ := Prod.mk.inj same
    exact ⟨c, r, table.mem_entries.mp mem, position⟩
  · rintro ⟨c, r, found, position⟩
    exact ⟨((some b, c), r), table.mem_entries.mpr found, Prod.ext rfl position⟩

theorem wantRuns_get? {table : Table} (distinct : DistinctRuns table) {b p : Text} {c c' : Cond}
    (found : (wantRuns table).get? (asRun (b, p)) = some c) (run : IsRun table b p c') :
    c' = c := by
  obtain ⟨⟨⟨b', c''⟩, r⟩, mem, same⟩ := List.mem_map.mp (Dict.mem_of_get?_ofList found)
  obtain ⟨key, rfl⟩ := Prod.mk.inj same
  obtain ⟨rfl, position⟩ := Prod.mk.inj key
  obtain ⟨r', found', position'⟩ := run
  exact distinct _ _ _ _ _ found' (table.mem_entries.mp mem) (position'.trans position.symm)

/-- A list of values with one distinct one. -/
theorem dedup_length_eq_one {α : Type*} [DecidableEq α] {xs : List α} :
    xs.dedup.length = 1 ↔ ∃ x, x ∈ xs ∧ ∀ y ∈ xs, y = x := by
  constructor
  · intro one
    obtain ⟨x, same⟩ := List.length_eq_one_iff.mp one
    refine ⟨x, ?_, fun y mem => ?_⟩
    · rw [← List.mem_dedup, same]
      exact List.mem_singleton_self x
    · rw [← List.mem_dedup, same] at mem
      exact List.mem_singleton.mp mem
  · rintro ⟨x, mem, all⟩
    have perm : xs.dedup.Perm [x] := by
      refine (List.perm_ext_iff_of_nodup (List.nodup_dedup xs) (List.nodup_singleton x)).mpr ?_
      intro y
      rw [List.mem_dedup, List.mem_singleton]
      exact ⟨all y, fun same => same ▸ mem⟩
    exact perm.length_eq

/-- **The per-core rows of an accepted artifact are a product** of the runs of the CSV and
one set of CPUs. -/
theorem checkRuns_ok {round : ℚ → PyFloat} {path percore : Text} {n : ℕ} {table : Table}
    {runs : Dict (Text × Text) RunInfo} (distinct : DistinctRuns table)
    (read : percoreLoop round path n percore.lines.tail [] .empty = .ok runs)
    (passed : checkRuns path runs table = .ok ()) :
    ∃ rows cpus, Linked round percore table rows cpus := by
  obtain ⟨rows, lines, once, -, values, get?⟩ := percoreLoop_ok read
  simp only [checkRuns, except_bind_ok, demand_ok, require_ok, forM_ok, exists_const] at passed
  obtain ⟨⟨known, complete⟩, conds, sets⟩ := passed
  obtain ⟨cpus, -, all⟩ := dedup_length_eq_one.mp sets
  have mem_runs : ∀ run, run ∈ runs.keys ↔ linesOf rows run ≠ [] := by
    intro run
    rw [Dict.mem_keys, get? run, Dict.get?_empty, ← Option.isSome_iff_exists,
      Option.isSome_iff_ne_none, ne_eq, gather_eq_none]
  -- what is known of a run of the file
  have info : ∀ run, linesOf rows run ≠ [] → ∃ info, (run, info) ∈ runs.entries ∧
      (∀ cpu, cpu ∈ cpus ↔ ∃ f ∈ linesOf rows run, f.cpu = cpu) ∧
      ∀ cond, cond ∈ info.conds ↔ ∃ f ∈ linesOf rows run, f.cond = cond := by
    intro run some
    obtain ⟨info, found⟩ := runs.mem_keys.mp ((mem_runs run).mpr some)
    have gathered := get? run
    rw [found, Dict.get?_empty] at gathered
    obtain ⟨cpus', conds'⟩ := gather_some gathered.symm
    have entry := runs.mem_entries.mpr found
    refine ⟨info, entry, fun cpu => ?_, fun cond => ?_⟩
    · rw [← all _ (List.mem_map_of_mem entry), (Text.sorted_perm _).mem_iff, cpus',
        List.mem_append, List.mem_map]
      simp
    · rw [conds' cond]
      simp
  refine ⟨rows, {cpu | cpu ∈ cpus}, lines, once, fun b p cpu => ?_, fun f mem c run => ?_, values⟩
  · rw [List.mem_map, Set.mem_ofPred_eq, ← mem_wantRuns]
    constructor
    · rintro ⟨f, mem, key⟩
      obtain ⟨rfl, rfl, rfl⟩ : f.block = b ∧ f.position = p ∧ f.cpu = cpu := by
        simpa [Percore.key] using key
      have line : f ∈ linesOf rows f.run := mem_linesOf.mpr ⟨mem, rfl⟩
      have some : linesOf rows f.run ≠ [] := List.ne_nil_of_mem line
      obtain ⟨-, -, cpus, -⟩ := info f.run some
      exact ⟨known _ ((mem_runs _).mpr some), (cpus f.cpu).mpr ⟨f, line, rfl⟩⟩
    · rintro ⟨want, mem⟩
      obtain ⟨run, there, same⟩ := List.mem_map.mp (complete _ want)
      obtain rfl : run = (b, p) := by
        simpa [asRun, Prod.ext_iff] using same
      obtain ⟨-, -, cpus, -⟩ := info _ ((mem_runs _).mp there)
      obtain ⟨f, line, rfl⟩ := (cpus cpu).mp mem
      obtain ⟨mem, same⟩ := mem_linesOf.mp line
      obtain ⟨block, position⟩ := Prod.mk.inj same
      exact ⟨f, mem, by rw [Percore.key, block, position]⟩
  · have line : f ∈ linesOf rows f.run := mem_linesOf.mpr ⟨mem, rfl⟩
    obtain ⟨info, entry, -, labels⟩ := info f.run (List.ne_nil_of_mem line)
    obtain ⟨c', want, -, only⟩ := conds _ entry
    rw [only f.cond ((labels f.cond).mpr ⟨f, line, rfl⟩), wantRuns_get? distinct want run]

/-- **What `check_cpu_sidecars` establishes**: both files exist and can be read to their
end, the metadata states the identity, and the per-core rows are linked to the CSV. -/
theorem checkCpuSidecars_ok {round : ℚ → PyFloat} {disk : Disk} {path src : Text} {table : Table}
    (distinct : DistinctRuns table)
    (passed : checkCpuSidecars round disk path table src = .ok ()) :
    ∃ metadata percore, disk.text (path ++ ".meta") = some ⟨metadata, none⟩ ∧
      disk.text (path ++ ".percore") = some ⟨percore, none⟩ ∧ Identity round metadata src ∧
      ∃ rows cpus, Linked round percore table rows cpus := by
  simp only [checkCpuSidecars, except_bind_ok, demand_ok, require_ok, exists_const, invalidly_ok,
    TextFile.finish_ok] at passed
  obtain ⟨⟨metadata, _⟩, there, kv, read, rfl, ⟨⟩, identity, ⟨percore, _⟩, there', -, -, -,
    runs, read', rfl, linked⟩ := passed
  exact ⟨metadata, percore, there, there', (checkIdentity_ok read).mp identity,
    checkRuns_ok distinct read' linked⟩

end WgReceivePath.Analyze
