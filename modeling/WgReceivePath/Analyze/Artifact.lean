import WgReceivePath.Lib.Dict
import WgReceivePath.Lib.PyRun
import WgReceivePath.Lib.PyText

/-!
# The rows of an artifact

The constants of `analyze_confirm.py`, the rows of a CSV artifact, and the checks of one
row.

## Main definitions

* `Cond`, `Mode`, `KNOB_EXPECT`, `DIAG_EXPECT`, `EXPECT_BLOCKS`: the predeclared design.
* `Invalid`, the places where the analyser rejects an artifact, each with what its message
  shows, and `PyError`, what it or Python can raise otherwise.
* `Row`, a record under its header; `dictReader` is `csv.DictReader`.
* `fnum` and `inum` for numeric fields, `parseKnobs` and `checkTreatment` for the treatment
  readback, `checkRawRef` for the names of the raw files.

All checks of one row raise `Invalid` only, and that is their type; the functions that may
raise something else have `PyError`.  A row is the dictionary that `csv.DictReader` makes of
a record.  `Row.get` is `row.get`; a field that a short record lacks is present with the
value `None`.
-/

namespace WgReceivePath.Analyze

/-! ## Constants -/

/-- The four conditions, as the CSV names them. -/
inductive Cond where
  | off
  | both
  | steal4
  | bsteal4
  deriving DecidableEq, Repr

def CONDS : List Cond := [.off, .both, .steal4, .bsteal4]

def Cond.text : Cond → Text
  | .off => "off"
  | .both => "both"
  | .steal4 => "steal4"
  | .bsteal4 => "bsteal4"

/-- The condition that a text names. -/
def Cond.ofText? (t : Text) : Option Cond := CONDS.find? fun c => c.text = t

theorem Cond.ofText?_eq_some {t : Text} {c : Cond} : ofText? t = some c ↔ t = c.text := by
  constructor
  · intro found
    have := List.find?_some found
    simpa [eq_comm] using this
  · rintro rfl
    cases c <;> decide

theorem mem_CONDS (c : Cond) : c ∈ CONDS := by
  cases c <;> decide

/-- The kinds of artifact. -/
inductive Mode where
  | confirm
  | fixedload
  | fixedloadCpu
  deriving DecidableEq, Repr

def Mode.text : Mode → Text
  | .confirm => "confirm"
  | .fixedload => "fixedload"
  | .fixedloadCpu => "fixedload_cpu"

/-- `wg_supp`, `wg_headwake` and `wg_steal` under a condition. -/
def KNOB_EXPECT : Cond → ℤ × ℤ × ℤ
  | .off => (0, 0, 0)
  | .both => (1, 1, 0)
  | .steal4 => (0, 0, 4)
  | .bsteal4 => (1, 1, 4)

def KNOB_KEYS : List Text := ["supp", "headwake", "steal", "diag", "delay", "trig_k"]

def DIAG_EXPECT : Mode → ℤ
  | .confirm => 0
  | .fixedload => 1
  | .fixedloadCpu => 1

def EXPECT_BLOCKS : Mode → ℤ
  | .confirm => 12
  | .fixedload => 8
  | .fixedloadCpu => 8

/-! ## Errors

Every place that raises `Invalid` is a constructor, with the values that its message shows.
So two runs with different messages are told apart, and a theorem that one of them is raised
says which. -/

/-- `ctx`: where a row stands. -/
structure Ctx where
  block : Option Text
  cond : Cond
  deriving Repr

/-- The raise sites of `Invalid`, with what their messages show.  Two sites with the same
message for different fields are one constructor with the field in it. -/
inductive Invalid where
  -- one field
  | missingColumn (ctx : Ctx) (key : Text)
  | malformedNumeric (ctx : Ctx) (key raw : Text)
  | nonFinite (ctx : Ctx) (key raw : Text)
  | notPositive (ctx : Ctx) (key raw : Text)
  | notAnInteger (ctx : Ctx) (key raw : Text)
  | countBelow (ctx : Ctx) (key : Text) (v lo : ℤ) (minExcl : Bool)
  | countAbove (ctx : Ctx) (key : Text) (v hi : ℤ)
  -- the treatment readback
  | emptyKnobs (ctx : Ctx)
  | unparseableKnob (ctx : Ctx) (entry : Text)
  | duplicatedKnob (ctx : Ctx) (knob : Text)
  | malformedKnob (ctx : Ctx) (entry : Text)
  | knobKeys (ctx : Ctx) (keys : List Text)
  | mislabeled (ctx : Ctx) (knob : Text) (got : Option ℤ) (want : ℤ) (mode : Mode)
  -- the raw files
  | emptyRawRef (ctx : Ctx)
  | rawRefName (ctx : Ctx) (part : Text)
  | noSockperfRef (ctx : Ctx)
  | sockperfRef (ctx : Ctx)
  | noIperfRef (ctx : Ctx)
  -- the markers of a CPU-only row
  | cpuOnlyMarker (ctx : Ctx) (got : Option Text)
  | probeMode (ctx : Ctx) (got : Option Text)
  -- the artifact
  | emptyArtifact (path : Text)
  | needsCpuOnly
  | notCpuOnly
  | wrongMode (flag : Text) (mode : Mode)
  | emptySrcversion
  | severalSrcversions (src : List Text)
  | unknownCondition (line : ℕ) (cond : Option Text)
  | duplicateRow (block : Option Text) (cond : Cond)
  | labelNotIntegral (labels : List (Option Text))
  | blockIds (ids : List ℤ) (want : ℤ)
  | blockCount (found : ℕ) (want : ℤ)
  | missingConditions (block : Text) (missing : List Cond)
  | positions (block : Text) (pos : List Text)
  -- the metadata sidecar
  | noMetadata (path : Text)
  | malformedMetadata (path : Text) (line : ℕ) (body : Text)
  | duplicateField (path key : Text)
  | missingField (path key : Text)
  | fieldValue (path key got : Text)
  | fieldSpace (path key got : Text)
  | fieldNotNumeric (path key got : Text)
  | srcversionMismatch (path : Text) (got : Option Text) (src : Text)
  | auditedHead (path got : Text)
  | harnessGitrev (path expected : Text) (got : Option Text)
  -- the per-core sidecar
  | noPercore (path : Text)
  | percoreHeader (path : Text) (header : List Text)
  | percoreFields (path : Text) (line count : ℕ)
  | percoreDuplicate (path : Text) (line : ℕ) (block position cpu : Text)
  | percoreMalformed (path : Text) (line : ℕ) (value : Text)
  | percoreNonFinite (path : Text) (line : ℕ) (value : Text)
  | percoreNegative (path : Text) (line : ℕ) (value : Text)
  | percoreRuns (path : Text)
  | percoreCond (path block position : Text)
  | percoreCpus (path : Text)
  deriving Repr

/-- What an analysis can raise.  `main` handles the first and the `OSError`; the others end
the program with a traceback. -/
inductive PyError where
  | invalid (why : Invalid)
  | valueError
  | typeError
  | keyError (key : Text)
  | attributeError
  | zeroDivision
  | overflow
  /-- `SystemExit`: too many blocks for an exact test -/
  | tooManyBlocks (n : ℕ)
  /-- `StatisticsError`: the mean of no data -/
  | noData
  /-- `OSError`: a file cannot be opened or read -/
  | os
  /-- `UnicodeDecodeError`: the bytes of a file are no text -/
  | unicodeDecode
  /-- `csv.Error`: `csv.reader` gives up, as it does on a field beyond its size limit -/
  | csvError
  deriving Repr

/-- A check that raises `Invalid`. -/
def invalidly {α : Type} (check : Except Invalid α) : Except PyError α := check.mapError .invalid

theorem mapError_ok {α ε ε' : Type} {f : ε → ε'} {x : Except ε α} {a : α} :
    x.mapError f = .ok a ↔ x = .ok a := by
  cases x <;> simp [Except.mapError]

theorem invalidly_ok {α : Type} {check : Except Invalid α} {a : α} :
    invalidly check = .ok a ↔ check = .ok a :=
  mapError_ok

theorem invalidly_error {α : Type} {check : Except Invalid α} {e : PyError} :
    invalidly check = .error e ↔ ∃ why, check = .error why ∧ e = .invalid why := by
  cases check <;> simp [invalidly, Except.mapError, eq_comm]

/-! ## Rows -/

/-- A row of `csv.DictReader`. -/
abbrev Row := Dict Text (Option Text)

/-- `row.get(key)`. -/
def Row.get (r : Row) (key : Text) : Option Text := (r.get? key).join

/-- The row of a record: `dict(zip(fieldnames, row))`, and `None` for the fields that the
record is too short for.  What is beyond the header is stored under the key `None`, which is
no text and is never read. -/
def rowOf (header record : List Text) : Row :=
  .ofList ((header.zip record).map (fun e => (e.1, some e.2)) ++
    (header.drop record.length).map fun key => (key, none))

/-- `list(csv.DictReader(fh))` for the records that `csv.reader` reads: the first is the
header, and empty records behind it are skipped. -/
def dictReader : List (List Text) → List Row
  | [] => []
  | header :: records => (records.filter (· ≠ [])).map (rowOf header)

/-! ## Numeric fields -/

/-- `fnum`: a field as a finite float, and a positive one if asked for. -/
def fnum (round : ℚ → PyFloat) (row : Row) (key : Text) (ctx : Ctx) (positive : Bool) :
    Except Invalid PyFloat := do
  let raw ← demand (row.get key) (.missingColumn ctx key)
  let v ← demand (raw.float? round) (.malformedNumeric ctx key raw)
  require (v.isFinite = true) (.nonFinite ctx key raw)
  require (¬ (positive = true ∧ v.le (.fin 0) = true)) (.notPositive ctx key raw)
  return v

/-- `inum`: a field as an integer within bounds, the lower one included or not. -/
def inum (row : Row) (key : Text) (ctx : Ctx) (lo : ℤ) (hi : Option ℤ) (minExcl : Bool) :
    Except Invalid ℤ := do
  let raw ← demand (row.get key) (.missingColumn ctx key)
  let v ← demand raw.int? (.notAnInteger ctx key raw)
  require (¬ (v < lo ∨ minExcl = true ∧ v = lo)) (.countBelow ctx key v lo minExcl)
  require (∀ top ∈ hi, v ≤ top) (.countAbove ctx key v (hi.getD 0))
  return v

/-! ## The treatment readback -/

/-- The loop of `parse_knobs` over the entries. -/
def parseEntries (ctx : Ctx) : List Text → Dict Text ℤ → Except Invalid (Dict Text ℤ)
  | [], kv => .ok kv
  | p :: rest, kv => do
      let v ← demand (p.partition '=').2 (.unparseableKnob ctx p)
      let k := (p.partition '=').1
      require (k ∉ kv.keys) (.duplicatedKnob ctx k)
      let n ← demand v.int? (.malformedKnob ctx p)
      parseEntries ctx rest (kv.set k n)

/-- `parse_knobs`: the entries of the readback, which must be of exactly the known knobs and
each there once. -/
def parseKnobs (raw : Option Text) (ctx : Ctx) : Except Invalid (Dict Text ℤ) := do
  let raw ← demand raw (.emptyKnobs ctx)
  require (raw ≠ []) (.emptyKnobs ctx)
  let kv ← parseEntries ctx (raw.splitOn ';') .empty
  require ((∀ k ∈ kv.keys, k ∈ KNOB_KEYS) ∧ ∀ k ∈ KNOB_KEYS, k ∈ kv.keys)
    (.knobKeys ctx (Text.sorted kv.keys))
  return kv

/-- The values that the readback must have. -/
def expectedKnobs (cond : Cond) (mode : Mode) : List (Text × ℤ) :=
  let (supp, head, steal) := KNOB_EXPECT cond
  [("supp", supp), ("headwake", head), ("steal", steal), ("diag", DIAG_EXPECT mode),
    ("delay", 0), ("trig_k", 0)]

/-- `check_treatment`.  All keys are present: `parse_knobs` has seen to that. -/
def checkTreatment (kv : Dict Text ℤ) (cond : Cond) (mode : Mode) (ctx : Ctx) :
    Except Invalid Unit :=
  (expectedKnobs cond mode).forM fun e =>
    require (kv.get? e.1 = some e.2) (.mislabeled ctx e.1 (kv.get? e.1) e.2 mode)

/-! ## The raw files

The source builds a regular expression from the fields of the row.  A label is an integer at
this point, so that of the operators only `+` can occur in it, after the character that it
repeats. -/

/-- A piece of the pattern of `check_raw_ref`: a character, or one or more of it. -/
inductive Atom where
  | one (c : Char)
  | many (c : Char)

/-- The pattern that a text is.  The block label goes into the pattern as it stands; a label
denotes an integer by then, so that its sign is the only operator it can hold. -/
def atoms : Text → List Atom
  | [] => []
  | c :: '+' :: rest => .many c :: atoms rest
  | c :: rest => .one c :: atoms rest

/-- `pat.match(part)` for a pattern that ends in `$`, which also matches before a last
newline. -/
def matchAtoms : List Atom → Text → Bool
  | [], t => t = [] || t = ['\n']
  | _ :: _, [] => false
  | .one c :: rest, d :: t => c = d && matchAtoms rest t
  | .many c :: rest, d :: t => c = d && (matchAtoms rest t || matchAtoms (.many c :: rest) t)

/-- `<tool>_b<block>p<position>_<cond>.<ext>`. -/
def matchesRef (row : Row) (part : Text) : Bool :=
  let field := fun key : Text => (row.get key).getD "None"
  let name : Text := "_b" ++ field "block" ++ "p" ++ field "position" ++ "_" ++ field "cond"
  (["iperf", "sockperf"] : List Text).any fun tool =>
    ([".json", ".txt"] : List Text).any fun ext => matchAtoms (atoms (tool ++ name ++ ext)) part

/-- `check_raw_ref`. -/
def checkRawRef (row : Row) (mode : Mode) (ctx : Ctx) : Except Invalid Unit := do
  let raw := ((row.get "raw_ref").getD []).strip
  let parts := raw.splitOn ';'
  let sockperf := parts.any fun p => ("sockperf_" : Text).isPrefixOf p
  let iperf := parts.any fun p => ("iperf_" : Text).isPrefixOf p
  require (raw ≠ []) (.emptyRawRef ctx)
  parts.forM fun part => require (matchesRef row part = true) (.rawRefName ctx part)
  require (mode = .fixedload → sockperf = true) (.noSockperfRef ctx)
  require (mode = .fixedloadCpu → sockperf = false) (.sockperfRef ctx)
  require (mode = .fixedloadCpu → iperf = true) (.noIperfRef ctx)

end WgReceivePath.Analyze
