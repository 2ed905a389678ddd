import WgReceivePath.Analyze.Gates

/-!
# What the analysis finds in an accepted artifact

The checks of one row, each as a condition on the fields that it reads.  A field that must
be a positive number is one (`checkNum_ok`), a count is a nonnegative integer
(`checkCount_ok`, `inum_ok`), the readback is the one of the condition, entry by entry
(`treatment_ok`), and the raw files carry the names of the row (`checkRawRef_ok`).
`checkRow_ok` puts these together: a row passes if and only if it is `RowOk`.

So the analysis reads every field that it looks up: `Analysis.Valid` is what it knows of its
rows, an artifact that is loaded gives a valid analysis (`loadArtifact_valid`), and the
columns of a valid analysis hold positive numbers and counts (`Analysis.Valid.num_positive`,
`Analysis.Valid.num_count`).  In particular no metric that stands in a column is zero or
infinite.
-/

namespace WgReceivePath.Analyze

variable {round : ℚ → PyFloat} {mode : Mode} {ctx : Ctx} {r : Row} {key : Text}

/-! ## One field

A field is checked as it is read, by the same conversion.  So what passes the check is what
the analysis reads later. -/

/-- The field holds a positive number.  It is finite, and the analysis reads the same one.
-/
def Row.Positive (round : ℚ → PyFloat) (r : Row) (key : Text) : Prop :=
  ∃ q : ℚ, 0 < q ∧ r.float round key = .ok (.fin q)

/-- The field holds an integer.  What is read as an integer here is read as a float by the
analysis. -/
def Row.Count (r : Row) (key : Text) (n : ℤ) : Prop :=
  ∃ raw, r.get key = some raw ∧ raw.int? = some n

theorem Row.float_ok {x : PyFloat} :
    r.float round key = .ok x ↔ ∃ raw, r.get key = some raw ∧ raw.float? round = some x := by
  simp only [Row.float, except_bind_ok, demand_ok, Row.get, Option.join_eq_some_iff]
  constructor
  · rintro ⟨field, there, raw, rfl, value⟩
    exact ⟨raw, there, value⟩
  · rintro ⟨raw, there, value⟩
    exact ⟨_, there, raw, rfl, value⟩

/-- An integer is read as the float that it rounds to. -/
theorem Row.Count.float {n : ℤ} (count : r.Count key n) : r.float round key = .ok (round n) := by
  obtain ⟨raw, field, value⟩ := count
  exact Row.float_ok.mpr ⟨raw, field, Text.float?_of_int? round value⟩

theorem checkNum_ok {u : Unit} : checkNum round r ctx key = .ok u ↔ r.Positive round key := by
  simp only [checkNum, fnum, except_bind_ok, demand_ok, require_ok, exists_const, Row.Positive,
    Row.float_ok]
  constructor
  · rintro ⟨v, ⟨raw, field, v', value, finite, positive, same⟩, -⟩
    obtain ⟨q, rfl⟩ := PyFloat.isFinite_iff.mp finite
    exact ⟨q, by simpa using positive, raw, field, value⟩
  · rintro ⟨q, positive, raw, field, value⟩
    exact ⟨.fin q, ⟨raw, field, .fin q, value, rfl, by simpa using positive, rfl⟩, rfl⟩

theorem inum_ok {lo n : ℤ} {hi : Option ℤ} {minExcl : Bool} :
    inum r key ctx lo hi minExcl = .ok n ↔
      r.Count key n ∧ lo ≤ n ∧ (minExcl = true → lo < n) ∧ ∀ top ∈ hi, n ≤ top := by
  simp only [inum, except_bind_ok, demand_ok, require_ok, exists_const, not_or, not_lt, not_and,
    Row.Count]
  constructor
  · rintro ⟨raw, field, v, value, ⟨low, above⟩, high, same⟩
    cases same
    exact ⟨⟨raw, field, value⟩, low, fun excl => lt_of_le_of_ne low (Ne.symm (above excl)), high⟩
  · rintro ⟨⟨raw, field, value⟩, low, above, high⟩
    exact ⟨raw, field, n, value, ⟨low, fun excl => (above excl).ne'⟩, high, rfl⟩

theorem inum_positive {n : ℤ} {hi : Option ℤ} :
    inum r key ctx 0 hi true = .ok n ↔ r.Count key n ∧ 0 < n ∧ ∀ top ∈ hi, n ≤ top := by
  rw [inum_ok]
  constructor
  · exact fun ⟨count, _, positive, high⟩ => ⟨count, positive rfl, high⟩
  · exact fun ⟨count, positive, high⟩ => ⟨count, positive.le, fun _ => positive, high⟩

theorem checkCount_ok {u : Unit} :
    checkCount r ctx key = .ok u ↔ ∃ n, 0 ≤ n ∧ r.Count key n := by
  simp only [checkCount, except_bind_ok, inum_ok]
  constructor
  · rintro ⟨n, ⟨count, low, -⟩, -⟩
    exact ⟨n, low, count⟩
  · rintro ⟨n, low, count⟩
    exact ⟨n, ⟨count, low, by simp⟩, rfl⟩

/-! ## The readback

The readback is a text of `key=value` entries.  The checks ask for exactly the known keys,
each once, and for their values; together that is one permutation of the expected list. -/

/-- An entry of the readback, and the value that it gives. -/
def knobEntry (p : Text) : Text × Option ℤ :=
  ((p.partition '=').1, (p.partition '=').2.bind Text.int?)

/-- The entries that are parsed are appended in order.  By induction on the entries, with
those before in the dictionary. -/
theorem parseEntries_ok {ps : List Text} {kv kv' : Dict Text ℤ} :
    parseEntries ctx ps kv = .ok kv' ↔
      ∃ es : List (Text × ℤ), ps.map knobEntry = es.map (fun e => (e.1, some e.2)) ∧
        kv'.entries = kv.entries ++ es := by
  induction ps generalizing kv with
  | nil =>
      constructor
      · intro parsed
        cases parsed
        exact ⟨[], rfl, by simp⟩
      · rintro ⟨es, none, entries⟩
        rw [List.map_nil, eq_comm, List.map_eq_nil_iff] at none
        rw [none, List.append_nil] at entries
        exact congrArg Except.ok (Dict.ext entries.symm)
  | cons p rest ih =>
      simp only [parseEntries, except_bind_ok, demand_ok, require_ok, exists_const]
      constructor
      · rintro ⟨v, value, new, n, int, parsed⟩
        obtain ⟨es, read, entries⟩ := ih.mp parsed
        refine ⟨((p.partition '=').1, n) :: es, ?_, ?_⟩
        · simp [read, knobEntry, value, int]
        · rw [entries, Dict.entries_set_new kv new, List.append_assoc]
          rfl
      · rintro ⟨es, read, entries⟩
        obtain ⟨e, es, rfl, this, later⟩ := List.map_eq_cons_iff.mp read.symm
        obtain ⟨key, given⟩ := Prod.mk.inj this
        obtain ⟨v, value, int⟩ := Option.bind_eq_some_iff.mp given.symm
        -- the keys of the result are distinct, so that this one is new
        have new : (p.partition '=').1 ∉ kv.keys := by
          have distinct := kv'.distinct
          rw [entries, List.map_append, List.map_cons] at distinct
          intro old
          exact List.disjoint_of_nodup_append distinct old (key ▸ List.mem_cons_self)
        refine ⟨v, value, new, e.2, int, ih.mpr ⟨es, later.symm, ?_⟩⟩
        rw [entries, Dict.entries_set_new kv new, List.append_assoc, ← key]
        rfl

theorem expectedKnobs_keys (cond : Cond) (mode : Mode) :
    (expectedKnobs cond mode).map Prod.fst = KNOB_KEYS := by
  cases cond <;> rfl

theorem KNOB_KEYS_nodup : KNOB_KEYS.Nodup := by decide

/-- The readback is, entry by entry, the one that a condition prescribes, in some order. -/
def Readback (mode : Mode) (c : Cond) (r : Row) : Prop :=
  ∃ raw, r.get "knobs" = some raw ∧ ((raw.splitOn ';').map knobEntry).Perm
    ((expectedKnobs c mode).map fun e => (e.1, some e.2))

/-- A dictionary has the expected values if its entries are the expected ones, in some order. -/
theorem entries_perm_expected {kv : Dict Text ℤ} {c : Cond} :
    kv.entries.Perm (expectedKnobs c mode) ↔
      ((∀ k ∈ kv.keys, k ∈ KNOB_KEYS) ∧ ∀ k ∈ KNOB_KEYS, k ∈ kv.keys) ∧
        ∀ e ∈ expectedKnobs c mode, kv.get? e.1 = some e.2 := by
  constructor
  · intro perm
    have keys : kv.keys.Perm KNOB_KEYS := expectedKnobs_keys c mode ▸ perm.map Prod.fst
    exact ⟨⟨fun k mem => keys.mem_iff.mp mem, fun k mem => keys.mem_iff.mpr mem⟩,
      fun e mem => kv.mem_entries.mp (perm.mem_iff.mpr mem)⟩
  · rintro ⟨⟨known, -⟩, expected⟩
    -- both are lists of distinct keys, and each has the entries of the other
    refine (List.perm_ext_iff_of_nodup kv.distinct.of_map
      (.of_map Prod.fst (expectedKnobs_keys c mode ▸ KNOB_KEYS_nodup))).mpr fun e => ?_
    constructor
    · intro mem
      have key : e.1 ∈ (expectedKnobs c mode).map Prod.fst := by
        rw [expectedKnobs_keys]
        exact known _ (List.mem_map_of_mem mem)
      obtain ⟨e', mem', same⟩ := List.mem_map.mp key
      have value := expected e' mem'
      rw [same, kv.mem_entries.mp mem] at value
      rwa [show e = e' from Prod.ext same.symm (Option.some.inj value)]
    · exact fun mem => kv.mem_entries.mpr (expected e mem)

/-- `parse_knobs` and `check_treatment` accept the readback of the condition, and no other.
The knobs may stand in any order. -/
theorem treatment_ok : (∃ kv, parseKnobs (r.get "knobs") ctx = .ok kv ∧
    checkTreatment kv ctx.cond mode ctx = .ok ()) ↔ Readback mode ctx.cond r := by
  have pairs : Function.Injective fun e : Text × ℤ => (e.1, some e.2) := by
    rintro ⟨k, n⟩ ⟨k', n'⟩ same
    simpa using same
  simp only [parseKnobs, checkTreatment, except_bind_ok, demand_ok, require_ok, forM_ok,
    exists_const, parseEntries_ok]
  constructor
  · rintro ⟨kv, ⟨raw, field, -, kv', ⟨es, read, entries⟩, keys, same⟩, treated⟩
    cases same
    have entries : kv.entries = es := entries
    refine ⟨raw, field, ?_⟩
    rw [read, ← entries]
    exact (entries_perm_expected.mpr ⟨keys, treated⟩).map _
  · rintro ⟨raw, field, perm⟩
    obtain ⟨es, read⟩ : ∃ es : List (Text × ℤ), es.map (fun e => (e.1, some e.2)) =
        (raw.splitOn ';').map knobEntry := by
      rw [← Set.mem_range, Set.range_list_map]
      intro entry mem
      obtain ⟨e, -, same⟩ := List.mem_map.mp (perm.mem_iff.mp mem)
      exact ⟨e, same⟩
    rw [← read, List.map_perm_map_iff pairs] at perm
    have distinct : (es.map Prod.fst).Nodup := by
      rw [(perm.map Prod.fst).nodup_iff, expectedKnobs_keys]
      exact KNOB_KEYS_nodup
    have entries : (⟨es, distinct⟩ : Dict Text ℤ).entries.Perm (expectedKnobs ctx.cond mode) := perm
    obtain ⟨keys, treated⟩ := entries_perm_expected.mp entries
    refine ⟨⟨es, distinct⟩, ⟨raw, field, ?_, _, ⟨es, read.symm, rfl⟩, keys, rfl⟩, treated⟩
    -- an empty readback has one entry
    rintro rfl
    have one := congrArg List.length read
    have six := perm.length_eq
    rw [List.length_map, List.length_map] at one
    have keys := congrArg List.length (expectedKnobs_keys ctx.cond mode)
    rw [List.length_map, ← six, one] at keys
    exact absurd keys (by decide)

/-! ## The raw files -/

/-- What `check_raw_ref` asks of a row: file names that carry its own block, position and
condition, one of `sockperf` if and only if the mode has a latency probe, and in CPU-only mode one
of `iperf`. -/
structure RawRef (mode : Mode) (r : Row) : Prop where
  present : ((r.get "raw_ref").getD []).strip ≠ []
  names : ∀ part ∈ ((r.get "raw_ref").getD []).strip.splitOn ';', matchesRef r part = true
  probe : mode = .fixedload →
    ∃ part ∈ ((r.get "raw_ref").getD []).strip.splitOn ';', ("sockperf_" : Text) <+: part
  noProbe : mode = .fixedloadCpu →
    ∀ part ∈ ((r.get "raw_ref").getD []).strip.splitOn ';', ¬ ("sockperf_" : Text) <+: part
  load : mode = .fixedloadCpu →
    ∃ part ∈ ((r.get "raw_ref").getD []).strip.splitOn ';', ("iperf_" : Text) <+: part

theorem checkRawRef_ok : checkRawRef r mode ctx = .ok () ↔ RawRef mode r := by
  simp only [checkRawRef, except_bind_ok, require_ok, forM_ok, exists_const, List.any_eq_true,
    List.any_eq_false, List.isPrefixOf_iff_prefix]
  constructor
  · rintro ⟨present, names, probe, noProbe, load⟩
    exact ⟨present, names, probe, noProbe, load⟩
  · rintro ⟨present, names, probe, noProbe, load⟩
    exact ⟨present, names, probe, noProbe, load⟩

/-! ## One row

The checks of a row, in terms of the fields alone.  They do not depend on where the row
stands, except that the condition is the one under which it is entered in the table. -/

/-- The columns that must hold positive numbers. -/
def numColumns (mode : Mode) : List Text :=
  (["softirq_ce", "system_ce", "total_busy_ce"] : List Text) ++
  match mode with
  | .confirm => (["gbps"] : List Text)
  | .fixedloadCpu => ["load_window_gbps", "load_iperf_gbps", "window_s", "ping_ms"]
  | .fixedload =>
      ["load_window_gbps", "lat_duration_s", "p50_half_rtt_us", "p90_half_rtt_us",
        "p99_half_rtt_us", "p999_half_rtt_us"]

/-- The columns that must hold nonnegative integers. -/
def countColumns : Mode → List Text
  | .confirm => []
  | .fixedloadCpu =>
      ["retransmits", "hs_age_s", "dmesg_new", "unc_n", "unc_total_ns", "steal_pulled",
        "steal_unblocked", "steal_dryruns"]
  | .fixedload => ["valid_sent_msgs", "valid_dropped_msgs", "lat_n"]

/-- The message counts of a row with a latency probe, each bounded by what it is a part of. -/
def Messages (r : Row) : Prop :=
  ∃ totalSent totalRecv sent recv dropped lat : ℤ,
    (r.Count "total_run_sent_msgs" totalSent ∧ 0 < totalSent) ∧
    (r.Count "total_run_recv_msgs" totalRecv ∧ 0 < totalRecv ∧ totalRecv ≤ totalSent) ∧
    (r.Count "valid_sent_msgs" sent ∧ 0 < sent) ∧
    (r.Count "valid_recv_msgs" recv ∧ 0 < recv ∧ recv ≤ sent) ∧
    (r.Count "valid_dropped_msgs" dropped ∧ 0 ≤ dropped ∧ dropped ≤ sent) ∧
    (∃ n, 0 ≤ n ∧ r.Count "valid_dup_msgs" n) ∧ (∃ n, 0 ≤ n ∧ r.Count "valid_ooo_msgs" n) ∧
    r.Count "lat_n" lat ∧ 0 < lat ∧ lat ≤ recv

/-- **What the checks ask of a row**, field by field. -/
structure RowOk (round : ℚ → PyFloat) (mode : Mode) (c : Cond) (r : Row) : Prop where
  readback : Readback mode c r
  files : RawRef mode r
  numbers : ∀ key ∈ numColumns mode, r.Positive round key
  counts : ∀ key ∈ countColumns mode, ∃ n, 0 ≤ n ∧ r.Count key n
  marker : mode = .fixedloadCpu →
    r.get "cpu_only" = some "1" ∧ r.get "probe_mode" = some "none"
  messages : mode = .fixedload → Messages r

theorem Messages.counts (messages : Messages r) :
    ∀ key ∈ countColumns .fixedload, ∃ n, 0 ≤ n ∧ r.Count key n := by
  obtain ⟨-, -, sent, -, dropped, lat, -, -, ⟨sentCount, something⟩, -, ⟨dropCount, nonneg, -⟩, -,
    -, latCount, sampled, -⟩ := messages
  simp only [countColumns, List.forall_mem_cons, List.not_mem_nil, false_imp_iff, implies_true,
    and_true]
  exact ⟨⟨sent, something.le, sentCount⟩, ⟨dropped, nonneg, dropCount⟩,
    ⟨lat, sampled.le, latCount⟩⟩

/-- The fields of a row with a latency probe, in the order in which they are checked: the load,
the messages, the quantiles.  The bound of a count is the count before it, so that the checks
are taken one by one. -/
theorem checkFields_fixedload :
    checkFields round .fixedload ctx r = .ok () ↔
      (∀ key ∈ (["load_window_gbps", "lat_duration_s"] : List Text), r.Positive round key) ∧
      Messages r ∧
      ∀ key ∈ (["p50_half_rtt_us", "p90_half_rtt_us", "p99_half_rtt_us",
        "p999_half_rtt_us"] : List Text), r.Positive round key := by
  simp only [checkFields, except_bind_ok, forM_ok, exists_const, checkNum_ok, checkCount_ok,
    inum_positive]
  simp only [inum_ok]
  constructor
  · rintro ⟨loads, totalSent, ⟨count, positive, -⟩, totalRecv, ⟨count', positive', top⟩, sent,
      ⟨sentCount, something, -⟩, recv, ⟨recvCount, arrived, below⟩, dropped,
      ⟨dropCount, nonneg, -, lost⟩, dup, ooo, lat, ⟨latCount, sampled, bound⟩, tails⟩
    exact ⟨loads, ⟨totalSent, totalRecv, sent, recv, dropped, lat, ⟨count, positive⟩,
      ⟨count', positive', top _ rfl⟩, ⟨sentCount, something⟩, ⟨recvCount, arrived, below _ rfl⟩,
      ⟨dropCount, nonneg, lost _ rfl⟩, dup, ooo, latCount, sampled, bound _ rfl⟩, tails⟩
  · rintro ⟨loads, ⟨totalSent, totalRecv, sent, recv, dropped, lat, ⟨count, positive⟩,
      ⟨count', positive', top⟩, ⟨sentCount, something⟩, ⟨recvCount, arrived, below⟩,
      ⟨dropCount, nonneg, lost⟩, dup, ooo, latCount, sampled, bound⟩, tails⟩
    exact ⟨loads, totalSent, ⟨count, positive, by simp⟩, totalRecv,
      ⟨count', positive', by simpa using top⟩, sent, ⟨sentCount, something, by simp⟩, recv,
      ⟨recvCount, arrived, by simpa using below⟩, dropped,
      ⟨dropCount, nonneg, by simp, by simpa using lost⟩, dup, ooo, lat,
      ⟨latCount, sampled, by simpa using bound⟩, tails⟩

/-- The fields that only one mode has, together with the numbers that all have.  The cases
are the modes. -/
theorem checkFields_ok :
    ((∀ key ∈ (["softirq_ce", "system_ce", "total_busy_ce"] : List Text), r.Positive round key) ∧
      checkFields round mode ctx r = .ok ()) ↔
    (∀ key ∈ numColumns mode, r.Positive round key) ∧
      (∀ key ∈ countColumns mode, ∃ n, 0 ≤ n ∧ r.Count key n) ∧
      (mode = .fixedloadCpu → r.get "cpu_only" = some "1" ∧ r.get "probe_mode" = some "none") ∧
      (mode = .fixedload → Messages r) := by
  unfold numColumns
  rw [List.forall_mem_append, and_assoc]
  refine and_congr_right fun _ => ?_
  cases mode with
  | confirm => simp [checkFields, checkNum_ok, countColumns]
  | fixedloadCpu =>
      simp only [checkFields, except_bind_ok, require_ok, forM_ok, exists_const, checkNum_ok,
        checkCount_ok, countColumns]
      simp only [reduceCtorEq, false_imp_iff, true_imp_iff, and_true]
      constructor
      · rintro ⟨marker, probe, numbers, counts⟩
        exact ⟨numbers, counts, marker, probe⟩
      · rintro ⟨numbers, counts, marker, probe⟩
        exact ⟨marker, probe, numbers, counts⟩
  | fixedload =>
      have columns : (∀ key ∈ (["load_window_gbps", "lat_duration_s", "p50_half_rtt_us",
          "p90_half_rtt_us", "p99_half_rtt_us", "p999_half_rtt_us"] : List Text),
          r.Positive round key) ↔
        (∀ key ∈ (["load_window_gbps", "lat_duration_s"] : List Text), r.Positive round key) ∧
          ∀ key ∈ (["p50_half_rtt_us", "p90_half_rtt_us", "p99_half_rtt_us",
            "p999_half_rtt_us"] : List Text), r.Positive round key := by
        rw [← List.forall_mem_append]
        rfl
      rw [checkFields_fixedload, columns]
      constructor
      · rintro ⟨loads, messages, tails⟩
        exact ⟨⟨loads, tails⟩, messages.counts, by simp, fun _ => messages⟩
      · rintro ⟨⟨loads, tails⟩, -, -, messages⟩
        exact ⟨loads, messages rfl, tails⟩

/-- **A row passes its checks if and only if it is `RowOk`.** -/
theorem checkRow_ok : checkRow round mode ctx r = .ok () ↔ RowOk round mode ctx.cond r := by
  have parts : checkRow round mode ctx r = .ok () ↔
      (∃ kv, parseKnobs (r.get "knobs") ctx = .ok kv ∧
        checkTreatment kv ctx.cond mode ctx = .ok ()) ∧ checkRawRef r mode ctx = .ok () ∧
      (∀ key ∈ (["softirq_ce", "system_ce", "total_busy_ce"] : List Text),
        checkNum round r ctx key = .ok ()) ∧ checkFields round mode ctx r = .ok () := by
    simp only [checkRow, except_bind_ok, forM_ok]
    constructor
    · rintro ⟨kv, parsed, ⟨⟩, treated, ⟨⟩, files, ⟨⟩, numbers, fields⟩
      exact ⟨⟨kv, parsed, treated⟩, files, numbers, fields⟩
    · rintro ⟨⟨kv, parsed, treated⟩, files, numbers, fields⟩
      exact ⟨kv, parsed, (), treated, (), files, (), numbers, fields⟩
  simp only [parts, treatment_ok, checkRawRef_ok, checkNum_ok]
  rw [checkFields_ok]
  constructor
  · rintro ⟨readback, files, numbers, counts, marker, messages⟩
    exact ⟨readback, files, numbers, counts, marker, messages⟩
  · rintro ⟨readback, files, numbers, counts, marker, messages⟩
    exact ⟨readback, files, numbers, counts, marker, messages⟩

/-! ## The analysis of an accepted artifact

What the analysis relies on.  It looks rows up by block and condition, and every such row is
there and has passed. -/

/-- The rows of the analysis are those of its blocks, and they have passed their checks.
There is at least one block, so that means exist. -/
structure Analysis.Valid (an : Analysis) : Prop where
  some : an.blocks ≠ []
  rows : ∀ b ∈ an.blocks, ∀ c, ∃ r, an.table.get? (.some b, c) = .some r ∧
    checkRow an.round an.mode ⟨.some b, c⟩ r = .ok ()
  entries : ∀ e ∈ an.table.entries, checkRow an.round an.mode ⟨e.1.1, e.1.2⟩ e.2 = .ok ()

theorem loadArtifact_valid {env : Env} {path : Text} {flag : Option Text}
    {blocksOverride : Option ℤ} {cpuOnly : Bool} {art : Artifact} (target : PyFloat)
    (loaded : loadArtifact env path flag blocksOverride cpuOnly = .ok art) :
    (art.analysis env.round target).Valid := by
  obtain ⟨records, -, identified, accepted, -⟩ := loadArtifact_ok.mp loaded
  refine ⟨?_, fun b mem c => ?_, accepted.rows⟩
  · -- a row is in a block
    obtain ⟨r, row⟩ := List.exists_mem_of_ne_nil _ (identify_ok.mp identified).ne_nil
    rw [← (buildTable_ok accepted.built).rows] at row
    obtain ⟨e, entry, -⟩ := List.mem_map.mp row
    obtain ⟨t, mem, -⟩ := accepted.mem_keys.mp
      (List.mem_map_of_mem entry : (e.1.1, e.1.2) ∈ art.table.keys)
    exact List.ne_nil_of_mem mem
  · obtain ⟨r, found⟩ :=
      art.table.mem_keys.mp (accepted.mem_keys.mpr ⟨b, mem, rfl⟩ : (some b, c) ∈ _)
    exact ⟨r, found, accepted.rows _ (art.table.mem_entries.mpr found)⟩

theorem Analysis.num_of_row {an : Analysis} {b : Text} {c : Cond} {x : PyFloat}
    (found : an.table.get? (some b, c) = some r) (value : r.float an.round key = .ok x) :
    an.num b c key = .ok x := by
  simp only [Analysis.num, Analysis.row, except_bind_ok, demand_ok]
  exact ⟨r, found, value⟩

namespace Analysis.Valid

variable {an : Analysis} (valid : an.Valid)

include valid

/-- The analysis reads a positive number wherever one must stand. -/
theorem num_positive {b : Text} (mem : b ∈ an.blocks) (c : Cond)
    (column : key ∈ numColumns an.mode) : ∃ q : ℚ, 0 < q ∧ an.num b c key = .ok (.fin q) := by
  obtain ⟨r, found, passed⟩ := valid.rows b mem c
  obtain ⟨q, positive, value⟩ := (checkRow_ok.mp passed).numbers _ column
  exact ⟨q, positive, Analysis.num_of_row found value⟩

/-- The analysis reads a count wherever one must stand. -/
theorem num_count {b : Text} (mem : b ∈ an.blocks) (c : Cond)
    (column : key ∈ countColumns an.mode) : ∃ n : ℤ, 0 ≤ n ∧ an.num b c key = .ok (an.round n) := by
  obtain ⟨r, found, passed⟩ := valid.rows b mem c
  obtain ⟨n, nonneg, count⟩ := (checkRow_ok.mp passed).counts _ column
  exact ⟨n, nonneg, Analysis.num_of_row found count.float⟩

/-- Something was sent in every row with a latency probe. -/
theorem num_sent (legacy : an.mode = .fixedload) {b : Text} (mem : b ∈ an.blocks) (c : Cond) :
    ∃ n : ℤ, 0 < n ∧ an.num b c "valid_sent_msgs" = .ok (an.round n) := by
  obtain ⟨r, found, passed⟩ := valid.rows b mem c
  obtain ⟨_, _, n, _, _, _, -, -, ⟨count, positive⟩, -⟩ := (checkRow_ok.mp passed).messages legacy
  exact ⟨n, positive, Analysis.num_of_row found count.float⟩

end Analysis.Valid

/-! ## Exact values -/

/-- The exact number that a field of a row denotes; zero if it denotes none. -/
def fieldValue (table : Table) (b : Text) (c : Cond) (key : Text) : ℚ :=
  match ((table.get? (some b, c)).bind fun r => r.get key).bind (Text.float? .fin) with
  | some (.fin q) => q
  | _ => 0

theorem fieldValue_eq {an : Analysis} (exact : an.round = .fin) {b : Text} {c : Cond} {q : ℚ}
    (value : an.num b c key = .ok (.fin q)) : fieldValue an.table b c key = q := by
  simp only [Analysis.num, Analysis.row, Row.float, except_bind_ok, demand_ok] at value
  obtain ⟨r, found, field, there, raw, rfl, number⟩ := value
  rw [exact] at number
  simp [fieldValue, found, Row.get, there, number]

end WgReceivePath.Analyze
