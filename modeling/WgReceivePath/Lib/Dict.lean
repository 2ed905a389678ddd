import Mathlib.Data.List.Nodup

/-!
# Insertion-ordered dictionaries

A dictionary is a list of entries with distinct keys, in the order in which the keys were
first set, as Python's `dict` is.  Setting a key that is present replaces its value in
place; setting a new key appends it.

The distinctness of the keys is a field of `Dict`, so that every dictionary has it and a
lookup is the membership of an entry (`mem_entries`).  `get?_set` and `keys_set` say all
there is about the one operation that changes a dictionary: which values it has afterwards,
and in which order its keys stand.  A program that fills a dictionary in a loop and fails on
a key that is already there appends an entry in every round (`entries_set_new`), so that in
the end the entries are the inputs in their order.
-/

/-- An insertion-ordered dictionary.  Its keys are distinct by construction; the order of
the entries is the order in which the keys were first set, and is observable through `keys`.
-/
@[ext]
structure Dict (κ ν : Type*) where
  entries : List (κ × ν)
  distinct : (entries.map Prod.fst).Nodup

namespace Dict

variable {κ ν : Type*} {k k' : κ} {v : ν}

/-- No entry. -/
def empty : Dict κ ν := ⟨[], List.nodup_nil⟩

/-- The keys, in insertion order. -/
def keys (d : Dict κ ν) : List κ := d.entries.map Prod.fst

variable [DecidableEq κ]

/-- The value at `k` in a list of entries: that of the first entry with this key.  On the
entries of a dictionary there is no other one. -/
def find (k : κ) : List (κ × ν) → Option ν
  | [] => none
  | e :: rest => if e.1 = k then some e.2 else find k rest

/-- The entries after setting `k` to `v`: in place if the key is there, at the end if it is
not. -/
def put (k : κ) (v : ν) : List (κ × ν) → List (κ × ν)
  | [] => [(k, v)]
  | e :: rest => if e.1 = k then (e.1, v) :: rest else e :: put k v rest

theorem put_keys (k : κ) (v : ν) (es : List (κ × ν)) :
    (put k v es).map Prod.fst =
      if k ∈ es.map Prod.fst then es.map Prod.fst else es.map Prod.fst ++ [k] := by
  induction es with
  | nil => simp [put]
  | cons e rest ih =>
      by_cases here : e.1 = k
      · simp [put, here]
      · rw [put, if_neg here, List.map_cons, ih]
        by_cases later : k ∈ rest.map Prod.fst
        · rw [if_pos later, if_pos (by simp [List.map_cons, later]), List.map_cons]
        · rw [if_neg later, if_neg (by simp [List.map_cons, later, Ne.symm here])]
          rfl

theorem find_put (k k' : κ) (v : ν) (es : List (κ × ν)) :
    find k' (put k v es) = if k' = k then some v else find k' es := by
  induction es with
  | nil =>
      by_cases same : k' = k
      · simp [put, find, same]
      · simp [put, find, same, Ne.symm same]
  | cons e rest ih =>
      by_cases here : e.1 = k
      · rw [put, if_pos here, find, find]
        by_cases same : k' = k
        · rw [if_pos (by rw [here, same]), if_pos same]
        · rw [if_neg (by rw [here]; exact Ne.symm same), if_neg same,
            if_neg (by rw [here]; exact Ne.symm same)]
      · rw [put, if_neg here, find, find, ih]
        by_cases first : e.1 = k'
        · rw [if_pos first, if_neg (by rw [← first]; exact here), if_pos first]
        · rw [if_neg first, if_neg first]

theorem mem_of_find {es : List (κ × ν)} (found : find k es = some v) : (k, v) ∈ es := by
  induction es with
  | nil => cases found
  | cons e rest ih =>
      rw [find] at found
      split at found
      · rename_i here
        cases found
        rw [← here]
        exact List.mem_cons_self
      · exact List.mem_cons_of_mem _ (ih found)

theorem find_of_mem {es : List (κ × ν)} (distinct : (es.map Prod.fst).Nodup)
    (mem : (k, v) ∈ es) : find k es = some v := by
  induction es with
  | nil => cases mem
  | cons e rest ih =>
      rw [List.map_cons, List.nodup_cons] at distinct
      rcases List.mem_cons.mp mem with rfl | mem
      · rw [find, if_pos rfl]
      · have other : e.1 ≠ k := by
          rintro rfl
          exact distinct.1 (List.mem_map.mpr ⟨_, mem, rfl⟩)
        rw [find, if_neg other, ih distinct.2 mem]

/-- `d.get(k)`. -/
def get? (d : Dict κ ν) (k : κ) : Option ν := find k d.entries

/-- `d[k] = v`. -/
def set (d : Dict κ ν) (k : κ) (v : ν) : Dict κ ν where
  entries := put k v d.entries
  distinct := by
    rw [put_keys]
    split
    · exact d.distinct
    · rename_i new
      exact List.nodup_append.mpr ⟨d.distinct, List.nodup_singleton k, by
        rintro a mem b memb rfl
        exact new (List.mem_singleton.mp memb ▸ mem)⟩

/-- A dictionary from entries, a later one replacing the value of an earlier one, which
keeps its place. -/
def ofList (es : List (κ × ν)) : Dict κ ν := es.foldl (fun d e => d.set e.1 e.2) empty

@[simp]
theorem get?_empty : (empty : Dict κ ν).get? k = none := rfl

theorem get?_set (d : Dict κ ν) (k k' : κ) (v : ν) :
    (d.set k v).get? k' = if k' = k then some v else d.get? k' :=
  find_put k k' v d.entries

theorem keys_set (d : Dict κ ν) (k : κ) (v : ν) :
    (d.set k v).keys = if k ∈ d.keys then d.keys else d.keys ++ [k] :=
  put_keys k v d.entries

theorem mem_keys_set {d : Dict κ ν} : k' ∈ (d.set k v).keys ↔ k' = k ∨ k' ∈ d.keys := by
  rw [keys_set]
  split
  · rename_i old
    exact ⟨.inr, fun either => either.elim (fun same => same ▸ old) id⟩
  · rw [List.mem_append, List.mem_singleton, or_comm]

theorem mem_entries (d : Dict κ ν) : (k, v) ∈ d.entries ↔ d.get? k = some v :=
  ⟨find_of_mem d.distinct, mem_of_find⟩

theorem mem_keys (d : Dict κ ν) : k ∈ d.keys ↔ ∃ v, d.get? k = some v := by
  rw [keys, List.mem_map]
  constructor
  · rintro ⟨e, mem, rfl⟩
    exact ⟨e.2, d.mem_entries.mp mem⟩
  · rintro ⟨v, found⟩
    exact ⟨(k, v), d.mem_entries.mpr found, rfl⟩

theorem get?_eq_none (d : Dict κ ν) : d.get? k = none ↔ k ∉ d.keys := by
  rw [mem_keys, Option.eq_none_iff_forall_ne_some]
  exact not_exists.symm

/-- Setting a new key appends the entry. -/
theorem entries_set_new (d : Dict κ ν) (new : k ∉ d.keys) (v : ν) :
    (d.set k v).entries = d.entries ++ [(k, v)] := by
  have go : ∀ es : List (κ × ν), k ∉ es.map Prod.fst → put k v es = es ++ [(k, v)] := by
    intro es new
    induction es with
    | nil => rfl
    | cons e rest ih =>
        rw [List.map_cons, List.mem_cons, not_or] at new
        rw [put, if_neg (Ne.symm new.1), ih new.2, List.cons_append]
  exact go d.entries new

/-- The keys of a dictionary from entries are theirs. -/
theorem mem_keys_ofList {es : List (κ × ν)} : k ∈ (ofList es).keys ↔ k ∈ es.map Prod.fst := by
  have go : ∀ (es : List (κ × ν)) (d : Dict κ ν),
      k ∈ (es.foldl (fun d e => d.set e.1 e.2) d).keys ↔ k ∈ d.keys ∨ k ∈ es.map Prod.fst := by
    intro es
    induction es with
    | nil => simp
    | cons e rest ih =>
        intro d
        rw [List.foldl_cons, ih, keys_set, List.map_cons, List.mem_cons]
        split
        · rename_i old
          constructor
          · tauto
          · rintro (here | rfl | later) <;> tauto
        · rw [List.mem_append, List.mem_singleton, or_assoc]
  rw [ofList, go]
  simp [keys, empty]

/-- A value of a dictionary from entries is one of theirs. -/
theorem mem_of_get?_ofList {es : List (κ × ν)} (found : (ofList es).get? k = some v) :
    (k, v) ∈ es := by
  have go : ∀ (es : List (κ × ν)) (d : Dict κ ν),
      (es.foldl (fun d e => d.set e.1 e.2) d).get? k = some v →
        d.get? k = some v ∨ (k, v) ∈ es := by
    intro es
    induction es with
    | nil => exact fun d found => .inl found
    | cons e rest ih =>
        intro d found
        rcases ih (d.set e.1 e.2) found with here | later
        · rw [get?_set] at here
          split at here
          · rename_i same
            cases here
            exact .inr (same ▸ List.mem_cons_self)
          · exact .inl here
        · exact .inr (List.mem_cons_of_mem e later)
  rcases go es empty found with none | mem
  · cases none
  · exact mem

end Dict
