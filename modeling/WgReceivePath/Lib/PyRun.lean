import Mathlib.Data.List.Basic

/-!
# Computations that raise and print

A Python function that checks its input is a computation in `Except ε`: it returns or
raises.  A function that reports is one in `Printing ℓ ε`: it prints lines, and the lines
stay printed when it raises afterwards.

## Checks

`require` and `demand` are the checks of `Except ε`, and `List.forM` is a loop of checks: it
passes if every check does (`forM_ok`), and raises what the first failing one raises
(`forM_error`).  A loop that collects results is `List.mapM'` (`mapM'_ok`,
`mapM'_returns_iff`).  All of these rules are equivalences where they can be, so that a
chain of checks is turned into the conjunction of what it tests by rewriting.  `returnsWith`
tests by evaluation what a computation returns.

## Printing

A line of a sequence is a line of its first part, or, if that returned, one of the rest
(`mem_bind_lines`), and a sequence returns if both parts do (`bind_result_ok`).  `All`
(every line satisfies a predicate) and `Returns` have a rule for each way to build such a
computation, and a proof about a reporting function follows its text by these rules.  Where
all rounds of a loop are known, `mapM'_of_eq` gives its lines and its results at once.
-/

section Checks

variable {α ε : Type} {f : α → Except ε Unit} {xs : List α}

/-- `if not ok: raise e`.  The condition is a decidable proposition, so that it can be
rewritten by what is proved about it. -/
def require (ok : Prop) [Decidable ok] (e : ε) : Except ε Unit := if ok then .ok () else .error e

/-- The value, or `raise e`: a lookup or a conversion whose failure is an error. -/
def demand (value : Option α) (e : ε) : Except ε α :=
  match value with
  | none => .error e
  | some a => .ok a

theorem require_ok {ok : Prop} [Decidable ok] {e : ε} {u : Unit} :
    require ok e = .ok u ↔ ok := by
  unfold require
  split <;> simp [*]

theorem demand_ok {value : Option α} {e : ε} {a : α} :
    demand value e = .ok a ↔ value = some a := by
  cases value <;> simp [demand]

/-- A sequence returns if both parts do.  Rewriting with it turns a `do` block of checks
into the results of its lines. -/
theorem except_bind_ok {β : Type} {x : Except ε α} {g : α → Except ε β} {b : β} :
    x >>= g = .ok b ↔ ∃ a, x = .ok a ∧ g a = .ok b := by
  cases x with
  | error e => simp [bind, Except.bind]
  | ok a => simp [bind, Except.bind]

/-- A sequence whose first part returns. -/
theorem ok_bind {β : Type} {a : α} {g : α → Except ε β} : (Except.ok a >>= g) = g a := rfl

/-- A sequence raises what its first part raises, or else what the second does. -/
theorem except_bind_error {β : Type} {x : Except ε α} {g : α → Except ε β} {e : ε} :
    x >>= g = .error e ↔ x = .error e ∨ ∃ a, x = .ok a ∧ g a = .error e := by
  cases x with
  | error e' => simp [bind, Except.bind]
  | ok a => simp [bind, Except.bind]

/-- A loop of checks passes if all of them do. -/
theorem forM_ok {u : Unit} : xs.forM f = .ok u ↔ ∀ x ∈ xs, f x = .ok () := by
  induction xs with
  | nil => exact ⟨fun _ => by simp, fun _ => rfl⟩
  | cons x rest ih =>
      rw [List.forall_mem_cons, ← ih]
      change (f x >>= fun _ => rest.forM f) = _ ↔ _
      cases f x with
      | error e => simp [bind, Except.bind]
      | ok u => simp [bind, Except.bind]

/-- A loop of checks raises what the first failing one raises: there is an element whose
check raises it, and the checks of all elements before it have passed. -/
theorem forM_error {e : ε} : xs.forM f = .error e ↔
    ∃ before x after, xs = before ++ x :: after ∧ (∀ y ∈ before, f y = .ok ()) ∧
      f x = .error e := by
  induction xs with
  | nil =>
      constructor
      · intro raised
        cases raised
      · rintro ⟨before, x, after, split, -⟩
        cases before <;> cases split
  | cons x rest ih =>
      change (f x >>= fun _ => rest.forM f) = _ ↔ _
      cases first : f x with
      | error e' =>
          constructor
          · intro raised
            cases raised
            exact ⟨[], x, rest, rfl, by simp, first⟩
          · rintro ⟨_ | ⟨y, before⟩, z, after, split, passed, raised⟩
            · cases split
              exact first.symm.trans raised
            · cases split
              rw [passed x List.mem_cons_self] at first
              cases first
      | ok u =>
          rw [show ((Except.ok u : Except ε Unit) >>= fun _ => rest.forM f) = rest.forM f from rfl,
            ih]
          constructor
          · rintro ⟨before, z, after, rfl, passed, raised⟩
            exact ⟨x :: before, z, after, rfl, List.forall_mem_cons.mpr ⟨first, passed⟩, raised⟩
          · rintro ⟨_ | ⟨y, before⟩, z, after, split, passed, raised⟩
            · cases split
              rw [first] at raised
              cases raised
            · cases split
              exact ⟨before, z, after, rfl, (List.forall_mem_cons.mp passed).2, raised⟩

/-- A loop that collects results returns if all rounds do. -/
theorem mapM'_ok {β : Type} {g : α → Except ε β} {ys : List β} :
    xs.mapM' g = .ok ys ↔ xs.map g = ys.map .ok := by
  induction xs generalizing ys with
  | nil =>
      rw [List.mapM'_nil, List.map_nil, eq_comm (a := []), List.map_eq_nil_iff]
      change Except.ok [] = _ ↔ _
      rw [Except.ok.injEq, eq_comm]
  | cons x rest ih =>
      simp only [List.mapM'_cons, except_bind_ok, List.map_cons, ih]
      cases ys with
      | nil => simp [pure, Except.pure]
      | cons y ys => simp [pure, Except.pure]

/-- A loop whose rounds all return, and what is known of all results if it is known of each. -/
theorem mapM'_returns_iff {β : Type} {g : α → Except ε β} {N : β → Prop} {P : α → Prop}
    (rounds : ∀ x ∈ xs, ∃ y, g x = .ok y ∧ (N y ↔ P x)) :
    ∃ ys, xs.mapM' g = .ok ys ∧ ys.length = xs.length ∧ ((∀ y ∈ ys, N y) ↔ ∀ x ∈ xs, P x) := by
  induction xs with
  | nil => exact ⟨[], rfl, rfl, by simp⟩
  | cons x rest ih =>
      obtain ⟨y, first, here⟩ := rounds x List.mem_cons_self
      obtain ⟨ys, others, length, later⟩ := ih fun z mem => rounds z (List.mem_cons_of_mem x mem)
      refine ⟨y :: ys, ?_, by simp [length], ?_⟩
      · rw [List.mapM'_cons, first, ok_bind, others, ok_bind]
        rfl
      · rw [List.forall_mem_cons, List.forall_mem_cons, here, later]

theorem mapM'_returns {β : Type} {g : α → Except ε β} (rounds : ∀ x ∈ xs, ∃ y, g x = .ok y) :
    ∃ ys, xs.mapM' g = .ok ys ∧ ys.length = xs.length := by
  obtain ⟨ys, returned, length, -⟩ := mapM'_returns_iff (N := fun _ => True) (P := fun _ => True)
    fun x mem => (rounds x mem).imp fun _ round => ⟨round, Iff.rfl⟩
  exact ⟨ys, returned, length⟩

/-- A loop that collects results raises what one of its rounds raises. -/
theorem mapM'_error {β : Type} {g : α → Except ε β} {e : ε} (raised : xs.mapM' g = .error e) :
    ∃ x ∈ xs, g x = .error e := by
  induction xs with
  | nil => cases raised
  | cons x rest ih =>
      rw [List.mapM'_cons] at raised
      cases first : g x with
      | error e' =>
          rw [first] at raised
          cases raised
          exact ⟨x, List.mem_cons_self, first⟩
      | ok y =>
          cases later : rest.mapM' g with
          | error e' =>
              rw [first, later] at raised
              cases raised
              obtain ⟨z, mem, raised⟩ := ih later
              exact ⟨z, List.mem_cons_of_mem x mem, raised⟩
          | ok ys =>
              rw [first, later] at raised
              cases raised

/-- The computation returns, and what it returns passes a test.  It is a Boolean, for
evaluating a concrete call. -/
def returnsWith (x : Except ε α) (test : α → Bool) : Bool :=
  match x with
  | .ok a => test a
  | .error _ => false

theorem exists_of_returnsWith {x : Except ε α} {test : α → Bool}
    (tested : returnsWith x test = true) : ∃ a, x = .ok a ∧ test a = true := by
  cases x with
  | error e => cases tested
  | ok a => exact ⟨a, rfl, tested⟩

end Checks

/-- A computation that prints lines and may raise.  The lines are kept whatever the result
is. -/
structure Printing (ℓ ε α : Type) where
  lines : List ℓ
  result : Except ε α

namespace Printing

variable {ℓ ε α β : Type}

instance : Monad (Printing ℓ ε) where
  pure a := ⟨[], .ok a⟩
  bind x f :=
    match x.result with
    | .error e => ⟨x.lines, .error e⟩
    | .ok a => ⟨x.lines ++ (f a).lines, (f a).result⟩

/-- `print`. -/
def emit (l : ℓ) : Printing ℓ ε Unit := ⟨[l], .ok ()⟩

/-- A computation that prints nothing. -/
def eval (e : Except ε α) : Printing ℓ ε α := ⟨[], e⟩

variable {x : Printing ℓ ε α} {f : α → Printing ℓ ε β} {l : ℓ} {a : α} {b : β}

@[simp] theorem pure_lines : (pure a : Printing ℓ ε α).lines = [] := rfl

@[simp] theorem pure_result : (pure a : Printing ℓ ε α).result = .ok a := rfl

@[simp] theorem emit_lines : (emit l : Printing ℓ ε Unit).lines = [l] := rfl

@[simp] theorem emit_result : (emit l : Printing ℓ ε Unit).result = .ok () := rfl

@[simp] theorem eval_lines (e : Except ε α) : (eval e : Printing ℓ ε α).lines = [] := rfl

@[simp] theorem eval_result (e : Except ε α) : (eval e : Printing ℓ ε α).result = e := rfl

/-- A sequence whose first part returns. -/
theorem bind_of_ok (returned : x.result = .ok a) :
    x >>= f = ⟨x.lines ++ (f a).lines, (f a).result⟩ := by
  change (match x.result with
    | .error e => ⟨x.lines, .error e⟩
    | .ok a => ⟨x.lines ++ (f a).lines, (f a).result⟩ : Printing ℓ ε β) = _
  rw [returned]

theorem done_bind {ls : List ℓ} :
    (⟨ls, .ok a⟩ : Printing ℓ ε α) >>= f = ⟨ls ++ (f a).lines, (f a).result⟩ := rfl

theorem eval_ok_bind : (eval (.ok a) : Printing ℓ ε α) >>= f = f a := rfl

theorem emit_bind {g : Unit → Printing ℓ ε β} :
    emit l >>= g = ⟨l :: (g ()).lines, (g ()).result⟩ := rfl

theorem bind_of_error {e : ε} (raised : x.result = .error e) :
    x >>= f = ⟨x.lines, .error e⟩ := by
  change (match x.result with
    | .error e => ⟨x.lines, .error e⟩
    | .ok a => ⟨x.lines ++ (f a).lines, (f a).result⟩ : Printing ℓ ε β) = _
  rw [raised]

theorem mem_bind_lines :
    l ∈ (x >>= f).lines ↔ l ∈ x.lines ∨ ∃ a, x.result = .ok a ∧ l ∈ (f a).lines := by
  cases returned : x.result with
  | error e => simp [bind_of_error returned]
  | ok a => simp [bind_of_ok returned]

theorem bind_result_ok :
    (x >>= f).result = .ok b ↔ ∃ a, x.result = .ok a ∧ (f a).result = .ok b := by
  cases returned : x.result with
  | error e => simp [bind_of_error returned]
  | ok a => simp [bind_of_ok returned]

/-- A line of a loop is a line of one of its rounds. -/
theorem exists_of_mem_mapM' {xs : List α} (mem : l ∈ (xs.mapM' f).lines) :
    ∃ a ∈ xs, l ∈ (f a).lines := by
  induction xs with
  | nil => cases mem
  | cons x rest ih =>
      rw [List.mapM'_cons, mem_bind_lines] at mem
      rcases mem with here | ⟨y, -, later⟩
      · exact ⟨x, List.mem_cons_self, here⟩
      · rw [mem_bind_lines] at later
        rcases later with later | ⟨ys, -, last⟩
        · obtain ⟨a, mem, line⟩ := ih later
          exact ⟨a, List.mem_cons_of_mem x mem, line⟩
        · cases last

/-- A loop whose rounds all return. -/
theorem map_mapM'_of_eq {γ : Type} {xs : List γ} {h : γ → α} {ls : γ → List ℓ} {g : γ → β}
    (rounds : ∀ c ∈ xs, f (h c) = ⟨ls c, .ok (g c)⟩) :
    (xs.map h).mapM' f = ⟨xs.flatMap ls, .ok (xs.map g)⟩ := by
  induction xs with
  | nil => rfl
  | cons x rest ih =>
      have first := rounds x List.mem_cons_self
      have others := ih fun c mem => rounds c (List.mem_cons_of_mem x mem)
      rw [List.map_cons, List.mapM'_cons, first, done_bind, others, done_bind]
      simp

theorem mapM'_of_eq {xs : List α} {ls : α → List ℓ} {g : α → β}
    (rounds : ∀ a ∈ xs, f a = ⟨ls a, .ok (g a)⟩) :
    xs.mapM' f = ⟨xs.flatMap ls, .ok (xs.map g)⟩ := by
  simpa using map_mapM'_of_eq (h := fun a => a) rounds

/-! ### What holds of all lines

A predicate on lines goes along with the text of a function, and whether the function
returns does not matter. -/

/-- All lines of the computation satisfy `P`, whether it returns or raises. -/
def All (P : ℓ → Prop) (x : Printing ℓ ε α) : Prop := ∀ l ∈ x.lines, P l

namespace All

variable {P : ℓ → Prop}

theorem pure (a : α) : All P (Pure.pure a : Printing ℓ ε α) := by simp [All]

theorem emit (here : P l) : All P (Printing.emit l : Printing ℓ ε Unit) := by simpa [All] using here

theorem eval (e : Except ε α) : All P (Printing.eval e : Printing ℓ ε α) := by simp [All]

theorem bind (first : All P x) (rest : ∀ a, x.result = .ok a → All P (f a)) :
    All P (x >>= f) := by
  intro l mem
  rcases mem_bind_lines.mp mem with here | ⟨a, returned, later⟩
  · exact first l here
  · exact rest a returned l later

theorem mapM' {xs : List α} (rounds : ∀ a ∈ xs, All P (f a)) : All P (xs.mapM' f) := by
  intro l mem
  obtain ⟨a, inside, line⟩ := exists_of_mem_mapM' mem
  exact rounds a inside l line

end All

/-! ### What returns

A loop returns if every round does, and a sequence if both parts do. -/

/-- The computation returns; it may print before that. -/
def Returns (x : Printing ℓ ε α) : Prop := ∃ a, x.result = .ok a

namespace Returns

theorem pure (a : α) : Returns (Pure.pure a : Printing ℓ ε α) := ⟨a, rfl⟩

theorem emit (l : ℓ) : Returns (Printing.emit l : Printing ℓ ε Unit) := ⟨(), rfl⟩

theorem eval {e : Except ε α} (returned : ∃ a, e = .ok a) :
    Returns (Printing.eval e : Printing ℓ ε α) := returned

theorem bind (first : Returns x) (rest : ∀ a, x.result = .ok a → Returns (f a)) :
    Returns (x >>= f) := by
  obtain ⟨a, returned⟩ := first
  obtain ⟨b, later⟩ := rest a returned
  exact ⟨b, bind_result_ok.mpr ⟨a, returned, later⟩⟩

theorem mapM' {xs : List α} (rounds : ∀ a ∈ xs, Returns (f a)) : Returns (xs.mapM' f) := by
  induction xs with
  | nil => exact .pure []
  | cons x rest ih =>
      rw [List.mapM'_cons]
      refine (rounds x List.mem_cons_self).bind fun _ _ => ?_
      exact (ih fun a mem => rounds a (List.mem_cons_of_mem x mem)).bind fun _ _ => .pure _

/-- A computation without a result to speak of, once it returns. -/
theorem eq_done {x : Printing ℓ ε Unit} (returns : Returns x) : x = ⟨x.lines, .ok ()⟩ := by
  obtain ⟨a, returned⟩ := returns
  rw [← returned]

end Returns

end Printing
