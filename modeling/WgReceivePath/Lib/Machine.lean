import Mathlib.Logic.Basic
import Mathlib.Tactic.TypeStar

/-!
# Guarded executable machines

A machine is an executable step function `step : σ → α → Option σ`: an action that is not
enabled in a state returns `none`.  Interleaving semantics is then nothing but a choice of
actions, one at a time, and a *guarded* run is a run in which every action taken meets a
condition `ok s a` on the state before it.

## Main definitions

* `exec` replays a list of actions; it is what a concrete run is evaluated with.
* `Reach step ok init` is the set of states that guarded runs lead to.  With the guard that
  is always true it is plain reachability; a guard is how a hypothesis about the environment
  ("this parameter is not written", "no call enters here") is put on a whole run.
* `guarded` is the machine that refuses what its guard forbids, so that a guarded run is
  replayed by `exec` too.

## The rules

* `Reach.invariant` packages the induction: an invariant that holds initially and is kept by
  every guarded step holds of every reachable state.  Its step case knows that the state
  before is reachable, so that an invariant may rest on one that was proved before it.
* `Reach.strengthen` trades a guard for a stronger one that an invariant of the run implies,
  so that one invariant proof serves runs described by different conditions.
* `Reach.simulate` is the forward-simulation rule: each step of one machine is answered by
  some number of steps of another.
* `exists_reach_of_exec` and `reach_of_foldl` turn a list of actions into a run, by
  evaluation for a concrete state and action by action for a symbolic one.
-/

namespace Machine

variable {σ τ α β : Type*}

/-- Replay a list of actions; `none` as soon as one of them is not enabled.  It is
structural on the list, so that a concrete run of an executable machine is decided by the
kernel. -/
def exec (step : σ → α → Option σ) : σ → List α → Option σ
  | s, [] => some s
  | s, a :: rest => (step s a).bind fun s' => exec step s' rest

/-- The states reached from `init` by steps that all meet `ok`.  The guard is asked of the
state before the step and of the action, never of the state after it: it says which actions
the environment may choose, not what they do. -/
inductive Reach (step : σ → α → Option σ) (ok : σ → α → Prop) (init : σ) :
    σ → Prop
  | start : Reach step ok init init
  | next {s s' : σ} {a : α} (reach : Reach step ok init s) (guard : ok s a)
      (taken : step s a = some s') : Reach step ok init s'

variable {step : σ → α → Option σ} {ok ok' : σ → α → Prop} {init s : σ}

/-- **The invariant rule.**  The step case may use that the state before the
step is itself reachable, so invariants established earlier are available. -/
theorem Reach.invariant {I : σ → Prop} (start : I init)
    (kept : ∀ s a s', Reach step ok init s → I s → ok s a →
      step s a = some s' → I s')
    (reach : Reach step ok init s) : I s := by
  induction reach with
  | start => exact start
  | next reach guard taken ih => exact kept _ _ _ reach ih guard taken

/-- A guard may be replaced by any condition that the guarded runs satisfy anyway.  The
condition may use that the state is reachable, hence every invariant of the guarded runs. -/
theorem Reach.strengthen
    (implied : ∀ s a, Reach step ok init s → ok s a → ok' s a)
    (reach : Reach step ok init s) : Reach step ok' init s := by
  induction reach with
  | start => exact .start
  | next reach guard taken ih => exact .next ih (implied _ _ reach guard) taken

/-- Runs compose. -/
theorem Reach.trans {t : σ} (first : Reach step ok init s)
    (second : Reach step ok s t) : Reach step ok init t := by
  induction second with
  | start => exact first
  | next _ guard taken ih => exact .next ih guard taken

/-- One enabled, permitted step is a run. -/
theorem Reach.single {t : σ} {a : α} (guard : ok s a)
    (taken : step s a = some t) : Reach step ok s t :=
  .next .start guard taken

/-- A step that is refused unless it meets the guard.  Replaying this machine evaluates the
guard along the way, which is what makes `reach_of_exec` possible. -/
def guarded (step : σ → α → Option σ) (ok : σ → α → Prop) [∀ s a, Decidable (ok s a)]
    (s : σ) (a : α) : Option σ :=
  if ok s a then step s a else none

/-- A replayed action list is a run: if the guarded machine gets through the list, then each
action was enabled and permitted in the state it was taken in. -/
theorem reach_of_exec [∀ s a, Decidable (ok s a)] {actions : List α} {t : σ}
    (run : exec (guarded step ok) s actions = some t) : Reach step ok s t := by
  induction actions generalizing s with
  | nil =>
      cases run
      exact .start
  | cons a rest ih =>
      simp only [exec, guarded] at run
      by_cases guard : ok s a
      · cases taken : step s a with
        | none => simp [guard, taken] at run
        | some s' =>
            rw [if_pos guard, taken] at run
            exact (Reach.single guard taken).trans (ih run)
      · simp [guard] at run

/-- A concrete run, checked by evaluation.  The hypothesis is a closed Boolean equation, so
that a witness or a counterexample is one list of actions and a call of `decide`. -/
theorem exists_reach_of_exec [∀ s a, Decidable (ok s a)] {P : σ → Prop} [DecidablePred P]
    (actions : List α)
    (run : (exec (guarded step ok) s actions).any (fun t => P t) = true) :
    ∃ t, Reach step ok s t ∧ P t := by
  cases result : exec (guarded step ok) s actions with
  | none => simp [result] at run
  | some t => exact ⟨t, reach_of_exec result, by simpa [result] using run⟩

/-- One more action of a replayed run, if it has not stopped.  Folding it over a list of
actions unfolds from the left, one action at a time, where `exec` unfolds from the right. -/
def next (step : σ → α → Option σ) (s : Option σ) (a : α) : Option σ := s.bind (step · a)

@[simp]
theorem next_some (step : σ → α → Option σ) (s : σ) (a : α) : next step (some s) a = step s a :=
  rfl

theorem foldl_next_none (step : σ → α → Option σ) (actions : List α) :
    actions.foldl (next step) none = none := by
  induction actions with
  | nil => rfl
  | cons a rest ih => exact ih

/-- A run from a symbolic state, one action after the other.  The state need not be known:
each step can be rewritten with what is assumed of it. -/
theorem reach_of_foldl {t : σ} (actions : List α) (all : ∀ s, ∀ a ∈ actions, ok s a)
    (run : actions.foldl (next step) (some s) = some t) : Reach step ok s t := by
  induction actions generalizing s with
  | nil =>
      cases run
      exact .start
  | cons a rest ih =>
      rw [List.foldl_cons, next_some] at run
      cases taken : step s a with
      | none => simp [taken, foldl_next_none] at run
      | some s' =>
          rw [taken] at run
          exact (Reach.single (all s a (by simp)) taken).trans
            (ih (fun s b mem => all s b (by simp [mem])) run)

/-- **Forward simulation.**  If every guarded step of the first machine is
answered from any related state by a run of the second, then every reachable
state of the first is related to a reachable state of the second. -/
theorem Reach.simulate {step₂ : τ → β → Option τ} {ok₂ : τ → β → Prop}
    {init₂ : τ} {R : σ → τ → Prop} (start : R init init₂)
    (answer : ∀ s a s' t, Reach step ok init s → R s t → ok s a →
      step s a = some s' → ∃ t', Reach step₂ ok₂ t t' ∧ R s' t')
    (reach : Reach step ok init s) :
    ∃ t, Reach step₂ ok₂ init₂ t ∧ R s t := by
  induction reach with
  | start => exact ⟨init₂, .start, start⟩
  | next reach guard taken ih =>
      obtain ⟨t, reach₂, related⟩ := ih
      obtain ⟨t', run, related'⟩ := answer _ _ _ t reach related guard taken
      exact ⟨t', reach₂.trans run, related'⟩

end Machine
