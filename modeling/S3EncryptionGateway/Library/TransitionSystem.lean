import Mathlib

/-!
# Runs of a transition system

A system is given by a partial step function: `step s a` is the state after the
action `a`, or `none` if `a` cannot happen in `s`.  A run is a list of actions;
every interleaving of the parties of the system is one.

`Meets` restricts runs by a condition on the state before each step, and
`run_invariant` is the induction that every safety result uses: what the start
has and every step under the condition keeps, every state reached has.
`exists_step_of_run` goes the other way: what holds at the end of a run and not at
its start came about in one of its steps.
-/

namespace Transitions

variable {σ α : Type*} (step : σ → α → Option σ)

/-- The state after the actions, if all of them can happen. -/
def run : σ → List α → Option σ
  | s, [] => some s
  | s, action :: actions => (step s action).bind fun s' => run s' actions

@[simp] theorem run_nil (s : σ) : run step s [] = some s := rfl

variable {actions : List α}

theorem run_cons_eq_some_iff {s s' : σ} {action : α} :
    run step s (action :: actions) = some s' ↔
      ∃ next, step s action = some next ∧ run step next actions = some s' := by
  simp only [run, Option.bind_eq_some_iff]

/-- Every step of the run meets the condition in the state before it. -/
def Meets (condition : σ → α → Prop) : σ → List α → Prop
  | _, [] => True
  | s, action :: actions =>
    condition s action ∧
      match step s action with
      | some s' => Meets condition s' actions
      | none => True

instance decidableMeets (condition : σ → α → Prop) [∀ s action, Decidable (condition s action)] :
    ∀ s actions, Decidable (Meets step condition s actions)
  | _, [] => isTrue trivial
  | s, action :: actions =>
    haveI : Decidable (match step s action with
        | some s' => Meets step condition s' actions
        | none => True) :=
      match step s action with
      | some s' => decidableMeets condition s' actions
      | none => isTrue trivial
    inferInstanceAs (Decidable (condition s action ∧ _))

/-- **The invariant rule.** -/
theorem run_invariant {condition : σ → α → Prop} {invariant : σ → Prop}
    (hstep : ∀ s action s', invariant s → condition s action → step s action = some s' → invariant s')
    {s s' : σ} (hstart : invariant s) (hmeets : Meets step condition s actions)
    (hrun : run step s actions = some s') : invariant s' := by
  induction actions generalizing s with
  | nil =>
    rw [run_nil] at hrun
    cases hrun
    exact hstart
  | cons action actions ih =>
    obtain ⟨next, hnext, hrest⟩ := (run_cons_eq_some_iff step).mp hrun
    obtain ⟨hcondition, hlater⟩ := hmeets
    rw [hnext] at hlater
    apply ih _ hlater hrest
    exact hstep s action next hstart hcondition hnext

theorem meets_of_forall {condition : σ → α → Prop} (hall : ∀ s action, condition s action)
    (s : σ) (actions : List α) : Meets step condition s actions := by
  induction actions generalizing s with
  | nil => trivial
  | cons action actions ih =>
    refine ⟨hall s action, ?_⟩
    split
    · exact ih _
    · trivial

theorem run_keeps (invariant : σ → Prop)
    (hstep : ∀ s action s', invariant s → step s action = some s' → invariant s') {s s' : σ}
    (hstart : invariant s) (hrun : run step s actions = some s') : invariant s' :=
  run_invariant step (fun s action s' hs (_ : True) => hstep s action s' hs) hstart
    (meets_of_forall step (fun _ _ => trivial) s actions) hrun

/-- **The step that brings something about.** -/
theorem exists_step_of_run (property : σ → Prop) {s s' : σ} (hstart : ¬ property s)
    (hrun : run step s actions = some s') (hend : property s') :
    ∃ before action after mid next, actions = before ++ action :: after ∧
      run step s before = some mid ∧ step mid action = some next ∧ ¬ property mid ∧
      property next ∧ run step next after = some s' := by
  induction actions generalizing s with
  | nil =>
    cases hrun
    exact absurd hend hstart
  | cons action actions ih =>
    obtain ⟨next, hnext, hrest⟩ := (run_cons_eq_some_iff step).mp hrun
    by_cases hproperty : property next
    · exact ⟨[], action, actions, s, next, rfl, rfl, hnext, hstart, hproperty, hrest⟩
    · obtain ⟨before, action', after, mid, next', rfl, hbefore, hlater⟩ := ih hproperty hrest
      exact ⟨action :: before, action', after, mid, next', rfl,
        (run_cons_eq_some_iff step).mpr ⟨next, hnext, hbefore⟩, hlater⟩

end Transitions
