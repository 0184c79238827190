import Mathlib.Data.List.Induction

/-! # Executions of a step function

A system takes one action after another; an action may be impossible in a state.  An
execution is a list of actions from a first state.  `Always` speaks about every state
that an execution reaches, `EachStep` about every step it takes, and
`always_of_eachStep` is the rule of induction: what holds at first, and is preserved by
steps of a kind, holds always in executions of such steps. -/
namespace Executions

variable {σ α : Type} (step : σ → α → Option σ)

/-- Take actions one after another. -/
def exec (s : σ) (actions : List α) : Option σ := actions.foldlM step s

/-- Every state on the way satisfies `P`. -/
def Always (s₀ : σ) (actions : List α) (P : σ → Prop) : Prop :=
  ∀ before s, before <+: actions → exec step s₀ before = some s → P s

/-- Every step on the way satisfies `Q`. -/
def EachStep (s₀ : σ) (actions : List α) (Q : σ → α → Prop) : Prop :=
  ∀ before a s, before ++ [a] <+: actions → exec step s₀ before = some s → Q s a

variable {step} {s₀ : σ} {actions : List α}

theorem exec_append (s : σ) (a b : List α) :
    exec step s (a ++ b) = (exec step s a).bind (fun s' => exec step s' b) := List.foldlM_append

theorem exec_snoc (s : σ) (before : List α) (a : α) :
    exec step s (before ++ [a]) = (exec step s before).bind (fun s' => step s' a) := by
  rw [exec_append]
  congr 1
  funext s'
  exact bind_pure (step s' a)

theorem eachStep_nil {Q : σ → α → Prop} : EachStep step s₀ [] Q := by
  intro before a s hfront
  exact absurd (List.prefix_nil.mp hfront) (by simp)

/-- The first step, and the steps from there. -/
theorem eachStep_cons {a : α} {Q : σ → α → Prop} (hfirst : Q s₀ a)
    (hrest : ∀ s, step s₀ a = some s → EachStep step s actions Q) :
    EachStep step s₀ (a :: actions) Q := by
  intro before b s hfront hbefore
  cases before with
  | nil =>
    obtain rfl : b = a := (List.cons_prefix_cons.mp hfront).1
    obtain rfl : s₀ = s := Option.some.inj hbefore
    exact hfirst
  | cons first before =>
    obtain ⟨rfl, htail⟩ := List.cons_prefix_cons.mp hfront
    obtain ⟨s₁, hs₁, hbefore⟩ := Option.bind_eq_some_iff.mp hbefore
    exact hrest s₁ hs₁ before b s htail hbefore

/-- **The rule of induction.** -/
theorem always_of_eachStep {P : σ → Prop} {Q : σ → α → Prop} (hinit : P s₀)
    (hstep : ∀ s a s', P s → Q s a → step s a = some s' → P s')
    (hsteps : EachStep step s₀ actions Q) : Always step s₀ actions P := by
  intro before
  induction before using List.reverseRecOn with
  | nil =>
    intro s _ hexec
    exact Option.some.inj hexec ▸ hinit
  | append_singleton before a ih =>
    intro s hfront hexec
    rw [exec_snoc, Option.bind_eq_some_iff] at hexec
    obtain ⟨s', hbefore, ha⟩ := hexec
    exact hstep s' a s (ih s' ((List.prefix_append before [a]).trans hfront) hbefore)
      (hsteps before a s' hfront hbefore) ha

/-- What every step preserves holds always. -/
theorem always_of_step {P : σ → Prop} (hinit : P s₀)
    (hstep : ∀ s a s', P s → step s a = some s' → P s') : Always step s₀ actions P :=
  always_of_eachStep (Q := fun _ _ => True) hinit (fun s a s' hs _ => hstep s a s' hs)
    (fun _ _ _ _ _ => trivial)

/-- Every step on the way passes a check. -/
def checkSteps (step : σ → α → Option σ) (check : σ → α → Bool) : σ → List α → Bool
  | _, [] => true
  | s, a :: actions => check s a && match step s a with
    | some s' => checkSteps step check s' actions
    | none => true

/-- A check that is sound where an invariant holds speaks for every step. -/
theorem eachStep_of_check {P : σ → Prop} {Q : σ → α → Prop} {check : σ → α → Bool}
    (hsound : ∀ s a, P s → check s a = true → Q s a)
    (hstep : ∀ s a s', P s → check s a = true → step s a = some s' → P s') (hinit : P s₀)
    (hcheck : checkSteps step check s₀ actions = true) : EachStep step s₀ actions Q := by
  induction actions generalizing s₀ with
  | nil => exact eachStep_nil
  | cons a actions ih =>
    obtain ⟨hfirst, hrest⟩ := Bool.and_eq_true_iff.mp hcheck
    refine eachStep_cons (hsound s₀ a hinit hfirst) fun s hs => ?_
    rw [hs] at hrest
    exact ih (hstep s₀ a s hinit hfirst hs) hrest

/-- A step of an execution that goes through leads to a state on the way. -/
theorem exists_step {final : σ} (hexec : exec step s₀ actions = some final) {before : List α}
    {a : α} {s : σ} (hfront : before ++ [a] <+: actions) (hbefore : exec step s₀ before = some s) :
    ∃ s', step s a = some s' ∧ exec step s₀ (before ++ [a]) = some s' := by
  obtain ⟨after, rfl⟩ := hfront
  rw [exec_append, exec_snoc, hbefore, Option.bind_some, Option.bind_eq_some_iff] at hexec
  obtain ⟨s', hs', -⟩ := hexec
  exact ⟨s', hs', by rw [exec_snoc, hbefore, Option.bind_some, hs']⟩

end Executions
