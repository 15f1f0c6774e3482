import Mathlib.Data.List.Forall2

/-!
# Runs and invariants

`Reach step ok s₀ s` says that `s` is reached from `s₀` by steps whose label `ok`
allows in the state before the step.  With `ok` always true these are all runs.
A property of `s₀` that every allowed step preserves holds of every state reached
(`Reach.invariant`).

A machine that answers its operations runs over a list of them (`answers`).  A
second machine that may fail simulates it if single operations do
(`simulates_answers`).
-/

namespace Transition

variable {σ α : Type} {step : σ → α → σ → Prop} {ok : σ → α → Prop} {s₀ s s' : σ}

/-- The states that steps with allowed labels reach from `s₀`. -/
inductive Reach (step : σ → α → σ → Prop) (ok : σ → α → Prop) (s₀ : σ) : σ → Prop where
  | refl : Reach step ok s₀ s₀
  | tail {s s' : σ} {a : α} : Reach step ok s₀ s → ok s a → step s a s' → Reach step ok s₀ s'

/-- What holds at the start and is preserved by every allowed step holds in
every state reached. -/
theorem Reach.invariant {I : σ → Prop} (h₀ : I s₀)
    (hstep : ∀ {s a s'}, I s → ok s a → step s a s' → I s') (h : Reach step ok s₀ s) : I s := by
  induction h with
  | refl => exact h₀
  | tail _ hok hs ih => exact hstep ih hok hs

/-- A run of allowed steps is a run of steps that are allowed for a weaker reason. -/
theorem Reach.mono {ok' : σ → α → Prop} (hok : ∀ {s a}, ok s a → ok' s a)
    (h : Reach step ok s₀ s) : Reach step ok' s₀ s := by
  induction h with
  | refl => exact .refl
  | tail _ ha hs ih => exact .tail ih (hok ha) hs

/-- Runs compose. -/
theorem Reach.trans (h : Reach step ok s₀ s) (h' : Reach step ok s s') : Reach step ok s₀ s' := by
  induction h' with
  | refl => exact h
  | tail _ ha hs ih => exact .tail ih ha hs

/-! ## Machines that answer -/

section

variable {τ γ β δ ε : Type} {ref : τ → γ → τ × δ} {allowed : τ → γ → Prop}

/-- The last state and the answers of a run. -/
def answers (ref : τ → γ → τ × δ) : τ → List γ → τ × List δ
  | t, [] => (t, [])
  | t, c :: cs =>
      let next := ref t c
      let rest := answers ref next.1 cs
      (rest.1, next.2 :: rest.2)

/-- Every operation of a run is allowed in the state before it. -/
def Along (ref : τ → γ → τ × δ) (allowed : τ → γ → Prop) : τ → List γ → Prop
  | _, [] => True
  | t, c :: cs => allowed t c ∧ Along ref allowed (ref t c).1 cs

/-- The run of a machine that may fail. -/
def attempt (impl : σ → α → Except ε (σ × β)) : σ → List α → Except ε (σ × List β)
  | s, [] => .ok (s, [])
  | s, a :: as =>
      match impl s a with
      | .error e => .error e
      | .ok (s, b) =>
          match attempt impl s as with
          | .error e => .error e
          | .ok (s, bs) => .ok (s, b :: bs)

/-- If `impl` carries out every allowed operation of `ref` from related states, it
carries out every allowed run. -/
theorem simulates_answers {impl : σ → α → Except ε (σ × β)} {R : σ → τ → Prop}
    {carries : α → γ → Prop} {answer : δ → β}
    (hstep : ∀ s t a c, R s t → carries a c → allowed t c →
      ∃ s', impl s a = .ok (s', answer (ref t c).2) ∧ R s' (ref t c).1)
    {s : σ} {t : τ} {as : List α} {cs : List γ} (h : R s t) (hcarries : List.Forall₂ carries as cs)
    (hallowed : Along ref allowed t cs) :
    ∃ s', attempt impl s as = .ok (s', (answers ref t cs).2.map answer) ∧
      R s' (answers ref t cs).1 := by
  induction hcarries generalizing s t with
  | nil => exact ⟨s, rfl, h⟩
  | cons hac _ ih =>
      obtain ⟨s₁, hrun, h₁⟩ := hstep _ _ _ _ h hac hallowed.1
      obtain ⟨s₂, hrest, h₂⟩ := ih h₁ hallowed.2
      refine ⟨s₂, ?_, h₂⟩
      simp only [attempt, hrun, hrest, answers, List.map_cons]

end

end Transition
