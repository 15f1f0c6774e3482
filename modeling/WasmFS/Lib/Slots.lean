import Mathlib.Logic.Function.Basic
import Mathlib.Order.Bounds.Basic

/-!
# Maps with slots

A table of slots is a map from numbers to values, where an empty slot has none.
Three events set a slot.  A value that is in no slot is installed in the least
empty one, a value is shared with another slot, and a slot is cleared.
`Event.target` is the slot that an event names.

A slot that no event of a run names keeps its value (`applyAll_of_not_target`).
So what a slot holds is what the last event that names it put there.
-/

namespace Slots

variable {α : Type} {m : ℕ → Option α} {n : ℕ}

inductive Event (α : Type) where
  | install (n : ℕ) (x : α)
  /-- Put the value of slot `a` into slot `b`, if there is one. -/
  | share (a b : ℕ)
  | clear (a : ℕ)
  | quiet

namespace Event

/-- The slot that the event names. -/
def target : Event α → Option ℕ
  | .install n _ => some n
  | .share _ b => some b
  | .clear a => some a
  | .quiet => none

/-- The map after the event. -/
def apply (m : ℕ → Option α) : Event α → ℕ → Option α
  | .install n x => Function.update m n (some x)
  | .share a b =>
      match m a with
      | none => m
      | some x => Function.update m b (some x)
  | .clear a => Function.update m a none
  | .quiet => m

/-- A value is installed in the least empty slot only, and in no slot before. -/
def Allowed (m : ℕ → Option α) : Event α → Prop
  | .install n x => IsLeast {i | m i = none} n ∧ ∀ i, m i ≠ some x
  | _ => True

theorem apply_of_target_ne {e : Event α} (h : e.target ≠ some n) : e.apply m n = m n := by
  cases e with
  | install i x => exact Function.update_of_ne (fun hn => h (congrArg some hn.symm)) ..
  | share a b =>
      simp only [apply]
      cases m a with
      | none => rfl
      | some x => exact Function.update_of_ne (fun hn => h (congrArg some hn.symm)) ..
  | clear a => exact Function.update_of_ne (fun hn => h (congrArg some hn.symm)) ..
  | quiet => rfl

/-- A value that was installed is in that slot and in no other. -/
theorem apply_install_eq_some_iff {i : ℕ} {x : α} (h : (install n x).Allowed m) :
    (install n x).apply m i = some x ↔ i = n := by
  simp only [apply]
  constructor
  · intro hi
    by_contra hne
    rw [Function.update_of_ne hne] at hi
    exact h.2 i hi
  · intro hi
    rw [hi, Function.update_self]

end Event

/-! ## Runs -/

/-- The map after a list of events. -/
def applyAll (m : ℕ → Option α) : List (Event α) → ℕ → Option α
  | [] => m
  | e :: es => applyAll (e.apply m) es

/-- Every event is allowed in the map before it. -/
def AllowedAll (m : ℕ → Option α) : List (Event α) → Prop
  | [] => True
  | e :: es => e.Allowed m ∧ AllowedAll (e.apply m) es

/-- A slot that is not named keeps its value. -/
theorem applyAll_of_not_target {es : List (Event α)} (h : ∀ e ∈ es, e.target ≠ some n) :
    applyAll m es n = m n := by
  induction es generalizing m with
  | nil => rfl
  | cons e es ih =>
      have hrest : applyAll (e.apply m) es n = e.apply m n :=
        ih fun e' he' => h e' (.tail e he')
      exact hrest.trans (Event.apply_of_target_ne (h e List.mem_cons_self))

end Slots
