import Mathlib.Algebra.GroupWithZero.Nat
import Mathlib.Data.List.Basic

/-!
# Transfers in requests

A vectored transfer asks a backend for one segment after the other.  A *request* has an
offset and a length, and its answer is an error or the elements moved.  Requests are
*consecutive* (`Consecutive`) if they are for the segments in order, each at the offset
where the elements moved before it end, and if they go on exactly as long as they are
answered in full.  What the transfer reports is a matter of the requests (`total`): an
error counts only if nothing was moved before.

`Served` says that the requests are those that a stateful backend answers.
-/

namespace Transfers

variable {α σ γ : Type}

/-! ## Requests -/

structure Request (α : Type) where
  offset : Nat
  length : Nat
  /-- An error, or the elements moved. -/
  answer : Except Int (List α)

namespace Request

/-- The elements moved. -/
def moved (r : Request α) : List α :=
  match r.answer with
  | .ok xs => xs
  | .error _ => []

def error? (r : Request α) : Option Int :=
  match r.answer with
  | .ok _ => none
  | .error e => some e

/-- All elements that were asked for were moved. -/
def Full (r : Request α) : Prop := r.error? = none ∧ r.moved.length = r.length

end Request

/-- The elements that the requests moved. -/
def moved (rs : List (Request α)) : List α := rs.flatMap Request.moved

/-- The error of the last request. -/
def failure (rs : List (Request α)) : Option Int := rs.getLast?.bind Request.error?

/-- What a transfer reports that had moved `count` elements before the requests. -/
def total (count : Nat) (rs : List (Request α)) : Except Int Nat :=
  match failure rs with
  | some e =>
      if count + (moved rs).length > 0 then .ok (count + (moved rs).length) else .error e
  | none => .ok (count + (moved rs).length)

@[simp] theorem moved_nil : moved ([] : List (Request α)) = [] := rfl

@[simp] theorem moved_cons (r : Request α) (rs : List (Request α)) :
    moved (r :: rs) = r.moved ++ moved rs := rfl

/-- A failing request moves nothing. -/
theorem total_error (count offset length : Nat) (e : Int) :
    total count [(⟨offset, length, .error e⟩ : Request α)] =
      if count > 0 then .ok count else .error e := rfl

theorem total_short (count offset length : Nat) (xs : List α) :
    total count [⟨offset, length, .ok xs⟩] = .ok (count + xs.length) := by
  simp only [total, failure, List.getLast?_singleton, Option.bind_some, Request.error?,
    moved_cons, moved_nil, Request.moved, List.append_nil]

/-- A request that is answered in full is not the error. -/
theorem failure_cons {r : Request α} (h : r.Full) (rs : List (Request α)) :
    failure (r :: rs) = failure rs := by
  cases rs with
  | nil => exact h.1
  | cons r' rs => rfl

/-- A request that is answered in full counts. -/
theorem total_cons {r : Request α} (h : r.Full) (count : Nat) (rs : List (Request α)) :
    total count (r :: rs) = total (count + r.length) rs := by
  have hlen : count + (moved (r :: rs)).length = count + r.length + (moved rs).length := by
    rw [moved_cons, List.length_append, h.2, Nat.add_assoc]
  unfold total
  rw [failure_cons h, hlen]

/-- The transfer fails with the error of its last request if it moved nothing. -/
theorem total_eq_error {rs : List (Request α)} {e : Int} (h : total 0 rs = .error e) :
    failure rs = some e ∧ moved rs = [] := by
  unfold total at h
  split at h
  · rename_i e' hfailure
    split at h
    · cases h
    · rename_i hnone
      cases h
      exact ⟨hfailure, List.eq_nil_of_length_eq_zero (by omega)⟩
  · cases h

/-- Else it reports what it moved. -/
theorem total_eq_ok {rs : List (Request α)} {n : Nat} (h : total 0 rs = .ok n) :
    n = (moved rs).length ∧ (failure rs = none ∨ moved rs ≠ []) := by
  unfold total at h
  split at h
  · split at h
    · rename_i hpos
      cases h
      refine ⟨Nat.zero_add _, Or.inr fun hnone => ?_⟩
      rw [hnone] at hpos
      exact absurd hpos (Nat.lt_irrefl 0)
    · cases h
  · rename_i hfailure
    cases h
    exact ⟨Nat.zero_add _, Or.inl hfailure⟩

/-! ## Consecutive requests -/

/-- The requests of a transfer of segments of these lengths that starts at `offset`. -/
structure Consecutive (offset : Nat) (lengths : List Nat) (rs : List (Request α)) : Prop where
  /-- They ask for the segments in order. -/
  inOrder : rs.map Request.length <+: lengths
  /-- None moves more than it asks for. -/
  bounded : ∀ r ∈ rs, r.moved.length ≤ r.length
  /-- Each starts where those before it end. -/
  offsets : ∀ front r back, rs = front ++ r :: back → r.offset = offset + (moved front).length
  /-- All but the last are answered in full. -/
  full : ∀ front r back, rs = front ++ r :: back → back ≠ [] → r.Full
  /-- Only a short or failing request ends them before the last segment. -/
  stops : rs.length < lengths.length → ∃ front r, rs = front ++ [r] ∧ ¬ r.Full

namespace Consecutive

theorem nil (offset : Nat) : Consecutive offset [] ([] : List (Request α)) where
  inOrder := List.prefix_rfl
  bounded := nofun
  offsets front _ _ h := absurd h (by simp)
  full front _ _ h := absurd h (by simp)
  stops h := absurd h (Nat.lt_irrefl 0)

theorem singleton_split {r r' : Request α} {front back : List (Request α)}
    (h : [r] = front ++ r' :: back) : front = [] ∧ r' = r ∧ back = [] := by
  cases front with
  | nil =>
      cases h
      exact ⟨rfl, rfl, rfl⟩
  | cons r'' front =>
      rw [List.cons_append, List.cons.injEq] at h
      exact absurd h.2 (by simp)

/-- A request that is not answered in full is the last. -/
theorem stop {offset length : Nat} {answer : Except Int (List α)} (lengths : List Nat)
    (hle : (Request.mk offset length answer).moved.length ≤ length)
    (h : ¬ (Request.mk offset length answer).Full) :
    Consecutive offset (length :: lengths) [⟨offset, length, answer⟩] where
  inOrder := ⟨lengths, rfl⟩
  bounded r' hr' := by
    cases List.mem_singleton.mp hr'
    exact hle
  offsets front r' back hsplit := by
    obtain ⟨rfl, rfl, rfl⟩ := singleton_split hsplit
    rfl
  full front r' back hsplit hback := absurd (singleton_split hsplit).2.2 hback
  stops _ := ⟨[], _, rfl, h⟩

theorem error (offset length : Nat) (e : Int) (lengths : List Nat) :
    Consecutive offset (length :: lengths) [(⟨offset, length, .error e⟩ : Request α)] := by
  refine stop lengths (Nat.zero_le _) fun hfull => ?_
  cases hfull.1

theorem short (offset : Nat) {length : Nat} {xs : List α} (h : xs.length < length)
    (lengths : List Nat) : Consecutive offset (length :: lengths) [⟨offset, length, .ok xs⟩] :=
  stop lengths (Nat.le_of_lt h) fun hfull => Nat.ne_of_lt h hfull.2

/-- After a request that is answered in full come those for the other segments. -/
theorem cons {r : Request α} {lengths : List Nat} {rs : List (Request α)} (h : r.Full)
    (hrs : Consecutive (r.offset + r.length) lengths rs) :
    Consecutive r.offset (r.length :: lengths) (r :: rs) where
  inOrder := List.cons_prefix_cons.mpr ⟨rfl, hrs.inOrder⟩
  bounded r' hr' := by
    cases hr' with
    | head => exact Nat.le_of_eq h.2
    | tail _ hr' => exact hrs.bounded r' hr'
  offsets front r' back hsplit := by
    cases front with
    | nil =>
        cases hsplit
        rfl
    | cons r'' front =>
        rw [List.cons_append, List.cons.injEq] at hsplit
        obtain ⟨rfl, hsplit⟩ := hsplit
        rw [hrs.offsets front r' back hsplit, moved_cons, List.length_append, h.2, Nat.add_assoc]
  full front r' back hsplit hback := by
    cases front with
    | nil =>
        cases hsplit
        exact h
    | cons r'' front =>
        rw [List.cons_append, List.cons.injEq] at hsplit
        exact hrs.full front r' back hsplit.2 hback
  stops hlt := by
    obtain ⟨front, r', rfl, hr'⟩ := hrs.stops (Nat.lt_of_succ_lt_succ hlt)
    exact ⟨r :: front, r', rfl, hr'⟩

/-- No more elements are moved than the segments have. -/
theorem length_moved_le {offset : Nat} {lengths : List Nat} {rs : List (Request α)}
    (h : Consecutive offset lengths rs) : (moved rs).length ≤ lengths.sum := by
  obtain ⟨rest, hrest⟩ := h.inOrder
  have hsum : (moved rs).length ≤ (rs.map Request.length).sum := by
    have hbounded := h.bounded
    clear h hrest
    induction rs with
    | nil => exact Nat.le_refl 0
    | cons r rs ih =>
        rw [moved_cons, List.length_append, List.map_cons, List.sum_cons]
        exact Nat.add_le_add (hbounded r List.mem_cons_self)
          (ih fun r' hr' => hbounded r' (.tail _ hr'))
  rw [← hrest, List.sum_append]
  omega

end Consecutive

/-! ## Backends -/

/-- The backend answers the requests one after the other, and its state goes from the first
to the last one.  A request is for the segment at its place. -/
inductive Served (serve : σ → γ → Nat → σ → Except Int (List α) → Prop) :
    σ → List γ → List (Request α) → σ → Prop where
  | nil (s : σ) (segments : List γ) : Served serve s segments [] s
  | cons {s s₁ s' : σ} {segment : γ} {segments : List γ} {r : Request α} {rs : List (Request α)} :
      serve s segment r.offset s₁ r.answer → Served serve s₁ segments rs s' →
      Served serve s (segment :: segments) (r :: rs) s'

end Transfers
