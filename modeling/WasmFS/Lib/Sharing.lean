import Mathlib.Data.Multiset.AddSub
import Mathlib.Logic.Function.Basic

/-!
# Users that share a handle

A host opens handles and closes them.  Many users of one resource share a single
handle of it.  The first user acquires the handle and the last one releases it.
A user that needs more than the handle allows swaps it for another one, which is
acquired before the old one is released.

`held` replays what the host was asked, and there is no result if a handle is
acquired while it is open or released while it is not.  After any run of `Step` the
host has exactly the handle of the pool open, and that handle serves every user
(`Fits`).  So no handle leaks and none is released twice.
-/

namespace Sharing

variable {η μ α : Type} [DecidableEq η]

/-! ## The host -/

/-- What the host is asked for: to open a handle in a mode, or to close it. -/
inductive Request (η μ : Type) where
  | acquire (h : η) (m : μ)
  | release (h : η)
deriving DecidableEq, Repr

/-- The handles that are open and their modes, after requests that stand newest
first. -/
def held : List (Request η μ) → Option (η → Option μ)
  | [] => some fun _ => none
  | .acquire h m :: log => do
      let t ← held log
      if t h = none then some (Function.update t h (some m)) else none
  | .release h :: log => do
      let t ← held log
      if t h = none then none else some (Function.update t h none)

/-- Nothing is open but this handle, if it is one. -/
def only : Option (η × μ) → η → Option μ
  | none => fun _ => none
  | some (h, m) => Function.update (fun _ => none) h (some m)

@[simp] theorem only_none (h : η) : only (none : Option (η × μ)) h = none := rfl

@[simp] theorem only_some_self (h : η) (m : μ) : only (some (h, m)) h = some m := by
  rw [only, Function.update_self]

theorem only_some_of_ne {h h' : η} (m : μ) (hne : h' ≠ h) : only (some (h, m)) h' = none := by
  rw [only, Function.update_of_ne hne]

section Replay

variable {log : List (Request η μ)}

theorem held_acquire {t : η → Option μ} {h : η} {m : μ} (hlog : held log = some t)
    (hfree : t h = none) :
    held (.acquire h m :: log) = some (Function.update t h (some m)) := by
  simp [held, hlog, hfree]

theorem held_release {t : η → Option μ} {h : η} {m : μ} (hlog : held log = some t)
    (hopen : t h = some m) : held (.release h :: log) = some (Function.update t h none) := by
  simp [held, hlog, hopen]

theorem held_first {h : η} {m : μ} (hlog : held log = some (only none)) :
    held (.acquire h m :: log) = some (only (some (h, m))) := by
  rw [held_acquire hlog rfl]
  rfl

theorem held_last {h : η} {m : μ} (hlog : held log = some (only (some (h, m)))) :
    held (.release h :: log) = some (only none) := by
  rw [held_release hlog (only_some_self h m)]
  simp [only]

/-- The new handle is acquired first, then the old one is released. -/
theorem held_swap {h h' : η} {m m' : μ} (hlog : held log = some (only (some (h, m))))
    (hne : h' ≠ h) :
    held (.release h :: .acquire h' m' :: log) = some (only (some (h', m'))) := by
  have hboth := held_acquire (m := m') hlog (only_some_of_ne m hne)
  have hold : Function.update (only (some (h, m))) h' (some m') h = some m := by
    rw [Function.update_of_ne hne.symm, only_some_self]
  rw [held_release hboth hold]
  refine congrArg some (funext fun g => ?_)
  by_cases hg : g = h
  · subst hg
    rw [Function.update_self, only_some_of_ne m' hne.symm]
  · rw [Function.update_of_ne hg]
    by_cases hg' : g = h'
    · subst hg'
      rw [Function.update_self, only_some_self]
    · rw [Function.update_of_ne hg', only_some_of_ne m hg, only_some_of_ne m' hg']

end Replay

/-! ## The pool -/

/-- The users of the resource and the handle they share. -/
structure Pool (η μ α : Type) where
  users : Multiset α
  handle : Option (η × μ)

/-- What may happen to the pool, with the requests it makes of the host.  The mode
of the handle must serve each user, as `Serves` says. -/
inductive Step (Serves : μ → α → Prop) : Pool η μ α → List (Request η μ) → Pool η μ α → Prop where
  | first {a : α} {h : η} {m : μ} : Serves m a →
      Step Serves ⟨0, none⟩ [.acquire h m] ⟨{a}, some (h, m)⟩
  | join {us : Multiset α} {a : α} {h : η} {m : μ} : Serves m a →
      Step Serves ⟨us, some (h, m)⟩ [] ⟨a ::ₘ us, some (h, m)⟩
  | swap {us : Multiset α} {a : α} {h h' : η} {m m' : μ} : h' ≠ h → Serves m' a →
      (∀ b, Serves m b → Serves m' b) →
      Step Serves ⟨us, some (h, m)⟩ [.release h, .acquire h' m'] ⟨a ::ₘ us, some (h', m')⟩
  | leave {us : Multiset α} {a : α} {p : Option (η × μ)} : us ≠ 0 →
      Step Serves ⟨a ::ₘ us, p⟩ [] ⟨us, p⟩
  | last {a : α} {h : η} {m : μ} : Step Serves ⟨{a}, some (h, m)⟩ [.release h] ⟨0, none⟩
  | stay {p : Pool η μ α} : Step Serves p [] p

/-- The host has exactly the handle of the pool open.  There is one just when there
are users, and it serves all of them. -/
structure Fits (Serves : μ → α → Prop) (p : Pool η μ α) (log : List (Request η μ)) : Prop where
  held : held log = some (only p.handle)
  used : p.handle = none ↔ p.users = 0
  serves : ∀ {h m}, p.handle = some (h, m) → ∀ a ∈ p.users, Serves m a

namespace Fits

variable {Serves : μ → α → Prop} {p p' : Pool η μ α} {log : List (Request η μ)}

theorem start : Fits Serves (⟨0, none⟩ : Pool η μ α) [] :=
  ⟨rfl, by simp, fun h => by cases h⟩

/-- The invariant of a pool is kept by every step. -/
theorem step {reqs : List (Request η μ)} (hf : Fits Serves p log) (hs : Step Serves p reqs p') :
    Fits Serves p' (reqs ++ log) := by
  obtain ⟨hheld, hused, hserves⟩ := hf
  cases hs with
  | first ha =>
      refine ⟨held_first hheld, by simp, fun {h m} heq b hb => ?_⟩
      cases heq
      rw [Multiset.mem_singleton.mp hb]
      exact ha
  | join ha =>
      refine ⟨hheld, by simp, fun {h m} heq b hb => ?_⟩
      cases heq
      rcases Multiset.mem_cons.mp hb with rfl | hb
      · exact ha
      · exact hserves rfl b hb
  | swap hne ha hmore =>
      refine ⟨held_swap hheld hne, by simp, fun {h m} heq b hb => ?_⟩
      cases heq
      rcases Multiset.mem_cons.mp hb with rfl | hb
      · exact ha
      · exact hmore b (hserves rfl b hb)
  | leave hus =>
      refine ⟨hheld, ?_, fun {h m} heq b hb => hserves heq b (Multiset.mem_cons_of_mem hb)⟩
      rw [hused]
      simp [hus]
  | last =>
      refine ⟨held_last hheld, by simp, fun {h m} heq => ?_⟩
      cases heq
  | stay => exact ⟨hheld, hused, hserves⟩

/-- Every user has a handle that is open in a mode that serves it, and nothing else
is open. -/
theorem of_mem {a : α} (hf : Fits Serves p log) (ha : a ∈ p.users) :
    ∃ h m, p.handle = some (h, m) ∧ Sharing.held log = some (only (some (h, m))) ∧ Serves m a := by
  cases hp : p.handle with
  | none =>
      rw [hf.used.mp hp] at ha
      exact absurd ha (Multiset.notMem_zero a)
  | some q =>
      obtain ⟨h, m⟩ := q
      exact ⟨h, m, rfl, hp ▸ hf.held, hf.serves hp a ha⟩

end Fits

end Sharing
