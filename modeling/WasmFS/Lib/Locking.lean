import Mathlib.Data.Set.Finite.Basic
import Mathlib.Logic.Relation
import Mathlib.Order.WellFounded

/-!
# Threads that take locks

Threads run calls over a shared structure.  A call takes locks, which it may take
again while it holds them, and gives them back in reverse order.  A `Discipline` says
which lock a call may ask for that holds certain locks, and how the structure may
change under certain locks.  What the call has been allowed to ask for must stay
allowed while other threads change the structure (`Discipline.stable`).

In every state that any interleaving reaches no two threads hold one lock, and what a
thread waits for is still allowed (`Run.sound`).  In a deadlock some thread waits for
a lock that does not come after all the locks it holds, whatever the order, if it has
no cycle (`Deadlocked.exists_disordered`).
-/

namespace Locking

variable {σ ι κ L : Type}

/-- What calls may ask for, and what may change. -/
structure Discipline (σ κ L : Type) where
  /-- A call that holds the locks, the newest first, may ask for the lock. -/
  asks : σ → κ → List L → L → Prop
  /-- A call that holds the locks may change the structure. -/
  changes : σ → List L → σ → Prop
  stable : ∀ {s s' k l} {mine others : List L}, changes s others s' → (∀ x ∈ mine, x ∉ others) →
    asks s k mine l → asks s' k mine l

/-- The structure, and for each thread its call, the locks it holds, and the lock it
waits for. -/
structure Config (σ ι κ L : Type) where
  structure_ : σ
  call : ι → Option κ
  held : ι → List L
  wants : ι → Option L

/-- No thread runs a call. -/
def idle (s : σ) : Config σ ι κ L := ⟨s, fun _ => none, fun _ => [], fun _ => none⟩

variable [DecidableEq ι]

/-- The steps of a thread. -/
inductive Step (P : Discipline σ κ L) (c : Config σ ι κ L) : ι → Config σ ι κ L → Prop where
  | start {i : ι} {k : κ} : c.call i = none → c.held i = [] →
      Step P c i { c with call := Function.update c.call i (some k) }
  | ask {i : ι} {k : κ} {l : L} : c.call i = some k → c.wants i = none →
      P.asks c.structure_ k (c.held i) l →
      Step P c i { c with wants := Function.update c.wants i (some l) }
  | take {i : ι} {l : L} : c.wants i = some l → (∀ j, j ≠ i → l ∉ c.held j) →
      Step P c i { c with
        held := Function.update c.held i (l :: c.held i)
        wants := Function.update c.wants i none }
  | drop {i : ι} {l : L} {ls : List L} : c.wants i = none → c.held i = l :: ls →
      Step P c i { c with held := Function.update c.held i ls }
  | change {i : ι} {s : σ} : c.wants i = none → P.changes c.structure_ (c.held i) s →
      Step P c i { c with structure_ := s }
  | finish {i : ι} : c.wants i = none → c.held i = [] →
      Step P c i { c with call := Function.update c.call i none }

/-- The states that are reached when the threads take steps in any order. -/
inductive Run (P : Discipline σ κ L) (c₀ : Config σ ι κ L) : Config σ ι κ L → Prop where
  | refl : Run P c₀ c₀
  | tail {c c' : Config σ ι κ L} {i : ι} : Run P c₀ c → Step P c i c' → Run P c₀ c'

/-- A thread takes a lock that no other thread holds. -/
theorem Run.acquire {P : Discipline σ κ L} {c₀ c : Config σ ι κ L} {i : ι} {k : κ} {l : L}
    (h : Run P c₀ c) (hcall : c.call i = some k) (hwants : c.wants i = none)
    (hasks : P.asks c.structure_ k (c.held i) l) (hfree : ∀ j, j ≠ i → l ∉ c.held j) :
    Run P c₀ { c with held := Function.update c.held i (l :: c.held i) } := by
  have htaken := (h.tail (.ask hcall hwants hasks)).tail
    (.take (Function.update_self i (some l) c.wants) hfree)
  rwa [Function.update_idem, ← hwants, Function.update_eq_self] at htaken

/-- No two threads hold one lock, and what a thread waits for it may ask for. -/
structure Sound (P : Discipline σ κ L) (c : Config σ ι κ L) : Prop where
  exclusive : ∀ {i j l}, l ∈ c.held i → l ∈ c.held j → i = j
  justified : ∀ {i l}, c.wants i = some l →
    ∃ k, c.call i = some k ∧ P.asks c.structure_ k (c.held i) l

namespace Sound

variable {P : Discipline σ κ L} {c c' : Config σ ι κ L} {i : ι}

omit [DecidableEq ι] in
theorem idle (s : σ) : Sound P (Locking.idle s : Config σ ι κ L) :=
  ⟨fun h => absurd h List.not_mem_nil, fun h => by cases h⟩

omit [DecidableEq ι] in
/-- A thread holds no lock of another. -/
theorem not_mem (hc : Sound P c) {j : ι} (hne : j ≠ i) {l : L} (hl : l ∈ c.held j) :
    l ∉ c.held i := fun hi => hne (hc.exclusive hl hi)

theorem step (hc : Sound P c) (hs : Step P c i c') : Sound P c' := by
  cases hs with
  | @start k hcall hheld =>
      refine ⟨hc.exclusive, fun {j l} hw => ?_⟩
      obtain ⟨k', hk', hasks⟩ := hc.justified hw
      have hne : j ≠ i := by
        rintro rfl
        rw [hcall] at hk'
        cases hk'
      exact ⟨k', (Function.update_of_ne hne ..).trans hk', hasks⟩
  | @ask k l hcall hwants hasks =>
      refine ⟨hc.exclusive, fun {j l'} hw => ?_⟩
      by_cases hj : j = i
      · subst hj
        simp only [Function.update_self, Option.some.injEq] at hw
        subst hw
        exact ⟨k, hcall, hasks⟩
      · simp only [Function.update_of_ne hj] at hw
        exact hc.justified hw
  | @take l hwants hfree =>
      have hheld : ∀ {j x}, x ∈ Function.update c.held i (l :: c.held i) j →
          (j = i ∧ x = l) ∨ x ∈ c.held j := by
        intro j x hx
        by_cases hj : j = i
        · subst hj
          rw [Function.update_self] at hx
          exact (List.mem_cons.mp hx).imp_left fun hxl => ⟨rfl, hxl⟩
        · rw [Function.update_of_ne hj] at hx
          exact .inr hx
      refine ⟨fun {j j' x} hx hx' => ?_, fun {j l'} hw => ?_⟩
      · rcases hheld hx with ⟨rfl, rfl⟩ | hold
        · rcases hheld hx' with ⟨rfl, -⟩ | hold'
          · rfl
          · by_contra hne
            exact hfree j' (Ne.symm hne) hold'
        · rcases hheld hx' with ⟨rfl, rfl⟩ | hold'
          · by_contra hne
            exact hfree j hne hold
          · exact hc.exclusive hold hold'
      · have hne : j ≠ i := by
          rintro rfl
          simp only [Function.update_self, reduceCtorEq] at hw
        simp only [Function.update_of_ne hne] at hw
        obtain ⟨k, hk, hasks⟩ := hc.justified hw
        refine ⟨k, hk, ?_⟩
        simpa only [Function.update_of_ne hne] using hasks
  | @drop l ls hwants hheld =>
      have hsub : ∀ {j x}, x ∈ Function.update c.held i ls j → x ∈ c.held j := by
        intro j x hx
        by_cases hj : j = i
        · subst hj
          rw [Function.update_self] at hx
          rw [hheld]
          exact List.mem_cons_of_mem _ hx
        · rwa [Function.update_of_ne hj] at hx
      refine ⟨fun hx hx' => hc.exclusive (hsub hx) (hsub hx'), fun {j l'} hw => ?_⟩
      have hne : j ≠ i := by
        rintro rfl
        rw [hwants] at hw
        cases hw
      obtain ⟨k, hk, hasks⟩ := hc.justified hw
      refine ⟨k, hk, ?_⟩
      simpa only [Function.update_of_ne hne] using hasks
  | @change s hwants hchange =>
      refine ⟨hc.exclusive, fun {j l} hw => ?_⟩
      have hne : j ≠ i := by
        rintro rfl
        rw [hwants] at hw
        cases hw
      obtain ⟨k, hk, hasks⟩ := hc.justified hw
      exact ⟨k, hk, P.stable hchange (fun x hx => hc.not_mem hne hx) hasks⟩
  | finish hwants hheld =>
      refine ⟨hc.exclusive, fun {j l} hw => ?_⟩
      have hne : j ≠ i := by
        rintro rfl
        rw [hwants] at hw
        cases hw
      obtain ⟨k, hk, hasks⟩ := hc.justified hw
      exact ⟨k, (Function.update_of_ne hne ..).trans hk, hasks⟩

end Sound

/-- Every interleaving keeps to the discipline. -/
theorem Run.sound {P : Discipline σ κ L} {s : σ} {c : Config σ ι κ L}
    (h : Run P (idle s) c) : Sound P c := by
  induction h with
  | refl => exact .idle s
  | tail _ hs ih => exact ih.step hs

/-! ## Deadlocks -/

/-- Each of the threads waits for a lock that another of them holds. -/
structure Deadlocked (c : Config σ ι κ L) (D : Set ι) : Prop where
  finite : D.Finite
  nonempty : D.Nonempty
  waits : ∀ i ∈ D, ∃ l j, c.wants i = some l ∧ j ∈ D ∧ j ≠ i ∧ l ∈ c.held j

omit [DecidableEq ι] in
/-- Where an order of the locks has no cycle, some thread of a deadlock breaks it. -/
theorem Deadlocked.exists_disordered {c : Config σ ι κ L} {D : Set ι} {R : L → L → Prop}
    (hR : ∀ l, ¬ Relation.TransGen R l l) (hD : Deadlocked c D) :
    ∃ i ∈ D, ∃ l h, c.wants i = some l ∧ h ∈ c.held i ∧ ¬ R h l := by
  by_contra hall
  push Not at hall
  -- the locks that are waited for have a greatest element
  have hwanted : {l | ∃ i ∈ D, c.wants i = some l}.Finite := by
    refine (hD.finite.image c.wants).preimage (Option.some_injective L).injOn |>.subset ?_
    rintro l ⟨i, hi, hw⟩
    exact ⟨i, hi, hw⟩
  obtain ⟨i₀, hi₀⟩ := hD.nonempty
  obtain ⟨l₀, -, hl₀, -⟩ := hD.waits i₀ hi₀
  have hgreatest : ∃ l, (∃ i ∈ D, c.wants i = some l) ∧
      ∀ l', (∃ i ∈ D, c.wants i = some l') → ¬ Relation.TransGen R l l' := by
    have := hwanted.to_subtype
    let r : {l | ∃ i ∈ D, c.wants i = some l} → {l | ∃ i ∈ D, c.wants i = some l} → Prop :=
      fun a b => Relation.TransGen R b a
    have : IsTrans _ r := ⟨fun _ _ _ hab hbc => hbc.trans hab⟩
    have : Std.Irrefl r := ⟨fun a => hR a⟩
    obtain ⟨m, -, hm⟩ := (Finite.wellFounded_of_trans_of_irrefl r).has_min Set.univ
      ⟨⟨l₀, i₀, hi₀, hl₀⟩, trivial⟩
    exact ⟨m, m.2, fun l' hl' => hm ⟨l', hl'⟩ trivial⟩
  obtain ⟨l, ⟨i, hi, hw⟩, hmax⟩ := hgreatest
  obtain ⟨l', j, hw', hj, -, hmem⟩ := hD.waits i hi
  obtain rfl := Option.some.inj (hw.symm.trans hw')
  obtain ⟨l', -, hw'', -⟩ := hD.waits j hj
  exact hmax l' ⟨j, hj, hw''⟩ (.single (hall j hj l' l hw'' hmem))

end Locking
