import Mathlib.Data.List.Basic

/-!
# Walks along paths with links

A path is a list of segments.  A walk goes from one node to the child of the name of
the next segment.  A child may be a *link*, which has a path of its own.  The walk
goes on with the segments of that path in front of those that are left, from where the
link's path starts.  So a walk is one loop over a list of segments, which links make
longer, and every link costs one unit of a budget (`walk`).  All nodes before the last
have to be directories.

Walks compose (`walk_append`), a larger budget finds the same as long as the smaller one
is not used up (`walk_add`), and a smaller one does as long as it covers the links
(`walk_sub`).  A lookup may change the state.
-/

/-- Nodes with named children, some of which are links. -/
structure LinkedNodes (σ ι ν τ ε : Type) where
  child : σ → ι → ν → σ × Option ι
  isDirectory : σ → ι → Bool
  /-- The target of a link. -/
  target : σ → ι → Option τ
  /-- Where the path of a target starts, for a link in this directory. -/
  start : σ → τ → ι → ι
  /-- The segments of a target before the last one, and the last one. -/
  segments : τ → Except ε (List ν × ν)
  /-- There is no child of that name. -/
  missing : ε
  /-- A node before the last is not a directory. -/
  notDirectory : ε
  /-- There are too many links. -/
  tooMany : ε

namespace LinkedNodes

variable {σ ι ν τ ε α β γ : Type}

/-! ## Outcomes -/

/-- The state, and an error or a result with the number of links left. -/
abbrev Outcome (σ ε α : Type) := σ × Except ε (α × Nat)

namespace Outcome

/-- Go on after a success. -/
def bind (r : Outcome σ ε α) (k : Nat → σ → α → Outcome σ ε β) : Outcome σ ε β :=
  match r with
  | (s, .error e) => (s, .error e)
  | (s, .ok (a, left)) => k left s a

@[simp] theorem bind_ok (s : σ) (a : α) (left : Nat) (k : Nat → σ → α → Outcome σ ε β) :
    bind (s, .ok (a, left)) k = k left s a := rfl

@[simp] theorem bind_error (s : σ) (e : ε) (k : Nat → σ → α → Outcome σ ε β) :
    bind (s, .error e) k = (s, .error e) := rfl

theorem bind_assoc (r : Outcome σ ε α) (k : Nat → σ → α → Outcome σ ε β)
    (k' : Nat → σ → β → Outcome σ ε γ) :
    (r.bind k).bind k' = r.bind fun left s a => (k left s a).bind k' := by
  obtain ⟨s, e | ⟨a, left⟩⟩ := r <;> rfl

/-- The same outcome for something else. -/
def map (f : α → β) (r : Outcome σ ε α) : Outcome σ ε β :=
  r.bind fun left s a => (s, .ok (f a, left))

@[simp] theorem map_ok (f : α → β) (s : σ) (a : α) (left : Nat) :
    map f ((s, .ok (a, left)) : Outcome σ ε α) = (s, .ok (f a, left)) := rfl

@[simp] theorem map_error (f : α → β) (s : σ) (e : ε) :
    map f (s, .error e) = (s, .error e) := rfl

theorem of_map_eq_ok {f : α → β} {r : Outcome σ ε α} {s : σ} {b : β} {left : Nat}
    (h : r.map f = (s, .ok (b, left))) : ∃ a, f a = b ∧ r = (s, .ok (a, left)) := by
  obtain ⟨s₁, e | ⟨a, left₁⟩⟩ := r
  · cases h
  · cases h
    exact ⟨a, rfl, rfl⟩

theorem of_map_eq_error {f : α → β} {r : Outcome σ ε α} {s : σ} {e : ε}
    (h : r.map f = (s, .error e)) : r = (s, .error e) := by
  obtain ⟨s₁, e₁ | ⟨a, left₁⟩⟩ := r
  · cases h
    rfl
  · cases h

/-- The same with more links left. -/
def more (k : Nat) (r : Outcome σ ε α) : Outcome σ ε α :=
  match r with
  | (s, .error e) => (s, .error e)
  | (s, .ok (a, left)) => (s, .ok (a, left + k))

/-- The state and the result, without the links that are left. -/
def answer (r : Outcome σ ε α) : σ × Except ε α := (r.1, r.2.map Prod.fst)

theorem ne_error_of_answer {r : Outcome σ ε α} {e : ε} (h : r.answer.2 ≠ .error e) :
    r.2 ≠ .error e := by
  intro he
  apply h
  unfold answer
  rw [he]
  rfl

@[simp] theorem answer_more (k : Nat) (r : Outcome σ ε α) : (r.more k).answer = r.answer := by
  obtain ⟨s, e | ⟨a, left⟩⟩ := r <;> rfl

theorem map_injective {f : α → β} (hf : Function.Injective f) :
    Function.Injective (map f : Outcome σ ε α → Outcome σ ε β) := by
  rintro ⟨s, e | ⟨a, left⟩⟩ ⟨s', e' | ⟨a', left'⟩⟩ h <;>
    simp only [map_ok, map_error, Prod.mk.injEq, Except.ok.injEq, Except.error.injEq,
      reduceCtorEq, and_false] at h
  · rw [h.1, h.2]
  · rw [h.1, hf h.2.1, h.2.2]

theorem ne_error_of_bind {e : ε} {r : Outcome σ ε α} {f : Nat → σ → α → Outcome σ ε β}
    (h : (r.bind f).2 ≠ .error e) : r.2 ≠ .error e := by
  obtain ⟨s, e' | ⟨a, left⟩⟩ := r
  · simpa using h
  · exact nofun

/-- What goes on after a success does so with more links, too, if neither fails with `e`. -/
theorem bind_more {e : ε} {k : Nat} {r : Outcome σ ε α} {f : Nat → σ → α → Outcome σ ε β}
    (hf : ∀ left s a, (f left s a).2 ≠ .error e → f (left + k) s a = (f left s a).more k)
    (h : (r.bind f).2 ≠ .error e) : (r.more k).bind f = (r.bind f).more k := by
  obtain ⟨s, e' | ⟨a, left⟩⟩ := r
  · rfl
  · exact hf left s a h

end Outcome

open Outcome

/-! ## Walks -/

variable (S : LinkedNodes σ ι ν τ ε)

/-- The loop over the segments. -/
def walkWith (follow : σ → ι → τ → List ν → Outcome σ ε ι) (budget : Nat) :
    List ν → σ → ι → Outcome σ ε ι
  | [], s, d => (s, .ok (d, budget))
  | x :: xs, s, d =>
      match S.child s d x with
      | (s, none) => (s, .error S.missing)
      | (s, some c) =>
          match S.target s c with
          | some t => follow s d t xs
          | none =>
              if xs = [] ∨ S.isDirectory s c then walkWith follow budget xs s c
              else (s, .error S.notDirectory)

/-- Walk along the segments from a directory, and follow every link. -/
def walk : Nat → List ν → σ → ι → Outcome σ ε ι
  | 0 => S.walkWith (fun s _ _ _ => (s, .error S.tooMany)) 0
  | budget + 1 =>
      S.walkWith (fun s d t xs =>
        match S.segments t with
        | .error e => (s, .error e)
        | .ok (ys, y) => walk budget (ys ++ y :: xs) s (S.start s t d)) (budget + 1)

/-- Follow a link with this target, found in the directory `d`, with the segments `xs` left. -/
def follow : Nat → σ → ι → τ → List ν → Outcome σ ε ι
  | 0, s, _, _, _ => (s, .error S.tooMany)
  | budget + 1, s, d, t, xs =>
      match S.segments t with
      | .error e => (s, .error e)
      | .ok (ys, y) => S.walk budget (ys ++ y :: xs) s (S.start s t d)

/-- A directory only. -/
def checkDirectory (left : Nat) (s : σ) (c : ι) : Outcome σ ε ι :=
  if S.isDirectory s c then (s, .ok (c, left)) else (s, .error S.notDirectory)

/-- Walk along segments that more segments follow. -/
def enter (budget : Nat) (xs : List ν) (s : σ) (d : ι) : Outcome σ ε ι :=
  if xs = [] then (s, .ok (d, budget)) else (S.walk budget xs s d).bind S.checkDirectory

variable {S}

@[simp] theorem walk_nil (budget : Nat) (s : σ) (d : ι) :
    S.walk budget [] s d = (s, .ok (d, budget)) := by
  cases budget <;> rfl

/-- One segment. -/
theorem walk_cons (budget : Nat) (x : ν) (xs : List ν) (s : σ) (d : ι) :
    S.walk budget (x :: xs) s d =
      match S.child s d x with
      | (s, none) => (s, .error S.missing)
      | (s, some c) =>
          match S.target s c with
          | some t => S.follow budget s d t xs
          | none =>
              if xs = [] ∨ S.isDirectory s c then S.walk budget xs s c
              else (s, .error S.notDirectory) := by
  cases budget <;> rfl

@[simp] theorem enter_nil (budget : Nat) (s : σ) (d : ι) :
    S.enter budget [] s d = (s, .ok (d, budget)) := if_pos rfl

theorem enter_of_ne_nil {xs : List ν} (h : xs ≠ []) (budget : Nat) (s : σ) (d : ι) :
    S.enter budget xs s d = (S.walk budget xs s d).bind S.checkDirectory := if_neg h

/-! ## The state -/

/-- If lookups leave the state alone, so do walks. -/
theorem walk_state {s : σ} (hchild : ∀ d x, (S.child s d x).1 = s) (budget : Nat) (xs : List ν)
    (d : ι) : (S.walk budget xs s d).1 = s := by
  induction budget using Nat.strongRecOn generalizing xs d with
  | _ budget ihb =>
  induction xs generalizing d with
  | nil => rw [walk_nil]
  | cons x xs ih =>
      rw [walk_cons]
      have hstate := hchild d x
      rcases hc : S.child s d x with ⟨s₁, _ | c⟩
      · rw [hc] at hstate
        exact hstate
      rw [hc] at hstate
      subst hstate
      simp only
      cases S.target s₁ c with
      | some t =>
          cases budget with
          | zero => rfl
          | succ budget =>
              simp only [follow]
              rcases S.segments t with e | ⟨zs, z⟩
              · rfl
              · exact ihb budget (Nat.lt_succ_self _) _ _
      | none =>
          simp only
          split
          · exact ih c
          · rfl

theorem enter_state {s : σ} (hchild : ∀ d x, (S.child s d x).1 = s) (budget : Nat) (xs : List ν)
    (d : ι) : (S.enter budget xs s d).1 = s := by
  unfold enter
  split
  · rfl
  have hwalk := walk_state hchild budget xs d
  rcases hw : S.walk budget xs s d with ⟨s₁, e | ⟨c, left⟩⟩
  · rw [hw] at hwalk
    exact hwalk
  · rw [hw] at hwalk
    rw [bind_ok]
    unfold checkDirectory
    split <;> exact hwalk

/-- What a walk finds is a child. -/
theorem walk_found {s : σ} (hchild : ∀ d x, (S.child s d x).1 = s) {budget : Nat} {xs : List ν}
    {d c : ι} {left : Nat} (hxs : xs ≠ []) (hok : (S.walk budget xs s d).2 = .ok (c, left)) :
    ∃ d' x, S.child s d' x = (s, some c) := by
  induction budget using Nat.strongRecOn generalizing xs d with
  | _ budget ihb =>
  induction xs generalizing d with
  | nil => exact absurd rfl hxs
  | cons x xs ih =>
      rw [walk_cons] at hok
      have hstate := hchild d x
      rcases hc : S.child s d x with ⟨s₁, _ | c'⟩
      · rw [hc] at hok
        cases hok
      rw [hc] at hstate
      obtain rfl : s₁ = s := hstate
      simp only [hc] at hok
      cases ht : S.target s₁ c' with
      | some t =>
          rw [ht] at hok
          cases budget with
          | zero => cases hok
          | succ budget =>
              simp only [follow] at hok
              rcases hseg : S.segments t with e | ⟨zs, z⟩
              · rw [hseg] at hok
                cases hok
              · rw [hseg] at hok
                exact ihb budget (Nat.lt_succ_self _) (by simp) hok
      | none =>
          rw [ht] at hok
          simp only at hok
          by_cases hrest : xs = []
          · subst hrest
            rw [if_pos (Or.inl rfl), walk_nil] at hok
            cases hok
            exact ⟨d, x, hc⟩
          · split at hok
            · exact ih hrest hok
            · cases hok

/-! ## Composition -/

/-- Segments are walked in two parts.  The first part ends at a directory. -/
theorem walk_append (budget : Nat) (xs : List ν) {ys : List ν} (hys : ys ≠ []) (s : σ) (d : ι) :
    S.walk budget (xs ++ ys) s d =
      (S.enter budget xs s d).bind fun left s d => S.walk left ys s d := by
  -- a link needs the walks with a smaller budget, a directory the shorter ones
  induction budget using Nat.strongRecOn generalizing xs s d with
  | _ budget ihb =>
  induction xs generalizing s d with
  | nil => rw [List.nil_append, enter_nil, bind_ok]
  | cons x xs ih =>
      rw [List.cons_append, enter_of_ne_nil (List.cons_ne_nil x xs), walk_cons, walk_cons]
      rcases S.child s d x with ⟨s₁, _ | c⟩
      · rfl
      simp only
      cases S.target s₁ c with
      | some t =>
          cases budget with
          | zero => rfl
          | succ budget =>
              simp only [follow]
              rcases S.segments t with e | ⟨zs, z⟩
              · rfl
              · have hrest := ihb budget (Nat.lt_succ_self _) (zs ++ z :: xs) s₁ (S.start s₁ t d)
                rw [List.append_assoc, List.cons_append, enter_of_ne_nil (by simp)] at hrest
                exact hrest
      | none =>
          have hne : ¬ (xs ++ ys = []) := fun h => hys (List.append_eq_nil_iff.mp h).2
          simp only [hne, false_or]
          by_cases hdir : S.isDirectory s₁ c
          · rw [if_pos hdir, if_pos (Or.inr hdir), ih]
            by_cases hxs : xs = []
            · subst hxs
              simp only [enter_nil, walk_nil, bind_ok, checkDirectory, hdir, if_true]
            · rw [enter_of_ne_nil hxs]
          · rw [if_neg hdir]
            by_cases hxs : xs = []
            · subst hxs
              simp only [true_or, if_true, walk_nil, bind_ok, checkDirectory, hdir, if_false,
                bind_error, Bool.false_eq_true]
            · simp only [hxs, hdir, false_or, if_false, bind_error, Bool.false_eq_true]

theorem enter_append (budget : Nat) (xs ys : List ν) (s : σ) (d : ι) :
    S.enter budget (xs ++ ys) s d =
      (S.enter budget xs s d).bind fun left s d => S.enter left ys s d := by
  by_cases hys : ys = []
  · subst hys
    rw [List.append_nil]
    obtain ⟨s₁, e | ⟨c, left⟩⟩ := S.enter budget xs s d <;> simp
  · rw [enter_of_ne_nil (by simp [hys]), walk_append budget xs hys, bind_assoc]
    congr 1
    funext left s d
    rw [enter_of_ne_nil hys]

/-! ## Budgets -/

/-- The links that are left were there. -/
theorem left_le {budget : Nat} {xs : List ν} {s s' : σ} {d c : ι} {left : Nat}
    (h : S.walk budget xs s d = (s', .ok (c, left))) : left ≤ budget := by
  induction budget using Nat.strongRecOn generalizing xs s d with
  | _ budget ihb =>
  induction xs generalizing s d with
  | nil =>
      rw [walk_nil] at h
      cases h
      exact Nat.le_refl _
  | cons x xs ih =>
      rw [walk_cons] at h
      split at h
      · cases h
      split at h
      · cases budget with
        | zero => cases h
        | succ budget =>
            simp only [follow] at h
            split at h
            · cases h
            · exact Nat.le_succ_of_le (ihb budget (Nat.lt_succ_self _) h)
      split at h
      · exact ih h
      · cases h

theorem enter_left_le {budget : Nat} {xs : List ν} {s s' : σ} {d c : ι} {left : Nat}
    (h : S.enter budget xs s d = (s', .ok (c, left))) : left ≤ budget := by
  unfold enter at h
  split at h
  · cases h
    exact Nat.le_refl _
  rcases hw : S.walk budget xs s d with ⟨s₁, e | ⟨c₁, left₁⟩⟩
  · rw [hw] at h
    cases h
  · rw [hw, bind_ok, checkDirectory] at h
    split at h
    · cases h
      exact left_le hw
    · cases h

/-- With a larger budget the same is found, unless the links were too many. -/
theorem walk_add (k : Nat) {budget : Nat} {xs : List ν} {s : σ} {d : ι}
    (h : (S.walk budget xs s d).2 ≠ .error S.tooMany) :
    S.walk (budget + k) xs s d = (S.walk budget xs s d).more k := by
  induction budget using Nat.strongRecOn generalizing xs s d with
  | _ budget ihb =>
  induction xs generalizing s d with
  | nil =>
      rw [walk_nil, walk_nil]
      rfl
  | cons x xs ih =>
      rw [walk_cons] at h
      rw [walk_cons, walk_cons]
      rcases hc : S.child s d x with ⟨s₁, _ | c⟩
      · rfl
      simp only [hc] at h ⊢
      cases ht : S.target s₁ c with
      | some t =>
          rw [ht] at h
          cases budget with
          | zero => exact absurd rfl h
          | succ budget =>
              rw [Nat.succ_add]
              simp only [follow] at h ⊢
              rcases hseg : S.segments t with e | ⟨zs, z⟩
              · rfl
              · rw [hseg] at h
                exact ihb budget (Nat.lt_succ_self _) h
      | none =>
          rw [ht] at h
          simp only at h ⊢
          by_cases hgo : xs = [] ∨ S.isDirectory s₁ c
          · rw [if_pos hgo] at h
            rw [if_pos hgo, if_pos hgo]
            exact ih h
          · rw [if_neg hgo, if_neg hgo]
            rfl

theorem enter_add (k : Nat) {budget : Nat} {xs : List ν} {s : σ} {d : ι}
    (h : (S.enter budget xs s d).2 ≠ .error S.tooMany) :
    S.enter (budget + k) xs s d = (S.enter budget xs s d).more k := by
  by_cases hxs : xs = []
  · subst hxs
    rw [enter_nil, enter_nil]
    rfl
  · rw [enter_of_ne_nil hxs] at h
    rw [enter_of_ne_nil hxs, enter_of_ne_nil hxs, walk_add k (ne_error_of_bind h)]
    refine bind_more (fun left s c _ => ?_) h
    unfold checkDirectory
    split <;> rfl

/-- A smaller budget that covers the links finds the same. -/
theorem walk_sub {k budget : Nat} {xs : List ν} {s s' : σ} {d c : ι} {left : Nat}
    (h : S.walk (budget + k) xs s d = (s', .ok (c, left + k))) :
    S.walk budget xs s d = (s', .ok (c, left)) := by
  induction budget using Nat.strongRecOn generalizing xs s d with
  | _ budget ihb =>
  induction xs generalizing s d with
  | nil =>
      rw [walk_nil] at h ⊢
      simp only [Prod.mk.injEq, Except.ok.injEq] at h ⊢
      exact ⟨h.1, h.2.1, Nat.add_right_cancel h.2.2⟩
  | cons x xs ih =>
      rw [walk_cons] at h ⊢
      rcases hc : S.child s d x with ⟨s₁, _ | c'⟩
      · rw [hc] at h
        cases h
      simp only [hc] at h ⊢
      cases ht : S.target s₁ c' with
      | some t =>
          rw [ht] at h
          cases budget with
          | zero =>
              -- the links that are left are more than there were
              rw [Nat.zero_add] at h
              cases k with
              | zero => exact h
              | succ k =>
                  simp only [follow] at h
                  split at h
                  · cases h
                  · exact absurd (left_le h) (by omega)
          | succ budget =>
              rw [Nat.succ_add] at h
              simp only [follow] at h ⊢
              rcases hseg : S.segments t with e | ⟨zs, z⟩
              · rw [hseg] at h
                cases h
              · rw [hseg] at h
                exact ihb budget (Nat.lt_succ_self _) h
      | none =>
          rw [ht] at h
          simp only at h ⊢
          by_cases hgo : xs = [] ∨ S.isDirectory s₁ c'
          · rw [if_pos hgo] at h ⊢
            exact ih h
          · rw [if_neg hgo] at h
            cases h

/-! ## More nodes -/

/-- What is found in the first state is found in the second, and is the same there. -/
structure Extends (S : LinkedNodes σ ι ν τ ε) (s s' : σ) : Prop where
  pure : ∀ d x, (S.child s d x).1 = s
  child : ∀ {d x c}, S.child s d x = (s, some c) → S.child s' d x = (s', some c)
  target : ∀ {d x c}, S.child s d x = (s, some c) → S.target s' c = S.target s c
  isDirectory : ∀ {d x c}, S.child s d x = (s, some c) → S.isDirectory s' c = S.isDirectory s c
  start : ∀ t d, S.start s' t d = S.start s t d

namespace Extends

variable {s s' : σ}

/-- A walk that succeeds does so in the second state. -/
theorem walk (h : S.Extends s s') {budget : Nat} {xs : List ν} {d c : ι} {left : Nat}
    (hok : (S.walk budget xs s d).2 = .ok (c, left)) :
    S.walk budget xs s' d = (s', .ok (c, left)) := by
  induction budget using Nat.strongRecOn generalizing xs d with
  | _ budget ihb =>
  induction xs generalizing d with
  | nil =>
      rw [walk_nil] at hok ⊢
      rw [Except.ok.inj hok]
  | cons x xs ih =>
      rw [walk_cons] at hok ⊢
      have hpure := h.pure d x
      rcases hc : S.child s d x with ⟨s₁, _ | c'⟩
      · rw [hc] at hok
        cases hok
      rw [hc] at hpure
      obtain rfl : s₁ = s := hpure
      simp only [hc] at hok
      simp only [h.child hc, h.target hc, h.isDirectory hc]
      cases ht : S.target s₁ c' with
      | some t =>
          rw [ht] at hok
          cases budget with
          | zero => cases hok
          | succ budget =>
              simp only [follow, h.start] at hok ⊢
              rcases hseg : S.segments t with e | ⟨zs, z⟩
              · rw [hseg] at hok
                cases hok
              · rw [hseg] at hok
                exact ihb budget (Nat.lt_succ_self _) hok
      | none =>
          rw [ht] at hok
          simp only at hok ⊢
          by_cases hgo : xs = [] ∨ S.isDirectory s₁ c'
          · rw [if_pos hgo] at hok ⊢
            exact ih hok
          · rw [if_neg hgo] at hok
            cases hok

theorem enter (h : S.Extends s s') {budget : Nat} {xs : List ν} {d c : ι} {left : Nat}
    (hok : (S.enter budget xs s d).2 = .ok (c, left)) :
    S.enter budget xs s' d = (s', .ok (c, left)) := by
  by_cases hxs : xs = []
  · subst hxs
    rw [enter_nil] at hok ⊢
    rw [Except.ok.inj hok]
  rw [enter_of_ne_nil hxs] at hok ⊢
  rcases hw : S.walk budget xs s d with ⟨s₁, e | ⟨c₁, left₁⟩⟩
  · rw [hw] at hok
    cases hok
  have hstate := walk_state h.pure budget xs d
  rw [hw] at hok hstate
  obtain rfl : s₁ = s := hstate
  rw [h.walk (congrArg Prod.snd hw), bind_ok]
  rw [bind_ok] at hok
  unfold checkDirectory at hok ⊢
  split at hok
  · rename_i hdir
    cases hok
    obtain ⟨d', x, hfound⟩ := walk_found h.pure hxs (congrArg Prod.snd hw)
    rw [if_pos (by rw [h.isDirectory hfound, hdir])]
  · cases hok

end Extends

end LinkedNodes
