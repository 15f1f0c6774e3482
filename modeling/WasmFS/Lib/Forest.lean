import Mathlib.Data.Finset.Card
import Mathlib.Data.Nat.Find
import Mathlib.Logic.Function.Basic
import Mathlib.Order.Defs.Unbundled

/-!
# Forests with named edges and parent pointers

A *forest* is a set of nodes with a distinguished root, edges `d -n-> c` that
carry names, and a parent pointer at each node.  Edges and parent pointers are
separate data, as they are in a file system that stores directory entries and
parent pointers in different places.  `Forest.WF` says that they agree: a node
is the child of its parent and of nobody else, under one name, names in a
directory are unique, and following parent pointers from any linked node leads to
the root, which is its own parent.

Three operations change a forest.  `link` adds a node that is not linked,
`unlink` removes a node without children, and `move` takes a node with all that
is below it to another place.  Each keeps a forest well formed under its own side
conditions (`WF.link`, `WF.unlink`, `WF.move`).  For `move` the condition is that
the target does not lie below the node moved.

`Ancestor a x` says that `a` is reached from `x` by following parent pointers,
and `up k x` is the node reached after `k` steps, if any.  In a well-formed forest
the root is reached in fewer steps than there are linked nodes (`WF.exists_up_lt`).
-/

/-- Nodes of type `ι`, edges with names of type `ν`, and parent pointers. -/
@[ext] structure Forest (ι ν : Type) where
  /-- The root. -/
  root : ι
  /-- The parent pointer of a node. -/
  parent : ι → Option ι
  /-- `edge d n c`: the node `d` has the child `c` under the name `n`. -/
  edge : ι → ν → ι → Prop

namespace Forest

variable {ι ν : Type}

/-- `a` is `x` or is reached from `x` by following parent pointers. -/
inductive Ancestor (F : Forest ι ν) (a : ι) : ι → Prop where
  | refl : Ancestor F a a
  | step {x p : ι} : F.parent x = some p → Ancestor F a p → Ancestor F a x

/-- A node has a parent. -/
def Linked (F : Forest ι ν) (x : ι) : Prop := F.parent x ≠ none

/-- Following parent pointers from the node leads to the root. -/
def Rooted (F : Forest ι ν) (x : ι) : Prop := Ancestor F F.root x

/-- Edges and parent pointers agree, and parent pointers lead to the root. -/
structure WF (F : Forest ι ν) : Prop where
  /-- The root is its own parent. -/
  root_parent : F.parent F.root = some F.root
  /-- The root is nobody's child. -/
  root_not_child : ∀ {d n}, ¬ F.edge d n F.root
  /-- A child points back to its parent. -/
  edge_parent : ∀ {d n c}, F.edge d n c → F.parent c = some d
  /-- A node is a child of its parent. -/
  parent_edge : ∀ {d c}, F.parent c = some d → c ≠ F.root → ∃ n, F.edge d n c
  /-- A node has at most one name in a directory. -/
  name_unique : ∀ {d n n' c}, F.edge d n c → F.edge d n' c → n = n'
  /-- A name stands for at most one node in a directory. -/
  child_unique : ∀ {d n c c'}, F.edge d n c → F.edge d n c' → c = c'
  /-- A linked node is rooted. -/
  rooted : ∀ {x}, F.Linked x → F.Rooted x

/-! ## Ancestors -/

/-- Parent pointers are functional, so an ancestor of a node is the node itself
or an ancestor of its parent. -/
theorem Ancestor.cases_parent {F : Forest ι ν} {a x p : ι} (h : F.Ancestor a x)
    (hp : F.parent x = some p) : a = x ∨ F.Ancestor a p := by
  cases h with
  | refl => exact Or.inl rfl
  | step hp' ha =>
      rw [hp] at hp'
      cases hp'
      exact Or.inr ha

theorem Ancestor.trans {F : Forest ι ν} {a b x : ι} (hab : F.Ancestor a b)
    (h : F.Ancestor b x) : F.Ancestor a x := by
  induction h with
  | refl => exact hab
  | step hp _ ih => exact .step hp ih

/-- A walk that avoids `c` survives any change of the parent pointer of `c`. -/
theorem Ancestor.congr_of_not {F G : Forest ι ν} {a c x : ι}
    (hpar : ∀ y, y ≠ c → G.parent y = F.parent y) (h : F.Ancestor a x)
    (hx : ¬ F.Ancestor c x) : G.Ancestor a x := by
  induction h with
  | refl => exact .refl
  | @step x p hp _ ih =>
      have hne : x ≠ c := by
        rintro rfl
        exact hx .refl
      exact .step ((hpar x hne).trans hp) (ih fun hc => hx (.step hp hc))

/-! ## Consequences of well-formedness -/

namespace WF

variable {F : Forest ι ν}

theorem root_linked (h : F.WF) : F.Linked F.root := by
  unfold Linked
  rw [h.root_parent]
  simp

theorem child_ne_root (h : F.WF) {d c : ι} {n : ν} (he : F.edge d n c) : c ≠ F.root := by
  rintro rfl
  exact h.root_not_child he

theorem child_linked (h : F.WF) {d c : ι} {n : ν} (he : F.edge d n c) : F.Linked c := by
  unfold Linked
  rw [h.edge_parent he]
  simp

/-- The parent of a linked node is linked. -/
theorem parent_linked (h : F.WF) {x p : ι} (hp : F.parent x = some p) : F.Linked p := by
  have hx : F.Linked x := by
    unfold Linked
    rw [hp]
    simp
  rcases (h.rooted hx).cases_parent hp with rfl | hr
  · rw [h.root_parent] at hp
    cases hp
    exact h.root_linked
  · cases hr with
    | refl => exact h.root_linked
    | step hq _ =>
        unfold Linked
        rw [hq]
        simp

/-- Only a linked node has children. -/
theorem linked_of_edge (h : F.WF) {d c : ι} {n : ν} (he : F.edge d n c) : F.Linked d :=
  h.parent_linked (h.edge_parent he)

/-- A node is the child of one node only, under one name. -/
theorem edge_unique (h : F.WF) {d d' c : ι} {n n' : ν} (he : F.edge d n c)
    (he' : F.edge d' n' c) : d = d' ∧ n = n' := by
  have hd : some d = some d' := (h.edge_parent he).symm.trans (h.edge_parent he')
  cases hd
  exact ⟨rfl, h.name_unique he he'⟩

/-- The parent of a node is not its child. -/
theorem not_edge_parent (h : F.WF) {d p : ι} {n : ν} (hp : F.parent d = some p) :
    ¬ F.edge d n p := by
  intro he
  have hback := h.edge_parent he
  have hrooted : F.Rooted d := h.rooted (h.linked_of_edge he)
  -- the way up from either of the two never leaves them
  have hcircle : ∀ {x}, F.Ancestor F.root x → x ≠ d ∧ x ≠ p := by
    intro x hx
    induction hx with
    | refl =>
        refine ⟨?_, (h.child_ne_root he).symm⟩
        rintro rfl
        rw [h.root_parent] at hp
        exact h.child_ne_root he (Option.some.inj hp).symm
    | step hparent _ ih =>
        refine ⟨?_, ?_⟩
        · rintro rfl
          exact ih.2 (Option.some.inj (hparent.symm.trans hp))
        · rintro rfl
          exact ih.1 (Option.some.inj (hparent.symm.trans hback))
  exact (hcircle hrooted).1 rfl

/-- A node is not its own child. -/
theorem not_edge_self (h : F.WF) {d : ι} {n : ν} : ¬ F.edge d n d :=
  fun he => h.not_edge_parent (h.edge_parent he) he

/-- The root has no other ancestor. -/
theorem eq_root_of_ancestor (h : F.WF) {a : ι} (ha : F.Ancestor a F.root) : a = F.root := by
  have hwalk : ∀ x, F.Ancestor a x → x = F.root → a = F.root := by
    intro x hx
    induction hx with
    | refl => exact id
    | @step x p hp _ ih =>
        rintro rfl
        rw [h.root_parent] at hp
        exact ih (Option.some.inj hp).symm
  exact hwalk _ ha rfl

/-- A node is not above its parent. -/
theorem not_ancestor_parent (h : F.WF) {x p : ι} (hp : F.parent x = some p) (hx : x ≠ F.root) :
    ¬ F.Ancestor x p := by
  have hrooted : F.Rooted x := by
    refine h.rooted ?_
    unfold Linked
    rw [hp]
    exact Option.some_ne_none p
  induction hrooted generalizing p with
  | refl => exact absurd rfl hx
  | @step x q hq hup ih =>
      obtain rfl := Option.some.inj (hq.symm.trans hp)
      intro ha
      cases hup with
      | refl => exact hx (h.eq_root_of_ancestor ha)
      | @step q q' hq' _ =>
          have hq₀ : q ≠ F.root := by
            rintro rfl
            exact hx (h.eq_root_of_ancestor ha)
          refine ih hq' hq₀ ?_
          rcases ha.cases_parent hq' with rfl | ha
          · obtain rfl := Option.some.inj (hq.symm.trans hq')
            exact .refl
          · exact Ancestor.trans (.step hq .refl) ha

/-- Going from nodes to children never comes back. -/
theorem not_transGen_child (h : F.WF) (x : ι) :
    ¬ Relation.TransGen (fun d c => ∃ n, F.edge d n c) x x := by
  have hbelow : ∀ {y}, Relation.TransGen (fun d c => ∃ n, F.edge d n c) x y →
      ∃ p, F.parent y = some p ∧ y ≠ F.root ∧ F.Ancestor x p := by
    intro y hy
    induction hy with
    | single he =>
        obtain ⟨n, he⟩ := he
        exact ⟨x, h.edge_parent he, h.child_ne_root he, .refl⟩
    | @tail y z _ he ih =>
        obtain ⟨n, he⟩ := he
        obtain ⟨p, hp, -, ha⟩ := ih
        exact ⟨y, h.edge_parent he, h.child_ne_root he, .step hp ha⟩
  intro hx
  obtain ⟨p, hp, hne, ha⟩ := hbelow hx
  exact h.not_ancestor_parent hp hne ha

/-- A rooted node is linked. -/
theorem linked_of_rooted (h : F.WF) {x : ι} (hx : F.Rooted x) : F.Linked x := by
  cases hx with
  | refl => exact h.root_linked
  | step hp _ =>
      unfold Linked
      rw [hp]
      simp

/-- A node without children is an ancestor of itself only. -/
theorem eq_of_ancestor_of_childless (h : F.WF) {c x : ι} (hc : ∀ n y, ¬ F.edge c n y)
    (hroot : c ≠ F.root) (ha : F.Ancestor c x) : x = c := by
  induction ha with
  | refl => rfl
  | @step x p hp _ ih =>
      cases ih
      by_cases hx : x = F.root
      · subst hx
        rw [h.root_parent] at hp
        exact absurd (Option.some.inj hp).symm hroot
      · obtain ⟨n, hn⟩ := h.parent_edge hp hx
        exact absurd hn (hc n x)

end WF

/-! ## The operations -/

variable [DecidableEq ι]

/-- Make `c` the child of `d` under the name `n`. -/
def link (F : Forest ι ν) (d : ι) (n : ν) (c : ι) : Forest ι ν where
  root := F.root
  parent := Function.update F.parent c (some d)
  edge := fun d' n' c' => F.edge d' n' c' ∨ (d' = d ∧ n' = n ∧ c' = c)

/-- Take `c` out of its directory. -/
def unlink (F : Forest ι ν) (c : ι) : Forest ι ν where
  root := F.root
  parent := Function.update F.parent c none
  edge := fun d' n' c' => F.edge d' n' c' ∧ c' ≠ c

/-- Take `c` out of its directory and make it the child of `d` under `n`. -/
def move (F : Forest ι ν) (c d : ι) (n : ν) : Forest ι ν where
  root := F.root
  parent := Function.update F.parent c (some d)
  edge := fun d' n' c' => (F.edge d' n' c' ∧ c' ≠ c) ∨ (d' = d ∧ n' = n ∧ c' = c)

@[simp] theorem link_root (F : Forest ι ν) (d : ι) (n : ν) (c : ι) :
    (F.link d n c).root = F.root := rfl

@[simp] theorem unlink_root (F : Forest ι ν) (c : ι) : (F.unlink c).root = F.root := rfl

@[simp] theorem move_root (F : Forest ι ν) (c d : ι) (n : ν) : (F.move c d n).root = F.root := rfl

theorem link_parent_self (F : Forest ι ν) (d : ι) (n : ν) (c : ι) :
    (F.link d n c).parent c = some d := Function.update_self ..

theorem link_parent_of_ne (F : Forest ι ν) (d : ι) (n : ν) {c x : ι} (h : x ≠ c) :
    (F.link d n c).parent x = F.parent x := Function.update_of_ne h ..

theorem unlink_parent_self (F : Forest ι ν) (c : ι) : (F.unlink c).parent c = none :=
  Function.update_self ..

theorem unlink_parent_of_ne (F : Forest ι ν) {c x : ι} (h : x ≠ c) :
    (F.unlink c).parent x = F.parent x := Function.update_of_ne h ..

/-- Taking a node out makes no new ancestors. -/
theorem Ancestor.of_unlink {F : Forest ι ν} {a c x : ι} (h : (F.unlink c).Ancestor a x) :
    F.Ancestor a x := by
  induction h with
  | refl => exact .refl
  | @step x p hp _ ih =>
      have hx : x ≠ c := by
        rintro rfl
        cases hp.symm.trans (F.unlink_parent_self x)
      exact .step ((F.unlink_parent_of_ne hx).symm.trans hp) ih

theorem move_parent_self (F : Forest ι ν) (c d : ι) (n : ν) :
    (F.move c d n).parent c = some d := Function.update_self ..

theorem move_parent_of_ne (F : Forest ι ν) {c x : ι} (d : ι) (n : ν) (h : x ≠ c) :
    (F.move c d n).parent x = F.parent x := Function.update_of_ne h ..

namespace WF

variable {F : Forest ι ν}

/-- Linking a node that is not linked under a free name of a linked node. -/
theorem link (h : F.WF) {d c : ι} {n : ν} (hd : F.Linked d) (hc : ¬ F.Linked c)
    (hfree : ∀ c', ¬ F.edge d n c') : (F.link d n c).WF := by
  have hroot : c ≠ F.root := by
    rintro rfl
    exact hc h.root_linked
  have hne : ∀ {d' n' c'}, F.edge d' n' c' → c' ≠ c := by
    rintro d' n' c' he rfl
    exact hc (h.child_linked he)
  have hno : ∀ {n' c'}, ¬ F.edge c n' c' := fun he => hc (h.linked_of_edge he)
  have hwalk : ∀ {x}, F.Rooted x → (F.link d n c).Rooted x := by
    intro x hx
    have hcx : ¬ F.Ancestor c x := by
      intro ha
      obtain rfl := h.eq_of_ancestor_of_childless (fun _ _ => hno) hroot ha
      exact hc (h.linked_of_rooted hx)
    exact Ancestor.congr_of_not (fun y hy => F.link_parent_of_ne d n hy) hx hcx
  refine ⟨?_, ?_, ?_, ?_, ?_, ?_, ?_⟩
  · rw [link_root, link_parent_of_ne F d n hroot.symm, h.root_parent]
  · rintro d' n' (he | ⟨-, -, he⟩)
    · exact h.root_not_child he
    · exact hroot he.symm
  · rintro d' n' c' (he | ⟨rfl, rfl, rfl⟩)
    · rw [link_parent_of_ne F d n (hne he), h.edge_parent he]
    · exact F.link_parent_self _ _ _
  · intro d' c' hp hc'
    by_cases hcc : c' = c
    · subst hcc
      rw [link_parent_self] at hp
      cases hp
      exact ⟨n, Or.inr ⟨rfl, rfl, rfl⟩⟩
    · rw [link_parent_of_ne F d n hcc] at hp
      obtain ⟨n', he⟩ := h.parent_edge hp hc'
      exact ⟨n', Or.inl he⟩
  · rintro d' n₁ n₂ c' (h₁ | ⟨rfl, rfl, rfl⟩) (h₂ | ⟨h₂d, h₂n, h₂c⟩)
    · exact h.name_unique h₁ h₂
    · exact absurd h₂c (hne h₁)
    · exact absurd rfl (hne h₂)
    · exact h₂n.symm
  · rintro d' n' c₁ c₂ (h₁ | ⟨rfl, rfl, rfl⟩) (h₂ | ⟨h₂d, h₂n, h₂c⟩)
    · exact h.child_unique h₁ h₂
    · subst h₂d h₂n
      exact absurd h₁ (hfree c₁)
    · exact absurd h₂ (hfree c₂)
    · exact h₂c.symm
  · intro x hx
    by_cases hxc : x = c
    · subst hxc
      exact .step (F.link_parent_self d n x) (hwalk (h.rooted hd))
    · apply hwalk
      apply h.rooted
      unfold Linked at hx
      rwa [link_parent_of_ne F d n hxc] at hx

/-- Taking out a node without children that is not the root. -/
theorem unlink (h : F.WF) {c : ι} (hroot : c ≠ F.root) (hleaf : ∀ n c', ¬ F.edge c n c') :
    (F.unlink c).WF := by
  refine ⟨?_, ?_, ?_, ?_, ?_, ?_, ?_⟩
  · rw [unlink_root, unlink_parent_of_ne F hroot.symm, h.root_parent]
  · rintro d' n' ⟨he, -⟩
    exact h.root_not_child he
  · rintro d' n' c' ⟨he, hne⟩
    rw [unlink_parent_of_ne F hne, h.edge_parent he]
  · intro d' c' hp hc'
    have hcc : c' ≠ c := by
      rintro rfl
      rw [unlink_parent_self] at hp
      cases hp
    rw [unlink_parent_of_ne F hcc] at hp
    obtain ⟨n', he⟩ := h.parent_edge hp hc'
    exact ⟨n', he, hcc⟩
  · rintro d' n₁ n₂ c' ⟨h₁, -⟩ ⟨h₂, -⟩
    exact h.name_unique h₁ h₂
  · rintro d' n' c₁ c₂ ⟨h₁, -⟩ ⟨h₂, -⟩
    exact h.child_unique h₁ h₂
  · intro x hx
    have hxc : x ≠ c := by
      rintro rfl
      exact hx (F.unlink_parent_self x)
    have hlinked : F.Linked x := by
      unfold Linked at hx ⊢
      rwa [unlink_parent_of_ne F hxc] at hx
    refine Ancestor.congr_of_not (fun y hy => F.unlink_parent_of_ne hy) (h.rooted hlinked) ?_
    intro ha
    exact hxc (h.eq_of_ancestor_of_childless hleaf hroot ha)

/-- Moving a linked node to a free name of a linked node that is not below it. -/
theorem move (h : F.WF) {c d : ι} {n : ν} (hroot : c ≠ F.root) (hd : F.Linked d)
    (hbelow : ¬ F.Ancestor c d) (hfree : ∀ c', F.edge d n c' → c' = c) : (F.move c d n).WF := by
  have hpar : ∀ y, y ≠ c → (F.move c d n).parent y = F.parent y :=
    fun y hy => F.move_parent_of_ne d n hy
  have hrd : (F.move c d n).Rooted d := Ancestor.congr_of_not hpar (h.rooted hd) hbelow
  have hwalk : ∀ {x}, F.Rooted x → (F.move c d n).Rooted x := by
    intro x hx
    induction hx with
    | refl => exact .refl
    | @step x p hp _ ih =>
        by_cases hxc : x = c
        · subst hxc
          exact .step (F.move_parent_self x d n) hrd
        · exact .step ((hpar x hxc).trans hp) ih
  refine ⟨?_, ?_, ?_, ?_, ?_, ?_, ?_⟩
  · rw [move_root, hpar _ hroot.symm, h.root_parent]
  · rintro d' n' (⟨he, -⟩ | ⟨-, -, he⟩)
    · exact h.root_not_child he
    · exact hroot he.symm
  · rintro d' n' c' (⟨he, hne⟩ | ⟨rfl, rfl, rfl⟩)
    · rw [hpar _ hne, h.edge_parent he]
    · exact F.move_parent_self _ _ _
  · intro d' c' hp hc'
    by_cases hcc : c' = c
    · subst hcc
      rw [move_parent_self] at hp
      cases hp
      exact ⟨n, Or.inr ⟨rfl, rfl, rfl⟩⟩
    · rw [hpar _ hcc] at hp
      obtain ⟨n', he⟩ := h.parent_edge hp hc'
      exact ⟨n', Or.inl ⟨he, hcc⟩⟩
  · rintro d' n₁ n₂ c' (⟨h₁, hne⟩ | ⟨rfl, rfl, rfl⟩) (⟨h₂, hne'⟩ | ⟨h₂d, h₂n, h₂c⟩)
    · exact h.name_unique h₁ h₂
    · exact absurd h₂c hne
    · exact absurd rfl hne'
    · exact h₂n.symm
  · rintro d' n' c₁ c₂ (⟨h₁, hne⟩ | ⟨rfl, rfl, rfl⟩) (⟨h₂, hne'⟩ | ⟨h₂d, h₂n, h₂c⟩)
    · exact h.child_unique h₁ h₂
    · subst h₂d h₂n
      exact absurd (hfree c₁ h₁) hne
    · exact absurd (hfree c₂ h₂) hne'
    · exact h₂c.symm
  · intro x hx
    by_cases hxc : x = c
    · subst hxc
      exact .step (F.move_parent_self x d n) hrd
    · apply hwalk
      apply h.rooted
      unfold Linked at hx ⊢
      rwa [hpar _ hxc] at hx

end WF

/-! ## Walks of a given length -/

omit [DecidableEq ι]

/-- The node `k` steps above `x`. -/
def up (F : Forest ι ν) : Nat → ι → Option ι
  | 0, x => some x
  | k + 1, x => (F.parent x).bind (F.up k)

/-- What is reached in some number of steps is an ancestor. -/
theorem ancestor_of_up {F : Forest ι ν} {a : ι} {k : Nat} {x : ι} (h : F.up k x = some a) :
    F.Ancestor a x := by
  induction k generalizing x with
  | zero =>
      cases h
      exact .refl
  | succ k ih =>
      rw [up, Option.bind_eq_some_iff] at h
      obtain ⟨p, hp, hk⟩ := h
      exact .step hp (ih hk)

/-- An ancestor is reached in finitely many steps. -/
theorem Ancestor.exists_up {F : Forest ι ν} {a x : ι} (h : F.Ancestor a x) :
    ∃ k, F.up k x = some a := by
  induction h with
  | refl => exact ⟨0, rfl⟩
  | @step x p hp _ ih =>
      obtain ⟨k, hk⟩ := ih
      exact ⟨k + 1, by rw [up, hp]; exact hk⟩

/-- A walk goes on where its first part ends. -/
theorem up_add (F : Forest ι ν) (j k : Nat) (x : ι) :
    F.up (j + k) x = (F.up j x).bind (F.up k) := by
  induction j generalizing x with
  | zero => rw [Nat.zero_add, up, Option.bind_some]
  | succ j ih =>
      rw [Nat.succ_add, up, up, Option.bind_assoc]
      exact congrArg (Option.bind _) (funext ih)

/-- The walk from a linked node meets linked nodes only. -/
theorem WF.linked_of_up {F : Forest ι ν} (h : F.WF) {k : Nat} {x y : ι} (hx : F.Linked x)
    (hy : F.up k x = some y) : F.Linked y := by
  induction k generalizing x with
  | zero =>
      cases hy
      exact hx
  | succ k ih =>
      rw [up, Option.bind_eq_some_iff] at hy
      obtain ⟨p, hp, hk⟩ := hy
      exact ih (h.parent_linked hp) hk

/-- Up to its first visit to the root a walk meets no node twice: it would be shorter
without the part in between. -/
theorem up_injective {F : Forest ι ν} {a x : ι} {k : Nat} (hk : F.up k x = some a)
    (hmin : ∀ j < k, F.up j x ≠ some a) {i j : Nat} (hi : i ≤ k) (hj : j ≤ k)
    (hij : F.up i x = F.up j x) : i = j := by
  have hle : ∀ {i j}, j ≤ k → F.up i x = F.up j x → j ≤ i := by
    intro i j hj hij
    refine Nat.le_of_not_lt fun hlt => hmin (i + (k - j)) (by omega) ?_
    rw [up_add, hij, ← up_add, Nat.add_sub_cancel' hj, hk]
  exact Nat.le_antisymm (hle hi hij.symm) (hle hj hij)

/-- A linked node reaches the root in fewer steps than there are linked nodes. -/
theorem WF.exists_up_lt {F : Forest ι ν} (h : F.WF) {S : Finset ι} (hS : ∀ {y}, F.Linked y → y ∈ S)
    {x : ι} (hx : F.Linked x) : ∃ k < S.card, F.up k x = some F.root := by
  classical
  have hex := (h.rooted hx).exists_up
  obtain ⟨k, hk, hmin⟩ : ∃ k, F.up k x = some F.root ∧ ∀ j < k, F.up j x ≠ some F.root :=
    ⟨Nat.find hex, Nat.find_spec hex, fun j hj => Nat.find_min hex hj⟩
  have hsome : ∀ {i}, i ≤ k → ∃ y, F.up i x = some y := by
    intro i hi
    rw [← Nat.add_sub_cancel' hi, up_add, Option.bind_eq_some_iff] at hk
    obtain ⟨y, hy, -⟩ := hk
    exact ⟨y, hy⟩
  have hcard : (Finset.range (k + 1)).card ≤ S.card := by
    refine Finset.card_le_card_of_injOn (fun i => (F.up i x).getD x) ?_ ?_
    · intro i hi
      obtain ⟨y, hy⟩ := hsome (Nat.le_of_lt_succ (Finset.mem_range.mp hi))
      simp only [hy, Option.getD_some]
      exact hS (h.linked_of_up hx hy)
    · intro i hi j hj hij
      have hi := Nat.le_of_lt_succ (Finset.mem_range.mp hi)
      have hj := Nat.le_of_lt_succ (Finset.mem_range.mp hj)
      obtain ⟨y, hy⟩ := hsome hi
      obtain ⟨z, hz⟩ := hsome hj
      simp only [hy, hz, Option.getD_some] at hij
      exact up_injective hk hmin hi hj (by rw [hy, hz, hij])
  rw [Finset.card_range] at hcard
  exact ⟨k, hcard, hk⟩

end Forest
