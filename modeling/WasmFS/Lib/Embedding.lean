import WasmFS.Lib.Forest

/-!
# Embeddings of forests

A cache of a forest is a forest too.  Its nodes are objects that stand for nodes
of the forest, and its edges are the children that were looked up so far.
`Embeds V F node` says that the map `node` takes the root of `V` to the root of `F`
and every edge of `V` to an edge of `F` of the same name.

Well-formedness of both forests does the rest.  Parents are taken to parents and
ancestors to ancestors.  Two linked objects never stand for one node
(`Embeds.injective`).

The cache keeps up with the forest if it adds an edge for a child that is found
(`Embeds.link`), removes the object of a node that is removed (`Embeds.unlink`) and
moves the object of a node that is moved (`Embeds.move`).
-/

namespace Forest

variable {α ι ν : Type}

/-- The edges of `V` are edges of `F`, seen through `node`. -/
structure Embeds (V : Forest α ν) (F : Forest ι ν) (node : α → ι) : Prop where
  root : node V.root = F.root
  edge : ∀ {d n c}, V.edge d n c → F.edge (node d) n (node c)

namespace Embeds

variable {V : Forest α ν} {F : Forest ι ν} {node : α → ι}

/-! ## What is preserved -/

theorem parent (h : Embeds V F node) (hV : V.WF) (hF : F.WF) {c d : α}
    (hp : V.parent c = some d) : F.parent (node c) = some (node d) := by
  by_cases hc : c = V.root
  · subst hc
    rw [hV.root_parent] at hp
    cases hp
    rw [h.root, hF.root_parent]
  · obtain ⟨n, he⟩ := hV.parent_edge hp hc
    exact hF.edge_parent (h.edge he)

theorem linked (h : Embeds V F node) (hV : V.WF) (hF : F.WF) {a : α} (ha : V.Linked a) :
    F.Linked (node a) := by
  cases hp : V.parent a with
  | none => exact absurd hp ha
  | some d =>
      unfold Linked
      rw [h.parent hV hF hp]
      simp

theorem ancestor (h : Embeds V F node) (hV : V.WF) (hF : F.WF) {a x : α}
    (ha : V.Ancestor a x) : F.Ancestor (node a) (node x) := by
  induction ha with
  | refl => exact .refl
  | step hp _ ih => exact .step (h.parent hV hF hp) ih

/-- Only the root stands for the root. -/
theorem eq_root (h : Embeds V F node) (hV : V.WF) (hF : F.WF) {a : α} (ha : V.Linked a)
    (hroot : node a = F.root) : a = V.root := by
  by_contra hne
  cases hp : V.parent a with
  | none => exact ha hp
  | some d =>
      obtain ⟨n, he⟩ := hV.parent_edge hp hne
      exact hF.child_ne_root (h.edge he) hroot

/-- Two linked objects do not stand for one node. -/
theorem injective (h : Embeds V F node) (hV : V.WF) (hF : F.WF) {a b : α} (ha : V.Linked a)
    (hb : V.Linked b) (hab : node a = node b) : a = b := by
  -- the way up from `a` to the root is the way up from `b`
  have hwalk : ∀ x, V.Rooted x → ∀ b, V.Linked b → node x = node b → x = b := by
    intro x hx
    induction hx with
    | refl =>
        intro b hb hxb
        exact (h.eq_root hV hF hb (hxb.symm.trans h.root)).symm
    | @step x p hp hr ih =>
        intro b hb hxb
        by_cases hroot : x = V.root
        · subst hroot
          exact (h.eq_root hV hF hb (hxb.symm.trans h.root)).symm
        have hbroot : b ≠ V.root := by
          rintro rfl
          refine hroot (h.eq_root hV hF (hV.linked_of_rooted (.step hp hr)) ?_)
          rw [hxb, h.root]
        cases hq : V.parent b with
        | none => exact absurd hq hb
        | some q =>
            have hpq : node p = node q := by
              have hnode := (h.parent hV hF hp).symm.trans (hxb ▸ h.parent hV hF hq)
              exact Option.some.inj hnode
            obtain rfl := ih q (hV.parent_linked hq) hpq
            obtain ⟨n, hn⟩ := hV.parent_edge hp hroot
            obtain ⟨m, hm⟩ := hV.parent_edge hq hbroot
            have hm' := h.edge hm
            rw [← hxb] at hm'
            obtain rfl := hF.name_unique (h.edge hn) hm'
            exact hV.child_unique hn hm
  exact hwalk a (hV.rooted ha) b hb hab

/-! ## Keeping up -/

/-- The embedding does not depend on objects that are not linked. -/
theorem congr (h : Embeds V F node) (hV : V.WF) {node' : α → ι}
    (hnode : ∀ a, V.Linked a → node' a = node a) : Embeds V F node' where
  root := by rw [hnode _ hV.root_linked, h.root]
  edge he := by
    rw [hnode _ (hV.linked_of_edge he), hnode _ (hV.child_linked he)]
    exact h.edge he

/-- A child that is found gets an edge. -/
theorem link [DecidableEq α] (h : Embeds V F node) {d c : α} {n : ν}
    (he : F.edge (node d) n (node c)) : Embeds (V.link d n c) F node where
  root := h.root
  edge := by
    rintro d' n' c' (hold | ⟨rfl, rfl, rfl⟩)
    · exact h.edge hold
    · exact he

variable [DecidableEq ι]

/-- The forest may grow. -/
theorem grow (h : Embeds V F node) (d : ι) (n : ν) (c : ι) : Embeds V (F.link d n c) node where
  root := h.root
  edge he := Or.inl (h.edge he)

variable [DecidableEq α]

theorem unlink (h : Embeds V F node) (hV : V.WF) (hF : F.WF) {c : α} (hc : V.Linked c) :
    Embeds (V.unlink c) (F.unlink (node c)) node where
  root := h.root
  edge := by
    rintro d n x ⟨he, hne⟩
    exact ⟨h.edge he, fun hx => hne (h.injective hV hF (hV.child_linked he) hc hx)⟩

theorem move (h : Embeds V F node) (hV : V.WF) (hF : F.WF) {c : α} (hc : V.Linked c) (d : α)
    (n : ν) : Embeds (V.move c d n) (F.move (node c) (node d) n) node where
  root := h.root
  edge := by
    rintro d' n' x (⟨he, hne⟩ | ⟨rfl, rfl, rfl⟩)
    · exact Or.inl ⟨h.edge he, fun hx => hne (h.injective hV hF (hV.child_linked he) hc hx)⟩
    · exact Or.inr ⟨rfl, rfl, rfl⟩

end Embeds

end Forest
