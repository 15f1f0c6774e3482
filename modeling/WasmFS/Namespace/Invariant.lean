import WasmFS.Namespace.Tree

/-!
# The operations on the tree keep the invariant

Each operation has two theorems.  One computes the forest of the result with an
operation of `Forest` (`forest_link`, `forest_unlink`, `forest_moveChild`,
`forest_replaceChild`).  The other says that the result is well formed.  The rest
of `Tree.WF` is about lists of names and about what no operation touches.
-/

namespace WasmFS

namespace Tree

variable {t : Tree}

/-! ## Updates of one node -/

@[simp] theorem modify_next (t : Tree) (f) (g) : (t.modify f g).next = t.next := rfl
@[simp] theorem modify_root (t : Tree) (f) (g) : (t.modify f g).root = t.root := rfl
@[simp] theorem modify_cwd (t : Tree) (f) (g) : (t.modify f g).cwd = t.cwd := rfl

theorem node_modify_self (t : Tree) (f : FileId) (g : Node → Node) :
    (t.modify f g).node f = g (t.node f) := Function.update_self ..

theorem node_modify_of_ne (t : Tree) {f x : FileId} (g : Node → Node) (h : x ≠ f) :
    (t.modify f g).node x = t.node x := Function.update_of_ne h ..

/-- What an update of a node does not change, it changes nowhere. -/
theorem node_modify_congr {α : Type} (p : Node → α) (t : Tree) (f : FileId) {g : Node → Node}
    (h : ∀ x, p (g x) = p x) (x : FileId) : p ((t.modify f g).node x) = p (t.node x) := by
  by_cases hx : x = f
  · subst hx
    rw [node_modify_self, h]
  · rw [node_modify_of_ne t g hx]

/-- The fields of a node that no operation on entries and parents changes. -/
structure SameAttributes (t t' : Tree) : Prop where
  isDirectory : ∀ f, (t'.node f).isDirectory = (t.node f).isDirectory
  device? : ∀ f, (t'.node f).device? = (t.node f).device?
  target? : ∀ f, (t'.node f).target? = (t.node f).target?
  dcache : ∀ f, (t'.node f).dcache = (t.node f).dcache
  mode : ∀ f, (t'.node f).mode = (t.node f).mode
  backend : ∀ f, (t'.node f).backend = (t.node f).backend
  next : t'.next = t.next
  root : t'.root = t.root
  cwd : t'.cwd = t.cwd

namespace SameAttributes

theorem refl (t : Tree) : SameAttributes t t :=
  ⟨fun _ => rfl, fun _ => rfl, fun _ => rfl, fun _ => rfl, fun _ => rfl, fun _ => rfl, rfl, rfl,
    rfl⟩

theorem trans {t t' t'' : Tree} (h : SameAttributes t t') (h' : SameAttributes t' t'') :
    SameAttributes t t'' where
  isDirectory f := (h'.isDirectory f).trans (h.isDirectory f)
  device? f := (h'.device? f).trans (h.device? f)
  target? f := (h'.target? f).trans (h.target? f)
  dcache f := (h'.dcache f).trans (h.dcache f)
  mode f := (h'.mode f).trans (h.mode f)
  backend f := (h'.backend f).trans (h.backend f)
  next := h'.next.trans h.next
  root := h'.root.trans h.root
  cwd := h'.cwd.trans h.cwd

theorem setEntries (t : Tree) (d : FileId) (l : Node → List (Name × FileId)) :
    SameAttributes t (t.modify d fun x => x.setEntries (l x)) where
  isDirectory := node_modify_congr Node.isDirectory t d fun x => x.setEntries_isDirectory _
  device? := node_modify_congr Node.device? t d fun x => x.setEntries_device? _
  target? := node_modify_congr Node.target? t d fun x => x.setEntries_target? _
  dcache := node_modify_congr Node.dcache t d fun x => x.setEntries_dcache _
  mode := node_modify_congr Node.mode t d fun x => x.setEntries_mode _
  backend := node_modify_congr Node.backend t d fun x => x.setEntries_backend _
  next := rfl
  root := rfl
  cwd := rfl

theorem setParent (t : Tree) (c : FileId) (p : Option FileId) :
    SameAttributes t (t.setParent c p) where
  isDirectory := node_modify_congr Node.isDirectory t c fun _ => rfl
  device? := node_modify_congr Node.device? t c fun _ => rfl
  target? := node_modify_congr Node.target? t c fun _ => rfl
  dcache := node_modify_congr Node.dcache t c fun _ => rfl
  mode := node_modify_congr Node.mode t c fun _ => rfl
  backend := node_modify_congr Node.backend t c fun _ => rfl
  next := rfl
  root := rfl
  cwd := rfl

theorem dropChild (t : Tree) (p c : FileId) : SameAttributes t (t.dropChild p c) :=
  setEntries t p fun x => x.entries.eraseP fun e => e.2 == c

theorem link (t : Tree) (d : FileId) (n : Name) (c : FileId) : SameAttributes t (t.link d n c) :=
  (setEntries t d _).trans (setParent _ c (some d))

theorem unlink (t : Tree) (d : FileId) (n : Name) (c : FileId) :
    SameAttributes t (t.unlink d n c) :=
  (setParent t c none).trans (setEntries _ d fun x => x.entries.eraseP fun e => e.1 == n)

theorem moveChild (t : Tree) (p c d : FileId) (n : Name) :
    SameAttributes t (t.moveChild p c d n) :=
  (dropChild t p c).trans (link _ d n c)

theorem replaceChild (t : Tree) (p c d : FileId) (n : Name) (c' : FileId) :
    SameAttributes t (t.replaceChild p c d n c') :=
  ((dropChild t p c).trans (unlink _ d n c')).trans (link _ d n c)

theorem writable {t t' : Tree} (h : SameAttributes t t') (f : FileId) :
    (t'.node f).writable = (t.node f).writable := by
  rw [Node.writable, Node.writable, h.mode]

end SameAttributes

/-- The part of the invariant that speaks of attributes carries over. -/
theorem WF.of_sameAttributes {t' : Tree} (h : t.WF) (hsame : SameAttributes t t')
    (hforest : t'.forest.WF) (hnames : ∀ d, ((t'.node d).children.map Prod.fst).Nodup)
    (hfresh : ∀ {f}, t.next ≤ f → (t'.node f).parent = none) : t'.WF where
  forest := hforest
  names_nodup := hnames
  kind_mount he := h.kind_mount (hsame.dcache _ ▸ he)
  mount_device he := by
    rw [hsame.device?]
    exact h.mount_device (hsame.dcache _ ▸ he)
  guarded hw := by
    rw [hsame.dcache]
    exact h.guarded (hsame.writable _ ▸ hw)
  fresh hf := hfresh (hsame.next ▸ hf)
  root_directory := by
    rw [hsame.root, hsame.isDirectory]
    exact h.root_directory
  cwd_root := by
    rw [hsame.cwd, hsame.root]
    exact h.cwd_root

/-! ## The forest after an update -/

theorem parent_setParent (t : Tree) (c : FileId) (p : Option FileId) :
    (t.setParent c p).forest.parent = Function.update t.forest.parent c p := by
  funext f
  by_cases hf : f = c
  · subst hf
    rw [Function.update_self]
    exact congrArg Node.parent (node_modify_self ..)
  · rw [Function.update_of_ne hf]
    exact congrArg Node.parent (node_modify_of_ne t _ hf)

@[simp] theorem children_setParent (t : Tree) (c : FileId) (p : Option FileId) (d : FileId) :
    ((t.setParent c p).node d).children = (t.node d).children :=
  node_modify_congr Node.children t c (g := fun x => { x with parent := p }) (fun _ => rfl) d

theorem edge_setParent (t : Tree) (c : FileId) (p : Option FileId) :
    (t.setParent c p).forest.edge = t.forest.edge := by
  funext d n x
  exact congrArg ((n, x) ∈ ·) (children_setParent t c p d)

theorem parent_setEntries (t : Tree) (d : FileId) (l : Node → List (Name × FileId)) :
    (t.modify d fun x => x.setEntries (l x)).forest.parent = t.forest.parent := by
  funext f
  exact node_modify_congr Node.parent t d (fun x => x.setEntries_parent _) f

theorem edge_setEntries_self (t : Tree) (d : FileId) (l : Node → List (Name × FileId)) {n : Name}
    {c : FileId} : (t.modify d fun x => x.setEntries (l x)).forest.edge d n c ↔
      (n, c) ∈ ((t.node d).setEntries (l (t.node d))).children :=
  iff_of_eq (congrArg ((n, c) ∈ Node.children ·) (node_modify_self ..))

theorem edge_setEntries_of_ne (t : Tree) {d d' : FileId} (l : Node → List (Name × FileId))
    (h : d' ≠ d) {n : Name} {c : FileId} :
    (t.modify d fun x => x.setEntries (l x)).forest.edge d' n c ↔ t.forest.edge d' n c :=
  iff_of_eq (congrArg ((n, c) ∈ Node.children ·) (node_modify_of_ne t _ h))

theorem edge_addEntry {d : FileId} (h : (t.node d).isDirectory) {n : Name} {c : FileId}
    {d' : FileId} {n' : Name} {c' : FileId} : (t.addEntry d n c).forest.edge d' n' c' ↔
      t.forest.edge d' n' c' ∨ (d' = d ∧ n' = n ∧ c' = c) := by
  unfold addEntry
  by_cases hd : d' = d
  · subst hd
    rw [edge_setEntries_self, Node.mem_children_append h, Prod.mk.injEq]
    simp [forest]
  · rw [edge_setEntries_of_ne t _ hd]
    simp [hd]

/-- Erasing a name of `d` that an entry has. -/
theorem edge_dropName {d : FileId} {n : Name} {c : FileId}
    (hd : ((t.node d).children.map Prod.fst).Nodup) (hc : (n, c) ∈ (t.node d).entries)
    {d' : FileId} {n' : Name} {c' : FileId} : (t.dropName d n).forest.edge d' n' c' ↔
      t.forest.edge d' n' c' ∧ ¬ (d' = d ∧ n' = n) := by
  unfold dropName
  by_cases h : d' = d
  · subst h
    rw [edge_setEntries_self, Node.mem_children_eraseName hd hc]
    simp [forest]
  · rw [edge_setEntries_of_ne t _ h]
    simp [h]

/-- Erasing a child of `p` that an entry holds. -/
theorem edge_dropChild {p c : FileId} {n : Name} (h : t.WF) (hc : (n, c) ∈ (t.node p).entries)
    {d' : FileId} {n' : Name} {c' : FileId} : (t.dropChild p c).forest.edge d' n' c' ↔
      t.forest.edge d' n' c' ∧ c' ≠ c := by
  have hedge : t.forest.edge p n c := List.mem_append_left _ hc
  unfold dropChild
  by_cases hd : d' = p
  · subst hd
    rw [edge_setEntries_self,
      Node.mem_children_eraseChild (h.names_nodup d') hc fun h₁ h₂ => h.forest.name_unique h₁ h₂]
    simp [forest]
  · rw [edge_setEntries_of_ne t _ hd, iff_self_and]
    rintro he rfl
    exact hd (h.forest.edge_unique he hedge).1

/-! ## Linking -/

theorem forest_link {d : FileId} (h : (t.node d).isDirectory) (n : Name) (c : FileId) :
    (t.link d n c).forest = t.forest.link d n c := by
  unfold link
  apply Forest.ext
  · rfl
  · rw [parent_setParent]
    exact congrArg (Function.update · c (some d)) (parent_setEntries t d _)
  · rw [edge_setParent]
    funext d' n' c'
    exact propext (edge_addEntry h)

theorem names_nodup_link (h : ∀ d, ((t.node d).children.map Prod.fst).Nodup) {d : FileId} {n : Name}
    (hfree : ∀ c', ¬ t.forest.edge d n c') (c d' : FileId) :
    (((t.link d n c).node d').children.map Prod.fst).Nodup := by
  unfold link
  rw [children_setParent]
  by_cases hd : d' = d
  · subst hd
    unfold addEntry
    rw [node_modify_self]
    exact Node.nodup_children_append (h d') hfree c
  · unfold addEntry
    rw [node_modify_of_ne t _ hd]
    exact h d'

/-- A file that is not linked may become the child of a linked directory under
a free name. -/
theorem WF.link (h : t.WF) {d c : FileId} {n : Name} (hdir : (t.node d).isDirectory)
    (hd : t.forest.Linked d) (hc : ¬ t.forest.Linked c) (hnext : c < t.next)
    (hfree : ∀ c', ¬ t.forest.edge d n c') : (t.link d n c).WF := by
  have hforest := forest_link hdir n c
  refine h.of_sameAttributes (.link t d n c) ?_ (names_nodup_link h.names_nodup hfree c) ?_
  · rw [hforest]
    exact h.forest.link hd hc hfree
  · intro f hf
    have hfc : f ≠ c := Nat.ne_of_gt (Nat.lt_of_lt_of_le hnext hf)
    have hparent := congrFun (congrArg Forest.parent hforest) f
    rw [Forest.link_parent_of_ne _ d n hfc] at hparent
    exact hparent.trans (h.fresh hf)

/-! ## Creating -/

theorem node_alloc_of_ne (t : Tree) (x : Node) {f : FileId} (h : f ≠ t.next) :
    (t.alloc x).node f = t.node f := Function.update_of_ne h ..

theorem node_alloc_self (t : Tree) (x : Node) : (t.alloc x).node t.next = x :=
  Function.update_self ..

/-- The next object is not linked. -/
theorem WF.next_not_linked (h : t.WF) : ¬ t.forest.Linked t.next := fun hl =>
  hl (h.fresh (Nat.le_refl _))

theorem WF.lt_next_of_linked (h : t.WF) {f : FileId} (hf : t.forest.Linked f) : f < t.next :=
  Nat.lt_of_not_le fun hle => hf (h.fresh hle)

theorem WF.ne_next_of_linked (h : t.WF) {f : FileId} (hf : t.forest.Linked f) : f ≠ t.next :=
  Nat.ne_of_lt (h.lt_next_of_linked hf)

/-- An object that does not exist yet is not a linked one. -/
theorem WF.ne_of_linked_of_le (h : t.WF) {f x : FileId} (hx : t.forest.Linked x)
    (hf : t.next ≤ f) : f ≠ x :=
  Nat.ne_of_gt (Nat.lt_of_lt_of_le (h.lt_next_of_linked hx) hf)

theorem WF.forest_alloc (h : t.WF) {x : Node} (hx : x.Blank) :
    (t.alloc x).forest = t.forest := by
  apply Forest.ext
  · rfl
  · funext f
    by_cases hf : f = t.next
    · subst hf
      exact (congrArg Node.parent (node_alloc_self t x)).trans
        (hx.parent.trans (h.fresh (Nat.le_refl _)).symm)
    · exact congrArg Node.parent (node_alloc_of_ne t x hf)
  · funext d n c
    by_cases hd : d = t.next
    · subst hd
      have hno : ¬ t.forest.edge t.next n c := fun he =>
        h.next_not_linked (h.forest.linked_of_edge he)
      have hno' : ¬ (t.alloc x).forest.edge t.next n c := by
        intro he
        have he : (n, c) ∈ ((t.alloc x).node t.next).children := he
        rw [node_alloc_self, hx.children] at he
        cases he
      exact propext (iff_of_false hno' hno)
    · exact congrArg ((n, c) ∈ Node.children ·) (node_alloc_of_ne t x hd)

theorem WF.alloc (h : t.WF) {x : Node} (hx : x.Blank) : (t.alloc x).WF where
  forest := by
    rw [h.forest_alloc hx]
    exact h.forest
  names_nodup d := by
    by_cases hd : d = t.next
    · subst hd
      rw [node_alloc_self, hx.children]
      exact List.nodup_nil
    · rw [node_alloc_of_ne t x hd]
      exact h.names_nodup d
  kind_mount {d e} he := by
    by_cases hd : d = t.next
    · subst hd
      rw [node_alloc_self, hx.dcache] at he
      cases he
    · rw [node_alloc_of_ne t x hd] at he
      exact h.kind_mount he
  mount_device {d e} he := by
    by_cases hd : d = t.next
    · subst hd
      rw [node_alloc_self, hx.dcache] at he
      cases he
    · rw [node_alloc_of_ne t x hd] at he
      have hedge : t.forest.edge d e.1 e.2.file := by
        refine List.mem_append_right _ (List.mem_map.mpr ⟨e, List.mem_filter.mpr ⟨he, ?_⟩, rfl⟩)
        rw [h.kind_mount he]
        rfl
      have hne : e.2.file ≠ t.next := h.ne_next_of_linked (h.forest.child_linked hedge)
      rw [node_alloc_of_ne t x hne]
      exact h.mount_device he
  guarded {d} hw := by
    by_cases hd : d = t.next
    · subst hd
      rw [node_alloc_self, hx.dcache]
    · rw [node_alloc_of_ne t x hd] at hw ⊢
      exact h.guarded hw
  fresh {f} hf := by
    have hf : t.next + 1 ≤ f := hf
    rw [node_alloc_of_ne t x (Nat.ne_of_gt hf)]
    exact h.fresh (Nat.le_of_succ_le hf)
  root_directory := by
    have hroot := h.ne_next_of_linked h.forest.root_linked
    exact (congrArg Node.isDirectory (node_alloc_of_ne t x hroot) :).trans h.root_directory
  cwd_root := h.cwd_root

theorem WF.forest_create (h : t.WF) {d : FileId} {x : Node} (hdir : (t.node d).isDirectory)
    (hd : t.forest.Linked d) (n : Name) (hx : x.Blank) :
    (t.create d n x).forest = t.forest.link d n t.next := by
  have hne : d ≠ t.next := h.ne_next_of_linked hd
  unfold create
  rw [forest_link (by rwa [node_alloc_of_ne t x hne]), h.forest_alloc hx]

theorem WF.create (h : t.WF) {d : FileId} {n : Name} {x : Node} (hdir : (t.node d).isDirectory)
    (hd : t.forest.Linked d) (hfree : ∀ c', ¬ t.forest.edge d n c') (hx : x.Blank) :
    (t.create d n x).WF := by
  have hne : d ≠ t.next := h.ne_next_of_linked hd
  have halloc := h.forest_alloc hx
  refine (h.alloc hx).link (by rwa [node_alloc_of_ne t x hne]) ?_ ?_ (Nat.lt_succ_self _) ?_
  · rwa [halloc]
  · rw [halloc]
    exact h.next_not_linked
  · rwa [halloc]

/-! ## Removing -/

@[simp] theorem entries_setParent (t : Tree) (c : FileId) (p : Option FileId) (d : FileId) :
    ((t.setParent c p).node d).entries = (t.node d).entries :=
  node_modify_congr Node.entries t c (g := fun x => { x with parent := p }) (fun _ => rfl) d

theorem edge_unlink {d : FileId} {n : Name} {c : FileId}
    (hd : ((t.node d).children.map Prod.fst).Nodup) (hc : (n, c) ∈ (t.node d).entries)
    {d' : FileId} {n' : Name} {c' : FileId} : (t.unlink d n c).forest.edge d' n' c' ↔
      t.forest.edge d' n' c' ∧ ¬ (d' = d ∧ n' = n) := by
  unfold unlink
  rw [edge_dropName (by rwa [children_setParent]) (c := c) (by rwa [entries_setParent]),
    edge_setParent]

theorem parent_unlink (t : Tree) (d : FileId) (n : Name) (c : FileId) :
    (t.unlink d n c).forest.parent = Function.update t.forest.parent c none :=
  (parent_setEntries _ d _).trans (parent_setParent t c none)

theorem names_nodup_unlink (h : ∀ d, ((t.node d).children.map Prod.fst).Nodup) (d : FileId)
    (n : Name) (c d' : FileId) : (((t.unlink d n c).node d').children.map Prod.fst).Nodup := by
  unfold unlink dropName
  by_cases hd : d' = d
  · subst hd
    rw [node_modify_self]
    apply Node.nodup_children_eraseP
    rw [children_setParent]
    exact h d'
  · rw [node_modify_of_ne _ _ hd, children_setParent]
    exact h d'

theorem WF.forest_unlink (h : t.WF) {d : FileId} {n : Name} {c : FileId}
    (hc : (n, c) ∈ (t.node d).entries) : (t.unlink d n c).forest = t.forest.unlink c := by
  have hedge : t.forest.edge d n c := List.mem_append_left _ hc
  apply Forest.ext
  · rfl
  · exact parent_unlink t d n c
  · funext d' n' c'
    apply propext
    rw [edge_unlink (h.names_nodup d) hc]
    refine and_congr_right fun he => not_congr ⟨?_, ?_⟩
    · rintro ⟨rfl, rfl⟩
      exact h.forest.child_unique he hedge
    · rintro rfl
      exact h.forest.edge_unique he hedge

theorem WF.unlink (h : t.WF) {d : FileId} {n : Name} {c : FileId}
    (hc : (n, c) ∈ (t.node d).entries) (hleaf : ∀ n c', ¬ t.forest.edge c n c') :
    (t.unlink d n c).WF := by
  have hedge : t.forest.edge d n c := List.mem_append_left _ hc
  refine h.of_sameAttributes (.unlink t d n c) ?_ (names_nodup_unlink h.names_nodup d n c) ?_
  · rw [h.forest_unlink hc]
    exact h.forest.unlink (h.forest.child_ne_root hedge) hleaf
  · intro f hf
    have hfc : f ≠ c := h.ne_of_linked_of_le (h.forest.child_linked hedge) hf
    have hparent := congrFun (parent_unlink t d n c) f
    rw [Function.update_of_ne hfc] at hparent
    exact hparent.trans (h.fresh hf)

/-! ## Moving -/

theorem names_nodup_dropChild (h : ∀ d, ((t.node d).children.map Prod.fst).Nodup)
    (p c d : FileId) : (((t.dropChild p c).node d).children.map Prod.fst).Nodup := by
  unfold dropChild
  by_cases hd : d = p
  · subst hd
    rw [node_modify_self]
    exact Node.nodup_children_eraseP (h d) _
  · rw [node_modify_of_ne t _ hd]
    exact h d

theorem WF.forest_moveChild (h : t.WF) {p c d : FileId} {m : Name}
    (hc : (m, c) ∈ (t.node p).entries) (hdir : (t.node d).isDirectory) (n : Name) :
    (t.moveChild p c d n).forest = t.forest.move c d n := by
  have hdir' : ((t.dropChild p c).node d).isDirectory := by
    rwa [(SameAttributes.dropChild t p c).isDirectory d]
  unfold moveChild
  rw [forest_link hdir']
  apply Forest.ext
  · rfl
  · exact congrArg (Function.update · c (some d)) (parent_setEntries t p _)
  · funext d' n' c'
    exact propext (or_congr_left (edge_dropChild h hc))

theorem WF.moveChild (h : t.WF) {p c d : FileId} {m n : Name} (hc : (m, c) ∈ (t.node p).entries)
    (hdir : (t.node d).isDirectory) (hd : t.forest.Linked d) (hbelow : ¬ t.forest.Ancestor c d)
    (hfree : ∀ c', t.forest.edge d n c' → c' = c) : (t.moveChild p c d n).WF := by
  have hedge : t.forest.edge p m c := List.mem_append_left _ hc
  have hforest := h.forest_moveChild hc hdir n
  refine h.of_sameAttributes (.moveChild t p c d n) ?_ ?_ ?_
  · rw [hforest]
    exact h.forest.move (h.forest.child_ne_root hedge) hd hbelow hfree
  · refine names_nodup_link (names_nodup_dropChild h.names_nodup p c) (fun c' he => ?_) c
    obtain ⟨he, hne⟩ := (edge_dropChild h hc).mp he
    exact hne (hfree c' he)
  · intro f hf
    have hfc : f ≠ c := h.ne_of_linked_of_le (h.forest.child_linked hedge) hf
    have hparent := congrFun (congrArg Forest.parent hforest) f
    rw [Forest.move_parent_of_ne _ d n hfc] at hparent
    exact hparent.trans (h.fresh hf)

theorem entries_dropChild_of_ne {p c c' d : FileId} {n : Name} (hne : c' ≠ c)
    (hc' : (n, c') ∈ (t.node d).entries) : (n, c') ∈ ((t.dropChild p c).node d).entries := by
  unfold dropChild
  by_cases hd : d = p
  · subst hd
    have hdir := Node.isDirectory_of_mem_children (List.mem_append_left _ hc')
    rw [node_modify_self, Node.setEntries_entries hdir]
    rw [List.mem_eraseP_of_neg (by simpa using hne)]
    exact hc'
  · rwa [node_modify_of_ne t _ hd]

theorem mem_entries_of_dropChild {p c d : FileId} {e : Name × FileId}
    (he : e ∈ ((t.dropChild p c).node d).entries) : e ∈ (t.node d).entries := by
  unfold dropChild at he
  by_cases hd : d = p
  · subst hd
    rw [node_modify_self] at he
    by_cases hdir : (t.node d).isDirectory
    · rw [Node.setEntries_entries hdir] at he
      exact List.mem_of_mem_eraseP he
    · rwa [Node.setEntries_of_not_isDirectory (by simpa using hdir)] at he
  · rwa [node_modify_of_ne t _ hd] at he

theorem edge_dropChild_unlink (h : t.WF) {p c d c' : FileId} {m n : Name}
    (hc : (m, c) ∈ (t.node p).entries) (hc' : (n, c') ∈ (t.node d).entries) (hne : c' ≠ c)
    {d₁ : FileId} {n₁ : Name} {c₁ : FileId} :
    ((t.dropChild p c).unlink d n c').forest.edge d₁ n₁ c₁ ↔
      (t.forest.edge d₁ n₁ c₁ ∧ c₁ ≠ c) ∧ ¬ (d₁ = d ∧ n₁ = n) := by
  rw [edge_unlink (names_nodup_dropChild h.names_nodup p c d) (entries_dropChild_of_ne hne hc'),
    edge_dropChild h hc]

theorem WF.forest_replaceChild (h : t.WF) {p c d c' : FileId} {m n : Name}
    (hc : (m, c) ∈ (t.node p).entries) (hc' : (n, c') ∈ (t.node d).entries) (hne : c' ≠ c) :
    (t.replaceChild p c d n c').forest = (t.forest.unlink c').move c d n := by
  have hedge : t.forest.edge d n c' := List.mem_append_left _ hc'
  have hdir : ((t.dropChild p c).unlink d n c' |>.node d).isDirectory := by
    rw [((SameAttributes.dropChild t p c).trans (.unlink _ d n c')).isDirectory d]
    exact Node.isDirectory_of_mem_children hedge
  unfold replaceChild
  rw [forest_link hdir]
  apply Forest.ext
  · rfl
  · have hparent : ((t.dropChild p c).unlink d n c').forest.parent =
        (t.forest.unlink c').parent := by
      rw [parent_unlink, show (t.dropChild p c).forest.parent = _ from parent_setEntries t p _]
      rfl
    exact congrArg (Function.update · c (some d)) hparent
  · funext d₁ n₁ c₁
    refine propext (or_congr_left ?_)
    rw [edge_dropChild_unlink h hc hc' hne]
    constructor
    · rintro ⟨⟨he, h₁⟩, h₂⟩
      refine ⟨⟨he, ?_⟩, h₁⟩
      rintro rfl
      exact h₂ (h.forest.edge_unique he hedge)
    · rintro ⟨⟨he, h₁⟩, h₂⟩
      refine ⟨⟨he, h₂⟩, ?_⟩
      rintro ⟨rfl, rfl⟩
      exact h₁ (h.forest.child_unique he hedge)

theorem WF.replaceChild (h : t.WF) {p c d c' : FileId} {m n : Name}
    (hc : (m, c) ∈ (t.node p).entries) (hc' : (n, c') ∈ (t.node d).entries) (hne : c' ≠ c)
    (hleaf : ∀ n x, ¬ t.forest.edge c' n x) (hbelow : ¬ t.forest.Ancestor c d) :
    (t.replaceChild p c d n c').WF := by
  have hedge : t.forest.edge p m c := List.mem_append_left _ hc
  have hedge' : t.forest.edge d n c' := List.mem_append_left _ hc'
  have hforest := h.forest_replaceChild hc hc' hne
  have hdc : d ≠ c' := by
    rintro rfl
    exact h.forest.not_edge_self hedge'
  have hunlink : (t.forest.unlink c').WF :=
    h.forest.unlink (h.forest.child_ne_root hedge') hleaf
  have hparent : ∀ y, y ≠ c' → t.forest.parent y = (t.forest.unlink c').parent y :=
    fun y hy => (t.forest.unlink_parent_of_ne hy).symm
  refine h.of_sameAttributes (.replaceChild t p c d n c') ?_ ?_ ?_
  · rw [hforest]
    refine hunlink.move (h.forest.child_ne_root hedge) ?_ ?_ ?_
    · unfold Forest.Linked
      rw [t.forest.unlink_parent_of_ne hdc]
      exact h.forest.linked_of_edge hedge'
    · -- the walk from `d` avoids `c'`, which has no children
      intro ha
      have hc'd : ¬ (t.forest.unlink c').Ancestor c' d := by
        intro ha'
        exact hdc (hunlink.eq_of_ancestor_of_childless
          (fun n x he => hleaf n x he.1) (h.forest.child_ne_root hedge') ha')
      exact hbelow (ha.congr_of_not hparent hc'd)
    · rintro x ⟨he, hx⟩
      exact absurd (h.forest.child_unique he hedge') hx
  · refine names_nodup_link
      (names_nodup_unlink (names_nodup_dropChild h.names_nodup p c) d n c') (fun x he => ?_) c
    obtain ⟨⟨_, _⟩, hno⟩ := (edge_dropChild_unlink h hc hc' hne).mp he
    exact hno ⟨rfl, rfl⟩
  · intro f hf
    have hpar := congrFun (congrArg Forest.parent hforest) f
    rw [Forest.move_parent_of_ne _ d n (h.ne_of_linked_of_le (h.forest.child_linked hedge) hf),
      Forest.unlink_parent_of_ne _ (h.ne_of_linked_of_le (h.forest.child_linked hedge') hf)] at hpar
    exact hpar.trans (h.fresh hf)

end Tree

end WasmFS
