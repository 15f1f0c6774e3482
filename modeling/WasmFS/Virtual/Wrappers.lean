import WasmFS.Lib.Embedding
import WasmFS.Namespace.Handles
import WasmFS.Source.IgnoreCase

/-!
# Wrappers stand for real files

The wrappers form a forest of their own (`VirtualState.view`).  Its edges are the
entries of the virtual directories, and their names are in lower case.  `Synced` says
that every wrapper stands for a real file: the forest of wrappers is embedded in the
tree of real files, and the attributes agree.

The file system has one wrapper of a file at most, since two linked wrappers never
stand for one file (`Forest.Embeds.injective`).
-/

namespace WasmFS

/-! ## Names in lower case -/

theorem tolower_eq_dot_iff (ch : UInt8) : tolower ch = 46 ↔ ch = 46 := by
  unfold tolower
  split <;> grind

theorem tolower_tolower (ch : UInt8) : tolower (tolower ch) = tolower ch := by
  unfold tolower
  grind

theorem normalize_normalize (name : Name) : normalize (normalize name) = normalize name := by
  unfold normalize
  rw [List.map_map]
  exact List.map_congr_left fun ch _ => tolower_tolower ch

@[simp] theorem normalize_length (name : Name) : (normalize name).length = name.length :=
  List.length_map _

theorem normalize_eq_dot_iff (name : Name) : normalize name = dot ↔ name = dot := by
  unfold normalize dot
  rw [List.map_eq_singleton_iff]
  constructor
  · rintro ⟨ch, rfl, h⟩
    rw [(tolower_eq_dot_iff ch).mp h]
  · rintro rfl
    exact ⟨46, rfl, by decide⟩

theorem normalize_eq_dotdot_iff (name : Name) : normalize name = dotdot ↔ name = dotdot := by
  unfold normalize dotdot
  rw [List.map_eq_cons_iff]
  constructor
  · rintro ⟨ch, rest, rfl, h, hrest⟩
    obtain ⟨ch', rfl, h'⟩ := List.map_eq_singleton_iff.mp hrest
    rw [(tolower_eq_dot_iff ch).mp h, (tolower_eq_dot_iff ch').mp h']
  · rintro rfl
    exact ⟨46, [46], rfl, by decide, by decide⟩

/-! ## The forest of wrappers -/

/-- The kind of a file, read off its node. -/
def Node.kind (x : Node) : FileKind :=
  match x.shape with
  | .memory => .dataFile
  | .device _ => .dataFile
  | .directory _ _ => .directory
  | .symlink _ => .symlink

theorem File.node_kind (f : File) : f.node.kind = f.kind := by
  unfold node Node.kind kind
  cases f.body <;> rfl

theorem Node.isDirectory_iff_kind (x : Node) : x.isDirectory = (x.kind == .directory) := by
  unfold isDirectory kind
  cases x.shape <;> rfl

namespace VirtualState

/-- The entries of the virtual directories, and the parent pointers. -/
def view (v : VirtualState) : Forest VirtualId Name where
  root := v.rootDirectory
  parent f := (v.files f).parent
  edge d key c := ∃ info, (v.files d).children.lookup key = some info ∧ info.child = c

/-- The real file a wrapper stands for. -/
def node (v : VirtualState) (f : VirtualId) : FileId := (v.files f).real

/-- The forest `V` of wrappers follows the forest `F` of files.  The wrappers below
`next` exist. -/
structure Tracks (V : Forest VirtualId Name) (F : Forest FileId Name)
    (node : VirtualId → FileId) (next : VirtualId) : Prop where
  view_wf : V.WF
  forest_wf : F.WF
  embeds : Forest.Embeds V F node
  /-- Wrappers that do not exist yet have no parent. -/
  fresh : ∀ {f}, next ≤ f → V.parent f = none
  /-- A wrapper outside the tree stands for a file outside the tree. -/
  unlinked : ∀ {f}, f < next → ¬ V.Linked f → ¬ F.Linked (node f)

/-- The wrappers agree with the real files. -/
structure Synced (v : VirtualState) : Prop extends
    Tracks v.view v.real.tree.forest v.node v.next where
  real_wf : v.real.tree.WF
  exists_real : ∀ {f}, f < v.next → v.node f < v.real.next
  kind : ∀ {f}, f < v.next → (v.files f).kind = (v.real.tree.node (v.node f)).kind
  writable : ∀ {f}, f < v.next → (v.files f).kind = .directory →
    hasFlag (v.files f).mode WASMFS_PERM_WRITE = (v.real.tree.node (v.node f)).writable
  /-- A key is the spelled name in lower case. -/
  spelled : ∀ {d key info}, (v.files d).children.lookup key = some info →
    normalize info.originalName = key
  /-- All real directories belong to the wrapped backend. -/
  one_backend : ∀ {f}, f < v.real.next → (v.real.tree.node f).isDirectory →
    (v.real.tree.node f).backend = (v.real.tree.node v.real.tree.root).backend

/-- Wrappers stay wrappers of the same file. -/
structure Extends (v v' : VirtualState) : Prop where
  next_le : v.next ≤ v'.next
  real_next_le : v.real.next ≤ v'.real.next
  node : ∀ {f}, f < v.next → v'.node f = v.node f
  rootDirectory : v'.rootDirectory = v.rootDirectory
  realRoot : v'.real.rootDirectory = v.real.rootDirectory

namespace Extends

theorem refl (v : VirtualState) : Extends v v :=
  ⟨Nat.le_refl _, Nat.le_refl _, fun _ => rfl, rfl, rfl⟩

theorem trans {v v' v'' : VirtualState} (h : Extends v v') (h' : Extends v' v'') :
    Extends v v'' where
  next_le := Nat.le_trans h.next_le h'.next_le
  real_next_le := Nat.le_trans h.real_next_le h'.real_next_le
  node hf := (h'.node (Nat.lt_of_lt_of_le hf h.next_le)).trans (h.node hf)
  rootDirectory := h'.rootDirectory.trans h.rootDirectory
  realRoot := h'.realRoot.trans h.realRoot

end Extends

/-! ## Updates of one wrapper -/

variable {v : VirtualState}

theorem files_modify_self (v : VirtualState) (f : VirtualId) (g : VirtualFile → VirtualFile) :
    (v.modify f g).files f = g (v.files f) := Function.update_self ..

theorem files_modify_of_ne (v : VirtualState) {f x : VirtualId} (g : VirtualFile → VirtualFile)
    (h : x ≠ f) : (v.modify f g).files x = v.files x := Function.update_of_ne h ..

/-- What an update of a wrapper does not change, it changes nowhere. -/
theorem files_modify_congr {α : Type} (p : VirtualFile → α) (v : VirtualState) (f : VirtualId)
    {g : VirtualFile → VirtualFile} (h : ∀ x, p (g x) = p x) (x : VirtualId) :
    p ((v.modify f g).files x) = p (v.files x) := by
  by_cases hx : x = f
  · subst hx
    rw [files_modify_self, h]
  · rw [files_modify_of_ne v g hx]

theorem virtualize_files_of_ne (host : Host) (v : VirtualState) (r : FileId) {f : VirtualId}
    (hf : f ≠ v.next) : (virtualize host v r).1.files f = v.files f := Function.update_of_ne hf ..

theorem virtualize_files_self (host : Host) (v : VirtualState) (r : FileId) :
    (virtualize host v r).1.files v.next =
      { real := r, kind := (v.real.files r).kind, mode := virtualMode (v.real.files r),
        atime := host.now v.real.trace.calls, mtime := host.now v.real.trace.calls,
        ctime := host.now v.real.trace.calls } := Function.update_self ..

/-- The fields of a wrapper that no operation changes once it is made. -/
structure SameWrapper (x y : VirtualFile) : Prop where
  real : y.real = x.real
  kind : y.kind = x.kind
  mode : y.mode = x.mode

/-- The wrappers are the same, and so are the attributes of the real files. -/
structure SameWrappers (v v' : VirtualState) : Prop where
  files : ∀ f, SameWrapper (v.files f) (v'.files f)
  next : v'.next = v.next
  attributes : Tree.SameAttributes v.real.tree v'.real.tree
  rootDirectory : v'.rootDirectory = v.rootDirectory

namespace SameWrappers

theorem trans {v v' v'' : VirtualState} (h : SameWrappers v v') (h' : SameWrappers v' v'') :
    SameWrappers v v'' where
  files f := ⟨(h'.files f).real.trans (h.files f).real, (h'.files f).kind.trans (h.files f).kind,
    (h'.files f).mode.trans (h.files f).mode⟩
  next := h'.next.trans h.next
  attributes := h.attributes.trans h'.attributes
  rootDirectory := h'.rootDirectory.trans h.rootDirectory

theorem modify (v : VirtualState) (f : VirtualId) {g : VirtualFile → VirtualFile}
    (h : ∀ x, SameWrapper x (g x)) : SameWrappers v (v.modify f g) where
  files x := by
    by_cases hx : x = f
    · subst hx
      rw [files_modify_self]
      exact h _
    · rw [files_modify_of_ne v g hx]
      exact ⟨rfl, rfl, rfl⟩
  next := rfl
  attributes := .refl _
  rootDirectory := rfl

theorem setParent (v : VirtualState) (f : VirtualId) (p : Option VirtualId) :
    SameWrappers v (v.setParent f p) := modify v f fun _ => ⟨rfl, rfl, rfl⟩

theorem setChild (v : VirtualState) (d : VirtualId) (key : Name) (info : ChildInfo) :
    SameWrappers v (v.setChild d key info) := modify v d fun _ => ⟨rfl, rfl, rfl⟩

theorem eraseKey (v : VirtualState) (d : VirtualId) (key : Name) :
    SameWrappers v (v.eraseKey d key) := modify v d fun _ => ⟨rfl, rfl, rfl⟩

theorem withReal (v : VirtualState) {real : State}
    (h : Tree.SameAttributes v.real.tree real.tree) : SameWrappers v { v with real := real } where
  files _ := ⟨rfl, rfl, rfl⟩
  next := rfl
  attributes := h
  rootDirectory := rfl

theorem updateMTime (host : Host) (v : VirtualState) (f : VirtualId) :
    SameWrappers v (v.updateMTime host f) := by
  have hmodify := modify v f (g := fun x => { x with mtime := host.now v.real.trace.calls })
    fun _ => ⟨rfl, rfl, rfl⟩
  exact hmodify.trans (withReal _ (.refl v.real.ask.tree))

theorem node {v v' : VirtualState} (h : SameWrappers v v') : v'.node = v.node :=
  funext fun f => (h.files f).real

theorem isExtension {v v' : VirtualState} (h : SameWrappers v v') : Extends v v' where
  next_le := Nat.le_of_eq h.next.symm
  real_next_le := Nat.le_of_eq h.attributes.next.symm
  node _ := congrFun h.node _
  rootDirectory := h.rootDirectory
  realRoot := h.attributes.root

end SameWrappers

end VirtualState

namespace Tree.SameAttributes

theorem kind {t t' : Tree} (h : SameAttributes t t') (f : FileId) :
    (t'.node f).kind = (t.node f).kind := by
  have hdir := h.isDirectory f
  have htarget := h.target? f
  unfold Node.isDirectory at hdir
  unfold Node.target? at htarget
  unfold Node.kind
  cases hs : (t.node f).shape <;> cases hs' : (t'.node f).shape <;> simp_all

end Tree.SameAttributes

namespace VirtualState

/-- The part of the invariant that does not speak of the two forests carries over. -/
theorem Synced.of_sameWrappers {v v' : VirtualState} (h : Synced v) (hsame : SameWrappers v v')
    (hreal : v'.real.tree.WF) (htracks : Tracks v'.view v'.real.tree.forest v.node v.next)
    (hspelled : ∀ {d key info}, (v'.files d).children.lookup key = some info →
      normalize info.originalName = key) : Synced v' where
  toTracks := by
    rw [hsame.node, hsame.next]
    exact htracks
  real_wf := hreal
  exists_real hf := by
    rw [hsame.node]
    exact Nat.lt_of_lt_of_le (h.exists_real (hsame.next ▸ hf)) hsame.isExtension.real_next_le
  kind hf := by
    rw [hsame.node, (hsame.files _).kind, hsame.attributes.kind]
    exact h.kind (hsame.next ▸ hf)
  writable hf hd := by
    rw [hsame.node, (hsame.files _).mode, hsame.attributes.writable]
    exact h.writable (hsame.next ▸ hf) ((hsame.files _).kind ▸ hd)
  spelled := hspelled
  one_backend hf hd := by
    have hf : _ < v.real.next := Nat.lt_of_lt_of_eq hf hsame.attributes.next
    rw [hsame.attributes.isDirectory] at hd
    rw [hsame.attributes.backend, hsame.attributes.backend, hsame.attributes.root]
    exact h.one_backend hf hd

/-! ## The two forests -/

namespace Tracks

variable {V : Forest VirtualId Name} {F : Forest FileId Name} {node : VirtualId → FileId}
  {next : VirtualId}

theorem lt_next (h : Tracks V F node next) {f : VirtualId} (hf : V.Linked f) : f < next :=
  Nat.lt_of_not_le fun hle => hf (h.fresh hle)

theorem linked_real (h : Tracks V F node next) {f : VirtualId} (hf : V.Linked f) :
    F.Linked (node f) :=
  h.embeds.linked h.view_wf h.forest_wf hf

/-- A wrapper and its file are taken out. -/
theorem unlink (h : Tracks V F node next) {c : VirtualId} (hc : V.Linked c) (hroot : c ≠ V.root)
    (hleaf : ∀ n x, ¬ F.edge (node c) n x) : Tracks (V.unlink c) (F.unlink (node c)) node next where
  view_wf := h.view_wf.unlink hroot fun n x hx => hleaf n (node x) (h.embeds.edge hx)
  forest_wf := h.forest_wf.unlink
    (fun he => hroot (h.embeds.eq_root h.view_wf h.forest_wf hc he)) hleaf
  embeds := h.embeds.unlink h.view_wf h.forest_wf hc
  fresh {f} hf := by
    have hne : f ≠ c := Nat.ne_of_gt (Nat.lt_of_lt_of_le (h.lt_next hc) hf)
    exact (Forest.unlink_parent_of_ne _ hne).trans (h.fresh hf)
  unlinked {f} hf hl hl' := by
    by_cases hne : node f = node c
    · rw [hne] at hl'
      exact hl' (Forest.unlink_parent_self ..)
    · have hfc : f ≠ c := fun hfc => hne (congrArg node hfc)
      refine h.unlinked hf (fun hv => hl fun hp => hv ?_) fun hp => hl' ?_
      · exact (Forest.unlink_parent_of_ne _ hfc).symm.trans hp
      · exact (Forest.unlink_parent_of_ne _ hne).trans hp

/-- A wrapper and its file are moved. -/
theorem move (h : Tracks V F node next) {c d : VirtualId} {key : Name} (hc : V.Linked c)
    (hroot : c ≠ V.root) (hd : V.Linked d) (hbelow : ¬ F.Ancestor (node c) (node d))
    (hfree : ∀ x, ¬ F.edge (node d) key x) :
    Tracks (V.move c d key) (F.move (node c) (node d) key) node next where
  view_wf := h.view_wf.move hroot hd (fun ha => hbelow (h.embeds.ancestor h.view_wf h.forest_wf ha))
    fun x hx => absurd (h.embeds.edge hx) (hfree (node x))
  forest_wf := h.forest_wf.move (fun he => hroot (h.embeds.eq_root h.view_wf h.forest_wf hc he))
    (h.linked_real hd) hbelow fun x hx => absurd hx (hfree x)
  embeds := h.embeds.move h.view_wf h.forest_wf hc d key
  fresh {f} hf := by
    have hne : f ≠ c := Nat.ne_of_gt (Nat.lt_of_lt_of_le (h.lt_next hc) hf)
    exact (Forest.move_parent_of_ne _ _ _ hne).trans (h.fresh hf)
  unlinked {f} hf hl hl' := by
    have hfc : f ≠ c := by
      rintro rfl
      exact hl fun hp => by cases hp.symm.trans (Forest.move_parent_self ..)
    have hunlinked := h.unlinked hf fun hv => hl fun hp =>
      hv ((Forest.move_parent_of_ne _ _ _ hfc).symm.trans hp)
    have hne : node f ≠ node c := fun hne => hunlinked (hne ▸ h.linked_real hc)
    exact hunlinked fun hp => hl' ((Forest.move_parent_of_ne _ _ _ hne).trans hp)

/-- A wrapper and its file take the place of others. -/
theorem replace (h : Tracks V F node next) {c c' d : VirtualId} {key : Name} (hc : V.Linked c)
    (hroot : c ≠ V.root) (he : V.edge d key c') (hne : c' ≠ c)
    (hleaf : ∀ n x, ¬ F.edge (node c') n x) (hbelow : ¬ F.Ancestor (node c) (node d)) :
    Tracks ((V.unlink c').move c d key) ((F.unlink (node c')).move (node c) (node d) key) node
      next := by
  have hd : d ≠ c' := by
    rintro rfl
    exact h.view_wf.not_edge_self he
  have hlinked : ∀ {x}, V.Linked x → x ≠ c' → (V.unlink c').Linked x := fun hx hxc hp =>
    hx ((Forest.unlink_parent_of_ne _ hxc).symm.trans hp)
  have hunlink := h.unlink (h.view_wf.child_linked he) (h.view_wf.child_ne_root he) hleaf
  refine hunlink.move (hlinked hc hne.symm) hroot (hlinked (h.view_wf.linked_of_edge he) hd)
    (fun ha => hbelow ha.of_unlink) ?_
  rintro x ⟨hx, hxc⟩
  exact hxc (h.forest_wf.child_unique hx (h.embeds.edge he))

end Tracks

/-! ## The forest after an update -/

variable {v : VirtualState}

@[simp] theorem view_updateMTime (host : Host) (v : VirtualState) (f : VirtualId) :
    (v.updateMTime host f).view = v.view := by
  have hparent := files_modify_congr VirtualFile.parent v f
    (g := fun x => { x with mtime := host.now v.real.trace.calls }) fun _ => rfl
  have hchildren := files_modify_congr VirtualFile.children v f
    (g := fun x => { x with mtime := host.now v.real.trace.calls }) fun _ => rfl
  apply Forest.ext
  · rfl
  · exact funext hparent
  · funext d key c
    exact congrArg (fun l : AList _ => ∃ info, l.lookup key = some info ∧ info.child = c)
      (hchildren d)

theorem parent_setParent (v : VirtualState) (c : VirtualId) (p : Option VirtualId) :
    (v.setParent c p).view.parent = Function.update v.view.parent c p := by
  funext f
  by_cases hf : f = c
  · subst hf
    rw [Function.update_self]
    exact congrArg VirtualFile.parent (files_modify_self ..)
  · rw [Function.update_of_ne hf]
    exact congrArg VirtualFile.parent (files_modify_of_ne v _ hf)

@[simp] theorem children_setParent (v : VirtualState) (c : VirtualId) (p : Option VirtualId)
    (d : VirtualId) : ((v.setParent c p).files d).children = (v.files d).children :=
  files_modify_congr VirtualFile.children v c (g := fun x => { x with parent := p })
    (fun _ => rfl) d

theorem edge_setParent (v : VirtualState) (c : VirtualId) (p : Option VirtualId) :
    (v.setParent c p).view.edge = v.view.edge := by
  funext d key x
  exact congrArg (fun l : AList _ => ∃ info, l.lookup key = some info ∧ info.child = x)
    (children_setParent v c p d)

@[simp] theorem parent_setChild (v : VirtualState) (d : VirtualId) (key : Name)
    (info : ChildInfo) : (v.setChild d key info).view.parent = v.view.parent :=
  funext fun f => files_modify_congr VirtualFile.parent v d
    (g := fun x => { x with children := x.children.insert key info }) (fun _ => rfl) f

@[simp] theorem parent_eraseKey (v : VirtualState) (d : VirtualId) (key : Name) :
    (v.eraseKey d key).view.parent = v.view.parent :=
  funext fun f => files_modify_congr VirtualFile.parent v d
    (g := fun x => { x with children := x.children.erase key }) (fun _ => rfl) f

/-- The entries after `children[key] = info`. -/
theorem lookup_setChild (v : VirtualState) (d : VirtualId) (key : Name) (info : ChildInfo)
    (d' : VirtualId) (key' : Name) : ((v.setChild d key info).files d').children.lookup key' =
      if d' = d ∧ key' = key then some info else (v.files d').children.lookup key' := by
  unfold setChild
  by_cases hd : d' = d
  · subst hd
    rw [files_modify_self]
    by_cases hk : key' = key
    · subst hk
      rw [AList.lookup_insert, if_pos ⟨rfl, rfl⟩]
    · rw [AList.lookup_insert_ne hk, if_neg fun h => hk h.2]
  · rw [files_modify_of_ne v _ hd, if_neg fun h => hd h.1]

/-- The entries after an entry is erased. -/
theorem lookup_eraseKey (v : VirtualState) (d : VirtualId) (key : Name) (d' : VirtualId)
    (key' : Name) : ((v.eraseKey d key).files d').children.lookup key' =
      if d' = d ∧ key' = key then none else (v.files d').children.lookup key' := by
  unfold eraseKey
  by_cases hd : d' = d
  · subst hd
    rw [files_modify_self]
    by_cases hk : key' = key
    · subst hk
      rw [AList.lookup_erase, if_pos ⟨rfl, rfl⟩]
    · rw [AList.lookup_erase_ne hk, if_neg fun h => hk h.2]
  · rw [files_modify_of_ne v _ hd, if_neg fun h => hd h.1]

theorem edge_setChild {d : VirtualId} {key : Name} {info : ChildInfo} {d' : VirtualId}
    {key' : Name} {c : VirtualId} : (v.setChild d key info).view.edge d' key' c ↔
      (v.view.edge d' key' c ∧ ¬ (d' = d ∧ key' = key)) ∨
        (d' = d ∧ key' = key ∧ c = info.child) := by
  unfold view
  simp only [lookup_setChild]
  by_cases h : d' = d ∧ key' = key
  · simp [h, eq_comm]
  · simp only [if_neg h]
    rw [and_iff_left h, or_iff_left fun hc => h ⟨hc.1, hc.2.1⟩]

theorem edge_eraseKey {d : VirtualId} {key : Name} {d' : VirtualId} {key' : Name}
    {c : VirtualId} : (v.eraseKey d key).view.edge d' key' c ↔
      v.view.edge d' key' c ∧ ¬ (d' = d ∧ key' = key) := by
  unfold view
  simp only [lookup_eraseKey]
  by_cases h : d' = d ∧ key' = key
  · simp [h]
  · simp [h]

/-- The loop over the entries finds the one entry of the file. -/
theorem eraseChild_eq (h : v.view.WF) {p c : VirtualId} {key : Name}
    (he : v.view.edge p key c) : v.eraseChild p c = v.eraseKey p key := by
  obtain ⟨info, hlookup, hchild⟩ := he
  have hmem : (⟨key, info⟩ : Sigma fun _ : Name => ChildInfo) ∈ (v.files p).children.entries :=
    AList.mem_lookup_iff.mp hlookup
  unfold eraseChild
  cases hfind : (v.files p).children.entries.find? fun e => e.2.child == c with
  | none =>
      rw [List.find?_eq_none] at hfind
      exact absurd (beq_iff_eq.mpr hchild) (hfind _ hmem)
  | some e =>
      have hec := List.find?_some hfind
      have hkey : e.1 = key := h.name_unique
        ⟨e.2, AList.mem_lookup_iff.mpr (List.mem_of_find?_eq_some hfind), beq_iff_eq.mp hec⟩
        ⟨info, hlookup, hchild⟩
      simp only [hkey]

end VirtualState

end WasmFS
