import WasmFS.Namespace.Invariant

/-!
# Directory handles act on the tree

Every operation of `Directory` is computed here on the tree of the state.  In a
well-formed tree a lookup is pure (`getChild_eq`), since the parent pointer it
sets is there already.  An insertion is `Tree.create`, a removal `Tree.unlink`,
and a move is `Tree.moveChild` or `Tree.replaceChild`.

The cache drops out.  A directory that can be changed by a removal or a move is
writable, so it has no mounts, and no directory is mounted.
-/

namespace WasmFS

open WasmFS.Tree

/-! ## The tree of a state -/

def Body.shape : Body → Shape
  | .memory _ => .memory
  | .device dev => .device dev
  | .directory entries dcache => .directory entries dcache
  | .symlink target => .symlink target.toList

def File.node (f : File) : Node where
  shape := f.body.shape
  mode := f.mode
  parent := f.parent
  backend := f.backend

namespace File

@[simp] theorem node_mode (f : File) : f.node.mode = f.mode := rfl
@[simp] theorem node_parent (f : File) : f.node.parent = f.parent := rfl
@[simp] theorem node_backend (f : File) : f.node.backend = f.backend := rfl
@[simp] theorem node_readable (f : File) : f.node.readable = f.readable := rfl
@[simp] theorem node_writable (f : File) : f.node.writable = f.writable := rfl

@[simp] theorem node_isDirectory (f : File) : f.node.isDirectory = f.isDirectory := by
  unfold node Node.isDirectory isDirectory kind
  cases f.body <;> rfl

theorem setBuffer_isDataFile (f : File) (b : Buffer) :
    (f.setBuffer b).isDataFile = f.isDataFile := by
  simp only [isDataFile, kind, setBuffer]
  cases f.body <;> rfl

theorem not_isDirectory_of_isDataFile {f : File} (h : f.isDataFile) : ¬ f.isDirectory := by
  intro hd
  simp only [isDataFile, isDirectory, beq_iff_eq] at h hd
  rw [h] at hd
  cases hd

@[simp] theorem node_entries (f : File) : f.node.entries = f.entries := by
  unfold node Node.entries entries
  cases f.body <;> rfl

@[simp] theorem node_dcache (f : File) : f.node.dcache = f.dcache := by
  unfold node Node.dcache dcache
  cases f.body <;> rfl

@[simp] theorem node_target? (f : File) : f.node.target? = f.target? := by
  unfold node Node.target? target?
  cases f.body <;> rfl

theorem node_setEntries (f : File) (l) : (f.setEntries l).node = f.node.setEntries l := by
  unfold node setEntries Node.setEntries
  cases f.body <;> rfl

@[simp] theorem node_setBuffer (f : File) (b : Buffer) : (f.setBuffer b).node = f.node := by
  unfold node setBuffer
  cases f.body <;> rfl

end File

namespace State

/-- The tree of a state. -/
def tree (s : State) : Tree where
  node := fun f => (s.files f).node
  next := s.next
  root := s.rootDirectory
  cwd := s.cwd

@[simp] theorem tree_node (s : State) (f : FileId) : s.tree.node f = (s.files f).node := rfl
@[simp] theorem tree_next (s : State) : s.tree.next = s.next := rfl
@[simp] theorem tree_root (s : State) : s.tree.root = s.rootDirectory := rfl
@[simp] theorem tree_cwd (s : State) : s.tree.cwd = s.cwd := rfl

theorem tree_modify {s : State} {f : FileId} {g : File → File} {k : Node → Node}
    (h : ∀ x, (g x).node = k x.node) : (s.modify f g).tree = s.tree.modify f k := by
  have hnode : (s.modify f g).tree.node = (s.tree.modify f k).node := by
    funext x
    by_cases hx : x = f
    · subst hx
      rw [node_modify_self]
      exact (congrArg File.node (Function.update_self ..)).trans (h _)
    · rw [node_modify_of_ne _ _ hx]
      exact congrArg File.node (Function.update_of_ne hx ..)
  exact congrArg (fun n => { s.tree with node := n }) hnode

/-- An update that leaves the node alone leaves the tree alone. -/
theorem tree_modify_of_node {s : State} {f : FileId} {g : File → File}
    (h : (g (s.files f)).node = (s.files f).node) : (s.modify f g).tree = s.tree := by
  have hnode : (s.modify f g).tree.node = s.tree.node := by
    funext x
    by_cases hx : x = f
    · subst hx
      exact (congrArg File.node (Function.update_self ..)).trans h
    · exact congrArg File.node (Function.update_of_ne hx ..)
  exact congrArg (fun n => { s.tree with node := n }) hnode

theorem tree_setEntries (s : State) (d : FileId)
    (l : List (Name × FileId) → List (Name × FileId)) :
    (s.modify d fun x => x.setEntries (l x.entries)).tree =
      s.tree.modify d fun x => x.setEntries (l x.entries) :=
  tree_modify fun x => by rw [File.node_setEntries, File.node_entries]

theorem tree_setParent (s : State) (f : FileId) (p : Option FileId) :
    (s.setParent f p).tree = s.tree.setParent f p :=
  tree_modify fun _ => rfl

theorem tree_alloc (s : State) (x : File) : (s.alloc x).1.tree = s.tree.alloc x.node := by
  have hnode : (s.alloc x).1.tree.node = (s.tree.alloc x.node).node := by
    funext f
    by_cases hf : f = s.next
    · subst hf
      exact (congrArg File.node (Function.update_self ..)).trans (node_alloc_self ..).symm
    · exact (congrArg File.node (Function.update_of_ne hf ..)).trans
        (node_alloc_of_ne s.tree x.node hf).symm
  exact congrArg (fun n => { s.tree with node := n, next := s.next + 1 }) hnode

@[simp] theorem tree_ask (s : State) : s.ask.tree = s.tree := rfl
@[simp] theorem tree_hook (s : State) (h : Hook) : (s.hook h).tree = s.tree := rfl

@[simp] theorem tree_modifyOpen (s : State) (o : OpenId) (g : OpenFileState → OpenFileState) :
    (s.modifyOpen o g).tree = s.tree := rfl

@[simp] theorem tree_allocOpen (s : State) (x : OpenFileState) :
    (s.allocOpen x).1.tree = s.tree := rfl

@[simp] theorem tree_updateMTime (host : Host) (s : State) (f : FileId) :
    (s.updateMTime host f).tree = s.tree :=
  tree_modify_of_node (g := fun x => { x with mtime := host.now s.trace.calls }) rfl

/-- Setting the parent pointer that is there already changes nothing. -/
theorem setParent_of_parent {s : State} {f : FileId} {p : Option FileId}
    (h : (s.files f).parent = p) : s.setParent f p = s := by
  subst h
  exact congrArg (fun files => { s with files := files }) (Function.update_eq_self ..)

end State

/-! ## Lookups -/

namespace Node

variable {x : Node} {name : Name}

/-- With distinct names it does not matter that the cache is asked first. -/
theorem lookup_children_of_dcache (hx : (x.children.map Prod.fst).Nodup)
    (hkind : ∀ e ∈ x.dcache, e.2.kind = .mount) {entry : DCacheEntry}
    (h : x.dcache.lookup name = some entry) : x.children.lookup name = some entry.file := by
  have hm := Assoc.mem_of_lookup h
  rw [Assoc.lookup_eq_some_iff_mem hx]
  refine List.mem_append_right _ (List.mem_map.mpr ⟨_, List.mem_filter.mpr ⟨hm, ?_⟩, rfl⟩)
  rw [hkind _ hm]
  rfl

theorem lookup_children_of_not_dcache (h : x.dcache.lookup name = none) :
    x.children.lookup name = x.entries.lookup name := by
  have hmount : x.mounts.lookup name = none := by
    rw [Assoc.lookup_eq_none_iff_not_mem] at h ⊢
    rintro c hc
    obtain ⟨⟨m, entry⟩, he, heq⟩ := List.mem_map.mp hc
    cases heq
    exact h entry (List.mem_filter.mp he).1
  rw [children, List.lookup_append, hmount, Option.or_none]

end Node

namespace Tree

variable {t : Tree}

theorem children_eq_nil_iff {d : FileId} :
    (t.node d).children = [] ↔ ∀ n x, ¬ t.forest.edge d n x := by
  rw [List.eq_nil_iff_forall_not_mem]
  exact Prod.forall

theorem lookup_of_unlinked {d : FileId} (h : ¬ t.forest.Linked d) (n : Name) :
    t.lookup d n = none := by
  have hp : (t.node d).parent = none := not_not.mp h
  unfold lookup
  rw [hp]

theorem linked_of_lookup {d c : FileId} {n : Name} (h : t.lookup d n = some c) :
    t.forest.Linked d := by
  intro hp
  rw [lookup_of_unlinked (fun hl => hl hp)] at h
  cases h

theorem lookup_dot {d : FileId} (h : t.forest.Linked d) : t.lookup d dot = some d := by
  unfold lookup
  cases hp : (t.node d).parent with
  | none => exact absurd hp h
  | some p => rfl

theorem lookup_dotdot {d p : FileId} (h : (t.node d).parent = some p) :
    t.lookup d dotdot = some p := by
  unfold lookup
  rw [h]
  rfl

/-- For a name other than `.` and `..` a lookup finds the children. -/
theorem WF.lookup_eq_some_iff (h : t.WF) {d c : FileId} {n : Name} (hdot : n ≠ dot)
    (hdotdot : n ≠ dotdot) : t.lookup d n = some c ↔ t.forest.edge d n c := by
  have hedge : (t.node d).children.lookup n = some c ↔ t.forest.edge d n c :=
    Assoc.lookup_eq_some_iff_mem (h.names_nodup d)
  cases hp : (t.node d).parent with
  | none =>
      have hd : ¬ t.forest.Linked d := fun hl => hl hp
      rw [lookup_of_unlinked hd]
      exact iff_of_false (by simp) fun he => hd (h.forest.linked_of_edge he)
  | some p =>
      unfold lookup
      rw [hp]
      simp only [if_neg hdot, if_neg hdotdot]
      exact hedge

/-- A name that a lookup does not find in a linked directory is free. -/
theorem WF.free_of_lookup_eq_none (h : t.WF) {d : FileId} {n : Name} (hd : t.forest.Linked d)
    (hn : t.lookup d n = none) : n ≠ dot ∧ n ≠ dotdot ∧ ∀ c, ¬ t.forest.edge d n c := by
  have hdot : n ≠ dot := by
    rintro rfl
    rw [lookup_dot hd] at hn
    cases hn
  have hdotdot : n ≠ dotdot := by
    rintro rfl
    cases hp : (t.node d).parent with
    | none => exact hd hp
    | some p =>
        rw [lookup_dotdot hp] at hn
        cases hn
  refine ⟨hdot, hdotdot, fun c he => ?_⟩
  rw [(h.lookup_eq_some_iff hdot hdotdot).mpr he] at hn
  cases hn

/-- The parent of a file is a directory. -/
theorem WF.isDirectory_of_parent (h : t.WF) {x p : FileId} (hp : (t.node x).parent = some p) :
    (t.node p).isDirectory := by
  by_cases hx : x = t.root
  · subst hx
    have hroot : some t.root = some p := h.forest.root_parent.symm.trans hp
    cases hroot
    exact h.root_directory
  · obtain ⟨n, he⟩ := h.forest.parent_edge hp hx
    exact Node.isDirectory_of_mem_children he

/-- What a lookup can find under a name. -/
inductive Finds (t : Tree) (d : FileId) : Name → FileId → Prop where
  | self : t.forest.Linked d → Finds t d dot d
  | parent {p : FileId} : (t.node d).parent = some p → Finds t d dotdot p
  | child {n : Name} {c : FileId} : n ≠ dot → n ≠ dotdot → t.forest.edge d n c → Finds t d n c

theorem WF.finds (h : t.WF) {d c : FileId} {n : Name} (hl : t.lookup d n = some c) :
    t.Finds d n c := by
  have hlinked := linked_of_lookup hl
  by_cases hdot : n = dot
  · subst hdot
    rw [lookup_dot hlinked] at hl
    cases hl
    exact .self hlinked
  by_cases hdotdot : n = dotdot
  · subst hdotdot
    cases hp : (t.node d).parent with
    | none => exact absurd hp hlinked
    | some p =>
        rw [lookup_dotdot hp] at hl
        cases hl
        exact .parent hp
  · exact .child hdot hdotdot ((h.lookup_eq_some_iff hdot hdotdot).mp hl)

/-- What a lookup finds is linked. -/
theorem WF.linked_of_found (h : t.WF) {d c : FileId} {n : Name} (hl : t.lookup d n = some c) :
    t.forest.Linked c := by
  cases h.finds hl with
  | self hlinked => exact hlinked
  | parent hp => exact h.forest.parent_linked hp
  | child _ _ he => exact h.forest.child_linked he

/-- What a lookup finds is a directory, as for `.` and `..`, or a child. -/
theorem WF.lookup_cases (h : t.WF) {d c : FileId} {n : Name} (hd : (t.node d).isDirectory)
    (hl : t.lookup d n = some c) : (t.node c).isDirectory ∨ t.forest.edge d n c := by
  cases h.finds hl with
  | self => exact Or.inl hd
  | parent hp => exact Or.inl (h.isDirectory_of_parent hp)
  | child _ _ he => exact Or.inr he

end Tree

/-- In a well-formed tree a lookup leaves the state alone. -/
theorem Directory.getChild_eq {s : State} (h : s.tree.WF) (d : FileId) (name : Name) :
    Directory.getChild s d name = (s, s.tree.lookup d name) := by
  unfold Directory.getChild Tree.lookup State.getParent
  rw [State.tree_node, File.node_parent]
  cases hp : (s.files d).parent with
  | none => rfl
  | some parent =>
      simp only
      split
      · rfl
      split
      · rfl
      rw [← File.node_dcache, ← State.tree_node]
      cases hd : (s.tree.node d).dcache.lookup name with
      | some entry =>
          rw [Node.lookup_children_of_dcache (h.names_nodup d) (fun _ => h.kind_mount) hd]
      | none =>
          rw [Node.lookup_children_of_not_dcache hd, State.tree_node, File.node_entries]
          unfold MemoryDirectory.getChild
          cases hc : (s.files d).entries.lookup name with
          | none => rfl
          | some child =>
              have hedge : s.tree.forest.edge d name child := by
                refine List.mem_append_left _ ?_
                rw [State.tree_node, File.node_entries]
                exact Assoc.mem_of_lookup hc
              have hparent : (s.files child).parent = some d := h.forest.edge_parent hedge
              exact Prod.ext (State.setParent_of_parent hparent) rfl

/-! ## Insertions -/

/-- The node of a file that an insertion makes. -/
def newNode (body : Body) (mode : Nat) (backend : BackendId) : Node where
  shape := body.shape
  mode := mode
  backend := backend

@[simp] theorem newNode_readable (body : Body) (mode : Nat) (backend : BackendId) :
    (newNode body mode backend).readable = hasFlag mode WASMFS_PERM_READ := rfl

@[simp] theorem newNode_writable (body : Body) (mode : Nat) (backend : BackendId) :
    (newNode body mode backend).writable = hasFlag mode WASMFS_PERM_WRITE := rfl

/-- A body that holds no children. -/
def Body.Childless (body : Body) : Prop :=
  match body with
  | .directory entries dcache => entries = [] ∧ dcache = []
  | _ => True

theorem newNode_blank (body : Body) (h : body.Childless) (mode : Nat) (backend : BackendId) :
    (newNode body mode backend).Blank := by
  refine ⟨rfl, ?_, ?_⟩
  · unfold newNode Node.entries Body.shape
    cases body with
    | directory entries dcache => exact h.1
    | _ => rfl
  · unfold newNode Node.dcache Body.shape
    cases body with
    | directory entries dcache => exact h.2
    | _ => rfl

namespace Directory

/-- The state after an insertion into a linked directory. -/
def inserted (host : Host) (s : State) (d : FileId) (name : Name) (body : Body) (mode : Nat) :
    State :=
  let now := host.now s.trace.calls
  let s' := (s.ask.alloc
    { body := body, mode := mode, atime := now, mtime := now, ctime := now,
      backend := (s.files d).backend }).1
  ((MemoryDirectory.insertChild s' d name s.next).setParent s.next (some d)).updateMTime host d

theorem insert_of_linked {host : Host} {s : State} {d : FileId} (h : s.tree.forest.Linked d)
    (name : Name) (body : Body) (mode : Nat) :
    insert host s d name body mode = (inserted host s d name body mode, some s.next) := by
  unfold insert State.getParent
  cases hp : (s.files d).parent with
  | none => exact absurd hp h
  | some p => rfl

theorem insert_of_unlinked {host : Host} {s : State} {d : FileId} (h : ¬ s.tree.forest.Linked d)
    (name : Name) (body : Body) (mode : Nat) : insert host s d name body mode = (s, none) := by
  have hp : (s.files d).parent = none := not_not.mp h
  unfold insert State.getParent
  rw [hp]

theorem tree_inserted (host : Host) (s : State) (d : FileId) (name : Name) (body : Body)
    (mode : Nat) : (inserted host s d name body mode).tree =
      s.tree.create d name (newNode body mode (s.files d).backend) := by
  unfold inserted MemoryDirectory.insertChild
  simp only [State.tree_updateMTime, State.tree_setParent]
  rw [State.tree_setEntries _ d fun l => l ++ [(name, s.next)], State.tree_alloc, State.tree_ask]
  rfl

end Directory

/-! ## Removals -/

theorem MemoryDirectory.tree_removeChild {s : State} {d c : FileId} {name : Name}
    (h : (s.files d).entries.lookup name = some c) :
    (removeChild s d name).tree = s.tree.unlink d name c := by
  unfold removeChild getChild
  rw [h]
  simp only
  rw [State.tree_setEntries _ d fun l => l.eraseP fun e => e.1 == name, State.tree_setParent]
  rfl

theorem MemoryDirectory.removeChild_of_none {s : State} {d : FileId} {name : Name}
    (h : (s.files d).entries.lookup name = none) : removeChild s d name = s := by
  unfold removeChild getChild
  rw [h]

namespace Directory

theorem removeChild_of_dcache_nil {host : Host} {s : State} {d : FileId}
    (h : (s.files d).dcache = []) (name : Name) :
    removeChild host s d name = ((MemoryDirectory.removeChild s d name).updateMTime host d, 0) := by
  unfold removeChild
  rw [h]
  rfl

end Directory

/-! ## Moves -/

namespace Directory

/-- The state after a move between directories whose caches do not know the
file. -/
def moved (host : Host) (s : State) (d : FileId) (name : Name) (file oldParent : FileId) : State :=
  (((MemoryDirectory.insertMove s d name file oldParent).setParent file (some d)).updateMTime host
    oldParent).updateMTime host d

theorem insertMove_eq {host : Host} {s : State} {d file p : FileId} (hd : s.tree.forest.Linked d)
    (hp : (s.files file).parent = some p) (hcache : ∀ e ∈ (s.files p).dcache, e.2.file ≠ file)
    (name : Name) : insertMove host s d name file = .ok (moved host s d name file p, 0) := by
  have hfind : ((s.files p).dcache.find? fun e => e.2.file == file) = none := by
    rw [List.find?_eq_none]
    intro e he
    simpa using hcache e he
  unfold insertMove State.getParent
  cases hdp : (s.files d).parent with
  | none => exact absurd hdp hd
  | some q =>
      simp only [hp, hfind]
      rfl

/-- The state of a move after the old entry is erased. -/
def detached (s : State) (p file : FileId) : State :=
  s.modify p fun x => x.setEntries (x.entries.eraseP fun e => e.2 == file)

theorem tree_detached (s : State) (p file : FileId) :
    (detached s p file).tree = s.tree.dropChild p file :=
  s.tree_setEntries p fun l => l.eraseP fun e => e.2 == file

theorem tree_moved (host : Host) (s : State) (d : FileId) (name : Name) (file p : FileId) :
    (moved host s d name file p).tree =
      (MemoryDirectory.removeChild (detached s p file) d name).tree.link d name file := by
  unfold moved MemoryDirectory.insertMove MemoryDirectory.insertChild
  simp only [State.tree_updateMTime, State.tree_setParent]
  rw [State.tree_setEntries _ d fun l => l ++ [(name, file)]]
  rfl

theorem tree_moved_of_free (host : Host) {s : State} {d : FileId} {name : Name}
    (hfree : ∀ c, (name, c) ∉ (s.files d).entries) (file p : FileId) :
    (moved host s d name file p).tree = s.tree.moveChild p file d name := by
  have hnone : ((detached s p file).files d).entries.lookup name = none := by
    rw [Assoc.lookup_eq_none_iff_not_mem]
    intro c hc
    rw [← File.node_entries, ← State.tree_node, tree_detached] at hc
    have hc := mem_entries_of_dropChild hc
    rw [State.tree_node, File.node_entries] at hc
    exact hfree c hc
  rw [tree_moved, MemoryDirectory.removeChild_of_none hnone, tree_detached]
  rfl

theorem tree_moved_of_entry (host : Host) {s : State} (h : s.tree.WF) {d c file : FileId}
    {name : Name} (hc : (name, c) ∈ (s.files d).entries) (hne : c ≠ file) (p : FileId) :
    (moved host s d name file p).tree = s.tree.replaceChild p file d name c := by
  have hnames := names_nodup_dropChild h.names_nodup p file d
  have hmem : (name, c) ∈ ((s.tree.dropChild p file).node d).entries := by
    refine entries_dropChild_of_ne hne ?_
    rwa [State.tree_node, File.node_entries]
  have hsome : ((detached s p file).files d).entries.lookup name = some c := by
    rw [← File.node_entries, ← State.tree_node, tree_detached]
    refine (Assoc.lookup_eq_some_iff_mem ?_).mpr hmem
    rw [Node.children, List.map_append] at hnames
    exact (List.nodup_append.mp hnames).1
  rw [tree_moved, MemoryDirectory.tree_removeChild hsome, tree_detached]
  rfl

end Directory

end WasmFS
