import WasmFS.Lib.Assoc
import WasmFS.Lib.Forest
import WasmFS.Source.Directory

/-!
# The tree

The *tree* of a state is what the namespace is made of: for every file its
kind, its mode, its parent pointer, its backend and, for a directory, the
entries and the mounts.  Bytes, times, descriptors and the trace are not part of
it (`State.tree`).

`Tree.forest` forgets the order of the entries and the difference between an
entry and a mount.  It is the forest of the triples (directory, name, child)
together with the parent pointers.  `Tree.lookup` is the lookup of one name.

`Tree.WF` is the invariant.  It says that the forest is well formed and that the
names of the children of a directory are distinct as a list.  What protects the
mounts is a permission: a directory that has mounts is not writable, and what is
mounted is a special file.

Three operations change the tree.  `create` adds a new file, `unlink` takes a
child out of its directory, and `moveChild` moves one.  Each changes the forest
as the operation of `Forest` of the same meaning does.
-/

namespace WasmFS

/-! ## Nodes -/

/-- The part of a `Body` that belongs to the tree. -/
inductive Shape where
  | memory
  | device (dev : Device)
  | directory (entries : List (Name × FileId)) (dcache : List (Name × DCacheEntry))
  | symlink (target : Name)
deriving DecidableEq

structure Node where
  shape : Shape
  mode : Nat
  parent : Option FileId := none
  backend : BackendId
deriving DecidableEq

namespace Node

def isDirectory (x : Node) : Bool :=
  match x.shape with
  | .directory _ _ => true
  | _ => false

def entries (x : Node) : List (Name × FileId) :=
  match x.shape with
  | .directory entries _ => entries
  | _ => []

def dcache (x : Node) : List (Name × DCacheEntry) :=
  match x.shape with
  | .directory _ dcache => dcache
  | _ => []

/-- The mounts among the cached children. -/
def mounts (x : Node) : List (Name × FileId) :=
  (x.dcache.filter fun e => e.2.kind == .mount).map fun e => (e.1, e.2.file)

/-- The entries and the mounts. -/
def children (x : Node) : List (Name × FileId) := x.entries ++ x.mounts

def target? (x : Node) : Option Name :=
  match x.shape with
  | .symlink target => some target
  | _ => none

def device? (x : Node) : Option Device :=
  match x.shape with
  | .device dev => some dev
  | _ => none

def readable (x : Node) : Bool := hasFlag x.mode WASMFS_PERM_READ

def writable (x : Node) : Bool := hasFlag x.mode WASMFS_PERM_WRITE

def setEntries (x : Node) (entries : List (Name × FileId)) : Node :=
  { x with shape := match x.shape with
      | .directory _ dcache => .directory entries dcache
      | shape => shape }

@[simp] theorem setEntries_mode (x : Node) (l) : (x.setEntries l).mode = x.mode := rfl
@[simp] theorem setEntries_parent (x : Node) (l) : (x.setEntries l).parent = x.parent := rfl
@[simp] theorem setEntries_backend (x : Node) (l) : (x.setEntries l).backend = x.backend := rfl
@[simp] theorem setEntries_readable (x : Node) (l) : (x.setEntries l).readable = x.readable := rfl
@[simp] theorem setEntries_writable (x : Node) (l) : (x.setEntries l).writable = x.writable := rfl

@[simp] theorem setEntries_isDirectory (x : Node) (l) :
    (x.setEntries l).isDirectory = x.isDirectory := by
  unfold isDirectory setEntries
  cases x.shape <;> rfl

@[simp] theorem setEntries_dcache (x : Node) (l) : (x.setEntries l).dcache = x.dcache := by
  unfold dcache setEntries
  cases x.shape <;> rfl

@[simp] theorem setEntries_target? (x : Node) (l) : (x.setEntries l).target? = x.target? := by
  unfold target? setEntries
  cases x.shape <;> rfl

@[simp] theorem setEntries_mounts (x : Node) (l) : (x.setEntries l).mounts = x.mounts := by
  unfold mounts
  rw [setEntries_dcache]

@[simp] theorem setEntries_device? (x : Node) (l) : (x.setEntries l).device? = x.device? := by
  unfold device? setEntries
  cases x.shape <;> rfl

theorem setEntries_entries {x : Node} (h : x.isDirectory) (l) : (x.setEntries l).entries = l := by
  unfold isDirectory at h
  unfold entries setEntries
  cases hx : x.shape with
  | directory _ _ => rfl
  | _ => simp [hx] at h

theorem children_setEntries {x : Node} (h : x.isDirectory) (l) :
    (x.setEntries l).children = l ++ x.mounts := by
  rw [children, setEntries_entries h, setEntries_mounts]

theorem setEntries_of_not_isDirectory {x : Node} (h : x.isDirectory = false) (l) :
    x.setEntries l = x := by
  obtain ⟨shape, mode, parent, backend⟩ := x
  unfold isDirectory at h
  unfold setEntries
  cases shape <;> simp_all

/-- Only a directory has children. -/
theorem isDirectory_of_mem_children {x : Node} {e : Name × FileId} (h : e ∈ x.children) :
    x.isDirectory := by
  unfold children mounts entries dcache at h
  unfold isDirectory
  cases hx : x.shape <;> simp_all

/-- A node that holds nothing and is not linked. -/
structure Blank (x : Node) : Prop where
  parent : x.parent = none
  entries : x.entries = []
  dcache : x.dcache = []

theorem Blank.children {x : Node} (h : x.Blank) : x.children = [] := by
  rw [Node.children, Node.mounts, h.entries, h.dcache]
  rfl

/-- A directory is not a special file. -/
theorem device?_of_isDirectory {x : Node} (h : x.isDirectory) : x.device? = none := by
  unfold isDirectory at h
  unfold device?
  cases hx : x.shape <;> simp_all

/-- Adding an entry. -/
theorem mem_children_append {x : Node} (h : x.isDirectory) {n : Name} {c : FileId}
    {e : Name × FileId} :
    e ∈ (x.setEntries (x.entries ++ [(n, c)])).children ↔ e ∈ x.children ∨ e = (n, c) := by
  rw [children_setEntries h, children]
  simp only [List.mem_append, List.mem_singleton]
  tauto

/-- Erasing the entry of a name. -/
theorem mem_children_eraseName {x : Node} (hx : (x.children.map Prod.fst).Nodup) {n : Name}
    {c : FileId} (hc : (n, c) ∈ x.entries) {e : Name × FileId} :
    e ∈ (x.setEntries (x.entries.eraseP fun e => e.1 == n)).children ↔
      e ∈ x.children ∧ e.1 ≠ n := by
  have hdir : x.isDirectory := isDirectory_of_mem_children (List.mem_append_left _ hc)
  rw [children, List.map_append, List.nodup_append] at hx
  have hmount : ∀ e ∈ x.mounts, e.1 ≠ n := fun e he h =>
    hx.2.2 n (List.mem_map.mpr ⟨_, hc, rfl⟩) e.1 (List.mem_map_of_mem he) h.symm
  rw [children_setEntries hdir, children, List.mem_append, List.mem_append,
    Assoc.mem_eraseP_key_iff hx.1]
  constructor
  · rintro (⟨he, hne⟩ | he)
    · exact ⟨Or.inl he, hne⟩
    · exact ⟨Or.inr he, hmount e he⟩
  · rintro ⟨he | he, hne⟩
    · exact Or.inl ⟨he, hne⟩
    · exact Or.inr he

/-- Erasing the entry of a child. -/
theorem mem_children_eraseChild {x : Node} (hx : (x.children.map Prod.fst).Nodup) {n : Name}
    {c : FileId} (hc : (n, c) ∈ x.entries)
    (huniq : ∀ {n n'}, (n, c) ∈ x.children → (n', c) ∈ x.children → n = n')
    {e : Name × FileId} :
    e ∈ (x.setEntries (x.entries.eraseP fun e => e.2 == c)).children ↔
      e ∈ x.children ∧ e.2 ≠ c := by
  have hdir : x.isDirectory := isDirectory_of_mem_children (List.mem_append_left _ hc)
  have hx' := hx
  rw [children, List.map_append, List.nodup_append] at hx'
  have hentry : ∀ {m m'}, (m, c) ∈ x.entries → (m', c) ∈ x.entries → m = m' := fun h h' =>
    huniq (List.mem_append_left _ h) (List.mem_append_left _ h')
  have hmount : ∀ e ∈ x.mounts, e.2 ≠ c := by
    rintro ⟨m, c'⟩ he rfl
    have hm := huniq (List.mem_append_left _ hc) (List.mem_append_right _ he)
    exact hx'.2.2 n (List.mem_map.mpr ⟨_, hc, rfl⟩) m (List.mem_map.mpr ⟨_, he, rfl⟩) hm
  rw [children_setEntries hdir, children, List.mem_append, List.mem_append,
    Assoc.mem_eraseP_value_iff hx'.1 hentry]
  constructor
  · rintro (⟨he, hne⟩ | he)
    · exact ⟨Or.inl he, hne⟩
    · exact ⟨Or.inr he, hmount e he⟩
  · rintro ⟨he | he, hne⟩
    · exact Or.inl ⟨he, hne⟩
    · exact Or.inr he

/-- Erasing entries keeps names distinct. -/
theorem nodup_children_eraseP {x : Node} (hx : (x.children.map Prod.fst).Nodup)
    (p : Name × FileId → Bool) :
    ((x.setEntries (x.entries.eraseP p)).children.map Prod.fst).Nodup := by
  by_cases hdir : x.isDirectory
  · rw [children_setEntries hdir]
    exact hx.sublist ((List.eraseP_sublist.append (List.Sublist.refl _)).map _)
  · rwa [setEntries_of_not_isDirectory (by simpa using hdir)]

/-- Adding an entry under a free name keeps names distinct. -/
theorem nodup_children_append {x : Node} (hx : (x.children.map Prod.fst).Nodup) {n : Name}
    (hn : ∀ c, (n, c) ∉ x.children) (c : FileId) :
    ((x.setEntries (x.entries ++ [(n, c)])).children.map Prod.fst).Nodup := by
  by_cases hdir : x.isDirectory
  · have hperm : ((n, c) :: x.children).Perm (x.entries ++ [(n, c)] ++ x.mounts) := by
      rw [List.append_assoc]
      exact List.perm_middle.symm
    rw [children_setEntries hdir, ← (hperm.map Prod.fst).nodup_iff, List.map_cons,
      List.nodup_cons]
    refine ⟨fun hm => ?_, hx⟩
    obtain ⟨⟨m, c'⟩, he, rfl⟩ := List.mem_map.mp hm
    exact hn c' he
  · rwa [setEntries_of_not_isDirectory (by simpa using hdir)]

end Node

/-! ## Trees -/

structure Tree where
  node : FileId → Node
  /-- The next file object. -/
  next : FileId
  root : FileId
  cwd : FileId

namespace Tree

/-- The triples (directory, name, child) and the parent pointers. -/
def forest (t : Tree) : Forest FileId Name where
  root := t.root
  parent := fun f => (t.node f).parent
  edge := fun d n c => (n, c) ∈ (t.node d).children

/-- The child of that name.  An unlinked directory has none, not even `.`. -/
def lookup (t : Tree) (d : FileId) (name : Name) : Option FileId :=
  match (t.node d).parent with
  | none => none
  | some parent =>
      if name = dot then some d
      else if name = dotdot then some parent
      else (t.node d).children.lookup name

/-- The invariant of the tree. -/
structure WF (t : Tree) : Prop where
  forest : t.forest.WF
  /-- No directory has two children of the same name. -/
  names_nodup : ∀ d, ((t.node d).children.map Prod.fst).Nodup
  /-- The cache holds mounts only. -/
  kind_mount : ∀ {d e}, e ∈ (t.node d).dcache → e.2.kind = .mount
  /-- What is mounted is a special file. -/
  mount_device : ∀ {d e}, e ∈ (t.node d).dcache → (t.node e.2.file).device?.isSome
  /-- A directory with mounts is not writable. -/
  guarded : ∀ {d}, (t.node d).writable → (t.node d).dcache = []
  /-- Objects that do not exist yet have no parent. -/
  fresh : ∀ {f}, t.next ≤ f → (t.node f).parent = none
  root_directory : (t.node t.root).isDirectory
  cwd_root : t.cwd = t.root

/-! ## Operations -/

def alloc (t : Tree) (x : Node) : Tree :=
  { t with node := Function.update t.node t.next x, next := t.next + 1 }

def modify (t : Tree) (f : FileId) (g : Node → Node) : Tree :=
  { t with node := Function.update t.node f (g (t.node f)) }

def setParent (t : Tree) (f : FileId) (parent : Option FileId) : Tree :=
  t.modify f fun x => { x with parent := parent }

def addEntry (t : Tree) (d : FileId) (name : Name) (c : FileId) : Tree :=
  t.modify d fun x => x.setEntries (x.entries ++ [(name, c)])

/-- Erase the entry of that name. -/
def dropName (t : Tree) (d : FileId) (name : Name) : Tree :=
  t.modify d fun x => x.setEntries (x.entries.eraseP fun e => e.1 == name)

/-- Erase the entry of that child. -/
def dropChild (t : Tree) (d c : FileId) : Tree :=
  t.modify d fun x => x.setEntries (x.entries.eraseP fun e => e.2 == c)

/-- Make `c` the child of `d` of that name. -/
def link (t : Tree) (d : FileId) (name : Name) (c : FileId) : Tree :=
  (t.addEntry d name c).setParent c (some d)

/-- Add a new file to `d`. -/
def create (t : Tree) (d : FileId) (name : Name) (x : Node) : Tree :=
  (t.alloc x).link d name t.next

/-- Take the child `c` of that name out of `d`. -/
def unlink (t : Tree) (d : FileId) (name : Name) (c : FileId) : Tree :=
  (t.setParent c none).dropName d name

/-- Move `c` from `p` to `d`, where it gets that name. -/
def moveChild (t : Tree) (p c d : FileId) (name : Name) : Tree :=
  (t.dropChild p c).link d name c

/-- Move `c` from `p` to `d`, where it takes the place of `c'`. -/
def replaceChild (t : Tree) (p c d : FileId) (name : Name) (c' : FileId) : Tree :=
  ((t.dropChild p c).unlink d name c').link d name c

end Tree

end WasmFS
