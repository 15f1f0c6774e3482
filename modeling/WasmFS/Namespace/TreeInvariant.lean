import WasmFS.Namespace.Start

/-!
# The directory tree of reachable states

Entries, mounts and parent pointers are stored in different places and updated
one after the other.  `TreeInvariant` says in terms of the state what they amount
to together, and every run keeps it (`reachable_treeInvariant`).
-/

namespace WasmFS

/-- The entries and the mounts of a directory, as `getEntries` lists them. -/
def State.children (s : State) (d : FileId) : List (Name × FileId) :=
  (s.files d).entries ++
    ((s.files d).dcache.filter fun e => e.2.kind == .mount).map fun e => (e.1, e.2.file)

/-- The file `k` steps up from `f`. -/
def State.climb (s : State) : Nat → FileId → Option FileId
  | 0, f => some f
  | k + 1, f => (s.getParent f).bind (s.climb k)

theorem State.children_eq (s : State) (d : FileId) : s.children d = (s.tree.node d).children := by
  unfold children Node.children Node.mounts
  rw [tree_node, File.node_entries, File.node_dcache]

theorem State.mem_children_iff {s : State} {d : FileId} {n : Name} {c : FileId} :
    (n, c) ∈ s.children d ↔ s.tree.forest.edge d n c := by
  rw [children_eq]
  rfl

theorem State.children_eq_nil_iff {s : State} {d : FileId} :
    s.children d = [] ↔ ∀ n x, ¬ s.tree.forest.edge d n x := by
  rw [children_eq, Tree.children_eq_nil_iff]

theorem State.climb_eq (s : State) (k : Nat) (f : FileId) : s.climb k f = s.tree.forest.up k f := by
  induction k generalizing f with
  | zero => rfl
  | succ k ih =>
      unfold climb Forest.up
      rw [funext ih]
      rfl

/-- The invariant of the tree of directories. -/
structure TreeInvariant (s : State) : Prop where
  /-- A file is a child of one directory at most, under one name. -/
  child_once : ∀ {f d n d' n'}, (n, f) ∈ s.children d → (n', f) ∈ s.children d' →
    d = d' ∧ n = n'
  /-- A file other than the root is a child of exactly the directory its parent
  pointer names. -/
  child_iff_parent : ∀ {f d}, f ≠ s.rootDirectory →
    ((∃ n, (n, f) ∈ s.children d) ↔ s.getParent f = some d)
  /-- A directory does not hold two children of one name. -/
  names_nodup : ∀ d, ((s.children d).map Prod.fst).Nodup
  /-- The root is its own parent. -/
  root_parent : s.getParent s.rootDirectory = some s.rootDirectory
  /-- The way up from a linked file ends at the root. -/
  climbs_to_root : ∀ {f}, s.getParent f ≠ none → ∃ k, s.climb k f = some s.rootDirectory
  /-- An unlinked directory is empty. -/
  unlinked_empty : ∀ {d}, s.getParent d = none → s.children d = []

theorem TreeInvariant.of_wf {s : State} (h : s.tree.WF) : TreeInvariant s where
  child_once hc hc' := h.forest.edge_unique (State.mem_children_iff.mp hc)
    (State.mem_children_iff.mp hc')
  child_iff_parent {f d} hf := by
    constructor
    · rintro ⟨n, hc⟩
      exact h.forest.edge_parent (State.mem_children_iff.mp hc)
    · intro hp
      obtain ⟨n, he⟩ := h.forest.parent_edge hp hf
      exact ⟨n, State.mem_children_iff.mpr he⟩
  names_nodup d := by
    rw [State.children_eq]
    exact h.names_nodup d
  root_parent := h.forest.root_parent
  climbs_to_root {f} hf := by
    obtain ⟨k, hk⟩ := (h.forest.rooted (x := f) hf).exists_up
    exact ⟨k, (s.climb_eq k f).trans hk⟩
  unlinked_empty {d} hd := by
    rw [State.children_eq_nil_iff]
    intro n x he
    exact h.forest.linked_of_edge he hd

/-- Every state that a run of exports reaches satisfies the invariant. -/
theorem reachable_treeInvariant {host : Host} {s : State} (h : Reachable host s) :
    TreeInvariant s :=
  .of_wf h.wf

/-- A run that makes a directory, a link and a file, and moves `/dev` below
`/tmp`. -/
def sampleRun : List Call :=
  [.path_open atFdCwd [47] 0, .path_create_directory 3 [97], .path_symlink [98] 3 [97],
    .path_open 3 [99] 64, .path_rename 3 devName 3 [116, 109, 112, 47, 120]]

theorem treeInvariant_sampleRun : ∃ s replies, afterRun sampleRun = .ok (s, replies) ∧
    TreeInvariant s := by
  have hok : (afterRun sampleRun).isOk = true := by decide +kernel
  cases hr : afterRun sampleRun with
  | error e =>
      rw [hr] at hok
      cases hok
  | ok result =>
      exact ⟨result.1, result.2, rfl, reachable_treeInvariant (.of_afterRun hr)⟩

end WasmFS
