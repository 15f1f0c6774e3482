import WasmFS.Namespace.Attributes
import WasmFS.Namespace.TreeInvariant

/-!
# The special files in `/dev`

The special files are mounts, which the cache of a directory holds.  No call changes
the cache of a directory that exists, so the directory that was `/dev` at the start
keeps its mounts wherever it is moved.  As its children have distinct names and a file
is a child of one directory only, nothing can take the place of a special file
(`devicesKept`).
-/

namespace WasmFS

/-- The six names in `/dev` with the special files that have them at the start. -/
def deviceFiles : List (Name × FileId) :=
  [(nullName, Init.null), (stdinName, Init.stdin), (stdoutName, Init.stdout),
    (stderrName, Init.stderr), (randomName, Init.random), (urandomName, Init.urandom)]

/-- The directory made as `/dev` still has all its special files. -/
structure DevicesKept (s : State) : Prop where
  getChild : ∀ e ∈ deviceFiles, Directory.getChild s Init.dev e.1 = (s, some e.2)
  special : ∀ e ∈ deviceFiles, ∃ dev, (s.files e.2).body = .device dev
  /-- No entry has the name of a special file. -/
  not_entry : ∀ e ∈ deviceFiles, ∀ f, (e.1, f) ∉ (s.files Init.dev).entries
  /-- A special file is a child of no other directory. -/
  child_once : ∀ e ∈ deviceFiles, ∀ d n, (n, e.2) ∈ s.children d → d = Init.dev ∧ n = e.1

/-- At the start `/dev` is this directory. -/
example (host : Host) :
    (init host).tree.lookup (init host).rootDirectory devName = some Init.dev := by
  rw [← State.tree_root, tree_init]
  decide +kernel

namespace Start

theorem deviceFiles_mounted : ∀ e ∈ deviceFiles, e ∈ (tree.node Init.dev).mounts := by
  decide +kernel

theorem deviceFiles_special :
    ∀ e ∈ deviceFiles, e.2 < tree.next ∧ (tree.node e.2).device?.isSome := by
  decide +kernel

end Start

theorem deviceFiles_proper : ∀ e ∈ deviceFiles, e.1 ≠ dot ∧ e.1 ≠ dotdot := by
  decide

/-- Only a special file has a device. -/
theorem File.body_of_device? {x : File} {dev : Device} (h : x.node.device? = some dev) :
    x.body = .device dev := by
  simp only [Node.device?, node] at h
  cases hx : x.body with
  | device dev' =>
      rw [hx] at h
      cases h
      rfl
  | memory | directory | symlink =>
      rw [hx] at h
      cases h

/-- What a call keeps of the files that exist, a run keeps of those that exist at the
start. -/
theorem Reachable.persists {host : Host} {s : State} (h : Reachable host s) {f : FileId}
    (hf : f < Start.tree.next) : Persists Start.tree s.tree f := by
  have hwf : (init host).tree.WF := by
    rw [tree_init]
    exact Start.tree_wf
  rw [← tree_init host] at hf ⊢
  rw [State.tree_next] at hf
  exact ReachableFrom.persists h hwf hf

theorem devicesKept {host : Host} {s : State} (h : Reachable host s) : DevicesKept s := by
  have hwf := h.wf
  have hmounts : (s.tree.node Init.dev).mounts = (Start.tree.node Init.dev).mounts := by
    have hdev : Persists Start.tree s.tree Init.dev := h.persists (by decide +kernel)
    rw [Node.mounts, hdev.dcache, Node.mounts]
  have hmounted : ∀ e ∈ deviceFiles, e ∈ (s.tree.node Init.dev).mounts := by
    intro e he
    rw [hmounts]
    exact Start.deviceFiles_mounted e he
  have hedge : ∀ e ∈ deviceFiles, s.tree.forest.edge Init.dev e.1 e.2 :=
    fun e he => List.mem_append_right _ (hmounted e he)
  constructor
  · intro e he
    obtain ⟨hdot, hdotdot⟩ := deviceFiles_proper e he
    rw [Directory.getChild_eq hwf, (hwf.lookup_eq_some_iff hdot hdotdot).mpr (hedge e he)]
  · intro e he
    obtain ⟨hlt, hspecial⟩ := Start.deviceFiles_special e he
    rw [← (h.persists hlt).device?, State.tree_node] at hspecial
    obtain ⟨dev, hdev⟩ := Option.isSome_iff_exists.mp hspecial
    exact ⟨dev, File.body_of_device? hdev⟩
  · intro e he f hentry
    -- an entry and a mount of one name would be two children of that name
    have hnames := hwf.names_nodup Init.dev
    rw [Node.children, List.map_append] at hnames
    rw [← File.node_entries, ← State.tree_node] at hentry
    exact (List.nodup_append.mp hnames).2.2 e.1 (List.mem_map.mpr ⟨_, hentry, rfl⟩) e.1
      (List.mem_map_of_mem (hmounted e he)) rfl
  · intro e he d n hchild
    exact hwf.forest.edge_unique (State.mem_children_iff.mp hchild) (hedge e he)

/-- The special files are still there after `/dev` was moved below `/tmp`. -/
theorem devicesKept_sampleRun : ∃ s replies, afterRun sampleRun = .ok (s, replies) ∧
    s.tree.lookup Init.root devName = none ∧ DevicesKept s := by
  obtain ⟨s, replies, hok, hmoved⟩ : Returns (afterRun sampleRun) fun s _ =>
      s.tree.lookup Init.root devName = none := by
    decide +kernel
  exact ⟨s, replies, hok, hmoved, devicesKept (.of_afterRun hok)⟩

end WasmFS
