import WasmFS.Descriptors.Descriptions
import WasmFS.Namespace.Attributes
import WasmFS.Namespace.Walking

/-!
# What a new file changes

A call that creates a file adds one entry to one directory.  Nothing else changes
(`Creates.edge_iff`), so what a path leads to it still leads to (`extends_inserted`), and
the new entry is found (`lookup_inserted`).
-/

namespace WasmFS

/-! ## Entries and lookups -/

namespace Change.Creates

variable {t : Tree} {d : FileId} {name : Name} {x : Node} (hc : Creates t d name x)

include hc

theorem edge_iff (h : t.WF) {d' c : FileId} {n : Name} :
    (t.create d name x).forest.edge d' n c ↔
      t.forest.edge d' n c ∨ (d' = d ∧ n = name ∧ c = t.next) := by
  rw [h.forest_create hc.isDirectory hc.linked name hc.newFile.blank]
  rfl

theorem parent_of_ne (h : t.WF) {f : FileId} (hf : f ≠ t.next) :
    ((t.create d name x).node f).parent = (t.node f).parent := by
  have hforest := congrArg Forest.parent
    (h.forest_create hc.isDirectory hc.linked name hc.newFile.blank)
  exact (congrFun hforest f).trans (t.forest.link_parent_of_ne d name hf)

/-- The new file is found. -/
theorem lookup_self (h : t.WF) : (t.create d name x).lookup d name = some t.next := by
  obtain ⟨hdot, hdotdot, -⟩ := h.free_of_lookup_eq_none hc.linked hc.free
  refine ((hc.wf h).lookup_eq_some_iff hdot hdotdot).mpr ?_
  exact (hc.edge_iff h).mpr (Or.inr ⟨rfl, rfl, rfl⟩)

/-- What was found is found. -/
theorem lookup_of_some (h : t.WF) {d' c : FileId} {n : Name} (hl : t.lookup d' n = some c) :
    (t.create d name x).lookup d' n = some c := by
  have hlinked := Tree.linked_of_lookup hl
  have hparent := hc.parent_of_ne h (h.ne_next_of_linked hlinked)
  cases h.finds hl with
  | self => exact Tree.lookup_dot fun hp => hlinked (hparent.symm.trans hp)
  | parent hp => exact Tree.lookup_dotdot (hparent.trans hp)
  | child hdot hdotdot he =>
      exact ((hc.wf h).lookup_eq_some_iff hdot hdotdot).mpr ((hc.edge_iff h).mpr (Or.inl he))

end Change.Creates

/-- No entry of a directory differs, but for that of one name in one directory. -/
def SameEntriesBut (s s' : State) (d : FileId) (name : Name) : Prop :=
  ∀ {d' n c}, ¬ (d' = d ∧ n = name) → (s'.tree.forest.edge d' n c ↔ s.tree.forest.edge d' n c)

/-! ## Paths -/

section

variable {host : Host} {s : State} {d : FileId} {name : Name} {body : Body} {mode : Nat}

/-- A file that exists is as before. -/
theorem persists_inserted {f : FileId} (hf : f ≠ s.next) :
    ((Directory.inserted host s d name body mode).files f).isDirectory = (s.files f).isDirectory ∧
      ((Directory.inserted host s d name body mode).files f).target? = (s.files f).target? := by
  have hpersists := (Change.create d name (newNode body mode (s.files d).backend)).persists
    (t := s.tree) (f := f) hf
  have htree := Directory.tree_inserted host s d name body mode
  constructor
  · rw [← File.node_isDirectory, ← File.node_isDirectory, ← State.tree_node, ← State.tree_node,
      htree]
    exact hpersists.isDirectory
  · rw [← File.node_target?, ← File.node_target?, ← State.tree_node, ← State.tree_node, htree]
    exact hpersists.target?

/-- The new file is as it was made. -/
theorem inserted_self (host : Host) (s : State) (d : FileId) (name : Name) (body : Body)
    (mode : Nat) : Persists (s.tree.alloc (newNode body mode (s.files d).backend))
      (Directory.inserted host s d name body mode).tree s.next := by
  rw [Directory.tree_inserted]
  exact Change.created

/-- A descriptor of a directory is as before. -/
theorem getBaseDir_inserted (hfiles : FilesExist s) (basefd : Nat) :
    Path.getBaseDir (Directory.inserted host s d name body mode) basefd =
      Path.getBaseDir s basefd := by
  unfold Path.getBaseDir
  split
  · rfl
  have hentry : FileTable.getEntry (Directory.inserted host s d name body mode) basefd =
      FileTable.getEntry s basefd := rfl
  rw [hentry]
  cases ho : FileTable.getEntry s basefd with
  | none => rfl
  | some o =>
      have hfile := Nat.ne_of_lt (hfiles o (FileTable.mem_table_iff.mpr ⟨basefd, ho⟩))
      have hdescription : (Directory.inserted host s d name body mode).descriptions o =
          s.descriptions o := rfl
      simp only
      rw [hdescription, (persists_inserted hfile).1]

variable (hc : Change.Creates s.tree d name (newNode body mode (s.files d).backend))

include hc

theorem wf_inserted (host : Host) (h : s.tree.WF) :
    (Directory.inserted host s d name body mode).tree.WF := by
  rw [Directory.tree_inserted]
  exact hc.wf h

theorem lookup_inserted (host : Host) (h : s.tree.WF) :
    (Directory.inserted host s d name body mode).tree.lookup d name = some s.next := by
  rw [Directory.tree_inserted]
  exact hc.lookup_self h

theorem sameEntriesBut_inserted (h : s.tree.WF) :
    SameEntriesBut s (Directory.inserted host s d name body mode) d name := by
  intro d' n c hne
  rw [Directory.tree_inserted, hc.edge_iff h]
  exact or_iff_left fun hnew => hne ⟨hnew.1, hnew.2.1⟩

/-- What is found along a path is found with the new file. -/
theorem extends_inserted (host : Host) (h : s.tree.WF) :
    Path.resolver.Extends s (Directory.inserted host s d name body mode) := by
  have hfound : ∀ {d' n c},
      Path.resolver.child s d' n = (s, some c) → s.tree.lookup d' n = some c := by
    intro d' n c hchild
    rw [Path.resolver_child, Directory.getChild_eq h] at hchild
    exact congrArg Prod.snd hchild
  have hne : ∀ {d' n c}, s.tree.lookup d' n = some c → c ≠ s.next := fun hl =>
    h.ne_next_of_linked (h.linked_of_found hl)
  refine ⟨fun d' n => Path.getChild_pure h d' n rfl, fun hchild => ?_, fun hchild => ?_,
    fun hchild => ?_, fun target d' => rfl⟩
  · rw [Path.resolver_child, Directory.getChild_eq (wf_inserted hc host h), Directory.tree_inserted,
      hc.lookup_of_some h (hfound hchild)]
  · exact (persists_inserted (hne (hfound hchild))).2
  · exact (persists_inserted (hne (hfound hchild))).1

end

end WasmFS
