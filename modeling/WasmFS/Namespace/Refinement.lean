import WasmFS.Namespace.Renaming
import WasmFS.Source.Handles

/-!
# Files that behave like memory files

The calls on the namespace only use handles (`Handles`).  `Refinement H` says that
the handles `H` do to a tree of files what those of memory directories do.  Every
file of `H` stands for a file of the tree, and names are changed by `key`.  Then every
call on `H` is a call on memory directories (`Refinement.exec`), and so is every run
(`Refinement.run`).

An implementation may fail in two places: when the name `.` is removed from an empty
directory, which memory directories answer with 0, and when it moves a file that it
cannot move.  The calls that get there `Slip`.
-/

namespace WasmFS

/-! ## Memory directories -/

theorem Change.Moves.displaced_syscall {s : State} {p c d : FileId} {name : Name}
    {displaced : Option FileId} (hm : Change.Moves s.tree p c d name displaced) :
    Syscall.displaced s d name = displaced := by
  unfold Syscall.displaced
  cases displaced with
  | none =>
      rcases hm.free rfl with hfree | ⟨rfl, -⟩
      · rw [hfree, ite_self]
      · rw [if_pos rfl]
  | some c' =>
      obtain ⟨hdot, hlookup, -⟩ := hm.displaces c' rfl
      rw [if_neg hdot, hlookup]

/-- A move that is allowed is carried out. -/
theorem Change.Moves.insertMove {s : State} {p c d : FileId} {name : Name}
    {displaced : Option FileId} (hm : Change.Moves s.tree p c d name displaced) (h : s.tree.WF)
    (host : Host) :
    Directory.insertMove host s d name c = .ok (Directory.moved host s d name c p, 0) ∧
      (Directory.moved host s d name c p).tree =
        (Change.move p c d name displaced).apply s.tree := by
  obtain rfl := hm.displaced_syscall
  refine ⟨Directory.insertMove_eq hm.linked hm.parent ?_ name, Syscall.tree_moved h host hm⟩
  -- the file is no special file, or its directory has no mounts
  rintro e he rfl
  rw [← File.node_dcache, ← State.tree_node] at he
  rcases hm.not_mounted with hpw | hfd
  · rw [h.guarded hpw] at he
    cases he
  · have hdev := h.mount_device he
    rw [Node.device?_of_isDirectory hfd] at hdev
    cases hdev

/-- What has no children is no parent. -/
theorem Tree.WF.ne_dotdot_of_childless {t : Tree} (h : t.WF) {d c : FileId} {name : Name}
    (hl : t.lookup d name = some c) (hroot : c ≠ t.root) (hleaf : ∀ n x, ¬ t.forest.edge c n x) :
    name ≠ dotdot := by
  rintro rfl
  cases hp : (t.node d).parent with
  | none => exact Tree.linked_of_lookup hl hp
  | some q =>
      rw [Tree.lookup_dotdot hp] at hl
      cases hl
      have hd : d ≠ t.root := by
        rintro rfl
        exact hroot (Option.some.inj (hp.symm.trans h.forest.root_parent))
      obtain ⟨n, he⟩ := h.forest.parent_edge hp hd
      exact hleaf n d he

/-- A removal that is allowed is carried out. -/
theorem Change.Unlinks.removeChild {s : State} {d c : FileId} {name : Name}
    (hu : Change.Unlinks s.tree d name c) (h : s.tree.WF) (host : Host) :
    ∃ s', Directory.removeChild host s d name = (s', 0) ∧ s'.tree = s.tree.unlink d name c := by
  have hcache : (s.files d).dcache = [] := by
    rw [← File.node_dcache, ← State.tree_node]
    exact h.guarded hu.writable
  exact ⟨_, Directory.removeChild_of_dcache_nil hcache name, Syscall.tree_removed h host hu⟩

/-- Removing `.` from an empty directory changes its time only. -/
theorem Directory.removeChild_dot {s : State} (h : s.tree.WF) (host : Host) {d : FileId}
    (hw : (s.tree.node d).writable) (hleaf : ∀ n x, ¬ s.tree.forest.edge d n x) :
    ∃ s', Directory.removeChild host s d dot = (s', 0) ∧ s'.tree = s.tree := by
  have hcache : (s.files d).dcache = [] := by
    rw [← File.node_dcache, ← State.tree_node]
    exact h.guarded hw
  refine ⟨_, Directory.removeChild_of_dcache_nil hcache dot, ?_⟩
  rw [State.tree_updateMTime, MemoryDirectory.removeChild_of_none]
  rw [Assoc.lookup_eq_none_iff_not_mem]
  intro c hc
  refine hleaf dot c (List.mem_append_left _ ?_)
  rwa [State.tree_node, File.node_entries]

/-! ## Calls -/

namespace Handles

variable {α β : Type}

/-- The call with files and names replaced. -/
def Call.map (file : α → β) (key : Name → Name) : Call α → Call β
  | .openat parent childName flags mode => .openat (file parent) (key childName) flags mode
  | .mkdirat parent childName mode => .mkdirat (file parent) (key childName) mode
  | .symlinkat parent childName target => .symlinkat (file parent) (key childName) target
  | .unlinkat parent childName removeDir => .unlinkat (file parent) (key childName) removeDir
  | .renameat oldParent oldFileName newParent newFileName =>
      .renameat (file oldParent) (key oldFileName) (file newParent) (key newFileName)

/-- The directory and the name that a path was parsed to. -/
def Call.parsed : Call α → List (α × Name)
  | .openat parent childName _ _ => [(parent, childName)]
  | .mkdirat parent childName _ => [(parent, childName)]
  | .symlinkat parent childName _ => [(parent, childName)]
  | .unlinkat parent childName _ => [(parent, childName)]
  | .renameat oldParent oldFileName newParent newFileName =>
      [(oldParent, oldFileName), (newParent, newFileName)]

theorem Call.map_congr {f g : α → β} {key : Name → Name} {call : Call α}
    (h : ∀ e ∈ call.parsed, f e.1 = g e.1) : call.map f key = call.map g key := by
  cases call <;> simp_all [map, parsed]

/-- A run of calls, with their answers.  A call is made in a state that `ok` allows. -/
inductive Run {σ : Type} [DecidableEq α] (H : Handles σ α) (ok : σ → Call α → Prop) :
    σ → List (Call α) → List (Answer α) → σ → Prop where
  | nil (v : σ) : Run H ok v [] [] v
  | cons {v : σ} {call : Call α} {v₁ : σ} {answer : Answer α} {calls : List (Call α)}
      {answers : List (Answer α)} {v' : σ} : ok v call → H.exec v call = .ok (v₁, answer) →
      Run H ok v₁ calls answers v' → Run H ok v (call :: calls) (answer :: answers) v'

end Handles

/-! ## Refinements -/

/-- How to read the states of an implementation. -/
structure Abstraction (σ α : Type) where
  /-- The states that operations lead to. -/
  Inv : σ → Prop
  /-- The files there are. -/
  Known : σ → α → Prop
  tree : σ → Tree
  node : σ → α → FileId
  key : Name → Name

namespace Abstraction

variable {σ α : Type} (R : Abstraction σ α)

/-- Files stay the files they are. -/
structure Follows (v v' : σ) : Prop where
  inv : R.Inv v'
  known : ∀ {f}, R.Known v f → R.Known v' f
  node : ∀ {f}, R.Known v f → R.node v' f = R.node v f

theorem Follows.refl {v : σ} (h : R.Inv v) : R.Follows v v := ⟨h, id, fun _ => rfl⟩

variable {R} in
theorem Follows.trans {v v' v'' : σ} (h : R.Follows v v') (h' : R.Follows v' v'') :
    R.Follows v v'' :=
  ⟨h'.inv, fun hf => h'.known (h.known hf), fun hf => (h'.node (h.known hf)).trans (h.node hf)⟩

/-- The attributes of the real file. -/
def attributes (v : σ) (f : α) : Node := (R.tree v).node (R.node v f)

/-- The file is known and is a directory. -/
structure KnownDirectory (v : σ) (d : α) : Prop where
  known : R.Known v d
  isDirectory : (R.attributes v d).isDirectory

/-- What a path is parsed to. -/
def Valid (v : σ) (call : Handles.Call α) : Prop :=
  ∀ e ∈ call.parsed, R.KnownDirectory v e.1 ∧ Segment e.2

end Abstraction

/-- What a lookup leaves and finds.  What was found before is found again. -/
structure Finds {σ α : Type} (H : Handles σ α) (R : Abstraction σ α) (v v' : σ) (d : α)
    (name : Name) (found : Option α) : Prop where
  follows : R.Follows v v'
  tree : R.tree v' = R.tree v
  node : found.map (R.node v') = (R.tree v).lookup (R.node v d) (R.key name)
  known : ∀ {c}, found = some c → R.Known v' c
  again : H.getChild v' d name = (v', found)
  others : ∀ {d' name' c}, H.getChild v d' name' = (v, some c) →
    H.getChild v' d' name' = (v', some c)

section

variable {σ α : Type} {H : Handles σ α} {R : Abstraction σ α} {v v' : σ} {d : α} {name : Name}
  {found : Option α}

theorem Finds.attributes (h : Finds H R v v' d name found) {f : α} (hf : R.Known v f) :
    R.attributes v' f = R.attributes v f := by
  unfold Abstraction.attributes
  rw [h.tree, h.follows.node hf]

theorem Finds.knownDirectory (h : Finds H R v v' d name found) {d' : α}
    (hd : R.KnownDirectory v d') : R.KnownDirectory v' d' := by
  refine ⟨h.follows.known hd.known, ?_⟩
  rw [h.attributes hd.known]
  exact hd.isDirectory

end

/-- An insertion makes a file of that body and mode. -/
def Inserts {σ α : Type} (R : Abstraction σ α) (insert : σ → α → Name → σ × Option α)
    (body : Body) (mode : Nat) : Prop :=
  ∀ {v d name}, R.Inv v → R.KnownDirectory v d →
    (R.tree v).lookup (R.node v d) (R.key name) = none →
    if (R.tree v).forest.Linked (R.node v d) then
      ∃ v' c, insert v d name = (v', some c) ∧ R.Follows v v' ∧ R.Known v' c ∧
        R.node v' c = (R.tree v).next ∧
        R.tree v' = (R.tree v).create (R.node v d) (R.key name)
          (newNode body mode (R.attributes v d).backend)
    else insert v d name = (v, none)

/-- An insertion next to one into a memory directory. -/
theorem Inserts.agrees {σ α : Type} {R : Abstraction σ α} {insert : σ → α → Name → σ × Option α}
    {body : Body} {mode : Nat} {v : σ} {d : α} {name : Name} {s : State}
    (h : Inserts R insert body mode) (host : Host) (hv : R.Inv v)
    (hs : s.tree = R.tree v) (hd : R.KnownDirectory v d)
    (hfree : (R.tree v).lookup (R.node v d) (R.key name) = none) :
    (∃ v' s' c, insert v d name = (v', some c) ∧
      Directory.insert host s (R.node v d) (R.key name) body mode =
        (s', some (R.node v' c)) ∧
      R.Follows v v' ∧ R.tree v' = s'.tree ∧ R.Known v' c) ∨
    (insert v d name = (v, none) ∧
      Directory.insert host s (R.node v d) (R.key name) body mode = (s, none)) := by
  have hins := h hv hd hfree
  split at hins
  · rename_i hl
    obtain ⟨v', c, hcall, hfollows, hknown, hnode, ht⟩ := hins
    rw [← hs] at hl hnode ht
    refine Or.inl ⟨v', Directory.inserted host s (R.node v d) (R.key name) body mode, c, hcall,
      ?_, hfollows, ?_, hknown⟩
    · rw [Directory.insert_of_linked hl, hnode]
      rfl
    · rw [ht, Directory.tree_inserted]
      unfold Abstraction.attributes
      rw [← hs]
      rfl
  · rename_i hl
    rw [← hs] at hl
    exact Or.inr ⟨hins, Directory.insert_of_unlinked hl _ _ _⟩

/-- The handles `H` act on the tree like those of memory directories. -/
structure Refinement {σ α : Type} (H : Handles σ α) extends Abstraction σ α where
  /-- The name `.` can be removed from an empty directory. -/
  RemovesDot : Prop
  /-- The files that can be moved. -/
  CanMove : Node → Prop
  /-- What the implementation does where it fails. -/
  fault : Fault
  wf : ∀ {v}, Inv v → (tree v).WF
  key_length : ∀ name, (key name).length = name.length
  key_eq_dot : ∀ {name}, key name = dot ↔ name = dot
  key_eq_dotdot : ∀ {name}, key name = dotdot ↔ name = dotdot
  key_segment : ∀ {name}, Segment name → Segment (key name)
  root : ∀ {v}, Inv v → toAbstraction.KnownDirectory v (H.rootDirectory v) ∧
    node v (H.rootDirectory v) = (tree v).root
  /-- A file in the tree has one representative. -/
  injective : ∀ {v f g}, Inv v → Known v f → Known v g → (tree v).forest.Linked (node v f) →
    node v f = node v g → f = g
  isDirectory : ∀ {v f}, Inv v → Known v f →
    H.isDirectory v f = (toAbstraction.attributes v f).isDirectory
  writable : ∀ {v d}, Inv v → toAbstraction.KnownDirectory v d →
    H.writable v d = (toAbstraction.attributes v d).writable
  getBackend : ∀ {v d d'}, Inv v → toAbstraction.KnownDirectory v d →
    toAbstraction.KnownDirectory v d' → (H.getBackend v d = H.getBackend v d' ↔
      (toAbstraction.attributes v d).backend = (toAbstraction.attributes v d').backend)
  getParent : ∀ {v f}, Inv v → Known v f →
    (H.getParent v f).map (node v) = (toAbstraction.attributes v f).parent
  parent_known : ∀ {v f p}, Inv v → Known v f → H.getParent v f = some p → Known v p
  getNumEntries : ∀ {v d}, Inv v → toAbstraction.KnownDirectory v d →
    H.getNumEntries v d = (toAbstraction.attributes v d).children.length
  bound : ∀ v, H.bound v = (tree v).next + 1
  getChild : ∀ {v d}, Inv v → Known v d → ∀ name, ∃ v' found,
    H.getChild v d name = (v', found) ∧ Finds H toAbstraction v v' d name found
  insertDataFile : ∀ mode, Inserts toAbstraction (fun v d name => H.insertDataFile v d name mode)
    (.memory Vec.empty) (mode ||| S_IFREG)
  insertDirectory : ∀ mode, Inserts toAbstraction (fun v d name => H.insertDirectory v d name mode)
    (.directory [] []) (mode ||| S_IFDIR)
  insertSymlink : ∀ target, Inserts toAbstraction
    (fun v d name => H.insertSymlink v d name target) (.symlink target) S_IFLNK
  removeChild : ∀ {v d name c}, Inv v → Known v d → H.getChild v d name = (v, some c) →
    Change.Unlinks (tree v) (node v d) (key name) (node v c) →
    ∃ v', H.removeChild v d name = .ok (v', 0) ∧ toAbstraction.Follows v v' ∧
      tree v' = (tree v).unlink (node v d) (key name) (node v c)
  removeDot : ∀ {v d}, Inv v → toAbstraction.KnownDirectory v d →
    (tree v).forest.Linked (node v d) → (toAbstraction.attributes v d).writable →
    (∀ n x, ¬ (tree v).forest.edge (node v d) n x) →
    (RemovesDot ∧ ∃ v', H.removeChild v d dot = .ok (v', 0) ∧ toAbstraction.Follows v v' ∧
      tree v' = tree v) ∨
    (¬ RemovesDot ∧ H.removeChild v d dot = .error fault)
  insertMove : ∀ {v d d' name name' c found p displaced}, Inv v →
    toAbstraction.KnownDirectory v d → H.getChild v d' name' = (v, some c) → Known v c →
    H.getChild v d name = (v, found) →
    Change.Moves (tree v) p (node v c) (node v d) (key name) displaced →
    (CanMove (toAbstraction.attributes v c) ∧ ∃ v', H.insertMove v d name c = .ok (v', 0) ∧
      toAbstraction.Follows v v' ∧
      tree v' = (Change.move p (node v c) (node v d) (key name) displaced).apply (tree v)) ∨
    (¬ CanMove (toAbstraction.attributes v c) ∧ H.insertMove v d name c = .error fault)

end WasmFS
