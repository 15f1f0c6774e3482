import WasmFS.Data.Contents
import WasmFS.Namespace.TreeInvariant

/-!
# What a rename moves

A rename that succeeds moves one edge of the forest.  The old edge of the file goes,
its new edge comes, and a file that had the new name loses its parent.  Nothing else
changes but times (`Renamed`).  If both paths name the same file, nothing changes at
all (`path_rename_moves`).

The new name may be `.`.  The checks then look at the new parent itself, which is
empty, and no file is displaced.
-/

namespace WasmFS

/-! ## The edges after a move -/

namespace Change

variable {t : Tree} {p c d : FileId} {name : Name} {displaced : Option FileId}

/-- What has the new name is displaced. -/
theorem Moves.displaced_eq (hm : Moves t p c d name displaced) (h : t.WF) {x : FileId}
    (he : t.forest.edge d name x) : displaced = some x := by
  cases displaced with
  | none => exact absurd he (hm.not_edge h x)
  | some c' => rw [h.forest.child_unique (hm.displaced_edge h) he]

theorem Moves.forest_apply (hm : Moves t p c d name displaced) (h : t.WF) :
    ((Change.move p c d name displaced).apply t).forest =
      (Change.move p c d name displaced).applyForest t.next t.forest :=
  Change.forest_apply h hm

theorem Moves.edge_apply (hm : Moves t p c d name displaced) (h : t.WF) {x y : FileId} {m : Name} :
    ((Change.move p c d name displaced).apply t).forest.edge x m y ↔
      (t.forest.edge x m y ∧ y ≠ c ∧ ¬ (x = d ∧ m = name)) ∨ (x = d ∧ m = name ∧ y = c) := by
  rw [hm.forest_apply h]
  cases displaced with
  | none =>
      refine or_congr_left (and_congr_right fun he => (and_iff_left ?_).symm)
      rintro ⟨rfl, rfl⟩
      exact hm.not_edge h y he
  | some c' =>
      have hedge := hm.displaced_edge h
      refine or_congr_left ?_
      simp only [Forest.unlink, and_assoc]
      refine and_congr_right fun he => ?_
      rw [and_comm]
      refine and_congr_right fun _ => not_congr ⟨?_, ?_⟩
      · rintro rfl
        exact h.forest.edge_unique he hedge
      · rintro ⟨rfl, rfl⟩
        exact h.forest.child_unique he hedge

theorem Moves.parent_self (hm : Moves t p c d name displaced) (h : t.WF) :
    ((Change.move p c d name displaced).apply t).forest.parent c = some d := by
  rw [hm.forest_apply h]
  cases displaced with
  | none => exact t.forest.move_parent_self c d name
  | some c' => exact (t.forest.unlink c').move_parent_self c d name

/-- A file that is displaced has no parent any more. -/
theorem Moves.parent_displaced (hm : Moves t p c d name displaced) (h : t.WF) {x : FileId}
    (he : t.forest.edge d name x) :
    ((Change.move p c d name displaced).apply t).forest.parent x = Option.none := by
  rw [hm.forest_apply h]
  cases hm.displaced_eq h he
  obtain ⟨-, -, hne, -⟩ := hm.displaces x rfl
  exact ((t.forest.unlink x).move_parent_of_ne d name hne).trans (t.forest.unlink_parent_self x)

/-- All other files keep their parents. -/
theorem Moves.parent_of_ne (hm : Moves t p c d name displaced) (h : t.WF) {x : FileId}
    (hx : x ≠ c) (he : ¬ t.forest.edge d name x) :
    ((Change.move p c d name displaced).apply t).forest.parent x = t.forest.parent x := by
  rw [hm.forest_apply h]
  cases displaced with
  | none => exact t.forest.move_parent_of_ne d name hx
  | some c' =>
      have hne : x ≠ c' := by
        rintro rfl
        exact he (hm.displaced_edge h)
      exact ((t.forest.unlink c').move_parent_of_ne d name hx).trans
        (t.forest.unlink_parent_of_ne hne)

theorem move_sameAttributes (p c d : FileId) (name : Name) (displaced : Option FileId) (t : Tree) :
    Tree.SameAttributes t ((Change.move p c d name displaced).apply t) := by
  cases displaced with
  | none => exact .moveChild t p c d name
  | some c' => exact .replaceChild t p c d name c'

end Change

/-! ## Renames -/

/-- The file has been moved to `newParent`, where it has the name `newLeaf`, and nothing else
has happened to the namespace. -/
structure Renamed (s s' : State) (newParent : FileId) (newLeaf : Name) (file : FileId) : Prop where
  /-- The triple that is taken away.  There is no other one of the file. -/
  source : ∃ p m, ∀ d n, (n, file) ∈ s.children d ↔ d = p ∧ n = m
  children : ∀ d n x, (n, x) ∈ s'.children d ↔
    ((n, x) ∈ s.children d ∧ x ≠ file ∧ ¬ (d = newParent ∧ n = newLeaf)) ∨
      (d = newParent ∧ n = newLeaf ∧ x = file)
  parent : s'.getParent file = some newParent
  /-- A file that had the new name has no parent.  It was empty, and a directory if and
  only if the moved file is one. -/
  displaced : ∀ x, (newLeaf, x) ∈ s.children newParent → s'.getParent x = none ∧
    s.children x = [] ∧ (s.files x).isDirectory = (s.files file).isDirectory
  parents : ∀ x, x ≠ file → (newLeaf, x) ∉ s.children newParent → s'.getParent x = s.getParent x
  ne_root : file ≠ s.rootDirectory
  /-- The file is neither the new parent nor above it. -/
  not_above : ∀ k, s.climb k newParent ≠ some file
  bytes : ∀ x < s.next, (s'.files x).buffer? = (s.files x).buffer?
  /-- Every file has the mode it had, and is of the same kind. -/
  attributes : Tree.SameAttributes s.tree s'.tree

theorem Renamed.mode {s s' : State} {newParent : FileId} {newLeaf : Name} {file : FileId}
    (h : Renamed s s' newParent newLeaf file) (x : FileId) :
    (s'.files x).mode = (s.files x).mode := h.attributes.mode x

namespace Syscall

variable {host : Host} {s s' : State}

theorem Movable.renamed (h : s.tree.WF) {oldParent : FileId} {oldLeaf : Name} {newParent : FileId}
    {newLeaf : Name} {file p : FileId} (hdir : (s.files newParent).isDirectory)
    (hseg : Segment newLeaf) (hm : Movable s oldParent oldLeaf newParent newLeaf file p)
    (hs' : s' = Directory.moved host s newParent newLeaf file p)
    (hbytes : ∀ x < s.next, (s'.files x).buffer? = (s.files x).buffer?) :
    Renamed s s' newParent newLeaf file := by
  have hmoves := hm.moves h hdir hseg
  have htree : s'.tree =
      (Change.move p file newParent newLeaf (displaced s newParent newLeaf)).apply s.tree := by
    rw [hs']
    exact tree_moved h host hmoves
  have hparent : ∀ x, s'.getParent x = s'.tree.forest.parent x := fun _ => rfl
  obtain ⟨m, hedge⟩ := h.forest.parent_edge (d := p) (c := file) hm.parent hm.ne_root
  refine ⟨⟨p, m, fun d n => ?_⟩, fun d n x => ?_, ?_, fun x hx => ⟨?_, ?_, ?_⟩, fun x hx he => ?_,
    hm.ne_root, fun k hk => ?_, hbytes, ?_⟩
  · rw [State.mem_children_iff]
    constructor
    · exact fun he => h.forest.edge_unique he hedge
    · rintro ⟨rfl, rfl⟩
      exact hedge
  · rw [State.mem_children_iff, State.mem_children_iff, htree]
    exact hmoves.edge_apply h
  · rw [hparent, htree]
    exact hmoves.parent_self h
  · rw [hparent, htree]
    exact hmoves.parent_displaced h (State.mem_children_iff.mp hx)
  · obtain ⟨-, -, -, hleaf, -⟩ :=
      hmoves.displaces x (hmoves.displaced_eq h (State.mem_children_iff.mp hx))
    exact State.children_eq_nil_iff.mpr hleaf
  · obtain ⟨-, -, -, -, hkind⟩ :=
      hmoves.displaces x (hmoves.displaced_eq h (State.mem_children_iff.mp hx))
    rwa [State.tree_node, State.tree_node, File.node_isDirectory, File.node_isDirectory] at hkind
  · rw [hparent, htree]
    exact hmoves.parent_of_ne h hx fun hedge => he (State.mem_children_iff.mpr hedge)
  · rw [State.climb_eq] at hk
    exact hm.not_above (Forest.ancestor_of_up hk)
  · rw [htree]
    exact Change.move_sameAttributes p file newParent newLeaf _ s.tree

end Syscall

/-- A rename that succeeds moves exactly one edge, or both paths named the same file and
nothing has changed. -/
theorem path_rename_moves {host : Host} {s s' : State} {r : Reply} {oldFd newFd : UInt32}
    {oldPath newPath : List UInt8} (h : Reachable host s)
    (hok : exec host s (.path_rename oldFd oldPath newFd newPath) = .ok (s', r))
    (hsuccess : r.errno = 0) :
    ∃ oldParent oldLeaf newParent newLeaf file,
      Syscall.NamesSource s (cstr oldPath) oldFd.toNat (cstr newPath) newFd.toNat oldParent oldLeaf
        newParent newLeaf file ∧
      ((s.tree.lookup newParent newLeaf = some file ∧ s' = s) ∨
        (s.tree.lookup newParent newLeaf ≠ some file ∧ Renamed s s' newParent newLeaf file)) := by
  have hbytes : ∀ x < s.next, (s'.files x).buffer? = (s.files x).buffer? := by
    intro x hx
    refine (exec_keepsBytes (f := x) ?_ hok).buffer hx
    intro hwrites
    cases hwrites with
    | data hc _ => cases hc
  obtain ⟨ret, hren, rfl⟩ := Export.path_rename_ok hok
  rcases Syscall.renameat_ok h.wf hren with
    ⟨-, e, rfl⟩ | ⟨oldParent, oldLeaf, newParent, newLeaf, file, hnames, -, hcases⟩
  · exact absurd hsuccess e.u16_neg_ne_zero
  refine ⟨oldParent, oldLeaf, newParent, newLeaf, file, hnames, ?_⟩
  rcases hcases with ⟨hsame, hs⟩ | ⟨p, hm, hs⟩
  · exact Or.inl ⟨hsame, hs⟩
  · obtain ⟨hdir, hseg⟩ := Path.parseParent_leaf h.wf hnames.parsed_new
    exact Or.inr ⟨hm.lookup_ne, hm.renamed h.wf hdir hseg hs hbytes⟩

/-- Renaming a new directory to the name of the empty `/tmp`. -/
theorem path_rename_moves_overTmp : ∃ s s' r, Reachable .still s ∧
    exec .still s (.path_rename 3 [97] 3 tmpName) = .ok (s', r) ∧ r.errno = 0 ∧
    Renamed s s' Init.root tmpName 9 := by
  obtain ⟨s, replies, hok, hold, hnew, hfile, hne, s', r, hren, hsuccess⟩ :
      Returns (afterRun [.path_open atFdCwd [slash] 0, .path_create_directory 3 [97]]) fun s _ =>
        (Path.parseParent s (cstr [97]) (3 : UInt32).toNat).2.toOption =
          some (Init.root, [97]) ∧
        (Path.parseParent s (cstr tmpName) (3 : UInt32).toNat).2.toOption =
          some (Init.root, tmpName) ∧
        s.tree.lookup Init.root [97] = some 9 ∧ s.tree.lookup Init.root tmpName ≠ some 9 ∧
        Returns (exec .still s (.path_rename 3 [97] 3 tmpName)) fun _ r => r.errno = 0 := by
    decide +kernel
  have hs : Reachable .still s := .of_afterRun hok
  obtain ⟨oldParent, oldLeaf, newParent, newLeaf, file, hnames, hmoved⟩ :=
    path_rename_moves hs hren hsuccess
  cases (ok_of_toOption hold).symm.trans hnames.parsed_old
  cases (ok_of_toOption hnew).symm.trans hnames.parsed_new
  cases hfile.symm.trans hnames.lookup_old
  rcases hmoved with ⟨hsame, -⟩ | ⟨-, hrenamed⟩
  · exact absurd hsame hne
  · exact ⟨s, s', r, hs, hren, hsuccess, hrenamed⟩

end WasmFS
