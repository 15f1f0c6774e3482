import WasmFS.Namespace.Resolution

/-!
# Changes of the tree

A call changes the tree in one of four ways, if it changes it at all.  A
`Change` says which, with the files and the name it is about.  `Change.apply` is
the tree after it, and `Change.Allowed` is what the calls make sure of before
they go ahead.  An allowed change keeps the invariant (`WF.apply`).

A move may put the file under the name `.` of an empty directory.  The lookup of
that name in the checks finds the directory itself, so the checks pass.
`Change.StoresDot` singles this move out.
-/

namespace WasmFS

/-- A node that a call makes: an empty file without permissions, an empty
directory that is not writable, or a link. -/
def NewFile (backend : BackendId) (x : Node) : Prop :=
  x = newNode (.memory Vec.empty) S_IFREG backend ∨
    x = newNode (.directory [] []) (S_IRUGO ||| S_IXUGO ||| S_IFDIR) backend ∨
    ∃ target, x = newNode (.symlink target) S_IFLNK backend

namespace NewFile

variable {backend : BackendId} {x : Node}

theorem blank (h : NewFile backend x) : x.Blank := by
  rcases h with rfl | rfl | ⟨target, rfl⟩
  · exact newNode_blank (.memory Vec.empty) trivial _ _
  · exact newNode_blank (.directory [] []) ⟨rfl, rfl⟩ _ _
  · exact newNode_blank (.symlink target) trivial _ _

theorem not_writable (h : NewFile backend x) : x.writable = false := by
  rcases h with rfl | rfl | ⟨target, rfl⟩ <;> rw [newNode_writable] <;> decide

/-- A new regular file cannot be read either. -/
theorem not_readable (h : NewFile backend x) (hx : x.shape = .memory) : x.readable = false := by
  rcases h with rfl | rfl | ⟨target, rfl⟩
  · rw [newNode_readable]
    decide
  · cases hx
  · cases hx

end NewFile

inductive Change where
  | none
  | create (d : FileId) (name : Name) (x : Node)
  | unlink (d : FileId) (name : Name) (c : FileId)
  /-- Move `c` from `p` to `d`, where it may displace a file. -/
  | move (p c d : FileId) (name : Name) (displaced : Option FileId)

namespace Change

/-- The tree after a change. -/
def apply : Change → Tree → Tree
  | .none, t => t
  | .create d name x, t => t.create d name x
  | .unlink d name c, t => t.unlink d name c
  | .move p c d name .none, t => t.moveChild p c d name
  | .move p c d name (some c'), t => t.replaceChild p c d name c'

/-- The entry is stored under the name `.`. -/
def StoresDot : Change → Prop
  | .move _ _ _ name _ => name = dot
  | _ => False

/-- The change takes the child `f` of that name out of `d` for good. -/
def Removes (d : FileId) (name : Name) (f : FileId) : Change → Prop
  | .unlink d' name' c => d' = d ∧ name' = name ∧ c = f
  | .move _ _ d' name' displaced => d' = d ∧ name' = name ∧ displaced = some f
  | _ => False

/-- What a call has checked before it creates `x`. -/
structure Creates (t : Tree) (d : FileId) (name : Name) (x : Node) : Prop where
  linked : t.forest.Linked d
  isDirectory : (t.node d).isDirectory
  segment : Segment name
  length : name.length ≤ WASMFS_NAME_MAX
  free : t.lookup d name = .none
  newFile : NewFile (t.node d).backend x

/-- What a call has checked before it removes `c`. -/
structure Unlinks (t : Tree) (d : FileId) (name : Name) (c : FileId) : Prop where
  ne_dot : name ≠ dot
  ne_dotdot : name ≠ dotdot
  lookup : t.lookup d name = some c
  writable : (t.node d).writable
  childless : ∀ n x, ¬ t.forest.edge c n x

/-- What a call has checked before it moves `c`. -/
structure Moves (t : Tree) (p c d : FileId) (name : Name) (displaced : Option FileId) :
    Prop where
  parent : (t.node c).parent = some p
  ne_root : c ≠ t.root
  linked : t.forest.Linked d
  isDirectory : (t.node d).isDirectory
  writable : (t.node d).writable
  segment : Segment name
  length : name.length ≤ WASMFS_NAME_MAX
  ne_dotdot : name ≠ dotdot
  /-- The file is not on the way from the directory up to the root. -/
  not_above : ¬ t.forest.Ancestor c d
  /-- The file is in a writable directory or is a directory itself. -/
  not_mounted : (t.node p).writable ∨ (t.node c).isDirectory
  /-- Nothing is displaced: the name is free, or it is `.` in an empty directory. -/
  free : displaced = .none → t.lookup d name = .none ∨
    (name = dot ∧ (t.node c).isDirectory ∧ c ≠ d ∧ ∀ n x, ¬ t.forest.edge d n x)
  /-- What is displaced has no children and is of the same sort. -/
  displaces : ∀ c', displaced = some c' → name ≠ dot ∧ t.lookup d name = some c' ∧ c' ≠ c ∧
    (∀ n x, ¬ t.forest.edge c' n x) ∧ (t.node c').isDirectory = (t.node c).isDirectory

/-- What the calls have checked before the change. -/
def Allowed (t : Tree) : Change → Prop
  | .none => True
  | .create d name x => Creates t d name x
  | .unlink d name c => Unlinks t d name c
  | .move p c d name displaced => Moves t p c d name displaced

end Change

namespace Tree

variable {t : Tree}

/-- In a writable directory every child is an entry. -/
theorem WF.entries_of_writable (h : t.WF) {d c : FileId} {n : Name} (hd : (t.node d).writable)
    (he : t.forest.edge d n c) : (n, c) ∈ (t.node d).entries := by
  have hmounts : (t.node d).mounts = [] := by
    unfold Node.mounts
    rw [h.guarded hd]
    rfl
  have he : (n, c) ∈ (t.node d).entries ++ (t.node d).mounts := he
  rwa [hmounts, List.append_nil] at he

/-- A directory is an entry of its parent. -/
theorem WF.entries_of_isDirectory (h : t.WF) {d c : FileId} {n : Name}
    (hc : (t.node c).isDirectory) (he : t.forest.edge d n c) : (n, c) ∈ (t.node d).entries := by
  rcases List.mem_append.mp he with he | he
  · exact he
  · obtain ⟨e, hm, heq⟩ := List.mem_map.mp he
    cases heq
    have hdev := h.mount_device (List.mem_filter.mp hm).1
    rw [Node.device?_of_isDirectory hc] at hdev
    cases hdev

end Tree

namespace Change

variable {t : Tree}

theorem Creates.wf {d : FileId} {name : Name} {x : Node} (hc : Creates t d name x) (h : t.WF) :
    (t.create d name x).WF :=
  h.create hc.isDirectory hc.linked (h.free_of_lookup_eq_none hc.linked hc.free).2.2
    hc.newFile.blank

theorem Unlinks.edge {d c : FileId} {name : Name} (hu : Unlinks t d name c) (h : t.WF) :
    t.forest.edge d name c :=
  (h.lookup_eq_some_iff hu.ne_dot hu.ne_dotdot).mp hu.lookup

theorem Unlinks.entry {d c : FileId} {name : Name} (hu : Unlinks t d name c) (h : t.WF) :
    (name, c) ∈ (t.node d).entries :=
  h.entries_of_writable hu.writable (hu.edge h)

theorem Unlinks.wf {d c : FileId} {name : Name} (hu : Unlinks t d name c) (h : t.WF) :
    (t.unlink d name c).WF :=
  h.unlink (hu.entry h) hu.childless

/-- The entry that a move erases. -/
theorem Moves.entry {p c d : FileId} {name : Name} {displaced : Option FileId}
    (hm : Moves t p c d name displaced) (h : t.WF) : ∃ m, (m, c) ∈ (t.node p).entries := by
  obtain ⟨m, he⟩ := h.forest.parent_edge hm.parent hm.ne_root
  rcases hm.not_mounted with hp | hc
  · exact ⟨m, h.entries_of_writable hp he⟩
  · exact ⟨m, h.entries_of_isDirectory hc he⟩

/-- The name under which nothing is displaced is free. -/
theorem Moves.not_edge {p c d : FileId} {name : Name} (hm : Moves t p c d name .none)
    (h : t.WF) (x : FileId) : ¬ t.forest.edge d name x := by
  rcases hm.free rfl with hfree | ⟨-, -, -, hempty⟩
  · exact (h.free_of_lookup_eq_none hm.linked hfree).2.2 x
  · exact hempty name x

theorem Moves.displaced_edge {p c d c' : FileId} {name : Name}
    (hm : Moves t p c d name (some c')) (h : t.WF) : t.forest.edge d name c' := by
  obtain ⟨hdot, hlookup, -⟩ := hm.displaces c' rfl
  exact (h.lookup_eq_some_iff hdot hm.ne_dotdot).mp hlookup

theorem Moves.displaced_entry {p c d c' : FileId} {name : Name}
    (hm : Moves t p c d name (some c')) (h : t.WF) : (name, c') ∈ (t.node d).entries :=
  h.entries_of_writable hm.writable (hm.displaced_edge h)

theorem Moves.wf_of_free {p c d : FileId} {name : Name} (hm : Moves t p c d name .none)
    (h : t.WF) : (t.moveChild p c d name).WF := by
  obtain ⟨m, hentry⟩ := hm.entry h
  exact h.moveChild hentry hm.isDirectory hm.linked hm.not_above
    fun x he => absurd he (hm.not_edge h x)

theorem Moves.wf_of_displaced {p c d c' : FileId} {name : Name}
    (hm : Moves t p c d name (some c')) (h : t.WF) : (t.replaceChild p c d name c').WF := by
  obtain ⟨m, hentry⟩ := hm.entry h
  obtain ⟨-, -, hne, hleaf, -⟩ := hm.displaces c' rfl
  exact h.replaceChild hentry (hm.displaced_entry h) hne hleaf hm.not_above

/-- An allowed change keeps the invariant. -/
theorem wf_apply (h : t.WF) {change : Change} (hc : change.Allowed t) : (change.apply t).WF := by
  cases change with
  | none => exact h
  | create d name x => exact Creates.wf hc h
  | unlink d name c => exact Unlinks.wf hc h
  | move p c d name displaced =>
      cases displaced with
      | none => exact Moves.wf_of_free hc h
      | some c' => exact Moves.wf_of_displaced hc h

/-- An allowed change of the forest. -/
def applyForest (next : FileId) : Change → Forest FileId Name → Forest FileId Name
  | .none, F => F
  | .create d name _, F => F.link d name next
  | .unlink _ _ c, F => F.unlink c
  | .move _ c d name .none, F => F.move c d name
  | .move _ c d name (some c'), F => (F.unlink c').move c d name

theorem forest_apply (h : t.WF) {change : Change} (hc : change.Allowed t) :
    (change.apply t).forest = change.applyForest t.next t.forest := by
  cases change with
  | none => rfl
  | create d name x =>
      exact h.forest_create hc.isDirectory hc.linked name hc.newFile.blank
  | unlink d name c => exact h.forest_unlink (Unlinks.entry hc h)
  | move p c d name displaced =>
      obtain ⟨m, hentry⟩ := Moves.entry hc h
      cases displaced with
      | none => exact h.forest_moveChild hentry hc.isDirectory name
      | some c' =>
          obtain ⟨-, -, hne, -⟩ := hc.displaces c' rfl
          exact h.forest_replaceChild hentry (Moves.displaced_entry hc h) hne

end Change

end WasmFS
