import WasmFS.Data.Frame
import WasmFS.Namespace.Calls
import WasmFS.Source.Init

/-!
# Every call makes an allowed change

`exec_change` is the inversion of a call as far as the tree is concerned: the tree
after it comes from an allowed `Change`.  So an invariant of the tree is one that
holds at the start and that allowed changes preserve (`Reachable.invariant`).

The change stores the name `.` only if the call is a rename of a directory to
`.` in an empty directory (`RenamesToDot`).
-/

namespace WasmFS

/-- The call renames a directory to the name `.` of an empty writable directory
that is not the root, and no check is in the way. -/
def RenamesToDot (s : State) : Call → Prop
  | .path_rename oldFd oldPath newFd newPath =>
      ∃ oldParent oldLeaf newParent file,
        (Path.parseParent s (cstr oldPath) oldFd.toNat).2 = .ok (oldParent, oldLeaf) ∧
        (Path.parseParent s (cstr newPath) newFd.toNat).2 = .ok (newParent, dot) ∧
        s.tree.lookup oldParent oldLeaf = some file ∧
        (s.files file).isDirectory ∧ file ≠ newParent ∧ file ≠ s.rootDirectory ∧
        newParent ≠ s.rootDirectory ∧ Directory.getNumEntries s newParent = 0 ∧
        (s.files oldParent).writable ∧ (s.files newParent).writable ∧
        (s.files oldParent).backend = (s.files newParent).backend ∧
        s.tree.forest.Rooted newParent ∧ ¬ s.tree.forest.Ancestor file newParent
  | _ => False

/-- The call removes or overwrites what its path names, the child of `d` of that
name. -/
def NamesVictim (s : State) (d : FileId) (name : Name) : Call → Prop
  | .path_unlink_file dirfd path =>
      (Path.parseParent s (cstr path) dirfd.toNat).2 = .ok (d, name)
  | .path_remove_directory fd path =>
      (Path.parseParent s (cstr path) fd.toNat).2 = .ok (d, name)
  | .path_rename _ _ newFd newPath =>
      (Path.parseParent s (cstr newPath) newFd.toNat).2 = .ok (d, name)
  | _ => False

namespace Syscall

variable {s : State}

/-! ## Changes of the system calls -/

theorem Insertable.creates (h : s.tree.WF) {path : Name} {dirfd : Nat} {parent : FileId}
    {leaf : Name} (hi : Insertable s path dirfd parent leaf) {x : Node}
    (hx : NewFile (s.files parent).backend x) : Change.Creates s.tree parent leaf x where
  linked := hi.linked
  isDirectory := by
    rw [State.tree_node, File.node_isDirectory]
    exact (Path.parseParent_leaf h hi.parsed).1
  segment := (Path.parseParent_leaf h hi.parsed).2
  length := hi.length
  free := hi.lookup
  newFile := hx

/-- A removal takes out the entry, unless the leaf is `.`. -/
theorem Removable.unlinks (h : s.tree.WF) {path : Name} {dirfd : Nat} {removeDir : Bool}
    {parent : FileId} {leaf : Name} {file : FileId}
    (hr : Removable s path dirfd removeDir parent leaf file) (hdot : leaf ≠ dot) :
    Change.Unlinks s.tree parent leaf file where
  ne_dot := hdot
  ne_dotdot := by
    -- the parent of a directory other than the root has a child
    rintro rfl
    cases hp : (s.files parent).parent with
    | none => exact Tree.linked_of_lookup hr.lookup hp
    | some q =>
        have hl := hr.lookup
        rw [Tree.lookup_dotdot hp] at hl
        cases hl
        have hroot : parent ≠ s.rootDirectory := by
          rintro rfl
          exact hr.ne_root (Option.some.inj (hp.symm.trans h.forest.root_parent))
        obtain ⟨n, he⟩ := h.forest.parent_edge hp hroot
        exact hr.childless n parent he
  lookup := hr.lookup
  writable := hr.writable
  childless := hr.childless

/-- An empty directory has no entry of the name `.`. -/
theorem Removable.removeChild_dot {path : Name} {dirfd : Nat} {removeDir : Bool}
    {parent file : FileId} (hr : Removable s path dirfd removeDir parent dot file) :
    MemoryDirectory.removeChild s parent dot = s := by
  have hl := hr.lookup
  rw [Tree.lookup_dot (Tree.linked_of_lookup hr.lookup)] at hl
  cases hl
  apply MemoryDirectory.removeChild_of_none
  rw [Assoc.lookup_eq_none_iff_not_mem]
  intro c hc
  refine hr.childless dot c (List.mem_append_left _ ?_)
  rwa [State.tree_node, File.node_entries]

theorem tree_removed (h : s.tree.WF) (host : Host) {parent : FileId} {leaf : Name} {file : FileId}
    (hu : Change.Unlinks s.tree parent leaf file) :
    ((MemoryDirectory.removeChild s parent leaf).updateMTime host parent).tree =
      (Change.unlink parent leaf file).apply s.tree := by
  rw [State.tree_updateMTime]
  refine MemoryDirectory.tree_removeChild ?_
  have hentry := hu.entry h
  have hnames := h.names_nodup parent
  rw [Node.children, List.map_append] at hnames
  rw [State.tree_node, File.node_entries] at hentry hnames
  exact (Assoc.lookup_eq_some_iff_mem (List.nodup_append.mp hnames).1).mpr hentry

/-- What a removal changes, if anything. -/
theorem Removable.change (h : s.tree.WF) (host : Host) {path : Name} {dirfd : Nat}
    {removeDir : Bool} {parent : FileId} {leaf : Name} {file : FileId}
    (hr : Removable s path dirfd removeDir parent leaf file) :
    ∃ change : Change, change.Allowed s.tree ∧
      (change = .none ∨ change = .unlink parent leaf file) ∧
      ((MemoryDirectory.removeChild s parent leaf).updateMTime host parent).tree =
        change.apply s.tree := by
  by_cases hdot : leaf = dot
  · subst hdot
    refine ⟨.none, trivial, Or.inl rfl, ?_⟩
    rw [State.tree_updateMTime, hr.removeChild_dot]
    rfl
  · have hu := hr.unlinks h hdot
    exact ⟨.unlink parent leaf file, hu, Or.inr rfl, tree_removed h host hu⟩

/-- What a move displaces. -/
def displaced (s : State) (newParent : FileId) (newLeaf : Name) : Option FileId :=
  if newLeaf = dot then none else s.tree.lookup newParent newLeaf

theorem Movable.ne_dotdot (h : s.tree.WF) {oldParent : FileId} {oldLeaf : Name}
    {newParent : FileId} {newLeaf : Name} {file p : FileId}
    (hm : Movable s oldParent oldLeaf newParent newLeaf file p) : newLeaf ≠ dotdot := by
  rintro rfl
  have hlinked := h.forest.linked_of_rooted hm.rooted
  cases hp : (s.files newParent).parent with
  | none => exact absurd hp hlinked
  | some q =>
      have hl : s.tree.lookup newParent dotdot = some q := Tree.lookup_dotdot hp
      have hroot : newParent ≠ s.rootDirectory := by
        rintro rfl
        have hq := hp.symm.trans h.forest.root_parent
        exact hm.lookup_ne_root (hl.trans hq)
      obtain ⟨n, he⟩ := h.forest.parent_edge hp hroot
      exact (hm.overwrite hl).1 n newParent he

theorem Movable.moves (h : s.tree.WF) {oldParent : FileId} {oldLeaf : Name} {newParent : FileId}
    {newLeaf : Name} {file p : FileId} (hdir : (s.files newParent).isDirectory)
    (hseg : Segment newLeaf) (hm : Movable s oldParent oldLeaf newParent newLeaf file p) :
    Change.Moves s.tree p file newParent newLeaf (displaced s newParent newLeaf) where
  parent := hm.parent
  ne_root := hm.ne_root
  linked := h.forest.linked_of_rooted hm.rooted
  isDirectory := by rwa [State.tree_node, File.node_isDirectory]
  writable := hm.writable_new
  segment := hseg
  length := hm.length
  ne_dotdot := hm.ne_dotdot h
  not_above := hm.not_above
  not_mounted := by
    rw [State.tree_node, State.tree_node, File.node_isDirectory]
    exact hm.not_mounted
  free hnone := by
    unfold displaced at hnone
    by_cases hdot : newLeaf = dot
    · subst hdot
      have hl := Tree.lookup_dot (h.forest.linked_of_rooted hm.rooted)
      obtain ⟨hleaf, hkind⟩ := hm.overwrite hl
      refine Or.inr ⟨rfl, ?_, ?_, hleaf⟩
      · rw [State.tree_node, File.node_isDirectory, ← hkind]
        exact hdir
      · rintro rfl
        exact hm.lookup_ne hl
    · rw [if_neg hdot] at hnone
      exact Or.inl hnone
  displaces c' hsome := by
    unfold displaced at hsome
    by_cases hdot : newLeaf = dot
    · rw [if_pos hdot] at hsome
      cases hsome
    · rw [if_neg hdot] at hsome
      obtain ⟨hleaf, hkind⟩ := hm.overwrite hsome
      refine ⟨hdot, hsome, ?_, hleaf, ?_⟩
      · rintro rfl
        exact hm.lookup_ne hsome
      · rw [State.tree_node, State.tree_node, File.node_isDirectory, File.node_isDirectory]
        exact hkind

theorem tree_moved (h : s.tree.WF) (host : Host) {newParent : FileId} {newLeaf : Name}
    {file p : FileId}
    (hmoves : Change.Moves s.tree p file newParent newLeaf (displaced s newParent newLeaf)) :
    (Directory.moved host s newParent newLeaf file p).tree =
      (Change.move p file newParent newLeaf (displaced s newParent newLeaf)).apply s.tree := by
  cases hd : displaced s newParent newLeaf with
  | none =>
      rw [hd] at hmoves
      refine Directory.tree_moved_of_free host (fun c hc => ?_) file p
      refine hmoves.not_edge h c (List.mem_append_left _ ?_)
      rwa [State.tree_node, File.node_entries]
  | some c' =>
      rw [hd] at hmoves
      obtain ⟨-, -, hne, -⟩ := hmoves.displaces c' rfl
      have hentry := hmoves.displaced_entry h
      rw [State.tree_node, File.node_entries] at hentry
      exact Directory.tree_moved_of_entry host h hentry hne p

theorem opened_tree (s : State) (child : FileId) (flags : Nat) :
    (opened s child flags).tree = s.tree := by
  have hcreate := (OpenFileState.create_sameFiles s child flags).tree
  simp only [opened]
  split
  · exact (SameSkeleton.setBuffer _ child Vec.empty).tree.trans hcreate
  · exact hcreate

end Syscall

/-! ## Changes of the exports -/

/-- What a change has to do with the call that makes it. -/
structure MakesChange (s : State) (c : Call) (s' : State) (change : Change) : Prop where
  allowed : change.Allowed s.tree
  tree : s'.tree = change.apply s.tree
  storesDot : change.StoresDot → RenamesToDot s c
  removes : ∀ {d n f}, change.Removes d n f → NamesVictim s d n c

theorem MakesChange.of_tree {s s' : State} {c : Call} (h : s'.tree = s.tree) :
    ∃ change, MakesChange s c s' change :=
  ⟨.none, trivial, h, False.elim, False.elim⟩

theorem MakesChange.of_inserted {s : State} {c : Call} (host : Host) (h : s.tree.WF) {path : Name}
    {dirfd : Nat} {parent : FileId} {leaf : Name}
    (hi : Syscall.Insertable s path dirfd parent leaf) {body : Body} {mode : Nat}
    (hx : NewFile (s.files parent).backend (newNode body mode (s.files parent).backend))
    {s' : State} (hs' : s'.tree = (Directory.inserted host s parent leaf body mode).tree) :
    ∃ change, MakesChange s c s' change :=
  ⟨.create parent leaf (newNode body mode (s.files parent).backend), hi.creates h hx,
    hs'.trans (Directory.tree_inserted host s parent leaf body mode), False.elim, False.elim⟩

namespace Export

variable {host : Host} {s s' : State} {r : Reply}

theorem path_create_directory_change (h : s.tree.WF) {fd : UInt32} {path : List UInt8}
    (hok : path_create_directory host s fd path = .ok (s', r)) :
    ∃ change, MakesChange s (.path_create_directory fd path) s' change := by
  unfold path_create_directory at hok
  rcases Syscall.mkdirat_cases h host host.dirfd.toNat (cstr path) (S_IRUGO ||| S_IXUGO) with
    ⟨e, he⟩ | ⟨parent, leaf, hi, -, hins⟩
  · rw [he] at hok
    cases hok
    exact MakesChange.of_tree rfl
  · rw [hins] at hok
    cases hok
    have hx : NewFile (s.files parent).backend
        (newNode (.directory [] []) (S_IRUGO ||| S_IXUGO ||| S_IFDIR) (s.files parent).backend) :=
      Or.inr (Or.inl rfl)
    exact MakesChange.of_inserted host h hi hx rfl

theorem symlinkat_change (h : s.tree.WF) {target linkpath : Name} {newdirfd : Nat} {ret : Int}
    (c : Call) (hok : Syscall.symlinkat host s target newdirfd linkpath = .ok (s', ret)) :
    ∃ change, MakesChange s c s' change := by
  rcases Syscall.symlinkat_cases h host target newdirfd linkpath with
    ⟨e, he⟩ | hfault | ⟨parent, leaf, hi, hlen, hins⟩
  · rw [he] at hok
    cases hok
    exact MakesChange.of_tree rfl
  · rw [hfault] at hok
    cases hok
  · rw [hins] at hok
    cases hok
    exact MakesChange.of_inserted host h hi (Or.inr (Or.inr ⟨_, rfl⟩)) rfl

theorem path_link_change (h : s.tree.WF) {oldFd newFd : UInt32} {oldPath newPath : List UInt8}
    (hok : path_link host s oldFd oldPath newFd newPath = .ok (s', r)) :
    ∃ change, MakesChange s (.path_link oldFd oldPath newFd newPath) s' change := by
  obtain ⟨ret, hs, -⟩ := Export.path_link_ok oldFd hok
  exact symlinkat_change h _ hs

theorem path_symlink_change (h : s.tree.WF) {fd : UInt32} {oldPath newPath : List UInt8}
    (hok : path_symlink host s oldPath fd newPath = .ok (s', r)) :
    ∃ change, MakesChange s (.path_symlink oldPath fd newPath) s' change := by
  obtain ⟨ret, hs, -⟩ := Export.path_symlink_ok hok
  exact symlinkat_change h _ hs

theorem path_open_change (h : s.tree.WF) {dirfd : UInt32} {path : List UInt8} {oflags : UInt16}
    (hok : path_open host s dirfd path oflags = .ok (s', r)) :
    ∃ change, MakesChange s (.path_open dirfd path oflags) s' change := by
  obtain ⟨ret, hopen, rfl⟩ := Export.path_open_ok hok
  rcases Syscall.openat2_cases h host dirfd.toNat (cstr path) oflags.toNat 0 with
    ⟨e, s₂, he, hun⟩ | ⟨parent, leaf, c, child, -, -, hadd⟩ | ⟨parent, leaf, hi, -, hadd⟩
  · rw [he] at hopen
    cases hopen
    exact MakesChange.of_tree hun.unchanged.sameFiles.tree
  · rw [hadd] at hopen
    exact MakesChange.of_tree ((FileTable.addEntry_sameFiles hopen).tree.trans
      (Syscall.opened_tree s child oflags.toNat))
  · rw [hadd] at hopen
    refine MakesChange.of_inserted host h hi (Or.inl rfl) ?_
    exact (FileTable.addEntry_sameFiles hopen).tree.trans
      (OpenFileState.create_sameFiles _ _ _).tree

theorem unlinkat_change (h : s.tree.WF) (host : Host) (dirfd : Nat) (path : Name)
    (removeDir : Bool) {c : Call}
    (hc : ∀ {d n}, (Path.parseParent s path dirfd).2 = .ok (d, n) → NamesVictim s d n c) :
    ∃ change, MakesChange s c (Syscall.unlinkat host s dirfd path removeDir).1 change := by
  rcases Syscall.unlinkat_cases h host dirfd path removeDir with
    ⟨e, he⟩ | ⟨parent, leaf, file, hr, hunlink⟩
  · rw [he]
    exact MakesChange.of_tree rfl
  · rw [hunlink]
    obtain ⟨change, hallowed, rfl | rfl, ht⟩ := hr.change h host
    · exact ⟨.none, hallowed, ht, False.elim, False.elim⟩
    · refine ⟨.unlink parent leaf file, hallowed, ht, False.elim, fun hremoves => hc ?_⟩
      obtain ⟨rfl, rfl, -⟩ := hremoves
      exact hr.parsed

theorem path_remove_directory_change (h : s.tree.WF) {fd : UInt32} {path : List UInt8}
    (hok : path_remove_directory host s fd path = .ok (s', r)) :
    ∃ change, MakesChange s (.path_remove_directory fd path) s' change := by
  have hs := unlinkat_change h host fd.toNat (cstr path) true
    (c := .path_remove_directory fd path) id
  unfold path_remove_directory at hok
  cases hok
  exact hs

theorem path_unlink_file_change (h : s.tree.WF) {dirfd : UInt32} {path : List UInt8}
    (hok : path_unlink_file host s dirfd path = .ok (s', r)) :
    ∃ change, MakesChange s (.path_unlink_file dirfd path) s' change := by
  have hs := unlinkat_change h host dirfd.toNat (cstr path) false
    (c := .path_unlink_file dirfd path) id
  unfold path_unlink_file at hok
  cases hok
  exact hs

theorem path_rename_change (h : s.tree.WF) {oldFd newFd : UInt32} {oldPath newPath : List UInt8}
    (hok : path_rename host s oldFd oldPath newFd newPath = .ok (s', r)) :
    ∃ change, MakesChange s (.path_rename oldFd oldPath newFd newPath) s' change := by
  obtain ⟨ret, hren, rfl⟩ := Export.path_rename_ok hok
  rcases Syscall.renameat_ok h hren with
    ⟨rfl, -⟩ | ⟨oldParent, oldLeaf, newParent, newLeaf, file, hnames, -, ⟨-, rfl⟩ | ⟨p, hm, rfl⟩⟩
  · exact MakesChange.of_tree rfl
  · exact MakesChange.of_tree rfl
  obtain ⟨hp, hp', -⟩ := hnames
  obtain ⟨hdir', hseg⟩ := Path.parseParent_leaf h hp'
  have hmoves := hm.moves h hdir' hseg
  refine ⟨.move p file newParent newLeaf (Syscall.displaced s newParent newLeaf), hmoves,
    Syscall.tree_moved h host hmoves, fun hdot => ?_, ?_⟩
  swap
  · rintro d n f ⟨rfl, rfl, -⟩
    exact hp'
  obtain rfl : newLeaf = dot := hdot
  have hl := Tree.lookup_dot (h.forest.linked_of_rooted hm.rooted)
  obtain ⟨hleaf, hkind⟩ := hm.overwrite hl
  refine ⟨oldParent, oldLeaf, newParent, file, hp, hp', hm.lookup_old, hkind ▸ hdir', ?_,
    hm.ne_root, ?_, ?_, hm.writable_old, hm.writable_new, hm.backend, hm.rooted, hm.not_above⟩
  · rintro rfl
    exact hm.lookup_ne hl
  · rintro rfl
    exact hm.lookup_ne_root hl
  · exact Syscall.getNumEntries_eq_zero_iff.mpr hleaf

end Export

/-! ## Calls that change neither the tree nor the table -/

/-- The calls that neither change the tree nor a slot of the table. -/
def Call.keepsSkeleton : Call → Bool
  | .fd_close _ => false
  | .fd_renumber _ _ => false
  | .path_create_directory _ _ => false
  | .path_link _ _ _ _ => false
  | .path_open _ _ _ => false
  | .path_remove_directory _ _ => false
  | .path_rename _ _ _ _ => false
  | .path_symlink _ _ _ => false
  | .path_unlink_file _ _ => false
  | _ => true

namespace Export

variable {host : Host} {s s' : State} {r : Reply}

theorem fd_sync_state {fd : UInt32} (hok : fd_sync s fd = .ok (s', r)) : s' = s := by
  unfold fd_sync at hok
  split at hok <;> cases hok <;> rfl

theorem fd_fdstat_get_state {fd : UInt32} (hok : fd_fdstat_get s fd = .ok (s', r)) : s' = s := by
  unfold fd_fdstat_get at hok
  split at hok <;> cases hok <;> rfl

theorem path_filestat_set_times_skeleton (h : s.tree.WF) {fd : UInt32} {path : List UInt8}
    {atim mtim : UInt64} (hok : path_filestat_set_times host s fd path atim mtim = .ok (s', r)) :
    SameSkeleton s s' := by
  unfold path_filestat_set_times at hok
  rw [Path.parseFile_state h] at hok
  cases hp : (Path.parseFile s (cstr path) fd.toNat .followLinks).2 with
  | error e =>
      rw [hp] at hok
      cases hok
      exact .refl s
  | ok file =>
      rw [hp] at hok
      cases hok
      exact set_times_skeleton host s file atim mtim

theorem readlinkat_state (h : s.tree.WF) (dirfd : Nat) (path : Name) (bufsize : Nat) :
    (Syscall.readlinkat s dirfd path bufsize).1 = s := by
  unfold Syscall.readlinkat
  rw [Path.parseFile_state h]
  cases (Path.parseFile s path dirfd .noFollowLinks).2 with
  | error e => rfl
  | ok file =>
      simp only
      cases (s.files file).target? <;> rfl

theorem path_readlink_state (h : s.tree.WF) {dirFd : UInt32} {path : List UInt8} {bufLen : UInt32}
    (hok : path_readlink s dirFd path bufLen = .ok (s', r)) : s' = s := by
  have hs := readlinkat_state h dirFd.toNat (cstr path) bufLen.toNat
  unfold path_readlink at hok
  rcases hl : Syscall.readlinkat s dirFd.toNat (cstr path) bufLen.toNat with ⟨s₁, bytes, copied⟩
  rw [hl] at hok hs
  obtain rfl : s₁ = s := hs
  simp only at hok
  split at hok <;> cases hok <;> rfl

theorem path_filestat_get_state (h : s.tree.WF) (fd : UInt32) {path : List UInt8}
    (hok : path_filestat_get s fd path = .ok (s', r)) : s' = s := by
  unfold path_filestat_get at hok
  rw [Path.parseFile_state h] at hok
  cases hp : (Path.parseFile s (cstr path) Path.AT_FDCWD .followLinks).2 with
  | error e =>
      rw [hp] at hok
      cases hok
      rfl
  | ok file =>
      rw [hp] at hok
      cases hok
      rfl

end Export

/-- These calls change bytes, times and positions at most. -/
theorem exec_skeleton {host : Host} {s s' : State} {c : Call} {r : Reply} (h : s.tree.WF)
    (hc : c.keepsSkeleton) (hok : exec host s c = .ok (s', r)) : SameSkeleton s s' := by
  cases c with
  | fd_advise | fd_fdstat_set_flags | fd_fdstat_set_rights | fd_prestat_get
  | fd_prestat_dir_name =>
      cases hok
      exact .refl s
  | fd_allocate fd offset len =>
      obtain ⟨ret, hf, -⟩ := Export.fd_allocate_ok hok
      exact Syscall.fallocate_skeleton hf
  | fd_datasync fd | fd_sync fd =>
      obtain rfl := Export.fd_sync_state hok
      exact .refl _
  | fd_fdstat_get fd | fd_filestat_get fd =>
      obtain rfl := Export.fd_fdstat_get_state hok
      exact .refl _
  | fd_filestat_set_size fd size =>
      obtain ⟨ret, hf, -⟩ := Export.fd_filestat_set_size_ok hok
      exact Syscall.ftruncate64_skeleton hf
  | fd_filestat_set_times fd atim mtim =>
      simp only [exec, Export.fd_filestat_set_times] at hok
      split at hok
      · cases hok
        exact .refl s
      · cases hok
        exact Export.set_times_skeleton host s _ atim mtim
  | fd_pread fd iovs offset | fd_read fd iovs =>
      obtain ⟨out, hread⟩ := Export.readReply_ok hok
      exact readAtOffset_skeleton hread
  | fd_pwrite fd iovs offset | fd_write fd iovs =>
      obtain ⟨out, hwrite⟩ := Export.writeReply_ok hok
      exact writeAtOffset_skeleton hwrite
  | fd_readdir fd bufLen =>
      have hs := Syscall.getdents64_skeleton s fd.toNat bufLen.toNat
      cases hok
      exact hs
  | fd_seek fd offset whence =>
      have hs := Syscall.seek_skeleton s fd.toNat offset.toInt whence.toNat
      simp only [exec, Export.fd_seek] at hok
      split at hok <;> rename_i hseek <;> rw [hseek] at hs <;> cases hok <;> exact hs
  | fd_tell fd =>
      simp only [exec, Export.fd_tell] at hok
      split at hok <;> cases hok <;> exact .refl s
  | path_filestat_get fd path =>
      obtain rfl := Export.path_filestat_get_state h fd hok
      exact .refl _
  | path_filestat_set_times fd path atim mtim =>
      exact Export.path_filestat_set_times_skeleton h hok
  | path_readlink dirFd path bufLen =>
      obtain rfl := Export.path_readlink_state h hok
      exact .refl _
  | fd_close | fd_renumber | path_create_directory | path_link | path_open
  | path_remove_directory | path_rename | path_symlink | path_unlink_file => cases hc

/-! ## Every call -/

/-- Every call makes an allowed change. -/
theorem exec_change {host : Host} {s s' : State} {c : Call} {r : Reply} (h : s.tree.WF)
    (hok : exec host s c = .ok (s', r)) : ∃ change, MakesChange s c s' change := by
  by_cases hc : c.keepsSkeleton
  · exact MakesChange.of_tree (exec_skeleton h hc hok).tree
  cases c with
  | fd_close fd =>
      obtain ⟨ret, hclose, -⟩ := Export.fd_close_ok hok
      exact MakesChange.of_tree (Syscall.close_sameFiles hclose).tree
  | fd_renumber fd dest =>
      obtain ⟨ret, hdup, -⟩ := Export.fd_renumber_ok hok
      exact MakesChange.of_tree (Syscall.dup3_sameFiles hdup).tree
  | path_create_directory fd path => exact Export.path_create_directory_change h hok
  | path_link oldFd oldPath newFd newPath => exact Export.path_link_change h hok
  | path_open dirfd path oflags => exact Export.path_open_change h hok
  | path_remove_directory fd path => exact Export.path_remove_directory_change h hok
  | path_rename oldFd oldPath newFd newPath => exact Export.path_rename_change h hok
  | path_symlink oldPath fd newPath => exact Export.path_symlink_change h hok
  | path_unlink_file dirfd path => exact Export.path_unlink_file_change h hok
  | _ => exact absurd rfl hc

/-- One step keeps the invariant of the tree. -/
theorem Step.wf {host : Host} {s s' : State} {c : Call} (hs : Step host s c s')
    (h : s.tree.WF) : s'.tree.WF := by
  obtain ⟨r, hok⟩ := hs
  obtain ⟨change, hchange⟩ := exec_change h hok
  rw [hchange.tree]
  exact Change.wf_apply h hchange.allowed

end WasmFS
