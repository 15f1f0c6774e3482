import WasmFS.Descriptors.Table
import WasmFS.Namespace.Changes
import WasmFS.Source.Syscalls

/-!
# What the namespace calls do

One theorem for each system call lists all its outcomes in a well-formed tree.
Every failure leaves the state alone, since each check comes before the first
update.  The exception is a truncating `open` of a file that it may not
truncate.  That call has made a description by then, which no slot ever holds
(`Unchanged`).

On success the theorem gives the state with the operation of `Directory` or
`FileTable` that made it, and everything that was checked on the way.
-/

namespace WasmFS

/-- Nothing has changed but the trace.  A description that was made and dropped
again does not count. -/
structure Unchanged (s s' : State) : Prop where
  sameFiles : SameFiles s s'
  table : s'.table = s.table
  descriptions : ∀ o < s.nextDescription, s'.descriptions o = s.descriptions o
  next_le : s.nextDescription ≤ s'.nextDescription
  unused : ∀ o, s.nextDescription ≤ o → o < s'.nextDescription → (s'.descriptions o).uses = 0

namespace Unchanged

@[refl] theorem refl (s : State) : Unchanged s s :=
  ⟨.refl s, rfl, fun _ _ => rfl, Nat.le_refl _, fun _ hle hlt => absurd hlt (Nat.not_lt_of_le hle)⟩

theorem create (s : State) (f : FileId) (flags : Nat) :
    Unchanged s (OpenFileState.create s f flags).1 where
  sameFiles := OpenFileState.create_sameFiles s f flags
  table := OpenFileState.create_table s f flags
  descriptions _ ho := OpenFileState.create_of_ne s f flags (Nat.ne_of_lt ho)
  next_le := by
    rw [OpenFileState.create_nextDescription]
    exact Nat.le_succ _
  unused o hle hlt := OpenFileState.create_unused s f flags hle hlt

end Unchanged

namespace Syscall

variable {host : Host} {s : State}

/-! ## Creating -/

/-- What is checked before an entry is added. -/
structure Insertable (s : State) (path : Name) (dirfd : Nat) (parent : FileId) (leaf : Name) :
    Prop where
  parsed : (Path.parseParent s path dirfd).2 = .ok (parent, leaf)
  length : leaf.length ≤ WASMFS_NAME_MAX
  lookup : s.tree.lookup parent leaf = none
  linked : s.tree.forest.Linked parent

theorem mkdirat_cases (h : s.tree.WF) (host : Host) (dirfd : Nat) (path : Name) (mode : Nat) :
    (∃ e : Errno, mkdirat host s dirfd path mode = (s, e.neg)) ∨
    ∃ parent leaf, Insertable s path dirfd parent leaf ∧ (s.files parent).writable ∧
      mkdirat host s dirfd path mode =
        (Directory.inserted host s parent leaf (.directory [] [])
          ((mode &&& (S_IRWXUGO ||| S_ISVTX)) ||| S_IFDIR), 0) := by
  unfold mkdirat
  rw [Path.parseParent_state h]
  cases hp : (Path.parseParent s path dirfd).2 with
  | error e => exact Or.inl ⟨e, rfl⟩
  | ok parsed =>
      obtain ⟨parent, leaf⟩ := parsed
      unfold doMkdir
      simp only
      split
      · exact Or.inl ⟨.nametoolong, rfl⟩
      rename_i hlen
      rw [Directory.getChild_eq h]
      cases hl : s.tree.lookup parent leaf with
      | some child => exact Or.inl ⟨.exist, rfl⟩
      | none =>
          simp only
          split
          · exact Or.inl ⟨.acces, rfl⟩
          rename_i hw
          unfold Directory.insertDirectory
          by_cases hlinked : s.tree.forest.Linked parent
          · rw [Directory.insert_of_linked hlinked]
            exact Or.inr ⟨parent, leaf, ⟨hp, Nat.le_of_not_lt hlen, hl, hlinked⟩,
              by simpa using hw, rfl⟩
          · rw [Directory.insert_of_unlinked hlinked]
            exact Or.inl ⟨.io, rfl⟩

theorem symlinkat_cases (h : s.tree.WF) (host : Host) (target : Name) (newdirfd : Nat)
    (linkpath : Name) :
    (∃ e : Errno, symlinkat host s target newdirfd linkpath = .ok (s, e.neg)) ∨
    symlinkat host s target newdirfd linkpath = .error .lengthError ∨
    ∃ parent leaf, Insertable s linkpath newdirfd parent leaf ∧
      ∃ hlen : target.length ≤ Target.maxSize,
        symlinkat host s target newdirfd linkpath =
          .ok (Directory.inserted host s parent leaf (.symlink ⟨target, hlen⟩) S_IFLNK, 0) := by
  unfold symlinkat
  rw [Path.parseParent_state h]
  cases hp : (Path.parseParent s linkpath newdirfd).2 with
  | error e => exact Or.inl ⟨e, rfl⟩
  | ok parsed =>
      obtain ⟨parent, leaf⟩ := parsed
      simp only
      split
      · exact Or.inl ⟨.nametoolong, rfl⟩
      rename_i hlen
      rw [Directory.getChild_eq h]
      cases hl : s.tree.lookup parent leaf with
      | some child => exact Or.inl ⟨.exist, rfl⟩
      | none =>
          simp only
          split
          · rename_i htarget
            unfold Directory.insertSymlink
            by_cases hlinked : s.tree.forest.Linked parent
            · rw [Directory.insert_of_linked hlinked]
              exact Or.inr (Or.inr ⟨parent, leaf, ⟨hp, Nat.le_of_not_lt hlen, hl, hlinked⟩,
                htarget, rfl⟩)
            · rw [Directory.insert_of_unlinked hlinked]
              exact Or.inl ⟨.perm, rfl⟩
          · exact Or.inr (Or.inl rfl)

/-! ## Removing -/

theorem getNumEntries_eq (s : State) (d : FileId) :
    Directory.getNumEntries s d = (s.tree.node d).children.length := by
  unfold Directory.getNumEntries MemoryDirectory.getNumEntries Node.children Node.mounts
  rw [List.length_append, List.length_map, State.tree_node, File.node_entries, File.node_dcache]

/-- A directory without entries has no children. -/
theorem getNumEntries_eq_zero_iff {d : FileId} :
    Directory.getNumEntries s d = 0 ↔ ∀ n x, ¬ s.tree.forest.edge d n x := by
  rw [getNumEntries_eq, List.length_eq_zero_iff, Tree.children_eq_nil_iff]

/-- Only a directory has children. -/
theorem childless_of_not_isDirectory {d : FileId} (h : (s.files d).isDirectory = false) (n : Name)
    (x : FileId) : ¬ s.tree.forest.edge d n x := by
  intro he
  have hdir := Node.isDirectory_of_mem_children (x := s.tree.node d) he
  rw [State.tree_node, File.node_isDirectory, h] at hdir
  cases hdir

/-- What is checked before an entry is removed. -/
structure Removable (s : State) (path : Name) (dirfd : Nat) (removeDir : Bool) (parent : FileId)
    (leaf : Name) (file : FileId) : Prop where
  parsed : (Path.parseParent s path dirfd).2 = .ok (parent, leaf)
  lookup : s.tree.lookup parent leaf = some file
  ne_root : file ≠ s.rootDirectory
  isDirectory : (s.files file).isDirectory = removeDir
  childless : ∀ n x, ¬ s.tree.forest.edge file n x
  writable : (s.files parent).writable

theorem unlinkat_cases (h : s.tree.WF) (host : Host) (dirfd : Nat) (path : Name)
    (removeDir : Bool) :
    (∃ e : Errno, unlinkat host s dirfd path removeDir = (s, e.neg)) ∨
    ∃ parent leaf file, Removable s path dirfd removeDir parent leaf file ∧
      unlinkat host s dirfd path removeDir =
        ((MemoryDirectory.removeChild s parent leaf).updateMTime host parent, 0) := by
  generalize hr : unlinkat host s dirfd path removeDir = result
  unfold unlinkat at hr
  split at hr
  · exact Or.inl ⟨.inval, hr.symm⟩
  rw [Path.parseParent_state h] at hr
  cases hp : (Path.parseParent s path dirfd).2 with
  | error e =>
      rw [hp] at hr
      exact Or.inl ⟨e, hr.symm⟩
  | ok parsed =>
      obtain ⟨parent, leaf⟩ := parsed
      simp only [hp, Directory.getChild_eq h] at hr
      cases hl : s.tree.lookup parent leaf with
      | none =>
          rw [hl] at hr
          exact Or.inl ⟨.noent, hr.symm⟩
      | some file =>
          simp only [hl] at hr
          split at hr
          · exact Or.inl ⟨.busy, hr.symm⟩
          rename_i hroot
          split at hr
          · exact Or.inl ⟨.isdir, hr.symm⟩
          rename_i hisdir
          split at hr
          · exact Or.inl ⟨.notempty, hr.symm⟩
          rename_i hnotempty
          split at hr
          · exact Or.inl ⟨.notdir, hr.symm⟩
          rename_i hnotdir
          split at hr
          · exact Or.inl ⟨.acces, hr.symm⟩
          rename_i hw
          have hkind : (s.files file).isDirectory = removeDir := by
            cases hf : (s.files file).isDirectory <;> cases removeDir <;> simp_all
          have hwritable : (s.files parent).writable := by simpa using hw
          refine Or.inr ⟨parent, leaf, file, ⟨hp, hl, hroot, hkind, ?_, hwritable⟩, ?_⟩
          · cases hf : (s.files file).isDirectory with
            | false => exact childless_of_not_isDirectory hf
            | true =>
                refine getNumEntries_eq_zero_iff.mp (Nat.eq_zero_of_not_pos fun hpos => ?_)
                exact hnotempty ⟨hf, hpos⟩
          · have hguarded := h.guarded (d := parent) hwritable
            rw [State.tree_node, File.node_dcache] at hguarded
            rw [← hr, Directory.removeChild_of_dcache_nil hguarded]

/-! ## Renaming -/

/-- A walk that ends at the root has not met the file. -/
theorem walkUp_reachedRoot (h : s.tree.WF) {oldFile : FileId} (hne : oldFile ≠ s.rootDirectory)
    {fuel : Nat} {curr : FileId} (hw : walkUp s oldFile fuel curr = .reachedRoot) :
    s.tree.forest.Rooted curr ∧ ¬ s.tree.forest.Ancestor oldFile curr := by
  induction fuel generalizing curr with
  | zero => cases hw
  | succ fuel ih =>
      unfold walkUp at hw
      split at hw
      · rename_i hroot
        subst hroot
        exact ⟨.refl, fun ha => hne (h.forest.eq_root_of_ancestor ha)⟩
      split at hw
      · cases hw
      rename_i hold
      cases hp : s.getParent curr with
      | none =>
          rw [hp] at hw
          cases hw
      | some parent =>
          rw [hp] at hw
          obtain ⟨hrooted, hbelow⟩ := ih hw
          refine ⟨.step hp hrooted, fun ha => ?_⟩
          rcases ha.cases_parent hp with rfl | ha
          · exact hold rfl
          · exact hbelow ha

/-- The checks on a target that exists. -/
theorem checkOverwrite_ok {oldFile newFile : FileId}
    (h : checkOverwrite s oldFile newFile = .ok ()) :
    (∀ n x, ¬ s.tree.forest.edge newFile n x) ∧
      (s.files newFile).isDirectory = (s.files oldFile).isDirectory := by
  unfold checkOverwrite at h
  cases hnew : (s.files newFile).isDirectory <;> cases hold : (s.files oldFile).isDirectory
  · exact ⟨childless_of_not_isDirectory hnew, rfl⟩
  · simp [hnew, hold] at h
  · simp [hnew, hold] at h
  · refine ⟨getNumEntries_eq_zero_iff.mp (Nat.eq_zero_of_not_pos fun hpos => ?_), rfl⟩
    simp [hnew, hold, hpos] at h

/-- What is checked before the ancestors of the new parent are visited. -/
structure PassesChecks (s : State) (oldParent : FileId) (oldLeaf : Name) (newParent : FileId)
    (newLeaf : Name) (file : FileId) : Prop where
  length : newLeaf.length ≤ WASMFS_NAME_MAX
  lookup_old : s.tree.lookup oldParent oldLeaf = some file
  lookup_ne : s.tree.lookup newParent newLeaf ≠ some file
  ne_root : file ≠ s.rootDirectory
  lookup_ne_root : s.tree.lookup newParent newLeaf ≠ some s.rootDirectory
  writable_old : (s.files oldParent).writable
  writable_new : (s.files newParent).writable
  backend : (s.files oldParent).backend = (s.files newParent).backend

/-- What is checked before a file is moved. -/
structure Movable (s : State) (oldParent : FileId) (oldLeaf : Name) (newParent : FileId)
    (newLeaf : Name) (file p : FileId) : Prop extends
    PassesChecks s oldParent oldLeaf newParent newLeaf file where
  rooted : s.tree.forest.Rooted newParent
  not_above : ¬ s.tree.forest.Ancestor file newParent
  parent : (s.files file).parent = some p
  not_mounted : (s.files p).writable ∨ (s.files file).isDirectory
  overwrite : ∀ {newFile}, s.tree.lookup newParent newLeaf = some newFile →
    (∀ n x, ¬ s.tree.forest.edge newFile n x) ∧
      (s.files newFile).isDirectory = (s.files file).isDirectory

/-- What passes the walk and the checks on the target can be moved. -/
theorem PassesChecks.movable (h : s.tree.WF) {oldParent newParent file : FileId}
    {oldLeaf newLeaf : Name} (hold : (s.files oldParent).isDirectory)
    (hpasses : PassesChecks s oldParent oldLeaf newParent newLeaf file)
    (hwalk : walkUp s file (s.next + 1) newParent = .reachedRoot)
    (hcheck : (s.tree.lookup newParent newLeaf).elim (.ok ()) (checkOverwrite s file) = .ok ()) :
    ∃ p, Movable s oldParent oldLeaf newParent newLeaf file p := by
  obtain ⟨hrooted, hbelow⟩ := walkUp_reachedRoot h hpasses.ne_root hwalk
  have hdir : (s.tree.node oldParent).isDirectory := by
    rwa [State.tree_node, File.node_isDirectory]
  cases hp : (s.files file).parent with
  | none => exact absurd hp (h.linked_of_found hpasses.lookup_old)
  | some p =>
      refine ⟨p, hpasses, hrooted, hbelow, hp, ?_, fun hnew => ?_⟩
      · rcases h.lookup_cases hdir hpasses.lookup_old with hd | he
        · rw [State.tree_node, File.node_isDirectory] at hd
          exact Or.inr hd
        · have hpp : some oldParent = some p := (h.forest.edge_parent he).symm.trans hp
          cases hpp
          exact Or.inl hpasses.writable_old
      · rw [hnew] at hcheck
        exact checkOverwrite_ok hcheck

theorem Movable.insertMove (h : s.tree.WF) (host : Host) {oldParent newParent file p : FileId}
    {oldLeaf newLeaf : Name} (hm : Movable s oldParent oldLeaf newParent newLeaf file p) :
    Directory.insertMove host s newParent newLeaf file =
      .ok (Directory.moved host s newParent newLeaf file p, 0) := by
  refine Directory.insertMove_eq (h.forest.linked_of_rooted hm.rooted) hm.parent ?_ newLeaf
  -- the file is no special file, or its directory has no mounts
  rintro e he rfl
  rw [← File.node_dcache, ← State.tree_node] at he
  rcases hm.not_mounted with hpw | hfd
  · rw [h.guarded hpw] at he
    cases he
  · have hdev := h.mount_device he
    rw [State.tree_node, Node.device?_of_isDirectory (by simpa using hfd)] at hdev
    cases hdev

theorem renameParsed_cases (h : s.tree.WF) (host : Host) {oldParent : FileId}
    (hold : (s.files oldParent).isDirectory) (oldLeaf : Name) (newParent : FileId)
    (newLeaf : Name) :
    (∃ e : Errno, renameParsed host s oldParent oldLeaf newParent newLeaf = .ok (s, e.neg)) ∨
    (∃ fault file, PassesChecks s oldParent oldLeaf newParent newLeaf file ∧
      (walkUp s file (s.next + 1) newParent = .nullDeref ∨
        walkUp s file (s.next + 1) newParent = .outOfFuel) ∧
      renameParsed host s oldParent oldLeaf newParent newLeaf = .error fault) ∨
    (∃ file, s.tree.lookup oldParent oldLeaf = some file ∧
      s.tree.lookup newParent newLeaf = some file ∧
      renameParsed host s oldParent oldLeaf newParent newLeaf = .ok (s, 0)) ∨
    ∃ file p, Movable s oldParent oldLeaf newParent newLeaf file p ∧
      renameParsed host s oldParent oldLeaf newParent newLeaf =
        .ok (Directory.moved host s newParent newLeaf file p, 0) := by
  generalize hr : renameParsed host s oldParent oldLeaf newParent newLeaf = result
  unfold renameParsed at hr
  split at hr
  · exact Or.inl ⟨.nametoolong, hr.symm⟩
  rename_i hlen
  simp only [Directory.getChild_eq h] at hr
  cases hl : s.tree.lookup oldParent oldLeaf with
  | none =>
      rw [hl] at hr
      exact Or.inl ⟨.noent, hr.symm⟩
  | some file =>
      simp only [hl] at hr
      split at hr
      · rename_i hsame
        exact Or.inr (Or.inr (Or.inl ⟨file, rfl, hsame, hr.symm⟩))
      rename_i hne
      split at hr
      · exact Or.inl ⟨.busy, hr.symm⟩
      rename_i hroot
      split at hr
      · exact Or.inl ⟨.acces, hr.symm⟩
      rename_i hw
      split at hr
      · exact Or.inl ⟨.xdev, hr.symm⟩
      rename_i hbackend
      have hroot' : file ≠ s.rootDirectory ∧
          s.tree.lookup newParent newLeaf ≠ some s.rootDirectory := not_or.mp hroot
      have hw' : (s.files oldParent).writable ∧ (s.files newParent).writable := by
        simpa using hw
      have hpasses : PassesChecks s oldParent oldLeaf newParent newLeaf file :=
        ⟨Nat.le_of_not_lt hlen, hl, hne, hroot'.1, hroot'.2, hw'.1, hw'.2, not_not.mp hbackend⟩
      cases hwalk : walkUp s file (s.next + 1) newParent with
      | foundOld =>
          rw [hwalk] at hr
          exact Or.inl ⟨.inval, hr.symm⟩
      | nullDeref =>
          rw [hwalk] at hr
          exact Or.inr (Or.inl ⟨.nullDeref, file, hpasses, Or.inl hwalk, hr.symm⟩)
      | outOfFuel =>
          rw [hwalk] at hr
          exact Or.inr (Or.inl ⟨.diverges, file, hpasses, Or.inr hwalk, hr.symm⟩)
      | reachedRoot =>
          simp only [hwalk] at hr
          cases hcheck : (s.tree.lookup newParent newLeaf).elim (.ok ())
              (checkOverwrite s file) with
          | error e =>
              rw [hcheck] at hr
              exact Or.inl ⟨e, hr.symm⟩
          | ok u =>
              cases u
              rw [hcheck] at hr
              obtain ⟨p, hmov⟩ := hpasses.movable h hold hwalk hcheck
              exact Or.inr (Or.inr (Or.inr
                ⟨file, p, hmov, hr.symm.trans (hmov.insertMove h host)⟩))

theorem renameat_cases (h : s.tree.WF) (host : Host) (olddirfd : Nat) (oldpath : Name)
    (newdirfd : Nat) (newpath : Name) :
    (∃ e : Errno, renameat host s olddirfd oldpath newdirfd newpath = .ok (s, e.neg)) ∨
    ∃ oldParent oldLeaf newParent newLeaf,
      (Path.parseParent s oldpath olddirfd).2 = .ok (oldParent, oldLeaf) ∧
      (Path.parseParent s newpath newdirfd).2 = .ok (newParent, newLeaf) ∧
      renameat host s olddirfd oldpath newdirfd newpath =
        renameParsed host s oldParent oldLeaf newParent newLeaf := by
  unfold renameat
  rw [Path.parseParent_state h]
  cases hp : (Path.parseParent s oldpath olddirfd).2 with
  | error e => exact Or.inl ⟨e, rfl⟩
  | ok parsed =>
      obtain ⟨oldParent, oldLeaf⟩ := parsed
      simp only
      rw [Path.parseParent_state h]
      cases hp' : (Path.parseParent s newpath newdirfd).2 with
      | error e => exact Or.inl ⟨e, rfl⟩
      | ok parsed' =>
          obtain ⟨newParent, newLeaf⟩ := parsed'
          exact Or.inr ⟨oldParent, oldLeaf, newParent, newLeaf, rfl, rfl, rfl⟩

/-- What is parsed and found before a file is renamed. -/
structure NamesSource (s : State) (oldpath : Name) (olddirfd : Nat) (newpath : Name)
    (newdirfd : Nat) (oldParent : FileId) (oldLeaf : Name) (newParent : FileId) (newLeaf : Name)
    (file : FileId) : Prop where
  parsed_old : (Path.parseParent s oldpath olddirfd).2 = .ok (oldParent, oldLeaf)
  parsed_new : (Path.parseParent s newpath newdirfd).2 = .ok (newParent, newLeaf)
  lookup_old : s.tree.lookup oldParent oldLeaf = some file

/-- A rename that returns has failed, found that both names are of one file, or moved the
file. -/
theorem renameat_ok (h : s.tree.WF) {olddirfd newdirfd : Nat} {oldpath newpath : Name}
    {s' : State} {ret : Int}
    (hok : renameat host s olddirfd oldpath newdirfd newpath = .ok (s', ret)) :
    (s' = s ∧ ∃ e : Errno, ret = e.neg) ∨
    ∃ oldParent oldLeaf newParent newLeaf file,
      NamesSource s oldpath olddirfd newpath newdirfd oldParent oldLeaf newParent newLeaf file ∧
      ret = 0 ∧ ((s.tree.lookup newParent newLeaf = some file ∧ s' = s) ∨
        ∃ p, Movable s oldParent oldLeaf newParent newLeaf file p ∧
          s' = Directory.moved host s newParent newLeaf file p) := by
  rcases renameat_cases h host olddirfd oldpath newdirfd newpath with
    ⟨e, he⟩ | ⟨oldParent, oldLeaf, newParent, newLeaf, hp, hp', heq⟩
  · rw [he] at hok
    cases hok
    exact Or.inl ⟨rfl, e, rfl⟩
  rw [heq] at hok
  rcases renameParsed_cases h host (Path.parseParent_leaf h hp).1 oldLeaf newParent newLeaf with
    ⟨e, he⟩ | ⟨fault, _, -, -, he⟩ | ⟨file, hl, hl', he⟩ | ⟨file, p, hm, he⟩
  · rw [he] at hok
    cases hok
    exact Or.inl ⟨rfl, e, rfl⟩
  · rw [he] at hok
    cases hok
  · rw [he] at hok
    cases hok
    exact Or.inr ⟨oldParent, oldLeaf, newParent, newLeaf, file, ⟨hp, hp', hl⟩, rfl,
      Or.inl ⟨hl', rfl⟩⟩
  · rw [he] at hok
    cases hok
    exact Or.inr ⟨oldParent, oldLeaf, newParent, newLeaf, file, ⟨hp, hp', hm.lookup_old⟩, rfl,
      Or.inr ⟨p, hm, rfl⟩⟩

/-! ## Opening -/

/-- What is checked before an existing file is opened. -/
structure Openable (s : State) (child : FileId) (flags : Nat) : Prop where
  not_exclusive : ¬ (hasFlag flags O_EXCL ∧ hasFlag flags O_CREAT)
  directory : (s.files child).isDirectory → flags &&& O_ACCMODE = O_RDONLY
  readable : flags &&& O_ACCMODE = O_RDONLY ∨ flags &&& O_ACCMODE = O_RDWR →
    (s.files child).readable
  writable : flags &&& O_ACCMODE = O_WRONLY ∨ flags &&& O_ACCMODE = O_RDWR →
    (s.files child).writable
  isDirectory : hasFlag flags O_DIRECTORY → (s.files child).isDirectory
  truncatable : hasFlag flags O_TRUNC → (s.files child).isDataFile ∧ (s.files child).writable

/-- All checks of a data file pass but the one before it is truncated.  The file is
opened by then. -/
structure OpenedInVain (s : State) (child : FileId) (flags : Nat) : Prop where
  isDataFile : (s.files child).isDataFile
  truncates : hasFlag flags O_TRUNC
  not_writable : ¬ (s.files child).writable
  not_exclusive : ¬ (hasFlag flags O_EXCL ∧ hasFlag flags O_CREAT)
  readable : flags &&& O_ACCMODE = O_RDONLY → (s.files child).readable
  mode : ¬ (flags &&& O_ACCMODE = O_WRONLY ∨ flags &&& O_ACCMODE = O_RDWR)
  not_directory : ¬ hasFlag flags O_DIRECTORY

/-- What is left when an existing file is not opened. -/
inductive Refused (s : State) (child : FileId) (flags : Nat) : State → Prop where
  | early : Refused s child flags s
  | late : ((s.files child).isDataFile → OpenedInVain s child flags) →
      Refused s child flags (OpenFileState.create s child flags).1

theorem Refused.unchanged {child : FileId} {flags : Nat} {s' : State}
    (h : Refused s child flags s') : Unchanged s s' := by
  cases h with
  | early => exact .refl s
  | late hvain => exact .create s child flags

/-- The state in which an opened file is put into the table. -/
def opened (s : State) (child : FileId) (flags : Nat) : State :=
  if hasFlag flags O_TRUNC then
    (OpenFileState.create s child flags).1.modify child fun x => x.setBuffer Vec.empty
  else (OpenFileState.create s child flags).1

section

variable (s : State) (child : FileId) (flags : Nat)

theorem opened_table : (opened s child flags).table = s.table := by
  unfold opened
  split
  · exact OpenFileState.create_table s child flags
  · exact OpenFileState.create_table s child flags

theorem opened_next : (opened s child flags).next = s.next := by
  unfold opened
  split
  · exact (OpenFileState.create_sameFiles s child flags).next
  · exact (OpenFileState.create_sameFiles s child flags).next

theorem opened_trace :
    (opened s child flags).trace = (OpenFileState.create s child flags).1.trace := by
  unfold opened
  split <;> rfl

theorem opened_isDataFile :
    ((opened s child flags).files child).isDataFile = (s.files child).isDataFile := by
  have hfiles := (OpenFileState.create_sameFiles s child flags).files
  unfold opened
  split
  · rw [State.files_modify, hfiles, File.setBuffer_isDataFile]
  · rw [hfiles]

/-- The new description of a file that is opened. -/
theorem opened_self : ∃ dirents, (opened s child flags).descriptions s.nextDescription =
    { file := child, flags := flags, dirents := dirents } := by
  unfold opened
  split
  · exact OpenFileState.create_self s child flags
  · exact OpenFileState.create_self s child flags

theorem opened_of_ne {o : OpenId} (h : o ≠ s.nextDescription) :
    (opened s child flags).descriptions o = s.descriptions o := by
  unfold opened
  split
  · exact OpenFileState.create_of_ne s child flags h
  · exact OpenFileState.create_of_ne s child flags h

end

theorem openExisting_cases (s : State) (child : FileId) (flags : Nat) :
    (∃ (e : Errno) (s' : State), openExisting s child flags = .ok (s', e.neg) ∧
      Refused s child flags s') ∨
    (Openable s child flags ∧
      openExisting s child flags =
        FileTable.addEntry (opened s child flags) s.nextDescription) := by
  have hsnd := OpenFileState.create_snd s child flags
  have hlate := @Refused.late s child flags
  generalize hr : openExisting s child flags = result
  unfold openExisting at hr
  unfold opened
  rcases hc : OpenFileState.create s child flags with ⟨s₁, o⟩
  rw [hc] at hsnd hlate hr
  simp only at hsnd hlate hr
  subst hsnd
  by_cases hexcl : hasFlag flags O_EXCL ∧ hasFlag flags O_CREAT
  · rw [if_pos hexcl] at hr
    exact Or.inl ⟨.exist, s, hr.symm, .early⟩
  rw [if_neg hexcl] at hr
  split at hr
  · exact Or.inl ⟨.isdir, s, hr.symm, .early⟩
  rename_i hdir
  split at hr
  · exact Or.inl ⟨.acces, s, hr.symm, .early⟩
  rename_i hread
  split at hr
  · exact Or.inl ⟨.acces, s, hr.symm, .early⟩
  rename_i hwrite
  split at hr
  · exact Or.inl ⟨.notdir, s, hr.symm, .early⟩
  rename_i hnotdir
  have hopen : (hasFlag flags O_TRUNC → (s.files child).isDataFile ∧ (s.files child).writable) →
      Openable s child flags := by
    intro htrunc
    refine ⟨hexcl, fun hd => ?_, fun hacc => ?_, fun hacc => ?_, fun hflag => ?_, htrunc⟩
    · exact not_not.mp fun hacc => hdir ⟨hd, hacc⟩
    · exact not_not.mp fun hr => hread ⟨hacc, hr⟩
    · exact not_not.mp fun hw => hwrite ⟨hacc, hw⟩
    · exact not_not.mp fun hd => hnotdir ⟨hflag, hd⟩
  split at hr
  · rename_i htrunc
    rw [if_pos htrunc]
    split at hr
    · rename_i hdata
      exact Or.inl ⟨.isdir, s₁, hr.symm, hlate fun hd => absurd hd hdata⟩
    rename_i hdata
    split at hr
    · rename_i hw
      refine Or.inl ⟨.acces, s₁, hr.symm, hlate fun hd => ?_⟩
      refine ⟨hd, htrunc, hw, hexcl, fun hacc => ?_, fun hacc => hwrite ⟨hacc, hw⟩, fun hflag => ?_⟩
      · exact not_not.mp fun hr => hread ⟨Or.inl hacc, hr⟩
      · exact hnotdir ⟨hflag, File.not_isDirectory_of_isDataFile hd⟩
    rename_i hw
    exact Or.inr ⟨hopen fun _ => ⟨not_not.mp hdata, not_not.mp hw⟩, hr.symm⟩
  · rename_i htrunc
    rw [if_neg htrunc]
    exact Or.inr ⟨hopen fun hflag => absurd hflag htrunc, hr.symm⟩

/-- The file that `open` works on when the leaf is `c`: the target of a link, with
the count of links back at zero. -/
def openTarget (s : State) (parent c : FileId) : Except Errno FileId :=
  match (s.files c).target? with
  | none => .ok c
  | some target => (Path.getFileFrom s parent target).2

/-- What leads `open` to an existing file. -/
structure Resolves (s : State) (path : Name) (dirfd : Nat) (parent : FileId) (leaf : Name)
    (c child : FileId) : Prop where
  parsed : (Path.parseParent s path dirfd).2 = .ok (parent, leaf)
  length : leaf.length ≤ WASMFS_NAME_MAX
  lookup : s.tree.lookup parent leaf = some c
  target : openTarget s parent c = .ok child

/-- The file that `open` finds is linked. -/
theorem Resolves.linked (h : s.tree.WF) {path : Name} {dirfd : Nat} {parent c child : FileId}
    {leaf : Name} (hres : Resolves s path dirfd parent leaf c child) :
    s.tree.forest.Linked child := by
  have htarget := hres.target
  unfold openTarget at htarget
  split at htarget
  · cases htarget
    exact h.linked_of_found hres.lookup
  · exact Path.getFileFrom_linked h htarget

/-- What is left when no file is opened. -/
inductive OpenFails (s : State) (path : Name) (dirfd flags : Nat) : State → Prop where
  | early : OpenFails s path dirfd flags s
  | late {parent c child : FileId} {leaf : Name} {s' : State} :
      Resolves s path dirfd parent leaf c child →
      flags &&& O_ACCMODE = O_WRONLY ∨ flags &&& O_ACCMODE = O_RDONLY ∨
        flags &&& O_ACCMODE = O_RDWR →
      Refused s child flags s' → OpenFails s path dirfd flags s'

theorem OpenFails.unchanged {path : Name} {dirfd flags : Nat} {s' : State}
    (h : OpenFails s path dirfd flags s') : Unchanged s s' := by
  cases h with
  | early => exact .refl s
  | late _ _ hrefused => exact hrefused.unchanged

/-- The state in which a created file is put into the table. -/
def created (host : Host) (s : State) (parent : FileId) (leaf : Name) (flags mode : Nat) : State :=
  (OpenFileState.create
    (Directory.inserted host s parent leaf (.memory Vec.empty) ((mode &&& S_IALLUGO) ||| S_IFREG))
    s.next flags).1

section

variable (host : Host) (s : State) (parent : FileId) (leaf : Name) (flags mode : Nat)

theorem created_table : (created host s parent leaf flags mode).table = s.table :=
  OpenFileState.create_table ..

theorem created_next : (created host s parent leaf flags mode).next = s.next + 1 :=
  (OpenFileState.create_sameFiles ..).next

/-- The new description of a file that is created. -/
theorem created_self :
    ∃ dirents, (created host s parent leaf flags mode).descriptions s.nextDescription =
      { file := s.next, flags := flags, dirents := dirents } :=
  OpenFileState.create_self ..

theorem created_of_ne {o : OpenId} (h : o ≠ s.nextDescription) :
    (created host s parent leaf flags mode).descriptions o = s.descriptions o :=
  OpenFileState.create_of_ne _ _ _ h

theorem created_hooks : (created host s parent leaf flags mode).trace.hooks =
    if ((created host s parent leaf flags mode).files s.next).isDataFile then
      .opened s.next :: s.trace.hooks
    else s.trace.hooks := by
  have hfiles : (created host s parent leaf flags mode).files = (Directory.inserted host s parent
      leaf (.memory Vec.empty) ((mode &&& S_IALLUGO) ||| S_IFREG)).files :=
    (OpenFileState.create_sameFiles ..).files
  rw [hfiles]
  exact OpenFileState.create_hooks ..

end

theorem openMissing_cases (host : Host) (s : State) (parent : FileId) (leaf : Name)
    (flags mode : Nat) :
    (∃ e : Errno, openMissing host s parent leaf flags mode = .ok (s, e.neg)) ∨
    (hasFlag flags O_CREAT ∧ s.tree.forest.Linked parent ∧
      openMissing host s parent leaf flags mode =
        FileTable.addEntry (created host s parent leaf flags mode) s.nextDescription) := by
  unfold openMissing
  split
  · exact Or.inl ⟨.noent, rfl⟩
  rename_i hcreat
  split
  · exact Or.inl ⟨.noent, rfl⟩
  rename_i hparent
  have hlinked : s.tree.forest.Linked parent := by
    intro hp
    have hp : s.getParent parent = none := hp
    rw [hp] at hparent
    exact hparent rfl
  unfold Directory.insertDataFile
  rw [Directory.insert_of_linked hlinked]
  simp only
  rw [OpenFileState.create_snd]
  exact Or.inr ⟨not_not.mp hcreat, hlinked, rfl⟩

theorem openat2_cases (h : s.tree.WF) (host : Host) (dirfd : Nat) (path : Name)
    (oflags mode : Nat) :
    (∃ (e : Errno) (s' : State), openat2 host s dirfd path oflags mode = .ok (s', e.neg) ∧
      OpenFails s path dirfd oflags s') ∨
    (∃ parent leaf c child, Resolves s path dirfd parent leaf c child ∧ Openable s child oflags ∧
      openat2 host s dirfd path oflags mode =
        FileTable.addEntry (opened s child oflags) s.nextDescription) ∨
    (∃ parent leaf, Insertable s path dirfd parent leaf ∧ hasFlag oflags O_CREAT ∧
      openat2 host s dirfd path oflags mode =
        FileTable.addEntry (created host s parent leaf oflags mode) s.nextDescription) := by
  unfold openat2 doOpen
  rw [Path.parseParent_state h]
  simp only
  split
  · exact Or.inl ⟨.inval, s, rfl, .early⟩
  rename_i hmode
  have hmode : oflags &&& O_ACCMODE = O_WRONLY ∨ oflags &&& O_ACCMODE = O_RDONLY ∨
      oflags &&& O_ACCMODE = O_RDWR := by
    simpa only [ne_eq, not_and_or, not_not] using hmode
  cases hp : (Path.parseParent s path dirfd).2 with
  | error e => exact Or.inl ⟨e, s, rfl, .early⟩
  | ok parsed =>
      obtain ⟨parent, leaf⟩ := parsed
      simp only
      split
      · exact Or.inl ⟨.nametoolong, s, rfl, .early⟩
      rename_i hlen
      have hlen := Nat.le_of_not_lt hlen
      rw [Directory.getChild_eq h]
      cases hl : s.tree.lookup parent leaf with
      | none =>
          simp only
          rcases openMissing_cases host s parent leaf oflags mode with
            ⟨e, he⟩ | ⟨hcreat, hlinked, hadd⟩
          · exact Or.inl ⟨e, s, he, .early⟩
          · exact Or.inr (Or.inr ⟨parent, leaf, ⟨hp, hlen, hl, hlinked⟩, hcreat, hadd⟩)
      | some c =>
          simp only
          have hopen : ∀ {child r}, openTarget s parent c = .ok child →
              openExisting s child oflags = r →
              (∃ (e : Errno) (s' : State), r = .ok (s', e.neg) ∧
                OpenFails s path dirfd oflags s') ∨
              ∃ parent leaf c child, Resolves s path dirfd parent leaf c child ∧
                Openable s child oflags ∧
                r = FileTable.addEntry (opened s child oflags) s.nextDescription := by
            rintro child r htarget rfl
            have hres : Resolves s path dirfd parent leaf c child := ⟨hp, hlen, hl, htarget⟩
            rcases openExisting_cases s child oflags with ⟨e, s', he, hrefused⟩ | ⟨hopenable, hadd⟩
            · exact Or.inl ⟨e, s', he, .late hres hmode hrefused⟩
            · exact Or.inr ⟨parent, leaf, c, child, hres, hopenable, hadd⟩
          cases ht : (s.files c).target? with
          | none =>
              have htarget : openTarget s parent c = .ok c := by
                unfold openTarget
                rw [ht]
              simp only
              rcases hopen htarget rfl with herr | hok
              · exact Or.inl herr
              · exact Or.inr (Or.inl hok)
          | some target =>
              simp only
              split
              · exact Or.inl ⟨.loop, s, rfl, .early⟩
              rw [Path.getFileFrom_state h]
              cases hf : (Path.getFileFrom s parent target).2 with
              | error e => exact Or.inl ⟨e, s, rfl, .early⟩
              | ok child =>
                  have htarget : openTarget s parent c = .ok child := by
                    unfold openTarget
                    rw [ht]
                    exact hf
                  simp only
                  rcases hopen htarget rfl with herr | hok
                  · exact Or.inl herr
                  · exact Or.inr (Or.inl hok)

/-! ## Closing and renumbering -/

theorem close_sameFiles {s' : State} {fd : Nat} {ret : Int}
    (h : close s fd = .ok (s', ret)) : SameFiles s s' := by
  unfold close at h
  split at h
  · cases h
    exact .refl s
  split at h
  · cases h
  · rename_i hset
    cases h
    exact FileTable.setEntry_sameFiles hset
  · rename_i hset
    cases h
    exact (FileTable.setEntry_sameFiles hset).trans (.hook _ _)

theorem dup3_sameFiles {s' : State} {oldfd newfd ret : Int}
    (h : dup3 s oldfd newfd = .ok (s', ret)) : SameFiles s s' := by
  unfold dup3 at h
  split at h
  · cases h
    exact .refl s
  split at h
  · cases h
    exact .refl s
  split at h
  · cases h
    exact .refl s
  split at h
  · cases h
  · rename_i hset
    cases h
    exact FileTable.setEntry_sameFiles hset

end Syscall

end WasmFS
