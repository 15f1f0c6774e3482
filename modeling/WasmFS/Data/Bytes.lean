import WasmFS.Namespace.Calls

/-!
# Operations on names keep bytes

An operation on directories or paths keeps the buffer of a file that exists
(`KeepsBytes`), in every state, well formed or not.  The exception is an `open` that
truncates the file it finds (`Syscall.opens`).
-/

namespace WasmFS

open Lists

variable {host : Host} {s s' s'' : State} {f : FileId}

/-! ## Buffers -/

theorem File.setEntries_buffer? (x : File) (l : List (Name × FileId)) :
    (x.setEntries l).buffer? = x.buffer? := by
  simp only [setEntries, buffer?]
  cases x.body <;> rfl

theorem File.setDCache_buffer? (x : File) (l : List (Name × DCacheEntry)) :
    (x.setDCache l).buffer? = x.buffer? := by
  simp only [setDCache, buffer?]
  cases x.body <;> rfl

/-- The file `f` still exists and has the same buffer, if it exists. -/
structure KeepsBytes (f : FileId) (s s' : State) : Prop where
  next_le : s.next ≤ s'.next
  buffer : f < s.next → (s'.files f).buffer? = (s.files f).buffer?

namespace KeepsBytes

@[refl] theorem refl (s : State) : KeepsBytes f s s := ⟨Nat.le_refl _, fun _ => rfl⟩

theorem trans (h : KeepsBytes f s s') (h' : KeepsBytes f s' s'') : KeepsBytes f s s'' where
  next_le := Nat.le_trans h.next_le h'.next_le
  buffer hf := (h'.buffer (Nat.lt_of_lt_of_le hf h.next_le)).trans (h.buffer hf)

theorem of_files (hfiles : s'.files = s.files) (hnext : s'.next = s.next) : KeepsBytes f s s' where
  next_le := Nat.le_of_eq hnext.symm
  buffer _ := by rw [hfiles]

theorem of_sameFiles (h : SameFiles s s') : KeepsBytes f s s' := of_files h.files h.next

theorem modify (s : State) (d : FileId) {g : File → File} (hg : ∀ x, (g x).buffer? = x.buffer?) :
    KeepsBytes f s (s.modify d g) where
  next_le := Nat.le_refl _
  buffer _ := by
    by_cases hd : f = d
    · rw [hd, State.files_modify, hg]
    · rw [State.files_modify_of_ne s g hd]

/-- Another file may be changed in any way. -/
theorem modify_of_ne (s : State) {d : FileId} (g : File → File) (hd : f ≠ d) :
    KeepsBytes f s (s.modify d g) where
  next_le := Nat.le_refl _
  buffer _ := by rw [State.files_modify_of_ne s g hd]

theorem setParent (s : State) (d : FileId) (p : Option FileId) :
    KeepsBytes f s (s.setParent d p) := modify s d fun _ => rfl

theorem setEntries (s : State) (d : FileId) (l : File → List (Name × FileId)) :
    KeepsBytes f s (s.modify d fun x => x.setEntries (l x)) :=
  modify s d fun x => x.setEntries_buffer? (l x)

theorem setDCache (s : State) (d : FileId) (l : File → List (Name × DCacheEntry)) :
    KeepsBytes f s (s.modify d fun x => x.setDCache (l x)) :=
  modify s d fun x => x.setDCache_buffer? (l x)

theorem updateMTime (host : Host) (s : State) (d : FileId) :
    KeepsBytes f s (s.updateMTime host d) :=
  (modify s d (g := fun x => { x with mtime := host.now s.trace.calls }) fun _ => rfl).trans
    (of_files rfl rfl)

theorem alloc (s : State) (x : File) : KeepsBytes f s (s.alloc x).1 where
  next_le := Nat.le_succ _
  buffer hf := congrArg File.buffer? (Function.update_of_ne (Nat.ne_of_lt hf) ..)

/-! ## Directories -/

theorem cacheChild (s : State) (d : FileId) (name : Name) (child : FileId) (kind : DCacheKind) :
    KeepsBytes f s (Directory.cacheChild s d name child kind) := by
  simp only [Directory.cacheChild]
  split
  · exact (setDCache s d _).trans (setParent _ child _)
  · exact setParent s child _

theorem getChild (s : State) (d : FileId) (name : Name) :
    KeepsBytes f s (Directory.getChild s d name).1 := by
  simp only [Directory.getChild]
  split
  · exact refl s
  split
  · exact refl s
  split
  · exact refl s
  split
  · exact refl s
  split
  · exact refl s
  · exact cacheChild s d name _ _

theorem insert (host : Host) (s : State) (d : FileId) (name : Name) (body : Body) (mode : Nat) :
    KeepsBytes f s (Directory.insert host s d name body mode).1 := by
  simp only [Directory.insert]
  split
  · exact refl s
  · have hask : KeepsBytes f s s.ask := of_files rfl rfl
    exact (((hask.trans (alloc _ _)).trans (setEntries _ d _)).trans
      (cacheChild _ d name _ _)).trans (updateMTime host _ d)

theorem removeChildMemory (s : State) (d : FileId) (name : Name) :
    KeepsBytes f s (MemoryDirectory.removeChild s d name) := by
  simp only [MemoryDirectory.removeChild]
  split
  · exact refl s
  · exact (setParent s _ _).trans (setEntries _ d _)

theorem removeChild (host : Host) (s : State) (d : FileId) (name : Name) :
    KeepsBytes f s (Directory.removeChild host s d name).1 := by
  simp only [Directory.removeChild]
  split
  · exact (removeChildMemory s d name).trans (updateMTime host _ d)
  split
  · exact setDCache s d fun x => dcacheErase name x.dcache
  · exact (((removeChildMemory s d name).trans (setParent _ _ _)).trans (setDCache _ d _)).trans
      (updateMTime host _ d)

theorem moveCached (s : State) (d : FileId) (name : Name) (oldParent : FileId)
    (old : Option (Name × DCacheEntry)) :
    KeepsBytes f s (Directory.moveCached s d name oldParent old) := by
  cases old with
  | none => exact refl s
  | some old =>
      have hold : KeepsBytes f s (s.modify oldParent fun x =>
        x.setDCache (dcacheErase old.1 x.dcache)) := setDCache s oldParent _
      simp only [Directory.moveCached]
      split
      · exact hold.trans (setDCache _ d _)
      · exact (hold.trans (setParent _ _ _)).trans (setDCache _ d _)

theorem insertMove {d file : FileId} {name : Name} {ret : Int}
    (h : Directory.insertMove host s d name file = .ok (s', ret)) : KeepsBytes f s s' := by
  simp only [Directory.insertMove] at h
  split at h
  · cases h
    exact refl s
  split at h
  · cases h
  · rename_i oldParent _
    cases h
    have hmemory : KeepsBytes f s (MemoryDirectory.insertMove s d name file oldParent) :=
      ((setEntries s oldParent fun x => x.entries.eraseP fun e => e.2 == file).trans
        (removeChildMemory _ d name)).trans (setEntries _ d fun x => x.entries ++ [(name, file)])
    exact (((hmemory.trans (moveCached _ d name oldParent _)).trans (setParent _ file _)).trans
      (updateMTime host _ oldParent)).trans (updateMTime host _ d)

/-! ## Paths -/

theorem parseParent (s : State) (path : Name) (basefd : Nat) :
    KeepsBytes f s (Path.parseParent s path basefd).1 :=
  Path.parseParent_keeps (P := KeepsBytes f s) (fun d name h => h.trans (getChild _ d name)) path
    basefd (refl s)

theorem parseFile (s : State) (path : Name) (basefd : Nat) (links : Path.LinkBehavior) :
    KeepsBytes f s (Path.parseFile s path basefd links).1 :=
  Path.parseFile_keeps (P := KeepsBytes f s) (fun d name h => h.trans (getChild _ d name)) path
    basefd links (refl s)

theorem getFileFrom (s : State) (base : FileId) (path : Name) :
    KeepsBytes f s (Path.getFileFrom s base path).1 :=
  Path.getFileFrom_keeps (P := KeepsBytes f s) (fun d name h => h.trans (getChild _ d name)) base
    path (refl s)

end KeepsBytes

/-! ## System calls -/

theorem FileTable.addEntry_keepsBytes {o : OpenId} {ret : Int}
    (h : addEntry s o = .ok (s', ret)) : KeepsBytes f s s' :=
  .of_sameFiles (addEntry_sameFiles h)

namespace Syscall

theorem opened_keepsBytes {child : FileId} {flags : Nat} (hf : hasFlag flags O_TRUNC → f ≠ child) :
    KeepsBytes f s (opened s child flags) := by
  have hcreate : KeepsBytes f s (OpenFileState.create s child flags).1 :=
    .of_sameFiles (OpenFileState.create_sameFiles s child flags)
  unfold opened
  split
  · rename_i htrunc
    exact hcreate.trans (.modify_of_ne _ _ (hf htrunc))
  · exact hcreate

theorem openExisting_keepsBytes {child : FileId} {flags : Nat} {ret : Int}
    (hf : hasFlag flags O_TRUNC → f ≠ child) (h : openExisting s child flags = .ok (s', ret)) :
    KeepsBytes f s s' := by
  rcases openExisting_cases s child flags with ⟨e, s₁, he, hrefused⟩ | ⟨-, hadd⟩
  · cases he.symm.trans h
    exact .of_sameFiles hrefused.unchanged.sameFiles
  · rw [hadd] at h
    exact (opened_keepsBytes hf).trans (FileTable.addEntry_keepsBytes h)

theorem openMissing_keepsBytes {parent : FileId} {name : Name} {flags mode : Nat} {ret : Int}
    (h : openMissing host s parent name flags mode = .ok (s', ret)) : KeepsBytes f s s' := by
  simp only [openMissing, Directory.insertDataFile] at h
  have hinsert := KeepsBytes.insert (f := f) host s parent name (.memory Vec.empty)
    ((mode &&& S_IALLUGO) ||| S_IFREG)
  split at h
  · cases h
    exact .refl s
  split at h
  · cases h
    exact .refl s
  split at h
  · rename_i hins
    rw [hins] at hinsert
    cases h
    exact hinsert
  · rename_i hins
    rw [hins] at hinsert
    exact (hinsert.trans (.of_sameFiles (OpenFileState.create_sameFiles _ _ flags))).trans
      (FileTable.addEntry_keepsBytes h)

/-- The file that `openat2` works on, if it exists. -/
def opens (s : State) (dirfd : Nat) (path : Name) : Option FileId :=
  match Path.parseParent s path dirfd with
  | (_, .error _) => none
  | (s, .ok (parent, leaf)) =>
      match Directory.getChild s parent leaf with
      | (_, none) => none
      | (s, some child) =>
          match (s.files child).target? with
          | none => some child
          | some target => (Path.getFileFrom s parent target).2.toOption

theorem openat2_keepsBytes {dirfd : Nat} {path : Name} {oflags mode : Nat} {ret : Int}
    (hf : hasFlag oflags O_TRUNC → opens s dirfd path ≠ some f)
    (h : openat2 host s dirfd path oflags mode = .ok (s', ret)) : KeepsBytes f s s' := by
  have hparse := KeepsBytes.parseParent (f := f) s path dirfd
  simp only [openat2, doOpen] at h
  simp only [opens] at hf
  rcases hp : Path.parseParent s path dirfd with ⟨s₁, e | ⟨parent, leaf⟩⟩
  · rw [hp] at h hparse
    simp only at h
    split at h <;> cases h <;> exact hparse
  rw [hp] at h hparse hf
  simp only at h hf hparse
  split at h
  · cases h
    exact hparse
  split at h
  · cases h
    exact hparse
  have hchild := hparse.trans (.getChild s₁ parent leaf)
  rcases hc : Directory.getChild s₁ parent leaf with ⟨s₂, _ | child⟩
  · rw [hc] at h hchild
    exact hchild.trans (openMissing_keepsBytes h)
  rw [hc] at h hchild hf
  simp only at h hf hchild
  cases ht : (s₂.files child).target? with
  | none =>
      rw [ht] at h hf
      refine hchild.trans (openExisting_keepsBytes (fun htrunc heq => ?_) h)
      exact hf htrunc (congrArg some heq.symm)
  | some target =>
      rw [ht] at h hf
      simp only at h hf
      split at h
      · cases h
        exact hchild
      have hfile := hchild.trans (.getFileFrom s₂ parent target)
      rcases hg : Path.getFileFrom s₂ parent target with ⟨s₃, e | file⟩
      · rw [hg] at h hfile
        cases h
        exact hfile
      · rw [hg] at h hfile hf
        refine hfile.trans (openExisting_keepsBytes (fun htrunc heq => ?_) h)
        exact hf htrunc (congrArg some heq.symm)

theorem mkdirat_keepsBytes (host : Host) (s : State) (dirfd : Nat) (path : Name) (mode : Nat) :
    KeepsBytes f s (mkdirat host s dirfd path mode).1 := by
  have hparse := KeepsBytes.parseParent (f := f) s path dirfd
  simp only [mkdirat, doMkdir, Directory.insertDirectory]
  rcases hp : Path.parseParent s path dirfd with ⟨s₁, e | ⟨parent, leaf⟩⟩
  · rw [hp] at hparse
    exact hparse
  rw [hp] at hparse
  simp only at hparse ⊢
  split
  · exact hparse
  have hchild := hparse.trans (.getChild s₁ parent leaf)
  rcases hc : Directory.getChild s₁ parent leaf with ⟨s₂, _ | child⟩
  swap
  · rw [hc] at hchild
    exact hchild
  rw [hc] at hchild
  simp only at hchild ⊢
  split
  · exact hchild
  have hinsert := hchild.trans (.insert host s₂ parent leaf (.directory [] [])
    ((mode &&& (S_IRWXUGO ||| S_ISVTX)) ||| S_IFDIR))
  split
  · rename_i hins
    rw [hins] at hinsert
    exact hinsert
  · rename_i hins
    rw [hins] at hinsert
    exact hinsert

theorem symlinkat_keepsBytes {target linkpath : Name} {newdirfd : Nat} {ret : Int}
    (h : symlinkat host s target newdirfd linkpath = .ok (s', ret)) : KeepsBytes f s s' := by
  have hparse := KeepsBytes.parseParent (f := f) s linkpath newdirfd
  simp only [symlinkat, Directory.insertSymlink] at h
  rcases hp : Path.parseParent s linkpath newdirfd with ⟨s₁, e | ⟨parent, leaf⟩⟩
  · rw [hp] at h hparse
    cases h
    exact hparse
  rw [hp] at h hparse
  simp only at h hparse
  split at h
  · cases h
    exact hparse
  have hchild := hparse.trans (.getChild s₁ parent leaf)
  rcases hc : Directory.getChild s₁ parent leaf with ⟨s₂, _ | child⟩
  swap
  · rw [hc] at h hchild
    cases h
    exact hchild
  rw [hc] at h hchild
  simp only at h hchild
  split at h
  swap
  · cases h
  rename_i hlen
  have hinsert := hchild.trans (.insert host s₂ parent leaf (.symlink ⟨target, hlen⟩) S_IFLNK)
  split at h
  · rename_i hins
    rw [hins] at hinsert
    cases h
    exact hinsert
  · rename_i hins
    rw [hins] at hinsert
    cases h
    exact hinsert

theorem unlinkat_keepsBytes (host : Host) (s : State) (dirfd : Nat) (path : Name)
    (removeDir : Bool) : KeepsBytes f s (unlinkat host s dirfd path removeDir).1 := by
  have hparse := KeepsBytes.parseParent (f := f) s path dirfd
  simp only [unlinkat]
  split
  · exact .refl s
  rcases hp : Path.parseParent s path dirfd with ⟨s₁, e | ⟨parent, leaf⟩⟩
  · rw [hp] at hparse
    exact hparse
  rw [hp] at hparse
  simp only at hparse ⊢
  have hchild := hparse.trans (.getChild s₁ parent leaf)
  rcases hc : Directory.getChild s₁ parent leaf with ⟨s₂, _ | file⟩
  · rw [hc] at hchild
    exact hchild
  rw [hc] at hchild
  simp only at hchild ⊢
  split
  · exact hchild
  split
  · exact hchild
  split
  · exact hchild
  split
  · exact hchild
  split
  · exact hchild
  · exact hchild.trans (.removeChild host s₂ parent leaf)

theorem renameParsed_keepsBytes {oldParent newParent : FileId} {oldName newName : Name} {ret : Int}
    (h : renameParsed host s oldParent oldName newParent newName = .ok (s', ret)) :
    KeepsBytes f s s' := by
  have hchild := KeepsBytes.getChild (f := f) s oldParent oldName
  simp only [renameParsed] at h
  split at h
  · cases h
    exact .refl s
  rcases hc : Directory.getChild s oldParent oldName with ⟨s₁, oldFile⟩
  rw [hc] at h hchild
  simp only at h hchild
  have hchild' := hchild.trans (.getChild s₁ newParent newName)
  rcases hc' : Directory.getChild s₁ newParent newName with ⟨s₂, newFile⟩
  rw [hc'] at h hchild'
  simp only at h hchild'
  cases oldFile with
  | none =>
      cases h
      exact hchild'
  | some file =>
      simp only at h
      split at h
      · cases h
        exact hchild'
      split at h
      · cases h
        exact hchild'
      split at h
      · cases h
        exact hchild'
      split at h
      · cases h
        exact hchild'
      split at h
      · cases h
        exact hchild'
      · cases h
      · cases h
      · split at h
        · cases h
          exact hchild'
        · exact hchild'.trans (.insertMove h)

theorem renameat_keepsBytes {olddirfd newdirfd : Nat} {oldpath newpath : Name} {ret : Int}
    (h : renameat host s olddirfd oldpath newdirfd newpath = .ok (s', ret)) :
    KeepsBytes f s s' := by
  have hparse := KeepsBytes.parseParent (f := f) s oldpath olddirfd
  simp only [renameat] at h
  rcases hp : Path.parseParent s oldpath olddirfd with ⟨s₁, e | ⟨oldParent, oldName⟩⟩
  · rw [hp] at h hparse
    cases h
    exact hparse
  rw [hp] at h hparse
  simp only at h hparse
  have hparse' := hparse.trans (.parseParent s₁ newpath newdirfd)
  rcases hp' : Path.parseParent s₁ newpath newdirfd with ⟨s₂, e | ⟨newParent, newName⟩⟩
  · rw [hp'] at h hparse'
    cases h
    exact hparse'
  · rw [hp'] at h hparse'
    exact hparse'.trans (renameParsed_keepsBytes h)

end Syscall

end WasmFS
