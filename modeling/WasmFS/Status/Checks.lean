import WasmFS.Status.Failures

/-!
# The checks of the system calls

For each system call a predicate on the state before it says that no check fails.
A predicate follows the checks in their order, in the states that the parser and
the lookups leave, and it is meant for every state.  `Outcome` says that the call
succeeds if and only if the predicate holds, and reports an error otherwise.
-/

namespace WasmFS

/-- A call returns a good number if it can succeed, else the negative of an error
number. -/
def Outcome (can good : Prop) (ret : Int) : Prop :=
  (can ∧ good) ∨ (¬ can ∧ ∃ e : Errno, ret = e.neg)

theorem Outcome.fails {can good : Prop} (e : Errno) (h : ¬ can) : Outcome can good e.neg :=
  Or.inr ⟨h, e, rfl⟩

theorem Outcome.succeeds {can good : Prop} {ret : Int} (h : can) (hgood : good) :
    Outcome can good ret :=
  Or.inl ⟨h, hgood⟩

namespace Syscall

variable {host : Host} {s s' : State} {ret : Int}

/-! ## Descriptors, sizes and times -/

/-- `setSize` works on memory files only. -/
def CanSetSize (s : State) (f : FileId) : Prop := (s.files f).buffer? ≠ none

theorem setSize_outcome {f : FileId} {size : Int}
    (hrun : DataFile.setSize s f size = .ok (s', ret)) :
    Outcome (CanSetSize s f) (ret = 0) ret := by
  simp only [DataFile.setSize] at hrun
  simp only [CanSetSize, File.buffer?]
  cases hbody : (s.files f).body with
  | memory buffer =>
      simp only [hbody] at hrun
      split at hrun
      · cases hrun
      · cases hrun
        exact .succeeds (by simp) rfl
  | device dev =>
      simp only [hbody] at hrun
      cases hrun
      exact .fails .perm (by simp)
  | directory entries dcache =>
      simp only [hbody] at hrun
      cases hrun
      exact .fails .perm (by simp)
  | symlink target =>
      simp only [hbody] at hrun
      cases hrun
      exact .fails .perm (by simp)

/-- The checks of `__syscall_fallocate`. -/
def CanAllocate (s : State) (fd : Nat) (offset len : Int) : Prop :=
  match FileTable.getEntry s fd with
  | none => False
  | some o =>
      let f := (s.descriptions o).file
      (s.files f).isDataFile ∧ (s.files f).writable ∧ 0 ≤ offset ∧ 0 < len ∧
        (s64 (offset + len) > (s.files f).getSize → CanSetSize s f)

theorem fallocate_outcome {fd : Nat} {offset len : Int}
    (hrun : fallocate s fd offset len = .ok (s', ret)) :
    Outcome (CanAllocate s fd offset len) (ret = 0) ret := by
  simp only [fallocate] at hrun
  simp only [CanAllocate]
  cases ho : FileTable.getEntry s fd with
  | none =>
      simp only [ho] at hrun
      cases hrun
      exact .fails .badf id
  | some o =>
      simp only [ho] at hrun
      split at hrun
      · rename_i hdata
        cases hrun
        exact .fails .nodev fun h => hdata h.1
      rename_i hdata
      split at hrun
      · rename_i hwritable
        cases hrun
        exact .fails .badf fun h => hwritable h.2.1
      rename_i hwritable
      split at hrun
      · rename_i hrange
        cases hrun
        exact .fails .inval fun h => by omega
      rename_i hrange
      split at hrun
      · rename_i hgrow
        rcases setSize_outcome hrun with ⟨hcan, hret⟩ | ⟨hcan, e, hret⟩
        · exact .succeeds ⟨not_not.mp hdata, not_not.mp hwritable, by omega, by omega,
            fun _ => hcan⟩ hret
        · exact Or.inr ⟨fun h => hcan (h.2.2.2.2 hgrow), e, hret⟩
      · rename_i hgrow
        cases hrun
        exact .succeeds ⟨not_not.mp hdata, not_not.mp hwritable, by omega, by omega,
          fun h => absurd h hgrow⟩ rfl

/-- The checks of `__syscall_ftruncate64`. -/
def CanTruncate (s : State) (fd : Nat) (size : Int) : Prop :=
  match FileTable.getEntry s fd with
  | none => False
  | some o =>
      let f := (s.descriptions o).file
      (s.files f).isDataFile ∧ (s.files f).writable ∧ 0 ≤ size ∧ CanSetSize s f

theorem ftruncate64_outcome {fd : Nat} {size : Int}
    (hrun : ftruncate64 s fd size = .ok (s', ret)) :
    Outcome (CanTruncate s fd size) (ret = 0) ret := by
  simp only [ftruncate64, doTruncate] at hrun
  simp only [CanTruncate]
  cases ho : FileTable.getEntry s fd with
  | none =>
      simp only [ho] at hrun
      cases hrun
      exact .fails .badf id
  | some o =>
      simp only [ho] at hrun
      by_cases hdata : (s.files (s.descriptions o).file).isDataFile
      · by_cases hwritable : (s.files (s.descriptions o).file).writable
        · by_cases hsize : size < 0
          · simp only [hdata, hwritable, hsize, not_true, if_false, if_true] at hrun
            cases hrun
            exact .fails .inval fun h => absurd hsize (Int.not_lt.mpr h.2.2.1)
          · simp only [hdata, hwritable, hsize, not_true, if_false] at hrun
            split at hrun
            · cases hrun
            rename_i s₁ ret₁ hset
            cases hrun
            rcases setSize_outcome hset with ⟨hcan, hret⟩ | ⟨hcan, e, hret⟩
            · rw [hret]
              exact .succeeds ⟨hdata, hwritable, Int.not_lt.mp hsize, hcan⟩ rfl
            · rw [hret]
              -- one error number is exchanged for another
              refine Or.inr ⟨fun h => hcan h.2.2.2, ?_⟩
              split
              · exact ⟨.inval, rfl⟩
              · exact ⟨e, rfl⟩
        · simp only [hdata, hwritable] at hrun
          cases hrun
          exact .fails .inval fun h => hwritable h.2.1
      · simp only [hdata] at hrun
        cases hrun
        exact .fails .isdir fun h => hdata h.1

theorem set_times_outcome (host : Host) (s : State) (fd : Nat) (atim mtim : UInt64) :
    Outcome (FileTable.getEntry s fd ≠ none)
      ((SystemCall.runSetTimes host s fd atim mtim).2 = 0)
      (SystemCall.runSetTimes host s fd atim mtim).2 := by
  simp only [SystemCall.runSetTimes]
  cases FileTable.getEntry s fd with
  | none => exact .fails .badf (not_not.mpr rfl)
  | some o => exact .succeeds (Option.some_ne_none o) rfl

/-- The checks of `__syscall_dup3`. -/
def CanDup (s : State) (oldfd newfd : Int) : Prop :=
  FileTable.getEntry s (u32 oldfd) ≠ none ∧ 0 ≤ newfd ∧ oldfd ≠ newfd

theorem dup3_outcome {oldfd newfd : Int} (hrun : dup3 s oldfd newfd = .ok (s', ret)) :
    Outcome (CanDup s oldfd newfd) (ret = newfd) ret := by
  simp only [dup3] at hrun
  simp only [CanDup]
  cases ho : FileTable.getEntry s (u32 oldfd) with
  | none =>
      simp only [ho] at hrun
      cases hrun
      exact .fails .badf fun h => h.1 rfl
  | some o =>
      simp only [ho] at hrun
      split at hrun
      · rename_i hneg
        cases hrun
        exact .fails .badf fun h => absurd hneg (Int.not_lt.mpr h.2.1)
      rename_i hpos
      split at hrun
      · rename_i hsame
        cases hrun
        exact .fails .inval fun h => h.2.2 hsame
      rename_i hne
      split at hrun
      · cases hrun
      · cases hrun
        exact .succeeds ⟨Option.some_ne_none o, Int.not_lt.mp hpos, hne⟩ rfl

/-- The checks of `__syscall_getdents64`. -/
def CanList (s : State) (fd : Nat) (count : UInt32) : Prop :=
  sizeofDirent ≤ count.toNat ∧
    match FileTable.getEntry s fd with
    | none => False
    | some o => (s.files (s.descriptions o).file).isDirectory

theorem getdents64_outcome (s : State) (fd : Nat) (count : UInt32) :
    Outcome (CanList s fd count) (∀ e : Errno, (getdents64 s fd count.toNat).2.1 ≠ e.neg)
      (getdents64 s fd count.toNat).2.1 := by
  simp only [getdents64, CanList]
  by_cases hcount : count.toNat / sizeofDirent = 0
  · simp only [if_pos hcount]
    refine .fails .inval fun h => ?_
    have hsize := h.1
    simp only [sizeofDirent] at hcount hsize
    omega
  have hsize : sizeofDirent ≤ count.toNat := by
    simp only [sizeofDirent] at hcount ⊢
    omega
  simp only [if_neg hcount]
  cases ho : FileTable.getEntry s fd with
  | none => exact .fails .badf fun h => h.2
  | some o =>
      simp only
      by_cases hdir : (s.files (s.descriptions o).file).isDirectory
      · simp only [hdir, not_true, if_false]
        split
        · exact .succeeds ⟨hsize, trivial⟩ fun e => e.neg_ne_zero.symm
        · exact .succeeds ⟨hsize, trivial⟩ s32_bytes_ne_neg
      · simp only [hdir]
        exact .fails .notdir fun h => by simpa using h.2

/-! ## Creating -/

/-- `Directory.insert` refuses an unlinked directory only. -/
theorem insert_isSome (host : Host) (s : State) (d : FileId) (name : Name) (body : Body)
    (mode : Nat) :
    (Directory.insert host s d name body mode).2.isSome ↔ s.getParent d ≠ none := by
  simp only [Directory.insert]
  cases s.getParent d <;> simp

/-- The checks of `__syscall_mkdirat`. -/
def CanMkdir (s : State) (dirfd : Nat) (path : Name) : Prop :=
  match Path.parseParent s path dirfd with
  | (_, .error _) => False
  | (s, .ok (parent, leaf)) =>
      leaf.length ≤ WASMFS_NAME_MAX ∧
        match Directory.getChild s parent leaf with
        | (_, some _) => False
        | (s, none) => (s.files parent).writable ∧ s.getParent parent ≠ none

theorem mkdirat_outcome (host : Host) (s : State) (dirfd : Nat) (path : Name) (mode : Nat) :
    Outcome (CanMkdir s dirfd path) ((mkdirat host s dirfd path mode).2 = 0)
      (mkdirat host s dirfd path mode).2 := by
  simp only [mkdirat, doMkdir, CanMkdir]
  rcases Path.parseParent s path dirfd with ⟨s₁, e | ⟨parent, leaf⟩⟩
  · exact .fails e id
  simp only
  by_cases hlen : leaf.length > WASMFS_NAME_MAX
  · rw [if_pos hlen]
    exact .fails .nametoolong fun h => Nat.not_lt_of_le h.1 hlen
  rw [if_neg hlen]
  rcases Directory.getChild s₁ parent leaf with ⟨s₂, _ | child⟩
  · simp only
    by_cases hwritable : (s₂.files parent).writable
    · rw [if_neg (not_not.mpr hwritable)]
      have hsome := insert_isSome host s₂ parent leaf (.directory [] [])
        ((mode &&& (S_IRWXUGO ||| S_ISVTX)) ||| S_IFDIR)
      simp only [Directory.insertDirectory]
      rcases hins : Directory.insert host s₂ parent leaf (.directory [] [])
        ((mode &&& (S_IRWXUGO ||| S_ISVTX)) ||| S_IFDIR) with ⟨s₃, _ | created⟩ <;>
        rw [hins] at hsome
      · exact .fails .io fun h => by simpa using hsome.mpr h.2.2
      · exact .succeeds ⟨Nat.le_of_not_lt hlen, hwritable, hsome.mp rfl⟩ rfl
    · rw [if_pos hwritable]
      exact .fails .acces fun h => hwritable h.2.1
  · exact .fails .exist fun h => h.2

/-- The checks of `__syscall_symlinkat`. -/
def CanSymlink (s : State) (newdirfd : Nat) (linkpath : Name) : Prop :=
  match Path.parseParent s linkpath newdirfd with
  | (_, .error _) => False
  | (s, .ok (parent, leaf)) =>
      leaf.length ≤ WASMFS_NAME_MAX ∧
        match Directory.getChild s parent leaf with
        | (_, some _) => False
        | (s, none) => s.getParent parent ≠ none

theorem symlinkat_outcome {target linkpath : Name} {newdirfd : Nat}
    (hrun : symlinkat host s target newdirfd linkpath = .ok (s', ret)) :
    Outcome (CanSymlink s newdirfd linkpath) (ret = 0) ret := by
  simp only [symlinkat] at hrun
  simp only [CanSymlink]
  rcases hp : Path.parseParent s linkpath newdirfd with ⟨s₁, e | ⟨parent, leaf⟩⟩
  · simp only [hp] at hrun
    cases hrun
    exact .fails e id
  simp only [hp] at hrun
  split at hrun
  · rename_i hlen
    cases hrun
    exact .fails .nametoolong fun h => Nat.not_lt_of_le h.1 hlen
  rename_i hlen
  rcases hc : Directory.getChild s₁ parent leaf with ⟨s₂, _ | child⟩
  · simp only [hc] at hrun ⊢
    split at hrun
    · rename_i htarget
      have hsome := insert_isSome host s₂ parent leaf (.symlink ⟨target, htarget⟩) S_IFLNK
      simp only [Directory.insertSymlink] at hrun
      split at hrun <;> rename_i hins <;> rw [hins] at hsome <;> cases hrun
      · exact .fails .perm fun h => by simpa using hsome.mpr h.2
      · exact .succeeds ⟨Nat.le_of_not_lt hlen, hsome.mp rfl⟩ rfl
    · cases hrun
  · simp only [hc] at hrun ⊢
    cases hrun
    exact .fails .exist fun h => h.2

/-! ## Opening -/

theorem openExisting_of_openable {child : FileId} {flags : Nat} (h : Openable s child flags) :
    openExisting s child flags =
      FileTable.addEntry (opened s child flags) s.nextDescription := by
  have hsnd := OpenFileState.create_snd s child flags
  simp only [openExisting, opened]
  rcases hc : OpenFileState.create s child flags with ⟨s₁, o⟩
  rw [hc] at hsnd
  simp only at hsnd ⊢
  subst hsnd
  rw [if_neg h.not_exclusive, if_neg fun hd => hd.2 (h.directory hd.1),
    if_neg fun hr => hr.2 (h.readable hr.1), if_neg fun hw => hw.2 (h.writable hw.1),
    if_neg fun hd => hd.2 (h.isDirectory hd.1)]
  split
  · rename_i htrunc
    obtain ⟨hdata, hwritable⟩ := h.truncatable htrunc
    rw [if_neg (not_not.mpr hdata), if_neg (not_not.mpr hwritable)]
  · rfl

theorem openExisting_outcome {child : FileId} {flags : Nat}
    (hrun : openExisting s child flags = .ok (s', ret)) :
    Outcome (Openable s child flags) (0 ≤ ret) ret := by
  by_cases hopen : Openable s child flags
  · rw [openExisting_of_openable hopen] at hrun
    exact .succeeds hopen (FileTable.addEntry_nonneg hrun)
  · rcases openExisting_cases s child flags with ⟨e, s₁, he, -⟩ | ⟨h, -⟩
    · rw [he] at hrun
      cases hrun
      exact .fails e hopen
    · exact absurd h hopen

theorem openMissing_outcome {parent : FileId} {leaf : Name} {flags mode : Nat}
    (hrun : openMissing host s parent leaf flags mode = .ok (s', ret)) :
    Outcome (hasFlag flags O_CREAT ∧ s.getParent parent ≠ none) (0 ≤ ret) ret := by
  simp only [openMissing] at hrun
  by_cases hcreat : hasFlag flags O_CREAT
  · rw [if_neg (not_not.mpr hcreat)] at hrun
    by_cases hparent : s.getParent parent = none
    · rw [if_pos (Option.isNone_iff_eq_none.mpr hparent)] at hrun
      cases hrun
      exact .fails .noent fun h => h.2 hparent
    · rw [if_neg fun h => hparent (Option.isNone_iff_eq_none.mp h)] at hrun
      have hsome := (insert_isSome host s parent leaf (.memory Vec.empty)
        ((mode &&& S_IALLUGO) ||| S_IFREG)).mpr hparent
      simp only [Directory.insertDataFile] at hrun
      rcases hins : Directory.insert host s parent leaf (.memory Vec.empty)
        ((mode &&& S_IALLUGO) ||| S_IFREG) with ⟨s₁, _ | created⟩ <;>
        rw [hins] at hrun hsome
      · cases hsome
      · exact .succeeds ⟨hcreat, hparent⟩ (FileTable.addEntry_nonneg hrun)
  · rw [if_pos hcreat] at hrun
    cases hrun
    exact .fails .noent fun h => hcreat h.1

/-- The checks of `__syscall_openat2`. -/
def CanOpen (s : State) (dirfd : Nat) (path : Name) (oflags : Nat) : Prop :=
  (oflags &&& O_ACCMODE = O_WRONLY ∨ oflags &&& O_ACCMODE = O_RDONLY ∨
    oflags &&& O_ACCMODE = O_RDWR) ∧
    match Path.parseParent s path dirfd with
    | (_, .error _) => False
    | (s, .ok (parent, leaf)) =>
        leaf.length ≤ WASMFS_NAME_MAX ∧
          match Directory.getChild s parent leaf with
          | (s, none) => hasFlag oflags O_CREAT ∧ s.getParent parent ≠ none
          | (s, some child) =>
              match (s.files child).target? with
              | none => Openable s child oflags
              | some target =>
                  ¬ hasFlag oflags O_NOFOLLOW ∧
                    match Path.getFileFrom s parent target with
                    | (_, .error _) => False
                    | (s, .ok child) => Openable s child oflags

theorem openat2_outcome {dirfd : Nat} {path : Name} {oflags mode : Nat}
    (hrun : openat2 host s dirfd path oflags mode = .ok (s', ret)) :
    Outcome (CanOpen s dirfd path oflags) (0 ≤ ret) ret := by
  simp only [openat2, doOpen] at hrun
  simp only [CanOpen]
  split at hrun
  · rename_i hmode
    cases hrun
    exact .fails .inval fun h => h.1.elim hmode.1 fun h => h.elim hmode.2.1 hmode.2.2
  rename_i hmode
  have hmode : oflags &&& O_ACCMODE = O_WRONLY ∨ oflags &&& O_ACCMODE = O_RDONLY ∨
      oflags &&& O_ACCMODE = O_RDWR := by
    by_contra hnot
    simp only [not_or] at hnot
    exact hmode hnot
  simp only [hmode, true_and]
  rcases hp : Path.parseParent s path dirfd with ⟨s₁, e | ⟨parent, leaf⟩⟩ <;>
    simp only [hp] at hrun ⊢
  · cases hrun
    exact .fails e id
  split at hrun
  · rename_i hlen
    cases hrun
    exact .fails .nametoolong fun h => Nat.not_lt_of_le h.1 hlen
  rename_i hlen
  simp only [Nat.le_of_not_lt hlen, true_and]
  rcases hc : Directory.getChild s₁ parent leaf with ⟨s₂, _ | child⟩ <;>
    simp only [hc] at hrun ⊢
  · exact openMissing_outcome hrun
  rcases ht : (s₂.files child).target? with _ | target <;> simp only [ht] at hrun ⊢
  · exact openExisting_outcome hrun
  split at hrun
  · rename_i hnofollow
    cases hrun
    exact .fails .loop fun h => h.1 hnofollow
  rename_i hnofollow
  simp only [hnofollow, Bool.false_eq_true, not_false_iff, true_and]
  rcases hf : Path.getFileFrom s₂ parent target with ⟨s₃, e | file⟩ <;>
    simp only [hf] at hrun ⊢
  · cases hrun
    exact .fails e id
  · exact openExisting_outcome hrun

/-! ## Looking up -/

/-- The path leads to a file. -/
def CanStat (s : State) (dirfd : Nat) (path : Name) : Prop :=
  match Path.parseFile s path dirfd .followLinks with
  | (_, .error _) => False
  | (_, .ok _) => True

theorem stat_outcome (s : State) (dirfd : Nat) (path : Name) :
    Outcome (CanStat s dirfd path) ((SystemCall.runStat s dirfd path).2 = 0)
      (SystemCall.runStat s dirfd path).2 := by
  simp only [SystemCall.runStat, CanStat]
  rcases Path.parseFile s path dirfd .followLinks with ⟨s₁, e | file⟩
  · exact .fails e id
  · exact .succeeds trivial rfl

/-- The path leads to a symbolic link. -/
def CanReadlink (s : State) (dirfd : Nat) (path : Name) : Prop :=
  match Path.parseFile s path dirfd .noFollowLinks with
  | (_, .error _) => False
  | (s, .ok file) => (s.files file).target? ≠ none

theorem length_target_le {file : File} {target : Name} (h : file.target? = some target) :
    target.length ≤ Target.maxSize := by
  simp only [File.target?] at h
  split at h
  · rename_i t _
    cases h
    exact t.size_le
  · cases h

theorem readlinkat_outcome (s : State) (dirfd : Nat) (path : Name) (bufsize : Nat) :
    Outcome (CanReadlink s dirfd path) (0 ≤ (readlinkat s dirfd path bufsize).2.1)
      (readlinkat s dirfd path bufsize).2.1 := by
  simp only [readlinkat, CanReadlink]
  rcases Path.parseFile s path dirfd .noFollowLinks with ⟨s₁, e | file⟩
  · exact .fails e id
  simp only
  cases ht : (s₁.files file).target? with
  | none => exact .fails .inval (not_not.mpr rfl)
  | some target =>
      refine .succeeds (Option.some_ne_none target) ?_
      have hlen := length_target_le ht
      simp only [Target.maxSize] at hlen
      simp only
      rw [s32_of_mem (by omega) (by omega)]
      omega

/-! ## Removing and renaming -/

theorem removeChild_snd (host : Host) (s : State) (d : FileId) (name : Name) :
    (Directory.removeChild host s d name).2 = 0 := by
  simp only [Directory.removeChild]
  split
  · rfl
  · split <;> rfl

/-- The checks of `__syscall_unlinkat`. -/
def CanUnlink (s : State) (dirfd : Nat) (path : Name) (removeDir : Bool) : Prop :=
  ¬ (removeDir ∧ endsInDot path) ∧
    match Path.parseParent s path dirfd with
    | (_, .error _) => False
    | (s, .ok (parent, leaf)) =>
        match Directory.getChild s parent leaf with
        | (_, none) => False
        | (s, some file) =>
            file ≠ s.rootDirectory ∧ (s.files file).isDirectory = removeDir ∧
              ¬ ((s.files file).isDirectory ∧ Directory.getNumEntries s file > 0) ∧
              (s.files parent).writable

theorem unlinkat_outcome (host : Host) (s : State) (dirfd : Nat) (path : Name)
    (removeDir : Bool) :
    Outcome (CanUnlink s dirfd path removeDir) ((unlinkat host s dirfd path removeDir).2 = 0)
      (unlinkat host s dirfd path removeDir).2 := by
  simp only [unlinkat, CanUnlink]
  by_cases hdot : removeDir = true ∧ endsInDot path = true
  · rw [if_pos hdot]
    exact .fails .inval fun h => h.1 hdot
  rw [if_neg hdot]
  simp only [hdot, not_false_iff, true_and]
  rcases Path.parseParent s path dirfd with ⟨s₁, e | ⟨parent, leaf⟩⟩
  · exact .fails e id
  simp only
  rcases Directory.getChild s₁ parent leaf with ⟨s₂, _ | file⟩
  · exact .fails .noent id
  simp only
  by_cases hroot : file = s₂.rootDirectory
  · rw [if_pos hroot]
    exact .fails .busy fun h => h.1 hroot
  rw [if_neg hroot]
  by_cases hisdir : (s₂.files file).isDirectory ∧ ¬ removeDir
  · rw [if_pos hisdir]
    exact .fails .isdir fun h => hisdir.2 (h.2.1 ▸ hisdir.1)
  rw [if_neg hisdir]
  by_cases hempty : (s₂.files file).isDirectory ∧ Directory.getNumEntries s₂ file > 0
  · rw [if_pos hempty]
    exact .fails .notempty fun h => h.2.2.1 hempty
  rw [if_neg hempty]
  by_cases hnotdir : ¬ (s₂.files file).isDirectory ∧ removeDir
  · rw [if_pos hnotdir]
    exact .fails .notdir fun h => hnotdir.1 (h.2.1.symm ▸ hnotdir.2)
  rw [if_neg hnotdir]
  by_cases hwritable : (s₂.files parent).writable
  · rw [if_neg (not_not.mpr hwritable)]
    have hkind : (s₂.files file).isDirectory = removeDir := by
      cases hf : (s₂.files file).isDirectory <;> cases removeDir <;> simp_all
    exact .succeeds ⟨hroot, hkind, hempty, hwritable⟩ (removeChild_snd host s₂ parent leaf)
  · rw [if_pos hwritable]
    exact .fails .acces fun h => hwritable h.2.2.2

/-- The checks of `__syscall_renameat` on the parsed paths. -/
def CanMove (s : State) (oldParent : FileId) (oldLeaf : Name) (newParent : FileId)
    (newLeaf : Name) : Prop :=
  newLeaf.length ≤ WASMFS_NAME_MAX ∧
    match Directory.getChild s oldParent oldLeaf with
    | (_, none) => False
    | (s, some file) =>
        match Directory.getChild s newParent newLeaf with
        | (s, newFile?) =>
            newFile? = some file ∨
              (¬ (file = s.rootDirectory ∨ newFile? = some s.rootDirectory) ∧
                ¬ (¬ (s.files oldParent).writable ∨ ¬ (s.files newParent).writable) ∧
                (s.files oldParent).backend = (s.files newParent).backend ∧
                walkUp s file (s.next + 1) newParent ≠ .foundOld ∧
                newFile?.elim (.ok ()) (checkOverwrite s file) = .ok () ∧
                s.getParent newParent ≠ none)

theorem insertMove_outcome {d : FileId} {name : Name} {file : FileId}
    (hrun : Directory.insertMove host s d name file = .ok (s', ret)) :
    Outcome (s.getParent d ≠ none) (ret = 0) ret := by
  simp only [Directory.insertMove] at hrun
  cases hd : s.getParent d with
  | none =>
      simp only [hd] at hrun
      cases hrun
      exact .fails .perm (not_not.mpr rfl)
  | some p =>
      simp only [hd] at hrun
      split at hrun
      · cases hrun
      · cases hrun
        exact .succeeds (Option.some_ne_none p) rfl

theorem renameParsed_outcome {oldParent : FileId} {oldLeaf : Name} {newParent : FileId}
    {newLeaf : Name}
    (hrun : renameParsed host s oldParent oldLeaf newParent newLeaf = .ok (s', ret)) :
    Outcome (CanMove s oldParent oldLeaf newParent newLeaf) (ret = 0) ret := by
  simp only [renameParsed] at hrun
  simp only [CanMove]
  split at hrun
  · rename_i hlen
    cases hrun
    exact .fails .nametoolong fun h => Nat.not_lt_of_le h.1 hlen
  rename_i hlen
  simp only [Nat.le_of_not_lt hlen, true_and]
  rcases hold : Directory.getChild s oldParent oldLeaf with ⟨s₁, oldFile?⟩
  rcases hnew : Directory.getChild s₁ newParent newLeaf with ⟨s₂, newFile?⟩
  simp only [hold, hnew] at hrun
  rcases oldFile? with _ | file
  · cases hrun
    exact .fails .noent id
  simp only [hnew] at hrun ⊢
  split at hrun
  · rename_i hsame
    cases hrun
    exact .succeeds (Or.inl hsame) rfl
  rename_i hne
  simp only [hne, false_or]
  split at hrun
  · rename_i hroot
    cases hrun
    exact .fails .busy fun h => h.1 hroot
  rename_i hroot
  split at hrun
  · rename_i hwritable
    cases hrun
    exact .fails .acces fun h => h.2.1 hwritable
  rename_i hwritable
  split at hrun
  · rename_i hbackend
    cases hrun
    exact .fails .xdev fun h => hbackend h.2.2.1
  rename_i hbackend
  split at hrun
  · rename_i hwalk
    cases hrun
    exact .fails .inval fun h => h.2.2.2.1 hwalk
  · cases hrun
  · cases hrun
  rename_i hwalk
  have hwalk : walkUp s₂ file (s₂.next + 1) newParent ≠ .foundOld := by
    rw [hwalk]
    exact fun h => nomatch h
  split at hrun
  · rename_i e hcheck
    cases hrun
    exact .fails e fun h => by simp [hcheck] at h
  · rename_i hcheck
    rcases insertMove_outcome hrun with ⟨hcan, hret⟩ | ⟨hcan, e, hret⟩
    · exact .succeeds ⟨hroot, hwritable, not_not.mp hbackend, hwalk, hcheck, hcan⟩ hret
    · exact Or.inr ⟨fun h => hcan h.2.2.2.2.2, e, hret⟩

/-- The checks of `__syscall_renameat`. -/
def CanRename (s : State) (olddirfd : Nat) (oldpath : Name) (newdirfd : Nat) (newpath : Name) :
    Prop :=
  match Path.parseParent s oldpath olddirfd with
  | (_, .error _) => False
  | (s, .ok (oldParent, oldLeaf)) =>
      match Path.parseParent s newpath newdirfd with
      | (_, .error _) => False
      | (s, .ok (newParent, newLeaf)) => CanMove s oldParent oldLeaf newParent newLeaf

theorem renameat_outcome {olddirfd newdirfd : Nat} {oldpath newpath : Name}
    (hrun : renameat host s olddirfd oldpath newdirfd newpath = .ok (s', ret)) :
    Outcome (CanRename s olddirfd oldpath newdirfd newpath) (ret = 0) ret := by
  simp only [renameat] at hrun
  simp only [CanRename]
  rcases hp : Path.parseParent s oldpath olddirfd with ⟨s₁, e | ⟨oldParent, oldLeaf⟩⟩ <;>
    simp only [hp] at hrun ⊢
  · cases hrun
    exact .fails e id
  rcases hp' : Path.parseParent s₁ newpath newdirfd with ⟨s₂, e | ⟨newParent, newLeaf⟩⟩ <;>
    simp only [hp'] at hrun ⊢
  · cases hrun
    exact .fails e id
  · exact renameParsed_outcome hrun

end Syscall

end WasmFS
