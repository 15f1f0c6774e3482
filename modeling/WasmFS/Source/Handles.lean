import WasmFS.Source.Syscalls

/-!
# Calls on directory handles

The system calls on the namespace never look behind `File::Handle` and
`Directory::Handle`.  So what they do after their paths are parsed is written once
here, for any files with handles.  `Handles σ α` lists the operations, for files of
type `α` in states of type `σ`.

`Directory.handles` are the handles of memory directories.  With these the calls are
those of `Syscalls`.
-/

namespace WasmFS

/-- What the calls on the namespace use of files and directories. -/
structure Handles (σ α : Type) where
  /-- `WasmFS::getRootDirectory` -/
  rootDirectory : σ → α
  isDirectory : σ → α → Bool
  /-- `getMode() & WASMFS_PERM_WRITE` -/
  writable : σ → α → Bool
  getBackend : σ → α → BackendId
  getParent : σ → α → Option α
  getChild : σ → α → Name → σ × Option α
  insertDataFile : σ → α → Name → Nat → σ × Option α
  insertDirectory : σ → α → Name → Nat → σ × Option α
  insertSymlink : σ → α → Name → Target → σ × Option α
  insertMove : σ → α → Name → α → Except Fault (σ × Int)
  removeChild : σ → α → Name → Except Fault (σ × Int)
  getNumEntries : σ → α → Nat
  /-- A bound on the length of a walk that does not go round in a circle. -/
  bound : σ → Nat

namespace Handles

variable {σ α : Type} [DecidableEq α] (H : Handles σ α) (s : σ)

/-- The part of `doOpen` that finds or creates the file: the code, and the file. -/
def openat (parent : α) (childName : Name) (flags mode : Nat) : σ × Int × Option α :=
  if childName.length > WASMFS_NAME_MAX then (s, Errno.nametoolong.neg, none)
  else
    match H.getChild s parent childName with
    | (s, some child) => (s, 0, some child)
    | (s, none) =>
        if ¬ hasFlag flags O_CREAT then (s, Errno.noent.neg, none)
        else if (H.getParent s parent).isNone then (s, Errno.noent.neg, none)
        else
          match H.insertDataFile s parent childName (mode &&& S_IALLUGO) with
          | (s, none) => (s, Errno.io.neg, none)
          | (s, some created) => (s, 0, some created)

/-- `doMkdir` -/
def mkdirat (parent : α) (childName : Name) (mode : Nat) : σ × Int :=
  if childName.length > WASMFS_NAME_MAX then (s, Errno.nametoolong.neg)
  else
    match H.getChild s parent childName with
    | (s, some _) => (s, Errno.exist.neg)
    | (s, none) =>
        if ¬ H.writable s parent then (s, Errno.acces.neg)
        else
          match H.insertDirectory s parent childName (mode &&& (S_IRWXUGO ||| S_ISVTX)) with
          | (s, none) => (s, Errno.io.neg)
          | (s, some _) => (s, 0)

/-- `__syscall_symlinkat` -/
def symlinkat (parent : α) (childName : Name) (target : Target) : σ × Int :=
  if childName.length > WASMFS_NAME_MAX then (s, Errno.nametoolong.neg)
  else
    match H.getChild s parent childName with
    | (s, some _) => (s, Errno.exist.neg)
    | (s, none) =>
        match H.insertSymlink s parent childName target with
        | (s, none) => (s, Errno.perm.neg)
        | (s, some _) => (s, 0)

/-- `__syscall_unlinkat` -/
def unlinkat (parent : α) (childName : Name) (removeDir : Bool) : Except Fault (σ × Int) :=
  match H.getChild s parent childName with
  | (s, none) => .ok (s, Errno.noent.neg)
  | (s, some file) =>
      if file = H.rootDirectory s then .ok (s, Errno.busy.neg)
      else if H.isDirectory s file ∧ ¬ removeDir then .ok (s, Errno.isdir.neg)
      else if H.isDirectory s file ∧ H.getNumEntries s file > 0 then
        .ok (s, Errno.notempty.neg)
      else if ¬ H.isDirectory s file ∧ removeDir then .ok (s, Errno.notdir.neg)
      else if ¬ H.writable s parent then .ok (s, Errno.acces.neg)
      else H.removeChild s parent childName

/-- The loop of `renameat` over the ancestors of the new parent. -/
def walkUp (oldFile : α) : Nat → α → Syscall.Walk
  | 0, _ => .outOfFuel
  | fuel + 1, curr =>
      if curr = H.rootDirectory s then .reachedRoot
      else if curr = oldFile then .foundOld
      else
        match H.getParent s curr with
        | none => .nullDeref
        | some parent => walkUp oldFile fuel parent

/-- The tests of `renameat` on a target that exists. -/
def checkOverwrite (oldFile newFile : α) : Except Errno Unit :=
  if H.isDirectory s newFile then
    if ¬ H.isDirectory s oldFile then .error .isdir
    else if H.getNumEntries s newFile > 0 then .error .notempty
    else .ok ()
  else if H.isDirectory s oldFile then .error .notdir
  else .ok ()

/-- `__syscall_renameat` -/
def renameat (oldParent : α) (oldFileName : Name) (newParent : α) (newFileName : Name) :
    Except Fault (σ × Int) :=
  if newFileName.length > WASMFS_NAME_MAX then .ok (s, Errno.nametoolong.neg)
  else
    let (s, oldFile?) := H.getChild s oldParent oldFileName
    let (s, newFile?) := H.getChild s newParent newFileName
    match oldFile? with
    | none => .ok (s, Errno.noent.neg)
    | some oldFile =>
        if newFile? = some oldFile then .ok (s, 0)
        else if oldFile = H.rootDirectory s ∨ newFile? = some (H.rootDirectory s) then
          .ok (s, Errno.busy.neg)
        else if ¬ H.writable s oldParent ∨ ¬ H.writable s newParent then
          .ok (s, Errno.acces.neg)
        else if H.getBackend s oldParent ≠ H.getBackend s newParent then
          .ok (s, Errno.xdev.neg)
        else
          match H.walkUp s oldFile (H.bound s) newParent with
          | .foundOld => .ok (s, Errno.inval.neg)
          | .nullDeref => .error .nullDeref
          | .outOfFuel => .error .diverges
          | .reachedRoot =>
              match newFile?.elim (.ok ()) (H.checkOverwrite s oldFile) with
              | .error e => .ok (s, e.neg)
              | .ok () => H.insertMove s newParent newFileName oldFile

/-! ## Calls -/

/-- A call whose paths are parsed. -/
inductive Call (α : Type) where
  | openat (parent : α) (childName : Name) (flags mode : Nat)
  | mkdirat (parent : α) (childName : Name) (mode : Nat)
  | symlinkat (parent : α) (childName : Name) (target : Target)
  | unlinkat (parent : α) (childName : Name) (removeDir : Bool)
  | renameat (oldParent : α) (oldFileName : Name) (newParent : α) (newFileName : Name)

/-- The code, and the file that `openat` finds or creates. -/
abbrev Answer (α : Type) := Int × Option α

/-- A code without a file. -/
def code (r : σ × Int) : σ × Answer α := (r.1, r.2, none)

def exec : Call α → Except Fault (σ × Answer α)
  | .openat parent childName flags mode => .ok (H.openat s parent childName flags mode)
  | .mkdirat parent childName mode => .ok (code (H.mkdirat s parent childName mode))
  | .symlinkat parent childName target => .ok (code (H.symlinkat s parent childName target))
  | .unlinkat parent childName removeDir =>
      (H.unlinkat s parent childName removeDir).map code
  | .renameat oldParent oldFileName newParent newFileName =>
      (H.renameat s oldParent oldFileName newParent newFileName).map code

omit [DecidableEq α] in
theorem ok_of_map_code {e : Except Fault (σ × Int)} {s' : σ} {answer : Answer α}
    (h : e.map code = .ok (s', answer)) : ∃ ret, e = .ok (s', ret) := by
  rcases e with e | ⟨s₁, ret⟩
  · cases h
  · cases h
    exact ⟨ret, rfl⟩

/-! ## What a call leaves -/

section

variable {H : Handles σ α} {s : σ} {parent : α} {childName : Name} {P : σ → Prop}

omit [DecidableEq α] in
/-- What holds at first, after the lookup and after the insertion holds in the end. -/
theorem openat_leaves (h : P s) (hget : P (H.getChild s parent childName).1) {mode : Nat}
    (hinsert : P (H.insertDataFile (H.getChild s parent childName).1 parent childName
      (mode &&& S_IALLUGO)).1) (flags : Nat) : P (H.openat s parent childName flags mode).1 := by
  unfold openat
  split
  · exact h
  rcases hfound : H.getChild s parent childName with ⟨s₁, _ | child⟩ <;>
    rw [hfound] at hget hinsert
  · simp only
    split
    · exact hget
    split
    · exact hget
    rcases hcreated : H.insertDataFile s₁ parent childName (mode &&& S_IALLUGO) with
      ⟨s₂, _ | created⟩ <;> rw [hcreated] at hinsert <;> exact hinsert
  · exact hget

omit [DecidableEq α] in
theorem mkdirat_leaves (h : P s) (hget : P (H.getChild s parent childName).1) {mode : Nat}
    (hinsert : P (H.insertDirectory (H.getChild s parent childName).1 parent childName
      (mode &&& (S_IRWXUGO ||| S_ISVTX))).1) : P (H.mkdirat s parent childName mode).1 := by
  unfold mkdirat
  split
  · exact h
  rcases hfound : H.getChild s parent childName with ⟨s₁, _ | child⟩ <;>
    rw [hfound] at hget hinsert
  · simp only
    split
    · exact hget
    rcases hcreated : H.insertDirectory s₁ parent childName (mode &&& (S_IRWXUGO ||| S_ISVTX)) with
      ⟨s₂, _ | dir⟩ <;> rw [hcreated] at hinsert <;> exact hinsert
  · exact hget

omit [DecidableEq α] in
theorem symlinkat_leaves (h : P s) (hget : P (H.getChild s parent childName).1) {target : Target}
    (hinsert : P (H.insertSymlink (H.getChild s parent childName).1 parent childName target).1) :
    P (H.symlinkat s parent childName target).1 := by
  unfold symlinkat
  split
  · exact h
  rcases hfound : H.getChild s parent childName with ⟨s₁, _ | child⟩ <;>
    rw [hfound] at hget hinsert
  · simp only
    rcases hcreated : H.insertSymlink s₁ parent childName target with ⟨s₂, _ | link⟩ <;>
      rw [hcreated] at hinsert <;> exact hinsert
  · exact hget

/-- A removal leaves what its lookup leaves, or what the removal of the child leaves. -/
theorem unlinkat_leaves {removeDir : Bool} {s' : σ} {ret : Int}
    (hcall : H.unlinkat s parent childName removeDir = .ok (s', ret))
    (hget : P (H.getChild s parent childName).1)
    (hremove : ∀ {s'' ret}, H.removeChild (H.getChild s parent childName).1 parent childName =
      .ok (s'', ret) → P s'') : P s' := by
  unfold unlinkat at hcall
  rcases hfound : H.getChild s parent childName with ⟨s₁, _ | file⟩ <;>
    simp only [hfound] at hcall hget hremove
  · cases hcall
    exact hget
  · iterate 5
      split at hcall
      · cases hcall
        exact hget
    exact hremove hcall

/-- A rename leaves what its two lookups leave, or what a move leaves. -/
theorem renameat_leaves {newParent : α} {newFileName : Name} {s' : σ} {ret : Int}
    (hcall : H.renameat s parent childName newParent newFileName = .ok (s', ret)) (h : P s)
    (hget : P (H.getChild (H.getChild s parent childName).1 newParent newFileName).1)
    (hmove : ∀ {oldFile s'' ret}, H.insertMove
      (H.getChild (H.getChild s parent childName).1 newParent newFileName).1 newParent newFileName
        oldFile = .ok (s'', ret) → P s'') : P s' := by
  unfold renameat at hcall
  split at hcall
  · cases hcall
    exact h
  rcases hold : H.getChild s parent childName with ⟨s₁, oldFile?⟩
  rcases hnew : H.getChild s₁ newParent newFileName with ⟨s₂, newFile?⟩
  simp only [hold, hnew] at hcall hget hmove
  cases oldFile? with
  | none =>
      cases hcall
      exact hget
  | some oldFile =>
      simp only at hcall
      -- a refusal leaves the state after the lookups
      iterate 4
        split at hcall
        · cases hcall
          exact hget
      split at hcall
      · cases hcall
        exact hget
      · cases hcall
      · cases hcall
      · split at hcall
        · cases hcall
          exact hget
        · exact hmove hcall

end

end Handles

/-! ## Memory directories -/

/-- The handles of memory directories. -/
def Directory.handles (host : Host) : Handles State FileId where
  rootDirectory := State.rootDirectory
  isDirectory s f := (s.files f).isDirectory
  writable s f := (s.files f).writable
  getBackend s f := (s.files f).backend
  getParent := State.getParent
  getChild := getChild
  insertDataFile := insertDataFile host
  insertDirectory := insertDirectory host
  insertSymlink := insertSymlink host
  insertMove := insertMove host
  removeChild s d name := .ok (removeChild host s d name)
  getNumEntries := getNumEntries
  bound s := s.next + 1

namespace Syscall

variable (host : Host) (s : State)

/-- The part of `doOpen` for a file that was found. -/
def openFound (s : State) (parent child : FileId) (flags : Nat) : SysResult :=
  match (s.files child).target? with
  | none => openExisting s child flags
  | some target =>
      if hasFlag flags O_NOFOLLOW then .ok (s, Errno.loop.neg)
      else
        match Path.getFileFrom s parent target with
        | (s, .error e) => .ok (s, e.neg)
        | (s, .ok child) => openExisting s child flags

/-- What `doOpen` does once it has looked for the file.  A file that was made is opened
without a test. -/
def openLast (found : Bool) (parent : FileId) (flags : Nat) :
    State × Handles.Answer FileId → SysResult
  | (s, code, none) => .ok (s, code)
  | (s, _, some file) =>
      if found then openFound s parent file flags
      else
        let (s, openFile) := OpenFileState.create s file flags
        FileTable.addEntry s openFile

theorem doOpen_handles {flags : Nat} (haccess : flags &&& O_ACCMODE = O_WRONLY ∨
    flags &&& O_ACCMODE = O_RDONLY ∨ flags &&& O_ACCMODE = O_RDWR) (parent : FileId)
    (childName : Name) (mode : Nat) : doOpen host s (.ok (parent, childName)) flags mode =
      openLast (Directory.getChild s parent childName).2.isSome parent flags
        ((Directory.handles host).openat s parent childName flags mode) := by
  unfold doOpen Handles.openat
  simp only [Directory.handles]
  rw [if_neg fun h => haccess.elim h.1 fun h' => h'.elim h.2.1 h.2.2]
  split
  · rfl
  rcases Directory.getChild s parent childName with ⟨s₁, _ | child⟩
  · unfold openMissing
    by_cases hcreate : hasFlag flags O_CREAT
    · by_cases hparent : (s₁.getParent parent).isNone
      · simp [hcreate, hparent, openLast]
      · simp only [hcreate, hparent, openLast, not_true_eq_false, if_false]
        rcases Directory.insertDataFile host s₁ parent childName (mode &&& S_IALLUGO) with
          ⟨s₂, _ | created⟩ <;> rfl
    · simp [hcreate, openLast]
  · rfl

theorem doMkdir_handles (parent : FileId) (childName : Name) (mode : Nat) :
    doMkdir host s (.ok (parent, childName)) mode =
      (Directory.handles host).mkdirat s parent childName mode := by
  unfold doMkdir Handles.mkdirat
  refine if_congr Iff.rfl rfl ?_
  simp only [Directory.handles]
  rcases Directory.getChild s parent childName with ⟨s₁, _ | child⟩
  · refine if_congr Iff.rfl rfl ?_
    rcases Directory.insertDirectory host s₁ parent childName
      (mode &&& (S_IRWXUGO ||| S_ISVTX)) with ⟨s₂, _ | dir⟩ <;> rfl
  · rfl

theorem symlinkat_handles {target linkpath : Name} (hlen : target.length ≤ Target.maxSize)
    {newdirfd : Nat} {s' : State} {parent : FileId} {childName : Name}
    (hp : Path.parseParent s linkpath newdirfd = (s', .ok (parent, childName))) :
    symlinkat host s target newdirfd linkpath =
      .ok ((Directory.handles host).symlinkat s' parent childName ⟨target, hlen⟩) := by
  unfold symlinkat Handles.symlinkat
  simp only [hp, Directory.handles, dif_pos hlen]
  split
  · rfl
  rcases Directory.getChild s' parent childName with ⟨s₁, _ | child⟩
  · simp only
    rcases Directory.insertSymlink host s₁ parent childName ⟨target, hlen⟩ with ⟨s₂, _ | link⟩ <;>
      rfl
  · rfl

theorem unlinkat_handles {dirfd : Nat} {path : Name} {removeDir : Bool}
    (hdot : ¬ (removeDir ∧ endsInDot path)) {s' : State} {parent : FileId} {childName : Name}
    (hp : Path.parseParent s path dirfd = (s', .ok (parent, childName))) :
    .ok (unlinkat host s dirfd path removeDir) =
      (Directory.handles host).unlinkat s' parent childName removeDir := by
  unfold unlinkat Handles.unlinkat
  simp only [if_neg hdot, hp, Directory.handles]
  rcases Directory.getChild s' parent childName with ⟨s₁, _ | file⟩
  · rfl
  · simp only [apply_ite Except.ok]
    rfl

theorem walkUp_handles (oldFile : FileId) (fuel : Nat) (curr : FileId) :
    walkUp s oldFile fuel curr = (Directory.handles host).walkUp s oldFile fuel curr := by
  induction fuel generalizing curr with
  | zero => rfl
  | succ fuel ih =>
      unfold walkUp Handles.walkUp
      cases hp : s.getParent curr with
      | none => simp only [Directory.handles, hp]
      | some parent => simp only [Directory.handles, hp, ih]

theorem checkOverwrite_handles (oldFile : FileId) :
    checkOverwrite s oldFile = (Directory.handles host).checkOverwrite s oldFile := rfl

theorem renameParsed_handles (oldParent : FileId) (oldFileName : Name) (newParent : FileId)
    (newFileName : Name) : renameParsed host s oldParent oldFileName newParent newFileName =
      (Directory.handles host).renameat s oldParent oldFileName newParent newFileName := by
  unfold renameParsed Handles.renameat
  refine if_congr Iff.rfl rfl ?_
  simp only [walkUp_handles host, checkOverwrite_handles host, Directory.handles]
  cases (Directory.getChild s oldParent oldFileName).2 with
  | none => rfl
  | some oldFile =>
      refine if_congr Iff.rfl rfl (if_congr Iff.rfl rfl (if_congr Iff.rfl rfl
        (if_congr Iff.rfl rfl ?_)))
      rcases Handles.walkUp _ _ oldFile _ newParent with _ | _ | _ | _
      · rcases Option.elim _ _ _ with e | u <;> rfl
      · rfl
      · rfl
      · rfl

end Syscall

end WasmFS
