import WasmFS.Source.Paths

/-!
# System calls on the namespace and on descriptors

These are the functions of `syscalls.cpp` that the exports call for paths and
descriptors.  A system call returns a nonnegative number or `-E…`.  The exports
only ever pass the null backend, so a new file gets the backend of its
directory, and only `OpenReturnMode::FD` is used.

A call that takes a parsed path in the source takes the parsed path here, with
the state the parser left.
-/

namespace WasmFS

/-- What a system call returns: the state and the result. -/
abbrev SysResult := Except Fault (State × Int)

namespace Syscall

/-! ## Descriptors -/

/-- `__syscall_dup3`.  The test of the flags, `flags & !O_CLOEXEC`, is a bitwise
and with zero. -/
def dup3 (s : State) (oldfd newfd : Int) : SysResult :=
  match FileTable.getEntry s (u32 oldfd) with
  | none => .ok (s, Errno.badf.neg)
  | some oldOpenFile =>
      if newfd < 0 then .ok (s, Errno.badf.neg)
      else if oldfd = newfd then .ok (s, Errno.inval.neg)
      else
        match FileTable.setEntry s (u32 newfd) (some oldOpenFile) with
        | .error e => .error e
        | .ok (s, _) => .ok (s, newfd)

/-- `__wasi_fd_close`, which returns a positive code.  The hook of a data file
of this build succeeds. -/
def close (s : State) (fd : Nat) : SysResult :=
  match FileTable.getEntry s fd with
  | none => .ok (s, Errno.badf.code)
  | some _ =>
      match FileTable.setEntry s fd none with
      | .error e => .error e
      | .ok (s, none) => .ok (s, 0)
      | .ok (s, some closee) => .ok (s.hook (.closed closee), 0)

/-- The position that `__wasi_fd_seek` asks for.  `whence` is 0 for `SET`, 1 for
`CUR` and 2 for `END`. -/
def seekPosition (s : State) (o : OpenId) (offset : Int) (whence : Nat) : Int :=
  if whence = 0 then offset
  else if whence = 1 then s64 ((s.descriptions o).position + offset)
  else s64 ((s.files (s.descriptions o).file).getSize + offset)

/-- `__wasi_fd_seek`, which returns a positive code and the new offset. -/
def seek (s : State) (fd : Nat) (offset : Int) (whence : Nat) : State × Int × Option Int :=
  match FileTable.getEntry s fd with
  | none => (s, Errno.badf.code, none)
  | some o =>
      let file := s.files (s.descriptions o).file
      if ¬ file.isSeekable then (s, Errno.spipe.code, none)
      else if whence > 2 then (s, Errno.inval.code, none)
      else
        let position := seekPosition s o offset whence
        if position < 0 then (s, Errno.inval.code, none)
        else (s.modifyOpen o fun x => { x with position := position }, 0, some position)

/-! ## Opening -/

/-- The part of `doOpen` for an existing file, after the link was followed. -/
def openExisting (s : State) (child : FileId) (flags : Nat) : SysResult :=
  let accessMode := flags &&& O_ACCMODE
  let file := s.files child
  if hasFlag flags O_EXCL ∧ hasFlag flags O_CREAT then .ok (s, Errno.exist.neg)
  else if file.isDirectory ∧ accessMode ≠ O_RDONLY then .ok (s, Errno.isdir.neg)
  else if (accessMode = O_RDONLY ∨ accessMode = O_RDWR) ∧ ¬ file.readable then
    .ok (s, Errno.acces.neg)
  else if (accessMode = O_WRONLY ∨ accessMode = O_RDWR) ∧ ¬ file.writable then
    .ok (s, Errno.acces.neg)
  else if hasFlag flags O_DIRECTORY ∧ ¬ file.isDirectory then .ok (s, Errno.notdir.neg)
  else
    -- the file is opened before it is truncated
    let (s, openFile) := OpenFileState.create s child flags
    if hasFlag flags O_TRUNC then
      if ¬ file.isDataFile then .ok (s, Errno.isdir.neg)
      else if ¬ file.writable then .ok (s, Errno.acces.neg)
      else
        -- a special file refuses, which is ignored
        FileTable.addEntry (s.modify child fun x => x.setBuffer Vec.empty) openFile
    else FileTable.addEntry s openFile

/-- The part of `doOpen` for a missing file. -/
def openMissing (host : Host) (s : State) (parent : FileId) (childName : Name)
    (flags mode : Nat) : SysResult :=
  if ¬ hasFlag flags O_CREAT then .ok (s, Errno.noent.neg)
  -- inserting into an unlinked directory is not allowed
  else if (s.getParent parent).isNone then .ok (s, Errno.noent.neg)
  else
    match Directory.insertDataFile host s parent childName (mode &&& S_IALLUGO) with
    | (s, none) => .ok (s, Errno.io.neg)
    | (s, some created) =>
        let (s, openFile) := OpenFileState.create s created flags
        FileTable.addEntry s openFile

/-- `doOpen` -/
def doOpen (host : Host) (s : State) (parsed : Except Errno (FileId × Name))
    (flags mode : Nat) : SysResult :=
  let accessMode := flags &&& O_ACCMODE
  if accessMode ≠ O_WRONLY ∧ accessMode ≠ O_RDONLY ∧ accessMode ≠ O_RDWR then
    .ok (s, Errno.inval.neg)
  else
    match parsed with
    | .error e => .ok (s, e.neg)
    | .ok (parent, childName) =>
        if childName.length > WASMFS_NAME_MAX then .ok (s, Errno.nametoolong.neg)
        else
          match Directory.getChild s parent childName with
          | (s, none) => openMissing host s parent childName flags mode
          | (s, some child) =>
              match (s.files child).target? with
              | none => openExisting s child flags
              | some target =>
                  if hasFlag flags O_NOFOLLOW then .ok (s, Errno.loop.neg)
                  else
                    -- the count of links starts back at zero here
                    match Path.getFileFrom s parent target with
                    | (s, .error e) => .ok (s, e.neg)
                    | (s, .ok child) => openExisting s child flags

/-- `__syscall_openat2` -/
def openat2 (host : Host) (s : State) (dirfd : Nat) (path : Name) (oflags mode : Nat) :
    SysResult :=
  let (s, parsed) := Path.parseParent s path dirfd
  doOpen host s parsed oflags mode

/-! ## Creating -/

/-- `doMkdir` -/
def doMkdir (host : Host) (s : State) (parsed : Except Errno (FileId × Name)) (mode : Nat) :
    State × Int :=
  match parsed with
  | .error e => (s, e.neg)
  | .ok (parent, childName) =>
      if childName.length > WASMFS_NAME_MAX then (s, Errno.nametoolong.neg)
      else
        match Directory.getChild s parent childName with
        | (s, some _) => (s, Errno.exist.neg)
        | (s, none) =>
            if ¬ (s.files parent).writable then (s, Errno.acces.neg)
            else
              match Directory.insertDirectory host s parent childName
                  (mode &&& (S_IRWXUGO ||| S_ISVTX)) with
              | (s, none) => (s, Errno.io.neg)
              | (s, some _) => (s, 0)

/-- `__syscall_mkdirat` -/
def mkdirat (host : Host) (s : State) (dirfd : Nat) (path : Name) (mode : Nat) : State × Int :=
  let (s, parsed) := Path.parseParent s path dirfd
  doMkdir host s parsed mode

/-- `__syscall_symlinkat`.  The conversion of the target to a `std::string`
fails on a target that does not fit. -/
def symlinkat (host : Host) (s : State) (target : Name) (newdirfd : Nat) (linkpath : Name) :
    SysResult :=
  match Path.parseParent s linkpath newdirfd with
  | (s, .error e) => .ok (s, e.neg)
  | (s, .ok (parent, childName)) =>
      if childName.length > WASMFS_NAME_MAX then .ok (s, Errno.nametoolong.neg)
      else
        match Directory.getChild s parent childName with
        | (s, some _) => .ok (s, Errno.exist.neg)
        | (s, none) =>
            if h : target.length ≤ Target.maxSize then
              match Directory.insertSymlink host s parent childName ⟨target, h⟩ with
              | (s, none) => .ok (s, Errno.perm.neg)
              | (s, some _) => .ok (s, 0)
            else .error .lengthError

/-- `__syscall_readlinkat`: the result and the bytes copied to the buffer. -/
def readlinkat (s : State) (dirfd : Nat) (path : Name) (bufsize : Nat) :
    State × Int × List UInt8 :=
  match Path.parseFile s path dirfd .noFollowLinks with
  | (s, .error e) => (s, e.neg, [])
  | (s, .ok file) =>
      match (s.files file).target? with
      | none => (s, Errno.inval.neg, [])
      | some target =>
          let bytes := min bufsize target.length
          (s, s32 bytes, target.take bytes)

/-! ## Removing -/

/-- The test for a path that ends in `"/."`, trailing slashes ignored. -/
def endsInDot (path : Name) : Bool :=
  let p := Path.stripTrailing path
  decide (2 ≤ p.length) && p.drop (p.length - 2) == [slash, 46]

/-- `__syscall_unlinkat`.  `removeDir` is `flags == AT_REMOVEDIR`, and the other
value the exports pass is 0. -/
def unlinkat (host : Host) (s : State) (dirfd : Nat) (path : Name) (removeDir : Bool) :
    State × Int :=
  if removeDir ∧ endsInDot path then (s, Errno.inval.neg)
  else
    match Path.parseParent s path dirfd with
    | (s, .error e) => (s, e.neg)
    | (s, .ok (parent, childName)) =>
        match Directory.getChild s parent childName with
        | (s, none) => (s, Errno.noent.neg)
        | (s, some file) =>
            if file = s.rootDirectory then (s, Errno.busy.neg)
            else if (s.files file).isDirectory ∧ ¬ removeDir then (s, Errno.isdir.neg)
            else if (s.files file).isDirectory ∧ Directory.getNumEntries s file > 0 then
              (s, Errno.notempty.neg)
            else if ¬ (s.files file).isDirectory ∧ removeDir then (s, Errno.notdir.neg)
            else if ¬ (s.files parent).writable then (s, Errno.acces.neg)
            else Directory.removeChild host s parent childName

/-! ## Renaming -/

/-- The ways the ancestor walk of `renameat` can end. -/
inductive Walk where
  | reachedRoot | foundOld | nullDeref | outOfFuel
deriving DecidableEq, Repr

/-- The loop over the ancestors of the new parent.  Its exit test only knows the
root. -/
def walkUp (s : State) (oldFile : FileId) : Nat → FileId → Walk
  | 0, _ => .outOfFuel
  | fuel + 1, curr =>
      if curr = s.rootDirectory then .reachedRoot
      else if curr = oldFile then .foundOld
      else
        match s.getParent curr with
        | none => .nullDeref
        | some parent => walkUp s oldFile fuel parent

/-- The tests of `renameat` on a target that exists. -/
def checkOverwrite (s : State) (oldFile newFile : FileId) : Except Errno Unit :=
  if (s.files newFile).isDirectory then
    if ¬ (s.files oldFile).isDirectory then .error .isdir
    else if Directory.getNumEntries s newFile > 0 then .error .notempty
    else .ok ()
  else if (s.files oldFile).isDirectory then .error .notdir
  else .ok ()

/-- `renameat` once both paths are parsed.  More rounds of the ancestor walk
than there are files mean that it goes round in a circle. -/
def renameParsed (host : Host) (s : State) (oldParent : FileId) (oldFileName : Name)
    (newParent : FileId) (newFileName : Name) : SysResult :=
  if newFileName.length > WASMFS_NAME_MAX then .ok (s, Errno.nametoolong.neg)
  else
    let (s, oldFile?) := Directory.getChild s oldParent oldFileName
    let (s, newFile?) := Directory.getChild s newParent newFileName
    match oldFile? with
    | none => .ok (s, Errno.noent.neg)
    | some oldFile =>
        -- if the source and destination are the same, do nothing
        if newFile? = some oldFile then .ok (s, 0)
        -- never allow renaming or overwriting the root
        else if oldFile = s.rootDirectory ∨ newFile? = some s.rootDirectory then
          .ok (s, Errno.busy.neg)
        else if ¬ (s.files oldParent).writable ∨ ¬ (s.files newParent).writable then
          .ok (s, Errno.acces.neg)
        else if (s.files oldParent).backend ≠ (s.files newParent).backend then
          .ok (s, Errno.xdev.neg)
        else
          match walkUp s oldFile (s.next + 1) newParent with
          | .foundOld => .ok (s, Errno.inval.neg)
          | .nullDeref => .error .nullDeref
          | .outOfFuel => .error .diverges
          | .reachedRoot =>
              match newFile?.elim (.ok ()) (checkOverwrite s oldFile) with
              | .error e => .ok (s, e.neg)
              | .ok () => Directory.insertMove host s newParent newFileName oldFile

/-- `__syscall_renameat` -/
def renameat (host : Host) (s : State) (olddirfd : Nat) (oldpath : Name) (newdirfd : Nat)
    (newpath : Name) : SysResult :=
  match Path.parseParent s oldpath olddirfd with
  | (s, .error e) => .ok (s, e.neg)
  | (s, .ok (oldParent, oldFileName)) =>
      match Path.parseParent s newpath newdirfd with
      | (s, .error e) => .ok (s, e.neg)
      | (s, .ok (newParent, newFileName)) =>
          renameParsed host s oldParent oldFileName newParent newFileName

/-! ## Listing -/

/-- `sizeof(dirent)` -/
def sizeofDirent : Nat := 280

/-- One record of `__syscall_getdents64`. -/
structure Record where
  entry : Dirent
  off : Int
deriving DecidableEq, Repr

/-- The loop of `__syscall_getdents64` over the entries from `index` on: the
records, the new index and the bytes read. -/
def readEntries (dirents : List Dirent) (count : Nat) :
    Nat → Int → Int → List Record × Int × Int
  | 0, index, bytesRead => ([], index, bytesRead)
  | fuel + 1, index, bytesRead =>
      match dirents[u32 index]? with
      | none => ([], index, bytesRead)
      | some entry =>
          if bytesRead + sizeofDirent ≤ count then
            let (records, last, bytes) :=
              readEntries dirents count fuel (s32 (index + 1)) (bytesRead + sizeofDirent)
            (⟨entry, s32 (index + 1)⟩ :: records, last, bytes)
          else ([], index, bytesRead)

/-- `__syscall_getdents64`.  Every round but the last uses up one entry. -/
def getdents64 (s : State) (fd count : Nat) : State × Int × List Record :=
  if count / sizeofDirent = 0 then (s, Errno.inval.neg, [])
  else
    match FileTable.getEntry s fd with
    | none => (s, Errno.badf.neg, [])
    | some o =>
        let d := s.descriptions o
        if ¬ (s.files d.file).isDirectory then (s, Errno.notdir.neg, [])
        else
          match s.getParent d.file with
          -- an unlinked directory is completely empty
          | none => (s, 0, [])
          | some _ =>
              let (records, index, bytesRead) :=
                readEntries d.dirents count (d.dirents.length + 1) (s32 d.position) 0
              (s.modifyOpen o fun x => { x with position := index }, s32 bytesRead, records)

end Syscall

end WasmFS
