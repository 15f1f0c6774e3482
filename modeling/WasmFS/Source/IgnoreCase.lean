import Mathlib.Data.List.AList
import WasmFS.Source.Handles
import WasmFS.Source.Init

/-!
# The case-insensitive backend

`ignore_case_backend.cpp` puts a virtual backend in front of another one.  Every
real file is wrapped in a virtual file of the same kind.  A virtual directory turns
names into lower case and forwards the operations to the handle of the real
directory.  It remembers the wrappers it made, with the names as they were spelled
(`virtual.h`).  A build for case-insensitive file systems wraps the memory backend
of the root (`VirtualState.init`).

The map of the wrappers is an `AList`, a list of pairs with distinct keys.  Its order
is not that of the keys.  It only decides which of several wrappers of one file is
found first, and there are never two.

A virtual directory tracks file identity itself, so its cache only holds what is
mounted.  That is the special files in `/dev`, which are no virtual files.  The cache
is asked for a name as it is spelled, before the backend.
-/

namespace WasmFS

/-! ## Names -/

/-- `std::tolower` in the C locale.  A byte above 127 is a negative `char`, which it
leaves alone. -/
def tolower (ch : UInt8) : UInt8 := if 65 ≤ ch ∧ ch ≤ 90 then ch + 32 else ch

def normalize (name : Name) : Name := name.map tolower

/-! ## Virtual files -/

/-- The identity of a virtual file. -/
abbrev VirtualId := Nat

/-- `IgnoreCaseDirectory::ChildInfo` -/
structure ChildInfo where
  originalName : Name
  child : VirtualId
deriving DecidableEq, Repr

/-- `VirtualDataFile`, `VirtualSymlink` or `IgnoreCaseDirectory`. -/
structure VirtualFile where
  real : FileId
  kind : FileKind
  mode : Nat
  atime : Time := 0
  mtime : Time := 0
  ctime : Time := 0
  parent : Option VirtualId := none
  children : AList fun _ : Name => ChildInfo := ∅
  /-- The cache of `Directory`, which holds the mounted special files. -/
  dcache : List (Name × DCacheEntry) := []

structure VirtualState where
  /-- The files of the wrapped backend, and the special files. -/
  real : State
  files : VirtualId → VirtualFile
  next : VirtualId
  /-- The parent pointers of the special files. -/
  specialParent : FileId → Option VirtualId
  /-- `WasmFS::rootDirectory` -/
  rootDirectory : VirtualId
  /-- `this` of the `IgnoreCaseBackend` -/
  backend : BackendId

namespace VirtualState

/-- Update the virtual file `f`. -/
def modify (v : VirtualState) (f : VirtualId) (g : VirtualFile → VirtualFile) : VirtualState :=
  { v with files := Function.update v.files f (g (v.files f)) }

/-- `setParent` -/
def setParent (v : VirtualState) (f : VirtualId) (parent : Option VirtualId) : VirtualState :=
  v.modify f fun x => { x with parent := parent }

/-- `updateMTime` -/
def updateMTime (host : Host) (v : VirtualState) (f : VirtualId) : VirtualState :=
  { v.modify f fun x => { x with mtime := host.now v.real.trace.calls } with real := v.real.ask }

/-- `children[key] = info` -/
def setChild (v : VirtualState) (d : VirtualId) (key : Name) (info : ChildInfo) : VirtualState :=
  v.modify d fun x => { x with children := x.children.insert key info }

/-- `children.erase` at the key `key`. -/
def eraseKey (v : VirtualState) (d : VirtualId) (key : Name) : VirtualState :=
  v.modify d fun x => { x with children := x.children.erase key }

/-- The loop of `insertMove` that erases the entry of `file`. -/
def eraseChild (v : VirtualState) (d file : VirtualId) : VirtualState :=
  match (v.files d).children.entries.find? fun e => e.2.child == file with
  | none => v
  | some e => v.eraseKey d e.1

end VirtualState

/-- The mode a constructor gives to a virtual file. -/
def virtualMode (file : File) : Nat :=
  match file.kind with
  | .dataFile => file.mode ||| S_IFREG
  | .directory => file.mode ||| S_IFDIR
  | .symlink => S_IFLNK

/-- `virtualize` -/
def virtualize (host : Host) (v : VirtualState) (real : FileId) : VirtualState × VirtualId :=
  let file := v.real.files real
  let now := host.now v.real.trace.calls
  ({ v with
      real := v.real.ask,
      files := Function.update v.files v.next
        { real := real, kind := file.kind, mode := virtualMode file,
          atime := now, mtime := now, ctime := now },
      next := v.next + 1 }, v.next)

/-- `devirtualize`.  A link is cast to `VirtualDirectory`, where the pointer to the
real file lies behind the end of a `VirtualSymlink`. -/
def devirtualize (v : VirtualState) (file : VirtualId) : Except Fault FileId :=
  match (v.files file).kind with
  | .dataFile => .ok (v.files file).real
  | .directory => .ok (v.files file).real
  | .symlink => .error .outOfBounds

/-! ## `IgnoreCaseDirectory` -/

namespace IgnoreCaseDirectory

/-- `getChild` -/
def getChild (host : Host) (v : VirtualState) (d : VirtualId) (name : Name) :
    VirtualState × Option VirtualId :=
  let normalized := normalize name
  match (v.files d).children.lookup normalized with
  | some info => (v, some info.child)
  | none =>
      match Directory.getChild v.real (v.files d).real normalized with
      | (real, none) => ({ v with real := real }, none)
      | (real, some child) =>
          let (v, child) := virtualize host { v with real := real } child
          (v.setChild d normalized ⟨name, child⟩, some child)

/-- The common body of `insertDataFile`, `insertDirectory` and `insertSymlink`,
after the insertion into the real directory. -/
def insert (host : Host) (v : VirtualState) (d : VirtualId) (name : Name)
    (result : State × Option FileId) : VirtualState × Option VirtualId :=
  match result with
  | (real, none) => ({ v with real := real }, none)
  | (real, some file) =>
      let (v, file) := virtualize host { v with real := real } file
      (v.setChild d (normalize name) ⟨name, file⟩, some file)

/-- `insertDataFile` -/
def insertDataFile (host : Host) (v : VirtualState) (d : VirtualId) (name : Name) (mode : Nat) :
    VirtualState × Option VirtualId :=
  insert host v d name
    (Directory.insertDataFile host v.real (v.files d).real (normalize name) mode)

/-- `insertDirectory` -/
def insertDirectory (host : Host) (v : VirtualState) (d : VirtualId) (name : Name) (mode : Nat) :
    VirtualState × Option VirtualId :=
  insert host v d name
    (Directory.insertDirectory host v.real (v.files d).real (normalize name) mode)

/-- `insertSymlink` -/
def insertSymlink (host : Host) (v : VirtualState) (d : VirtualId) (name : Name)
    (target : Target) : VirtualState × Option VirtualId :=
  insert host v d name
    (Directory.insertSymlink host v.real (v.files d).real (normalize name) target)

/-- `insertMove` -/
def insertMove (host : Host) (v : VirtualState) (d : VirtualId) (name : Name)
    (file : VirtualId) : Except Fault (VirtualState × Int) :=
  let normalized := normalize name
  match devirtualize v file with
  | .error e => .error e
  | .ok realFile =>
      match Directory.insertMove host v.real (v.files d).real normalized realFile with
      | .error e => .error e
      | .ok (real, err) =>
          let v := { v with real := real }
          if err ≠ 0 then .ok (v, err)
          else
            match (v.files file).parent with
            | none => .error .nullDeref
            | some oldParent =>
                let v := v.eraseChild oldParent file
                -- unlink the overwritten entry if it exists
                let v :=
                  match (v.files d).children.lookup normalized with
                  | none => v
                  | some overwritten => v.setParent overwritten.child none
                .ok (v.setChild d normalized ⟨name, file⟩, 0)

/-- `removeChild`.  The entry is taken to be there without a test. -/
def removeChild (host : Host) (v : VirtualState) (d : VirtualId) (name : Name) :
    Except Fault (VirtualState × Int) :=
  let normalized := normalize name
  let (real, err) := Directory.removeChild host v.real (v.files d).real normalized
  let v := { v with real := real }
  if err ≠ 0 then .ok (v, err)
  else
    match (v.files d).children.lookup normalized with
    | none => .error .outOfBounds
    | some info => .ok ((v.setParent info.child none).eraseKey d normalized, 0)

/-- `getNumEntries` -/
def getNumEntries (v : VirtualState) (d : VirtualId) : Nat :=
  Directory.getNumEntries v.real (v.files d).real

/-- `getEntries` -/
def getEntries (v : VirtualState) (d : VirtualId) : List Dirent :=
  (Directory.getEntries v.real (v.files d).real).map fun entry =>
    match (v.files d).children.lookup entry.name with
    | none => entry
    | some info => { entry with name := info.originalName }

/-- `getName` -/
def getName (v : VirtualState) (d file : VirtualId) : Name :=
  match (v.files d).children.entries.find? fun e => e.2.child == file with
  | none => []
  | some e => e.2.originalName

end IgnoreCaseDirectory

/-! ## `Directory::Handle` of a virtual directory -/

/-- A file that the calls see. -/
inductive VisibleFile where
  | virtual (f : VirtualId)
  /-- A special file that is mounted. -/
  | special (f : FileId)
deriving DecidableEq, Repr

namespace VirtualHandle

/-- `getChild` -/
def getChild (host : Host) (v : VirtualState) (d : VirtualId) (name : Name) :
    VirtualState × Option VisibleFile :=
  match (v.files d).parent with
  | none => (v, none)
  | some parent =>
      if name = dot then (v, some (.virtual d))
      else if name = dotdot then (v, some (.virtual parent))
      else
        match (v.files d).dcache.lookup name with
        | some entry => (v, some (.special entry.file))
        | none =>
            match IgnoreCaseDirectory.getChild host v d name with
            | (v, none) => (v, none)
            | (v, some child) => (v.setParent child (some d), some (.virtual child))

/-- `mountChild` -/
def mountChild (v : VirtualState) (d : VirtualId) (name : Name) (child : FileId) :
    VirtualState × Bool :=
  match (v.files d).parent with
  | none => (v, false)
  | some _ =>
      ({ v.modify d fun x => { x with dcache := dcacheInsert name ⟨.mount, child⟩ x.dcache } with
          specialParent := Function.update v.specialParent child (some d) }, true)

/-- The common body of the three insertions. -/
def insert (host : Host) (v : VirtualState) (d : VirtualId)
    (inserted : VirtualState × Option VirtualId) : VirtualState × Option VirtualId :=
  match (v.files d).parent with
  | none => (v, none)
  | some _ =>
      match inserted with
      | (v, none) => (v, none)
      | (v, some child) => ((v.setParent child (some d)).updateMTime host d, some child)

/-- `insertMove` of a virtual file.  The cache of its old parent does not hold it. -/
def insertMove (host : Host) (v : VirtualState) (d : VirtualId) (name : Name)
    (file : VirtualId) : Except Fault (VirtualState × Int) :=
  match (v.files d).parent with
  | none => .ok (v, Errno.perm.neg)
  | some _ =>
      match (v.files file).parent with
      | none => .error .nullDeref
      | some oldParent =>
          match IgnoreCaseDirectory.insertMove host v d name file with
          | .error e => .error e
          | .ok (v, err) =>
              if err ≠ 0 then .ok (v, err)
              else .ok (((v.setParent file (some d)).updateMTime host oldParent).updateMTime host d,
                0)

/-- `insertMove` of a special file.  It is no virtual file, so `devirtualize` reads what
lies behind its end. -/
def insertMoveSpecial (v : VirtualState) (d : VirtualId) (file : FileId) :
    Except Fault (VirtualState × Int) :=
  match (v.files d).parent with
  | none => .ok (v, Errno.perm.neg)
  | some _ =>
      match v.specialParent file with
      | none => .error .nullDeref
      | some _ => .error .outOfBounds

/-- `dcache.erase` at the key `name`. -/
def eraseCached (v : VirtualState) (d : VirtualId) (name : Name) : VirtualState :=
  v.modify d fun x => { x with dcache := dcacheErase name x.dcache }

/-- `removeChild` -/
def removeChild (host : Host) (v : VirtualState) (d : VirtualId) (name : Name) :
    Except Fault (VirtualState × Int) :=
  match (v.files d).dcache.lookup name with
  | none =>
      match IgnoreCaseDirectory.removeChild host v d name with
      | .error e => .error e
      | .ok (v, err) => if err ≠ 0 then .ok (v, err) else .ok (v.updateMTime host d, 0)
  | some entry =>
      if entry.kind = .mount then
        -- a mount is not known to the backend
        .ok (eraseCached v d name, 0)
      else
        match IgnoreCaseDirectory.removeChild host v d name with
        | .error e => .error e
        | .ok (v, err) =>
            if err ≠ 0 then .ok (v, err)
            else
              let v := { v with specialParent := Function.update v.specialParent entry.file none }
              .ok ((eraseCached v d name).updateMTime host d, 0)

/-- `getNumEntries` -/
def getNumEntries (v : VirtualState) (d : VirtualId) : Nat :=
  IgnoreCaseDirectory.getNumEntries v d +
    ((v.files d).dcache.filter fun e => e.2.kind == .mount).length

/-- `getEntries` -/
def getEntries (v : VirtualState) (d : VirtualId) : List Dirent :=
  IgnoreCaseDirectory.getEntries v d ++
    ((v.files d).dcache.filter fun e => e.2.kind == .mount).map fun e =>
      ⟨e.1, (v.real.files e.2.file).kind, some e.2.file⟩

end VirtualHandle

/-! ## The handles -/

namespace VisibleFile

def isDirectory (v : VirtualState) : VisibleFile → Bool
  | .virtual f => (v.files f).kind == .directory
  | .special f => (v.real.files f).isDirectory

/-- `getMode() & WASMFS_PERM_WRITE` -/
def writable (v : VirtualState) : VisibleFile → Bool
  | .virtual f => hasFlag (v.files f).mode WASMFS_PERM_WRITE
  | .special f => (v.real.files f).writable

def getBackend (v : VirtualState) : VisibleFile → BackendId
  | .virtual _ => v.backend
  | .special f => (v.real.files f).backend

def getParent (v : VirtualState) : VisibleFile → Option VisibleFile
  | .virtual f => (v.files f).parent.map .virtual
  | .special f => (v.specialParent f).map .virtual

/-- An operation on a virtual directory.  A special file is no directory. -/
def onDirectory {β : Type} (op : VirtualId → β) (none : β) : VisibleFile → β
  | .virtual d => op d
  | .special _ => none

end VisibleFile

/-- An insertion makes a virtual file. -/
def VirtualHandle.inserted (result : VirtualState × Option VirtualId) :
    VirtualState × Option VisibleFile :=
  (result.1, result.2.map .virtual)

/-- The handles of virtual and special files.  There are fewer wrappers of linked files
than files. -/
def IgnoreCaseDirectory.handles (host : Host) : Handles VirtualState VisibleFile where
  rootDirectory v := .virtual v.rootDirectory
  isDirectory := VisibleFile.isDirectory
  writable := VisibleFile.writable
  getBackend := VisibleFile.getBackend
  getParent := VisibleFile.getParent
  getChild v d name := d.onDirectory (fun d => VirtualHandle.getChild host v d name) (v, none)
  insertDataFile v d name mode := d.onDirectory (fun d => VirtualHandle.inserted
    (VirtualHandle.insert host v d (insertDataFile host v d name mode))) (v, none)
  insertDirectory v d name mode := d.onDirectory (fun d => VirtualHandle.inserted
    (VirtualHandle.insert host v d (insertDirectory host v d name mode))) (v, none)
  insertSymlink v d name target := d.onDirectory (fun d => VirtualHandle.inserted
    (VirtualHandle.insert host v d (insertSymlink host v d name target))) (v, none)
  insertMove v d name
    | .virtual file =>
        d.onDirectory (fun d => VirtualHandle.insertMove host v d name file) (.error .outOfBounds)
    | .special file =>
        d.onDirectory (fun d => VirtualHandle.insertMoveSpecial v d file) (.error .outOfBounds)
  removeChild v d name :=
    d.onDirectory (fun d => VirtualHandle.removeChild host v d name) (.error .outOfBounds)
  getNumEntries v d := d.onDirectory (fun d => VirtualHandle.getNumEntries v d) 0
  bound v := v.real.next + 1

/-! ## The start -/

/-- `IgnoreCaseBackend::createDirectory` over the memory backend. -/
def IgnoreCaseBackend.createDirectory (host : Host) (v : VirtualState) (mode : Nat) :
    VirtualState × VirtualId :=
  let (real, dir) := Init.make host v.real (.directory [] []) (mode ||| S_IFDIR) (some 0)
  -- insertions into the real directory need it to be linked
  virtualize host { v with real := real.setParent dir (some dir) } dir

namespace VirtualState

/-- The mount of a special file that does not exist yet. -/
def mountSpecial (host : Host) (v : VirtualState) (dev : VirtualId) (name : Name)
    (device : Device) (mode : Nat) : VirtualState :=
  let (real, file) := Init.special host v.real device mode
  (VirtualHandle.mountChild { v with real := real } dev name file).1

/-- The mounts of `/dev`. -/
def mountDevices (host : Host) (v : VirtualState) (dev : VirtualId) : VirtualState :=
  let v := v.mountSpecial host dev nullName .null (S_IRUGO ||| S_IWUGO)
  let v := (VirtualHandle.mountChild v dev stdinName Init.stdin).1
  let v := (VirtualHandle.mountChild v dev stdoutName Init.stdout).1
  let v := (VirtualHandle.mountChild v dev stderrName Init.stderr).1
  let v := v.mountSpecial host dev randomName .random S_IRUGO
  v.mountSpecial host dev urandomName .random S_IRUGO

/-- The memory before the root directory is made.  The memory backend is the first one.
The root directory will be the first virtual file, and it will wrap the file `Init.root`. -/
def blank (host : Host) : VirtualState where
  real := { Init.fileTable host Init.blank with rootDirectory := Init.root, cwd := Init.root }
  files := fun _ => { real := Init.root, kind := .directory, mode := 0 }
  next := 0
  specialParent := fun _ => none
  rootDirectory := 0
  backend := some 1

/-- The root directory of the source, which is its own parent, before `/dev` is made. -/
def bareRoot (host : Host) : VirtualState :=
  let (v, root) := IgnoreCaseBackend.createDirectory host (blank host)
    (S_IRUGO ||| S_IXUGO ||| S_IWUGO)
  v.setParent root (some root)

/-- A directory that is inserted into the root directory. -/
def insertDirectory (host : Host) (v : VirtualState) (name : Name) (mode : Nat) :
    VirtualState × Option VirtualId :=
  VirtualHandle.insert host v v.rootDirectory
    (IgnoreCaseDirectory.insertDirectory host v v.rootDirectory name mode)

/-- `WasmFS::WasmFS` in a build with `WASMFS_CASE_INSENSITIVE`. -/
def init (host : Host) : VirtualState :=
  let v := bareRoot host
  let v :=
    match v.insertDirectory host devName (S_IRUGO ||| S_IXUGO) with
    | (v, none) => v
    | (v, some dev) => mountDevices host v dev
  (v.insertDirectory host tmpName S_IRWXUGO).1

end VirtualState

end WasmFS
