import Mathlib.Logic.Function.Basic
import WasmFS.Lib.Vec
import WasmFS.Source.Machine

/-!
# The state of the file system

A `shared_ptr` to a file is a number.  The heap `State.files` maps it to the
file object, and `State.next` is the next number to hand out, so objects are
never confused and never freed.  Open descriptions live in a second heap.  A
parent pointer is a `weak_ptr` in the source.  A directory whose object has
gone has no entries and is nobody's parent, so reading the pointer from the
heap gives what `lock()` gives.

The host supplies what the source imports: the clock, the three standard
streams, the entropy source, the conversion of a timestamp to a `double`, and
the value of the libc symbol `dirfd`.  An answer of the host depends on how
many times it was asked before.  `State.trace` counts these questions and
records the calls of the `open` and `close` hooks of data files.  It is not
part of the file system.
-/

namespace WasmFS

open Lists

/-! ## Files -/

/-- The identity of a `File` object. -/
abbrev FileId := Nat

/-- The identity of an `OpenFileState` object. -/
abbrev OpenId := Nat

/-- `std::vector<uint8_t>::max_size()` on wasm32. -/
def Buffer.maxSize : Nat := 2147483647

/-- The buffer of a `MemoryDataFile`. -/
abbrev Buffer := Vec UInt8 Buffer.maxSize

/-- `std::string::max_size()` on wasm32. -/
def Target.maxSize : Nat := 2147483631

/-- The target of a `MemorySymlink`. -/
abbrev Target := Vec UInt8 Target.maxSize

/-- The classes of `special_files.cpp`. -/
inductive Device where
  | null | stdin | stdout | stderr | random
deriving DecidableEq, Repr

inductive DCacheKind where
  | normal | mount
deriving DecidableEq, Repr

structure DCacheEntry where
  kind : DCacheKind
  file : FileId
deriving DecidableEq, Repr

/-- What the subclasses of `File` store. -/
inductive Body where
  /-- `MemoryDataFile` -/
  | memory (buffer : Buffer)
  /-- A data file of `special_files.cpp`. -/
  | device (dev : Device)
  /-- `MemoryDirectory`, with the cache of `Directory`. -/
  | directory (entries : List (Name × FileId)) (dcache : List (Name × DCacheEntry))
  /-- `MemorySymlink` -/
  | symlink (target : Target)
deriving DecidableEq

/-- `backend_t`.  `none` is `NullBackend`. -/
abbrev BackendId := Option Nat

structure File where
  body : Body
  mode : Nat
  atime : Time := 0
  mtime : Time := 0
  ctime : Time := 0
  parent : Option FileId := none
  backend : BackendId := none
deriving DecidableEq

/-- `File::FileKind`.  `UnknownKind` never occurs. -/
inductive FileKind where
  | dataFile | directory | symlink
deriving DecidableEq, Repr

def File.kind (f : File) : FileKind :=
  match f.body with
  | .memory _ => .dataFile
  | .device _ => .dataFile
  | .directory _ _ => .directory
  | .symlink _ => .symlink

/-- `is<Directory>()` -/
def File.isDirectory (f : File) : Bool := f.kind == .directory

/-- `is<DataFile>()` -/
def File.isDataFile (f : File) : Bool := f.kind == .dataFile

/-- `getTarget()` of a symbolic link, `none` for any other file. -/
def File.target? (f : File) : Option Name :=
  match f.body with
  | .symlink target => some target.toList
  | _ => none

/-- The buffer of a `MemoryDataFile`, `none` for any other file. -/
def File.buffer? (f : File) : Option Buffer :=
  match f.body with
  | .memory buffer => some buffer
  | _ => none

/-- The entries of a `MemoryDirectory`. -/
def File.entries (f : File) : List (Name × FileId) :=
  match f.body with
  | .directory entries _ => entries
  | _ => []

/-- The cache of a `Directory`, which holds its mounts. -/
def File.dcache (f : File) : List (Name × DCacheEntry) :=
  match f.body with
  | .directory _ dcache => dcache
  | _ => []

def File.setEntries (f : File) (entries : List (Name × FileId)) : File :=
  { f with body := match f.body with
      | .directory _ dcache => .directory entries dcache
      | body => body }

def File.setDCache (f : File) (dcache : List (Name × DCacheEntry)) : File :=
  { f with body := match f.body with
      | .directory entries _ => .directory entries dcache
      | body => body }

def File.setBuffer (f : File) (buffer : Buffer) : File :=
  { f with body := match f.body with
      | .memory _ => .memory buffer
      | body => body }

/-- Only null and the files that are not special are seekable. -/
def File.isSeekable (f : File) : Bool :=
  match f.body with
  | .device .null => true
  | .device _ => false
  | _ => true

/-- `getSize()` -/
def File.getSize (f : File) : Int :=
  match f.body with
  | .memory buffer => buffer.size
  | .device _ => 0
  | .directory _ _ => 4096
  | .symlink target => target.size

/-- `getMode() & WASMFS_PERM_READ` -/
def File.readable (f : File) : Bool := hasFlag f.mode WASMFS_PERM_READ

/-- `getMode() & WASMFS_PERM_WRITE` -/
def File.writable (f : File) : Bool := hasFlag f.mode WASMFS_PERM_WRITE

/-! ## Open descriptions -/

/-- `Directory::Entry`.  An inode number is the address of the file, and that
of a null pointer is zero. -/
structure Dirent where
  name : Name
  kind : FileKind
  ino : Option FileId
deriving DecidableEq, Repr

structure OpenFileState where
  file : FileId
  position : Int := 0
  flags : Nat
  uses : Int := 0
  dirents : List Dirent := []
deriving DecidableEq, Repr

/-! ## The host -/

structure Host where
  /-- `emscripten_date_now()` -/
  now : Nat → Time
  /-- The conversion of a `__wasi_timestamp_t` to `double`. -/
  timestamp : UInt64 → Time
  /-- `read_stdin(buf, len, offset)`: the count and the bytes left in `buf`. -/
  readStdin : Nat → Nat → Int → Nat × List UInt8
  /-- `write_stdout(buf, len, offset)`: the count. -/
  writeStdout : Nat → List UInt8 → Int → Nat
  /-- `write_stderr(buf, len, offset)`: the count. -/
  writeStderr : Nat → List UInt8 → Int → Nat
  /-- `getentropy(buf, len)` -/
  entropy : Nat → Nat → List UInt8
  /-- The function `dirfd` of libc, converted to `int`. -/
  dirfd : UInt32

/-- A call of a hook of a data file. -/
inductive Hook where
  | opened (f : FileId)
  | closed (f : FileId)
deriving DecidableEq, Repr

structure Trace where
  /-- How often the host was asked. -/
  calls : Nat := 0
  /-- The hooks called, newest first. -/
  hooks : List Hook := []
deriving DecidableEq, Repr

/-! ## The state -/

structure State where
  files : FileId → File
  next : FileId
  /-- `WasmFS::rootDirectory` -/
  rootDirectory : FileId
  /-- `WasmFS::cwd` -/
  cwd : FileId
  descriptions : OpenId → OpenFileState
  nextDescription : OpenId
  /-- `FileTable::entries` -/
  table : List (Option OpenId)
  trace : Trace

namespace State

/-- Update the file object `f`. -/
def modify (s : State) (f : FileId) (g : File → File) : State :=
  { s with files := Function.update s.files f (g (s.files f)) }

@[simp] theorem files_modify (s : State) (f : FileId) (g : File → File) :
    (s.modify f g).files f = g (s.files f) :=
  Function.update_self ..

theorem files_modify_of_ne (s : State) {f f' : FileId} (g : File → File) (h : f' ≠ f) :
    (s.modify f g).files f' = s.files f' :=
  Function.update_of_ne h ..

/-- Update the open description `o`. -/
def modifyOpen (s : State) (o : OpenId) (g : OpenFileState → OpenFileState) : State :=
  { s with descriptions := Function.update s.descriptions o (g (s.descriptions o)) }

@[simp] theorem modifyOpen_self (s : State) (o : OpenId) (g : OpenFileState → OpenFileState) :
    (s.modifyOpen o g).descriptions o = g (s.descriptions o) :=
  Function.update_self ..

theorem modifyOpen_of_ne (s : State) {o o' : OpenId} (g : OpenFileState → OpenFileState)
    (h : o' ≠ o) : (s.modifyOpen o g).descriptions o' = s.descriptions o' :=
  Function.update_of_ne h ..

/-- `setParent` -/
def setParent (s : State) (f : FileId) (parent : Option FileId) : State :=
  s.modify f fun x => { x with parent := parent }

/-- `getParent` -/
def getParent (s : State) (f : FileId) : Option FileId := (s.files f).parent

/-- `make_shared` of a file object. -/
def alloc (s : State) (x : File) : State × FileId :=
  ({ s with files := Function.update s.files s.next x, next := s.next + 1 }, s.next)

/-- `make_shared` of an open description. -/
def allocOpen (s : State) (x : OpenFileState) : State × OpenId :=
  ({ s with
      descriptions := Function.update s.descriptions s.nextDescription x,
      nextDescription := s.nextDescription + 1 }, s.nextDescription)

/-- The host has been asked once more. -/
def ask (s : State) : State := { s with trace := { s.trace with calls := s.trace.calls + 1 } }

/-- A hook of a data file has been called. -/
def hook (s : State) (h : Hook) : State :=
  { s with trace := { s.trace with hooks := h :: s.trace.hooks } }

/-- `updateMTime` -/
def updateMTime (host : Host) (s : State) (f : FileId) : State :=
  (s.modify f fun x => { x with mtime := host.now s.trace.calls }).ask

end State

end WasmFS
