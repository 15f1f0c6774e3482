import WasmFS.Source.State

/-!
# Directories

`MemoryDirectory` keeps its children in a vector of entries
(`memory_backend.cpp`), and `Directory::Handle` (`file.cpp`) puts a cache in
front of it.  A memory directory maintains file identity itself, so the cache
only ever holds mounts.

A lookup is not pure: it sets the parent pointer of the child it finds in the
backend.  So every operation here returns the state it leaves.
-/

namespace WasmFS

/-! ## The backend: `MemoryDirectory` -/

namespace MemoryDirectory

/-- `insertChild`: append an entry. -/
def insertChild (s : State) (d : FileId) (name : Name) (child : FileId) : State :=
  s.modify d fun x => x.setEntries (x.entries ++ [(name, child)])

/-- `findEntry` and `getChild`: the first entry of that name. -/
def getChild (s : State) (d : FileId) (name : Name) : Option FileId :=
  (s.files d).entries.lookup name

/-- `removeChild`: orphan and erase the first entry of that name, if any.  The
answer is always 0. -/
def removeChild (s : State) (d : FileId) (name : Name) : State :=
  match getChild s d name with
  | none => s
  | some child =>
      (s.setParent child none).modify d fun x =>
        x.setEntries (x.entries.eraseP fun e => e.1 == name)

/-- `insertMove`: erase the entry of `file` in its old directory, remove what
has the new name here, and append the new entry.  The answer is always 0. -/
def insertMove (s : State) (d : FileId) (name : Name) (file oldParent : FileId) : State :=
  let s := s.modify oldParent fun x => x.setEntries (x.entries.eraseP fun e => e.2 == file)
  let s := removeChild s d name
  insertChild s d name file

/-- `getNumEntries` -/
def getNumEntries (s : State) (d : FileId) : Nat := (s.files d).entries.length

/-- `getEntries` -/
def getEntries (s : State) (d : FileId) : List Dirent :=
  (s.files d).entries.map fun e => ⟨e.1, (s.files e.2).kind, some e.2⟩

/-- `maintainsFileIdentity` -/
def maintainsFileIdentity : Bool := true

end MemoryDirectory

/-! ## The cache: `std::map<std::string, DCacheEntry>` -/

/-- `dcache.insert({name, entry})`: keep the keys sorted, and change nothing if
the key is there. -/
def dcacheInsert (name : Name) (entry : DCacheEntry) :
    List (Name × DCacheEntry) → List (Name × DCacheEntry)
  | [] => [(name, entry)]
  | e :: es =>
      if name = e.1 then e :: es
      else if name < e.1 then (name, entry) :: e :: es
      else e :: dcacheInsert name entry es

/-- `it->second = entry` at the key `name`. -/
def dcacheAssign (name : Name) (entry : DCacheEntry) (dcache : List (Name × DCacheEntry)) :
    List (Name × DCacheEntry) :=
  dcache.map fun e => if e.1 = name then (name, entry) else e

/-- `dcache.erase` at the key `name`. -/
def dcacheErase (name : Name) (dcache : List (Name × DCacheEntry)) : List (Name × DCacheEntry) :=
  dcache.filter fun e => e.1 != name

/-! ## The handle: `Directory::Handle` -/

namespace Directory

/-- `cacheChild` -/
def cacheChild (s : State) (d : FileId) (name : Name) (child : FileId) (kind : DCacheKind) :
    State :=
  let s :=
    if kind = .mount ∨ MemoryDirectory.maintainsFileIdentity = false then
      s.modify d fun x => x.setDCache (dcacheInsert name ⟨kind, child⟩ x.dcache)
    else s
  s.setParent child (some d)

/-- `getChild` -/
def getChild (s : State) (d : FileId) (name : Name) : State × Option FileId :=
  match s.getParent d with
  -- an unlinked directory is empty, without even "." and ".."
  | none => (s, none)
  | some parent =>
      if name = dot then (s, some d)
      else if name = dotdot then (s, some parent)
      else
        match (s.files d).dcache.lookup name with
        | some entry => (s, some entry.file)
        | none =>
            match MemoryDirectory.getChild s d name with
            | none => (s, none)
            | some child => (cacheChild s d name child .normal, some child)

/-- `mountChild` -/
def mountChild (s : State) (d : FileId) (name : Name) (child : FileId) : State × Bool :=
  match s.getParent d with
  | none => (s, false)
  | some _ => (cacheChild s d name child .mount, true)

/-- The common body of `insertDataFile`, `insertDirectory` and `insertSymlink`.
The new file is stamped with one reading of the clock and gets the backend of
the directory. -/
def insert (host : Host) (s : State) (d : FileId) (name : Name) (body : Body) (mode : Nat) :
    State × Option FileId :=
  match s.getParent d with
  | none => (s, none)
  | some _ =>
      let now := host.now s.trace.calls
      let (s, child) := s.ask.alloc
        { body := body, mode := mode, atime := now, mtime := now, ctime := now,
          backend := (s.files d).backend }
      let s := MemoryDirectory.insertChild s d name child
      let s := cacheChild s d name child .normal
      (s.updateMTime host d, some child)

/-- `insertDataFile` -/
def insertDataFile (host : Host) (s : State) (d : FileId) (name : Name) (mode : Nat) :
    State × Option FileId :=
  insert host s d name (.memory Vec.empty) (mode ||| S_IFREG)

/-- `insertDirectory` -/
def insertDirectory (host : Host) (s : State) (d : FileId) (name : Name) (mode : Nat) :
    State × Option FileId :=
  insert host s d name (.directory [] []) (mode ||| S_IFDIR)

/-- `insertSymlink` -/
def insertSymlink (host : Host) (s : State) (d : FileId) (name : Name) (target : Target) :
    State × Option FileId :=
  insert host s d name (.symlink target) S_IFLNK

/-- The cache update of `insertMove`: if the old directory's cache holds the
file, take it out and put it under the new name here, orphaning what is there. -/
def moveCached (s : State) (d : FileId) (name : Name) (oldParent : FileId)
    (old : Option (Name × DCacheEntry)) : State :=
  match old with
  | none => s
  | some (oldName, entry) =>
      let s := s.modify oldParent fun x => x.setDCache (dcacheErase oldName x.dcache)
      match (s.files d).dcache.lookup name with
      | none => s.modify d fun x => x.setDCache (dcacheInsert name entry x.dcache)
      | some displaced =>
          (s.setParent displaced.file none).modify d fun x =>
            x.setDCache (dcacheAssign name entry x.dcache)

/-- `insertMove` -/
def insertMove (host : Host) (s : State) (d : FileId) (name : Name) (file : FileId) :
    Except Fault (State × Int) :=
  match s.getParent d with
  | none => .ok (s, Errno.perm.neg)
  | some _ =>
      match s.getParent file with
      | none => .error .nullDeref
      | some oldParent =>
          let old := (s.files oldParent).dcache.find? fun e => e.2.file == file
          let s := MemoryDirectory.insertMove s d name file oldParent
          let s := moveCached s d name oldParent old
          let s := s.setParent file (some d)
          let s := s.updateMTime host oldParent
          .ok (s.updateMTime host d, 0)

/-- `removeChild` -/
def removeChild (host : Host) (s : State) (d : FileId) (name : Name) : State × Int :=
  match (s.files d).dcache.lookup name with
  | none => ((MemoryDirectory.removeChild s d name).updateMTime host d, 0)
  | some entry =>
      if entry.kind = .mount then
        -- a mount is not known to the backend
        (s.modify d fun x => x.setDCache (dcacheErase name x.dcache), 0)
      else
        let s := (MemoryDirectory.removeChild s d name).setParent entry.file none
        let s := s.modify d fun x => x.setDCache (dcacheErase name x.dcache)
        (s.updateMTime host d, 0)

/-- `getNumEntries` -/
def getNumEntries (s : State) (d : FileId) : Nat :=
  MemoryDirectory.getNumEntries s d +
    ((s.files d).dcache.filter fun e => e.2.kind == .mount).length

/-- `getEntries` -/
def getEntries (s : State) (d : FileId) : List Dirent :=
  MemoryDirectory.getEntries s d ++
    ((s.files d).dcache.filter fun e => e.2.kind == .mount).map fun e =>
      ⟨e.1, (s.files e.2.file).kind, some e.2.file⟩

end Directory

end WasmFS
