import WasmFS.Source.Directory

/-!
# The file table

`FileTable::entries` is a vector of open descriptions with holes.  `setEntry` is
meant to be the only way to fill or empty a slot, and keeps in `uses` the number
of slots that hold a description.  The constructor of the table fills three
slots by another route.
-/

namespace WasmFS

/-- `entries.max_size()` on wasm32: a slot takes eight bytes. -/
def FileTable.maxSize : Nat := 536870911

namespace FileTable

/-- `getEntry` -/
def getEntry (s : State) (fd : Nat) : Option OpenId := (s.table[fd]?).join

/-- `entries.resize(fd + 1)` when the slot is past the end. -/
def grow (s : State) (fd : Nat) : Except Fault State :=
  if fd < s.table.length then .ok s
  else if fd + 1 > maxSize then .error .lengthError
  else .ok { s with table := Lists.resize none s.table (fd + 1) }

/-- `++openFile->uses` -/
def acquire (s : State) : Option OpenId → State
  | none => s
  | some o => s.modifyOpen o fun x => { x with uses := x.uses + 1 }

/-- `--entries[fd]->uses`, and the file to close if that leaves none and it is
a data file. -/
def release (s : State) : Option OpenId → State × Option FileId
  | none => (s, none)
  | some o =>
      let s := s.modifyOpen o fun x => { x with uses := x.uses - 1 }
      let d := s.descriptions o
      (s, if d.uses = 0 ∧ (s.files d.file).isDataFile then some d.file else none)

/-- `setEntry`: the file to be closed by the caller, if any. -/
def setEntry (s : State) (fd : Nat) (openFile : Option OpenId) :
    Except Fault (State × Option FileId) :=
  match grow s fd with
  | .error e => .error e
  | .ok s =>
      let s := acquire s openFile
      let (s, closee) := release s (getEntry s fd)
      .ok ({ s with table := s.table.set fd openFile }, closee)

/-- The search of `addEntry`: the first slot from `i` on that holds nothing. -/
def firstFree : List (Option OpenId) → Nat → Nat
  | [], i => i
  | none :: _, i => i
  | some _ :: slots, i => firstFree slots (i + 1)

/-- `addEntry` -/
def addEntry (s : State) (openFile : OpenId) : Except Fault (State × Int) :=
  let fd := firstFree s.table 0
  match setEntry s fd (some openFile) with
  | .error e => .error e
  | .ok (s, _) => .ok (s, fd)

end FileTable

/-! ## Opening a file: `OpenFileState::create` -/

namespace OpenFileState

/-- The entries of a directory at the moment it is opened. -/
def snapshot (s : State) (d : FileId) : List Dirent :=
  ⟨dot, .directory, some d⟩ :: ⟨dotdot, .directory, s.getParent d⟩ :: Directory.getEntries s d

/-- `OpenFileState::create`.  The hook of a data file of this build succeeds. -/
def create (s : State) (file : FileId) (flags : Nat) : State × OpenId :=
  match (s.files file).kind with
  | .dataFile => (s.hook (.opened file)).allocOpen { file := file, flags := flags }
  | .directory => s.allocOpen { file := file, flags := flags, dirents := snapshot s file }
  | .symlink => s.allocOpen { file := file, flags := flags }

end OpenFileState

end WasmFS
