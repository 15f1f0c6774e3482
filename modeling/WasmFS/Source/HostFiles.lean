import WasmFS.Lib.Sharing
import WasmFS.Source.Machine

/-!
# Files of the host

A file of the Node backend or of the OPFS backend is a file of the host.  It may be
open many times, and it maps all these opens to one descriptor of the host
(`node_backend.cpp`, `opfs_backend.cpp`).  The answer of the host to an open is an
argument, a descriptor or a negative error.  What the host was granted is returned
with the result, newest first.

`none` is a failed assertion or a branch marked unreachable.
-/

namespace WasmFS

open Sharing (Request)

/-! ## Node -/

/-- The modes of `_wasmfs_node_open`: `"r"`, `"w"` and `"r+"`. -/
inductive NodeMode where
  | r
  | w
  | rPlus
deriving DecidableEq, Repr

/-- The state of a file on the underlying Node file system. -/
structure NodeState where
  openCount : UInt32 := 0
  openFlags : Nat := 0
  fd : Int := -1
deriving DecidableEq, Repr

namespace NodeState

abbrev Requests := List (Request Int NodeMode)

def getFD (s : NodeState) : Option Int := if 0 < s.openCount then some s.fd else none

def isOpen (s : NodeState) : Bool := 0 < s.openCount

/-- The switch for a fresh descriptor. -/
def modeOf (flags : Nat) : Option NodeMode :=
  if flags = O_RDONLY then some .r
  else if flags = O_WRONLY then some .w
  else if flags = O_RDWR then some .rPlus
  else none

/-- The descriptor has to be replaced by one with more access. -/
def NeedsMore (s : NodeState) (flags : Nat) : Prop :=
  (s.openFlags = O_RDONLY ∧ (flags = O_WRONLY ∨ flags = O_RDWR)) ∨
    (s.openFlags = O_WRONLY ∧ (flags = O_RDONLY ∨ flags = O_RDWR))

instance (s : NodeState) (flags : Nat) : Decidable (s.NeedsMore flags) :=
  inferInstanceAs (Decidable (_ ∨ _))

def open_ (host : NodeMode → Int) (s : NodeState) (flags : Nat) :
    Option (Int × NodeState × Requests) :=
  if s.openCount = 0 then
    match modeOf flags with
    | none => none
    | some m =>
        if host m < 0 then some (host m, s, [])
        else some (0, ⟨s.openCount + 1, flags, host m⟩, [.acquire (host m) m])
  else if s.NeedsMore flags then
    if host .rPlus < 0 then some (host .rPlus, s, [])
    else
      some (0, ⟨s.openCount + 1, flags, host .rPlus⟩,
        [.release s.fd, .acquire (host .rPlus) .rPlus])
  else some (0, { s with openCount := s.openCount + 1 }, [])

/-- The result of `_wasmfs_node_close` is an argument. -/
def close (ret : Int) (s : NodeState) : Int × NodeState × Requests :=
  if s.openCount - 1 = 0 then (ret, {}, [.release s.fd])
  else (0, { s with openCount := s.openCount - 1 }, [])

end NodeState

namespace NodeFile

/-- What `NodeFile::getSize` asks the host about: the descriptor, or the path. -/
def getSize (s : NodeState) : Option (Option Int) :=
  if s.isOpen then s.getFD.map some else some none

/-- The descriptor that `NodeFile::read` reads from. -/
def read (s : NodeState) : Option Int := s.getFD

/-- The descriptor that `NodeFile::write` writes to. -/
def write (s : NodeState) : Option Int := s.getFD

end NodeFile

/-! ## OPFS -/

/-- `OpenState::Kind` -/
inductive OpenKind where
  | none
  | access
  | blob
deriving DecidableEq, Repr

/-- A handle of the host, by its kind and its number.  Access handles and blobs are
numbered apart. -/
abbrev OpfsHandle := OpenKind × Int

structure OpenState where
  kind : OpenKind := .none
  id : Int := -1
  openCount : UInt32 := 0
deriving DecidableEq, Repr

namespace OpenState

abbrev Requests := List (Request OpfsHandle OpenKind)

def getAccessID (s : OpenState) : Option Int :=
  if 0 < s.openCount ∧ 0 ≤ s.id ∧ s.kind = .access then some s.id else none

def getBlobID (s : OpenState) : Option Int :=
  if 0 < s.openCount ∧ 0 ≤ s.id ∧ s.kind = .blob then some s.id else none

/-- The first open of the file, once the kind of handle is chosen. -/
def openAs (host : OpenKind → Int) (s : OpenState) (k : OpenKind) : Int × OpenState × Requests :=
  if host k < 0 then (host k, { s with id := host k }, [])
  else (0, ⟨k, host k, s.openCount + 1⟩, [.acquire (k, host k) k])

def open_ (host : OpenKind → Int) (s : OpenState) (flags : Nat) :
    Option (Int × OpenState × Requests) :=
  match s.kind with
  | .none =>
      if s.openCount ≠ 0 then none
      else if flags = O_RDWR ∨ flags = O_WRONLY then some (s.openAs host .access)
      else if flags = O_RDONLY then some (s.openAs host .blob)
      else none
  | k =>
      if k = .blob ∧ (flags = O_WRONLY ∨ flags = O_RDWR) then
        if host .access < 0 then some (host .access, s, [])
        else
          s.getBlobID.map fun blob =>
            (0, ⟨.access, host .access, s.openCount + 1⟩,
              [.release (.blob, blob), .acquire (.access, host .access) .access])
      else some (0, { s with openCount := s.openCount + 1 }, [])

/-- The error of `_wasmfs_opfs_close_access` is an argument. -/
def close (err : Int) (s : OpenState) : Option (Int × OpenState × Requests) :=
  if s.openCount - 1 = 0 then
    match s.kind with
    | .access => some (err, {}, [.release (.access, s.id)])
    | .blob => some (0, {}, [.release (.blob, s.id)])
    | .none => none
  else some (0, { s with openCount := s.openCount - 1 }, [])

end OpenState

namespace OPFSFile

/-- What a call does with the host: it uses a handle, it uses the file without one,
or it is answered with an error before. -/
inductive Use where
  | handle (h : OpfsHandle)
  | file
  | refused (err : Int)
  | nothing
deriving DecidableEq, Repr

def useAccess (s : OpenState) : Option Use := s.getAccessID.map fun id => .handle (.access, id)

def useBlob (s : OpenState) : Option Use := s.getBlobID.map fun id => .handle (.blob, id)

def getSize (s : OpenState) : Option Use :=
  match s.kind with
  | .none => some .file
  | .access => useAccess s
  | .blob => useBlob s

/-- A blob cannot be truncated. -/
def setSize (s : OpenState) : Option Use :=
  match s.kind with
  | .access => useAccess s
  | .blob => some (.refused Errno.io.neg)
  | .none => some .file

def read (s : OpenState) : Option Use :=
  match s.kind with
  | .access => useAccess s
  | .blob => useBlob s
  | .none => none

def write (s : OpenState) : Option Use := if s.kind = .access then useAccess s else none

def flush (s : OpenState) : Option Use :=
  match s.kind with
  | .access => useAccess s
  | _ => some .nothing

end OPFSFile

end WasmFS
