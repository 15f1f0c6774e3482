import WasmFS.Source.Syscalls

/-!
# The working directory

The calls of `syscalls.cpp` that change the working directory and report it.  The
working directory is held by a pointer, so it may be removed while it is in use, and
its path is not stored anywhere.  `getcwd` climbs from it to the root and asks each
parent for the name of the child it came from.
-/

namespace WasmFS

/-- `MemoryDirectory::getName`: the name of the first entry with the file. -/
def MemoryDirectory.getName (s : State) (d file : FileId) : Name :=
  (((s.files d).entries.find? fun e => e.2 == file).map Prod.fst).getD []

/-- `Directory::Handle::getName` -/
def Directory.getName (s : State) (d file : FileId) : Name := MemoryDirectory.getName s d file

namespace Syscall

/-- Two more error numbers. -/
def EFAULT : Int := 21
def ERANGE : Int := 68

/-- `doChdir` -/
def doChdir (s : State) (file : FileId) : State × Int :=
  if (s.files file).isDirectory then ({ s with cwd := file }, 0) else (s, Errno.notdir.neg)

/-- `__syscall_chdir` -/
def chdir (s : State) (path : List UInt8) : State × Int :=
  match Path.parseFile s (cstr path) Path.AT_FDCWD .followLinks with
  | (s, .error e) => (s, e.neg)
  | (s, .ok file) => doChdir s file

/-- `__syscall_fchdir` -/
def fchdir (s : State) (fd : Nat) : State × Int :=
  match FileTable.getEntry s fd with
  | none => (s, Errno.badf.neg)
  | some o => doChdir s (s.descriptions o).file

/-- The ways the loop of `getcwd` can end. -/
inductive Climb where
  | atRoot (result : Name)
  | unlinked
  | outOfFuel
deriving DecidableEq, Repr

/-- The loop of `__syscall_getcwd`. -/
def climb (s : State) : Nat → FileId → Name → Climb
  | 0, _, _ => .outOfFuel
  | fuel + 1, curr, result =>
      if curr = s.rootDirectory then .atRoot result
      else
        match s.getParent curr with
        | none => .unlinked
        | some parentDir =>
            climb s fuel parentDir (slash :: Directory.getName s parentDir curr ++ result)

/-- The end of `__syscall_getcwd`: the result and what is written into the buffer. -/
def copyPath (result : Name) (size : Nat) : Int × List UInt8 :=
  let res := cstr (if result = [] then [slash] else result)
  let len := s32 (res.length + 1)
  if u32 len ≥ size then (-ERANGE, []) else (len, res ++ [0])

/-- `__syscall_getcwd`, where `buf` says whether the buffer is not null. -/
def getcwd (s : State) (buf : Bool) (size : UInt32) : Except Fault (Int × List UInt8) :=
  if !buf ∧ 0 < size then .ok (-EFAULT, [])
  else if buf ∧ size = 0 then .ok (Errno.inval.neg, [])
  else
    match climb s (s.next + 1) s.cwd [] with
    | .atRoot result => .ok (copyPath result size.toNat)
    | .unlinked => .ok (Errno.noent.neg, [])
    | .outOfFuel => .error .diverges

end Syscall

end WasmFS
