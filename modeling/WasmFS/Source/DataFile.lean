import WasmFS.Source.FileTable

/-!
# Data files and data calls

`MemoryDataFile` reads and writes a vector of bytes (`memory_backend.cpp`), the
special files answer on their own or ask the host (`special_files.cpp`), and
`writeAtOffset` and `readAtOffset` run a list of segments through one of them
(`syscalls.cpp`).

An offset crosses several integer types on its way.  It is unsigned with 64 bits
in the loops, signed with 64 bits at a file, and unsigned with 32 bits as an
index into the vector.  The conversions stand where the source has them.
-/

namespace WasmFS

/-! ## Memory files -/

namespace MemoryDataFile

/-- `memcpy(&buffer[offset], buf, len)` -/
def copyIn (buffer : Buffer) (offset : Int) (buf : List UInt8) : Except Fault Buffer :=
  match buffer.copyIn? (u32 offset) buf with
  | none => .error .outOfBounds
  | some buffer => .ok buffer

/-- `memcpy(buf, &buffer[offset], len)` -/
def copyOut (buffer : Buffer) (offset : Int) (len : Nat) : Except Fault (List UInt8) :=
  match buffer.copyOut? (u32 offset) len with
  | none => .error .outOfBounds
  | some bytes => .ok bytes

/-- `buffer.resize(size)` -/
def resize (buffer : Buffer) (size : Int) : Except Fault Buffer :=
  match buffer.resize? 0 (u32 size) with
  | none => .error .lengthError
  | some buffer => .ok buffer

/-- `MemoryDataFile::write`: the buffer and the `ssize_t` returned. -/
def write (buffer : Buffer) (buf : List UInt8) (offset : Int) : Except Fault (Buffer × Int) :=
  let len := buf.length
  let stop := s64 (offset + len)
  if stop > buffer.size then
    -- the size fits in an off_t but not in the container
    if stop > Buffer.maxSize then .ok (buffer, Errno.io.neg)
    else
      match resize buffer stop with
      | .error e => .error e
      | .ok buffer =>
          match copyIn buffer offset buf with
          | .error e => .error e
          | .ok buffer => .ok (buffer, s32 len)
  else
    match copyIn buffer offset buf with
    | .error e => .error e
    | .ok buffer => .ok (buffer, s32 len)

/-- The number of bytes `MemoryDataFile::read` copies. -/
def readLength (buffer : Buffer) (len : Nat) (offset : Int) : Nat :=
  if offset ≥ buffer.size then 0
  else if s64 (offset + len) ≥ buffer.size then u32 (buffer.size - offset)
  else len

/-- `MemoryDataFile::read`: the bytes copied and the `ssize_t` returned. -/
def read (buffer : Buffer) (len : Nat) (offset : Int) : Except Fault (List UInt8 × Int) :=
  let len := readLength buffer len offset
  match copyOut buffer offset len with
  | .error e => .error e
  | .ok bytes => .ok (bytes, s32 len)

end MemoryDataFile

/-! ## Data files in general -/

namespace DataFile

/-- `DataFile::Handle::write`: the state and the `ssize_t` returned. -/
def write (host : Host) (s : State) (f : FileId) (buf : List UInt8) (offset : Int) :
    Except Fault (State × Int) :=
  match (s.files f).body with
  | .memory buffer =>
      match MemoryDataFile.write buffer buf offset with
      | .error e => .error e
      | .ok (buffer, result) => .ok (s.modify f fun x => x.setBuffer buffer, result)
  | .device .null => .ok (s, s32 buf.length)
  | .device .stdout => .ok (s.ask, s32 (host.writeStdout s.trace.calls buf offset))
  | .device .stderr => .ok (s.ask, s32 (host.writeStderr s.trace.calls buf offset))
  | _ => .ok (s, Errno.inval.neg)

/-- `DataFile::Handle::read`: the state, the bytes left in the buffer, and the
`ssize_t` returned. -/
def read (host : Host) (s : State) (f : FileId) (len : Nat) (offset : Int) :
    Except Fault (State × List UInt8 × Int) :=
  match (s.files f).body with
  | .memory buffer =>
      match MemoryDataFile.read buffer len offset with
      | .error e => .error e
      | .ok (bytes, result) => .ok (s, bytes, result)
  | .device .null => .ok (s, [], 0)
  | .device .stdin =>
      let (count, bytes) := host.readStdin s.trace.calls len offset
      .ok (s.ask, bytes, s32 count)
  | .device .random => .ok (s.ask, host.entropy s.trace.calls len, s32 len)
  | _ => .ok (s, [], Errno.inval.neg)

/-- `setSize` -/
def setSize (s : State) (f : FileId) (size : Int) : Except Fault (State × Int) :=
  match (s.files f).body with
  | .memory buffer =>
      match MemoryDataFile.resize buffer size with
      | .error e => .error e
      | .ok buffer => .ok (s.modify f fun x => x.setBuffer buffer, 0)
  | _ => .ok (s, Errno.perm.neg)

end DataFile

/-! ## Vectored transfers -/

/-- `__wasi_ciovec_t`: the bytes at the pointer.  Those of a null pointer stand
for its length only. -/
structure CIovec where
  isNull : Bool := false
  bytes : List UInt8
  len_lt : bytes.length < 4294967296

/-- `__wasi_iovec_t` -/
structure Iovec where
  isNull : Bool := false
  len : UInt32

/-- `enum class OffsetHandling`, with the offset in the second case. -/
inductive OffsetHandling where
  | openFileState
  | argument (offset : UInt64)
deriving DecidableEq

/-- `addWillOverFlow` at `__wasi_filesize_t` -/
def addWillOverFlow (a b : Nat) : Bool := decide (a > 0) && decide (b > 18446744073709551615 - a)

/-- The loop of `writeAtOffset`: the bytes written, or the code to return. -/
def writeLoop (host : Host) (f : FileId) (offset : Nat) :
    List CIovec → Nat → State → Except Fault (State × Except Int Nat)
  | [], bytesWritten, s => .ok (s, .ok bytesWritten)
  | iov :: iovs, bytesWritten, s =>
      if iov.isNull ∧ iov.bytes.length > 0 then .ok (s, .error Errno.inval.code)
      else if addWillOverFlow offset bytesWritten then .ok (s, .error Errno.fbig.code)
      else
        match DataFile.write host s f iov.bytes (s64 (u64 (offset + bytesWritten))) with
        | .error e => .error e
        | .ok (s, result) =>
            if result < 0 then
              -- an error after some bytes were written is a short write
              if bytesWritten > 0 then .ok (s, .ok bytesWritten) else .ok (s, .error (-result))
            else
              let bytesWritten := u32 (bytesWritten + result)
              if result < iov.bytes.length then .ok (s, .ok bytesWritten)
              else writeLoop host f offset iovs bytesWritten s

/-- The loop of `readAtOffset`: the bytes delivered with their number, or the
code to return. -/
def readLoop (host : Host) (f : FileId) (offset : Nat) :
    List Iovec → Nat → State → Except Fault (State × Except Int (Nat × List UInt8))
  | [], bytesRead, s => .ok (s, .ok (bytesRead, []))
  | iov :: iovs, bytesRead, s =>
      if iov.isNull ∧ iov.len.toNat > 0 then .ok (s, .error Errno.inval.code)
      else
        match DataFile.read host s f iov.len.toNat (s64 (u64 (offset + bytesRead))) with
        | .error e => .error e
        | .ok (s, bytes, result) =>
            if result < 0 then
              if bytesRead > 0 then .ok (s, .ok (bytesRead, [])) else .ok (s, .error (-result))
            else
              let bytesRead := u32 (bytesRead + result)
              if u32 result < iov.len.toNat then .ok (s, .ok (bytesRead, bytes))
              else
                match readLoop host f offset iovs bytesRead s with
                | .error e => .error e
                | .ok (s, .error code) => .ok (s, .error code)
                | .ok (s, .ok (total, more)) => .ok (s, .ok (total, bytes ++ more))

/-- The offset at which a write starts, and the state in which it does. -/
def writeStart (s : State) (o : OpenId) : OffsetHandling → State × Nat
  | .argument offset => (s, offset.toNat)
  | .openFileState =>
      let d := s.descriptions o
      if hasFlag d.flags O_APPEND then
        let size := (s.files d.file).getSize
        (s.modifyOpen o fun x => { x with position := size }, u64 size)
      else (s, u64 d.position)

/-- The offset at which a read starts. -/
def readStart (s : State) (o : OpenId) : OffsetHandling → Nat
  | .argument offset => offset.toNat
  | .openFileState => u64 (s.descriptions o).position

/-- The update of the position after `bytes` bytes were moved from `offset`. -/
def advance (s : State) (o : OpenId) (setOffset : OffsetHandling) (offset bytes : Nat) : State :=
  if setOffset = .openFileState ∧ (s.files (s.descriptions o).file).isSeekable then
    s.modifyOpen o fun x => { x with position := s64 (u64 (offset + bytes)) }
  else s

/-- `writeAtOffset`: the code returned, and the bytes written on success. -/
def writeAtOffset (host : Host) (s : State) (setOffset : OffsetHandling) (fd : Nat)
    (iovs : List CIovec) : Except Fault (State × Except Int Nat) :=
  match FileTable.getEntry s fd with
  | none => .ok (s, .error Errno.badf.code)
  | some o =>
      let f := (s.descriptions o).file
      if ¬ (s.files f).isDataFile then .ok (s, .error Errno.isdir.code)
      else
        let (s, offset) := writeStart s o setOffset
        match writeLoop host f offset iovs 0 s with
        | .error e => .error e
        | .ok (s, .error code) => .ok (s, .error code)
        | .ok (s, .ok bytesWritten) =>
            let s := advance s o setOffset offset bytesWritten
            let s := if bytesWritten ≠ 0 then s.updateMTime host f else s
            .ok (s, .ok bytesWritten)

/-- `readAtOffset`: the code returned, and the bytes read on success. -/
def readAtOffset (host : Host) (s : State) (setOffset : OffsetHandling) (fd : Nat)
    (iovs : List Iovec) : Except Fault (State × Except Int (Nat × List UInt8)) :=
  match FileTable.getEntry s fd with
  | none => .ok (s, .error Errno.badf.code)
  | some o =>
      let f := (s.descriptions o).file
      if ¬ (s.files f).isDataFile then .ok (s, .error Errno.isdir.code)
      else
        let offset := readStart s o setOffset
        match readLoop host f offset iovs 0 s with
        | .error e => .error e
        | .ok (s, .error code) => .ok (s, .error code)
        | .ok (s, .ok (bytesRead, bytes)) =>
            .ok (advance s o setOffset offset bytesRead, .ok (bytesRead, bytes))

/-! ## Sizes -/

namespace Syscall

/-- `doTruncate` -/
def doTruncate (s : State) (file : FileId) (size : Int) : Except Fault (State × Int) :=
  if ¬ (s.files file).isDataFile then .ok (s, Errno.isdir.neg)
  else if ¬ (s.files file).writable then .ok (s, Errno.acces.neg)
  else if size < 0 then .ok (s, Errno.inval.neg)
  else DataFile.setSize s file size

/-- `__syscall_ftruncate64` -/
def ftruncate64 (s : State) (fd : Nat) (size : Int) : Except Fault (State × Int) :=
  match FileTable.getEntry s fd with
  | none => .ok (s, Errno.badf.neg)
  | some o =>
      match doTruncate s (s.descriptions o).file size with
      | .error e => .error e
      | .ok (s, ret) => .ok (s, if ret = Errno.acces.neg then Errno.inval.neg else ret)

/-- `__syscall_fallocate` -/
def fallocate (s : State) (fd : Nat) (offset len : Int) : Except Fault (State × Int) :=
  match FileTable.getEntry s fd with
  | none => .ok (s, Errno.badf.neg)
  | some o =>
      let f := (s.descriptions o).file
      if ¬ (s.files f).isDataFile then .ok (s, Errno.nodev.neg)
      else if ¬ (s.files f).writable then .ok (s, Errno.badf.neg)
      else if offset < 0 ∨ len ≤ 0 then .ok (s, Errno.inval.neg)
      else
        let newNeededSize := s64 (offset + len)
        if newNeededSize > (s.files f).getSize then DataFile.setSize s f newNeededSize
        else .ok (s, 0)

end Syscall

end WasmFS
