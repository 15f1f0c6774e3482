import WasmFS.Source.Init

/-!
# Pipes

`pipe_backend.h` and the calls of `syscalls.cpp` on descriptors that no export reaches:
`pipe`, `dup`, `fcntl64` and `poll`.  A pipe has two files that share one queue.  The
loops of `readAtOffset` and `writeAtOffset` are the same for every class of data files, so
they are written here for any `read` and `write`, and those of the other data files are
instances (`readLoop_eq`, `writeLoop_eq`).

A `PipeState` keeps the queues next to a `State`.  In that state a pipe file is an object
of a special file: it is not seekable, and its hooks do nothing.
-/

namespace WasmFS

/-! ## The loops over any data file -/

section

variable {σ : Type}

/-- The loop of `writeAtOffset` over the `write` of a data file. -/
def writeLoopOf (write : σ → List UInt8 → Int → Except Fault (σ × Int)) (offset : Nat) :
    List CIovec → Nat → σ → Except Fault (σ × Except Int Nat)
  | [], bytesWritten, s => .ok (s, .ok bytesWritten)
  | iov :: iovs, bytesWritten, s =>
      if iov.isNull ∧ iov.bytes.length > 0 then .ok (s, .error Errno.inval.code)
      else if addWillOverFlow offset bytesWritten then .ok (s, .error Errno.fbig.code)
      else
        match write s iov.bytes (s64 (u64 (offset + bytesWritten))) with
        | .error e => .error e
        | .ok (s, result) =>
            if result < 0 then
              if bytesWritten > 0 then .ok (s, .ok bytesWritten) else .ok (s, .error (-result))
            else
              let bytesWritten := u32 (bytesWritten + result)
              if result < iov.bytes.length then .ok (s, .ok bytesWritten)
              else writeLoopOf write offset iovs bytesWritten s

/-- The loop of `readAtOffset` over the `read` of a data file. -/
def readLoopOf (read : σ → Nat → Int → Except Fault (σ × List UInt8 × Int)) (offset : Nat) :
    List Iovec → Nat → σ → Except Fault (σ × Except Int (Nat × List UInt8))
  | [], bytesRead, s => .ok (s, .ok (bytesRead, []))
  | iov :: iovs, bytesRead, s =>
      if iov.isNull ∧ iov.len.toNat > 0 then .ok (s, .error Errno.inval.code)
      else
        match read s iov.len.toNat (s64 (u64 (offset + bytesRead))) with
        | .error e => .error e
        | .ok (s, bytes, result) =>
            if result < 0 then
              if bytesRead > 0 then .ok (s, .ok (bytesRead, [])) else .ok (s, .error (-result))
            else
              let bytesRead := u32 (bytesRead + result)
              if u32 result < iov.len.toNat then .ok (s, .ok (bytesRead, bytes))
              else
                match readLoopOf read offset iovs bytesRead s with
                | .error e => .error e
                | .ok (s, .error code) => .ok (s, .error code)
                | .ok (s, .ok (total, more)) => .ok (s, .ok (total, bytes ++ more))

end

theorem writeLoop_eq (host : Host) (f : FileId) (offset : Nat) (iovs : List CIovec)
    (bytesWritten : Nat) (s : State) : writeLoop host f offset iovs bytesWritten s =
      writeLoopOf (fun s => DataFile.write host s f) offset iovs bytesWritten s := by
  induction iovs generalizing bytesWritten s with
  | nil => rfl
  | cons iov iovs ih =>
      simp only [writeLoop, writeLoopOf, ih]
      rcases DataFile.write host s f iov.bytes (s64 (u64 (offset + bytesWritten))) with
        e | ⟨s₁, result⟩ <;> rfl

theorem readLoop_eq (host : Host) (f : FileId) (offset : Nat) (iovs : List Iovec)
    (bytesRead : Nat) (s : State) : readLoop host f offset iovs bytesRead s =
      readLoopOf (fun s => DataFile.read host s f) offset iovs bytesRead s := by
  induction iovs generalizing bytesRead s with
  | nil => rfl
  | cons iov iovs ih =>
      simp only [readLoop, readLoopOf, ih]
      rcases DataFile.read host s f iov.len.toNat (s64 (u64 (offset + bytesRead))) with
        e | ⟨s₁, bytes, result⟩
      · rfl
      · simp only
        rcases readLoopOf (fun s => DataFile.read host s f) offset iovs
          (u32 (bytesRead + result)) s₁ with e | ⟨s₂, code | ⟨total, more⟩⟩ <;> rfl

/-! ## Pipe files -/

/-- `PipeData`, the front first. -/
abbrev PipeData := List UInt8

namespace PipeFile

/-- The loop of `PipeFile::write`. -/
def push (data : PipeData) : List UInt8 → PipeData
  | [] => data
  | b :: buf => push (data ++ [b]) buf

/-- `PipeFile::write` -/
def write (data : PipeData) (buf : List UInt8) (_offset : Int) :
    Except Fault (PipeData × Int) :=
  .ok (push data buf, s32 buf.length)

/-- The loop of `PipeFile::read`: what is left, and the bytes read. -/
def pop : PipeData → Nat → PipeData × List UInt8
  | data, 0 => (data, [])
  | [], _ + 1 => ([], [])
  | b :: data, len + 1 =>
      let (data, bytes) := pop data len
      (data, b :: bytes)

/-- `PipeFile::read` -/
def read (data : PipeData) (len : Nat) (_offset : Int) :
    Except Fault (PipeData × List UInt8 × Int) :=
  let (data, bytes) := pop data len
  .ok (data, bytes, s32 bytes.length)

/-- `PipeFile::getSize` -/
def getSize (data : PipeData) : Int := data.length

end PipeFile

/-! ## Calls on descriptors -/

namespace Syscall

def O_NOCTTY : UInt32 := 0x100
def O_LARGEFILE : UInt32 := 0x8000

/-- The commands of `fcntl64`, with their arguments. -/
inductive Fcntl where
  | F_DUPFD (newfd : Int)
  | F_GETFD
  | F_SETFD
  | F_GETFL
  | F_SETFL (flags : UInt32)
  | F_GETLK
  | F_SETLK
  | F_SETLKW
  | other
deriving DecidableEq, Repr

/-- `__syscall_dup` -/
def dup (s : State) (fd : Nat) : SysResult :=
  match FileTable.getEntry s fd with
  | none => .ok (s, Errno.badf.neg)
  | some openFile => FileTable.addEntry s openFile

/-- The loop of `F_DUPFD`, which ends past the last slot at the latest. -/
def freeFrom (s : State) : Nat → Nat → Nat
  | 0, newfd => newfd
  | fuel + 1, newfd =>
      if FileTable.getEntry s newfd = none then newfd else freeFrom s fuel (newfd + 1)

/-- The flags that `F_SETFL` does not ignore. -/
def settable (flags : UInt32) : UInt32 :=
  flags &&& ~~~ ((O_RDONLY ||| O_WRONLY ||| O_RDWR ||| O_CREAT ||| O_EXCL).toUInt32 |||
    O_NOCTTY ||| O_TRUNC.toUInt32) &&& ~~~ O_LARGEFILE

/-- `__syscall_fcntl64` -/
def fcntl64 (s : State) (fd : Nat) (cmd : Fcntl) : SysResult :=
  match FileTable.getEntry s fd with
  | none => .ok (s, Errno.badf.neg)
  | some openFile =>
      match cmd with
      | .F_DUPFD newfd =>
          if newfd < 0 then .ok (s, Errno.inval.neg)
          else
            let newfd := freeFrom s s.table.length newfd.toNat
            match FileTable.setEntry s newfd (some openFile) with
            | .error e => .error e
            | .ok (s, _) => .ok (s, newfd)
      | .F_GETFD => .ok (s, 0)
      | .F_SETFD => .ok (s, 0)
      | .F_GETFL => .ok (s, (s.descriptions openFile).flags)
      | .F_SETFL flags =>
          let flags := settable flags
          if flags ≠ flags &&& O_APPEND.toUInt32 then .ok (s, Errno.inval.neg)
          else .ok (s.modifyOpen openFile fun x => { x with flags := flags.toNat }, 0)
      | .F_GETLK => .ok (s, 0)
      | .F_SETLK => .ok (s, Errno.acces.neg)
      | .F_SETLKW => .ok (s, Errno.acces.neg)
      | .other => .ok (s, Errno.inval.neg)

end Syscall

/-! ## The state -/

/-- The identity of a `PipeData` object. -/
abbrev PipeId := Nat

structure PipeState where
  base : State
  /-- `PipeFile::data`, `none` for the files that are no pipe files. -/
  pipe : FileId → Option PipeId
  data : PipeId → PipeData
  next : PipeId

namespace PipeState

/-- The state after `WasmFS::WasmFS`, where there is no pipe. -/
def init (host : Host) : PipeState where
  base := WasmFS.init host
  pipe := fun _ => none
  data := fun _ => []
  next := 0

variable (host : Host) (v : PipeState)

/-- Only the base state changes. -/
def withBase (s : State) : PipeState := { v with base := s }

def setData (p : PipeId) (data : PipeData) : PipeState :=
  { v with data := Function.update v.data p data }

/-- The pipe file that the descriptor refers to. -/
def endOf (fd : Nat) : Option FileId :=
  ((FileTable.getEntry v.base fd).map fun o => (v.base.descriptions o).file).filter fun f =>
    (v.pipe f).isSome

/-- The pipe of the descriptor. -/
def pipeOf (fd : Nat) : Option PipeId :=
  (FileTable.getEntry v.base fd).bind fun o => v.pipe (v.base.descriptions o).file

/-- `getSize()` of a file. -/
def getSize (f : FileId) : Int :=
  match v.pipe f with
  | none => (v.base.files f).getSize
  | some p => PipeFile.getSize (v.data p)

/-- A result of the base. -/
def lift {α : Type} (result : Except Fault (State × α)) : Except Fault (PipeState × α) :=
  match result with
  | .error e => .error e
  | .ok (s, a) => .ok (v.withBase s, a)

/-- The offset at which a write starts, and the state in which it does. -/
def writeStart (o : OpenId) : OffsetHandling → PipeState × Nat
  | .argument offset => (v, offset.toNat)
  | .openFileState =>
      let d := v.base.descriptions o
      if hasFlag d.flags O_APPEND then
        let size := v.getSize d.file
        (v.withBase (v.base.modifyOpen o fun x => { x with position := size }), u64 size)
      else (v, u64 d.position)

/-- `writeAtOffset` -/
def writeAtOffset (setOffset : OffsetHandling) (fd : Nat) (iovs : List CIovec) :
    Except Fault (PipeState × Except Int Nat) :=
  match FileTable.getEntry v.base fd with
  | none => .ok (v, .error Errno.badf.code)
  | some o =>
      let f := (v.base.descriptions o).file
      match v.pipe f with
      | none => v.lift (WasmFS.writeAtOffset host v.base setOffset fd iovs)
      | some p =>
          let (v, offset) := v.writeStart o setOffset
          match writeLoopOf PipeFile.write offset iovs 0 (v.data p) with
          | .error e => .error e
          | .ok (data, .error code) => .ok (v.setData p data, .error code)
          | .ok (data, .ok bytesWritten) =>
              -- the file is not seekable, so the position stays
              let v := v.setData p data
              let v := if bytesWritten ≠ 0 then v.withBase (v.base.updateMTime host f) else v
              .ok (v, .ok bytesWritten)

/-- `readAtOffset` -/
def readAtOffset (setOffset : OffsetHandling) (fd : Nat) (iovs : List Iovec) :
    Except Fault (PipeState × Except Int (Nat × List UInt8)) :=
  match FileTable.getEntry v.base fd with
  | none => .ok (v, .error Errno.badf.code)
  | some o =>
      match v.pipe (v.base.descriptions o).file with
      | none => v.lift (WasmFS.readAtOffset host v.base setOffset fd iovs)
      | some p =>
          let offset := readStart v.base o setOffset
          match readLoopOf PipeFile.read offset iovs 0 (v.data p) with
          | .error e => .error e
          | .ok (data, result) => .ok (v.setData p data, result)

/-- The part of `ftruncate64` for a pipe, whose `setSize` does nothing. -/
def ftruncate64 (f : FileId) (size : Int) : Int :=
  if ¬ (v.base.files f).writable then Errno.inval.neg
  else if size < 0 then Errno.inval.neg
  else 0

/-- The part of `fallocate` for a pipe. -/
def fallocate (f : FileId) (offset len : Int) : Int :=
  if ¬ (v.base.files f).writable then Errno.badf.neg
  else if offset < 0 ∨ len ≤ 0 then Errno.inval.neg
  else 0

end PipeState

/-! ## The calls -/

/-- `struct pollfd` -/
structure PollFd where
  fd : Int
  events : UInt16
deriving DecidableEq, Repr

namespace Syscall

def POLLIN : UInt16 := 0x1
def POLLOUT : UInt16 := 0x4
def POLLNVAL : UInt16 := 0x20

variable (host : Host) (v : PipeState)

/-- `PipeFile`, in the base state. -/
def makePipeFile (s : State) (mode : Nat) : State × FileId :=
  Init.make host s (.device .random) (mode ||| S_IFREG) none

/-- `__syscall_pipe`: the result, and the two descriptors. -/
def pipe : Except Fault (PipeState × Int × Int × Int) :=
  let (s, reader) := makePipeFile host v.base S_IRUGO
  let (s, writer) := makePipeFile host s S_IWUGO
  let (s, openReader) := OpenFileState.create s reader O_RDONLY
  let (s, openWriter) := OpenFileState.create s writer O_WRONLY
  match FileTable.addEntry s openReader with
  | .error e => .error e
  | .ok (s, readFd) =>
      match FileTable.addEntry s openWriter with
      | .error e => .error e
      | .ok (s, writeFd) =>
          let v := { base := s
                     pipe := Function.update (Function.update v.pipe reader (some v.next)) writer
                       (some v.next)
                     data := Function.update v.data v.next []
                     next := v.next + 1 }
          .ok (v, 0, readFd, writeFd)

/-- The `revents` of a descriptor in `__syscall_poll`. -/
def revents (pollfd : PollFd) : UInt16 :=
  if pollfd.fd < 0 then 0
  else
    match FileTable.getEntry v.base pollfd.fd.toNat with
    | none => POLLNVAL
    | some o =>
        let d := v.base.descriptions o
        let accessMode := d.flags &&& O_ACCMODE
        let readBit := pollfd.events &&& POLLOUT
        let mask := if readBit ≠ 0 ∧ (accessMode = O_WRONLY ∨ accessMode = O_RDWR) then readBit
          else 0
        let writeBit := pollfd.events &&& POLLIN
        if writeBit ≠ 0 ∧ (accessMode = O_RDONLY ∨ accessMode = O_RDWR) ∧ v.getSize d.file > 0
          then mask ||| writeBit
        else mask

/-- `__syscall_poll`: the result, and the masks. -/
def poll (fds : List PollFd) : Nat × List UInt16 :=
  let masks := fds.map (revents v)
  (masks.countP (· ≠ 0), masks)

end Syscall

/-- The exports, and the calls on descriptors that are not exported. -/
inductive PipeCall where
  | export_ (call : Call)
  | pipe
  | dup (fd : Nat)
  | dup3 (oldfd newfd : Int)
  | fcntl64 (fd : Nat) (cmd : Syscall.Fcntl)
  | poll (fds : List PollFd)

inductive PipeReply where
  | reply (r : Reply)
  | result (ret : Int)
  | fds (ret readFd writeFd : Int)
  | polled (nonzero : Nat) (revents : List UInt16)
deriving DecidableEq, Repr

namespace PipeState

variable (host : Host)

/-- What a read answers. -/
def readReply (r : PipeState × Except Int (Nat × List UInt8)) : PipeState × Reply :=
  match r with
  | (v, .error code) => (v, ⟨u16 code, .nothing⟩)
  | (v, .ok (count, bytes)) => (v, ⟨0, .read count bytes⟩)

/-- What a write answers. -/
def writeReply (r : PipeState × Except Int Nat) : PipeState × Reply :=
  match r with
  | (v, .error code) => (v, ⟨u16 code, .nothing⟩)
  | (v, .ok count) => (v, ⟨0, .written count⟩)

/-- An export, where the data file may be a pipe file. -/
def execExport (v : PipeState) : Call → Except Fault (PipeState × Reply)
  | .fd_read fd iovs => (v.readAtOffset host .openFileState fd.toNat iovs).map readReply
  | .fd_pread fd iovs offset => (v.readAtOffset host (.argument offset) fd.toNat iovs).map readReply
  | .fd_write fd iovs => (v.writeAtOffset host .openFileState fd.toNat iovs).map writeReply
  | .fd_pwrite fd iovs offset =>
      (v.writeAtOffset host (.argument offset) fd.toNat iovs).map writeReply
  | .fd_filestat_set_size fd size =>
      match v.endOf fd.toNat with
      | some f => .ok (v, ⟨u16 (v.ftruncate64 f size.toInt), .nothing⟩)
      | none => v.lift (exec host v.base (.fd_filestat_set_size fd size))
  | .fd_allocate fd offset len =>
      match v.endOf fd.toNat with
      | some f => .ok (v, ⟨u16 (v.fallocate f offset.toInt len.toInt), .nothing⟩)
      | none => v.lift (exec host v.base (.fd_allocate fd offset len))
  | c => v.lift (exec host v.base c)

def exec (v : PipeState) : PipeCall → Except Fault (PipeState × PipeReply)
  | .export_ c => (v.execExport host c).map fun (v, r) => (v, .reply r)
  | .pipe => (Syscall.pipe host v).map fun (v, ret, readFd, writeFd) => (v, .fds ret readFd writeFd)
  | .dup fd => (v.lift (Syscall.dup v.base fd)).map fun (v, ret) => (v, .result ret)
  | .dup3 oldfd newfd =>
      (v.lift (Syscall.dup3 v.base oldfd newfd)).map fun (v, ret) => (v, .result ret)
  | .fcntl64 fd cmd => (v.lift (Syscall.fcntl64 v.base fd cmd)).map fun (v, ret) => (v, .result ret)
  | .poll fds =>
      let (nonzero, revents) := Syscall.poll v fds
      .ok (v, .polled nonzero revents)

end PipeState

end WasmFS
