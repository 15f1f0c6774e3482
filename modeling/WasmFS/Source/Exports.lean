import WasmFS.Source.DataFile
import WasmFS.Source.Syscalls

/-!
# The exported functions

`memfs.cpp` wraps the system calls as WASI functions.  A WASI function returns a
16-bit `__wasi_errno_t` and stores its results through pointers.  A `Reply`
holds both.  A path is the memory a `char*` points at, and the source ignores
the length that comes with it.  Other arguments the source ignores (rights,
lookup flags, cookies, the flags of the descriptor) are left out.

`Call` lists the exports with their arguments, and `exec` runs one of them.
-/

namespace WasmFS

/-- What an export stores through its output pointers. -/
inductive Out where
  | nothing
  /-- `*opened_fd` -/
  | fd (openedFd : Nat)
  /-- `*nwritten` -/
  | written (count : Nat)
  /-- `*nread`, and the bytes left in the buffers. -/
  | read (count : Nat) (bytes : List UInt8)
  /-- `*newoffset` or `*offset` -/
  | offset (offset : Nat)
  /-- `fs_filetype` is `__WASI_FILETYPE_DIRECTORY`, else a regular file. -/
  | filetype (isDirectory : Bool)
  /-- `*bufused`, and the records in the buffer. -/
  | records (bufused : Nat) (records : List Syscall.Record)
  /-- `*buf_used`, and the bytes in the buffer. -/
  | link (bufused : Nat) (bytes : List UInt8)
deriving DecidableEq, Repr

structure Reply where
  /-- The `__wasi_errno_t` returned. -/
  errno : Nat
  out : Out := .nothing
deriving DecidableEq, Repr

/-- What an export returns. -/
abbrev Result := Except Fault (State × Reply)

namespace Export

/-! ## Descriptors -/

def fd_advise (s : State) : Result := .ok (s, ⟨0, .nothing⟩)

def fd_allocate (s : State) (fd : UInt32) (offset len : Int64) : Result :=
  match Syscall.fallocate s fd.toNat offset.toInt len.toInt with
  | .error e => .error e
  | .ok (s, ret) => .ok (s, ⟨u16 ret, .nothing⟩)

def fd_close (s : State) (fd : UInt32) : Result :=
  match Syscall.close s fd.toNat with
  | .error e => .error e
  | .ok (s, ret) => .ok (s, ⟨u16 ret, .nothing⟩)

/-- `__wasi_fd_sync`.  The flush of a data file of this build does nothing. -/
def fd_sync (s : State) (fd : UInt32) : Result :=
  match FileTable.getEntry s fd.toNat with
  | none => .ok (s, ⟨Errno.badf.code, .nothing⟩)
  | some _ => .ok (s, ⟨0, .nothing⟩)

def fd_datasync (s : State) (fd : UInt32) : Result := fd_sync s fd

/-- `__wasi_fd_fdstat_get` -/
def fd_fdstat_get (s : State) (fd : UInt32) : Result :=
  match FileTable.getEntry s fd.toNat with
  | none => .ok (s, ⟨Errno.badf.code, .nothing⟩)
  | some o => .ok (s, ⟨0, .filetype (s.files (s.descriptions o).file).isDirectory⟩)

def fd_fdstat_set_flags (s : State) : Result := .ok (s, ⟨0, .nothing⟩)

def fd_fdstat_set_rights (s : State) : Result := .ok (s, ⟨0, .nothing⟩)

def fd_filestat_get (s : State) (fd : UInt32) : Result := fd_fdstat_get s fd

def fd_filestat_set_size (s : State) (fd : UInt32) (size : Int64) : Result :=
  match Syscall.ftruncate64 s fd.toNat size.toInt with
  | .error e => .error e
  | .ok (s, ret) => .ok (s, ⟨u16 ret, .nothing⟩)

/-- `__set_times`.  No timestamp equals infinity. -/
def set_times (host : Host) (s : State) (file : FileId) (atim mtim : UInt64) : State :=
  s.modify file fun x => { x with atime := host.timestamp atim, mtime := host.timestamp mtim }

def fd_filestat_set_times (host : Host) (s : State) (fd : UInt32) (atim mtim : UInt64) :
    Result :=
  match FileTable.getEntry s fd.toNat with
  | none => .ok (s, ⟨u16 Errno.badf.neg, .nothing⟩)
  | some o => .ok (set_times host s (s.descriptions o).file atim mtim, ⟨0, .nothing⟩)

/-- `fd_read` and `fd_pread` -/
def readReply : Except Fault (State × Except Int (Nat × List UInt8)) → Result
  | .error e => .error e
  | .ok (s, .error code) => .ok (s, ⟨u16 code, .nothing⟩)
  | .ok (s, .ok (count, bytes)) => .ok (s, ⟨0, .read count bytes⟩)

/-- `fd_write` and `fd_pwrite` -/
def writeReply : Except Fault (State × Except Int Nat) → Result
  | .error e => .error e
  | .ok (s, .error code) => .ok (s, ⟨u16 code, .nothing⟩)
  | .ok (s, .ok count) => .ok (s, ⟨0, .written count⟩)

def fd_pread (host : Host) (s : State) (fd : UInt32) (iovs : List Iovec) (offset : UInt64) :
    Result :=
  readReply (readAtOffset host s (.argument offset) fd.toNat iovs)

def fd_prestat_get (s : State) : Result := .ok (s, ⟨0, .nothing⟩)

def fd_prestat_dir_name (s : State) : Result := .ok (s, ⟨0, .nothing⟩)

def fd_pwrite (host : Host) (s : State) (fd : UInt32) (iovs : List CIovec) (offset : UInt64) :
    Result :=
  writeReply (writeAtOffset host s (.argument offset) fd.toNat iovs)

def fd_read (host : Host) (s : State) (fd : UInt32) (iovs : List Iovec) : Result :=
  readReply (readAtOffset host s .openFileState fd.toNat iovs)

def fd_readdir (s : State) (fd : UInt32) (bufLen : UInt32) : Result :=
  let (s, ret, records) := Syscall.getdents64 s fd.toNat bufLen.toNat
  .ok (s, ⟨0, .records (u32 ret) records⟩)

def fd_renumber (s : State) (fd dest : UInt32) : Result :=
  match Syscall.dup3 s (s32 fd.toNat) (s32 dest.toNat) with
  | .error e => .error e
  | .ok (s, ret) => .ok (s, ⟨u16 ret, .nothing⟩)

def fd_seek (s : State) (fd : UInt32) (offset : Int64) (whence : UInt8) : Result :=
  match Syscall.seek s fd.toNat offset.toInt whence.toNat with
  | (s, code, none) => .ok (s, ⟨u16 code, .nothing⟩)
  | (s, code, some position) => .ok (s, ⟨u16 code, .offset (u64 position)⟩)

/-- The test `*offset < 0` compares an unsigned number. -/
def fd_tell (s : State) (fd : UInt32) : Result :=
  match FileTable.getEntry s fd.toNat with
  | none => .ok (s, ⟨Errno.badf.code, .nothing⟩)
  | some o => .ok (s, ⟨0, .offset (u64 (s.descriptions o).position)⟩)

def fd_write (host : Host) (s : State) (fd : UInt32) (iovs : List CIovec) : Result :=
  writeReply (writeAtOffset host s .openFileState fd.toNat iovs)

/-! ## Paths -/

/-- The directory is that of the libc function `dirfd`, not of `fd`. -/
def path_create_directory (host : Host) (s : State) (_fd : UInt32) (path : List UInt8) :
    Result :=
  let (s, ret) := Syscall.mkdirat host s host.dirfd.toNat (cstr path) (S_IRUGO ||| S_IXUGO)
  .ok (s, ⟨u16 ret, .nothing⟩)

/-- The path is parsed from the working directory. -/
def path_filestat_get (s : State) (_fd : UInt32) (path : List UInt8) : Result :=
  match Path.parseFile s (cstr path) Path.AT_FDCWD .followLinks with
  | (s, .error e) => .ok (s, ⟨u16 e.neg, .nothing⟩)
  | (s, .ok file) => .ok (s, ⟨0, .filetype (s.files file).isDirectory⟩)

def path_filestat_set_times (host : Host) (s : State) (fd : UInt32) (path : List UInt8)
    (atim mtim : UInt64) : Result :=
  match Path.parseFile s (cstr path) fd.toNat .followLinks with
  | (s, .error e) => .ok (s, ⟨u16 e.neg, .nothing⟩)
  | (s, .ok file) => .ok (set_times host s file atim mtim, ⟨0, .nothing⟩)

/-- A symbolic link at `oldPath` with the target `newPath`. -/
def path_link (host : Host) (s : State) (_oldFd : UInt32) (oldPath : List UInt8)
    (newFd : UInt32) (newPath : List UInt8) : Result :=
  match Syscall.symlinkat host s (cstr newPath) newFd.toNat (cstr oldPath) with
  | .error e => .error e
  | .ok (s, ret) => .ok (s, ⟨u16 ret, .nothing⟩)

/-- The WASI flags are passed on as the flags of `open`. -/
def path_open (host : Host) (s : State) (dirfd : UInt32) (path : List UInt8)
    (oflags : UInt16) : Result :=
  match Syscall.openat2 host s dirfd.toNat (cstr path) oflags.toNat 0 with
  | .error e => .error e
  | .ok (s, ret) => .ok (s, ⟨0, .fd (u32 ret)⟩)

def path_readlink (s : State) (dirFd : UInt32) (path : List UInt8) (bufLen : UInt32) : Result :=
  let (s, bytes, copied) := Syscall.readlinkat s dirFd.toNat (cstr path) bufLen.toNat
  if bytes < 0 then .ok (s, ⟨u16 (-bytes), .nothing⟩)
  else .ok (s, ⟨0, .link (u32 bytes) copied⟩)

def path_remove_directory (host : Host) (s : State) (fd : UInt32) (path : List UInt8) :
    Result :=
  let (s, ret) := Syscall.unlinkat host s fd.toNat (cstr path) true
  .ok (s, ⟨u16 ret, .nothing⟩)

def path_rename (host : Host) (s : State) (oldFd : UInt32) (oldPath : List UInt8)
    (newFd : UInt32) (newPath : List UInt8) : Result :=
  match Syscall.renameat host s oldFd.toNat (cstr oldPath) newFd.toNat (cstr newPath) with
  | .error e => .error e
  | .ok (s, ret) => .ok (s, ⟨u16 ret, .nothing⟩)

/-- A symbolic link at `oldPath` with the target `newPath`. -/
def path_symlink (host : Host) (s : State) (oldPath : List UInt8) (fd : UInt32)
    (newPath : List UInt8) : Result :=
  match Syscall.symlinkat host s (cstr newPath) fd.toNat (cstr oldPath) with
  | .error e => .error e
  | .ok (s, ret) => .ok (s, ⟨u16 ret, .nothing⟩)

def path_unlink_file (host : Host) (s : State) (dirfd : UInt32) (path : List UInt8) : Result :=
  let (s, ret) := Syscall.unlinkat host s dirfd.toNat (cstr path) false
  .ok (s, ⟨u16 ret, .nothing⟩)

/-! ## What is behind a reply -/

section

variable {host : Host} {s s' : State} {r : Reply}

/-- A call that returns leaves the state of its system call. -/
theorem ok_of_match {result : SysResult} {reply : Int → Reply}
    (hok : (match result with
      | .error e => .error e
      | .ok (s, ret) => .ok (s, reply ret) : Result) = .ok (s', r)) :
    ∃ ret, result = .ok (s', ret) ∧ r = reply ret := by
  split at hok
  · cases hok
  · cases hok
    exact ⟨_, rfl, rfl⟩

theorem fd_allocate_ok {fd : UInt32} {offset len : Int64}
    (hok : fd_allocate s fd offset len = .ok (s', r)) :
    ∃ ret, Syscall.fallocate s fd.toNat offset.toInt len.toInt = .ok (s', ret) ∧
      r = ⟨u16 ret, .nothing⟩ := ok_of_match hok

theorem fd_close_ok {fd : UInt32} (hok : fd_close s fd = .ok (s', r)) :
    ∃ ret, Syscall.close s fd.toNat = .ok (s', ret) ∧ r = ⟨u16 ret, .nothing⟩ := ok_of_match hok

theorem fd_filestat_set_size_ok {fd : UInt32} {size : Int64}
    (hok : fd_filestat_set_size s fd size = .ok (s', r)) :
    ∃ ret, Syscall.ftruncate64 s fd.toNat size.toInt = .ok (s', ret) ∧
      r = ⟨u16 ret, .nothing⟩ := ok_of_match hok

theorem fd_renumber_ok {fd dest : UInt32} (hok : fd_renumber s fd dest = .ok (s', r)) :
    ∃ ret, Syscall.dup3 s (s32 fd.toNat) (s32 dest.toNat) = .ok (s', ret) ∧
      r = ⟨u16 ret, .nothing⟩ := ok_of_match hok

theorem path_link_ok (oldFd : UInt32) {newFd : UInt32} {oldPath newPath : List UInt8}
    (hok : path_link host s oldFd oldPath newFd newPath = .ok (s', r)) :
    ∃ ret, Syscall.symlinkat host s (cstr newPath) newFd.toNat (cstr oldPath) = .ok (s', ret) ∧
      r = ⟨u16 ret, .nothing⟩ := ok_of_match hok

theorem path_open_ok {dirfd : UInt32} {path : List UInt8} {oflags : UInt16}
    (hok : path_open host s dirfd path oflags = .ok (s', r)) :
    ∃ ret, Syscall.openat2 host s dirfd.toNat (cstr path) oflags.toNat 0 = .ok (s', ret) ∧
      r = ⟨0, .fd (u32 ret)⟩ := ok_of_match hok

theorem path_rename_ok {oldFd newFd : UInt32} {oldPath newPath : List UInt8}
    (hok : path_rename host s oldFd oldPath newFd newPath = .ok (s', r)) :
    ∃ ret, Syscall.renameat host s oldFd.toNat (cstr oldPath) newFd.toNat (cstr newPath) =
        .ok (s', ret) ∧ r = ⟨u16 ret, .nothing⟩ := ok_of_match hok

theorem path_symlink_ok {fd : UInt32} {oldPath newPath : List UInt8}
    (hok : path_symlink host s oldPath fd newPath = .ok (s', r)) :
    ∃ ret, Syscall.symlinkat host s (cstr newPath) fd.toNat (cstr oldPath) = .ok (s', ret) ∧
      r = ⟨u16 ret, .nothing⟩ := ok_of_match hok

theorem readReply_ok {result : Except Fault (State × Except Int (Nat × List UInt8))}
    (hok : readReply result = .ok (s', r)) : ∃ out, result = .ok (s', out) := by
  simp only [readReply] at hok
  split at hok
  · cases hok
  · cases hok
    exact ⟨_, rfl⟩
  · cases hok
    exact ⟨_, rfl⟩

theorem writeReply_ok {result : Except Fault (State × Except Int Nat)}
    (hok : writeReply result = .ok (s', r)) : ∃ out, result = .ok (s', out) := by
  simp only [writeReply] at hok
  split at hok
  · cases hok
  · cases hok
    exact ⟨_, rfl⟩
  · cases hok
    exact ⟨_, rfl⟩

end

end Export

/-! ## Calls -/

/-- The exports with their arguments. -/
inductive Call where
  | fd_advise
  | fd_allocate (fd : UInt32) (offset len : Int64)
  | fd_close (fd : UInt32)
  | fd_datasync (fd : UInt32)
  | fd_fdstat_get (fd : UInt32)
  | fd_fdstat_set_flags
  | fd_fdstat_set_rights
  | fd_filestat_get (fd : UInt32)
  | fd_filestat_set_size (fd : UInt32) (size : Int64)
  | fd_filestat_set_times (fd : UInt32) (atim mtim : UInt64)
  | fd_pread (fd : UInt32) (iovs : List Iovec) (offset : UInt64)
  | fd_prestat_get
  | fd_prestat_dir_name
  | fd_pwrite (fd : UInt32) (iovs : List CIovec) (offset : UInt64)
  | fd_read (fd : UInt32) (iovs : List Iovec)
  | fd_readdir (fd : UInt32) (bufLen : UInt32)
  | fd_renumber (fd dest : UInt32)
  | fd_seek (fd : UInt32) (offset : Int64) (whence : UInt8)
  | fd_sync (fd : UInt32)
  | fd_tell (fd : UInt32)
  | fd_write (fd : UInt32) (iovs : List CIovec)
  | path_create_directory (fd : UInt32) (path : List UInt8)
  | path_filestat_get (fd : UInt32) (path : List UInt8)
  | path_filestat_set_times (fd : UInt32) (path : List UInt8) (atim mtim : UInt64)
  | path_link (oldFd : UInt32) (oldPath : List UInt8) (newFd : UInt32) (newPath : List UInt8)
  | path_open (dirfd : UInt32) (path : List UInt8) (oflags : UInt16)
  | path_readlink (dirFd : UInt32) (path : List UInt8) (bufLen : UInt32)
  | path_remove_directory (fd : UInt32) (path : List UInt8)
  | path_rename (oldFd : UInt32) (oldPath : List UInt8) (newFd : UInt32) (newPath : List UInt8)
  | path_symlink (oldPath : List UInt8) (fd : UInt32) (newPath : List UInt8)
  | path_unlink_file (dirfd : UInt32) (path : List UInt8)

/-- Run one export. -/
def exec (host : Host) (s : State) : Call → Result
  | .fd_advise => Export.fd_advise s
  | .fd_allocate fd offset len => Export.fd_allocate s fd offset len
  | .fd_close fd => Export.fd_close s fd
  | .fd_datasync fd => Export.fd_datasync s fd
  | .fd_fdstat_get fd => Export.fd_fdstat_get s fd
  | .fd_fdstat_set_flags => Export.fd_fdstat_set_flags s
  | .fd_fdstat_set_rights => Export.fd_fdstat_set_rights s
  | .fd_filestat_get fd => Export.fd_filestat_get s fd
  | .fd_filestat_set_size fd size => Export.fd_filestat_set_size s fd size
  | .fd_filestat_set_times fd atim mtim => Export.fd_filestat_set_times host s fd atim mtim
  | .fd_pread fd iovs offset => Export.fd_pread host s fd iovs offset
  | .fd_prestat_get => Export.fd_prestat_get s
  | .fd_prestat_dir_name => Export.fd_prestat_dir_name s
  | .fd_pwrite fd iovs offset => Export.fd_pwrite host s fd iovs offset
  | .fd_read fd iovs => Export.fd_read host s fd iovs
  | .fd_readdir fd bufLen => Export.fd_readdir s fd bufLen
  | .fd_renumber fd dest => Export.fd_renumber s fd dest
  | .fd_seek fd offset whence => Export.fd_seek s fd offset whence
  | .fd_sync fd => Export.fd_sync s fd
  | .fd_tell fd => Export.fd_tell s fd
  | .fd_write fd iovs => Export.fd_write host s fd iovs
  | .path_create_directory fd path => Export.path_create_directory host s fd path
  | .path_filestat_get fd path => Export.path_filestat_get s fd path
  | .path_filestat_set_times fd path atim mtim =>
      Export.path_filestat_set_times host s fd path atim mtim
  | .path_link oldFd oldPath newFd newPath => Export.path_link host s oldFd oldPath newFd newPath
  | .path_open dirfd path oflags => Export.path_open host s dirfd path oflags
  | .path_readlink dirFd path bufLen => Export.path_readlink s dirFd path bufLen
  | .path_remove_directory fd path => Export.path_remove_directory host s fd path
  | .path_rename oldFd oldPath newFd newPath =>
      Export.path_rename host s oldFd oldPath newFd newPath
  | .path_symlink oldPath fd newPath => Export.path_symlink host s oldPath fd newPath
  | .path_unlink_file dirfd path => Export.path_unlink_file host s dirfd path

end WasmFS
