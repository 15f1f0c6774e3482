import WasmFS.Source.Exports

/-!
# The system calls under the exports

Most exports wrap one system call.  `SystemCall` lists these calls with their
arguments, and `Call.systemCall` says which one an export makes.  An export
leaves the state to its system call and turns the number that it returns into a
status (`exec_of_run`, `run_of_exec`).
-/

namespace WasmFS

/-- The operations that the exports wrap.  `set_times` and `stat` have no system
call of their own in the source: the exports look up the descriptor or parse the
path themselves. -/
inductive SystemCall where
  | fallocate (fd : Nat) (offset len : Int)
  | close (fd : Nat)
  | ftruncate64 (fd : Nat) (size : Int)
  | set_times (fd : Nat) (atim mtim : UInt64)
  | getdents64 (fd : Nat) (count : UInt32)
  | dup3 (oldfd newfd : Int)
  | seek (fd : Nat) (offset : Int) (whence : Nat)
  | mkdirat (dirfd : Nat) (path : Name) (mode : Nat)
  | stat (dirfd : Nat) (path : Name)
  | openat2 (dirfd : Nat) (path : Name) (oflags mode : Nat)
  | readlinkat (dirfd : Nat) (path : Name) (bufsize : Nat)
  | unlinkat (dirfd : Nat) (path : Name) (removeDir : Bool)
  | renameat (olddirfd : Nat) (oldpath : Name) (newdirfd : Nat) (newpath : Name)
  | symlinkat (target : Name) (newdirfd : Nat) (linkpath : Name)

namespace SystemCall

/-- The operation of `fd_filestat_set_times`. -/
def runSetTimes (host : Host) (s : State) (fd : Nat) (atim mtim : UInt64) : State × Int :=
  match FileTable.getEntry s fd with
  | none => (s, Errno.badf.neg)
  | some o => (Export.set_times host s (s.descriptions o).file atim mtim, 0)

/-- The operation of `path_filestat_get`. -/
def runStat (s : State) (dirfd : Nat) (path : Name) : State × Int :=
  match Path.parseFile s path dirfd .followLinks with
  | (s, .error e) => (s, e.neg)
  | (s, .ok _) => (s, 0)

/-- The state a system call leaves and the number it returns. -/
def run (host : Host) (s : State) : SystemCall → SysResult
  | fallocate fd offset len => Syscall.fallocate s fd offset len
  | close fd => Syscall.close s fd
  | ftruncate64 fd size => Syscall.ftruncate64 s fd size
  | set_times fd atim mtim => .ok (runSetTimes host s fd atim mtim)
  | getdents64 fd count =>
      .ok ((Syscall.getdents64 s fd count.toNat).1, (Syscall.getdents64 s fd count.toNat).2.1)
  | dup3 oldfd newfd => Syscall.dup3 s oldfd newfd
  | seek fd offset whence =>
      .ok ((Syscall.seek s fd offset whence).1, (Syscall.seek s fd offset whence).2.1)
  | mkdirat dirfd path mode => .ok (Syscall.mkdirat host s dirfd path mode)
  | stat dirfd path => .ok (runStat s dirfd path)
  | openat2 dirfd path oflags mode => Syscall.openat2 host s dirfd path oflags mode
  | readlinkat dirfd path bufsize =>
      .ok ((Syscall.readlinkat s dirfd path bufsize).1,
        (Syscall.readlinkat s dirfd path bufsize).2.1)
  | unlinkat dirfd path removeDir => .ok (Syscall.unlinkat host s dirfd path removeDir)
  | renameat olddirfd oldpath newdirfd newpath =>
      Syscall.renameat host s olddirfd oldpath newdirfd newpath
  | symlinkat target newdirfd linkpath => Syscall.symlinkat host s target newdirfd linkpath

/-- The calls named `__wasi_…` return an error as a positive number. -/
def positive : SystemCall → Bool
  | close _ => true
  | seek _ _ _ => true
  | _ => false

/-- The number returned reports the error `e`. -/
def Reports (k : SystemCall) (ret : Int) (e : Errno) : Prop :=
  ret = if k.positive then (e.code : Int) else e.neg

end SystemCall

namespace Call

/-- The system call that an export makes. -/
def systemCall (host : Host) : Call → Option SystemCall
  | fd_allocate fd offset len => some (.fallocate fd.toNat offset.toInt len.toInt)
  | fd_close fd => some (.close fd.toNat)
  | fd_filestat_set_size fd size => some (.ftruncate64 fd.toNat size.toInt)
  | fd_filestat_set_times fd atim mtim => some (.set_times fd.toNat atim mtim)
  | fd_readdir fd bufLen => some (.getdents64 fd.toNat bufLen)
  | fd_renumber fd dest => some (.dup3 (s32 fd.toNat) (s32 dest.toNat))
  | fd_seek fd offset whence => some (.seek fd.toNat offset.toInt whence.toNat)
  | path_create_directory _ path =>
      some (.mkdirat host.dirfd.toNat (cstr path) (S_IRUGO ||| S_IXUGO))
  | path_filestat_get _ path => some (.stat Path.AT_FDCWD (cstr path))
  | path_link _ oldPath newFd newPath =>
      some (.symlinkat (cstr newPath) newFd.toNat (cstr oldPath))
  | path_open dirfd path oflags => some (.openat2 dirfd.toNat (cstr path) oflags.toNat 0)
  | path_readlink dirFd path bufLen => some (.readlinkat dirFd.toNat (cstr path) bufLen.toNat)
  | path_remove_directory fd path => some (.unlinkat fd.toNat (cstr path) true)
  | path_rename oldFd oldPath newFd newPath =>
      some (.renameat oldFd.toNat (cstr oldPath) newFd.toNat (cstr newPath))
  | path_symlink oldPath fd newPath => some (.symlinkat (cstr newPath) fd.toNat (cstr oldPath))
  | path_unlink_file dirfd path => some (.unlinkat dirfd.toNat (cstr path) false)
  | _ => none

/-- The status an export returns for the number its system call returned. -/
def status : Call → Int → Nat
  | fd_readdir _ _, _ => 0
  | path_open _ _ _, _ => 0
  | path_readlink _ _ _, ret => if ret < 0 then u16 (-ret) else 0
  | _, ret => u16 ret

end Call

section

variable {host : Host} {s s' : State} {c : Call} {k : SystemCall} {ret : Int} {r : Reply}

/-- An export returns if its system call does. -/
theorem exec_of_run (hc : c.systemCall host = some k) (hrun : k.run host s = .ok (s', ret)) :
    ∃ out, exec host s c = .ok (s', ⟨c.status ret, out⟩) := by
  cases c with
  | fd_filestat_set_times fd atim mtim =>
      cases hc
      simp only [SystemCall.run, SystemCall.runSetTimes] at hrun
      simp only [exec, Export.fd_filestat_set_times]
      cases hfd : FileTable.getEntry s fd.toNat <;> rw [hfd] at hrun <;> cases hrun <;>
        exact ⟨_, rfl⟩
  | fd_seek fd offset whence =>
      cases hc
      simp only [SystemCall.run] at hrun
      simp only [exec, Export.fd_seek]
      rcases hseek : Syscall.seek s fd.toNat offset.toInt whence.toNat with
        ⟨s₁, code, _ | position⟩ <;>
        rw [hseek] at hrun <;> cases hrun <;> exact ⟨_, rfl⟩
  | path_filestat_get fd path =>
      cases hc
      simp only [SystemCall.run, SystemCall.runStat] at hrun
      simp only [exec, Export.path_filestat_get]
      rcases hp : Path.parseFile s (cstr path) Path.AT_FDCWD .followLinks with ⟨s₁, e | file⟩ <;>
        rw [hp] at hrun <;> cases hrun <;> exact ⟨_, rfl⟩
  | path_readlink dirFd path bufLen =>
      cases hc
      cases hrun
      simp only [exec, Export.path_readlink, Call.status]
      split <;> exact ⟨_, rfl⟩
  | path_create_directory | path_remove_directory | path_unlink_file =>
      cases hc
      simp only [SystemCall.run, Except.ok.injEq] at hrun
      simp only [exec, Export.path_create_directory, Export.path_remove_directory,
        Export.path_unlink_file, hrun]
      exact ⟨_, rfl⟩
  | fd_readdir =>
      cases hc
      cases hrun
      exact ⟨_, rfl⟩
  | fd_allocate | fd_close | fd_filestat_set_size | fd_renumber | path_link | path_open
  | path_rename | path_symlink =>
      cases hc
      simp only [SystemCall.run] at hrun
      simp only [exec, Export.fd_allocate, Export.fd_close, Export.fd_filestat_set_size,
        Export.fd_renumber, Export.path_link, Export.path_open, Export.path_rename,
        Export.path_symlink, hrun]
      exact ⟨_, rfl⟩
  | _ => cases hc

/-- What an export leaves is what its system call leaves. -/
theorem run_of_exec (hc : c.systemCall host = some k) (hok : exec host s c = .ok (s', r)) :
    ∃ ret, k.run host s = .ok (s', ret) ∧ r.errno = c.status ret := by
  cases hrun : k.run host s with
  | ok result =>
      obtain ⟨s₁, ret⟩ := result
      obtain ⟨out, hexec⟩ := exec_of_run hc hrun
      rw [hexec] at hok
      cases hok
      exact ⟨ret, rfl, rfl⟩
  | error fault =>
      -- an export faults with its system call
      cases c with
      | fd_allocate | fd_close | fd_filestat_set_size | fd_renumber | path_link | path_open
      | path_rename | path_symlink =>
          cases hc
          simp only [SystemCall.run] at hrun
          simp only [exec, Export.fd_allocate, Export.fd_close, Export.fd_filestat_set_size,
            Export.fd_renumber, Export.path_link, Export.path_open, Export.path_rename,
            Export.path_symlink, hrun] at hok
          cases hok
      | fd_filestat_set_times | fd_seek | path_filestat_get | path_readlink | fd_readdir
      | path_create_directory | path_remove_directory | path_unlink_file =>
          cases hc
          cases hrun
      | _ => cases hc

end

end WasmFS
