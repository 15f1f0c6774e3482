import WasmFS.Data.Bytes
import WasmFS.Data.Locality
import WasmFS.Data.Loops
import WasmFS.Namespace.Calls
import WasmFS.Source.Init

/-!
# Who changes the bytes of a file

Only a data call through a descriptor of the file, and an `open` that truncates it,
change its bytes.  A data call changes no name, no slot and no other file.  This holds
in every state, well formed or not (`contents_framed`).
-/

namespace WasmFS

variable {host : Host} {s s' : State} {f : FileId} {r : Reply}

/-! ## Calls -/

/-- The descriptor of a call that may change the bytes of its file. -/
def Call.writes? : Call → Option UInt32
  | .fd_write fd _ => some fd
  | .fd_pwrite fd _ _ => some fd
  | .fd_allocate fd _ _ => some fd
  | .fd_filestat_set_size fd _ => some fd
  | _ => none

/-- The description of the descriptor is on the file. -/
def State.On (s : State) (fd : UInt32) (f : FileId) : Prop :=
  ∃ o, FileTable.getEntry s fd.toNat = some o ∧ (s.descriptions o).file = f

/-- A data call through a descriptor of the file, or a truncating `path_open` that
resolves to it. -/
inductive Call.Writes (s : State) (f : FileId) : Call → Prop where
  | data {c : Call} {fd : UInt32} : c.writes? = some fd → s.On fd f → Writes s f c
  | truncate {dirfd : UInt32} {path : List UInt8} {oflags : UInt16} :
      hasFlag oflags.toNat O_TRUNC → Syscall.opens s dirfd.toNat (cstr path) = some f →
      Writes s f (.path_open dirfd path oflags)

theorem Call.writes?_descriptor? {c : Call} {fd : UInt32} (h : c.writes? = some fd) :
    c.descriptor? = some fd := by
  cases c with
  | fd_write | fd_pwrite | fd_allocate | fd_filestat_set_size => exact h
  | _ => cases h

/-- A data call touches no name, no slot and no other file. -/
theorem exec_writes {c : Call} {fd : UInt32} (hc : c.writes? = some fd)
    (hok : exec host s c = .ok (s', r)) :
    s'.tree = s.tree ∧ s'.table = s.table ∧ ∀ f, ¬ s.On fd f → s'.files f = s.files f := by
  have hfiles : ∀ f, ¬ s.On fd f → s'.files f = s.files f := by
    intro f hf
    cases ho : FileTable.getEntry s fd.toNat with
    | none => rw [exec_of_empty (Call.writes?_descriptor? hc) ho hok]
    | some o =>
        refine (exec_confined (Call.writes?_descriptor? hc) ho hok).files f ?_
        rintro rfl
        exact hf ⟨o, ho, rfl⟩
  have hskeleton : SameSkeleton s s' := by
    cases c with
    | fd_allocate fd' offset len =>
        obtain ⟨ret, hf, -⟩ := Export.fd_allocate_ok hok
        exact Syscall.fallocate_skeleton hf
    | fd_filestat_set_size fd' size =>
        obtain ⟨ret, hf, -⟩ := Export.fd_filestat_set_size_ok hok
        exact Syscall.ftruncate64_skeleton hf
    | fd_pwrite fd' iovs offset | fd_write fd' iovs =>
        obtain ⟨out, hwrite⟩ := Export.writeReply_ok hok
        exact writeAtOffset_skeleton hwrite
    | _ => cases hc
  exact ⟨hskeleton.tree, hskeleton.table, hfiles⟩

theorem readAtOffset_keepsBytes {setOffset : OffsetHandling} {fd : Nat} {iovs : List Iovec}
    {result : Except Int (Nat × List UInt8)}
    (h : readAtOffset host s setOffset fd iovs = .ok (s', result)) : KeepsBytes f s s' := by
  have hloop : ∀ {f' : FileId} {offset s₁ out}, readLoop host f' offset iovs 0 s = .ok (s₁, out) →
      KeepsBytes f s s₁ := by
    intro f' offset s₁ out hl
    exact readLoop_keeps (P := KeepsBytes f s) (fun hs => hs.trans (.of_files rfl rfl)) hl (.refl s)
  simp only [readAtOffset] at h
  split at h
  · cases h
    exact .refl s
  split at h
  · cases h
    exact .refl s
  split at h
  · cases h
  · rename_i hl
    cases h
    exact hloop hl
  · rename_i hl
    cases h
    refine (hloop hl).trans ?_
    simp only [advance]
    split
    · exact .of_files rfl rfl
    · exact .refl _

namespace Syscall

theorem getdents64_keepsBytes (s : State) (fd count : Nat) :
    KeepsBytes f s (getdents64 s fd count).1 := by
  simp only [getdents64]
  split
  · exact .refl s
  split
  · exact .refl s
  split
  · exact .refl s
  split
  · exact .refl s
  · exact .of_files rfl rfl

theorem seek_keepsBytes (s : State) (fd : Nat) (offset : Int) (whence : Nat) :
    KeepsBytes f s (seek s fd offset whence).1 := by
  simp only [seek]
  split
  · exact .refl s
  split
  · exact .refl s
  split
  · exact .refl s
  split
  · exact .refl s
  · exact .of_files rfl rfl

theorem readlinkat_keepsBytes (s : State) (dirfd : Nat) (path : Name) (bufsize : Nat) :
    KeepsBytes f s (readlinkat s dirfd path bufsize).1 := by
  have hp := KeepsBytes.parseFile (f := f) s path dirfd .noFollowLinks
  simp only [readlinkat]
  split <;> rename_i hparse <;> rw [hparse] at hp
  · exact hp
  · split <;> exact hp

end Syscall

/-- Every call that does not write the file keeps its bytes. -/
theorem exec_keepsBytes {c : Call} (hc : ¬ c.Writes s f) (hok : exec host s c = .ok (s', r)) :
    KeepsBytes f s s' := by
  cases hw : c.writes? with
  | some fd =>
      obtain ⟨htree, -, hfiles⟩ := exec_writes hw hok
      refine ⟨Nat.le_of_eq (congrArg Tree.next htree.symm), fun _ => ?_⟩
      rw [hfiles f fun hon => hc (.data hw hon)]
  | none =>
      cases c with
      | fd_allocate | fd_filestat_set_size | fd_pwrite | fd_write => cases hw
      | fd_advise | fd_fdstat_set_flags | fd_fdstat_set_rights | fd_prestat_get
      | fd_prestat_dir_name =>
          cases hok
          exact .refl s
      | fd_close fd =>
          obtain ⟨ret, hclose, -⟩ := Export.fd_close_ok hok
          exact .of_sameFiles (Syscall.close_sameFiles hclose)
      | fd_renumber fd dest =>
          obtain ⟨ret, hdup, -⟩ := Export.fd_renumber_ok hok
          exact .of_sameFiles (Syscall.dup3_sameFiles hdup)
      | fd_datasync fd | fd_sync fd =>
          simp only [exec, Export.fd_datasync, Export.fd_sync] at hok
          split at hok <;> cases hok <;> exact .refl _
      | fd_fdstat_get fd | fd_filestat_get fd =>
          simp only [exec, Export.fd_filestat_get, Export.fd_fdstat_get] at hok
          split at hok <;> cases hok <;> exact .refl _
      | fd_tell fd =>
          simp only [exec, Export.fd_tell] at hok
          split at hok <;> cases hok <;> exact .refl _
      | fd_filestat_set_times fd atim mtim =>
          simp only [exec, Export.fd_filestat_set_times] at hok
          split at hok
          · cases hok
            exact .refl s
          · cases hok
            exact .modify s _ fun _ => rfl
      | fd_pread fd iovs offset | fd_read fd iovs =>
          obtain ⟨out, hread⟩ := Export.readReply_ok hok
          exact readAtOffset_keepsBytes hread
      | fd_readdir fd bufLen =>
          have hs := Syscall.getdents64_keepsBytes (f := f) s fd.toNat bufLen.toNat
          cases hok
          exact hs
      | fd_seek fd offset whence =>
          have hs := Syscall.seek_keepsBytes (f := f) s fd.toNat offset.toInt whence.toNat
          simp only [exec, Export.fd_seek] at hok
          split at hok <;> rename_i hseek <;> rw [hseek] at hs <;> cases hok <;> exact hs
      | path_create_directory fd path =>
          have hs := Syscall.mkdirat_keepsBytes (f := f) host s host.dirfd.toNat (cstr path)
            (S_IRUGO ||| S_IXUGO)
          cases hok
          exact hs
      | path_filestat_get fd path =>
          have hs := KeepsBytes.parseFile (f := f) s (cstr path) Path.AT_FDCWD .followLinks
          simp only [exec, Export.path_filestat_get] at hok
          split at hok <;> rename_i hp <;> rw [hp] at hs <;> cases hok <;> exact hs
      | path_filestat_set_times fd path atim mtim =>
          have hs := KeepsBytes.parseFile (f := f) s (cstr path) fd.toNat .followLinks
          simp only [exec, Export.path_filestat_set_times] at hok
          split at hok <;> rename_i hp <;> rw [hp] at hs <;> cases hok
          · exact hs
          · exact hs.trans (.modify _ _ fun _ => rfl)
      | path_link oldFd oldPath newFd newPath =>
          obtain ⟨ret, hs, -⟩ := Export.path_link_ok oldFd hok
          exact Syscall.symlinkat_keepsBytes hs
      | path_symlink oldPath fd newPath =>
          obtain ⟨ret, hs, -⟩ := Export.path_symlink_ok hok
          exact Syscall.symlinkat_keepsBytes hs
      | path_open dirfd path oflags =>
          obtain ⟨ret, hopen, -⟩ := Export.path_open_ok hok
          exact Syscall.openat2_keepsBytes (fun htrunc hopens => hc (.truncate htrunc hopens)) hopen
      | path_readlink dirFd path bufLen =>
          have hs := Syscall.readlinkat_keepsBytes (f := f) s dirFd.toNat (cstr path) bufLen.toNat
          simp only [exec, Export.path_readlink] at hok
          split at hok <;> cases hok <;> exact hs
      | path_remove_directory fd path =>
          have hs := Syscall.unlinkat_keepsBytes (f := f) host s fd.toNat (cstr path) true
          cases hok
          exact hs
      | path_unlink_file dirfd path =>
          have hs := Syscall.unlinkat_keepsBytes (f := f) host s dirfd.toNat (cstr path) false
          cases hok
          exact hs
      | path_rename oldFd oldPath newFd newPath =>
          obtain ⟨ret, hren, -⟩ := Export.path_rename_ok hok
          exact Syscall.renameat_keepsBytes hren

/-! ## Reading the same bytes -/

/-- What a read of a memory file answers is a matter of the buffer only. -/
theorem readLoop_memory (host : Host) (f : FileId) (buffer : Buffer) (offset bytesRead : Nat)
    (iovs : List Iovec) :
    ∃ x : Except Fault (Except Int (Nat × List UInt8)), ∀ {s : State},
      (s.files f).body = .memory buffer →
      readLoop host f offset iovs bytesRead s = x.map (Prod.mk s) := by
  induction iovs generalizing bytesRead with
  | nil => exact ⟨.ok (.ok (bytesRead, [])), fun _ => rfl⟩
  | cons iov iovs ih =>
      by_cases hnull : iov.isNull ∧ iov.len.toNat > 0
      · refine ⟨.ok (.error Errno.inval.code), fun _ => ?_⟩
        simp only [readLoop, if_pos hnull, Except.map]
      cases hr : MemoryDataFile.read buffer iov.len.toNat (s64 (u64 (offset + bytesRead))) with
      | error e =>
          refine ⟨.error e, fun hb => ?_⟩
          simp only [readLoop, if_neg hnull, DataFile.read_memory_fault hb hr, Except.map]
      | ok result =>
          obtain ⟨bytes, count⟩ := result
          by_cases hneg : count < 0
          · refine ⟨.ok (if bytesRead > 0 then .ok (bytesRead, []) else .error (-count)),
              fun hb => ?_⟩
            simp only [readLoop, if_neg hnull, DataFile.read_memory host hb hr, if_pos hneg,
              Except.map]
            split <;> rfl
          by_cases hshort : u32 count < iov.len.toNat
          · refine ⟨.ok (.ok (u32 (bytesRead + count), bytes)), fun hb => ?_⟩
            simp only [readLoop, if_neg hnull, DataFile.read_memory host hb hr, if_neg hneg,
              if_pos hshort, Except.map]
          obtain ⟨x, hx⟩ := ih (u32 (bytesRead + count))
          refine ⟨x.map fun y => y.map fun z => (z.1, bytes ++ z.2), fun hb => ?_⟩
          simp only [readLoop, if_neg hnull, DataFile.read_memory host hb hr, if_neg hneg,
            if_neg hshort, hx hb]
          rcases x with e | code | z <;> simp only [Except.map]

/-- Through any descriptors of a file with the same buffer, `fd_pread` replies the
same. -/
theorem fd_pread_same {fd fd' : UInt32} (iovs : List Iovec) (offset : UInt64)
    (hb : (s.files f).buffer? ≠ none) (hb' : (s'.files f).buffer? = (s.files f).buffer?)
    (hon : s.On fd f) (hon' : s'.On fd' f) :
    (exec host s' (.fd_pread fd' iovs offset)).map Prod.snd =
      (exec host s (.fd_pread fd iovs offset)).map Prod.snd := by
  obtain ⟨buffer, hbuffer⟩ := Option.ne_none_iff_exists'.mp hb
  obtain ⟨x, hx⟩ := readLoop_memory host f buffer offset.toNat 0 iovs
  have hreply : ∀ {s : State} {fd : UInt32}, (s.files f).buffer? = some buffer → s.On fd f →
      (exec host s (.fd_pread fd iovs offset)).map Prod.snd =
        (Export.readReply (x.map (Prod.mk s))).map Prod.snd := by
    intro s fd hsome hon
    have hbody := File.body_of_buffer? hsome
    obtain ⟨o, ho, rfl⟩ := hon
    simp only [exec, Export.fd_pread, readAtOffset, ho, readStart]
    rw [if_neg (by simp [File.isDataFile_of_memory hbody]), hx hbody]
    rcases x with e | code | z
    · simp only [Except.map]
    · simp only [Except.map]
    · simp only [Except.map, advance]
      rw [if_neg (by simp)]
  rw [hreply hbuffer hon, hreply (hb'.trans hbuffer) hon']
  rcases x with e | code | z <;> simp only [Except.map, Export.readReply]

/-! ## Runs -/

/-- From the state on, the bytes of every file are changed by data calls on that file
only. -/
structure ContentsFramed (host : Host) (s : State) : Prop where
  call : ∀ {f c s' r}, f < s.next → ¬ Call.Writes s f c → exec host s c = .ok (s', r) →
    (s'.files f).buffer? = (s.files f).buffer?
  run : ∀ {f s'}, f < s.next →
    Transition.Reach (Step host) (fun s c => ¬ Call.Writes s f c) s s' →
    (s'.files f).buffer? = (s.files f).buffer?
  /-- Every descriptor that is still open on the file reads the same. -/
  reads : ∀ {f s' fd fd'} (iovs : List Iovec) (offset : UInt64), f < s.next →
    Transition.Reach (Step host) (fun s c => ¬ Call.Writes s f c) s s' →
    (s.files f).buffer? ≠ none → s.On fd f → s'.On fd' f →
    (exec host s' (.fd_pread fd' iovs offset)).map Prod.snd =
      (exec host s (.fd_pread fd iovs offset)).map Prod.snd
  /-- A data call changes no entry, no parent, no slot and no other file. -/
  writes : ∀ {c : Call} {fd s' r}, c.writes? = some fd → exec host s c = .ok (s', r) →
    s'.tree = s.tree ∧ s'.table = s.table ∧ ∀ f, ¬ s.On fd f → s'.files f = s.files f

theorem contents_framed (host : Host) (s : State) : ContentsFramed host s := by
  have hrun : ∀ {f s'}, f < s.next →
      Transition.Reach (Step host) (fun s c => ¬ Call.Writes s f c) s s' →
      (s'.files f).buffer? = (s.files f).buffer? := by
    intro f s' hf hreach
    have hkeeps : KeepsBytes f s s' := by
      refine hreach.invariant (I := KeepsBytes f s) (.refl s) ?_
      intro s₁ c s₂ h₁ hc hstep
      obtain ⟨r, hok⟩ := hstep
      exact h₁.trans (exec_keepsBytes hc hok)
    exact hkeeps.buffer hf
  refine ⟨fun hf hc hok => (exec_keepsBytes hc hok).buffer hf, hrun, ?_, exec_writes⟩
  intro f s' fd fd' iovs offset hf hreach hb hon hon'
  exact fd_pread_same iovs offset hb (hrun hf hreach) hon hon'

end WasmFS
