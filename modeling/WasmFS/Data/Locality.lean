import WasmFS.Data.Frame

/-!
# What a call through a descriptor touches

A call that works on an open description touches that description and its file.
Every other description and every other file is exactly as before, and no hook
is called (`exec_confined`).  Through an empty slot such a call does nothing at
all (`exec_of_empty`).
-/

namespace WasmFS

/-- At most the file `f`, the description `o` and the questions to the host
differ. -/
structure Confined (f : FileId) (o : OpenId) (s s' : State) : Prop where
  files : ∀ f' ≠ f, s'.files f' = s.files f'
  descriptions : ∀ o' ≠ o, s'.descriptions o' = s.descriptions o'
  hooks : s'.trace.hooks = s.trace.hooks

namespace Confined

variable {f : FileId} {o : OpenId} {s s' s'' : State}

@[refl] theorem refl (s : State) : Confined f o s s := ⟨fun _ _ => rfl, fun _ _ => rfl, rfl⟩

theorem trans (h : Confined f o s s') (h' : Confined f o s' s'') : Confined f o s s'' where
  files f' hf := (h'.files f' hf).trans (h.files f' hf)
  descriptions o' ho := (h'.descriptions o' ho).trans (h.descriptions o' ho)
  hooks := h'.hooks.trans h.hooks

theorem modify (s : State) (g : File → File) : Confined f o s (s.modify f g) where
  files _ hf := Function.update_of_ne hf ..
  descriptions _ _ := rfl
  hooks := rfl

theorem setPosition (s : State) (o : OpenId) (position : Int) :
    Confined f o s (s.modifyOpen o fun x => { x with position := position }) where
  files _ _ := rfl
  descriptions _ ho := Function.update_of_ne ho ..
  hooks := rfl

theorem ask (s : State) : Confined f o s s.ask := ⟨fun _ _ => rfl, fun _ _ => rfl, rfl⟩

theorem updateMTime (host : Host) (s : State) : Confined f o s (s.updateMTime host f) :=
  (modify s _).trans (ask _)

/-- What is confined to any description touches none. -/
theorem descriptions_eq (h : ∀ o, Confined f o s s') : s'.descriptions = s.descriptions := by
  funext o
  exact (h (o + 1)).descriptions o (Nat.ne_of_lt (Nat.lt_succ_self o))

end Confined

variable {host : Host} {s s' : State} {f : FileId} {o x : OpenId}

/-! ## Data files -/

theorem DataFile.setSize_confined {size result : Int}
    (h : setSize s f size = .ok (s', result)) : Confined f o s s' := by
  simp only [setSize] at h
  split at h
  · split at h
    · cases h
    · cases h
      exact .modify s _
  · cases h
    exact .refl s

/-! ## The loops -/

theorem writeLoop_confined {offset : Nat} {iovs : List CIovec} {bytesWritten : Nat}
    {result : Except Int Nat}
    (h : writeLoop host f offset iovs bytesWritten s = .ok (s', result)) : Confined f o s s' :=
  writeLoop_keeps (P := Confined f o s) (fun hs => hs.trans (.ask _))
    (fun _ hs => hs.trans (.modify _ _)) h (.refl s)

theorem readLoop_confined {offset : Nat} {iovs : List Iovec} {bytesRead : Nat}
    {result : Except Int (Nat × List UInt8)}
    (h : readLoop host f offset iovs bytesRead s = .ok (s', result)) : Confined f o s s' :=
  readLoop_keeps (P := Confined f o s) (fun hs => hs.trans (.ask _)) h (.refl s)

/-! ## The system calls -/

/-- A transfer at an offset of its own touches no description. -/
theorem writeStart_confined (s : State) {setOffset : OffsetHandling}
    (hx : setOffset = .openFileState → x = o) : Confined f x s (writeStart s o setOffset).1 := by
  cases setOffset with
  | argument offset => exact .refl s
  | openFileState =>
      obtain rfl := hx rfl
      simp only [writeStart]
      split
      · exact .setPosition s x _
      · exact .refl s

theorem advance_confined (s : State) {setOffset : OffsetHandling} (offset bytes : Nat)
    (hx : setOffset = .openFileState → x = o) :
    Confined f x s (advance s o setOffset offset bytes) := by
  cases setOffset with
  | argument offset => exact .refl s
  | openFileState =>
      obtain rfl := hx rfl
      simp only [advance]
      split
      · exact .setPosition s x _
      · exact .refl s

section

variable {fd : Nat}

theorem writeAtOffset_confined {setOffset : OffsetHandling} {iovs : List CIovec}
    {result : Except Int Nat} (ho : FileTable.getEntry s fd = some o)
    (hx : setOffset = .openFileState → x = o)
    (h : writeAtOffset host s setOffset fd iovs = .ok (s', result)) :
    Confined (s.descriptions o).file x s s' := by
  simp only [writeAtOffset, ho] at h
  split at h
  · cases h
    exact .refl s
  have hstart : Confined (s.descriptions o).file x s (writeStart s o setOffset).1 :=
    writeStart_confined s hx
  split at h
  · cases h
  · rename_i hloop
    cases h
    exact hstart.trans (writeLoop_confined hloop)
  · rename_i s₁ bytesWritten hloop
    have hs := (hstart.trans (writeLoop_confined hloop)).trans
      (advance_confined s₁ (writeStart s o setOffset).2 bytesWritten hx)
    cases h
    split
    · exact hs.trans (.updateMTime host _)
    · exact hs

theorem readAtOffset_confined {setOffset : OffsetHandling} {iovs : List Iovec}
    {result : Except Int (Nat × List UInt8)} (ho : FileTable.getEntry s fd = some o)
    (hx : setOffset = .openFileState → x = o)
    (h : readAtOffset host s setOffset fd iovs = .ok (s', result)) :
    Confined (s.descriptions o).file x s s' := by
  simp only [readAtOffset, ho] at h
  split at h
  · cases h
    exact .refl s
  split at h
  · cases h
  · rename_i hloop
    cases h
    exact readLoop_confined hloop
  · rename_i hloop
    cases h
    exact (readLoop_confined hloop).trans (advance_confined _ _ _ hx)

theorem Syscall.ftruncate64_confined {size ret : Int} (ho : FileTable.getEntry s fd = some o)
    (h : ftruncate64 s fd size = .ok (s', ret)) : Confined (s.descriptions o).file x s s' := by
  simp only [ftruncate64, ho] at h
  split at h
  · cases h
  rename_i htruncate
  cases h
  simp only [doTruncate] at htruncate
  split at htruncate
  · cases htruncate
    exact .refl s
  split at htruncate
  · cases htruncate
    exact .refl s
  split at htruncate
  · cases htruncate
    exact .refl s
  · exact DataFile.setSize_confined htruncate

theorem Syscall.fallocate_confined {offset len ret : Int} (ho : FileTable.getEntry s fd = some o)
    (h : fallocate s fd offset len = .ok (s', ret)) : Confined (s.descriptions o).file x s s' := by
  simp only [fallocate, ho] at h
  split at h
  · cases h
    exact .refl s
  split at h
  · cases h
    exact .refl s
  split at h
  · cases h
    exact .refl s
  split at h
  · exact DataFile.setSize_confined h
  · cases h
    exact .refl s

theorem Syscall.seek_confined (ho : FileTable.getEntry s fd = some o) (offset : Int)
    (whence : Nat) : Confined f o s (seek s fd offset whence).1 := by
  simp only [seek, ho]
  split
  · exact .refl s
  split
  · exact .refl s
  split
  · exact .refl s
  · exact .setPosition s o _

theorem Syscall.getdents64_confined (ho : FileTable.getEntry s fd = some o) (count : Nat) :
    Confined f o s (getdents64 s fd count).1 := by
  simp only [getdents64, ho]
  split
  · exact .refl s
  split
  · exact .refl s
  split
  · exact .refl s
  · exact .setPosition s o _

end

/-! ## The exports -/

/-- The descriptor through which a call works on a description. -/
def Call.descriptor? : Call → Option UInt32
  | .fd_allocate fd _ _ => some fd
  | .fd_datasync fd => some fd
  | .fd_fdstat_get fd => some fd
  | .fd_filestat_get fd => some fd
  | .fd_filestat_set_size fd _ => some fd
  | .fd_filestat_set_times fd _ _ => some fd
  | .fd_pread fd _ _ => some fd
  | .fd_pwrite fd _ _ => some fd
  | .fd_read fd _ => some fd
  | .fd_readdir fd _ => some fd
  | .fd_seek fd _ _ => some fd
  | .fd_sync fd => some fd
  | .fd_tell fd => some fd
  | .fd_write fd _ => some fd
  | _ => none

/-- The calls that move the position of a description. -/
def Call.movesPosition : Call → Bool
  | .fd_read _ _ => true
  | .fd_write _ _ => true
  | .fd_readdir _ _ => true
  | .fd_seek _ _ _ => true
  | _ => false

section

variable {c : Call} {fd : UInt32} {r : Reply} (hc : c.descriptor? = some fd)
  (ho : FileTable.getEntry s fd.toNat = some o) (hok : exec host s c = .ok (s', r))

include hc ho hok

/-- A call through an occupied slot is confined to the file of the description in it, and
to the description if it moves a position. -/
theorem exec_confined_of_moves (hx : c.movesPosition → x = o) :
    Confined (s.descriptions o).file x s s' := by
  cases c with
  | fd_allocate fd' offset len =>
      cases hc
      obtain ⟨ret, hf, -⟩ := Export.fd_allocate_ok hok
      exact Syscall.fallocate_confined ho hf
  | fd_datasync fd' | fd_sync fd' =>
      cases hc
      simp only [exec, Export.fd_datasync, Export.fd_sync, ho] at hok
      cases hok
      exact .refl s
  | fd_fdstat_get fd' | fd_filestat_get fd' =>
      cases hc
      simp only [exec, Export.fd_filestat_get, Export.fd_fdstat_get, ho] at hok
      cases hok
      exact .refl s
  | fd_filestat_set_size fd' size =>
      cases hc
      obtain ⟨ret, hf, -⟩ := Export.fd_filestat_set_size_ok hok
      exact Syscall.ftruncate64_confined ho hf
  | fd_filestat_set_times fd' atim mtim =>
      cases hc
      simp only [exec, Export.fd_filestat_set_times, ho] at hok
      cases hok
      exact .modify s _
  | fd_read fd' iovs =>
      cases hc
      obtain ⟨out, hread⟩ := Export.readReply_ok hok
      exact readAtOffset_confined ho (fun _ => hx rfl) hread
  | fd_pread fd' iovs offset =>
      cases hc
      obtain ⟨out, hread⟩ := Export.readReply_ok hok
      refine readAtOffset_confined ho (fun h => ?_) hread
      cases h
  | fd_write fd' iovs =>
      cases hc
      obtain ⟨out, hwrite⟩ := Export.writeReply_ok hok
      exact writeAtOffset_confined ho (fun _ => hx rfl) hwrite
  | fd_pwrite fd' iovs offset =>
      cases hc
      obtain ⟨out, hwrite⟩ := Export.writeReply_ok hok
      refine writeAtOffset_confined ho (fun h => ?_) hwrite
      cases h
  | fd_readdir fd' bufLen =>
      cases hc
      obtain rfl := hx rfl
      have hs := Syscall.getdents64_confined (f := (s.descriptions x).file) ho bufLen.toNat
      cases hok
      exact hs
  | fd_seek fd' offset whence =>
      cases hc
      obtain rfl := hx rfl
      have hs := Syscall.seek_confined (f := (s.descriptions x).file) ho offset.toInt whence.toNat
      simp only [exec, Export.fd_seek] at hok
      split at hok <;> rename_i hseek <;> rw [hseek] at hs <;> cases hok <;> exact hs
  | fd_tell fd' =>
      cases hc
      simp only [exec, Export.fd_tell, ho] at hok
      cases hok
      exact .refl s
  | _ => cases hc

/-- A call through an occupied slot is confined to the description in it and to its
file. -/
theorem exec_confined : Confined (s.descriptions o).file o s s' :=
  exec_confined_of_moves hc ho hok fun _ => rfl

end

/-- A call through an empty slot changes nothing. -/
theorem exec_of_empty {c : Call} {fd : UInt32} {r : Reply} (hc : c.descriptor? = some fd)
    (ho : FileTable.getEntry s fd.toNat = none) (hok : exec host s c = .ok (s', r)) : s' = s := by
  cases c with
  | fd_allocate fd' offset len =>
      cases hc
      simp only [exec, Export.fd_allocate, Syscall.fallocate, ho] at hok
      cases hok
      rfl
  | fd_datasync fd' | fd_sync fd' =>
      cases hc
      simp only [exec, Export.fd_datasync, Export.fd_sync, ho] at hok
      cases hok
      rfl
  | fd_fdstat_get fd' | fd_filestat_get fd' =>
      cases hc
      simp only [exec, Export.fd_filestat_get, Export.fd_fdstat_get, ho] at hok
      cases hok
      rfl
  | fd_filestat_set_size fd' size =>
      cases hc
      simp only [exec, Export.fd_filestat_set_size, Syscall.ftruncate64, ho] at hok
      cases hok
      rfl
  | fd_filestat_set_times fd' atim mtim =>
      cases hc
      simp only [exec, Export.fd_filestat_set_times, ho] at hok
      cases hok
      rfl
  | fd_pread fd' iovs offset =>
      cases hc
      simp only [exec, Export.fd_pread, readAtOffset, ho, Export.readReply] at hok
      cases hok
      rfl
  | fd_read fd' iovs =>
      cases hc
      simp only [exec, Export.fd_read, readAtOffset, ho, Export.readReply] at hok
      cases hok
      rfl
  | fd_pwrite fd' iovs offset =>
      cases hc
      simp only [exec, Export.fd_pwrite, writeAtOffset, ho, Export.writeReply] at hok
      cases hok
      rfl
  | fd_write fd' iovs =>
      cases hc
      simp only [exec, Export.fd_write, writeAtOffset, ho, Export.writeReply] at hok
      cases hok
      rfl
  | fd_readdir fd' bufLen =>
      cases hc
      simp only [exec, Export.fd_readdir, Syscall.getdents64, ho] at hok
      split at hok <;> cases hok <;> rfl
  | fd_seek fd' offset whence =>
      cases hc
      simp only [exec, Export.fd_seek, Syscall.seek, ho] at hok
      cases hok
      rfl
  | fd_tell fd' =>
      cases hc
      simp only [exec, Export.fd_tell, ho] at hok
      cases hok
      rfl
  | _ => cases hc

/-- A call that moves no position touches no description. -/
theorem exec_descriptions {c : Call} {fd : UInt32} {r : Reply} (hd : c.descriptor? = some fd)
    (hc : c.movesPosition = false) (hok : exec host s c = .ok (s', r)) :
    s'.descriptions = s.descriptions := by
  cases ho : FileTable.getEntry s fd.toNat with
  | none => rw [exec_of_empty hd ho hok]
  | some o =>
      refine Confined.descriptions_eq fun x => exec_confined_of_moves hd ho hok fun hmoves => ?_
      rw [hc] at hmoves
      cases hmoves

end WasmFS
