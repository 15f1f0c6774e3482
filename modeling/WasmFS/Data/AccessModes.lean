import WasmFS.Data.Contents

/-!
# Access modes

A description records the access mode that it was opened with, and the data calls
never look at it.  They ask for the kind of the file, and the calls that set a size
ask for the mode of the file.  So a data file opened for reading only is written to like
any other, and one opened for writing only is read.

What a description refuses, it refuses because it is not on a data file
(`accessEnforced_iff`).
-/

namespace WasmFS

variable {host : Host} {s s' : State} {fd : UInt32} {o : OpenId}

/-- The descriptor of a call that reads bytes of its file. -/
def Call.reads? : Call → Option UInt32
  | .fd_read fd _ => some fd
  | .fd_pread fd _ _ => some fd
  | _ => none

/-- The access mode that a description was opened with. -/
def OpenFileState.accessMode (d : OpenFileState) : Nat := d.flags &&& O_ACCMODE

/-- The access mode of the description of the descriptor is enforced from the state on. -/
structure AccessEnforced (host : Host) (s : State) (fd : UInt32) : Prop where
  /-- Calls that write through a description opened for reading only change no byte and no
  size, and report errors. -/
  readOnly : ∀ {o calls s' replies}, FileTable.getEntry s fd.toNat = some o →
    (s.descriptions o).accessMode = O_RDONLY → (∀ c ∈ calls, Call.writes? c = some fd) →
    run host s calls = .ok (s', replies) →
    (∀ f, (s'.files f).buffer? = (s.files f).buffer?) ∧ ∀ r ∈ replies, r.errno ≠ 0
  /-- A call that reads through a description opened for writing only transfers nothing, and
  reports an error. -/
  writeOnly : ∀ {o c s' r}, FileTable.getEntry s fd.toNat = some o →
    (s.descriptions o).accessMode = O_WRONLY → Call.reads? c = some fd →
    exec host s c = .ok (s', r) → r.errno ≠ 0 ∧ r.out = .nothing

/-- The descriptor is on a data file that was opened for reading only or for writing
only. -/
def Restricted (s : State) (fd : UInt32) : Prop :=
  ∃ o, FileTable.getEntry s fd.toNat = some o ∧
    (s.files (s.descriptions o).file).isDataFile ∧
    ((s.descriptions o).accessMode = O_RDONLY ∨ (s.descriptions o).accessMode = O_WRONLY)

/-! ## Files without data -/

section

variable (ho : FileTable.getEntry s fd.toNat = some o)
  (hdata : ¬ (s.files (s.descriptions o).file).isDataFile)

include ho hdata

theorem writeAtOffset_refused (setOffset : OffsetHandling) (iovs : List CIovec) :
    writeAtOffset host s setOffset fd.toNat iovs = .ok (s, .error Errno.isdir.code) := by
  simp only [writeAtOffset, ho, if_pos hdata]

theorem readAtOffset_refused (setOffset : OffsetHandling) (iovs : List Iovec) :
    readAtOffset host s setOffset fd.toNat iovs = .ok (s, .error Errno.isdir.code) := by
  simp only [readAtOffset, ho, if_pos hdata]

/-- A call that writes leaves the state alone if the file is not a data file. -/
theorem exec_writes_refused {c : Call} (hc : c.writes? = some fd) :
    ∃ r, exec host s c = .ok (s, r) ∧ r.errno ≠ 0 := by
  cases c with
  | fd_write fd' iovs =>
      cases hc
      simp only [exec, Export.fd_write, writeAtOffset_refused ho hdata, Export.writeReply]
      exact ⟨_, rfl, by decide⟩
  | fd_pwrite fd' iovs offset =>
      cases hc
      simp only [exec, Export.fd_pwrite, writeAtOffset_refused ho hdata, Export.writeReply]
      exact ⟨_, rfl, by decide⟩
  | fd_allocate fd' offset len =>
      cases hc
      simp only [exec, Export.fd_allocate, Syscall.fallocate, ho, if_pos hdata]
      exact ⟨_, rfl, by decide⟩
  | fd_filestat_set_size fd' size =>
      cases hc
      simp only [exec, Export.fd_filestat_set_size, Syscall.ftruncate64, Syscall.doTruncate, ho,
        if_pos hdata]
      exact ⟨_, rfl, by decide⟩
  | _ => cases hc

theorem exec_reads_refused {c : Call} (hc : c.reads? = some fd) :
    exec host s c = .ok (s, ⟨u16 Errno.isdir.code, .nothing⟩) := by
  cases c with
  | fd_read fd' iovs =>
      cases hc
      simp only [exec, Export.fd_read, readAtOffset_refused ho hdata, Export.readReply]
  | fd_pread fd' iovs offset =>
      cases hc
      simp only [exec, Export.fd_pread, readAtOffset_refused ho hdata, Export.readReply]
  | _ => cases hc

/-- So do any number of them. -/
theorem run_refused {calls : List Call} {replies : List Reply}
    (hcalls : ∀ c ∈ calls, Call.writes? c = some fd)
    (hrun : run host s calls = .ok (s', replies)) : s' = s ∧ ∀ r ∈ replies, r.errno ≠ 0 := by
  induction calls generalizing replies with
  | nil =>
      cases hrun
      exact ⟨rfl, fun r hr => nomatch hr⟩
  | cons c calls ih =>
      have hc := hcalls c List.mem_cons_self
      obtain ⟨r, hexec, hr⟩ : ∃ r, exec host s c = .ok (s, r) ∧ r.errno ≠ 0 :=
        exec_writes_refused ho hdata hc
      simp only [run, hexec] at hrun
      split at hrun
      · cases hrun
      · rename_i s₁ replies₁ hrest
        cases hrun
        obtain ⟨rfl, hreplies⟩ := ih (fun c hc => hcalls c (.tail _ hc)) hrest
        refine ⟨rfl, fun r' hr' => ?_⟩
        cases hr' with
        | head => exact hr
        | tail _ hmem => exact hreplies r' hmem

end

/-! ## Data files -/

section

variable (host : Host) (ho : FileTable.getEntry s fd.toNat = some o)
  (hdata : (s.files (s.descriptions o).file).isDataFile)

include ho hdata

/-- Writing nothing succeeds through every description of a data file. -/
theorem fd_write_nothing : ∃ s', exec host s (.fd_write fd []) = .ok (s', ⟨0, .written 0⟩) := by
  simp only [exec, Export.fd_write, writeAtOffset, ho, if_neg (not_not.mpr hdata), writeLoop,
    Export.writeReply]
  exact ⟨_, rfl⟩

/-- Reading nothing succeeds as well. -/
theorem fd_read_nothing : ∃ s', exec host s (.fd_read fd []) = .ok (s', ⟨0, .read 0 []⟩) := by
  simp only [exec, Export.fd_read, readAtOffset, ho, if_neg (not_not.mpr hdata), readLoop,
    Export.readReply]
  exact ⟨_, rfl⟩

end

/-! ## When access modes are enforced -/

theorem accessEnforced_iff (host : Host) (s : State) (fd : UInt32) :
    AccessEnforced host s fd ↔ ¬ Restricted s fd := by
  constructor
  · rintro h ⟨o, ho, hdata, hmode | hmode⟩
    · obtain ⟨s', hexec⟩ := fd_write_nothing host ho hdata
      have hrun : run host s [.fd_write fd []] = .ok (s', [⟨0, .written 0⟩]) := by
        simp only [run, hexec]
      have hcalls : ∀ c ∈ [Call.fd_write fd []], c.writes? = some fd := by
        intro c hc
        cases List.mem_singleton.mp hc
        rfl
      exact (h.readOnly ho hmode hcalls hrun).2 _ List.mem_cons_self rfl
    · obtain ⟨s', hexec⟩ := fd_read_nothing host ho hdata
      exact (h.writeOnly ho hmode rfl hexec).1 rfl
  · intro h
    constructor
    · intro o calls s' replies ho hmode hcalls hrun
      have hdata : ¬ (s.files (s.descriptions o).file).isDataFile :=
        fun hd => h ⟨o, ho, hd, Or.inl hmode⟩
      obtain ⟨rfl, herrors⟩ := run_refused ho hdata hcalls hrun
      exact ⟨fun _ => rfl, herrors⟩
    · intro o c s' r ho hmode hc hok
      have hdata : ¬ (s.files (s.descriptions o).file).isDataFile :=
        fun hd => h ⟨o, ho, hd, Or.inr hmode⟩
      rw [exec_reads_refused ho hdata hc] at hok
      cases hok
      exact ⟨by decide, rfl⟩

/-- A write through a description that `path_open` made with `O_CREAT` and `O_RDONLY` stores
its byte. -/
theorem not_accessEnforced_write : ¬ ∀ (host : Host) (s : State) (fd : UInt32),
    Reachable host s → AccessEnforced host s fd := by
  obtain ⟨s, replies, hopen, ho, hmode, s', replies', hwrite, hchanged⟩ :
      Returns (afterRun [.path_open atFdCwd [slash] 0, .path_open 3 [102] 64]) fun s _ =>
        FileTable.getEntry s (4 : UInt32).toNat = some 4 ∧
        (s.descriptions 4).accessMode = O_RDONLY ∧
        Returns (run .still s [.fd_write 4 [⟨false, [1], by decide⟩]]) fun s' _ =>
          (s'.files (s.descriptions 4).file).buffer? ≠
            (s.files (s.descriptions 4).file).buffer? := by
    decide +kernel
  intro hall
  have henforced := hall .still s 4 (.of_afterRun hopen)
  refine hchanged ((henforced.readOnly ho hmode ?_ hwrite).1 _)
  intro c hc
  cases List.mem_singleton.mp hc
  rfl

end WasmFS
