import WasmFS.Namespace.Start
import WasmFS.Status.SystemCalls

/-!
# Failed calls change nothing

Every check of a system call comes before its first update.  So a call that
reports an error leaves the state as it was, in any well-formed tree
(`failed_unchanged`).  There is one case for each system call, read off its list of
outcomes.
-/

namespace WasmFS

variable {host : Host} {s s' : State} {ret : Int}

theorem FileTable.addEntry_nonneg {o : OpenId} (h : addEntry s o = .ok (s', ret)) : 0 ≤ ret := by
  obtain ⟨rfl, -⟩ := addEntry_ok h
  exact Int.natCast_nonneg _

namespace Syscall

/-! ## Descriptors -/

theorem dup3_fails {oldfd newfd : Int} (hrun : dup3 s oldfd newfd = .ok (s', ret))
    (hneg : ret < 0) : s' = s := by
  simp only [dup3] at hrun
  split at hrun
  · cases hrun
    rfl
  split at hrun
  · cases hrun
    rfl
  rename_i hpos
  split at hrun
  · cases hrun
    rfl
  split at hrun
  · cases hrun
  · cases hrun
    exact absurd hneg hpos

theorem close_fails {fd : Nat} (hrun : close s fd = .ok (s', ret)) (hne : ret ≠ 0) : s' = s := by
  simp only [close] at hrun
  split at hrun
  · cases hrun
    rfl
  split at hrun
  · cases hrun
  · cases hrun
    exact absurd rfl hne
  · cases hrun
    exact absurd rfl hne

theorem seek_fails {fd : Nat} {offset : Int} {whence : Nat}
    (hne : (seek s fd offset whence).2.1 ≠ 0) : (seek s fd offset whence).1 = s := by
  simp only [seek] at hne ⊢
  split
  · rfl
  rename_i o ho
  simp only [ho] at hne
  split
  · rfl
  rename_i hseekable
  rw [if_neg hseekable] at hne
  split
  · rfl
  rename_i hwhence
  rw [if_neg hwhence] at hne
  split
  · rfl
  rename_i hposition
  rw [if_neg hposition] at hne
  exact absurd rfl hne

/-! ## Data and sizes -/

theorem setSize_fails {f : FileId} {size : Int} (hrun : DataFile.setSize s f size = .ok (s', ret))
    (hneg : ret < 0) : s' = s := by
  simp only [DataFile.setSize] at hrun
  split at hrun
  · split at hrun
    · cases hrun
    · cases hrun
      cases hneg
  · cases hrun
    rfl

theorem fallocate_fails {fd : Nat} {offset len : Int}
    (hrun : fallocate s fd offset len = .ok (s', ret)) (hneg : ret < 0) : s' = s := by
  simp only [fallocate] at hrun
  split at hrun
  · cases hrun
    rfl
  split at hrun
  · cases hrun
    rfl
  split at hrun
  · cases hrun
    rfl
  split at hrun
  · cases hrun
    rfl
  split at hrun
  · exact setSize_fails hrun hneg
  · cases hrun
    rfl

theorem doTruncate_fails {f : FileId} {size : Int} (hrun : doTruncate s f size = .ok (s', ret))
    (hneg : ret < 0) : s' = s := by
  simp only [doTruncate] at hrun
  split at hrun
  · cases hrun
    rfl
  split at hrun
  · cases hrun
    rfl
  split at hrun
  · cases hrun
    rfl
  · exact setSize_fails hrun hneg

theorem ftruncate64_fails {fd : Nat} {size : Int}
    (hrun : ftruncate64 s fd size = .ok (s', ret)) (hneg : ret < 0) : s' = s := by
  simp only [ftruncate64] at hrun
  split at hrun
  · cases hrun
    rfl
  split at hrun
  · cases hrun
  rename_i ret' ht
  cases hrun
  -- one error number is exchanged for another
  refine doTruncate_fails ht ?_
  by_cases hacces : ret' = Errno.acces.neg
  · rw [hacces]
    exact Errno.neg_lt_zero _
  · rwa [if_neg hacces] at hneg

/-! ## Listing -/

/-- A listing takes `sizeofDirent` bytes for each record, and fits. -/
theorem readEntries_bytes (dirents : List Dirent) (count fuel : Nat) (index bytesRead : Int) :
    ∃ n : Nat, (readEntries dirents count fuel index bytesRead).2.2 = bytesRead + 280 * n ∧
      (n = 0 ∨ (readEntries dirents count fuel index bytesRead).2.2 ≤ count) := by
  induction fuel generalizing index bytesRead with
  | zero => exact ⟨0, (Int.add_zero _).symm, Or.inl rfl⟩
  | succ fuel ih =>
      simp only [readEntries]
      split
      · exact ⟨0, (Int.add_zero _).symm, Or.inl rfl⟩
      split
      · rename_i hfits
        obtain ⟨n, hbytes, hle⟩ := ih (s32 (index + 1)) (bytesRead + sizeofDirent)
        generalize readEntries dirents count fuel (s32 (index + 1)) (bytesRead + sizeofDirent) =
          rest at hbytes hle ⊢
        obtain ⟨records, last, bytes⟩ := rest
        simp only [sizeofDirent] at hfits hbytes hle ⊢
        exact ⟨n + 1, by omega, by omega⟩
      · exact ⟨0, (Int.add_zero _).symm, Or.inl rfl⟩

/-- The number of bytes of a listing is never the negative of an error number. -/
theorem s32_bytes_ne_neg {count : UInt32} {dirents : List Dirent} {fuel : Nat} {index : Int}
    (e : Errno) : s32 (readEntries dirents count.toNat fuel index 0).2.2 ≠ e.neg := by
  obtain ⟨n, hbytes, hle⟩ := readEntries_bytes dirents count.toNat fuel index 0
  have hcount := count.toNat_lt
  have hpos := e.code_pos
  have hlt := e.code_lt
  have hfits : 280 * n < 4294967296 := by omega
  rw [hbytes, Int.zero_add]
  -- the number wraps at most once, and then no error number is left modulo 280
  rcases Nat.lt_or_ge (280 * n) 2147483648 with hsmall | hlarge
  · rw [s32_of_mem (by omega) (by omega), Errno.neg]
    omega
  · have hwrap : s32 (280 * n) = 280 * n - 4294967296 := by
      simp only [s32]
      omega
    rw [hwrap, Errno.neg]
    omega

theorem getdents64_fails {fd : Nat} {count : UInt32} {e : Errno}
    (hret : (getdents64 s fd count.toNat).2.1 = e.neg) : (getdents64 s fd count.toNat).1 = s := by
  simp only [getdents64] at hret ⊢
  split
  · rfl
  rename_i hcount
  rw [if_neg hcount] at hret
  split
  · rfl
  rename_i o ho
  simp only [ho] at hret
  split
  · rfl
  rename_i hdir
  rw [if_neg hdir] at hret
  split
  · rfl
  rename_i hparent
  simp only [hparent] at hret
  exact absurd hret (s32_bytes_ne_neg e)

end Syscall

/-! ## Every system call -/

namespace SystemCall

theorem set_times_fails {fd : Nat} {atim mtim : UInt64}
    (hneg : (runSetTimes host s fd atim mtim).2 < 0) :
    (runSetTimes host s fd atim mtim).1 = s := by
  simp only [runSetTimes] at hneg ⊢
  cases ho : FileTable.getEntry s fd with
  | none => rfl
  | some o =>
      rw [ho] at hneg
      cases hneg

theorem stat_state (h : s.tree.WF) (dirfd : Nat) (path : Name) :
    (runStat s dirfd path).1 = s := by
  simp only [runStat]
  rw [Path.parseFile_state h]
  cases (Path.parseFile s path dirfd .followLinks).2 <;> rfl

theorem openat2_fails (h : s.tree.WF) {dirfd : Nat} {path : Name} {oflags mode : Nat}
    (hrun : Syscall.openat2 host s dirfd path oflags mode = .ok (s', ret)) (hneg : ret < 0) :
    Unchanged s s' := by
  rcases Syscall.openat2_cases h host dirfd path oflags mode with
    ⟨e, s₁, he, hun⟩ | ⟨_, _, _, _, -, -, hadd⟩ | ⟨_, _, -, -, hadd⟩
  · rw [he] at hrun
    cases hrun
    exact hun.unchanged
  · rw [hadd] at hrun
    exact absurd hneg (Int.not_lt.mpr (FileTable.addEntry_nonneg hrun))
  · rw [hadd] at hrun
    exact absurd hneg (Int.not_lt.mpr (FileTable.addEntry_nonneg hrun))

theorem renameat_fails (h : s.tree.WF) {olddirfd newdirfd : Nat} {oldpath newpath : Name}
    (hrun : Syscall.renameat host s olddirfd oldpath newdirfd newpath = .ok (s', ret))
    (hneg : ret < 0) : s' = s := by
  rcases Syscall.renameat_ok h hrun with ⟨hs, -⟩ | ⟨_, _, _, _, _, -, hret, -⟩
  · exact hs
  · rw [hret] at hneg
    cases hneg

theorem symlinkat_fails (h : s.tree.WF) {target linkpath : Name} {newdirfd : Nat}
    (hrun : Syscall.symlinkat host s target newdirfd linkpath = .ok (s', ret)) (hneg : ret < 0) :
    s' = s := by
  rcases Syscall.symlinkat_cases h host target newdirfd linkpath with
    ⟨e, he⟩ | hfault | ⟨parent, leaf, -, hlen, hins⟩
  · rw [he] at hrun
    cases hrun
    rfl
  · rw [hfault] at hrun
    cases hrun
  · rw [hins] at hrun
    cases hrun
    cases hneg

theorem mkdirat_fails (h : s.tree.WF) {dirfd : Nat} {path : Name} {mode : Nat}
    (hneg : (Syscall.mkdirat host s dirfd path mode).2 < 0) :
    (Syscall.mkdirat host s dirfd path mode).1 = s := by
  rcases Syscall.mkdirat_cases h host dirfd path mode with ⟨e, he⟩ | ⟨parent, leaf, -, -, hins⟩
  · rw [he]
  · rw [hins] at hneg
    cases hneg

theorem unlinkat_fails (h : s.tree.WF) {dirfd : Nat} {path : Name} {removeDir : Bool}
    (hneg : (Syscall.unlinkat host s dirfd path removeDir).2 < 0) :
    (Syscall.unlinkat host s dirfd path removeDir).1 = s := by
  rcases Syscall.unlinkat_cases h host dirfd path removeDir with
    ⟨e, he⟩ | ⟨parent, leaf, file, -, hunlink⟩
  · rw [he]
  · rw [hunlink] at hneg
    cases hneg

theorem unchanged_of_reports (h : s.tree.WF) {k : SystemCall} {e : Errno}
    (hrun : k.run host s = .ok (s', ret)) (he : k.Reports ret e) : Unchanged s s' := by
  have hsame : s' = s → Unchanged s s' := by
    intro heq
    rw [heq]
  have hneg : k.positive = false → ret < 0 := by
    intro hk
    rw [he, hk]
    exact e.neg_lt_zero
  have hne : k.positive = true → ret ≠ 0 := by
    intro hk
    rw [he, hk]
    exact Int.natCast_ne_zero.mpr (Nat.ne_of_gt e.code_pos)
  cases k with
  | openat2 dirfd path oflags mode => exact openat2_fails h hrun (hneg rfl)
  | fallocate fd offset len => exact hsame (Syscall.fallocate_fails hrun (hneg rfl))
  | close fd => exact hsame (Syscall.close_fails hrun (hne rfl))
  | ftruncate64 fd size => exact hsame (Syscall.ftruncate64_fails hrun (hneg rfl))
  | dup3 oldfd newfd => exact hsame (Syscall.dup3_fails hrun (hneg rfl))
  | renameat olddirfd oldpath newdirfd newpath => exact hsame (renameat_fails h hrun (hneg rfl))
  | symlinkat target newdirfd linkpath => exact hsame (symlinkat_fails h hrun (hneg rfl))
  | seek fd offset whence =>
      obtain ⟨hs, hr⟩ := Prod.mk.inj (Except.ok.inj hrun)
      exact hsame (hs.symm.trans (Syscall.seek_fails (hr ▸ hne rfl)))
  | set_times fd atim mtim =>
      obtain ⟨hs, hr⟩ := Prod.ext_iff.mp (Except.ok.inj hrun)
      exact hsame (hs.symm.trans (set_times_fails (hr ▸ hneg rfl)))
  | getdents64 fd count =>
      obtain ⟨hs, hr⟩ := Prod.mk.inj (Except.ok.inj hrun)
      exact hsame (hs.symm.trans (Syscall.getdents64_fails (hr.trans he)))
  | mkdirat dirfd path mode =>
      obtain ⟨hs, hr⟩ := Prod.ext_iff.mp (Except.ok.inj hrun)
      exact hsame (hs.symm.trans (mkdirat_fails h (hr ▸ hneg rfl)))
  | unlinkat dirfd path removeDir =>
      obtain ⟨hs, hr⟩ := Prod.ext_iff.mp (Except.ok.inj hrun)
      exact hsame (hs.symm.trans (unlinkat_fails h (hr ▸ hneg rfl)))
  | stat dirfd path =>
      obtain ⟨hs, -⟩ := Prod.ext_iff.mp (Except.ok.inj hrun)
      exact hsame (hs.symm.trans (stat_state h dirfd path))
  | readlinkat dirfd path bufsize =>
      obtain ⟨hs, -⟩ := Prod.mk.inj (Except.ok.inj hrun)
      exact hsame (hs.symm.trans (Export.readlinkat_state h dirfd path bufsize))

end SystemCall

/-- A system call that reports an error in a state that a run reaches changes
nothing. -/
theorem failed_unchanged {host : Host} {s s' : State} {k : SystemCall} {ret : Int} {e : Errno}
    (h : Reachable host s) (hrun : k.run host s = .ok (s', ret)) (he : k.Reports ret e) :
    Unchanged s s' :=
  SystemCall.unchanged_of_reports h.wf hrun he

/-- Opening a directory for truncation fails after a description was made. -/
theorem failed_unchanged_truncate : ∃ s replies s',
    afterRun [.path_open atFdCwd [slash] 0] = .ok (s, replies) ∧
    (SystemCall.openat2 3 tmpName O_TRUNC 0).run .still s = .ok (s', Errno.isdir.neg) ∧
    Unchanged s s' := by
  obtain ⟨s, replies, hok, s', ret, hopen, rfl⟩ :
      Returns (afterRun [.path_open atFdCwd [slash] 0]) fun s _ =>
        Returns ((SystemCall.openat2 3 tmpName O_TRUNC 0).run .still s) fun _ ret =>
          ret = Errno.isdir.neg := by
    decide +kernel
  exact ⟨s, replies, s', hok, hopen, failed_unchanged (e := .isdir) (.of_afterRun hok) hopen rfl⟩

end WasmFS
