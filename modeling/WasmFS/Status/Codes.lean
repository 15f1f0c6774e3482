import WasmFS.Status.Checks

/-!
# Status codes

Two conventions meet in the exports.  A system call returns `-E…`, or `E…` if its
name starts with `__wasi`, and an export has to return `E…`.  Most exports pass a
negative number on, which wraps to 65536 less the error number, and two store it
and return success.  So an export returns a faithful status exactly when no check
of its system call fails (`faithfulStatus_iff`).  Three exports are always right,
and `fd_renumber` also passes on the number that means success.
-/

namespace WasmFS

/-- The status is 0 exactly if the system call reports no error, and the number
of the error otherwise. -/
structure FaithfulStatus (k : SystemCall) (ret : Int) (r : Reply) : Prop where
  success : r.errno = 0 ↔ ∀ e, ¬ k.Reports ret e
  failure : ∀ e, k.Reports ret e → r.errno = e.code

/-- The condition on the state and the arguments under which the status of an
export is faithful. -/
def Call.StatusFits (host : Host) (s : State) : Call → Prop
  | fd_allocate fd offset len => Syscall.CanAllocate s fd.toNat offset.toInt len.toInt
  | fd_filestat_set_size fd size => Syscall.CanTruncate s fd.toNat size.toInt
  | fd_filestat_set_times fd _ _ => FileTable.getEntry s fd.toNat ≠ none
  | fd_readdir fd bufLen => Syscall.CanList s fd.toNat bufLen
  | fd_renumber fd dest =>
      Syscall.CanDup s (s32 fd.toNat) (s32 dest.toNat) ∧ dest.toNat % 65536 = 0
  | path_create_directory _ path => Syscall.CanMkdir s host.dirfd.toNat (cstr path)
  | path_filestat_get _ path => Syscall.CanStat s Path.AT_FDCWD (cstr path)
  | path_link _ oldPath newFd _ => Syscall.CanSymlink s newFd.toNat (cstr oldPath)
  | path_open dirfd path oflags => Syscall.CanOpen s dirfd.toNat (cstr path) oflags.toNat
  | path_remove_directory fd path => Syscall.CanUnlink s fd.toNat (cstr path) true
  | path_rename oldFd oldPath newFd newPath =>
      Syscall.CanRename s oldFd.toNat (cstr oldPath) newFd.toNat (cstr newPath)
  | path_symlink oldPath fd _ => Syscall.CanSymlink s fd.toNat (cstr oldPath)
  | path_unlink_file dirfd path => Syscall.CanUnlink s dirfd.toNat (cstr path) false
  | _ => True

/-! ## Conversions of a status -/

/-- The two conversions of a descriptor leave its low 16 bits. -/
theorem u16_s32 (fd : UInt32) : u16 (s32 fd.toNat) = fd.toNat % 65536 := by
  have hlt := fd.toNat_lt
  simp only [u16, s32]
  omega

section

variable {k : SystemCall} {ret : Int} {r : Reply} {can : Prop}

theorem reports_neg_iff (hk : k.positive = false) (e : Errno) : k.Reports ret e ↔ ret = e.neg := by
  rw [SystemCall.Reports, hk]
  rfl

theorem reports_code_iff (hk : k.positive = true) (e : Errno) :
    k.Reports ret e ↔ ret = e.code := by
  rw [SystemCall.Reports, hk]
  rfl

/-- A negative number that is passed on is never the right status. -/
theorem not_faithful_of_neg (hk : k.positive = false) {e : Errno} (hret : ret = e.neg)
    (hr : r.errno ≠ e.code) : ¬ FaithfulStatus k ret r :=
  fun h => hr (h.failure e ((reports_neg_iff hk e).mpr hret))

theorem faithful_of_success (hk : k.positive = false) (hret : ∀ e : Errno, ret ≠ e.neg)
    (hr : r.errno = 0) : FaithfulStatus k ret r where
  success := iff_of_true hr fun e he => hret e ((reports_neg_iff hk e).mp he)
  failure e he := absurd ((reports_neg_iff hk e).mp he) (hret e)

/-- An export that passes on what its system call returns. -/
theorem faithful_iff_of_passed (hk : k.positive = false) (hr : r.errno = u16 ret)
    (h : Outcome can (ret = 0) ret) : FaithfulStatus k ret r ↔ can := by
  rcases h with ⟨hcan, rfl⟩ | ⟨hcan, e, hret⟩
  · exact iff_of_true (faithful_of_success hk (fun e => e.neg_ne_zero.symm) hr) hcan
  · refine iff_of_false (not_faithful_of_neg hk hret ?_) hcan
    rw [hr, hret, e.u16_neg]
    have hlt := e.code_lt
    omega

/-- An export that always returns success. -/
theorem faithful_iff_of_zero (hk : k.positive = false) (hr : r.errno = 0)
    (h : Outcome can (∀ e : Errno, ret ≠ e.neg) ret) : FaithfulStatus k ret r ↔ can := by
  rcases h with ⟨hcan, hret⟩ | ⟨hcan, e, hret⟩
  · exact iff_of_true (faithful_of_success hk hret hr) hcan
  · refine iff_of_false (not_faithful_of_neg hk hret ?_) hcan
    rw [hr]
    exact (Nat.ne_of_gt e.code_pos).symm

/-- An export of a system call with a positive number. -/
theorem faithful_of_positive (hk : k.positive = true) (hr : r.errno = u16 ret)
    (h : ret = 0 ∨ ∃ e : Errno, ret = e.code) : FaithfulStatus k ret r where
  success := by
    rcases h with rfl | ⟨e, rfl⟩
    · refine iff_of_true hr fun e he => ?_
      exact Nat.ne_of_gt e.code_pos (Int.natCast_eq_zero.mp ((reports_code_iff hk e).mp he).symm)
    · rw [hr, e.u16_code]
      exact iff_of_false (Nat.ne_of_gt e.code_pos) fun h => h e ((reports_code_iff hk e).mpr rfl)
  failure e he := by
    rw [hr, (reports_code_iff hk e).mp he, e.u16_code]

/-- An export that negates a negative number. -/
theorem faithful_of_negated (hk : k.positive = false)
    (hr : r.errno = if ret < 0 then u16 (-ret) else 0) (h : Outcome can (0 ≤ ret) ret) :
    FaithfulStatus k ret r := by
  rcases h with ⟨-, hret⟩ | ⟨-, e, rfl⟩
  · rw [if_neg (Int.not_lt.mpr hret)] at hr
    refine faithful_of_success hk (fun e he => ?_) hr
    have hneg := e.neg_lt_zero
    omega
  · rw [if_pos e.neg_lt_zero, Errno.neg, Int.neg_neg, e.u16_code] at hr
    refine ⟨?_, fun e' he' => ?_⟩
    · rw [hr]
      exact iff_of_false (Nat.ne_of_gt e.code_pos) fun h => h e ((reports_neg_iff hk e).mpr rfl)
    · have heq := (reports_neg_iff hk e').mp he'
      simp only [Errno.neg] at heq
      omega

end

/-! ## The exports -/

variable {host : Host} {s s' : State}

theorem Syscall.close_ret {fd : Nat} {ret : Int} (hrun : close s fd = .ok (s', ret)) :
    ret = 0 ∨ ∃ e : Errno, ret = e.code := by
  simp only [close] at hrun
  split at hrun
  · cases hrun
    exact Or.inr ⟨.badf, rfl⟩
  split at hrun
  · cases hrun
  · cases hrun
    exact Or.inl rfl
  · cases hrun
    exact Or.inl rfl

theorem Syscall.seek_ret (s : State) (fd : Nat) (offset : Int) (whence : Nat) :
    (seek s fd offset whence).2.1 = 0 ∨
      ∃ e : Errno, (seek s fd offset whence).2.1 = e.code := by
  simp only [seek]
  split
  · exact Or.inr ⟨.badf, rfl⟩
  split
  · exact Or.inr ⟨.spipe, rfl⟩
  split
  · exact Or.inr ⟨.inval, rfl⟩
  split
  · exact Or.inr ⟨.inval, rfl⟩
  · exact Or.inl rfl

/-- A number that is not negative reports no error. -/
theorem Outcome.nonneg {can : Prop} {ret : Int} (h : Outcome can (0 ≤ ret) ret) :
    Outcome can (∀ e : Errno, ret ≠ e.neg) ret := by
  refine h.imp (fun h => ⟨h.1, fun e he => ?_⟩) id
  have hneg := e.neg_lt_zero
  omega

/-- `fd_renumber` passes on the new descriptor. -/
theorem faithful_iff_of_dup {k : SystemCall} {ret : Int} {r : Reply} {can : Prop} {dest : UInt32}
    (hk : k.positive = false) (hr : r.errno = u16 ret) (hpos : can → 0 ≤ s32 dest.toNat)
    (h : Outcome can (ret = s32 dest.toNat) ret) :
    FaithfulStatus k ret r ↔ can ∧ dest.toNat % 65536 = 0 := by
  rcases h with ⟨hcan, hret⟩ | ⟨hcan, e, hret⟩
  · have hnonneg := hpos hcan
    rw [← hret] at hnonneg
    have hnone : ∀ e : Errno, ret ≠ e.neg := by
      intro e he
      have hneg := e.neg_lt_zero
      omega
    rw [hret, u16_s32] at hr
    constructor
    · intro hf
      refine ⟨hcan, hr.symm.trans (hf.success.mpr fun e he => ?_)⟩
      exact hnone e ((reports_neg_iff hk e).mp he)
    · intro hzero
      exact faithful_of_success hk hnone (hr.trans hzero.2)
  · refine iff_of_false (not_faithful_of_neg hk hret ?_) fun h => hcan h.1
    rw [hr, hret, e.u16_neg]
    have hlt := e.code_lt
    omega

/-- The status of an export is faithful to its system call exactly when the
arguments fit the state. -/
theorem faithfulStatus_iff {c : Call} {k : SystemCall} {r : Reply}
    (hk : c.systemCall host = some k) (hok : exec host s c = .ok (s', r)) :
    ∃ ret, k.run host s = .ok (s', ret) ∧ (FaithfulStatus k ret r ↔ c.StatusFits host s) := by
  obtain ⟨ret, hrun, hr⟩ := run_of_exec hk hok
  refine ⟨ret, hrun, ?_⟩
  cases c with
  | fd_allocate =>
      cases hk
      exact faithful_iff_of_passed rfl hr (Syscall.fallocate_outcome hrun)
  | fd_filestat_set_size =>
      cases hk
      exact faithful_iff_of_passed rfl hr (Syscall.ftruncate64_outcome hrun)
  | path_link | path_symlink =>
      cases hk
      exact faithful_iff_of_passed rfl hr (Syscall.symlinkat_outcome hrun)
  | path_rename =>
      cases hk
      exact faithful_iff_of_passed rfl hr (Syscall.renameat_outcome hrun)
  | fd_filestat_set_times fd atim mtim =>
      cases hk
      have hout := Syscall.set_times_outcome host s fd.toNat atim mtim
      rw [(Prod.ext_iff.mp (Except.ok.inj hrun)).2] at hout
      exact faithful_iff_of_passed rfl hr hout
  | path_create_directory fd path =>
      cases hk
      have hout := Syscall.mkdirat_outcome host s host.dirfd.toNat (cstr path) (S_IRUGO ||| S_IXUGO)
      rw [(Prod.ext_iff.mp (Except.ok.inj hrun)).2] at hout
      exact faithful_iff_of_passed rfl hr hout
  | path_filestat_get fd path =>
      cases hk
      have hout := Syscall.stat_outcome s Path.AT_FDCWD (cstr path)
      rw [(Prod.ext_iff.mp (Except.ok.inj hrun)).2] at hout
      exact faithful_iff_of_passed rfl hr hout
  | path_remove_directory fd path =>
      cases hk
      have hout := Syscall.unlinkat_outcome host s fd.toNat (cstr path) true
      rw [(Prod.ext_iff.mp (Except.ok.inj hrun)).2] at hout
      exact faithful_iff_of_passed rfl hr hout
  | path_unlink_file dirfd path =>
      cases hk
      have hout := Syscall.unlinkat_outcome host s dirfd.toNat (cstr path) false
      rw [(Prod.ext_iff.mp (Except.ok.inj hrun)).2] at hout
      exact faithful_iff_of_passed rfl hr hout
  | fd_readdir fd bufLen =>
      cases hk
      have hout := Syscall.getdents64_outcome s fd.toNat bufLen
      rw [(Prod.mk.inj (Except.ok.inj hrun)).2] at hout
      exact faithful_iff_of_zero rfl hr hout
  | path_open =>
      cases hk
      exact faithful_iff_of_zero rfl hr (Syscall.openat2_outcome hrun).nonneg
  | fd_renumber =>
      cases hk
      exact faithful_iff_of_dup rfl hr (fun h => h.2.1) (Syscall.dup3_outcome hrun)
  | fd_close =>
      cases hk
      exact iff_of_true (faithful_of_positive rfl hr (Syscall.close_ret hrun)) trivial
  | fd_seek fd offset whence =>
      cases hk
      have hret := Syscall.seek_ret s fd.toNat offset.toInt whence.toNat
      rw [(Prod.mk.inj (Except.ok.inj hrun)).2] at hret
      exact iff_of_true (faithful_of_positive rfl hr hret) trivial
  | path_readlink dirFd path bufLen =>
      cases hk
      have hout := Syscall.readlinkat_outcome s dirFd.toNat (cstr path) bufLen.toNat
      rw [(Prod.mk.inj (Except.ok.inj hrun)).2] at hout
      exact iff_of_true (faithful_of_negated rfl hr hout) trivial
  | _ => cases hk

theorem faithfulStatus_unlinkMissing : ∃ s' r,
    exec .still (init .still) (.path_unlink_file atFdCwd [120]) = .ok (s', r) ∧
    ∃ ret, (SystemCall.unlinkat atFdCwd.toNat [120] false).run .still (init .still) =
        .ok (s', ret) ∧
      (FaithfulStatus (.unlinkat atFdCwd.toNat [120] false) ret r ↔
        (Call.path_unlink_file atFdCwd [120]).StatusFits .still (init .still)) := by
  have hk : (Call.path_unlink_file atFdCwd [120]).systemCall .still =
      some (.unlinkat atFdCwd.toNat [120] false) := rfl
  have hok : exec .still (init .still) (.path_unlink_file atFdCwd [120]) = .ok (_, _) := rfl
  exact ⟨_, _, hok, faithfulStatus_iff hk hok⟩

/-- The removal of a missing file is reported as the error 65492. -/
theorem not_faithfulStatus_unlinkMissing : ¬ ∀ (host : Host) (s s' : State) (c : Call)
    (k : SystemCall) (ret : Int) (r : Reply), c.systemCall host = some k →
    k.run host s = .ok (s', ret) → exec host s c = .ok (s', r) → FaithfulStatus k ret r := by
  intro hall
  obtain ⟨s', r, hok, herr⟩ :
      Returns (exec .still (init .still) (.path_unlink_file atFdCwd [120])) fun _ r =>
        r.errno = 65492 := by
    decide +kernel
  obtain ⟨ret, hrun, -⟩ := run_of_exec (k := .unlinkat atFdCwd.toNat [120] false) rfl hok
  have hf := hall .still _ s' _ _ ret r rfl hrun hok
  have hne : ¬ ∀ e, ¬ SystemCall.Reports (.unlinkat atFdCwd.toNat [120] false) ret e := by
    intro hnone
    rw [hf.success.mpr hnone] at herr
    cases herr
  obtain ⟨e, he⟩ := not_forall_not.mp hne
  have hcode := hf.failure e he
  have hlt := e.code_lt
  omega

end WasmFS
