import WasmFS.Data.Extents
import WasmFS.Data.Locality
import WasmFS.Lib.Transfers

/-!
# Transfers account for what was moved

Every backend of this build answers a request with an error or with a count up to the
length of the request, as long as the host functions do.  Then each of the two loops
makes consecutive requests, reports the number of bytes that they moved, and reports an
error only if they moved none (`transfers_account`).
-/

namespace WasmFS

open Transfers

variable {host : Host} {s s' : State} {f : FileId}

/-! ## Backends -/

/-- The host function behind the file returns an error or a count up to the length that it
is given.  `read_stdin` leaves as many bytes as it counts, and `getentropy` fills its
buffer.  Behind the other files there is none. -/
def Host.Conforms (host : Host) (x : File) : Prop :=
  match x.body with
  | .device .stdin => ∀ calls len offset, s32 (host.readStdin calls len offset).1 < 0 ∨
      (s32 (host.readStdin calls len offset).1 ≤ len ∧
        (host.readStdin calls len offset).2.length =
          (s32 (host.readStdin calls len offset).1).toNat)
  | .device .stdout => ∀ calls buf offset, s32 (host.writeStdout calls buf offset) ≤ buf.length
  | .device .stderr => ∀ calls buf offset, s32 (host.writeStderr calls buf offset) ≤ buf.length
  | .device .random => ∀ calls len, (host.entropy calls len).length = len
  | _ => True

theorem s32_le (n : Nat) : s32 (n : Int) ≤ n := by
  unfold s32
  omega

/-- A host that takes and gives all it is asked for conforms. -/
theorem Host.still_conforms (x : File) : Host.still.Conforms x := by
  simp only [Conforms]
  split
  · intro calls len offset
    simp only [Host.still]
    exact Or.inr ⟨Int.natCast_nonneg len, rfl⟩
  · exact fun _ buf _ => s32_le buf.length
  · exact fun _ buf _ => s32_le buf.length
  · exact fun _ len => List.length_replicate
  · trivial

theorem Host.conforms_memory (host : Host) {x : File} {b : Buffer} (h : x.body = .memory b) :
    host.Conforms x := by
  simp only [Conforms, h]

theorem State.isDataFile_setBuffer (s : State) (f f' : FileId) (b : Buffer) :
    ((s.modify f fun x => x.setBuffer b).files f').isDataFile = (s.files f').isDataFile := by
  by_cases hf : f' = f
  · subst hf
    rw [State.files_modify]
    simp only [File.isDataFile, File.kind, File.setBuffer]
    cases (s.files f').body <;> rfl
  · rw [State.files_modify_of_ne s _ hf]

theorem State.isSeekable_setBuffer (s : State) (f f' : FileId) (b : Buffer) :
    ((s.modify f fun x => x.setBuffer b).files f').isSeekable = (s.files f').isSeekable := by
  by_cases hf : f' = f
  · subst hf
    rw [State.files_modify]
    simp only [File.isSeekable, File.setBuffer]
    cases (s.files f').body <;> rfl
  · rw [State.files_modify_of_ne s _ hf]

theorem State.body_updateMTime (host : Host) (s : State) (f f' : FileId) :
    ((s.updateMTime host f).files f').body = (s.files f').body := by
  simp only [updateMTime, ask]
  by_cases hf : f' = f
  · rw [hf, files_modify]
  · rw [files_modify_of_ne s _ hf]

/-- A data file takes a segment with an error or a count. -/
theorem DataFile.write_answers (hhost : host.Conforms (s.files f)) (hdata : (s.files f).isDataFile)
    (buf : List UInt8) {p : Nat} (hp : p + buf.length < 9223372036854775808)
    (hlen : buf.length < 2147483648) :
    ∃ s₁ result, DataFile.write host s f buf p = .ok (s₁, result) ∧ result ≤ buf.length ∧
      (s₁.files f).isDataFile ∧ host.Conforms (s₁.files f) := by
  have hs32 : s32 (buf.length : Int) = buf.length := s32_of_mem (by omega) (by omega)
  have hhost' := hhost
  cases hbody : (s.files f).body with
  | memory buffer =>
      by_cases hfits : p + buf.length ≤ Buffer.maxSize
      · obtain ⟨b, hw, -⟩ := MemoryDataFile.write_place buffer buf hfits
        refine ⟨_, _, DataFile.write_memory hbody hw, Int.le_refl _, ?_,
          host.conforms_memory (State.body_setBuffer hbody)⟩
        rw [State.isDataFile_setBuffer]
        exact hdata
      · have hw := MemoryDataFile.write_full buffer (Nat.lt_of_not_le hfits) hp
        refine ⟨_, _, DataFile.write_memory hbody hw, ?_, ?_,
          host.conforms_memory (State.body_setBuffer hbody)⟩
        · have hneg := Errno.io.neg_lt_zero
          omega
        · rw [State.isDataFile_setBuffer]
          exact hdata
  | device dev =>
      have hneg := Errno.inval.neg_lt_zero
      cases dev with
      | null =>
          simp only [DataFile.write, hbody, hs32]
          exact ⟨s, _, rfl, Int.le_refl _, hdata, hhost⟩
      | stdout =>
          simp only [DataFile.write, hbody]
          simp only [Host.Conforms, hbody] at hhost'
          exact ⟨s.ask, _, rfl, hhost' _ _ _, hdata, hhost⟩
      | stderr =>
          simp only [DataFile.write, hbody]
          simp only [Host.Conforms, hbody] at hhost'
          exact ⟨s.ask, _, rfl, hhost' _ _ _, hdata, hhost⟩
      | stdin =>
          simp only [DataFile.write, hbody]
          exact ⟨s, _, rfl, by omega, hdata, hhost⟩
      | random =>
          simp only [DataFile.write, hbody]
          exact ⟨s, _, rfl, by omega, hdata, hhost⟩
  | directory entries dcache => simp [File.isDataFile, File.kind, hbody] at hdata
  | symlink target => simp [File.isDataFile, File.kind, hbody] at hdata

/-- A data file fills a segment with an error or a count, and with as many bytes. -/
theorem DataFile.read_answers (hhost : host.Conforms (s.files f)) (hdata : (s.files f).isDataFile)
    (len : Nat) {p : Nat} (hp : p < 9223372036854775808) (hlen : len < 2147483648) :
    ∃ s₁ bytes result, DataFile.read host s f len p = .ok (s₁, bytes, result) ∧
      (result < 0 ∨ (result ≤ len ∧ bytes.length = result.toNat)) ∧
      (s₁.files f).isDataFile ∧ host.Conforms (s₁.files f) := by
  have hneg := Errno.inval.neg_lt_zero
  have hhost' := hhost
  have hs32 : s32 (len : Int) = len := s32_of_mem (by omega) (by omega)
  cases hbody : (s.files f).body with
  | memory buffer =>
      have hr := MemoryDataFile.read_slice buffer hp (show len < 4294967296 by omega)
      have hcount : (Lists.slice buffer.toList p len).length ≤ len := by
        rw [Lists.length_slice]
        exact Nat.min_le_left _ _
      exact ⟨s, _, _, DataFile.read_memory host hbody hr, Or.inr ⟨by omega, rfl⟩, hdata, hhost⟩
  | device dev =>
      cases dev with
      | null =>
          simp only [DataFile.read, hbody]
          exact ⟨s, _, _, rfl, Or.inr ⟨Int.natCast_nonneg _, rfl⟩, hdata, hhost⟩
      | stdin =>
          simp only [DataFile.read, hbody]
          simp only [Host.Conforms, hbody] at hhost'
          exact ⟨s.ask, _, _, rfl, hhost' _ _ _, hdata, hhost⟩
      | random =>
          simp only [DataFile.read, hbody, hs32]
          simp only [Host.Conforms, hbody] at hhost'
          exact ⟨s.ask, _, _, rfl, Or.inr ⟨Int.le_refl _, hhost' _ _⟩, hdata, hhost⟩
      | stdout =>
          simp only [DataFile.read, hbody]
          exact ⟨s, _, _, rfl, Or.inl hneg, hdata, hhost⟩
      | stderr =>
          simp only [DataFile.read, hbody]
          exact ⟨s, _, _, rfl, Or.inl hneg, hdata, hhost⟩
  | directory entries dcache => simp [File.isDataFile, File.kind, hbody] at hdata
  | symlink target => simp [File.isDataFile, File.kind, hbody] at hdata

/-! ## The loops -/

/-- The file answers a segment that it is to take at this offset. -/
def TakesSegment (host : Host) (f : FileId) (s : State) (iov : CIovec) (offset : Nat) (s₁ : State)
    (answer : Except Int (List UInt8)) : Prop :=
  ∃ result, DataFile.write host s f iov.bytes offset = .ok (s₁, result) ∧
    answer = if result < 0 then .error (-result) else .ok (iov.bytes.take result.toNat)

/-- The file answers a segment that it is to fill from this offset. -/
def FillsSegment (host : Host) (f : FileId) (s : State) (iov : Iovec) (offset : Nat) (s₁ : State)
    (answer : Except Int (List UInt8)) : Prop :=
  ∃ bytes result, DataFile.read host s f iov.len.toNat offset = .ok (s₁, bytes, result) ∧
    answer = if result < 0 then .error (-result) else .ok bytes

/-- The errors of the requests are positive codes. -/
def PositiveCodes (rs : List (Request UInt8)) : Prop := ∀ e, failure rs = some e → 0 < e

/-- The loop of a write makes consecutive requests. -/
theorem writeLoop_accounts (hhost : host.Conforms (s.files f)) (offset : Nat) {w : Nat}
    {iovs : List CIovec} (hdata : (s.files f).isDataFile) (hiovs : ∀ iov ∈ iovs, iov.isNull = false)
    (hp : offset + w + (CIovec.lengths iovs).sum < 9223372036854775808)
    (hlen : w + (CIovec.lengths iovs).sum < 2147483648) :
    ∃ rs s₁, writeLoop host f offset iovs w s = .ok (s₁, total w rs) ∧
      Served (TakesSegment host f) s iovs rs s₁ ∧
      Consecutive (offset + w) (CIovec.lengths iovs) rs ∧ moved rs <+: CIovec.concat iovs ∧
      PositiveCodes rs := by
  induction iovs generalizing w s with
  | nil => exact ⟨[], s, rfl, .nil s [], .nil _, List.prefix_rfl, nofun⟩
  | cons iov iovs ih =>
      have hn := CIovec.readable (hiovs iov List.mem_cons_self)
      rw [CIovec.lengths_cons]
      rw [CIovec.lengths_cons, List.sum_cons] at hp hlen
      have hover : addWillOverFlow offset w = false := addWillOverFlow_eq_false (by omega)
      obtain ⟨s₁, result, hw, hle, hdata₁, hhost₁⟩ :=
        DataFile.write_answers hhost hdata iov.bytes (p := offset + w) (by omega) (by omega)
      have hw' := hw
      rw [← signed_low (by omega)] at hw'
      by_cases hneg : result < 0
      · -- the segment fails
        refine ⟨[⟨offset + w, iov.bytes.length, .error (-result)⟩], s₁, ?_,
          .cons ⟨result, hw, (if_pos hneg).symm⟩ (.nil _ _), .error _ _ _ _, List.nil_prefix, ?_⟩
        · exact writeLoop_fails iovs hn hover hw' hneg
        · intro e he
          cases he
          omega
      · obtain ⟨n, rfl⟩ := Int.eq_ofNat_of_zero_le (Int.not_lt.mp hneg)
        by_cases hshort : n < iov.bytes.length
        · -- the segment is taken in part
          have hcount : (iov.bytes.take n).length = n := by
            rw [List.length_take]
            omega
          refine ⟨[⟨offset + w, iov.bytes.length, .ok (iov.bytes.take n)⟩], s₁, ?_,
            .cons ⟨n, hw, (if_neg hneg).symm⟩ (.nil _ _), .short _ (hcount.trans_lt hshort) _, ?_,
            nofun⟩
          · rw [writeLoop_short iovs hn hover hw' (by omega) hshort, total_short, hcount]
          · rw [CIovec.concat_cons, moved_cons, moved_nil, List.append_nil]
            exact (List.take_prefix ..).trans (List.prefix_append ..)
        · -- the segment is taken whole, and the loop goes on
          obtain rfl : n = iov.bytes.length := by omega
          obtain ⟨rs, s₂, hloop, hserved, hconsecutive, hmoved, hcodes⟩ :=
            ih (s := s₁) (w := w + iov.bytes.length) hhost₁ hdata₁
              (fun iov' h' => hiovs iov' (.tail _ h')) (by omega) (by omega)
          rw [← Nat.add_assoc] at hconsecutive
          have hfull : Request.Full ⟨offset + w, iov.bytes.length, .ok iov.bytes⟩ := ⟨rfl, rfl⟩
          refine ⟨⟨offset + w, iov.bytes.length, .ok iov.bytes⟩ :: rs, s₂, ?_,
            .cons ⟨_, hw, ?_⟩ hserved, .cons hfull hconsecutive, ?_, ?_⟩
          · rw [total_cons hfull, writeLoop_go hn hover hw' (by omega)]
            exact hloop
          · rw [if_neg hneg, Int.toNat_natCast, List.take_length]
          · exact (List.prefix_append_right_inj iov.bytes).mpr hmoved
          · unfold PositiveCodes
            rw [failure_cons hfull]
            exact hcodes

/-- The loop of a read makes consecutive requests, and delivers what they moved. -/
theorem readLoop_accounts (hhost : host.Conforms (s.files f)) (offset : Nat) {w : Nat}
    {iovs : List Iovec} (hdata : (s.files f).isDataFile) (hiovs : ∀ iov ∈ iovs, iov.isNull = false)
    (hp : offset + w + (Iovec.lengths iovs).sum < 9223372036854775808)
    (hlen : w + (Iovec.lengths iovs).sum < 2147483648) :
    ∃ rs s₁, readLoop host f offset iovs w s =
        .ok (s₁, (total w rs).map fun n => (n, moved rs)) ∧
      Served (FillsSegment host f) s iovs rs s₁ ∧
      Consecutive (offset + w) (Iovec.lengths iovs) rs ∧ PositiveCodes rs := by
  induction iovs generalizing w s with
  | nil => exact ⟨[], s, rfl, .nil s [], .nil _, nofun⟩
  | cons iov iovs ih =>
      have hn := hiovs iov List.mem_cons_self
      rw [Iovec.lengths_cons]
      rw [Iovec.lengths_cons, List.sum_cons] at hp hlen
      obtain ⟨s₁, bytes, result, hr, hanswer, hdata₁, hhost₁⟩ :=
        DataFile.read_answers hhost hdata iov.len.toNat (p := offset + w) (by omega)
          (by omega)
      have hr' := hr
      rw [← signed_low (by omega)] at hr'
      by_cases hneg : result < 0
      · -- the segment fails
        refine ⟨[⟨offset + w, iov.len.toNat, .error (-result)⟩], s₁, ?_,
          .cons ⟨bytes, result, hr, (if_pos hneg).symm⟩ (.nil _ _), .error _ _ _ _, ?_⟩
        · rw [readLoop_fails iovs hn hr' hneg, total_error]
          split <;> rfl
        · intro e he
          cases he
          omega
      · obtain ⟨n, rfl⟩ := Int.eq_ofNat_of_zero_le (Int.not_lt.mp hneg)
        obtain ⟨hle, hcount⟩ := hanswer.resolve_left hneg
        rw [Int.toNat_natCast] at hcount
        by_cases hshort : n < iov.len.toNat
        · -- the segment is filled in part
          refine ⟨[⟨offset + w, iov.len.toNat, .ok bytes⟩], s₁, ?_,
            .cons ⟨bytes, n, hr, (if_neg hneg).symm⟩ (.nil _ _),
            .short _ (hcount.trans_lt hshort) _, nofun⟩
          rw [readLoop_short hn hr' (by omega) hshort, total_short, hcount]
          simp only [Except.map, moved_cons, moved_nil, Request.moved, List.append_nil]
        · -- the segment is filled, and the loop goes on
          obtain rfl : n = iov.len.toNat := by omega
          obtain ⟨rs, s₂, hloop, hserved, hconsecutive, hcodes⟩ :=
            ih (s := s₁) (w := w + iov.len.toNat) hhost₁ hdata₁
              (fun iov' h' => hiovs iov' (.tail _ h')) (by omega) (by omega)
          rw [← Nat.add_assoc] at hconsecutive
          have hfull : Request.Full ⟨offset + w, iov.len.toNat, .ok bytes⟩ := ⟨rfl, hcount⟩
          refine ⟨⟨offset + w, iov.len.toNat, .ok bytes⟩ :: rs, s₂, ?_,
            .cons ⟨bytes, _, hr, (if_neg hneg).symm⟩ hserved, .cons hfull hconsecutive, ?_⟩
          · rw [total_cons hfull, readLoop_goes hn hr' (by omega) hloop]
            cases total (w + iov.len.toNat) rs with
            | error e => rfl
            | ok count => rfl
          · unfold PositiveCodes
            rw [failure_cons hfull]
            exact hcodes

/-! ## The calls -/

/-- The offset at which a call starts that does not append. -/
def startOf (s : State) (o : OpenId) : OffsetHandling → Int
  | .argument offset => offset.toNat
  | .openFileState => (s.descriptions o).position

/-- What a call reports and how it moves its description, by the requests of its loop. -/
structure Reports (s s' : State) (o : OpenId) (handling : OffsetHandling)
    (out : List UInt8 → Out) (r : Reply) (rs : List (Request UInt8)) : Prop where
  /-- An error counts only if nothing was moved.  Its code is positive. -/
  fails : ∀ e, failure rs = some e → 0 < e ∧ (r = ⟨u16 e, .nothing⟩ ↔ moved rs = [])
  /-- Else the call succeeds with what was moved. -/
  succeeds : (failure rs = none ∨ moved rs ≠ []) → r = ⟨0, out (moved rs)⟩
  /-- Only a call at the position of a seekable file moves it, by as much. -/
  position : (s'.descriptions o).position = (s.descriptions o).position +
    if handling = .openFileState ∧ (s.files (s.descriptions o).file).isSeekable then
      ((moved rs).length : Int)
    else 0

/-- The loop of a write made consecutive requests, which moved the first bytes of the
buffers, and the call reports them.  It made no other requests: the host is asked once
more only for the modification time, after a transfer. -/
def WriteAccounts (host : Host) (s : State) (o : OpenId) (handling : OffsetHandling)
    (iovs : List CIovec) (s' : State) (r : Reply) : Prop :=
  ∃ rs s₁, Consecutive (startOf s o handling).toNat (CIovec.lengths iovs) rs ∧
    Served (TakesSegment host (s.descriptions o).file) s iovs rs s₁ ∧
    moved rs <+: CIovec.concat iovs ∧
    (∀ f, (s'.files f).body = (s₁.files f).body) ∧
    s'.trace.calls = s₁.trace.calls + (if moved rs = [] then 0 else 1) ∧
    Reports s s' o handling (fun bytes => .written bytes.length) r rs

/-- The loop of a read made consecutive requests and no others, and the call delivers what
they moved. -/
def ReadAccounts (host : Host) (s : State) (o : OpenId) (handling : OffsetHandling)
    (iovs : List Iovec) (s' : State) (r : Reply) : Prop :=
  ∃ rs s₁, Consecutive (startOf s o handling).toNat (Iovec.lengths iovs) rs ∧
    Served (FillsSegment host (s.descriptions o).file) s iovs rs s₁ ∧
    s'.files = s₁.files ∧ s'.trace.calls = s₁.trace.calls ∧
    Reports s s' o handling (fun bytes => .read bytes.length bytes) r rs

/-- A data call accounts for what was moved. -/
def Call.Accounts (host : Host) (s : State) (o : OpenId) (s' : State) (r : Reply) : Call → Prop
  | .fd_pread _ iovs offset => ReadAccounts host s o (.argument offset) iovs s' r
  | .fd_pwrite _ iovs offset => WriteAccounts host s o (.argument offset) iovs s' r
  | .fd_read _ iovs => ReadAccounts host s o .openFileState iovs s' r
  | .fd_write _ iovs => WriteAccounts host s o .openFileState iovs s' r
  | _ => True

/-- The length of all buffers of a data call. -/
def Call.transferLength : Call → Nat
  | .fd_pread _ iovs _ => (Iovec.lengths iovs).sum
  | .fd_pwrite _ iovs _ => (CIovec.lengths iovs).sum
  | .fd_read _ iovs => (Iovec.lengths iovs).sum
  | .fd_write _ iovs => (CIovec.lengths iovs).sum
  | _ => 0

/-- The offset at which a data call starts. -/
def Call.transferStart (s : State) (o : OpenId) : Call → Int
  | .fd_pread _ _ offset => startOf s o (.argument offset)
  | .fd_pwrite _ _ offset => startOf s o (.argument offset)
  | .fd_read _ _ => startOf s o .openFileState
  | .fd_write _ _ => startOf s o .openFileState
  | _ => 0

namespace Reports

variable {o : OpenId} {handling : OffsetHandling} {out : List UInt8 → Out}
  {rs : List (Request UInt8)}

/-- The report of a transfer that failed. -/
theorem of_error {e : Int} (hcodes : PositiveCodes rs) (h : total 0 rs = .error e)
    (hd : s'.descriptions = s.descriptions) : Reports s s' o handling out ⟨u16 e, .nothing⟩ rs where
  fails e' he' := by
    obtain ⟨he, hnone⟩ := total_eq_error h
    cases he.symm.trans he'
    exact ⟨hcodes e he, iff_of_true rfl hnone⟩
  succeeds hcond := by
    obtain ⟨he, hnone⟩ := total_eq_error h
    rcases hcond with hfailure | hsome
    · cases he.symm.trans hfailure
    · exact absurd hnone hsome
  position := by
    rw [hd, (total_eq_error h).2, List.length_nil]
    split <;> exact (Int.add_zero _).symm

/-- The report of a transfer that succeeded, and moved the description by as much. -/
theorem of_ok {n : Nat} {s₁ : State} (hcodes : PositiveCodes rs)
    (hout : ∀ bytes, out bytes ≠ .nothing) (h : total 0 rs = .ok n)
    (hd : s₁.descriptions = s.descriptions)
    (hseek : (s₁.files (s.descriptions o).file).isSeekable =
      (s.files (s.descriptions o).file).isSeekable)
    (h0 : 0 ≤ startOf s o handling) (h63 : startOf s o handling + n < 9223372036854775808)
    (hs' : s'.descriptions =
      (advance s₁ o handling (startOf s o handling).toNat n).descriptions) :
    Reports s s' o handling out ⟨0, out (moved rs)⟩ rs where
  fails e he := by
    refine ⟨hcodes e he, iff_of_false ?_ ?_⟩
    · exact fun hr => hout _ (congrArg Reply.out hr)
    · rcases (total_eq_ok h).2 with hfailure | hsome
      · cases he.symm.trans hfailure
      · exact hsome
  succeeds _ := rfl
  position := by
    rw [hs', ← (total_eq_ok h).1]
    simp only [advance, hd, hseek]
    split
    · rename_i hmoves
      obtain rfl := hmoves.1
      simp only [startOf] at h0 h63 ⊢
      rw [State.modifyOpen_self, signed_low (by omega)]
      simp only
      omega
    · rw [hd, Int.add_zero]

end Reports

section

variable {o : OpenId} {fd : Nat} {handling : OffsetHandling}

theorem writeStart_startOf (happend : ¬ hasFlag (s.descriptions o).flags O_APPEND)
    (h0 : 0 ≤ startOf s o handling) (h62 : startOf s o handling < 4611686018427387904) :
    writeStart s o handling = (s, (startOf s o handling).toNat) := by
  cases handling with
  | argument offset => rfl
  | openFileState =>
      simp only [startOf] at h0 h62 ⊢
      simp only [writeStart]
      rw [if_neg happend]
      unfold u64
      congr 1
      omega

theorem readStart_startOf (h0 : 0 ≤ startOf s o handling)
    (h62 : startOf s o handling < 4611686018427387904) :
    readStart s o handling = (startOf s o handling).toNat := by
  cases handling with
  | argument offset => rfl
  | openFileState =>
      simp only [startOf, readStart] at h0 h62 ⊢
      unfold u64
      omega

theorem advance_trace (s : State) (o : OpenId) (handling : OffsetHandling) (offset n : Nat) :
    (advance s o handling offset n).trace = s.trace := by
  simp only [advance]
  split <;> rfl

theorem writeAtOffset_accounts {iovs : List CIovec} (ho : FileTable.getEntry s fd = some o)
    (hhost : host.Conforms (s.files (s.descriptions o).file))
    (hdata : (s.files (s.descriptions o).file).isDataFile)
    (happend : ¬ hasFlag (s.descriptions o).flags O_APPEND)
    (hiovs : ∀ iov ∈ iovs, iov.isNull = false) (hlen : (CIovec.lengths iovs).sum < 2147483648)
    (h0 : 0 ≤ startOf s o handling) (h62 : startOf s o handling < 4611686018427387904) :
    ∃ s' r, Export.writeReply (writeAtOffset host s handling fd iovs) = .ok (s', r) ∧
      WriteAccounts host s o handling iovs s' r := by
  obtain ⟨rs, s₁, hloop, hserved, hconsecutive, hmoved, hcodes⟩ :=
    writeLoop_accounts hhost (startOf s o handling).toNat (w := 0) hdata hiovs
      (by omega) (by omega)
  have hstart := writeStart_startOf happend h0 h62
  have hle := hconsecutive.length_moved_le
  have hd := Confined.descriptions_eq fun _ => writeLoop_confined hloop
  have hseek : (s₁.files (s.descriptions o).file).isSeekable =
      (s.files (s.descriptions o).file).isSeekable :=
    writeLoop_keeps (P := fun t => (t.files (s.descriptions o).file).isSeekable =
        (s.files (s.descriptions o).file).isSeekable) (fun ht => ht)
      (fun buffer ht => (State.isSeekable_setBuffer ..).trans ht) hloop rfl
  generalize htotal : total 0 rs = out at hloop
  cases out with
  | error e =>
      have hnone := (total_eq_error htotal).2
      refine ⟨s₁, ⟨u16 e, .nothing⟩, ?_, rs, s₁, hconsecutive, hserved, hmoved, fun _ => rfl, ?_,
        .of_error hcodes htotal hd⟩
      swap
      · rw [if_pos hnone, Nat.add_zero]
      rw [writeAtOffset_eq_fail handling iovs ho hdata (by rw [hstart]; exact hloop)]
      rfl
  | ok n =>
      have hwrite := writeAtOffset_eq_ok handling iovs ho hdata (by rw [hstart]; exact hloop)
      rw [hstart] at hwrite
      have hn := (total_eq_ok htotal).1
      rw [hwrite]
      refine ⟨_, _, rfl, rs, s₁, hconsecutive, hserved, hmoved, ?_, ?_, ?_⟩
      · intro f
        split
        · rw [State.body_updateMTime, advance_files]
        · rw [advance_files]
      · subst hn
        by_cases hnone : moved rs = []
        · rw [if_neg (by simp [hnone]), if_pos hnone, advance_trace, Nat.add_zero]
        · rw [if_pos (by simp [hnone]), if_neg hnone]
          simp only [State.updateMTime, State.ask, State.modify, advance_trace]
      · subst hn
        refine .of_ok hcodes ?_ htotal hd hseek h0 (by omega) ?_
        · intro bytes hout
          cases hout
        · split <;> rfl

theorem readAtOffset_accounts {iovs : List Iovec} (ho : FileTable.getEntry s fd = some o)
    (hhost : host.Conforms (s.files (s.descriptions o).file))
    (hdata : (s.files (s.descriptions o).file).isDataFile)
    (hiovs : ∀ iov ∈ iovs, iov.isNull = false) (hlen : (Iovec.lengths iovs).sum < 2147483648)
    (h0 : 0 ≤ startOf s o handling) (h62 : startOf s o handling < 4611686018427387904) :
    ∃ s' r, Export.readReply (readAtOffset host s handling fd iovs) = .ok (s', r) ∧
      ReadAccounts host s o handling iovs s' r := by
  obtain ⟨rs, s₁, hloop, hserved, hconsecutive, hcodes⟩ :=
    readLoop_accounts hhost (startOf s o handling).toNat (w := 0) hdata hiovs
      (by omega) (by omega)
  have hstart := readStart_startOf h0 h62
  have hle := hconsecutive.length_moved_le
  have hd := Confined.descriptions_eq fun _ => readLoop_confined hloop
  have hseek : (s₁.files (s.descriptions o).file).isSeekable =
      (s.files (s.descriptions o).file).isSeekable :=
    readLoop_keeps (P := fun t => (t.files (s.descriptions o).file).isSeekable =
        (s.files (s.descriptions o).file).isSeekable) (fun ht => ht) hloop rfl
  generalize htotal : total 0 rs = out at hloop
  cases out with
  | error e =>
      have hread := readAtOffset_eq_fail handling ho hdata (by rw [hstart]; exact hloop)
      rw [hread]
      exact ⟨_, _, rfl, rs, s₁, hconsecutive, hserved, rfl, rfl, .of_error hcodes htotal hd⟩
  | ok n =>
      have hread := readAtOffset_eq_ok handling ho hdata (by rw [hstart]; exact hloop)
      rw [hstart] at hread
      have hn := (total_eq_ok htotal).1
      rw [hread]
      refine ⟨_, _, rfl, rs, s₁, hconsecutive, hserved, advance_files ..,
        congrArg _ (advance_trace ..), ?_⟩
      subst hn
      refine .of_ok hcodes ?_ htotal hd hseek h0 (by omega) rfl
      intro bytes hout
      cases hout

end

/-- A data call on a data file without `O_APPEND` returns, and accounts for what was moved. -/
theorem transfers_account {c : Call} {fd : UInt32} {o : OpenId} (hc : c.Transfers fd)
    (ho : FileTable.getEntry s fd.toNat = some o)
    (hhost : host.Conforms (s.files (s.descriptions o).file))
    (hdata : (s.files (s.descriptions o).file).isDataFile)
    (happend : ¬ hasFlag (s.descriptions o).flags O_APPEND)
    (hlen : c.transferLength < 2147483648) (h0 : 0 ≤ c.transferStart s o)
    (h62 : c.transferStart s o < 4611686018427387904) :
    ∃ s' r, exec host s c = .ok (s', r) ∧ c.Accounts host s o s' r := by
  cases hc with
  | fd_pread offset hiovs => exact readAtOffset_accounts ho hhost hdata hiovs hlen h0 h62
  | fd_pwrite offset hiovs => exact writeAtOffset_accounts ho hhost hdata happend hiovs hlen h0 h62
  | fd_read hiovs => exact readAtOffset_accounts ho hhost hdata hiovs hlen h0 h62
  | fd_write hiovs => exact writeAtOffset_accounts ho hhost hdata happend hiovs hlen h0 h62

theorem transfers_account_createFile : ∃ s replies o, afterRun createFile = .ok (s, replies) ∧
    ∃ s' r, exec .still s (.fd_write 4 [⟨false, [1, 2], by decide⟩, ⟨false, [3], by decide⟩]) =
      .ok (s', r) ∧ Call.Accounts .still s o s' r
        (.fd_write 4 [⟨false, [1, 2], by decide⟩, ⟨false, [3], by decide⟩]) := by
  obtain ⟨s, replies, hok, ho, hdata, happend, h0, h62⟩ : Returns (afterRun createFile) fun s _ =>
      FileTable.getEntry s (4 : UInt32).toNat = some 4 ∧
      (s.files (s.descriptions 4).file).isDataFile ∧
      ¬ hasFlag (s.descriptions 4).flags O_APPEND ∧ 0 ≤ (s.descriptions 4).position ∧
      (s.descriptions 4).position < 4611686018427387904 := by
    decide +kernel
  exact ⟨s, replies, 4, hok, transfers_account (.fd_write (by decide)) ho (Host.still_conforms _)
    hdata happend (by decide) h0 h62⟩

end WasmFS
