import Mathlib.Data.List.TakeWhile
import WasmFS.Data.Loops
import WasmFS.Source.Init

/-!
# Where data calls stay inside the buffer

An offset from 2^63 on reaches a memory file as a negative number, and a write can
pass 2^63 on its way.  Both pass the comparisons with the size.  The tests of the
loops compare unsigned numbers with zero and do not see them.  Whether the copies
stay inside the buffer is then a matter of the offset modulo 2^32
(`copiesInside_iff`).
-/

namespace WasmFS

variable {host : Host} {s : State} {f : FileId} {buffer : Buffer}

/-! ## Conditions -/

/-- The length of the first buffer that is not empty, 0 if there is none. -/
def firstNonempty : List Nat → Nat
  | [] => 0
  | n :: lengths => if n = 0 then firstNonempty lengths else n

/-- A write at an offset from 2^63 on is void, lies in the file modulo 2^32, or passes
the maximum size as soon as it starts. -/
def HighWriteInside (size offset : Nat) (lengths : List Nat) : Prop :=
  lengths.sum = 0 ∨ offset % 4294967296 + lengths.sum ≤ size ∨
    18446744075857035264 ≤ offset + firstNonempty lengths

/-- A write of segments of these lengths at this offset stays inside the buffer. -/
def WriteInside (size offset : Nat) (lengths : List Nat) : Prop :=
  if offset < 9223372036854775808 then offset + lengths.headD 0 < 9223372036854775808
  else HighWriteInside size offset lengths

/-- A read into segments of these lengths at this offset stays inside the buffer. -/
def ReadInside (size offset : Nat) (lengths : List Nat) : Prop :=
  offset < 9223372036854775808 ∨ lengths.sum = 0 ∨ offset % 4294967296 + lengths.sum ≤ size

/-! ## Writes -/

theorem CIovec.headD_lengths_lt (iovs : List CIovec) : (lengths iovs).headD 0 < 4294967296 := by
  cases iovs with
  | nil => decide
  | cons iov iovs => exact iov.len_lt

theorem CIovec.firstNonempty_lt (iovs : List CIovec) :
    firstNonempty (lengths iovs) < 4294967296 := by
  induction iovs with
  | nil => decide
  | cons iov iovs ih =>
      simp only [lengths_cons, firstNonempty]
      split
      · exact ih
      · exact iov.len_lt

/-- Below 2^63 the loop returns, unless the end of its first segment passes 2^63. -/
theorem writeLoop_low (host : Host) {offset : Nat} {iovs : List CIovec} {bytesWritten : Nat}
    (hb : (s.files f).body = .memory buffer) (hiovs : ∀ iov ∈ iovs, ¬ iov.Unreadable)
    (hhead : offset + bytesWritten + (CIovec.lengths iovs).headD 0 < 9223372036854775808)
    (hin : bytesWritten = 0 ∨ offset + bytesWritten ≤ Buffer.maxSize) :
    ∃ s' r, writeLoop host f offset iovs bytesWritten s = .ok (s', r) := by
  have hmax : Buffer.maxSize = 2147483647 := rfl
  induction iovs generalizing bytesWritten s buffer with
  | nil => exact ⟨_, _, rfl⟩
  | cons iov iovs ih =>
      have hn := hiovs iov List.mem_cons_self
      simp only [CIovec.lengths_cons, List.headD_cons] at hhead
      have hover : addWillOverFlow offset bytesWritten = false :=
        addWillOverFlow_eq_false (by omega)
      by_cases hfits : offset + bytesWritten + iov.bytes.length ≤ Buffer.maxSize
      · obtain ⟨b, hw, -⟩ := MemoryDataFile.write_place buffer iov.bytes hfits
        rw [← signed_low (by omega)] at hw
        rw [writeLoop_go hn hover (DataFile.write_memory hb hw) (by omega)]
        have hnext := CIovec.headD_lengths_lt iovs
        exact ih (State.body_setBuffer hb) (fun iov' h' => hiovs iov' (.tail _ h')) (by omega)
          (by omega)
      · have hw := MemoryDataFile.write_full buffer (o := offset + bytesWritten) (by omega) hhead
        rw [← signed_low (by omega)] at hw
        exact ⟨_, _, writeLoop_refused iovs hn hover (DataFile.write_memory hb hw)⟩

theorem writeLoop_wraps {offset : Nat} {iovs : List CIovec}
    (hb : (s.files f).body = .memory buffer) (hiovs : ∀ iov ∈ iovs, ¬ iov.Unreadable)
    (ho : offset < 9223372036854775808)
    (hhead : 9223372036854775808 ≤ offset + (CIovec.lengths iovs).headD 0) :
    writeLoop host f offset iovs 0 s = .error .outOfBounds := by
  cases iovs with
  | nil => exact absurd hhead (Nat.not_le_of_lt ho)
  | cons iov iovs =>
      have hw := MemoryDataFile.write_wraps buffer ho hhead iov.len_lt
      rw [← Nat.add_zero offset, ← signed_low (by omega)] at hw
      exact writeLoop_fault (hiovs iov List.mem_cons_self)
        (addWillOverFlow_eq_false (by omega)) (DataFile.write_memory_fault hb hw)

/-- From 2^63 on a segment inside the file modulo 2^32 leaves the condition to the
segments after it. -/
theorem HighWriteInside.cons_iff {size p n : Nat} {lengths : List Nat}
    (hp' : p < 18446744073709551616) (hfirst : firstNonempty lengths < 4294967296)
    (hsize : size ≤ Buffer.maxSize) (h : n = 0 ∨ p % 4294967296 + n ≤ size) :
    HighWriteInside size p (n :: lengths) ↔ HighWriteInside size (p + n) lengths := by
  have hmax : Buffer.maxSize = 2147483647 := rfl
  simp only [HighWriteInside, List.sum_cons, firstNonempty]
  by_cases hn : n = 0
  · subst hn
    simp
  · rw [if_neg hn]
    omega

/-- From 2^63 on the loop returns under that condition, and only then. -/
theorem writeLoop_high (host : Host) (bytesWritten : Nat) {offset : Nat} {iovs : List CIovec}
    (hb : (s.files f).body = .memory buffer) (hiovs : ∀ iov ∈ iovs, ¬ iov.Unreadable)
    (hp : 9223372036854775808 ≤ offset + bytesWritten)
    (hp' : offset + bytesWritten < 18446744073709551616)
    (hin : bytesWritten ≤ (offset + bytesWritten) % 4294967296) :
    (HighWriteInside buffer.size (offset + bytesWritten) (CIovec.lengths iovs) →
      ∃ s' r, writeLoop host f offset iovs bytesWritten s = .ok (s', r)) ∧
    (¬ HighWriteInside buffer.size (offset + bytesWritten) (CIovec.lengths iovs) →
      writeLoop host f offset iovs bytesWritten s = .error .outOfBounds) := by
  have hmax : Buffer.maxSize = 2147483647 := rfl
  induction iovs generalizing bytesWritten s buffer with
  | nil =>
      refine ⟨fun _ => ⟨_, _, rfl⟩, fun hout => absurd ?_ hout⟩
      exact Or.inl rfl
  | cons iov iovs ih =>
      have hsize := buffer.size_le_max
      have hn := hiovs iov List.mem_cons_self
      have hlen := iov.len_lt
      have hover : addWillOverFlow offset bytesWritten = false := addWillOverFlow_eq_false hp'
      rw [CIovec.lengths_cons]
      by_cases hinside : iov.bytes.length = 0 ∨
          (offset + bytesWritten) % 4294967296 + iov.bytes.length ≤ buffer.size
      · -- the segment is copied and the size stays
        have hcopy := hinside.imp_left List.length_eq_zero_iff.mp
        obtain ⟨b, hw, hlist⟩ := MemoryDataFile.write_high_inside _ hp hp' hcopy
        have hbsize : b.size = buffer.size := by
          rw [Vec.size, hlist, Lists.length_overlay_inside 0 hcopy, Vec.size]
        rw [← signed_high hp hp'] at hw
        rw [HighWriteInside.cons_iff hp' (CIovec.firstNonempty_lt iovs) hsize hinside,
          writeLoop_go hn hover (DataFile.write_memory hb hw) (by omega), ← hbsize, Nat.add_assoc]
        exact ih (bytesWritten + iov.bytes.length) (State.body_setBuffer hb)
          (fun iov' h' => hiovs iov' (.tail _ h')) (by omega) (by omega) (by omega)
      · have hne : iov.bytes.length ≠ 0 := fun h => hinside (Or.inl h)
        have hnotin : buffer.size <
            (offset + bytesWritten) % 4294967296 + iov.bytes.length := by omega
        have hcond : HighWriteInside buffer.size (offset + bytesWritten)
              (iov.bytes.length :: CIovec.lengths iovs) ↔
            18446744075857035264 ≤ offset + bytesWritten + iov.bytes.length := by
          simp only [HighWriteInside, List.sum_cons, firstNonempty, if_neg hne]
          omega
        rw [hcond]
        constructor
        · intro hfull
          have hw := MemoryDataFile.write_high_full buffer hp' hlen hfull
          rw [← signed_high hp hp'] at hw
          exact ⟨_, _, writeLoop_refused iovs hn hover (DataFile.write_memory hb hw)⟩
        · intro hnotfull
          have hw := MemoryDataFile.write_high_outside buffer hp hp' hlen
            (fun h => hne (List.length_eq_zero_iff.mpr h)) hnotin (by omega)
          rw [← signed_high hp hp'] at hw
          exact writeLoop_fault hn hover (DataFile.write_memory_fault hb hw)

/-- The segments before the first one that the null check stops. -/
def CIovec.readables (iovs : List CIovec) : List CIovec :=
  iovs.takeWhile fun iov => ¬ iov.Unreadable

theorem CIovec.of_mem_readables {iov : CIovec} {iovs : List CIovec} (h : iov ∈ readables iovs) :
    ¬ iov.Unreadable := by
  have hpasses := List.mem_takeWhile_imp h
  exact of_decide_eq_true hpasses

theorem CIovec.readables_of_readable {iovs : List CIovec}
    (h : ∀ iov ∈ iovs, ¬ iov.Unreadable) : readables iovs = iovs :=
  List.takeWhile_eq_self_iff.mpr fun iov hiov => decide_eq_true (h iov hiov)

/-- The segments from the null check on make no copy. -/
theorem writeLoop_readables (host : Host) (s : State) (f : FileId) (offset bytesWritten : Nat)
    (iovs : List CIovec) (e : Fault) :
    writeLoop host f offset (CIovec.readables iovs) bytesWritten s = .error e ↔
      writeLoop host f offset iovs bytesWritten s = .error e := by
  induction iovs generalizing bytesWritten s with
  | nil => exact Iff.rfl
  | cons iov iovs ih =>
      by_cases hn : iov.Unreadable
      · have hnone : CIovec.readables (iov :: iovs) = [] :=
          List.takeWhile_cons_of_neg (by simp [hn])
        rw [hnone]
        simp only [writeLoop]
        rw [if_pos hn]
        constructor <;> intro h <;> cases h
      · have hcons : CIovec.readables (iov :: iovs) = iov :: CIovec.readables iovs :=
          List.takeWhile_cons_of_pos (decide_eq_true hn)
        rw [hcons]
        simp only [writeLoop]
        rw [if_neg hn, if_neg hn]
        split
        · exact Iff.rfl
        split
        · exact Iff.rfl
        split
        · exact Iff.rfl
        split
        · exact Iff.rfl
        · exact ih _ _

theorem writeLoop_inside_iff {offset : Nat} {iovs : List CIovec}
    (hb : (s.files f).body = .memory buffer) (ho : offset < 18446744073709551616) :
    writeLoop host f offset iovs 0 s ≠ .error .outOfBounds ↔
      WriteInside buffer.size offset (CIovec.lengths (CIovec.readables iovs)) := by
  have hiovs : ∀ iov ∈ CIovec.readables iovs, ¬ iov.Unreadable :=
    fun iov hiov => CIovec.of_mem_readables hiov
  rw [ne_eq, ← writeLoop_readables, ← ne_eq]
  simp only [WriteInside]
  split
  · rename_i hlow
    constructor
    · intro hinside
      by_contra hout
      exact hinside (writeLoop_wraps hb hiovs hlow (Nat.le_of_not_lt hout))
    · intro hhead
      obtain ⟨s', r, hok⟩ := writeLoop_low host hb hiovs hhead (Or.inl rfl)
      rw [hok]
      exact nofun
  · rename_i hhigh
    obtain ⟨hok, hfault⟩ := writeLoop_high host 0 hb hiovs
      (Nat.le_of_not_lt hhigh) ho (Nat.zero_le _)
    constructor
    · intro hinside
      by_contra hout
      exact hinside (hfault hout)
    · intro hcond
      obtain ⟨s', r, hok⟩ := hok hcond
      rw [hok]
      exact nofun

/-! ## Reads -/

/-- From 2^63 on the loop returns if all segments lie in the file modulo 2^32, and
only then. -/
theorem readLoop_high (host : Host) (bytesRead : Nat) {offset : Nat} {iovs : List Iovec}
    (hb : (s.files f).body = .memory buffer) (hiovs : ∀ iov ∈ iovs, iov.isNull = false)
    (hp : 9223372036854775808 ≤ offset + bytesRead)
    (hp' : offset + bytesRead < 18446744073709551616)
    (hin : bytesRead ≤ (offset + bytesRead) % 4294967296) :
    ((Iovec.lengths iovs).sum = 0 ∨
        (offset + bytesRead) % 4294967296 + (Iovec.lengths iovs).sum ≤ buffer.size →
      ∃ total bytes, readLoop host f offset iovs bytesRead s = .ok (s, .ok (total, bytes))) ∧
    (¬ ((Iovec.lengths iovs).sum = 0 ∨
        (offset + bytesRead) % 4294967296 + (Iovec.lengths iovs).sum ≤ buffer.size) →
      readLoop host f offset iovs bytesRead s = .error .outOfBounds) := by
  have hmax : Buffer.maxSize = 2147483647 := rfl
  have hsize := buffer.size_le_max
  induction iovs generalizing bytesRead with
  | nil => exact ⟨fun _ => ⟨_, _, rfl⟩, fun hout => absurd (Or.inl rfl) hout⟩
  | cons iov iovs ih =>
      have hn := hiovs iov List.mem_cons_self
      have hlen := iov.len.toNat_lt
      rw [Iovec.lengths_cons, List.sum_cons]
      by_cases hinside : iov.len.toNat = 0 ∨
          (offset + bytesRead) % 4294967296 + iov.len.toNat ≤ buffer.size
      · obtain ⟨bytes, hr⟩ := MemoryDataFile.read_high_inside _ hp hp' hinside
        rw [← signed_high hp hp'] at hr
        have hread := DataFile.read_memory host hb hr
        obtain ⟨hok, hfault⟩ := ih (bytesRead + iov.len.toNat)
          (fun iov' h' => hiovs iov' (.tail _ h')) (by omega) (by omega) (by omega)
        constructor
        · intro hrest
          obtain ⟨total, more, hloop⟩ := hok (by omega)
          exact ⟨total, _, readLoop_go hn hread (by omega) hloop⟩
        · intro hrest
          exact readLoop_go_fault hn hread (by omega) (hfault (by omega))
      · constructor
        · intro hrest
          exact absurd hrest (by omega)
        · intro hrest
          have hr := MemoryDataFile.read_high_outside buffer iov.len.toNat hp hp' hlen (by omega)
            (by omega)
          rw [← signed_high hp hp'] at hr
          exact readLoop_fault hn (DataFile.read_memory_fault hb hr)

theorem readLoop_inside_iff {offset : Nat} {iovs : List Iovec}
    (hb : (s.files f).body = .memory buffer) (hiovs : ∀ iov ∈ iovs, iov.isNull = false)
    (ho : offset < 18446744073709551616) :
    readLoop host f offset iovs 0 s ≠ .error .outOfBounds ↔
      ReadInside buffer.size offset (Iovec.lengths iovs) := by
  simp only [ReadInside]
  by_cases hlow : offset < 9223372036854775808
  · rw [readLoop_slice host offset 0 hb hiovs hlow (Or.inl rfl)]
    exact ⟨fun _ => Or.inl hlow, fun _ => nofun⟩
  · obtain ⟨hok, hfault⟩ := readLoop_high host 0 hb hiovs
      (Nat.le_of_not_lt hlow) ho (Nat.zero_le _)
    constructor
    · intro hinside
      by_contra hout
      exact hinside (hfault fun hcond => hout (Or.inr hcond))
    · intro hcond
      obtain ⟨total, bytes, hread⟩ := hok (hcond.resolve_left hlow)
      rw [hread]
      exact nofun

/-! ## Calls -/

/-- A data call through the descriptor `fd` without a null buffer. -/
inductive Call.Transfers (fd : UInt32) : Call → Prop where
  | fd_pread {iovs : List Iovec} (offset : UInt64) :
      (∀ iov ∈ iovs, iov.isNull = false) → Transfers fd (.fd_pread fd iovs offset)
  | fd_pwrite {iovs : List CIovec} (offset : UInt64) :
      (∀ iov ∈ iovs, iov.isNull = false) → Transfers fd (.fd_pwrite fd iovs offset)
  | fd_read {iovs : List Iovec} :
      (∀ iov ∈ iovs, iov.isNull = false) → Transfers fd (.fd_read fd iovs)
  | fd_write {iovs : List CIovec} :
      (∀ iov ∈ iovs, iov.isNull = false) → Transfers fd (.fd_write fd iovs)

/-- No `memcpy` of the call leaves the buffer.  The call returns a status. -/
def CopiesInside (host : Host) (s : State) (c : Call) : Prop := exec host s c ≠ .error .outOfBounds

/-- The condition on the arguments of a call through a description of a file of this
size. -/
def Call.StaysInside (d : OpenFileState) (size : Nat) : Call → Prop
  | .fd_pread _ iovs offset => ReadInside size offset.toNat (Iovec.lengths iovs)
  | .fd_pwrite _ iovs offset => WriteInside size offset.toNat (CIovec.lengths iovs)
  | .fd_read _ iovs => ReadInside size (u64 d.position) (Iovec.lengths iovs)
  | .fd_write _ iovs =>
      hasFlag d.flags O_APPEND ∨ WriteInside size (u64 d.position) (CIovec.lengths iovs)
  | _ => True

/-- The same for a write that may meet a null buffer.  Only the segments before it count. -/
def Call.WritesInside (d : OpenFileState) (size : Nat) : Call → Prop
  | .fd_pwrite _ iovs offset =>
      WriteInside size offset.toNat (CIovec.lengths (CIovec.readables iovs))
  | .fd_write _ iovs =>
      hasFlag d.flags O_APPEND ∨
        WriteInside size (u64 d.position) (CIovec.lengths (CIovec.readables iovs))
  | _ => True

theorem Export.readReply_eq_error {x : Except Fault (State × Except Int (Nat × List UInt8))}
    {e : Fault} : readReply x = .error e ↔ x = .error e := by
  rcases x with e' | ⟨s, code | ⟨count, bytes⟩⟩ <;> simp [readReply]

theorem Export.writeReply_eq_error {x : Except Fault (State × Except Int Nat)} {e : Fault} :
    writeReply x = .error e ↔ x = .error e := by
  rcases x with e' | ⟨s, code | count⟩ <;> simp [writeReply]

/-- A write at the end of a file is inside. -/
theorem WriteInside.append (buffer : Buffer) (iovs : List CIovec) :
    WriteInside buffer.size buffer.size (CIovec.lengths iovs) := by
  have hmax : Buffer.maxSize = 2147483647 := rfl
  have hsize := buffer.size_le_max
  have hhead := CIovec.headD_lengths_lt iovs
  simp only [WriteInside]
  rw [if_pos (by omega)]
  omega

theorem writeStart_files (s : State) (o : OpenId) (setOffset : OffsetHandling) :
    (writeStart s o setOffset).1.files = s.files := by
  cases setOffset with
  | argument offset => rfl
  | openFileState =>
      simp only [writeStart]
      split
      · rfl
      · rfl

theorem writeStart_lt (s : State) (o : OpenId) (setOffset : OffsetHandling) :
    (writeStart s o setOffset).2 < 18446744073709551616 := by
  cases setOffset with
  | argument offset => exact offset.toNat_lt
  | openFileState =>
      simp only [writeStart]
      split
      · exact u64_lt _
      · exact u64_lt _

theorem writeStart_inside {o : OpenId} {iovs : List CIovec}
    (hb : (s.files (s.descriptions o).file).body = .memory buffer) :
    WriteInside buffer.size (writeStart s o .openFileState).2 (CIovec.lengths iovs) ↔
      (hasFlag (s.descriptions o).flags O_APPEND ∨
        WriteInside buffer.size (u64 (s.descriptions o).position) (CIovec.lengths iovs)) := by
  have hmax : Buffer.maxSize = 2147483647 := rfl
  have hsize := buffer.size_le_max
  simp only [writeStart]
  split
  · rename_i happend
    have hend : u64 (s.files (s.descriptions o).file).getSize = buffer.size := by
      simp only [File.getSize, hb]
      exact u64_of_lt (by omega)
    rw [hend]
    exact ⟨fun _ => Or.inl happend, fun _ => .append buffer iovs⟩
  · rename_i happend
    exact ⟨Or.inr, fun h => h.resolve_left happend⟩

section

variable {fd : UInt32} {o : OpenId} (ho : FileTable.getEntry s fd.toNat = some o)
  (hbuffer : (s.files (s.descriptions o).file).buffer? = some buffer)

include ho hbuffer

theorem fd_pwrite_copiesInside {iovs : List CIovec} {offset : UInt64} :
    CopiesInside host s (.fd_pwrite fd iovs offset) ↔
      (Call.fd_pwrite fd iovs offset).WritesInside (s.descriptions o) buffer.size := by
  have hb := File.body_of_buffer? hbuffer
  simp only [CopiesInside, exec, Export.fd_pwrite, ne_eq, Export.writeReply_eq_error,
    writeAtOffset_eq_error ho (File.isDataFile_of_memory hb)]
  exact writeLoop_inside_iff hb offset.toNat_lt

theorem fd_write_copiesInside {iovs : List CIovec} :
    CopiesInside host s (.fd_write fd iovs) ↔
      (Call.fd_write fd iovs).WritesInside (s.descriptions o) buffer.size := by
  have hb := File.body_of_buffer? hbuffer
  simp only [CopiesInside, exec, Export.fd_write, ne_eq, Export.writeReply_eq_error,
    writeAtOffset_eq_error ho (File.isDataFile_of_memory hb)]
  have hstart : ((writeStart s o .openFileState).1.files (s.descriptions o).file).body =
      .memory buffer := by
    rw [writeStart_files]
    exact hb
  exact (writeLoop_inside_iff hstart (writeStart_lt ..)).trans (writeStart_inside hb)

end

/-- A data call on a memory file stays inside the buffer exactly under the condition
on its arguments. -/
theorem copiesInside_iff {c : Call} {fd : UInt32} {o : OpenId} (hc : c.Transfers fd)
    (ho : FileTable.getEntry s fd.toNat = some o)
    (hbuffer : (s.files (s.descriptions o).file).buffer? = some buffer) :
    CopiesInside host s c ↔ c.StaysInside (s.descriptions o) buffer.size := by
  have hb := File.body_of_buffer? hbuffer
  have hd := File.isDataFile_of_memory hb
  cases hc with
  | fd_pread offset hiovs =>
      simp only [CopiesInside, exec, Export.fd_pread, ne_eq, Export.readReply_eq_error,
        readAtOffset_eq_error ho hd]
      exact readLoop_inside_iff hb hiovs offset.toNat_lt
  | fd_pwrite offset hiovs =>
      rw [fd_pwrite_copiesInside ho hbuffer, Call.WritesInside,
        CIovec.readables_of_readable fun iov hiov => CIovec.readable (hiovs iov hiov)]
      exact Iff.rfl
  | fd_read hiovs =>
      simp only [CopiesInside, exec, Export.fd_read, ne_eq, Export.readReply_eq_error,
        readAtOffset_eq_error ho hd]
      exact readLoop_inside_iff hb hiovs (u64_lt _)
  | fd_write hiovs =>
      rw [fd_write_copiesInside ho hbuffer, Call.WritesInside,
        CIovec.readables_of_readable fun iov hiov => CIovec.readable (hiovs iov hiov)]
      exact Iff.rfl

/-! ## A read at 2^63 -/

/-- `path_open` of the root and, with `O_CREAT`, of a file in it. -/
def createFile : List Call := [.path_open atFdCwd [slash] 0, .path_open 3 [102] 64]

theorem afterRun_createFile : ∃ s replies o buffer, afterRun createFile = .ok (s, replies) ∧
    FileTable.getEntry s (4 : UInt32).toNat = some o ∧
    (s.files (s.descriptions o).file).buffer? = some buffer ∧ buffer.size = 0 ∧
    (s.descriptions o).position = 0 := by
  obtain ⟨s, replies, hok, ho, hb, hpos⟩ : Returns (afterRun createFile) fun s _ =>
      FileTable.getEntry s (4 : UInt32).toNat = some 4 ∧
      (s.files (s.descriptions 4).file).buffer? = some Vec.empty ∧
      (s.descriptions 4).position = 0 := by
    decide +kernel
  exact ⟨s, replies, 4, Vec.empty, hok, ho, hb, rfl, hpos⟩

theorem copiesInside_createFile : ∃ s replies o, afterRun createFile = .ok (s, replies) ∧
    (CopiesInside .still s (.fd_pread 4 [{ len := 1 }] 9223372036854775808) ↔
      Call.StaysInside (s.descriptions o) 0 (.fd_pread 4 [{ len := 1 }] 9223372036854775808)) := by
  obtain ⟨s, replies, o, buffer, hok, ho, hb, hsize, -⟩ := afterRun_createFile
  refine ⟨s, replies, o, hok, ?_⟩
  rw [← hsize]
  exact copiesInside_iff (.fd_pread _ (by decide)) ho hb

/-- A read of one byte at 2^63 leaves the buffer of an empty file. -/
theorem not_copiesInside_pread : ¬ ∀ (host : Host) (s : State) (c : Call) (fd : UInt32)
    (o : OpenId) (buffer : Buffer), Reachable host s → c.Transfers fd →
    FileTable.getEntry s fd.toNat = some o →
    (s.files (s.descriptions o).file).buffer? = some buffer → CopiesInside host s c := by
  intro hall
  obtain ⟨s, replies, o, buffer, hok, ho, hb, hsize, -⟩ := afterRun_createFile
  have hinside := hall .still s (.fd_pread 4 [{ len := 1 }] 9223372036854775808) 4 o buffer
    (.of_afterRun hok) (.fd_pread _ (by decide)) ho hb
  refine hinside ?_
  have hbody := File.body_of_buffer? hb
  have hd := File.isDataFile_of_memory hbody
  simp only [exec, Export.fd_pread, Export.readReply_eq_error, readAtOffset_eq_error ho hd]
  have hread := MemoryDataFile.read_high_outside buffer 1 (p := 9223372036854775808)
    (by decide) (by decide) (by decide) (by decide) (by omega)
  rw [← signed_high (p := 9223372036854775808) (q := 0) (by decide) (by decide)] at hread
  exact readLoop_fault rfl (DataFile.read_memory_fault hbody hread)

end WasmFS
