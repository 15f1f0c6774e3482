import Mathlib.Algebra.GroupWithZero.Nat
import WasmFS.Data.Memory

/-!
# The loops over a memory file

Each loop has one lemma for what a segment does to it: it goes on after a full
transfer, and it ends with a status after a refusal.  From these the loops of a
read and of a write over a memory file behave like one transfer of the
concatenated segments (`readLoop_slice`, `writeLoop_overlay`).
-/

namespace WasmFS

open Lists

variable {host : Host} {s s₁ : State} {f : FileId} {buffer b : Buffer}

/-! ## Files -/

theorem File.body_of_buffer? {x : File} (h : x.buffer? = some buffer) :
    x.body = .memory buffer := by
  simp only [File.buffer?] at h
  split at h
  · rename_i hbody
    rw [hbody, Option.some.inj h]
  · cases h

theorem File.buffer?_of_memory {x : File} (h : x.body = .memory buffer) :
    x.buffer? = some buffer := by
  simp only [File.buffer?, h]

theorem File.isDataFile_of_memory {x : File} (h : x.body = .memory buffer) :
    x.isDataFile = true := by
  simp only [File.isDataFile, File.kind, h]
  rfl

theorem File.setBuffer_memory {x : File} (h : x.body = .memory buffer) :
    x.setBuffer b = { x with body := .memory b } := by
  simp only [File.setBuffer, h]

theorem State.body_setBuffer (h : (s.files f).body = .memory buffer) :
    ((s.modify f fun x => x.setBuffer b).files f).body = .memory b := by
  rw [State.files_modify, File.setBuffer_memory h]

/-- Putting the buffer back changes nothing. -/
theorem State.setBuffer_self (h : (s.files f).body = .memory buffer) :
    (s.modify f fun x => x.setBuffer buffer) = s := by
  have hfile : (s.files f).setBuffer buffer = s.files f := by
    rw [File.setBuffer_memory h, ← h]
  simp only [State.modify, hfile, Function.update_eq_self]

/-- The last of two buffers stays. -/
theorem State.setBuffer_setBuffer (s : State) (f : FileId) (b b' : Buffer) :
    ((s.modify f fun x => x.setBuffer b).modify f fun x => x.setBuffer b') =
      s.modify f fun x => x.setBuffer b' := by
  have hfile : ((s.files f).setBuffer b).setBuffer b' = (s.files f).setBuffer b' := by
    simp only [File.setBuffer]
    cases (s.files f).body <;> rfl
  simp only [State.modify, Function.update_self, Function.update_idem, hfile]

/-! ## One segment -/

theorem DataFile.write_memory {buf : List UInt8} {offset result : Int}
    (h : (s.files f).body = .memory buffer)
    (hw : MemoryDataFile.write buffer buf offset = .ok (b, result)) :
    DataFile.write host s f buf offset = .ok (s.modify f fun x => x.setBuffer b, result) := by
  simp only [DataFile.write, h, hw]

theorem DataFile.write_memory_fault {buf : List UInt8} {offset : Int} {e : Fault}
    (h : (s.files f).body = .memory buffer)
    (hw : MemoryDataFile.write buffer buf offset = .error e) :
    DataFile.write host s f buf offset = .error e := by
  simp only [DataFile.write, h, hw]

theorem DataFile.read_memory (host : Host) {len : Nat} {offset result : Int}
    {bytes : List UInt8} (h : (s.files f).body = .memory buffer)
    (hr : MemoryDataFile.read buffer len offset = .ok (bytes, result)) :
    DataFile.read host s f len offset = .ok (s, bytes, result) := by
  simp only [DataFile.read, h, hr]

theorem DataFile.read_memory_fault {len : Nat} {offset : Int} {e : Fault}
    (h : (s.files f).body = .memory buffer)
    (hr : MemoryDataFile.read buffer len offset = .error e) :
    DataFile.read host s f len offset = .error e := by
  simp only [DataFile.read, h, hr]

/-- The sum of an offset and a count that stays below 2^64 does not wrap. -/
theorem addWillOverFlow_eq_false {p q : Nat} (h : p + q < 18446744073709551616) :
    addWillOverFlow p q = false := by
  simp only [addWillOverFlow, Bool.and_eq_false_iff, decide_eq_false_iff_not]
  exact Or.inr (by omega)

/-- Below 2^63 the file gets the offset of the segment. -/
theorem signed_low {p q : Nat} (h : p + q < 9223372036854775808) :
    s64 (u64 ((p : Int) + q)) = (p + q : Nat) := by
  unfold s64 u64
  omega

/-- From 2^63 on it gets a negative number. -/
theorem signed_high {p q : Nat} (h : 9223372036854775808 ≤ p + q)
    (h' : p + q < 18446744073709551616) :
    s64 (u64 ((p : Int) + q)) = ((p + q : Nat) : Int) - 18446744073709551616 := by
  unfold s64 u64
  omega

/-- The null check of `writeAtOffset` stops at the segment. -/
abbrev CIovec.Unreadable (iov : CIovec) : Prop := iov.isNull ∧ iov.bytes.length > 0

theorem CIovec.readable {iov : CIovec} (h : iov.isNull = false) : ¬ iov.Unreadable := by
  simp [h]

section

variable {offset bytesWritten : Nat} {iov : CIovec} {iovs : List CIovec}

/-- After a segment that is written whole the loop goes on. -/
theorem writeLoop_go (hn : ¬ iov.Unreadable) (hover : addWillOverFlow offset bytesWritten = false)
    (hw : DataFile.write host s f iov.bytes (s64 (u64 (offset + bytesWritten))) =
      .ok (s₁, iov.bytes.length)) (hsum : bytesWritten + iov.bytes.length < 4294967296) :
    writeLoop host f offset (iov :: iovs) bytesWritten s =
      writeLoop host f offset iovs (bytesWritten + iov.bytes.length) s₁ := by
  have hcount : u32 ((bytesWritten : Int) + iov.bytes.length) =
      bytesWritten + iov.bytes.length := by
    unfold u32
    omega
  simp only [writeLoop, hover, hw, hcount]
  rw [if_neg hn, if_neg (by simp), if_neg (by omega), if_neg (by omega)]

/-- A segment that fails ends the loop: after some bytes this is a short write. -/
theorem writeLoop_fails {result : Int} (iovs : List CIovec) (hn : ¬ iov.Unreadable)
    (hover : addWillOverFlow offset bytesWritten = false)
    (hw : DataFile.write host s f iov.bytes (s64 (u64 (offset + bytesWritten))) =
      .ok (s₁, result)) (hneg : result < 0) :
    writeLoop host f offset (iov :: iovs) bytesWritten s =
      .ok (s₁, if bytesWritten > 0 then .ok bytesWritten else .error (-result)) := by
  simp only [writeLoop, hover, hw]
  rw [if_neg hn, if_neg (by simp), if_pos hneg]
  split <;> rfl

theorem writeLoop_refused {e : Errno} (iovs : List CIovec) (hn : ¬ iov.Unreadable)
    (hover : addWillOverFlow offset bytesWritten = false)
    (hw : DataFile.write host s f iov.bytes (s64 (u64 (offset + bytesWritten))) =
      .ok (s₁, e.neg)) :
    writeLoop host f offset (iov :: iovs) bytesWritten s =
      .ok (s₁, if bytesWritten > 0 then .ok bytesWritten else .error e.code) := by
  have hcode : -e.neg = e.code := Int.neg_neg _
  rw [writeLoop_fails iovs hn hover hw e.neg_lt_zero, hcode]

/-- A segment that is written in part ends the loop. -/
theorem writeLoop_short {n : Nat} (iovs : List CIovec) (hn : ¬ iov.Unreadable)
    (hover : addWillOverFlow offset bytesWritten = false)
    (hw : DataFile.write host s f iov.bytes (s64 (u64 (offset + bytesWritten))) = .ok (s₁, n))
    (hsum : bytesWritten + n < 4294967296) (hshort : n < iov.bytes.length) :
    writeLoop host f offset (iov :: iovs) bytesWritten s = .ok (s₁, .ok (bytesWritten + n)) := by
  have hcount : u32 ((bytesWritten : Int) + n) = bytesWritten + n := by
    unfold u32
    omega
  simp only [writeLoop, hover, hw, hcount]
  rw [if_neg hn, if_neg (by simp), if_neg (by omega), if_pos (by omega)]

theorem writeLoop_fault {e : Fault} (hn : ¬ iov.Unreadable)
    (hover : addWillOverFlow offset bytesWritten = false)
    (hw : DataFile.write host s f iov.bytes (s64 (u64 (offset + bytesWritten))) = .error e) :
    writeLoop host f offset (iov :: iovs) bytesWritten s = .error e := by
  simp only [writeLoop, hover, hw]
  rw [if_neg hn, if_neg (by simp)]

end

section

variable {offset bytesRead : Nat} {iov : Iovec} {iovs : List Iovec} {bytes : List UInt8}

/-- After a segment that is read whole the loop goes on. -/
theorem readLoop_goes {s₂ : State} {out : Except Int (Nat × List UInt8)} (hn : iov.isNull = false)
    (hr : DataFile.read host s f iov.len.toNat (s64 (u64 (offset + bytesRead))) =
      .ok (s₁, bytes, iov.len.toNat)) (hsum : bytesRead + iov.len.toNat < 4294967296)
    (hrest : readLoop host f offset iovs (bytesRead + iov.len.toNat) s₁ = .ok (s₂, out)) :
    readLoop host f offset (iov :: iovs) bytesRead s =
      .ok (s₂, out.map fun x => (x.1, bytes ++ x.2)) := by
  have hcount : u32 ((bytesRead : Int) + iov.len.toNat) = bytesRead + iov.len.toNat := by
    unfold u32
    omega
  have hfull : u32 (iov.len.toNat : Int) = iov.len.toNat := u32_of_lt iov.len.toNat_lt
  simp only [readLoop, hn, hr, hcount, hfull, hrest]
  rw [if_neg (by simp), if_neg (by omega), if_neg (by omega)]
  cases out with
  | error code => rfl
  | ok x => rfl

theorem readLoop_go {s₂ : State} {total : Nat} {more : List UInt8} (hn : iov.isNull = false)
    (hr : DataFile.read host s f iov.len.toNat (s64 (u64 (offset + bytesRead))) =
      .ok (s₁, bytes, iov.len.toNat)) (hsum : bytesRead + iov.len.toNat < 4294967296)
    (hrest : readLoop host f offset iovs (bytesRead + iov.len.toNat) s₁ =
      .ok (s₂, .ok (total, more))) :
    readLoop host f offset (iov :: iovs) bytesRead s = .ok (s₂, .ok (total, bytes ++ more)) :=
  readLoop_goes hn hr hsum hrest

theorem readLoop_go_fault {e : Fault} (hn : iov.isNull = false)
    (hr : DataFile.read host s f iov.len.toNat (s64 (u64 (offset + bytesRead))) =
      .ok (s₁, bytes, iov.len.toNat)) (hsum : bytesRead + iov.len.toNat < 4294967296)
    (hrest : readLoop host f offset iovs (bytesRead + iov.len.toNat) s₁ = .error e) :
    readLoop host f offset (iov :: iovs) bytesRead s = .error e := by
  have hcount : u32 ((bytesRead : Int) + iov.len.toNat) = bytesRead + iov.len.toNat := by
    unfold u32
    omega
  have hfull : u32 (iov.len.toNat : Int) = iov.len.toNat := u32_of_lt iov.len.toNat_lt
  simp only [readLoop, hn, hr, hcount, hfull, hrest]
  rw [if_neg (by simp), if_neg (by omega), if_neg (by omega)]

/-- A segment that is read in part ends the loop. -/
theorem readLoop_short {n : Nat} (hn : iov.isNull = false)
    (hr : DataFile.read host s f iov.len.toNat (s64 (u64 (offset + bytesRead))) =
      .ok (s₁, bytes, n)) (hsum : bytesRead + n < 4294967296) (hshort : n < iov.len.toNat) :
    readLoop host f offset (iov :: iovs) bytesRead s =
      .ok (s₁, .ok (bytesRead + n, bytes)) := by
  have hcount : u32 ((bytesRead : Int) + n) = bytesRead + n := by
    unfold u32
    omega
  have hpart : u32 (n : Int) = n := u32_of_lt (by omega)
  simp only [readLoop, hn, hr, hcount, hpart]
  rw [if_neg (by simp), if_neg (by omega), if_pos hshort]

/-- A segment that fails ends the loop: after some bytes this is a short read. -/
theorem readLoop_fails {result : Int} (iovs : List Iovec) (hn : iov.isNull = false)
    (hr : DataFile.read host s f iov.len.toNat (s64 (u64 (offset + bytesRead))) =
      .ok (s₁, bytes, result)) (hneg : result < 0) :
    readLoop host f offset (iov :: iovs) bytesRead s =
      .ok (s₁, if bytesRead > 0 then .ok (bytesRead, []) else .error (-result)) := by
  simp only [readLoop, hn, hr]
  rw [if_neg (by simp), if_pos hneg]
  split <;> rfl

theorem readLoop_fault {e : Fault} (hn : iov.isNull = false)
    (hr : DataFile.read host s f iov.len.toNat (s64 (u64 (offset + bytesRead))) = .error e) :
    readLoop host f offset (iov :: iovs) bytesRead s = .error e := by
  simp only [readLoop, hn, hr]
  rw [if_neg (by simp)]

end

/-! ## All segments -/

/-- The lengths of the buffers to write. -/
def CIovec.lengths (iovs : List CIovec) : List Nat := iovs.map fun iov => iov.bytes.length

/-- The lengths of the buffers to fill. -/
def Iovec.lengths (iovs : List Iovec) : List Nat := iovs.map fun iov => iov.len.toNat

/-- The bytes of all buffers to write. -/
def CIovec.concat (iovs : List CIovec) : List UInt8 := iovs.flatMap fun iov => iov.bytes

@[simp] theorem CIovec.lengths_cons (iov : CIovec) (iovs : List CIovec) :
    lengths (iov :: iovs) = iov.bytes.length :: lengths iovs := rfl

@[simp] theorem Iovec.lengths_cons (iov : Iovec) (iovs : List Iovec) :
    lengths (iov :: iovs) = iov.len.toNat :: lengths iovs := rfl

@[simp] theorem CIovec.concat_cons (iov : CIovec) (iovs : List CIovec) :
    concat (iov :: iovs) = iov.bytes ++ concat iovs := rfl

/-- The segments of a write go to the file as one. -/
theorem writeLoop_overlay (host : Host) (offset bytesWritten : Nat) {iovs : List CIovec}
    (hb : (s.files f).body = .memory buffer)
    (hiovs : ∀ iov ∈ iovs, iov.isNull = false ∧ iov.bytes ≠ [])
    (hfits : offset + bytesWritten + (CIovec.concat iovs).length ≤ Buffer.maxSize) :
    ∃ b, writeLoop host f offset iovs bytesWritten s =
        .ok (s.modify f fun x => x.setBuffer b, .ok (bytesWritten + (CIovec.concat iovs).length)) ∧
      b.toList = overlay 0 buffer.toList (offset + bytesWritten) (CIovec.concat iovs) := by
  have hmax : Buffer.maxSize = 2147483647 := rfl
  induction iovs generalizing bytesWritten s buffer with
  | nil =>
      refine ⟨buffer, ?_, (overlay_nil ..).symm⟩
      rw [State.setBuffer_self hb]
      rfl
  | cons iov iovs ih =>
      obtain ⟨hn, hne⟩ := hiovs iov List.mem_cons_self
      rw [CIovec.concat_cons, List.length_append] at hfits
      obtain ⟨b₁, hw, hlist⟩ := MemoryDataFile.write_fits buffer hne
        (o := offset + bytesWritten) (by omega)
      rw [← signed_low (by omega)] at hw
      have hb₁ := State.body_setBuffer (b := b₁) hb
      obtain ⟨b₂, hrest, hlist₂⟩ := ih (bytesWritten + iov.bytes.length) hb₁
        (fun iov' h' => hiovs iov' (.tail _ h')) (by omega)
      refine ⟨b₂, ?_, ?_⟩
      · rw [writeLoop_go (CIovec.readable hn) (addWillOverFlow_eq_false (by omega))
          (DataFile.write_memory hb hw) (by omega), hrest, State.setBuffer_setBuffer,
          CIovec.concat_cons, List.length_append, Nat.add_assoc]
      · rw [hlist₂, hlist, ← Nat.add_assoc, overlay_append, CIovec.concat_cons]

/-- The segments of a read come from the file as one. -/
theorem readLoop_slice (host : Host) (offset bytesRead : Nat) {iovs : List Iovec}
    (hb : (s.files f).body = .memory buffer) (hiovs : ∀ iov ∈ iovs, iov.isNull = false)
    (ho : offset + bytesRead < 9223372036854775808)
    (hin : bytesRead = 0 ∨ offset + bytesRead ≤ buffer.size) :
    readLoop host f offset iovs bytesRead s =
      .ok (s, .ok (bytesRead +
          (slice buffer.toList (offset + bytesRead) (Iovec.lengths iovs).sum).length,
        slice buffer.toList (offset + bytesRead) (Iovec.lengths iovs).sum)) := by
  have hmax : Buffer.maxSize = 2147483647 := rfl
  have hsize := buffer.size_le_max
  induction iovs generalizing bytesRead with
  | nil => simp [readLoop, Iovec.lengths]
  | cons iov iovs ih =>
      have hn := hiovs iov List.mem_cons_self
      have hlen := iov.len.toNat_lt
      have hr := MemoryDataFile.read_slice buffer ho hlen
      rw [← signed_low ho] at hr
      have hcount : (slice buffer.toList (offset + bytesRead) iov.len.toNat).length =
          min iov.len.toNat (buffer.size - (offset + bytesRead)) := length_slice ..
      rw [Iovec.lengths_cons, List.sum_cons]
      by_cases hshort : (slice buffer.toList (offset + bytesRead) iov.len.toNat).length <
          iov.len.toNat
      · have hend : buffer.size - (offset + bytesRead) ≤ iov.len.toNat := by omega
        rw [readLoop_short hn (DataFile.read_memory host hb hr) (by omega) hshort,
          slice_of_short _ _ _ _ hend]
      · have hfull : (slice buffer.toList (offset + bytesRead) iov.len.toNat).length =
            iov.len.toNat := by omega
        rw [hfull] at hr
        have hrest := ih (bytesRead + iov.len.toNat)
          (fun iov' h' => hiovs iov' (.tail _ h')) (by omega) (by omega)
        rw [readLoop_go hn (DataFile.read_memory host hb hr) (by omega) hrest,
          ← Nat.add_assoc offset, slice_append, ← slice_append _ _ iov.len.toNat,
          List.length_append, hfull, Nat.add_assoc]

/-! ## The calls -/

section

variable {o : OpenId} {fd : Nat} {setOffset : OffsetHandling} {e : Fault}

theorem writeAtOffset_eq_error {iovs : List CIovec} (ho : FileTable.getEntry s fd = some o)
    (hd : (s.files (s.descriptions o).file).isDataFile = true) :
    writeAtOffset host s setOffset fd iovs = .error e ↔
      writeLoop host (s.descriptions o).file (writeStart s o setOffset).2 iovs 0
        (writeStart s o setOffset).1 = .error e := by
  simp only [writeAtOffset, ho]
  rw [if_neg (by simp [hd])]
  split
  · rename_i hloop
    simp [hloop]
  · rename_i hloop
    simp [hloop]
  · rename_i hloop
    simp [hloop]

theorem readAtOffset_eq_error {iovs : List Iovec} (ho : FileTable.getEntry s fd = some o)
    (hd : (s.files (s.descriptions o).file).isDataFile = true) :
    readAtOffset host s setOffset fd iovs = .error e ↔
      readLoop host (s.descriptions o).file (readStart s o setOffset) iovs 0 s = .error e := by
  simp only [readAtOffset, ho]
  rw [if_neg (by simp [hd])]
  split
  · rename_i hloop
    simp [hloop]
  · rename_i hloop
    simp [hloop]
  · rename_i hloop
    simp [hloop]

theorem writeAtOffset_eq_ok (setOffset : OffsetHandling) (iovs : List CIovec) {n : Nat}
    (ho : FileTable.getEntry s fd = some o)
    (hd : (s.files (s.descriptions o).file).isDataFile = true)
    (hloop : writeLoop host (s.descriptions o).file (writeStart s o setOffset).2 iovs 0
      (writeStart s o setOffset).1 = .ok (s₁, .ok n)) :
    writeAtOffset host s setOffset fd iovs =
      .ok (if n ≠ 0 then
          (advance s₁ o setOffset (writeStart s o setOffset).2 n).updateMTime host
            (s.descriptions o).file
        else advance s₁ o setOffset (writeStart s o setOffset).2 n, .ok n) := by
  simp only [writeAtOffset, ho]
  rw [if_neg (by simp [hd]), hloop]

theorem writeAtOffset_eq_fail (setOffset : OffsetHandling) (iovs : List CIovec) {code : Int}
    (ho : FileTable.getEntry s fd = some o)
    (hd : (s.files (s.descriptions o).file).isDataFile = true)
    (hloop : writeLoop host (s.descriptions o).file (writeStart s o setOffset).2 iovs 0
      (writeStart s o setOffset).1 = .ok (s₁, .error code)) :
    writeAtOffset host s setOffset fd iovs = .ok (s₁, .error code) := by
  simp only [writeAtOffset, ho]
  rw [if_neg (by simp [hd]), hloop]

theorem readAtOffset_eq_fail (setOffset : OffsetHandling) {iovs : List Iovec} {code : Int}
    (ho : FileTable.getEntry s fd = some o)
    (hd : (s.files (s.descriptions o).file).isDataFile = true)
    (hloop : readLoop host (s.descriptions o).file (readStart s o setOffset) iovs 0 s =
      .ok (s₁, .error code)) : readAtOffset host s setOffset fd iovs = .ok (s₁, .error code) := by
  simp only [readAtOffset, ho]
  rw [if_neg (by simp [hd]), hloop]

theorem readAtOffset_eq_ok (setOffset : OffsetHandling) {iovs : List Iovec} {n : Nat}
    {bytes : List UInt8}
    (ho : FileTable.getEntry s fd = some o)
    (hd : (s.files (s.descriptions o).file).isDataFile = true)
    (hloop : readLoop host (s.descriptions o).file (readStart s o setOffset) iovs 0 s =
      .ok (s₁, .ok (n, bytes))) :
    readAtOffset host s setOffset fd iovs =
      .ok (advance s₁ o setOffset (readStart s o setOffset) n, .ok (n, bytes)) := by
  simp only [readAtOffset, ho]
  rw [if_neg (by simp [hd]), hloop]

end

end WasmFS
