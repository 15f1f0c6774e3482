import WasmFS.Data.Refinement
import WasmFS.Descriptors.Descriptions

/-!
# Positions

The position of a description on a regular file or a directory is a number below
2^63.  Each call through a description leaves it at the position that the reply
tells (`Call.sets`), and every other call leaves it alone.  There are two
exceptions.  `fd_readdir` keeps its place in a 32-bit `int`, and a write whose end
passes 2^63 copies out of its file and moves the position to a negative number.
So all this holds in runs that list no directory from 2^31 on and whose writes
stay inside their files (`positions_of_run`).
-/

namespace WasmFS

open Lists

variable {host : Host} {s s' : State} {r : Reply} {o : OpenId} {f : FileId} {buffer : Buffer}

/-! ## The ends of transfers -/

/-- A read that moves its place ends inside the file.  It changes nothing. -/
theorem readLoop_end {offset bytesRead n : Nat} {iovs : List Iovec} {bytes : List UInt8}
    (hb : (s.files f).body = .memory buffer) (ho : offset + bytesRead < 9223372036854775808)
    (hin : bytesRead = 0 ∨ offset + bytesRead ≤ buffer.size)
    (h : readLoop host f offset iovs bytesRead s = .ok (s', .ok (n, bytes))) :
    s' = s ∧ (n = 0 ∨ offset + n ≤ buffer.size) := by
  have hmax : Buffer.maxSize = 2147483647 := rfl
  have hsize := buffer.size_le_max
  induction iovs generalizing bytesRead bytes n with
  | nil =>
      cases h
      exact ⟨rfl, hin⟩
  | cons iov iovs ih =>
      have hr := MemoryDataFile.read_slice buffer ho iov.len.toNat_lt
      rw [← signed_low ho] at hr
      have hcount : (slice buffer.toList (offset + bytesRead) iov.len.toNat).length =
          min iov.len.toNat (buffer.size - (offset + bytesRead)) := length_slice ..
      simp only [readLoop, DataFile.read_memory host hb hr] at h
      generalize (slice buffer.toList (offset + bytesRead) iov.len.toNat).length = k at h hcount
      have hsum : u32 ((bytesRead : Int) + k) = bytesRead + k := by
        unfold u32
        omega
      have hnext : bytesRead + k = 0 ∨ offset + (bytesRead + k) ≤ buffer.size := by omega
      split at h
      · cases h
      rw [if_neg (by omega), hsum] at h
      split at h
      · cases h
        exact ⟨rfl, hnext⟩
      split at h
      · cases h
      · cases h
      · rename_i hloop
        cases h
        exact ih (by omega) hnext hloop

/-- A write that moves its place ends within the maximum size. -/
theorem writeLoop_end {offset bytesWritten n : Nat} {iovs : List CIovec}
    (hb : (s.files f).body = .memory buffer) (ho : offset + bytesWritten < 9223372036854775808)
    (hin : bytesWritten = 0 ∨ offset + bytesWritten ≤ Buffer.maxSize)
    (h : writeLoop host f offset iovs bytesWritten s = .ok (s', .ok n)) :
    (n = 0 ∨ offset + n ≤ Buffer.maxSize) ∧ ∃ b, (s'.files f).body = .memory b := by
  have hmax : Buffer.maxSize = 2147483647 := rfl
  induction iovs generalizing bytesWritten n s buffer with
  | nil =>
      cases h
      exact ⟨hin, buffer, hb⟩
  | cons iov iovs ih =>
      have hlen := iov.len_lt
      by_cases hfits : offset + bytesWritten + iov.bytes.length ≤ Buffer.maxSize
      · obtain ⟨b, hw, -⟩ := MemoryDataFile.write_place buffer iov.bytes hfits
        rw [← signed_low (by omega)] at hw
        have hsum : u32 ((bytesWritten : Int) + iov.bytes.length) =
            bytesWritten + iov.bytes.length := by
          unfold u32
          omega
        simp only [writeLoop, DataFile.write_memory hb hw, hsum] at h
        split at h
        · cases h
        rw [addWillOverFlow_eq_false (by omega), if_neg (by simp), if_neg (by omega),
          if_neg (by omega)] at h
        exact ih (State.body_setBuffer hb) (by omega) (by omega) h
      · -- the segment is refused, or its end wraps around
        have hover : addWillOverFlow offset bytesWritten = false :=
          addWillOverFlow_eq_false (by omega)
        by_cases hhigh : offset + bytesWritten + iov.bytes.length < 9223372036854775808
        · have hw := MemoryDataFile.write_full buffer (o := offset + bytesWritten) (by omega) hhigh
          rw [← signed_low (by omega)] at hw
          simp only [writeLoop, hover, DataFile.write_memory hb hw] at h
          rw [State.setBuffer_self hb] at h
          split at h
          · cases h
          rw [if_neg (by simp), if_pos (Errno.neg_lt_zero _)] at h
          split at h
          · cases h
            exact ⟨hin, buffer, hb⟩
          · cases h
        · have hw := MemoryDataFile.write_wraps buffer ho (by omega) hlen
          rw [← signed_low (by omega)] at hw
          simp only [writeLoop, hover, DataFile.write_memory_fault hb hw] at h
          split at h
          · cases h
          · rw [if_neg (by simp)] at h
            cases h

/-! ## Descriptions with a position -/

namespace State

/-- The description is of a regular file or of a directory. -/
def Stored (s : State) (o : OpenId) : Prop :=
  (s.files (s.descriptions o).file).buffer? ≠ none ∨ (s.files (s.descriptions o).file).isDirectory

/-- The position is an offset: it is not negative and has 63 bits. -/
def AtOffset (s : State) (o : OpenId) : Prop :=
  0 ≤ (s.descriptions o).position ∧ (s.descriptions o).position < 9223372036854775808

end State

/-- Where a write through the description starts. -/
def writePosition (s : State) (o : OpenId) : Int :=
  if hasFlag (s.descriptions o).flags O_APPEND ∧ (s.files (s.descriptions o).file).isDataFile then
    (s.files (s.descriptions o).file).getSize
  else (s.descriptions o).position

/-- The position at which a call through the description leaves it, as far as the
reply tells. -/
def Call.sets (s : State) (o : OpenId) (c : Call) (r : Reply) : Int :=
  match c, r.out with
  | .fd_seek _ _ _, .offset n => n
  | .fd_read _ _, .read n _ => (s.descriptions o).position + n
  | .fd_write _ _, .written n => writePosition s o + n
  | .fd_write _ _, _ => writePosition s o
  | .fd_readdir _ _, .records _ records => (s.descriptions o).position + records.length
  | _, _ => (s.descriptions o).position

/-! ## Transfers -/

theorem readAtOffset_position {fd : Nat} {iovs : List Iovec}
    {out : Except Int (Nat × List UInt8)} (ho : FileTable.getEntry s fd = some o)
    (hstored : s.Stored o) (hat : s.AtOffset o)
    (h : readAtOffset host s .openFileState fd iovs = .ok (s', out)) :
    s'.AtOffset o ∧
      ((∃ code, out = .error code ∧
          (s'.descriptions o).position = (s.descriptions o).position) ∨
        ∃ n bytes, out = .ok (n, bytes) ∧
          (s'.descriptions o).position = (s.descriptions o).position + n) := by
  have hmax : Buffer.maxSize = 2147483647 := rfl
  obtain ⟨hlow, hhigh⟩ := id hat
  simp only [readAtOffset, ho] at h
  split at h
  · cases h
    exact ⟨hat, Or.inl ⟨_, rfl, rfl⟩⟩
  rename_i hdata
  rcases hstored with hbuffer | hdir
  swap
  · exact absurd hdir (File.not_isDirectory_of_isDataFile (not_not.mp hdata))
  obtain ⟨buffer, hbuffer⟩ := Option.ne_none_iff_exists'.mp hbuffer
  have hb := File.body_of_buffer? hbuffer
  have hsize := buffer.size_le_max
  have hstart : readStart s o .openFileState = (s.descriptions o).position.toNat := by
    simp only [readStart]
    unfold u64
    omega
  rw [hstart] at h
  split at h
  · cases h
  · rename_i hloop
    cases h
    have hd : s'.descriptions = s.descriptions :=
      Confined.descriptions_eq fun _ => readLoop_confined hloop
    simp only [State.AtOffset, hd]
    exact ⟨hat, Or.inl ⟨_, rfl, trivial⟩⟩
  · rename_i s₁ n bytes hloop
    cases h
    obtain ⟨rfl, hend⟩ := readLoop_end hb (by omega) (Or.inl rfl) hloop
    rw [advance_openFileState hb (by omega)]
    simp only [State.AtOffset, State.modifyOpen_self]
    exact ⟨by omega, Or.inr ⟨n, bytes, rfl, by omega⟩⟩

/-- A write starts where `writePosition` says, and the description is there by then. -/
theorem writeStart_position (hdata : (s.files (s.descriptions o).file).isDataFile)
    (hb : (s.files (s.descriptions o).file).body = .memory buffer) (hat : s.AtOffset o) :
    (writeStart s o .openFileState).2 = (writePosition s o).toNat ∧
      (0 ≤ writePosition s o ∧ writePosition s o < 9223372036854775808) ∧
      ((writeStart s o .openFileState).1.descriptions o).position = writePosition s o ∧
      ((writeStart s o .openFileState).1.descriptions o).file = (s.descriptions o).file := by
  have hmax : Buffer.maxSize = 2147483647 := rfl
  have hsize := buffer.size_le_max
  obtain ⟨hlow, hhigh⟩ := hat
  simp only [writeStart, writePosition]
  split
  · rename_i happend
    rw [if_pos ⟨happend, hdata⟩]
    simp only [State.modifyOpen_self, File.getSize, hb]
    refine ⟨?_, ⟨by omega, by omega⟩, trivial, trivial⟩
    unfold u64
    omega
  · rename_i happend
    rw [if_neg fun h => happend h.1]
    refine ⟨?_, ⟨hlow, hhigh⟩, rfl, rfl⟩
    simp only [u64]
    omega

theorem writeAtOffset_position {fd : Nat} {iovs : List CIovec} {out : Except Int Nat}
    (ho : FileTable.getEntry s fd = some o) (hstored : s.Stored o) (hat : s.AtOffset o)
    (h : writeAtOffset host s .openFileState fd iovs = .ok (s', out)) :
    s'.AtOffset o ∧
      ((∃ code, out = .error code ∧ (s'.descriptions o).position = writePosition s o) ∨
        ∃ n, out = .ok n ∧ (s'.descriptions o).position = writePosition s o + n) := by
  have hmax : Buffer.maxSize = 2147483647 := rfl
  simp only [writeAtOffset, ho] at h
  split at h
  · rename_i hdata
    cases h
    refine ⟨hat, Or.inl ⟨_, rfl, ?_⟩⟩
    simp only [writePosition]
    rw [if_neg fun happend => hdata happend.2]
  rename_i hdata
  have hdata := not_not.mp hdata
  rcases hstored with hbuffer | hdir
  swap
  · exact absurd hdir (File.not_isDirectory_of_isDataFile hdata)
  obtain ⟨buffer, hbuffer⟩ := Option.ne_none_iff_exists'.mp hbuffer
  have hb := File.body_of_buffer? hbuffer
  have hsize := buffer.size_le_max
  obtain ⟨hoffset, ⟨hpos, hlt⟩, hposition, hfile⟩ := writeStart_position hdata hb hat
  have hb₀ : ((writeStart s o .openFileState).1.files (s.descriptions o).file).body =
      .memory buffer := by
    rw [writeStart_files]
    exact hb
  rw [hoffset] at h
  split at h
  · cases h
  · rename_i hloop
    cases h
    have hd := Confined.descriptions_eq fun _ => writeLoop_confined hloop
    simp only [State.AtOffset, hd, hposition]
    exact ⟨⟨hpos, hlt⟩, Or.inl ⟨_, rfl, trivial⟩⟩
  · rename_i s₁ n hloop
    have hd := Confined.descriptions_eq fun _ => writeLoop_confined hloop
    obtain ⟨hend, b, hb₁⟩ := writeLoop_end hb₀ (by omega) (Or.inl rfl) hloop
    have hbody : (s₁.files (s₁.descriptions o).file).body = .memory b := by
      rw [hd, hfile]
      exact hb₁
    rw [advance_openFileState hbody (by omega)] at h
    have hstamp : s'.descriptions o = ((s₁.modifyOpen o fun x =>
        { x with position := ((writePosition s o).toNat + n : Nat) }).descriptions o) ∧
        out = .ok n := by
      cases h
      split <;> exact ⟨rfl, rfl⟩
    simp only [State.AtOffset, hstamp.1, State.modifyOpen_self]
    exact ⟨by omega, Or.inr ⟨n, hstamp.2, by omega⟩⟩

/-! ## Listing -/

/-- The loop over the entries of a directory counts right as long as its index does
not reach 2^31. -/
theorem readEntries_index (dirents : List Dirent) (count fuel : Nat) {i b : Nat}
    (hi : i < 2147483648)
    (hlast : dirents.length < 2147483648 ∨
      i + (count - b) / Syscall.sizeofDirent < 2147483648) :
    (Syscall.readEntries dirents count fuel i b).2.1 =
        i + (Syscall.readEntries dirents count fuel i b).1.length ∧
      (Syscall.readEntries dirents count fuel i b).2.1 < 2147483648 ∧
      (dirents.length ≤ i → (Syscall.readEntries dirents count fuel i b).1 = []) := by
  have hat : u32 (i : Int) = i := u32_of_lt (by omega)
  induction fuel generalizing i b with
  | zero => exact ⟨(Int.add_zero _).symm, Int.ofNat_lt.mpr hi, fun _ => rfl⟩
  | succ fuel ih =>
      simp only [Syscall.readEntries, hat]
      split
      · exact ⟨(Int.add_zero _).symm, Int.ofNat_lt.mpr hi, fun _ => rfl⟩
      · rename_i entry hentry
        obtain ⟨hin, -⟩ := List.getElem?_eq_some_iff.mp hentry
        split
        · rename_i hroom
          simp only [Syscall.sizeofDirent] at hlast hroom
          have hnext : s32 ((i : Int) + 1) = (i + 1 : Nat) := by
            rw [s32_of_mem (by omega) (by omega)]
            rfl
          have hbytes : (b : Int) + Syscall.sizeofDirent = (b + 280 : Nat) := rfl
          obtain ⟨hend, hlt, -⟩ := @ih (i + 1) (b + 280) (by omega)
            (by simp only [Syscall.sizeofDirent]; omega) (u32_of_lt (by omega))
          simp only [hnext, hbytes, List.length_cons]
          refine ⟨hend.trans ?_, hlt, fun hle => absurd hin (Nat.not_lt_of_le hle)⟩
          omega
        · exact ⟨(Int.add_zero _).symm, Int.ofNat_lt.mpr hi, fun _ => rfl⟩

/-- A linked directory is not listed from 2^31 on, nor up to there. -/
def Call.ListsBelow (s : State) : Call → Prop
  | .fd_readdir fd bufLen => ∀ o, FileTable.getEntry s fd.toNat = some o →
      (s.files (s.descriptions o).file).isDirectory →
      s.tree.forest.Linked (s.descriptions o).file → Syscall.sizeofDirent ≤ bufLen.toNat →
      (s.descriptions o).position < 2147483648 ∧
        ((s.descriptions o).dirents.length < 2147483648 ∨
          (s.descriptions o).position + (bufLen.toNat / Syscall.sizeofDirent : Nat) < 2147483648)
  | _ => True

/-- The call wraps no position.  A write that leaves the buffer of its file is left
out here: after the copy there is no state to speak of. -/
structure Call.KeepsPosition (s : State) (c : Call) : Prop where
  lists : c.ListsBelow s
  inside : ∀ {fd o buffer}, c.descriptor? = some fd → FileTable.getEntry s fd.toNat = some o →
    (s.files (s.descriptions o).file).buffer? = some buffer →
    c.WritesInside (s.descriptions o) buffer.size

namespace Export

theorem fd_readdir_position {fd bufLen : UInt32} (ho : FileTable.getEntry s fd.toNat = some o)
    (hat : s.AtOffset o) (hc : (Call.fd_readdir fd bufLen).ListsBelow s)
    (hok : fd_readdir s fd bufLen = .ok (s', r)) :
    s'.AtOffset o ∧ ∃ n records, r.out = .records n records ∧
      (s'.descriptions o).position = (s.descriptions o).position + records.length ∧
      ((s.descriptions o).dirents.length ≤ (s.descriptions o).position → records = []) := by
  obtain ⟨hlow, hhigh⟩ := id hat
  simp only [fd_readdir, Syscall.getdents64, ho] at hok
  split at hok
  · cases hok
    exact ⟨hat, _, [], rfl, (Int.add_zero _).symm, fun _ => rfl⟩
  rename_i hroom
  split at hok
  · cases hok
    exact ⟨hat, _, [], rfl, (Int.add_zero _).symm, fun _ => rfl⟩
  rename_i hdir
  split at hok
  · cases hok
    exact ⟨hat, _, [], rfl, (Int.add_zero _).symm, fun _ => rfl⟩
  rename_i parent hparent
  have hlinked : s.tree.forest.Linked (s.descriptions o).file := fun hnone =>
    Option.some_ne_none parent (hparent.symm.trans hnone)
  obtain ⟨hlt, hlast⟩ := hc o ho (not_not.mp hdir) hlinked (by
    simp only [Syscall.sizeofDirent] at hroom ⊢
    omega)
  obtain ⟨i, hi⟩ := Int.eq_ofNat_of_zero_le hlow
  rw [hi] at hlt hlast hok ⊢
  obtain ⟨hend, hend_lt, hnone⟩ := readEntries_index (s.descriptions o).dirents bufLen.toNat
    ((s.descriptions o).dirents.length + 1) (i := i) (b := 0) (by omega) (by
      rw [Nat.sub_zero]
      omega)
  rw [Int.natCast_zero] at hend hend_lt hnone
  rw [s32_of_mem (by omega) (by omega)] at hok
  cases hok
  refine ⟨?_, _, _, rfl, ?_, fun hle => hnone (by omega)⟩
  · simp only [State.AtOffset, State.modifyOpen_self]
    refine ⟨?_, Int.lt_trans hend_lt (by decide)⟩
    exact le_of_le_of_eq (Int.natCast_nonneg (i + _)) hend.symm
  · rw [State.modifyOpen_self]
    exact hend

theorem fd_seek_position {fd : UInt32} {offset : Int64} {whence : UInt8}
    (ho : FileTable.getEntry s fd.toNat = some o) (hat : s.AtOffset o)
    (hok : fd_seek s fd offset whence = .ok (s', r)) :
    s'.AtOffset o ∧ ((r.out = .nothing ∧ s' = s) ∨
      ∃ n, r.out = .offset n ∧ (s'.descriptions o).position = n) := by
  have hoffset := offset.toInt_lt
  have hrange : Syscall.seekPosition s o offset.toInt whence.toNat < 9223372036854775808 := by
    simp only [Syscall.seekPosition, s64]
    split
    · exact hoffset
    split
    · omega
    · omega
  simp only [fd_seek, Syscall.seek, ho] at hok
  split at hok <;> rename_i hseek
  · cases hok
    split at hseek
    · cases hseek
      exact ⟨hat, Or.inl ⟨rfl, rfl⟩⟩
    split at hseek
    · cases hseek
      exact ⟨hat, Or.inl ⟨rfl, rfl⟩⟩
    split at hseek
    · cases hseek
      exact ⟨hat, Or.inl ⟨rfl, rfl⟩⟩
    · cases hseek
  · cases hok
    split at hseek
    · cases hseek
    split at hseek
    · cases hseek
    split at hseek
    · cases hseek
    rename_i hnonneg
    cases hseek
    simp only [State.AtOffset, State.modifyOpen_self]
    refine ⟨⟨by omega, hrange⟩, Or.inr ⟨_, rfl, ?_⟩⟩
    unfold u64
    omega

end Export

/-! ## Calls -/

/-- A call through a description leaves it where the reply tells. -/
theorem exec_sets {c : Call} {fd : UInt32} (hd : c.descriptor? = some fd)
    (ho : FileTable.getEntry s fd.toNat = some o) (hstored : s.Stored o) (hat : s.AtOffset o)
    (hc : c.ListsBelow s) (hok : exec host s c = .ok (s', r)) :
    s'.AtOffset o ∧ (s'.descriptions o).position = c.sets s o r := by
  cases hmoves : c.movesPosition with
  | false =>
      have hsame := exec_descriptions hd hmoves hok
      have hsets : c.sets s o r = (s.descriptions o).position := by
        cases c with
        | fd_read | fd_write | fd_readdir | fd_seek => cases hmoves
        | _ => rfl
      simp only [State.AtOffset, hsame, hsets]
      exact ⟨hat, trivial⟩
  | true =>
      cases c with
      | fd_read fd' iovs =>
          cases hd
          obtain ⟨out, hread⟩ := Export.readReply_ok hok
          obtain ⟨hat', hcases⟩ := readAtOffset_position ho hstored hat hread
          refine ⟨hat', ?_⟩
          simp only [exec, Export.fd_read, hread] at hok
          rcases hcases with ⟨code, rfl, hp⟩ | ⟨n, bytes, rfl, hp⟩ <;> cases hok <;> exact hp
      | fd_write fd' iovs =>
          cases hd
          obtain ⟨out, hwrite⟩ := Export.writeReply_ok hok
          obtain ⟨hat', hcases⟩ := writeAtOffset_position ho hstored hat hwrite
          refine ⟨hat', ?_⟩
          simp only [exec, Export.fd_write, hwrite] at hok
          rcases hcases with ⟨code, rfl, hp⟩ | ⟨n, rfl, hp⟩ <;> cases hok <;> exact hp
      | fd_readdir fd' bufLen =>
          cases hd
          obtain ⟨hat', n, records, hr, hp, -⟩ := Export.fd_readdir_position ho hat hc hok
          refine ⟨hat', ?_⟩
          simp only [Call.sets, hr]
          exact hp
      | fd_seek fd' offset whence =>
          cases hd
          obtain ⟨hat', ⟨hr, rfl⟩ | ⟨n, hr, hp⟩⟩ := Export.fd_seek_position ho hat hok
          · refine ⟨hat', ?_⟩
            simp only [Call.sets, hr]
          · refine ⟨hat', ?_⟩
            simp only [Call.sets, hr]
            exact hp
      | _ => cases hmoves

/-- A call that does not work through a description does not move it. -/
theorem exec_keepsPosition {c : Call} (h : s.tree.WF) (hslots : SlotsExist s)
    (hother : ∀ fd, c.descriptor? = some fd → FileTable.getEntry s fd.toNat ≠ some o)
    (ho : some o ∈ s.table) (ho' : some o ∈ s'.table) (hok : exec host s c = .ok (s', r)) :
    (s'.descriptions o).position = (s.descriptions o).position := by
  cases hd : c.descriptor? with
  | some fd =>
      cases hfd : FileTable.getEntry s fd.toNat with
      | none => rw [exec_of_empty hd hfd hok]
      | some x =>
          have hne : o ≠ x := by
            rintro rfl
            exact hother fd hd hfd
          rw [(exec_confined hd hfd hok).descriptions o hne]
  | none =>
      cases hc : c.setsSlot with
      | false => rw [(exec_unnamed h hd hc hok).descriptions]
      | true =>
          cases exec_described h hslots hc hok ho' with
          | old _ hdesc => rw [hdesc]
          | new heq _ _ =>
              obtain ⟨fd, hfd⟩ := FileTable.mem_table_iff.mp ho
              exact absurd (hslots hfd) (heq ▸ Nat.lt_irrefl _)

/-- A description that comes into the table starts at 0. -/
theorem exec_starts {c : Call} (h : s.tree.WF) (hslots : SlotsExist s) (ho : some o ∉ s.table)
    (ho' : some o ∈ s'.table) (hok : exec host s c = .ok (s', r)) :
    (s'.descriptions o).position = 0 := by
  cases hc : c.setsSlot with
  | false =>
      rw [(exec_keepsTable h hc hok).table] at ho'
      exact absurd ho' ho
  | true =>
      cases exec_described h hslots hc hok ho' with
      | old hmem _ => exact absurd hmem ho
      | new _ hposition _ => exact hposition

/-! ## Runs -/

/-- From a state on, positions are offsets and do not wrap. -/
structure PositionsHold (host : Host) (ok : State → Call → Prop) (s : State) : Prop where
  range : ∀ {o}, some o ∈ s.table → s.Stored o → s.AtOffset o
  /-- Past the last entry a listing is empty and stays where it is. -/
  exhausted : ∀ {fd bufLen : UInt32} {o s' r}, ok s (.fd_readdir fd bufLen) →
    FileTable.getEntry s fd.toNat = some o → (s.files (s.descriptions o).file).isDirectory →
    s.tree.forest.Linked (s.descriptions o).file →
    (s.descriptions o).dirents.length ≤ (s.descriptions o).position →
    exec host s (.fd_readdir fd bufLen) = .ok (s', r) →
    (∃ n, r.out = .records n []) ∧ (s'.descriptions o).position = (s.descriptions o).position
  /-- `fd_tell` reports the position. -/
  tell : ∀ {fd : UInt32} {o}, FileTable.getEntry s fd.toNat = some o → s.Stored o →
    ∃ n : Nat, exec host s (.fd_tell fd) = .ok (s, ⟨0, .offset n⟩) ∧ (s.descriptions o).position = n
  /-- A call through the description sets the position that its reply tells. -/
  sets : ∀ {c : Call} {fd o s' r}, ok s c → c.descriptor? = some fd →
    FileTable.getEntry s fd.toNat = some o → s.Stored o → exec host s c = .ok (s', r) →
    (s'.descriptions o).position = c.sets s o r
  /-- No other call sets it. -/
  keeps : ∀ {c : Call} {o s' r},
    (∀ fd, c.descriptor? = some fd → FileTable.getEntry s fd.toNat ≠ some o) →
    some o ∈ s.table → some o ∈ s'.table → exec host s c = .ok (s', r) →
    (s'.descriptions o).position = (s.descriptions o).position
  starts : ∀ {c : Call} {o s' r}, some o ∉ s.table → some o ∈ s'.table →
    exec host s c = .ok (s', r) → (s'.descriptions o).position = 0

/-- The positions of the descriptions in the table are offsets. -/
def OffsetsInvariant (s : State) : Prop := ∀ o, some o ∈ s.table → s.Stored o → s.AtOffset o

theorem State.stored_iff : s.Stored o ↔ (s.tree.node (s.descriptions o).file).isRegular ∨
    (s.tree.node (s.descriptions o).file).isDirectory := by
  rw [State.tree_node, File.isRegular_iff, File.node_isDirectory]
  exact Iff.rfl

/-- What a description is of does not change. -/
theorem Step.stored {c : Call} (hstep : Step host s c s') (h : s.tree.WF) (hfiles : FilesExist s)
    (ho : some o ∈ s.table) (hfile : (s'.descriptions o).file = (s.descriptions o).file)
    (hstored : s'.Stored o) : s.Stored o := by
  have hpersists := hstep.persists h (hfiles o ho)
  rw [State.stored_iff, hfile, hpersists.isRegular, hpersists.isDirectory] at hstored
  exact State.stored_iff.mpr hstored

theorem OffsetsInvariant.step {c : Call} (hi : OffsetsInvariant s) (h : s.tree.WF)
    (hslots : SlotsExist s) (hfiles : FilesExist s) (hc : c.ListsBelow s)
    (hstep : Step host s c s') : OffsetsInvariant s' := by
  obtain ⟨r, hok⟩ := id hstep
  intro o ho' hstored'
  cases hsets : c.setsSlot with
  | true =>
      cases exec_described h hslots hsets hok ho' with
      | old hmem hd =>
          have hat := hi o hmem (hstep.stored h hfiles hmem (by rw [hd]) hstored')
          simp only [State.AtOffset, hd]
          exact hat
      | new _ hposition _ =>
          simp only [State.AtOffset, hposition]
          decide
  | false =>
      have hk := exec_keepsTable h hsets hok
      have ho := ho'
      rw [hk.table] at ho
      obtain ⟨fd, hfd⟩ := FileTable.mem_table_iff.mp ho
      obtain ⟨position, hd⟩ := hk.old o (hslots hfd)
      have hstored := hstep.stored h hfiles ho (by rw [hd]) hstored'
      have hat := hi o ho hstored
      by_cases hthrough : ∃ fd, c.descriptor? = some fd ∧ FileTable.getEntry s fd.toNat = some o
      · obtain ⟨fd, hfd, hentry⟩ := hthrough
        exact (exec_sets hfd hentry hstored hat hc hok).1
      · have hkeeps := exec_keepsPosition h hslots
          (fun fd hfd hentry => hthrough ⟨fd, hfd, hentry⟩) ho ho' hok
        simp only [State.AtOffset, hkeeps]
        exact hat

/-- In every state that a run reaches in which no directory is listed from 2^31 on and
no write leaves its file, positions are offsets. -/
theorem positions_of_run (h : ReachableBy host Call.KeepsPosition s) :
    PositionsHold host Call.KeepsPosition s := by
  have hinv : Reachable host s ∧ OffsetsInvariant s := by
    refine h.invariant (I := fun s => Reachable host s ∧ OffsetsInvariant s) ?_ ?_
    · refine ⟨.refl, fun o ho _ => ?_⟩
      have hposition := (init_descriptions host (standardStream_iff.mp ho)).2
      simp only [State.AtOffset, hposition]
      decide
    · intro s₁ c s₂ h₁ hc hstep
      obtain ⟨hreach, hoffsets⟩ := h₁
      exact ⟨hreach.tail trivial hstep,
        hoffsets.step hreach.wf hreach.usesBalance.exist hreach.filesExist hc.lists hstep⟩
  obtain ⟨hreach, hoffsets⟩ := hinv
  have hslots : SlotsExist s := hreach.usesBalance.exist
  have hat : ∀ {fd : Nat} {o}, FileTable.getEntry s fd = some o → s.Stored o → s.AtOffset o :=
    fun {fd o} ho hstored => hoffsets o (FileTable.mem_table_iff.mpr ⟨fd, ho⟩) hstored
  refine ⟨fun {o} ho hstored => hoffsets o ho hstored, ?_, ?_, ?_, ?_, ?_⟩
  · intro fd bufLen o s' r hc ho hdir _ hle hok
    obtain ⟨-, n, records, hr, hp, hnone⟩ := Export.fd_readdir_position ho (hat ho (Or.inr hdir))
      hc.lists hok
    have hnil := hnone hle
    subst hnil
    exact ⟨⟨n, hr⟩, hp.trans (Int.add_zero _)⟩
  · intro fd o ho hstored
    obtain ⟨hlow, hhigh⟩ := hat ho hstored
    refine ⟨u64 (s.descriptions o).position, ?_, ?_⟩
    · simp only [exec, Export.fd_tell, ho]
    · unfold u64
      omega
  · intro c fd o s' r hc hd ho hstored hok
    exact (exec_sets hd ho hstored (hat ho hstored) hc.lists hok).2
  · intro c o s' r hother ho ho' hok
    exact exec_keepsPosition hreach.wf hslots hother ho ho' hok
  · intro c o s' r ho ho' hok
    exact exec_starts hreach.wf hslots ho ho' hok

theorem positions_seek : ∃ s replies,
    afterRun [.path_open atFdCwd [slash] 0, .fd_seek 3 1099511627776 0] = .ok (s, replies) ∧
    (s.descriptions 3).position = 1099511627776 ∧ PositionsHold .still Call.KeepsPosition s := by
  obtain ⟨s, replies, hok, hposition⟩ :
      Returns (afterRun [.path_open atFdCwd [slash] 0, .fd_seek 3 1099511627776 0]) fun s _ =>
        (s.descriptions 3).position = 1099511627776 := by
    decide +kernel
  refine ⟨s, replies, hok, hposition, positions_of_run (.of_afterRun ?_ hok)⟩
  intro c hc s
  simp only [List.mem_cons, List.not_mem_nil, or_false] at hc
  rcases hc with rfl | rfl
  · exact ⟨trivial, fun _ _ _ => trivial⟩
  · exact ⟨trivial, fun _ _ _ => trivial⟩

/-- A listing of the root from 2^31 on leaves its position negative. -/
theorem not_positions_readdir : ¬ ∀ (host : Host) (s : State), Reachable host s →
    PositionsHold host (fun _ _ => True) s := by
  intro hall
  obtain ⟨s, replies, hok, hmem, hdir, hposition⟩ :
      Returns (afterRun [.path_open atFdCwd [slash] 0, .fd_seek 3 2147483648 0,
        .fd_readdir 3 280]) fun s _ =>
          some 3 ∈ s.table ∧ (s.files (s.descriptions 3).file).isDirectory ∧
          (s.descriptions 3).position = -2147483648 := by
    decide +kernel
  obtain ⟨hlow, -⟩ := (hall .still s (.of_afterRun hok)).range hmem (Or.inr hdir)
  rw [hposition] at hlow
  exact absurd hlow (by decide)

end WasmFS
