import WasmFS.Data.Loops
import WasmFS.Source.Init

/-!
# Setting sizes

`fd_filestat_set_size` and `fd_allocate` resize the vector of a memory file.  The size
they ask for is an `off_t` of 63 bits, and `resize` takes a `size_t` of 32 bits.  A size
from 2^32 on is cut to 32 bits on the way, so the file shrinks to what is left.  The end
of an allocation is a sum of two `off_t`.  From 2^63 on it wraps around to a negative
number, and the call reports success without growing the file.  Up to these two cases a
size is set exactly (`sizesExactly_iff`).
-/

namespace WasmFS

open Lists

variable {host : Host} {s : State} {f : FileId} {buffer : Buffer}

/-! ## Sizes -/

/-- `new` has `size` bytes, those that `old` has and zeros after its end. -/
structure SizedTo (old new : List UInt8) (size : Int) : Prop where
  length : (new.length : Int) = size
  kept : ∀ i, i < old.length → i < new.length → new[i]? = old[i]?
  zeros : ∀ i, old.length ≤ i → i < new.length → new[i]? = some 0

theorem SizedTo.refl (old : List UInt8) : SizedTo old old old.length :=
  ⟨rfl, fun _ _ _ => rfl, fun _ hle hlt => absurd hlt (Nat.not_lt_of_le hle)⟩

theorem sizedTo_resize (old : List UInt8) (n : Nat) : SizedTo old (resize 0 old n) n where
  length := by rw [length_resize]
  kept i hi hn := by
    rw [length_resize] at hn
    rw [getElem?_resize, if_pos hn, List.getElem?_eq_getElem hi]
    rfl
  zeros i hi hn := by
    rw [length_resize] at hn
    rw [getElem?_resize, if_pos hn, List.getElem?_eq_none hi]
    rfl

/-- The size is its own conversion to `size_t`, or the conversion of an `off_t` that no
vector can have. -/
def SizeFits (size : Int) : Prop :=
  size < 4294967296 ∨ (size < 9223372036854775808 ∧ Buffer.maxSize < u32 size)

/-! ## Calls -/

/-- The descriptor of a call that sets the size of its file. -/
def Call.resizes? : Call → Option UInt32
  | .fd_filestat_set_size fd _ => some fd
  | .fd_allocate fd _ _ => some fd
  | _ => none

/-- The call is refused because of its arguments. -/
def Call.MisSized : Call → Prop
  | .fd_filestat_set_size _ size => size.toInt < 0
  | .fd_allocate _ offset len => offset.toInt < 0 ∨ len.toInt ≤ 0
  | _ => False

/-- The size that the call asks for if the file has `old` bytes. -/
def Call.sizeAsked (old : Nat) : Call → Int
  | .fd_filestat_set_size _ size => size.toInt
  | .fd_allocate _ offset len => max old (offset.toInt + len.toInt)
  | _ => old

/-- If the call returns, then it has set the size of the file `f` with the bytes `buffer`
or reports an error and leaves the bytes as they are. -/
def Resizes (f : FileId) (buffer : Buffer) (size : Int) (result : Result) : Prop :=
  ∀ s' r, result = .ok (s', r) → ∃ b, (s'.files f).buffer? = some b ∧
    (r.errno = 0 → SizedTo buffer.toList b.toList size) ∧ (r.errno ≠ 0 → b = buffer)

/-- The call sets the size of the file `f` to exactly what it asks for. -/
def SizesExactly (host : Host) (s : State) (f : FileId) (buffer : Buffer) (c : Call) : Prop :=
  Resizes f buffer (c.sizeAsked buffer.size) (exec host s c)

theorem Resizes.of_error (f : FileId) (buffer : Buffer) (size : Int) (e : Fault) :
    Resizes f buffer size (.error e) := fun _ _ h => nomatch h

/-- An error that leaves the state alone. -/
theorem Resizes.of_refused (hbuffer : (s.files f).buffer? = some buffer) (size : Int) {r : Reply}
    (hr : r.errno ≠ 0) : Resizes f buffer size (.ok (s, r)) := by
  intro s' r' h
  cases h
  exact ⟨buffer, hbuffer, fun h0 => absurd h0 hr, fun _ => rfl⟩

/-- A success that leaves the state alone asked for the size that the file has. -/
theorem resizes_unchanged_iff (hbuffer : (s.files f).buffer? = some buffer) {size : Int} :
    Resizes f buffer size (.ok (s, ⟨0, .nothing⟩)) ↔ (buffer.size : Int) = size := by
  constructor
  · intro h
    obtain ⟨b, hb, hsized, -⟩ := h s _ rfl
    cases hbuffer.symm.trans hb
    exact (hsized rfl).length
  · rintro rfl s' r h
    cases h
    exact ⟨buffer, hbuffer, fun _ => .refl _, fun _ => rfl⟩

/-! ## `setSize` -/

/-- The size is converted to `size_t` first. -/
theorem MemoryDataFile.resize_u32 (buffer : Buffer) {size : Int} (h : u32 size ≤ Buffer.maxSize) :
    ∃ b, resize buffer size = .ok b ∧ b.toList = Lists.resize 0 buffer.toList (u32 size) := by
  simp only [resize]
  cases hb : buffer.resize? 0 (u32 size) with
  | none =>
      have hsome := (buffer.resize?_isSome 0 (u32 size)).mpr h
      rw [hb] at hsome
      cases hsome
  | some b => exact ⟨b, rfl, Vec.toList_of_resize? hb⟩

theorem MemoryDataFile.resize_lengthError (buffer : Buffer) {size : Int}
    (h : Buffer.maxSize < u32 size) : resize buffer size = .error .lengthError := by
  simp only [resize]
  cases hb : buffer.resize? 0 (u32 size) with
  | none => rfl
  | some b =>
      have hle := (buffer.resize?_isSome 0 (u32 size)).mp (Option.isSome_iff_exists.mpr ⟨b, hb⟩)
      exact absurd h (Nat.not_lt_of_le hle)

/-- What a system call leaves and returns, as an export returns it. -/
def sizeReply : SysResult → Result
  | .error e => .error e
  | .ok (s, ret) => .ok (s, ⟨u16 ret, .nothing⟩)

/-- `setSize` sets the size exactly if it fits. -/
theorem setSize_resizes_iff (hb : (s.files f).body = .memory buffer) {size : Int}
    (h0 : 0 ≤ size) (hoff : size < 9223372036854775808) :
    Resizes f buffer size (sizeReply (DataFile.setSize s f size)) ↔ SizeFits size := by
  have hmax : Buffer.maxSize = 2147483647 := rfl
  by_cases hfits : u32 size ≤ Buffer.maxSize
  · obtain ⟨b, hresize, hlist⟩ := MemoryDataFile.resize_u32 buffer hfits
    have hset : DataFile.setSize s f size = .ok (s.modify f fun x => x.setBuffer b, 0) := by
      simp only [DataFile.setSize, hb, hresize]
    have hbody := File.buffer?_of_memory (State.body_setBuffer (b := b) hb)
    have hsized := sizedTo_resize buffer.toList (u32 size)
    rw [← hlist] at hsized
    rw [hset]
    constructor
    · intro h
      obtain ⟨b', hb', hsized', -⟩ := h _ _ rfl
      cases hbody.symm.trans hb'
      have hlen := hsized.length.symm.trans (hsized' rfl).length
      exact Or.inl (by omega)
    · rintro (hlt | ⟨-, hgt⟩)
      · intro s' r h
        cases h
        have hsame : (u32 size : Int) = size := by
          unfold u32
          omega
        rw [hsame] at hsized
        exact ⟨b, hbody, fun _ => hsized, fun hr => absurd rfl hr⟩
      · exact absurd hgt (Nat.not_lt_of_le hfits)
  · have hgt := Nat.lt_of_not_le hfits
    have hset : DataFile.setSize s f size = .error .lengthError := by
      simp only [DataFile.setSize, hb, MemoryDataFile.resize_lengthError buffer hgt]
    rw [hset]
    exact ⟨fun _ => Or.inr ⟨hoff, hgt⟩, fun _ => .of_error f buffer size _⟩

/-! ## The calls -/

section

variable {fd : UInt32} {o : OpenId}

/-- `fd_filestat_set_size` on a writable memory file. -/
theorem fd_filestat_set_size_eq (ho : FileTable.getEntry s fd.toNat = some o)
    (hb : (s.files (s.descriptions o).file).body = .memory buffer)
    (hw : (s.files (s.descriptions o).file).writable) (size : Int64) :
    Export.fd_filestat_set_size s fd size =
      if size.toInt < 0 then .ok (s, ⟨u16 Errno.inval.neg, .nothing⟩)
      else sizeReply (DataFile.setSize s (s.descriptions o).file size.toInt) := by
  have hdata := File.isDataFile_of_memory hb
  simp only [Export.fd_filestat_set_size, Syscall.ftruncate64, ho, Syscall.doTruncate, hdata, hw]
  by_cases hneg : size.toInt < 0
  · rw [if_pos hneg, if_pos hneg]
    rfl
  · rw [if_neg hneg, if_neg hneg]
    simp only [DataFile.setSize, hb]
    cases MemoryDataFile.resize buffer size.toInt <;> rfl

/-- `fd_allocate` on a writable memory file.  The end is computed as an `off_t`. -/
theorem fd_allocate_eq (ho : FileTable.getEntry s fd.toNat = some o)
    (hb : (s.files (s.descriptions o).file).body = .memory buffer)
    (hw : (s.files (s.descriptions o).file).writable) (offset len : Int64) :
    Export.fd_allocate s fd offset len =
      if offset.toInt < 0 ∨ len.toInt ≤ 0 then .ok (s, ⟨u16 Errno.inval.neg, .nothing⟩)
      else if s64 (offset.toInt + len.toInt) > buffer.size then
        sizeReply (DataFile.setSize s (s.descriptions o).file (s64 (offset.toInt + len.toInt)))
      else .ok (s, ⟨0, .nothing⟩) := by
  have hdata := File.isDataFile_of_memory hb
  have hsize : (s.files (s.descriptions o).file).getSize = buffer.size := by
    simp only [File.getSize, hb]
  simp only [Export.fd_allocate, Syscall.fallocate, ho, hdata, hw, hsize]
  by_cases hbad : offset.toInt < 0 ∨ len.toInt ≤ 0
  · rw [if_pos hbad, if_pos hbad]
    rfl
  · rw [if_neg hbad, if_neg hbad]
    by_cases hgrow : s64 (offset.toInt + len.toInt) > buffer.size
    · rw [if_pos hgrow, if_pos hgrow]
      rfl
    · rw [if_neg hgrow, if_neg hgrow]
      rfl

/-- A size is set exactly if the arguments are refused, or the size fits. -/
theorem sizesExactly_iff (host : Host) {c : Call} (hc : c.resizes? = some fd)
    (ho : FileTable.getEntry s fd.toNat = some o)
    (hbuffer : (s.files (s.descriptions o).file).buffer? = some buffer)
    (hw : (s.files (s.descriptions o).file).writable) :
    SizesExactly host s (s.descriptions o).file buffer c ↔
      c.MisSized ∨ SizeFits (c.sizeAsked buffer.size) := by
  have hb := File.body_of_buffer? hbuffer
  have hmax : Buffer.maxSize = 2147483647 := rfl
  have hsize := buffer.size_le_max
  cases c with
  | fd_filestat_set_size fd' size =>
      cases hc
      simp only [SizesExactly, exec, Call.sizeAsked, Call.MisSized,
        fd_filestat_set_size_eq ho hb hw]
      have hoff := size.toInt_lt
      by_cases hneg : size.toInt < 0
      · rw [if_pos hneg]
        exact iff_of_true (.of_refused hbuffer _ Errno.inval.u16_neg_ne_zero) (Or.inl hneg)
      · rw [if_neg hneg, setSize_resizes_iff hb (Int.not_lt.mp hneg) (by omega),
          or_iff_right hneg]
  | fd_allocate fd' offset len =>
      cases hc
      simp only [SizesExactly, exec, Call.sizeAsked, Call.MisSized, fd_allocate_eq ho hb hw]
      have hoff := offset.toInt_lt
      have hlen := len.toInt_lt
      by_cases hbad : offset.toInt < 0 ∨ len.toInt ≤ 0
      · rw [if_pos hbad]
        exact iff_of_true (.of_refused hbuffer _ Errno.inval.u16_neg_ne_zero) (Or.inl hbad)
      rw [if_neg hbad, or_iff_right hbad]
      by_cases hwrap : offset.toInt + len.toInt < 9223372036854775808
      · rw [s64_of_mem (by omega) hwrap]
        by_cases hgrow : offset.toInt + len.toInt > buffer.size
        · rw [if_pos hgrow, Int.max_eq_right (by omega), setSize_resizes_iff hb (by omega) hwrap]
        · rw [if_neg hgrow, Int.max_eq_left (by omega), resizes_unchanged_iff hbuffer]
          exact iff_of_true rfl (Or.inl (by omega))
      · -- the end is negative, so the file seems to be large enough
        have hneg : s64 (offset.toInt + len.toInt) < 0 := by
          unfold s64
          omega
        rw [if_neg (by omega), Int.max_eq_right (by omega), resizes_unchanged_iff hbuffer]
        unfold SizeFits
        omega
  | _ => cases hc

end

/-! ## A file of one byte -/

/-- `path_open` of the root and, with `O_CREAT`, of a file in it, which gets one byte. -/
def storeByte : List Call :=
  [.path_open atFdCwd [slash] 0, .path_open 3 [102] 64, .fd_write 4 [⟨false, [1], by decide⟩]]

/-- The file behind descriptor 4 is made writable. -/
def permitWriting (s : State) : State :=
  s.modify (s.descriptions 4).file fun x => { x with mode := x.mode ||| S_IWUGO }

theorem afterRun_storeByte : ∃ s replies buffer, afterRun storeByte = .ok (s, replies) ∧
    FileTable.getEntry (permitWriting s) (4 : UInt32).toNat = some 4 ∧
    ((permitWriting s).files ((permitWriting s).descriptions 4).file).buffer? = some buffer ∧
    buffer.toList = [1] ∧
    ((permitWriting s).files ((permitWriting s).descriptions 4).file).writable ∧
    Returns (exec .still (permitWriting s) (.fd_allocate 4 0 4294967296)) fun s' r => r.errno = 0 ∧
      (s'.files ((permitWriting s).descriptions 4).file).buffer? = some Vec.empty := by
  obtain ⟨s, replies, hok, ho, hb, hw, hcut⟩ : Returns (afterRun storeByte) fun s _ =>
      FileTable.getEntry (permitWriting s) (4 : UInt32).toNat = some 4 ∧
      ((permitWriting s).files ((permitWriting s).descriptions 4).file).buffer? =
        some ⟨[1], by decide⟩ ∧
      ((permitWriting s).files ((permitWriting s).descriptions 4).file).writable ∧
      Returns (exec .still (permitWriting s) (.fd_allocate 4 0 4294967296)) fun s' r =>
        r.errno = 0 ∧
        (s'.files ((permitWriting s).descriptions 4).file).buffer? = some Vec.empty := by
    decide +kernel
  exact ⟨s, replies, _, hok, ho, hb, rfl, hw, hcut⟩

theorem sizesExactly_storeByte : ∃ s f buffer, (s.files f).buffer? = some buffer ∧
    SizesExactly .still s f buffer (.fd_allocate 4 1 2) := by
  obtain ⟨s, replies, buffer, -, ho, hb, hbytes, hw, -⟩ := afterRun_storeByte
  refine ⟨permitWriting s, _, buffer, hb, ?_⟩
  refine (sizesExactly_iff .still rfl ho hb hw).mpr (Or.inr (Or.inl ?_))
  simp only [Vec.size, hbytes, Call.sizeAsked]
  decide

/-- An allocation of 2^32 bytes cuts a file of one byte down to nothing. -/
theorem not_sizesExactly_allocate : ¬ ∀ (host : Host) (s : State) (c : Call) (fd : UInt32)
    (o : OpenId) (buffer : Buffer), c.resizes? = some fd →
    FileTable.getEntry s fd.toNat = some o →
    (s.files (s.descriptions o).file).buffer? = some buffer →
    (s.files (s.descriptions o).file).writable → ¬ c.MisSized →
    SizesExactly host s (s.descriptions o).file buffer c := by
  intro hall
  obtain ⟨s, replies, buffer, -, ho, hb, hbytes, hw, s', r, hexec, hr, hcut⟩ := afterRun_storeByte
  have hsizes := hall .still (permitWriting s) (.fd_allocate 4 0 4294967296) 4 4 buffer rfl ho hb hw
    (show ¬ (_ < 0 ∨ _ ≤ 0) by decide)
  obtain ⟨b, hb', hsized, -⟩ := hsizes s' r hexec
  cases hcut.symm.trans hb'
  have hlen := (hsized hr).length
  simp only [Vec.size, hbytes, Call.sizeAsked] at hlen
  exact absurd hlen (by decide)

end WasmFS
