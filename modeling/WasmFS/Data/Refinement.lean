import WasmFS.Data.Bounds
import WasmFS.Data.Frame
import WasmFS.Lib.Cursors
import WasmFS.Namespace.Attributes

/-!
# Data calls are operations on shared files with cursors

The memory files of a state are lists of bytes, and a description has a cursor.
As long as offsets and ends stay in range, `fd_write`, `fd_pwrite`, `fd_read`,
`fd_pread`, `fd_seek` and `fd_tell` carry out the operations of `Cursors.step`, in
any order and through any descriptors (`dataCalls_refine`).
-/

namespace WasmFS

open Lists Cursors

variable {host : Host} {s s' s'' : State}

/-! ## The reference state -/

/-- The bytes of the memory files and the positions of the descriptions. -/
def State.shared (s : State) : Shared FileId OpenId UInt8 where
  contents f := ((s.files f).buffer?.map Vec.toList).getD []
  cursor o := (s.descriptions o).position.toNat

/-- How the descriptions were opened. -/
def State.opening (s : State) : Opening FileId OpenId where
  file o := (s.descriptions o).file
  append o := hasFlag (s.descriptions o).flags O_APPEND

theorem State.contents_shared {f : FileId} {buffer : Buffer}
    (h : (s.files f).body = .memory buffer) : s.shared.contents f = buffer.toList := by
  simp only [shared, File.buffer?, h]
  rfl

theorem SameSkeleton.opening (h : SameSkeleton s s') : s'.opening = s.opening := by
  have hfile : ∀ o, (s'.descriptions o).file = (s.descriptions o).file := h.file
  have hflags : ∀ o, (s'.descriptions o).flags = (s.descriptions o).flags := by
    intro o
    obtain ⟨position, ho⟩ := h.descriptions o
    rw [ho]
  simp only [State.opening, hfile, hflags]

/-- The second state is like the first up to bytes and positions, and these are
those of `m`. -/
structure Carries (s s' : State) (m : Shared FileId OpenId UInt8) : Prop where
  skeleton : SameSkeleton s s'
  shared : s'.shared = m
  position : ∀ o, 0 ≤ (s.descriptions o).position → 0 ≤ (s'.descriptions o).position

namespace Carries

variable {m m' : Shared FileId OpenId UInt8}

theorem refl (s : State) : Carries s s s.shared := ⟨.refl s, rfl, fun _ h => h⟩

theorem trans (h : Carries s s' m) (h' : Carries s' s'' m') : Carries s s'' m' :=
  ⟨h.skeleton.trans h'.skeleton, h'.shared, fun o ho => h'.position o (h.position o ho)⟩

theorem setBuffer {f : FileId} {buffer b : Buffer} {o : Nat} {xs : List UInt8}
    (hb : (s.files f).body = .memory buffer) (h : b.toList = overlay 0 buffer.toList o xs) :
    Carries s (s.modify f fun x => x.setBuffer b) (s.shared.put 0 f o xs) where
  skeleton := .setBuffer s f b
  shared := by
    refine Shared.ext ?_ rfl
    funext f'
    by_cases hf : f' = f
    · subst hf
      rw [State.contents_shared (State.body_setBuffer hb), h]
      simp only [Shared.put, Function.update_self, State.contents_shared hb]
    · simp only [Shared.put, State.shared, State.modify, Function.update_of_ne hf]
  position _ h := h

theorem setPosition (s : State) (o : OpenId) (position : Nat) :
    Carries s (s.modifyOpen o fun x => { x with position := position })
      (s.shared.move o position) where
  skeleton := .setPosition s o position
  shared := by
    refine Shared.ext rfl ?_
    funext o'
    by_cases ho : o' = o
    · subst ho
      simp only [Shared.move, State.shared, State.modifyOpen_self, Function.update_self,
        Int.toNat_natCast]
    · simp only [Shared.move, State.shared, State.modifyOpen_of_ne s _ ho,
        Function.update_of_ne ho]
  position o' h := by
    by_cases ho : o' = o
    · subst ho
      rw [State.modifyOpen_self]
      exact Int.natCast_nonneg position
    · rw [State.modifyOpen_of_ne s _ ho]
      exact h

theorem updateMTime (host : Host) (s : State) (f : FileId) :
    Carries s (s.updateMTime host f) s.shared where
  skeleton := .updateMTime host s f
  shared := by
    refine Shared.ext ?_ rfl
    funext f'
    by_cases hf : f' = f
    · subst hf
      simp only [State.shared, State.updateMTime, State.ask, State.files_modify]
      rfl
    · simp only [State.shared, State.updateMTime, State.ask, State.modify,
        Function.update_of_ne hf]
  position _ h := h

end Carries

/-! ## Transfers -/

section

variable {fd : Nat} {o : OpenId} {buffer : Buffer}

/-- A description on a memory file is seekable, so a transfer moves its position. -/
theorem advance_openFileState (hb : (s.files (s.descriptions o).file).body = .memory buffer)
    {offset bytes : Nat} (h : offset + bytes < 9223372036854775808) :
    advance s o .openFileState offset bytes =
      s.modifyOpen o fun x => { x with position := (offset + bytes : Nat) } := by
  have hseekable : (s.files (s.descriptions o).file).isSeekable = true := by
    simp only [File.isSeekable, hb]
  simp only [advance]
  rw [if_pos ⟨trivial, hseekable⟩, signed_low h]

theorem advance_argument (offset : UInt64) (start bytes : Nat) :
    advance s o (.argument offset) start bytes = s := by
  simp only [advance]
  rw [if_neg (by simp)]

/-- What a transfer did is not changed by stamping the file. -/
theorem Carries.stamped {m : Shared FileId OpenId UInt8} (h : Carries s s' m) (n : Nat)
    (f : FileId) : Carries s (if n ≠ 0 then s'.updateMTime host f else s') m := by
  split
  · have hstamp := Carries.updateMTime host s' f
    rw [h.shared] at hstamp
    exact h.trans hstamp
  · exact h

/-- A write at an offset that is given leaves the cursor alone. -/
theorem writeAtOffset_argument (host : Host) {iovs : List CIovec} {offset : UInt64}
    (ho : FileTable.getEntry s fd = some o)
    (hb : (s.files (s.descriptions o).file).body = .memory buffer)
    (hiovs : ∀ iov ∈ iovs, iov.isNull = false ∧ iov.bytes ≠ [])
    (hfits : offset.toNat + (CIovec.concat iovs).length ≤ Buffer.maxSize) :
    ∃ s', writeAtOffset host s (.argument offset) fd iovs =
        .ok (s', .ok (CIovec.concat iovs).length) ∧
      Carries s s' (s.shared.put 0 (s.descriptions o).file offset.toNat (CIovec.concat iovs)) := by
  obtain ⟨b, hloop, hlist⟩ := writeLoop_overlay host offset.toNat 0 hb hiovs hfits
  rw [Nat.zero_add] at hloop
  refine ⟨_, writeAtOffset_eq_ok (.argument offset) iovs ho
    (File.isDataFile_of_memory hb) hloop, ?_⟩
  rw [advance_argument]
  exact (Carries.setBuffer hb hlist).stamped _ _

/-- A write at the cursor, or at the end for a description that appends. -/
theorem writeAtOffset_cursor (host : Host) {iovs : List CIovec}
    (ho : FileTable.getEntry s fd = some o)
    (hb : (s.files (s.descriptions o).file).body = .memory buffer)
    (hpos : 0 ≤ (s.descriptions o).position)
    (hcursor : s.shared.cursor o < 9223372036854775808)
    (hiovs : ∀ iov ∈ iovs, iov.isNull = false ∧ iov.bytes ≠ [])
    (hfits : start s.opening s.shared o + (CIovec.concat iovs).length ≤ Buffer.maxSize) :
    ∃ s', writeAtOffset host s .openFileState fd iovs =
        .ok (s', .ok (CIovec.concat iovs).length) ∧
      Carries s s' ((s.shared.put 0 (s.descriptions o).file (start s.opening s.shared o)
        (CIovec.concat iovs)).move o
          (start s.opening s.shared o + (CIovec.concat iovs).length)) := by
  have hmax : Buffer.maxSize = 2147483647 := rfl
  have hsize := buffer.size_le_max
  -- where the write starts, and that nothing but the cursor is moved before
  obtain ⟨s₀, hs₀, hstart⟩ : ∃ s₀, writeStart s o .openFileState =
      (s₀, start s.opening s.shared o) ∧
      (s₀ = s ∨ s₀ = s.modifyOpen o fun x => { x with position := (buffer.size : Nat) }) := by
    simp only [writeStart, start, State.opening, State.contents_shared hb]
    split
    · refine ⟨_, congrArg (Prod.mk _) ?_, Or.inr ?_⟩
      · simp only [File.getSize, hb]
        exact u64_of_lt (by rw [Vec.size] at *; omega)
      · simp only [File.getSize, hb]
    · refine ⟨_, congrArg (Prod.mk _) ?_, Or.inl rfl⟩
      have hcursor' : (s.descriptions o).position.toNat < 9223372036854775808 := hcursor
      simp only [State.shared]
      unfold u64
      omega
  have hfile : (s₀.descriptions o).file = (s.descriptions o).file := by
    rcases hstart with rfl | rfl
    · rfl
    · rw [State.modifyOpen_self]
  have hb₀ : (s₀.files (s.descriptions o).file).body = .memory buffer := by
    rcases hstart with rfl | rfl
    · exact hb
    · exact hb
  obtain ⟨b, hloop, hlist⟩ := writeLoop_overlay host (start s.opening s.shared o) 0 hb₀
    hiovs hfits
  rw [Nat.zero_add] at hloop
  have hloop' : writeLoop host (s.descriptions o).file (writeStart s o .openFileState).2 iovs 0
      (writeStart s o .openFileState).1 =
      .ok (s₀.modify (s.descriptions o).file fun x => x.setBuffer b,
        .ok (CIovec.concat iovs).length) := by
    rw [hs₀]
    exact hloop
  have hwrite := writeAtOffset_eq_ok .openFileState iovs ho (File.isDataFile_of_memory hb) hloop'
  refine ⟨_, hwrite, ?_⟩
  have hput := Carries.setBuffer hb₀ hlist
  have hbody : ((s₀.modify (s.descriptions o).file fun x => x.setBuffer b).files
      ((s₀.modify (s.descriptions o).file fun x => x.setBuffer b).descriptions o).file).body =
        .memory b := by
    have hsame : ((s₀.modify (s.descriptions o).file fun x => x.setBuffer b).descriptions o).file =
        (s.descriptions o).file := hfile
    rw [hsame]
    exact State.body_setBuffer hb₀
  rw [hs₀, advance_openFileState hbody (by omega)]
  refine Carries.stamped ?_ _ _
  have hmove := Carries.setPosition (s₀.modify (s.descriptions o).file fun x => x.setBuffer b) o
    (start s.opening s.shared o + (CIovec.concat iovs).length)
  rw [hput.shared] at hmove
  rcases hstart with rfl | rfl
  · exact hput.trans hmove
  · have happend := Carries.setPosition s o buffer.size
    rw [happend.shared, Shared.move_put, Shared.move_move] at hmove
    exact (happend.trans hput).trans hmove

/-- A read at an offset that is given changes nothing. -/
theorem readAtOffset_argument (host : Host) {iovs : List Iovec} {offset : UInt64}
    (ho : FileTable.getEntry s fd = some o)
    (hb : (s.files (s.descriptions o).file).body = .memory buffer)
    (hiovs : ∀ iov ∈ iovs, iov.isNull = false) (hoffset : offset.toNat < 9223372036854775808) :
    readAtOffset host s (.argument offset) fd iovs =
      .ok (s, .ok ((slice buffer.toList offset.toNat (Iovec.lengths iovs).sum).length,
        slice buffer.toList offset.toNat (Iovec.lengths iovs).sum)) := by
  have hloop := readLoop_slice host offset.toNat 0 hb hiovs hoffset
    (Or.inl rfl)
  rw [Nat.zero_add, Nat.add_zero] at hloop
  have hread := readAtOffset_eq_ok (.argument offset) ho
    (File.isDataFile_of_memory hb) hloop
  rwa [advance_argument] at hread

/-- A read at the cursor moves it past the bytes that are delivered. -/
theorem readAtOffset_cursor (host : Host) {iovs : List Iovec}
    (ho : FileTable.getEntry s fd = some o)
    (hb : (s.files (s.descriptions o).file).body = .memory buffer)
    (hpos : 0 ≤ (s.descriptions o).position) (hcursor : s.shared.cursor o < 2147483648)
    (hiovs : ∀ iov ∈ iovs, iov.isNull = false) :
    ∃ s', readAtOffset host s .openFileState fd iovs =
        .ok (s', .ok ((slice buffer.toList (s.shared.cursor o) (Iovec.lengths iovs).sum).length,
          slice buffer.toList (s.shared.cursor o) (Iovec.lengths iovs).sum)) ∧
      Carries s s' (s.shared.move o (s.shared.cursor o +
        (slice buffer.toList (s.shared.cursor o) (Iovec.lengths iovs).sum).length)) := by
  have hmax : Buffer.maxSize = 2147483647 := rfl
  have hsize := buffer.size_le
  have hcursor' : (s.descriptions o).position.toNat < 2147483648 := hcursor
  have hstart : readStart s o .openFileState = s.shared.cursor o := by
    simp only [readStart, State.shared]
    unfold u64
    omega
  have hloop := readLoop_slice host (s.shared.cursor o) 0 hb hiovs
    (by omega) (Or.inl rfl)
  rw [Nat.zero_add, Nat.add_zero, ← hstart] at hloop
  have hread := readAtOffset_eq_ok .openFileState ho
    (File.isDataFile_of_memory hb) hloop
  rw [hstart] at hread
  have hlength : (slice buffer.toList (s.shared.cursor o) (Iovec.lengths iovs).sum).length ≤
      buffer.toList.length := by
    rw [length_slice]
    omega
  rw [advance_openFileState hb (by omega)] at hread
  exact ⟨_, hread, .setPosition s o _⟩

end

/-! ## Calls -/

/-- The number that stands for a `whence`. -/
def whenceCode : Whence → Nat
  | .set => 0
  | .cur => 1
  | .stop => 2

/-- The reply that carries an answer. -/
def Reply.ofAnswer : Answer UInt8 → Reply
  | .count n => ⟨0, .written n⟩
  | .elements bytes => ⟨0, .read bytes.length bytes⟩
  | .offset o => ⟨0, .offset o⟩
  | .refused => ⟨Errno.inval.code, .nothing⟩

/-- The descriptor is open on a memory file, through the description `o`. -/
structure OnMemoryFile (s : State) (fd : UInt32) (o : OpenId) : Prop where
  entry : FileTable.getEntry s fd.toNat = some o
  memory : (s.files (s.descriptions o).file).buffer? ≠ none

/-- The call is the operation, through a descriptor of the description.  No buffer is
null and none that is written is empty. -/
inductive Call.Performs (s : State) : Call → OpenId × Op UInt8 → Prop where
  | fd_write {fd : UInt32} {o : OpenId} {iovs : List CIovec} : OnMemoryFile s fd o →
      (∀ iov ∈ iovs, iov.isNull = false ∧ iov.bytes ≠ []) →
      Performs s (.fd_write fd iovs) (o, .write (CIovec.concat iovs))
  | fd_pwrite {fd : UInt32} {o : OpenId} {iovs : List CIovec} (offset : UInt64) :
      OnMemoryFile s fd o → (∀ iov ∈ iovs, iov.isNull = false ∧ iov.bytes ≠ []) →
      Performs s (.fd_pwrite fd iovs offset) (o, .writeAt offset.toNat (CIovec.concat iovs))
  | fd_read {fd : UInt32} {o : OpenId} {iovs : List Iovec} : OnMemoryFile s fd o →
      (∀ iov ∈ iovs, iov.isNull = false) →
      Performs s (.fd_read fd iovs) (o, .read (Iovec.lengths iovs).sum)
  | fd_pread {fd : UInt32} {o : OpenId} {iovs : List Iovec} (offset : UInt64) :
      OnMemoryFile s fd o → (∀ iov ∈ iovs, iov.isNull = false) →
      Performs s (.fd_pread fd iovs offset) (o, .readAt offset.toNat (Iovec.lengths iovs).sum)
  | fd_seek {fd : UInt32} {o : OpenId} (offset : Int64) {whence : UInt8} {w : Whence} :
      OnMemoryFile s fd o → whence.toNat = whenceCode w →
      Performs s (.fd_seek fd offset whence) (o, .seek w offset.toInt)
  | fd_tell {fd : UInt32} {o : OpenId} : OnMemoryFile s fd o → Performs s (.fd_tell fd) (o, .tell)

/-- Offsets and cursors are below 2^31, and what is written ends within the maximum
size. -/
def InRange (k : Opening FileId OpenId) (m : Shared FileId OpenId UInt8) : OpenId × Op UInt8 → Prop
  | (o, .write bytes) =>
      m.cursor o < 2147483648 ∧ start k m o + bytes.length ≤ Buffer.maxSize
  | (_, .writeAt offset bytes) =>
      offset < 2147483648 ∧ offset + bytes.length ≤ Buffer.maxSize
  | (o, .read _) => m.cursor o < 2147483648
  | (_, .readAt offset _) => offset < 2147483648
  | (o, .seek w distance) =>
      m.cursor o < 2147483648 ∧ target k m o w distance < 2147483648
  | (o, .tell) => m.cursor o < 2147483648

theorem OnMemoryFile.of_skeleton {fd : UInt32} {o : OpenId} (h : OnMemoryFile s fd o)
    (hs : SameSkeleton s s') : OnMemoryFile s' fd o where
  entry := by
    simp only [FileTable.getEntry, hs.table]
    exact h.entry
  memory := by
    have hregular := (File.isRegular_iff _).mpr h.memory
    rw [← State.tree_node, ← hs.tree, State.tree_node, ← hs.file o] at hregular
    exact (File.isRegular_iff _).mp hregular

theorem Call.Performs.of_skeleton {c : Call} {x : OpenId × Op UInt8} (h : c.Performs s x)
    (hs : SameSkeleton s s') : c.Performs s' x := by
  cases h with
  | fd_write hon hiovs => exact .fd_write (hon.of_skeleton hs) hiovs
  | fd_pwrite offset hon hiovs => exact .fd_pwrite offset (hon.of_skeleton hs) hiovs
  | fd_read hon hiovs => exact .fd_read (hon.of_skeleton hs) hiovs
  | fd_pread offset hon hiovs => exact .fd_pread offset (hon.of_skeleton hs) hiovs
  | fd_seek offset hon hw => exact .fd_seek offset (hon.of_skeleton hs) hw
  | fd_tell hon => exact .fd_tell (hon.of_skeleton hs)

/-- The position that a seek asks for. -/
theorem seekPosition_eq {o : OpenId} {buffer : Buffer} {w : Whence} (distance : Int64)
    (hb : (s.files (s.descriptions o).file).body = .memory buffer)
    (hpos : 0 ≤ (s.descriptions o).position)
    (htarget : target s.opening s.shared o w distance.toInt < 2147483648) :
    Syscall.seekPosition s o distance.toInt (whenceCode w) =
      target s.opening s.shared o w distance.toInt := by
  have hle := distance.le_toInt
  have hcursor : (s.shared.cursor o : Int) = (s.descriptions o).position :=
    Int.toNat_of_nonneg hpos
  have hcontents : s.shared.contents (s.opening.file o) = buffer.toList := State.contents_shared hb
  cases w with
  | set => rfl
  | cur =>
      simp only [target, hcursor] at htarget
      simp only [Syscall.seekPosition, whenceCode, target, hcursor]
      exact s64_of_mem (by omega) (by omega)
  | stop =>
      simp only [target, hcontents] at htarget
      simp only [Syscall.seekPosition, whenceCode, target, hcontents, File.getSize, hb]
      exact s64_of_mem (by rw [Vec.size]; omega) (by rw [Vec.size]; omega)

/-- One call carries out one operation. -/
theorem exec_carries (host : Host) {c : Call} {o : OpenId} {op : Op UInt8}
    (hc : c.Performs s (o, op)) (hpos : 0 ≤ (s.descriptions o).position)
    (hr : InRange s.opening s.shared (o, op)) :
    ∃ s', exec host s c = .ok (s', .ofAnswer (step 0 s.opening s.shared (o, op)).2) ∧
      Carries s s' (step 0 s.opening s.shared (o, op)).1 := by
  have hmemory : ∀ {fd : UInt32}, OnMemoryFile s fd o →
      ∃ buffer, (s.files (s.descriptions o).file).body = .memory buffer := by
    intro fd hon
    obtain ⟨buffer, hbuffer⟩ := Option.ne_none_iff_exists'.mp hon.memory
    exact ⟨buffer, File.body_of_buffer? hbuffer⟩
  cases hc with
  | fd_write hon hiovs =>
      obtain ⟨buffer, hb⟩ := hmemory hon
      have hcursor : s.shared.cursor o < 2147483648 := hr.1
      obtain ⟨s', hok, hcarries⟩ := writeAtOffset_cursor host hon.entry hb hpos
        (Nat.lt_trans hcursor (by decide)) hiovs hr.2
      refine ⟨s', ?_, hcarries⟩
      simp only [exec, Export.fd_write, Export.writeReply, hok]
      rfl
  | fd_pwrite offset hon hiovs =>
      obtain ⟨buffer, hb⟩ := hmemory hon
      obtain ⟨s', hok, hcarries⟩ := writeAtOffset_argument host hon.entry hb hiovs hr.2
      refine ⟨s', ?_, hcarries⟩
      simp only [exec, Export.fd_pwrite, Export.writeReply, hok]
      rfl
  | fd_read hon hiovs =>
      obtain ⟨buffer, hb⟩ := hmemory hon
      obtain ⟨s', hok, hcarries⟩ := readAtOffset_cursor host hon.entry hb hpos hr hiovs
      have hcontents : s.shared.contents (s.opening.file o) = buffer.toList :=
        State.contents_shared hb
      simp only [step, hcontents]
      refine ⟨s', ?_, hcarries⟩
      simp only [exec, Export.fd_read, Export.readReply, hok]
      rfl
  | fd_pread offset hon hiovs =>
      obtain ⟨buffer, hb⟩ := hmemory hon
      have hoffset : offset.toNat < 2147483648 := hr
      have hok := readAtOffset_argument host hon.entry hb hiovs
        (Nat.lt_trans hoffset (by decide))
      have hcontents : s.shared.contents (s.opening.file o) = buffer.toList :=
        State.contents_shared hb
      simp only [step, hcontents]
      refine ⟨s, ?_, .refl s⟩
      simp only [exec, Export.fd_pread, Export.readReply, hok]
      rfl
  | @fd_seek fd _ offset whence w hon hw =>
      obtain ⟨buffer, hb⟩ := hmemory hon
      have htarget := hr.2
      have hposition := seekPosition_eq offset hb hpos htarget
      have hseekable : (s.files (s.descriptions o).file).isSeekable = true := by
        simp only [File.isSeekable, hb]
      have hwhence : ¬ whence.toNat > 2 := by
        rw [hw]
        cases w <;> decide
      simp only [exec, Export.fd_seek, Syscall.seek, hon.entry, hseekable, hw, hposition, step]
      rw [if_neg (by simp), if_neg (hw ▸ hwhence)]
      by_cases hneg : target s.opening s.shared o w offset.toInt < 0
      · rw [if_pos hneg, if_pos hneg]
        exact ⟨s, rfl, .refl s⟩
      · rw [if_neg hneg, if_neg hneg]
        have hnat := Int.toNat_of_nonneg (Int.not_lt.mp hneg)
        have hoffset : u64 (target s.opening s.shared o w offset.toInt) =
            (target s.opening s.shared o w offset.toInt).toNat := by
          unfold u64
          omega
        have hmove := Carries.setPosition s o (target s.opening s.shared o w offset.toInt).toNat
        rw [hnat] at hmove
        refine ⟨_, ?_, hmove⟩
        simp only [hoffset]
        rfl
  | fd_tell hon =>
      have hcursor : (s.descriptions o).position.toNat < 2147483648 := hr
      have hoffset : u64 (s.descriptions o).position = (s.descriptions o).position.toNat := by
        unfold u64
        omega
      refine ⟨s, ?_, .refl s⟩
      simp only [exec, Export.fd_tell, hon.entry, hoffset]
      rfl

/-! ## Runs -/

theorem run_eq_attempt (host : Host) (s : State) (calls : List Call) :
    run host s calls = Transition.attempt (exec host) s calls := by
  induction calls generalizing s with
  | nil => rfl
  | cons c calls ih =>
      simp only [run, Transition.attempt, ih]
      cases exec host s c with
      | error e => rfl
      | ok result =>
          cases h : Transition.attempt (exec host) result.1 calls <;> simp only [h]

/-- Data calls on memory files, in any order and through any descriptors, reply as
the reference model does and leave its contents and cursors. -/
theorem dataCalls_refine {s : State} {calls : List Call} {ops : List (OpenId × Op UInt8)}
    (hcalls : List.Forall₂ (Call.Performs s) calls ops)
    (hpos : ∀ x ∈ ops, 0 ≤ (s.descriptions x.1).position)
    (hrange : Transition.Along (step 0 s.opening) (InRange s.opening) s.shared ops) :
    ∃ s', run host s calls =
        .ok (s', (Transition.answers (step 0 s.opening) s.shared ops).2.map Reply.ofAnswer) ∧
      s'.shared = (Transition.answers (step 0 s.opening) s.shared ops).1 := by
  have hcarries : List.Forall₂ (fun c x => c.Performs s x ∧ 0 ≤ (s.descriptions x.1).position)
      calls ops := by
    rw [List.forall₂_iff_zip] at hcalls ⊢
    exact ⟨hcalls.1, fun hmem => ⟨hcalls.2 hmem, hpos _ (List.of_mem_zip hmem).2⟩⟩
  -- every state of the run carries the state that the reference model is in
  have hstep : ∀ (s₁ : State) (m : Shared FileId OpenId UInt8) (c : Call)
      (x : OpenId × Op UInt8), Carries s s₁ m →
      c.Performs s x ∧ 0 ≤ (s.descriptions x.1).position → InRange s.opening m x →
      ∃ s₂, exec host s₁ c = .ok (s₂, .ofAnswer (step 0 s.opening m x).2) ∧
        Carries s s₂ (step 0 s.opening m x).1 := by
    intro s₁ m c x hR hc hr
    obtain ⟨hperforms, hx⟩ := hc
    obtain rfl := hR.shared
    rw [← hR.skeleton.opening] at hr ⊢
    obtain ⟨s₂, hok, hcarried⟩ := exec_carries host
      (hperforms.of_skeleton hR.skeleton) (hR.position _ hx) hr
    exact ⟨s₂, hok, hR.trans hcarried⟩
  obtain ⟨s', hrun, hs'⟩ := Transition.simulates_answers hstep (Carries.refl s) hcarries hrange
  rw [run_eq_attempt]
  exact ⟨s', hrun, hs'.shared⟩

/-- A write at the cursor of a new file, and a read of the same bytes at 0. -/
theorem dataCalls_refine_hi : ∃ s replies o s', afterRun createFile = .ok (s, replies) ∧
    run .still s [.fd_write 4 [⟨false, [104, 105], by decide⟩], .fd_pread 4 [{ len := 2 }] 0] =
      .ok (s', (Transition.answers (step 0 s.opening) s.shared
        [(o, .write [104, 105]), (o, .readAt 0 2)]).2.map Reply.ofAnswer) := by
  obtain ⟨s, replies, o, buffer, hok, ho, hb, hsize, hpos⟩ := afterRun_createFile
  have hon : OnMemoryFile s 4 o := ⟨ho, hb ▸ Option.some_ne_none buffer⟩
  have hcursor : s.shared.cursor o = 0 := congrArg Int.toNat hpos
  have hcontents : s.shared.contents (s.opening.file o) = buffer.toList :=
    State.contents_shared (File.body_of_buffer? hb)
  have hstart : start s.opening s.shared o = 0 := by
    simp only [start, hcontents, hcursor]
    split
    · exact hsize
    · rfl
  obtain ⟨s', hrun, -⟩ := @dataCalls_refine .still s
    [.fd_write 4 [⟨false, [104, 105], by decide⟩], .fd_pread 4 [{ len := 2 }] 0]
    [(o, .write [104, 105]), (o, .readAt 0 2)]
    (.cons (.fd_write hon (by simp)) (.cons (.fd_pread 0 hon (by simp)) .nil))
    (by
      intro x hx
      have hxo : x.1 = o := by
        simp only [List.mem_cons, List.not_mem_nil, or_false] at hx
        rcases hx with rfl | rfl <;> rfl
      exact Int.le_of_eq (hxo ▸ hpos.symm))
    ⟨⟨by rw [hcursor]; decide, by rw [hstart]; decide⟩,
      Nat.lt_of_lt_of_le (Nat.zero_lt_succ 0) (by decide), trivial⟩
  exact ⟨s, replies, o, s', hok, hrun⟩

end WasmFS
