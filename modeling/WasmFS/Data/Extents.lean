import WasmFS.Data.Positions
import WasmFS.Data.Stores

/-!
# How far a write extends a file

A write that reports `n > 0` bytes from an offset on makes the file end where they end,
if it ended before.  A write that reports no bytes should change nothing.  The size is
set inside the write of each segment, though, before anything is copied.  So segments
that are all empty grow the file up to the offset they start at, and no others do
(`extendsExactly_iff`).
-/

namespace WasmFS

open Lists MemoryDataFile

variable {host : Host} {s s' : State} {f : FileId} {buffer : Buffer} {o : OpenId}

/-! ## Calls that write -/

/-- The segments of a call that writes, and where it takes its offset from. -/
def Call.segments? : Call → Option (UInt32 × List CIovec × OffsetHandling)
  | .fd_write fd iovs => some (fd, iovs, .openFileState)
  | .fd_pwrite fd iovs offset => some (fd, iovs, .argument offset)
  | _ => none

theorem exec_segments {c : Call} {fd : UInt32} {iovs : List CIovec} {handling : OffsetHandling}
    (hc : c.segments? = some (fd, iovs, handling)) :
    exec host s c = Export.writeReply (writeAtOffset host s handling fd.toNat iovs) := by
  cases c with
  | fd_write fd' iovs' =>
      cases hc
      rfl
  | fd_pwrite fd' iovs' offset =>
      cases hc
      rfl
  | _ => cases hc

/-- The offset at which a call through the description starts to write. -/
def writeFrom (s : State) (o : OpenId) : OffsetHandling → Int
  | .argument offset => offset.toNat
  | .openFileState => writePosition s o

theorem writeStart_eq (hb : (s.files (s.descriptions o).file).body = .memory buffer)
    (handling : OffsetHandling) : (writeStart s o handling).2 = u64 (writeFrom s o handling) := by
  cases handling with
  | argument offset => exact (u64_of_lt offset.toNat_lt).symm
  | openFileState =>
      have hdata := File.isDataFile_of_memory hb
      simp only [writeStart, writeFrom, writePosition]
      split
      · rename_i happend
        rw [if_pos ⟨happend, hdata⟩]
      · rename_i happend
        rw [if_neg fun h => happend h.1]

theorem State.buffer?_updateMTime (host : Host) (s : State) (f : FileId) :
    ((s.updateMTime host f).files f).buffer? = (s.files f).buffer? := by
  simp only [updateMTime, ask, files_modify]
  rfl

theorem advance_files (s : State) (o : OpenId) (handling : OffsetHandling) (offset n : Nat) :
    (advance s o handling offset n).files = s.files := by
  simp only [advance]
  split <;> rfl

section

variable {fd : Nat} {iovs : List CIovec} {handling : OffsetHandling}
  (ho : FileTable.getEntry s fd = some o)
  (hb : (s.files (s.descriptions o).file).body = .memory buffer)

include ho hb

/-- What a call has stored is what its loop has stored.  After an error nothing else is
done. -/
theorem writeAtOffset_stores {out : Except Int Nat}
    (h : writeAtOffset host s handling fd iovs = .ok (s', out)) :
    ∃ s₁, LoopStores (writeStart s o handling).1 s₁ (s.descriptions o).file buffer
        (u64 (writeFrom s o handling)) 0 iovs out ∧
      (s'.files (s.descriptions o).file).buffer? = (s₁.files (s.descriptions o).file).buffer? ∧
      ∀ code, out = .error code → s' = s₁ := by
  have hdata := File.isDataFile_of_memory hb
  have hb₀ : ((writeStart s o handling).1.files (s.descriptions o).file).body =
      .memory buffer := by
    rw [writeStart_files]
    exact hb
  have hstart := writeStart_eq hb handling
  have hlt := u64_lt (writeFrom s o handling)
  simp only [writeAtOffset, ho] at h
  rw [if_neg (by simp [hdata]), hstart] at h
  split at h
  · cases h
  · rename_i s₁ code hloop
    cases h
    exact ⟨s', writeLoop_stores hb₀ hlt (Nat.zero_le _) hloop, rfl, fun _ _ => rfl⟩
  · rename_i s₁ n hloop
    cases h
    refine ⟨s₁, writeLoop_stores hb₀ hlt (Nat.zero_le _) hloop, ?_, ?_⟩
    · split
      · rw [State.buffer?_updateMTime, advance_files]
      · rw [advance_files]
    · intro code he
      cases he

end

/-! ## Extents -/

theorem CIovec.concat_eq_nil_iff {iovs : List CIovec} :
    concat iovs = [] ↔ ∀ iov ∈ iovs, iov.bytes = [] := List.flatMap_eq_nil_iff

/-- Segments that are stored below 2^63 end inside the file, or the file ends with them. -/
theorem length_putAll {xs : List UInt8} {p : Nat} {pre : List CIovec} (hpre : pre ≠ [])
    (hp : p < 9223372036854775808) :
    (putAll xs p pre).length = max xs.length (p + (CIovec.concat pre).length) := by
  rw [putAll, if_neg hpre, put_low _ _ hp, length_place]

/-- Segments without bytes change nothing unless they start behind the end. -/
theorem putAll_of_concat_nil {xs : List UInt8} {p : Nat} {iovs : List CIovec}
    (hnone : CIovec.concat iovs = []) (hp : p < 9223372036854775808)
    (hin : iovs = [] ∨ p ≤ xs.length) : putAll xs p iovs = xs := by
  rw [putAll]
  split
  · rfl
  · rename_i hne
    rw [hnone, put_low _ _ hp]
    refine (place_eq_self_iff ..).mpr ⟨?_, List.nil_prefix⟩
    exact hin.resolve_left hne

/-- The success of a loop: the number of bytes that it reports is that of the segments that
it stored, and these are all if there are no bytes. -/
theorem LoopStores.of_ok {p n : Nat} {iovs : List CIovec}
    (h : LoopStores s s' f buffer p 0 iovs (.ok n)) :
    ∃ pre b, n = (CIovec.concat pre).length ∧ (n = 0 → pre = iovs) ∧
      b.toList = putAll buffer.toList p pre ∧ s' = s.modify f fun x => x.setBuffer b := by
  obtain ⟨pre, rest, b, hsplit, -, hlist, hs', hends⟩ := h
  rw [Nat.zero_add] at hends
  generalize hout : (Except.ok n : Except Int Nat) = out at hends
  cases hends with
  | done =>
      cases hout
      rw [List.append_nil] at hsplit
      exact ⟨pre, b, rfl, fun _ => hsplit.symm, hlist, hs'⟩
  | unreadable => cases hout
  | refused =>
      split at hout
      · rename_i hpos
        cases hout
        exact ⟨pre, b, rfl, fun h0 => absurd h0 (Nat.ne_of_gt hpos), hlist, hs'⟩
      · cases hout

/-- If the call reports `n` bytes, then the file has changed for them only: not at all for
no bytes, and else its size is the larger of the old one and the end of the bytes. -/
def ExtendsExactly (host : Host) (s : State) (f : FileId) (buffer : Buffer) (start : Int)
    (c : Call) : Prop :=
  ∀ s' n, exec host s c = .ok (s', ⟨0, .written n⟩) → ∃ b, (s'.files f).buffer? = some b ∧
    (n = 0 → b = buffer) ∧ (0 < n → (b.size : Int) = max (buffer.size : Int) (start + n))

theorem writeReply_written {result : Except Fault (State × Except Int Nat)} {n : Nat}
    (h : Export.writeReply result = .ok (s', ⟨0, .written n⟩)) : result = .ok (s', .ok n) := by
  simp only [Export.writeReply] at h
  split at h
  · cases h
  · simp only [Except.ok.injEq, Prod.mk.injEq, Reply.mk.injEq, reduceCtorEq, and_false] at h
  · cases h
    rfl

/-- A call that writes nothing but empty segments succeeds, and the file grows up to where
it starts. -/
theorem writeAtOffset_empty (host : Host) {fd : Nat} {iovs : List CIovec}
    {handling : OffsetHandling} (ho : FileTable.getEntry s fd = some o)
    (hb : (s.files (s.descriptions o).file).body = .memory buffer)
    (h0 : 0 ≤ writeFrom s o handling) (h31 : writeFrom s o handling < 2147483648)
    (hiovs : ∀ iov ∈ iovs, iov.bytes = []) :
    ∃ s' b, writeAtOffset host s handling fd iovs = .ok (s', .ok 0) ∧
      (s'.files (s.descriptions o).file).buffer? = some b ∧
      b.toList = putAll buffer.toList (writeFrom s o handling).toNat iovs := by
  have hmax : Buffer.maxSize = 2147483647 := rfl
  have hstart : (writeStart s o handling).2 = (writeFrom s o handling).toNat := by
    rw [writeStart_eq hb handling]
    unfold u64
    omega
  have hb₀ : ((writeStart s o handling).1.files (s.descriptions o).file).body =
      .memory buffer := by
    rw [writeStart_files]
    exact hb
  have hnone := CIovec.concat_eq_nil_iff.mpr hiovs
  have hstorable : Storable buffer.size ((writeFrom s o handling).toNat + 0) iovs := by
    refine ⟨fun iov hiov hun => ?_, Or.inr ?_⟩
    · have hpos := hun.2
      rw [hiovs iov hiov] at hpos
      exact absurd hpos (Nat.lt_irrefl 0)
    · unfold Fits
      rw [hnone, if_pos (by omega), List.length_nil]
      omega
  obtain ⟨b, hloop, hlist⟩ := writeLoop_stored host [] hb₀ (by omega) (Nat.zero_le _) hstorable
  rw [List.append_nil, hnone, ← hstart] at hloop
  refine ⟨_, b, writeAtOffset_eq_ok handling iovs ho (File.isDataFile_of_memory hb) hloop, ?_,
    hlist⟩
  rw [if_neg (by simp), advance_files, File.buffer?_of_memory (State.body_setBuffer hb₀)]

/-- What a call that reports `n` bytes leaves in the file. -/
theorem writeAtOffset_written {fd n : Nat} {iovs : List CIovec} {handling : OffsetHandling}
    (ho : FileTable.getEntry s fd = some o)
    (hb : (s.files (s.descriptions o).file).body = .memory buffer)
    (h0 : 0 ≤ writeFrom s o handling) (h31 : writeFrom s o handling < 2147483648)
    (hok : writeAtOffset host s handling fd iovs = .ok (s', .ok n)) :
    ∃ pre b, n = (CIovec.concat pre).length ∧ (n = 0 → pre = iovs) ∧
      (s'.files (s.descriptions o).file).buffer? = some b ∧
      b.toList = putAll buffer.toList (writeFrom s o handling).toNat pre := by
  obtain ⟨s₁, hstores, hsame, -⟩ := writeAtOffset_stores ho hb hok
  have hu : u64 (writeFrom s o handling) = (writeFrom s o handling).toNat := by
    unfold u64
    omega
  obtain ⟨pre, b, hn, hall, hlist, rfl⟩ := hstores.of_ok
  have hb₀ : ((writeStart s o handling).1.files (s.descriptions o).file).body =
      .memory buffer := by
    rw [writeStart_files]
    exact hb
  rw [File.buffer?_of_memory (State.body_setBuffer hb₀)] at hsame
  rw [hu] at hlist
  exact ⟨pre, b, hn, hall, hsame, hlist⟩

/-- A write of segments that are all empty and start beyond the end grows the file.  Every
other write extends the file exactly. -/
theorem extendsExactly_iff (host : Host) {c : Call} {fd : UInt32} {iovs : List CIovec}
    {handling : OffsetHandling} (hc : c.segments? = some (fd, iovs, handling))
    (ho : FileTable.getEntry s fd.toNat = some o)
    (hbuffer : (s.files (s.descriptions o).file).buffer? = some buffer)
    (h0 : 0 ≤ writeFrom s o handling) (h31 : writeFrom s o handling < 2147483648) :
    ExtendsExactly host s (s.descriptions o).file buffer (writeFrom s o handling) c ↔
      iovs = [] ∨ (∃ iov ∈ iovs, iov.bytes ≠ []) ∨ writeFrom s o handling ≤ buffer.size := by
  have hb := File.body_of_buffer? hbuffer
  have hsize : buffer.size = buffer.toList.length := rfl
  unfold ExtendsExactly
  rw [exec_segments hc]
  constructor
  · intro h
    by_contra hnot
    simp only [not_or, not_exists, not_and, not_not] at hnot
    obtain ⟨hne, hempty, hbeyond⟩ := hnot
    obtain ⟨s', b, hwrite, hb', hlist⟩ := writeAtOffset_empty host ho hb h0 h31 hempty
    obtain ⟨b', hb'', hkeep, -⟩ := h s' 0 (by rw [hwrite]; rfl)
    cases hb'.symm.trans hb''
    have hlen := congrArg List.length hlist
    rw [hkeep rfl, length_putAll hne (by omega)] at hlen
    omega
  · intro hcond s' n hok
    obtain ⟨pre, b, rfl, hall, hb', hlist⟩ :=
      writeAtOffset_written ho hb h0 h31 (writeReply_written hok)
    refine ⟨b, hb', fun hn => ?_, fun hpos => ?_⟩
    · -- without bytes everything is stored, and the condition is on what is stored
      obtain rfl := hall hn
      have hnone := List.length_eq_zero_iff.mp hn
      have hempty : ¬ ∃ iov ∈ pre, iov.bytes ≠ [] := by
        rintro ⟨iov, hiov, hbytes⟩
        exact hbytes (CIovec.concat_eq_nil_iff.mp hnone iov hiov)
      rw [putAll_of_concat_nil hnone (by omega)] at hlist
      · exact Vec.ext hlist
      · rcases hcond with rfl | hbytes | hle
        · exact Or.inl rfl
        · exact absurd hbytes hempty
        · exact Or.inr (by omega)
    · have hne : pre ≠ [] := by
        rintro rfl
        exact absurd hpos (Nat.lt_irrefl 0)
      have hlen := congrArg List.length hlist
      rw [length_putAll hne (by omega)] at hlen
      simp only [Vec.size]
      omega

theorem writeFrom_argument (s : State) (o : OpenId) {offset : UInt64}
    (h : offset.toNat < 2147483648) :
    0 ≤ writeFrom s o (.argument offset) ∧ writeFrom s o (.argument offset) < 2147483648 :=
  ⟨Int.natCast_nonneg _, Int.ofNat_lt.mpr h⟩

theorem extendsExactly_createFile : ∃ s replies o buffer, afterRun createFile = .ok (s, replies) ∧
    ExtendsExactly .still s (s.descriptions o).file buffer 5
      (.fd_pwrite 4 [⟨false, [1], by decide⟩] 5) := by
  obtain ⟨s, replies, o, buffer, hok, ho, hb, -, -⟩ := afterRun_createFile
  refine ⟨s, replies, o, buffer, hok, ?_⟩
  have hc : (Call.fd_pwrite 4 [⟨false, [1], by decide⟩] 5).segments? =
      some (4, [⟨false, [1], by decide⟩], .argument 5) := rfl
  obtain ⟨h0, h31⟩ := writeFrom_argument s o (show (5 : UInt64).toNat < 2147483648 by decide)
  exact (extendsExactly_iff .still hc ho hb h0 h31).mpr
    (Or.inr (Or.inl ⟨_, List.mem_cons_self, by decide⟩))

/-- An empty segment at offset 5 of an empty file gives it five bytes. -/
theorem not_extendsExactly_empty : ¬ ∀ (host : Host) (s : State) (c : Call) (fd : UInt32)
    (iovs : List CIovec) (handling : OffsetHandling) (o : OpenId) (buffer : Buffer),
    Reachable host s → c.segments? = some (fd, iovs, handling) →
    FileTable.getEntry s fd.toNat = some o →
    (s.files (s.descriptions o).file).buffer? = some buffer →
    0 ≤ writeFrom s o handling → writeFrom s o handling < 2147483648 →
    ExtendsExactly host s (s.descriptions o).file buffer (writeFrom s o handling) c := by
  intro hall
  obtain ⟨s, replies, hok, ho, hb, s', r, hwrite, hr, hgrown⟩ :
      Returns (afterRun createFile) fun s _ =>
        FileTable.getEntry s (4 : UInt32).toNat = some 4 ∧
        (s.files (s.descriptions 4).file).buffer? = some Vec.empty ∧
        Returns (exec .still s (.fd_pwrite 4 [⟨false, [], by decide⟩] 5)) fun s' r =>
          r = ⟨0, .written 0⟩ ∧
          (s'.files (s.descriptions 4).file).buffer? = some ⟨[0, 0, 0, 0, 0], by decide⟩ := by
    decide +kernel
  rw [hr] at hwrite
  obtain ⟨h0, h31⟩ := writeFrom_argument s 4 (show (5 : UInt64).toNat < 2147483648 by decide)
  obtain ⟨b, hb', hkeep, -⟩ := hall .still s (.fd_pwrite 4 [⟨false, [], by decide⟩] 5) 4 _
    (.argument 5) 4 Vec.empty (.of_afterRun hok) rfl ho hb h0 h31 s' 0 hwrite
  cases hgrown.symm.trans hb'
  cases hkeep rfl

end WasmFS
