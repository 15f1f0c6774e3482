import WasmFS.Data.AccessModes
import WasmFS.Data.Extents

/-!
# Transfers that fail

A read that fails has done nothing.  A write can fail after it has done something.  The
segments before a null buffer are stored by then, inside the buffer or not, empty
segments beyond the end have grown the file before a segment is refused, and a
description that appends has been moved to the end.  So a failing write has no effect
exactly when its copies stay inside the buffer, the bytes of the segments before the one
it fails at are in the file already, and the description is where the write starts
(`failsClean_iff`).
-/

namespace WasmFS

open Lists MemoryDataFile

variable {host : Host} {s s' : State} {f : FileId} {buffer : Buffer} {o : OpenId}

/-! ## Statements -/

/-- The descriptor of a call that moves bytes. -/
def Call.transfers? (c : Call) : Option UInt32 :=
  match c.segments? with
  | some (fd, _, _) => some fd
  | none => c.reads?

/-- What a call may end in.  After a copy to a place outside the buffer this is any state
with any reply.  A copy from there changes no state. -/
def MayEnd (host : Host) (s : State) (c : Call) (s' : State) (r : Reply) : Prop :=
  exec host s c = .ok (s', r) ∨
    (exec host s c = .error .outOfBounds ∧ (c.segments? = none → s' = s))

/-- If the call reports an error, then the bytes of the file and the position of the
description are as they were. -/
def FailsClean (host : Host) (s : State) (o : OpenId) (buffer : Buffer) (c : Call) : Prop :=
  ∀ s' r, MayEnd host s c s' r → r.errno ≠ 0 →
    (s'.files (s.descriptions o).file).buffer? = some buffer ∧
      (s'.descriptions o).position = (s.descriptions o).position

/-- A write from `p` on to a file of `size` bytes stores the segments `pre` and fails at the
segment after them.  Either that one is null and not empty, or it is refused and the
others are empty. -/
def FailsAt (size p : Nat) (pre : List CIovec) (iov : CIovec) : Prop :=
  Storable size p pre ∧
    (iov.Unreadable ∨
      (¬ iov.Unreadable ∧ CIovec.concat pre = [] ∧ Refuses p iov.bytes.length))

/-- The bytes of the segments are in the file already, at the place where a write from `p`
on puts them.  With no bytes in the segments, `p` is not beyond the end. -/
def Present (xs : List UInt8) (p : Nat) (pre : List CIovec) : Prop :=
  pre = [] ∨ ((p < 9223372036854775808 → p ≤ xs.length) ∧
    CIovec.concat pre <+: xs.drop (p % 4294967296))

/-- The position is where the write starts. -/
def StartsInPlace (s : State) (o : OpenId) : OffsetHandling → Prop
  | .argument _ => True
  | .openFileState => writePosition s o = (s.descriptions o).position

/-- The call writes inside the buffer.  Whenever the segments make it fail, it has done
nothing before. -/
structure Call.CleanSoFar (s : State) (o : OpenId) (buffer : Buffer) (c : Call) : Prop where
  inside : c.WritesInside (s.descriptions o) buffer.size
  idle : ∀ fd iovs handling, c.segments? = some (fd, iovs, handling) →
    ∀ pre iov rest, iovs = pre ++ iov :: rest →
      FailsAt buffer.size (u64 (writeFrom s o handling)) pre iov →
      Present buffer.toList (u64 (writeFrom s o handling)) pre ∧ StartsInPlace s o handling

/-! ## Bytes and positions -/

theorem putAll_eq_self_iff {xs : List UInt8} {p : Nat} {pre : List CIovec}
    (h : Storable xs.length p pre) : putAll xs p pre = xs ↔ Present xs p pre := by
  unfold putAll Present
  by_cases hnil : pre = []
  · rw [if_pos hnil]
    exact iff_of_true rfl (Or.inl hnil)
  · rw [if_neg hnil, or_iff_right hnil, put_eq_self_iff (h.fits.resolve_left hnil)]

/-- Where the description is when the loop starts. -/
theorem writeStart_moves_iff (hb : (s.files (s.descriptions o).file).body = .memory buffer)
    (handling : OffsetHandling) :
    ((writeStart s o handling).1.descriptions o).position = (s.descriptions o).position ↔
      StartsInPlace s o handling := by
  cases handling with
  | argument offset => exact iff_of_true rfl trivial
  | openFileState =>
      have hdata := File.isDataFile_of_memory hb
      simp only [writeStart, StartsInPlace, writePosition]
      split
      · rename_i happend
        rw [if_pos ⟨happend, hdata⟩]
        simp only [State.modifyOpen_self]
      · rename_i happend
        rw [if_neg fun h => happend h.1]

/-- The errors of the loop. -/
theorem LoopEnds.of_error {p w : Nat} {rest : List CIovec} {code : Int}
    (h : LoopEnds p w rest (.error code)) : ∃ iov rest', rest = iov :: rest' ∧
      (iov.Unreadable ∨ (¬ iov.Unreadable ∧ w = 0 ∧ Refuses p iov.bytes.length)) := by
  generalize hout : (Except.error code : Except Int Nat) = out at h
  cases h with
  | done => cases hout
  | unreadable hiov => exact ⟨_, _, rfl, Or.inl hiov⟩
  | refused hiov hrefuses =>
      split at hout
      · cases hout
      · rename_i hw
        exact ⟨_, _, rfl, Or.inr ⟨hiov, Nat.eq_zero_of_not_pos hw, hrefuses⟩⟩

/-- A loop that may fail at a segment does so, with a code that is not zero. -/
theorem LoopEnds.of_failsAt {size p : Nat} {pre : List CIovec} {iov : CIovec}
    (rest : List CIovec) (h : FailsAt size p pre iov) : ∃ e : Errno,
      LoopEnds (p + (CIovec.concat pre).length) (CIovec.concat pre).length (iov :: rest)
        (.error e.code) := by
  rcases h.2 with hiov | ⟨hiov, hnone, hrefuses⟩
  · exact ⟨.inval, .unreadable hiov⟩
  · rw [hnone]
    exact ⟨.io, .refused hiov hrefuses⟩

/-! ## When failures are clean -/

section

variable {fd : Nat} {handling : OffsetHandling} (ho : FileTable.getEntry s fd = some o)
  (hb : (s.files (s.descriptions o).file).body = .memory buffer)

include ho hb

/-- A write that fails has done nothing if the segments say so. -/
theorem writeAtOffset_clean {iovs : List CIovec} {code : Int}
    (h : ∀ pre iov rest, iovs = pre ++ iov :: rest →
      FailsAt buffer.size (u64 (writeFrom s o handling)) pre iov →
      Present buffer.toList (u64 (writeFrom s o handling)) pre ∧ StartsInPlace s o handling)
    (hok : writeAtOffset host s handling fd iovs = .ok (s', .error code)) :
    (s'.files (s.descriptions o).file).buffer? = some buffer ∧
      (s'.descriptions o).position = (s.descriptions o).position := by
  obtain ⟨s₁, hstores, -, hs'⟩ := writeAtOffset_stores ho hb hok
  obtain rfl := hs' code rfl
  obtain ⟨pre, rest, b, hsplit, hpre, hlist, rfl, hends⟩ := hstores
  rw [Nat.zero_add] at hends
  obtain ⟨iov, rest', rfl, hfails⟩ := hends.of_error
  have hat : FailsAt buffer.size (u64 (writeFrom s o handling)) pre iov := by
    refine ⟨hpre, hfails.imp_right ?_⟩
    rintro ⟨hiov, hzero, hrefuses⟩
    rw [hzero] at hrefuses
    exact ⟨hiov, List.length_eq_zero_iff.mp hzero, hrefuses⟩
  obtain ⟨hpresent, hplace⟩ := h pre iov rest' hsplit hat
  obtain rfl : b = buffer := Vec.ext (hlist.trans ((putAll_eq_self_iff hpre).mpr hpresent))
  have hb₀ : ((writeStart s o handling).1.files (s.descriptions o).file).body = .memory b := by
    rw [writeStart_files]
    exact hb
  rw [State.setBuffer_self hb₀]
  exact ⟨File.buffer?_of_memory hb₀, (writeStart_moves_iff hb handling).mpr hplace⟩

/-- A write that may fail at a segment does so, with the segments before it stored. -/
theorem writeAtOffset_failsAt (host : Host) {pre : List CIovec} {iov : CIovec}
    (rest : List CIovec) (h : FailsAt buffer.size (u64 (writeFrom s o handling)) pre iov) :
    ∃ (e : Errno) (b : Buffer), writeAtOffset host s handling fd (pre ++ iov :: rest) =
        .ok ((writeStart s o handling).1.modify (s.descriptions o).file fun x => x.setBuffer b,
          .error e.code) ∧
      b.toList = putAll buffer.toList (u64 (writeFrom s o handling)) pre := by
  have hlt := u64_lt (writeFrom s o handling)
  have hstart := writeStart_eq hb handling
  have hb₀ : ((writeStart s o handling).1.files (s.descriptions o).file).body =
      .memory buffer := by
    rw [writeStart_files]
    exact hb
  generalize u64 (writeFrom s o handling) = p at h hlt hstart ⊢
  obtain ⟨b, hloop, hlist⟩ :=
    writeLoop_stored host (iov :: rest) hb₀ (w := 0) hlt (Nat.zero_le _) h.1
  obtain ⟨e, hends⟩ := LoopEnds.of_failsAt rest h
  have hend : p + (CIovec.concat pre).length < 18446744073709551616 := by
    rcases h.1.fits with rfl | hfits
    · exact hlt
    · have hbounds := count_bounds (w := 0) buffer.size_le hlt (Nat.zero_le _) hfits
      omega
  rw [Nat.zero_add, writeLoop_of_ends host (State.body_setBuffer hb₀) hend hends, ← hstart] at hloop
  exact ⟨e, b, writeAtOffset_eq_fail handling _ ho (File.isDataFile_of_memory hb) hloop, hlist⟩

end

theorem readAtOffset_clean {fd : Nat} {iovs : List Iovec} {handling : OffsetHandling} {code : Int}
    (ho : FileTable.getEntry s fd = some o)
    (hb : (s.files (s.descriptions o).file).body = .memory buffer)
    (hok : readAtOffset host s handling fd iovs = .ok (s', .error code)) : s' = s := by
  have hdata := File.isDataFile_of_memory hb
  simp only [readAtOffset, ho] at hok
  rw [if_neg (by simp [hdata])] at hok
  obtain ⟨x, hx⟩ :=
    readLoop_memory host (s.descriptions o).file buffer (readStart s o handling) 0 iovs
  rw [hx hb] at hok
  rcases x with e | code' | z <;> simp only [Except.map] at hok <;> cases hok
  rfl

theorem readReply_failed {result : Except Fault (State × Except Int (Nat × List UInt8))} {r : Reply}
    (h : Export.readReply result = .ok (s', r)) (hr : r.errno ≠ 0) :
    ∃ code, result = .ok (s', .error code) := by
  simp only [Export.readReply] at h
  split at h
  · cases h
  · cases h
    exact ⟨_, rfl⟩
  · cases h
    exact absurd rfl hr

theorem writeReply_failed {result : Except Fault (State × Except Int Nat)} {r : Reply}
    (h : Export.writeReply result = .ok (s', r)) (hr : r.errno ≠ 0) :
    ∃ code, result = .ok (s', .error code) := by
  simp only [Export.writeReply] at h
  split at h
  · cases h
  · cases h
    exact ⟨_, rfl⟩
  · cases h
    exact absurd rfl hr

/-- A write to a memory file stays inside the buffer under the condition, and only then. -/
theorem segments_copiesInside {c : Call} {fd : UInt32} {iovs : List CIovec}
    {handling : OffsetHandling} (hseg : c.segments? = some (fd, iovs, handling))
    (ho : FileTable.getEntry s fd.toNat = some o)
    (hbuffer : (s.files (s.descriptions o).file).buffer? = some buffer) :
    CopiesInside host s c ↔ c.WritesInside (s.descriptions o) buffer.size := by
  cases c with
  | fd_write fd' iovs' =>
      cases hseg
      exact fd_write_copiesInside ho hbuffer
  | fd_pwrite fd' iovs' offset =>
      cases hseg
      exact fd_pwrite_copiesInside ho hbuffer
  | _ => cases hseg

/-- After a copy to a place outside the buffer anything may have changed. -/
theorem FailsClean.copiesInside {c : Call} (h : FailsClean host s o buffer c)
    (hseg : c.segments? ≠ none) : CopiesInside host s c := by
  intro hout
  obtain ⟨-, hposition⟩ := h (s.modifyOpen o fun x => { x with position := x.position + 1 })
    ⟨1, .nothing⟩ (Or.inr ⟨hout, fun hnone => absurd hnone hseg⟩) (by decide)
  simp only [State.modifyOpen_self] at hposition
  omega

/-- A failing transfer has no effect exactly when it is a read, or a write that has done
nothing before it fails. -/
theorem failsClean_iff (host : Host) {c : Call} {fd : UInt32} (hc : c.transfers? = some fd)
    (ho : FileTable.getEntry s fd.toNat = some o)
    (hbuffer : (s.files (s.descriptions o).file).buffer? = some buffer) :
    FailsClean host s o buffer c ↔ c.CleanSoFar s o buffer := by
  have hb := File.body_of_buffer? hbuffer
  rw [Call.transfers?] at hc
  split at hc
  · rename_i fd' iovs handling hseg
    cases hc
    constructor
    · intro h
      refine ⟨(segments_copiesInside hseg ho hbuffer).mp (h.copiesInside (by simp [hseg])), ?_⟩
      intro fd' iovs' handling' hseg' pre iov rest hsplit hfails
      cases hseg.symm.trans hseg'
      subst hsplit
      obtain ⟨e, b, hwrite, hlist⟩ := writeAtOffset_failsAt ho hb host rest hfails
      have hne : u16 (e.code : Int) ≠ 0 := by
        rw [Errno.u16_code]
        exact Nat.ne_of_gt e.code_pos
      have hb₀ : ((writeStart s o handling).1.files (s.descriptions o).file).body =
          .memory buffer := by
        rw [writeStart_files]
        exact hb
      obtain ⟨hsame, hposition⟩ := h _ ⟨u16 e.code, .nothing⟩
        (Or.inl (by rw [exec_segments hseg, hwrite]; rfl)) hne
      rw [File.buffer?_of_memory (State.body_setBuffer hb₀)] at hsame
      cases hsame
      exact ⟨(putAll_eq_self_iff hfails.1).mp hlist.symm,
        (writeStart_moves_iff hb handling).mp hposition⟩
    · intro h s' r hend hr
      rcases hend with hok | ⟨hout, -⟩
      · rw [exec_segments hseg] at hok
        obtain ⟨code, hwrite⟩ := writeReply_failed hok hr
        exact writeAtOffset_clean ho hb (h.idle fd iovs handling hseg) hwrite
      · exact absurd hout ((segments_copiesInside hseg ho hbuffer).mpr h.inside)
  · rename_i hseg
    refine iff_of_true ?_ ⟨?_, fun fd' iovs handling hseg' => nomatch hseg.symm.trans hseg'⟩
    · intro s' r hend hr
      obtain rfl : s' = s := by
        rcases hend with hok | ⟨-, hsame⟩
        swap
        · exact hsame hseg
        cases c with
        | fd_read fd' iovs =>
            cases hc
            obtain ⟨code, hread⟩ := readReply_failed hok hr
            exact readAtOffset_clean ho hb hread
        | fd_pread fd' iovs offset =>
            cases hc
            obtain ⟨code, hread⟩ := readReply_failed hok hr
            exact readAtOffset_clean ho hb hread
        | _ => cases hc
      exact ⟨hbuffer, rfl⟩
    · cases c with
      | fd_write | fd_pwrite => cases hseg
      | _ => trivial

/-- With a null buffer in front nothing is done before the failure. -/
theorem failsClean_createFile : ∃ s replies o buffer, afterRun createFile = .ok (s, replies) ∧
    FailsClean .still s o buffer (.fd_pwrite 4 [⟨true, [1], by decide⟩] 7) := by
  obtain ⟨s, replies, o, buffer, hok, ho, hb, -, -⟩ := afterRun_createFile
  refine ⟨s, replies, o, buffer, hok, (failsClean_iff .still rfl ho hb).mpr ⟨?_, ?_⟩⟩
  · have hnone : CIovec.readables [⟨true, [1], by decide⟩] = [] := rfl
    simp only [Call.WritesInside, hnone, WriteInside]
    rw [if_pos (by decide)]
    decide
  intro fd iovs handling hseg pre iov rest hsplit _
  cases hseg
  cases pre with
  | nil => exact ⟨Or.inl rfl, trivial⟩
  | cons iov' pre =>
      rw [List.cons_append, List.cons.injEq] at hsplit
      exact absurd hsplit.2.symm (by simp)

/-- A byte is stored, and then the null buffer after it is found. -/
theorem not_failsClean_null : ¬ ∀ (host : Host) (s : State) (c : Call) (fd : UInt32) (o : OpenId)
    (buffer : Buffer), Reachable host s → c.transfers? = some fd →
    FileTable.getEntry s fd.toNat = some o →
    (s.files (s.descriptions o).file).buffer? = some buffer → FailsClean host s o buffer c := by
  intro hall
  obtain ⟨s, replies, hok, ho, hb, s', r, hwrite, hr, hstored⟩ :
      Returns (afterRun createFile) fun s _ =>
        FileTable.getEntry s (4 : UInt32).toNat = some 4 ∧
        (s.files (s.descriptions 4).file).buffer? = some Vec.empty ∧
        Returns (exec .still s
            (.fd_write 4 [⟨false, [1], by decide⟩, ⟨true, [1], by decide⟩])) fun s' r =>
          r.errno ≠ 0 ∧ (s'.files (s.descriptions 4).file).buffer? = some ⟨[1], by decide⟩ := by
    decide +kernel
  have hclean := hall .still s (.fd_write 4 [⟨false, [1], by decide⟩, ⟨true, [1], by decide⟩]) 4 4
    Vec.empty (.of_afterRun hok) rfl ho hb
  cases hstored.symm.trans (hclean s' r (Or.inl hwrite) hr).1

end WasmFS
