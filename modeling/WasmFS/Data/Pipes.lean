import WasmFS.Data.Loops
import WasmFS.Descriptors.Uses
import WasmFS.Namespace.Attributes
import WasmFS.Source.Pipes

/-!
# What goes into a pipe comes out of it

A transfer through a pipe file moves the bytes of its buffers to the end of the queue, or
takes as many as its buffers hold from the front (`writeLoopOf_pipe`, `readLoopOf_pipe`).
Every other call leaves the queues alone, and no file is taken for a pipe file that is none
(`PipeInvariant`).  So over a run the bytes that writes report are those that reads
deliver, followed by those in the queue (`pipes_fifo`), whichever descriptors of the pipe
are used and whatever is done in between.

A transfer that fails after a part of it was done moves bytes without saying so.  That
takes a null buffer, a buffer of half the address space or an offset at the end of the
64-bit range, and the run has none of these (`PipeCall.Whole`).
-/

namespace WasmFS

/-! ## Transfers -/

namespace PipeFile

theorem push_eq (data : PipeData) (buf : List UInt8) : push data buf = data ++ buf := by
  induction buf generalizing data with
  | nil => rw [push, List.append_nil]
  | cons b buf ih => rw [push, ih, List.append_assoc, List.singleton_append]

theorem pop_eq (data : PipeData) (len : Nat) : pop data len = (data.drop len, data.take len) := by
  induction len generalizing data with
  | zero => simp [pop]
  | succ len ih =>
      cases data with
      | nil => simp [pop]
      | cons b data => simp [pop, ih]

end PipeFile

/-- A buffer that is there and has a length that is not negative. -/
structure CIovec.Whole (iov : CIovec) : Prop where
  there : ¬ (iov.isNull ∧ iov.bytes.length > 0)
  length : iov.bytes.length < 2147483648

structure Iovec.Whole (iov : Iovec) : Prop where
  there : ¬ (iov.isNull ∧ iov.len.toNat > 0)
  length : iov.len.toNat < 2147483648

/-- The room in the buffers of a read. -/
def Iovec.room : List Iovec → Nat
  | [] => 0
  | iov :: iovs => iov.len.toNat + room iovs

/-- A write appends its buffers and counts them. -/
theorem writeLoopOf_pipe {iovs : List CIovec} (hiovs : ∀ iov ∈ iovs, iov.Whole) {offset : Nat}
    (hoffset : offset + 4294967296 ≤ 18446744073709551616) {bytesWritten : Nat}
    (hbytes : bytesWritten < 4294967296) (data : PipeData) :
    ∃ count, writeLoopOf PipeFile.write offset iovs bytesWritten data =
      .ok (data ++ CIovec.concat iovs, .ok count) ∧
      (bytesWritten + (CIovec.concat iovs).length < 4294967296 →
        count = bytesWritten + (CIovec.concat iovs).length) := by
  induction iovs generalizing bytesWritten data with
  | nil =>
      refine ⟨bytesWritten, ?_, fun _ => rfl⟩
      rw [writeLoopOf, CIovec.concat, List.flatMap_nil, List.append_nil]
  | cons iov iovs ih =>
      have hiov := hiovs iov List.mem_cons_self
      have hflow : addWillOverFlow offset bytesWritten = false := by
        unfold addWillOverFlow
        simp only [Bool.and_eq_false_iff, decide_eq_false_iff_not]
        omega
      obtain ⟨count, hrest, hcount⟩ := ih (fun iov' h' => hiovs iov' (.tail iov h'))
        (u32_lt (bytesWritten + iov.bytes.length)) (data ++ iov.bytes)
      refine ⟨count, ?_, fun hlt => ?_⟩
      · have hneg : ¬ (iov.bytes.length : Int) < 0 := by omega
        simp only [writeLoopOf, if_neg hiov.there, hflow, PipeFile.write, PipeFile.push_eq,
          s32_of_lt hiov.length, if_neg hneg, Int.lt_irrefl, if_false, Bool.false_eq_true]
        rw [hrest, CIovec.concat_cons, List.append_assoc]
      · rw [CIovec.concat_cons, List.length_append] at hlt ⊢
        have hsum : u32 ((bytesWritten : Int) + (iov.bytes.length : Int)) =
            bytesWritten + iov.bytes.length := u32_of_lt (by omega)
        rw [hsum] at hcount
        omega

/-- A read takes what there is, up to the room in its buffers, and counts it. -/
theorem readLoopOf_pipe {iovs : List Iovec} (hiovs : ∀ iov ∈ iovs, iov.Whole)
    (offset bytesRead : Nat) (data : PipeData) :
    ∃ count, readLoopOf PipeFile.read offset iovs bytesRead data =
      .ok (data.drop (Iovec.room iovs), .ok (count, data.take (Iovec.room iovs))) ∧
      (bytesRead + (data.take (Iovec.room iovs)).length < 4294967296 →
        count = bytesRead + (data.take (Iovec.room iovs)).length) := by
  induction iovs generalizing bytesRead data with
  | nil => exact ⟨bytesRead, rfl, fun _ => rfl⟩
  | cons iov iovs ih =>
      have hiov := hiovs iov List.mem_cons_self
      have hroom : Iovec.room (iov :: iovs) = iov.len.toNat + Iovec.room iovs := rfl
      have hshort : (data.take iov.len.toNat).length < 2147483648 :=
        Nat.lt_of_le_of_lt (List.length_take_le _ _) hiov.length
      have hneg : ¬ ((data.take iov.len.toNat).length : Int) < 0 := by omega
      have hread : u32 ((data.take iov.len.toNat).length : Int) =
          (data.take iov.len.toNat).length := u32_of_lt (by omega)
      simp only [readLoopOf, if_neg hiov.there, PipeFile.read, PipeFile.pop_eq,
        s32_of_lt hshort, if_neg hneg, hread]
      by_cases hless : (data.take iov.len.toNat).length < iov.len.toNat
      · -- the queue ran empty
        have hall : data.length ≤ iov.len.toNat := by
          rw [List.length_take] at hless
          omega
        have hroom' : data.length ≤ Iovec.room (iov :: iovs) :=
          hroom ▸ Nat.le_trans hall (Nat.le_add_right _ _)
        refine ⟨u32 (bytesRead + data.length), ?_, fun hlt => ?_⟩
        · rw [if_pos hless, List.take_of_length_le hall, List.take_of_length_le hroom',
            List.drop_of_length_le hall, List.drop_of_length_le hroom']
        · rw [List.take_of_length_le hroom'] at hlt ⊢
          exact u32_of_lt hlt
      · obtain ⟨count, hrest, hcount⟩ := ih (fun iov' h' => hiovs iov' (.tail iov h'))
          (u32 (bytesRead + (data.take iov.len.toNat).length)) (data.drop iov.len.toNat)
        refine ⟨count, ?_, fun hlt => ?_⟩
        · rw [if_neg hless, hrest, hroom]
          simp only [List.drop_drop, List.take_add]
        · rw [hroom, List.take_add, List.length_append] at hlt ⊢
          have hsum : u32 ((bytesRead : Int) + ((data.take iov.len.toNat).length : Int)) =
              bytesRead + (data.take iov.len.toNat).length := u32_of_lt (by omega)
          rw [hsum] at hcount
          omega

/-! ## Transfers through a descriptor -/

/-- The descriptor, the offset and the buffers of a write. -/
def PipeCall.writes : PipeCall → Option (Nat × OffsetHandling × List CIovec)
  | .export_ (.fd_write fd iovs) => some (fd.toNat, .openFileState, iovs)
  | .export_ (.fd_pwrite fd iovs offset) => some (fd.toNat, .argument offset, iovs)
  | _ => none

/-- The descriptor, the offset and the buffers of a read. -/
def PipeCall.reads : PipeCall → Option (Nat × OffsetHandling × List Iovec)
  | .export_ (.fd_read fd iovs) => some (fd.toNat, .openFileState, iovs)
  | .export_ (.fd_pread fd iovs offset) => some (fd.toNat, .argument offset, iovs)
  | _ => none

/-- Where a write through the descriptor starts. -/
def PipeState.startOf (v : PipeState) (fd : Nat) (setOffset : OffsetHandling) : Nat :=
  match FileTable.getEntry v.base fd with
  | none => 0
  | some o => (v.writeStart o setOffset).2

/-- A transfer through a pipe that does not fail half way. -/
structure PipeCall.Whole (v : PipeState) (c : PipeCall) : Prop where
  write : ∀ {fd setOffset iovs}, c.writes = some (fd, setOffset, iovs) → v.pipeOf fd ≠ none →
    (∀ iov ∈ iovs, iov.Whole) ∧
      v.startOf fd setOffset + 4294967296 ≤ 18446744073709551616
  read : ∀ {fd setOffset iovs}, c.reads = some (fd, setOffset, iovs) → v.pipeOf fd ≠ none →
    ∀ iov ∈ iovs, iov.Whole

def PipeReply.written : PipeReply → Bool
  | .reply ⟨_, .written _⟩ => true
  | _ => false

def PipeReply.bytes : PipeReply → List UInt8
  | .reply ⟨_, .read _ bytes⟩ => bytes
  | _ => []

/-- The bytes that the call reports to have written to the pipe. -/
def PipeState.sentBy (v : PipeState) (c : PipeCall) (r : PipeReply) (p : PipeId) : List UInt8 :=
  match c.writes with
  | some (fd, _, iovs) => if v.pipeOf fd = some p ∧ r.written then CIovec.concat iovs else []
  | none => []

/-- The bytes that the call delivers from the pipe. -/
def PipeState.receivedBy (v : PipeState) (c : PipeCall) (r : PipeReply) (p : PipeId) : List UInt8 :=
  match c.reads with
  | some (fd, _, _) => if v.pipeOf fd = some p then r.bytes else []
  | none => []

namespace PipeState

variable {v v' : PipeState} {fd : Nat} {p : PipeId}

theorem pipeOf_eq_some_iff : v.pipeOf fd = some p ↔ ∃ o, FileTable.getEntry v.base fd = some o ∧
    v.pipe (v.base.descriptions o).file = some p := by
  rw [pipeOf, Option.bind_eq_some_iff]

theorem lift_ok {α : Type} {result : Except Fault (State × α)} {a : α}
    (h : v.lift result = .ok (v', a)) : ∃ s, result = .ok (s, a) ∧ v' = v.withBase s := by
  cases result with
  | error e => cases h
  | ok r =>
      obtain ⟨s, a'⟩ := r
      cases h
      exact ⟨s, rfl, rfl⟩

/-- The queue of `p` changes, and in the base only positions and times do. -/
structure Transfers (v v' : PipeState) (p : PipeId) (data : PipeData) : Prop where
  base : SameSkeleton v.base v'.base
  pipe : v'.pipe = v.pipe
  next : v'.next = v.next
  data : v'.data = Function.update v.data p data

theorem writeStart_skeleton (v : PipeState) (o : OpenId) (setOffset : OffsetHandling) :
    ∃ s, (v.writeStart o setOffset).1 = v.withBase s ∧ SameSkeleton v.base s := by
  cases setOffset with
  | argument offset => exact ⟨v.base, rfl, .refl _⟩
  | openFileState =>
      by_cases happend : hasFlag (v.base.descriptions o).flags O_APPEND
      · simp only [writeStart, happend, if_true]
        exact ⟨_, rfl, .setPosition v.base o _⟩
      · simp only [writeStart, if_neg happend]
        exact ⟨v.base, rfl, .refl _⟩

/-- A write to a pipe runs the loop on its queue. -/
theorem writeAtOffset_ok {host : Host} {setOffset : OffsetHandling} {iovs : List CIovec}
    {result : Except Int Nat} (hp : v.pipeOf fd = some p)
    (hok : v.writeAtOffset host setOffset fd iovs = .ok (v', result)) :
    ∃ data, Transfers v v' p data ∧
      writeLoopOf PipeFile.write (v.startOf fd setOffset) iovs 0 (v.data p) =
        .ok (data, result) := by
  obtain ⟨o, hfd, hpipe⟩ := pipeOf_eq_some_iff.mp hp
  obtain ⟨s, hstart, hs⟩ := writeStart_skeleton v o setOffset
  have hoffset : v.startOf fd setOffset = (v.writeStart o setOffset).2 := by
    simp only [startOf, hfd]
  simp only [writeAtOffset, hfd, hpipe] at hok
  rw [hstart, ← hoffset] at hok
  have hdata : (v.withBase s).data p = v.data p := rfl
  rw [hdata] at hok
  rcases hloop : writeLoopOf PipeFile.write (v.startOf fd setOffset) iovs 0 (v.data p) with
    e | ⟨data, code | bytesWritten⟩
  · rw [hloop] at hok
    cases hok
  · rw [hloop] at hok
    cases hok
    exact ⟨data, ⟨hs, rfl, rfl, rfl⟩, rfl⟩
  · rw [hloop] at hok
    simp only at hok
    split at hok
    · cases hok
      exact ⟨data, ⟨hs.trans (.updateMTime host s _), rfl, rfl, rfl⟩, rfl⟩
    · cases hok
      exact ⟨data, ⟨hs, rfl, rfl, rfl⟩, rfl⟩

/-- A read from a pipe runs the loop on its queue. -/
theorem readAtOffset_ok {host : Host} {setOffset : OffsetHandling} {iovs : List Iovec}
    {result : Except Int (Nat × List UInt8)} (hp : v.pipeOf fd = some p)
    (hok : v.readAtOffset host setOffset fd iovs = .ok (v', result)) :
    ∃ offset data, Transfers v v' p data ∧
      readLoopOf PipeFile.read offset iovs 0 (v.data p) = .ok (data, result) := by
  obtain ⟨o, hfd, hpipe⟩ := pipeOf_eq_some_iff.mp hp
  simp only [readAtOffset, hfd, hpipe] at hok
  rcases hloop : readLoopOf PipeFile.read (readStart v.base o setOffset) iovs 0 (v.data p) with
    e | ⟨data, result⟩
  · rw [hloop] at hok
    cases hok
  · rw [hloop] at hok
    cases hok
    exact ⟨readStart v.base o setOffset, data, ⟨.refl _, rfl, rfl, rfl⟩, hloop⟩

/-- They return. -/
theorem writeAtOffset_returns (host : Host) {setOffset : OffsetHandling} {iovs : List CIovec}
    {data : PipeData} {result : Except Int Nat} (hp : v.pipeOf fd = some p)
    (hloop : writeLoopOf PipeFile.write (v.startOf fd setOffset) iovs 0 (v.data p) =
      .ok (data, result)) : ∃ v', v.writeAtOffset host setOffset fd iovs = .ok (v', result) := by
  obtain ⟨o, hfd, hpipe⟩ := pipeOf_eq_some_iff.mp hp
  obtain ⟨s, hstart, hs⟩ := writeStart_skeleton v o setOffset
  have hoffset : v.startOf fd setOffset = (v.writeStart o setOffset).2 := by
    simp only [startOf, hfd]
  have hdata : (v.withBase s).data p = v.data p := rfl
  simp only [writeAtOffset, hfd, hpipe]
  rw [hstart, ← hoffset, hdata, hloop]
  cases result with
  | error code => exact ⟨_, rfl⟩
  | ok bytesWritten => exact ⟨_, rfl⟩

end PipeState

/-! ## The invariant -/

/-- The pipe files are special files of the base, and a pipe that is not made yet is
empty. -/
structure PipeInvariant (v : PipeState) : Prop where
  wf : v.base.tree.WF
  known : ∀ {f p}, v.pipe f = some p → p < v.next ∧ f < v.base.next
  object : ∀ {f p}, v.pipe f = some p → (v.base.tree.node f).device? = some .random
  empty : ∀ {p}, v.next ≤ p → v.data p = []

namespace PipeInvariant

variable {host : Host} {v v' : PipeState} {fd : Nat} {p : PipeId}

/-- The base goes on. -/
theorem withBase (hi : PipeInvariant v) {s : State} (hwf : s.tree.WF) (hnext : v.base.next ≤ s.next)
    (hpersists : ∀ f < v.base.next, Persists v.base.tree s.tree f) :
    PipeInvariant (v.withBase s) where
  wf := hwf
  known hf := ⟨(hi.known hf).1, Nat.lt_of_lt_of_le (hi.known hf).2 hnext⟩
  object hf := ((hpersists _ (hi.known hf).2).device?).trans (hi.object hf)
  empty := hi.empty

theorem of_step (hi : PipeInvariant v) {s : State} {c : Call} (hs : Step host v.base c s) :
    PipeInvariant (v.withBase s) := by
  refine hi.withBase ?_ (hs.next_le hi.wf) fun f hf => hs.persists hi.wf hf
  obtain ⟨r, hok⟩ := hs
  obtain ⟨change, hchange⟩ := exec_change hi.wf hok
  rw [hchange.tree]
  exact Change.wf_apply hi.wf hchange.allowed

theorem of_sameFiles (hi : PipeInvariant v) {s : State} (hs : SameFiles v.base s) :
    PipeInvariant (v.withBase s) :=
  hi.withBase (hs.tree ▸ hi.wf) (Nat.le_of_eq hs.next.symm) fun f _ =>
    .of_eq (congrArg (Tree.node · f) hs.tree)

/-- The queue of a pipe changes. -/
theorem transfers (hi : PipeInvariant v) (hp : v.pipeOf fd = some p) {data : PipeData}
    (ht : PipeState.Transfers v v' p data) : PipeInvariant v' where
  wf := ht.base.tree ▸ hi.wf
  known {f q} hf := by
    rw [ht.pipe] at hf
    have hnext : v'.base.next = v.base.next := congrArg Tree.next ht.base.tree
    rw [ht.next, hnext]
    exact hi.known hf
  object hf := by
    rw [ht.base.tree]
    exact hi.object (ht.pipe ▸ hf)
  empty {q} hq := by
    obtain ⟨o, -, hpipe⟩ := PipeState.pipeOf_eq_some_iff.mp hp
    rw [ht.next] at hq
    have hne : q ≠ p := Nat.ne_of_gt (Nat.lt_of_lt_of_le (hi.known hpipe).1 hq)
    rw [ht.data, Function.update_of_ne hne]
    exact hi.empty hq

end PipeInvariant

/-! ## Making a pipe -/

namespace Syscall

variable {host : Host} {v v' : PipeState}

/-- The object of a pipe file. -/
def pipeNode (mode : Nat) : Node := newNode (.device .random) (mode ||| S_IFREG) none

theorem pipe_ok {ret readFd writeFd : Int} (hok : pipe host v = .ok (v', ret, readFd, writeFd)) :
    v'.base.tree = (v.base.tree.alloc (pipeNode S_IRUGO)).alloc (pipeNode S_IWUGO) ∧
      v'.pipe = Function.update (Function.update v.pipe v.base.next (some v.next))
        (v.base.next + 1) (some v.next) ∧
      v'.data = Function.update v.data v.next [] ∧ v'.next = v.next + 1 := by
  have htree : ∀ (s : State) (mode : Nat), (makePipeFile host s mode).1.tree =
      s.tree.alloc (pipeNode mode) := fun s mode => Init.tree_make host s _ _ _
  have hnext : ∀ (s : State) (mode : Nat), (makePipeFile host s mode).2 = s.next ∧
      (makePipeFile host s mode).1.next = s.next + 1 := fun _ _ => ⟨rfl, rfl⟩
  unfold pipe at hok
  simp only at hok
  split at hok
  · cases hok
  · rename_i s₁ fd₁ hadd₁
    split at hok
    · cases hok
    · rename_i s₂ fd₂ hadd₂
      cases hok
      refine ⟨?_, rfl, rfl, rfl⟩
      rw [(FileTable.addEntry_sameFiles hadd₂).tree, (FileTable.addEntry_sameFiles hadd₁).tree,
        (OpenFileState.create_sameFiles _ _ _).tree, (OpenFileState.create_sameFiles _ _ _).tree,
        htree, htree]

/-- The two files of a new pipe are new, and the others are as before. -/
theorem pipe_file (hpipe : v'.pipe = Function.update (Function.update v.pipe v.base.next
      (some v.next)) (v.base.next + 1) (some v.next)) {f : FileId} {p : PipeId}
    (hf : v'.pipe f = some p) :
    (f = v.base.next ∨ f = v.base.next + 1) ∧ p = v.next ∨
      f ≠ v.base.next ∧ f ≠ v.base.next + 1 ∧ v.pipe f = some p := by
  rw [hpipe] at hf
  by_cases hw : f = v.base.next + 1
  · subst hw
    rw [Function.update_self] at hf
    exact Or.inl ⟨Or.inr rfl, (Option.some.inj hf).symm⟩
  rw [Function.update_of_ne hw] at hf
  by_cases hr : f = v.base.next
  · subst hr
    rw [Function.update_self] at hf
    exact Or.inl ⟨Or.inl rfl, (Option.some.inj hf).symm⟩
  rw [Function.update_of_ne hr] at hf
  exact Or.inr ⟨hr, hw, hf⟩

theorem pipeNode_blank (mode : Nat) : (pipeNode mode).Blank :=
  newNode_blank (.device .random) trivial _ _

end Syscall

theorem PipeInvariant.pipe {host : Host} {v v' : PipeState} (hi : PipeInvariant v)
    {ret readFd writeFd : Int} (hok : Syscall.pipe host v = .ok (v', ret, readFd, writeFd)) :
    PipeInvariant v' := by
  obtain ⟨htree, hpipe, hdata, hnext⟩ := Syscall.pipe_ok hok
  have hblank := Syscall.pipeNode_blank
  have hbase : v'.base.next = v.base.next + 2 := congrArg Tree.next htree
  constructor
  · rw [htree]
    exact (hi.wf.alloc (hblank _)).alloc (hblank _)
  · intro f p hf
    rw [hnext, hbase]
    rcases Syscall.pipe_file hpipe hf with ⟨rfl | rfl, rfl⟩ | ⟨-, -, hf⟩
    · exact ⟨Nat.lt_succ_self _, Nat.lt_add_of_pos_right Nat.two_pos⟩
    · exact ⟨Nat.lt_succ_self _, Nat.lt_succ_self _⟩
    · obtain ⟨hp, hf⟩ := hi.known hf
      exact ⟨Nat.lt_succ_of_lt hp, Nat.lt_add_right 2 hf⟩
  · intro f p hf
    rw [htree]
    rcases Syscall.pipe_file hpipe hf with ⟨rfl | rfl, -⟩ | ⟨hr, hw, hf⟩
    · rw [Tree.node_alloc_of_ne _ _ (Nat.ne_of_lt (Nat.lt_succ_self _))]
      exact congrArg Node.device? (Tree.node_alloc_self v.base.tree _)
    · exact congrArg Node.device? (Tree.node_alloc_self (v.base.tree.alloc _) _)
    · rw [Tree.node_alloc_of_ne _ _ hw, Tree.node_alloc_of_ne _ _ hr]
      exact hi.object hf
  · intro p hp
    rw [hnext] at hp
    rw [hdata, Function.update_of_ne (Nat.ne_of_gt hp)]
    exact hi.empty (Nat.le_of_succ_le hp)

/-! ## Steps -/

namespace Syscall

variable {s s' : State}

theorem dup_sameFiles {fd : Nat} {ret : Int} (h : dup s fd = .ok (s', ret)) : SameFiles s s' := by
  unfold dup at h
  split at h
  · cases h
    exact .refl s
  · exact FileTable.addEntry_sameFiles h

theorem fcntl64_sameFiles {fd : Nat} {cmd : Fcntl} {ret : Int}
    (h : fcntl64 s fd cmd = .ok (s', ret)) : SameFiles s s' := by
  unfold fcntl64 at h
  split at h
  · cases h
    exact .refl s
  · cases cmd with
    | F_DUPFD newfd =>
        simp only at h
        split at h
        · cases h
          exact .refl s
        · split at h
          · cases h
          · rename_i hset
            cases h
            exact FileTable.setEntry_sameFiles hset
    | F_SETFL flags =>
        simp only at h
        split at h
        · cases h
          exact .refl s
        · cases h
          exact .modifyOpen s _ _
    | _ =>
        cases h
        exact .refl s

end Syscall

/-- The descriptor of the data file that the export works on. -/
def Call.dataFd : Call → Option Nat
  | .fd_read fd _ => some fd.toNat
  | .fd_pread fd _ _ => some fd.toNat
  | .fd_write fd _ => some fd.toNat
  | .fd_pwrite fd _ _ => some fd.toNat
  | .fd_filestat_set_size fd _ => some fd.toNat
  | .fd_allocate fd _ _ => some fd.toNat
  | _ => none

namespace PipeState

variable {host : Host} {v v' : PipeState}

theorem endOf_of_pipeOf_none {fd : Nat} (h : v.pipeOf fd = none) : v.endOf fd = none := by
  unfold pipeOf at h
  unfold endOf
  cases hfd : FileTable.getEntry v.base fd with
  | none => rfl
  | some o =>
      rw [hfd] at h
      have hpipe : v.pipe (v.base.descriptions o).file = none := h
      simp [hpipe]

theorem readAtOffset_base {setOffset : OffsetHandling} {fd : Nat} {iovs : List Iovec}
    (h : v.pipeOf fd = none) : (v.readAtOffset host setOffset fd iovs).map readReply =
      v.lift (Export.readReply (WasmFS.readAtOffset host v.base setOffset fd iovs)) := by
  unfold pipeOf at h
  unfold readAtOffset
  cases hfd : FileTable.getEntry v.base fd with
  | none =>
      simp only [WasmFS.readAtOffset, hfd]
      rfl
  | some o =>
      rw [hfd] at h
      have hpipe : v.pipe (v.base.descriptions o).file = none := h
      simp only [hpipe]
      rcases WasmFS.readAtOffset host v.base setOffset fd iovs with
        e | ⟨s, code | ⟨count, bytes⟩⟩ <;> rfl

theorem writeAtOffset_base {setOffset : OffsetHandling} {fd : Nat} {iovs : List CIovec}
    (h : v.pipeOf fd = none) : (v.writeAtOffset host setOffset fd iovs).map writeReply =
      v.lift (Export.writeReply (WasmFS.writeAtOffset host v.base setOffset fd iovs)) := by
  unfold pipeOf at h
  unfold writeAtOffset
  cases hfd : FileTable.getEntry v.base fd with
  | none =>
      simp only [WasmFS.writeAtOffset, hfd]
      rfl
  | some o =>
      rw [hfd] at h
      have hpipe : v.pipe (v.base.descriptions o).file = none := h
      simp only [hpipe]
      rcases WasmFS.writeAtOffset host v.base setOffset fd iovs with e | ⟨s, code | count⟩ <;> rfl

/-- An export that works on no pipe works on the base as ever. -/
theorem execExport_base {c : Call} (h : ∀ {fd}, c.dataFd = some fd → v.pipeOf fd = none) :
    v.execExport host c = v.lift (WasmFS.exec host v.base c) := by
  cases c with
  | fd_read fd iovs => exact readAtOffset_base (h rfl)
  | fd_pread fd iovs offset => exact readAtOffset_base (h rfl)
  | fd_write fd iovs => exact writeAtOffset_base (h rfl)
  | fd_pwrite fd iovs offset => exact writeAtOffset_base (h rfl)
  | fd_filestat_set_size fd size => simp only [execExport, endOf_of_pipeOf_none (h rfl)]
  | fd_allocate fd offset len => simp only [execExport, endOf_of_pipeOf_none (h rfl)]
  | _ => rfl

/-- An export works on the base, or on the queue of a pipe. -/
theorem execExport_cases {call : Call} {reply : Reply}
    (hok : v.execExport host call = .ok (v', reply)) :
    (∃ s, WasmFS.exec host v.base call = .ok (s, reply) ∧ v' = v.withBase s) ∨
      call.setsSlot = false ∧ ∃ fd p data, v.pipeOf fd = some p ∧ Transfers v v' p data := by
  by_cases hpipe : ∃ fd p, call.dataFd = some fd ∧ v.pipeOf fd = some p
  · obtain ⟨fd, p, hfd, hp⟩ := hpipe
    suffices hmoves : call.setsSlot = false ∧
        ∃ data, v.pipeOf fd = some p ∧ Transfers v v' p data by
      exact Or.inr ⟨hmoves.1, fd, p, hmoves.2⟩
    have hread : ∀ {setOffset iovs}, (v.readAtOffset host setOffset fd iovs).map readReply =
        .ok (v', reply) → ∃ data, v.pipeOf fd = some p ∧ Transfers v v' p data := by
      intro setOffset iovs hok
      rcases hr : v.readAtOffset host setOffset fd iovs with e | ⟨v₁, code | result⟩
      · rw [hr] at hok
        cases hok
      all_goals
        rw [hr] at hok
        cases hok
        obtain ⟨offset, data, ht, -⟩ := readAtOffset_ok hp hr
        exact ⟨data, hp, ht⟩
    have hwrite : ∀ {setOffset iovs}, (v.writeAtOffset host setOffset fd iovs).map writeReply =
        .ok (v', reply) → ∃ data, v.pipeOf fd = some p ∧ Transfers v v' p data := by
      intro setOffset iovs hok
      rcases hw : v.writeAtOffset host setOffset fd iovs with e | ⟨v₁, code | count⟩
      · rw [hw] at hok
        cases hok
      all_goals
        rw [hw] at hok
        cases hok
        obtain ⟨data, ht, -⟩ := writeAtOffset_ok hp hw
        exact ⟨data, hp, ht⟩
    obtain ⟨o, hentry, hf⟩ := pipeOf_eq_some_iff.mp hp
    have hend : v.endOf fd = some (v.base.descriptions o).file := by
      simp [endOf, hentry, hf]
    have hsame : Transfers v v p (v.data p) :=
      ⟨.refl _, rfl, rfl, (Function.update_eq_self ..).symm⟩
    cases call with
    | fd_read => cases hfd; exact ⟨rfl, hread hok⟩
    | fd_pread => cases hfd; exact ⟨rfl, hread hok⟩
    | fd_write => cases hfd; exact ⟨rfl, hwrite hok⟩
    | fd_pwrite => cases hfd; exact ⟨rfl, hwrite hok⟩
    | fd_filestat_set_size =>
        cases hfd
        simp only [execExport, hend] at hok
        cases hok
        exact ⟨rfl, _, hp, hsame⟩
    | fd_allocate =>
        cases hfd
        simp only [execExport, hend] at hok
        cases hok
        exact ⟨rfl, _, hp, hsame⟩
    | _ => cases hfd
  · have hnone : ∀ {fd}, call.dataFd = some fd → v.pipeOf fd = none := by
      intro fd hfd
      rw [Option.eq_none_iff_forall_ne_some]
      exact fun p hp => hpipe ⟨fd, p, hfd, hp⟩
    rw [execExport_base hnone] at hok
    obtain ⟨s, hexec, rfl⟩ := lift_ok hok
    exact Or.inl ⟨s, hexec, rfl⟩

/-- A result that is mapped into a reply. -/
theorem map_ok {α β : Type} {result : Except Fault (PipeState × α)} {g : α → β} {b : β}
    (h : result.map (fun x => (x.1, g x.2)) = .ok (v', b)) :
    ∃ a, result = .ok (v', a) ∧ g a = b := by
  cases result with
  | error e => cases h
  | ok x =>
      cases h
      exact ⟨x.2, rfl, rfl⟩

/-- A call on the base that answers a number. -/
theorem of_lift_result {result : Except Fault (State × Int)} {r : PipeReply}
    (h : (v.lift result).map (fun x => (x.1, PipeReply.result x.2)) = .ok (v', r)) :
    ∃ s ret, result = .ok (s, ret) ∧ v' = v.withBase s ∧ r = .result ret := by
  obtain ⟨ret, hlift, hr⟩ := map_ok h
  obtain ⟨s, hok, hv⟩ := lift_ok hlift
  exact ⟨s, ret, hok, hv, hr.symm⟩

/-- The call that makes a pipe. -/
theorem pipe_of_exec {r : PipeReply} (h : v.exec host .pipe = .ok (v', r)) :
    ∃ ret readFd writeFd, Syscall.pipe host v = .ok (v', ret, readFd, writeFd) ∧
      r = .fds ret readFd writeFd := by
  obtain ⟨⟨ret, readFd, writeFd⟩, hpipe, hr⟩ := map_ok (α := Int × Int × Int)
    (g := fun x => PipeReply.fds x.1 x.2.1 x.2.2) h
  exact ⟨ret, readFd, writeFd, hpipe, hr.symm⟩

end PipeState

/-- Every call keeps the invariant. -/
theorem PipeInvariant.exec {host : Host} {v v' : PipeState} (hi : PipeInvariant v) {c : PipeCall}
    {r : PipeReply} (hok : v.exec host c = .ok (v', r)) : PipeInvariant v' := by
  cases c with
  | export_ call =>
      obtain ⟨reply, hexport, -⟩ := PipeState.map_ok hok
      rcases PipeState.execExport_cases hexport with ⟨s, hexec, rfl⟩ | ⟨-, fd, p, data, hp, ht⟩
      · exact hi.of_step ⟨reply, hexec⟩
      · exact hi.transfers hp ht
  | pipe =>
      obtain ⟨ret, readFd, writeFd, hpipe, -⟩ := PipeState.pipe_of_exec hok
      exact hi.pipe hpipe
  | dup fd =>
      obtain ⟨s, ret, hdup, rfl, -⟩ := PipeState.of_lift_result hok
      exact hi.of_sameFiles (Syscall.dup_sameFiles hdup)
  | dup3 oldfd newfd =>
      obtain ⟨s, ret, hdup, rfl, -⟩ := PipeState.of_lift_result hok
      exact hi.of_sameFiles (Syscall.dup3_sameFiles hdup)
  | fcntl64 fd cmd =>
      obtain ⟨s, ret, hfcntl, rfl, -⟩ := PipeState.of_lift_result hok
      exact hi.of_sameFiles (Syscall.fcntl64_sameFiles hfcntl)
  | poll fds =>
      cases hok
      exact hi

/-! ## The balance of a pipe -/

namespace PipeState

variable {host : Host} {v v' : PipeState}

/-- A write leaves its bytes behind those that were there. -/
theorem writeAtOffset_data {setOffset : OffsetHandling} {fd : Nat} {iovs : List CIovec}
    {reply : Reply}
    (hwhole : v.pipeOf fd ≠ none → (∀ iov ∈ iovs, iov.Whole) ∧
      v.startOf fd setOffset + 4294967296 ≤ 18446744073709551616)
    (hok : (v.writeAtOffset host setOffset fd iovs).map writeReply = .ok (v', reply))
    (p : PipeId) : v'.data p = v.data p ++ if v.pipeOf fd = some p ∧
      (PipeReply.reply reply).written then CIovec.concat iovs else [] := by
  cases hq : v.pipeOf fd with
  | none =>
      rw [writeAtOffset_base hq] at hok
      obtain ⟨s, -, rfl⟩ := lift_ok hok
      rw [if_neg fun h => Option.some_ne_none p h.1.symm, List.append_nil]
      rfl
  | some q =>
      obtain ⟨hiovs, hoffset⟩ := hwhole (by rw [hq]; exact Option.some_ne_none q)
      obtain ⟨count, hloop, -⟩ := writeLoopOf_pipe hiovs hoffset (Nat.zero_lt_succ _) (v.data q)
      rcases hw : v.writeAtOffset host setOffset fd iovs with e | ⟨v₁, result⟩
      · rw [hw] at hok
        cases hok
      obtain ⟨data, ht, hrun⟩ := writeAtOffset_ok hq hw
      rw [hloop] at hrun
      cases hrun
      rw [hw] at hok
      cases hok
      rw [ht.data]
      by_cases hqp : p = q
      · subst hqp
        rw [Function.update_self, if_pos ⟨rfl, rfl⟩]
      · rw [Function.update_of_ne hqp, if_neg fun h => hqp (Option.some.inj h.1).symm,
          List.append_nil]

/-- A read takes what it delivers from the front. -/
theorem readAtOffset_data {setOffset : OffsetHandling} {fd : Nat} {iovs : List Iovec}
    {reply : Reply} (hwhole : v.pipeOf fd ≠ none → ∀ iov ∈ iovs, iov.Whole)
    (hok : (v.readAtOffset host setOffset fd iovs).map readReply = .ok (v', reply))
    (p : PipeId) : v.data p =
      (if v.pipeOf fd = some p then (PipeReply.reply reply).bytes else []) ++ v'.data p := by
  cases hq : v.pipeOf fd with
  | none =>
      rw [readAtOffset_base hq] at hok
      obtain ⟨s, -, rfl⟩ := lift_ok hok
      rw [if_neg (Option.some_ne_none p).symm, List.nil_append]
      rfl
  | some q =>
      have hiovs := hwhole (by rw [hq]; exact Option.some_ne_none q)
      rcases hr : v.readAtOffset host setOffset fd iovs with e | ⟨v₁, result⟩
      · rw [hr] at hok
        cases hok
      obtain ⟨offset, data, ht, hrun⟩ := readAtOffset_ok hq hr
      obtain ⟨count, hloop, -⟩ := readLoopOf_pipe hiovs offset 0 (v.data q)
      rw [hloop] at hrun
      cases hrun
      rw [hr] at hok
      cases hok
      rw [ht.data]
      by_cases hqp : p = q
      · subst hqp
        rw [Function.update_self, if_pos rfl]
        exact (List.take_append_drop _ _).symm
      · rw [Function.update_of_ne hqp, if_neg fun h => hqp (Option.some.inj h).symm,
          List.nil_append]

theorem execExport_balance {call : Call} {reply : Reply}
    (hc : PipeCall.Whole v (.export_ call)) (hok : v.execExport host call = .ok (v', reply))
    (p : PipeId) : v.data p ++ v.sentBy (.export_ call) (.reply reply) p =
      v.receivedBy (.export_ call) (.reply reply) p ++ v'.data p := by
  have hwrite : ∀ {fd setOffset iovs},
      PipeCall.writes (.export_ call) = some (fd, setOffset, iovs) →
      PipeCall.reads (.export_ call) = none →
      (v.writeAtOffset host setOffset fd iovs).map writeReply = .ok (v', reply) →
      v.data p ++ v.sentBy (.export_ call) (.reply reply) p =
        v.receivedBy (.export_ call) (.reply reply) p ++ v'.data p := by
    intro fd setOffset iovs hw hr hok
    simp only [sentBy, receivedBy, hw, hr, List.nil_append]
    exact (writeAtOffset_data (hc.write hw) hok p).symm
  have hread : ∀ {fd setOffset iovs}, PipeCall.writes (.export_ call) = none →
      PipeCall.reads (.export_ call) = some (fd, setOffset, iovs) →
      (v.readAtOffset host setOffset fd iovs).map readReply = .ok (v', reply) →
      v.data p ++ v.sentBy (.export_ call) (.reply reply) p =
        v.receivedBy (.export_ call) (.reply reply) p ++ v'.data p := by
    intro fd setOffset iovs hw hr hok
    simp only [sentBy, receivedBy, hw, hr, List.append_nil]
    exact readAtOffset_data (hc.read hr) hok p
  have hlift : ∀ {result : Except Fault (State × Reply)}, v.lift result = .ok (v', reply) →
      v.data p = v'.data p := by
    intro result hok
    obtain ⟨s, -, rfl⟩ := lift_ok hok
    rfl
  cases call with
  | fd_read => exact hread rfl rfl hok
  | fd_pread => exact hread rfl rfl hok
  | fd_write => exact hwrite rfl rfl hok
  | fd_pwrite => exact hwrite rfl rfl hok
  | fd_filestat_set_size =>
      refine (List.append_nil _).trans ?_
      simp only [execExport] at hok
      split at hok
      · cases hok
        rfl
      · exact hlift hok
  | fd_allocate =>
      refine (List.append_nil _).trans ?_
      simp only [execExport] at hok
      split at hok
      · cases hok
        rfl
      · exact hlift hok
  | _ =>
      simp only [execExport] at hok
      exact (List.append_nil _).trans (hlift hok)

/-- A call adds what it sends to the end, and takes what it delivers from the front. -/
theorem exec_balance (hi : PipeInvariant v) {c : PipeCall} {r : PipeReply} (hc : c.Whole v)
    (hok : v.exec host c = .ok (v', r)) (p : PipeId) :
    v.data p ++ v.sentBy c r p = v.receivedBy c r p ++ v'.data p := by
  have hlift : ∀ {result : Except Fault (State × Int)},
      (v.lift result).map (fun x => (x.1, PipeReply.result x.2)) = .ok (v', r) →
      v.data p = v'.data p := by
    intro result hok
    obtain ⟨s, ret, -, rfl, -⟩ := of_lift_result hok
    rfl
  cases c with
  | export_ call =>
      obtain ⟨reply, hexport, rfl⟩ := map_ok hok
      exact execExport_balance hc hexport p
  | pipe =>
      obtain ⟨ret, readFd, writeFd, hpipe, -⟩ := pipe_of_exec hok
      obtain ⟨-, -, hdata, -⟩ := Syscall.pipe_ok hpipe
      rw [hdata, ← hi.empty (Nat.le_refl v.next), Function.update_eq_self]
      exact List.append_nil _
  | dup fd => exact (List.append_nil _).trans (hlift hok)
  | dup3 oldfd newfd => exact (List.append_nil _).trans (hlift hok)
  | fcntl64 fd cmd => exact (List.append_nil _).trans (hlift hok)
  | poll fds =>
      cases hok
      exact List.append_nil _

end PipeState

/-! ## Runs -/

/-- A run from the initial state, with the bytes that were written to each pipe and the
bytes that were read from it so far. -/
inductive PipeState.Runs (host : Host) :
    (PipeId → List UInt8) → (PipeId → List UInt8) → PipeState → Prop where
  | init : Runs host (fun _ => []) (fun _ => []) (.init host)
  | call {sent received : PipeId → List UInt8} {v v' : PipeState} {c : PipeCall} {r : PipeReply} :
      Runs host sent received v → c.Whole v → v.exec host c = .ok (v', r) →
      Runs host (fun p => sent p ++ v.sentBy c r p) (fun p => received p ++ v.receivedBy c r p) v'

theorem PipeInvariant.init (host : Host) : PipeInvariant (.init host) where
  wf := by
    show (WasmFS.init host).tree.WF
    rw [tree_init]
    exact Start.tree_wf
  known hf := by cases hf
  object hf := by cases hf
  empty _ := rfl

theorem PipeState.Runs.balance {host : Host} {sent received : PipeId → List UInt8} {v : PipeState}
    (h : Runs host sent received v) :
    PipeInvariant v ∧ ∀ p, sent p = received p ++ v.data p := by
  induction h with
  | init => exact ⟨.init host, fun _ => rfl⟩
  | call _ hc hok ih =>
      obtain ⟨hi, hbalance⟩ := ih
      refine ⟨hi.exec hok, fun p => ?_⟩
      simp only
      rw [hbalance p, List.append_assoc, PipeState.exec_balance hi hc hok p, List.append_assoc]

/-! ## First in, first out -/

/-- Every write goes through `writeAtOffset`. -/
theorem PipeState.execExport_writes {host : Host} {v : PipeState} {call : Call} {fd : Nat}
    {setOffset : OffsetHandling} {iovs : List CIovec}
    (h : PipeCall.writes (.export_ call) = some (fd, setOffset, iovs)) :
    v.execExport host call = (v.writeAtOffset host setOffset fd iovs).map writeReply := by
  cases call with
  | fd_write | fd_pwrite =>
      cases h
      rfl
  | _ => cases h

/-- Every read goes through `readAtOffset`. -/
theorem PipeState.execExport_reads {host : Host} {v : PipeState} {call : Call} {fd : Nat}
    {setOffset : OffsetHandling} {iovs : List Iovec}
    (h : PipeCall.reads (.export_ call) = some (fd, setOffset, iovs)) :
    v.execExport host call = (v.readAtOffset host setOffset fd iovs).map readReply := by
  cases call with
  | fd_read | fd_pread =>
      cases h
      rfl
  | _ => cases h

/-- What a maintainer of a pipe relies on. -/
structure PipeState.Fifo (host : Host) (v : PipeState) (p : PipeId) (sent received : List UInt8) :
    Prop where
  /-- Every byte comes out once, in order, or is still in the queue. -/
  balance : sent = received ++ v.data p
  /-- A write to any descriptor of the pipe succeeds and takes all of its bytes. -/
  write : ∀ {call fd setOffset iovs}, PipeCall.writes (.export_ call) = some (fd, setOffset, iovs) →
    v.pipeOf fd = some p → PipeCall.Whole v (.export_ call) → ∃ v' count,
      v.execExport host call = .ok (v', ⟨0, .written count⟩) ∧
      ((CIovec.concat iovs).length < 4294967296 → count = (CIovec.concat iovs).length) ∧
      v'.data p = v.data p ++ CIovec.concat iovs
  /-- A read from any descriptor of the pipe delivers the bytes that are next. -/
  read : ∀ {call fd setOffset iovs}, PipeCall.reads (.export_ call) = some (fd, setOffset, iovs) →
    v.pipeOf fd = some p → (∀ iov ∈ iovs, Iovec.Whole iov) →
    ∃ v' count bytes, v.execExport host call = .ok (v', ⟨0, .read count bytes⟩) ∧
      (bytes.length < 4294967296 → count = bytes.length) ∧
      bytes = (sent.drop received.length).take (Iovec.room iovs)
  /-- `poll` reports a descriptor that may read as ready if there is a byte to read. -/
  poll : ∀ {fd : Nat} {o}, FileTable.getEntry v.base fd = some o → v.pipeOf fd = some p →
    (Syscall.revents v ⟨fd, Syscall.POLLIN⟩ = Syscall.POLLIN ↔
      (v.base.descriptions o).flags &&& O_ACCMODE ≠ O_WRONLY ∧
        (v.base.descriptions o).flags &&& O_ACCMODE ≠ O_ACCMODE ∧ received ≠ sent)

theorem Syscall.revents_pollin {v : PipeState} {p : PipeId} {fd : Nat} {o : OpenId}
    (hfd : FileTable.getEntry v.base fd = some o) (hp : v.pipeOf fd = some p) :
    revents v ⟨fd, POLLIN⟩ = POLLIN ↔ (v.base.descriptions o).flags &&& O_ACCMODE ≠ O_WRONLY ∧
      (v.base.descriptions o).flags &&& O_ACCMODE ≠ O_ACCMODE ∧ v.data p ≠ [] := by
  obtain ⟨o', hfd', hpipe⟩ := PipeState.pipeOf_eq_some_iff.mp hp
  obtain rfl : o' = o := Option.some.inj (hfd'.symm.trans hfd)
  have hsize : v.getSize (v.base.descriptions o').file = (v.data p).length := by
    simp only [PipeState.getSize, hpipe]
    rfl
  have hmode : (v.base.descriptions o').flags &&& O_ACCMODE < 4 :=
    Nat.lt_succ_of_le Nat.and_le_right
  have hevents : POLLIN &&& POLLOUT = 0 ∧ POLLIN &&& POLLIN = POLLIN ∧ POLLIN ≠ 0 ∧
      0 ||| POLLIN = POLLIN := by decide
  have hneg : ¬ (fd : Int) < 0 := Int.not_lt.mpr (Int.natCast_nonneg fd)
  obtain ⟨hout, hin, hpos, hor⟩ := hevents
  simp only [revents, if_neg hneg, Int.toNat_natCast, hfd, hout, hin, hsize, ne_eq,
    not_true_eq_false, false_and, if_false, hpos, not_false_eq_true, true_and, hor]
  have hlen : ((v.data p).length : Int) > 0 ↔ v.data p ≠ [] := by
    rw [gt_iff_lt, Int.natCast_pos, List.length_pos_iff]
  generalize (v.base.descriptions o').flags &&& O_ACCMODE = accessMode at hmode ⊢
  have hready : (accessMode = O_RDONLY ∨ accessMode = O_RDWR) ∧ ((v.data p).length : Int) > 0 ↔
      ¬ accessMode = O_WRONLY ∧ ¬ accessMode = O_ACCMODE ∧ ¬ v.data p = [] := by
    rw [hlen, ← and_assoc]
    refine and_congr_left fun _ => ?_
    unfold O_RDONLY O_RDWR O_WRONLY O_ACCMODE
    omega
  rw [← hready]
  split
  · rename_i h
    exact iff_of_true rfl h
  · rename_i h
    exact iff_of_false (fun h0 => hpos h0.symm) h

/-- In every run, whatever calls are made through whatever descriptors, a pipe delivers the
bytes written to it in the order in which they were written, each of them once. -/
theorem pipes_fifo {host : Host} {sent received : PipeId → List UInt8} {v : PipeState}
    (h : PipeState.Runs host sent received v) (p : PipeId) :
    v.Fifo host p (sent p) (received p) := by
  obtain ⟨-, hbalance⟩ := h.balance
  have hrest : (sent p).drop (received p).length = v.data p := by
    rw [hbalance p, List.drop_left]
  have hne : received p ≠ sent p ↔ v.data p ≠ [] := by
    rw [hbalance p, Ne, Ne, List.self_eq_append_right]
  refine ⟨hbalance p, ?_, ?_, ?_⟩
  · intro call fd setOffset iovs hwrites hp hc
    obtain ⟨hiovs, hoffset⟩ := hc.write hwrites (by rw [hp]; exact Option.some_ne_none p)
    obtain ⟨count, hloop, hcount⟩ :=
      writeLoopOf_pipe hiovs hoffset (Nat.zero_lt_succ _) (v.data p)
    obtain ⟨v', hwrite⟩ := PipeState.writeAtOffset_returns host hp hloop
    obtain ⟨data, ht, hrun⟩ := PipeState.writeAtOffset_ok hp hwrite
    rw [hloop] at hrun
    cases hrun
    rw [Nat.zero_add] at hcount
    refine ⟨v', count, ?_, hcount, ?_⟩
    · rw [PipeState.execExport_writes hwrites, hwrite]
      rfl
    · rw [ht.data, Function.update_self]
  · intro call fd setOffset iovs hreads hp hiovs
    obtain ⟨o, hfd, hpipe⟩ := PipeState.pipeOf_eq_some_iff.mp hp
    obtain ⟨count, hloop, hcount⟩ :=
      readLoopOf_pipe hiovs (readStart v.base o setOffset) 0 (v.data p)
    rw [Nat.zero_add] at hcount
    refine ⟨v.setData p ((v.data p).drop (Iovec.room iovs)), count, _, ?_, hcount, by rw [hrest]⟩
    rw [PipeState.execExport_reads hreads]
    simp only [PipeState.readAtOffset, hfd, hpipe, hloop]
    rfl
  · intro fd o hfd hp
    rw [hne]
    exact Syscall.revents_pollin hfd hp

namespace PipeState

/-- The state and the reply after a call that returns. -/
def after (v : PipeState) (c : PipeCall) : PipeState × PipeReply :=
  (v.exec .still c).toOption.getD (v, .result 0)

theorem exec_after {v : PipeState} {c : PipeCall} (h : (v.exec .still c).isOk = true) :
    v.exec .still c = .ok (v.after c) := by
  unfold after
  cases hok : v.exec .still c with
  | error e =>
      rw [hok] at h
      cases h
  | ok x => rfl

theorem Runs.after {sent received : PipeId → List UInt8} {v : PipeState}
    (h : Runs .still sent received v) (c : PipeCall) (hc : c.Whole v)
    (hok : (v.exec .still c).isOk = true) :
    Runs .still (fun p => sent p ++ v.sentBy c (v.after c).2 p)
      (fun p => received p ++ v.receivedBy c (v.after c).2 p) (v.after c).1 :=
  h.call hc (exec_after hok)

end PipeState

theorem PipeCall.Whole.of_none {v : PipeState} {c : PipeCall} (hw : c.writes = none)
    (hr : c.reads = none) : c.Whole v where
  write h := by
    rw [hw] at h
    cases h
  read h := by
    rw [hr] at h
    cases h

theorem CIovec.Whole.of_small {iov : CIovec} (hnull : iov.isNull = false)
    (hlen : iov.bytes.length < 2147483648) : iov.Whole :=
  ⟨fun h => Bool.false_ne_true (hnull.symm.trans h.1), hlen⟩

/-- A pipe with a duplicate of its writing end, a write to each of the two, and a read. -/
theorem pipes_fifo_duplicate : ∃ sent received v, PipeState.Runs .still sent received v ∧
    sent 0 = [1, 2, 3, 4] ∧ received 0 = [1, 2] ∧ v.Fifo .still 0 (sent 0) (received 0) := by
  have hwrite : ∀ {v : PipeState} {fd : UInt32} {iov : CIovec}, iov.Whole →
      v.startOf fd.toNat .openFileState + 4294967296 ≤ 18446744073709551616 →
      PipeCall.Whole v (.export_ (.fd_write fd [iov])) := by
    intro v fd iov hiov hstart
    refine ⟨fun h _ => ?_, fun h => by cases h⟩
    cases h
    exact ⟨fun iov' h' => List.mem_singleton.mp h' ▸ hiov, hstart⟩
  have hread : ∀ {v : PipeState} {fd : UInt32} {iov : Iovec}, iov.Whole →
      PipeCall.Whole v (.export_ (.fd_read fd [iov])) := by
    intro v fd iov hiov
    refine ⟨(fun h => by cases h), fun h _ => ?_⟩
    cases h
    exact fun iov' h' => List.mem_singleton.mp h' ▸ hiov
  have hinit : PipeState.Runs .still _ _ _ := .init
  have hmade := hinit.after .pipe (.of_none rfl rfl) (by decide +kernel)
  have hdup := hmade.after (.fcntl64 4 (.F_DUPFD 10)) (.of_none rfl rfl) (by decide +kernel)
  have hfirst := hdup.after (.export_ (.fd_write 4 [⟨false, [1, 2, 3], by decide⟩]))
    (hwrite (.of_small rfl (by decide)) (by decide +kernel)) (by decide +kernel)
  have hsecond := hfirst.after (.export_ (.fd_write 10 [⟨false, [4], by decide⟩]))
    (hwrite (.of_small rfl (by decide)) (by decide +kernel)) (by decide +kernel)
  have hrest := hsecond.after (.export_ (.fd_read 3 [⟨false, 2⟩]))
    (hread ⟨by decide, by decide⟩) (by decide +kernel)
  exact ⟨_, _, _, hrest, by decide +kernel, by decide +kernel, pipes_fifo hrest 0⟩

end WasmFS
