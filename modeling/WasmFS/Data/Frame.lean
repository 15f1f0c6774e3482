import WasmFS.Namespace.Handles
import WasmFS.Source.Exports

/-!
# What data calls leave alone

A data call changes bytes, times, positions and the trace.  `SameSkeleton` says
that nothing else differs.  It holds for every loop and every system call on a
descriptor that neither opens nor closes one.
-/

namespace WasmFS

/-- The states differ in bytes, times, positions and the trace only. -/
structure SameSkeleton (s s' : State) : Prop where
  tree : s'.tree = s.tree
  table : s'.table = s.table
  nextDescription : s'.nextDescription = s.nextDescription
  descriptions : ∀ o, ∃ position,
    s'.descriptions o = { s.descriptions o with position := position }

namespace SameSkeleton

@[refl] theorem refl (s : State) : SameSkeleton s s := ⟨rfl, rfl, rfl, fun _ => ⟨_, rfl⟩⟩

theorem trans {s s' s'' : State} (h : SameSkeleton s s') (h' : SameSkeleton s' s'') :
    SameSkeleton s s'' where
  tree := h'.tree.trans h.tree
  table := h'.table.trans h.table
  nextDescription := h'.nextDescription.trans h.nextDescription
  descriptions o := by
    obtain ⟨position, hs⟩ := h.descriptions o
    obtain ⟨position', hs'⟩ := h'.descriptions o
    refine ⟨position', ?_⟩
    rw [hs', hs]

theorem modify {s : State} {f : FileId} {g : File → File}
    (h : (g (s.files f)).node = (s.files f).node) : SameSkeleton s (s.modify f g) :=
  ⟨State.tree_modify_of_node h, rfl, rfl, fun _ => ⟨_, rfl⟩⟩

theorem setBuffer (s : State) (f : FileId) (buffer : Buffer) :
    SameSkeleton s (s.modify f fun x => x.setBuffer buffer) :=
  modify (File.node_setBuffer _ _)

theorem ask (s : State) : SameSkeleton s s.ask := ⟨rfl, rfl, rfl, fun _ => ⟨_, rfl⟩⟩

theorem updateMTime (host : Host) (s : State) (f : FileId) :
    SameSkeleton s (s.updateMTime host f) :=
  (modify (s := s) (f := f) (g := fun x => { x with mtime := host.now s.trace.calls }) rfl).trans
    (ask _)

theorem setPosition (s : State) (o : OpenId) (position : Int) :
    SameSkeleton s (s.modifyOpen o fun x => { x with position := position }) where
  tree := rfl
  table := rfl
  nextDescription := rfl
  descriptions o' := by
    by_cases ho : o' = o
    · subst ho
      exact ⟨position, State.modifyOpen_self ..⟩
    · exact ⟨_, State.modifyOpen_of_ne s _ ho⟩

/-- The file of a description stays. -/
theorem file {s s' : State} (h : SameSkeleton s s') (o : OpenId) :
    (s'.descriptions o).file = (s.descriptions o).file := by
  obtain ⟨position, ho⟩ := h.descriptions o
  rw [ho]

end SameSkeleton

variable {host : Host} {s s' : State} {f : FileId} {P : State → Prop}

/-! ## Data files -/

namespace DataFile

theorem write_keeps (hask : ∀ {s}, P s → P s.ask)
    (hset : ∀ {s} (buffer : Buffer), P s → P (s.modify f fun x => x.setBuffer buffer))
    {buf : List UInt8} {offset result : Int} (h : write host s f buf offset = .ok (s', result))
    (hs : P s) : P s' := by
  simp only [write] at h
  split at h
  · split at h
    · cases h
    · cases h
      exact hset _ hs
  all_goals
    cases h
    first
      | exact hs
      | exact hask hs

theorem read_keeps (hask : ∀ {s}, P s → P s.ask) {len : Nat} {offset result : Int}
    {bytes : List UInt8} (h : read host s f len offset = .ok (s', bytes, result)) (hs : P s) :
    P s' := by
  simp only [read] at h
  split at h
  · split at h
    · cases h
    · cases h
      exact hs
  all_goals
    cases h
    first
      | exact hs
      | exact hask hs

theorem setSize_skeleton {size result : Int} (h : setSize s f size = .ok (s', result)) :
    SameSkeleton s s' := by
  unfold setSize at h
  split at h
  · split at h
    · cases h
    · cases h
      exact .setBuffer s f _
  · cases h
    exact .refl s

end DataFile

/-! ## The loops -/

/-- A write keeps what new bytes and a question to the host keep. -/
theorem writeLoop_keeps (hask : ∀ {s}, P s → P s.ask)
    (hset : ∀ {s} (buffer : Buffer), P s → P (s.modify f fun x => x.setBuffer buffer))
    {offset : Nat} {iovs : List CIovec} {bytesWritten : Nat} {result : Except Int Nat}
    (h : writeLoop host f offset iovs bytesWritten s = .ok (s', result)) (hs : P s) : P s' := by
  induction iovs generalizing bytesWritten s with
  | nil =>
      cases h
      exact hs
  | cons iov iovs ih =>
      simp only [writeLoop] at h
      split at h
      · cases h
        exact hs
      split at h
      · cases h
        exact hs
      split at h
      · cases h
      rename_i s₁ written hw
      have hs₁ : P s₁ := DataFile.write_keeps hask hset hw hs
      split at h
      · split at h <;> cases h <;> exact hs₁
      split at h
      · cases h
        exact hs₁
      · exact ih h hs₁

/-- A read keeps what a question to the host keeps. -/
theorem readLoop_keeps (hask : ∀ {s}, P s → P s.ask) {offset : Nat} {iovs : List Iovec}
    {bytesRead : Nat} {result : Except Int (Nat × List UInt8)}
    (h : readLoop host f offset iovs bytesRead s = .ok (s', result)) (hs : P s) : P s' := by
  induction iovs generalizing bytesRead s result with
  | nil =>
      cases h
      exact hs
  | cons iov iovs ih =>
      simp only [readLoop] at h
      split at h
      · cases h
        exact hs
      split at h
      · cases h
      rename_i s₁ bytes count hr
      have hs₁ : P s₁ := DataFile.read_keeps hask hr hs
      split at h
      · split at h <;> cases h <;> exact hs₁
      split at h
      · cases h
        exact hs₁
      · split at h
        · cases h
        · rename_i hloop
          cases h
          exact ih hloop hs₁
        · rename_i hloop
          cases h
          exact ih hloop hs₁

theorem writeLoop_skeleton {offset : Nat} {iovs : List CIovec} {bytesWritten : Nat}
    {result : Except Int Nat}
    (h : writeLoop host f offset iovs bytesWritten s = .ok (s', result)) : SameSkeleton s s' :=
  writeLoop_keeps (P := SameSkeleton s) (fun hs => hs.trans (.ask _))
    (fun buffer hs => hs.trans (.setBuffer _ f buffer)) h (.refl s)

theorem readLoop_skeleton {offset : Nat} {iovs : List Iovec} {bytesRead : Nat}
    {result : Except Int (Nat × List UInt8)}
    (h : readLoop host f offset iovs bytesRead s = .ok (s', result)) : SameSkeleton s s' :=
  readLoop_keeps (P := SameSkeleton s) (fun hs => hs.trans (.ask _)) h (.refl s)

/-! ## The calls -/

theorem writeStart_skeleton (s : State) (o : OpenId) (setOffset : OffsetHandling) :
    SameSkeleton s (writeStart s o setOffset).1 := by
  unfold writeStart
  cases setOffset with
  | argument offset => exact .refl s
  | openFileState =>
      simp only
      split
      · exact .setPosition s o _
      · exact .refl s

theorem advance_skeleton (s : State) (o : OpenId) (setOffset : OffsetHandling)
    (offset bytes : Nat) : SameSkeleton s (advance s o setOffset offset bytes) := by
  unfold advance
  split
  · exact .setPosition s o _
  · exact .refl s

theorem writeAtOffset_skeleton {setOffset : OffsetHandling} {fd : Nat} {iovs : List CIovec}
    {result : Except Int Nat} (h : writeAtOffset host s setOffset fd iovs = .ok (s', result)) :
    SameSkeleton s s' := by
  unfold writeAtOffset at h
  split at h
  · cases h
    exact .refl s
  rename_i o _
  simp only at h
  split at h
  · cases h
    exact .refl s
  have hstart := writeStart_skeleton s o setOffset
  split at h
  · cases h
  · rename_i s₁ code hloop
    cases h
    exact hstart.trans (writeLoop_skeleton hloop)
  · rename_i s₁ bytesWritten hloop
    have hs := (hstart.trans (writeLoop_skeleton hloop)).trans
      (advance_skeleton s₁ o setOffset (writeStart s o setOffset).2 bytesWritten)
    cases h
    split
    · exact hs.trans (.updateMTime host _ _)
    · exact hs

theorem readAtOffset_skeleton {setOffset : OffsetHandling} {fd : Nat} {iovs : List Iovec}
    {result : Except Int (Nat × List UInt8)}
    (h : readAtOffset host s setOffset fd iovs = .ok (s', result)) : SameSkeleton s s' := by
  unfold readAtOffset at h
  split at h
  · cases h
    exact .refl s
  simp only at h
  split at h
  · cases h
    exact .refl s
  split at h
  · cases h
  · rename_i hloop
    cases h
    exact readLoop_skeleton hloop
  · rename_i hloop
    cases h
    exact (readLoop_skeleton hloop).trans (advance_skeleton _ _ _ _ _)

namespace Syscall

theorem doTruncate_skeleton {f : FileId} {size ret : Int}
    (h : doTruncate s f size = .ok (s', ret)) : SameSkeleton s s' := by
  unfold doTruncate at h
  split at h
  · cases h
    exact .refl s
  split at h
  · cases h
    exact .refl s
  split at h
  · cases h
    exact .refl s
  · exact DataFile.setSize_skeleton h

theorem ftruncate64_skeleton {fd : Nat} {size ret : Int}
    (h : ftruncate64 s fd size = .ok (s', ret)) : SameSkeleton s s' := by
  unfold ftruncate64 at h
  split at h
  · cases h
    exact .refl s
  split at h
  · cases h
  · rename_i ht
    cases h
    exact doTruncate_skeleton ht

theorem fallocate_skeleton {fd : Nat} {offset len ret : Int}
    (h : fallocate s fd offset len = .ok (s', ret)) : SameSkeleton s s' := by
  unfold fallocate at h
  split at h
  · cases h
    exact .refl s
  simp only at h
  split at h
  · cases h
    exact .refl s
  split at h
  · cases h
    exact .refl s
  split at h
  · cases h
    exact .refl s
  split at h
  · exact DataFile.setSize_skeleton h
  · cases h
    exact .refl s

theorem seek_skeleton (s : State) (fd : Nat) (offset : Int) (whence : Nat) :
    SameSkeleton s (seek s fd offset whence).1 := by
  unfold seek
  split
  · exact .refl s
  simp only
  split
  · exact .refl s
  split
  · exact .refl s
  split
  · exact .refl s
  · exact .setPosition s _ _

theorem getdents64_skeleton (s : State) (fd count : Nat) :
    SameSkeleton s (getdents64 s fd count).1 := by
  unfold getdents64
  split
  · exact .refl s
  split
  · exact .refl s
  simp only
  split
  · exact .refl s
  split
  · exact .refl s
  · exact .setPosition s _ _

end Syscall

namespace Export

theorem set_times_skeleton (host : Host) (s : State) (f : FileId) (atim mtim : UInt64) :
    SameSkeleton s (set_times host s f atim mtim) :=
  .modify rfl

end Export

end WasmFS
