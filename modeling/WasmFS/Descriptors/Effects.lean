import WasmFS.Namespace.Start

/-!
# What a call does to the descriptor table

A call either keeps every slot or sets one slot with `setEntry`
(`exec_slots`).  Otherwise it may move positions and make descriptions that no
slot holds.  So what `setEntry` and a new description preserve holds in every state
that a run reaches.
-/

namespace WasmFS

/-- The states have the same descriptions in the same slots, and no hook was
called. -/
structure SameDescriptors (s s' : State) : Prop where
  table : s'.table = s.table
  descriptions : s'.descriptions = s.descriptions
  nextDescription : s'.nextDescription = s.nextDescription
  hooks : s'.trace.hooks = s.trace.hooks

/-- Every slot is as before.  Positions may differ, and there may be new
descriptions that are not used. -/
structure KeepsTable (s s' : State) : Prop where
  table : s'.table = s.table
  next_le : s.nextDescription ≤ s'.nextDescription
  old : ∀ o < s.nextDescription, ∃ position,
    s'.descriptions o = { s.descriptions o with position := position }
  unused : ∀ o, s.nextDescription ≤ o → o < s'.nextDescription → (s'.descriptions o).uses = 0

namespace KeepsTable

theorem of_sameDescriptors {s s' : State} (h : SameDescriptors s s') : KeepsTable s s' where
  table := h.table
  next_le := Nat.le_of_eq h.nextDescription.symm
  old o _ := ⟨_, congrFun h.descriptions o⟩
  unused _ hle hlt := absurd (h.nextDescription ▸ hlt) (Nat.not_lt_of_le hle)

theorem of_skeleton {s s' : State} (h : SameSkeleton s s') : KeepsTable s s' where
  table := h.table
  next_le := Nat.le_of_eq h.nextDescription.symm
  old o _ := h.descriptions o
  unused _ hle hlt := absurd (h.nextDescription ▸ hlt) (Nat.not_lt_of_le hle)

theorem of_unchanged {s s' : State} (h : Unchanged s s') : KeepsTable s s' where
  table := h.table
  next_le := h.next_le
  old o ho := ⟨_, h.descriptions o ho⟩
  unused := h.unused

theorem refl (s : State) : KeepsTable s s := of_skeleton (.refl s)

/-- Making a description after a change of files. -/
theorem create {s s' : State} (h : SameDescriptors s s') (f : FileId) (flags : Nat) :
    KeepsTable s (OpenFileState.create s' f flags).1 where
  table := (OpenFileState.create_table s' f flags).trans h.table
  next_le := by
    rw [OpenFileState.create_nextDescription, h.nextDescription]
    exact Nat.le_succ _
  old o ho := by
    have hne : o ≠ s'.nextDescription := h.nextDescription ▸ Nat.ne_of_lt ho
    exact ⟨_, (OpenFileState.create_of_ne s' f flags hne).trans (congrFun h.descriptions o)⟩
  unused o hle hlt := OpenFileState.create_unused s' f flags (h.nextDescription ▸ hle) hlt

end KeepsTable

/-! ## Directory operations do not touch descriptors -/

namespace SameDescriptors

@[refl] theorem refl (s : State) : SameDescriptors s s := ⟨rfl, rfl, rfl, rfl⟩

theorem trans {s s' s'' : State} (h : SameDescriptors s s') (h' : SameDescriptors s' s'') :
    SameDescriptors s s'' :=
  ⟨h'.table.trans h.table, h'.descriptions.trans h.descriptions,
    h'.nextDescription.trans h.nextDescription, h'.hooks.trans h.hooks⟩

theorem modify (s : State) (f : FileId) (g : File → File) : SameDescriptors s (s.modify f g) :=
  ⟨rfl, rfl, rfl, rfl⟩

theorem updateMTime (host : Host) (s : State) (f : FileId) :
    SameDescriptors s (s.updateMTime host f) := ⟨rfl, rfl, rfl, rfl⟩

theorem inserted (host : Host) (s : State) (d : FileId) (name : Name) (body : Body) (mode : Nat) :
    SameDescriptors s (Directory.inserted host s d name body mode) := ⟨rfl, rfl, rfl, rfl⟩

theorem removeChild (s : State) (d : FileId) (name : Name) :
    SameDescriptors s (MemoryDirectory.removeChild s d name) := by
  simp only [MemoryDirectory.removeChild]
  split
  · exact .refl s
  · exact ⟨rfl, rfl, rfl, rfl⟩

theorem moved (host : Host) (s : State) (d : FileId) (name : Name) (file p : FileId) :
    SameDescriptors s (Directory.moved host s d name file p) := by
  have hremoved := removeChild (Directory.detached s p file) d name
  exact ⟨hremoved.table, hremoved.descriptions, hremoved.nextDescription, hremoved.hooks⟩

end SameDescriptors

/-! ## Effects -/

/-- A call keeps every slot or sets one. -/
inductive SlotEffect (s s' : State) : Prop where
  | keep : KeepsTable s s' → SlotEffect s s'
  | set {s₁ s₂ : State} {fd : Nat} {new : Option OpenId} {closee : Option FileId} :
      KeepsTable s s₁ → (∀ o, new = some o → o < s₁.nextDescription) →
      FileTable.setEntry s₁ fd new = .ok (s₂, closee) →
      s' = s₂ ∨ (∃ h, s' = s₂.hook h) → SlotEffect s s'

/-- The slots hold descriptions that exist. -/
def SlotsExist (s : State) : Prop :=
  ∀ {fd o}, FileTable.getEntry s fd = some o → o < s.nextDescription

namespace Export

variable {host : Host} {s s' : State} {r : Reply}

theorem fd_close_slots {fd : UInt32} (hok : fd_close s fd = .ok (s', r)) : SlotEffect s s' := by
  simp only [fd_close, Syscall.close] at hok
  split at hok
  · cases hok
  · rename_i s₁ ret hclose
    cases hok
    split at hclose
    · cases hclose
      exact .keep (.refl s)
    split at hclose
    · cases hclose
    · rename_i hset
      cases hclose
      exact .set (.refl s) (by intro o ho; cases ho) hset (Or.inl rfl)
    · rename_i hset
      cases hclose
      exact .set (.refl s) (by intro o ho; cases ho) hset (Or.inr ⟨_, rfl⟩)

theorem fd_renumber_slots (hslots : SlotsExist s) {fd dest : UInt32}
    (hok : fd_renumber s fd dest = .ok (s', r)) : SlotEffect s s' := by
  simp only [fd_renumber, Syscall.dup3] at hok
  split at hok
  · cases hok
  · rename_i s₁ ret hdup
    cases hok
    split at hdup
    · cases hdup
      exact .keep (.refl s)
    rename_i o ho
    split at hdup
    · cases hdup
      exact .keep (.refl s)
    split at hdup
    · cases hdup
      exact .keep (.refl s)
    split at hdup
    · cases hdup
    · rename_i hset
      cases hdup
      refine .set (.refl s) ?_ hset (Or.inl rfl)
      intro o' ho'
      cases ho'
      exact hslots ho

theorem path_create_directory_descriptors (h : s.tree.WF) (fd : UInt32) {path : List UInt8}
    (hok : path_create_directory host s fd path = .ok (s', r)) : SameDescriptors s s' := by
  simp only [path_create_directory] at hok
  rcases Syscall.mkdirat_cases h host host.dirfd.toNat (cstr path) (S_IRUGO ||| S_IXUGO) with
    ⟨e, he⟩ | ⟨parent, leaf, -, -, hins⟩
  · rw [he] at hok
    cases hok
    exact .refl s
  · rw [hins] at hok
    cases hok
    exact .inserted host s parent leaf _ _

theorem symlinkat_descriptors (h : s.tree.WF) {target linkpath : Name} {newdirfd : Nat} {ret : Int}
    (hok : Syscall.symlinkat host s target newdirfd linkpath = .ok (s', ret)) :
    SameDescriptors s s' := by
  rcases Syscall.symlinkat_cases h host target newdirfd linkpath with
    ⟨e, he⟩ | hfault | ⟨parent, leaf, -, hlen, hins⟩
  · rw [he] at hok
    cases hok
    exact .refl s
  · rw [hfault] at hok
    cases hok
  · rw [hins] at hok
    cases hok
    exact .inserted host s parent leaf _ _

theorem unlinkat_descriptors (h : s.tree.WF) (host : Host) (dirfd : Nat) (path : Name)
    (removeDir : Bool) :
    SameDescriptors s (Syscall.unlinkat host s dirfd path removeDir).1 := by
  rcases Syscall.unlinkat_cases h host dirfd path removeDir with
    ⟨e, he⟩ | ⟨parent, leaf, file, -, hunlink⟩
  · rw [he]
  · rw [hunlink]
    exact (SameDescriptors.removeChild s parent leaf).trans (.updateMTime host _ parent)

theorem path_open_slots (h : s.tree.WF) {dirfd : UInt32} {path : List UInt8} {oflags : UInt16}
    (hok : path_open host s dirfd path oflags = .ok (s', r)) : SlotEffect s s' := by
  obtain ⟨ret, hopen, rfl⟩ := Export.path_open_ok hok
  rcases Syscall.openat2_cases h host dirfd.toNat (cstr path) oflags.toNat 0 with
    ⟨e, s₂, he, hun⟩ | ⟨parent, leaf, c, child, -, -, hadd⟩ | ⟨parent, leaf, -, -, hadd⟩
  · rw [he] at hopen
    cases hopen
    exact .keep (.of_unchanged hun.unchanged)
  · rw [hadd] at hopen
    obtain ⟨-, closee, hset⟩ := FileTable.addEntry_ok hopen
    have hcreate := KeepsTable.create (.refl s) child oflags.toNat
    have hkeeps : KeepsTable s (Syscall.opened s child oflags.toNat) ∧
        (Syscall.opened s child oflags.toNat).nextDescription = s.nextDescription + 1 := by
      simp only [Syscall.opened]
      split
      · exact ⟨⟨hcreate.table, hcreate.next_le, hcreate.old, hcreate.unused⟩,
          OpenFileState.create_nextDescription s child oflags.toNat⟩
      · exact ⟨hcreate, OpenFileState.create_nextDescription s child oflags.toNat⟩
    refine .set hkeeps.1 ?_ hset (Or.inl rfl)
    intro o ho
    cases ho
    rw [hkeeps.2]
    exact Nat.lt_succ_self _
  · rw [hadd] at hopen
    obtain ⟨-, closee, hset⟩ := FileTable.addEntry_ok hopen
    refine .set (.create (.inserted host s parent leaf _ _) _ _) ?_ hset (Or.inl rfl)
    intro o ho
    cases ho
    rw [OpenFileState.create_nextDescription]
    exact Nat.lt_succ_self _

theorem path_rename_descriptors (h : s.tree.WF) {oldFd newFd : UInt32}
    {oldPath newPath : List UInt8}
    (hok : path_rename host s oldFd oldPath newFd newPath = .ok (s', r)) :
    SameDescriptors s s' := by
  obtain ⟨ret, hren, rfl⟩ := Export.path_rename_ok hok
  rcases Syscall.renameat_ok h hren with
    ⟨rfl, -⟩ | ⟨oldParent, oldLeaf, newParent, newLeaf, file, -, -, ⟨-, rfl⟩ | ⟨p, -, rfl⟩⟩
  · exact .refl _
  · exact .refl _
  · exact .moved host s newParent newLeaf file p

end Export

/-- The calls that set a slot if they succeed. -/
def Call.setsSlot : Call → Bool
  | .fd_close _ => true
  | .fd_renumber _ _ => true
  | .path_open _ _ _ => true
  | _ => false

/-- A call that changes the tree and sets no slot leaves the descriptions alone. -/
theorem exec_sameDescriptors {host : Host} {s s' : State} {c : Call} {r : Reply} (h : s.tree.WF)
    (hk : c.keepsSkeleton = false) (hc : c.setsSlot = false) (hok : exec host s c = .ok (s', r)) :
    SameDescriptors s s' := by
  cases c with
  | path_create_directory fd path => exact Export.path_create_directory_descriptors h fd hok
  | path_link oldFd oldPath newFd newPath =>
      obtain ⟨ret, hs, -⟩ := Export.path_link_ok oldFd hok
      exact Export.symlinkat_descriptors h hs
  | path_symlink oldPath fd newPath =>
      obtain ⟨ret, hs, -⟩ := Export.path_symlink_ok hok
      exact Export.symlinkat_descriptors h hs
  | path_remove_directory fd path =>
      have hs := Export.unlinkat_descriptors h host fd.toNat (cstr path) true
      simp only [exec, Export.path_remove_directory] at hok
      cases hok
      exact hs
  | path_rename oldFd oldPath newFd newPath => exact Export.path_rename_descriptors h hok
  | path_unlink_file dirfd path =>
      have hs := Export.unlinkat_descriptors h host dirfd.toNat (cstr path) false
      simp only [exec, Export.path_unlink_file] at hok
      cases hok
      exact hs
  | fd_close | fd_renumber | path_open => cases hc
  | _ => cases hk

/-- Every other call keeps all slots. -/
theorem exec_keepsTable {host : Host} {s s' : State} {c : Call} {r : Reply} (h : s.tree.WF)
    (hc : c.setsSlot = false) (hok : exec host s c = .ok (s', r)) : KeepsTable s s' := by
  cases hk : c.keepsSkeleton with
  | true => exact .of_skeleton (exec_skeleton h hk hok)
  | false => exact .of_sameDescriptors (exec_sameDescriptors h hk hc hok)

/-- Every call keeps all slots or sets one. -/
theorem exec_slots {host : Host} {s s' : State} {c : Call} {r : Reply} (h : s.tree.WF)
    (hslots : SlotsExist s) (hok : exec host s c = .ok (s', r)) : SlotEffect s s' := by
  cases hc : c.setsSlot with
  | false => exact .keep (exec_keepsTable h hc hok)
  | true =>
      cases c with
      | fd_close fd => exact Export.fd_close_slots hok
      | fd_renumber fd dest => exact Export.fd_renumber_slots hslots hok
      | path_open dirfd path oflags => exact Export.path_open_slots h hok
      | _ => cases hc

end WasmFS
