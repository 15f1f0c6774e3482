import WasmFS.Data.Locality
import WasmFS.Descriptors.Uses
import WasmFS.Namespace.Attributes

/-!
# What descriptions keep

A call that names no slot and works through none touches no description
(`exec_unnamed`).  After a call that sets a slot, a description in the table was there
before and has only been counted, or it is a new one at the start of a file that
exists (`exec_described`).  So the file of a description in the table exists in every
state that a run reaches.
-/

namespace WasmFS

variable {host : Host} {s s' : State} {r : Reply} {o : OpenId}

/-! ## Calls without a descriptor -/

theorem exec_unnamed {c : Call} (h : s.tree.WF) (hd : c.descriptor? = none)
    (hc : c.setsSlot = false) (hok : exec host s c = .ok (s', r)) : SameDescriptors s s' := by
  cases hk : c.keepsSkeleton with
  | false => exact exec_sameDescriptors h hk hc hok
  | true =>
      cases c with
      | path_filestat_get fd path => rw [Export.path_filestat_get_state h fd hok]
      | path_readlink dirFd path bufLen => rw [Export.path_readlink_state h hok]
      | path_filestat_set_times fd path atim mtim =>
          simp only [exec, Export.path_filestat_set_times] at hok
          rw [Path.parseFile_state h] at hok
          cases hp : (Path.parseFile s (cstr path) fd.toNat .followLinks).2 with
          | error e =>
              rw [hp] at hok
              cases hok
              exact .refl s
          | ok file =>
              rw [hp] at hok
              cases hok
              exact .modify s file _
      | fd_advise | fd_fdstat_set_flags | fd_fdstat_set_rights | fd_prestat_get
      | fd_prestat_dir_name =>
          cases hok
          exact .refl s
      | fd_close | fd_renumber | path_open => cases hc
      | path_create_directory | path_link | path_remove_directory | path_rename | path_symlink
      | path_unlink_file => cases hk
      | _ => cases hd

/-! ## Descriptions in the table -/

namespace FileTable

variable {fd : Nat} {new : Option OpenId} {closee : Option FileId}

/-- The descriptions in the table after a slot was set. -/
theorem mem_setEntry (h : setEntry s fd new = .ok (s', closee)) (x : OpenId) :
    some x ∈ s'.table ↔ new = some x ∨
      (some x ∈ s.table ∧ (getEntry s fd = some x → s.table.count (some x) ≠ 1)) := by
  have hcount := count_setEntry h x
  have hold : getEntry s fd = some x → 0 < s.table.count (some x) := by
    intro hx
    exact List.count_pos_iff.mpr (mem_table_iff.mpr ⟨fd, hx⟩)
  rw [← List.count_pos_iff, ← List.count_pos_iff]
  by_cases hx : getEntry s fd = some x <;> by_cases hn : new = some x <;>
    simp only [hx, hn, if_true, if_false, forall_const, true_or, false_or, IsEmpty.forall_iff,
      and_true, iff_true] at hcount hold ⊢ <;> omega

end FileTable

/-- A description in the table after a call was there before, or it is new. -/
inductive Described (s s' : State) (o : OpenId) : Prop where
  | old {uses : Int} : some o ∈ s.table →
      s'.descriptions o = { s.descriptions o with uses := uses } → Described s s' o
  | new : o = s.nextDescription → (s'.descriptions o).position = 0 →
      (s'.descriptions o).file < s'.next → Described s s' o

namespace Described

/-- Setting a slot to nothing or to a description in the table. -/
theorem of_setEntry {fd : Nat} {new : Option OpenId} {closee : Option FileId}
    (hnew : ∀ x, new = some x → some x ∈ s.table)
    (hset : FileTable.setEntry s fd new = .ok (s', closee)) (ho : some o ∈ s'.table) :
    Described s s' o := by
  obtain ⟨uses, hd⟩ := FileTable.setEntry_description hset o
  rcases (FileTable.mem_setEntry hset o).mp ho with hn | ⟨hmem, -⟩
  · exact .old (hnew o hn) hd
  · exact .old hmem hd

/-- Putting a new description into the first free slot. -/
theorem of_addEntry (hslots : SlotsExist s) {s₁ : State} {ret : Int} (htable : s₁.table = s.table)
    (hold : ∀ o < s.nextDescription, s₁.descriptions o = s.descriptions o)
    (hposition : (s₁.descriptions s.nextDescription).position = 0)
    (hfile : (s₁.descriptions s.nextDescription).file < s₁.next)
    (hadd : FileTable.addEntry s₁ s.nextDescription = .ok (s', ret)) (ho : some o ∈ s'.table) :
    Described s s' o := by
  obtain ⟨-, closee, hset⟩ := FileTable.addEntry_ok hadd
  obtain ⟨uses, hd⟩ := FileTable.setEntry_description hset o
  rcases (FileTable.mem_setEntry hset o).mp ho with hn | ⟨hmem, -⟩
  · obtain rfl := Option.some.inj hn
    refine .new rfl ?_ ?_
    · rw [hd]
      exact hposition
    · rw [hd, (FileTable.setEntry_sameFiles hset).next]
      exact hfile
  · rw [htable] at hmem
    obtain ⟨fd, hfd⟩ := FileTable.mem_table_iff.mp hmem
    rw [hold o (hslots hfd)] at hd
    exact .old hmem hd

theorem fd_close {fd : UInt32} (hok : Export.fd_close s fd = .ok (s', r))
    (ho : some o ∈ s'.table) : Described s s' o := by
  have hnone : ∀ x, (none : Option OpenId) = some x → some x ∈ s.table := by
    intro x hx
    cases hx
  obtain ⟨ret, hclose, rfl⟩ := Export.fd_close_ok hok
  simp only [Syscall.close] at hclose
  split at hclose
  · cases hclose
    exact .old ho rfl
  split at hclose
  · cases hclose
  · rename_i hset
    have hd := of_setEntry hnone hset (o := o)
    cases hclose
    exact hd ho
  · rename_i hset
    have hd := of_setEntry hnone hset (o := o)
    cases hclose
    cases hd ho with
    | old hmem hdesc => exact .old hmem hdesc
    | new heq hposition hfile => exact .new heq hposition hfile

theorem fd_renumber {fd dest : UInt32} (hok : Export.fd_renumber s fd dest = .ok (s', r))
    (ho : some o ∈ s'.table) : Described s s' o := by
  obtain ⟨ret, hdup, rfl⟩ := Export.fd_renumber_ok hok
  simp only [Syscall.dup3] at hdup
  split at hdup
  · cases hdup
    exact .old ho rfl
  rename_i x hx
  split at hdup
  · cases hdup
    exact .old ho rfl
  split at hdup
  · cases hdup
    exact .old ho rfl
  split at hdup
  · cases hdup
  · rename_i hset
    cases hdup
    refine of_setEntry ?_ hset ho
    intro x' hx'
    cases hx'
    exact FileTable.mem_table_iff.mpr ⟨_, hx⟩

theorem path_open (h : s.tree.WF) (hslots : SlotsExist s) {dirfd : UInt32} {path : List UInt8}
    {oflags : UInt16} (hok : Export.path_open host s dirfd path oflags = .ok (s', r))
    (ho : some o ∈ s'.table) : Described s s' o := by
  obtain ⟨ret, hopen, rfl⟩ := Export.path_open_ok hok
  rcases Syscall.openat2_cases h host dirfd.toNat (cstr path) oflags.toNat 0 with
    ⟨e, s₂, he, hfails⟩ | ⟨parent, leaf, c, child, hres, -, hadd⟩ | ⟨parent, leaf, -, -, hadd⟩
  · rw [he] at hopen
    cases hopen
    have hun := hfails.unchanged
    rw [hun.table] at ho
    obtain ⟨fd, hfd⟩ := FileTable.mem_table_iff.mp ho
    exact .old ho (hun.descriptions o (hslots hfd))
  · rw [hadd] at hopen
    have hchild := h.lt_next_of_linked (hres.linked h)
    obtain ⟨dirents, hself⟩ := Syscall.opened_self s child oflags.toNat
    refine of_addEntry hslots (Syscall.opened_table s child oflags.toNat) (fun x hx => ?_) ?_ ?_
      hopen ho
    · exact Syscall.opened_of_ne s child oflags.toNat (Nat.ne_of_lt hx)
    · rw [hself]
    · rw [hself, Syscall.opened_next]
      exact hchild
  · rw [hadd] at hopen
    obtain ⟨dirents, hself⟩ := Syscall.created_self host s parent leaf oflags.toNat 0
    refine of_addEntry hslots (Syscall.created_table ..) (fun x hx => ?_) ?_ ?_ hopen ho
    · exact Syscall.created_of_ne host s parent leaf oflags.toNat 0 (Nat.ne_of_lt hx)
    · rw [hself]
    · rw [hself, Syscall.created_next]
      exact Nat.lt_succ_self _

end Described

theorem exec_described {c : Call} (h : s.tree.WF) (hslots : SlotsExist s) (hc : c.setsSlot)
    (hok : exec host s c = .ok (s', r)) (ho : some o ∈ s'.table) : Described s s' o := by
  cases c with
  | fd_close fd => exact .fd_close hok ho
  | fd_renumber fd dest => exact .fd_renumber hok ho
  | path_open dirfd path oflags => exact .path_open h hslots hok ho
  | _ => cases hc

/-! ## Runs -/

/-- The files of the descriptions in the table exist. -/
def FilesExist (s : State) : Prop := ∀ o, some o ∈ s.table → (s.descriptions o).file < s.next

theorem FilesExist.step {c : Call} (hf : FilesExist s) (h : s.tree.WF) (hslots : SlotsExist s)
    (hstep : Step host s c s') : FilesExist s' := by
  have hnext := hstep.next_le h
  obtain ⟨r, hok⟩ := hstep
  intro o ho
  cases hc : c.setsSlot with
  | false =>
      have hk := exec_keepsTable h hc hok
      rw [hk.table] at ho
      obtain ⟨fd, hfd⟩ := FileTable.mem_table_iff.mp ho
      obtain ⟨position, hd⟩ := hk.old o (hslots hfd)
      rw [hd]
      exact Nat.lt_of_lt_of_le (hf o ho) hnext
  | true =>
      cases exec_described h hslots hc hok ho with
      | old hmem hd =>
          rw [hd]
          exact Nat.lt_of_lt_of_le (hf o hmem) hnext
      | new _ _ hfile => exact hfile

/-- The descriptions of the standard streams are of the first three files. -/
theorem init_descriptions (host : Host) {o : OpenId} (ho : o < 3) :
    ((init host).descriptions o).file = o ∧ ((init host).descriptions o).position = 0 := by
  rw [(SameDescriptors.init host).descriptions]
  match o, ho with
  | 0, _ => exact ⟨rfl, rfl⟩
  | 1, _ => exact ⟨rfl, rfl⟩
  | 2, _ => exact ⟨rfl, rfl⟩

theorem init_next (host : Host) : (init host).next = 9 := by
  rw [← State.tree_next, tree_init]
  rfl

theorem Reachable.filesExist (h : Reachable host s) : FilesExist s := by
  have hinv : s.tree.WF ∧ UsesBalance s ∧ FilesExist s := by
    refine h.invariant (I := fun s => s.tree.WF ∧ UsesBalance s ∧ FilesExist s) ?_ ?_
    · refine ⟨Reachable.wf .refl, Reachable.usesBalance .refl, ?_⟩
      intro o ho
      have hlt := standardStream_iff.mp ho
      rw [(init_descriptions host hlt).1, init_next]
      exact Nat.lt_trans hlt (by decide)
    · intro s₁ c s₂ h₁ _ hstep
      obtain ⟨hwf, huses, hfiles⟩ := h₁
      obtain ⟨r, hok⟩ := id hstep
      exact ⟨hstep.wf hwf, huses.of_slotEffect (exec_slots hwf huses.exist hok),
        hfiles.step hwf huses.exist hstep⟩
  exact hinv.2.2

end WasmFS
