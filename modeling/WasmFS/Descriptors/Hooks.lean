import Mathlib.Data.Finset.Card
import Mathlib.Data.List.ReduceOption
import WasmFS.Descriptors.Descriptions

/-!
# The hooks of data files

Every data file should be open as often as there are descriptions of it in the
table.  `State.surplus` is what the calls of its hooks have left open beyond
that.  Each call keeps the surplus of every data file under a condition
(`Call.KeepsHooks`), and so do runs of such calls (`hooksBalance_of_run`).  The
condition excludes three things.  A renumbering drops the file that is to be
closed.  An `open` that may not truncate has called the hook by then.  And the
counters of the standard streams are one too low.
-/

namespace WasmFS

variable {host : Host} {s s' : State} {r : Reply} {f : FileId} {o : OpenId}

/-! ## Counting -/

def Hook.file : Hook → FileId
  | .opened f => f
  | .closed f => f

namespace State

/-- How often the hook `open` of the file was called. -/
def opens (s : State) (f : FileId) : ℕ := s.trace.hooks.count (.opened f)

/-- How often the hook `close` of the file was called. -/
def closes (s : State) (f : FileId) : ℕ := s.trace.hooks.count (.closed f)

/-- The distinct descriptions of the file in the table. -/
def held (s : State) (f : FileId) : Finset OpenId :=
  s.table.reduceOption.toFinset.filter fun o => (s.descriptions o).file = f

theorem mem_held : o ∈ s.held f ↔ some o ∈ s.table ∧ (s.descriptions o).file = f := by
  simp only [held, Finset.mem_filter, List.mem_toFinset, List.reduceOption, List.mem_filterMap, id,
    exists_eq_right]

/-- What the hooks have left open beyond the descriptions in the table. -/
def surplus (s : State) (f : FileId) : ℤ := s.opens f - s.closes f - (s.held f).card

theorem surplus_of_hooks (hhooks : s'.trace.hooks = s.trace.hooks) (hheld : s'.held f = s.held f) :
    s'.surplus f = s.surplus f := by
  simp only [surplus, opens, closes, hhooks, hheld]

theorem surplus_of_opened {g : FileId} (hhooks : s'.trace.hooks = .opened g :: s.trace.hooks)
    (hheld : (s'.held f).card = (s.held f).card + if g = f then 1 else 0) :
    s'.surplus f = s.surplus f := by
  simp only [surplus, opens, closes, hhooks, List.count_cons, beq_iff_eq, reduceCtorEq,
    Hook.opened.injEq, if_false]
  split at hheld
  · rename_i hg
    rw [if_pos hg]
    omega
  · rename_i hg
    rw [if_neg hg]
    omega

theorem surplus_of_closed {g : FileId} (hhooks : s'.trace.hooks = .closed g :: s.trace.hooks)
    (hheld : (s'.held f).card + (if g = f then 1 else 0) = (s.held f).card) :
    s'.surplus f = s.surplus f := by
  simp only [surplus, opens, closes, hhooks, List.count_cons, beq_iff_eq, reduceCtorEq,
    Hook.closed.injEq, if_false]
  split at hheld
  · rename_i hg
    rw [if_pos hg]
    omega
  · rename_i hg
    rw [if_neg hg]
    omega

end State

/-- Every data file was opened as often more than it was closed as there are
distinct descriptions of it in the table. -/
def HooksBalance (s : State) : Prop :=
  ∀ f, (s.files f).isDataFile → (s.opens f : ℤ) - s.closes f = (s.held f).card

/-! ## Slots and hooks -/

namespace FileTable

variable {fd : Nat} {new : Option OpenId} {closee : Option FileId}

theorem mem_held_setEntry (h : setEntry s fd new = .ok (s', closee)) :
    o ∈ s'.held f ↔ (new = some o ∨
      (some o ∈ s.table ∧ (getEntry s fd = some o → s.table.count (some o) ≠ 1))) ∧
      (s.descriptions o).file = f := by
  rw [State.mem_held, mem_setEntry h, setEntry_file h]

section

variable (h : setEntry s fd none = .ok (s', closee)) (ho : getEntry s fd = some o)

include h ho

/-- With its last slot a description of the file leaves the table. -/
theorem held_clear (hcount : s.table.count (some o) = 1) (hf : (s.descriptions o).file = f) :
    s'.held f = (s.held f).erase o := by
  ext x
  rw [mem_held_setEntry h, Finset.mem_erase, State.mem_held]
  constructor
  · intro hx
    obtain ⟨hx, hxf⟩ := hx
    obtain ⟨hxt, hxc⟩ := hx.resolve_left (by simp)
    refine ⟨?_, hxt, hxf⟩
    rintro rfl
    exact hxc ho hcount
  · intro hx
    obtain ⟨hxo, hxt, hxf⟩ := hx
    refine ⟨Or.inr ⟨hxt, fun hfd => ?_⟩, hxf⟩
    exact absurd (Option.some.inj (ho.symm.trans hfd)).symm hxo

theorem held_clear_of_ne (hf : (s.descriptions o).file ≠ f) : s'.held f = s.held f := by
  ext x
  rw [mem_held_setEntry h, State.mem_held]
  constructor
  · intro hx
    exact ⟨(hx.1.resolve_left (by simp)).1, hx.2⟩
  · intro hx
    refine ⟨Or.inr ⟨hx.1, fun hfd => ?_⟩, hx.2⟩
    obtain rfl := Option.some.inj (ho.symm.trans hfd)
    exact absurd hx.2 hf

/-- A clearing hands back the file of a description of a data file that has no other slot. -/
theorem closee_clear (hb : UsesBalance s)
    (hstd : o < 3 → (s.files (s.descriptions o).file).isDataFile → 2 < s.table.count (some o)) :
    closee = if (s.files (s.descriptions o).file).isDataFile ∧ s.table.count (some o) = 1 then
      some (s.descriptions o).file else none := by
  have hbalance := hb.balance o (hb.exist ho)
  have huses := uses_setEntry h o
  have hcloses := setEntry_closee ho h
  rw [if_pos ho, if_neg (by simp)] at huses
  rw [uncounted] at hbalance
  split
  · rename_i hlast
    obtain ⟨hdata, hcount⟩ := hlast
    rw [if_neg fun hlt => absurd (hstd hlt hdata) (by omega)] at hbalance
    exact (hcloses _).mpr ⟨rfl, hdata, by omega⟩
  · rename_i hlast
    by_contra hne
    obtain ⟨f, hf⟩ := Option.ne_none_iff_exists'.mp hne
    obtain ⟨rfl, hdata, hzero⟩ := (hcloses f).mp hf
    have hpos : 0 < s.table.count (some o) :=
      List.count_pos_iff.mpr (mem_table_iff.mpr ⟨fd, ho⟩)
    have hone : s.table.count (some o) ≠ 1 := fun hcount => hlast ⟨hdata, hcount⟩
    split at hbalance
    · rename_i hlt
      have htwo := hstd hlt hdata
      omega
    · omega

end

/-- A new description of `c` in a free slot. -/
theorem held_addEntry (hb : UsesBalance s) {s₁ : State} {c : FileId} {ret : Int}
    (htable : s₁.table = s.table)
    (hold : ∀ o < s.nextDescription, (s₁.descriptions o).file = (s.descriptions o).file)
    (hnew : (s₁.descriptions s.nextDescription).file = c)
    (hadd : addEntry s₁ s.nextDescription = .ok (s', ret)) (f : FileId) :
    s'.held f = if c = f then insert s.nextDescription (s.held f) else s.held f := by
  obtain ⟨-, closee, hset⟩ := addEntry_ok hadd
  have hmem : ∀ x, some x ∈ s'.table ↔ x = s.nextDescription ∨ some x ∈ s.table := by
    intro x
    rw [mem_setEntry hset, getEntry_firstFree, htable]
    simp only [Option.some.injEq, reduceCtorEq, IsEmpty.forall_iff, and_true]
    exact or_congr_left eq_comm
  have hfile : ∀ {x}, some x ∈ s.table →
      (s'.descriptions x).file = (s.descriptions x).file := by
    intro x hx
    obtain ⟨fd, hfd⟩ := mem_table_iff.mp hx
    rw [setEntry_file hset, hold x (hb.exist hfd)]
  ext x
  rw [State.mem_held, hmem]
  by_cases hcf : c = f
  · rw [if_pos hcf, Finset.mem_insert, State.mem_held]
    constructor
    · intro hx
      rcases hx.1 with rfl | hxt
      · exact Or.inl rfl
      · exact Or.inr ⟨hxt, (hfile hxt).symm.trans hx.2⟩
    · intro hx
      rcases hx with rfl | ⟨hxt, hxf⟩
      · exact ⟨Or.inl rfl, (setEntry_file hset _).trans (hnew.trans hcf)⟩
      · exact ⟨Or.inr hxt, (hfile hxt).trans hxf⟩
  · rw [if_neg hcf, State.mem_held]
    constructor
    · intro hx
      rcases hx.1 with rfl | hxt
      · exact absurd (hnew.symm.trans ((setEntry_file hset _).symm.trans hx.2)) hcf
      · exact ⟨hxt, (hfile hxt).symm.trans hx.2⟩
    · intro hx
      exact ⟨Or.inr hx.1, (hfile hx.1).trans hx.2⟩

end FileTable

/-! ## Steps -/

/-- The surplus of every data file is as before.  A hook is called for the file of a
description in the table, or for a file that exists. -/
structure KeepsSurplus (s s' : State) : Prop where
  surplus : ∀ {f}, (s'.files f).isDataFile → s'.surplus f = s.surplus f
  hooks : ∀ {h}, h ∈ s'.trace.hooks → h ∈ s.trace.hooks ∨
    (∃ o, some o ∈ s.table ∧ h.file = (s.descriptions o).file) ∨ h.file < s'.next

namespace KeepsSurplus

theorem of_keepsTable (hb : UsesBalance s) (hk : KeepsTable s s')
    (hhooks : s'.trace.hooks = s.trace.hooks) : KeepsSurplus s s' := by
  have hfile : ∀ {o}, some o ∈ s.table → (s'.descriptions o).file = (s.descriptions o).file := by
    intro o ho
    obtain ⟨fd, hfd⟩ := FileTable.mem_table_iff.mp ho
    obtain ⟨position, hd⟩ := hk.old o (hb.exist hfd)
    rw [hd]
  refine ⟨fun {f} _ => State.surplus_of_hooks hhooks ?_, fun hh => ?_⟩
  · ext o
    rw [State.mem_held, State.mem_held, hk.table]
    constructor
    · intro ho
      exact ⟨ho.1, (hfile ho.1).symm.trans ho.2⟩
    · intro ho
      exact ⟨ho.1, (hfile ho.1).trans ho.2⟩
  · rw [hhooks] at hh
    exact Or.inl hh

theorem refl (hb : UsesBalance s) : KeepsSurplus s s := of_keepsTable hb (.refl s) rfl

/-- Setting a slot, when no data file loses its last slot without being closed. -/
theorem of_setEntry {fd : Nat} {new : Option OpenId} {closee : Option FileId}
    (hnew : ∀ o, new = some o → some o ∈ s.table)
    (hlast : ∀ o, FileTable.getEntry s fd = some o → new ≠ some o →
      (s.files (s.descriptions o).file).isDataFile → s.table.count (some o) ≠ 1)
    (hset : FileTable.setEntry s fd new = .ok (s', closee)) : KeepsSurplus s s' := by
  have htrace := FileTable.setEntry_trace hset
  have hsame := FileTable.setEntry_sameFiles hset
  refine ⟨fun {f} hf => State.surplus_of_hooks (by rw [htrace]) ?_, fun hh => ?_⟩
  · rw [hsame.files] at hf
    ext o
    rw [FileTable.mem_held_setEntry hset, State.mem_held]
    constructor
    · intro ho
      exact ⟨ho.1.elim (hnew o) And.left, ho.2⟩
    · intro ho
      obtain ⟨hmem, rfl⟩ := ho
      refine ⟨?_, rfl⟩
      by_cases hno : new = some o
      · exact Or.inl hno
      · exact Or.inr ⟨hmem, fun hfd => hlast o hfd hno hf⟩
  · rw [htrace] at hh
    exact Or.inl hh

end KeepsSurplus

/-! ## Calls -/

/-- The call closes what it has to close, and nothing else.

A slot of a standard stream is closed only while more than two hold it.  A
renumbering does not overwrite the last slot of a data file.  No data file is
opened that cannot be truncated as asked. -/
def Call.KeepsHooks (s : State) : Call → Prop
  | .fd_close fd => ∀ o, FileTable.getEntry s fd.toNat = some o → o < 3 →
      (s.files (s.descriptions o).file).isDataFile → 2 < s.table.count (some o)
  | .fd_renumber fd dest => ∀ o o', FileTable.getEntry s fd.toNat = some o →
      FileTable.getEntry s dest.toNat = some o' → o ≠ o' →
      (s.files (s.descriptions o').file).isDataFile → s.table.count (some o') ≠ 1
  | .path_open dirfd path oflags => ∀ parent leaf c child,
      Syscall.Resolves s (cstr path) dirfd.toNat parent leaf c child →
      oflags.toNat &&& O_ACCMODE = O_RDONLY → ¬ Syscall.OpenedInVain s child oflags.toNat
  | _ => True

/-- A call that names no slot calls no hook. -/
theorem exec_hooks {c : Call} (h : s.tree.WF) (hc : c.setsSlot = false)
    (hok : exec host s c = .ok (s', r)) : s'.trace.hooks = s.trace.hooks := by
  cases hd : c.descriptor? with
  | none => exact (exec_unnamed h hd hc hok).hooks
  | some fd =>
      cases ho : FileTable.getEntry s fd.toNat with
      | none => rw [exec_of_empty hd ho hok]
      | some o => exact (exec_confined hd ho hok).hooks

namespace KeepsSurplus

theorem fd_renumber (hb : UsesBalance s) {fd dest : UInt32}
    (hc : (Call.fd_renumber fd dest).KeepsHooks s)
    (hok : Export.fd_renumber s fd dest = .ok (s', r)) : KeepsSurplus s s' := by
  have hfd : u32 (s32 fd.toNat) = fd.toNat := u32_s32 fd
  have hdest : u32 (s32 dest.toNat) = dest.toNat := u32_s32 dest
  obtain ⟨ret, hdup, rfl⟩ := Export.fd_renumber_ok hok
  simp only [Syscall.dup3, hfd, hdest] at hdup
  split at hdup
  · cases hdup
    exact .refl hb
  rename_i o ho
  split at hdup
  · cases hdup
    exact .refl hb
  split at hdup
  · cases hdup
    exact .refl hb
  split at hdup
  · cases hdup
  rename_i hset
  cases hdup
  refine .of_setEntry ?_ ?_ hset
  · intro o' ho'
    cases ho'
    exact FileTable.mem_table_iff.mpr ⟨_, ho⟩
  · intro o' ho' hne hdata
    exact hc o o' ho ho' (fun heq => hne (congrArg some heq)) hdata

/-- A slot is cleared, and the file that is handed back is closed. -/
theorem clear (hb : UsesBalance s) {fd : Nat} {closee : Option FileId}
    (ho : FileTable.getEntry s fd = some o)
    (hstd : o < 3 → (s.files (s.descriptions o).file).isDataFile → 2 < s.table.count (some o))
    (hset : FileTable.setEntry s fd none = .ok (s', closee)) :
    KeepsSurplus s (closee.elim s' fun f => s'.hook (.closed f)) := by
  have htrace := FileTable.setEntry_trace hset
  have hclosee := FileTable.closee_clear hset ho hb hstd
  have hmem : some o ∈ s.table := FileTable.mem_table_iff.mpr ⟨fd, ho⟩
  by_cases hlast : (s.files (s.descriptions o).file).isDataFile ∧ s.table.count (some o) = 1
  · -- the last slot of a data file, which is handed back
    rw [if_pos hlast] at hclosee
    subst hclosee
    refine ⟨fun {f} _ => State.surplus_of_closed (by rw [← htrace]; rfl) ?_, fun hh => ?_⟩
    · show (s'.held f).card + _ = _
      split
      · rename_i hfile
        rw [FileTable.held_clear hset ho hlast.2 hfile]
        exact Finset.card_erase_add_one (State.mem_held.mpr ⟨hmem, hfile⟩)
      · rename_i hfile
        rw [FileTable.held_clear_of_ne hset ho hfile, Nat.add_zero]
    · rcases List.mem_cons.mp hh with rfl | hh
      · exact Or.inr (Or.inl ⟨o, hmem, rfl⟩)
      · rw [htrace] at hh
        exact Or.inl hh
  · -- no data file loses its last slot, and nothing is handed back
    rw [if_neg hlast] at hclosee
    subst hclosee
    have hnone : ∀ o', (none : Option OpenId) = some o' → some o' ∈ s.table := by
      intro o' ho'
      cases ho'
    refine .of_setEntry hnone (fun o' ho' _ hdata hcount => ?_) hset
    obtain rfl := Option.some.inj (ho.symm.trans ho')
    exact hlast ⟨hdata, hcount⟩

theorem fd_close (hb : UsesBalance s) {fd : UInt32} (hc : (Call.fd_close fd).KeepsHooks s)
    (hok : Export.fd_close s fd = .ok (s', r)) : KeepsSurplus s s' := by
  obtain ⟨ret, hclose, rfl⟩ := Export.fd_close_ok hok
  simp only [Syscall.close] at hclose
  split at hclose
  · cases hclose
    exact .refl hb
  rename_i o ho
  split at hclose
  · cases hclose
  · rename_i hset
    have hkeeps := clear hb ho (hc o ho) hset
    cases hclose
    exact hkeeps
  · rename_i hset
    have hkeeps := clear hb ho (hc o ho) hset
    cases hclose
    exact hkeeps

/-- A new description of `c` is put into a free slot. -/
theorem of_addEntry (hb : UsesBalance s) {s₁ : State} {c : FileId} {ret : Int}
    (htable : s₁.table = s.table)
    (hold : ∀ o < s.nextDescription, (s₁.descriptions o).file = (s.descriptions o).file)
    (hnew : (s₁.descriptions s.nextDescription).file = c) (hc : c < s₁.next)
    (hhooks : s₁.trace.hooks =
      if (s₁.files c).isDataFile then .opened c :: s.trace.hooks else s.trace.hooks)
    (hadd : FileTable.addEntry s₁ s.nextDescription = .ok (s', ret)) : KeepsSurplus s s' := by
  have hheld := FileTable.held_addEntry hb htable hold hnew hadd
  obtain ⟨-, closee, hset⟩ := FileTable.addEntry_ok hadd
  have hsame := FileTable.setEntry_sameFiles hset
  have htrace := FileTable.setEntry_trace hset
  refine ⟨fun {f} hf => ?_, fun {h} hh => ?_⟩
  · rw [hsame.files] at hf
    split at hhooks
    · refine State.surplus_of_opened (by rw [htrace, hhooks]) ?_
      rw [hheld]
      split
      · have hnotin : s.nextDescription ∉ s.held f := by
          intro hin
          obtain ⟨fd, hfd⟩ := FileTable.mem_table_iff.mp (State.mem_held.mp hin).1
          exact Nat.lt_irrefl _ (hb.exist hfd)
        exact Finset.card_insert_of_notMem hnotin
      · rfl
    · rename_i hdata
      refine State.surplus_of_hooks (by rw [htrace, hhooks]) ?_
      rw [hheld, if_neg]
      rintro rfl
      exact hdata hf
  · rw [htrace, hhooks] at hh
    split at hh
    · rcases List.mem_cons.mp hh with rfl | hh
      · right; right
        rw [hsame.next]
        exact hc
      · exact Or.inl hh
    · exact Or.inl hh

theorem path_open (h : s.tree.WF) (hb : UsesBalance s) {dirfd : UInt32} {path : List UInt8}
    {oflags : UInt16} (hc : (Call.path_open dirfd path oflags).KeepsHooks s)
    (hok : Export.path_open host s dirfd path oflags = .ok (s', r)) : KeepsSurplus s s' := by
  obtain ⟨ret, hopen, rfl⟩ := Export.path_open_ok hok
  rcases Syscall.openat2_cases h host dirfd.toNat (cstr path) oflags.toNat 0 with
    ⟨e, s₂, he, hfails⟩ | ⟨parent, leaf, c, child, hres, -, hadd⟩ | ⟨parent, leaf, -, -, hadd⟩
  · rw [he] at hopen
    cases hopen
    cases hfails with
    | early => exact .refl hb
    | @late parent c child leaf s₂ hres hmode hrefused =>
        cases hrefused with
        | early => exact .refl hb
        | late hvain =>
            -- what is opened and not put into the table is no data file
            refine of_keepsTable hb (.create (.refl s) child oflags.toNat) ?_
            rw [OpenFileState.create_hooks, if_neg]
            intro hdata
            have hvain := hvain hdata
            refine hc parent leaf c child hres ?_ hvain
            rcases hmode with hw | hr | hrw
            · exact absurd (Or.inl hw) hvain.mode
            · exact hr
            · exact absurd (Or.inr hrw) hvain.mode
  · rw [hadd] at hopen
    have hchild := h.lt_next_of_linked (hres.linked h)
    obtain ⟨dirents, hself⟩ := Syscall.opened_self s child oflags.toNat
    refine of_addEntry hb (Syscall.opened_table s child oflags.toNat) (fun o ho => ?_)
      (congrArg OpenFileState.file hself) ?_ ?_ hopen
    · rw [Syscall.opened_of_ne s child oflags.toNat (Nat.ne_of_lt ho)]
    · rw [Syscall.opened_next]
      exact hchild
    · rw [Syscall.opened_isDataFile, Syscall.opened_trace]
      exact OpenFileState.create_hooks s child oflags.toNat
  · rw [hadd] at hopen
    obtain ⟨dirents, hself⟩ := Syscall.created_self host s parent leaf oflags.toNat 0
    refine of_addEntry hb (Syscall.created_table ..) (fun o ho => ?_)
      (congrArg OpenFileState.file hself) ?_ (Syscall.created_hooks ..) hopen
    · rw [Syscall.created_of_ne host s parent leaf oflags.toNat 0 (Nat.ne_of_lt ho)]
    · rw [Syscall.created_next]
      exact Nat.lt_succ_self _

end KeepsSurplus

/-- Every call that closes what it has to close keeps the surplus. -/
theorem exec_keepsSurplus {c : Call} (h : s.tree.WF) (hb : UsesBalance s) (hc : c.KeepsHooks s)
    (hok : exec host s c = .ok (s', r)) : KeepsSurplus s s' := by
  cases hsets : c.setsSlot with
  | false => exact .of_keepsTable hb (exec_keepsTable h hsets hok) (exec_hooks h hsets hok)
  | true =>
      cases c with
      | fd_close fd => exact .fd_close hb hc hok
      | fd_renumber fd dest => exact .fd_renumber hb hc hok
      | path_open dirfd path oflags => exact .path_open h hb hc hok
      | _ => cases hsets

/-! ## Runs -/

/-- The invariant: nothing is left open, and only files that exist were opened or
closed. -/
structure HooksInvariant (s : State) : Prop where
  balance : ∀ {f}, f < s.next → (s.files f).isDataFile → s.surplus f = 0
  hooks_lt : ∀ {h}, h ∈ s.trace.hooks → h.file < s.next

namespace HooksInvariant

/-- Nothing is known of a file that does not exist. -/
theorem surplus_of_le (hi : HooksInvariant s) (hfiles : FilesExist s) (hf : s.next ≤ f) :
    s.surplus f = 0 := by
  have hnot : ∀ h : Hook, h.file = f → h ∉ s.trace.hooks := by
    intro h hfile hmem
    have hlt := hi.hooks_lt hmem
    rw [hfile] at hlt
    exact Nat.lt_irrefl _ (Nat.lt_of_lt_of_le hlt hf)
  have hopens : s.opens f = 0 := List.count_eq_zero.mpr (hnot (.opened f) rfl)
  have hcloses : s.closes f = 0 := List.count_eq_zero.mpr (hnot (.closed f) rfl)
  have hheld : s.held f = ∅ := by
    refine Finset.eq_empty_of_forall_notMem fun o ho => ?_
    obtain ⟨hmem, hfile⟩ := State.mem_held.mp ho
    have hlt := hfiles o hmem
    rw [hfile] at hlt
    exact Nat.lt_irrefl _ (Nat.lt_of_lt_of_le hlt hf)
  rw [State.surplus, hopens, hcloses, hheld, Finset.card_empty]
  rfl

theorem hooksBalance (hi : HooksInvariant s) (hfiles : FilesExist s) : HooksBalance s := by
  intro f hf
  have hzero : s.surplus f = 0 := by
    by_cases hlt : f < s.next
    · exact hi.balance hlt hf
    · exact hi.surplus_of_le hfiles (Nat.le_of_not_lt hlt)
  exact Int.sub_eq_zero.mp hzero

theorem step {c : Call} (hi : HooksInvariant s) (h : s.tree.WF) (hb : UsesBalance s)
    (hfiles : FilesExist s) (hc : c.KeepsHooks s) (hstep : Step host s c s') :
    HooksInvariant s' := by
  obtain ⟨r, hok⟩ := id hstep
  have hkeeps := exec_keepsSurplus h hb hc hok
  have hnext : s.next ≤ s'.next := hstep.next_le h
  refine ⟨fun {f} hlt hf => ?_, fun {hook} hh => ?_⟩
  · rw [hkeeps.surplus hf]
    by_cases hold : f < s.next
    · have hkind := (hstep.persists h hold).isDataFile
      rw [State.tree_node, State.tree_node, File.node_isDataFile, File.node_isDataFile] at hkind
      exact hi.balance hold (hkind ▸ hf)
    · exact hi.surplus_of_le hfiles (Nat.le_of_not_lt hold)
  · rcases hkeeps.hooks hh with hmem | ⟨o, hmem, hfile⟩ | hlt
    · exact Nat.lt_of_lt_of_le (hi.hooks_lt hmem) hnext
    · rw [hfile]
      exact Nat.lt_of_lt_of_le (hfiles o hmem) hnext
    · exact hlt

/-- The three standard streams are open and nothing else. -/
theorem of_streams (htable : s.table = [some 0, some 1, some 2])
    (hhooks : s.trace.hooks = [.opened 2, .opened 1, .opened 0])
    (hfile : ∀ o < 3, (s.descriptions o).file = o) (hnext : 3 ≤ s.next) : HooksInvariant s := by
  have hlt : ∀ {n : Nat}, n = 0 ∨ n = 1 ∨ n = 2 ↔ n < 3 := by omega
  have hmem : ∀ {o}, some o ∈ s.table ↔ o < 3 := by
    intro o
    simp only [htable, List.mem_cons, Option.some.injEq, List.not_mem_nil, or_false]
    exact hlt
  have hheld : ∀ f, s.held f = if f < 3 then {f} else ∅ := by
    intro f
    ext o
    rw [State.mem_held, hmem]
    constructor
    · intro ho
      obtain ⟨ho, rfl⟩ := ho
      rw [hfile o ho, if_pos ho, Finset.mem_singleton]
    · intro ho
      split at ho
      · rename_i hf
        obtain rfl := Finset.mem_singleton.mp ho
        exact ⟨hf, hfile o hf⟩
      · exact absurd ho (Finset.notMem_empty o)
  refine ⟨fun {f} _ _ => ?_, fun {hook} hh => ?_⟩
  · simp only [State.surplus, State.opens, State.closes, hhooks, hheld]
    split
    · rename_i hf
      match f, hf with
      | 0, _ => rfl
      | 1, _ => rfl
      | 2, _ => rfl
    · rename_i hf
      have hnot : Hook.opened f ∉ [.opened 2, .opened 1, .opened 0] := by
        simp only [List.mem_cons, Hook.opened.injEq, List.not_mem_nil, or_false]
        intro hor
        rcases hor with rfl | rfl | rfl <;> exact hf (by decide)
      rw [List.count_eq_zero.mpr hnot]
      rfl
  · rw [hhooks] at hh
    simp only [List.mem_cons, List.not_mem_nil, or_false] at hh
    refine Nat.lt_of_lt_of_le ?_ hnext
    rcases hh with rfl | rfl | rfl <;> decide

theorem init (host : Host) : HooksInvariant (WasmFS.init host) := by
  have hsame := SameDescriptors.init host
  refine of_streams hsame.table hsame.hooks (fun o ho => (init_descriptions host ho).1) ?_
  rw [init_next]
  decide

end HooksInvariant

/-- In every state that calls reach which close what they have to close, every data
file is open as often as there are descriptions of it. -/
theorem hooksBalance_of_run (h : ReachableBy host Call.KeepsHooks s) : HooksBalance s := by
  have hinv : Reachable host s ∧ HooksInvariant s := by
    refine h.invariant (I := fun s => Reachable host s ∧ HooksInvariant s) ?_ ?_
    · exact ⟨.refl, .init host⟩
    · intro s₁ c s₂ h₁ hc hstep
      obtain ⟨hreach, hhooks⟩ := h₁
      exact ⟨hreach.tail trivial hstep,
        hhooks.step hreach.wf hreach.usesBalance hreach.filesExist hc hstep⟩
  exact hinv.2.hooksBalance hinv.1.filesExist

/-- The calls `open("/")` and, below it, `open("dev/random")`. -/
def openRandom : List Call :=
  [.path_open atFdCwd [slash] 0, .path_open 3 (devName ++ slash :: randomName) 0]

theorem hooksBalance_openRandom : ∃ s replies, afterRun openRandom = .ok (s, replies) ∧
    s.opens Init.random = 1 ∧ HooksBalance s := by
  obtain ⟨s, replies, hok, hopens⟩ :
      Returns (afterRun openRandom) fun s _ => s.opens Init.random = 1 := by
    decide +kernel
  refine ⟨s, replies, hok, hopens, hooksBalance_of_run (.of_afterRun ?_ hok)⟩
  -- neither call truncates
  intro c hc s
  simp only [openRandom, List.mem_cons, List.not_mem_nil, or_false] at hc
  rcases hc with rfl | rfl <;> exact fun _ _ _ _ _ _ hvain => absurd hvain.truncates (by decide)

/-- A renumbering drops the file whose last slot it overwrites. -/
theorem not_hooksBalance_of_run : ¬ ∀ (host : Host) (s : State),
    ReachableBy host (fun _ c => c.setsSlot) s → HooksBalance s := by
  intro hall
  obtain ⟨s, replies, hok, hdata, hopens, hcloses, hheld⟩ :
      Returns (afterRun (openRandom ++ [.fd_renumber 3 4])) fun s _ =>
        (s.files Init.random).isDataFile ∧ s.opens Init.random = 1 ∧
        s.closes Init.random = 0 ∧ s.held Init.random = ∅ := by
    decide +kernel
  have hreach : ReachableBy .still (fun _ c => c.setsSlot) s := by
    refine .of_afterRun (fun c hc _ => ?_) hok
    simp only [openRandom, List.mem_append, List.mem_cons, List.not_mem_nil, or_false] at hc
    rcases hc with (rfl | rfl) | rfl <;> rfl
  have hbalance := hall .still s hreach Init.random hdata
  rw [hopens, hcloses, hheld] at hbalance
  cases hbalance

end WasmFS
