import WasmFS.Descriptors.Descriptions
import WasmFS.Descriptors.Duplicates

/-!
# The ends of a pipe

A pipe is reached through descriptors only.  Its two files have no name, and none is ever given
to them (`linked_of_apply`), so no path leads to them.  A descriptor that a call leaves in the
table holds a description that was there before, or a new one, which is of a linked or a new file
(`Holds`).  So from its making on a pipe is reached through the slots that hold its two
descriptions, and when they are gone, nothing reaches it ever again (`pipes_isolated`).
-/

namespace WasmFS

open Transition

variable {host : Host} {s s' : State} {v v' : PipeState} {r : Reply} {o : OpenId} {p : PipeId}

/-! ## Files without a name -/

namespace Forest

variable {ι ν : Type} [DecidableEq ι] {F : Forest ι ν} {c x : ι}

theorem linked_of_update {q : Option ι} (h : Function.update F.parent c q x ≠ none) :
    (x = c ∧ q ≠ none) ∨ F.Linked x := by
  by_cases hx : x = c
  · subst hx
    rw [Function.update_self] at h
    exact Or.inl ⟨rfl, h⟩
  · rw [Function.update_of_ne hx] at h
    exact Or.inr h

end Forest

/-- A change links nothing but the file that it makes. -/
theorem Change.linked_of_apply {t : Tree} (h : t.WF) {change : Change} (hc : change.Allowed t)
    {f : FileId} (hf : (change.apply t).forest.Linked f) : t.forest.Linked f ∨ f = t.next := by
  rw [Change.forest_apply h hc] at hf
  cases change with
  | none => exact Or.inl hf
  | create d name x =>
      rcases Forest.linked_of_update hf with ⟨hnew, -⟩ | hold
      · exact Or.inr hnew
      · exact Or.inl hold
  | unlink d name c =>
      rcases Forest.linked_of_update hf with ⟨-, hnone⟩ | hold
      · exact absurd rfl hnone
      · exact Or.inl hold
  | move q c d name displaced =>
      have hmoved : t.forest.Linked c := fun hnone => by cases hc.parent.symm.trans hnone
      cases displaced with
      | none =>
          rcases Forest.linked_of_update hf with ⟨rfl, -⟩ | hold
          · exact Or.inl hmoved
          · exact Or.inl hold
      | some c' =>
          rcases Forest.linked_of_update hf with ⟨rfl, -⟩ | hold
          · exact Or.inl hmoved
          · rcases Forest.linked_of_update hold with ⟨-, hnone⟩ | hold
            · exact absurd rfl hnone
            · exact Or.inl hold

/-- The pipe files have no name. -/
def PipeState.Nameless (v : PipeState) : Prop :=
  ∀ f p, v.pipe f = some p → ¬ v.base.tree.forest.Linked f

open PipeState in
theorem PipeState.Nameless.exec (hn : v.Nameless) (hi : PipeInvariant v) {c : PipeCall}
    {reply : PipeReply} (hok : v.exec host c = .ok (v', reply)) : v'.Nameless := by
  have hsame : ∀ {s : State}, SameFiles v.base s → (v.withBase s).Nameless := by
    intro s hs f p hf hl
    exact hn f p hf (hs.tree ▸ hl)
  cases c with
  | export_ call =>
      obtain ⟨r, hexport, -⟩ := map_ok hok
      rcases execExport_cases hexport with ⟨s, hexec, rfl⟩ | ⟨-, fd, p, data, hp, ht⟩
      · intro f p hf hl
        obtain ⟨change, hchange⟩ := exec_change hi.wf hexec
        have hl : s.tree.forest.Linked f := hl
        rw [hchange.tree] at hl
        rcases Change.linked_of_apply hi.wf hchange.allowed hl with hl | rfl
        · exact hn f p hf hl
        · exact Nat.lt_irrefl _ (hi.known hf).2
      · intro f q hf hl
        rw [ht.base.tree] at hl
        exact hn f q (ht.pipe ▸ hf) hl
  | pipe =>
      obtain ⟨ret, readFd, writeFd, hpipe, -⟩ := pipe_of_exec hok
      obtain ⟨htree, hpipes, -, -⟩ := Syscall.pipe_ok hpipe
      intro f p hf hl
      have hwf := hi.wf.alloc (Syscall.pipeNode_blank S_IRUGO)
      rw [htree, hwf.forest_alloc (Syscall.pipeNode_blank _),
        hi.wf.forest_alloc (Syscall.pipeNode_blank _)] at hl
      have hlt : f < v.base.next := hi.wf.lt_next_of_linked hl
      rcases Syscall.pipe_file hpipes hf with ⟨rfl | rfl, -⟩ | ⟨-, -, hf⟩
      · exact Nat.lt_irrefl _ hlt
      · exact Nat.not_succ_lt_self hlt
      · exact hn f p hf hl
  | dup fd =>
      obtain ⟨s, ret, hdup, rfl, -⟩ := of_lift_result hok
      exact hsame (Syscall.dup_sameFiles hdup)
  | dup3 oldfd newfd =>
      obtain ⟨s, ret, hdup, rfl, -⟩ := of_lift_result hok
      exact hsame (Syscall.dup3_sameFiles hdup)
  | fcntl64 fd cmd =>
      obtain ⟨s, ret, hfcntl, rfl, -⟩ := of_lift_result hok
      exact hsame (Syscall.fcntl64_sameFiles hfcntl)
  | poll fds =>
      cases hok
      exact hn

/-! ## Descriptions in the table -/

/-- The table holds no more than before, and the files are the same. -/
structure KeepsHeld (s s' : State) : Prop where
  next : s'.nextDescription = s.nextDescription
  held : ∀ {o}, some o ∈ s'.table →
    some o ∈ s.table ∧ (s'.descriptions o).file = (s.descriptions o).file

namespace KeepsHeld

theorem refl (s : State) : KeepsHeld s s := ⟨rfl, fun ho => ⟨ho, rfl⟩⟩

/-- A slot is emptied, or shares what another one holds. -/
theorem setEntry {fd : Nat} {new : Option OpenId} {closee : Option FileId}
    (hnew : ∀ x, new = some x → some x ∈ s.table)
    (h : FileTable.setEntry s fd new = .ok (s', closee)) : KeepsHeld s s' := by
  refine ⟨FileTable.setEntry_nextDescription h, ?_⟩
  intro o ho
  refine ⟨?_, FileTable.setEntry_file h o⟩
  rcases (FileTable.mem_setEntry h o).mp ho with hn | ⟨hmem, -⟩
  · exact hnew o hn
  · exact hmem

theorem share {fd fd' : Nat} {x : OpenId} {closee : Option FileId}
    (hx : FileTable.getEntry s fd' = some x)
    (h : FileTable.setEntry s fd (some x) = .ok (s', closee)) : KeepsHeld s s' :=
  setEntry (fun _ ho => Option.some.inj ho ▸ FileTable.mem_table_iff.mpr ⟨fd', hx⟩) h

theorem dup {fd : Nat} {ret : Int} (h : Syscall.dup s fd = .ok (s', ret)) : KeepsHeld s s' := by
  unfold Syscall.dup at h
  split at h
  · cases h
    exact refl s
  · rename_i o ho
    obtain ⟨-, closee, hset⟩ := FileTable.addEntry_ok h
    exact share ho hset

theorem dup3 {oldfd newfd ret : Int} (h : Syscall.dup3 s oldfd newfd = .ok (s', ret)) :
    KeepsHeld s s' := by
  unfold Syscall.dup3 at h
  split at h
  · cases h
    exact refl s
  rename_i o ho
  split at h
  · cases h
    exact refl s
  split at h
  · cases h
    exact refl s
  split at h
  · cases h
  · rename_i hset
    cases h
    exact share ho hset

theorem fcntl64 {fd : Nat} {cmd : Syscall.Fcntl} {ret : Int}
    (h : Syscall.fcntl64 s fd cmd = .ok (s', ret)) : KeepsHeld s s' := by
  unfold Syscall.fcntl64 at h
  split at h
  · cases h
    exact refl s
  rename_i o ho
  cases cmd with
  | F_DUPFD newfd =>
      simp only at h
      split at h
      · cases h
        exact refl s
      · split at h
        · cases h
        · rename_i hset
          cases h
          exact share ho hset
  | F_SETFL flags =>
      simp only at h
      split at h
      · cases h
        exact refl s
      · cases h
        refine ⟨rfl, fun {o'} ho' => ⟨ho', ?_⟩⟩
        by_cases hoo : o' = o
        · subst hoo
          rw [State.modifyOpen_self]
        · rw [State.modifyOpen_of_ne _ _ hoo]
  | _ =>
      cases h
      exact refl s

theorem fd_close {fd : UInt32} (h : Export.fd_close s fd = .ok (s', r)) : KeepsHeld s s' := by
  have hnone : ∀ x, (none : Option OpenId) = some x → some x ∈ s.table := by
    intro x hx
    cases hx
  obtain ⟨ret, hclose, rfl⟩ := Export.fd_close_ok h
  simp only [Syscall.close] at hclose
  split at hclose
  · cases hclose
    exact refl s
  split at hclose
  · cases hclose
  · rename_i hset
    have hk := setEntry hnone hset
    cases hclose
    exact hk
  · rename_i hset
    have hk := setEntry hnone hset
    cases hclose
    exact ⟨hk.next, hk.held⟩

theorem fd_renumber {fd dest : UInt32} (h : Export.fd_renumber s fd dest = .ok (s', r)) :
    KeepsHeld s s' := by
  obtain ⟨ret, hdup, rfl⟩ := Export.fd_renumber_ok h
  exact dup3 hdup

end KeepsHeld

/-- What `path_open` adds to the table is of a linked or of a new file. -/
theorem Export.path_open_held (h : s.tree.WF) (hslots : SlotsExist s) {dirfd : UInt32}
    {path : List UInt8} {oflags : UInt16} (hok : path_open host s dirfd path oflags = .ok (s', r))
    (ho : some o ∈ s'.table) :
    (some o ∈ s.table ∧ (s'.descriptions o).file = (s.descriptions o).file) ∨
      (o = s.nextDescription ∧ (s.tree.forest.Linked (s'.descriptions o).file ∨
        (s'.descriptions o).file = s.next)) := by
  have hadded : ∀ {s₁ : State} {ret : Int} {f : FileId}, s₁.table = s.table →
      (∀ x < s.nextDescription, s₁.descriptions x = s.descriptions x) →
      (s₁.descriptions s.nextDescription).file = f → s.tree.forest.Linked f ∨ f = s.next →
      FileTable.addEntry s₁ s.nextDescription = .ok (s', ret) →
      (some o ∈ s.table ∧ (s'.descriptions o).file = (s.descriptions o).file) ∨
        (o = s.nextDescription ∧ (s.tree.forest.Linked (s'.descriptions o).file ∨
          (s'.descriptions o).file = s.next)) := by
    intro s₁ ret f htable hold hfile hf hadd
    obtain ⟨-, closee, hset⟩ := FileTable.addEntry_ok hadd
    have heq := FileTable.setEntry_file hset o
    rcases (FileTable.mem_setEntry hset o).mp ho with hn | ⟨hmem, -⟩
    · obtain rfl := Option.some.inj hn
      rw [hfile] at heq
      exact Or.inr ⟨rfl, heq ▸ hf⟩
    · rw [htable] at hmem
      obtain ⟨fd, hfd⟩ := FileTable.mem_table_iff.mp hmem
      rw [hold o (hslots hfd)] at heq
      exact Or.inl ⟨hmem, heq⟩
  obtain ⟨ret, hopen, rfl⟩ := Export.path_open_ok hok
  rcases Syscall.openat2_cases h host dirfd.toNat (cstr path) oflags.toNat 0 with
    ⟨e, s₂, he, hfails⟩ | ⟨parent, leaf, c, child, hres, -, hadd⟩ | ⟨parent, leaf, -, -, hadd⟩
  · rw [he] at hopen
    cases hopen
    have hun := hfails.unchanged
    rw [hun.table] at ho
    obtain ⟨fd, hfd⟩ := FileTable.mem_table_iff.mp ho
    exact Or.inl ⟨ho, by rw [hun.descriptions o (hslots hfd)]⟩
  · rw [hadd] at hopen
    obtain ⟨dirents, hself⟩ := Syscall.opened_self s child oflags.toNat
    exact hadded (Syscall.opened_table s child oflags.toNat)
      (fun x hx => Syscall.opened_of_ne s child oflags.toNat (Nat.ne_of_lt hx)) (by rw [hself])
      (Or.inl (hres.linked h)) hopen
  · rw [hadd] at hopen
    obtain ⟨dirents, hself⟩ := Syscall.created_self host s parent leaf oflags.toNat 0
    exact hadded (Syscall.created_table ..)
      (fun x hx => Syscall.created_of_ne host s parent leaf oflags.toNat 0 (Nat.ne_of_lt hx))
      (by rw [hself]) (Or.inr rfl) hopen

/-- What an export adds to the table is of a linked or of a new file. -/
theorem exec_held {c : Call} (h : s.tree.WF) (hslots : SlotsExist s)
    (hok : exec host s c = .ok (s', r)) (ho : some o ∈ s'.table) :
    (some o ∈ s.table ∧ (s'.descriptions o).file = (s.descriptions o).file) ∨
      (o = s.nextDescription ∧ (s.tree.forest.Linked (s'.descriptions o).file ∨
        (s'.descriptions o).file = s.next)) := by
  cases hc : c.setsSlot with
  | false =>
      have hk := exec_keepsTable h hc hok
      rw [hk.table] at ho
      obtain ⟨fd, hfd⟩ := FileTable.mem_table_iff.mp ho
      obtain ⟨position, hd⟩ := hk.old o (hslots hfd)
      exact Or.inl ⟨ho, by rw [hd]⟩
  | true =>
      cases c with
      | fd_close fd => exact Or.inl ((KeepsHeld.fd_close hok).held ho)
      | fd_renumber fd dest => exact Or.inl ((KeepsHeld.fd_renumber hok).held ho)
      | path_open dirfd path oflags => exact Export.path_open_held h hslots hok ho
      | _ => cases hc

/-! ## Steps -/

namespace PipeState

/-- A description in the table after a call was there before, or it is new.  A new one is of no
pipe, unless the call made it. -/
inductive Holds (v v' : PipeState) (c : PipeCall) (o : OpenId) : Prop where
  | old : some o ∈ v.base.table →
      v'.pipe (v'.base.descriptions o).file = v.pipe (v.base.descriptions o).file →
      (v'.base.descriptions o).file = (v.base.descriptions o).file → Holds v v' c o
  | new : c ≠ .pipe → v.base.nextDescription ≤ o → v'.pipe (v'.base.descriptions o).file = none →
      (v'.base.descriptions o).file < v'.base.next → Holds v v' c o
  | made : c = .pipe → o = v.base.nextDescription ∨ o = v.base.nextDescription + 1 →
      v'.pipe (v'.base.descriptions o).file = some v.next →
      (v'.base.descriptions o).file < v'.base.next → Holds v v' c o

/-- What the states that a run reaches have. -/
structure Sound (v : PipeState) : Prop where
  inv : PipeInvariant v
  uses : UsesBalance v.base
  files : FilesExist v.base
  nameless : v.Nameless

theorem Holds.of_keepsHeld {c : PipeCall} (h : KeepsHeld v.base s)
    (ho : some o ∈ (v.withBase s).base.table) : Holds v (v.withBase s) c o := by
  obtain ⟨hmem, hfile⟩ := h.held ho
  exact .old hmem (congrArg v.pipe hfile) hfile

theorem Sound.pipe_holds (hs : v.Sound) {ret readFd writeFd : Int}
    (h : Syscall.pipe host v = .ok (v', ret, readFd, writeFd)) (ho : some o ∈ v'.base.table) :
    Holds v v' .pipe o := by
  obtain ⟨htree, hpipe, -, -⟩ := Syscall.pipe_ok h
  obtain ⟨-, s, s₁, hmade, hadd, hadd'⟩ := Syscall.pipe_steps h
  obtain ⟨-, closee, hset⟩ := FileTable.addEntry_ok hadd
  obtain ⟨-, closee', hset'⟩ := FileTable.addEntry_ok hadd'
  have hfile : (v'.base.descriptions o).file = (s.descriptions o).file :=
    (FileTable.setEntry_file hset' o).trans (FileTable.setEntry_file hset o)
  have hnext : v'.base.next = v.base.next + 2 := congrArg Tree.next htree
  rcases (FileTable.mem_setEntry hset' o).mp ho with hn | ⟨hmem, -⟩
  · obtain rfl := Option.some.inj hn
    rw [hmade.writer] at hfile
    refine .made rfl (Or.inr rfl) ?_ ?_
    · rw [hfile, hpipe, Function.update_self]
    · rw [hfile, hnext]
      exact Nat.lt_succ_self _
  rcases (FileTable.mem_setEntry hset o).mp hmem with hn | ⟨hmem, -⟩
  · obtain rfl := Option.some.inj hn
    rw [hmade.reader] at hfile
    refine .made rfl (Or.inl rfl) ?_ ?_
    · rw [hfile, hpipe, Function.update_of_ne (Nat.ne_of_lt (Nat.lt_succ_self _)),
        Function.update_self]
    · rw [hfile, hnext]
      exact Nat.lt_add_of_pos_right Nat.two_pos
  · rw [hmade.keeps.table] at hmem
    obtain ⟨fd, hfd⟩ := FileTable.mem_table_iff.mp hmem
    obtain ⟨position, hd⟩ := hmade.keeps.old o (hs.uses.exist hfd)
    rw [hd] at hfile
    have hlt : (v.base.descriptions o).file < v.base.next := hs.files o hmem
    refine .old hmem ?_ hfile
    rw [hfile, hpipe, Function.update_of_ne (Nat.ne_of_lt (Nat.lt_succ_of_lt hlt)),
      Function.update_of_ne (Nat.ne_of_lt hlt)]

theorem Sound.holds (hs : v.Sound) {c : PipeCall} {reply : PipeReply}
    (hok : v.exec host c = .ok (v', reply)) (ho : some o ∈ v'.base.table) : Holds v v' c o := by
  cases c with
  | export_ call =>
      obtain ⟨r, hexport, -⟩ := map_ok hok
      rcases execExport_cases hexport with ⟨s, hexec, rfl⟩ | ⟨-, fd, p, data, hp, ht⟩
      · rcases exec_held hs.inv.wf hs.uses.exist hexec ho with ⟨hmem, hfile⟩ | ⟨rfl, hnew⟩
        · exact .old hmem (congrArg v.pipe hfile) hfile
        · refine .new (by intro h; cases h) (Nat.le_refl _) ?_
            (hs.files.step hs.inv.wf hs.uses.exist ⟨r, hexec⟩ _ ho)
          rw [Option.eq_none_iff_forall_ne_some]
          intro p hp
          rcases hnew with hl | hnew
          · exact hs.nameless _ p hp hl
          · have hlt := (hs.inv.known hp).2
            rw [show ((v.withBase s).base.descriptions v.base.nextDescription).file =
              v.base.next from hnew] at hlt
            exact Nat.lt_irrefl _ hlt
      · have hk := KeepsTable.of_skeleton ht.base
        rw [hk.table] at ho
        obtain ⟨fd', hfd⟩ := FileTable.mem_table_iff.mp ho
        obtain ⟨position, hd⟩ := hk.old o (hs.uses.exist hfd)
        have hfile : (v'.base.descriptions o).file = (v.base.descriptions o).file := by rw [hd]
        exact .old ho (by rw [hfile, ht.pipe]) hfile
  | pipe =>
      obtain ⟨ret, readFd, writeFd, hpipe, -⟩ := pipe_of_exec hok
      exact hs.pipe_holds hpipe ho
  | dup fd =>
      obtain ⟨s, ret, hdup, rfl, -⟩ := of_lift_result hok
      exact .of_keepsHeld (.dup hdup) ho
  | dup3 oldfd newfd =>
      obtain ⟨s, ret, hdup, rfl, -⟩ := of_lift_result hok
      exact .of_keepsHeld (.dup3 hdup) ho
  | fcntl64 fd cmd =>
      obtain ⟨s, ret, hfcntl, rfl, -⟩ := of_lift_result hok
      exact .of_keepsHeld (.fcntl64 hfcntl) ho
  | poll fds =>
      cases hok
      exact .old ho rfl rfl

/-- Nothing that was made is made again. -/
structure Grows (v v' : PipeState) : Prop where
  next : v.next ≤ v'.next
  files : v.base.next ≤ v'.base.next
  descriptions : v.base.nextDescription ≤ v'.base.nextDescription

theorem Grows.of_sameFiles (hfiles : SameFiles v.base s) (hk : KeepsHeld v.base s) :
    Grows v (v.withBase s) where
  next := Nat.le_refl _
  files := Nat.le_of_eq hfiles.next.symm
  descriptions := Nat.le_of_eq hk.next.symm

/-- A call grows the state, and only `pipe` makes a pipe. -/
theorem Sound.grows (hs : v.Sound) {c : PipeCall} {reply : PipeReply}
    (hok : v.exec host c = .ok (v', reply)) : Grows v v' ∧ (c ≠ .pipe → v'.next = v.next) := by
  cases c with
  | export_ call =>
      obtain ⟨r, hexport, -⟩ := map_ok hok
      rcases execExport_cases hexport with ⟨s, hexec, rfl⟩ | ⟨-, fd, p, data, hp, ht⟩
      · have hstep : WasmFS.Step host v.base call s := ⟨r, hexec⟩
        refine ⟨⟨Nat.le_refl _, hstep.next_le hs.inv.wf, ?_⟩, fun _ => rfl⟩
        cases exec_slots hs.inv.wf hs.uses.exist hexec with
        | keep hk => exact hk.next_le
        | set hk hnew hset hs' =>
            have hnext := (FileTable.setEntry_nextDescription hset).symm
            rcases hs' with rfl | ⟨hook, rfl⟩
            · exact hnext ▸ hk.next_le
            · exact Nat.le_trans hk.next_le (Nat.le_of_eq hnext)
      · exact ⟨⟨Nat.le_of_eq ht.next.symm, Nat.le_of_eq (congrArg Tree.next ht.base.tree).symm,
          Nat.le_of_eq ht.base.nextDescription.symm⟩, fun _ => ht.next⟩
  | pipe =>
      obtain ⟨ret, readFd, writeFd, hpipe, -⟩ := pipe_of_exec hok
      obtain ⟨htree, -, -, hnext⟩ := Syscall.pipe_ok hpipe
      obtain ⟨-, s, s₁, hmade, hadd, hadd'⟩ := Syscall.pipe_steps hpipe
      obtain ⟨-, closee, hset⟩ := FileTable.addEntry_ok hadd
      obtain ⟨-, closee', hset'⟩ := FileTable.addEntry_ok hadd'
      have hfiles : v'.base.next = v.base.next + 2 := congrArg Tree.next htree
      refine ⟨⟨hnext ▸ Nat.le_succ _, hfiles ▸ Nat.le_add_right _ _, ?_⟩, fun h => absurd rfl h⟩
      rw [FileTable.setEntry_nextDescription hset', FileTable.setEntry_nextDescription hset]
      exact hmade.keeps.next_le
  | dup fd =>
      obtain ⟨s, ret, hdup, rfl, -⟩ := of_lift_result hok
      exact ⟨.of_sameFiles (Syscall.dup_sameFiles hdup) (.dup hdup), fun _ => rfl⟩
  | dup3 oldfd newfd =>
      obtain ⟨s, ret, hdup, rfl, -⟩ := of_lift_result hok
      exact ⟨.of_sameFiles (Syscall.dup3_sameFiles hdup) (.dup3 hdup), fun _ => rfl⟩
  | fcntl64 fd cmd =>
      obtain ⟨s, ret, hfcntl, rfl, -⟩ := of_lift_result hok
      exact ⟨.of_sameFiles (Syscall.fcntl64_sameFiles hfcntl) (.fcntl64 hfcntl), fun _ => rfl⟩
  | poll fds =>
      cases hok
      exact ⟨⟨Nat.le_refl _, Nat.le_refl _, Nat.le_refl _⟩, fun _ => rfl⟩

theorem Sound.exec (hs : v.Sound) {c : PipeCall} {reply : PipeReply}
    (hok : v.exec host c = .ok (v', reply)) : v'.Sound where
  inv := hs.inv.exec hok
  uses := hs.uses.exec hs.inv hok
  nameless := hs.nameless.exec hs.inv hok
  files o ho := by
    cases hs.holds hok ho with
    | old hmem _ hfile =>
        rw [hfile]
        exact Nat.lt_of_lt_of_le (hs.files o hmem) (hs.grows hok).1.files
    | new _ _ _ hlt => exact hlt
    | made _ _ _ hlt => exact hlt

theorem Sound.init (host : Host) : Sound (.init host) where
  inv := .init host
  uses := WasmFS.Reachable.usesBalance .refl
  files := WasmFS.Reachable.filesExist .refl
  nameless f p hf := by cases hf

/-! ## The two descriptions of a pipe -/

/-- What holds the pipe `p` in the table are these two descriptions. -/
structure Ends (v : PipeState) (p : PipeId) (reader writer : OpenId) : Prop where
  ne : reader ≠ writer
  pipe_lt : p < v.next
  reader_lt : reader < v.base.nextDescription
  writer_lt : writer < v.base.nextDescription
  held : ∀ {o}, some o ∈ v.base.table →
    (v.pipe (v.base.descriptions o).file = some p ↔ o = reader ∨ o = writer)

theorem Ends.exec {reader writer : OpenId} (he : v.Ends p reader writer) (hs : v.Sound)
    {c : PipeCall} {reply : PipeReply} (hok : v.exec host c = .ok (v', reply)) :
    v'.Ends p reader writer := by
  have hgrows := (hs.grows hok).1
  refine ⟨he.ne, Nat.lt_of_lt_of_le he.pipe_lt hgrows.next,
    Nat.lt_of_lt_of_le he.reader_lt hgrows.descriptions,
    Nat.lt_of_lt_of_le he.writer_lt hgrows.descriptions, ?_⟩
  intro o ho
  have hnew : v.base.nextDescription ≤ o → ¬ (o = reader ∨ o = writer) := by
    rintro hle (rfl | rfl)
    · exact Nat.not_lt_of_le hle he.reader_lt
    · exact Nat.not_lt_of_le hle he.writer_lt
  cases hs.holds hok ho with
  | old hmem hpipe _ =>
      rw [hpipe]
      exact he.held hmem
  | new _ hle hnone _ =>
      rw [hnone]
      exact iff_of_false (Option.some_ne_none p).symm (hnew hle)
  | made _ hmade hpipe _ =>
      rw [hpipe]
      refine iff_of_false (fun h => Nat.ne_of_gt he.pipe_lt (Option.some.inj h)) (hnew ?_)
      rcases hmade with rfl | rfl
      · exact Nat.le_refl _
      · exact Nat.le_succ _

/-- A new pipe has the two new descriptions. -/
theorem Sound.ends_pipe (hs : v.Sound) {reply : PipeReply}
    (hok : v.exec host .pipe = .ok (v', reply)) :
    v'.Ends v.next v.base.nextDescription (v.base.nextDescription + 1) := by
  obtain ⟨ret, readFd, writeFd, hpipe, -⟩ := pipe_of_exec hok
  obtain ⟨-, -, -, hnext⟩ := Syscall.pipe_ok hpipe
  obtain ⟨-, s, s₁, hmade, hadd, hadd'⟩ := Syscall.pipe_steps hpipe
  obtain ⟨-, closee, hset⟩ := FileTable.addEntry_ok hadd
  obtain ⟨-, closee', hset'⟩ := FileTable.addEntry_ok hadd'
  have hdescriptions : v'.base.nextDescription = v.base.nextDescription + 2 := by
    rw [FileTable.setEntry_nextDescription hset', FileTable.setEntry_nextDescription hset,
      hmade.next]
  refine ⟨Nat.ne_of_lt (Nat.lt_succ_self _), hnext ▸ Nat.lt_succ_self _,
    hdescriptions ▸ Nat.lt_add_of_pos_right Nat.two_pos,
    hdescriptions ▸ Nat.lt_succ_self _, ?_⟩
  intro o ho
  cases hs.holds hok ho with
  | old hmem hpipe _ =>
      rw [hpipe]
      obtain ⟨fd, hfd⟩ := FileTable.mem_table_iff.mp hmem
      have hlt := hs.uses.exist hfd
      refine iff_of_false (fun h => Nat.lt_irrefl _ (hs.inv.known h).1) ?_
      rintro (rfl | rfl)
      · exact Nat.lt_irrefl _ hlt
      · exact Nat.not_succ_lt_self hlt
  | new hne _ _ _ => exact absurd rfl hne
  | made _ hends hpipe _ =>
      rw [hpipe]
      exact iff_of_true rfl hends

/-- Every pipe has its two ends. -/
def HasEnds (v : PipeState) : Prop := ∀ p < v.next, ∃ reader writer, v.Ends p reader writer

theorem HasEnds.exec (he : v.HasEnds) (hs : v.Sound) {c : PipeCall} {reply : PipeReply}
    (hok : v.exec host c = .ok (v', reply)) : v'.HasEnds := by
  intro p hp
  by_cases hold : p < v.next
  · obtain ⟨reader, writer, hends⟩ := he p hold
    exact ⟨reader, writer, hends.exec hs hok⟩
  · by_cases hc : c = .pipe
    · subst hc
      have hends := hs.ends_pipe hok
      obtain ⟨ret, readFd, writeFd, hpipe, -⟩ := pipe_of_exec hok
      obtain ⟨-, -, -, hnext⟩ := Syscall.pipe_ok hpipe
      rw [hnext] at hp
      obtain rfl : p = v.next := Nat.le_antisymm (Nat.le_of_lt_succ hp) (Nat.le_of_not_lt hold)
      exact ⟨_, _, hends⟩
    · exact absurd ((hs.grows hok).2 hc ▸ hp) hold

/-! ## Pipes that nothing holds -/

/-- No descriptor is of the pipe `p`. -/
def Gone (v : PipeState) (p : PipeId) : Prop := ∀ fd, v.pipeOf fd ≠ some p

theorem gone_iff : v.Gone p ↔
    ∀ o, some o ∈ v.base.table → v.pipe (v.base.descriptions o).file ≠ some p := by
  constructor
  · intro h o ho hp
    obtain ⟨fd, hfd⟩ := FileTable.mem_table_iff.mp ho
    exact h fd (pipeOf_eq_some_iff.mpr ⟨o, hfd, hp⟩)
  · intro h fd hp
    obtain ⟨o, hfd, hp⟩ := pipeOf_eq_some_iff.mp hp
    exact h o (FileTable.mem_table_iff.mpr ⟨fd, hfd⟩) hp

/-- A call does not bring a pipe back, and leaves its queue alone. -/
theorem Gone.exec (hg : v.Gone p) (hp : p < v.next) (hs : v.Sound) {c : PipeCall}
    {reply : PipeReply} (hok : v.exec host c = .ok (v', reply)) :
    v'.Gone p ∧ v'.data p = v.data p := by
  refine ⟨gone_iff.mpr fun o ho hpipe' => ?_, ?_⟩
  · cases hs.holds hok ho with
    | old hmem hpipe _ => exact gone_iff.mp hg o hmem (hpipe ▸ hpipe')
    | new _ _ hnone _ => cases hnone.symm.trans hpipe'
    | made _ _ hpipe _ => exact Nat.ne_of_gt hp (Option.some.inj (hpipe.symm.trans hpipe'))
  · have hlift : ∀ {result : Except Fault (State × Int)},
        (v.lift result).map (fun x => (x.1, PipeReply.result x.2)) = .ok (v', reply) →
        v'.data p = v.data p := by
      intro result hok
      obtain ⟨s, ret, -, rfl, -⟩ := of_lift_result hok
      rfl
    cases c with
    | export_ call =>
        obtain ⟨r, hexport, -⟩ := map_ok hok
        rcases execExport_cases hexport with ⟨s, hexec, rfl⟩ | ⟨-, fd, q, data, hq, ht⟩
        · rfl
        · have hne : p ≠ q := fun heq => hg fd (heq ▸ hq)
          rw [ht.data, Function.update_of_ne hne]
    | pipe =>
        obtain ⟨ret, readFd, writeFd, hpipe, -⟩ := pipe_of_exec hok
        obtain ⟨-, -, hdata, -⟩ := Syscall.pipe_ok hpipe
        rw [hdata, Function.update_of_ne (Nat.ne_of_lt hp)]
    | dup fd => exact hlift hok
    | dup3 oldfd newfd => exact hlift hok
    | fcntl64 fd cmd => exact hlift hok
    | poll fds =>
        cases hok
        rfl

/-! ## Runs -/

theorem Reachable.sound (h : Reachable host v) : v.Sound ∧ v.HasEnds := by
  refine Reach.invariant (I := fun v => v.Sound ∧ v.HasEnds) ?_ ?_ h
  · exact ⟨.init host, fun p hp => absurd hp (Nat.not_lt_zero p)⟩
  · intro v c v' hv _ hstep
    obtain ⟨reply, hok⟩ := hstep
    exact ⟨hv.1.exec hok, hv.2.exec hv.1 hok⟩

/-- A pipe is reached through its own two descriptions only. -/
structure Isolated (host : Host) (v : PipeState) (p : PipeId) : Prop where
  /-- Its descriptors are the slots of two descriptions, now and in whatever follows. -/
  ends : ∃ reader writer, reader ≠ writer ∧ ∀ {v'}, Reaches host v v' → ∀ fd,
    v'.pipeOf fd = some p ↔
      v'.base.slots fd = some reader ∨ v'.base.slots fd = some writer
  /-- No path leads to its files. -/
  nameless : ∀ {f base path}, v.pipe f = some p → (Path.getFileFrom v.base base path).2 ≠ .ok f
  /-- When no descriptor is left, none is ever made again and what is queued stays. -/
  gone : v.Gone p → ∀ {v'}, Reaches host v v' → v'.Gone p ∧ v'.data p = v.data p

end PipeState

theorem pipes_isolated (h : PipeState.Reachable host v) (hp : p < v.next) :
    v.Isolated host p := by
  obtain ⟨hs, hends⟩ := h.sound
  obtain ⟨reader, writer, he⟩ := hends p hp
  refine ⟨⟨reader, writer, he.ne, ?_⟩, ?_, ?_⟩
  · intro v' hreach fd
    have hboth : v'.Sound ∧ v'.Ends p reader writer := by
      refine Reach.invariant (I := fun v => v.Sound ∧ v.Ends p reader writer) ⟨hs, he⟩ ?_ hreach
      intro v c v' hv _ hstep
      obtain ⟨reply, hok⟩ := hstep
      exact ⟨hv.1.exec hok, hv.2.exec hv.1 hok⟩
    have hheld : ∀ {o}, FileTable.getEntry v'.base fd = some o →
        (v'.pipe (v'.base.descriptions o).file = some p ↔ o = reader ∨ o = writer) :=
      fun hfd => hboth.2.held (FileTable.mem_table_iff.mpr ⟨fd, hfd⟩)
    rw [PipeState.pipeOf_eq_some_iff]
    constructor
    · rintro ⟨o, hfd, hpipe⟩
      rcases (hheld hfd).mp hpipe with rfl | rfl
      · exact Or.inl hfd
      · exact Or.inr hfd
    · rintro (hfd | hfd)
      · exact ⟨reader, hfd, (hheld hfd).mpr (Or.inl rfl)⟩
      · exact ⟨writer, hfd, (hheld hfd).mpr (Or.inr rfl)⟩
  · intro f base path hf hpath
    exact hs.nameless f p hf (Path.getFileFrom_linked hs.inv.wf hpath)
  · intro hg v' hreach
    have hall : v'.Sound ∧ p < v'.next ∧ v'.Gone p ∧ v'.data p = v.data p := by
      refine Reach.invariant
        (I := fun w => w.Sound ∧ p < w.next ∧ w.Gone p ∧ w.data p = v.data p)
        ⟨hs, hp, hg, rfl⟩ ?_ hreach
      rintro w c w' ⟨hw, hpw, hgw, hdata⟩ - ⟨reply, hok⟩
      obtain ⟨hg', hdata'⟩ := hgw.exec hpw hw hok
      exact ⟨hw.exec hok, Nat.lt_of_lt_of_le hpw (hw.grows hok).1.next, hg', hdata'.trans hdata⟩
    exact hall.2.2

/-- Two bytes are left in a pipe whose descriptors are all closed. -/
def abandonRun : List PipeCall :=
  [.pipe, .dup 4, .export_ (.fd_write 5 [⟨false, [1, 2], by decide⟩]), .export_ (.fd_close 3),
    .export_ (.fd_close 4), .export_ (.fd_close 5)]

theorem pipes_isolated_abandonRun : ∃ v replies,
    attempt (PipeState.exec .still) (.init .still) abandonRun = .ok (v, replies) ∧
    v.data 0 = [1, 2] ∧ v.base.table = [some 0, some 1, some 2, none, none, none] ∧
    v.Isolated .still 0 := by
  have hok := @PipeState.attempt_ran abandonRun (by decide +kernel)
  have hmade : 0 < (PipeState.ran abandonRun).1.next := by decide +kernel
  exact ⟨_, _, hok, by decide +kernel, by decide +kernel,
    pipes_isolated (.of_attempt .refl hok) hmade⟩

end WasmFS
