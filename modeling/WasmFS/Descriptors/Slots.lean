import WasmFS.Data.Locality
import WasmFS.Descriptors.Uses
import WasmFS.Lib.Slots

/-!
# Descriptors are slots of a map

The table maps descriptors to descriptions.  Every call is an event of that map:
`path_open` installs a new description in the least empty slot, `fd_renumber`
shares one, `fd_close` clears a slot, and no other call names a slot.  A call
through a slot knows the slot only by the description in it
(`slots_refine`).
-/

namespace WasmFS

open Slots

variable {host : Host} {s s' : State} {r : Reply}

/-- The description in each slot. -/
def State.slots (s : State) : ℕ → Option OpenId := FileTable.getEntry s

theorem State.slots_of_table (h : s'.table = s.table) : s'.slots = s.slots := by
  funext i
  simp only [slots, FileTable.getEntry, h]

namespace FileTable

theorem slots_setEntry {fd : Nat} {new : Option OpenId} {closee : Option FileId}
    (h : setEntry s fd new = .ok (s', closee)) : s'.slots = Function.update s.slots fd new := by
  funext i
  by_cases hi : i = fd
  · rw [hi, Function.update_self]
    exact getEntry_setEntry_self h
  · rw [Function.update_of_ne hi]
    exact getEntry_setEntry_of_ne h hi

/-- The search of `addEntry` ends at the least empty slot. -/
theorem isLeast_firstFree (s : State) : IsLeast {i | s.slots i = none} (firstFree s.table 0) := by
  refine ⟨getEntry_firstFree s, ?_⟩
  intro i hi
  by_contra hlt
  obtain ⟨o, ho⟩ := getElem?_of_lt_firstFree (Nat.lt_of_not_le hlt)
  have hi : (s.table[i]?).join = none := hi
  rw [ho] at hi
  cases hi

/-- Adding an entry fails only if every slot that a table can have is taken. -/
theorem full_of_addEntry {o : OpenId} {e : Fault} (h : addEntry s o = .error e) :
    ∀ i < maxSize, s.slots i ≠ none := by
  intro i hi hnone
  have hle : firstFree s.table 0 ≤ i := (isLeast_firstFree s).2 hnone
  have hgrow : ∃ s₁, grow s (firstFree s.table 0) = .ok s₁ := by
    simp only [grow]
    split
    · exact ⟨_, rfl⟩
    · rw [if_neg (by omega)]
      exact ⟨_, rfl⟩
  obtain ⟨s₁, hgrow⟩ := hgrow
  simp only [addEntry, setEntry, hgrow] at h
  cases h

end FileTable

/-! ## Opening -/

/-- A new description is put into the least empty slot. -/
structure Installed (s s' : State) (n : ℕ) (o : OpenId) : Prop where
  lt : n < FileTable.maxSize
  allowed : (Event.install n o).Allowed s.slots
  slots : s'.slots = Function.update s.slots n (some o)
  position : (s'.descriptions o).position = 0

theorem UsesBalance.installed (h : UsesBalance s) {s₁ : State} {ret : Int}
    (htable : s₁.table = s.table) (hposition : (s₁.descriptions s.nextDescription).position = 0)
    (hadd : FileTable.addEntry s₁ s.nextDescription = .ok (s', ret)) :
    ∃ n : ℕ, ret = n ∧ Installed s s' n s.nextDescription := by
  have hslots := State.slots_of_table htable
  obtain ⟨hret, closee, hset⟩ := FileTable.addEntry_ok hadd
  refine ⟨FileTable.firstFree s₁.table 0, hret, ?_, ⟨?_, ?_⟩, ?_, ?_⟩
  · have hlength := FileTable.setEntry_length_le hset (htable ▸ h.fits)
    have hslot := FileTable.getEntry_setEntry_self hset
    have hin := (List.getElem?_eq_some_iff.mp (Option.join_eq_some_iff.mp hslot)).1
    exact Nat.lt_of_lt_of_le hin hlength
  · rw [← hslots]
    exact FileTable.isLeast_firstFree s₁
  · intro i hi
    exact Nat.lt_irrefl _ (h.exist hi)
  · rw [← hslots]
    exact FileTable.slots_setEntry hset
  · obtain ⟨uses, ho⟩ := FileTable.setEntry_description hset s.nextDescription
    rw [ho]
    exact hposition

theorem Export.path_open_slot (h : s.tree.WF) (hb : UsesBalance s) {dirfd : UInt32}
    {path : List UInt8} {oflags : UInt16} (hok : path_open host s dirfd path oflags = .ok (s', r)) :
    ∃ n, r = ⟨0, .fd n⟩ ∧
      ((2147483648 ≤ n ∧ s'.slots = s.slots) ∨ ∃ o, Installed s s' n o) := by
  have hfd : ∀ {s₁ : State} {ret : Int}, (s₁.table = s.table) →
      (s₁.descriptions s.nextDescription).position = 0 →
      FileTable.addEntry s₁ s.nextDescription = .ok (s', ret) →
      ∃ n, u32 ret = n ∧ Installed s s' n s.nextDescription := by
    intro s₁ ret htable hposition hadd
    obtain ⟨n, rfl, hn⟩ := hb.installed htable hposition hadd
    have hlt : n < 536870911 := hn.lt
    exact ⟨n, u32_of_lt (by omega), hn⟩
  obtain ⟨ret, hopen, rfl⟩ := Export.path_open_ok hok
  rcases Syscall.openat2_cases h host dirfd.toNat (cstr path) oflags.toNat 0 with
    ⟨e, s₂, he, hun⟩ | ⟨parent, leaf, c, child, -, -, hadd⟩ | ⟨parent, leaf, -, -, hadd⟩
  · rw [he] at hopen
    cases hopen
    exact ⟨_, rfl, Or.inl ⟨e.u32_neg_ge, State.slots_of_table hun.unchanged.table⟩⟩
  · rw [hadd] at hopen
    obtain ⟨dirents, hself⟩ := Syscall.opened_self s child oflags.toNat
    obtain ⟨n, hn, hinstalled⟩ :=
      hfd (Syscall.opened_table s child oflags.toNat) (by rw [hself]) hopen
    exact ⟨n, by rw [hn], Or.inr ⟨_, hinstalled⟩⟩
  · rw [hadd] at hopen
    obtain ⟨dirents, hself⟩ := Syscall.created_self host s parent leaf oflags.toNat 0
    obtain ⟨n, hn, hinstalled⟩ := hfd (Syscall.created_table ..) (by rw [hself]) hopen
    exact ⟨n, by rw [hn], Or.inr ⟨_, hinstalled⟩⟩

/-- `path_open` returns as long as there is an empty slot. -/
theorem Export.full_of_path_open (h : s.tree.WF) {dirfd : UInt32} {path : List UInt8}
    {oflags : UInt16} {e : Fault} (herror : path_open host s dirfd path oflags = .error e) :
    ∀ i < FileTable.maxSize, s.slots i ≠ none := by
  simp only [path_open] at herror
  split at herror
  swap
  · cases herror
  rename_i e' hopen
  rcases Syscall.openat2_cases h host dirfd.toNat (cstr path) oflags.toNat 0 with
    ⟨e, s₂, he, -⟩ | ⟨parent, leaf, c, child, -, -, hadd⟩ | ⟨parent, leaf, -, -, hadd⟩
  · rw [he] at hopen
    cases hopen
  · rw [hadd] at hopen
    rw [← State.slots_of_table (Syscall.opened_table s child oflags.toNat)]
    exact FileTable.full_of_addEntry hopen
  · rw [hadd] at hopen
    rw [← State.slots_of_table (Syscall.created_table host s parent leaf oflags.toNat 0)]
    exact FileTable.full_of_addEntry hopen

/-! ## Closing and renumbering -/

theorem Export.fd_close_slot {fd : UInt32} (hok : fd_close s fd = .ok (s', r)) :
    (s.slots fd.toNat = none ∧ s' = s ∧ r = ⟨Errno.badf.code, .nothing⟩) ∨
    ∃ o, s.slots fd.toNat = some o ∧ r = ⟨0, .nothing⟩ ∧
      s'.slots = Function.update s.slots fd.toNat none := by
  simp only [fd_close, Syscall.close] at hok
  cases ho : FileTable.getEntry s fd.toNat with
  | none =>
      rw [ho] at hok
      cases hok
      exact Or.inl ⟨ho, rfl, rfl⟩
  | some o =>
      rw [ho] at hok
      refine Or.inr ⟨o, ho, ?_⟩
      cases hset : FileTable.setEntry s fd.toNat none with
      | error e =>
          rw [hset] at hok
          cases hok
      | ok result =>
          obtain ⟨s₁, closee⟩ := result
          have hslots := FileTable.slots_setEntry hset
          rw [hset] at hok
          cases closee <;> cases hok <;> exact ⟨rfl, hslots⟩

theorem Export.fd_renumber_slot {fd dest : UInt32} (hdest : dest.toNat < 2147483648)
    (hok : fd_renumber s fd dest = .ok (s', r)) :
    (s.slots fd.toNat = none ∧ s' = s ∧ r.errno ≠ 0) ∨
    ∃ o, s.slots fd.toNat = some o ∧
      s'.slots = Function.update s.slots dest.toNat (some o) := by
  have hfd : u32 (s32 fd.toNat) = fd.toNat := u32_s32 fd
  have hto : s32 dest.toNat = dest.toNat := s32_of_mem (by omega) (by omega)
  obtain ⟨ret, hdup, rfl⟩ := Export.fd_renumber_ok hok
  simp only [Syscall.dup3, hfd, hto] at hdup
  cases ho : FileTable.getEntry s fd.toNat with
  | none =>
      rw [ho] at hdup
      cases hdup
      exact Or.inl ⟨ho, rfl, by decide⟩
  | some o =>
      rw [ho] at hdup
      refine Or.inr ⟨o, ho, ?_⟩
      simp only at hdup
      rw [if_neg (by omega)] at hdup
      split at hdup
      · -- the slots are the same
        rename_i hsame
        cases hdup
        have heq : fd.toNat = dest.toNat := by
          have hlt := fd.toNat_lt
          simp only [s32] at hsame
          omega
        rw [← heq]
        exact (Function.update_eq_self_iff.mpr ho.symm).symm
      · split at hdup
        · cases hdup
        · rename_i hset
          cases hdup
          have hindex : u32 (dest.toNat : Int) = dest.toNat := u32_of_lt dest.toNat_lt
          rw [hindex] at hset
          exact FileTable.slots_setEntry hset

/-! ## Every call is an event -/

/-- The target of a renumbering is below 2^31. -/
def Call.TargetInRange : Call → Prop
  | .fd_renumber _ dest => dest.toNat < 2147483648
  | _ => True

/-- The event that a call with this reply is. -/
inductive Call.Shows : Call → Reply → Event OpenId → Prop where
  | opened {dirfd : UInt32} {path : List UInt8} {oflags : UInt16} {n : ℕ} {o : OpenId} :
      n < FileTable.maxSize → Shows (.path_open dirfd path oflags) ⟨0, .fd n⟩ (.install n o)
  /-- The number is negative as an `int`. -/
  | refused {dirfd : UInt32} {path : List UInt8} {oflags : UInt16} {n : ℕ} :
      2147483648 ≤ n → Shows (.path_open dirfd path oflags) ⟨0, .fd n⟩ .quiet
  | renumbered {fd dest : UInt32} {r : Reply} :
      Shows (.fd_renumber fd dest) r (.share fd.toNat dest.toNat)
  | closed {fd : UInt32} {r : Reply} : Shows (.fd_close fd) r (.clear fd.toNat)
  | other {c : Call} {r : Reply} : c.setsSlot = false → Shows c r .quiet

/-- The slot that a call with this reply names. -/
def Call.target (c : Call) (r : Reply) : Option ℕ :=
  match c with
  | .fd_close fd => some fd.toNat
  | .fd_renumber _ dest => some dest.toNat
  | .path_open _ _ _ =>
      match r.out with
      | .fd n => if n < FileTable.maxSize then some n else none
      | _ => none
  | _ => none

theorem Call.Shows.target_eq {c : Call} {e : Event OpenId} (h : c.Shows r e) :
    e.target = c.target r := by
  cases h with
  | opened hn => exact (if_pos hn).symm
  | @refused dirfd path oflags n hn =>
      have hmax : ¬ n < 536870911 := by omega
      exact (if_neg hmax).symm
  | renumbered => rfl
  | closed => rfl
  | other hc =>
      cases c with
      | fd_close | fd_renumber | path_open => cases hc
      | _ => rfl

theorem exec_event {c : Call} (h : s.tree.WF) (hb : UsesBalance s) (hc : c.TargetInRange)
    (hok : exec host s c = .ok (s', r)) :
    ∃ e, c.Shows r e ∧ e.Allowed s.slots ∧ s'.slots = e.apply s.slots := by
  cases hsets : c.setsSlot with
  | false =>
      have hslots := State.slots_of_table (exec_keepsTable h hsets hok).table
      exact ⟨.quiet, .other hsets, trivial, hslots⟩
  | true =>
      cases c with
      | fd_close fd =>
          refine ⟨.clear fd.toNat, .closed, trivial, ?_⟩
          rcases Export.fd_close_slot hok with ⟨hnone, hs, -⟩ | ⟨o, -, -, hslots⟩
          · rw [hs]
            exact (Function.update_eq_self_iff.mpr hnone.symm).symm
          · exact hslots
      | fd_renumber fd dest =>
          refine ⟨.share fd.toNat dest.toNat, .renumbered, trivial, ?_⟩
          rcases Export.fd_renumber_slot hc hok with ⟨hnone, hs, -⟩ | ⟨o, ho, hslots⟩
          · simp only [hs, Event.apply, hnone]
          · simp only [hslots, Event.apply, ho]
      | path_open dirfd path oflags =>
          obtain ⟨n, rfl, ⟨hn, hslots⟩ | ⟨o, hinstalled⟩⟩ := Export.path_open_slot h hb hok
          · exact ⟨.quiet, .refused hn, trivial, hslots⟩
          · exact ⟨.install n o, .opened hinstalled.lt, hinstalled.allowed, hinstalled.slots⟩
      | _ => cases hsets

/-! ## Calls through a slot -/

/-- The nine calls that name a slot to work on, without the descriptor. -/
inductive Call.Through : (UInt32 → Call) → Prop where
  | fd_read (iovs : List Iovec) : Through fun fd => .fd_read fd iovs
  | fd_write (iovs : List CIovec) : Through fun fd => .fd_write fd iovs
  | fd_pread (iovs : List Iovec) (offset : UInt64) : Through fun fd => .fd_pread fd iovs offset
  | fd_pwrite (iovs : List CIovec) (offset : UInt64) : Through fun fd => .fd_pwrite fd iovs offset
  | fd_seek (offset : Int64) (whence : UInt8) : Through fun fd => .fd_seek fd offset whence
  | fd_tell : Through .fd_tell
  | fd_sync : Through .fd_sync
  | fd_fdstat_get : Through .fd_fdstat_get
  | fd_close : Through .fd_close

theorem Call.Through.empty {c : UInt32 → Call} (hc : Through c) {fd : UInt32}
    (ho : s.slots fd.toNat = none) :
    exec host s (c fd) = .ok (s, ⟨Errno.badf.code, .nothing⟩) := by
  have ho : FileTable.getEntry s fd.toNat = none := ho
  cases hc with
  | fd_read iovs =>
      simp only [exec, Export.fd_read, readAtOffset, ho, Export.readReply]
      rfl
  | fd_write iovs =>
      simp only [exec, Export.fd_write, writeAtOffset, ho, Export.writeReply]
      rfl
  | fd_pread iovs offset =>
      simp only [exec, Export.fd_pread, readAtOffset, ho, Export.readReply]
      rfl
  | fd_pwrite iovs offset =>
      simp only [exec, Export.fd_pwrite, writeAtOffset, ho, Export.writeReply]
      rfl
  | fd_seek offset whence =>
      simp only [exec, Export.fd_seek, Syscall.seek, ho]
      rfl
  | fd_tell => simp only [exec, Export.fd_tell, ho]
  | fd_sync => simp only [exec, Export.fd_sync, ho]
  | fd_fdstat_get => simp only [exec, Export.fd_fdstat_get, ho]
  | fd_close =>
      simp only [exec, Export.fd_close, Syscall.close, ho]
      rfl

/-- Through two slots with the same description a call is the same, but for
`fd_close`. -/
theorem Call.Through.same {c : UInt32 → Call} (hc : Through c) (hclose : c ≠ .fd_close)
    {fd fd' : UInt32} (ho : s.slots fd'.toNat = s.slots fd.toNat) :
    exec host s (c fd') = exec host s (c fd) := by
  have ho : FileTable.getEntry s fd'.toNat = FileTable.getEntry s fd.toNat := ho
  cases hc with
  | fd_read iovs => simp only [exec, Export.fd_read, readAtOffset, ho]
  | fd_write iovs => simp only [exec, Export.fd_write, writeAtOffset, ho]
  | fd_pread iovs offset => simp only [exec, Export.fd_pread, readAtOffset, ho]
  | fd_pwrite iovs offset => simp only [exec, Export.fd_pwrite, writeAtOffset, ho]
  | fd_seek offset whence => simp only [exec, Export.fd_seek, Syscall.seek, ho]
  | fd_tell => simp only [exec, Export.fd_tell, ho]
  | fd_sync => simp only [exec, Export.fd_sync, ho]
  | fd_fdstat_get => simp only [exec, Export.fd_fdstat_get, ho]
  | fd_close => exact absurd rfl hclose

theorem Call.Through.descriptor? {c : UInt32 → Call} (hc : Through c) (hclose : c ≠ .fd_close)
    (fd : UInt32) : (c fd).descriptor? = some fd := by
  cases hc with
  | fd_close => exact absurd rfl hclose
  | _ => rfl

/-- Closing a slot touches the description in it only. -/
theorem Export.fd_close_confined {fd : UInt32} (hok : fd_close s fd = .ok (s', r)) :
    s'.files = s.files ∧ ∀ o', s.slots fd.toNat ≠ some o' →
      s'.descriptions o' = s.descriptions o' := by
  obtain ⟨ret, hclose, rfl⟩ := Export.fd_close_ok hok
  refine ⟨(Syscall.close_sameFiles hclose).files, ?_⟩
  intro o' hne
  simp only [Syscall.close] at hclose
  split at hclose
  · cases hclose
    rfl
  rename_i o ho
  have hother : ∀ {s₁ closee}, FileTable.setEntry s fd.toNat none = .ok (s₁, closee) →
      s₁.descriptions o' = s.descriptions o' := by
    intro s₁ closee hset
    obtain ⟨rfl, -⟩ := FileTable.setEntry_ok hset
    have hoo : o' ≠ o := by
      intro heq
      exact hne (heq ▸ ho)
    rw [ho]
    exact State.modifyOpen_of_ne s (fun x => { x with uses := x.uses - 1 }) hoo
  split at hclose
  · cases hclose
  · rename_i hset
    have hdescription := hother hset
    cases hclose
    exact hdescription
  · rename_i hset
    have hdescription := hother hset
    cases hclose
    exact hdescription

/-- A call through a slot touches no other description and no file but that of the
description. -/
theorem Call.Through.others {c : UInt32 → Call} (hc : Through c) {fd : UInt32} {o : OpenId}
    (ho : s.slots fd.toNat = some o) (hok : exec host s (c fd) = .ok (s', r)) :
    (∀ o' ≠ o, s'.descriptions o' = s.descriptions o') ∧
      ∀ f ≠ (s.descriptions o).file, s'.files f = s.files f := by
  by_cases hclose : c = .fd_close
  · subst hclose
    obtain ⟨hfiles, hothers⟩ := Export.fd_close_confined hok
    refine ⟨fun o' hne => hothers o' ?_, fun f _ => congrFun hfiles f⟩
    rw [ho]
    exact fun heq => hne (Option.some.inj heq).symm
  · have hconfined := exec_confined (hc.descriptor? hclose fd) ho hok
    exact ⟨hconfined.descriptions, hconfined.files⟩

/-! ## Runs -/

theorem run_events {calls : List Call} {replies : List Reply} (h : Reachable host s)
    (hcalls : ∀ c ∈ calls, c.TargetInRange) (hrun : run host s calls = .ok (s', replies)) :
    ∃ events, List.Forall₂ (fun x e => x.1.Shows x.2 e) (calls.zip replies) events ∧
      AllowedAll s.slots events ∧ s'.slots = applyAll s.slots events := by
  induction calls generalizing s replies with
  | nil =>
      cases hrun
      exact ⟨[], .nil, trivial, rfl⟩
  | cons c calls ih =>
      simp only [run] at hrun
      split at hrun
      · cases hrun
      rename_i s₁ reply hok
      split at hrun
      · cases hrun
      rename_i s₂ replies₂ hrest
      cases hrun
      obtain ⟨e, hshows, hallowed, hslots⟩ :=
        exec_event h.wf h.usesBalance (hcalls c List.mem_cons_self) hok
      have h₁ : Reachable host s₁ := h.tail trivial ⟨reply, hok⟩ (a := c)
      obtain ⟨events, hall, hallowed₁, hslots₁⟩ :=
        ih h₁ (fun c' hc' => hcalls c' (.tail c hc')) hrest
      refine ⟨e :: events, .cons hshows hall, ⟨hallowed, ?_⟩, ?_⟩
      · rw [← hslots]
        exact hallowed₁
      · rw [hslots₁, hslots]
        rfl

/-- A slot that no call of a run names is named by none of its events. -/
theorem not_target_of_shows {n : ℕ} {xs : List (Call × Reply)} {events : List (Event OpenId)}
    (h : List.Forall₂ (fun x e => x.1.Shows x.2 e) xs events)
    (hn : ∀ x ∈ xs, x.1.target x.2 ≠ some n) : ∀ e ∈ events, e.target ≠ some n := by
  induction h with
  | nil =>
      intro e he
      cases he
  | cons hxe _ ih =>
      intro e he
      cases he with
      | head =>
          rw [hxe.target_eq]
          exact hn _ List.mem_cons_self
      | tail _ he => exact ih (fun x hx => hn x (.tail _ hx)) e he

/-- From a state on, the table is a map of slots with allocation of the least empty
one. -/
structure RefinesSlots (host : Host) (s : State) : Prop where
  /-- The search of `path_open` ends at the least empty slot. -/
  search : IsLeast {i | s.slots i = none} (FileTable.firstFree s.table 0)
  /-- `path_open` returns unless no slot is left. -/
  returns : ∀ {dirfd path oflags e}, exec host s (.path_open dirfd path oflags) = .error e →
    ∀ i < FileTable.maxSize, s.slots i ≠ none
  /-- A description that is installed is new. -/
  installs : ∀ {dirfd path oflags n s'},
    exec host s (.path_open dirfd path oflags) = .ok (s', ⟨0, .fd n⟩) → n < 2147483648 →
    IsLeast {i | s.slots i = none} n ∧ ∃ o, (∀ i, s.slots i ≠ some o) ∧
      (∀ i, s'.slots i = some o ↔ i = n) ∧ (s'.descriptions o).position = 0
  /-- Renumbering an occupied slot shares the description, and an empty one is an error. -/
  renumbers : ∀ {fd dest s' r}, (Call.fd_renumber fd dest).TargetInRange →
    exec host s (.fd_renumber fd dest) = .ok (s', r) →
    (∀ o, s.slots fd.toNat = some o →
      s'.slots dest.toNat = some o ∧ s'.slots fd.toNat = some o) ∧
    (s.slots fd.toNat = none → s' = s ∧ r.errno ≠ 0)
  /-- Closing an occupied slot succeeds and clears it. -/
  closes : ∀ {fd s' r}, exec host s (.fd_close fd) = .ok (s', r) →
    (r.errno = 0 ↔ s.slots fd.toNat ≠ none) ∧ s'.slots fd.toNat = none
  /-- Through an empty slot there is nothing but an error. -/
  empty : ∀ {c : UInt32 → Call} {fd}, Call.Through c → s.slots fd.toNat = none →
    exec host s (c fd) = .ok (s, ⟨Errno.badf.code, .nothing⟩)
  /-- Slots with the same description are as good as each other. -/
  same : ∀ {c : UInt32 → Call} {fd fd'}, Call.Through c → c ≠ .fd_close →
    s.slots fd'.toNat = s.slots fd.toNat → exec host s (c fd') = exec host s (c fd)
  /-- The description in the slot is the only one that is touched. -/
  others : ∀ {c : UInt32 → Call} {fd o s' r}, Call.Through c → s.slots fd.toNat = some o →
    exec host s (c fd) = .ok (s', r) → (∀ o' ≠ o, s'.descriptions o' = s.descriptions o') ∧
      ∀ f ≠ (s.descriptions o).file, s'.files f = s.files f
  /-- Every call of a run is an event of the map. -/
  runs : ∀ {calls s' replies}, (∀ c ∈ calls, c.TargetInRange) →
    run host s calls = .ok (s', replies) →
    ∃ events, List.Forall₂ (fun x e => x.1.Shows x.2 e) (calls.zip replies) events ∧
      AllowedAll s.slots events ∧ s'.slots = applyAll s.slots events
  /-- A slot keeps its description until a call names it. -/
  keeps : ∀ {calls s' replies n}, (∀ c ∈ calls, c.TargetInRange) →
    run host s calls = .ok (s', replies) →
    (∀ x ∈ calls.zip replies, Call.target x.1 x.2 ≠ some n) → s'.slots n = s.slots n

/-- In every state that a run reaches the table behaves as a map of slots. -/
theorem slots_refine (h : Reachable host s) : RefinesSlots host s where
  search := FileTable.isLeast_firstFree s
  returns herror := Export.full_of_path_open h.wf herror
  installs {_ _ _ n _} hok hn := by
    obtain ⟨n', hr, hcases⟩ := Export.path_open_slot h.wf h.usesBalance hok
    cases hr
    obtain ⟨hhigh, -⟩ | ⟨o, hinstalled⟩ := hcases
    · exact absurd hn (Nat.not_lt_of_le hhigh)
    · refine ⟨hinstalled.allowed.1, o, hinstalled.allowed.2, fun i => ?_, hinstalled.position⟩
      rw [hinstalled.slots]
      exact Event.apply_install_eq_some_iff hinstalled.allowed
  renumbers {fd dest _ _} hrange hok := by
    rcases Export.fd_renumber_slot hrange hok with ⟨hnone, hs, hne⟩ | ⟨o, ho, hslots⟩
    · exact ⟨fun o ho => (nomatch hnone.symm.trans ho), fun _ => ⟨hs, hne⟩⟩
    · refine ⟨fun o' ho' => ?_, fun hnone => (nomatch hnone.symm.trans ho)⟩
      obtain rfl : o = o' := Option.some.inj (ho.symm.trans ho')
      rw [hslots, Function.update_self]
      refine ⟨rfl, ?_⟩
      by_cases hsame : fd.toNat = dest.toNat
      · rw [hsame, Function.update_self]
      · rw [Function.update_of_ne hsame, ho]
  closes hok := by
    rcases Export.fd_close_slot hok with ⟨hnone, rfl, rfl⟩ | ⟨o, ho, rfl, hslots⟩
    · exact ⟨⟨fun hr => absurd hr (by decide), fun hne => absurd hnone hne⟩, hnone⟩
    · refine ⟨⟨fun _ => ho ▸ Option.some_ne_none o, fun _ => rfl⟩, ?_⟩
      rw [hslots, Function.update_self]
  empty hc ho := hc.empty ho
  same hc hclose ho := hc.same hclose ho
  others hc ho hok := hc.others ho hok
  runs hcalls hrun := run_events h hcalls hrun
  keeps hcalls hrun hn := by
    obtain ⟨events, hshows, -, hslots⟩ := run_events h hcalls hrun
    rw [hslots]
    exact applyAll_of_not_target (not_target_of_shows hshows hn)

/-- The root opens in slot 3, and the next search ends at slot 4. -/
theorem slots_refine_root : ∃ s replies,
    afterRun [.path_open atFdCwd [slash] 0] = .ok (s, replies) ∧
    FileTable.firstFree s.table 0 = 4 ∧ RefinesSlots .still s := by
  obtain ⟨s, replies, hok, hfree⟩ : Returns (afterRun [.path_open atFdCwd [slash] 0]) fun s _ =>
      FileTable.firstFree s.table 0 = 4 := by
    decide +kernel
  exact ⟨s, replies, hok, hfree, slots_refine (.of_afterRun hok)⟩

end WasmFS
