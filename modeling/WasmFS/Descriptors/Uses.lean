import WasmFS.Descriptors.Effects

/-!
# Use counts

`setEntry` keeps the difference between the uses of a description and the
number of slots that hold it (`FileTable.uses_setEntry`, `count_setEntry`).  A
description made by `OpenFileState::create` starts with both at zero.  But the
constructor of the table stores the standard streams without `setEntry`, so
their counters are one too low for ever.  In every state that a run reaches, a
description in the table is counted exactly if and only if it is none of the
three (`usesExact_iff`).
-/

namespace WasmFS

namespace FileTable

variable {s s' : State} {fd : Nat} {new : Option OpenId} {closee : Option FileId}

/-! ## Counting -/

theorem acquire_uses (s : State) (new : Option OpenId) (o : OpenId) :
    ((acquire s new).descriptions o).uses =
      (s.descriptions o).uses + if new = some o then 1 else 0 := by
  cases new with
  | none => exact (Int.add_zero _).symm
  | some n =>
      simp only [acquire]
      by_cases hn : o = n
      · subst hn
        rw [State.modifyOpen_self, if_pos rfl]
      · rw [State.modifyOpen_of_ne _ _ hn, if_neg fun h => hn (Option.some.inj h).symm,
          Int.add_zero]

theorem release_uses (s : State) (old : Option OpenId) (o : OpenId) :
    ((release s old).1.descriptions o).uses + (if old = some o then 1 else 0) =
      (s.descriptions o).uses := by
  cases old with
  | none => exact Int.add_zero _
  | some n =>
      simp only [release]
      by_cases hn : o = n
      · subst hn
        rw [State.modifyOpen_self, if_pos rfl]
        exact Int.sub_add_cancel _ 1
      · rw [State.modifyOpen_of_ne _ _ hn, if_neg fun h => hn (Option.some.inj h).symm,
          Int.add_zero]

/-- Only the counter differs. -/
theorem acquire_description (s : State) (new : Option OpenId) (o : OpenId) :
    ∃ uses, (acquire s new).descriptions o = { s.descriptions o with uses := uses } := by
  cases new with
  | none => exact ⟨_, rfl⟩
  | some n =>
      simp only [acquire]
      by_cases hn : o = n
      · subst hn
        exact ⟨_, State.modifyOpen_self ..⟩
      · exact ⟨_, State.modifyOpen_of_ne _ _ hn⟩

theorem release_description (s : State) (old : Option OpenId) (o : OpenId) :
    ∃ uses, (release s old).1.descriptions o = { s.descriptions o with uses := uses } := by
  cases old with
  | none => exact ⟨_, rfl⟩
  | some n =>
      simp only [release]
      by_cases hn : o = n
      · subst hn
        exact ⟨_, State.modifyOpen_self ..⟩
      · exact ⟨_, State.modifyOpen_of_ne _ _ hn⟩

theorem setEntry_description (h : setEntry s fd new = .ok (s', closee)) (o : OpenId) :
    ∃ uses, s'.descriptions o = { s.descriptions o with uses := uses } := by
  obtain ⟨rfl, -⟩ := setEntry_ok h
  obtain ⟨uses, ha⟩ := acquire_description s new o
  obtain ⟨uses', hr⟩ := release_description (acquire s new) (getEntry s fd) o
  refine ⟨uses', hr.trans ?_⟩
  rw [ha]

theorem setEntry_file (h : setEntry s fd new = .ok (s', closee)) (o : OpenId) :
    (s'.descriptions o).file = (s.descriptions o).file := by
  obtain ⟨uses, ho⟩ := setEntry_description h o
  rw [ho]

/-- The uses of a description follow the slots that hold it. -/
theorem uses_setEntry (h : setEntry s fd new = .ok (s', closee)) (o : OpenId) :
    (s'.descriptions o).uses + (if getEntry s fd = some o then 1 else 0) =
      (s.descriptions o).uses + if new = some o then 1 else 0 := by
  obtain ⟨rfl, -⟩ := setEntry_ok h
  rw [← acquire_uses s new o]
  exact release_uses (acquire s new) (getEntry s fd) o

theorem setEntry_nextDescription (h : setEntry s fd new = .ok (s', closee)) :
    s'.nextDescription = s.nextDescription := by
  obtain ⟨rfl, -⟩ := setEntry_ok h
  cases new <;> cases getEntry s fd <;> rfl

/-- An empty slot closes nothing. -/
theorem setEntry_closee_of_none (hfd : getEntry s fd = none)
    (h : setEntry s fd new = .ok (s', closee)) : closee = none := by
  obtain ⟨-, rfl⟩ := setEntry_ok h
  rw [hfd]
  rfl

/-- What is closed when a slot is set: the data file of a description that is not
used any more. -/
theorem setEntry_closee {o : OpenId} (hfd : getEntry s fd = some o)
    (h : setEntry s fd new = .ok (s', closee)) (f : FileId) :
    closee = some f ↔ f = (s.descriptions o).file ∧ (s.files f).isDataFile ∧
      (s'.descriptions o).uses = 0 := by
  obtain ⟨rfl, rfl⟩ := setEntry_ok h
  rw [hfd]
  have hfile : ((release (acquire s new) (some o)).1.descriptions o).file =
      (s.descriptions o).file := by
    obtain ⟨uses, ha⟩ := acquire_description s new o
    obtain ⟨uses', hr⟩ := release_description (acquire s new) (some o) o
    rw [hr, ha]
  have hfiles := ((acquire_sameFiles s new).trans (release_sameFiles _ (some o))).files
  simp only [release] at hfile hfiles ⊢
  rw [hfile, hfiles]
  constructor
  · intro hcloses
    split at hcloses
    · rename_i hlast
      cases hcloses
      exact ⟨rfl, hlast.2, hlast.1⟩
    · cases hcloses
  · rintro ⟨rfl, hdata, hzero⟩
    rw [if_pos ⟨hzero, hdata⟩]

end FileTable

/-! ## The invariant -/

/-- One for a standard stream, whose first slot is not counted. -/
def uncounted (o : OpenId) : Int := if o < 3 then 1 else 0

/-- The uses of every description, with the slot that is not counted, are the
slots that hold it. -/
structure UsesBalance (s : State) : Prop where
  exist : SlotsExist s
  fits : s.table.length ≤ FileTable.maxSize
  standard : 3 ≤ s.nextDescription
  balance : ∀ o < s.nextDescription,
    (s.descriptions o).uses + uncounted o = s.table.count (some o)

/-- A description in the table is in a slot. -/
theorem FileTable.mem_table_iff {s : State} {o : OpenId} :
    some o ∈ s.table ↔ ∃ fd, getEntry s fd = some o := by
  simp only [getEntry, List.mem_iff_getElem?]
  constructor
  · rintro ⟨fd, hfd⟩
    exact ⟨fd, by rw [hfd, Option.join_some]⟩
  · rintro ⟨fd, hfd⟩
    exact ⟨fd, Option.join_eq_some_iff.mp hfd⟩

namespace UsesBalance

variable {s s' : State}

theorem of_keepsTable (h : UsesBalance s) (hk : KeepsTable s s') : UsesBalance s' where
  exist {fd o} ho := by
    simp only [FileTable.getEntry, hk.table] at ho
    exact Nat.lt_of_lt_of_le (h.exist ho) hk.next_le
  fits := by
    rw [hk.table]
    exact h.fits
  standard := Nat.le_trans h.standard hk.next_le
  balance o ho := by
    rw [hk.table]
    by_cases hold : o < s.nextDescription
    · obtain ⟨position, hd⟩ := hk.old o hold
      rw [hd]
      exact h.balance o hold
    · -- no slot holds a description that did not exist
      have hnew := Nat.le_of_not_lt hold
      have hzero : s.table.count (some o) = 0 := by
        rw [List.count_eq_zero, FileTable.mem_table_iff]
        intro hex
        obtain ⟨fd, hfd⟩ := hex
        exact hold (h.exist hfd)
      rw [hk.unused o hnew ho, hzero, uncounted,
        if_neg (Nat.not_lt_of_le (Nat.le_trans h.standard hnew))]
      rfl

theorem of_setEntry (h : UsesBalance s) {fd : Nat} {new : Option OpenId} {closee : Option FileId}
    (hnew : ∀ o, new = some o → o < s.nextDescription)
    (hset : FileTable.setEntry s fd new = .ok (s', closee)) : UsesBalance s' where
  exist {fd' o} ho := by
    rw [FileTable.setEntry_nextDescription hset]
    by_cases hfd : fd' = fd
    · rw [hfd, FileTable.getEntry_setEntry_self hset] at ho
      exact hnew o ho
    · rw [FileTable.getEntry_setEntry_of_ne hset hfd] at ho
      exact h.exist ho
  fits := FileTable.setEntry_length_le hset h.fits
  standard := by
    rw [FileTable.setEntry_nextDescription hset]
    exact h.standard
  balance o ho := by
    rw [FileTable.setEntry_nextDescription hset] at ho
    have hbalance := h.balance o ho
    have huses := FileTable.uses_setEntry hset o
    have hcount := FileTable.count_setEntry hset o
    split at hcount <;> split at hcount <;> simp_all only [if_true, if_false] <;> omega

theorem of_sameDescriptors (h : UsesBalance s) (hsame : SameDescriptors s s') : UsesBalance s' :=
  h.of_keepsTable (.of_sameDescriptors hsame)

theorem of_slotEffect (h : UsesBalance s) (he : SlotEffect s s') : UsesBalance s' := by
  cases he with
  | keep hk => exact h.of_keepsTable hk
  | set hk hnew hset hs' =>
      have hb := (h.of_keepsTable hk).of_setEntry hnew hset
      rcases hs' with rfl | ⟨hook, rfl⟩
      · exact hb
      · exact ⟨hb.exist, hb.fits, hb.standard, hb.balance⟩

end UsesBalance

/-! ## The start -/

namespace SameDescriptors

variable {host : Host} {s : State}

theorem make (host : Host) (s : State) (body : Body) (mode : Nat) (backend : BackendId) :
    SameDescriptors s (Init.make host s body mode backend).1 := ⟨rfl, rfl, rfl, rfl⟩

theorem mountChild (s : State) (d : FileId) (name : Name) (c : FileId) :
    SameDescriptors s (Directory.mountChild s d name c).1 := by
  simp only [Directory.mountChild]
  split
  · exact .refl s
  · exact ⟨rfl, rfl, rfl, rfl⟩

theorem insertDirectory (host : Host) (s : State) (d : FileId) (name : Name) (mode : Nat) :
    SameDescriptors s (Directory.insertDirectory host s d name mode).1 := by
  simp only [Directory.insertDirectory, Directory.insert]
  split
  · exact .refl s
  · exact ⟨rfl, rfl, rfl, rfl⟩

/-- A new special file, mounted. -/
theorem mountSpecial (host : Host) (s : State) (d : FileId) (device : Device) (mode : Nat)
    (name : Name) (c : FileId) :
    SameDescriptors s (Directory.mountChild (Init.special host s device mode).1 d name c).1 :=
  (make host s _ _ _).trans (.mountChild _ d name c)

theorem mountDevices (host : Host) (s : State) (d : FileId) :
    SameDescriptors s (Init.mountDevices host s d) := by
  have h₁ := mountSpecial host s d .null (S_IRUGO ||| S_IWUGO) nullName s.next
  have h₂ := ((h₁.trans (.mountChild _ d stdinName Init.stdin)).trans
    (.mountChild _ d stdoutName Init.stdout)).trans (.mountChild _ d stderrName Init.stderr)
  exact (h₂.trans (.mountSpecial host _ d .random S_IRUGO randomName _)).trans
    (.mountSpecial host _ d .random S_IRUGO urandomName _)

theorem withDevices (host : Host) (s : State) :
    SameDescriptors s (Init.withDevices host s) := by
  have hroot : SameDescriptors s (Init.bareRoot host s) := ⟨rfl, rfl, rfl, rfl⟩
  have hdev := insertDirectory host (Init.bareRoot host s) Init.root devName (S_IRUGO ||| S_IXUGO)
  simp only [Init.withDevices]
  split <;> rename_i hins <;> rw [hins] at hdev
  · exact hroot.trans hdev
  · exact (hroot.trans hdev).trans (.mountDevices host _ _)

theorem rootDirectory (host : Host) (hnext : s.next = Init.root) :
    SameDescriptors s (Init.rootDirectory host s).1 := by
  rw [Init.rootDirectory_eq host hnext]
  exact (withDevices host s).trans (insertDirectory host _ Init.root tmpName S_IRWXUGO)

/-- Making the root directory touches no description. -/
theorem init (host : Host) : SameDescriptors (Init.fileTable host Init.blank) (init host) := by
  have hnext : (Init.fileTable host Init.blank).next = Init.root :=
    congrArg Tree.next (Init.tree_fileTable host)
  unfold WasmFS.init
  generalize Init.fileTable host Init.blank = s at hnext ⊢
  have hroot := rootDirectory host hnext
  exact ⟨hroot.table, hroot.descriptions, hroot.nextDescription, hroot.hooks⟩

end SameDescriptors

theorem UsesBalance.fileTable (host : Host) : UsesBalance (Init.fileTable host Init.blank) where
  exist {fd o} ho := by
    have hmem : some o ∈ [some 0, some 1, some 2] := FileTable.mem_table_iff.mpr ⟨fd, ho⟩
    simp only [List.mem_cons, Option.some.injEq, List.not_mem_nil, or_false] at hmem
    have hlt : o < 3 := by rcases hmem with rfl | rfl | rfl <;> decide
    exact hlt
  fits := by
    have hlength : (Init.fileTable host Init.blank).table.length = 3 := rfl
    rw [hlength]
    decide
  standard := Nat.le_refl 3
  balance o ho := by
    have hlt : o < 3 := ho
    match o, hlt with
    | 0, _ => rfl
    | 1, _ => rfl
    | 2, _ => rfl

/-- The uses are balanced in every state that a run reaches. -/
theorem Reachable.usesBalance {host : Host} {s : State} (h : Reachable host s) : UsesBalance s := by
  have hboth : s.tree.WF ∧ UsesBalance s := by
    refine h.invariant (I := fun s => s.tree.WF ∧ UsesBalance s) ?_ ?_
    · rw [tree_init]
      exact ⟨Start.tree_wf, (UsesBalance.fileTable host).of_sameDescriptors (.init host)⟩
    · intro s c s' hs _ hstep
      obtain ⟨r, hok⟩ := id hstep
      exact ⟨hstep.wf hs.1, hs.2.of_slotEffect (exec_slots hs.1 hs.2.exist hok)⟩
  exact hboth.2

/-! ## Exact counts -/

/-- The descriptions that the constructor of the table makes. -/
def StandardStream (host : Host) (o : OpenId) : Prop := some o ∈ (init host).table

theorem standardStream_iff {host : Host} {o : OpenId} : StandardStream host o ↔ o < 3 := by
  have htable : (WasmFS.init host).table = [some 0, some 1, some 2] :=
    (SameDescriptors.init host).table
  have hlt : ∀ n : Nat, n = 0 ∨ n = 1 ∨ n = 2 ↔ n < 3 := by omega
  simp only [StandardStream, htable, List.mem_cons, Option.some.injEq, List.not_mem_nil, or_false]
  exact hlt o

/-- The counter of `o` is exact.  So `setEntry` hands back its file with the last
slot that holds `o`, and `fd_close` closes it then only. -/
structure UsesExact (s : State) (o : OpenId) : Prop where
  uses : (s.descriptions o).uses = s.table.count (some o)
  handsBack : ∀ {fd new s' closee}, FileTable.getEntry s fd = some o →
    FileTable.setEntry s fd new = .ok (s', closee) →
    ∀ f, closee = some f ↔
      f = (s.descriptions o).file ∧ (s.files f).isDataFile ∧ some o ∉ s'.table
  closes : ∀ {fd : UInt32} {s' r f}, FileTable.getEntry s fd.toNat = some o →
    Export.fd_close s fd = .ok (s', r) → s'.trace.hooks = .closed f :: s.trace.hooks →
    some o ∉ s'.table

/-- A call of the hook `closed` comes from a file that `setEntry` hands back. -/
theorem Export.fd_close_closed {s s' : State} {fd : UInt32} {o : OpenId} {r : Reply} {f : FileId}
    (ho : FileTable.getEntry s fd.toNat = some o) (hok : fd_close s fd = .ok (s', r))
    (hhook : s'.trace.hooks = .closed f :: s.trace.hooks) :
    ∃ s₁, FileTable.setEntry s fd.toNat none = .ok (s₁, some f) ∧ s'.table = s₁.table := by
  simp only [fd_close, Syscall.close, ho] at hok
  cases hset : FileTable.setEntry s fd.toNat none with
  | error e =>
      rw [hset] at hok
      cases hok
  | ok result =>
      obtain ⟨s₁, closee⟩ := result
      have htrace := FileTable.setEntry_trace hset
      rw [hset] at hok
      cases closee with
      | none =>
          cases hok
          rw [htrace] at hhook
          exact absurd hhook.symm (List.cons_ne_self _ _)
      | some f' =>
          cases hok
          have hhook : Hook.closed f' :: s₁.trace.hooks = .closed f :: s.trace.hooks := hhook
          obtain ⟨hf, -⟩ := List.cons.inj hhook
          cases hf
          exact ⟨s₁, rfl, rfl⟩

namespace UsesBalance

variable {s : State}

theorem usesExact (h : UsesBalance s) {o : OpenId} (ho : o < s.nextDescription) (hstd : ¬ o < 3) :
    UsesExact s o := by
  have huncounted : uncounted o = 0 := if_neg hstd
  have huses : (s.descriptions o).uses = s.table.count (some o) := by
    rw [← h.balance o ho, huncounted, Int.add_zero]
  have hhands : ∀ {fd new s' closee}, FileTable.getEntry s fd = some o →
      FileTable.setEntry s fd new = .ok (s', closee) →
      ∀ f, closee = some f ↔
        f = (s.descriptions o).file ∧ (s.files f).isDataFile ∧ some o ∉ s'.table := by
    intro fd new s' closee hfd hset f
    have huses' := FileTable.uses_setEntry hset o
    have hcount := FileTable.count_setEntry hset o
    have hexact : (s'.descriptions o).uses = s'.table.count (some o) := by
      rw [hfd, if_pos rfl] at huses' hcount
      split at hcount <;> simp_all only [if_true, if_false] <;> omega
    rw [FileTable.setEntry_closee hfd hset f, hexact, Int.natCast_eq_zero, List.count_eq_zero]
  refine ⟨huses, hhands, ?_⟩
  intro fd s' r f hfd hok hhook
  obtain ⟨s₁, hset, htable⟩ := Export.fd_close_closed hfd hok hhook
  rw [htable]
  exact ((hhands hfd hset f).mp rfl).2.2

theorem not_usesExact (h : UsesBalance s) {o : OpenId} (hstd : o < 3) : ¬ UsesExact s o := by
  intro hexact
  have hbalance := h.balance o (Nat.lt_of_lt_of_le hstd h.standard)
  rw [uncounted, if_pos hstd, hexact.uses] at hbalance
  omega

end UsesBalance

/-- In every state that a run reaches, an empty slot closes nothing when it is
set, and a description in the table is counted exactly if and only if it is none
of the standard streams. -/
theorem usesExact_iff {host : Host} {s : State} (h : Reachable host s) :
    (∀ {fd new s' closee}, FileTable.getEntry s fd = none →
      FileTable.setEntry s fd new = .ok (s', closee) → closee = none) ∧
    ∀ {fd o}, FileTable.getEntry s fd = some o → (UsesExact s o ↔ ¬ StandardStream host o) := by
  have hb := h.usesBalance
  refine ⟨fun hfd hset => FileTable.setEntry_closee_of_none hfd hset, ?_⟩
  intro fd o ho
  rw [standardStream_iff]
  exact ⟨fun hexact hstd => hb.not_usesExact hstd hexact, hb.usesExact (hb.exist ho)⟩

theorem usesExact_renumbered : ∃ s replies,
    afterRun [.path_open atFdCwd [slash] 0, .fd_renumber 3 4] = .ok (s, replies) ∧
    FileTable.getEntry s 4 = some 3 ∧ (UsesExact s 3 ↔ ¬ StandardStream .still 3) := by
  obtain ⟨s, replies, hok, ho⟩ :
      Returns (afterRun [.path_open atFdCwd [slash] 0, .fd_renumber 3 4]) fun s _ =>
        FileTable.getEntry s 4 = some 3 := by
    decide +kernel
  exact ⟨s, replies, hok, ho, (usesExact_iff (.of_afterRun hok)).2 ho⟩

/-- After a renumbering of slot 0 to slot 3, closing the descriptor 3 closes the
file of slot 0. -/
theorem not_usesExact_stdin : ¬ ∀ (host : Host) (s : State), Reachable host s →
    ∀ {fd o}, FileTable.getEntry s fd = some o → UsesExact s o := by
  intro hall
  obtain ⟨s, replies, hok, ho, s', r, hclose, hhook, hmem⟩ :
      Returns (afterRun [.fd_renumber 0 3]) fun s _ =>
        FileTable.getEntry s (3 : UInt32).toNat = some 0 ∧
        Returns (Export.fd_close s 3) fun s' _ =>
          s'.trace.hooks = .closed Init.stdin :: s.trace.hooks ∧ some 0 ∈ s'.table := by
    decide +kernel
  exact (hall .still s (.of_afterRun hok) ho).closes ho hclose hhook hmem

end WasmFS
