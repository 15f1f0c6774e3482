import WasmFS.Namespace.Start

/-!
# The ancestor walk of a rename

Before `renameat` moves a file it walks up from the new parent.  From a linked
directory the walk ends at the root or at the file, in fewer rounds than there are
files (`walkUp_of_linked`).

The exit test knows the root only.  A descriptor may hold a directory that has been
removed, and a walk from there reads a parent pointer that is null.  No check before the
walk is about the new parent being linked, so such a rename traps
(`path_rename_returns_iff`).
-/

namespace WasmFS

namespace Syscall

variable {host : Host} {s : State} {file curr : FileId}

/-! ## Walks -/

theorem walkUp_of_up {k fuel : Nat} (hk : s.tree.forest.up k curr = some s.rootDirectory)
    (hfuel : k < fuel) :
    walkUp s file fuel curr = .reachedRoot ∨ walkUp s file fuel curr = .foundOld := by
  induction k generalizing curr fuel with
  | zero =>
      obtain ⟨fuel, rfl⟩ := Nat.exists_eq_add_of_lt hfuel
      cases hk
      exact Or.inl (if_pos rfl)
  | succ k ih =>
      obtain ⟨fuel, rfl⟩ := Nat.exists_eq_succ_of_ne_zero (Nat.ne_zero_of_lt hfuel)
      rw [Forest.up, Option.bind_eq_some_iff] at hk
      obtain ⟨parent, hparent, hk⟩ := hk
      have hparent : s.getParent curr = some parent := hparent
      simp only [walkUp, hparent]
      split
      · exact Or.inl rfl
      split
      · exact Or.inr rfl
      · exact ih hk (Nat.lt_of_succ_lt_succ hfuel)

/-- From a linked directory the walk ends well. -/
theorem walkUp_of_linked (h : s.tree.WF) (file : FileId) (hlinked : s.tree.forest.Linked curr) :
    walkUp s file (s.next + 1) curr = .reachedRoot ∨
      walkUp s file (s.next + 1) curr = .foundOld := by
  obtain ⟨k, hlt, hk⟩ := h.forest.exists_up_lt (S := Finset.range s.next)
    (fun hy => Finset.mem_range.mpr (h.lt_next_of_linked hy)) hlinked
  rw [Finset.card_range] at hlt
  exact walkUp_of_up hk (Nat.lt_succ_of_lt hlt)

/-- From a directory that is not linked it does not. -/
theorem walkUp_of_unlinked {fuel : Nat} (hroot : curr ≠ s.rootDirectory) (hfile : curr ≠ file)
    (hparent : s.getParent curr = none) : walkUp s file (fuel + 1) curr = .nullDeref := by
  simp only [walkUp, if_neg hroot, if_neg hfile, hparent]

/-! ## Renames -/

/-- Nothing stops a rename into a directory that is not linked. -/
theorem renameParsed_unlinked (h : s.tree.WF) (host : Host) {oldParent newParent : FileId}
    {oldLeaf newLeaf : Name} (hp : PassesChecks s oldParent oldLeaf newParent newLeaf file)
    (hparent : s.getParent newParent = none) :
    renameParsed host s oldParent oldLeaf newParent newLeaf = .error .nullDeref := by
  have hunlinked : ¬ s.tree.forest.Linked newParent := fun hl => hl hparent
  have hroot : newParent ≠ s.rootDirectory := by
    rintro rfl
    exact hunlinked h.forest.root_linked
  have hfile : newParent ≠ file := by
    rintro rfl
    exact hunlinked (h.linked_of_found hp.lookup_old)
  simp only [renameParsed, if_neg (Nat.not_lt_of_le hp.length), Directory.getChild_eq h,
    hp.lookup_old]
  rw [if_neg hp.lookup_ne, if_neg (not_or.mpr ⟨hp.ne_root, hp.lookup_ne_root⟩),
    if_neg (not_or.mpr ⟨not_not.mpr hp.writable_old, not_not.mpr hp.writable_new⟩),
    if_neg (not_not.mpr hp.backend), walkUp_of_unlinked hroot hfile hparent]

theorem renameat_unlinked (h : s.tree.WF) (host : Host) {olddirfd newdirfd : Nat}
    {oldpath newpath : Name} {oldParent newParent : FileId} {oldLeaf newLeaf : Name}
    (hnames : NamesSource s oldpath olddirfd newpath newdirfd oldParent oldLeaf newParent newLeaf
      file)
    (hp : PassesChecks s oldParent oldLeaf newParent newLeaf file)
    (hparent : s.getParent newParent = none) :
    renameat host s olddirfd oldpath newdirfd newpath = .error .nullDeref := by
  simp only [renameat]
  rw [Path.parseParent_state h, hnames.parsed_old]
  simp only
  rw [Path.parseParent_state h, hnames.parsed_new]
  exact renameParsed_unlinked h host hp hparent

end Syscall

/-- The rename passes every check before the walk, and its new parent is not linked. -/
def RenamesIntoUnlinked (s : State) (oldFd : UInt32) (oldPath : List UInt8) (newFd : UInt32)
    (newPath : List UInt8) : Prop :=
  ∃ oldParent oldLeaf newParent newLeaf file,
    Syscall.NamesSource s (cstr oldPath) oldFd.toNat (cstr newPath) newFd.toNat oldParent oldLeaf
      newParent newLeaf file ∧
    Syscall.PassesChecks s oldParent oldLeaf newParent newLeaf file ∧
    s.getParent newParent = none

theorem renameat_returns_iff {s : State} (h : s.tree.WF) (host : Host) {oldFd newFd : UInt32}
    {oldPath newPath : List UInt8} :
    (∃ result, Syscall.renameat host s oldFd.toNat (cstr oldPath) newFd.toNat (cstr newPath) =
      .ok result) ↔ ¬ RenamesIntoUnlinked s oldFd oldPath newFd newPath := by
  constructor
  · rintro ⟨result, hok⟩ ⟨oldParent, oldLeaf, newParent, newLeaf, file, hnames, hp, hparent⟩
    rw [Syscall.renameat_unlinked h host hnames hp hparent] at hok
    cases hok
  · intro hlinked
    rcases Syscall.renameat_cases h host oldFd.toNat (cstr oldPath) newFd.toNat (cstr newPath) with
      ⟨e, he⟩ | ⟨oldParent, oldLeaf, newParent, newLeaf, hold, hnew, heq⟩
    · exact ⟨_, he⟩
    rw [heq]
    rcases Syscall.renameParsed_cases h host (Path.parseParent_leaf h hold).1 oldLeaf newParent
        newLeaf with
      ⟨e, he⟩ | ⟨fault, file, hp, hwalk, -⟩ | ⟨file, -, -, he⟩ | ⟨file, p, -, he⟩
    · exact ⟨_, he⟩
    · cases hparent : s.getParent newParent with
      | none =>
          exact absurd ⟨oldParent, oldLeaf, newParent, newLeaf, file,
            ⟨hold, hnew, hp.lookup_old⟩, hp, hparent⟩ hlinked
      | some q =>
          have hl : s.tree.forest.Linked newParent := by
            intro hnone
            cases hparent.symm.trans hnone
          rcases Syscall.walkUp_of_linked h file hl with hends | hends <;>
            rw [hends] at hwalk <;> rcases hwalk with hwalk | hwalk <;> cases hwalk
    · exact ⟨_, he⟩
    · exact ⟨_, he⟩

/-- A rename returns if and only if it does not pass its checks with a new parent that is not
linked. -/
theorem path_rename_returns_iff {host : Host} {s : State} (h : Reachable host s)
    (oldFd : UInt32) (oldPath : List UInt8) (newFd : UInt32) (newPath : List UInt8) :
    (∃ s' r, exec host s (.path_rename oldFd oldPath newFd newPath) = .ok (s', r)) ↔
      ¬ RenamesIntoUnlinked s oldFd oldPath newFd newPath := by
  rw [← renameat_returns_iff h.wf host]
  simp only [exec, Export.path_rename]
  constructor
  · rintro ⟨s', r, hok⟩
    split at hok
    · cases hok
    · rename_i hren
      exact ⟨_, hren⟩
  · rintro ⟨⟨s', ret⟩, hren⟩
    exact ⟨s', ⟨u16 ret, .nothing⟩, by rw [hren]⟩

/-- A run that removes `/tmp` while descriptor 4 is on it. -/
def removedTmp : List Call :=
  [.path_open atFdCwd [slash] 0, .path_open 3 tmpName 0, .path_remove_directory 3 tmpName]

/-- Renaming a missing file into the removed directory returns an error. -/
theorem path_rename_returns_removedTmp : ∃ s replies, afterRun removedTmp = .ok (s, replies) ∧
    ∃ s' r, exec .still s (.path_rename 3 [120] 4 [121]) = .ok (s', r) := by
  obtain ⟨s, replies, hok, hparsed, hmissing⟩ : Returns (afterRun removedTmp) fun s _ =>
      (Path.parseParent s (cstr [120]) (3 : UInt32).toNat).2.toOption = some (Init.root, [120]) ∧
      s.tree.lookup Init.root [120] = none := by
    decide +kernel
  refine ⟨s, replies, hok, (path_rename_returns_iff (.of_afterRun hok) 3 [120] 4 [121]).mpr ?_⟩
  rintro ⟨oldParent, oldLeaf, newParent, newLeaf, file, hnames, -⟩
  cases (ok_of_toOption hparsed).symm.trans hnames.parsed_old
  cases hmissing.symm.trans hnames.lookup_old

/-- Renaming `/dev` into the removed directory dereferences a null pointer. -/
theorem not_path_rename_returns : ¬ ∀ (host : Host) (s : State) (oldFd newFd : UInt32)
    (oldPath newPath : List UInt8), Reachable host s →
    ∃ s' r, exec host s (.path_rename oldFd oldPath newFd newPath) = .ok (s', r) := by
  obtain ⟨s, replies, hok, hfails⟩ : Returns (afterRun removedTmp) fun s _ =>
      (exec .still s (.path_rename 3 devName 4 [121])).isOk = false := by
    decide +kernel
  intro hall
  obtain ⟨s', r, hren⟩ := hall .still s 3 4 devName [121] (.of_afterRun hok)
  rw [hren] at hfails
  cases hfails

end WasmFS
