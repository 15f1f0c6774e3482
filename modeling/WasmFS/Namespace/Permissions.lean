import WasmFS.Namespace.Attributes
import WasmFS.Namespace.TreeInvariant

/-!
# Write permission on directories

A call should change the entries of a directory only if the directory has a write
bit (`Permitted`).  Creating a directory, removing and renaming check this.
Opening a missing file with `O_CREAT` and making a link do not, and these are the only
ways to change a directory that is not writable (`permitted_iff`).

A rename through `.` or `..` changes the directory that the file really is in,
which is not the one that is checked.  But a writable directory lies in a writable
one (`Tree.WritableUp`), so the check suffices.
-/

namespace WasmFS

/-- The call has added, removed or replaced an entry of `d`. -/
def EntriesChange (s s' : State) (d : FileId) : Prop :=
  ∃ n f, ¬ ((n, f) ∈ s'.children d ↔ (n, f) ∈ s.children d)

/-- Only directories that had a write permission bit have changed. -/
def Permitted (s s' : State) : Prop := ∀ d, EntriesChange s s' d → (s.files d).writable

/-- A call that leaves the tree alone has changed nothing. -/
theorem Permitted.of_tree {s s' : State} (h : s'.tree = s.tree) : Permitted s s' := by
  intro d hd
  obtain ⟨n, f, hne⟩ := hd
  refine absurd ?_ hne
  rw [State.mem_children_iff, State.mem_children_iff, h]

/-- The path names a missing file of a linked directory that is not writable. -/
def NamesUnguarded (s : State) (path : Name) (dirfd : Nat) : Prop :=
  ∃ parent leaf, Syscall.Insertable s path dirfd parent leaf ∧ ¬ (s.files parent).writable

/-- The call creates a file without a look at the mode of the directory, and the
directory is not writable. -/
def CreatesUnguarded (s : State) : Call → Prop
  | .path_open dirfd path oflags =>
      NamesUnguarded s (cstr path) dirfd.toNat ∧ hasFlag oflags.toNat O_CREAT ∧
        (oflags.toNat &&& O_ACCMODE = O_WRONLY ∨ oflags.toNat &&& O_ACCMODE = O_RDONLY ∨
          oflags.toNat &&& O_ACCMODE = O_RDWR)
  | .path_link _ oldPath newFd _ => NamesUnguarded s (cstr oldPath) newFd.toNat
  | .path_symlink oldPath fd _ => NamesUnguarded s (cstr oldPath) fd.toNat
  | _ => False

/-! ## The directories of a change -/

namespace Change

variable {t : Tree} {change : Change} {d : FileId}

/-- The change adds or removes an entry of `d`. -/
def Touches (d : FileId) : Change → Prop
  | .none => False
  | .create d' _ _ => d = d'
  | .unlink d' _ _ => d = d'
  | .move p _ d' _ _ => d = p ∨ d = d'

/-- A change leaves the entries of all other directories alone. -/
theorem edge_apply (h : t.WF) (hc : change.Allowed t) (hd : ¬ change.Touches d) (n : Name)
    (f : FileId) : (change.apply t).forest.edge d n f ↔ t.forest.edge d n f := by
  rw [forest_apply h hc]
  cases change with
  | none => exact Iff.rfl
  | create d' name x =>
      have hne : d ≠ d' := hd
      simp [applyForest, Forest.link, hne]
  | unlink d' name c =>
      have hfc : t.forest.edge d n f → f ≠ c := by
        rintro he rfl
        exact hd (h.forest.edge_unique he (Unlinks.edge hc h)).1
      exact and_iff_left_of_imp hfc
  | move p c d' name displaced =>
      obtain ⟨hp, hd'⟩ := not_or.mp hd
      have hfc : t.forest.edge d n f → f ≠ c := by
        rintro he rfl
        exact hp (Option.some.inj ((h.forest.edge_parent he).symm.trans hc.parent))
      cases displaced with
      | none =>
          simp only [applyForest, Forest.move, hd', false_and, or_false]
          exact and_iff_left_of_imp hfc
      | some c' =>
          have hfc' : t.forest.edge d n f → f ≠ c' := by
            rintro he rfl
            exact hd' (h.forest.edge_unique he (Moves.displaced_edge hc h)).1
          simp only [applyForest, Forest.move, Forest.unlink, hd', false_and, or_false]
          exact ⟨fun he => he.1.1, fun he => ⟨⟨he, hfc' he⟩, hfc he⟩⟩

/-- What an allowed change does to the entries is permitted if the directories it touches
are writable. -/
theorem permitted {s s' : State} (h : s.tree.WF) (hc : change.Allowed s.tree)
    (ht : s'.tree = change.apply s.tree)
    (hw : ∀ d, change.Touches d → (s.files d).writable) : Permitted s s' := by
  intro d hd
  obtain ⟨n, f, hne⟩ := hd
  apply hw d
  by_contra htouches
  apply hne
  rw [State.mem_children_iff, State.mem_children_iff, ht]
  exact edge_apply h hc htouches n f

/-! ## Writable directories lie in writable directories -/

/-- A change gives a parent only to a new file, which is not writable, or one that is
writable. -/
theorem parent_apply (h : t.WF) (hc : change.Allowed t) {x p : FileId}
    (hp : ((change.apply t).node x).parent = some p) :
    (t.node x).parent = some p ∨ ((change.apply t).node x).writable = false ∨
      (t.forest.Linked p ∧ (t.node p).writable) := by
  have hparent : (change.applyForest t.next t.forest).parent x = some p := by
    rw [← forest_apply h hc]
    exact hp
  cases change with
  | none => exact Or.inl hparent
  | create d name y =>
      by_cases hx : x = t.next
      · subst hx
        have hcreated := @Change.created t d name y
        refine Or.inr (Or.inl ?_)
        rw [hcreated.writable, t.node_alloc_self]
        exact (Creates.newFile hc).not_writable
      · exact Or.inl ((t.forest.link_parent_of_ne d name hx).symm.trans hparent)
  | unlink d name c =>
      by_cases hx : x = c
      · subst hx
        cases (t.forest.unlink_parent_self x).symm.trans hparent
      · exact Or.inl ((t.forest.unlink_parent_of_ne hx).symm.trans hparent)
  | move q c d name displaced =>
      by_cases hx : x = c
      · subst hx
        have hpd : some d = some p := by
          cases displaced <;> exact (Forest.move_parent_self _ x d name).symm.trans hparent
        cases hpd
        exact Or.inr (Or.inr ⟨hc.linked, hc.writable⟩)
      · refine Or.inl ?_
        cases displaced with
        | none => exact (t.forest.move_parent_of_ne d name hx).symm.trans hparent
        | some c' =>
            have hp' := ((t.forest.unlink c').move_parent_of_ne d name hx).symm.trans hparent
            by_cases hx' : x = c'
            · subst hx'
              cases (t.forest.unlink_parent_self x).symm.trans hp'
            · exact (t.forest.unlink_parent_of_ne hx').symm.trans hp'

end Change

/-- A writable directory lies in a writable one. -/
def Tree.WritableUp (t : Tree) : Prop :=
  ∀ d p, (t.node d).isDirectory → (t.node d).writable → (t.node d).parent = some p →
    (t.node p).writable

theorem Change.writableUp_apply {t : Tree} {change : Change} (h : t.WF) (hc : change.Allowed t)
    (ht : t.WritableUp) : (change.apply t).WritableUp := by
  intro d p hdir hw hp
  have hkeep : t.forest.Linked p → ((change.apply t).node p).writable = (t.node p).writable :=
    fun hlinked => (change.persists (h.ne_next_of_linked hlinked)).writable
  rcases change.parent_apply h hc hp with hold | hnew | ⟨hlinked, hwp⟩
  · have hd : t.forest.Linked d := by
      intro hnone
      cases hnone.symm.trans hold
    have hsame := change.persists (h.ne_next_of_linked hd)
    rw [hkeep (h.forest.parent_linked hold)]
    exact ht d p (hsame.isDirectory ▸ hdir) (hsame.writable ▸ hw) hold
  · rw [hnew] at hw
    cases hw
  · rwa [hkeep hlinked]

theorem Start.writableUp : tree.WritableUp := by
  intro d p hdir hw hp
  have hall := forall_node (P := fun _ x => x.isDirectory → x.writable →
    x.parent.all fun p => (tree.node p).writable) (by decide +kernel) (fun _ _ _ => rfl) d hdir hw
  rwa [hp, Option.all_some] at hall

theorem Reachable.writableUp {host : Host} {s : State} (h : Reachable host s) :
    s.tree.WritableUp :=
  h.tree_invariant Start.writableUp fun hwf hc ht => Change.writableUp_apply hwf hc ht

/-! ## The system calls -/

namespace Syscall

variable {host : Host} {s s' : State} {path : Name} {dirfd : Nat} {parent : FileId} {leaf : Name}

/-- The directory that a file is moved out of is writable.  It is not the old parent if
the leaf is `.` or `..`. -/
theorem Movable.writable_parent (h : s.tree.WF) (hup : s.tree.WritableUp) {oldParent : FileId}
    (hold : (s.files oldParent).isDirectory) {oldLeaf : Name} {newParent : FileId}
    {newLeaf : Name} {file p : FileId}
    (hm : Movable s oldParent oldLeaf newParent newLeaf file p) : (s.files p).writable := by
  have hdir : (s.tree.node oldParent).isDirectory := by
    rwa [State.tree_node, File.node_isDirectory]
  cases h.finds hm.lookup_old with
  | self => exact hup oldParent p hdir hm.writable_old hm.parent
  | parent hq =>
      have hfile := hup oldParent file hdir hm.writable_old hq
      exact hup file p (h.isDirectory_of_parent hq) hfile hm.parent
  | child _ _ he =>
      have hpp : some oldParent = some p := (h.forest.edge_parent he).symm.trans hm.parent
      cases hpp
      exact hm.writable_old

section

variable {body : Body} {mode : Nat} (h : s.tree.WF) (hi : Insertable s path dirfd parent leaf)
  (hx : NewFile (s.files parent).backend (newNode body mode (s.files parent).backend))
  (hs' : s'.tree = (Directory.inserted host s parent leaf body mode).tree)

include h hi hx hs'

theorem Insertable.permitted (hw : (s.files parent).writable) : Permitted s s' := by
  have hc : (Change.create parent leaf _).Allowed s.tree := hi.creates h hx
  refine Change.permitted h hc (hs'.trans (Directory.tree_inserted host s parent leaf body mode)) ?_
  intro d hd
  obtain rfl : d = parent := hd
  exact hw

theorem Insertable.not_permitted (hw : ¬ (s.files parent).writable) : ¬ Permitted s s' := by
  have hc := hi.creates h hx
  intro hpermitted
  apply hw
  refine hpermitted parent ⟨leaf, s.next, fun hiff => ?_⟩
  have hnew : (leaf, s.next) ∈ s'.children parent := by
    rw [State.mem_children_iff, hs', Directory.tree_inserted,
      h.forest_create hc.isDirectory hc.linked leaf hx.blank]
    exact Or.inr ⟨rfl, rfl, rfl⟩
  exact h.next_not_linked (h.forest.child_linked (State.mem_children_iff.mp (hiff.mp hnew)))

end

/-- Nothing is in the way of opening a missing file with `O_CREAT`. -/
theorem openat2_of_insertable (h : s.tree.WF) (host : Host)
    (hi : Insertable s path dirfd parent leaf) {oflags : Nat} (mode : Nat)
    (hcreat : hasFlag oflags O_CREAT)
    (hmode : oflags &&& O_ACCMODE = O_WRONLY ∨ oflags &&& O_ACCMODE = O_RDONLY ∨
      oflags &&& O_ACCMODE = O_RDWR) :
    openat2 host s dirfd path oflags mode =
      FileTable.addEntry (created host s parent leaf oflags mode) s.nextDescription := by
  have hmissing : openMissing host s parent leaf oflags mode =
      FileTable.addEntry (created host s parent leaf oflags mode) s.nextDescription := by
    have hlinked : ¬ (s.getParent parent).isNone :=
      fun hn => hi.linked (Option.isNone_iff_eq_none.mp hn)
    simp only [openMissing, if_neg (not_not.mpr hcreat), if_neg hlinked, Directory.insertDataFile,
      Directory.insert_of_linked hi.linked, OpenFileState.create_snd]
    rfl
  have hmode' : ¬ (oflags &&& O_ACCMODE ≠ O_WRONLY ∧ oflags &&& O_ACCMODE ≠ O_RDONLY ∧
      oflags &&& O_ACCMODE ≠ O_RDWR) := by
    simpa only [ne_eq, not_and_or, not_not] using hmode
  rw [← hmissing]
  simp only [openat2, doOpen]
  rw [Path.parseParent_state h, hi.parsed]
  simp only [if_neg hmode', if_neg (Nat.not_lt_of_le hi.length), Directory.getChild_eq h, hi.lookup]

/-- Nothing is in the way of a new link. -/
theorem symlinkat_of_insertable (h : s.tree.WF) (host : Host)
    (hi : Insertable s path dirfd parent leaf) {target : Name} {ret : Int}
    (hok : symlinkat host s target dirfd path = .ok (s', ret)) :
    ∃ hlen : target.length ≤ Target.maxSize,
      s' = Directory.inserted host s parent leaf (.symlink ⟨target, hlen⟩) S_IFLNK := by
  simp only [symlinkat] at hok
  rw [Path.parseParent_state h, hi.parsed] at hok
  simp only [if_neg (Nat.not_lt_of_le hi.length), Directory.getChild_eq h, hi.lookup] at hok
  split at hok
  · rename_i hlen
    simp only [Directory.insertSymlink, Directory.insert_of_linked hi.linked] at hok
    cases hok
    exact ⟨hlen, rfl⟩
  · cases hok

theorem symlinkat_permitted_iff (h : s.tree.WF) {target : Name} {ret : Int}
    (hok : symlinkat host s target dirfd path = .ok (s', ret)) :
    Permitted s s' ↔ ¬ NamesUnguarded s path dirfd := by
  constructor
  · rintro hpermitted ⟨parent, leaf, hi, hw⟩
    obtain ⟨hlen, rfl⟩ := symlinkat_of_insertable h host hi hok
    exact hi.not_permitted h (Or.inr (Or.inr ⟨_, rfl⟩)) rfl hw hpermitted
  · intro hguarded
    rcases symlinkat_cases h host target dirfd path with
      ⟨e, he⟩ | hfault | ⟨parent, leaf, hi, hlen, hins⟩
    · rw [he] at hok
      cases hok
      exact .of_tree rfl
    · rw [hfault] at hok
      cases hok
    · rw [hins] at hok
      cases hok
      refine hi.permitted h (Or.inr (Or.inr ⟨_, rfl⟩)) rfl (not_not.mp fun hw => ?_)
      exact hguarded ⟨parent, leaf, hi, hw⟩

theorem openat2_permitted_iff (h : s.tree.WF) {oflags : Nat} {ret : Int}
    (hok : openat2 host s dirfd path oflags 0 = .ok (s', ret)) :
    Permitted s s' ↔ ¬ (NamesUnguarded s path dirfd ∧ hasFlag oflags O_CREAT ∧
      (oflags &&& O_ACCMODE = O_WRONLY ∨ oflags &&& O_ACCMODE = O_RDONLY ∨
        oflags &&& O_ACCMODE = O_RDWR)) := by
  have htree : ∀ {parent leaf}, FileTable.addEntry (created host s parent leaf oflags 0)
      s.nextDescription = .ok (s', ret) →
      s'.tree = (Directory.inserted host s parent leaf (.memory Vec.empty) S_IFREG).tree :=
    fun hadd => (FileTable.addEntry_sameFiles hadd).tree.trans
      (OpenFileState.create_sameFiles _ _ _).tree
  constructor
  · rintro hpermitted ⟨⟨parent, leaf, hi, hw⟩, hcreat, hmode⟩
    rw [openat2_of_insertable h host hi 0 hcreat hmode] at hok
    exact hi.not_permitted h (Or.inl rfl) (htree hok) hw hpermitted
  · intro hguarded
    by_cases hmode : oflags &&& O_ACCMODE = O_WRONLY ∨ oflags &&& O_ACCMODE = O_RDONLY ∨
      oflags &&& O_ACCMODE = O_RDWR
    swap
    · simp only [not_or] at hmode
      simp only [openat2, doOpen] at hok
      rw [if_pos hmode, Path.parseParent_state h] at hok
      cases hok
      exact .of_tree rfl
    rcases openat2_cases h host dirfd path oflags 0 with
      ⟨e, s₁, he, hfails⟩ | ⟨parent, leaf, c, child, -, -, hadd⟩ | ⟨parent, leaf, hi, hcreat, hadd⟩
    · rw [he] at hok
      cases hok
      exact .of_tree hfails.unchanged.sameFiles.tree
    · rw [hadd] at hok
      exact .of_tree ((FileTable.addEntry_sameFiles hok).tree.trans
        (opened_tree s child oflags))
    · rw [hadd] at hok
      refine hi.permitted h (Or.inl rfl) (htree hok) (not_not.mp fun hw => ?_)
      exact hguarded ⟨⟨parent, leaf, hi, hw⟩, hcreat, hmode⟩

theorem mkdirat_permitted (h : s.tree.WF) (host : Host) (dirfd : Nat) (path : Name) :
    Permitted s (mkdirat host s dirfd path (S_IRUGO ||| S_IXUGO)).1 := by
  rcases mkdirat_cases h host dirfd path (S_IRUGO ||| S_IXUGO) with
    ⟨e, he⟩ | ⟨parent, leaf, hi, hw, hins⟩
  · rw [he]
    exact .of_tree rfl
  · rw [hins]
    exact hi.permitted h (Or.inr (Or.inl rfl)) rfl hw

theorem unlinkat_permitted (h : s.tree.WF) (host : Host) (dirfd : Nat) (path : Name)
    (removeDir : Bool) : Permitted s (unlinkat host s dirfd path removeDir).1 := by
  rcases unlinkat_cases h host dirfd path removeDir with
    ⟨e, he⟩ | ⟨parent, leaf, file, hr, hunlink⟩
  · rw [he]
    exact .of_tree rfl
  · rw [hunlink]
    obtain ⟨change, hallowed, hchange, ht⟩ := hr.change h host
    refine Change.permitted h hallowed ht fun d hd => ?_
    rcases hchange with rfl | rfl
    · exact hd.elim
    · obtain rfl : d = parent := hd
      exact hr.writable

theorem renameat_permitted (h : s.tree.WF) (hup : s.tree.WritableUp) {olddirfd newdirfd : Nat}
    {oldpath newpath : Name} {ret : Int}
    (hok : renameat host s olddirfd oldpath newdirfd newpath = .ok (s', ret)) :
    Permitted s s' := by
  rcases renameat_ok h hok with
    ⟨rfl, -⟩ | ⟨oldParent, oldLeaf, newParent, newLeaf, file, hnames, -, ⟨-, rfl⟩ | ⟨p, hm, rfl⟩⟩
  · exact .of_tree rfl
  · exact .of_tree rfl
  have hold := (Path.parseParent_leaf h hnames.parsed_old).1
  obtain ⟨hnew, hseg⟩ := Path.parseParent_leaf h hnames.parsed_new
  have hmoves := hm.moves h hnew hseg
  have hc : (Change.move p file newParent newLeaf _).Allowed s.tree := hmoves
  refine Change.permitted h hc (tree_moved h host hmoves) fun d hd => ?_
  rcases hd with rfl | rfl
  · exact hm.writable_parent h hup hold
  · exact hm.writable_new

end Syscall

/-! ## The exports -/

/-- A call that returns has changed only directories with a write permission bit, unless it
creates a file without a look at the mode. -/
theorem permitted_iff {host : Host} {s s' : State} {c : Call} {r : Reply} (h : Reachable host s)
    (hok : exec host s c = .ok (s', r)) : Permitted s s' ↔ ¬ CreatesUnguarded s c := by
  have hwf := h.wf
  cases c with
  | path_open dirfd path oflags =>
      obtain ⟨ret, hopen, -⟩ := Export.path_open_ok hok
      exact Syscall.openat2_permitted_iff hwf hopen
  | path_link oldFd oldPath newFd newPath =>
      obtain ⟨ret, hlink, -⟩ := Export.path_link_ok oldFd hok
      exact Syscall.symlinkat_permitted_iff hwf hlink
  | path_symlink oldPath fd newPath =>
      obtain ⟨ret, hlink, -⟩ := Export.path_symlink_ok hok
      exact Syscall.symlinkat_permitted_iff hwf hlink
  | path_create_directory fd path =>
      refine iff_of_true ?_ id
      have hp := Syscall.mkdirat_permitted hwf host host.dirfd.toNat (cstr path)
      cases hok
      exact hp
  | path_remove_directory fd path =>
      refine iff_of_true ?_ id
      have hp := Syscall.unlinkat_permitted hwf host fd.toNat (cstr path) true
      cases hok
      exact hp
  | path_unlink_file dirfd path =>
      refine iff_of_true ?_ id
      have hp := Syscall.unlinkat_permitted hwf host dirfd.toNat (cstr path) false
      cases hok
      exact hp
  | path_rename oldFd oldPath newFd newPath =>
      refine iff_of_true ?_ id
      obtain ⟨ret, hren, -⟩ := Export.path_rename_ok hok
      exact Syscall.renameat_permitted hwf h.writableUp hren
  | fd_close fd =>
      refine iff_of_true (.of_tree ?_) id
      obtain ⟨ret, hclose, -⟩ := Export.fd_close_ok hok
      exact (Syscall.close_sameFiles hclose).tree
  | fd_renumber fd dest =>
      refine iff_of_true (.of_tree ?_) id
      obtain ⟨ret, hdup, -⟩ := Export.fd_renumber_ok hok
      exact (Syscall.dup3_sameFiles hdup).tree
  | _ => exact iff_of_true (.of_tree (exec_skeleton hwf rfl hok).tree) id

/-- `path_open` with `O_CREAT` of a new file in the root, which is writable. -/
theorem permitted_openInRoot : ∃ s s' r, Reachable .still s ∧
    exec .still s (.path_open 3 [120] 64) = .ok (s', r) ∧ Permitted s s' := by
  obtain ⟨s, replies, hopen, hparsed, hw, s', r, hok, -⟩ :
      Returns (afterRun [.path_open atFdCwd [slash] 0]) fun s _ =>
        (Path.parseParent s (cstr [120]) (3 : UInt32).toNat).2.toOption =
          some (Init.root, [120]) ∧
        (s.files Init.root).writable ∧
        Returns (exec .still s (.path_open 3 [120] 64)) fun _ _ => True := by
    decide +kernel
  have hs : Reachable .still s := .of_afterRun hopen
  refine ⟨s, s', r, hs, hok, (permitted_iff hs hok).mpr ?_⟩
  rintro ⟨⟨parent, leaf, hi, hguarded⟩, -⟩
  cases (ok_of_toOption hparsed).symm.trans hi.parsed
  exact hguarded hw

/-- `path_open` with `O_CREAT` of `dev/x` adds an entry to a directory of mode 0555. -/
theorem not_permitted_openInDev : ¬ ∀ (host : Host) (s s' : State) (c : Call) (r : Reply),
    Reachable host s → exec host s c = .ok (s', r) → Permitted s s' := by
  obtain ⟨s, replies, hopen, hold, hw, s', r, hok, hnew⟩ :
      Returns (afterRun [.path_open atFdCwd [slash] 0]) fun s _ =>
        ([120], 9) ∉ s.children Init.dev ∧ (s.files Init.dev).writable = false ∧
        Returns (exec .still s (.path_open 3 [100, 101, 118, 47, 120] 64)) fun s' _ =>
          ([120], 9) ∈ s'.children Init.dev := by
    decide +kernel
  intro hall
  have hpermitted := hall .still s s' _ r (.of_afterRun hopen) hok Init.dev
    ⟨[120], 9, fun hiff => hold (hiff.mp hnew)⟩
  rw [hw] at hpermitted
  cases hpermitted

end WasmFS
