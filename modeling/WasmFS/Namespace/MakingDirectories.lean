import WasmFS.Namespace.Creating
import WasmFS.Namespace.Opening
import WasmFS.Namespace.StartingPoints

/-!
# Making directories

`path_create_directory` makes a directory that is not writable, so no directory can be
made in it.  And it starts at the constant `dirfd`, whatever descriptor it is given.  So
the directories of a path can be made one after the other only if there is one of them
and `dirfd` happens to be open on the directory it belongs in (`makesDirectories_iff`).
-/

namespace WasmFS

open LinkedNodes LinkedNodes.Outcome

variable {host : Host} {s s' : State}

/-- A name that a new directory can have.  A path ends at its first zero byte. -/
structure NewName (n : Name) : Prop extends Proper n where
  length : n.length ≤ WASMFS_NAME_MAX
  no_zero : 0 ∉ n

/-- The path of names. -/
def joined (names : List Name) : Name := [slash].intercalate names

/-- Make the directories on the way along the names, from the first one on. -/
def makeDirectories (fd : UInt32) (names : List Name) : List Call :=
  names.inits.tail.map fun names => .path_create_directory fd (joined names)

/-- The directories are one in the other, the first one in `d`.  Nothing else has changed. -/
structure MadeDirectories (s s' : State) (fd : UInt32) (d : FileId) (names : List Name)
    (dirs : List FileId) : Prop where
  length : dirs.length = names.length
  resolves : ∀ {i f}, dirs[i]? = some f →
    (Path.parseFile s' (joined (names.take (i + 1))) fd.toNat .followLinks).2 = .ok f
  isDirectory : ∀ f ∈ dirs, (s'.files f).isDirectory
  children : ∀ {i f}, dirs[i]? = some f → ∀ {n c}, s'.tree.forest.edge f n c ↔
    names[i + 1]? = some n ∧ dirs[i + 1]? = some c
  others : ∀ {d' n c}, d' ∉ dirs → ¬ (d' = d ∧ names.head? = some n) →
    (s'.tree.forest.edge d' n c ↔ s.tree.forest.edge d' n c)

/-- The calls succeed and make the directories. -/
def MakesDirectories (host : Host) (s : State) (fd : UInt32) (d : FileId) (names : List Name) :
    Prop :=
  ∃ s' replies dirs, run host s (makeDirectories fd names) = .ok (s', replies) ∧
    (∀ r ∈ replies, r.errno = 0) ∧ MadeDirectories s s' fd d names dirs

/-! ## Paths of names -/

@[simp] theorem joined_singleton (n : Name) : joined [n] = n := by
  simp [joined]

theorem cstr_of_no_zero {path : Name} (h : 0 ∉ path) : cstr path = path := by
  unfold cstr
  rw [List.takeWhile_eq_self_iff]
  intro c hc
  exact bne_iff_ne.mpr fun h0 => h (h0 ▸ hc)

namespace Path

/-- The path of one name is walked to the directory where the walk starts. -/
theorem resolveParent_segment {n : Name} (hn : Segment n) (budget : Nat) (s : State)
    (base : FileId) : resolveParent budget s n base = (s, .ok ((base, n), budget)) := by
  unfold resolveParent walkParent
  rw [if_neg hn.1, segments_of_segment hn, startDir, if_neg (head?_of_segment hn)]
  rfl

theorem parseParent_segment {n : Name} (hn : Segment n) {basefd : Nat} {base : FileId}
    (hbase : getBaseDir s basefd = .ok base) : parseParent s n basefd = (s, .ok (base, n)) := by
  rw [parseParent_eq_resolveParent hbase, resolveParent_segment hn]
  rfl

/-- The path of one name leads to what is found under the name. -/
theorem parseFile_segment (h : s.tree.WF) {n : Name} (hn : Segment n) {basefd : Nat}
    {base : FileId} (hbase : getBaseDir s basefd = .ok base)
    (hlink : ∀ c, s.tree.lookup base n = some c → (s.files c).target? = none) :
    (parseFile s n basefd .followLinks).2 =
      (s.tree.lookup base n).elim (.error .noent) .ok := by
  rw [parseFile_eq_resolveFile hbase]
  unfold resolveFile
  rw [resolveParent_segment hn, bind_ok, resolveChild, walk_singleton, Directory.getChild_eq h]
  cases hl : s.tree.lookup base n with
  | none => rfl
  | some c =>
      simp only [hlink c hl]
      rfl

/-- A name behind the path of a directory is looked up there. -/
theorem parseParent_append (h : s.tree.WF) {path leaf n : Name} {basefd : Nat}
    {parent c : FileId} (hp : (parseParent s path basefd).2 = .ok (parent, leaf))
    (hl : s.tree.lookup parent leaf = some c) (hc : (s.files c).isDirectory) (hn : Segment n) :
    parseParent s (path ++ slash :: n) basefd = (s, .ok (c, n)) := by
  obtain ⟨base, met, hbase, hrun, -, hparent⟩ := runs_of_parseParent h hp
  have hne : path ≠ [] := by
    rintro rfl
    cases hparent
  have hroot : (s.files s.rootDirectory).isDirectory := by
    rw [← File.node_isDirectory]
    exact h.root_directory
  have hfile := resolveFile_leaf h hparent hl
  rw [target?_of_isDirectory hc] at hfile
  rw [parseParent_eq_resolveParent hbase,
    resolveParent_append hne hn.1 (head?_of_segment hn) hroot hfile hc, resolveParent_segment hn]
  rfl

end Path

/-! ## Making a directory -/

/-- The state after a directory is made. -/
abbrev Directory.made (host : Host) (s : State) (parent : FileId) (leaf : Name) : State :=
  inserted host s parent leaf (.directory [] []) (S_IRUGO ||| S_IXUGO ||| S_IFDIR)

theorem Syscall.Insertable.creates_directory (h : s.tree.WF) {path leaf : Name} {dirfd : Nat}
    {parent : FileId} (hi : Insertable s path dirfd parent leaf) :
    Change.Creates s.tree parent leaf
      (newNode (.directory [] []) (S_IRUGO ||| S_IXUGO ||| S_IFDIR) (s.files parent).backend) :=
  hi.creates h (Or.inr (Or.inl rfl))

theorem Syscall.Insertable.mkdirat_eq (h : s.tree.WF) (host : Host) {path leaf : Name}
    {dirfd : Nat} {parent : FileId} (hi : Insertable s path dirfd parent leaf)
    (hw : (s.files parent).writable) :
    mkdirat host s dirfd path (S_IRUGO ||| S_IXUGO) = (Directory.made host s parent leaf, 0) := by
  unfold mkdirat doMkdir
  rw [Path.parseParent_state h, hi.parsed]
  simp only
  rw [if_neg (Nat.not_lt.mpr hi.length), Directory.getChild_eq h, hi.lookup]
  simp only [hw, not_true_eq_false, if_false, Directory.insertDirectory,
    Directory.insert_of_linked hi.linked]
  rfl

/-- A call that succeeds has made a directory where `dirfd` starts. -/
theorem Export.path_create_directory_success (h : s.tree.WF) {fd : UInt32} {path : List UInt8}
    {r : Reply} (hok : path_create_directory host s fd path = .ok (s', r)) (hr : r.errno = 0) :
    ∃ parent leaf, Syscall.Insertable s (cstr path) host.dirfd.toNat parent leaf ∧
      (s.files parent).writable ∧ s' = Directory.made host s parent leaf := by
  unfold path_create_directory at hok
  rcases Syscall.mkdirat_cases h host host.dirfd.toNat (cstr path) (S_IRUGO ||| S_IXUGO) with
    ⟨e, he⟩ | ⟨parent, leaf, hi, hw, hins⟩
  · rw [he] at hok
    cases hok
    exact absurd hr e.u16_neg_ne_zero
  · rw [hins] at hok
    cases hok
    exact ⟨parent, leaf, hi, hw, rfl⟩

/-- A call with one name that succeeds has made a directory of that name. -/
theorem Export.path_create_directory_name (h : s.tree.WF) {n : Name} (hn : NewName n)
    (fd : UInt32) {r : Reply} (hok : path_create_directory host s fd n = .ok (s', r))
    (hr : r.errno = 0) :
    ∃ base, Path.getBaseDir s host.dirfd.toNat = .ok base ∧
      Syscall.Insertable s n host.dirfd.toNat base n ∧ s' = Directory.made host s base n := by
  obtain ⟨parent, leaf, hi, -, hmade⟩ := path_create_directory_success h hok hr
  rw [cstr_of_no_zero hn.no_zero] at hi
  obtain ⟨base, _, hbase, -⟩ := Path.runs_of_parseParent h hi.parsed
  have hparsed := hi.parsed
  rw [Path.parseParent_segment hn.segment hbase] at hparsed
  cases hparsed
  exact ⟨parent, hbase, hi, hmade⟩

section

variable (host : Host) (s : State) (parent : FileId) (leaf : Name)

theorem Directory.made_isDirectory : ((made host s parent leaf).files s.next).isDirectory := by
  rw [← File.node_isDirectory, ← State.tree_node, (inserted_self ..).isDirectory]
  exact congrArg Node.isDirectory (Tree.node_alloc_self ..)

/-- The mode has no write permission. -/
theorem Directory.made_not_writable :
    ((made host s parent leaf).files s.next).writable = false := by
  rw [← File.node_writable, ← State.tree_node, (inserted_self ..).writable]
  exact (congrArg Node.writable (Tree.node_alloc_self ..)).trans
    (NewFile.not_writable (Or.inr (Or.inl rfl)))

end

/-- No directory can be made in a directory that was made. -/
theorem Export.path_create_directory_in_made (h : s.tree.WF) (hfiles : FilesExist s)
    {n₁ n₂ : Name} (hn₁ : NewName n₁) (hn₂ : NewName n₂) {base : FileId}
    (hi : Syscall.Insertable s n₁ host.dirfd.toNat base n₁) (fd : UInt32) {r : Reply}
    (hok : path_create_directory host (Directory.made host s base n₁) fd (joined [n₁, n₂]) =
      .ok (s', r)) : r.errno ≠ 0 := by
  intro hr
  have hc := hi.creates_directory h
  have hwf := wf_inserted hc host h
  obtain ⟨parent, leaf, hi₂, hw, -⟩ := path_create_directory_success hwf hok hr
  have hpath : joined [n₁, n₂] = n₁ ++ slash :: n₂ := by
    simp [joined, List.intercalate]
  have hzero : 0 ∉ n₁ ++ slash :: n₂ := by
    have hslash : (0 : UInt8) ≠ slash := by decide
    simp [hn₁.no_zero, hn₂.no_zero, hslash]
  rw [hpath, cstr_of_no_zero hzero] at hi₂
  -- the path of the first name still leads to the same place, where the new directory is
  have hp := congrArg Prod.snd (Path.parseParent_extends (extends_inserted hc host h)
    (getBaseDir_inserted hfiles _) hi.parsed)
  have hparsed := hi₂.parsed
  rw [Path.parseParent_append hwf hp (lookup_inserted hc host h)
    (Directory.made_isDirectory host s base n₁) hn₂.segment] at hparsed
  cases hparsed
  rw [Directory.made_not_writable] at hw
  cases hw

/-! ## Making directories one in the other -/

section

variable {fd : UInt32} {d : FileId} {n : Name} {names : List Name}

theorem makeDirectories_singleton (fd : UInt32) (n : Name) :
    makeDirectories fd [n] = [.path_create_directory fd n] := by
  simp [makeDirectories]

theorem makeDirectories_cons_cons (fd : UInt32) (n m : Name) (names : List Name) :
    makeDirectories fd (n :: m :: names) =
      .path_create_directory fd n :: .path_create_directory fd (joined [n, m]) ::
        names.inits.tail.map fun names => .path_create_directory fd (joined (n :: m :: names)) := by
  cases names <;> simp [makeDirectories]

/-- In a directory that was made no other one can be made, so there is only one. -/
theorem MakesDirectories.eq_nil (h : Reachable host s) (hnew : ∀ m ∈ n :: names, NewName m)
    (hmakes : MakesDirectories host s fd d (n :: names)) : names = [] := by
  obtain ⟨s', replies, dirs, hrun, hall, -⟩ := hmakes
  cases names with
  | nil => rfl
  | cons m names =>
      have hn := hnew n (by simp)
      have hm := hnew m (by simp)
      rw [makeDirectories_cons_cons] at hrun
      obtain ⟨s₁, r₁, rest₁, hok₁, hrun₁, rfl⟩ := run_cons_ok hrun
      obtain ⟨s₂, r₂, rest₂, hok₂, -, rfl⟩ := run_cons_ok hrun₁
      obtain ⟨base, -, hi, rfl⟩ :=
        Export.path_create_directory_name h.wf hn fd hok₁ (hall r₁ (by simp))
      exact absurd (hall r₂ (by simp))
        (Export.path_create_directory_in_made h.wf h.filesExist hn hm hi fd hok₂)

/-- The descriptor is still open on the directory. -/
theorem OpenOn.getBaseDir_made (h : Reachable host s) (ho : OpenOn s fd d) (parent : FileId)
    (leaf : Name) : Path.getBaseDir (Directory.made host s parent leaf) fd.toNat = .ok d :=
  (getBaseDir_inserted h.filesExist fd.toNat).trans (ho.getBaseDir h.usesBalance)

/-- A directory that is found in `d` was made there. -/
theorem MakesDirectories.base (h : Reachable host s) (ho : OpenOn s fd d) (hn : NewName n)
    (hfree : s.tree.lookup d n = none) (hmakes : MakesDirectories host s fd d [n]) :
    Path.getBaseDir s host.dirfd.toNat = .ok d := by
  obtain ⟨s', replies, dirs, hrun, hall, hmade⟩ := hmakes
  rw [makeDirectories_singleton] at hrun
  obtain ⟨s₁, r, rest, hok, hrest, rfl⟩ := run_cons_ok hrun
  cases hrest
  obtain ⟨base, hbase, hi, rfl⟩ :=
    Export.path_create_directory_name h.wf hn fd hok (hall r (by simp))
  obtain ⟨f, rfl⟩ := List.length_eq_one_iff.mp hmade.length
  have hc := hi.creates_directory h.wf
  have hwf := wf_inserted hc host h.wf
  have hfd := ho.getBaseDir_made h base n
  have hfound := hmade.resolves (i := 0) rfl
  rw [List.take_one, List.head?_cons, Option.toList_some, joined_singleton] at hfound
  cases hl : (Directory.made host s base n).tree.lookup d n with
  | none =>
      rw [Path.parseFile_segment hwf hn.segment hfd (by rw [hl]; exact nofun), hl] at hfound
      cases hfound
  | some c =>
      rw [hwf.lookup_eq_some_iff hn.ne_dot hn.ne_dotdot, Directory.tree_inserted,
        hc.edge_iff h.wf] at hl
      rcases hl with hl | ⟨rfl, -, -⟩
      · rw [← h.wf.lookup_eq_some_iff hn.ne_dot hn.ne_dotdot, hfree] at hl
        cases hl
      · exact hbase

/-- The directory that is made is the only one that was asked for. -/
theorem MadeDirectories.of_insertable (h : Reachable host s) (ho : OpenOn s fd d)
    (hn : NewName n) {path : Name} {dirfd : Nat} (hi : Syscall.Insertable s path dirfd d n) :
    MadeDirectories s (Directory.made host s d n) fd d [n] [s.next] where
  length := rfl
  resolves {i f} hf := by
    have hc := hi.creates_directory h.wf
    have hwf := wf_inserted hc host h.wf
    have hfd := ho.getBaseDir_made h d n
    have hl := lookup_inserted hc host h.wf
    cases i with
    | zero =>
        cases hf
        rw [List.take_one, List.head?_cons, Option.toList_some, joined_singleton,
          Path.parseFile_segment hwf hn.segment hfd, hl]
        · rfl
        · intro c hc
          rw [hl] at hc
          cases hc
          exact Path.target?_of_isDirectory (Directory.made_isDirectory host s d n)
    | succ i => cases hf
  isDirectory f hf := by
    rw [List.mem_singleton.mp hf]
    exact Directory.made_isDirectory host s d n
  children {i f} hf n' c := by
    have hc := hi.creates_directory h.wf
    cases i with
    | zero =>
        cases hf
        rw [Directory.tree_inserted, hc.edge_iff h.wf]
        constructor
        · rintro (he | ⟨hd, -, -⟩)
          · exact absurd (h.wf.forest.linked_of_edge he) h.wf.next_not_linked
          · exact absurd hd.symm (h.wf.ne_next_of_linked hi.linked)
        · rintro ⟨hn', -⟩
          cases hn'
    | succ i => cases hf
  others {d' n' c} _ hne := by
    refine sameEntriesBut_inserted (hi.creates_directory h.wf) h.wf fun hsame => hne ?_
    exact ⟨hsame.1, congrArg some hsame.2.symm⟩

/-- One directory is made if `dirfd` starts where it was asked for. -/
theorem MakesDirectories.of_base (h : Reachable host s) (ho : OpenOn s fd d)
    (hw : (s.files d).writable) (hn : NewName n) (hfree : s.tree.lookup d n = none)
    (hbase : Path.getBaseDir s host.dirfd.toNat = .ok d) : MakesDirectories host s fd d [n] := by
  obtain ⟨-, -, -, -, hlinked⟩ := id ho
  have hi : Syscall.Insertable s n host.dirfd.toNat d n :=
    ⟨congrArg Prod.snd (Path.parseParent_segment hn.segment hbase), hn.length, hfree, hlinked⟩
  refine ⟨Directory.made host s d n, [⟨u16 0, .nothing⟩], [s.next], ?_, ?_,
    .of_insertable h ho hn hi⟩
  · rw [makeDirectories_singleton]
    simp only [run, exec, Export.path_create_directory, cstr_of_no_zero hn.no_zero,
      hi.mkdirat_eq h.wf host hw]
  · intro r hr
    rw [List.mem_singleton.mp hr]
    rfl

/-- `path_create_directory` makes the directories of a path one after the other if and only if
there is one of them and `dirfd` starts in the directory of the descriptor. -/
theorem makesDirectories_iff (h : Reachable host s) (ho : OpenOn s fd d)
    (hw : (s.files d).writable) (hnew : ∀ m ∈ n :: names, NewName m)
    (hfree : s.tree.lookup d n = none) :
    MakesDirectories host s fd d (n :: names) ↔
      names = [] ∧ Path.getBaseDir s host.dirfd.toNat = .ok d := by
  have hn := hnew n List.mem_cons_self
  constructor
  · intro hmakes
    obtain rfl := hmakes.eq_nil h hnew
    exact ⟨rfl, hmakes.base h ho hn hfree⟩
  · rintro ⟨rfl, hbase⟩
    exact .of_base h ho hw hn hfree hbase

end

theorem makesDirectories_root : ∃ s replies,
    afterRun [.path_open atFdCwd [slash] 0] = .ok (s, replies) ∧ OpenOn s 3 Init.root ∧
    (MakesDirectories .still s 3 Init.root [[97]] ↔
      ([] : List Name) = [] ∧ Path.getBaseDir s Host.still.dirfd.toNat = .ok Init.root) := by
  obtain ⟨s, replies, hok, ho, hdir, hlinked, hw, hfree⟩ :
      Returns (afterRun [.path_open atFdCwd [slash] 0]) fun s _ =>
        (FileTable.getEntry s (3 : UInt32).toNat).map (fun o => (s.descriptions o).file) =
          some Init.root ∧
        (s.files Init.root).isDirectory ∧ s.getParent Init.root ≠ none ∧
        (s.files Init.root).writable ∧ s.tree.lookup Init.root [97] = none := by
    decide +kernel
  have hopen := OpenOn.of_map ho hdir hlinked
  refine ⟨s, replies, hok, hopen, makesDirectories_iff (.of_afterRun hok) hopen hw ?_ hfree⟩
  intro m hm
  rw [List.mem_singleton.mp hm]
  exact ⟨⟨by decide, by decide, by decide⟩, by decide, by decide⟩

/-- `a/b` is not made in `a`. -/
theorem not_makesDirectories : ¬ ∀ (host : Host) (s : State) (fd : UInt32) (d : FileId)
    (n : Name) (names : List Name), Reachable host s → OpenOn s fd d → (s.files d).writable →
    (∀ m ∈ n :: names, NewName m) → s.tree.lookup d n = none →
    MakesDirectories host s fd d (n :: names) := by
  intro hall
  obtain ⟨s, replies, hok, ho, hdir, hlinked, hw, hfree, s', replies', hrun, r, hr, hfails⟩ :
      Returns (afterRun [.path_open atFdCwd [slash] 0]) fun s _ =>
        (FileTable.getEntry s (3 : UInt32).toNat).map (fun o => (s.descriptions o).file) =
          some Init.root ∧
        (s.files Init.root).isDirectory ∧ s.getParent Init.root ≠ none ∧
        (s.files Init.root).writable ∧ s.tree.lookup Init.root [97] = none ∧
        Returns (run .still s (makeDirectories 3 [[97], [98]])) fun _ replies =>
          ∃ r ∈ replies, r.errno ≠ 0 := by
    decide +kernel
  have hnew : ∀ m ∈ [[97], [98]], NewName m := by
    intro m hm
    simp only [List.mem_cons, List.not_mem_nil, or_false] at hm
    rcases hm with rfl | rfl <;>
      exact ⟨⟨by decide, by decide, by decide⟩, by decide, by decide⟩
  obtain ⟨s₂, replies₂, dirs, hrun₂, hsucceeds, -⟩ := hall .still s 3 Init.root [97] [[98]]
    (.of_afterRun hok) (.of_map ho hdir hlinked) hw hnew hfree
  cases hrun.symm.trans hrun₂
  exact hfails (hsucceeds r hr)

end WasmFS
