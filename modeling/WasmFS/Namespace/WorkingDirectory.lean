import Mathlib.Algebra.GroupWithZero.Nat
import WasmFS.Namespace.MakingDirectories
import WasmFS.Namespace.Removing
import WasmFS.Namespace.StartingPoints
import WasmFS.Source.WorkingDirectory

/-!
# The path of the working directory

`getcwd` answers the names on the way from the root down to the working directory.
The answer leads back: `chdir` to it ends in the same directory, whatever the working
directory is by then (`getcwd_leads_back`).  It exists just when the working directory
has not been removed.

The path is copied as a C string.  No name has a NUL in it, since every name that is
stored is the last segment of a C string (`Reachable.textNames`).
-/

namespace WasmFS

/-! ## Names without NUL -/

/-- No child has a NUL in its name. -/
def Tree.TextNames (t : Tree) : Prop := ∀ d n c, t.forest.edge d n c → 0 ∉ n

theorem zero_notMem_cstr (memory : List UInt8) : 0 ∉ cstr memory := by
  intro h
  have hne := List.mem_takeWhile_imp h
  exact absurd hne (by decide)

theorem mem_of_mem_leafName {path : Name} {b : UInt8} (h : b ∈ Path.leafName path) :
    b ∈ path := by
  rw [Path.leafName, List.mem_reverse] at h
  exact List.mem_reverse.mp (List.takeWhile_sublist _ |>.mem h)

theorem mem_of_mem_stripTrailing {path : Name} {b : UInt8} (h : b ∈ Path.stripTrailing path) :
    b ∈ path := by
  rw [Path.stripTrailing, List.mem_reverse] at h
  exact List.mem_reverse.mp (List.dropWhile_sublist _ |>.mem h)

/-- The leaf of a C string has no NUL. -/
theorem Path.parseParent_text {s : State} {memory : List UInt8} {basefd : Nat} {parent : FileId}
    {leaf : Name} (hok : (parseParent s (cstr memory) basefd).2 = .ok (parent, leaf)) :
    0 ∉ leaf := by
  rcases parseParent_leafName hok with ⟨-, rfl⟩ | rfl
  · decide
  · exact fun h => zero_notMem_cstr memory (mem_of_mem_stripTrailing (mem_of_mem_leafName h))

theorem Change.textNames_apply {t : Tree} (h : t.WF) (hnames : t.TextNames) {change : Change}
    (hc : change.Allowed t) (hstores : ∀ {n}, change.Stores n → 0 ∉ n) :
    (change.apply t).TextNames := by
  intro d n c he
  rw [forest_apply h hc] at he
  rcases stores_of_new_edge he with he | hn
  · exact hnames d n c he
  · exact hstores hn

theorem Start.textNames : tree.TextNames := by
  intro d n c he
  have hall : ∀ d, ∀ e ∈ (tree.node d).children, (0 : UInt8) ∉ e.1 :=
    forall_node (P := fun _ x => ∀ e ∈ x.children, (0 : UInt8) ∉ e.1)
      (by decide +kernel) fun _ e he => absurd he (absent_children ▸ List.not_mem_nil)
  exact hall d _ he

section

variable {host : Host} {s s' : State} {r : Reply}

/-- A change that stores no name with a NUL. -/
structure StoresText (s s' : State) (change : Change) : Prop where
  allowed : change.Allowed s.tree
  tree : s'.tree = change.apply s.tree
  text : ∀ {n}, change.Stores n → 0 ∉ n

theorem StoresText.of_inserted (host : Host) (h : s.tree.WF) {path : Name} {dirfd : Nat}
    {parent : FileId} {leaf : Name} (hi : Syscall.Insertable s path dirfd parent leaf)
    (htext : 0 ∉ leaf) {body : Body} {mode : Nat}
    (hx : NewFile (s.files parent).backend (newNode body mode (s.files parent).backend))
    (hs' : s'.tree = (Directory.inserted host s parent leaf body mode).tree) :
    ∃ change, StoresText s s' change := by
  refine ⟨.create parent leaf (newNode body mode (s.files parent).backend), hi.creates h hx,
    hs'.trans (Directory.tree_inserted host s parent leaf body mode), ?_⟩
  rintro n rfl
  exact htext

theorem symlinkat_text (h : s.tree.WF) {target : Name} {linkpath : List UInt8} {newdirfd : Nat}
    {ret : Int} (hok : Syscall.symlinkat host s target newdirfd (cstr linkpath) = .ok (s', ret)) :
    ∃ change, StoresText s s' change := by
  rcases Syscall.symlinkat_cases h host target newdirfd (cstr linkpath) with
    ⟨e, he⟩ | hfault | ⟨parent, leaf, hi, hlen, hins⟩
  · rw [he] at hok
    cases hok
    exact ⟨.none, trivial, rfl, False.elim⟩
  · rw [hfault] at hok
    cases hok
  · rw [hins] at hok
    cases hok
    exact StoresText.of_inserted host h hi (Path.parseParent_text hi.parsed)
      (Or.inr (Or.inr ⟨_, rfl⟩)) rfl

theorem unlinkat_text (h : s.tree.WF) (host : Host) (dirfd : Nat) (path : Name)
    (removeDir : Bool) :
    ∃ change, StoresText s (Syscall.unlinkat host s dirfd path removeDir).1 change := by
  rcases Syscall.unlinkat_cases h host dirfd path removeDir with
    ⟨e, he⟩ | ⟨parent, leaf, file, hr, hunlink⟩
  · rw [he]
    exact ⟨.none, trivial, rfl, False.elim⟩
  · rw [hunlink]
    obtain ⟨change, hallowed, rfl | rfl, ht⟩ := hr.change h host
    · exact ⟨.none, hallowed, ht, False.elim⟩
    · exact ⟨.unlink parent leaf file, hallowed, ht, False.elim⟩

/-- No call stores a name with a NUL. -/
theorem exec_text {c : Call} (h : s.tree.WF) (hok : exec host s c = .ok (s', r)) :
    ∃ change, StoresText s s' change := by
  have hsame : s'.tree = s.tree → ∃ change, StoresText s s' change := fun ht =>
    ⟨.none, trivial, ht, False.elim⟩
  by_cases hc : c.keepsSkeleton
  · exact hsame (exec_skeleton h hc hok).tree
  cases c with
  | fd_close fd =>
      obtain ⟨ret, hclose, -⟩ := Export.fd_close_ok hok
      exact hsame (Syscall.close_sameFiles hclose).tree
  | fd_renumber fd dest =>
      obtain ⟨ret, hdup, -⟩ := Export.fd_renumber_ok hok
      exact hsame (Syscall.dup3_sameFiles hdup).tree
  | path_create_directory fd path =>
      simp only [exec, Export.path_create_directory] at hok
      rcases Syscall.mkdirat_cases h host host.dirfd.toNat (cstr path) (S_IRUGO ||| S_IXUGO) with
        ⟨e, he⟩ | ⟨parent, leaf, hi, -, hins⟩
      · rw [he] at hok
        cases hok
        exact hsame rfl
      · rw [hins] at hok
        cases hok
        have hx : NewFile (s.files parent).backend
            (newNode (.directory [] []) (S_IRUGO ||| S_IXUGO ||| S_IFDIR)
              (s.files parent).backend) := Or.inr (Or.inl rfl)
        exact StoresText.of_inserted host h hi (Path.parseParent_text hi.parsed) hx rfl
  | path_link oldFd oldPath newFd newPath =>
      obtain ⟨ret, hs, -⟩ := Export.path_link_ok oldFd hok
      exact symlinkat_text h hs
  | path_symlink oldPath fd newPath =>
      obtain ⟨ret, hs, -⟩ := Export.path_symlink_ok hok
      exact symlinkat_text h hs
  | path_open dirfd path oflags =>
      obtain ⟨ret, hopen, rfl⟩ := Export.path_open_ok hok
      rcases Syscall.openat2_cases h host dirfd.toNat (cstr path) oflags.toNat 0 with
        ⟨e, s₂, he, hun⟩ | ⟨parent, leaf, c, child, -, -, hadd⟩ | ⟨parent, leaf, hi, -, hadd⟩
      · rw [he] at hopen
        cases hopen
        exact hsame hun.unchanged.sameFiles.tree
      · rw [hadd] at hopen
        exact hsame ((FileTable.addEntry_sameFiles hopen).tree.trans
          (Syscall.opened_tree s child oflags.toNat))
      · rw [hadd] at hopen
        refine StoresText.of_inserted host h hi (Path.parseParent_text hi.parsed) (Or.inl rfl) ?_
        exact (FileTable.addEntry_sameFiles hopen).tree.trans
          (OpenFileState.create_sameFiles _ _ _).tree
  | path_rename oldFd oldPath newFd newPath =>
      obtain ⟨ret, hren, rfl⟩ := Export.path_rename_ok hok
      rcases Syscall.renameat_ok h hren with
        ⟨rfl, -⟩ | ⟨oldParent, oldLeaf, newParent, newLeaf, file, hnames, -,
          ⟨-, rfl⟩ | ⟨p, hm, rfl⟩⟩
      · exact hsame rfl
      · exact hsame rfl
      obtain ⟨-, hp', -⟩ := hnames
      obtain ⟨hdir', hseg⟩ := Path.parseParent_leaf h hp'
      have hmoves := hm.moves h hdir' hseg
      refine ⟨.move p file newParent newLeaf (Syscall.displaced s newParent newLeaf), hmoves,
        Syscall.tree_moved h host hmoves, ?_⟩
      rintro n rfl
      exact Path.parseParent_text hp'
  | path_remove_directory fd path =>
      have hs := unlinkat_text h host fd.toNat (cstr path) true
      simp only [exec, Export.path_remove_directory] at hok
      cases hok
      exact hs
  | path_unlink_file dirfd path =>
      have hs := unlinkat_text h host dirfd.toNat (cstr path) false
      simp only [exec, Export.path_unlink_file] at hok
      cases hok
      exact hs
  | _ => exact absurd rfl hc

/-- No name that is stored has a NUL in it. -/
theorem Reachable.textNames (h : Reachable host s) : s.tree.TextNames := by
  have hinv : s.tree.WF ∧ s.tree.TextNames := by
    refine h.invariant (I := fun s => s.tree.WF ∧ s.tree.TextNames) ?_ ?_
    · rw [tree_init]
      exact ⟨Start.tree_wf, Start.textNames⟩
    · intro s c s' hs _ hstep
      obtain ⟨r, hok⟩ := hstep
      obtain ⟨change, hchange⟩ := exec_text hs.1 hok
      rw [hchange.tree]
      exact ⟨Change.wf_apply hs.1 hchange.allowed,
        Change.textNames_apply hs.1 hs.2 hchange.allowed hchange.text⟩
  exact hinv.2

end

/-! ## The state with another working directory -/

/-- The state, with the working directory `d`. -/
def State.withCwd (s : State) (d : FileId) : State := { s with cwd := d }

section

variable {s t : State} {d e : FileId}

@[simp] theorem State.withCwd_cwd : (s.withCwd d).cwd = d := rfl
@[simp] theorem State.withCwd_files : (s.withCwd d).files = s.files := rfl
@[simp] theorem State.withCwd_withCwd : (s.withCwd d).withCwd e = s.withCwd e := rfl

theorem SameNamespace.withCwd : SameNamespace s (s.withCwd d) := ⟨rfl, rfl⟩

theorem State.Walk.withCwd {names : List Name} {f : FileId} (h : s.Walk d names f) :
    (s.withCwd e).Walk d names f := by
  induction h with
  | nil => exact .nil
  | cons hc _ ih => exact .cons hc ih

theorem Directory.getChild_withCwd (f : FileId) (name : Name) :
    (getChild (s.withCwd e) f name).1 = (getChild s f name).1.withCwd e := by
  have hparent : (s.withCwd e).getParent f = s.getParent f := rfl
  have hchild : MemoryDirectory.getChild (s.withCwd e) f name = MemoryDirectory.getChild s f name :=
    rfl
  simp only [getChild, hparent, hchild, State.withCwd_files]
  cases s.getParent f with
  | none => rfl
  | some parent =>
      simp only
      split
      · rfl
      split
      · rfl
      cases (s.files f).dcache.lookup name with
      | some entry => rfl
      | none =>
          cases MemoryDirectory.getChild s f name with
          | none => rfl
          | some child => rfl

namespace Path

/-- A lookup leaves the state alone, whatever the working directory is. -/
theorem getChild_withCwd_pure (h : s.tree.WF) {s' : State} (d : FileId) (name : Name)
    (hs : s' = s.withCwd e) : (Directory.getChild s' d name).1 = s.withCwd e := by
  rw [hs, Directory.getChild_withCwd, Directory.getChild_eq h]

theorem parseFile_withCwd (h : s.tree.WF) (path : Name) (links : LinkBehavior) :
    parseFile (s.withCwd e) path AT_FDCWD links =
      (s.withCwd e, (doParseFile s path e links 0).2.2) := by
  refine Prod.ext (parseFile_keeps (P := (· = s.withCwd e)) (getChild_withCwd_pure h) path
    AT_FDCWD links rfl) ?_
  have hagree := doParseFileWith_agree (parseTarget_agree MAX_RECURSIONS)
    (SameNamespace.withCwd (s := s) (d := e)) path e links 0
  simp only [parseFile, getBaseDir, if_true, State.withCwd_cwd, doParseFile, hagree.results]

end Path

namespace Syscall

/-- The states after calls of `chdir` and `fchdir`. -/
inductive Moves (s : State) : State → Prop where
  | refl : Moves s s
  | chdir {t : State} {path : List UInt8} : Moves s t → Moves s (chdir t path).1
  | fchdir {t : State} {fd : Nat} : Moves s t → Moves s (fchdir t fd).1

theorem doChdir_withCwd (f : FileId) : ∃ d, (doChdir (s.withCwd e) f).1 = s.withCwd d ∧
    ((s.files e).isDirectory → (s.files d).isDirectory) := by
  unfold doChdir
  split
  · rename_i hdir
    exact ⟨f, rfl, fun _ => hdir⟩
  · exact ⟨e, rfl, id⟩

/-- They change the working directory only, which stays a directory. -/
theorem Moves.withCwd (h : s.tree.WF) (ht : Moves s t) :
    ∃ d, t = s.withCwd d ∧ (s.files d).isDirectory := by
  induction ht with
  | refl =>
      have hroot : (s.tree.node s.tree.cwd).isDirectory := h.cwd_root ▸ h.root_directory
      rw [State.tree_node, File.node_isDirectory] at hroot
      exact ⟨s.cwd, rfl, hroot⟩
  | @chdir t path _ ih =>
      obtain ⟨d, rfl, hd⟩ := ih
      simp only [Syscall.chdir, Path.parseFile_withCwd h]
      cases (Path.doParseFile s (cstr path) d .followLinks 0).2.2 with
      | error _ => exact ⟨d, rfl, hd⟩
      | ok file =>
          obtain ⟨d', heq, hkeeps⟩ := doChdir_withCwd (s := s) (e := d) file
          exact ⟨d', heq, hkeeps hd⟩
  | @fchdir t fd _ ih =>
      obtain ⟨d, rfl, hd⟩ := ih
      unfold Syscall.fchdir
      cases FileTable.getEntry (s.withCwd d) fd with
      | none => exact ⟨d, rfl, hd⟩
      | some o =>
          obtain ⟨d', heq, hkeeps⟩ := doChdir_withCwd (s := s) (e := d)
            ((s.withCwd d).descriptions o).file
          exact ⟨d', heq, hkeeps hd⟩

/-! ## The way up -/

theorem climb_withCwd (fuel : Nat) (curr : FileId) (result : Name) :
    climb (s.withCwd e) fuel curr result = climb s fuel curr result := by
  induction fuel generalizing curr result with
  | zero => rfl
  | succ fuel ih =>
      have hparent : (s.withCwd e).getParent curr = s.getParent curr := rfl
      have hroot : (s.withCwd e).rootDirectory = s.rootDirectory := rfl
      simp only [climb, hparent, hroot, ih]
      rfl

/-- The name that a directory has for a child that is an entry. -/
theorem getName_of_entry (h : s.tree.WF) {p c : FileId} {n : Name}
    (he : (n, c) ∈ (s.files p).entries) : Directory.getName s p c = n := by
  unfold Directory.getName MemoryDirectory.getName
  cases hfind : (s.files p).entries.find? fun e => e.2 == c with
  | none =>
      have hnone := List.find?_eq_none.mp hfind (n, c) he
      simp at hnone
  | some e =>
      have hmem := List.mem_of_find?_eq_some hfind
      have hc : e.2 = c := by simpa using List.find?_some hfind
      have hedge : ∀ {m}, (m, c) ∈ (s.files p).entries → s.tree.forest.edge p m c := fun hm =>
        State.mem_children_iff.mp (List.mem_append_left _ hm)
      have hn : e.1 = n := h.forest.name_unique (hedge (hc ▸ hmem)) (hedge he)
      rw [Option.map_some, Option.getD_some, hn]

/-- From a linked directory the loop climbs to the root and collects the names. -/
theorem climb_of_up (h : s.tree.WF) {k fuel : Nat} {f : FileId} (hf : (s.files f).isDirectory)
    (hk : s.tree.forest.up k f = some s.rootDirectory) (hfuel : k < fuel) (result : Name) :
    ∃ names, s.Walk s.rootDirectory names f ∧
      climb s fuel f result = .atRoot (names.flatMap (slash :: ·) ++ result) := by
  induction k generalizing f fuel result with
  | zero =>
      obtain ⟨fuel, rfl⟩ := Nat.exists_eq_add_of_lt hfuel
      cases hk
      exact ⟨[], .nil, if_pos rfl⟩
  | succ k ih =>
      obtain ⟨fuel, rfl⟩ := Nat.exists_eq_succ_of_ne_zero (Nat.ne_zero_of_lt hfuel)
      by_cases hroot : f = s.rootDirectory
      · subst hroot
        exact ⟨[], .nil, if_pos rfl⟩
      rw [Forest.up, Option.bind_eq_some_iff] at hk
      obtain ⟨p, hp, hk⟩ := hk
      obtain ⟨n, he⟩ := h.forest.parent_edge hp hroot
      have hentry : (n, f) ∈ (s.files p).entries := by
        have hdir : (s.tree.node f).isDirectory := by
          rw [State.tree_node, File.node_isDirectory]
          exact hf
        have hmem := h.entries_of_isDirectory hdir he
        rwa [State.tree_node, File.node_entries] at hmem
      have hpdir : (s.files p).isDirectory := by
        have hnode := h.isDirectory_of_parent hp
        rwa [State.tree_node, File.node_isDirectory] at hnode
      obtain ⟨names, hw, hclimb⟩ := ih hpdir hk (Nat.lt_of_succ_lt_succ hfuel)
        (slash :: n ++ result)
      have hparent : s.getParent f = some p := hp
      refine ⟨names ++ [n], hw.snoc (State.mem_children_iff.mpr he), ?_⟩
      simp only [climb, if_neg hroot, hparent, getName_of_entry h hentry]
      rw [hclimb, List.flatMap_append, List.append_assoc]
      simp

/-- From a removed directory it ends at once. -/
theorem climb_of_unlinked (h : s.tree.WF) (fuel : Nat) {f : FileId} (hf : s.getParent f = none)
    (result : Name) : climb s (fuel + 1) f result = .unlinked := by
  have hroot : f ≠ s.rootDirectory := by
    rintro rfl
    exact h.forest.root_linked hf
  simp only [climb, if_neg hroot, hf]

theorem climb_of_linked (h : s.tree.WF) {f : FileId} (hf : (s.files f).isDirectory)
    (hlinked : s.getParent f ≠ none) :
    ∃ names, s.Walk s.rootDirectory names f ∧
      climb s (s.next + 1) f [] = .atRoot (names.flatMap (slash :: ·)) := by
  obtain ⟨k, hlt, hk⟩ := h.forest.exists_up_lt (S := Finset.range s.next)
    (fun hy => Finset.mem_range.mpr (h.lt_next_of_linked hy)) hlinked
  rw [Finset.card_range] at hlt
  obtain ⟨names, hw, hclimb⟩ := climb_of_up h hf hk (Nat.lt_succ_of_lt hlt) []
  exact ⟨names, hw, hclimb.trans (by rw [List.append_nil])⟩

/-! ## The copy -/

theorem flatMap_slash_or (names : List Name) :
    (if names.flatMap (slash :: ·) = [] then [slash] else names.flatMap (slash :: ·)) =
      absolutePath names := by
  cases names <;> rfl

theorem zero_notMem_absolutePath (htext : s.tree.TextNames) {names : List Name} {f : FileId}
    (hw : s.Walk d names f) : 0 ∉ absolutePath names := by
  have hnames : ∀ n ∈ names, (0 : UInt8) ∉ n := by
    induction hw with
    | nil =>
        intro n hn
        cases hn
    | cons hc _ ih =>
        intro n hn
        rcases List.mem_cons.mp hn with rfl | hn
        · exact htext _ _ _ (State.mem_children_iff.mp hc)
        · exact ih n hn
  intro hzero
  cases names with
  | nil => exact absurd hzero (by decide)
  | cons n names =>
      obtain ⟨m, hm, hmem⟩ := List.mem_flatMap.mp hzero
      rcases List.mem_cons.mp hmem with hslash | hmem
      · exact absurd hslash (by decide)
      · exact hnames m hm hmem

/-- A path that has no NUL and is not too long is copied whole, into a buffer that is
longer than the path and its NUL. -/
theorem copyPath_of_text {names : List Name} (htext : 0 ∉ absolutePath names)
    (hlen : (absolutePath names).length + 1 < 2 ^ 31) (size : Nat) :
    copyPath (names.flatMap (slash :: ·)) size =
      if (absolutePath names).length + 1 < size then
        (((absolutePath names).length : Int) + 1, absolutePath names ++ [0])
      else (-ERANGE, []) := by
  have hs : s32 (((absolutePath names).length : Int) + 1) = (absolutePath names).length + 1 :=
    s32_of_lt hlen
  have hu : u32 (((absolutePath names).length : Int) + 1) = (absolutePath names).length + 1 :=
    u32_of_lt (n := (absolutePath names).length + 1) (by omega)
  simp only [copyPath, flatMap_slash_or, cstr_of_no_zero htext, hs, hu]
  by_cases hfits : (absolutePath names).length + 1 < size
  · rw [if_pos hfits, if_neg (Nat.not_le.mpr hfits)]
  · rw [if_neg hfits, if_pos (Nat.not_lt.mp hfits)]

end Syscall

/-! ## The way back -/

/-- A lookup that finds a directory has no link to follow. -/
theorem Path.getChildWith_directory {parse : TargetParser} {s' : State} {dir f : FileId}
    {name : Name} {recursions recursions' : Nat} (hf : (s'.files f).isDirectory)
    (hok : getChildWith parse s dir name .noFollowLinks recursions = (s', recursions', .ok f)) :
    getChildWith parse s dir name .followLinks recursions = (s', recursions', .ok f) := by
  have htarget : (s'.files f).target? = none := by
    unfold File.isDirectory File.kind at hf
    unfold File.target?
    cases hb : (s'.files f).body <;> simp_all
  unfold getChildWith at hok ⊢
  rcases hget : Directory.getChild s dir name with ⟨s₁, _ | child⟩
  · rw [hget] at hok
    cases hok
  · rw [hget] at hok
    simp only [if_true] at hok
    cases hok
    simp only [reduceCtorEq, if_false]
    unfold followLinks
    rw [htarget]

/-- The path of a directory resolves to it, with links followed too. -/
theorem Path.doParseFile_directory (h : s.tree.WF) (hnames : s.tree.ProperNames) {f : FileId}
    (hf : (s.files f).isDirectory) {names : List Name} (hw : s.Walk s.rootDirectory names f)
    (base : FileId) :
    (doParseFile s (absolutePath names) base .followLinks 0).2.2 = .ok f := by
  have hnofollow := doParseFile_walk h hnames hw base
  unfold doParseFile doParseFileWith at hnofollow ⊢
  rcases hparent : doParseParentWith (parseTarget MAX_RECURSIONS) s (absolutePath names) base 0
    with ⟨s₁, recursions, _ | ⟨parent, leaf⟩⟩
  · rw [hparent] at hnofollow
    cases hnofollow
  · rw [hparent] at hnofollow
    simp only at hnofollow ⊢
    rw [getChildWith_directory hf hnofollow]

/-- `chdir` to the path of a directory ends there, wherever it starts. -/
theorem Syscall.chdir_absolutePath (h : s.tree.WF) (hnames : s.tree.ProperNames)
    (htext : s.tree.TextNames) {f : FileId} (hf : (s.files f).isDirectory) {names : List Name}
    (hw : s.Walk s.rootDirectory names f) :
    Syscall.chdir (s.withCwd e) (absolutePath names ++ [0]) = (s.withCwd f, 0) := by
  have hzero := Syscall.zero_notMem_absolutePath htext hw
  have hpath : cstr (absolutePath names ++ [0]) = absolutePath names := by
    unfold cstr
    rw [List.takeWhile_append_of_pos]
    · simp
    · intro c hc
      exact bne_iff_ne.mpr fun h0 => hzero (h0 ▸ hc)
  unfold Syscall.chdir
  rw [hpath, Path.parseFile_withCwd h, Path.doParseFile_directory h hnames hf hw]
  exact if_pos hf

/-- What `getcwd` has to do with the directory `t.cwd` of a state `t` of the run: there is
no path when it has been removed; otherwise the path names it, and `chdir` to what has been
written leads back to it from any working directory. -/
structure LeadsBack (s t : State) : Prop where
  unlinked : t.getParent t.cwd = none → ∀ size, 0 < size →
    Syscall.getcwd t true size = .ok (Errno.noent.neg, [])
  linked : t.getParent t.cwd ≠ none → ∃ names, t.Walk t.rootDirectory names t.cwd ∧
    ((absolutePath names).length + 1 < 2 ^ 31 → ∀ size, 0 < size →
      (size.toNat ≤ (absolutePath names).length + 1 →
        Syscall.getcwd t true size = .ok (-Syscall.ERANGE, [])) ∧
      ((absolutePath names).length + 1 < size.toNat →
        Syscall.getcwd t true size =
          .ok ((absolutePath names).length + 1, absolutePath names ++ [0]) ∧
        ∀ u, Syscall.Moves s u → Syscall.chdir u (absolutePath names ++ [0]) = (t, 0)))

/-- Without a rename to `.` every stored name is proper. -/
theorem properNames_of_run {host : Host}
    (h : ReachableBy host (fun s c => ¬ RenamesToDot s c) s) : s.tree.ProperNames := by
  have hinv : s.tree.WF ∧ s.tree.ProperNames := by
    refine h.invariant (I := fun s => s.tree.WF ∧ s.tree.ProperNames) ?_ ?_
    · rw [tree_init]
      exact ⟨Start.tree_wf, Start.properNames⟩
    · intro s c s' hs hno hstep
      obtain ⟨r, hok⟩ := hstep
      obtain ⟨change, hchange⟩ := exec_change hs.1 hok
      rw [hchange.tree]
      exact ⟨Change.wf_apply hs.1 hchange.allowed, Change.properNames_apply hs.1 hs.2
        hchange.allowed fun hdot => hno (hchange.storesDot hdot)⟩
  exact fun d n c he => hinv.2 he

/-- The answer of `getcwd`, by how its loop ends. -/
theorem Syscall.getcwd_of_climb {size : UInt32} (hpos : 0 < size) {climbed : Climb}
    (hclimb : climb s (s.next + 1) d [] = climbed) :
    (climbed = .unlinked → getcwd (s.withCwd d) true size = .ok (Errno.noent.neg, [])) ∧
      ∀ result, climbed = .atRoot result →
        getcwd (s.withCwd d) true size = .ok (copyPath result size.toNat) := by
  have hzero : ¬ size = 0 := by
    intro hzero
    rw [hzero] at hpos
    exact absurd hpos (by decide)
  have hnext : (s.withCwd d).next = s.next := rfl
  have hclimb' : climb (s.withCwd d) ((s.withCwd d).next + 1) d [] = climbed := by
    rw [climb_withCwd, hnext]
    exact hclimb
  constructor
  · rintro rfl
    simp [getcwd, hzero, hclimb']
  · rintro result rfl
    simp [getcwd, hzero, hclimb']

/-- In a run that never renames a directory to `.` in an empty one, `getcwd` leads back,
after any calls of `chdir` and `fchdir`. -/
theorem getcwd_leads_back {host : Host} (h : ReachableBy host (fun s c => ¬ RenamesToDot s c) s)
    (ht : Syscall.Moves s t) : LeadsBack s t := by
  have hreach : Reachable host s := h.mono fun _ => trivial
  have hwf := hreach.wf
  obtain ⟨d, rfl, hd⟩ := ht.withCwd hwf
  refine ⟨fun hnone size hpos => ?_, fun hlinked => ?_⟩
  · have hclimb := Syscall.climb_of_unlinked hwf s.next hnone []
    exact (Syscall.getcwd_of_climb hpos hclimb).1 rfl
  · obtain ⟨names, hw, hclimb⟩ := Syscall.climb_of_linked hwf hd hlinked
    refine ⟨names, hw.withCwd, fun hlen size hpos => ?_⟩
    have hcopy := Syscall.copyPath_of_text
      (Syscall.zero_notMem_absolutePath hreach.textNames hw) hlen size.toNat
    have hanswer := (Syscall.getcwd_of_climb hpos hclimb).2 _ rfl
    rw [hcopy] at hanswer
    refine ⟨fun hshort => ?_, fun hfits => ⟨?_, fun u hu => ?_⟩⟩
    · rwa [if_neg (Nat.not_lt.mpr hshort)] at hanswer
    · rwa [if_pos hfits] at hanswer
    · obtain ⟨e, rfl, -⟩ := hu.withCwd hwf
      exact Syscall.chdir_absolutePath hwf (properNames_of_run h) hreach.textNames hd hw

theorem getcwd_leads_back_tmp :
    ∃ s replies, afterRun [.path_open atFdCwd [slash] 0,
      .path_create_directory 3 [116, 109, 112, slash, 97]] = .ok (s, replies) ∧
    LeadsBack s (Syscall.chdir s [slash, 116, 109, 112, slash, 97, 0]).1 ∧
    (Syscall.getcwd (Syscall.chdir s [slash, 116, 109, 112, slash, 97, 0]).1 true 16).toOption =
      some (7, [slash, 116, 109, 112, slash, 97, 0]) := by
  obtain ⟨s, replies, hok, hcwd⟩ : Returns (afterRun [.path_open atFdCwd [slash] 0,
      .path_create_directory 3 [116, 109, 112, slash, 97]]) fun s _ =>
        (Syscall.getcwd (Syscall.chdir s [slash, 116, 109, 112, slash, 97, 0]).1 true 16).toOption =
          some (7, [slash, 116, 109, 112, slash, 97, 0]) := by
    decide +kernel
  refine ⟨s, replies, hok, getcwd_leads_back (.of_afterRun ?_ hok) (.chdir .refl), hcwd⟩
  intro c hc s
  simp only [List.mem_cons, List.not_mem_nil, or_false] at hc
  rcases hc with rfl | rfl <;> exact id

end

end WasmFS
