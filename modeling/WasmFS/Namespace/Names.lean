import WasmFS.Namespace.TreeInvariant

/-!
# Stored names can be looked up

A name is *proper* if it is a segment other than `.` and `..`.  The checks of every
call keep improper names out of the directories, but one.  A rename of a directory
to `.` in an empty directory stores the name `.` (`RenamesToDot`), and then no
lookup finds the directory again.

In a run without such a rename all stored names are proper.  So each of them is
found by a lookup, and the names on the way down to a file make up a path that
resolves to it (`Walk.resolves`).
-/

namespace WasmFS

/-- A segment that is neither `.` nor `..`. -/
structure Proper (n : Name) : Prop where
  segment : Segment n
  ne_dot : n ≠ dot
  ne_dotdot : n ≠ dotdot

/-- Every child has a proper name. -/
def Tree.ProperNames (t : Tree) : Prop := ∀ {d n c}, t.forest.edge d n c → Proper n

/-- No child has a name that is too long. -/
def Tree.ShortNames (t : Tree) : Prop :=
  ∀ {d n c}, t.forest.edge d n c → n.length ≤ WASMFS_NAME_MAX

/-! ## Changes keep names proper and short -/

namespace Change

variable {t : Tree}

/-- The names that a change stores. -/
def Stores (n : Name) : Change → Prop
  | .create _ name _ => name = n
  | .move _ _ _ name _ => name = n
  | _ => False

theorem stores_of_new_edge {change : Change} {next : FileId} {F : Forest FileId Name} {d c : FileId}
    {n : Name} (h : (change.applyForest next F).edge d n c) : F.edge d n c ∨ change.Stores n := by
  cases change with
  | none => exact Or.inl h
  | create d' name x =>
      rcases h with h | ⟨-, rfl, -⟩
      · exact Or.inl h
      · exact Or.inr rfl
  | unlink d' name x => exact Or.inl h.1
  | move p x d' name displaced =>
      cases displaced with
      | none =>
          rcases h with ⟨h, -⟩ | ⟨-, rfl, -⟩
          · exact Or.inl h
          · exact Or.inr rfl
      | some x' =>
          rcases h with ⟨⟨h, -⟩, -⟩ | ⟨-, rfl, -⟩
          · exact Or.inl h
          · exact Or.inr rfl

/-- An allowed change stores a proper name or the name `.`. -/
theorem proper_of_stores (h : t.WF) {change : Change} (hc : change.Allowed t)
    (hdot : ¬ change.StoresDot) {n : Name} (hn : change.Stores n) : Proper n := by
  cases change with
  | create d name x =>
      cases hn
      obtain ⟨hne, hne', -⟩ := h.free_of_lookup_eq_none hc.linked hc.free
      exact ⟨hc.segment, hne, hne'⟩
  | move p c d name displaced =>
      cases hn
      exact ⟨hc.segment, hdot, hc.ne_dotdot⟩
  | none | unlink => exact hn.elim

theorem properNames_apply (h : t.WF) (hnames : t.ProperNames) {change : Change}
    (hc : change.Allowed t) (hdot : ¬ change.StoresDot) : (change.apply t).ProperNames := by
  intro d n c he
  rw [forest_apply h hc] at he
  rcases stores_of_new_edge he with he | hn
  · exact hnames he
  · exact proper_of_stores h hc hdot hn

theorem length_of_stores {change : Change} (hc : change.Allowed t) {n : Name}
    (hn : change.Stores n) : n.length ≤ WASMFS_NAME_MAX := by
  cases change with
  | create d name x =>
      cases hn
      exact Creates.length hc
  | move p c d name displaced =>
      cases hn
      exact Moves.length hc
  | none | unlink => exact hn.elim

theorem shortNames_apply (h : t.WF) (hnames : t.ShortNames) {change : Change}
    (hc : change.Allowed t) : (change.apply t).ShortNames := by
  intro d n c he
  rw [forest_apply h hc] at he
  rcases stores_of_new_edge he with he | hn
  · exact hnames he
  · exact length_of_stores hc hn

/-- A file that an allowed change unlinks is one that it removes. -/
theorem removes_of_unlinked (h : t.WF) {change : Change} (hc : change.Allowed t) {f : FileId}
    (hf : t.forest.Linked f) (hf' : ¬ (change.apply t).forest.Linked f) :
    ∃ d n, t.forest.edge d n f ∧ change.Removes d n f := by
  have hparent : (change.applyForest t.next t.forest).parent f = Option.none := by
    rw [← forest_apply h hc]
    exact not_not.mp hf'
  cases change with
  | none => exact absurd hparent hf
  | create d name x =>
      have hne := h.ne_next_of_linked hf
      exact absurd ((t.forest.link_parent_of_ne d name hne).symm.trans hparent) hf
  | unlink d name c =>
      by_cases hfc : f = c
      · subst hfc
        exact ⟨d, name, Unlinks.edge hc h, rfl, rfl, rfl⟩
      · exact absurd ((t.forest.unlink_parent_of_ne hfc).symm.trans hparent) hf
  | move p c d name displaced =>
      have hfc : f ≠ c := by
        intro hfc
        subst hfc
        cases displaced <;> exact absurd ((Forest.move_parent_self _ f d name).symm.trans hparent)
          (Option.some_ne_none d)
      cases displaced with
      | none => exact absurd ((t.forest.move_parent_of_ne d name hfc).symm.trans hparent) hf
      | some c' =>
          have hp := ((t.forest.unlink c').move_parent_of_ne d name hfc).symm.trans hparent
          by_cases hfc' : f = c'
          · subst hfc'
            exact ⟨d, name, Moves.displaced_edge hc h, rfl, rfl, rfl⟩
          · exact absurd ((t.forest.unlink_parent_of_ne hfc').symm.trans hp) hf

end Change

/-! ## Walking down stored names -/

/-- The stored names `names` lead from `d` down to `f`. -/
inductive State.Walk (s : State) : FileId → List Name → FileId → Prop where
  | nil {d : FileId} : Walk s d [] d
  | cons {d c f : FileId} {n : Name} {names : List Name} :
      (n, c) ∈ s.children d → Walk s c names f → Walk s d (n :: names) f

/-- The absolute path made of these names. -/
def absolutePath : List Name → Name
  | [] => [slash]
  | names => names.flatMap (slash :: ·)

theorem State.Walk.snoc {s : State} {d p c : FileId} {names : List Name} {n : Name}
    (h : s.Walk d names p) (hc : (n, c) ∈ s.children p) : s.Walk d (names ++ [n]) c := by
  induction h with
  | nil => exact .cons hc .nil
  | cons he _ ih => exact .cons he (ih hc)

/-- Stored names lead from the root to every linked file. -/
theorem State.exists_walk {s : State} (h : s.tree.WF) {f : FileId} (hf : s.tree.forest.Linked f) :
    ∃ names, s.Walk s.rootDirectory names f := by
  have hrooted := h.forest.rooted hf
  induction hrooted with
  | refl => exact ⟨[], .nil⟩
  | @step x p hp hrooted ih =>
      obtain ⟨names, hw⟩ := ih (h.forest.linked_of_rooted hrooted)
      by_cases hx : x = s.rootDirectory
      · subst hx
        exact ⟨[], .nil⟩
      · obtain ⟨n, he⟩ := h.forest.parent_edge hp hx
        exact ⟨names ++ [n], hw.snoc (State.mem_children_iff.mpr he)⟩

namespace Path

variable {s : State} {parse : TargetParser}

/-- The lookup of a stored name. -/
theorem getChild_of_child (h : s.tree.WF) (hnames : s.tree.ProperNames) {d c : FileId} {n : Name}
    (hc : (n, c) ∈ s.children d) : Directory.getChild s d n = (s, some c) := by
  have he := State.mem_children_iff.mp hc
  have hn := hnames he
  rw [Directory.getChild_eq h, (h.lookup_eq_some_iff hn.ne_dot hn.ne_dotdot).mpr he]

theorem getChildWith_of_child (h : s.tree.WF) (hnames : s.tree.ProperNames) {d c : FileId}
    {n : Name} (hc : (n, c) ∈ s.children d) {links : LinkBehavior}
    (hlinks : links = .noFollowLinks ∨ (s.files c).isDirectory) (recursions : Nat) :
    getChildWith parse s d n links recursions = (s, recursions, .ok c) := by
  simp only [getChildWith, getChild_of_child h hnames hc]
  rcases hlinks with rfl | hdir
  · rfl
  · have htarget : (s.files c).target? = none := by
      unfold File.isDirectory File.kind at hdir
      unfold File.target?
      cases hb : (s.files c).body <;> simp_all
    split
    · rfl
    · unfold followLinks
      rw [htarget]

/-- The slash after a segment is the first one. -/
theorem findIdx?_segment {n : Name} (hn : slash ∉ n) (rest : Name) :
    (n ++ slash :: rest).findIdx? (· == slash) = some n.length := by
  have hnone : n.findIdx? (· == slash) = none := by
    rw [List.findIdx?_eq_none_iff]
    intro c hc
    rw [beq_eq_false_iff_ne]
    intro hcs
    subst hcs
    exact hn hc
  rw [List.findIdx?_append, hnone, List.findIdx?_cons]
  simp

theorem dropWhile_segment {n : Name} (hn : Segment n) (rest : Name) :
    (n ++ rest).dropWhile (· == slash) = n ++ rest := by
  cases n with
  | nil => exact absurd rfl hn.1
  | cons c n =>
      have hc : c ≠ slash := fun hc => hn.2 (hc ▸ List.mem_cons_self)
      simp [hc]

/-- Stored names that make up a path lead to the parent and the leaf. -/
theorem parseSegments_walk (h : s.tree.WF) (hnames : s.tree.ProperNames) {fuel : Nat} {path : Name}
    {d f : FileId} {n : Name} {names : List Name} (hw : s.Walk d (n :: names) f)
    (hpath : path.dropWhile (· == slash) = n ++ names.flatMap (slash :: ·))
    (hfuel : path.length ≤ fuel) (recursions : Nat) :
    ∃ parent leaf, parseSegments parse fuel s path d recursions =
      (s, recursions, .ok (parent, leaf)) ∧ (leaf, f) ∈ s.children parent := by
  induction names generalizing fuel path d n with
  | nil =>
      cases hw with
      | cons hc hw =>
          cases hw
          have hn := hnames (State.mem_children_iff.mp hc)
          have hpath : path.dropWhile (· == slash) = n := by simpa using hpath
          have hpos : path ≠ [] := by
            intro hnil
            subst hnil
            exact hn.segment.1 hpath.symm
          cases fuel with
          | zero => exact absurd (List.length_eq_zero_iff.mp (Nat.le_zero.mp hfuel)) hpos
          | succ fuel =>
              have hnone : (path.dropWhile (· == slash)).findIdx? (· == slash) = none := by
                rw [hpath, List.findIdx?_eq_none_iff]
                intro c hm
                rw [beq_eq_false_iff_ne]
                intro hcs
                subst hcs
                exact hn.segment.2 hm
              refine ⟨d, n, ?_, hc⟩
              rw [parseSegments_leaf hnone, hpath]
  | cons m names ih =>
      cases hw with
      | @cons _ c _ _ _ hc hw =>
          have hn := hnames (State.mem_children_iff.mp hc)
          obtain ⟨c', hc'⟩ : ∃ c', (m, c') ∈ s.children c := by
            cases hw with
            | cons hc' _ => exact ⟨_, hc'⟩
          have hm := hnames (State.mem_children_iff.mp hc')
          have hdir : (s.files c).isDirectory := by
            rw [← File.node_isDirectory]
            exact Node.isDirectory_of_mem_children (State.mem_children_iff.mp hc')
          have hlen := (List.dropWhile_sublist (l := path) (· == slash)).length_le
          have hpos := List.length_pos_of_ne_nil hn.segment.1
          rw [hpath, List.length_append] at hlen
          cases fuel with
          | zero => omega
          | succ fuel =>
              have hsplit : path.dropWhile (· == slash) =
                  n ++ slash :: (m ++ names.flatMap (slash :: ·)) := hpath
              have hfirst : (path.dropWhile (· == slash)).findIdx? (· == slash) =
                  some n.length := by
                rw [hsplit]
                exact findIdx?_segment hn.segment.2 _
              rw [parseSegments_cons hsplit hfirst,
                getChildWith_of_child h hnames hc (Or.inr hdir)]
              simp only [hdir, if_true]
              refine ih hw ?_ ?_
              · rw [List.dropWhile_cons]
                simp only [beq_self_eq_true, if_true]
                exact dropWhile_segment hm.segment _
              · have hrest : (slash :: (m ++ names.flatMap (slash :: ·))).length =
                    ((m :: names).flatMap (slash :: ·)).length := rfl
                omega

theorem stripTrailing_of_stripped {path : Name} (h : Stripped path) :
    stripTrailing path = path := by
  have hhead : path.reverse.head? ≠ some slash := by
    rw [List.head?_reverse]
    exact h.2
  have hkeep : path.reverse.dropWhile (· == slash) = path.reverse := by
    cases hr : path.reverse with
    | nil => rfl
    | cons c cs =>
        rw [hr, List.head?_cons] at hhead
        have hc : c ≠ slash := fun hc => hhead (congrArg some hc)
        simp [hc]
  simp only [stripTrailing, hkeep, List.reverse_reverse]

/-- A path made of segments does not end in a slash. -/
theorem stripped_of_segments {n : Name} {names : List Name} (hn : Segment n)
    (hnames : ∀ m ∈ names, Segment m) : Stripped (n ++ names.flatMap (slash :: ·)) := by
  induction names generalizing n with
  | nil =>
      rw [List.flatMap_nil, List.append_nil]
      refine ⟨hn.1, fun hlast => ?_⟩
      exact hn.2 (List.mem_of_getLast? hlast)
  | cons m names ih =>
      have hrest := ih (hnames m List.mem_cons_self) fun m' hm' => hnames m' (.tail m hm')
      refine ⟨List.append_ne_nil_of_left_ne_nil hn.1 _, ?_⟩
      rw [List.flatMap_cons, List.getLast?_append_of_ne_nil _ (by simp), List.cons_append,
        ← List.singleton_append, List.getLast?_append_of_ne_nil _ hrest.1]
      exact hrest.2

theorem segments_of_walk (hnames : s.tree.ProperNames) {d f : FileId} {names : List Name}
    (hw : s.Walk d names f) : ∀ n ∈ names, Segment n := by
  induction hw with
  | nil => intro n hn; cases hn
  | cons hc _ ih =>
      intro n hn
      rcases List.mem_cons.mp hn with rfl | hn
      · exact (hnames (State.mem_children_iff.mp hc)).segment
      · exact ih n hn

/-- The absolute path made of stored names resolves to the file they lead to. -/
theorem doParseFile_walk (h : s.tree.WF) (hnames : s.tree.ProperNames) {f : FileId}
    {names : List Name} (hw : s.Walk s.rootDirectory names f) (base : FileId) :
    doParseFile s (absolutePath names) base .noFollowLinks 0 = (s, 0, .ok f) := by
  cases names with
  | nil =>
      cases hw
      have hdot : Directory.getChild s s.rootDirectory dot = (s, some s.rootDirectory) := by
        rw [Directory.getChild_eq h]
        exact congrArg (s, ·) (Tree.lookup_dot h.forest.root_linked)
      simp only [doParseFile, doParseFileWith, doParseParentWith, absolutePath, getChildWith]
      simp [stripTrailing, hdot]
  | cons n names =>
      have hsegs := segments_of_walk hnames hw
      have hn := hsegs n List.mem_cons_self
      have hrest : Stripped (n ++ names.flatMap (slash :: ·)) :=
        stripped_of_segments hn fun m hm => hsegs m (.tail n hm)
      obtain ⟨parent, leaf, hparse, hc⟩ : ∃ parent leaf,
          parseSegments (parseTarget MAX_RECURSIONS) (n ++ names.flatMap (slash :: ·)).length s
            (n ++ names.flatMap (slash :: ·)) s.rootDirectory 0 = (s, 0, .ok (parent, leaf)) ∧
          (leaf, f) ∈ s.children parent :=
        parseSegments_walk h hnames hw (dropWhile_segment hn _) (Nat.le_refl _) 0
      have hparent : doParseParentWith (parseTarget MAX_RECURSIONS) s
          (absolutePath (n :: names)) base 0 = (s, 0, .ok (parent, leaf)) := by
        simp only [absolutePath, List.flatMap_cons, List.cons_append, doParseParentWith, if_true]
        rw [stripTrailing_of_stripped hrest, if_neg hrest.1]
        exact hparse
      unfold doParseFile doParseFileWith
      rw [hparent]
      exact getChildWith_of_child h hnames hc (Or.inl rfl) 0

end Path

/-! ## The states of runs without such a rename -/

/-- Every stored name is proper and found by a lookup, and the stored names on
the way to a linked file make up a path that resolves to it. -/
structure NamesResolve (s : State) : Prop where
  child : ∀ {d n c}, (n, c) ∈ s.children d → n ≠ [] ∧ slash ∉ n ∧ n ≠ dot ∧ n ≠ dotdot ∧
    Directory.getChild s d n = (s, some c)
  path : ∀ {f}, s.getParent f ≠ none → ∃ names, s.Walk s.rootDirectory names f ∧
    ∀ base, Path.doParseFile s (absolutePath names) base .noFollowLinks 0 = (s, 0, .ok f)

theorem NamesResolve.of_properNames {s : State} (h : s.tree.WF) (hnames : s.tree.ProperNames) :
    NamesResolve s where
  child {d n c} hc := by
    have hn := hnames (State.mem_children_iff.mp hc)
    exact ⟨hn.segment.1, hn.segment.2, hn.ne_dot, hn.ne_dotdot,
      Path.getChild_of_child h hnames hc⟩
  path {f} hf := by
    obtain ⟨names, hw⟩ := State.exists_walk h (f := f) hf
    exact ⟨names, hw, Path.doParseFile_walk h hnames hw⟩

theorem Start.properNames : tree.ProperNames := by
  intro d n c he
  have hall : ∀ d, ∀ e ∈ (tree.node d).children, Segment e.1 ∧ e.1 ≠ dot ∧ e.1 ≠ dotdot :=
    forall_node (P := fun _ x => ∀ e ∈ x.children, Segment e.1 ∧ e.1 ≠ dot ∧ e.1 ≠ dotdot)
      (by decide +kernel) fun _ e he => absurd he (absent_children ▸ List.not_mem_nil)
  obtain ⟨hseg, hdot, hdotdot⟩ := hall d _ he
  exact ⟨hseg, hdot, hdotdot⟩

theorem Start.shortNames : tree.ShortNames := by
  intro d n c he
  have hall : ∀ d, ∀ e ∈ (tree.node d).children, e.1.length ≤ WASMFS_NAME_MAX :=
    forall_node (P := fun _ x => ∀ e ∈ x.children, e.1.length ≤ WASMFS_NAME_MAX)
      (by decide +kernel) fun _ e he => absurd he (absent_children ▸ List.not_mem_nil)
  exact hall d _ he

/-- Every call that stores a name has checked its length. -/
theorem Reachable.shortNames {host : Host} {s : State} (h : Reachable host s) :
    s.tree.ShortNames :=
  h.tree_invariant (I := fun t => t.ShortNames) Start.shortNames
    fun hwf hc hnames => Change.shortNames_apply hwf hnames hc

/-- A call takes a file out of the tree only by removing or overwriting what its
path names. -/
def UnlinksVictimsOnly (host : Host) (s : State) : Prop :=
  ∀ {c s' f}, Step host s c s' → s.getParent f ≠ none → s'.getParent f = none →
    ∃ d n, (n, f) ∈ s.children d ∧ NamesVictim s d n c

theorem unlinksVictimsOnly_of_wf {host : Host} {s : State} (h : s.tree.WF) :
    UnlinksVictimsOnly host s := by
  intro c s' f hs hf hf'
  obtain ⟨r, hok⟩ := hs
  obtain ⟨change, hchange⟩ := exec_change h hok
  have hunlinked : ¬ (change.apply s.tree).forest.Linked f := by
    rw [← hchange.tree]
    exact not_not.mpr hf'
  obtain ⟨d, n, he, hrem⟩ := Change.removes_of_unlinked h hchange.allowed hf hunlinked
  exact ⟨d, n, State.mem_children_iff.mpr he, hchange.removes hrem⟩

/-- In a run that never renames a directory to `.` in an empty one, every stored
name can be looked up, and a file stays reachable until a call removes or
overwrites it. -/
theorem namesResolve_of_run {host : Host} {s : State}
    (h : ReachableBy host (fun s c => ¬ RenamesToDot s c) s) :
    NamesResolve s ∧ UnlinksVictimsOnly host s := by
  have hinv : s.tree.WF ∧ s.tree.ProperNames := by
    refine h.invariant (I := fun s => s.tree.WF ∧ s.tree.ProperNames) ?_ ?_
    · rw [tree_init]
      exact ⟨Start.tree_wf, Start.properNames⟩
    · intro s c s' hs hno hstep
      obtain ⟨r, hok⟩ := hstep
      obtain ⟨change, hchange⟩ := exec_change hs.1 hok
      rw [hchange.tree]
      exact ⟨Change.wf_apply hs.1 hchange.allowed, Change.properNames_apply hs.1 hs.2
        hchange.allowed fun hdot => hno (hchange.storesDot hdot)⟩
  exact ⟨.of_properNames hinv.1 hinv.2, unlinksVictimsOnly_of_wf hinv.1⟩

theorem namesResolve_sampleRun : ∃ s replies,
    afterRun [.path_open atFdCwd [slash] 0, .path_create_directory 3 [97],
      .path_symlink [98] 3 [97], .path_open 3 [98, slash, 99] 64] = .ok (s, replies) ∧
    NamesResolve s ∧ UnlinksVictimsOnly .still s := by
  have hok : (afterRun [.path_open atFdCwd [slash] 0, .path_create_directory 3 [97],
      .path_symlink [98] 3 [97], .path_open 3 [98, slash, 99] 64]).isOk = true := by
    decide +kernel
  cases hr : afterRun [.path_open atFdCwd [slash] 0, .path_create_directory 3 [97],
      .path_symlink [98] 3 [97], .path_open 3 [98, slash, 99] 64] with
  | error e =>
      rw [hr] at hok
      cases hok
  | ok result =>
      refine ⟨result.1, result.2, rfl, namesResolve_of_run (.of_afterRun ?_ hr)⟩
      intro c hc s
      simp only [List.mem_cons, List.not_mem_nil, or_false] at hc
      rcases hc with rfl | rfl | rfl | rfl <;> exact id

/-- A rename of `/dev` to `/tmp/.` stores the name `.`, and `/dev` cannot be
looked up any more. -/
theorem not_namesResolve_dev :
    ¬ ∀ (host : Host) (s : State), Reachable host s → NamesResolve s := by
  intro hall
  obtain ⟨s, replies, hok, hmem⟩ :
      Returns (afterRun [.path_open atFdCwd [slash] 0,
        .path_rename 3 devName 3 [116, 109, 112, 47, 46]]) fun s _ =>
          (dot, Init.dev) ∈ s.children Init.tmp := by
    decide +kernel
  obtain ⟨-, -, hdot, -⟩ := (hall .still s (.of_afterRun hok)).child hmem
  exact hdot rfl

end WasmFS
