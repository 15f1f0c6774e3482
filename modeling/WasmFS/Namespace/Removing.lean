import Mathlib.Data.List.TakeWhile
import WasmFS.Namespace.TreeInvariant

/-!
# What a removal removes

A removal that succeeds takes one edge out of the forest.  The file that the path names
loses its parent, and nothing else changes but times (`Removed`).

The exception is an `rmdir` whose path is `.`, up to slashes at the end.  The textual
check looks for `/.` only, the lookup of `.` finds the base directory, and the removal
finds no entry of that name and reports success (`RemovesNothing`).  For every other path
the parsed leaf is the last segment of the text (`doParseParentWith_leafName`), so a leaf
`.` that is not the answer for the root has been seen by the check.
-/

namespace WasmFS

namespace Path

/-! ## The last segment -/

/-- What follows the last slash. -/
def leafName (path : Name) : Name := (path.reverse.takeWhile (· != slash)).reverse

theorem leafName_of_not_mem {path : Name} (h : slash ∉ path) : leafName path = path := by
  unfold leafName
  rw [List.takeWhile_eq_self_iff.mpr, List.reverse_reverse]
  intro c hc
  rw [bne_iff_ne]
  rintro rfl
  exact h (List.mem_reverse.mp hc)

/-- Only what follows a slash counts. -/
theorem leafName_append (front path : Name) :
    leafName (front ++ slash :: path) = leafName path := by
  have hrev : (front ++ slash :: path).reverse = path.reverse ++ slash :: front.reverse := by
    rw [List.reverse_append, List.reverse_cons, List.append_assoc, List.singleton_append]
  unfold leafName
  rw [hrev, List.takeWhile_append, List.takeWhile_cons_of_neg (by decide), List.append_nil]
  split
  · rename_i hall
    rw [(List.takeWhile_sublist _).eq_of_length hall]
  · rfl

theorem leafName_slash_cons (path : Name) : leafName (slash :: path) = leafName path :=
  leafName_append [] path

theorem leafName_dropWhile (path : Name) :
    leafName (path.dropWhile (· == slash)) = leafName path := by
  induction path with
  | nil => rfl
  | cons c path ih =>
      by_cases hc : c = slash
      · subst hc
        rw [List.dropWhile_cons_of_pos (by decide), ih, leafName_slash_cons]
      · rw [List.dropWhile_cons_of_neg (by simpa using hc)]

/-- The text before the last segment ends in a slash. -/
theorem eq_leafName_or (path : Name) :
    path = leafName path ∨ ∃ front, path = front ++ slash :: leafName path := by
  have hsplit := List.takeWhile_append_dropWhile (p := (· != slash)) (l := path.reverse)
  have hpath : path = (path.reverse.dropWhile (· != slash)).reverse ++ leafName path := by
    rw [leafName, ← List.reverse_append, hsplit, List.reverse_reverse]
  have hhead := List.head?_dropWhile_not (· != slash) path.reverse
  cases hd : path.reverse.dropWhile (· != slash) with
  | nil =>
      rw [hd] at hpath
      exact Or.inl hpath
  | cons c front =>
      rw [hd] at hhead hpath
      obtain rfl : c = slash := by simpa using hhead
      rw [List.reverse_cons, List.append_assoc] at hpath
      exact Or.inr ⟨front.reverse, hpath⟩

theorem stripTrailing_cons (c : UInt8) (rest : Name) : stripTrailing (c :: rest) =
    if stripTrailing rest = [] ∧ c = slash then [] else c :: stripTrailing rest := by
  unfold stripTrailing
  rw [List.reverse_cons, List.dropWhile_append]
  cases rest.reverse.dropWhile (· == slash) with
  | nil =>
      by_cases hc : c = slash
      · subst hc
        rfl
      · rw [if_pos List.isEmpty_nil, List.dropWhile_cons_of_neg (by simpa using hc),
          if_neg fun h => hc h.2]
        rfl
  | cons a l =>
      rw [List.isEmpty_cons, if_neg Bool.false_ne_true, List.reverse_append,
        if_neg fun h => List.cons_ne_nil a l (List.reverse_eq_nil_iff.mp h.1)]
      rfl

/-! ## The parsed leaf -/

variable {s : State} {parse : TargetParser}

theorem parseSegments_leafName {fuel : Nat} {path : Name} {curr parent : FileId}
    {recursions recursions' : Nat} {s s' : State} {leaf : Name} (hpath : Stripped path)
    (hfuel : path.length ≤ fuel)
    (hok : parseSegments parse fuel s path curr recursions =
      (s', recursions', .ok (parent, leaf))) : leaf = leafName path := by
  induction fuel generalizing s path curr recursions with
  | zero => exact absurd (List.length_eq_zero_iff.mp (Nat.le_zero.mp hfuel)) hpath.1
  | succ fuel ih =>
      rcases hpath.split with ⟨hleaf, hnone⟩ | ⟨segment, rest, hseg, hrest, hsplit, hsome⟩
      · rw [parseSegments_leaf hnone] at hok
        cases hok
        rw [← leafName_dropWhile, leafName_of_not_mem hleaf.2]
      · rw [parseSegments_cons hsplit hsome] at hok
        split at hok
        · cases hok
        split at hok
        · have hlen := (List.dropWhile_sublist (l := path) (· == slash)).length_le
          have hpos := List.length_pos_of_ne_nil hseg.1
          rw [hsplit, List.length_append] at hlen
          rw [ih hrest (by omega) hok, leafName_slash_cons, ← leafName_dropWhile path, hsplit,
            leafName_append]
        · cases hok

/-- The leaf is the last segment of the path, unless the path is made of slashes. -/
theorem doParseParentWith_leafName {path : Name} {curr parent : FileId}
    {recursions recursions' : Nat} {s' : State} {leaf : Name}
    (hok : doParseParentWith parse s path curr recursions = (s', recursions', .ok (parent, leaf))) :
    (parent = s.rootDirectory ∧ leaf = dot) ∨ leaf = leafName (stripTrailing path) := by
  cases path with
  | nil => cases hok
  | cons c rest =>
      simp only [doParseParentWith] at hok
      by_cases hc : c = slash
      · subst hc
        rw [if_pos rfl, if_pos rfl] at hok
        by_cases hnil : stripTrailing rest = []
        · rw [if_pos hnil] at hok
          cases hok
          exact Or.inl ⟨rfl, rfl⟩
        · rw [if_neg hnil] at hok
          right
          rw [stripTrailing_cons, if_neg (fun h => hnil h.1), leafName_slash_cons]
          exact parseSegments_leafName (stripTrailing_stripped hnil) (Nat.le_refl _) hok
      · have hnil : stripTrailing (c :: rest) ≠ [] := by
          rw [stripTrailing_cons, if_neg (fun h => hc h.2)]
          exact List.cons_ne_nil _ _
        rw [if_neg hc, if_neg hc, if_neg hnil] at hok
        exact Or.inr (parseSegments_leafName (stripTrailing_stripped hnil) (Nat.le_refl _) hok)

/-- The path `.` names the base directory. -/
theorem doParseParentWith_dot {path : Name} (hpath : stripTrailing path = dot) (curr : FileId)
    (recursions : Nat) :
    doParseParentWith parse s path curr recursions = (s, recursions, .ok (curr, dot)) := by
  cases path with
  | nil => cases hpath
  | cons c rest =>
      have hc : c ≠ slash := by
        rintro rfl
        rw [stripTrailing_cons] at hpath
        split at hpath <;> cases hpath
      simp only [doParseParentWith]
      rw [if_neg hc, if_neg hc, hpath, if_neg (by decide)]
      have hnone : (dot.dropWhile (· == slash)).findIdx? (· == slash) = none := rfl
      exact parseSegments_leaf hnone curr recursions

theorem parseParent_leafName {path : Name} {basefd : Nat} {parent : FileId} {leaf : Name}
    (hok : (parseParent s path basefd).2 = .ok (parent, leaf)) :
    (parent = s.rootDirectory ∧ leaf = dot) ∨ leaf = leafName (stripTrailing path) := by
  unfold parseParent at hok
  cases hb : getBaseDir s basefd with
  | error e =>
      rw [hb] at hok
      cases hok
  | ok base =>
      rw [hb] at hok
      exact doParseParentWith_leafName (Prod.ext rfl (Prod.ext rfl hok))

theorem parseParent_dot {path : Name} (hpath : stripTrailing path = dot) {basefd : Nat}
    {base : FileId} (hbase : getBaseDir s basefd = .ok base) :
    parseParent s path basefd = (s, .ok (base, dot)) := by
  simp only [parseParent, hbase, doParseParent, doParseParentWith_dot hpath]

end Path

/-! ## Removals -/

/-- The child `leaf` of `parent` has been removed, and nothing else has happened to the
namespace. -/
structure Removed (s s' : State) (parent : FileId) (leaf : Name) (file : FileId) : Prop where
  source : (leaf, file) ∈ s.children parent
  /-- Exactly this triple has gone. -/
  children : ∀ d n x, (n, x) ∈ s'.children d ↔
    (n, x) ∈ s.children d ∧ ¬ (d = parent ∧ n = leaf ∧ x = file)
  /-- The file is not a child of any directory. -/
  not_child : ∀ d n, (n, file) ∉ s'.children d
  parent : s'.getParent file = none
  parents : ∀ x, x ≠ file → s'.getParent x = s.getParent x

/-- What the path names has been removed.  It was not the root.  It was an empty directory
if `removeDir` is set, and no directory if it is not. -/
def RemovesNamed (s s' : State) (path : Name) (dirfd : Nat) (removeDir : Bool) : Prop :=
  ∃ parent leaf file,
    (Path.parseParent s path dirfd).2 = .ok (parent, leaf) ∧
    (Path.parseFile s path dirfd .noFollowLinks).2 = .ok file ∧
    Removed s s' parent leaf file ∧ file ≠ s.rootDirectory ∧
    (s.files file).isDirectory = removeDir ∧ s.children file = []

/-- The path of an `rmdir` is `.`, up to slashes at the end, and the base directory is
linked, empty, writable and not the root. -/
def RemovesNothing (s : State) (path : Name) (dirfd : Nat) (removeDir : Bool) : Prop :=
  removeDir = true ∧ Path.stripTrailing path = dot ∧
    ∃ d, Path.getBaseDir s dirfd = .ok d ∧ d ≠ s.rootDirectory ∧ s.getParent d ≠ none ∧
      s.children d = [] ∧ (s.files d).writable

namespace Syscall

variable {host : Host} {s s' : State} {path : Name} {dirfd : Nat} {removeDir : Bool}
  {parent file : FileId} {leaf : Name}

theorem Removable.removed (h : s.tree.WF) (hr : Removable s path dirfd removeDir parent leaf file)
    (hdot : leaf ≠ dot)
    (hs' : s' = (MemoryDirectory.removeChild s parent leaf).updateMTime host parent) :
    Removed s s' parent leaf file := by
  have hu := hr.unlinks h hdot
  have hedge := hu.edge h
  have hforest : s'.tree.forest = s.tree.forest.unlink file := by
    have hc : (Change.unlink parent leaf file).Allowed s.tree := hu
    rw [hs', tree_removed h host hu, Change.forest_apply h hc]
    rfl
  have hparent : ∀ x, s'.getParent x = (s.tree.forest.unlink file).parent x := by
    intro x
    rw [← hforest]
    rfl
  refine ⟨State.mem_children_iff.mpr hedge, fun d n x => ?_, fun d n hx => ?_, ?_,
    fun x hx => ?_⟩
  · rw [State.mem_children_iff, State.mem_children_iff, hforest]
    refine and_congr_right fun he => not_congr ⟨?_, fun hx => hx.2.2⟩
    rintro rfl
    obtain ⟨rfl, rfl⟩ := h.forest.edge_unique he hedge
    exact ⟨rfl, rfl, rfl⟩
  · rw [State.mem_children_iff, hforest] at hx
    exact hx.2 rfl
  · rw [hparent]
    exact s.tree.forest.unlink_parent_self file
  · rw [hparent]
    exact s.tree.forest.unlink_parent_of_ne hx

/-- The textual check. -/
theorem endsInDot_of_leafName (h : Path.leafName (Path.stripTrailing path) = dot) :
    Path.stripTrailing path = dot ∨ endsInDot path := by
  rcases Path.eq_leafName_or (Path.stripTrailing path) with hpath | ⟨front, hpath⟩
  · exact Or.inl (hpath.trans h)
  · right
    rw [h] at hpath
    have hlen : (front ++ slash :: dot).length - 2 = front.length := by
      rw [List.length_append]
      rfl
    simp only [endsInDot, hpath, hlen, List.drop_left]
    simp [dot]

/-- A removal with the leaf `.` passes the textual check only if the path is `.`. -/
theorem Removable.removesNothing (h : s.tree.WF)
    (hr : Removable s path dirfd removeDir parent dot file)
    (hends : ¬ (removeDir ∧ endsInDot path)) : RemovesNothing s path dirfd removeDir := by
  have hlinked := Tree.linked_of_lookup hr.lookup
  have hl := hr.lookup
  rw [Tree.lookup_dot hlinked] at hl
  cases hl
  have hremove : removeDir = true := hr.isDirectory ▸ (Path.parseParent_leaf h hr.parsed).1
  have hpath : Path.stripTrailing path = dot := by
    rcases Path.parseParent_leafName hr.parsed with ⟨hroot, -⟩ | hleaf
    · exact absurd hroot hr.ne_root
    · exact (endsInDot_of_leafName hleaf.symm).resolve_right fun hdot => hends ⟨hremove, hdot⟩
  refine ⟨hremove, hpath, parent, ?_, hr.ne_root, hlinked,
    State.children_eq_nil_iff.mpr hr.childless, hr.writable⟩
  have hp := hr.parsed
  cases hb : Path.getBaseDir s dirfd with
  | error e =>
      rw [Path.parseParent, hb] at hp
      cases hp
  | ok base =>
      rw [Path.parseParent_dot hpath hb] at hp
      cases hp
      rfl

theorem removable_of_removesNothing (h : s.tree.WF)
    (hn : RemovesNothing s path dirfd removeDir) :
    ∃ d, Removable s path dirfd removeDir d dot d ∧ ¬ (removeDir ∧ endsInDot path) := by
  obtain ⟨rfl, hpath, d, hbase, hroot, hlinked, hempty, hw⟩ := hn
  refine ⟨d, ⟨?_, Tree.lookup_dot hlinked, hroot, Path.getBaseDir_isDirectory h hbase,
    State.children_eq_nil_iff.mp hempty, hw⟩, ?_⟩
  · rw [Path.parseParent_dot hpath hbase]
  · rintro ⟨-, hends⟩
    rw [endsInDot, hpath] at hends
    cases hends

/-- What passes the checks is removed. -/
theorem unlinkat_of_removable (h : s.tree.WF) (host : Host)
    (hr : Removable s path dirfd removeDir parent leaf file)
    (hends : ¬ (removeDir ∧ endsInDot path)) :
    unlinkat host s dirfd path removeDir =
      ((MemoryDirectory.removeChild s parent leaf).updateMTime host parent, 0) := by
  have hcount : ¬ Directory.getNumEntries s file > 0 := by
    rw [getNumEntries_eq_zero_iff.mpr hr.childless]
    exact Nat.lt_irrefl 0
  have hguarded := h.guarded (d := parent) hr.writable
  rw [State.tree_node, File.node_dcache] at hguarded
  unfold unlinkat
  rw [if_neg hends, Path.parseParent_state h, hr.parsed]
  simp only
  rw [Directory.getChild_eq h, hr.lookup]
  simp only
  rw [if_neg hr.ne_root, if_neg fun hk => hk.2 (hr.isDirectory ▸ hk.1),
    if_neg fun hk => hcount hk.2, if_neg fun hk => hk.1 (hr.isDirectory.trans hk.2),
    if_neg (not_not.mpr hr.writable), Directory.removeChild_of_dcache_nil hguarded]

theorem unlinkat_removes_iff (h : s.tree.WF) {ret : Int}
    (hok : unlinkat host s dirfd path removeDir = (s', ret)) :
    (u16 ret = 0 → RemovesNamed s s' path dirfd removeDir) ↔
      ¬ RemovesNothing s path dirfd removeDir := by
  constructor
  · intro hremoves hn
    obtain ⟨d, hr, hends⟩ := removable_of_removesNothing h hn
    rw [unlinkat_of_removable h host hr hends, hr.removeChild_dot] at hok
    cases hok
    obtain ⟨parent, leaf, file, -, -, hremoved, -⟩ := hremoves rfl
    -- the entries are as before
    have hmem := (State.mem_children_iff.mp hremoved.source)
    rw [← State.tree_updateMTime host s d] at hmem
    exact hremoved.not_child parent leaf (State.mem_children_iff.mpr hmem)
  · intro hn hret
    rcases unlinkat_cases h host dirfd path removeDir with
      ⟨e, he⟩ | ⟨parent, leaf, file, hr, hunlink⟩
    · rw [he] at hok
      cases hok
      exact absurd hret e.u16_neg_ne_zero
    · have hends : ¬ (removeDir ∧ endsInDot path) := by
        intro hends
        rw [unlinkat, if_pos hends] at hunlink
        exact Errno.inval.neg_ne_zero (congrArg Prod.snd hunlink)
      rw [hunlink] at hok
      cases hok
      have hdot : leaf ≠ dot := by
        rintro rfl
        exact hn (hr.removesNothing h hends)
      exact ⟨parent, leaf, file, hr.parsed, Path.parseFile_noFollow h hr.parsed hr.lookup,
        hr.removed h hdot rfl, hr.ne_root, hr.isDirectory,
        State.children_eq_nil_iff.mpr hr.childless⟩

end Syscall

/-! ## The calls -/

/-- The arguments of a call that removes a file.  The last one is set for `rmdir`. -/
def Call.removes? : Call → Option (UInt32 × List UInt8 × Bool)
  | .path_remove_directory fd path => some (fd, path, true)
  | .path_unlink_file dirfd path => some (dirfd, path, false)
  | _ => none

/-- A removal that succeeds removes what the path names if and only if it is not an `rmdir`
of `.`. -/
theorem removal_removes_iff {host : Host} {s s' : State} {c : Call} {r : Reply} {fd : UInt32}
    {path : List UInt8} {removeDir : Bool} (h : Reachable host s)
    (hc : c.removes? = some (fd, path, removeDir)) (hok : exec host s c = .ok (s', r)) :
    (r.errno = 0 → RemovesNamed s s' (cstr path) fd.toNat removeDir) ↔
      ¬ RemovesNothing s (cstr path) fd.toNat removeDir := by
  cases c with
  | path_remove_directory fd path =>
      cases hc
      simp only [exec, Export.path_remove_directory] at hok
      cases hok
      exact Syscall.unlinkat_removes_iff h.wf rfl
  | path_unlink_file dirfd path =>
      cases hc
      simp only [exec, Export.path_unlink_file] at hok
      cases hok
      exact Syscall.unlinkat_removes_iff h.wf rfl
  | _ => cases hc

/-- Removing `/tmp` through a descriptor on the root. -/
theorem removal_removes_tmp : ∃ s s' r, Reachable .still s ∧
    exec .still s (.path_remove_directory 3 tmpName) = .ok (s', r) ∧ r.errno = 0 ∧
    RemovesNamed s s' tmpName 3 true := by
  obtain ⟨s, replies, hok, s', r, hrm, hsuccess⟩ :
      Returns (afterRun [.path_open atFdCwd [slash] 0]) fun s _ =>
        Returns (exec .still s (.path_remove_directory 3 tmpName)) fun _ r => r.errno = 0 := by
    decide +kernel
  have hs : Reachable .still s := .of_afterRun hok
  have hnot : ¬ RemovesNothing s (cstr tmpName) (3 : UInt32).toNat true := by
    intro hn
    exact absurd hn.2.1 (by decide)
  have hremoves := (removal_removes_iff hs (c := .path_remove_directory 3 tmpName) rfl hrm).mpr hnot
  exact ⟨s, s', r, hs, hrm, hsuccess, hremoves hsuccess⟩

/-- Through a descriptor on the empty `/tmp`, `rmdir` of `.` removes nothing and reports
success. -/
theorem not_removal_removes : ¬ ∀ (host : Host) (s s' : State) (c : Call) (r : Reply)
    (fd : UInt32) (path : List UInt8) (removeDir : Bool), Reachable host s →
    c.removes? = some (fd, path, removeDir) → exec host s c = .ok (s', r) → r.errno = 0 →
    RemovesNamed s s' (cstr path) fd.toNat removeDir := by
  obtain ⟨s, replies, hok, hparsed, hempty, s', r, hrm, hsuccess⟩ :
      Returns (afterRun [.path_open atFdCwd (slash :: tmpName) 0]) fun s _ =>
        (Path.parseParent s (cstr dot) (3 : UInt32).toNat).2.toOption = some (Init.tmp, dot) ∧
        s.children Init.tmp = [] ∧
        Returns (exec .still s (.path_remove_directory 3 dot)) fun _ r => r.errno = 0 := by
    decide +kernel
  intro hall
  obtain ⟨parent, leaf, file, hparsed', -, hremoved, -⟩ :=
    hall .still s s' (.path_remove_directory 3 dot) r 3 dot true (.of_afterRun hok) rfl hrm hsuccess
  cases (ok_of_toOption hparsed).symm.trans hparsed'
  have hsource := hremoved.source
  rw [hempty] at hsource
  cases hsource

end WasmFS
