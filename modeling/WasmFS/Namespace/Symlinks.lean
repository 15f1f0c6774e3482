import WasmFS.Namespace.Creating
import WasmFS.Namespace.Opening
import WasmFS.Namespace.StartingPoints

/-!
# Symbolic links

`path_symlink` passes its paths on in the wrong order.  The link is made at the old path
and gets the new path as its target.  So it is what was asked for only if the two are
the same (`symlinkAsAsked_iff`).
-/

namespace WasmFS

open LinkedNodes LinkedNodes.Outcome

variable {host : Host} {s s' : State}

/-- The link that a call of `path_symlink` was asked for: it is at the new path, nothing
else has changed, and its target reads back and leads where the old path leads. -/
structure LinkedAsAsked (host : Host) (s s' : State) (oldPath : Name) (fd : UInt32)
    (newPath : List UInt8) (parent : FileId) (leaf : Name) (f : FileId) : Prop where
  parsed : (Path.parseParent s' (cstr newPath) fd.toNat).2 = .ok (parent, leaf)
  names : (Path.parseFile s' (cstr newPath) fd.toNat .noFollowLinks).2 = .ok f
  link : (s'.files f).target? ≠ none
  others : SameEntriesBut s s' parent leaf
  reads : ∀ bufLen : UInt32, exec host s' (.path_readlink fd newPath bufLen) =
    .ok (s', ⟨0, .link (min bufLen.toNat oldPath.length)
      (oldPath.take (min bufLen.toNat oldPath.length))⟩)
  /-- Unless there are too many links. -/
  leads : (Path.parseFile s' (cstr newPath) fd.toNat .followLinks).2 ≠ .error .loop →
    (Path.parseFile s' (cstr newPath) fd.toNat .followLinks).2 =
      (Path.getFileFrom s' parent oldPath).2

/-- If the call succeeds, it has made the link that it was asked for. -/
def SymlinkAsAsked (host : Host) (s : State) (oldPath : List UInt8) (fd : UInt32)
    (newPath : List UInt8) : Prop :=
  ∀ {s' r}, exec host s (.path_symlink oldPath fd newPath) = .ok (s', r) → r.errno = 0 →
    ∃ parent leaf f, LinkedAsAsked host s s' (cstr oldPath) fd newPath parent leaf f

/-- A link can be made at the path. -/
def CanLink (s : State) (path : Name) (fd : UInt32) (target : Name) : Prop :=
  target.length ≤ Target.maxSize ∧
    ∃ parent leaf, Syscall.Insertable s path fd.toNat parent leaf

/-! ## Reading a link -/

theorem Export.path_readlink_of_link (h : s.tree.WF) {fd : UInt32} {path : List UInt8}
    {f : FileId} {target : Name}
    (hp : (Path.parseFile s (cstr path) fd.toNat .noFollowLinks).2 = .ok f)
    (ht : (s.files f).target? = some target) (bufLen : UInt32) :
    path_readlink s fd path bufLen = .ok (s, ⟨0, .link (min bufLen.toNat target.length)
      (target.take (min bufLen.toNat target.length))⟩) := by
  have hsize := Syscall.length_target_le ht
  have hmax : Target.maxSize = 2147483631 := rfl
  have hle := Nat.min_le_right bufLen.toNat target.length
  unfold path_readlink Syscall.readlinkat
  rw [Path.parseFile_state h, hp]
  simp only [ht]
  generalize min bufLen.toNat target.length = n at hle ⊢
  rw [s32_of_mem (by omega) (by omega), if_neg (by omega), u32_of_lt (by omega)]

/-- A link leads where its target leads from its directory. -/
theorem Path.parseFile_link (h : s.tree.WF) {path leaf target : Name} {basefd : Nat}
    {parent c : FileId} (hp : (parseParent s path basefd).2 = .ok (parent, leaf))
    (hl : s.tree.lookup parent leaf = some c) (ht : (s.files c).target? = some target)
    (hloop : (parseFile s path basefd .followLinks).2 ≠ .error .loop) :
    (parseFile s path basefd .followLinks).2 = (getFileFrom s parent target).2 := by
  obtain ⟨base, met, hbase, -, -, hparent⟩ := runs_of_parseParent h hp
  rw [parseFile_eq_resolveFile hbase, resolveFile_leaf h hparent hl, ht] at hloop ⊢
  rw [getFileFrom_eq_resolveFile]
  simp only at hloop ⊢
  cases hleft : MAX_RECURSIONS - met.length with
  | zero =>
      rw [hleft] at hloop
      exact absurd rfl hloop
  | succ b =>
      have hbudget : MAX_RECURSIONS = b + (MAX_RECURSIONS - b) := by omega
      rw [hleft, follow_eq] at hloop
      rw [follow_eq, hbudget, resolveFile_add _ (ne_error_of_answer hloop), answer_more]

/-! ## Making a link -/

theorem Syscall.Insertable.symlinkat_eq (h : s.tree.WF) (host : Host) {target linkpath leaf : Name}
    {newdirfd : Nat} {parent : FileId} (hi : Insertable s linkpath newdirfd parent leaf)
    (hlen : target.length ≤ Target.maxSize) :
    symlinkat host s target newdirfd linkpath =
      .ok (Directory.inserted host s parent leaf (.symlink ⟨target, hlen⟩) S_IFLNK, 0) := by
  unfold symlinkat
  rw [Path.parseParent_state h, hi.parsed]
  simp only
  rw [if_neg (Nat.not_lt.mpr hi.length), Directory.getChild_eq h, hi.lookup]
  simp only
  rw [dif_pos hlen, Directory.insertSymlink, Directory.insert_of_linked hi.linked]

/-- A call that succeeds has made a link at the old path, with the new one as its target. -/
theorem Export.path_symlink_success (h : s.tree.WF) {oldPath newPath : List UInt8} {fd : UInt32}
    {r : Reply} (hok : path_symlink host s oldPath fd newPath = .ok (s', r)) (hr : r.errno = 0) :
    ∃ parent leaf, Syscall.Insertable s (cstr oldPath) fd.toNat parent leaf ∧
      ∃ hlen : (cstr newPath).length ≤ Target.maxSize,
        s' = Directory.inserted host s parent leaf (.symlink ⟨cstr newPath, hlen⟩) S_IFLNK := by
  obtain ⟨ret, hrun, rfl⟩ := path_symlink_ok hok
  rcases Syscall.symlinkat_cases h host (cstr newPath) fd.toNat (cstr oldPath) with
    ⟨e, he⟩ | hfault | ⟨parent, leaf, hi, hlen, hins⟩
  · rw [he] at hrun
    cases hrun
    exact absurd hr e.u16_neg_ne_zero
  · rw [hfault] at hrun
    cases hrun
  · rw [hins] at hrun
    cases hrun
    exact ⟨parent, leaf, hi, hlen, rfl⟩

/-- Without a free leaf for the link the call does not succeed. -/
theorem SymlinkAsAsked.of_not_canLink (h : s.tree.WF) {oldPath newPath : List UInt8} {fd : UInt32}
    (hno : ¬ CanLink s (cstr oldPath) fd (cstr newPath)) :
    SymlinkAsAsked host s oldPath fd newPath := by
  intro s' r hok hr
  obtain ⟨parent, leaf, hi, hlen, -⟩ := Export.path_symlink_success h hok hr
  exact absurd ⟨hlen, parent, leaf, hi⟩ hno

/-- The link that is made. -/
theorem creates_link {linkpath leaf : Name} {dirfd : Nat} {parent : FileId} (h : s.tree.WF)
    (hi : Syscall.Insertable s linkpath dirfd parent leaf) (target : Target) :
    Change.Creates s.tree parent leaf
      (newNode (.symlink target) S_IFLNK (s.files parent).backend) :=
  hi.creates h (Or.inr (Or.inr ⟨target, rfl⟩))

theorem inserted_link_target (host : Host) (s : State) (parent : FileId) (leaf : Name)
    (target : Target) :
    ((Directory.inserted host s parent leaf (.symlink target) S_IFLNK).files s.next).target? =
      some target.toList := by
  rw [← File.node_target?, ← State.tree_node, (inserted_self ..).target?]
  exact congrArg Node.target? (Tree.node_alloc_self ..)

/-! ## What is asked for -/

/-- A link at its own target is what was asked for. -/
theorem LinkedAsAsked.of_insertable (h : Reachable host s) {newPath : List UInt8} {fd : UInt32}
    {parent : FileId} {leaf : Name}
    (hi : Syscall.Insertable s (cstr newPath) fd.toNat parent leaf)
    (hlen : (cstr newPath).length ≤ Target.maxSize) :
    LinkedAsAsked host s
      (Directory.inserted host s parent leaf (.symlink ⟨cstr newPath, hlen⟩) S_IFLNK)
      (cstr newPath) fd newPath parent leaf s.next := by
  have hc := creates_link h.wf hi ⟨cstr newPath, hlen⟩
  have hwf := wf_inserted hc host h.wf
  have hp := congrArg Prod.snd (Path.parseParent_extends (extends_inserted hc host h.wf)
    (getBaseDir_inserted h.filesExist fd.toNat) hi.parsed)
  have ht := inserted_link_target host s parent leaf ⟨cstr newPath, hlen⟩
  have hl := lookup_inserted hc host h.wf
  have hfile := Path.parseFile_noFollow hwf hp hl
  exact ⟨hp, hfile, by rw [ht]; exact nofun, sameEntriesBut_inserted hc h.wf,
    Export.path_readlink_of_link hwf hfile ht, Path.parseFile_link hwf hp hl ht⟩

/-- A link that was asked for has the old path as its target. -/
theorem LinkedAsAsked.target (h : s'.tree.WF) {oldPath : Name} {fd : UInt32}
    {newPath : List UInt8} {parent f : FileId} {leaf : Name}
    (hasked : LinkedAsAsked host s s' oldPath fd newPath parent leaf f) :
    (s'.files f).target? = some oldPath := by
  obtain ⟨target, ht⟩ := Option.ne_none_iff_exists'.mp hasked.link
  have hread := (Export.path_readlink_of_link h hasked.names ht 4294967295).symm.trans
    (hasked.reads 4294967295)
  have hsize := Syscall.length_target_le ht
  have hmax : Target.maxSize = 2147483631 := rfl
  have hbuf : (4294967295 : UInt32).toNat = 4294967295 := rfl
  rw [hbuf, Nat.min_eq_right (by omega), List.take_length] at hread
  simp only [Except.ok.injEq, Prod.mk.injEq, Reply.mk.injEq, Out.link.injEq, true_and] at hread
  have hshort : min 4294967295 oldPath.length = oldPath.length := by omega
  rw [ht, hread.2, hshort, List.take_length]

/-- The link that is made was asked for only if it is at its own target. -/
theorem SymlinkAsAsked.eq (h : Reachable host s) {oldPath newPath : List UInt8} {fd : UInt32}
    (hasked : SymlinkAsAsked host s oldPath fd newPath)
    (hcan : CanLink s (cstr oldPath) fd (cstr newPath)) : cstr oldPath = cstr newPath := by
  obtain ⟨hlen, parent, leaf, hi⟩ := hcan
  have hc := creates_link h.wf hi ⟨cstr newPath, hlen⟩
  have hok : exec host s (.path_symlink oldPath fd newPath) =
      .ok (Directory.inserted host s parent leaf (.symlink ⟨cstr newPath, hlen⟩) S_IFLNK,
        ⟨u16 0, .nothing⟩) := by
    simp only [exec, Export.path_symlink, hi.symlinkat_eq h.wf host hlen]
  have hwf := wf_inserted hc host h.wf
  obtain ⟨parent', leaf', f, hlink⟩ := hasked hok rfl
  have htarget := hlink.target hwf
  by_cases hsame : parent = parent' ∧ leaf = leaf'
  · -- the new path names the link, so it is its target
    obtain ⟨rfl, rfl⟩ := hsame
    have hl := lookup_inserted hc host h.wf
    cases hlink.names.symm.trans (Path.parseFile_noFollow hwf hlink.parsed hl)
    rw [inserted_link_target] at htarget
    exact (Option.some.inj htarget).symm
  · -- the entry of the link is another one, and it has changed
    have hedge : s.tree.forest.edge parent leaf s.next := by
      rw [← hlink.others hsame, Directory.tree_inserted, hc.edge_iff h.wf]
      exact Or.inr ⟨rfl, rfl, rfl⟩
    exact absurd hedge ((h.wf.free_of_lookup_eq_none hi.linked hi.lookup).2.2 _)

/-- `path_symlink` does what it was asked for if and only if the two paths are the same or
it can make no link. -/
theorem symlinkAsAsked_iff (h : Reachable host s) (oldPath : List UInt8) (fd : UInt32)
    (newPath : List UInt8) :
    SymlinkAsAsked host s oldPath fd newPath ↔
      cstr oldPath = cstr newPath ∨ ¬ CanLink s (cstr oldPath) fd (cstr newPath) := by
  constructor
  · intro hasked
    by_cases hcan : CanLink s (cstr oldPath) fd (cstr newPath)
    · exact Or.inl (hasked.eq h hcan)
    · exact Or.inr hcan
  · rintro (heq | hno)
    · intro s' r hok hr
      obtain ⟨parent, leaf, hi, hlen, rfl⟩ := Export.path_symlink_success h.wf hok hr
      rw [heq] at hi ⊢
      exact ⟨parent, leaf, s.next, .of_insertable h hi hlen⟩
    · exact SymlinkAsAsked.of_not_canLink h.wf hno

theorem symlinkAsAsked_root : ∃ s replies,
    afterRun [.path_open atFdCwd [slash] 0] = .ok (s, replies) ∧ CanLink s [116] 3 [108] ∧
    (SymlinkAsAsked .still s [116] 3 [108] ↔
      cstr [116] = cstr [108] ∨ ¬ CanLink s (cstr [116]) 3 (cstr [108])) := by
  obtain ⟨s, replies, hok, hparsed, hl, hlinked⟩ :
      Returns (afterRun [.path_open atFdCwd [slash] 0]) fun s _ =>
        (Path.parseParent s [116] (3 : UInt32).toNat).2.toOption = some (Init.root, [116]) ∧
        s.tree.lookup Init.root [116] = none ∧ s.getParent Init.root ≠ none := by
    decide +kernel
  exact ⟨s, replies, hok, ⟨by decide, Init.root, [116], ok_of_toOption hparsed, by decide, hl,
    hlinked⟩, symlinkAsAsked_iff (.of_afterRun hok) [116] 3 [108]⟩

/-- A link to `t` that is to be made at `l` is made at `t`. -/
theorem not_symlinkAsAsked : ¬ ∀ (host : Host) (s : State) (fd : UInt32) (d : FileId)
    (oldPath newPath : List UInt8), Reachable host s → OpenOn s fd d → oldPath ≠ [] →
    0 ∉ oldPath → SymlinkAsAsked host s oldPath fd newPath := by
  intro hall
  obtain ⟨s, replies, hok, ho, hdir, hlinked, s', r, hrun, hr, hmissing⟩ :
      Returns (afterRun [.path_open atFdCwd [slash] 0]) fun s _ =>
        (FileTable.getEntry s (3 : UInt32).toNat).map (fun o => (s.descriptions o).file) =
          some Init.root ∧
        (s.files Init.root).isDirectory ∧ s.getParent Init.root ≠ none ∧
        Returns (exec .still s (.path_symlink [116] 3 [108])) fun s' r =>
          r.errno = 0 ∧
          (Path.parseFile s' (cstr [108]) (3 : UInt32).toNat .noFollowLinks).2.toOption = none := by
    decide +kernel
  obtain ⟨parent, leaf, f, hlink⟩ := hall .still s 3 Init.root [116] [108] (.of_afterRun hok)
    (.of_map ho hdir hlinked) (by decide) (by decide) hrun hr
  rw [hlink.names] at hmissing
  cases hmissing

end WasmFS
