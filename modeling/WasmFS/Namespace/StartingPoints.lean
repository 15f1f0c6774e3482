import WasmFS.Descriptors.Uses

/-!
# Where the path calls start

A path call parses its path from the directory of a descriptor.  `Call.starts` lists
the directories and the paths that a call parses, and `Call.execFrom` runs the rest
of the call on what the parser finds there, so `exec` is `execFrom` at `starts`
(`exec_eq_execFrom`).  What the parser finds depends on the files and the root
only (`parseParentFrom_congr`, `parseFileFrom_congr`).

Most calls start at the descriptor that they are given.  `path_create_directory`
starts at the constant `dirfd`, `path_filestat_get` at the working directory, and
a symbolic link is made at the path that should be its target (`startsAt_iff`).
-/

namespace WasmFS

/-! ## The parser does not look at descriptors -/

/-- The states have the same files below the same root. -/
structure SameNamespace (s s' : State) : Prop where
  files : s'.files = s.files
  root : s'.rootDirectory = s.rootDirectory

/-- Two parses agree. -/
structure Agree {α : Type} (p p' : Path.Parsed α) : Prop where
  namespaces : SameNamespace p.1 p'.1
  results : p'.2 = p.2

namespace SameNamespace

variable {s s' : State}

theorem modify (h : SameNamespace s s') (f : FileId) (g : File → File) :
    SameNamespace (s.modify f g) (s'.modify f g) := by
  refine ⟨?_, h.root⟩
  simp only [State.modify, h.files]

theorem getChild (h : SameNamespace s s') (d : FileId) (name : Name) :
    SameNamespace (Directory.getChild s d name).1 (Directory.getChild s' d name).1 ∧
      (Directory.getChild s' d name).2 = (Directory.getChild s d name).2 := by
  have hparent : s'.getParent d = s.getParent d := by simp only [State.getParent, h.files]
  have hchild : MemoryDirectory.getChild s' d name = MemoryDirectory.getChild s d name := by
    simp only [MemoryDirectory.getChild, h.files]
  simp only [Directory.getChild, hparent, hchild, h.files]
  cases s.getParent d with
  | none => exact ⟨h, rfl⟩
  | some parent =>
      simp only
      split
      · exact ⟨h, rfl⟩
      split
      · exact ⟨h, rfl⟩
      cases (s.files d).dcache.lookup name with
      | some entry => exact ⟨h, rfl⟩
      | none =>
          cases MemoryDirectory.getChild s d name with
          | none => exact ⟨h, rfl⟩
          | some child =>
              have hcache : ∀ t : State,
                  Directory.cacheChild t d name child .normal = t.setParent child (some d) :=
                fun _ => rfl
              simp only [hcache]
              exact ⟨h.modify child _, trivial⟩

end SameNamespace

namespace Path

/-- The parser of link targets does not look at descriptors. -/
def ParserAgrees (parse : TargetParser) : Prop :=
  ∀ {s s' : State}, SameNamespace s s' → ∀ target dir recursions,
    Agree (parse s target dir recursions) (parse s' target dir recursions)

variable {parse : TargetParser} {s s' : State}

theorem followLinks_agree (hparse : ParserAgrees parse) (h : SameNamespace s s') (dir : FileId)
    (fuel : Nat) (child : FileId) (recursions : Nat) :
    Agree (followLinks parse dir fuel s child recursions)
      (followLinks parse dir fuel s' child recursions) := by
  induction fuel generalizing s s' child recursions with
  | zero => exact ⟨h, rfl⟩
  | succ fuel ih =>
      simp only [followLinks, h.files]
      cases (s.files child).target? with
      | none => exact ⟨h, rfl⟩
      | some target =>
          simp only
          split
          · exact ⟨h, rfl⟩
          split
          · exact ⟨h, rfl⟩
          have hagree := hparse h target dir (recursions + 1)
          rcases hp : parse s target dir (recursions + 1) with ⟨s₁, n, result⟩
          rcases hp' : parse s' target dir (recursions + 1) with ⟨s₁', n', result'⟩
          rw [hp, hp'] at hagree
          obtain ⟨h₁, hresults⟩ := hagree
          cases hresults
          cases result with
          | error e => exact ⟨h₁, rfl⟩
          | ok c => exact ih h₁ c n

theorem getChildWith_agree (hparse : ParserAgrees parse) (h : SameNamespace s s') (dir : FileId)
    (name : Name) (links : LinkBehavior) (recursions : Nat) :
    Agree (getChildWith parse s dir name links recursions)
      (getChildWith parse s' dir name links recursions) := by
  simp only [getChildWith]
  have hchild := h.getChild dir name
  rcases hc : Directory.getChild s dir name with ⟨s₁, child?⟩
  rcases hc' : Directory.getChild s' dir name with ⟨s₁', child?'⟩
  rw [hc, hc'] at hchild
  obtain ⟨h₁, hresults⟩ := hchild
  cases hresults
  cases child? with
  | none => exact ⟨h₁, rfl⟩
  | some child =>
      simp only
      split
      · exact ⟨h₁, rfl⟩
      · exact followLinks_agree hparse h₁ dir _ child recursions

theorem parseSegments_agree (hparse : ParserAgrees parse) (h : SameNamespace s s') (fuel : Nat)
    (path : Name) (curr : FileId) (recursions : Nat) :
    Agree (parseSegments parse fuel s path curr recursions)
      (parseSegments parse fuel s' path curr recursions) := by
  induction fuel generalizing s s' path curr recursions with
  | zero => exact ⟨h, rfl⟩
  | succ fuel ih =>
      simp only [parseSegments]
      cases (path.dropWhile (· == slash)).findIdx? (· == slash) with
      | none => exact ⟨h, rfl⟩
      | some segmentEnd =>
          simp only
          have hagree := getChildWith_agree hparse h curr
            ((path.dropWhile (· == slash)).take segmentEnd) .followLinks recursions
          rcases hp : getChildWith parse s curr ((path.dropWhile (· == slash)).take segmentEnd)
            .followLinks recursions with ⟨s₁, n, result⟩
          rcases hp' : getChildWith parse s' curr ((path.dropWhile (· == slash)).take segmentEnd)
            .followLinks recursions with ⟨s₁', n', result'⟩
          rw [hp, hp'] at hagree
          obtain ⟨h₁, hresults⟩ := hagree
          cases hresults
          cases result with
          | error e => exact ⟨h₁, rfl⟩
          | ok child =>
              have hfiles : s₁'.files = s₁.files := h₁.files
              simp only [hfiles]
              split
              · exact ih h₁ _ child n
              · exact ⟨h₁, rfl⟩

theorem doParseParentWith_agree (hparse : ParserAgrees parse) (h : SameNamespace s s')
    (path : Name) (curr : FileId) (recursions : Nat) :
    Agree (doParseParentWith parse s path curr recursions)
      (doParseParentWith parse s' path curr recursions) := by
  cases path with
  | nil => exact ⟨h, rfl⟩
  | cons c rest =>
      simp only [doParseParentWith, h.root]
      generalize stripTrailing (if c = slash then rest else c :: rest) = path
      by_cases hpath : path = []
      · rw [if_pos hpath, if_pos hpath]
        exact ⟨h, rfl⟩
      · rw [if_neg hpath, if_neg hpath]
        exact parseSegments_agree hparse h _ _ _ _

theorem doParseFileWith_agree (hparse : ParserAgrees parse) (h : SameNamespace s s')
    (path : Name) (base : FileId) (links : LinkBehavior) (recursions : Nat) :
    Agree (doParseFileWith parse s path base links recursions)
      (doParseFileWith parse s' path base links recursions) := by
  simp only [doParseFileWith]
  have hagree := doParseParentWith_agree hparse h path base recursions
  rcases hp : doParseParentWith parse s path base recursions with ⟨s₁, n, result⟩
  rcases hp' : doParseParentWith parse s' path base recursions with ⟨s₁', n', result'⟩
  rw [hp, hp'] at hagree
  obtain ⟨h₁, hresults⟩ := hagree
  cases hresults
  cases result with
  | error e => exact ⟨h₁, rfl⟩
  | ok parsed => exact getChildWith_agree hparse h₁ parsed.1 parsed.2 links n

theorem parseTarget_agree (n : Nat) : ParserAgrees (parseTarget n) := by
  induction n with
  | zero => exact fun h _ _ _ => ⟨h, rfl⟩
  | succ n ih => exact fun h target dir recursions => doParseFileWith_agree ih h target dir _ _

/-! ## Parsing from a directory -/

/-- `parseParent` once the directory is known. -/
def parseParentFrom (s : State) (base : Except Errno FileId) (path : Name) :
    State × Except Errno (FileId × Name) :=
  match base with
  | .error e => (s, .error e)
  | .ok base =>
      let (s, _, parsed) := doParseParent s path base 0
      (s, parsed)

/-- `parseFile` once the directory is known. -/
def parseFileFrom (s : State) (base : Except Errno FileId) (path : Name) (links : LinkBehavior) :
    State × Except Errno FileId :=
  match base with
  | .error e => (s, .error e)
  | .ok base =>
      let (s, _, parsed) := doParseFile s path base links 0
      (s, parsed)

theorem parseParentFrom_congr (h : SameNamespace s s') (base : Except Errno FileId)
    (path : Name) : (parseParentFrom s' base path).2 = (parseParentFrom s base path).2 := by
  cases base with
  | error e => rfl
  | ok base =>
      have hagree := doParseParentWith_agree (parseTarget_agree MAX_RECURSIONS) h path base 0
      simp only [parseParentFrom, doParseParent, hagree.results]

theorem parseFileFrom_congr (h : SameNamespace s s') (base : Except Errno FileId) (path : Name)
    (links : LinkBehavior) :
    (parseFileFrom s' base path links).2 = (parseFileFrom s base path links).2 := by
  cases base with
  | error e => rfl
  | ok base =>
      have hagree := doParseFileWith_agree (parseTarget_agree MAX_RECURSIONS) h path base links 0
      simp only [parseFileFrom, doParseFile, hagree.results]

end Path

/-! ## The calls after parsing -/

namespace Syscall

/-- `__syscall_symlinkat` after parsing. -/
def symlinkParsed (host : Host) (target : Name) :
    State × Except Errno (FileId × Name) → SysResult
  | (s, .error e) => .ok (s, e.neg)
  | (s, .ok (parent, childName)) =>
      if childName.length > WASMFS_NAME_MAX then .ok (s, Errno.nametoolong.neg)
      else
        match Directory.getChild s parent childName with
        | (s, some _) => .ok (s, Errno.exist.neg)
        | (s, none) =>
            if h : target.length ≤ Target.maxSize then
              match Directory.insertSymlink host s parent childName ⟨target, h⟩ with
              | (s, none) => .ok (s, Errno.perm.neg)
              | (s, some _) => .ok (s, 0)
            else .error .lengthError

/-- `__syscall_unlinkat` after parsing. -/
def unlinkParsed (host : Host) (removeDir : Bool) :
    State × Except Errno (FileId × Name) → State × Int
  | (s, .error e) => (s, e.neg)
  | (s, .ok (parent, childName)) =>
      match Directory.getChild s parent childName with
      | (s, none) => (s, Errno.noent.neg)
      | (s, some file) =>
          if file = s.rootDirectory then (s, Errno.busy.neg)
          else if (s.files file).isDirectory ∧ ¬ removeDir then (s, Errno.isdir.neg)
          else if (s.files file).isDirectory ∧ Directory.getNumEntries s file > 0 then
            (s, Errno.notempty.neg)
          else if ¬ (s.files file).isDirectory ∧ removeDir then (s, Errno.notdir.neg)
          else if ¬ (s.files parent).writable then (s, Errno.acces.neg)
          else Directory.removeChild host s parent childName

theorem unlinkat_eq (host : Host) (s : State) (dirfd : Nat) (path : Name) (removeDir : Bool) :
    unlinkat host s dirfd path removeDir =
      if removeDir ∧ endsInDot path then (s, Errno.inval.neg)
      else unlinkParsed host removeDir (Path.parseParent s path dirfd) := rfl

/-- `__syscall_readlinkat` after parsing. -/
def readlinkParsed (bufsize : Nat) : State × Except Errno FileId → State × Int × List UInt8
  | (s, .error e) => (s, e.neg, [])
  | (s, .ok file) =>
      match (s.files file).target? with
      | none => (s, Errno.inval.neg, [])
      | some target =>
          let bytes := min bufsize target.length
          (s, s32 bytes, target.take bytes)

end Syscall

/-- A directory and a path that is parsed from there. -/
abbrev Start := Except Errno FileId × Name

namespace Call

/-- The directories and paths that a call parses. -/
def starts (host : Host) (s : State) : Call → List Start
  | path_create_directory _ path => [(Path.getBaseDir s host.dirfd.toNat, cstr path)]
  | path_filestat_get _ path => [(Path.getBaseDir s Path.AT_FDCWD, cstr path)]
  | path_filestat_set_times fd path _ _ => [(Path.getBaseDir s fd.toNat, cstr path)]
  | path_link _ oldPath newFd _ => [(Path.getBaseDir s newFd.toNat, cstr oldPath)]
  | path_open dirfd path _ => [(Path.getBaseDir s dirfd.toNat, cstr path)]
  | path_readlink dirFd path _ => [(Path.getBaseDir s dirFd.toNat, cstr path)]
  | path_remove_directory fd path => [(Path.getBaseDir s fd.toNat, cstr path)]
  | path_rename oldFd oldPath newFd newPath =>
      [(Path.getBaseDir s oldFd.toNat, cstr oldPath), (Path.getBaseDir s newFd.toNat, cstr newPath)]
  | path_symlink oldPath fd _ => [(Path.getBaseDir s fd.toNat, cstr oldPath)]
  | path_unlink_file dirfd path => [(Path.getBaseDir s dirfd.toNat, cstr path)]
  | _ => []

/-- Run a call with its paths parsed from given directories. -/
def execFrom (host : Host) (s : State) : Call → List Start → Result
  | path_create_directory _ _, [(base, path)] =>
      let (s, parsed) := Path.parseParentFrom s base path
      let (s, ret) := Syscall.doMkdir host s parsed (S_IRUGO ||| S_IXUGO)
      .ok (s, ⟨u16 ret, .nothing⟩)
  | path_filestat_get _ _, [(base, path)] =>
      match Path.parseFileFrom s base path .followLinks with
      | (s, .error e) => .ok (s, ⟨u16 e.neg, .nothing⟩)
      | (s, .ok file) => .ok (s, ⟨0, .filetype (s.files file).isDirectory⟩)
  | path_filestat_set_times _ _ atim mtim, [(base, path)] =>
      match Path.parseFileFrom s base path .followLinks with
      | (s, .error e) => .ok (s, ⟨u16 e.neg, .nothing⟩)
      | (s, .ok file) => .ok (Export.set_times host s file atim mtim, ⟨0, .nothing⟩)
  | path_link _ _ _ newPath, [(base, path)] | path_symlink _ _ newPath, [(base, path)] =>
      match Syscall.symlinkParsed host (cstr newPath) (Path.parseParentFrom s base path) with
      | .error e => .error e
      | .ok (s, ret) => .ok (s, ⟨u16 ret, .nothing⟩)
  | path_open _ _ oflags, [(base, path)] =>
      let (s, parsed) := Path.parseParentFrom s base path
      match Syscall.doOpen host s parsed oflags.toNat 0 with
      | .error e => .error e
      | .ok (s, ret) => .ok (s, ⟨0, .fd (u32 ret)⟩)
  | path_readlink _ _ bufLen, [(base, path)] =>
      let (s, bytes, copied) :=
        Syscall.readlinkParsed bufLen.toNat (Path.parseFileFrom s base path .noFollowLinks)
      if bytes < 0 then .ok (s, ⟨u16 (-bytes), .nothing⟩)
      else .ok (s, ⟨0, .link (u32 bytes) copied⟩)
  | path_remove_directory _ _, [(base, path)] =>
      if Syscall.endsInDot path then .ok (s, ⟨u16 Errno.inval.neg, .nothing⟩)
      else
        let (s, ret) := Syscall.unlinkParsed host true (Path.parseParentFrom s base path)
        .ok (s, ⟨u16 ret, .nothing⟩)
  | path_rename _ _ _ _, [(oldBase, oldPath), (newBase, newPath)] =>
      match Path.parseParentFrom s oldBase oldPath with
      | (s, .error e) => .ok (s, ⟨u16 e.neg, .nothing⟩)
      | (s, .ok (oldParent, oldLeaf)) =>
          match Path.parseParentFrom s newBase newPath with
          | (s, .error e) => .ok (s, ⟨u16 e.neg, .nothing⟩)
          | (s, .ok (newParent, newLeaf)) =>
              match Syscall.renameParsed host s oldParent oldLeaf newParent newLeaf with
              | .error e => .error e
              | .ok (s, ret) => .ok (s, ⟨u16 ret, .nothing⟩)
  | path_unlink_file _ _, [(base, path)] =>
      let (s, ret) := Syscall.unlinkParsed host false (Path.parseParentFrom s base path)
      .ok (s, ⟨u16 ret, .nothing⟩)
  | c, _ => exec host s c

end Call

/-- A call parses what `starts` says, and uses nothing else of its descriptors. -/
theorem exec_eq_execFrom {host : Host} {s : State} (h : s.tree.WF) (c : Call) :
    exec host s c = c.execFrom host s (c.starts host s) := by
  cases c with
  | path_rename oldFd oldPath newFd newPath =>
      have hfrom : ∀ fd path, Path.parseParentFrom s (Path.getBaseDir s fd) path =
          (s, (Path.parseParent s path fd).2) := fun fd path => Path.parseParent_state h path fd
      simp only [exec, Export.path_rename, Syscall.renameat, Call.execFrom, Call.starts, hfrom]
      rw [Path.parseParent_state h]
      cases (Path.parseParent s (cstr oldPath) oldFd.toNat).2 with
      | error e => rfl
      | ok parsed =>
          obtain ⟨oldParent, oldLeaf⟩ := parsed
          simp only [hfrom]
          rw [Path.parseParent_state h]
          cases (Path.parseParent s (cstr newPath) newFd.toNat).2 <;> rfl
  | path_remove_directory fd path =>
      simp only [exec, Export.path_remove_directory, Syscall.unlinkat_eq, Call.execFrom,
        Call.starts]
      by_cases hdot : Syscall.endsInDot (cstr path)
      · simp only [hdot, and_self, if_true]
      · simp only [hdot, Bool.false_eq_true, and_false, if_false]
        rfl
  | _ => rfl

/-! ## The descriptors that a call is given -/

/-- The descriptors and paths that a caller gives to a call.  The path of a link is
the new path, as its documentation says. -/
def Call.given : Call → List (UInt32 × Name)
  | .path_create_directory fd path => [(fd, cstr path)]
  | .path_filestat_get fd path => [(fd, cstr path)]
  | .path_filestat_set_times fd path _ _ => [(fd, cstr path)]
  | .path_link _ _ newFd newPath => [(newFd, cstr newPath)]
  | .path_open dirfd path _ => [(dirfd, cstr path)]
  | .path_readlink dirFd path _ => [(dirFd, cstr path)]
  | .path_remove_directory fd path => [(fd, cstr path)]
  | .path_rename oldFd oldPath newFd newPath => [(oldFd, cstr oldPath), (newFd, cstr newPath)]
  | .path_symlink _ fd newPath => [(fd, cstr newPath)]
  | .path_unlink_file dirfd path => [(dirfd, cstr path)]
  | _ => []

/-- The descriptor `fd` is open on the linked directory `d`. -/
def OpenOn (s : State) (fd : UInt32) (d : FileId) : Prop :=
  ∃ o, FileTable.getEntry s fd.toNat = some o ∧ (s.descriptions o).file = d ∧
    (s.files d).isDirectory ∧ s.getParent d ≠ none

theorem OpenOn.of_map {s : State} {fd : UInt32} {d : FileId}
    (hfile : (FileTable.getEntry s fd.toNat).map (fun o => (s.descriptions o).file) = some d)
    (hdir : (s.files d).isDirectory) (hparent : s.getParent d ≠ none) : OpenOn s fd d := by
  obtain ⟨o, ho, hfile⟩ := Option.map_eq_some_iff.mp hfile
  exact ⟨o, ho, hfile, hdir, hparent⟩

/-- The call parses its paths from the given directories, acts on what it finds
there, and finds the same whatever the descriptors and the working directory
are. -/
structure StartsAt (host : Host) (s : State) (c : Call) (starts : List Start) : Prop where
  starts_eq : c.starts host s = starts
  result : exec host s c = c.execFrom host s starts
  independent : ∀ start ∈ starts, ∀ {s'}, SameNamespace s s' →
    (Path.parseParentFrom s' start.1 start.2).2 = (Path.parseParentFrom s start.1 start.2).2 ∧
    ∀ links, (Path.parseFileFrom s' start.1 start.2 links).2 =
      (Path.parseFileFrom s start.1 start.2 links).2

/-- The condition under which a call starts at the descriptors that it is
given, which are open on `ds`. -/
def Call.StartFits (host : Host) (s : State) (ds : List FileId) : Call → Prop
  | path_create_directory _ _ => ∀ d ∈ ds, Path.getBaseDir s host.dirfd.toNat = .ok d
  | path_filestat_get _ _ => ∀ d ∈ ds, s.cwd = d
  | path_link _ oldPath _ newPath => cstr oldPath = cstr newPath
  | path_symlink oldPath _ newPath => cstr oldPath = cstr newPath
  | _ => True

/-- A descriptor that is open on a directory is its own base. -/
theorem OpenOn.getBaseDir {s : State} (h : UsesBalance s) {fd : UInt32} {d : FileId}
    (hfd : OpenOn s fd d) : Path.getBaseDir s fd.toNat = .ok d := by
  obtain ⟨o, ho, rfl, hdir, -⟩ := hfd
  have hlt : fd.toNat < s.table.length := by
    by_contra hge
    rw [FileTable.getEntry, List.getElem?_eq_none (Nat.le_of_not_lt hge)] at ho
    cases ho
  have hne : fd.toNat ≠ Path.AT_FDCWD := by
    have hfits := h.fits
    simp only [FileTable.maxSize] at hfits
    simp only [Path.AT_FDCWD]
    omega
  simp only [Path.getBaseDir, if_neg hne, ho, hdir, if_true]

/-- In a state that a run reaches, a call with descriptors that are open on linked
directories starts there exactly under the condition of the call. -/
theorem startsAt_iff {host : Host} {s : State} (h : Reachable host s) {c : Call}
    {ds : List FileId} (hds : List.Forall₂ (fun given d => OpenOn s given.1 d) c.given ds) :
    StartsAt host s c (List.zipWith (fun given d => (.ok d, given.2)) c.given ds) ↔
      c.StartFits host s ds := by
  have hiff : ∀ {starts : List Start}, StartsAt host s c starts ↔ c.starts host s = starts := by
    intro starts
    refine ⟨StartsAt.starts_eq, ?_⟩
    rintro rfl
    refine ⟨rfl, exec_eq_execFrom h.wf c, ?_⟩
    intro start _ s' hs
    exact ⟨Path.parseParentFrom_congr hs start.1 start.2,
      Path.parseFileFrom_congr hs start.1 start.2⟩
  rw [hiff]
  have hbase : ∀ {fd d}, OpenOn s fd d → Path.getBaseDir s fd.toNat = .ok d :=
    fun hfd => hfd.getBaseDir h.usesBalance
  have hcwd : Path.getBaseDir s Path.AT_FDCWD = .ok s.cwd := if_pos rfl
  cases c with
  | path_create_directory fd path =>
      obtain ⟨d, _, hd, hnil, rfl⟩ := List.forall₂_cons_left_iff.mp hds
      cases hnil
      simp [Call.starts, Call.given, Call.StartFits]
  | path_filestat_get fd path =>
      obtain ⟨d, _, hd, hnil, rfl⟩ := List.forall₂_cons_left_iff.mp hds
      cases hnil
      simp [Call.starts, Call.given, Call.StartFits, hcwd]
  | path_link _ oldPath newFd newPath =>
      obtain ⟨d, _, hd, hnil, rfl⟩ := List.forall₂_cons_left_iff.mp hds
      cases hnil
      simp [Call.starts, Call.given, Call.StartFits, hbase hd]
  | path_symlink oldPath fd newPath =>
      obtain ⟨d, _, hd, hnil, rfl⟩ := List.forall₂_cons_left_iff.mp hds
      cases hnil
      simp [Call.starts, Call.given, Call.StartFits, hbase hd]
  | path_rename oldFd oldPath newFd newPath =>
      obtain ⟨d, _, hd, hrest, rfl⟩ := List.forall₂_cons_left_iff.mp hds
      obtain ⟨d', _, hd', hnil, rfl⟩ := List.forall₂_cons_left_iff.mp hrest
      cases hnil
      simp [Call.starts, Call.given, Call.StartFits, hbase hd, hbase hd']
  | path_filestat_set_times | path_open | path_readlink | path_remove_directory
  | path_unlink_file =>
      obtain ⟨d, _, hd, hnil, rfl⟩ := List.forall₂_cons_left_iff.mp hds
      cases hnil
      simp [Call.starts, Call.given, Call.StartFits, hbase hd]
  | _ =>
      simp [Call.starts, Call.given, Call.StartFits]

/-- The descriptor 4 is open on `/tmp` after these calls. -/
def openTmp : List Call := [.path_open atFdCwd [slash] 0, .path_open 3 tmpName 0]

theorem afterRun_openTmp : ∃ s replies, afterRun openTmp = .ok (s, replies) ∧
    OpenOn s 4 Init.tmp ∧ s.cwd = Init.root := by
  obtain ⟨s, replies, hok, ho, hfile, hdir, hparent, hcwd⟩ : Returns (afterRun openTmp) fun s _ =>
      FileTable.getEntry s (4 : UInt32).toNat = some 4 ∧
      (s.descriptions 4).file = Init.tmp ∧ (s.files Init.tmp).isDirectory ∧
      s.getParent Init.tmp ≠ none ∧ s.cwd = Init.root := by
    decide +kernel
  exact ⟨s, replies, hok, ⟨4, ho, hfile, hdir, hparent⟩, hcwd⟩

theorem startsAt_tmp : ∃ s replies, afterRun openTmp = .ok (s, replies) ∧
    (StartsAt .still s (.path_unlink_file 4 [120]) [(.ok Init.tmp, [120])] ↔
      (Call.path_unlink_file 4 [120]).StartFits .still s [Init.tmp]) := by
  obtain ⟨s, replies, hok, hopen, -⟩ := afterRun_openTmp
  exact ⟨s, replies, hok, startsAt_iff (c := .path_unlink_file 4 [120]) (.of_afterRun hok)
    (.cons hopen .nil)⟩

/-- `path_filestat_get` with a descriptor of `/tmp` starts at the root. -/
theorem not_startsAt_tmp : ¬ ∀ (host : Host) (s : State) (c : Call) (ds : List FileId),
    Reachable host s → List.Forall₂ (fun given d => OpenOn s given.1 d) c.given ds →
    StartsAt host s c (List.zipWith (fun given d => (.ok d, given.2)) c.given ds) := by
  intro hall
  obtain ⟨s, replies, hok, hopen, hcwd⟩ := afterRun_openTmp
  have hstart := hall .still s (.path_filestat_get 4 devName) [Init.tmp] (.of_afterRun hok)
    (.cons hopen .nil)
  have heq : Path.getBaseDir s Path.AT_FDCWD = .ok Init.tmp :=
    congrArg Prod.fst (List.cons.inj hstart.starts_eq).1
  rw [Path.getBaseDir, if_pos rfl, hcwd] at heq
  cases heq

end WasmFS
