import WasmFS.Descriptors.Slots
import WasmFS.Namespace.Names
import WasmFS.Namespace.OpenFlags
import WasmFS.Namespace.Walking

/-!
# Opening and parsing agree

`path_open` has its own code for the leaf of a path.  It checks the length of the name,
and it parses the target of a link with the count of links back at zero.  So it follows
more links than `parseFile` does.  Stored names are short, and otherwise both find the
same file (`opening_agrees`).
-/

namespace WasmFS

open LinkedNodes LinkedNodes.Outcome

namespace Path

variable {s : State}

/-- The leaf of a path in a well-formed tree. -/
theorem resolveFile_leaf (h : s.tree.WF) {budget left : Nat} {path leaf : Name}
    {base parent c : FileId}
    (hp : resolveParent budget s path base = (s, .ok ((parent, leaf), left)))
    (hl : s.tree.lookup parent leaf = some c) :
    resolveFile .followLinks budget s path base =
      match (s.files c).target? with
      | none => (s, .ok (c, left))
      | some target => resolver.follow left s parent target [] := by
  unfold resolveFile
  rw [hp, bind_ok, resolveChild, walk_singleton, Directory.getChild_eq h, hl]
  simp only
  cases (s.files c).target? <;> rfl

/-- A file that is found is the leaf or behind the link that the leaf is. -/
theorem resolveFile_cases (h : s.tree.WF) {budget left : Nat} {path : Name} {base f : FileId}
    (hok : resolveFile .followLinks budget s path base = (s, .ok (f, left))) :
    ∃ parent leaf c n, resolveParent budget s path base = (s, .ok ((parent, leaf), n)) ∧
      s.tree.lookup parent leaf = some c ∧
      (((s.files c).target? = none ∧ f = c) ∨
        ∃ target n', (s.files c).target? = some target ∧ n = n' + 1 ∧
          resolveFile .followLinks n' s target parent = (s, .ok (f, left))) := by
  have hstate := resolveParent_state h budget path base
  rcases hp : resolveParent budget s path base with ⟨s₁, e | ⟨⟨parent, leaf⟩, n⟩⟩
  · rw [resolveFile, hp] at hok
    cases hok
  rw [hp] at hstate
  subst hstate
  cases hl : s₁.tree.lookup parent leaf with
  | none =>
      rw [resolveFile, hp, bind_ok, resolveChild, walk_singleton, Directory.getChild_eq h, hl]
        at hok
      cases hok
  | some c =>
      refine ⟨parent, leaf, c, n, rfl, hl, ?_⟩
      rw [resolveFile_leaf h hp hl] at hok
      cases ht : (s₁.files c).target? with
      | none =>
          rw [ht] at hok
          cases hok
          exact Or.inl ⟨rfl, rfl⟩
      | some target =>
          rw [ht] at hok
          cases n with
          | zero => cases hok
          | succ n' =>
              exact Or.inr ⟨target, n', rfl, rfl, (follow_eq ..).symm.trans hok⟩

/-- What a parsed file is to the resolver. -/
theorem resolveFile_of_parseFile {path : Name} {basefd : Nat} {f : FileId}
    (hok : (parseFile s path basefd .followLinks).2 = .ok f) (h : s.tree.WF) :
    ∃ base left, getBaseDir s basefd = .ok base ∧
      resolveFile .followLinks MAX_RECURSIONS s path base = (s, .ok (f, left)) := by
  cases hb : getBaseDir s basefd with
  | error e =>
      rw [parseFile, hb] at hok
      cases hok
  | ok base =>
      have hstate := resolveFile_state h .followLinks MAX_RECURSIONS path base
      rw [parseFile_eq_resolveFile hb] at hok
      rcases hr : resolveFile .followLinks MAX_RECURSIONS s path base with ⟨s₁, e | ⟨c, left⟩⟩
      · rw [hr] at hok
        cases hok
      · rw [hr] at hok hstate
        cases hok
        subst hstate
        exact ⟨base, left, rfl, hr⟩

/-- The run behind a parsed parent. -/
theorem runs_of_parseParent (h : s.tree.WF) {path leaf : Name} {basefd : Nat} {parent : FileId}
    (hok : (parseParent s path basefd).2 = .ok (parent, leaf)) :
    ∃ base met, getBaseDir s basefd = .ok base ∧
      Runs (.doParseParent path base) s 0 met s met.length (.ok (.leaf parent leaf)) ∧
      met.length ≤ MAX_RECURSIONS ∧ resolveParent MAX_RECURSIONS s path base =
        (s, .ok ((parent, leaf), MAX_RECURSIONS - met.length)) := by
  cases hb : getBaseDir s basefd with
  | error e =>
      rw [parseParent, hb] at hok
      cases hok
  | ok base =>
      obtain ⟨met, hrun⟩ := answers_doParseParent s path base (Nat.zero_le _)
      have hwalk := doParseParent_outcome s path base (Nat.zero_le _)
      have hstate := resolveParent_state h (MAX_RECURSIONS - 0) path base
      rcases hp : doParseParent s path base 0 with ⟨s₁, n, r⟩
      rw [hp] at hrun hwalk
      simp only [parseParent, hb, hp] at hok
      subst hok
      rw [← hwalk] at hstate
      obtain rfl : s₁ = s := hstate
      have hcounts := hrun.counts (Nat.zero_le _)
      obtain rfl : n = met.length := hcounts.length_of_ok.trans (Nat.zero_add _)
      exact ⟨base, met, rfl, hrun, hcounts.of_ok.2, hwalk.symm⟩

/-- The run behind a file that is found from a directory. -/
theorem runs_of_getFileFrom (h : s.tree.WF) {path : Name} {base f : FileId}
    (hok : (getFileFrom s base path).2 = .ok f) :
    ∃ met, Runs (.doParseFile path base .followLinks) s 0 met s met.length (.ok (.file f)) ∧
      met.length ≤ MAX_RECURSIONS ∧ resolveFile .followLinks MAX_RECURSIONS s path base =
        (s, .ok (f, MAX_RECURSIONS - met.length)) := by
  obtain ⟨met, hrun⟩ := answers_doParseFile s path base .followLinks (Nat.zero_le _)
  have hwalk := doParseFile_outcome s path base .followLinks (Nat.zero_le _)
  have hstate := resolveFile_state h .followLinks (MAX_RECURSIONS - 0) path base
  rcases hp : doParseFile s path base .followLinks 0 with ⟨s₁, n, r⟩
  rw [hp] at hrun hwalk
  simp only [getFileFrom, hp] at hok
  subst hok
  rw [← hwalk] at hstate
  obtain rfl : s₁ = s := hstate
  have hcounts := hrun.counts (Nat.zero_le _)
  obtain rfl : n = met.length := hcounts.length_of_ok.trans (Nat.zero_add _)
  exact ⟨met, hrun, hcounts.of_ok.2, hwalk.symm⟩

/-- A link whose target takes `m` links with the whole budget takes `m + 1`. -/
theorem answer_follow {b m : Nat} {target : Name} {dir f : FileId} (hb : b ≤ MAX_RECURSIONS)
    (hm : m ≤ MAX_RECURSIONS)
    (hok : resolveFile .followLinks MAX_RECURSIONS s target dir =
      (s, .ok (f, MAX_RECURSIONS - m))) :
    (resolver.follow b s dir target []).answer.2 = if m + 1 ≤ b then .ok f else .error .loop := by
  cases b with
  | zero => rfl
  | succ b =>
      rw [follow_eq]
      have hbudget : MAX_RECURSIONS = b + (MAX_RECURSIONS - b) := by omega
      by_cases hmb : m ≤ b
      · have hleft : MAX_RECURSIONS - m = (b - m) + (MAX_RECURSIONS - b) := by omega
        rw [hleft] at hok
        nth_rewrite 1 [hbudget] at hok
        rw [resolveFile_sub hok, if_pos (by omega)]
        rfl
      · rw [if_neg (by omega)]
        by_contra hloop
        have hmore := resolveFile_add (MAX_RECURSIONS - b) (ne_error_of_answer hloop)
        rw [← hbudget, hok] at hmore
        rcases hr : resolveFile .followLinks b s target dir with ⟨s₁, e | ⟨c, left⟩⟩
        · rw [hr] at hmore
          cases hmore
        · rw [hr] at hmore
          simp only [more, Prod.mk.injEq, Except.ok.injEq] at hmore
          omega

end Path

/-! ## From parsing to opening -/

variable {host : Host} {s s' : State} {r : Reply}

/-- What a lookup finds has a short name. -/
theorem Tree.ShortNames.of_lookup {t : Tree} (h : t.WF) (hnames : t.ShortNames) {d c : FileId}
    {n : Name} (hl : t.lookup d n = some c) : n.length ≤ WASMFS_NAME_MAX := by
  cases h.finds hl with
  | self => decide
  | parent => decide
  | child _ _ he => exact hnames he

/-- The file that is parsed is the one that `open` works on. -/
theorem Syscall.resolves_of_parseFile (h : s.tree.WF) (hnames : s.tree.ShortNames) {path : Name}
    {dirfd : Nat} {f : FileId} (hok : (Path.parseFile s path dirfd .followLinks).2 = .ok f) :
    ∃ parent leaf c, Resolves s path dirfd parent leaf c f := by
  obtain ⟨base, left, hbase, hwalk⟩ := Path.resolveFile_of_parseFile hok h
  obtain ⟨parent, leaf, c, n, hp, hl, hc⟩ := Path.resolveFile_cases h hwalk
  have hparsed : (Path.parseParent s path dirfd).2 = .ok (parent, leaf) := by
    rw [Path.parseParent_eq_resolveParent hbase, hp]
    rfl
  refine ⟨parent, leaf, c, hparsed, Tree.ShortNames.of_lookup h hnames hl, hl, ?_⟩
  rcases hc with ⟨ht, rfl⟩ | ⟨target, n', ht, rfl, htarget⟩
  · simp only [openTarget, ht]
  · -- the target is found with the links that are left, so it is with all of them
    simp only [openTarget, ht]
    have hle := Path.resolveParent_left_le hp
    have hleft : Path.MAX_RECURSIONS = n' + (Path.MAX_RECURSIONS - n') := by omega
    rw [Path.getFileFrom_eq_resolveFile, hleft, Path.resolveFile_add, htarget]
    · rfl
    · rw [htarget]
      intro he
      cases he

/-- Only the read permission is checked before a file is opened for reading. -/
theorem Syscall.openable_read {child : FileId} (hr : (s.files child).readable) :
    Openable s child 0 := by
  refine (openable_wasi (by decide) child).mpr ⟨fun _ => rfl, fun _ => hr, fun hmode => ?_⟩
  exact absurd hmode (by decide)

theorem Syscall.openExisting_unreadable {child : FileId} (hr : ¬ (s.files child).readable) :
    openExisting s child 0 = .ok (s, Errno.acces.neg) := by
  obtain ⟨hcreat, hexcl, -⟩ := wasiFlags_hasFlag (n := 0) (by decide)
  have hmode : 0 &&& O_ACCMODE = O_RDONLY := rfl
  simp only [openExisting, hcreat, hr, hmode, Bool.false_eq_true, and_false, ne_eq,
    not_true_eq_false, true_or, not_false_eq_true, and_true, if_false, if_true]

/-- A description is of one file. -/
theorem Opens.unique {f f' : FileId} (h : Opens s' r f) (h' : Opens s' r f') : f = f' := by
  obtain ⟨v, o, hv, ho, rfl⟩ := h
  obtain ⟨v', o', hv', ho', rfl⟩ := h'
  have heq : Out.fd v = .fd v' := hv.symm.trans hv'
  cases heq
  cases ho.symm.trans ho'
  rfl

/-- `openat2` for reading of a path that leads to a file. -/
theorem Syscall.openat2_read (h : s.tree.WF) (host : Host) {dirfd : Nat} {path : Name}
    {parent c f : FileId} {leaf : Name} (hres : Resolves s path dirfd parent leaf c f) :
    openat2 host s dirfd path 0 0 = openExisting s f 0 := by
  rw [openat2_wasi h host (by decide) hres.parsed, if_neg (by decide),
    if_neg (Nat.not_lt.mpr hres.length), hres.lookup]
  simp only [hres.target]

/-! ## From opening to parsing -/

/-- The links that `open` meets on the way to `f`: those on the way to the leaf, and if
the leaf is a link, the leaf and those on the way to its target. -/
inductive OpenMeets (s : State) (path : Name) (base f : FileId) : List Path.Met → Prop where
  | file {n : Nat} {met : List Path.Met} {parent : FileId} {leaf : Name} :
      Path.Runs (.doParseParent path base) s 0 met s n (.ok (.leaf parent leaf)) →
      s.tree.lookup parent leaf = some f → (s.files f).target? = none →
      OpenMeets s path base f met
  | link {n n' : Nat} {met met' : List Path.Met} {parent c : FileId} {leaf target : Name} :
      Path.Runs (.doParseParent path base) s 0 met s n (.ok (.leaf parent leaf)) →
      s.tree.lookup parent leaf = some c → (s.files c).target? = some target →
      Path.Runs (.doParseFile target parent .followLinks) s 0 met' s n' (.ok (.file f)) →
      OpenMeets s path base f (met ++ .dereferenced c :: met')

/-- Opening for reading and parsing with links followed agree. -/
structure OpeningAgrees (host : Host) (s : State) (dirfd : UInt32) (path : List UInt8) :
    Prop where
  /-- What is parsed is opened if it may be read. -/
  opens : ∀ {f}, (Path.parseFile s (cstr path) dirfd.toNat .followLinks).2 = .ok f →
    (∃ s' r, Export.path_open host s dirfd path 0 = .ok (s', r) ∧
      ((Opens s' r f ∧ (s.files f).readable) ∨ (Refuses r .acces ∧ ¬ (s.files f).readable))) ∨
    (∃ e, Export.path_open host s dirfd path 0 = .error e) ∧
      ∀ i < FileTable.maxSize, s.slots i ≠ none
  /-- What is opened is parsed if there are at most 40 links in all. -/
  parses : ∀ {s' r f}, Export.path_open host s dirfd path 0 = .ok (s', r) → Opens s' r f →
    ∃ base met, Path.getBaseDir s dirfd.toNat = .ok base ∧ OpenMeets s (cstr path) base f met ∧
      (Path.parseFile s (cstr path) dirfd.toNat .followLinks).2 =
        if met.length ≤ Path.MAX_RECURSIONS then .ok f else .error .loop

/-- What is parsed is opened if it may be read. -/
theorem opens_of_parseFile (h : Reachable host s) {dirfd : UInt32} {path : List UInt8}
    {f : FileId} (hok : (Path.parseFile s (cstr path) dirfd.toNat .followLinks).2 = .ok f) :
    (∃ s' r, Export.path_open host s dirfd path 0 = .ok (s', r) ∧
      ((Opens s' r f ∧ (s.files f).readable) ∨ (Refuses r .acces ∧ ¬ (s.files f).readable))) ∨
    (∃ e, Export.path_open host s dirfd path 0 = .error e) ∧
      ∀ i < FileTable.maxSize, s.slots i ≠ none := by
  obtain ⟨parent, leaf, c, hres⟩ := Syscall.resolves_of_parseFile h.wf h.shortNames hok
  have hrun : Syscall.openat2 host s dirfd.toNat (cstr path) (0 : UInt16).toNat 0 =
      Syscall.openExisting s f 0 := Syscall.openat2_read h.wf host hres
  by_cases hr : (s.files f).readable
  · cases hexisting : Syscall.openExisting s f 0 with
    | error e =>
        have herror : Export.path_open host s dirfd path 0 = .error e := by
          simp only [Export.path_open, hrun, hexisting]
        exact Or.inr ⟨⟨e, herror⟩, Export.full_of_path_open h.wf herror⟩
    | ok result =>
        obtain ⟨s', ret⟩ := result
        have hopen : Export.path_open host s dirfd path 0 = .ok (s', ⟨0, .fd (u32 ret)⟩) := by
          simp only [Export.path_open, hrun, hexisting]
        have hs' : Reachable host s' := h.tail trivial ⟨_, hopen⟩ (a := .path_open dirfd path 0)
        exact Or.inl ⟨s', _, hopen, Or.inl ⟨Syscall.opens_of_openable (by decide) hs'.usesBalance
          (Syscall.openable_read hr) hexisting, hr⟩⟩
  · rw [Syscall.openExisting_unreadable hr] at hrun
    have hopen : Export.path_open host s dirfd path 0 =
        .ok (s, ⟨0, .fd (u32 Errno.acces.neg)⟩) := by
      simp only [Export.path_open, hrun]
    exact Or.inl ⟨s, _, hopen, Or.inr ⟨rfl, hr⟩⟩

/-- What leads `path_open` to the file that it opens. -/
theorem Export.path_open_resolves (h : Reachable host s) {dirfd : UInt32} {path : List UInt8}
    {f : FileId} (hok : path_open host s dirfd path 0 = .ok (s', r)) (hf : Opens s' r f) :
    ∃ parent leaf c, Syscall.Resolves s (cstr path) dirfd.toNat parent leaf c f := by
  have hs' : Reachable host s' := h.tail trivial ⟨_, hok⟩ (a := .path_open dirfd path 0)
  have hnot : ∀ {e}, ¬ Refuses r e := fun hr => hs'.usesBalance.not_opens_of_refuses hr f hf
  cases hp : (Path.parseParent s (cstr path) dirfd.toNat).2 with
  | error e =>
      have hrun : Syscall.openat2 host s dirfd.toNat (cstr path) (0 : UInt16).toNat 0 =
          .ok (s, e.neg) := by
        unfold Syscall.openat2 Syscall.doOpen
        rw [Path.parseParent_state h.wf, hp]
        rfl
      obtain ⟨ret, hopen, rfl⟩ := path_open_ok hok
      cases hrun.symm.trans hopen
      exact absurd rfl (hnot (e := e))
  | ok parsed =>
      obtain ⟨parent, leaf⟩ := parsed
      cases path_open_wasi h.wf hs'.usesBalance (by decide) hp hok with
      | invalid _ hr => exact absurd hr hnot
      | tooLong _ hr => exact absurd hr hnot
      | missing _ hr => exact absurd hr hnot
      | unresolved _ _ _ hr => exact absurd hr hnot
      | refused _ _ _ _ hr => exact absurd hr hnot
      | @opened c child _ hlen hl ht _ hchild =>
          obtain rfl := hf.unique hchild
          exact ⟨parent, leaf, c, hp, hlen, hl, ht⟩

/-- What is opened is parsed, if the links are not too many. -/
theorem parseFile_of_opens (h : Reachable host s) {dirfd : UInt32} {path : List UInt8}
    {f : FileId} (hok : Export.path_open host s dirfd path 0 = .ok (s', r)) (hf : Opens s' r f) :
    ∃ base met, Path.getBaseDir s dirfd.toNat = .ok base ∧ OpenMeets s (cstr path) base f met ∧
      (Path.parseFile s (cstr path) dirfd.toNat .followLinks).2 =
        if met.length ≤ Path.MAX_RECURSIONS then .ok f else .error .loop := by
  obtain ⟨parent, leaf, c, hres⟩ := Export.path_open_resolves h hok hf
  obtain ⟨base, met, hbase, hrun, hle, hparent⟩ := Path.runs_of_parseParent h.wf hres.parsed
  have htarget := hres.target
  unfold Syscall.openTarget at htarget
  rw [Path.parseFile_eq_resolveFile hbase,
    Path.resolveFile_leaf h.wf hparent hres.lookup]
  cases ht : (s.files c).target? with
  | none =>
      rw [ht] at htarget
      cases htarget
      refine ⟨base, met, hbase, .file hrun hres.lookup ht, ?_⟩
      rw [if_pos hle]
      rfl
  | some target =>
      rw [ht] at htarget
      obtain ⟨met', hrun', hle', hfile⟩ := Path.runs_of_getFileFrom h.wf htarget
      refine ⟨base, _, hbase, .link hrun hres.lookup ht hrun', ?_⟩
      simp only
      rw [Path.answer_follow (Nat.sub_le _ _) hle' hfile]
      refine if_congr ?_ rfl rfl
      rw [List.length_append, List.length_cons]
      omega

/-- Opening for reading and parsing with links followed agree in every reachable state. -/
theorem opening_agrees (h : Reachable host s) (dirfd : UInt32) (path : List UInt8) :
    OpeningAgrees host s dirfd path where
  opens := opens_of_parseFile h
  parses := parseFile_of_opens h

/-- A link `l` in the root, with the target `dev/null`. -/
theorem opening_agrees_link : ∃ s replies f,
    afterRun [.path_open atFdCwd [slash] 0, .path_symlink [108] 3 (devName ++ slash :: nullName)] =
      .ok (s, replies) ∧
    (Path.parseFile s [108] 3 .followLinks).2 = .ok f ∧ (s.files f).readable ∧
    OpeningAgrees .still s 3 [108] := by
  obtain ⟨s, replies, hok, hparsed, hr⟩ :
      Returns (afterRun [.path_open atFdCwd [slash] 0,
        .path_symlink [108] 3 (devName ++ slash :: nullName)]) fun s _ =>
        (Path.parseFile s [108] 3 .followLinks).2.toOption = some Init.null ∧
          (s.files Init.null).readable := by
    decide +kernel
  exact ⟨s, replies, Init.null, hok, ok_of_toOption hparsed, hr,
    opening_agrees (.of_afterRun hok) 3 [108]⟩

end WasmFS
