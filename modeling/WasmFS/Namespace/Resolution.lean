import WasmFS.Namespace.Handles
import WasmFS.Source.Paths

/-!
# Path resolution leaves the state alone

The parsing functions change the state by lookups only, so they keep what every
lookup keeps (`parseParent_keeps`, `parseFile_keeps`).  In a well-formed tree every
lookup is pure, so they return the state they were given (`parseParent_state`,
`parseFile_state`).  A parsed parent is a directory, and a parsed leaf is a name that is
not empty and has no slash (`parseParent_leaf`).  The leaf may still be `.` or `..`.
-/

namespace WasmFS

/-- A name that can be a segment of a path. -/
def Segment (n : Name) : Prop := n ≠ [] ∧ slash ∉ n

instance (n : Name) : Decidable (Segment n) := inferInstanceAs (Decidable (n ≠ [] ∧ slash ∉ n))

namespace Path

variable {s : State} {parse : TargetParser}

/-! ## What lookups keep -/

section

variable {P : State → Prop}

theorem followLinks_keeps
    (hparse : ∀ {s} target dir recursions, P s → P (parse s target dir recursions).1)
    (dir : FileId) (fuel : Nat) (child : FileId) (recursions : Nat) (h : P s) :
    P (followLinks parse dir fuel s child recursions).1 := by
  induction fuel generalizing s child recursions with
  | zero => exact h
  | succ fuel ih =>
      unfold followLinks
      cases (s.files child).target? with
      | none => exact h
      | some target =>
          simp only
          split
          · exact h
          split
          · exact h
          have h' := hparse target dir (recursions + 1) h
          rcases hp : parse s target dir (recursions + 1) with ⟨s', recursions', result⟩
          rw [hp] at h'
          cases result with
          | error e => exact h'
          | ok child' => exact ih child' recursions' h'

theorem getChildWith_keeps (hchild : ∀ {s} d n, P s → P (Directory.getChild s d n).1)
    (hparse : ∀ {s} target dir recursions, P s → P (parse s target dir recursions).1)
    (dir : FileId) (name : Name) (links : LinkBehavior) (recursions : Nat) (h : P s) :
    P (getChildWith parse s dir name links recursions).1 := by
  unfold getChildWith
  have h' := hchild dir name h
  rcases hc : Directory.getChild s dir name with ⟨s', found⟩
  rw [hc] at h'
  cases found with
  | none => exact h'
  | some child =>
      simp only
      split
      · exact h'
      · exact followLinks_keeps hparse dir _ child recursions h'

theorem parseSegments_keeps (hchild : ∀ {s} d n, P s → P (Directory.getChild s d n).1)
    (hparse : ∀ {s} target dir recursions, P s → P (parse s target dir recursions).1)
    (fuel : Nat) (path : Name) (curr : FileId) (recursions : Nat) (h : P s) :
    P (parseSegments parse fuel s path curr recursions).1 := by
  induction fuel generalizing s path curr recursions with
  | zero => exact h
  | succ fuel ih =>
      unfold parseSegments
      simp only
      cases (path.dropWhile (· == slash)).findIdx? (· == slash) with
      | none => exact h
      | some segmentEnd =>
          simp only
          have h' := getChildWith_keeps hchild hparse curr
            ((path.dropWhile (· == slash)).take segmentEnd) .followLinks recursions h
          rcases hp : getChildWith parse s curr
            ((path.dropWhile (· == slash)).take segmentEnd) .followLinks recursions with
            ⟨s', recursions', result⟩
          rw [hp] at h'
          cases result with
          | error e => exact h'
          | ok child =>
              simp only
              split
              · exact ih _ _ _ h'
              · exact h'

theorem doParseParentWith_keeps (hchild : ∀ {s} d n, P s → P (Directory.getChild s d n).1)
    (hparse : ∀ {s} target dir recursions, P s → P (parse s target dir recursions).1)
    (path : Name) (curr : FileId) (recursions : Nat) (h : P s) :
    P (doParseParentWith parse s path curr recursions).1 := by
  unfold doParseParentWith
  cases path with
  | nil => exact h
  | cons c rest =>
      simp only
      by_cases hpath : stripTrailing (if c = slash then rest else c :: rest) = []
      · rw [if_pos hpath]
        exact h
      · rw [if_neg hpath]
        exact parseSegments_keeps hchild hparse _ _ _ recursions h

theorem doParseFileWith_keeps (hchild : ∀ {s} d n, P s → P (Directory.getChild s d n).1)
    (hparse : ∀ {s} target dir recursions, P s → P (parse s target dir recursions).1)
    (path : Name) (base : FileId) (links : LinkBehavior) (recursions : Nat) (h : P s) :
    P (doParseFileWith parse s path base links recursions).1 := by
  unfold doParseFileWith
  have h' := doParseParentWith_keeps hchild hparse path base recursions h
  rcases hp : doParseParentWith parse s path base recursions with ⟨s', recursions', result⟩
  rw [hp] at h'
  cases result with
  | error e => exact h'
  | ok parsed => exact getChildWith_keeps hchild hparse _ _ links recursions' h'

/-- What every lookup keeps, every parser of link targets keeps. -/
theorem parseTarget_keeps (hchild : ∀ {s} d n, P s → P (Directory.getChild s d n).1) (n : Nat)
    (target : Name) (dir : FileId) (recursions : Nat) (h : P s) :
    P (parseTarget n s target dir recursions).1 := by
  induction n generalizing s target dir recursions with
  | zero => exact h
  | succ n ih => exact doParseFileWith_keeps hchild ih target dir .followLinks recursions h

variable (hchild : ∀ {s} d n, P s → P (Directory.getChild s d n).1)

include hchild

theorem parseParent_keeps (path : Name) (basefd : Nat) (h : P s) :
    P (parseParent s path basefd).1 := by
  unfold parseParent
  cases getBaseDir s basefd with
  | error e => exact h
  | ok base => exact doParseParentWith_keeps hchild (parseTarget_keeps hchild _) path base 0 h

theorem parseFile_keeps (path : Name) (basefd : Nat) (links : LinkBehavior) (h : P s) :
    P (parseFile s path basefd links).1 := by
  unfold parseFile
  cases getBaseDir s basefd with
  | error e => exact h
  | ok base => exact doParseFileWith_keeps hchild (parseTarget_keeps hchild _) path base links 0 h

theorem getFileFrom_keeps (base : FileId) (path : Name) (h : P s) :
    P (getFileFrom s base path).1 :=
  doParseFileWith_keeps hchild (parseTarget_keeps hchild _) path base .followLinks 0 h

end

/-! ## The state -/

/-- A parser of link targets that leaves the state alone. -/
def Pure (s : State) (parse : TargetParser) : Prop :=
  ∀ target dir recursions, (parse s target dir recursions).1 = s

theorem getChild_pure (h : s.tree.WF) {s' : State} (d : FileId) (name : Name) (hs : s' = s) :
    (Directory.getChild s' d name).1 = s := by
  rw [hs, Directory.getChild_eq h]

theorem Pure.keeps (hparse : Pure s parse) {s' : State} (target : Name) (dir : FileId)
    (recursions : Nat) (hs : s' = s) : (parse s' target dir recursions).1 = s := by
  rw [hs]
  exact hparse target dir recursions

theorem getChildWith_state (h : s.tree.WF) (hparse : Pure s parse) (dir : FileId) (name : Name)
    (links : LinkBehavior) (recursions : Nat) :
    (getChildWith parse s dir name links recursions).1 = s :=
  getChildWith_keeps (P := (· = s)) (getChild_pure h) hparse.keeps dir name links recursions rfl

theorem doParseParentWith_state (h : s.tree.WF) (hparse : Pure s parse) (path : Name)
    (curr : FileId) (recursions : Nat) :
    (doParseParentWith parse s path curr recursions).1 = s :=
  doParseParentWith_keeps (P := (· = s)) (getChild_pure h) hparse.keeps path curr recursions rfl

theorem parseTarget_pure (h : s.tree.WF) (n : Nat) : Pure s (parseTarget n) :=
  fun target dir recursions =>
    parseTarget_keeps (P := (· = s)) (getChild_pure h) n target dir recursions rfl

theorem parseParent_state (h : s.tree.WF) (path : Name) (basefd : Nat) :
    parseParent s path basefd = (s, (parseParent s path basefd).2) :=
  Prod.ext (parseParent_keeps (P := (· = s)) (getChild_pure h) path basefd rfl) rfl

theorem parseFile_state (h : s.tree.WF) (path : Name) (basefd : Nat) (links : LinkBehavior) :
    parseFile s path basefd links = (s, (parseFile s path basefd links).2) :=
  Prod.ext (parseFile_keeps (P := (· = s)) (getChild_pure h) path basefd links rfl) rfl

theorem getFileFrom_state (h : s.tree.WF) (base : FileId) (path : Name) :
    getFileFrom s base path = (s, (getFileFrom s base path).2) :=
  Prod.ext (getFileFrom_keeps (P := (· = s)) (getChild_pure h) base path rfl) rfl

/-- Without following a link at the end, a path names the child that its leaf names. -/
theorem parseFile_noFollow (h : s.tree.WF) {path : Name} {basefd : Nat} {parent file : FileId}
    {leaf : Name} (hok : (parseParent s path basefd).2 = .ok (parent, leaf))
    (hfile : s.tree.lookup parent leaf = some file) :
    (parseFile s path basefd .noFollowLinks).2 = .ok file := by
  unfold parseParent at hok
  cases hb : getBaseDir s basefd with
  | error e =>
      rw [hb] at hok
      cases hok
  | ok base =>
      rw [hb] at hok
      have hstate := doParseParentWith_state h (parseTarget_pure h MAX_RECURSIONS) path base 0
      simp only [doParseParent] at hok
      rcases hp : doParseParentWith (parseTarget MAX_RECURSIONS) s path base 0 with
        ⟨s₁, n, result⟩
      rw [hp] at hok hstate
      obtain rfl : s₁ = s := hstate
      obtain rfl : result = .ok (parent, leaf) := hok
      simp only [parseFile, hb, doParseFile, doParseFileWith, hp, getChildWith,
        Directory.getChild_eq h, hfile, if_true]

/-! ## Segments -/

/-- A path that is not empty and does not end in a slash. -/
def Stripped (path : Name) : Prop := path ≠ [] ∧ path.getLast? ≠ some slash

theorem stripTrailing_stripped {path : Name} (h : stripTrailing path ≠ []) :
    Stripped (stripTrailing path) := by
  refine ⟨h, fun hs => ?_⟩
  unfold stripTrailing at hs
  rw [List.getLast?_reverse] at hs
  have hhead := List.head?_dropWhile_not (· == slash) path.reverse
  rw [hs] at hhead
  simp at hhead

theorem Stripped.of_append {p q : Name} (h : Stripped (p ++ q)) (hq : q ≠ []) : Stripped q := by
  refine ⟨hq, ?_⟩
  have hlast := h.2
  rwa [List.getLast?_append_of_ne_nil p hq] at hlast

/-- Leading slashes are not the whole of a stripped path. -/
theorem Stripped.dropWhile {path : Name} (h : Stripped path) :
    Stripped (path.dropWhile (· == slash)) := by
  have hsplit := List.takeWhile_append_dropWhile (p := (· == slash)) (l := path)
  rw [← hsplit] at h
  refine h.of_append fun hnil => ?_
  rw [hnil, List.append_nil] at h
  have hall : ∀ c ∈ path.takeWhile (· == slash), c = slash := fun c hc => by
    simpa using List.all_eq_true.mp List.all_takeWhile c hc
  exact h.2 ((List.getLast?_eq_some_getLast h.1).trans
    (congrArg some (hall _ (List.getLast_mem h.1))))

/-- A stripped path is one segment or a segment followed by a stripped path. -/
theorem Stripped.split {path : Name} (h : Stripped path) :
    (Segment (path.dropWhile (· == slash)) ∧
      (path.dropWhile (· == slash)).findIdx? (· == slash) = none) ∨
    ∃ segment rest, Segment segment ∧ Stripped (slash :: rest) ∧
      path.dropWhile (· == slash) = segment ++ slash :: rest ∧
      (path.dropWhile (· == slash)).findIdx? (· == slash) = some segment.length := by
  have hs := h.dropWhile
  have hhead := List.head?_dropWhile_not (· == slash) path
  generalize path.dropWhile (· == slash) = p at hs hhead ⊢
  cases hi : p.findIdx? (· == slash) with
  | none =>
      refine Or.inl ⟨⟨hs.1, fun hm => ?_⟩, rfl⟩
      simpa using List.findIdx?_eq_none_iff.mp hi slash hm
  | some i =>
      obtain ⟨hlt, hat, hbefore⟩ := List.findIdx?_eq_some_iff_getElem.mp hi
      have hdrop : p.drop i = slash :: p.drop (i + 1) := by
        rw [List.drop_eq_getElem_cons hlt, beq_iff_eq.mp hat]
      have hsplit : p = p.take i ++ slash :: p.drop (i + 1) := by
        rw [← hdrop, List.take_append_drop]
      have hpos : i ≠ 0 := by
        rintro rfl
        rw [List.head?_eq_getElem?, List.getElem?_eq_getElem hlt] at hhead
        simp only at hhead
        rw [hat] at hhead
        cases hhead
      refine Or.inr ⟨p.take i, p.drop (i + 1), ⟨?_, ?_⟩, ?_, hsplit, ?_⟩
      · intro hnil
        rcases List.take_eq_nil_iff.mp hnil with rfl | rfl
        · exact hpos rfl
        · cases hlt
      · intro hm
        obtain ⟨j, hj, hjs⟩ := List.mem_iff_getElem.mp hm
        rw [List.length_take] at hj
        rw [List.getElem_take] at hjs
        exact hbefore j (by omega) (by simpa using hjs)
      · rw [hsplit] at hs
        exact hs.of_append (List.cons_ne_nil _ _)
      · rw [List.length_take]
        congr 1
        omega

/-- The last segment of a path. -/
theorem parseSegments_leaf {fuel : Nat} {path : Name}
    (h : (path.dropWhile (· == slash)).findIdx? (· == slash) = none) (curr : FileId)
    (recursions : Nat) : parseSegments parse (fuel + 1) s path curr recursions =
      (s, recursions, .ok (curr, path.dropWhile (· == slash))) := by
  unfold parseSegments
  simp only [h]

/-- A segment before the last. -/
theorem parseSegments_cons {fuel : Nat} {path segment rest : Name}
    (hpath : path.dropWhile (· == slash) = segment ++ slash :: rest)
    (h : (path.dropWhile (· == slash)).findIdx? (· == slash) = some segment.length)
    (curr : FileId) (recursions : Nat) :
    parseSegments parse (fuel + 1) s path curr recursions =
      match getChildWith parse s curr segment .followLinks recursions with
      | (s, recursions, .error e) => (s, recursions, .error e)
      | (s, recursions, .ok child) =>
          if (s.files child).isDirectory then
            parseSegments parse fuel s (slash :: rest) child recursions
          else (s, recursions, .error .notdir) := by
  rw [hpath] at h
  rcases hchild : getChildWith parse s curr segment .followLinks recursions with
    ⟨s', recursions', e | child⟩
  · simp only [parseSegments, hpath, h, List.take_left, hchild]
  · simp only [parseSegments, hpath, h, List.take_left, List.drop_left, hchild]

/-! ## The leaf -/

/-- A parsed parent is a directory, and a parsed leaf is a segment. -/
theorem parseSegments_ok (h : s.tree.WF) (hparse : Pure s parse) {fuel : Nat} {path : Name}
    {curr parent : FileId} {recursions recursions' : Nat} {s' : State} {leaf : Name}
    (hpath : Stripped path) (hfuel : path.length ≤ fuel) (hcurr : (s.files curr).isDirectory)
    (hok : parseSegments parse fuel s path curr recursions =
      (s', recursions', .ok (parent, leaf))) :
    (s.files parent).isDirectory ∧ Segment leaf := by
  induction fuel generalizing path curr recursions with
  | zero => exact absurd (List.length_eq_zero_iff.mp (Nat.le_zero.mp hfuel)) hpath.1
  | succ fuel ih =>
      rcases hpath.split with ⟨hleaf, hnone⟩ | ⟨segment, rest, hseg, hrest, hsplit, hsome⟩
      · rw [parseSegments_leaf hnone] at hok
        cases hok
        exact ⟨hcurr, hleaf⟩
      · rw [parseSegments_cons hsplit hsome] at hok
        rcases hp : getChildWith parse s curr segment .followLinks recursions with
          ⟨s₁, recursions₁, result⟩
        obtain rfl : s₁ = s :=
          (congrArg Prod.fst hp).symm.trans (getChildWith_state h hparse _ _ _ _)
        rw [hp] at hok
        cases result with
        | error e => cases hok
        | ok child =>
            simp only at hok
            split at hok
            · rename_i hchild
              refine ih hrest ?_ hchild hok
              have hlen := (List.dropWhile_sublist (l := path) (· == slash)).length_le
              have hpos := List.length_pos_of_ne_nil hseg.1
              rw [hsplit, List.length_append] at hlen
              omega
            · cases hok

theorem segment_dot : Segment dot := by decide

theorem doParseParent_ok (h : s.tree.WF) {path : Name} {curr parent : FileId}
    {recursions recursions' : Nat} {s' : State} {leaf : Name}
    (hcurr : (s.files curr).isDirectory)
    (hok : doParseParent s path curr recursions = (s', recursions', .ok (parent, leaf))) :
    (s.files parent).isDirectory ∧ Segment leaf := by
  unfold doParseParent doParseParentWith at hok
  cases path with
  | nil => cases hok
  | cons c rest =>
      have hstart : (s.files (if c = slash then s.rootDirectory else curr)).isDirectory := by
        split
        · rw [← File.node_isDirectory]
          exact h.root_directory
        · exact hcurr
      simp only at hok
      by_cases hpath : stripTrailing (if c = slash then rest else c :: rest) = []
      · rw [if_pos hpath] at hok
        cases hok
        exact ⟨hstart, segment_dot⟩
      · rw [if_neg hpath] at hok
        exact parseSegments_ok h (parseTarget_pure h _) (stripTrailing_stripped hpath)
          (Nat.le_refl _) hstart hok

/-- A base directory is a directory. -/
theorem getBaseDir_isDirectory (h : s.tree.WF) {basefd : Nat} {base : FileId}
    (hok : getBaseDir s basefd = .ok base) : (s.files base).isDirectory := by
  unfold getBaseDir at hok
  split at hok
  · cases hok
    have hroot := h.root_directory
    rw [← h.cwd_root, State.tree_node, File.node_isDirectory] at hroot
    exact hroot
  · split at hok
    · cases hok
    · simp only at hok
      split at hok
      · rename_i hdir
        cases hok
        exact hdir
      · cases hok

theorem parseParent_leaf (h : s.tree.WF) {path : Name} {basefd : Nat} {parent : FileId}
    {leaf : Name} (hok : (parseParent s path basefd).2 = .ok (parent, leaf)) :
    (s.files parent).isDirectory ∧ Segment leaf := by
  unfold parseParent at hok
  cases hb : getBaseDir s basefd with
  | error e =>
      rw [hb] at hok
      cases hok
  | ok base =>
      rw [hb] at hok
      exact doParseParent_ok h (getBaseDir_isDirectory h hb) (Prod.ext rfl (Prod.ext rfl hok))

/-! ## The errors of the parser -/

/-- The errors that a parser may report. -/
def ParseError (e : Errno) : Prop := e = .noent ∨ e = .notdir ∨ e = .loop

/-- The parser of link targets reports no other errors. -/
def ReportsOnly (parse : TargetParser) : Prop :=
  ∀ {s target dir recursions s' n e}, parse s target dir recursions = (s', n, .error e) →
    ParseError e

theorem followLinks_error {parse : TargetParser} (hparse : ReportsOnly parse) {dir : FileId}
    {fuel : Nat} {s s' : State} {child : FileId} {recursions n : Nat} {e : Errno}
    (h : followLinks parse dir fuel s child recursions = (s', n, .error e)) : ParseError e := by
  induction fuel generalizing s child recursions with
  | zero =>
      cases h
      exact Or.inr (Or.inr rfl)
  | succ fuel ih =>
      simp only [followLinks] at h
      split at h
      · cases h
      split at h
      · cases h
        exact Or.inr (Or.inr rfl)
      split at h
      · cases h
        exact Or.inl rfl
      split at h
      · rename_i hp
        cases h
        exact hparse hp
      · exact ih h

theorem getChildWith_error {parse : TargetParser} (hparse : ReportsOnly parse) {s s' : State}
    {dir : FileId} {name : Name} {links : LinkBehavior} {recursions n : Nat} {e : Errno}
    (h : getChildWith parse s dir name links recursions = (s', n, .error e)) : ParseError e := by
  simp only [getChildWith] at h
  split at h
  · cases h
    exact Or.inl rfl
  split at h
  · cases h
  · exact followLinks_error hparse h

theorem parseSegments_error {parse : TargetParser} (hparse : ReportsOnly parse) {fuel : Nat}
    {s s' : State} {path : Name} {curr : FileId} {recursions n : Nat} {e : Errno}
    (h : parseSegments parse fuel s path curr recursions = (s', n, .error e)) :
    ParseError e := by
  induction fuel generalizing s path curr recursions with
  | zero => cases h
  | succ fuel ih =>
      simp only [parseSegments] at h
      split at h
      · cases h
      split at h
      · rename_i hc
        cases h
        exact getChildWith_error hparse hc
      split at h
      · exact ih h
      · cases h
        exact Or.inr (Or.inl rfl)

theorem doParseParentWith_error {parse : TargetParser} (hparse : ReportsOnly parse)
    {s s' : State} {path : Name} {curr : FileId} {recursions n : Nat} {e : Errno}
    (h : doParseParentWith parse s path curr recursions = (s', n, .error e)) : ParseError e := by
  cases path with
  | nil =>
      cases h
      exact Or.inl rfl
  | cons c rest =>
      simp only [doParseParentWith] at h
      generalize stripTrailing (if c = slash then rest else c :: rest) = path at h
      by_cases hpath : path = []
      · rw [if_pos hpath] at h
        cases h
      · rw [if_neg hpath] at h
        exact parseSegments_error hparse h

theorem doParseFileWith_error {parse : TargetParser} (hparse : ReportsOnly parse)
    {s s' : State} {path : Name} {base : FileId} {links : LinkBehavior} {recursions n : Nat}
    {e : Errno} (h : doParseFileWith parse s path base links recursions = (s', n, .error e)) :
    ParseError e := by
  simp only [doParseFileWith] at h
  split at h
  · rename_i hp
    cases h
    exact doParseParentWith_error hparse hp
  · exact getChildWith_error hparse h

theorem parseTarget_error (n : Nat) : ReportsOnly (parseTarget n) := by
  induction n with
  | zero =>
      intro s target dir recursions s' n e h
      cases h
      exact Or.inr (Or.inr rfl)
  | succ n ih => exact fun h => doParseFileWith_error ih h

theorem getFileFrom_error {s : State} {base : FileId} {path : Name} {e : Errno}
    (h : (getFileFrom s base path).2 = .error e) : ParseError e := by
  simp only [getFileFrom, doParseFile] at h
  rcases hp : doParseFileWith (parseTarget MAX_RECURSIONS) s path base .followLinks 0 with
    ⟨s', n, result⟩
  rw [hp] at h
  cases h
  exact doParseFileWith_error (parseTarget_error MAX_RECURSIONS) hp

/-! ## What a resolution finds -/

/-- The parser of link targets finds linked files. -/
def FindsLinked (s : State) (parse : TargetParser) : Prop :=
  ∀ {target dir recursions s' n f}, parse s target dir recursions = (s', n, .ok f) →
    s.tree.forest.Linked f

theorem followLinks_linked {parse : TargetParser} {s s' : State} (hpure : Pure s parse)
    (hparse : FindsLinked s parse) {dir : FileId} {fuel : Nat} {child f : FileId}
    {recursions n : Nat} (hchild : s.tree.forest.Linked child)
    (h : followLinks parse dir fuel s child recursions = (s', n, .ok f)) :
    s.tree.forest.Linked f := by
  induction fuel generalizing child recursions with
  | zero => cases h
  | succ fuel ih =>
      simp only [followLinks] at h
      split at h
      · cases h
        exact hchild
      rename_i target ht
      split at h
      · cases h
      split at h
      · cases h
      split at h
      · cases h
      · rename_i s₁ recursions₁ child₁ hp
        obtain rfl : s₁ = s := (congrArg Prod.fst hp).symm.trans (hpure _ _ _)
        exact ih (hparse hp) h

theorem getChildWith_linked {parse : TargetParser} {s s' : State} (h : s.tree.WF)
    (hpure : Pure s parse) (hparse : FindsLinked s parse) {dir f : FileId} {name : Name}
    {links : LinkBehavior} {recursions n : Nat}
    (hok : getChildWith parse s dir name links recursions = (s', n, .ok f)) :
    s.tree.forest.Linked f := by
  simp only [getChildWith, Directory.getChild_eq h] at hok
  cases hl : s.tree.lookup dir name with
  | none =>
      rw [hl] at hok
      cases hok
  | some child =>
      have hchild := h.linked_of_found hl
      rw [hl] at hok
      simp only at hok
      split at hok
      · cases hok
        exact hchild
      · exact followLinks_linked hpure hparse hchild hok

theorem doParseFileWith_linked {parse : TargetParser} {s s' : State} (h : s.tree.WF)
    (hpure : Pure s parse) (hparse : FindsLinked s parse) {path : Name} {base f : FileId}
    {links : LinkBehavior} {recursions n : Nat}
    (hok : doParseFileWith parse s path base links recursions = (s', n, .ok f)) :
    s.tree.forest.Linked f := by
  simp only [doParseFileWith] at hok
  split at hok
  · cases hok
  · rename_i s₁ recursions₁ parent child hp
    obtain rfl : s₁ = s :=
      (congrArg Prod.fst hp).symm.trans (doParseParentWith_state h hpure _ _ _)
    exact getChildWith_linked h hpure hparse hok

theorem parseTarget_linked {s : State} (h : s.tree.WF) (n : Nat) :
    FindsLinked s (parseTarget n) := by
  induction n with
  | zero =>
      intro target dir recursions s' m f hok
      cases hok
  | succ n ih => exact fun hok => doParseFileWith_linked h (parseTarget_pure h n) ih hok

theorem getFileFrom_linked {s : State} (h : s.tree.WF) {base f : FileId} {path : Name}
    (hok : (getFileFrom s base path).2 = .ok f) : s.tree.forest.Linked f := by
  simp only [getFileFrom, doParseFile] at hok
  rcases hp : doParseFileWith (parseTarget MAX_RECURSIONS) s path base .followLinks 0 with
    ⟨s', n, result⟩
  rw [hp] at hok
  cases hok
  exact doParseFileWith_linked h (parseTarget_pure h _) (parseTarget_linked h _) hp

end Path

end WasmFS
