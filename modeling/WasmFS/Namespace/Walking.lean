import Mathlib.Data.List.TakeWhile
import WasmFS.Lib.Walks
import WasmFS.Namespace.Recursion

/-!
# Paths are walked segment by segment

A path is cut at its slashes, and what is not empty is a segment (`segments`).  The
parser scans the characters of a path, calls itself for the target of a link and goes on
where it was.  The resolver here walks along the segments, and the segments of a target
come in front of those that are left (`resolver`, an instance of `LinkedNodes`).  Both
give the same (`Runs.refines`).

So a path is its segments and whether it starts with a slash, and paths compose
(`parsing_is_walking`).
-/

namespace WasmFS

namespace Path

open LinkedNodes LinkedNodes.Outcome

/-! ## Segments -/

/-- The pieces between slashes that are not empty. -/
def segments (path : Name) : List Name := (path.splitOn slash).filter (· ≠ [])

@[simp] theorem segments_nil : segments [] = [] := rfl

@[simp] theorem segments_append (p q : Name) :
    segments (p ++ slash :: q) = segments p ++ segments q := by
  unfold segments
  rw [List.splitOn_append_cons_self, List.filter_append]

@[simp] theorem segments_slash (q : Name) : segments (slash :: q) = segments q :=
  segments_append [] q

@[simp] theorem segments_concat (p : Name) : segments (p ++ [slash]) = segments p := by
  rw [segments_append, segments_nil, List.append_nil]

theorem head?_of_segment {n : Name} (h : Segment n) : n.head? ≠ some slash := fun hhead =>
  h.2 (List.mem_of_mem_head? hhead)

theorem segments_of_segment {n : Name} (h : Segment n) : segments n = [n] := by
  unfold segments
  rw [List.splitOn_eq_singleton h.2, List.filter_singleton]
  simp [h.1]

theorem segments_dropWhile (path : Name) :
    segments (path.dropWhile (· == slash)) = segments path := by
  induction path with
  | nil => rfl
  | cons c rest ih =>
      by_cases hc : c = slash
      · subst hc
        rw [List.dropWhile_cons_of_pos (by simp), ih, segments_slash]
      · rw [List.dropWhile_cons_of_neg (by simpa using hc)]

theorem segments_stripTrailing (path : Name) : segments (stripTrailing path) = segments path := by
  induction path using List.reverseRecOn with
  | nil => rfl
  | append_singleton rest c ih =>
      unfold stripTrailing at ih ⊢
      rw [List.reverse_concat]
      by_cases hc : c = slash
      · subst hc
        rw [List.dropWhile_cons_of_pos (by simp), ih, segments_concat]
      · rw [List.dropWhile_cons_of_neg (by simpa using hc), List.reverse_cons,
          List.reverse_reverse]

theorem segments_trimmed (path : Name) : segments (trimmed path) = segments path := by
  unfold trimmed
  rw [segments_stripTrailing]
  cases path with
  | nil => rfl
  | cons c rest =>
      by_cases hc : c = slash
      · subst hc
        rw [List.head?_cons, if_pos rfl, List.tail_cons, segments_slash]
      · rw [List.head?_cons, if_neg (by simpa using hc)]

/-- A stripped path has a segment. -/
theorem Stripped.segments_ne_nil {path : Name} (h : Stripped path) : segments path ≠ [] := by
  rw [← segments_dropWhile]
  rcases h.split with ⟨hseg, -⟩ | ⟨segment, rest, hseg, -, hsplit, -⟩
  · rw [segments_of_segment hseg]
    exact List.cons_ne_nil _ _
  · rw [hsplit, segments_append, segments_of_segment hseg]
    exact List.cons_ne_nil _ _

theorem segments_ne_nil_of_trimmed {path : Name} (h : trimmed path ≠ []) : segments path ≠ [] := by
  rw [← segments_trimmed]
  exact (stripTrailing_stripped h).segments_ne_nil

/-! ## The resolver -/

/-- The segments before the last, and the last one.  Slashes only are `.` at the root. -/
def parts (path : Name) : Except Errno (List Name × Name) :=
  if path = [] then .error .noent
  else .ok ((segments path).dropLast, (segments path).getLast?.getD dot)

/-- The files with `Directory::Handle::getChild` and the targets of links. -/
@[simps]
def resolver : LinkedNodes State FileId Name Name Errno where
  child := Directory.getChild
  isDirectory s f := (s.files f).isDirectory
  target s f := (s.files f).target?
  start := startDir
  segments := parts
  missing := .noent
  notDirectory := .notdir
  tooMany := .loop

/-- The directory of the last of the segments, and the last of them. -/
def walkParent (budget : Nat) (xs : List Name) (s : State) (d : FileId) :
    Outcome State Errno (FileId × Name) :=
  (resolver.enter budget xs.dropLast s d).map fun d => (d, xs.getLast?.getD dot)

/-- Walk to the parent of the last segment of a path. -/
def resolveParent (budget : Nat) (s : State) (path : Name) (base : FileId) :
    Outcome State Errno (FileId × Name) :=
  if path = [] then (s, .error .noent)
  else walkParent budget (segments path) s (startDir s path base)

/-- Look up the leaf, and follow the link it is if links are followed. -/
def resolveChild (links : LinkBehavior) (budget : Nat) (s : State) (d : FileId) (name : Name) :
    Outcome State Errno FileId :=
  match links with
  | .followLinks => resolver.walk budget [name] s d
  | .noFollowLinks =>
      match Directory.getChild s d name with
      | (s, none) => (s, .error .noent)
      | (s, some child) => (s, .ok (child, budget))

/-- Walk along a path. -/
def resolveFile (links : LinkBehavior) (budget : Nat) (s : State) (path : Name) (base : FileId) :
    Outcome State Errno FileId :=
  (resolveParent budget s path base).bind fun left s x => resolveChild links left s x.1 x.2

/-- With links followed the walk is along all of the segments. -/
theorem resolveFile_follow (budget : Nat) (s : State) {path : Name} (hpath : path ≠ [])
    (base : FileId) : resolveFile .followLinks budget s path base =
      resolver.walk budget ((segments path).dropLast ++ [(segments path).getLast?.getD dot]) s
        (startDir s path base) := by
  rw [walk_append budget _ (List.cons_ne_nil _ _)]
  unfold resolveFile resolveParent walkParent Outcome.map
  rw [if_neg hpath, bind_assoc]
  rfl

/-- A target is walked along as any path. -/
theorem follow_eq (budget : Nat) (s : State) (dir : FileId) (target : Name) :
    resolver.follow (budget + 1) s dir target [] =
      resolveFile .followLinks budget s target dir := by
  by_cases hpath : target = []
  · subst hpath
    rfl
  · rw [resolveFile_follow budget s hpath]
    simp only [follow, resolver, parts, if_neg hpath]

/-- The first of two parts is walked to a directory. -/
theorem walkParent_append (budget : Nat) (xs : List Name) {ys : List Name} (hys : ys ≠ [])
    (s : State) (d : FileId) : walkParent budget (xs ++ ys) s d =
      (resolver.enter budget xs s d).bind fun left s d => walkParent left ys s d := by
  unfold walkParent Outcome.map
  rw [List.dropLast_append_of_ne_nil hys, List.getLast?_append_of_ne_nil xs hys, enter_append,
    bind_assoc]

/-! ## The parser walks -/

/-- What the resolver does for a job. -/
def Job.reference (budget : Nat) (s : State) : Job → Outcome State Errno Found
  | .getChild dir name links => (resolveChild links budget s dir name).map .file
  | .followLinks dir child =>
      match (s.files child).target? with
      | none => (s, .ok (.file child, budget))
      | some target => (resolver.follow budget s dir target []).map .file
  | .segments path curr =>
      (walkParent budget (Path.segments path) s curr).map fun x => .leaf x.1 x.2
  | .doParseParent path curr =>
      (resolveParent budget s path curr).map fun x => .leaf x.1 x.2
  | .doParseFile path base links => (resolveFile links budget s path base).map .file

/-- A path in the loop of `doParseParent` has no trailing slashes. -/
def Job.Stripped : Job → Prop
  | .segments path _ => Path.Stripped path
  | _ => True

/-- The outcome of a parser: the links that are left are those of the budget that have
not been followed. -/
def Parsed.outcome {α : Type} (p : Parsed α) : Outcome State Errno α :=
  (p.1, p.2.2.map fun x => (x, MAX_RECURSIONS - p.2.1))

/-- A walk of one segment. -/
theorem walk_singleton (budget : Nat) (name : Name) (s : State) (d : FileId) :
    resolver.walk budget [name] s d =
      match Directory.getChild s d name with
      | (s, none) => (s, .error .noent)
      | (s, some c) =>
          match (s.files c).target? with
          | some t => resolver.follow budget s d t []
          | none => (s, .ok (c, budget)) := by
  rw [walk_cons, resolver_child]
  rcases Directory.getChild s d name with ⟨s₁, _ | c⟩
  · rfl
  · simp only [resolver_target, true_or, if_true, walk_nil]
    cases (s₁.files c).target? <;> rfl

/-- A segment before the last is walked to a directory. -/
theorem walkParent_segments {path : Name} {i : Nat} (h : Stripped path)
    (hi : (path.dropWhile (· == slash)).findIdx? (· == slash) = some i) (budget : Nat) (s : State)
    (d : FileId) :
    Stripped ((path.dropWhile (· == slash)).drop i) ∧
    walkParent budget (segments path) s d =
      ((resolveChild .followLinks budget s d ((path.dropWhile (· == slash)).take i)).bind
        resolver.checkDirectory).bind fun left s d =>
          walkParent left (segments ((path.dropWhile (· == slash)).drop i)) s d := by
  rcases h.split with ⟨-, hnone⟩ | ⟨segment, rest, hseg, hrest, hsplit, hsome⟩
  · rw [hi] at hnone
    cases hnone
  · obtain rfl := Option.some.inj (hi.symm.trans hsome)
    have hsegs : segments path = segment :: segments (slash :: rest) := by
      rw [← segments_dropWhile, hsplit, segments_append, segments_of_segment hseg, segments_slash]
      rfl
    rw [hsplit, List.take_left, List.drop_left]
    refine ⟨hrest, ?_⟩
    rw [hsegs, ← List.singleton_append, walkParent_append budget [segment] hrest.segments_ne_nil,
      enter_of_ne_nil (List.cons_ne_nil _ _)]
    rfl

/-- A run of the parser gives what the resolver gives. -/
theorem Runs.refines {job : Job} {s s' : State} {n n' : Nat} {met : List Met}
    {r : Except Errno Found} (h : Runs job s n met s' n' r) (hn : n ≤ MAX_RECURSIONS)
    (hjob : job.Stripped) :
    job.reference (MAX_RECURSIONS - n) s = Parsed.outcome (s', n', r) := by
  induction h with
  | arrived hlink =>
      simp only [Job.reference, hlink]
      rfl
  | tooMany hlink hmax =>
      rw [Nat.sub_eq_zero_of_le (by omega)]
      simp only [Job.reference, hlink]
      rfl
  | @emptyTarget s dir child n hlink hmax =>
      have hleft : MAX_RECURSIONS - n = MAX_RECURSIONS - (n + 1) + 1 := by omega
      rw [hleft]
      simp only [Job.reference, hlink, follow_eq]
      rfl
  | @targetFails s s' dir child n n' target met e hlink hmax hne hrun ih =>
      have hleft : MAX_RECURSIONS - n = MAX_RECURSIONS - (n + 1) + 1 := by omega
      rw [hleft]
      simp only [Job.reference, hlink, follow_eq]
      exact ih (by omega) trivial
  | @follow s s₁ s' dir child child' n n₁ n' target met met' r hlink hmax hne hrun hrun' ih ih' =>
      have hleft : MAX_RECURSIONS - n = MAX_RECURSIONS - (n + 1) + 1 := by omega
      have hbound := (hrun.counts (by omega)).of_ok
      have hend := ih' hbound.2 trivial
      -- the target is followed to its end, so the loop ends here
      simp only [Job.reference, hrun.not_link rfl rfl] at hend
      rw [hleft, ← hend]
      simp only [Job.reference, hlink, follow_eq]
      exact ih (by omega) trivial
  | @missing s s' dir name links n hc =>
      cases links <;> simp only [Job.reference, resolveChild, walk_singleton, hc] <;> rfl
  | notFollowed hc =>
      simp only [Job.reference, resolveChild, hc]
      rfl
  | @found s s₁ s' dir child name n n' met r hc hrun ih =>
      rw [← ih hn trivial]
      simp only [Job.reference, resolveChild, walk_singleton, hc]
      cases (s₁.files child).target? <;> rfl
  | @leaf s path curr n hnone =>
      rcases Stripped.split hjob with ⟨hseg, -⟩ | ⟨segment, rest, -, -, -, hsome⟩
      · have hsegs := segments_of_segment hseg
        rw [segments_dropWhile] at hsegs
        simp only [Job.reference, hsegs]
        rfl
      · rw [hnone] at hsome
        cases hsome
  | @segmentFails s s' path curr n n' i met e hi hrun ih =>
      have hchild := of_map_eq_error (ih hn trivial)
      simp only [Job.reference, (walkParent_segments hjob hi _ _ _).2, hchild]
      rfl
  | @notDirectory s s' path curr child n n' i met hi hrun hdir ih =>
      obtain ⟨_, hf, hchild⟩ := of_map_eq_ok (ih hn trivial)
      cases hf
      simp only [Job.reference, (walkParent_segments hjob hi _ _ _).2, hchild, bind_ok,
        checkDirectory, resolver_isDirectory, hdir]
      rfl
  | @descend s s₁ s' path curr child n n₁ n' i met met' r hi hrun hdir hrun' ih ih' =>
      obtain ⟨_, hf, hchild⟩ := of_map_eq_ok (ih hn trivial)
      cases hf
      have hrest := walkParent_segments hjob hi (MAX_RECURSIONS - n) s curr
      simp only [Job.reference, hrest.2, hchild, bind_ok, checkDirectory, resolver_isDirectory,
        hdir, if_true]
      exact ih' (hrun.counts hn).of_ok.2 hrest.1
  | emptyPath => rfl
  | @onlySlashes s path curr n hpath htrim =>
      have hsegs : segments path = [] := by
        rw [← segments_trimmed, htrim, segments_nil]
      simp only [Job.reference, resolveParent, if_neg hpath, hsegs]
      rfl
  | @parent s s' path curr n n' met r hpath htrim hrun ih =>
      rw [← ih hn (stripTrailing_stripped htrim)]
      simp only [Job.reference, resolveParent, if_neg hpath, segments_trimmed]
  | @parentFails s s' path base links n n' met e hrun ih =>
      have hparent := of_map_eq_error (ih hn trivial)
      simp only [Job.reference, resolveFile, hparent]
      rfl
  | @child s s₁ s' path name base dir links n n₁ n' met met' r hrun hrun' ih ih' =>
      obtain ⟨⟨_, _⟩, hx, hparent⟩ := of_map_eq_ok (ih hn trivial)
      cases hx
      simp only [Job.reference, resolveFile, hparent, bind_ok]
      exact ih' (hrun.counts hn).of_ok.2 trivial

theorem Parsed.outcome_map {α β : Type} (f : α → β) (p : Parsed α) :
    Parsed.outcome (p.1, p.2.1, p.2.2.map f) = (Parsed.outcome p).map f := by
  obtain ⟨s, n, e | a⟩ := p <;> rfl

@[simp] theorem Parsed.answer_outcome {α : Type} (p : Parsed α) :
    (Parsed.outcome p).answer = (p.1, p.2.2) := by
  obtain ⟨s, n, e | a⟩ := p <;> rfl

theorem doParseParent_outcome (s : State) (path : Name) (curr : FileId) {n : Nat}
    (hn : n ≤ MAX_RECURSIONS) :
    Parsed.outcome (doParseParent s path curr n) =
      resolveParent (MAX_RECURSIONS - n) s path curr := by
  obtain ⟨met, hrun⟩ := answers_doParseParent s path curr hn
  have h := hrun.refines hn trivial
  rw [Parsed.outcome_map] at h
  exact (map_injective (fun _ _ hx => Prod.ext (Found.leaf.inj hx).1 (Found.leaf.inj hx).2) h).symm

theorem doParseFile_outcome (s : State) (path : Name) (base : FileId) (links : LinkBehavior)
    {n : Nat} (hn : n ≤ MAX_RECURSIONS) :
    Parsed.outcome (doParseFile s path base links n) =
      resolveFile links (MAX_RECURSIONS - n) s path base := by
  obtain ⟨met, hrun⟩ := answers_doParseFile s path base links hn
  have h := hrun.refines hn trivial
  rw [Parsed.outcome_map] at h
  exact (map_injective (fun _ _ hx => Found.file.inj hx) h).symm

/-! ## Slashes -/

/-- Only the segments of a path matter, and whether it starts with a slash. -/
theorem resolveParent_congr {p p' : Name} (hp : p ≠ []) (hp' : p' ≠ [])
    (hhead : p.head? = some slash ↔ p'.head? = some slash) (hsegs : segments p = segments p')
    (budget : Nat) (s : State) (base : FileId) :
    resolveParent budget s p base = resolveParent budget s p' base := by
  have hstart : startDir s p base = startDir s p' base := by
    unfold startDir
    rw [if_congr hhead rfl rfl]
  unfold resolveParent
  rw [if_neg hp, if_neg hp', hsegs, hstart]

theorem startDir_append (s : State) {p : Name} (hp : p ≠ []) (q : Name) (base : FileId) :
    startDir s (p ++ q) base = startDir s p base := by
  unfold startDir
  rw [List.head?_append_of_ne_nil p hp]

/-- A relative path has a segment. -/
theorem segments_ne_nil {path : Name} (hne : path ≠ []) (hrel : path.head? ≠ some slash) :
    segments path ≠ [] := by
  obtain ⟨c, rest, rfl⟩ := List.exists_cons_of_ne_nil hne
  have hc : c ≠ slash := fun hc => hrel (congrArg some hc)
  intro hsegs
  have htrim : trimmed (c :: rest) = [] := not_not.mp fun h => segments_ne_nil_of_trimmed h hsegs
  unfold trimmed stripTrailing at htrim
  rw [if_neg hrel, List.reverse_eq_nil_iff, List.dropWhile_eq_nil_iff] at htrim
  exact hc (by simpa using htrim c (by simp))

/-- A path of slashes only has no segment. -/
theorem segments_eq_nil {path : Name} (h : ∀ c ∈ path, c = slash) : segments path = [] := by
  induction path with
  | nil => rfl
  | cons c rest ih =>
      obtain rfl := h c (List.mem_cons_self ..)
      rw [segments_slash]
      exact ih fun c hc => h c (List.mem_cons_of_mem _ hc)

/-! ## Composition -/

theorem startDir_of_segments_eq_nil (s : State) {path : Name} (hne : path ≠ [])
    (hsegs : segments path = []) (base : FileId) : startDir s path base = s.rootDirectory :=
  if_pos (not_not.mp fun hrel => segments_ne_nil hne hrel hsegs)

/-- A directory is not a link. -/
theorem target?_of_isDirectory {x : File} (h : x.isDirectory) : x.target? = none := by
  simp only [File.isDirectory, File.kind, beq_iff_eq] at h
  unfold File.target?
  split <;> simp_all

/-- If a path of slashes only is found, it is the root. -/
theorem walk_dot {budget left : Nat} {s s₁ : State} {d c : FileId}
    (hd : (s.files d).isDirectory)
    (h : resolver.walk budget [dot] s d = (s₁, .ok (c, left))) :
    s₁ = s ∧ c = d ∧ left = budget := by
  rw [walk_singleton] at h
  unfold Directory.getChild at h
  cases hp : s.getParent d with
  | none =>
      rw [hp] at h
      cases h
  | some parent =>
      rw [hp] at h
      simp only [if_true, target?_of_isDirectory hd] at h
      cases h
      exact ⟨rfl, rfl, rfl⟩

/-- The walk to the directory that a path leads to. -/
theorem enter_of_resolveFile {budget left : Nat} {s s₁ : State} {path : Name} {base d : FileId}
    (hne : path ≠ []) (hroot : (s.files s.rootDirectory).isDirectory)
    (h : resolveFile .followLinks budget s path base = (s₁, .ok (d, left)))
    (hd : (s₁.files d).isDirectory) :
    resolver.enter budget (segments path) s (startDir s path base) = (s₁, .ok (d, left)) := by
  rw [resolveFile_follow budget s hne] at h
  by_cases hsegs : segments path = []
  · rw [hsegs, startDir_of_segments_eq_nil s hne hsegs] at h ⊢
    obtain ⟨rfl, rfl, rfl⟩ := walk_dot hroot h
    exact enter_nil ..
  · rw [List.getLast?_eq_some_getLast hsegs, Option.getD_some, List.dropLast_append_getLast] at h
    rw [enter_of_ne_nil hsegs, h, bind_ok, checkDirectory, resolver_isDirectory, if_pos hd]

/-- A relative path behind one that leads to a directory. -/
theorem resolveParent_append {budget left : Nat} {s s₁ : State} {p q : Name} {base d : FileId}
    (hp : p ≠ []) (hq : q ≠ []) (hrel : q.head? ≠ some slash)
    (hroot : (s.files s.rootDirectory).isDirectory)
    (h : resolveFile .followLinks budget s p base = (s₁, .ok (d, left)))
    (hd : (s₁.files d).isDirectory) :
    resolveParent budget s (p ++ slash :: q) base = resolveParent left s₁ q d := by
  unfold resolveParent
  rw [if_neg (by simp), if_neg hq, segments_append, startDir_append s hp,
    walkParent_append budget _ (segments_ne_nil hq hrel), enter_of_resolveFile hp hroot h hd,
    bind_ok, startDir, if_neg hrel]

theorem resolveFile_append {budget left : Nat} {s s₁ : State} {p q : Name} {base d : FileId}
    (hp : p ≠ []) (hq : q ≠ []) (hrel : q.head? ≠ some slash)
    (hroot : (s.files s.rootDirectory).isDirectory)
    (h : resolveFile .followLinks budget s p base = (s₁, .ok (d, left)))
    (hd : (s₁.files d).isDirectory) (links : LinkBehavior) :
    resolveFile links budget s (p ++ slash :: q) base = resolveFile links left s₁ q d := by
  unfold resolveFile
  rw [resolveParent_append hp hq hrel hroot h hd]

/-! ## Budgets -/

theorem resolveParent_add (k : Nat) {budget : Nat} {s : State} {path : Name} {base : FileId}
    (h : (resolveParent budget s path base).2 ≠ .error .loop) :
    resolveParent (budget + k) s path base = (resolveParent budget s path base).more k := by
  unfold resolveParent at h ⊢
  by_cases hpath : path = []
  · rw [if_pos hpath, if_pos hpath]
    rfl
  · rw [if_neg hpath] at h
    rw [if_neg hpath, if_neg hpath]
    unfold walkParent Outcome.map at h ⊢
    rw [enter_add k (ne_error_of_bind h)]
    exact bind_more (fun _ _ _ _ => rfl) h

theorem resolveParent_left_le {budget left : Nat} {s s' : State} {path : Name} {base : FileId}
    {x : FileId × Name} (h : resolveParent budget s path base = (s', .ok (x, left))) :
    left ≤ budget := by
  unfold resolveParent at h
  split at h
  · cases h
  · obtain ⟨d, -, henter⟩ := of_map_eq_ok h
    exact enter_left_le henter

theorem resolveChild_add (k : Nat) {links : LinkBehavior} {budget : Nat} {s : State} {d : FileId}
    {name : Name} (h : (resolveChild links budget s d name).2 ≠ .error .loop) :
    resolveChild links (budget + k) s d name = (resolveChild links budget s d name).more k := by
  cases links with
  | followLinks => exact walk_add k h
  | noFollowLinks =>
      simp only [resolveChild]
      rcases Directory.getChild s d name with ⟨s₁, _ | child⟩ <;> rfl

theorem resolveFile_add (k : Nat) {links : LinkBehavior} {budget : Nat} {s : State} {path : Name}
    {base : FileId} (h : (resolveFile links budget s path base).2 ≠ .error .loop) :
    resolveFile links (budget + k) s path base =
      (resolveFile links budget s path base).more k := by
  unfold resolveFile at h ⊢
  rw [resolveParent_add k (ne_error_of_bind h)]
  exact bind_more (fun _ _ _ hchild => resolveChild_add k hchild) h

/-- A smaller budget that covers the links finds the same. -/
theorem resolveFile_sub {k budget left : Nat} {s s' : State} {path : Name} {base f : FileId}
    (h : resolveFile .followLinks (budget + k) s path base = (s', .ok (f, left + k))) :
    resolveFile .followLinks budget s path base = (s', .ok (f, left)) := by
  by_cases hpath : path = []
  · subst hpath
    cases h
  · rw [resolveFile_follow _ _ hpath] at h ⊢
    exact walk_sub h

/-! ## Well-formed trees -/

section

variable {s : State} (h : s.tree.WF)

include h

theorem walkParent_state (budget : Nat) (xs : List Name) (d : FileId) :
    (walkParent budget xs s d).1 = s := by
  have hstate := enter_state (S := resolver) (fun d x => getChild_pure h d x rfl) budget
    xs.dropLast d
  unfold walkParent Outcome.map
  rcases he : resolver.enter budget xs.dropLast s d with ⟨s₁, e | ⟨c, left⟩⟩ <;>
    rw [he] at hstate <;> exact hstate

theorem resolveParent_state (budget : Nat) (path : Name) (base : FileId) :
    (resolveParent budget s path base).1 = s := by
  unfold resolveParent
  split
  · rfl
  · exact walkParent_state h budget _ _

theorem resolveChild_state (links : LinkBehavior) (budget : Nat) (d : FileId) (name : Name) :
    (resolveChild links budget s d name).1 = s := by
  cases links with
  | followLinks => exact walk_state (S := resolver) (fun d x => getChild_pure h d x rfl) budget _ d
  | noFollowLinks =>
      simp only [resolveChild, Directory.getChild_eq h]
      cases s.tree.lookup d name <;> rfl

theorem resolveFile_state (links : LinkBehavior) (budget : Nat) (path : Name) (base : FileId) :
    (resolveFile links budget s path base).1 = s := by
  have hstate := resolveParent_state h budget path base
  unfold resolveFile
  rcases hp : resolveParent budget s path base with ⟨s₁, e | ⟨x, left⟩⟩
  · rw [hp] at hstate
    exact hstate
  · rw [hp] at hstate
    subst hstate
    exact resolveChild_state h links left x.1 x.2

end

/-! ## More files -/

section

variable {s s' : State} (h : resolver.Extends s s')

include h

theorem resolveParent_extends {budget left : Nat} {path : Name} {base : FileId}
    {x : FileId × Name} (hok : (resolveParent budget s path base).2 = .ok (x, left)) :
    resolveParent budget s' path base = (s', .ok (x, left)) := by
  unfold resolveParent at hok ⊢
  by_cases hpath : path = []
  · rw [if_pos hpath] at hok
    cases hok
  have hstart : startDir s' path base = startDir s path base := h.start path base
  rw [if_neg hpath] at hok
  rw [if_neg hpath, hstart]
  unfold walkParent at hok ⊢
  rcases he : resolver.enter budget (segments path).dropLast s (startDir s path base) with
    ⟨s₁, e | ⟨d, left₁⟩⟩
  · rw [he] at hok
    cases hok
  · rw [he] at hok
    cases hok
    rw [h.enter (congrArg Prod.snd he)]
    rfl

/-- A parent and a leaf that are found in the first state are found in the second. -/
theorem parseParent_extends {path : Name} {basefd : Nat} {x : FileId × Name}
    (hbase : getBaseDir s' basefd = getBaseDir s basefd)
    (hok : (parseParent s path basefd).2 = .ok x) : parseParent s' path basefd = (s', .ok x) := by
  cases hb : getBaseDir s basefd with
  | error e =>
      rw [parseParent, hb] at hok
      cases hok
  | ok base =>
      have hs := doParseParent_outcome s path base (Nat.zero_le _)
      have hs' := doParseParent_outcome s' path base (Nat.zero_le _)
      simp only [parseParent, hbase, hb] at hok ⊢
      rcases hp : doParseParent s path base 0 with ⟨s₁, n, r⟩
      rw [hp] at hok hs
      simp only at hok
      subst hok
      rw [resolveParent_extends h (congrArg Prod.snd hs).symm] at hs'
      have hanswer := congrArg Outcome.answer hs'
      rw [Parsed.answer_outcome] at hanswer
      exact hanswer

end

/-! ## The parser and the resolver -/

/-- Two paths parse to the same, from two places and with numbers of links followed. -/
def SameParse (s₁ : State) (p₁ : Name) (d₁ : FileId) (n₁ : Nat) (s₂ : State) (p₂ : Name)
    (d₂ : FileId) (n₂ : Nat) : Prop :=
  Parsed.outcome (doParseParent s₁ p₁ d₁ n₁) = Parsed.outcome (doParseParent s₂ p₂ d₂ n₂) ∧
  ∀ links, Parsed.outcome (doParseFile s₁ p₁ d₁ links n₁) =
    Parsed.outcome (doParseFile s₂ p₂ d₂ links n₂)

theorem sameParse_iff {s₁ s₂ : State} {p₁ p₂ : Name} {d₁ d₂ : FileId} {n₁ n₂ : Nat}
    (hn₁ : n₁ ≤ MAX_RECURSIONS) (hn₂ : n₂ ≤ MAX_RECURSIONS) :
    SameParse s₁ p₁ d₁ n₁ s₂ p₂ d₂ n₂ ↔
      resolveParent (MAX_RECURSIONS - n₁) s₁ p₁ d₁ = resolveParent (MAX_RECURSIONS - n₂) s₂ p₂ d₂ ∧
      ∀ links, resolveFile links (MAX_RECURSIONS - n₁) s₁ p₁ d₁ =
        resolveFile links (MAX_RECURSIONS - n₂) s₂ p₂ d₂ := by
  simp only [SameParse, doParseParent_outcome _ _ _ hn₁, doParseParent_outcome _ _ _ hn₂,
    doParseFile_outcome _ _ _ _ hn₁, doParseFile_outcome _ _ _ _ hn₂]

theorem sameParse_of_segments {s : State} {p p' : Name} (hp : p ≠ []) (hp' : p' ≠ [])
    (hhead : p.head? = some slash ↔ p'.head? = some slash) (hsegs : segments p = segments p')
    (base : FileId) : SameParse s p base 0 s p' base 0 := by
  rw [sameParse_iff (Nat.zero_le _) (Nat.zero_le _)]
  have hparent := fun budget => resolveParent_congr hp hp' hhead hsegs budget s base
  refine ⟨hparent _, fun links => ?_⟩
  unfold resolveFile
  rw [hparent]

/-- The first path parses to what the second does with all of the links left, unless the
first has too many links. -/
def SameWithin (s₁ : State) (p₁ : Name) (d₁ : FileId) (s₂ : State) (p₂ : Name) (d₂ : FileId) :
    Prop :=
  ((doParseParent s₁ p₁ d₁ 0).2.2 ≠ .error .loop →
    (Parsed.outcome (doParseParent s₁ p₁ d₁ 0)).answer =
      (Parsed.outcome (doParseParent s₂ p₂ d₂ 0)).answer) ∧
  ∀ links, (doParseFile s₁ p₁ d₁ links 0).2.2 ≠ .error .loop →
    (Parsed.outcome (doParseFile s₁ p₁ d₁ links 0)).answer =
      (Parsed.outcome (doParseFile s₂ p₂ d₂ links 0)).answer

theorem Parsed.outcome_ne_error {α : Type} {p : Parsed α} {e : Errno} (h : p.2.2 ≠ .error e) :
    (Parsed.outcome p).2 ≠ .error e := by
  obtain ⟨s, n, e' | a⟩ := p
  · simpa [Parsed.outcome, Except.map] using h
  · exact nofun

/-- Links that are followed before leave less of the budget, and change nothing else. -/
theorem SameParse.within {s₁ s₂ : State} {p₁ p₂ : Name} {d₁ d₂ : FileId} {n : Nat}
    (hn : n ≤ MAX_RECURSIONS) (h : SameParse s₁ p₁ d₁ 0 s₂ p₂ d₂ n) :
    SameWithin s₁ p₁ d₁ s₂ p₂ d₂ := by
  have hbudget : MAX_RECURSIONS - 0 = MAX_RECURSIONS - n + n := by omega
  constructor
  · intro hloop
    have hne := Parsed.outcome_ne_error hloop
    rw [h.1, doParseParent_outcome _ _ _ hn] at hne
    rw [h.1, doParseParent_outcome _ _ _ hn, doParseParent_outcome _ _ _ (Nat.zero_le _), hbudget,
      resolveParent_add n hne, answer_more]
  · intro links hloop
    have hne := Parsed.outcome_ne_error hloop
    rw [h.2, doParseFile_outcome _ _ _ _ hn] at hne
    rw [h.2, doParseFile_outcome _ _ _ _ hn, doParseFile_outcome _ _ _ _ (Nat.zero_le _), hbudget,
      resolveFile_add n hne, answer_more]

theorem parseParent_eq_resolveParent {s : State} {base : FileId} {basefd : Nat}
    (hbase : getBaseDir s basefd = .ok base) (path : Name) :
    parseParent s path basefd = (resolveParent MAX_RECURSIONS s path base).answer := by
  have h := doParseParent_outcome s path base (Nat.zero_le _)
  rw [Nat.sub_zero] at h
  rw [← h, Parsed.answer_outcome, parseParent, hbase]

theorem parseFile_eq_resolveFile {s : State} {base : FileId} {basefd : Nat}
    (hbase : getBaseDir s basefd = .ok base) (path : Name) (links : LinkBehavior) :
    parseFile s path basefd links = (resolveFile links MAX_RECURSIONS s path base).answer := by
  have h := doParseFile_outcome s path base links (Nat.zero_le _)
  rw [Nat.sub_zero] at h
  rw [← h, Parsed.answer_outcome, parseFile, hbase]

theorem getFileFrom_eq_resolveFile (s : State) (base : FileId) (path : Name) :
    getFileFrom s base path = (resolveFile .followLinks MAX_RECURSIONS s path base).answer := by
  have h := doParseFile_outcome s path base .followLinks (Nat.zero_le _)
  rw [Nat.sub_zero] at h
  rw [← h, Parsed.answer_outcome, getFileFrom]

/-- Parsing from a directory is walking. -/
structure ParsesAsWalked (s : State) (base : FileId) : Prop where
  doParseParent : ∀ path, Parsed.outcome (doParseParent s path base 0) =
    resolveParent MAX_RECURSIONS s path base
  doParseFile : ∀ path links, Parsed.outcome (doParseFile s path base links 0) =
    resolveFile links MAX_RECURSIONS s path base
  parseParent : ∀ path basefd, getBaseDir s basefd = .ok base →
    parseParent s path basefd = (resolveParent MAX_RECURSIONS s path base).answer
  parseFile : ∀ path basefd links, getBaseDir s basefd = .ok base →
    parseFile s path basefd links = (resolveFile links MAX_RECURSIONS s path base).answer
  getFileFrom : ∀ path,
    getFileFrom s base path = (resolveFile .followLinks MAX_RECURSIONS s path base).answer
  empty : Path.doParseParent s [] base 0 = (s, 0, .error .noent)
  slashes : ∀ path, path ≠ [] → (∀ c ∈ path, c = slash) →
    Path.doParseParent s path base 0 = (s, 0, .ok (s.rootDirectory, dot))
  repeated : ∀ p q, SameParse s (p ++ slash :: slash :: q) base 0 s (p ++ slash :: q) base 0
  trailing : ∀ p, p ≠ [] → SameParse s (p ++ [slash]) base 0 s p base 0
  /-- `n` links lead to the directory. -/
  composed : (s.files s.rootDirectory).isDirectory → ∀ {p q s₁ n d}, p ≠ [] → q ≠ [] →
    q.head? ≠ some slash → Path.doParseFile s p base .followLinks 0 = (s₁, n, .ok d) →
    (s₁.files d).isDirectory →
    SameParse s (p ++ slash :: q) base 0 s₁ q d n ∧ SameWithin s (p ++ slash :: q) base s₁ q d

/-- `doParseParent` and `doParseFile` walk along the segments of a path. -/
theorem parsing_is_walking (s : State) (base : FileId) : ParsesAsWalked s base where
  doParseParent path := doParseParent_outcome s path base (Nat.zero_le _)
  doParseFile path links := doParseFile_outcome s path base links (Nat.zero_le _)
  parseParent path _ hbase := parseParent_eq_resolveParent hbase path
  parseFile path _ links hbase := parseFile_eq_resolveFile hbase path links
  getFileFrom path := getFileFrom_eq_resolveFile s base path
  empty := rfl
  slashes path hne hall := by
    have hsegs := segments_eq_nil hall
    have htrim : trimmed path = [] :=
      not_not.mp fun htrim => segments_ne_nil_of_trimmed htrim hsegs
    rw [Path.doParseParent, doParseParentWith_eq, if_neg hne, if_pos htrim,
      startDir_of_segments_eq_nil s hne hsegs]
  repeated p q := by
    refine sameParse_of_segments (by simp) (by simp) ?_ (by simp) base
    cases p <;> simp
  trailing p hp := by
    refine sameParse_of_segments (by simp) hp ?_ (by simp) base
    rw [List.head?_append_of_ne_nil p hp]
  composed hroot p q s₁ n d hp hq hrel hok hd := by
    obtain ⟨met, hrun⟩ := answers_doParseFile s p base .followLinks (Nat.zero_le _)
    rw [hok] at hrun
    have hn := (hrun.counts (Nat.zero_le _)).of_ok.2
    have hwalk := doParseFile_outcome s p base .followLinks (Nat.zero_le _)
    rw [hok] at hwalk
    have hsame : SameParse s (p ++ slash :: q) base 0 s₁ q d n := by
      rw [sameParse_iff (Nat.zero_le _) hn]
      exact ⟨resolveParent_append hp hq hrel hroot hwalk.symm hd,
        resolveFile_append hp hq hrel hroot hwalk.symm hd⟩
    exact ⟨hsame, hsame.within hn⟩

end Path

end WasmFS
