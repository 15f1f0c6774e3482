import WasmFS.Namespace.Resolution

/-!
# The recursion of the parser ends

`getChild`, `doParseParent` and `doParseFile` call each other, and two of them loop.
`Runs` is this recursion without a bound of any kind, one rule for each way through a
function.  A derivation is a recursion that ends.  There is exactly one for every call,
with the answer of the functions with bounds (`resolution_ends`).

A run records the links that it comes to in order to follow them.  It dereferences at
most 40 of them, and the answer is `ELOOP` exactly if there is a 41st (`Runs.counts`).
With links followed the result is never a link (`Runs.not_link`).
-/

namespace WasmFS

namespace Path

/-! ## Runs without a bound -/

/-- A call of a function of the parser or the start of a round of one of its loops. -/
inductive Job where
  | getChild (dir : FileId) (name : Name) (links : LinkBehavior)
  /-- The loop of `getChild` over links. -/
  | followLinks (dir child : FileId)
  /-- The loop of `doParseParent` over segments. -/
  | segments (path : Name) (curr : FileId)
  | doParseParent (path : Name) (curr : FileId)
  | doParseFile (path : Name) (base : FileId) (links : LinkBehavior)

/-- What a function of the parser finds. -/
inductive Found where
  | file (f : FileId)
  | leaf (parent : FileId) (name : Name)
deriving DecidableEq

/-- What becomes of a link that a job comes to in order to follow it. -/
inductive Met where
  | dereferenced (link : FileId)
  /-- It would be the 41st. -/
  | refused (link : FileId)
deriving DecidableEq

/-- The directory in which `doParseParent` starts. -/
def startDir (s : State) (path : Name) (curr : FileId) : FileId :=
  if path.head? = some slash then s.rootDirectory else curr

/-- The path without the first slash and without trailing slashes. -/
def trimmed (path : Name) : Name :=
  stripTrailing (if path.head? = some slash then path.tail else path)

/-- `Runs job s n met s' n' r`: the job, started with `n` links followed, comes to the
links `met`, and leaves the state `s'`, the number `n'` and the answer `r`. -/
inductive Runs : Job → State → Nat → List Met → State → Nat → Except Errno Found → Prop where
  /-- The child is not a link. -/
  | arrived {s : State} {dir child : FileId} {n : Nat} :
      (s.files child).target? = none →
      Runs (.followLinks dir child) s n [] s n (.ok (.file child))
  | tooMany {s : State} {dir child : FileId} {n : Nat} {target : Name} :
      (s.files child).target? = some target → n + 1 > MAX_RECURSIONS →
      Runs (.followLinks dir child) s n [.refused child] s (n + 1) (.error .loop)
  | emptyTarget {s : State} {dir child : FileId} {n : Nat} :
      (s.files child).target? = some [] → ¬ n + 1 > MAX_RECURSIONS →
      Runs (.followLinks dir child) s n [.dereferenced child] s (n + 1) (.error .noent)
  | targetFails {s s' : State} {dir child : FileId} {n n' : Nat} {target : Name}
      {met : List Met} {e : Errno} :
      (s.files child).target? = some target → ¬ n + 1 > MAX_RECURSIONS → target ≠ [] →
      Runs (.doParseFile target dir .followLinks) s (n + 1) met s' n' (.error e) →
      Runs (.followLinks dir child) s n (.dereferenced child :: met) s' n' (.error e)
  | follow {s s₁ s' : State} {dir child child' : FileId} {n n₁ n' : Nat} {target : Name}
      {met met' : List Met} {r : Except Errno Found} :
      (s.files child).target? = some target → ¬ n + 1 > MAX_RECURSIONS → target ≠ [] →
      Runs (.doParseFile target dir .followLinks) s (n + 1) met s₁ n₁ (.ok (.file child')) →
      Runs (.followLinks dir child') s₁ n₁ met' s' n' r →
      Runs (.followLinks dir child) s n (.dereferenced child :: met ++ met') s' n' r
  | missing {s s' : State} {dir : FileId} {name : Name} {links : LinkBehavior} {n : Nat} :
      Directory.getChild s dir name = (s', none) →
      Runs (.getChild dir name links) s n [] s' n (.error .noent)
  | notFollowed {s s' : State} {dir child : FileId} {name : Name} {n : Nat} :
      Directory.getChild s dir name = (s', some child) →
      Runs (.getChild dir name .noFollowLinks) s n [] s' n (.ok (.file child))
  | found {s s₁ s' : State} {dir child : FileId} {name : Name} {n n' : Nat}
      {met : List Met} {r : Except Errno Found} :
      Directory.getChild s dir name = (s₁, some child) →
      Runs (.followLinks dir child) s₁ n met s' n' r →
      Runs (.getChild dir name .followLinks) s n met s' n' r
  | leaf {s : State} {path : Name} {curr : FileId} {n : Nat} :
      (path.dropWhile (· == slash)).findIdx? (· == slash) = none →
      Runs (.segments path curr) s n [] s n (.ok (.leaf curr (path.dropWhile (· == slash))))
  | segmentFails {s s' : State} {path : Name} {curr : FileId} {n n' i : Nat}
      {met : List Met} {e : Errno} :
      (path.dropWhile (· == slash)).findIdx? (· == slash) = some i →
      Runs (.getChild curr ((path.dropWhile (· == slash)).take i) .followLinks) s n met s' n'
        (.error e) →
      Runs (.segments path curr) s n met s' n' (.error e)
  | notDirectory {s s' : State} {path : Name} {curr child : FileId} {n n' i : Nat}
      {met : List Met} :
      (path.dropWhile (· == slash)).findIdx? (· == slash) = some i →
      Runs (.getChild curr ((path.dropWhile (· == slash)).take i) .followLinks) s n met s' n'
        (.ok (.file child)) →
      (s'.files child).isDirectory = false →
      Runs (.segments path curr) s n met s' n' (.error .notdir)
  | descend {s s₁ s' : State} {path : Name} {curr child : FileId} {n n₁ n' i : Nat}
      {met met' : List Met} {r : Except Errno Found} :
      (path.dropWhile (· == slash)).findIdx? (· == slash) = some i →
      Runs (.getChild curr ((path.dropWhile (· == slash)).take i) .followLinks) s n met s₁ n₁
        (.ok (.file child)) →
      (s₁.files child).isDirectory = true →
      Runs (.segments ((path.dropWhile (· == slash)).drop i) child) s₁ n₁ met' s' n' r →
      Runs (.segments path curr) s n (met ++ met') s' n' r
  | emptyPath {s : State} {curr : FileId} {n : Nat} :
      Runs (.doParseParent [] curr) s n [] s n (.error .noent)
  /-- The path was equivalent to `/`. -/
  | onlySlashes {s : State} {path : Name} {curr : FileId} {n : Nat} :
      path ≠ [] → trimmed path = [] →
      Runs (.doParseParent path curr) s n [] s n (.ok (.leaf (startDir s path curr) dot))
  | parent {s s' : State} {path : Name} {curr : FileId} {n n' : Nat} {met : List Met}
      {r : Except Errno Found} :
      path ≠ [] → trimmed path ≠ [] →
      Runs (.segments (trimmed path) (startDir s path curr)) s n met s' n' r →
      Runs (.doParseParent path curr) s n met s' n' r
  | parentFails {s s' : State} {path : Name} {base : FileId} {links : LinkBehavior} {n n' : Nat}
      {met : List Met} {e : Errno} :
      Runs (.doParseParent path base) s n met s' n' (.error e) →
      Runs (.doParseFile path base links) s n met s' n' (.error e)
  | child {s s₁ s' : State} {path name : Name} {base dir : FileId} {links : LinkBehavior}
      {n n₁ n' : Nat} {met met' : List Met} {r : Except Errno Found} :
      Runs (.doParseParent path base) s n met s₁ n₁ (.ok (.leaf dir name)) →
      Runs (.getChild dir name links) s₁ n₁ met' s' n' r →
      Runs (.doParseFile path base links) s n (met ++ met') s' n' r

/-! ## The links that are met -/

/-- With `n` links followed before, these are met, and there are `n'` after.  Each is
dereferenced, or the last of them is the 41st and the answer is `ELOOP`. -/
def Counts {α : Type} (n : Nat) (met : List Met) (n' : Nat) (r : Except Errno α) : Prop :=
  ∃ links : List FileId,
    (met = links.map .dereferenced ∧ n' = n + links.length ∧ n' ≤ MAX_RECURSIONS ∧
      r ≠ .error .loop) ∨
    (∃ link, met = links.map .dereferenced ++ [.refused link] ∧
      n + links.length = MAX_RECURSIONS ∧ n' = MAX_RECURSIONS + 1 ∧ r = .error .loop)

namespace Counts

variable {α β : Type} {n n₁ n' : Nat} {met met' : List Met} {r : Except Errno α}

theorem none (hn : n ≤ MAX_RECURSIONS) (hr : r ≠ .error .loop) : Counts n [] n r :=
  ⟨[], Or.inl ⟨rfl, rfl, hn, hr⟩⟩

/-- One more link before. -/
theorem cons (link : FileId) (h : Counts (n + 1) met n' r) :
    Counts n (.dereferenced link :: met) n' r := by
  obtain ⟨links, ⟨rfl, rfl, hle, hr⟩ | ⟨last, rfl, hcount, hn', hr⟩⟩ := h
  · exact ⟨link :: links, Or.inl ⟨rfl, by rw [List.length_cons]; omega, hle, hr⟩⟩
  · exact ⟨link :: links, Or.inr ⟨last, rfl, by rw [List.length_cons]; omega, hn', hr⟩⟩

/-- The links of a success and then others. -/
theorem append {a : β} (h : Counts n met n₁ (.ok a)) (h' : Counts n₁ met' n' r) :
    Counts n (met ++ met') n' r := by
  obtain ⟨links, ⟨rfl, rfl, -, -⟩ | ⟨_, _, _, _, hr⟩⟩ := h
  · obtain ⟨links', ⟨rfl, rfl, hle, hr⟩ | ⟨last, rfl, hcount, hn', hr⟩⟩ := h'
    · refine ⟨links ++ links', Or.inl ⟨List.map_append.symm, ?_, hle, hr⟩⟩
      rw [List.length_append]
      omega
    · refine ⟨links ++ links', Or.inr ⟨last, ?_, ?_, hn', hr⟩⟩
      · rw [List.map_append, List.append_assoc]
      · rw [List.length_append]
        omega
  · cases hr

/-- Another answer than `ELOOP`. -/
theorem other {r' : Except Errno β} (h : Counts n met n' r) (hr : r ≠ .error .loop)
    (hr' : r' ≠ .error .loop) : Counts n met n' r' := by
  obtain ⟨links, ⟨hmet, hn', hle, -⟩ | ⟨_, _, _, _, hloop⟩⟩ := h
  · exact ⟨links, Or.inl ⟨hmet, hn', hle, hr'⟩⟩
  · exact absurd hloop hr

/-- A success leaves the number of links in bounds. -/
theorem of_ok {a : α} (h : Counts n met n' (.ok a : Except Errno α)) :
    n ≤ n' ∧ n' ≤ MAX_RECURSIONS := by
  obtain ⟨links, ⟨-, hn', hle, -⟩ | ⟨_, _, _, _, hr⟩⟩ := h
  · exact ⟨by omega, hle⟩
  · cases hr

theorem length_of_ok {a : α} (h : Counts n met n' (.ok a : Except Errno α)) :
    n' = n + met.length := by
  obtain ⟨links, ⟨rfl, hn', -, -⟩ | ⟨_, _, _, _, hr⟩⟩ := h
  · rw [List.length_map, hn']
  · cases hr

end Counts

/-- A run counts the links that it meets. -/
theorem Runs.counts {job : Job} {s s' : State} {n n' : Nat} {met : List Met}
    {r : Except Errno Found} (h : Runs job s n met s' n' r) (hn : n ≤ MAX_RECURSIONS) :
    Counts n met n' r := by
  induction h with
  | arrived _ => exact .none hn (by simp)
  | tooMany _ hmax => exact ⟨[], Or.inr ⟨_, rfl, by simp; omega, by omega, rfl⟩⟩
  | emptyTarget _ hmax => exact .cons _ (.none (by omega) (by simp))
  | targetFails _ hmax _ _ ih => exact .cons _ (ih (by omega))
  | follow _ hmax _ _ _ ih ih' =>
      have htarget := ih (by omega)
      exact .append (.cons _ htarget) (ih' htarget.of_ok.2)
  | missing _ => exact .none hn (by simp)
  | notFollowed _ => exact .none hn (by simp)
  | found _ _ ih => exact ih hn
  | leaf _ => exact .none hn (by simp)
  | segmentFails _ _ ih => exact ih hn
  | notDirectory _ _ _ ih => exact (ih hn).other (by simp) (by simp)
  | descend _ _ _ _ ih ih' => exact .append (ih hn) (ih' (ih hn).of_ok.2)
  | emptyPath => exact .none hn (by simp)
  | onlySlashes _ _ => exact .none hn (by simp)
  | parent _ _ _ ih => exact ih hn
  | parentFails _ ih => exact ih hn
  | child _ _ ih ih' => exact .append (ih hn) (ih' (ih hn).of_ok.2)

/-! ## The result is not a link -/

/-- The jobs that follow the link that they find last. -/
def Job.follows : Job → Prop
  | .getChild _ _ links => links = .followLinks
  | .followLinks _ _ => True
  | .doParseFile _ _ links => links = .followLinks
  | _ => False

/-- With links followed the result is never a link. -/
theorem Runs.not_link {job : Job} {s s' : State} {n n' : Nat} {met : List Met}
    {r : Except Errno Found} {f : FileId} (h : Runs job s n met s' n' r) (hjob : job.follows)
    (hr : r = .ok (.file f)) : (s'.files f).target? = none := by
  induction h with
  | arrived hlink =>
      cases hr
      exact hlink
  | follow _ _ _ _ _ _ ih => exact ih trivial hr
  | found _ _ ih => exact ih trivial hr
  | notFollowed _ => cases hjob
  | child _ _ _ ih => exact ih hjob hr
  | _ => first | exact hjob.elim | cases hr

/-! ## The run is unique -/

/-- A job has one run. -/
theorem Runs.unique {job : Job} {s s₁ s₂ : State} {n n₁ n₂ : Nat} {met₁ met₂ : List Met}
    {r₁ r₂ : Except Errno Found} (h : Runs job s n met₁ s₁ n₁ r₁)
    (h' : Runs job s n met₂ s₂ n₂ r₂) : (met₂, s₂, n₂, r₂) = (met₁, s₁, n₁, r₁) := by
  -- no two rules have premises in common, so the last rule of both runs is the same
  induction h generalizing met₂ s₂ n₂ r₂ <;> cases h' <;> grind

/-! ## The functions with bounds -/

/-- The job has a run with this answer. -/
def Answers {α : Type} (job : Job) (s : State) (n : Nat) (found : α → Found) (p : Parsed α) :
    Prop :=
  ∃ met, Runs job s n met p.1 p.2.1 (p.2.2.map found)

/-- Every target that is parsed with more than `n` links followed, the target itself
counted, has a run. -/
def Parses (parse : TargetParser) (n : Nat) : Prop :=
  ∀ s target dir m, n < m → m ≤ MAX_RECURSIONS →
    Answers (.doParseFile target dir .followLinks) s m .file (parse s target dir m)

section

variable {parse : TargetParser} {n m : Nat}

theorem Parses.mono (h : Parses parse n) (hm : n ≤ m) : Parses parse m :=
  fun s target dir k hk => h s target dir k (Nat.lt_of_le_of_lt hm hk)

/-- The rounds are as many as the links that may be followed. -/
theorem answers_followLinks (hparse : Parses parse n) (hn : n ≤ MAX_RECURSIONS) {fuel : Nat}
    (hfuel : MAX_RECURSIONS < fuel + n) (s : State) (dir child : FileId) :
    Answers (.followLinks dir child) s n .file (followLinks parse dir fuel s child n) := by
  induction fuel generalizing s child n with
  | zero => omega
  | succ fuel ih =>
      unfold followLinks
      cases hlink : (s.files child).target? with
      | none => exact ⟨[], .arrived hlink⟩
      | some target =>
          simp only
          by_cases hmax : n + 1 > MAX_RECURSIONS
          · rw [if_pos hmax]
            exact ⟨_, .tooMany hlink hmax⟩
          rw [if_neg hmax]
          by_cases hne : target = []
          · subst hne
            rw [if_pos rfl]
            exact ⟨_, .emptyTarget hlink hmax⟩
          rw [if_neg hne]
          obtain ⟨met, hrun⟩ := hparse s target dir (n + 1) (Nat.lt_succ_self n) (by omega)
          rcases hp : parse s target dir (n + 1) with ⟨s₁, n₁, e | child'⟩
          · rw [hp] at hrun
            exact ⟨_, .targetFails hlink hmax hne hrun⟩
          · rw [hp] at hrun
            have hbound := (hrun.counts (by omega)).of_ok
            obtain ⟨met', hrun'⟩ := ih (hparse.mono (by omega)) hbound.2 (by omega) s₁ child'
            exact ⟨_, .follow hlink hmax hne hrun hrun'⟩

theorem answers_getChildWith (hparse : Parses parse n) (hn : n ≤ MAX_RECURSIONS) (s : State)
    (dir : FileId) (name : Name) (links : LinkBehavior) :
    Answers (.getChild dir name links) s n .file (getChildWith parse s dir name links n) := by
  unfold getChildWith
  rcases hc : Directory.getChild s dir name with ⟨s₁, _ | child⟩
  · exact ⟨[], .missing hc⟩
  cases links with
  | noFollowLinks => exact ⟨[], .notFollowed hc⟩
  | followLinks =>
      have hfuel : MAX_RECURSIONS < MAX_RECURSIONS + 1 + n := by omega
      obtain ⟨met, hrun⟩ := answers_followLinks hparse hn hfuel s₁ dir child
      exact ⟨met, .found hc hrun⟩

/-- The rounds are not more than the characters of the path. -/
theorem answers_parseSegments (hparse : Parses parse n) (hn : n ≤ MAX_RECURSIONS) {fuel : Nat}
    {path : Name} (hpath : Stripped path) (hfuel : path.length ≤ fuel) (s : State)
    (curr : FileId) :
    Answers (.segments path curr) s n (fun x => .leaf x.1 x.2)
      (parseSegments parse fuel s path curr n) := by
  induction fuel generalizing s path curr n with
  | zero => exact absurd (List.length_eq_zero_iff.mp (Nat.le_zero.mp hfuel)) hpath.1
  | succ fuel ih =>
      rcases hpath.split with ⟨-, hnone⟩ | ⟨segment, rest, hseg, hrest, hsplit, hsome⟩
      · rw [parseSegments_leaf hnone]
        exact ⟨[], .leaf hnone⟩
      rw [parseSegments_cons hsplit hsome]
      have htake : (path.dropWhile (· == slash)).take segment.length = segment := by
        rw [hsplit, List.take_left]
      have hdrop : (path.dropWhile (· == slash)).drop segment.length = slash :: rest := by
        rw [hsplit, List.drop_left]
      obtain ⟨met, hrun⟩ := answers_getChildWith hparse hn s curr segment .followLinks
      rcases hp : getChildWith parse s curr segment .followLinks n with ⟨s₁, n₁, e | child⟩
      · rw [hp, ← htake] at hrun
        exact ⟨met, .segmentFails hsome hrun⟩
      rw [hp, ← htake] at hrun
      simp only
      by_cases hdir : (s₁.files child).isDirectory
      · rw [if_pos hdir]
        have hbound := (hrun.counts hn).of_ok
        have hlen : (slash :: rest).length ≤ fuel := by
          have hle := (List.dropWhile_sublist (l := path) (· == slash)).length_le
          have hpos := List.length_pos_of_ne_nil hseg.1
          rw [hsplit, List.length_append] at hle
          omega
        obtain ⟨met', hrun'⟩ := ih (hparse.mono hbound.1) hbound.2 hrest hlen s₁ child
        rw [← hdrop] at hrun'
        exact ⟨met ++ met', .descend hsome hrun hdir (by rwa [← hdrop])⟩
      · rw [if_neg hdir]
        exact ⟨met, .notDirectory hsome hrun (Bool.eq_false_iff.mpr hdir)⟩

/-- The three ways through `doParseParent`. -/
theorem doParseParentWith_eq (parse : TargetParser) (s : State) (path : Name) (curr : FileId)
    (n : Nat) :
    doParseParentWith parse s path curr n =
      if path = [] then (s, n, .error .noent)
      else if trimmed path = [] then (s, n, .ok (startDir s path curr, dot))
      else parseSegments parse (trimmed path).length s (trimmed path) (startDir s path curr) n := by
  cases path with
  | nil => rfl
  | cons c rest =>
      rw [if_neg (List.cons_ne_nil c rest)]
      by_cases hc : c = slash
      · simp only [doParseParentWith, trimmed, startDir, hc, List.head?_cons, List.tail_cons,
          if_true]
      · simp only [doParseParentWith, trimmed, startDir, hc, List.head?_cons, Option.some.injEq,
          if_false]

theorem answers_doParseParentWith (hparse : Parses parse n) (hn : n ≤ MAX_RECURSIONS) (s : State)
    (path : Name) (curr : FileId) :
    Answers (.doParseParent path curr) s n (fun x => .leaf x.1 x.2)
      (doParseParentWith parse s path curr n) := by
  rw [doParseParentWith_eq]
  by_cases hpath : path = []
  · subst hpath
    exact ⟨[], .emptyPath⟩
  rw [if_neg hpath]
  by_cases htrim : trimmed path = []
  · rw [if_pos htrim]
    exact ⟨[], .onlySlashes hpath htrim⟩
  rw [if_neg htrim]
  obtain ⟨met, hrun⟩ := answers_parseSegments hparse hn (stripTrailing_stripped htrim)
    (Nat.le_refl _) s (startDir s path curr)
  exact ⟨met, .parent hpath htrim hrun⟩

theorem answers_doParseFileWith (hparse : Parses parse n) (hn : n ≤ MAX_RECURSIONS) (s : State)
    (path : Name) (base : FileId) (links : LinkBehavior) :
    Answers (.doParseFile path base links) s n .file
      (doParseFileWith parse s path base links n) := by
  unfold doParseFileWith
  obtain ⟨met, hrun⟩ := answers_doParseParentWith hparse hn s path base
  rcases hp : doParseParentWith parse s path base n with ⟨s₁, n₁, e | ⟨dir, name⟩⟩
  · rw [hp] at hrun
    exact ⟨met, .parentFails hrun⟩
  rw [hp] at hrun
  have hbound := (hrun.counts hn).of_ok
  obtain ⟨met', hrun'⟩ := answers_getChildWith (hparse.mono hbound.1) hbound.2 s₁ dir name links
  exact ⟨met ++ met', .child hrun hrun'⟩

end

/-- A nesting bound is enough if it covers the links that are left. -/
theorem parses_parseTarget {k n : Nat} (h : MAX_RECURSIONS ≤ k + n) : Parses (parseTarget k) n := by
  induction k generalizing n with
  | zero =>
      intro s target dir m hm hmax
      omega
  | succ k ih =>
      intro s target dir m hm hmax
      exact answers_doParseFileWith (ih (by omega)) hmax s target dir .followLinks

/-- `getChild` with the link budget of a whole resolution. -/
theorem answers_getChild (s : State) (dir : FileId) (name : Name) (links : LinkBehavior) {n : Nat}
    (hn : n ≤ MAX_RECURSIONS) :
    Answers (.getChild dir name links) s n .file
      (getChildWith (parseTarget MAX_RECURSIONS) s dir name links n) :=
  answers_getChildWith (parses_parseTarget (by omega)) hn s dir name links

theorem answers_doParseParent (s : State) (path : Name) (curr : FileId) {n : Nat}
    (hn : n ≤ MAX_RECURSIONS) :
    Answers (.doParseParent path curr) s n (fun x => .leaf x.1 x.2)
      (doParseParent s path curr n) :=
  answers_doParseParentWith (parses_parseTarget (by omega)) hn s path curr

theorem answers_doParseFile (s : State) (path : Name) (base : FileId) (links : LinkBehavior)
    {n : Nat} (hn : n ≤ MAX_RECURSIONS) :
    Answers (.doParseFile path base links) s n .file (doParseFile s path base links n) :=
  answers_doParseFileWith (parses_parseTarget (by omega)) hn s path base links

/-! ## The recursion ends -/

/-- The job, started with no links followed, has exactly one run, which gives this answer.
The run dereferences at most 40 links, and the answer is `ELOOP` exactly if the run meets
a 41st.  With links followed a success is not a link. -/
def Ends {α : Type} (job : Job) (s : State) (found : α → Found) (p : Parsed α) : Prop :=
  ∃ met, Runs job s 0 met p.1 p.2.1 (p.2.2.map found) ∧
    (∀ {met' s' n' r}, Runs job s 0 met' s' n' r →
      (met', s', n', r) = (met, p.1, p.2.1, p.2.2.map found)) ∧
    Counts 0 met p.2.1 (p.2.2.map found) ∧
    (job.follows → ∀ {f}, p.2.2.map found = .ok (.file f) → (p.1.files f).target? = none)

theorem Answers.ends {α : Type} {job : Job} {s : State} {found : α → Found} {p : Parsed α}
    (h : Answers job s 0 found p) : Ends job s found p := by
  obtain ⟨met, hrun⟩ := h
  exact ⟨met, hrun, hrun.unique, hrun.counts (Nat.zero_le _), fun hjob _ => hrun.not_link hjob⟩

/-- The result of `getFileFrom` is not a link. -/
theorem getFileFrom_not_link {s s' : State} {base f : FileId} {path : Name}
    (hok : getFileFrom s base path = (s', .ok f)) : (s'.files f).target? = none := by
  obtain ⟨met, hrun⟩ := answers_doParseFile s path base .followLinks (Nat.zero_le _)
  rcases hp : doParseFile s path base .followLinks 0 with ⟨s₁, n, r⟩
  simp only [getFileFrom, hp] at hok
  cases hok
  rw [hp] at hrun
  exact hrun.not_link rfl rfl

/-- The functions of the parser end in every state, for every directory and path.  What
`getFileFrom` finds is never a link, on which `doOpen` relies. -/
theorem resolution_ends :
    (∀ s dir name links, Ends (.getChild dir name links) s .file
      (getChildWith (parseTarget MAX_RECURSIONS) s dir name links 0)) ∧
    (∀ s path curr, Ends (.doParseParent path curr) s (fun x => .leaf x.1 x.2)
      (doParseParent s path curr 0)) ∧
    (∀ s path base links, Ends (.doParseFile path base links) s .file
      (doParseFile s path base links 0)) ∧
    ∀ s base path, ∀ {s' f}, getFileFrom s base path = (s', .ok f) →
      (s'.files f).target? = none :=
  ⟨fun s dir name links => (answers_getChild s dir name links (Nat.zero_le _)).ends,
    fun s path curr => (answers_doParseParent s path curr (Nat.zero_le _)).ends,
    fun s path base links => (answers_doParseFile s path base links (Nat.zero_le _)).ends,
    fun _ _ _ => getFileFrom_not_link⟩

end Path

end WasmFS
