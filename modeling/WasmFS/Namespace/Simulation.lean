import WasmFS.Namespace.Refinement

/-!
# Calls on an implementation

A call on an implementation is carried out next to the call on memory directories
that it stands for.  Both see the same tree, pass the same checks and leave the same
tree (`Refinement.exec`).
-/

namespace WasmFS

namespace Directory

variable (host : Host) {s : State}

theorem handles_getChild (h : s.tree.WF) (d : FileId) (name : Name) :
    (handles host).getChild s d name = (s, s.tree.lookup d name) := getChild_eq h d name

theorem handles_isDirectory (s : State) (f : FileId) :
    (handles host).isDirectory s f = (s.tree.node f).isDirectory := by
  rw [State.tree_node, File.node_isDirectory]
  rfl

theorem handles_writable (s : State) (f : FileId) :
    (handles host).writable s f = (s.tree.node f).writable := rfl

theorem handles_getParent (s : State) (f : FileId) :
    (handles host).getParent s f = (s.tree.node f).parent := rfl

theorem handles_getNumEntries (s : State) (f : FileId) :
    (handles host).getNumEntries s f = (s.tree.node f).children.length :=
  Syscall.getNumEntries_eq s f

end Directory

namespace Refinement

variable {σ α : Type} {H : Handles σ α} (R : Refinement H) {host : Host}
  {s : State} {v : σ}

/-! ## What is compared -/

/-- The outcomes of a call on memory directories and of the call on the implementation,
which fails if `slip` holds and the other one succeeds. -/
inductive Carries (v : σ) (slip : Prop) :
    Except Fault (State × Int) → Except Fault (σ × Int) → Prop where
  | ok {s' : State} {v' : σ} {code : Int} : R.Follows v v' → R.tree v' = s'.tree →
      (slip → code ≠ 0) → Carries v slip (.ok (s', code)) (.ok (v', code))
  | slip {s' : State} : slip → Carries v slip (.ok (s', 0)) (.error R.fault)
  | error (e : Fault) : Carries v slip (.error e) (.error e)

variable {R}

theorem Carries.ite {slip P P' : Prop} [Decidable P] [Decidable P']
    {a b : Except Fault (State × Int)} {a' b' : Except Fault (σ × Int)} (h : P ↔ P')
    (ha : P → R.Carries v slip a a') (hb : ¬ P → R.Carries v slip b b') :
    R.Carries v slip (if P then a else b) (if P' then a' else b') := by
  by_cases hP : P
  · rw [if_pos hP, if_pos (h.mp hP)]
    exact ha hP
  · rw [if_neg hP, if_neg fun hP' => hP (h.mpr hP')]
    exact hb hP

/-- The same code, and files that stand for each other. -/
structure SameAnswer (R : Refinement H) (v : σ) (a : Handles.Answer FileId)
    (b : Handles.Answer α) : Prop where
  code : b.1 = a.1
  file : b.2.map (R.node v) = a.2
  known : ∀ {f}, b.2 = some f → R.Known v f

theorem SameAnswer.withoutFile (code : Int) : R.SameAnswer v (code, none) (code, none) :=
  ⟨rfl, rfl, fun h => by cases h⟩

/-- The attributes are those of the memory file. -/
theorem attributes_eq (hs : s.tree = R.tree v) (f : α) :
    R.attributes v f = s.tree.node (R.node v f) := by
  rw [hs]
  rfl

/-! ## Lookups -/

/-- Lookups led from `v` to `v'`, and memory directories have the tree of both. -/
structure Looked (R : Refinement H) (s : State) (v v' : σ) : Prop where
  before : s.tree = R.tree v
  follows : R.Follows v v'
  after : s.tree = R.tree v'

theorem Looked.refl (hv : R.Inv v) (hs : s.tree = R.tree v) : R.Looked s v v :=
  ⟨hs, .refl _ hv, hs⟩

theorem Looked.trans {v' v'' : σ} (h : R.Looked s v v') (h' : R.Looked s v' v'') :
    R.Looked s v v'' :=
  ⟨h.before, h.follows.trans h'.follows, h'.after⟩

section

variable {v' : σ} {d : α} {name : Name}

theorem Looked.inv (h : R.Looked s v v') : R.Inv v' := h.follows.inv

theorem Looked.wf (h : R.Looked s v v') : s.tree.WF := h.after ▸ R.wf h.inv

theorem Looked.attributes (h : R.Looked s v v') {f : α} (hf : R.Known v f) :
    R.attributes v' f = s.tree.node (R.node v f) := by
  rw [attributes_eq h.after, h.follows.node hf]

theorem Looked.knownDirectory (h : R.Looked s v v') (hd : R.KnownDirectory v d) :
    R.KnownDirectory v' d := by
  refine ⟨h.follows.known hd.known, ?_⟩
  rw [h.attributes hd.known, ← attributes_eq h.before]
  exact hd.isDirectory

theorem Looked.writable (h : R.Looked s v v') (host : Host) (hd : R.KnownDirectory v d) :
    (Directory.handles host).writable s (R.node v d) = H.writable v' d := by
  rw [R.writable h.inv (h.knownDirectory hd), h.attributes hd.known]
  rfl

theorem Looked.getBackend (h : R.Looked s v v') (host : Host) {d' : α}
    (hd : R.KnownDirectory v d) (hd' : R.KnownDirectory v d') :
    (Directory.handles host).getBackend s (R.node v d) =
      (Directory.handles host).getBackend s (R.node v d') ↔
        H.getBackend v' d = H.getBackend v' d' := by
  rw [R.getBackend h.inv (h.knownDirectory hd) (h.knownDirectory hd'), h.attributes hd.known,
    h.attributes hd'.known]
  rfl

theorem Looked.getParent (h : R.Looked s v v') (host : Host) (hd : R.Known v d) :
    (H.getParent v' d).isNone = ((Directory.handles host).getParent s (R.node v d)).isNone := by
  rw [Directory.handles_getParent, ← h.attributes hd,
    ← R.getParent h.inv (h.follows.known hd), Option.isNone_map]

theorem Looked.isDirectory (h : R.Looked s v v') (host : Host) {f : α} (hf : R.Known v' f) :
    (Directory.handles host).isDirectory s (R.node v' f) = H.isDirectory v' f := by
  rw [Directory.handles_isDirectory, R.isDirectory h.inv hf, attributes_eq h.after]

theorem Looked.getNumEntries (h : R.Looked s v v') (host : Host) {f : α} (hf : R.Known v' f)
    (hdir : H.isDirectory v' f) :
    (Directory.handles host).getNumEntries s (R.node v' f) = H.getNumEntries v' f := by
  rw [R.isDirectory h.inv hf] at hdir
  rw [Directory.handles_getNumEntries, R.getNumEntries h.inv ⟨hf, hdir⟩, attributes_eq h.after]

theorem Looked.errno {slip : Prop} (h : R.Looked s v v') (e : Errno) :
    R.Carries v slip (.ok (s, e.neg)) (.ok (v', e.neg)) :=
  .ok h.follows h.after.symm fun _ => by cases e <;> decide

/-- The lookup next to the one in the memory directory. -/
theorem getChild_looked (hv : R.Inv v) (hs : s.tree = R.tree v) (hd : R.Known v d)
    (name : Name) (host : Host) : ∃ v' found, H.getChild v d name = (v', found) ∧
      (Directory.handles host).getChild s (R.node v d) (R.key name) =
        (s, found.map (R.node v')) ∧
      found.map (R.node v') = s.tree.lookup (R.node v d) (R.key name) ∧
      R.Looked s v v' ∧ Finds H R.toAbstraction v v' d name found := by
  obtain ⟨v', found, hget, hfinds⟩ := R.getChild hv hd name
  have hnode := hfinds.node
  rw [← hs] at hnode
  refine ⟨v', found, hget, ?_, hnode, ⟨hs, hfinds.follows, hs.trans hfinds.tree.symm⟩, hfinds⟩
  rw [Directory.handles_getChild host (hs ▸ R.wf hv), hnode]

/-- The insertion of a name that was looked up and not found. -/
theorem Looked.insert (h : R.Looked s v v') {insert : σ → α → Name → σ × Option α} {body : Body}
    {mode : Nat} (hinserts : Inserts R.toAbstraction insert body mode) (host : Host)
    (hd : R.KnownDirectory v d) (hfree : s.tree.lookup (R.node v d) (R.key name) = none) :
    (∃ v'' s' c, insert v' d name = (v'', some c) ∧
      Directory.insert host s (R.node v d) (R.key name) body mode =
        (s', some (R.node v'' c)) ∧
      R.Follows v v'' ∧ R.tree v'' = s'.tree ∧ R.Known v'' c) ∨
    (insert v' d name = (v', none) ∧
      Directory.insert host s (R.node v d) (R.key name) body mode = (s, none)) := by
  have hnode := h.follows.node hd.known
  rw [h.after, ← hnode] at hfree
  rcases hinserts.agrees host h.inv h.after (h.knownDirectory hd) hfree with
    ⟨v'', s', c, hcall, hplain, hfollows, ht, hknown⟩ | ⟨hcall, hplain⟩
  · rw [hnode] at hplain
    exact Or.inl ⟨v'', s', c, hcall, hplain, h.follows.trans hfollows, ht, hknown⟩
  · rw [hnode] at hplain
    exact Or.inr ⟨hcall, hplain⟩

end

/-! ## Creating -/

section

variable {d : α} {name : Name}

theorem openat_agrees (host : Host) (hv : R.Inv v) (hs : s.tree = R.tree v)
    (hd : R.KnownDirectory v d) (name : Name) (flags mode : Nat) :
    ∃ v' b, H.openat v d name flags mode = (v', b) ∧ R.Follows v v' ∧
      R.tree v' = ((Directory.handles host).openat s (R.node v d) (R.key name) flags mode).1.tree ∧
      R.SameAnswer v' ((Directory.handles host).openat s (R.node v d) (R.key name) flags mode).2
        b := by
  obtain ⟨v', found, hget, hplainGet, hnode, hlooked, hfinds⟩ :=
    getChild_looked hv hs hd.known name host
  unfold Handles.openat
  rw [R.key_length, hget, hplainGet]
  split
  · exact ⟨v, _, rfl, .refl _ hv, hs.symm, .withoutFile _⟩
  have ht := hlooked.after.symm
  cases found with
  | some c =>
      refine ⟨v', _, rfl, hlooked.follows, ht, rfl, rfl, ?_⟩
      exact fun hc => hfinds.known hc
  | none =>
      simp only [Option.map_none, hlooked.getParent host hd.known]
      split
      · exact ⟨v', _, rfl, hlooked.follows, ht, .withoutFile _⟩
      split
      · exact ⟨v', _, rfl, hlooked.follows, ht, .withoutFile _⟩
      rcases hlooked.insert (R.insertDataFile (mode &&& S_IALLUGO)) host hd hnode.symm with
        ⟨v'', s', c, hcall, hplain, hfollows, ht', hknown⟩ | ⟨hcall, hplain⟩
      · simp only [hcall, Directory.handles, Directory.insertDataFile, hplain]
        refine ⟨v'', _, rfl, hfollows, ht', rfl, rfl, ?_⟩
        rintro f ⟨⟩
        exact hknown
      · simp only [hcall, Directory.handles, Directory.insertDataFile, hplain]
        exact ⟨v', _, rfl, hlooked.follows, ht, .withoutFile _⟩

theorem mkdirat_carries (hv : R.Inv v) (hs : s.tree = R.tree v) (hd : R.KnownDirectory v d)
    (mode : Nat) : R.Carries v False
      (.ok ((Directory.handles host).mkdirat s (R.node v d) (R.key name) mode))
      (.ok (H.mkdirat v d name mode)) := by
  obtain ⟨v', found, hget, hplainGet, hnode, hlooked, -⟩ :=
    getChild_looked hv hs hd.known name host
  unfold Handles.mkdirat
  rw [R.key_length, hget, hplainGet]
  split
  · exact (Looked.refl hv hs).errno _
  cases found with
  | some c => exact hlooked.errno _
  | none =>
      simp only [Option.map_none, hlooked.writable host hd]
      split
      · exact hlooked.errno _
      rcases hlooked.insert (R.insertDirectory (mode &&& (S_IRWXUGO ||| S_ISVTX))) host hd
          hnode.symm with ⟨v'', s', c, hcall, hplain, hfollows, ht, -⟩ | ⟨hcall, hplain⟩
      · simp only [hcall, Directory.handles, Directory.insertDirectory, hplain]
        exact .ok hfollows ht False.elim
      · simp only [hcall, Directory.handles, Directory.insertDirectory, hplain]
        exact hlooked.errno _

theorem symlinkat_carries (hv : R.Inv v) (hs : s.tree = R.tree v) (hd : R.KnownDirectory v d)
    (target : Target) : R.Carries v False
      (.ok ((Directory.handles host).symlinkat s (R.node v d) (R.key name) target))
      (.ok (H.symlinkat v d name target)) := by
  obtain ⟨v', found, hget, hplainGet, hnode, hlooked, -⟩ :=
    getChild_looked hv hs hd.known name host
  unfold Handles.symlinkat
  rw [R.key_length, hget, hplainGet]
  split
  · exact (Looked.refl hv hs).errno _
  cases found with
  | some c => exact hlooked.errno _
  | none =>
      rcases hlooked.insert (R.insertSymlink target) host hd hnode.symm with
        ⟨v'', s', c, hcall, hplain, hfollows, ht, -⟩ | ⟨hcall, hplain⟩
      · simp only [Option.map_none, hcall, Directory.handles, Directory.insertSymlink, hplain]
        exact .ok hfollows ht False.elim
      · simp only [Option.map_none, hcall, Directory.handles, Directory.insertSymlink, hplain]
        exact hlooked.errno _

/-! ## Removing -/

theorem isRoot_iff (hv : R.Inv v) (hs : s.tree = R.tree v) {f : α} (hf : R.Known v f) :
    R.node v f = (Directory.handles host).rootDirectory s ↔ f = H.rootDirectory v := by
  obtain ⟨hroot, hnode⟩ := R.root hv
  have hrootDirectory : (Directory.handles host).rootDirectory s = (R.tree v).root := by
    rw [← hs]
    rfl
  rw [hrootDirectory, ← hnode]
  refine ⟨fun h => (R.injective hv hroot.known hf ?_ h.symm).symm, congrArg _⟩
  rw [hnode]
  exact (R.wf hv).forest.root_linked

theorem childless (hv : R.Inv v) {f : α} (hf : R.Known v f)
    (hempty : ¬ (H.isDirectory v f ∧ H.getNumEntries v f > 0)) (n : Name) (x : FileId) :
    ¬ (R.tree v).forest.edge (R.node v f) n x := by
  intro he
  have hdir : (R.attributes v f).isDirectory := Node.isDirectory_of_mem_children he
  refine hempty ⟨(R.isDirectory hv hf).trans hdir, ?_⟩
  rw [R.getNumEntries hv ⟨hf, hdir⟩]
  exact List.length_pos_of_mem he

/-- Removing the name `.` of an empty directory. -/
theorem removeDot_carries {v' : σ} (h : R.Looked s v v') (hd : R.KnownDirectory v d)
    (hlinked : s.tree.forest.Linked (R.node v d)) (hw : (s.tree.node (R.node v d)).writable)
    (hleaf : ∀ n x, ¬ s.tree.forest.edge (R.node v d) n x) {slip : Prop}
    (hslip : slip ↔ ¬ R.RemovesDot) :
    R.Carries v slip ((Directory.handles host).removeChild s (R.node v d) (R.key dot))
      (H.removeChild v' d dot) := by
  obtain ⟨s', hplain, hs'⟩ := Directory.removeChild_dot h.wf host hw hleaf
  have hremove := R.removeDot h.inv (h.knownDirectory hd)
  rw [h.follows.node hd.known, ← h.after, h.attributes hd.known] at hremove
  rw [R.key_eq_dot.mpr rfl, show (Directory.handles host).removeChild s (R.node v d) dot =
    .ok (s', 0) from congrArg Except.ok hplain]
  rcases hremove hlinked hw hleaf with ⟨hdots, v'', hcall, hfollows, ht⟩ | ⟨hdots, hcall⟩
  · rw [hcall]
    exact .ok (h.follows.trans hfollows) (ht.trans hs'.symm) fun h => absurd hdots (hslip.mp h)
  · rw [hcall]
    exact .slip (hslip.mpr hdots)

/-- Removing a name other than `.` -/
theorem removeChild_carries {v' : σ} {c : α} (h : R.Looked s v v') (hd : R.KnownDirectory v d)
    (hget : H.getChild v' d name = (v', some c))
    (hu : Change.Unlinks s.tree (R.node v d) (R.key name) (R.node v' c)) {slip : Prop}
    (hslip : ¬ slip) :
    R.Carries v slip ((Directory.handles host).removeChild s (R.node v d) (R.key name))
      (H.removeChild v' d name) := by
  obtain ⟨s', hplain, hs'⟩ := hu.removeChild h.wf host
  have hremove := R.removeChild h.inv (h.follows.known hd.known) hget
  rw [h.follows.node hd.known, ← h.after] at hremove
  obtain ⟨v'', hcall, hfollows, ht⟩ := hremove hu
  rw [hcall, show (Directory.handles host).removeChild s (R.node v d) (R.key name) =
    .ok (s', 0) from congrArg Except.ok hplain]
  exact .ok (h.follows.trans hfollows) (ht.trans hs'.symm) fun h => absurd h hslip

theorem unlinkat_carries [DecidableEq α] (hv : R.Inv v) (hs : s.tree = R.tree v)
    (hd : R.KnownDirectory v d) (removeDir : Bool) :
    R.Carries v (name = dot ∧ ¬ R.RemovesDot)
      ((Directory.handles host).unlinkat s (R.node v d) (R.key name) removeDir)
      (H.unlinkat v d name removeDir) := by
  obtain ⟨v', found, hget, hplainGet, hnode, hlooked, hfinds⟩ :=
    getChild_looked hv hs hd.known name host
  unfold Handles.unlinkat
  rw [hget, hplainGet]
  cases found with
  | none => exact hlooked.errno _
  | some c =>
      have hc := hfinds.known rfl
      have hl : s.tree.lookup (R.node v d) (R.key name) = some (R.node v' c) := hnode.symm
      simp only [Option.map_some, hlooked.isDirectory host hc, hlooked.writable host hd]
      -- the checks in their order
      refine .ite (isRoot_iff hlooked.inv hlooked.after hc) (fun _ => hlooked.errno _)
        fun hroot => ?_
      refine .ite Iff.rfl (fun _ => hlooked.errno _) fun _ => ?_
      refine .ite (and_congr_right fun hcd => by rw [hlooked.getNumEntries host hc hcd])
        (fun _ => hlooked.errno _) fun hempty => ?_
      refine .ite Iff.rfl (fun _ => hlooked.errno _) fun _ => ?_
      refine .ite Iff.rfl (fun _ => hlooked.errno _) fun hacces => ?_
      have hleaf : ∀ n x, ¬ s.tree.forest.edge (R.node v' c) n x := by
        rw [hlooked.after]
        exact childless hlooked.inv hc fun h =>
          hempty ⟨h.1, (hlooked.getNumEntries host hc h.1).symm ▸ h.2⟩
      have hw : (s.tree.node (R.node v d)).writable := by
        rw [← Directory.handles_writable host, hlooked.writable host hd]
        exact not_not.mp hacces
      by_cases hdot : name = dot
      · subst hdot
        have hlinked := Tree.linked_of_lookup hl
        rw [R.key_eq_dot.mpr rfl, Tree.lookup_dot hlinked] at hl
        rw [← Option.some.inj hl] at hleaf
        exact removeDot_carries hlooked hd hlinked hw hleaf (and_iff_right rfl)
      · have hdotdot := hlooked.wf.ne_dotdot_of_childless hl (fun h => hroot (h.trans rfl)) hleaf
        exact removeChild_carries hlooked hd hfinds.again
          ⟨fun hk => hdot (R.key_eq_dot.mp hk), hdotdot, hl, hw, hleaf⟩ fun h => hdot h.1

end

/-! ## Renaming -/

section

variable [DecidableEq α]

/-- The walks visit files that stand for each other. -/
theorem walkUp_eq (host : Host) (hv : R.Inv v) (hs : s.tree = R.tree v) {c : α} (hc : R.Known v c)
    (hlinked : (R.tree v).forest.Linked (R.node v c)) (fuel : Nat) {curr : α}
    (hcurr : R.Known v curr) : H.walkUp v c fuel curr =
      (Directory.handles host).walkUp s (R.node v c) fuel (R.node v curr) := by
  induction fuel generalizing curr with
  | zero => rfl
  | succ fuel ih =>
      unfold Handles.walkUp
      refine if_congr (isRoot_iff hv hs hcurr).symm rfl (if_congr ?_ rfl ?_)
      · exact ⟨congrArg _, fun h => (R.injective hv hc hcurr hlinked h.symm).symm⟩
      · have hparent := R.getParent hv hcurr
        rw [attributes_eq hs, ← Directory.handles_getParent host] at hparent
        rw [← hparent]
        cases hp : H.getParent v curr with
        | none => rfl
        | some parent => exact ih (R.parent_known hv hcurr hp)

omit [DecidableEq α] in
theorem checkOverwrite_eq (hv : R.Inv v) (hs : s.tree = R.tree v) {c f : α} (hc : R.Known v c)
    (hf : R.Known v f) : H.checkOverwrite v c f =
      (Directory.handles host).checkOverwrite s (R.node v c) (R.node v f) := by
  have hdir : ∀ {x}, R.Known v x →
      H.isDirectory v x = (Directory.handles host).isDirectory s (R.node v x) := fun hx => by
    rw [Directory.handles_isDirectory, R.isDirectory hv hx, attributes_eq hs]
  unfold Handles.checkOverwrite
  rw [hdir hc, hdir hf]
  split
  · rename_i hfd
    rw [Directory.handles_isDirectory, ← attributes_eq hs] at hfd
    rw [R.getNumEntries hv ⟨hf, hfd⟩, Directory.handles_getNumEntries, attributes_eq hs]
  · rfl

/-- What blocks a rename. -/
def BlocksMove (R : Refinement H) (v : σ) (oldParent : α) (oldFileName : Name) (newParent : α)
    (newFileName : Name) : Prop :=
  ∃ file, (R.tree v).lookup (R.node v oldParent) (R.key oldFileName) = some file ∧
    (R.tree v).lookup (R.node v newParent) (R.key newFileName) ≠ some file ∧
    ¬ R.CanMove ((R.tree v).node file)

/-- The file to move and the name that it gets were looked up one after the other. -/
structure LookedBoth (R : Refinement H) (s : State) (v v' : σ) (oldParent : α)
    (oldFileName : Name) (newParent : α) (newFileName : Name) (file : α) (found : Option α) : Prop
    extends R.Looked s v v' where
  lookup_file : s.tree.lookup (R.node v oldParent) (R.key oldFileName) = some (R.node v' file)
  known_file : R.Known v' file
  getChild_file : H.getChild v' oldParent oldFileName = (v', some file)
  lookup_found : found.map (R.node v') = s.tree.lookup (R.node v newParent) (R.key newFileName)
  known_found : ∀ {f}, found = some f → R.Known v' f
  getChild_found : H.getChild v' newParent newFileName = (v', found)

section

variable {v' : σ} {oldParent newParent file : α} {oldFileName newFileName : Name}
  {found : Option α}

omit [DecidableEq α] in
theorem Looked.both {v₁ : σ} (h : R.Looked s v v₁)
    (hfinds : Finds H R.toAbstraction v v₁ oldParent oldFileName (some file))
    (h' : R.Looked s v₁ v') (hfinds' : Finds H R.toAbstraction v₁ v' newParent newFileName found)
    (hnew : R.Known v newParent) :
    R.LookedBoth s v v' oldParent oldFileName newParent newFileName file found := by
  have hknown := hfinds.known rfl
  refine ⟨h.trans h', ?_, h'.follows.known hknown, hfinds'.others hfinds.again, ?_,
    hfinds'.known, hfinds'.again⟩
  · rw [h'.follows.node hknown, h.before]
    exact hfinds.node.symm
  · rw [hfinds'.node, ← h'.before, h.follows.node hnew]

namespace LookedBoth

variable (h : R.LookedBoth s v v' oldParent oldFileName newParent newFileName file found)

include h

omit [DecidableEq α] in
theorem linked : s.tree.forest.Linked (R.node v' file) := h.wf.linked_of_found h.lookup_file

omit [DecidableEq α] in
theorem found_iff {f : α} (hf : R.Known v' f) (hlinked : s.tree.forest.Linked (R.node v' f)) :
    found.map (R.node v') = some (R.node v' f) ↔ found = some f := by
  rw [Option.map_eq_some_iff]
  constructor
  · rintro ⟨g, hg, hgf⟩
    rw [hg, R.injective h.inv hf (h.known_found hg) (h.after ▸ hlinked) hgf.symm]
  · intro hfound
    exact ⟨f, hfound, rfl⟩

omit [DecidableEq α] in
/-- The check against the root directory. -/
theorem root_iff (host : Host) :
    R.node v' file = (Directory.handles host).rootDirectory s ∨
        found.map (R.node v') = some ((Directory.handles host).rootDirectory s) ↔
      file = H.rootDirectory v' ∨ found = some (H.rootDirectory v') := by
  refine or_congr (isRoot_iff h.inv h.after h.known_file) ?_
  obtain ⟨hroot, hnode⟩ := R.root h.inv
  rw [← h.after] at hnode
  rw [show (Directory.handles host).rootDirectory s = R.node v' (H.rootDirectory v') from
    hnode.symm]
  refine h.found_iff hroot.known ?_
  rw [hnode]
  exact h.wf.forest.root_linked

theorem walkUp (host : Host) (hnew : R.Known v newParent) :
    H.walkUp v' file (H.bound v') newParent =
      (Directory.handles host).walkUp s (R.node v' file) ((Directory.handles host).bound s)
        (R.node v newParent) := by
  rw [walkUp_eq host h.inv h.after h.known_file (h.after ▸ h.linked) _ (h.follows.known hnew),
    h.follows.node hnew, R.bound, ← h.after]
  rfl

omit [DecidableEq α] in
theorem checkOverwrite (host : Host) : found.elim (.ok ()) (H.checkOverwrite v' file) =
    (found.map (R.node v')).elim (.ok ())
      ((Directory.handles host).checkOverwrite s (R.node v' file)) := by
  cases hf : found with
  | none => rfl
  | some f => exact checkOverwrite_eq h.inv h.after h.known_file (h.known_found hf)

omit [DecidableEq α] in
theorem blocksMove_iff : R.BlocksMove v oldParent oldFileName newParent newFileName ↔
    found.map (R.node v') ≠ some (R.node v' file) ∧ ¬ R.CanMove (R.attributes v' file) := by
  unfold BlocksMove
  rw [← h.before, h.lookup_file, attributes_eq h.after, h.lookup_found]
  constructor
  · rintro ⟨_, ⟨⟩, hblocks⟩
    exact hblocks
  · intro hblocks
    exact ⟨_, rfl, hblocks⟩

omit [DecidableEq α] in
/-- The move that passes the checks. -/
theorem move_carries (hold : R.KnownDirectory v oldParent) (hnew : R.KnownDirectory v newParent)
    (hseg : Segment newFileName)
    (hpasses : Syscall.PassesChecks s (R.node v oldParent) (R.key oldFileName)
      (R.node v newParent) (R.key newFileName) (R.node v' file))
    (hwalk : (Directory.handles host).walkUp s (R.node v' file)
      ((Directory.handles host).bound s) (R.node v newParent) = .reachedRoot)
    (hover : (found.map (R.node v')).elim (.ok ())
      ((Directory.handles host).checkOverwrite s (R.node v' file)) = .ok ()) {slip : Prop}
    (hslip : slip ↔ ¬ R.CanMove (R.attributes v' file)) :
    R.Carries v slip
      ((Directory.handles host).insertMove s (R.node v newParent) (R.key newFileName)
        (R.node v' file)) (H.insertMove v' newParent newFileName file) := by
  have hdir : ∀ {d}, R.KnownDirectory v d → (s.files (R.node v d)).isDirectory := by
    intro d hd
    rw [← File.node_isDirectory, ← State.tree_node, ← attributes_eq h.before]
    exact hd.isDirectory
  rw [← Syscall.walkUp_handles] at hwalk
  rw [h.lookup_found, ← Syscall.checkOverwrite_handles] at hover
  obtain ⟨p, hm⟩ := hpasses.movable h.wf (hdir hold) hwalk hover
  have hmoves := hm.moves h.wf (hdir hnew) (R.key_segment hseg)
  obtain ⟨hplain, hs'⟩ := hmoves.insertMove h.wf host
  rw [show (Directory.handles host).insertMove s (R.node v newParent) (R.key newFileName)
    (R.node v' file) = _ from hplain]
  rw [h.after, ← h.follows.node hnew.known] at hmoves
  rcases R.insertMove h.inv (h.knownDirectory hnew) h.getChild_file h.known_file
    h.getChild_found hmoves with ⟨hcan, v'', hcall, hfollows, ht⟩ | ⟨hcan, hcall⟩
  · rw [hcall]
    refine .ok (h.follows.trans hfollows) ?_ fun hs => absurd hcan (hslip.mp hs)
    rw [ht, hs', h.after, h.follows.node hnew.known]
  · rw [hcall]
    exact .slip (hslip.mpr hcan)

end LookedBoth

end

theorem renameat_carries (hv : R.Inv v) (hs : s.tree = R.tree v) {oldParent newParent : α}
    {oldFileName newFileName : Name} (hold : R.KnownDirectory v oldParent)
    (hnew : R.KnownDirectory v newParent) (hseg : Segment newFileName) :
    R.Carries v (R.BlocksMove v oldParent oldFileName newParent newFileName)
      ((Directory.handles host).renameat s (R.node v oldParent) (R.key oldFileName)
        (R.node v newParent) (R.key newFileName))
      (H.renameat v oldParent oldFileName newParent newFileName) := by
  obtain ⟨v₁, found, hget, hplain, -, hlooked, hfinds⟩ :=
    getChild_looked hv hs hold.known oldFileName host
  have hnew₁ := hlooked.knownDirectory hnew
  obtain ⟨v', found', hget', hplain', -, hlooked', hfinds'⟩ :=
    getChild_looked hlooked.inv hlooked.after hnew₁.known newFileName host
  rw [hlooked.follows.node hnew.known] at hplain'
  have hboth := hlooked.trans hlooked'
  unfold Handles.renameat
  rw [R.key_length, hget, hplain]
  simp only [hget', hplain']
  split
  · exact (Looked.refl hv hs).errno _
  rename_i hlength
  cases found with
  | none => exact hboth.errno _
  | some file =>
      have h := hlooked.both hfinds hlooked' hfinds' hnew.known
      have hnode : R.node v₁ file = R.node v' file :=
        (hlooked'.follows.node (hfinds.known rfl)).symm
      simp only [Option.map_some, hnode, h.writable host hold, h.writable host hnew]
      -- the checks in their order
      refine .ite (h.found_iff h.known_file h.linked) (fun hsame => ?_) fun hother => ?_
      · exact .ok h.follows h.after.symm fun hblocks => absurd hsame (h.blocksMove_iff.mp hblocks).1
      refine .ite (h.root_iff host) (fun _ => h.errno _) fun hbusy => ?_
      refine .ite Iff.rfl (fun _ => h.errno _) fun hacces => ?_
      refine .ite (not_congr (h.getBackend host hold hnew)) (fun _ => h.errno _) fun hxdev => ?_
      rw [h.walkUp host hnew.known, h.checkOverwrite host]
      cases hwalk : (Directory.handles host).walkUp s (R.node v' file)
          ((Directory.handles host).bound s) (R.node v newParent) with
      | foundOld => exact h.errno _
      | nullDeref => exact .error _
      | outOfFuel => exact .error _
      | reachedRoot =>
          cases hover : (found'.map (R.node v')).elim (.ok ())
              ((Directory.handles host).checkOverwrite s (R.node v' file)) with
          | error e => exact h.errno _
          | ok u =>
              obtain ⟨hfile, hfound⟩ := not_or.mp hbusy
              have hwritable : H.writable v' oldParent ∧ H.writable v' newParent := by
                simpa using hacces
              have hpasses : Syscall.PassesChecks s (R.node v oldParent) (R.key oldFileName)
                  (R.node v newParent) (R.key newFileName) (R.node v' file) :=
                { length := (Nat.le_of_eq (R.key_length _)).trans (Nat.le_of_not_lt hlength)
                  lookup_old := h.lookup_file
                  lookup_ne := h.lookup_found ▸ hother
                  ne_root := hfile
                  lookup_ne_root := h.lookup_found ▸ hfound
                  writable_old := (h.writable host hold).trans hwritable.1
                  writable_new := (h.writable host hnew).trans hwritable.2
                  backend := not_not.mp hxdev }
              exact h.move_carries hold hnew hseg hpasses hwalk hover
                (h.blocksMove_iff.trans (and_iff_right hother))

/-! ## Calls -/

/-- What makes a call fail that succeeds on memory directories. -/
def Blocks (R : Refinement H) (v : σ) : Handles.Call α → Prop
  | .unlinkat _ childName _ => childName = dot ∧ ¬ R.RemovesDot
  | .renameat oldParent oldFileName newParent newFileName =>
      R.BlocksMove v oldParent oldFileName newParent newFileName
  | _ => False

/-- The call on memory directories. -/
def plain (R : Refinement H) (host : Host) (s : State) (v : σ) (call : Handles.Call α) :
    Except Fault (State × Handles.Answer FileId) :=
  (Directory.handles host).exec s (call.map (R.node v) R.key)

/-- The code is 0. -/
def Succeeds (result : Except Fault (State × Handles.Answer FileId)) : Prop :=
  ∃ s', result = .ok (s', 0, none)

/-- The call succeeds on memory directories and fails here. -/
def Slips (R : Refinement H) (host : Host) (s : State) (v : σ) (call : Handles.Call α) : Prop :=
  R.Blocks v call ∧ Succeeds (R.plain host s v call)

/-- The same tree and the same answer, or the same fault. -/
inductive Agrees (R : Refinement H) (v : σ) :
    Except Fault (State × Handles.Answer FileId) → Except Fault (σ × Handles.Answer α) → Prop where
  | ok {s' : State} {v' : σ} {a : Handles.Answer FileId} {b : Handles.Answer α} :
      R.Follows v v' → R.tree v' = s'.tree → R.SameAnswer v' a b →
      Agrees R v (.ok (s', a)) (.ok (v', b))
  | error (e : Fault) : Agrees R v (.error e) (.error e)

omit [DecidableEq α] in
theorem Carries.slips_or_agrees {slip : Prop} {a : Except Fault (State × Int)}
    {b : Except Fault (σ × Int)} (h : R.Carries v slip a b) :
    ((slip ∧ Succeeds (a.map Handles.code)) ∧
      (b.map Handles.code : Except Fault (σ × Handles.Answer α)) = .error R.fault) ∨
    (¬ (slip ∧ Succeeds (a.map Handles.code)) ∧
      R.Agrees v (a.map Handles.code) (b.map Handles.code)) := by
  cases h with
  | ok hfollows ht hcode =>
      refine Or.inr ⟨?_, .ok hfollows ht (.withoutFile _)⟩
      rintro ⟨hslip, s', hs'⟩
      cases hs'
      exact hcode hslip rfl
  | slip hslip => exact Or.inl ⟨⟨hslip, _, rfl⟩, rfl⟩
  | error e =>
      refine Or.inr ⟨?_, .error e⟩
      rintro ⟨-, s', hs'⟩
      cases hs'

/-- A call fails, or agrees with the call on memory directories. -/
theorem exec (host : Host) (hv : R.Inv v) (hs : s.tree = R.tree v) {call : Handles.Call α}
    (hvalid : R.Valid v call) :
    (R.Slips host s v call ∧ H.exec v call = .error R.fault) ∨
    (¬ R.Slips host s v call ∧ R.Agrees v (R.plain host s v call) (H.exec v call)) := by
  cases call with
  | openat parent childName flags mode =>
      obtain ⟨hd, -⟩ := hvalid _ (List.mem_singleton_self _)
      obtain ⟨v', b, hcall, hfollows, ht, hanswer⟩ :=
        openat_agrees host hv hs hd childName flags mode
      refine Or.inr ⟨fun h => h.1, ?_⟩
      rw [show H.exec v (.openat parent childName flags mode) = .ok (v', b) from
        congrArg Except.ok hcall]
      exact .ok hfollows ht hanswer
  | mkdirat parent childName mode =>
      obtain ⟨hd, -⟩ := hvalid _ (List.mem_singleton_self _)
      exact (mkdirat_carries hv hs hd mode).slips_or_agrees
  | symlinkat parent childName target =>
      obtain ⟨hd, -⟩ := hvalid _ (List.mem_singleton_self _)
      exact (symlinkat_carries hv hs hd target).slips_or_agrees
  | unlinkat parent childName removeDir =>
      obtain ⟨hd, -⟩ := hvalid _ (List.mem_singleton_self _)
      exact (unlinkat_carries hv hs hd removeDir).slips_or_agrees
  | renameat oldParent oldFileName newParent newFileName =>
      obtain ⟨hold, -⟩ := hvalid _ (List.mem_cons_self ..)
      obtain ⟨hnew, hseg⟩ := hvalid _ (List.mem_cons_of_mem _ (List.mem_singleton_self _))
      exact (renameat_carries hv hs hold hnew hseg).slips_or_agrees

/-! ## Runs -/

/-- A run that returns from all its calls is a run on memory directories. -/
theorem run {calls : List (Handles.Call α)} {answers : List (Handles.Answer α)} {v' : σ}
    (h : Handles.Run H R.Valid v calls answers v') (host : Host) (hv : R.Inv v)
    (hs : s.tree = R.tree v) :
    R.Follows v v' ∧ ∃ s', Handles.Run (Directory.handles host) (fun _ _ => True) s
      (calls.map (Handles.Call.map (R.node v') R.key))
      (answers.map fun a => (a.1, a.2.map (R.node v'))) s' ∧ s'.tree = R.tree v' := by
  induction h generalizing s with
  | nil v => exact ⟨.refl _ hv, s, .nil s, hs⟩
  | @cons v call v₁ answer calls answers v' hvalid hcall _ ih =>
      rcases exec host hv hs hvalid with ⟨-, herror⟩ | ⟨-, hagrees⟩
      · rw [hcall] at herror
        cases herror
      rw [hcall] at hagrees
      generalize hplain : R.plain host s v call = result at hagrees
      cases hagrees with
      | @ok s₁ _ a _ hfollows ht hanswer =>
          obtain ⟨hrest, s', hrun, hs'⟩ := ih hfollows.inv ht.symm
          have hmap : call.map (R.node v') R.key = call.map (R.node v) R.key := by
            refine Handles.Call.map_congr fun e he => ?_
            have hknown := (hvalid e he).1.known
            exact (hrest.node (hfollows.known hknown)).trans (hfollows.node hknown)
          have ha : (answer.1, answer.2.map (R.node v')) = a := by
            refine Prod.ext hanswer.code ((Option.map_congr fun f hf => ?_).trans hanswer.file)
            exact hrest.node (hanswer.known hf)
          refine ⟨hfollows.trans hrest, s', ?_, hs'⟩
          rw [List.map_cons, List.map_cons, hmap, ha]
          exact .cons trivial hplain hrun

end

end Refinement

end WasmFS
