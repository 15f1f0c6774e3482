import WasmFS.Namespace.Simulation
import WasmFS.Virtual.Start

/-!
# The case-insensitive backend is transparent

The virtual files refine memory files, with names in lower case
(`Unmounted.refinement`).  So a run from the start of the program is the run on the
wrapped files with the names in lower case, and a call fails in two cases only.  It
removes `.` from an empty directory, or it renames a link.

The mounts in `/dev` are not among the wrapped files, and their names are not turned
into lower case.  So all this is about calls that name no mount, and that remove and
overwrite no directory with mounts (`IgnoreCaseDirectory.Allowed`).
-/

namespace WasmFS

theorem segment_normalize {name : Name} (h : Segment name) : Segment (normalize name) := by
  obtain ⟨hne, hslash⟩ := h
  refine ⟨fun hnil => hne (List.map_eq_nil_iff.mp hnil), fun hmem => ?_⟩
  obtain ⟨ch, hch, heq⟩ := List.mem_map.mp hmem
  have hsl : ch = slash := by
    unfold tolower slash at *
    grind
  exact hslash (hsl ▸ hch)

namespace VirtualState

variable {host : Host} {v : VirtualState}

/-- How to read virtual files. -/
def abstraction : Abstraction VirtualState VirtualId where
  Inv v := Synced v ∧ Lowered v
  Known v f := f < v.next
  tree v := v.real.tree
  node := node
  key := normalize

theorem Follows.abstract {v v' : VirtualState} (h : Follows v v') (hlower : Lowered v) :
    abstraction.Follows v v' where
  inv := ⟨h.synced, h.lowered hlower⟩
  known hf := Nat.lt_of_lt_of_le hf h.isExtension.next_le
  node := h.isExtension.node

theorem Synced.finds (h : Synced v) (hlower : Lowered v) (host : Host) {d : VirtualId}
    (hd : d < v.next) (name : Name) :
    ∃ v' found, Unmounted.getChild host v d name = (v', found) ∧
      Finds (Unmounted.handles host) abstraction v v' d name found := by
  obtain ⟨v', found, hget, hlooked⟩ := h.getChild host hd name
  have hfollows : Follows v v' :=
    ⟨hlooked.synced, hlooked.isExtension, fun he => Or.inr ⟨_, _, hlooked.tree ▸ he⟩⟩
  exact ⟨v', found, hget, hfollows.abstract hlower, hlooked.tree, hlooked.node,
    fun hc => hlooked.synced.lt_next (hlooked.linked hc), hlooked.again hget,
    fun hget' => hlooked.others h hget'⟩

theorem Synced.inserts (host : Host) {insert : VirtualState → VirtualId → Name →
    VirtualState × Option VirtualId} (body : Body) {mode : Nat} (hbody : body.Childless)
    (hinsert : ∀ v d name, insert v d name =
      VirtualHandle.insert host v d (IgnoreCaseDirectory.insert host v d name
        (Directory.insert host v.real (v.node d) (normalize name) body mode))) :
    Inserts abstraction insert body mode := by
  rintro v d name ⟨hv, hlower⟩ hd hfree
  have hd' : d < v.next := hd.known
  rw [hinsert]
  split
  · rename_i hl
    obtain ⟨v', c, hcall, hfollows, hc, hnode, -, ht⟩ :=
      hv.insert host ((hv.linked_iff hd').mpr hl) hd.isDirectory hfree hbody mode
    exact ⟨v', c, hcall, hfollows.abstract hlower, hfollows.synced.lt_next hc, hnode, ht⟩
  · rename_i hl
    have hp : (v.files d).parent = none := not_not.mp fun hp => hl ((hv.linked_iff hd').mp hp)
    unfold VirtualHandle.insert
    rw [hp]

/-- Nothing is removed under the name `.`. -/
theorem Synced.removeDot (h : Synced v) (host : Host) {d : VirtualId}
    (hw : (v.real.tree.node (v.node d)).writable)
    (hleaf : ∀ n x, ¬ v.real.tree.forest.edge (v.node d) n x) :
    Unmounted.removeChild host v d dot = .error .outOfBounds :=
  h.removeChild_fault host (fun _ he => hleaf _ _ (h.embeds.edge he)) hw

theorem Synced.removes (h : Synced v) (hlower : Lowered v) (host : Host) {d c : VirtualId}
    {name : Name}
    (hget : Unmounted.getChild host v d name = (v, some c))
    (hu : Change.Unlinks v.real.tree (v.node d) (normalize name) (v.node c)) :
    ∃ v', Unmounted.removeChild host v d name = .ok (v', 0) ∧ abstraction.Follows v v' ∧
      v'.real.tree = v.real.tree.unlink (v.node d) (normalize name) (v.node c) := by
  have he := h.edge_of_getChild hget (fun hd => hu.ne_dot ((normalize_eq_dot_iff name).mpr hd))
    fun hd => hu.ne_dotdot ((normalize_eq_dotdot_iff name).mpr hd)
  obtain ⟨v', hcall, hfollows, -, ht⟩ := h.removeChild host he hu
  exact ⟨v', hcall, hfollows.abstract hlower, ht⟩

/-- A file is moved, or it is a link. -/
theorem Synced.moves (h : Synced v) (hlower : Lowered v) (host : Host) {d c : VirtualId}
    {name : Name} {found : Option VirtualId} {p : FileId} {displaced : Option FileId}
    (hc : c < v.next) (hd : d < v.next)
    (hget : Unmounted.getChild host v d name = (v, found))
    (hmoves : Change.Moves v.real.tree p (v.node c) (v.node d) (normalize name) displaced) :
    ((v.real.tree.node (v.node c)).kind ≠ .symlink ∧ ∃ v',
      VirtualHandle.insertMove host v d name c = .ok (v', 0) ∧ abstraction.Follows v v' ∧
      v'.real.tree =
        (Change.move p (v.node c) (v.node d) (normalize name) displaced).apply v.real.tree) ∨
    (¬ (v.real.tree.node (v.node c)).kind ≠ .symlink ∧
      VirtualHandle.insertMove host v d name c = .error .outOfBounds) := by
  have hl : v.view.Linked c := by
    refine (h.linked_iff hc).mpr fun hp => ?_
    cases hp.symm.trans hmoves.parent
  have hdl : v.view.Linked d := (h.linked_iff hd).mpr hmoves.linked
  have hkind := h.kind hc
  by_cases hlink : (v.real.tree.node (v.node c)).kind = .symlink
  · exact Or.inr ⟨not_not.mpr hlink, insertMove_symlink host hdl hl (hkind.trans hlink) name⟩
  refine Or.inl ⟨hlink, ?_⟩
  obtain ⟨v', hcall, hfollows, ht⟩ := h.insertMove host hdl hl (hkind ▸ hlink) hmoves fun r hr => by
    obtain ⟨hdot, hlookup, -⟩ := hmoves.displaces r hr
    obtain ⟨v₁, found₁, hget₁, hlooked⟩ := h.getChild host hd name
    cases hget.symm.trans hget₁
    rw [← hlooked.node, Option.map_eq_some_iff] at hlookup
    obtain ⟨c', hc', -⟩ := hlookup
    exact ⟨c', hlooked.edge hc' (fun hd => hdot ((normalize_eq_dot_iff name).mpr hd))
      fun hd => hmoves.ne_dotdot ((normalize_eq_dotdot_iff name).mpr hd)⟩
  exact ⟨v', hcall, hfollows.abstract hlower, ht⟩

end VirtualState

open VirtualState in
/-- Virtual files refine memory files.  A link cannot be moved, and the name `.` cannot
be removed. -/
def Unmounted.refinement (host : Host) : Refinement (Unmounted.handles host) where
  toAbstraction := abstraction
  RemovesDot := False
  CanMove x := x.kind ≠ .symlink
  fault := .outOfBounds
  wf h := h.1.real_wf
  key_length := normalize_length
  key_eq_dot := normalize_eq_dot_iff _
  key_eq_dotdot := normalize_eq_dotdot_iff _
  key_segment := segment_normalize
  root h := by
    refine ⟨⟨h.1.lt_next h.1.view_wf.root_linked, ?_⟩, h.1.embeds.root⟩
    have hroot := h.1.real_wf.root_directory
    rwa [← show node _ _ = Tree.root _ from h.1.embeds.root] at hroot
  injective h hf hg hl heq := by
    refine h.1.embeds.injective h.1.view_wf h.1.real_wf.forest ((h.1.linked_iff hf).mpr hl) ?_ heq
    refine (h.1.linked_iff hg).mpr ?_
    rw [← show node _ _ = node _ _ from heq]
    exact hl
  isDirectory h hf := h.1.isDirectory hf
  writable h hd :=
    h.1.writable hd.known (beq_iff_eq.mp ((h.1.isDirectory hd.known).trans hd.isDirectory))
  getBackend h hd hd' := by
    refine iff_of_true rfl ?_
    exact (h.1.one_backend (h.1.exists_real hd.known) hd.isDirectory).trans
      (h.1.one_backend (h.1.exists_real hd'.known) hd'.isDirectory).symm
  getParent h hf := h.1.parent hf
  parent_known h _ hp := h.1.lt_next (h.1.view_wf.parent_linked hp)
  getNumEntries _ _ := Syscall.getNumEntries_eq _ _
  bound _ := rfl
  getChild h hd name := h.1.finds h.2 host hd name
  insertDataFile _ := Synced.inserts host (.memory Vec.empty) trivial fun _ _ _ => rfl
  insertDirectory _ := Synced.inserts host (.directory [] []) ⟨rfl, rfl⟩ fun _ _ _ => rfl
  insertSymlink target := Synced.inserts host (.symlink target) trivial fun _ _ _ => rfl
  removeChild h _ hget hu := h.1.removes h.2 host hget hu
  removeDot h _ _ hw hleaf := Or.inr ⟨id, h.1.removeDot host hw hleaf⟩
  insertMove h hd _ hc hget hmoves := h.1.moves h.2 host hc hd.known hget hmoves

/-! ## Runs -/

/-- The real file that a visible file stands for. -/
def VisibleFile.node (v : VirtualState) : VisibleFile → FileId
  | .virtual f => v.node f
  | .special f => f

namespace IgnoreCaseDirectory

open VirtualState
open Unmounted (refinement)

variable {host : Host} {calls : List (Handles.Call VisibleFile)}
  {answers : List (Handles.Answer VisibleFile)} {v : VirtualState}

/-- A call on virtual directories that exist.  It names no mount, and removes and
overwrites no directory with mounts. -/
def Allowed (host : Host) (v : VirtualState) (call : Handles.Call VisibleFile) : Prop :=
  ∃ call' : Handles.Call VirtualId, call = call'.map .virtual id ∧
    (refinement host).Valid v call' ∧ v.NamesNoMount host call'

/-- A run that returns from all its calls, from the start of the program. -/
abbrev Runs (host : Host) (calls : List (Handles.Call VisibleFile))
    (answers : List (Handles.Answer VisibleFile)) (v : VirtualState) : Prop :=
  Handles.Run (handles host) (Allowed host) (VirtualState.init host) calls answers v

theorem inv_init (host : Host) : (refinement host).Inv (VirtualState.init host) :=
  ⟨synced_init host, lowered_init host⟩

theorem valid_rootDirectory (h : (refinement host).Inv v) {call : Handles.Call VirtualId}
    (hcall : ∀ e ∈ call.parsed, e.1 = v.rootDirectory ∧ Segment e.2) :
    (refinement host).Valid v call := by
  intro e he
  obtain ⟨he, hseg⟩ := hcall e he
  rw [he]
  exact ⟨((refinement host).root h).1, hseg⟩

/-- The root can be used from the start. -/
theorem valid_root (host : Host) (call : Handles.Call VirtualId)
    (hcall : ∀ e ∈ call.parsed, e.1 = 0 ∧ Segment e.2) :
    (refinement host).Valid (VirtualState.init host) call := by
  have hzero := (starts_init host).rootDirectory.1
  exact valid_rootDirectory (inv_init host) fun e he =>
    ⟨(hcall e he).1.trans hzero.symm, (hcall e he).2⟩

/-- A run is one on virtual files alone. -/
theorem Runs.unmounted (hrun : Runs host calls answers v) : ∃ calls' answers',
    calls = calls'.map (Handles.Call.map .virtual id) ∧
      answers = answers'.map (Handles.Answer.map .virtual) ∧
      Handles.Run (Unmounted.handles host) (refinement host).Valid (VirtualState.init host) calls'
        answers' v :=
  Handles.Lifts.run (L := Unmounted.lifts host) hrun

theorem Runs.inv (hrun : Runs host calls answers v) : (refinement host).Inv v := by
  obtain ⟨calls', answers', -, -, hrun'⟩ := hrun.unmounted
  exact (Refinement.run hrun' host (inv_init host) rfl).1.inv

/-- After every run `/dev` is still the only directory with mounts. -/
theorem Runs.bare (hrun : Runs host calls answers v) {f : VirtualId} (hf : f ≠ devDirectory) :
    (v.files f).dcache = [] := by
  obtain ⟨calls', answers', -, -, hrun'⟩ := hrun.unmounted
  exact (SameCaches.run hrun').nil (bare_init host hf)

theorem map_virtual (v : VirtualState) (call : Handles.Call VirtualId) :
    (call.map VisibleFile.virtual id).map (VisibleFile.node v) normalize =
      call.map v.node normalize := by
  cases call <;> rfl

/-- A run is the run on the wrapped files with the names in lower case. -/
theorem runs_transparent (hrun : Runs host calls answers v) :
    ∃ s, Handles.Run (Directory.handles host) (fun _ _ => True) (VirtualState.init host).real
      (calls.map (Handles.Call.map (VisibleFile.node v) normalize))
      (answers.map (Handles.Answer.map (VisibleFile.node v))) s ∧ s.tree = v.real.tree := by
  obtain ⟨calls', answers', rfl, rfl, hrun'⟩ := hrun.unmounted
  obtain ⟨-, s, hplain, hs⟩ := Refinement.run hrun' host (inv_init host) rfl
  refine ⟨s, ?_, hs⟩
  have hanswers : ∀ answer : Handles.Answer VirtualId,
      (answer.map .virtual).map (VisibleFile.node v) = answer.map v.node := by
    rintro ⟨code, _ | f⟩ <;> rfl
  rw [List.map_map, List.map_map, Function.comp_def, Function.comp_def]
  simp only [map_virtual, hanswers]
  exact hplain

/-- A call at the start that removes and overwrites nothing. -/
theorem namesNoMount_init {call : Handles.Call VirtualId}
    (hplain : ∀ e ∈ call.parsed, ((VirtualState.init host).files e.1).dcache.lookup e.2 = none)
    (hnone : ((handles host).overwritten (VirtualState.init host)
      (call.map .virtual id)).2 = none) : (VirtualState.init host).NamesNoMount host call :=
  ⟨hplain, fun h => by cases hnone.symm.trans h⟩

/-- A directory `Ab` is the directory `ab`. -/
theorem runs_transparent_mkdirat : ∃ (v : VirtualState) (s : State),
    Handles.Run (Directory.handles .still) (fun _ _ => True) (VirtualState.init .still).real
      [.mkdirat (v.node 0) [97, 98] 511] [(0, none)] s ∧ s.tree = v.real.tree := by
  have hcall : ((handles .still).exec (VirtualState.init .still)
      (.mkdirat (.virtual 0) [65, 98] 511)).toOption.map Prod.snd = some (0, none) := by
    decide +kernel
  obtain ⟨⟨v, answer⟩, hv, rfl⟩ := Option.map_eq_some_iff.mp hcall
  refine ⟨v, runs_transparent (.cons ?_ (ok_of_toOption hv) (.nil v))⟩
  exact ⟨.mkdirat 0 [65, 98] 511, rfl, valid_root .still _ (by decide),
    namesNoMount_init (by decide +kernel) rfl⟩

/-- A call after a run reads past the end of a map, or does what it does on the wrapped
files. -/
theorem exec_transparent (hrun : Runs host calls answers v) {call : Handles.Call VirtualId}
    (hvalid : (refinement host).Valid v call) (hnames : v.NamesNoMount host call) :
    ((refinement host).Slips host v.real v call ∧
      (handles host).exec v (call.map .virtual id) = .error .outOfBounds) ∨
    (¬ (refinement host).Slips host v.real v call ∧ ∃ outcome,
      (handles host).exec v (call.map .virtual id) = outcome.map (Handles.answered .virtual) ∧
      (refinement host).Agrees v
        ((Directory.handles host).exec v.real (call.map v.node normalize)) outcome) := by
  have hlift := Handles.Lifts.exec hnames
  rcases Refinement.exec host hrun.inv rfl hvalid with ⟨hslips, herror⟩ | ⟨hslips, hagrees⟩
  · rw [herror] at hlift
    exact Or.inl ⟨hslips, hlift⟩
  · exact Or.inr ⟨hslips, _, hlift, hagrees⟩

/-- A lookup of `TMP` at the start does what one of `tmp` does. -/
theorem exec_transparent_openat : ∃ outcome,
    (handles .still).exec (VirtualState.init .still) (.openat (.virtual 0) [84, 77, 80] 0 0) =
      outcome.map (Handles.answered .virtual) ∧
    (refinement .still).Agrees (VirtualState.init .still)
      ((Directory.handles .still).exec (VirtualState.init .still).real
        (.openat Init.root [116, 109, 112] 0 0)) outcome := by
  have hcall := exec_transparent (.nil (VirtualState.init .still))
    (valid_root .still (.openat 0 [84, 77, 80] 0 0) (by decide))
    (namesNoMount_init (by decide +kernel) rfl)
  rcases hcall with ⟨hslips, -⟩ | ⟨-, hagrees⟩
  · exact absurd hslips.1 id
  · exact hagrees

-- from a descriptor of `tmp`, the removal of `.` goes past the end of the map
example : ((handles .still).exec (VirtualState.init .still)
    (.unlinkat (.virtual 2) dot true)).toOption.isNone = true := by
  decide +kernel

-- `/dev/null` is the mount, which no real file has under that name
example : ((handles .still).exec (VirtualState.init .still)
    (.openat (.virtual 1) nullName 0 0)).toOption.map (fun r => r.2) =
      some (0, some (.special Init.null)) := by
  decide +kernel

end IgnoreCaseDirectory

end WasmFS
