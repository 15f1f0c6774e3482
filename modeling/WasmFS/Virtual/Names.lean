import WasmFS.Virtual.Transparency

/-!
# Names of virtual files

A virtual directory finds a child under every spelling of its name, and shows it under
one.  That is the spelling it was made with, or the one it was first looked up with if
it was there before.

A mount is only found under its own name.  So a directory with mounts can list two
names that differ in their case only.
-/

namespace WasmFS

namespace VirtualState

variable {host : Host} {v : VirtualState}

/-! ## Lookups -/

/-- Two lookups find the same wrapper if and only if they reach the same file. -/
theorem Synced.getChild_eq_iff (h : Synced v) {d d' c c' : VirtualId} {name name' : Name}
    (hd : d < v.next) (hd' : d' < v.next) {v₁ v₂ : VirtualState}
    (hget : Unmounted.getChild host v d name = (v₁, some c))
    (hget' : Unmounted.getChild host v₁ d' name' = (v₂, some c')) :
    c' = c ↔ v.real.tree.lookup (v.node d') (normalize name') =
      v.real.tree.lookup (v.node d) (normalize name) := by
  obtain ⟨_, _, heq, hlooked⟩ := h.getChild host hd name
  cases hget.symm.trans heq
  have hd₁ : d' < v₁.next := Nat.lt_of_lt_of_le hd' hlooked.isExtension.next_le
  obtain ⟨_, _, heq', hlooked'⟩ := hlooked.synced.getChild host hd₁ name'
  cases hget'.symm.trans heq'
  have hc := hlooked.linked rfl
  have hc' := hlooked'.linked rfl
  have hnode : v₂.node c = v₁.node c :=
    hlooked'.isExtension.node (hlooked.synced.lt_next hc)
  have hnode' := hlooked'.node
  rw [hlooked.tree, hlooked.isExtension.node hd'] at hnode'
  rw [← hlooked.node, ← hnode', Option.map_some, Option.map_some, Option.some_inj, ← hnode]
  refine ⟨congrArg _, hlooked'.synced.embeds.injective hlooked'.synced.view_wf
    hlooked'.synced.forest_wf hc' (hlooked'.linked_of_linked hc)⟩

/-! ## Listings -/

/-- What a virtual directory makes of an entry of the real one. -/
def respell (v : VirtualState) (d : VirtualId) (entry : Dirent) : Dirent :=
  match (v.files d).children.lookup entry.name with
  | none => entry
  | some info => { entry with name := info.originalName }

theorem getEntries_eq (v : VirtualState) (d : VirtualId) : IgnoreCaseDirectory.getEntries v d =
    (v.real.children (v.node d)).map fun e =>
      v.respell d ⟨e.1, (v.real.files e.2).kind, some e.2⟩ := by
  have hreal : Directory.getEntries v.real (v.node d) = (v.real.children (v.node d)).map
      fun e => ⟨e.1, (v.real.files e.2).kind, some e.2⟩ := by
    simp only [Directory.getEntries, MemoryDirectory.getEntries, State.children, List.map_append,
      List.map_map, Function.comp_def]
  unfold IgnoreCaseDirectory.getEntries
  rw [show (v.files d).real = v.node d from rfl, hreal, List.map_map]
  rfl

theorem respell_ino (v : VirtualState) (d : VirtualId) (entry : Dirent) :
    (v.respell d entry).ino = entry.ino := by
  unfold respell
  cases (v.files d).children.lookup entry.name <;> rfl

/-- The entry of a wrapper has the spelled name. -/
theorem respell_of_lookup {d : VirtualId} {entry : Dirent} {info : ChildInfo}
    (hlookup : (v.files d).children.lookup entry.name = some info) :
    (v.respell d entry).name = info.originalName := by
  unfold respell
  rw [hlookup]

/-- The loop over the entries finds the name of the wrapper. -/
theorem getName_eq (hwf : v.view.WF) {d : VirtualId} {key : Name} {info : ChildInfo}
    (hlookup : (v.files d).children.lookup key = some info) :
    IgnoreCaseDirectory.getName v d info.child = info.originalName := by
  have hmem : (⟨key, info⟩ : Sigma fun _ : Name => ChildInfo) ∈ (v.files d).children.entries :=
    AList.mem_lookup_iff.mp hlookup
  unfold IgnoreCaseDirectory.getName
  cases hfind : (v.files d).children.entries.find? fun e => e.2.child == info.child with
  | none =>
      rw [List.find?_eq_none] at hfind
      exact absurd (beq_self_eq_true info.child) (hfind _ hmem)
  | some e =>
      have hfound := List.find?_some hfind
      have hec : e.2.child = info.child := beq_iff_eq.mp hfound
      have hlookup' : (v.files d).children.lookup e.1 = some e.2 :=
        AList.mem_lookup_iff.mpr (List.mem_of_find?_eq_some hfind)
      obtain rfl : e.1 = key := hwf.name_unique ⟨e.2, hlookup', hec⟩ ⟨info, hlookup, rfl⟩
      cases hlookup.symm.trans hlookup'
      rfl

/-- The names of a directory are in lower case. -/
theorem Lowered.of_mem (hlower : Lowered v) {d : VirtualId} {e : Name × FileId}
    (he : e ∈ v.real.children (v.node d)) : normalize e.1 = e.1 :=
  hlower _ _ _ (State.mem_children_iff.mp he)

/-- What a lookup finds is listed under its own name. -/
theorem Synced.getName_listed (h : Synced v) {d c : VirtualId} {key : Name}
    (he : v.view.edge d key c) : normalize (IgnoreCaseDirectory.getName v d c) = key ∧
      ∃ e ∈ IgnoreCaseDirectory.getEntries v d,
        e.name = IgnoreCaseDirectory.getName v d c ∧ e.ino = some (v.node c) := by
  obtain ⟨info, hlookup, rfl⟩ := id he
  rw [getName_eq h.view_wf hlookup, getEntries_eq]
  refine ⟨h.spelled hlookup, ?_⟩
  have hmem : (key, v.node info.child) ∈ v.real.children (v.node d) :=
    State.mem_children_iff.mpr (h.embeds.edge he)
  exact ⟨_, List.mem_map_of_mem hmem, respell_of_lookup hlookup, respell_ino ..⟩

/-! ## Spelling -/

/-- The file `c` has that spelled name in `d`. -/
def Spelled (v : VirtualState) (d : VirtualId) (name : Name) (c : VirtualId) : Prop :=
  (v.files d).children.lookup (normalize name) = some ⟨name, c⟩

theorem Spelled.setParent {d c : VirtualId} {name : Name} (h : Spelled v d name c) (f : VirtualId)
    (p : Option VirtualId) : Spelled (v.setParent f p) d name c := by
  unfold Spelled
  rwa [children_setParent]

theorem Spelled.updateMTime {d c : VirtualId} {name : Name} (h : Spelled v d name c) (host : Host)
    (f : VirtualId) : Spelled (v.updateMTime host f) d name c := by
  unfold Spelled
  rwa [show ((v.updateMTime host f).files d).children = (v.files d).children from
    files_modify_congr VirtualFile.children v f
      (g := fun x => { x with mtime := host.now v.real.trace.calls }) (fun _ => rfl) d]

theorem spelled_setChild (v : VirtualState) (d : VirtualId) (name : Name) (c : VirtualId) :
    Spelled (v.setChild d (normalize name) ⟨name, c⟩) d name c := by
  unfold Spelled
  rw [lookup_setChild, if_pos ⟨rfl, rfl⟩]

/-- An insertion leaves the real files alone, or the new file has the name as it is spelled. -/
theorem insert_spelled {d : VirtualId} {name : Name} {body : Body} {mode : Nat}
    {v' : VirtualState} {created : Option VirtualId}
    (h : VirtualHandle.insert host v d (IgnoreCaseDirectory.insert host v d name
      (Directory.insert host v.real (v.node d) (normalize name) body mode)) = (v', created)) :
    v'.real = v.real ∨ ∃ c, Spelled v' d name c := by
  unfold VirtualHandle.insert IgnoreCaseDirectory.insert at h
  cases hp : (v.files d).parent with
  | none =>
      rw [hp] at h
      cases h
      exact Or.inl rfl
  | some p =>
      by_cases hl : v.real.tree.forest.Linked (v.node d)
      · rw [hp, Directory.insert_of_linked hl] at h
        cases h
        exact Or.inr ⟨_, ((spelled_setChild ..).setParent _ _).updateMTime host d⟩
      · rw [hp, Directory.insert_of_unlinked hl] at h
        cases h
        exact Or.inl rfl

theorem insertMove_failed {s s' : State} {d file : FileId} {name : Name} {err : Int}
    (h : Directory.insertMove host s d name file = .ok (s', err)) (herr : err ≠ 0) : s' = s := by
  unfold Directory.insertMove at h
  cases hp : s.getParent d with
  | none =>
      rw [hp] at h
      cases h
      rfl
  | some p =>
      cases hq : s.getParent file with
      | none =>
          rw [hp, hq] at h
          cases h
      | some q =>
          simp only [hp, hq] at h
          cases h
          exact absurd rfl herr

/-- A move leaves the real files alone, or the file has the new name as it is spelled. -/
theorem insertMove_spelled {d file : VirtualId} {name : Name} {v' : VirtualState} {err : Int}
    (h : VirtualHandle.insertMove host v d name file = .ok (v', err)) :
    v'.real = v.real ∨ Spelled v' d name file := by
  unfold VirtualHandle.insertMove IgnoreCaseDirectory.insertMove at h
  cases hp : (v.files d).parent with
  | none =>
      rw [hp] at h
      cases h
      exact Or.inl rfl
  | some p =>
      cases hq : (v.files file).parent with
      | none =>
          rw [hp, hq] at h
          cases h
      | some q =>
          simp only [hp, hq] at h
          cases hdev : devirtualize v file with
          | error e =>
              rw [hdev] at h
              cases h
          | ok realFile =>
              simp only [hdev] at h
              cases hmove : Directory.insertMove host v.real (v.files d).real (normalize name)
                  realFile with
              | error e =>
                  rw [hmove] at h
                  cases h
              | ok result =>
                  obtain ⟨real, err'⟩ := result
                  simp only [hmove] at h
                  by_cases herr : err' = 0
                  · simp only [herr, ne_eq, not_true_eq_false, if_false] at h
                    cases h
                    refine Or.inr (.updateMTime (.updateMTime (.setParent ?_ _ _) host _) host _)
                    exact spelled_setChild _ d name file
                  · simp only [ne_eq, herr, not_false_eq_true, if_true] at h
                    cases h
                    exact Or.inl (insertMove_failed hmove herr)

/-! ## Calls -/

/-- An insertion is done after a lookup. -/
theorem Looked.insert_spelled {v₁ : VirtualState} {d : VirtualId} {name : Name}
    {found : Option VirtualId} (h : Looked v v₁ d name found) (host : Host) (body : Body)
    (mode : Nat) {v₂ : VirtualState} {created : Option VirtualId}
    (hins : VirtualHandle.insert host v₁ d (IgnoreCaseDirectory.insert host v₁ d name
      (Directory.insert host v₁.real (v₁.node d) (normalize name) body mode)) = (v₂, created)) :
    v₂.real.tree = v.real.tree ∨ ∃ c, Spelled v₂ d name c := by
  rcases VirtualState.insert_spelled hins with hreal | hspelled
  · exact Or.inl ((congrArg State.tree hreal).trans h.tree)
  · exact Or.inr hspelled

end VirtualState

/-- The name that a call gives to a file. -/
def Handles.Call.makes {α : Type} : Handles.Call α → Option (α × Name)
  | .openat parent childName _ _ => some (parent, childName)
  | .mkdirat parent childName _ => some (parent, childName)
  | .symlinkat parent childName _ => some (parent, childName)
  | .unlinkat _ _ _ => none
  | .renameat _ _ newParent newFileName => some (newParent, newFileName)

namespace VirtualState

/-- A call that changes the tree of real files gives the new name as it is spelled. -/
theorem Synced.exec_spelled (h : Synced v) {call : Handles.Call VirtualId} {d : VirtualId}
    {name : Name} (hmakes : call.makes = some (d, name)) (hd : d < v.next)
    (hold : ∀ e ∈ call.parsed, e.1 < v.next) {v' : VirtualState}
    {answer : Handles.Answer VirtualId}
    (hcall : (Unmounted.handles host).exec v call = .ok (v', answer)) :
    v'.real.tree = v.real.tree ∨ ∃ c, Spelled v' d name c := by
  set P : VirtualState → Prop := fun w => w.real.tree = v.real.tree ∨ ∃ c, Spelled w d name c
  have hfirst : P v := Or.inl rfl
  obtain ⟨v₁, found, hget, hlooked⟩ := h.getChild host hd name
  have hget : (Unmounted.handles host).getChild v d name = (v₁, found) := hget
  have hafter : P ((Unmounted.handles host).getChild v d name).1 := by
    rw [hget]
    exact Or.inl hlooked.tree
  cases call with
  | openat parent childName flags mode =>
      cases hmakes
      obtain rfl : _ = v' := congrArg Prod.fst (Except.ok.inj hcall)
      refine Handles.openat_leaves hfirst hafter ?_ flags
      rw [hget]
      exact hlooked.insert_spelled host _ _ rfl
  | mkdirat parent childName mode =>
      cases hmakes
      obtain rfl : _ = v' := congrArg Prod.fst (Except.ok.inj hcall)
      refine Handles.mkdirat_leaves hfirst hafter ?_
      rw [hget]
      exact hlooked.insert_spelled host _ _ rfl
  | symlinkat parent childName target =>
      cases hmakes
      obtain rfl : _ = v' := congrArg Prod.fst (Except.ok.inj hcall)
      refine Handles.symlinkat_leaves hfirst hafter ?_
      rw [hget]
      exact hlooked.insert_spelled host _ _ rfl
  | unlinkat parent childName removeDir => cases hmakes
  | renameat oldParent oldFileName newParent newFileName =>
      cases hmakes
      have hold : oldParent < v.next := hold _ (List.mem_cons_self ..)
      obtain ⟨w₁, found, hget₁, hlooked₁⟩ := h.getChild host hold oldFileName
      have hd₁ := Nat.lt_of_lt_of_le hd hlooked₁.isExtension.next_le
      obtain ⟨w₂, found', hget₂, hlooked₂⟩ := hlooked₁.synced.getChild host hd₁ name
      have ht : w₂.real.tree = v.real.tree := hlooked₂.tree.trans hlooked₁.tree
      have hget₁ : (Unmounted.handles host).getChild v oldParent oldFileName = (w₁, found) := hget₁
      have hget₂ : (Unmounted.handles host).getChild w₁ d name = (w₂, found') := hget₂
      obtain ⟨ret, hrename⟩ := Handles.ok_of_map_code hcall
      refine Handles.renameat_leaves (P := P) hrename hfirst ?_ fun {c} {s''} {ret} hmove => ?_
      · rw [hget₁, hget₂]
        exact Or.inl ht
      · rw [hget₁, hget₂] at hmove
        rcases insertMove_spelled hmove with hreal | hspelled
        · exact Or.inl ((congrArg State.tree hreal).trans ht)
        · exact Or.inr ⟨c, hspelled⟩

end VirtualState

/-! ## Visible files -/

namespace VirtualState

variable {host : Host} {v : VirtualState}

/-- A lookup that finds a virtual file finds no mount. -/
theorem getChild_of_virtual {v' : VirtualState} {d c : VirtualId} {name : Name}
    (h : VirtualHandle.getChild host v d name = (v', some (.virtual c))) :
    Unmounted.getChild host v d name = (v', some c) := by
  unfold VirtualHandle.getChild at h
  unfold Unmounted.getChild
  cases hp : (v.files d).parent with
  | none =>
      rw [hp] at h
      cases h
  | some p =>
      simp only [hp] at h ⊢
      split at h
      · cases h
        rw [if_pos (by assumption)]
      rw [if_neg (by assumption)]
      split at h
      · cases h
        rw [if_pos (by assumption)]
      rw [if_neg (by assumption)]
      cases hmount : (v.files d).dcache.lookup name with
      | some entry =>
          simp only [hmount] at h
          cases h
      | none =>
          simp only [hmount] at h
          rcases hchild : IgnoreCaseDirectory.getChild host v d name with ⟨v₁, _ | child⟩ <;>
            rw [hchild] at h <;> cases h
          rfl

theorem mem_getEntries {d : VirtualId} {e : Dirent}
    (h : e ∈ IgnoreCaseDirectory.getEntries v d) : e ∈ VirtualHandle.getEntries v d :=
  List.mem_append_left _ h

end VirtualState

namespace IgnoreCaseDirectory

open VirtualState
open Unmounted (refinement)

variable {host : Host} {calls : List (Handles.Call VisibleFile)}
  {answers : List (Handles.Answer VisibleFile)} {v : VirtualState}

-- in `/dev` the file `NULL` is made beside the mount `null`
example : ((handles .still).exec (VirtualState.init .still)
    (.openat (.virtual 1) [78, 85, 76, 76] O_CREAT 0)).toOption.map (fun r =>
      (VirtualHandle.getEntries r.1 1).map Dirent.name) =
    some [[78, 85, 76, 76], nullName, randomName, stderrName, stdinName, stdoutName,
      urandomName] := by
  decide +kernel

/-- After every run a file has one wrapper, whatever the spelling it is looked up with. -/
theorem runs_identity (hrun : Runs host calls answers v) {d d' c c' : VirtualId}
    {name name' : Name} (hd : d < v.next) (hd' : d' < v.next) {v₁ v₂ : VirtualState}
    (hget : VirtualHandle.getChild host v d name = (v₁, some (.virtual c)))
    (hget' : VirtualHandle.getChild host v₁ d' name' = (v₂, some (.virtual c'))) :
    c' = c ↔ v.real.tree.lookup (v.node d') (normalize name') =
      v.real.tree.lookup (v.node d) (normalize name) :=
  hrun.inv.1.getChild_eq_iff hd hd' (getChild_of_virtual hget) (getChild_of_virtual hget')

/-- `TMP` and `tmp` are one file. -/
theorem runs_identity_tmp : ∃ v₁ v₂ c c',
    VirtualHandle.getChild .still (VirtualState.init .still) 0 [84, 77, 80] =
      (v₁, some (.virtual c)) ∧
    VirtualHandle.getChild .still v₁ 0 [116, 109, 112] = (v₂, some (.virtual c')) ∧ c' = c := by
  have hfirst : (VirtualHandle.getChild .still (VirtualState.init .still) 0
      [84, 77, 80]).2 = some (.virtual 2) := by decide +kernel
  have hsecond : (VirtualHandle.getChild .still (VirtualHandle.getChild .still
      (VirtualState.init .still) 0 [84, 77, 80]).1 0 [116, 109, 112]).2 = some (.virtual 2) := by
    decide +kernel
  refine ⟨_, _, 2, 2, Prod.ext rfl hfirst, Prod.ext rfl hsecond, ?_⟩
  exact (runs_identity (.nil _) (by decide) (by decide) (Prod.ext rfl hfirst)
    (Prod.ext rfl hsecond)).mpr rfl

/-- A call after a run that gives a file a new name keeps the spelling: `getName` and the
listing of the directory show the name as the call has it. -/
theorem runs_preserve_case (hrun : Runs host calls answers v) {call : Handles.Call VirtualId}
    (hvalid : (refinement host).Valid v call) (hnames : v.NamesNoMount host call)
    {d : VirtualId} {name : Name} (hmakes : call.makes = some (d, name)) {v' : VirtualState}
    {answer : Handles.Answer VisibleFile}
    (hcall : (handles host).exec v (call.map .virtual id) = .ok (v', answer)) :
    v'.real.tree = v.real.tree ∨ ∃ c, getName v' d c = name ∧
      ∃ e ∈ VirtualHandle.getEntries v' d, e.name = name ∧ e.ino = some (v'.node c) := by
  have hknown : ∀ e ∈ call.parsed, e.1 < v.next := fun e he => (hvalid e he).1.known
  have hd : d < v.next := by
    refine hknown (d, name) ?_
    cases call <;> cases hmakes <;> simp [Handles.Call.parsed]
  rw [Handles.Lifts.exec hnames] at hcall
  cases hplain : (Unmounted.handles host).exec v call with
  | error e =>
      rw [hplain] at hcall
      cases hcall
  | ok result =>
      rw [hplain] at hcall
      cases hcall
      rcases hrun.inv.1.exec_spelled hmakes hd hknown hplain with ht | ⟨c, hspelled⟩
      · exact Or.inl ht
      have hsynced : Synced result.1 := by
        rcases Refinement.exec host hrun.inv rfl hvalid with ⟨-, herror⟩ | ⟨-, hagrees⟩
        · cases hplain.symm.trans herror
        · rw [hplain] at hagrees
          generalize (refinement host).plain host v.real v call = plain at hagrees
          cases hagrees with
          | ok hfollows => exact hfollows.inv.1
      have hname : getName result.1 d c = name := getName_eq hsynced.view_wf hspelled
      obtain ⟨-, e, he, hen, hino⟩ := hsynced.getName_listed ⟨_, hspelled, rfl⟩
      exact Or.inr ⟨c, hname, e, mem_getEntries he, hen.trans hname, hino⟩

/-- The directory made as `Ab` is listed as `Ab`. -/
theorem runs_preserve_case_mkdirat : ∃ v' : VirtualState, ∃ c, getName v' 0 c = [65, 98] ∧
    ∃ e ∈ VirtualHandle.getEntries v' 0, e.name = [65, 98] ∧ e.ino = some (v'.node c) := by
  have hcall : ((handles .still).exec (VirtualState.init .still)
      (.mkdirat (.virtual 0) [65, 98] 511)).toOption.map
        (fun r => decide (r.1.real.tree.next = 10)) = some true := by decide +kernel
  obtain ⟨⟨v', answer⟩, hv, hnext⟩ := Option.map_eq_some_iff.mp hcall
  refine ⟨v', (runs_preserve_case (.nil _)
    (valid_root .still (.mkdirat 0 [65, 98] 511) (by decide))
    (namesNoMount_init (by decide +kernel) rfl) rfl (ok_of_toOption hv)).resolve_left
      fun ht => ?_⟩
  have hnext := of_decide_eq_true hnext
  rw [ht] at hnext
  cases hnext

end IgnoreCaseDirectory

end WasmFS
