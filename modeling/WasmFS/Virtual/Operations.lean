import WasmFS.Virtual.Unmounted

/-!
# What the handles of virtual files do

Every operation of a virtual directory does one of three things to the forest of
wrappers, and the same to the tree of real files.  It makes a wrapper for a child of
the real directory (`adopt`), takes a wrapper out or moves one.
-/

namespace WasmFS

namespace VirtualState

variable {host : Host} {v : VirtualState}

/-- Two states related by an operation. -/
structure Follows (v v' : VirtualState) : Prop where
  synced : Synced v'
  isExtension : Extends v v'
  /-- New names are in lower case. -/
  names : ∀ {d n c}, v'.real.tree.forest.edge d n c →
    normalize n = n ∨ ∃ d' c', v.real.tree.forest.edge d' n c'

theorem Synced.next_not_linked (h : Synced v) : ¬ v.view.Linked v.next := fun hl =>
  hl (h.fresh (Nat.le_refl _))

/-- A wrapper is in the tree if the file it stands for is. -/
theorem Synced.linked_iff (h : Synced v) {f : VirtualId} (hf : f < v.next) :
    v.view.Linked f ↔ v.real.tree.forest.Linked (v.node f) :=
  ⟨h.linked_real, fun hl => not_not.mp fun hv => h.unlinked hf hv hl⟩

/-- The parent of a file that is wrapped is wrapped. -/
theorem Synced.parent (h : Synced v) {f : VirtualId} (hf : f < v.next) :
    (v.files f).parent.map v.node = (v.real.tree.node (v.node f)).parent := by
  cases hp : (v.files f).parent with
  | none =>
      have hl : ¬ v.view.Linked f := fun hl => hl hp
      exact (not_not.mp (h.unlinked hf hl)).symm
  | some p => exact (h.embeds.parent h.view_wf h.real_wf.forest hp).symm

theorem Synced.isDirectory (h : Synced v) {f : VirtualId} (hf : f < v.next) :
    ((v.files f).kind == .directory) = (v.real.tree.node (v.node f)).isDirectory := by
  rw [Node.isDirectory_iff_kind, h.kind hf]

/-! ## New wrappers -/

/-- A wrapper of the child `r` of the directory that `d` stands for. -/
def adopt (host : Host) (v : VirtualState) (d : VirtualId) (name : Name) (r : FileId) :
    VirtualState :=
  ((virtualize host v r).1.setChild d (normalize name) ⟨name, v.next⟩).setParent v.next (some d)

/-- The new wrapper is outside the tree. -/
theorem view_virtualize (host : Host) (hwf : v.view.WF) (hfresh : (v.files v.next).parent = none)
    (r : FileId) : (virtualize host v r).1.view = v.view := by
  apply Forest.ext
  · rfl
  · funext f
    by_cases hf : f = v.next
    · subst hf
      exact (congrArg VirtualFile.parent (virtualize_files_self host v r)).trans hfresh.symm
    · exact congrArg VirtualFile.parent (virtualize_files_of_ne host v r hf)
  · funext d key c
    by_cases hd : d = v.next
    · subst hd
      have hno : ¬ v.view.edge v.next key c := fun he => hwf.linked_of_edge he hfresh
      have hno' : ¬ (virtualize host v r).1.view.edge v.next key c := by
        rintro ⟨info, hlookup, -⟩
        rw [virtualize_files_self] at hlookup
        cases hlookup
      exact propext (iff_of_false hno' hno)
    · exact congrArg (fun x : VirtualFile => ∃ info, x.children.lookup key = some info ∧
        info.child = c) (virtualize_files_of_ne host v r hd)

theorem virtualMode_writable (file : File) (h : file.kind = .directory) :
    hasFlag (virtualMode file) WASMFS_PERM_WRITE = file.writable := by
  unfold virtualMode File.writable hasFlag
  rw [h]
  simp only
  rw [Nat.and_or_distrib_right, show S_IFDIR &&& WASMFS_PERM_WRITE = 0 from by decide, Nat.or_zero]

/-- Only the new wrapper differs. -/
theorem adopt_wrappers (host : Host) (v : VirtualState) (d : VirtualId) (name : Name)
    (r : FileId) : SameWrappers (virtualize host v r).1 (adopt host v d name r) :=
  (SameWrappers.setChild _ d (normalize name) ⟨name, v.next⟩).trans
    (SameWrappers.setParent _ v.next (some d))

theorem adopt_node_self (host : Host) (v : VirtualState) (d : VirtualId) (name : Name)
    (r : FileId) : (adopt host v d name r).node v.next = r := by
  rw [(adopt_wrappers host v d name r).node, node, virtualize_files_self]

theorem adopt_node_of_ne (host : Host) (v : VirtualState) (d : VirtualId) (name : Name)
    (r : FileId) {f : VirtualId} (hf : f ≠ v.next) : (adopt host v d name r).node f = v.node f := by
  rw [(adopt_wrappers host v d name r).node, node, virtualize_files_of_ne host v r hf, node]

theorem view_adopt (host : Host) (hwf : v.view.WF) (hfresh : (v.files v.next).parent = none)
    {d : VirtualId} {name : Name} (hfree : ∀ c, ¬ v.view.edge d (normalize name) c) (r : FileId) :
    (adopt host v d name r).view = v.view.link d (normalize name) v.next := by
  have hview := view_virtualize host hwf hfresh r
  unfold adopt
  apply Forest.ext
  · rfl
  · rw [parent_setParent, parent_setChild, hview]
    rfl
  · rw [edge_setParent]
    funext d' key c
    apply propext
    rw [edge_setChild, hview]
    refine or_congr_left (and_iff_left_of_imp ?_)
    rintro he ⟨rfl, rfl⟩
    exact hfree c he

theorem Synced.adopt (h : Synced v) (host : Host) {d : VirtualId} (hd : v.view.Linked d)
    {name : Name} {r : FileId} (he : v.real.tree.forest.edge (v.node d) (normalize name) r)
    (hfree : ∀ c, ¬ v.view.edge d (normalize name) c) :
    Follows v (v.adopt host d name r) := by
  have hview := view_adopt host h.view_wf (h.fresh (Nat.le_refl _)) hfree r
  have hself := adopt_node_self host v d name r
  have hother := fun {f} => @adopt_node_of_ne host v d name r f
  have hfiles := (adopt_wrappers host v d name r).files
  have hlt : ∀ {f}, v.view.Linked f → f ≠ v.next := fun hf => Nat.ne_of_lt (h.lt_next hf)
  refine ⟨⟨⟨?_, h.forest_wf, ?_, ?_, ?_⟩, h.real_wf, ?_, ?_, ?_, ?_, h.one_backend⟩,
    ⟨Nat.le_succ _, Nat.le_refl _, fun hf => hother (Nat.ne_of_lt hf), rfl, rfl⟩,
    fun he => Or.inr ⟨_, _, he⟩⟩
  · rw [hview]
    exact h.view_wf.link hd h.next_not_linked hfree
  · rw [hview]
    refine (h.embeds.congr h.view_wf fun a ha => hother (hlt ha)).link ?_
    rwa [hself, hother (hlt hd)]
  · intro f hf
    have hne : f ≠ v.next := Nat.ne_of_gt hf
    have hparent := congrFun (congrArg Forest.parent hview) f
    rw [Forest.link_parent_of_ne _ _ _ hne] at hparent
    exact hparent.trans (h.fresh (Nat.le_of_succ_le hf))
  · intro f hf hl
    rw [hview] at hl
    have hne : f ≠ v.next := by
      rintro rfl
      exact hl fun hp => by rw [Forest.link_parent_self] at hp; cases hp
    rw [hother hne]
    refine h.unlinked (Nat.lt_of_le_of_ne (Nat.le_of_lt_succ hf) hne) fun hv => hl ?_
    unfold Forest.Linked
    rwa [Forest.link_parent_of_ne _ _ _ hne]
  · intro f hf
    by_cases hne : f = v.next
    · subst hne
      rw [hself]
      exact h.real_wf.lt_next_of_linked (h.real_wf.forest.child_linked he)
    · rw [hother hne]
      exact h.exists_real (Nat.lt_of_le_of_ne (Nat.le_of_lt_succ hf) hne)
  · intro f hf
    rw [(hfiles f).kind]
    by_cases hne : f = v.next
    · subst hne
      rw [hself, virtualize_files_self]
      exact (File.node_kind _).symm
    · rw [hother hne, virtualize_files_of_ne host v r hne]
      exact h.kind (Nat.lt_of_le_of_ne (Nat.le_of_lt_succ hf) hne)
  · intro f hf hdir
    rw [(hfiles f).kind] at hdir
    rw [(hfiles f).mode]
    by_cases hne : f = v.next
    · subst hne
      rw [virtualize_files_self] at hdir ⊢
      rw [hself]
      exact virtualMode_writable _ hdir
    · rw [virtualize_files_of_ne host v r hne] at hdir ⊢
      rw [hother hne]
      exact h.writable (Nat.lt_of_le_of_ne (Nat.le_of_lt_succ hf) hne) hdir
  · intro d' key info hlookup
    unfold VirtualState.adopt at hlookup
    rw [children_setParent, lookup_setChild] at hlookup
    split at hlookup
    · rename_i hkey
      cases hlookup
      exact hkey.2.symm
    · by_cases hne : d' = v.next
      · subst hne
        rw [virtualize_files_self] at hlookup
        cases hlookup
      · rw [virtualize_files_of_ne host v r hne] at hlookup
        exact h.spelled hlookup

/-! ## Lookups -/

/-- What a lookup of `name` in `d` leaves and finds. -/
structure Looked (v v' : VirtualState) (d : VirtualId) (name : Name) (found : Option VirtualId) :
    Prop where
  synced : Synced v'
  isExtension : Extends v v'
  tree : v'.real.tree = v.real.tree
  parent : ∀ {f p}, (v.files f).parent = some p → (v'.files f).parent = some p
  kept : ∀ {d key info}, (v.files d).children.lookup key = some info →
    (v'.files d).children.lookup key = some info
  linked : ∀ {c}, found = some c → v'.view.Linked c
  edge : ∀ {c}, found = some c → name ≠ dot → name ≠ dotdot →
    v'.view.edge d (normalize name) c
  node : found.map v'.node = v.real.tree.lookup (v.node d) (normalize name)
  /-- Only a new wrapper changes the state. -/
  unchanged : found = none ∨ name = dot ∨ name = dotdot → v' = v

theorem Looked.linked_of_linked {v v' : VirtualState} {d : VirtualId} {name : Name}
    {found : Option VirtualId} (h : Looked v v' d name found) {f : VirtualId}
    (hf : v.view.Linked f) : v'.view.Linked f := by
  cases hp : (v.files f).parent with
  | none => exact absurd hp hf
  | some p => exact fun hp' => by cases (h.parent hp).symm.trans hp'

theorem Looked.refl (h : Synced v) {d : VirtualId} {name : Name} {found : Option VirtualId}
    (hlinked : ∀ {c}, found = some c → v.view.Linked c)
    (hedge : ∀ {c}, found = some c → name ≠ dot → name ≠ dotdot →
      v.view.edge d (normalize name) c)
    (hnode : found.map v.node = v.real.tree.lookup (v.node d) (normalize name)) :
    Looked v v d name found :=
  ⟨h, .refl v, rfl, id, id, hlinked, hedge, hnode, fun _ => rfl⟩

theorem setParent_of_parent {f : VirtualId} {p : Option VirtualId}
    (h : (v.files f).parent = p) : v.setParent f p = v := by
  subst h
  exact congrArg (fun files => { v with files := files }) (Function.update_eq_self ..)

/-- The lookup of a name that has no wrapper yet. -/
theorem Looked.adopt (h : Synced v) (host : Host) {d : VirtualId} (hd : v.view.Linked d)
    {name : Name} (hdot : name ≠ dot) (hdotdot : name ≠ dotdot)
    (hlookup : (v.files d).children.lookup (normalize name) = none) {r : FileId}
    (hr : v.real.tree.lookup (v.node d) (normalize name) = some r)
    (he : v.real.tree.forest.edge (v.node d) (normalize name) r) :
    Looked v (v.adopt host d name r) d name (some v.next) := by
  have hfree : ∀ c, ¬ v.view.edge d (normalize name) c := by
    rintro c ⟨info, hinfo, -⟩
    cases hlookup.symm.trans hinfo
  obtain ⟨hsynced, hext, -⟩ := h.adopt host hd he hfree
  have hview := view_adopt host h.view_wf (h.fresh (Nat.le_refl _)) hfree r
  refine ⟨hsynced, hext, rfl, ?_, ?_, ?_, ?_, ?_, ?_⟩
  · intro f p hfp
    have hne : f ≠ v.next := by
      rintro rfl
      cases hfp.symm.trans (h.fresh (Nat.le_refl _))
    have hparent := congrFun (congrArg Forest.parent hview) f
    rw [Forest.link_parent_of_ne _ _ _ hne] at hparent
    exact hparent.trans hfp
  · intro d' key info hinfo
    have hne : ¬ (d' = d ∧ key = normalize name) := by
      rintro ⟨rfl, rfl⟩
      cases hlookup.symm.trans hinfo
    have hne' : d' ≠ v.next := by
      rintro rfl
      exact h.next_not_linked (h.view_wf.linked_of_edge ⟨info, hinfo, rfl⟩)
    unfold VirtualState.adopt
    rw [children_setParent, lookup_setChild, if_neg hne, virtualize_files_of_ne host v r hne']
    exact hinfo
  · rintro c ⟨⟩
    rw [hview]
    exact fun hc => by cases hc.symm.trans (Forest.link_parent_self ..)
  · rintro c ⟨⟩ - -
    rw [hview]
    exact Or.inr ⟨rfl, rfl, rfl⟩
  · rw [Option.map_some, adopt_node_self]
    exact hr.symm
  · rintro (hnone | hname | hname)
    · cases hnone
    · exact absurd hname hdot
    · exact absurd hname hdotdot

/-- A lookup finds the wrapper of what the real directory has under the name in lower
case, and makes it if there is none. -/
theorem Synced.getChild (h : Synced v) (host : Host) {d : VirtualId} (hd : d < v.next)
    (name : Name) : ∃ v' found, Unmounted.getChild host v d name = (v', found) ∧
      Looked v v' d name found := by
  unfold Unmounted.getChild
  cases hp : (v.files d).parent with
  | none =>
      have hl : ¬ v.view.Linked d := fun hl => hl hp
      refine ⟨v, none, rfl, .refl h (fun hc => by cases hc) (fun hc => by cases hc) ?_⟩
      exact (Tree.lookup_of_unlinked (h.unlinked hd hl) _).symm
  | some p =>
      have hl : v.view.Linked d := fun hl => by cases hp.symm.trans hl
      have hreal := h.linked_real hl
      simp only
      split
      · rename_i hdot
        subst hdot
        refine ⟨v, some d, rfl, .refl h ?_ (fun _ hne => absurd rfl hne) ?_⟩
        · rintro c ⟨⟩
          exact hl
        · exact (Tree.lookup_dot hreal).symm
      rename_i hdot
      split
      · rename_i hdotdot
        subst hdotdot
        refine ⟨v, some p, rfl, .refl h ?_ (fun _ _ hne => absurd rfl hne) ?_⟩
        · rintro c ⟨⟩
          exact h.view_wf.parent_linked hp
        · have hparent := h.parent hd
          rw [hp] at hparent
          exact (Tree.lookup_dotdot hparent.symm).symm
      rename_i hdotdot
      have hkey : normalize name ≠ dot := fun hk => hdot ((normalize_eq_dot_iff name).mp hk)
      have hkey' : normalize name ≠ dotdot := fun hk =>
        hdotdot ((normalize_eq_dotdot_iff name).mp hk)
      have hiff := fun {c} => h.real_wf.lookup_eq_some_iff (d := v.node d) (c := c) hkey hkey'
      unfold IgnoreCaseDirectory.getChild
      simp only
      cases hlookup : (v.files d).children.lookup (normalize name) with
      | some info =>
          have hedge : v.view.edge d (normalize name) info.child := ⟨info, hlookup, rfl⟩
          refine ⟨v, some info.child, ?_, .refl h ?_ ?_ ?_⟩
          · simp only [setParent_of_parent (h.view_wf.edge_parent hedge)]
          · rintro c ⟨⟩
            exact h.view_wf.child_linked hedge
          · rintro c ⟨⟩ - -
            exact hedge
          · exact (hiff.mpr (h.embeds.edge hedge)).symm
      | none =>
          simp only
          rw [Directory.getChild_eq h.real_wf]
          cases hr : v.real.tree.lookup (v.files d).real (normalize name) with
          | none =>
              exact ⟨v, none, rfl, .refl h (fun hc => by cases hc) (fun hc => by cases hc) hr.symm⟩
          | some r =>
              exact ⟨v.adopt host d name r, some v.next, rfl,
                .adopt h host hl hdot hdotdot hlookup hr (hiff.mp hr)⟩

/-- A child that has been looked up is found without a change. -/
theorem getChild_of_edge (host : Host) (hwf : v.view.WF) {d c : VirtualId} {name : Name}
    (he : v.view.edge d (normalize name) c) (hdot : name ≠ dot) (hdotdot : name ≠ dotdot) :
    Unmounted.getChild host v d name = (v, some c) := by
  obtain ⟨info, hlookup, rfl⟩ := id he
  unfold Unmounted.getChild
  cases hp : (v.files d).parent with
  | none => exact absurd hp (hwf.linked_of_edge he)
  | some p =>
      unfold IgnoreCaseDirectory.getChild
      simp only [if_neg hdot, if_neg hdotdot, hlookup, setParent_of_parent (hwf.edge_parent he)]

theorem linked_of_getChild {host : Host} {v' : VirtualState} {d c : VirtualId} {name : Name}
    (h : Unmounted.getChild host v d name = (v', some c)) : v.view.Linked d := by
  intro hp
  have hp : (v.files d).parent = none := hp
  unfold Unmounted.getChild at h
  rw [hp] at h
  cases h

theorem Synced.edge_of_getChild (h : Synced v) {host : Host} {d c : VirtualId} {name : Name}
    (hget : Unmounted.getChild host v d name = (v, some c)) (hdot : name ≠ dot)
    (hdotdot : name ≠ dotdot) : v.view.edge d (normalize name) c := by
  obtain ⟨v', found, hget', hlooked⟩ := h.getChild host (h.lt_next (linked_of_getChild hget)) name
  cases hget.symm.trans hget'
  exact hlooked.edge rfl hdot hdotdot

/-- A lookup does not get in the way of other ones. -/
theorem Looked.others {v' : VirtualState} {d : VirtualId} {name : Name} {found : Option VirtualId}
    (hlooked : Looked v v' d name found) (h : Synced v) {host : Host} {d' c : VirtualId}
    {name' : Name} (hget : Unmounted.getChild host v d' name' = (v, some c)) :
    Unmounted.getChild host v' d' name' = (v', some c) := by
  cases hp : (v.files d').parent with
  | none => exact absurd hp (linked_of_getChild hget)
  | some p =>
      by_cases hdot : name' = dot
      · unfold Unmounted.getChild at hget ⊢
        simp only [hp, hlooked.parent hp, if_pos hdot] at hget ⊢
        rw [(Prod.mk.inj hget).2]
      by_cases hdotdot : name' = dotdot
      · unfold Unmounted.getChild at hget ⊢
        simp only [hp, hlooked.parent hp, if_neg hdot, if_pos hdotdot] at hget ⊢
        rw [(Prod.mk.inj hget).2]
      · obtain ⟨info, hlookup, hchild⟩ := h.edge_of_getChild hget hdot hdotdot
        exact getChild_of_edge host hlooked.synced.view_wf ⟨info, hlooked.kept hlookup, hchild⟩
          hdot hdotdot

theorem Looked.again {v' : VirtualState} {d : VirtualId} {name : Name} {found : Option VirtualId}
    (hlooked : Looked v v' d name found) {host : Host}
    (hget : Unmounted.getChild host v d name = (v', found)) :
    Unmounted.getChild host v' d name = (v', found) := by
  by_cases hsame : found = none ∨ name = dot ∨ name = dotdot
  · obtain rfl := hlooked.unchanged hsame
    exact hget
  · obtain ⟨hfound, hdot, hdotdot⟩ : found ≠ none ∧ name ≠ dot ∧ name ≠ dotdot := by
      simpa [not_or] using hsame
    obtain ⟨c, rfl⟩ := Option.ne_none_iff_exists'.mp hfound
    exact getChild_of_edge host hlooked.synced.view_wf (hlooked.edge rfl hdot hdotdot) hdot hdotdot

/-! ## Insertions -/

/-- A new real file changes nothing for the wrappers, linked or not. -/
theorem Synced.allocated (h : Synced v) {real : State} {x : Node}
    (hsame : Tree.SameAttributes (v.real.tree.alloc x) real.tree) (hwf : real.tree.WF)
    (htracks : Tracks v.view real.tree.forest v.node v.next)
    (hbackend : x.isDirectory → x.backend = (v.real.tree.node v.real.tree.root).backend) :
    Synced { v with real := real } ∧ Extends v { v with real := real } := by
  have hnext : real.next = v.real.next + 1 := hsame.next
  have hroot : real.tree.root = v.real.tree.root := hsame.root
  have hnode : ∀ {f}, f < v.real.next → (v.real.tree.alloc x).node f = v.real.tree.node f :=
    fun hf => Tree.node_alloc_of_ne _ x (Nat.ne_of_lt hf)
  refine ⟨⟨htracks, hwf, ?_, ?_, ?_, h.spelled, ?_⟩,
    ⟨Nat.le_refl _, Nat.le_of_lt (hnext ▸ Nat.lt_succ_self _), fun _ => rfl, rfl, hroot⟩⟩
  · intro f hf
    exact Nat.lt_of_lt_of_le (h.exists_real hf) (hnext ▸ Nat.le_succ _)
  · intro f hf
    exact (h.kind hf).trans
      ((congrArg Node.kind (hnode (h.exists_real hf))).symm.trans (hsame.kind _).symm)
  · intro f hf hd
    exact (h.writable hf hd).trans
      ((congrArg Node.writable (hnode (h.exists_real hf))).symm.trans (hsame.writable _).symm)
  · intro f hf hd
    have hlt : v.real.tree.root < v.real.next :=
      h.real_wf.lt_next_of_linked h.real_wf.forest.root_linked
    have hf : f < v.real.next + 1 := hnext ▸ hf
    rw [hsame.isDirectory] at hd
    rw [hsame.backend, hsame.backend, hroot, hnode hlt]
    by_cases hne : f = v.real.next
    · subst hne
      have hself : (v.real.tree.alloc x).node v.real.next = x := Tree.node_alloc_self _ x
      rw [hself] at hd ⊢
      exact hbackend hd
    · have hf : f < v.real.next := Nat.lt_of_le_of_ne (Nat.le_of_lt_succ hf) hne
      rw [hnode hf] at hd ⊢
      exact h.one_backend hf hd

/-- A real file outside the tree. -/
theorem Synced.alloc (h : Synced v) {real : State} {x : Node}
    (ht : real.tree = v.real.tree.alloc x) (hblank : x.Blank) (hdir : x.isDirectory = false) :
    Follows v { v with real := real } := by
  have hforest : real.tree.forest = v.real.tree.forest := by
    rw [ht]
    exact h.real_wf.forest_alloc hblank
  have hwf : real.tree.WF := by
    rw [ht]
    exact h.real_wf.alloc hblank
  have hsame : Tree.SameAttributes (v.real.tree.alloc x) real.tree := by
    rw [ht]
    exact .refl _
  have htracks : Tracks v.view real.tree.forest v.node v.next := by
    rw [hforest]
    exact h.toTracks
  obtain ⟨hsynced, hext⟩ := h.allocated hsame hwf htracks fun hd => by cases hdir.symm.trans hd
  exact ⟨hsynced, hext, fun he => Or.inr ⟨_, _, hforest ▸ he⟩⟩

/-- The real tree may grow. -/
theorem Synced.grow (h : Synced v) {real : State} {k : FileId} {key : Name} {x : Node}
    (ht : real.tree = v.real.tree.create k key x) (hdir : (v.real.tree.node k).isDirectory)
    (hlinked : v.real.tree.forest.Linked k) (hfree : ∀ c, ¬ v.real.tree.forest.edge k key c)
    (hkey : normalize key = key) (hblank : x.Blank)
    (hbackend : x.backend = (v.real.tree.node k).backend) :
    Follows v { v with real := real } := by
  have hforest : real.tree.forest = v.real.tree.forest.link k key v.real.next := by
    rw [ht]
    exact h.real_wf.forest_create hdir hlinked key hblank
  have hsame : Tree.SameAttributes (v.real.tree.alloc x) real.tree := by
    rw [ht]
    exact .link _ k key v.real.next
  have hwf : real.tree.WF := by
    rw [ht]
    exact h.real_wf.create hdir hlinked hfree hblank
  have htracks : Tracks v.view real.tree.forest v.node v.next := by
    refine ⟨h.view_wf, hwf.forest, ?_, h.fresh, ?_⟩
    · rw [hforest]
      exact h.embeds.grow k key v.real.next
    · intro f hf hl
      have hne : v.node f ≠ v.real.next := Nat.ne_of_lt (h.exists_real hf)
      have hunlinked := h.unlinked hf hl
      unfold Forest.Linked at hunlinked ⊢
      rw [hforest]
      exact fun hp => hunlinked fun hp' => hp ((Forest.link_parent_of_ne _ _ _ hne).trans hp')
  have hroot : x.backend = (v.real.tree.node v.real.tree.root).backend :=
    hbackend.trans (h.one_backend (h.real_wf.lt_next_of_linked hlinked) hdir)
  obtain ⟨hsynced, hext⟩ := h.allocated hsame hwf htracks fun _ => hroot
  refine ⟨hsynced, hext, fun {d n c} he => ?_⟩
  rw [hforest] at he
  rcases he with he | ⟨-, rfl, -⟩
  · exact Or.inr ⟨d, c, he⟩
  · exact Or.inl hkey

theorem Synced.updateMTime (h : Synced v) (host : Host) (f : VirtualId) :
    Follows v (v.updateMTime host f) := by
  have hsame := SameWrappers.updateMTime host v f
  have hview := view_updateMTime host v f
  refine ⟨h.of_sameWrappers hsame h.real_wf ?_ ?_, hsame.isExtension, fun he => Or.inr ⟨_, _, he⟩⟩
  · rw [hview]
    exact h.toTracks
  · intro d key info hlookup
    rw [show ((v.updateMTime host f).files d).children = (v.files d).children from
      files_modify_congr VirtualFile.children v f
        (g := fun x => { x with mtime := host.now v.real.trace.calls }) (fun _ => rfl) d] at hlookup
    exact h.spelled hlookup

theorem Follows.trans {v v' v'' : VirtualState} (h : Follows v v') (h' : Follows v' v'') :
    Follows v v'' where
  synced := h'.synced
  isExtension := h.isExtension.trans h'.isExtension
  names he := by
    rcases h'.names he with hn | ⟨d', c', he'⟩
    · exact Or.inl hn
    · exact h.names he'

/-- The wrapper of a file that is inserted. -/
theorem Synced.insert (h : Synced v) (host : Host) {d : VirtualId} (hd : v.view.Linked d)
    (hdir : (v.real.tree.node (v.node d)).isDirectory) {name : Name}
    (hfree : v.real.tree.lookup (v.node d) (normalize name) = none) {body : Body}
    (hbody : body.Childless) (mode : Nat) :
    ∃ v' c, VirtualHandle.insert host v d (IgnoreCaseDirectory.insert host v d name
        (Directory.insert host v.real (v.node d) (normalize name) body mode)) = (v', some c) ∧
      Follows v v' ∧ v'.view.Linked c ∧ v'.node c = v.real.next ∧
      v'.view.edge d (normalize name) c ∧
      v'.real.tree = v.real.tree.create (v.node d) (normalize name)
        (newNode body mode (v.real.files (v.node d)).backend) := by
  have hreal := h.linked_real hd
  obtain ⟨-, -, hedge⟩ := h.real_wf.free_of_lookup_eq_none hreal hfree
  have ht := Directory.tree_inserted host v.real (v.node d) (normalize name) body mode
  have hgrow := h.grow ht hdir hreal hedge (normalize_normalize name)
    (newNode_blank body hbody mode _) rfl
  generalize hw : { v with
    real := Directory.inserted host v.real (v.node d) (normalize name) body mode } = w at hgrow
  have hfiles : w.files = v.files := hw ▸ rfl
  have hview : w.view = v.view := hw ▸ rfl
  have hwnode : w.node = v.node := hw ▸ rfl
  have hwtree : w.real.tree = v.real.tree.create (v.node d) (normalize name)
      (newNode body mode (v.real.files (v.node d)).backend) := hw ▸ ht
  have hunseen : ∀ c, ¬ w.view.edge d (normalize name) c := fun c he =>
    hedge _ (h.embeds.edge (hview ▸ he))
  have he : w.real.tree.forest.edge (w.node d) (normalize name) v.real.next := by
    rw [hwtree, h.real_wf.forest_create hdir hreal _ (newNode_blank body hbody mode _), hwnode]
    exact Or.inr ⟨rfl, rfl, rfl⟩
  have hadopt := hgrow.synced.adopt host (hview ▸ hd) he hunseen
  have hview' := view_adopt host hgrow.synced.view_wf (hgrow.synced.fresh (Nat.le_refl _)) hunseen
    v.real.next
  have hlast := hadopt.synced.updateMTime host d
  refine ⟨(w.adopt host d name v.real.next).updateMTime host d, w.next, ?_,
    hgrow.trans (hadopt.trans hlast), ?_, ?_, ?_, hwtree⟩
  · rw [Directory.insert_of_linked hreal]
    unfold VirtualHandle.insert IgnoreCaseDirectory.insert
    cases hp : (v.files d).parent with
    | none => exact absurd hp hd
    | some p =>
        subst hw
        rfl
  · rw [view_updateMTime, hview']
    exact fun hc => by cases hc.symm.trans (Forest.link_parent_self ..)
  · rw [(SameWrappers.updateMTime host _ d).node, adopt_node_self]
  · rw [view_updateMTime, hview']
    exact Or.inr ⟨rfl, rfl, rfl⟩

/-! ## Removals -/

/-- Removing a child that was looked up. -/
theorem Synced.removeChild (h : Synced v) (host : Host) {d c : VirtualId} {name : Name}
    (he : v.view.edge d (normalize name) c)
    (hu : Change.Unlinks v.real.tree (v.node d) (normalize name) (v.node c)) :
    ∃ v', Unmounted.removeChild host v d name = .ok (v', 0) ∧ Follows v v' ∧
      v'.view = v.view.unlink c ∧
      v'.real.tree = v.real.tree.unlink (v.node d) (normalize name) (v.node c) := by
  have hc := h.view_wf.child_linked he
  have hentry := hu.entry h.real_wf
  have hcache : (v.real.files (v.node d)).dcache = [] := by
    rw [← File.node_dcache, ← State.tree_node]
    exact h.real_wf.guarded hu.writable
  have ht := Syscall.tree_removed h.real_wf host hu
  generalize hreal : (MemoryDirectory.removeChild v.real (v.node d) (normalize name)).updateMTime
    host (v.node d) = real at ht
  generalize hw : (({ v with real := real } : VirtualState).setParent c none).eraseKey d
    (normalize name) = w
  have hsame : SameWrappers v w := by
    rw [← hw]
    refine (SameWrappers.withReal v ?_).trans ((SameWrappers.setParent _ c none).trans
      (SameWrappers.eraseKey _ d _))
    rw [ht]
    exact .unlink _ _ _ _
  have htree : w.real.tree = v.real.tree.unlink (v.node d) (normalize name) (v.node c) := hw ▸ ht
  have hview : w.view = v.view.unlink c := by
    rw [← hw]
    apply Forest.ext
    · rfl
    · rw [parent_eraseKey, parent_setParent]
      rfl
    · funext d' key x
      apply propext
      rw [edge_eraseKey, edge_setParent]
      refine and_congr_right fun hx => not_congr ⟨?_, ?_⟩
      · rintro ⟨rfl, rfl⟩
        exact h.view_wf.child_unique hx he
      · rintro rfl
        exact h.view_wf.edge_unique hx he
  have hfollows : Follows v w := by
    refine ⟨h.of_sameWrappers hsame ?_ ?_ ?_, hsame.isExtension, ?_⟩
    · rw [htree]
      exact hu.wf h.real_wf
    · rw [hview, htree, h.real_wf.forest_unlink hentry]
      exact h.toTracks.unlink hc (h.view_wf.child_ne_root he) hu.childless
    · intro d' key info hlookup
      rw [← hw, lookup_eraseKey, children_setParent] at hlookup
      split at hlookup
      · cases hlookup
      · exact h.spelled hlookup
    · intro d' n x hx
      rw [htree, h.real_wf.forest_unlink hentry] at hx
      exact Or.inr ⟨d', x, hx.1⟩
  refine ⟨w.updateMTime host d, ?_, hfollows.trans (hfollows.synced.updateMTime host d),
    (view_updateMTime host w d).trans hview, htree⟩
  obtain ⟨info, hlookup, rfl⟩ := he
  have hremove : Directory.removeChild host v.real (v.node d) (normalize name) = (real, 0) := by
    rw [Directory.removeChild_of_dcache_nil hcache, hreal]
  unfold Unmounted.removeChild IgnoreCaseDirectory.removeChild
  simp only [show (v.files d).real = v.node d from rfl, hremove, ne_eq, not_true_eq_false, if_false,
    hlookup, hw]

/-- Without an entry of the name the removal goes past the end of the map. -/
theorem Synced.removeChild_fault (h : Synced v) (host : Host) {d : VirtualId} {name : Name}
    (hno : ∀ c, ¬ v.view.edge d (normalize name) c)
    (hw : (v.real.tree.node (v.node d)).writable) :
    Unmounted.removeChild host v d name = .error .outOfBounds := by
  have hcache : (v.real.files (v.node d)).dcache = [] := by
    rw [← File.node_dcache, ← State.tree_node]
    exact h.real_wf.guarded hw
  have hnone : (v.files d).children.lookup (normalize name) = none := by
    cases hlookup : (v.files d).children.lookup (normalize name) with
    | none => rfl
    | some info => exact absurd ⟨info, hlookup, rfl⟩ (hno info.child)
  unfold Unmounted.removeChild IgnoreCaseDirectory.removeChild
  simp only [show (v.files d).real = v.node d from rfl,
    Directory.removeChild_of_dcache_nil (s := v.real) hcache, ne_eq, not_true_eq_false, if_false,
    hnone]

/-! ## Moves -/

/-- The wrappers after a move, before the times are set. -/
def movedWrapper (v : VirtualState) (p d : VirtualId) (m name : Name) (c : VirtualId) :
    VirtualState :=
  let v := v.eraseKey p m
  let v :=
    match (v.files d).children.lookup (normalize name) with
    | none => v
    | some overwritten => v.setParent overwritten.child none
  (v.setChild d (normalize name) ⟨name, c⟩).setParent c (some d)

/-- The erased entry is not the one of the new name. -/
theorem lookup_erased (h : v.view.WF) {p d c c' : VirtualId} {m key : Name}
    (hm : v.view.edge p m c) (hc' : v.view.edge d key c') (hne : c' ≠ c) :
    ((v.eraseKey p m).files d).children.lookup key = (v.files d).children.lookup key := by
  rw [lookup_eraseKey, if_neg]
  rintro ⟨rfl, rfl⟩
  exact hne (h.child_unique hc' hm)

/-- The entries after a move in a directory without an entry of the name. -/
theorem view_moved (h : v.view.WF) {p d c : VirtualId} {m name : Name} (hm : v.view.edge p m c)
    (hfree : ∀ x, ¬ v.view.edge d (normalize name) x) :
    (movedWrapper v p d m name c).view = v.view.move c d (normalize name) := by
  have hlookup : ((v.eraseKey p m).files d).children.lookup (normalize name) = none := by
    rw [lookup_eraseKey]
    split
    · rfl
    · cases hinfo : (v.files d).children.lookup (normalize name) with
      | none => rfl
      | some info => exact absurd ⟨info, hinfo, rfl⟩ (hfree info.child)
  unfold movedWrapper
  simp only [hlookup]
  apply Forest.ext
  · rfl
  · rw [parent_setParent, parent_setChild, parent_eraseKey]
    rfl
  · rw [edge_setParent]
    funext d' key' x
    apply propext
    rw [edge_setChild, edge_eraseKey]
    refine or_congr_left ⟨?_, ?_⟩
    · rintro ⟨⟨hx, hne⟩, -⟩
      refine ⟨hx, ?_⟩
      rintro rfl
      exact hne (h.edge_unique hx hm)
    · rintro ⟨hx, hne⟩
      refine ⟨⟨hx, ?_⟩, ?_⟩
      · rintro ⟨rfl, rfl⟩
        exact hne (h.child_unique hx hm)
      · rintro ⟨rfl, rfl⟩
        exact hfree x hx

/-- The entries after a move over the entry of `c'`. -/
theorem view_replaced (h : v.view.WF) {p d c c' : VirtualId} {m name : Name}
    (hm : v.view.edge p m c) (hc' : v.view.edge d (normalize name) c') (hcc : c' ≠ c) :
    (movedWrapper v p d m name c).view = (v.view.unlink c').move c d (normalize name) := by
  obtain ⟨info, hinfo, hchild⟩ := id hc'
  unfold movedWrapper
  simp only [lookup_erased h hm hc' hcc, hinfo, hchild]
  apply Forest.ext
  · rfl
  · rw [parent_setParent, parent_setChild, parent_setParent, parent_eraseKey]
    rfl
  · rw [edge_setParent]
    funext d' key' x
    apply propext
    rw [edge_setChild, edge_setParent, edge_eraseKey]
    refine or_congr_left ⟨?_, ?_⟩
    · rintro ⟨⟨hx, hne⟩, hne'⟩
      refine ⟨⟨hx, ?_⟩, ?_⟩
      · rintro rfl
        exact hne' (h.edge_unique hx hc')
      · rintro rfl
        exact hne (h.edge_unique hx hm)
    · rintro ⟨⟨hx, hne'⟩, hne⟩
      refine ⟨⟨hx, ?_⟩, ?_⟩
      · rintro ⟨rfl, rfl⟩
        exact hne (h.child_unique hx hm)
      · rintro ⟨rfl, rfl⟩
        exact hne' (h.child_unique hx hc')

theorem real_movedWrapper (v : VirtualState) (p d : VirtualId) (m name : Name) (c : VirtualId) :
    (movedWrapper v p d m name c).real = v.real := by
  unfold movedWrapper
  simp only
  cases ((v.eraseKey p m).files d).children.lookup (normalize name) <;> rfl

theorem insertMove_eq (host : Host) (hwf : v.view.WF) {p d c : VirtualId} {m name : Name}
    {real : State} (hd : v.view.Linked d) (hm : v.view.edge p m c)
    (hkind : (v.files c).kind ≠ .symlink)
    (hreal : Directory.insertMove host v.real (v.node d) (normalize name) (v.node c) =
      .ok (real, 0)) :
    VirtualHandle.insertMove host v d name c =
      .ok (((movedWrapper { v with real := real } p d m name c).updateMTime host p).updateMTime
        host d, 0) := by
  have hp : (v.files c).parent = some p := hwf.edge_parent hm
  have hdev : devirtualize v c = .ok (v.node c) := by
    unfold devirtualize
    cases hk : (v.files c).kind with
    | dataFile => rfl
    | directory => rfl
    | symlink => exact absurd hk hkind
  have herase : ({ v with real := real } : VirtualState).eraseChild p c =
      ({ v with real := real } : VirtualState).eraseKey p m :=
    eraseChild_eq (v := { v with real := real }) hwf hm
  unfold VirtualHandle.insertMove IgnoreCaseDirectory.insertMove
  cases hq : (v.files d).parent with
  | none => exact absurd hq hd
  | some q =>
      simp only [hp, hdev, show (v.files d).real = v.node d from rfl, hreal, ne_eq,
        not_true_eq_false, if_false, herase]
      rfl

theorem sameWrappers_movedWrapper (v : VirtualState) (p d : VirtualId) (m name : Name)
    (c : VirtualId) : SameWrappers v (movedWrapper v p d m name c) := by
  have herase := SameWrappers.eraseKey v p m
  unfold movedWrapper
  simp only
  cases ((v.eraseKey p m).files d).children.lookup (normalize name) with
  | none => exact herase.trans ((SameWrappers.setChild _ _ _ _).trans (.setParent _ _ _))
  | some overwritten =>
      exact herase.trans ((SameWrappers.setParent _ _ _).trans
        ((SameWrappers.setChild _ _ _ _).trans (.setParent _ _ _)))

theorem spelled_movedWrapper (h : ∀ {d key info}, (v.files d).children.lookup key = some info →
    normalize info.originalName = key) (p d : VirtualId) (m name : Name) (c : VirtualId)
    {d' : VirtualId} {key : Name} {info : ChildInfo}
    (hlookup : ((movedWrapper v p d m name c).files d').children.lookup key = some info) :
    normalize info.originalName = key := by
  have herase : ∀ {d' key info}, ((v.eraseKey p m).files d').children.lookup key = some info →
      normalize info.originalName = key := by
    intro d' key info hlookup
    rw [lookup_eraseKey] at hlookup
    split at hlookup
    · cases hlookup
    · exact h hlookup
  unfold movedWrapper at hlookup
  simp only at hlookup
  rw [children_setParent, lookup_setChild] at hlookup
  split at hlookup
  · rename_i hkey
    cases hlookup
    exact hkey.2.symm
  · split at hlookup
    · exact herase hlookup
    · rw [children_setParent] at hlookup
      exact herase hlookup

/-- Moving a file that was looked up, to a name that was looked up. -/
theorem Synced.insertMove (h : Synced v) (host : Host) {d c : VirtualId} {name : Name} {p : FileId}
    {displaced : Option FileId} (hd : v.view.Linked d) (hc : v.view.Linked c)
    (hkind : (v.files c).kind ≠ .symlink)
    (hmoves : Change.Moves v.real.tree p (v.node c) (v.node d) (normalize name) displaced)
    (hseen : ∀ r, displaced = some r → ∃ c', v.view.edge d (normalize name) c') :
    ∃ v', VirtualHandle.insertMove host v d name c = .ok (v', 0) ∧ Follows v v' ∧
      v'.real.tree =
        (Change.move p (v.node c) (v.node d) (normalize name) displaced).apply v.real.tree := by
  obtain ⟨hmove, ht⟩ := hmoves.insertMove h.real_wf host
  have hwf := Change.wf_apply h.real_wf
    (show (Change.move p (v.node c) (v.node d) (normalize name) displaced).Allowed _ from hmoves)
  have hforest := hmoves.forest_apply h.real_wf
  have hedges := fun {x y m} => (hmoves.edge_apply h.real_wf (x := x) (y := y) (m := m)).mp
  have hattributes := Change.move_sameAttributes p (v.node c) (v.node d) (normalize name)
    displaced v.real.tree
  have hroot : c ≠ v.view.root := by
    rintro rfl
    exact hmoves.ne_root h.embeds.root
  generalize Directory.moved host v.real (v.node d) (normalize name) (v.node c) p = real
    at ht hmove
  rw [← ht] at hwf hforest hedges hattributes ⊢
  obtain ⟨vp, m, hedge⟩ : ∃ vp m, v.view.edge vp m c := by
    cases hvp : v.view.parent c with
    | none => exact absurd hvp hc
    | some vp => exact ⟨vp, h.view_wf.parent_edge hvp hroot⟩
  have hsame := (SameWrappers.withReal v hattributes).trans
    (sameWrappers_movedWrapper { v with real := real } vp d m name c)
  have hspelled := @spelled_movedWrapper { v with real := real } h.spelled vp d m name c
  have htracks : Tracks (movedWrapper { v with real := real } vp d m name c).view
      real.tree.forest v.node v.next := by
    rw [hforest]
    cases displaced with
    | none =>
        have hfree := hmoves.not_edge h.real_wf
        rw [view_moved (v := { v with real := real }) h.view_wf hedge
          fun x hx => hfree _ (h.embeds.edge hx)]
        exact h.toTracks.move hc hroot hd hmoves.not_above hfree
    | some r =>
        obtain ⟨c', hc'⟩ := hseen r rfl
        obtain ⟨-, -, hne, hleaf, -⟩ := hmoves.displaces r rfl
        obtain rfl := h.real_wf.forest.child_unique (hmoves.displaced_edge h.real_wf)
          (h.embeds.edge hc')
        have hcc : c' ≠ c := fun hcc => hne (congrArg v.node hcc)
        rw [view_replaced (v := { v with real := real }) h.view_wf hedge hc' hcc]
        exact h.toTracks.replace hc hroot hc' hcc hleaf hmoves.not_above
  have hcalls := insertMove_eq host h.view_wf hd hedge hkind hmove
  have hreal := real_movedWrapper { v with real := real } vp d m name c
  generalize movedWrapper { v with real := real } vp d m name c = w at *
  have hfollows : Follows v w := by
    refine ⟨h.of_sameWrappers hsame ?_ ?_ hspelled, hsame.isExtension, fun he => ?_⟩
    · rwa [hreal]
    · rwa [hreal]
    · rw [hreal] at he
      rcases hedges he with ⟨he, -⟩ | ⟨-, rfl, -⟩
      · exact Or.inr ⟨_, _, he⟩
      · exact Or.inl (normalize_normalize name)
  have hp := hfollows.synced.updateMTime host vp
  have hlast := hp.synced.updateMTime host d
  refine ⟨_, hcalls, hfollows.trans (hp.trans hlast), ?_⟩
  exact (congrArg State.tree hreal :)

/-- A link is not moved. -/
theorem insertMove_symlink (host : Host) {d c : VirtualId} (hd : v.view.Linked d)
    (hc : v.view.Linked c) (hkind : (v.files c).kind = .symlink) (name : Name) :
    VirtualHandle.insertMove host v d name c = .error .outOfBounds := by
  unfold VirtualHandle.insertMove IgnoreCaseDirectory.insertMove devirtualize
  cases hq : (v.files d).parent with
  | none => exact absurd hq hd
  | some q =>
      cases hp : (v.files c).parent with
      | none => exact absurd hp hc
      | some p => simp only [hkind]

end VirtualState

end WasmFS
