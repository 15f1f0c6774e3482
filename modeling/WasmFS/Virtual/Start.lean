import WasmFS.Namespace.Start
import WasmFS.Virtual.Operations

/-!
# The start of a case-insensitive build

The root of the program wraps a fresh directory.  So the wrappers agree with the real
files at first (`synced_bareRoot`).  They still do after `/dev` and `/tmp` are made, and
the mounts in `/dev` are seen by no real file (`Starts.of_init`).
-/

namespace WasmFS

open Init (root)

/-! ## The fresh directory -/

namespace Start

/-- The wrapped files at first: a directory, which is its own parent. -/
def alone : Tree := { rooted with root := root, cwd := root }

theorem alone_node_of_le {f : FileId} (h : 4 ≤ f) : alone.node f = absent := by
  obtain ⟨n, rfl⟩ := Nat.exists_eq_add_of_le h
  rw [Nat.add_comm]
  rfl

theorem alone_childless (d : FileId) :
    (alone.node d).children = [] ∧ (alone.node d).dcache = [] := by
  by_cases hd : d < 4
  · exact (by decide +kernel : ∀ d < 4, (alone.node d).children = [] ∧
      (alone.node d).dcache = []) d hd
  · rw [alone_node_of_le (Nat.le_of_not_lt hd)]
    exact ⟨rfl, rfl⟩

theorem alone_parent {f p : FileId} (h : (alone.node f).parent = some p) : f = root := by
  by_cases hf : f < 4
  · exact (by decide +kernel : ∀ f < 4, (alone.node f).parent ≠ none → f = root) f hf
      fun hnone => by cases h.symm.trans hnone
  · rw [alone_node_of_le (Nat.le_of_not_lt hf)] at h
    cases h

theorem not_edge_alone {d c : FileId} {n : Name} : ¬ alone.forest.edge d n c := by
  intro he
  have hmem : (n, c) ∈ (alone.node d).children := he
  rw [(alone_childless d).1] at hmem
  cases hmem

theorem alone_forest_wf : alone.forest.WF where
  root_parent := by decide +kernel
  root_not_child he := not_edge_alone he
  edge_parent he := absurd he not_edge_alone
  parent_edge hp hc := absurd (alone_parent hp) hc
  name_unique he := absurd he not_edge_alone
  child_unique he := absurd he not_edge_alone
  rooted {x} hx := by
    cases hp : (alone.node x).parent with
    | none => exact absurd hp hx
    | some p => exact alone_parent hp ▸ .refl

theorem alone_wf : alone.WF where
  forest := alone_forest_wf
  names_nodup d := by
    rw [(alone_childless d).1]
    exact List.nodup_nil
  kind_mount {d e} he := by
    rw [(alone_childless d).2] at he
    cases he
  mount_device {d e} he := by
    rw [(alone_childless d).2] at he
    cases he
  guarded _ := (alone_childless _).2
  fresh {f} hf := congrArg Node.parent (alone_node_of_le hf)
  root_directory := by decide +kernel
  cwd_root := rfl

theorem alone_directory : ∀ f < 4, (alone.node f).isDirectory →
    (alone.node f).backend = (alone.node alone.root).backend := by
  decide +kernel

end Start

namespace VirtualState

variable {host : Host} {v : VirtualState}

theorem tree_bareRoot (host : Host) : (bareRoot host).real.tree = Start.alone := by
  have htable := Init.tree_fileTable host
  have hblank : (blank host).real.tree = { Start.streams with root := root, cwd := root } :=
    congrArg (fun t : Tree => { t with root := root, cwd := root }) htable
  have hnext : (blank host).real.next = root := congrArg Tree.next htable
  have hreal : (bareRoot host).real = ((Init.make host (blank host).real (.directory [] [])
      (S_IRUGO ||| S_IXUGO ||| S_IWUGO ||| S_IFDIR) (some 0)).1.setParent (blank host).real.next
        (some (blank host).real.next)).ask := rfl
  rw [hreal, State.tree_ask, State.tree_setParent, Init.tree_make, hblank, hnext]
  rfl

/-- One virtual file wraps the directory. -/
theorem files_bareRoot (host : Host) (f : VirtualId) :
    ((bareRoot host).files f).real = root ∧ ((bareRoot host).files f).children = ∅ ∧
      ((bareRoot host).files f).dcache = [] ∧
      ((bareRoot host).files f).parent = if f = 0 then some 0 else none := by
  have hnext : (blank host).real.next = root := congrArg Tree.next (Init.tree_fileTable host)
  by_cases hf : f = 0
  · subst hf
    exact ⟨hnext, rfl, rfl, rfl⟩
  · have hother : (bareRoot host).files f = (blank host).files f :=
      (Function.update_of_ne hf ..).trans (Function.update_of_ne hf ..)
    rw [hother, if_neg hf]
    exact ⟨rfl, rfl, rfl, rfl⟩

theorem not_edge_bareRoot {d c : VirtualId} {key : Name} :
    ¬ (bareRoot host).view.edge d key c := by
  rintro ⟨info, hlookup, -⟩
  rw [(files_bareRoot host d).2.1] at hlookup
  cases hlookup

theorem parent_bareRoot {f p : VirtualId} (h : (bareRoot host).view.parent f = some p) : f = 0 := by
  have hp : (if f = 0 then some 0 else none) = some p := (files_bareRoot host f).2.2.2.symm.trans h
  split at hp
  · assumption
  · cases hp

theorem view_bareRoot_wf (host : Host) : (bareRoot host).view.WF where
  root_parent := (files_bareRoot host 0).2.2.2
  root_not_child he := not_edge_bareRoot he
  edge_parent he := absurd he not_edge_bareRoot
  parent_edge hp hc := absurd (parent_bareRoot hp) hc
  name_unique he := absurd he not_edge_bareRoot
  child_unique he := absurd he not_edge_bareRoot
  rooted {x} hx := by
    cases hp : (bareRoot host).view.parent x with
    | none => exact absurd hp hx
    | some p => exact parent_bareRoot hp ▸ .refl

theorem synced_bareRoot (host : Host) : Synced (bareRoot host) := by
  have ht := tree_bareRoot host
  have hnode : ∀ f, (bareRoot host).node f = root := fun f => (files_bareRoot host f).1
  have hzero : ∀ {f}, f < (bareRoot host).next → f = 0 := fun hf => Nat.lt_one_iff.mp hf
  have hreal : (bareRoot host).real.tree.WF := ht ▸ Start.alone_wf
  have hnext : (bareRoot host).real.next = 4 := congrArg Tree.next ht
  refine ⟨⟨view_bareRoot_wf host, hreal.forest,
    ⟨?_, fun he => absurd he not_edge_bareRoot⟩, ?_, ?_⟩, hreal, ?_, ?_, ?_, ?_, ?_⟩
  · rw [hnode, ht]
    rfl
  · intro f hf
    exact (files_bareRoot host f).2.2.2.trans (if_neg (Nat.ne_of_gt hf))
  · intro f hf hl
    obtain rfl := hzero hf
    exact absurd (view_bareRoot_wf host).root_linked hl
  · intro f _
    rw [hnode, hnext]
    decide
  · intro f hf
    obtain rfl := hzero hf
    rw [hnode, ht]
    rfl
  · intro f hf _
    obtain rfl := hzero hf
    have hmode : ((bareRoot host).files 0).mode =
      S_IRUGO ||| S_IXUGO ||| S_IWUGO ||| S_IFDIR ||| S_IFDIR := rfl
    rw [hnode, ht, hmode]
    decide +kernel
  · intro d key info hlookup
    exact absurd ⟨info, hlookup, rfl⟩ (not_edge_bareRoot (d := d))
  · intro f hf hd
    rw [ht] at hd ⊢
    rw [hnext] at hf
    exact Start.alone_directory f hf hd

/-! ## Mounts -/

/-- Only caches change, and the real files outside the tree. -/
structure Mounts (v v' : VirtualState) : Prop where
  follows : Follows v v'
  view : v'.view = v.view

theorem Mounts.trans {v v' v'' : VirtualState} (h : Mounts v v') (h' : Mounts v' v'') :
    Mounts v v'' :=
  ⟨h.follows.trans h'.follows, h'.view.trans h.view⟩

theorem Mounts.linked {v v' : VirtualState} (h : Mounts v v') {d : VirtualId}
    (hd : v.view.Linked d) : v'.view.Linked d := h.view ▸ hd

theorem Synced.mountChild (h : Synced v) {d : VirtualId} (hd : v.view.Linked d) (name : Name)
    (child : FileId) : Mounts v (VirtualHandle.mountChild v d name child).1 ∧
      (VirtualHandle.mountChild v d name child).1.real = v.real := by
  unfold VirtualHandle.mountChild
  cases hp : (v.files d).parent with
  | none => exact absurd hp hd
  | some p =>
      set g : VirtualFile → VirtualFile := fun x =>
        { x with dcache := dcacheInsert name ⟨.mount, child⟩ x.dcache }
      set w : VirtualState := { v.modify d g with
        specialParent := Function.update v.specialParent child (some d) }
      have hreal : w.real = v.real := rfl
      have hparent : ∀ f, (w.files f).parent = (v.files f).parent :=
        files_modify_congr VirtualFile.parent v d (g := g) fun _ => rfl
      have hchildren : ∀ f, (w.files f).children = (v.files f).children :=
        files_modify_congr VirtualFile.children v d (g := g) fun _ => rfl
      have hmodify := SameWrappers.modify v d (g := g) fun _ => ⟨rfl, rfl, rfl⟩
      have hsame : SameWrappers v w :=
        ⟨hmodify.files, hmodify.next, hmodify.attributes, hmodify.rootDirectory⟩
      have hview : w.view = v.view := by
        apply Forest.ext
        · exact hsame.rootDirectory
        · exact funext hparent
        · funext x key c
          exact congrArg (fun l : AList _ => ∃ info, l.lookup key = some info ∧ info.child = c)
            (hchildren x)
      refine ⟨⟨⟨h.of_sameWrappers hsame (hreal ▸ h.real_wf) ?_ ?_, hsame.isExtension, ?_⟩, hview⟩,
        hreal⟩
      · rw [hview, hreal]
        exact h.toTracks
      · intro x key info hlookup
        rw [hchildren] at hlookup
        exact h.spelled hlookup
      · intro x n c he
        rw [hreal] at he
        exact Or.inr ⟨x, c, he⟩

theorem Synced.mountSpecial (h : Synced v) (host : Host) {d : VirtualId} (hd : v.view.Linked d)
    (name : Name) (device : Device) (mode : Nat) :
    Mounts v (v.mountSpecial host d name device mode) ∧
      (v.mountSpecial host d name device mode).real.tree =
        v.real.tree.alloc (newNode (.device device) (mode ||| S_IFCHR) none) := by
  have ht := Init.tree_special host v.real device mode
  have halloc := h.alloc ht (newNode_blank (.device device) trivial _ _) rfl
  obtain ⟨hmounts, hreal⟩ := halloc.synced.mountChild (d := d) hd name
    (Init.special host v.real device mode).2
  exact ⟨Mounts.trans ⟨halloc, rfl⟩ hmounts, (congrArg State.tree hreal).trans ht⟩

/-- The real files after the mounts are made. -/
def withSpecial (t : Tree) : Tree :=
  ((t.alloc (newNode (.device .null) (S_IRUGO ||| S_IWUGO ||| S_IFCHR) none)).alloc
    (newNode (.device .random) (S_IRUGO ||| S_IFCHR) none)).alloc
      (newNode (.device .random) (S_IRUGO ||| S_IFCHR) none)

theorem Synced.mountDevices (h : Synced v) (host : Host) {dev : VirtualId}
    (hdev : v.view.Linked dev) : Mounts v (v.mountDevices host dev) ∧
      (v.mountDevices host dev).real.tree = withSpecial v.real.tree := by
  obtain ⟨h₁, ht₁⟩ := h.mountSpecial host hdev nullName .null (S_IRUGO ||| S_IWUGO)
  obtain ⟨h₂, hr₂⟩ := h₁.follows.synced.mountChild (h₁.linked hdev) stdinName Init.stdin
  have h₂ := h₁.trans h₂
  obtain ⟨h₃, hr₃⟩ := h₂.follows.synced.mountChild (h₂.linked hdev) stdoutName Init.stdout
  have h₃ := h₂.trans h₃
  obtain ⟨h₄, hr₄⟩ := h₃.follows.synced.mountChild (h₃.linked hdev) stderrName Init.stderr
  have h₄ := h₃.trans h₄
  obtain ⟨h₅, ht₅⟩ :=
    h₄.follows.synced.mountSpecial host (h₄.linked hdev) randomName .random S_IRUGO
  have h₅ := h₄.trans h₅
  obtain ⟨h₆, ht₆⟩ :=
    h₅.follows.synced.mountSpecial host (h₅.linked hdev) urandomName .random S_IRUGO
  refine ⟨h₅.trans h₆, ht₆.trans ?_⟩
  rw [ht₅, hr₄, hr₃, hr₂, ht₁]
  rfl

/-! ## The start -/

/-- A state of the start in which the real files have that tree. -/
structure Starts (host : Host) (v : VirtualState) (t : Tree) : Prop where
  follows : Follows (bareRoot host) v
  tree : v.real.tree = t

theorem Starts.rootDirectory {t : Tree} (h : Starts host v t) :
    v.rootDirectory = 0 ∧ v.view.Linked 0 ∧ v.node 0 = root := by
  have hzero : v.rootDirectory = 0 := h.follows.isExtension.rootDirectory
  refine ⟨hzero, ?_, ?_⟩
  · rw [← hzero]
    exact h.follows.synced.view_wf.root_linked
  · exact (h.follows.isExtension.node Nat.zero_lt_one).trans (files_bareRoot host 0).1

/-- A directory that is made in the root directory. -/
theorem Starts.insertDirectory {t : Tree} (h : Starts host v t) (name : Name)
    (hlower : normalize name = name) (hdir : (t.node root).isDirectory)
    (hbackend : (t.node root).backend = some 0) (hfree : t.lookup root name = none) (mode : Nat) :
    ∃ v' c, v.insertDirectory host name mode = (v', some c) ∧ v'.view.Linked c ∧
      Starts host v' (Start.insertDirectory t name mode) := by
  obtain ⟨hzero, hlinked, hnode⟩ := h.rootDirectory
  have ht := h.tree
  have hdir' : (v.real.tree.node (v.node 0)).isDirectory := by
    rw [hnode, ht]
    exact hdir
  have hfree' : v.real.tree.lookup (v.node 0) (normalize name) = none := by
    rw [hnode, ht, hlower]
    exact hfree
  have hbackend' : (v.real.files (v.node 0)).backend = some 0 := by
    rw [← File.node_backend, ← State.tree_node, hnode, ht]
    exact hbackend
  have hempty : Body.Childless (.directory [] []) := ⟨rfl, rfl⟩
  obtain ⟨v', c, hcall, hfollows, hc, -, -, ht'⟩ :=
    h.follows.synced.insert host hlinked hdir' hfree' hempty (mode ||| S_IFDIR)
  refine ⟨v', c, ?_, hc, h.follows.trans hfollows, ?_⟩
  · unfold VirtualState.insertDirectory
    rw [hzero]
    exact hcall
  · rw [ht', hnode, ht, hlower, ← hnode, hbackend', hnode]
    rfl

/-- The wrapped files at the start. -/
def startTree : Tree :=
  Start.insertDirectory
    (withSpecial (Start.insertDirectory Start.alone devName (S_IRUGO ||| S_IXUGO))) tmpName
    S_IRWXUGO

theorem starts_init (host : Host) : Starts host (init host) startTree := by
  have hbare : Starts host (bareRoot host) Start.alone :=
    ⟨⟨synced_bareRoot host, .refl _, fun he => Or.inr ⟨_, _, he⟩⟩, tree_bareRoot host⟩
  obtain ⟨v₁, dev, hdev, hlinked, hstarts⟩ := hbare.insertDirectory devName
    (by decide) (by decide +kernel) (by decide +kernel) (by decide +kernel) (S_IRUGO ||| S_IXUGO)
  obtain ⟨hmounts, ht⟩ := hstarts.follows.synced.mountDevices host hlinked
  have hstarts' : Starts host (mountDevices host v₁ dev)
      (withSpecial (Start.insertDirectory Start.alone devName (S_IRUGO ||| S_IXUGO))) :=
    ⟨hstarts.follows.trans hmounts.follows, ht.trans (congrArg withSpecial hstarts.tree)⟩
  obtain ⟨v₂, tmp, htmp, -, hlast⟩ := hstarts'.insertDirectory tmpName
    (by decide) (by decide +kernel) (by decide +kernel) (by decide +kernel) S_IRWXUGO
  unfold init
  simp only [hdev, htmp]
  exact hlast

theorem synced_init (host : Host) : Synced (init host) := (starts_init host).follows.synced

/-- The names of the real files are in lower case. -/
def Lowered (v : VirtualState) : Prop :=
  ∀ d n c, v.real.tree.forest.edge d n c → normalize n = n

theorem Follows.lowered {v v' : VirtualState} (h : Follows v v') (hlower : Lowered v) :
    Lowered v' := by
  intro d n c he
  rcases h.names he with hn | ⟨d', c', he'⟩
  · exact hn
  · exact hlower d' n c' he'

theorem lowered_init (host : Host) : Lowered (init host) := by
  refine (starts_init host).follows.lowered fun d n c he => ?_
  rw [tree_bareRoot] at he
  exact absurd he Start.not_edge_alone

/-! ## The mounts at the start -/

/-- `/dev` is the second virtual file. -/
def devDirectory : VirtualId := 1

theorem dcache_mountChild_of_ne (v : VirtualState) {d f : VirtualId} (hf : f ≠ d) (name : Name)
    (child : FileId) :
    ((VirtualHandle.mountChild v d name child).1.files f).dcache = (v.files f).dcache := by
  unfold VirtualHandle.mountChild
  cases (v.files d).parent with
  | none => rfl
  | some p => exact congrArg VirtualFile.dcache (Function.update_of_ne hf ..)

theorem dcache_mountDevices_of_ne (host : Host) (v : VirtualState) {dev f : VirtualId}
    (hf : f ≠ dev) : ((v.mountDevices host dev).files f).dcache = (v.files f).dcache := by
  have hspecial : ∀ (v : VirtualState) name device mode,
      ((v.mountSpecial host dev name device mode).files f).dcache = (v.files f).dcache :=
    fun v name device mode => dcache_mountChild_of_ne _ hf name _
  unfold mountDevices
  simp only [hspecial, dcache_mountChild_of_ne _ hf]

theorem SameCaches.nil {v v' : VirtualState} (h : SameCaches v v') {f : VirtualId}
    (hf : (v.files f).dcache = []) : (v'.files f).dcache = [] := by
  rcases h.cache f with heq | ⟨-, hnil⟩
  · rw [heq, hf]
  · exact hnil

theorem insert_snd (host : Host) (v : VirtualState) (d : VirtualId) (name : Name)
    (result : State × Option FileId) {c : VirtualId}
    (h : (VirtualHandle.insert host v d (IgnoreCaseDirectory.insert host v d name result)).2 =
      some c) : c = v.next := by
  unfold VirtualHandle.insert IgnoreCaseDirectory.insert at h
  cases hp : (v.files d).parent with
  | none =>
      rw [hp] at h
      cases h
  | some p =>
      rcases result with ⟨real, _ | r⟩ <;> simp only [hp] at h <;> cases h
      rfl

/-- Only `/dev` has mounts. -/
theorem bare_init (host : Host) {f : VirtualId} (hf : f ≠ devDirectory) :
    ((init host).files f).dcache = [] := by
  have hbare : ((bareRoot host).files f).dcache = [] := (files_bareRoot host f).2.2.1
  have hinsert : ∀ {v : VirtualState} name mode, (v.files f).dcache = [] →
      ((v.insertDirectory host name mode).1.files f).dcache = [] :=
    fun {v} name mode => (SameCaches.insert host v v.rootDirectory name _).nil
  have hdev := hinsert devName (S_IRUGO ||| S_IXUGO) hbare
  have hsnd : ∀ c, ((bareRoot host).insertDirectory host devName (S_IRUGO ||| S_IXUGO)).2 =
      some c → c = (bareRoot host).next := fun c => insert_snd host _ _ _ _
  rcases hmade : (bareRoot host).insertDirectory host devName (S_IRUGO ||| S_IXUGO) with
    ⟨v₁, _ | dev⟩ <;> rw [hmade] at hdev hsnd
  · have hinit : init host = (v₁.insertDirectory host tmpName S_IRWXUGO).1 := by
      unfold init
      simp only [hmade]
    rw [hinit]
    exact hinsert tmpName S_IRWXUGO hdev
  · have hinit : init host =
        ((mountDevices host v₁ dev).insertDirectory host tmpName S_IRWXUGO).1 := by
      unfold init
      simp only [hmade]
    have hne : f ≠ dev := fun h => hf (h.trans (hsnd dev rfl))
    rw [hinit]
    exact hinsert tmpName S_IRWXUGO ((dcache_mountDevices_of_ne host v₁ hne).trans hdev)

end VirtualState

end WasmFS
