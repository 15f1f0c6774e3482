import WasmFS.Namespace.Runs

/-!
# The tree at the start

The initial tree does not depend on the host.  It is the tree `Start.tree`, which
has nine nodes: the standard streams, the root, `/dev` with its special files
and `/tmp`.  Every other node is blank.  So what the invariant says of it is
checked node by node.
-/

namespace WasmFS

open Init

/-! ## The operations of the start on the tree -/

def Node.setDCache (x : Node) (dcache : List (Name × DCacheEntry)) : Node :=
  { x with shape := match x.shape with
      | .directory entries _ => .directory entries dcache
      | shape => shape }

theorem File.node_setDCache (f : File) (l) : (f.setDCache l).node = f.node.setDCache l := by
  unfold node setDCache Node.setDCache
  cases f.body <;> rfl

/-- Mount `c` on `d`. -/
def Tree.mount (t : Tree) (d : FileId) (name : Name) (c : FileId) : Tree :=
  (t.modify d fun x => x.setDCache (dcacheInsert name ⟨.mount, c⟩ x.dcache)).setParent c (some d)

instance (t : Tree) (d : FileId) : Decidable (t.forest.Linked d) :=
  inferInstanceAs (Decidable ((t.node d).parent ≠ none))

variable {host : Host} {s : State}

theorem Directory.tree_mountChild {d : FileId} (hd : s.tree.forest.Linked d) (name : Name)
    (c : FileId) : (mountChild s d name c).1.tree = s.tree.mount d name c := by
  unfold mountChild State.getParent
  cases hp : (s.files d).parent with
  | none => exact absurd hp hd
  | some p =>
      unfold cacheChild
      simp only [true_or, if_true]
      rw [State.tree_setParent, State.tree_modify
        (k := fun x => x.setDCache (dcacheInsert name ⟨.mount, c⟩ x.dcache))
        fun x => by rw [File.node_setDCache, File.node_dcache]]
      rfl

namespace Init

theorem tree_make (host : Host) (s : State) (body : Body) (mode : Nat) (backend : BackendId) :
    (make host s body mode backend).1.tree = s.tree.alloc (newNode body mode backend) :=
  State.tree_alloc s.ask _

theorem tree_special (host : Host) (s : State) (dev : Device) (mode : Nat) :
    (special host s dev mode).1.tree =
      s.tree.alloc (newNode (.device dev) (mode ||| S_IFCHR) none) :=
  tree_make host s _ _ _

theorem tree_openStream (s : State) (f : FileId) (flags : Nat) :
    (openStream s f flags).tree = s.tree := by
  unfold openStream OpenFileState.create
  cases (s.files f).kind <;> rfl

end Init

namespace Start

/-- The standard streams. -/
def streams : Tree :=
  ((blank.tree.alloc (newNode (.device .stdin) (S_IRUGO ||| S_IFCHR) none)).alloc
    (newNode (.device .stdout) (S_IWUGO ||| S_IFCHR) none)).alloc
      (newNode (.device .stderr) (S_IWUGO ||| S_IFCHR) none)

/-- The root, which is its own parent. -/
def rooted : Tree :=
  (streams.alloc (newNode (.directory [] [])
    (S_IRUGO ||| S_IXUGO ||| S_IWUGO ||| S_IFDIR) (some 0))).setParent root (some root)

/-- A new directory in the root. -/
def insertDirectory (t : Tree) (name : Name) (mode : Nat) : Tree :=
  t.create root name (newNode (.directory [] []) (mode ||| S_IFDIR) (some 0))

/-- A new special file in `/dev`. -/
def mountSpecial (t : Tree) (name : Name) (device : Device) (mode : Nat) : Tree :=
  (t.alloc (newNode (.device device) (mode ||| S_IFCHR) none)).mount dev name t.next

/-- The special files in `/dev`. -/
def devices (t : Tree) : Tree :=
  let t := mountSpecial t nullName .null (S_IRUGO ||| S_IWUGO)
  let t := t.mount dev stdinName stdin
  let t := t.mount dev stdoutName stdout
  let t := t.mount dev stderrName stderr
  let t := mountSpecial t randomName .random S_IRUGO
  mountSpecial t urandomName .random S_IRUGO

/-- The tree at the start. -/
def tree : Tree :=
  let t := devices (insertDirectory rooted devName (S_IRUGO ||| S_IXUGO))
  { insertDirectory t tmpName S_IRWXUGO with root := root, cwd := root }

end Start

/-! ## The initial state has this tree -/

namespace Init

theorem tree_fileTable (host : Host) : (fileTable host blank).tree = Start.streams := by
  have heq : fileTable host blank =
      let s₁ := openStream (special host blank .stdin S_IRUGO).1 stdin O_RDONLY
      let s₂ := openStream (special host s₁ .stdout S_IWUGO).1 stdout O_WRONLY
      openStream (special host s₂ .stderr S_IWUGO).1 stderr O_WRONLY := rfl
  rw [heq]
  simp only [tree_openStream, tree_special]
  rfl

theorem tree_mount {t : Tree} (hs : s.tree = t) (ht : t.forest.Linked dev) (name : Name)
    (c : FileId) : (Directory.mountChild s dev name c).1.tree = t.mount dev name c := by
  subst hs
  exact Directory.tree_mountChild ht name c

theorem tree_mountSpecial {t : Tree} (host : Host) (hs : s.tree = t) (device : Device) (mode : Nat)
    (ht : (t.alloc (newNode (.device device) (mode ||| S_IFCHR) none)).forest.Linked dev)
    (name : Name) :
    (Directory.mountChild (special host s device mode).1 dev name
      (special host s device mode).2).1.tree = Start.mountSpecial t name device mode := by
  subst hs
  exact tree_mount (tree_special host s device mode) ht name s.next

theorem tree_mountDevices (host : Host)
    (hs : s.tree = Start.insertDirectory Start.rooted devName (S_IRUGO ||| S_IXUGO)) :
    (mountDevices host s dev).tree =
      Start.devices (Start.insertDirectory Start.rooted devName (S_IRUGO ||| S_IXUGO)) := by
  have h₁ := tree_mountSpecial host hs .null (S_IRUGO ||| S_IWUGO) (by decide +kernel) nullName
  have h₂ := tree_mount h₁ (by decide +kernel) stdinName stdin
  have h₃ := tree_mount h₂ (by decide +kernel) stdoutName stdout
  have h₄ := tree_mount h₃ (by decide +kernel) stderrName stderr
  have h₅ := tree_mountSpecial host h₄ .random S_IRUGO (by decide +kernel) randomName
  exact tree_mountSpecial host h₅ .random S_IRUGO (by decide +kernel) urandomName

theorem tree_insertDirectory {t : Tree} (host : Host) (hs : s.tree = t)
    (ht : t.forest.Linked root) (hbackend : (t.node root).backend = some 0) (name : Name)
    (mode : Nat) : (Directory.insertDirectory host s root name mode).2 = some t.next ∧
      (Directory.insertDirectory host s root name mode).1.tree =
        Start.insertDirectory t name mode := by
  subst hs
  have hb : (s.files root).backend = some 0 := hbackend
  unfold Directory.insertDirectory
  rw [Directory.insert_of_linked ht]
  refine ⟨rfl, ?_⟩
  rw [Directory.tree_inserted, hb]
  rfl

/-- The root directory of the source, before `/dev` is made. -/
def bareRoot (host : Host) (s : State) : State :=
  (make host s (.directory [] []) (S_IRUGO ||| S_IXUGO ||| S_IWUGO ||| S_IFDIR)
    (some 0)).1.setParent root (some root)

/-- The root directory with `/dev`. -/
def withDevices (host : Host) (s : State) : State :=
  match Directory.insertDirectory host (bareRoot host s) root devName (S_IRUGO ||| S_IXUGO) with
  | (s, none) => s
  | (s, some dev) => mountDevices host s dev

theorem rootDirectory_eq (host : Host) {s : State} (hnext : s.next = root) :
    rootDirectory host s =
      ((Directory.insertDirectory host (withDevices host s) root tmpName S_IRWXUGO).1, root) := by
  have hid : (make host s (.directory [] []) (S_IRUGO ||| S_IXUGO ||| S_IWUGO ||| S_IFDIR)
      (some 0)).2 = root := hnext
  unfold rootDirectory withDevices bareRoot
  rcases hm : make host s (.directory [] []) (S_IRUGO ||| S_IXUGO ||| S_IWUGO ||| S_IFDIR)
    (some 0) with ⟨s₁, r⟩
  rw [hm] at hid
  obtain rfl : r = root := hid
  rfl

theorem tree_withDevices (host : Host) (hs : s.tree = Start.streams) :
    (withDevices host s).tree =
      Start.devices (Start.insertDirectory Start.rooted devName (S_IRUGO ||| S_IXUGO)) := by
  have hroot : (bareRoot host s).tree = Start.rooted := by
    unfold bareRoot
    rw [State.tree_setParent, tree_make, hs]
    rfl
  obtain ⟨hsome, hdev⟩ := tree_insertDirectory host hroot (by decide +kernel) (by decide +kernel)
    devName (S_IRUGO ||| S_IXUGO)
  unfold withDevices
  rcases hi : Directory.insertDirectory host (bareRoot host s) root devName
    (S_IRUGO ||| S_IXUGO) with ⟨s₁, created⟩
  rw [hi] at hsome hdev
  obtain rfl : created = some dev := hsome
  exact tree_mountDevices host hdev

end Init

theorem tree_init (host : Host) : (init host).tree = Start.tree := by
  have hs := Init.tree_fileTable host
  have hdevices := Init.tree_withDevices host hs
  obtain ⟨-, htmp⟩ := Init.tree_insertDirectory host hdevices (by decide +kernel)
    (by decide +kernel) tmpName S_IRWXUGO
  unfold init
  rw [Init.rootDirectory_eq host (congrArg Tree.next hs)]
  generalize (Directory.insertDirectory host (Init.withDevices host (fileTable host blank))
    Init.root tmpName S_IRWXUGO).1 = s₁ at htmp ⊢
  have hroot : ({ s₁ with rootDirectory := Init.root, cwd := Init.root } : State).tree =
      { s₁.tree with root := Init.root, cwd := Init.root } := rfl
  exact hroot.trans (congrArg (fun t => { t with root := Init.root, cwd := Init.root }) htmp)

/-! ## The initial tree is well formed -/

namespace Start

/-- The node of an object that does not exist. -/
def absent : Node := newNode (.memory Vec.empty) 0 none

theorem node_of_le {f : FileId} (h : 9 ≤ f) : tree.node f = absent := by
  obtain ⟨n, rfl⟩ := Nat.exists_eq_add_of_le h
  rw [Nat.add_comm]
  rfl

/-- What holds of the nine nodes and of an absent one holds of every node. -/
theorem forall_node {P : FileId → Node → Prop} (h : ∀ f < 9, P f (tree.node f))
    (habsent : ∀ f, P f absent) (f : FileId) : P f (tree.node f) := by
  by_cases hf : f < 9
  · exact h f hf
  · rw [node_of_le (Nat.le_of_not_lt hf)]
    exact habsent f

theorem absent_children : absent.children = [] := rfl

/-- A linked node is one of the nine. -/
theorem lt_of_linked {f : FileId} (h : tree.forest.Linked f) : f < 9 := by
  refine Nat.lt_of_not_le fun hle => h ?_
  exact congrArg Node.parent (node_of_le hle)

theorem children_parent (d : FileId) :
    ∀ e ∈ (tree.node d).children, (tree.node e.2).parent = some d ∧ e.2 ≠ root :=
  forall_node (P := fun d x => ∀ e ∈ x.children, (tree.node e.2).parent = some d ∧ e.2 ≠ root)
    (by decide +kernel) (fun _ e he => absurd he (absent_children ▸ List.not_mem_nil)) d

theorem parent_child (c : FileId) : (tree.node c).parent.all fun p =>
    decide (c = root ∨ ∃ e ∈ (tree.node p).children, e.2 = c) :=
  forall_node (P := fun c x => x.parent.all fun p =>
    decide (c = root ∨ ∃ e ∈ (tree.node p).children, e.2 = c)) (by decide +kernel) (fun _ => rfl) c

theorem children_nodup (d : FileId) : ((tree.node d).children.map Prod.fst).Nodup ∧
    ((tree.node d).children.map Prod.snd).Nodup :=
  forall_node (P := fun _ x => (x.children.map Prod.fst).Nodup ∧ (x.children.map Prod.snd).Nodup)
    (by decide +kernel) (fun _ => by simp [absent_children]) d

theorem exists_up_root : ∀ f < 9, ∃ k < 3, tree.forest.up k f = some root := by
  decide +kernel

theorem forest_wf : tree.forest.WF where
  root_parent := by decide +kernel
  root_not_child {d n} he := (children_parent d _ he).2 rfl
  edge_parent {d n c} he := (children_parent d _ he).1
  parent_edge {d c} hp hc := by
    have hall := parent_child c
    rw [show (tree.node c).parent = some d from hp, Option.all_some, decide_eq_true_eq] at hall
    obtain ⟨⟨n, x⟩, he, rfl⟩ := hall.resolve_left hc
    exact ⟨n, he⟩
  name_unique {d n n' c} he he' := by
    have := List.inj_on_of_nodup_map (children_nodup d).2 he he' rfl
    cases this
    rfl
  child_unique {d n c c'} he he' := Assoc.snd_unique (children_nodup d).1 he he'
  rooted {x} hx := by
    obtain ⟨k, -, hk⟩ := exists_up_root x (lt_of_linked hx)
    exact Forest.ancestor_of_up hk

theorem tree_wf : tree.WF where
  forest := forest_wf
  names_nodup d := (children_nodup d).1
  kind_mount {d} := forall_node (P := fun _ x => ∀ {e}, e ∈ x.dcache → e.2.kind = .mount)
    (by decide +kernel) (fun _ _ he => nomatch he) d
  mount_device {d} :=
    forall_node (P := fun _ x => ∀ {e}, e ∈ x.dcache → (tree.node e.2.file).device?.isSome)
      (by decide +kernel) (fun _ _ he => nomatch he) d
  guarded {d} := forall_node (P := fun _ x => x.writable → x.dcache = []) (by decide +kernel)
    (fun _ _ => rfl) d
  fresh {f} hf := congrArg Node.parent (node_of_le hf)
  root_directory := by decide +kernel
  cwd_root := rfl

end Start

/-- The tree is well formed in every state that a run reaches. -/
theorem Reachable.wf {host : Host} {s : State} (h : Reachable host s) : s.tree.WF := by
  refine h.invariant (I := fun s => s.tree.WF) ?_ fun hs _ hstep => hstep.wf hs
  rw [tree_init]
  exact Start.tree_wf

/-- An invariant of well-formed trees that allowed changes keep holds in every
state that a run reaches. -/
theorem Reachable.tree_invariant {host : Host} {I : Tree → Prop} (h₀ : I Start.tree)
    (hchange : ∀ {t : Tree} {change : Change}, t.WF → change.Allowed t → I t →
      I (change.apply t)) {s : State} (h : Reachable host s) : I s.tree := by
  have hboth : s.tree.WF ∧ I s.tree := by
    refine h.invariant (I := fun s => s.tree.WF ∧ I s.tree) ?_ fun hs _ hstep => ?_
    · rw [tree_init]
      exact ⟨Start.tree_wf, h₀⟩
    · refine ⟨hstep.wf hs.1, ?_⟩
      obtain ⟨r, hok⟩ := hstep
      obtain ⟨change, hmakes⟩ := exec_change hs.1 hok
      rw [hmakes.tree]
      exact hchange hs.1 hmakes.allowed hs.2
  exact hboth.2

end WasmFS
