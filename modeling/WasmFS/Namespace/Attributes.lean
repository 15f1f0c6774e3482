import WasmFS.Namespace.Start

/-!
# Kinds and modes

No call changes the kind, the mounts or the mode of a file that exists
(`Change.persists`).  A regular file that a call creates has no permissions, and
there is none at the start.  So no regular file of a state that a run reaches can
be read or written by those who open it (`Reachable.regular_guarded`).
-/

namespace WasmFS

/-- A regular file, one that is stored in memory. -/
def Node.isRegular (x : Node) : Bool :=
  !x.isDirectory && x.device?.isNone && x.target?.isNone

/-- A regular or special file. -/
def Node.isDataFile (x : Node) : Bool := !x.isDirectory && x.target?.isNone

@[simp] theorem File.node_isDataFile (f : File) : f.node.isDataFile = f.isDataFile := by
  simp only [Node.isDataFile, Node.isDirectory, Node.target?, node, isDataFile, kind]
  cases f.body <;> rfl

/-- A file is regular if it has a buffer. -/
theorem File.isRegular_iff (f : File) : f.node.isRegular ↔ f.buffer? ≠ none := by
  simp only [Node.isRegular, Node.isDirectory, Node.device?, Node.target?, node, buffer?]
  cases f.body <;> simp [Body.shape]

theorem Node.shape_of_isRegular {x : Node} (h : x.isRegular) : x.shape = .memory := by
  simp only [isRegular, isDirectory, device?, target?] at h
  cases hx : x.shape with
  | memory => rfl
  | _ => simp [hx] at h

/-- The file is of the same kind and has the same mounts and the same mode in both trees. -/
structure Persists (t t' : Tree) (f : FileId) : Prop where
  isDirectory : (t'.node f).isDirectory = (t.node f).isDirectory
  device? : (t'.node f).device? = (t.node f).device?
  target? : (t'.node f).target? = (t.node f).target?
  dcache : (t'.node f).dcache = (t.node f).dcache
  mode : (t'.node f).mode = (t.node f).mode

namespace Persists

variable {t t' : Tree} {f : FileId}

theorem of_sameAttributes (h : Tree.SameAttributes t t') (f : FileId) : Persists t t' f where
  isDirectory := h.isDirectory f
  device? := h.device? f
  target? := h.target? f
  dcache := h.dcache f
  mode := h.mode f

theorem of_eq (h : t'.node f = t.node f) : Persists t t' f where
  isDirectory := congrArg Node.isDirectory h
  device? := congrArg Node.device? h
  target? := congrArg Node.target? h
  dcache := congrArg Node.dcache h
  mode := congrArg Node.mode h

theorem trans {t'' : Tree} (h : Persists t t' f) (h' : Persists t' t'' f) : Persists t t'' f where
  isDirectory := h'.isDirectory.trans h.isDirectory
  device? := h'.device?.trans h.device?
  target? := h'.target?.trans h.target?
  dcache := h'.dcache.trans h.dcache
  mode := h'.mode.trans h.mode

theorem isRegular (h : Persists t t' f) : (t'.node f).isRegular = (t.node f).isRegular := by
  rw [Node.isRegular, h.isDirectory, h.device?, h.target?, Node.isRegular]

theorem isDataFile (h : Persists t t' f) : (t'.node f).isDataFile = (t.node f).isDataFile := by
  rw [Node.isDataFile, h.isDirectory, h.target?, Node.isDataFile]

theorem readable (h : Persists t t' f) : (t'.node f).readable = (t.node f).readable := by
  rw [Node.readable, Node.readable, h.mode]

theorem writable (h : Persists t t' f) : (t'.node f).writable = (t.node f).writable := by
  rw [Node.writable, Node.writable, h.mode]

end Persists

namespace Change

variable {t : Tree} {f : FileId}

/-- A change keeps the files that exist. -/
theorem persists (change : Change) (hf : f ≠ t.next) : Persists t (change.apply t) f := by
  cases change with
  | none => exact .of_sameAttributes (.refl t) f
  | create d name x =>
      exact (Persists.of_eq (t.node_alloc_of_ne x hf)).trans
        (.of_sameAttributes (.link (t.alloc x) d name t.next) f)
  | unlink d name c => exact .of_sameAttributes (.unlink t d name c) f
  | move p c d name displaced =>
      cases displaced with
      | none => exact .of_sameAttributes (.moveChild t p c d name) f
      | some c' => exact .of_sameAttributes (.replaceChild t p c d name c') f

/-- A change never takes a number back. -/
theorem next_le (change : Change) (t : Tree) : t.next ≤ (change.apply t).next := by
  cases change with
  | none => exact Nat.le_refl _
  | create d name x => exact Nat.le_succ _
  | unlink d name c => exact Nat.le_refl _
  | move p c d name displaced => cases displaced <;> exact Nat.le_refl _

/-- The file that a change creates. -/
theorem created {d : FileId} {name : Name} {x : Node} :
    Persists (t.alloc x) ((Change.create d name x).apply t) t.next :=
  .of_sameAttributes (.link (t.alloc x) d name t.next) t.next

end Change

/-! ## Runs -/

section

variable {host : Host} {s s' : State} {c : Call} {f : FileId}

/-- A call keeps the files that exist. -/
theorem Step.persists (hs : Step host s c s') (h : s.tree.WF) (hf : f < s.next) :
    Persists s.tree s'.tree f := by
  obtain ⟨r, hok⟩ := hs
  obtain ⟨change, hchange⟩ := exec_change h hok
  rw [hchange.tree]
  exact change.persists (Nat.ne_of_lt hf)

theorem Step.next_le (hs : Step host s c s') (h : s.tree.WF) : s.next ≤ s'.next := by
  obtain ⟨r, hok⟩ := hs
  obtain ⟨change, hchange⟩ := exec_change h hok
  have hnext := change.next_le s.tree
  rwa [← hchange.tree] at hnext

/-- A run keeps the files that exist. -/
theorem ReachableFrom.persists (hreach : ReachableFrom host s s') (h : s.tree.WF)
    (hf : f < s.next) : Persists s.tree s'.tree f := by
  have hinv : s'.tree.WF ∧ f < s'.next ∧ Persists s.tree s'.tree f := by
    refine hreach.invariant
      (I := fun s' => s'.tree.WF ∧ f < s'.next ∧ Persists s.tree s'.tree f) ?_ ?_
    · exact ⟨h, hf, .of_eq rfl⟩
    · intro s₁ c s₂ h₁ _ hstep
      exact ⟨hstep.wf h₁.1, Nat.lt_of_lt_of_le h₁.2.1 (hstep.next_le h₁.1),
        h₁.2.2.trans (hstep.persists h₁.1 h₁.2.1)⟩
  exact hinv.2.2

end

/-- No regular file has permissions. -/
def Tree.RegularGuarded (t : Tree) : Prop :=
  ∀ f, (t.node f).isRegular → (t.node f).readable = false ∧ (t.node f).writable = false

theorem Change.regularGuarded_apply {t : Tree} {change : Change} (hc : change.Allowed t)
    (ht : t.RegularGuarded) : (change.apply t).RegularGuarded := by
  have hold : ∀ {t' : Tree} {f : FileId}, Persists t t' f → (t'.node f).isRegular →
      (t'.node f).readable = false ∧ (t'.node f).writable = false := by
    intro t' f hp hr
    rw [hp.readable, hp.writable]
    exact ht f (hp.isRegular ▸ hr)
  intro f hr
  by_cases hf : f = t.next
  · subst hf
    cases change with
    | create d name x =>
        have hcreated := @Change.created t d name x
        have hself := t.node_alloc_self x
        have hnew := Creates.newFile hc
        rw [hcreated.isRegular, hself] at hr
        rw [hcreated.readable, hcreated.writable, hself]
        exact ⟨hnew.not_readable (Node.shape_of_isRegular hr), hnew.not_writable⟩
    | none => exact ht _ hr
    | unlink d name c => exact hold (.of_sameAttributes (.unlink t d name c) _) hr
    | move p c d name displaced =>
        cases displaced with
        | none => exact hold (.of_sameAttributes (.moveChild t p c d name) _) hr
        | some c' => exact hold (.of_sameAttributes (.replaceChild t p c d name c') _) hr
  · exact hold (change.persists hf) hr

theorem Start.regularGuarded : tree.RegularGuarded :=
  forall_node (P := fun _ x => x.isRegular → x.readable = false ∧ x.writable = false)
    (by decide +kernel) fun _ => by decide +kernel

/-- In every state that a run reaches no regular file has permissions. -/
theorem Reachable.regular_guarded {host : Host} {s : State} (h : Reachable host s) {f : FileId}
    (hf : (s.files f).buffer? ≠ none) :
    (s.files f).readable = false ∧ (s.files f).writable = false := by
  have hguarded : s.tree.RegularGuarded :=
    h.tree_invariant Start.regularGuarded fun _ hc ht => Change.regularGuarded_apply hc ht
  exact hguarded f ((File.isRegular_iff _).mpr hf)

end WasmFS
