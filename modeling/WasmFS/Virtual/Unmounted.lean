import WasmFS.Namespace.Lifts
import WasmFS.Virtual.Wrappers

/-!
# Virtual directories and their mounts

The backend of the virtual files knows nothing of the mounts.  `Unmounted.handles` are
the handles of virtual files whose caches are not asked.  The handles of the visible
files lift them (`Unmounted.lifts`).  So a call that names no mount, and removes and
overwrites no directory with mounts, is one on virtual files alone.
-/

namespace WasmFS

/-! ## The handles -/

namespace Unmounted

/-- `getChild`, past the cache. -/
def getChild (host : Host) (v : VirtualState) (d : VirtualId) (name : Name) :
    VirtualState × Option VirtualId :=
  match (v.files d).parent with
  | none => (v, none)
  | some parent =>
      if name = dot then (v, some d)
      else if name = dotdot then (v, some parent)
      else
        match IgnoreCaseDirectory.getChild host v d name with
        | (v, none) => (v, none)
        | (v, some child) => (v.setParent child (some d), some child)

/-- `removeChild`, past the cache. -/
def removeChild (host : Host) (v : VirtualState) (d : VirtualId) (name : Name) :
    Except Fault (VirtualState × Int) :=
  match IgnoreCaseDirectory.removeChild host v d name with
  | .error e => .error e
  | .ok (v, err) => if err ≠ 0 then .ok (v, err) else .ok (v.updateMTime host d, 0)

open IgnoreCaseDirectory in
/-- The handles of virtual files whose caches are not asked. -/
def handles (host : Host) : Handles VirtualState VirtualId where
  rootDirectory := VirtualState.rootDirectory
  isDirectory v f := (v.files f).kind == .directory
  writable v f := hasFlag (v.files f).mode WASMFS_PERM_WRITE
  getBackend v _ := v.backend
  getParent v f := (v.files f).parent
  getChild := getChild host
  insertDataFile v d name mode := VirtualHandle.insert host v d (insertDataFile host v d name mode)
  insertDirectory v d name mode :=
    VirtualHandle.insert host v d (insertDirectory host v d name mode)
  insertSymlink v d name target :=
    VirtualHandle.insert host v d (insertSymlink host v d name target)
  insertMove := VirtualHandle.insertMove host
  removeChild := removeChild host
  getNumEntries := getNumEntries
  bound v := v.real.next + 1

end Unmounted

/-! ## The caches -/

namespace VirtualState

variable {host : Host} {v : VirtualState}

/-- The caches are the same.  That of a new wrapper is empty. -/
structure SameCaches (v v' : VirtualState) : Prop where
  next_le : v.next ≤ v'.next
  cache : ∀ f, (v'.files f).dcache = (v.files f).dcache ∨
    v.next ≤ f ∧ (v'.files f).dcache = []

namespace SameCaches

theorem refl (v : VirtualState) : SameCaches v v := ⟨Nat.le_refl _, fun _ => Or.inl rfl⟩

theorem trans {v v' v'' : VirtualState} (h : SameCaches v v') (h' : SameCaches v' v'') :
    SameCaches v v'' where
  next_le := Nat.le_trans h.next_le h'.next_le
  cache f := by
    rcases h'.cache f with heq | ⟨hle, hnil⟩
    · rw [heq]
      exact h.cache f
    · exact Or.inr ⟨Nat.le_trans h.next_le hle, hnil⟩

theorem withReal (v : VirtualState) (real : State) : SameCaches v { v with real := real } :=
  ⟨Nat.le_refl _, fun _ => Or.inl rfl⟩

theorem modify (v : VirtualState) (f : VirtualId) {g : VirtualFile → VirtualFile}
    (h : ∀ x, (g x).dcache = x.dcache) : SameCaches v (v.modify f g) :=
  ⟨Nat.le_refl _, fun x => Or.inl (files_modify_congr VirtualFile.dcache v f h x)⟩

theorem setParent (v : VirtualState) (f : VirtualId) (p : Option VirtualId) :
    SameCaches v (v.setParent f p) := modify v f fun _ => rfl

theorem setChild (v : VirtualState) (d : VirtualId) (key : Name) (info : ChildInfo) :
    SameCaches v (v.setChild d key info) := modify v d fun _ => rfl

theorem eraseKey (v : VirtualState) (d : VirtualId) (key : Name) :
    SameCaches v (v.eraseKey d key) := modify v d fun _ => rfl

theorem eraseChild (v : VirtualState) (d file : VirtualId) :
    SameCaches v (v.eraseChild d file) := by
  unfold VirtualState.eraseChild
  cases (v.files d).children.entries.find? fun e => e.2.child == file with
  | none => exact refl v
  | some e => exact eraseKey v d e.1

theorem updateMTime (host : Host) (v : VirtualState) (f : VirtualId) :
    SameCaches v (v.updateMTime host f) :=
  have hmodify := modify v f (g := fun x => { x with mtime := host.now v.real.trace.calls })
    fun _ => rfl
  hmodify.trans (withReal _ _)

theorem virtualize (host : Host) (v : VirtualState) (r : FileId) :
    SameCaches v (WasmFS.virtualize host v r).1 where
  next_le := Nat.le_succ _
  cache f := by
    by_cases hf : f = v.next
    · subst hf
      exact Or.inr ⟨Nat.le_refl _, congrArg VirtualFile.dcache (virtualize_files_self ..)⟩
    · exact Or.inl (congrArg VirtualFile.dcache (virtualize_files_of_ne host v r hf))

theorem getChild (host : Host) (v : VirtualState) (d : VirtualId) (name : Name) :
    SameCaches v (Unmounted.getChild host v d name).1 := by
  unfold Unmounted.getChild
  cases (v.files d).parent with
  | none => exact refl v
  | some p =>
      simp only
      split
      · exact refl v
      split
      · exact refl v
      unfold IgnoreCaseDirectory.getChild
      simp only
      cases (v.files d).children.lookup (normalize name) with
      | some info => exact setParent v info.child (some d)
      | none =>
          simp only
          rcases Directory.getChild v.real (v.files d).real (normalize name) with ⟨real, _ | r⟩
          · exact withReal v real
          · exact (withReal v real).trans ((virtualize host _ r).trans
              ((setChild _ d _ _).trans (setParent _ _ _)))

theorem insert (host : Host) (v : VirtualState) (d : VirtualId) (name : Name)
    (result : State × Option FileId) : SameCaches v
      (VirtualHandle.insert host v d (IgnoreCaseDirectory.insert host v d name result)).1 := by
  unfold VirtualHandle.insert IgnoreCaseDirectory.insert
  cases (v.files d).parent with
  | none => exact refl v
  | some p =>
      rcases result with ⟨real, _ | r⟩
      · exact withReal v real
      · exact (withReal v real).trans ((virtualize host _ r).trans ((setChild _ d _ _).trans
          ((setParent _ _ _).trans (updateMTime host _ d))))

/-- What the backend does before the handle sets the parent and the times. -/
theorem backendInsertMove {d file : VirtualId} {name : Name} {v' : VirtualState} {err : Int}
    (h : IgnoreCaseDirectory.insertMove host v d name file = .ok (v', err)) : SameCaches v v' := by
  unfold IgnoreCaseDirectory.insertMove at h
  rcases hdev : devirtualize v file with e | realFile <;> simp only [hdev] at h
  · cases h
  rcases hmove : Directory.insertMove host v.real (v.files d).real (normalize name) realFile with
    e | ⟨real, err'⟩ <;> simp only [hmove] at h
  · cases h
  split at h
  · cases h
    exact withReal v real
  cases hp : (v.files file).parent with
  | none =>
      simp only [hp] at h
      cases h
  | some oldParent =>
      simp only [hp] at h
      cases h
      have herase := (withReal v real).trans (eraseChild _ oldParent file)
      split
      · exact herase.trans (setChild _ d _ _)
      · exact herase.trans ((setParent _ _ none).trans (setChild _ d _ _))

theorem insertMove {d file : VirtualId} {name : Name} {v' : VirtualState} {ret : Int}
    (h : VirtualHandle.insertMove host v d name file = .ok (v', ret)) : SameCaches v v' := by
  unfold VirtualHandle.insertMove at h
  cases hp : (v.files d).parent with
  | none =>
      simp only [hp] at h
      cases h
      exact refl v
  | some p =>
      cases hq : (v.files file).parent with
      | none =>
          simp only [hp, hq] at h
          cases h
      | some oldParent =>
          simp only [hp, hq] at h
          rcases hmove : IgnoreCaseDirectory.insertMove host v d name file with e | ⟨v₁, err⟩ <;>
            simp only [hmove] at h
          · cases h
          · have hbackend := backendInsertMove hmove
            split at h
            · cases h
              exact hbackend
            · cases h
              exact hbackend.trans ((setParent v₁ file (some d)).trans
                ((updateMTime host _ oldParent).trans (updateMTime host _ d)))

theorem backendRemoveChild {d : VirtualId} {name : Name} {v' : VirtualState} {err : Int}
    (h : IgnoreCaseDirectory.removeChild host v d name = .ok (v', err)) : SameCaches v v' := by
  unfold IgnoreCaseDirectory.removeChild at h
  rcases hreal : Directory.removeChild host v.real (v.files d).real (normalize name) with
    ⟨real, err'⟩
  simp only [hreal] at h
  split at h
  · cases h
    exact withReal v real
  · split at h
    · cases h
    · cases h
      exact (withReal v real).trans ((setParent _ _ none).trans (eraseKey _ d _))

theorem removeChild {d : VirtualId} {name : Name} {v' : VirtualState} {ret : Int}
    (h : Unmounted.removeChild host v d name = .ok (v', ret)) : SameCaches v v' := by
  unfold Unmounted.removeChild at h
  rcases hremove : IgnoreCaseDirectory.removeChild host v d name with e | ⟨v₁, err⟩ <;>
    simp only [hremove] at h
  · cases h
  · have hbackend := backendRemoveChild hremove
    split at h
    · cases h
      exact hbackend
    · cases h
      exact hbackend.trans (updateMTime host v₁ d)

/-- A call leaves the caches as they are. -/
theorem exec {call : Handles.Call VirtualId} {v' : VirtualState}
    {answer : Handles.Answer VirtualId}
    (h : (Unmounted.handles host).exec v call = .ok (v', answer)) : SameCaches v v' := by
  cases call with
  | openat parent childName flags mode =>
      obtain rfl : _ = v' := congrArg Prod.fst (Except.ok.inj h)
      have hget := getChild host v parent childName
      exact Handles.openat_leaves (P := SameCaches v) (.refl v) hget
        (hget.trans (insert host _ parent childName _)) flags
  | mkdirat parent childName mode =>
      obtain rfl : _ = v' := congrArg Prod.fst (Except.ok.inj h)
      have hget := getChild host v parent childName
      exact Handles.mkdirat_leaves (P := SameCaches v) (.refl v) hget
        (hget.trans (insert host _ parent childName _))
  | symlinkat parent childName target =>
      obtain rfl : _ = v' := congrArg Prod.fst (Except.ok.inj h)
      have hget := getChild host v parent childName
      exact Handles.symlinkat_leaves (P := SameCaches v) (.refl v) hget
        (hget.trans (insert host _ parent childName _))
  | unlinkat parent childName removeDir =>
      obtain ⟨ret, hcall⟩ := Handles.ok_of_map_code h
      have hget := getChild host v parent childName
      exact Handles.unlinkat_leaves (P := SameCaches v) hcall hget
        fun hremove => hget.trans (removeChild hremove)
  | renameat oldParent oldFileName newParent newFileName =>
      obtain ⟨ret, hcall⟩ := Handles.ok_of_map_code h
      have hget := (getChild host v oldParent oldFileName).trans
        (getChild host _ newParent newFileName)
      exact Handles.renameat_leaves (P := SameCaches v) hcall (.refl v) hget
        fun hmove => hget.trans (insertMove hmove)

/-- So does a run. -/
theorem run {ok : VirtualState → Handles.Call VirtualId → Prop}
    {calls : List (Handles.Call VirtualId)} {answers : List (Handles.Answer VirtualId)}
    {v' : VirtualState} (h : Handles.Run (Unmounted.handles host) ok v calls answers v') :
    SameCaches v v' := by
  induction h with
  | nil v => exact .refl v
  | cons _ hcall _ ih => exact (exec hcall).trans ih

end SameCaches

/-- A name that is no mount is none after a lookup. -/
theorem not_mount_getChild {d d' : VirtualId} {name name' : Name}
    (h : (v.files d').dcache.lookup name' = none) :
    ((Unmounted.getChild host v d name).1.files d').dcache.lookup name' = none := by
  rcases (SameCaches.getChild host v d name).cache d' with heq | ⟨-, hnil⟩
  · rwa [heq]
  · rw [hnil]
    rfl

theorem getChild_of_not_mount {d : VirtualId} {name : Name}
    (h : (v.files d).dcache.lookup name = none) : VirtualHandle.getChild host v d name =
      VirtualHandle.inserted (Unmounted.getChild host v d name) := by
  unfold VirtualHandle.getChild Unmounted.getChild VirtualHandle.inserted
  rw [h]
  cases (v.files d).parent with
  | none => rfl
  | some p =>
      simp only
      split
      · rfl
      split
      · rfl
      rcases IgnoreCaseDirectory.getChild host v d name with ⟨v', _ | c⟩ <;> rfl

theorem removeChild_of_not_mount {d : VirtualId} {name : Name}
    (h : (v.files d).dcache.lookup name = none) :
    VirtualHandle.removeChild host v d name = Unmounted.removeChild host v d name := by
  unfold VirtualHandle.removeChild Unmounted.removeChild
  rcases IgnoreCaseDirectory.removeChild host v d name with e | result <;> simp only [h]

theorem getNumEntries_of_nil {d : VirtualId} (h : (v.files d).dcache = []) :
    VirtualHandle.getNumEntries v d = IgnoreCaseDirectory.getNumEntries v d := by
  unfold VirtualHandle.getNumEntries
  rw [h]
  rfl

end VirtualState

/-! ## The lift -/

open VirtualState in
/-- The visible files that are virtual files act as these do, for names that are no
mounts and directories without mounts. -/
def Unmounted.lifts (host : Host) : Handles.Lifts (IgnoreCaseDirectory.handles host)
    (Unmounted.handles host) VisibleFile.virtual where
  Plain v d name := (v.files d).dcache.lookup name = none
  Bare v d := (v.files d).dcache = []
  injective := ⟨VisibleFile.virtual.inj, congrArg _⟩
  rootDirectory _ := rfl
  isDirectory _ _ := rfl
  writable _ _ := rfl
  getBackend _ _ _ := Iff.rfl
  getParent _ _ := rfl
  getChild h := getChild_of_not_mount h
  plain_getChild h := not_mount_getChild h
  insertDataFile _ _ _ _ := rfl
  insertDirectory _ _ _ _ := rfl
  insertSymlink _ _ _ _ := rfl
  insertMove _ _ _ _ := rfl
  removeChild h := removeChild_of_not_mount h
  getNumEntries h := getNumEntries_of_nil h
  bound _ := rfl

/-- A call that names no mount, and removes and overwrites no directory with mounts. -/
abbrev VirtualState.NamesNoMount (host : Host) (v : VirtualState)
    (call : Handles.Call VirtualId) : Prop :=
  (Unmounted.lifts host).Allows v call

end WasmFS
