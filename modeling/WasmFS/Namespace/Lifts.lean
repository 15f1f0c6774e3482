import WasmFS.Namespace.Refinement

/-!
# Handles that act alike

The handles `H` may know more files than the handles `U`.  `Lifts H U` says that they
do the same to the files of `U`, for names that are `Plain` and directories that are
`Bare`.  A call on such names is the same call for both (`Lifts.exec`), and so is a
run (`Lifts.run`).
-/

namespace WasmFS

namespace Handles

variable {σ α β : Type}

/-- The lookup of the name that a call removes or overwrites. -/
def overwritten (H : Handles σ α) (s : σ) : Call α → σ × Option α
  | .unlinkat parent childName _ => H.getChild s parent childName
  | .renameat oldParent oldFileName newParent newFileName =>
      H.getChild (H.getChild s oldParent oldFileName).1 newParent newFileName
  | _ => (s, none)

/-- The answer about files that `f` renames. -/
def Answer.map (f : α → β) (answer : Answer α) : Answer β := (answer.1, answer.2.map f)

/-- What an operation leaves and finds, with the file renamed. -/
def found (f : α → β) (result : σ × Option α) : σ × Option β := (result.1, result.2.map f)

/-- What a call leaves and answers, with the file renamed. -/
def answered (f : α → β) (result : σ × Answer α) : σ × Answer β := (result.1, result.2.map f)

/-- On the files `E f` the handles `H` act as the handles `U` on `f`. -/
structure Lifts (H : Handles σ β) (U : Handles σ α) (E : α → β) where
  Plain : σ → α → Name → Prop
  Bare : σ → α → Prop
  injective : ∀ {f g}, E f = E g ↔ f = g
  rootDirectory : ∀ s, H.rootDirectory s = E (U.rootDirectory s)
  isDirectory : ∀ s f, H.isDirectory s (E f) = U.isDirectory s f
  writable : ∀ s f, H.writable s (E f) = U.writable s f
  getBackend : ∀ s f g, H.getBackend s (E f) = H.getBackend s (E g) ↔
    U.getBackend s f = U.getBackend s g
  getParent : ∀ s f, H.getParent s (E f) = (U.getParent s f).map E
  getChild : ∀ {s d name}, Plain s d name →
    H.getChild s (E d) name = found E (U.getChild s d name)
  /-- Lookups leave names as they are. -/
  plain_getChild : ∀ {s d d' name name'}, Plain s d' name' →
    Plain (U.getChild s d name).1 d' name'
  insertDataFile : ∀ s d name mode,
    H.insertDataFile s (E d) name mode = found E (U.insertDataFile s d name mode)
  insertDirectory : ∀ s d name mode,
    H.insertDirectory s (E d) name mode = found E (U.insertDirectory s d name mode)
  insertSymlink : ∀ s d name target,
    H.insertSymlink s (E d) name target = found E (U.insertSymlink s d name target)
  insertMove : ∀ s d name f, H.insertMove s (E d) name (E f) = U.insertMove s d name f
  removeChild : ∀ {s d name}, Plain s d name → H.removeChild s (E d) name = U.removeChild s d name
  getNumEntries : ∀ {s d}, Bare s d → H.getNumEntries s (E d) = U.getNumEntries s d
  bound : ∀ s, H.bound s = U.bound s

namespace Lifts

variable {H : Handles σ β} {U : Handles σ α} {E : α → β} (L : Lifts H U E) {s : σ} {d : α}
  {name : Name}

/-- The names of the call are plain, and what it removes or overwrites is bare. -/
structure Allows (s : σ) (call : Call α) : Prop where
  plain : ∀ e ∈ call.parsed, L.Plain s e.1 e.2
  bare : ∀ {c}, (H.overwritten s (call.map E id)).2 = some (E c) →
    L.Bare (H.overwritten s (call.map E id)).1 c

variable {L}

include L in
theorem openat (h : L.Plain s d name) (flags mode : Nat) :
    H.openat s (E d) name flags mode = answered E (U.openat s d name flags mode) := by
  unfold Handles.openat
  rw [L.getChild h]
  split
  · rfl
  rcases U.getChild s d name with ⟨s₁, _ | child⟩
  · simp only [found, Option.map_none, L.getParent, Option.isNone_map, L.insertDataFile]
    by_cases hcreate : hasFlag flags O_CREAT
    · by_cases hparent : (U.getParent s₁ d).isNone
      · simp [hcreate, hparent, answered, Answer.map]
      · rcases U.insertDataFile s₁ d name (mode &&& S_IALLUGO) with ⟨s₂, _ | created⟩ <;>
          simp [hcreate, hparent, answered, Answer.map]
    · simp [hcreate, answered, Answer.map]
  · rfl

theorem mkdirat (h : L.Plain s d name) (mode : Nat) :
    H.mkdirat s (E d) name mode = U.mkdirat s d name mode := by
  unfold Handles.mkdirat
  rw [L.getChild h]
  split
  · rfl
  rcases U.getChild s d name with ⟨s₁, _ | child⟩
  · simp only [found, Option.map_none, L.writable, L.insertDirectory]
    rcases U.insertDirectory s₁ d name (mode &&& (S_IRWXUGO ||| S_ISVTX)) with ⟨s₂, _ | dir⟩ <;> rfl
  · rfl

theorem symlinkat (h : L.Plain s d name) (target : Target) :
    H.symlinkat s (E d) name target = U.symlinkat s d name target := by
  unfold Handles.symlinkat
  rw [L.getChild h]
  split
  · rfl
  rcases U.getChild s d name with ⟨s₁, _ | child⟩
  · simp only [found, Option.map_none, L.insertSymlink]
    rcases U.insertSymlink s₁ d name target with ⟨s₂, _ | link⟩ <;> rfl
  · rfl

theorem checkOverwrite {f : α} (hbare : L.Bare s f) (oldFile : α) :
    H.checkOverwrite s (E oldFile) (E f) = U.checkOverwrite s oldFile f := by
  unfold Handles.checkOverwrite
  rw [L.isDirectory, L.isDirectory, L.getNumEntries hbare]

section

variable [DecidableEq α] [DecidableEq β]

theorem unlinkat (h : L.Plain s d name)
    (hbare : ∀ {c}, (H.getChild s (E d) name).2 = some (E c) →
      L.Bare (H.getChild s (E d) name).1 c) (removeDir : Bool) :
    H.unlinkat s (E d) name removeDir = U.unlinkat s d name removeDir := by
  have h₁ : L.Plain (U.getChild s d name).1 d name := L.plain_getChild h
  rw [L.getChild h] at hbare
  unfold Handles.unlinkat
  rw [L.getChild h]
  generalize U.getChild s d name = result at h₁ hbare ⊢
  rcases result with ⟨s₁, _ | file⟩
  · rfl
  · have hentries : H.getNumEntries s₁ (E file) = U.getNumEntries s₁ file :=
      L.getNumEntries (hbare rfl)
    simp only [found, Option.map_some, L.rootDirectory, L.injective, L.isDirectory, L.writable,
      hentries, L.removeChild h₁]

include L in
theorem walkUp (oldFile : α) (fuel : Nat) (curr : α) :
    H.walkUp s (E oldFile) fuel (E curr) = U.walkUp s oldFile fuel curr := by
  induction fuel generalizing curr with
  | zero => rfl
  | succ fuel ih =>
      unfold Handles.walkUp
      rw [L.rootDirectory, L.getParent]
      refine if_congr L.injective rfl (if_congr L.injective rfl ?_)
      cases U.getParent s curr with
      | none => rfl
      | some parent => exact ih parent

theorem renameat {d' : α} {name' : Name} (h : L.Plain s d name) (h' : L.Plain s d' name')
    (hbare : ∀ {c}, (H.getChild (H.getChild s (E d) name).1 (E d') name').2 = some (E c) →
      L.Bare (H.getChild (H.getChild s (E d) name).1 (E d') name').1 c) :
    H.renameat s (E d) name (E d') name' = U.renameat s d name d' name' := by
  have h₁ : L.Plain (U.getChild s d name).1 d' name' := L.plain_getChild h'
  rcases hold : U.getChild s d name with ⟨s₁, oldFile?⟩
  rw [hold] at h₁
  rcases hnew : U.getChild s₁ d' name' with ⟨s₂, newFile?⟩
  have hold' : H.getChild s (E d) name = (s₁, oldFile?.map E) := by
    rw [L.getChild h, hold]
    rfl
  have hnew' : H.getChild s₁ (E d') name' = (s₂, newFile?.map E) := by
    rw [L.getChild h₁, hnew]
    rfl
  simp only [hold', hnew'] at hbare
  unfold Handles.renameat
  simp only [hold, hold', hnew, hnew']
  refine if_congr Iff.rfl rfl ?_
  cases oldFile? with
  | none => rfl
  | some oldFile =>
      have hsame : ∀ f, newFile?.map E = some (E f) ↔ newFile? = some f := by
        intro f
        cases newFile? with
        | none => simp
        | some newFile => simp [L.injective]
      have hcheck : (newFile?.map E).elim (.ok ()) (H.checkOverwrite s₂ (E oldFile)) =
          newFile?.elim (.ok ()) (U.checkOverwrite s₂ oldFile) := by
        cases newFile? with
        | none => rfl
        | some newFile => exact checkOverwrite (hbare rfl) oldFile
      have hwalk : ∀ fuel, H.walkUp s₂ (E oldFile) fuel (E d') = U.walkUp s₂ oldFile fuel d' :=
        fun fuel => L.walkUp oldFile fuel d'
      simp only [Option.map_some, L.rootDirectory, hsame, L.injective, L.writable, ne_eq,
        L.getBackend, L.bound, hwalk, hcheck, L.insertMove]

/-- A call on plain names is the same call for both. -/
theorem exec {call : Call α} (h : L.Allows s call) :
    H.exec s (call.map E id) = (U.exec s call).map (answered E) := by
  cases call with
  | openat parent childName flags mode =>
      exact congrArg Except.ok (openat (h.plain _ (List.mem_singleton_self _)) flags mode)
  | mkdirat parent childName mode =>
      have hsame := mkdirat (h.plain _ (List.mem_singleton_self _)) mode
      exact congrArg (fun r => Except.ok (code r)) hsame
  | symlinkat parent childName target =>
      have hsame := symlinkat (h.plain _ (List.mem_singleton_self _)) target
      exact congrArg (fun r => Except.ok (code r)) hsame
  | unlinkat parent childName removeDir =>
      have hsame := unlinkat (h.plain _ (List.mem_singleton_self _)) h.bare removeDir
      unfold Handles.exec Call.map
      simp only [id, hsame]
      rcases U.unlinkat s parent childName removeDir with e | r <;> rfl
  | renameat oldParent oldFileName newParent newFileName =>
      have hsame := renameat (h.plain _ (List.mem_cons_self ..))
        (h.plain _ (List.mem_cons_of_mem _ (List.mem_singleton_self _))) h.bare
      unfold Handles.exec Call.map
      simp only [id, hsame]
      rcases U.renameat s oldParent oldFileName newParent newFileName with e | r <;> rfl

/-- A run of calls on plain names is the same run for both. -/
theorem run {ok : σ → Call α → Prop} {calls : List (Call β)} {answers : List (Answer β)} {s' : σ}
    (h : Run H (fun s call => ∃ call', call = call'.map E id ∧ ok s call' ∧ L.Allows s call') s
      calls answers s') :
    ∃ calls' answers', calls = calls'.map (Call.map E id) ∧ answers = answers'.map (Answer.map E) ∧
      Run U ok s calls' answers' s' := by
  induction h with
  | nil s => exact ⟨[], [], rfl, rfl, .nil s⟩
  | @cons s call s₁ answer calls answers s' hallowed hcall _ ih =>
      obtain ⟨call', rfl, hok, hallows⟩ := hallowed
      obtain ⟨calls', answers', rfl, rfl, hrun⟩ := ih
      rw [exec hallows] at hcall
      cases hplain : U.exec s call' with
      | error e =>
          rw [hplain] at hcall
          cases hcall
      | ok result =>
          rw [hplain] at hcall
          cases hcall
          exact ⟨call' :: calls', result.2 :: answers', rfl, rfl, .cons hok hplain hrun⟩

end

end Lifts

end Handles

end WasmFS
