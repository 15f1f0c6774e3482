import WasmFS.Namespace.Handles
import WasmFS.Source.FileTable

/-!
# The descriptor table

`setEntry` is the only operation that changes a slot.  `setEntry_ok` says all
that it does: it counts the use of the new description, discounts the use of the
old one, and stores the new one, in a table that is long enough.  No file is
touched.  `addEntry` is `setEntry` at the first free slot.
-/

namespace WasmFS

/-! ## Files are not touched -/

/-- The states have the same file objects. -/
structure SameFiles (s s' : State) : Prop where
  files : s'.files = s.files
  next : s'.next = s.next
  root : s'.rootDirectory = s.rootDirectory
  cwd : s'.cwd = s.cwd

namespace SameFiles

@[refl] theorem refl (s : State) : SameFiles s s := ⟨rfl, rfl, rfl, rfl⟩

theorem trans {s s' s'' : State} (h : SameFiles s s') (h' : SameFiles s' s'') :
    SameFiles s s'' :=
  ⟨h'.files.trans h.files, h'.next.trans h.next, h'.root.trans h.root, h'.cwd.trans h.cwd⟩

theorem tree {s s' : State} (h : SameFiles s s') : s'.tree = s.tree := by
  unfold State.tree
  rw [h.files, h.next, h.root, h.cwd]

theorem modifyOpen (s : State) (o : OpenId) (g : OpenFileState → OpenFileState) :
    SameFiles s (s.modifyOpen o g) := ⟨rfl, rfl, rfl, rfl⟩

theorem allocOpen (s : State) (x : OpenFileState) : SameFiles s (s.allocOpen x).1 :=
  ⟨rfl, rfl, rfl, rfl⟩

theorem hook (s : State) (h : Hook) : SameFiles s (s.hook h) := ⟨rfl, rfl, rfl, rfl⟩

theorem setTable (s : State) (table : List (Option OpenId)) :
    SameFiles s { s with table := table } := ⟨rfl, rfl, rfl, rfl⟩

end SameFiles

namespace FileTable

/-! ## Growing -/

/-- The table with a slot `fd`. -/
def padded (table : List (Option OpenId)) (fd : Nat) : List (Option OpenId) :=
  if fd < table.length then table else Lists.resize none table (fd + 1)

theorem lt_length_padded (table : List (Option OpenId)) (fd : Nat) :
    fd < (padded table fd).length := by
  unfold padded
  split
  · assumption
  · rw [Lists.length_resize]
    exact Nat.lt_succ_self fd

/-- A new slot holds nothing. -/
theorem getElem?_padded_join (table : List (Option OpenId)) (fd i : Nat) :
    ((padded table fd)[i]?).join = (table[i]?).join := by
  unfold padded
  split
  · rfl
  · rename_i hlen
    rw [Lists.getElem?_resize]
    by_cases hi : i < fd + 1
    · rw [if_pos hi]
      cases hti : table[i]? with
      | none => rfl
      | some slot => rfl
    · rw [if_neg hi, List.getElem?_eq_none (by omega)]

theorem count_padded (table : List (Option OpenId)) (fd : Nat) (o : OpenId) :
    (padded table fd).count (some o) = table.count (some o) := by
  unfold padded
  split
  · rfl
  · rename_i hlen
    unfold Lists.resize
    rw [List.take_of_length_le (by omega), List.count_append, List.count_replicate]
    simp

theorem grow_ok {s s' : State} {fd : Nat} (h : grow s fd = .ok s') :
    s' = { s with table := padded s.table fd } := by
  unfold grow at h
  unfold padded
  split at h
  · rename_i hlt
    cases h
    rw [if_pos hlt]
  · rename_i hlt
    split at h
    · cases h
    · cases h
      rw [if_neg hlt]

/-! ## Slots -/

theorem acquire_sameFiles (s : State) (o : Option OpenId) : SameFiles s (acquire s o) := by
  cases o with
  | none => exact .refl s
  | some o => exact .modifyOpen s o fun x => { x with uses := x.uses + 1 }

theorem release_sameFiles (s : State) (o : Option OpenId) : SameFiles s (release s o).1 := by
  cases o with
  | none => exact .refl s
  | some o => exact .modifyOpen s o fun x => { x with uses := x.uses - 1 }

/-- All that `setEntry` does. -/
theorem setEntry_ok {s s' : State} {fd : Nat} {new : Option OpenId} {closee : Option FileId}
    (h : setEntry s fd new = .ok (s', closee)) :
    s' = { (release (acquire s new) (getEntry s fd)).1 with
        table := (padded s.table fd).set fd new }
      ∧ closee = (release (acquire s new) (getEntry s fd)).2 := by
  unfold setEntry at h
  cases hg : grow s fd with
  | error e =>
      rw [hg] at h
      cases h
  | ok s₁ =>
      obtain rfl := grow_ok hg
      rw [hg] at h
      have hentry : getEntry { s with table := padded s.table fd } fd = getEntry s fd :=
        getElem?_padded_join s.table fd fd
      cases new with
      | none =>
          simp only [acquire, hentry] at h
          cases ho : getEntry s fd with
          | none =>
              rw [ho] at h
              cases h
              exact ⟨rfl, rfl⟩
          | some o =>
              rw [ho] at h
              cases h
              exact ⟨rfl, rfl⟩
      | some n =>
          have hentry' : getEntry (acquire { s with table := padded s.table fd } (some n)) fd =
              getEntry s fd := hentry
          simp only [hentry'] at h
          cases ho : getEntry s fd with
          | none =>
              rw [ho] at h
              cases h
              exact ⟨rfl, rfl⟩
          | some o =>
              rw [ho] at h
              cases h
              exact ⟨rfl, rfl⟩

theorem setEntry_sameFiles {s s' : State} {fd : Nat} {new : Option OpenId}
    {closee : Option FileId} (h : setEntry s fd new = .ok (s', closee)) : SameFiles s s' := by
  obtain ⟨rfl, -⟩ := setEntry_ok h
  exact ((acquire_sameFiles s new).trans (release_sameFiles _ _)).trans (.setTable _ _)

theorem setEntry_trace {s s' : State} {fd : Nat} {new : Option OpenId} {closee : Option FileId}
    (h : setEntry s fd new = .ok (s', closee)) : s'.trace = s.trace := by
  obtain ⟨rfl, -⟩ := setEntry_ok h
  cases new <;> cases getEntry s fd <;> rfl

theorem setEntry_table {s s' : State} {fd : Nat} {new : Option OpenId}
    {closee : Option FileId} (h : setEntry s fd new = .ok (s', closee)) :
    s'.table = (padded s.table fd).set fd new := by
  obtain ⟨rfl, -⟩ := setEntry_ok h
  rfl

/-- The table stays as small as a vector can be. -/
theorem setEntry_length_le {s s' : State} {fd : Nat} {new : Option OpenId}
    {closee : Option FileId} (h : setEntry s fd new = .ok (s', closee))
    (hs : s.table.length ≤ maxSize) : s'.table.length ≤ maxSize := by
  rw [setEntry_table h, List.length_set]
  simp only [setEntry, grow] at h
  simp only [padded]
  split
  · exact hs
  · rename_i hlt
    rw [if_neg hlt] at h
    rw [Lists.length_resize]
    split at h
    · cases h
    · rename_i hgrow
      split at hgrow
      · cases hgrow
      · rename_i hsize
        exact Nat.le_of_not_lt hsize

/-- The slot that was set. -/
theorem getEntry_setEntry_self {s s' : State} {fd : Nat} {new : Option OpenId}
    {closee : Option FileId} (h : setEntry s fd new = .ok (s', closee)) :
    getEntry s' fd = new := by
  unfold getEntry
  rw [setEntry_table h, List.getElem?_set_self (lt_length_padded s.table fd)]
  rfl

/-- The other slots. -/
theorem getEntry_setEntry_of_ne {s s' : State} {fd fd' : Nat} {new : Option OpenId}
    {closee : Option FileId} (h : setEntry s fd new = .ok (s', closee)) (hne : fd' ≠ fd) :
    getEntry s' fd' = getEntry s fd' := by
  unfold getEntry
  rw [setEntry_table h, List.getElem?_set_ne hne.symm]
  exact getElem?_padded_join s.table fd fd'

/-- The number of slots that hold a description. -/
theorem count_setEntry {s s' : State} {fd : Nat} {new : Option OpenId}
    {closee : Option FileId} (h : setEntry s fd new = .ok (s', closee)) (o : OpenId) :
    s'.table.count (some o) + (if getEntry s fd = some o then 1 else 0) =
      s.table.count (some o) + if new = some o then 1 else 0 := by
  have hlt := lt_length_padded s.table fd
  have hentry : (padded s.table fd)[fd]?.join = getEntry s fd :=
    getElem?_padded_join s.table fd fd
  rw [List.getElem?_eq_getElem hlt, Option.join_some] at hentry
  rw [setEntry_table h, List.count_set hlt, count_padded, hentry]
  by_cases hold : getEntry s fd = some o
  · have hpos : 0 < s.table.count (some o) := by
      rw [← count_padded s.table fd, List.count_pos_iff, ← hold, ← hentry]
      exact List.getElem_mem hlt
    simp only [hold, beq_self_eq_true, if_true, beq_iff_eq]
    omega
  · simp only [beq_iff_eq, if_neg hold]
    omega

/-! ## The first free slot -/

theorem firstFree_add (table : List (Option OpenId)) (i : Nat) :
    firstFree table i = i + firstFree table 0 := by
  induction table generalizing i with
  | nil => rfl
  | cons slot slots ih =>
      cases slot with
      | none => rfl
      | some o =>
          simp only [firstFree]
          rw [ih (i + 1), ih (0 + 1)]
          omega

/-- The slots before the first free one are taken. -/
theorem getElem?_of_lt_firstFree {table : List (Option OpenId)} {i : Nat}
    (h : i < firstFree table 0) : ∃ o, table[i]? = some (some o) := by
  induction table generalizing i with
  | nil => cases h
  | cons slot slots ih =>
      cases slot with
      | none => cases h
      | some o =>
          cases i with
          | zero => exact ⟨o, rfl⟩
          | succ i =>
              simp only [firstFree] at h
              rw [firstFree_add] at h
              obtain ⟨o', ho'⟩ := ih (i := i) (by omega)
              exact ⟨o', by simpa using ho'⟩

/-- The first free slot is free. -/
theorem getElem?_firstFree (table : List (Option OpenId)) :
    (table[firstFree table 0]?).join = none := by
  induction table with
  | nil => rfl
  | cons slot slots ih =>
      cases slot with
      | none => rfl
      | some o =>
          simp only [firstFree]
          rw [firstFree_add, Nat.zero_add, Nat.add_comm, List.getElem?_cons_succ]
          exact ih

theorem addEntry_ok {s s' : State} {o : OpenId} {ret : Int} (h : addEntry s o = .ok (s', ret)) :
    ret = firstFree s.table 0 ∧
      ∃ closee, setEntry s (firstFree s.table 0) (some o) = .ok (s', closee) := by
  unfold addEntry at h
  simp only at h
  cases hset : setEntry s (firstFree s.table 0) (some o) with
  | error e =>
      rw [hset] at h
      cases h
  | ok result =>
      rw [hset] at h
      cases h
      exact ⟨rfl, _, rfl⟩

theorem addEntry_sameFiles {s s' : State} {o : OpenId} {ret : Int}
    (h : addEntry s o = .ok (s', ret)) : SameFiles s s' := by
  obtain ⟨-, closee, hset⟩ := addEntry_ok h
  exact setEntry_sameFiles hset

theorem getEntry_firstFree (s : State) : getEntry s (firstFree s.table 0) = none :=
  getElem?_firstFree s.table

end FileTable

/-! ## New descriptions -/

theorem OpenFileState.create_sameFiles (s : State) (f : FileId) (flags : Nat) :
    SameFiles s (create s f flags).1 := by
  unfold create
  cases (s.files f).kind with
  | dataFile => exact (SameFiles.hook s _).trans (.allocOpen _ _)
  | directory => exact .allocOpen s _
  | symlink => exact .allocOpen s _

theorem OpenFileState.create_table (s : State) (f : FileId) (flags : Nat) :
    (create s f flags).1.table = s.table := by
  unfold create
  cases (s.files f).kind <;> rfl

theorem OpenFileState.create_snd (s : State) (f : FileId) (flags : Nat) :
    (create s f flags).2 = s.nextDescription := by
  unfold create
  cases (s.files f).kind <;> rfl

theorem OpenFileState.create_nextDescription (s : State) (f : FileId) (flags : Nat) :
    (create s f flags).1.nextDescription = s.nextDescription + 1 := by
  unfold create
  cases (s.files f).kind <;> rfl

/-- The new description. -/
theorem OpenFileState.create_self (s : State) (f : FileId) (flags : Nat) :
    ∃ dirents, (create s f flags).1.descriptions s.nextDescription =
      { file := f, flags := flags, dirents := dirents } := by
  unfold create
  cases (s.files f).kind with
  | dataFile => exact ⟨[], Function.update_self ..⟩
  | directory => exact ⟨_, Function.update_self ..⟩
  | symlink => exact ⟨[], Function.update_self ..⟩

/-- The old descriptions. -/
theorem OpenFileState.create_of_ne (s : State) (f : FileId) (flags : Nat) {o : OpenId}
    (h : o ≠ s.nextDescription) :
    (create s f flags).1.descriptions o = s.descriptions o := by
  unfold create
  cases (s.files f).kind <;> exact Function.update_of_ne h ..

/-- The hook of a data file is called. -/
theorem OpenFileState.create_hooks (s : State) (f : FileId) (flags : Nat) :
    (create s f flags).1.trace.hooks =
      if (s.files f).isDataFile then .opened f :: s.trace.hooks else s.trace.hooks := by
  cases hk : (s.files f).kind <;> simp only [create, File.isDataFile, hk] <;> rfl

/-- A new description is not used yet. -/
theorem OpenFileState.create_unused (s : State) (f : FileId) (flags : Nat) {o : OpenId}
    (hle : s.nextDescription ≤ o) (hlt : o < (create s f flags).1.nextDescription) :
    ((create s f flags).1.descriptions o).uses = 0 := by
  rw [create_nextDescription] at hlt
  obtain rfl := Nat.le_antisymm (Nat.le_of_lt_succ hlt) hle
  obtain ⟨dirents, hself⟩ := create_self s f flags
  rw [hself]

end WasmFS
