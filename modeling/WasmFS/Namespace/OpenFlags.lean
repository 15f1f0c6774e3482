import WasmFS.Namespace.Attributes
import WasmFS.Status.Checks
import WasmFS.Descriptors.Uses

/-!
# The flags of `path_open`

`path_open` passes the WASI flags on as the flags of `open`.  So the bits of
`CREAT` and `DIRECTORY` are read as the access mode, and those of `EXCL` and
`TRUNC` as nothing.  `openat2_eq` says what is left of `openat2` then.  `ObeysFlags`
is what the WASI flags ask for, and `FlagsMisread` lists the situations in which
the two readings differ (`obeysFlags_iff`).
-/

namespace WasmFS

def WASI_OFLAGS_CREAT : Nat := 1
def WASI_OFLAGS_DIRECTORY : Nat := 2
def WASI_OFLAGS_EXCL : Nat := 4
def WASI_OFLAGS_TRUNC : Nat := 8

/-! ## The WASI flags as flags of `open` -/

/-- No WASI flag is a creation flag of `open`. -/
theorem wasiFlags_hasFlag {n : Nat} (h : n < 16) :
    hasFlag n O_CREAT = false ∧ hasFlag n O_EXCL = false ∧ hasFlag n O_TRUNC = false ∧
      hasFlag n O_DIRECTORY = false ∧ hasFlag n O_NOFOLLOW = false := by
  have hall : ∀ n < 16, hasFlag n O_CREAT = false ∧ hasFlag n O_EXCL = false ∧
      hasFlag n O_TRUNC = false ∧ hasFlag n O_DIRECTORY = false ∧
      hasFlag n O_NOFOLLOW = false := by decide
  exact hall n h

/-- `CREAT` is read as `O_WRONLY` and `DIRECTORY` as `O_RDWR`. -/
theorem wasiFlags_accessMode {n : Nat} (h : n < 16) :
    n &&& O_ACCMODE = (if hasFlag n WASI_OFLAGS_CREAT then 1 else 0) +
      if hasFlag n WASI_OFLAGS_DIRECTORY then 2 else 0 := by
  have hall : ∀ n < 16, n &&& O_ACCMODE = (if hasFlag n WASI_OFLAGS_CREAT then 1 else 0) +
      if hasFlag n WASI_OFLAGS_DIRECTORY then 2 else 0 := by decide
  exact hall n h

namespace Syscall

variable {host : Host} {s s' : State}

/-- The permissions that the access mode asks for. -/
def Permits (s : State) (child : FileId) (n : Nat) : Prop :=
  (n &&& O_ACCMODE = O_RDONLY ∨ n &&& O_ACCMODE = O_RDWR → (s.files child).readable) ∧
    (n &&& O_ACCMODE = O_WRONLY ∨ n &&& O_ACCMODE = O_RDWR → (s.files child).writable)

/-- The state in which a file opened with WASI flags is put into the table. -/
theorem opened_wasi {n : Nat} (hn : n < 16) (child : FileId) :
    opened s child n = (OpenFileState.create s child n).1 := by
  obtain ⟨-, -, htrunc, -⟩ := wasiFlags_hasFlag hn
  simp only [opened, htrunc, Bool.false_eq_true, if_false]

theorem openable_wasi {n : Nat} (hn : n < 16) (child : FileId) :
    Openable s child n ↔
      ((s.files child).isDirectory → n &&& O_ACCMODE = O_RDONLY) ∧ Permits s child n := by
  obtain ⟨hcreat, -, htrunc, hdir, -⟩ := wasiFlags_hasFlag hn
  constructor
  · intro h
    exact ⟨h.directory, h.readable, h.writable⟩
  · intro h
    refine ⟨?_, h.1, h.2.1, h.2.2, ?_, ?_⟩
    · simp [hcreat]
    · simp [hdir]
    · simp [htrunc]

/-- What is not opened is refused as a directory or for lack of permissions. -/
theorem openExisting_refuses {n : Nat} (hn : n < 16) {child : FileId}
    (h : ¬ Openable s child n) :
    ∃ e, (e = .isdir ∨ e = .acces) ∧ openExisting s child n = .ok (s, Errno.neg e) := by
  obtain ⟨hcreat, -, htrunc, hdir, -⟩ := wasiFlags_hasFlag hn
  rw [openable_wasi hn] at h
  simp only [openExisting, hcreat, htrunc, hdir, Bool.false_eq_true, and_false, false_and, if_false]
  split
  · exact ⟨.isdir, Or.inl rfl, rfl⟩
  rename_i hisdir
  split
  · exact ⟨.acces, Or.inr rfl, rfl⟩
  rename_i hread
  split
  · exact ⟨.acces, Or.inr rfl, rfl⟩
  rename_i hwrite
  refine absurd ⟨fun hd => ?_, fun hmode => ?_, fun hmode => ?_⟩ h
  · exact not_not.mp fun hmode => hisdir ⟨hd, hmode⟩
  · exact not_not.mp fun hr => hread ⟨hmode, hr⟩
  · exact not_not.mp fun hw => hwrite ⟨hmode, hw⟩

/-- `openat2` with WASI flags never creates a file. -/
theorem openat2_wasi (h : s.tree.WF) (host : Host) {dirfd : Nat} {path : Name} {parent : FileId}
    {leaf : Name} {n : Nat} (hn : n < 16)
    (hp : (Path.parseParent s path dirfd).2 = .ok (parent, leaf)) :
    openat2 host s dirfd path n 0 =
      if n &&& O_ACCMODE = 3 then .ok (s, Errno.inval.neg)
      else if leaf.length > WASMFS_NAME_MAX then .ok (s, Errno.nametoolong.neg)
      else
        match s.tree.lookup parent leaf with
        | none => .ok (s, Errno.noent.neg)
        | some c =>
            match openTarget s parent c with
            | .error e => .ok (s, e.neg)
            | .ok child => openExisting s child n := by
  obtain ⟨hcreat, -, -, -, hnofollow⟩ := wasiFlags_hasFlag hn
  have hmode : ∀ n < 16, (n &&& O_ACCMODE ≠ O_WRONLY ∧ n &&& O_ACCMODE ≠ O_RDONLY ∧
      n &&& O_ACCMODE ≠ O_RDWR) ↔ n &&& O_ACCMODE = 3 := by decide
  simp only [openat2, doOpen, hmode n hn]
  rw [Path.parseParent_state h, hp]
  simp only [Directory.getChild_eq h, openMissing, hcreat, hnofollow, Bool.false_eq_true,
    not_false_iff, if_true, if_false, openTarget]
  split
  · rfl
  split
  · rfl
  cases s.tree.lookup parent leaf with
  | none => rfl
  | some c =>
      simp only
      cases (s.files c).target? with
      | none => rfl
      | some target =>
          simp only
          rw [Path.getFileFrom_state h]
          cases (Path.getFileFrom s parent target).2 <;> rfl

end Syscall

/-! ## What the flags ask for -/

/-- The call has opened `f`. -/
def Opens (s' : State) (r : Reply) (f : FileId) : Prop :=
  ∃ v o, r.out = .fd v ∧ FileTable.getEntry s' v = some o ∧ (s'.descriptions o).file = f

/-- The call has stored the error `e` in place of a descriptor. -/
def Refuses (r : Reply) (e : Errno) : Prop := r.out = .fd (u32 e.neg)

/-- What the WASI flags ask for, at a leaf of a directory. -/
structure ObeysFlags (s s' : State) (r : Reply) (parent : FileId) (leaf : Name) (n : Nat) :
    Prop where
  /-- A missing leaf is created with `CREAT` and without `DIRECTORY`. -/
  creates : s.tree.lookup parent leaf = none → leaf.length ≤ WASMFS_NAME_MAX →
    hasFlag n WASI_OFLAGS_CREAT → ¬ hasFlag n WASI_OFLAGS_DIRECTORY →
    ∃ f, Opens s' r f ∧ s'.tree.lookup parent leaf = some f ∧
      (s'.files f).buffer? = some Vec.empty
  /-- A missing leaf is reported without `CREAT`. -/
  missing : s.tree.lookup parent leaf = none → leaf.length ≤ WASMFS_NAME_MAX →
    ¬ hasFlag n WASI_OFLAGS_CREAT → Refuses r .noent
  /-- An existing leaf is refused with `CREAT` and `EXCL`. -/
  exclusive : ∀ {c}, s.tree.lookup parent leaf = some c → hasFlag n WASI_OFLAGS_CREAT →
    hasFlag n WASI_OFLAGS_EXCL → Refuses r .exist
  /-- What is no directory is refused with `DIRECTORY`. -/
  nonDirectory : ∀ {c child}, s.tree.lookup parent leaf = some c →
    Syscall.openTarget s parent c = .ok child → ¬ (s.files child).isDirectory →
    hasFlag n WASI_OFLAGS_DIRECTORY → ∃ e, Refuses r e
  /-- A readable directory is opened with `DIRECTORY` alone. -/
  directory : ∀ {c child}, s.tree.lookup parent leaf = some c →
    Syscall.openTarget s parent c = .ok child → (s.files child).isDirectory →
    (s.files child).readable → n = WASI_OFLAGS_DIRECTORY → Opens s' r child
  /-- A regular file that is opened is emptied with `TRUNC` only. -/
  truncates : ∀ {f b}, f < s.next → (s.files f).buffer? = some b → Opens s' r f →
    (s'.files f).buffer? = some (if hasFlag n WASI_OFLAGS_TRUNC then Vec.empty else b)

/-- The situations in which the WASI flags are misread to another effect. -/
def FlagsMisread (s : State) (parent : FileId) (leaf : Name) (n : Nat) : Prop :=
  (s.tree.lookup parent leaf = none ∧ leaf.length ≤ WASMFS_NAME_MAX ∧
      hasFlag n WASI_OFLAGS_CREAT ∧ ¬ hasFlag n WASI_OFLAGS_DIRECTORY) ∨
    (s.tree.lookup parent leaf ≠ none ∧ hasFlag n WASI_OFLAGS_CREAT ∧
      hasFlag n WASI_OFLAGS_EXCL) ∨
    ∃ c child, s.tree.lookup parent leaf = some c ∧ Syscall.openTarget s parent c = .ok child ∧
      ((leaf.length ≤ WASMFS_NAME_MAX ∧ ¬ (s.files child).isDirectory ∧
          (s.files child).readable ∧ (s.files child).writable ∧
          hasFlag n WASI_OFLAGS_DIRECTORY ∧ ¬ hasFlag n WASI_OFLAGS_CREAT) ∨
        ((s.files child).isDirectory ∧ (s.files child).readable ∧ n = WASI_OFLAGS_DIRECTORY))

/-! ## Descriptors and errors -/

variable {host : Host} {s s' : State} {r : Reply}

/-- A slot that holds something is within the table. -/
theorem FileTable.lt_of_getEntry {fd : Nat} {o : OpenId} (h : getEntry s fd = some o) :
    fd < s.table.length := by
  by_contra hge
  rw [getEntry, List.getElem?_eq_none (Nat.le_of_not_lt hge)] at h
  cases h

/-- No descriptor is the number of an error. -/
theorem UsesBalance.not_opens_of_refuses (h : UsesBalance s') {e : Errno} (hr : Refuses r e)
    (f : FileId) : ¬ Opens s' r f := by
  rintro ⟨v, o, hv, ho, -⟩
  have heq : Out.fd v = .fd (u32 e.neg) := hv.symm.trans hr
  cases heq
  have hlt := Nat.lt_of_lt_of_le (FileTable.lt_of_getEntry ho) h.fits
  rw [e.u32_neg] at hlt
  have hcode := e.code_lt
  simp only [FileTable.maxSize] at hlt
  omega

theorem Refuses.code_eq {e e' : Errno} (h : Refuses r e) (h' : Refuses r e') :
    e.code = e'.code := by
  have heq : Out.fd (u32 e.neg) = .fd (u32 e'.neg) := h.symm.trans h'
  rw [e.u32_neg, e'.u32_neg] at heq
  injection heq with heq
  have hlt := e.code_lt
  have hlt' := e'.code_lt
  omega

/-- The number of a new descriptor. -/
theorem FileTable.addEntry_getEntry {o : OpenId} {ret : Int} (h : addEntry s o = .ok (s', ret))
    (hs' : UsesBalance s') : getEntry s' (u32 ret) = some o := by
  obtain ⟨rfl, closee, hset⟩ := addEntry_ok h
  have hself := getEntry_setEntry_self hset
  have hlt := Nat.lt_of_lt_of_le (lt_of_getEntry hself) hs'.fits
  simp only [maxSize] at hlt
  rwa [u32_of_lt (by omega)]

/-! ## The outcomes with WASI flags -/

/-- The outcomes of `path_open` with WASI flags. -/
inductive WasiOutcome (s s' : State) (r : Reply) (parent : FileId) (leaf : Name) (n : Nat) :
    Prop where
  | invalid : n &&& O_ACCMODE = 3 → Refuses r .inval → WasiOutcome s s' r parent leaf n
  | tooLong : leaf.length > WASMFS_NAME_MAX → Refuses r .nametoolong →
      WasiOutcome s s' r parent leaf n
  | missing : s.tree.lookup parent leaf = none → Refuses r .noent →
      WasiOutcome s s' r parent leaf n
  | unresolved {c : FileId} {e : Errno} : s.tree.lookup parent leaf = some c →
      Syscall.openTarget s parent c = .error e → Path.ParseError e → Refuses r e →
      WasiOutcome s s' r parent leaf n
  | refused {c child : FileId} {e : Errno} : s.tree.lookup parent leaf = some c →
      Syscall.openTarget s parent c = .ok child → ¬ Syscall.Openable s child n →
      e = .isdir ∨ e = .acces → Refuses r e → WasiOutcome s s' r parent leaf n
  | opened {c child : FileId} : n &&& O_ACCMODE ≠ 3 → leaf.length ≤ WASMFS_NAME_MAX →
      s.tree.lookup parent leaf = some c → Syscall.openTarget s parent c = .ok child →
      Syscall.Openable s child n → Opens s' r child → WasiOutcome s s' r parent leaf n

theorem Syscall.openTarget_error {parent c : FileId} {e : Errno}
    (h : openTarget s parent c = .error e) : Path.ParseError e := by
  simp only [openTarget] at h
  split at h
  · cases h
  · exact Path.getFileFrom_error h

/-- A file that passes the checks is opened. -/
theorem Syscall.opens_of_openable {child : FileId} {n : Nat} {ret : Int} (hn : n < 16)
    (hs' : UsesBalance s') (hopen : Openable s child n)
    (hrun : openExisting s child n = .ok (s', ret)) : Opens s' ⟨0, .fd (u32 ret)⟩ child := by
  rw [openExisting_of_openable hopen, opened_wasi hn] at hrun
  obtain ⟨dirents, hself⟩ := OpenFileState.create_self s child n
  have hentry := FileTable.addEntry_getEntry hrun hs'
  obtain ⟨-, closee, hset⟩ := FileTable.addEntry_ok hrun
  refine ⟨u32 ret, s.nextDescription, rfl, hentry, ?_⟩
  rw [FileTable.setEntry_file hset, hself]

theorem Export.path_open_wasi (h : s.tree.WF) (hs' : UsesBalance s') {dirfd : UInt32}
    {path : List UInt8} {oflags : UInt16} {parent : FileId} {leaf : Name}
    (hn : oflags.toNat < 16)
    (hp : (Path.parseParent s (cstr path) dirfd.toNat).2 = .ok (parent, leaf))
    (hok : path_open host s dirfd path oflags = .ok (s', r)) :
    WasiOutcome s s' r parent leaf oflags.toNat := by
  obtain ⟨ret, hopen, rfl⟩ := path_open_ok hok
  rw [Syscall.openat2_wasi h host hn hp] at hopen
  split at hopen
  · rename_i hmode
    cases hopen
    exact .invalid hmode rfl
  rename_i hmode
  split at hopen
  · rename_i hlen
    cases hopen
    exact .tooLong hlen rfl
  rename_i hlen
  split at hopen
  · rename_i hl
    cases hopen
    exact .missing hl rfl
  rename_i c hl
  split at hopen
  · rename_i e ht
    cases hopen
    exact .unresolved hl ht (Syscall.openTarget_error ht) rfl
  rename_i child ht
  by_cases hopenable : Syscall.Openable s child oflags.toNat
  · exact .opened hmode (Nat.le_of_not_lt hlen) hl ht hopenable
      (Syscall.opens_of_openable hn hs' hopenable hopen)
  · obtain ⟨e, he, hrefuses⟩ := Syscall.openExisting_refuses hn hopenable
    rw [hrefuses] at hopen
    cases hopen
    exact .refused hl ht hopenable he rfl

/-- No outcome is the error `EEXIST`. -/
theorem WasiOutcome.not_exist {parent : FileId} {leaf : Name} {n : Nat} (hs' : UsesBalance s')
    (ho : WasiOutcome s s' r parent leaf n) : ¬ Refuses r .exist := by
  intro hr
  cases ho with
  | invalid _ h => exact absurd (hr.code_eq h) (by decide)
  | tooLong _ h => exact absurd (hr.code_eq h) (by decide)
  | missing _ h => exact absurd (hr.code_eq h) (by decide)
  | unresolved _ _ he h =>
      have hcode := hr.code_eq h
      rcases he with rfl | rfl | rfl <;> exact absurd hcode (by decide)
  | refused _ _ _ he h =>
      have hcode := hr.code_eq h
      rcases he with rfl | rfl <;> exact absurd hcode (by decide)
  | opened _ _ _ _ _ h => exact hs'.not_opens_of_refuses hr _ h

/-- A file is opened only if it exists and passes the checks. -/
theorem WasiOutcome.of_opens {parent : FileId} {leaf : Name} {n : Nat} (hs' : UsesBalance s')
    (ho : WasiOutcome s s' r parent leaf n) {f : FileId} (hf : Opens s' r f) :
    n &&& O_ACCMODE ≠ 3 ∧ s.tree.lookup parent leaf ≠ none ∧ Syscall.Openable s f n := by
  have hnot : ∀ {e}, ¬ Refuses r e := fun hr => hs'.not_opens_of_refuses hr f hf
  cases ho with
  | invalid _ h => exact absurd h hnot
  | tooLong _ h => exact absurd h hnot
  | missing _ h => exact absurd h hnot
  | unresolved _ _ _ h => exact absurd h hnot
  | refused _ _ _ _ h => exact absurd h hnot
  | opened hmode _ hl _ hopen h =>
      obtain ⟨v, o, hv, ho, rfl⟩ := hf
      obtain ⟨v', o', hv', ho', rfl⟩ := h
      have heq : Out.fd v = .fd v' := hv.symm.trans hv'
      cases heq
      cases ho.symm.trans ho'
      exact ⟨hmode, hl ▸ Option.some_ne_none _, hopen⟩

/-- The file of an opened leaf passes the checks. -/
theorem WasiOutcome.refuses_of_not_openable {parent : FileId} {leaf : Name} {n : Nat}
    (ho : WasiOutcome s s' r parent leaf n) {c child : FileId}
    (hl : s.tree.lookup parent leaf = some c) (ht : Syscall.openTarget s parent c = .ok child)
    (hno : n &&& O_ACCMODE ≠ 3 → leaf.length ≤ WASMFS_NAME_MAX → ¬ Syscall.Openable s child n) :
    ∃ e, Refuses r e := by
  cases ho with
  | invalid _ h => exact ⟨_, h⟩
  | tooLong _ h => exact ⟨_, h⟩
  | missing _ h => exact ⟨_, h⟩
  | unresolved _ _ _ h => exact ⟨_, h⟩
  | refused _ _ _ _ h => exact ⟨_, h⟩
  | opened hmode hlen hl' ht' hopen _ =>
      cases hl.symm.trans hl'
      cases ht.symm.trans ht'
      exact absurd hopen (hno hmode hlen)

/-- A leaf whose file passes the checks is opened. -/
theorem WasiOutcome.opens_of_openable {parent : FileId} {leaf : Name} {n : Nat}
    (ho : WasiOutcome s s' r parent leaf n) {c child : FileId} (hmode : n &&& O_ACCMODE ≠ 3)
    (hlen : leaf.length ≤ WASMFS_NAME_MAX) (hl : s.tree.lookup parent leaf = some c)
    (ht : Syscall.openTarget s parent c = .ok child) (hopen : Syscall.Openable s child n) :
    Opens s' r child := by
  cases ho with
  | invalid h _ => exact absurd h hmode
  | tooLong h _ => exact absurd hlen (Nat.not_le_of_lt h)
  | missing h _ => exact nomatch hl.symm.trans h
  | unresolved hl' ht' _ _ =>
      cases hl.symm.trans hl'
      exact nomatch ht.symm.trans ht'
  | refused hl' ht' hno _ _ =>
      cases hl.symm.trans hl'
      cases ht.symm.trans ht'
      exact absurd hopen hno
  | opened _ _ hl' ht' _ h =>
      cases hl.symm.trans hl'
      cases ht.symm.trans ht'
      exact h

/-! ## When the flags are obeyed -/

/-- A file without permissions passes no check. -/
theorem Syscall.not_openable_of_guarded {f : FileId} {n : Nat} (hn : n < 16)
    (hmode : n &&& O_ACCMODE ≠ 3) (hr : (s.files f).readable = false)
    (hw : (s.files f).writable = false) : ¬ Openable s f n := by
  intro hopen
  have hmodes : ∀ n < 16, n &&& O_ACCMODE ≠ 3 → (n &&& O_ACCMODE = O_RDONLY ∨
      n &&& O_ACCMODE = O_RDWR) ∨ n &&& O_ACCMODE = O_WRONLY := by decide
  rcases hmodes n hn hmode with hread | hwrite
  · exact Bool.false_ne_true (hr.symm.trans (hopen.readable hread))
  · exact Bool.false_ne_true (hw.symm.trans (hopen.writable (Or.inl hwrite)))

theorem obeysFlags_of_not_misread {parent : FileId} {leaf : Name} {n : Nat} (hn : n < 16)
    (hs' : UsesBalance s')
    (hguarded : ∀ {f}, (s.files f).buffer? ≠ none →
      (s.files f).readable = false ∧ (s.files f).writable = false)
    (ho : WasiOutcome s s' r parent leaf n) (hread : ¬ FlagsMisread s parent leaf n) :
    ObeysFlags s s' r parent leaf n where
  creates hl hlen hcreat hdir := absurd (Or.inl ⟨hl, hlen, hcreat, hdir⟩) hread
  missing hl hlen hcreat := by
    have hmode : n &&& O_ACCMODE ≠ 3 := by
      rw [wasiFlags_accessMode hn, if_neg hcreat]
      split <;> decide
    cases ho with
    | invalid h _ => exact absurd h hmode
    | tooLong h _ => exact absurd hlen (Nat.not_le_of_lt h)
    | missing _ h => exact h
    | unresolved hl' _ _ _ => exact nomatch hl.symm.trans hl'
    | refused hl' _ _ _ _ => exact nomatch hl.symm.trans hl'
    | opened _ _ hl' _ _ _ => exact nomatch hl.symm.trans hl'
  exclusive hl hcreat hexcl :=
    absurd (Or.inr (Or.inl ⟨hl ▸ Option.some_ne_none _, hcreat, hexcl⟩)) hread
  nonDirectory {c child} hl ht hkind hdir := by
    refine ho.refuses_of_not_openable hl ht fun hmode hlen hopen => ?_
    have haccess := wasiFlags_accessMode hn
    rw [if_pos hdir] at haccess
    have hcreat : ¬ hasFlag n WASI_OFLAGS_CREAT := by
      intro hcreat
      rw [if_pos hcreat] at haccess
      exact hmode haccess
    rw [if_neg hcreat] at haccess
    exact hread (Or.inr (Or.inr ⟨c, child, hl, ht, Or.inl ⟨hlen, hkind,
      hopen.readable (Or.inr haccess), hopen.writable (Or.inr haccess), hdir, hcreat⟩⟩))
  directory {c child} hl ht hkind hr hflags :=
    absurd (Or.inr (Or.inr ⟨c, child, hl, ht, Or.inr ⟨hkind, hr, hflags⟩⟩)) hread
  truncates {f b} _ hb hopens := by
    obtain ⟨hmode, -, hopen⟩ := ho.of_opens hs' hopens
    obtain ⟨hr, hw⟩ := hguarded (hb ▸ Option.some_ne_none b)
    exact absurd hopen (Syscall.not_openable_of_guarded hn hmode hr hw)

theorem not_obeysFlags_of_misread {parent : FileId} {leaf : Name} {n : Nat} (hn : n < 16)
    (hs' : UsesBalance s') (ho : WasiOutcome s s' r parent leaf n)
    (hread : FlagsMisread s parent leaf n) : ¬ ObeysFlags s s' r parent leaf n := by
  intro hobeys
  rcases hread with ⟨hl, hlen, hcreat, hdir⟩ | ⟨hl, hcreat, hexcl⟩ | ⟨c, child, hl, ht, hrest⟩
  · obtain ⟨f, hopens, -⟩ := hobeys.creates hl hlen hcreat hdir
    exact (ho.of_opens hs' hopens).2.1 hl
  · obtain ⟨c, hl⟩ := Option.ne_none_iff_exists'.mp hl
    exact ho.not_exist hs' (hobeys.exclusive hl hcreat hexcl)
  · rcases hrest with ⟨hlen, hkind, hr, hw, hdir, hcreat⟩ | ⟨hkind, hr, rfl⟩
    · have haccess := wasiFlags_accessMode hn
      rw [if_pos hdir, if_neg hcreat] at haccess
      have hopen : Syscall.Openable s child n :=
        (Syscall.openable_wasi hn child).mpr ⟨fun h => absurd h hkind, fun _ => hr, fun _ => hw⟩
      have hmode : n &&& O_ACCMODE ≠ 3 := by
        rw [haccess]
        decide
      obtain ⟨e, hrefuses⟩ := hobeys.nonDirectory hl ht hkind hdir
      exact hs'.not_opens_of_refuses hrefuses child (ho.opens_of_openable hmode hlen hl ht hopen)
    · -- the mode is `O_RDWR`, which no directory allows
      have hopen := (ho.of_opens hs' (hobeys.directory hl ht hkind hr rfl)).2.2
      exact absurd (hopen.directory hkind) (by decide)

/-- In a state that a run reaches, `path_open` at a leaf of a linked directory obeys
the WASI flags exactly when they are not misread. -/
theorem obeysFlags_iff {dirfd : UInt32} {path : List UInt8} {oflags : UInt16} {parent : FileId}
    {leaf : Name} (h : Reachable host s) (hn : oflags.toNat < 16)
    (hp : (Path.parseParent s (cstr path) dirfd.toNat).2 = .ok (parent, leaf))
    (hok : Export.path_open host s dirfd path oflags = .ok (s', r)) :
    ObeysFlags s s' r parent leaf oflags.toNat ↔
      ¬ FlagsMisread s parent leaf oflags.toNat := by
  have hs' : Reachable host s' := h.tail trivial ⟨r, hok⟩ (a := .path_open dirfd path oflags)
  have ho := Export.path_open_wasi h.wf hs'.usesBalance hn hp hok
  constructor
  · intro hobeys hread
    exact not_obeysFlags_of_misread hn hs'.usesBalance ho hread hobeys
  · exact obeysFlags_of_not_misread hn hs'.usesBalance h.regular_guarded ho

theorem obeysFlags_tmp : ∃ s replies s' r,
    afterRun [.path_open atFdCwd [slash] 0] = .ok (s, replies) ∧
    Export.path_open .still s 3 tmpName 0 = .ok (s', r) ∧
    (ObeysFlags s s' r Init.root tmpName 0 ↔ ¬ FlagsMisread s Init.root tmpName 0) := by
  obtain ⟨s, replies, hok, hparsed, s', r, hopen, -⟩ :
      Returns (afterRun [.path_open atFdCwd [slash] 0]) fun s _ =>
        (Path.parseParent s (cstr tmpName) (3 : UInt32).toNat).2.toOption =
          some (Init.root, tmpName) ∧
        Returns (Export.path_open .still s 3 tmpName 0) fun _ _ => True := by
    decide +kernel
  exact ⟨s, replies, s', r, hok, hopen, @obeysFlags_iff _ _ _ _ _ _ 0 _ _ (.of_afterRun hok)
    (by decide) (ok_of_toOption hparsed) hopen⟩

/-- With `CREAT` a missing file is not created. -/
theorem not_obeysFlags_creat : ¬ ∀ (host : Host) (s s' : State) (r : Reply) (dirfd : UInt32)
    (path : List UInt8) (oflags : UInt16) (parent : FileId) (leaf : Name), Reachable host s →
    oflags.toNat < 16 → s.getParent parent ≠ none →
    (Path.parseParent s (cstr path) dirfd.toNat).2 = .ok (parent, leaf) →
    Export.path_open host s dirfd path oflags = .ok (s', r) →
    ObeysFlags s s' r parent leaf oflags.toNat := by
  intro hall
  obtain ⟨s, replies, hok, hlinked, hparsed, hl, s', r, hopen, hout⟩ :
      Returns (afterRun [.path_open atFdCwd [slash] 0]) fun s _ =>
        s.getParent Init.root ≠ none ∧
        (Path.parseParent s (cstr [120]) (3 : UInt32).toNat).2.toOption =
          some (Init.root, [120]) ∧
        s.tree.lookup Init.root [120] = none ∧
        Returns (Export.path_open .still s 3 [120] 1) fun _ r => r.out = .fd 4294967252 := by
    decide +kernel
  have hs : Reachable .still s := .of_afterRun hok
  have hs' : Reachable .still s' := hs.tail trivial ⟨r, hopen⟩ (a := .path_open 3 [120] 1)
  obtain ⟨f, hopens, -⟩ := (hall .still s s' r 3 [120] 1 Init.root [120] hs (by decide) hlinked
    (ok_of_toOption hparsed) hopen).creates hl (by decide) (by decide) (by decide)
  have hrefuses : Refuses r .noent := hout
  exact hs'.usesBalance.not_opens_of_refuses hrefuses f hopens

end WasmFS
