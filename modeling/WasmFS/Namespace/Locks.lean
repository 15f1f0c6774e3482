import WasmFS.Lib.Locking
import WasmFS.Namespace.Start

/-!
# The locks that calls take

Every file, every open file and the file table have a mutex, and `renameat` has one
of its own that serialises renames.  Threads run calls over one tree of files.  The
mutexes are recursive and belong to handles, so a call gives them back in reverse
order (`file.h`, `file_table.h`).

`Asks` collects the places where a call takes a lock, with what it holds there.  Most
calls hold one directory and take the lock of a child of it.  Three do otherwise: a
rename holds two directories and walks up from one of them, an `unlinkat` of `..`
takes the lock of the parent of the directory it holds, and an `openat` that creates a
file takes that of the table while it holds the directory.  In any deadlock of any
number of threads one of these three has a part (`deadlock_involves`).

The mutex of `WasmFS` itself is left out: whoever holds it takes no other.
-/

namespace WasmFS

/-! ## Locks and calls -/

/-- The mutexes. -/
inductive Lock where
  /-- `renameMutex` -/
  | rename
  /-- `FileTable::mutex` -/
  | table
  /-- `OpenFileState::mutex` -/
  | opened (o : OpenId)
  /-- `File::mutex` -/
  | file (f : FileId)
deriving DecidableEq, Repr

/-- The calls, as far as they differ in the locks they take. -/
inductive LockedCall where
  | renameat
  | openat
  /-- `unlinkat` and `rmdir` of a path that ends in `..` -/
  | unlinkDotdot
  | poll
  | fallocate
  /-- Other calls with a path: `mkdirat`, `symlinkat`, `unlinkat`, `newfstatat`, … -/
  | path
  /-- Other calls on descriptors: `fd_read`, `fd_seek`, `getdents64`, `fd_close`, `fcntl64`, … -/
  | descriptor
deriving DecidableEq, Repr

/-- What a call holds while it parses paths. -/
def LockedCall.base : LockedCall → List Lock
  | .renameat => [.rename]
  | _ => []

/-- `Asks t call held l`: in the tree `t` the call may take the lock `l` while it holds
the locks `held`, the newest first. -/
inductive Asks (t : Tree) : LockedCall → List Lock → Lock → Prop where
  /-- `renameMutex` comes first. -/
  | renameMutex : Asks t .renameat [] .rename
  /-- A handle that is taken again. -/
  | again {call : LockedCall} {held : List Lock} {l : Lock} : l ∈ held → Asks t call held l
  /-- `getFileTable().locked()` -/
  | table {call : LockedCall} : Asks t call call.base .table
  /-- `openFile->locked()` -/
  | opened {call : LockedCall} {o : OpenId} : Asks t call call.base (.opened o)
  /-- A file while none is locked: each step of a path, `newfstatat`, `fd_close`, … -/
  | file {call : LockedCall} {f : FileId} : Asks t call call.base (.file f)
  /-- A child of the directory: `getChild` and the inserts in `cacheChild`, the file of
  `unlinkat`, and `OpenFileState::create` of a new file. -/
  | child {call : LockedCall} {d c : FileId} {n : Name} : t.forest.edge d n c →
      Asks t call (.file d :: call.base) (.file c)
  /-- `unlinkat` of `..` locks what `getChild` answers, the parent of the directory. -/
  | dotdot {d p : FileId} : Asks t .unlinkDotdot [.file d] (.file p)
  /-- `doOpen` puts a new file into the table before it gives up the parent. -/
  | created {d : FileId} : Asks t .openat [.file d] .table
  /-- `setEntry`, `fcntl64`, `poll` and `fallocate` look at open files of the table. -/
  | entry {call : LockedCall} {o : OpenId} : call ≠ .renameat → Asks t call [.table] (.opened o)
  /-- The file of an open file: `writeAtOffset`, `readAtOffset`, `fd_seek`, `getdents64`, … -/
  | transfer {call : LockedCall} {o : OpenId} {f : FileId} : call ≠ .renameat →
      Asks t call [.opened o] (.file f)
  | pollFile {o : OpenId} {f : FileId} : Asks t .poll [.opened o, .table] (.file f)
  | allocate {f : FileId} : Asks t .fallocate [.table] (.file f)
  /-- Both parents, the way up from the new one, the two files, and `insertMove`. -/
  | renameFile {files : List FileId} {f : FileId} : files ≠ [] →
      Asks t .renameat (files.map .file ++ [.rename]) (.file f)

/-- No directory lies below itself. -/
def Tree.Acyclic (t : Tree) : Prop :=
  ∀ d, ¬ Relation.TransGen (fun d c => ∃ n, t.forest.edge d n c) d d

/-- A tree of which this is all that is known.  What a call has checked need not hold any
more when it changes the tree: a directory that was empty may have got an entry. -/
abbrev AcyclicTree := { t : Tree // t.Acyclic }

/-- The entries of a directory change only under its lock.  Parents, modes, times and
contents may change at any time. -/
def ChangesUnder (t : AcyclicTree) (held : List Lock) (t' : AcyclicTree) : Prop :=
  ∀ d, .file d ∉ held → ∀ n c, t'.1.forest.edge d n c ↔ t.1.forest.edge d n c

/-- What a call may ask for stays so while others change the tree. -/
theorem Asks.stable {t t' : AcyclicTree} {call : LockedCall} {l : Lock} {mine others : List Lock}
    (hchange : ChangesUnder t others t') (hmine : ∀ x ∈ mine, x ∉ others)
    (h : Asks t.1 call mine l) : Asks t'.1 call mine l := by
  cases h with
  | @child _ d c n he =>
      have hfree : .file d ∉ others := hmine (.file d) List.mem_cons_self
      exact .child ((hchange d hfree n c).mpr he)
  | renameMutex => exact .renameMutex
  | again hmem => exact .again hmem
  | table => exact .table
  | opened => exact .opened
  | file => exact .file
  | dotdot => exact .dotdot
  | created => exact .created
  | entry hne => exact .entry hne
  | transfer hne => exact .transfer hne
  | pollFile => exact .pollFile
  | allocate => exact .allocate
  | renameFile hne => exact .renameFile hne

/-- The locks of WasmFS. -/
def lockDiscipline : Locking.Discipline AcyclicTree LockedCall Lock where
  asks t := Asks t.1
  changes := ChangesUnder
  stable := Asks.stable

/-! ## The order of the locks -/

/-- The rename mutex comes before all others, then the table, then open files, then
files, and of these a directory before its children. -/
inductive Lock.Before (t : Tree) : Lock → Lock → Prop where
  | rename {l : Lock} : l ≠ .rename → Before t .rename l
  | tableOpened {o : OpenId} : Before t .table (.opened o)
  | tableFile {f : FileId} : Before t .table (.file f)
  | openedFile {o : OpenId} {f : FileId} : Before t (.opened o) (.file f)
  | child {d c : FileId} {n : Name} : t.forest.edge d n c → Before t (.file d) (.file c)

namespace Lock

variable {t : Tree}

def rank : Lock → Nat
  | .rename => 0
  | .table => 1
  | .opened _ => 2
  | .file _ => 3

theorem Before.rank_lt {a b : Lock} (h : Before t a b) :
    a.rank < b.rank ∨ ∃ d c, a = .file d ∧ b = .file c ∧ ∃ n, t.forest.edge d n c := by
  cases h with
  | rename hne =>
      refine .inl ?_
      cases b with
      | rename => exact absurd rfl hne
      | table | opened _ | file _ => simp [rank]
  | tableOpened | tableFile | openedFile => exact .inl (by simp [rank])
  | child he => exact .inr ⟨_, _, rfl, rfl, _, he⟩

/-- The order has no cycle. -/
theorem Before.acyclic (h : t.Acyclic) (l : Lock) : ¬ Relation.TransGen (Before t) l l := by
  have hrank : ∀ {a b}, Relation.TransGen (Before t) a b → a.rank < b.rank ∨
      ∃ d c, a = .file d ∧ b = .file c ∧
        Relation.TransGen (fun d c => ∃ n, t.forest.edge d n c) d c := by
    intro a b hab
    induction hab with
    | single hb =>
        rcases hb.rank_lt with hlt | ⟨d, c, ha, hb, he⟩
        · exact .inl hlt
        · exact .inr ⟨d, c, ha, hb, .single he⟩
    | @tail b b' _ hb ih =>
        rcases hb.rank_lt with hlt | ⟨d', c', hb₁, rfl, he⟩
        · rcases ih with hlt' | ⟨d, c, rfl, rfl, -⟩
          · exact .inl (Nat.lt_trans hlt' hlt)
          · exact .inl hlt
        · subst hb₁
          rcases ih with hlt' | ⟨d, c, rfl, hc, hpath⟩
          · exact .inl hlt'
          · cases hc
            exact .inr ⟨d, c', rfl, rfl, hpath.tail he⟩
  intro hl
  rcases hrank hl with hlt | ⟨d, c, hd, hc, hpath⟩
  · exact Nat.lt_irrefl _ hlt
  · obtain rfl := Lock.file.inj (hd.symm.trans hc)
    exact h d hpath

end Lock

/-! ## Deadlocks -/

section

variable {t : Tree} {call : LockedCall} {held : List Lock} {l x : Lock}

theorem LockedCall.before_of_mem_base (hx : x ∈ call.base) (hl : l ≠ .rename) :
    Lock.Before t x l := by
  cases call with
  | renameat =>
      obtain rfl := List.mem_singleton.mp hx
      exact .rename hl
  | openat | unlinkDotdot | poll | fallocate | path | descriptor => cases hx

/-- What a call does that waits for a lock out of order. -/
inductive OutOfOrder : LockedCall → List Lock → Lock → Prop where
  /-- It puts a new file into the table and holds the parent. -/
  | created {d : FileId} : OutOfOrder .openat [.file d] .table
  /-- It removes `..` and holds the directory. -/
  | dotdot {d p : FileId} : OutOfOrder .unlinkDotdot [.file d] (.file p)
  /-- It renames and holds a directory. -/
  | renameat {held : List Lock} {d : FileId} {l : Lock} : .file d ∈ held →
      OutOfOrder .renameat held l

/-- All other calls ask for locks in order. -/
theorem Asks.outOfOrder (h : Asks t call held l) (hl : l ∉ held) (hx : x ∈ held)
    (hbefore : ¬ Lock.Before t x l) : OutOfOrder call held l := by
  cases h with
  | renameMutex => cases hx
  | again hmem => exact absurd hmem hl
  | table | opened | file => exact absurd (LockedCall.before_of_mem_base hx (by simp)) hbefore
  | child he =>
      rcases List.mem_cons.mp hx with rfl | hx
      · exact absurd (.child he) hbefore
      · exact absurd (LockedCall.before_of_mem_base hx (by simp)) hbefore
  | dotdot => exact .dotdot
  | created => exact .created
  | entry _ =>
      obtain rfl := List.mem_singleton.mp hx
      exact absurd .tableOpened hbefore
  | transfer _ =>
      obtain rfl := List.mem_singleton.mp hx
      exact absurd .openedFile hbefore
  | pollFile =>
      rcases List.mem_pair.mp hx with rfl | rfl
      · exact absurd .openedFile hbefore
      · exact absurd .tableFile hbefore
  | allocate =>
      obtain rfl := List.mem_singleton.mp hx
      exact absurd .tableFile hbefore
  | @renameFile files f hne =>
      obtain ⟨d, hd⟩ := List.exists_mem_of_ne_nil files hne
      exact .renameat (List.mem_append_left _ (List.mem_map_of_mem hd))

/-- A rename that holds a lock holds the rename mutex. -/
theorem Asks.rename_mem (h : Asks t .renameat held l) (hl : l ∉ held) (hx : x ∈ held) :
    .rename ∈ held := by
  cases h with
  | renameMutex => cases hx
  | again hmem => exact absurd hmem hl
  | table | opened | file => exact List.mem_singleton.mpr rfl
  | child _ => exact List.mem_cons_of_mem _ (List.mem_singleton.mpr rfl)
  | entry hne | transfer hne => exact absurd rfl hne
  | renameFile _ => exact List.mem_append_right _ (List.mem_singleton.mpr rfl)

end

section

variable {ι : Type} [DecidableEq ι] {t : AcyclicTree}
  {c : Locking.Config AcyclicTree ι LockedCall Lock}
  {D : Set ι}

/-- What the threads of a deadlock wait for, and that they do not hold it. -/
theorem deadlocked_asks (h : Locking.Run lockDiscipline (Locking.idle t) c)
    (hD : Locking.Deadlocked c D) {i : ι} (hi : i ∈ D) : ∃ call l, c.call i = some call ∧
      c.wants i = some l ∧ l ∉ c.held i ∧ Asks c.structure_.1 call (c.held i) l := by
  obtain ⟨l, j, hw, -, hne, hl⟩ := hD.waits i hi
  obtain ⟨call, hcall, hasks⟩ := h.sound.justified hw
  exact ⟨call, l, hcall, hw, h.sound.not_mem hne hl, hasks⟩

/-- Take any number of threads that run calls in any order, over a tree that the calls
change, checks and changes in separate steps.  In any deadlock there is an `openat` that
holds a directory and waits for the table, or a removal of `..` that holds a directory and
waits for another one, or else a rename that holds a directory, next to a call that is no
rename and holds a lock while it waits. -/
theorem deadlock_involves (h : Locking.Run lockDiscipline (Locking.idle t) c)
    (hD : Locking.Deadlocked c D) :
    (∃ i ∈ D, c.call i = some .openat ∧ c.wants i = some .table ∧ ∃ d, .file d ∈ c.held i) ∨
    (∃ i ∈ D, c.call i = some .unlinkDotdot ∧
      ∃ d p, .file d ∈ c.held i ∧ c.wants i = some (.file p)) ∨
    ∃ i ∈ D, ∃ j ∈ D, c.call i = some .renameat ∧ (∃ d, .file d ∈ c.held i) ∧
      c.call j ≠ some .renameat ∧ c.held j ≠ [] := by
  obtain ⟨i, hi, l, x, hw, hx, hbefore⟩ :=
    hD.exists_disordered (Lock.Before.acyclic c.structure_.2)
  obtain ⟨call, l', hcall, hw', hl, hasks⟩ := deadlocked_asks h hD hi
  obtain rfl := Option.some.inj (hw.symm.trans hw')
  have hout := hasks.outOfOrder hl hx hbefore
  generalize hheld : c.held i = held at hout
  cases hout with
  | @created d =>
      exact .inl ⟨i, hi, hcall, hw, d, hheld ▸ List.mem_singleton.mpr rfl⟩
  | @dotdot d p =>
      exact .inr (.inl ⟨i, hi, hcall, d, p, hheld ▸ List.mem_singleton.mpr rfl, hw⟩)
  | @renameat held d l hmem =>
      obtain ⟨l', j, hw', hj, hji, hlj⟩ := hD.waits i hi
      refine .inr (.inr ⟨i, hi, j, hj, hcall, ⟨d, hheld ▸ hmem⟩, fun hcallj => ?_, ?_⟩)
      · -- two renames do not both hold the rename mutex
        obtain ⟨call, k, hcall', -, hk, hasks'⟩ := deadlocked_asks h hD hj
        obtain rfl := Option.some.inj (hcall'.symm.trans hcallj)
        exact hji (h.sound.exclusive (hasks'.rename_mem hk hlj) (hasks.rename_mem hl hx))
      · exact List.ne_nil_of_mem hlj

end

/-! ## A deadlock -/

/-- The tree of the start. -/
def startTree : AcyclicTree := ⟨Start.tree, Start.tree_wf.forest.not_transGen_child⟩

/-- `rename("/dev/x", "/y")` holds `/dev` and waits for `/`, and `rmdir("/dev")` holds
`/` and waits for `/dev`. -/
def renameAndRmdir : Locking.Config AcyclicTree Bool LockedCall Lock where
  structure_ := startTree
  call i := some (if i then .path else .renameat)
  held i := if i then [.file Start.tree.root] else [.file Init.dev, .rename]
  wants i := some (.file (if i then Init.dev else Start.tree.root))

theorem renameAndRmdir_run :
    Locking.Run lockDiscipline (Locking.idle startTree) renameAndRmdir := by
  have hedge : Start.tree.forest.edge Start.tree.root devName Init.dev :=
    (by decide +kernel : (devName, Init.dev) ∈ (Start.tree.node Start.tree.root).children)
  have hstart : Locking.Run lockDiscipline
      (Locking.idle startTree : Locking.Config _ Bool _ _) (Locking.idle startTree) := .refl
  have hcalls := (hstart.tail (.start (i := false) (k := .renameat) rfl rfl)).tail
    (.start (i := true) (k := .path) rfl rfl)
  have hmutex := hcalls.acquire (i := false) (l := Lock.rename) rfl rfl
    (Asks.renameMutex (t := Start.tree)) (by simp [Locking.idle])
  have hold := hmutex.acquire (i := false) (l := Lock.file Init.dev) rfl rfl
    (@Asks.file Start.tree .renameat Init.dev) (by simp [Locking.idle])
  have hparent := hold.acquire (i := true) (l := Lock.file Start.tree.root) rfl rfl
    (@Asks.file Start.tree .path Start.tree.root) (by simp [Locking.idle]; decide)
  have hwaits := (hparent.tail (.ask (i := false) (l := Lock.file Start.tree.root) rfl rfl
    (@Asks.renameFile Start.tree [Init.dev] Start.tree.root (by simp)))).tail
    (.ask (i := true) (l := Lock.file Init.dev) rfl rfl (@Asks.child Start.tree .path _ _ _ hedge))
  refine Eq.mp (congrArg _ ?_) hwaits
  simp only [renameAndRmdir, Locking.idle, Locking.Config.mk.injEq, funext_iff, true_and]
  refine ⟨?_, ?_, ?_⟩ <;> intro i <;> cases i <;> rfl

/-- The two calls wait for each other, and one of them is a rename. -/
theorem deadlock_involves_rename : Locking.Deadlocked renameAndRmdir Set.univ ∧
    ∃ i j, renameAndRmdir.call i = some .renameat ∧ renameAndRmdir.call j ≠ some .renameat ∧
      renameAndRmdir.held j ≠ [] := by
  have hD : Locking.Deadlocked renameAndRmdir Set.univ := by
    refine ⟨Set.finite_univ, ⟨true, trivial⟩, fun i _ => ?_⟩
    cases i with
    | false => exact ⟨_, true, rfl, trivial, by decide, List.mem_singleton.mpr rfl⟩
    | true => exact ⟨_, false, rfl, trivial, by decide, List.mem_cons_self⟩
  refine ⟨hD, ?_⟩
  rcases deadlock_involves renameAndRmdir_run hD with ⟨i, -, hcall, -⟩ | ⟨i, -, hcall, -⟩ |
    ⟨i, -, j, -, hi, -, hj, hheld⟩
  · cases i <;> cases hcall
  · cases i <;> cases hcall
  · exact ⟨i, j, hi, hj, hheld⟩

end WasmFS
