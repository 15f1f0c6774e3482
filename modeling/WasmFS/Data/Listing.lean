import WasmFS.Data.AccessModes
import WasmFS.Data.Positions
import WasmFS.Namespace.Names

/-!
# Listing a directory

A directory is listed from the entries that its description recorded when it was
opened.  The position counts the entries delivered.  No other call moves it, except
`fd_seek`, and none changes what was recorded.  So the records of all calls together
are a prefix of the recorded entries, whatever happens to the directory in between
(`readdir_lists`).
-/

namespace WasmFS

variable {host : Host} {s s₁ s₂ s' : State} {r : Reply} {o : OpenId} {d : FileId}

/-! ## One call -/

theorem u32_s32_of_lt {n : Nat} (h : n < 4294967296) : u32 (s32 n) = n := by
  unfold u32 s32
  omega

theorem s32_s32 (x : Int) : s32 (s32 x) = s32 x := by
  unfold s32
  omega

theorem s32_succ (n : Nat) : s32 (s32 (n : Int) + 1) = s32 (n + 1 : Nat) := by
  unfold s32
  omega

/-- The loop delivers the entries from the index on for which there is room. -/
theorem readEntries_eq (dirents : List Dirent) (count fuel : Nat) {i b : Nat}
    (hi : i ≤ dirents.length) (hsize : dirents.length < 4294967296)
    (hfuel : dirents.length < i + fuel) (hb : b ≤ count) :
    ∃ records : List Syscall.Record, Syscall.readEntries dirents count fuel (s32 i) b =
        (records, s32 (i + records.length : Nat),
          ((b + Syscall.sizeofDirent * records.length : Nat) : Int)) ∧
      records.map Syscall.Record.entry =
        (dirents.drop i).take ((count - b) / Syscall.sizeofDirent) := by
  have hat : u32 (s32 (i : Int)) = i := u32_s32_of_lt (by omega)
  have hsizeof : Syscall.sizeofDirent = 280 := rfl
  induction fuel generalizing i b with
  | zero => omega
  | succ fuel ih =>
      simp only [Syscall.readEntries, hat]
      cases hentry : dirents[i]? with
      | none =>
          have hend := List.getElem?_eq_none_iff.mp hentry
          refine ⟨[], rfl, ?_⟩
          rw [List.drop_eq_nil_of_le hend, List.take_nil, List.map_nil]
      | some entry =>
          obtain ⟨hin, hget⟩ := List.getElem?_eq_some_iff.mp hentry
          simp only
          split
          · rename_i hroom
            have hbytes : (b : Int) + Syscall.sizeofDirent = (b + 280 : Nat) := rfl
            rw [hbytes] at hroom
            obtain ⟨records, hloop, hentries⟩ := @ih (i + 1) (b + 280) (by omega) (by omega)
              (by omega) (u32_s32_of_lt (by omega))
            rw [s32_succ, hbytes, hloop]
            refine ⟨⟨entry, s32 (i + 1 : Nat)⟩ :: records, ?_, ?_⟩
            · have hindex : i + 1 + records.length = i + (records.length + 1) := by omega
              have htotal : b + 280 + 280 * records.length = b + 280 * (records.length + 1) := by
                omega
              rw [List.length_cons, hsizeof, hindex, htotal]
            · have hcount : (count - b) / Syscall.sizeofDirent =
                  (count - (b + 280)) / Syscall.sizeofDirent + 1 := by
                rw [hsizeof]
                omega
              rw [List.map_cons, hentries, hcount, List.drop_eq_getElem_cons hin, hget,
                List.take_succ_cons]
          · rename_i hroom
            have hnone : (count - b) / Syscall.sizeofDirent = 0 := by
              rw [hsizeof] at hroom ⊢
              omega
            refine ⟨[], rfl, ?_⟩
            rw [hnone, List.take_zero, List.map_nil]

/-- The description is of the directory `d`, has recorded these entries and delivered the
first `k` of them. -/
structure State.Lists (s : State) (o : OpenId) (d : FileId) (dirents : List Dirent) (k : Nat) :
    Prop where
  file : (s.descriptions o).file = d
  dirents : (s.descriptions o).dirents = dirents
  position : (s.descriptions o).position = s32 k

/-- A call with room for a record delivers the next entries that it has room for. -/
theorem Export.fd_readdir_lists {dirents : List Dirent} {k : Nat} {fd bufLen : UInt32}
    (ho : FileTable.getEntry s fd.toNat = some o) (hl : s.Lists o d dirents k)
    (hdir : (s.files d).isDirectory) (hlinked : s.tree.forest.Linked d) (hk : k ≤ dirents.length)
    (hsize : dirents.length < 4294967296) (hroom : Syscall.sizeofDirent ≤ bufLen.toNat)
    (hok : fd_readdir s fd bufLen = .ok (s', r)) :
    ∃ records, r = ⟨0, .records (Syscall.sizeofDirent * records.length) records⟩ ∧
      Syscall.sizeofDirent * records.length ≤ bufLen.toNat ∧
      records.map Syscall.Record.entry =
        (dirents.drop k).take (bufLen.toNat / Syscall.sizeofDirent) ∧
      s'.Lists o d dirents (k + records.length) := by
  have hsizeof : Syscall.sizeofDirent = 280 := rfl
  have hbuf := bufLen.toNat_lt
  obtain ⟨parent, hparent⟩ := Option.ne_none_iff_exists'.mp hlinked
  have hparent : s.getParent d = some parent := hparent
  obtain ⟨records, hloop, hentries⟩ := readEntries_eq dirents bufLen.toNat
    (dirents.length + 1) (b := 0) hk hsize (by omega) (Nat.zero_le _)
  rw [Int.natCast_zero] at hloop
  have hcount : bufLen.toNat / Syscall.sizeofDirent ≠ 0 := by
    rw [hsizeof] at hroom ⊢
    omega
  have hbytes : Syscall.sizeofDirent * records.length ≤ bufLen.toNat := by
    have hlength := congrArg List.length hentries
    rw [List.length_map, List.length_take, hsizeof] at hlength
    rw [hsizeof]
    omega
  simp only [fd_readdir, Syscall.getdents64, ho, hl.file, hl.dirents, hl.position, s32_s32] at hok
  rw [if_neg hcount, if_neg (not_not.mpr hdir), hparent] at hok
  simp only [hloop] at hok
  cases hok
  refine ⟨records, ?_, hbytes, hentries, ?_⟩
  · rw [Nat.zero_add, u32_s32_of_lt (Nat.lt_of_le_of_lt hbytes hbuf)]
  · refine ⟨?_, ?_, ?_⟩ <;> rw [State.modifyOpen_self]
    · exact hl.file
    · exact hl.dirents

/-! ## Other calls -/

/-- The call lists through the description, with room for a record. -/
def Call.ListsThrough (s : State) (o : OpenId) (c : Call) : Prop :=
  ∃ fd bufLen : UInt32, c = .fd_readdir fd bufLen ∧ FileTable.getEntry s fd.toNat = some o ∧
    Syscall.sizeofDirent ≤ bufLen.toNat

/-- The call seeks through the description. -/
def Call.SeeksThrough (s : State) (o : OpenId) (c : Call) : Prop :=
  ∃ (fd : UInt32) (offset : Int64) (whence : UInt8), c = .fd_seek fd offset whence ∧
    FileTable.getEntry s fd.toNat = some o

theorem SlotEffect.next_le (h : SlotEffect s s') : s.nextDescription ≤ s'.nextDescription := by
  cases h with
  | keep hk => exact hk.next_le
  | @set s₁ s₂ fd new closee hk hnew hset hs' =>
      have hnext := FileTable.setEntry_nextDescription hset
      rcases hs' with rfl | ⟨h, rfl⟩
      · exact hnext.symm ▸ hk.next_le
      · exact hnext.symm ▸ hk.next_le

/-- A call through the description of a directory that neither lists nor seeks leaves the
descriptions alone. -/
theorem exec_through_directory {c : Call} {fd : UInt32} (hd : c.descriptor? = some fd)
    (ho : FileTable.getEntry s fd.toNat = some o)
    (hdir : (s.files (s.descriptions o).file).isDirectory) (hlists : ¬ c.ListsThrough s o)
    (hseeks : ¬ c.SeeksThrough s o) (hok : exec host s c = .ok (s', r)) :
    s'.descriptions = s.descriptions := by
  have hdata : ¬ (s.files (s.descriptions o).file).isDataFile := fun hdata =>
    File.not_isDirectory_of_isDataFile hdata hdir
  cases hmoves : c.movesPosition with
  | false => exact exec_descriptions hd hmoves hok
  | true =>
      cases c with
      | fd_read fd' iovs =>
          cases hd
          have hrefused : exec host s (.fd_read fd iovs) =
              .ok (s, ⟨u16 Errno.isdir.code, .nothing⟩) := exec_reads_refused ho hdata rfl
          cases hok.symm.trans hrefused
          rfl
      | fd_write fd' iovs =>
          cases hd
          obtain ⟨r', hrefused, -⟩ : ∃ r', exec host s (.fd_write fd iovs) = .ok (s, r') ∧
            r'.errno ≠ 0 := exec_writes_refused ho hdata rfl
          cases hok.symm.trans hrefused
          rfl
      | fd_readdir fd' bufLen =>
          cases hd
          have hsmall : bufLen.toNat / Syscall.sizeofDirent = 0 := by
            refine Nat.div_eq_of_lt (Nat.lt_of_not_le fun hroom => hlists ?_)
            exact ⟨fd, bufLen, rfl, ho, hroom⟩
          simp only [exec, Export.fd_readdir, Syscall.getdents64, if_pos hsmall] at hok
          cases hok
          rfl
      | fd_seek fd' offset whence =>
          cases hd
          exact absurd ⟨fd, offset, whence, rfl, ho⟩ hseeks
      | _ => cases hmoves

/-- A call that neither lists nor seeks through the description of a directory leaves it
alone, as long as it is in the table. -/
theorem exec_keepsDescription {c : Call} (h : s.tree.WF) (hslots : SlotsExist s)
    (hlt : o < s.nextDescription)
    (hdir : some o ∈ s.table → (s.files (s.descriptions o).file).isDirectory)
    (hlists : ¬ c.ListsThrough s o) (hseeks : ¬ c.SeeksThrough s o) (ho' : some o ∈ s'.table)
    (hok : exec host s c = .ok (s', r)) :
    some o ∈ s.table ∧ ∃ uses, s'.descriptions o = { s.descriptions o with uses := uses } := by
  cases hsets : c.setsSlot with
  | true =>
      cases exec_described h hslots hsets hok ho' with
      | old hmem hd => exact ⟨hmem, _, hd⟩
      | new heq _ _ => exact absurd heq (Nat.ne_of_lt hlt)
  | false =>
      rw [(exec_keepsTable h hsets hok).table] at ho'
      refine ⟨ho', (s.descriptions o).uses, ?_⟩
      cases hd : c.descriptor? with
      | none => exact congrFun (exec_unnamed h hd hsets hok).descriptions o
      | some fd =>
          cases hfd : FileTable.getEntry s fd.toNat with
          | none => rw [exec_of_empty hd hfd hok]
          | some x =>
              by_cases hx : o = x
              · subst hx
                exact congrFun (exec_through_directory hd hfd (hdir ho') hlists hseeks hok) o
              · exact (exec_confined hd hfd hok).descriptions o hx

/-! ## Opening -/

/-- `.`, `..`, the entries and the mounts of a directory, with their kinds and inodes. -/
def State.listing (s : State) (d : FileId) : List Dirent :=
  ⟨dot, .directory, some d⟩ :: ⟨dotdot, .directory, s.getParent d⟩ ::
    (s.children d).map fun e => ⟨e.1, (s.files e.2).kind, some e.2⟩

theorem OpenFileState.snapshot_eq (s : State) (d : FileId) : snapshot s d = s.listing d := by
  simp only [snapshot, State.listing, Directory.getEntries, MemoryDirectory.getEntries,
    State.children, List.map_append, List.map_map, Function.comp_def]

/-- Every entry is listed once. -/
theorem State.listing_nodup (h : s.tree.WF) (d : FileId) : (s.listing d).Nodup := by
  have hnames := h.names_nodup d
  rw [← children_eq] at hnames
  have hself : ∀ e ∈ s.children d, e.2 ≠ d := by
    rintro ⟨n, c⟩ he rfl
    exact h.forest.not_edge_self (mem_children_iff.mp he)
  have hparent : ∀ e ∈ s.children d, some e.2 ≠ s.getParent d := by
    rintro ⟨n, c⟩ he heq
    exact h.forest.not_edge_parent heq.symm (mem_children_iff.mp he)
  refine List.nodup_cons.mpr ⟨?_, List.nodup_cons.mpr ⟨?_, ?_⟩⟩
  · intro hm
    rcases List.mem_cons.mp hm with heq | hm
    · have hne : dot ≠ dotdot := by decide
      exact hne (congrArg Dirent.name heq)
    · obtain ⟨e, he, heq⟩ := List.mem_map.mp hm
      exact hself e he (Option.some.inj (congrArg Dirent.ino heq))
  · intro hm
    obtain ⟨e, he, heq⟩ := List.mem_map.mp hm
    exact hparent e he (congrArg Dirent.ino heq)
  · refine List.Nodup.of_map Dirent.name ?_
    rw [List.map_map]
    exact hnames

/-- The names that a listing copies fit. -/
theorem State.listing_short (hnames : s.tree.ShortNames) {d : FileId} {e : Dirent}
    (he : e ∈ s.listing d) : e.name.length ≤ WASMFS_NAME_MAX := by
  have hdot : dot.length ≤ WASMFS_NAME_MAX := by decide
  have hdotdot : dotdot.length ≤ WASMFS_NAME_MAX := by decide
  rcases List.mem_cons.mp he with rfl | he
  · exact hdot
  rcases List.mem_cons.mp he with rfl | he
  · exact hdotdot
  obtain ⟨⟨n, c⟩, hc, rfl⟩ := List.mem_map.mp he
  exact hnames (mem_children_iff.mp hc)

theorem OpenFileState.create_directory (s : State) {f : FileId} (flags : Nat)
    (hdir : (s.files f).isDirectory) : (create s f flags).1.descriptions s.nextDescription =
      { file := f, flags := flags, dirents := s.listing f } := by
  have hkind : (s.files f).kind = .directory := beq_iff_eq.mp hdir
  simp only [create, hkind, State.allocOpen, Function.update_self, snapshot_eq]

/-- A directory that is opened records its listing. -/
theorem Syscall.opened_directory {child : FileId} {flags : Nat} (hopenable : Openable s child flags)
    (hdir : (s.files child).isDirectory) :
    (opened s child flags).descriptions s.nextDescription =
      { file := child, flags := flags, dirents := s.listing child } := by
  simp only [opened]
  split
  · rename_i htrunc
    exact absurd hdir (File.not_isDirectory_of_isDataFile (hopenable.truncatable htrunc).1)
  · exact OpenFileState.create_directory s flags hdir

/-- A file that is created is not a directory. -/
theorem Syscall.created_isDirectory (host : Host) (s : State) (parent : FileId) (leaf : Name)
    (flags mode : Nat) :
    ((created host s parent leaf flags mode).files s.next).isDirectory = false := by
  have htree : (created host s parent leaf flags mode).tree = s.tree.create parent leaf
      (newNode (.memory Vec.empty) ((mode &&& S_IALLUGO) ||| S_IFREG) (s.files parent).backend) :=
    (OpenFileState.create_sameFiles ..).tree.trans (Directory.tree_inserted ..)
  rw [← File.node_isDirectory, ← State.tree_node, htree]
  refine Change.created.isDirectory.trans ?_
  rw [Tree.node_alloc_self]
  rfl

/-- A `path_open` that opens a directory records its listing. -/
theorem Export.path_open_lists (h : s.tree.WF) (hslots : SlotsExist s) {dirfd : UInt32}
    {path : List UInt8} {oflags : UInt16} {n : Nat}
    (hok : path_open host s dirfd path oflags = .ok (s', r))
    (ho : FileTable.getEntry s' n = some s.nextDescription)
    (hd : (s'.descriptions s.nextDescription).file = d) (hdir : (s'.files d).isDirectory) :
    s'.Lists s.nextDescription d (s.listing d) 0 ∧ s'.tree = s.tree ∧ s.tree.forest.Linked d := by
  obtain ⟨ret, hopen, rfl⟩ := Export.path_open_ok hok
  rcases Syscall.openat2_cases h host dirfd.toNat (cstr path) oflags.toNat 0 with
    ⟨e, s₂, he, hfails⟩ | ⟨parent, leaf, c, child, hres, hopenable, hadd⟩ |
    ⟨parent, leaf, hi, -, hadd⟩
  · -- no description is new
    rw [he] at hopen
    cases hopen
    have hold : FileTable.getEntry s n = some s.nextDescription := by
      rw [FileTable.getEntry, ← hfails.unchanged.table]
      exact ho
    exact absurd (hslots hold) (Nat.lt_irrefl _)
  · rw [hadd] at hopen
    obtain ⟨-, closee, hset⟩ := FileTable.addEntry_ok hopen
    obtain ⟨uses, hdesc⟩ := FileTable.setEntry_description hset s.nextDescription
    have hsame := FileTable.addEntry_sameFiles hopen
    have htree := hsame.tree.trans (Syscall.opened_tree s child oflags.toNat)
    obtain rfl : child = d := by
      obtain ⟨dirents, hself⟩ := Syscall.opened_self s child oflags.toNat
      rw [hdesc, hself] at hd
      exact hd
    have hdir₀ : (s.files child).isDirectory := by
      rw [← File.node_isDirectory, ← State.tree_node, htree, State.tree_node,
        File.node_isDirectory] at hdir
      exact hdir
    rw [Syscall.opened_directory hopenable hdir₀] at hdesc
    refine ⟨⟨?_, ?_, ?_⟩, htree, hres.linked h⟩ <;> rw [hdesc]
    rfl
  · -- what is created is not a directory
    rw [hadd] at hopen
    obtain ⟨-, closee, hset⟩ := FileTable.addEntry_ok hopen
    obtain ⟨uses, hdesc⟩ := FileTable.setEntry_description hset s.nextDescription
    obtain ⟨dirents, hself⟩ := Syscall.created_self host s parent leaf oflags.toNat 0
    rw [hdesc, hself] at hd
    subst hd
    rw [(FileTable.addEntry_sameFiles hopen).files, Syscall.created_isDirectory] at hdir
    cases hdir

/-! ## Runs -/

/-- One call of `fd_readdir`: the room it had and what it left. -/
structure Reading where
  bufLen : UInt32
  bufused : Nat
  records : List Syscall.Record

/-- The entries that the calls delivered. -/
def delivered (readings : List Reading) : List Dirent :=
  readings.flatMap fun x => x.records.map Syscall.Record.entry

theorem delivered_append (readings : List Reading) (x : Reading) :
    delivered (readings ++ [x]) = delivered readings ++ x.records.map Syscall.Record.entry := by
  simp only [delivered, List.flatMap_append, List.flatMap_cons, List.flatMap_nil, List.append_nil]

/-- The runs from `s₁` on that list the description `o` of the directory `d` and make
other calls in between.  These do not seek through `o` and leave `d` linked. -/
inductive Listing (host : Host) (o : OpenId) (d : FileId) (s₁ : State) :
    List Reading → State → Prop where
  | nil : Listing host o d s₁ [] s₁
  | reads {s s' : State} {readings : List Reading} {fd bufLen : UInt32} {bufused : Nat}
      {records : List Syscall.Record} :
      Listing host o d s₁ readings s → FileTable.getEntry s fd.toNat = some o →
      Syscall.sizeofDirent ≤ bufLen.toNat →
      exec host s (.fd_readdir fd bufLen) = .ok (s', ⟨0, .records bufused records⟩) →
      Listing host o d s₁ (readings ++ [⟨bufLen, bufused, records⟩]) s'
  | other {s s' : State} {readings : List Reading} {c : Call} {r : Reply} :
      Listing host o d s₁ readings s → ¬ c.ListsThrough s o → ¬ c.SeeksThrough s o →
      exec host s c = .ok (s', r) → s'.tree.forest.Linked d → Listing host o d s₁ readings s'

/-- The calls list these entries: in order, up to the end once a call returns no bytes, and
in whole records inside their buffers. -/
structure ListedBy (listing : List Dirent) (readings : List Reading) : Prop where
  inOrder : delivered readings <+: listing
  complete : (∃ x ∈ readings, x.bufused = 0) → delivered readings = listing
  whole : ∀ x ∈ readings, x.bufused = Syscall.sizeofDirent * x.records.length
  inside : ∀ x ∈ readings, x.bufused ≤ x.bufLen.toNat

/-- A reading of the next entries. -/
theorem ListedBy.snoc {listing : List Dirent} {readings : List Reading} {bufLen : UInt32}
    {records : List Syscall.Record} (hl : ListedBy listing readings)
    (hroom : Syscall.sizeofDirent ≤ bufLen.toNat)
    (hinside : Syscall.sizeofDirent * records.length ≤ bufLen.toNat)
    (hentries : records.map Syscall.Record.entry =
      (listing.drop (delivered readings).length).take (bufLen.toNat / Syscall.sizeofDirent)) :
    ListedBy listing
      (readings ++ [⟨bufLen, Syscall.sizeofDirent * records.length, records⟩]) := by
  have hsizeof : Syscall.sizeofDirent = 280 := rfl
  obtain ⟨rest, hrest⟩ := hl.inOrder
  have hdrop : listing.drop (delivered readings).length = rest := by
    rw [← hrest, List.drop_left]
  rw [hdrop] at hentries
  have hboth : ∀ {P : Reading → Prop}, (∀ x ∈ readings, P x) →
      P ⟨bufLen, Syscall.sizeofDirent * records.length, records⟩ →
      ∀ x ∈ readings ++ [⟨bufLen, Syscall.sizeofDirent * records.length, records⟩], P x := by
    intro P hold hnew x hx
    rcases List.mem_append.mp hx with hx | hx
    · exact hold x hx
    · cases List.mem_singleton.mp hx
      exact hnew
  refine ⟨?_, ?_, hboth hl.whole rfl, hboth hl.inside hinside⟩
  · rw [delivered_append, hentries, ← hrest]
    exact (List.prefix_append_right_inj _).mpr (List.take_prefix ..)
  · -- after a call that returns no bytes nothing is left
    intro hzero
    have hnil : rest = [] := by
      obtain ⟨x, hx, hx0⟩ := hzero
      rcases List.mem_append.mp hx with hx | hx
      · have hall := hl.complete ⟨x, hx, hx0⟩
        rw [hall] at hrest
        exact List.append_cancel_left (hrest.trans (List.append_nil _).symm)
      · cases List.mem_singleton.mp hx
        have hlength := congrArg List.length hentries
        rw [List.length_map, List.length_take] at hlength
        simp only [hsizeof] at hx0 hroom hlength
        exact List.eq_nil_of_length_eq_zero (by omega)
    rw [delivered_append, hentries, hnil, List.take_nil, ← hrest, hnil]

/-- What holds all along a listing. -/
structure Listing.Invariant (host : Host) (o : OpenId) (d : FileId) (dirents : List Dirent)
    (readings : List Reading) (s : State) : Prop where
  reachable : Reachable host s
  exists_description : o < s.nextDescription
  isDirectory : (s.tree.node d).isDirectory
  linked : s.tree.forest.Linked d
  lists : some o ∈ s.table → s.Lists o d dirents (delivered readings).length
  listed : ListedBy dirents readings

theorem Listing.invariant {dirents : List Dirent} {readings : List Reading}
    (hrun : Listing host o d s₁ readings s) (hsize : dirents.length < 4294967296)
    (h₁ : Invariant host o d dirents [] s₁) : Invariant host o d dirents readings s := by
  induction hrun with
  | nil => exact h₁
  | @reads s s' readings fd bufLen bufused records _ ho hroom hok ih =>
      have hstep : Step host s (.fd_readdir fd bufLen) s' := ⟨_, hok⟩
      have hwf := ih.reachable.wf
      have htree := (exec_skeleton hwf rfl hok).tree
      have hdir : (s.files d).isDirectory := by
        rw [← File.node_isDirectory, ← State.tree_node]
        exact ih.isDirectory
      have hmem := FileTable.mem_table_iff.mpr ⟨_, ho⟩
      obtain ⟨records', hr, hinside, hentries, hlists⟩ := Export.fd_readdir_lists ho (ih.lists hmem)
        hdir ih.linked ih.listed.inOrder.length_le hsize hroom hok
      cases hr
      refine ⟨ih.reachable.tail trivial hstep, ?_, htree ▸ ih.isDirectory, htree ▸ ih.linked,
        fun _ => ?_, ih.listed.snoc hroom hinside hentries⟩
      · exact Nat.lt_of_lt_of_le ih.exists_description
          (exec_slots hwf ih.reachable.usesBalance.exist hok).next_le
      · rw [delivered_append, List.length_append, List.length_map]
        exact hlists
  | @other s s' readings c r _ hno hseeks hok hlinked ih =>
      have hstep : Step host s c s' := ⟨r, hok⟩
      have hwf := ih.reachable.wf
      have hslots : SlotsExist s := ih.reachable.usesBalance.exist
      have hpersists := hstep.persists hwf (hwf.lt_next_of_linked ih.linked)
      refine ⟨ih.reachable.tail trivial hstep, ?_, hpersists.isDirectory.trans ih.isDirectory,
        hlinked, fun ho' => ?_, ih.listed⟩
      · exact Nat.lt_of_lt_of_le ih.exists_description (exec_slots hwf hslots hok).next_le
      · have hdir : some o ∈ s.table → (s.files (s.descriptions o).file).isDirectory := by
          intro hmem
          rw [(ih.lists hmem).file, ← File.node_isDirectory, ← State.tree_node]
          exact ih.isDirectory
        obtain ⟨hmem, uses, hdesc⟩ := exec_keepsDescription hwf hslots ih.exists_description hdir
          hno hseeks ho' hok
        have hl := ih.lists hmem
        refine ⟨?_, ?_, ?_⟩ <;> rw [hdesc]
        · exact hl.file
        · exact hl.dirents
        · exact hl.position

/-- The calls that list a description of a directory deliver what the directory had when
it was opened, each entry once, in order and with short names.  The number of recorded
entries is a `size_t`. -/
theorem readdir_lists (h : Reachable host s) {dirfd : UInt32} {path : List UInt8}
    {oflags : UInt16} {n : Nat} {readings : List Reading}
    (hopen : exec host s (.path_open dirfd path oflags) = .ok (s₁, ⟨0, .fd n⟩))
    (ho : FileTable.getEntry s₁ n = some s.nextDescription)
    (hd : (s₁.descriptions s.nextDescription).file = d) (hdir : (s₁.files d).isDirectory)
    (hsize : (s.listing d).length < 4294967296)
    (hrun : Listing host s.nextDescription d s₁ readings s₂) :
    ListedBy (s.listing d) readings ∧ (s.listing d).Nodup ∧
      ((s.children d).map Prod.fst).Nodup ∧
      ∀ e ∈ s.listing d, e.name.length ≤ WASMFS_NAME_MAX := by
  have hwf := h.wf
  obtain ⟨hlists, htree, hlinked⟩ :=
    Export.path_open_lists hwf h.usesBalance.exist hopen ho hd hdir
  have hreach : Reachable host s₁ := h.tail trivial ⟨_, hopen⟩
  have hnil : ListedBy (s.listing d) [] := ⟨List.nil_prefix, nofun, nofun, nofun⟩
  have h₁ : Listing.Invariant host s.nextDescription d (s.listing d) [] s₁ := by
    refine ⟨hreach, hreach.usesBalance.exist ho, ?_, htree ▸ hlinked, fun _ => hlists, hnil⟩
    rw [State.tree_node, File.node_isDirectory]
    exact hdir
  refine ⟨(hrun.invariant hsize h₁).listed, State.listing_nodup hwf d, ?_,
    fun e he => State.listing_short h.shortNames he⟩
  rw [State.children_eq]
  exact hwf.names_nodup d

/-- The records of the root at the start, as two calls deliver them. -/
def rootRecords : List Syscall.Record × List Syscall.Record :=
  ([⟨⟨dot, .directory, some Init.root⟩, 1⟩, ⟨⟨dotdot, .directory, some Init.root⟩, 2⟩],
    [⟨⟨devName, .directory, some Init.dev⟩, 3⟩, ⟨⟨tmpName, .directory, some Init.tmp⟩, 4⟩])

set_option synthInstance.maxSize 512 in
/-- The root gets a new child between two calls that list it. -/
theorem readdir_lists_root : ∃ s s₁ s₂ readings,
    exec .still s (.path_open atFdCwd [slash] 0) = .ok (s₁, ⟨0, .fd 3⟩) ∧
    Listing .still s.nextDescription Init.root s₁ readings s₂ ∧
    (delivered readings).length = 4 ∧ ListedBy (s.listing Init.root) readings := by
  obtain ⟨s₁, r₁, hopen, rfl, ho₁, hd, hdir, s₂, r₂, hread₂, rfl, s₃, r₃, hcreate, hlinked, ho₃,
      s₄, r₄, hread₄, rfl⟩ :
      Returns (exec .still (init .still) (.path_open atFdCwd [slash] 0)) fun s₁ r₁ =>
        r₁ = ⟨0, .fd 3⟩ ∧
        FileTable.getEntry s₁ (3 : UInt32).toNat = some (init .still).nextDescription ∧
        (s₁.descriptions (init .still).nextDescription).file = Init.root ∧
        (s₁.files Init.root).isDirectory ∧
        Returns (exec .still s₁ (.fd_readdir 3 560)) fun s₂ r₂ =>
          r₂ = ⟨0, .records 560 rootRecords.1⟩ ∧
          Returns (exec .still s₂ (.path_create_directory 3 [97])) fun s₃ _ =>
            s₃.getParent Init.root ≠ none ∧
            FileTable.getEntry s₃ (3 : UInt32).toNat = some (init .still).nextDescription ∧
            Returns (exec .still s₃ (.fd_readdir 3 840)) fun _ r₄ =>
              r₄ = ⟨0, .records 560 rootRecords.2⟩ := by
    decide +kernel
  have hrun : Listing .still (init .still).nextDescription Init.root s₁
      [⟨560, 560, rootRecords.1⟩, ⟨840, 560, rootRecords.2⟩] s₄ := by
    refine .reads (.other (.reads .nil ho₁ (by decide) hread₂) ?_ ?_ hcreate
      hlinked) ho₃ (by decide) hread₄
    · rintro ⟨fd, bufLen, hc, -⟩
      cases hc
    · rintro ⟨fd, offset, whence, hc, -⟩
      cases hc
  have hsize : ((init .still).listing Init.root).length < 4294967296 := by decide +kernel
  exact ⟨init .still, s₁, s₄, _, hopen, hrun, rfl,
    (readdir_lists .refl hopen ho₁ hd hdir hsize hrun).1⟩

end WasmFS
