import WasmFS.Namespace.OpenFlags

/-!
# Reopening a file

`path_open` creates a file with the mode 0, so that nobody may read it, and no
export changes a mode.  The descriptor that the creating call returns works, but
once it is closed the data cannot be reached any more: whatever run follows, a
later `path_open` of the same path for reading is refused (`not_reopens`).
-/

namespace WasmFS

variable {host : Host}

/-- A call of `path_open` creates the regular file `f`, one of `fd_pwrite` stores the
bytes at its start, and one of `fd_close` closes it. -/
structure StoredAndClosed (host : Host) (s₀ s₁ s₂ s₃ : State) (dirfd : UInt32)
    (path : List UInt8) (oflags : UInt16) (parent : FileId) (leaf : Name) (fd : UInt32)
    (f : FileId) (iov : CIovec) : Prop where
  reachable : Reachable host s₀
  parsed : (Path.parseParent s₀ (cstr path) dirfd.toNat).2 = .ok (parent, leaf)
  absent : s₀.tree.lookup parent leaf = none
  opened : Export.path_open host s₀ dirfd path oflags = .ok (s₁, ⟨0, .fd fd.toNat⟩)
  present : s₁.tree.lookup parent leaf = some f
  regular : (s₁.files f).buffer? ≠ none
  not_null : iov.isNull = false
  nonempty : iov.bytes ≠ []
  written : Export.fd_pwrite host s₁ fd [iov] 0 = .ok (s₂, ⟨0, .written iov.bytes.length⟩)
  closed : Export.fd_close s₂ fd = .ok (s₃, ⟨0, .nothing⟩)

/-- The path does not lead to another file than `f`. -/
def LeadsOnlyTo (s : State) (dirfd : UInt32) (path : List UInt8) (f : FileId) : Prop :=
  ∀ {parent leaf c child}, Syscall.Resolves s (cstr path) dirfd.toNat parent leaf c child →
    child = f

/-- `path_open` for reading returns a descriptor, and `fd_pread` at its start
delivers the bytes. -/
def Reopens (host : Host) (s : State) (dirfd : UInt32) (path b : List UInt8) : Prop :=
  ∃ s₁ s₂ fd o, Export.path_open host s dirfd path 0 = .ok (s₁, ⟨0, .fd fd.toNat⟩) ∧
    FileTable.getEntry s₁ fd.toNat = some o ∧
    Export.fd_pread host s₁ fd [{ len := UInt32.ofNat b.length }] 0 =
      .ok (s₂, ⟨0, .read b.length b⟩)

/-- A file without read permission is not opened for reading. -/
theorem not_reopens_of_not_readable {s : State} (h : Reachable host s) {dirfd : UInt32}
    {path b : List UInt8} {f : FileId} (hleads : LeadsOnlyTo s dirfd path f)
    (hr : (s.files f).readable = false) : ¬ Reopens host s dirfd path b := by
  intro hreopens
  obtain ⟨s₁, s₂, fd, o, hopen, ho, -⟩ := hreopens
  have hs₁ : Reachable host s₁ := h.tail trivial ⟨_, hopen⟩ (a := .path_open dirfd path 0)
  obtain ⟨ret, hrun, hreply⟩ := Export.path_open_ok hopen
  have hout : Out.fd fd.toNat = .fd (u32 ret) := congrArg Reply.out hreply
  injection hout with hfd
  rcases Syscall.openat2_cases h.wf host dirfd.toNat (cstr path) (0 : UInt16).toNat 0 with
    ⟨e, s', he, -⟩ | ⟨parent, leaf, c, child, hres, hopenable, -⟩ | ⟨parent, leaf, -, hcreat, -⟩
  · -- an error is no descriptor
    rw [he] at hrun
    cases hrun
    have hrefuses : Refuses ⟨0, .fd fd.toNat⟩ e := congrArg Out.fd hfd
    exact hs₁.usesBalance.not_opens_of_refuses hrefuses _ ⟨fd.toNat, o, rfl, ho, rfl⟩
  · obtain rfl := hleads hres
    exact Bool.false_ne_true (hr.symm.trans (hopenable.readable (Or.inl rfl)))
  · cases hcreat

namespace StoredAndClosed

variable {s₀ s₁ s₂ s₃ : State} {dirfd : UInt32} {path : List UInt8} {oflags : UInt16}
  {parent : FileId} {leaf : Name} {fd : UInt32} {f : FileId} {iov : CIovec}

theorem reachable_opened
    (h : StoredAndClosed host s₀ s₁ s₂ s₃ dirfd path oflags parent leaf fd f iov) :
    Reachable host s₁ :=
  h.reachable.tail trivial ⟨_, h.opened⟩ (a := .path_open dirfd path oflags)

theorem reachableFrom_closed
    (h : StoredAndClosed host s₀ s₁ s₂ s₃ dirfd path oflags parent leaf fd f iov) :
    ReachableFrom host s₁ s₃ := by
  have hwritten : Step host s₁ (.fd_pwrite fd [iov] 0) s₂ := ⟨_, h.written⟩
  have hclosed : Step host s₂ (.fd_close fd) s₃ := ⟨_, h.closed⟩
  exact (Transition.Reach.refl.tail trivial hwritten).tail trivial hclosed

/-- The file can never be read again. -/
theorem not_readable
    (h : StoredAndClosed host s₀ s₁ s₂ s₃ dirfd path oflags parent leaf fd f iov) {s₄ : State}
    (hlater : ReachableFrom host s₃ s₄) :
    Reachable host s₄ ∧ (s₄.files f).readable = false := by
  have hs₁ := h.reachable_opened
  have hrun : ReachableFrom host s₁ s₄ := h.reachableFrom_closed.trans hlater
  have hs₄ : Reachable host s₄ := hs₁.trans hrun
  have hlinked := hs₁.wf.linked_of_found h.present
  have hpersists := hrun.persists hs₁.wf (hs₁.wf.lt_next_of_linked hlinked)
  have hregular : (s₄.files f).node.isRegular := by
    have hf := (File.isRegular_iff (s₁.files f)).mpr h.regular
    exact hpersists.isRegular.trans hf
  exact ⟨hs₄, (hs₄.regular_guarded ((File.isRegular_iff _).mp hregular)).1⟩

end StoredAndClosed

/-- Whatever run follows, the data is not read back by opening the path again. -/
theorem not_reopens {s₀ s₁ s₂ s₃ s₄ : State} {dirfd : UInt32} {path : List UInt8}
    {oflags : UInt16} {parent : FileId} {leaf : Name} {fd : UInt32} {f : FileId} {iov : CIovec}
    (h : StoredAndClosed host s₀ s₁ s₂ s₃ dirfd path oflags parent leaf fd f iov)
    (hlater : ReachableFrom host s₃ s₄) (hleads : LeadsOnlyTo s₄ dirfd path f) :
    ¬ Reopens host s₄ dirfd path iov.bytes := by
  obtain ⟨hs₄, hr⟩ := h.not_readable hlater
  exact not_reopens_of_not_readable hs₄ hleads hr

/-! ## A run -/

/-- The path that names a regular file leads to it. -/
theorem LeadsOnlyTo.of_lookup {s : State} {dirfd : UInt32} {path : List UInt8} {parent f : FileId}
    {leaf : Name} (hp : (Path.parseParent s (cstr path) dirfd.toNat).2 = .ok (parent, leaf))
    (hl : s.tree.lookup parent leaf = some f) (ht : (s.files f).target? = none) :
    LeadsOnlyTo s dirfd path f := by
  intro parent' leaf' c child hres
  obtain ⟨rfl, rfl⟩ : parent = parent' ∧ leaf = leaf' := by
    have hpair := Except.ok.inj (hp.symm.trans hres.parsed)
    exact ⟨congrArg Prod.fst hpair, congrArg Prod.snd hpair⟩
  obtain rfl : f = c := Option.some.inj (hl.symm.trans hres.lookup)
  have htarget := hres.target
  simp only [Syscall.openTarget, ht] at htarget
  exact (Except.ok.inj htarget).symm

/-- `"hi"` -/
def greeting : CIovec := ⟨false, [104, 105], by decide⟩

set_option synthInstance.maxSize 4096 in
/-- `path_open` with `O_CREAT`, `fd_pwrite` and `fd_close` of a file in the root. -/
theorem storedAndClosed_greeting : ∃ s₀ s₁ s₂ s₃ f,
    StoredAndClosed .still s₀ s₁ s₂ s₃ 3 [102] 64 Init.root [102] 4 f greeting ∧
    LeadsOnlyTo s₃ 3 [102] f := by
  obtain ⟨s₀, replies, hok, hparsed, habsent, s₁, _, hopen, rfl, hf, hregular, s₂, _, hwrite,
      rfl, s₃, _, hclose, rfl, hparsed', hlookup, htarget⟩ :
      Returns (afterRun [.path_open atFdCwd [slash] 0]) fun s₀ _ =>
        (Path.parseParent s₀ (cstr [102]) (3 : UInt32).toNat).2.toOption =
          some (Init.root, [102]) ∧
        s₀.tree.lookup Init.root [102] = none ∧
        Returns (Export.path_open .still s₀ 3 [102] 64) fun s₁ r₁ => r₁ = ⟨0, .fd 4⟩ ∧
          s₁.tree.lookup Init.root [102] = some 9 ∧ (s₁.files 9).buffer? ≠ none ∧
          Returns (Export.fd_pwrite .still s₁ 4 [greeting] 0) fun s₂ r₂ => r₂ = ⟨0, .written 2⟩ ∧
            Returns (Export.fd_close s₂ 4) fun s₃ r₃ => r₃ = ⟨0, .nothing⟩ ∧
              (Path.parseParent s₃ (cstr [102]) (3 : UInt32).toNat).2.toOption =
                some (Init.root, [102]) ∧
              s₃.tree.lookup Init.root [102] = some 9 ∧ (s₃.files 9).target? = none := by
    decide +kernel
  refine ⟨s₀, s₁, s₂, s₃, 9, ⟨.of_afterRun hok, ok_of_toOption hparsed, habsent, hopen, hf,
    hregular, rfl, by decide, hwrite, hclose⟩, ?_⟩
  exact LeadsOnlyTo.of_lookup (ok_of_toOption hparsed') hlookup htarget

theorem not_reopens_greeting : ∃ s₀ s₁ s₂ s₃ f,
    StoredAndClosed .still s₀ s₁ s₂ s₃ 3 [102] 64 Init.root [102] 4 f greeting ∧
    ¬ Reopens .still s₃ 3 [102] greeting.bytes := by
  obtain ⟨s₀, s₁, s₂, s₃, f, h, hleads⟩ := storedAndClosed_greeting
  exact ⟨s₀, s₁, s₂, s₃, f, h, not_reopens h .refl hleads⟩

/-- The data is lost as soon as the descriptor is closed. -/
theorem not_reopens_closed : ¬ ∀ (host : Host) (s₀ s₁ s₂ s₃ : State) (dirfd : UInt32)
    (path : List UInt8) (oflags : UInt16) (parent : FileId) (leaf : Name) (fd : UInt32)
    (f : FileId) (iov : CIovec),
    StoredAndClosed host s₀ s₁ s₂ s₃ dirfd path oflags parent leaf fd f iov →
    LeadsOnlyTo s₃ dirfd path f → Reopens host s₃ dirfd path iov.bytes := by
  intro hall
  obtain ⟨s₀, s₁, s₂, s₃, f, h, hleads⟩ := storedAndClosed_greeting
  obtain ⟨hs₃, hr⟩ := h.not_readable .refl
  exact not_reopens_of_not_readable hs₃ hleads hr
    (hall .still s₀ s₁ s₂ s₃ 3 [102] 64 Init.root [102] 4 f greeting h hleads)

end WasmFS
