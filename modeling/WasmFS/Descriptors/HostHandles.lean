import Mathlib.Algebra.GroupWithZero.Nat
import WasmFS.Descriptors.Hooks
import WasmFS.Source.HostFiles

/-!
# The handles of the host that files share

A file of the Node backend or of the OPFS backend is opened and closed in any order,
and the host grants or refuses as it likes.  Every open that succeeded is closed at
most once.  That is all that is asked.  Then the host has one handle open while there
are users and none when there are none, the handle serves every user, and nothing is
closed twice (`NodeState.Runs.descriptor_held`,
`OpenState.Runs.handle_held`).

Both backends are pools in the sense of `Sharing`.  A step of the backend is a step of
the pool it shows.

The descriptor table keeps to what is asked (`closesOpened_of_run`).  So a file of the
Node backend has a descriptor of the host just while it is in the table
(`hostDescriptors_of_run`).
-/

namespace WasmFS

open Sharing (Pool Fits)

/-! ## Counting -/

theorem openCount_add {n : UInt32} {k : ℕ} (hn : n.toNat = k) (hk : k + 1 < 2 ^ 32) :
    (n + 1).toNat = k + 1 := by
  rw [UInt32.toNat_add, hn]
  exact Nat.mod_eq_of_lt hk

theorem openCount_sub {n : UInt32} {k : ℕ} (hn : n.toNat = k + 1) : (n - 1).toNat = k := by
  rw [UInt32.toNat_sub_of_le n 1 (UInt32.le_iff_toNat_le.mpr ?_), hn]
  · rfl
  · rw [hn]
    exact Nat.succ_le_succ (Nat.zero_le k)

theorem openCount_eq_zero {n : UInt32} {k : ℕ} (hn : n.toNat = k) : n = 0 ↔ k = 0 := by
  rw [← UInt32.toNat_inj, hn]
  rfl

theorem openCount_pos {n : UInt32} {k : ℕ} (hn : n.toNat = k) : 0 < n ↔ 0 < k := by
  rw [UInt32.lt_iff_toNat_lt, hn]
  rfl

/-- The access modes that `doOpen` lets through. -/
def AccessMode (flags : Nat) : Prop := flags = O_RDONLY ∨ flags = O_WRONLY ∨ flags = O_RDWR

instance (flags : Nat) : Decidable (AccessMode flags) := inferInstanceAs (Decidable (_ ∨ _))

/-! ## Node -/

/-- A descriptor in the mode does for an open with the flags. -/
structure NodeMode.Serves (m : NodeMode) (flags : Nat) : Prop where
  reads : flags ≠ O_WRONLY → m ≠ .w
  writes : flags ≠ O_RDONLY → m ≠ .r

theorem NodeMode.rPlus_serves (flags : Nat) : NodeMode.rPlus.Serves flags :=
  ⟨fun _ => by decide, fun _ => by decide⟩

namespace NodeState

/-- What the host grants is a descriptor that is not open. -/
def Grants (host : NodeMode → Int) (log : Requests) : Prop :=
  ∀ m t, 0 ≤ host m → Sharing.held log = some t → t (host m) = none

/-- The opens and closes of a file, the users that are left, and what the host was
granted, newest first. -/
inductive Runs : NodeState → Multiset Nat → Requests → Prop where
  | start : Runs {} 0 []
  | opened {s us log host flags ret s' reqs} : Runs s us log → AccessMode flags →
      us.card + 1 < 2 ^ 32 → Grants host log → s.open_ host flags = some (ret, s', reqs) →
      Runs s' (if ret = 0 then flags ::ₘ us else us) (reqs ++ log)
  | closed {s flags us log answer ret s' reqs} : Runs s (flags ::ₘ us) log →
      s.close answer = (ret, s', reqs) → Runs s' us (reqs ++ log)

variable {s s' : NodeState} {us : Multiset Nat} {p : Pool Int NodeMode Nat} {flags : Nat}
  {host : NodeMode → Int} {ret : Int} {log reqs : Requests}

theorem grants_of_held {t : Int → Option NodeMode} (a : Int) (hlog : Sharing.held log = some t)
    (hfree : t a = none) : Grants (fun _ => a) log := by
  intro m t' _ ht'
  obtain rfl := Option.some.inj (hlog.symm.trans ht')
  exact hfree

/-- The pool that the state of a file shows. -/
structure Shows (s : NodeState) (p : Pool Int NodeMode Nat) : Prop where
  count : s.openCount.toNat = p.users.card
  closed : p.users = 0 → s = {}
  fd : ∀ {h m}, p.handle = some (h, m) → s.fd = h
  /-- The mode is the one of the flags, unless the descriptor was replaced. -/
  mode : ∀ {h m}, p.handle = some (h, m) →
    m = .rPlus ∨ (m = .r ∧ s.openFlags = O_RDONLY) ∨ (m = .w ∧ s.openFlags = O_WRONLY)

theorem modeOf_cases {m : NodeMode} (h : modeOf flags = some m) :
    m = .rPlus ∨ (m = .r ∧ flags = O_RDONLY) ∨ (m = .w ∧ flags = O_WRONLY) := by
  unfold modeOf at h
  split at h
  · rename_i hf
    cases h
    exact .inr (.inl ⟨rfl, hf⟩)
  split at h
  · rename_i hf
    cases h
    exact .inr (.inr ⟨rfl, hf⟩)
  split at h
  · cases h
    exact .inl rfl
  · cases h

theorem modeOf_serves {m : NodeMode} (h : modeOf flags = some m) : m.Serves flags := by
  rcases modeOf_cases h with rfl | ⟨rfl, rfl⟩ | ⟨rfl, rfl⟩
  · exact NodeMode.rPlus_serves flags
  · exact ⟨fun _ => by decide, fun h => absurd rfl h⟩
  · exact ⟨fun h => absurd rfl h, fun _ => by decide⟩

/-- The ways an open ends. -/
inductive Opened (host : NodeMode → Int) (s : NodeState) (flags : Nat) :
    Int → NodeState → Requests → Prop where
  | refused {err : Int} : err < 0 → Opened host s flags err s []
  | first {m : NodeMode} : s.openCount = 0 → modeOf flags = some m →
      Opened host s flags 0 ⟨s.openCount + 1, flags, host m⟩ [.acquire (host m) m]
  | replaced : s.openCount ≠ 0 → 0 ≤ host .rPlus →
      Opened host s flags 0 ⟨s.openCount + 1, flags, host .rPlus⟩
        [.release s.fd, .acquire (host .rPlus) .rPlus]
  | reused : s.openCount ≠ 0 → ¬ s.NeedsMore flags →
      Opened host s flags 0 { s with openCount := s.openCount + 1 } []

theorem open_opened (h : s.open_ host flags = some (ret, s', reqs)) :
    Opened host s flags ret s' reqs := by
  unfold open_ at h
  split at h
  · rename_i hcount
    split at h
    · cases h
    rename_i m hm
    split at h
    · rename_i hneg
      cases h
      exact .refused hneg
    · cases h
      exact .first hcount hm
  rename_i hcount
  split at h
  · split at h
    · rename_i hneg
      cases h
      exact .refused hneg
    · rename_i hneg
      cases h
      exact .replaced hcount (Int.not_lt.mp hneg)
  · rename_i hmore
    cases h
    exact .reused hcount hmore

/-- A descriptor that need not be replaced does for one more open. -/
theorem serves_of_not_needsMore (hf : AccessMode flags) (hmore : ¬ s.NeedsMore flags)
    {m : NodeMode}
    (hm : m = .rPlus ∨ (m = .r ∧ s.openFlags = O_RDONLY) ∨ (m = .w ∧ s.openFlags = O_WRONLY)) :
    m.Serves flags := by
  rcases hm with rfl | ⟨rfl, hopen⟩ | ⟨rfl, hopen⟩
  · exact NodeMode.rPlus_serves flags
  · refine ⟨fun _ => by decide, fun hne => ?_⟩
    rcases hf with hf | hf | hf
    · exact absurd hf hne
    · exact absurd (.inl ⟨hopen, .inl hf⟩) hmore
    · exact absurd (.inl ⟨hopen, .inr hf⟩) hmore
  · refine ⟨fun hne => ?_, fun _ => by decide⟩
    rcases hf with hf | hf | hf
    · exact absurd (.inr ⟨hopen, .inl hf⟩) hmore
    · exact absurd hf hne
    · exact absurd (.inr ⟨hopen, .inr hf⟩) hmore

/-- An open of a file is a step of its pool. -/
theorem Shows.open_ (hs : s.Shows p) (hp : Fits NodeMode.Serves p log) (hf : AccessMode flags)
    (hcard : p.users.card + 1 < 2 ^ 32) (hgrants : Grants host log)
    (hok : s.open_ host flags = some (ret, s', reqs)) :
    ∃ p', p'.users = (if ret = 0 then flags ::ₘ p.users else p.users) ∧
      Sharing.Step NodeMode.Serves p reqs p' ∧ s'.Shows p' := by
  obtain ⟨us, hd⟩ := p
  have hzero : s.openCount = 0 ↔ us = 0 :=
    (openCount_eq_zero hs.count).trans Multiset.card_eq_zero
  have hcount : (s.openCount + 1).toNat = (flags ::ₘ us).card := by
    rw [openCount_add hs.count hcard, Multiset.card_cons]
  have hused : hd = none ↔ us = 0 := hp.used
  have hne : flags ::ₘ us ≠ 0 := Multiset.cons_ne_zero
  have hsome : s.openCount ≠ 0 → ∃ h m, hd = some (h, m) := by
    intro hopen
    obtain ⟨⟨h, m⟩, hq⟩ :=
      Option.ne_none_iff_exists'.mp fun h => hopen (hzero.mpr (hused.mp h))
    exact ⟨h, m, hq⟩
  cases open_opened hok with
  | refused hneg => exact ⟨⟨us, hd⟩, by rw [if_neg (Int.ne_of_lt hneg)], .stay, hs⟩
  | @first m hopen hm =>
      obtain rfl := hzero.mp hopen
      obtain rfl := hused.mpr rfl
      refine ⟨⟨{flags}, some (host m, m)⟩, rfl, .first (modeOf_serves hm), hcount, ?_, ?_, ?_⟩
      · exact fun h => absurd h (Multiset.singleton_ne_zero flags)
      · intro h m' heq
        cases heq
        rfl
      · intro h m' heq
        cases heq
        exact modeOf_cases hm
  | replaced hopen hpos =>
      obtain ⟨h, m, rfl⟩ := hsome hopen
      have hfresh : host .rPlus ≠ h := by
        intro heq
        have hnone := hgrants .rPlus _ hpos hp.held
        rw [heq, Sharing.only_some_self] at hnone
        cases hnone
      obtain rfl := hs.fd rfl
      refine ⟨⟨flags ::ₘ us, some (host .rPlus, .rPlus)⟩, rfl,
        .swap hfresh (NodeMode.rPlus_serves flags) fun b _ => NodeMode.rPlus_serves b,
        hcount, fun h => absurd h hne, ?_, ?_⟩
      · intro h' m' heq
        cases heq
        rfl
      · intro h' m' heq
        cases heq
        exact .inl rfl
  | reused hopen hmore =>
      obtain ⟨h, m, rfl⟩ := hsome hopen
      exact ⟨⟨flags ::ₘ us, some (h, m)⟩, rfl,
        .join (serves_of_not_needsMore hf hmore (hs.mode rfl)), hcount, fun h => absurd h hne,
        hs.fd, hs.mode⟩

/-- A close of a file is a step of its pool. -/
theorem Shows.close {answer : Int} (hs : s.Shows p) (hp : Fits NodeMode.Serves p log)
    (hu : p.users = flags ::ₘ us) (hok : s.close answer = (ret, s', reqs)) :
    ∃ p', p'.users = us ∧ Sharing.Step NodeMode.Serves p reqs p' ∧ s'.Shows p' := by
  obtain ⟨us', hd⟩ := p
  obtain rfl : us' = flags ::ₘ us := hu
  have hcount : (s.openCount - 1).toNat = us.card :=
    openCount_sub (hs.count.trans (Multiset.card_cons ..))
  have hzero : s.openCount - 1 = 0 ↔ us = 0 :=
    (openCount_eq_zero hcount).trans Multiset.card_eq_zero
  have hused : hd ≠ none := fun h => Multiset.cons_ne_zero (hp.used.mp h)
  obtain ⟨⟨h, m⟩, rfl⟩ := Option.ne_none_iff_exists'.mp hused
  unfold NodeState.close at hok
  split at hok
  · -- the last user
    rename_i hlast
    obtain rfl := hzero.mp hlast
    obtain rfl := hs.fd rfl
    cases hok
    exact ⟨⟨0, none⟩, rfl, .last, rfl, fun _ => rfl, fun h => (by cases h), fun h => (by cases h)⟩
  · rename_i hlast
    cases hok
    have hus : us ≠ 0 := fun h => hlast (hzero.mpr h)
    exact ⟨⟨us, some (h, m)⟩, rfl, .leave hus, hcount, fun h => absurd h hus, hs.fd, hs.mode⟩

namespace Runs

/-- In every state the file shows a pool that fits what the host was granted. -/
theorem fits (h : Runs s us log) :
    ∃ p, p.users = us ∧ s.Shows p ∧ Fits NodeMode.Serves p log := by
  induction h with
  | start =>
      refine ⟨⟨0, none⟩, rfl, ⟨rfl, fun _ => rfl, ?_, ?_⟩, .start⟩ <;> intro h m heq <;> cases heq
  | opened _ hf hcard hgrants hok ih =>
      obtain ⟨p, rfl, hs, hp⟩ := ih
      obtain ⟨p', hu, hstep, hs'⟩ := hs.open_ hp hf hcard hgrants hok
      exact ⟨p', hu, hs', hp.step hstep⟩
  | closed _ hok ih =>
      obtain ⟨p, hu, hs, hp⟩ := ih
      obtain ⟨p', hu', hstep, hs'⟩ := hs.close hp hu hok
      exact ⟨p', hu', hs', hp.step hstep⟩

/-- The host never closes what is not open.  While there are users it has one
descriptor open, the one that they read and write through, and it does for all of
them.  Without users it has none, and the file is as it was at the start. -/
theorem descriptor_held (h : Runs s us log) :
    ∃ t, Sharing.held log = some t ∧ s.openCount.toNat = us.card ∧
      (us = 0 → s = {} ∧ ∀ fd, t fd = none) ∧
      ∀ flags ∈ us, ∃ fd m, NodeFile.read s = some fd ∧ NodeFile.write s = some fd ∧
        NodeFile.getSize s = some (some fd) ∧ t fd = some m ∧ m.Serves flags ∧
        ∀ fd', fd' ≠ fd → t fd' = none := by
  obtain ⟨p, rfl, hs, hp⟩ := h.fits
  refine ⟨_, hp.held, hs.count, fun hu => ⟨hs.closed hu, fun fd => ?_⟩, fun flags hmem => ?_⟩
  · rw [hp.used.mpr hu]
    exact Sharing.only_none fd
  · obtain ⟨fd, m, hd, -, hserves⟩ := hp.of_mem hmem
    have hpos : 0 < s.openCount :=
      (openCount_pos hs.count).mpr (Multiset.card_pos_iff_exists_mem.mpr ⟨flags, hmem⟩)
    have hfd : s.getFD = some fd := by rw [getFD, if_pos hpos, hs.fd hd]
    refine ⟨fd, m, hfd, hfd, ?_, ?_, hserves, fun fd' hne => ?_⟩
    · rw [NodeFile.getSize, isOpen, if_pos (decide_eq_true hpos), hfd]
      rfl
    · rw [hd, Sharing.only_some_self]
    · rw [hd, Sharing.only_some_of_ne m hne]

/-- A file opened for reading, and then for writing as well. -/
theorem descriptor_held_replaced :
    ∃ t, Sharing.held ([.release 5, .acquire 7 .rPlus, .acquire 5 .r] : Requests) = some t ∧
      t 7 = some .rPlus ∧ t 5 = none := by
  have hfirst : Runs ⟨1, O_RDONLY, 5⟩ {O_RDONLY} [.acquire 5 .r] :=
    .opened .start (.inl rfl) (by decide) (grants_of_held 5 rfl rfl) rfl
  have hboth : Runs ⟨2, O_WRONLY, 7⟩ (O_WRONLY ::ₘ {O_RDONLY})
      [.release 5, .acquire 7 .rPlus, .acquire 5 .r] :=
    .opened hfirst (.inr (.inl rfl)) (by decide) (grants_of_held 7 rfl rfl) rfl
  obtain ⟨t, ht, -, -, hall⟩ := descriptor_held hboth
  obtain ⟨fd, m, hfd, -, -, -, -, hothers⟩ := hall O_WRONLY (Multiset.mem_cons_self ..)
  obtain rfl := Option.some.inj hfd
  refine ⟨t, ht, ?_, hothers 5 (by decide)⟩
  cases ht
  rfl

end Runs

end NodeState

/-! ## OPFS -/

/-- A handle of the kind does for an open with the flags. -/
def OpenKind.Serves (k : OpenKind) (flags : Nat) : Prop :=
  k = .access ∨ (k = .blob ∧ flags = O_RDONLY)

theorem OpenKind.Serves.ne_none {k : OpenKind} {flags : Nat} (h : k.Serves flags) :
    k ≠ .none := by
  rintro rfl
  rcases h with h | ⟨h, -⟩ <;> cases h

namespace OpenState

/-- The opens and closes of a file, the users that are left, and what the host was
granted, newest first. -/
inductive Runs : OpenState → Multiset Nat → Requests → Prop where
  | start : Runs {} 0 []
  | opened {s us log host flags ret s' reqs} : Runs s us log → AccessMode flags →
      us.card + 1 < 2 ^ 32 → s.open_ host flags = some (ret, s', reqs) →
      Runs s' (if ret = 0 then flags ::ₘ us else us) (reqs ++ log)
  | closed {s flags us log answer ret s' reqs} : Runs s (flags ::ₘ us) log →
      s.close answer = some (ret, s', reqs) → Runs s' us (reqs ++ log)

variable {s s' : OpenState} {us : Multiset Nat} {p : Pool OpfsHandle OpenKind Nat} {flags : Nat}
  {host : OpenKind → Int} {ret : Int} {log reqs : Requests}

/-- The pool that the state of a file shows. -/
structure Shows (s : OpenState) (p : Pool OpfsHandle OpenKind Nat) : Prop where
  count : s.openCount.toNat = p.users.card
  closed : p.users = 0 → s.kind = .none
  handle : ∀ {h m}, p.handle = some (h, m) → h = (s.kind, s.id) ∧ m = s.kind ∧ 0 ≤ s.id

/-- The ways an open ends. -/
inductive Opened (host : OpenKind → Int) (s : OpenState) (flags : Nat) :
    Int → OpenState → Requests → Prop where
  | refused {err id : Int} : err < 0 → (s.kind ≠ .none → id = s.id) →
      Opened host s flags err { s with id := id } []
  | first {k : OpenKind} : s.kind = .none → k.Serves flags → 0 ≤ host k →
      Opened host s flags 0 ⟨k, host k, s.openCount + 1⟩ [.acquire (k, host k) k]
  | upgraded : s.kind = .blob → 0 ≤ host .access →
      Opened host s flags 0 ⟨.access, host .access, s.openCount + 1⟩
        [.release (.blob, s.id), .acquire (.access, host .access) .access]
  | reused : s.kind ≠ .none → ¬ (s.kind = .blob ∧ (flags = O_WRONLY ∨ flags = O_RDWR)) →
      Opened host s flags 0 { s with openCount := s.openCount + 1 } []

theorem openAs_opened {k : OpenKind} (hkind : s.kind = .none) (hk : k.Serves flags)
    (h : s.openAs host k = (ret, s', reqs)) : Opened host s flags ret s' reqs := by
  unfold openAs at h
  split at h
  · rename_i hneg
    cases h
    exact .refused hneg fun hne => absurd hkind hne
  · rename_i hneg
    cases h
    exact .first hkind hk (Int.not_lt.mp hneg)

theorem getBlobID_eq_some {id : Int} (h : s.getBlobID = some id) : id = s.id := by
  unfold getBlobID at h
  split at h
  · exact (Option.some.inj h).symm
  · cases h

theorem open_opened (h : s.open_ host flags = some (ret, s', reqs)) :
    Opened host s flags ret s' reqs := by
  unfold open_ at h
  split at h
  · rename_i hkind
    split at h
    · cases h
    split at h
    · exact openAs_opened hkind (.inl rfl) (Option.some.inj h)
    split at h
    · rename_i hflags
      exact openAs_opened hkind (.inr ⟨rfl, hflags⟩) (Option.some.inj h)
    · cases h
  rename_i hkind
  split at h
  · rename_i hmore
    split at h
    · rename_i hneg
      cases h
      exact .refused hneg fun _ => rfl
    · rename_i hneg
      obtain ⟨blob, hblob, heq⟩ := Option.map_eq_some_iff.mp h
      cases heq
      rw [getBlobID_eq_some hblob]
      exact .upgraded hmore.1 (Int.not_lt.mp hneg)
  · rename_i hmore
    cases h
    exact .reused hkind hmore

/-- An open of a file is a step of its pool. -/
theorem Shows.open_ (hs : s.Shows p) (hp : Fits OpenKind.Serves p log) (hf : AccessMode flags)
    (hcard : p.users.card + 1 < 2 ^ 32) (hok : s.open_ host flags = some (ret, s', reqs)) :
    ∃ p', p'.users = (if ret = 0 then flags ::ₘ p.users else p.users) ∧
      Sharing.Step OpenKind.Serves p reqs p' ∧ s'.Shows p' := by
  obtain ⟨us, hd⟩ := p
  have hcount : (s.openCount + 1).toNat = (flags ::ₘ us).card := by
    rw [openCount_add hs.count hcard, Multiset.card_cons]
  have hused : hd = none ↔ us = 0 := hp.used
  have hne : flags ::ₘ us ≠ 0 := Multiset.cons_ne_zero
  have hsome : s.kind ≠ .none → hd = some ((s.kind, s.id), s.kind) := by
    intro hkind
    obtain ⟨⟨h, m⟩, rfl⟩ :=
      Option.ne_none_iff_exists'.mp fun h => hkind (hs.closed (hused.mp h))
    obtain ⟨rfl, rfl, -⟩ := hs.handle rfl
    rfl
  have hnone : s.kind = .none → us = 0 := by
    intro hkind
    by_contra hus
    obtain ⟨⟨h, m⟩, rfl⟩ := Option.ne_none_iff_exists'.mp fun h => hus (hused.mp h)
    obtain ⟨a, ha⟩ := Multiset.exists_mem_of_ne_zero hus
    obtain ⟨rfl, rfl, -⟩ := hs.handle rfl
    exact (hp.serves rfl a ha).ne_none hkind
  cases open_opened hok with
  | refused hneg hid =>
      refine ⟨⟨us, hd⟩, by rw [if_neg (Int.ne_of_lt hneg)], .stay, hs.count, hs.closed, ?_⟩
      intro h m heq
      obtain ⟨rfl, rfl, hpos⟩ := hs.handle heq
      have hkind : s.kind ≠ .none := by
        intro hkind
        rw [hused.mpr (hnone hkind)] at heq
        cases heq
      rw [hid hkind]
      exact ⟨rfl, rfl, hpos⟩
  | @first k hkind hk hpos =>
      obtain rfl := hnone hkind
      obtain rfl := hused.mpr rfl
      refine ⟨⟨{flags}, some ((k, host k), k)⟩, rfl, .first hk, hcount, ?_, ?_⟩
      · exact fun h => absurd h (Multiset.singleton_ne_zero flags)
      · intro h m heq
        cases heq
        exact ⟨rfl, rfl, hpos⟩
  | upgraded hkind hpos =>
      have hhd := hsome (by rw [hkind]; decide)
      rw [hkind] at hhd
      obtain rfl := hhd
      refine ⟨⟨flags ::ₘ us, some ((.access, host .access), .access)⟩, rfl,
        .swap ?_ (.inl rfl) fun b _ => .inl rfl, hcount, fun h => absurd h hne, ?_⟩
      · -- the two kinds of handle are numbered apart
        intro heq
        cases heq
      · intro h m heq
        cases heq
        exact ⟨rfl, rfl, hpos⟩
  | reused hkind hmore =>
      obtain rfl := hsome hkind
      have hserves : s.kind.Serves flags := by
        cases hk : s.kind with
        | none => exact absurd hk hkind
        | access => exact .inl rfl
        | blob =>
            refine .inr ⟨rfl, ?_⟩
            rcases hf with hf | hf | hf
            · exact hf
            · exact absurd ⟨hk, .inl hf⟩ hmore
            · exact absurd ⟨hk, .inr hf⟩ hmore
      exact ⟨⟨flags ::ₘ us, some ((s.kind, s.id), s.kind)⟩, rfl, .join hserves, hcount,
        fun h => absurd h hne, hs.handle⟩

/-- A close of a file is a step of its pool. -/
theorem Shows.close {answer : Int} (hs : s.Shows p) (hp : Fits OpenKind.Serves p log)
    (hu : p.users = flags ::ₘ us) (hok : s.close answer = some (ret, s', reqs)) :
    ∃ p', p'.users = us ∧ Sharing.Step OpenKind.Serves p reqs p' ∧ s'.Shows p' := by
  obtain ⟨us', hd⟩ := p
  obtain rfl : us' = flags ::ₘ us := hu
  have hcount : (s.openCount - 1).toNat = us.card :=
    openCount_sub (hs.count.trans (Multiset.card_cons ..))
  have hzero : s.openCount - 1 = 0 ↔ us = 0 :=
    (openCount_eq_zero hcount).trans Multiset.card_eq_zero
  have hused : hd ≠ none := fun h => Multiset.cons_ne_zero (hp.used.mp h)
  obtain ⟨⟨h, m⟩, rfl⟩ := Option.ne_none_iff_exists'.mp hused
  obtain ⟨rfl, rfl, -⟩ := hs.handle rfl
  unfold OpenState.close at hok
  split at hok
  · rename_i hlast
    obtain rfl := hzero.mp hlast
    have hempty : Shows {} (⟨0, none⟩ : Pool OpfsHandle OpenKind Nat) :=
      ⟨rfl, fun _ => rfl, fun h => by cases h⟩
    split at hok
    · rename_i hkind
      cases hok
      rw [hkind]
      exact ⟨⟨0, none⟩, rfl, .last, hempty⟩
    · rename_i hkind
      cases hok
      rw [hkind]
      exact ⟨⟨0, none⟩, rfl, .last, hempty⟩
    · cases hok
  · rename_i hlast
    cases hok
    have hus : us ≠ 0 := fun h => hlast (hzero.mpr h)
    exact ⟨⟨us, some ((s.kind, s.id), s.kind)⟩, rfl, .leave hus, hcount,
      fun h => absurd h hus, hs.handle⟩

/-- A file that is not open can be opened, and so can one with a handle. -/
theorem Shows.open_isSome (hs : s.Shows p) (hp : Fits OpenKind.Serves p log)
    (hf : AccessMode flags) (host : OpenKind → Int) : (s.open_ host flags).isSome := by
  cases hd : p.handle with
  | none =>
      have hu := hp.used.mp hd
      have hcount : s.openCount = 0 := (openCount_eq_zero hs.count).mpr (by rw [hu]; rfl)
      rcases hf with rfl | rfl | rfl <;>
        simp [OpenState.open_, hs.closed hu, hcount, O_RDONLY, O_WRONLY, O_RDWR]
  | some q =>
      obtain ⟨h, m⟩ := q
      obtain ⟨rfl, rfl, hid⟩ := hs.handle hd
      have hu : p.users ≠ 0 := by
        rw [Ne, ← hp.used, hd]
        exact Option.some_ne_none _
      have hpos : 0 < s.openCount := (openCount_pos hs.count).mpr (Multiset.card_pos.mpr hu)
      cases hk : s.kind with
      | none =>
          obtain ⟨a, ha⟩ := Multiset.exists_mem_of_ne_zero hu
          exact absurd hk (hp.serves hd a ha).ne_none
      | access => simp [OpenState.open_, hk]
      | blob =>
          simp only [OpenState.open_, hk, getBlobID, hpos, hid, true_and, and_self, if_true]
          split
          · split <;> rfl
          · rfl

namespace Runs

/-- In every state the file shows a pool that fits what the host was granted. -/
theorem fits (h : Runs s us log) :
    ∃ p, p.users = us ∧ s.Shows p ∧ Fits OpenKind.Serves p log := by
  induction h with
  | start => exact ⟨⟨0, none⟩, rfl, ⟨rfl, fun _ => rfl, fun h => by cases h⟩, .start⟩
  | opened _ hf hcard hok ih =>
      obtain ⟨p, rfl, hs, hp⟩ := ih
      obtain ⟨p', hu, hstep, hs'⟩ := hs.open_ hp hf hcard hok
      exact ⟨p', hu, hs', hp.step hstep⟩
  | closed _ hok ih =>
      obtain ⟨p, hu, hs, hp⟩ := ih
      obtain ⟨p', hu', hstep, hs'⟩ := hs.close hp hu hok
      exact ⟨p', hu', hs', hp.step hstep⟩

/-- The host never closes what is not open, and every file can be opened once more.
While there are users the host has one handle open, which does for all of them and
which they read through.  Those that may write have an access handle.  Without users
it has none. -/
theorem handle_held (h : Runs s us log) :
    ∃ t, Sharing.held log = some t ∧ s.openCount.toNat = us.card ∧
      (us = 0 → s.kind = .none ∧ ∀ h, t h = none) ∧
      (∀ host flags, AccessMode flags → (s.open_ host flags).isSome) ∧
      ∀ flags ∈ us, ∃ h k, t h = some k ∧ k.Serves flags ∧ (∀ h', h' ≠ h → t h' = none) ∧
        (∀ answer, (s.close answer).isSome) ∧ OPFSFile.read s = some (.handle h) ∧
        OPFSFile.getSize s = some (.handle h) ∧
        (flags ≠ O_RDONLY → OPFSFile.write s = some (.handle h) ∧
          OPFSFile.setSize s = some (.handle h) ∧ OPFSFile.flush s = some (.handle h)) := by
  obtain ⟨p, rfl, hs, hp⟩ := h.fits
  refine ⟨_, hp.held, hs.count, fun hu => ⟨hs.closed hu, fun fd => ?_⟩,
    fun host flags hf => hs.open_isSome hp hf host, fun flags hmem => ?_⟩
  · rw [hp.used.mpr hu]
    exact Sharing.only_none fd
  obtain ⟨h, m, hd, -, hserves⟩ := hp.of_mem hmem
  obtain ⟨rfl, rfl, hid⟩ := hs.handle hd
  have hpos : 0 < s.openCount :=
    (openCount_pos hs.count).mpr (Multiset.card_pos_iff_exists_mem.mpr ⟨flags, hmem⟩)
  have hhandle := Sharing.only_some_self (s.kind, s.id) s.kind
  have hothers : ∀ h', h' ≠ (s.kind, s.id) →
      Sharing.only (some ((s.kind, s.id), s.kind)) h' = none :=
    fun h' hne => Sharing.only_some_of_ne s.kind hne
  rw [hd]
  refine ⟨(s.kind, s.id), s.kind, hhandle, hserves, hothers, fun answer => ?_, ?_⟩
  · have hkind := hserves.ne_none
    unfold OpenState.close
    split
    · cases hk : s.kind with
      | none => exact absurd hk hkind
      | access => rfl
      | blob => rfl
    · rfl
  rcases hserves with hk | ⟨hk, hf⟩
  · simp [OPFSFile.read, OPFSFile.getSize, OPFSFile.write, OPFSFile.setSize, OPFSFile.flush,
      OPFSFile.useAccess, getAccessID, hk, hpos, hid]
  · simp [OPFSFile.read, OPFSFile.getSize, OPFSFile.useBlob, getBlobID, hk, hpos, hid, hf]

/-- A blob that was opened for reading becomes an access handle. -/
theorem handle_held_upgraded :
    OPFSFile.write ⟨.access, 4, 2⟩ = some (.handle (.access, 4)) ∧
      OPFSFile.setSize ⟨.blob, 3, 1⟩ = some (.refused Errno.io.neg) := by
  have hfirst : Runs ⟨.blob, 3, 1⟩ {O_RDONLY} [.acquire (.blob, 3) .blob] :=
    .opened .start (.inl rfl) (by decide) (rfl : OpenState.open_ (fun _ => 3) {} O_RDONLY = _)
  have hboth : Runs ⟨.access, 4, 2⟩ (O_RDWR ::ₘ {O_RDONLY})
      [.release (.blob, 3), .acquire (.access, 4) .access, .acquire (.blob, 3) .blob] :=
    .opened hfirst (.inr (.inr rfl)) (by decide)
      (rfl : OpenState.open_ (fun _ => 4) ⟨.blob, 3, 1⟩ O_RDWR = _)
  obtain ⟨t, -, -, -, -, hall⟩ := handle_held hboth
  obtain ⟨h, k, -, -, -, -, hread, -, hwrites⟩ := hall O_RDWR (Multiset.mem_cons_self ..)
  cases hread
  exact ⟨(hwrites (by decide)).1, rfl⟩

end Runs

end OpenState

/-! ## The descriptor table -/

section

variable {host : Host} {s s' : State} {r : Reply} {c : Call} {f : FileId} {hooks : List Hook}

/-- A call calls at most one hook. -/
theorem exec_hooks_cons (h : s.tree.WF) (hok : exec host s c = .ok (s', r)) :
    s'.trace.hooks = s.trace.hooks ∨ ∃ hook, s'.trace.hooks = hook :: s.trace.hooks := by
  cases hsets : c.setsSlot with
  | false => exact .inl (exec_hooks h hsets hok)
  | true =>
      cases c with
      | fd_close fd =>
          obtain ⟨ret, hclose, rfl⟩ := Export.fd_close_ok hok
          simp only [Syscall.close] at hclose
          split at hclose
          · cases hclose
            exact .inl rfl
          split at hclose
          · cases hclose
          · rename_i hset
            cases hclose
            exact .inl (by rw [FileTable.setEntry_trace hset])
          · rename_i hset
            cases hclose
            exact .inr ⟨_, congrArg (_ :: ·) (by rw [FileTable.setEntry_trace hset])⟩
      | fd_renumber fd dest =>
          obtain ⟨ret, hdup, rfl⟩ := Export.fd_renumber_ok hok
          simp only [Syscall.dup3] at hdup
          split at hdup
          · cases hdup
            exact .inl rfl
          split at hdup
          · cases hdup
            exact .inl rfl
          split at hdup
          · cases hdup
            exact .inl rfl
          split at hdup
          · cases hdup
          rename_i hset
          cases hdup
          exact .inl (by rw [FileTable.setEntry_trace hset])
      | path_open dirfd path oflags =>
          obtain ⟨ret, hopen, rfl⟩ := Export.path_open_ok hok
          have hcreate : ∀ {t : State} {g : FileId} {l : List Hook},
              (t.trace.hooks = if (t.files g).isDataFile then .opened g :: l else l) →
              t.trace.hooks = l ∨ ∃ hook, t.trace.hooks = hook :: l := by
            intro t g l ht
            split at ht
            · exact .inr ⟨_, ht⟩
            · exact .inl ht
          have hadded : ∀ {t : State} {o ret}, FileTable.addEntry t o = .ok (s', ret) →
              s'.trace.hooks = t.trace.hooks := by
            intro t o ret hadd
            obtain ⟨-, closee, hset⟩ := FileTable.addEntry_ok hadd
            rw [FileTable.setEntry_trace hset]
          have hopened : ∀ child, (OpenFileState.create s child oflags.toNat).1.trace.hooks =
                s.trace.hooks ∨
              ∃ hook, (OpenFileState.create s child oflags.toNat).1.trace.hooks =
                hook :: s.trace.hooks := by
            intro child
            rw [OpenFileState.create_hooks]
            split
            · exact .inr ⟨_, rfl⟩
            · exact .inl rfl
          rcases Syscall.openat2_cases h host dirfd.toNat (cstr path) oflags.toNat 0 with
            ⟨e, s₂, he, hfails⟩ | ⟨parent, leaf, c, child, hres, -, hadd⟩ |
            ⟨parent, leaf, -, -, hadd⟩
          · rw [he] at hopen
            cases hopen
            cases hfails with
            | early => exact .inl rfl
            | @late parent c child leaf s₂ hres hmode hrefused =>
                cases hrefused with
                | early => exact .inl rfl
                | late => exact hopened child
          · rw [hadd] at hopen
            rw [hadded hopen, Syscall.opened_trace]
            exact hopened child
          · rw [hadd] at hopen
            rw [hadded hopen]
            exact hcreate (Syscall.created_hooks ..)
      | _ => cases hsets

/-- At no time was the file closed more often than opened. -/
def ClosesOpened (f : FileId) (hooks : List Hook) : Prop :=
  ∀ l, l <:+ hooks → l.count (.closed f) ≤ l.count (.opened f)

theorem ClosesOpened.of_suffix {l : List Hook} (h : ClosesOpened f hooks) (hl : l <:+ hooks) :
    ClosesOpened f l := fun l' hl' => h l' (hl'.trans hl)

/-- In every state that calls reach which close what they have to close, the hooks
balance, and no data file was closed more often than opened. -/
theorem closesOpened_of_run (h : ReachableBy host Call.KeepsHooks s) :
    HooksBalance s ∧ ∀ f, (s.files f).isDataFile → ClosesOpened f s.trace.hooks := by
  have hcount : ∀ {s : State} {f}, HooksBalance s → (s.files f).isDataFile →
      s.trace.hooks.count (.closed f) ≤ s.trace.hooks.count (.opened f) := by
    intro s f hbalance hf
    have hle := hbalance f hf
    simp only [State.opens, State.closes] at hle
    omega
  have hinv : Reachable host s ∧ HooksInvariant s ∧
      ∀ f < s.next, (s.files f).isDataFile → ClosesOpened f s.trace.hooks := by
    refine h.invariant (I := fun s => Reachable host s ∧ HooksInvariant s ∧
      ∀ f < s.next, (s.files f).isDataFile → ClosesOpened f s.trace.hooks) ?_ ?_
    · refine ⟨.refl, .init host, fun f _ _ l hl => ?_⟩
      have hstart : (init host).trace.hooks = [.opened 2, .opened 1, .opened 0] :=
        (SameDescriptors.init host).hooks
      rw [hstart] at hl
      have hnot : Hook.closed f ∉ l := by
        intro hmem
        have hinit := hl.subset hmem
        simp only [List.mem_cons, reduceCtorEq, List.not_mem_nil, or_self] at hinit
      rw [List.count_eq_zero.mpr hnot]
      exact Nat.zero_le _
    · intro s₁ c s₂ h₁ hc hstep
      obtain ⟨hreach, hhooks, hcloses⟩ := h₁
      have hreach₂ : Reachable host s₂ := hreach.tail trivial hstep
      have hhooks₂ := hhooks.step hreach.wf hreach.usesBalance hreach.filesExist hc hstep
      have hbalance := hhooks₂.hooksBalance hreach₂.filesExist
      refine ⟨hreach₂, hhooks₂, fun f hlt hf l hl => ?_⟩
      -- what was there before the call
      have hold : l <:+ s₁.trace.hooks → l.count (.closed f) ≤ l.count (.opened f) := by
        intro hl
        by_cases hf₁ : f < s₁.next
        · have hkind := (hstep.persists hreach.wf hf₁).isDataFile
          rw [State.tree_node, State.tree_node, File.node_isDataFile, File.node_isDataFile] at hkind
          exact hcloses f hf₁ (hkind ▸ hf) l hl
        · have hnot : Hook.closed f ∉ l := fun hmem => hf₁ (hhooks.hooks_lt (hl.subset hmem))
          rw [List.count_eq_zero.mpr hnot]
          exact Nat.zero_le _
      obtain ⟨r, hok⟩ := hstep
      rcases exec_hooks_cons hreach.wf hok with heq | ⟨hook, heq⟩
      · exact hold (heq ▸ hl)
      · rw [heq] at hl
        rcases List.suffix_cons_iff.mp hl with rfl | hl
        · have hle := hcount hbalance hf
          rwa [heq] at hle
        · exact hold hl
  obtain ⟨hreach, hhooks, hcloses⟩ := hinv
  refine ⟨hhooks.hooksBalance hreach.filesExist, fun f hf => ?_⟩
  by_cases hlt : f < s.next
  · exact hcloses f hlt hf
  · intro l hl
    have hnot : Hook.closed f ∉ l := fun hmem => hlt (hhooks.hooks_lt (hl.subset hmem))
    rw [List.count_eq_zero.mpr hnot]
    exact Nat.zero_le _

/-- The hooks that were called on a file of the Node backend, newest first, with the
state of the file and what the host was granted.  The access mode of an open is one
that `doOpen` lets through.  The host may refuse an open of a file that is there.  Then
the open fails, it makes no description, and it does not count as a hook. -/
inductive NodeState.Driven (f : FileId) : List Hook → NodeState → NodeState.Requests → Prop where
  | start : Driven f [] {} []
  | other {hook hooks n log} : hook.file ≠ f → Driven f hooks n log →
      Driven f (hook :: hooks) n log
  | opened {hooks n log host flags n' reqs} : Driven f hooks n log → AccessMode flags →
      n.openCount.toNat + 1 < 2 ^ 32 → NodeState.Grants host log →
      n.open_ host flags = some (0, n', reqs) → Driven f (.opened f :: hooks) n' (reqs ++ log)
  | refused {hooks n log host flags err n' reqs} : Driven f hooks n log → AccessMode flags →
      n.openCount.toNat + 1 < 2 ^ 32 → NodeState.Grants host log →
      n.open_ host flags = some (err, n', reqs) → err ≠ 0 → Driven f hooks n' (reqs ++ log)
  | closed {hooks n log answer ret n' reqs} : Driven f hooks n log →
      n.close answer = (ret, n', reqs) → Driven f (.closed f :: hooks) n' (reqs ++ log)

/-- As long as no close comes before its open, the opens that were not closed are the
users that are left. -/
theorem NodeState.Driven.runs {n : NodeState} {log : NodeState.Requests}
    (hd : Driven f hooks n log) (hc : ClosesOpened f hooks) :
    ∃ us : Multiset Nat, us.card + hooks.count (.closed f) = hooks.count (.opened f) ∧
      Runs n us log := by
  induction hd with
  | start => exact ⟨0, rfl, .start⟩
  | @other hook hooks n log hne _ ih =>
      obtain ⟨us, hus, hruns⟩ := ih (hc.of_suffix (List.suffix_cons ..))
      refine ⟨us, ?_, hruns⟩
      have hopen : hook ≠ .opened f := fun heq => hne (congrArg Hook.file heq)
      have hclose : hook ≠ .closed f := fun heq => hne (congrArg Hook.file heq)
      rw [List.count_cons_of_ne hopen, List.count_cons_of_ne hclose]
      exact hus
  | @opened hooks n log host flags n' reqs _ hf hcount hgrants hok ih =>
      obtain ⟨us, hus, hruns⟩ := ih (hc.of_suffix (List.suffix_cons ..))
      obtain ⟨t, -, hcard, -⟩ := hruns.descriptor_held
      refine ⟨flags ::ₘ us, ?_, .opened hruns hf (hcard ▸ hcount) hgrants hok⟩
      rw [List.count_cons_self, List.count_cons_of_ne (by simp), Multiset.card_cons]
      omega
  | @refused hooks n log host flags err n' reqs _ hf hcount hgrants hok herr ih =>
      obtain ⟨us, hus, hruns⟩ := ih hc
      obtain ⟨t, -, hcard, -⟩ := hruns.descriptor_held
      have hnext := Runs.opened hruns hf (hcard ▸ hcount) hgrants hok
      rw [if_neg herr] at hnext
      exact ⟨us, hus, hnext⟩
  | @closed hooks n log answer ret n' reqs _ hok ih =>
      obtain ⟨us, hus, hruns⟩ := ih (hc.of_suffix (List.suffix_cons ..))
      have hle := hc _ (List.suffix_refl _)
      rw [List.count_cons_self, List.count_cons_of_ne (by simp)] at hle
      have hpos : 0 < us.card := by omega
      obtain ⟨flags, hmem⟩ := Multiset.card_pos_iff_exists_mem.mp hpos
      obtain ⟨us, rfl⟩ := Multiset.exists_cons_of_mem hmem
      refine ⟨us, ?_, .closed hruns hok⟩
      rw [Multiset.card_cons] at hus
      rw [List.count_cons_self, List.count_cons_of_ne (by simp)]
      omega

/-- Take any run of calls that close what they have to close, and the hooks that it
calls on a data file of the Node backend.  The host never closes what is not open.
While the table holds the file the host has one descriptor open, and when it does not
the host has none. -/
theorem hostDescriptors_of_run (h : ReachableBy host Call.KeepsHooks s)
    (hf : (s.files f).isDataFile) {n : NodeState} {log : NodeState.Requests}
    (hd : NodeState.Driven f s.trace.hooks n log) :
    ∃ t, Sharing.held log = some t ∧ n.openCount.toNat = (s.held f).card ∧
      (s.held f = ∅ → ∀ fd, t fd = none) ∧
      (s.held f ≠ ∅ → ∃ fd, n.getFD = some fd ∧ t fd ≠ none ∧ ∀ fd', fd' ≠ fd → t fd' = none) := by
  obtain ⟨hbalance, hcloses⟩ := closesOpened_of_run h
  obtain ⟨us, hus, hruns⟩ := hd.runs (hcloses f hf)
  have hcard : us.card = (s.held f).card := by
    have hle := hbalance f hf
    simp only [State.opens, State.closes] at hle
    omega
  obtain ⟨t, ht, hcount, hempty, hfull⟩ := hruns.descriptor_held
  refine ⟨t, ht, hcount.trans hcard, fun hheld => ?_, fun hheld => ?_⟩
  · refine (hempty (Multiset.card_eq_zero.mp ?_)).2
    rw [hcard, hheld]
    rfl
  · have hpos : 0 < us.card := by
      rw [hcard]
      exact Finset.card_pos.mpr (Finset.nonempty_iff_ne_empty.mpr hheld)
    obtain ⟨flags, hmem⟩ := Multiset.card_pos_iff_exists_mem.mp hpos
    obtain ⟨fd, m, hfd, -, -, hm, -, hothers⟩ := hfull flags hmem
    exact ⟨fd, hfd, by rw [hm]; exact Option.some_ne_none m, hothers⟩

/-- The device is opened once, and the host opens one descriptor for it. -/
theorem hostDescriptors_openRandom : ∃ s replies, afterRun openRandom = .ok (s, replies) ∧
    ∃ t, Sharing.held ([.acquire 5 .r] : NodeState.Requests) = some t ∧ t 5 ≠ none ∧
      (s.held Init.random).card = 1 := by
  obtain ⟨s, replies, hok, hdata, hhooks⟩ :
      Returns (afterRun openRandom) fun s _ => (s.files Init.random).isDataFile ∧
        s.trace.hooks = [.opened Init.random, .opened 2, .opened 1, .opened 0] := by
    decide +kernel
  have hreach : ReachableBy .still Call.KeepsHooks s := by
    refine .of_afterRun ?_ hok
    -- neither call truncates
    intro c hc s
    simp only [openRandom, List.mem_cons, List.not_mem_nil, or_false] at hc
    rcases hc with rfl | rfl <;> exact fun _ _ _ _ _ _ hvain => absurd hvain.truncates (by decide)
  have hstreams : NodeState.Driven Init.random [.opened 2, .opened 1, .opened 0] {} [] :=
    .other (by decide) (.other (by decide) (.other (by decide) .start))
  have hdriven : NodeState.Driven Init.random s.trace.hooks ⟨1, O_RDONLY, 5⟩ [.acquire 5 .r] := by
    rw [hhooks]
    exact .opened hstreams (.inl rfl) (by decide) (NodeState.grants_of_held 5 rfl rfl) rfl
  obtain ⟨t, ht, hcard, -, hfull⟩ := hostDescriptors_of_run hreach hdata hdriven
  have hone : (s.held Init.random).card = 1 := hcard.symm
  obtain ⟨fd, hfd, hopen, -⟩ := hfull (fun hempty => by rw [hempty] at hone; cases hone)
  obtain rfl := Option.some.inj hfd
  exact ⟨s, replies, hok, t, ht, hopen, hone⟩

end

end WasmFS
