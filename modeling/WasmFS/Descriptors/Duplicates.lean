import WasmFS.Data.Pipes
import WasmFS.Descriptors.Slots

/-!
# Duplicated descriptors and pipes

The calls on descriptors that no export reaches are events of the map of slots as well.
`dup` and `F_DUPFD` share a description with the least empty slot (from the argument on),
and `pipe` installs two new ones.  So with these calls the table is a map of slots in every
state that a run reaches, a description is used exactly as often as slots hold it, and
slots with the same description are as good as each other for the calls that only look
up their descriptor (`duplicates_refine`).
-/

namespace WasmFS

open Slots Transition

variable {host : Host} {s s' : State} {v v' : PipeState}

/-! ## Searches -/

namespace FileTable

/-- `addEntry` takes the least empty slot. -/
theorem slots_addEntry {o : OpenId} {ret : Int} (h : addEntry s o = .ok (s', ret)) :
    ∃ n : ℕ, ret = n ∧ IsLeast {i | s.slots i = none} n ∧
      s'.slots = Function.update s.slots n (some o) := by
  obtain ⟨hret, closee, hset⟩ := addEntry_ok h
  exact ⟨_, hret, isLeast_firstFree s, slots_setEntry hset⟩

theorem slots_of_length_le {i : ℕ} (h : s.table.length ≤ i) : s.slots i = none := by
  simp only [State.slots, getEntry, List.getElem?_eq_none h, Option.join_none]

end FileTable

/-- The search of `F_DUPFD` ends at the least empty slot from the argument on. -/
theorem Syscall.isLeast_freeFrom {fuel : ℕ} (newfd : ℕ) (h : s.table.length ≤ newfd + fuel) :
    IsLeast {i | newfd ≤ i ∧ s.slots i = none} (freeFrom s fuel newfd) := by
  have hhere : s.slots newfd = none → IsLeast {i | newfd ≤ i ∧ s.slots i = none} newfd :=
    fun hnone => ⟨⟨Nat.le_refl _, hnone⟩, fun i hi => hi.1⟩
  induction fuel generalizing newfd with
  | zero => exact hhere (FileTable.slots_of_length_le h)
  | succ fuel ih =>
      simp only [freeFrom]
      split
      · rename_i hnone
        exact hhere hnone
      · rename_i hsome
        obtain ⟨⟨hle, hnone⟩, hleast⟩ := ih (newfd + 1) (by omega)
          fun hnone => ⟨⟨Nat.le_refl _, hnone⟩, fun i hi => hi.1⟩
        refine ⟨⟨Nat.le_of_succ_le hle, hnone⟩, ?_⟩
        rintro i ⟨hi, hempty⟩
        have hne : i ≠ newfd := by
          rintro rfl
          exact hsome hempty
        exact hleast ⟨Nat.lt_of_le_of_ne hi hne.symm, hempty⟩

/-! ## The calls -/

namespace Syscall

variable {fd : ℕ} {ret : Int}

/-- `dup` fails without a description, or shares it with the least empty slot. -/
theorem dup_slot (h : dup s fd = .ok (s', ret)) :
    (s.slots fd = none ∧ s' = s ∧ ret = Errno.badf.neg) ∨
    ∃ o n, s.slots fd = some o ∧ ret = (n : ℕ) ∧ IsLeast {i | s.slots i = none} n ∧
      s'.slots = Function.update s.slots n (some o) := by
  unfold dup at h
  cases ho : FileTable.getEntry s fd with
  | none =>
      rw [ho] at h
      cases h
      exact Or.inl ⟨ho, rfl, rfl⟩
  | some o =>
      rw [ho] at h
      obtain ⟨n, hret, hleast, hslots⟩ := FileTable.slots_addEntry h
      exact Or.inr ⟨o, n, ho, hret, hleast, hslots⟩

/-- `F_DUPFD` searches from its argument on. -/
theorem dupfd_slot {newfd : Int} (h : fcntl64 s fd (.F_DUPFD newfd) = .ok (s', ret)) :
    ((s.slots fd = none ∨ newfd < 0) ∧ s' = s ∧ ret < 0) ∨
    ∃ o n, s.slots fd = some o ∧ 0 ≤ newfd ∧ ret = (n : ℕ) ∧
      IsLeast {i | newfd.toNat ≤ i ∧ s.slots i = none} n ∧
      s'.slots = Function.update s.slots n (some o) := by
  unfold fcntl64 at h
  cases ho : FileTable.getEntry s fd with
  | none =>
      rw [ho] at h
      cases h
      exact Or.inl ⟨Or.inl ho, rfl, by decide⟩
  | some o =>
      rw [ho] at h
      simp only at h
      split at h
      · rename_i hneg
        cases h
        exact Or.inl ⟨Or.inr hneg, rfl, by decide⟩
      · rename_i hneg
        split at h
        · cases h
        · rename_i hset
          cases h
          exact Or.inr ⟨o, _, ho, Int.not_lt.mp hneg, rfl, isLeast_freeFrom _ (Nat.le_add_left _ _),
            FileTable.slots_setEntry hset⟩

/-- `dup3` shares the description with the slot it is given. -/
theorem dup3_slot {oldfd newfd : Int} (h : dup3 s oldfd newfd = .ok (s', ret)) :
    ((s.slots (u32 oldfd) = none ∨ newfd < 0 ∨ oldfd = newfd) ∧ s' = s ∧ ret < 0) ∨
    ∃ o, s.slots (u32 oldfd) = some o ∧ 0 ≤ newfd ∧ ret = newfd ∧
      s'.slots = Function.update s.slots (u32 newfd) (some o) := by
  unfold dup3 at h
  split at h
  · rename_i hnone
    cases h
    exact Or.inl ⟨Or.inl hnone, rfl, by decide⟩
  rename_i o ho
  split at h
  · rename_i hneg
    cases h
    exact Or.inl ⟨Or.inr (Or.inl hneg), rfl, by decide⟩
  rename_i hneg
  split at h
  · rename_i hsame
    cases h
    exact Or.inl ⟨Or.inr (Or.inr hsame), rfl, by decide⟩
  split at h
  · cases h
  · rename_i hset
    cases h
    exact Or.inr ⟨o, ho, Int.not_lt.mp hneg, rfl, FileTable.slots_setEntry hset⟩

/-- The other commands of `fcntl64` leave the slots alone. -/
theorem fcntl64_slots {cmd : Fcntl} (hcmd : ∀ newfd, cmd ≠ .F_DUPFD newfd)
    (h : fcntl64 s fd cmd = .ok (s', ret)) : s'.slots = s.slots := by
  unfold fcntl64 at h
  split at h
  · cases h
    rfl
  · cases cmd with
    | F_DUPFD newfd => exact absurd rfl (hcmd newfd)
    | F_SETFL flags =>
        simp only at h
        split at h
        · cases h
          rfl
        · cases h
          rfl
    | _ =>
        cases h
        rfl

end Syscall

/-! ## Making a pipe -/

theorem KeepsTable.trans {s'' : State} (h : KeepsTable s s') (h' : KeepsTable s' s'') :
    KeepsTable s s'' where
  table := h'.table.trans h.table
  next_le := Nat.le_trans h.next_le h'.next_le
  old o ho := by
    obtain ⟨position, hd⟩ := h.old o ho
    obtain ⟨position', hd'⟩ := h'.old o (Nat.lt_of_lt_of_le ho h.next_le)
    exact ⟨position', by rw [hd', hd]⟩
  unused o hle hlt := by
    by_cases hold : o < s'.nextDescription
    · obtain ⟨position, hd⟩ := h'.old o hold
      rw [hd]
      exact h.unused o hle hold
    · exact h'.unused o (Nat.le_of_not_lt hold) hlt

/-- The state in which the two new descriptions of a pipe are there, but in no slot. -/
structure Syscall.PipeMade (v : PipeState) (s : State) : Prop where
  keeps : KeepsTable v.base s
  next : s.nextDescription = v.base.nextDescription + 2
  reader : (s.descriptions v.base.nextDescription).file = v.base.next
  writer : (s.descriptions (v.base.nextDescription + 1)).file = v.base.next + 1

theorem Syscall.pipe_steps {ret readFd writeFd : Int}
    (hok : pipe host v = .ok (v', ret, readFd, writeFd)) :
    ret = 0 ∧ ∃ s s₁, PipeMade v s ∧
      FileTable.addEntry s v.base.nextDescription = .ok (s₁, readFd) ∧
      FileTable.addEntry s₁ (v.base.nextDescription + 1) = .ok (v'.base, writeFd) := by
  have hmade : ∀ (s : State) (mode : Nat), SameDescriptors s (makePipeFile host s mode).1 :=
    fun s mode => .make host s _ _ _
  have hsame := (hmade v.base S_IRUGO).trans (hmade _ S_IWUGO)
  unfold pipe at hok
  simp only at hok
  rw [OpenFileState.create_snd, OpenFileState.create_snd, OpenFileState.create_nextDescription,
    hsame.nextDescription] at hok
  split at hok
  · cases hok
  · rename_i s₁ fd₁ hadd₁
    split at hok
    · cases hok
    · rename_i s₂ fd₂ hadd₂
      cases hok
      have hreader := KeepsTable.create hsame v.base.next O_RDONLY
      have hboth := hreader.trans (.create (.refl _) (v.base.next + 1) O_WRONLY)
      refine ⟨rfl, _, s₁, ⟨hboth, ?_, ?_, ?_⟩, hadd₁, hadd₂⟩
      · rw [OpenFileState.create_nextDescription, OpenFileState.create_nextDescription,
          hsame.nextDescription]
      · rw [OpenFileState.create_of_ne]
        · obtain ⟨dirents, hself⟩ := OpenFileState.create_self
            (makePipeFile host (makePipeFile host v.base S_IRUGO).1 S_IWUGO).1 v.base.next O_RDONLY
          rw [hsame.nextDescription] at hself
          rw [hself]
        · rw [OpenFileState.create_nextDescription, hsame.nextDescription]
          exact Nat.ne_of_lt (Nat.lt_succ_self _)
      · obtain ⟨dirents, hself⟩ := OpenFileState.create_self (OpenFileState.create
          (makePipeFile host (makePipeFile host v.base S_IRUGO).1 S_IWUGO).1 v.base.next
            O_RDONLY).1 (v.base.next + 1) O_WRONLY
        rw [OpenFileState.create_nextDescription, hsame.nextDescription] at hself
        rw [hself]

/-! ## Use counts -/

namespace UsesBalance

theorem addEntry (hb : UsesBalance s) {o : OpenId} (ho : o < s.nextDescription) {ret : Int}
    (h : FileTable.addEntry s o = .ok (s', ret)) :
    UsesBalance s' ∧ s'.nextDescription = s.nextDescription := by
  obtain ⟨-, closee, hset⟩ := FileTable.addEntry_ok h
  exact ⟨hb.of_setEntry (fun o' ho' => Option.some.inj ho' ▸ ho) hset,
    FileTable.setEntry_nextDescription hset⟩

/-- Flags are not counted. -/
theorem setFlags (hb : UsesBalance s) (o : OpenId) (flags : Nat) :
    UsesBalance (s.modifyOpen o fun x => { x with flags := flags }) where
  exist := hb.exist
  fits := hb.fits
  standard := hb.standard
  balance o' ho' := by
    have huses : ((s.modifyOpen o fun x => { x with flags := flags }).descriptions o').uses =
        (s.descriptions o').uses := by
      by_cases ho : o' = o
      · subst ho
        rw [State.modifyOpen_self]
      · rw [State.modifyOpen_of_ne _ _ ho]
    rw [huses]
    exact hb.balance o' ho'

theorem fcntl64 (hb : UsesBalance s) {fd : Nat} {cmd : Syscall.Fcntl} {ret : Int}
    (h : Syscall.fcntl64 s fd cmd = .ok (s', ret)) : UsesBalance s' := by
  unfold Syscall.fcntl64 at h
  split at h
  · cases h
    exact hb
  rename_i o ho
  cases cmd with
  | F_DUPFD newfd =>
      simp only at h
      split at h
      · cases h
        exact hb
      · split at h
        · cases h
        · rename_i hset
          cases h
          exact hb.of_setEntry (fun o' ho' => Option.some.inj ho' ▸ hb.exist ho) hset
  | F_SETFL flags =>
      simp only at h
      split at h
      · cases h
        exact hb
      · cases h
        exact hb.setFlags o _
  | _ =>
      cases h
      exact hb

theorem dup3 (hb : UsesBalance s) {oldfd newfd ret : Int}
    (h : Syscall.dup3 s oldfd newfd = .ok (s', ret)) : UsesBalance s' := by
  unfold Syscall.dup3 at h
  split at h
  · cases h
    exact hb
  rename_i o ho
  split at h
  · cases h
    exact hb
  split at h
  · cases h
    exact hb
  split at h
  · cases h
  · rename_i hset
    cases h
    exact hb.of_setEntry (fun o' ho' => Option.some.inj ho' ▸ hb.exist ho) hset

theorem pipe (hb : UsesBalance v.base) {ret readFd writeFd : Int}
    (h : Syscall.pipe host v = .ok (v', ret, readFd, writeFd)) : UsesBalance v'.base := by
  obtain ⟨-, s, s₁, hmade, hadd, hadd'⟩ := Syscall.pipe_steps h
  obtain ⟨hb₁, hnext⟩ := (hb.of_keepsTable hmade.keeps).addEntry
    (by rw [hmade.next]; exact Nat.lt_add_of_pos_right Nat.two_pos) hadd
  exact (hb₁.addEntry (by rw [hnext, hmade.next]; exact Nat.lt_succ_self _) hadd').1

/-- Every call keeps the balance. -/
theorem exec (hb : UsesBalance v.base) (hi : PipeInvariant v) {c : PipeCall} {r : PipeReply}
    (hok : v.exec host c = .ok (v', r)) : UsesBalance v'.base := by
  cases c with
  | export_ call =>
      obtain ⟨reply, hexport, -⟩ := PipeState.map_ok hok
      rcases PipeState.execExport_cases hexport with ⟨s, hexec, rfl⟩ | ⟨-, fd, p, data, hp, ht⟩
      · exact hb.of_slotEffect (exec_slots hi.wf hb.exist hexec)
      · exact hb.of_keepsTable (.of_skeleton ht.base)
  | pipe =>
      obtain ⟨ret, readFd, writeFd, hpipe, -⟩ := PipeState.pipe_of_exec hok
      exact hb.pipe hpipe
  | dup fd =>
      obtain ⟨s, ret, hdup, rfl, -⟩ := PipeState.of_lift_result hok
      unfold Syscall.dup at hdup
      split at hdup
      · cases hdup
        exact hb
      · rename_i o ho
        exact (hb.addEntry (hb.exist ho) hdup).1
  | dup3 oldfd newfd =>
      obtain ⟨s, ret, hdup, rfl, -⟩ := PipeState.of_lift_result hok
      exact hb.dup3 hdup
  | fcntl64 fd cmd =>
      obtain ⟨s, ret, hfcntl, rfl, -⟩ := PipeState.of_lift_result hok
      exact hb.fcntl64 hfcntl
  | poll fds =>
      cases hok
      exact hb

end UsesBalance

/-! ## Every call is a list of events -/

/-- The targets of the exported calls are below 2^31. -/
def PipeCall.TargetInRange : PipeCall → Prop
  | .export_ c => c.TargetInRange
  | _ => True

/-- The events that a call with this reply is for the map `m`. -/
inductive PipeCall.Shows (m : ℕ → Option OpenId) :
    PipeCall → PipeReply → List (Event OpenId) → Prop where
  | export_ {c : Call} {r : Reply} {e : Event OpenId} : c.Shows r e →
      Shows m (.export_ c) (.reply r) [e]
  | pipe {n k : ℕ} {o o' : OpenId} :
      Shows m .pipe (.fds 0 n k) [.install n o, .install k o']
  | dup {fd n : ℕ} : m fd ≠ none → IsLeast {i | m i = none} n →
      Shows m (.dup fd) (.result n) [.share fd n]
  | dup_empty {fd : ℕ} : m fd = none → Shows m (.dup fd) (.result Errno.badf.neg) []
  | dup3 {oldfd newfd : Int} : m (u32 oldfd) ≠ none → 0 ≤ newfd →
      Shows m (.dup3 oldfd newfd) (.result newfd) [.share (u32 oldfd) (u32 newfd)]
  | dup3_refused {oldfd newfd ret : Int} : m (u32 oldfd) = none ∨ newfd < 0 ∨ oldfd = newfd →
      ret < 0 → Shows m (.dup3 oldfd newfd) (.result ret) []
  | dupfd {fd n : ℕ} {newfd : Int} : m fd ≠ none → 0 ≤ newfd →
      IsLeast {i | newfd.toNat ≤ i ∧ m i = none} n →
      Shows m (.fcntl64 fd (.F_DUPFD newfd)) (.result n) [.share fd n]
  | dupfd_refused {fd : ℕ} {newfd ret : Int} : m fd = none ∨ newfd < 0 → ret < 0 →
      Shows m (.fcntl64 fd (.F_DUPFD newfd)) (.result ret) []
  | fcntl64 {fd : ℕ} {cmd : Syscall.Fcntl} {r : PipeReply} : (∀ newfd, cmd ≠ .F_DUPFD newfd) →
      Shows m (.fcntl64 fd cmd) r []
  | poll {fds : List PollFd} {r : PipeReply} : Shows m (.poll fds) r []

/-- A list of calls with their replies takes the map `m` to `m'`. -/
inductive PipeCall.Plays : (ℕ → Option OpenId) → List (PipeCall × PipeReply) →
    (ℕ → Option OpenId) → Prop where
  | nil {m : ℕ → Option OpenId} : Plays m [] m
  | cons {m m' : ℕ → Option OpenId} {c : PipeCall} {r : PipeReply} {es : List (Event OpenId)}
      {xs : List (PipeCall × PipeReply)} : c.Shows m r es → AllowedAll m es →
      Plays (applyAll m es) xs m' → Plays m ((c, r) :: xs) m'

namespace PipeState

/-- The events of a pipe: two new descriptions, one after the other. -/
theorem pipe_events (hb : UsesBalance v.base) {ret readFd writeFd : Int}
    (h : Syscall.pipe host v = .ok (v', ret, readFd, writeFd)) : ∃ n k : ℕ, ∃ o o' : OpenId,
      ret = 0 ∧ readFd = n ∧ writeFd = k ∧
      AllowedAll v.base.slots [.install n o, .install k o'] ∧
      v'.base.slots = applyAll v.base.slots [.install n o, .install k o'] := by
  obtain ⟨hret, s, s₁, hmade, hadd, hadd'⟩ := Syscall.pipe_steps h
  have hslots : s.slots = v.base.slots := State.slots_of_table hmade.keeps.table
  obtain ⟨n, hn, hleast, hslots₁⟩ := FileTable.slots_addEntry hadd
  obtain ⟨k, hk, hleast', hslots₂⟩ := FileTable.slots_addEntry hadd'
  rw [hslots] at hleast hslots₁
  rw [hslots₁] at hleast' hslots₂
  have hfresh : ∀ i o, v.base.nextDescription ≤ o → v.base.slots i ≠ some o :=
    fun i o ho hi => Nat.not_lt_of_le ho (hb.exist hi)
  refine ⟨n, k, _, _, hret, hn, hk, ⟨⟨hleast, fun i => hfresh i _ (Nat.le_refl _)⟩, ⟨hleast', ?_⟩,
    trivial⟩, hslots₂⟩
  intro i hi
  simp only [Event.apply] at hi
  by_cases hin : i = n
  · rw [hin, Function.update_self] at hi
    exact absurd (Option.some.inj hi) (Nat.ne_of_lt (Nat.lt_succ_self _))
  · rw [Function.update_of_ne hin] at hi
    exact hfresh i _ (Nat.le_succ _) hi

theorem exec_events (hi : PipeInvariant v) (hb : UsesBalance v.base) {c : PipeCall}
    {r : PipeReply} (hc : c.TargetInRange) (hok : v.exec host c = .ok (v', r)) :
    ∃ es, c.Shows v.base.slots r es ∧ AllowedAll v.base.slots es ∧
      v'.base.slots = applyAll v.base.slots es := by
  have hshare : ∀ {fd o n}, v.base.slots fd = some o →
      Function.update v.base.slots n (some o) = applyAll v.base.slots [.share fd n] := by
    intro fd o n ho
    simp only [applyAll, Event.apply, ho]
  cases c with
  | export_ call =>
      obtain ⟨reply, hexport, rfl⟩ := map_ok hok
      rcases execExport_cases hexport with ⟨s, hexec, rfl⟩ | ⟨hsets, fd, p, data, hp, ht⟩
      · obtain ⟨e, hshows, hallowed, hslots⟩ := exec_event hi.wf hb hc hexec
        exact ⟨[e], .export_ hshows, ⟨hallowed, trivial⟩, hslots⟩
      · exact ⟨[.quiet], .export_ (.other hsets), ⟨trivial, trivial⟩,
          State.slots_of_table ht.base.table⟩
  | pipe =>
      obtain ⟨ret, readFd, writeFd, hpipe, rfl⟩ := pipe_of_exec hok
      obtain ⟨n, k, o, o', rfl, rfl, rfl, hallowed, hslots⟩ := pipe_events hb hpipe
      exact ⟨_, .pipe, hallowed, hslots⟩
  | dup fd =>
      obtain ⟨s, ret, hdup, rfl, rfl⟩ := of_lift_result hok
      rcases Syscall.dup_slot hdup with ⟨hnone, rfl, rfl⟩ | ⟨o, n, ho, rfl, hleast, hslots⟩
      · exact ⟨[], .dup_empty hnone, trivial, rfl⟩
      · exact ⟨[.share fd n], .dup (ho ▸ Option.some_ne_none o) hleast, ⟨trivial, trivial⟩,
          hslots.trans (hshare ho)⟩
  | dup3 oldfd newfd =>
      obtain ⟨s, ret, hdup, rfl, rfl⟩ := of_lift_result hok
      rcases Syscall.dup3_slot hdup with ⟨hwhy, rfl, hneg⟩ | ⟨o, ho, hnew, rfl, hslots⟩
      · exact ⟨[], .dup3_refused hwhy hneg, trivial, rfl⟩
      · exact ⟨[.share (u32 oldfd) (u32 ret)], .dup3 (ho ▸ Option.some_ne_none o) hnew,
          ⟨trivial, trivial⟩, hslots.trans (hshare ho)⟩
  | fcntl64 fd cmd =>
      obtain ⟨s, ret, hfcntl, rfl, rfl⟩ := of_lift_result hok
      by_cases hcmd : ∃ newfd, cmd = .F_DUPFD newfd
      · obtain ⟨newfd, rfl⟩ := hcmd
        rcases Syscall.dupfd_slot hfcntl with
          ⟨hwhy, rfl, hneg⟩ | ⟨o, n, ho, hnew, rfl, hleast, hslots⟩
        · exact ⟨[], .dupfd_refused hwhy hneg, trivial, rfl⟩
        · exact ⟨[.share fd n], .dupfd (ho ▸ Option.some_ne_none o) hnew hleast,
            ⟨trivial, trivial⟩, hslots.trans (hshare ho)⟩
      · have hne : ∀ newfd, cmd ≠ .F_DUPFD newfd := fun newfd h => hcmd ⟨newfd, h⟩
        exact ⟨[], .fcntl64 hne, trivial, Syscall.fcntl64_slots hne hfcntl⟩
  | poll fds =>
      cases hok
      exact ⟨[], .poll, trivial, rfl⟩

/-! ## Runs -/

/-- A call that returns. -/
def Step (host : Host) (v : PipeState) (c : PipeCall) (v' : PipeState) : Prop :=
  ∃ r, v.exec host c = .ok (v', r)

/-- The states that the calls reach from `v`. -/
abbrev Reaches (host : Host) (v v' : PipeState) : Prop := Reach (Step host) (fun _ _ => True) v v'

/-- The states that a run reaches. -/
abbrev Reachable (host : Host) (v : PipeState) : Prop := Reaches host (.init host) v

theorem Reachable.invariant (h : Reachable host v) : PipeInvariant v ∧ UsesBalance v.base := by
  refine Reach.invariant (I := fun v => PipeInvariant v ∧ UsesBalance v.base) ?_ ?_ h
  · exact ⟨.init host, WasmFS.Reachable.usesBalance .refl⟩
  · intro v c v' hv _ hstep
    obtain ⟨r, hok⟩ := hstep
    exact ⟨hv.1.exec hok, hv.2.exec hv.1 hok⟩

theorem plays_of_run {calls : List PipeCall} {replies : List PipeReply} (hi : PipeInvariant v)
    (hb : UsesBalance v.base) (hcalls : ∀ c ∈ calls, c.TargetInRange)
    (hrun : attempt (exec host) v calls = .ok (v', replies)) :
    PipeCall.Plays v.base.slots (calls.zip replies) v'.base.slots := by
  induction calls generalizing v replies with
  | nil =>
      cases hrun
      exact .nil
  | cons c calls ih =>
      simp only [attempt] at hrun
      split at hrun
      · cases hrun
      rename_i v₁ r hok
      split at hrun
      · cases hrun
      rename_i v₂ rest hrest
      cases hrun
      obtain ⟨es, hshows, hallowed, hslots⟩ :=
        exec_events hi hb (hcalls c List.mem_cons_self) hok
      refine .cons hshows hallowed ?_
      rw [← hslots]
      exact ih (hi.exec hok) (hb.exec hi hok) (fun c' h' => hcalls c' (.tail c h')) hrest

/-! ## Slots with the same description -/

theorem same_export {c : UInt32 → Call} (hc : Call.Through c) (hclose : c ≠ .fd_close)
    {fd fd' : UInt32} (ho : v.base.slots fd'.toNat = v.base.slots fd.toNat) :
    v.execExport host (c fd') = v.execExport host (c fd) := by
  have hbase : WasmFS.exec host v.base (c fd') = WasmFS.exec host v.base (c fd) :=
    hc.same hclose ho
  have ho : FileTable.getEntry v.base fd'.toNat = FileTable.getEntry v.base fd.toNat := ho
  cases hc with
  | fd_read iovs => simp only [execExport, readAtOffset, WasmFS.readAtOffset, ho]
  | fd_write iovs => simp only [execExport, writeAtOffset, WasmFS.writeAtOffset, ho]
  | fd_pread iovs offset => simp only [execExport, readAtOffset, WasmFS.readAtOffset, ho]
  | fd_pwrite iovs offset => simp only [execExport, writeAtOffset, WasmFS.writeAtOffset, ho]
  | fd_close => exact absurd rfl hclose
  | _ => simp only [execExport, hbase]

theorem same_duplicate {fd fd' : ℕ} (ho : v.base.slots fd' = v.base.slots fd) :
    v.exec host (.dup fd') = v.exec host (.dup fd) ∧
      ∀ cmd, v.exec host (.fcntl64 fd' cmd) = v.exec host (.fcntl64 fd cmd) := by
  have ho : FileTable.getEntry v.base fd' = FileTable.getEntry v.base fd := ho
  exact ⟨by simp only [exec, Syscall.dup, ho], fun cmd => by simp only [exec, Syscall.fcntl64, ho]⟩

/-- `dup3` goes by the description, unless the target is the descriptor itself. -/
theorem same_dup3 {fd fd' newfd : Int} (ho : v.base.slots (u32 fd') = v.base.slots (u32 fd))
    (hne : fd ≠ newfd) (hne' : fd' ≠ newfd) :
    v.exec host (.dup3 fd' newfd) = v.exec host (.dup3 fd newfd) := by
  have ho : FileTable.getEntry v.base (u32 fd') = FileTable.getEntry v.base (u32 fd) := ho
  simp only [exec, Syscall.dup3, ho, if_neg hne, if_neg hne']

/-- `dup` returns as long as there is an empty slot, and `F_DUPFD` as long as there is one from
its argument on. -/
theorem full_of_dup {fd : ℕ} {e : Fault} (h : v.exec host (.dup fd) = .error e) :
    ∀ i < FileTable.maxSize, v.base.slots i ≠ none := by
  simp only [exec, Syscall.dup] at h
  split at h
  · cases h
  · rename_i o ho
    cases hadd : FileTable.addEntry v.base o with
    | error e' => exact FileTable.full_of_addEntry hadd
    | ok result =>
        rw [hadd] at h
        cases h

theorem full_of_dupfd {fd : ℕ} {newfd : Int} {e : Fault}
    (h : v.exec host (.fcntl64 fd (.F_DUPFD newfd)) = .error e) :
    ∀ i < FileTable.maxSize, newfd.toNat ≤ i → v.base.slots i ≠ none := by
  intro i hi hle hnone
  have hfree : IsLeast {i | newfd.toNat ≤ i ∧ v.base.slots i = none}
      (Syscall.freeFrom v.base v.base.table.length newfd.toNat) :=
    Syscall.isLeast_freeFrom _ (Nat.le_add_left _ _)
  have hlt := Nat.lt_of_le_of_lt (hfree.2 ⟨hle, hnone⟩) hi
  obtain ⟨s₁, hgrow⟩ : ∃ s₁, FileTable.grow v.base
      (Syscall.freeFrom v.base v.base.table.length newfd.toNat) = .ok s₁ := by
    simp only [FileTable.grow]
    split
    · exact ⟨_, rfl⟩
    · rw [if_neg (Nat.not_lt_of_le hlt)]
      exact ⟨_, rfl⟩
  simp only [exec, Syscall.fcntl64] at h
  split at h
  · cases h
  · split at h
    · cases h
    · simp only [FileTable.setEntry, hgrow] at h
      cases h

end PipeState

/-- With the calls on descriptors, the table still is a map of slots. -/
structure SharesSlots (host : Host) (v : PipeState) : Prop where
  /-- Every call of a run is a list of events of the map. -/
  runs : ∀ {calls v' replies}, (∀ c ∈ calls, PipeCall.TargetInRange c) →
    attempt (PipeState.exec host) v calls = .ok (v', replies) →
    PipeCall.Plays v.base.slots (calls.zip replies) v'.base.slots
  /-- A description in the table is counted, unless it is a standard stream. -/
  counted : ∀ {fd o}, v.base.slots fd = some o → (UsesExact v.base o ↔ ¬ StandardStream host o)
  /-- Duplicates are as good as the descriptor they were made from. -/
  same : ∀ {fd fd' : UInt32}, v.base.slots fd'.toNat = v.base.slots fd.toNat →
    (∀ {c : UInt32 → Call}, Call.Through c → c ≠ .fd_close →
      v.execExport host (c fd') = v.execExport host (c fd)) ∧
    v.exec host (.dup fd'.toNat) = v.exec host (.dup fd.toNat) ∧
    ∀ cmd, v.exec host (.fcntl64 fd'.toNat cmd) = v.exec host (.fcntl64 fd.toNat cmd)
  /-- So they are for `dup3` onto another descriptor. -/
  renumbers : ∀ {fd fd' newfd : Int}, v.base.slots (u32 fd') = v.base.slots (u32 fd) →
    fd ≠ newfd → fd' ≠ newfd → v.exec host (.dup3 fd' newfd) = v.exec host (.dup3 fd newfd)
  /-- A duplicate can be made unless no slot is left for it. -/
  returns : ∀ {fd e}, (v.exec host (.dup fd) = .error e →
      ∀ i < FileTable.maxSize, v.base.slots i ≠ none) ∧
    ∀ {newfd}, v.exec host (.fcntl64 fd (.F_DUPFD newfd)) = .error e →
      ∀ i < FileTable.maxSize, newfd.toNat ≤ i → v.base.slots i ≠ none

/-- In every state that a run reaches, also with pipes and duplicates, the table behaves as a
map of slots. -/
theorem duplicates_refine (h : PipeState.Reachable host v) : SharesSlots host v := by
  obtain ⟨hi, hb⟩ := h.invariant
  refine ⟨fun hcalls hrun => PipeState.plays_of_run hi hb hcalls hrun, ?_, ?_, ?_, ?_⟩
  · intro fd o ho
    rw [standardStream_iff]
    exact ⟨fun hexact hstd => hb.not_usesExact hstd hexact, hb.usesExact (hb.exist ho)⟩
  · intro fd fd' ho
    exact ⟨fun hc hclose => PipeState.same_export hc hclose ho, PipeState.same_duplicate ho⟩
  · intro fd fd' newfd ho hne hne'
    exact PipeState.same_dup3 ho hne hne'
  · intro fd e
    exact ⟨PipeState.full_of_dup, PipeState.full_of_dupfd⟩

/-- A pipe, a duplicate of its writing end from slot 10 on, and the reading end closed: the next
empty slot is 3 again. -/
def duplicateRun : List PipeCall :=
  [.pipe, .fcntl64 4 (.F_DUPFD 10), .export_ (.fd_close 3), .dup 10]

theorem PipeState.Reachable.of_attempt {calls : List PipeCall} {replies : List PipeReply}
    (h : PipeState.Reachable host v)
    (hrun : attempt (PipeState.exec host) v calls = .ok (v', replies)) :
    PipeState.Reachable host v' := by
  induction calls generalizing v replies with
  | nil =>
      cases hrun
      exact h
  | cons c calls ih =>
      simp only [attempt] at hrun
      split at hrun
      · cases hrun
      rename_i v₁ r hok
      split at hrun
      · cases hrun
      rename_i hrest
      cases hrun
      exact ih (h.tail trivial ⟨r, hok⟩) hrest

/-- The state and the replies after calls that return. -/
def PipeState.ran (calls : List PipeCall) : PipeState × List PipeReply :=
  (attempt (exec .still) (.init .still) calls).toOption.getD (.init .still, [])

theorem PipeState.attempt_ran {calls : List PipeCall}
    (h : (attempt (exec .still) (.init .still) calls).isOk = true) :
    attempt (exec .still) (.init .still) calls = .ok ((ran calls).1, (ran calls).2) := by
  unfold ran
  cases hok : attempt (exec .still) (.init .still) calls with
  | error e =>
      rw [hok] at h
      cases h
  | ok x => rfl

theorem duplicates_refine_duplicateRun : ∃ v replies,
    attempt (PipeState.exec .still) (.init .still) duplicateRun = .ok (v, replies) ∧
    replies = [.fds 0 3 4, .result 10, .reply ⟨0, .nothing⟩, .result 3] ∧
    v.base.slots 3 = v.base.slots 10 ∧ SharesSlots .still v := by
  have hok := @PipeState.attempt_ran duplicateRun (by decide +kernel)
  exact ⟨_, _, hok, by decide +kernel, by decide +kernel,
    duplicates_refine (.of_attempt .refl hok)⟩

end WasmFS
