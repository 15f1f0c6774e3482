import WasmFS.Lib.Transition
import WasmFS.Source.Exports

/-!
# The initial state

`WasmFS` constructs the file table, whose three slots hold the standard streams,
and then the root directory with `/dev` and `/tmp` (`wasmfs.cpp`).  No files are
preloaded.  The special files are static objects made at their first use.
-/

namespace WasmFS

/-! ## Names -/

/-- `"dev"` -/
def devName : Name := [100, 101, 118]
/-- `"tmp"` -/
def tmpName : Name := [116, 109, 112]
/-- `"null"` -/
def nullName : Name := [110, 117, 108, 108]
/-- `"stdin"` -/
def stdinName : Name := [115, 116, 100, 105, 110]
/-- `"stdout"` -/
def stdoutName : Name := [115, 116, 100, 111, 117, 116]
/-- `"stderr"` -/
def stderrName : Name := [115, 116, 100, 101, 114, 114]
/-- `"random"` -/
def randomName : Name := [114, 97, 110, 100, 111, 109]
/-- `"urandom"` -/
def urandomName : Name := [117, 114, 97, 110, 100, 111, 109]

namespace Init

/-- The memory before any object is made. -/
def blank : State where
  files := fun _ => { body := .memory Vec.empty, mode := 0 }
  next := 0
  rootDirectory := 0
  cwd := 0
  descriptions := fun _ => { file := 0, flags := 0 }
  nextDescription := 0
  table := []
  trace := {}

/-- `make_shared` of a file object, stamped with one reading of the clock. -/
def make (host : Host) (s : State) (body : Body) (mode : Nat) (backend : BackendId) :
    State × FileId :=
  let now := host.now s.trace.calls
  s.ask.alloc
    { body := body, mode := mode, atime := now, mtime := now, ctime := now, backend := backend }

/-- The constructors of `special_files.cpp`. -/
def special (host : Host) (s : State) (dev : Device) (mode : Nat) : State × FileId :=
  make host s (.device dev) (mode ||| S_IFCHR) none

/-- `entries.emplace_back()`, then `OpenFileState::create` into the slot. -/
def openStream (s : State) (file : FileId) (flags : Nat) : State :=
  let (s, o) := OpenFileState.create s file flags
  { s with table := s.table ++ [some o] }

/-- `FileTable::FileTable` -/
def fileTable (host : Host) (s : State) : State :=
  let (s, stdin) := special host s .stdin S_IRUGO
  let s := openStream s stdin O_RDONLY
  let (s, stdout) := special host s .stdout S_IWUGO
  let s := openStream s stdout O_WRONLY
  let (s, stderr) := special host s .stderr S_IWUGO
  openStream s stderr O_WRONLY

/-- The identities the objects get, in the order they are made. -/
def stdin : FileId := 0
def stdout : FileId := 1
def stderr : FileId := 2
def root : FileId := 3
def dev : FileId := 4
def null : FileId := 5
def random : FileId := 6
def urandom : FileId := 7
def tmp : FileId := 8

/-- The mounts of `/dev`, with the special files that do not exist yet. -/
def mountDevices (host : Host) (s : State) (dev : FileId) : State :=
  let (s, null) := special host s .null (S_IRUGO ||| S_IWUGO)
  let s := (Directory.mountChild s dev nullName null).1
  let s := (Directory.mountChild s dev stdinName stdin).1
  let s := (Directory.mountChild s dev stdoutName stdout).1
  let s := (Directory.mountChild s dev stderrName stderr).1
  let (s, random) := special host s .random S_IRUGO
  let s := (Directory.mountChild s dev randomName random).1
  let (s, urandom) := special host s .random S_IRUGO
  (Directory.mountChild s dev urandomName urandom).1

/-- `initRootDirectory` -/
def rootDirectory (host : Host) (s : State) : State × FileId :=
  let (s, root) := make host s (.directory [] []) (S_IRUGO ||| S_IXUGO ||| S_IWUGO ||| S_IFDIR)
    (some 0)
  -- the root directory is its own parent
  let s := s.setParent root (some root)
  let s :=
    match Directory.insertDirectory host s root devName (S_IRUGO ||| S_IXUGO) with
    | (s, none) => s
    | (s, some dev) => mountDevices host s dev
  ((Directory.insertDirectory host s root tmpName S_IRWXUGO).1, root)

end Init

/-- `WasmFS::WasmFS` -/
def init (host : Host) : State :=
  let (s, root) := Init.rootDirectory host (Init.fileTable host Init.blank)
  { s with rootDirectory := root, cwd := root }

/-! ## Runs -/

/-- One call of a run. -/
def Step (host : Host) (s : State) (c : Call) (s' : State) : Prop :=
  ∃ r, exec host s c = .ok (s', r)

/-- The states that runs from `s` reach.  A run in which a call does not return
reaches nothing more. -/
def ReachableFrom (host : Host) (s : State) : State → Prop :=
  Transition.Reach (Step host) (fun _ _ => True) s

/-- The states that runs from the initial state reach. -/
def Reachable (host : Host) : State → Prop := ReachableFrom host (init host)

/-- The states that runs of allowed calls reach from the initial state. -/
def ReachableBy (host : Host) (ok : State → Call → Prop) : State → Prop :=
  Transition.Reach (Step host) ok (init host)

/-- Run the calls one after the other. -/
def run (host : Host) : State → List Call → Except Fault (State × List Reply)
  | s, [] => .ok (s, [])
  | s, c :: calls =>
      match exec host s c with
      | .error e => .error e
      | .ok (s, reply) =>
          match run host s calls with
          | .error e => .error e
          | .ok (s, replies) => .ok (s, reply :: replies)

/-- A run that returns makes its first call and then the others. -/
theorem run_cons_ok {host : Host} {s s' : State} {c : Call} {calls : List Call}
    {replies : List Reply} (h : run host s (c :: calls) = .ok (s', replies)) :
    ∃ s₁ reply rest, exec host s c = .ok (s₁, reply) ∧ run host s₁ calls = .ok (s', rest) ∧
      replies = reply :: rest := by
  unfold run at h
  cases hc : exec host s c with
  | error e =>
      rw [hc] at h
      cases h
  | ok result =>
      obtain ⟨s₁, reply⟩ := result
      simp only [hc] at h
      cases hr : run host s₁ calls with
      | error e =>
          rw [hr] at h
          cases h
      | ok result =>
          obtain ⟨s₂, rest⟩ := result
          rw [hr] at h
          cases h
          exact ⟨s₁, reply, rest, rfl, hr, rfl⟩

/-- A run is made of steps. -/
theorem reach_of_run {host : Host} {ok : State → Call → Prop} {s s' : State} {calls : List Call}
    {replies : List Reply} (hok : ∀ c ∈ calls, ∀ s, ok s c)
    (h : run host s calls = .ok (s', replies)) : Transition.Reach (Step host) ok s s' := by
  induction calls generalizing s replies with
  | nil =>
      cases h
      exact .refl
  | cons c calls ih =>
      obtain ⟨s₁, reply, rest, hc, hr, rfl⟩ := run_cons_ok h
      refine Transition.Reach.trans (.tail .refl (hok c List.mem_cons_self s) ⟨reply, hc⟩) ?_
      exact ih (fun c' hc' => hok c' (.tail c hc')) hr

/-- A host for concrete runs.  Its clock stands still, its input is empty, and its
outputs take everything. -/
def Host.still : Host where
  now := fun _ => 0
  timestamp := id
  readStdin := fun _ _ _ => (0, [])
  writeStdout := fun _ bytes _ => bytes.length
  writeStderr := fun _ bytes _ => bytes.length
  entropy := fun _ len => List.replicate len 0
  dirfd := 3

/-- The state and the replies after a concrete run of that host. -/
def afterRun (calls : List Call) : Except Fault (State × List Reply) :=
  run .still (init .still) calls

theorem Reachable.of_afterRun {s : State} {calls : List Call} {replies : List Reply}
    (h : afterRun calls = .ok (s, replies)) : Reachable .still s :=
  reach_of_run (fun _ _ _ => trivial) h

theorem ReachableBy.of_afterRun {ok : State → Call → Prop} {s : State} {calls : List Call}
    {replies : List Reply} (hok : ∀ c ∈ calls, ∀ s, ok s c)
    (h : afterRun calls = .ok (s, replies)) : ReachableBy .still ok s :=
  reach_of_run hok h

/-- The computation returns, and what it leaves and returns is as `p` says. -/
def Returns {α : Type} (result : Except Fault (State × α)) (p : State → α → Prop) : Prop :=
  ∃ s a, result = .ok (s, a) ∧ p s a

instance {α : Type} {p : State → α → Prop} [∀ s a, Decidable (p s a)] :
    (result : Except Fault (State × α)) → Decidable (Returns result p)
  | .error _ => .isFalse fun ⟨_, _, h, _⟩ => nomatch h
  | .ok (s, a) => decidable_of_iff (p s a)
      ⟨fun h => ⟨s, a, rfl, h⟩, fun ⟨_, _, h, hp⟩ => by cases h; exact hp⟩

theorem ok_of_toOption {ε α : Type} {e : Except ε α} {a : α} (h : e.toOption = some a) :
    e = .ok a := by
  cases e with
  | error e => cases h
  | ok b => exact congrArg Except.ok (Option.some.inj h)

/-- `AT_FDCWD` as a descriptor. -/
def atFdCwd : UInt32 := 4294967196

end WasmFS
