import WasmFS.Source.FileTable

/-!
# Path resolution

`paths.cpp` resolves a path by three mutually recursive functions.  `getChild`
looks up one segment and follows the link it finds, `doParseParent` walks the
segments before the last, and `doParseFile` adds the last one.  A link target
is again parsed by `doParseFile`, and the number of links followed so far is
threaded through all of them.

Only link targets nest, and each costs one unit of the link budget.  So the
functions here take the parser of link targets as an argument, and `parseTarget`
ties the knot by recursion on a nesting bound.  Along a path the recursion is on
the length of the path.  Both bounds are never the reason for an answer: a
resolution that starts with fewer than `MAX_RECURSIONS` links followed runs out
of the budget before it runs out of the bound.
-/

namespace WasmFS

namespace Path

/-- `MAX_RECURSIONS` -/
def MAX_RECURSIONS : Nat := 40

inductive LinkBehavior where
  | followLinks | noFollowLinks
deriving DecidableEq, Repr

/-- What a parsing function leaves: the state, the number of links followed,
and the result or an error. -/
abbrev Parsed (α : Type) := State × Nat × Except Errno α

/-- A parser of link targets: `doParseFile(target, dir, FollowLinks, recursions)`. -/
abbrev TargetParser := State → Name → FileId → Nat → Parsed FileId

/-- The loop of `getChild` that follows links.  Every round adds one to
`recursions`, so `MAX_RECURSIONS + 1` rounds are never exceeded. -/
def followLinks (parse : TargetParser) (dir : FileId) :
    Nat → State → FileId → Nat → Parsed FileId
  | 0, s, _, recursions => (s, recursions, .error .loop)
  | fuel + 1, s, child, recursions =>
      match (s.files child).target? with
      | none => (s, recursions, .ok child)
      | some target =>
          let recursions := recursions + 1
          if recursions > MAX_RECURSIONS then (s, recursions, .error .loop)
          else if target = [] then (s, recursions, .error .noent)
          else
            match parse s target dir recursions with
            | (s, recursions, .error e) => (s, recursions, .error e)
            | (s, recursions, .ok child) => followLinks parse dir fuel s child recursions

/-- `getChild` -/
def getChildWith (parse : TargetParser) (s : State) (dir : FileId) (name : Name)
    (links : LinkBehavior) (recursions : Nat) : Parsed FileId :=
  match Directory.getChild s dir name with
  | (s, none) => (s, recursions, .error .noent)
  | (s, some child) =>
      if links = .noFollowLinks then (s, recursions, .ok child)
      else followLinks parse dir (MAX_RECURSIONS + 1) s child recursions

/-- The loop of `doParseParent` over the segments of the path. -/
def parseSegments (parse : TargetParser) :
    Nat → State → Name → FileId → Nat → Parsed (FileId × Name)
  | 0, s, path, curr, recursions => (s, recursions, .ok (curr, path))
  | fuel + 1, s, path, curr, recursions =>
      -- skip any leading '/' of the segment
      let path := path.dropWhile (· == slash)
      match path.findIdx? (· == slash) with
      | none => (s, recursions, .ok (curr, path))
      | some segmentEnd =>
          match getChildWith parse s curr (path.take segmentEnd) .followLinks recursions with
          | (s, recursions, .error e) => (s, recursions, .error e)
          | (s, recursions, .ok child) =>
              if (s.files child).isDirectory then
                parseSegments parse fuel s (path.drop segmentEnd) child recursions
              else (s, recursions, .error .notdir)

/-- Ignore trailing '/'. -/
def stripTrailing (path : Name) : Name := (path.reverse.dropWhile (· == slash)).reverse

/-- `doParseParent` -/
def doParseParentWith (parse : TargetParser) (s : State) (path : Name) (curr : FileId)
    (recursions : Nat) : Parsed (FileId × Name) :=
  match path with
  | [] => (s, recursions, .error .noent)
  | c :: rest =>
      let curr := if c = slash then s.rootDirectory else curr
      let path := stripTrailing (if c = slash then rest else path)
      -- the path was equivalent to "/", and the root is its own parent
      if path = [] then (s, recursions, .ok (curr, dot))
      else parseSegments parse path.length s path curr recursions

/-- `doParseFile` -/
def doParseFileWith (parse : TargetParser) (s : State) (path : Name) (base : FileId)
    (links : LinkBehavior) (recursions : Nat) : Parsed FileId :=
  match doParseParentWith parse s path base recursions with
  | (s, recursions, .error e) => (s, recursions, .error e)
  | (s, recursions, .ok (parent, child)) => getChildWith parse s parent child links recursions

/-- The parser of link targets that allows link targets to nest `n` deep. -/
def parseTarget : Nat → TargetParser
  | 0 => fun s _ _ recursions => (s, recursions, .error .loop)
  | n + 1 => fun s target dir recursions =>
      doParseFileWith (parseTarget n) s target dir .followLinks recursions

/-- `doParseParent` with the link budget of a whole resolution. -/
def doParseParent (s : State) (path : Name) (curr : FileId) (recursions : Nat) :
    Parsed (FileId × Name) :=
  doParseParentWith (parseTarget MAX_RECURSIONS) s path curr recursions

/-- `doParseFile` with the link budget of a whole resolution. -/
def doParseFile (s : State) (path : Name) (base : FileId) (links : LinkBehavior)
    (recursions : Nat) : Parsed FileId :=
  doParseFileWith (parseTarget MAX_RECURSIONS) s path base links recursions

/-- `AT_FDCWD`, converted to `__wasi_fd_t`. -/
def AT_FDCWD : Nat := 4294967196

/-- `getBaseDir` -/
def getBaseDir (s : State) (basefd : Nat) : Except Errno FileId :=
  if basefd = AT_FDCWD then .ok s.cwd
  else
    match FileTable.getEntry s basefd with
    | none => .error .badf
    | some o =>
        let file := (s.descriptions o).file
        if (s.files file).isDirectory then .ok file else .error .notdir

/-- `parseParent` -/
def parseParent (s : State) (path : Name) (basefd : Nat) : State × Except Errno (FileId × Name) :=
  match getBaseDir s basefd with
  | .error e => (s, .error e)
  | .ok base =>
      let (s, _, parsed) := doParseParent s path base 0
      (s, parsed)

/-- `parseFile` -/
def parseFile (s : State) (path : Name) (basefd : Nat) (links : LinkBehavior) :
    State × Except Errno FileId :=
  match getBaseDir s basefd with
  | .error e => (s, .error e)
  | .ok base =>
      let (s, _, parsed) := doParseFile s path base links 0
      (s, parsed)

/-- `getFileFrom` -/
def getFileFrom (s : State) (base : FileId) (path : Name) : State × Except Errno FileId :=
  let (s, _, parsed) := doParseFile s path base .followLinks 0
  (s, parsed)

end Path

end WasmFS
