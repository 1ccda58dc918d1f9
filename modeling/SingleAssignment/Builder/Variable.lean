import SingleAssignment.Builder.Value

/-!
# Variables

An assignment makes a new version of a variable at the end of a block. A read sees the latest
version in the block, or else the latest in the nearest dominator that has one. A variable that no
version reaches reads as zero: version 0 is then put at the end of the first block with code, so
that every block sees it.
-/

namespace SingleAssignment.Builder

open Code

namespace State

/-- The versions of a variable that are defined in a block, in order. -/
def versionsOf (s : State) (b : BlockId) (name : String) : List VersionId :=
  (s.tableOf b).get name

/-- The names of the variables that have a version in a block. -/
def variablesOf (s : State) (b : BlockId) : List String :=
  (Names.ofList ((s.tableOf b).map Prod.fst)).toList

/-- Whether a version of a block is marked ahead of a position of the timeline. -/
def isAhead (s : State) (b : BlockId) (limit : Nat) (v : VersionId) : Bool :=
  s.endOf b ≤ limit || ((s.block? b).bind (·.markAt? v)).all (· < limit)

/-- The last of some versions that `alive` accepts. -/
def lastOf (s : State) (alive : Version → Bool) (vs : List VersionId) : Option VersionId :=
  vs.reverse.find? fun v => (s.versions[v]?).any alive

/-- The version of a variable that is visible at a position of a block's timeline, of those that
`alive` accepts. -/
def visibleWith (s : State) (alive : Version → Bool) (b : BlockId) (name : String) (limit : Nat) :
    Option VersionId :=
  match s.dominatorsOf b with
  | [] => none
  | d :: ds =>
    (s.lastOf alive ((s.versionsOf d name).filter (s.isAhead d limit))).or
      (ds.findSome? fun d' => s.lastOf alive (s.versionsOf d' name))

/-- The version of a variable that is visible at the end of a block. -/
def visible? (s : State) (b : BlockId) (name : String) : Option VersionId :=
  s.visibleWith (fun v => s.isLive v.inst) b name (s.endOf b)

/-- The number of the next version of a variable in a block. -/
def nextVersion (s : State) (b : BlockId) (name : String) : Int :=
  let numbers := (s.versionsOf b name).filterMap fun v => (s.versions[v]?).map (·.number)
  let next := numbers.foldl (fun n k => if k ≥ n then k + 1 else n) 0
  if next = 0 then 1 else next

/-- The head of a variable in a join. -/
def head? (s : State) (b : BlockId) (name : String) : Option VersionId :=
  (s.versionsOf b name).find? fun v => (s.versions[v]?).any (·.isHead)

/-- Records on every instruction that a version was computed from that it was. -/
def depend (s : State) (v : VersionId) : State :=
  match s.versions[v]? with
  | none => s
  | some ver =>
    (ver.history ++ [ver.inst]).foldl (fun s id => s.modifyInst id (·.addDep ver.ref)) s

/-- A new version, marked at a position of its block's timeline. -/
def addVersion (s : State) (v : Version) (pos : Nat) : VersionId × State :=
  let id := s.versions.size
  let s := { s with versions := s.versions.push v }
  (id, s.modifyBlock v.block (·.addVersion pos v.var id))

/-- Every open join learns that a variable was assigned. -/
def touch (s : State) (name : String) : State :=
  { s with contexts := s.contexts.map fun c => { c with touched := c.touched.insert name } }

/-- Assigns a value to a variable in a block. Where no join is open, a value that the variable has
already in this block makes no version but only a new provenance. -/
def assign (s : State) (b : BlockId) (name : String) (v : Value) : VersionId × State :=
  let same := (s.visible? b name).filter fun c =>
    s.contexts.isEmpty && (s.versions[c]?).any fun ver => ver.block == b && ver.inst == v.id
  match same with
  | some c =>
    let s := s.modifyVersion c fun ver => { ver with src := v.src, history := v.src.history }
    (c, s.depend c)
  | none =>
    let ver : Version :=
      { var := name, number := s.nextVersion b name, inst := v.id, block := b, src := v.src,
        history := v.src.history }
    let (c, s) := s.addVersion ver (s.endOf b)
    (c, (s.depend c).touch name)

/-- Gives a variable the value zero from the first block with code on. The warning names the block
where the value was wanted. -/
def implicitZero (s : State) (b : BlockId) (name : String) (cause : Option ZeroCause) :
    VersionId × State :=
  let (z, s) := s.const 0
  let ver : Version := { var := name, number := 0, inst := z.id, block := startBlock, src := z.src }
  let (c, s) := s.addVersion ver (s.endOf startBlock)
  let s := s.depend c
  match cause with
  | none => (c, s)
  | some why =>
    let s := { s with diagnostics := s.diagnostics.push ⟨b, name, why⟩ }
    (c, s.report (.implicitZero name b))

/-- A version as a value that is read in a block. -/
def readVersion (s : State) (b : BlockId) (name : String) (c : VersionId) : Value :=
  match s.versions[c]? with
  | some ver => ⟨ver.inst, .read name ver.number b ver.inst⟩
  | none => {}

/-- The value of a variable at the end of a block other than block 0. -/
def readAtEnd (s : State) (b : BlockId) (name : String) (cause : Option ZeroCause) :
    Value × State :=
  if b = entryBlock then ({}, s)
  else
    match s.visible? b name with
    | some c => (s.readVersion b name c, s)
    | none =>
      let (c, s) := s.implicitZero b name cause
      (s.readVersion b name c, s)

end State

/-- Makes a value the current one of a variable in a block. -/
def assign (b : BlockId) (name : String) (v : Value) : Build VersionId := do
  if b = entryBlock then throw (.entryBlock .assign name)
  let _ ← Build.block b
  match (← get).inst? v.id with
  | none => throw (.noSuchValue name v.id)
  | some _ => Build.step (·.assign b name v)

/-- The value of a variable at the end of a block. -/
def lookup (b : BlockId) (name : String) : Build Value := do
  if b = entryBlock then throw (.entryBlock .lookup name)
  let _ ← Build.block b
  Build.step (·.readAtEnd b name (some .readFirst))

/-- The version of a variable that is visible at the end of a block. -/
def latestVersion (b : BlockId) (name : String) : Build VersionId := do
  let _ ← Build.block b
  match (← get).visible? b name with
  | some c => return c
  | none => throw (.noVisibleVersion name b)

/-- The version of a variable with a number, from the nearest dominator of a block that has it. -/
def numberedVersion (b : BlockId) (name : String) (number : Int) : Build VersionId := do
  let blk ← Build.block b
  let s ← get
  let found := blk.dominators.findSome? fun d =>
    (s.versionsOf d name).find? fun v => (s.versions[v]?).any (·.number == number)
  match found with
  | some c => return c
  | none => throw (.noVersion name number b)

end SingleAssignment.Builder
