import SingleAssignment.Builder.Branch
import SingleAssignment.Builder.Edge
import SingleAssignment.Builder.Join

/-!
# Loop repair

The body of a loop is built before it is known which variables change in it, so uses in the loop may
refer to a value from before the loop. Once the header has its phis, every operand and every version
of the loop is replayed from its provenance. An operand that now resolves to another instruction is
changed where it stands if its instruction has an effect; otherwise a corrected instruction is
found by value numbering, or put right behind the outdated one, and stands in for it from then on.
The joins of the loop are then merged again. Rounds of this repeat until no join changes, but at
most twice the number of blocks and four. In the end outdated instructions are retired; the order in
which they are gone through is a parameter.
-/

namespace SingleAssignment.Builder

open Code

/-- A position on a timeline that moves with what it is attached to. -/
inductive Anchor where
  | inst (id : InstId)
  | mark (version : VersionId)
  | blockEnd
  deriving DecidableEq, Repr, Inhabited

/-- A position in a block. -/
structure Place where
  block : BlockId
  anchor : Anchor
  deriving DecidableEq, Repr, Inhabited

/-- The position on the timeline where a place is now. -/
def Place.position (p : Place) (s : State) : Nat :=
  match p.anchor with
  | .inst id => (s.timelineOf p.block).idxOf (.inst id)
  | .mark v => (s.timelineOf p.block).idxOf (.mark v)
  | .blockEnd => s.endOf p.block

/-- The orders in which tables are gone through, the `n`-th time in that of `order n`. -/
structure Enumeration where
  order : Nat → List InstId → List InstId
  perm : ∀ n l, (order n l).Perm l

/-- Tables are gone through as they are listed. -/
def Enumeration.listed : Enumeration :=
  ⟨fun _ l => l, fun _ _ => .refl _⟩

/-- What is known during a repair. -/
structure Repair where
  base : State
  /-- The instruction that stands in for an outdated one. -/
  subst : List (InstId × InstId) := []
  /-- The values of the versions that were replayed already. -/
  memo : List (VersionId × InstId) := []
  /-- The number of instructions that were put in. -/
  spliced : Nat := 0
  deriving Inhabited

namespace Repair

/-- The instruction that stands in directly for an outdated one. -/
def standIn? (r : Repair) (id : InstId) : Option InstId :=
  r.subst.lookup id

/-- Lets one instruction stand in for another. -/
def setStandIn (r : Repair) (old new : InstId) : Repair :=
  { r with subst := (old, new) :: r.subst.filter (·.1 ≠ old) }

/-- Follows stand-ins, at most `fuel` times. -/
def chaseFor (r : Repair) : Nat → InstId → InstId
  | 0, id => id
  | fuel + 1, id =>
    match r.standIn? id with
    | none => id
    | some next => if next = id then id else r.chaseFor fuel next

/-- The instruction that stands for `id` now. -/
def chase (r : Repair) (id : InstId) : InstId :=
  r.chaseFor (r.subst.length + 1) id

/-- The version of a variable that is visible at a place. -/
def visible? (r : Repair) (p : Place) (name : String) : Option VersionId :=
  r.base.visibleWith (fun v => r.base.isLive (r.chase v.inst)) p.block name (p.position r.base)

/-- Forgets the values of versions. -/
def forget (r : Repair) : Repair :=
  { r with memo := [] }

/-- Remembers the value of a version. -/
def remember (r : Repair) (v : VersionId) (id : InstId) : Repair :=
  { r with memo := (v, id) :: r.memo }

/-- Whether an instruction has the two operands, in either order if that does not matter. -/
def hasOperands (i : Instruction) (x y : Operand) : Bool :=
  (i.x == x && i.y == y) || (i.op.isCommutative && i.x == y && i.y == x)

/-- The instruction that had a value, if it is active and its operands are still these. -/
def same? (r : Repair) (op : Opcode) (inst : InstId) (x y : Operand) : Option Instruction :=
  (r.base.inst? (r.chase inst)).filter fun i => i.active && i.op == op && hasOperands i x y

/-- The value of an operation replayed at a place, where its operands have the values `x` and `y`:
the instruction that had it if its operands are still these, or else one found or put in. -/
def recompute (r : Repair) (op : Opcode) (inst : InstId) (tag : MemoryTag) (x y : Value)
    (p : Place) : InstId × Repair :=
  match r.same? op inst x.operand y.operand with
  | some i => (i.id, r)
  | none =>
    let ((v, _), s) := r.base.number p.block op x y tag (p.position r.base)
    let count := if v.id > r.base.insts.size then r.spliced + 1 else r.spliced
    (v.id, { r with base := s, spliced := count })

/-- The operand of the instruction that had a value, for an operand without provenance. -/
def keptOperand (r : Repair) (inst : InstId) (side : Side) : Value :=
  { id := ((r.base.inst? inst).bind fun i => (i.slot side).inst?).getD 0 }

/-- The value of an operand of an operation: replayed by `replay` if it has a provenance. -/
def operandValue (src : Provenance) (replay : Repair → InstId × Repair) (inst : InstId)
    (side : Side) (r : Repair) : Value × Repair :=
  if src.isPresent then
    let (id, r) := replay r
    ({ id := id, src := src }, r)
  else (r.keptOperand inst side, r)

/-- The instruction that holds a value replayed at a place. `onVersion` gives that of a version. -/
def resolveWith (onVersion : VersionId → Repair → InstId × Repair) :
    Provenance → Place → Repair → InstId × Repair
  | .absent, _, r => (0, r)
  | .unknown inst, _, r => (r.chase inst, r)
  | .immediate n inst, _, r =>
    if inst = 0 then
      let (v, s) := r.base.const n
      (v.id, { r with base := s })
    else (r.chase inst, r)
  | .read name _ block inst, p, r =>
    match r.visible? (if block = p.block then p else ⟨block, .blockEnd⟩) name with
    | some v => onVersion v r
    | none => (r.chase inst, r)
  | .result op inst x y tag, p, r =>
    if (Provenance.result op inst x y tag).isReplayable then
      let (xv, r) := operandValue x (resolveWith onVersion x p) inst .x r
      let (yv, r) := operandValue y (resolveWith onVersion y p) inst .y r
      r.recompute op inst tag xv yv p
    else (r.chase inst, r)

/-- The instruction that a version stands for when it is replayed. Only versions of the loop that
are no heads are replayed; one that is met again while it is being replayed keeps its old value.
Each level of `fuel` replays another version. -/
def valueFor (loop : List BlockId) : Nat → VersionId → Repair → InstId × Repair
  | 0, v, r => (r.chase (((r.base.versions[v]?).map (·.inst)).getD 0), r)
  | fuel + 1, v, r =>
    match r.memo.lookup v, r.base.versions[v]? with
    | some id, _ => (id, r)
    | none, none => (0, r)
    | none, some ver =>
      let old := r.chase ver.inst
      let r := r.remember v old
      if !ver.isHead && ver.src.isPresent && loop.contains ver.block then
        let (id, r) := resolveWith (valueFor loop fuel) ver.src ⟨ver.block, .mark v⟩ r
        (id, r.remember v id)
      else (old, r)

/-- The instruction that a version stands for when it is replayed. -/
def value (loop : List BlockId) (v : VersionId) (r : Repair) : InstId × Repair :=
  valueFor loop (r.base.versions.size + 1) v r

/-- The instruction that holds a value replayed at a place. -/
def resolve (loop : List BlockId) (src : Provenance) (p : Place) (r : Repair) : InstId × Repair :=
  resolveWith (value loop) src p r

/-! ## A round -/

/-- The operand of a slot after replay. -/
def freshOperand (loop : List BlockId) (i : Instruction) (side : Side) (p : Place) (r : Repair) :
    Operand × Repair :=
  match i.slot side with
  | .inst ref =>
    if i.isTarget side then (.inst ref, r)
    else if (i.source side).isPresent then
      let (id, r) := resolve loop (i.source side) p r
      (.inst id, r)
    else (.inst (r.chase ref), r)
  | o => (o, r)

/-- Gives an outdated value a stand-in with the right operands: one found before it, or a new
instruction right behind it. -/
def supersede (i : Instruction) (x y : Operand) (p : Place) (r : Repair) : Repair :=
  let tag := i.memory.getD {}
  let pos := p.position r.base
  match r.base.find? p.block i.op x y tag pos with
  | some (found, _) => r.setStandIn i.id found
  | none =>
    let draft : State.Draft := { op := i.op, x := x, y := y, srcX := i.srcX, srcY := i.srcY }
    let (new, s) := r.base.placeNumbered p.block draft tag (pos + 1)
    { r.setStandIn i.id new with base := s, spliced := r.spliced + 1 }

/-- Replays the operands of an instruction of the loop. -/
def refreshInst (loop : List BlockId) (r : Repair) (id : InstId) : Repair :=
  match r.base.inst? id with
  | none => r
  | some i =>
    if !i.active || i.op == .phi || i.op == .const || (r.standIn? id).isSome then r
    else
      let p : Place := ⟨i.block, .inst id⟩
      let (x, r) := freshOperand loop i .x p r
      let (y, r) := freshOperand loop i .y p r
      if x == i.x && y == i.y then r
      else if i.op.isNumbered then supersede i x y p r
      else { r with base := r.base.modifyInst id fun i => { i with x := x, y := y } }

/-- Replays the operands of every instruction of a block. -/
def refreshBlock (loop : List BlockId) (r : Repair) (b : BlockId) : Repair :=
  ((r.base.timelineOf b).filterMap Slot.inst?).foldl (refreshInst loop) r

/-- The value of a variable at the end of a block after replay. -/
def readAtEnd (loop : List BlockId) (b : BlockId) (name : String) (r : Repair) : Value × Repair :=
  match r.visible? ⟨b, .blockEnd⟩ name with
  | none =>
    let (v, s) := r.base.readAtEnd b name none
    (v, { r with base := s })
  | some v =>
    let number := ((r.base.versions[v]?).map (·.number)).getD 0
    let (id, r) := value loop v r
    (⟨id, .read name number b id⟩, r)

/-- The instruction that holds a variable at the end of a block after replay. -/
def visibleInst? (loop : List BlockId) (b : BlockId) (name : String) (r : Repair) :
    Option InstId × Repair :=
  match r.visible? ⟨b, .blockEnd⟩ name with
  | none => (none, r)
  | some v =>
    let (id, r) := value loop v r
    (some id, r)

/-- Takes note of what merging did: a retired phi has a stand-in, and a changed join makes the
values of versions unknown. -/
def note (r : Repair) (merged : Merged) : Repair :=
  let r := match merged.retired with
    | some (phi, value) => r.setStandIn phi value
    | none => r
  if merged.changed then r.forget else r

/-- Merges a variable again at a join of the loop. The answer says whether the join changed. -/
def reconcile (loop : List BlockId) (j : BlockId) (r : Repair) (name : String) : Bool × Repair :=
  let (p, q) := r.base.joinParents j
  let (x, r) := readAtEnd loop p name r
  let (y, r) := readAtEnd loop q name r
  let (above, r) :=
    if x.id = y.id && (r.base.head? j name).isNone then
      visibleInst? loop (r.base.blockAbove j) name r
    else (none, r)
  let (merged, s) := r.base.merge j name x y above
  (merged.changed, { r with base := s }.note merged)

/-- Takes a step for each of a list. The answer says whether one of them changed a join. -/
def sweep {α : Type} (step : Repair → α → Bool × Repair) : List α → Repair → Bool × Repair
  | [], r => (false, r)
  | a :: rest, r =>
    let (changed, r) := step r a
    let (changedLater, r) := sweep step rest r
    (changed || changedLater, r)

/-- Merges the variables of a join again. The answer says whether the join changed. -/
def reconcileBlock (loop : List BlockId) (r : Repair) (j : BlockId) : Bool × Repair :=
  match r.base.block? j with
  | none => (false, r)
  | some blk =>
    if blk.join = .none then (false, r) else sweep (reconcile loop j) blk.joinVars.toList r

/-- Replays the instructions of the loop. -/
def refresh (order : List BlockId) (r : Repair) : Repair :=
  (order.foldl (refreshBlock order) r.forget).forget

/-- One round: replays the instructions of the loop, then merges its joins again. The answer says
whether a join changed. -/
def round (order : List BlockId) (r : Repair) : Bool × Repair :=
  sweep (reconcileBlock order) order (r.refresh order)

/-- Rounds until no join changes, at most `left` more; `done` counts them. -/
def rounds (header : BlockId) (order : List BlockId) : Nat → Nat → Repair → Nat × Repair
  | 0, done, r => (done, r)
  | left + 1, done, r =>
    let (changed, r) := round order r
    if !changed then (done + 1, r)
    else if left = 0 then
      (done + 1, { r with base := r.base.report (.repairUnsettled header (done + 1)) })
    else rounds header order left (done + 1) r

/-! ## After the rounds -/

/-- Points a version at an instruction and brings its history up to date. -/
def rebind (r : Repair) (v : VersionId) (id : InstId) : Repair :=
  match r.base.versions[v]? with
  | none => r
  | some ver =>
    let chased := ver.history.map r.chase
    let history :=
      if ver.src.isReplayable && !chased.isEmpty then chased.dropLast ++ [id] else chased
    let s := r.base.modifyVersion v fun ver => { ver with history := history, inst := id }
    { r with base := if id = ver.inst then s else s.depend v }

/-- Points a version of the loop at its value. -/
def rebindInside (loop : List BlockId) (r : Repair) (v : VersionId) : Repair :=
  match r.base.versions[v]? with
  | none => r
  | some ver =>
    let (id, r) := if ver.isHead then (r.chase ver.inst, r) else value loop v r
    r.rebind v id

/-- Points the versions of a block of the loop at their values. -/
def rebindBlock (loop : List BlockId) (r : Repair) (b : BlockId) : Repair :=
  (r.base.variablesOf b).foldl
    (fun r name => (r.base.versionsOf b name).foldl (rebindInside loop) r) r

/-- Points a version outside the loop at what stands in for its instruction. -/
def rebindChased (r : Repair) (v : VersionId) : Repair :=
  r.rebind v (r.chase (((r.base.versions[v]?).map (·.inst)).getD 0))

/-- Points the versions outside the loop that were computed from an outdated instruction at what
stands in for it. -/
def rebindOutside (loop : List BlockId) (r : Repair) (old : InstId) : Repair :=
  (((r.base.inst? old).map (·.deps)).getD []).foldl (fun r ref =>
    if loop.contains ref.block then r
    else
      ((r.base.versionsOf ref.block ref.var).filter fun v =>
        (r.base.versions[v]?).any (·.number == ref.number)).foldl rebindChased r) r

/-- The instructions that some active instruction or some version still refers to. -/
def referenced (s : State) : List InstId :=
  let operands := s.insts.toList.flatMap fun i =>
    if i.active then
      [Side.x, Side.y].filterMap fun side => if i.isTarget side then none else (i.slot side).inst?
    else []
  let filed := s.blocks.toList.flatMap fun b =>
    (b.table.flatMap Prod.snd).filterMap fun v => (s.versions[v]?).map (·.inst)
  operands ++ filed

/-- Retires an instruction. -/
def retire (s : State) (id : InstId) : State :=
  s.modifyInst id fun i => { i with active := false }

/-- The outdated instructions that nothing refers to, if `left` passes are left. -/
def stale (e : Enumeration) (left : Nat) (s : State) (olds : List InstId) : List InstId :=
  (e.order (2 * left + 1) olds).filter fun old =>
    s.isLive old && !(e.order (2 * left + 2) (referenced s)).contains old

/-- Retires outdated instructions until every one left is referred to, in at most `fuel` passes. -/
def retireStale (e : Enumeration) (olds : List InstId) : Nat → State → State
  | 0, s => s
  | left + 1, s =>
    if (stale e left s olds).isEmpty then s
    else retireStale e olds left ((stale e left s olds).foldl retire s)

/-- The outdated instructions. -/
def outdated (r : Repair) : List InstId :=
  r.subst.map (·.1)

/-- Points the versions at their values and retires what is outdated. -/
def replay (e : Enumeration) (loop : List BlockId) (r : Repair) : Repair :=
  let r := loop.foldl (rebindBlock loop) r.forget
  let r := (e.order 0 r.outdated).foldl (rebindOutside loop) r
  { r with base := retireStale e r.outdated (r.outdated.length + 1) r.base }

/-- Repairs a loop whose blocks are `loop`, the header first. -/
def run (e : Enumeration) (header : BlockId) (loop : List BlockId) (r : Repair) : Repair :=
  let (count, r) := rounds header loop (2 * loop.length + 4) 0 r
  let r := r.replay e loop
  { r with base := r.base.report (.loopRepaired header loop.length r.spliced count) }

end Repair

namespace State

/-- The children of a block that are not in a list, each once. -/
def newChildren (s : State) (seen : List BlockId) (b : BlockId) : List BlockId :=
  (((s.block? b).map (·.children)).getD []).foldl
    (fun new c => if seen.contains c || new.contains c then new else new ++ [c]) []

/-- The blocks that are reached from those in `queue`, level by level. Each unit of `fuel` visits a
block; `seen` holds those that were put into the queue. -/
def reachFrom (s : State) : Nat → List BlockId → List BlockId → List BlockId
  | 0, _, _ => []
  | _, _, [] => []
  | fuel + 1, seen, b :: queue =>
    let new := s.newChildren seen b
    b :: s.reachFrom fuel (seen ++ new) (queue ++ new)

/-- The blocks that are reached from a block, itself first, level by level. -/
def reach (s : State) (b : BlockId) : List BlockId :=
  s.reachFrom s.blocks.size [b] [b]

/-- Repairs the loop of a header, with tables in the order of `e`. -/
def repairLoopIn (e : Enumeration) (s : State) (header : BlockId) : State :=
  (Repair.run e header (s.reach header) { base := s }).base

/-- Repairs the loop of a header. -/
abbrev repairLoop (s : State) (header : BlockId) : State :=
  s.repairLoopIn .listed header

end State

/-- Closes the innermost loop: adds the edge back to the header and merges the variables assigned in
the loop. -/
def mergeLoop (header bottom : BlockId) : Build Unit := do
  let blk ← Build.block header
  let _ ← Build.block bottom
  if blk.join ≠ .loop then throw (.notLoopHeader header)
  let touched ← closeJoin true
  modify (·.link bottom header)
  let parents := (((← get).block? header).map (·.parents)).getD []
  if parents.length ≠ 2 then throw (.loopHeaderParents header parents.length)
  touched.toList.forM fun name => modify (·.reconcile header name)

/-- Makes the block behind a loop, where the given branch of the header goes. -/
def exitLoop (header : BlockId) (exitBranch : InstId) : Build BlockId := do
  let exit ← newBlock
    { kind := .exit, dominators := (← get).dominatorsOf header, parents := [header] }
  if exitBranch ≠ 0 then
    let i ← Build.instruction exitBranch
    deferBranch exitBranch (if i.op.isConditional then 1 else 0) exit
  return exit

/-- Closes the innermost loop, repairs it with tables in the order of `e` and makes the block behind
it. -/
def reconcileLoopIn (e : Enumeration) (header bottom : BlockId) (exitBranch : InstId) :
    Build BlockId := do
  mergeLoop header bottom
  modify (·.repairLoopIn e header)
  exitLoop header exitBranch

/-- Closes the innermost loop, repairs it and makes the block behind it. -/
abbrev reconcileLoop (header bottom : BlockId) (exitBranch : InstId) : Build BlockId :=
  reconcileLoopIn .listed header bottom exitBranch

end SingleAssignment.Builder
