import SingleAssignment.Lowering.Basic

/-!
# Moments of lowering

Some calls of the builder matter by the state they are made in: reading an element of an array,
which may find a load that is there already, and repairing a loop. `moments` lists them for a
computation, in the order lowering comes to them, each with the state it starts from. The states are
those of the lowering functions themselves: a part of the tree is entered in the state that lowering
everything in front of it ends in, and nothing behind a failure is entered.
-/

namespace SingleAssignment.Lowering

open Code Builder Source

/-- A call of the builder, with the state it starts from. -/
inductive Moment where
  /-- An element of an array is read at the given indices. -/
  | load (walk : Walk) (name : String) (indices : List Value)
  /-- A loop is repaired; its variables are merged at the header. -/
  | repair (state : State) (header : BlockId)

/-- What a step that came to its end is followed by. -/
def follow {α β : Type} (r : EStateM.Result Report Walk α) (next : α → Walk → List β) : List β :=
  match r with
  | .ok a w => next a w
  | .error _ _ => []

theorem follow_ok {α β : Type} {r : EStateM.Result Report Walk α} {a : α} {w : Walk}
    (hr : r = .ok a w) (next : α → Walk → List β) : follow r next = next a w := by
  rw [hr]
  rfl

theorem mem_follow {α β : Type} {r : EStateM.Result Report Walk α} {next : α → Walk → List β}
    {x : β} : x ∈ follow r next ↔ ∃ a w, r = .ok a w ∧ x ∈ next a w := by
  constructor
  · intro h
    cases r with
    | ok a w => exact ⟨a, w, rfl, h⟩
    | error => cases h
  · rintro ⟨a, w, rfl, h⟩
    exact h

/-! ## Expressions -/

mutual

/-- The moments of lowering an expression. -/
def exprMoments (scope : Scope) : Expr → Walk → List Moment
  | .num _ | .element _ [] _ | .hole => fun _ => []
  | .element name (e :: es) _ => fun w =>
    indicesMoments scope (e :: es) w ++
      follow (lowerIndices scope (e :: es) w) fun indices w => [.load w name indices]
  | .binary _ left right => fun w =>
    exprMoments scope left w ++
      follow (lowerExpr scope left w) fun _ w => exprMoments scope right w
  | .call fn args _ => fun w => if fn = .outputNum then argumentMoments scope args w else []

/-- The moments of lowering indices from left to right. -/
def indicesMoments (scope : Scope) : List Expr → Walk → List Moment
  | [] => fun _ => []
  | e :: es => fun w =>
    exprMoments scope e w ++ follow (lowerExpr scope e w) fun _ w => indicesMoments scope es w

/-- The moments of lowering the argument of a call. -/
def argumentMoments (scope : Scope) : List Expr → Walk → List Moment
  | [] => fun _ => []
  | e :: _ => exprMoments scope e

end

/-- The moments of lowering a condition. -/
def relationMoments (scope : Scope) (r : Relation) (w : Walk) : List Moment :=
  exprMoments scope r.left w ++
    follow (lowerExpr scope r.left w) fun _ w => exprMoments scope r.right w

/-! ## Statements -/

mutual

/-- The moments of lowering a statement. -/
def stmtMoments (scope : Scope) : Stmt → Walk → List Moment
  | .assign target value _ => fun w =>
    exprMoments scope value w ++
      follow (lowerExpr scope value w) fun _ w => indicesMoments scope target.indices w
  | .call fn args _ => fun w => if fn = .outputNum then argumentMoments scope args w else []
  | .ifThen cond thenPart _ => fun w =>
    relationMoments scope cond w ++
      follow (openIf scope .ifThen cond w) fun _ w => stmtsMoments scope thenPart w
  | .ifElse cond thenPart elsePart _ => fun w =>
    relationMoments scope cond w ++
      follow (openIf scope .ifElse cond w) fun f w =>
        stmtsMoments scope thenPart w ++
          follow ((do lowerStmts scope thenPart; openElse f) w) fun _ w =>
            stmtsMoments scope elsePart w
  | .loop cond body _ => fun w =>
    (follow (openHeader w) fun _ w => relationMoments scope cond w) ++
      follow (openLoop scope cond w) fun f w =>
        stmtsMoments scope body w ++
          follow ((do lowerStmts scope body
                      let bottom ← endBody f
                      build (mergeLoop f.header bottom)) w) fun _ w =>
            [.repair w.builder f.header]
  | .hole => fun _ => []

/-- The moments of lowering statements in order. -/
def stmtsMoments (scope : Scope) : List Stmt → Walk → List Moment
  | [] => fun _ => []
  | s :: ss => fun w =>
    stmtMoments scope s w ++ follow (lowerStmt scope s w) fun _ w => stmtsMoments scope ss w

end

/-- The moments of lowering a computation. -/
def moments (settings : Settings) (c : Computation) : List Moment :=
  follow (declareArrays c.arrays { builder := .new settings }) fun _ w =>
    stmtsMoments ⟨settings.strict, c.vars.map (·.name)⟩ c.body w

/-- The repairs that lowering a computation makes, with the states they start from. -/
def repairs (settings : Settings) (c : Computation) : List (State × BlockId) :=
  (moments settings c).filterMap fun
    | .repair s header => some (s, header)
    | .load .. => none

end SingleAssignment.Lowering
