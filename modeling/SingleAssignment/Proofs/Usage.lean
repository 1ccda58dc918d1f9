import SingleAssignment.Proofs.Parsing

/-!
# The use of names

A designator is used well if it has as many indices as the array that it names has dimensions, or
has none and names no array (`Computation.Allows`). Where variables have to be declared, it names a
declared one.

What is read from a text is regular (`regular_of_parse`): nothing in it is missing, its operators,
relations and functions are those of the language, each function has its arguments, and arrays have
dimensions.
-/

namespace SingleAssignment.Source

open List

/-! ## Designators -/

mutual

/-- The designators in an expression, in the order of evaluation. -/
def Expr.designators : Expr → List Designator
  | .num _ | .hole => []
  | .element name es pos => Expr.designatorsOf es ++ [⟨name, es, pos⟩]
  | .binary _ left right => left.designators ++ right.designators
  | .call _ args _ => Expr.designatorsOf args

/-- The designators in expressions. -/
def Expr.designatorsOf : List Expr → List Designator
  | [] => []
  | e :: es => e.designators ++ Expr.designatorsOf es

end

theorem Expr.designatorsOf_nil : Expr.designatorsOf [] = [] := by
  rw [Expr.designatorsOf]

theorem Expr.designators_scalar (name : String) (pos : Position) :
    (Expr.element name [] pos).designators = [⟨name, [], pos⟩] := by
  rw [Expr.designators, Expr.designatorsOf_nil, nil_append]

/-- The designators in a condition. -/
def Relation.designators (r : Relation) : List Designator :=
  r.left.designators ++ r.right.designators

mutual

/-- The designators in a statement. -/
def Stmt.designators : Stmt → List Designator
  | .assign target value _ => value.designators ++ (Expr.designatorsOf target.indices ++ [target])
  | .call _ args _ => Expr.designatorsOf args
  | .ifThen cond thenPart _ => cond.designators ++ Stmt.designatorsOf thenPart
  | .ifElse cond thenPart elsePart _ =>
    cond.designators ++ (Stmt.designatorsOf thenPart ++ Stmt.designatorsOf elsePart)
  | .loop cond body _ => cond.designators ++ Stmt.designatorsOf body
  | .hole => []

/-- The designators in statements. -/
def Stmt.designatorsOf : List Stmt → List Designator
  | [] => []
  | s :: ss => s.designators ++ Stmt.designatorsOf ss

end

namespace Computation

/-- A designator is used as its name is declared; `strict` says whether a variable has to be. -/
def Allows (c : Computation) (strict : Bool) (d : Designator) : Prop :=
  if d.indices = [] then
    (∀ a ∈ c.arrays, a.name ≠ d.name) ∧ (strict = true → ∃ v ∈ c.vars, v.name = d.name)
  else ∃ a ∈ c.arrays, a.name = d.name ∧ a.dims.length = d.indices.length

instance (c : Computation) (strict : Bool) (d : Designator) : Decidable (c.Allows strict d) :=
  inferInstanceAs (Decidable (if d.indices = [] then
      (∀ a ∈ c.arrays, a.name ≠ d.name) ∧ (strict = true → ∃ v ∈ c.vars, v.name = d.name)
    else ∃ a ∈ c.arrays, a.name = d.name ∧ a.dims.length = d.indices.length))

/-- Every designator is used well. -/
def WellUsed (c : Computation) (strict : Bool) : Prop :=
  ∀ d ∈ Stmt.designatorsOf c.body, c.Allows strict d

instance (c : Computation) (strict : Bool) : Decidable (c.WellUsed strict) :=
  inferInstanceAs (Decidable (∀ d ∈ Stmt.designatorsOf c.body, c.Allows strict d))

end Computation

/-! ## Regular trees -/

mutual

/-- An expression that a text can have. -/
def Expr.Regular : Expr → Prop
  | .num _ => True
  | .element _ es _ => Expr.AllRegular es
  | .binary op left right => (∀ code, op ≠ .other code) ∧ left.Regular ∧ right.Regular
  | .call fn args _ => (∀ code, fn ≠ .other code) ∧ args.length = fn.arity ∧ Expr.AllRegular args
  | .hole => False

/-- Expressions that a text can have. -/
def Expr.AllRegular : List Expr → Prop
  | [] => True
  | e :: es => e.Regular ∧ Expr.AllRegular es

end

/-- A condition that a text can have. -/
def Relation.Regular (r : Relation) : Prop :=
  (∀ code, r.op ≠ .other code) ∧ r.left.Regular ∧ r.right.Regular

mutual

/-- A statement that a text can have. -/
def Stmt.Regular : Stmt → Prop
  | .assign target value _ => Expr.AllRegular target.indices ∧ value.Regular
  | .call fn args _ => (∀ code, fn ≠ .other code) ∧ args.length = fn.arity ∧ Expr.AllRegular args
  | .ifThen cond thenPart _ => cond.Regular ∧ Stmt.AllRegular thenPart
  | .ifElse cond thenPart elsePart _ =>
    cond.Regular ∧ Stmt.AllRegular thenPart ∧ Stmt.AllRegular elsePart
  | .loop cond body _ => cond.Regular ∧ Stmt.AllRegular body
  | .hole => False

/-- Statements that a text can have. -/
def Stmt.AllRegular : List Stmt → Prop
  | [] => True
  | s :: ss => s.Regular ∧ Stmt.AllRegular ss

end

/-- A program that a text can be. -/
structure Computation.Regular (c : Computation) : Prop where
  body : Stmt.AllRegular c.body
  dims : ∀ a ∈ c.arrays, a.dims ≠ [] ∧ ∀ d ∈ a.dims, 0 < d
  names : (c.arrays.map (·.name)).Nodup

/-- A tree that a phrase can have. -/
def Phrase.Regular : Phrase → Prop
  | expression e | term e | factor e => e.Regular
  | designator d => Expr.AllRegular d.indices
  | indices es => Expr.AllRegular es
  | call fn args _ => (∀ code, fn ≠ .other code) ∧ args.length = fn.arity ∧ Expr.AllRegular args
  | relation r => r.Regular
  | statement s => s.Regular
  | sequence ss => Stmt.AllRegular ss

theorem Derives.regular {phrase : Phrase} {ts : List Token} (h : Derives phrase ts) :
    phrase.Regular := by
  induction h with
  | oneTerm _ term => exact term
  | sum _ hop _ left right =>
    refine ⟨fun code he => ?_, left, right⟩
    cases hop <;> cases he
  | oneFactor _ factor => exact factor
  | product _ hop _ left right =>
    refine ⟨fun code he => ?_, left, right⟩
    cases hop <;> cases he
  | number => trivial
  | element _ ih => exact ih
  | parens _ inner => exact inner
  | callFactor _ call => exact call
  | designator _ indices => exact indices
  | noIndex => trivial
  | index _ _ first others => exact ⟨first, others⟩
  | bareCall hfn => rcases hfn with rfl | rfl <;> exact ⟨fun code he => (by cases he), rfl, trivial⟩
  | emptyCall hfn =>
    rcases hfn with rfl | rfl <;> exact ⟨fun code he => (by cases he), rfl, trivial⟩
  | output _ argument => exact ⟨fun code he => (by cases he), rfl, argument, trivial⟩
  | relation _ hop _ left right =>
    refine ⟨fun code he => ?_, left, right⟩
    cases hop <;> cases he
  | assign _ _ target value => exact ⟨target, value⟩
  | callStatement _ call => exact call
  | ifThen _ _ cond thenPart => exact ⟨cond, thenPart⟩
  | ifElse _ _ _ cond thenPart elsePart => exact ⟨cond, thenPart, elsePart⟩
  | loop _ _ cond body => exact ⟨cond, body⟩
  | noStatement => trivial
  | lastStatement _ last => exact ⟨last, trivial⟩
  | nextStatement _ _ first others => exact ⟨first, others⟩

theorem IsDimensions.positive {dims : List Int64} {ts : List Token} (h : IsDimensions dims ts) :
    dims ≠ [] ∧ ∀ d ∈ dims, 0 < d := by
  induction h with
  | one _ hpos => exact ⟨cons_ne_nil _ _, fun d hd => mem_singleton.mp hd ▸ hpos⟩
  | more _ hpos _ ih => exact ⟨cons_ne_nil _ _, forall_mem_cons.mpr ⟨hpos, ih.2⟩⟩

theorem IsDeclarations.positive {vars : List VarDecl} {arrays : List ArrayDecl} {ts : List Token}
    (h : IsDeclarations vars arrays ts) : ∀ a ∈ arrays, a.dims ≠ [] ∧ ∀ d ∈ a.dims, 0 < d := by
  induction h with
  | none => exact fun a ha => by cases ha
  | scalars _ _ ih => exact ih
  | arrays hdims _ _ ih =>
    intro a ha
    rcases mem_append.mp ha with ha | ha
    · obtain ⟨_, -, rfl⟩ := mem_map.mp ha
      exact hdims.positive
    · exact ih a ha

/-- What is read from a text is regular. -/
theorem regular_of_parse {cs : List Char} {c : Computation} (h : parse cs = .ok c) : c.Regular := by
  have hprogram := isProgram_of_read h
  generalize tokenize cs = ts at hprogram
  cases hprogram with
  | mk hdecls hnames hbody =>
    exact ⟨hbody.regular, hdecls.positive, (nodup_append.mp hnames).2.1⟩

end SingleAssignment.Source
