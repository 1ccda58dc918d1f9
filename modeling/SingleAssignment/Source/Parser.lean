import SingleAssignment.Source.Lexer
import SingleAssignment.Source.Number
import SingleAssignment.Source.SyntaxFault
import SingleAssignment.Source.Tree

/-!
# From tokens to trees

One function per rule of the grammar reads from the front of a list of tokens and returns what it
read with the tokens that are left, which are fewer. The list ends with the end of the text or with
a fault, and neither is ever taken. Reading stops at the first error.
-/

namespace SingleAssignment.Source

/-- A value read from the front of `ts`, with fewer tokens left. -/
structure Read (ts : List Token) (α : Type) where
  value : α
  rest : List Token
  shorter : rest.length < ts.length

/-- A value read from the front of `ts`, or from nothing of it. -/
structure MayRead (ts : List Token) (α : Type) where
  value : α
  rest : List Token
  noLonger : rest.length ≤ ts.length

/-- Reading that stops at the first error. -/
abbrev Parse := Except SyntaxError

/-- The token that is read next. -/
def current (ts : List Token) : Token :=
  ts.headD ⟨.endOfText, .start⟩

/-- Stops at the token that is read next. -/
def stop {α : Type} (ts : List Token) (fault : SyntaxFault) : Parse α :=
  .error (.at (current ts) fault)

/-- Reads a token of this very kind; `context` names what stands before it. -/
def consumeAfter (context : Option String) (ts : List Token) (kind : Token.Kind) :
    Parse (Read ts Position) :=
  match ts with
  | [] => stop [] (.expected kind context)
  | t :: rest =>
    if t.kind = kind then .ok ⟨t.pos, rest, Nat.lt_succ_self _⟩
    else stop (t :: rest) (.expected kind context)

/-- Reads a token of this very kind. -/
def consume (ts : List Token) (kind : Token.Kind) : Parse (Read ts Position) :=
  consumeAfter none ts kind

/-- Reads an identifier. -/
def identifier (ts : List Token) : Parse (Read ts (String × Position)) :=
  match ts with
  | ⟨.identifier name, pos⟩ :: rest => .ok ⟨(name, pos), rest, Nat.lt_succ_self _⟩
  | ⟨.keyword k, pos⟩ :: rest => stop (⟨.keyword k, pos⟩ :: rest) (.reservedName k.spelling)
  | ts => stop ts (.expectedIdentifier (current ts).kind)

/-- Reads a number. -/
def number (ts : List Token) : Parse (Read ts (Int64 × Position)) :=
  match ts with
  | ⟨.number digits, pos⟩ :: rest =>
    match numberOfText? digits with
    | some n => .ok ⟨(n, pos), rest, Nat.lt_succ_self _⟩
    | none => .error ⟨pos, .numberRange digits⟩
  | ts => stop ts (.expectedNumber (current ts).kind)

/-! ## Expressions -/

/-- The operator of a sum that a token kind is. -/
def additive? : Token.Kind → Option Operator
  | .symbol .plus => some .add
  | .symbol .minus => some .sub
  | _ => none

/-- The operator of a product that a token kind is. -/
def multiplicative? : Token.Kind → Option Operator
  | .symbol .star => some .mul
  | .symbol .slash => some .div
  | _ => none

/-- The relation that a token kind is. -/
def comparison? : Token.Kind → Option Comparison
  | .symbol .equal => some .equal
  | .symbol .notEqual => some .notEqual
  | .symbol .less => some .less
  | .symbol .lessEqual => some .lessEqual
  | .symbol .greater => some .greater
  | .symbol .greaterEqual => some .greaterEqual
  | _ => none

mutual

/-- Reads a sum. -/
def expression (ts : List Token) : Parse (Read ts Expr) := do
  let ⟨first, ts₁, h₁⟩ ← term ts
  let ⟨e, ts₂, h₂⟩ ← moreTerms first ts₁
  return ⟨e, ts₂, by omega⟩
termination_by (ts.length, 3)

/-- Reads the terms that follow a sum, which `sum` holds so far. -/
def moreTerms (sum : Expr) (ts : List Token) : Parse (MayRead ts Expr) :=
  match ts with
  | [] => return ⟨sum, [], Nat.le_refl _⟩
  | t :: rest =>
    match additive? t.kind with
    | none => return ⟨sum, t :: rest, Nat.le_refl _⟩
    | some op => do
      let ⟨right, ts₁, h₁⟩ ← term rest
      let ⟨e, ts₂, h₂⟩ ← moreTerms (.binary op sum right) ts₁
      return ⟨e, ts₂, by simp only [List.length_cons]; omega⟩
termination_by (ts.length, 0)

/-- Reads a product. -/
def term (ts : List Token) : Parse (Read ts Expr) := do
  let ⟨first, ts₁, h₁⟩ ← factor ts
  let ⟨e, ts₂, h₂⟩ ← moreFactors first ts₁
  return ⟨e, ts₂, by omega⟩
termination_by (ts.length, 2)

/-- Reads the factors that follow a product, which `product` holds so far. -/
def moreFactors (product : Expr) (ts : List Token) : Parse (MayRead ts Expr) :=
  match ts with
  | [] => return ⟨product, [], Nat.le_refl _⟩
  | t :: rest =>
    match multiplicative? t.kind with
    | none => return ⟨product, t :: rest, Nat.le_refl _⟩
    | some op => do
      let ⟨right, ts₁, h₁⟩ ← factor rest
      let ⟨e, ts₂, h₂⟩ ← moreFactors (.binary op product right) ts₁
      return ⟨e, ts₂, by simp only [List.length_cons]; omega⟩
termination_by (ts.length, 0)

/-- Reads a number, a designator, a call or an expression in parentheses. -/
def factor (ts : List Token) : Parse (Read ts Expr) :=
  match ts with
  | [] => stop [] (.expectedExpression .endOfText)
  | t :: rest =>
    match t.kind with
    | .number _ => do
      let ⟨(n, _), ts₁, h₁⟩ ← number (t :: rest)
      return ⟨.num n, ts₁, h₁⟩
    | .identifier _ => do
      let ⟨d, ts₁, h₁⟩ ← designator (t :: rest)
      return ⟨.element d.name d.indices d.pos, ts₁, h₁⟩
    | .symbol .leftParen => do
      let ⟨e, ts₁, h₁⟩ ← expression rest
      let ⟨_, ts₂, h₂⟩ ← consume ts₁ (.symbol .rightParen)
      return ⟨e, ts₂, by simp only [List.length_cons]; omega⟩
    | .keyword .callWord => do
      let ⟨(fn, args, pos), ts₁, h₁⟩ ← call rest
      return ⟨.call fn args pos, ts₁, by simp only [List.length_cons]; omega⟩
    | k => stop (t :: rest) (.expectedExpression k)
termination_by (ts.length, 1)

/-- Reads a variable or an array element. -/
def designator (ts : List Token) : Parse (Read ts Designator) := do
  let ⟨(name, pos), ts₁, h₁⟩ ← identifier ts
  let ⟨indices, ts₂, h₂⟩ ← indexList ts₁
  return ⟨⟨name, indices, pos⟩, ts₂, by omega⟩
termination_by (ts.length, 0)

/-- Reads indices, each in brackets, as long as there are any. -/
def indexList (ts : List Token) : Parse (MayRead ts (List Expr)) :=
  match ts with
  | [] => return ⟨[], [], Nat.le_refl _⟩
  | t :: rest =>
    if t.kind = .symbol .leftBracket then do
      let ⟨e, ts₁, h₁⟩ ← expression rest
      let ⟨_, ts₂, h₂⟩ ← consume ts₁ (.symbol .rightBracket)
      let ⟨es, ts₃, h₃⟩ ← indexList ts₂
      return ⟨e :: es, ts₃, by simp only [List.length_cons]; omega⟩
    else return ⟨[], t :: rest, Nat.le_refl _⟩
termination_by (ts.length, 0)

/-- Reads the name of a function and its arguments. -/
def call (ts : List Token) : Parse (Read ts (Builtin × List Expr × Position)) := do
  let ⟨(name, pos), ts₁, h₁⟩ ← identifier ts
  match Builtin.ofName? name with
  | none => .error ⟨pos, .unknownFunction name⟩
  | some fn =>
    match ts₁, h₁ with
    | ⟨.symbol .leftParen, _⟩ :: ts₂, h₁ => do
      have h₂ : ts₂.length < ts.length := Nat.lt_of_succ_lt h₁
      let ⟨args, ts₃, h₃⟩ ← arguments ts₂
      if args.length = fn.arity then
        return ⟨(fn, args, pos), ts₃, by omega⟩
      else .error ⟨pos, .argumentCount name fn.arity args.length⟩
    | ts₁, h₁ =>
      if fn.arity = 0 then return ⟨(fn, [], pos), ts₁, h₁⟩
      else stop ts₁ (.expected (.symbol .leftParen) (some name))
termination_by (ts.length, 0)

/-- Reads arguments up to the closing parenthesis. -/
def arguments (ts : List Token) : Parse (Read ts (List Expr)) :=
  match ts with
  | ⟨.symbol .rightParen, _⟩ :: rest => return ⟨[], rest, Nat.lt_succ_self _⟩
  | ts => do
    let ⟨e, ts₁, h₁⟩ ← expression ts
    let ⟨es, ts₂, h₂⟩ ← moreArguments ts₁
    let ⟨_, ts₃, h₃⟩ ← consume ts₂ (.symbol .rightParen)
    return ⟨e :: es, ts₃, by omega⟩
termination_by (ts.length, 4)

/-- Reads the arguments that follow a first one, each after a comma. -/
def moreArguments (ts : List Token) : Parse (MayRead ts (List Expr)) :=
  match ts with
  | [] => return ⟨[], [], Nat.le_refl _⟩
  | t :: rest =>
    if t.kind = .symbol .comma then do
      let ⟨e, ts₁, h₁⟩ ← expression rest
      let ⟨es, ts₂, h₂⟩ ← moreArguments ts₁
      return ⟨e :: es, ts₂, by simp only [List.length_cons]; omega⟩
    else return ⟨[], t :: rest, Nat.le_refl _⟩
termination_by (ts.length, 0)

end

/-- Reads two expressions with a relation between them. -/
def relation (ts : List Token) : Parse (Read ts Relation) := do
  let ⟨left, ts₁, h₁⟩ ← expression ts
  match ts₁, h₁ with
  | [], _ => stop [] .expectedRelation
  | t :: ts₂, h₁ =>
    match comparison? t.kind with
    | none => stop (t :: ts₂) .expectedRelation
    | some op => do
      let ⟨right, ts₃, h₃⟩ ← expression ts₂
      return ⟨⟨op, left, right⟩, ts₃, by simp only [List.length_cons] at h₁; omega⟩

/-! ## Statements -/

/-- Whether a sequence of statements ends before this token. -/
def closesSequence : Token.Kind → Bool
  | .symbol .rightBrace | .keyword .fiWord | .keyword .elseWord | .keyword .odWord => true
  | _ => false

mutual

/-- Reads a statement. -/
def statement (ts : List Token) : Parse (Read ts Stmt) :=
  match ts with
  | [] => stop [] (.expectedStatement .endOfText)
  | ⟨kind, pos⟩ :: rest =>
    match kind with
    | .keyword .letWord => do
      let ⟨target, ts₁, h₁⟩ ← designator rest
      let ⟨_, ts₂, h₂⟩ ← consume ts₁ (.symbol .becomes)
      let ⟨value, ts₃, h₃⟩ ← expression ts₂
      return ⟨.assign target value pos, ts₃, by simp only [List.length_cons]; omega⟩
    | .keyword .callWord => do
      let ⟨(fn, args, fnPos), ts₁, h₁⟩ ← call rest
      return ⟨.call fn args fnPos, ts₁, by simp only [List.length_cons]; omega⟩
    | .keyword .ifWord => do
      let ⟨cond, ts₁, h₁⟩ ← relation rest
      let ⟨_, ts₂, h₂⟩ ← consume ts₁ (.keyword .thenWord)
      let ⟨thenPart, ts₃, h₃⟩ ← statementList ts₂
      match ts₃, h₃ with
      | ⟨.keyword .elseWord, _⟩ :: ts₄, h₃ => do
        have h₄ : ts₄.length < ts₂.length := h₃
        let ⟨elsePart, ts₅, h₅⟩ ← statementList ts₄
        let ⟨_, ts₆, h₆⟩ ← consume ts₅ (.keyword .fiWord)
        return ⟨.ifElse cond thenPart elsePart pos, ts₆, by simp only [List.length_cons]; omega⟩
      | ts₃, h₃ => do
        let ⟨_, ts₆, h₆⟩ ← consume ts₃ (.keyword .fiWord)
        return ⟨.ifThen cond thenPart pos, ts₆, by simp only [List.length_cons]; omega⟩
    | .keyword .whileWord => do
      let ⟨cond, ts₁, h₁⟩ ← relation rest
      let ⟨_, ts₂, h₂⟩ ← consume ts₁ (.keyword .doWord)
      let ⟨body, ts₃, h₃⟩ ← statementList ts₂
      let ⟨_, ts₄, h₄⟩ ← consume ts₃ (.keyword .odWord)
      return ⟨.loop cond body pos, ts₄, by simp only [List.length_cons]; omega⟩
    | .keyword .returnWord => stop (⟨kind, pos⟩ :: rest) .strayReturn
    | _ => stop (⟨kind, pos⟩ :: rest) (.expectedStatement kind)
termination_by (ts.length, 0)

/-- Reads statements with semicolons between them; one more semicolon may end the list. -/
def statementList (ts : List Token) : Parse (MayRead ts (List Stmt)) :=
  if closesSequence (current ts).kind then return ⟨[], ts, Nat.le_refl _⟩
  else do
    let ⟨s, ts₁, h₁⟩ ← statement ts
    match ts₁, h₁ with
    | ⟨.symbol .semicolon, _⟩ :: ts₂, h₁ => do
      have h₂ : ts₂.length < ts.length := Nat.lt_of_succ_lt h₁
      let ⟨ss, ts₃, h₃⟩ ← statementList ts₂
      return ⟨s :: ss, ts₃, by omega⟩
    | ts₁, h₁ => return ⟨[s], ts₁, by omega⟩
termination_by (ts.length, 1)

end

/-! ## Declarations and programs -/

/-- Reads the dimensions of an array, each in brackets. -/
def dimensions (ts : List Token) : Parse (Read ts (List Int64)) := do
  let ⟨_, ts₁, h₁⟩ ← consume ts (.symbol .leftBracket)
  let ⟨(n, pos), ts₂, h₂⟩ ← number ts₁
  if n ≤ 0 then .error ⟨pos, .dimensionNotPositive⟩
  else
    let ⟨_, ts₃, h₃⟩ ← consume ts₂ (.symbol .rightBracket)
    if (current ts₃).kind = .symbol .leftBracket then
      let ⟨ns, ts₄, h₄⟩ ← dimensions ts₃
      return ⟨n :: ns, ts₄, by omega⟩
    else return ⟨[n], ts₃, by omega⟩
termination_by ts.length

/-- Reads the names of a declaration, none of which is declared before. -/
def declaredNames (declared : List String) (ts : List Token) :
    Parse (Read ts (List (String × Position))) := do
  let ⟨(name, pos), ts₁, h₁⟩ ← identifier ts
  if declared.contains name then .error ⟨pos, .redeclared name⟩
  else
    match ts₁, h₁ with
    | ⟨.symbol .comma, _⟩ :: ts₂, h₁ => do
      have h₂ : ts₂.length < ts.length := Nat.lt_of_succ_lt h₁
      let ⟨names, ts₃, h₃⟩ ← declaredNames (name :: declared) ts₂
      return ⟨(name, pos) :: names, ts₃, by omega⟩
    | ts₁, h₁ => return ⟨[(name, pos)], ts₁, h₁⟩
termination_by ts.length

/-- The variables and arrays declared so far. -/
structure Declared where
  vars : List VarDecl := []
  arrays : List ArrayDecl := []

/-- The names declared so far. -/
def Declared.names (d : Declared) : List String :=
  d.vars.map (·.name) ++ d.arrays.map (·.name)

/-- What is said after a declaration that lacks its semicolon. -/
def afterDeclaration : Option String := some "declaration"

/-- Reads declarations as long as there are any. -/
def declarations (d : Declared) (ts : List Token) : Parse (MayRead ts Declared) :=
  match ts with
  | ⟨.keyword .varWord, _⟩ :: rest => do
    let ⟨names, ts₁, h₁⟩ ← declaredNames d.names rest
    let ⟨_, ts₂, h₂⟩ ← consumeAfter afterDeclaration ts₁ (.symbol .semicolon)
    let d' := { d with vars := d.vars ++ names.map fun (n, p) => ⟨n, p⟩ }
    let ⟨d'', ts₃, h₃⟩ ← declarations d' ts₂
    return ⟨d'', ts₃, by simp only [List.length_cons]; omega⟩
  | ⟨.keyword .arrayWord, _⟩ :: rest => do
    let ⟨dims, ts₀, h₀⟩ ← dimensions rest
    let ⟨names, ts₁, h₁⟩ ← declaredNames d.names ts₀
    let ⟨_, ts₂, h₂⟩ ← consumeAfter afterDeclaration ts₁ (.symbol .semicolon)
    let d' := { d with arrays := d.arrays ++ names.map fun (n, p) => ⟨n, dims, p⟩ }
    let ⟨d'', ts₃, h₃⟩ ← declarations d' ts₂
    return ⟨d'', ts₃, by simp only [List.length_cons]; omega⟩
  | ts => return ⟨d, ts, Nat.le_refl _⟩
termination_by ts.length

/-- Whether a token starts the declaration of a function. -/
def startsFunction : Token.Kind → Bool
  | .keyword .functionWord | .keyword .procedureWord | .keyword .voidWord => true
  | _ => false

/-- Reads a whole program. -/
def computation (ts : List Token) : Parse Computation := do
  let ⟨_, ts₁, _⟩ ← consume ts (.keyword .mainWord)
  let ⟨d, ts₂, _⟩ ← declarations {} ts₁
  if startsFunction (current ts₂).kind then stop ts₂ .functionDeclared
  else
    let ⟨_, ts₃, _⟩ ← consume ts₂ (.symbol .leftBrace)
    let ⟨body, ts₄, _⟩ ← statementList ts₃
    let ⟨_, ts₅, _⟩ ← consume ts₄ (.symbol .rightBrace)
    let ⟨_, ts₆, _⟩ ← consumeAfter (some "main body") ts₅ (.symbol .period)
    if (current ts₆).kind = .endOfText then return ⟨d.vars, d.arrays, body⟩
    else stop ts₆ .trailingInput

/-- The tree of a text. -/
def parse (cs : List Char) : Parse Computation :=
  computation (tokenize cs)

end SingleAssignment.Source
