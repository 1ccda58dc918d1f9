import Mathlib.Data.Nat.Digits.Defs
import Mathlib.Tactic.Ring
import SingleAssignment.Source.Parser

/-!
# The grammar

The language is given by rules that say which rows of tokens are which phrase, each phrase with its
tree (`Derives`). Sums and products are left-recursive, so that their operators associate to the
left, and a product is part of a sum. A tree takes its positions from the tokens that the rules
name. A whole program (`IsProgram`) declares no name twice, ends with the end of the text and has no
token behind it.

The functions that read tokens are taken apart here into their steps, so that nothing below opens
them again (`outcome_expression`, `outcome_moreTerms` and so on).
-/

namespace SingleAssignment.Source

open List

/-! ## Rules -/

/-- A row of decimal digits denotes a number. -/
def Denotes (digits : String) (n : Int64) : Prop :=
  digits ≠ "" ∧ (∀ c ∈ digits.toList, c.isDigit = true) ∧
    n.toInt = (Nat.ofDigits 10 ((digits.toList.map fun c => c.toNat - '0'.toNat).reverse) : Nat)

/-- The operators of a sum. -/
inductive IsSumOperator : Token.Kind → Operator → Prop
  | plus : IsSumOperator (.symbol .plus) .add
  | minus : IsSumOperator (.symbol .minus) .sub

/-- The operators of a product. -/
inductive IsProductOperator : Token.Kind → Operator → Prop
  | star : IsProductOperator (.symbol .star) .mul
  | slash : IsProductOperator (.symbol .slash) .div

/-- The relations. -/
inductive IsComparison : Token.Kind → Comparison → Prop
  | equal : IsComparison (.symbol .equal) .equal
  | notEqual : IsComparison (.symbol .notEqual) .notEqual
  | less : IsComparison (.symbol .less) .less
  | lessEqual : IsComparison (.symbol .lessEqual) .lessEqual
  | greater : IsComparison (.symbol .greater) .greater
  | greaterEqual : IsComparison (.symbol .greaterEqual) .greaterEqual

/-- What a row of tokens can be, with its tree. -/
inductive Phrase where
  | expression (e : Expr)
  | term (e : Expr)
  | factor (e : Expr)
  | designator (d : Designator)
  | indices (es : List Expr)
  | call (fn : Builtin) (args : List Expr) (pos : Position)
  | relation (r : Relation)
  | statement (s : Stmt)
  | sequence (ss : List Stmt)

/-- A row of tokens is a phrase. -/
inductive Derives : Phrase → List Token → Prop
  | oneTerm {e : Expr} {ts : List Token} (term : Derives (.term e) ts) : Derives (.expression e) ts
  | sum {l r : Expr} {op : Operator} {k : Token.Kind} {p : Position} {ts us : List Token}
      (left : Derives (.expression l) ts) (hop : IsSumOperator k op)
      (right : Derives (.term r) us) :
      Derives (.expression (.binary op l r)) (ts ++ ⟨k, p⟩ :: us)
  | oneFactor {e : Expr} {ts : List Token} (factor : Derives (.factor e) ts) : Derives (.term e) ts
  | product {l r : Expr} {op : Operator} {k : Token.Kind} {p : Position} {ts us : List Token}
      (left : Derives (.term l) ts) (hop : IsProductOperator k op)
      (right : Derives (.factor r) us) :
      Derives (.term (.binary op l r)) (ts ++ ⟨k, p⟩ :: us)
  | number {digits : String} {n : Int64} {p : Position} (hn : Denotes digits n) :
      Derives (.factor (.num n)) [⟨.number digits, p⟩]
  | element {d : Designator} {ts : List Token} (designator : Derives (.designator d) ts) :
      Derives (.factor (.element d.name d.indices d.pos)) ts
  | parens {e : Expr} {p q : Position} {ts : List Token} (inner : Derives (.expression e) ts) :
      Derives (.factor e) (⟨.symbol .leftParen, p⟩ :: (ts ++ [⟨.symbol .rightParen, q⟩]))
  | callFactor {fn : Builtin} {args : List Expr} {pos p : Position} {ts : List Token}
      (call : Derives (.call fn args pos) ts) :
      Derives (.factor (.call fn args pos)) (⟨.keyword .callWord, p⟩ :: ts)
  | designator {name : String} {es : List Expr} {pos : Position} {ts : List Token}
      (indices : Derives (.indices es) ts) :
      Derives (.designator ⟨name, es, pos⟩) (⟨.identifier name, pos⟩ :: ts)
  | noIndex : Derives (.indices []) []
  | index {e : Expr} {es : List Expr} {p q : Position} {ts us : List Token}
      (first : Derives (.expression e) ts) (others : Derives (.indices es) us) :
      Derives (.indices (e :: es))
        (⟨.symbol .leftBracket, p⟩ :: (ts ++ ⟨.symbol .rightBracket, q⟩ :: us))
  /-- A function without arguments is called without parentheses, -/
  | bareCall {fn : Builtin} {pos : Position} (hfn : fn = .inputNum ∨ fn = .outputNewLine) :
      Derives (.call fn [] pos) [⟨.identifier fn.name, pos⟩]
  /-- or with empty ones. -/
  | emptyCall {fn : Builtin} {pos p q : Position} (hfn : fn = .inputNum ∨ fn = .outputNewLine) :
      Derives (.call fn [] pos)
        [⟨.identifier fn.name, pos⟩, ⟨.symbol .leftParen, p⟩, ⟨.symbol .rightParen, q⟩]
  | output {e : Expr} {pos p q : Position} {ts : List Token}
      (argument : Derives (.expression e) ts) :
      Derives (.call .outputNum [e] pos) (⟨.identifier Builtin.outputNum.name, pos⟩ ::
        ⟨.symbol .leftParen, p⟩ :: (ts ++ [⟨.symbol .rightParen, q⟩]))
  | relation {l r : Expr} {op : Comparison} {k : Token.Kind} {p : Position} {ts us : List Token}
      (left : Derives (.expression l) ts) (hop : IsComparison k op)
      (right : Derives (.expression r) us) :
      Derives (.relation ⟨op, l, r⟩) (ts ++ ⟨k, p⟩ :: us)
  | assign {d : Designator} {e : Expr} {pos p : Position} {ts us : List Token}
      (target : Derives (.designator d) ts) (value : Derives (.expression e) us) :
      Derives (.statement (.assign d e pos))
        (⟨.keyword .letWord, pos⟩ :: (ts ++ ⟨.symbol .becomes, p⟩ :: us))
  | callStatement {fn : Builtin} {args : List Expr} {pos p : Position} {ts : List Token}
      (call : Derives (.call fn args pos) ts) :
      Derives (.statement (.call fn args pos)) (⟨.keyword .callWord, p⟩ :: ts)
  | ifThen {r : Relation} {ss : List Stmt} {pos p q : Position} {ts us : List Token}
      (cond : Derives (.relation r) ts) (thenPart : Derives (.sequence ss) us) :
      Derives (.statement (.ifThen r ss pos)) (⟨.keyword .ifWord, pos⟩ ::
        (ts ++ ⟨.keyword .thenWord, p⟩ :: (us ++ [⟨.keyword .fiWord, q⟩])))
  | ifElse {r : Relation} {ss ss' : List Stmt} {pos p p' q : Position} {ts us us' : List Token}
      (cond : Derives (.relation r) ts) (thenPart : Derives (.sequence ss) us)
      (elsePart : Derives (.sequence ss') us') :
      Derives (.statement (.ifElse r ss ss' pos)) (⟨.keyword .ifWord, pos⟩ ::
        (ts ++ ⟨.keyword .thenWord, p⟩ ::
          (us ++ ⟨.keyword .elseWord, p'⟩ :: (us' ++ [⟨.keyword .fiWord, q⟩]))))
  | loop {r : Relation} {ss : List Stmt} {pos p q : Position} {ts us : List Token}
      (cond : Derives (.relation r) ts) (body : Derives (.sequence ss) us) :
      Derives (.statement (.loop r ss pos)) (⟨.keyword .whileWord, pos⟩ ::
        (ts ++ ⟨.keyword .doWord, p⟩ :: (us ++ [⟨.keyword .odWord, q⟩])))
  | noStatement : Derives (.sequence []) []
  | lastStatement {s : Stmt} {ts : List Token} (last : Derives (.statement s) ts) :
      Derives (.sequence [s]) ts
  /-- A semicolon stands between statements; nothing has to follow the last one. -/
  | nextStatement {s : Stmt} {ss : List Stmt} {p : Position} {ts us : List Token}
      (first : Derives (.statement s) ts) (others : Derives (.sequence ss) us) :
      Derives (.sequence (s :: ss)) (ts ++ ⟨.symbol .semicolon, p⟩ :: us)

/-- One dimension or more, each a positive number in brackets. -/
inductive IsDimensions : List Int64 → List Token → Prop
  | one {digits : String} {n : Int64} {p q r : Position} (hn : Denotes digits n) (hpos : 0 < n) :
      IsDimensions [n] [⟨.symbol .leftBracket, p⟩, ⟨.number digits, q⟩, ⟨.symbol .rightBracket, r⟩]
  | more {digits : String} {n : Int64} {ns : List Int64} {p q r : Position} {ts : List Token}
      (hn : Denotes digits n) (hpos : 0 < n) (others : IsDimensions ns ts) :
      IsDimensions (n :: ns)
        (⟨.symbol .leftBracket, p⟩ :: ⟨.number digits, q⟩ :: ⟨.symbol .rightBracket, r⟩ :: ts)

/-- One name or more, with commas between them. -/
inductive IsNames : List (String × Position) → List Token → Prop
  | one {name : String} {pos : Position} : IsNames [(name, pos)] [⟨.identifier name, pos⟩]
  | more {name : String} {pos p : Position} {names : List (String × Position)} {ts : List Token}
      (others : IsNames names ts) :
      IsNames ((name, pos) :: names) (⟨.identifier name, pos⟩ :: ⟨.symbol .comma, p⟩ :: ts)

/-- Declarations of variables and arrays, each with a semicolon at its end. -/
inductive IsDeclarations : List VarDecl → List ArrayDecl → List Token → Prop
  | none : IsDeclarations [] [] []
  | scalars {names : List (String × Position)} {vars : List VarDecl} {arrays : List ArrayDecl}
      {p q : Position} {ts us : List Token} (hnames : IsNames names ts)
      (others : IsDeclarations vars arrays us) :
      IsDeclarations (names.map (fun (name, pos) => ⟨name, pos⟩) ++ vars) arrays
        (⟨.keyword .varWord, p⟩ :: (ts ++ ⟨.symbol .semicolon, q⟩ :: us))
  | arrays {dims : List Int64} {names : List (String × Position)} {vars : List VarDecl}
      {arrays : List ArrayDecl} {p q : Position} {ts us vs : List Token}
      (hdims : IsDimensions dims ts) (hnames : IsNames names us)
      (others : IsDeclarations vars arrays vs) :
      IsDeclarations vars (names.map (fun (name, pos) => ⟨name, dims, pos⟩) ++ arrays)
        (⟨.keyword .arrayWord, p⟩ :: (ts ++ (us ++ ⟨.symbol .semicolon, q⟩ :: vs)))

/-- A row of tokens is a whole program. No name is declared twice. -/
inductive IsProgram : Computation → List Token → Prop
  | mk {vars : List VarDecl} {arrays : List ArrayDecl} {body : List Stmt} {p q r r' r'' : Position}
      {ts us : List Token} (hdecls : IsDeclarations vars arrays ts)
      (hnames : (vars.map (·.name) ++ arrays.map (·.name)).Nodup)
      (hbody : Derives (.sequence body) us) :
      IsProgram ⟨vars, arrays, body⟩ (⟨.keyword .mainWord, p⟩ :: (ts ++ ⟨.symbol .leftBrace, q⟩ ::
        (us ++ [⟨.symbol .rightBrace, r⟩, ⟨.symbol .period, r'⟩, ⟨.endOfText, r''⟩])))

/-! ## The steps of reading -/

/-- What reading comes to: a value, and the tokens that are left. -/
def Read.outcome {ts : List Token} {α : Type} (p : Parse (Read ts α)) : Option (α × List Token) :=
  p.toOption.map fun r => (r.value, r.rest)

/-- What reading that may take nothing comes to. -/
def MayRead.outcome {ts : List Token} {α : Type} (p : Parse (MayRead ts α)) :
    Option (α × List Token) :=
  p.toOption.map fun r => (r.value, r.rest)

open Read (outcome)

variable {ts rest : List Token} {e e' : Expr} {es : List Expr}

section Outcome

variable {us : List Token} {α : Type}

@[simp] theorem Read.outcome_ok (r : Read us α) : outcome (.ok r) = some (r.value, r.rest) := rfl

@[simp] theorem Read.outcome_error (e : SyntaxError) :
    outcome (.error e : Parse (Read us α)) = none := rfl

@[simp] theorem outcome_stop (fault : SyntaxFault) :
    outcome (stop ts fault : Parse (Read us α)) = none := rfl

end Outcome

section Sequence

variable {ρ σ β γ : Type} {view : ρ → σ} {p : Parse ρ} {f : ρ → Parse β} {g : β → γ}

/-- Reading goes on from what was read first. -/
theorem outcome_bind {next : σ → Option γ} (h : ∀ r, (f r).toOption.map g = next (view r)) :
    (p >>= f).toOption.map g = (p.toOption.map view).bind next := by
  cases p with
  | error => rfl
  | ok r => exact h r

/-- Reading comes to what was read first. -/
theorem outcome_map {made : σ → γ} (h : ∀ r, (f r).toOption.map g = some (made (view r))) :
    (p >>= f).toOption.map g = (p.toOption.map view).map made := by
  cases p with
  | error => rfl
  | ok r => exact h r

end Sequence

theorem outcome_consumeAfter (context : Option String) (ts : List Token) (kind : Token.Kind)
    {pos : Position} : outcome (consumeAfter context ts kind) = some (pos, rest) ↔
      ts = ⟨kind, pos⟩ :: rest := by
  cases ts with
  | nil => simp [consumeAfter, stop, outcome, Except.toOption]
  | cons t ts =>
    obtain ⟨k, p⟩ := t
    by_cases hk : k = kind <;> simp [consumeAfter, stop, outcome, Except.toOption, hk]

theorem outcome_identifier {name : String} {pos : Position} :
    outcome (identifier ts) = some ((name, pos), rest) ↔ ts = ⟨.identifier name, pos⟩ :: rest := by
  unfold identifier
  split <;> simp_all [stop, outcome, Except.toOption]


theorem decimalFrom?_eq_some {cs : List Char} {acc v : Nat} : decimalFrom? acc cs = some v ↔
    (∀ c ∈ cs, c.isDigit = true) ∧ v = acc * 10 ^ cs.length +
      Nat.ofDigits 10 ((cs.map fun c => c.toNat - '0'.toNat).reverse) := by
  induction cs generalizing acc with
  | nil =>
    simp only [decimalFrom?, Option.some_inj, not_mem_nil, false_imp_iff, implies_true, true_and,
      length_nil, Nat.pow_zero, Nat.mul_one, map_nil, reverse_nil, Nat.ofDigits_nil, Nat.add_zero]
    exact eq_comm
  | cons c cs ih =>
    have hdigit : ('0' ≤ c && c ≤ '9') = c.isDigit := rfl
    unfold decimalFrom?
    rw [hdigit]
    by_cases hc : c.isDigit = true
    · rw [if_pos hc, ih, forall_mem_cons, map_cons, reverse_cons, Nat.ofDigits_append,
        length_reverse, length_map, Nat.ofDigits_singleton, length_cons, pow_succ]
      have heq : (acc * 10 + (c.toNat - '0'.toNat)) * 10 ^ cs.length =
          acc * (10 ^ cs.length * 10) + 10 ^ cs.length * (c.toNat - '0'.toNat) := by ring
      rw [heq]
      constructor
      · rintro ⟨hcs, rfl⟩
        exact ⟨⟨hc, hcs⟩, by omega⟩
      · rintro ⟨⟨-, hcs⟩, rfl⟩
        exact ⟨hcs, by omega⟩
    · simp [hc]

/-- The numbers of the language are those that fit a word. -/
theorem numberOfText?_eq_some {digits : String} {n : Int64} :
    numberOfText? digits = some n ↔ Denotes digits n := by
  unfold numberOfText? Denotes
  split
  · rename_i h
    simp [String.toList_eq_nil_iff.mp h]
  · rename_i cs hne
    have hne : digits ≠ "" := fun h => hne (by rw [h]; rfl)
    simp only [Option.bind_eq_some_iff, decimalFrom?_eq_some, Nat.zero_mul, Nat.zero_add]
    constructor
    · rintro ⟨v, ⟨hdigits, rfl⟩, hv⟩
      split at hv
      · rename_i hlt
        cases hv
        exact ⟨hne, hdigits, Int64.toInt_ofNat_of_lt hlt⟩
      · cases hv
    · rintro ⟨-, hdigits, hn⟩
      refine ⟨_, ⟨hdigits, rfl⟩, ?_⟩
      have hlt := Int64.toInt_lt n
      rw [hn] at hlt
      have hlt : Nat.ofDigits 10 ((digits.toList.map fun c => c.toNat - '0'.toNat).reverse) <
        Nat.pow 2 63 := by
        exact_mod_cast hlt
      rw [if_pos hlt, Option.some_inj, ← Int64.toInt_inj, Int64.toInt_ofNat_of_lt hlt, hn]

theorem outcome_number {n : Int64} {pos : Position} : outcome (number ts) = some ((n, pos), rest) ↔
    ∃ digits, ts = ⟨.number digits, pos⟩ :: rest ∧ Denotes digits n := by
  unfold number
  split
  · rename_i digits p us
    cases hn : numberOfText? digits with
    | none => simp [← numberOfText?_eq_some, hn]
    | some m =>
      simp only [Read.outcome_ok]
      constructor
      · intro h
        cases h
        exact ⟨digits, rfl, numberOfText?_eq_some.mp hn⟩
      · rintro ⟨digits', h, hd⟩
        cases h
        rw [← numberOfText?_eq_some, hn] at hd
        cases hd
        rfl
  · rename_i hne
    simp only [outcome_stop]
    constructor
    · intro h
      cases h
    · rintro ⟨digits, rfl, -⟩
      exact (hne digits pos rest rfl).elim

theorem outcome_expression (ts : List Token) : outcome (expression ts) =
    (outcome (term ts)).bind fun r => MayRead.outcome (moreTerms r.1 r.2) := by
  rw [expression]
  exact outcome_bind fun r => (outcome_map fun _ => rfl).trans Option.map_id'

theorem outcome_moreTerms (sum : Expr) (t : Token) (ts : List Token) :
    MayRead.outcome (moreTerms sum (t :: ts)) =
      match additive? t.kind with
      | none => some (sum, t :: ts)
      | some op =>
        (outcome (term ts)).bind fun r => MayRead.outcome (moreTerms (.binary op sum r.1) r.2) := by
  rw [moreTerms]
  cases additive? t.kind with
  | none => rfl
  | some op =>
    exact outcome_bind fun r => (outcome_map fun _ => rfl).trans Option.map_id'

theorem outcome_moreTerms_nil (sum : Expr) : MayRead.outcome (moreTerms sum []) =
    some (sum, []) := by
  rw [moreTerms]
  rfl

theorem outcome_term (ts : List Token) : outcome (term ts) =
    (outcome (factor ts)).bind fun r => MayRead.outcome (moreFactors r.1 r.2) := by
  rw [term]
  exact outcome_bind fun r => (outcome_map fun _ => rfl).trans Option.map_id'

theorem outcome_moreFactors (product : Expr) (t : Token) (ts : List Token) :
    MayRead.outcome (moreFactors product (t :: ts)) =
      match multiplicative? t.kind with
      | none => some (product, t :: ts)
      | some op =>
        (outcome (factor ts)).bind fun r => MayRead.outcome
          (moreFactors (.binary op product r.1) r.2) := by
  rw [moreFactors]
  cases multiplicative? t.kind with
  | none => rfl
  | some op =>
    exact outcome_bind fun r => (outcome_map fun _ => rfl).trans Option.map_id'

theorem outcome_moreFactors_nil (product : Expr) :
    MayRead.outcome (moreFactors product []) = some (product, []) := by
  rw [moreFactors]
  rfl

theorem outcome_factor (t : Token) (ts : List Token) : outcome (factor (t :: ts)) =
    match t.kind with
    | .number _ => (outcome (number (t :: ts))).map fun r => (.num r.1.1, r.2)
    | .identifier _ =>
      (outcome (designator (t :: ts))).map fun r => (.element r.1.name r.1.indices r.1.pos, r.2)
    | .symbol .leftParen => (outcome (expression ts)).bind fun r =>
      (outcome (consume r.2 (.symbol .rightParen))).map fun q => (r.1, q.2)
    | .keyword .callWord =>
      (outcome (call ts)).map fun r => (.call r.1.1 r.1.2.1 r.1.2.2, r.2)
    | _ => none := by
  rw [factor]
  cases t.kind with
  | number _ => exact outcome_map fun _ => rfl
  | identifier _ => exact outcome_map fun _ => rfl
  | symbol s =>
    cases s with
    | leftParen =>
      exact outcome_bind fun r => outcome_map fun _ => rfl
    | _ => exact outcome_stop _
  | keyword k =>
    cases k with
    | callWord => exact outcome_map fun _ => rfl
    | _ => exact outcome_stop _
  | _ => exact outcome_stop _

theorem outcome_factor_nil : outcome (factor []) = none := by
  rw [factor]
  rfl

theorem outcome_designator (ts : List Token) : outcome (designator ts) =
    (outcome (identifier ts)).bind fun r =>
      (MayRead.outcome (indexList r.2)).map fun q => (⟨r.1.1, q.1, r.1.2⟩, q.2) := by
  rw [designator]
  exact outcome_bind fun r => outcome_map fun _ => rfl

theorem outcome_indexList (t : Token) (ts : List Token) : MayRead.outcome (indexList (t :: ts)) =
    if t.kind = .symbol .leftBracket then
      (outcome (expression ts)).bind fun r =>
        (outcome (consume r.2 (.symbol .rightBracket))).bind fun q =>
          (MayRead.outcome (indexList q.2)).map fun o => (r.1 :: o.1, o.2)
    else some ([], t :: ts) := by
  rw [indexList]
  split
  · exact outcome_bind fun r => outcome_bind fun q => outcome_map fun _ => rfl
  · rfl

theorem outcome_indexList_nil : MayRead.outcome (indexList []) = some ([], []) := by
  rw [indexList]
  rfl

/-- The arguments of a call and what is left: none without parentheses. -/
def argumentsOutcome : List Token → Option (List Expr × List Token)
  | ⟨.symbol .leftParen, _⟩ :: ts => outcome (arguments ts)
  | ts => some ([], ts)

/-- A function without parentheses takes no arguments, and otherwise as many as it has to. -/
theorem outcome_call (ts : List Token) : outcome (call ts) =
    (outcome (identifier ts)).bind fun r => (Builtin.ofName? r.1.1).bind fun fn =>
      ((argumentsOutcome r.2).filter fun q => q.1.length = fn.arity).map fun q =>
        ((fn, q.1, r.1.2), q.2) := by
  rw [call]
  refine outcome_bind fun r => ?_
  obtain ⟨⟨name, pos⟩, us, h⟩ := r
  dsimp only
  cases Builtin.ofName? name with
  | none => rfl
  | some fn =>
    simp only [Option.bind_some]
    split
    · rename_i p vs h₁
      simp only [argumentsOutcome]
      cases arguments vs with
      | error => rfl
      | ok q =>
        by_cases hlen : q.value.length = fn.arity <;>
          simp [bind, Except.bind, Except.toOption, hlen, pure, Except.pure, Option.filter]
    · rename_i hne
      have hout : argumentsOutcome us = some ([], us) := by
        unfold argumentsOutcome
        split
        · rename_i p vs
          exact (hne p vs h rfl HEq.rfl).elim
        · rfl
      by_cases hlen : fn.arity = 0
      · simp [hout, hlen, Except.toOption, pure, Except.pure, Option.filter]
      · simp [hout, hlen, stop, Except.toOption, Ne.symm hlen, Option.filter]

theorem outcome_arguments (ts : List Token) : outcome (arguments ts) =
    if (current ts).kind = .symbol .rightParen then some ([], ts.tail)
    else (outcome (expression ts)).bind fun r => (MayRead.outcome (moreArguments r.2)).bind fun q =>
      (outcome (consume q.2 (.symbol .rightParen))).map fun o => (r.1 :: q.1, o.2) := by
  rw [arguments.eq_def]
  split
  · rfl
  · rename_i hne
    rw [if_neg]
    · exact outcome_bind fun r => outcome_bind fun q => outcome_map fun _ => rfl
    · intro hk
      rcases ts with _ | ⟨⟨k, p⟩, us⟩
      · cases hk
      · obtain rfl : k = .symbol .rightParen := hk
        exact hne p us rfl

theorem outcome_moreArguments (t : Token) (ts : List Token) :
    MayRead.outcome (moreArguments (t :: ts)) =
      if t.kind = .symbol .comma then
        (outcome (expression ts)).bind fun r =>
          (MayRead.outcome (moreArguments r.2)).map fun q => (r.1 :: q.1, q.2)
      else some ([], t :: ts) := by
  rw [moreArguments]
  split
  · exact outcome_bind fun r => outcome_map fun _ => rfl
  · rfl

theorem outcome_moreArguments_nil : MayRead.outcome (moreArguments []) = some ([], []) := by
  rw [moreArguments]
  rfl

theorem outcome_relation (ts : List Token) : outcome (relation ts) =
    (outcome (expression ts)).bind fun r =>
      match r.2 with
      | [] => none
      | t :: us => (comparison? t.kind).bind fun op =>
          (outcome (expression us)).map fun q => (⟨op, r.1, q.1⟩, q.2) := by
  rw [relation]
  refine outcome_bind fun r => ?_
  obtain ⟨e, us, h⟩ := r
  cases us with
  | nil => rfl
  | cons t us =>
    dsimp only
    cases comparison? t.kind with
    | none => rfl
    | some op => exact outcome_map fun _ => rfl

/-- What stands behind the first part of an `if`. -/
def elseOutcome (cond : Relation) (thenPart : List Stmt) (pos : Position) :
    List Token → Option (Stmt × List Token)
  | ⟨.keyword .elseWord, _⟩ :: ts => (MayRead.outcome (statementList ts)).bind fun r =>
    (outcome (consume r.2 (.keyword .fiWord))).map fun q => (.ifElse cond thenPart r.1 pos, q.2)
  | ts => (outcome (consume ts (.keyword .fiWord))).map fun q => (.ifThen cond thenPart pos, q.2)

theorem outcome_statement (k : Token.Kind) (p : Position) (ts : List Token) :
    outcome (statement (⟨k, p⟩ :: ts)) =
      match k with
      | .keyword .letWord => (outcome (designator ts)).bind fun d =>
        (outcome (consume d.2 (.symbol .becomes))).bind fun q =>
          (outcome (expression q.2)).map fun r => (.assign d.1 r.1 p, r.2)
      | .keyword .callWord =>
        (outcome (call ts)).map fun r => (.call r.1.1 r.1.2.1 r.1.2.2, r.2)
      | .keyword .ifWord => (outcome (relation ts)).bind fun r =>
        (outcome (consume r.2 (.keyword .thenWord))).bind fun q =>
          (MayRead.outcome (statementList q.2)).bind fun o => elseOutcome r.1 o.1 p o.2
      | .keyword .whileWord => (outcome (relation ts)).bind fun r =>
        (outcome (consume r.2 (.keyword .doWord))).bind fun q =>
          (MayRead.outcome (statementList q.2)).bind fun o =>
            (outcome (consume o.2 (.keyword .odWord))).map fun u => (.loop r.1 o.1 p, u.2)
      | _ => none := by
  rw [statement.eq_def]
  dsimp only
  split
  · -- an assignment
    exact outcome_bind fun d => outcome_bind fun q => outcome_map fun _ => rfl
  · exact outcome_map fun _ => rfl
  · -- an `if`
    refine outcome_bind fun r => outcome_bind fun q => outcome_bind fun o => ?_
    obtain ⟨thenPart, us, h⟩ := o
    dsimp only
    split
    · rename_i p' vs h₁
      exact outcome_bind fun u => outcome_map fun _ => rfl
    · rename_i hne
      have hout : elseOutcome r.value thenPart p us =
          (outcome (consume us (.keyword .fiWord))).map
          fun q => (.ifThen r.value thenPart p, q.2) := by
        unfold elseOutcome
        split
        · rename_i p' vs _
          exact (hne p' vs h rfl HEq.rfl).elim
        · rfl
      rw [hout]
      exact outcome_map fun _ => rfl
  · -- a loop
    exact outcome_bind fun r => outcome_bind fun q => outcome_bind fun o => outcome_map fun _ => rfl
  · rfl
  · simp only [outcome_stop]

theorem outcome_statement_nil : outcome (statement []) = none := by
  rw [statement]
  rfl

/-- What stands behind a statement: a semicolon and more statements, or nothing. -/
def moreOutcome (s : Stmt) : List Token → Option (List Stmt × List Token)
  | ⟨.symbol .semicolon, _⟩ :: ts =>
    (MayRead.outcome (statementList ts)).map fun r => (s :: r.1, r.2)
  | ts => some ([s], ts)

theorem outcome_statementList (ts : List Token) : MayRead.outcome (statementList ts) =
    if closesSequence (current ts).kind then some ([], ts)
    else (outcome (statement ts)).bind fun r => moreOutcome r.1 r.2 := by
  rw [statementList]
  split
  · rfl
  · refine outcome_bind fun r => ?_
    obtain ⟨s, us, h⟩ := r
    dsimp only
    split
    · rename_i p vs h₁
      simp only [moreOutcome]
      exact outcome_map fun _ => rfl
    · rename_i hne
      unfold moreOutcome
      split
      · rename_i p vs
        exact (hne p vs h rfl HEq.rfl).elim
      · rfl

theorem outcome_dimensions (ts : List Token) : outcome (dimensions ts) =
    (outcome (consume ts (.symbol .leftBracket))).bind fun r => (outcome (number r.2)).bind fun q =>
      if q.1.1 ≤ 0 then none
      else (outcome (consume q.2 (.symbol .rightBracket))).bind fun o =>
        if (current o.2).kind = .symbol .leftBracket then
          (outcome (dimensions o.2)).map fun u => (q.1.1 :: u.1, u.2)
        else some ([q.1.1], o.2) := by
  rw [dimensions]
  refine outcome_bind fun r => outcome_bind fun q => ?_
  dsimp only
  split
  · rfl
  · refine outcome_bind fun o => ?_
    dsimp only
    split
    · exact outcome_map fun _ => rfl
    · rfl

/-- What stands behind a declared name: a comma and more names, or nothing. -/
def namesOutcome (declared : List String) (name : String × Position) :
    List Token → Option (List (String × Position) × List Token)
  | ⟨.symbol .comma, _⟩ :: ts =>
    (outcome (declaredNames (name.1 :: declared) ts)).map fun r => (name :: r.1, r.2)
  | ts => some ([name], ts)

theorem outcome_declaredNames (declared : List String) (ts : List Token) :
    outcome (declaredNames declared ts) = (outcome (identifier ts)).bind fun r =>
      if declared.contains r.1.1 then none else namesOutcome declared r.1 r.2 := by
  rw [declaredNames]
  refine outcome_bind fun r => ?_
  obtain ⟨⟨name, pos⟩, us, h⟩ := r
  dsimp only
  split
  · rfl
  · split
    · rename_i p vs h₁
      simp only [namesOutcome]
      exact outcome_map fun _ => rfl
    · rename_i hne
      unfold namesOutcome
      split
      · rename_i p vs
        exact (hne p vs h rfl HEq.rfl).elim
      · rfl

/-- What follows a declaration that has been read up to its semicolon. -/
def declaredOutcome (d : Declared) (ts : List Token) : Option (Declared × List Token) :=
  (outcome (consumeAfter afterDeclaration ts (.symbol .semicolon))).bind fun r =>
    MayRead.outcome (declarations d r.2)

theorem outcome_declarations_vars (d : Declared) (p : Position) (ts : List Token) :
    MayRead.outcome (declarations d (⟨.keyword .varWord, p⟩ :: ts)) =
      (outcome (declaredNames d.names ts)).bind fun r =>
        declaredOutcome { d with vars := d.vars ++ r.1.map fun (n, p) => ⟨n, p⟩ } r.2 := by
  rw [declarations]
  exact outcome_bind fun r => outcome_bind fun q => (outcome_map fun _ => rfl).trans Option.map_id'

theorem outcome_declarations_arrays (d : Declared) (p : Position) (ts : List Token) :
    MayRead.outcome (declarations d (⟨.keyword .arrayWord, p⟩ :: ts)) =
      (outcome (dimensions ts)).bind fun q => (outcome (declaredNames d.names q.2)).bind fun r =>
        declaredOutcome { d with arrays := d.arrays ++ r.1.map fun (n, p) => ⟨n, q.1, p⟩ } r.2 := by
  rw [declarations]
  exact outcome_bind fun o => outcome_bind fun r => outcome_bind
    fun q => (outcome_map fun _ => rfl).trans Option.map_id'

/-- Declarations end where neither of the two words stands. -/
theorem outcome_declarations_none (d : Declared) (hv : (current ts).kind ≠ .keyword .varWord)
    (ha : (current ts).kind ≠ .keyword .arrayWord) : MayRead.outcome (declarations d ts) =
    some (d, ts) := by
  rw [declarations.eq_def]
  split
  · exact absurd rfl hv
  · exact absurd rfl ha
  · rfl

theorem toOption_computation (ts : List Token) : (computation ts).toOption =
    (outcome (consume ts (.keyword .mainWord))).bind fun r =>
      (MayRead.outcome (declarations {} r.2)).bind fun d =>
        if startsFunction (current d.2).kind then none
        else (outcome (consume d.2 (.symbol .leftBrace))).bind fun q =>
          (MayRead.outcome (statementList q.2)).bind fun b =>
            (outcome (consume b.2 (.symbol .rightBrace))).bind fun o =>
              (outcome (consumeAfter (some "main body") o.2 (.symbol .period))).bind fun u =>
                if (current u.2).kind = .endOfText then some ⟨d.1.vars, d.1.arrays, b.1⟩ else
                    none := by
  refine Option.map_id'.symm.trans (outcome_bind fun r => outcome_bind fun d => ?_)
  dsimp only
  split
  · rfl
  · refine outcome_bind fun q => outcome_bind fun b => outcome_bind fun o =>
      outcome_bind fun u => ?_
    dsimp only
    split <;> rfl

end SingleAssignment.Source
