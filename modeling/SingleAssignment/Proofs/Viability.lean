import Mathlib.Data.List.Permutation
import SingleAssignment.Proofs.Rows

/-!
# Where reading stops

The table of the grammar has all programs (`IsProgram.expands`), and a text that it has is read
unless a call has the wrong number of arguments (`parse_of_expands`). A row of tokens is viable when
it can be continued to a program of the table.

Reading stops at the first token that makes the tokens read so far no longer viable, unless it stops
because of the number of arguments of a call (`error_at_first_impossible`).
-/

namespace SingleAssignment.Source

open List

open Token (Kind)
open Read (outcome)
open Item

/-! ## Expressions -/

/-- The tokens with which a factor goes on. -/
def extendsFactor (k : Kind) : Bool :=
  k == .symbol .leftBracket || k == .symbol .leftParen

/-- The tokens with which a term goes on. -/
def extendsTerm (k : Kind) : Bool :=
  extendsFactor k || (multiplicative? k).isSome

/-- The tokens with which an expression goes on. -/
def extendsSum (k : Kind) : Bool :=
  extendsTerm k || (additive? k).isSome

/-- The tokens with which arguments go on. -/
def extendsArguments (k : Kind) : Bool :=
  extendsSum k || k == .symbol .comma

theorem isLast_of_isSumOperator {op : Operator} (h : IsSumOperator k op) : k.isLast = false := by
  cases h <;> rfl

theorem isLast_of_isProductOperator {op : Operator} (h : IsProductOperator k op) :
    k.isLast = false := by
  cases h <;> rfl

theorem isLast_of_isComparison {op : Comparison} (h : IsComparison k op) : k.isLast = false := by
  cases h <;> rfl

theorem avoids_moreFactors (h : Avoids extendsTerm others) :
    Avoids extendsFactor (.phrase .moreFactors :: others) :=
  avoids_optional rfl h (by simp +contextual [extendsTerm]) (by rintro _ _ ⟨op, h⟩; cases h <;> rfl)

theorem avoids_moreTerms (h : Avoids extendsSum others) :
    Avoids extendsTerm (.phrase .moreTerms :: others) :=
  avoids_optional rfl h (by simp +contextual [extendsSum]) (by rintro _ _ ⟨op, h⟩; cases h <;> rfl)

/-- After the name of a function and a parenthesis, arguments are read. -/
theorem reads_parentheses {α : Type} {left : α → List Token} {ts : List Token} {p : Parse α}
    {fn : Builtin} {pos pos' : Position} (hfn : fn = .inputNum ∨ fn = .outputNum ∨
      fn = .outputNewLine)
    (h : Reads left (before ++ [.identifier fn.name] ++ [.symbol .leftParen]) [.phrase .arguments]
      extendsFactor ts p) :
    Reads left before [.phrase .call] extendsFactor
      (⟨.identifier fn.name, pos⟩ :: ⟨.symbol .leftParen, pos'⟩ :: ts) p := by
  have hbare : fn ≠ .outputNum → Reads left before [.phrase .call] extendsFactor
      (⟨.identifier fn.name, pos⟩ :: ⟨.symbol .leftParen, pos'⟩ :: ts) p := by
    intro hne
    refine .ofRow 0 rfl (fun others w _ hw => ?_) (.cons ?_ rfl
      (.ofRow 1 rfl (fun others w hothers hw => ?_) (.cons rfl rfl h)))
    · rcases hfn with rfl | rfl | rfl <;> simp_all [rules, current, Builtin.name]
    · rcases hfn with rfl | rfl | rfl <;> simp_all [Builtin.name]
    · simpa [rules, current, hothers _ (.symbol .leftParen) w rfl] using hw
  rcases hfn with rfl | rfl | rfl
  · exact hbare (by decide)
  · refine .ofRow 1 rfl (fun others w _ hw => ?_) (.cons rfl rfl (.cons rfl rfl h))
    simpa [rules, current, Builtin.name] using hw
  · exact hbare (by decide)

section Expressions

variable {n : Nat} {ts : List Token}
  (hE : ∀ us : List Token, us.length < n → ∀ before,
    Reads Read.rest before [.phrase .expression] extendsSum us (expression us))
include hE

theorem reads_indexList (hn : ts.length ≤ n) :
    Reads MayRead.rest before [.phrase .indices] extendsFactor ts (indexList ts) := by
  induction hk : ts.length using Nat.strongRecOn generalizing ts before with
  | ind m ih =>
  cases ts with
  | nil =>
    rw [indexList]
    exact .ofNil rfl rfl fun others w _ hw => by simpa [rules, current] using hw
  | cons u rest =>
    rw [indexList]
    simp only [length_cons] at hn hk
    split
    · rename_i hu
      refine .ofRow 1 rfl (fun others w hothers hw => ?_) (.cons hu (by rw [hu]; rfl) ?_)
      · simpa [rules, current, hu, hothers before (.symbol .leftBracket) w rfl] using hw
      refine (hE rest (by omega) _).upTo rfl ?_
      rintro ⟨e, ts₁, h₁⟩ before
      refine .consume rfl ?_
      rintro ⟨p, ts₂, h₂⟩
      dsimp only at h₂
      exact (ih ts₂.length (by omega) (by omega) rfl).map fun _ => ⟨_, rfl, rfl⟩
    · rename_i hu
      exact .ofNil rfl rfl fun others w _ hw => by simpa [rules, current, hu] using hw

theorem reads_designator (hn : ts.length ≤ n) :
    Reads Read.rest before [.phrase .designator] extendsFactor ts (designator ts) := by
  rw [designator]
  refine .single rfl (reads_name.bind ?_ fun _ _ => avoids_false _)
  rintro ⟨⟨s, pos⟩, ts₁, h₁⟩ us - -
  exact (reads_indexList hE (by dsimp only; omega)).map fun _ => ⟨_, rfl, rfl⟩

theorem reads_moreArguments (hn : ts.length ≤ n) :
    Reads MayRead.rest before [.phrase .moreArguments] extendsArguments ts (moreArguments ts) := by
  induction hk : ts.length using Nat.strongRecOn generalizing ts before with
  | ind m ih =>
  cases ts with
  | nil =>
    rw [moreArguments]
    exact .ofNil rfl rfl fun others w _ hw => by simpa [rules, current] using hw
  | cons u rest =>
    rw [moreArguments]
    simp only [length_cons] at hn hk
    split
    · rename_i hu
      refine .ofRow 1 rfl (fun others w hothers hw => ?_) (.cons hu (by rw [hu]; rfl) ?_)
      · simpa [rules, current, hu, hothers before (.symbol .comma) w rfl] using hw
      refine (hE rest (by omega) _).bind ?_ fun others hothers =>
        avoids_optional rfl hothers (by simp +contextual [extendsArguments])
          (by rintro _ _ rfl; rfl)
      rintro ⟨e, ts₁, h₁⟩ us - -
      exact (ih ts₁.length (by omega) (by omega) rfl).map fun _ => ⟨_, rfl, rfl⟩
    · rename_i hu
      exact .ofNil rfl rfl fun others w _ hw => by simpa [rules, current, hu] using hw

theorem reads_arguments (hn : ts.length < n) :
    Reads Read.rest before [.phrase .arguments] extendsFactor ts (arguments ts) := by
  unfold arguments
  split
  · refine .ofRow 0 rfl (fun others w hothers hw => ?_) (.cons rfl rfl (.pure rfl))
    simpa [rules, current] using hw
  · rename_i hne
    have hne := kind_current_ne rfl hne
    refine .ofRow 1 rfl (fun others w hothers hw => ?_) ?_
    · simpa [rules, hne] using hw
    refine (hE ts hn _).bind ?_ fun others _ =>
      avoids_optional rfl (avoids_exactly (show extendsSum (.symbol .rightParen) = false from rfl))
        (fun _ h => h) (by rintro _ _ rfl; rfl)
    rintro ⟨e, ts₁, h₁⟩ us - -
    refine (reads_moreArguments hE (by dsimp only; omega)).upTo rfl ?_
    rintro ⟨es, ts₂, h₂⟩ before
    exact (reads_consume none rfl).map fun _ => ⟨_, rfl, rfl⟩

theorem reads_call (hn : ts.length ≤ n) :
    Reads Read.rest before [.phrase .call] extendsFactor ts (call ts) := by
  rw [call]
  rcases identifier_cases ts with ⟨s, pos, rest, h, rfl, heq⟩ | ⟨e, heq, hpos, hne⟩
  · refine .ofValue heq ?_
    dsimp only
    simp only [length_cons] at hn
    split
    · rename_i hs
      refine .stuck rfl fun others w _ hw => ?_
      have hname : ∀ fn, Builtin.ofName? (Builtin.name fn) = some fn → s ≠ fn.name := by
        rintro fn hfn rfl
        rw [hs] at hfn
        cases hfn
      simp [rules, current, hname .inputNum rfl, hname .outputNum rfl,
        hname .outputNewLine rfl] at hw
    · -- the name decides the row: one function is never called without parentheses
      rename_i fn hfn
      obtain ⟨rfl, hbuiltin⟩ := ofName?_eq_some hfn
      split
      · rename_i p ts₂ h₁
        simp only [length_cons] at hn
        refine reads_parentheses hbuiltin ((reads_arguments hE (by omega)).check fun a => ?_)
        by_cases hlen : a.value.length = fn.arity
        · exact .inl ⟨_, if_pos hlen, rfl⟩
        · exact .inr ⟨_, if_neg hlen, _, _, _, rfl⟩
      · rename_i hne
        have hparen : (current rest).kind ≠ .symbol .leftParen :=
          kind_current_ne rfl fun p us heq => by
          subst heq
          exact hne p us h rfl HEq.rfl
        split
        · rename_i harity
          refine .ofRow 0 rfl (fun others w _ hw => ?_)
            (.cons ?_ rfl (.ofNil rfl rfl fun others w _ hw => ?_))
          · rcases hbuiltin with rfl | rfl | rfl <;> simp_all [rules, current, Builtin.name,
              Builtin.arity]
          · rcases hbuiltin with rfl | rfl | rfl <;> simp_all [Builtin.arity]
          · simpa [rules, hparen] using hw
        · rename_i harity
          obtain rfl : fn = .outputNum := by
            rcases hbuiltin with rfl | rfl | rfl <;> simp_all [Builtin.arity]
          refine .ofRow 1 rfl (fun others w _ hw => ?_)
            (.cons rfl rfl (.stuck (pos_at _ _) fun others w _ hw => ?_))
          · simpa [rules, current, Builtin.name] using hw
          · exact hparen (expands_token.mp hw).1
  · rw [heq]
    exact .stuck hpos fun others w _ hw => by simp [rules, hne] at hw

theorem reads_factor (hn : ts.length ≤ n) :
    Reads Read.rest before [.phrase .factor] extendsFactor ts (factor ts) := by
  cases ts with
  | nil =>
    rw [factor]
    exact .stuck rfl fun others w _ hw => by simp [rules, current] at hw
  | cons u rest =>
    rw [factor]
    simp only [length_cons] at hn
    split
    · rename_i digits hu
      refine .ofRow 0 rfl (fun others w _ hw => by simpa [rules, current, hu] using hw) ?_
      rcases number_cases (u :: rest) with ⟨digits, n, pos, rest, h, hts, hn, heq⟩ | ⟨e,
        heq, hpos, hne⟩
      · cases hts
        rw [heq]
        exact .cons ⟨_, _, rfl, hn⟩ rfl (.pure rfl)
      · rw [heq]
        refine .stuck hpos fun others w _ hw => ?_
        obtain ⟨⟨digits, n, hk, hn⟩, -⟩ := expands_token.mp hw
        exact hne digits n hn hk
    · rename_i s hu
      refine .ofRow 1 rfl (fun others w _ hw => by simpa [rules, current, hu] using hw) ?_
      exact .map (reads_designator hE hn) fun _ => ⟨_, rfl, rfl⟩
    · rename_i hu
      refine .ofRow 2 rfl (fun others w _ hw => by simpa [rules, current, hu] using hw)
        (.cons hu (by rw [hu]; rfl) ?_)
      refine (hE rest hn _).upTo rfl ?_
      rintro ⟨e, ts₁, h₁⟩ before
      exact (reads_consume none rfl).map fun _ => ⟨_, rfl, rfl⟩
    · rename_i hu
      refine .ofRow 3 rfl (fun others w _ hw => by simpa [rules, current, hu] using hw)
        (.cons hu (by rw [hu]; rfl) ?_)
      exact (reads_call hE (by omega)).map fun _ => ⟨_, rfl, rfl⟩
    · rename_i h₁ h₂ h₃ h₄
      exact .stuck (pos_at _ _) fun others w _ hw => by simp_all [rules, current]

theorem reads_moreFactors (hn : ts.length ≤ n) {e : Expr} :
    Reads MayRead.rest before [.phrase .moreFactors] extendsTerm ts (moreFactors e ts) := by
  induction hk : ts.length using Nat.strongRecOn generalizing ts before e with
  | ind m ih =>
  cases ts with
  | nil =>
    rw [moreFactors]
    refine .ofNil rfl rfl fun others w _ hw => ?_
    simpa [rules, current, isProductOperator_iff, multiplicative?] using hw
  | cons u rest =>
    rw [moreFactors]
    simp only [length_cons] at hn hk
    split
    · rename_i hu
      exact .ofNil rfl rfl
        fun others w _ hw => by simpa [rules, current, isProductOperator_iff, hu] using hw
    · rename_i op hu
      have hop := isProductOperator_iff.mpr hu
      refine .ofRow 1 rfl (fun others w hothers hw => ?_)
        (.cons ⟨op, hop⟩ (isLast_of_isProductOperator hop) ?_)
      · simpa [rules, current, hothers before u.kind w (by simp [extendsTerm, hu])] using hw
      refine (reads_factor hE (by omega)).bind ?_ fun _ => avoids_moreFactors
      rintro ⟨e, ts₁, h₁⟩ us - -
      exact (ih ts₁.length (by omega) (by omega) rfl).map fun _ => ⟨_, rfl, rfl⟩

theorem reads_term (hn : ts.length ≤ n) :
    Reads Read.rest before [.phrase .term] extendsTerm ts (term ts) := by
  rw [term]
  refine .single rfl ((reads_factor hE hn).bind ?_ fun _ => avoids_moreFactors)
  rintro ⟨e, ts₁, h₁⟩ us - -
  exact (reads_moreFactors hE (by dsimp only; omega)).map fun _ => ⟨_, rfl, rfl⟩

theorem reads_moreTerms (hn : ts.length ≤ n) {e : Expr} :
    Reads MayRead.rest before [.phrase .moreTerms] extendsSum ts (moreTerms e ts) := by
  induction hk : ts.length using Nat.strongRecOn generalizing ts before e with
  | ind m ih =>
  cases ts with
  | nil =>
    rw [moreTerms]
    exact .ofNil rfl rfl
      fun others w _ hw => by simpa [rules, current, isSumOperator_iff, additive?] using hw
  | cons u rest =>
    rw [moreTerms]
    simp only [length_cons] at hn hk
    split
    · rename_i hu
      exact .ofNil rfl rfl
        fun others w _ hw => by simpa [rules, current, isSumOperator_iff, hu] using hw
    · rename_i op hu
      have hop := isSumOperator_iff.mpr hu
      refine .ofRow 1 rfl (fun others w hothers hw => ?_)
        (.cons ⟨op, hop⟩ (isLast_of_isSumOperator hop) ?_)
      · simpa [rules, current, hothers before u.kind w (by simp [extendsSum, hu])] using hw
      refine (reads_term hE (by omega)).bind ?_ fun _ => avoids_moreTerms
      rintro ⟨e, ts₁, h₁⟩ us - -
      exact (ih ts₁.length (by omega) (by omega) rfl).map fun _ => ⟨_, rfl, rfl⟩

end Expressions

theorem reads_expression (ts : List Token) :
    Reads Read.rest before [.phrase .expression] extendsSum ts (expression ts) := by
  induction hk : ts.length using Nat.strongRecOn generalizing ts before with
  | ind m ih =>
  have hE : ∀ us : List Token, us.length < m → ∀ before,
      Reads Read.rest before [.phrase .expression] extendsSum us (expression us) :=
    fun us hus before => ih us.length hus us rfl
  rw [expression]
  refine .single rfl ((reads_term hE hk.le).bind ?_ fun _ => avoids_moreTerms)
  rintro ⟨e, ts₁, h₁⟩ us - -
  exact (reads_moreTerms hE (by dsimp only; omega)).map fun _ => ⟨_, rfl, rfl⟩

theorem reads_relation (ts : List Token) :
    Reads Read.rest before [.phrase .relation] extendsSum ts (relation ts) := by
  unfold relation
  refine .single rfl ((reads_expression ts).bind ?_ fun others hothers =>
    avoids_token (by rintro _ _ ⟨op, h⟩; cases h <;> rfl))
  rintro ⟨e, ts₁, h₁⟩ us - -
  dsimp only
  split
  · exact .stuck rfl fun others w _ hw => by simp [current, isComparison_iff, comparison?] at hw
  · split
    · rename_i hu
      exact .stuck (pos_at _ _) fun others w _ hw => by simp [current, isComparison_iff, hu] at hw
    · rename_i op hu
      have hop := isComparison_iff.mpr hu
      exact .cons ⟨op, hop⟩ (isLast_of_isComparison hop)
        ((reads_expression _).map fun _ => ⟨_, rfl, rfl⟩)

/-! ## Statements -/

/-- The tokens with which a sequence of statements goes on. -/
def extendsSequence (k : Kind) : Bool :=
  !closesSequence k

theorem extendsSequence_of_extendsSum (k : Kind) (h : extendsSum k = true) :
    extendsSequence k = true := by
  unfold extendsSequence closesSequence
  split
  all_goals first | rfl | exact absurd h (by decide)

section Statements

variable {n : Nat} {ts : List Token}
  (hS : ∀ us : List Token, us.length < n → ∀ before,
    Reads MayRead.rest before [.phrase .sequence] extendsSequence us (statementList us))
include hS

theorem reads_statement (hn : ts.length ≤ n) :
    Reads Read.rest before [.phrase .statement] extendsSum ts (statement ts) := by
  cases ts with
  | nil =>
    rw [statement]
    exact .stuck rfl fun others w _ hw => by simp [rules, current] at hw
  | cons u rest =>
    obtain ⟨k, pos⟩ := u
    rw [statement.eq_def]
    simp only [length_cons] at hn ⊢
    split
    · refine .ofRow 0 rfl (fun others w _ hw => by simpa [rules, current] using hw)
        (.cons rfl rfl ?_)
      refine (reads_designator (fun us _ before => reads_expression us) le_rfl).upTo rfl ?_
      rintro ⟨d, ts₁, h₁⟩ before
      refine .consume rfl ?_
      rintro ⟨p, ts₂, h₂⟩
      exact (reads_expression ts₂).map fun _ => ⟨_, rfl, rfl⟩
    · refine .ofRow 1 rfl (fun others w _ hw => by simpa [rules, current] using hw)
        (.cons rfl rfl ?_)
      refine .map (.mono (reads_call (fun us _ before => reads_expression us) le_rfl) ?_)
        fun _ => ⟨_, rfl, rfl⟩
      simp +contextual [extendsSum, extendsTerm]
    · refine .ofRow 2 rfl (fun others w _ hw => by simpa [rules, current] using hw)
        (.cons rfl rfl ?_)
      refine (reads_relation rest).upTo rfl ?_
      rintro ⟨r, ts₁, h₁⟩ before
      refine .consume rfl ?_
      rintro ⟨p, ts₂, h₂⟩
      dsimp only at h₂ ⊢
      refine (hS ts₂ (by omega) _).bind ?_ fun others _ => avoids_optional rfl
        (avoids_exactly (show extendsSequence (.keyword .fiWord) = false from rfl)) (fun _ h => h)
        (by rintro _ _ rfl; rfl)
      rintro ⟨ss, ts₃, h₃⟩ us'' - -
      dsimp only
      split
      · rename_i q ts₄ h₄
        refine .ofRow 1 rfl (fun others w _ hw => by simpa [rules, current] using hw)
          (.cons rfl rfl ?_)
        refine (hS ts₄ (by simp only [length_cons] at h₄; omega) _).upTo rfl ?_
        rintro ⟨ss', ts₅, h₅⟩ before
        exact (reads_consume none rfl).map fun _ => ⟨_, rfl, rfl⟩
      · rename_i hne
        have helse : (current ts₃).kind ≠ .keyword .elseWord :=
          kind_current_ne rfl fun p us heq => by
          subst heq
          exact hne p us h₃ rfl HEq.rfl
        refine .ofRow 0 rfl (fun others w _ hw => by simpa [rules, helse] using hw) ?_
        exact (reads_consume none rfl).map fun _ => ⟨_, rfl, rfl⟩
    · refine .ofRow 3 rfl (fun others w _ hw => by simpa [rules, current] using hw)
        (.cons rfl rfl ?_)
      refine (reads_relation rest).upTo rfl ?_
      rintro ⟨r, ts₁, h₁⟩ before
      refine .consume rfl ?_
      rintro ⟨p, ts₂, h₂⟩
      dsimp only at h₂ ⊢
      refine (hS ts₂ (by omega) _).upTo rfl ?_
      rintro ⟨ss, ts₃, h₃⟩ before
      exact (reads_consume none rfl).map fun _ => ⟨_, rfl, rfl⟩
    · exact .stuck rfl fun others w _ hw => by simp [rules, current] at hw
    · exact .stuck (pos_at _ _) fun others w _ hw => by simp_all [rules, current]

end Statements

theorem reads_statementList (ts : List Token) :
    Reads MayRead.rest before [.phrase .sequence] extendsSequence ts (statementList ts) := by
  induction hk : ts.length using Nat.strongRecOn generalizing ts before with
  | ind m ih =>
  have hS : ∀ us : List Token, us.length < m → ∀ before,
      Reads MayRead.rest before [.phrase .sequence] extendsSequence us (statementList us) :=
    fun us hus before => ih us.length hus us rfl
  rw [statementList]
  split
  · rename_i hcloses
    refine .ofNil rfl rfl fun others w _ hw => ?_
    have hne : ∀ k, closesSequence k = false → (current ts).kind ≠ k := by
      rintro k hk rfl
      rw [hk] at hcloses
      cases hcloses
    simpa [rules, hne (.keyword .letWord) rfl, hne (.keyword .callWord) rfl,
      hne (.keyword .ifWord) rfl, hne (.keyword .whileWord) rfl] using hw
  · rename_i hcloses
    have hgoes : extendsSequence (current ts).kind = true := by
      simpa [extendsSequence] using hcloses
    refine .ofRow 1 rfl (fun others w hothers hw => ?_) ((reads_statement hS hk.le).bind ?_
      fun others hothers => avoids_optional rfl hothers extendsSequence_of_extendsSum
      (by rintro _ _ rfl; rfl))
    · simpa [rules, hothers before _ w hgoes] using hw
    · rintro ⟨s, ts₁, h₁⟩ us - -
      dsimp only
      split
      · rename_i q ts₂ h₂
        refine .ofRow 1 rfl (fun others w hothers hw => ?_) (.cons rfl rfl ?_)
        · simpa [rules, current, hothers _ (.symbol .semicolon) w rfl] using hw
        exact (hS ts₂ (by simp only [length_cons] at h₂; omega) _).map fun _ => ⟨_, rfl, rfl⟩
      · rename_i hne
        have hsemi : (current ts₁).kind ≠ .symbol .semicolon :=
          kind_current_ne rfl fun p us heq => by
          subst heq
          exact hne p us h₁ rfl HEq.rfl
        exact .ofNil rfl rfl fun others w _ hw => by simpa [rules, hsemi] using hw

/-! ## Declarations and programs -/

theorem Denotes.unique {digits : String} {m n : Int64} (hm : Denotes digits m)
    (hn : Denotes digits n) : m = n :=
  Int64.toInt_inj.mp (hm.2.2.trans hn.2.2.symm)

theorem reads_dimensions (ts : List Token) :
    Reads Read.rest before [.phrase .dimensions] (· == .symbol .leftBracket) ts
      (dimensions ts) := by
  induction hk : ts.length using Nat.strongRecOn generalizing ts before with
  | ind m ih =>
  rw [dimensions]
  refine .single rfl (.consume rfl ?_)
  rintro ⟨p, ts₁, h₁⟩
  dsimp only
  rcases number_cases ts₁ with ⟨digits, n, pos, rest, h, rfl, hn, heq⟩ | ⟨e, heq, hpos, hne⟩
  · refine .ofValue heq ?_
    dsimp only
    split
    · rename_i hle
      refine .stuck rfl fun others w _ hw => ?_
      obtain ⟨⟨digits', n', hdigits, hn', hpos⟩, -⟩ := expands_token.mp hw
      cases hdigits
      rw [hn.unique hn'] at hle
      exact absurd hpos (Int64.not_lt.mpr hle)
    · rename_i hle
      refine .cons ⟨digits, n, rfl, hn, Int64.not_le.mp hle⟩ rfl (.consume rfl ?_)
      rintro ⟨q, ts₃, h₃⟩
      dsimp only at h₃ ⊢
      simp only [length_cons] at h₁
      split
      · rename_i hmore
        refine .ofRow 1 rfl (fun others w hothers hw => ?_)
          ((ih ts₃.length (by omega) ts₃ rfl).map fun _ => ⟨_, rfl, rfl⟩)
        rw [hmore] at hw ⊢
        simpa [rules, hothers _ (.symbol .leftBracket) w rfl] using hw
      · rename_i hmore
        exact .ofNil rfl rfl fun others w _ hw => by simpa [rules, hmore] using hw
  · rw [heq]
    refine .stuck hpos fun others w _ hw => ?_
    obtain ⟨⟨digits, n, hk, hn, -⟩, -⟩ := expands_token.mp hw
    exact hne digits n hn hk

/-- The declared names are the names among the tokens so far. -/
def Lists (before : List Kind) (declared : List String) : Prop :=
  ∀ s, Kind.identifier s ∈ before ↔ s ∈ declared

theorem reads_declaredNames {declared : List String} (hd : Lists before declared)
    (ts : List Token) :
    Reads Read.rest before [.phrase .names] (· == .symbol .comma) ts
      (declaredNames declared ts) := by
  induction hk : ts.length using Nat.strongRecOn generalizing ts before declared with
  | ind m ih =>
  rw [declaredNames]
  refine .single rfl ?_
  rcases identifier_cases ts with ⟨s, pos, rest, h, rfl, heq⟩ | ⟨e, heq, hpos, hne⟩
  · refine .ofValue heq ?_
    dsimp only
    split
    · rename_i hold
      refine .stuck rfl fun others w _ hw => ?_
      obtain ⟨⟨s', hs', hnew⟩, -⟩ := expands_token.mp hw
      exact hnew ((hd s).mpr (by simpa using hold))
    · rename_i hnew
      refine .cons ⟨s, rfl, fun h => hnew (by simpa using (hd s).mp h)⟩ rfl ?_
      split
      · rename_i q ts₂ _ _
        refine .ofRow 1 rfl (fun others w hothers hw => ?_) (.cons rfl rfl
          ((ih ts₂.length ?_ ?_ ts₂ rfl).map fun _ => ⟨_, rfl, rfl⟩))
        · simpa [rules, current, hothers _ (.symbol .comma) w rfl] using hw
        · simp only [length_cons] at hk
          omega
        · intro s'
          simp [hd s', or_comm]
      · rename_i hcomma
        replace hcomma : (current rest).kind ≠ .symbol .comma :=
          kind_current_ne rfl fun p us heq => by
          subst heq
          exact hcomma p us h rfl HEq.rfl
        exact .ofNil rfl rfl fun others w _ hw => by simpa [rules, hcomma] using hw
  · rw [heq]
    refine .stuck hpos fun others w _ hw => ?_
    obtain ⟨⟨s, hs, -⟩, -⟩ := expands_token.mp hw
    exact hne s hs

theorem Lists.append {ks : List Kind} {declared : List String} (h : Lists before declared)
    (hks : ∀ s, Kind.identifier s ∉ ks) : Lists (before ++ ks) declared := by
  intro s
  rw [mem_append, h s]
  exact or_iff_left (hks s)

theorem lists_of_dimensions {dims : List Int64} {declared : List String} {ts us rest : List Token}
    (hd : Lists before declared) (hts : ts = us ++ rest)
    (hread : outcome (dimensions ts) = some (dims, rest)) : Lists (before ++ kindsOf us)
    declared := by
  obtain ⟨us', hts', hdims⟩ := isDimensions_of_read hread
  rw [append_cancel_right (hts.symm.trans hts')]
  refine hd.append fun s => ?_
  clear hts' hread
  induction hdims with
  | one => simp
  | more _ _ _ ih => simpa using ih

theorem lists_of_names {names : List (String × Position)} {declared : List String}
    {ts us rest : List Token} (hd : Lists before declared) (hts : ts = us ++ rest)
    (hread : outcome (declaredNames declared ts) = some (names, rest)) :
    Lists (before ++ kindsOf us) (declared ++ names.map (·.1)) := by
  obtain ⟨us', hts', hnames, -⟩ := isNames_of_read hread
  rw [append_cancel_right (hts.symm.trans hts')]
  intro s
  rw [mem_append, mem_append, hd s]
  refine or_congr_right ?_
  clear hts' hread
  induction hnames with
  | one => simp
  | more others ih => simp [ih]

/-- The tokens with which declarations go on. -/
def extendsDeclarations (k : Kind) : Bool :=
  k == .keyword .varWord || k == .keyword .arrayWord

theorem reads_declarations {d : Declared} (hd : Lists before d.names) (ts : List Token) :
    Reads MayRead.rest before [.phrase .declarations] extendsDeclarations ts
      (declarations d ts) := by
  induction hk : ts.length using Nat.strongRecOn generalizing ts before d with
  | ind m ih =>
  rw [declarations.eq_def]
  split
  · rename_i q rest
    refine .ofRow 1 rfl (fun others w hothers hw => ?_) (.cons rfl rfl ?_)
    · simpa [rules, current, hothers _ (.keyword .varWord) w rfl] using hw
    have hd := hd.append (show ∀ s, Kind.identifier s ∉ [Kind.keyword .varWord] by simp)
    refine (reads_declaredNames hd rest).bind ?_ fun _ _ => avoids_exactly rfl
    rintro ⟨names, ts₁, h₁⟩ us hread hts
    replace hd := (lists_of_names hd hts (by rw [hread]; rfl)).append
      (show ∀ s, Kind.identifier s ∉ [Kind.symbol .semicolon] by simp)
    refine .consume rfl ?_
    rintro ⟨p, ts₂, h₂⟩
    dsimp only at h₂
    simp only [length_cons] at hk
    refine (ih ts₂.length (by omega) (fun s => ?_) ts₂ rfl).map fun _ => ⟨_, rfl, rfl⟩
    rw [hd s, (perm_names_vars d names).mem_iff]
  · rename_i q rest
    refine .ofRow 2 rfl (fun others w hothers hw => ?_) (.cons rfl rfl ?_)
    · simpa [rules, current, hothers _ (.keyword .arrayWord) w rfl] using hw
    have hd := hd.append (show ∀ s, Kind.identifier s ∉ [Kind.keyword .arrayWord] by simp)
    refine (reads_dimensions rest).bind ?_ fun _ _ before k w hgoes hw => ?_
    · rintro ⟨dims, ts₀, h₀⟩ us hread hts
      replace hd := lists_of_dimensions hd hts (by rw [hread]; rfl)
      refine (reads_declaredNames hd ts₀).bind ?_ fun _ _ => avoids_exactly rfl
      rintro ⟨names, ts₁, h₁⟩ us hread hts
      replace hd := (lists_of_names hd hts (by rw [hread]; rfl)).append
        (show ∀ s, Kind.identifier s ∉ [Kind.symbol .semicolon] by simp)
      refine .consume rfl ?_
      rintro ⟨p, ts₂, h₂⟩
      dsimp only at h₁ h₂
      simp only [length_cons] at hk
      refine (ih ts₂.length (by omega) (fun s => ?_) ts₂ rfl).map fun _ => ⟨_, rfl, rfl⟩
      rw [hd s, perm_names_arrays d dims names]
    · obtain ⟨row, hrow, hw⟩ := expands_phrase.mp hw
      cases mem_singleton.mp hrow
      obtain ⟨s, rfl, -⟩ := (expands_token.mp hw).1
      cases hgoes
  · rename_i hvar harray
    refine .ofNil rfl rfl fun others w _ hw => ?_
    have hvar := kind_current_ne rfl hvar
    have harray := kind_current_ne rfl harray
    simpa [rules, hvar, harray] using hw

theorem stops_computation (ts : List Token) :
    Stops [] [.phrase .program] (fun _ => false) ts (computation ts) := by
  unfold computation
  refine .ofRow 0 rfl (fun others w _ hw => by simpa [rules] using hw) ?_
  refine .bind (reads_consume none rfl) ?_ fun _ _ => avoids_false _
  rintro ⟨p, ts₁, h₁⟩ us hread hts
  refine .bind (reads_declarations ?_ ts₁) ?_ fun _ _ => avoids_exactly rfl
  · rw [eq_singleton_of_consume hread hts]
    exact fun s => by simp [Declared.names]
  rintro ⟨d, ts₂, h₂⟩ us' - -
  dsimp only
  split
  · -- the declaration of a function is refused where the body has to start
    rename_i hfun
    refine .stuck (pos_at _ _) fun others w _ hw => ?_
    rw [(expands_token.mp hw).1] at hfun
    cases hfun
  refine .bind (reads_consume none rfl) ?_ fun _ _ => avoids_false _
  rintro ⟨p, ts₃, h₃⟩ us - -
  refine .bind (reads_statementList ts₃) ?_ fun _ _ => avoids_exactly rfl
  rintro ⟨body, ts₄, h₄⟩ us - -
  refine .bind (reads_consume none rfl) ?_ fun _ _ => avoids_false _
  rintro ⟨p, ts₅, h₅⟩ us - -
  refine .bind (reads_consume _ rfl) ?_ fun _ _ => avoids_false _
  rintro ⟨p, ts₆, h₆⟩ us - -
  dsimp only
  split
  · exact fun e he => by cases he
  · rename_i hend
    exact .stuck (pos_at _ _) fun others w _ hw => hend (expands_token.mp hw).1

theorem expands_of_read {α : Type} {ts us rest : List Token} {i : Item} {goesOn : Kind → Bool}
    {p : Parse (MayRead ts α)} {v : α} (h : Reads MayRead.rest before [i] goesOn ts p)
    (hts : ts = us ++ rest) (hread : MayRead.outcome p = some (v, rest))
    (hw : Expands (before ++ kindsOf us) others w) :
    Expands before (i :: others) (kindsOf us ++ w) := by
  cases p with
  | error e => cases hread
  | ok r =>
    cases hread
    obtain ⟨us', hts', htaken⟩ := h.takes r rfl
    rw [append_cancel_right (hts.symm.trans hts')] at hw ⊢
    exact htaken.expands hw

/-- The table has all programs. -/
theorem IsProgram.expands {prog : Computation} {ts : List Token} (h : IsProgram prog ts) :
    Expands [] [.phrase .program] (kindsOf ts) := by
  cases h with
  | @mk vars arrays _ _ q _ _ _ _ us hdecls hnames hbody =>
    have hd : Lists ([] ++ [Kind.keyword .mainWord]) ({} : Declared).names :=
      fun s => by simp [Declared.names]
    have hread := @IsDeclarations.isRead _ _ _ [⟨.symbol .leftBrace, q⟩] hdecls
      (by simp [current]) (by simp [current]) {}
      (((Declared.names_append {} _ _).nodup_iff).mpr hnames)
    refine .phrase (mem_singleton_self _) (.token rfl ?_)
    rw [map_append]
    refine expands_of_read (reads_declarations hd _) rfl hread (.token rfl ?_)
    rw [map_append]
    exact expands_of_read (reads_statementList _) rfl (hbody.isRead [⟨.symbol .rightBrace, q⟩] rfl)
      (.token rfl (.token rfl (.token rfl .done)))

/-- Where reading stops there is a token, as the last one is never taken. -/
theorem exists_stuck {cs : List Char} {e : SyntaxError} (h : parse cs = .error e)
    (hcount : ¬ e.IsCount) :
    ∃ us u rest, tokenize cs = us ++ u :: rest ∧ e.pos = u.pos ∧
      Stuck [] [.phrase .program] (fun _ => false) us (u :: rest) := by
  obtain hcount' | ⟨us, rest, hts, hpos, hstuck⟩ := stops_computation (tokenize cs) e h
  · exact absurd hcount' hcount
  cases rest with
  | cons u rest => exact ⟨us, u, rest, hts, hpos, hstuck⟩
  | nil =>
    obtain ⟨init, last, heq, hlast, -⟩ := (Cursor.ofChars cs).exists_tokens_eq
    have hmem : last ∈ us := by
      rw [append_nil] at hts
      rw [← hts, tokenize, heq]
      simp
    rw [hstuck.inner last hmem] at hlast
    cases hlast

/-- The table has no other programs than those with a wrong number of arguments. -/
theorem parse_of_expands {cs : List Char}
    (h : Expands [] [.phrase .program] (kindsOf (tokenize cs))) :
    (∃ prog, parse cs = .ok prog) ∨ ∃ e, parse cs = .error e ∧ e.IsCount := by
  cases hp : parse cs with
  | ok prog => exact .inl ⟨prog, rfl⟩
  | error e =>
    refine .inr ⟨e, rfl, by_contra fun hcount => ?_⟩
    obtain ⟨us, u, rest, hts, -, hstuck⟩ := exists_stuck hp hcount
    rw [hts] at h
    exact hstuck.stops (avoids_false []) (w := kindsOf rest) (by simpa [current] using h)

/-- Reading stops at the first token with which no program goes on, unless a call has the wrong
number of arguments. -/
theorem error_at_first_impossible (cs : List Char) (e : SyntaxError) (h : parse cs = .error e)
    (hcount : ¬ e.IsCount) :
    ∃ front u rest, tokenize cs = front ++ u :: rest ∧ e.pos = u.pos ∧
      (∀ us, us <+: front → Viable (kindsOf us)) ∧ ¬ Viable (kindsOf (front ++ [u])) := by
  obtain ⟨front, u, rest, hts, hpos, hstuck⟩ := exists_stuck h hcount
  refine ⟨front, u, rest, hts, hpos, fun us hus => ?_, fun hviable => ?_⟩
  · obtain ⟨vs, rfl⟩ := hus
    obtain ⟨w, hw⟩ := hstuck.expands []
    exact ⟨kindsOf vs ++ w, by simpa using hw⟩
  · obtain ⟨w, hw⟩ := hviable
    exact hstuck.stops (avoids_false []) (w := w) (by simpa [current] using hw)

/-- A text that declares a name twice. -/
def declaresTwice : List Char :=
  "main var a, a; {}.".toList

theorem error_at_first_impossible_declaresTwice :
    parse declaresTwice = .error ⟨⟨1, 13⟩, .redeclared "a"⟩ ∧
      ∃ front u rest, tokenize declaresTwice = front ++ u :: rest ∧ ⟨1, 13⟩ = u.pos ∧
        (∀ us, us <+: front → Viable (kindsOf us)) ∧ ¬ Viable (kindsOf (front ++ [u])) := by
  have h : parse declaresTwice = .error ⟨⟨1, 13⟩, .redeclared "a"⟩ := by cbv
  exact ⟨h, error_at_first_impossible declaresTwice _ h (by simp [SyntaxError.IsCount])⟩

end SingleAssignment.Source
