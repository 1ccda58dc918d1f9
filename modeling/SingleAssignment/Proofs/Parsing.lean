import SingleAssignment.Proofs.Grammar

/-!
# Reading is deriving

A text is read just if its tokens are a program of the grammar, and then its tree is the one of the
derivation (`parse_iff_isProgram`). So no text has two trees.

What is read is derived: each reader takes a row of tokens off the front, and the row is a phrase
with the tree that was read (`Takes`). The sum and the product that a loop has read so far are the
left operand of the next operator. What is derived is read: a phrase is read in front of any tokens
that cannot go on with it (`Derives.isRead`), and behind every phrase of a program there are such
tokens.
-/

namespace SingleAssignment.Source

open List
open Option (bind_eq_some_iff bind_some map_eq_some_iff)

open Read (outcome)

/-! ## What is read is derived -/

/-- What is taken off the front of `ts` is a phrase. -/
def Takes {α : Type} (phrase : α → Phrase) (ts : List Token) (o : Option (α × List Token)) : Prop :=
  ∀ v rest, o = some (v, rest) → ∃ us, ts = us ++ rest ∧ Derives (phrase v) us

/-- A call with its arguments as one tree. -/
def callPhrase (c : Builtin × List Expr × Position) : Phrase :=
  .call c.1 c.2.1 c.2.2

theorem isSumOperator_iff {k : Token.Kind} {op : Operator} :
    IsSumOperator k op ↔ additive? k = some op := by
  constructor
  · intro h
    cases h <;> rfl
  · intro h
    unfold additive? at h
    split at h <;> cases h <;> constructor

theorem isProductOperator_iff {k : Token.Kind} {op : Operator} :
    IsProductOperator k op ↔ multiplicative? k = some op := by
  constructor
  · intro h
    cases h <;> rfl
  · intro h
    unfold multiplicative? at h
    split at h <;> cases h <;> constructor

theorem isComparison_iff {k : Token.Kind} {op : Comparison} :
    IsComparison k op ↔ comparison? k = some op := by
  constructor
  · intro h
    cases h <;> rfl
  · intro h
    unfold comparison? at h
    split at h <;> cases h <;> constructor

theorem outcome_consume {ts rest : List Token} {kind : Token.Kind} {pos : Position} :
    outcome (consume ts kind) = some (pos, rest) ↔ ts = ⟨kind, pos⟩ :: rest :=
  outcome_consumeAfter none ts kind

theorem ofName?_eq_some {name : String} {fn : Builtin} (h : Builtin.ofName? name = some fn) :
    fn.name = name ∧ (fn = .inputNum ∨ fn = .outputNum ∨ fn = .outputNewLine) :=
  ⟨by simpa using find?_some h, by simpa [Builtin.all] using mem_of_find?_eq_some h⟩

/-- The arguments of a call that has none. -/
theorem argumentsOutcome_nil {ts rest : List Token} (h : argumentsOutcome ts = some ([], rest)) :
    ts = rest ∨ ∃ p q, ts = ⟨.symbol .leftParen, p⟩ :: ⟨.symbol .rightParen, q⟩ :: rest := by
  unfold argumentsOutcome at h
  split at h
  · rename_i p us
    rw [outcome_arguments] at h
    split at h
    · rename_i hk
      rcases us with _ | ⟨⟨k, q⟩, us⟩
      · cases hk
      · obtain rfl : k = _ := hk
        cases h
        exact .inr ⟨p, q, rfl⟩
    · obtain ⟨_, -, h⟩ := bind_eq_some_iff.mp h
      obtain ⟨_, -, h⟩ := bind_eq_some_iff.mp h
      obtain ⟨_, -, h⟩ := map_eq_some_iff.mp h
      cases h
  · cases h
    exact .inl rfl

theorem eq_of_moreArguments_nil {ts rest : List Token}
    (h : MayRead.outcome (moreArguments ts) = some ([], rest)) : rest = ts := by
  rcases ts with _ | ⟨t, ts⟩
  · rw [outcome_moreArguments_nil] at h
    cases h
    rfl
  · rw [outcome_moreArguments] at h
    split at h
    · obtain ⟨_, -, h⟩ := bind_eq_some_iff.mp h
      obtain ⟨_, -, h⟩ := map_eq_some_iff.mp h
      cases h
    · cases h
      rfl

/-- The argument of a call that has one. -/
theorem argumentsOutcome_singleton {ts rest : List Token} {e : Expr}
    (h : argumentsOutcome ts = some ([e], rest)) : ∃ p q us, ts = ⟨.symbol .leftParen, p⟩ :: us ∧
      outcome (expression us) = some (e, ⟨.symbol .rightParen, q⟩ :: rest) := by
  unfold argumentsOutcome at h
  split at h
  · rename_i p us
    rw [outcome_arguments] at h
    split at h
    · cases h
    · obtain ⟨⟨e', vs⟩, he, h⟩ := bind_eq_some_iff.mp h
      obtain ⟨⟨es, ws⟩, hes, h⟩ := bind_eq_some_iff.mp h
      obtain ⟨⟨q, xs⟩, hq, h⟩ := map_eq_some_iff.mp h
      cases h
      obtain rfl := eq_of_moreArguments_nil hes
      obtain rfl := outcome_consume.mp hq
      exact ⟨p, q, us, rfl, he⟩
  · cases h

section Expressions

variable {n : Nat} {ts : List Token}
  (hE : ∀ us : List Token, us.length < n → Takes .expression us (outcome (expression us)))

include hE

theorem takes_indexList (hn : ts.length ≤ n) :
    Takes .indices ts (MayRead.outcome (indexList ts)) := by
  induction hk : ts.length using Nat.strongRecOn generalizing ts with
  | ind k ih =>
  intro es rest h
  rcases ts with _ | ⟨t, ts⟩
  · rw [outcome_indexList_nil] at h
    cases h
    exact ⟨[], rfl, .noIndex⟩
  · rw [outcome_indexList] at h
    split at h
    · rename_i ht
      obtain ⟨⟨e, us⟩, he, h⟩ := bind_eq_some_iff.mp h
      obtain ⟨⟨q, vs⟩, hq, h⟩ := bind_eq_some_iff.mp h
      obtain ⟨⟨es, rest⟩, hes, h⟩ := map_eq_some_iff.mp h
      cases h
      obtain ⟨xs, rfl, hxs⟩ := hE ts (by simp at hn; omega) e us he
      obtain rfl := outcome_consume.mp hq
      obtain ⟨ys, rfl, hys⟩ := ih vs.length (by simp at hk; omega) (by simp at hn; omega)
        rfl es rest hes
      refine ⟨_, ?_, .index (p := t.pos) (q := q) hxs hys⟩
      obtain ⟨k, p⟩ := t
      obtain rfl : k = _ := ht
      simp
    · cases h
      exact ⟨[], rfl, .noIndex⟩

theorem takes_designator (hn : ts.length ≤ n) : Takes .designator ts (outcome (designator ts)) := by
  intro d rest h
  rw [outcome_designator] at h
  obtain ⟨⟨⟨name, pos⟩, us⟩, hid, h⟩ := bind_eq_some_iff.mp h
  obtain ⟨⟨es, rest⟩, hes, h⟩ := map_eq_some_iff.mp h
  cases h
  obtain rfl := outcome_identifier.mp hid
  obtain ⟨xs, rfl, hxs⟩ := takes_indexList hE (Nat.le_of_succ_le hn) es rest hes
  exact ⟨_, rfl, .designator hxs⟩

theorem takes_call (hn : ts.length ≤ n) : Takes callPhrase ts (outcome (call ts)) := by
  intro c rest h
  rw [outcome_call] at h
  obtain ⟨⟨⟨name, pos⟩, us⟩, hid, h⟩ := bind_eq_some_iff.mp h
  obtain ⟨fn, hfn, h⟩ := bind_eq_some_iff.mp h
  obtain ⟨⟨args, rest⟩, hargs, h⟩ := map_eq_some_iff.mp h
  cases h
  obtain ⟨hargs, hlen⟩ := Option.filter_eq_some_iff.mp hargs
  obtain rfl := outcome_identifier.mp hid
  obtain ⟨rfl, hwhich⟩ := ofName?_eq_some hfn
  have hnone : (fn = .inputNum ∨ fn = .outputNewLine) → args = [] →
      ∃ vs, (⟨.identifier fn.name, pos⟩ :: us : List Token) = vs ++ rest ∧
      Derives (.call fn args pos) vs := by
    rintro hnone rfl
    rcases argumentsOutcome_nil hargs with rfl | ⟨p, q, rfl⟩
    · exact ⟨_, rfl, .bareCall hnone⟩
    · exact ⟨_, rfl, .emptyCall (p := p) (q := q) hnone⟩
  rcases hwhich with rfl | rfl | rfl
  · exact hnone (.inl rfl) (by simpa [Builtin.arity] using hlen)
  · obtain ⟨e, rfl⟩ : ∃ e, args = [e] := length_eq_one_iff.mp (of_decide_eq_true hlen)
    obtain ⟨p, q, vs, rfl, he⟩ := argumentsOutcome_singleton hargs
    obtain ⟨xs, rfl, hxs⟩ := hE vs (by simp only [length_cons] at hn; omega) e _ he
    exact ⟨_, by simp, .output (p := p) (q := q) hxs⟩
  · exact hnone (.inr rfl) (by simpa [Builtin.arity] using hlen)

theorem takes_factor (hn : ts.length ≤ n) : Takes .factor ts (outcome (factor ts)) := by
  intro e rest h
  rcases ts with _ | ⟨⟨k, p⟩, ts⟩
  · rw [outcome_factor_nil] at h
    cases h
  · rw [outcome_factor] at h
    dsimp only at h
    split at h
    · obtain ⟨⟨⟨m, pos⟩, us⟩, hm, h⟩ := map_eq_some_iff.mp h
      cases h
      obtain ⟨digits, hts, hd⟩ := outcome_number.mp hm
      cases hts
      exact ⟨_, rfl, .number hd⟩
    · obtain ⟨⟨d, us⟩, hd, h⟩ := map_eq_some_iff.mp h
      cases h
      obtain ⟨xs, hts, hxs⟩ := takes_designator hE hn d _ hd
      exact ⟨xs, hts, .element hxs⟩
    · obtain ⟨⟨e, us⟩, he, h⟩ := bind_eq_some_iff.mp h
      obtain ⟨⟨q, vs⟩, hq, h⟩ := map_eq_some_iff.mp h
      cases h
      obtain ⟨xs, rfl, hxs⟩ := hE ts hn e us he
      obtain rfl := outcome_consume.mp hq
      exact ⟨_, by simp, .parens (p := p) (q := q) hxs⟩
    · obtain ⟨⟨⟨fn, args, pos⟩, us⟩, hc, h⟩ := map_eq_some_iff.mp h
      cases h
      obtain ⟨xs, rfl, hxs⟩ := takes_call hE (Nat.le_of_succ_le hn) _ _ hc
      exact ⟨_, rfl, .callFactor hxs⟩
    · cases h

theorem takes_moreFactors (hn : ts.length ≤ n) {us rest : List Token} {product e : Expr}
    (hus : Derives (.term product) us)
    (h : MayRead.outcome (moreFactors product ts) = some (e, rest)) :
    ∃ vs, ts = vs ++ rest ∧ Derives (.term e) (us ++ vs) := by
  induction hk : ts.length using Nat.strongRecOn generalizing ts us product with
  | ind k ih =>
  rcases ts with _ | ⟨⟨k, p⟩, ts⟩
  · rw [outcome_moreFactors_nil] at h
    cases h
    exact ⟨[], rfl, by rwa [append_nil]⟩
  · rw [outcome_moreFactors] at h
    dsimp only at h
    split at h
    · cases h
      exact ⟨[], rfl, by rwa [append_nil]⟩
    · rename_i op hop
      obtain ⟨⟨r, vs⟩, hr, hmore⟩ := bind_eq_some_iff.mp h
      obtain ⟨xs, rfl, hxs⟩ := takes_factor hE (Nat.le_of_succ_le hn) r vs hr
      simp only [length_cons, length_append] at hn hk
      dsimp only at hmore
      obtain ⟨ys, rfl, hys⟩ := ih vs.length (by omega) (by omega)
        (.product (p := p) hus (isProductOperator_iff.mpr hop) hxs) hmore rfl
      exact ⟨⟨k, p⟩ :: (xs ++ ys), by simp, by simpa using hys⟩

theorem takes_term (hn : ts.length ≤ n) : Takes .term ts (outcome (term ts)) := by
  intro e rest h
  rw [outcome_term] at h
  obtain ⟨⟨e₁, us⟩, he, hmore⟩ := bind_eq_some_iff.mp h
  obtain ⟨xs, rfl, hxs⟩ := takes_factor hE hn e₁ us he
  rw [length_append] at hn
  obtain ⟨ys, rfl, hys⟩ := takes_moreFactors hE (Nat.le_trans (Nat.le_add_left ..) hn)
    (.oneFactor hxs) hmore
  exact ⟨_, (append_assoc ..).symm, hys⟩

theorem takes_moreTerms (hn : ts.length ≤ n) {us rest : List Token} {sum e : Expr}
    (hus : Derives (.expression sum) us) (h : MayRead.outcome (moreTerms sum ts) = some (e, rest)) :
    ∃ vs, ts = vs ++ rest ∧ Derives (.expression e) (us ++ vs) := by
  induction hk : ts.length using Nat.strongRecOn generalizing ts us sum with
  | ind k ih =>
  rcases ts with _ | ⟨⟨k, p⟩, ts⟩
  · rw [outcome_moreTerms_nil] at h
    cases h
    exact ⟨[], rfl, by rwa [append_nil]⟩
  · rw [outcome_moreTerms] at h
    dsimp only at h
    split at h
    · cases h
      exact ⟨[], rfl, by rwa [append_nil]⟩
    · rename_i op hop
      obtain ⟨⟨r, vs⟩, hr, hmore⟩ := bind_eq_some_iff.mp h
      obtain ⟨xs, rfl, hxs⟩ := takes_term hE (Nat.le_of_succ_le hn) r vs hr
      simp only [length_cons, length_append] at hn hk
      dsimp only at hmore
      obtain ⟨ys, rfl, hys⟩ := ih vs.length (by omega) (by omega)
        (.sum (p := p) hus (isSumOperator_iff.mpr hop) hxs) hmore rfl
      exact ⟨⟨k, p⟩ :: (xs ++ ys), by simp, by simpa using hys⟩

end Expressions

/-- What is read as an expression is one. -/
theorem takes_expression (ts : List Token) : Takes .expression ts (outcome (expression ts)) := by
  induction hk : ts.length using Nat.strongRecOn generalizing ts with
  | ind k ih =>
  have hE : ∀ us : List Token, us.length < ts.length → Takes .expression us
    (outcome (expression us)) :=
    fun us hus => ih us.length (hk ▸ hus) us rfl
  intro e rest h
  rw [outcome_expression] at h
  obtain ⟨⟨e₁, us⟩, he, hmore⟩ := bind_eq_some_iff.mp h
  obtain ⟨xs, rfl, hxs⟩ := takes_term hE (Nat.le_refl _) e₁ us he
  obtain ⟨ys, rfl, hys⟩ := takes_moreTerms hE (by simp) (.oneTerm hxs) hmore
  exact ⟨_, (append_assoc ..).symm, hys⟩

theorem takes_relation (ts : List Token) : Takes .relation ts (outcome (relation ts)) := by
  intro r rest h
  rw [outcome_relation] at h
  obtain ⟨⟨l, us⟩, hl, hmore⟩ := bind_eq_some_iff.mp h
  obtain ⟨xs, rfl, hxs⟩ := takes_expression _ l us hl
  rcases us with _ | ⟨⟨k, p⟩, us⟩
  · cases hmore
  · obtain ⟨op, hop, hright⟩ := bind_eq_some_iff.mp hmore
    obtain ⟨⟨r, vs⟩, hr, heq⟩ := map_eq_some_iff.mp hright
    cases heq
    obtain ⟨ys, rfl, hys⟩ := takes_expression us r vs hr
    exact ⟨_, by simp, .relation (p := p) hxs (isComparison_iff.mpr hop) hys⟩

section Statements

variable {n : Nat} {ts : List Token}
  (hS : ∀ us : List Token, us.length < n → Takes .sequence us (MayRead.outcome (statementList us)))

include hS

theorem takes_if {cond : Relation} {thenPart : List Stmt} {pos p : Position}
    {xs ys rest : List Token} {s : Stmt} (hn : ts.length ≤ n) (hcond : Derives (.relation cond) xs)
    (hthen : Derives (.sequence thenPart) ys)
    (h : elseOutcome cond thenPart pos ts = some (s, rest)) :
    ∃ zs, ts = zs ++ rest ∧
      Derives (.statement s) (⟨.keyword .ifWord, pos⟩ ::
        (xs ++ ⟨.keyword .thenWord, p⟩ :: (ys ++ zs))) := by
  unfold elseOutcome at h
  split at h
  · rename_i p' us
    obtain ⟨⟨elsePart, vs⟩, helse, hmore⟩ := bind_eq_some_iff.mp h
    obtain ⟨⟨q, ws⟩, hq, heq⟩ := map_eq_some_iff.mp hmore
    cases heq
    obtain ⟨zs, rfl, hzs⟩ := hS us hn elsePart vs helse
    obtain rfl := outcome_consume.mp hq
    exact ⟨⟨.keyword .elseWord, p'⟩ :: (zs ++
      [⟨.keyword .fiWord, q⟩]), by simp, .ifElse hcond hthen hzs⟩
  · obtain ⟨⟨q, ws⟩, hq, heq⟩ := map_eq_some_iff.mp h
    cases heq
    obtain rfl := outcome_consume.mp hq
    exact ⟨_, rfl, .ifThen (q := q) hcond hthen⟩

theorem takes_statement (hn : ts.length ≤ n) : Takes .statement ts (outcome (statement ts)) := by
  intro s rest h
  rcases ts with _ | ⟨⟨k, pos⟩, ts⟩
  · rw [outcome_statement_nil] at h
    cases h
  rw [outcome_statement] at h
  split at h
  · -- an assignment
    obtain ⟨⟨d, us⟩, hd, hmore⟩ := bind_eq_some_iff.mp h
    obtain ⟨⟨p, vs⟩, hp, hvalue⟩ := bind_eq_some_iff.mp hmore
    obtain ⟨⟨e, ws⟩, he, heq⟩ := map_eq_some_iff.mp hvalue
    cases heq
    obtain ⟨xs, rfl, hxs⟩ := takes_designator (fun us _ => takes_expression us)
      (Nat.le_refl _) d us hd
    obtain rfl := outcome_consume.mp hp
    obtain ⟨ys, rfl, hys⟩ := takes_expression vs e ws he
    exact ⟨_, by simp, .assign (p := p) hxs hys⟩
  · -- a call
    obtain ⟨⟨⟨fn, args, fnPos⟩, us⟩, hc, heq⟩ := map_eq_some_iff.mp h
    cases heq
    obtain ⟨xs, rfl, hxs⟩ := takes_call (fun us _ => takes_expression us) (Nat.le_refl _) _ us hc
    exact ⟨_, rfl, .callStatement hxs⟩
  · -- an `if`
    obtain ⟨⟨r, us⟩, hr, hmore⟩ := bind_eq_some_iff.mp h
    obtain ⟨⟨p, vs⟩, hp, hparts⟩ := bind_eq_some_iff.mp hmore
    obtain ⟨⟨thenPart, ws⟩, hthen, helse⟩ := bind_eq_some_iff.mp hparts
    obtain ⟨xs, rfl, hxs⟩ := takes_relation ts r us hr
    obtain rfl := outcome_consume.mp hp
    simp only [length_cons, length_append] at hn
    obtain ⟨ys, rfl, hys⟩ := hS vs (by omega) thenPart ws hthen
    rw [length_append] at hn
    dsimp only at helse
    obtain ⟨zs, rfl, hzs⟩ := takes_if hS (p := p) (by omega) hxs hys helse
    exact ⟨_, by simp, hzs⟩
  · -- a loop
    obtain ⟨⟨r, us⟩, hr, hmore⟩ := bind_eq_some_iff.mp h
    obtain ⟨⟨p, vs⟩, hp, hparts⟩ := bind_eq_some_iff.mp hmore
    obtain ⟨⟨body, ws⟩, hbody, hend⟩ := bind_eq_some_iff.mp hparts
    obtain ⟨⟨q, zs⟩, hq, heq⟩ := map_eq_some_iff.mp hend
    cases heq
    obtain ⟨xs, rfl, hxs⟩ := takes_relation ts r us hr
    obtain rfl := outcome_consume.mp hp
    simp only [length_cons, length_append] at hn
    obtain ⟨ys, rfl, hys⟩ := hS vs (by omega) body ws hbody
    obtain rfl := outcome_consume.mp hq
    exact ⟨_, by simp, .loop (p := p) (q := q) hxs hys⟩
  · cases h

end Statements

/-- What is read as a sequence of statements is one. -/
theorem takes_statementList (ts : List Token) :
    Takes .sequence ts (MayRead.outcome (statementList ts)) := by
  induction hk : ts.length using Nat.strongRecOn generalizing ts with
  | ind k ih =>
  have hS : ∀ us : List Token, us.length < ts.length →
      Takes .sequence us (MayRead.outcome (statementList us)) :=
    fun us hus => ih us.length (hk ▸ hus) us rfl
  intro ss rest h
  rw [outcome_statementList] at h
  split at h
  · cases h
    exact ⟨[], rfl, .noStatement⟩
  · obtain ⟨⟨s, us⟩, hs, hmore⟩ := bind_eq_some_iff.mp h
    obtain ⟨xs, rfl, hxs⟩ := takes_statement hS (Nat.le_refl _) s us hs
    dsimp only at hmore
    unfold moreOutcome at hmore
    split at hmore
    · rename_i p us _
      obtain ⟨⟨ss, vs⟩, hss, heq⟩ := map_eq_some_iff.mp hmore
      cases heq
      obtain ⟨ys, rfl, hys⟩ := hS us (by simp only [length_append, length_cons]; omega) ss vs hss
      exact ⟨_, by simp, .nextStatement (p := p) hxs hys⟩
    · cases hmore
      exact ⟨xs, rfl, .lastStatement hxs⟩

/-! ## Declarations and programs that are read -/

theorem isDimensions_of_read {ts rest : List Token} {dims : List Int64}
    (h : outcome (dimensions ts) = some (dims, rest)) : ∃ us, ts = us ++ rest ∧
    IsDimensions dims us := by
  induction hk : ts.length using Nat.strongRecOn generalizing ts dims with
  | ind k ih =>
  rw [outcome_dimensions] at h
  obtain ⟨⟨p, us⟩, hp, hnumber⟩ := bind_eq_some_iff.mp h
  obtain ⟨⟨⟨n, q⟩, vs⟩, hn, hclose⟩ := bind_eq_some_iff.mp hnumber
  obtain rfl := outcome_consume.mp hp
  obtain ⟨digits, rfl, hdigits⟩ := outcome_number.mp hn
  split at hclose
  · cases hclose
  · rename_i hle
    have hpos : 0 < n := Int64.not_le.mp hle
    obtain ⟨⟨r, ws⟩, hr, hmore⟩ := bind_eq_some_iff.mp hclose
    obtain rfl := outcome_consume.mp hr
    split at hmore
    · obtain ⟨⟨ns, xs⟩, hns, heq⟩ := map_eq_some_iff.mp hmore
      cases heq
      obtain ⟨ys, rfl, hys⟩ := ih ws.length (by simp only [length_cons] at hk; omega) hns rfl
      exact ⟨_, by simp, .more (p := p) (q := q) (r := r) hdigits hpos hys⟩
    · cases hmore
      exact ⟨_, rfl, .one (p := p) (q := q) (r := r) hdigits hpos⟩

theorem isNames_of_read {declared : List String} {ts rest : List Token}
    {names : List (String × Position)}
    (h : outcome (declaredNames declared ts) = some (names, rest)) :
    ∃ us, ts = us ++ rest ∧ IsNames names us ∧
      (declared.Nodup → (declared ++ names.map (·.1)).Nodup) := by
  induction hk : ts.length using Nat.strongRecOn generalizing ts names declared with
  | ind k ih =>
  rw [outcome_declaredNames] at h
  obtain ⟨⟨⟨name, pos⟩, us⟩, hid, hmore⟩ := bind_eq_some_iff.mp h
  obtain rfl := outcome_identifier.mp hid
  split at hmore
  · cases hmore
  · rename_i hnew
    replace hnew : name ∉ declared := by simpa using hnew
    dsimp only at hmore
    unfold namesOutcome at hmore
    split at hmore
    · rename_i p vs
      obtain ⟨⟨names, ws⟩, hnames, heq⟩ := map_eq_some_iff.mp hmore
      cases heq
      obtain ⟨xs, rfl, hxs, hnodup⟩ := ih vs.length (by simp only [length_cons] at hk; omega) hnames
        rfl
      refine ⟨_, by simp, .more (p := p) hxs, fun hd => ?_⟩
      have := hnodup (nodup_cons.mpr ⟨hnew, hd⟩)
      rw [map_cons]
      exact perm_middle.nodup_iff.mpr this
    · cases hmore
      refine ⟨_, rfl, .one, fun hd => ?_⟩
      exact perm_middle.nodup_iff.mpr (by simpa using ⟨hnew, hd⟩)

theorem perm_names_vars (d : Declared) (names : List (String × Position)) :
    ({ d with vars := d.vars ++ names.map fun (n, p) => ⟨n, p⟩ } : Declared).names.Perm
      (d.names ++ names.map (·.1)) := by
  simp only [Declared.names, map_append, map_map, append_assoc]
  exact (perm_append_comm).append_left _

theorem perm_names_arrays (d : Declared) (dims : List Int64) (names : List (String × Position)) :
    ({ d with arrays := d.arrays ++ names.map fun (n, p) => ⟨n, dims, p⟩ } : Declared).names =
      d.names ++ names.map (·.1) := by
  simp only [Declared.names, map_append, map_map, append_assoc]
  rfl

/-- What is declared by rows of tokens, behind what was declared before. -/
def Declared.append (d : Declared) (vars : List VarDecl) (arrays : List ArrayDecl) : Declared :=
  ⟨d.vars ++ vars, d.arrays ++ arrays⟩

theorem isDeclarations_of_read {d d' : Declared} {ts rest : List Token}
    (h : MayRead.outcome (declarations d ts) = some (d', rest)) : ∃ us vars arrays,
    ts = us ++ rest ∧ IsDeclarations vars arrays us ∧ d' = d.append vars arrays ∧
      (d.names.Nodup → d'.names.Nodup) := by
  induction hk : ts.length using Nat.strongRecOn generalizing ts d with
  | ind k ih =>
  have hnext : ∀ (d : Declared) (us : List Token), us.length < k → declaredOutcome d
    us = some (d', rest) → ∃ q vs vars arrays, us = ⟨.symbol .semicolon, q⟩ :: (vs ++ rest) ∧
    IsDeclarations vars arrays vs ∧
        d' = d.append vars arrays ∧ (d.names.Nodup → d'.names.Nodup) := by
    intro d us hlt hout
    obtain ⟨⟨q, vs⟩, hq, hmore⟩ := bind_eq_some_iff.mp hout
    obtain rfl := (outcome_consumeAfter ..).mp hq
    obtain ⟨ws, vars, arrays, rfl, hws, hd', hnodup⟩ :=
      ih vs.length (by simp only [length_cons] at hlt; omega) hmore rfl
    exact ⟨q, ws, vars, arrays, rfl, hws, hd', hnodup⟩
  by_cases hv : (current ts).kind = .keyword .varWord
  · obtain ⟨p, us, rfl⟩ : ∃ p us, ts = ⟨.keyword .varWord, p⟩ :: us := by
      rcases ts with _ | ⟨⟨k, p⟩, us⟩
      · cases hv
      · exact ⟨p, us, by rw [show k = _ from hv]⟩
    rw [outcome_declarations_vars] at h
    obtain ⟨⟨names, vs⟩, hnames, hmore⟩ := bind_eq_some_iff.mp h
    obtain ⟨xs, rfl, hxs, hnew⟩ := isNames_of_read hnames
    simp only [length_cons, length_append] at hk
    obtain ⟨q, ys, vars, arrays, rfl, hys, rfl, hnodup⟩ := hnext _ vs (by omega) hmore
    refine ⟨_, _, _, by simp, .scalars (p := p) (q := q) hxs hys, ?_, fun hd => hnodup ?_⟩
    · simp [Declared.append]
    · exact (perm_names_vars d names).nodup_iff.mpr (hnew hd)
  by_cases ha : (current ts).kind = .keyword .arrayWord
  · obtain ⟨p, us, rfl⟩ : ∃ p us, ts = ⟨.keyword .arrayWord, p⟩ :: us := by
      rcases ts with _ | ⟨⟨k, p⟩, us⟩
      · cases ha
      · exact ⟨p, us, by rw [show k = _ from ha]⟩
    rw [outcome_declarations_arrays] at h
    obtain ⟨⟨dims, vs⟩, hdims, hnaming⟩ := bind_eq_some_iff.mp h
    obtain ⟨⟨names, ws⟩, hnames, hmore⟩ := bind_eq_some_iff.mp hnaming
    obtain ⟨xs, rfl, hxs⟩ := isDimensions_of_read hdims
    obtain ⟨ys, rfl, hys, hnew⟩ := isNames_of_read hnames
    simp only [length_cons, length_append] at hk
    obtain ⟨q, zs, vars, arrays, rfl, hzs, rfl, hnodup⟩ := hnext _ ws (by omega) hmore
    refine ⟨_, _, _, by simp, .arrays (p := p) (q := q) hxs hys hzs, ?_, fun hd => hnodup ?_⟩
    · simp [Declared.append]
    · exact perm_names_arrays d dims names ▸ hnew hd
  · rw [outcome_declarations_none d hv ha] at h
    cases h
    exact ⟨[], [], [], rfl, .none, by simp [Declared.append], id⟩

/-- The tokens of a text end with its end or a fault, and neither is among the others. -/
theorem Cursor.exists_tokens_eq (c : Cursor) : ∃ us t, c.tokens = us ++ [t] ∧ t.kind.isLast = true ∧
    ∀ u ∈ us, u.kind.isLast = false := by
  fun_induction Cursor.tokens c with
  | case1 c h ih =>
    obtain ⟨us, t, heq, ht, hus⟩ := ih
    exact ⟨c.next.1 :: us, t, by rw [heq]; rfl, ht, forall_mem_cons.mpr ⟨h, hus⟩⟩
  | case2 c h => exact ⟨[], c.next.1, rfl, by simpa using h, fun u hu => by cases hu⟩

/-- The end of the text is the last token, and it is there. -/
theorem eq_singleton_of_endOfText {cs : List Char} {front rest : List Token} {t : Token}
    (h : tokenize cs = front ++ t :: rest) (ht : t.kind.isLast = false)
    (hrest : (current rest).kind = .endOfText) : ∃ r, rest = [⟨.endOfText, r⟩] := by
  obtain ⟨us, last, heq, hlast, hus⟩ := (Cursor.ofChars cs).exists_tokens_eq
  replace h : us ++ [last] = front ++ t :: rest := heq.symm.trans h
  rcases eq_nil_or_concat rest with rfl | ⟨init, z, rfl⟩
  · obtain ⟨-, hz⟩ := append_inj' h rfl
    cases hz
    rw [ht] at hlast
    cases hlast
  · rw [concat_eq_append] at h hrest ⊢
    rw [← cons_append, ← append_assoc] at h
    obtain ⟨rfl, hz⟩ := append_inj' h rfl
    rcases init with _ | ⟨x, init⟩
    · obtain ⟨k, r⟩ := z
      exact ⟨r, by rw [show k = _ from hrest, nil_append]⟩
    · have hx := hus x (by simp)
      rw [show x.kind = _ from hrest] at hx
      cases hx

theorem isProgram_of_read {cs : List Char} {c : Computation} (h : parse cs = .ok c) :
    IsProgram c (tokenize cs) := by
  have h' : (computation (tokenize cs)).toOption = some c := by
    rw [show computation (tokenize cs) = .ok c from h]
    rfl
  rw [toOption_computation] at h'
  obtain ⟨⟨p, us⟩, hp, hdecls⟩ := bind_eq_some_iff.mp h'
  obtain ⟨⟨d, vs⟩, hd, hrest⟩ := bind_eq_some_iff.mp hdecls
  split at hrest
  · cases hrest
  obtain ⟨⟨q, ws⟩, hq, hbody⟩ := bind_eq_some_iff.mp hrest
  obtain ⟨⟨body, xs⟩, hb, hclose⟩ := bind_eq_some_iff.mp hbody
  obtain ⟨⟨r, ys⟩, hr, hdot⟩ := bind_eq_some_iff.mp hclose
  obtain ⟨⟨r', zs⟩, hr', hend⟩ := bind_eq_some_iff.mp hdot
  split at hend
  · rename_i heof
    cases hend
    obtain ⟨as, vars, arrays, rfl, has, rfl, hnodup⟩ := isDeclarations_of_read hd
    obtain rfl := outcome_consume.mp hq
    obtain ⟨bs, rfl, hbs⟩ := takes_statementList ws body xs hb
    obtain rfl := outcome_consume.mp hr
    obtain rfl := (outcome_consumeAfter ..).mp hr'
    have htokens := outcome_consume.mp hp
    have hsplit : tokenize cs = (⟨.keyword .mainWord, p⟩ :: (as ++ ⟨.symbol .leftBrace, q⟩ ::
        (bs ++ [⟨.symbol .rightBrace, r⟩]))) ++ ⟨.symbol .period, r'⟩ :: zs := by
      rw [htokens]
      simp
    obtain ⟨r'', rfl⟩ := eq_singleton_of_endOfText hsplit rfl heof
    rw [htokens]
    exact .mk has (hnodup nodup_nil) hbs
  · cases hend

/-! ## What is derived is read -/

/-- A factor cannot go on with what follows. -/
structure EndsFactor (rest : List Token) : Prop where
  index : (current rest).kind ≠ .symbol .leftBracket
  arguments : (current rest).kind ≠ .symbol .leftParen

/-- A product cannot go on with what follows. -/
structure EndsTerm (rest : List Token) : Prop extends EndsFactor rest where
  product : multiplicative? (current rest).kind = none

/-- A sum cannot go on with what follows. -/
structure EndsExpression (rest : List Token) : Prop extends EndsTerm rest where
  sum : additive? (current rest).kind = none

/-- A row of tokens is read as a phrase, in front of anything that cannot go on with it. A sum and a
product are read together with what follows, as the loops that read them do. -/
def Phrase.IsRead (ts : List Token) : Phrase → Prop
  | expression e => ∀ rest r, EndsTerm rest → MayRead.outcome (moreTerms e rest) = some r →
    outcome (Source.expression (ts ++ rest)) = some r
  | term e => ∀ rest r, EndsFactor rest → MayRead.outcome (moreFactors e rest) = some r →
    outcome (Source.term (ts ++ rest)) = some r
  | factor e => ∀ rest, EndsFactor rest → outcome (Source.factor (ts ++ rest)) = some (e, rest)
  | designator d => ∀ rest, (current rest).kind ≠ .symbol .leftBracket →
    outcome (Source.designator (ts ++ rest)) = some (d, rest)
  | indices es => ∀ rest, (current rest).kind ≠ .symbol .leftBracket →
    MayRead.outcome (indexList (ts ++ rest)) = some (es, rest)
  | call fn args pos => ∀ rest, (current rest).kind ≠ .symbol .leftParen →
    outcome (Source.call (ts ++ rest)) = some ((fn, args, pos), rest)
  | relation r =>
    ∀ rest, EndsExpression rest → outcome (Source.relation (ts ++ rest)) = some (r, rest)
  | statement s =>
    ∀ rest, EndsExpression rest → outcome (Source.statement (ts ++ rest)) = some (s, rest)
  | sequence ss => ∀ rest, closesSequence (current rest).kind = true →
    MayRead.outcome (statementList (ts ++ rest)) = some (ss, rest)

theorem moreTerms_of_ends {rest : List Token} (h : additive? (current rest).kind = none)
    (sum : Expr) : MayRead.outcome (moreTerms sum rest) = some (sum, rest) := by
  rcases rest with _ | ⟨t, rest⟩
  · exact outcome_moreTerms_nil sum
  · rw [outcome_moreTerms, show additive? t.kind = none from h]

theorem moreFactors_of_ends {rest : List Token} (h : multiplicative? (current rest).kind = none)
    (product : Expr) : MayRead.outcome (moreFactors product rest) = some (product, rest) := by
  rcases rest with _ | ⟨t, rest⟩
  · exact outcome_moreFactors_nil product
  · rw [outcome_moreFactors, show multiplicative? t.kind = none from h]

theorem indexList_of_ends {rest : List Token} (h : (current rest).kind ≠ .symbol .leftBracket) :
    MayRead.outcome (indexList rest) = some ([], rest) := by
  rcases rest with _ | ⟨t, rest⟩
  · exact outcome_indexList_nil
  · rw [outcome_indexList, if_neg (show t.kind ≠ _ from h)]

/-- An expression is read up to where it cannot go on. -/
theorem Phrase.IsRead.expression {ts rest : List Token} {e : Expr}
    (h : (Phrase.expression e).IsRead ts) (hrest : EndsExpression rest) :
    outcome (Source.expression (ts ++ rest)) = some (e, rest) :=
  h rest _ hrest.toEndsTerm (moreTerms_of_ends hrest.sum e)

theorem Phrase.IsRead.term {ts rest : List Token} {e : Expr} (h : (Phrase.term e).IsRead ts)
    (hrest : EndsTerm rest) : outcome (Source.term (ts ++ rest)) = some (e, rest) :=
  h rest _ hrest.toEndsFactor (moreFactors_of_ends hrest.product e)

theorem outcome_consume_cons (kind : Token.Kind) (pos : Position) (rest : List Token) :
    outcome (consume (⟨kind, pos⟩ :: rest) kind) = some (pos, rest) :=
  outcome_consume.mpr rfl

theorem outcome_identifier_cons (name : String) (pos : Position) (rest : List Token) :
    outcome (identifier (⟨.identifier name, pos⟩ :: rest)) = some ((name, pos), rest) :=
  outcome_identifier.mpr rfl

theorem EndsTerm.of_isSumOperator {k : Token.Kind} {op : Operator} (h : IsSumOperator k op)
    (p : Position) (rest : List Token) : EndsTerm (⟨k, p⟩ :: rest) := by
  cases h <;> exact ⟨⟨by simp [current], by simp [current]⟩, rfl⟩

theorem EndsFactor.of_isProductOperator {k : Token.Kind} {op : Operator}
    (h : IsProductOperator k op) (p : Position) (rest : List Token) :
    EndsFactor (⟨k, p⟩ :: rest) := by
  cases h <;> exact ⟨by simp [current], by simp [current]⟩

theorem EndsExpression.of_isComparison {k : Token.Kind} {op : Comparison} (h : IsComparison k op)
    (p : Position) (rest : List Token) : EndsExpression (⟨k, p⟩ :: rest) := by
  cases h <;> exact ⟨⟨⟨by simp [current], by simp [current]⟩, rfl⟩, rfl⟩

/-- The tokens that close an expression or a statement. -/
theorem EndsExpression.of_mem {k : Token.Kind} (h : k ∈ [.symbol .rightParen, .symbol .rightBracket,
    .symbol .semicolon, .keyword .thenWord, .keyword .doWord]) (p : Position)
    (rest : List Token) : EndsExpression (⟨k, p⟩ :: rest) := by
  simp only [mem_cons, not_mem_nil, or_false] at h
  rcases h with rfl | rfl | rfl | rfl | rfl <;>
    exact ⟨⟨⟨by simp [current], by simp [current]⟩, rfl⟩, rfl⟩

theorem EndsExpression.of_closesSequence {rest : List Token}
    (h : closesSequence (current rest).kind = true) : EndsExpression rest := by
  unfold closesSequence at h
  split at h
  all_goals first
    | cases h; done
    | rename_i hk
      exact ⟨⟨⟨by simp [hk], by simp [hk]⟩, by rw [hk]; rfl⟩, by rw [hk]; rfl⟩

/-- No expression begins with a closing parenthesis. -/
theorem outcome_expression_of_rightParen {ts : List Token}
    (h : (current ts).kind = .symbol .rightParen) : outcome (expression ts) = none := by
  have hfactor : outcome (factor ts) = none := by
    rcases ts with _ | ⟨t, ts⟩
    · exact outcome_factor_nil
    · rw [outcome_factor, show t.kind = _ from h]
  rw [outcome_expression, outcome_term, hfactor]
  rfl

/-- No statement begins with a token that closes a sequence. -/
theorem outcome_statement_of_closesSequence {ts : List Token}
    (h : closesSequence (current ts).kind = true) : outcome (statement ts) = none := by
  rcases ts with _ | ⟨⟨k, p⟩, ts⟩
  · exact outcome_statement_nil
  · rw [outcome_statement]
    split <;> first | rfl | cases h

/-- The arguments of a call that has one, in parentheses. -/
theorem outcome_arguments_of_expression {ts rest : List Token} {e : Expr} {q : Position}
    (h : outcome (expression ts) = some (e, ⟨.symbol .rightParen, q⟩ :: rest)) :
    outcome (arguments ts) = some ([e], rest) := by
  have hne : (current ts).kind ≠ .symbol .rightParen := by
    intro hk
    rw [outcome_expression_of_rightParen hk] at h
    cases h
  rw [outcome_arguments, if_neg hne, h, bind_some, outcome_moreArguments, if_neg (by simp),
    bind_some, outcome_consume_cons]
  rfl

theorem argumentsOutcome_of_ne {rest : List Token} (h : (current rest).kind ≠ .symbol .leftParen) :
    argumentsOutcome rest = some ([], rest) := by
  unfold argumentsOutcome
  split
  · exact absurd rfl h
  · rfl

theorem Builtin.ofName?_name {fn : Builtin} (h : fn = .inputNum ∨ fn = .outputNum ∨
      fn = .outputNewLine) :
    Builtin.ofName? fn.name = some fn := by
  rcases h with rfl | rfl | rfl <;> decide

/-- A call is read with the arguments that follow its name. -/
theorem outcome_call_of_arguments {fn : Builtin} {pos : Position} {ts rest : List Token}
    {args : List Expr} (hfn : fn = .inputNum ∨ fn = .outputNum ∨ fn = .outputNewLine)
    (h : argumentsOutcome ts = some (args, rest)) (hlen : args.length = fn.arity) :
    outcome (call (⟨.identifier fn.name, pos⟩ :: ts)) = some ((fn, args, pos), rest) := by
  rw [outcome_call, outcome_identifier_cons, bind_some, Builtin.ofName?_name hfn, bind_some, h,
    Option.filter_some, if_pos (by simpa using hlen)]
  rfl

/-- What stands behind a statement that is the last one. -/
theorem moreOutcome_of_closesSequence {rest : List Token} (s : Stmt)
    (h : closesSequence (current rest).kind = true) : moreOutcome s rest = some ([s], rest) := by
  unfold moreOutcome
  split
  · cases h
  · rfl

theorem not_closesSequence_of_read {ts rest : List Token} {s : Stmt}
    (h : outcome (statement ts) = some (s, rest)) : ¬ closesSequence (current ts).kind = true := by
  intro hclose
  rw [outcome_statement_of_closesSequence hclose] at h
  cases h

/-- A row of tokens that is a phrase is read as that phrase. -/
theorem Derives.isRead {phrase : Phrase} {ts : List Token} (h : Derives phrase ts) :
    phrase.IsRead ts := by
  induction h with
  | oneTerm _ term =>
    intro rest r hrest hmore
    rw [outcome_expression, term.term hrest]
    exact hmore
  | sum _ hop _ left right =>
    -- the sum so far is the left operand of the loop that reads the next term
    intro rest r hrest hmore
    rw [append_assoc, cons_append]
    refine left _ r (.of_isSumOperator hop _ _) ?_
    rw [outcome_moreTerms, isSumOperator_iff.mp hop]
    dsimp only
    rw [right.term hrest]
    exact hmore
  | oneFactor _ factor =>
    intro rest r hrest hmore
    rw [outcome_term, factor rest hrest]
    exact hmore
  | product _ hop _ left right =>
    intro rest r hrest hmore
    rw [append_assoc, cons_append]
    refine left _ r (.of_isProductOperator hop _ _) ?_
    rw [outcome_moreFactors, isProductOperator_iff.mp hop]
    dsimp only
    rw [right rest hrest]
    exact hmore
  | @number digits n p hn =>
    intro rest _
    rw [cons_append, outcome_factor]
    dsimp only
    rw [outcome_number.mpr ⟨digits, rfl, hn⟩]
    rfl
  | element designator ih =>
    intro rest hrest
    have hread := ih rest hrest.index
    cases designator with
    | designator _ =>
      rw [cons_append] at hread ⊢
      rw [outcome_factor]
      dsimp only
      rw [hread]
      rfl
  | parens _ inner =>
    intro rest _
    rw [cons_append, outcome_factor]
    dsimp only
    rw [append_assoc, singleton_append, inner.expression (.of_mem (by simp) _ _),
      bind_some, outcome_consume_cons]
    rfl
  | callFactor _ call =>
    intro rest hrest
    rw [cons_append, outcome_factor]
    dsimp only
    rw [call rest hrest.arguments]
    rfl
  | designator _ indices =>
    intro rest hrest
    rw [outcome_designator, cons_append, outcome_identifier_cons, bind_some, indices rest hrest]
    rfl
  | noIndex =>
    intro rest hrest
    exact indexList_of_ends hrest
  | index _ _ first others =>
    intro rest hrest
    rw [cons_append, outcome_indexList, if_pos rfl, append_assoc, cons_append,
      first.expression (.of_mem (by simp) _ _), bind_some, outcome_consume_cons, bind_some,
      others rest hrest]
    rfl
  | bareCall hfn =>
    intro rest hrest
    refine outcome_call_of_arguments (by tauto) (argumentsOutcome_of_ne hrest) ?_
    rcases hfn with rfl | rfl <;> rfl
  | emptyCall hfn =>
    intro rest _
    refine @outcome_call_of_arguments _ _ _ rest _ (by tauto) ?_ ?_
    · simp only [argumentsOutcome, outcome_arguments]
      rfl
    · rcases hfn with rfl | rfl <;> rfl
  | output _ argument =>
    intro rest _
    rw [cons_append, cons_append, append_assoc, singleton_append]
    refine outcome_call_of_arguments (by simp) ?_ rfl
    exact outcome_arguments_of_expression (argument.expression (.of_mem (by simp) _ _))
  | relation _ hop _ left right =>
    intro rest hrest
    rw [outcome_relation, append_assoc, cons_append, left.expression (.of_isComparison hop _ _),
      bind_some]
    dsimp only
    rw [isComparison_iff.mp hop, bind_some, right.expression hrest]
    rfl
  | assign _ _ target value =>
    intro rest hrest
    rw [cons_append, outcome_statement]
    dsimp only
    rw [append_assoc, cons_append, target _ (by simp [current]), bind_some,
      outcome_consume_cons, bind_some, value.expression hrest]
    rfl
  | callStatement _ call =>
    intro rest hrest
    rw [cons_append, outcome_statement]
    dsimp only
    rw [call rest hrest.arguments]
    rfl
  | ifThen _ _ cond thenPart =>
    intro rest _
    rw [cons_append, outcome_statement]
    dsimp only
    rw [append_assoc, cons_append, cond _ (.of_mem (by simp) _ _), bind_some,
      outcome_consume_cons, bind_some, append_assoc, singleton_append, thenPart _ rfl, bind_some]
    dsimp only [elseOutcome]
    rw [outcome_consume_cons]
    rfl
  | ifElse _ _ _ cond thenPart elsePart =>
    intro rest _
    rw [cons_append, outcome_statement]
    dsimp only
    rw [append_assoc, cons_append, cond _ (.of_mem (by simp) _ _), bind_some,
      outcome_consume_cons, bind_some, append_assoc, cons_append, thenPart _ rfl, bind_some]
    dsimp only [elseOutcome]
    rw [append_assoc, singleton_append, elsePart _ rfl, bind_some, outcome_consume_cons]
    rfl
  | loop _ _ cond body =>
    intro rest _
    rw [cons_append, outcome_statement]
    dsimp only
    rw [append_assoc, cons_append, cond _ (.of_mem (by simp) _ _), bind_some,
      outcome_consume_cons, bind_some, append_assoc, singleton_append, body _ rfl,
      bind_some, outcome_consume_cons]
    rfl
  | noStatement =>
    intro rest hrest
    rw [nil_append, outcome_statementList, if_pos hrest]
  | lastStatement _ last =>
    intro rest hrest
    have hread := last rest (.of_closesSequence hrest)
    rw [outcome_statementList, if_neg (not_closesSequence_of_read hread), hread, bind_some,
      moreOutcome_of_closesSequence _ hrest]
  | @nextStatement s ss p ts us _ _ first others =>
    intro rest hrest
    rw [append_assoc, cons_append]
    have hread := first (⟨.symbol .semicolon, p⟩ :: (us ++ rest)) (.of_mem (by simp) _ _)
    rw [outcome_statementList, if_neg (not_closesSequence_of_read hread), hread, bind_some]
    dsimp only [moreOutcome]
    rw [others rest hrest]
    rfl

theorem IsDimensions.isRead {dims : List Int64} {ts rest : List Token} (h : IsDimensions dims ts)
    (hrest : (current rest).kind ≠ .symbol .leftBracket) :
    outcome (dimensions (ts ++ rest)) = some (dims, rest) := by
  induction h with
  | one hn hpos =>
    simp only [cons_append, nil_append]
    rw [outcome_dimensions, outcome_consume_cons, bind_some, outcome_number.mpr ⟨_, rfl, hn⟩,
      bind_some, if_neg (Int64.not_le.mpr hpos), outcome_consume_cons, bind_some, if_neg hrest]
  | more hn hpos others ih =>
    have hfirst : ∀ {ns : List Int64} {us : List Token}, IsDimensions ns us →
        (current (us ++ rest)).kind = .symbol .leftBracket := by
      intro ns us hus
      cases hus <;> rfl
    simp only [cons_append]
    rw [outcome_dimensions, outcome_consume_cons, bind_some, outcome_number.mpr ⟨_, rfl, hn⟩,
      bind_some, if_neg (Int64.not_le.mpr hpos), outcome_consume_cons, bind_some,
      if_pos (hfirst others), ih]
    rfl

theorem IsNames.isRead {names : List (String × Position)} {ts rest : List Token}
    (h : IsNames names ts) (hrest : (current rest).kind ≠ .symbol .comma) {declared : List String}
    (hnodup : (declared ++ names.map (·.1)).Nodup) :
    outcome (declaredNames declared (ts ++ rest)) = some (names, rest) := by
  induction h generalizing declared with
  | @one name pos =>
    have hnew : name ∉ declared := by
      rw [map_cons, perm_middle.nodup_iff, nodup_cons] at hnodup
      exact fun hmem => hnodup.1 (mem_append_left _ hmem)
    rw [singleton_append, outcome_declaredNames, outcome_identifier_cons, bind_some,
      if_neg (by simpa using hnew)]
    dsimp only
    unfold namesOutcome
    split
    · exact absurd rfl hrest
    · rfl
  | @more name pos p names ts others ih =>
    rw [map_cons, perm_middle.nodup_iff] at hnodup
    have hnew : name ∉ declared := fun hmem => (nodup_cons.mp hnodup).1 (mem_append_left _ hmem)
    simp only [cons_append]
    rw [outcome_declaredNames, outcome_identifier_cons, bind_some, if_neg (by simpa using hnew)]
    dsimp only [namesOutcome]
    rw [ih hnodup]
    rfl

theorem Declared.names_append (d : Declared) (vars : List VarDecl) (arrays : List ArrayDecl) :
    (d.append vars arrays).names.Perm
      (d.names ++ (vars.map (·.name) ++ arrays.map (·.name))) := by
  simp only [Declared.names, Declared.append, map_append, append_assoc]
  refine List.Perm.append_left _ ?_
  simp only [← append_assoc]
  exact perm_append_comm.append_right _

theorem IsDeclarations.isRead {vars : List VarDecl} {arrays : List ArrayDecl} {ts rest : List Token}
    (h : IsDeclarations vars arrays ts) (hv : (current rest).kind ≠ .keyword .varWord)
    (ha : (current rest).kind ≠ .keyword .arrayWord) {d : Declared}
    (hnodup : (d.append vars arrays).names.Nodup) :
    MayRead.outcome (declarations d (ts ++ rest)) = some (d.append vars arrays, rest) := by
  induction h generalizing d with
  | none =>
    rw [nil_append, outcome_declarations_none d hv ha]
    simp [Declared.append]
  | @scalars names vars arrays p q ts us hnames _ ih =>
    set d' : Declared := { d with vars := d.vars ++ names.map fun (n, p) => ⟨n, p⟩ } with hd'
    have happend : d'.append vars arrays =
        d.append (names.map (fun (name, pos) => ⟨name, pos⟩) ++ vars) arrays := by
      simp [hd', Declared.append]
    rw [← happend] at hnodup ⊢
    have hnew : (d.names ++ names.map (·.1)).Nodup := by
      rw [(d'.names_append vars arrays).nodup_iff] at hnodup
      exact (perm_names_vars d names).nodup_iff.mp (nodup_append.mp hnodup).1
    rw [cons_append, outcome_declarations_vars, append_assoc, cons_append,
      hnames.isRead (by simp [current]) hnew, bind_some]
    dsimp only [declaredOutcome]
    rw [(outcome_consumeAfter ..).mpr rfl, bind_some]
    exact ih hnodup
  | @arrays dims names vars arrays p q ts us vs hdims hnames _ ih =>
    set d' : Declared :=
      { d with arrays := d.arrays ++ names.map fun (n, p) => ⟨n, dims, p⟩ } with hd'
    have happend : d'.append vars arrays =
        d.append vars (names.map (fun (name, pos) => ⟨name, dims, pos⟩) ++ arrays) := by
      simp [hd', Declared.append]
    rw [← happend] at hnodup ⊢
    have hnew : (d.names ++ names.map (·.1)).Nodup := by
      rw [(d'.names_append vars arrays).nodup_iff] at hnodup
      rw [← perm_names_arrays d dims names]
      exact (nodup_append.mp hnodup).1
    have hfirst : (current (us ++ ⟨.symbol .semicolon, q⟩ :: (vs ++ rest))).kind ≠ .symbol
      .leftBracket := by
      cases hnames <;> simp [current]
    rw [cons_append, outcome_declarations_arrays, append_assoc, append_assoc,
      cons_append, hdims.isRead hfirst, bind_some,
      hnames.isRead (by simp [current]) hnew, bind_some]
    dsimp only [declaredOutcome]
    rw [(outcome_consumeAfter ..).mpr rfl, bind_some]
    exact ih hnodup

theorem IsProgram.isRead {c : Computation} {ts : List Token} (h : IsProgram c ts) :
    (computation ts).toOption = some c := by
  cases h with
  | mk hdecls hnames hbody =>
    rw [toOption_computation, outcome_consume_cons, bind_some,
      hdecls.isRead (by simp [current]) (by simp [current])
        (((Declared.names_append {} _ _).nodup_iff).mpr hnames), bind_some]
    dsimp only
    rw [if_neg (by simp [current, startsFunction]), outcome_consume_cons, bind_some,
      hbody.isRead _ rfl, bind_some, outcome_consume_cons, bind_some,
      (outcome_consumeAfter ..).mpr rfl, bind_some]
    simp [Declared.append, current]

/-- A text is read just if its tokens are a program, as the tree that the grammar gives it, and the
grammar gives it only one. -/
theorem parse_iff_isProgram (cs : List Char) :
    (∀ c, parse cs = .ok c ↔ IsProgram c (tokenize cs)) ∧
      ∀ c c', IsProgram c (tokenize cs) → IsProgram c' (tokenize cs) → c = c' := by
  refine ⟨fun c => ⟨isProgram_of_read, fun h => ?_⟩, fun c c' h h' => ?_⟩
  · have hread := h.isRead
    change (parse cs).toOption = some c at hread
    cases hp : parse cs with
    | error => rw [hp] at hread; cases hread
    | ok c' => rw [hp] at hread; cases hread; rfl
  · exact Option.some_inj.mp (h.isRead.symm.trans h'.isRead)

end SingleAssignment.Source
