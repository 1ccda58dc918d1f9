import Mathlib.Data.Set.Finite.Basic
import SingleAssignment.Proofs.Parsing

/-!
# The grammar as a table

Each phrase has rows, and an item of a row is a token or a phrase (`rules`). The table looks at what
tokens are, not at positions or trees, and lets a function have any number of arguments in
parentheses.

One token decides which row of a phrase is read (`Reads.ofRow`): the tokens that a phrase takes
leave exactly the items behind it (`Taken`), and at the token where a function stops, no row goes on
(`Stuck`).
-/

namespace SingleAssignment.Source

open List

open Token (Kind)
open Read (outcome)

/-! ## The table -/

/-- What a row can ask of one token. -/
inductive Terminal where
  | exactly (k : Kind)
  | number
  /-- A number above zero. -/
  | size
  | name
  /-- A name that no token before it is. -/
  | newName
  /-- The name of a function that is called with or without parentheses. -/
  | bareFunction
  | sumOperator
  | productOperator
  | comparison

/-- A token can stand for a terminal behind the tokens `before`. -/
@[simp] def Terminal.Accepts (before : List Kind) : Terminal → Kind → Prop
  | exactly k', k => k = k'
  | number, k => ∃ digits n, k = .number digits ∧ Denotes digits n
  | size, k => ∃ digits n, k = .number digits ∧ Denotes digits n ∧ 0 < n
  | name, k => ∃ s, k = .identifier s
  | newName, k => ∃ s, k = .identifier s ∧ k ∉ before
  | bareFunction, k =>
    k = .identifier Builtin.inputNum.name ∨ k = .identifier Builtin.outputNewLine.name
  | sumOperator, k => ∃ op, IsSumOperator k op
  | productOperator, k => ∃ op, IsProductOperator k op
  | comparison, k => ∃ op, IsComparison k op

/-- The phrases of the table. -/
inductive Category where
  | program | declarations | dimensions | moreDimensions | names | moreNames
  | sequence | moreStatements | statement | elsePart | relation
  | expression | moreTerms | term | moreFactors | factor | designator | indices
  | call | parentheses | arguments | moreArguments

/-- An item of a row. -/
inductive Item where
  | token (t : Terminal)
  | phrase (c : Category)

namespace Item

/-- A symbol of the language. -/
abbrev sym (s : Symbol) : Item := .token (.exactly (.symbol s))

/-- A reserved word. -/
abbrev word (w : Keyword) : Item := .token (.exactly (.keyword w))

end Item

open Item

/-- The rows of a phrase. -/
def rules : Category → List (List Item)
  | .program => [[word .mainWord, phrase .declarations, sym .leftBrace, phrase .sequence,
      sym .rightBrace, sym .period, token (.exactly .endOfText)]]
  | .declarations => [[],
      [word .varWord, phrase .names, sym .semicolon, phrase .declarations],
      [word .arrayWord, phrase .dimensions, phrase .names, sym .semicolon, phrase .declarations]]
  | .dimensions => [[sym .leftBracket, token .size, sym .rightBracket, phrase .moreDimensions]]
  | .moreDimensions => [[], [phrase .dimensions]]
  | .names => [[token .newName, phrase .moreNames]]
  | .moreNames => [[], [sym .comma, phrase .names]]
  | .sequence => [[], [phrase .statement, phrase .moreStatements]]
  | .moreStatements => [[], [sym .semicolon, phrase .sequence]]
  | .statement => [
      [word .letWord, phrase .designator, sym .becomes, phrase .expression],
      [word .callWord, phrase .call],
      [word .ifWord, phrase .relation, word .thenWord, phrase .sequence, phrase .elsePart,
        word .fiWord],
      [word .whileWord, phrase .relation, word .doWord, phrase .sequence, word .odWord]]
  | .elsePart => [[], [word .elseWord, phrase .sequence]]
  | .relation => [[phrase .expression, token .comparison, phrase .expression]]
  | .expression => [[phrase .term, phrase .moreTerms]]
  | .moreTerms => [[], [token .sumOperator, phrase .term, phrase .moreTerms]]
  | .term => [[phrase .factor, phrase .moreFactors]]
  | .moreFactors => [[], [token .productOperator, phrase .factor, phrase .moreFactors]]
  | .factor => [[token .number], [phrase .designator],
      [sym .leftParen, phrase .expression, sym .rightParen], [word .callWord, phrase .call]]
  | .designator => [[token .name, phrase .indices]]
  | .indices => [[], [sym .leftBracket, phrase .expression, sym .rightBracket, phrase .indices]]
  | .call => [[token .bareFunction, phrase .parentheses],
      [token (.exactly (.identifier Builtin.outputNum.name)), sym .leftParen, phrase .arguments]]
  | .parentheses => [[], [sym .leftParen, phrase .arguments]]
  | .arguments => [[sym .rightParen], [phrase .expression, phrase .moreArguments, sym .rightParen]]
  | .moreArguments => [[], [sym .comma, phrase .expression, phrase .moreArguments]]

/-- Behind the tokens `before`, items stand for a row of tokens. -/
inductive Expands : List Kind → List Item → List Kind → Prop
  | done {before : List Kind} : Expands before [] []
  | token {before ks : List Kind} {k : Kind} {t : Terminal} {items : List Item}
      (hk : t.Accepts before k) (others : Expands (before ++ [k]) items ks) :
      Expands before (.token t :: items) (k :: ks)
  | phrase {before ks : List Kind} {c : Category} {row items : List Item}
      (hrow : row ∈ rules c) (others : Expands before (row ++ items) ks) :
      Expands before (.phrase c :: items) ks

/-- A row of tokens starts a program. -/
def Viable (ks : List Kind) : Prop :=
  ∃ more, Expands [] [.phrase .program] (ks ++ more)

variable {before w : List Kind} {k : Kind} {t : Terminal} {c : Category} {items others : List Item}

@[simp] theorem expands_token : Expands before (.token t :: items) (k :: w) ↔
    t.Accepts before k ∧ Expands (before ++ [k]) items w := by
  refine ⟨fun h => ?_, fun h => .token h.1 h.2⟩
  cases h with
  | token hk others => exact ⟨hk, others⟩

@[simp] theorem expands_phrase : Expands before (.phrase c :: items) (k :: w) ↔
    ∃ row ∈ rules c, Expands before (row ++ items) (k :: w) := by
  constructor
  · intro h
    cases h with
    | phrase hrow others => exact ⟨_, hrow, others⟩
  · rintro ⟨row, hrow, hw⟩
    exact .phrase hrow hw

/-! ## All items stand for something -/

theorem Terminal.exists_accepts (t : Terminal) (before : List Kind) : ∃ k, t.Accepts before k := by
  cases t with
  | exactly k => exact ⟨k, rfl⟩
  | number => exact ⟨_, "0", 0, rfl, numberOfText?_eq_some.mp (by decide)⟩
  | size => exact ⟨_, "1", 1, rfl, numberOfText?_eq_some.mp (by decide), by decide⟩
  | name => exact ⟨_, "a", rfl⟩
  | newName =>
    have hinj : Function.Injective fun n => Kind.identifier
      (String.ofList (List.replicate n 'a')) := by
      intro m n h
      simpa using congrArg List.length (String.ofList_injective (Kind.identifier.inj h))
    obtain ⟨k, ⟨n, rfl⟩, hk⟩ := (Set.infinite_range_of_injective hinj).exists_notMem_finset
      before.toFinset
    exact ⟨_, _, rfl, by simpa using hk⟩
  | bareFunction => exact ⟨_, .inl rfl⟩
  | sumOperator => exact ⟨_, _, .plus⟩
  | productOperator => exact ⟨_, _, .star⟩
  | comparison => exact ⟨_, _, .equal⟩

/-- Items stand for some row of tokens, whatever is before it. -/
def Productive (items : List Item) : Prop :=
  ∀ before, ∃ w, Expands before items w

namespace Productive

protected theorem token (h : Productive items) : Productive (.token t :: items) := by
  intro before
  obtain ⟨k, hk⟩ := t.exists_accepts before
  obtain ⟨w, hw⟩ := h (before ++ [k])
  exact ⟨k :: w, .token hk hw⟩

theorem row {row : List Item} (hrow : row ∈ rules c) (h : Productive (row ++ items)) :
    Productive (.phrase c :: items) := by
  intro before
  obtain ⟨w, hw⟩ := h before
  exact ⟨w, .phrase hrow hw⟩

theorem ofNil (hnil : (rules c).head? = some []) (h : Productive items) :
    Productive (.phrase c :: items) :=
  row (mem_of_head? hnil) h

theorem factor (h : Productive items) : Productive (.phrase .factor :: items) :=
  row (mem_cons_self ..) h.token

theorem term (h : Productive items) : Productive (.phrase .term :: items) :=
  row (mem_cons_self ..) (factor (ofNil rfl h))

theorem expression (h : Productive items) : Productive (.phrase .expression :: items) :=
  row (mem_cons_self ..) (term (ofNil rfl h))

protected theorem phrase (h : Productive items) : Productive (.phrase c :: items) := by
  cases c with
  | program =>
    exact row (mem_cons_self ..)
      (ofNil rfl (ofNil rfl h.token.token.token).token).token
  | dimensions => exact row (mem_cons_self ..) (ofNil rfl h).token.token.token
  | names | designator => exact row (mem_cons_self ..) (ofNil rfl h).token
  | statement =>
    exact row (mem_cons_self ..)
      (row (mem_cons_self ..) (ofNil rfl (expression h).token).token).token
  | relation => exact row (mem_cons_self ..) (expression (expression h).token)
  | expression => exact expression h
  | term => exact term h
  | factor => exact factor h
  | call => exact row (mem_cons_self ..) (ofNil rfl h).token
  | arguments => exact row (mem_cons_self ..) h.token
  | _ => exact ofNil rfl h

end Productive

theorem productive (items : List Item) : Productive items := by
  induction items with
  | nil => exact fun _ => ⟨[], .done⟩
  | cons i items ih =>
    cases i with
    | token t => exact ih.token
    | phrase c => exact ih.phrase

/-! ## Reading a row -/

/-- What tokens are. -/
abbrev kindsOf (ts : List Token) : List Kind := ts.map (·.kind)

/-- Items do not start with a token that would go on with what stands before them. -/
def Avoids (goesOn : Kind → Bool) (items : List Item) : Prop :=
  ∀ before k w, goesOn k = true → ¬ Expands before items (k :: w)

/-- The tokens `us` are what `items` stand for when `rest` is behind them: what follows the items
can follow these tokens, and nothing else can that starts as `rest` does. None of the tokens ends
the text. -/
structure Taken (before : List Kind) (items : List Item) (goesOn : Kind → Bool)
    (us rest : List Token) :
    Prop where
  inner : ∀ u ∈ us, u.kind.isLast = false
  expands : ∀ {others w}, Expands (before ++ kindsOf us) others w → Expands before (items ++ others)
    (kindsOf us ++ w)
  only : ∀ {others w}, Avoids goesOn others →
    Expands before (items ++ others) (kindsOf us ++ (current rest).kind :: w) →
      Expands (before ++ kindsOf us) others ((current rest).kind :: w)

/-- The tokens `us` start what `items` stand for, but with the token behind them nothing goes on
so. -/
structure Stuck (before : List Kind) (items : List Item) (goesOn : Kind → Bool)
    (us rest : List Token) :
    Prop where
  inner : ∀ u ∈ us, u.kind.isLast = false
  expands : ∀ others, ∃ w, Expands before (items ++ others) (kindsOf us ++ w)
  stops : ∀ {others w}, Avoids goesOn others →
    ¬ Expands before (items ++ others) (kindsOf us ++ (current rest).kind :: w)

/-- An error is about the number of arguments of a call. -/
def SyntaxError.IsCount (e : SyntaxError) : Prop :=
  ∃ name takes given, e.fault = .argumentCount name takes given

section Reads

variable {α β : Type} {left : α → List Token} {left' : β → List Token}
  {goesOn goesOn' : Kind → Bool}
  {ts us vs rest : List Token} {u : Token} {p : Parse α} {q : α → Parse β} {items' row : List Item}
  {i : Item} {a : α} {e : SyntaxError}

/-- Reading stops only where the items do not go on. -/
def Stops (before : List Kind) (items : List Item) (goesOn : Kind → Bool) (ts : List Token)
    (p : Parse α) : Prop :=
  ∀ e, p = .error e → e.IsCount ∨
    ∃ us rest, ts = us ++ rest ∧ e.pos = (current rest).pos ∧ Stuck before items goesOn us rest

/-- Reading takes the tokens that the items stand for, up to those `left`, or stops where the items
do not go on. -/
structure Reads (left : α → List Token) (before : List Kind) (items : List Item)
    (goesOn : Kind → Bool) (ts : List Token) (p : Parse α) : Prop where
  stops : Stops before items goesOn ts p
  takes : ∀ a, p = .ok a → ∃ us, ts = us ++ left a ∧ Taken before items goesOn us (left a)

/-- The first of the tokens `us ++ rest`. -/
theorem exists_kinds_append (us rest : List Token) (w : List Kind) :
    ∃ w', kindsOf us ++ (current rest).kind :: w = (current (us ++ rest)).kind :: w' := by
  cases us with
  | nil => exact ⟨w, rfl⟩
  | cons u us => exact ⟨_, rfl⟩

theorem Taken.nil : Taken before [] goesOn [] rest where
  inner := by simp
  expands h := by simpa using h
  only _ h := by simpa using h

theorem Taken.append (h : Taken before items goesOn us (vs ++ rest))
    (h' : Taken (before ++ kindsOf us) items' goesOn' vs rest)
    (havoids : ∀ others, Avoids goesOn' others → Avoids goesOn (items' ++ others)) :
    Taken before (items ++ items') goesOn' (us ++ vs) rest where
  inner := forall_mem_append.mpr ⟨h.inner, h'.inner⟩
  expands {others w} hw := by
    rw [show before ++ kindsOf (us ++ vs) = before ++ kindsOf us ++ kindsOf vs by simp] at hw
    simpa using h.expands (h'.expands hw)
  only {others w} hothers hw := by
    -- what `items` leave starts with the first token of `vs ++ rest`, whether or not `vs` is empty
    obtain ⟨w', hw'⟩ := exists_kinds_append vs rest w
    have := h.only (w := w') (havoids _ hothers) (by simpa [← hw'] using hw)
    rw [← hw'] at this
    simpa using h'.only hothers this

theorem Taken.stuck (h : Taken before items goesOn us (vs ++ rest))
    (h' : Stuck (before ++ kindsOf us) items' goesOn' vs rest)
    (havoids : ∀ others, Avoids goesOn' others → Avoids goesOn (items' ++ others)) :
    Stuck before (items ++ items') goesOn' (us ++ vs) rest where
  inner := forall_mem_append.mpr ⟨h.inner, h'.inner⟩
  expands others := by
    obtain ⟨w, hw⟩ := h'.expands others
    exact ⟨w, by simpa using h.expands hw⟩
  stops {others w} hothers hw := by
    obtain ⟨w', hw'⟩ := exists_kinds_append vs rest w
    have := h.only (w := w') (havoids _ hothers) (by simpa [← hw'] using hw)
    rw [← hw'] at this
    exact h'.stops hothers this

theorem Stuck.append (h : Stuck before items goesOn us rest)
    (havoids : ∀ others, Avoids goesOn' others → Avoids goesOn (items' ++ others)) :
    Stuck before (items ++ items') goesOn' us rest where
  inner := h.inner
  expands others := by simpa using h.expands (items' ++ others)
  stops hothers := by simpa using h.stops (havoids _ hothers)

theorem Stops.bind (hp : Reads left before [i] goesOn ts p)
    (hq : ∀ a us, p = .ok a → ts = us ++ left a →
      Stops (before ++ kindsOf us) items goesOn' (left a) (q a))
    (havoids : ∀ others, Avoids goesOn' others → Avoids goesOn (items ++ others)) :
    Stops before (i :: items) goesOn' ts (p >>= q) := by
  intro e he
  cases p with
  | error e' =>
    cases he
    refine (hp.stops e rfl).imp_right ?_
    rintro ⟨us, rest, hts, hpos, h⟩
    exact ⟨us, rest, hts, hpos, h.append havoids⟩
  | ok a =>
    obtain ⟨us, hts, h⟩ := hp.takes a rfl
    refine (hq a us rfl hts e he).imp_right ?_
    rintro ⟨vs, rest, hleft, hpos, h'⟩
    exact ⟨us ++ vs, rest, by rw [hts, hleft, append_assoc], hpos, (hleft ▸ h).stuck h' havoids⟩

theorem Reads.bind (hp : Reads left before [i] goesOn ts p)
    (hq : ∀ a us, p = .ok a → ts = us ++ left a →
      Reads left' (before ++ kindsOf us) items goesOn' (left a) (q a))
    (havoids : ∀ others, Avoids goesOn' others → Avoids goesOn (items ++ others)) :
    Reads left' before (i :: items) goesOn' ts (p >>= q) where
  stops := .bind hp (fun a us ha hts => (hq a us ha hts).stops) havoids
  takes b hb := by
    cases p with
    | error e => cases hb
    | ok a =>
      obtain ⟨us, hts, h⟩ := hp.takes a rfl
      obtain ⟨vs, hleft, h'⟩ := (hq a us rfl hts).takes b hb
      exact ⟨us ++ vs, by rw [hts, hleft, append_assoc], (hleft ▸ h).append h' havoids⟩

theorem Reads.mono (h : Reads left before items goesOn ts p)
    (himp : ∀ k, goesOn k = true → goesOn' k = true) : Reads left before items goesOn' ts p where
  stops e he := by
    refine (h.stops e he).imp_right ?_
    rintro ⟨us, rest, hts, hpos, h⟩
    exact ⟨us, rest, hts, hpos, h.inner, h.expands, fun hothers => h.stops fun before k w hk =>
      hothers before k w (himp k hk)⟩
  takes a ha := by
    obtain ⟨us, hts, h⟩ := h.takes a ha
    exact ⟨us, hts, h.inner, h.expands, fun hothers => h.only fun before k w hk =>
      hothers before k w (himp k hk)⟩

/-- A check behind what is read, which only the number of arguments fails. -/
theorem Reads.check (hp : Reads left before items goesOn ts p)
    (hq : ∀ a, (∃ b, q a = .ok b ∧ left' b = left a) ∨ ∃ e, q a = .error e ∧ e.IsCount) :
    Reads left' before items goesOn ts (p >>= q) := by
  cases p with
  | error e => exact ⟨fun e' he => hp.stops e' (by cases he; rfl), fun b hb => by cases hb⟩
  | ok a =>
    rcases hq a with ⟨b, hb, hleft⟩ | ⟨e, he, hcount⟩
    · refine ⟨fun e he => (by cases hb.symm.trans he), fun b' hb' => ?_⟩
      cases hb.symm.trans hb'
      exact hleft ▸ hp.takes a rfl
    · refine ⟨fun e' he' => ?_, fun b hb => by cases he.symm.trans hb⟩
      cases he.symm.trans he'
      exact .inl hcount

theorem Reads.map (hp : Reads left before items goesOn ts p)
    (hq : ∀ a, ∃ b, q a = .ok b ∧ left' b = left a) : Reads left' before items goesOn
    ts (p >>= q) :=
  hp.check fun a => .inl (hq a)

theorem Reads.ofValue (ha : p = .ok a) (h : Reads left' before items goesOn ts (q a)) :
    Reads left' before items goesOn ts (p >>= q) :=
  ha ▸ h

theorem Reads.pure (hts : left a = ts) : Reads left before [] goesOn ts (.ok a) where
  stops _ he := by cases he
  takes _ ha := by
    cases ha
    exact ⟨[], hts.symm, .nil⟩

/-- Nothing the items stand for starts with the next token. -/
theorem Stops.stuck (hpos : e.pos = (current ts).pos)
    (h : ∀ others w, Avoids goesOn others → ¬ Expands before (items ++ others)
      ((current ts).kind :: w)) :
    Stops before items goesOn ts (.error e : Parse α) := by
  intro _ he
  cases he
  exact .inr ⟨[], ts, rfl, hpos, by simp, fun others => productive _ _, h _ _⟩

theorem Reads.stuck (hpos : e.pos = (current ts).pos)
    (h : ∀ others w, Avoids goesOn others → ¬ Expands before (items ++ others)
      ((current ts).kind :: w)) :
    Reads left before items goesOn ts (.error e) :=
  ⟨.stuck hpos h, fun _ he => by cases he⟩

/-- The next token is the first item. -/
theorem Reads.cons (ht : t.Accepts before u.kind) (hlast : u.kind.isLast = false)
    (h : Reads left (before ++ [u.kind]) items goesOn rest p) :
    Reads left before (.token t :: items) goesOn (u :: rest) p := by
  have hu : Taken before [.token t] (fun _ => false) [u] rest :=
    { inner := by simpa using hlast
      expands := fun hw => .token ht hw
      only := fun _ hw => (expands_token.mp hw).2 }
  have havoids : ∀ others, Avoids goesOn others → Avoids (fun _ => false) (items ++ others) :=
    fun _ _ _ _ _ hk => by cases hk
  refine ⟨fun e he => (h.stops e he).imp_right ?_, fun a ha => ?_⟩
  · rintro ⟨us, rest', rfl, hpos, hstuck⟩
    exact ⟨u :: us, rest', rfl, hpos, hu.stuck hstuck havoids⟩
  · obtain ⟨us, hrest, htaken⟩ := h.takes a ha
    exact ⟨u :: us, by rw [hrest, cons_append], (hrest ▸ hu).append htaken havoids⟩

/-- The next token decides which row is read. -/
theorem Stops.ofRow (j : Nat) (hrow : (rules c)[j]? = some row)
    (honly : ∀ others w, Avoids goesOn others →
      Expands before (.phrase c :: (items ++ others)) ((current ts).kind :: w) →
        Expands before (row ++ (items ++ others)) ((current ts).kind :: w))
    (h : Stops before (row ++ items) goesOn ts p) : Stops before (.phrase c :: items)
    goesOn ts p := by
  refine fun e he => (h e he).imp_right ?_
  rintro ⟨us, rest, rfl, hpos, hstuck⟩
  refine ⟨us, rest, rfl, hpos, hstuck.inner, fun others => ?_, fun {others w} hothers hw => ?_⟩
  · obtain ⟨w, hw⟩ := hstuck.expands others
    exact ⟨w, .phrase (mem_of_getElem? hrow) (by simpa using hw)⟩
  · obtain ⟨w', hw'⟩ := exists_kinds_append us rest w
    refine hstuck.stops (w := w) hothers ?_
    rw [hw'] at hw ⊢
    simpa using honly others w' hothers hw

theorem Reads.ofRow (j : Nat) (hrow : (rules c)[j]? = some row)
    (honly : ∀ others w, Avoids goesOn others →
      Expands before (.phrase c :: (items ++ others)) ((current ts).kind :: w) →
        Expands before (row ++ (items ++ others)) ((current ts).kind :: w))
    (h : Reads left before (row ++ items) goesOn ts p) :
    Reads left before (.phrase c :: items) goesOn ts p := by
  refine ⟨h.stops.ofRow j hrow honly, fun a ha => ?_⟩
  obtain ⟨us, hts, htaken⟩ := h.takes a ha
  refine ⟨us, hts, htaken.inner,
    fun hw => .phrase (mem_of_getElem? hrow) (by simpa using htaken.expands hw),
    fun {others w} hothers hw => htaken.only hothers ?_⟩
  obtain ⟨w', hw'⟩ := exists_kinds_append us (left a) w
  rw [hw', ← hts] at hw ⊢
  simpa using honly others w' hothers hw

/-- A phrase with one row is read as that row is. -/
theorem Reads.single (hrow : rules c = [row]) (h : Reads left before (row ++ items) goesOn ts p) :
    Reads left before (.phrase c :: items) goesOn ts p := by
  refine h.ofRow 0 (by rw [hrow]; rfl) fun others w _ hw => ?_
  simpa [expands_phrase, hrow] using hw

/-- Nothing is read, as the next token starts no other row of the phrase. -/
theorem Reads.ofNil (hnil : (rules c).head? = some []) (hts : left a = ts)
    (honly : ∀ others w, Avoids goesOn others → Expands before (.phrase c :: others)
      ((current ts).kind :: w) → Expands before others ((current ts).kind :: w)) :
    Reads left before [.phrase c] goesOn ts (.ok a) :=
  .ofRow 0 (show (rules c)[0]? = some [] from head?_eq_getElem? ▸ hnil) honly (.pure hts)

theorem avoids_false (items : List Item) : Avoids (fun _ => false) items :=
  fun _ _ _ hk => by cases hk

theorem avoids_token (h : ∀ before k, t.Accepts before k → goesOn k = false) :
    Avoids goesOn (.token t :: items) := by
  intro before k w hk hw
  rw [h before k (expands_token.mp hw).1] at hk
  cases hk

theorem avoids_exactly (h : goesOn k = false) : Avoids goesOn (.token (.exactly k) :: items) :=
  avoids_token fun _ _ hk => hk ▸ h

/-- A phrase that may be nothing, in front of items. -/
theorem avoids_optional (hrules : rules c = [[], .token t :: row])
    (hothers : Avoids goesOn' items) (himp : ∀ k, goesOn k = true → goesOn' k = true)
    (h : ∀ before k, t.Accepts before k → goesOn k = false) :
    Avoids goesOn (.phrase c :: items) := by
  intro before k w hk hw
  obtain ⟨row', hrow', hw⟩ := expands_phrase.mp hw
  simp only [hrules, mem_cons, not_mem_nil, or_false] at hrow'
  rcases hrow' with rfl | rfl
  · exact hothers before k w (himp k hk) hw
  · exact avoids_token h before k w hk hw

/-- Reads a phrase that a token follows, and then the rest of a row. -/
theorem Reads.upTo (hp : Reads left before [i] goesOn ts p) (hk : goesOn k = false)
    (hq : ∀ a before, Reads left' before (.token (.exactly k) :: items) goesOn' (left a) (q a)) :
    Reads left' before (i :: .token (.exactly k) :: items) goesOn' ts (p >>= q) :=
  hp.bind (fun a _ _ _ => hq a _) fun _ _ => avoids_exactly hk

end Reads

section Tokens

variable {ts : List Token} {goesOn : Kind → Bool}

theorem pos_at (u : Token) (fault : SyntaxFault) : (SyntaxError.at u fault).pos = u.pos := by
  unfold SyntaxError.at
  split <;> rfl

theorem kind_current_ne (hk : k.isLast = false) (h : ∀ p rest, ts = ⟨k, p⟩ :: rest → False) :
    (current ts).kind ≠ k := by
  rintro rfl
  cases ts with
  | nil => cases hk
  | cons u rest => exact h u.pos rest rfl

theorem reads_consume (context : Option String) (hk : k.isLast = false) :
    Reads Read.rest before [.token (.exactly k)] goesOn ts (consumeAfter context ts k) := by
  cases ts with
  | nil =>
    refine .stuck (pos_at _ _) fun others w _ hw => ?_
    cases (expands_token.mp hw).1
    cases hk
  | cons u rest =>
    rw [consumeAfter]
    split
    · rename_i hu
      exact .cons hu (hu ▸ hk) (.pure rfl)
    · rename_i hu
      exact .stuck (pos_at _ _) fun others w _ hw => hu (expands_token.mp hw).1

theorem eq_singleton_of_consume {us : List Token} {context : Option String} {r : Read ts Position}
    (hr : consumeAfter context ts k = .ok r) (hts : ts = us ++ r.rest) : us = [⟨k, r.value⟩] :=
  append_cancel_right (hts.symm.trans (show ts = [_] ++ r.rest from
    (outcome_consumeAfter context ts k).mp (congrArg Read.outcome hr)))

/-- Reads a token, and then the rest of a row. -/
theorem Reads.consume {α : Type} {left : α → List Token} {context : Option String}
    {q : Read ts Position → Parse α} (hk : k.isLast = false)
    (hq : ∀ r, Reads left (before ++ [k]) items goesOn r.rest (q r)) :
    Reads left before (.token (.exactly k) :: items) goesOn ts
      (consumeAfter context ts k >>= q) := by
  refine (reads_consume context hk).bind (fun r us hr hts => ?_) fun _ _ => avoids_false _
  rw [eq_singleton_of_consume hr hts]
  exact hq r

/-- Either the next token is a name, and it is read, or reading stops there. -/
theorem identifier_cases (ts : List Token) :
    (∃ s pos rest h, ts = ⟨.identifier s, pos⟩ :: rest ∧ identifier ts = .ok ⟨(s, pos), rest, h⟩) ∨
    (∃ e, identifier ts = .error e ∧ e.pos = (current ts).pos ∧ ∀ s,
      (current ts).kind ≠ .identifier s) := by
  unfold identifier
  split
  · exact .inl ⟨_, _, _, Nat.lt_succ_self _, rfl, rfl⟩
  · exact .inr ⟨_, rfl, pos_at _ _, fun s h => by cases h⟩
  · rename_i h₁ h₂
    refine .inr ⟨_, rfl, pos_at _ _, fun s h => ?_⟩
    cases ts with
    | nil => cases h
    | cons u rest =>
      obtain ⟨k, p⟩ := u
      cases h
      exact h₁ _ _ _ rfl

theorem reads_name : Reads Read.rest before [.token .name] goesOn ts (identifier ts) := by
  rcases identifier_cases ts with ⟨s, pos, rest, h, rfl, heq⟩ | ⟨e, heq, hpos, hne⟩
  · rw [heq]
    exact .cons ⟨s, rfl⟩ rfl (.pure rfl)
  · rw [heq]
    refine .stuck hpos fun others w _ hw => ?_
    obtain ⟨s, hs⟩ := (expands_token.mp hw).1
    exact hne s hs

/-- Either the next token denotes a number, and it is read, or reading stops there. -/
theorem number_cases (ts : List Token) :
    (∃ digits n pos rest h, ts = ⟨.number digits, pos⟩ :: rest ∧ Denotes digits n ∧
      number ts = .ok ⟨(n, pos), rest, h⟩) ∨
    (∃ e, number ts = .error e ∧ e.pos = (current ts).pos ∧
      ∀ digits n, Denotes digits n → (current ts).kind ≠ .number digits) := by
  unfold number
  split
  · rename_i digits pos rest
    split
    · rename_i n hn
      exact .inl ⟨_, n, _, _, Nat.lt_succ_self _, rfl, numberOfText?_eq_some.mp hn, rfl⟩
    · rename_i hn
      refine .inr ⟨_, rfl, rfl, fun digits' n h heq => ?_⟩
      cases heq
      rw [numberOfText?_eq_some.mpr h] at hn
      cases hn
  · rename_i h₁
    refine .inr ⟨_, rfl, pos_at _ _, fun digits n _ h => ?_⟩
    cases ts with
    | nil => cases h
    | cons u rest =>
      obtain ⟨k, p⟩ := u
      cases h
      exact h₁ _ _ _ rfl

end Tokens

end SingleAssignment.Source
