import Mathlib.Data.List.Basic
import SingleAssignment.Source.Lexer

/-!
# Tokens and their text

A text is cut into gaps and tokens: in front of each token there is a gap of blanks and comments,
and the token is the longest that starts behind it (`Splits`). Each token has the position of its
first character, and the list ends where the text does, or at the first character that no token
starts with (`splits_tokenize`).

Conversely, tokens that are written with blanks or comments between them are read again as they were
(`kinds_tokenize_written`).
-/

namespace SingleAssignment

open List

/-! ## Characters -/

namespace Text

/-- No code point is in both of two lists of ranges, each in increasing order; `fuel` bounds the
comparisons. -/
def apart : Nat → List (Nat × Nat) → List (Nat × Nat) → Bool
  | _, [], _ | _, _, [] => true
  | 0, _, _ => false
  | fuel + 1, (a, b) :: as, (c, d) :: cs =>
    if b < c then apart fuel as ((c, d) :: cs) else if d < a then apart fuel ((a, b) :: as) cs else
        false

theorem inRanges_of_apart (fuel : Nat) {as cs : List (Nat × Nat)} {n : Nat}
    (h : apart fuel as cs = true) (hn : inRanges as n = true) : inRanges cs n = false := by
  induction fuel, as, cs using apart.induct with
  | case1 => cases hn
  | case2 => rfl
  | case3 as cs has hcs => simp_all [apart]
  | case4 fuel a b as c d cs hlt ih =>
    rw [apart, if_pos hlt] at h
    unfold inRanges at hn
    split_ifs at hn with ha hb
    · rw [inRanges, if_pos (by omega)]
    · exact ih h hn
  | case5 fuel a b as c d cs hnot hlt ih =>
    rw [apart, if_neg hnot, if_pos hlt] at h
    have ha : ¬ n < a := fun ha => by rw [inRanges, if_pos ha] at hn; cases hn
    rw [inRanges, if_neg (show ¬ n ≤ d by omega), ih h hn, ite_self]
  | case6 fuel a b as c d cs hnot hnot' =>
    rw [apart, if_neg hnot, if_neg hnot'] at h
    cases h

theorem isDigit_of_isLetter {c : Char} (h : isLetter c = true) : isDigit c = false :=
  inRanges_of_apart 800 (by decide +kernel) h

theorem isLetter_of_isBlank {c : Char} (h : isBlank c = true) : isLetter c = false :=
  inRanges_of_apart 800 (by decide +kernel) h

theorem isDigit_of_isBlank {c : Char} (h : isBlank c = true) : isDigit c = false :=
  inRanges_of_apart 800 (by decide +kernel) h

end Text

namespace Source

/-! ## What a text is made of -/

/-- The position behind a text: its line is one more than there are line ends, and its column one
more than there are characters behind the last of them. -/
def Position.behind (cs : List Char) : Position :=
  ⟨1 + (cs.count '\n' : Nat), 1 + ((cs.reverse.takeWhile (· != '\n')).length : Nat)⟩

/-- A gap starts here: a blank or a comment. -/
def StartsGap (cs : List Char) : Prop :=
  (∃ c ∈ cs.head?, Text.isBlank c = true) ∨ ['/', '/'] <+: cs

/-- A row of blanks and comments up to where no other starts. A comment runs to the end of its line
or of the text. -/
inductive IsGap : List Char → List Char → Prop
  | nil {rest : List Char} (hstop : ¬ StartsGap rest) : IsGap [] rest
  | blank {c : Char} {g rest : List Char} (hc : Text.isBlank c = true) (others : IsGap g rest) :
      IsGap (c :: g) rest
  | comment {text g rest : List Char} (htext : '\n' ∉ text)
      (hend : ∀ c ∈ (g ++ rest).head?, c = '\n') (others : IsGap g rest) :
      IsGap ('/' :: '/' :: (text ++ g)) rest

namespace Token.Kind

/-- A token that is written down: a keyword, an operator or delimiter, a row of digits, or a letter
followed by letters and digits that is no keyword. -/
def IsWritten : Kind → Prop
  | keyword _ | symbol _ => True
  | number digits => digits ≠ "" ∧ ∀ c ∈ digits.toList, Text.isDigit c = true
  | identifier name =>
    (∃ c cs, name.toList = c :: cs ∧ Text.isLetter c = true ∧ ∀ d ∈ cs, isNamePart d = true) ∧
    ∀ k : Keyword, name ≠ k.spelling
  | endOfText | fault _ => False

/-- A number or a word would go on with this character. -/
def goesOnWith : Kind → Char → Bool
  | number _ => Text.isDigit
  | identifier _ | keyword _ => isNamePart
  | _ => fun _ => false

end Token.Kind

/-- The tokens of a text behind another one. -/
inductive Splits : List Char → List Char → List Token → Prop
  | endOfText {before g : List Char} (gap : IsGap g []) :
      Splits before g [⟨.endOfText, .behind (before ++ g)⟩]
  /-- There is a fault only where no token starts: no letter, no digit, no operator and no
  delimiter. -/
  | fault {before g rest : List Char} {c : Char} {f : LexicalFault} (gap : IsGap g (c :: rest))
      (hword : isNamePart c = false) (hsymbol : ∀ s : Symbol, ¬ s.spelling.toList <+: c :: rest) :
      Splits before (g ++ c :: rest) [⟨.fault f, .behind (before ++ g)⟩]
  /-- A number or a word does not go on behind its token, and an operator of two characters is never
  cut. -/
  | token {before g rest : List Char} {k : Token.Kind} {ts : List Token}
      (gap : IsGap g (k.lexeme.toList ++ rest)) (hk : k.IsWritten)
      (hlongest : ∀ c ∈ rest.head?, k.goesOnWith c = false)
      (hpair : ∀ s : Symbol, s.spelling.toList.length = 2 →
        s.spelling.toList <+: k.lexeme.toList ++ rest → k = .symbol s)
      (others : Splits (before ++ (g ++ k.lexeme.toList)) rest ts) :
      Splits before (g ++ (k.lexeme.toList ++ rest)) (⟨k, .behind (before ++ g)⟩ :: ts)

/-! ## Positions -/

namespace Position

theorem behind_newline (cs : List Char) : behind (cs ++ ['\n']) = (behind cs).nextLine := by
  simp [behind, nextLine]
  omega

theorem behind_append (cs : List Char) {l : List Char} (hl : '\n' ∉ l) :
    behind (cs ++ l) = { behind cs with column := (behind cs).column + l.length } := by
  have hall : ∀ c ∈ l.reverse, (c != '\n') = true := by
    intro c hc
    have hne : c ≠ '\n' := fun he => hl (he ▸ mem_reverse.mp hc)
    simpa using hne
  simp only [behind, count_append, count_eq_zero.mpr hl, reverse_append,
    takeWhile_append_of_pos hall, length_append, length_reverse, Nat.add_zero, mk.injEq, true_and]
  omega

theorem behind_right (cs : List Char) {c : Char} (hc : c ≠ '\n') :
    behind (cs ++ [c]) = (behind cs).right := by
  rw [behind_append cs (by simpa using Ne.symm hc)]
  rfl

end Position

/-! ## Gaps -/

/-- What is skipped where a comment is open, or not. -/
def IsSkipped : Bool → List Char → List Char → Prop
  | false, g, rest => IsGap g rest
  | true, g, rest =>
    ∃ text g', g = text ++ g' ∧ '\n' ∉ text ∧ (∀ c ∈ (g' ++ rest).head?, c = '\n') ∧
    IsGap g' rest

theorem isGap_nil : IsGap [] [] :=
  .nil (by simp [StartsGap])

namespace Cursor

/-- What is skipped is a gap. -/
theorem skipGap_eq (inComment : Bool) (before cs : List Char) : ∃ g rest, cs = g ++ rest ∧
    skipGap inComment cs (.behind before) = ⟨rest, .behind (before ++ g)⟩ ∧
      IsSkipped inComment g rest := by
  induction cs generalizing inComment before with
  | nil =>
    refine ⟨[], [], rfl, by simp [skipGap], ?_⟩
    cases inComment with
    | false => exact isGap_nil
    | true => exact ⟨[], [], rfl, not_mem_nil, by simp, isGap_nil⟩
  | cons c cs ih =>
    unfold skipGap
    split_ifs with hline hopen hblank hslash
    · obtain rfl : c = '\n' := by simpa using hline
      obtain ⟨g, rest, rfl, heq, hgap⟩ := ih false (before ++ ['\n'])
      have hgap : IsGap ('\n' :: g) rest := .blank (by decide) hgap
      rw [← Position.behind_newline, heq]
      refine ⟨'\n' :: g, rest, rfl, by simp, ?_⟩
      cases inComment with
      | false => exact hgap
      | true => exact ⟨[], _, rfl, not_mem_nil, by simp, hgap⟩
    · obtain rfl : inComment = true := hopen
      have hne : c ≠ '\n' := by simpa using hline
      obtain ⟨g, rest, rfl, heq, text, g', rfl, htext, hend, hgap⟩ := ih true (before ++ [c])
      rw [← Position.behind_right before hne, heq]
      exact ⟨c :: (text ++ g'), rest,
        rfl, by simp, c :: text, g', rfl, by simp [Ne.symm hne, htext], hend, hgap⟩
    · obtain rfl : inComment = false := by simpa using hopen
      obtain ⟨g, rest, rfl, heq, hgap⟩ := ih false (before ++ [c])
      rw [← Position.behind_right before (by simpa using hline), heq]
      exact ⟨c :: g, rest, rfl, by simp, .blank hblank hgap⟩
    · obtain rfl : inComment = false := by simpa using hopen
      obtain ⟨rfl, hnext⟩ : c = '/' ∧ cs.head? = some '/' := by simpa using hslash
      obtain ⟨g, rest, rfl, heq, text, g', rfl, htext, hend, hgap⟩ := ih true (before ++ ['/'])
      rw [← Position.behind_right before (c := '/') (by decide), heq]
      refine ⟨'/' :: (text ++ g'), rest, rfl, by simp, ?_⟩
      -- the second slash is no line end, so it is part of the comment
      rcases text with _ | ⟨t, text⟩
      · cases hend '/' hnext
      · obtain rfl : t = '/' := by simpa using hnext
        exact .comment (fun h => htext (mem_cons_of_mem _ h)) hend hgap
    · obtain rfl : inComment = false := by simpa using hopen
      refine ⟨[], c :: cs, rfl, by simp, .nil ?_⟩
      rintro (⟨d, hd, hd'⟩ | ⟨rest, hrest⟩)
      · cases hd
        exact hblank hd'
      · cases hrest
        exact hslash (by simp)

theorem skipGap_of_not_startsGap {rest : List Char} (h : ¬ StartsGap rest) (p : Position) :
    skipGap false rest p = ⟨rest, p⟩ := by
  rcases rest with _ | ⟨c, cs⟩
  · rfl
  · have hblank : Text.isBlank c ≠ true := fun hc => h (.inl ⟨c, rfl, hc⟩)
    have hslash : ¬ (c == '/' && cs.head? == some '/') = true := by
      intro hs
      obtain ⟨rfl, hnext⟩ : c = '/' ∧ cs.head? = some '/' := by simpa using hs
      obtain ⟨cs', rfl⟩ := head?_eq_some_iff.mp hnext
      exact h (.inr ⟨cs', rfl⟩)
    have hline : ¬ (c == '\n') = true := by
      intro hc
      obtain rfl : c = '\n' := by simpa using hc
      exact hblank (by decide)
    rw [skipGap, if_neg hline, if_neg (by simp), if_neg hblank, if_neg hslash]

theorem skipGap_comment {text cs : List Char} (htext : '\n' ∉ text)
    (hend : ∀ c ∈ cs.head?, c = '\n') (p : Position) : ∃ q, skipGap true (text ++ cs) p = skipGap
    false cs q := by
  induction text generalizing p with
  | nil =>
    refine ⟨p, ?_⟩
    rcases cs with _ | ⟨c, cs⟩
    · rfl
    · obtain rfl := hend c rfl
      rfl
  | cons c text ih =>
    have hne : ¬ (c == '\n') = true := by
      intro hc
      exact htext (by simp [eq_of_beq hc])
    rw [cons_append, skipGap, if_neg hne, if_pos rfl]
    exact ih (fun h => htext (mem_cons_of_mem _ h)) p.right

/-- A gap is skipped. -/
theorem skipGap_of_isGap {g rest : List Char} (h : IsGap g rest) (p : Position) :
    ∃ q, skipGap false (g ++ rest) p = ⟨rest, q⟩ := by
  induction h generalizing p with
  | nil hstop => exact ⟨p, skipGap_of_not_startsGap hstop p⟩
  | @blank c g rest hc _ ih =>
    rw [cons_append, skipGap]
    by_cases hline : (c == '\n') = true
    · rw [if_pos hline]
      exact ih _
    · rw [if_neg hline, if_neg (by simp), if_pos hc]
      exact ih _
  | @comment text g rest htext hend _ ih =>
    obtain ⟨q, hq⟩ := skipGap_comment htext hend p.right.right
    obtain ⟨q', hq'⟩ := ih q
    refine ⟨q', ?_⟩
    rw [← hq', ← hq, ← append_assoc]
    rfl

end Cursor

/-! ## Tokens -/

theorem isNamePart_of_isLetter {c : Char} (h : Text.isLetter c = true) : isNamePart c = true := by
  rw [isNamePart, h, Bool.true_or]

theorem isNamePart_of_isBlank {c : Char} (h : Text.isBlank c = true) : isNamePart c = false := by
  rw [isNamePart, Text.isLetter_of_isBlank h, Text.isDigit_of_isBlank h, Bool.or_false]

theorem symbolAt_of_isNamePart {c : Char} (h : isNamePart c = true) (cs : List Char) :
    symbolAt c cs = none := by
  unfold symbolAt
  split
  all_goals first | rfl | cases h

theorem isLetter_spelling (k : Keyword) : ∀ c ∈ k.spelling.toList, Text.isLetter c = true :=
  all_eq_true.mp (by cases k <;> decide)

theorem ofSpelling?_spelling (k : Keyword) : Keyword.ofSpelling? k.spelling = some k := by
  cases k <;> decide

/-- A keyword is a word like any other. -/
theorem exists_spelling (k : Keyword) : ∃ c cs, k.spelling.toList = c :: cs ∧
    Text.isLetter c = true ∧ ∀ d ∈ cs, isNamePart d = true := by
  have h := isLetter_spelling k
  have hne : k.spelling.toList ≠ [] := by cases k <;> decide
  obtain ⟨c, cs, hcs⟩ := exists_cons_of_ne_nil hne
  rw [hcs] at h
  exact ⟨c, cs, hcs, h c (mem_cons_self ..),
    fun d hd => isNamePart_of_isLetter (h d (mem_cons_of_mem _ hd))⟩

theorem wordKind_eq (word : String) :
    (∃ k : Keyword, word = k.spelling ∧ wordKind word = .keyword k) ∨
    (∀ k : Keyword, word ≠ k.spelling) ∧ wordKind word = .identifier word := by
  unfold wordKind
  split
  · rename_i k hk
    have hword : k.spelling = word := by simpa using find?_some hk
    exact .inl ⟨k, hword.symm, rfl⟩
  · rename_i hnone
    refine .inr ⟨fun k hk => ?_, rfl⟩
    rw [hk, ofSpelling?_spelling] at hnone
    cases hnone

theorem length_spelling_le (s : Symbol) : s.spelling.toList.length ≤ 2 := by
  cases s <;> decide

theorem symbolAt_eq_some {c : Char} {cs : List Char} {k : Token.Kind} {n : Nat}
    (h : symbolAt c cs = some (k, n)) :
    (∃ f, k = .fault f) ∨
      ∃ s rest, k = .symbol s ∧ n = s.spelling.toList.length ∧ c :: cs = s.spelling.toList ++
        rest := by
  unfold symbolAt at h
  split at h <;> cases h <;> first | exact .inl ⟨_, rfl⟩ | exact .inr ⟨_, _, rfl, rfl, rfl⟩

/-- A symbol is read that does not go on as another one. -/
theorem symbolAt_spelling (s : Symbol) {c : Char} {cs rest : List Char}
    (h : c :: cs = s.spelling.toList ++ rest) (hlongest : ∀ d ∈ rest.head?, ∀ s' : Symbol,
      s'.spelling.toList ≠ s.spelling.toList ++ [d]) :
    symbolAt c cs = some (.symbol s, s.spelling.toList.length) := by
  have hrest : ∀ (d : Char) (s' : Symbol), s'.spelling.toList = s.spelling.toList ++ [d] →
      ∀ cs', rest = d :: cs' → False :=
    fun d s' hs' cs' hcs' => hlongest d (by rw [hcs']; rfl) s' hs'
  cases s with
  | less =>
    obtain ⟨rfl, rfl⟩ : c = '<' ∧ cs = rest := by simpa [Symbol.spelling] using h
    rw [symbolAt]
    · rfl
    · exact hrest '=' .lessEqual rfl
    · exact hrest '-' .becomes rfl
  | greater =>
    obtain ⟨rfl, rfl⟩ : c = '>' ∧ cs = rest := by simpa [Symbol.spelling] using h
    rw [symbolAt]
    · rfl
    · exact hrest '=' .greaterEqual rfl
  | _ => cases h; rfl

theorem symbolAt_pair (s : Symbol) (hs : s.spelling.toList.length = 2) {c : Char} {cs : List Char}
    (h : s.spelling.toList <+: c :: cs) : symbolAt c cs = some (.symbol s, 2) := by
  obtain ⟨rest, hrest⟩ := h
  rw [← hs]
  refine symbolAt_spelling s hrest.symm fun d _ s' hs' => ?_
  have hlen := length_spelling_le s'
  rw [hs', length_append, hs, length_singleton] at hlen
  exact absurd hlen (by decide)

theorem exists_symbolAt (s : Symbol) {c : Char} {cs : List Char}
    (h : s.spelling.toList <+: c :: cs) : ∃ s' n, symbolAt c cs = some (.symbol s', n) := by
  obtain ⟨rest, hrest⟩ := h
  by_cases hlongest : ∀ d ∈ rest.head?, ∀ s' : Symbol, s'.spelling.toList ≠ s.spelling.toList ++ [d]
  · exact ⟨s, _, symbolAt_spelling s hrest.symm hlongest⟩
  · push Not at hlongest
    obtain ⟨d, hd, s', hs'⟩ := hlongest
    obtain ⟨rest', rfl⟩ := head?_eq_some_iff.mp hd
    have hpos : 0 < s.spelling.toList.length := by cases s <;> decide
    have hlen := length_spelling_le s'
    rw [hs', length_append, length_singleton] at hlen
    refine ⟨s', 2, symbolAt_pair s' ?_ ⟨rest', ?_⟩⟩
    · rw [hs', length_append, length_singleton]
      omega
    · rw [hs', ← hrest, append_assoc, singleton_append]

theorem takeWhile_eq {p : Char → Bool} {cs rest : List Char} (hcs : ∀ d ∈ cs, p d = true)
    (hrest : ∀ d ∈ rest.head?, p d = false) : (cs ++ rest).takeWhile p = cs := by
  rw [takeWhile_append_of_pos hcs]
  rcases rest with _ | ⟨d, rest⟩
  · simp
  · rw [takeWhile_cons, hrest d rfl]
    simp

theorem tokenAt_word {c : Char} {cs rest : List Char} (hc : Text.isLetter c = true)
    (hcs : ∀ d ∈ cs, isNamePart d = true) (hrest : ∀ d ∈ rest.head?, isNamePart d = false) :
    tokenAt c (cs ++ rest) = (wordKind (String.ofList (c :: cs)), cs.length + 1) := by
  rw [tokenAt, symbolAt_of_isNamePart (isNamePart_of_isLetter hc)]
  simp only [Text.isDigit_of_isLetter hc, hc, takeWhile_eq hcs hrest, Bool.false_eq_true,
    if_false, if_true]

theorem tokenAt_number {c : Char} {cs rest : List Char} (hcs : ∀ d ∈ c :: cs, Text.isDigit d = true)
    (hrest : ∀ d ∈ rest.head?, Text.isDigit d = false) :
    tokenAt c (cs ++ rest) = (.number (String.ofList (c :: cs)), cs.length + 1) := by
  have hc := hcs c (mem_cons_self ..)
  rw [tokenAt, symbolAt_of_isNamePart (by rw [isNamePart, hc, Bool.or_true])]
  simp only [hc, takeWhile_eq (fun d hd => hcs d (mem_cons_of_mem _ hd)) hrest, if_true]

theorem exists_run (p : Char → Bool) (cs : List Char) :
    ∃ run rest, cs = run ++ rest ∧ (∀ d ∈ run, p d = true) ∧ ∀ d ∈ rest.head?, p d = false := by
  induction cs with
  | nil => exact ⟨[], [], rfl, by simp, by simp⟩
  | cons c cs ih =>
    by_cases hc : p c = true
    · obtain ⟨run, rest, rfl, hrun, hrest⟩ := ih
      exact ⟨c :: run, rest, rfl, forall_mem_cons.mpr ⟨hc, hrun⟩, hrest⟩
    · exact ⟨[], c :: cs, rfl, by simp, by simpa using hc⟩

theorem tokenAt_of_symbolAt {c : Char} {cs : List Char} {found : Token.Kind × Nat}
    (h : symbolAt c cs = some found) : tokenAt c cs = found := by
  rw [tokenAt, h]

/-- What is read is a fault where no token starts, or else the longest token that starts there. -/
theorem tokenAt_cases (c : Char) (cs : List Char) :
    (∃ f n, tokenAt c cs = (.fault f, n) ∧ isNamePart c = false ∧ ∀ s : Symbol, ¬ s.spelling.toList
      <+: c :: cs) ∨ ∃ k rest, tokenAt c cs = (k, k.lexeme.toList.length) ∧
        c :: cs = k.lexeme.toList ++ rest ∧ k.IsWritten ∧ ∀ d ∈ rest.head?,
          k.goesOnWith d = false := by
  cases hsym : symbolAt c cs with
  | some found =>
    have htoken := tokenAt_of_symbolAt hsym
    obtain ⟨k, n⟩ := found
    rcases symbolAt_eq_some hsym with ⟨f, rfl⟩ | ⟨s, rest, rfl, rfl, hcs⟩
    · refine .inl ⟨f, n, htoken, ?_, fun s hs => ?_⟩
      · refine Bool.eq_false_iff.mpr fun hc => ?_
        rw [symbolAt_of_isNamePart hc] at hsym
        cases hsym
      · obtain ⟨s', n', hs'⟩ := exists_symbolAt s hs
        cases hsym.symm.trans hs'
    · exact .inr ⟨.symbol s, rest, htoken, hcs, trivial, fun _ _ => rfl⟩
  | none =>
    by_cases hdigit : Text.isDigit c = true
    · obtain ⟨run, rest, rfl, hrun, hrest⟩ := exists_run Text.isDigit cs
      have hall : ∀ d ∈ c :: run, Text.isDigit d = true := forall_mem_cons.mpr ⟨hdigit, hrun⟩
      refine .inr ⟨.number (String.ofList (c :: run)), rest, (tokenAt_number hall hrest).trans ?_,
        ?_, ⟨?_, ?_⟩, hrest⟩
      · simp [Token.Kind.lexeme]
      · simp [Token.Kind.lexeme]
      · simp [String.ext_iff]
      · rwa [String.toList_ofList]
    by_cases hletter : Text.isLetter c = true
    · obtain ⟨run, rest, rfl, hrun, hrest⟩ := exists_run isNamePart cs
      have htoken := tokenAt_word hletter hrun hrest
      rcases wordKind_eq (String.ofList (c :: run)) with ⟨k, hk, hkind⟩ | ⟨hne, hkind⟩
      · have hlexeme : (Token.Kind.keyword k).lexeme.toList = c :: run := by
          rw [Token.Kind.lexeme, ← hk, String.toList_ofList]
        exact .inr ⟨.keyword k,
          rest, by rw [htoken, hkind, hlexeme]; rfl, by rw [hlexeme]; rfl, trivial, hrest⟩
      · have hlexeme : (Token.Kind.identifier (String.ofList (c :: run))).lexeme.toList = c ::
          run :=
          String.toList_ofList
        exact .inr ⟨.identifier (String.ofList (c :: run)),
          rest, by rw [htoken, hkind, hlexeme]; rfl,
          by rw [hlexeme]; rfl, ⟨⟨c, run, hlexeme, hletter, hrun⟩, hne⟩, hrest⟩
    · refine .inl ⟨.unexpected c, 1, ?_, by simp [isNamePart, hletter, hdigit], fun s hs => ?_⟩
      · rw [tokenAt, hsym]
        simp only [hdigit, hletter, Bool.false_eq_true, if_false]
      · obtain ⟨s', n, hs'⟩ := exists_symbolAt s hs
        cases hsym.symm.trans hs'

theorem Token.Kind.IsWritten.newline_not_mem {k : Token.Kind} (hk : k.IsWritten) :
    '\n' ∉ k.lexeme.toList := by
  intro hmem
  cases k with
  | endOfText | fault => exact hk
  | keyword k => exact absurd (isLetter_spelling k _ hmem) (by decide)
  | symbol s => revert hmem; cases s <;> decide
  | number digits => exact absurd (hk.2 _ hmem) (by decide)
  | identifier name =>
    obtain ⟨⟨c, cs, hcs, hc, hpart⟩, -⟩ := hk
    rw [Token.Kind.lexeme, hcs] at hmem
    rcases mem_cons.mp hmem with rfl | hmem
    · exact absurd hc (by decide)
    · exact absurd (hpart _ hmem) (by decide)

theorem Token.Kind.IsWritten.isLast_eq {k : Token.Kind} (hk : k.IsWritten) : k.isLast = false := by
  cases k with
  | endOfText | fault => exact hk.elim
  | _ => rfl

namespace Cursor

variable {c : Cursor}

theorem tokens_of_isLast (h : c.next.1.kind.isLast = true) : c.tokens = [c.next.1] := by
  rw [tokens, dif_neg (by rw [h]; decide)]

theorem tokens_of_not_isLast (h : c.next.1.kind.isLast = false) : c.tokens = c.next.1 ::
    c.next.2.tokens := by
  rw [tokens, dif_pos h]

theorem next_of_skip {rest : List Char} {d : Char} {p : Position} (h : c.skip = ⟨d :: rest, p⟩) :
    c.next = (⟨(tokenAt d rest).1, p⟩, advance ⟨d :: rest, p⟩ (tokenAt d rest).2) := by
  rw [next, h]

end Cursor

/-- What is read behind a text is cut into gaps and tokens. -/
theorem splits_tokens (c : Cursor) {before : List Char} (hpos : c.pos = .behind before) :
    Splits before c.rest c.tokens := by
  induction hn : c.rest.length using Nat.strongRecOn generalizing c before with
  | ind n ih =>
  obtain ⟨g, rest, hcs, hskip, hgap⟩ := Cursor.skipGap_eq false before c.rest
  replace hskip : c.skip = ⟨rest, .behind (before ++ g)⟩ := by rw [Cursor.skip, hpos, hskip]
  rcases rest with _ | ⟨d, cs⟩
  · have hnext : c.next.1 = ⟨.endOfText, .behind (before ++ g)⟩ := by rw [Cursor.next, hskip]
    rw [hcs, Cursor.tokens_of_isLast (by rw [hnext]; rfl), hnext, append_nil]
    exact .endOfText hgap
  · have hnext := Cursor.next_of_skip hskip
    rcases tokenAt_cases d cs with ⟨f, m, htoken, hword, hsymbol⟩ | ⟨k, rest, htoken,
      hrest, hk, hlongest⟩
    · rw [htoken] at hnext
      rw [hcs, Cursor.tokens_of_isLast (by rw [hnext]; rfl), hnext]
      exact .fault hgap hword hsymbol
    · rw [htoken] at hnext
      have hpos' : (Cursor.advance ⟨d :: cs, .behind (before ++ g)⟩ k.lexeme.toList.length) =
          ⟨rest, .behind (before ++ (g ++ k.lexeme.toList))⟩ := by
        rw [Cursor.advance, hrest, drop_left, ← append_assoc, Position.behind_append _
          hk.newline_not_mem]
      have hlast : c.next.1.kind.isLast = false := by
        rw [hnext]
        exact hk.isLast_eq
      have hlt := Cursor.length_next hlast
      rw [hcs, Cursor.tokens_of_not_isLast hlast, hrest]
      rw [hnext, hpos'] at hlt ⊢
      refine .token (hrest ▸ hgap) hk hlongest (fun s hs hs' => ?_)
        (ih _ (hn ▸ hlt) ⟨rest, _⟩ rfl rfl)
      rw [tokenAt_of_symbolAt (symbolAt_pair s hs (hrest ▸ hs'))] at htoken
      exact (congrArg Prod.fst htoken).symm

/-- Reading partitions the text: it is cut into gaps and the tokens that are read from it. -/
theorem splits_tokenize (cs : List Char) : Splits [] cs (tokenize cs) :=
  splits_tokens (.ofChars cs) rfl

/-! ## Writing tokens -/

/-- Blanks, and comments with the end of their line. -/
inductive IsFiller : List Char → Prop
  | nil : IsFiller []
  | blank {c : Char} {g : List Char} (hc : Text.isBlank c = true) (others : IsFiller g) :
      IsFiller (c :: g)
  | comment {text g : List Char} (htext : '\n' ∉ text) (others : IsFiller g) :
      IsFiller ('/' :: '/' :: (text ++ '\n' :: g))

/-- What separates two tokens: blanks and comments, a blank first. -/
def IsSeparator (sep : List Char) : Prop :=
  IsFiller sep ∧ ∃ c ∈ sep.head?, Text.isBlank c = true

/-- Tokens written one behind the other, with a separator between each two. -/
def written (ks : List Token.Kind) (seps : List (List Char)) : List Char :=
  (List.zipWith (fun k sep => k.lexeme.toList ++ sep) ks (seps ++ [[]])).flatten

theorem IsFiller.isGap {g rest : List Char} (h : IsFiller g) (hrest : ¬ StartsGap rest) :
    IsGap g rest := by
  induction h with
  | nil => exact .nil hrest
  | blank hc _ ih => exact .blank hc ih
  | comment htext _ ih => exact .comment htext (by simp) (.blank (by decide) ih)

theorem isBlank_spelling (s : Symbol) : ∀ c ∈ s.spelling.toList, Text.isBlank c = false := by
  have h : s.spelling.toList.all (fun c => !Text.isBlank c) = true := by cases s <;> decide
  simpa using h

/-- A token is read that is written in front of a blank or of the end of the text. -/
theorem tokenAt_written {k : Token.Kind} (hk : k.IsWritten) {c : Char} {cs rest : List Char}
    (hcs : c :: cs = k.lexeme.toList ++ rest) (hrest : ∀ d ∈ rest.head?, Text.isBlank d = true) :
    tokenAt c cs = (k, k.lexeme.toList.length) := by
  have hword : ∀ (name : String) {c cs}, name.toList = c :: cs → Text.isLetter c = true →
      (∀ d ∈ cs, isNamePart d = true) → tokenAt c (cs ++ rest) = (wordKind name,
      name.toList.length) := by
    intro name c cs hname hc hpart
    rw [tokenAt_word hc hpart fun d hd => isNamePart_of_isBlank (hrest d hd), ← hname,
      String.ofList_toList, hname]
    rfl
  cases k with
  | endOfText | fault => exact hk.elim
  | symbol s =>
    refine tokenAt_of_symbolAt (symbolAt_spelling s hcs fun d hd s' hs' => ?_)
    have hblank := isBlank_spelling s' d (by rw [hs']; simp)
    rw [hrest d hd] at hblank
    cases hblank
  | keyword k =>
    obtain ⟨c', cs', hname, hc, hpart⟩ := exists_spelling k
    rw [Token.Kind.lexeme, hname] at hcs
    cases hcs
    rw [append_eq, hword k.spelling hname hc hpart, wordKind, ofSpelling?_spelling]
    rfl
  | identifier name =>
    obtain ⟨⟨c', cs', hname, hc, hpart⟩, hne⟩ := hk
    rw [Token.Kind.lexeme, hname] at hcs
    cases hcs
    rcases wordKind_eq name with ⟨k, hname', -⟩ | ⟨-, hkind⟩
    · exact (hne k hname').elim
    · rw [append_eq, hword name hname hc hpart, hkind]
      rfl
  | number digits =>
    obtain ⟨hne, hdigits⟩ := hk
    obtain ⟨c', cs', hname⟩ := exists_cons_of_ne_nil (mt String.toList_eq_nil_iff.mp hne)
    rw [Token.Kind.lexeme, hname] at hcs
    cases hcs
    rw [hname] at hdigits
    rw [append_eq, tokenAt_number hdigits fun d hd => Text.isDigit_of_isBlank (hrest d hd), ← hname,
      String.ofList_toList, Token.Kind.lexeme, hname]
    rfl

theorem tokenAt_blank {c : Char} (hc : Text.isBlank c = true) (cs : List Char) :
    tokenAt c cs = (.fault (.unexpected c), 1) := by
  have hsym : symbolAt c cs = none := by
    unfold symbolAt
    split
    all_goals first | rfl | cases hc
  rw [tokenAt, hsym]
  simp only [Text.isDigit_of_isBlank hc, Text.isLetter_of_isBlank hc, Bool.false_eq_true, if_false]

/-- No gap starts with a token. -/
theorem Token.Kind.IsWritten.not_startsGap {k : Token.Kind} (hk : k.IsWritten) {rest : List Char}
    (hrest : ∀ d ∈ rest.head?, Text.isBlank d = true) : ¬ StartsGap (k.lexeme.toList ++ rest) := by
  rintro (⟨c, hc, hblank⟩ | ⟨cs, hcs⟩)
  · obtain ⟨cs, hcs⟩ := head?_eq_some_iff.mp hc
    have htoken := tokenAt_written hk hcs.symm hrest
    rw [tokenAt_blank hblank] at htoken
    obtain rfl : .fault (.unexpected c) = k := congrArg Prod.fst htoken
    exact hk
  · have htoken := tokenAt_written hk hcs hrest
    cases htoken
    obtain rfl : '/' :: cs = rest := List.cons.inj hcs |>.2
    exact absurd (hrest '/' rfl) (by decide)

theorem Token.Kind.IsWritten.lexeme_ne_nil {k : Token.Kind} (hk : k.IsWritten) :
    k.lexeme.toList ≠ [] := by
  cases k with
  | endOfText | fault => exact hk.elim
  | symbol s => cases s <;> decide
  | keyword k => cases k <;> decide
  | identifier name =>
    obtain ⟨⟨c, cs, hname, -⟩, -⟩ := hk
    rw [lexeme, hname]
    exact cons_ne_nil c cs
  | number digits => exact mt String.toList_eq_nil_iff.mp hk.1

/-- A token behind a gap is read. -/
theorem exists_tokens_eq_cons {k : Token.Kind} (hk : k.IsWritten) {g rest : List Char}
    (hg : IsFiller g) (hrest : ∀ d ∈ rest.head?, Text.isBlank d = true) (p : Position) :
    ∃ t q, t.kind = k ∧ (⟨g ++ (k.lexeme.toList ++ rest), p⟩ : Cursor).tokens = t ::
      (⟨rest, q⟩ : Cursor).tokens := by
  obtain ⟨q, hskip⟩ := Cursor.skipGap_of_isGap (hg.isGap (hk.not_startsGap hrest)) p
  obtain ⟨d, cs, hcs⟩ := exists_cons_of_ne_nil (append_ne_nil_of_left_ne_nil hk.lexeme_ne_nil rest)
  have hnext := Cursor.next_of_skip (c := ⟨g ++ (k.lexeme.toList ++ rest), p⟩)
    (hskip.trans (by rw [hcs]))
  rw [tokenAt_written hk hcs.symm hrest, Cursor.advance, ← hcs, drop_left] at hnext
  rw [Cursor.tokens_of_not_isLast (by rw [hnext]; exact hk.isLast_eq), hnext]
  exact ⟨⟨k, q⟩, _, rfl, rfl⟩

theorem kinds_tokens_written {ks : List Token.Kind} {seps : List (List Char)}
    (hks : ∀ k ∈ ks, k.IsWritten) (hseps : ∀ sep ∈ seps, IsSeparator sep)
    (hlen : seps.length = ks.length - 1) {g : List Char} (hg : IsFiller g) (p : Position) :
    ((⟨g ++ written ks seps, p⟩ : Cursor).tokens).map (·.kind) = ks ++ [.endOfText] := by
  induction ks generalizing seps g p with
  | nil =>
    obtain ⟨q, hskip⟩ := Cursor.skipGap_of_isGap
      (hg.isGap (show ¬ StartsGap [] by simp [StartsGap])) p
    have hnext : (⟨g ++ written [] seps, p⟩ : Cursor).next.1 = ⟨.endOfText, q⟩ := by
      rw [Cursor.next, Cursor.skip]
      dsimp only [written, List.zipWith, List.flatten]
      rw [hskip]
    rw [Cursor.tokens_of_isLast (by rw [hnext]; rfl), hnext]
    rfl
  | cons k ks ih =>
    obtain ⟨hk, hothers⟩ := forall_mem_cons.mp hks
    -- what stands behind the token: nothing, or a separator and the other tokens
    obtain ⟨sep, seps', hwritten, hsep, hblank, hseps', hlen'⟩ : ∃ sep seps',
        written (k :: ks) seps = k.lexeme.toList ++ (sep ++ written ks seps') ∧ IsFiller sep ∧
        (∀ d ∈ (sep ++ written ks seps').head?, Text.isBlank d = true) ∧
        (∀ sep ∈ seps', IsSeparator sep) ∧ seps'.length = ks.length - 1 := by
      rcases ks with _ | ⟨k', ks⟩
      · obtain rfl : seps = [] := length_eq_zero_iff.mp hlen
        exact ⟨[], [], by simp [written], .nil, by simp [written], by simp, rfl⟩
      · obtain ⟨sep, seps, rfl⟩ := exists_cons_of_length_eq_add_one hlen
        obtain ⟨⟨hsep, c, hc, hblank⟩, hothers⟩ := forall_mem_cons.mp hseps
        obtain ⟨sep, rfl⟩ := head?_eq_some_iff.mp hc
        refine ⟨c :: sep, seps, by simp [written], hsep, ?_, hothers, by simpa using hlen⟩
        rintro d ⟨⟩
        exact hblank
    obtain ⟨t, q, rfl, htokens⟩ := exists_tokens_eq_cons hk hg hblank p
    rw [hwritten, htokens, map_cons, ih hothers hseps' hlen' hsep q]
    rfl

/-- Tokens that are written with separators between them are read as they were, and then the end of
the text. -/
theorem kinds_tokenize_written (ks : List Token.Kind) (seps : List (List Char))
    (hks : ∀ k ∈ ks, k.IsWritten) (hseps : ∀ sep ∈ seps, IsSeparator sep)
    (hlen : seps.length = ks.length - 1) :
    (tokenize (written ks seps)).map (·.kind) = ks ++ [.endOfText] :=
  kinds_tokens_written hks hseps hlen .nil .start

/-- A slash in front of a comment, two signs that would make one operator, and a word that starts
like a keyword. -/
theorem kinds_tokenize_written_slash :
    (tokenize (written [.symbol .slash, .symbol .less, .symbol .minus, .identifier "fix"]
      [" //</\n".toList, "\t".toList, "\n".toList])).map (·.kind) =
      [.symbol .slash, .symbol .less, .symbol .minus, .identifier "fix", .endOfText] := by
  refine kinds_tokenize_written _ _ ?_ ?_ rfl
  · refine forall_mem_cons.mpr ⟨trivial, forall_mem_cons.mpr ⟨trivial, forall_mem_cons.mpr ⟨trivial,
      forall_mem_singleton.mpr ⟨⟨'f', ['i', 'x'], rfl, by decide, all_eq_true.mp (by decide)⟩,
        fun k => ?_⟩⟩⟩⟩
    cases k <;> decide
  · refine forall_mem_cons.mpr ⟨⟨.blank (c := ' ') (by decide)
      (@IsFiller.comment ['<', '/'] _ (by decide) .nil), ' ', rfl, by decide⟩, ?_⟩
    exact forall_mem_cons.mpr ⟨⟨.blank (c := '\t') (by decide) .nil, '\t', rfl, by decide⟩,
      forall_mem_singleton.mpr ⟨.blank (c := '\n') (by decide) .nil, '\n', rfl, by decide⟩⟩

end Source

end SingleAssignment
