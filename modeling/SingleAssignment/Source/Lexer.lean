import SingleAssignment.Source.Token
import SingleAssignment.Text.Blank
import SingleAssignment.Text.Digit
import SingleAssignment.Text.Letter

/-!
# From characters to tokens

A text is read from left to right. Before each token the blanks and comments are skipped; a comment
starts with two slashes and runs to the end of its line. The longest operator, number or identifier
that starts at a position is the token there. `Cursor.next` reads one token, and `tokenize` reads up
to the end of the text or the first fault.
-/

namespace SingleAssignment.Source

/-- What is still to be read, and where it starts. -/
structure Cursor where
  rest : List Char
  pos : Position
  deriving Repr, Inhabited

namespace Cursor

/-- The start of a text. -/
def ofChars (cs : List Char) : Cursor :=
  ⟨cs, .start⟩

/-- Moves over `n` characters of one line. -/
def advance (c : Cursor) (n : Nat) : Cursor :=
  ⟨c.rest.drop n, { c.pos with column := c.pos.column + n }⟩

/-- Skips blanks and comments; `inComment` says that a comment is open. -/
def skipGap : Bool → List Char → Position → Cursor
  | _, [], p => ⟨[], p⟩
  | inComment, c :: cs, p =>
    if c == '\n' then skipGap false cs p.nextLine
    else if inComment then skipGap true cs p.right
    else if Text.isBlank c then skipGap false cs p.right
    else if c == '/' && cs.head? == some '/' then skipGap true cs p.right
    else ⟨c :: cs, p⟩

/-- The cursor at the next token. -/
def skip (c : Cursor) : Cursor :=
  skipGap false c.rest c.pos

end Cursor

/-- Whether an identifier goes on with `c`. -/
def isNamePart (c : Char) : Bool :=
  Text.isLetter c || Text.isDigit c

/-- The operator, delimiter or lone character that a text starts with, and how many characters it
takes. -/
def symbolAt : Char → List Char → Option (Token.Kind × Nat)
  | '+', _ => some (.symbol .plus, 1)
  | '-', _ => some (.symbol .minus, 1)
  | '*', _ => some (.symbol .star, 1)
  | '/', _ => some (.symbol .slash, 1)
  | '(', _ => some (.symbol .leftParen, 1)
  | ')', _ => some (.symbol .rightParen, 1)
  | '[', _ => some (.symbol .leftBracket, 1)
  | ']', _ => some (.symbol .rightBracket, 1)
  | '{', _ => some (.symbol .leftBrace, 1)
  | '}', _ => some (.symbol .rightBrace, 1)
  | ',', _ => some (.symbol .comma, 1)
  | ';', _ => some (.symbol .semicolon, 1)
  | '.', _ => some (.symbol .period, 1)
  | '=', '=' :: _ => some (.symbol .equal, 2)
  | '=', _ => some (.fault .loneEquals, 1)
  | '!', '=' :: _ => some (.symbol .notEqual, 2)
  | '!', _ => some (.fault .loneBang, 1)
  | '<', '=' :: _ => some (.symbol .lessEqual, 2)
  | '<', '-' :: _ => some (.symbol .becomes, 2)
  | '<', _ => some (.symbol .less, 1)
  | '>', '=' :: _ => some (.symbol .greaterEqual, 2)
  | '>', _ => some (.symbol .greater, 1)
  | _, _ => none

/-- The token kind of a word: a reserved word or an identifier. -/
def wordKind (word : String) : Token.Kind :=
  match Keyword.ofSpelling? word with
  | some k => .keyword k
  | none => .identifier word

/-- The token that a text starting with `c` starts with, and how many characters it takes. -/
def tokenAt (c : Char) (cs : List Char) : Token.Kind × Nat :=
  match symbolAt c cs with
  | some found => found
  | none =>
    if Text.isDigit c then
      let digits := cs.takeWhile Text.isDigit
      (.number (String.ofList (c :: digits)), digits.length + 1)
    else if Text.isLetter c then
      let part := cs.takeWhile isNamePart
      (wordKind (String.ofList (c :: part)), part.length + 1)
    else (.fault (.unexpected c), 1)

/-- Reads one token. At the end of the text every further token is its end again; after a fault
reading goes on behind it. -/
def Cursor.next (c : Cursor) : Token × Cursor :=
  let c := c.skip
  match c.rest with
  | [] => (⟨.endOfText, c.pos⟩, c)
  | ch :: cs =>
    let (kind, n) := tokenAt ch cs
    (⟨kind, c.pos⟩, c.advance n)

/-! ## Reading shortens what is left -/

theorem Cursor.length_skipGap (b : Bool) (cs : List Char) (p : Position) :
    (skipGap b cs p).rest.length ≤ cs.length := by
  induction cs generalizing b p with
  | nil => simp [skipGap]
  | cons c cs ih =>
    unfold skipGap
    split
    · exact Nat.le_succ_of_le (ih _ _)
    · split
      · exact Nat.le_succ_of_le (ih _ _)
      · split
        · exact Nat.le_succ_of_le (ih _ _)
        · split
          · exact Nat.le_succ_of_le (ih _ _)
          · exact Nat.le_refl _

theorem symbolAt_pos {c : Char} {cs : List Char} {k : Token.Kind} {n : Nat}
    (h : symbolAt c cs = some (k, n)) : 0 < n := by
  unfold symbolAt at h
  split at h <;> simp_all <;> omega

/-- Every token takes a character. -/
theorem tokenAt_pos (c : Char) (cs : List Char) : 0 < (tokenAt c cs).2 := by
  unfold tokenAt
  split
  · next h => exact symbolAt_pos h
  · split
    · exact Nat.succ_pos _
    · split
      · exact Nat.succ_pos _
      · exact Nat.one_pos

/-- A token that does not end the list leaves less to read. -/
theorem Cursor.length_next {c : Cursor} (h : c.next.1.kind.isLast = false) :
    c.next.2.rest.length < c.rest.length := by
  have hskip := Cursor.length_skipGap false c.rest c.pos
  simp only [Cursor.next, Cursor.skip] at h ⊢
  split at h
  · simp [Token.Kind.isLast] at h
  · next ch cs heq =>
    have hpos := tokenAt_pos ch cs
    simp only [Cursor.advance, heq, List.length_drop, List.length_cons] at *
    omega

/-- The tokens from the cursor on, up to the end of the text or the first fault. -/
def Cursor.tokens (c : Cursor) : List Token :=
  if _h : c.next.1.kind.isLast = false then c.next.1 :: c.next.2.tokens else [c.next.1]
termination_by c.rest.length
decreasing_by exact Cursor.length_next _h

/-- The next `n` tokens from the cursor on. -/
def Cursor.take (c : Cursor) : Nat → List Token
  | 0 => []
  | n + 1 => c.next.1 :: c.next.2.take n

/-- The tokens of a text, up to its end or the first fault. -/
def tokenize (cs : List Char) : List Token :=
  (Cursor.ofChars cs).tokens

end SingleAssignment.Source
