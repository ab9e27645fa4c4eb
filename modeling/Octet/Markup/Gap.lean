import Octet.Markup.Scalar

/-!
# Blank space and comments

Between tokens stand blanks, line breaks and comments. Outside of brackets a new line allows a key,
and a tab cannot stand where a key is allowed. Comments on lines of their own that follow each other
belong together: between them tabs can stand.

A text may begin with a mark of its byte order, which is dropped. A second such mark is passed over
like a blank, and as long as the first piece of the text is read, so is the first character of every
line that starts between two tokens.

## Main definitions

* `Place` — a place in a text
* `gap` — the next place where a token starts
* `remark` — the length of a comment on the same line
-/

namespace Octet.Markup

/-- A place in a text. -/
structure Place where
  rest : List Char
  line : Nat
  column : Nat
  /-- How many characters stand before it. -/
  offset : Nat
  deriving DecidableEq, Repr

namespace Place

/-- Moves on by one character. -/
def advance (p : Place) : Place :=
  match p.rest with
  | [] => p
  | c :: rest =>
    if isBreak c then ⟨rest, p.line + 1, 0, p.offset + 1⟩
    else ⟨rest, p.line, p.column + 1, p.offset + 1⟩

/-- Moves on by some characters. -/
def skip (p : Place) : Nat → Place
  | 0 => p
  | n + 1 => p.advance.skip n

end Place

/-- What is being passed over. -/
inductive GapMode where
  /-- The start of a line. -/
  | lineStart
  | blanks
  | comment
  /-- Blank space between two comments. -/
  | betweenComments
  deriving DecidableEq, Repr

/-- Whether after a line break the next comment follows on a line of its own. -/
def leadsToComment (s : List Char) : Bool :=
  ((s.take 511).dropWhile fun c => isBlank c || c == '\n').head? == some '#'

/-- Passes over blank space and comments, and tells whether a key may start after them. At the start
of a line the first character is passed over as long as fewer than `marked` characters have been
read. -/
def gapFrom (inFlow : Bool) (marked : Nat) :
    List Char → Nat → Nat → Nat → GapMode → Bool → Place × Bool
  | [], line, column, offset, _, allowed => (⟨[], line, column, offset⟩, allowed)
  | c :: s, line, column, offset, mode, allowed =>
    let onLine (mode : GapMode) := gapFrom inFlow marked s line (column + 1) (offset + 1) mode allowed
    let onNext (mode : GapMode) (allowed : Bool) :=
      gapFrom inFlow marked s (line + 1) 0 (offset + 1) mode allowed
    if mode == .lineStart && offset < marked then onLine .blanks
    else if mode == .comment then
      if !isBreak c then onLine .comment
      else if c == '\n' && leadsToComment s then onNext .betweenComments allowed
      else onNext .lineStart (allowed || !inFlow)
    else if mode == .betweenComments then
      if c == '#' then onLine .comment
      else if isBreak c then onNext .betweenComments allowed
      else onLine .betweenComments
    else if c == ' ' || (c == '\t' && (inFlow || !allowed)) then onLine .blanks
    else if c == '#' then onLine .comment
    else if isBreak c then onNext .lineStart (allowed || !inFlow)
    else (⟨c :: s, line, column, offset⟩, allowed)

/-- **The next place where a token starts**, and whether a key may start there. -/
def gap (inFlow : Bool) (marked : Nat) (p : Place) (allowed : Bool) : Place × Bool :=
  gapFrom inFlow marked p.rest p.line p.column p.offset
    (if p.column == 0 then .lineStart else .blanks) allowed

/-- The length of the comment that follows on the same line, with the blanks before it. -/
def remark (s : List Char) : Nat :=
  let blanks := (s.takeWhile isBlank).length
  let comment := s.drop blanks
  if blanks < 512 && comment.head? == some '#' then
    blanks + (comment.takeWhile (!isBreak ·)).length
  else 0

end Octet.Markup
