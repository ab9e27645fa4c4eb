import Octet.Text.Quoted

/-!
# Scalars of a markup text

Listings are written in YAML. This module reads scalars within lines: *plain* ones, which end where
something else begins, and *quoted* ones, which end at their closing quote. Both may go on over
several lines, which are folded: a single line break becomes a space, and of several breaks the
first is dropped.

Scalars are read character by character with the column of each, since the indentation of the
surrounding block can end a plain scalar. The result tells how many characters were read, so that
the reader of the text can move on by as many.

## Main definitions

* `Flaw` — what can be wrong with a markup text
* `Fold` — blank space and line breaks that have been read and not yet been used
* `Lexeme`, `plain`, `quoted` — scalars
-/

namespace Octet.Markup

/-- What can be wrong with a markup text. -/
inductive Flaw where
  /-- A character that no text may hold. -/
  | character
  /-- A character that starts nothing. -/
  | start
  /-- Quoted text without an end. -/
  | unclosed
  /-- An escape that means nothing. -/
  | escape
  /-- A tab in place of indentation. -/
  | tab
  /-- An entry of a sequence where none can stand. -/
  | entry
  /-- A key without its value, or a value without its key. -/
  | key
  /-- An anchor or alias without a proper name. -/
  | name
  /-- The first line of a block scalar that says something unknown. -/
  | header
  /-- A tag that is not written as one, or whose handle is not known. -/
  | tag
  /-- A directive that is not known. -/
  | directive
  /-- Too many collections within each other. -/
  | nesting
  /-- Something else was expected. -/
  | unexpected
  /-- An alias of nothing. -/
  | anchor
  /-- A scalar whose text does not fit its tag. -/
  | misfit
  /-- A value that cannot be merged into a mapping. -/
  | merge
  /-- A value that contains itself. -/
  | cycle
  deriving DecidableEq, Repr

/-! ### Characters -/

/-- Blank space within a line. -/
def isBlank (c : Char) : Bool := c == ' ' || c == '\t'

/-- Characters that end a line. -/
def isBreak (c : Char) : Bool := c == '\n' || c == '\u2028' || c == '\u2029'

/-- Whether nothing but blank space stands in front: a blank, the end of the line, or of the
text. -/
def atBlank : List Char → Bool
  | [] => true
  | c :: _ => isBlank c || isBreak c

/-- Whether a mark between documents stands in front. -/
def atDocumentMark : List Char → Bool
  | '-' :: '-' :: '-' :: s => atBlank s
  | '.' :: '.' :: '.' :: s => atBlank s
  | _ => false

/-- What follows a line that only holds blank space and a comment any more. -/
def restOfLine? (s : List Char) : Option (List Char) :=
  let s := s.dropWhile isBlank
  let s := if s.head? == some '#' then s.dropWhile (!isBreak ·) else s
  match s with
  | [] => some []
  | c :: s => if isBreak c then some s else none

/-- Characters of names, of anchors for one. -/
def isNameChar (c : Char) : Bool :=
  ('a' ≤ c && c ≤ 'z') || ('A' ≤ c && c ≤ 'Z') || ('0' ≤ c && c ≤ '9') || c == '_' || c == '-'

/-- Characters that separate and surround the entries of collections between brackets. -/
def isFlowMark (c : Char) : Bool :=
  c == ',' || c == '?' || c == '[' || c == ']' || c == '{' || c == '}'

/-! ### Folding -/

/-- Blank space that has been read and not yet been used. -/
structure Fold where
  /-- Blanks within a line, the last first. -/
  blanks : List Char
  /-- The first line break, once there is one; empty when it was escaped. -/
  first : Option (List Char)
  /-- Further line breaks, the last first. -/
  more : List Char
  deriving DecidableEq, Repr

namespace Fold

/-- Nothing read. -/
def empty : Fold := ⟨[], none, []⟩

/-- A line break that was escaped. -/
def escaped : Fold := ⟨[], some [], []⟩

/-- Takes in a blank or a line break. Blanks at the start of a line do not count. -/
def push (f : Fold) (c : Char) : Fold :=
  if isBreak c then
    if f.first.isSome then { f with more := c :: f.more } else ⟨[], some [c], []⟩
  else if f.first.isSome then f else { f with blanks := c :: f.blanks }

/-- What the blank space amounts to between two words. -/
def text (f : Fold) : List Char :=
  match f.first with
  | none => f.blanks.reverse
  | some ['\n'] => if f.more.isEmpty then [' '] else f.more.reverse
  | some first => first ++ f.more.reverse

end Fold

/-- A scalar with the number of characters that it takes up. -/
structure Lexeme where
  text : String
  size : Nat
  /-- Whether a line break was read after the last word. -/
  broke : Bool
  deriving DecidableEq, Repr

/-- The column after a character. -/
def columnAfter (column : Nat) (c : Char) : Nat := if isBreak c then 0 else column + 1

/-! ### Plain scalars -/

/-- Whether a plain scalar ends at a character that is not blank. Between brackets the marks of
entries end it, and everywhere a colon before a blank. After blank space also a comment ends it, a
mark between documents, and outside of brackets a line that is indented by less than `indent`. -/
def endsPlain (inFlow : Bool) (indent column : Nat) (afterBlank : Bool) (c : Char) (s : List Char) : Bool :=
  (c == ':' && atBlank s) || (inFlow && isFlowMark c) ||
    (afterBlank &&
      ((!inFlow && column < indent) || (column == 0 && atDocumentMark (c :: s)) || c == '#'))

/-- Reads on in a plain scalar; `read` is the text so far, the last character first. A tab cannot
stand in place of indentation. -/
def plainFrom (inFlow : Bool) (indent : Nat) :
    List Char → Nat → Fold → List Char → Nat → Except Flaw Lexeme
  | [], _, fold, read, size => .ok ⟨String.ofList read.reverse, size, fold.first.isSome⟩
  | c :: s, column, fold, read, size =>
    if isBlank c || isBreak c then
      if fold.first.isSome && column < indent && c == '\t' then .error .tab
      else plainFrom inFlow indent s (columnAfter column c) (fold.push c) read (size + 1)
    else if endsPlain inFlow indent column (fold != .empty) c s then
      .ok ⟨String.ofList read.reverse, size, fold.first.isSome⟩
    else plainFrom inFlow indent s (column + 1) .empty (c :: (fold.text.reverse ++ read)) (size + 1)

/-- **A plain scalar** at the front of a text. -/
def plain (inFlow : Bool) (indent : Nat) (s : List Char) (column : Nat) : Except Flaw Lexeme :=
  plainFrom inFlow indent s column .empty [] 0

/-! ### Quoted scalars -/

/-- How the next character of a quoted scalar is read. -/
inductive QuoteMode where
  | text
  /-- After a quote, which may be the first of two. -/
  | quote
  /-- After a backslash. -/
  | escape
  /-- Within the digits of an escape: how many are still to come, and their value so far. -/
  | digits (left value : Nat)
  deriving DecidableEq, Repr

/-- The character that an escape of one letter stands for. -/
def escapeValue? (c : Char) : Option Char :=
  match c with
  | '0' => some (Char.ofNat 0)
  | 'a' => some (Char.ofNat 7)
  | 'b' => some (Char.ofNat 8)
  | 't' => some '\t'
  | '\t' => some '\t'
  | 'n' => some '\n'
  | 'v' => some (Char.ofNat 11)
  | 'f' => some (Char.ofNat 12)
  | 'r' => some '\r'
  | 'e' => some (Char.ofNat 27)
  | ' ' => some ' '
  | '"' => some '"'
  | '\'' => some '\''
  | '\\' => some '\\'
  | 'N' => some (Char.ofNat 0x85)
  | '_' => some (Char.ofNat 0xa0)
  | 'L' => some (Char.ofNat 0x2028)
  | 'P' => some (Char.ofNat 0x2029)
  | _ => none

/-- How many digits follow the letter of an escape by number. -/
def escapeDigits? (c : Char) : Option Nat :=
  match c with
  | 'x' => some 2
  | 'u' => some 4
  | 'U' => some 8
  | _ => none

/-- Reads on in a quoted scalar, after its opening quote. In single quotes only the quote itself is
special, and is written twice. -/
def quotedFrom (single : Bool) :
    QuoteMode → List Char → Nat → Fold → List Char → Nat → Except Flaw Lexeme
  | .quote, [], _, _, read, size => .ok ⟨String.ofList read.reverse, size, false⟩
  | _, [], _, _, _, _ => .error .unclosed
  | .quote, c :: s, column, fold, read, size =>
    if single && c == '\'' then quotedFrom single .text s (column + 1) fold ('\'' :: read) (size + 1)
    else .ok ⟨String.ofList read.reverse, size, false⟩
  | .text, c :: s, column, fold, read, size =>
    let read' := fold.text.reverse ++ read
    if isBlank c || isBreak c then
      quotedFrom single .text s (columnAfter column c) (fold.push c) read (size + 1)
    else if column == 0 && atDocumentMark (c :: s) then .error .unclosed
    else if c == (if single then '\'' else '"') then
      quotedFrom single .quote s (column + 1) .empty read' (size + 1)
    else if !single && c == '\\' then
      quotedFrom single .escape s (column + 1) .empty read' (size + 1)
    else quotedFrom single .text s (column + 1) .empty (c :: read') (size + 1)
  | .escape, c :: s, column, fold, read, size =>
    if isBreak c then quotedFrom single .text s 0 .escaped read (size + 1)
    else match escapeDigits? c, escapeValue? c with
      | some left, _ => quotedFrom single (.digits left 0) s (column + 1) fold read (size + 1)
      | _, some v => quotedFrom single .text s (column + 1) fold (v :: read) (size + 1)
      | _, _ => .error .escape
  | .digits left value, c :: s, column, fold, read, size =>
    match Text.hexValue? c with
    | none => .error .escape
    | some d =>
      let value := value * 16 + d
      if 1 < left then
        quotedFrom single (.digits (left - 1) value) s (column + 1) fold read (size + 1)
      else if value.isValidChar then
        quotedFrom single .text s (column + 1) fold (Char.ofNat value :: read) (size + 1)
      else .error .escape

/-- **A quoted scalar** at the front of a text, with both of its quotes. -/
def quoted (s : List Char) (column : Nat) : Except Flaw Lexeme :=
  match s with
  | '\'' :: s => quotedFrom true .text s (column + 1) .empty [] 1
  | '"' :: s => quotedFrom false .text s (column + 1) .empty [] 1
  | _ => .error .start

end Octet.Markup
