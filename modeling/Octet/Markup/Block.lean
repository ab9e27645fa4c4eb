import Octet.Markup.Scalar

/-!
# Block scalars

A scalar can also be a block of lines that are indented. A bar announces lines that are taken as
they stand; an angle bracket announces lines that are folded, except around lines with blanks in
front and around empty ones.

The announcement may tell what becomes of the line breaks at the end, and how far the lines are
indented. If it does not tell the indentation, it is that of the first line with text, or of a
longer one without text before it, and in any case farther than that of the surrounding block.

## Main definitions

* `Chomp`, `BlockHeader`, `blockHeader` — the announcement
* `BlockText` — the text of the lines read so far
* `blockScalar` — a block scalar
-/

namespace Octet.Markup

/-! ### The announcement -/

/-- What becomes of the line breaks at the end of a block scalar. -/
inductive Chomp where
  /-- The first one is kept. -/
  | clip
  /-- None is kept. -/
  | strip
  /-- All are kept. -/
  | keep
  deriving DecidableEq, Repr

/-- The announcement of a block scalar. -/
structure BlockHeader where
  chomp : Chomp
  /-- How much farther than the surrounding block the lines are indented; zero if it does not
  tell. -/
  increment : Nat
  deriving DecidableEq, Repr

/-- The sign for what becomes of the line breaks at the end. -/
def chomp? (c : Char) : Option Chomp :=
  match c with
  | '+' => some .keep
  | '-' => some .strip
  | _ => none

/-- The value of a decimal digit. -/
def digit? (c : Char) : Option Nat := if '0' ≤ c && c ≤ '9' then some (c.toNat - 48) else none

/-- What an announcement tells, and the rest of the line. The sign and the digit can stand in either
order. -/
def indicators (s : List Char) : Except Flaw (BlockHeader × List Char) :=
  match s.head?.bind chomp?, s.head?.bind digit? with
  | some chomp, _ =>
    match s.tail.head?.bind digit? with
    | some 0 => .error .header
    | some increment => .ok (⟨chomp, increment⟩, s.drop 2)
    | none => .ok (⟨chomp, 0⟩, s.tail)
  | none, some 0 => .error .header
  | none, some increment =>
    match s.tail.head?.bind chomp? with
    | some chomp => .ok (⟨chomp, increment⟩, s.drop 2)
    | none => .ok (⟨.clip, increment⟩, s.tail)
  | none, none => .ok (⟨.clip, 0⟩, s)

/-- The announcement of a block scalar after its first character, and the lines that follow. -/
def blockHeader (s : List Char) : Except Flaw (BlockHeader × List Char) := do
  let (header, s) ← indicators s
  match restOfLine? s with
  | some lines => return (header, lines)
  | none => throw .header

/-! ### The lines -/

/-- The text of the lines read so far. -/
structure BlockText where
  /-- The text, the last character first. -/
  read : List Char
  /-- The break after the last line with text. -/
  lead : List Char
  /-- The breaks of the empty lines after it, the last first. -/
  breaks : List Char
  /-- Whether the last line with text has blanks in front. -/
  indented : Bool
  deriving DecidableEq, Repr

namespace BlockText

/-- No lines. -/
def empty : BlockText := ⟨[], [], [], false⟩

/-- Begins a line with text by its first character. When lines are folded, a single break becomes a
space, and of several breaks the first is dropped. -/
def startLine (b : BlockText) (folded : Bool) (c : Char) : BlockText :=
  let read :=
    if folded && !b.indented && !isBlank c && b.lead == ['\n'] then
      if b.breaks.isEmpty then ' ' :: b.read else b.read
    else b.lead ++ b.read
  ⟨c :: (b.breaks ++ read), [], [], isBlank c⟩

/-- The text of all lines. -/
def text (b : BlockText) (chomp : Chomp) : String :=
  let tail := match chomp with
    | .clip => b.lead
    | .strip => []
    | .keep => b.breaks ++ b.lead
  String.ofList (tail ++ b.read).reverse

end BlockText

/-- Reads on in a block scalar: within a line, or before one. An `indent` of zero is yet to be
found, and at least `least`; `widest` is the column that empty lines have reached. -/
def blockFrom (folded : Bool) (chomp : Chomp) (least : Nat) :
    Bool → List Char → Nat → Nat → Nat → BlockText → Nat → Except Flaw Lexeme
  | _, [], _, _, _, b, size => .ok ⟨b.text chomp, size, true⟩
  | true, c :: s, indent, widest, column, b, size =>
    if isBreak c then
      blockFrom folded chomp least false s indent widest 0 { b with lead := [c] } (size + 1)
    else
      blockFrom folded chomp least true s indent widest column { b with read := c :: b.read } (size + 1)
  | false, c :: s, indent, widest, column, b, size =>
    let margin := indent == 0 || column < indent
    if margin && c == ' ' then
      blockFrom folded chomp least false s indent widest (column + 1) b (size + 1)
    else if margin && c == '\t' then .error .tab
    else if isBreak c then
      blockFrom folded chomp least false s indent (max widest column) 0
        { b with breaks := c :: b.breaks } (size + 1)
    else
      let indent := if indent == 0 then max (max widest column) least else indent
      if column == indent then
        blockFrom folded chomp least true s indent widest column (b.startLine folded c) (size + 1)
      else .ok ⟨b.text chomp, size, true⟩

/-- **A block scalar** at the front of a text, within a block of some column. -/
def blockScalar (outer : Option Nat) (s : List Char) : Except Flaw Lexeme := do
  let (header, lines) ← blockHeader s.tail
  let indent := if header.increment == 0 then 0 else outer.getD 0 + header.increment
  let least := (outer.map (· + 1)).getD 1
  blockFrom (s.head? == some '>') header.chomp least false lines indent 0 0 .empty
    (s.length - lines.length)

end Octet.Markup
