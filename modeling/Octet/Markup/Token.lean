import Octet.Markup.Block
import Octet.Markup.Gap
import Octet.Markup.Tag

/-!
# Tokens of a markup text

A text is cut into tokens. Brackets, commas and scalars are found where they stand. Blocks are not
marked by characters but by indentation: a collection begins at the first key or the first dash of a
column farther to the right, and ends before the first token to the left of that column. Their
tokens are therefore made up.

## Keys

That something is a key only shows when the colon after it is found. Tokens are therefore found
ahead of their use, and wait in a queue: whatever could be a key is a *candidate* that holds back
its token, and a colon that belongs to it puts the token of a key before it, and that of a new block
if there is one. A key has to be on one line and must not be long. Tokens are numbered from the
start of the text, so that a candidate can be told by its number.

Each level of brackets has a candidate of its own. A pair of brackets with nothing between them that
could be a key is not held back once it is closed. A colon after it may then find its token used
already, and the token of the key goes to the end of the queue, where it is of no use.

A token is used when at least two more have been found, so a flaw shows two tokens ahead.

## Main definitions

* `Token`, `Token.Kind` — tokens with the lines they stand in
* `Candidate`, `Level` — what may turn out to be a key
* `Scanner`, `Scanner.next` — the state of cutting, and one step of it
* `Scanner.ready`, `Scanner.use` — finding tokens ahead, and using one
* `Scanner.ofText?` — the start of a text
-/

namespace Octet.Markup

/-- What a token stands for. -/
inductive Token.Kind where
  | directive (content : Directive)
  | documentStart
  | documentEnd
  | streamEnd
  | blockSequence
  | blockMapping
  | blockEnd
  | flowSequence
  | flowSequenceEnd
  | flowMapping
  | flowMappingEnd
  | blockEntry
  | flowEntry
  | key
  | value
  | alias (name : String)
  | anchor (name : String)
  | tag (name : TagName)
  | scalar (text : String) (isPlain : Bool)
  deriving DecidableEq, Repr

/-- A token and the line it stands in. -/
structure Token where
  kind : Token.Kind
  line : Nat
  deriving DecidableEq, Repr

/-- Something that may turn out to be a key. -/
structure Candidate where
  /-- The number of its token. -/
  number : Nat
  line : Nat
  column : Nat
  offset : Nat
  /-- Whether nothing else than a key can stand there. -/
  required : Bool
  /-- Whether it holds back its token. -/
  awaited : Bool
  deriving DecidableEq, Repr

/-- A level of brackets. -/
structure Level where
  candidate : Option Candidate
  /-- The number of the last candidate, and of the opening bracket before there is one. -/
  number : Nat
  deriving DecidableEq, Repr

namespace Level

/-- The level in which a token is not held back. -/
def release (l : Level) (number : Nat) : Level :=
  { l with candidate := l.candidate.map fun c =>
      if c.number == number then { c with awaited := false } else c }

/-- The level in which a token is no candidate. -/
def drop (l : Level) (number : Nat) : Level :=
  { l with candidate := l.candidate.filter (·.number != number) }

end Level

/-- The state of cutting a text into tokens. -/
structure Scanner extends Place where
  /-- The column of the current block; none outside of all blocks. -/
  indent : Option Nat
  /-- The columns of the surrounding blocks. -/
  outer : List (Option Nat)
  /-- Whether a key may start here. -/
  keyAllowed : Bool
  /-- The level within the innermost open bracket. -/
  level : Level
  /-- The levels around it. -/
  levels : List Level
  /-- Tokens found and not yet used. -/
  queue : List Token
  /-- How many tokens have been used. -/
  used : Nat
  /-- How many characters stand in the first piece of a text with a second mark of its byte
  order. -/
  marked : Nat
  deriving Repr

namespace Scanner

/-- The start of a text. -/
def start (s : List Char) (marked : Nat) : Scanner :=
  ⟨⟨s, 1, 0, 0⟩, none, [], true, ⟨none, 0⟩, [], [], 0, marked⟩

/-- Whether a bracket is open. -/
def inFlow (s : Scanner) : Bool := !s.levels.isEmpty

/-- Moves on by some characters. -/
def skip (s : Scanner) (n : Nat) : Scanner := { s with toPlace := s.toPlace.skip n }

/-- Moves on to the next token. -/
def skipGap (s : Scanner) : Scanner :=
  let (place, keyAllowed) := gap s.inFlow s.marked s.toPlace s.keyAllowed
  { s with toPlace := place, keyAllowed }

/-- Passes over a comment on the same line. -/
def skipRemark (s : Scanner) : Scanner := s.skip (remark s.rest)

/-! ### The queue -/

/-- The number of the next token. -/
def count (s : Scanner) : Nat := s.used + s.queue.length

/-- Adds a token. -/
def emit (s : Scanner) (kind : Token.Kind) : Scanner :=
  { s with queue := s.queue ++ [⟨kind, s.line⟩] }

/-- Adds a token before the one with a number, or at the end if that one has been used. -/
def insert (s : Scanner) (number : Nat) (t : Token) : Scanner :=
  let place := if number < s.used then s.queue.length else number - s.used
  { s with queue := s.queue.take place ++ t :: s.queue.drop place }

/-! ### Blocks -/

/-- How many collections can be within each other. -/
def maxDepth : Nat := 10000

/-- Whether the current block lies to the right of a column. -/
def deeper (indent : Option Nat) (column : Nat) : Bool :=
  match indent with
  | none => false
  | some n => column < n

/-- Ends blocks, at most as many as there are, while `ended` says so of their column. -/
def endBlocks (s : Scanner) (ended : Option Nat → Bool) : List (Option Nat) → Scanner
  | [] => s
  | indent :: outer =>
    if ended s.indent then { s.emit .blockEnd with indent, outer }.endBlocks ended outer else s

/-- Ends the blocks to the right of the column. -/
def unroll (s : Scanner) : Scanner :=
  if s.inFlow then s else s.endBlocks (deeper · s.column) s.outer

/-- Ends all blocks. -/
def unrollAll (s : Scanner) : Scanner :=
  if s.inFlow then s else s.endBlocks Option.isSome s.outer

/-- Whether a block of a column begins here. -/
def opens (s : Scanner) (column : Nat) : Bool :=
  !s.inFlow && match s.indent with
    | none => true
    | some n => n < column

/-- Begins a block, with its token before the one with a number, if the column lies farther to the
right. -/
def roll (s : Scanner) (column number : Nat) (t : Token) : Except Flaw Scanner :=
  if !s.opens column then .ok s
  else if maxDepth ≤ s.outer.length then .error .nesting
  else .ok ({ s with indent := some column, outer := s.indent :: s.outer }.insert number t)

/-- Begins a block with a token at the current place. -/
def rollHere (s : Scanner) (kind : Token.Kind) : Except Flaw Scanner :=
  s.roll s.column s.count ⟨kind, s.line⟩

/-! ### Candidates -/

/-- Gives up the candidate, which must not be one that had to be a key. -/
def dropCandidate (s : Scanner) : Except Flaw Scanner :=
  if s.level.candidate.any (·.required) then .error .key
  else .ok { s with level := { s.level with candidate := none } }

/-- Makes the next token a candidate if a key may start here. -/
def saveCandidate (s : Scanner) : Except Flaw Scanner := do
  if s.keyAllowed then
    let s ← s.dropCandidate
    let required := !s.inFlow && s.indent == some s.column
    let candidate : Candidate := ⟨s.count, s.line, s.column, s.offset, required, true⟩
    return { s with level := ⟨some candidate, s.count⟩ }
  else return s

/-- Whether it is too late for a colon after a candidate: it has to be on the same line and not too
far away. -/
def late (s : Scanner) (c : Candidate) : Bool := c.line < s.line || c.offset + 1024 < s.offset

/-- The candidate that a colon belongs to. -/
def keyFor (s : Scanner) : Except Flaw (Option Candidate) :=
  match s.level.candidate with
  | none => .ok none
  | some c =>
    if !s.late c then .ok (some c)
    else if c.required then .error .key
    else .ok none

/-- Opens a level of brackets. -/
def openLevel (s : Scanner) : Except Flaw Scanner :=
  if maxDepth ≤ s.levels.length then .error .nesting
  else .ok { s with level := ⟨none, s.count⟩, levels := s.level :: s.levels }

/-- Closes a level of brackets, if there is one. -/
def closeLevel (s : Scanner) : Scanner :=
  match s.levels with
  | [] => s
  | level :: levels => { s with level := level.release s.level.number, levels }

/-! ### Tokens -/

/-- A token of a single character. -/
def single (s : Scanner) (kind : Token.Kind) : Scanner := ((s.emit kind).skip 1).skipRemark

/-- A mark between documents. -/
def documentMark (s : Scanner) (kind : Token.Kind) : Except Flaw Scanner := do
  let s ← s.unrollAll.dropCandidate
  return { (s.emit kind).skip 3 with keyAllowed := false }

/-- A directive. -/
def directiveLine (s : Scanner) : Except Flaw Scanner := do
  let s ← s.unrollAll.dropCandidate
  let (content, size) ← directive s.rest
  return { (s.emit (.directive content)).skip size with keyAllowed := false }

/-- An opening bracket. -/
def openBracket (s : Scanner) (kind : Token.Kind) : Except Flaw Scanner := do
  let s ← (← s.saveCandidate).openLevel
  return { s.single kind with keyAllowed := true }

/-- A closing bracket. -/
def closeBracket (s : Scanner) (kind : Token.Kind) : Except Flaw Scanner := do
  let s ← s.dropCandidate
  return { s.closeLevel.single kind with keyAllowed := false }

/-- A comma between brackets. -/
def comma (s : Scanner) : Except Flaw Scanner := do
  let s ← s.dropCandidate
  return { s.single .flowEntry with keyAllowed := true }

/-- The dash before an entry of a sequence. A comment after it belongs to the entry. -/
def dash (s : Scanner) : Except Flaw Scanner := do
  if !s.inFlow && !s.keyAllowed then throw .entry
  let s ← (← s.rollHere .blockSequence).dropCandidate
  return { (s.emit .blockEntry).skip 1 with keyAllowed := true }

/-- A question mark before a key. -/
def questionMark (s : Scanner) : Except Flaw Scanner := do
  if !s.inFlow && !s.keyAllowed then throw .key
  let s ← (← s.rollHere .blockMapping).dropCandidate
  return { s.single .key with keyAllowed := !s.inFlow }

/-- The colon before a value. -/
def colon (s : Scanner) : Except Flaw Scanner := do
  match ← s.keyFor with
  | some c =>
    let s ← (s.insert c.number ⟨.key, c.line⟩).roll c.column c.number ⟨.blockMapping, c.line⟩
    let s := { s with level := s.level.drop c.number }
    return { s.single .value with keyAllowed := false }
  | none =>
    let s := { s with level := { s.level with candidate := none } }
    if !s.inFlow && !s.keyAllowed then throw .key
    let s ← s.rollHere .blockMapping
    return { s.single .value with keyAllowed := !s.inFlow }

/-- Whether the name of an anchor can end here. -/
def endsName (s : List Char) : Bool :=
  atBlank s || s.head?.any (· ∈ ['?', ':', ',', ']', '}', '%', '@', '`'])

/-- A token of some size that may be, or may come before, a key. -/
def word (s : Scanner) (kind : Token.Kind) (size : Nat) : Scanner :=
  { ((s.emit kind).skip size).skipRemark with keyAllowed := false }

/-- The name of an anchor or an alias, after the character that tells which it is. -/
def named (s : Scanner) (kind : String → Token.Kind) : Except Flaw Scanner := do
  let s ← s.saveCandidate
  let name := s.rest.tail.takeWhile isNameChar
  if name.isEmpty || !endsName (s.rest.tail.drop name.length) then throw .name
  return s.word (kind (String.ofList name)) (name.length + 1)

/-- A tag. -/
def tagged (s : Scanner) : Except Flaw Scanner := do
  let s ← s.saveCandidate
  let (name, after) ← tagName s.rest
  return s.word (.tag name) (s.rest.length - after.length)

/-- A scalar between quotes. -/
def quotedScalar (s : Scanner) : Except Flaw Scanner := do
  let s ← s.saveCandidate
  let l ← quoted s.rest s.column
  return s.word (.scalar l.text false) l.size

/-- A block of lines that is a scalar. It cannot be a key. -/
def blockLines (s : Scanner) : Except Flaw Scanner := do
  let s ← s.dropCandidate
  let l ← blockScalar s.indent s.rest
  return { (s.emit (.scalar l.text false)).skip l.size with keyAllowed := true }

/-- A plain scalar. -/
def plainScalar (s : Scanner) : Except Flaw Scanner := do
  let s ← s.saveCandidate
  let indent := match s.indent with
    | none => 0
    | some n => n + 1
  let l ← plain s.inFlow indent s.rest s.column
  let s := (s.emit (.scalar l.text true)).skip l.size
  return if l.broke then { s with keyAllowed := true } else { s.skipRemark with keyAllowed := false }

/-- Characters that cannot start a plain scalar. -/
def isIndicator (c : Char) : Bool :=
  c ∈ ['-', '?', ':', ',', '[', ']', '{', '}', '#', '&', '*', '!', '|', '>', '\'', '"', '%', '@', '`']

/-- **One token**, found at a character with what follows it. -/
def tokenAt (s : Scanner) (c : Char) (after : List Char) : Except Flaw Scanner :=
  if s.column == 0 && c == '%' then s.directiveLine
  else if s.column == 0 && atDocumentMark s.rest then
    s.documentMark (if c == '-' then .documentStart else .documentEnd)
  else if c == '[' then s.openBracket .flowSequence
  else if c == '{' then s.openBracket .flowMapping
  else if c == ']' then s.closeBracket .flowSequenceEnd
  else if c == '}' then s.closeBracket .flowMappingEnd
  else if c == ',' then s.comma
  else if c == '-' && atBlank after then s.dash
  else if c == '?' && (s.inFlow || atBlank after) then s.questionMark
  else if c == ':' && (s.inFlow || atBlank after) then s.colon
  else if c == '*' then s.named .alias
  else if c == '&' then s.named .anchor
  else if c == '!' then s.tagged
  else if (c == '|' || c == '>') && !s.inFlow then s.blockLines
  else if c == '\'' || c == '"' then s.quotedScalar
  else if !(isBlank c || isIndicator c) || (c == '-' && !after.head?.any isBlank) ||
      (!s.inFlow && (c == '?' || c == ':') && !atBlank after) then s.plainScalar
  else .error .start

/-- The end of the text, which ends the last line as well. -/
def finish (s : Scanner) : Except Flaw Scanner := do
  let s := if s.column == 0 then s else { s with line := s.line + 1, column := 0 }
  let s ← s.unrollAll.dropCandidate
  return { s.emit .streamEnd with keyAllowed := false }

/-- **One step**: the next token. At the end of the text, every step finds the end again. -/
def next (s : Scanner) : Except Flaw Scanner :=
  let s := s.skipGap.unroll
  match s.rest with
  | [] => s.finish
  | c :: after => s.tokenAt c after

/-! ### Finding tokens ahead -/

/-- The candidate that holds back the first token. -/
def pending? (s : Scanner) : Option Candidate :=
  (s.level :: s.levels).findSome? fun l => l.candidate.filter fun c => c.awaited && c.number == s.used

/-- Whether more tokens have to be found before one can be used. A candidate for which it is too
late is dropped. -/
def wants (s : Scanner) : Except Flaw (Scanner × Bool) :=
  if s.queue.length ≤ 2 then .ok (s, true)
  else match s.pending? with
    | none => .ok (s, false)
    | some c =>
      if !s.late c then .ok (s, true)
      else if c.required then .error .key
      else .ok ({ s with level := s.level.drop c.number, levels := s.levels.map (·.drop c.number) }, false)

/-- Finds tokens until one can be used, in at most as many steps. -/
def fill (s : Scanner) : Nat → Except Flaw Scanner
  | 0 => .ok s
  | n + 1 => do
    let (s, more) ← s.wants
    if more then (← s.next).fill n else return s

/-- **Finds tokens until one can be used.** Every step but the last few takes up some of the
text. -/
def ready (s : Scanner) : Except Flaw Scanner := do
  let (s, more) ← s.wants
  if more then s.fill (s.rest.length + 4) else return s

/-- **Uses a token.** -/
def use (s : Scanner) : Scanner := { s with queue := s.queue.tail, used := s.used + 1 }

end Scanner

/-! ### Texts -/

/-- Whether a character may stand in a text. -/
def isAllowed (c : Char) : Bool :=
  let n := c.toNat
  n == 0x9 || n == 0xa || n == 0xd || (0x20 ≤ n && n ≤ 0x7e) || n == 0x85 ||
    (0xa0 ≤ n && n ≤ 0xfffd) || 0x10000 ≤ n

/-- The text with every end of a line but the two separators of other scripts written as a single
character. -/
def uniformLines : List Char → List Char
  | [] => []
  | '\r' :: '\n' :: s => '\n' :: uniformLines s
  | c :: s => (if c == '\r' || c == '\u0085' then '\n' else c) :: uniformLines s

/-- The mark of the byte order. -/
def orderMark : Char := '\ufeff'

/-- The text without a mark of its byte order. -/
def withoutOrderMark (s : List Char) : List Char := if s.head? == some orderMark then s.tail else s

/-- How many characters of a text fit into some bytes. -/
def charsWithin (bytes : Nat) : List Char → Nat
  | [] => 0
  | c :: s => if c.utf8Size ≤ bytes then charsWithin (bytes - c.utf8Size) s + 1 else 0

/-- How many bytes of a text after the mark of its byte order are in its first piece. -/
def firstPiece : Nat := 509

/-- **The start of a text**, unless it holds a character that cannot stand in it. -/
def Scanner.ofText? (text : String) : Option Scanner :=
  let s := withoutOrderMark text.toList
  if s.all isAllowed then
    some (.start (uniformLines s) (if s.head? == some orderMark then charsWithin firstPiece s else 0))
  else none

end Octet.Markup
