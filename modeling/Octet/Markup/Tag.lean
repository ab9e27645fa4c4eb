import Octet.Markup.Scalar

/-!
# Tags and directives

A tag in front of a value says what the value is. It is an address, written out between angle
brackets, or a short one that begins with a *handle*. What a handle stands for is told by directives
at the top of a document; two handles are known without them.

Only the tags of the usual kinds of scalars mean something here, all others are accepted and without
effect.

## Main definitions

* `address` — the address of a tag, with characters escaped by their bytes
* `tagName` — a tag as it is written
* `Directive`, `directive` — directives at the top of a document
* `Tag`, `Tag.ofAddress` — what a value is said to be
-/

namespace Octet.Markup

/-! ### Addresses -/

/-- Characters of addresses that stand for themselves. -/
def isAddressChar (c : Char) : Bool :=
  isNameChar c ||
    c ∈ [';', '/', '?', ':', '@', '&', '=', '+', '$', ',', '.', '!', '~', '*', '\'', '(', ')', '[', ']']

/-- How many bytes follow the first one of a character, and the bits that the first one gives. -/
def leadingByte? (n : Nat) : Option (Nat × Nat) :=
  if n < 0x80 then some (0, n)
  else if 0xc0 ≤ n && n < 0xe0 then some (1, n % 32)
  else if 0xe0 ≤ n && n < 0xf0 then some (2, n % 16)
  else if 0xf0 ≤ n && n < 0xf8 then some (3, n % 8)
  else none

/-- The address in front of a text, which may be empty, and what follows it. Within an escaped
character, `left` bytes are still to come after those with the bits `value`. -/
def addressFrom (left value : Nat) : List Char → Except Flaw (List Char × List Char)
  | [] => if left == 0 then .ok ([], []) else .error .tag
  | c :: s =>
    if c == '%' then
      match s with
      | high :: low :: s =>
        match Text.hexValue? high, Text.hexValue? low with
        | some h, some l =>
          let n := 16 * h + l
          let found := if left == 0 then leadingByte? n
            else if 0x80 ≤ n && n < 0xc0 then some (left - 1, value * 64 + n % 64)
            else none
          match found with
          | none => .error .tag
          | some (0, value) =>
            match addressFrom 0 0 s with
            | .error e => .error e
            | .ok (read, s) => .ok (Char.ofNat value :: read, s)
          | some (left, value) => addressFrom left value s
        | _, _ => .error .tag
      | _ => .error .tag
    else if left != 0 then .error .tag
    else if isAddressChar c then
      match addressFrom 0 0 s with
      | .error e => .error e
      | .ok (read, s) => .ok (c :: read, s)
    else .ok ([], c :: s)

/-- The address in front of a text, and what follows it. -/
def address (s : List Char) : Except Flaw (List Char × List Char) := addressFrom 0 0 s

/-- An address that is not empty. -/
def someAddress (s : List Char) : Except Flaw (List Char × List Char) := do
  let (read, after) ← address s
  if after.length == s.length then throw .tag
  return (read, after)

/-! ### Tags as they are written -/

/-- A tag as it is written: an address that begins with what a handle stands for. An address that is
written out has no handle. -/
structure TagName where
  handle : String
  suffix : String
  deriving DecidableEq, Repr

/-- The tag in front of a text, and what follows it. An exclamation mark alone has no handle
either. -/
def tagName (s : List Char) : Except Flaw (TagName × List Char) := do
  let (name, s) ← match s with
    | '!' :: '<' :: s =>
      let (suffix, s) ← someAddress s
      match s with
      | '>' :: s => pure ((⟨"", String.ofList suffix⟩ : TagName), s)
      | _ => throw .tag
    | _ :: s =>
      let word := s.takeWhile isNameChar
      match s.drop word.length with
      | '!' :: s =>
        let (suffix, s) ← someAddress s
        pure ((⟨String.ofList ('!' :: word ++ ['!']), String.ofList suffix⟩ : TagName), s)
      | s =>
        let (suffix, s) ← address s
        let suffix := word ++ suffix
        pure ((if suffix.isEmpty then ⟨"", "!"⟩ else ⟨"!", String.ofList suffix⟩ : TagName), s)
    | [] => throw .tag
  if atBlank s then return (name, s) else throw .tag

/-! ### Directives -/

/-- What stands at the top of a document. -/
inductive Directive where
  /-- The version of the format. -/
  | version (major minor : Nat)
  /-- What a handle stands for. -/
  | handle (name address : String)
  deriving DecidableEq, Repr

/-- A number of one or two digits, and what follows it. -/
def versionNumber (s : List Char) : Except Flaw (Nat × List Char) :=
  let digits := s.takeWhile Char.isDigit
  if digits.isEmpty || 2 < digits.length then .error .directive
  else .ok (digits.foldl (fun n c => 10 * n + (c.toNat - 48)) 0, s.drop digits.length)

/-- A handle, which is an exclamation mark or a name between two of them, and what follows it. -/
def handle (s : List Char) : Except Flaw (List Char × List Char) :=
  match s with
  | '!' :: s =>
    let word := s.takeWhile isNameChar
    match s.drop word.length with
    | '!' :: after => .ok ('!' :: word ++ ['!'], after)
    | after => if word.isEmpty then .ok (['!'], after) else .error .directive
  | _ => .error .directive

/-- The directive after the name of its kind, and what follows it. -/
def directiveOf (kind : String) (s : List Char) : Except Flaw (Directive × List Char) :=
  match kind with
  | "YAML" => do
    let (major, s) ← versionNumber (s.dropWhile isBlank)
    match s with
    | '.' :: s =>
      let (minor, s) ← versionNumber s
      return (.version major minor, s)
    | _ => throw .directive
  | "TAG" => do
    let (name, s) ← handle (s.dropWhile isBlank)
    unless s.head?.any isBlank do throw .directive
    let (address, s) ← someAddress (s.dropWhile isBlank)
    unless atBlank s do throw .directive
    return (.handle (String.ofList name) (String.ofList address), s)
  | _ => .error .directive

/-- **A directive** in front of a text, and how many characters it takes up. -/
def directive (s : List Char) : Except Flaw (Directive × Nat) := do
  let kind := s.tail.takeWhile isNameChar
  let after := s.tail.drop kind.length
  unless atBlank after do throw .directive
  let (d, after) ← directiveOf (String.ofList kind) after
  match restOfLine? after with
  | some lines => return (d, s.length - lines.length)
  | none => throw .directive

/-! ### Their meaning -/

/-- What a value is said to be. -/
inductive Tag where
  /-- Nothing is said. -/
  | unspecified
  | text
  | truth
  | integer
  | float
  | nothing
  | time
  /-- Bytes, written with 64 characters. -/
  | binary
  /-- The key of values to merge. -/
  | merge
  /-- Something that has no effect here. -/
  | other
  deriving DecidableEq, Repr

namespace Tag

/-- The address that all tags of the usual kinds begin with. -/
def usual : String := "tag:yaml.org,2002:"

/-- The handles that are known without a directive. -/
def handles : List (String × String) := [("!", "!"), ("!!", usual)]

/-- The tag with an address. -/
def ofAddress (s : String) : Tag :=
  let kind := if s.startsWith usual then "!!" ++ (s.drop usual.length).toString else s
  match kind with
  | "" => .unspecified
  | "!" => .unspecified
  | "!!str" => .text
  | "!!bool" => .truth
  | "!!int" => .integer
  | "!!float" => .float
  | "!!null" => .nothing
  | "!!timestamp" => .time
  | "!!binary" => .binary
  | "!!merge" => .merge
  | _ => .other

/-- The address of a tag as it is written, if its handle is known. -/
def address? (handles : List (String × String)) (name : TagName) : Option String :=
  if name.handle.isEmpty then some name.suffix
  else (handles.lookup name.handle).map (· ++ name.suffix)

end Tag

end Octet.Markup
