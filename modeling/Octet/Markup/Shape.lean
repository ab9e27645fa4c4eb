import Octet.Markup.Tag
import Octet.Text.Numeral

/-!
# What the text of a scalar looks like

A tag says what a scalar is, and its text has to look like that: a number is written with digits, a
truth value is one of a few words. Text without a tag is taken as it stands, except that a few plain
words stand for nothing.

## Main definitions

* `isNothing`, `isTruth`, `isInteger`, `isFloat`, `isTime` — what text looks like
* `ofBase64?` — bytes written with 64 characters
* `Tag.reading` — the text of a scalar with a tag
-/

namespace Octet.Markup

/-- The words for nothing. -/
def isNothing (s : String) : Bool := s ∈ ["", "~", "null", "Null", "NULL"]

/-- The words for truth values. -/
def isTruth (s : String) : Bool := s ∈ ["true", "True", "TRUE", "false", "False", "FALSE"]

/-! ### Numbers -/

/-- Whether text begins like a number. -/
def startsNumber (s : List Char) : Bool := s.head?.any fun c => c == '+' || c == '-' || c.isDigit

/-- Whether digits of a base after a sign are an integer of 64 bits. -/
def isSigned (base : Nat) (s : List Char) : Bool :=
  let (negative, digits) := Text.splitSign s
  !digits.isEmpty &&
    match Text.magnitude base (Bits.modulus 64 - 1) false 0 digits with
    | .ok n => (Text.withSign 64 negative n).isOk
    | .error _ => false

/-- Whether text is a signed integer of 64 bits. Underscores are dropped; the sign may also follow
the mark of base 2 or 8. -/
def isSmallInteger (s : List Char) : Bool :=
  let digits := s.filter (· != '_')
  startsNumber s &&
    ((Text.literal 64 digits).isOk ||
      match digits with
      | '0' :: 'b' :: s => isSigned 2 s
      | '0' :: 'o' :: s => isSigned 8 s
      | _ => false)

/-- Whether text is an integer of 64 bits, with or without a sign. -/
def isInteger (s : List Char) : Bool :=
  isSmallInteger s ||
    (startsNumber s && (Text.unsignedLiteral (Bits.modulus 64 - 1) (s.filter (· != '_'))).isOk)

/-- The digits in front of a text, and what follows them. -/
def digits (s : List Char) : List Char × List Char := s.span Char.isDigit

/-- The parts of a decimal fraction after its sign: the digits, how many of them stand after the
point, and the exponent. -/
def decimalParts? (s : List Char) : Option (List Char × Nat × Int) := do
  let (whole, s) := digits s
  let (fraction, s) := match s with
    | '.' :: s => digits s
    | s => ([], s)
  if whole.isEmpty && fraction.isEmpty then none
  else match s with
    | [] => some (whole ++ fraction, fraction.length, 0)
    | c :: s =>
      let (negative, s) := Text.splitSign s
      let (exponent, s) := digits s
      if (c != 'e' && c != 'E') || exponent.isEmpty || !s.isEmpty then none
      else
        let n : Int := exponent.foldl (fun n c => 10 * n + (c.toNat - 48)) 0
        some (whole ++ fraction, fraction.length, if negative then -n else n)

/-- Whether a number of some digits, times a power of ten, is too large for a float of 64 bits after
rounding. -/
def overflows (value length : Nat) (exponent : Int) : Bool :=
  let limit := Bits.modulus 1024 - Bits.modulus 970
  if value == 0 || exponent + length < 300 then false
  else if 310 < exponent + length then true
  else if exponent < 0 then limit * Nat.pow 10 exponent.natAbs ≤ value
  else limit ≤ value * Nat.pow 10 exponent.natAbs

/-- Whether text is a decimal fraction that a float of 64 bits can hold. -/
def isDecimal (s : List Char) : Bool :=
  match decimalParts? (Text.splitSign s).2 with
  | none => false
  | some (digits, places, exponent) =>
    let digits := digits.dropWhile (· == '0')
    let value := digits.foldl (fun n c => 10 * n + (c.toNat - 48)) 0
    !overflows value digits.length (exponent - places)

/-- Whether text is a float. Whole numbers are floats as well. -/
def isFloat (s : List Char) : Bool :=
  String.ofList s ∈ [".nan", ".NaN", ".NAN", ".inf", ".Inf", ".INF", "+.inf", "+.Inf", "+.INF",
    "-.inf", "-.Inf", "-.INF"] ||
  (if s.head? == some '.' then isDecimal s
    else isSmallInteger s ||
      (startsNumber s && !isInteger s && isDecimal (s.filter (· != '_'))))

/-! ### Times -/

/-- A number of one or two digits, and what follows it. -/
def shortNumber? (s : List Char) : Option (Nat × List Char) :=
  match s with
  | a :: b :: s =>
    if !a.isDigit then none
    else if b.isDigit then some (10 * (a.toNat - 48) + (b.toNat - 48), s)
    else some (a.toNat - 48, b :: s)
  | [a] => if a.isDigit then some (a.toNat - 48, []) else none
  | [] => none

/-- What follows a character that has to stand in front. -/
def after? (c : Char) (s : List Char) : Option (List Char) :=
  if s.head? == some c then some s.tail else none

/-- How many days a month has. -/
def daysOf (year month : Nat) : Nat :=
  if month == 2 then
    if year % 4 == 0 && (year % 100 != 0 || year % 400 == 0) then 29 else 28
  else if month ∈ [4, 6, 9, 11] then 30
  else 31

/-- What follows a date. -/
def date? (s : List Char) : Option (List Char) := do
  let (year, s) := digits s
  if year.length != 4 then none
  let (month, s) ← shortNumber? (← after? '-' s)
  let (day, s) ← shortNumber? (← after? '-' s)
  let year := year.foldl (fun n c => 10 * n + (c.toNat - 48)) 0
  if 1 ≤ month && month ≤ 12 && 1 ≤ day && day ≤ daysOf year month then some s else none

/-- What follows a time of the day. -/
def clock? (s : List Char) : Option (List Char) := do
  let (hour, s) ← shortNumber? s
  let (minute, s) ← shortNumber? (← after? ':' s)
  let (second, s) ← shortNumber? (← after? ':' s)
  if 24 ≤ hour || 60 ≤ minute || 60 ≤ second then none
  else match s with
    | c :: d :: s =>
      if (c == '.' || c == ',') && d.isDigit then some (s.dropWhile Char.isDigit) else some (c :: d :: s)
    | s => some s

/-- Whether text is the offset of a time zone. -/
def isZone (s : List Char) : Bool :=
  match s with
  | ['Z'] => true
  | [sign, a, b, ':', c, d] =>
    (sign == '+' || sign == '-') && [a, b, c, d].all Char.isDigit &&
      10 * (a.toNat - 48) + (b.toNat - 48) ≤ 24 && 10 * (c.toNat - 48) + (d.toNat - 48) ≤ 60
  | _ => false

/-- Whether text is a date, or a date with a time of the day. -/
def isTime (s : List Char) : Bool :=
  match date? s with
  | none => false
  | some [] => true
  | some (c :: s) =>
    match clock? s with
    | none => false
    | some s => if c == 'T' || c == 't' then isZone s else c == ' ' && s.isEmpty

/-! ### Bytes -/

/-- The value of one of the 64 characters that bytes are written with. -/
def sextet? (c : Char) : Option Nat :=
  if 'A' ≤ c && c ≤ 'Z' then some (c.toNat - 65)
  else if 'a' ≤ c && c ≤ 'z' then some (c.toNat - 71)
  else if '0' ≤ c && c ≤ '9' then some (c.toNat + 4)
  else if c == '+' then some 62
  else if c == '/' then some 63
  else none

/-- The bytes that are written with 64 characters, in groups of four. The last group may be filled
up with equals signs. -/
def sextets? : List Char → Option (List UInt8)
  | [] => some []
  | a :: b :: c :: d :: s => do
    let x ← sextet? a
    let y ← sextet? b
    let first := (4 * x + y / 16).toUInt8
    if d == '=' && s.isEmpty then
      if c == '=' then some [first]
      else some [first, (16 * y + (← sextet? c) / 4).toUInt8]
    else
      let z ← sextet? c
      let w ← sextet? d
      return first :: (16 * y + z / 4).toUInt8 :: (64 * z + w).toUInt8 :: (← sextets? s)
  | _ => none

/-- The characters of bytes in UTF-8; the number bounds how many are read. A byte that belongs to no
character becomes the replacement character. -/
def charsOf : Nat → List UInt8 → List Char
  | 0, _ => []
  | _, [] => []
  | n + 1, b :: rest =>
    match Text.leadingChar? (b :: rest) with
    | some (c, size) => c :: charsOf n ((b :: rest).drop size)
    | none => '\ufffd' :: charsOf n rest

/-- The text whose bytes are written with 64 characters. Line breaks do not count. -/
def ofBase64? (s : List Char) : Option String :=
  (sextets? (s.filter fun c => c != '\r' && c != '\n')).map fun bytes =>
    String.ofList (charsOf bytes.length bytes)

/-! ### Tags -/

/-- **The text of a scalar**, or none if it stands for nothing. Text that does not look like what
the tag says is a flaw. -/
def Tag.reading (tag : Tag) (isPlain : Bool) (text : String) : Except Flaw (Option String) :=
  let fits (fit : Bool) : Except Flaw (Option String) :=
    if fit then .ok (some text) else .error .misfit
  match tag with
  | .unspecified => .ok (if isPlain && isNothing text then none else some text)
  | .nothing => if isNothing text then .ok none else .error .misfit
  | .truth => fits (isTruth text)
  | .integer => fits (isInteger text.toList)
  | .float => fits (isFloat text.toList)
  | .time => fits (isTime text.toList)
  | .binary =>
    match ofBase64? text.toList with
    | some text => .ok (some text)
    | none => .error .misfit
  | .text => .ok (some text)
  | .merge => .ok (some text)
  | .other => .ok (some text)

end Octet.Markup
