import Octet.Text.Printable

/-!
# Quoted text

Text is shown between double quotes, with a backslash before a quote or a backslash, letters for the
seven common control characters, and hexadecimal escapes for everything else that is not printable.

A string literal of a program is a sequence of bytes, not of characters: an escape may put any byte
into it. `quoteBytes` therefore reads bytes as UTF-8 where it can, and writes a byte that belongs to
no character as an escape of its own.

## Main definitions

* `Text.quote`, `Text.quoteBytes` — the quoted form of characters and of bytes
* `Text.unquote?` — the bytes a quoted literal denotes
-/

namespace Octet.Text

/-! ### Hexadecimal digits -/

/-- The lower case hexadecimal digit of a number below sixteen. -/
def hexDigit (n : Nat) : Char :=
  if n < 10 then Char.ofNat (48 + n) else Char.ofNat (87 + n)

/-- `width` hexadecimal digits of `n`, most significant first. -/
def hexDigits : Nat → Nat → List Char
  | 0, _ => []
  | width + 1, n => hexDigits width (n / 16) ++ [hexDigit (n % 16)]

/-- The value of a hexadecimal digit of either case. -/
def hexValue? (c : Char) : Option Nat :=
  if '0' ≤ c && c ≤ '9' then some (c.toNat - 48)
  else if 'a' ≤ c && c ≤ 'f' then some (c.toNat - 87)
  else if 'A' ≤ c && c ≤ 'F' then some (c.toNat - 55)
  else none

/-! ### Escapes -/

/-- The letter that stands for a control character after a backslash. -/
def controlLetter? (n : Nat) : Option Char :=
  match n with
  | 7 => some 'a'
  | 8 => some 'b'
  | 9 => some 't'
  | 10 => some 'n'
  | 11 => some 'v'
  | 12 => some 'f'
  | 13 => some 'r'
  | _ => none

/-- The control character that a letter stands for after a backslash. -/
def controlValue? (c : Char) : Option Nat :=
  match c with
  | 'a' => some 7
  | 'b' => some 8
  | 't' => some 9
  | 'n' => some 10
  | 'v' => some 11
  | 'f' => some 12
  | 'r' => some 13
  | _ => none

/-- One character as it stands between quotes. -/
def escape (c : Char) : List Char :=
  if c == '"' || c == '\\' then ['\\', c]
  else if isPrintable c then [c]
  else match controlLetter? c.toNat with
    | some l => ['\\', l]
    | none =>
      if c.toNat < 128 then '\\' :: 'x' :: hexDigits 2 c.toNat
      else if c.toNat < 0x10000 then '\\' :: 'u' :: hexDigits 4 c.toNat
      else '\\' :: 'U' :: hexDigits 8 c.toNat

/-- The text between double quotes, escaped. -/
def quote (s : String) : String :=
  String.ofList ('"' :: s.toList.flatMap escape ++ ['"'])

/-! ### Bytes -/

/-- Whether a byte continues a character in UTF-8. -/
def isContinuation (b : UInt8) : Bool := 0x80 ≤ b && b < 0xc0

/-- The character at the front of a sequence of bytes in UTF-8, with the number of bytes it takes.
Overlong forms, surrogates and values beyond the last code point are no characters. -/
def leadingChar? : List UInt8 → Option (Char × Nat)
  | [] => none
  | b :: rest =>
    let build (n len least : Nat) : Option (Char × Nat) :=
      if least ≤ n && n.isValidChar then some (Char.ofNat n, len) else none
    if b < 0x80 then some (Char.ofNat b.toNat, 1)
    else if 0xc0 ≤ b && b < 0xe0 then
      match rest with
      | c :: _ =>
        if isContinuation c then build ((b.toNat - 0xc0) * 64 + (c.toNat - 0x80)) 2 0x80 else none
      | _ => none
    else if 0xe0 ≤ b && b < 0xf0 then
      match rest with
      | c :: d :: _ =>
        if isContinuation c && isContinuation d then
          build (((b.toNat - 0xe0) * 64 + (c.toNat - 0x80)) * 64 + (d.toNat - 0x80)) 3 0x800
        else none
      | _ => none
    else if 0xf0 ≤ b && b < 0xf8 then
      match rest with
      | c :: d :: e :: _ =>
        if isContinuation c && isContinuation d && isContinuation e then
          build ((((b.toNat - 0xf0) * 64 + (c.toNat - 0x80)) * 64 + (d.toNat - 0x80)) * 64 +
            (e.toNat - 0x80)) 4 0x10000
        else none
      | _ => none
    else none

/-- The bytes as they stand between quotes; the number bounds how many characters are read. -/
def escapeBytes : Nat → List UInt8 → List Char
  | 0, _ => []
  | _, [] => []
  | n + 1, b :: rest =>
    match leadingChar? (b :: rest) with
    | some (c, len) => escape c ++ escapeBytes n ((b :: rest).drop len)
    | none => '\\' :: 'x' :: hexDigits 2 b.toNat ++ escapeBytes n rest

/-- The bytes between double quotes, escaped. -/
def quoteBytes (s : List UInt8) : String :=
  String.ofList ('"' :: escapeBytes s.length s ++ ['"'])

/-! ### Reading a literal -/

/-- The value of a fixed number of digits in front of the text, and what follows them. -/
def takeDigits? (base : Nat) : Nat → Nat → List Char → Option (Nat × List Char)
  | 0, acc, s => some (acc, s)
  | _ + 1, _, [] => none
  | n + 1, acc, c :: s =>
    match hexValue? c with
    | some d => if d < base then takeDigits? base n (acc * base + d) s else none
    | none => none

/-- The bytes of a character with code point `n`, if there is one. -/
def bytesOf? (n : Nat) : Option (List UInt8) :=
  if n.isValidChar then some (String.utf8EncodeChar (Char.ofNat n)) else none

/-- The bytes an escape denotes, read after its backslash, and what follows it. -/
def escaped? : List Char → Option (List UInt8 × List Char)
  | [] => none
  | 'x' :: s => (takeDigits? 16 2 0 s).map fun (v, r) => ([v.toUInt8], r)
  | 'u' :: s => (takeDigits? 16 4 0 s).bind fun (v, r) => (bytesOf? v).map (·, r)
  | 'U' :: s => (takeDigits? 16 8 0 s).bind fun (v, r) => (bytesOf? v).map (·, r)
  | '\\' :: s => some ([92], s)
  | '"' :: s => some ([34], s)
  | c :: s =>
    if '0' ≤ c && c ≤ '7' then
      (takeDigits? 8 3 0 (c :: s)).bind fun (v, r) => if v < 256 then some ([v.toUInt8], r) else none
    else (controlValue? c).map fun v => ([v.toUInt8], s)

/-- The bytes up to the closing quote, which must end the text; the number bounds how many
characters and escapes are read. -/
def unquoteBody? : Nat → List Char → Option (List UInt8)
  | 0, _ => none
  | _, [] => none
  | n + 1, c :: s =>
    if c == '"' then if s.isEmpty then some [] else none
    else if c == '\n' then none
    else if c == '\\' then
      match escaped? s with
      | some (bytes, r) => (unquoteBody? n r).map (bytes ++ ·)
      | none => none
    else (unquoteBody? n s).map (String.utf8EncodeChar c ++ ·)

/-- The bytes denoted by a literal in double quotes. -/
def unquote? : List Char → Option (List UInt8)
  | '"' :: s => unquoteBody? s.length s
  | _ => none

end Octet.Text
