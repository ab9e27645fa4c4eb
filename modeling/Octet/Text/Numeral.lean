import Octet.Bits

/-!
# Numerals

Two forms of integers are read. A *literal* has an optional sign, an optional base (`0x`, `0b`,
`0o`, or a leading zero for eight) and digits, between which single underscores may stand. A
*decimal* has an optional sign and digits only.

Both are read into a given number of bits, and a numeral that does not fit is told apart from one
that is malformed.

## Main definitions

* `Text.literal` — reads a literal into a signed integer of some bits
* `Text.decimal` — reads a decimal the same way
* `Text.hexText` — the text of a number in hexadecimal with its mark
-/

namespace Octet.Text

/-- Why a numeral cannot be read. -/
inductive NumeralError where
  | malformed
  | outOfRange
  deriving DecidableEq, Repr

/-- The value of a digit of some base up to 36, of either case. -/
def digitValue? (c : Char) : Option Nat :=
  if '0' ≤ c && c ≤ '9' then some (c.toNat - 48)
  else if 'a' ≤ c && c ≤ 'z' then some (c.toNat - 87)
  else if 'A' ≤ c && c ≤ 'Z' then some (c.toNat - 55)
  else none

/-- The value of digits read one by one after `acc`. Underscores are passed over when `gaps` is set.
The first digit that leaves `bound` behind makes the numeral too large, whatever follows it. -/
def magnitude (base bound : Nat) (gaps : Bool) : Nat → List Char → Except NumeralError Nat
  | acc, [] => .ok acc
  | acc, c :: s =>
    if gaps && c == '_' then magnitude base bound gaps acc s
    else match digitValue? c with
      | none => .error .malformed
      | some d =>
        if d < base then
          if acc * base + d ≤ bound then magnitude base bound gaps (acc * base + d) s
          else .error .outOfRange
        else .error .malformed

/-- What the previous character was, for the placement of underscores. -/
inductive Seen where
  | start
  | digit
  | gap
  | other
  deriving DecidableEq, Repr

/-- Whether every underscore stands after a digit and before another one. -/
def gapsPlaced (hex : Bool) : Seen → List Char → Bool
  | seen, [] => seen != .gap
  | seen, c :: s =>
    let isDigit := ('0' ≤ c && c ≤ '9') ||
      (hex && (('a' ≤ c && c ≤ 'f') || ('A' ≤ c && c ≤ 'F')))
    if isDigit then gapsPlaced hex .digit s
    else if c == '_' then seen == .digit && gapsPlaced hex .gap s
    else seen != .gap && gapsPlaced hex .other s

/-- The base that a letter after a leading zero selects. -/
def baseOf? (c : Char) : Option Nat :=
  match c with
  | 'b' => some 2
  | 'B' => some 2
  | 'o' => some 8
  | 'O' => some 8
  | 'x' => some 16
  | 'X' => some 16
  | _ => none

/-- An unsigned literal, up to `bound`. A base letter counts only when a digit or more follows
it. -/
def unsignedLiteral (bound : Nat) (s : List Char) : Except NumeralError Nat := do
  let (base, digits) := match s with
    | '0' :: c :: d :: rest =>
      match baseOf? c with
      | some b => (b, d :: rest)
      | none => (8, c :: d :: rest)
    | '0' :: rest => (8, rest)
    | _ => (10, s)
  if s.isEmpty then throw .malformed
  let n ← magnitude base bound true 0 digits
  if s.contains '_' then
    let placed := match s with
      | '0' :: c :: rest =>
        match baseOf? c with
        | some b => gapsPlaced (b == 16) .digit rest
        | none => gapsPlaced false .start s
      | _ => gapsPlaced false .start s
    unless placed do throw .malformed
  return n

/-- The sign in front of a numeral, and the rest of it. -/
def splitSign : List Char → Bool × List Char
  | '-' :: s => (true, s)
  | '+' :: s => (false, s)
  | s => (false, s)

/-- A magnitude with its sign, as a signed integer of `bits` bits. -/
def withSign (bits : Nat) (negative : Bool) (n : Nat) : Except NumeralError Int :=
  let half := Bits.modulus (bits - 1)
  if negative then if n ≤ half then .ok (-(n : Int)) else .error .outOfRange
  else if n < half then .ok n else .error .outOfRange

/-- **An integer literal** as a signed integer of `bits` bits. -/
def literal (bits : Nat) (s : List Char) : Except NumeralError Int := do
  let (negative, digits) := splitSign s
  withSign bits negative (← unsignedLiteral (Bits.modulus bits - 1) digits)

/-- An integer literal of 32 bits, if it is one. -/
def literal? (s : List Char) : Option Int := (literal 32 s).toOption

/-- **A decimal** as a signed integer of `bits` bits. -/
def decimal (bits : Nat) (s : List Char) : Except NumeralError Int := do
  let (negative, digits) := splitSign s
  if digits.isEmpty then throw .malformed
  withSign bits negative (← magnitude 10 (Bits.modulus bits - 1) false 0 digits)

/-- The digits of a number in hexadecimal after the mark `0x`, with a sign in front if there is
one. -/
def hexText (n : Int) : String :=
  let digits := "0x" ++ String.ofList (Nat.toDigits 16 n.natAbs)
  if n < 0 then "-" ++ digits else digits

end Octet.Text
