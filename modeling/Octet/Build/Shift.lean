import Octet.Build.Arithmetic

/-!
# Shifts and multiplication

A shift by a constant is unrolled bit by bit, with whole bytes moved at once. A shift by a variable
count calls a runtime routine, and so does a multiplication, unless one factor is a constant power
of two.

## Main definitions

* `Build.shiftConstant` — a shift by a constant count
* `Build.shift`, `Build.multiply` — the instructions
-/

namespace Octet

namespace Build

/-- Does something a number of times. -/
def times (n : Nat) (act : Build Unit) : Build Unit := (List.range n).forM fun _ => act

/-- Shifts a byte by a constant count. -/
def shiftByte (dest l : Location) (k : Nat) (left signed : Bool) : Build Unit := do
  let acc ← accumulator
  if k == 0 then move dest l
  else if 8 ≤ k then
    if signed then
      let res ← reserveLoad acc l
      signFill
      storeByte (some acc) dest
      release res
    else move dest (.immediate 0 1)
  else
    let inPlace ← if dest.same l && !dest.isIndirect then shiftByteInPlace dest left signed
      else pure false
    if inPlace then times (k - 1) (discard (shiftByteInPlace dest left signed))
    else
      let res ← reserveLoad acc l
      times k (shiftAccumulator left signed)
      storeByte (some acc) dest
      release res

/-- Shifts a word right by eight bits with its sign, into a destination apart from the
accumulator. -/
def shiftSignedByteDown (dest l : Location) : Build Unit := do
  let acc ← accumulator
  let res ← reserveLoad acc (← byteOf l 1)
  storeByte (some acc) (← byteOf dest 0)
  let pinned ← pinAt (← byteOf dest 0)
  signFill
  storeByte (some acc) (← byteOf dest 1)
  unpin pinned
  release res

/-- Moves one byte of a word to the other place and clears the place it came from. -/
def moveByteAndClear (dest l : Location) (into source : Int) : Build Unit := do
  moveByte (← byteOf dest into) (← byteOf l source)
  let pinned ← pinAt (← byteOf dest into)
  moveByte (← byteOf dest source) (.immediate 0 1)
  unpin pinned

/-- The source itself, or a copy of it if the first byte written would destroy a byte still to be
read. -/
def apartFrom (dest l : Location) (written read : Int) : Build Location := do
  let w ← byteOf dest written
  let r ← byteOf l read
  if w.clobbers r && !dest.same l then toTemporary l else return l

/-- Shifts a word by exactly eight bits. -/
def shiftBytes (dest l : Location) (left signed : Bool) : Build Unit := do
  if left then
    let l ← apartFrom dest l 1 0
    moveByteAndClear dest l 1 0
  else
    let l ← apartFrom dest l 0 1
    if !signed then moveByteAndClear dest l 0 1
    else if dest.holdsAccumulator (← arch) then
      let t ← temporary 2
      let l ← apartFrom t l 0 1
      shiftSignedByteDown t l
      move dest t
    else shiftSignedByteDown dest l

/-- Shifts a word by one to seven bits. -/
def shiftBits (dest l : Location) (k : Nat) (left signed : Bool) : Build Unit := do
  let inPlace ← if dest.same l && !dest.isIndirect then shiftWordInPlace dest left signed
    else pure false
  if inPlace then times (k - 1) (discard (shiftWordInPlace dest left signed))
  else
    let (w, res) ← reserveAny (← arch).shiftScratch [dest]
    let work := Location.ofRegister w
    move work l
    times k do
      unless ← shiftWordInPlace work left signed do throw (.cannotShift w.name)
    move dest work
    release res

/-- Shifts a word by a constant count. -/
def shiftWord (dest l : Location) (k : Nat) (left signed : Bool) : Build Unit := do
  let acc ← accumulator
  if k == 0 then move dest l
  else if 16 ≤ k then
    if signed then
      let res ← reserveLoad acc (← byteOf l 1)
      signFill
      storeByte (some acc) (← byteOf dest 0)
      storeByte (some acc) (← byteOf dest 1)
      release res
    else move dest (.immediate 0 2)
  else if 8 ≤ k then
    shiftBytes dest l left signed
    if 8 < k then shiftBits dest dest (k - 8) left signed
  else shiftBits dest l k left signed

/-- **A shift by a constant count.** -/
def shiftConstant (dest l : Location) (k : Nat) (left signed : Bool) : Build Unit :=
  if dest.width == 2 then shiftWord dest l k left signed else shiftByte dest l k left signed

/-- The kind of the runtime routine for a shift. -/
def shiftRoutine (left signed : Bool) : String :=
  if left then "ShiftLeft" else if signed then "ShiftRightSigned" else "ShiftRight"

/-- Calls the runtime for a shift. -/
def shiftRuntime (dest l r : Location) (left signed : Bool) : Build Unit := do
  let m ← arch
  let value := if dest.width == 2 then m.runtime.wordValue else m.runtime.byteValue
  let counter := m.runtime.counter
  let heldValue ← reserveFor value l
  let heldCounter ← reserveFor counter r
  loadTwo value l counter (← byteOf r 0)
  call (m.routine (shiftRoutine left signed) dest.width)
  move dest (.ofRegister value)
  release heldCounter
  release heldValue

/-- **Shift instructions.** -/
def shift (left : Bool) (dest source count : Operand) : Build Unit := do
  let signed := !left && source.type.signed
  let d ← locate dest
  let l ← locate source
  let r ← locate count
  if d.width == 2 then requireWords [l]
  match r.constant?, l.constant? with
  | some k, some v =>
    let op : BinaryOp := if left then .shl else .shr
    move d (.immediate (fold op v k signed l.width.toNat) d.width)
  | some k, none => shiftConstant d l k.toNat left signed
  | none, _ => shiftRuntime d l r left signed

/-- The exponent of a power of two. -/
def exponent (k : Int) : Nat := k.toNat.log2

/-- Whether a constant is a power of two. -/
def isPowerOfTwo (k : Int) : Bool := Bits.and k (k - 1) == 0

/-- Calls the runtime for a multiplication. -/
def multiplyRuntime (dest l r : Location) : Build Unit := do
  let m ← arch
  let word := dest.width == 2
  let value := if word then m.runtime.wordValue else m.runtime.byteValue
  let factor := if word then m.runtime.wordOperand else m.runtime.byteOperand
  let crossed := (Location.ofRegister value).clobbers r && (Location.ofRegister factor).clobbers l
  let (l, r) := if crossed then (r, l) else (l, r)
  let heldValue ← reserveFor value l
  let heldFactor ← reserveFor factor r
  loadTwo value l factor r
  call (m.routine "Multiply" dest.width)
  move dest (.ofRegister value)
  release heldFactor
  release heldValue

/-- **Multiplication.** -/
def multiply (dest left right : Operand) : Build Unit := do
  let d ← locate dest
  let l ← locate left
  let r ← locate right
  if d.width == 2 then requireWords [l, r]
  match ← constants .mul left.type.signed d l r with
  | none => return
  | some (l, r) =>
    match r.constant? with
    | some k =>
      if k == 0 then move d (.immediate 0 d.width)
      else if k == 1 then move d l
      else if isPowerOfTwo k then shiftConstant d l (exponent k) true false
      else multiplyRuntime d l r
    | none => multiplyRuntime d l r

end Build

end Octet
