import Octet.Build.Operate

/-!
# Arithmetic and bitwise instructions

Constants are computed at once. A lone constant goes to the right where the operator allows. Adding
or subtracting a small constant in place is done by counting; a bitwise operation with a mask of all
zeros or all ones is a move. Everything else goes through the accumulator: bytes in one operation,
words by an instruction of the machine or as a chain of two bytes with carry. A chain whose low byte
would destroy a high byte still to be read is computed in a temporary first.

A signed byte in a word operation would have to be extended, and is refused.

## Main definitions

* `fold` — an operator on constants
* `Build.stepInPlace` — adding by counting
* `Build.addOrSubtract`, `Build.bitwise` — the binary instructions
* `Build.negate` — negation and complement
-/

namespace Octet

/-- An operator on constants. Shift counts beyond a word shift everything out. -/
def fold (op : BinaryOp) (a b : Int) (signed : Bool) (width : Nat) : Int :=
  match op with
  | .add => a + b
  | .sub => a - b
  | .and => Bits.and a b
  | .or => Bits.or a b
  | .xor => Bits.xor a b
  | .mul => a * b
  | .shl => Bits.shl a (min b 16).toNat
  | .shr => Bits.shr (normalize a signed width) (min b 16).toNat

/-- Whether writing the low byte of a location destroys the high byte of an operand. -/
def Location.clobbersHigh? (dest : Location) (operands : List Location) : Option Bool := do
  let low ← dest.byte? 0
  let highs ← operands.mapM (·.byte? 1)
  return highs.any low.clobbers

namespace Build

/-- Whether writing the low byte of a location destroys the high byte of an operand. -/
def clobbersHigh (dest : Location) (operands : List Location) : Build Bool :=
  present (dest.clobbersHigh? operands)

/-- Refuses signed bytes in a word operation. -/
def requireWords (ls : List Location) : Build Unit :=
  match ls.find? fun l => l.width == 1 && l.signed with
  | some l => throw (.unsupportedOperand l.text)
  | none => return

/-! ### Constants -/

/-- The operands with a lone constant on the right, or none if both were constants and the result
has been moved to the destination. -/
def constants (op : BinaryOp) (signed : Bool) (dest l r : Location) :
    Build (Option (Location × Location)) := do
  match l.constant?, r.constant? with
  | some a, some b =>
    move dest (.immediate (fold op a b signed dest.width.toNat) dest.width)
    return none
  | some _, none => return some (if op.commutative then (r, l) else (l, r))
  | none, _ => return some (l, r)

/-! ### Counting -/

/-- Counts a location some more times after the first. -/
def stepAgain (l : Location) (down : Bool) : Nat → Nat → Build Unit
  | _, 0 => return
  | count, n + 1 => do
    if ← step l down then stepAgain l down (count + 1) n
    else throw (.stepStopped l.text count)

/-- The count and direction in which a constant is added in place to a value of some bits: the
shorter way round. -/
def stepCount (op : BinaryOp) (bits : Nat) (k : Int) : Int × Bool :=
  let down := op == .sub
  let range := Bits.shifted bits
  if range.tdiv 2 ≤ k then (range - k, !down) else (k, down)

/-- **Adds a constant by counting**, if the destination is the left operand, is not behind a
pointer, and the count is below the threshold. -/
def stepInPlace (op : BinaryOp) (dest l : Location) (k : Int) : Build Bool := do
  if !dest.same l || dest.isIndirect then return false
  let (count, down) := stepCount op (← present (Bits.count? dest.width)) k
  if count ≤ 0 || (← read).target.threshold ≤ count then return false
  if ← step dest down then
    stepAgain dest down 1 (count.toNat - 1)
    return true
  return false

/-! ### Bytes -/

/-- Computes on bytes in the accumulator. -/
def byteBinary (op : BinaryOp) (dest l r : Location) : Build Unit := do
  let acc ← accumulator
  let (l, r) := if op.commutative && r.isIn acc && !l.isIn acc then (r, l) else (l, r)
  let r ← if r.isIn acc then toTemporaryByte (some acc) else pure r
  match (← arch).operation? op false with
  | none => throw (.noAccumulatorForm op.text)
  | some operation =>
    let res ← reserveLoad acc l
    operate operation r
    storeByte (some acc) dest
    flagsAlso dest
    release res

/-- What a bitwise operation with a constant byte is, if it needs no operation: the constant or the
other operand. -/
def bitShortcut (op : BinaryOp) (l : Location) (k : Int) : Option Location :=
  match op with
  | .and => if k == 0 then some (.immediate 0 1) else if k == 0xff then some l else none
  | .or => if k == 0xff then some (.immediate 0xff 1) else if k == 0 then some l else none
  | _ => if k == 0 then some l else none

/-- Computes a bitwise operation on bytes. -/
def bitByte (op : BinaryOp) (signed : Bool) (dest l r : Location) : Build Unit := do
  match ← constants op signed dest l r with
  | none => return
  | some (l, r) =>
    match r.constant?.bind (bitShortcut op l) with
    | some source => move dest source
    | none => byteBinary op dest l r

/-! ### Words -/

/-- Pins the registers that hold high bytes, apart from the accumulator. -/
def holdHigh : List Location → Build (List Reservation)
  | [] => return []
  | o :: os => do
    let high ← byteOf o 1
    if high.isRegister && !high.uses (← accumulator) then
      let held ← pin high.register?
      return (← holdHigh os) ++ [held]
    else holdHigh os

/-- Adds or subtracts words byte by byte, with the carry. -/
def carryChain (op : BinaryOp) (dest l r : Location) : Build Unit := do
  let acc ← accumulator
  let r ← if r.isRegister && r.uses acc then toTemporary r else pure r
  let res ← reserveLoad acc (← byteOf l 0)
  let held ← holdHigh [l, r]
  let low ← byteOf r 0
  unless low.isZero do operateWith op false low
  storeByte (some acc) (← byteOf dest 0)
  let pinned ← pinAt (← byteOf dest 0)
  loadByte (some acc) (← byteOf l 1)
  operateWith op (!low.isZero) (← byteOf r 1)
  storeByte (some acc) (← byteOf dest 1)
  flagsAlso (← byteOf dest 1)
  unpin pinned
  held.forM release
  release res

/-- Adds or subtracts words. The last argument bounds how often the result is computed in a
temporary first: once for the destination, and once for each temporary that an operand is reached
through. -/
def wordArithmetic (op : BinaryOp) (dest l r : Location) : Nat → Build Unit
  | 0 => carryChain op dest l r
  | n + 1 => do
    if ← nativeBinary op dest l r then
      written dest
    else if ← clobbersHighOrAccumulator then
      let t ← temporary 2
      wordArithmetic op t l r n
      move dest t
    else carryChain op dest l r
where
  clobbersHighOrAccumulator : Build Bool := do
    if ← clobbersHigh dest [l, r] then return true
    return dest.holdsAccumulator (← arch)

/-- How often a word operation moves on to another temporary. -/
def temporaryBound : Nat := 4

/-- Computes a bitwise operation on words byte by byte. -/
def bitHalves (op : BinaryOp) (signed : Bool) (dest l r : Location) : Build Unit := do
  let held ← holdHigh [l, r]
  bitByte op signed (← byteOf dest 0) (← byteOf l 0) (← byteOf r 0)
  let pinned ← pinAt (← byteOf dest 0)
  bitByte op signed (← byteOf dest 1) (← byteOf l 1) (← byteOf r 1)
  unpin pinned
  held.forM release

/-- Computes a bitwise operation on words. The last argument is as for `wordArithmetic`. -/
def wordBit (op : BinaryOp) (signed : Bool) (dest l r : Location) : Nat → Build Unit
  | 0 => bitHalves op signed dest l r
  | n + 1 => do
    match ← constants op signed dest l r with
    | none => return
    | some (l, r) =>
      if ← nativeBinary op dest l r then
        written dest
      else if ← clobbersHigh dest [l, r] then
        let t ← temporary 2
        wordBit op signed t l r n
        move dest t
      else bitHalves op signed dest l r

/-! ### Instructions -/

/-- **Addition and subtraction.** -/
def addOrSubtract (op : BinaryOp) (dest left right : Operand) : Build Unit := do
  let d ← locate dest
  let l ← locate left
  let r ← locate right
  let word := dest.type.byteCount == 2
  if word then requireWords [l, r]
  match ← constants op left.type.signed d l r with
  | none => return
  | some (l, r) =>
    if r.isZero then move d l
    else
      let counted ← match r.constant? with
        | some k => stepInPlace op d l k
        | none => pure false
      unless counted do
        if word then wordArithmetic op d l r temporaryBound else byteBinary op d l r

/-- **Bitwise operations.** -/
def bitwise (op : BinaryOp) (dest left right : Operand) : Build Unit := do
  let d ← locate dest
  let l ← locate left
  let r ← locate right
  if dest.type.byteCount == 2 then
    requireWords [l, r]
    wordBit op left.type.signed d l r temporaryBound
  else bitByte op left.type.signed d l r

/-- Negates or complements a location that is no constant. -/
def negateLocated (op : UnaryOp) (dest l : Location) : Build Unit := do
  let acc ← accumulator
  let res ← reserveLoad acc (← byteOf l 0)
  complement
  if op == .neg then operateWith .add false (.immediate 1 1)
  storeByte (some acc) (← byteOf dest 0)
  if dest.width == 2 then
    let pinned ← pinAt (← byteOf dest 0)
    loadByte (some acc) (← byteOf l 1)
    complement
    if op == .neg then operateWith .add true (.immediate 0 1)
    storeByte (some acc) (← byteOf dest 1)
    unpin pinned
  release res

/-- **Negation and complement.** -/
def negate (op : UnaryOp) (dest source : Operand) : Build Unit := do
  let d ← locate dest
  let l ← locate source
  match l.constant? with
  | some v =>
    let value := match op with
      | .neg => -v
      | .complement => Bits.not v
    move d (.immediate value d.width)
  | none =>
    let apart ← if d.width == 2 then
        let overlap ← clobbersHigh d [l]
        pure (overlap || d.holdsAccumulator (← arch))
      else pure false
    if apart then
      let t ← temporary 2
      negateLocated op t l
      move d t
    else negateLocated op d l

end Build

end Octet
