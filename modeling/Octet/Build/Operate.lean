import Octet.Build.Reach

/-!
# Operations of the machines

What a machine can do in one place: accumulator operations with an operand anywhere, counting a byte
or a word up or down, testing a byte, shifting by one bit, and complementing. An operation that a
machine has no instruction for at the given place is declined, and the caller takes another way.

## Main definitions

* `Operation`, `Arch.operation?`, `Build.operate` — accumulator operations
* `Build.stepByte`, `Build.stepWord`, `Build.step` — counting in place
* `Build.testByte` — making the flags show a byte
* `Build.shiftAccumulator`, `Build.shiftByteInPlace`, `Build.shiftWordInPlace` — shifts by one bit
* `Build.nativeBinary` — word operations by an instruction of the machine
-/

namespace Octet

open Assembly

/-! ### Accumulator operations -/

/-- An accumulator operation in its two forms. -/
structure Operation where
  /-- The mnemonic with an operand in a register or in memory. -/
  register : String
  /-- The mnemonic with a constant operand. -/
  immediate : String
  /-- What comes first, such as clearing the carry. -/
  setup : Option String
  deriving DecidableEq, Repr

/-- The accumulator form of an operator. With `carry` the carry of a lower byte is taken in. -/
def Arch.operation? (m : Arch) (op : BinaryOp) (carry : Bool) : Option Operation :=
  match m, op with
  | .i8080, .add => some (if carry then ⟨"adc", "aci", none⟩ else ⟨"add", "adi", none⟩)
  | .i8080, .sub => some (if carry then ⟨"sbb", "sbi", none⟩ else ⟨"sub", "sui", none⟩)
  | .i8080, .and => some ⟨"ana", "ani", none⟩
  | .i8080, .or => some ⟨"ora", "ori", none⟩
  | .i8080, .xor => some ⟨"xra", "xri", none⟩
  | _, .add => some ⟨"adc", "adc", if carry then none else some "clc"⟩
  | _, .sub => some ⟨"sbc", "sbc", if carry then none else some "sec"⟩
  | _, .and => some ⟨"and", "and", none⟩
  | _, .or => some ⟨"ora", "ora", none⟩
  | _, .xor => some ⟨"eor", "eor", none⟩
  | _, .shl | _, .shr | _, .mul => none

namespace Intel

/-- Points `hl` at memory at a symbol. -/
def pointAt (l : Location) : Build Reservation := do
  let held ← Build.reserve hl
  Build.emit "lxi" [.reg "h", .symbol l.symbol l.offset .whole]
  return held

end Intel

namespace Build

/-- Makes a register or memory at a symbol an operand of an accumulator instruction. -/
def directOperand (l : Location) : Build (Arg × Option Reservation) := do
  match ← arch, l.place with
  | .i8080, .register r => return (← Intel.regArg r, none)
  | .i8080, .memory .. => return (Intel.mArg, some (← Intel.pointAt l))
  | .i8080, _ => throw (.noOperandForm "i8080" l.text)
  | _, .memory .. => return (← argOf l, none)
  | _, .register r => return (← argOf (← toTemporaryByte r), none)
  | _, _ => throw (.noOperandForm "mos6502" l.text)

/-- Makes the byte behind a pointer an operand of an accumulator instruction. -/
def indirectOperand (p : Reached) : Build (Arg × Option Reservation) := do
  match ← arch with
  | .i8080 => return (Intel.mArg, none)
  | _ =>
    let held ← reserve Mos.y
    loadDirect (some Mos.y) (.immediate p.index 1)
    return (.ind p.register.address "y", some held)

/-- Emits an operation on an operand. -/
def emitOperation (op : Operation) (immediate : Bool) (arg : Arg) : Build Unit := do
  if let some setup := op.setup then emit setup []
  emit (if immediate then op.immediate else op.register) [arg]

/-- **Applies an accumulator operation** with an operand anywhere. -/
def operate (op : Operation) (l : Location) : Build Unit := do
  match l.place with
  | .immediate _ | .symbol .. => emitOperation op true (← argOf l)
  | .indirect .. =>
    let p ← pointer l
    let (arg, held) ← indirectOperand p
    emitOperation op false arg
    unpin held
    done p
  | _ =>
    let (arg, held) ← directOperand l
    emitOperation op false arg
    unpin held

/-- Applies the accumulator form of an operator, which must have one. -/
def operateWith (op : BinaryOp) (carry : Bool) (l : Location) : Build Unit := do
  match (← arch).operation? op carry with
  | some operation => operate operation l
  | none => throw (.noAccumulatorForm op.text)

/-- Replaces the accumulator with its complement. -/
def complement : Build Unit := do
  match ← arch with
  | .i8080 => emit "cma" []
  | _ => emit "eor" [.imm 0xff]

end Build

/-! ### Counting in place -/

namespace Mos

/-- Counts a byte in `x`, `y` or memory. -/
def stepByte (l : Location) (down : Bool) : Build Bool := do
  match l.place with
  | .register r =>
    if r == some a then return false
    Build.emit ((if down then "de" else "in") ++ (← Build.nameOf r)) []
    return true
  | .memory .. =>
    Build.emit (if down then "dec" else "inc") [← Build.argOf l]
    Build.flagsFrom l
    return true
  | _ => return false

/-- Counts a word in memory. Counting down borrows when the low byte is zero before. -/
def stepWord (l : Location) (down : Bool) : Build Bool := do
  if !l.isMemory then return false
  let skip ← Build.freshLabel
  let low ← Build.argOf (← Build.byteOf l 0)
  let high ← Build.argOf (← Build.byteOf l 1)
  if down then
    let held ← Build.reserve a
    Build.emit "lda" [low]
    Build.branchLocal "bne" skip
    Build.emit "dec" [high]
    Build.label skip
    Build.emit "dec" [low]
    Build.release held
  else
    Build.emit "inc" [low]
    Build.branchLocal "bne" skip
    Build.emit "inc" [high]
    Build.label skip
  return true

/-- Counts a word in memory with the wide accumulator. -/
def stepWide (l : Location) (down : Bool) : Build Bool := do
  if !l.isWordMemory then return false
  Build.emitAll (wide [⟨if down then "dec" else "inc", [← Build.argOf l]⟩])
  return true

end Mos

namespace Intel

/-- Counts a byte in a register or memory. -/
def stepByte (l : Location) (down : Bool) : Build Bool := do
  let op := if down then "dcr" else "inr"
  match l.place with
  | .register r =>
    Build.emit op [← regArg r]
    return true
  | .memory .. =>
    let held ← pointAt l
    Build.emit op [mArg]
    Build.release held
    Build.flagsFrom l
    return true
  | _ => return false

/-- Counts a pair. -/
def stepWord (l : Location) (down : Bool) : Build Bool := do
  match ← pairAt? l with
  | some p =>
    Build.emit (if down then "dcx" else "inx") [← Build.ofExcept (pairArg p)]
    return true
  | none => return false

end Intel

namespace Build

/-- Counts a byte up or down in place, if the machine can. -/
def stepByte (l : Location) (down : Bool) : Build Bool := do
  match ← arch with
  | .i8080 => Intel.stepByte l down
  | _ => Mos.stepByte l down

/-- Counts a word up or down in place, if the machine can. -/
def stepWord (l : Location) (down : Bool) : Build Bool := do
  match ← arch with
  | .mos6502 => Mos.stepWord l down
  | .wdc65816 => Mos.stepWide l down
  | .i8080 => Intel.stepWord l down

/-- Counts a byte or a word up or down in place, if the machine can. -/
def step (l : Location) (down : Bool) : Build Bool :=
  if l.width == 2 then stepWord l down else stepByte l down

end Build

/-! ### Tests -/

namespace Mos

/-- The mnemonic that compares a register. -/
def compareOp (r : Register) : String := if r == a then "cmp" else "cp" ++ r.name

end Mos

namespace Build

/-- Makes the flags show a byte where it is, if the machine can. -/
def testInPlace (l : Location) : Build Bool := do
  match ← arch, l.place with
  | .i8080, .register r =>
    let arg ← Intel.regArg r
    if r == some Intel.a then emit "ora" [arg]
    else emitAll [⟨"inr", [arg]⟩, ⟨"dcr", [arg]⟩]
    return true
  | .i8080, _ => return false
  | _, _ =>
    if l.isIn Mos.a then
      emit "ora" [.imm 0]
      return true
    if l.isIn Mos.x || l.isIn Mos.y then
      emit (Mos.compareOp (← present l.register?)) [.imm 0]
      return true
    return false

/-- Makes the flags show a byte, in the accumulator if not where it is. The accumulator must then be
released after the branch. -/
def testByte (l : Location) : Build (Option Reservation) := do
  if ← flagsShow l then return none
  let tested ← if l.isRegister then testInPlace l else pure false
  if tested then
    flagsFrom l
    return none
  let acc := Location.ofRegister (← accumulator)
  let res ← reserveLoad (← accumulator) l
  unless ← flagsShow acc do
    discard (testInPlace acc)
    flagsFrom acc
  return some res

end Build

/-! ### Shifts by one bit -/

namespace Mos

/-- Copies the sign of a byte into the carry, through a register that is free. -/
def signToCarry (l : Location) : Build Unit := do
  let (r, res) ← Build.reserveAny [x, y, a] []
  Build.loadByte (some r) l
  Build.emit (compareOp r) [.imm 0x80]
  Build.release res

/-- Shifts a byte in memory. -/
def shiftByteInPlace (l : Location) (left signed : Bool) : Build Bool := do
  if !l.isMemory then return false
  let arg ← Build.argOf l
  if left then Build.emit "asl" [arg]
  else if signed then
    signToCarry l
    Build.emit "ror" [arg]
  else Build.emit "lsr" [arg]
  Build.flagsFrom l
  return true

/-- Shifts a word in memory. -/
def shiftWord (l : Location) (left signed : Bool) : Build Bool := do
  if !l.isMemory then return false
  let lowByte ← Build.byteOf l 0
  let highByte ← Build.byteOf l 1
  let low ← Build.argOf lowByte
  let high ← Build.argOf highByte
  if left then
    Build.emit "asl" [low]
    Build.emit "rol" [high]
  else if signed then
    signToCarry highByte
    Build.emit "ror" [high]
    Build.emit "ror" [low]
  else
    Build.emit "lsr" [high]
    Build.emit "ror" [low]
  return true

/-- Shifts a word in memory with the wide accumulator. -/
def shiftWide (l : Location) (left signed : Bool) : Build Bool := do
  if !l.isWordMemory then return false
  let arg ← Build.argOf l
  if left then Build.emitAll (wide [⟨"asl", [arg]⟩])
  else if signed then
    let held ← Build.reserve a
    Build.emitAll (wide [⟨"lda", [arg]⟩, ⟨"asl", [.reg "a"]⟩, ⟨"ror", [arg]⟩])
    Build.release held
  else Build.emitAll (wide [⟨"lsr", [arg]⟩])
  return true

end Mos

namespace Intel

/-- Code that shifts a pair given by its halves, through the accumulator. -/
def shiftCode (low high : Arg) (left signed : Bool) : List Instr :=
  if left then
    [⟨"mov", [aArg, low]⟩, ⟨"add", [aArg]⟩, ⟨"mov", [low, aArg]⟩, ⟨"mov", [aArg, high]⟩,
      ⟨"ral", []⟩, ⟨"mov", [high, aArg]⟩]
  else
    let sign : List Instr :=
      if signed then [⟨"ral", []⟩, ⟨"mov", [aArg, high]⟩] else [⟨"ora", [aArg]⟩]
    [⟨"mov", [aArg, high]⟩] ++ sign ++
      [⟨"rar", []⟩, ⟨"mov", [high, aArg]⟩, ⟨"mov", [aArg, low]⟩, ⟨"rar", []⟩,
        ⟨"mov", [low, aArg]⟩]

/-- Shifts a pair. -/
def shiftWord (l : Location) (left signed : Bool) : Build Bool := do
  match ← pairAt? l with
  | none => return false
  | some p =>
    if left && p == hl then
      Build.emit "dad" [.reg "h"]
      return true
    let low ← regArg p.low?
    let high ← regArg p.high?
    let held ← Build.reserve a
    Build.emitAll (shiftCode low high left signed)
    Build.release held
    return true

end Intel

namespace Build

/-- Shifts the accumulator by one bit. -/
def shiftAccumulator (left signed : Bool) : Build Unit := do
  match ← arch with
  | .i8080 =>
    if left then emit "add" [.reg "a"]
    else if signed then emitAll [⟨"cpi", [.imm 0x80]⟩, ⟨"cmc", []⟩, ⟨"rar", []⟩]
    else emitAll [⟨"ora", [.reg "a"]⟩, ⟨"rar", []⟩]
  | _ =>
    if left then emit "asl" [.reg "a"]
    else if signed then emitAll [⟨"cmp", [.imm 0x80]⟩, ⟨"ror", [.reg "a"]⟩]
    else emit "lsr" [.reg "a"]

/-- Shifts a byte by one bit where it is, if the machine can. -/
def shiftByteInPlace (l : Location) (left signed : Bool) : Build Bool := do
  match ← arch with
  | .i8080 => return false
  | _ => Mos.shiftByteInPlace l left signed

/-- Shifts a word by one bit where it is, if the machine can. -/
def shiftWordInPlace (l : Location) (left signed : Bool) : Build Bool := do
  match ← arch with
  | .mos6502 => Mos.shiftWord l left signed
  | .wdc65816 => Mos.shiftWide l left signed
  | .i8080 => Intel.shiftWord l left signed

end Build

/-! ### Word operations by one instruction -/

namespace Mos

/-- Computes on words in memory with the wide accumulator. -/
def binaryWide (op : BinaryOp) (dest left right : Location) : Build Bool := do
  match Arch.operation? .wdc65816 op false with
  | none => return false
  | some o =>
    if !dest.isWordMemory || !left.isWide || !right.isWide then return false
    let held ← Build.reserve a
    let setup : List Instr := match o.setup with
      | some s => [⟨s, []⟩]
      | none => []
    let mnemonic := if right.isImmediate then o.immediate else o.register
    Build.emitAll (wide ([⟨"lda", [← Build.argOf left]⟩] ++ setup ++
      [⟨mnemonic, [← Build.argOf right]⟩, ⟨"sta", [← Build.argOf dest]⟩]))
    Build.release held
    return true

end Mos

namespace Intel

/-- Adds to `hl`. A constant is loaded into a pair that is free. -/
def addToHl (dest left right : Location) : Build Bool := do
  if !dest.isIn hl then return false
  let (left, right) := if left.isIn hl then (left, right) else (right, left)
  if !left.isIn hl then return false
  if let some p ← pairAt? right then
    Build.emit "dad" [← Build.ofExcept (pairArg p)]
    return true
  if !right.isImmediate then return false
  let usesDe ← Build.inUse de
  let free ← if usesDe then
      let usesBc ← Build.inUse bc
      pure (if usesBc then none else some bc)
    else pure (some de)
  match free with
  | none => return false
  | some p =>
    let held ← Build.reserve p
    let pair ← Build.ofExcept (pairArg p)
    Build.emit "lxi" [pair, ← Build.argOf right]
    Build.emit "dad" [pair]
    Build.release held
    return true

end Intel

/-- Computes on words by an instruction of the machine, if there is one. -/
def Build.nativeBinary (op : BinaryOp) (dest left right : Location) : Build Bool := do
  match ← arch with
  | .mos6502 => return false
  | .wdc65816 => Mos.binaryWide op dest left right
  | .i8080 => if op == .add then Intel.addToHl dest left right else return false

end Octet
