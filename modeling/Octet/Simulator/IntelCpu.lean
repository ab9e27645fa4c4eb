import Octet.Simulator.Routine
import Octet.Simulator.Run

/-!
# The 8080

Seven byte registers, of which six form pairs, and a stack of words. The memory behind the pair `hl`
can stand for a register. Parity and the auxiliary carry are left out, since no generated code looks
at them.

Registers are integers, since whoever sets up a run may put any value into them; instructions that
compute a register leave a byte there, except for a rotation to the right through carry, which only
moves bits.

## Main definitions

* `IntelCpu` — registers and flags
* `IntelCpu.step` — what one instruction does
* `IntelCpu.routine?` — the runtime routines, on values in `a` or `hl`, counts in `c`, and
  multipliers in `e` or `de`
* `IntelCpu.processor` — the processor
-/

namespace Octet.Simulator

open Assembly (Arg Instr)

/-- Registers and flags. -/
structure IntelCpu where
  a : Int
  b : Int
  c : Int
  d : Int
  e : Int
  h : Int
  l : Int
  sp : Int
  s : Bool
  z : Bool
  cy : Bool
  deriving DecidableEq, Repr

/-- A pair of registers in one word of 64 bits. -/
def paired (high low : Int) : Int := Bits.or (Bits.wrap (high * 256)) low

namespace IntelCpu

/-- The registers before any run. -/
def start : IntelCpu := ⟨0, 0, 0, 0, 0, 0, 0, 0xff00, false, false, false⟩

/-- Registers and flags by name. -/
def readings (c : IntelCpu) : List (String × Reading) :=
  [("a", .number c.a), ("b", .number c.b), ("c", .number c.c), ("d", .number c.d),
    ("e", .number c.e), ("h", .number c.h), ("l", .number c.l), ("sp", .number c.sp),
    ("s", .flag c.s), ("z", .flag c.z), ("cy", .flag c.cy)]

/-- Puts a number into the register of a name. -/
def put (c : IntelCpu) (name : String) (v : Int) : IntelCpu :=
  match name with
  | "a" => { c with a := v }
  | "b" => { c with b := v }
  | "c" => { c with c := v }
  | "d" => { c with d := v }
  | "e" => { c with e := v }
  | "h" => { c with h := v }
  | "l" => { c with l := v }
  | "sp" => { c with sp := v }
  | "s" => { c with s := v != 0 }
  | "z" => { c with z := v != 0 }
  | "cy" => { c with cy := v != 0 }
  | _ => c

/-! ### Pairs and flags -/

/-- The pair of `b` and `c`. -/
def bc (c : IntelCpu) : Int := paired c.b c.c

/-- The pair of `d` and `e`. -/
def de (c : IntelCpu) : Int := paired c.d c.e

/-- The pair of `h` and `l`. -/
def hl (c : IntelCpu) : Int := paired c.h c.l

/-- Puts a word into `b` and `c`. -/
def setBc (c : IntelCpu) (v : Int) : IntelCpu :=
  { c with b := Bits.low 8 (Bits.shr v 8), c := Bits.low 8 v }

/-- Puts a word into `d` and `e`. -/
def setDe (c : IntelCpu) (v : Int) : IntelCpu :=
  { c with d := Bits.low 8 (Bits.shr v 8), e := Bits.low 8 v }

/-- Puts a word into `h` and `l`. -/
def setHl (c : IntelCpu) (v : Int) : IntelCpu :=
  { c with h := Bits.low 8 (Bits.shr v 8), l := Bits.low 8 v }

/-- The flags as a byte. -/
def flags (c : IntelCpu) : Int :=
  0x02 + 0x80 * Bits.ofBool c.s + 0x40 * Bits.ofBool c.z + Bits.ofBool c.cy

/-- Takes the flags from a byte. -/
def setFlags (c : IntelCpu) (p : Int) : IntelCpu :=
  { c with s := Bits.test 7 p, z := Bits.test 6 p, cy := Bits.test 0 p }

/-- The flags of a byte. -/
def setSZ (c : IntelCpu) (v : Int) : IntelCpu :=
  { c with z := Bits.low 8 v == 0, s := Bits.test 7 v }

/-! ### Arithmetic -/

/-- **Addition** to the accumulator. -/
def add (c : IntelCpu) (v carry : Int) : IntelCpu :=
  let sum := Bits.wrap (c.a + v + carry)
  { c with cy := decide (0xff < sum), a := Bits.low 8 sum }.setSZ sum

/-- **Comparison**: the flags of a difference, with carry when something had to be borrowed. -/
def compare (c : IntelCpu) (v borrow : Int) : IntelCpu :=
  let d := Bits.wrap (c.a - v - borrow)
  { c with cy := decide (d < 0) }.setSZ d

/-- **Subtraction** from the accumulator. -/
def subtract (c : IntelCpu) (v borrow : Int) : IntelCpu :=
  { c.compare v borrow with a := Bits.low 8 (c.a - v - borrow) }

/-- The result of a bitwise operation, which clears carry. -/
def logic (c : IntelCpu) (v : Int) : IntelCpu :=
  { c with a := Bits.low 8 v, cy := false }.setSZ v

/-! ### Operands -/

/-- The value of a register, or of the memory behind `hl`. -/
def get (a : Arg) : Exec IntelCpu Int := do
  let c ← Exec.cpu
  match a with
  | .reg "m" => Exec.load c.hl
  | .reg "a" => return c.a
  | .reg "b" => return c.b
  | .reg "c" => return c.c
  | .reg "d" => return c.d
  | .reg "e" => return c.e
  | .reg "h" => return c.h
  | .reg "l" => return c.l
  | .reg name => throw (.unknownRegister name)
  | a => throw (.notRegister a)

/-- Puts a byte into a register, or into the memory behind `hl`. -/
def set (a : Arg) (v : Int) : Exec IntelCpu Unit := do
  let v := Bits.low 8 v
  match a with
  | .reg "m" => Exec.store (← Exec.cpu).hl v
  | .reg "a" => Exec.update fun c => { c with a := v }
  | .reg "b" => Exec.update fun c => { c with b := v }
  | .reg "c" => Exec.update fun c => { c with c := v }
  | .reg "d" => Exec.update fun c => { c with d := v }
  | .reg "e" => Exec.update fun c => { c with e := v }
  | .reg "h" => Exec.update fun c => { c with h := v }
  | .reg "l" => Exec.update fun c => { c with l := v }
  | .reg name => throw (.unknownRegister name)
  | a => throw (.notRegister a)

/-- A pair: how it is read, and how it is written. -/
structure Pair where
  get : IntelCpu → Int
  set : IntelCpu → Int → IntelCpu

/-- The pair that its upper register names, or the accumulator with the flags. -/
def pair (a : Arg) : Exec IntelCpu Pair :=
  match a with
  | .reg "b" => return ⟨bc, setBc⟩
  | .reg "d" => return ⟨de, setDe⟩
  | .reg "h" => return ⟨hl, setHl⟩
  | .reg "psw" =>
    return ⟨fun c => paired c.a c.flags, fun c v => { c with a := Bits.low 8 (Bits.shr v 8) }.setFlags v⟩
  | a => throw (.unknownPair a)

/-- The value of a constant or an address. -/
def value (a : Arg) : Exec IntelCpu Int := do
  match a with
  | .imm v => return Bits.low 16 v
  | .symbol name offset part =>
    let v := (← Exec.address name) + offset
    return Bits.low 16 (match part with
      | .whole => v
      | .low => Bits.low 8 v
      | .high => Bits.shr v 8)
  | .mem symbol offset => return Bits.low 16 ((← Exec.address symbol) + offset)
  | a => throw (.notValue a)

/-! ### Kinds of instructions -/

/-- An instruction that changes nothing but registers. -/
def registers (f : IntelCpu → IntelCpu) : Exec IntelCpu Transfer := do
  Exec.update f
  return .next

/-- An instruction that uses the value of an operand. One that is no value counts as zero, and the
instruction traps only afterwards. -/
def withValue (a : Arg) (f : Int → Exec IntelCpu Unit) : Exec IntelCpu Transfer := do
  let v ← observing (value a)
  match v with
  | .ok v => do f v; return .next
  | .error e => do f 0; throw e
where
  /-- The outcome of a computation, whatever it is. -/
  observing (x : Exec IntelCpu Int) : Exec IntelCpu (Except Trap Int) := ExceptT.lift x.run

/-- An operation of the accumulator with a byte. -/
def operate (i : Instr) (operand : Arg → Exec IntelCpu Int) (f : IntelCpu → Int → IntelCpu) :
    Exec IntelCpu Transfer := do
  let v ← operand (← Exec.operand i 0)
  registers fun c => f c (Bits.low 8 v)

/-- A register or a byte of memory made greater or smaller by one. -/
def count (i : Instr) (delta : Int) : Exec IntelCpu Transfer := do
  let a ← Exec.operand i 0
  let v := (← get a) + delta
  Exec.update fun c => c.setSZ v
  set a v
  return .next

/-- A change of a pair. -/
def changePair (i : Instr) (f : Int → Int) : Exec IntelCpu Transfer := do
  let p ← pair (← Exec.operand i 0)
  registers fun c => p.set c (f (p.get c))

/-- A jump that is taken under a condition. -/
def branch (i : Instr) (cond : IntelCpu → Bool) : Exec IntelCpu Transfer := do
  let c ← Exec.cpu
  return if cond c then .jump (referred i) else .next

/-! ### The instructions -/

/-- **What one instruction does.** -/
def step (i : Instr) : Exec IntelCpu Transfer := do
  match i.op with
  | "mov" => do
    let v ← get (← Exec.operand i 1)
    set (← Exec.operand i 0) v
    return .next
  | "mvi" => do
    let v ← value (← Exec.operand i 1)
    set (← Exec.operand i 0) v
    return .next
  | "lda" => do
    withValue (← Exec.operand i 0) fun addr => do
      let v ← Exec.read addr 1
      Exec.update fun c => { c with a := v }
  | "sta" => do
    withValue (← Exec.operand i 0) fun addr => do Exec.write addr 1 (← Exec.cpu).a
  | "lhld" => do
    withValue (← Exec.operand i 0) fun addr => do
      let v ← Exec.read addr 2
      Exec.update fun c => c.setHl v
  | "shld" => do
    withValue (← Exec.operand i 0) fun addr => do Exec.write addr 2 (← Exec.cpu).hl
  | "lxi" => do
    let p ← pair (← Exec.operand i 0)
    withValue (← Exec.operand i 1) fun v => Exec.update fun c => p.set c v
  | "inx" => changePair i (· + 1)
  | "dcx" => changePair i (· - 1)
  | "inr" => count i 1
  | "dcr" => count i (-1)
  | "dad" => do
    let p ← pair (← Exec.operand i 0)
    registers fun c =>
      let sum := Bits.wrap (c.hl + p.get c)
      { c with cy := decide (0xffff < sum) }.setHl sum
  | "xchg" => registers fun c => (c.setHl c.de).setDe c.hl
  | "add" => operate i get fun c v => c.add v 0
  | "adi" => operate i value fun c v => c.add v 0
  | "adc" => operate i get fun c v => c.add v (Bits.ofBool c.cy)
  | "aci" => operate i value fun c v => c.add v (Bits.ofBool c.cy)
  | "sub" => operate i get fun c v => c.subtract v 0
  | "sui" => operate i value fun c v => c.subtract v 0
  | "sbb" => operate i get fun c v => c.subtract v (Bits.ofBool c.cy)
  | "sbi" => operate i value fun c v => c.subtract v (Bits.ofBool c.cy)
  | "cmp" => operate i get fun c v => c.compare v 0
  | "cpi" => operate i value fun c v => c.compare v 0
  | "ana" => operate i get fun c v => c.logic (Bits.and c.a v)
  | "ani" => operate i value fun c v => c.logic (Bits.and c.a v)
  | "ora" => operate i get fun c v => c.logic (Bits.or c.a v)
  | "ori" => operate i value fun c v => c.logic (Bits.or c.a v)
  | "xra" => operate i get fun c v => c.logic (Bits.xor c.a v)
  | "xri" => operate i value fun c v => c.logic (Bits.xor c.a v)
  | "cma" => registers fun c => { c with a := Bits.xor c.a 0xff }
  | "cmc" => registers fun c => { c with cy := !c.cy }
  | "stc" => registers fun c => { c with cy := true }
  | "rlc" => registers fun c =>
    { c with cy := Bits.test 7 c.a, a := Bits.low 8 (Bits.or (2 * c.a) (Bits.shr c.a 7)) }
  | "rrc" => registers fun c =>
    { c with cy := Bits.test 0 c.a, a := Bits.low 8 (Bits.or (Bits.shr c.a 1) (128 * c.a)) }
  | "ral" => registers fun c =>
    { c with cy := Bits.test 7 c.a, a := Bits.low 8 (2 * c.a + Bits.ofBool c.cy) }
  | "rar" => registers fun c =>
    { c with cy := Bits.test 0 c.a, a := Bits.or (Bits.shr c.a 1) (128 * Bits.ofBool c.cy) }
  | "push" => do
    let p ← pair (← Exec.operand i 0)
    Exec.update fun c => { c with sp := Bits.low 16 (c.sp - 2) }
    let c ← Exec.cpu
    Exec.write c.sp 2 (p.get c)
    return .next
  | "pop" => do
    let p ← pair (← Exec.operand i 0)
    let v ← Exec.read (← Exec.cpu).sp 2
    registers fun c => p.set { c with sp := Bits.low 16 (c.sp + 2) } v
  | "jmp" => return .jump (referred i)
  | "call" => return .call (referred i)
  | "ret" => return .ret
  | "jz" => branch i fun c => c.z
  | "jnz" => branch i fun c => !c.z
  | "jm" => branch i fun c => c.s
  | "jp" => branch i fun c => !c.s
  | "jc" => branch i fun c => c.cy
  | "jnc" => branch i fun c => !c.cy
  | op => throw (.unknownMnemonic op)

/-! ### Routines -/

/-- A shift of `a` by `c`. -/
def shiftByte (left signed : Bool) : Machine IntelCpu → Machine IntelCpu
  | ⟨c, m⟩ => ⟨{ c with a := shift c.a c.c 1 left signed }, m⟩

/-- A shift of `hl` by `c`. -/
def shiftWord (left signed : Bool) : Machine IntelCpu → Machine IntelCpu
  | ⟨c, m⟩ => ⟨c.setHl (shift c.hl c.c 2 left signed), m⟩

/-- A comparison of `hl` with `de`: carry when it is less, zero when it is equal. -/
def compareWords (signed : Bool) : Machine IntelCpu → Machine IntelCpu
  | ⟨c, m⟩ => ⟨{ c with cy := less c.hl c.de signed, z := c.hl == c.de }, m⟩

/-- The routines that generated code calls. -/
def routine? : String → Option (Machine IntelCpu → Machine IntelCpu)
  | "cate.ShiftLeftA" => some (shiftByte true false)
  | "cate.ShiftRightA" => some (shiftByte false false)
  | "cate.ShiftRightSignedA" => some (shiftByte false true)
  | "cate.ShiftLeftHl" => some (shiftWord true false)
  | "cate.ShiftRightHl" => some (shiftWord false false)
  | "cate.ShiftRightSignedHl" => some (shiftWord false true)
  | "cate.MultiplyA" => some fun ⟨c, m⟩ => ⟨{ c with a := multiply c.a c.e 1 }, m⟩
  | "cate.MultiplyHl" => some fun ⟨c, m⟩ => ⟨c.setHl (multiply c.hl c.de 2), m⟩
  | "cate.CompareHlDe" => some (compareWords false)
  | "cate.CompareHlDeSigned" => some (compareWords true)
  | _ => none

/-- **The processor.** -/
def processor : Processor IntelCpu := ⟨step, sp, readings, put, routine?, id⟩

/-- Loads a program. -/
def load? (limit : Int) (p : Assembly) : Option (Simulator IntelCpu × Machine IntelCpu) :=
  Simulator.load? processor start 0x0100 limit p

end IntelCpu

end Octet.Simulator
