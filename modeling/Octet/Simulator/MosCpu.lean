import Octet.Simulator.Routine
import Octet.Simulator.Run

/-!
# The processors of the 6502 family

One simulation serves the 6502 and the 65816. The 65816 can make its accumulator 16 bits wide, and a
second byte holds the upper half then; the index registers stay bytes. Instructions that follow the
width of the accumulator take their operands in that width.

Registers are integers, since whoever sets up a run may put any value into them; instructions that
compute a register leave a byte there.

## Main definitions

* `MosCpu` — registers and flags
* `MosCpu.step` — what one instruction does
* `MosCpu.routine?` — the runtime routines, on values in `a` or `ax`, counts in `y`, and multipliers
  in `x` or in a cell
* `MosCpu.processor` — the processor
-/

namespace Octet.Simulator

open Assembly (Arg Instr)

/-- Registers and flags. -/
structure MosCpu where
  a : Int
  x : Int
  y : Int
  /-- The upper half of the accumulator. -/
  b : Int
  sp : Int
  n : Bool
  z : Bool
  c : Bool
  v : Bool
  /-- Whether the accumulator is 16 bits wide. -/
  wide : Bool
  deriving DecidableEq, Repr

/-- Two registers as one value of 64 bits. -/
def joined (high low : Int) : Int := Bits.or low (Bits.wrap (high * 256))

namespace MosCpu

/-- The registers before any run. -/
def start : MosCpu := ⟨0, 0, 0, 0, 0xff, false, false, false, false, false⟩

/-- Registers and flags by name. -/
def readings (c : MosCpu) : List (String × Reading) :=
  [("a", .number c.a), ("x", .number c.x), ("y", .number c.y), ("b", .number c.b),
    ("sp", .number c.sp), ("n", .flag c.n), ("z", .flag c.z), ("c", .flag c.c), ("v", .flag c.v),
    ("wide", .flag c.wide)]

/-- Puts a number into the register of a name. -/
def put (c : MosCpu) (name : String) (v : Int) : MosCpu :=
  match name with
  | "a" => { c with a := v }
  | "x" => { c with x := v }
  | "y" => { c with y := v }
  | "b" => { c with b := v }
  | "sp" => { c with sp := v }
  | "n" => { c with n := v != 0 }
  | "z" => { c with z := v != 0 }
  | "c" => { c with c := v != 0 }
  | "v" => { c with v := v != 0 }
  | "wide" => { c with wide := v != 0 }
  | _ => c

/-! ### The accumulator and the flags -/

/-- The bytes of the accumulator. -/
def width (c : MosCpu) : Nat := if c.wide then 2 else 1

/-- The value of the accumulator. -/
def acc (c : MosCpu) : Int := if c.wide then joined c.b c.a else c.a

/-- Puts a value into the accumulator. -/
def setAcc (c : MosCpu) (v : Int) : MosCpu :=
  if c.wide then { c with a := Bits.low 8 v, b := Bits.low 8 (Bits.shr v 8) }
  else { c with a := Bits.low 8 v }

/-- The flags of a value of some bytes. -/
def setNZ (c : MosCpu) (v : Int) (width : Nat) : MosCpu :=
  { c with z := Bits.low (8 * width) v == 0, n := Bits.test (8 * width - 1) v }

/-- The word in `a` and `x`. -/
def ax (c : MosCpu) : Int := joined c.x c.a

/-- Puts a word into `a` and `x`. -/
def setAx (c : MosCpu) (v : Int) : MosCpu :=
  { c with a := Bits.low 8 v, x := Bits.low 8 (Bits.shr v 8) }

/-- The flags as a byte. -/
def flags (c : MosCpu) : Int :=
  0x20 + Bits.ofBool c.c + 2 * Bits.ofBool c.z + 0x40 * Bits.ofBool c.v + 0x80 * Bits.ofBool c.n

/-- Takes the flags from a byte. -/
def setFlags (c : MosCpu) (p : Int) : MosCpu :=
  { c with c := Bits.test 0 p, z := Bits.test 1 p, v := Bits.test 6 p, n := Bits.test 7 p }

/-- **Addition with carry** in the width of the accumulator. -/
def add (c : MosCpu) (v : Int) (width : Nat) : MosCpu :=
  let a := c.acc
  let sum := Bits.wrap (a + v + Bits.ofBool c.c)
  let sign := Bits.test (8 * width - 1)
  let c := { c with c := decide (Bits.modulus (8 * width) ≤ sum), v := sign a == sign v && sign a != sign sum }
  (c.setAcc (Bits.low (8 * width) sum)).setNZ sum width

/-- **Comparison**: the flags of a difference, and carry when nothing has to be borrowed. -/
def compare (c : MosCpu) (a v : Int) (width : Nat) : MosCpu :=
  { c with c := decide (v ≤ a) }.setNZ (a - v) width

/-! ### Operands -/

/-- The address of an operand in memory. -/
def address (a : Arg) : Exec MosCpu Int := do
  match a with
  | .mem symbol offset => return (← Exec.address symbol) + offset
  | .ind symbol index =>
    let p ← Exec.read (← Exec.address symbol) 2
    let c ← Exec.cpu
    return Bits.low 16 (if index == "y" then p + c.y else p)
  | a => throw (.notMemory a)

/-- The value of an operand of some bytes. -/
def read (a : Arg) (width : Nat) : Exec MosCpu Int := do
  match a with
  | .imm v => return Bits.low (8 * width) v
  | .symbol name offset part =>
    let v := (← Exec.address name) + offset
    let v := match part with
      | .whole => v
      | .low => Bits.low 8 v
      | .high => Bits.shr v 8
    return Bits.low (8 * width) v
  | .reg _ => return (← Exec.cpu).acc
  | a => Exec.read (← address a) width

/-- Puts a byte on the stack. -/
def push (v : Int) : Exec MosCpu Unit := do
  let c ← Exec.cpu
  Exec.store (Bits.or 0x100 c.sp) v
  Exec.update fun c => { c with sp := Bits.low 8 (c.sp - 1) }

/-- Takes a byte from the stack. -/
def pull : Exec MosCpu Int := do
  Exec.update fun c => { c with sp := Bits.low 8 (c.sp + 1) }
  let c ← Exec.cpu
  Exec.load (Bits.or 0x100 c.sp)

/-! ### Kinds of instructions -/

/-- The first operand of an instruction. -/
def first (i : Instr) : Exec MosCpu Arg := Exec.operand i 0

/-- A load of some bytes into what `set` says. -/
def load (i : Instr) (width : Nat) (set : MosCpu → Int → MosCpu) : Exec MosCpu Transfer := do
  let v ← read (← first i) width
  Exec.update fun c => (set c v).setNZ v width
  return .next

/-- A store of some bytes of what `value` says. -/
def store (i : Instr) (width : Nat) (value : MosCpu → Int) : Exec MosCpu Transfer := do
  let addr ← address (← first i)
  let c ← Exec.cpu
  Exec.write addr width (value c)
  return .next

/-- An instruction that changes nothing but registers. -/
def registers (f : MosCpu → MosCpu) : Exec MosCpu Transfer := do
  Exec.update f
  return .next

/-- An operation of the accumulator with an operand of its width. -/
def operate (i : Instr) (f : MosCpu → Int → Nat → MosCpu) : Exec MosCpu Transfer := do
  let c ← Exec.cpu
  let v ← read (← first i) c.width
  Exec.update fun c => f c v c.width
  return .next

/-- A comparison of an index register, which is a byte. -/
def compareIndex (i : Instr) (get : MosCpu → Int) : Exec MosCpu Transfer := do
  let v ← read (← first i) 1
  Exec.update fun c => c.compare (get c) v 1
  return .next

/-- **Change in place** of the accumulator or of memory. The function gives the carry and the
value. -/
def modify (i : Instr) (f : MosCpu → Int → Nat → Bool × Int) : Exec MosCpu Transfer := do
  match i.args with
  | [] => registers inPlace
  | .reg "a" :: _ => registers inPlace
  | a :: _ =>
    let c ← Exec.cpu
    let width := c.width
    let addr ← address a
    let (carry, v) := f c (← Exec.read addr width) width
    Exec.write addr width v
    registers fun c => { c with c := carry }.setNZ v width
where
  /-- The change of the accumulator. -/
  inPlace (c : MosCpu) : MosCpu :=
    let (carry, v) := f c c.acc c.width
    ({ c with c := carry }.setAcc v).setNZ v c.width

/-- A change of the width of the accumulator, if the operand has the bit for it. -/
def setMode (i : Instr) (wide : Bool) : Exec MosCpu Transfer := do
  let v ← read (← first i) 1
  registers fun c => if Bits.test 5 v then { c with wide } else c

/-- A jump that is taken under a condition. -/
def branch (i : Instr) (cond : MosCpu → Bool) : Exec MosCpu Transfer := do
  let c ← Exec.cpu
  return if cond c then .jump (referred i) else .next

/-! ### The instructions -/

/-- **What one instruction does.** -/
def step (i : Instr) : Exec MosCpu Transfer := do
  match i.op with
  | "lda" => load i (← Exec.cpu).width setAcc
  | "ldx" => load i 1 fun c v => { c with x := v }
  | "ldy" => load i 1 fun c v => { c with y := v }
  | "sta" => store i (← Exec.cpu).width acc
  | "stx" => store i 1 MosCpu.x
  | "sty" => store i 1 MosCpu.y
  | "stz" => store i (← Exec.cpu).width fun _ => 0
  | "tax" => registers fun c => { c with x := c.a }.setNZ c.a 1
  | "tay" => registers fun c => { c with y := c.a }.setNZ c.a 1
  | "txa" => registers fun c => { c with a := c.x }.setNZ c.x 1
  | "tya" => registers fun c => { c with a := c.y }.setNZ c.y 1
  | "inx" => registers fun c => { c with x := Bits.low 8 (c.x + 1) }.setNZ (c.x + 1) 1
  | "dex" => registers fun c => { c with x := Bits.low 8 (c.x - 1) }.setNZ (c.x - 1) 1
  | "iny" => registers fun c => { c with y := Bits.low 8 (c.y + 1) }.setNZ (c.y + 1) 1
  | "dey" => registers fun c => { c with y := Bits.low 8 (c.y - 1) }.setNZ (c.y - 1) 1
  | "adc" => operate i add
  | "sbc" => operate i fun c v w => c.add (Bits.xor v (Bits.modulus (8 * w) - 1)) w
  | "and" => operate i fun c v w => let c := c.setAcc (Bits.and c.acc v); c.setNZ c.acc w
  | "ora" => operate i fun c v w => let c := c.setAcc (Bits.or c.acc v); c.setNZ c.acc w
  | "eor" => operate i fun c v w => let c := c.setAcc (Bits.xor c.acc v); c.setNZ c.acc w
  | "cmp" => operate i fun c v w => c.compare c.acc v w
  | "cpx" => compareIndex i MosCpu.x
  | "cpy" => compareIndex i MosCpu.y
  | "asl" => modify i fun _ v w => (Bits.test (8 * w - 1) v, 2 * v)
  | "lsr" => modify i fun _ v _ => (Bits.test 0 v, Bits.shr v 1)
  | "rol" => modify i fun c v w => (Bits.test (8 * w - 1) v, 2 * v + Bits.ofBool c.c)
  | "ror" => modify i fun c v w =>
    (Bits.test 0 v, Bits.or (Bits.shr v 1) (Bits.shl (Bits.ofBool c.c) (8 * w - 1)))
  | "inc" => modify i fun c v _ => (c.c, v + 1)
  | "dec" => modify i fun c v _ => (c.c, v - 1)
  | "clc" => registers fun c => { c with c := false }
  | "sec" => registers fun c => { c with c := true }
  | "pha" => do
    let c ← Exec.cpu
    if c.wide then push c.b
    push c.a
    return .next
  | "pla" => do
    let low ← pull
    Exec.update fun c => { c with a := low }
    if (← Exec.cpu).wide then
      let high ← pull
      Exec.update fun c => { c with b := high }
    registers fun c => c.setNZ c.acc c.width
  | "phx" => do push (← Exec.cpu).x; return .next
  | "phy" => do push (← Exec.cpu).y; return .next
  | "plx" => do let v ← pull; registers fun c => { c with x := v }.setNZ v 1
  | "ply" => do let v ← pull; registers fun c => { c with y := v }.setNZ v 1
  | "php" => do push (← Exec.cpu).flags; return .next
  | "plp" => do let p ← pull; registers fun c => c.setFlags p
  | "xba" => registers fun c => { c with a := c.b, b := c.a }.setNZ c.b 1
  | "rep" => setMode i true
  | "sep" => setMode i false
  | "jmp" => return .jump (referred i)
  | "jsr" => return .call (referred i)
  | "rts" => return .ret
  | "beq" => branch i fun c => c.z
  | "bne" => branch i fun c => !c.z
  | "bmi" => branch i fun c => c.n
  | "bpl" => branch i fun c => !c.n
  | "bcs" => branch i fun c => c.c
  | "bcc" => branch i fun c => !c.c
  | "bvs" => branch i fun c => c.v
  | "bvc" => branch i fun c => !c.v
  | op => throw (.unknownMnemonic op)

/-! ### Routines -/

/-- A shift of `a` by `y`. -/
def shiftByte (left signed : Bool) : Machine MosCpu → Machine MosCpu
  | ⟨c, m⟩ => ⟨{ c with a := shift c.a c.y 1 left signed }, m⟩

/-- A shift of `ax` by `y`. -/
def shiftWord (left signed : Bool) : Machine MosCpu → Machine MosCpu
  | ⟨c, m⟩ => ⟨c.setAx (shift c.ax c.y 2 left signed), m⟩

/-- The routines that generated code calls. -/
def routine? : String → Option (Machine MosCpu → Machine MosCpu)
  | "cate.ShiftLeftA" => some (shiftByte true false)
  | "cate.ShiftRightA" => some (shiftByte false false)
  | "cate.ShiftRightSignedA" => some (shiftByte false true)
  | "cate.ShiftLeftAx" => some (shiftWord true false)
  | "cate.ShiftRightAx" => some (shiftWord false false)
  | "cate.ShiftRightSignedAx" => some (shiftWord false true)
  | "cate.MultiplyA" => some fun ⟨c, m⟩ => ⟨{ c with a := multiply c.a c.x 1 }, m⟩
  | "cate.MultiplyAx" => some fun ⟨c, m⟩ =>
    match m.peek "cate_w1" 2 with
    | (v, m) => ⟨c.setAx (multiply c.ax v 2), m⟩
  | _ => none

/-- **The processor.** A run starts with a narrow accumulator. -/
def processor : Processor MosCpu :=
  ⟨step, sp, readings, put, routine?, fun c => { c with wide := false }⟩

/-- Loads a program; its cells lie above the page of the stack. -/
def load? (limit : Int) (p : Assembly) : Option (Simulator MosCpu × Machine MosCpu) :=
  Simulator.load? processor start 0x0200 limit p

end MosCpu

end Octet.Simulator
