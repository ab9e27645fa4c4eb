import Octet.Assembly
import Octet.Target

/-!
# Effects of machine instructions

While code is built, the registers and flags that it changes are tracked. The effect of an
instruction lists the registers that it writes, tells whether it changes the zero and the sign flag,
and names the register whose value these flags show afterwards.

An instruction of the 6502 that stores to memory writes a register when the memory is the cell of
one. Some instructions have no effect without their operand; the table has no entry for such a
torso.

## Main definitions

* `Effect` — registers and flags that an instruction changes
* `Arch.effect?` — the effect of an instruction
-/

namespace Octet

open Assembly

/-- What an instruction does to the registers and to the zero and the sign flag. -/
structure Effect where
  /-- The registers that are written. A pair that the machine does not have is missing. -/
  writes : List (Option Register)
  /-- Whether the flags change. -/
  flags : Bool
  /-- The register whose value the flags show afterwards. -/
  result : Option Register
  deriving DecidableEq, Repr

namespace Effect

/-- No effect. -/
def none : Effect := ⟨[], false, .none⟩

/-- A register is written, and the flags stay. -/
def writes1 (r : Register) : Effect := ⟨[some r], false, .none⟩

/-- A register is written, and the flags show it. -/
def computes (r : Register) : Effect := ⟨[some r], true, some r⟩

/-- Only the flags change. -/
def flagsOnly : Effect := ⟨[], true, .none⟩

end Effect

namespace Mos

/-- The registers that a store to an operand writes. -/
def stored : Arg → List (Option Register)
  | .mem symbol _ =>
    match cells.find? (·.address == symbol) with
    | some r => [some r]
    | none => []
  | _ => []

/-- The effect of an instruction of the 6502. -/
def effect? (i : Instr) : Option Effect :=
  match i.op with
  | "lda" | "txa" | "tya" | "pla" | "adc" | "sbc" | "and" | "ora" | "eor" => some (.computes a)
  | "ldx" | "tax" | "tsx" | "inx" | "dex" => some (.computes x)
  | "ldy" | "tay" | "iny" | "dey" => some (.computes y)
  | "asl" | "lsr" | "rol" | "ror" | "inc" | "dec" =>
    match i.args with
    | [] => some (.computes a)
    | .reg "a" :: _ => some (.computes a)
    | arg :: _ => some ⟨stored arg, true, none⟩
  | "sta" | "stx" | "sty" | "stz" =>
    match i.args with
    | [] => none
    | arg :: _ => some ⟨stored arg, false, none⟩
  | "cmp" | "cpx" | "cpy" | "bit" | "plp" => some .flagsOnly
  | "jsr" => some ⟨[some a, some x, some y] ++ cells.map some, true, none⟩
  | _ => some .none

/-- The effect of an instruction of the 65816. -/
def wideEffect? (i : Instr) : Option Effect :=
  match i.op with
  | "rep" | "sep" => some .flagsOnly
  | "plx" => some (.computes x)
  | "ply" => some (.computes y)
  | "xba" => some (.computes a)
  | _ => effect? i

end Mos

namespace Intel

/-- The byte register that an operand names. -/
def byteOf? : Option Arg → Option Register
  | some (.reg name) => [a, b, c, d, e, h, l].find? (·.name == name)
  | _ => none

/-- The pair that an operand names by its high half. -/
def pairOf? : Option Arg → Option Register
  | some (.reg "b") => some bc
  | some (.reg "d") => some de
  | some (.reg "h") => some hl
  | _ => none

/-- The effect of an instruction of the 8080. -/
def effect (i : Instr) : Effect :=
  let first := i.args.head?
  match i.op with
  | "mov" | "mvi" =>
    match byteOf? first with
    | some r => .writes1 r
    | none => .none
  | "inr" | "dcr" =>
    match byteOf? first with
    | some r => .computes r
    | none => .flagsOnly
  | "lda" | "ldax" | "cma" | "rar" | "ral" | "rrc" | "rlc" => .writes1 a
  | "add" | "adc" | "sub" | "sbb" | "ana" | "xra" | "ora" | "adi" | "aci" | "sui" | "sbi" | "ani"
  | "xri" | "ori" => .computes a
  | "cmp" | "cpi" => .flagsOnly
  | "lxi" | "lhld" | "inx" | "dcx" =>
    match pairOf? first with
    | some r => .writes1 r
    | none => .none
  | "pop" =>
    if first == some (.reg "psw") then ⟨[some a], true, none⟩ else ⟨[pairOf? first], false, none⟩
  | "dad" => .writes1 hl
  | "xchg" => ⟨[some hl, some de], false, none⟩
  | "call" => ⟨[some a, some bc, some de, some hl], true, none⟩
  | _ => .none

end Intel

/-- **The effect of an instruction**; none where an operand is needed and missing. -/
def Arch.effect? : Arch → Instr → Option Effect
  | .mos6502, i => Mos.effect? i
  | .wdc65816, i => Mos.wideEffect? i
  | .i8080, i => some (Intel.effect i)

end Octet
