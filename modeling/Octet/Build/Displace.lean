import Octet.Build.Reserve

/-!
# Displaced pointers

Memory behind a pointer can be reached only within a window after the pointer: 256 bytes on the 6502
family, the pointed byte alone on the 8080. To reach further, the pointer register is moved, and the
draft remembers how far. It is moved back before the register is read as a variable, before control
leaves the instruction, and at its end, unless nothing needs it any more. Moving a pointer keeps the
flags.

## Main definitions

* `Arch.inWindow`, `Arch.adjustCode` — the window of a pointer, and code that moves one
* `Build.settle`, `Build.settleAll` — moving pointers back
* `Build.locate` — where an operand is
* `Build.jump`, `Build.branch` — leaving the instruction
-/

namespace Octet

open Assembly

/-- Whether a displacement from a pointer can be reached directly. -/
def Arch.inWindow (m : Arch) (index : Int) : Bool :=
  match m with
  | .i8080 => index == 0
  | _ => 0 ≤ index && index < 256

namespace Mos

/-- Adds to a pointer in the zero page, keeping `a` and the flags. -/
def adjustCode (p : Register) (delta : Int) : List Instr :=
  let low : Arg := .mem p.address 0
  let high : Arg := .mem p.address 1
  [⟨"php", []⟩, ⟨"pha", []⟩, ⟨"clc", []⟩, ⟨"lda", [low]⟩, ⟨"adc", [.imm (Bits.low 8 delta)]⟩,
    ⟨"sta", [low]⟩, ⟨"lda", [high]⟩, ⟨"adc", [.imm (Bits.low 8 (Bits.shr delta 8))]⟩, ⟨"sta", [high]⟩,
    ⟨"pla", []⟩, ⟨"plp", []⟩]

end Mos

namespace Intel

/-- Adds to a pair: by counting if the distance is small, else to `hl` through `de`. -/
def adjustCode (p : Register) (delta : Int) : Except Fault (List Instr) :=
  let small : Int := Arch.threshold .i8080
  if delta == 0 then .ok []
  else if -small ≤ delta && delta ≤ small then do
    let arg ← pairArg p
    return List.replicate delta.natAbs ⟨if delta < 0 then "dcx" else "inx", [arg]⟩
  else
    .ok [⟨"push", [psw]⟩, ⟨"push", [.reg "d"]⟩, ⟨"lxi", [.reg "d", .imm (Bits.low 16 delta)]⟩,
      ⟨"dad", [.reg "d"]⟩, ⟨"pop", [.reg "d"]⟩, ⟨"pop", [psw]⟩]

end Intel

/-- Code that adds to a pointer register and keeps the flags and the other registers. -/
def Arch.adjustCode (m : Arch) (p : Register) (delta : Int) : Except Fault (List Instr) :=
  match m with
  | .i8080 => Intel.adjustCode p delta
  | _ => .ok (Mos.adjustCode p delta)

namespace Build

/-- Adds to a pointer register. The flags still show what they did. -/
def adjust (p : Register) (delta : Int) : Build Unit := do
  let flags := (← draft).flags
  emitAll (← ofExcept ((← arch).adjustCode p delta))
  modifyDraft fun d => { d with flags, known := d.known.forget p }

/-- Moves a displaced pointer register back. -/
def moveBack (p : Register) (delta : Int) : Build Unit := do
  adjust p (-delta)
  modifyDraft (·.dropOffset p)

/-- Moves back every pointer register that conflicts with a register. -/
def settle (r : Register) : Build Unit := do
  (← draft).offsets.forM fun (p, o) =>
    if p.conflicts r && o.delta != 0 then moveBack p o.delta else pure ()

/-- Moves back every pointer register whose variable is needed after the instruction. -/
def settleAll : Build Unit := do
  let site ← read
  let sorted := (← draft).offsets.mergeSort fun a b => a.1.id ≤ b.1.id
  sorted.forM fun (p, o) =>
    let needed := match o.owner with
      | some v => (site.function.range v).last > site.address
      | none => false
    if o.delta != 0 && needed then moveBack p o.delta else pure ()

/-- **Where an operand is.** A displaced pointer is moved back before it is read as a variable. -/
def locate (o : Operand) : Build Location := do
  let registers := (← read).registers
  if let some r := o.direct?.bind registers.get then settle r
  return o.located registers

/-- Leaves the instruction for a label. -/
def jump (target : String) : Build Unit := do
  settleAll
  restoreAll
  emit (← arch).branches.jump [.label target]

/-- Leaves the instruction for a label on a condition. While something is saved, the condition is
inverted around the restores and a jump, so that they happen only if the branch is taken. -/
def branch (mnemonic target : String) : Build Unit := do
  settleAll
  if (← draft).hasSaves then
    let branches := (← arch).branches
    match branches.opposites.lookup mnemonic with
    | none => throw (.noInverse mnemonic)
    | some inverse =>
      let skip ← freshLabel
      emit inverse [.label skip]
      restoreAll
      emit branches.jump [.label target]
      label skip
  else emit mnemonic [.label target]

end Build

end Octet
