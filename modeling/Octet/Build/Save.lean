import Octet.Build.Draft

/-!
# Saving registers

Code that needs an occupied register saves the content first and brings it back later. What is saved
is a list of units: byte registers, and registers that are memory cells. The code that saves and the
code that restores are built together; the restores run in reverse order.

The 6502 pushes `a`, parks `x` and `y` in save cells, and copies memory cells through `a`. The 65816
pushes all three, and copies words with a wide accumulator, after all bytes are saved. The 8080
pushes `a` with the flags, and whole pairs; a byte whose other half is not saved goes to a save
cell, because popping the pair would overwrite that half.

## Main definitions

* `SaveCode` — code that saves some units, and code that restores them
* `Arch.saveCode` — the save code of a machine
-/

namespace Octet

open Assembly

/-- Code that saves some units, code that restores them, and the first save cell left unused. -/
structure SaveCode where
  save : List Instr
  restore : List Instr
  next : Nat
  deriving DecidableEq, Repr

namespace SaveCode

/-- No units are saved. -/
def none (n : Nat) : SaveCode := ⟨[], [], n⟩

/-- Units saved one after the other are restored in reverse. -/
def andThen (s t : SaveCode) : SaveCode := ⟨s.save ++ t.save, t.restore ++ s.restore, t.next⟩

end SaveCode

namespace Mos

/-- Copies a memory cell through `a`, which is kept. -/
def copyThroughA (dest source : String) (width : Int) : List Instr :=
  ⟨"pha", []⟩ ::
    (List.range width.toNat).flatMap (fun i =>
      [⟨"lda", [.mem source i]⟩, ⟨"sta", [.mem dest i]⟩]) ++ [⟨"pla", []⟩]

/-- Code with a wide accumulator. -/
def wide (code : List Instr) : List Instr :=
  [⟨"rep", [.imm 0x20]⟩, ⟨".a16", []⟩] ++ code ++ [⟨"sep", [.imm 0x20]⟩, ⟨".a8", []⟩]

/-- Copies a word through the wide accumulator, which is kept. -/
def copyWord (dest source : String) : List Instr :=
  wide [⟨"pha", []⟩, ⟨"lda", [.mem source 0]⟩, ⟨"sta", [.mem dest 0]⟩, ⟨"pla", []⟩]

/-- Saves one unit on the 6502. -/
def saveUnit (n : Nat) (u : Register) : Except Fault SaveCode :=
  let cell := Build.saveCellName n
  if u == a then .ok ⟨[⟨"pha", []⟩], [⟨"pla", []⟩], n⟩
  else if u == x || u == y then
    .ok ⟨[⟨"st" ++ u.name, [.mem cell 0]⟩], [⟨"ld" ++ u.name, [.mem cell 0]⟩], n + 1⟩
  else if u.isCell then
    .ok ⟨copyThroughA cell u.address u.width, copyThroughA u.address cell u.width, n + 1⟩
  else .error (.cannotSave "mos6502" u.name)

/-- Saves one unit on the 65816. -/
def saveWideUnit (n : Nat) (u : Register) : Except Fault SaveCode :=
  let cell := Build.saveCellName n
  if u == a || u == x || u == y then
    .ok ⟨[⟨"ph" ++ u.name, []⟩], [⟨"pl" ++ u.name, []⟩], n⟩
  else if u.isCell then
    if u.isWord then .ok ⟨copyWord cell u.address, copyWord u.address cell, n + 1⟩
    else .ok ⟨copyThroughA cell u.address 1, copyThroughA u.address cell 1, n + 1⟩
  else .error (.cannotSave "wdc65816" u.name)

/-- Saves units one after the other. -/
def saveUnits (one : Nat → Register → Except Fault SaveCode) :
    Nat → List Register → Except Fault SaveCode
  | n, [] => .ok (.none n)
  | n, u :: us => do
    let s ← one n u
    return s.andThen (← saveUnits one s.next us)

end Mos

namespace Intel

/-- The operand that names a pair, by its high half. -/
def pairArg (r : Register) : Except Fault Arg :=
  match r.high? with
  | some h => .ok (.reg h.name)
  | none => .error .absent

/-- The flags with the accumulator, as an operand. -/
def psw : Arg := .reg "psw"

/-- The pair of a byte register, and the other half of that pair. -/
def pairAndMate? (u : Register) : Option (Register × Register) :=
  [bc, de, hl].findSome? fun p =>
    match p.low?, p.high? with
    | some l, some h => if u == l then some (p, h) else if u == h then some (p, l) else none
    | _, _ => none

/-- Saves a byte register alone, in a save cell. -/
def saveAlone (n : Nat) (u : Register) : SaveCode :=
  let cell : Arg := .mem (Build.saveCellName n) 0
  ⟨[⟨"push", [psw]⟩, ⟨"mov", [.reg "a", .reg u.name]⟩, ⟨"sta", [cell]⟩, ⟨"pop", [psw]⟩],
    [⟨"push", [psw]⟩, ⟨"lda", [cell]⟩, ⟨"mov", [.reg u.name, .reg "a"]⟩, ⟨"pop", [psw]⟩], n + 1⟩

/-- Saves units one after the other, leaving out those in `done`. -/
def saveUnits : Nat → List Register → List Register → Except Fault SaveCode
  | n, _, [] => .ok (.none n)
  | n, done, u :: us => do
    if done.contains u then saveUnits n done us
    else if u == a then
      let rest ← saveUnits n (u :: done) us
      return SaveCode.andThen ⟨[⟨"push", [psw]⟩], [⟨"pop", [psw]⟩], n⟩ rest
    else
      match (pairAndMate? u).filter fun (_, mate) => us.contains mate with
      | some (p, mate) =>
        let arg ← pairArg p
        let rest ← saveUnits n (mate :: u :: done) us
        return SaveCode.andThen ⟨[⟨"push", [arg]⟩], [⟨"pop", [arg]⟩], n⟩ rest
      | none =>
        let s := saveAlone n u
        return s.andThen (← saveUnits s.next (u :: done) us)

end Intel

/-- **The save code of a machine** for distinct units. Save cells are numbered from `n` on. -/
def Arch.saveCode (m : Arch) (n : Nat) (units : List Register) : Except Fault SaveCode :=
  match m with
  | .mos6502 => Mos.saveUnits Mos.saveUnit n units
  | .wdc65816 =>
    Mos.saveUnits Mos.saveWideUnit n
      (units.filter (!·.isWord) ++ units.filter (·.isWord))
  | .i8080 => Intel.saveUnits n [] units

end Octet
