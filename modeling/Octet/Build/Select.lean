import Octet.Build.Call
import Octet.Build.Compare
import Octet.Build.Shift

/-!
# The code of an instruction

Every instruction has its own way to be built. On the 8080 a word copy between `hl` and `de` whose
source dies is an exchange of the two.

## Main definitions

* `Build.exchange` — the copy that is an exchange
* `Build.instruction` — the code of an instruction
-/

namespace Octet

namespace Build

/-- A word copy between `hl` and `de` whose source dies, as an exchange. -/
def exchange (dest source : Operand) : Build Bool := do
  let site ← read
  let dies := match source.direct? with
    | some v => (site.function.range v).last == site.address
    | none => false
  if !dies then return false
  let d ← locate dest
  let s ← locate source
  let between := (d.isIn Intel.hl && s.isIn Intel.de) || (d.isIn Intel.de && s.isIn Intel.hl)
  if d.width == 2 && s.width == 2 && between then
    emit "xchg" []
    return true
  return false

/-- Copies a value. -/
def copyValue (dest source : Operand) : Build Unit := do
  let d ← locate dest
  let s ← locate source
  move d s

/-- Loads a value. -/
def load (dest source : Operand) : Build Unit := do
  let exchanged ← match ← arch with
    | .i8080 => exchange dest source
    | _ => pure false
  unless exchanged do copyValue dest source

/-- Converts a value to the width of the destination. -/
def resize (dest source : Operand) : Build Unit := do
  let d ← locate dest
  let s ← locate source
  if s.width < d.width && s.signed then extend d s else move d s

/-- Continues at a label, unless control gets there anyway. -/
def jumpTo (target : Anchor) : Build Unit := do
  let site ← read
  let labels := (site.function.code.drop site.address).takeWhile (·.operator == .label)
  unless labels.contains (.label target) do jump target.name

/-- **The code of an instruction.** -/
def instruction : Inst → Build Unit
  | .label a => modifyDraft (·.append (.label a.name))
  | .load d s => load d s
  | .binary op d l r =>
    match op with
    | .add | .sub => addOrSubtract op d l r
    | .and | .or | .xor => bitwise op d l r
    | .shl => shift true d l r
    | .shr => shift false d l r
    | .mul => multiply d l r
  | .unary op d s => negate op d s
  | .resize d s => resize d s
  | .jump a => jumpTo a
  | .compare c l r a => compare c l r a.name
  | .decJump d a => decrementAndJump d a.name
  | .call callee args d => subroutine callee args d
  | .ret v => returnValue v

end Build

end Octet
