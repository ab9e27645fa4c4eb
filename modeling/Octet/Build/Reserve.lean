import Octet.Build.Save

/-!
# Reserving registers

Code that needs a register reserves it. If the register is occupied, its content is saved, and
restored when the reservation is released. A unit is occupied when an open reservation holds it, or
when a variable in it is live at the instruction, other than the one written there. A variable that
dies in the register of the destination hands it over, and does not occupy it.

Reservations nest: they are released in reverse order.

## Main definitions

* `Site.occupied` — whether a unit must be preserved
* `Build.reserve`, `Build.reserveAny`, `Build.pin`, `Build.release` — taking registers and giving
  back
-/

namespace Octet

open Assembly

namespace Site

/-- Whether a variable occupies a unit. `spare` is one that need not be preserved. -/
def heldBy (s : Site) (spare : Option Variable) (u : Register) (v : Variable) : Bool :=
  match s.registers.get v with
  | none => false
  | some r =>
    let range := s.function.range v
    let dest := s.dest?
    let handedOver := range.last == s.address && Register.clash (dest.bind s.registers.get) (some r)
    dest != some v && spare != some v && r.conflicts u && range.liveAt s.address && !handedOver

/-- **Occupation.** Whether a unit must be preserved: an open reservation overlaps it, or a variable
occupies it. -/
def occupied (s : Site) (reserved : List Reservation) (spare : Option Variable) (u : Register) :
    Bool :=
  (reserved.any fun res => Register.clash res.register (some u)) ||
    s.function.vars.any (s.heldBy spare u)

/-- The variable of the instruction that is at a location. -/
def variableAt (s : Site) (l : Location) : Option Variable :=
  let vs := match s.inst with
    | some i => i.operands.filterMap Operand.direct?
    | none => []
  vs.find? fun v =>
    match s.registers.get v, l.place with
    | some r, .register loc => Register.clash (some r) loc
    | some r, .memory _ _ (some home) => r == home
    | _, _ => false

/-- The variable at a location, if it dies at the instruction. -/
def dying (s : Site) (l : Location) : Option Variable :=
  (s.variableAt l).filter fun v => (s.function.range v).last == s.address

end Site

namespace Build

/-- Whether a register holds a reserved value or a live variable. -/
def inUse (r : Register) : Build Bool := do
  let site ← read
  let reserved := (← draft).reserved
  return r.units.any (site.occupied reserved none)

/-- Opens a reservation. -/
def hold (r : Option Register) (restore : Option (List Instr)) : Build Reservation := do
  let res : Reservation := ⟨(← draft).tickets, r, restore⟩
  modifyDraft fun d => { d with reserved := res :: d.reserved, tickets := d.tickets + 1 }
  return res

/-- Saves units and returns the code that restores them. -/
def save (units : List Register) : Build (List Instr) := do
  let first := (← draft).saves
  let code ← ofExcept ((← arch).saveCode first units)
  (List.range (code.next - first)).forM fun _ => discard saveCell
  emitAll code.save
  return code.restore

/-- Takes a register; `spare` need not be preserved. -/
def reserveSparing (r : Register) (spare : Option Variable) : Build Reservation := do
  let site ← read
  let reserved := (← draft).reserved
  match r.units.filter (site.occupied reserved spare) with
  | [] => hold (some r) none
  | units => hold (some r) (some (← save units))

/-- Takes a register. -/
def reserve (r : Register) : Build Reservation := reserveSparing r none

/-- Takes a register that will receive a location. A variable that dies there is not saved. -/
def reserveFor (r : Register) (source : Location) : Build Reservation := do
  reserveSparing r ((← read).dying source)

/-- Marks a register as holding a value under construction, without saving what it holds. -/
def pin (r : Option Register) : Build Reservation := hold r none

/-- Gives a register back. Only the reservation that was opened last can be released. -/
def release (res : Reservation) : Build Unit := do
  match (← draft).reserved with
  | top :: rest =>
    if top.ticket == res.ticket then
      modifyDraft fun d => { d with reserved := rest }
      emitAll (res.restore.getD [])
    else failed
  | [] => failed
where
  failed : Build Unit := do
    let name := match res.register with
      | some r => r.name
      | none => "<nil>"
    throw (.releaseOrder name (← read).address)

/-- Takes the first of some registers that is free and that no avoided location uses, or else the
first that no avoided location uses. -/
def reserveAny (candidates : List Register) (avoid : List Location) :
    Build (Register × Reservation) := do
  let usable := candidates.filter fun c => !avoid.any (·.uses c)
  let site ← read
  let reserved := (← draft).reserved
  let free := usable.find? fun c => !c.units.any (site.occupied reserved none)
  match free.or usable.head? with
  | some r => return (r, ← reserve r)
  | none => throw (.noRegister (candidates.map (·.name)) site.address)

/-- Pins the register of a location, if it is in one. -/
def pinAt (l : Location) : Build (Option Reservation) :=
  match l.place with
  | .register r => return some (← pin r)
  | _ => return none

/-- Releases a reservation, if there is one. -/
def unpin : Option Reservation → Build Unit
  | some res => release res
  | none => return

/-- Restores everything that open reservations have saved, without releasing them. -/
def restoreAll : Build Unit := do emitAll (← draft).restores

end Build

end Octet
