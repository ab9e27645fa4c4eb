import Octet.Build.Reach
import Octet.ParallelMove

/-!
# Calls

Arguments are passed as one parallel move into the registers of the parameters; those that travel in
memory are stored first. The prologue of a function is another parallel move, from where the
parameters arrive to where their variables live. A register that has received its value stays pinned
until all have.

## Main definitions

* `Build.parallel` — moves that happen at once
* `Build.subroutine`, `Build.prologue` — passing and receiving parameters
* `Build.returnValue` — leaving a function
-/

namespace Octet

namespace Build

/-- The registers that reading a location needs. -/
def readsOf (l : Location) : List Register := l.touched?.toList

/-- A transfer as one of several parallel moves. -/
def toParallelMove (t : Location × Location) : ParallelMove := ⟨t.1.register?, readsOf t.2⟩

/-- The sources of the transfers at some positions, copied aside one after the other. -/
def saveSources (ts : List (Location × Location)) : List Nat → Build (List (Location × Location))
  | [] => return ts
  | i :: is => do
    match ts[i]? with
    | some (dest, source) =>
      let t ← toTemporary source
      saveSources (ts.set i (dest, t)) is
    | none => saveSources ts is

/-- Does the transfers at some positions and pins the registers written; the last pin comes
first. -/
def transferAll (ts : List (Location × Location)) : List Nat → Build (List Reservation)
  | [] => return []
  | i :: is => do
    match ts[i]? with
    | none => transferAll ts is
    | some (dest, source) =>
      move dest source
      match dest.place with
      | .register (some r) =>
        let held ← pin (some r)
        return (← transferAll ts is) ++ [held]
      | _ => transferAll ts is

/-- **Parallel transfers.** The destinations stay pinned; their pins are returned, the last one
first. -/
def parallel (ts : List (Location × Location)) : Build (List Reservation) := do
  let (order, saves) ←
    ofExcept (ParallelMove.order (ts.map toParallelMove) (some (← accumulator)))
  let ts ← saveSources ts saves
  transferAll ts order

/-- Stores the arguments that travel in memory, and returns the transfers of the others. -/
def arguments (callee : Signature) :
    List (Parameter × Option Register × Operand) → Build (List (Location × Location))
  | [] => return []
  | (p, arrival, arg) :: rest => do
    let source ← locate arg
    match arrival with
    | some r => return (.ofRegister r, source) :: (← arguments callee rest)
    | none =>
      unless (← get).ledger.defined.contains callee.name do modifyLedger (·.reference p.slot)
      move (.memory p.slot 0 p.type.byteCount) source
      arguments callee rest

/-- **A call.** No register survives it. -/
def subroutine (callee : Signature) (args : List Operand) (dest : Option Operand) : Build Unit := do
  let m ← arch
  let ts ← arguments callee (callee.params.zip ((callee.arrivals m).zip args))
  let held ← parallel ts
  call callee.name
  held.forM release
  if let some d := dest then move (← locate d) (.ofRegister (m.result callee.result))

/-- The transfer of a parameter from where it arrives to where its variable lives, if it is
needed. -/
def parameterTransfer? (site : Site) (p : Parameter) (arrival : Option Register) :
    Option (Location × Location) := do
  let v ← site.function.parameterVariable? p
  guard (0 ≤ (site.function.range v).first)
  let width : Int := p.type.byteCount
  let home := match site.registers.get v with
    | some r => .ofRegister r
    | none => .memory v.label 0 width
  let source := match arrival with
    | some r => .ofRegister r
    | none => .memory p.slot 0 width
  guard (!home.same source)
  return (home, source)

/-- **The prologue** of a function. -/
def prologue : Build Unit := do
  let site ← read
  let f := site.function
  let arrivals := f.signature.arrivals site.target.arch
  let ts := (f.params.zip arrivals).filterMap fun (p, r) => parameterTransfer? site p r
  let held ← parallel ts
  held.forM release

/-- **Leaving a function.** -/
def returnValue (value : Option Operand) : Build Unit := do
  let m ← arch
  if let some v := value then
    let r := m.result (← read).function.result
    move (.ofRegister r) (← locate v)
  emit m.branches.ret []

end Build

end Octet
