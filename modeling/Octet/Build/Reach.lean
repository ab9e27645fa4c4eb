import Octet.Build.Transfer

/-!
# Reaching memory behind pointers

A pointer variable whose register can be followed is followed there. Any other one is first loaded
into a scratch pointer, by direct moves. If the byte lies outside the window of the pointer, the
pointer is moved.

A register that overlaps the scratch pointer cannot be loaded or stored while that pointer is in
use; its byte travels through another register.

## Main definitions

* `Reached`, `Build.pointer`, `Build.done` — a pointer made ready, and given back
* `Build.full` — the access to all places
* `Build.moveByte`, `Build.moveWord`, `Build.move` — moves between any two locations
-/

namespace Octet

open Assembly

/-- A pointer register ready to be followed, with the index of the byte. A scratch pointer comes
with the reservation of the register and the pin on its value. -/
structure Reached where
  register : Register
  index : Int
  held : Option (Reservation × Reservation)
  deriving DecidableEq, Repr

namespace Build

/-- **Makes the pointer of a location ready.** -/
def pointer (l : Location) : Build Reached := do
  match l.place with
  | .indirect v base offset =>
    let (p, owner, held) ← match base.filter (·.isPointer) with
      | some p => pure (p, some v, none)
      | none =>
        let (p, res) ← reserveAny (← arch).pointerScratch []
        modifyDraft (·.dropOffset p)
        direct.move (.ofRegister p) (← locate (.whole v))
        let held ← pin (some p)
        pure (p, none, some (held, res))
    let index := Bits.wrap (offset - (← draft).offset p)
    if (← arch).inWindow index then return ⟨p, index, held⟩
    adjust p index
    modifyDraft (·.setOffset p ⟨offset, owner⟩)
    return ⟨p, 0, held⟩
  | _ => throw .absent

/-- Gives a pointer back. -/
def done (p : Reached) : Build Unit := do
  match p.held with
  | none => return
  | some (held, res) =>
    modifyDraft (·.dropOffset p.register)
    release held
    release res

end Build

namespace Mos

/-- Emits an instruction on the byte behind a pointer, with the index in `y`. -/
def indexed (op : String) (p : Reached) : Build Unit := do
  Build.loadDirect (some y) (.immediate p.index 1)
  Build.emit op [.ind p.register.address "y"]

/-- Loads the byte behind a pointer. -/
def loadIndirect (r : Option Register) (p : Reached) : Build Unit := do
  if r == some a then
    let held ← Build.reserve y
    indexed "lda" p
    Build.release held
  else if r == some y then
    let held ← Build.reserve a
    indexed "lda" p
    Build.emit "tay" []
    Build.release held
  else
    let heldA ← Build.reserve a
    let heldY ← Build.reserve y
    indexed "lda" p
    Build.release heldY
    Build.emit ("ta" ++ (← Build.nameOf r)) []
    Build.release heldA

/-- Stores to the byte behind a pointer. -/
def storeIndirect (r : Option Register) (p : Reached) : Build Unit := do
  if r == some a then
    let held ← Build.reserve y
    indexed "sta" p
    Build.release held
  else
    let heldA ← Build.reserve a
    Build.emit ("t" ++ (← Build.nameOf r) ++ "a") []
    let heldY ← Build.reserve y
    indexed "sta" p
    Build.release heldY
    Build.release heldA

end Mos

namespace Intel

/-- The byte behind `hl`, as an operand. -/
def mArg : Arg := .reg "m"

end Intel

namespace Build

/-- Loads a byte behind a pointer that does not overlap the register. -/
def loadThrough (r : Option Register) (source : Location) : Build Unit := do
  let p ← pointer source
  match ← arch with
  | .i8080 => emit "mov" [← Intel.regArg r, Intel.mArg]
  | _ => Mos.loadIndirect r p
  done p
  forget (.ofRegister (← present r))

/-- Stores to a byte behind a pointer that does not overlap the register. -/
def storeThrough (r : Option Register) (dest : Location) : Build Unit := do
  let p ← pointer dest
  match ← arch with
  | .i8080 => emit "mov" [Intel.mArg, ← Intel.regArg r]
  | _ => Mos.storeIndirect r p
  done p
  written dest

/-- The register if it overlaps a scratch pointer that reaching the location would need. -/
def overlapping? (r : Option Register) (l : Location) : Build (Option Register) := do
  match l.place with
  | .indirect _ base _ =>
    if (base.filter (·.isPointer)).isSome then return none
    let scratch := (← arch).pointerScratch
    return r.filter fun r => scratch.any (·.conflicts r)
  | _ => return none

/-- Loads a byte from anywhere. -/
def loadByte (r : Option Register) (source : Location) : Build Unit := do
  if !source.isIndirect then loadDirect r source
  else
    match ← overlapping? r source with
    | none => loadThrough r source
    | some r =>
      let own := Location.ofRegister r
      let (t, res) ← reserveAny ((← arch).transfer own source) [own]
      loadThrough (some t) source
      loadDirect (some r) (.ofRegister t)
      release res

/-- Stores a byte anywhere. -/
def storeByte (r : Option Register) (dest : Location) : Build Unit := do
  if !dest.isIndirect then storeDirect r dest
  else
    match ← overlapping? r dest with
    | none => storeThrough r dest
    | some r =>
      let own := Location.ofRegister r
      let (t, res) ← reserveAny ((← arch).transfer dest own) [own]
      loadDirect (some t) own
      storeThrough (some t) dest
      release res

/-- The access to all places. -/
def full : Access := ⟨loadByte, storeByte⟩

/-- Moves a byte between any two locations. -/
def moveByte (dest source : Location) : Build Unit := full.moveByte dest source

/-- Moves a word between any two locations. -/
def moveWord (dest source : Location) : Build Unit := full.moveWord dest source

/-- Moves a value, cut or extended to the width of the destination. -/
def move (dest source : Location) : Build Unit := full.move dest source

/-- Extends a signed byte to a word. -/
def extend (dest source : Location) : Build Unit := full.extend dest source

/-- Takes a register and loads it. A variable that dies there is not saved. -/
def reserveLoad (r : Register) (source : Location) : Build Reservation := do
  let res ← reserveFor r source
  move (.ofRegister r) source
  return res

/-- Stores a register to a temporary. -/
def toTemporaryByte (r : Option Register) : Build Location := do
  let t ← temporary 1
  storeByte r t
  return t

/-- Copies a value to a temporary of its width. -/
def toTemporary (l : Location) : Build Location := do
  let t ← temporary l.width
  move t l
  return t

/-- Loads two registers, in an order in which neither load destroys the other source. Where none
does, the second source is copied aside. -/
def loadTwo (r : Register) (a : Location) (s : Register) (b : Location) : Build Unit := do
  let da := Location.ofRegister r
  let db := Location.ofRegister s
  if !da.clobbers b then
    move da a
    let held ← pin (some r)
    move db b
    release held
  else if !db.clobbers a then
    move db b
    let held ← pin (some s)
    move da a
    release held
  else
    let t ← toTemporary b
    move da a
    let held ← pin (some r)
    move db t
    release held

end Build

end Octet
