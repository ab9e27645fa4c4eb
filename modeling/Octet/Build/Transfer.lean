import Octet.Build.Displace

/-!
# Moving values

A byte is moved by loading it into a register and storing it from there. How a byte register is
loaded and stored depends on the machine; everything above that does not. The moves are therefore
written over an `Access`, a way to load and a way to store a byte. The *direct* access reaches
constants, registers and memory at symbols; memory behind pointers is added on top of it, since
following a pointer needs moves itself.

A word is moved by an instruction of the machine where there is one, and else byte by byte, in an
order in which the first byte does not destroy what the second one needs. Where no order does, one
byte goes through a temporary. A signed byte that is moved to a word is extended.

## Main definitions

* `Access`, `Build.direct` — ways to load and store a byte
* `WordPlan`, `Location.wordPlan` — the order in which the bytes of a word are moved
* `Build.nativeMove` — moving a word by an instruction of the machine
* `Access.moveByte`, `Access.moveWord`, `Access.move` — moves
-/

namespace Octet

open Assembly

/-! ### Bytes -/

namespace Mos

/-- Copies between machine registers. There is no path between `x` and `y`. -/
def copy (dest source : Option Register) : Build Unit := do
  if dest == some a then Build.emit ("t" ++ (← Build.nameOf source) ++ "a") []
  else if source == some a then Build.emit ("ta" ++ (← Build.nameOf dest)) []
  else
    let held ← Build.reserve a
    Build.emit ("t" ++ (← Build.nameOf source) ++ "a") []
    Build.emit ("ta" ++ (← Build.nameOf dest)) []
    Build.release held

end Mos

namespace Intel

/-- A register as an operand. -/
def regArg (r : Option Register) : Build Arg := return .reg (← Build.nameOf r)

/-- The accumulator as an operand. -/
def aArg : Arg := .reg "a"

/-- Loads from memory, through the accumulator. -/
def loadMemory (r : Option Register) (m : Arg) : Build Unit := do
  if r == some a then Build.emit "lda" [m]
  else
    let held ← Build.reserve a
    Build.emit "lda" [m]
    Build.emit "mov" [← regArg r, aArg]
    Build.release held

/-- Stores to memory, through the accumulator. -/
def storeMemory (r : Option Register) (m : Arg) : Build Unit := do
  if r == some a then Build.emit "sta" [m]
  else
    let held ← Build.reserve a
    Build.emit "mov" [aArg, ← regArg r]
    Build.emit "sta" [m]
    Build.release held

end Intel

namespace Build

/-- Loads a constant or an address into a byte register. -/
def loadImmediate (r : Option Register) (value : Arg) : Build Unit := do
  match ← arch with
  | .i8080 => emit "mvi" [← Intel.regArg r, value]
  | _ => emit ("ld" ++ (← nameOf r)) [value]

/-- Loads memory at a symbol into a byte register. -/
def loadMemory (r : Option Register) (m : Arg) : Build Unit := do
  match ← arch with
  | .i8080 => Intel.loadMemory r m
  | _ => emit ("ld" ++ (← nameOf r)) [m]

/-- Stores a byte register to memory at a symbol. -/
def storeMemory (r : Option Register) (m : Arg) : Build Unit := do
  match ← arch with
  | .i8080 => Intel.storeMemory r m
  | _ => emit ("st" ++ (← nameOf r)) [m]

/-- Copies between machine registers. -/
def copy (dest source : Option Register) : Build Unit := do
  match ← arch with
  | .i8080 => emit "mov" [← Intel.regArg dest, ← Intel.regArg source]
  | _ => Mos.copy dest source

/-- Copies between machine registers. A constant known in the source is then known in both. -/
def copyKnown (dest source : Option Register) : Build Unit := do
  let value ← known? source
  copy dest source
  if let some v := value then setKnown (← present dest) v

/-- Loads a byte that is not behind a pointer. A constant that the register holds already is not
loaded again. -/
def loadDirect (r : Option Register) (source : Location) : Build Unit := do
  match source.place with
  | .immediate v =>
    unless (← known? r) == some v do
      loadImmediate r (.imm v)
      setKnown (← present r) v
      loaded
  | .symbol name o part =>
    loadImmediate r (.symbol name o part)
    loaded
  | .register s =>
    unless s == r do
      copyKnown r s
      loaded
  | .memory name o _ =>
    loadMemory r (.mem name o)
    loaded
  | .none | .indirect .. => throw (.badLoad source.text)
where
  loaded : Build Unit := do forget (.ofRegister (← present r))

/-- Stores a byte to a place that is not behind a pointer. -/
def storeDirect (r : Option Register) (dest : Location) : Build Unit := do
  match dest.place with
  | .register d => unless d == r do copyKnown d r
  | .memory name o _ => storeMemory r (.mem name o)
  | _ => throw (.badStore dest.text)
  written dest

end Build

/-- The registers through which a byte can be moved. Those of the 6502 do not all reach memory
behind a pointer. -/
def Arch.transfer (m : Arch) (dest source : Location) : List Register :=
  match m with
  | .i8080 => [Intel.a, Intel.e, Intel.d, Intel.c, Intel.b]
  | _ => if dest.isIndirect || source.isIndirect then [Mos.a] else [Mos.a, Mos.x, Mos.y]

/-- A way to load and a way to store a byte. -/
structure Access where
  load : Option Register → Location → Build Unit
  store : Option Register → Location → Build Unit

/-- The access to all places but those behind pointers. -/
def Build.direct : Access := ⟨Build.loadDirect, Build.storeDirect⟩

/-! ### Words -/

/-- Whether a location can be the operand of an instruction with a wide accumulator. -/
def Location.isWide (l : Location) : Bool :=
  match l.place with
  | .immediate _ => true
  | .symbol _ _ part => part == .whole
  | .memory .. => l.width == 2
  | _ => false

/-- Whether a location is a word in memory at a symbol. -/
def Location.isWordMemory (l : Location) : Bool := l.isMemory && l.width == 2

namespace Mos

/-- Moves a word with the wide accumulator. -/
def moveWide (dest source : Location) : Build Bool := do
  if !dest.isWordMemory || !source.isWide then return false
  let d ← Build.argOf dest
  if source.isZero then
    Build.emitAll (wide [⟨"stz", [d]⟩])
    return true
  let held ← Build.reserve a
  Build.emitAll (wide [⟨"lda", [← Build.argOf source]⟩, ⟨"sta", [d]⟩])
  Build.release held
  return true

end Mos

namespace Intel

/-- The pair that a location is, if it is one. -/
def pairAt? (l : Location) : Build (Option Register) := do
  match l.place with
  | .register r =>
    let r ← Build.present r
    return if r.isPair then some r else none
  | _ => return none

/-- Moves a word with an instruction for pairs. -/
def movePair (dest source : Location) : Build Bool := do
  match ← pairAt? dest, source.isImmediate with
  | some p, true =>
    Build.emit "lxi" [← Build.ofExcept (pairArg p), ← Build.argOf source]
    return true
  | _, _ =>
    if dest.isIn hl && source.isMemory then
      Build.emit "lhld" [← Build.argOf source]
      return true
    if source.isIn hl && dest.isMemory then
      Build.emit "shld" [← Build.argOf dest]
      return true
    return false

end Intel

/-- Moves a word by an instruction of the machine, if there is one. -/
def Build.nativeMove (dest source : Location) : Build Bool := do
  match ← arch with
  | .mos6502 => return false
  | .wdc65816 => Mos.moveWide dest source
  | .i8080 => Intel.movePair dest source

/-- The order in which the two bytes of a word are moved. -/
inductive WordPlan where
  | lowFirst
  | highFirst
  /-- The high byte goes through a temporary. -/
  | throughTemporary
  deriving DecidableEq, Repr

/-- The order in which the first byte written does not destroy the second byte read. -/
def Location.wordPlan (low high sourceLow sourceHigh : Location) : WordPlan :=
  if !low.clobbers sourceHigh then .lowFirst
  else if !high.clobbers sourceLow then .highFirst
  else .throughTemporary

/-- Whether a word destination is a pair that contains the accumulator, which moves byte by byte
need for both halves. -/
def Location.holdsAccumulator (l : Location) (m : Arch) : Bool :=
  l.width == 2 && l.isRegister && l.uses m.accumulator

namespace Build

/-- Registers that hold a constant and are free come first. -/
def preferKnown (candidates : List Register) (value : Int) : Build (List Register) := do
  let site ← read
  let d ← draft
  let hit (c : Register) : Bool :=
    d.known.get? c == some value && !c.units.any (site.occupied d.reserved none)
  return candidates.filter hit ++ candidates.filter fun c => !hit c

/-- Replaces the accumulator with 0xff if it is negative, and else with 0. -/
def signFill : Build Unit := do
  match ← arch with
  | .i8080 => emitAll [⟨"ral", []⟩, ⟨"sbb", [.reg "a"]⟩]
  | _ =>
    emitAll [⟨"asl", [.reg "a"]⟩, ⟨"lda", [.imm 0]⟩, ⟨"adc", [.imm 0xff]⟩, ⟨"eor", [.imm 0xff]⟩]

end Build

namespace Access

open Build

/-- **Moving a byte** between any two locations. -/
def moveByte (c : Access) (dest source : Location) : Build Unit := do
  if dest.same source then return
  match dest.place, source.place with
  | .register r, _ => c.load r source
  | _, .register s => c.store s dest
  | _, _ =>
    let candidates := (← arch).transfer dest source
    let candidates ← match source.constant? with
      | some v => preferKnown candidates v
      | none => pure candidates
    let (t, res) ← reserveAny candidates [dest, source]
    c.load (some t) source
    c.store (some t) dest
    release res

/-- Moves a word byte by byte. -/
def moveHalves (c : Access) (dest source : Location) : Build Unit := do
  let low ← byteOf dest 0
  let high ← byteOf dest 1
  let sourceLow ← byteOf source 0
  let sourceHigh ← byteOf source 1
  match low.wordPlan high sourceLow sourceHigh with
  | .lowFirst =>
    c.moveByte low sourceLow
    let held ← pinAt low
    c.moveByte high sourceHigh
    unpin held
  | .highFirst =>
    c.moveByte high sourceHigh
    let held ← pinAt high
    c.moveByte low sourceLow
    unpin held
  | .throughTemporary =>
    let t ← temporary 1
    c.moveByte t sourceHigh
    c.moveByte low sourceLow
    let held ← pinAt low
    c.moveByte high t
    unpin held
  forget dest

/-- Moves a word without extending a sign. -/
def movePlainWord (c : Access) (dest source : Location) : Build Unit := do
  if dest.same source then return
  if ← nativeMove dest source then written dest else c.moveHalves dest source

/-- Loads a byte into the accumulator, for which it is reserved. -/
def loadAccumulator (c : Access) (source : Location) : Build Reservation := do
  let acc ← accumulator
  let res ← reserveFor acc source
  c.moveByte (.ofRegister acc) (← byteOf source 0)
  return res

/-- Extends a signed byte to a word that does not contain the accumulator. -/
def extendApart (c : Access) (dest source : Location) : Build Unit := do
  let acc ← accumulator
  let res ← c.loadAccumulator source
  let low ← byteOf dest 0
  c.store (some acc) low
  let held ← pinAt low
  signFill
  c.store (some acc) (← byteOf dest 1)
  unpin held
  release res

/-- **Extending a signed byte** to a word. -/
def extend (c : Access) (dest source : Location) : Build Unit := do
  if dest.holdsAccumulator (← arch) then
    let t ← temporary 2
    c.extendApart t source
    c.movePlainWord dest t
  else c.extendApart dest source

/-- **Moving a word** between any two locations. -/
def moveWord (c : Access) (dest source : Location) : Build Unit := do
  if dest.same source then return
  if source.width == 1 && source.signed then c.extend dest source
  else c.movePlainWord dest source

/-- **Moving a value**, cut or extended to the width of the destination. -/
def move (c : Access) (dest source : Location) : Build Unit := do
  if dest.width == 1 then c.moveByte dest (← byteOf source 0) else c.moveWord dest source

end Access

end Octet
