import Octet.Assembly

/-!
# Simulated memory

A flat memory of 64K bytes, with the symbols that have been placed in it. The cells of a program are
laid out one after another from a base address; a symbol that the program does not declare gets two
bytes on its first use. Addresses are integers and wrap around at the end of the memory, so reading
and writing are total.

Laying out is not: a cell has to start within the memory, or at its very end. The next free address
is an integer of 64 bits, so behind a cell that is large enough it lies below zero.

## Main definitions

* `Memory`, `Memory.read`, `Memory.write` — bytes, and values of several bytes with the lowest first
* `Memory.address` — where a symbol lives, which may place it
* `Memory.ofCells?` — the layout of the cells of a program
* `Memory.at?`, `Memory.setAt?` — access without wrapping around
-/

namespace Octet.Simulator

/-- Memory with symbols placed in it. -/
structure Memory where
  ram : Vector UInt8 65536
  /-- Addresses of symbols, the latest placement first. -/
  symbols : List (String × Int)
  /-- Where the next symbol is placed. -/
  next : Int

namespace Memory

/-- Memory without contents, whose symbols are placed from `base` on. -/
def blank (base : Int) : Memory := ⟨Vector.replicate 65536 0, [], base⟩

/-- The byte that an address selects. -/
def index (addr : Int) : Fin 65536 :=
  ⟨(addr % 65536).toNat, by
    have := Int.emod_nonneg addr (b := 65536) (by decide)
    have := Int.emod_lt_of_pos addr (b := 65536) (by decide)
    omega⟩

/-- The lowest byte of a value. -/
def byteOf (v : Int) : UInt8 := UInt8.ofNat (v % 256).toNat

/-! ### Reading and writing -/

/-- The byte at an address. -/
def byte (m : Memory) (addr : Int) : UInt8 := m.ram[index addr]

/-- Puts a byte at an address. -/
def setByte (m : Memory) (addr : Int) (b : UInt8) : Memory :=
  { m with ram := m.ram.set (index addr) b }

/-- The value of `n` bytes from an address on, the lowest first. -/
def value (m : Memory) (addr : Int) : Nat → Int
  | 0 => 0
  | n + 1 => (m.byte addr).toNat + 256 * m.value (addr + 1) n

/-- Puts the lowest `n` bytes of a value at an address, the lowest first. -/
def setValue (m : Memory) (addr v : Int) : Nat → Memory
  | 0 => m
  | n + 1 => (m.setByte addr (byteOf v)).setValue (addr + 1) (Bits.shr v 8) n

/-- **Reading.** The value of `width` bytes at an address, which is an integer of 64 bits. -/
def read (m : Memory) (addr width : Int) : Int :=
  let v := m.value addr width.toNat
  if width < 8 then v else Bits.wrap v

/-- **Writing.** Stores `width` bytes of `v` at an address. -/
def write (m : Memory) (addr width v : Int) : Memory := m.setValue addr v width.toNat

/-- The byte at an index that has to lie within the memory. -/
def at? (m : Memory) (i : Int) : Option UInt8 :=
  if 0 ≤ i && i < 65536 then some (m.byte i) else none

/-- Puts a byte at an index that has to lie within the memory. -/
def setAt? (m : Memory) (i : Int) (b : UInt8) : Option Memory :=
  if 0 ≤ i && i < 65536 then some (m.setByte i b) else none

/-! ### Symbols -/

/-- Gives a name the next free address. -/
def place (m : Memory) (name : String) (size : Int) : Memory :=
  { m with symbols := (name, m.next) :: m.symbols, next := Bits.wrap (m.next + size) }

/-- **Where a symbol lives.** One that has not been placed yet gets two bytes. -/
def address (m : Memory) (name : String) : Int × Memory :=
  match m.symbols.lookup name with
  | some addr => (addr, m)
  | none => (m.next, m.place name 2)

/-- Reads the bytes at a symbol. -/
def peek (m : Memory) (name : String) (width : Int) : Int × Memory :=
  let (addr, m) := m.address name
  (m.read addr width, m)

/-- Writes the bytes at a symbol. -/
def poke (m : Memory) (name : String) (width v : Int) : Memory :=
  let (addr, m) := m.address name
  m.write addr width v

/-! ### Layout -/

/-- Puts bytes at an address and after it, up to the end of the memory. -/
def fill (m : Memory) (addr : Int) : List UInt8 → Memory
  | [] => m
  | b :: bs => if addr < 65536 then (m.setByte addr b).fill (addr + 1) bs else m

/-- The bytes that a cell takes up: at least one, and enough for its contents. -/
def extent (c : Assembly.Cell) : Int := max c.size (max c.init.length 1)

/-- Places a cell with its contents, unless it would start outside the memory. -/
def addCell? (m : Memory) (c : Assembly.Cell) : Option Memory :=
  if 0 ≤ m.next && m.next ≤ 65536 then some ((m.fill m.next c.init).place c.name (extent c)) else none

/-- **The layout of cells** from a base address upwards. -/
def ofCells? (base : Int) (cells : List Assembly.Cell) : Option Memory :=
  cells.foldlM addCell? (blank base)

end Memory

end Octet.Simulator
