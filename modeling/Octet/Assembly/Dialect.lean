import Octet.Assembly
import Octet.Text.Quoted

/-!
# Assembler dialects

The text of an assembly program depends on the assembler: how operands are written, and the
directives for segments, names and data. There are two dialects, that of ca65 for the 6502 family,
and that of M80 for the 8080.

## Main definitions

* `Dialect.arg`, `Dialect.line` — the text of an operand and of a line
* `Dialect.program` — the text of a program
-/

namespace Octet

/-- The dialect of an assembler. -/
inductive Dialect where
  | ca65
  | m80
  deriving DecidableEq, Repr

namespace Dialect

open Assembly

/-- The text of an operand. -/
def arg : Dialect → Arg → String
  | ca65, .imm value => "#" ++ toString value
  | m80, .imm value => toString value
  | ca65, .symbol name offset part =>
    let address := addressText name offset
    let grouped := if offset == 0 then address else "(" ++ address ++ ")"
    match part with
    | .whole => "#" ++ address
    | .low => "#<" ++ grouped
    | .high => "#>" ++ grouped
  | m80, .symbol name offset part =>
    let address := addressText name offset
    match part with
    | .whole => address
    | .low => "low(" ++ address ++ ")"
    | .high => "high(" ++ address ++ ")"
  | _, .reg name => name
  | _, .mem symbol offset => addressText symbol offset
  | ca65, .ind symbol "" => "(" ++ symbol ++ ")"
  | ca65, .ind symbol index => "(" ++ symbol ++ ")," ++ index
  | m80, .ind .. => "m"
  | _, .label name => name

/-- The directive that switches to a segment. -/
def segment : Dialect → Segment → String
  | ca65, .code => ".code"
  | ca65, .data => ".bss"
  | ca65, .readOnly => ".rodata"
  | ca65, .zeroPage => ".zeropage"
  | m80, .code => "cseg"
  | m80, .data => "dseg"
  | m80, .readOnly => "cseg"
  | m80, .zeroPage => "dseg"

/-- The directive for a name that is defined elsewhere. -/
def external : Dialect → String → String
  | ca65, name => ".import " ++ name
  | m80, name => "extrn " ++ name

/-- The directive for a name that others may use. -/
def global : Dialect → String → String
  | ca65, name => ".export " ++ name
  | m80, name => "public " ++ name

/-- The directive that reserves some bytes. -/
def reserve : Dialect → Int → String
  | ca65, n => ".res " ++ toString n
  | m80, n => "ds " ++ toString n

/-- A byte as two hexadecimal digits. -/
def hexByte (b : UInt8) : String :=
  let digits := Nat.toDigits 16 b.toNat
  String.ofList (if digits.length < 2 then '0' :: digits else digits)

/-- The directive that places some bytes. -/
def bytes : Dialect → List UInt8 → String
  | ca65, data => ".byte " ++ ",".intercalate (data.map fun b => "$" ++ hexByte b)
  | m80, data => "db " ++ ",".intercalate (data.map fun b => "0" ++ hexByte b ++ "h")

/-- A line. Labels stand in the first column, all else after a tab. -/
def line (d : Dialect) : Line → String
  | .label name => name ++ ":"
  | .comment text => "\t; " ++ text
  | .instr ⟨op, []⟩ => "\t" ++ op
  | .instr ⟨op, args⟩ => "\t" ++ op ++ "\t" ++ ",".intercalate (args.map d.arg)

/-- A line without the tab that it may start with. -/
def bareLine (d : Dialect) (l : Line) : String :=
  match (d.line l).toList with
  | '\t' :: rest => String.ofList rest
  | text => String.ofList text

/-- The text of a function, with the directive that makes it known. -/
def routine (d : Dialect) (r : Routine) : String :=
  "\t" ++ d.global r.name ++ "\n" ++ r.name ++ ":\n" ++
    String.join (r.code.map fun l => d.line l ++ "\n") ++ "\n"

/-- The text of a cell. -/
def cell (d : Dialect) (c : Cell) : String :=
  c.name ++ ":\t" ++ (if c.init.isEmpty then d.reserve c.size else d.bytes c.init) ++ "\n"

/-- The cells of one segment; nothing if there are none. -/
def segmentCells (d : Dialect) (cells : List Cell) (s : Segment) : String :=
  match cells.filter (·.segment == s) with
  | [] => ""
  | cs => "\t" ++ d.segment s ++ "\n" ++ String.join (cs.map d.cell) ++ "\n"

/-- **The text of a program**: the names defined elsewhere, the functions, and the cells segment by
segment. -/
def program (d : Dialect) (p : Assembly) : String :=
  let externals := String.join (p.externals.map fun name => "\t" ++ d.external name ++ "\n")
  let functions := match p.functions with
    | [] => ""
    | fs => "\t" ++ d.segment .code ++ "\n" ++ String.join (fs.map d.routine)
  (if p.externals.isEmpty then "" else externals ++ "\n") ++ functions ++
    String.join ([.zeroPage, .data, .readOnly].map (d.segmentCells p.cells))

end Dialect

end Octet
