import Octet.Compile

/-!
# The log of a compilation

A compilation is logged as lines of keys and values: one when the registers of a function have been
allocated, and one for each instruction that has been built. A value that could not be told from
what surrounds it is quoted.

## Main definitions

* `Log.line` — a line of keys and values
* `Compilation.log` — the log of a compilation
-/

namespace Octet

namespace Log

/-- Whether a value with this character is quoted. -/
def isSpecial (c : Char) : Bool :=
  if c.toNat < 128 then c == ' ' || c == '=' || c == '"' || c.toNat < 32
  else c == '\ufffd' || !Text.isPrintable c

/-- A value, quoted where it has to be. -/
def value (s : String) : String :=
  if s.isEmpty || s.toList.any isSpecial then Text.quote s else s

/-- **A line of a log.** -/
def line (fields : List (String × String)) : String :=
  " ".intercalate (fields.map fun (key, v) => key ++ "=" ++ value v) ++ "\n"

/-- A line about a function. -/
def event (message function : String) (fields : List (String × String)) : String :=
  line ([("level", "DEBUG"), ("msg", message), ("function", function)] ++ fields)

end Log

namespace CompiledFunction

/-- The line about the registers of a function. -/
def allocated (c : CompiledFunction) : String :=
  Log.event "allocated" c.function.name [("registers", c.function.summary c.registers)]

/-- The line about an instruction; the prologue has none. -/
def built (c : CompiledFunction) (b : Built) : Option String :=
  b.inst.map fun i =>
    Log.event "built" c.function.name
      [("address", toString b.address), ("inst", i.text), ("lines", toString b.lines.length)]

/-- The log of a function, as far as it was built. -/
def log (c : CompiledFunction) : String :=
  c.allocated ++ String.join (c.attempt.blocks.filterMap c.built)

end CompiledFunction

/-- **The log of a compilation**, as far as it went. -/
def Compilation.log (c : Compilation) : String :=
  String.join (c.functions.map (·.log))

end Octet
