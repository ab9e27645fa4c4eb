import Octet.Program
import Octet.Register

/-!
# Register allocation

Registers are handed out greedily, first fit, in three passes over the live ranges. Variables that
are used once are served first, from the fastest registers; then all other locals, the most used
first; and last the parameters, which keep the register they arrive in where they may. A variable
that gets none stays in memory, so allocation cannot fail.

What a machine offers and allows is a parameter of the allocation (`Machine`). Whether a variable
may take a register can depend on the registers handed out before, so the current assignment is
passed along.

## Main definitions

* `Assignment` — which variable of a function holds which register
* `Machine` — what the allocation asks of a machine
* `Function.allocate` — the allocation
* `Function.clashes`, `Function.summary` — the check of an assignment, and its text
-/

namespace Octet

/-- The registers of the variables of a function, in the order of the variables. -/
structure Assignment where
  registers : List (Option Register)
  deriving DecidableEq, Repr

namespace Assignment

/-- The assignment that keeps every variable in memory. -/
def empty (f : Function) : Assignment := ⟨f.vars.map fun _ => none⟩

/-- The register of a variable. Global variables have none. -/
def get (a : Assignment) (v : Variable) : Option Register :=
  if v.isStatic then none else a.registers.getD v.index none

/-- The assignment with a register for one more variable. -/
def set (a : Assignment) (v : Variable) (r : Register) : Assignment :=
  ⟨a.registers.set v.index (some r)⟩

end Assignment

/-- What the allocation asks of a machine. -/
structure Machine where
  /-- The registers offered to a variable of a type, the preferred ones first. Variables that are
  used once have a pool of their own. -/
  pool : Ty → Bool → List Register
  /-- Whether a variable may hold a register at an address. -/
  allows : Function → Assignment → Nat → Variable → Register → Bool

namespace Function

/-- Whether a variable can hold a register over its whole live range: the width fits, no variable
whose range intersects holds a conflicting register, and the machine allows it at every address. -/
def legal (f : Function) (m : Machine) (a : Assignment) (v : Variable) (r : Register) : Bool :=
  let range := f.range v
  r.width == v.type.byteCount &&
    (f.intersections v).all (fun w => !Register.clash (a.get w) (some r)) &&
    (List.range (range.last + 1).toNat).all fun address =>
      (address : Int) < range.first || m.allows f a address v r

/-- The assignment in which a variable has the first legal one of some registers. -/
def offer (f : Function) (m : Machine) (a : Assignment) (v : Variable) (candidates : List Register) :
    Assignment :=
  match candidates.find? (f.legal m a v) with
  | some r => a.set v r
  | none => a

/-- Whether a variable is a local one in use that holds no register yet. -/
def waits (f : Function) (a : Assignment) (v : Variable) : Bool :=
  !v.isStatic && v.parameter.isNone && (a.get v).isNone && 0 ≤ (f.range v).first

/-- The first pass: variables used once, the least used first. -/
def shortPass (f : Function) (m : Machine) (a : Assignment) : Assignment :=
  let vs := f.vars.filter fun v => f.waits a v && (f.range v).length ≤ 1
  let sorted := vs.mergeSort fun v w => (f.range v).usages.length ≤ (f.range w).usages.length
  sorted.foldl (fun a v => f.offer m a v (m.pool v.type true)) a

/-- The second pass: the other locals, the most used first, then the one with the shorter range. -/
def generalPass (f : Function) (m : Machine) (a : Assignment) : Assignment :=
  let vs := f.vars.filter (f.waits a)
  let sorted := vs.mergeSort fun v w =>
    let n := (f.range v).usages.length
    let k := (f.range w).usages.length
    k < n || (k == n && (f.range v).length ≤ (f.range w).length)
  sorted.foldl (fun a v => f.offer m a v (m.pool v.type false)) a

/-- The register for one parameter: the one it arrives in, unless it points to an aggregate or may
not stay there; else one in which no parameter arrives. -/
def settleParameter (f : Function) (m : Machine) (arrivals : List (Option Register))
    (a : Assignment) (v : Variable) : Assignment :=
  match v.parameter with
  | none => a
  | some p =>
    if v.isStatic || (f.range v).first < 0 then a
    else
      let home := (arrivals.getD p none).filter fun r =>
        !v.type.isAggregatePointer && f.legal m a v r
      match home with
      | some r => a.set v r
      | none =>
        let taken := RegisterSet.ofList (arrivals.filterMap id)
        f.offer m a v ((m.pool v.type false).filter fun r => !taken.conflictsWith r)

/-- The last pass: the parameters. -/
def parameterPass (f : Function) (m : Machine) (arrivals : List (Option Register))
    (a : Assignment) : Assignment :=
  f.vars.foldl (f.settleParameter m arrivals) a

/-- **Register allocation.** `arrivals` are the registers in which the parameters arrive. -/
def allocate (f : Function) (m : Machine) (arrivals : List (Option Register)) : Assignment :=
  f.parameterPass m arrivals (f.generalPass m (f.shortPass m (.empty f)))

end Function

/-- What is wrong with an assignment. -/
inductive Clash where
  /-- A register of the wrong width. -/
  | width (function : String) (v : Variable) (r : Register)
  /-- Two variables with intersecting ranges in conflicting registers. -/
  | registers (function : String) (v : Variable) (r : Register) (w : Variable) (s : Register)
  deriving DecidableEq, Repr

/-- The wording of a clash. -/
def Clash.message : Clash → String
  | width f v r =>
    f ++ ": " ++ v.name ++ ": " ++ toString r.width ++ "-byte register for " ++ v.type.text
  | registers f v r w s =>
    f ++ ": register conflict: " ++ v.name ++ " in " ++ r.name ++ ", " ++ w.name ++ " in " ++ s.name

/-- Whether two variables are in conflicting registers. -/
def Clash.isConflict : Clash → Bool
  | width .. => false
  | registers .. => true

namespace Function

/-- What is wrong with the register of one variable. A pair of variables counts once, for the one
declared first. -/
def clashesOf (f : Function) (a : Assignment) (v : Variable) : List Clash :=
  match a.get v with
  | none => []
  | some r =>
    let width := if r.width == v.type.byteCount then [] else [Clash.width f.name v r]
    width ++ (f.intersections v).filterMap fun w =>
      match a.get w with
      | some s =>
        if v.index ≤ w.index && r.conflicts s then some (.registers f.name v r w s) else none
      | none => none

/-- **The check of an assignment**: everything that is wrong with it. -/
def clashes (f : Function) (a : Assignment) : List Clash := f.vars.flatMap (f.clashesOf a)

/-- The registers of the variables in use, in the order of declaration. -/
def summary (f : Function) (a : Assignment) : String :=
  let inUse := f.vars.filter fun v => !v.isStatic && 0 ≤ (f.range v).first
  " ".intercalate <| inUse.map fun v =>
    v.name ++ "=" ++ match a.get v with
      | some r => r.name
      | none => "memory"

end Function

end Octet
