import Octet.Program

/-!
# Live ranges of a function

The analysis finds, for every variable of a function, the addresses that mention it. The range of a
parameter starts at the entry, where its value arrives. A jump back to an earlier address forms a
loop, and a variable that is live when the loop is entered and mentioned inside must keep its value
until the jump back: its range is widened to the end of the loop. Widening for one loop can reach
into another one, so it is repeated, once for every loop; after that many rounds nothing can change
any more.

## Main definitions

* `Loop`, `Function.loops` — jumps back, as the addresses they lead to and come from
* `LiveRange.through` — a range widened for one loop
* `Function.rangeOf` — the range of one variable
* `Function.analyzed` — the function with the ranges of all its variables
-/

namespace Octet

/-- A jump back: the address it leads to, and the address of the jump. -/
structure Loop where
  head : Int
  tail : Int
  deriving DecidableEq, Repr

/-- The range widened to the end of a loop that it enters and does not leave. -/
def LiveRange.through (r : LiveRange) (l : Loop) : LiveRange :=
  if 0 ≤ r.first && r.first < l.head && l.head ≤ r.last && r.last < l.tail then
    r.extend r.first l.tail
  else r

/-- The range widened for every loop in turn. -/
def LiveRange.throughAll (r : LiveRange) (loops : List Loop) : LiveRange :=
  loops.foldl LiveRange.through r

/-- The range widened for every loop, as often as there are loops. -/
def LiveRange.closed (r : LiveRange) (loops : List Loop) : LiveRange :=
  loops.foldl (fun r _ => r.throughAll loops) r

namespace Function

/-- The instructions with their addresses. -/
def addressed (f : Function) : List (Nat × Inst) :=
  f.code.zipIdx.map fun (i, n) => (n + 1, i)

/-- The jumps back of a function, in the order of their addresses. -/
def loops (f : Function) : List Loop :=
  f.addressed.filterMap fun (address, i) =>
    match i.target? with
    | some a => if f.addressOf a ≤ address then some ⟨f.addressOf a, address⟩ else none
    | none => none

/-- The addresses of the instructions that mention a variable. -/
def usages (f : Function) (v : Variable) : List Int :=
  f.addressed.filterMap fun (address, i) =>
    if i.operands.any (·.mentioned? == some v) then some (address : Int) else none

/-- **The live range of a variable**: its mentions, from the entry on for a parameter, and to the
end of every loop that it enters. -/
def rangeOf (f : Function) (v : Variable) : LiveRange :=
  let mentions : LiveRange := ⟨f.usages v, none⟩
  let arrived := match v.parameter, mentions.usages with
    | some _, u :: _ => mentions.extend 0 u
    | _, _ => mentions
  arrived.closed f.loops

/-- The function with the live ranges of its variables. -/
def analyzed (f : Function) : Function := { f with ranges := f.vars.map f.rangeOf }

end Function

end Octet
