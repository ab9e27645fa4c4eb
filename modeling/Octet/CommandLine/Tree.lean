import Octet.Compile

/-!
# The allocation as a tree

The allocation of a program is shown as a tree of lines: the functions, and under each of them the
variables in use with where they are kept, their type and their live range. Lines of a text that
breaks are lined up under its first.

## Main definitions

* `Tree.lines` — branches with the edges before them
* `Compilation.tree` — the allocation of a program
-/

namespace Octet

namespace Tree

/-- The edge before a branch. -/
def edge (isLast : Bool) : String := if isLast then "└── " else "├── "

/-- What stands under the edge of a branch. -/
def link (isLast : Bool) : String := if isLast then "    " else "│   "

/-- A text whose further lines are lined up under its first. -/
def aligned (lead text : String) : String :=
  ("\n" ++ lead).intercalate (text.splitOn "\n")

/-- Branches of a level, each with what stands under it. The text of a branch is made of what comes
before it and its value; `under` gets what leads its lines. -/
def lines {α : Type} (lead : String) (mark value : α → String) (under : α → String → String) :
    List α → String
  | [] => ""
  | a :: as =>
    let isLast := as.isEmpty
    let inner := lead ++ link isLast
    lead ++ edge isLast ++ mark a ++ aligned inner (value a) ++ "\n" ++ under a inner ++
      lines lead mark value under as

end Tree

namespace CompiledFunction

/-- Where a variable is kept. -/
def place (c : CompiledFunction) (v : Variable) : String :=
  match c.registers.get v with
  | some r => "[" ++ r.name ++ "]  "
  | none => "[memory]  "

/-- A variable with its type and its live range. -/
def use (c : CompiledFunction) (v : Variable) : String :=
  let r := c.function.range v
  v.name ++ " " ++ v.type.text ++ " [" ++ toString r.first ++ "-" ++ toString r.last ++ "]"

/-- The variables in use. -/
def inUse (c : CompiledFunction) : List Variable :=
  c.function.vars.filter fun v => !v.isStatic && 0 ≤ (c.function.range v).first

/-- The branches of a function. -/
def branches (c : CompiledFunction) (lead : String) : String :=
  Tree.lines lead c.place c.use (fun _ _ => "") c.inUse

end CompiledFunction

/-- **The allocation of a program.** -/
def Compilation.tree (c : Compilation) : String :=
  "allocation\n" ++
    Tree.lines "" (fun _ => "") (fun f => f.function.name) CompiledFunction.branches c.functions

end Octet
