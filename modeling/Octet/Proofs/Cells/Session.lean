import Octet.Proofs.Cells.Compilation

/-!
# The cells of several programs

Programs that are compiled one after another share a ledger. Each asks for scratch cells while its
functions are built and, once all of them are, for the cells of the machine, its global variables
and the variables of its functions that live or arrive in memory. The cells stay a table of all that
was asked for, whatever the programs are and whether they could be compiled.

String literals are no part of the table. Each program numbers its own from one, and they are added
as they are, so two programs with literals leave two cells of one name.

## Main definitions

* `Program.Asks` — what a program asks for when it is compiled
* `Program.added` — the string literals that it adds

## Main results

* `Program.tabulates_compile` — compiling a program keeps the table
* `Program.cells_tabulated` — the cells after any number of programs
-/

namespace Octet

open Assembly

namespace Program

variable {l : Listing} {p : Program} {target : Target} {ledger ledger' : Ledger} {c : Compilation}
  {asked : List Request}

/-- **What a program asks for when it is compiled**: scratch cells, and its own cells if all its
functions were compiled. -/
def Asks (p : Program) (target : Target) (c : Compilation) (asked : List Request) : Prop :=
  ∃ scratch : List String, (∀ n ∈ scratch, Ledger.IsScratch n) ∧
    asked = scratch.map (Ledger.scratch target.arch) ++
      if c.outcome.toBool then p.requests target else []

/-- The string literals that a program adds when it is compiled. -/
def added (p : Program) (c : Compilation) : List Cell :=
  if c.outcome.toBool then p.literalCells else []

theorem init_literalCells (p : Program) : ∀ c ∈ p.literalCells, c.init ≠ [] := by
  intro c hc
  obtain ⟨s, -, rfl⟩ := List.mem_map.mp hc
  simp

/-- While functions are compiled only scratch cells are asked for. -/
theorem grows_of_build (hbuild : l.build = .ok p) {cs : List CompiledFunction}
    {failure : Option BuildError}
    (h : compileFunctions target p.functions ledger = ((cs, failure), ledger')) :
    ledger.Grows target.arch ledger' :=
  (grows_compileFunctions hbuild (supplied_univ p target _) (fun _ hf => hf) rfl h).1

theorem cells_defines (fs : List Function) (ledger : Ledger) :
    (fs.foldl (fun l f => l.define f.name) ledger).cells = ledger.cells := by
  refine foldl_keeps (fun l f => ?_) fs ledger
  unfold Ledger.define
  split <;> rfl

/-- **Compiling a program keeps the table** of cells, and adds its string literals. -/
theorem tabulates_compile (hbuild : l.build = .ok p) (h : p.compile target ledger = (c, ledger'))
    (htable : Cell.Tabulates asked ledger.cells) :
    ∃ new, p.Asks target c new ∧ Cell.Tabulates (asked ++ new) ledger'.cells ∧
      Cell.literals ledger'.cells = Cell.literals ledger.cells ++ p.added c := by
  obtain ⟨failure, ledger₁, hfs, hends⟩ := compile_ledger h
  obtain ⟨scratch, hscratch, hcells⟩ := (grows_of_build hbuild hfs).cells
  rw [cells_defines] at hcells
  have htable₁ : Cell.Tabulates (asked ++ scratch.map (Ledger.scratch target.arch)) ledger₁.cells :=
    hcells ▸ htable.requests _
  have hliterals₁ : Cell.literals ledger₁.cells = Cell.literals ledger.cells := by
    rw [hcells, Cell.literals_requests]
  refine ⟨_, ⟨scratch, hscratch, rfl⟩, ?_⟩
  rw [← List.append_assoc, added]
  obtain ⟨e, rfl, hout, rfl⟩ | ⟨rfl, hout, hledger⟩ := hends
  · simpa [hout, Except.toBool] using ⟨htable₁, hliterals₁⟩
  · rw [hout, hledger, cells_reserveCells hfs]
    simp only [Except.toBool, ↓reduceIte, requests, ← List.append_assoc]
    refine ⟨((htable₁.requests _).append_literals p.init_literalCells).requests _, ?_⟩
    rw [Cell.literals_requests, Cell.literals_append p.init_literalCells, Cell.literals_requests,
      hliterals₁]

/-- **Compiling programs keeps the table** of cells, whichever of them can be compiled. -/
theorem tabulates_compiles {ps : List Program} (hps : ∀ p ∈ ps, ∃ l : Listing, l.build = .ok p)
    {cs : List Compilation} (h : ps.mapM (fun p => p.compile target) ledger = (cs, ledger'))
    (htable : Cell.Tabulates asked ledger.cells) :
    cs.length = ps.length ∧ ∃ new : List (List Request),
      List.Forall₂ (fun unit qs => unit.1.Asks target unit.2 qs) (ps.zip cs) new ∧
        Cell.Tabulates (asked ++ new.flatten) ledger'.cells ∧
        Cell.literals ledger'.cells =
          Cell.literals ledger.cells ++ (ps.zip cs).flatMap fun unit => unit.1.added unit.2 := by
  induction ps generalizing ledger asked cs with
  | nil =>
    cases h
    exact ⟨rfl, [], .nil, by simpa using htable, by simp⟩
  | cons p ps ih =>
    rw [List.mapM_cons] at h
    rcases hp : p.compile target ledger with ⟨c, ledger₁⟩
    rcases hrest : ps.mapM (fun p => p.compile target) ledger₁ with ⟨cs', ledger₂⟩
    simp only [bind, StateT.bind, hp, hrest] at h
    cases h
    obtain ⟨l, hl⟩ := hps p (.head _)
    obtain ⟨qs, hqs, htable₁, hliterals₁⟩ := tabulates_compile hl hp htable
    obtain ⟨hlength, new, hnew, htable₂, hliterals₂⟩ :=
      ih (fun q hq => hps q (.tail _ hq)) hrest htable₁
    refine ⟨congrArg (· + 1) hlength, qs :: new, .cons hqs hnew, ?_, ?_⟩
    · rwa [List.flatten_cons, ← List.append_assoc]
    · rw [hliterals₂, hliterals₁, List.zip_cons_cons, List.flatMap_cons, List.append_assoc]

/-- **The cells of several programs are a table.** Whatever programs are compiled one after another,
each name that was asked for has one cell, of the largest size that any of them asked for, and is
found at its position; nothing else is found. The other cells are the string literals of the
programs that could be compiled, in order. So all cells have names of their own exactly if the
labels of those literals are distinct and none of them was asked for. -/
theorem cells_tabulated {ps : List Program} (hps : ∀ p ∈ ps, ∃ l : Listing, l.build = .ok p)
    {cs : List Compilation} (h : ps.mapM (fun p => p.compile target) Ledger.empty = (cs, ledger)) :
    cs.length = ps.length ∧ ∃ asked : List (List Request),
      List.Forall₂ (fun unit qs => unit.1.Asks target unit.2 qs) (ps.zip cs) asked ∧
        Cell.Tabulates asked.flatten ledger.cells ∧
        (∀ n k, ledger.cells.findIdx? (·.isAsked n) = some k ↔
          ∃ c, ledger.cells[k]? = some c ∧ c.name = n ∧ c.init = []) ∧
        Cell.literals ledger.cells = (ps.zip cs).flatMap (fun unit => unit.1.added unit.2) ∧
        ((ledger.cells.map (·.name)).Nodup ↔ ((Cell.literals ledger.cells).map (·.name)).Nodup ∧
          ∀ c ∈ Cell.literals ledger.cells, c.name ∉ asked.flatten.map (·.name)) := by
  obtain ⟨hlength, asked, hasked, htable, hliterals⟩ := tabulates_compiles hps h Cell.tabulates_nil
  exact ⟨hlength, asked, hasked, htable, fun n k => htable.findIdx?_eq_some_iff, hliterals,
    htable.nodup_names_iff⟩

end Program

/-! ### Two programs with a literal each -/

namespace Session

/-- A function that adds up a parameter and returns a string, and a global variable of some type. -/
def unit (name type : String) : Listing where
  globals := [⟨"v", type⟩]
  externs := []
  functions :=
    [{  name := name
        params := [⟨"a", "byte"⟩]
        result := "ptr"
        vars := []
        code :=
          [ { op := "add", dest := "a", left := "a", right := "a" },
            { op := "return", left := "\"A\"" } ] }]

/-- The program of `unit`. -/
def program (name type : String) : Program := (unit name type).build.toOption.getD ⟨[], [], [], []⟩

/-- Two programs that share a global variable. -/
def programs : List Program := [program "f" "byte", program "g" "word"]

/-- The programs, compiled one after the other for the 6502. -/
def compiled : List Compilation × Ledger :=
  programs.mapM (fun p => p.compile Arch.mos6502.target) .empty

/-- The variable has the larger size, and both literals are named `_s1`. -/
theorem tabulated_twice :
    ((Cell.table compiled.2.cells).filter (·.name == "v")).map (·.size) = [2] ∧
      Cell.literals compiled.2.cells = [⟨"_s1", 0, [65, 0], .readOnly⟩,
        ⟨"_s1", 0, [65, 0], .readOnly⟩] ∧
      ¬ (compiled.2.cells.map (·.name)).Nodup ∧
      ∃ asked : List (List Request),
        List.Forall₂ (fun unit qs => unit.1.Asks Arch.mos6502.target unit.2 qs)
          (programs.zip compiled.1) asked ∧
          Cell.Tabulates asked.flatten compiled.2.cells := by
  have hprograms : ∀ p ∈ programs, ∃ l : Listing, l.build = .ok p := by
    intro p hp
    rcases List.mem_pair.mp hp with rfl | rfl
    · exact ⟨unit "f" "byte", by cbv⟩
    · exact ⟨unit "g" "word", by cbv⟩
  have hliterals : Cell.literals compiled.2.cells =
      [⟨"_s1", 0, [65, 0], .readOnly⟩, ⟨"_s1", 0, [65, 0], .readOnly⟩] := by decide +kernel
  have hcompiled : programs.mapM (fun p => p.compile Arch.mos6502.target) Ledger.empty =
      (compiled.1, compiled.2) :=
    Prod.mk.eta.symm
  obtain ⟨-, asked, hasked, htable, -, -, hnodup⟩ := Program.cells_tabulated hprograms hcompiled
  rw [hliterals] at hnodup
  refine ⟨by decide +kernel, hliterals, fun h => ?_, asked, hasked, htable⟩
  exact absurd (hnodup.mp h).1 (by decide)

end Session

end Octet
