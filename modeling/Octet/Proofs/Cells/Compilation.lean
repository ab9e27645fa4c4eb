import Octet.Proofs.Balance.Loading
import Octet.Proofs.Emitted.Compilation

/-!
# The symbols of compiled code

What is built for an instruction refers to symbols that are known when it is built, or will be known
when the cells of the program are asked for: those of the machine, of global variables, string
literals, variables that live in memory and parameters that arrive there. Cells are asked for once
all functions are built, so the symbols that they will supply are fixed beforehand.

Taking the address of a variable is not a use of it. A variable whose address is taken may therefore
be in a register, and then its symbol is not one of a cell.

## Main definitions

* `Function.memoryVars`, `Program.requests` — the cells that a program asks for
* `Program.AddressesSupplied` — addresses are taken only of what has a symbol

## Main results

* `Program.cells_reserveCells` — the cells of a program
* `Program.grows_compileFunctions` — what compiling functions does to the ledger
* `Program.symbols_supplied` — every symbol of compiled code exists
-/

namespace Octet

open Assembly

/-- The block refers to some symbols only. -/
def Built.Known (N : Set String) (b : Built) : Prop :=
  ∀ i, Line.instr i ∈ b.lines → ∀ a ∈ i.args, a.Known N

/-! ### The cells of a program -/

/-- The request for the cell of a variable. -/
def Variable.request (v : Variable) : Request := ⟨v.label, v.type.byteCount, .data⟩

/-- Whether the variable receives a parameter that travels in memory. -/
def Variable.arrivesInMemory (v : Variable) (arrivals : List (Option Register)) : Bool :=
  match v.parameter with
  | some p => (arrivals.getD p none).isNone
  | none => false

/-- The variables of a function that live or arrive in memory. -/
def Function.memoryVars (f : Function) (target : Target) : List Variable :=
  f.vars.filter fun v => ((Program.registersOf target f).get v).isNone ||
    v.arrivesInMemory (f.signature.arrivals target.arch)

namespace Program

variable {l : Listing} {p : Program} {target : Target} {ledger ledger' : Ledger} {D : List String}
  {G : Set String}

/-- The requests for the cells of the machine and those of global variables. -/
def staticRequests (p : Program) (m : Arch) : List Request :=
  m.cells.map (fun r => ⟨r.address, r.width, m.scratchSegment⟩) ++ p.globals.map Variable.request

/-- The requests for the cells of the variables of functions. -/
def variableRequests (p : Program) (target : Target) : List Request :=
  p.functions.flatMap fun f => (f.memoryVars target).map Variable.request

/-- **The cells that a program asks for** once its functions are built. -/
def requests (p : Program) (target : Target) : List Request :=
  p.staticRequests target.arch ++ p.variableRequests target

/-- The cells of the string literals of a program. -/
def literalCells (p : Program) : List Cell := p.strings.map fun s => ⟨s.1, 0, s.2 ++ [0], .readOnly⟩

theorem cells_reserves {α : Type} (q : α → Request) (xs : List α) (ledger : Ledger) :
    (xs.foldl (fun l x => l.reserve (q x).name (q x).size (q x).segment) ledger).cells =
      (xs.map q).foldl Cell.request ledger.cells := by
  induction xs generalizing ledger with
  | nil => rfl
  | cons x xs ih => rw [List.foldl_cons, ih, Ledger.cells_reserve, List.map_cons, List.foldl_cons]

theorem cells_addStrings (strings : List (String × List UInt8)) (ledger : Ledger) :
    (strings.foldl (fun l s => l.addString s.1 s.2) ledger).cells =
      ledger.cells ++ strings.map fun s => ⟨s.1, 0, s.2 ++ [0], .readOnly⟩ := by
  induction strings generalizing ledger with
  | nil => simp
  | cons s strings ih =>
    rw [List.foldl_cons, ih]
    simp [Ledger.addString]

theorem cells_reserveVariables {c : CompiledFunction}
    (hc : c.registers = registersOf target c.function) (ledger : Ledger) :
    (reserveVariables target.arch ledger c).cells =
      ((c.function.memoryVars target).map Variable.request).foldl Cell.request ledger.cells := by
  rw [← cells_reserves, Function.memoryVars, List.foldl_filter, ← hc]
  rfl

theorem cells_reserveFunctions {cs : List CompiledFunction}
    (hcs : ∀ c ∈ cs, c.registers = registersOf target c.function) (ledger : Ledger) :
    (cs.foldl (reserveVariables target.arch) ledger).cells =
      (cs.flatMap fun c => (c.function.memoryVars target).map Variable.request).foldl Cell.request
        ledger.cells := by
  induction cs generalizing ledger with
  | nil => rfl
  | cons c cs ih =>
    rw [List.foldl_cons, ih fun d hd => hcs d (.tail _ hd),
      cells_reserveVariables (hcs c (.head _)), List.flatMap_cons, List.foldl_append]

/-- **The cells of a program.** Strings are added between the global variables and those of
functions. -/
theorem cells_reserveCells {cs : List CompiledFunction} {ledger₁ : Ledger}
    (h : compileFunctions target p.functions ledger = ((cs, none), ledger₁)) :
    (p.reserveCells target.arch cs ledger₁).cells =
      (p.variableRequests target).foldl Cell.request
        ((p.staticRequests target.arch).foldl Cell.request ledger₁.cells ++ p.literalCells) := by
  obtain ⟨hfunctions, heach⟩ := (builds_compileFunctions h).2 rfl
  have hvariables : p.variableRequests target =
      cs.flatMap fun c => (c.function.memoryVars target).map Variable.request := by
    rw [variableRequests, ← hfunctions, List.flatMap_map]
  rw [reserveCells, cells_reserveFunctions fun c hc => (heach c hc).1, hvariables, staticRequests,
    List.foldl_append, ← cells_reserves, ← cells_reserves]
  exact congrArg (fun cells => List.foldl Cell.request cells _) (cells_addStrings p.strings _)

/-- What is kept at each step is kept. -/
theorem foldl_keeps {α β : Type} {field : Ledger → β} {g : Ledger → α → Ledger}
    (h : ∀ l x, field (g l x) = field l)
    (xs : List α) (ledger : Ledger) : field (xs.foldl g ledger) = field ledger := by
  induction xs generalizing ledger with
  | nil => rfl
  | cons x xs ih => rw [List.foldl_cons, ih, h]

/-- Asking for the cells of a program uses no names. -/
theorem externals_reserveCells (p : Program) (m : Arch) (cs : List CompiledFunction)
    (ledger : Ledger) :
    (p.reserveCells m cs ledger).externals = ledger.externals := by
  have hreserve : ∀ (l : Ledger) name size segment, (l.reserve name size segment).externals =
      l.externals := by simp
  have hstring : ∀ (l : Ledger) (s : String × List UInt8),
      (l.addString s.1 s.2).externals = l.externals :=
    fun _ _ => rfl
  have hvariables : ∀ l c, (reserveVariables m l c).externals = l.externals := by
    refine fun l c => foldl_keeps (fun l v => ?_) _ _
    dsimp only
    rw [apply_ite Ledger.externals, hreserve, ite_self]
  calc (p.reserveCells m cs ledger).externals = _ := foldl_keeps hvariables cs _
    _ = _ := foldl_keeps hstring p.strings _
    _ = _ := foldl_keeps (fun _ _ => hreserve ..) p.globals _
    _ = _ := foldl_keeps (fun _ _ => hreserve ..) m.cells ledger

theorem mem_defined_iff {n : String} (fs : List Function) (ledger : Ledger) :
    n ∈ (fs.foldl (fun l f => l.define f.name) ledger).defined ↔ n ∈ ledger.defined ∨
      n ∈ fs.map (·.name) := by
  have hdefine : ∀ (l : Ledger) name, n ∈ (l.define name).defined ↔ n ∈ l.defined ∨ n = name := by
    intro l name
    unfold Ledger.define
    split
    · rename_i h
      exact ⟨.inl, fun hn => hn.elim id fun hn => hn ▸ List.contains_iff_mem.mp h⟩
    · simp
  induction fs generalizing ledger with
  | nil => simp
  | cons f fs ih =>
    refine (ih _).trans ?_
    rw [hdefine, List.map_cons, List.mem_cons, or_assoc]

/-! ### Compiling functions -/

/-- **Compiling functions** makes the ledger grow, whether it succeeds or not; the code refers to
the symbols given or in the ledger. -/
theorem grows_compileFunctions (hbuild : l.build = .ok p) (hG : p.Supplied target D G)
    {fs : List Function}
    (hfs : ∀ f ∈ fs, f ∈ p.functions) (hD : ledger.defined = D) {cs : List CompiledFunction}
    {failure : Option BuildError}
    (h : compileFunctions target fs ledger = ((cs, failure), ledger')) :
    ledger.Grows target.arch ledger' ∧
      (failure = none → ∀ c ∈ cs, ∀ b ∈ c.attempt.blocks, b.Known (G ∪ ledger'.names)) := by
  obtain ⟨⟨stop, hbs, -⟩, -⟩ := builds_compileFunctions h
  -- only symbols matter here
  refine (hbs.grows (m := target.arch) (X := False) (fun s hs => ?_) hD).imp_right
    fun hwithin _ c hc b hb i hi =>
    (hwithin b (List.mem_flatMap.mpr ⟨c, hc, hb⟩) i hi).args
  obtain ⟨f, hf, hs⟩ := List.mem_flatMap.mp hs
  exact hG.keeps hbuild (hfs f hf) False.elim False.elim hs

end Program

/-! ### What listings supply -/

namespace Listing

variable {l : Listing} {p : Program} {f : Function}

/-- **A parameter that travels in memory** does so in the cell of its variable. -/
theorem slot_of_build (h : l.build = .ok p) (hf : f ∈ p.functions) {target : Target}
    {x : Parameter × Option Register}
    (hx : x ∈ f.signature.params.zip (f.signature.arrivals target.arch))
    (hnone : x.2 = none) : ∃ v ∈ f.memoryVars target, v.label = x.1.slot := by
  obtain ⟨r, -, σ, hσ, hr⟩ := function_of_build h hf
  have hsignature := hr.signature_eq hσ
  obtain ⟨k, hx⟩ := List.mem_iff_getElem?.mp hx
  obtain ⟨hparam, harrival⟩ := List.getElem?_zip_eq_some.mp hx
  have hindex : x.1.index = k := by simpa using numbered_signature hσ k x.1 (hsignature ▸ hparam)
  refine ⟨parameterVariable x.1, List.mem_filter.mpr ⟨?_, ?_⟩, rfl⟩
  · refine (prefix_localVariables hr.vars).subset (List.mem_map_of_mem ?_)
    exact hsignature ▸ List.mem_of_getElem? hparam
  · simp [Variable.arrivesInMemory, parameterVariable, hindex, harrival, hnone]

theorem Scope.Means.eq_address {s : Scope} {explicit surroundings : Option Ty} {chars : List Char}
    {o : Operand}
    (h : s.Means explicit surroundings chars o) {n : String} (hn : o.address? = some n) :
    ∃ offset t, o = .address n offset t := by
  cases h with
  | address =>
    cases hn
    exact ⟨_, _, rfl⟩
  | _ => cases hn

/-- The symbol that an operand is the address of was written with `&`, or is that of a string
literal. -/
theorem address_of_build (h : l.build = .ok p) (hf : f ∈ p.functions) {i : Inst} (hi : i ∈ f.code)
    {o : Operand} (ho : o ∈ i.operands) {n : String} (hn : o.address? = some n) :
    (∃ offset t, o = .address n offset t) ∨ ∃ value, (n, value) ∈ p.strings := by
  obtain ⟨r, -, σ, -, hr⟩ := function_of_build h hf
  obtain ⟨e, -, hei⟩ := exists_of_forall₂_right hr.code hi
  obtain ⟨text, -, ⟨_, label, value, -, rfl⟩ | ⟨-, _, _, -, hmeans⟩⟩ := hei.reads ho
  · cases hn
    refine .inr ⟨value, (bodies_of_build h).2.1.mem_iff.mpr ?_⟩
    refine List.mem_flatMap.mpr
      ⟨f, hf, List.mem_flatMap.mpr ⟨i, hi, List.mem_flatMap.mpr ⟨_, ho, ?_⟩⟩⟩
    simp [Operand.literals]
  · exact .inl (hmeans.eq_address hn)

/-- No function has the name of a routine that is defined elsewhere. -/
theorem extern_of_build (h : l.build = .ok p) {σ : Signature} (hσ : σ ∈ p.externs) :
    σ.name ∉ p.functions.map (·.name) := by
  rw [names_of_build h]
  obtain ⟨callees, -, hcallees, -⟩ := build_cases h
  intro hmem
  obtain ⟨r, hr, hname⟩ := List.mem_map.mp hmem
  exact (nodup_of_signatures hcallees).2 r hr σ hσ hname.symm

end Listing

/-! ### Every symbol exists -/

/-- The symbol whose address an operand takes. -/
def Operand.taken? : Operand → Option String
  | .address name _ _ => some name
  | _ => none

namespace Program

variable {l : Listing} {p : Program} {target : Target} {ledger ledger' : Ledger} {D : List String}
  {G : Set String}

/-- **Addresses are taken only of what has a symbol**: global variables, variables of the function
that live or arrive in memory, and functions of the program. -/
def AddressesSupplied (p : Program) (target : Target) : Prop :=
  ∀ f ∈ p.functions, ∀ i ∈ f.code, ∀ o ∈ i.operands, ∀ n ∈ o.taken?,
    n ∈ p.globals.map (·.label) ∨ n ∈ (f.memoryVars target).map (·.label) ∨
      n ∈ p.functions.map (·.name)
  deriving Decidable

/-- **What a program asks for suffices**, with its string literals and the functions that are
defined. -/
theorem supplied_of_build (hbuild : l.build = .ok p) (haddresses : p.AddressesSupplied target)
    (hexterns : ∀ σ ∈ p.externs, σ.name ∉ D) (hfunctions : ∀ n ∈ p.functions.map (·.name), n ∈ D)
    (hD : ∀ n ∈ D, n ∈ G) (hrequests : ∀ q ∈ p.requests target, q.name ∈ G)
    (hstrings : ∀ s ∈ p.strings, s.1 ∈ G) :
    p.Supplied target D G := by
  have hglobals : ∀ v ∈ p.globals, v.label ∈ G := fun v hv => by
    refine hrequests v.request (List.mem_append_left _ (List.mem_append_right _ ?_))
    exact List.mem_map_of_mem hv
  have hmemory : ∀ f ∈ p.functions, ∀ v ∈ f.memoryVars target, v.label ∈ G := fun f hf v hv => by
    refine hrequests v.request (List.mem_append_right _ (List.mem_flatMap.mpr ⟨f, hf, ?_⟩))
    exact List.mem_map_of_mem hv
  have hslots : ∀ f ∈ p.functions, ∀ x ∈ f.signature.params.zip (f.signature.arrivals target.arch),
      x.2 = none → x.1.slot ∈ G := by
    intro f hf x hx hnone
    obtain ⟨v, hv, hlabel⟩ := Listing.slot_of_build hbuild hf hx hnone
    exact hlabel ▸ hmemory f hf v hv
  refine ⟨fun r hr => ?_, hD, hglobals, fun f hf v hv hnone => ?_, fun f hf σ hσ => ?_,
    fun f hf i hi o ho n hn => ?_⟩
  · refine hrequests ⟨r.address, r.width, target.arch.scratchSegment⟩ (List.mem_append_left _ ?_)
    exact List.mem_append_left _ (List.mem_map.mpr ⟨r, hr, rfl⟩)
  · exact hmemory f hf v (List.mem_filter.mpr ⟨hv, by simp [hnone]⟩)
  · obtain rfl | ⟨args, dest, hcall, hdefined⟩ := hσ
    · exact hslots f hf
    · obtain hextern | ⟨g, hg, rfl⟩ := (Listing.calls_of_build hbuild hf hcall).2
      · exact absurd hdefined (hexterns σ hextern)
      · exact hslots g hg
  · obtain ⟨offset, t, rfl⟩ | ⟨value, hvalue⟩ := Listing.address_of_build hbuild hf hi ho hn
    · obtain hn | hn | hn := haddresses f hf i hi _ ho n rfl
      · obtain ⟨v, hv, rfl⟩ := List.mem_map.mp hn
        exact hglobals v hv
      · obtain ⟨v, hv, rfl⟩ := List.mem_map.mp hn
        exact hmemory f hf v hv
      · exact hD n (hfunctions n hn)
    · exact hstrings (n, value) hvalue

/-- The names of the cells of a program. -/
theorem mem_names_reserveCells {cs : List CompiledFunction} {ledger₁ : Ledger}
    (h : compileFunctions target p.functions ledger = ((cs, none), ledger₁)) {names : List String}
    (hnames : names = (p.reserveCells target.arch cs ledger₁).cells.map (·.name)) :
    (∀ q ∈ p.requests target, q.name ∈ names) ∧ (∀ s ∈ p.strings, s.1 ∈ names) ∧
      ∀ n ∈ ledger₁.cells.map (·.name), n ∈ names := by
  have hvariables := fun cells n => Cell.subset_names_requests cells (p.variableRequests target) n
  rw [cells_reserveCells h] at hnames
  subst hnames
  refine ⟨fun q hq => ?_, fun s hs => ?_, fun n hn => ?_⟩
  · rcases List.mem_append.mp hq with hq | hq
    · refine hvariables _ _ ?_
      rw [List.map_append]
      exact List.mem_append_left _ (Cell.mem_names_requests hq _)
    · exact Cell.mem_names_requests hq _
  · refine hvariables _ _ ?_
    rw [List.map_append]
    exact List.mem_append_right _ (by simpa [literalCells] using ⟨s.2, hs⟩)
  · refine hvariables _ _ ?_
    rw [List.map_append]
    exact List.mem_append_left _ (Cell.subset_names_requests _ _ n hn)

/-- **The cells of a program and the functions that are defined suffice** while its functions are
compiled. -/
theorem supplied_reserveCells {cs : List CompiledFunction} {ledger₁ : Ledger}
    (hbuild : l.build = .ok p)
    (haddresses : p.AddressesSupplied target) (hexterns : ∀ σ ∈ p.externs, σ.name ∉ ledger.defined)
    (hD : D = (p.functions.foldl (fun l f => l.define f.name) ledger).defined)
    (h : compileFunctions target p.functions
      (p.functions.foldl (fun l f => l.define f.name) ledger) = ((cs, none), ledger₁)) :
    p.Supplied target D {n | n ∈ (p.reserveCells target.arch cs ledger₁).cells.map (·.name) ∨
      n ∈ D} := by
  have hdefined : ∀ n, n ∈ D ↔ n ∈ ledger.defined ∨ n ∈ p.functions.map (·.name) :=
    fun n => hD ▸ mem_defined_iff p.functions ledger
  obtain ⟨hrequests, hstrings, -⟩ := mem_names_reserveCells h rfl
  refine supplied_of_build hbuild haddresses (fun σ hσ hn => ?_)
    (fun n hn => (hdefined n).mpr (.inr hn))
    (fun n hn => .inr hn) (fun q hq => .inl (hrequests q hq)) (fun s hs => .inl (hstrings s hs))
  exact ((hdefined _).mp hn).elim (hexterns σ hσ) (Listing.extern_of_build hbuild hσ)

/-- **Every symbol of compiled code exists.** If addresses are taken only of what has a symbol, and
no routine that is said to be defined elsewhere was defined before, then each symbol that an operand
refers to is that of a cell or of a function, or one that is used and defined elsewhere. -/
theorem symbols_supplied {c : Compilation} {asm : Assembly} (hbuild : l.build = .ok p)
    (haddresses : p.AddressesSupplied target) (hexterns : ∀ σ ∈ p.externs, σ.name ∉ ledger.defined)
    (hcompile : p.compile target ledger = (c, ledger')) (hok : c.outcome = .ok asm) :
    ∀ f ∈ asm.functions, ∀ i, Line.instr i ∈ f.code → ∀ a ∈ i.args, ∀ n ∈ a.symbol?,
      n ∈ asm.cells.map (·.name) ∨ n ∈ asm.externals ∨ n ∈ asm.functions.map (·.name) ∨
        n ∈ ledger.defined := by
  obtain ⟨failure, ledger₁, hfs, ⟨e, -, hout, -⟩ | ⟨rfl, hout, rfl⟩⟩ := compile_ledger hcompile
  · cases hout.symm.trans hok
  obtain rfl := Except.ok.inj (hout.symm.trans hok)
  have hsupplied := supplied_reserveCells hbuild haddresses hexterns rfl hfs
  obtain ⟨hgrows, hknown⟩ := grows_compileFunctions hbuild hsupplied (fun f hf => hf) rfl hfs
  obtain ⟨-, -, hcells⟩ := mem_names_reserveCells hfs rfl
  have hexternals := externals_reserveCells p target.arch c.functions ledger₁
  have hnames := names_of_compile hcompile hout
  have hdefined : ∀ n ∈ (p.functions.foldl (fun l f => l.define f.name) ledger).defined,
      n ∈ (c.functions.map (·.routine)).map (·.name) ∨ n ∈ ledger.defined :=
    fun n hn => hnames ▸ ((mem_defined_iff p.functions ledger).mp hn).symm
  intro f hf i hi a ha n hn
  obtain ⟨d, hd, rfl⟩ := List.mem_map.mp hf
  obtain ⟨b, hb, hi⟩ := List.mem_flatMap.mp hi
  obtain (hn | hn) | hn | hn | hn := hknown rfl d hd b hb i hi a ha n hn
  · exact .inl hn
  · exact .inr (.inr (hdefined n hn))
  · exact .inl (hcells n hn)
  · exact .inr (.inl (hexternals ▸ hn))
  · exact .inr (.inr (hdefined n (hgrows.defined ▸ hn)))

end Program

/-! ### A variable whose address is taken -/

namespace Symbols

/-- A function that takes the address of a variable before a call. Its last parameter travels in
memory. -/
def taking (returned : String) : Listing where
  globals := [⟨"s", "ptr"⟩]
  externs := [{ name := "h" }]
  functions :=
    [{  name := "f"
        params := [⟨"a", "byte"⟩, ⟨"b", "byte"⟩, ⟨"c", "byte"⟩]
        result := "byte"
        vars := [⟨"x", "byte"⟩, ⟨"p", "ptr"⟩]
        code :=
          [ { op := "load", dest := "s", left := "\"A\"" },
            { op := "add", dest := "x", left := "c", right := "c" },
            { op := "load", dest := "p", left := "&x" },
            { op := "call", callee := "h" },
            { op := "return", left := returned } ] }]

/-- The program of `taking`. -/
def taken (returned : String) : Program := (taking returned).build.toOption.getD ⟨[], [], [], []⟩

/-- The program, compiled for the 6502. -/
def compiled (returned : String) : Compilation :=
  ((taken returned).compile Arch.mos6502.target .empty).1

/-- The code of the program. -/
def code (returned : String) : Assembly := (compiled returned).outcome.toOption.getD ⟨[], [], []⟩

/-- The symbols that code refers to. -/
def used (asm : Assembly) : List String :=
  asm.functions.flatMap fun f => f.code.flatMap fun line =>
    match line with
    | .instr i => i.args.filterMap Arg.symbol?
    | _ => []

/-- If the variable itself is returned, it lives in memory across the call, and its address is that
of a cell. -/
theorem supplied_taking :
    ["f_x", "s", "f_c", "_s1", "cate_tmp0", "cate_zw0"] ⊆ used (code "x") ∧
      ∀ f ∈ (code "x").functions, ∀ i, Line.instr i ∈ f.code → ∀ a ∈ i.args, ∀ n ∈ a.symbol?,
        n ∈ (code "x").cells.map (·.name) ∨ n ∈ (code "x").externals ∨
          n ∈ (code "x").functions.map (·.name) ∨
          n ∈ Ledger.empty.defined := by
  have hbuild : (taking "x").build = .ok (taken "x") := by cbv
  have haddresses : (taken "x").AddressesSupplied Arch.mos6502.target := by decide +kernel
  have hcompile : (taken "x").compile Arch.mos6502.target .empty = (compiled "x", _) := rfl
  have hok : (compiled "x").outcome = .ok (code "x") := by decide +kernel
  refine ⟨by
    decide +kernel, Program.symbols_supplied hbuild haddresses (fun _ _ => ?_) hcompile hok⟩
  exact List.not_mem_nil

-- If what its address points at is returned instead, the variable is in a register, and no cell has
-- its symbol.
example : ¬ (taken "*p").AddressesSupplied Arch.mos6502.target ∧ "f_x" ∈ used (code "*p") ∧
    "f_x" ∉ (code "*p").cells.map (·.name) ++ (code "*p").externals ++ (code "*p").functions.map
      (·.name) := by
  decide +kernel

end Symbols

end Octet
