import Octet.Proofs.Balance.Compilation
import Octet.Proofs.Inverse.Registers
import Octet.Proofs.Legality

/-!
# Variables keep clear of runtime routines

Whether an instruction calls a runtime routine is decided twice. The allocation asks about the
operands as they were written, with constants cut to the bits of their types. The code is selected
from located operands, with constants cut to the width of their location, after they are folded,
exchanged, and a product by a power of two is made a shift. If the code has a call in it, then the
allocation has expected one: what an instruction may call is kept along with everything else that
its code does, and there is no routine for a count that is a constant or a factor that is a power of
two for its type.

A routine changes the registers of its value, and what it leaves there depends on these and on those
of its second operand. Both are among the registers that the allocation takes for destroyed, so that
a variable that is live through the instruction is in neither of them.

## Main definitions

* `Arch.valueRegister`, `Arch.secondRegister` — the operands of a routine
* `Arch.Uses` — the registers that a routine reads and writes

## Main results

* `Arch.exists_routine_shift`, `Arch.exists_routine_multiply` — the routines use the registers of
  their operands
* `Function.runtime_calls_spared` — no variable that is live through a call sits in one of them
-/

namespace Octet

open Assembly
open Simulator (Memory MosCpu IntelCpu Reading)

namespace Arch

/-! ### What routines use -/

/-- The register of the value that a routine for a width is given, and in which it leaves its
result. -/
def valueRegister (m : Arch) (width : Nat) : Register :=
  if width = 2 then m.runtime.wordValue else m.runtime.byteValue

/-- The register of the second operand of a routine: the second factor of a product, or the count of
a shift. -/
def secondRegister (m : Arch) (op : BinaryOp) (width : Nat) : Register :=
  if op = .mul then if width = 2 then m.runtime.wordOperand else m.runtime.byteOperand
    else m.runtime.counter

/-- **What a routine uses.** It changes no register of the processor but those of its value, nor
memory; and what it leaves in them is told by these registers and those of its second operand. -/
structure Uses (m : Arch) (g : Simulator.Machine m.Cpu → Simulator.Machine m.Cpu)
    (value second : Register) :
    Prop where
  keeps : ∀ M, ∀ u ∈ m.bytes, u ∉ value.units → m.holds (g M) u = m.holds M u
  memory : ∀ M, (g M).memory.ram = M.memory.ram
  reads : ∀ M N, (∀ u ∈ value.units ++ second.units, m.holds M u = m.holds N u) →
    ∀ u ∈ value.units, m.holds (g M) u = m.holds (g N) u

/-- What determines a number on two machines: that some registers hold the same. -/
def Determines (m : Arch) (second : Register) (n : Simulator.Machine m.Cpu → Int) : Prop :=
  ∀ M N, (∀ u ∈ second.units, m.holds M u = m.holds N u) → n M = n N

theorem number_inj {v w : Int} (h : some (Reading.number v) = some (.number w)) : v = w :=
  Reading.number.inj (Option.some.inj h)

section Mos

variable {second : Register} {n : Simulator.Machine MosCpu → Int}

theorem uses_mosByte (op : Int → Int → Int) (hn : mos6502.Determines second n) :
    mos6502.Uses (fun M : Simulator.Machine MosCpu =>
      ⟨{ M.cpu with a := op M.cpu.a (n M) }, M.memory⟩)
      Mos.a second where
  keeps M u hu hne := by
    rcases hu with _ | ⟨_, _ | ⟨_, _ | ⟨_, hu⟩⟩⟩
    · exact absurd (.head _) hne
    · rfl
    · rfl
    · cases hu
  memory M := rfl
  reads M N h u hu := by
    have ha : M.cpu.a = N.cpu.a := number_inj (h Mos.a (.head _))
    have hsecond : n M = n N := hn M N fun u hu => h u (List.mem_append_right _ hu)
    obtain rfl : u = Mos.a := List.mem_singleton.mp hu
    exact congrArg₂ (fun v k => some (Reading.number (op v k))) ha hsecond

theorem uses_mosWord (op : Int → Int → Int) (after : Memory → Memory)
    (hn : mos6502.Determines second n) (hafter : ∀ mem, (after mem).ram = mem.ram) :
    mos6502.Uses (fun M : Simulator.Machine MosCpu =>
      ⟨M.cpu.setAx (op M.cpu.ax (n M)), after M.memory⟩)
      Mos.ax second where
  keeps M u hu hne := by
    rcases hu with _ | ⟨_, _ | ⟨_, _ | ⟨_, hu⟩⟩⟩
    · exact absurd (.head _) hne
    · exact absurd (.tail _ (.head _)) hne
    · exact Eq.trans (b := some (Reading.number M.cpu.y)) rfl rfl
    · cases hu
  memory M := hafter M.memory
  reads M N h u hu := by
    have ha : M.cpu.a = N.cpu.a := number_inj (h Mos.a (.head _))
    have hx : M.cpu.x = N.cpu.x := number_inj (h Mos.x (.tail _ (.head _)))
    have hax : M.cpu.ax = N.cpu.ax := congrArg₂ Simulator.joined hx ha
    have hsecond : n M = n N := hn M N fun u hu => h u (List.mem_append_right _ hu)
    rcases hu with _ | ⟨_, _ | ⟨_, hu⟩⟩
    · exact congrArg₂ (fun v k => some (Reading.number (Bits.low 8 (op v k)))) hax hsecond
    · exact congrArg₂ (fun v k => some (Reading.number (Bits.low 8 (Bits.shr (op v k) 8))))
        hax hsecond
    · cases hu

end Mos

section Intel

variable {second : Register} {n : Simulator.Machine IntelCpu → Int}

theorem uses_intelByte (op : Int → Int → Int) (hn : i8080.Determines second n) :
    i8080.Uses (fun M : Simulator.Machine IntelCpu =>
      ⟨{ M.cpu with a := op M.cpu.a (n M) }, M.memory⟩)
      Intel.a second where
  keeps M u hu hne := by
    rcases hu with _ | ⟨_, _ | ⟨_, _ | ⟨_, _ | ⟨_, _ | ⟨_, _ | ⟨_, _ | ⟨_, hu⟩⟩⟩⟩⟩⟩⟩
    · exact absurd (.head _) hne
    iterate 6 rfl
    cases hu
  memory M := rfl
  reads M N h u hu := by
    have ha : M.cpu.a = N.cpu.a := number_inj (h Intel.a (.head _))
    have hsecond : n M = n N := hn M N fun u hu => h u (List.mem_append_right _ hu)
    obtain rfl : u = Intel.a := List.mem_singleton.mp hu
    exact congrArg₂ (fun v k => some (Reading.number (op v k))) ha hsecond

theorem uses_intelWord (op : Int → Int → Int) (hn : i8080.Determines second n) :
    i8080.Uses (fun M : Simulator.Machine IntelCpu => ⟨M.cpu.setHl (op M.cpu.hl (n M)), M.memory⟩)
      Intel.hl second where
  keeps M u hu hne := by
    rcases hu with _ | ⟨_, _ | ⟨_, _ | ⟨_, _ | ⟨_, _ | ⟨_, _ | ⟨_, _ | ⟨_, hu⟩⟩⟩⟩⟩⟩⟩
    iterate 5 rfl
    · exact absurd (.tail _ (.head _)) hne
    · exact absurd (.head _) hne
    · cases hu
  memory M := rfl
  reads M N h u hu := by
    have hl : M.cpu.l = N.cpu.l := number_inj (h Intel.l (.head _))
    have hh : M.cpu.h = N.cpu.h := number_inj (h Intel.h (.tail _ (.head _)))
    have hhl : M.cpu.hl = N.cpu.hl := congrArg₂ Simulator.paired hh hl
    have hsecond : n M = n N := hn M N fun u hu => h u (List.mem_append_right _ hu)
    rcases hu with _ | ⟨_, _ | ⟨_, hu⟩⟩
    · exact congrArg₂ (fun v k => some (Reading.number (Bits.low 8 (op v k)))) hhl hsecond
    · exact congrArg₂ (fun v k => some (Reading.number (Bits.low 8 (Bits.shr (op v k) 8))))
        hhl hsecond
    · cases hu

end Intel

/-- The two machines of the 6502 family have the same routines. -/
theorem Uses.wide {g : Simulator.Machine MosCpu → Simulator.Machine MosCpu}
    {value second : Register} (h : mos6502.Uses g value second) : wdc65816.Uses g value second :=
  ⟨h.keeps, h.memory, h.reads⟩

theorem ram_peek (mem : Memory) (name : String) (width : Int) :
    (mem.peek name width).2.ram = mem.ram := by
  cases h : mem.symbols.lookup name <;> simp [Memory.peek, Memory.address, h, Memory.place]

/-- **The routines for shifts** use their value and their count. -/
theorem exists_routine_shift (m : Arch) (left signed : Bool) {width : Nat}
    (hwidth : width = 1 ∨ width = 2) :
    ∃ g, m.processor.routine? (m.routine (Build.shiftRoutine left signed) width) = some g ∧
      m.Uses g (m.valueRegister width) m.runtime.counter := by
  have hy : mos6502.Determines Mos.y fun M => M.cpu.y := fun M N h =>
    number_inj (h Mos.y (.head _))
  have hc : i8080.Determines Intel.c fun M => M.cpu.c := fun M N h =>
    number_inj (h Intel.c (.head _))
  have hbyte := uses_mosByte (Simulator.shift · · 1 left (!left && signed)) hy
  have hword := uses_mosWord (Simulator.shift · · 2 left (!left && signed)) id hy fun _ => rfl
  rcases hwidth with rfl | rfl
  · cases m with
    | mos6502 => exact ⟨_, by cases left <;> cases signed <;> rfl, hbyte⟩
    | wdc65816 => exact ⟨_, by cases left <;> cases signed <;> rfl, hbyte.wide⟩
    | i8080 =>
      exact ⟨_, by cases left <;> cases signed <;> rfl,
        uses_intelByte (Simulator.shift · · 1 left (!left && signed)) hc⟩
  · cases m with
    | mos6502 => exact ⟨_, by cases left <;> cases signed <;> rfl, hword⟩
    | wdc65816 => exact ⟨_, by cases left <;> cases signed <;> rfl, hword.wide⟩
    | i8080 =>
      exact ⟨_, by cases left <;> cases signed <;> rfl,
        uses_intelWord (Simulator.shift · · 2 left (!left && signed)) hc⟩

/-- **The routines for products** use both factors. -/
theorem exists_routine_multiply (m : Arch) {width : Nat} (hwidth : width = 1 ∨ width = 2) :
    ∃ g, m.processor.routine? (m.routine "Multiply" width) = some g ∧
      m.Uses g (m.valueRegister width) (m.secondRegister .mul width) := by
  have hx : mos6502.Determines Mos.x fun M => M.cpu.x := fun M N h =>
    number_inj (h Mos.x (.head _))
  have hw : mos6502.Determines Mos.w1 fun M => (M.memory.peek "cate_w1" 2).1 := fun M N h =>
    number_inj (h Mos.w1 (.head _))
  have he : i8080.Determines Intel.e fun M => M.cpu.e := fun M N h =>
    number_inj (h Intel.e (.head _))
  have hde : i8080.Determines Intel.de fun M => IntelCpu.de M.cpu := fun M N h =>
    congrArg₂ Simulator.paired (number_inj (h Intel.d (.tail _ (.head _))))
      (number_inj (h Intel.e (.head _)))
  have hbyte := uses_mosByte (Simulator.multiply · · 1) hx
  have hword := uses_mosWord (Simulator.multiply · · 2) _ hw fun mem => ram_peek mem "cate_w1" 2
  rcases hwidth with rfl | rfl
  · cases m with
    | mos6502 => exact ⟨_, rfl, hbyte⟩
    | wdc65816 => exact ⟨_, rfl, hbyte.wide⟩
    | i8080 => exact ⟨_, rfl, uses_intelByte (Simulator.multiply · · 1) he⟩
  · cases m with
    | mos6502 => exact ⟨_, rfl, hword⟩
    | wdc65816 => exact ⟨_, rfl, hword.wide⟩
    | i8080 => exact ⟨_, rfl, uses_intelWord (Simulator.multiply · · 2) hde⟩

end Arch

/-! ### What the allocation expects -/

theorem Ty.byteCount_of_scalar {t : Ty} (h : t.isByte = true ∨ t.isWord = true) :
    (t.byteCount = 1 ∨ t.byteCount = 2) ∧ (t.isWord = true ↔ t.byteCount = 2) := by
  cases t <;> simp_all [Ty.isByte, Ty.isWord, Ty.byteCount]

namespace Inst

variable {m : Arch} {op : BinaryOp} {dest left right : Operand} {name : String}

/-- **A call was expected**: the registers of the routine are those taken for destroyed. -/
theorem runtimeClobbers_of_calls (htype : dest.type.isByte = true ∨ dest.type.isWord = true)
    (h : (binary op dest left right).Calls m name) :
    (∃ g, m.processor.routine? name = some g ∧
      m.Uses g (m.valueRegister dest.type.byteCount) (m.secondRegister op dest.type.byteCount)) ∧
      (binary op dest left right).runtimeClobbers m =
        .ofList [m.valueRegister dest.type.byteCount, m.secondRegister op dest.type.byteCount] := by
  obtain ⟨hwidth, hword⟩ := Ty.byteCount_of_scalar htype
  have hdest : (binary op dest left right).dest? = some dest := rfl
  cases op with
  | shl =>
    obtain ⟨hcount, rfl⟩ := h
    refine ⟨m.exists_routine_shift _ _ hwidth, ?_⟩
    simp [runtimeClobbers, hdest, hcount, hword, Arch.valueRegister, Arch.secondRegister]
  | shr =>
    obtain ⟨hcount, rfl⟩ := h
    refine ⟨m.exists_routine_shift _ _ hwidth, ?_⟩
    simp [runtimeClobbers, hdest, hcount, hword, Arch.valueRegister, Arch.secondRegister]
  | mul =>
    obtain ⟨hleft, hright, rfl⟩ := h
    refine ⟨m.exists_routine_multiply hwidth, ?_⟩
    simp [runtimeClobbers, hdest, hleft, hright, hword, Arch.valueRegister, Arch.secondRegister]
  | _ => cases h

end Inst

/-! ### Blocks of a function -/

namespace Function

variable {f : Function} {target : Target} {registers : Assignment} {ledger ledger' : Ledger}
  {a : Attempt} {b : Built}

/-- A block of an instruction of the function, whose code calls nothing but what that instruction
may call. -/
def CallsAsExpected (f : Function) (m : Arch) (b : Built) : Prop :=
  ∀ inst, b.inst = some inst → f.at? b.address = some inst ∧
    ∀ i, Line.instr i ∈ b.lines → i.CallsOnly (inst.Calls m)

theorem buildAt_address {site : Site} {known : Constants} {flags : FlagState} {act : Build Unit}
    {o : Outcome}
    (h : buildAt site known flags none act ledger = (o, ledger')) :
    o.block.address = site.address := by
  simp only [buildAt, Site.runScript, ↓reduceIte] at h
  split at h <;> cases h <;> rfl

theorem buildAt_callsAsExpected (site : Site) {known : Constants} {flags : FlagState} {o : Outcome}
    (h : buildAt site known flags none site.act ledger = (o, ledger')) (hok : o.fault = none)
    (hsite : ∀ inst, site.inst = some inst → f.at? site.address = some inst) :
    f.CallsAsExpected site.target.arch o.block := by
  obtain ⟨e, he, -⟩ | ⟨-, w, hlines, -, hinst, hadv⟩ := buildAt_cases h
  · cases he.symm.trans hok
  · obtain ⟨ls, hls, hplaces, -⟩ := hadv.lines
    intro inst hb
    rw [hinst] at hb
    refine ⟨buildAt_address h ▸ hsite inst hb, fun i hi hcall => ?_⟩
    have hi : Line.instr i ∈ ls := by simpa [hlines, hls, Draft.start] using hi
    obtain ⟨name, hargs, inst', hinst', hname⟩ := hplaces.calls i hi hcall
    obtain rfl := Option.some.inj (hb.symm.trans hinst')
    exact ⟨name, hargs, hname⟩

/-- **Every block that was built** calls what its instruction may call. -/
theorem callsAsExpected_build (h : f.build target registers (fun _ => none) ledger = (a, ledger')) :
    ∀ b ∈ a.blocks, f.CallsAsExpected target.arch b := by
  obtain ⟨stop, hbs, -⟩ := builds_build h
  intro b hb
  obtain ⟨site, hsite, known, flags, o, l, l', hat, ho, rfl⟩ := hbs.exists_of_mem hb
  rcases List.mem_cons.mp hsite with rfl | hsite
  · exact buildAt_callsAsExpected (f.entrySite target registers) hat ho (by simp [entrySite])
  · obtain ⟨x, hx, rfl⟩ := List.mem_map.mp hsite
    refine buildAt_callsAsExpected (f.siteOf target registers x) hat ho ?_
    rintro _ ⟨⟩
    exact mem_addressed.mp hx

/-- **A variable that is live through an instruction** is in no register that its routine
destroys. -/
theorem conflicts_of_liveThrough {m : Arch} {assigned : Assignment} {v : Variable}
    {r u : Register} {n : Nat}
    {inst : Inst} (ha : f.Allowed m assigned) (hv : v ∈ f.vars) (hr : assigned.get v = some r)
    (hat : f.at? n = some inst) (hlive : (f.range v).liveThrough n = true)
    (hu : u ∈ (inst.runtimeClobbers m).members) : r.conflicts u = false := by
  have hcovers : (f.range v).Covers n := by
    simp only [LiveRange.liveThrough, Bool.and_eq_true, decide_eq_true_eq] at hlive
    exact ⟨by omega, by omega⟩
  have hallows := ha v hv r hr n hcovers
  simp only [Arch.allows, hat, hlive, Bool.and_eq_true, Bool.true_and, Bool.not_eq_true'] at hallows
  rw [Register.conflicts_comm]
  exact RegisterSet.conflicts_of_not_conflictsWith hallows.1.1.1.2 hu

/-- **Variables keep clear of runtime routines.** Wherever the code of an operation on bytes, words
or pointers has a call in it, what is called is a routine of the machine that uses two registers for
the width of the destination: that of its value, and that of its count or second factor. The
allocation has taken both for destroyed, and no variable that is live through the instruction sits
in a register that conflicts with one of them. -/
theorem runtime_calls_spared {l : Listing} {p : Program} (hl : l.build = .ok p)
    (hf : f ∈ p.functions)
    (hbuild : f.build target (Program.registersOf target f) (fun _ => none) ledger = (a, ledger'))
    (hb : b ∈ a.blocks) {op : BinaryOp} {dest left right : Operand}
    (hinst : b.inst = some (.binary op dest left right))
    (htype : dest.type.isByte = true ∨ dest.type.isWord = true) {i : Instr}
    (hi : Line.instr i ∈ b.lines) (hcall : i.kind = .call) :
    let value := target.arch.valueRegister dest.type.byteCount
    let second := target.arch.secondRegister op dest.type.byteCount
    let destroyed := Inst.runtimeClobbers target.arch (.binary op dest left right)
    (∃ name g, i.args = [.label name] ∧ target.arch.processor.routine? name = some g ∧
        target.arch.Uses g value second) ∧
      (destroyed.contains value = true ∧ destroyed.contains second = true) ∧
      ∀ v ∈ f.vars, (f.range v).liveThrough b.address = true →
        ∀ r, (Program.registersOf target f).get v = some r → r.conflicts value = false ∧
          r.conflicts second = false := by
  intro value second destroyed
  obtain ⟨hat, hcalls⟩ := callsAsExpected_build hbuild b hb _ hinst
  obtain ⟨name, hargs, hname⟩ := hcalls i hi hcall
  obtain ⟨⟨g, hg, huses⟩, hclobbers⟩ := Inst.runtimeClobbers_of_calls htype hname
  have hvalue : value ∈ destroyed.members := by
    simp only [destroyed, hclobbers]
    exact RegisterSet.mem_ofList.mpr (.head _)
  have hsecond : second ∈ destroyed.members := by
    simp only [destroyed, hclobbers]
    exact RegisterSet.mem_ofList.mpr (.tail _ (.head _))
  refine ⟨⟨name, g, hargs, hg, huses⟩,
    ⟨List.contains_iff_mem.mpr hvalue, List.contains_iff_mem.mpr hsecond⟩, ?_⟩
  intro v hv hlive r hr
  have hallowed := allowed_of_build hl hf target.arch (f.signature.arrivals target.arch)
  exact ⟨conflicts_of_liveThrough hallowed hv hr hat hlive hvalue,
    conflicts_of_liveThrough hallowed hv hr hat hlive hsecond⟩

end Function

/-! ### A sum beside a product -/

namespace RuntimeCalls

/-- A function that keeps a sum of its parameters while it multiplies them. -/
def keptListing : Listing where
  globals := []
  externs := []
  functions :=
    [{  name := "f"
        params := [⟨"x", "byte"⟩, ⟨"y", "byte"⟩]
        result := "byte"
        vars := [⟨"k", "byte"⟩, ⟨"z", "byte"⟩]
        code :=
          [ { op := "add", dest := "k", left := "x", right := "y" },
            { op := "mul", dest := "z", left := "x", right := "y" },
            { op := "sub", dest := "z", left := "z", right := "k" },
            { op := "return", left := "z" } ] }]

/-- The first parameter. -/
def first : Variable := Sharing.byteVariable 0 "x" "f_x" (some 0)

/-- The second parameter. -/
def other : Variable := Sharing.byteVariable 1 "y" "f_y" (some 1)

/-- The sum, which is kept. -/
def sum : Variable := Sharing.byteVariable 2 "k" "f_k" none

/-- The product. -/
def product : Variable := Sharing.byteVariable 3 "z" "f_z" none

/-- The multiplication. -/
def multiplication : Inst := .binary .mul (.whole product) (.whole first) (.whole other)

/-- The function of `keptListing`. -/
def kept : Function where
  name := "f"
  params := [⟨0, "x", .byte false, "f_x"⟩, ⟨1, "y", .byte false, "f_y"⟩]
  result := .byte false
  vars := [first, other, sum, product]
  code :=
    [ .binary .add (.whole sum) (.whole first) (.whole other),
      multiplication,
      .binary .sub (.whole product) (.whole product) (.whole sum),
      .ret (some (.whole product)) ]
  ranges := [⟨[1, 2], some (0, 1)⟩, ⟨[1, 2], some (0, 1)⟩, ⟨[1, 3], none⟩, ⟨[2, 3, 4], none⟩]

theorem build_keptListing : keptListing.build = .ok ⟨[], [], [], [kept]⟩ := by cbv

/-- The registers of the variables on the 8080. -/
def registers : Assignment := ⟨[some Intel.a, some Intel.e, some Intel.d, some Intel.e]⟩

theorem registersOf_kept : Program.registersOf Arch.i8080.target kept = registers := by cbv

/-- The blocks of the function on the 8080. -/
def blocks : List Built := (kept.build Arch.i8080.target registers (fun _ => none) .empty).1.blocks

/-- The sum is in one half of a pair while the product is computed, and the routine uses the other
half. -/
theorem spared_kept :
    ∃ b ∈ blocks, b.inst = some multiplication ∧
      Line.instr ⟨"call", [.label "cate.MultiplyA"]⟩ ∈ b.lines ∧
        (kept.range sum).liveThrough b.address = true ∧
      (Program.registersOf Arch.i8080.target kept).get sum = some Intel.d ∧
      (multiplication.runtimeClobbers .i8080).contains Intel.a = true ∧
      (multiplication.runtimeClobbers .i8080).contains Intel.e = true ∧
      Intel.d.conflicts Intel.a = false ∧ Intel.d.conflicts Intel.e = false := by
  have hblock : (blocks[2]?.map fun b => (b.address, b.inst, b.lines)) =
      some (2, some multiplication,
        [.instr ⟨"call", [.label "cate.MultiplyA"]⟩, .instr ⟨"mov", [.reg "e", .reg "a"]⟩]) := by
          decide +kernel
  obtain ⟨b, hb, heq⟩ := Option.map_eq_some_iff.mp hblock
  simp only [Prod.mk.injEq] at heq
  obtain ⟨haddress, hinst, hlines⟩ := heq
  have hcall : Line.instr ⟨"call", [.label "cate.MultiplyA"]⟩ ∈ b.lines := hlines ▸ .head _
  have hlive : (kept.range sum).liveThrough b.address = true := by
    rw [haddress]
    decide
  have hget : (Program.registersOf Arch.i8080.target kept).get sum = some Intel.d := by
    rw [registersOf_kept]
    rfl
  have hbuild : kept.build Arch.i8080.target (Program.registersOf Arch.i8080.target kept)
    (fun _ => none) .empty =
      kept.build Arch.i8080.target registers (fun _ => none) .empty := by rw [registersOf_kept]
  obtain ⟨-, ⟨hvalue, hsecond⟩, hspared⟩ := Function.runtime_calls_spared build_keptListing
    (List.mem_singleton.mpr rfl) hbuild (List.mem_of_getElem? hb) hinst (.inl rfl) hcall rfl
  exact ⟨b, List.mem_of_getElem? hb, hinst, hcall, hlive, hget, hvalue, hsecond,
    hspared sum (by decide) hlive _ hget⟩

end RuntimeCalls

end Octet
