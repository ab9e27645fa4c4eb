import Octet.Proofs.Emitted.Compilation
import Octet.Proofs.Executable.Runs

/-!
# Compiled code can be executed

An operand that was read without a type of its own has the type of its variable, or is a byte of it.
So all operands of a function are at locations that the machine can work with, and what is built for
its instructions are instructions of the machine, unless a pair is taken for a byte.

## Main definitions

* `Listing.isTyped` — operands that are written with a type
* `Built.Admitted` — blocks of instructions of the machine

## Main results

* `Listing.isOwn_of_build` — operands have the type of their variable
* `Program.instructions_executable` — compiled code consists of instructions of the machine
-/

namespace Octet

open Assembly

/-! ### Operands without a type of their own -/

namespace Listing

/-- Whether an operand is written with a type after a colon. -/
def isTyped (text : String) : Bool :=
  match Text.trim text.toList with
  | '"' :: _ => false
  | chars => (Text.cut ':' chars).2.isSome

variable {s : Scope} {o : Operand}

theorem Scope.Means.isOwn {surroundings : Option Ty} {chars : List Char}
    (h : s.Means none surroundings chars o) :
    o.isOwn = true := by
  cases h with
  | int | deref | address => rfl
  | whole => simp [Operand.isOwn]
  | slice => simp [Operand.isOwn, Ty.byteCount]

theorem Scope.Reads.isOwn {text : String} (h : s.Reads text o) (ht : isTyped text = false) :
    o.isOwn = true := by
  obtain ⟨_, _, _, -, rfl⟩ | ⟨hquoted, explicit, _, htype, hmeans⟩ := h
  · rfl
  · have ht : (Text.cut ':' (Text.trim text.toList)).2 = none := by simpa [isTyped] using ht
    exact (htype ht ▸ hmeans).isOwn

/-- **Operands that are written without a type have that of their variable**, or are a byte of
it. -/
theorem isOwn_of_build {l : Listing} {p : Program} {f : Function} (hbuild : l.build = .ok p)
    (huntyped : ∀ r ∈ l.functions, ∀ e ∈ r.code, ∀ text ∈ e.texts, isTyped text = false)
    (hf : f ∈ p.functions)
    {i : Inst} (hi : i ∈ f.code) {o : Operand} (ho : o ∈ i.operands) : o.isOwn = true := by
  obtain ⟨r, hr, σ, -, hreads⟩ := function_of_build hbuild hf
  obtain ⟨e, he, hei⟩ := exists_of_forall₂_right hreads.code hi
  obtain ⟨text, htext, ho⟩ := hei.reads ho
  exact ho.isOwn (huntyped r hr e he text htext)

end Listing

/-! ### Programs -/

/-- The block consists of instructions of the machine. -/
def Built.Admitted (m : Arch) (b : Built) : Prop := ∀ i, Line.instr i ∈ b.lines → m.admits i = true

namespace Program

variable {l : Listing} {p : Program} {target : Target} {ledger ledger' : Ledger}

/-- What is built for a function of a program. -/
theorem admitted_build (hbuild : l.build = .ok p)
    (huntyped : ∀ r ∈ l.functions, ∀ e ∈ r.code, ∀ text ∈ e.texts, Listing.isTyped text = false)
    {f : Function} (hf : f ∈ p.functions)
    (hpairs : ∀ i ∈ f.code, ∀ x ∈ i.handed target.arch (registersOf target f), x.isPair = false)
    {bs : List Built}
    (h : Builds (f.sites target (registersOf target f)) ledger bs none ledger') :
    ∀ b ∈ bs, b.Admitted target.arch := by
  have hown : ∀ i ∈ f.code, ∀ o ∈ i.operands, o.isOwn = true :=
    fun i hi o ho => Listing.isOwn_of_build hbuild huntyped hf hi ho
  -- whatever the symbols are
  have hgrows :=
    h.grows (X := True) (fun s hs => (supplied_univ p target _).keeps hbuild hf (fun _ => hown)
    (fun _ => hpairs) hs) rfl
  exact fun b hb i hi => (hgrows.2 b hb i hi).admits trivial

theorem admitted_compileFunctions {fs : List Function} {cs : List CompiledFunction}
    (hbuilds : ∀ f ∈ fs, ∀ l l' bs, Builds (f.sites target (registersOf target f)) l bs none l' →
      ∀ b ∈ bs, b.Admitted target.arch)
    (h : compileFunctions target fs ledger = ((cs, none), ledger')) :
    ∀ c ∈ cs, ∀ b ∈ c.attempt.blocks, b.Admitted target.arch := by
  obtain ⟨rfl, heach⟩ := (builds_compileFunctions h).2 rfl
  intro c hc
  obtain ⟨hregisters, l, l', hbs⟩ := heach c hc
  exact hbuilds c.function (List.mem_map_of_mem hc) l l' _ (hregisters ▸ hbs)

/-- **Compiled code consists of instructions of the machine.** If no operand is written with a type,
and no pair is handed to an instruction for bytes, then every instruction of a compiled program is a
directive or one that the processor has, with operands that it takes; and no run of the program
fails because an instruction or a register is unknown or an operand is of the wrong kind. -/
theorem instructions_executable {c : Compilation} {asm : Assembly} (hbuild : l.build = .ok p)
    (huntyped : ∀ r ∈ l.functions, ∀ e ∈ r.code, ∀ text ∈ e.texts, Listing.isTyped text = false)
    (hpairs : ∀ f ∈ p.functions, ∀ i ∈ f.code, ∀ x ∈ i.handed target.arch (registersOf target f),
      x.isPair = false)
    (hcompile : p.compile target ledger = (c, ledger')) (hok : c.outcome = .ok asm) :
    (∀ f ∈ asm.functions, ∀ i, Line.instr i ∈ f.code → target.arch.admits i = true) ∧
      ∀ s : Simulator target.arch.Cpu, s.processor = target.arch.processor →
        s.code = Simulator.Code.ofAssembly asm →
        ∀ name M e t, (s.run name M).failure = some e → e.trap? = some t →
          t.isRejection = false := by
  obtain ⟨failure, ledger₁, hfs, ⟨e, -, hout⟩ | ⟨rfl, asm', hout, hroutines⟩⟩ :=
    compile_cases hcompile
  · cases hout.symm.trans hok
  obtain rfl := Except.ok.inj (hout.symm.trans hok)
  have hblocks := admitted_compileFunctions (fun f hf _ _ _ h =>
    admitted_build hbuild huntyped hf (hpairs f hf) h) hfs
  have hadmits : ∀ f ∈ asm'.functions, ∀ i, Line.instr i ∈ f.code →
      target.arch.admits i = true := by
    intro f hf i hi
    obtain ⟨d, hd, rfl⟩ := List.mem_map.mp (hroutines ▸ hf)
    obtain ⟨b, hb, hi⟩ := List.mem_flatMap.mp hi
    exact hblocks d hd b hb i hi
  refine ⟨hadmits, fun s hs hcode name M e t he ht => ?_⟩
  refine Arch.not_isRejection_of_failure hs (fun code hmem q hq => ?_) he ht
  rw [hcode] at hmem
  obtain ⟨f, hf, rfl⟩ := List.mem_map.mp hmem
  obtain ⟨hline, hdirective⟩ := Simulator.Code.mem_code_of_load hq
  simpa [Arch.admits, hdirective] using hadmits f hf _ hline

end Program

/-! ### A function that mixes bytes and words -/

namespace Executable

open Simulator

/-- A function that adds a variable to a byte, a byte to a word, and the low byte of that word to a
byte. -/
def mixing (operand : String) : Listing where
  globals := [⟨"d", "byte"⟩, ⟨"g", "word"⟩]
  externs := []
  functions :=
    [{  name := "f"
        params := [⟨"v", "byte"⟩, ⟨"w", "word"⟩]
        result := ""
        vars := []
        code :=
          [ { op := "add", dest := "d", left := "v", right := operand },
            { op := "add", dest := "w", left := "w", right := "v" },
            { op := "add", dest := "d", left := "d", right := "w.lo" },
            { op := "return" } ] }]

/-- The program of `mixing`. -/
def mixed (operand : String) : Program := (mixing operand).build.toOption.getD ⟨[], [], [], []⟩

/-- The program, compiled for the 8080. -/
def compiled (operand : String) : Compilation :=
  ((mixed operand).compile Arch.i8080.target .empty).1

/-- The code of the program. -/
def code (operand : String) : Assembly := (compiled operand).outcome.toOption.getD ⟨[], [], []⟩

/-- What the first addition takes as it is. -/
def taken (operand : String) : List Location :=
  (mixed operand).functions.flatMap fun f =>
    (f.code.take 1).flatMap (Inst.handed .i8080 (Program.registersOf Arch.i8080.target f))

/-- A word in memory is added to a byte, which takes the byte at its address. -/
theorem executable_mixing :
    taken "g" = [.memory "g" 0 2] ∧
      (∀ f ∈ (code "g").functions, ∀ i, Line.instr i ∈ f.code → Arch.i8080.admits i = true) ∧
      ∀ s : Simulator IntelCpu, s.processor = IntelCpu.processor →
        s.code = Code.ofAssembly (code "g") →
        ∀ M e t, (s.run "f" M).failure = some e → e.trap? = some t → t.isRejection = false := by
  have hbuild : (mixing "g").build = .ok (mixed "g") := by cbv
  have huntyped : ∀ r ∈ (mixing "g").functions, ∀ e ∈ r.code, ∀ text ∈ e.texts,
      Listing.isTyped text = false := by
    decide +kernel
  have hpairs : ∀ f ∈ (mixed "g").functions, ∀ i ∈ f.code,
      ∀ x ∈ i.handed .i8080 (Program.registersOf Arch.i8080.target f), x.isPair = false := by
    decide +kernel
  have hcompile : (mixed "g").compile Arch.i8080.target .empty = (compiled "g", _) := rfl
  have hok : (compiled "g").outcome = .ok (code "g") := by decide +kernel
  obtain ⟨hadmits, hruns⟩ := Program.instructions_executable hbuild huntyped hpairs hcompile hok
  exact ⟨by decide +kernel, hadmits, fun s hs hcode => hruns s hs hcode "f"⟩

-- A word that stays in its pair of registers is added as if the pair were a byte register.
example : taken "w" = [.ofRegister Intel.hl] ∧
    Line.instr ⟨"add", [.reg "hl"]⟩ ∈ (code "w").functions.flatMap (·.code) := by decide +kernel

end Executable

end Octet
