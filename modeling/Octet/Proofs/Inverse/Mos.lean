import Octet.Proofs.Inverse.Contract

/-!
# Saving on the 6502 and the 65816

Registers are pushed, stored in a save cell, or copied to one through the accumulator. Copying
pushes the accumulator first and pulls it at the end, so it changes nothing but its target, the byte
or two of the stack that it has used, and the flags of the last value. The 65816 copies words with a
wide accumulator, which has to be narrow before and after.

## Main definitions

* `Mos.Plain` — machines whose registers are bytes, with a narrow accumulator
* `Mos.Copies` — code that copies a cell and keeps the registers

## Main results

* `Mos.copies_throughA`, `Mos.copies_word` — copying bytes through the accumulator, and words
  through a wide one
* `Mos.exists_inverts_saveUnit`, `Mos.exists_inverts_saveWideUnit` — the save code of one register
-/

namespace Octet

open Assembly (Arg Instr Line)
open Build (saveCellName)
open Simulator (Memory MosCpu Exec Processor)

namespace Mos

/-! ### Machines -/

/-- The registers are bytes, the accumulator is narrow, and the stack pointer is within its page. -/
structure Plain (M : Simulator.Machine MosCpu) : Prop where
  a : ∃ v : UInt8, M.cpu.a = v.toNat
  x : ∃ v : UInt8, M.cpu.x = v.toNat
  y : ∃ v : UInt8, M.cpu.y = v.toNat
  b : ∃ v : UInt8, M.cpu.b = v.toNat
  narrow : M.cpu.wide = false
  nonneg : 0 ≤ M.cpu.sp
  lt : M.cpu.sp < 256

theorem Plain.of_readings {M : Simulator.Machine MosCpu}
    (hbyte : ∀ r ∈ ["a", "x", "y", "b"], ∃ v : UInt8,
      M.cpu.readings.lookup r = some (.number v.toNat))
    (hnarrow : M.cpu.readings.lookup "wide" ≠ some (.flag true)) (h₀ : 0 ≤ M.cpu.sp)
    (h₁ : M.cpu.sp < 256) :
    Plain M := by
  simp [MosCpu.readings, List.lookup] at hbyte hnarrow
  exact ⟨hbyte.1, hbyte.2.1, hbyte.2.2.1, hbyte.2.2.2, hnarrow, h₀, h₁⟩

theorem lookup_readings {c c' : MosCpu} (ha : c'.a = c.a) (hx : c'.x = c.x) (hy : c'.y = c.y)
    (hb : c'.b = c.b) (hc : c'.c = c.c) (hv : c'.v = c.v) (hwide : c'.wide = c.wide) :
    ∀ name ∈ ["a", "x", "y", "b", "c", "v", "wide"],
      c'.readings.lookup name = c.readings.lookup name := by
  simp [MosCpu.readings, List.lookup, ha, hx, hy, hb, hc, hv, hwide]

/-! ### Registers -/

section Registers

variable {M : Simulator.Machine MosCpu} {r : Register}

theorem Plain.value (h : Plain M) (hr : r ∈ [Mos.a, Mos.x, Mos.y]) :
    ∃ v : UInt8, value M.cpu r = v.toNat := by
  obtain rfl | rfl | rfl := eq_of_mem hr
  · exact h.a
  · exact h.x
  · exact h.y

theorem lookup_of_value (hr : r ∈ [Mos.a, Mos.x, Mos.y]) {c : MosCpu} {v : UInt8}
    (hv : value c r = v.toNat) :
    c.readings.lookup r.name = some (.number v.toNat) := by
  rw [← hv]
  obtain rfl | rfl | rfl := eq_of_mem hr <;> rfl

/-- The readings after a byte was put into a register. -/
theorem lookup_filled (hr : r ∈ [Mos.a, Mos.x, Mos.y]) (c : MosCpu) (v : UInt8) :
    (filled c r v).sp = c.sp ∧ (filled c r v).readings.lookup r.name = some (.number v.toNat) ∧
      ∀ name ∈ ["a", "x", "y", "b", "c", "v", "wide"], name ≠ r.name →
        (filled c r v).readings.lookup name = c.readings.lookup name := by
  obtain rfl | rfl | rfl := eq_of_mem hr
  · refine ⟨rfl, rfl, ?_⟩
    simp [MosCpu.readings, List.lookup, filled, MosCpu.put, MosCpu.setNZ, Mos.a, Register.name]
  · refine ⟨rfl, rfl, ?_⟩
    simp [MosCpu.readings, List.lookup, filled, MosCpu.put, MosCpu.setNZ, Mos.x, Register.name]
  · refine ⟨rfl, rfl, ?_⟩
    simp [MosCpu.readings, List.lookup, filled, MosCpu.put, MosCpu.setNZ, Mos.y, Register.name]

/-- Pushing a register. -/
theorem run_push_register (h : Plain M) (hr : r ∈ [Mos.a, Mos.x, Mos.y]) {v : UInt8}
    (hv : value M.cpu r = v.toNat) :
    (MosCpu.step ⟨"ph" ++ r.name, []⟩).run M =
      (.ok .next,
        ⟨{ M.cpu with sp := (M.cpu.sp - 1) % 256 }, M.memory.setByte (256 + M.cpu.sp) v⟩) :=
  run_ph hr h.narrow (hv ▸ run_push h.nonneg h.lt v)

/-- Storing a register in a cell. -/
theorem run_store_cell (hr : r ∈ [Mos.a, Mos.x, Mos.y]) (hw : M.cpu.wide = false) {name : String}
    {D o : Int}
    (hname : M.memory.symbols.lookup name = some D) {v : UInt8} (hv : value M.cpu r = v.toNat) :
    (MosCpu.step ⟨"st" ++ r.name, [.mem name o]⟩).run M =
      (.ok .next, ⟨M.cpu, M.memory.setByte (D + o) v⟩) :=
  run_st hr hw hv (run_mem hname)

/-- Loading a register from a cell. -/
theorem run_load_cell (hr : r ∈ [Mos.a, Mos.x, Mos.y]) (hw : M.cpu.wide = false) {name : String}
    {D o : Int} (hname : M.memory.symbols.lookup name = some D) :
    (MosCpu.step ⟨"ld" ++ r.name, [.mem name o]⟩).run M =
      (.ok .next, ⟨filled M.cpu r (M.memory.byte (D + o)), M.memory⟩) := by
  refine run_ld hr hw ?_
  rw [run_read hname, Int.natCast_one, Memory.read_one]

end Registers

/-! ### Copying a cell -/

/-- The registers after a byte was put into the narrow accumulator. -/
def loaded (c : MosCpu) (v : UInt8) : MosCpu := { c with a := v.toNat }.setNZ v.toNat 1

/-- Two cells of `w` bytes are apart from each other and from the next two bytes of the stack. -/
structure Separate (sp D S : Int) (w : Nat) : Prop where
  dest : ∀ o o' : Nat, o < w → o' < w → Memory.index (D + o) = Memory.index (D + o') → o = o'
  source : ∀ o o' : Nat, o < w → o' < w → Memory.index (S + o) = Memory.index (S + o') → o = o'
  cells : ∀ o o' : Nat, o < w → o' < w → Memory.index (S + o) ≠ Memory.index (D + o')
  destStack : ∀ o k : Nat, o < w → k < 2 → Memory.index (D + o) ≠ Memory.index
    (256 + (sp - k) % 256)
  sourceStack : ∀ o k : Nat, o < w → k < 2 → Memory.index (S + o) ≠ Memory.index
    (256 + (sp - k) % 256)

theorem Separate.symm {sp D S : Int} {w : Nat} (h : Separate sp D S w) : Separate sp S D w :=
  ⟨h.source, h.dest, fun o o' ho ho' he => h.cells o' o ho' ho he.symm, h.sourceStack, h.destStack⟩

/-- **A cell was copied.** The flags of the last value may have changed, and the next two bytes of
the stack. -/
structure Copied (D S : Int) (w : Nat) (M M' : Simulator.Machine MosCpu) : Prop where
  cpu : M'.cpu = { M.cpu with n := M'.cpu.n, z := M'.cpu.z }
  symbols : M'.memory.symbols = M.memory.symbols
  copy : ∀ o : Nat, o < w → M'.memory.byte (D + o) = M.memory.byte (S + o)
  bytes : ∀ a, (∀ k : Nat, k < 2 → Memory.index a ≠ Memory.index (256 + (M.cpu.sp - k) % 256)) →
    (∀ o : Nat, o < w → Memory.index a ≠ Memory.index (D + o)) → M'.memory.byte a = M.memory.byte a

/-- Code that copies `w` bytes from one cell to another. -/
def Copies (code : List Instr) (dest source : String) (w : Nat) : Prop :=
  ∀ (M : Simulator.Machine MosCpu) (D S : Int), Plain M → M.memory.symbols.lookup dest = some D →
    M.memory.symbols.lookup source = some S → Separate M.cpu.sp D S w →
      ∃ M', MosCpu.processor.execute code M = some M' ∧ Copied D S w M M'

section Copying

variable {M : Simulator.Machine MosCpu} {dest source : String} {D S : Int}

/-- The bytes are copied one by one, the lowest first. -/
theorem exists_execute_bytes (hnarrow : M.cpu.wide = false)
    (hdest : M.memory.symbols.lookup dest = some D)
    (hsource : M.memory.symbols.lookup source = some S) (w : Nat)
    (hinj : ∀ o o' : Nat, o < w → o' < w → Memory.index (D + o) = Memory.index (D + o') → o = o')
    (hcells : ∀ o o' : Nat, o < w → o' < w → Memory.index (S + o) ≠ Memory.index (D + o')) :
    ∃ N, MosCpu.processor.execute ((List.range w).flatMap fun i : Nat =>
        [⟨"lda", [.mem source i]⟩, ⟨"sta", [.mem dest i]⟩]) M = some N ∧
      N.cpu = { M.cpu with a := N.cpu.a, n := N.cpu.n, z := N.cpu.z } ∧
        N.memory.symbols = M.memory.symbols ∧
      (∀ o : Nat, o < w → N.memory.byte (D + o) = M.memory.byte (S + o)) ∧
      ∀ i, (∀ o : Nat, o < w → Memory.index i ≠ Memory.index (D + o)) →
        N.memory.byte i = M.memory.byte i := by
  induction w with
  | zero => exact ⟨M, rfl, rfl, rfl, fun o ho => absurd ho (by omega), fun _ _ => rfl⟩
  | succ w ih =>
    obtain ⟨N, hrun, hcpu, hsymbols, hcopy, hrest⟩ := ih
      (fun o o' ho ho' => hinj o o' (by omega) (by omega)) fun o o' ho ho' =>
        hcells o o' (by omega) (by omega)
    have hvalue : N.memory.byte (S + w) = M.memory.byte (S + w) :=
      hrest _ fun o ho => hcells w o (by omega) (by omega)
    have hwide : N.cpu.wide = false := by
      rw [hcpu]
      exact hnarrow
    have hload := run_load_cell (o := w) (.head _) hwide (hsymbols ▸ hsource)
    have hstore := run_store_cell (M := ⟨loaded N.cpu (N.memory.byte (S + w)), N.memory⟩) (o := w)
      (.head _) hwide (hsymbols ▸ hdest) rfl
    refine ⟨⟨loaded N.cpu (N.memory.byte (S + w)),
      N.memory.setByte (D + w) (N.memory.byte (S + w))⟩, ?_, ?_, hsymbols, ?_, ?_⟩
    · rw [List.range_succ, List.flatMap_append, Processor.execute_append, hrun]
      refine (Processor.execute_cons rfl hload).trans ?_
      exact Processor.execute_cons rfl hstore
    · rw [hcpu]
      rfl
    · intro o ho
      by_cases he : o = w
      · rw [he, Memory.byte_setByte_self, hvalue]
      · rw [Memory.byte_setByte_of_ne fun h => he (hinj o w (by omega) (by omega) h),
          hcopy o (by omega)]
    · intro i hi
      rw [Memory.byte_setByte_of_ne (hi w (by omega)), hrest i fun o ho => hi o (by omega)]

/-- **Copying through the accumulator.** -/
theorem copies_throughA (dest source : String) (w : Int) :
    Copies (copyThroughA dest source w) dest source w.toNat := by
  intro M D S hM hdest hsource hsep
  have h₀ := hM.nonneg
  have h₁ := hM.lt
  obtain ⟨v, hv⟩ := hM.a
  have hslot : 256 + M.cpu.sp = 256 + (M.cpu.sp - (0 : Nat)) % 256 := by omega
  have hpush := run_push_register hM (r := a) (.head _) hv
  obtain ⟨N, hrun, hcpu, hsymbols, hcopy, hrest⟩ := exists_execute_bytes
    (M := ⟨{ M.cpu with sp := (M.cpu.sp - 1) % 256 }, M.memory.setByte (256 + M.cpu.sp) v⟩)
    hM.narrow hdest hsource w.toNat hsep.dest hsep.cells
  have hpull := run_pl (r := a) (.head _) (run_pull (M := N)) (by rw [hcpu]; exact hM.narrow)
  have hpointer : (N.cpu.sp + 1) % 256 = M.cpu.sp := by
    rw [hcpu]
    dsimp only
    omega
  have hbyte : N.memory.byte (256 + M.cpu.sp) = v := by
    rw [hrest _ fun o ho h => hsep.destStack o 0 ho (by omega) (by rw [← hslot, h]),
      Memory.byte_setByte_self]
  rw [hpointer, hbyte] at hpull
  refine ⟨⟨loaded { N.cpu with sp := M.cpu.sp } v, N.memory⟩, ?_, ?_, hsymbols, ?_, ?_⟩
  · rw [copyThroughA, Processor.execute_append,
      Processor.execute_cons rfl hpush, hrun]
    change MosCpu.processor.execute [⟨"pla", []⟩] N = _
    exact Processor.execute_cons rfl hpull
  · have hv : (v.toNat : Int) = M.cpu.a := hv.symm
    rw [loaded, hv, hcpu]
    rfl
  · intro o ho
    rw [hcopy o ho]
    exact Memory.byte_setByte_of_ne fun h => hsep.sourceStack o 0 ho (by omega) (by rw [h, hslot])
  · intro i hi hout
    rw [hrest i hout]
    exact Memory.byte_setByte_of_ne fun h => hi 0 (by omega) (by rw [h, hslot])

/-! #### With a wide accumulator -/

theorem setNZ_of_wide {c : MosCpu} (hw : c.wide = true) {low high : UInt8} (hlow : c.a = low.toNat)
    (hhigh : c.b = high.toNat) :
    c.setNZ c.acc c.width = c.setNZ (low.toNat + 256 * high.toNat) 2 := by
  rw [acc_of_wide hw hlow hhigh, MosCpu.width_of_wide hw]

/-- Pushing the wide accumulator, the high byte first. -/
theorem run_pha_wide (hw : M.cpu.wide = true) (h₀ : 0 ≤ M.cpu.sp) (h₁ : M.cpu.sp < 256)
    {low high : UInt8} (hlow : M.cpu.a = low.toNat) (hhigh : M.cpu.b = high.toNat) :
    (MosCpu.step ⟨"pha", []⟩).run M = (.ok .next, ⟨{ M.cpu with sp := (M.cpu.sp - 2) % 256 },
      (M.memory.setByte (256 + M.cpu.sp) high).setByte (256 + (M.cpu.sp - 1) % 256) low⟩) := by
  have hstep : (MosCpu.step ⟨"pha", []⟩).run M = (MosCpu.push M.cpu.b >>= fun _ =>
      MosCpu.push M.cpu.a >>= fun _ => pure .next : Exec MosCpu Simulator.Transfer).run M := by
    obtain ⟨c, m⟩ := M
    obtain ⟨a, x, y, b, sp, n, z, c, v, wide⟩ := c
    subst hw
    rfl
  have hsp : ((M.cpu.sp - 1) % 256 - 1) % 256 = (M.cpu.sp - 2) % 256 := by omega
  have hsecond :=
    run_push
      (M := ⟨{ M.cpu with sp := (M.cpu.sp - 1) % 256 }, M.memory.setByte (256 + M.cpu.sp) high⟩)
    (Int.emod_nonneg _ (by decide)) (Int.emod_lt_of_pos _ (by decide)) low
  dsimp only at hsecond
  rw [hsp] at hsecond
  rw [hstep, hhigh, hlow, Exec.run_bind (run_push h₀ h₁ high), Exec.run_bind hsecond]
  rfl

/-- Pulling the wide accumulator, the low byte first. -/
theorem run_pla_wide (hw : M.cpu.wide = true) {p : Int} (hp : (M.cpu.sp + 2) % 256 = p)
    {low high : UInt8}
    (hlow : M.memory.byte (256 + (M.cpu.sp + 1) % 256) = low)
    (hhigh : M.memory.byte (256 + p) = high) :
    (MosCpu.step ⟨"pla", []⟩).run M =
      (.ok .next, ⟨loadedWord { M.cpu with sp := p } low high, M.memory⟩) := by
  have hsp : ((M.cpu.sp + 1) % 256 + 1) % 256 = p := by omega
  have hsecond :=
    run_pull (M := ⟨{ M.cpu with sp := (M.cpu.sp + 1) % 256, a := low.toNat }, M.memory⟩)
  dsimp only at hsecond
  rw [hsp, hhigh] at hsecond
  have hstep : (MosCpu.step ⟨"pla", []⟩).run M = (MosCpu.pull >>= fun high => do
      Exec.update fun c => { c with b := high }
      MosCpu.registers fun c => c.setNZ c.acc c.width : Exec MosCpu Simulator.Transfer).run
        ⟨{ M.cpu with sp := (M.cpu.sp + 1) % 256, a := low.toNat }, M.memory⟩ := by
    change (MosCpu.pull >>= fun low => do
        Exec.update fun c => { c with a := low }
        if (← Exec.cpu).wide then
          let high ← MosCpu.pull
          Exec.update fun c => { c with b := high }
        MosCpu.registers fun c => c.setNZ c.acc c.width : Exec MosCpu Simulator.Transfer).run M = _
    rw [Exec.run_bind run_pull, hlow]
    obtain ⟨c, m⟩ := M
    obtain ⟨a, x, y, b, sp, n, z, c, v, wide⟩ := c
    subst hw
    rfl
  rw [hstep, Exec.run_bind hsecond]
  refine congrArg
    (fun c => (Except.ok Simulator.Transfer.next, (⟨c, M.memory⟩ : Simulator.Machine MosCpu))) ?_
  exact setNZ_of_wide (by exact hw) (show _ = (low.toNat : Int) from rfl)
    (show _ = (high.toNat : Int) from rfl)

/-- A byte apart from two that were written. -/
theorem byte_setByte_two {mem : Memory} {p q a : Int} {u v : UInt8}
    (hp : Memory.index a ≠ Memory.index p)
    (hq : Memory.index a ≠ Memory.index q) :
    ((mem.setByte p u).setByte q v).byte a = mem.byte a := by
  rw [Memory.byte_setByte_of_ne hq, Memory.byte_setByte_of_ne hp]

/-- The code that copies a word, given the memory with the accumulator pushed and then with the
copy: what it reads of either is known. -/
theorem execute_copyWord (hM : Plain M) {low high low' high' : UInt8} (hlow : M.cpu.a = low.toNat)
    (hhigh : M.cpu.b = high.toNat) {pushed copied : Memory} (hpushed : pushed =
      (M.memory.setByte (256 + M.cpu.sp) high).setByte (256 + (M.cpu.sp - 1) % 256) low)
    (hsource : pushed.symbols.lookup source = some S) (hdest : pushed.symbols.lookup dest = some D)
    (hsourceLow : pushed.byte S = low') (hsourceHigh : pushed.byte (S + 1) = high')
    (hcopied : copied = (pushed.setByte D low').setByte (D + 1) high')
    (hpulledLow : copied.byte (256 + (M.cpu.sp - 1) % 256) = low)
    (hpulledHigh : copied.byte (256 + M.cpu.sp) = high) :
    MosCpu.processor.execute (copyWord dest source) M =
      some ⟨{ loadedWord M.cpu low high with wide := false }, copied⟩ := by
  have h₀ := hM.nonneg
  have h₁ := hM.lt
  have hwiden : (MosCpu.step ⟨"rep", [.imm 0x20]⟩).run M =
      (.ok .next, ⟨{ M.cpu with wide := true }, M.memory⟩) := rfl
  have hnarrow : ∀ N : Simulator.Machine MosCpu, (MosCpu.step ⟨"sep", [.imm 0x20]⟩).run N =
      (.ok .next, ⟨{ N.cpu with wide := false }, N.memory⟩) := fun _ => rfl
  have hpush := run_pha_wide (M := ⟨{ M.cpu with wide := true }, M.memory⟩) rfl h₀ h₁ hlow hhigh
  have hread := run_read (M := ⟨{ M.cpu with wide := true, sp := (M.cpu.sp - 2) % 256 }, pushed⟩)
      (o := 0) hsource 2
  have hstore :=
    run_sta_wide
      (M := ⟨loadedWord { M.cpu with wide := true, sp := (M.cpu.sp - 2) % 256 } low' high',
    pushed⟩) rfl rfl rfl (run_mem (o := 0) hdest)
  have hsp₁ : ((M.cpu.sp - 2) % 256 + 1) % 256 = (M.cpu.sp - 1) % 256 := by omega
  have hsp₂ : ((M.cpu.sp - 2) % 256 + 2) % 256 = M.cpu.sp := by omega
  have hpull :=
    run_pla_wide
      (M := ⟨loadedWord { M.cpu with wide := true, sp := (M.cpu.sp - 2) % 256 } low' high',
    copied⟩) rfl hsp₂ ((congrArg (fun p => copied.byte (256 + p)) hsp₁).trans hpulledLow)
      hpulledHigh
  dsimp only at hpush hread hstore hpull
  rw [← hpushed] at hpush
  rw [Int.add_zero, Nat.cast_ofNat, Memory.read_two, hsourceLow, hsourceHigh] at hread
  have hload := run_lda_wide rfl hread
  rw [Int.add_zero, ← hcopied] at hstore
  rw [copyWord, wide]
  refine (Processor.execute_cons rfl hwiden).trans ?_
  refine (Processor.execute_skip rfl).trans ?_
  refine (Processor.execute_cons rfl hpush).trans ?_
  refine (Processor.execute_cons rfl hload).trans ?_
  refine (Processor.execute_cons rfl hstore).trans ?_
  refine (Processor.execute_cons rfl hpull).trans ?_
  refine (Processor.execute_cons rfl (hnarrow _)).trans ?_
  exact Processor.execute_skip rfl

/-- **Copying a word through the wide accumulator.** -/
theorem copies_word (dest source : String) : Copies (copyWord dest source) dest source 2 := by
  intro M D S hM hdest hsource hsep
  have h₀ := hM.nonneg
  have h₁ := hM.lt
  obtain ⟨low, hlow⟩ := hM.a
  obtain ⟨high, hhigh⟩ := hM.b
  have hslot₀ : 256 + M.cpu.sp = 256 + (M.cpu.sp - (0 : Nat)) % 256 := by omega
  have hslot₁ : 256 + (M.cpu.sp - 1) % 256 = 256 + (M.cpu.sp - (1 : Nat)) % 256 := by omega
  have hD : D + (0 : Nat) = D := Int.add_zero D
  have hS : S + (0 : Nat) = S := Int.add_zero S
  -- the memory with the accumulator pushed
  obtain ⟨pushed, hpushed⟩ : ∃ mem, mem = (M.memory.setByte (256 + M.cpu.sp) high).setByte
    (256 + (M.cpu.sp - 1) % 256) low := ⟨_, rfl⟩
  have hunder : ∀ a,
    (∀ k : Nat, k < 2 → Memory.index a ≠ Memory.index (256 + (M.cpu.sp - k) % 256)) →
      pushed.byte a = M.memory.byte a := by
    intro a ha
    rw [hpushed, byte_setByte_two (by rw [hslot₀]; exact ha 0 (by omega))
      (by rw [hslot₁]; exact ha 1 (by omega))]
  have hsymbols : pushed.symbols = M.memory.symbols := by
    rw [hpushed]
    rfl
  have hsourceLow : pushed.byte S = M.memory.byte S :=
    hS ▸ hunder _ fun k hk => hsep.sourceStack 0 k (by omega) hk
  have hsourceHigh : pushed.byte (S + 1) = M.memory.byte (S + 1) :=
    hunder _ fun k hk => hsep.sourceStack 1 k (by omega) hk
  -- the memory with the copy
  obtain ⟨copied, hcopied⟩ : ∃ mem, mem =
    (pushed.setByte D (M.memory.byte S)).setByte (D + 1) (M.memory.byte (S + 1)) := ⟨_, rfl⟩
  have hrest : ∀ a, (∀ o : Nat, o < 2 → Memory.index a ≠ Memory.index (D + o)) →
      copied.byte a = pushed.byte a := by
    intro a ha
    rw [hcopied]
    exact byte_setByte_two (hD ▸ ha 0 (by omega)) (ha 1 (by omega))
  have hpulledLow : copied.byte (256 + (M.cpu.sp - 1) % 256) = low := by
    rw [hrest, hpushed, Memory.byte_setByte_self]
    exact fun o ho h => hsep.destStack o 1 ho (by omega) (by rw [← hslot₁, h])
  have hpulledHigh : copied.byte (256 + M.cpu.sp) = high := by
    rw [hrest, hpushed, Memory.byte_setByte_of_ne, Memory.byte_setByte_self]
    · rw [Ne, Memory.index_eq_iff]
      omega
    · exact fun o ho h => hsep.destStack o 0 ho (by omega) (by rw [← hslot₀, h])
  refine ⟨_, execute_copyWord hM hlow hhigh hpushed (hsymbols ▸ hsource)
    (hsymbols ▸ hdest) hsourceLow hsourceHigh hcopied hpulledLow hpulledHigh, ?_, ?_, ?_, ?_⟩
  · dsimp only [loadedWord]
    rw [← hlow, ← hhigh, ← hM.narrow]
    rfl
  · rw [hcopied]
    exact hsymbols
  · intro o ho
    obtain rfl | rfl : o = 0 ∨ o = 1 := by omega
    · rw [hcopied, hD, hS, Memory.byte_setByte_of_ne, Memory.byte_setByte_self]
      exact fun h => absurd (hsep.dest 0 1 (by omega) (by omega) (by rw [hD]; exact h)) (by decide)
    · rw [hcopied]
      exact Memory.byte_setByte_self
  · intro a ha hout
    rw [hrest a hout, hunder a ha]

end Copying

/-! ### The save code of a register -/

section Units

variable {m : Arch} {r : Register}

theorem isCell_of_mem (hr : r ∈ [Mos.a, Mos.x, Mos.y]) : r.isCell = false :=
  (by decide : ∀ u ∈ [Mos.a, Mos.x, Mos.y], u.isCell = false) r hr

/-- **Registers that are pushed.** -/
theorem inverts_push (hm : m ≠ .i8080) (hr : r ∈ [Mos.a, Mos.x, Mos.y]) (n : Nat) :
    SaveCode.Inverts m n [r] 1 ⟨[⟨"ph" ++ r.name, []⟩], [⟨"pl" ++ r.name, []⟩], n⟩ := by
  have hcell : r.isCell = false := isCell_of_mem hr
  obtain ⟨hph, hrise⟩ := executed_register r hr ("ph", 1) (by decide)
  obtain ⟨hpl, -⟩ := executed_register r hr ("pl", -1) (by decide)
  have hnames : m.names r = [r.name] := by simp [Arch.names, hcell, hm]
  cases m with
  | i8080 => exact absurd rfl hm
  | mos6502 | wdc65816 =>
    refine ⟨?_, Nat.le_refl n, ?_, fun M hM _ => ?_⟩
    · exact List.forall_mem_singleton.mpr (List.mem_append_left _ hr)
    · simp [Line.rises, Line.rise, hrise, Arch.slotBytes]
    have hplain : Plain M := .of_readings hM.byte hM.narrow hM.nonneg hM.lt
    obtain ⟨v, hv⟩ := hplain.value hr
    have hrun := run_push_register hplain hr hv
    have hslot : 256 + M.cpu.sp = 256 + (M.cpu.sp - (0 : Nat)) % 256 := by
      have := hplain.nonneg
      have := hplain.lt
      omega
    refine ⟨_, Processor.execute_cons hph hrun, ?_, ?_⟩
    · refine ⟨rfl, lookup_readings rfl rfl rfl rfl rfl rfl rfl, rfl, fun a hp _ => ?_⟩
      refine Memory.byte_setByte_of_ne fun ha => hp ⟨0, by omega, ?_⟩
      rw [ha, hslot]
      rfl
    intro M₂ hM₂ hkeep
    have hplain₂ : Plain M₂ := .of_readings hM₂.byte hM₂.narrow hM₂.nonneg hM₂.lt
    have hsp : M₂.cpu.sp = (M.cpu.sp - 1) % 256 := hkeep.pointer
    have hback : (M₂.cpu.sp + 1) % 256 = M.cpu.sp := by
      have := hplain.nonneg
      have := hplain.lt
      omega
    have hbyte : M₂.memory.byte (256 + (M₂.cpu.sp + 1) % 256) = v := by
      have hstack := hkeep.stack 0 (by omega)
      change M₂.memory.byte (256 + (M.cpu.sp - (0 : Nat)) % 256) =
        (M.memory.setByte (256 + M.cpu.sp) v).byte (256 + (M.cpu.sp - (0 : Nat)) % 256) at hstack
      rw [← hslot, Memory.byte_setByte_self] at hstack
      rw [hback, hstack]
    have hpull := run_pl hr (run_pull (M := M₂)) hplain₂.narrow
    rw [hbyte, hback] at hpull
    obtain ⟨hsp, hvalue, hother⟩ := lookup_filled hr { M₂.cpu with sp := M.cpu.sp } v
    refine ⟨_, Processor.execute_cons hpl hpull,
      .of_register hcell hsp ?_ ?_ rfl fun _ _ => rfl⟩
    · rw [hnames]
      exact List.forall_mem_singleton.mpr (hvalue.trans (lookup_of_value hr hv).symm)
    · intro name hname hno
      rw [hnames] at hno
      refine (hother name hname (by simpa using hno)).trans ?_
      refine lookup_readings (c := M₂.cpu) ?_ ?_ ?_ ?_ ?_ ?_ ?_ name hname <;> rfl

/-- The address of a save cell is known, and later on it is the same. -/
theorem lookup_save {symbols symbols' : List (String × Int)} {n k room : Nat} {p : Int}
    (h : m.Roomy symbols k p room) (hn : n < k)
    (hsymbols : ∀ name a, symbols.lookup name = some a → symbols'.lookup name = some a) :
    symbols'.lookup (saveCellName n) = some (addressIn symbols (saveCellName n)) :=
  hsymbols _ _ (lookup_addressIn (h.placed _ 0 (.save hn (by omega))))

/-- **Index registers of the 6502**, which go to a save cell. -/
theorem inverts_park (hr : r ∈ [Mos.x, Mos.y]) (n : Nat) : SaveCode.Inverts .mos6502 n [r] 0
    ⟨[⟨"st" ++ r.name, [.mem (saveCellName n) 0]⟩], [⟨"ld" ++ r.name, [.mem (saveCellName n) 0]⟩],
      n + 1⟩ := by
  have hr : r ∈ [Mos.a, Mos.x, Mos.y] := .tail _ hr
  have hcell : r.isCell = false := isCell_of_mem hr
  obtain ⟨hst, hrise⟩ := executed_register r hr ("st", 0) (by decide)
  obtain ⟨hld, -⟩ := executed_register r hr ("ld", 0) (by decide)
  have hrise : Instr.rise ⟨"st" ++ r.name, [.mem (saveCellName n) 0]⟩ = 0 := hrise
  have hnames : Arch.names .mos6502 r = [r.name] := by simp [Arch.names, hcell]
  refine ⟨?_, Nat.le_succ n, ?_, fun M hM hroomy => ?_⟩
  · exact List.forall_mem_singleton.mpr (List.mem_append_left _ hr)
  · simp [Line.rises, Line.rise, hrise]
  have hplain : Plain M := .of_readings hM.byte hM.narrow hM.nonneg hM.lt
  obtain ⟨v, hv⟩ := hplain.value hr
  have hrun := run_store_cell (o := 0) hr hplain.narrow
    (lookup_save hroomy (Nat.lt_succ_self n) fun _ _ h => h) hv
  rw [Int.add_zero] at hrun
  refine ⟨_, Processor.execute_cons hst hrun, ?_, ?_⟩
  · refine ⟨(Arch.lowered_zero hM.nonneg hM.lt).symm, fun _ _ => rfl, rfl, fun a _ hc => ?_⟩
    refine Memory.byte_setByte_of_ne fun ha =>
      hc ⟨n, 0, Nat.le_refl n, Nat.lt_succ_self n, by omega, ?_⟩
    rw [ha, Int.natCast_zero, Int.add_zero]
  intro M₂ hM₂ hkeep
  have hbyte : M₂.memory.byte (addressIn M.memory.symbols (saveCellName n)) = v := by
    have hcells := hkeep.cells n 0 (Nat.le_refl n) (Nat.lt_succ_self n) (by omega)
    rw [Int.natCast_zero, Int.add_zero] at hcells
    exact hcells.trans Memory.byte_setByte_self
  have hplain₂ : Plain M₂ := .of_readings hM₂.byte hM₂.narrow hM₂.nonneg hM₂.lt
  have hload :=
    run_load_cell (o := 0) hr hplain₂.narrow (lookup_save hroomy (Nat.lt_succ_self n) hkeep.symbols)
  rw [Int.add_zero, hbyte] at hload
  obtain ⟨hsp, hvalue, hother⟩ := lookup_filled hr M₂.cpu v
  refine ⟨_, Processor.execute_cons hld hload,
    .of_register hcell (hsp.trans hkeep.pointer) ?_ ?_ rfl fun _ _ => rfl⟩
  · rw [hnames]
    exact List.forall_mem_singleton.mpr (hvalue.trans (lookup_of_value hr hv).symm)
  · intro name hname hno
    rw [hnames] at hno
    exact hother name hname (by simpa using hno)

/-- The save cell and the cell of a register are apart. -/
theorem separate_of_roomy (hm : m ≠ .i8080) {symbols : List (String × Int)} {n : Nat} {p : Int}
    (h : m.Roomy symbols (n + 1) p 2) {u : Register} (hu : u ∈ m.cells) :
    Separate p (addressIn symbols (saveCellName n))
      (addressIn symbols u.address) u.width.toNat := by
  have hwidth : ∀ v ∈ m.cells, v.width.toNat ≤ 2 := by cases m <;> decide
  have hw := hwidth u hu
  have hslot : ∀ k : Nat, m.slot p k = 256 + (p - k) % 256 :=
    Arch.of_mos hm (fun _ => rfl) fun _ => rfl
  have hsave : ∀ o : Nat, o < u.width.toNat → m.Owns (n + 1) (saveCellName n) o :=
    fun o ho => .save (Nat.lt_succ_self n) (by omega)
  have hcell : ∀ o : Nat, o < u.width.toNat → m.Owns (n + 1) u.address o :=
    fun o ho => .register hu (by omega)
  refine ⟨fun o o' ho ho' he => ?_, fun o o' ho ho' he => ?_, fun o o' ho ho' he => ?_,
    fun o k ho hk he => ?_,
    fun o k ho hk he => ?_⟩
  · exact (h.apart _ _ _ _ (hsave o ho) (hsave o' ho') he).2
  · exact (h.apart _ _ _ _ (hcell o ho) (hcell o' ho') he).2
  · exact (Arch.address_ne hu n).2 (h.apart _ _ _ _ (hcell o ho) (hsave o' ho') he).1
  · exact h.clear _ _ (hsave o ho) ⟨k, hk, he.trans (by rw [hslot])⟩
  · exact h.clear _ _ (hcell o ho) ⟨k, hk, he.trans (by rw [hslot])⟩

/-- **Registers that are memory cells**, which are copied to a save cell and back. -/
theorem inverts_copy (hm : m ≠ .i8080) {u : Register} (hu : u ∈ m.cells) {n : Nat}
    {save restore : List Instr} (hsave : Copies save (saveCellName n) u.address u.width.toNat)
    (hrestore : Copies restore u.address (saveCellName n) u.width.toNat)
    (hrises : Line.rises (save.map Line.instr) = 0) :
    SaveCode.Inverts m n [u] 0 ⟨save, restore, n + 1⟩ := by
  have hcell : u.isCell = true := by
    have hcells : ∀ v ∈ m.cells, v.isCell = true := by cases m <;> decide
    exact hcells u hu
  have hnames : m.names u = [] := by simp [Arch.names, hcell]
  have hwidth : ∀ v ∈ m.cells, 0 < v.width.toNat ∧ v.width.toNat ≤ 2 := by cases m <;> decide
  have hw := hwidth u hu
  cases m with
  | i8080 => exact absurd rfl hm
  | mos6502 | wdc65816 =>
    refine ⟨?_, Nat.le_succ n, ?_, fun M hM hroomy => ?_⟩
    · exact List.forall_mem_singleton.mpr (List.mem_append_right _ hu)
    · dsimp only
      rw [hrises]
      rfl
    have hplain : Plain M := .of_readings hM.byte hM.narrow hM.nonneg hM.lt
    have hseparate := separate_of_roomy hm hroomy hu
    have haddress := lookup_addressIn (hroomy.placed u.address 0 (.register hu (by omega)))
    obtain ⟨M₁, hrun, hcopied⟩ := hsave M _ _ hplain
      (lookup_save hroomy (Nat.lt_succ_self n) fun _ _ h => h) haddress hseparate
    have hsp₁ : M₁.cpu.sp = M.cpu.sp := by rw [hcopied.cpu]
    refine ⟨M₁, hrun, ⟨?_, ?_, hcopied.symbols, fun a hp hc => ?_⟩, ?_⟩
    · exact hsp₁.trans (Arch.lowered_zero hM.nonneg hM.lt).symm
    · refine lookup_readings ?_ ?_ ?_ ?_ ?_ ?_ ?_ <;> rw [hcopied.cpu]
    · refine hcopied.bytes a (fun k hk he => hp ⟨k, by omega, he⟩) fun o ho he => hc ?_
      exact ⟨n, o, Nat.le_refl n, Nat.lt_succ_self n, by omega, he⟩
    intro M₂ hM₂ hkeep
    have hplain₂ : Plain M₂ := .of_readings hM₂.byte hM₂.narrow hM₂.nonneg hM₂.lt
    have hsp₂ : M₂.cpu.sp = M.cpu.sp := Eq.trans hkeep.pointer hsp₁
    have hsymbols : ∀ name a, M.memory.symbols.lookup name = some a →
        M₂.memory.symbols.lookup name = some a := by
      intro name a h
      refine hkeep.symbols name a ?_
      rwa [hcopied.symbols]
    obtain ⟨M₃, hrun', hcopied'⟩ := hrestore M₂ _ _ hplain₂ (hsymbols _ _ haddress)
      (lookup_save hroomy (Nat.lt_succ_self n) hsymbols) (hsp₂ ▸ hseparate.symm)
    have hother : ∀ name ∈ ["a", "x", "y", "b", "c", "v", "wide"],
        M₃.cpu.readings.lookup name = M₂.cpu.readings.lookup name := by
      refine lookup_readings ?_ ?_ ?_ ?_ ?_ ?_ ?_ <;> rw [hcopied'.cpu]
    have hsp₃ : M₃.cpu.sp = M.cpu.sp := by
      rw [hcopied'.cpu]
      exact hsp₂
    refine ⟨M₃, hrun', hsp₃, ?_, ?_, fun name hname _ => hother name hname, hcopied'.symbols,
      fun a hp hc => ?_⟩
    · refine List.forall_mem_singleton.mpr ?_
      rw [hnames]
      exact fun _ h => absurd h List.not_mem_nil
    · refine List.forall_mem_singleton.mpr fun _ o ho => ?_
      have hkept := hkeep.cells n o (Nat.le_refl n) (Nat.lt_succ_self n) (by omega)
      rw [hcopied.symbols] at hkept
      rw [hcopied'.copy o (by omega), hkept, hcopied.copy o (by omega)]
    · refine hcopied'.bytes a (fun k hk he => hp ⟨k, by omega, ?_⟩) fun o ho he => hc ?_
      · rw [he, hsp₂]
        rfl
      · exact ⟨u, .head _, hcell, o, by omega, he⟩

theorem rises_copyThroughA (dest source : String) (w : Int) :
    Line.rises ((copyThroughA dest source w).map Line.instr) = 0 := by
  have hbytes : ∀ k : Nat, Line.rises (((List.range k).flatMap fun i : Nat =>
      [(⟨"lda", [.mem source i]⟩ : Instr), ⟨"sta", [.mem dest i]⟩]).map Line.instr) = 0 := by
    intro k
    induction k with
    | zero => rfl
    | succ k ih =>
      rw [List.range_succ, List.flatMap_append, List.map_append, Line.rises_append, ih]
      rfl
  rw [copyThroughA, List.map_append, Line.rises_append]
  change 1 + Line.rises _ + -1 = 0
  rw [hbytes]
  rfl

/-- **The save code of a register of the 6502.** -/
theorem exists_inverts_saveUnit {u : Register} (hu : u ∈ Arch.savable .mos6502) (n : Nat) :
    ∃ s d, saveUnit n u = .ok s ∧ s.Inverts .mos6502 n [u] d := by
  rcases List.mem_append.mp hu with hu | hu
  · have hname : u = a ∨ u = x ∨ u = y := by simpa [Arch.bytes] using hu
    rcases hname with rfl | rfl | rfl
    · exact ⟨_, 1, rfl, inverts_push (by decide) (.head _) n⟩
    · exact ⟨_, 0, rfl, inverts_park (.head _) n⟩
    · exact ⟨_, 0, rfl, inverts_park (.tail _ (.head _)) n⟩
  · have hcells : ∀ v ∈ cells, (v == a) = false ∧ (v == x || v == y) = false ∧
        v.isCell = true := by decide
    obtain ⟨ha, hxy, hcell⟩ := hcells u hu
    refine ⟨_, 0, ?_,
      inverts_copy (by decide) hu (copies_throughA _ _ _) (copies_throughA _ _ _)
        (rises_copyThroughA ..)⟩
    simp [saveUnit, ha, hxy, hcell]

/-- **The save code of a register of the 65816.** -/
theorem exists_inverts_saveWideUnit {u : Register} (hu : u ∈ Arch.savable .wdc65816) (n : Nat) :
    ∃ s d, saveWideUnit n u = .ok s ∧ s.Inverts .wdc65816 n [u] d := by
  rcases List.mem_append.mp hu with hu | hu
  · have hname : u = a ∨ u = x ∨ u = y := by simpa [Arch.bytes] using hu
    have hr : u ∈ [a, x, y] := hu
    refine ⟨_, 1, ?_, inverts_push (by decide) hr n⟩
    rcases hname with rfl | rfl | rfl <;> rfl
  · have hcells : ∀ v ∈ cells, (v == a || v == x || v == y) = false ∧ v.isCell = true ∧
        (v.isWord = true → v.width = 2) ∧ (v.isWord = false → v.width = 1) := by decide
    obtain ⟨haxy, hcell, hword, hbyte⟩ := hcells u hu
    cases hw : u.isWord with
    | true =>
      have hcopies : ∀ dest source, Copies (copyWord dest source) dest source u.width.toNat := by
        rw [hword hw]
        exact copies_word
      refine ⟨_, 0, ?_, inverts_copy (by decide) hu (hcopies _ _) (hcopies _ _) rfl⟩
      simp [saveWideUnit, haxy, hcell, hw]
    | false =>
      have hcopies : ∀ dest source, Copies (copyThroughA dest source 1) dest source
          u.width.toNat := by
        rw [hbyte hw]
        exact fun _ _ => copies_throughA _ _ _
      refine ⟨_, 0, ?_, inverts_copy (by decide) hu (hcopies _ _) (hcopies _ _)
        (rises_copyThroughA ..)⟩
      simp [saveWideUnit, haxy, hcell, hw]

end Units

/-! ### Lists of registers -/

/-- Registers saved one after the other. -/
theorem exists_inverts_saveUnits {m : Arch} {one : Nat → Register → Except Fault SaveCode}
    (hone : ∀ u ∈ m.savable, ∀ n, ∃ s d, one n u = .ok s ∧ s.Inverts m n [u] d) {us : List Register}
    (hus : ∀ u ∈ us, u ∈ m.savable) (hnodup : us.Nodup) (n : Nat) :
    ∃ s d, saveUnits one n us = .ok s ∧ s.Inverts m n us d := by
  induction us generalizing n with
  | nil => exact ⟨_, 0, rfl, .none m n⟩
  | cons u us ih =>
    obtain ⟨s, d, hs, hsinv⟩ := hone u (hus u (.head _)) n
    obtain ⟨t, e, ht, htinv⟩ := ih (fun v hv => hus v (.tail _ hv)) hnodup.of_cons s.next
    refine ⟨s.andThen t, d + e, ?_, hsinv.andThen htinv ?_⟩
    · rw [saveUnits, hs]
      change (saveUnits one s.next us >>= fun t => .ok (s.andThen t)) = _
      rw [ht]
      rfl
    · exact List.forall_mem_singleton.mpr (List.nodup_cons.mp hnodup).1

end Mos

end Octet
