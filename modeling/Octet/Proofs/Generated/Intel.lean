import Octet.Build.Operate
import Octet.Proofs.Generated.Bytes

/-!
# Code of the 8080

What states depict of a machine with an 8080, and the instructions of generated code as steps
between states. The stack grows downwards from its base, and every slot is a word: a pair of
registers, or the accumulator with the flags.

## Main definitions

* `Intel.Fits`, `Intel.Depicts`, `Intel.view` — layouts that suit the processor, and what states
  depict
* `Intel.halves` — the pairs by their halves

## Main results

* `Intel.Depicts.setReg`, `Intel.Depicts.setMem` — registers and memory, in states
* `Intel.runs_mov`, `Intel.runs_lda`, ... — the instructions
-/

namespace Octet

open Assembly (Arg Instr Line Part)
open Simulator (Memory IntelCpu Exec Reading Transfer)

namespace Intel

/-! ### Machines -/

section Machines

variable {M : Simulator.Machine IntelCpu} {r : Register} {arg : Arg} {name : String} {D o : Int}

theorem mem_bytes (hr : r ∈ Arch.bytes .i8080) : r = Intel.a ∨ r = Intel.b ∨ r = Intel.c ∨
    r = Intel.d ∨ r = Intel.e ∨
    r = Intel.h ∨ r = Intel.l := by
  simpa [Arch.bytes] using hr

theorem run_get (hr : r ∈ Arch.bytes .i8080) {v : Int}
    (hv : M.cpu.readings.lookup r.name = some (.number v)) :
    (IntelCpu.get (.reg r.name)).run M = (.ok v, M) := by
  obtain rfl | rfl | rfl | rfl | rfl | rfl | rfl := mem_bytes hr
  all_goals
    cases hv
    rfl

theorem run_set (hr : r ∈ Arch.bytes .i8080) (v : UInt8) :
    (IntelCpu.set (.reg r.name) v.toNat).run M =
      (.ok (), ⟨M.cpu.put r.name v.toNat, M.memory⟩) := by
  have hlow : Bits.low 8 (v.toNat : Int) = v.toNat := by
    have := v.toNat_lt
    rw [Bits.low_eight]
    omega
  obtain rfl | rfl | rfl | rfl | rfl | rfl | rfl := mem_bytes hr
  all_goals
    conv_rhs => rw [← hlow]
    rfl

/-- Copying a register. -/
theorem run_mov {d s : Register} (hd : d ∈ Arch.bytes .i8080) (hs : s ∈ Arch.bytes .i8080)
    {v : UInt8} (hv : M.cpu.readings.lookup s.name = some (.number v.toNat)) :
    (IntelCpu.step ⟨"mov", [.reg d.name, .reg s.name]⟩).run M =
      (.ok .next, ⟨M.cpu.put d.name v.toNat, M.memory⟩) := by
  change (IntelCpu.get (.reg s.name) >>= fun v => IntelCpu.set (.reg d.name) v >>= fun _ =>
    pure .next : Exec IntelCpu Transfer).run M = _
  rw [Exec.run_bind (run_get hs hv), Exec.run_bind (run_set hd v)]
  rfl

theorem run_withValue {f : Int → Exec IntelCpu Unit} {v : Int} {M' : Simulator.Machine IntelCpu}
    (hv : (IntelCpu.value arg).run M = (.ok v, M)) (hf : (f v).run M = (.ok (), M')) :
    (IntelCpu.withValue arg f).run M = (.ok .next, M') := by
  have hobserve : (IntelCpu.withValue.observing (IntelCpu.value arg)).run M = (.ok (.ok v), M) := by
    change ((Except.ok ((IntelCpu.value arg).run M).1), ((IntelCpu.value arg).run M).2) = _
    rw [hv]
  rw [IntelCpu.withValue, Exec.run_bind hobserve, Exec.run_bind hf]
  rfl

/-- The address of memory. -/
theorem run_mem (h : M.memory.symbols.lookup name = some D) :
    (IntelCpu.value (.mem name o)).run M = (.ok ((D + o) % 65536), M) := by
  rw [IntelCpu.value, Exec.run_bind (Exec.run_address h)]
  rfl

theorem step_lda (arg : Arg) : IntelCpu.step ⟨"lda", [arg]⟩ = IntelCpu.withValue arg fun addr =>
    Exec.read addr 1 >>= fun v => Exec.update fun c => { c with a := v } := rfl

theorem step_sta (arg : Arg) : IntelCpu.step ⟨"sta", [arg]⟩ = IntelCpu.withValue arg fun addr =>
    Exec.cpu >>= fun c => Exec.write addr 1 c.a := rfl

theorem step_shld (arg : Arg) : IntelCpu.step ⟨"shld", [arg]⟩ = IntelCpu.withValue arg fun addr =>
    Exec.cpu >>= fun c => Exec.write addr 2 c.hl := rfl

/-- Loading the accumulator. -/
theorem run_lda (h : M.memory.symbols.lookup name = some D) :
    (IntelCpu.step ⟨"lda", [.mem name o]⟩).run M =
      (.ok .next, ⟨M.cpu.put Intel.a.name (M.memory.byte (D + o)).toNat, M.memory⟩) := by
  rw [step_lda]
  refine run_withValue (run_mem h) ?_
  rw [← Memory.byte_congr (Int.emod_emod (D + o) 65536), ← Memory.read_one]
  rfl

/-- Storing the accumulator. -/
theorem run_sta (h : M.memory.symbols.lookup name = some D) {v : UInt8} (hv : M.cpu.a = v.toNat) :
    (IntelCpu.step ⟨"sta", [.mem name o]⟩).run M =
      (.ok .next, ⟨M.cpu, M.memory.setByte (D + o) v⟩) := by
  rw [step_sta]
  refine run_withValue (run_mem h) ?_
  change (Except.ok (),
    (⟨M.cpu, M.memory.write ((D + o) % 65536) 1 M.cpu.a⟩ : Simulator.Machine IntelCpu)) = _
  rw [Memory.write_one, hv, Memory.byteOf_toNat, Memory.setByte_congr (Int.emod_emod (D + o) 65536)]

end Machines

/-! ### States of the processor -/

/-- The stack holds words, the first one below `base`. -/
def Stacked (m : Memory) (base : Int) : List Slot → Prop
  | [] => True
  | .pair high low :: rest =>
    m.byte (base - 2 * rest.length - 2) = low ∧ m.byte (base - 2 * rest.length - 1) = high ∧
      Stacked m base rest
  | .flags a carry :: rest =>
    Bits.test 0 (m.byte (base - 2 * rest.length - 2)).toNat = carry ∧
      m.byte (base - 2 * rest.length - 1) = a ∧ Stacked m base rest
  | _ => False

/-- Layouts that suit the processor: cells lie outside of the stack. -/
structure Fits (L : Layout) : Prop where
  apart : L.Apart
  room : L.room ≤ 32768
  clear : ∀ n o, L.owns n o → ∀ k : Int, 0 ≤ k → k < 2 * L.room →
    L.index n o ≠ Memory.index (L.base - 1 - k)

/-- Bytes below the stack. -/
theorem fits_ofCells {symbols cells : List (String × Int)} {base : Int} {room : Nat}
    (h : (Layout.ofCells symbols cells base room).Apart) (hroom : room ≤ 32768)
    (hbase : base ≤ 65536) (hcells : ∀ c ∈ cells, 0 ≤ addressIn symbols c.1 + c.2 ∧
      addressIn symbols c.1 + c.2 < base - 2 * room) :
    Fits (Layout.ofCells symbols cells base room) where
  apart := h
  room := hroom
  clear n o ho k h₀ h₁ heq := by
    have hmod := Memory.index_eq_iff.mp heq
    have hrange := hcells (n, o) ho
    dsimp only [Layout.ofCells] at hmod hrange h₁
    omega

/-- **What a state depicts** of a machine. -/
structure Depicts (L : Layout) (M : Simulator.Machine IntelCpu) (σ : State) : Prop where
  symbols : M.memory.symbols = L.symbols
  a : M.cpu.a = (σ.reg Intel.a).toNat
  b : M.cpu.b = (σ.reg Intel.b).toNat
  c : M.cpu.c = (σ.reg Intel.c).toNat
  d : M.cpu.d = (σ.reg Intel.d).toNat
  e : M.cpu.e = (σ.reg Intel.e).toNat
  h : M.cpu.h = (σ.reg Intel.h).toNat
  l : M.cpu.l = (σ.reg Intel.l).toNat
  carry : M.cpu.cy = σ.carry
  sp : M.cpu.sp = (L.base - 2 * σ.stack.length) % 65536
  height : σ.stack.length ≤ L.room
  mem : ∀ n o, L.owns n o → M.memory.byte (addressIn L.symbols n + o) = σ.mem n o
  stack : Stacked M.memory L.base σ.stack

/-- The processor with its states. -/
def view : View IntelCpu := ⟨IntelCpu.processor, Fits, Depicts⟩

/-! ### Memory and registers -/

theorem Stacked.congr {m m' : Memory} {base : Int} {slots : List Slot}
    (h : ∀ k : Int, 0 ≤ k → k < 2 * slots.length → m'.byte (base - 1 - k) = m.byte (base - 1 - k))
    (hs : Stacked m base slots) : Stacked m' base slots := by
  induction slots with
  | nil => trivial
  | cons s rest ih =>
    have hrest : ∀ k : Int, 0 ≤ k → k < 2 * rest.length →
        m'.byte (base - 1 - k) = m.byte (base - 1 - k) :=
      fun k h₀ h₁ => h k h₀ (by simp only [List.length_cons]; omega)
    have hlow := h (2 * rest.length + 1) (by omega) (by simp only [List.length_cons]; omega)
    have hhigh := h (2 * rest.length) (by omega) (by simp only [List.length_cons]; omega)
    rw [show base - 1 - (2 * rest.length + 1) = base - 2 * rest.length - 2 by omega] at hlow
    rw [show base - 1 - 2 * (rest.length : Int) = base - 2 * rest.length - 1 by omega] at hhigh
    cases s with
    | byte => exact hs
    | pair high low =>
      obtain ⟨h₁, h₂, h₃⟩ := hs
      exact ⟨hlow.trans h₁, hhigh.trans h₂, ih hrest h₃⟩
    | flags a carry =>
      obtain ⟨h₁, h₂, h₃⟩ := hs
      exact ⟨by rw [hlow]; exact h₁, hhigh.trans h₂, ih hrest h₃⟩

namespace Depicts

variable {L : Layout} {M : Simulator.Machine IntelCpu} {σ : State}

/-- A byte of a cell is written. -/
theorem setMem (hl : Fits L) (h : Depicts L M σ) {n : String} {o : Int} (ho : L.owns n o)
    (v : UInt8) :
    Depicts L ⟨M.cpu, M.memory.setByte (addressIn L.symbols n + o) v⟩ (σ.setMem n o v) where
  __ := h
  mem n' o' ho' := by
    rw [hl.apart.byte_setByte ho ho', State.mem_setMem, h.mem n' o' ho']
  stack := by
    have hheight := h.height
    rw [State.setMem_stack]
    refine h.stack.congr fun k h₀ h₁ => Memory.byte_setByte_of_ne ?_
    exact (hl.clear n o ho k h₀ (by omega)).symm

theorem lookup_reg (h : Depicts L M σ) {r : Register} (hr : r ∈ Arch.bytes .i8080) :
    M.cpu.readings.lookup r.name = some (.number (σ.reg r).toNat) := by
  obtain rfl | rfl | rfl | rfl | rfl | rfl | rfl := mem_bytes hr
  · exact congrArg (some ∘ Reading.number) h.a
  · exact congrArg (some ∘ Reading.number) h.b
  · exact congrArg (some ∘ Reading.number) h.c
  · exact congrArg (some ∘ Reading.number) h.d
  · exact congrArg (some ∘ Reading.number) h.e
  · exact congrArg (some ∘ Reading.number) h.h
  · exact congrArg (some ∘ Reading.number) h.l

/-- A byte is put into a register. -/
theorem put (h : Depicts L M σ) {r : Register} (hr : r ∈ Arch.bytes .i8080) (v : UInt8) :
    Depicts L ⟨M.cpu.put r.name v.toNat, M.memory⟩ (σ.setReg r v) := by
  obtain rfl | rfl | rfl | rfl | rfl | rfl | rfl := mem_bytes hr
  · exact { h with a := rfl }
  · exact { h with b := rfl }
  · exact { h with c := rfl }
  · exact { h with d := rfl }
  · exact { h with e := rfl }
  · exact { h with h := rfl }
  · exact { h with l := rfl }

theorem lookup_symbol (h : Depicts L M σ) (hL : Fits L) {n : String} {o : Int} (ho : L.owns n o) :
    M.memory.symbols.lookup n = some (addressIn L.symbols n) := by
  rw [h.symbols]
  exact lookup_addressIn (hL.apart.placed n o ho)

end Depicts

/-! ### Pairs -/

/-- The pairs by their halves, the high one first. -/
def halves : List (Register × Register) :=
  [(Intel.b, Intel.c), (Intel.d, Intel.e), (Intel.h, Intel.l)]

section Pairs

variable {L : Layout} {M : Simulator.Machine IntelCpu} {σ : State}

theorem paired_toNat (high low : UInt8) :
    Simulator.paired high.toNat low.toNat = low.toNat + 256 * high.toNat := by
  have := high.toNat_lt
  rw [Simulator.paired, Bits.wrap_of_lt (by omega) (by omega), Bits.or_comm, Bits.or_shifted]

theorem Depicts.hl_eq (h : Depicts L M σ) :
    M.cpu.hl = (σ.reg Intel.l).toNat + 256 * (σ.reg Intel.h).toNat := by
  rw [IntelCpu.hl, h.h, h.l, paired_toNat]

end Pairs

/-! ### Instructions -/

section Instructions

variable {symbols : List (String × Int)} {need : String → Int → Prop} {σ : State}
  {n : String} {o : Int}

/-- An instruction that does not touch the stack. -/
theorem runs_instr {σ' : State} (op : String) (args : List Arg)
    (hop : (op.toList.head? == some '.') = false) (hrise : Instr.rise ⟨op, args⟩ = 0)
    (hheight : σ'.stack = σ.stack)
    (hstep : ∀ (L : Layout), L.symbols = symbols → Fits L → (∀ n o, need n o → L.owns n o) →
      ∀ M, Depicts L M σ → ∃ M', (IntelCpu.step ⟨op, args⟩).run M = (.ok .next, M') ∧
        Depicts L M' σ') :
    view.Runs symbols need [.instr ⟨op, args⟩] σ σ' :=
  .instr (Line.executed?_instr hop) (by rw [hheight, hrise]; omega)
    fun L hL hfits hneed _ M hM => hstep L hL hfits hneed M hM

/-- Copying a register. -/
theorem runs_mov {d s : Register} (hd : d ∈ Arch.bytes .i8080) (hs : s ∈ Arch.bytes .i8080) :
    view.Runs symbols need [.instr ⟨"mov", [.reg d.name, .reg s.name]⟩] σ (σ.setReg d (σ.reg s)) :=
  runs_instr "mov" _ rfl rfl rfl fun _ _ _ _ _ hM =>
    ⟨_, run_mov hd hs (hM.lookup_reg hs), hM.put hd _⟩

/-- Loading the accumulator. -/
theorem runs_lda (ho : need n o) :
    view.Runs symbols need [.instr ⟨"lda", [.mem n o]⟩] σ (σ.setReg Intel.a (σ.mem n o)) := by
  refine runs_instr "lda" _ rfl rfl rfl fun L hL hfits hneed M hM => ?_
  refine ⟨_, run_lda (hM.lookup_symbol hfits (hneed n o ho)), ?_⟩
  rw [hM.mem n o (hneed n o ho)]
  exact hM.put (.head _) _

/-- Storing the accumulator. -/
theorem runs_sta (ho : need n o) :
    view.Runs symbols need [.instr ⟨"sta", [.mem n o]⟩] σ (σ.setMem n o (σ.reg Intel.a)) :=
  runs_instr "sta" _ rfl rfl rfl fun _ _ hfits hneed _ hM =>
    ⟨_, run_sta (hM.lookup_symbol hfits (hneed n o ho)) hM.a, hM.setMem hfits (hneed n o ho) _⟩

/-- Storing `hl`. -/
theorem runs_shld (ho : need n o) (ho' : need n (o + 1)) :
    view.Runs symbols need [.instr ⟨"shld", [.mem n o]⟩] σ
      (σ.setWord n o (σ.reg Intel.l) (σ.reg Intel.h)) := by
  refine runs_instr "shld" _ rfl rfl rfl fun L hL hfits hneed M hM => ?_
  refine ⟨⟨M.cpu, M.memory.write ((addressIn L.symbols n + o) % 65536) 2 M.cpu.hl⟩, ?_, ?_⟩
  · rw [step_shld]
    exact run_withValue (run_mem (hM.lookup_symbol hfits (hneed n o ho))) rfl
  · have h := (hM.setMem hfits (hneed n o ho) (σ.reg Intel.l)).setMem hfits (hneed _ _ ho')
      (σ.reg Intel.h)
    obtain ⟨hlow, hhigh⟩ := Memory.byteOf_word (σ.reg Intel.l) (σ.reg Intel.h)
    rw [hM.hl_eq, Memory.write_two, Memory.setByte_congr (m := M.memory) (Int.emod_emod _ _),
      Memory.setByte_congr (c := addressIn L.symbols n + (o + 1)) (by omega), hlow, hhigh]
    exact h

theorem Depicts.setA {L : Layout} {M : Simulator.Machine IntelCpu} (h : Depicts L M σ)
    (s z cy : Bool) (v : Int) :
    Depicts L ⟨{ M.cpu with a := Bits.low 8 v, s, z, cy }, M.memory⟩
      ((σ.setCarry cy).setReg Intel.a (Memory.byteOf v)) :=
  { h with a := Memory.low_eq_toNat v, carry := rfl }

end Instructions

/-! ### The stack -/

section Stack

variable {symbols : List (String × Int)} {need : String → Int → Prop} {σ : State} {L : Layout}
  {M : Simulator.Machine IntelCpu}

/-- The machine after a word was pushed. -/
def pushed (M : Simulator.Machine IntelCpu) (v : Int) : Simulator.Machine IntelCpu :=
  ⟨{ M.cpu with sp := Bits.low 16 (M.cpu.sp - 2) }, M.memory.write (Bits.low 16 (M.cpu.sp - 2)) 2 v⟩

/-- The machine after two bytes were pushed, the high one first. -/
def pushedBytes (M : Simulator.Machine IntelCpu) (low high : UInt8) : Simulator.Machine IntelCpu :=
  ⟨{ M.cpu with sp := (M.cpu.sp - 2) % 65536 }, (M.memory.setByte (M.cpu.sp - 2) low).setByte
    (M.cpu.sp - 1) high⟩

theorem pushed_word (M : Simulator.Machine IntelCpu) (low high : UInt8) :
    pushed M (low.toNat + 256 * high.toNat) = pushedBytes M low high := by
  obtain ⟨hlow, hhigh⟩ := Memory.byteOf_word low high
  rw [pushed, pushedBytes, Memory.write_two, hlow, hhigh, Bits.low_sixteen,
    Memory.setByte_congr (m := M.memory) (Int.emod_emod _ _),
      Memory.setByte_congr (c := M.cpu.sp - 1) (by omega)]

/-- Pushing two bytes that are the slot `s`. -/
theorem Depicts.push (hL : Fits L) (h : Depicts L M σ) (hroom : σ.stack.length + 1 ≤ L.room)
    {low high : UInt8} {s : Slot}
    (hs : ∀ m : Memory, m.byte (L.base - 2 * σ.stack.length - 2) = low →
      m.byte (L.base - 2 * σ.stack.length - 1) = high →
      Stacked m L.base σ.stack → Stacked m L.base (s :: σ.stack)) :
    Depicts L (pushedBytes M low high) (σ.push s) := by
  have hroom' := hL.room
  have hsp := h.sp
  have hmemory : (pushedBytes M low high).memory =
    (M.memory.setByte (L.base - 2 * σ.stack.length - 2) low).setByte
      (L.base - 2 * σ.stack.length - 1) high := by
    rw [pushedBytes, Memory.setByte_congr (m := M.memory) (c := L.base - 2 * σ.stack.length - 2)
      (by omega), Memory.setByte_congr (c := L.base - 2 * σ.stack.length - 1) (by omega)]
  have hkept : ∀ a : Int, Memory.index a ≠ Memory.index (L.base - 2 * σ.stack.length - 2) →
      Memory.index a ≠ Memory.index (L.base - 2 * σ.stack.length - 1) →
        (pushedBytes M low high).memory.byte a = M.memory.byte a := by
    intro a h₁ h₂
    rw [hmemory, Memory.byte_setByte_of_ne h₂, Memory.byte_setByte_of_ne h₁]
  refine { h with sp := ?_, height := hroom, mem := fun n o ho => ?_, stack := ?_ }
  · change (M.cpu.sp - 2) % 65536 = _
    rw [State.push_stack, List.length_cons]
    omega
  · have hclear : ∀ k : Int, 0 ≤ k → k < 2 →
        L.index n o ≠ Memory.index (L.base - 1 - (2 * σ.stack.length + k)) :=
      fun k h₀ h₁ => hL.clear n o ho _ (by omega) (by omega)
    rw [hkept]
    · exact h.mem n o ho
    · exact fun he => hclear 1 (by omega) (by omega) (he.trans (congrArg Memory.index (by omega)))
    · exact fun he => hclear 0 (by omega) (by omega) (he.trans (congrArg Memory.index (by omega)))
  · refine hs _ ?_ ?_ (h.stack.congr fun k h₀ h₁ => hkept _ ?_ ?_)
    · rw [hmemory, Memory.byte_setByte_of_ne, Memory.byte_setByte_self]
      rw [Ne, Memory.index_eq_iff]
      omega
    · rw [hmemory, Memory.byte_setByte_self]
    · rw [Ne, Memory.index_eq_iff]
      omega
    · rw [Ne, Memory.index_eq_iff]
      omega

/-- The registers after a word was taken from the stack. -/
theorem Depicts.pop (h : Depicts L M σ) {s : Slot} {rest : List Slot} (hs : σ.stack = s :: rest) :
    Depicts L ⟨{ M.cpu with sp := Bits.low 16 (M.cpu.sp + 2) }, M.memory⟩ (σ.setStack rest) := by
  have hheight := h.height
  have hstack := h.stack
  rw [hs] at hheight hstack
  refine { h with sp := ?_, height := ?_, stack := ?_ }
  · change Bits.low 16 (M.cpu.sp + 2) = _
    rw [Bits.low_sixteen, h.sp, hs, List.length_cons, State.setStack_stack]
    omega
  · rw [List.length_cons] at hheight
    exact Nat.le_of_succ_le hheight
  · cases s with
    | byte => exact hstack.elim
    | pair => exact hstack.2.2
    | flags => exact hstack.2.2

/-- The word on top of the stack. -/
theorem Depicts.read_sp (h : Depicts L M σ) {s : Slot} {rest : List Slot}
    (hs : σ.stack = s :: rest) :
    M.memory.read M.cpu.sp 2 =
      (M.memory.byte (L.base - 2 * rest.length - 2)).toNat +
        256 * (M.memory.byte (L.base - 2 * rest.length - 1)).toNat := by
  have hsp : M.cpu.sp = (L.base - 2 * rest.length - 2) % 65536 := by
    rw [h.sp, hs, List.length_cons]
    omega
  have hlow :=
    Memory.byte_congr (m := M.memory) (Int.emod_emod (L.base - 2 * rest.length - 2) 65536)
  have hhigh := Memory.byte_congr (m := M.memory) (a := (L.base - 2 * rest.length - 2) % 65536 + 1)
    (c := L.base - 2 * rest.length - 1) (by omega)
  rw [Memory.read_two, hsp, hlow, hhigh]

theorem step_push (arg : Arg) : IntelCpu.step ⟨"push", [arg]⟩ = (IntelCpu.pair arg >>= fun p =>
    Exec.update (fun c => { c with sp := Bits.low 16 (c.sp - 2) }) >>= fun _ =>
      Exec.cpu >>= fun c => Exec.write c.sp 2 (p.get c) >>= fun _ => pure .next) := rfl

theorem step_pop (arg : Arg) : IntelCpu.step ⟨"pop", [arg]⟩ = (IntelCpu.pair arg >>= fun p =>
    Exec.cpu >>= fun c => Exec.read c.sp 2 >>= fun v =>
      IntelCpu.registers fun c => p.set { c with sp := Bits.low 16 (c.sp + 2) } v) := rfl

/-- Pushing what a pair of the processor holds. -/
theorem run_push {p : IntelCpu.Pair} {v : Int} {arg : Arg} (hpair : IntelCpu.pair arg = pure p)
    (hget : ∀ sp, p.get { M.cpu with sp } = v) :
    (IntelCpu.step ⟨"push", [arg]⟩).run M = (.ok .next, pushed M v) := by
  have hread : (pure p : Exec IntelCpu IntelCpu.Pair).run M = (.ok p, M) := rfl
  have hupdate : (Exec.update fun c : IntelCpu => { c with sp := Bits.low 16 (c.sp - 2) }).run M =
      (.ok (), ⟨{ M.cpu with sp := Bits.low 16 (M.cpu.sp - 2) }, M.memory⟩) := rfl
  rw [step_push, hpair, Exec.run_bind hread, Exec.run_bind hupdate,
    Exec.run_bind (Exec.run_cpu _), hget]
  rfl

/-- Taking a pair of the processor from the stack. -/
theorem run_pop {p : IntelCpu.Pair} {arg : Arg} (hpair : IntelCpu.pair arg = pure p) :
    (IntelCpu.step ⟨"pop", [arg]⟩).run M =
      (.ok .next, ⟨p.set { M.cpu with sp := Bits.low 16 (M.cpu.sp + 2) } (M.memory.read M.cpu.sp 2),
        M.memory⟩) := by
  have hread : (pure p : Exec IntelCpu IntelCpu.Pair).run M = (.ok p, M) := rfl
  rw [step_pop, hpair, Exec.run_bind hread, Exec.run_bind (Exec.run_cpu _)]
  rfl

theorem le_room {l : Nat} {arg : Arg} (h : σ.stack.length + Instr.rise ⟨"push", [arg]⟩ ≤ l) :
    σ.stack.length + 1 ≤ l := by
  have : Instr.rise ⟨"push", [arg]⟩ = 1 := rfl
  omega

/-- The accumulator with the flags, as the processor has them. -/
def pswPair : IntelCpu.Pair :=
  ⟨fun c => Simulator.paired c.a c.flags,
    fun c v => { c with a := Bits.low 8 (Bits.shr v 8) }.setFlags v⟩

theorem pair_psw : IntelCpu.pair psw = pure pswPair := rfl

theorem exists_flags (c : IntelCpu) : ∃ p : UInt8, c.flags = p.toNat ∧
    Bits.test 0 p.toNat = c.cy := by
  have hflags : c.flags % 256 = c.flags ∧ (c.flags % 2 == 1) = c.cy := by
    rw [IntelCpu.flags]
    cases c.s <;> cases c.z <;> cases c.cy <;> decide
  refine ⟨Memory.byteOf c.flags, ?_, ?_⟩
  · rw [Memory.toNat_byteOf, hflags.1]
  · rw [Memory.toNat_byteOf, hflags.1, Bits.test_zero, hflags.2]

/-- Pushing the accumulator with the flags. -/
theorem runs_pushFlags :
    view.Runs symbols need [.instr ⟨"push", [psw]⟩] σ
      (σ.push (.flags (σ.reg Intel.a) σ.carry)) := by
  refine .instr (Line.executed?_instr rfl) rfl fun L _ hfits _ hroom M hM => ?_
  obtain ⟨p, hp, hcarry⟩ := exists_flags M.cpu
  have hget : ∀ sp, pswPair.get { M.cpu with sp } = p.toNat + 256 * (σ.reg Intel.a).toNat := by
    intro sp
    change Simulator.paired M.cpu.a M.cpu.flags = _
    rw [hM.a, hp, paired_toNat]
  refine ⟨_, run_push pair_psw hget, ?_⟩
  rw [pushed_word]
  exact hM.push hfits (le_room hroom) fun m h₁ h₂ h₃ => ⟨by rw [h₁, hcarry, hM.carry], h₂, h₃⟩

/-- Taking the accumulator with the flags from the stack. -/
theorem runs_popFlags {u : UInt8} {carry : Bool} {rest : List Slot}
    (hs : σ.stack = .flags u carry :: rest) :
    view.Runs symbols need [.instr ⟨"pop", [psw]⟩] σ
      (((σ.setStack rest).setCarry carry).setReg Intel.a u) := by
  have hheight : (rest.length : Int) = σ.stack.length + (-1) := by rw [hs, List.length_cons]; omega
  refine .instr (Line.executed?_instr rfl) hheight fun L _ hfits _ _ M hM => ?_
  refine ⟨_, run_pop pair_psw, ?_⟩
  have hstack := hM.stack
  rw [hs] at hstack
  obtain ⟨hcarry, hhigh, -⟩ := hstack
  have hlt := (M.memory.byte (L.base - 2 * rest.length - 2)).toNat_lt
  have hread := hM.read_sp hs
  rw [hhigh] at hread
  have htest : Bits.test 0 (M.memory.read M.cpu.sp 2) = carry := by
    rw [hread, ← hcarry, Bits.test_zero, Bits.test_zero]
    congr 1
    omega
  have hbyte : Memory.byteOf (Bits.shr (M.memory.read M.cpu.sp 2) 8) = u := by
    rw [hread, Bits.shr_eight, Memory.byteOf_congr (w := u.toNat) (by omega), Memory.byteOf_toNat]
  have h := (hM.pop hs).setA (Bits.test 7 (M.memory.read M.cpu.sp 2))
    (Bits.test 6 (M.memory.read M.cpu.sp 2))
    (Bits.test 0 (M.memory.read M.cpu.sp 2)) (Bits.shr (M.memory.read M.cpu.sp 2) 8)
  rw [← htest, ← hbyte]
  exact h

end Stack

end Intel

end Octet
