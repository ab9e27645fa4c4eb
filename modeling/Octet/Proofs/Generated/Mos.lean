import Octet.Build.Operate
import Octet.Proofs.Generated.Bytes

/-!
# Code of the 6502 and the 65816

What states depict of a machine of the 6502 family, and the instructions of generated code as steps
between states. The stack is the page at address 256, and every slot is one byte. While the
accumulator is wide, its upper half is part of the state.

## Main definitions

* `Mos.Fits`, `Mos.Depicts`, `Mos.view` — layouts that suit the processor, and what states depict

## Main results

* `Mos.Depicts.setMem`, `Mos.Depicts.push`, `Mos.Depicts.pull` — memory and stack, in states
* `Mos.runs_load`, `Mos.runs_store`, ... — the instructions
-/

namespace Octet

open Assembly (Arg Instr Line Part)
open Simulator (Memory MosCpu Exec Transfer)

namespace Mos

/-! ### Machines -/

section Machines

variable {M M' : Simulator.Machine MosCpu} {name : String} {D o : Int} {arg : Arg} {w : Nat}
  {v addr : Int} {r : Register}

theorem or_page {v : Int} (h : 0 ≤ v) (h' : v < 256) : Bits.or 0x100 v = 256 + v := by
  obtain ⟨k, rfl⟩ := Int.eq_ofNat_of_zero_le h
  have hk : k < 2 ^ 8 := by omega
  change Bits.or ((2 ^ 8 * 1 : Nat) : Int) (k : Int) = _
  rw [Bits.or_natCast, ← Nat.two_pow_add_eq_or_of_lt hk 1]
  omega

theorem run_push (h₀ : 0 ≤ M.cpu.sp) (h₁ : M.cpu.sp < 256) (v : UInt8) :
    (MosCpu.push v.toNat).run M =
      (.ok (),
        ⟨{ M.cpu with sp := (M.cpu.sp - 1) % 256 }, M.memory.setByte (256 + M.cpu.sp) v⟩) := by
  have hstore := Exec.run_store (M := M) (i := 256 + M.cpu.sp) (v := v.toNat) (by omega)
  rw [MosCpu.push, Exec.run_bind (Exec.run_cpu M), or_page h₀ h₁, Exec.run_bind hstore,
    Memory.byteOf_toNat]
  rfl

theorem run_pull :
    MosCpu.pull.run M = (.ok ((M.memory.byte (256 + (M.cpu.sp + 1) % 256)).toNat : Int),
      ⟨{ M.cpu with sp := (M.cpu.sp + 1) % 256 }, M.memory⟩) := by
  have hupdate : (Exec.update fun c : MosCpu => { c with sp := Bits.low 8 (c.sp + 1) }).run M =
      (.ok (), ⟨{ M.cpu with sp := (M.cpu.sp + 1) % 256 }, M.memory⟩) := rfl
  have hpage := or_page (v := (M.cpu.sp + 1) % 256) (by omega) (by omega)
  rw [MosCpu.pull, Exec.run_bind hupdate, Exec.run_bind (Exec.run_cpu _), hpage,
    Exec.run_load (by omega)]

theorem run_mem (h : M.memory.symbols.lookup name = some D) :
    (MosCpu.address (.mem name o)).run M = (.ok (D + o), M) := by
  rw [MosCpu.address, Exec.run_bind (Exec.run_address h)]
  rfl

theorem run_read (h : M.memory.symbols.lookup name = some D) (w : Nat) :
    (MosCpu.read (.mem name o) w).run M = (.ok (M.memory.read (D + o) w), M) := by
  change (MosCpu.address (.mem name o) >>= fun a => Exec.read a w : Exec MosCpu Int).run M = _
  rw [Exec.run_bind (run_mem h)]
  rfl

theorem run_load {set : MosCpu → Int → MosCpu} (op : String)
    (hv : (MosCpu.read arg w).run M = (.ok v, M)) :
    (MosCpu.load ⟨op, [arg]⟩ w set).run M = (.ok .next, ⟨(set M.cpu v).setNZ v w, M.memory⟩) := by
  have hfirst : (MosCpu.first ⟨op, [arg]⟩).run M = (.ok arg, M) := rfl
  rw [MosCpu.load, Exec.run_bind hfirst, Exec.run_bind hv]
  rfl

theorem run_store {value : MosCpu → Int} (op : String)
    (ha : (MosCpu.address arg).run M = (.ok addr, M)) :
    (MosCpu.store ⟨op, [arg]⟩ w value).run M =
      (.ok .next, ⟨M.cpu, M.memory.write addr w (value M.cpu)⟩) := by
  have hfirst : (MosCpu.first ⟨op, [arg]⟩).run M = (.ok arg, M) := rfl
  rw [MosCpu.store, Exec.run_bind hfirst, Exec.run_bind ha, Exec.run_bind (Exec.run_cpu M)]
  rfl

theorem step_lda (M : Simulator.Machine MosCpu) (arg : Arg) :
    (MosCpu.step ⟨"lda", [arg]⟩).run M =
      (MosCpu.load ⟨"lda", [arg]⟩ M.cpu.width MosCpu.setAcc).run M := rfl

theorem step_sta (M : Simulator.Machine MosCpu) (arg : Arg) :
    (MosCpu.step ⟨"sta", [arg]⟩).run M =
      (MosCpu.store ⟨"sta", [arg]⟩ M.cpu.width MosCpu.acc).run M := rfl

/-! #### Registers that hold a byte -/

/-- The number in a register. -/
def value (c : MosCpu) (r : Register) : Int :=
  match r.name with
  | "a" => c.a
  | "x" => c.x
  | _ => c.y

/-- The registers after a byte was put into one of them, with the flags of the byte. -/
def filled (c : MosCpu) (r : Register) (v : UInt8) : MosCpu :=
  (c.put r.name v.toNat).setNZ v.toNat 1

theorem eq_of_mem (hr : r ∈ [Mos.a, Mos.x, Mos.y]) : r = Mos.a ∨ r = Mos.x ∨ r = Mos.y := by
  simpa using hr

/-- The instructions of registers are executed, and it is known how they move the stack. -/
theorem executed_register : ∀ r ∈ [Mos.a, Mos.x, Mos.y],
    ∀ op ∈ [("ld", (0 : Int)), ("st", 0), ("ph", 1), ("pl", -1)],
    ((op.1 ++ r.name).toList.head? == some '.') = false ∧
      Instr.rise ⟨op.1 ++ r.name, []⟩ = op.2 := by decide

/-- Loading a register while the accumulator is narrow. -/
theorem run_ld (hr : r ∈ [Mos.a, Mos.x, Mos.y]) (hw : M.cpu.wide = false) {v : UInt8}
    (hv : (MosCpu.read arg 1).run M = (.ok (v.toNat : Int), M)) :
    (MosCpu.step ⟨"ld" ++ r.name, [arg]⟩).run M = (.ok .next, ⟨filled M.cpu r v, M.memory⟩) := by
  obtain rfl | rfl | rfl := eq_of_mem hr
  · have hset : M.cpu.setAcc v.toNat = { M.cpu with a := (v.toNat : Int) } := by
      have := v.toNat_lt
      rw [MosCpu.setAcc, if_neg (by simp [hw]), Bits.low_eight,
        Int.emod_eq_of_lt (by omega) (by omega)]
    change (MosCpu.step ⟨"lda", [arg]⟩).run M = _
    rw [step_lda, MosCpu.width_of_narrow hw, run_load "lda" hv, hset]
    rfl
  · exact (run_load "ldx" hv : (MosCpu.load ⟨"ldx", [arg]⟩ 1 fun c v => { c with x := v }).run M =
      _)
  · exact (run_load "ldy" hv : (MosCpu.load ⟨"ldy", [arg]⟩ 1 fun c v => { c with y := v }).run M =
      _)

/-- Storing a register while the accumulator is narrow. -/
theorem run_st (hr : r ∈ [Mos.a, Mos.x, Mos.y]) (hw : M.cpu.wide = false) {v : UInt8}
    (hv : value M.cpu r = v.toNat) (ha : (MosCpu.address arg).run M = (.ok addr, M)) :
    (MosCpu.step ⟨"st" ++ r.name, [arg]⟩).run M =
      (.ok .next, ⟨M.cpu, M.memory.setByte addr v⟩) := by
  have hrun : (MosCpu.step ⟨"st" ++ r.name, [arg]⟩).run M =
      (.ok .next, ⟨M.cpu, M.memory.write addr 1 (value M.cpu r)⟩) := by
    obtain rfl | rfl | rfl := eq_of_mem hr
    · have hacc : M.cpu.acc = M.cpu.a := by rw [MosCpu.acc, hw, if_neg (by decide)]
      change (MosCpu.step ⟨"sta", [arg]⟩).run M = _
      rw [step_sta, MosCpu.width_of_narrow hw, run_store "sta" ha, hacc]
      rfl
    · exact (run_store "stx" ha : (MosCpu.store ⟨"stx", [arg]⟩ 1 MosCpu.x).run M = _)
    · exact (run_store "sty" ha : (MosCpu.store ⟨"sty", [arg]⟩ 1 MosCpu.y).run M = _)
  rw [hrun, hv, Memory.write_one, Memory.byteOf_toNat]

/-- Pushing a register while the accumulator is narrow. -/
theorem run_ph (hr : r ∈ [Mos.a, Mos.x, Mos.y]) (hw : M.cpu.wide = false)
    (hpush : (MosCpu.push (value M.cpu r)).run M = (.ok (), M')) :
    (MosCpu.step ⟨"ph" ++ r.name, []⟩).run M = (.ok .next, M') := by
  have hstep : (MosCpu.step ⟨"ph" ++ r.name, []⟩).run M =
      (MosCpu.push (value M.cpu r) >>= fun _ => pure .next : Exec MosCpu Transfer).run M := by
    obtain rfl | rfl | rfl := eq_of_mem hr
    · obtain ⟨c, m⟩ := M
      obtain ⟨a, x, y, b, sp, n, z, c, v, wide⟩ := c
      subst hw
      rfl
    · change (Exec.cpu >>= fun c => MosCpu.push c.x >>= fun _ =>
        pure .next : Exec MosCpu Transfer).run M = _
      exact Exec.run_bind (Exec.run_cpu M)
    · change (Exec.cpu >>= fun c => MosCpu.push c.y >>= fun _ =>
        pure .next : Exec MosCpu Transfer).run M = _
      exact Exec.run_bind (Exec.run_cpu M)
  rw [hstep, Exec.run_bind hpush]
  rfl

/-- Pulling a register while the accumulator is narrow. -/
theorem run_pl (hr : r ∈ [Mos.a, Mos.x, Mos.y]) {v : UInt8}
    (hpull : MosCpu.pull.run M = (.ok (v.toNat : Int), M')) (hw : M'.cpu.wide = false) :
    (MosCpu.step ⟨"pl" ++ r.name, []⟩).run M = (.ok .next, ⟨filled M'.cpu r v, M'.memory⟩) := by
  obtain rfl | rfl | rfl := eq_of_mem hr
  · change (MosCpu.pull >>= fun low => do
        Exec.update fun c => { c with a := low }
        if (← Exec.cpu).wide then
          let high ← MosCpu.pull
          Exec.update fun c => { c with b := high }
        MosCpu.registers fun c => c.setNZ c.acc c.width : Exec MosCpu Transfer).run M = _
    rw [Exec.run_bind hpull]
    obtain ⟨c, m⟩ := M'
    obtain ⟨a, x, y, b, sp, n, z, c, v, wide⟩ := c
    subst hw
    rfl
  · change (MosCpu.pull >>= fun v => MosCpu.registers fun c => { c with x := v }.setNZ v 1 :
      Exec MosCpu Transfer).run M = _
    rw [Exec.run_bind hpull]
    rfl
  · change (MosCpu.pull >>= fun v => MosCpu.registers fun c => { c with y := v }.setNZ v 1 :
      Exec MosCpu Transfer).run M = _
    rw [Exec.run_bind hpull]
    rfl

/-! #### The wide accumulator -/

/-- The registers after a word was put into the wide accumulator. -/
def loadedWord (c : MosCpu) (low high : UInt8) : MosCpu :=
  { c with a := low.toNat, b := high.toNat }.setNZ (low.toNat + 256 * high.toNat) 2

theorem acc_of_wide {c : MosCpu} (hw : c.wide = true) {low high : UInt8} (hlow : c.a = low.toNat)
    (hhigh : c.b = high.toNat) : c.acc = low.toNat + 256 * high.toNat := by
  have := high.toNat_lt
  rw [MosCpu.acc, if_pos hw, Simulator.joined, hlow, hhigh, Bits.wrap_of_lt (by omega) (by omega),
    Bits.or_shifted]

/-- Loading the wide accumulator. -/
theorem run_lda_wide (hw : M.cpu.wide = true) {low high : UInt8}
    (hv : (MosCpu.read arg 2).run M = (.ok (low.toNat + 256 * high.toNat : Int), M)) :
    (MosCpu.step ⟨"lda", [arg]⟩).run M = (.ok .next, ⟨loadedWord M.cpu low high, M.memory⟩) := by
  have := low.toNat_lt
  have := high.toNat_lt
  have hlow : (low.toNat + 256 * high.toNat : Int) % 256 = low.toNat := by omega
  have hhigh : (low.toNat + 256 * high.toNat : Int) / 256 % 256 = high.toNat := by omega
  rw [step_lda, MosCpu.width_of_wide hw, run_load "lda" hv, MosCpu.setAcc, if_pos hw,
    Bits.shr_eight, Bits.low_eight, Bits.low_eight, hlow, hhigh]
  rfl

/-- Storing the wide accumulator. -/
theorem run_sta_wide (hw : M.cpu.wide = true) {low high : UInt8} (hlow : M.cpu.a = low.toNat)
    (hhigh : M.cpu.b = high.toNat) (ha : (MosCpu.address arg).run M = (.ok addr, M)) :
    (MosCpu.step ⟨"sta", [arg]⟩).run M =
      (.ok .next, ⟨M.cpu, (M.memory.setByte addr low).setByte (addr + 1) high⟩) := by
  obtain ⟨hl, hh⟩ := Memory.byteOf_word low high
  rw [step_sta, MosCpu.width_of_wide hw, run_store "sta" ha, Nat.cast_ofNat, Memory.write_two,
    acc_of_wide hw hlow hhigh, hl, hh]

end Machines

/-! ### States of the processor -/

/-- The stack holds bytes, the first one at `base`. -/
def Stacked (m : Memory) (base : Int) : List Slot → Prop
  | [] => True
  | .byte v :: rest => m.byte (256 + (base - rest.length) % 256) = v ∧ Stacked m base rest
  | _ => False

/-- Layouts that suit the processor: cells lie outside of the page of the stack. -/
structure Fits (l : Layout) : Prop where
  apart : l.Apart
  room : l.room ≤ 256
  clear : ∀ n o, l.owns n o → ∀ k : Int, 0 ≤ k → k < 256 → l.index n o ≠ Memory.index (256 + k)

/-- Bytes outside of the page of the stack. -/
theorem fits_ofCells {symbols cells : List (String × Int)} {base : Int} {room : Nat}
    (h : (Layout.ofCells symbols cells base room).Apart) (hroom : room ≤ 256)
    (hcells : ∀ c ∈ cells, 512 ≤ addressIn symbols c.1 + c.2 ∧
      addressIn symbols c.1 + c.2 < 65536) :
    Fits (Layout.ofCells symbols cells base room) where
  apart := h
  room := hroom
  clear n o ho k h₀ h₁ heq := by
    have hmod := Memory.index_eq_iff.mp heq
    have hrange := hcells (n, o) ho
    dsimp only [Layout.ofCells] at hmod hrange
    omega

/-- **What a state depicts** of a machine. -/
structure Depicts (l : Layout) (M : Simulator.Machine MosCpu) (σ : State) : Prop where
  symbols : M.memory.symbols = l.symbols
  a : M.cpu.a = (σ.reg Mos.a).toNat
  x : M.cpu.x = (σ.reg Mos.x).toNat
  y : M.cpu.y = (σ.reg Mos.y).toNat
  b : M.cpu.b = σ.upper.toNat
  wide : M.cpu.wide = σ.wide
  carry : M.cpu.c = σ.carry
  sp : M.cpu.sp = (l.base - σ.stack.length) % 256
  mem : ∀ n o, l.owns n o → M.memory.byte (addressIn l.symbols n + o) = σ.mem n o
  stack : Stacked M.memory l.base σ.stack

/-- The processor with its states. -/
def view : View MosCpu := ⟨MosCpu.processor, Fits, Depicts⟩

/-! ### Memory and stack -/

theorem Stacked.congr {m m' : Memory} {base : Int} {slots : List Slot}
    (h : ∀ k : Nat, k < slots.length →
      m'.byte (256 + (base - k) % 256) = m.byte (256 + (base - k) % 256))
    (hs : Stacked m base slots) : Stacked m' base slots := by
  induction slots with
  | nil => trivial
  | cons s rest ih =>
    cases s with
    | byte v =>
      refine ⟨?_, ih (fun k hk => h k (Nat.lt_succ_of_lt hk)) hs.2⟩
      rw [h rest.length (Nat.lt_succ_self _)]
      exact hs.1
    | pair => exact hs
    | flags => exact hs

namespace Depicts

variable {l : Layout} {M : Simulator.Machine MosCpu} {σ : State}

/-- A byte of a cell is written. -/
theorem setMem (hl : Fits l) (h : Depicts l M σ) {n : String} {o : Int} (ho : l.owns n o)
    (v : UInt8) :
    Depicts l ⟨M.cpu, M.memory.setByte (addressIn l.symbols n + o) v⟩ (σ.setMem n o v) where
  __ := h
  mem n' o' ho' := by
    rw [hl.apart.byte_setByte ho ho', State.mem_setMem, h.mem n' o' ho']
  stack := by
    refine h.stack.congr fun k _ => Memory.byte_setByte_of_ne ?_
    exact (hl.clear n o ho _ (Int.emod_nonneg _ (by decide))
      (Int.emod_lt_of_pos _ (by decide))).symm

theorem setWord (hl : Fits l) (h : Depicts l M σ) {n : String} {o : Int} (ho : l.owns n o)
    (ho' : l.owns n (o + 1)) (low high : UInt8) :
    Depicts l ⟨M.cpu, (M.memory.setByte (addressIn l.symbols n + o) low).setByte
      (addressIn l.symbols n + o + 1) high⟩ (σ.setWord n o low high) := by
  have h' := (h.setMem hl ho low).setMem hl ho' high
  rwa [← Int.add_assoc] at h'

theorem value (h : Depicts l M σ) {r : Register} (hr : r ∈ [Mos.a, Mos.x, Mos.y]) :
    Mos.value M.cpu r = (σ.reg r).toNat := by
  obtain rfl | rfl | rfl := eq_of_mem hr
  · exact h.a
  · exact h.x
  · exact h.y

theorem filled (h : Depicts l M σ) {r : Register} (hr : r ∈ [Mos.a, Mos.x, Mos.y]) (v : UInt8) :
    Depicts l ⟨Mos.filled M.cpu r v, M.memory⟩ (σ.setReg r v) := by
  obtain rfl | rfl | rfl := eq_of_mem hr
  · exact { h with a := rfl }
  · exact { h with x := rfl }
  · exact { h with y := rfl }

theorem sp_nonneg (h : Depicts l M σ) : 0 ≤ M.cpu.sp := by
  rw [h.sp]
  exact Int.emod_nonneg _ (by decide)

theorem sp_lt (h : Depicts l M σ) : M.cpu.sp < 256 := by
  rw [h.sp]
  exact Int.emod_lt_of_pos _ (by decide)

end Depicts

section Stack

variable {l : Layout} {M : Simulator.Machine MosCpu} {σ : State}

/-- A byte is pushed. -/
theorem exists_push (hl : Fits l) (h : Depicts l M σ) (hroom : σ.stack.length + 1 ≤ l.room)
    {v : UInt8} :
    ∃ M', (MosCpu.push v.toNat).run M = (.ok (), M') ∧ Depicts l M' (σ.push (.byte v)) := by
  have hroom' := hl.room
  refine ⟨_, run_push h.sp_nonneg h.sp_lt v, ?_⟩
  rw [h.sp]
  exact
    { h with
      sp := by
        simp only [State.push_stack, List.length_cons]
        omega
      mem := fun n o ho => by
        rw [Memory.byte_setByte_of_ne]
        · exact h.mem n o ho
        · exact hl.clear n o ho _ (Int.emod_nonneg _ (by decide)) (Int.emod_lt_of_pos _ (by decide))
      stack := by
        refine ⟨Memory.byte_setByte_self, h.stack.congr fun k hk => Memory.byte_setByte_of_ne ?_⟩
        rw [Ne, Memory.index_eq_iff]
        omega }

/-- A byte is pulled. -/
theorem exists_pull {v : UInt8} {rest : List Slot} (h : Depicts l M σ)
    (hs : σ.stack = .byte v :: rest) :
    ∃ M', MosCpu.pull.run M = (.ok (v.toNat : Int), M') ∧ Depicts l M' (σ.setStack rest) := by
  have hstack := h.stack
  rw [hs] at hstack
  have hsp : (M.cpu.sp + 1) % 256 = (l.base - rest.length) % 256 := by
    rw [h.sp, hs, List.length_cons]
    omega
  have hpull := run_pull (M := M)
  rw [hsp, hstack.1] at hpull
  exact ⟨_, hpull, { h with sp := rfl, stack := hstack.2 }⟩

end Stack

/-! ### Operands -/

section Operands

variable {l : Layout} {M : Simulator.Machine MosCpu} {σ : State} {n : String} {o : Int}

theorem lookup_eq (h : Depicts l M σ) (hl : Fits l) (ho : l.owns n o) :
    M.memory.symbols.lookup n = some (addressIn l.symbols n) := by
  rw [h.symbols]
  exact lookup_addressIn (hl.apart.placed n o ho)

theorem run_read_one (h : Depicts l M σ) (hl : Fits l) (ho : l.owns n o) :
    (MosCpu.read (.mem n o) 1).run M = (.ok ((σ.mem n o).toNat : Int), M) := by
  rw [run_read (lookup_eq h hl ho), ← h.mem n o ho, ← Memory.read_one]
  rfl

theorem run_read_two (h : Depicts l M σ) (hl : Fits l) (ho : l.owns n o) (ho' : l.owns n (o + 1)) :
    (MosCpu.read (.mem n o) 2).run M =
      (.ok ((σ.mem n o).toNat + 256 * (σ.mem n (o + 1)).toNat : Int), M) := by
  rw [run_read (lookup_eq h hl ho), ← h.mem n o ho, ← h.mem n
    (o + 1) ho', ← Int.add_assoc, ← Memory.read_two]
  rfl

end Operands

/-! ### Instructions of the accumulator -/

section Accumulator

variable {symbols : List (String × Int)} {need : String → Int → Prop} {σ : State}
  {n : String} {o : Int}

/-- An instruction that does not touch the stack. -/
theorem runs_instr {σ' : State} (op : String) (args : List Arg)
    (hop : (op.toList.head? == some '.') = false) (hrise : Instr.rise ⟨op, args⟩ = 0)
    (hheight : σ'.stack = σ.stack)
    (hstep : ∀ (l : Layout), l.symbols = symbols → Fits l → (∀ n o, need n o → l.owns n o) →
      ∀ M, Depicts l M σ → ∃ M', (MosCpu.step ⟨op, args⟩).run M = (.ok .next, M') ∧
        Depicts l M' σ') :
    view.Runs symbols need [.instr ⟨op, args⟩] σ σ' :=
  .instr (Line.executed?_instr hop) (by rw [hheight, hrise]; omega)
    fun l hl hfits hneed _ M hM => hstep l hl hfits hneed M hM

/-- Loading the wide accumulator. -/
theorem runs_lda_wide (hw : σ.wide = true) (ho : need n o) (ho' : need n (o + 1)) :
    view.Runs symbols need [.instr ⟨"lda", [.mem n o]⟩] σ
      ((σ.setReg Mos.a (σ.mem n o)).setUpper (σ.mem n (o + 1))) := by
  refine runs_instr "lda" _ rfl rfl rfl fun l hl hfits hneed M hM => ?_
  refine ⟨_, run_lda_wide (hM.wide.trans hw) (run_read_two hM hfits (hneed _ _ ho) (hneed _ _ ho')),
    ?_⟩
  exact { hM with a := rfl, b := rfl }

/-- Storing the wide accumulator. -/
theorem runs_sta_wide (hw : σ.wide = true) (ho : need n o) (ho' : need n (o + 1)) :
    view.Runs symbols need [.instr ⟨"sta", [.mem n o]⟩] σ
      (σ.setWord n o (σ.reg Mos.a) σ.upper) := by
  refine runs_instr "sta" _ rfl rfl rfl fun l hl hfits hneed M hM => ?_
  refine ⟨_, run_sta_wide (hM.wide.trans hw) hM.a hM.b
    (run_mem (lookup_eq hM hfits (hneed _ _ ho))), ?_⟩
  exact hM.setWord hfits (hneed _ _ ho) (hneed _ _ ho') _ _

end Accumulator

/-! ### Instructions of registers -/

section Registers

variable {symbols : List (String × Int)} {need : String → Int → Prop} {σ : State} {n : String}
  {o : Int} {r : Register}

/-- Loading a register. -/
theorem runs_load (hr : r ∈ [Mos.a, Mos.x, Mos.y]) (hw : σ.wide = false) (ho : need n o) :
    view.Runs symbols need [.instr ⟨"ld" ++ r.name, [.mem n o]⟩] σ (σ.setReg r (σ.mem n o)) := by
  obtain ⟨hop, hrise⟩ := executed_register r hr ("ld", 0) (by decide)
  refine runs_instr _ _ hop hrise rfl fun l hl hfits hneed M hM => ?_
  exact ⟨_, run_ld hr (hM.wide.trans hw) (run_read_one hM hfits (hneed n o ho)), hM.filled hr _⟩

/-- Storing a register. -/
theorem runs_store (hr : r ∈ [Mos.a, Mos.x, Mos.y]) (hw : σ.wide = false) (ho : need n o) :
    view.Runs symbols need [.instr ⟨"st" ++ r.name, [.mem n o]⟩] σ (σ.setMem n o (σ.reg r)) := by
  obtain ⟨hop, hrise⟩ := executed_register r hr ("st", 0) (by decide)
  refine runs_instr _ _ hop hrise rfl fun l hl hfits hneed M hM => ?_
  exact ⟨_, run_st hr (hM.wide.trans hw) (hM.value hr)
    (run_mem (lookup_eq hM hfits (hneed n o ho))), hM.setMem hfits (hneed n o ho) _⟩

/-- Copying the accumulator to an index register. -/
theorem runs_fromA (hr : r ∈ [Mos.x, Mos.y]) :
    view.Runs symbols need [.instr ⟨"ta" ++ r.name, []⟩] σ (σ.setReg r (σ.reg Mos.a)) := by
  have hname : r = Mos.x ∨ r = Mos.y := by simpa using hr
  obtain rfl | rfl := hname
  · exact runs_instr "tax" [] rfl rfl rfl fun l _ _ _ M hM =>
      ⟨_, rfl, { hM with x := hM.a }⟩
  · exact runs_instr "tay" [] rfl rfl rfl fun l _ _ _ M hM =>
      ⟨_, rfl, { hM with y := hM.a }⟩

/-- Copying an index register to the accumulator. -/
theorem runs_toA (hr : r ∈ [Mos.x, Mos.y]) :
    view.Runs symbols need [.instr ⟨"t" ++ r.name ++ "a", []⟩] σ (σ.setReg Mos.a (σ.reg r)) := by
  have hname : r = Mos.x ∨ r = Mos.y := by simpa using hr
  obtain rfl | rfl := hname
  · exact runs_instr "txa" [] rfl rfl rfl fun l _ _ _ M hM =>
      ⟨_, rfl, { hM with a := hM.x }⟩
  · exact runs_instr "tya" [] rfl rfl rfl fun l _ _ _ M hM =>
      ⟨_, rfl, { hM with a := hM.y }⟩

/-- Making the accumulator wide or narrow. The directive that follows is for the assembler. -/
theorem runs_mode (wide : Bool) :
    view.Runs symbols need [.instr ⟨if wide then "rep" else "sep", [.imm 0x20]⟩,
      .instr ⟨if wide then ".a16" else ".a8", []⟩] σ (σ.setWide wide) := by
  have hmode : view.Runs symbols need [.instr ⟨if wide then "rep" else "sep", [.imm 0x20]⟩] σ
      (σ.setWide wide) := by
    cases wide with
    | false => exact runs_instr "sep" _ rfl rfl rfl fun l _ _ _ M hM =>
        ⟨_, rfl, { hM with wide := rfl }⟩
    | true => exact runs_instr "rep" _ rfl rfl rfl fun l _ _ _ M hM =>
        ⟨_, rfl, { hM with wide := rfl }⟩
  exact hmode.cons (by cases wide <;> exact .skip rfl rfl)

/-- Code with a wide accumulator. -/
theorem runs_wide {code : List Instr} {τ : State}
    (h : view.Runs symbols need (code.map Line.instr) (σ.setWide true) τ) :
    view.Runs symbols need ((wide code).map Line.instr) σ (τ.setWide false) := by
  rw [wide, List.map_append, List.map_append]
  exact ((runs_mode true).append h).append (runs_mode false)

end Registers

/-! ### The stack -/

section Stack

variable {symbols : List (String × Int)} {need : String → Int → Prop} {σ : State} {r : Register}

/-- Pushing a register. -/
theorem runs_push (hr : r ∈ [Mos.a, Mos.x, Mos.y]) (hw : σ.wide = false) :
    view.Runs symbols need [.instr ⟨"ph" ++ r.name, []⟩] σ (σ.push (.byte (σ.reg r))) := by
  obtain ⟨hop, hrise⟩ := executed_register r hr ("ph", 1) (by decide)
  refine .instr (Line.executed?_instr hop) (by rw [hrise]; rfl) fun l _ hfits _ h M hM => ?_
  obtain ⟨M', hrun, hM'⟩ := exists_push hfits hM (by rw [hrise] at h; omega) (v := σ.reg r)
  exact ⟨M', run_ph hr (hM.wide.trans hw) (hM.value hr ▸ hrun), hM'⟩

/-- Pulling a register. -/
theorem runs_pull (hr : r ∈ [Mos.a, Mos.x, Mos.y]) (hw : σ.wide = false) {v : UInt8}
    {rest : List Slot} (hs : σ.stack = .byte v :: rest) :
    view.Runs symbols need [.instr ⟨"pl" ++ r.name, []⟩] σ ((σ.setStack rest).setReg r v) := by
  obtain ⟨hop, hrise⟩ := executed_register r hr ("pl", -1) (by decide)
  have hheight : (rest.length : Int) = σ.stack.length + (-1) := by rw [hs, List.length_cons]; omega
  refine .instr (Line.executed?_instr hop) (by rw [hrise]; exact hheight) fun l _ hfits _ h M hM =>
    ?_
  obtain ⟨M', hrun, hM'⟩ := exists_pull hM hs
  exact ⟨_, run_pl hr hrun (hM'.wide.trans hw), hM'.filled hr v⟩

end Stack

end Mos

end Octet
