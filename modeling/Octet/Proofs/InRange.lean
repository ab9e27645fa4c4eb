import Octet.Proofs.Balance.Machines

/-!
# Registers in range

An instruction that misses an operand, or that accesses a byte outside of memory by its index, stops
without a message. Neither can happen if every instruction has the operands that it looks at and the
registers that are addresses start in range: on the 8080 these are `h` and `l`, in the 6502 family
it is the stack pointer, which has sixteen bits to begin with and eight as soon as it moves. On the
8080 all registers keep their widths if they start with them.

## Main definitions

* `Arch.Addressed` — the registers that are addresses are in range
* `Simulator.IntelCpu.InRange` — all registers of the 8080 are

## Main results

* `Arch.Addressed.step`, `Arch.Addressed.routine` — instructions and routines keep addresses in
  range
* `Simulator.IntelCpu.InRange.change` — instructions of the 8080 keep all registers in range
-/

namespace Octet

open Assembly (Arg Instr)

namespace Bits

variable {n : Nat} {v : Int}

theorem Within.shr (h : Within n v) (k : Nat) : Within n (shr v k) := by
  rw [Bits.shr, Int.shiftRight_eq_div_pow]
  exact ⟨Int.ediv_nonneg h.1 (by positivity), (Int.ediv_le_self _ h.1).trans_lt h.2⟩

theorem within_truncate (hn : n < 64) (v : Int) : Within n (Simulator.truncate n v) := by
  rw [Simulator.truncate, if_pos hn]
  exact within_low n v

theorem within_shift (v count : Int) (left signed : Bool) :
    Within 8 (Simulator.shift v count 1 left signed) := by
  have hzero : Within 8 0 := ⟨by decide, by decide⟩
  have hcut : ∀ v, Within 8 (Simulator.truncate 8 v) := within_truncate (by decide)
  unfold Simulator.shift Simulator.shiftBits
  dsimp only
  split
  · split
    · exact hzero
    · exact hcut _
  · split
    · exact hcut _
    · split
      · exact hzero
      · exact (hcut v).shr _

end Bits

namespace Simulator

open Bits (Within)

/-! ### The 6502 family -/

namespace MosCpu

/-- Pushed bytes go into memory. -/
def Addressed (c : MosCpu) : Prop := Within 16 c.sp

theorem Addressed.of_standing {c c' : MosCpu} (hc : Addressed c) (h : c'.standing = c.standing) :
    Addressed c' :=
  (congrArg (Within 16) (congrArg Standing.pointer h)).mpr hc

/-- **An instruction keeps the stack pointer in range.** -/
theorem Addressed.change {i : Instr} {v u : Int} {k : Bool} {c c' : MosCpu} (hc : Addressed c)
    (h : change? i v u k c = some c') : Addressed c' := by
  have hlow : ∀ sp, Within 16 (Bits.low 8 sp) := fun sp => (Bits.within_low 8 sp).mono (by decide)
  unfold change? at h
  split at h
  case h_1 | h_15 | h_16 | h_17 =>
    cases h
    exact hc.of_standing (standing_setAcc c _)
  case h_13 | h_14 =>
    cases h
    exact hc.of_standing (standing_setAcc { c with c := _, v := _ } _)
  case h_21 | h_22 | h_23 | h_24 | h_25 | h_26 =>
    cases h
    split
    · exact hc.of_standing (standing_setAcc { c with c := k } v)
    · exact hc
  case h_29 | h_30 | h_31 | h_32 | h_33 | h_34 | h_35 | h_36 =>
    cases h
    exact hlow _
  case h_37 | h_38 =>
    cases h
    split <;> exact hc
  case h_54 => cases h
  all_goals
    cases h
    exact hc

end MosCpu

/-! ### The 8080 -/

namespace IntelCpu

/-- The pair `hl` is made of two bytes. -/
def Addressed (r : IntelCpu) : Prop := Within 8 r.h ∧ Within 8 r.l

/-- **All registers have their widths.** -/
structure InRange (r : IntelCpu) : Prop where
  a : Within 8 r.a
  b : Within 8 r.b
  c : Within 8 r.c
  d : Within 8 r.d
  e : Within 8 r.e
  h : Within 8 r.h
  l : Within 8 r.l
  sp : Within 16 r.sp

variable {c : IntelCpu}

/-- The pair `hl` is the address of a byte. -/
theorem Addressed.hl (hc : Addressed c) : Within 16 c.hl := by
  have h₀ := hc.1.1
  have h₁ := hc.1.2
  rw [IntelCpu.hl, paired, Bits.wrap_of_lt (by omega) (by omega)]
  exact Bits.Within.or ⟨by omega, by omega⟩ (hc.2.mono (by decide))

/-- Bytes are written to `h` and `l`, whatever is written. -/
theorem Addressed.setHl (c : IntelCpu) (v : Int) : Addressed (c.setHl v) :=
  ⟨Bits.within_low 8 _, Bits.within_low 8 _⟩

theorem Addressed.setByte (hc : Addressed c) (a : Option Arg) (v : Int) :
    Addressed (setByte a v c) := by
  unfold IntelCpu.setByte
  split
  case h_6 => exact ⟨Bits.within_low 8 v, hc.2⟩
  case h_7 => exact ⟨hc.1, Bits.within_low 8 v⟩
  all_goals exact hc

theorem Addressed.setPair (hc : Addressed c) (a : Option Arg) (v : Int) :
    Addressed (setPair a v c) := by
  unfold IntelCpu.setPair
  split
  case h_3 => exact .setHl c v
  all_goals exact hc

/-- **An instruction keeps `hl` the address of a byte**, whatever the other registers are. -/
theorem Addressed.change {i : Instr} {v u : Int} {k : Bool} {c' : IntelCpu} (hc : Addressed c)
    (h : change? i v u k c = some c') : Addressed c' := by
  unfold change? at h
  split at h
  case h_1 | h_2 => cases h; exact hc.setByte _ v
  case h_3 | h_4 => cases h; exact Addressed.setByte (c := c.setSZ v) hc _ v
  case h_6 => cases h; exact .setHl c v
  case h_7 | h_8 | h_9 => cases h; exact hc.setPair _ v
  case h_10 =>
    cases h
    exact Addressed.setPair (c := { c with sp := Bits.low 16 (c.sp + 2) }) hc _ v
  case h_12 | h_13 => cases h; exact ⟨Bits.within_low 8 _, Bits.within_low 8 _⟩
  case h_48 => cases h
  all_goals
    cases h
    exact hc

theorem addressed_routine {name : String} {f : Machine IntelCpu → Machine IntelCpu}
    (h : routine? name = some f) {M : Machine IntelCpu} (hM : Addressed M.cpu) :
    Addressed (f M).cpu := by
  unfold routine? at h
  split at h
  case h_4 | h_5 | h_6 | h_8 => cases h; exact .setHl _ _
  case h_11 => cases h
  all_goals
    cases h
    exact hM

theorem InRange.addressed (hc : InRange c) : Addressed c := ⟨hc.h, hc.l⟩

theorem InRange.setBc (hc : InRange c) (v : Int) : InRange (c.setBc v) :=
  { hc with b := Bits.within_low 8 _, c := Bits.within_low 8 _ }

theorem InRange.setDe (hc : InRange c) (v : Int) : InRange (c.setDe v) :=
  { hc with d := Bits.within_low 8 _, e := Bits.within_low 8 _ }

theorem InRange.setHl (hc : InRange c) (v : Int) : InRange (c.setHl v) :=
  { hc with h := Bits.within_low 8 _, l := Bits.within_low 8 _ }

theorem InRange.setByte (hc : InRange c) (a : Option Arg) (v : Int) : InRange (setByte a v c) := by
  have hv := Bits.within_low 8 v
  unfold IntelCpu.setByte
  split
  case h_1 => exact { hc with a := hv }
  case h_2 => exact { hc with b := hv }
  case h_3 => exact { hc with c := hv }
  case h_4 => exact { hc with d := hv }
  case h_5 => exact { hc with e := hv }
  case h_6 => exact { hc with h := hv }
  case h_7 => exact { hc with l := hv }
  case h_8 => exact hc

theorem InRange.setPair (hc : InRange c) (a : Option Arg) (v : Int) : InRange (setPair a v c) := by
  unfold IntelCpu.setPair
  split
  · exact hc.setBc v
  · exact hc.setDe v
  · exact hc.setHl v
  · exact { hc with a := Bits.within_low 8 _ }
  · exact hc

theorem InRange.not (hc : InRange c) : Within 8 (Bits.xor c.a 0xff) := by
  have hnot : Bits.xor c.a 0xff = 255 - c.a := @Bits.xor_mask 8 c.a hc.a.1 hc.a.2
  have h₀ := hc.a.1
  have h₁ := hc.a.2
  rw [hnot]
  exact ⟨by omega, by omega⟩

/-- **An instruction keeps registers in range.** -/
theorem InRange.change {i : Instr} {v u : Int} {k : Bool} {c' : IntelCpu} (hc : InRange c)
    (h : change? i v u k c = some c') : InRange c' := by
  have hlow : ∀ v, Within 8 (Bits.low 8 v) := Bits.within_low 8
  have hsp : ∀ v, Within 16 (Bits.low 16 v) := Bits.within_low 16
  unfold change? at h
  split at h
  case h_1 | h_2 => cases h; exact hc.setByte _ v
  case h_3 | h_4 => cases h; exact InRange.setByte (c := c.setSZ v) { hc with } _ v
  case h_6 => cases h; exact hc.setHl v
  case h_7 | h_8 | h_9 => cases h; exact hc.setPair _ v
  case h_10 =>
    cases h
    have hpopped : InRange { c with sp := Bits.low 16 (c.sp + 2) } := { hc with sp := hsp _ }
    exact hpopped.setPair _ v
  case h_11 => cases h; exact { hc with sp := hsp _ }
  case h_12 => cases h; exact { hc with h := hlow _, l := hlow _ }
  case h_13 => cases h; exact (hc.setHl v).setDe u
  case h_30 => cases h; exact { hc with a := hc.not }
  case h_36 =>
    cases h
    have hcarry : ∀ b, Within 8 (128 * Bits.ofBool b) := by
      rintro (_ | _) <;> exact ⟨by decide, by decide⟩
    exact { hc with a := (hc.a.shr 1).or (hcarry c.cy) }
  case h_48 => cases h
  case h_22 | h_23 | h_31 | h_32 | h_37 | h_38 | h_39 | h_40 | h_41 | h_42 | h_43 | h_44 |
      h_45 | h_46 | h_47 =>
    cases h
    exact { hc with }
  all_goals
    cases h
    exact { hc with a := hlow _ }

/-- **A routine keeps registers in range.** -/
theorem inRange_routine {name : String} {f : Machine IntelCpu → Machine IntelCpu}
    (h : routine? name = some f)
    {M : Machine IntelCpu} (hM : InRange M.cpu) : InRange (f M).cpu := by
  have hshift : ∀ left signed, InRange (shiftByte left signed M).cpu := fun left signed =>
    { hM with a := Bits.within_shift M.cpu.a M.cpu.c left signed }
  unfold routine? at h
  split at h
  case h_1 | h_2 | h_3 => cases h; exact hshift _ _
  case h_4 | h_5 | h_6 | h_8 => cases h; exact hM.setHl _
  case h_7 => cases h; exact { hM with a := Bits.within_truncate (by decide) _ }
  case h_9 | h_10 => cases h; exact { hM with }
  case h_11 => cases h

end IntelCpu

end Simulator

/-! ### Machines -/

namespace Arch

open Simulator (MosCpu IntelCpu Exec)

/-- **The registers that are addresses** are in range. -/
def Addressed : (m : Arch) → m.Cpu → Prop
  | .mos6502 => MosCpu.Addressed
  | .wdc65816 => MosCpu.Addressed
  | .i8080 => IntelCpu.Addressed

variable {m : Arch} {c : m.Cpu}

theorem Addressed.byteIndex (hc : m.Addressed c) : Bits.Within 16 (m.byteIndex c) := by
  cases m with
  | mos6502 | wdc65816 => exact hc
  | i8080 => exact IntelCpu.Addressed.hl hc

theorem Addressed.changes {i : Instr} {c' : m.Cpu} (hc : m.Addressed c) (h : m.Changes i c c') :
    m.Addressed c' := by
  cases m with
  | mos6502 | wdc65816 =>
    obtain ⟨v, u, k, h⟩ := h
    exact MosCpu.Addressed.change hc h
  | i8080 =>
    obtain ⟨v, u, k, h⟩ := h
    exact IntelCpu.Addressed.change hc h

/-- **An instruction keeps addresses in range**, and misses nothing if it has all its operands. -/
theorem Addressed.step {i : Instr} (hc : m.Addressed c) (hi : m.Complete i) :
    Exec.Meets (fun t => t ≠ .absent) c (m.processor.step i) fun _ c' => m.Addressed c' := by
  refine (m.meets_step i c).mono (fun t ht => ?_) fun _ _ h => hc.changes h.2
  cases ht with
  | missing hlt => exact absurd hi (Nat.not_le_of_lt hlt)
  | outside hout => exact absurd hc.byteIndex hout
  | rejected _ ht =>
    rintro rfl
    cases ht

theorem Addressed.routine {name : String} {f : Simulator.Machine m.Cpu → Simulator.Machine m.Cpu}
    (h : m.processor.routine? name = some f) {M : Simulator.Machine m.Cpu}
    (hM : m.Addressed M.cpu) :
    m.Addressed (f M).cpu := by
  cases m with
  | mos6502 | wdc65816 => exact MosCpu.Addressed.of_standing hM (MosCpu.standing_routine h M)
  | i8080 => exact IntelCpu.addressed_routine h hM

theorem Addressed.enter (hc : m.Addressed c) : m.Addressed (m.processor.enter c) := by
  cases m <;> exact hc

end Arch

end Octet
