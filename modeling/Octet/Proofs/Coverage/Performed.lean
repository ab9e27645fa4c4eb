import Octet.Proofs.Steps

/-!
# Instructions that are executed

The table of effects says which registers an instruction writes. It has gaps, and they are made
explicit (`Arch.unlisted`). Loading `hl` from memory is listed only for an operand that names a
pair, which it never has; the 6502 has no entry for instructions of the 65816, and on the 8080 the
pair of the accumulator and the flags is not a pair of the table.

What is promised of an instruction is promised of its execution, from any state of the machine, as
long as it does not trap. This module says what an execution is, and what it means that flags show a
value.

## Main definitions

* `Arch.unlisted` — registers that are written although the table does not list them
* `Simulator.Processor.Performs` — an instruction executed from one state to another
* `Simulator.Shows` — two flags that show a value
-/

namespace Octet

open Assembly (Instr)

/-- **Gaps of the table**: registers that an instruction writes although its effect does not list
them. -/
def Arch.unlisted (m : Arch) (i : Instr) : List Register :=
  match m, i.op with
  | .mos6502, "plx" => [Mos.x]
  | .mos6502, "ply" => [Mos.y]
  | .mos6502, "xba" => [Mos.a]
  | .i8080, "lhld" => [Intel.hl]
  | .i8080, "lxi" | .i8080, "inx" | .i8080, "dcx" =>
    if i.args.head? = some (.reg "psw") then [Intel.a] else []
  | _, _ => []

/-- An instruction that calls has the mnemonic of a call. -/
theorem Assembly.Instr.op_of_transfer {i : Instr} {name : String} (h : .call name ∈ i.transfers) :
    i.op = "jsr" ∨ i.op = "call" := by
  unfold transfers at h
  split at h
  case h_4 hkind => exact i.op_of_call hkind
  all_goals simp at h

namespace Simulator

variable {κ : Type}

/-- **An instruction executed without a trap**, from one state of the machine to another. A call is
one step together with what is called, and nothing is assumed of that. -/
def Processor.Performs (p : Processor κ) (i : Instr) (M M' : Machine κ) : Prop :=
  ∃ t after, (p.step i).run M = (.ok t, after) ∧ (M' = after ∨ ∃ name, t = .call name)

/-- The zero and the sign flag show the byte of a value. -/
def Shows (zero sign : Bool) (v : Int) : Prop := zero = (Bits.low 8 v == 0) ∧ sign = Bits.test 7 v

/-- The flags show nothing but the lowest byte. -/
theorem Shows.congr {zero sign : Bool} {v w : Int} (h : Shows zero sign v)
    (hvw : v % 256 = w % 256) :
    Shows zero sign w := by
  have hlow : Bits.low 8 v = Bits.low 8 w := by rw [Bits.low_eight, Bits.low_eight, hvw]
  have htest : Bits.test 7 v = Bits.test 7 w := by
    have hv : Bits.shr v 7 = v / 128 := by simp [Bits.shr, Int.shiftRight_eq_div_pow]
    have hw : Bits.shr w 7 = w / 128 := by simp [Bits.shr, Int.shiftRight_eq_div_pow]
    have hbit : v / 128 % 2 = w / 128 % 2 := by omega
    rw [Bits.test, Bits.test, hv, hw, hbit]
  exact ⟨hlow ▸ h.1, htest ▸ h.2⟩

/-- The flags of a byte are those of the value that it is cut from. -/
theorem Shows.low {zero sign : Bool} {v : Int} (h : Shows zero sign v) :
    Shows zero sign (Bits.low 8 v) :=
  h.congr (by rw [Bits.low_eight]; omega)

/-- Reduction to 64 bits leaves the lowest byte. -/
theorem wrap_emod (v : Int) : Bits.wrap v % 256 = v % 256 := by
  have hm : Bits.modulus 64 = 18446744073709551616 := by decide
  rw [Bits.wrap, hm, Int.bmod_def]
  split <;> omega

end Simulator

end Octet
