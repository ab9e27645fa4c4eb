import Octet.Proofs.Generated.State

/-!
# Bytes of cells

Memory as generated code sees it: bytes and words of cells that lie apart, and the parts of their
addresses.

## Main results

* `Layout.Apart.byte_setByte` — a byte of a cell after a byte of a cell was written
-/

namespace Octet

open Assembly (Part)
open Simulator (Memory)

theorem Layout.Apart.byte_setByte {l : Layout} (hl : l.Apart) {m : Memory} {n n' : String}
    {o o' : Int} {b : UInt8} (h : l.owns n o) (h' : l.owns n' o') :
    (m.setByte (addressIn l.symbols n + o) b).byte (addressIn l.symbols n' + o') =
      if n' = n ∧ o' = o then b else m.byte (addressIn l.symbols n' + o') := by
  rw [Memory.byte_setByte]
  by_cases he : n' = n ∧ o' = o
  · rw [if_pos he, if_pos]
    rw [he.1, he.2]
  · rw [if_neg he, if_neg]
    exact fun hi => he (hl.distinct n' o' n o h' h hi)

/-! ### Words -/

namespace State

/-- The state with a word in two bytes of memory. -/
def setWord (σ : State) (n : String) (o : Int) (low high : UInt8) : State :=
  (σ.setMem n o low).setMem n (o + 1) high

@[simp] theorem low_setWord (σ : State) (n : String) (o : Int) (low high : UInt8) :
    (σ.setWord n o low high).mem n o = low := by
  have hne : ¬ o = o + 1 := by omega
  simp [setWord, mem_setMem, hne]

@[simp] theorem high_setWord (σ : State) (n : String) (o : Int) (low high : UInt8) :
    (σ.setWord n o low high).mem n (o + 1) = high := by
  simp [setWord]

theorem mem_setWord_of_ne {σ : State} {n n' : String} {o o' : Int} {low high : UInt8}
    (h : ¬ (n' = n ∧ o' = o))
    (h' : ¬ (n' = n ∧ o' = o + 1)) : (σ.setWord n o low high).mem n' o' = σ.mem n' o' := by
  rw [setWord, mem_setMem, if_neg h', mem_setMem, if_neg h]

end State

/-! ### Addresses -/

namespace Assembly

/-- The byte or word of an address that a part means. -/
def Part.of (p : Part) (address : Int) : Int :=
  match p with
  | .whole => address
  | .low => Bits.low 8 address
  | .high => Bits.shr address 8

end Assembly

theorem lookup_addressIn {symbols : List (String × Int)} {n : String}
    (h : (symbols.lookup n).isSome) : symbols.lookup n = some (addressIn symbols n) := by
  obtain ⟨a, ha⟩ := Option.isSome_iff_exists.mp h
  simp [addressIn, ha]

end Octet
