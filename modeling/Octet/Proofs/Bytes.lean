import Mathlib
import Octet.Simulator.MosCpu

/-!
# Bits and bytes

Reading and writing memory, in terms of single bytes. Arithmetic of the simulators is on integers
that are cut to a byte; `Memory.byteOf` is that cut.

## Main definitions

* `Bits.Within` — numbers of some bits

## Main results

* `Simulator.Memory.byte_setByte` — a byte after another one was written
* `Simulator.Exec.run_bind` — a computation goes on from where the first part of it ended
-/

namespace Octet

namespace Bits

@[simp] theorem modulus_eight : modulus 8 = 256 := rfl
@[simp] theorem modulus_sixteen : modulus 16 = 65536 := rfl

theorem low_eight (v : Int) : low 8 v = v % 256 := rfl
theorem low_sixteen (v : Int) : low 16 v = v % 65536 := rfl

/-- A difference that is cut need not be cut before. -/
theorem low_sub_low (bits : Nat) (v n : Int) : low bits (low bits v - n) = low bits (v - n) := by
  simp [low, Int.sub_emod]

/-- Shifting by a byte divides by 256. -/
theorem shr_eight (v : Int) : shr v 8 = v / 256 := by
  simp [shr, Int.shiftRight_eq_div_pow]

theorem test_zero (v : Int) : test 0 v = (v % 2 == 1) := by simp [test, shr]

/-- A small integer is its own reduction to 64 bits. -/
theorem wrap_of_lt {v : Int} (h : -9223372036854775808 ≤ v) (h' : v < 9223372036854775808) :
    wrap v = v := by
  have hm : modulus 64 = 18446744073709551616 := by decide
  rw [wrap, hm, Int.bmod_eq_of_le] <;> omega

/-- Operations on bits of natural numbers are those of `Nat`. -/
theorem not_natCast (n : Nat) : not (n : Int) = Int.negSucc n := by
  simp only [not]
  omega

theorem or_natCast (m n : Nat) : or (m : Int) (n : Int) = ((m ||| n : Nat) : Int) := by
  rw [or, not_natCast, not_natCast]
  simp only [and, not]
  omega

/-- A byte above another one, put together bit by bit. -/
theorem or_shifted (high low : UInt8) :
    or (low.toNat : Int) (high.toNat * 256 : Int) = low.toNat + 256 * high.toNat := by
  have h := Nat.two_pow_add_eq_or_of_lt (i := 8) low.toNat_lt high.toNat
  have hcast : ((high.toNat : Int) * 256) = ((2 ^ 8 * high.toNat : Nat) : Int) := by omega
  rw [hcast, or_natCast, Nat.or_comm, ← h]
  omega

theorem and_comm (a b : Int) : and a b = and b a := by
  cases a <;> cases b <;> simp [and, Nat.and_comm, Nat.or_comm]

theorem or_comm (a b : Int) : or a b = or b a := by rw [or, or, and_comm]

/-- Exclusive or is made of the other operations. -/
theorem xor_natCast (m n : Nat) : xor (m : Int) (n : Int) = ((m ^^^ n : Nat) : Int) := by
  have hxor : (m ||| n) ^^^ ((m ||| n) &&& (m &&& n)) = m ^^^ n := by
    refine Nat.eq_of_testBit_eq fun i => ?_
    simp only [Nat.testBit_xor, Nat.testBit_or, Nat.testBit_and]
    cases m.testBit i <;> cases n.testBit i <;> rfl
  rw [xor, or_natCast, show and (m : Int) (n : Int) = ((m &&& n : Nat) : Int) from rfl,
    not_natCast, ← hxor]
  rfl

/-- **The complement** of a value of some bits: all of them are exchanged. -/
theorem xor_mask {bits : Nat} {v : Int} (h₀ : 0 ≤ v) (h₁ : v < modulus bits) :
    xor v (modulus bits - 1) = modulus bits - 1 - v := by
  obtain ⟨n, rfl⟩ := Int.eq_ofNat_of_zero_le h₀
  have hmodulus : modulus bits = 2 ^ bits := Nat.one_shiftLeft bits
  have hn : n < 2 ^ bits := by omega
  have hmask : (modulus bits : Int) - 1 = ((2 ^ bits - 1 : Nat) : Int) := by omega
  have hnot : n ^^^ (2 ^ bits - 1) = 2 ^ bits - 1 - n := by
    have h := BitVec.toNat_not (x := BitVec.ofNatLT n hn)
    rwa [← BitVec.xor_allOnes, BitVec.toNat_xor, BitVec.toNat_allOnes, BitVec.toNat_ofNatLT] at h
  rw [hmask, xor_natCast, hnot]
  omega

/-! ### Ranges -/

/-- A number of some bits. -/
def Within (n : Nat) (v : Int) : Prop := 0 ≤ v ∧ v < 2 ^ n

variable {n : Nat} {a b v : Int}

/-- What some bits are cut to has that many bits. -/
theorem within_low (n : Nat) (v : Int) : Within n (low n v) := by
  have hmodulus : (modulus n : Int) = 2 ^ n := by simp [modulus, Nat.one_shiftLeft]
  rw [low, hmodulus]
  exact ⟨Int.emod_nonneg v (by positivity), Int.emod_lt_of_pos v (by positivity)⟩

theorem Within.mono {m : Nat} (h : Within m v) (hmn : m ≤ n) : Within n v :=
  ⟨h.1, h.2.trans_le (pow_le_pow_right₀ (by decide) hmn)⟩

/-- Bits that are put together do not become more. -/
theorem Within.or (ha : Within n a) (hb : Within n b) : Within n (or a b) := by
  obtain ⟨a, rfl⟩ := Int.eq_ofNat_of_zero_le ha.1
  obtain ⟨b, rfl⟩ := Int.eq_ofNat_of_zero_le hb.1
  rw [or_natCast]
  exact ⟨by
    omega, by exact_mod_cast Nat.or_lt_two_pow (by exact_mod_cast ha.2) (by exact_mod_cast hb.2)⟩

end Bits

namespace Simulator.Memory

variable {m : Memory} {a c v : Int} {b : UInt8}

/-- The byte that a value is cut to, as a number. -/
@[simp] theorem toNat_byteOf (v : Int) : ((byteOf v).toNat : Int) = v % 256 := by
  have h₀ := Int.emod_nonneg v (b := 256) (by decide)
  have h₁ := Int.emod_lt_of_pos v (b := 256) (by decide)
  have hlt : (v % 256).toNat < UInt8.size := by simp only [UInt8.size]; omega
  rw [byteOf, UInt8.toNat_ofNat_of_lt' hlt, Int.toNat_of_nonneg h₀]

theorem low_eq_toNat (v : Int) : Bits.low 8 v = ((byteOf v).toNat : Int) := by
  rw [toNat_byteOf, Bits.low_eight]

/-- A byte is cut to itself. -/
@[simp] theorem byteOf_toNat (b : UInt8) : byteOf (b.toNat : Int) = b := by
  have := b.toNat_lt
  apply UInt8.toNat.inj
  have h := toNat_byteOf (b.toNat : Int)
  omega

/-- Values are cut to the same byte if they agree modulo 256. -/
theorem byteOf_eq_iff {v w : Int} : byteOf v = byteOf w ↔ v % 256 = w % 256 := by
  rw [← toNat_byteOf, ← toNat_byteOf]
  constructor
  · intro h; rw [h]
  · intro h; exact UInt8.toNat.inj (by omega)

theorem byteOf_congr {v w : Int} (h : v % 256 = w % 256) : byteOf v = byteOf w :=
  byteOf_eq_iff.mpr h

/-- The two bytes of a word. -/
theorem byteOf_word (low high : UInt8) : byteOf (low.toNat + 256 * high.toNat) = low ∧
    byteOf (Bits.shr (low.toNat + 256 * high.toNat) 8) = high := by
  have hlow := low.toNat_lt
  constructor
  · exact (byteOf_congr (by omega)).trans (byteOf_toNat low)
  · exact (byteOf_congr (by rw [Bits.shr_eight]; omega)).trans (byteOf_toNat high)

@[simp] theorem symbols_setByte : (m.setByte a b).symbols = m.symbols := rfl

/-- A byte after another one was written. -/
theorem byte_setByte : (m.setByte a b).byte c = if index c = index a then b else m.byte c := by
  simp only [byte, setByte]
  by_cases h : index c = index a
  · simp [h]
  · have hne : (index a).val ≠ (index c).val := fun he => h (Fin.ext he.symm)
    simp [h, Vector.getElem_set_ne _ _ hne]

/-- Other bytes stay as they were. -/
theorem byte_setByte_of_ne (h : index c ≠ index a) : (m.setByte a b).byte c = m.byte c := by
  rw [byte_setByte, if_neg h]

@[simp] theorem byte_setByte_self : (m.setByte a b).byte a = b := by rw [byte_setByte, if_pos rfl]

theorem read_one (m : Memory) (a : Int) : m.read a 1 = (m.byte a).toNat := by
  change ((m.byte a).toNat : Int) + 256 * 0 = _
  omega

/-- A word is read with its low byte first. -/
theorem read_two (m : Memory) (a : Int) :
    m.read a 2 = (m.byte a).toNat + 256 * (m.byte (a + 1)).toNat := by
  change ((m.byte a).toNat : Int) + 256 * ((m.byte (a + 1)).toNat + 256 * 0) = _
  omega

theorem write_one (m : Memory) (a v : Int) : m.write a 1 v = m.setByte a (byteOf v) := rfl

/-- A word is written with its low byte first. -/
theorem write_two (m : Memory) (a v : Int) :
    m.write a 2 v = (m.setByte a (byteOf v)).setByte (a + 1) (byteOf (Bits.shr v 8)) := rfl

/-- Addresses are taken modulo the size of memory. -/
theorem index_eq_iff : index a = index c ↔ a % 65536 = c % 65536 := by
  have h₀ := Int.emod_nonneg a (b := 65536) (by decide)
  have h₁ := Int.emod_nonneg c (b := 65536) (by decide)
  simp only [index, Fin.mk.injEq]
  omega

theorem byte_congr (h : a % 65536 = c % 65536) : m.byte a = m.byte c := by
  simp only [byte, index_eq_iff.mpr h]

theorem setByte_congr (h : a % 65536 = c % 65536) : m.setByte a b = m.setByte c b := by
  simp only [setByte, index_eq_iff.mpr h]

end Simulator.Memory

/-! ### Computations that succeed -/

namespace Simulator.Exec

variable {κ α β : Type} {M M' M'' : Machine κ}

/-- A computation goes on from where its first part ended. -/
theorem run_bind {x : Exec κ α} {f : α → Exec κ β} {v : α} (h : x.run M = (.ok v, M')) :
    (x >>= f).run M = (f v).run M' := by
  change (ExceptT.bindCont (fun a => f a) (x.run M).1).run (x.run M).2 = _
  rw [h]
  rfl

theorem run_cpu (M : Machine κ) : (cpu : Exec κ κ).run M = (.ok M.cpu, M) := rfl

/-- A symbol that has an address is found there, and nothing changes. -/
theorem run_address {name : String} {a : Int} (h : M.memory.symbols.lookup name = some a) :
    (address name : Exec κ Int).run M = (.ok a, M) := by
  have hm : M.memory.address name = (a, M.memory) := by simp [Memory.address, h]
  change (Except.ok (M.memory.address name).1, (⟨M.cpu, (M.memory.address name).2⟩ : Machine κ)) = _
  rw [hm]

/-- Storing a byte at an index of memory. -/
theorem run_store {i v : Int} (h : 0 ≤ i ∧ i < 65536) :
    (store i v : Exec κ Unit).run M = (.ok (), ⟨M.cpu, M.memory.setByte i (Memory.byteOf v)⟩) := by
  unfold store
  rw [if_pos (by simpa using h)]
  rfl

/-- Loading a byte from an index of memory. -/
theorem run_load {i : Int} (h : 0 ≤ i ∧ i < 65536) :
    (load i : Exec κ Int).run M = (.ok ((M.memory.byte i).toNat : Int), M) := by
  have hat : M.memory.at? i = some (M.memory.byte i) := by simp [Memory.at?, h]
  have hget : (get : Exec κ (Machine κ)).run M = (.ok M, M) := rfl
  unfold load
  rw [run_bind hget]
  simp only [hat]
  rfl

end Simulator.Exec

namespace Simulator.MosCpu

theorem width_of_narrow {c : MosCpu} (h : c.wide = false) : c.width = 1 := by simp [width, h]

theorem width_of_wide {c : MosCpu} (h : c.wide = true) : c.width = 2 := by simp [width, h]

end Simulator.MosCpu

end Octet
