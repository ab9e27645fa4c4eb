import Octet.Proofs.Generated.Bytes

/-!
# Carry decides order

The processors of the 6502 family add with carry in the width of the accumulator, and subtract by
adding the complement of the operand, so that carry means that nothing had to be borrowed. Words are
compared in a chain: the low bytes are compared, which leaves the borrow in the carry, and the high
bytes are subtracted with it. Without a sign the carry after the chain decides; with a sign it is
the sign of the difference, once it has been exchanged where the subtraction overflowed.

## Main definitions

* `Bits.Signed` — the numbers that some bits can hold with a sign
* `Simulator.MosCpu.Added`, `Simulator.MosCpu.Subtracted` — what additions and subtractions leave
* `Simulator.MosCpu.wordChain`, `Simulator.MosCpu.signCorrection` — the code that compares words

## Main results

* `Simulator.MosCpu.added_add`, `Simulator.MosCpu.subtracted_add` — the accumulator and the flags
  after `adc` and `sbc`
* `Simulator.MosCpu.carry_decides_order` — the chain decides the order of words
-/

namespace Octet

open Assembly (Arg Instr Line)

namespace Bits

/-- A number that some bits can hold with a sign. -/
def Signed (bits : Nat) (n : Int) : Prop := -(modulus (bits - 1) : Int) ≤ n ∧ n < modulus (bits - 1)

theorem ofBool_bounds (b : Bool) : 0 ≤ ofBool b ∧ ofBool b ≤ 1 := by cases b <;> decide

theorem modulus_succ (n : Nat) : (modulus (n + 1) : Int) = 2 * modulus n := by
  simp only [modulus, Nat.one_shiftLeft, Nat.pow_succ]
  omega

/-- The highest bit of a value with one more bit than `n`, or of a sum of two such values. -/
theorem test_eq_true_iff {n : Nat} {v : Int} (h₀ : 0 ≤ v) (h₁ : v < 4 * modulus n) :
    test n v = true ↔ modulus n ≤ v ∧ v < 2 * modulus n ∨ 3 * modulus n ≤ v := by
  have hpos : (0 : Int) < modulus n := by simp [modulus, Nat.one_shiftLeft]
  have hshr : shr v n = v / modulus n := by
    simp [shr, Int.shiftRight_eq_div_pow, modulus, Nat.one_shiftLeft]
  rw [test, beq_iff_eq, hshr]
  have hdiv := Int.mul_ediv_add_emod v (modulus n)
  have hrem₀ := Int.emod_nonneg v hpos.ne'
  have hrem₁ := Int.emod_lt_of_pos v hpos
  have hlow : 0 ≤ v / modulus n := Int.ediv_nonneg h₀ hpos.le
  have hhigh : v / modulus n < 4 := Int.ediv_lt_of_lt_mul hpos (by omega)
  obtain hq | hq | hq | hq : v / modulus n = 0 ∨ v / modulus n = 1 ∨ v / modulus n = 2 ∨
      v / modulus n = 3 := by omega
  all_goals
    rw [hq] at hdiv ⊢
    omega

/-- What does not fit leaves the highest bit alone. -/
theorem test_emod {n : Nat} {v : Int} (h₀ : 0 ≤ v) (h₁ : v < 4 * modulus n) :
    test n (v % modulus (n + 1)) = test n v := by
  have hsucc := modulus_succ n
  by_cases hv : v < 2 * modulus n
  · rw [Int.emod_eq_of_lt h₀ (by omega)]
  · have hrem : v % modulus (n + 1) = v - 2 * modulus n := by
      rw [hsucc, Int.emod_eq_sub_self_emod, Int.emod_eq_of_lt (by omega) (by omega)]
    have hlow := test_eq_true_iff (n := n) (v := v - 2 * modulus n) (by omega) (by omega)
    rw [hrem, Bool.eq_iff_iff, hlow, test_eq_true_iff h₀ h₁]
    constructor <;> omega

/-- Exchanging a bit. -/
theorem test_xor_bit {n : Nat} {v : Int} (h₀ : 0 ≤ v) : test n (xor v (modulus n)) = !test n v := by
  have htest : ∀ m : Nat, test n (m : Int) = m.testBit n := by
    intro m
    have hcast : ((m / 2 ^ n % 2 : Nat) : Int) = m / 2 ^ n % 2 := by simp
    rw [Bool.eq_iff_iff, test, shr, Nat.testBit_eq_decide_div_mod_eq, Int.shiftRight_eq_div_pow,
      beq_iff_eq, decide_eq_true_iff]
    norm_cast at hcast ⊢
  obtain ⟨m, rfl⟩ := Int.eq_ofNat_of_zero_le h₀
  rw [xor_natCast, htest, htest, Nat.testBit_xor, modulus, Nat.one_shiftLeft,
    Nat.testBit_two_pow_self, Bool.xor_true]

/-- A value with one more bit than `n`, read with its sign. -/
theorem read_signed {n : Nat} {v : Int} (hn : n < 62) (h₀ : 0 ≤ v) (h₁ : v < 2 * modulus n) :
    read (n + 1) true v = if modulus n ≤ v then v - 2 * modulus n else v := by
  have hbound : (modulus n : Int) ≤ 2305843009213693952 := by
    have := Nat.pow_le_pow_right (n := 2) (by decide) (Nat.le_of_lt_succ hn)
    simp only [modulus, Nat.one_shiftLeft]
    omega
  have hlow : low (n + 1) v = v := by
    rw [low, modulus_succ]
    exact Int.emod_eq_of_lt h₀ h₁
  have hshifted : ∀ k, k < 64 → (modulus k : Int) < 9223372036854775808 →
      shifted k = modulus k := by
    intro k hk hlt
    rw [shifted, if_pos hk, wrap_of_lt (by omega) hlt]
  have hsucc := modulus_succ n
  have hbits : n + 1 < 64 := by omega
  simp only [read, hbits, if_true, hlow, Nat.add_sub_cancel, hshifted n (by omega) (by omega),
    hshifted (n + 1) hbits (by omega), hsucc, Bool.true_and, decide_eq_true_eq]

/-- A byte or a word, read with its sign. -/
theorem normalize_signed {w : Nat} {v : Int} (hw : w = 1 ∨ w = 2) (h₀ : 0 ≤ v) (h₁ : v < 256 ^ w) :
    normalize v true w = if 256 ^ w / 2 ≤ v then v - 256 ^ w else v := by
  rcases hw with rfl | rfl
  · exact read_signed (n := 7) (by decide) h₀ h₁
  · exact read_signed (n := 15) (by decide) h₀ h₁

theorem test_seven {v : Int} (h₀ : 0 ≤ v) (h₁ : v < 256) : test 7 v = true ↔ 128 ≤ v := by
  have h : test 7 v = true ↔ 128 ≤ v ∧ v < 256 ∨ 384 ≤ v :=
    test_eq_true_iff (n := 7) h₀ (h₁.trans (by decide))
  rw [h]
  omega

theorem signed_byte {n : Int} : Signed 8 n ↔ -128 ≤ n ∧ n < 128 := Iff.rfl

end Bits

namespace Simulator

/-- Two bytes as one value. -/
theorem joined_eq {high low : Int} (h₀ : 0 ≤ high) (h₁ : high < 256) (l₀ : 0 ≤ low)
    (l₁ : low < 256) :
    joined high low = low + 256 * high := by
  have hhigh : ((Memory.byteOf high).toNat : Int) = high := by rw [Memory.toNat_byteOf]; omega
  have hlow : ((Memory.byteOf low).toNat : Int) = low := by rw [Memory.toNat_byteOf]; omega
  have h := Bits.or_shifted (Memory.byteOf high) (Memory.byteOf low)
  rw [hhigh, hlow] at h
  rw [joined, Bits.wrap_of_lt (by omega) (by omega), h]

namespace MosCpu

/-- **What an addition leaves**: the sum in the width of the accumulator with its sign, the carry
out of it, and whether the sum of the signed values is none of that width. -/
structure Added (c : MosCpu) (v : Int) (c' : MosCpu) : Prop where
  acc : c'.acc = (c.acc + v + Bits.ofBool c.c) % Bits.modulus (8 * c.width)
  carry : c'.c = true ↔ Bits.modulus (8 * c.width) ≤ c.acc + v + Bits.ofBool c.c
  overflow : c'.v = true ↔ ¬Bits.Signed (8 * c.width)
    (normalize c.acc true c.width + normalize v true c.width + Bits.ofBool c.c)
  sign : c'.n = Bits.test (8 * c.width - 1) c'.acc

/-- **What a subtraction leaves**: the difference in the width of the accumulator with its sign,
carry when nothing was borrowed, and whether the difference of the signed values is none of that
width. -/
structure Subtracted (c : MosCpu) (v : Int) (c' : MosCpu) : Prop where
  acc : c'.acc = (c.acc - v - (1 - Bits.ofBool c.c)) % Bits.modulus (8 * c.width)
  carry : c'.c = true ↔ 0 ≤ c.acc - v - (1 - Bits.ofBool c.c)
  overflow : c'.v = true ↔ ¬Bits.Signed (8 * c.width)
    (normalize c.acc true c.width - normalize v true c.width - (1 - Bits.ofBool c.c))
  sign : c'.n = Bits.test (8 * c.width - 1) c'.acc

section Sums

variable {c : MosCpu} {v : Int}

theorem acc_of_narrow (h : c.wide = false) : c.acc = c.a := by simp [acc, h]

theorem acc_setAcc (c : MosCpu) (v : Int) : (c.setAcc v).acc = v % Bits.modulus (8 * c.width) := by
  cases hw : c.wide with
  | false =>
    rw [width_of_narrow hw, setAcc, hw]
    simp [acc, Bits.low]
  | true =>
    rw [width_of_wide hw, setAcc, hw, if_pos rfl, acc, if_pos rfl]
    change joined (Bits.low 8 (Bits.shr v 8)) (Bits.low 8 v) = v % ((65536 : Nat) : Int)
    rw [Bits.low_eight, Bits.low_eight, Bits.shr_eight,
      joined_eq (by omega) (by omega) (by omega) (by omega)]
    omega

theorem wide_add (c : MosCpu) (v : Int) (w : Nat) : (c.add v w).wide = c.wide := by
  unfold add setAcc
  dsimp only
  split <;> rfl

/-- The bits of the accumulator, its sign apart. -/
theorem exists_bits (c : MosCpu) : ∃ n, n < 16 ∧ 8 * c.width = n + 1 := by
  refine ⟨8 * c.width - 1, ?_⟩
  rw [width]
  split <;> decide

/-- **Addition with carry.** -/
theorem added_add (ha₀ : 0 ≤ c.acc) (ha₁ : c.acc < Bits.modulus (8 * c.width)) (h₀ : 0 ≤ v)
    (h₁ : v < Bits.modulus (8 * c.width)) : Added c v (c.add v c.width) := by
  obtain ⟨hk₀, hk₁⟩ := Bits.ofBool_bounds c.c
  obtain ⟨n, hn, hbits⟩ := c.exists_bits
  have hsmall : (Bits.modulus n : Int) ≤ 32768 := by
    have := Nat.pow_le_pow_right (n := 2) (by decide) (Nat.le_of_lt_succ hn)
    simp only [Bits.modulus, Nat.one_shiftLeft]
    omega
  have hsucc := Bits.modulus_succ n
  rw [hbits, hsucc] at ha₁ h₁
  have hwrap : Bits.wrap (c.acc + v + Bits.ofBool c.c) = c.acc + v + Bits.ofBool c.c :=
    Bits.wrap_of_lt (by omega) (by omega)
  have hflags : ∀ (d : MosCpu) (s t : Int) (w : Nat),
      ((d.setAcc s).setNZ t w).c = d.c ∧ ((d.setAcc s).setNZ t w).v = d.v := by
    intro d s t w
    unfold setAcc
    split <;> exact ⟨rfl, rfl⟩
  have hacc : (c.add v c.width).acc = (c.acc + v + Bits.ofBool c.c) % Bits.modulus
      (8 * c.width) := by
    rw [add, hwrap]
    exact (acc_setAcc _ _).trans (Int.emod_emod_of_dvd _ (Int.dvd_refl _))
  refine ⟨hacc, ?_, ?_, ?_⟩
  · rw [add, hwrap, (hflags ..).1, decide_eq_true_iff]
  · rw [add, hwrap, (hflags ..).2]
    -- signs agree and that of the sum differs
    have ha := Bits.test_eq_true_iff (n := n) ha₀ (by omega)
    have hv := Bits.test_eq_true_iff (n := n) h₀ (by omega)
    have hsum := Bits.test_eq_true_iff (n := n) (v := c.acc + v + Bits.ofBool c.c)
      (by omega) (by omega)
    rw [Bits.Signed, normalize, normalize, hbits, Nat.add_sub_cancel,
      Bits.read_signed (by omega) ha₀ (by omega), Bits.read_signed (by omega) h₀ (by omega)]
    generalize Bits.test n c.acc = s at *
    generalize Bits.test n v = t at *
    generalize Bits.test n (c.acc + v + Bits.ofBool c.c) = u at *
    cases s <;> cases t <;> cases u <;> simp at ha hv hsum ⊢ <;> split <;> split <;> omega
  · have hn : (c.add v c.width).n = Bits.test (8 * c.width - 1) (c.acc + v + Bits.ofBool c.c) := by
      rw [add, hwrap]; rfl
    rw [hn, hacc, hbits, Nat.add_sub_cancel, Bits.test_emod (by omega) (by omega)]

/-- **Subtraction with borrow** is addition of the complement. -/
theorem subtracted_add (ha₀ : 0 ≤ c.acc) (ha₁ : c.acc < Bits.modulus (8 * c.width)) (h₀ : 0 ≤ v)
    (h₁ : v < Bits.modulus (8 * c.width)) :
    Subtracted c v (c.add (Bits.xor v (Bits.modulus (8 * c.width) - 1)) c.width) := by
  rw [Bits.xor_mask h₀ h₁]
  have hadded := added_add (v := Bits.modulus (8 * c.width) - 1 - v) ha₀ ha₁ (by omega) (by omega)
  refine ⟨?_, ?_, ?_, ?_⟩
  · have hsame : c.acc + (Bits.modulus (8 * c.width) - 1 - v) + Bits.ofBool c.c =
        c.acc - v - (1 - Bits.ofBool c.c) + Bits.modulus (8 * c.width) := by omega
    rw [hadded.acc, hsame, Int.add_emod_right]
  · rw [hadded.carry]
    omega
  · rw [hadded.overflow]
    obtain ⟨n, hn, hbits⟩ := c.exists_bits
    have hsucc := Bits.modulus_succ n
    rw [hbits, hsucc] at h₁
    -- the signed value of a complement
    have hcomplement : normalize (Bits.modulus (8 * c.width) - 1 - v) true c.width =
        -1 - normalize v true c.width := by
      rw [normalize, normalize, hbits, hsucc, Bits.read_signed (by omega) (by omega) (by omega),
        Bits.read_signed (by omega) h₀ h₁]
      split <;> split <;> omega
    rw [hcomplement]
    have hsame : normalize c.acc true c.width + (-1 - normalize v true c.width) + Bits.ofBool c.c =
        normalize c.acc true c.width - normalize v true c.width - (1 - Bits.ofBool c.c) := by omega
    rw [hsame]
  · exact hadded.sign

end Sums

/-! ### Instructions -/

section Instructions

variable {M : Machine MosCpu} {m : Memory} {arg : Arg} {rest : List Arg} {v : Int}

theorem run_operate (op : String) {f : MosCpu → Int → Nat → MosCpu}
    (hread : (read arg M.cpu.width).run M = (.ok v, ⟨M.cpu, m⟩)) :
    (operate ⟨op, arg :: rest⟩ f).run M = (.ok .next, ⟨f M.cpu v M.cpu.width, m⟩) := by
  have hfirst : (first ⟨op, arg :: rest⟩).run M = (.ok arg, M) := rfl
  rw [operate, Exec.run_bind (Exec.run_cpu M), Exec.run_bind hfirst, Exec.run_bind hread]
  rfl

theorem run_loadKind (op : String) {w : Nat} {set : MosCpu → Int → MosCpu}
    (hread : (read arg w).run M = (.ok v, ⟨M.cpu, m⟩)) :
    (load ⟨op, arg :: rest⟩ w set).run M = (.ok .next, ⟨(set M.cpu v).setNZ v w, m⟩) := by
  have hfirst : (first ⟨op, arg :: rest⟩).run M = (.ok arg, M) := rfl
  rw [load, Exec.run_bind hfirst, Exec.run_bind hread]
  rfl

end Instructions

/-! ### Comparing words -/

/-- An operand gives a byte, whatever the accumulator and the flags hold. Reading it may place a
symbol, and so leads from one memory to another. -/
def Supplies (arg : Arg) (y : Int) (m m' : Memory) (v : Int) : Prop :=
  ∀ c : MosCpu, c.y = y → (read arg 1).run ⟨c, m⟩ = (.ok v, ⟨c, m'⟩)

/-- Comparing the low bytes and subtracting the high ones, from the low byte in the accumulator
on. -/
def wordChain (rightLow leftHigh rightHigh : Arg) : List Line :=
  [.instr ⟨"cmp", [rightLow]⟩, .instr ⟨"lda", [leftHigh]⟩, .instr ⟨"sbc", [rightHigh]⟩]

/-- Exchanging the sign of a difference that overflowed. -/
def signCorrection (skip : String) : List Line :=
  [.instr ⟨"bvc", [.label skip]⟩, .instr ⟨"eor", [.imm 0x80]⟩, .label skip]

/-- The registers after the low bytes were compared and a high byte was loaded. -/
def compared (c : MosCpu) (rightLow leftHigh : Int) : MosCpu :=
  ((c.compare c.acc rightLow 1).setAcc leftHigh).setNZ leftHigh 1

section Chain

variable {c c' : MosCpu} {l r : Int}

/-- A narrow accumulator holds the high byte then, and the carry tells whether the low bytes
borrow. -/
theorem compared_of_narrow (hw : c.wide = false) (rightLow leftHigh : Int) :
    ∃ n z, c.compared rightLow leftHigh =
    { c with a := Bits.low 8 leftHigh, c := decide (rightLow ≤ c.a), n, z } := by
  rw [compared, setAcc, if_neg (by rw [compare, setNZ, hw]; decide), acc_of_narrow hw]
  exact ⟨_, _, rfl⟩

/-- The high bytes are subtracted with what the low bytes borrow. -/
theorem subtracted_compared (hw : c.wide = false) (ha : c.a = l % 256) (hl₀ : 0 ≤ l)
    (hl₁ : l < 65536) (hr₀ : 0 ≤ r) (hr₁ : r < 65536) :
    (c.compared (r % 256) (l / 256)).wide = false ∧ (c.compared (r % 256) (l / 256)).a = l / 256 ∧
      (c.compared (r % 256) (l / 256)).c = decide (r % 256 ≤ l % 256) ∧
      Subtracted (c.compared (r % 256) (l / 256)) (r / 256)
        ((c.compared (r % 256) (l / 256)).add (Bits.xor (r / 256) (Bits.modulus 8 - 1)) 1) := by
  obtain ⟨n, z, hcompared⟩ := compared_of_narrow hw (r % 256) (l / 256)
  have hnarrow : (c.compared (r % 256) (l / 256)).wide = false := by rw [hcompared]; exact hw
  have hhigh : (c.compared (r % 256) (l / 256)).a = l / 256 := by
    rw [hcompared]
    exact Int.emod_eq_of_lt (b := 256) (by omega) (by omega)
  have hborrow : (c.compared (r % 256) (l / 256)).c = decide (r % 256 ≤ l % 256) := by
    rw [hcompared, ← ha]
  have hsubtracted := subtracted_add (c := c.compared (r % 256) (l / 256)) (v := r / 256)
  rw [width_of_narrow hnarrow, acc_of_narrow hnarrow, hhigh] at hsubtracted
  have hbyte : ∀ v : Int, v < 65536 → v / 256 < Bits.modulus (8 * 1) := fun v hv =>
    Int.ediv_lt_of_lt_mul (by decide) hv
  exact ⟨hnarrow, hhigh, hborrow, hsubtracted (by omega) (hbyte l hl₁) (by omega) (hbyte r hr₁)⟩

/-- **The order of two words** by the difference of their high bytes, less what their low bytes
borrow: the carry decides it without a sign, and with a sign the sign of the difference, exchanged
if it overflowed. -/
theorem order_of_subtracted (hw : c.wide = false) (ha : c.a = l / 256)
    (hc : c.c = decide (r % 256 ≤ l % 256))
    (h : Subtracted c (r / 256) c') (hl₀ : 0 ≤ l) (hl₁ : l < 65536) (hr₀ : 0 ≤ r)
    (hr₁ : r < 65536) :
    (c'.c = true ↔ r ≤ l) ∧ ((c'.n ^^ c'.v) = true ↔ normalize l true 2 < normalize r true 2) := by
  obtain ⟨hacc, hcarry, hoverflow, hsign⟩ := h
  have hk : Bits.ofBool c.c = if r % 256 ≤ l % 256 then 1 else 0 := by rw [hc, Bits.ofBool]; simp
  rw [acc_of_narrow hw, ha, hk] at hcarry
  rw [width_of_narrow hw, acc_of_narrow hw, ha, hk] at hacc hoverflow
  rw [width_of_narrow hw, hacc] at hsign
  constructor
  · rw [hcarry]
    split <;> omega
  · have hsign : c'.n = Bits.test 7 (_ % 256) := hsign
    rw [Bits.signed_byte, Bits.normalize_signed (.inl rfl) (by omega) (by omega),
      Bits.normalize_signed (.inl rfl) (by omega) (by omega)] at hoverflow
    have hn :=
      Bits.test_seven (v := (l / 256 - r / 256 - (1 - if r % 256 ≤ l % 256 then 1 else 0)) % 256)
        (by omega) (by omega)
    rw [← hsign] at hn
    rw [Bits.normalize_signed (.inr rfl) hl₀ hl₁, Bits.normalize_signed (.inr rfl) hr₀ hr₁]
    generalize c'.n = n at *
    generalize c'.v = v at *
    cases n <;> cases v <;> simp at hn hoverflow ⊢ <;> omega

/-- Exchanging the sign of a byte in the accumulator. -/
theorem sign_exchanged (hw : c.wide = false) (h₀ : 0 ≤ c.acc) (h₁ : c.acc < 256)
    (hn : c.n = Bits.test 7 c.acc) :
    ((c.setAcc (Bits.xor c.acc 0x80)).setNZ (c.setAcc (Bits.xor c.acc 0x80)).acc 1).n = !c.n := by
  have hxor : Bits.xor c.acc 0x80 = ((c.acc.toNat ^^^ 128 : Nat) : Int) := by
    rw [← Bits.xor_natCast, Int.toNat_of_nonneg h₀]
    rfl
  have hlt : c.acc.toNat ^^^ 128 < 2 ^ 8 := Nat.xor_lt_two_pow (by omega) (by decide)
  change Bits.test 7 (c.setAcc (Bits.xor c.acc 0x80)).acc = _
  rw [acc_setAcc, width_of_narrow hw, hn]
  refine Eq.trans (Bits.test_emod (n := 7) ?_ ?_) (Bits.test_xor_bit (n := 7) h₀)
  · rw [hxor]
    omega
  · rw [hxor]
    change _ < 4 * ((128 : Nat) : Int)
    omega

end Chain

section Passing

variable {s : Simulator MosCpu} {code : Code} {n : Nat} {skip : String}
  {rightLow leftHigh rightHigh : Arg} {M : Machine MosCpu} {m₁ m₂ m₃ : Memory} {v₁ v₂ v₃ : Int}

/-- **The chain runs** from its first instruction to its last. -/
theorem passes_wordChain (hs : s.processor = processor)
    (hsits : code.Sits n (wordChain rightLow leftHigh rightHigh))
    (hw : M.cpu.wide = false) (h₁ : Supplies rightLow M.cpu.y M.memory m₁ v₁)
    (h₂ : Supplies leftHigh M.cpu.y m₁ m₂ v₂) (h₃ : Supplies rightHigh M.cpu.y m₂ m₃ v₃) :
    s.Passes code n (n + 3) M
      ⟨(M.cpu.compared v₁ v₂).add (Bits.xor v₃ (Bits.modulus 8 - 1)) 1, m₃⟩ := by
  have hlines : (wordChain rightLow leftHigh rightHigh).filterMap Line.executed? =
      [⟨"cmp", [rightLow]⟩, ⟨"lda", [leftHigh]⟩, ⟨"sbc", [rightHigh]⟩] := by
        simp [wordChain, Line.executed?]
  obtain ⟨line₁, hcmp⟩ := hsits.instr 0 ⟨"cmp", [rightLow]⟩ (by rw [hlines]; rfl)
  obtain ⟨line₂, hlda⟩ := hsits.instr 1 ⟨"lda", [leftHigh]⟩ (by rw [hlines]; rfl)
  obtain ⟨line₃, hsbc⟩ := hsits.instr 2 ⟨"sbc", [rightHigh]⟩ (by rw [hlines]; rfl)
  obtain ⟨c, m⟩ := M
  have hwidth : c.width = 1 := width_of_narrow hw
  have hwidth₁ : (c.compare c.acc v₁ 1).width = 1 := width_of_narrow hw
  have hwidth₂ : (c.compared v₁ v₂).width = 1 := by
    obtain ⟨n, z, h⟩ := compared_of_narrow hw v₁ v₂
    rw [h]
    exact width_of_narrow hw
  have hy : (c.compared v₁ v₂).y = c.y := by
    obtain ⟨n, z, h⟩ := compared_of_narrow hw v₁ v₂
    rw [h]
  have hfirst : s.Passes code n (n + 1) ⟨c, m⟩ ⟨c.compare c.acc v₁ 1, m₁⟩ := by
    refine .of_next hcmp ?_
    rw [hs, ← hwidth]
    exact run_operate "cmp" (by rw [hwidth]; exact h₁ c rfl)
  have hsecond : s.Passes code (n + 1) (n + 2) ⟨c.compare c.acc v₁ 1, m₁⟩
      ⟨c.compared v₁ v₂, m₂⟩ := by
    have hstep : (step ⟨"lda", [leftHigh]⟩).run ⟨c.compare c.acc v₁ 1, m₁⟩ =
      (load ⟨"lda", [leftHigh]⟩ (c.compare c.acc v₁ 1).width setAcc).run
        ⟨c.compare c.acc v₁ 1, m₁⟩ := rfl
    rw [hwidth₁] at hstep
    refine .of_next hlda ?_
    rw [hs]
    exact hstep.trans (run_loadKind "lda" (h₂ _ rfl))
  have hthird : s.Passes code (n + 2) (n + 3) ⟨c.compared v₁ v₂, m₂⟩
      ⟨(c.compared v₁ v₂).add (Bits.xor v₃ (Bits.modulus 8 - 1)) 1, m₃⟩ := by
    have hrun : (step ⟨"sbc", [rightHigh]⟩).run ⟨c.compared v₁ v₂, m₂⟩ = _ :=
      run_operate "sbc" (by rw [hwidth₂]; exact h₃ _ hy)
    rw [hwidth₂] at hrun
    refine .of_next hsbc ?_
    rw [hs]
    exact hrun
  exact (hfirst.trans hsecond).trans hthird

/-- **The correction runs** to its label, and exchanges the sign if there was an overflow. -/
theorem passes_signCorrection (hs : s.processor = processor)
    (hsits : code.Sits n (signCorrection skip))
    (hw : M.cpu.wide = false) (h₀ : 0 ≤ M.cpu.acc) (h₁ : M.cpu.acc < 256)
    (hn : M.cpu.n = Bits.test 7 M.cpu.acc) :
    ∃ M', s.Passes code n (n + 2) M M' ∧ M'.cpu.n = (M.cpu.n ^^ M.cpu.v) := by
  have hlines : (signCorrection skip).filterMap Line.executed? =
      [⟨"bvc", [.label skip]⟩, ⟨"eor", [.imm 0x80]⟩] := by
    simp [signCorrection, Line.executed?]
  obtain ⟨line₁, hbvc⟩ := hsits.instr 0 ⟨"bvc", [.label skip]⟩ (by rw [hlines]; rfl)
  obtain ⟨line₂, heor⟩ := hsits.instr 1 ⟨"eor", [.imm 0x80]⟩ (by rw [hlines]; rfl)
  have hbranch : (step ⟨"bvc", [.label skip]⟩).run M =
      (.ok (if !M.cpu.v then .jump skip else .next), M) := rfl
  cases hv : M.cpu.v with
  | false =>
    have hlabel : code.labels.lookup skip = some (n + 2) := by
      have h := hsits.label [.instr ⟨"bvc", [.label skip]⟩, .instr ⟨"eor", [.imm 0x80]⟩] skip [] rfl
      simpa [Line.count, Line.executed?] using h
    rw [hv] at hbranch
    refine ⟨M, .of_jump hbvc (by rw [hs]; exact hbranch) hlabel, by simp⟩
  | true =>
    have hwidth : M.cpu.width = 1 := width_of_narrow hw
    rw [hv] at hbranch
    have hread : (read (.imm 0x80) M.cpu.width).run M = (.ok 0x80, ⟨M.cpu, M.memory⟩) := by
      rw [hwidth]; rfl
    have hrun := @run_operate M M.memory (.imm 0x80) [] 0x80 "eor"
      (fun c v w => (c.setAcc (Bits.xor c.acc v)).setNZ (c.setAcc (Bits.xor c.acc v)).acc w) hread
    rw [hwidth] at hrun
    have hnext : s.Passes code n (n + 1) M M := .of_next hbvc (by rw [hs]; exact hbranch)
    refine ⟨_, hnext.trans (.of_next heor (by rw [hs]; exact hrun)), ?_⟩
    rw [sign_exchanged hw h₀ h₁ hn, Bool.xor_true]

end Passing

/-- **Carry decides order.** Addition and subtraction leave sum and difference in the width of the
accumulator, with carry when there is one out of it or none was borrowed, and with overflow when the
signed result does not fit. Hence a comparison of the low bytes of two words, followed by a
subtraction of their high bytes, leaves carry exactly when the first word is not less than the
second, and after the correction of the sign it is negative exactly when the first word is less than
the second as signed ones. -/
theorem carry_decides_order :
    (∀ (M : Machine MosCpu) (m : Memory) (arg : Arg) (rest : List Arg) (v : Int), 0 ≤ M.cpu.acc →
      M.cpu.acc < Bits.modulus (8 * M.cpu.width) → 0 ≤ v → v < Bits.modulus (8 * M.cpu.width) →
        (read arg M.cpu.width).run M = (.ok v, ⟨M.cpu, m⟩) →
          (∃ c, (step ⟨"adc", arg :: rest⟩).run M = (.ok .next, ⟨c, m⟩) ∧ Added M.cpu v c) ∧
          ∃ c, (step ⟨"sbc", arg :: rest⟩).run M = (.ok .next, ⟨c, m⟩) ∧ Subtracted M.cpu v c) ∧
    ∀ (s : Simulator MosCpu) (code : Code) (n : Nat) (skip : String)
      (rightLow leftHigh rightHigh : Arg)
      (M : Machine MosCpu) (m₁ m₂ m₃ : Memory) (l r : Int), s.processor = processor →
        code.Sits n (wordChain rightLow leftHigh rightHigh ++ signCorrection skip) →
          M.cpu.wide = false →
          0 ≤ l → l < 65536 → 0 ≤ r → r < 65536 → M.cpu.a = l % 256 →
            Supplies rightLow M.cpu.y M.memory m₁ (r % 256) →
              Supplies leftHigh M.cpu.y m₁ m₂ (l / 256) →
              Supplies rightHigh M.cpu.y m₂ m₃ (r / 256) →
                ∃ M₁ M₂, s.Passes code n (n + 3) M M₁ ∧ (M₁.cpu.c = true ↔ r ≤ l) ∧
                  s.Passes code (n + 3) (n + 5) M₁ M₂ ∧
                    (M₂.cpu.n = true ↔ normalize l true 2 < normalize r true 2) := by
  constructor
  · intro M m arg rest v ha₀ ha₁ h₀ h₁ hread
    exact ⟨⟨_, run_operate "adc" hread, added_add ha₀ ha₁ h₀ h₁⟩,
      ⟨_, run_operate "sbc" hread, subtracted_add ha₀ ha₁ h₀ h₁⟩⟩
  · intro s code n skip rightLow leftHigh rightHigh M m₁ m₂ m₃ l r hs hsits hw hl₀ hl₁ hr₀ hr₁ ha
      hlow hleft hright
    have hchain := passes_wordChain hs hsits.left hw hlow hleft hright
    obtain ⟨hnarrow, hhigh, hborrow, hsubtracted⟩ := subtracted_compared hw ha hl₀ hl₁ hr₀ hr₁
    have hnarrow' := (wide_add _ (Bits.xor (r / 256) (Bits.modulus 8 - 1)) 1).trans hnarrow
    generalize (M.cpu.compared (r % 256) (l / 256)).add
      (Bits.xor (r / 256) (Bits.modulus 8 - 1)) 1 = c at *
    obtain ⟨hcarry, hsign⟩ := order_of_subtracted hnarrow hhigh hborrow hsubtracted hl₀ hl₁ hr₀ hr₁
    obtain ⟨hacc, -, -, hn⟩ := hsubtracted
    rw [width_of_narrow hnarrow] at hacc hn
    have hacc : c.acc = _ % 256 := hacc
    obtain ⟨M₂, hcorrection, hn₂⟩ := passes_signCorrection (M := ⟨c, m₃⟩) hs hsits.right hnarrow'
      (by rw [hacc]; omega) (by rw [hacc]; omega) hn
    have hcount : Line.count (wordChain rightLow leftHigh rightHigh) = 3 := by
      simp [Line.count, wordChain, Line.executed?]
    rw [hcount] at hcorrection
    exact ⟨⟨c, m₃⟩, M₂, hchain, hcarry, hcorrection, by rw [hn₂]; exact hsign⟩

/-- The code that compares 0x8034 with 0x0135. -/
def comparison : List Line := wordChain (.imm 0x35) (.imm 0x80) (.imm 0x01) ++ signCorrection "skip"

/-- The first word is greater without a sign, and less with one: the subtraction of the high bytes
overflows. -/
theorem carry_decides_order_overflow : ∃ M₁ M₂ : Machine MosCpu,
    Passes ⟨processor, [], [], 0⟩ (.load ⟨"f", comparison⟩ ⟨"f", comparison⟩) 0 3
      ⟨{ start with a := 0x34 }, .blank 0⟩ M₁ ∧
      M₁.cpu.c = true ∧
      Passes ⟨processor, [], [], 0⟩ (.load ⟨"f", comparison⟩ ⟨"f", comparison⟩) 3 5 M₁ M₂ ∧
        M₂.cpu.n = true := by
  obtain ⟨M₁, M₂, hchain, hcarry, hcorrection, hsign⟩ :=
    carry_decides_order.2 ⟨processor, [], [], 0⟩
    (.load ⟨"f", comparison⟩ ⟨"f", comparison⟩) 0 "skip" (.imm 0x35) (.imm 0x80) (.imm 0x01)
    ⟨{ start with a := 0x34 }, .blank 0⟩ (.blank 0) (.blank 0) (.blank 0) 0x8034 0x0135 rfl
    (Code.sits_of_holds (by decide)) rfl (by decide) (by decide) (by decide) (by decide) (by decide)
    (fun _ _ => rfl) (fun _ _ => rfl) fun _ _ => rfl
  exact ⟨M₁, M₂, hchain, hcarry.mpr (by decide), hcorrection, hsign.mpr (by decide)⟩

end MosCpu

end Simulator

end Octet
