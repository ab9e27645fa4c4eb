import Octet.Proofs.Balance.Operations

/-!
# Arithmetic instructions are balanced

Word operations that are made byte by byte pin the high bytes that are still to be read and the low
byte that is already written, and release them in reverse order.

## Main results

* `Build.neutral_addOrSubtract`, `Build.neutral_bitwise`, `Build.neutral_negate` — additions,
  bitwise operations, negations
* `Build.neutral_shift`, `Build.neutral_multiply` — shifts and multiplications
-/

namespace Octet

/-! ### Constants among operands -/

namespace Operand

variable {o : Operand} {ρ : Assignment}

theorem isPowerOfTwo_of_not (h : o.isConstant = false) : o.isPowerOfTwo = false := by
  cases o with
  | int t v => cases h
  | _ => rfl

theorem isConstant_of_located (h : (o.located ρ).constant? = none) : o.isConstant = false := by
  cases o with
  | int t v => cases h
  | _ => rfl

end Operand

namespace Build

theorem isPowerOfTwo_natCast (n : Nat) : isPowerOfTwo n = true ↔ n &&& (n - 1) = 0 := by
  cases n with
  | zero => decide
  | succ n =>
    have hpred : ((n + 1 : Nat) : Int) - 1 = n := by omega
    rw [isPowerOfTwo, hpred, beq_iff_eq]
    exact Int.ofNat_inj

/-- The low byte of a power of two is one, or zero. -/
theorem isPowerOfTwo_low {v : Int} (h : isPowerOfTwo (Bits.low 16 v) = true) :
    isPowerOfTwo (Bits.low 8 v) = true := by
  have hword : 0 ≤ Bits.low 16 v := Int.emod_nonneg _ (by decide)
  obtain ⟨n, hn⟩ := Int.eq_ofNat_of_zero_le hword
  have hbyte : Bits.low 8 v = (n % 2 ^ 8 : Nat) := by
    have hmod : Bits.low 8 v = Bits.low 16 v % 256 :=
      (Int.emod_emod_of_dvd v (by decide : (256 : Int) ∣ 65536)).symm
    rw [hmod, hn]
    rfl
  rw [hn, isPowerOfTwo_natCast] at h
  rw [hbyte, isPowerOfTwo_natCast]
  by_cases hzero : n % 2 ^ 8 = 0
  · rw [hzero, Nat.zero_and]
  · have hpred : n % 2 ^ 8 - 1 = (n - 1) % 2 ^ 8 := by omega
    rw [hpred, ← Nat.and_mod_two_pow, h]

/-- A constant that is a power of two for its type is one where it is located. -/
theorem isPowerOfTwo_located {o : Operand} {ρ : Assignment} {k : Int} (h : o.isPowerOfTwo = true)
    (hk : (o.located ρ).constant? = some k) : isPowerOfTwo k = true := by
  cases o with
  | int t v =>
    cases hk
    have hpower : isPowerOfTwo (Bits.low t.maskBits v) = true := h
    unfold Ty.maskBits at hpower
    split at hpower <;> split
    · rename_i hbyte hword
      have hbyte : t.byteCount = 1 := beq_iff_eq.mp hbyte
      have hword : (t.byteCount : Int) = 2 := beq_iff_eq.mp hword
      omega
    · exact hpower
    · exact hpower
    · exact isPowerOfTwo_low hpower
  | _ => cases h

variable {s : Site} {R : List Reservation} {P : List (String × Level)} {op : BinaryOp}
  {signed : Bool} {dest l r : Location}

/-! ### Constants and counting -/

theorem plain_clobbersHigh {operands : List Location} : Plain s (clobbersHigh dest operands) :=
  plain_present

theorem plain_requireWords {ls : List Location} : Plain s (requireWords ls) := by
  unfold requireWords
  split
  · exact .throw rfl
  · exact .pure _

theorem neutral_constants : Neutral s (constants op signed dest l r) := by
  unfold constants
  split
  · exact neutral_move.bind fun _ => .pure _
  · exact .pure _
  · exact .pure _

theorem neutral_stepAgain {down : Bool} {count n : Nat} : Neutral s (stepAgain l down count n) := by
  induction n generalizing count with
  | zero => exact .pure _
  | succ n ih => exact neutral_step.bind fun stepped => .ite ih (.throw rfl)

theorem neutral_stepInPlace {k : Int} : Neutral s (stepInPlace op dest l k) := by
  unfold stepInPlace
  split
  · exact .pure _
  refine plain_present.neutral.bind fun bits => fun R P => .read ?_
  split
  · exact .pure _ rfl
  refine (neutral_step _ _).bind fun stepped => ?_
  split
  · exact (neutral_stepAgain _ _).bind fun _ => .pure _ rfl
  · exact .pure _ rfl

/-! ### Bytes -/

theorem neutral_byteBinary : Neutral s (byteBinary op dest l r) := by
  refine fun R P => .accumulator ?_
  dsimp only
  refine .ite_bind (neutral_toTemporaryByte _ _) (.pure _ rfl) fun r => .arch ?_
  split
  · exact .throw rfl
  rename_i o ho
  refine balanced_reserveLoad.bind fun res => ?_
  refine (neutral_operate (Arch.straight_operation ho) _ _).bind fun _ =>
    (neutral_storeByte _ _).bind fun _ => ?_
  exact (plain_flagsAlso _).bind fun _ => balanced_release

theorem neutral_bitByte : Neutral s (bitByte op signed dest l r) := by
  refine neutral_constants.bind fun x => ?_
  split
  · exact .pure _
  split
  · exact neutral_move
  · exact neutral_byteBinary

/-! ### Words -/

/-- Pinning high bytes opens a reservation for each, the last one first. -/
theorem balanced_holdHigh {os : List Location} :
    Balanced s (.of R P) (holdHigh os) fun held => .of (held ++ R) P := by
  induction os generalizing R with
  | nil => exact .pure _ rfl
  | cons o os ih =>
    refine (plain_byteOf _).bind fun high => .accumulator ?_
    split
    · refine balanced_pin.bind fun held => ih.bind fun rest => .pure _ ?_
      simp
    · exact ih

theorem neutral_carryChain : Neutral s (carryChain op dest l r) := by
  refine fun R P => .accumulator (.ite_bind (neutral_toTemporary _ _) (.pure _ rfl) fun r => ?_)
  refine (plain_byteOf _).bind fun _ => balanced_reserveLoad.bind fun res => ?_
  -- the high bytes stay pinned until both bytes are computed
  refine balanced_holdHigh.bind fun held => (plain_byteOf _).bind fun low => ?_
  refine .unless (neutral_operateWith _ _) ?_
  refine (plain_byteOf _).bind fun _ => (neutral_storeByte _ _).bind fun _ => ?_
  refine (plain_byteOf _).bind fun _ => balanced_pinAt.bind fun pinned => ?_
  refine (plain_byteOf _).bind fun _ => (neutral_loadByte _ _).bind fun _ => ?_
  refine (plain_byteOf _).bind fun _ => (neutral_operateWith _ _).bind fun _ => ?_
  refine (plain_byteOf _).bind fun _ => (neutral_storeByte _ _).bind fun _ => ?_
  refine (plain_byteOf _).bind fun _ => (plain_flagsAlso _).bind fun _ => ?_
  exact balanced_unpin.bind fun _ => balanced_releaseAll.bind fun _ => balanced_release

theorem neutral_wordArithmetic {n : Nat} : Neutral s (wordArithmetic op dest l r n) := by
  induction n generalizing dest with
  | zero => exact neutral_carryChain
  | succ n ih =>
    have hclobbers : Neutral s (wordArithmetic.clobbersHighOrAccumulator dest l r) := by
      refine plain_clobbersHigh.neutral.bind fun _ => .ite (.pure _) fun R P => .arch (.pure _ rfl)
    refine neutral_nativeBinary.bind fun computed => .ite plain_written.neutral ?_
    refine hclobbers.bind fun clobbers => .ite ?_ neutral_carryChain
    exact (plain_temporary 2).neutral.bind fun t => ih.bind fun _ => neutral_move

theorem neutral_bitHalves : Neutral s (bitHalves op signed dest l r) := by
  refine fun R P => balanced_holdHigh.bind fun held => ?_
  refine (plain_byteOf _).bind fun _ => (plain_byteOf _).bind fun _ =>
    (plain_byteOf _).bind fun _ => ?_
  refine (neutral_bitByte _ _).bind fun _ => ?_
  refine (plain_byteOf _).bind fun _ => balanced_pinAt.bind fun pinned => ?_
  refine (plain_byteOf _).bind fun _ => (plain_byteOf _).bind fun _ =>
    (plain_byteOf _).bind fun _ => ?_
  refine (neutral_bitByte _ _).bind fun _ => ?_
  exact balanced_unpin.bind fun _ => balanced_releaseAll

theorem neutral_wordBit {n : Nat} : Neutral s (wordBit op signed dest l r n) := by
  induction n generalizing dest l r with
  | zero => exact neutral_bitHalves
  | succ n ih =>
    refine neutral_constants.bind fun x => ?_
    split
    · exact .pure _
    refine neutral_nativeBinary.bind fun computed => .ite plain_written.neutral ?_
    refine plain_clobbersHigh.neutral.bind fun clobbers => .ite ?_ neutral_bitHalves
    exact (plain_temporary 2).neutral.bind fun t => ih.bind fun _ => neutral_move

/-! ### Instructions -/

/-- **Addition and subtraction.** -/
theorem neutral_addOrSubtract {dest left right : Operand} :
    Neutral s (addOrSubtract op dest left right) := by
  refine (neutral_locate dest).bind fun d => (neutral_locate left).bind fun l =>
    (neutral_locate right).bind fun r => ?_
  refine .when plain_requireWords.neutral (neutral_constants.bind fun x => ?_)
  split
  · exact .pure _
  refine .ite neutral_move ?_
  dsimp only
  split
  · refine neutral_stepInPlace.bind fun counted => .ite (.pure _) ?_
    exact .ite neutral_wordArithmetic neutral_byteBinary
  · exact .ite neutral_wordArithmetic neutral_byteBinary

/-- **Bitwise operations.** -/
theorem neutral_bitwise {dest left right : Operand} : Neutral s (bitwise op dest left right) := by
  refine (neutral_locate dest).bind fun d => (neutral_locate left).bind fun l =>
    (neutral_locate right).bind fun r => ?_
  exact .ite (plain_requireWords.neutral.bind fun _ => neutral_wordBit) neutral_bitByte

theorem neutral_negateLocated {op : UnaryOp} : Neutral s (negateLocated op dest l) := by
  refine fun R P =>
    .accumulator ((plain_byteOf _).bind fun _ => balanced_reserveLoad.bind fun res => ?_)
  refine (plain_complement _).bind fun _ => .when (neutral_operateWith _ _) ?_
  refine (plain_byteOf _).bind fun _ => (neutral_storeByte _ _).bind fun _ => ?_
  dsimp only
  split
  · refine (plain_byteOf _).bind fun _ => balanced_pinAt.bind fun pinned => ?_
    refine (plain_byteOf _).bind fun _ => (neutral_loadByte _ _).bind fun _ => ?_
    refine (plain_complement _).bind fun _ => .when (neutral_operateWith _ _) ?_
    refine (plain_byteOf _).bind fun _ => (neutral_storeByte _ _).bind fun _ => ?_
    exact balanced_unpin.bind fun _ => balanced_release
  · exact balanced_release

/-- **Negation and complement.** -/
theorem neutral_negate {op : UnaryOp} {dest source : Operand} :
    Neutral s (negate op dest source) := by
  refine (neutral_locate dest).bind fun d => (neutral_locate source).bind fun l => ?_
  have happart : ∀ apart : Bool, Neutral s (do
      if apart then
        let t ← temporary 2
        negateLocated op t l
        move d t
      else negateLocated op d l) := by
    intro apart
    refine .ite ?_ neutral_negateLocated
    exact (plain_temporary 2).neutral.bind fun t => neutral_negateLocated.bind fun _ => neutral_move
  split
  · exact neutral_move
  dsimp only
  refine .ite ?_ (happart false)
  exact plain_clobbersHigh.neutral.bind fun overlap R P => .arch (happart _ R P)

/-! ### Shifts and multiplication -/

theorem neutral_times (n : Nat) {act : Build Unit} (h : Neutral s act) : Neutral s (times n act) :=
  .forM fun _ _ => h

theorem neutral_shiftByte {k : Nat} {left : Bool} : Neutral s (shiftByte dest l k left signed) := by
  refine fun R P => .accumulator ?_
  split
  · exact neutral_move R P
  split
  · split
    · refine balanced_reserveLoad.bind fun res => (plain_signFill _).bind fun _ => ?_
      exact (neutral_storeByte _ _).bind fun _ => balanced_release
    · exact neutral_move R P
  refine .ite_bind (neutral_shiftByteInPlace _ _) (.pure _ rfl) fun inPlace => ?_
  dsimp only
  split
  · exact neutral_times _ neutral_shiftByteInPlace.discard R P
  · refine balanced_reserveLoad.bind fun res => ?_
    refine (neutral_times k plain_shiftAccumulator.neutral _ _).bind fun _ => ?_
    exact (neutral_storeByte _ _).bind fun _ => balanced_release

theorem neutral_shiftSignedByteDown : Neutral s (shiftSignedByteDown dest l) := by
  refine fun R P =>
    .accumulator ((plain_byteOf _).bind fun _ => balanced_reserveLoad.bind fun res => ?_)
  refine (plain_byteOf _).bind fun _ => (neutral_storeByte _ _).bind fun _ => ?_
  refine (plain_byteOf _).bind fun _ => balanced_pinAt.bind fun pinned => ?_
  refine (plain_signFill _).bind fun _ => (plain_byteOf _).bind fun _ => ?_
  exact (neutral_storeByte _ _).bind fun _ => balanced_unpin.bind fun _ => balanced_release

theorem neutral_moveByteAndClear {into source : Int} :
    Neutral s (moveByteAndClear dest l into source) := by
  refine fun R P => (plain_byteOf _).bind fun _ => (plain_byteOf _).bind fun _ => ?_
  refine (neutral_moveByte _ _).bind fun _ => ?_
  refine (plain_byteOf _).bind fun _ => balanced_pinAt.bind fun pinned => ?_
  exact (plain_byteOf _).bind fun _ => (neutral_moveByte _ _).bind fun _ => balanced_unpin

theorem neutral_apartFrom {written read : Int} : Neutral s (apartFrom dest l written read) := by
  refine plain_byteOf.neutral.bind fun _ => plain_byteOf.neutral.bind fun _ => ?_
  exact .ite neutral_toTemporary (.pure _)

theorem neutral_shiftBytes {left : Bool} : Neutral s (shiftBytes dest l left signed) := by
  refine .ite ?_ ?_
  · exact neutral_apartFrom.bind fun _ => neutral_moveByteAndClear
  refine neutral_apartFrom.bind fun l => .ite neutral_moveByteAndClear fun R P => .arch ?_
  split
  · refine (plain_temporary _ _).bind fun t => (neutral_apartFrom _ _).bind fun _ => ?_
    exact (neutral_shiftSignedByteDown _ _).bind fun _ => neutral_move R P
  · exact neutral_shiftSignedByteDown R P

theorem neutral_shiftBits {k : Nat} {left : Bool} : Neutral s (shiftBits dest l k left signed) := by
  refine fun R P => .ite_bind (neutral_shiftWordInPlace _ _) (.pure _ rfl) fun inPlace => ?_
  dsimp only
  split
  · exact neutral_times _ neutral_shiftWordInPlace.discard R P
  refine .arch ((balanced_reserveAny _ _).bind fun x => (neutral_move _ _).bind fun _ => ?_)
  refine (neutral_times k ?_ _ _).bind fun _ => (neutral_move _ _).bind fun _ => balanced_release
  exact neutral_shiftWordInPlace.bind fun _ => .ite (.pure _) (.throw rfl)

theorem neutral_shiftWord {k : Nat} {left : Bool} : Neutral s (shiftWord dest l k left signed) := by
  refine fun R P => .accumulator ?_
  split
  · exact neutral_move R P
  split
  · split
    · refine (plain_byteOf _).bind fun _ => balanced_reserveLoad.bind fun res => ?_
      refine (plain_signFill _).bind fun _ => ?_
      refine (plain_byteOf _).bind fun _ => (neutral_storeByte _ _).bind fun _ => ?_
      refine (plain_byteOf _).bind fun _ => (neutral_storeByte _ _).bind fun _ => ?_
      exact balanced_release
    · exact neutral_move R P
  split
  · refine (neutral_shiftBytes _ _).bind fun _ => ?_
    exact Neutral.ite neutral_shiftBits (.pure _) R P
  · exact neutral_shiftBits R P

theorem neutral_shiftConstant {k : Nat} {left : Bool} :
    Neutral s (shiftConstant dest l k left signed) :=
  .ite neutral_shiftWord neutral_shiftByte

/-- Two registers are taken, a routine is called on them, and the result is moved out of one. -/
theorem neutral_shiftRuntime {left : Bool}
    (hc : s.Calls (s.target.arch.routine (shiftRoutine left signed) dest.width)) :
    Neutral s (shiftRuntime dest l r left signed) := by
  refine fun R P => .arch ?_
  refine balanced_reserveFor.bind fun heldValue => balanced_reserveFor.bind fun heldCounter => ?_
  refine (plain_byteOf _).bind fun _ => (neutral_loadTwo _ _).bind fun _ => ?_
  refine (neutral_call hc _ _).bind fun _ => (neutral_move _ _).bind fun _ => ?_
  exact balanced_release.bind fun _ => balanced_release

/-- **Shifts.** The routine is called for a count that is no constant. -/
theorem neutral_shift {left : Bool} {dest source count : Operand} (hc : count.isConstant = false →
      s.Calls (s.target.arch.routine (shiftRoutine left (!left && source.type.signed))
        dest.type.byteCount)) :
    Neutral s (shift left dest source count) := by
  refine .locate (.locate (.locate (.when plain_requireWords.neutral ?_)))
  dsimp only
  split
  · exact neutral_move
  · exact neutral_shiftConstant
  · rename_i hr
    refine neutral_shiftRuntime ?_
    rw [Operand.width_located]
    exact hc (Operand.isConstant_of_located hr)

theorem neutral_multiplyRuntime
    (hc : s.Calls (s.target.arch.routine "Multiply" dest.width)) :
    Neutral s (multiplyRuntime dest l r) := by
  refine fun R P => .arch ?_
  dsimp only
  refine balanced_reserveFor.bind fun heldValue => balanced_reserveFor.bind fun heldFactor => ?_
  refine (neutral_loadTwo _ _).bind fun _ => ?_
  refine (neutral_call hc _ _).bind fun _ => (neutral_move _ _).bind fun _ => ?_
  exact balanced_release.bind fun _ => balanced_release

/-- Multiplying by a constant. The routine is called unless it is a power of two. -/
theorem neutral_multiplyConstant {d : Location} {k : Int}
    (hc : isPowerOfTwo k = false → s.Calls (s.target.arch.routine "Multiply" d.width)) :
    Neutral s (if k == 0 then move d (.immediate 0 d.width)
      else if k == 1 then move d l
      else if isPowerOfTwo k then shiftConstant d l (exponent k) true false
      else multiplyRuntime d l r) := by
  refine .ite neutral_move (.ite neutral_move ?_)
  split
  · exact neutral_shiftConstant
  · rename_i hpower
    exact neutral_multiplyRuntime (hc (by simpa using hpower))

/-- **Multiplication.** The routine is called if no factor is a power of two. -/
theorem neutral_multiply {dest left right : Operand}
    (hc : left.isPowerOfTwo = false → right.isPowerOfTwo = false →
      s.Calls (s.target.arch.routine "Multiply" dest.type.byteCount)) :
      Neutral s (multiply dest left right) := by
  refine .locate (.locate (.locate (.when plain_requireWords.neutral ?_)))
  rw [← Operand.width_located dest s.registers] at hc
  have hleft : ∀ {k}, (left.located s.registers).constant? = some k → isPowerOfTwo k = false →
      left.isPowerOfTwo = false := fun hk hpower =>
    Bool.eq_false_iff.mpr fun h => by simp [isPowerOfTwo_located h hk] at hpower
  have hright : ∀ {k}, (right.located s.registers).constant? = some k → isPowerOfTwo k = false →
      right.isPowerOfTwo = false := fun hk hpower =>
    Bool.eq_false_iff.mpr fun h => by simp [isPowerOfTwo_located h hk] at hpower
  unfold constants
  cases hl : (left.located s.registers).constant? with
  | some a =>
    cases hr : (right.located s.registers).constant? with
    | some b =>
      dsimp only
      rw [bind_assoc]
      exact neutral_move.bind fun _ => .pure _
    | none =>
      dsimp only
      rw [pure_bind]
      simp only [BinaryOp.commutative, if_true, hl]
      exact neutral_multiplyConstant fun hpower =>
        hc (hleft hl hpower) (Operand.isPowerOfTwo_of_not (Operand.isConstant_of_located hr))
  | none =>
    have hl := Operand.isPowerOfTwo_of_not (Operand.isConstant_of_located hl)
    dsimp only
    rw [pure_bind]
    cases hr : (right.located s.registers).constant? with
    | some b =>
      simp only [hr]
      exact neutral_multiplyConstant fun hpower => hc hl (hright hr hpower)
    | none =>
      simp only [hr]
      exact neutral_multiplyRuntime
        (hc hl (Operand.isPowerOfTwo_of_not (Operand.isConstant_of_located hr)))

end Build

end Octet
