import Octet.Proofs.Balance.Moves

/-!
# Operations are balanced

Accumulator operations, counting, testing and shifting by one bit leave the open reservations and
their level as they are. What an operation has to hold on to until it is done comes back in its
result, and is released by whoever asked for it.

## Main results

* `Arch.straight_operation` — accumulator operations neither move the stack nor transfer control
* `Build.neutral_operate` — applying an operation to an operand anywhere
* `Build.neutral_step` — counting in place
* `Build.balanced_testByte` — testing a byte
* `Build.neutral_shiftWordInPlace`, `Build.neutral_nativeBinary` — word operations
-/

namespace Octet

open Assembly

/-- The mnemonics of an operation. -/
def Operation.mnemonics (o : Operation) : List String := o.setup.toList ++ [o.register, o.immediate]

/-- An operation that neither moves the stack nor transfers control. -/
def Operation.Straight (o : Operation) : Prop := ∀ op ∈ o.mnemonics, op ∉ specialOps

instance (o : Operation) : Decidable o.Straight :=
  inferInstanceAs (Decidable (∀ op ∈ o.mnemonics, op ∉ specialOps))

/-- The operations of all machines are straight. -/
theorem Arch.straight_operation {m : Arch} {op : BinaryOp} {carry : Bool} {o : Operation}
    (h : m.operation? op carry = some o) : o.Straight := by
  cases m <;> cases op <;> cases carry <;> cases h <;> decide

theorem Mos.plain_compareOp (r : Register) : Mos.compareOp r ∉ specialOps := by
  unfold Mos.compareOp
  split
  · decide
  · exact plain_append (by decide) r.name

section

variable {s : Site} {R : List Reservation} {P : List (String × Level)} {l : Location}
  {down left signed : Bool} {op : BinaryOp}

open Build

/-! ### Accumulator operations -/

/-- The pair `hl` stays reserved while it points at an operand. -/
theorem Intel.balanced_pointAt : Balanced s (.of R P) (Intel.pointAt l) fun res =>
    .of (res :: R) P :=
  balanced_reserve.bind fun _ => (plain_emit (by decide) _).bind fun _ => .pure _ rfl

namespace Build

/-- On the 8080 an operand in memory is behind `hl`, which stays reserved for it. -/
theorem balanced_directOperand : Balanced s (.of R P) (directOperand l) fun x =>
    .of (x.2.toList ++ R) P := by
  refine .arch ?_
  split
  · exact (Intel.plain_regArg _).bind fun _ => .pure _ rfl
  · exact (Intel.balanced_pointAt).bind fun _ => .pure _ rfl
  · exact .throw rfl
  · exact (plain_argOf _).bind fun _ => .pure _ rfl
  · exact (neutral_toTemporaryByte _ _).bind fun t => (plain_argOf _).bind fun _ => .pure _ rfl
  · exact .throw rfl

theorem balanced_indirectOperand {p : Reached} :
    Balanced s (.of R P) (indirectOperand p) fun x => .of (x.2.toList ++ R) P := by
  refine .arch ?_
  split
  · exact .pure _ rfl
  · exact balanced_reserve.bind fun _ => (neutral_loadDirect _ _).bind fun _ => .pure _ rfl

/-- An operation sets up the carry first if it has to. -/
theorem plain_emitOperation {o : Operation} (ho : o.Straight) {immediate : Bool} {arg : Arg} :
    Plain s (emitOperation o immediate arg) := by
  have hform : Plain s (emit (if immediate then o.immediate else o.register) [arg]) := by
    refine plain_emit (ho _ ?_)
    cases immediate <;> simp [Operation.mnemonics]
  unfold emitOperation
  cases hsetup : o.setup with
  | none => exact hform
  | some setup =>
    exact (plain_emit (ho setup (by simp [Operation.mnemonics, hsetup]))).bind fun _ => hform

/-- **Applying an operation** to an operand anywhere. -/
theorem neutral_operate {o : Operation} (ho : o.Straight) : Neutral s (operate o l) := by
  intro R P
  unfold operate
  split
  · exact (plain_argOf _).bind fun arg => plain_emitOperation ho _
  · exact (plain_argOf _).bind fun arg => plain_emitOperation ho _
  · refine balanced_pointer.bind fun p => balanced_indirectOperand.bind fun x => ?_
    refine (plain_emitOperation ho _).bind fun _ => balanced_unpin.bind fun _ => ?_
    exact balanced_done p
  · refine balanced_directOperand.bind fun x => (plain_emitOperation ho _).bind fun _ => ?_
    exact balanced_unpin

/-- An operation of the accumulator, with the carry or without. -/
theorem neutral_operateWith {carry : Bool} : Neutral s (operateWith op carry l) := by
  refine fun R P => .arch ?_
  split
  · rename_i o ho
    exact neutral_operate (Arch.straight_operation ho) R P
  · exact .throw rfl

theorem plain_complement : Plain s complement := by
  refine fun k => .arch ?_
  split
  · exact plain_emit (by decide) k
  · exact plain_emit (by decide) k

end Build

/-! ### Counting in place -/

/-- Counting an index register or a byte of memory; the accumulator is left to others. -/
theorem Mos.neutral_stepByte : Build.Neutral s (Mos.stepByte l down) := by
  have hop : ∀ name, (if down then "de" else "in") ++ name ∉ specialOps := by
    intro name
    cases down
    · exact plain_append (by decide) name
    · exact plain_append (by decide) name
  unfold Mos.stepByte
  split
  · split
    · exact .pure _
    · exact ((plain_nameOf _).bind fun name => (plain_emit (hop name)).bind fun _ =>
        .pure _).neutral
  · refine (plain_argOf.bind fun arg => (plain_emit ?_).bind fun _ =>
      plain_flagsFrom.bind fun _ => .pure _).neutral
    cases down <;> decide
  · exact .pure _

/-- Counting a word in memory. The label that is skipped to stands for the level at which the
accumulator is taken, which shows only once it is. -/
theorem Mos.neutral_stepWord : Build.Neutral s (Mos.stepWord l down) := by
  intro R P
  unfold Mos.stepWord
  split
  · exact .pure _ rfl
  refine Defers.balanced fun skip => ?_
  refine .bind (fun _ => plain_byteOf _) fun lowByte => .bind (fun _ => plain_argOf _) fun low => ?_
  refine .bind (fun _ => plain_byteOf _) fun highByte =>
    .bind (fun _ => plain_argOf _) fun high => ?_
  split
  · refine .bind (Q := fun held => .of (held :: R) P) (fun l => balanced_reserve)
      fun held => .of_balanced (.of (held :: R)) ?_
    refine (plain_emit (by decide) _).bind fun _ => ?_
    refine (balanced_branchLocal (by decide) (.head _)).bind fun _ =>
      (plain_emit (by decide) _).bind fun _ => ?_
    refine (balanced_label skip).bind fun _ => (plain_emit (by decide) _).bind fun _ => ?_
    exact balanced_release.bind fun _ => .pure _ rfl
  · refine .of_balanced (.of R) ?_
    refine (plain_emit (by decide) _).bind fun _ => ?_
    refine (balanced_branchLocal (by decide) (.head _)).bind fun _ =>
      (plain_emit (by decide) _).bind fun _ => ?_
    exact (balanced_label skip).bind fun _ => .pure _ rfl

/-- Counting a word in memory with the wide accumulator. -/
theorem Mos.neutral_stepWide : Build.Neutral s (Mos.stepWide l down) := by
  unfold Mos.stepWide
  split
  · exact .pure _
  refine plain_argOf.neutral.bind fun arg => (Mos.neutral_wide ?_).bind fun _ => .pure _
  cases down
  · simpa using (by decide : "inc" ∉ specialOps)
  · simpa using (by decide : "dec" ∉ specialOps)

/-- A byte of memory is counted behind `hl`, which is saved around it. -/
theorem Intel.neutral_stepByte : Build.Neutral s (Intel.stepByte l down) := by
  have hop : (if down then "dcr" else "inr") ∉ specialOps := by cases down <;> decide
  unfold Intel.stepByte
  dsimp only
  split
  · exact ((Intel.plain_regArg).bind fun _ => (plain_emit hop).bind fun _ => .pure _).neutral
  · refine fun R P => (Intel.balanced_pointAt).bind fun held => (plain_emit hop _).bind fun _ => ?_
    exact balanced_release.bind fun _ => (plain_flagsFrom _).bind fun _ => .pure _ rfl
  · exact .pure _

/-- A pair is counted by one instruction. -/
theorem Intel.plain_stepWord : Plain s (Intel.stepWord l down) := by
  refine (Intel.plain_pairAt?).bind fun p => ?_
  split
  · refine (plain_ofExcept (Intel.harmless_pairArg _)).bind fun _ =>
      (plain_emit ?_).bind fun _ => .pure _
    cases down <;> decide
  · exact .pure _

namespace Build

theorem neutral_stepByte : Neutral s (stepByte l down) := by
  refine fun R P => .arch ?_
  split
  · exact Intel.neutral_stepByte R P
  · exact Mos.neutral_stepByte R P

/-- Counting a word, as the machine does it. -/
theorem neutral_stepWord : Neutral s (stepWord l down) := by
  refine fun R P => .arch ?_
  split
  · exact Mos.neutral_stepWord R P
  · exact Mos.neutral_stepWide R P
  · exact (Intel.plain_stepWord).neutral R P

/-- **Counting in place.** -/
theorem neutral_step : Neutral s (step l down) :=
  .ite neutral_stepWord neutral_stepByte

/-! ### Tests -/

/-- A register that is tested where it is needs no other one. -/
theorem plain_testInPlace : Plain s (testInPlace l) := by
  refine fun k => .arch ?_
  split
  · refine (Intel.plain_regArg k).bind fun arg => ?_
    split
    · exact (plain_emit (by decide) k).bind fun _ => .pure _ rfl
    · exact (plain_emitAll (fun _ => rfl) k).bind fun _ => .pure _ rfl
  · exact .pure _ rfl
  · split
    · exact (plain_emit (by decide) k).bind fun _ => .pure _ rfl
    split
    · refine (plain_present k).bind fun r => (plain_emit (Mos.plain_compareOp r) k).bind fun _ =>
        .pure _ rfl
    · exact .pure _ rfl

/-- **Testing a byte** leaves the accumulator to be released if it was needed. -/
theorem balanced_testByte : Balanced s (.of R P) (testByte l) fun o => .of (o.toList ++ R) P := by
  have hload : Balanced s (.of R P) (do
      let acc := Location.ofRegister (← accumulator)
      let res ← reserveLoad (← accumulator) l
      unless ← flagsShow acc do
        discard (testInPlace acc)
        flagsFrom acc
      return some res) fun o => .of (o.toList ++ R) P := by
    refine .accumulator (.accumulator ?_)
    refine balanced_reserveLoad.bind fun res => (plain_flagsShow _).bind fun shown => ?_
    split
    · exact .pure _ rfl
    · exact (plain_testInPlace.discard _).bind fun _ => (plain_flagsFrom _).bind fun _ =>
        .pure _ rfl
  refine (plain_flagsShow _).bind fun shown => ?_
  split
  · exact .pure _ rfl
  split
  · refine (plain_testInPlace _).bind fun tested => ?_
    dsimp only
    split
    · exact (plain_flagsFrom _).bind fun _ => .pure _ rfl
    · exact hload
  · rw [pure_bind]
    exact hload

end Build

/-! ### Shifts by one bit -/

/-- The sign of a byte is copied into the carry through a register that is free. -/
theorem Mos.neutral_signToCarry : Build.Neutral s (Mos.signToCarry l) := by
  refine fun R P => (balanced_reserveAny _ _).bind fun x => (neutral_loadByte _ _).bind fun _ => ?_
  exact (plain_emit (Mos.plain_compareOp x.1) _).bind fun _ => balanced_release

theorem Mos.neutral_shiftByteInPlace : Build.Neutral s (Mos.shiftByteInPlace l left signed) := by
  have hdone : Build.Neutral s (do flagsFrom l; pure true) :=
    plain_flagsFrom.neutral.bind fun _ => .pure _
  unfold Mos.shiftByteInPlace
  split
  · exact .pure _
  refine plain_argOf.neutral.bind fun arg => ?_
  split
  · exact (plain_emit (by decide)).neutral.bind fun _ => hdone
  split
  · refine (Mos.neutral_signToCarry).bind fun _ => ?_
    exact (plain_emit (by decide)).neutral.bind fun _ => hdone
  · exact (plain_emit (by decide)).neutral.bind fun _ => hdone

/-- A word in memory is shifted byte by byte, with the carry between them. -/
theorem Mos.neutral_shiftWord : Build.Neutral s (Mos.shiftWord l left signed) := by
  unfold Mos.shiftWord
  split
  · exact .pure _
  refine plain_byteOf.neutral.bind fun lowByte => plain_byteOf.neutral.bind fun highByte => ?_
  refine plain_argOf.neutral.bind fun low => plain_argOf.neutral.bind fun high => ?_
  split
  · exact ((plain_emit (by decide)).bind fun _ => (plain_emit (by decide)).bind fun _ =>
      .pure _).neutral
  split
  · refine (Mos.neutral_signToCarry).bind fun _ => ?_
    exact ((plain_emit (by decide)).bind fun _ => (plain_emit (by decide)).bind fun _ =>
      .pure _).neutral
  · exact ((plain_emit (by decide)).bind fun _ => (plain_emit (by decide)).bind fun _ =>
      .pure _).neutral

theorem Mos.neutral_shiftWide : Build.Neutral s (Mos.shiftWide l left signed) := by
  unfold Mos.shiftWide
  split
  · exact .pure _
  refine plain_argOf.neutral.bind fun arg => ?_
  split
  · refine (Mos.neutral_wide ?_).bind fun _ => .pure _
    simpa using (by decide : "asl" ∉ specialOps)
  split
  · refine fun R P => balanced_reserve.bind fun held => (Mos.neutral_wide ?_ _ _).bind fun _ => ?_
    · simpa using ⟨(by decide : "lda" ∉ specialOps), (by decide : "asl" ∉ specialOps),
        (by decide : "ror" ∉ specialOps)⟩
    · exact balanced_release.bind fun _ => .pure _ rfl
  · refine (Mos.neutral_wide ?_).bind fun _ => .pure _
    simpa using (by decide : "lsr" ∉ specialOps)

/-- `hl` is doubled by adding it to itself; other pairs are shifted through the accumulator. -/
theorem Intel.neutral_shiftWord : Build.Neutral s (Intel.shiftWord l left signed) := by
  have hcode : ∀ low high : Arg, Plain s (emitAll (Intel.shiftCode low high left signed)) := by
    intro low high
    cases left <;> cases signed <;> exact plain_emitAll fun _ => rfl
  refine (Intel.plain_pairAt?).neutral.bind fun p => ?_
  split
  · exact .pure _
  split
  · exact ((plain_emit (by decide)).bind fun _ => .pure _).neutral
  refine (Intel.plain_regArg).neutral.bind fun low => (Intel.plain_regArg).neutral.bind fun high =>
    ?_
  refine fun R P => balanced_reserve.bind fun held => (hcode low high _).bind fun _ => ?_
  exact balanced_release.bind fun _ => .pure _ rfl

namespace Build

/-- The accumulator is shifted by instructions of the machine only. -/
theorem plain_shiftAccumulator : Plain s (shiftAccumulator left signed) := by
  refine fun k => .arch ?_
  split
  · split
    · exact plain_emit (by decide) k
    split
    · exact plain_emitAll (fun _ => rfl) k
    · exact plain_emitAll (fun _ => rfl) k
  · split
    · exact plain_emit (by decide) k
    split
    · exact plain_emitAll (fun _ => rfl) k
    · exact plain_emit (by decide) k

theorem neutral_shiftByteInPlace : Neutral s (shiftByteInPlace l left signed) := by
  refine fun R P => .arch ?_
  split
  · exact .pure _ rfl
  · exact Mos.neutral_shiftByteInPlace R P

theorem neutral_shiftWordInPlace : Neutral s (shiftWordInPlace l left signed) := by
  refine fun R P => .arch ?_
  split
  · exact Mos.neutral_shiftWord R P
  · exact Mos.neutral_shiftWide R P
  · exact Intel.neutral_shiftWord R P

end Build

/-! ### Word operations by one instruction -/

/-- An operation on two words in memory with the wide accumulator. -/
theorem Mos.neutral_binaryWide {dest left right : Location} :
    Build.Neutral s (Mos.binaryWide op dest left right) := by
  unfold Mos.binaryWide
  split
  · exact .pure _
  rename_i o ho
  have hstraight : o.Straight := Arch.straight_operation ho
  split
  · exact .pure _
  refine fun R P => balanced_reserve.bind fun held => (plain_argOf _).bind fun x => ?_
  refine (plain_argOf _).bind fun y => (plain_argOf _).bind fun z => ?_
  refine (Mos.neutral_wide ?_ _ _).bind fun _ => balanced_release.bind fun _ => .pure _ rfl
  have hform : (if right.isImmediate then o.immediate else o.register) ∉ specialOps := by
    refine hstraight _ ?_
    split <;> simp [Operation.mnemonics]
  intro i hi
  simp only [List.mem_append, List.mem_cons, List.not_mem_nil, or_false] at hi
  rcases hi with (rfl | hi) | rfl | rfl
  · exact (by decide : "lda" ∉ specialOps)
  · cases hsetup : o.setup with
    | none => simp [hsetup] at hi
    | some setup =>
      obtain rfl : i = ⟨setup, []⟩ := by simpa [hsetup] using hi
      exact hstraight setup (by simp [Operation.mnemonics, hsetup])
  · exact hform
  · exact (by decide : "sta" ∉ specialOps)

/-- A pair is added to `hl`, or a constant, which is loaded into a free pair first. -/
theorem Intel.neutral_addToHl {dest left right : Location} :
    Build.Neutral s (Intel.addToHl dest left right) := by
  unfold Intel.addToHl
  split
  · exact .pure _
  generalize (if left.isIn Intel.hl then (left, right) else (right, left)) = operands
  dsimp only
  split
  · exact .pure _
  refine (Intel.plain_pairAt?).neutral.bind fun pair => ?_
  split
  · exact ((plain_ofExcept (Intel.harmless_pairArg _)).bind fun _ =>
      (plain_emit (by decide)).bind fun _ =>
      .pure _).neutral
  split
  · exact .pure _
  -- the constant is loaded into a pair that is free
  have hadd : ∀ p : Register, Build.Neutral s (do
      let held ← reserve p
      let pair ← Build.ofExcept (Intel.pairArg p)
      emit "lxi" [pair, ← argOf operands.2]
      emit "dad" [pair]
      release held
      return true) := by
    refine fun p R P => balanced_reserve.bind fun held => ?_
    refine (plain_ofExcept (Intel.harmless_pairArg p) _).bind fun _ =>
      (plain_argOf _).bind fun _ => ?_
    refine (plain_emit (by decide) _).bind fun _ => (plain_emit (by decide) _).bind fun _ => ?_
    exact balanced_release.bind fun _ => .pure _ rfl
  simp only [pure_bind]
  refine (plain_inUse Intel.de).neutral.bind fun usesDe => .ite ?_ (hadd Intel.de)
  refine (plain_inUse Intel.bc).neutral.bind fun usesBc => ?_
  cases usesBc with
  | true => exact .pure _
  | false => exact hadd Intel.bc

theorem Build.neutral_nativeBinary {dest left right : Location} :
    Build.Neutral s (nativeBinary op dest left right) := by
  refine fun R P => .arch ?_
  split
  · exact .pure _ rfl
  · exact Mos.neutral_binaryWide R P
  · exact Neutral.ite Intel.neutral_addToHl (.pure _) R P

end

end Octet
