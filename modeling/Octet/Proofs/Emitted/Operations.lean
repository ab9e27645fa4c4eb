import Octet.Proofs.Emitted.Moves

/-!
# Operations

Accumulator operations, counting, tests and shifts take their operand where it is: at its symbol, in
a register, or behind a pointer, or are declined. An accumulator operation takes a byte register or
the byte behind `hl` on the 8080, which is pointed at memory at a symbol; it takes memory on the
6502 family, where a register is stored to a scratch cell first.

## Main definitions

* `Arch.isOperand`, `Operation.Known` — operands of accumulator instructions, and operations with
  them

## Main results

* `Arch.known_operation` — the operations of a machine
* `Build.keeps_operate` — applying an operation to an operand anywhere
* `Build.keeps_step`, `Build.brings_testByte` — counting in place, and testing a byte
* `Build.keeps_shiftByteInPlace`, `Build.keeps_shiftWordInPlace`, `Build.keeps_nativeBinary` —
  shifts, and words
-/

namespace Octet

open Assembly

/-- What an accumulator instruction takes besides constants. -/
def Arch.isOperand : Arch → Arg → Bool
  | .i8080, a => a.isReg Intel.byteOperands
  | _, a => a.isCell

/-- The machine has the operation with a constant operand. -/
structure Operation.TakesConstants (m : Arch) (o : Operation) : Prop where
  setup : ∀ op ∈ o.setup, m.executes ⟨op, []⟩ = true
  immediate : ∀ a : Arg, a.isConstant = true → m.executes ⟨o.immediate, [a]⟩ = true

/-- **The machine has the operation.** -/
structure Operation.Known (m : Arch) (o : Operation) : Prop extends o.TakesConstants m where
  register : ∀ a : Arg, m.isOperand a = true → m.executes ⟨o.register, [a]⟩ = true

theorem Mos.isValue_of_isCell {a : Arg} (h : a.isCell = true) :
    a.isValue = true := by simp [Arg.isValue, h]

theorem Mos.isValue_of_isConstant {a : Arg} (h : a.isConstant = true) :
    a.isValue = true := by simp [Arg.isValue, h]

/-- An operation of the 6502 whose operand may be any value. -/
theorem Mos.known_of_isValue {m : Arch} (hm : m ≠ .i8080) {o : Operation}
    (hsetup : ∀ op ∈ o.setup, Mos.executes ⟨op, []⟩ = true)
    (h : ∀ a : Arg, Mos.executes ⟨o.immediate, [a]⟩ = a.isValue ∧
      Mos.executes ⟨o.register, [a]⟩ = a.isValue) :
    o.Known m := by
  have hcell : ∀ a, m.isOperand a = a.isCell := Arch.of_mos hm (fun _ => rfl) fun _ => rfl
  refine ⟨⟨fun op hop => ?_, fun a ha => ?_⟩, fun a ha => ?_⟩ <;> rw [Arch.executes_mos hm]
  · exact hsetup op hop
  · exact (h a).1.trans (isValue_of_isConstant ha)
  · exact (h a).2.trans (isValue_of_isCell ((hcell a).symm.trans ha))

/-- **The operations of a machine.** -/
theorem Arch.known_operation {m : Arch} {op : BinaryOp} {carry : Bool} {o : Operation}
    (h : m.operation? op carry = some o) : o.Known m := by
  cases m with
  | i8080 =>
    cases op <;> cases carry <;> cases h
    all_goals
      refine ⟨⟨by simp, fun a ha => ?_⟩, fun a ha => ?_⟩
      · exact (takes_one _ a).trans ha
      · exact (takes_one _ a).trans ha
  | _ =>
    cases op <;> cases carry <;> cases h
    all_goals exact Mos.known_of_isValue (by decide) (by rintro _ ⟨⟩ <;> rfl) fun a =>
      ⟨takes_one _ a, takes_one _ a⟩

theorem Mos.executes_compareOp {m : Arch} (hm : m ≠ .i8080) {r : Register}
    (hr : r ∈ m.bytes) {a : Arg}
    (ha : a.isValue = true) : Mos.executes ⟨Mos.compareOp r, [a]⟩ = true := by
  rcases Mos.mem_bytes_cases hm hr with rfl | rfl | rfl
  all_goals exact (takes_one _ a).trans ha

/-- An index register, found where it is. -/
theorem Mos.mem_bytes_of_isIn {m : Arch} (hm : m ≠ .i8080) {l : Location} {q : Register}
    (hin : (l.isIn Mos.x || l.isIn Mos.y) = true) (hq : l.register? = some q) : q ∈ m.bytes := by
  have hindex : q = Mos.x ∨ q = Mos.y := by
    simp only [Location.isIn, Bool.or_eq_true, beq_iff_eq] at hin
    rcases hin with hplace | hplace
    all_goals
      simp only [Location.register?, hplace] at hq
      cases hq
    · exact .inl rfl
    · exact .inr rfl
  rcases hindex with rfl | rfl <;> exact Arch.of_mos hm (by decide) (by decide)

/-- A byte of memory at a symbol, unless that is all there is. -/
theorem Location.isMemory_byte? {l b : Location} (h : l.isMemory = true)
    (hwidth : l.width ≠ 1) {i : Int} (hb : l.byte? i = some b) : b.isMemory = true := by
  unfold isMemory at h
  split at h
  · rename_i hplace
    simp only [byte?, beq_iff_eq, hwidth, if_false, hplace] at hb
    cases hb
    rfl
  · cases h

section

variable {s : Site} {D : List String} {X : Prop} {K : Vocabulary s D X}
  {l dest left right : Location} {o : Operation} {p : Reached} {arg : Arg}

open Build

/-- A byte of a location in memory, which is all there is if the location is a byte. -/
theorem Build.cites_byteOfMemory (hl : l.Known K) (h : l.isMemory = true) (hwidth : X → l.width ≠ 1)
    (i : Int) :
    Cites K (byteOf l i) fun b => b.KnownByte K ∧ (X → b.isMemory = true) :=
  cites_present fun _ hb => ⟨(hl.byte? hb).2, fun x => Location.isMemory_byte? h (hwidth x) hb⟩

theorem Build.cites_argOfMemory (hl : l.Named K) (h : X → l.isMemory = true) :
    Cites K (argOf l) fun a => a.Known K.names ∧ (X → a.isFixed = true) :=
  Brings.mono (cites_argOf hl) fun _ _ _ ha => ⟨ha.1, fun x => Location.isFixed_arg (h x) ha.2⟩

/-- Two operands that may have been exchanged. -/
theorem Location.known_exchanged (c : Prop) [Decidable c] (hleft : left.Known K)
    (hright : right.Known K) :
    (if c then (right, left) else (left, right)).1.Known K ∧
      (if c then (right, left) else (left, right)).2.Known K := by
  split
  · exact ⟨hright, hleft⟩
  · exact ⟨hleft, hright⟩

/-! ### Accumulator operations -/

/-- Pointing `hl` at memory. -/
theorem Intel.brings_pointAt (hm : s.target.arch = .i8080) (hl : l.Named K)
    (hmem : l.isMemory = true) :
    Brings K (Intel.pointAt l) fun res K' => res.Known K' := by
  have hsymbol : l.symbol ∈ K.names := by
    unfold Location.isMemory at hmem
    split at hmem
    · rename_i n o home hplace
      simpa [Location.symbol, hplace] using hl.memory n o home hplace
    · cases hmem
  refine (brings_reserve (Intel.mem_registers hm (by decide))).bind fun res K' hle hres => ?_
  exact (keeps_emitIntel hm (by simpa using hle hsymbol) fun _ => rfl).bind fun _ => .pure hres

namespace Build

/-- An operand with a known symbol, and what has to be released after it was used. -/
structure KnownOperand (x : Arg × Option Reservation) (K : Vocabulary s D X) : Prop where
  arg : x.1.Known K.names
  usable : X → s.target.arch.isOperand x.1 = true
  held : ∀ res ∈ x.2, res.Known K

theorem isOperand_mos {m : Arch} (hm : m ≠ .i8080) {a : Arg} (ha : a.isCell = true) :
    m.isOperand a = true :=
  Arch.of_mos hm ha ha

theorem brings_directOperand (hl : l.KnownByte K) : Brings K (directOperand l) KnownOperand := by
  refine .arch ?_
  split
  · rename_i hm hplace
    refine (Intel.cites_regArg hm fun q hq => hl.register q (by rw [hplace, hq])).bind
      fun arg harg => ?_
    exact .pure ⟨harg.1, fun x => by rw [hm]; exact harg.2 x, by simp⟩
  · rename_i hm hplace
    refine (Intel.brings_pointAt hm hl.toNamed (by simp [Location.isMemory, hplace])).bind
      fun res K' _ hres => ?_
    refine .pure ⟨Arg.known_reg, fun _ => by rw [hm]; rfl, ?_⟩
    rintro _ ⟨⟩
    exact hres
  · exact .throw _
  · rename_i hplace hm
    refine (cites_argOfMemory hl.toNamed fun _ => by simp [Location.isMemory, hplace]).bind
      fun arg harg => ?_
    exact .pure ⟨harg.1, fun x => isOperand_mos hm (Location.isCell_of_isFixed (harg.2 x)), by simp⟩
  · rename_i hplace hm
    refine (brings_toTemporaryByte fun q hq => hl.register q (by rw [hplace, hq])).bind
      fun t K' _ ht => ?_
    refine (cites_argOfMemory ht.1.toNamed fun _ => ht.2).bind fun arg harg => ?_
    exact .pure ⟨harg.1, fun x => isOperand_mos hm (Location.isCell_of_isFixed (harg.2 x)), by simp⟩
  · exact .throw _

theorem brings_indirectOperand (hp : p.Known K) : Brings K (indirectOperand p) KnownOperand := by
  refine .arch ?_
  split
  · rename_i hm
    exact .pure ⟨Arg.known_reg, fun _ => by rw [hm]; rfl, by simp⟩
  · rename_i hm
    refine (Mos.brings_reserveY hm).bind fun res K' hle hres => ?_
    refine (keeps_loadDirect (Mos.serves_y hm) (Location.knownByte_immediate _)).bind fun _ =>
      .pure ⟨?_, ?_, ?_⟩
    · exact Arg.known_ind.mpr (K'.mem_address_pointer hm hp.register.1 hp.register.2)
    · exact fun _ => isOperand_mos hm rfl
    · rintro _ ⟨⟩
      exact hres

theorem keeps_emitOperation (hsetup : X → ∀ op ∈ o.setup, s.target.arch.executes ⟨op, []⟩ = true)
    {immediate : Bool} (harg : arg.Known K.names)
    (h : X → s.target.arch.executes ⟨if immediate then o.immediate else o.register, [arg]⟩ = true) :
    Keeps K (emitOperation o immediate arg) := by
  have hoperation : Keeps K (emit (if immediate then o.immediate else o.register) [arg]) :=
    keeps_emit (by simpa using harg) h
  unfold emitOperation
  cases ho : o.setup with
  | none => exact hoperation
  | some op => exact (keeps_emit (by simp) fun x => hsetup x op ho).bind fun _ => hoperation

/-- Applying an operation to a constant. -/
theorem keeps_operateConstant (ho : X → o.TakesConstants s.target.arch) (hl : l.Named K)
    (himmediate : l.isImmediate = true) : Keeps K (operate o l) := by
  have hconstant : Keeps K (do emitOperation o true (← argOf l)) :=
    (cites_argOf hl).bind fun arg harg => keeps_emitOperation
      (fun x => (ho x).setup) harg.1 fun x =>
      (ho x).immediate arg (Location.isConstant_arg himmediate harg.2)
  unfold Location.isImmediate at himmediate
  unfold operate
  split at himmediate
  · rename_i hplace
    rw [hplace]
    exact hconstant
  · rename_i hplace
    rw [hplace]
    exact hconstant
  · cases himmediate

/-- **Applying an operation** to an operand anywhere. -/
theorem keeps_operate (ho : X → o.Known s.target.arch) (hl : l.KnownByte K) :
    Keeps K (operate o l) := by
  have hoperation : ∀ {K : Vocabulary s D X} (x : Arg × Option Reservation), KnownOperand x K →
      Keeps K (emitOperation o false x.1) :=
    fun x hx => keeps_emitOperation (fun h => (ho h).setup) hx.arg fun h =>
      (ho h).register x.1 (hx.usable h)
  cases himm : l.isImmediate with
  | true => exact keeps_operateConstant (fun x => (ho x).toTakesConstants) hl.toNamed himm
  | false =>
    unfold operate
    split
    · rename_i hplace
      simp [Location.isImmediate, hplace] at himm
    · rename_i hplace
      simp [Location.isImmediate, hplace] at himm
    · refine (brings_pointer hl.toNamed).bind fun p K₁ _ hp => ?_
      refine (brings_indirectOperand hp).bind fun x K₂ hle hx => ?_
      refine (hoperation x hx).bind fun _ => (keeps_unpin hx.held).bind fun _ => ?_
      exact keeps_done (hp.mono hle)
    · refine (brings_directOperand hl).bind fun x K' _ hx => ?_
      exact (hoperation x hx).bind fun _ => keeps_unpin hx.held

theorem keeps_operateWith {op : BinaryOp} {carry : Bool} (hl : l.KnownByte K) :
    Keeps K (operateWith op carry l) := by
  refine Brings.arch ?_
  split
  · rename_i o ho
    exact keeps_operate (fun _ => Arch.known_operation ho) hl
  · exact .throw _

theorem keeps_complement : Keeps K complement := by
  refine Brings.arch ?_
  split
  · rename_i hm
    exact keeps_emitIntel hm (by simp) fun _ => rfl
  · rename_i hm
    exact keeps_emitMos hm (by simp) fun _ => rfl

end Build

/-! ### Counting in place -/

theorem Mos.executes_inMemory {op : String} {arg : Arg}
    (hop : op ∈ ["asl", "lsr", "rol", "ror", "inc", "dec"])
    (harg : arg.isFixed = true) : Mos.executes ⟨op, [arg]⟩ = true := by
  cases arg with
  | mem =>
    fin_cases hop
    all_goals rfl
  | _ => cases harg

/-- An instruction that works in memory. -/
theorem Mos.keeps_inMemory (hm : s.target.arch ≠ .i8080) {op : String}
    (hop : op ∈ ["asl", "lsr", "rol", "ror", "inc", "dec"])
    (harg : arg.Known K.names ∧ (X → arg.isFixed = true)) :
    Keeps K (emit op [arg]) :=
  keeps_emitMos hm (by simpa using harg.1) fun x => Mos.executes_inMemory hop (harg.2 x)

/-- An instruction that works in memory, with a wide accumulator. -/
theorem Mos.keeps_wideInMemory (hm : s.target.arch ≠ .i8080) {op : String}
    (hop : op ∈ ["asl", "lsr", "rol", "ror", "inc", "dec"]) (harg : arg.Known K.names)
    (hfixed : arg.isFixed = true) :
    Keeps K (emitAll (Mos.wide [⟨op, [arg]⟩])) := by
  refine keeps_emitAll (Mos.known_wide hm fun i hi => ?_)
  obtain rfl := List.mem_singleton.mp hi
  exact Mos.known_mos hm (by simpa using harg) (Mos.executes_inMemory hop hfixed)

theorem Mos.keeps_stepByte (hm : s.target.arch ≠ .i8080) (hl : l.KnownByte K) {down : Bool} :
    Keeps K (Mos.stepByte l down) := by
  unfold Mos.stepByte
  split
  · rename_i r hplace
    split
    · exact .pure _
    rename_i ha
    refine (cites_byteName fun q hq => hl.register q (by rw [hplace, hq])).bind ?_
    rintro _ ⟨q, hq, rfl, rfl⟩
    refine Keeps.bind (keeps_emitMos hm (by simp) fun x => ?_) fun _ => .pure trivial
    rcases Mos.mem_bytes_cases hm (hq.2 x) with rfl | rfl | rfl
    · exact absurd rfl ha
    all_goals cases down <;> rfl
  · rename_i hplace
    refine (cites_argOfMemory hl.toNamed fun _ => by simp [Location.isMemory, hplace]).bind
      fun arg harg => ?_
    refine Keeps.bind (Mos.keeps_inMemory hm ?_ harg) fun _ => ?_
    · cases down <;> simp
    · exact keeps_flagsFrom.returns
  · exact .pure _

/-- Counting a word in memory. -/
theorem Mos.keeps_stepWord (hm : s.target.arch ≠ .i8080) (hl : l.Known K) (hwidth : X → l.width ≠ 1)
    {down : Bool} :
    Keeps K (Mos.stepWord l down) := by
  unfold Mos.stepWord
  split
  · exact .pure _
  rename_i hmem
  have hbyte := cites_byteOfMemory hl (by simpa using hmem) hwidth
  refine keeps_freshLabel.bind fun skip => ?_
  refine (hbyte 0).bind fun lowByte hlow => (cites_argOfMemory hlow.1.toNamed hlow.2).bind
    fun low hlow => ?_
  refine (hbyte 1).bind fun highByte hhigh => (cites_argOfMemory hhigh.1.toNamed hhigh.2).bind
    fun high hhigh => ?_
  have hskip : ∀ {K : Vocabulary s D X}, Keeps K (branchLocal "bne" skip) :=
    keeps_emitMos hm (by simp) fun _ => rfl
  split
  · refine (Mos.brings_reserveA hm).bind fun held K' hle hheld => ?_
    have hlow : low.Known K'.names ∧ (X → low.isFixed = true) := ⟨hlow.1.mono hle, hlow.2⟩
    refine Keeps.bind (keeps_emitMos hm (by simpa using hlow.1) fun x => ?_) fun _ =>
      hskip.bind fun _ => ?_
    · exact (takes_one _ low).trans (Mos.isValue_of_isCell (Location.isCell_of_isFixed (hlow.2 x)))
    refine (Mos.keeps_inMemory hm (by simp) ⟨hhigh.1.mono hle, hhigh.2⟩).bind fun _ => ?_
    refine keeps_label.bind fun _ => (Mos.keeps_inMemory hm (by simp) hlow).bind fun _ => ?_
    exact (keeps_release hheld).returns
  · refine (Mos.keeps_inMemory hm (by simp) hlow).bind fun _ => hskip.bind fun _ => ?_
    refine (Mos.keeps_inMemory hm (by simp) hhigh).bind fun _ => ?_
    exact keeps_label.returns

theorem Mos.keeps_stepWide (hm : s.target.arch ≠ .i8080) (hl : l.Known K) {down : Bool} :
    Keeps K (Mos.stepWide l down) := by
  unfold Mos.stepWide
  split
  · exact .pure _
  rename_i hmem
  have hmem : l.isMemory = true := by simp_all [Location.isWordMemory]
  refine (cites_argOf hl.toNamed).bind fun arg harg => ?_
  refine (Mos.keeps_wideInMemory hm ?_ harg.1 (Location.isFixed_arg hmem harg.2)).returns
  cases down <;> simp

theorem Intel.keeps_stepByte (hm : s.target.arch = .i8080) (hl : l.KnownByte K) {down : Bool} :
    Keeps K (Intel.stepByte l down) := by
  have hop : ∀ {K : Vocabulary s D X} {arg : Arg}, arg.Known K.names ∧
    (X → arg.isReg Intel.byteOperands = true) →
      Keeps K (emit (if down then "dcr" else "inr") [arg]) := by
    intro K arg harg
    refine keeps_emitIntel hm (by simpa using harg.1) fun x => ?_
    cases down
    · exact (takes_one _ arg).trans (harg.2 x)
    · exact (takes_one _ arg).trans (harg.2 x)
  unfold Intel.stepByte
  dsimp only
  split
  · rename_i r hplace
    refine (Intel.cites_regArg hm fun q hq => hl.register q (by rw [hplace, hq])).bind
      fun arg harg => ?_
    exact (hop harg).returns
  · rename_i hplace
    refine (Intel.brings_pointAt hm hl.toNamed (by simp [Location.isMemory, hplace])).bind
      fun held K' _ hheld => ?_
    refine (hop Intel.known_mArg).bind fun _ => (keeps_release hheld).bind fun _ => ?_
    exact keeps_flagsFrom.returns
  · exact .pure _

theorem Intel.keeps_stepWord (hm : s.target.arch = .i8080) (hl : l.Known K) {down : Bool} :
    Keeps K (Intel.stepWord l down) := by
  refine (Intel.cites_pairAt? hl).bind fun p hp => ?_
  split
  · rename_i p
    refine (Intel.cites_pairArg hm (hp p rfl)).bind fun arg harg => ?_
    refine Keeps.bind (keeps_emitIntel hm (by simpa using harg.1) fun _ => ?_) fun _ =>
      .pure trivial
    cases down
    · exact (takes_one _ arg).trans harg.2
    · exact (takes_one _ arg).trans harg.2
  · exact .pure trivial

namespace Build

theorem keeps_stepByte (hl : l.KnownByte K) {down : Bool} : Keeps K (stepByte l down) := by
  refine Brings.arch ?_
  split
  · rename_i hm
    exact Intel.keeps_stepByte hm hl
  · rename_i hm
    exact Mos.keeps_stepByte hm hl

theorem keeps_stepWord (hl : l.Known K) (hwidth : X → l.width ≠ 1) {down : Bool} :
    Keeps K (stepWord l down) := by
  refine Brings.arch ?_
  split
  · rename_i hm
    exact Mos.keeps_stepWord (by simp [hm]) hl hwidth
  · rename_i hm
    exact Mos.keeps_stepWide (by simp [hm]) hl
  · rename_i hm
    exact Intel.keeps_stepWord hm hl

/-- **Counting in place.** -/
theorem keeps_step (hl : l.Known K) {down : Bool} : Keeps K (step l down) := by
  unfold step
  split
  · rename_i hwidth
    have hwidth : l.width = 2 := by simpa using hwidth
    exact keeps_stepWord hl (fun _ => by omega)
  · rename_i hwidth
    exact keeps_stepByte (hl.knownByte fun _ => by simpa using hwidth)

/-! ### Tests -/

theorem keeps_testInPlace (hl : l.KnownByte K) : Keeps K (testInPlace l) := by
  refine Brings.arch ?_
  split
  · rename_i r hm hplace
    refine (Intel.cites_regArg hm fun q hq => hl.register q (by rw [hplace, hq])).bind
      fun arg harg => ?_
    have hone : ∀ op, Intel.executes ⟨op, [arg]⟩ = takes [Arg.isReg Intel.byteOperands] [arg] →
        Instr.Known s.target.arch X K.names ⟨op, [arg]⟩ := by
      intro op hop
      refine ⟨by simpa using harg.1, fun x => Arch.admits_of_executes ?_⟩
      rw [hm]
      exact hop.trans ((takes_one _ arg).trans (harg.2 x))
    split
    · exact (keeps_emitInstr (hone "ora" rfl)).returns
    · refine Keeps.bind (keeps_emitAll fun i hi => ?_) fun _ => .pure trivial
      fin_cases hi
      · exact hone "inr" rfl
      · exact hone "dcr" rfl
  · exact .pure trivial
  · rename_i hm _
    split
    · exact (keeps_emitMos hm (by simp) fun _ => rfl).returns
    split
    · rename_i hin
      refine (cites_present (P := fun r => r ∈ s.target.arch.bytes) fun r hr => ?_).bind fun r hr =>
        ?_
      · exact Mos.mem_bytes_of_isIn hm hin hr
      · exact (keeps_emitMos hm (by simp) fun _ => Mos.executes_compareOp hm hr rfl).returns
    · exact .pure trivial

/-- **Testing a byte.** -/
theorem brings_testByte (hl : l.Known K) (hbyte : l.KnownByte K) :
    Brings K (testByte l) fun held K' => ∀ res ∈ held, res.Known K' := by
  have hload : Brings K (do
      let acc := Location.ofRegister (← accumulator)
      let res ← reserveLoad (← accumulator) l
      unless ← flagsShow acc do
        discard (testInPlace acc)
        flagsFrom acc
      return some res) fun held K' => ∀ res ∈ held, res.Known K' := by
    refine .accumulator (.accumulator ?_)
    refine (brings_reserveLoad (Arch.mem_registers_accumulator _) hl).bind fun res K' _ hres => ?_
    have hres : ∀ r ∈ some res, r.Known K' := by
      rintro _ ⟨⟩
      exact hres
    refine keeps_flagsShow.bind fun shown => ?_
    split
    · exact .pure hres
    · have hacc : (Location.ofRegister s.target.arch.accumulator).KnownByte K' :=
        Location.knownByte_ofRegister (serves_accumulator _ rfl)
      exact (keeps_testInPlace hacc).discard.bind fun _ => keeps_flagsFrom.bind fun _ => .pure hres
  refine keeps_flagsShow.bind fun shown => ?_
  split
  · exact .pure (by simp)
  split
  · refine (keeps_testInPlace hbyte).bind fun tested => ?_
    dsimp only
    split
    · exact keeps_flagsFrom.bind fun _ => .pure (by simp)
    · exact hload
  · rw [pure_bind]
    exact hload

end Build

/-! ### Shifts by one bit -/

theorem Mos.keeps_signToCarry (hm : s.target.arch ≠ .i8080) (hl : l.KnownByte K) :
    Keeps K (Mos.signToCarry l) := by
  have hbytes : ∀ r ∈ [Mos.x, Mos.y, Mos.a], r ∈ s.target.arch.bytes :=
    Arch.of_mos hm (by decide) (by decide)
  refine (brings_reserveAny (fun r hr => Arch.mem_registers_of_mem_bytes (hbytes r hr)) _).bind ?_
  rintro ⟨r, res⟩ K' hle ⟨hr, hres⟩
  have hr := hbytes r hr
  refine Keeps.bind (keeps_loadByte ?_ (hl.mono hle)) fun _ => ?_
  · rintro _ ⟨⟩
    exact Site.serves_of_mem_bytes hr
  · exact (keeps_emitMos hm (by simp) fun _ => Mos.executes_compareOp hm hr rfl).bind fun _ =>
      keeps_release hres

theorem Mos.keeps_shiftByteInPlace (hm : s.target.arch ≠ .i8080) (hl : l.KnownByte K)
    {left signed : Bool} :
    Keeps K (Mos.shiftByteInPlace l left signed) := by
  have hdone : Keeps K (do flagsFrom l; pure true) := keeps_flagsFrom.returns
  unfold Mos.shiftByteInPlace
  split
  · exact .pure _
  rename_i hmem
  refine (cites_argOfMemory hl.toNamed fun _ => by simpa using hmem).bind fun arg harg => ?_
  split
  · exact (Mos.keeps_inMemory hm (by simp) harg).bind fun _ => hdone
  split
  · refine (Mos.keeps_signToCarry hm hl).bind fun _ => ?_
    exact (Mos.keeps_inMemory hm (by simp) harg).bind fun _ => hdone
  · exact (Mos.keeps_inMemory hm (by simp) harg).bind fun _ => hdone

theorem Mos.keeps_shiftWord (hm : s.target.arch ≠ .i8080) (hl : l.Known K)
    (hwidth : X → l.width ≠ 1) {left signed : Bool} : Keeps K (Mos.shiftWord l left signed) := by
  unfold Mos.shiftWord
  split
  · exact .pure _
  rename_i hmem
  have hbyte := cites_byteOfMemory hl (by simpa using hmem) hwidth
  refine (hbyte 0).bind fun lowByte hlow => (hbyte 1).bind fun highByte hhighByte => ?_
  refine (cites_argOfMemory hlow.1.toNamed hlow.2).bind fun low hlow => ?_
  refine (cites_argOfMemory hhighByte.1.toNamed hhighByte.2).bind fun high hhigh => ?_
  -- two shifts, the second of which takes in the carry of the first
  have htwo : ∀ {op op' : String} {a b : Arg}, op ∈ ["asl", "lsr", "rol", "ror", "inc", "dec"] →
      op' ∈ ["asl", "lsr", "rol", "ror", "inc", "dec"] → a.Known K.names ∧ (X → a.isFixed = true) →
      b.Known K.names ∧ (X → b.isFixed = true) →
        Keeps K (do emit op [a]; emit op' [b]; return true) := by
    intro op op' a b hop hop' ha hb
    exact (Mos.keeps_inMemory hm hop ha).bind fun _ => (Mos.keeps_inMemory hm hop' hb).returns
  split
  · exact htwo (by simp) (by simp) hlow hhigh
  split
  · exact (Mos.keeps_signToCarry hm hhighByte.1).bind fun _ => htwo (by simp) (by simp) hhigh hlow
  · exact htwo (by simp) (by simp) hhigh hlow

theorem Mos.keeps_shiftWide (hm : s.target.arch ≠ .i8080) (hl : l.Known K) {left signed : Bool} :
    Keeps K (Mos.shiftWide l left signed) := by
  unfold Mos.shiftWide
  split
  · exact .pure _
  rename_i hmem
  have hmem : l.isMemory = true := by simp_all [Location.isWordMemory]
  refine (cites_argOf hl.toNamed).bind fun arg harg => ?_
  have hfixed : arg.isFixed = true := Location.isFixed_arg hmem harg.2
  split
  · exact (Mos.keeps_wideInMemory hm (by simp) harg.1 hfixed).returns
  split
  · refine (Mos.brings_reserveA hm).bind fun held K' hle hheld => ?_
    refine Keeps.bind (keeps_emitAll (Mos.known_wide hm ?_)) fun _ => (keeps_release hheld).returns
    have harg := harg.1.mono hle
    intro i hi
    fin_cases hi
    · refine Mos.known_mos hm (by simpa using harg) ?_
      exact (takes_one _ arg).trans (Mos.isValue_of_isCell (Location.isCell_of_isFixed hfixed))
    · exact Mos.known_mos hm (by simp) rfl
    · exact Mos.known_mos hm (by simpa using harg) (Mos.executes_inMemory (by simp) hfixed)
  · exact (Mos.keeps_wideInMemory hm (by simp) harg.1 hfixed).returns

theorem Intel.executes_shiftCode {low high : Arg} (hlow : low.isReg Intel.byteOperands = true)
    (hhigh : high.isReg Intel.byteOperands = true) (left signed : Bool) :
    (Intel.shiftCode low high left signed).all Intel.executes = true := by
  have hmov : ∀ a b : Arg, a.isReg Intel.byteOperands = true → b.isReg Intel.byteOperands = true →
      Intel.executes ⟨"mov", [a, b]⟩ = true := by
    intro a b ha hb
    exact (takes_two _ _ a b).trans (by simp [ha, hb])
  have ha : Intel.aArg.isReg Intel.byteOperands = true := rfl
  have hral : Intel.executes ⟨"ral", []⟩ = true := rfl
  have hrar : Intel.executes ⟨"rar", []⟩ = true := rfl
  have hadd : Intel.executes ⟨"add", [Intel.aArg]⟩ = true := rfl
  have hora : Intel.executes ⟨"ora", [Intel.aArg]⟩ = true := rfl
  cases left with
  | true => simp [Intel.shiftCode, hmov _ _ ha hlow, hmov _ _ hlow ha, hmov _ _ ha hhigh,
    hmov _ _ hhigh ha, hral, hadd]
  | false =>
    cases signed with
    | true =>
      simp [Intel.shiftCode, hmov _ _ ha hlow, hmov _ _ hlow ha, hmov _ _ ha hhigh,
        hmov _ _ hhigh ha, hral, hrar]
    | false =>
      simp [Intel.shiftCode, hmov _ _ ha hlow, hmov _ _ hlow ha, hmov _ _ ha hhigh,
        hmov _ _ hhigh ha, hrar, hora]

theorem Intel.keeps_shiftWord (hm : s.target.arch = .i8080) (hl : l.Known K) {left signed : Bool} :
    Keeps K (Intel.shiftWord l left signed) := by
  refine (Intel.cites_pairAt? hl).bind fun p hp => ?_
  split
  · exact .pure trivial
  rename_i p
  have hparts : ∀ i, ∀ u ∈ p.part? i, s.Serves X u :=
    fun i u hu => Site.serves_of_mem_bytes (Arch.mem_bytes_of_part? (hp p rfl) hu)
  split
  · exact (keeps_emitIntel hm (by simp) fun _ => rfl).returns
  refine (Intel.cites_regArg hm (hparts 0)).bind fun low hlow => ?_
  refine (Intel.cites_regArg hm (hparts 1)).bind fun high hhigh => ?_
  refine (brings_reserve (Intel.mem_registers hm (by decide))).bind fun held K' hle hheld => ?_
  refine Keeps.bind (keeps_emitAll fun i hi => ⟨?_, fun x => ?_⟩) fun _ =>
    (keeps_release hheld).returns
  · have hlow := hlow.1.mono hle
    have hhigh := hhigh.1.mono hle
    revert i
    cases left with
    | true => simp [Intel.shiftCode, Intel.aArg, hlow, hhigh]
    | false => cases signed <;> simp [Intel.shiftCode, Intel.aArg, hlow, hhigh]
  · have hall := Intel.executes_shiftCode (hlow.2 x) (hhigh.2 x) left signed
    exact Arch.admits_of_executes (hm ▸ List.all_eq_true.mp hall i hi)

namespace Build

theorem keeps_shiftAccumulator {left signed : Bool} : Keeps K (shiftAccumulator left signed) := by
  refine Brings.arch ?_
  split
  · rename_i hm
    split
    · exact keeps_emitIntel hm (by simp) fun _ => rfl
    split
    · exact keeps_emitAllIntel hm (by simp) rfl
    · exact keeps_emitAllIntel hm (by simp) rfl
  · rename_i hm
    split
    · exact keeps_emitMos hm (by simp) fun _ => rfl
    split
    · exact keeps_emitAllMos hm (by simp) rfl
    · exact keeps_emitMos hm (by simp) fun _ => rfl

theorem keeps_shiftByteInPlace (hl : l.KnownByte K) {left signed : Bool} :
    Keeps K (shiftByteInPlace l left signed) := by
  refine Brings.arch ?_
  split
  · exact .pure trivial
  · rename_i hm
    exact Mos.keeps_shiftByteInPlace hm hl

theorem keeps_shiftWordInPlace (hl : l.Known K) (hwidth : X → l.width ≠ 1) {left signed : Bool} :
    Keeps K (shiftWordInPlace l left signed) := by
  refine Brings.arch ?_
  split
  · rename_i hm
    exact Mos.keeps_shiftWord (by simp [hm]) hl hwidth
  · rename_i hm
    exact Mos.keeps_shiftWide (by simp [hm]) hl
  · rename_i hm
    exact Intel.keeps_shiftWord hm hl

end Build

/-! ### Word operations by one instruction -/

theorem Mos.keeps_binaryWide (hm : s.target.arch = .wdc65816) {op : BinaryOp} (hdest : dest.Known K)
    (hleft : left.Known K) (hright : right.Known K) :
    Keeps K (Mos.binaryWide op dest left right) := by
  have hmos : s.target.arch ≠ .i8080 := by simp [hm]
  unfold Mos.binaryWide
  split
  · exact .pure _
  rename_i o ho
  have hknown : o.Known .wdc65816 := Arch.known_operation ho
  split
  · exact .pure _
  rename_i hkinds
  have hkinds : (dest.isMemory = true ∧ dest.width = 2) ∧ left.isWide = true ∧
      right.isWide = true := by
    simpa [Location.isWordMemory, not_or, and_assoc] using hkinds
  refine (Mos.brings_reserveA hmos).bind fun held K' hle hheld => ?_
  refine (cites_argOf (hleft.toNamed.mono hle)).bind fun x hx => ?_
  refine (cites_argOf (hright.toNamed.mono hle)).bind fun y hy => ?_
  refine (cites_argOf (hdest.toNamed.mono hle)).bind fun z hz => ?_
  refine Keeps.bind (keeps_emitAll (Mos.known_wide hmos ?_)) fun _ => (keeps_release hheld).returns
  have hform : Mos.executes ⟨if right.isImmediate then o.immediate else o.register, [y]⟩ =
      true := by
    split
    · rename_i himm
      exact hknown.immediate y (Location.isConstant_arg himm hy.2)
    · rename_i himm
      have hwide := hkinds.2.2
      refine hknown.register y (Location.isCell_of_isFixed (Location.isFixed_arg ?_ hy.2))
      simp only [Location.isWide, Location.isImmediate, Location.isMemory] at hwide himm ⊢
      split at hwide
      all_goals simp_all
  intro i hi
  simp only [List.mem_append, List.mem_cons, List.not_mem_nil, or_false] at hi
  rcases hi with (rfl | hi) | rfl | rfl
  · exact Mos.known_mos hmos (by simpa using hx.1)
      ((takes_one _ x).trans (Location.isValue_arg hkinds.2.1 hx.2))
  · cases hsetup : o.setup with
    | none => simp [hsetup] at hi
    | some setup =>
      obtain rfl : i = ⟨setup, []⟩ := by simpa [hsetup] using hi
      exact Mos.known_mos hmos (by simp) (hknown.setup setup hsetup)
  · exact Mos.known_mos hmos (by simpa using hy.1) hform
  · refine Mos.known_mos hmos (by simpa using hz.1) ((takes_one _ z).trans ?_)
    exact Location.isCell_of_isFixed (Location.isFixed_arg hkinds.1.1 hz.2)

theorem Intel.keeps_addToHl (hm : s.target.arch = .i8080) (hleft : left.Known K)
    (hright : right.Known K) :
    Keeps K (Intel.addToHl dest left right) := by
  unfold Intel.addToHl
  split
  · exact .pure _
  have hoperands : (if left.isIn Intel.hl then (left, right) else (right, left)).2.Known K :=
    (Location.known_exchanged _ hright hleft).2
  generalize (if left.isIn Intel.hl then (left, right) else (right, left)) = operands at hoperands
  dsimp only
  split
  · exact .pure _
  have hdad : ∀ {K : Vocabulary s D X} {pair : Arg}, pair.Known K.names ∧
    pair.isReg Intel.pairOperands = true → Keeps K (emit "dad" [pair]) :=
    fun hpair => keeps_emitIntel hm (by simpa using hpair.1) fun _ => (takes_one _ _).trans hpair.2
  refine (Intel.cites_pairAt? hoperands).bind fun pair hpair => ?_
  split
  · rename_i p
    exact (Intel.cites_pairArg hm (hpair p rfl)).bind fun arg harg => (hdad harg).returns
  split
  · exact .pure trivial
  rename_i himm
  have himm : operands.2.isImmediate = true := by simpa using himm
  -- the constant is loaded into a pair that is free
  have hadd : ∀ p ∈ Intel.all, Keeps K (do
      let held ← reserve p
      let pair ← Build.ofExcept (Intel.pairArg p)
      emit "lxi" [pair, ← argOf operands.2]
      emit "dad" [pair]
      release held
      return true) := by
    intro p hp
    have hp := Intel.mem_registers hm hp
    refine (brings_reserve hp).bind fun held K' hle hheld =>
      (Intel.cites_pairArg hm hp).bind fun pair hpair => ?_
    refine (cites_argOf (hoperands.toNamed.mono hle)).bind fun v hv => ?_
    refine Keeps.bind (keeps_emitIntel hm (by simp [hpair.1, hv.1]) fun _ => ?_) fun _ => ?_
    · exact (takes_two _ _ pair v).trans (by simp [hpair.2, Location.isConstant_arg himm hv.2])
    · exact (hdad hpair).bind fun _ => (keeps_release hheld).returns
  simp only [pure_bind]
  refine (keeps_inUse Intel.de).bind fun usesDe => .ite ?_ (hadd Intel.de (by decide))
  refine (keeps_inUse Intel.bc).bind fun usesBc => ?_
  cases usesBc with
  | true => exact .pure trivial
  | false => exact hadd Intel.bc (by decide)

/-- **Computing on words** by an instruction of the machine. -/
theorem Build.keeps_nativeBinary {op : BinaryOp} (hdest : dest.Known K) (hleft : left.Known K)
    (hright : right.Known K) : Keeps K (nativeBinary op dest left right) := by
  refine Brings.arch ?_
  split
  · exact .pure trivial
  · rename_i hm
    exact Mos.keeps_binaryWide hm hdest hleft hright
  · rename_i hm
    exact Brings.ite (Intel.keeps_addToHl hm hleft hright) (.pure trivial)

end

end Octet
