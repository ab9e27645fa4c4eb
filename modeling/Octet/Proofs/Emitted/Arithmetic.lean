import Octet.Proofs.Emitted.Operations

/-!
# Arithmetic

Words are computed byte by byte, so that whatever an accumulator instruction gets is a byte of a
word, and in a byte register if it is in one. Where computing a word in place would destroy a byte
that is still to be read, it is computed in a scratch location, and so is an operand that occupies
the accumulator.

A byte operation takes its operand as it is. That is a byte if the operand has one byte, and the
whole of it if it has two: a variable of two bytes that lives in a pair is handed to the instruction
as a pair, which no machine takes. `BinaryOp.handed` is that operand.

## Main definitions

* `Location.isPair`, `BinaryOp.handed` — pairs, and the operand that a byte operation takes as it is

## Main results

* `Build.keeps_byteBinary` — byte operations, if what is handed over is known as a byte
* `Build.keeps_addOrSubtract`, `Build.keeps_bitwise`, `Build.keeps_negate`
* `Build.keeps_shift`, `Build.keeps_multiply`
-/

namespace Octet

open Assembly

/-- Whether the location is a pair of registers, and not just one half. -/
def Location.isPair (l : Location) : Bool :=
  match l.place with
  | .register (some r) => r.isPair
  | _ => false

/-- **The operand that a byte operation takes as it is.** The other one is loaded into the
accumulator, which is the one that is there already if the operands can be exchanged. A lone
constant goes to the right. -/
def BinaryOp.handed (op : BinaryOp) (acc : Register) (l r : Location) : Location :=
  if op.commutative && (l.constant?.isSome || r.isIn acc && !l.isIn acc) then l else r

theorem Location.isImmediate_of_constant {l : Location} (h : l.constant?.isSome = true) :
    l.isImmediate = true := by
  unfold constant? at h
  split at h
  · rename_i hplace
    simp [isImmediate, hplace]
  · cases h

theorem Location.isPair_of_isImmediate {l : Location} (h : l.isImmediate = true) :
    l.isPair = false := by
  unfold isImmediate at h
  split at h
  · rename_i hplace
    simp [isPair, hplace]
  · rename_i hplace
    simp [isPair, hplace]
  · cases h

section

variable {s : Site} {D : List String} {X : Prop} {K : Vocabulary s D X} {l r : Location}

/-- **A location that is no pair** is in a byte register, if it is in one. -/
theorem Location.Known.knownByte_of_isPair (h : l.Known K) (hpair : X → l.isPair = false) :
    l.KnownByte K := by
  refine ⟨h.toNamed, fun r hr => ?_⟩
  obtain ⟨hmem, hfits⟩ := h.register r hr
  have hall : ∀ r ∈ s.target.arch.registers, r.isCell = false → r.isPair = false →
      r ∈ s.target.arch.bytes := by
    cases s.target.arch <;> decide
  exact ⟨hmem, fun x => hall r hmem (hfits x).1 (by simpa [isPair, hr] using hpair x)⟩

theorem Location.KnownByte.isPair (h : l.KnownByte K) (x : X) : l.isPair = false := by
  have hall : ∀ r ∈ s.target.arch.bytes, r.isPair = false := by cases s.target.arch <;> decide
  unfold Location.isPair
  split
  · rename_i r hr
    exact hall r ((h.register r hr).2 x)
  · rfl

/-- What a byte operation takes as it is, if it is no pair. -/
theorem BinaryOp.knownByte_handed {op : BinaryOp} {acc : Register} (hl : l.Known K) (hr : r.Known K)
    (h : X → (op.handed acc l r).isPair = false) : (op.handed acc l r).KnownByte K := by
  refine Location.Known.knownByte_of_isPair ?_ h
  unfold handed
  split
  · exact hl
  · exact hr

end

namespace Build

variable {s : Site} {D : List String} {X : Prop} {K : Vocabulary s D X} {dest l r : Location}
  {op : BinaryOp} {signed : Bool}

/-! ### Constants and counting -/

theorem keeps_requireWords {ls : List Location} : Keeps K (requireWords ls) := by
  unfold requireWords
  split
  · exact .throw _
  · exact .pure _

/-- What is handed over does not change when a lone constant goes to the right. -/
theorem cites_constants (hdest : dest.Known K) (hl : l.Known K) (hr : r.Known K) :
    Cites K (constants op signed dest l r) fun x => ∀ y ∈ x, y.1.Known K ∧ y.2.Known K ∧
      ((op.handed s.target.arch.accumulator l r).KnownByte K →
        (if op.commutative && y.2.isIn s.target.arch.accumulator && !y.1.isIn
          s.target.arch.accumulator then y.1
          else y.2).KnownByte K) := by
  unfold constants
  split
  · exact (keeps_move hdest (Location.known_immediate _)).bind fun _ => .pure (by simp)
  · rename_i a ha hnone
    refine Brings.pure ?_
    rintro _ ⟨⟩
    cases hop : op.commutative with
    | true =>
      have hconstant : l.KnownByte K := hl.knownByte_of_isPair fun _ =>
        Location.isPair_of_isImmediate (Location.isImmediate_of_constant (by simp [ha]))
      have hplace : l.isIn s.target.arch.accumulator = false := by
        unfold Location.constant? at ha
        split at ha
        · rename_i hplace
          simp [Location.isIn, hplace]
        · cases ha
      simp [hl, hr, hplace, hconstant]
    | false => simp [hl, hr, BinaryOp.handed, hop]
  · rename_i hnone
    refine Brings.pure ?_
    rintro _ ⟨⟩
    refine ⟨hl, hr, fun h => ?_⟩
    simpa [BinaryOp.handed, hnone, and_assoc] using h

theorem keeps_stepAgain (hl : l.Known K) {down : Bool} {count n : Nat} :
    Keeps K (stepAgain l down count n) := by
  induction n generalizing count with
  | zero => exact .pure _
  | succ n ih => exact (keeps_step hl).bind fun stepped => .ite ih (.throw _)

theorem keeps_stepInPlace (hdest : dest.Known K) (l : Location) {k : Int} :
    Keeps K (stepInPlace op dest l k) := by
  unfold stepInPlace
  split
  · exact .pure _
  refine keeps_present.bind fun bits => .read ?_
  dsimp only
  split
  · exact .pure trivial
  refine (keeps_step hdest).bind fun stepped => ?_
  split
  · exact (keeps_stepAgain hdest).returns
  · exact .pure trivial

/-! ### Bytes -/

/-- **Byte operations.** What is handed over has to be known as a byte. -/
theorem keeps_byteBinary (hdest : dest.KnownByte K) (hl : l.Known K) (hr : r.Known K)
    (hhanded :
      (if op.commutative && r.isIn s.target.arch.accumulator && !l.isIn
        s.target.arch.accumulator then l
      else r).KnownByte K) : Keeps K (byteBinary op dest l r) := by
  refine Brings.accumulator ?_
  dsimp only
  have hloaded :
    (if op.commutative && r.isIn s.target.arch.accumulator && !l.isIn s.target.arch.accumulator then
      (r, l) else (l, r)).1.Known K := (Location.known_exchanged _ hl hr).1
  have hhanded :
    (if op.commutative && r.isIn s.target.arch.accumulator && !l.isIn s.target.arch.accumulator then
      (r, l) else (l, r)).2.KnownByte K := by
    split
    all_goals simp_all
  generalize (if op.commutative && r.isIn s.target.arch.accumulator && !l.isIn
    s.target.arch.accumulator then
    (r, l) else (l, r)) = operands at hloaded hhanded
  refine Brings.ite_bind ((brings_toTemporaryByte serves_accumulator).mono fun _ _ _ ht => ht.1)
    (.pure hhanded)
    fun r K₁ hle₁ hr => .arch ?_
  split
  · exact .throw _
  rename_i o ho
  refine (brings_reserveLoad (Arch.mem_registers_accumulator _) (hloaded.mono hle₁)).bind
    fun res K₂ hle₂ hres => ?_
  refine (keeps_operate (fun _ => Arch.known_operation ho) (hr.mono hle₂)).bind fun _ => ?_
  refine (keeps_storeByte serves_accumulator (hdest.mono (hle₁.trans hle₂))).bind fun _ => ?_
  exact keeps_flagsAlso.bind fun _ => keeps_release hres

theorem bitShortcut_cases {k : Int} {source : Location} (h : bitShortcut op l k = some source) :
    source = l ∨ ∃ v, source = .immediate v 1 := by
  unfold bitShortcut at h
  grind

theorem keeps_bitByte (hdest : dest.Known K) (hbyte : dest.KnownByte K)
    (hl : l.Known K) (hr : r.Known K)
    (hhanded : (op.handed s.target.arch.accumulator l r).KnownByte K) :
    Keeps K (bitByte op signed dest l r) := by
  refine (cites_constants hdest hl hr).bind fun x hx => ?_
  split
  · exact .pure trivial
  rename_i l' r'
  obtain ⟨hl', hr', htaken⟩ := hx (l', r') rfl
  split
  · rename_i source hsource
    obtain ⟨k, -, hsource⟩ := Option.bind_eq_some_iff.mp hsource
    obtain rfl | ⟨v, rfl⟩ := bitShortcut_cases hsource
    · exact keeps_move hdest hl'
    · exact keeps_move hdest (Location.known_immediate v)
  · exact keeps_byteBinary hbyte hl' hr' (htaken hhanded)

/-! ### Words -/

theorem cites_holdHigh {os : List Location} (h : ∀ o ∈ os, o.Known K) :
    Cites K (holdHigh os) fun held => ∀ res ∈ held, res.Known K := by
  induction os with
  | nil => exact Brings.pure (by simp)
  | cons o os ih =>
    have ih := ih fun o' ho' => h o' (.tail _ ho')
    refine (cites_byteOf (h o (.head _))).bind fun high _ => .accumulator ?_
    split
    · exact cites_pin_append ih
    · exact ih

theorem keeps_releaseAll {held : List Reservation} (h : ∀ res ∈ held, res.Known K) :
    Keeps K (held.forM release) := .forM fun res hres => keeps_release (h res hres)

theorem keeps_carryChain (hdest : dest.Known K) (hl : l.Known K) (hr : r.Known K) :
    Keeps K (carryChain op dest l r) := by
  refine Brings.accumulator ?_
  dsimp only
  refine Brings.ite_bind ((brings_toTemporary hr).mono fun _ _ _ ht => ht.1)
    (.pure hr) fun r K₁ hle₁ hr => ?_
  refine (cites_byteOf (hl.mono hle₁)).bind fun lowByte hlow => ?_
  refine (brings_reserveLoad (Arch.mem_registers_accumulator _) hlow.1).bind fun res K₂ hle₂ hres =>
    ?_
  have hdest := hdest.mono (hle₁.trans hle₂)
  have hl := hl.mono (hle₁.trans hle₂)
  have hr := hr.mono hle₂
  -- the high bytes stay pinned until both bytes are computed
  refine (cites_holdHigh (by simpa using ⟨hl, hr⟩)).bind fun held hheld => ?_
  refine (cites_byteOf hr).bind fun low hlow => .unless (keeps_operateWith hlow.2) ?_
  refine (cites_byteOf hdest).bind fun d hd => (keeps_storeByte serves_accumulator hd.2).bind
    fun _ => ?_
  refine (cites_byteOf hdest).bind fun d _ => cites_pinAt.bind fun pinned hpinned => ?_
  refine (cites_byteOf hl).bind fun high hhigh => (keeps_loadByte serves_accumulator hhigh.2).bind
    fun _ => ?_
  refine (cites_byteOf hr).bind fun high hhigh => (keeps_operateWith hhigh.2).bind fun _ => ?_
  refine (cites_byteOf hdest).bind fun d hd => (keeps_storeByte serves_accumulator hd.2).bind
    fun _ => ?_
  refine (cites_byteOf hdest).bind fun d _ => keeps_flagsAlso.bind fun _ => ?_
  exact (keeps_unpin hpinned).bind fun _ => (keeps_releaseAll hheld).bind fun _ =>
    keeps_release hres

theorem keeps_wordArithmetic (hdest : dest.Known K) (hl : l.Known K) (hr : r.Known K) {n : Nat} :
    Keeps K (wordArithmetic op dest l r n) := by
  induction n generalizing K dest with
  | zero => exact keeps_carryChain hdest hl hr
  | succ n ih =>
    have hclobbers : Keeps K (wordArithmetic.clobbersHighOrAccumulator dest l r) :=
      keeps_present.bind fun _ => .ite (.pure trivial) (.arch (.pure trivial))
    refine (keeps_nativeBinary hdest hl hr).bind fun computed => .ite keeps_written ?_
    refine hclobbers.bind fun clobbers => .ite ?_ (keeps_carryChain hdest hl hr)
    refine brings_temporary.bind fun t K' hle ht => ?_
    exact (ih ht.1 (hl.mono hle) (hr.mono hle)).bind fun _ => keeps_move (hdest.mono hle) ht.1

theorem keeps_bitHalves (hdest : dest.Known K) (hl : l.Known K) (hr : r.Known K) :
    Keeps K (bitHalves op signed dest l r) := by
  have hbytes : ∀ {d x y : Location}, d.Known K ∧ d.KnownByte K → x.Known K ∧ x.KnownByte K →
      y.Known K ∧ y.KnownByte K → Keeps K (bitByte op signed d x y) := by
    intro d x y hd hx hy
    refine keeps_bitByte hd.1 hd.2 hx.1 hy.1 ?_
    unfold BinaryOp.handed
    split
    · exact hx.2
    · exact hy.2
  refine (cites_holdHigh (by simpa using ⟨hl, hr⟩)).bind fun held hheld => ?_
  refine (cites_byteOf hdest).bind fun d hd => (cites_byteOf hl).bind fun x hx => ?_
  refine (cites_byteOf hr).bind fun y hy => (hbytes hd hx hy).bind fun _ => ?_
  refine (cites_byteOf hdest).bind fun d _ => cites_pinAt.bind fun pinned hpinned => ?_
  refine (cites_byteOf hdest).bind fun d hd => (cites_byteOf hl).bind fun x hx => ?_
  refine (cites_byteOf hr).bind fun y hy => (hbytes hd hx hy).bind fun _ => ?_
  exact (keeps_unpin hpinned).bind fun _ => keeps_releaseAll hheld

theorem keeps_wordBit (hdest : dest.Known K) (hl : l.Known K) (hr : r.Known K)
    {n : Nat} : Keeps K (wordBit op signed dest l r n) := by
  induction n generalizing K dest l r with
  | zero => exact keeps_bitHalves hdest hl hr
  | succ n ih =>
    refine (cites_constants hdest hl hr).bind fun x hx => ?_
    split
    · exact .pure trivial
    rename_i l' r'
    obtain ⟨hl', hr', -⟩ := hx (l', r') rfl
    refine (keeps_nativeBinary hdest hl' hr').bind fun computed => .ite keeps_written ?_
    refine keeps_present.bind fun clobbers => .ite ?_ (keeps_bitHalves hdest hl' hr')
    refine brings_temporary.bind fun t K' hle ht => ?_
    exact (ih ht.1 (hl'.mono hle) (hr'.mono hle)).bind fun _ => keeps_move (hdest.mono hle) ht.1

/-! ### Instructions -/

section

variable {d left right : Operand} (hd : d.Known K) (hl : left.Known K) (hr : right.Known K)

include hd hl

omit hl in
/-- The destination of a byte instruction is known as a byte. -/
theorem knownByte_located (hwidth : ¬(d.type.byteCount == 2) = true) :
    (d.located s.registers).KnownByte K := by
  refine hd.located.knownByte fun _ hw => hwidth ?_
  rw [Operand.width_located] at hw
  simp only [beq_iff_eq]
  omega

section

include hr

/-- **Addition and subtraction.** -/
theorem keeps_addOrSubtract (hhanded : X → d.type.byteCount ≠ 2 →
    (op.handed s.target.arch.accumulator (left.located s.registers)
      (right.located s.registers)).isPair = false) :
    Keeps K (addOrSubtract op d left right) := by
  refine Brings.locate (.locate (.locate ?_))
  refine Brings.when keeps_requireWords ?_
  refine (cites_constants hd.located hl.located hr.located).bind fun x hx => ?_
  split
  · exact .pure trivial
  rename_i l r
  obtain ⟨hl', hr', htaken⟩ := hx (l, r) rfl
  have hcompute : Keeps K
    (if d.type.byteCount == 2 then wordArithmetic op (d.located s.registers) l r temporaryBound
      else byteBinary op (d.located s.registers) l r) := by
    split
    · exact keeps_wordArithmetic hd.located hl' hr'
    · rename_i hwidth
      refine keeps_byteBinary (knownByte_located hd hwidth) hl' hr' (htaken ?_)
      exact op.knownByte_handed hl.located hr.located fun x => hhanded x (by simpa using hwidth)
  refine Brings.ite (keeps_move hd.located hl') ?_
  dsimp only
  split
  · exact (keeps_stepInPlace hd.located _).bind fun counted => .ite (.pure trivial) hcompute
  · exact hcompute

/-- **Bitwise operations.** -/
theorem keeps_bitwise (hhanded : X → d.type.byteCount ≠ 2 →
    (op.handed s.target.arch.accumulator (left.located s.registers)
      (right.located s.registers)).isPair = false) :
    Keeps K (bitwise op d left right) := by
  refine Brings.locate (.locate (.locate ?_))
  split
  · exact keeps_requireWords.bind fun _ => keeps_wordBit hd.located hl.located hr.located
  · rename_i hwidth
    refine keeps_bitByte hd.located (knownByte_located hd hwidth) hl.located hr.located ?_
    exact op.knownByte_handed hl.located hr.located fun x => hhanded x (by simpa using hwidth)

end

omit hd hl in
theorem keeps_negateLocated {op : UnaryOp} (hdest : dest.Known K) (hl : l.Known K) :
    Keeps K (negateLocated op dest l) := by
  have hoperate : ∀ {K : Vocabulary s D X} (carry : Bool) (v : Int),
      Keeps K (operateWith .add carry (.immediate v 1)) := fun carry v =>
    keeps_operateWith (Location.knownByte_immediate v)
  refine Brings.accumulator ((cites_byteOf hl).bind fun low hlow => ?_)
  refine (brings_reserveLoad (Arch.mem_registers_accumulator _) hlow.1).bind fun res K' hle hres =>
    ?_
  have hdest := hdest.mono hle
  have hl := hl.mono hle
  refine keeps_complement.bind fun _ => .when (hoperate _ _) ?_
  refine (cites_byteOf hdest).bind fun d hd => (keeps_storeByte serves_accumulator hd.2).bind
    fun _ => ?_
  dsimp only
  split
  · refine (cites_byteOf hdest).bind fun d _ => cites_pinAt.bind fun pinned hpinned => ?_
    refine (cites_byteOf hl).bind fun high hhigh =>
      (keeps_loadByte serves_accumulator hhigh.2).bind fun _ => ?_
    refine keeps_complement.bind fun _ => .when (hoperate _ _) ?_
    refine (cites_byteOf hdest).bind fun d hd => (keeps_storeByte serves_accumulator hd.2).bind
      fun _ => ?_
    exact (keeps_unpin hpinned).bind fun _ => keeps_release hres
  · exact keeps_release hres

/-- **Negation and complement.** -/
theorem keeps_negate {op : UnaryOp} : Keeps K (negate op d left) := by
  refine Brings.locate (.locate ?_)
  have hd := hd.located
  have hl := hl.located
  have happart : ∀ apart : Bool, Keeps K (do
      if apart then
        let t ← temporary 2
        negateLocated op t (left.located s.registers)
        move (d.located s.registers) t
      else negateLocated op (d.located s.registers) (left.located s.registers)) := by
    intro apart
    refine Brings.ite (brings_temporary.bind fun t K' hle ht => ?_) (keeps_negateLocated hd hl)
    exact (keeps_negateLocated ht.1 (hl.mono hle)).bind fun _ => keeps_move (hd.mono hle) ht.1
  split
  · exact keeps_move hd (Location.known_immediate _)
  dsimp only
  refine Brings.ite ?_ (happart false)
  exact keeps_present.bind fun overlap => .arch (happart _)

end

/-! ### Shifts and multiplication -/

theorem keeps_times (n : Nat) {act : Build Unit} (h : Keeps K act) : Keeps K (times n act) :=
  .forM fun _ _ => h

theorem keeps_shiftByte (hdest : dest.Known K) (hbyte : dest.KnownByte K) (hl : l.Known K) {k : Nat}
    {left : Bool} : Keeps K (shiftByte dest l k left signed) := by
  -- the byte is shifted in the accumulator
  have hthrough : ∀ {K : Vocabulary s D X} (act : Build Unit), dest.KnownByte K → l.Known K →
      (∀ {K : Vocabulary s D X}, Keeps K act) → Keeps K (do
        let res ← reserveLoad s.target.arch.accumulator l
        act
        storeByte (some s.target.arch.accumulator) dest
        release res) := by
    intro K act hbyte hl hact
    refine (brings_reserveLoad (Arch.mem_registers_accumulator _) hl).bind fun res K' hle hres =>
      hact.bind fun _ => ?_
    exact (keeps_storeByte serves_accumulator (hbyte.mono hle)).bind fun _ => keeps_release hres
  refine Brings.accumulator ?_
  split
  · exact keeps_move hdest hl
  split
  · exact Brings.ite (hthrough _ hbyte hl keeps_signFill)
      (keeps_move hdest (Location.known_immediate _))
  dsimp only
  refine Brings.ite_bind (keeps_shiftByteInPlace hbyte) (.pure trivial) fun inPlace K' hle _ => ?_
  refine .ite (keeps_times _ (keeps_shiftByteInPlace (hbyte.mono hle)).discard) ?_
  exact hthrough _ (hbyte.mono hle) (hl.mono hle) (keeps_times k keeps_shiftAccumulator)

theorem keeps_shiftSignedByteDown (hdest : dest.Known K) (hl : l.Known K) :
    Keeps K (shiftSignedByteDown dest l) := by
  refine Brings.accumulator ((cites_byteOf hl).bind fun high hhigh => ?_)
  refine (brings_reserveLoad (Arch.mem_registers_accumulator _) hhigh.1).bind fun res K' hle hres =>
    ?_
  have hdest := hdest.mono hle
  refine (cites_byteOf hdest).bind fun d hd => (keeps_storeByte serves_accumulator hd.2).bind
    fun _ => ?_
  refine (cites_byteOf hdest).bind fun d _ => cites_pinAt.bind fun pinned hpinned => ?_
  refine keeps_signFill.bind fun _ => (cites_byteOf hdest).bind fun d hd => ?_
  refine (keeps_storeByte serves_accumulator hd.2).bind fun _ => ?_
  exact (keeps_unpin hpinned).bind fun _ => keeps_release hres

theorem keeps_moveByteAndClear (hdest : dest.Known K) (hl : l.Known K) {into source : Int} :
    Keeps K (moveByteAndClear dest l into source) := by
  refine (cites_byteOf hdest).bind fun d hd => (cites_byteOf hl).bind fun x hx => ?_
  refine (keeps_moveByte hd.2 hx.2).bind fun _ => ?_
  refine (cites_byteOf hdest).bind fun d _ => cites_pinAt.bind fun pinned hpinned => ?_
  refine (cites_byteOf hdest).bind fun d hd => ?_
  exact (keeps_moveByte hd.2 (Location.knownByte_immediate _)).bind fun _ => keeps_unpin hpinned

theorem brings_apartFrom (hdest : dest.Known K) (hl : l.Known K) {written read : Int} :
    Brings K (apartFrom dest l written read) fun x K' => x.Known K' := by
  refine (cites_byteOf hdest).bind fun w _ => (cites_byteOf hl).bind fun r _ => ?_
  exact .ite ((brings_toTemporary hl).mono fun _ _ _ ht => ht.1) (.pure hl)

theorem keeps_shiftBytes (hdest : dest.Known K) (hl : l.Known K) {left : Bool} :
    Keeps K (shiftBytes dest l left signed) := by
  refine Brings.ite ?_ ?_
  · exact (brings_apartFrom hdest hl).bind fun x K' hle hx =>
      keeps_moveByteAndClear (hdest.mono hle) hx
  refine (brings_apartFrom hdest hl).bind fun x K₁ hle₁ hx => ?_
  have hdest := hdest.mono hle₁
  refine .ite (keeps_moveByteAndClear hdest hx) (.arch ?_)
  split
  · refine brings_temporary.bind fun t K₂ hle₂ ht => ?_
    refine (brings_apartFrom ht.1 (hx.mono hle₂)).bind fun y K₃ hle₃ hy => ?_
    refine (keeps_shiftSignedByteDown (ht.1.mono hle₃) hy).bind fun _ => ?_
    exact keeps_move (hdest.mono (hle₂.trans hle₃)) (ht.1.mono hle₃)
  · exact keeps_shiftSignedByteDown hdest hx

theorem keeps_shiftBits (hdest : dest.Known K) (hwidth : dest.width = 2) (hl : l.Known K) {k : Nat}
    {left : Bool} : Keeps K (shiftBits dest l k left signed) := by
  have hinPlace : ∀ {K : Vocabulary s D X}, dest.Known K →
      Keeps K (shiftWordInPlace dest left signed) :=
    fun hdest => keeps_shiftWordInPlace hdest (fun _ => by omega)
  have hscratch : ∀ w ∈ s.target.arch.shiftScratch,
      w ∈ s.target.arch.registers ∧ (Location.ofRegister w).width ≠ 1 := by
    cases s.target.arch <;> decide
  unfold shiftBits
  dsimp only
  refine Brings.ite_bind (hinPlace hdest) (.pure trivial) fun inPlace K₁ hle₁ _ => ?_
  refine .ite (keeps_times _ (hinPlace (hdest.mono hle₁)).discard) (.arch ?_)
  -- the word is shifted in a register
  refine (brings_reserveAny (fun w hw => (hscratch w hw).1) _).bind ?_
  rintro ⟨w, res⟩ K₂ hle₂ ⟨hw, hres⟩
  have hle := hle₁.trans hle₂
  have hwork : (Location.ofRegister w).Known K₂ := Location.known_ofRegister (hscratch w hw).1
  refine (keeps_move hwork (hl.mono hle)).bind fun _ => Keeps.bind (keeps_times k ?_) fun _ => ?_
  · refine (keeps_shiftWordInPlace hwork (fun _ => (hscratch w hw).2)).bind fun _ => ?_
    exact .ite (.pure trivial) (.throw _)
  · exact (keeps_move (hdest.mono hle) hwork).bind fun _ => keeps_release hres

theorem keeps_shiftWord (hdest : dest.Known K) (hwidth : dest.width = 2) (hl : l.Known K) {k : Nat}
    {left : Bool} : Keeps K (shiftWord dest l k left signed) := by
  refine Brings.accumulator ?_
  split
  · exact keeps_move hdest hl
  split
  · refine Brings.ite ?_ (keeps_move hdest (Location.known_immediate _))
    refine (cites_byteOf hl).bind fun high hhigh => ?_
    refine (brings_reserveLoad (Arch.mem_registers_accumulator _) hhigh.1).bind
      fun res K' hle hres => ?_
    have hdest := hdest.mono hle
    refine keeps_signFill.bind fun _ => ?_
    refine (cites_byteOf hdest).bind fun d hd => (keeps_storeByte serves_accumulator hd.2).bind
      fun _ => ?_
    refine (cites_byteOf hdest).bind fun d hd => (keeps_storeByte serves_accumulator hd.2).bind
      fun _ => ?_
    exact keeps_release hres
  split
  · refine (keeps_shiftBytes hdest hl).bind fun _ => ?_
    exact .ite (keeps_shiftBits hdest hwidth hdest) (.pure trivial)
  · exact keeps_shiftBits hdest hwidth hl

theorem keeps_shiftConstant (hdest : dest.Known K) (hl : l.Known K) {k : Nat} {left : Bool} :
    Keeps K (shiftConstant dest l k left signed) := by
  unfold shiftConstant
  split
  · rename_i hwidth
    exact keeps_shiftWord hdest (by simpa using hwidth) hl
  · rename_i hwidth
    exact keeps_shiftByte hdest (hdest.knownByte fun _ => by simpa using hwidth) hl

theorem Runtime.mem_registers (m : Arch) : m.runtime.counter ∈ m.registers ∧
    m.runtime.byteValue ∈ m.registers ∧
    m.runtime.wordValue ∈ m.registers ∧ m.runtime.byteOperand ∈ m.registers ∧
      m.runtime.wordOperand ∈ m.registers := by
  cases m <;> decide

/-- Two registers are taken, a routine is called on them, and the result is moved out of one. -/
theorem keeps_runtime {value operand : Register} (hvalue : value ∈ s.target.arch.registers)
    (hoperand : operand ∈ s.target.arch.registers) (hdest : dest.Known K) (hl : l.Known K)
    (hr : r.Known K)
    (load : Location → Build Location) (hload : ∀ {K : Vocabulary s D X}, r.Known K →
      Cites K (load r) (·.Known K))
    (routine : String) : Keeps K (do
      let heldValue ← reserveFor value l
      let heldOperand ← reserveFor operand r
      loadTwo value l operand (← load r)
      call routine
      move dest (.ofRegister value)
      release heldOperand
      release heldValue) := by
  refine (brings_reserveFor hvalue).bind fun heldValue K₁ hle₁ hheldValue => ?_
  refine (brings_reserveFor hoperand).bind fun heldOperand K₂ hle₂ hheldOperand => ?_
  have hle := hle₁.trans hle₂
  refine (hload (hr.mono hle)).bind fun x hx => ?_
  refine (keeps_loadTwo hvalue hoperand (hl.mono hle) hx).bind fun _ => keeps_call.bind fun _ => ?_
  refine (keeps_move (hdest.mono hle) (Location.known_ofRegister hvalue)).bind fun _ => ?_
  exact (keeps_release hheldOperand).bind fun _ => keeps_release (hheldValue.mono hle₂)

/-- The register of a runtime routine for values of the width of the destination. -/
theorem mem_registers_ite {word : Prop} [Decidable word] {q u : Register}
    (hq : q ∈ s.target.arch.registers)
    (hu : u ∈ s.target.arch.registers) : (if word then q else u) ∈ s.target.arch.registers := by
  split
  · exact hq
  · exact hu

theorem keeps_shiftRuntime (hdest : dest.Known K) (hl : l.Known K) (hr : r.Known K) {left : Bool} :
    Keeps K (shiftRuntime dest l r left signed) := by
  obtain ⟨hcounter, hbyte, hword, -, -⟩ := Runtime.mem_registers s.target.arch
  refine Brings.arch ?_
  exact keeps_runtime (mem_registers_ite hword hbyte) hcounter hdest hl hr (byteOf · 0)
    (fun hr => Brings.mono (cites_byteOf hr) fun _ _ _ hb => hb.1) _

theorem keeps_multiplyRuntime (hdest : dest.Known K) (hl : l.Known K) (hr : r.Known K) :
    Keeps K (multiplyRuntime dest l r) := by
  obtain ⟨-, hbyte, hword, hbyte', hword'⟩ := Runtime.mem_registers s.target.arch
  refine Brings.arch ?_
  dsimp only
  have hoperands := Location.known_exchanged ((Location.ofRegister (if dest.width == 2 then
      s.target.arch.runtime.wordValue else s.target.arch.runtime.byteValue)).clobbers r &&
    (Location.ofRegister (if dest.width == 2 then s.target.arch.runtime.wordOperand
      else s.target.arch.runtime.byteOperand)).clobbers l) hl hr
  exact keeps_runtime (mem_registers_ite hword hbyte)
    (mem_registers_ite hword' hbyte') hdest hoperands.1 hoperands.2
    pure (fun hr => Brings.pure hr) _

section

variable {d left right : Operand} (hd : d.Known K) (hl : left.Known K) (hr : right.Known K)

include hd hl hr

/-- **Shifts.** -/
theorem keeps_shift {toLeft : Bool} : Keeps K (shift toLeft d left right) := by
  refine Brings.locate (.locate (.locate ?_))
  refine Brings.when keeps_requireWords ?_
  dsimp only
  split
  · exact keeps_move hd.located (Location.known_immediate _)
  · exact keeps_shiftConstant hd.located hl.located
  · exact keeps_shiftRuntime hd.located hl.located hr.located

/-- **Multiplication.** -/
theorem keeps_multiply : Keeps K (multiply d left right) := by
  refine Brings.locate (.locate (.locate ?_))
  have hd := hd.located
  refine Brings.when keeps_requireWords
    ((cites_constants hd hl.located hr.located).bind fun x hx => ?_)
  split
  · exact .pure trivial
  rename_i l r
  obtain ⟨hl, hr, -⟩ := hx (l, r) rfl
  split
  · refine Brings.ite (keeps_move hd (Location.known_immediate _)) (.ite (keeps_move hd hl) ?_)
    exact .ite (keeps_shiftConstant hd hl) (keeps_multiplyRuntime hd hl hr)
  · exact keeps_multiplyRuntime hd hl hr

end

end Build

end Octet
