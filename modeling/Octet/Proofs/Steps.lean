import Octet.Proofs.Balance.Level
import Octet.Proofs.Bytes
import Octet.Simulator.IntelCpu
import Octet.Target.Effect

/-!
# What instructions do

An instruction reads operands and memory, changes registers, and sends control on, unless it traps.
This module says once what any instruction can do, so that whatever is claimed of all instructions
follows from a look at a table. Values that are read count as arbitrary: the registers after an
instruction are a function of the registers before it and of some values (`MosCpu.change?`,
`IntelCpu.change?`).

A processor rejects an instruction whose mnemonic it does not know, and one whose operand is of the
wrong kind or names a register that it does not have there. It is said by mnemonic which operands
are taken (`Arch.executes`), and nothing else is rejected. The table is stricter than the
processors: an instruction has exactly the operands that it takes, and an operand that a processor
would look at without using it is none that it takes. Other traps have no message: an operand is
missing, or a byte outside of memory is accessed by its index.

## Main definitions

* `Arch.executes`, `Arch.Complete` — mnemonics and the operands they take, and those they cannot do
  without
* `Simulator.Trap.isRejection` — the traps for a mnemonic or an operand
* `Simulator.Excuse` — why an instruction may trap
* `Arch.Changes` — how an instruction may change registers
* `Assembly.Instr.transfers` — where an instruction may send control
* `Simulator.Exec.Meets` — what a computation does from given registers

## Main results

* `Arch.meets_step` — an instruction changes registers as the table says, or traps with an excuse
-/

namespace Octet

open Assembly (Arg Instr)

/-! ### Operands -/

namespace Assembly.Arg

/-- A place in memory. -/
def isCell : Arg → Bool
  | mem _ _ | ind _ _ => true
  | _ => false

/-- A place in memory that is known when the code is assembled. -/
def isFixed : Arg → Bool
  | mem _ _ => true
  | _ => false

/-- A number that is known when the code is assembled. -/
def isConstant : Arg → Bool
  | imm _ | symbol _ _ _ => true
  | _ => false

/-- A number or a place where one is found. -/
def isValue (a : Arg) : Bool := a.isConstant || a.isCell

def isLabel : Arg → Bool
  | label _ => true
  | _ => false

/-- One of some registers. -/
def isReg (names : List String) : Arg → Bool
  | reg name => names.contains name
  | _ => false

end Assembly.Arg

/-- Operands of given kinds, one of each in order. -/
def takes : List (Arg → Bool) → List Arg → Bool
  | [], [] => true
  | p :: ps, a :: args => p a && takes ps args
  | _, _ => false

theorem takes_eq_false {ps : List (Arg → Bool)} {args : List Arg} {n : Nat}
    {p : Arg → Bool} {a : Arg}
    (hp : ps[n]? = some p) (ha : args[n]? = some a) (h : p a = false) : takes ps args = false := by
  induction ps generalizing args n with
  | nil => simp at hp
  | cons q ps ih =>
    cases args with
    | nil => simp at ha
    | cons b args =>
      cases n with
      | zero =>
        obtain rfl : q = p := by simpa using hp
        obtain rfl : b = a := by simpa using ha
        simp [takes, h]
      | succ n =>
        simp only [List.getElem?_cons_succ] at hp ha
        simp [takes, ih hp ha]

/-! ### Tables -/

namespace Mos

/-- Mnemonics of the 6502 family and the operands they take. -/
def executes (i : Instr) : Bool :=
  match i.op with
  | "lda" | "ldx" | "ldy" | "adc" | "sbc" | "and" | "ora" | "eor" | "cmp" | "cpx" | "cpy" =>
    takes [Arg.isValue] i.args
  | "rep" | "sep" => takes [Arg.isConstant] i.args
  | "sta" | "stx" | "sty" | "stz" => takes [Arg.isCell] i.args
  | "asl" | "lsr" | "rol" | "ror" | "inc" | "dec" =>
    takes [] i.args || takes [fun a => a.isReg ["a"] || a.isCell] i.args
  | "tax" | "tay" | "txa" | "tya" | "inx" | "dex" | "iny" | "dey" | "clc" | "sec" | "pha"
  | "pla" | "phx"
  | "phy" | "plx" | "ply" | "php" | "plp" | "xba" | "rts" => takes [] i.args
  | "jmp" | "jsr" | "beq" | "bne" | "bmi" | "bpl" | "bcs" | "bcc" | "bvs" | "bvc" =>
    takes [Arg.isLabel] i.args
  | _ => false

/-- How many operands an instruction of the 6502 family cannot do without. -/
def operands : String → Nat
  | "lda" | "ldx" | "ldy" | "sta" | "stx" | "sty" | "stz" | "adc" | "sbc" | "and" | "ora" | "eor"
  | "cmp" | "cpx"
  | "cpy" | "rep" | "sep" => 1
  | _ => 0

end Mos

namespace Intel

/-- The names of byte registers, and of the byte behind `hl`. -/
def byteOperands : List String := ["a", "b", "c", "d", "e", "h", "l", "m"]

/-- The names of pairs. -/
def pairOperands : List String := ["b", "d", "h"]

/-- Mnemonics of the 8080 and the operands they take. -/
def executes (i : Instr) : Bool :=
  match i.op with
  | "mov" => takes [Arg.isReg byteOperands, Arg.isReg byteOperands] i.args
  | "mvi" => takes [Arg.isReg byteOperands, Arg.isConstant] i.args
  | "lda" | "sta" | "lhld" | "shld" => takes [Arg.isFixed] i.args
  | "lxi" => takes [Arg.isReg pairOperands, Arg.isConstant] i.args
  | "inx" | "dcx" | "dad" => takes [Arg.isReg pairOperands] i.args
  | "push" | "pop" => takes [Arg.isReg ("psw" :: pairOperands)] i.args
  | "inr" | "dcr" | "add" | "adc" | "sub" | "sbb" | "cmp" | "ana" | "ora" | "xra" =>
    takes [Arg.isReg byteOperands] i.args
  | "adi" | "aci" | "sui" | "sbi" | "cpi" | "ani" | "ori" | "xri" => takes [Arg.isConstant] i.args
  | "xchg" | "cma" | "cmc" | "stc" | "rlc" | "rrc" | "ral" | "rar" | "ret" => takes [] i.args
  | "jmp" | "call" | "jz" | "jnz" | "jm" | "jp" | "jc" | "jnc" => takes [Arg.isLabel] i.args
  | _ => false

/-- How many operands an instruction of the 8080 cannot do without. -/
def operands : String → Nat
  | "mov" | "mvi" | "lxi" => 2
  | "lda" | "sta" | "lhld" | "shld" | "inx" | "dcx" | "dad" | "push" | "pop" | "inr" | "dcr" | "add"
  | "adc" | "sub"
  | "sbb" | "cmp" | "ana" | "ora" | "xra" | "adi" | "aci" | "sui" | "sbi" | "cpi" | "ani" | "ori"
  | "xri" => 1
  | _ => 0

end Intel

namespace Arch

/-- **The processor has the instruction**, with operands as they are. -/
def executes : Arch → Instr → Bool
  | .mos6502, i | .wdc65816, i => Mos.executes i
  | .i8080, i => Intel.executes i

/-- How many operands an instruction cannot do without. -/
def operands : Arch → String → Nat
  | .mos6502, op | .wdc65816, op => Mos.operands op
  | .i8080, op => Intel.operands op

/-- **An instruction with all its operands**, of whatever kind. -/
def Complete (m : Arch) (i : Instr) : Prop := m.operands i.op ≤ i.args.length

instance (m : Arch) (i : Instr) : Decidable (m.Complete i) := inferInstanceAs (Decidable (_ ≤ _))

end Arch

/-- No register that the effect writes conflicts with the register. -/
def Effect.spares (e : Effect) (r : Register) : Bool := !e.writes.any (Register.clash · (some r))

/-- Where an instruction may send control. -/
def Assembly.Instr.transfers (i : Instr) : List Simulator.Transfer :=
  match i.kind with
  | .straight => [.next]
  | .branch => [.next, .jump (Simulator.referred i)]
  | .jump => [.jump (Simulator.referred i)]
  | .call => [.call (Simulator.referred i)]
  | .ret => [.ret]

namespace Simulator

open Bits (Within)

/-! ### Computations -/

/-- Whether a trap is about a mnemonic or an operand, and not about what was found at run time. -/
def Trap.isRejection : Trap → Bool
  | unknownMnemonic _ | notMemory _ | notRegister _ | notValue _ | unknownRegister _
  | unknownPair _ => true
  | _ => false

/-- **Why an instruction may trap**: it misses an operand, it accesses memory while registers are
out of range, or the processor does not have it. -/
inductive Excuse (operands : Nat) (executes : Bool) (inRange : Prop) (i : Instr) : Trap → Prop
  | missing (h : i.args.length < operands) : Excuse operands executes inRange i .absent
  | outside (h : ¬inRange) : Excuse operands executes inRange i .absent
  | rejected {t : Trap} (h : executes = false) (ht : t.isRejection = true) :
    Excuse operands executes inRange i t

namespace Exec

variable {κ α β : Type} {T : Trap → Prop} {c : κ} {Q : α → κ → Prop} {R : β → κ → Prop}

/-- How a computation may end: with a result and registers, or with a trap. -/
def Ends (T : Trap → Prop) (Q : α → κ → Prop) : Except Trap α × Machine κ → Prop
  | (.ok a, M) => Q a M.cpu
  | (.error t, _) => T t

/-- **What a computation does** from given registers, whatever the memory holds. -/
def Meets (T : Trap → Prop) (c : κ) (x : Exec κ α) (Q : α → κ → Prop) : Prop :=
  ∀ m, Ends T Q (x.run ⟨c, m⟩)

theorem Meets.bind {x : Exec κ α} {f : α → Exec κ β} (hx : Meets T c x Q)
    (hf : ∀ a c', Q a c' → Meets T c' (f a) R) :
    Meets T c (x >>= f) R := by
  intro m
  have hends := hx m
  change Ends T R ((ExceptT.bindCont (fun a => f a) (x.run ⟨c, m⟩).1).run (x.run ⟨c, m⟩).2)
  rcases hr : x.run ⟨c, m⟩ with ⟨t | a, M⟩
  · rw [hr] at hends
    exact hends
  · rw [hr] at hends
    exact hf a _ hends M.memory

theorem Meets.mono {T' : Trap → Prop} {Q' : α → κ → Prop} {x : Exec κ α} (h : Meets T c x Q)
    (hT : ∀ t, T t → T' t) (hQ : ∀ a c', Q a c' → Q' a c') : Meets T' c x Q' := by
  intro m
  have hends := h m
  rcases hr : x.run ⟨c, m⟩ with ⟨t | a, M⟩
  · rw [hr] at hends
    exact hT t hends
  · rw [hr] at hends
    exact hQ a _ hends

theorem Meets.of_ok {x : Exec κ α} {M : Machine κ} {a : α} (h : Meets T M.cpu x Q)
    (hrun : (x.run M).1 = .ok a) :
    Q a (x.run M).2.cpu := by
  have hends : Ends T Q ((x.run M).1, (x.run M).2) := h M.memory
  rwa [hrun] at hends

theorem Meets.of_error {x : Exec κ α} {M : Machine κ} {t : Trap} (h : Meets T M.cpu x Q)
    (hrun : (x.run M).1 = .error t) : T t := by
  have hends : Ends T Q ((x.run M).1, (x.run M).2) := h M.memory
  rwa [hrun] at hends

/-- A computation that only looks at registers and memory. -/
def Looks (T : Trap → Prop) (c : κ) (x : Exec κ α) : Prop := Meets T c x fun _ c' => c' = c

theorem Looks.bind {x : Exec κ α} {f : α → Exec κ β} (hx : Looks T c x)
    (hf : ∀ a, Meets T c (f a) R) :
    Meets T c (x >>= f) R := by
  refine Meets.bind hx ?_
  rintro a _ rfl
  exact hf a

/-- A byte is loaded from memory, or the index is out of range. -/
theorem looks_load {i : Int} (h : ¬Within 16 i → T .absent) : Looks T c (load i) := by
  intro m
  have hget : (get : Exec κ (Machine κ)).run ⟨c, m⟩ = (.ok ⟨c, m⟩, ⟨c, m⟩) := rfl
  unfold load
  rw [run_bind hget]
  dsimp only
  cases hat : m.at? i with
  | some b => rfl
  | none =>
    refine h fun hin => ?_
    rw [Memory.at?, if_pos (by simpa [Within] using hin)] at hat
    cases hat

theorem looks_store {i v : Int} (h : ¬Within 16 i → T .absent) : Looks T c (store i v) := by
  intro m
  unfold store
  split
  · rfl
  · next hi => exact h fun hin => hi (by simpa [Within] using hin)

theorem meets_cpu {f : κ → Exec κ α} (h : Meets T c (f c) Q) : Meets T c (cpu >>= f) Q := h

theorem meets_update {g : κ → κ} {f : Unit → Exec κ α} (h : Meets T (g c) (f ()) Q) :
    Meets T c (update g >>= f) Q := h

end Exec

namespace Excuse

variable {i : Instr} {n operands : Nat} {executes : Bool} {inRange : Prop}

/-- An operand that is taken: without it there is an excuse, and so there is if it is not of the
kind that is taken. -/
theorem meets_operand {κ α : Type} {c : κ} {Q : α → κ → Prop} {f : Arg → Exec κ α}
    {ps : List (Arg → Bool)}
    {p : Arg → Bool} (hn : n < operands) (he : executes = takes ps i.args) (hp : ps[n]? = some p)
    (h : ∀ a, i.args[n]? = some a →
      (p a = false → ∀ t, t.isRejection = true → Excuse operands executes inRange i t) →
      Exec.Meets (Excuse operands executes inRange i) c (f a) Q) :
    Exec.Meets (Excuse operands executes inRange i) c (Exec.operand i n >>= f) Q := by
  unfold Exec.operand
  cases ha : i.args[n]? with
  | none => exact fun _ => .missing (lt_of_le_of_lt (List.getElem?_eq_none_iff.mp ha) hn)
  | some a => exact h a ha fun hpa t => .rejected (he.trans (takes_eq_false hp ha hpa))

end Excuse

/-! ### The 6502 family -/

namespace MosCpu

open Exec

/-- Why an instruction may trap. The stack pointer is the only index that is not cut to the size of
memory. -/
abbrev Excuses (i : Instr) (c : MosCpu) : Trap → Prop :=
  Excuse (Mos.operands i.op) (Mos.executes i) (Within 16 c.sp) i

/-- Whether an instruction that changes something in place changes the accumulator. -/
def accumulates : List Arg → Bool
  | [] | .reg "a" :: _ => true
  | _ => false

/-- **The registers after an instruction** that read the numbers `v` and `u` and the bit `k`; none
for a mnemonic that the processor does not have. -/
def change? (i : Instr) (v u : Int) (k : Bool) (c : MosCpu) : Option MosCpu :=
  match i.op with
  | "lda" => some ((c.setAcc v).setNZ v c.width)
  | "ldx" | "tax" => some ({ c with x := v }.setNZ v 1)
  | "ldy" | "tay" => some ({ c with y := v }.setNZ v 1)
  | "txa" | "tya" => some ({ c with a := v }.setNZ v 1)
  | "xba" => some ({ c with a := v, b := c.a }.setNZ v 1)
  | "inx" | "dex" => some ({ c with x := Bits.low 8 v }.setNZ v 1)
  | "iny" | "dey" => some ({ c with y := Bits.low 8 v }.setNZ v 1)
  | "adc" | "sbc" => some (c.add v c.width)
  | "and" | "ora" | "eor" => some ((c.setAcc v).setNZ (c.setAcc v).acc c.width)
  | "cmp" => some ({ c with c := k }.setNZ v c.width)
  | "cpx" | "cpy" => some ({ c with c := k }.setNZ v 1)
  | "asl" | "lsr" | "rol" | "ror" | "inc" | "dec" =>
    some (if accumulates i.args then ({ c with c := k }.setAcc v).setNZ v c.width else
      { c with c := k }.setNZ v c.width)
  | "clc" | "sec" => some { c with c := k }
  | "pha" => some { c with sp := Bits.low 8 (c.sp - c.width) }
  | "phx" | "phy" | "php" => some { c with sp := Bits.low 8 (c.sp - 1) }
  | "pla" =>
    let c := { c with sp := Bits.low 8 (c.sp + c.width), a := v, b := if c.wide then u else c.b }
    some (c.setNZ c.acc c.width)
  | "plx" => some ({ c with sp := Bits.low 8 (c.sp + 1), x := v }.setNZ v 1)
  | "ply" => some ({ c with sp := Bits.low 8 (c.sp + 1), y := v }.setNZ v 1)
  | "plp" => some ({ c with sp := Bits.low 8 (c.sp + 1) }.setFlags v)
  -- the constant that names the bit of the accumulator alone always switches its width
  | "rep" => some (if k || i.args = [.imm 0x20] then { c with wide := true } else c)
  | "sep" => some (if k || i.args = [.imm 0x20] then { c with wide := false } else c)
  | "sta" | "stx" | "sty" | "stz" | "jmp" | "jsr" | "rts" | "beq" | "bne" | "bmi" | "bpl" | "bcs"
  | "bcc" | "bvs"
  | "bvc" => some c
  | _ => none

section Kinds

variable {i : Instr} {c : MosCpu} {T : Trap → Prop} {α : Type} {R : α → MosCpu → Prop}
  {Q : Transfer → MosCpu → Prop}

theorem looks_address {a : Arg} (h : a.isCell = false → T (.notMemory a)) :
    Looks T c (address a) := by
  cases a with
  | mem | ind => exact fun _ => rfl
  | _ => exact fun _ => h rfl

theorem looks_read {a : Arg} {w : Nat} (h : a.isValue = false → T (.notMemory a)) :
    Looks T c (read a w) := by
  cases a with
  | label => exact fun _ => h rfl
  | _ => exact fun _ => rfl

theorem meets_push {v : Int} (hout : ¬Within 16 c.sp → T .absent) :
    Meets T c (push v) fun _ c' => c' = { c with sp := Bits.low 8 (c.sp - 1) } :=
  meets_cpu ((looks_store fun ho => hout fun hin => ho (Within.or ⟨by decide, by decide⟩ hin)).bind
    fun _ _ => rfl)

theorem meets_push_bind {v : Int} {f : Unit → Exec MosCpu α} (hout : ¬Within 16 c.sp → T .absent)
    (h : Meets T { c with sp := Bits.low 8 (c.sp - 1) } (f ()) R) : Meets T c (push v >>= f) R := by
  refine (meets_push hout).bind ?_
  rintro _ _ rfl
  exact h

theorem meets_pull_bind {f : Int → Exec MosCpu α}
    (h : ∀ v, Meets T { c with sp := Bits.low 8 (c.sp + 1) } (f v) R) :
    Meets T c (pull >>= f) R := by
  have hin : Within 16 (Bits.or 0x100 (Bits.low 8 (c.sp + 1))) :=
    .or ⟨by decide, by decide⟩ ((Bits.within_low 8 _).mono (by decide))
  have hpull : Meets T c pull fun _ c' => c' = { c with sp := Bits.low 8 (c.sp + 1) } :=
    fun m => looks_load (absurd hin) m
  refine hpull.bind ?_
  rintro v _ rfl
  exact h v

/-- A use of the first operand as a value. -/
theorem meets_reading {p : Arg → Bool} {w : Nat} {f : Int → Exec MosCpu α}
    (hn : Mos.operands i.op = 1)
    (he : Mos.executes i = takes [p] i.args) (hp : ∀ a, a.isValue = false → p a = false)
    (h : ∀ v, Meets (Excuses i c) c (f v) R) :
    Meets (Excuses i c) c (first i >>= fun a => read a w >>= f) R :=
  Excuse.meets_operand (hn ▸ Nat.zero_lt_one) he rfl fun a _ ha =>
    (looks_read fun hv => ha (hp a hv) _ rfl).bind h

theorem meets_load {w : Nat} {set : MosCpu → Int → MosCpu} (hn : Mos.operands i.op = 1)
    (he : Mos.executes i = takes [Arg.isValue] i.args) (h : ∀ v, Q .next ((set c v).setNZ v w)) :
    Meets (Excuses i c) c (load i w set) Q :=
  meets_reading hn he (fun _ => id) fun v _ => h v

theorem meets_operate {f : MosCpu → Int → Nat → MosCpu} (hn : Mos.operands i.op = 1)
    (he : Mos.executes i = takes [Arg.isValue] i.args) (h : ∀ v, Q .next (f c v c.width)) :
    Meets (Excuses i c) c (operate i f) Q :=
  meets_cpu (meets_reading hn he (fun _ => id) fun v _ => h v)

theorem meets_compareIndex {get : MosCpu → Int} (hn : Mos.operands i.op = 1)
    (he : Mos.executes i = takes [Arg.isValue] i.args) (h : ∀ v, Q .next (c.compare (get c) v 1)) :
    Meets (Excuses i c) c (compareIndex i get) Q :=
  meets_reading hn he (fun _ => id) fun v _ => h v

theorem meets_store {w : Nat} {value : MosCpu → Int} (hn : Mos.operands i.op = 1)
    (he : Mos.executes i = takes [Arg.isCell] i.args) (h : Q .next c) :
    Meets (Excuses i c) c (store i w value) Q :=
  Excuse.meets_operand (hn ▸ Nat.zero_lt_one) he rfl fun _ _ ha =>
    (looks_address fun hc => ha hc _ rfl).bind fun _ _ => h

theorem meets_branch {cond : MosCpu → Bool} (hnext : Q .next c) (hjump : Q (.jump (referred i)) c) :
    Meets T c (branch i cond) Q := by
  refine meets_cpu ?_
  split
  · exact fun _ => hjump
  · exact fun _ => hnext

theorem meets_modify {f : MosCpu → Int → Nat → Bool × Int}
    (he : ∀ a rest, i.args = a :: rest → (a.isReg ["a"] || a.isCell) = false →
      Mos.executes i = false)
    (h : ∀ k v, Q .next (if accumulates i.args then ({ c with c := k }.setAcc v).setNZ v c.width
      else { c with c := k }.setNZ v c.width)) : Meets (Excuses i c) c (modify i f) Q := by
  unfold modify
  split
  · next hargs =>
    rw [hargs] at h
    exact fun _ => h _ _
  · next hargs =>
    rw [hargs] at h
    exact fun _ => h _ _
  · next a rest hne hargs =>
    have hacc : accumulates i.args = false := by
      unfold accumulates
      split <;> simp_all
    rw [hacc] at h
    refine meets_cpu
      (Looks.bind (looks_address fun ha => .rejected (he a rest hargs ?_) rfl) fun _ _ => h _ _)
    cases a <;> simp_all [Arg.isReg]

end Kinds

/-- **What an instruction of the 6502 family does.** -/
theorem meets_step (i : Instr) (c : MosCpu) :
    Meets (Excuses i c) c (step i) fun t c' => t ∈ i.transfers ∧ ∃ v u k,
      change? i v u k c = some c' := by
  obtain ⟨op, args⟩ := i
  unfold step
  split
  case h_1 h =>
    cases h
    exact meets_cpu (meets_load rfl rfl fun v => ⟨.head _, v, 0, false, rfl⟩)
  case h_2 h | h_3 h =>
    cases h
    exact meets_load rfl rfl fun v => ⟨.head _, v, 0, false, rfl⟩
  case h_4 h | h_7 h =>
    cases h
    exact meets_cpu (meets_store rfl rfl ⟨.head _, 0, 0, false, rfl⟩)
  case h_5 h | h_6 h =>
    cases h
    exact meets_store rfl rfl ⟨.head _, 0, 0, false, rfl⟩
  case h_8 h | h_9 h | h_10 h | h_11 h | h_12 h | h_13 h | h_14 h | h_15 h | h_40 h =>
    cases h
    exact fun _ => ⟨.head _, _, 0, false, rfl⟩
  case h_16 h | h_17 h | h_18 h | h_19 h | h_20 h =>
    cases h
    exact meets_operate rfl rfl fun v => ⟨.head _, _, 0, false, rfl⟩
  case h_21 h =>
    cases h
    exact meets_operate rfl rfl fun v => ⟨.head _, _, 0, _, rfl⟩
  case h_22 h | h_23 h =>
    cases h
    exact meets_compareIndex rfl rfl fun v => ⟨.head _, _, 0, _, rfl⟩
  case h_24 h | h_25 h | h_26 h | h_27 h | h_28 h | h_29 h =>
    cases h
    refine meets_modify ?_ fun k v => ⟨.head _, v, 0, k, rfl⟩
    rintro a rest rfl ha
    exact takes_eq_false (n := 0) rfl rfl ha
  case h_30 h | h_31 h =>
    cases h
    exact fun _ => ⟨.head _, 0, 0, _, rfl⟩
  -- the stack
  case h_32 h =>
    cases h
    obtain ⟨_, _, _, _, sp, _, _, _, _, _ | _⟩ := c
    · exact meets_cpu (meets_push_bind .outside fun _ => ⟨.head _, 0, 0, false, rfl⟩)
    · refine meets_cpu (meets_push_bind .outside ?_)
      have hin : Within 16 (Bits.low 8 (sp - 1)) := (Bits.within_low 8 _).mono (by decide)
      refine meets_push_bind (absurd hin) fun _ => ⟨.head _, 0, 0, false, ?_⟩
      rw [Bits.low_sub_low, Int.sub_sub]
      rfl
  case h_33 h =>
    cases h
    obtain ⟨_, _, _, _, sp, _, _, _, _, _ | _⟩ := c
    · exact meets_pull_bind fun v _ => ⟨.head _, v, 0, false, rfl⟩
    · refine meets_pull_bind fun v =>
        meets_update (meets_cpu (meets_pull_bind fun u _ => ⟨.head _, v, u, false, ?_⟩))
      have hsp : Bits.low 8 (Bits.low 8 (sp + 1) + 1) = Bits.low 8 (sp + 2) := by
        simp [Bits.low, Int.add_assoc]
      rw [hsp]
      rfl
  case h_34 h | h_35 h | h_38 h =>
    cases h
    exact meets_cpu (meets_push_bind .outside fun _ => ⟨.head _, 0, 0, false, rfl⟩)
  case h_36 h | h_37 h | h_39 h =>
    cases h
    exact meets_pull_bind fun v _ => ⟨.head _, v, 0, false, rfl⟩
  -- the width of the accumulator
  case h_41 h | h_42 h =>
    cases h
    by_cases hargs : args = [.imm 0x20]
    · subst hargs
      exact fun _ => ⟨.head _, 0, 0, false, rfl⟩
    · refine meets_reading rfl rfl (fun a h => (Bool.or_eq_false_iff.mp h).1) fun v _ =>
        ⟨.head _, 0, 0, Bits.test 5 v, ?_⟩
      simp [change?, hargs]
  -- control
  case h_43 h | h_44 h | h_45 h =>
    cases h
    exact fun _ => ⟨.head _, 0, 0, false, rfl⟩
  case h_46 h | h_47 h | h_48 h | h_49 h | h_50 h | h_51 h | h_52 h | h_53 h =>
    cases h
    exact meets_branch ⟨.head _, 0, 0, false, rfl⟩ ⟨.tail _ (.head _), 0, 0, false, rfl⟩
  case h_54 =>
    refine fun _ => .rejected ?_ rfl
    unfold Mos.executes
    split
    case h_54 => rfl
    all_goals next h => cases h; contradiction

end MosCpu

/-! ### The 8080 -/

namespace IntelCpu

open Exec

/-- Why an instruction may trap. The pair `hl` is the only index that is not cut to the size of
memory. -/
abbrev Excuses (i : Instr) (c : IntelCpu) : Trap → Prop :=
  Excuse (Intel.operands i.op) (Intel.executes i) (Within 16 c.hl) i

/-- The registers with a byte in the one that an operand names. -/
def setByte (a : Option Arg) (v : Int) (c : IntelCpu) : IntelCpu :=
  match a with
  | some (.reg "a") => { c with a := Bits.low 8 v }
  | some (.reg "b") => { c with b := Bits.low 8 v }
  | some (.reg "c") => { c with c := Bits.low 8 v }
  | some (.reg "d") => { c with d := Bits.low 8 v }
  | some (.reg "e") => { c with e := Bits.low 8 v }
  | some (.reg "h") => { c with h := Bits.low 8 v }
  | some (.reg "l") => { c with l := Bits.low 8 v }
  | _ => c

/-- The registers with a word in the pair that an operand names. -/
def setPair (a : Option Arg) (v : Int) (c : IntelCpu) : IntelCpu :=
  match a with
  | some (.reg "b") => c.setBc v
  | some (.reg "d") => c.setDe v
  | some (.reg "h") => c.setHl v
  | some (.reg "psw") => { c with a := Bits.low 8 (Bits.shr v 8) }.setFlags v
  | _ => c

/-- **The registers after an instruction** that read the numbers `v` and `u` and the bit `k`; none
for a mnemonic that the processor does not have. -/
def change? (i : Instr) (v u : Int) (k : Bool) (c : IntelCpu) : Option IntelCpu :=
  match i.op with
  | "mov" | "mvi" => some (setByte i.args[0]? v c)
  | "inr" | "dcr" => some (setByte i.args[0]? v (c.setSZ v))
  | "lda" => some { c with a := Bits.low 8 v }
  | "lhld" => some (c.setHl v)
  | "lxi" | "inx" | "dcx" => some (setPair i.args[0]? v c)
  | "pop" => some (setPair i.args[0]? v { c with sp := Bits.low 16 (c.sp + 2) })
  | "push" => some { c with sp := Bits.low 16 (c.sp - 2) }
  | "dad" => some ({ c with cy := k }.setHl v)
  | "xchg" => some ((c.setHl v).setDe u)
  | "add" | "adi" | "adc" | "aci" => some (c.add v u)
  | "sub" | "sui" | "sbb" | "sbi" => some (c.subtract v u)
  | "cmp" | "cpi" => some (c.compare v u)
  | "ana" | "ani" | "ora" | "ori" | "xra" | "xri" => some (c.logic v)
  | "cma" => some { c with a := Bits.xor c.a 0xff }
  | "cmc" | "stc" => some { c with cy := k }
  | "rlc" | "rrc" | "ral" => some { c with cy := k, a := Bits.low 8 v }
  | "rar" => some { c with cy := k, a := Bits.or (Bits.shr c.a 1) (128 * Bits.ofBool c.cy) }
  | "sta" | "shld" | "jmp" | "call" | "ret" | "jz" | "jnz" | "jm" | "jp" | "jc" | "jnc" => some c
  | _ => none

section Kinds

variable {i : Instr} {c : IntelCpu} {T : Trap → Prop} {α : Type} {R : α → IntelCpu → Prop}
  {Q : Transfer → IntelCpu → Prop} {a : Arg}

theorem looks_get (hout : ¬Within 16 c.hl → T .absent)
    (h : a.isReg Intel.byteOperands = false → ∀ t, t.isRejection = true → T t) :
    Looks T c (get a) := by
  refine meets_cpu ?_
  split
  case h_1 => exact looks_load hout
  case h_9 name _ _ _ _ _ _ _ _ =>
    exact fun _ => h (by simp_all [Arg.isReg, Intel.byteOperands]) _ rfl
  case h_10 hm _ _ _ _ _ _ _ hreg => exact fun _ => h (by cases a <;> simp_all [Arg.isReg]) _ rfl
  all_goals exact fun _ => rfl

theorem meets_set {v : Int} {f : Unit → Exec IntelCpu α} (hout : ¬Within 16 c.hl → T .absent)
    (h : a.isReg Intel.byteOperands = false → ∀ t, t.isRejection = true → T t)
    (hf : Meets T (setByte (some a) v c) (f ()) R) : Meets T c (set a v >>= f) R := by
  have hset : Meets T c (set a v) fun _ c' => c' = setByte (some a) v c := by
    unfold set
    dsimp only
    split
    case h_1 => exact meets_cpu (looks_store hout)
    case h_9 name _ _ _ _ _ _ _ _ =>
      exact fun _ => h (by simp_all [Arg.isReg, Intel.byteOperands]) _ rfl
    case h_10 hm _ _ _ _ _ _ _ hreg => exact fun _ => h (by cases a <;> simp_all [Arg.isReg]) _ rfl
    all_goals exact fun _ => rfl
  refine hset.bind ?_
  rintro _ _ rfl
  exact hf

theorem isReg_psw (h : a.isReg ("psw" :: Intel.pairOperands) = false) :
    a.isReg Intel.pairOperands = false := by
  cases a <;> simp_all [Arg.isReg]

/-- The accumulator with the flags is a pair too, so the table of pairs is not exhausted. -/
theorem meets_pair {f : Pair → Exec IntelCpu α}
    (h : a.isReg ("psw" :: Intel.pairOperands) = false → ∀ t, t.isRejection = true → T t)
    (hf : ∀ p : Pair, (∀ c v, p.set c v = setPair (some a) v c) → Meets T c (f p) R) :
    Meets T c (pair a >>= f) R := by
  unfold pair
  split
  case h_5 hb hd hh hpsw =>
    exact fun _ => h (by cases a <;> simp_all [Arg.isReg, Intel.pairOperands]) _ rfl
  all_goals exact hf _ fun _ _ => rfl

theorem looks_value (h : (a.isConstant || a.isFixed) = false → ∀ t, t.isRejection = true → T t) :
    Looks T c (value a) := by
  cases a with
  | imm | symbol | mem => exact fun _ => rfl
  | _ => exact fun _ => h rfl _ rfl

theorem meets_withValue {f : Int → Exec IntelCpu Unit}
    (h : (a.isConstant || a.isFixed) = false → ∀ t, t.isRejection = true → T t)
    (hf : ∀ v, Meets T c (f v) fun _ c' => Q .next c') : Meets T c (withValue a f) Q := by
  have hnext : ∀ v, Meets T c (do f v; return Transfer.next) Q :=
    fun v => (hf v).bind fun _ _ hq _ => hq
  cases a with
  | imm | symbol | mem => exact fun _ => hnext _ _
  | _ => exact (hf 0).bind fun _ _ _ _ => h rfl _ rfl

theorem meets_operate {p : Arg → Bool} {operand : Arg → Exec IntelCpu Int}
    {f : IntelCpu → Int → IntelCpu}
    (hn : Intel.operands i.op = 1) (he : Intel.executes i = takes [p] i.args)
    (ho : ∀ a, (p a = false → ∀ t, t.isRejection = true → Excuses i c t) →
      Looks (Excuses i c) c (operand a))
    (h : ∀ v, Q .next (f c v)) : Meets (Excuses i c) c (operate i operand f) Q :=
  Excuse.meets_operand (hn ▸ Nat.zero_lt_one) he rfl fun a _ ha => (ho a ha).bind fun _ _ => h _

theorem meets_changePair {f : Int → Int} (hn : Intel.operands i.op = 1)
    (he : Intel.executes i = takes [Arg.isReg Intel.pairOperands] i.args)
    (h : ∀ v, Q .next (setPair i.args[0]? v c)) :
    Meets (Excuses i c) c (changePair i f) Q := by
  refine Excuse.meets_operand (hn ▸ Nat.zero_lt_one) he rfl fun a ha hp =>
    meets_pair (fun hb => hp (isReg_psw hb))
    fun p hset _ => ?_
  change Q .next (p.set c _)
  rw [hset, ← ha]
  exact h _

theorem meets_count {delta : Int} (hn : Intel.operands i.op = 1)
    (he : Intel.executes i = takes [Arg.isReg Intel.byteOperands] i.args)
    (h : ∀ v, Q .next (setByte i.args[0]? v (c.setSZ v))) :
    Meets (Excuses i c) c (count i delta) Q := by
  refine Excuse.meets_operand (hn ▸ Nat.zero_lt_one) he rfl fun a ha hp =>
    (looks_get .outside hp).bind fun v =>
    meets_update ?_
  refine meets_set .outside hp fun _ => ?_
  exact ha ▸ h (v + delta)

theorem meets_branch {cond : IntelCpu → Bool} (hnext : Q .next c)
    (hjump : Q (.jump (referred i)) c) :
    Meets T c (branch i cond) Q := by
  refine meets_cpu ?_
  split
  · exact fun _ => hjump
  · exact fun _ => hnext

end Kinds

/-- **What an instruction of the 8080 does.** -/
theorem meets_step (i : Instr) (c : IntelCpu) :
    Meets (Excuses i c) c (step i) fun t c' => t ∈ i.transfers ∧ ∃ v u k,
      change? i v u k c = some c' := by
  obtain ⟨op, args⟩ := i
  unfold step
  split
  case h_1 h =>
    cases h
    refine Excuse.meets_operand Nat.one_lt_two rfl rfl fun b _ hb =>
      (looks_get .outside hb).bind fun v =>
      Excuse.meets_operand Nat.zero_lt_two rfl rfl fun a ha hset =>
        meets_set .outside hset fun _ => ?_
    exact ⟨.head _, v, 0, false, congrArg (fun o => some (setByte o v c)) ha⟩
  case h_2 h =>
    cases h
    refine Excuse.meets_operand Nat.one_lt_two rfl rfl fun b _ hb => (looks_value fun hv =>
      hb (Bool.or_eq_false_iff.mp hv).1).bind fun v =>
      Excuse.meets_operand Nat.zero_lt_two rfl rfl fun a ha hset =>
        meets_set .outside hset fun _ => ?_
    exact ⟨.head _, v, 0, false, congrArg (fun o => some (setByte o v c)) ha⟩
  case h_3 h =>
    cases h
    refine Excuse.meets_operand Nat.zero_lt_one rfl rfl fun a _ ha =>
      meets_withValue (fun hv => ha (Bool.or_eq_false_iff.mp hv).2) fun v m =>
        ⟨.head _, m.read v 1, 0, false, ?_⟩
    change some { c with a := Bits.low 8 (m.read v 1) } = some { c with a := m.read v 1 }
    rw [Memory.read_one, Memory.low_eq_toNat, Memory.byteOf_toNat]
  case h_5 h =>
    cases h
    exact Excuse.meets_operand Nat.zero_lt_one rfl rfl fun a _ ha =>
      meets_withValue (fun hv => ha (Bool.or_eq_false_iff.mp hv).2) fun v m =>
        ⟨.head _, m.read v 2, 0, false, rfl⟩
  case h_4 h | h_6 h =>
    cases h
    exact Excuse.meets_operand Nat.zero_lt_one rfl rfl fun a _ ha =>
      meets_withValue (fun hv => ha (Bool.or_eq_false_iff.mp hv).2) fun v m =>
        ⟨.head _, 0, 0, false, rfl⟩
  case h_7 h =>
    cases h
    refine Excuse.meets_operand Nat.zero_lt_two rfl rfl fun a ha hp =>
      meets_pair (fun hb => hp (isReg_psw hb))
      fun p hset => Excuse.meets_operand Nat.one_lt_two rfl rfl fun b _ hb =>
        meets_withValue (fun hv => hb (Bool.or_eq_false_iff.mp hv).1) fun v m =>
          ⟨.head _, v, 0, false, ?_⟩
    exact congrArg some ((congrArg (setPair · v c) ha).trans (hset c v).symm)
  case h_8 h | h_9 h =>
    cases h
    exact meets_changePair rfl rfl fun v => ⟨.head _, v, 0, false, rfl⟩
  case h_10 h | h_11 h =>
    cases h
    exact meets_count rfl rfl fun v => ⟨.head _, v, 0, false, rfl⟩
  case h_12 h =>
    cases h
    exact Excuse.meets_operand Nat.zero_lt_one rfl rfl fun a _ hp =>
      meets_pair (fun hb => hp (isReg_psw hb))
      fun p _ _ => ⟨.head _, _, 0, _, rfl⟩
  case h_13 h =>
    cases h
    exact fun _ => ⟨.head _, _, _, false, rfl⟩
  case h_14 h | h_16 h | h_18 h | h_20 h | h_22 h =>
    cases h
    exact meets_operate rfl rfl (fun _ => looks_get .outside) fun v => ⟨.head _, _, _, false, rfl⟩
  case h_15 h | h_17 h | h_19 h | h_21 h | h_23 h =>
    cases h
    exact meets_operate rfl rfl (fun _ ha => looks_value fun hv =>
      ha (Bool.or_eq_false_iff.mp hv).1)
      fun v => ⟨.head _, _, _, false, rfl⟩
  case h_24 h | h_26 h | h_28 h =>
    cases h
    exact meets_operate rfl rfl (fun _ => looks_get .outside) fun v => ⟨.head _, _, 0, false, rfl⟩
  case h_25 h | h_27 h | h_29 h =>
    cases h
    exact meets_operate rfl rfl (fun _ ha => looks_value fun hv =>
      ha (Bool.or_eq_false_iff.mp hv).1)
      fun v => ⟨.head _, _, 0, false, rfl⟩
  case h_30 h =>
    cases h
    exact fun _ => ⟨.head _, 0, 0, false, rfl⟩
  case h_31 h | h_32 h | h_36 h =>
    cases h
    exact fun _ => ⟨.head _, 0, 0, _, rfl⟩
  case h_33 h | h_34 h | h_35 h =>
    cases h
    exact fun _ => ⟨.head _, _, 0, _, rfl⟩
  case h_37 h =>
    cases h
    exact Excuse.meets_operand Nat.zero_lt_one rfl rfl fun a _ hp => meets_pair hp
      fun p _ _ => ⟨.head _, 0, 0, false, rfl⟩
  case h_38 h =>
    cases h
    refine Excuse.meets_operand Nat.zero_lt_one rfl rfl fun a ha hp => meets_pair hp
      fun p hset m => ⟨.head _, m.read c.sp 2, 0, false, ?_⟩
    exact congrArg some ((congrArg (setPair · _ _) ha).trans (hset _ _).symm)
  case h_39 h | h_40 h | h_41 h =>
    cases h
    exact fun _ => ⟨.head _, 0, 0, false, rfl⟩
  case h_42 h | h_43 h | h_44 h | h_45 h | h_46 h | h_47 h =>
    cases h
    exact meets_branch ⟨.head _, 0, 0, false, rfl⟩ ⟨.tail _ (.head _), 0, 0, false, rfl⟩
  case h_48 =>
    refine fun _ => .rejected ?_ rfl
    unfold Intel.executes
    split
    case h_48 => rfl
    all_goals next h => cases h; contradiction

end IntelCpu

end Simulator

/-! ### Machines -/

namespace Arch

open Simulator (MosCpu IntelCpu Trap Transfer Processor)

/-- What both machines of the 6502 family have. -/
@[elab_as_elim] theorem of_mos {motive : Arch → Prop} {m : Arch} (hm : m ≠ .i8080)
    (h : motive .mos6502) (h' : motive .wdc65816) : motive m := by
  cases m with
  | i8080 => exact absurd rfl hm
  | mos6502 => exact h
  | wdc65816 => exact h'

/-- The states of the registers of a machine. -/
def Cpu : Arch → Type
  | .i8080 => IntelCpu
  | _ => MosCpu

/-- The processor of a machine. The two machines of the 6502 family have the same one. -/
def processor : (m : Arch) → Processor m.Cpu
  | .mos6502 => MosCpu.processor
  | .wdc65816 => MosCpu.processor
  | .i8080 => IntelCpu.processor

/-- The registers of a machine that its processor has: those that hold one byte. -/
def bytes : Arch → List Register
  | .i8080 => [Intel.a, Intel.b, Intel.c, Intel.d, Intel.e, Intel.h, Intel.l]
  | _ => [Mos.a, Mos.x, Mos.y]

/-- What a register shows. -/
def reading (m : Arch) (c : m.Cpu) (r : Register) : Option Simulator.Reading :=
  (m.processor.readings c).lookup r.name

/-- The index that a machine takes from its registers without cutting it to the size of memory. -/
def byteIndex : (m : Arch) → m.Cpu → Int
  | .mos6502 => MosCpu.sp
  | .wdc65816 => MosCpu.sp
  | .i8080 => IntelCpu.hl

/-- **How an instruction may change registers.** -/
def Changes : (m : Arch) → Instr → m.Cpu → m.Cpu → Prop
  | .mos6502, i, c, c' => ∃ v u k, MosCpu.change? i v u k c = some c'
  | .wdc65816, i, c, c' => ∃ v u k, MosCpu.change? i v u k c = some c'
  | .i8080, i, c, c' => ∃ v u k, IntelCpu.change? i v u k c = some c'

/-- **What an instruction does**: it sends control where its mnemonic says and changes registers in
its way, or it has an excuse. -/
theorem meets_step (m : Arch) (i : Instr) (c : m.Cpu) :
    Simulator.Exec.Meets
      (Simulator.Excuse (m.operands i.op) (m.executes i) (Bits.Within 16 (m.byteIndex c)) i) c
      (m.processor.step i) fun t c' => t ∈ i.transfers ∧ m.Changes i c c' := by
  cases m with
  | mos6502 => exact MosCpu.meets_step i c
  | wdc65816 => exact MosCpu.meets_step i c
  | i8080 => exact IntelCpu.meets_step i c

end Arch

end Octet
