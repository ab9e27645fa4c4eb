import Octet.Proofs.Steps

/-!
# Levels of machines

A machine shows its level: the stack pointer is where it was on entry, less what was pushed, and the
accumulator is as wide as the level says. Stack pointers have eight bits in the 6502 family and
sixteen on the 8080, and are computed modulo their range.

Every instruction of a processor moves the level as its mnemonic tells, unless it traps, and sends
control where it may. A trap of an instruction is never about the balance of the stack: that is
checked when a function returns, by whoever keeps the frames.

## Main definitions

* `Standing`, `Level.standing` — what a machine shows, and what it shows at a level
* `Standing.Follows` — what is shown moves as the mnemonic of an instruction tells
* `Simulator.Processor.Levelled` — a processor that moves levels as the mnemonics tell

## Main results

* `Arch.levelled_processor` — the processors of all machines do
-/

namespace Octet

open Assembly (Arg Instr)

/-- What a machine shows of its level. -/
structure Standing where
  pointer : Int
  /-- Whether the accumulator is wide. -/
  wide : Bool
  deriving DecidableEq, Repr

/-- What a machine shows after some bytes were pushed, with a stack pointer of some bits. -/
def Standing.push (bits : Nat) (p : Standing) (n : Int) : Standing :=
  ⟨Bits.low bits (p.pointer - n), p.wide⟩

/-- What a machine shows at a level of a function that was entered with a stack pointer of some
bits. -/
def Level.standing (bits : Nat) (entry : Int) (l : Level) : Standing :=
  ⟨Bits.low bits (entry - l.depth), l.wide⟩

theorem Level.standing_base {bits : Nat} {entry : Int} (h : 0 ≤ entry)
    (h' : entry < Bits.modulus bits) :
    Level.base.standing bits entry = ⟨entry, false⟩ := by
  simp [standing, base, Bits.low, Int.emod_eq_of_lt h h']

/-- Pushing moves the stack pointer down, within its range. -/
theorem Level.standing_grow (bits : Nat) (entry n : Int) (l : Level) :
    (l.grow n).standing bits entry = (l.standing bits entry).push bits n := by
  simp only [standing, Standing.push, grow, Bits.low_sub_low, Int.sub_sub]

/-- **What is shown moves as an instruction tells**: it stays if control is transferred, and
otherwise goes from level to level. -/
def Standing.Follows (bits : Nat) (i : Instr) (p q : Standing) : Prop :=
  (i.kind ≠ .straight → q = p) ∧
    ∀ (l l' : Level) entry, l.after? i = some l' → p = l.standing bits entry →
      q = l'.standing bits entry

namespace Standing.Follows

variable {bits : Nat} {i : Instr} {p q : Standing}

theorem keep (hq : q = p) (h : ∀ l : Level, l.after? i = some l ∨ l.after? i = none) :
    Follows bits i p q := by
  subst hq
  refine ⟨fun _ => rfl, fun l l' entry hl hp => ?_⟩
  rcases h l with hsame | hnone
  · obtain rfl := Option.some.inj (hsame.symm.trans hl)
    exact hp
  · cases hnone.symm.trans hl

/-- Bytes are pushed, or pulled; how many may depend on the width of the accumulator. -/
theorem grow {n : Bool → Int} (hkind : i.kind = .straight)
    (h : ∀ l : Level, l.after? i = some (l.grow (n l.wide))) :
    Follows bits i p (p.push bits (n p.wide)) := by
  refine ⟨fun hne => absurd hkind hne, fun l l' entry hl hp => ?_⟩
  obtain rfl := Option.some.inj ((h l).symm.trans hl)
  rw [Level.standing_grow, hp]
  rfl

/-- The width of the accumulator is switched, or nothing is known of it. -/
theorem switch (hkind : i.kind = .straight)
    (h : ∀ l l' : Level, l.after? i = some l' → l' = { l with wide := q.wide } ∧
      q.pointer = p.pointer) :
    Follows bits i p q := by
  refine ⟨fun hne => absurd hkind hne, fun l l' entry hl hp => ?_⟩
  obtain ⟨rfl, hpointer⟩ := h l l' hl
  exact congrArg (Standing.mk · q.wide) (hpointer.trans (congrArg Standing.pointer hp))

end Standing.Follows

open Standing (Follows)

namespace Simulator

/-- Whether a trap is about the balance of the stack. -/
def Trap.isUnbalanced : Trap → Bool
  | .unbalanced .. => true
  | _ => false

theorem Excuse.not_isUnbalanced {operands : Nat} {executes : Bool} {inRange : Prop}
    {i : Instr} {t : Trap} (h : Excuse operands executes inRange i t) : t.isUnbalanced = false := by
  cases h with
  | missing | outside => rfl
  | rejected _ ht => cases t <;> first | rfl | cases ht

/-- **A processor that moves levels as the mnemonics tell.** -/
structure Processor.Levelled {κ : Type} (P : Processor κ) (standing : κ → Standing) (bits : Nat) :
    Prop where
  pointer : ∀ c, P.stackPointer c = (standing c).pointer
  step : ∀ i c, Exec.Meets (fun t => t.isUnbalanced = false) c (P.step i) fun t c' =>
    t ∈ i.transfers ∧ Follows bits i (standing c) (standing c')
  routine : ∀ name f, P.routine? name = some f → ∀ M, standing (f M).cpu = standing M.cpu
  enter : ∀ c, standing (P.enter c) = ⟨(standing c).pointer, false⟩

/-! ### The 6502 family -/

namespace MosCpu

/-- What the machine shows of its level. -/
def standing (c : MosCpu) : Standing := ⟨c.sp, c.wide⟩

theorem standing_setAcc (c : MosCpu) (v : Int) : (c.setAcc v).standing = c.standing := by
  unfold setAcc
  split <;> rfl

theorem width_cast (c : MosCpu) : (c.width : Int) = if c.wide then 2 else 1 := by
  unfold width
  split <;> rfl

/-- An instruction moves the level as its mnemonic tells. -/
theorem follows_change {i : Instr} {v u : Int} {k : Bool} {c c' : MosCpu}
    (h : change? i v u k c = some c') :
    Follows 8 i c.standing c'.standing := by
  obtain ⟨op, args⟩ := i
  unfold change? at h
  split at h
  -- instructions with the accumulator
  case h_1 he | h_15 he | h_16 he | h_17 he =>
    cases he
    cases h
    exact .keep (standing_setAcc c _) fun _ => .inl rfl
  case h_13 he | h_14 he =>
    cases he
    cases h
    exact .keep (standing_setAcc { c with c := _, v := _ } _) fun _ => .inl rfl
  case h_21 he | h_22 he | h_23 he | h_24 he | h_25 he | h_26 he =>
    cases he
    cases h
    split
    · exact .keep (standing_setAcc { c with c := k } v) fun _ => .inl rfl
    · exact .keep rfl fun _ => .inl rfl
  -- the stack
  case h_29 he =>
    cases he
    cases h
    rw [width_cast]
    exact Follows.grow (n := fun wide => if wide then 2 else 1) rfl fun _ => rfl
  case h_30 he | h_31 he | h_32 he =>
    cases he
    cases h
    exact Follows.grow (n := fun _ => 1) rfl fun _ => rfl
  case h_33 he =>
    cases he
    cases h
    rw [width_cast, ← sub_neg_eq_add]
    exact Follows.grow (n := fun wide => -if wide then 2 else 1) rfl fun _ => rfl
  case h_34 he | h_35 he | h_36 he =>
    cases he
    cases h
    rw [← sub_neg_eq_add]
    exact Follows.grow (n := fun _ => -1) rfl fun _ => rfl
  -- the width of the accumulator
  case h_37 he | h_38 he =>
    cases he
    cases h
    refine Follows.switch rfl fun l l' hl => ?_
    obtain ⟨rfl, rfl⟩ := by simpa [Level.after?, Instr.kind, branchOps] using hl
    simp [standing]
  case h_54 => cases h
  -- everything else
  case h_43 he | h_44 he | h_45 he | h_46 he | h_47 he | h_48 he | h_49 he | h_50 he | h_51
    he | h_52 he | h_53 he =>
    cases he
    cases h
    exact .keep rfl fun _ => .inr rfl
  all_goals
    rename_i he
    cases he
    cases h
    exact .keep rfl fun _ => .inl rfl

/-- The routines compute in registers. -/
theorem standing_routine {name : String} {f : Machine MosCpu → Machine MosCpu}
    (h : routine? name = some f) (M : Machine MosCpu) : (f M).cpu.standing = M.cpu.standing := by
  unfold routine? at h
  split at h
  case h_9 => cases h
  all_goals
    cases h
    rfl

end MosCpu

/-! ### The 8080 -/

namespace IntelCpu

/-- What the machine shows of its level. There is no wide accumulator. -/
def standing (c : IntelCpu) : Standing := ⟨c.sp, false⟩

theorem standing_setByte (a : Option Arg) (v : Int) (c : IntelCpu) :
    (setByte a v c).standing = c.standing := by
  unfold setByte
  split <;> rfl

theorem standing_setPair (a : Option Arg) (v : Int) (c : IntelCpu) :
    (setPair a v c).standing = c.standing := by
  unfold setPair
  split <;> rfl

/-- An instruction moves the level as its mnemonic tells. -/
theorem follows_change {i : Instr} {v u : Int} {k : Bool} {c c' : IntelCpu}
    (h : change? i v u k c = some c') :
    Follows 16 i c.standing c'.standing := by
  obtain ⟨op, args⟩ := i
  unfold change? at h
  split at h
  case h_1 he | h_2 he | h_3 he | h_4 he =>
    cases he
    cases h
    exact .keep (standing_setByte _ _ _) fun _ => .inl rfl
  case h_7 he | h_8 he | h_9 he =>
    cases he
    cases h
    exact .keep (standing_setPair _ _ _) fun _ => .inl rfl
  case h_10 he =>
    cases he
    cases h
    rw [standing_setPair, ← sub_neg_eq_add]
    exact Follows.grow (n := fun _ => -2) rfl fun _ => rfl
  case h_11 he =>
    cases he
    cases h
    exact Follows.grow (n := fun _ => 2) rfl fun _ => rfl
  case h_48 => cases h
  case h_39 he | h_40 he | h_41 he | h_42 he | h_43 he | h_44 he | h_45 he | h_46 he | h_47 he =>
    cases he
    cases h
    exact .keep rfl fun _ => .inr rfl
  all_goals
    rename_i he
    cases he
    cases h
    exact .keep rfl fun _ => .inl rfl

/-- The routines compute in registers. -/
theorem standing_routine {name : String} {f : Machine IntelCpu → Machine IntelCpu}
    (h : routine? name = some f) (M : Machine IntelCpu) : (f M).cpu.standing = M.cpu.standing := by
  unfold routine? at h
  split at h
  case h_11 => cases h
  all_goals
    cases h
    rfl

end IntelCpu

end Simulator

/-! ### Machines -/

namespace Arch

open Simulator (MosCpu IntelCpu)

/-- The bits of the stack pointer. -/
def pointerBits : Arch → Nat
  | .i8080 => 16
  | _ => 8

/-- What a machine shows of its level. -/
def standing : (m : Arch) → m.Cpu → Standing
  | .mos6502 => MosCpu.standing
  | .wdc65816 => MosCpu.standing
  | .i8080 => IntelCpu.standing

theorem follows_of_changes (m : Arch) {i : Instr} {c c' : m.Cpu} (h : m.Changes i c c') :
    Follows m.pointerBits i (m.standing c) (m.standing c') := by
  cases m with
  | mos6502 | wdc65816 =>
    obtain ⟨v, u, k, h⟩ := h
    exact MosCpu.follows_change h
  | i8080 =>
    obtain ⟨v, u, k, h⟩ := h
    exact IntelCpu.follows_change h

/-- **The processors of all machines move levels as the mnemonics tell.** -/
theorem levelled_processor (m : Arch) : m.processor.Levelled m.standing m.pointerBits where
  pointer := by cases m <;> exact fun _ => rfl
  step i c := (m.meets_step i c).mono (fun _ h => h.not_isUnbalanced) fun _ _ h =>
    ⟨h.1, m.follows_of_changes h.2⟩
  routine := by
    cases m with
    | mos6502 | wdc65816 => exact fun _ _ => MosCpu.standing_routine
    | i8080 => exact fun _ _ => IntelCpu.standing_routine
  enter := by cases m <;> exact fun _ => rfl

end Arch

end Octet
