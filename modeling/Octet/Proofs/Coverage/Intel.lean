import Octet.Proofs.Coverage.Performed

/-!
# The table of the 8080 and the machine

The effect of an instruction is a promise to whoever tracks registers and flags: what is not listed
as written keeps its value, the zero and the sign flag stay unless flags or a result are reported,
and a reported result is what the two flags show. Here the promise is held against the processor,
for every instruction that is executed without a trap, in every state of the machine.

It is broken in the gaps of the table (`Arch.unlisted`). Loading `hl` from memory writes `hl`
unlisted. A word loaded into the pair of the accumulator and the flags, or counted there, changes
both unlisted.

## Main definitions

* `Simulator.IntelCpu.Covered` — registers and flags that change as the table promises

## Main results

* `Simulator.IntelCpu.effect_covers` — the table of the 8080 covers what the machine does, up to its
  gaps
-/

namespace Octet

open Assembly (Arg Instr)

namespace Simulator

namespace IntelCpu

/-! ### Registers and flags -/

variable {i : Instr}

/-- The byte registers that the effect of an instruction spares, up to the gaps of the table. -/
def spared (i : Instr) (c : IntelCpu) :
    Option Int × Option Int × Option Int × Option Int × Option Int × Option Int × Option Int :=
  let keep (r : Register) (v : Int) : Option Int :=
    if (Intel.effect i).spares r && !(Arch.unlisted .i8080 i).any
      (·.conflicts r) then some v else none
  (keep Intel.a c.a, keep Intel.b c.b, keep Intel.c c.c, keep Intel.d c.d, keep Intel.e c.e,
    keep Intel.h c.h, keep Intel.l c.l)

/-- The zero and the sign flag, unless the effect of the instruction reports them or it is in a gap
of the table for the accumulator with the flags. -/
def unreported (i : Instr) (c : IntelCpu) : Option (Bool × Bool) :=
  if (Intel.effect i).flags = false ∧ Intel.a ∉ Arch.unlisted .i8080 i then some
    (c.z, c.s) else none

/-- The flags show the register. -/
def ShowsRegister (r : Register) (c : IntelCpu) : Prop :=
  ∃ v, c.readings.lookup r.name = some (.number v) ∧ Shows c.z c.s v

theorem showsRegister_a {c : IntelCpu} (h : Shows c.z c.s c.a) : ShowsRegister Intel.a c :=
  ⟨c.a, rfl, h⟩

theorem showsRegister_subtract (c : IntelCpu) (v borrow : Int) :
    ShowsRegister Intel.a (c.subtract v borrow) := by
  have h : Shows (c.subtract v borrow).z (c.subtract v borrow).s (Bits.wrap (c.a - v - borrow)) :=
    ⟨rfl, rfl⟩
  exact showsRegister_a (h.congr (wrap_emod _)).low

/-- **What the table promises of registers and flags**: a byte register that is not listed keeps its
value, and the zero and the sign flag stay if they are not reported; the flags show a result that is
reported. -/
structure Covered (i : Instr) (c c' : IntelCpu) : Prop where
  kept : spared i c' = spared i c
  flags : unreported i c' = unreported i c
  result : ∀ r, (Intel.effect i).result = some r → ShowsRegister r c'

namespace Covered

variable {c c' : IntelCpu}

theorem computed {r : Register} (hk : spared i c' = spared i c)
    (hf : unreported i c' = unreported i c)
    (hr : (Intel.effect i).result = some r) (h : ShowsRegister r c') : Covered i c c' where
  kept := hk
  flags := hf
  result q hq := by
    obtain rfl := Option.some.inj (hr.symm.trans hq)
    exact h

theorem silent (hk : spared i c' = spared i c) (hf : unreported i c' = unreported i c)
    (hr : (Intel.effect i).result = none) : Covered i c c' where
  kept := hk
  flags := hf
  result q hq := by
    rw [hr] at hq
    cases hq

/-- A byte register that is not listed shows what it showed. -/
theorem lookup (h : Covered i c c') {r : Register} (hr : r ∈ Arch.bytes .i8080)
    (hs : ((Intel.effect i).spares r && !(Arch.unlisted .i8080 i).any (·.conflicts r)) = true) :
    c'.readings.lookup r.name = c.readings.lookup r.name := by
  have hkept := h.kept
  simp only [spared, Prod.mk.injEq] at hkept
  simp only [Arch.bytes, List.mem_cons, List.not_mem_nil, or_false] at hr
  rcases hr with rfl | rfl | rfl | rfl | rfl | rfl | rfl
  all_goals
    simp only [hs, if_true, Option.some.injEq] at hkept
    simp [readings, Intel.a, Intel.b, Intel.c, Intel.d, Intel.e, Intel.h, Intel.l, Register.name,
      List.lookup, hkept]

end Covered

/-- The byte register that the first operand names is written. -/
theorem covered_setByte {op : String} (hop : op ∈ ["mov", "mvi"]) (args : List Arg) (v : Int)
    (c : IntelCpu) :
    Covered ⟨op, args⟩ c (setByte args[0]? v c) := by
  simp only [List.mem_cons, List.not_mem_nil, or_false] at hop
  cases args with
  | nil => rcases hop with rfl | rfl <;> exact .silent rfl rfl rfl
  | cons a rest =>
    change Covered _ c (setByte (some a) v c)
    unfold setByte
    split
    case h_8 =>
      refine .silent rfl rfl ?_
      rcases hop with rfl | rfl <;> simp only [Intel.effect] <;> split <;> rfl
    all_goals
      rename_i ha
      cases ha
      rcases hop with rfl | rfl <;> exact .silent rfl rfl rfl

/-- Counting the byte register that the first operand names shows it in the flags. -/
theorem covered_count {op : String} (hop : op ∈ ["inr", "dcr"]) (args : List Arg) (v : Int)
    (c : IntelCpu) :
    Covered ⟨op, args⟩ c (setByte args[0]? v (c.setSZ v)) := by
  simp only [List.mem_cons, List.not_mem_nil, or_false] at hop
  cases args with
  | nil => rcases hop with rfl | rfl <;> exact .silent rfl rfl rfl
  | cons a rest =>
    change Covered _ c (setByte (some a) v (c.setSZ v))
    unfold setByte
    split
    case h_8 ha hb hc hd he hh hl =>
      have hnone : Intel.byteOf? (some a) = none := by
        cases a with
        | reg name =>
          refine List.find?_eq_none.mpr fun r hr hname => ?_
          fin_cases hr <;> obtain rfl := eq_of_beq hname <;> contradiction
        | _ => rfl
      have heffect : Intel.effect ⟨op, a :: rest⟩ = .flagsOnly := by
        rcases hop with rfl | rfl <;> simp [Intel.effect, hnone]
      refine .silent rfl ?_ (by rw [heffect]; rfl)
      simp [unreported, heffect, Effect.flagsOnly]
    all_goals
      rename_i ha
      cases ha
      rcases hop with rfl | rfl <;> exact .computed rfl rfl rfl ⟨_, rfl, Shows.low ⟨rfl, rfl⟩⟩

/-- The pair that the first operand names is written; the accumulator with the flags is a gap of the
table. -/
theorem covered_setPair {op : String} (hop : op ∈ ["lxi", "inx", "dcx", "pop"]) (args : List Arg)
    (v sp : Int) (c : IntelCpu) : Covered ⟨op, args⟩ c (setPair args[0]? v { c with sp }) := by
  simp only [List.mem_cons, List.not_mem_nil, or_false] at hop
  cases args with
  | nil => rcases hop with rfl | rfl | rfl | rfl <;> exact .silent rfl rfl rfl
  | cons a rest =>
    change Covered _ c (setPair (some a) v { c with sp })
    unfold setPair
    split
    case h_5 =>
      refine .silent rfl rfl ?_
      rcases hop with rfl | rfl | rfl | rfl <;> simp only [Intel.effect] <;> split <;> rfl
    all_goals
      rename_i ha
      cases ha
      rcases hop with rfl | rfl | rfl | rfl <;> exact .silent rfl rfl rfl

/-- **The table covers the registers and flags that an instruction changes**, up to its gaps. -/
theorem covered_change {v u : Int} {k : Bool} {c c' : IntelCpu} (h : change? i v u k c = some c') :
    Covered i c c' := by
  obtain ⟨op, args⟩ := i
  unfold change? at h
  split at h
  case h_48 => cases h
  case h_1 ho | h_2 ho =>
    cases ho
    cases h
    exact covered_setByte (by decide) args v c
  case h_3 ho | h_4 ho =>
    cases ho
    cases h
    exact covered_count (by decide) args v c
  case h_6 ho =>
    cases ho
    cases h
    refine .silent ?_ rfl ?_
    · have hh : Intel.hl.conflicts Intel.h = true := by decide
      have hl : Intel.hl.conflicts Intel.l = true := by decide
      simp [spared, setHl, Arch.unlisted, hh, hl]
    · simp only [Intel.effect]
      split <;> rfl
  case h_7 ho | h_8 ho | h_9 ho =>
    cases ho
    cases h
    exact covered_setPair (by decide) args v c.sp c
  case h_10 ho =>
    cases ho
    cases h
    exact covered_setPair (by decide) args v _ c
  case h_14 ho | h_15 ho | h_16 ho | h_17 ho =>
    cases ho
    cases h
    exact .computed rfl rfl rfl (showsRegister_a (Shows.low ⟨rfl, rfl⟩))
  case h_18 ho | h_19 ho | h_20 ho | h_21 ho =>
    cases ho
    cases h
    exact .computed rfl rfl rfl (showsRegister_subtract c v u)
  case h_24 ho | h_25 ho | h_26 ho | h_27 ho | h_28 ho | h_29 ho =>
    cases ho
    cases h
    exact .computed rfl rfl rfl (showsRegister_a (Shows.low ⟨rfl, rfl⟩))
  all_goals
    rename_i ho
    cases ho
    cases h
    exact .silent rfl rfl rfl

/-! ### The promise of the table -/

/-- **The table of the 8080 covers what the machine does.** Whenever an instruction is executed
without a trap, a call being one step with what it calls: a byte register that its effect does not
list keeps its value and, if neither flags nor a result are reported, so do the zero and the sign
flag; and the flags show the result that is reported. Excepted are the gaps of the table, `hl` when
it is loaded from memory, and the accumulator with the flags when a word is loaded or counted
there. -/
theorem effect_covers {M M' : Machine IntelCpu} (h : processor.Performs i M M') :
    (∀ r ∈ Arch.bytes .i8080, (Intel.effect i).spares r = true →
        (∀ q ∈ Arch.unlisted .i8080 i, q.conflicts r = false) →
        M'.cpu.readings.lookup r.name = M.cpu.readings.lookup r.name) ∧
      ((Intel.effect i).flags = false → (Intel.effect i).result = none →
        Intel.a ∉ Arch.unlisted .i8080 i →
        M'.cpu.z = M.cpu.z ∧ M'.cpu.s = M.cpu.s) ∧
      ∀ r, (Intel.effect i).result = some r →
        ∃ v, M'.cpu.readings.lookup r.name = some (.number v) ∧ Shows M'.cpu.z M'.cpu.s v := by
  obtain ⟨t, after, hstep, hafter⟩ := h
  have hrun : (step i).run M = (.ok t, after) := hstep
  obtain ⟨ht, v, u, k, hchange⟩ := (meets_step i M.cpu).of_ok (by rw [hrun])
  rw [hrun] at hchange
  rcases hafter with rfl | ⟨name, rfl⟩
  · have hcovered := covered_change hchange
    refine ⟨fun r hr hs hgap => hcovered.lookup hr (by simpa [hs] using hgap), fun hf _ hgap => ?_,
      hcovered.result⟩
    simpa [unreported, hf, hgap] using hcovered.flags
  · -- a call lists everything
    have hop : i.op = "call" := by
      refine (i.op_of_transfer ht).resolve_left fun hop => ?_
      simp [change?, hop] at hchange
    obtain ⟨op, args⟩ := i
    obtain rfl : op = "call" := hop
    refine ⟨fun r hr hs => ?_, fun hf => ?_, fun r hr => ?_⟩
    · simp only [Arch.bytes, List.mem_cons, List.not_mem_nil, or_false] at hr
      rcases hr with rfl | rfl | rfl | rfl | rfl | rfl | rfl <;> exact (Bool.false_ne_true hs).elim
    · exact (Bool.false_ne_true hf.symm).elim
    · exact absurd hr (by simp [Intel.effect])

/-- Counting `c` up from `255`: the flags show zero, and `b` stays. -/
theorem counted_to_zero :
    ∃ M', processor.Performs ⟨"inr", [.reg "c"]⟩ ⟨{ start with b := 3, c := 255 },
      .blank 0x100⟩ M' ∧
      M'.cpu.readings.lookup "b" = some (.number 3) ∧
      ∃ v, M'.cpu.readings.lookup "c" = some (.number v) ∧ Shows M'.cpu.z M'.cpu.s v := by
  have hperforms : processor.Performs ⟨"inr", [.reg "c"]⟩
      ⟨{ start with b := 3, c := 255 }, .blank 0x100⟩ _ :=
    ⟨.next, _, rfl, .inl rfl⟩
  obtain ⟨hkept, -, hshown⟩ := effect_covers hperforms
  exact ⟨_, hperforms, hkept Intel.b (by decide) (by decide) (by decide), hshown Intel.c rfl⟩

end IntelCpu

end Simulator

end Octet
