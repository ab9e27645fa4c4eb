import Octet.Proofs.Inverse.Contract

/-!
# Saving on the 8080

The stack holds words. The accumulator is pushed with the flags, and two registers of a pair are
pushed together. A register whose mate is not saved goes to a save cell through the accumulator,
which is pushed with the flags meanwhile; so neither saving nor restoring it shows in any flag.

What is pushed comes back from every machine that still has the two bytes: `exists_run_pushPsw` and
`exists_run_pushPair` state a push together with the pop that it allows.

## Main results

* `Intel.inverts_psw`, `Intel.inverts_pair`, `Intel.inverts_alone` — the accumulator, a pair, and a
  register alone
* `Intel.exists_inverts_saveUnits` — the save code of a list of registers
-/

namespace Octet

open Assembly (Arg Instr Line)
open Build (saveCellName)
open Simulator (Memory IntelCpu Exec Processor)

namespace Intel

/-! ### Registers by name -/

section Registers

variable {M : Simulator.Machine IntelCpu} {r : Register}

theorem exists_byte (hM : Arch.Proper .i8080 M) (hr : r ∈ Arch.bytes .i8080) :
    ∃ v : UInt8, M.cpu.readings.lookup r.name = some (.number v.toNat) := by
  have hnames : ∀ u ∈ Arch.bytes .i8080, u.name ∈ Arch.byteNames .i8080 := by decide
  exact hM.byte r.name (hnames r hr)

theorem lookup_put_self (hr : r ∈ Arch.bytes .i8080) (c : IntelCpu) (v : Int) :
    (c.put r.name v).readings.lookup r.name = some (.number v) := by
  obtain rfl | rfl | rfl | rfl | rfl | rfl | rfl := mem_bytes hr <;> rfl

theorem lookup_put_of_ne (hr : r ∈ Arch.bytes .i8080) (c : IntelCpu) (v : Int) :
    ∀ name ∈ Arch.steady .i8080, name ≠ r.name →
      (c.put r.name v).readings.lookup name = c.readings.lookup name := by
  obtain rfl | rfl | rfl | rfl | rfl | rfl | rfl := mem_bytes hr
  all_goals
    simp [Arch.steady, IntelCpu.readings, IntelCpu.put, Intel.a, Intel.b, Intel.c, Intel.d, Intel.e,
      Intel.h, Intel.l, Register.name, List.lookup]

theorem sp_put (hr : r ∈ Arch.bytes .i8080) (c : IntelCpu) (v : Int) :
    (c.put r.name v).sp = c.sp := by
  obtain rfl | rfl | rfl | rfl | rfl | rfl | rfl := mem_bytes hr <;> rfl

end Registers

/-! ### Pushing, and the pop that it allows -/

section Stack

variable {M N : Simulator.Machine IntelCpu} {p : Int} {low high : UInt8}

/-- The two bytes are on the stack as long as nothing else is written there. -/
theorem byte_pushedBytes (M : Simulator.Machine IntelCpu) (low high : UInt8) :
    (pushedBytes M low high).memory.byte (M.cpu.sp - 2) = low ∧
      (pushedBytes M low high).memory.byte (M.cpu.sp - 1) = high := by
  refine ⟨?_, Memory.byte_setByte_self⟩
  refine (Memory.byte_setByte_of_ne ?_).trans Memory.byte_setByte_self
  rw [Ne, Memory.index_eq_iff]
  omega

theorem byte_pushedBytes_of_not_pushed {a : Int}
    (h : ¬ Arch.Pushed .i8080 M.cpu.sp 2 (Memory.index a)) :
    (pushedBytes M low high).memory.byte a = M.memory.byte a := by
  refine (Memory.byte_setByte_of_ne fun ha => h ⟨0, by omega, ?_⟩).trans
    (Memory.byte_setByte_of_ne fun ha => h ⟨1, by omega, ?_⟩)
  · rw [ha]
    exact congrArg Memory.index (by simp only [Arch.slot]; omega)
  · rw [ha]
    exact congrArg Memory.index (by simp only [Arch.slot]; omega)

/-- The word on top of the stack, after it was pushed from `p` on. -/
theorem read_top (hsp : N.cpu.sp = (p - 2) % 65536) (hlow : N.memory.byte (p - 2) = low)
    (hhigh : N.memory.byte (p - 1) = high) :
    N.memory.read N.cpu.sp 2 = low.toNat + 256 * high.toNat := by
  rw [Memory.read_two, hsp, Memory.byte_congr (Int.emod_emod (p - 2) 65536), hlow,
    Memory.byte_congr (c := p - 1) (by omega), hhigh]

/-- The pop takes the stack pointer back to where it was. -/
theorem popped_pointer (hM : Arch.Proper .i8080 M) (hsp : N.cpu.sp = (M.cpu.sp - 2) % 65536) :
    Bits.low 16 (N.cpu.sp + 2) = M.cpu.sp := by
  have h₀ : 0 ≤ M.cpu.sp := hM.nonneg
  have h₁ : M.cpu.sp < 65536 := hM.lt
  rw [Bits.low_sixteen, hsp]
  omega

/-- The flags as a byte, which brings them back with the accumulator. -/
theorem exists_psw (c : IntelCpu) : ∃ f : UInt8, c.flags = f.toNat ∧ ∀ (c' : IntelCpu) (v : UInt8),
    pswPair.set c' (f.toNat + 256 * v.toNat) = { c' with a := v.toNat, s := c.s, z := c.z, cy :=
      c.cy } := by
  have htest : ∀ (n : Nat) (f v : Int), n < 8 → Bits.test n (f + 256 * v) = Bits.test n f := by
    intro n f v hn
    have hshift : (f + 256 * v) / 2 ^ n % 2 = f / 2 ^ n % 2 := by
      interval_cases n <;> omega
    simp only [Bits.test, Bits.shr, Int.shiftRight_eq_div_pow]
    exact congrArg (· == 1) (by exact_mod_cast hshift)
  have hflags : c.flags % 256 = c.flags ∧ Bits.test 7 c.flags = c.s ∧ Bits.test 6 c.flags = c.z ∧
      Bits.test 0 c.flags = c.cy := by
    rw [IntelCpu.flags]
    cases c.s <;> cases c.z <;> cases c.cy <;> decide
  have hbyte : ((Memory.byteOf c.flags).toNat : Int) = c.flags := by
    rw [Memory.toNat_byteOf, hflags.1]
  refine ⟨Memory.byteOf c.flags, hbyte.symm, fun c' v => ?_⟩
  have hhigh : Bits.low 8 (Bits.shr (c.flags + 256 * v.toNat) 8) = v.toNat := by
    have := v.toNat_lt
    have := hflags.1
    rw [Bits.shr_eight, Bits.low_eight]
    omega
  rw [hbyte]
  simp only [pswPair, IntelCpu.setFlags, hhigh, htest 7 _ _ (by omega), htest 6 _ _ (by omega),
    htest 0 _ _ (by omega), hflags.2.1, hflags.2.2.1, hflags.2.2.2]

/-- **Pushing the accumulator with the flags**, and taking them back. -/
theorem exists_run_pushPsw (hM : Arch.Proper .i8080 M) : ∃ f v : UInt8, M.cpu.a = v.toNat ∧
    (IntelCpu.step ⟨"push", [psw]⟩).run M = (.ok .next, pushedBytes M f v) ∧
    ∀ N : Simulator.Machine IntelCpu, N.cpu.sp = (M.cpu.sp - 2) % 65536 →
      N.memory.byte (M.cpu.sp - 2) = f → N.memory.byte (M.cpu.sp - 1) = v →
        (IntelCpu.step ⟨"pop", [psw]⟩).run N = (.ok .next, ⟨{ N.cpu with
          sp := M.cpu.sp, a := v.toNat, s := M.cpu.s, z := M.cpu.z, cy :=
  M.cpu.cy }, N.memory⟩) := by
  obtain ⟨v, hv⟩ := exists_byte hM (r := Intel.a) (.head _)
  have hv : M.cpu.a = v.toNat := Simulator.Reading.number.inj (Option.some.inj hv)
  obtain ⟨f, hf, hset⟩ := exists_psw M.cpu
  have hget : ∀ sp, pswPair.get { M.cpu with sp } = f.toNat + 256 * v.toNat := by
    intro sp
    change Simulator.paired M.cpu.a M.cpu.flags = _
    rw [hv, hf, paired_toNat]
  refine ⟨f, v, hv, ?_, fun N hsp hlow hhigh => ?_⟩
  · rw [run_push pair_psw hget, pushed_word]
  · rw [run_pop pair_psw, read_top hsp hlow hhigh, hset, popped_pointer hM hsp]

/-- A pair as the processor has it. -/
theorem exists_pair_put {high low : Register} (hp : (high, low) ∈ halves) : ∃ p : IntelCpu.Pair,
    IntelCpu.pair (.reg high.name) = pure p ∧
      (∀ (c : IntelCpu) (sp : Int) (h l : UInt8), c.readings.lookup high.name =
        some (.number h.toNat) →
        c.readings.lookup low.name = some (.number l.toNat) →
          p.get { c with sp } = l.toNat + 256 * h.toNat) ∧
      ∀ (c : IntelCpu) (h l : UInt8), p.set c (l.toNat + 256 * h.toNat) =
        (c.put low.name l.toNat).put high.name h.toNat := by
  have hbytes : ∀ h l : UInt8, Bits.low 8 (l.toNat + 256 * h.toNat : Int) = l.toNat ∧
      Bits.low 8 (Bits.shr (l.toNat + 256 * h.toNat) 8) = h.toNat := by
    intro h l
    have := h.toNat_lt
    have := l.toNat_lt
    rw [Bits.shr_eight, Bits.low_eight, Bits.low_eight]
    omega
  have hget : ∀ {x y : Int} {h l : UInt8}, some (Simulator.Reading.number x) =
    some (.number (h.toNat : Int)) →
      some (Simulator.Reading.number y) = some (.number (l.toNat : Int)) →
        Simulator.paired x y = l.toNat + 256 * h.toNat := by
    rintro _ _ h l ⟨⟩ ⟨⟩
    exact paired_toNat h l
  simp only [halves, List.mem_cons, Prod.mk.injEq, List.not_mem_nil, or_false] at hp
  rcases hp with ⟨rfl, rfl⟩ | ⟨rfl, rfl⟩ | ⟨rfl, rfl⟩
  all_goals refine ⟨_, rfl, fun _ _ _ _ hh hl => hget hh hl, fun c h l => ?_⟩
  · change IntelCpu.setBc c _ = _
    rw [IntelCpu.setBc, (hbytes h l).1, (hbytes h l).2]
    rfl
  · change IntelCpu.setDe c _ = _
    rw [IntelCpu.setDe, (hbytes h l).1, (hbytes h l).2]
    rfl
  · change IntelCpu.setHl c _ = _
    rw [IntelCpu.setHl, (hbytes h l).1, (hbytes h l).2]
    rfl

/-- **Pushing a pair**, and taking it back. -/
theorem exists_run_pushPair (hM : Arch.Proper .i8080 M) {high low : Register}
    (hp : (high, low) ∈ halves) :
    ∃ h l : UInt8, M.cpu.readings.lookup high.name = some (.number h.toNat) ∧
      M.cpu.readings.lookup low.name = some (.number l.toNat) ∧
      (IntelCpu.step ⟨"push", [.reg high.name]⟩).run M = (.ok .next, pushedBytes M l h) ∧
      ∀ N : Simulator.Machine IntelCpu, N.cpu.sp = (M.cpu.sp - 2) % 65536 →
        N.memory.byte (M.cpu.sp - 2) = l → N.memory.byte (M.cpu.sp - 1) = h →
          (IntelCpu.step ⟨"pop", [.reg high.name]⟩).run N = (.ok .next,
            ⟨(({ N.cpu with sp := M.cpu.sp } : IntelCpu).put low.name l.toNat).put high.name
              h.toNat, N.memory⟩) := by
  have hmem : ∀ q ∈ halves, q.1 ∈ Arch.bytes .i8080 ∧ q.2 ∈ Arch.bytes .i8080 := by decide
  obtain ⟨h, hh⟩ := exists_byte hM (hmem _ hp).1
  obtain ⟨l, hl⟩ := exists_byte hM (hmem _ hp).2
  obtain ⟨p, hpair, hget, hset⟩ := exists_pair_put hp
  refine ⟨h, l, hh, hl, ?_, fun N hsp hlow hhigh => ?_⟩
  · rw [run_push hpair fun sp => hget M.cpu sp h l hh hl, pushed_word]
  · rw [run_pop hpair, read_top hsp hlow hhigh, hset, popped_pointer hM hsp]

end Stack

/-! ### The save code of registers -/

section Units

variable {M M₂ : Simulator.Machine IntelCpu} {n k : Nat} {low high : UInt8}

theorem lookup_sp (c : IntelCpu) (sp : Int) : ∀ name ∈ Arch.steady .i8080,
    ({ c with sp } : IntelCpu).readings.lookup name = c.readings.lookup name := by
  simp [Arch.steady, IntelCpu.readings, List.lookup]

/-- Two bytes were pushed, and nothing else has changed. -/
theorem saving_pushedBytes (M : Simulator.Machine IntelCpu) (n : Nat) (low high : UInt8) :
    Arch.Saving .i8080 n n 2 M (pushedBytes M low high) where
  pointer := rfl
  shows := lookup_sp M.cpu _
  symbols := rfl
  bytes a hp _ := byte_pushedBytes_of_not_pushed fun h => hp (h.mono (by omega))

/-- The two bytes are kept. -/
theorem kept_pushedBytes (h : Arch.Keeping .i8080 n k 2 M.cpu.sp (pushedBytes M low high) M₂) :
    M₂.cpu.sp = (M.cpu.sp - 2) % 65536 ∧ M₂.memory.byte (M.cpu.sp - 2) = low ∧
      M₂.memory.byte (M.cpu.sp - 1) = high := by
  have hslot₀ : Arch.slot .i8080 M.cpu.sp 0 = M.cpu.sp - 1 := by simp only [Arch.slot]; omega
  have hslot₁ : Arch.slot .i8080 M.cpu.sp 1 = M.cpu.sp - 2 := by simp only [Arch.slot]; omega
  have hhigh := h.stack 0 (by omega)
  have hlow := h.stack 1 (by omega)
  rw [hslot₀] at hhigh
  rw [hslot₁] at hlow
  obtain ⟨hl, hh⟩ := byte_pushedBytes M low high
  exact ⟨h.pointer, hlow.trans hl, hhigh.trans hh⟩

/-- **The accumulator** is pushed with the flags. -/
theorem inverts_psw (n : Nat) :
    SaveCode.Inverts .i8080 n [Intel.a] 2 ⟨[⟨"push", [psw]⟩], [⟨"pop", [psw]⟩], n⟩ := by
  refine ⟨by decide, Nat.le_refl n, rfl, fun M hM _ => ?_⟩
  obtain ⟨f, v, hv, hpush, hpop⟩ := exists_run_pushPsw hM
  refine ⟨_, Processor.execute_cons rfl hpush, saving_pushedBytes M n f v, ?_⟩
  intro M₂ _ hkeep
  obtain ⟨hsp, hlow, hhigh⟩ := kept_pushedBytes hkeep
  refine ⟨_, Processor.execute_cons rfl (hpop M₂ hsp hlow hhigh),
    .of_register rfl rfl ?_ ?_ rfl fun _ _ => rfl⟩
  · rw [← hv]
    simp [Arch.names, Arch.shows, Arch.processor, IntelCpu.processor, IntelCpu.readings,
      List.lookup, Intel.a, Register.isCell]
  · simp [Arch.names, Arch.steady, Arch.shows, Arch.processor, IntelCpu.processor,
      IntelCpu.readings, List.lookup, Intel.a, Register.isCell]

/-- **Both registers of a pair** are pushed together. -/
theorem inverts_pair {high low : Register} (hp : (high, low) ∈ halves) (n : Nat) :
    SaveCode.Inverts .i8080 n [low, high] 2
      ⟨[⟨"push", [.reg high.name]⟩], [⟨"pop", [.reg high.name]⟩], n⟩ := by
  have hfacts : ∀ q ∈ halves, q.1 ∈ Arch.bytes .i8080 ∧ q.2 ∈ Arch.bytes .i8080 ∧
    q.2.name ≠ q.1.name ∧
      Arch.names .i8080 q.1 = [q.1.name] ∧ Arch.names .i8080 q.2 = [q.2.name] ∧ q.1.isCell = false ∧
        q.2.isCell = false ∧ q.2.name ∈ Arch.steady .i8080 := by decide
  obtain ⟨hhigh, hlow, hne, hnames, hnames', hcell, hcell', hsteady⟩ := hfacts _ hp
  refine ⟨?_, Nat.le_refl n, rfl, fun M hM _ => ?_⟩
  · refine List.forall_mem_cons.mpr ⟨List.mem_append_left _ hlow, ?_⟩
    exact List.forall_mem_singleton.mpr (List.mem_append_left _ hhigh)
  obtain ⟨h, l, hh, hl, hpush, hpop⟩ := exists_run_pushPair hM hp
  refine ⟨_, Processor.execute_cons rfl hpush, saving_pushedBytes M n l h, ?_⟩
  intro M₂ _ hkeep
  obtain ⟨hsp, hlowByte, hhighByte⟩ := kept_pushedBytes hkeep
  refine ⟨_, Processor.execute_cons rfl (hpop M₂ hsp hlowByte hhighByte), ?_, ?_, ?_,
    fun name hname hno => ?_, rfl, fun _ _ _ => rfl⟩
  · exact (sp_put hhigh _ _).trans (sp_put hlow _ _)
  · refine List.forall_mem_cons.mpr ⟨?_, List.forall_mem_singleton.mpr ?_⟩
    · rw [hnames']
      refine List.forall_mem_singleton.mpr ?_
      exact ((lookup_put_of_ne hhigh _ _ _ hsteady hne).trans (lookup_put_self hlow _ _)).trans
        hl.symm
    · rw [hnames]
      exact List.forall_mem_singleton.mpr ((lookup_put_self hhigh _ _).trans hh.symm)
  · simp [hcell, hcell']
  · have hno₁ := hno low (.head _)
    have hno₂ := hno high (.tail _ (.head _))
    rw [hnames', List.mem_singleton] at hno₁
    rw [hnames, List.mem_singleton] at hno₂
    exact ((lookup_put_of_ne hhigh _ _ _ hname hno₂).trans
      (lookup_put_of_ne hlow _ _ _ hname hno₁)).trans (lookup_sp _ _ name hname)

section Alone

variable {u : Register} {D : Int} {w : UInt8}

theorem index_ne_of_not_pushed (h : ¬ Arch.Pushed .i8080 M.cpu.sp 2 (Memory.index D)) :
    Memory.index (M.cpu.sp - 2) ≠ Memory.index D ∧
      Memory.index (M.cpu.sp - 1) ≠ Memory.index D := by
  constructor
  · intro he
    exact h ⟨1, by omega, he.symm.trans (congrArg Memory.index (by simp only [Arch.slot]; omega))⟩
  · intro he
    exact h ⟨0, by omega, he.symm.trans (congrArg Memory.index (by simp only [Arch.slot]; omega))⟩

/-- Storing a register in a cell: the accumulator comes back, and so do the flags. -/
theorem exists_execute_saveAlone (hM : Arch.Proper .i8080 M) (hu : u ∈ Arch.bytes .i8080)
    (hlookup : M.memory.symbols.lookup (saveCellName n) = some D)
    (hclear : ¬ Arch.Pushed .i8080 M.cpu.sp 2 (Memory.index D))
    (hw : M.cpu.readings.lookup u.name = some (.number w.toNat)) :
    ∃ f v, IntelCpu.processor.execute (saveAlone n u).save M =
      some ⟨M.cpu, (pushedBytes M f v).memory.setByte D w⟩ := by
  have hsteady : ∀ r ∈ Arch.bytes .i8080, r.name ∈ Arch.steady .i8080 := by decide
  obtain ⟨hlow, hhigh⟩ := index_ne_of_not_pushed hclear
  obtain ⟨f, v, hv, hpush, hpop⟩ := exists_run_pushPsw hM
  have hmov :=
    run_mov (M := pushedBytes M f v) (.head _) hu ((lookup_sp _ _ _ (hsteady u hu)).trans hw)
  have hsta :=
    run_sta (M := ⟨(pushedBytes M f v).cpu.put Intel.a.name w.toNat, (pushedBytes M f v).memory⟩)
    (o := 0) hlookup (v := w) rfl
  rw [Int.add_zero] at hsta
  have hback :=
    hpop ⟨(pushedBytes M f v).cpu.put Intel.a.name w.toNat, (pushedBytes M f v).memory.setByte D w⟩
      rfl ((Memory.byte_setByte_of_ne hlow).trans (byte_pushedBytes M f v).1)
    ((Memory.byte_setByte_of_ne hhigh).trans (byte_pushedBytes M f v).2)
  rw [← hv] at hback
  refine ⟨f, v, ?_⟩
  refine (Processor.execute_cons rfl hpush).trans ?_
  refine (Processor.execute_cons rfl hmov).trans ?_
  refine (Processor.execute_cons rfl hsta).trans ?_
  exact Processor.execute_cons rfl hback

/-- Loading a register from a cell: nothing else changes in the processor. -/
theorem exists_execute_restoreAlone (hM : Arch.Proper .i8080 M) (hu : u ∈ Arch.bytes .i8080)
    (hne : u ≠ Intel.a) (hlookup : M.memory.symbols.lookup (saveCellName n) = some D)
    (hclear : ¬ Arch.Pushed .i8080 M.cpu.sp 2 (Memory.index D)) (hw : M.memory.byte D = w) :
    ∃ f v, IntelCpu.processor.execute (saveAlone n u).restore M =
      some ⟨M.cpu.put u.name w.toNat, (pushedBytes M f v).memory⟩ := by
  obtain ⟨f, v, hv, hpush, hpop⟩ := exists_run_pushPsw hM
  have hlda := run_lda (M := pushedBytes M f v) (o := 0) hlookup
  rw [Int.add_zero, byte_pushedBytes_of_not_pushed hclear, hw] at hlda
  have hmov :=
    run_mov (M := ⟨(pushedBytes M f v).cpu.put Intel.a.name w.toNat, (pushedBytes M f v).memory⟩)
    hu (.head _) (v := w) rfl
  have hback := hpop ⟨((pushedBytes M f v).cpu.put Intel.a.name w.toNat).put u.name w.toNat,
    (pushedBytes M f v).memory⟩ (sp_put hu _ _) (byte_pushedBytes M f v).1
      (byte_pushedBytes M f v).2
  rw [← hv] at hback
  have hcpu : ({ ((pushedBytes M f v).cpu.put Intel.a.name w.toNat).put u.name w.toNat with
      sp := M.cpu.sp, a := M.cpu.a, s := M.cpu.s, z := M.cpu.z, cy := M.cpu.cy } : IntelCpu) =
      M.cpu.put u.name w.toNat := by
    obtain rfl | rfl | rfl | rfl | rfl | rfl | rfl := mem_bytes hu
    · exact absurd rfl hne
    all_goals rfl
  refine ⟨f, v, ?_⟩
  rw [← hcpu]
  refine (Processor.execute_cons rfl hpush).trans ?_
  refine (Processor.execute_cons rfl hlda).trans ?_
  refine (Processor.execute_cons rfl hmov).trans ?_
  exact Processor.execute_cons rfl hback

/-- **A register alone** goes to a save cell through the accumulator. -/
theorem inverts_alone (hu : u ∈ Arch.bytes .i8080) (hne : u ≠ Intel.a) (n : Nat) :
    SaveCode.Inverts .i8080 n [u] 0 (saveAlone n u) := by
  have hfacts : ∀ r ∈ Arch.bytes .i8080, r ≠ Intel.a → Arch.names .i8080 r = [r.name] ∧
      r.isCell = false := by decide
  obtain ⟨hnames, hcell⟩ := hfacts u hu hne
  refine ⟨List.forall_mem_singleton.mpr (List.mem_append_left _ hu), Nat.le_succ n, rfl,
    fun M hM hroomy => ?_⟩
  have hlookup := lookup_addressIn (hroomy.placed _ 0 (.save (Nat.lt_succ_self n) (by omega)))
  have hclear := hroomy.clear _ 0 (.save (Nat.lt_succ_self n) (by omega))
  rw [Int.natCast_zero, Int.add_zero] at hclear
  generalize hD : addressIn M.memory.symbols (saveCellName n) = D at hlookup hclear
  obtain ⟨w, hw⟩ := exists_byte hM hu
  obtain ⟨f, v, hsave⟩ := exists_execute_saveAlone hM hu hlookup hclear hw
  refine ⟨_, hsave, ⟨?_, fun _ _ => rfl, rfl, fun a hp hc => ?_⟩, fun M₂ hM₂ hkeep => ?_⟩
  · exact (Arch.lowered_zero hM.nonneg hM.lt).symm
  · refine (Memory.byte_setByte_of_ne fun he => hc ?_).trans (byte_pushedBytes_of_not_pushed hp)
    refine ⟨n, 0, Nat.le_refl n, Nat.lt_succ_self n, by omega, ?_⟩
    rw [he, hD, Int.natCast_zero, Int.add_zero]
  have hsp : M₂.cpu.sp = M.cpu.sp := hkeep.pointer
  have hclear₂ : ¬ Arch.Pushed .i8080 M₂.cpu.sp 2 (Memory.index D) := by
    rw [hsp]
    exact hclear
  have hbyte : M₂.memory.byte D = w := by
    have hkept := hkeep.cells n 0 (Nat.le_refl n) (Nat.lt_succ_self n) (by omega)
    rw [Int.natCast_zero, Int.add_zero] at hkept
    change M₂.memory.byte (addressIn M.memory.symbols _) = Memory.byte _
      (addressIn M.memory.symbols _) at hkept
    rw [hD] at hkept
    exact hkept.trans Memory.byte_setByte_self
  obtain ⟨f₂, v₂, hrestore⟩ :=
    exists_execute_restoreAlone hM₂ hu hne (hkeep.symbols _ _ hlookup) hclear₂ hbyte
  refine ⟨_, hrestore, .of_register hcell ?_ ?_ ?_ rfl ?_⟩
  · exact (sp_put hu _ _).trans hsp
  · rw [hnames]
    exact List.forall_mem_singleton.mpr ((lookup_put_self hu _ _).trans hw.symm)
  · intro name hname hno
    rw [hnames, List.mem_singleton] at hno
    exact lookup_put_of_ne hu _ _ name hname hno
  · intro a hp
    refine byte_pushedBytes_of_not_pushed ?_
    rw [hsp]
    exact hp

end Alone

end Units

/-! ### Lists of registers -/

/-- The pair of a register and its mate. -/
theorem pairAndMate?_spec {u p mate : Register} (hu : u ∈ Arch.bytes .i8080)
    (h : pairAndMate? u = some (p, mate)) :
    ∃ high low, (high, low) ∈ halves ∧ pairArg p = .ok (.reg high.name) ∧
      (u = low ∧ mate = high ∨ u = high ∧ mate = low) := by
  have hall : ∀ r ∈ Arch.bytes .i8080, ∀ q ∈ pairAndMate? r, ∃ hl ∈ halves, q.1.high? = some hl.1 ∧
      (r = hl.2 ∧ q.2 = hl.1 ∨ r = hl.1 ∧ q.2 = hl.2) := by decide
  obtain ⟨⟨high, low⟩, hmem, hhigh, hsides⟩ := hall u hu (p, mate) h
  refine ⟨high, low, hmem, ?_, hsides⟩
  simp only at hhigh
  simp [pairArg, hhigh]

/-- Mates are mates of each other. -/
theorem pairAndMate?_symm {u v q : Register} (hv : v ∈ Arch.bytes .i8080)
    (h : pairAndMate? v = some (q, u)) :
    ∃ p, pairAndMate? u = some (p, v) := by
  have hall : ∀ r ∈ Arch.bytes .i8080, ∀ x ∈ pairAndMate? r,
      (pairAndMate? x.2).map Prod.snd = some r := by decide
  obtain ⟨⟨p, w⟩, hu, rfl⟩ := Option.map_eq_some_iff.mp (hall v hv (q, u) h)
  exact ⟨p, hu⟩

theorem pairAndMate?_ne_a {v q : Register} (hv : v ∈ Arch.bytes .i8080) :
    pairAndMate? v ≠ some (q, Intel.a) := by
  have hall : ∀ r ∈ Arch.bytes .i8080, ∀ x ∈ pairAndMate? r, x.2 ≠ Intel.a := by decide
  exact fun h => hall v hv (q, Intel.a) h rfl

/-- No register that is to be saved has its mate done without being done itself. -/
def Paired (done us : List Register) : Prop :=
  ∀ u ∈ us, u ∉ done → ∀ p mate, pairAndMate? u = some (p, mate) → mate ∉ done

section Lists

variable {u p mate : Register} {us done : List Register} {n : Nat} {t : SaveCode} {arg : Arg}

theorem Paired.tail (h : Paired done (u :: us)) : Paired done us := fun v hv => h v (.tail _ hv)

/-- The accumulator is done. -/
theorem Paired.accumulator (h : Paired done us) (hus : ∀ u ∈ us, u ∈ Arch.bytes .i8080) :
    Paired (Intel.a :: done) us := by
  intro v hv hnot q other hother hmem
  rcases List.mem_cons.mp hmem with rfl | hmem
  · exact pairAndMate?_ne_a (hus v hv) hother
  · exact h v hv (fun hd => hnot (.tail _ hd)) q other hother hmem

/-- A register and its mate are done. -/
theorem Paired.both (h : Paired done us) (hus : ∀ u ∈ us, u ∈ Arch.bytes .i8080)
    (hu : u ∈ Arch.bytes .i8080)
    (hpair : pairAndMate? u = some (p, mate)) : Paired (mate :: u :: done) us := by
  intro v hv hnot q other hother hmem
  simp only [List.mem_cons, not_or] at hmem hnot
  obtain ⟨q', hother'⟩ := pairAndMate?_symm (hus v hv) hother
  rcases hmem with rfl | rfl | hmem
  · obtain ⟨p', hpair'⟩ := pairAndMate?_symm hu hpair
    rw [hother'] at hpair'
    cases hpair'
    exact hnot.2.1 rfl
  · rw [hother'] at hpair
    cases hpair
    exact hnot.1 rfl
  · exact h v hv hnot.2.2 q other hother hmem

/-- A register whose mate is not to be saved is done. -/
theorem Paired.alone (h : Paired done us) (hus : ∀ u ∈ us, u ∈ Arch.bytes .i8080)
    (hpair : ∀ p mate, pairAndMate? u = some (p, mate) → mate ∉ us) : Paired (u :: done) us := by
  intro v hv hnot q other hother hmem
  simp only [List.mem_cons, not_or] at hmem hnot
  rcases hmem with rfl | hmem
  · obtain ⟨q', hother'⟩ := pairAndMate?_symm (hus v hv) hother
    exact hpair q' v hother' hv
  · exact h v hv hnot.2 q other hother hmem

theorem saveUnits_done (hu : u ∈ done) : saveUnits n done (u :: us) = saveUnits n done us := by
  rw [saveUnits, if_pos (by simpa using hu)]

theorem saveUnits_accumulator (hu : Intel.a ∉ done)
    (ht : saveUnits n (Intel.a :: done) us = .ok t) :
    saveUnits n done (Intel.a :: us) = .ok
      (SaveCode.andThen ⟨[⟨"push", [psw]⟩], [⟨"pop", [psw]⟩], n⟩ t) := by
  rw [saveUnits, if_neg (by simpa using hu), if_pos (by simp)]
  change (saveUnits n (Intel.a :: done) us >>= fun t => Except.ok (SaveCode.andThen _ t)) = _
  rw [ht]
  rfl

theorem saveUnits_pair (hu : u ∉ done) (ha : u ≠ Intel.a) (hpair : pairAndMate? u = some (p, mate))
    (hmate : mate ∈ us)
    (harg : pairArg p = .ok arg) (ht : saveUnits n (mate :: u :: done) us = .ok t) :
    saveUnits n done (u :: us) = .ok
      (SaveCode.andThen ⟨[⟨"push", [arg]⟩], [⟨"pop", [arg]⟩], n⟩ t) := by
  rw [saveUnits, if_neg (by simpa using hu), if_neg (by simpa using ha), hpair]
  simp only [Option.filter, List.contains_iff_mem.mpr hmate, if_true, harg]
  change (saveUnits n (mate :: u :: done) us >>= fun t => Except.ok (SaveCode.andThen _ t)) = _
  rw [ht]
  rfl

theorem saveUnits_alone (hu : u ∉ done) (ha : u ≠ Intel.a)
    (hpair : ((pairAndMate? u).filter fun q => us.contains q.2) = none)
    (ht : saveUnits (n + 1) (u :: done) us = .ok t) :
    saveUnits n done (u :: us) = .ok ((saveAlone n u).andThen t) := by
  rw [saveUnits, if_neg (by simpa using hu), if_neg (by simpa using ha), hpair]
  change (saveUnits (n + 1) (u :: done) us >>= fun t => Except.ok (SaveCode.andThen _ t)) = _
  rw [ht]
  rfl

/-- **The save code of a list of registers.** No half of a pair is saved twice, since a register
that is not done has a mate that is not done. -/
theorem exists_inverts_saveUnits (hus : ∀ u ∈ us, u ∈ Arch.bytes .i8080) (n : Nat)
    (done : List Register) (hpaired : Paired done us) :
    ∃ s d, saveUnits n done us = .ok s ∧
      s.Inverts .i8080 n (us.filter fun u => !done.contains u) d := by
  induction us generalizing n done with
  | nil => exact ⟨_, 0, rfl, .none _ n⟩
  | cons u us ih =>
    have hu := hus u (.head _)
    have hrest : ∀ v ∈ us, v ∈ Arch.bytes .i8080 := fun v hv => hus v (.tail _ hv)
    by_cases hin : u ∈ done
    · obtain ⟨s, d, hs, hinv⟩ := ih hrest n done hpaired.tail
      exact ⟨s, d, (saveUnits_done hin).trans hs, hinv.congr fun v => by simp [hin]⟩
    by_cases ha : u = Intel.a
    · subst ha
      obtain ⟨t, e, ht, hinv⟩ := ih hrest n _ (hpaired.tail.accumulator hrest)
      refine ⟨_, _, saveUnits_accumulator hin ht, ((inverts_psw n).andThen hinv (by simp)).congr
        fun v => ?_⟩
      by_cases hv : v = Intel.a
      · simp [hv, hin]
      · simp [hv]
    cases hfilter : (pairAndMate? u).filter fun q => us.contains q.2 with
    | some q =>
      obtain ⟨p, mate⟩ := q
      obtain ⟨hpair, hmate⟩ := Option.filter_eq_some_iff.mp hfilter
      have hmate : mate ∈ us := by simpa using hmate
      have hmateDone := hpaired u (.head _) hin p mate hpair
      obtain ⟨high, low, hhalves, harg, hsides⟩ := pairAndMate?_spec hu hpair
      obtain ⟨t, e, ht, hinv⟩ := ih hrest n _ (hpaired.tail.both hrest hu hpair)
      have hboth : ∀ v, v ∈ [low, high] ↔ v = u ∨ v = mate := by
        intro v
        rcases hsides with ⟨rfl, rfl⟩ | ⟨rfl, rfl⟩
        · simp
        · simp [or_comm]
      refine ⟨_, _, saveUnits_pair hin ha hpair hmate harg ht,
        ((inverts_pair hhalves n).andThen hinv ?_).congr ?_⟩
      · intro v hv
        rcases (hboth v).mp hv with rfl | rfl <;> simp
      · intro v
        rw [List.mem_append, hboth]
        by_cases hvu : v = u
        · simp [hvu, hin]
        · by_cases hvm : v = mate
          · simp [hvm, hmate, hmateDone]
          · simp [hvu, hvm]
    | none =>
      have hmate : ∀ p mate, pairAndMate? u = some (p, mate) → mate ∉ us := by
        intro p mate h hmem
        rw [h] at hfilter
        simp [Option.filter, hmem] at hfilter
      obtain ⟨t, e, ht, hinv⟩ := ih hrest (n + 1) _ (hpaired.tail.alone hrest hmate)
      refine ⟨_, _, saveUnits_alone hin ha hfilter ht,
        ((inverts_alone hu ha n).andThen hinv (by simp)).congr fun v => ?_⟩
      by_cases hv : v = u
      · simp [hv, hin]
      · simp [hv]

end Lists

end Intel

end Octet
