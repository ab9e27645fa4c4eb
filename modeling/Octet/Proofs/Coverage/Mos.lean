import Octet.Proofs.Coverage.Layout
import Octet.Proofs.Coverage.Performed

/-!
# The table of the 65816 and the machine

On the machines of the 6502 family some registers are cells of memory, and any store may hit one. So
the promise of the table is about memory as well: a cell that an instruction does not list keeps
what it holds. That needs a layout in which cells lie apart, and stores that stay inside the cell
they name.

The stack is the other way to write memory. The page of the stack lies below all cells, but the
stack pointer is cut to a byte only after a push. A push from a stack pointer above the page writes
above the page, and may hit a cell (`pushed_into_cell`); with the stack pointer within the page the
promise holds.

## Main definitions

* `Assembly.Arg.Inside` — an access that stays inside the cell it names
* `Simulator.MosCpu.Beside` — a store beside some bytes

## Main results

* `Simulator.MosCpu.guardsAt_step` — memory is changed by stores and pushes only
* `Simulator.MosCpu.wideEffect_covers` — the table of the 65816 covers what the machine does, as
  long as pushes go to the page of the stack
-/

namespace Octet

open Assembly (Arg Instr)

/-- The operand lies inside the cell of its symbol if it is in memory, and is not reached through a
pointer. -/
def Assembly.Arg.Inside (cells : List String) (size : String → Int) (width : Nat) : Arg → Prop
  | .mem name offset => name ∈ cells ∧ 0 ≤ offset ∧ offset + width ≤ size name
  | .ind _ _ => False
  | _ => True

namespace Simulator

variable {α : Type}

namespace MosCpu

open Exec

variable {S : Int → Prop} {i : Instr}

/-! ### Instructions that do not store -/

theorem guards_addressOf (a : Arg) : Guards S (address a) := by
  unfold address
  split
  · exact guards_bind (guards_address _) fun _ => guards_pure _
  · exact guards_bind (guards_address _) fun _ => guards_bind (guards_read _ _) fun _ =>
      guards_bind guards_cpu fun _ => guards_pure _
  · exact guards_throw _

theorem guards_readOf (a : Arg) (w : Nat) : Guards S (read a w) := by
  unfold read
  split
  · exact guards_pure _
  · exact guards_bind (guards_address _) fun _ => guards_pure _
  · exact guards_bind guards_cpu fun _ => guards_pure _
  · exact guards_bind (guards_addressOf _) fun _ => guards_read _ _

theorem guards_registers (f : MosCpu → MosCpu) : Guards S (registers f) :=
  guards_bind (guards_update f) fun _ => guards_pure _

theorem guards_loadKind (w : Nat) (set : MosCpu → Int → MosCpu) : Guards S (load i w set) :=
  guards_bind (guards_operand i 0) fun _ => guards_bind (guards_readOf _ _) fun _ =>
    guards_bind (guards_update _) fun _ => guards_pure _

theorem guards_operate (f : MosCpu → Int → Nat → MosCpu) : Guards S (operate i f) :=
  guards_bind guards_cpu fun _ => guards_bind (guards_operand i 0) fun _ =>
    guards_bind (guards_readOf _ _) fun _ =>
    guards_bind (guards_update _) fun _ => guards_pure _

theorem guards_compareIndex (get : MosCpu → Int) : Guards S (compareIndex i get) :=
  guards_bind (guards_operand i 0) fun _ => guards_bind (guards_readOf _ _) fun _ =>
    guards_bind (guards_update _) fun _ => guards_pure _

theorem guards_setMode (wide : Bool) : Guards S (setMode i wide) :=
  guards_bind (guards_operand i 0) fun _ => guards_bind (guards_readOf _ _) fun _ =>
    guards_registers _

theorem guards_branch (cond : MosCpu → Bool) : Guards S (branch i cond) :=
  guards_bind guards_cpu fun _ => guards_pure _

theorem guards_pull : Guards S pull :=
  guards_bind (guards_update _) fun _ => guards_bind guards_cpu fun _ => guards_load _

/-! ### Instructions that store -/

/-- A store of some bytes through the operand lies beside the guarded bytes. -/
def Beside (S : Int → Prop) (m : Memory) (width : Nat) : Arg → Prop
  | .mem s offset => ∃ a, m.symbols.lookup s = some a ∧ 0 ≤ a + offset ∧
    a + offset + width ≤ 0x10000 ∧
      ∀ b, S b → 0 ≤ b ∧ b < 0x10000 ∧ (b < a + offset ∨ a + offset + width ≤ b)
  | .ind _ _ => False
  | _ => True

theorem guardsAt_access {a : Arg} {w : Nat} {M : Machine MosCpu} (h : Beside S M.memory w a)
    {f : Int → Exec MosCpu α}
    (hf : ∀ addr, (∀ v, Memory.Guards S M.memory (M.memory.write addr w v)) →
      GuardsAt S (f addr) M) :
    GuardsAt S (address a >>= f) M := by
  cases a with
  | mem s offset =>
    obtain ⟨addr, hs, h₀, h₁, hb⟩ := h
    have hrun : (address (.mem s offset)).run M = (.ok (addr + offset), M) :=
      run_bind (run_address hs)
    rw [GuardsAt, run_bind hrun]
    exact hf _ fun v => Memory.guards_write h₀ h₁ hb
  | ind => exact h.elim
  | imm | symbol | reg | label => exact .refl S M.memory

theorem guardsAt_operand_bind {n : Nat} {f : Arg → Exec MosCpu α} {M : Machine MosCpu}
    (h : ∀ a, i.args[n]? = some a → GuardsAt S (f a) M) :
    GuardsAt S (Exec.operand i n >>= f) M := by
  unfold Exec.operand
  cases ha : i.args[n]? with
  | none => exact .refl S M.memory
  | some a => exact h a ha

theorem guardsAt_store {w : Nat} {value : MosCpu → Int} {M : Machine MosCpu}
    (h : ∀ a, i.args.head? = some a → Beside S M.memory w a) : GuardsAt S (store i w value) M := by
  refine guardsAt_operand_bind fun a ha => guardsAt_access (h a ?_) fun addr hwrite => hwrite _
  rw [List.head?_eq_getElem?, ha]

theorem guardsAt_modify {f : MosCpu → Int → Nat → Bool × Int} {M : Machine MosCpu}
    (h : ∀ a, i.args.head? = some a → Beside S M.memory M.cpu.width a) :
    GuardsAt S (modify i f) M := by
  unfold modify
  split
  · exact guards_registers _ M
  · exact guards_registers _ M
  · rename_i a rest _ hargs
    refine guardsAt_access (h a (by rw [hargs]; rfl)) fun addr hwrite => ?_
    exact hwrite _

/-- The byte that a push stores, with a stack pointer within the page of the stack or below it. -/
theorem or_lt {sp : Int} (hsp : sp < 0x200) : Bits.or 0x100 sp < 0x200 := by
  cases sp with
  | ofNat n =>
    have hn : n < 2 ^ 9 := by simpa using hsp
    have hlt : 0x100 ||| n < 2 ^ 9 := Nat.or_lt_two_pow (by decide) hn
    have hor : Bits.or 0x100 (Int.ofNat n) = ((0x100 ||| n : Nat) : Int) := Bits.or_natCast 0x100 n
    omega
  | negSucc n =>
    have hnot : Bits.not (Int.negSucc n) = (n : Int) := by
      simp only [Bits.not]
      omega
    have hor : Bits.or 0x100 (Int.negSucc n) = -((n ^^^ (n &&& 0x100) : Nat) : Int) - 1 := by
      rw [Bits.or, hnot]
      rfl
    omega

theorem guardsAt_push {v : Int} {M : Machine MosCpu} (hS : ∀ b, S b → 0x200 ≤ b ∧ b < 0x10000)
    (hsp : M.cpu.sp < 0x200) : GuardsAt S (push v) M := by
  refine guards_bindAt (x := Exec.store (Bits.or 0x100 M.cpu.sp) v) ?_ fun _ _ => guards_update _ _
  unfold Exec.store
  split
  · rename_i hin
    refine Memory.guards_setByte fun b hb => ?_
    have hb := hS b hb
    have hlt := or_lt hsp
    simp only [Bool.and_eq_true, decide_eq_true_eq] at hin
    rw [Ne, Memory.index_eq_iff]
    omega
  · exact .refl S M.memory

/-- After a push the stack pointer is within its page. -/
theorem sp_push {v : Int} {M : Machine MosCpu} (h : ((push v).run M).1 = .ok ()) :
    ((push v).run M).2.cpu.sp < 0x200 := by
  have hpush : ((push v).run M).2.cpu = { M.cpu with sp := Bits.low 8 (M.cpu.sp - 1) } :=
    (meets_push (T := fun _ => True) fun _ => trivial).of_ok h
  rw [hpush]
  exact (Bits.within_low 8 _).2.trans (by decide)

/-- How many bytes an instruction takes from memory or puts there. -/
def accessed (op : String) (c : MosCpu) : Nat :=
  if op ∈ ["ldx", "ldy", "stx", "sty", "cpx", "cpy", "rep", "sep"] then 1 else c.width

/-- The instructions that push. -/
def pushOps : List String := ["pha", "phx", "phy", "php"]

/-- The instructions that write the memory of their operand. -/
def storeOps : List String := ["sta", "stx", "sty", "stz", "asl", "lsr", "rol", "ror", "inc", "dec"]

/-- **Memory is changed by stores and pushes only**, and there where they say. -/
theorem guardsAt_step {M : Machine MosCpu} (hS : ∀ b, S b → 0x200 ≤ b ∧ b < 0x10000)
    (hpush : i.op ∈ pushOps → M.cpu.sp < 0x200)
    (hstore : i.op ∈ storeOps → ∀ a, i.args.head? = some a →
      Beside S M.memory (accessed i.op M.cpu) a) :
    GuardsAt S (step i) M := by
  obtain ⟨op, args⟩ := i
  dsimp only at hpush hstore
  unfold step
  split
  -- loads and stores
  case h_1 h =>
    cases h
    exact guards_bind guards_cpu (fun _ => guards_loadKind _ _) M
  case h_2 h | h_3 h =>
    cases h
    exact guards_loadKind _ _ M
  case h_4 h | h_7 h =>
    cases h
    rw [accessed, if_neg (by decide)] at hstore
    refine guards_bindAt (guards_cpu M) fun c hc => ?_
    cases hc
    exact guardsAt_store (hstore (by decide))
  case h_5 h | h_6 h =>
    cases h
    exact guardsAt_store (hstore (by decide))
  -- copies, counting and arithmetic
  case h_8 h | h_9 h | h_10 h | h_11 h | h_12 h | h_13 h | h_14 h | h_15 h | h_30 h | h_31
    h | h_40 h =>
    cases h
    exact guards_registers _ M
  case h_16 h | h_17 h | h_18 h | h_19 h | h_20 h | h_21 h =>
    cases h
    exact guards_operate _ M
  case h_22 h | h_23 h =>
    cases h
    exact guards_compareIndex _ M
  case h_24 h | h_25 h | h_26 h | h_27 h | h_28 h | h_29 h =>
    cases h
    rw [accessed, if_neg (by decide)] at hstore
    exact guardsAt_modify (hstore (by decide))
  -- the stack
  case h_32 h =>
    cases h
    have hsp := hpush (by decide)
    refine guards_bindAt (guards_cpu M) fun c hc => ?_
    split
    · refine guards_bindAt (guardsAt_push hS hsp) fun _ hok => ?_
      exact guards_bindAt (guardsAt_push hS (sp_push hok)) fun _ _ => guards_pure _ _
    · exact guards_bindAt (guardsAt_push hS hsp) fun _ _ => guards_pure _ _
  case h_34 h | h_35 h | h_38 h =>
    cases h
    exact guards_bindAt (guards_cpu M) fun _ _ =>
      guards_bindAt (guardsAt_push hS (hpush (by decide))) fun _ _ => guards_pure _ _
  case h_33 h =>
    cases h
    refine guards_bind guards_pull (fun _ => guards_bind (guards_update _) fun _ =>
      guards_bind guards_cpu fun c => ?_) M
    split
    · exact guards_bind guards_pull fun _ => guards_bind (guards_update _) fun _ =>
        guards_registers _
    · exact guards_registers _
  case h_36 h | h_37 h | h_39 h =>
    cases h
    exact guards_bind guards_pull (fun _ => guards_registers _) M
  -- the accumulator mode and control
  case h_41 h | h_42 h =>
    cases h
    exact guards_setMode _ M
  case h_43 h | h_44 h | h_45 h =>
    cases h
    exact guards_pure _ M
  case h_46 h | h_47 h | h_48 h | h_49 h | h_50 h | h_51 h | h_52 h | h_53 h =>
    cases h
    exact guards_branch _ M
  case h_54 => exact guards_throw _ M

/-! ### Registers and flags -/

/-- Instructions that change the accumulator or memory in place. -/
def modifyOps : List String := ["asl", "lsr", "rol", "ror", "inc", "dec"]

/-- What the table says of a change in place: one of the accumulator is reported as a result, one of
memory by the register whose cell that is. -/
theorem wideEffect_modify {op : String} (hop : op ∈ modifyOps) (args : List Arg) :
    (accumulates args = true ∧ Mos.wideEffect? ⟨op, args⟩ = some (.computes Mos.a)) ∨
      ∃ a rest, args = a :: rest ∧ accumulates args = false ∧
        Mos.wideEffect? ⟨op, args⟩ = some ⟨Mos.stored a, true, none⟩ := by
  simp only [modifyOps, List.mem_cons, List.not_mem_nil, or_false] at hop
  cases args with
  | nil => exact .inl ⟨rfl, by rcases hop with rfl | rfl | rfl | rfl | rfl | rfl <;> rfl⟩
  | cons a rest =>
    by_cases ha : a = .reg "a"
    · subst ha
      exact .inl ⟨rfl, by rcases hop with rfl | rfl | rfl | rfl | rfl | rfl <;> rfl⟩
    · refine .inr ⟨a, rest, rfl, ?_, ?_⟩
      · unfold accumulates
        split <;> simp_all
      · rcases hop with rfl | rfl | rfl | rfl | rfl | rfl <;> simp [Mos.wideEffect?, Mos.effect?]

/-- What the table says of a store: the register whose cell it is to. -/
theorem wideEffect_store {op : String} (hop : op ∈ ["sta", "stx", "sty", "stz"]) {args : List Arg}
    {e : Effect}
    (he : Mos.wideEffect? ⟨op, args⟩ = some e) : ∃ a rest, args = a :: rest ∧
      e = ⟨Mos.stored a, false, none⟩ := by
  simp only [List.mem_cons, List.not_mem_nil, or_false] at hop
  cases args with
  | nil =>
    have hnil : Mos.wideEffect? ⟨op, []⟩ = none := by rcases hop with rfl | rfl | rfl | rfl <;> rfl
    simp [hnil] at he
  | cons a rest =>
    have hcons : Mos.wideEffect? ⟨op, a :: rest⟩ = some ⟨Mos.stored a, false, none⟩ := by
      rcases hop with rfl | rfl | rfl | rfl <;> rfl
    exact ⟨a, rest, rfl, Option.some.inj (he.symm.trans hcons)⟩

/-- The byte registers that an effect spares. -/
def sparedBy (e : Effect) (c : MosCpu) : Option Int × Option Int × Option Int :=
  (if e.spares Mos.a then some c.a else none, if e.spares Mos.x then some c.x else none,
    if e.spares Mos.y then some c.y else none)

theorem sparedBy_setAcc (c : MosCpu) (v : Int) :
    sparedBy (.computes Mos.a) (c.setAcc v) = sparedBy (.computes Mos.a) c := by
  unfold setAcc
  split <;> rfl

/-- The flags show the register. -/
def ShowsRegister (r : Register) (c : MosCpu) : Prop :=
  ∃ v, c.readings.lookup r.name = some (.number v) ∧ Shows c.z c.n v

section Shown

variable {c : MosCpu} (hc : c.wide = false)
include hc

/-- The flags of a value show the narrow accumulator, once its byte is there. -/
theorem showsRegister_setAcc {v u : Int} (hvu : u % 256 = v % 256) :
    ShowsRegister Mos.a ((c.setAcc v).setNZ u c.width) := by
  rw [width_of_narrow hc]
  have hshow : Shows ((c.setAcc v).setNZ u 1).z ((c.setAcc v).setNZ u 1).n u := ⟨rfl, rfl⟩
  refine ⟨Bits.low 8 v, ?_, hshow.congr ?_⟩
  · simp only [setAcc, hc]
    rfl
  · rw [hvu, Bits.low_eight]
    omega

theorem showsRegister_logic (v : Int) :
    ShowsRegister Mos.a ((c.setAcc v).setNZ (c.setAcc v).acc c.width) := by
  refine showsRegister_setAcc hc ?_
  simp only [setAcc, acc, hc]
  simp [Bits.low_eight]

theorem showsRegister_add (v : Int) : ShowsRegister Mos.a (c.add v c.width) := by
  have hmod : ∀ sum, sum % 256 = Bits.low (8 * c.width) sum % 256 := by
    intro sum
    rw [width_of_narrow hc]
    exact (Int.emod_emod_of_dvd sum (dvd_refl 256)).symm
  unfold add
  exact showsRegister_setAcc (by exact hc) (hmod _)

theorem showsRegister_acc : ShowsRegister Mos.a (c.setNZ c.acc c.width) := by
  rw [width_of_narrow hc, acc, if_neg (Bool.eq_false_iff.mp hc)]
  exact ⟨c.a, rfl, rfl, rfl⟩

end Shown

/-- **What the table promises of registers and flags**: a byte register that is not listed keeps its
value, and the sign and the zero flag stay if they are not reported; the flags show a result that is
reported, in an index register or in a narrow accumulator. -/
structure Covered (e : Effect) (c c' : MosCpu) : Prop where
  kept : sparedBy e c' = sparedBy e c
  flags : e.flags = false → c'.n = c.n ∧ c'.z = c.z
  result : ∀ r, e.result = some r → c.wide = false ∨ r ≠ Mos.a → ShowsRegister r c'

namespace Covered

variable {e : Effect} {c c' : MosCpu}

theorem accumulator (hk : sparedBy (.computes Mos.a) c' = sparedBy (.computes Mos.a) c)
    (h : c.wide = false → ShowsRegister Mos.a c') : Covered (.computes Mos.a) c c' where
  kept := hk
  flags := by rintro ⟨⟩
  result := by
    rintro _ ⟨⟩ hwide
    exact h (hwide.resolve_right (· rfl))

theorem copied {r : Register} (hk : sparedBy (.computes r) c' = sparedBy (.computes r) c)
    (h : ShowsRegister r c') :
    Covered (.computes r) c c' where
  kept := hk
  flags := by rintro ⟨⟩
  result := by
    rintro _ ⟨⟩ _
    exact h

theorem silent (hk : sparedBy e c' = sparedBy e c) (hf : e.flags = false → c'.n = c.n ∧ c'.z = c.z)
    (hr : e.result = none) : Covered e c c' where
  kept := hk
  flags := hf
  result r h := by
    rw [hr] at h
    cases h

/-- A byte register that is not listed shows what it showed. -/
theorem lookup (h : Covered e c c') {r : Register} (hr : r ∈ Arch.bytes .wdc65816)
    (hs : e.spares r = true) :
    c'.readings.lookup r.name = c.readings.lookup r.name := by
  have hkept := h.kept
  simp only [sparedBy, Prod.mk.injEq] at hkept
  simp only [Arch.bytes, List.mem_cons, List.not_mem_nil, or_false] at hr
  rcases hr with rfl | rfl | rfl
  all_goals
    simp only [hs, if_true, Option.some.injEq] at hkept
    simp [readings, Mos.a, Mos.x, Mos.y, Register.name, List.lookup, hkept]

end Covered

theorem covered_modify {op : String} (hop : op ∈ modifyOps) {args : List Arg} {e : Effect}
    (he : Mos.wideEffect? ⟨op, args⟩ = some e) {c : MosCpu} {v : Int} {k : Bool} :
    Covered e c (if accumulates args then ({ c with c := k }.setAcc v).setNZ v c.width
      else { c with c := k }.setNZ v c.width) := by
  rcases wideEffect_modify hop args with ⟨hacc, he'⟩ | ⟨a, rest, -, hacc, he'⟩
  · obtain rfl := Option.some.inj (he'.symm.trans he)
    rw [if_pos hacc]
    exact .accumulator (sparedBy_setAcc { c with c := k } v) fun hc =>
      showsRegister_setAcc (c := { c with c := k }) hc rfl
  · obtain rfl := Option.some.inj (he'.symm.trans he)
    rw [if_neg (Bool.eq_false_iff.mp hacc)]
    exact .silent rfl (by rintro ⟨⟩) rfl

/-- **The table covers the registers and flags that an instruction changes.** -/
theorem covered_change {v u : Int} {k : Bool} {c c' : MosCpu} {e : Effect}
    (h : change? i v u k c = some c') (he : Mos.wideEffect? i = some e) : Covered e c c' := by
  obtain ⟨op, args⟩ := i
  unfold change? at h
  split at h
  -- the accumulator
  case h_1 ho =>
    cases ho
    cases h
    cases he
    exact .accumulator (sparedBy_setAcc c v) fun hc => showsRegister_setAcc hc rfl
  case h_13 ho | h_14 ho =>
    cases ho
    cases h
    cases he
    exact .accumulator (sparedBy_setAcc { c with c := _, v := _ } _) fun hc =>
      showsRegister_add hc v
  case h_15 ho | h_16 ho | h_17 ho =>
    cases ho
    cases h
    cases he
    exact .accumulator (sparedBy_setAcc c v) fun hc => showsRegister_logic hc v
  case h_21 ho | h_22 ho | h_23 ho | h_24 ho | h_25 ho | h_26 ho =>
    cases ho
    cases h
    exact covered_modify (by decide) he
  case h_33 ho =>
    cases ho
    cases h
    cases he
    exact .accumulator rfl fun hc => showsRegister_acc (by exact hc)
  -- copies, whose value is in one register
  case h_2 ho | h_3 ho | h_4 ho | h_5 ho | h_6 ho | h_7 ho | h_8 ho | h_34 ho | h_35 ho =>
    cases ho
    cases h
    cases he
    exact .copied rfl ⟨v, rfl, rfl, rfl⟩
  case h_9 ho | h_10 ho | h_11 ho | h_12 ho =>
    cases ho
    cases h
    cases he
    exact .copied rfl ⟨_, rfl, Shows.low ⟨rfl, rfl⟩⟩
  -- stores
  case h_39 ho | h_40 ho | h_41 ho | h_42 ho =>
    cases ho
    cases h
    obtain ⟨a, rest, -, rfl⟩ := wideEffect_store (by decide) he
    exact .silent rfl (fun _ => ⟨rfl, rfl⟩) rfl
  case h_54 => cases h
  case h_37 ho | h_38 ho =>
    cases ho
    cases h
    cases he
    exact .silent (by split <;> rfl) (by rintro ⟨⟩) rfl
  -- nothing else reports a result
  case h_18 ho | h_19 ho | h_20 ho | h_36 ho =>
    cases ho
    cases h
    cases he
    exact .silent rfl (by rintro ⟨⟩) rfl
  all_goals
    rename_i ho
    cases ho
    cases h
    cases he
    exact .silent rfl (fun _ => ⟨rfl, rfl⟩) rfl

/-! ### The promise of the table -/

/-- Every cell that serves as a register is found by its address. -/
theorem find_cell {r : Register} (hr : r ∈ Mos.cells) :
    Mos.cells.find? (·.address == r.address) = some r := by
  revert r
  decide

/-- A store that leaves a register alone is not to the cell of the register. -/
theorem ne_address_of_spares {r : Register} (hr : r ∈ Mos.cells) {s : String} {offset : Int}
    {flags : Bool}
    (h : Effect.spares ⟨Mos.stored (.mem s offset), flags, none⟩ r = true) : s ≠ r.address := by
  rintro rfl
  simp [Effect.spares, Mos.stored, find_cell hr, Register.clash, Register.conflicts,
    Register.contains] at h

/-- In a layout, an access inside the cell that it names lies beside the cell of another
register. -/
theorem beside_of_laid {m : Memory} {cells : List String} {size : String → Int}
    (hl : m.Laid cells size)
    {r : Register} (hr : r ∈ Mos.cells) (hcell : r.address ∈ cells)
    (hsize : r.width ≤ size r.address) {a : Int}
    (ha : m.symbols.lookup r.address = some a) {w : Nat} {arg : Arg} (hin : arg.Inside cells size w)
    {flags : Bool} (hs : Effect.spares ⟨Mos.stored arg, flags, none⟩ r = true) :
    Beside (fun b => a ≤ b ∧ b < a + r.width) m w arg := by
  cases arg with
  | mem s offset =>
    obtain ⟨hmem, h₀, h₁⟩ := hin
    obtain ⟨addr, haddr, hlow, hhigh⟩ := hl.placed s hmem
    obtain ⟨a', ha', hlow', hhigh'⟩ := hl.placed _ hcell
    obtain rfl := Option.some.inj (ha.symm.trans ha')
    have hapart := hl.apart s hmem _ hcell (ne_address_of_spares hr hs) addr a haddr ha
    exact ⟨addr, haddr, by omega, by omega, fun b hb => by omega⟩
  | ind => exact hin.elim
  | imm | symbol | reg | label => trivial

/-- A store or a change in place that leaves a register alone lies beside the cell of the
register. -/
theorem beside_of_spares {m : Memory} {cells : List String} {size : String → Int}
    (hl : m.Laid cells size)
    {r : Register} (hr : r ∈ Mos.cells) (hcell : r.address ∈ cells)
    (hsize : r.width ≤ size r.address) {a : Int}
    (ha : m.symbols.lookup r.address = some a) {e : Effect} (he : Mos.wideEffect? i = some e)
    (hs : e.spares r = true) (hop : i.op ∈ storeOps) {arg : Arg}
    (harg : i.args.head? = some arg) {w : Nat}
    (hin : arg.Inside cells size w) : Beside (fun b => a ≤ b ∧ b < a + r.width) m w arg := by
  obtain ⟨op, args⟩ := i
  have hkinds : op ∈ ["sta", "stx", "sty", "stz"] ∨ op ∈ modifyOps := by
    simpa [storeOps, modifyOps, or_assoc] using hop
  rcases hkinds with hop | hop
  · obtain ⟨b, rest, rfl, rfl⟩ := wideEffect_store hop he
    cases harg
    exact beside_of_laid hl hr hcell hsize ha hin hs
  · rcases wideEffect_modify hop args with ⟨hacc, -⟩ | ⟨b, rest, rfl, -, he'⟩
    · unfold accumulates at hacc
      split at hacc
      · cases harg
      · cases harg
        trivial
      · cases hacc
    · cases harg
      obtain rfl := Option.some.inj (he'.symm.trans he)
      exact beside_of_laid hl hr hcell hsize ha hin hs

/-- Only stores may have no entry in the table. -/
theorem exists_wideEffect (h : i.op ∉ ["sta", "stx", "sty", "stz"]) :
    ∃ e, Mos.wideEffect? i = some e := by
  unfold Mos.wideEffect?
  split
  case h_6 =>
    unfold Mos.effect?
    split
    all_goals first
      | exact ⟨_, rfl⟩
      | (rename_i hop; rw [hop] at h; exact absurd (by decide) h)
      | (split <;> exact ⟨_, rfl⟩)
  all_goals exact ⟨_, rfl⟩

/-- What is executed without a trap has an entry in the table: a store without an operand traps. -/
theorem exists_wideEffect_of_ok {M : Machine MosCpu} {t : Transfer}
    (h : ((step i).run M).1 = .ok t) :
    ∃ e, Mos.wideEffect? i = some e := by
  by_cases hop : i.op ∈ ["sta", "stx", "sty", "stz"]
  · obtain ⟨op, args⟩ := i
    simp only [List.mem_cons, List.not_mem_nil, or_false] at hop
    cases args with
    | nil => rcases hop with rfl | rfl | rfl | rfl <;> exact absurd h (by rintro ⟨⟩)
    | cons a rest => rcases hop with rfl | rfl | rfl | rfl <;> exact ⟨_, rfl⟩
  · exact exists_wideEffect hop

/-- A call spares nothing. -/
theorem spares_call {r : Register} (hr : r ∈ Arch.bytes .wdc65816 ++ Mos.cells) :
    Effect.spares ⟨[some Mos.a, some Mos.x, some Mos.y] ++ Mos.cells.map some, true, none⟩ r =
      false := by
  revert r
  decide

/-- **The table of the 65816 covers what the machine does.** Cells lie apart above the page of the
stack, the operand is no pointer and lies inside the cell that it names, and a push starts within
the page of the stack. Whenever such an instruction is executed without a trap, a call being one
step with what it calls: a byte register that its effect does not list keeps its value, a cell of a
register that it does not list holds what it held and, if neither flags nor a result are reported,
the sign and the zero flag stay; and the flags show the result that is reported, in an index
register or in a narrow accumulator. -/
theorem wideEffect_covers {M M' : Machine MosCpu} {cells : List String} {size : String → Int}
    (h : processor.Performs i M M') (hlaid : M.memory.Laid cells size)
    (hin : ∀ a, i.args.head? = some a → a.Inside cells size (accessed i.op M.cpu))
    (hpush : i.op ∈ pushOps → M.cpu.sp < 0x200) :
    ∃ e, Arch.effect? .wdc65816 i = some e ∧
      (∀ r ∈ Arch.bytes .wdc65816, e.spares r = true →
        M'.cpu.readings.lookup r.name = M.cpu.readings.lookup r.name) ∧
      (∀ r ∈ Mos.cells, r.address ∈ cells → r.width ≤ size r.address → e.spares r = true →
        (M'.memory.peek r.address r.width).1 = (M.memory.peek r.address r.width).1) ∧
      (e.flags = false → e.result = none → M'.cpu.n = M.cpu.n ∧ M'.cpu.z = M.cpu.z) ∧
      ∀ r, e.result = some r → M.cpu.wide = false ∨ r ≠ Mos.a →
        ∃ v, M'.cpu.readings.lookup r.name = some (.number v) ∧ Shows M'.cpu.z M'.cpu.n v := by
  obtain ⟨t, after, hstep, hafter⟩ := h
  have hrun : (step i).run M = (.ok t, after) := hstep
  obtain ⟨e, he⟩ := exists_wideEffect_of_ok (M := M) (t := t) (by rw [hrun])
  obtain ⟨ht, v, u, k, hchange⟩ := (meets_step i M.cpu).of_ok (by rw [hrun])
  rw [hrun] at hchange
  refine ⟨e, he, ?_⟩
  rcases hafter with rfl | ⟨name, rfl⟩
  · have hcovered := covered_change hchange he
    refine ⟨fun r hr hs => hcovered.lookup hr hs, fun r hr hcell hsize hs => ?_, fun hf _ =>
      hcovered.flags hf, hcovered.result⟩
    obtain ⟨a, ha, hlow, hhigh⟩ := hlaid.placed _ hcell
    have hguards : GuardsAt (fun b => a ≤ b ∧ b < a + r.width) (step i) M := by
      refine guardsAt_step (fun b hb => by omega) hpush fun hop arg harg => ?_
      exact beside_of_spares hlaid hr hcell hsize ha he hs hop harg (hin arg harg)
    rw [GuardsAt, hrun] at hguards
    exact hguards.peek ha
  · -- a call lists everything
    have hop : i.op = "jsr" := by
      refine (i.op_of_transfer ht).resolve_right fun hop => ?_
      simp [change?, hop] at hchange
    obtain ⟨op, args⟩ := i
    obtain rfl : op = "jsr" := hop
    obtain rfl := Option.some.inj he
    refine ⟨fun r hr hs => ?_, fun r hr _ _ hs => ?_, fun hf => ?_, fun r hr => ?_⟩
    · exact absurd (spares_call (List.mem_append_left _ hr)) (Bool.eq_false_iff.mp · hs)
    · exact absurd (spares_call (List.mem_append_right _ hr)) (Bool.eq_false_iff.mp · hs)
    · exact (Bool.false_ne_true hf.symm).elim
    · exact absurd hr (by simp)

/-- The cells of two registers, side by side. -/
def twoCells : List Assembly.Cell :=
  [⟨"cate_zb0", 1, [], .zeroPage⟩, ⟨"cate_zb1", 1, [], .zeroPage⟩]

/-- A store to the cell of a register leaves the one beside it. -/
theorem stored_beside_cell : ∃ m, Memory.ofCells? 0x200 twoCells = some m ∧
    ∃ M', processor.Performs ⟨"sta", [.mem "cate_zb1" 0]⟩ ⟨{ start with a := 7 }, m⟩ M' ∧
      (M'.memory.peek "cate_zb0" 1).1 = (m.peek "cate_zb0" 1).1 ∧ M'.cpu.z = false := by
  obtain ⟨m, hm⟩ : ∃ m, Memory.ofCells? 0x200 twoCells = some m := ⟨_, rfl⟩
  have hlaid : m.Laid ["cate_zb0", "cate_zb1"] fun _ => 1 :=
    Memory.laid_ofCells hm (by decide) (by decide) (by decide) (by decide)
  have hperforms : processor.Performs ⟨"sta", [.mem "cate_zb1" 0]⟩ ⟨{ start with a := 7 }, m⟩ _ :=
    ⟨.next, _, rfl, .inl rfl⟩
  obtain ⟨e, he, -, hcells, hflags, -⟩ := wideEffect_covers hperforms hlaid
    (by rintro a ⟨⟩; exact ⟨by decide, le_rfl, le_rfl⟩) (fun h => absurd h (by decide))
  obtain rfl := Option.some.inj he
  have hkept := hcells (.cell 10 "cate_zb0" 1 "cate_zb0" false) (by decide) (by decide) (by decide)
    (by decide)
  exact ⟨m, hm, _, hperforms, hkept, (hflags rfl rfl).2⟩

/-- A page of memory, and the cell of a register at `0x300`. -/
def cellAbove : List Assembly.Cell := [⟨"g", 256, [], .data⟩, ⟨"cate_zb0", 1, [], .zeroPage⟩]

/-- **A push from above the page of the stack hits a cell.** The stack pointer is `0x300`, as is the
address of the cell, and the table lists nothing. -/
theorem pushed_into_cell : ∃ m, Memory.ofCells? 0x200 cellAbove = some m ∧
    m.Laid ["g", "cate_zb0"] (fun s => if s = "g" then 256 else 1) ∧
    Arch.effect? .wdc65816 ⟨"pha", []⟩ = some .none ∧
    ∃ M', processor.Performs ⟨"pha", []⟩ ⟨{ start with a := 7, sp := 0x300 }, m⟩ M' ∧
      (m.peek "cate_zb0" 1).1 = 0 ∧ (M'.memory.peek "cate_zb0" 1).1 = 7 := by
  obtain ⟨m, hm⟩ : ∃ m, Memory.ofCells? 0x200 cellAbove = some m := ⟨_, rfl⟩
  have hlaid : m.Laid ["g", "cate_zb0"] fun s => if s = "g" then 256 else 1 :=
    Memory.laid_ofCells hm (by decide) (by decide) (by decide) (by decide)
  have hperforms : processor.Performs ⟨"pha", []⟩ ⟨{ start with a := 7, sp := 0x300 }, m⟩
      ⟨{ start with a := 7, sp := 0xff }, m.setByte 0x300 7⟩ := ⟨.next, _, rfl, .inl rfl⟩
  refine ⟨m, hm, hlaid, rfl, _, hperforms, ?_, ?_⟩
  · obtain rfl := Option.some.inj hm
    change (Memory.blank 0x200).read 0x300 1 = 0
    rw [Memory.read_one, Memory.byte_blank]
    rfl
  · have hpeek : ((m.setByte 0x300 7).peek "cate_zb0" 1).1 = (m.setByte 0x300 7).read 0x300 1 := by
      obtain rfl := Option.some.inj hm
      rfl
    rw [hpeek, Memory.read_one, Memory.byte_setByte_self]
    rfl

end MosCpu

end Simulator

end Octet
