import Octet.Proofs.Generated.Emission

/-!
# What save code promises

Code that saves registers and code that restores them are two ends of a contract; what stands
between them is not known to either. `SaveCode.Inverts` is this contract on machines of the
simulator. Saving leaves all that the processor shows; restoring, from any machine that still has
the stack bytes and the save cells, brings the saved registers back and leaves the others as it
finds them.

Save code is put together from pieces, and the restores run in reverse. So the contract also has to
say what a piece leaves alone: `Saving` and `Restoring` name every byte of memory that may change.
Then pieces for different registers compose, if the bytes that they use are apart.

A piece may use two bytes of the stack in passing, below those that it leaves there.

## Main definitions

* `Simulator.Processor.execute` — instructions executed one after the other
* `Arch.slot`, `Arch.lowered` — the bytes of the stack, and the pointer after some were pushed
* `Arch.Proper`, `Arch.Roomy` — machines with byte registers, and with room for what is saved
* `SaveCode.Inverts` — the contract

## Main results

* `Simulator.Passes.of_execute` — control passes through what can be executed
* `SaveCode.Inverts.andThen` — the contract of save code put together from two pieces
-/

namespace Octet

open Assembly (Arg Instr Line)
open Build (saveCellName)

/-! ### Executing instructions one after the other -/

namespace Simulator

variable {κ : Type} {p : Processor κ} {i : Instr} {is js : List Instr} {M M' : Machine κ}

/-- **Executing instructions** in a row, each of which has to go on with the next one. Directives of
the assembler are passed over. -/
def Processor.execute (p : Processor κ) : List Instr → Machine κ → Option (Machine κ)
  | [], M => some M
  | i :: is, M =>
    match Line.executed? (.instr i) with
    | none => p.execute is M
    | some i =>
      match (p.step i).run M with
      | (.ok .next, M') => p.execute is M'
      | _ => none

namespace Processor

@[simp] theorem execute_nil : p.execute [] M = some M := rfl

theorem execute_skip (h : Line.executed? (.instr i) = none) :
    p.execute (i :: is) M = p.execute is M := by
  rw [execute, h]

theorem execute_cons {op : String} {args : List Arg} (h : (op.toList.head? == some '.') = false)
    (hstep : (p.step ⟨op, args⟩).run M = (.ok .next, M')) :
    p.execute (⟨op, args⟩ :: is) M = p.execute is M' := by
  rw [execute, Line.executed?_instr h]
  dsimp only
  rw [hstep]

/-- The first instruction of a row was executed. -/
theorem exists_step_of_execute (h : Line.executed? (.instr i) = some i)
    (he : p.execute (i :: is) M = some M') :
    ∃ N, (p.step i).run M = (.ok .next, N) ∧ p.execute is N = some M' := by
  rw [execute, h] at he
  dsimp only at he
  split at he
  · rename_i N hstep
    exact ⟨N, hstep, he⟩
  · cases he

theorem execute_append : p.execute (is ++ js) M = (p.execute is M).bind (p.execute js) := by
  induction is generalizing M with
  | nil => rfl
  | cons i is ih =>
    rw [List.cons_append, execute, execute]
    split
    · exact ih
    · split
      · exact ih
      · rfl

end Processor

/-- **Control passes through what can be executed.** -/
theorem Passes.of_execute {s : Simulator κ} {c : Code} {n : Nat}
    (h : s.processor.execute is M = some M')
    (hsits : c.Sits n (is.map Line.instr)) :
    s.Passes c n (n + Line.count (is.map Line.instr)) M M' := by
  induction is generalizing n M with
  | nil =>
    obtain rfl : M = M' := Option.some.inj h
    exact .refl s c n M
  | cons i is ih =>
    have htail : c.Sits (n + Line.count [.instr i]) (is.map Line.instr) := Code.Sits.right hsits
    have hcount : Line.count ((i :: is).map Line.instr) = Line.count [.instr i] +
        Line.count (is.map Line.instr) :=
      Line.count_append [.instr i] _
    rw [hcount, ← Nat.add_assoc]
    cases hi : Line.executed? (.instr i) with
    | none =>
      have hzero : Line.count [.instr i] = 0 := by simp [Line.count, hi]
      rw [Processor.execute_skip hi] at h
      rw [hzero] at htail ⊢
      exact ih h htail
    | some j =>
      obtain rfl : i = j := by
        simp only [Line.executed?] at hi
        split at hi
        · cases hi
        · exact Option.some.inj hi
      obtain ⟨N, hstep, h⟩ := Processor.exists_step_of_execute hi h
      obtain ⟨line, hline⟩ := hsits.head hi
      have hone : Line.count [.instr i] = 1 := by simp [Line.count, hi]
      rw [hone] at htail ⊢
      exact (Passes.of_next hline hstep).trans (ih h htail)

end Simulator

open Simulator (Memory Reading)

/-! ### The stack in memory -/

namespace Arch

/-- The bytes of the stack: one page on the 6502 family, all of memory on the 8080. -/
def stackSize : Arch → Nat
  | .i8080 => 65536
  | _ => 256

/-- The address of the byte that is pushed after `k` others. -/
def slot (m : Arch) (pointer : Int) (k : Nat) : Int :=
  match m with
  | .i8080 => pointer - 1 - k
  | _ => 256 + (pointer - k) % 256

/-- The stack pointer after `k` bytes were pushed. -/
def lowered (m : Arch) (pointer : Int) (k : Nat) : Int := (pointer - k) % m.stackSize

/-- The bytes of memory that hold the first `d` bytes pushed. -/
def Pushed (m : Arch) (pointer : Int) (d : Nat) (i : Fin 65536) : Prop :=
  ∃ k < d, i = Memory.index (m.slot pointer k)

variable {m : Arch} {p : Int} {d e j k : Nat}

theorem stackSize_pos (m : Arch) : 0 < m.stackSize := by cases m <;> decide

theorem lowered_nonneg (m : Arch) (p : Int) (k : Nat) : 0 ≤ m.lowered p k := by
  have := m.stackSize_pos
  exact Int.emod_nonneg _ (by omega)

theorem lowered_lt (m : Arch) (p : Int) (k : Nat) : m.lowered p k < m.stackSize := by
  have := m.stackSize_pos
  exact Int.emod_lt_of_pos _ (by omega)

theorem lowered_zero (h₀ : 0 ≤ p) (h₁ : p < m.stackSize) : m.lowered p 0 = p := by
  rw [lowered, Int.natCast_zero, Int.sub_zero, Int.emod_eq_of_lt h₀ h₁]

theorem lowered_lowered : m.lowered (m.lowered p d) e = m.lowered p (d + e) := by
  rw [lowered, lowered, lowered, Int.emod_sub_emod, Int.natCast_add, Int.sub_sub]

/-- Bytes pushed from a lowered pointer on come after those pushed before. -/
theorem index_slot_lowered (m : Arch) (p : Int) (d k : Nat) :
    Memory.index (m.slot (m.lowered p d) k) = Memory.index (m.slot p (d + k)) := by
  rw [Memory.index_eq_iff]
  cases m <;> simp only [slot, lowered, stackSize] <;> omega

theorem slot_injective (hj : j < m.stackSize) (hk : k < m.stackSize)
    (h : Memory.index (m.slot p j) = Memory.index (m.slot p k)) : j = k := by
  rw [Memory.index_eq_iff] at h
  cases m <;> simp only [slot, stackSize] at h hj hk <;> omega

theorem Pushed.mono {i : Fin 65536} (h : m.Pushed p d i) (hle : d ≤ e) : m.Pushed p e i := by
  obtain ⟨k, hk, rfl⟩ := h
  exact ⟨k, by omega, rfl⟩

theorem Pushed.of_lowered {i : Fin 65536} (h : m.Pushed (m.lowered p d) e i) :
    m.Pushed p (d + e) i := by
  obtain ⟨k, hk, rfl⟩ := h
  exact ⟨d + k, by omega, m.index_slot_lowered p d k⟩

/-- What was pushed before is apart from what is pushed next. -/
theorem not_pushed_lowered (hk : k < d) (hroom : d + e ≤ m.stackSize) :
    ¬ m.Pushed (m.lowered p d) e (Memory.index (m.slot p k)) := by
  rintro ⟨j, hj, h⟩
  rw [index_slot_lowered] at h
  have := slot_injective (by omega) (by omega) h
  omega

end Arch

/-! ### Machines -/

namespace Arch

variable (m : Arch) (M : Simulator.Machine m.Cpu)

/-- What the processor shows under a name. -/
def shows (name : String) : Option Reading := (m.processor.readings M.cpu).lookup name

/-- The stack pointer. -/
def pointer : Int := m.processor.stackPointer M.cpu

/-- The names of registers that are bytes. -/
def byteNames : Arch → List String
  | .i8080 => ["a", "b", "c", "d", "e", "h", "l"]
  | _ => ["a", "x", "y", "b"]

/-- The names of what saving leaves: all but the stack pointer and, on the 6502 family, the flags of
the last value. -/
def steady : Arch → List String
  | .i8080 => ["a", "b", "c", "d", "e", "h", "l", "s", "z", "cy"]
  | _ => ["a", "x", "y", "b", "c", "v", "wide"]

/-- What comes back with a register: on the 8080 the flags come back with the accumulator. -/
def names (u : Register) : List String :=
  if u.isCell then [] else if m = .i8080 ∧ u = Intel.a then ["a", "s", "z", "cy"] else [u.name]

/-- The registers that can be saved. -/
def savable : List Register := m.bytes ++ m.cells

/-- A machine whose registers are bytes and whose accumulator is narrow. -/
structure Proper : Prop where
  byte : ∀ r ∈ m.byteNames, ∃ v : UInt8, m.shows M r = some (.number v.toNat)
  narrow : m.shows M "wide" ≠ some (.flag true)
  nonneg : 0 ≤ m.pointer M
  lt : m.pointer M < m.stackSize

/-- The bytes of the registers that are memory cells, and of the save cells below `k`. -/
inductive Owns (k : Nat) : String → Nat → Prop
  | register {u : Register} {o : Nat} : u ∈ m.cells → o < u.width → Owns k u.address o
  | save {i o : Nat} : i < k → o < 2 → Owns k (saveCellName i) o

/-- **Room for saving**: cells are placed apart from each other, and apart from the next bytes of
the stack. -/
structure Roomy (symbols : List (String × Int)) (k : Nat) (pointer : Int) (room : Nat) : Prop where
  placed : ∀ name o, m.Owns k name o → (symbols.lookup name).isSome
  apart : ∀ name o name' o', m.Owns k name o → m.Owns k name' o' →
    Memory.index (addressIn symbols name + o) = Memory.index (addressIn symbols name' + o') →
      name = name' ∧ o = o'
  clear : ∀ name o, m.Owns k name o → ¬ m.Pushed pointer room
    (Memory.index (addressIn symbols name + o))
  room : room ≤ m.stackSize

/-- The bytes of the save cells from `n` up to `k`. -/
def SaveByte (symbols : List (String × Int)) (n k : Nat) (i : Fin 65536) : Prop :=
  ∃ j o : Nat, n ≤ j ∧ j < k ∧ o < 2 ∧ i = Memory.index (addressIn symbols (saveCellName j) + o)

/-- The bytes of those registers of a list that are memory cells. -/
def CellByte (symbols : List (String × Int)) (us : List Register) (i : Fin 65536) : Prop :=
  ∃ u ∈ us, u.isCell = true ∧ ∃ o : Nat, o < u.width ∧
    i = Memory.index (addressIn symbols u.address + o)

end Arch

/-! ### Registers and cells -/

namespace Arch

variable {m : Arch} {u v : Register} {name : String} {symbols : List (String × Int)} {p : Int}
  {n k k' d e : Nat} {us : List Register}

theorem mem_cells_of_isCell (hu : u ∈ m.savable) (hcell : u.isCell = true) : u ∈ m.cells := by
  rcases List.mem_append.mp hu with h | h
  · have hbytes : ∀ r ∈ m.bytes, r.isCell = false := by cases m <;> decide
    rw [hbytes u h] at hcell
    cases hcell
  · exact h

theorem mem_steady_of_mem_names (hu : u ∈ m.savable) (h : name ∈ m.names u) : name ∈ m.steady := by
  have hall : ∀ r ∈ m.savable, ∀ s ∈ m.names r, s ∈ m.steady := by cases m <;> decide
  exact hall u hu name h

/-- Different registers bring different things back. -/
theorem not_mem_names_of_ne (hu : u ∈ m.savable) (hv : v ∈ m.savable) (hne : u ≠ v)
    (h : name ∈ m.names u) :
    name ∉ m.names v := by
  have hall : ∀ r ∈ m.bytes, ∀ s ∈ m.bytes, r ≠ s → ∀ n ∈ m.names r, n ∉ m.names s := by
    cases m <;> decide
  have hbytes : ∀ r ∈ m.savable, ∀ n ∈ m.names r, r ∈ m.bytes := by
    intro r hr n hn
    rcases List.mem_append.mp hr with hr | hr
    · exact hr
    · have hcells : ∀ s ∈ m.cells, s.isCell = true := by cases m <;> decide
      simp [names, hcells r hr] at hn
  intro h'
  exact hall u (hbytes u hu name h) v (hbytes v hv name h') hne name h h'

/-! ### Bytes that are apart -/

namespace Roomy

theorem mono {room room' : Nat} (h : m.Roomy symbols k p room) (hk : k' ≤ k)
    (hroom : room' ≤ room) :
    m.Roomy symbols k' p room' := by
  have howns : ∀ name o, m.Owns k' name o → m.Owns k name o := by
    intro name o ho
    cases ho with
    | register hu ho => exact .register hu ho
    | save hi ho => exact .save (by omega) ho
  refine ⟨fun name o ho => h.placed name o (howns _ _ ho), fun name o name' o' ho ho' => ?_,
    fun name o ho hp => h.clear name o (howns _ _ ho) (hp.mono hroom), by have := h.room; omega⟩
  exact h.apart name o name' o' (howns _ _ ho) (howns _ _ ho')

/-- Room that is left after some bytes were pushed. -/
theorem lowered (h : m.Roomy symbols k p (d + e)) : m.Roomy symbols k (m.lowered p d) e :=
  ⟨h.placed, h.apart, fun name o ho hp => h.clear name o ho hp.of_lowered, by have := h.room; omega⟩

section Apart

variable {room j i o : Nat} (h : m.Roomy symbols k p room)

include h

theorem not_pushed_save (hj : j < k) (ho : o < 2) :
    ¬ m.Pushed p room (Memory.index (addressIn symbols (saveCellName j) + o)) :=
  h.clear _ o (.save hj ho)

theorem not_pushed_cell (hu : u ∈ m.cells) (ho : o < u.width) :
    ¬ m.Pushed p room (Memory.index (addressIn symbols u.address + o)) :=
  h.clear _ o (.register hu ho)

theorem not_saveByte_slot (hi : i < room) : ¬ SaveByte symbols n k (Memory.index (m.slot p i)) := by
  rintro ⟨j, o, -, hj, ho, he⟩
  exact h.not_pushed_save hj ho ⟨i, hi, he.symm⟩

theorem not_cellByte_slot (hus : ∀ u ∈ us, u ∈ m.savable) (hi : i < room) :
    ¬ CellByte symbols us (Memory.index (m.slot p i)) := by
  rintro ⟨u, hu, hcell, o, ho, he⟩
  exact h.not_pushed_cell (mem_cells_of_isCell (hus u hu) hcell) ho ⟨i, hi, he.symm⟩

theorem not_cellByte_save (hus : ∀ u ∈ us, u ∈ m.savable) (hj : j < k) (ho : o < 2) :
    ¬ CellByte symbols us (Memory.index (addressIn symbols (saveCellName j) + o)) := by
  rintro ⟨u, hu, hcell, o', ho', he⟩
  have hmem := mem_cells_of_isCell (hus u hu) hcell
  exact (address_ne hmem j).2 (h.apart _ _ _ _ (.save hj ho) (.register hmem ho') he).1.symm

theorem not_saveByte_save (hj : j < k) (ho : o < 2) (hk : k' ≤ k) (hout : j < n ∨ k' ≤ j) :
    ¬ SaveByte symbols n k' (Memory.index (addressIn symbols (saveCellName j) + o)) := by
  rintro ⟨j', o', hn, hj', ho', he⟩
  have := Build.saveCellName_injective (h.apart _ _ _ _ (.save hj ho) (.save (by omega) ho') he).1
  omega

theorem not_saveByte_cell (hu : u ∈ m.cells) (ho : o < u.width) :
    ¬ SaveByte symbols n k (Memory.index (addressIn symbols u.address + o)) := by
  rintro ⟨j, o', -, hj, ho', he⟩
  exact (address_ne hu j).2 (h.apart _ _ _ _ (.register hu ho) (.save hj ho') he).1

theorem not_cellByte_cell (hus : ∀ u ∈ us, u ∈ m.savable) (hu : u ∈ m.cells) (ho : o < u.width)
    (hne : u ∉ us) :
    ¬ CellByte symbols us (Memory.index (addressIn symbols u.address + o)) := by
  rintro ⟨v, hv, hcell, o', ho', he⟩
  have hmem := mem_cells_of_isCell (hus v hv) hcell
  have := address_injective hu hmem (h.apart _ _ _ _ (.register hu ho) (.register hmem ho') he).1
  exact hne (this ▸ hv)

end Apart

end Roomy

end Arch

/-! ### The contract -/

namespace Arch

variable (m : Arch)

/-- **Saving** has pushed `d` bytes, may have written the save cells from `n` up to `k`, and leaves
the rest. -/
structure Saving (n k d : Nat) (M M₁ : Simulator.Machine m.Cpu) : Prop where
  pointer : m.pointer M₁ = m.lowered (m.pointer M) d
  shows : ∀ name ∈ m.steady, m.shows M₁ name = m.shows M name
  symbols : M₁.memory.symbols = M.memory.symbols
  bytes : ∀ a, ¬ m.Pushed (m.pointer M) (d + 2) (Memory.index a) →
    ¬ SaveByte M.memory.symbols n k (Memory.index a) → M₁.memory.byte a = M.memory.byte a

/-- What has to be kept of what was saved: the stack pointer, the `d` bytes pushed from `p` on, the
save cells from `n` up to `k`, and the places of symbols. -/
structure Keeping (n k d : Nat) (p : Int) (M₁ M₂ : Simulator.Machine m.Cpu) : Prop where
  pointer : m.pointer M₂ = m.pointer M₁
  symbols : ∀ name a, M₁.memory.symbols.lookup name = some a →
    M₂.memory.symbols.lookup name = some a
  stack : ∀ i < d, M₂.memory.byte (m.slot p i) = M₁.memory.byte (m.slot p i)
  cells : ∀ j o : Nat, n ≤ j → j < k → o < 2 →
    M₂.memory.byte (addressIn M₁.memory.symbols (saveCellName j) + o) =
      M₁.memory.byte (addressIn M₁.memory.symbols (saveCellName j) + o)

/-- **Restoring** brings registers back as they were in `M`, with the stack pointer, and leaves the
rest as it is in `M₂`. -/
structure Restoring (us : List Register) (d : Nat) (M M₂ M₃ : Simulator.Machine m.Cpu) : Prop where
  pointer : m.pointer M₃ = m.pointer M
  back : ∀ u ∈ us, ∀ name ∈ m.names u, m.shows M₃ name = m.shows M name
  cells : ∀ u ∈ us, u.isCell = true → ∀ o : Nat, o < u.width →
    M₃.memory.byte (addressIn M.memory.symbols u.address + o) = M.memory.byte
      (addressIn M.memory.symbols u.address + o)
  other : ∀ name ∈ m.steady, (∀ u ∈ us, name ∉ m.names u) → m.shows M₃ name = m.shows M₂ name
  symbols : M₃.memory.symbols = M₂.memory.symbols
  bytes : ∀ a, ¬ m.Pushed (m.pointer M) (d + 2) (Memory.index a) →
    ¬ CellByte M.memory.symbols us (Memory.index a) → M₃.memory.byte a = M₂.memory.byte a

/-- The bytes of what an instruction pushes. -/
def slotBytes : Arch → Int
  | .i8080 => 2
  | _ => 1

end Arch

/-- **Save code inverts itself** around whatever keeps what it has saved. -/
structure SaveCode.Inverts (m : Arch) (n : Nat) (us : List Register) (d : Nat) (code : SaveCode) :
    Prop where
  units : ∀ u ∈ us, u ∈ m.savable
  next : n ≤ code.next
  depth : m.slotBytes * Line.rises (code.save.map Line.instr) = d
  inverts : ∀ M, m.Proper M → m.Roomy M.memory.symbols code.next (m.pointer M) (d + 2) →
    ∃ M₁, m.processor.execute code.save M = some M₁ ∧ m.Saving n code.next d M M₁ ∧
      ∀ M₂, m.Proper M₂ → m.Keeping n code.next d (m.pointer M) M₁ M₂ →
        ∃ M₃, m.processor.execute code.restore M₂ = some M₃ ∧ m.Restoring us d M M₂ M₃

namespace Arch

variable {m : Arch} {n k l d e : Nat} {p : Int} {us : List Register}
  {M M₁ M₂ M₃ : Simulator.Machine m.Cpu}

/-- A machine that shows what one of two proper machines shows is proper. -/
theorem Proper.mix {N : Simulator.Machine m.Cpu} (hM : m.Proper M) (hM₂ : m.Proper M₂)
    (h : ∀ name ∈ m.steady, m.shows N name = m.shows M name ∨ m.shows N name = m.shows M₂ name)
    (h₀ : 0 ≤ m.pointer N) (h₁ : m.pointer N < m.stackSize) : m.Proper N := by
  refine ⟨fun r hr => ?_, ?_, h₀, h₁⟩
  · have hsteady : ∀ s ∈ m.byteNames, s ∈ m.steady := by cases m <;> decide
    rcases h r (hsteady r hr) with h | h
    · rw [h]
      exact hM.byte r hr
    · rw [h]
      exact hM₂.byte r hr
  · by_cases hwide : "wide" ∈ m.steady
    · rcases h "wide" hwide with h | h
      · rw [h]
        exact hM.narrow
      · rw [h]
        exact hM₂.narrow
    · cases m with
      | i8080 => rintro ⟨⟩
      | mos6502 | wdc65816 => exact absurd (by decide) hwide

theorem Saving.proper (h : m.Saving n k d M M₁) (hM : m.Proper M) : m.Proper M₁ := by
  refine hM.mix hM (fun name hname => .inl (h.shows name hname)) ?_ ?_
  · rw [h.pointer]
    exact m.lowered_nonneg _ _
  · rw [h.pointer]
    exact m.lowered_lt _ _

theorem Restoring.proper (h : m.Restoring us d M M₂ M₃) (hM : m.Proper M) (hM₂ : m.Proper M₂) :
    m.Proper M₃ := by
  refine hM.mix hM₂ (fun name hname => ?_) ?_ ?_
  · by_cases hback : ∃ u ∈ us, name ∈ m.names u
    · obtain ⟨u, hu, hname⟩ := hback
      exact .inl (h.back u hu name hname)
    · exact .inr (h.other name hname fun u hu hn => hback ⟨u, hu, hn⟩)
  · rw [h.pointer]
    exact hM.nonneg
  · rw [h.pointer]
    exact hM.lt

/-- Restoring one register of the processor. -/
theorem Restoring.of_register {u : Register} (hcell : u.isCell = false)
    (hpointer : m.pointer M₃ = m.pointer M)
    (hback : ∀ name ∈ m.names u, m.shows M₃ name = m.shows M name)
    (hother : ∀ name ∈ m.steady, name ∉ m.names u → m.shows M₃ name = m.shows M₂ name)
    (hsymbols : M₃.memory.symbols = M₂.memory.symbols)
    (hbytes : ∀ a, ¬ m.Pushed (m.pointer M) (d + 2) (Memory.index a) →
      M₃.memory.byte a = M₂.memory.byte a) :
    m.Restoring [u] d M M₂ M₃ where
  pointer := hpointer
  back := List.forall_mem_singleton.mpr hback
  cells := by
    refine List.forall_mem_singleton.mpr fun h => ?_
    rw [hcell] at h
    cases h
  other name hname hno := hother name hname (hno u (.head _))
  symbols := hsymbols
  bytes a hp _ := hbytes a hp

/-- Saving after saving. The second one leaves what is neither on the rest of the stack nor in its
own cells. -/
theorem Saving.trans (h : m.Saving n k d M M₁) (h' : m.Saving k l e M₁ M₂) (hn : n ≤ k)
    (hk : k ≤ l) :
    m.Saving n l (d + e) M M₂ := by
  refine ⟨?_, fun name hname => (h'.shows name hname).trans (h.shows name hname),
    h'.symbols.trans h.symbols,
    fun a hp hc => ?_⟩
  · rw [h'.pointer, h.pointer, lowered_lowered]
  · rw [h'.bytes a, h.bytes a]
    · exact fun h => hp (h.mono (by omega))
    · rintro ⟨j, o, hj, hj', ho, ha⟩
      exact hc ⟨j, o, hj, Nat.lt_of_lt_of_le hj' hk, ho, ha⟩
    · rw [h.pointer]
      exact fun h => hp h.of_lowered
    · rw [h.symbols]
      rintro ⟨j, o, hj, hj', ho, ha⟩
      exact hc ⟨j, o, Nat.le_trans hn hj, hj', ho, ha⟩

/-- Restoring `vs`, which were saved after `us`, and then `us`. -/
theorem Restoring.trans {vs : List Register} {Ma Mb : Simulator.Machine m.Cpu}
    (h : m.Restoring us d M Mb M₃) (h' : m.Restoring vs e Ma M₂ Mb) (hsaving : m.Saving n k d M Ma)
    (hroomy : m.Roomy M.memory.symbols l (m.pointer M) (d + e + 2)) (hk : k ≤ l)
    (hus : ∀ u ∈ us, u ∈ m.savable)
    (hvs : ∀ u ∈ vs, u ∈ m.savable) (hdisjoint : ∀ u ∈ us, u ∉ vs) :
    m.Restoring (us ++ vs) (d + e) M M₂ M₃ := by
  refine ⟨h.pointer, fun u hu name hname => ?_, fun u hu hcell o ho => ?_, fun name hname hno => ?_,
    h.symbols.trans h'.symbols, fun a hp hc => ?_⟩
  · rcases List.mem_append.mp hu with hu | hu
    · exact h.back u hu name hname
    · have hsteady := mem_steady_of_mem_names (hvs u hu) hname
      rw [h.other name hsteady, h'.back u hu name hname, hsaving.shows name hsteady]
      intro v hv
      refine not_mem_names_of_ne (hvs u hu) (hus v hv) ?_ hname
      rintro rfl
      exact hdisjoint u hv hu
  · rcases List.mem_append.mp hu with hu | hu
    · exact h.cells u hu hcell o ho
    · have hmem := mem_cells_of_isCell (hvs u hu) hcell
      have hout := hroomy.not_pushed_cell hmem ho
      have hcells := h'.cells u hu hcell o ho
      rw [hsaving.symbols] at hcells
      rw [h.bytes, hcells, hsaving.bytes]
      · exact fun h => hout (h.mono (by omega))
      · exact (hroomy.mono hk (Nat.le_refl _)).not_saveByte_cell hmem ho
      · exact fun h => hout (h.mono (by omega))
      · exact hroomy.not_cellByte_cell hus hmem ho fun hv => hdisjoint u hv hu
  · rw [h.other name hname fun u hu => hno u (List.mem_append_left _ hu),
      h'.other name hname fun u hu => hno u (List.mem_append_right _ hu)]
  · rw [h.bytes, h'.bytes]
    · rw [hsaving.pointer]
      exact fun h => hp h.of_lowered
    · rw [hsaving.symbols]
      rintro ⟨u, hu, hcell⟩
      exact hc ⟨u, List.mem_append_right _ hu, hcell⟩
    · exact fun h => hp (h.mono (by omega))
    · rintro ⟨u, hu, hcell⟩
      exact hc ⟨u, List.mem_append_left _ hu, hcell⟩

/-- What is kept for two pieces of save code is kept for the second one. -/
theorem Keeping.inner {n' : Nat} (h : m.Keeping n k (d + e) p M₁ M₂) (hn : n ≤ n') :
    m.Keeping n' k e (m.lowered p d) M₁ M₂ := by
  refine ⟨h.pointer, h.symbols, fun i hi => ?_, fun j o hj => h.cells j o (Nat.le_trans hn hj)⟩
  have hslot := h.stack (d + i) (by omega)
  have hindex := Memory.index_eq_iff.mp (m.index_slot_lowered p d i)
  rw [Memory.byte_congr hindex, hslot, Memory.byte_congr hindex]

/-- Undoing the second of two pieces of save code leaves what has to be kept for the first one. -/
theorem Keeping.outer (hkeep : m.Keeping n k (d + e) p M₁ M₂)
    (hroomy : m.Roomy M.memory.symbols k p (d + e + 2))
    (hpointer : m.pointer M = m.lowered p d) (hunits : ∀ u ∈ us, u ∈ m.savable) (hl : l ≤ k)
    (hsaving : m.Saving l k e M M₁) (hr : m.Restoring us e M M₂ M₃) : m.Keeping n l d p M M₃ := by
  have hroom := hroomy.room
  refine ⟨hr.pointer, fun name a hname => ?_, fun i hi => ?_, fun j o hj hj' ho => ?_⟩
  · rw [hr.symbols]
    refine hkeep.symbols name a ?_
    rwa [hsaving.symbols]
  · have hout : ¬ m.Pushed (m.pointer M) (e + 2) (Memory.index (m.slot p i)) := by
      rw [hpointer]
      exact not_pushed_lowered hi (by omega)
    rw [hr.bytes _ hout (hroomy.not_cellByte_slot hunits (by omega)), hkeep.stack i (by omega),
      hsaving.bytes _ hout (hroomy.not_saveByte_slot (by omega))]
  · have hj'' := Nat.lt_of_lt_of_le hj' hl
    have hout : ¬ m.Pushed (m.pointer M) (e + 2)
        (Memory.index (addressIn M.memory.symbols (saveCellName j) + o)) := by
      rw [hpointer]
      exact fun h => hroomy.not_pushed_save hj'' ho h.of_lowered
    have hcells := hkeep.cells j o hj hj'' ho
    rw [hsaving.symbols] at hcells
    rw [hr.bytes _ hout (hroomy.not_cellByte_save hunits hj'' ho), hcells,
      hsaving.bytes _ hout (hroomy.not_saveByte_save hj'' ho (Nat.le_refl _) (.inl hj'))]

end Arch

namespace SaveCode.Inverts

open Arch

variable {m : Arch} {n d e : Nat} {us vs : List Register} {s t : SaveCode}

/-- Nothing is saved. -/
theorem none (m : Arch) (n : Nat) : (SaveCode.none n).Inverts m n [] 0 where
  units := by simp
  next := Nat.le_refl n
  depth := by simp [SaveCode.none, Line.rises]
  inverts M hM _ := by
    refine ⟨M, rfl, ⟨(lowered_zero hM.nonneg hM.lt).symm, fun _ _ => rfl, rfl, fun _ _ _ => rfl⟩,
      ?_⟩
    intro M₂ _ hkeep
    exact ⟨M₂, rfl, hkeep.pointer, by simp, by simp, fun _ _ _ => rfl, rfl, fun _ _ _ => rfl⟩

/-- The contract is about the registers of a list, in whatever order. -/
theorem congr (h : s.Inverts m n us d) (hmem : ∀ u, u ∈ vs ↔ u ∈ us) : s.Inverts m n vs d where
  units u hu := h.units u ((hmem u).mp hu)
  next := h.next
  depth := h.depth
  inverts M hM hroomy := by
    obtain ⟨M₁, hsave, hsaving, hback⟩ := h.inverts M hM hroomy
    refine ⟨M₁, hsave, hsaving, fun M₂ hM₂ hkeep => ?_⟩
    obtain ⟨M₃, hrestore, hr⟩ := hback M₂ hM₂ hkeep
    refine ⟨M₃, hrestore, hr.pointer, fun u hu => hr.back u ((hmem u).mp hu),
      fun u hu => hr.cells u ((hmem u).mp hu), fun name hname hno => ?_, hr.symbols, fun a hp hc =>
        hr.bytes a hp ?_⟩
    · exact hr.other name hname fun u hu => hno u ((hmem u).mpr hu)
    · rintro ⟨u, hu, hcell⟩
      exact hc ⟨u, (hmem u).mpr hu, hcell⟩

/-- **Save code put together from two pieces.** The second piece is undone first, on what the middle
has left; that leaves the stack and the cells of the first piece, which is undone then. -/
theorem andThen (hs : s.Inverts m n us d) (ht : t.Inverts m s.next vs e)
    (hdisjoint : ∀ u ∈ us, u ∉ vs) :
    (s.andThen t).Inverts m n (us ++ vs) (d + e) where
  units u hu := (List.mem_append.mp hu).elim (hs.units u) (ht.units u)
  next := Nat.le_trans hs.next ht.next
  depth := by
    rw [SaveCode.andThen, List.map_append, Line.rises_append, Int.mul_add, hs.depth, ht.depth,
      Int.natCast_add]
  inverts M hM hroomy := by
    change m.Roomy M.memory.symbols t.next (m.pointer M) (d + e + 2) at hroomy
    obtain ⟨Ma, hsave, hsaving, hback⟩ := hs.inverts M hM (hroomy.mono ht.next (by omega))
    have hMa := hsaving.proper hM
    have hroomy' : m.Roomy Ma.memory.symbols t.next (m.pointer Ma) (e + 2) := by
      rw [hsaving.symbols, hsaving.pointer]
      exact Roomy.lowered (e := e + 2) hroomy
    obtain ⟨M₁, hsave', hsaving', hback'⟩ := ht.inverts Ma hMa hroomy'
    refine ⟨M₁, ?_, hsaving.trans hsaving' hs.next ht.next, fun M₂ hM₂ hkeep => ?_⟩
    · change m.processor.execute (s.save ++ t.save) M = _
      rw [Simulator.Processor.execute_append, hsave]
      exact hsave'
    have hkeep' : m.Keeping s.next t.next e (m.pointer Ma) M₁ M₂ := by
      rw [hsaving.pointer]
      exact hkeep.inner hs.next
    obtain ⟨Mb, hrestore', hr'⟩ := hback' M₂ hM₂ hkeep'
    have hkeep₁ : m.Keeping n s.next d (m.pointer M) Ma Mb := by
      refine hkeep.outer ?_ hsaving.pointer ht.units ht.next hsaving' hr'
      rwa [hsaving.symbols]
    obtain ⟨M₃, hrestore, hr⟩ := hback Mb (hr'.proper hMa hM₂) hkeep₁
    refine ⟨M₃, ?_, hr.trans hr' hsaving hroomy ht.next hs.units ht.units hdisjoint⟩
    change m.processor.execute (t.restore ++ s.restore) M₂ = _
    rw [Simulator.Processor.execute_append, hrestore']
    exact hrestore

end SaveCode.Inverts

end Octet
