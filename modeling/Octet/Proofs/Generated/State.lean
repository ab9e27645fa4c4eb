import Octet.Proofs.Steps

/-!
# What generated code sees of a machine

Generated code works on the byte registers, on memory at symbols, on the stack, on the carry, and on
the 65816 on the upper half of the accumulator. A `State` holds just that. Memory is addressed by
symbol and offset, so that two cells are told apart by their names, and the stack is a list of what
was pushed.

A state *depicts* a machine when the processor and the memory show what it says, for a given
placement of symbols. The placement has to be one that keeps cells apart from each other and from
the stack; this is assumed here, as it is up to whoever lays out memory.

`View.Runs` relates code to states: on every machine that a state depicts, the code runs from its
first line to its end, without a trap, and ends in a machine that the next state depicts. Code is
run where it sits among other code, by the simulator's own loop.

## Main definitions

* `State`, `Slot` — registers, memory, stack and carry
* `Layout`, `Layout.ofCells` — where symbols are, which bytes are used, and where the stack grows
* `Simulator.Code.Sits` — lines sit in code from a position on
* `Simulator.Passes` — control passes from a position to another one
* `Line.peak` — how high the stack rises over lines
* `View`, `View.Runs` — a processor with what depicts its machines, and code that leads from state
  to state

## Main results

* `View.Runs.append` — code is run piece by piece
-/

namespace Octet

open Assembly (Arg Instr Line)

/-! ### States -/

/-- What was pushed: a byte, a pair, or the accumulator with the flags. -/
inductive Slot where
  | byte (v : UInt8)
  | pair (high low : UInt8)
  | flags (a : UInt8) (carry : Bool)

/-- What generated code sees of a machine. -/
structure State where
  reg : Register → UInt8
  /-- Memory by symbol and offset. -/
  mem : String → Int → UInt8
  /-- What was pushed, the last first. -/
  stack : List Slot
  carry : Bool
  /-- Whether the accumulator is 16 bits wide. -/
  wide : Bool
  /-- The upper half of the accumulator. -/
  upper : UInt8

namespace State

/-- The state with a byte in a register. -/
def setReg (σ : State) (r : Register) (v : UInt8) : State :=
  { σ with reg := fun u => if u = r then v else σ.reg u }

/-- The state with a byte in memory. -/
def setMem (σ : State) (name : String) (offset : Int) (v : UInt8) : State :=
  { σ with mem := fun n o => if n = name ∧ o = offset then v else σ.mem n o }

/-- The state with another carry. -/
def setCarry (σ : State) (c : Bool) : State := { σ with carry := c }

/-- The state after something was pushed. -/
def push (σ : State) (s : Slot) : State := { σ with stack := s :: σ.stack }

/-- The state with another stack. -/
def setStack (σ : State) (stack : List Slot) : State := { σ with stack }

/-- The state with an accumulator of another width. -/
def setWide (σ : State) (wide : Bool) : State := { σ with wide }

/-- The state with another upper half of the accumulator. -/
def setUpper (σ : State) (v : UInt8) : State := { σ with upper := v }

attribute [simps -fullyApplied mem stack carry wide upper] setReg
attribute [simps -fullyApplied reg stack carry wide upper] setMem
attribute [simps -fullyApplied] setCarry push setStack setWide setUpper

theorem reg_setReg (σ : State) (r : Register) (v : UInt8) (u : Register) :
    (σ.setReg r v).reg u = if u = r then v else σ.reg u := rfl

theorem mem_setMem (σ : State) (n : String) (o : Int) (v : UInt8) (n' : String) (o' : Int) :
    (σ.setMem n o v).mem n' o' = if n' = n ∧ o' = o then v else σ.mem n' o' := rfl

@[simp] theorem reg_setReg_self (σ : State) (r : Register) (v : UInt8) :
    (σ.setReg r v).reg r = v := if_pos rfl

@[simp] theorem mem_setMem_self (σ : State) (n : String) (o : Int) (v : UInt8) :
    (σ.setMem n o v).mem n o = v :=
  if_pos ⟨rfl, rfl⟩

theorem reg_setReg_of_ne {σ : State} {r u : Register} {v : UInt8} (h : u ≠ r) :
    (σ.setReg r v).reg u = σ.reg u := if_neg h

end State

/-! ### Placement -/

/-- Where things are in memory. -/
structure Layout where
  /-- The addresses of symbols. -/
  symbols : List (String × Int)
  /-- The bytes that are in use, by symbol and offset. -/
  owns : String → Int → Prop
  /-- The stack pointer when nothing is pushed. -/
  base : Int
  /-- How many slots fit on the stack. -/
  room : Nat

/-- The address of a symbol. -/
def addressIn (symbols : List (String × Int)) (name : String) : Int := (symbols.lookup name).getD 0

namespace Layout

/-- The byte that a symbol with an offset selects. -/
def index (l : Layout) (name : String) (offset : Int) : Fin 65536 :=
  Simulator.Memory.index (addressIn l.symbols name + offset)

/-- Bytes that are in use are placed, and different ones at different addresses. -/
structure Apart (l : Layout) : Prop where
  placed : ∀ n o, l.owns n o → (l.symbols.lookup n).isSome
  distinct : ∀ n o n' o', l.owns n o → l.owns n' o' → l.index n o = l.index n' o' → n = n' ∧ o = o'

/-- The layout in which just some bytes are in use. -/
def ofCells (symbols : List (String × Int)) (cells : List (String × Int)) (base : Int)
    (room : Nat) : Layout :=
  ⟨symbols, fun n o => (n, o) ∈ cells, base, room⟩

theorem apart_ofCells {symbols cells : List (String × Int)}
    (hplaced : ∀ c ∈ cells, (symbols.lookup c.1).isSome)
    (hdistinct : (cells.map fun c => Simulator.Memory.index (addressIn symbols c.1 + c.2)).Nodup)
    (base : Int) (room : Nat) : (ofCells symbols cells base room).Apart where
  placed n o h := hplaced (n, o) h
  distinct _ _ _ _ h h' heq := Prod.mk.inj (List.inj_on_of_nodup_map hdistinct h h' heq)

end Layout

/-! ### Lines in code -/

/-- The instruction that a line executes. Directives of the assembler are not executed. -/
def Assembly.Line.executed? : Line → Option Instr
  | .instr i => if i.op.toList.head? == some '.' then none else some i
  | _ => none

theorem Assembly.Line.executed?_instr {op : String} {args : List Arg}
    (h : (op.toList.head? == some '.') = false) :
    Line.executed? (.instr ⟨op, args⟩) = some ⟨op, args⟩ := by
  simp [Line.executed?, h]

/-- How many instructions lines execute. -/
def Assembly.Line.count (ls : List Line) : Nat := (ls.filterMap Line.executed?).length

theorem Assembly.Line.count_append (ls ks : List Line) :
    count (ls ++ ks) = count ls + count ks := by
  simp [count]

namespace Simulator

/-- **Lines sit in code** from a position on: its instructions are theirs, and their labels mean the
position where they stand. -/
structure Code.Sits (c : Code) (n : Nat) (ls : List Line) : Prop where
  instr : ∀ k i, (ls.filterMap Line.executed?)[k]? = some i →
    ∃ line, c.instrs[n + k]? = some ⟨line, i⟩
  label : ∀ before name after, ls = before ++ .label name :: after →
    c.labels.lookup name = some (n + Line.count before)

namespace Code.Sits

variable {c : Code} {n : Nat} {ls ks : List Line}

theorem left (h : c.Sits n (ls ++ ks)) : c.Sits n ls where
  instr k i hk := by
    refine h.instr k i ?_
    rw [List.filterMap_append, List.getElem?_append_left]
    · exact hk
    · exact (List.getElem?_eq_some_iff.mp hk).1
  label before name after hls := h.label before name (after ++ ks) (by simp [hls])

theorem right (h : c.Sits n (ls ++ ks)) : c.Sits (n + Line.count ls) ks where
  instr k i hk := by
    have := h.instr (Line.count ls + k) i ?_
    · simpa [Nat.add_assoc] using this
    · rw [List.filterMap_append, List.getElem?_append_right (by simp [Line.count])]
      simpa [Line.count] using hk
  label before name after hls := by
    have := h.label (ls ++ before) name after (by simp [hls])
    simpa [Line.count, Nat.add_assoc] using this

theorem head {i : Instr} (h : c.Sits n (.instr i :: ls)) (hi : Line.executed? (.instr i) = some i) :
    ∃ line, c.instrs[n]? = some ⟨line, i⟩ :=
  h.instr 0 i (by simp [hi])

theorem nil (c : Code) (n : Nat) : c.Sits n [] where
  instr k i hk := by simp at hk
  label before name after h := by simp at h

/-- A line sits in front of others if its instruction is there, or its label means the position. -/
theorem cons {l : Line} (h : c.Sits (n + Line.count [l]) ls)
    (hinstr : ∀ i, l.executed? = some i → ∃ line, c.instrs[n]? = some ⟨line, i⟩)
    (hlabel : ∀ name, l = .label name → c.labels.lookup name = some n) : c.Sits n (l :: ls) where
  instr k i hk := by
    cases hl : l.executed? with
    | none =>
      rw [List.filterMap_cons_none hl] at hk
      simpa [Line.count, hl] using h.instr k i hk
    | some j =>
      rw [List.filterMap_cons_some hl] at hk
      cases k with
      | zero =>
        obtain rfl : j = i := by simpa using hk
        exact hinstr j hl
      | succ k =>
        have := h.instr k i (by simpa using hk)
        rwa [Line.count, List.filterMap_cons_some hl, List.filterMap_nil, List.length_singleton,
          Nat.add_assoc, Nat.add_comm 1] at this
  label before name after hls := by
    cases before with
    | nil =>
      obtain ⟨rfl, -⟩ := List.cons.inj hls
      exact hlabel name rfl
    | cons l' before =>
      obtain ⟨rfl, htail⟩ := List.cons.inj hls
      have := h.label before name after htail
      rwa [Nat.add_assoc, ← Line.count_append] at this

end Code.Sits

/-- Whether lines sit in code, by looking at them one after the other. -/
def Code.holds (c : Code) : Nat → List Line → Bool
  | _, [] => true
  | n, l :: ls =>
    (match l with
      | .label name => c.labels.lookup name == some n
      | _ => l.executed?.all fun i => c.instrs[n]?.map (·.instr) == some i) && c.holds
        (n + Line.count [l]) ls

theorem Code.sits_of_holds {c : Code} {n : Nat} {ls : List Line} (h : c.holds n ls = true) :
    c.Sits n ls := by
  induction ls generalizing n with
  | nil => exact .nil c n
  | cons l ls ih =>
    obtain ⟨hl, htail⟩ := Bool.and_eq_true_iff.mp h
    refine .cons (ih htail) (fun i hi => ?_) fun name hname => ?_
    · cases l with
      | label name => cases hi
      | comment text => cases hi
      | instr j =>
        dsimp only at hl
        rw [hi, Option.all_some, beq_iff_eq] at hl
        obtain ⟨⟨line, j'⟩, hp, rfl⟩ := Option.map_eq_some_iff.mp hl
        exact ⟨line, hp⟩
    · subst hname
      simpa using hl

/-! ### Passing through code -/

variable {κ : Type}

/-- **Control passes** from a position of some code to another one, while the machine changes. -/
def Passes (s : Simulator κ) (c : Code) (n n' : Nat) (M M' : Machine κ) : Prop :=
  ∃ k, ∀ name budget steps sp rest calls,
    s.runLoop name (budget + k) steps ⟨⟨c, n, sp⟩ :: rest, calls, M⟩ =
      s.runLoop name budget (steps + k) ⟨⟨c, n', sp⟩ :: rest, calls, M'⟩

namespace Passes

variable {s : Simulator κ} {c : Code} {n n' n'' : Nat} {M M' M'' : Machine κ}

theorem refl (s : Simulator κ) (c : Code) (n : Nat) (M : Machine κ) : s.Passes c n n M M :=
  ⟨0, fun _ _ _ _ _ _ => rfl⟩

theorem trans (h : s.Passes c n n' M M') (h' : s.Passes c n' n'' M' M'') :
    s.Passes c n n'' M M'' := by
  obtain ⟨k, hk⟩ := h
  obtain ⟨k', hk'⟩ := h'
  refine ⟨k' + k, fun name budget steps sp rest calls => ?_⟩
  rw [← Nat.add_assoc, hk, hk', Nat.add_assoc, Nat.add_comm k]

theorem of_next {line : Nat} {i : Instr} (hi : c.instrs[n]? = some ⟨line, i⟩)
    (hstep : (s.processor.step i).run M = (.ok .next, M')) : s.Passes c n (n + 1) M M' := by
  refine ⟨1, fun name budget steps sp rest calls => ?_⟩
  rw [runLoop]
  simp only [hi, execute, hstep, transfer, Option.map_none]

theorem of_jump {line position : Nat} {i : Instr} {label : String}
    (hi : c.instrs[n]? = some ⟨line, i⟩)
    (hstep : (s.processor.step i).run M = (.ok (.jump label), M'))
    (hlabel : c.labels.lookup label = some position) : s.Passes c n position M M' := by
  refine ⟨1, fun name budget steps sp rest calls => ?_⟩
  rw [runLoop]
  simp only [hi, execute, hstep, transfer, hlabel, Option.map_none]

end Passes

end Simulator

/-! ### The height of the stack -/

namespace Assembly

/-- How many slots an instruction pushes; one that pops counts below zero. -/
def Instr.rise (i : Instr) : Int :=
  match i.op with
  | "pha" | "phx" | "phy" | "php" | "push" => 1
  | "pla" | "plx" | "ply" | "plp" | "pop" => -1
  | _ => 0

namespace Line

/-- How many slots are pushed in a line. -/
def rise : Line → Int
  | .instr i => i.rise
  | _ => 0

/-- How many slots are pushed over lines. -/
def rises (ls : List Line) : Int := (ls.map rise).sum

/-- **How high the stack rises** over lines. -/
def peak : List Line → Int
  | [] => 0
  | l :: ls => max 0 (l.rise + peak ls)

theorem peak_nonneg (ls : List Line) : 0 ≤ peak ls := by
  cases ls with
  | nil => exact Int.le_refl 0
  | cons l ls => exact Int.le_max_left ..

theorem rises_le_peak (ls : List Line) : rises ls ≤ peak ls := by
  induction ls with
  | nil => exact Int.le_refl 0
  | cons l ls ih =>
    simp only [rises, List.map_cons, List.sum_cons, peak] at ih ⊢
    omega

theorem rises_append (ls ks : List Line) : rises (ls ++ ks) = rises ls + rises ks := by
  simp [rises]

theorem peak_append (ls ks : List Line) : peak (ls ++ ks) = max (peak ls) (rises ls + peak ks) := by
  induction ls with
  | nil =>
    have := peak_nonneg ks
    simp only [List.nil_append, peak, rises, List.map_nil, List.sum_nil]
    omega
  | cons l ls ih =>
    have : rises (l :: ls) = l.rise + rises ls := by simp [rises]
    simp only [List.cons_append, peak, ih, this]
    omega

end Line

end Assembly

/-! ### Code that leads from state to state -/

/-- A processor, the layouts on which its code can run, and what it is for a state to depict one of
its machines. -/
structure View (κ : Type) where
  processor : Simulator.Processor κ
  Fits : Layout → Prop
  Depicts : Layout → Simulator.Machine κ → State → Prop

namespace View

variable {κ : Type} {V : View κ} {symbols : List (String × Int)} {need need' : String → Int → Prop}
  {ls ks : List Line} {σ σ' σ'' : State}

/-- **Running code.** On every machine depicted by `σ` whose layout has the bytes that the code
needs, the code runs to its end and leaves a machine depicted by `σ'`. -/
structure Runs (V : View κ) (symbols : List (String × Int)) (need : String → Int → Prop)
    (ls : List Line) (σ σ' : State) : Prop where
  height : (σ'.stack.length : Int) = σ.stack.length + Line.rises ls
  passes : ∀ (l : Layout), l.symbols = symbols → V.Fits l → (∀ n o, need n o → l.owns n o) →
    σ.stack.length + Line.peak ls ≤ l.room →
    ∀ (s : Simulator κ), s.processor = V.processor → ∀ c n, c.Sits n ls → ∀ M, V.Depicts l M σ →
      ∃ M', s.Passes c n (n + Line.count ls) M M' ∧ V.Depicts l M' σ'

theorem Runs.nil (V : View κ) (symbols : List (String × Int)) (need : String → Int → Prop)
    (σ : State) : V.Runs symbols need [] σ σ where
  height := by simp [Line.rises]
  passes _ _ _ _ _ s _ c n _ M hM := ⟨M, .refl s c n M, hM⟩

/-- **Code is run piece by piece.** -/
theorem Runs.append (h : V.Runs symbols need ls σ σ') (h' : V.Runs symbols need ks σ' σ'') :
    V.Runs symbols need (ls ++ ks) σ σ'' where
  height := by rw [h'.height, h.height, Line.rises_append]; omega
  passes l hl hfits hneed hroom s hs c n hsits M hM := by
    have hheight := h.height
    rw [Line.peak_append] at hroom
    obtain ⟨M₁, hpass₁, hM₁⟩ :=
      h.passes l hl hfits hneed (by omega) s hs c n hsits.left M hM
    obtain ⟨M₂, hpass₂, hM₂⟩ :=
      h'.passes l hl hfits hneed (by omega) s hs c _ hsits.right M₁ hM₁
    refine ⟨M₂, ?_, hM₂⟩
    have hcount : n + Line.count (ls ++ ks) = n + Line.count ls + Line.count ks := by
      simp [Line.count, Nat.add_assoc]
    rw [hcount]
    exact hpass₁.trans hpass₂

theorem Runs.cons {l : Line} (h : V.Runs symbols need [l] σ σ')
    (h' : V.Runs symbols need ks σ' σ'') :
    V.Runs symbols need (l :: ks) σ σ'' :=
  h.append h'

/-- Code needs no more than is said. -/
theorem Runs.mono (h : V.Runs symbols need ls σ σ') (hneed : ∀ n o, need n o → need' n o) :
    V.Runs symbols need' ls σ σ' where
  height := h.height
  passes l hl hfits howns := h.passes l hl hfits fun n o hn => howns n o (hneed n o hn)

/-- A line that executes nothing. -/
theorem Runs.skip {l : Line} (h : l.executed? = none) (hr : l.rise = 0) :
    V.Runs symbols need [l] σ σ where
  height := by simp [Line.rises, hr]
  passes _ _ _ _ _ s _ c n _ M hM := ⟨M, by simpa [Line.count, h] using .refl s c n M, hM⟩

/-- A single instruction, by what the processor does. -/
theorem Runs.instr {i : Instr} (hi : Line.executed? (.instr i) = some i)
    (hheight : (σ'.stack.length : Int) = σ.stack.length + i.rise)
    (hstep : ∀ (l : Layout), l.symbols = symbols → V.Fits l → (∀ n o, need n o → l.owns n o) →
      σ.stack.length + i.rise ≤ l.room → ∀ M, V.Depicts l M σ →
        ∃ M', (V.processor.step i).run M = (.ok .next, M') ∧ V.Depicts l M' σ') :
    V.Runs symbols need [.instr i] σ σ' where
  height := by simpa [Line.rises, Line.rise] using hheight
  passes l hl hfits hneed hroom s hs c n hsits M hM := by
    have hrises : Line.rises [.instr i] ≤ Line.peak [.instr i] := Line.rises_le_peak _
    simp only [Line.rises, List.map_cons, List.map_nil, List.sum_cons, List.sum_nil, Line.rise,
      Int.add_zero] at hrises
    obtain ⟨M', hrun, hM'⟩ := hstep l hl hfits hneed (by omega) M hM
    obtain ⟨line, hline⟩ := hsits.head hi
    refine ⟨M', ?_, hM'⟩
    have hcount : Line.count [.instr i] = 1 := by simp [Line.count, hi]
    rw [hcount]
    exact .of_next hline (hs ▸ hrun)

end View

end Octet
