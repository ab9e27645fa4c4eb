import Mathlib
import Octet.Simulator.Run

/-!
# Levels of code

While a function runs, its stack grows and shrinks, and on the 65816 the accumulator is switched
between one byte and two. A *level* says how far the stack has grown since the function was entered
and how wide the accumulator is. Every instruction moves the level in a way that its mnemonic tells,
or transfers control; no mnemonic means one thing to one machine and another thing to the next, so
levels are the same for all machines.

Code *leads* from a level to another one if the levels of its lines fit together: a label is reached
at the level that it stands for, from the line above as from every jump to it; calls are made with a
narrow accumulator, and a function is left at the level at which it was entered. Nothing is asked of
the level after a line that control does not pass.

## Main definitions

* `Level`, `Level.after?` — levels, and the level after a straight instruction
* `Instr.kind`, `specialOps` — what an instruction does to control, and the mnemonics that are not
  plain
* `Leads` — code whose levels fit together

## Main results

* `Leads.append` — code is checked piece by piece
* `Leads.of_after` — a straight instruction leads to the level after it
-/

namespace Octet

open Assembly

/-- How many bytes the stack has grown since a function was entered, and whether the accumulator is
wide. -/
@[ext]
structure Level where
  depth : Int
  wide : Bool
  deriving DecidableEq, Repr

namespace Level

/-- The level at which functions are entered and left. -/
def base : Level := ⟨0, false⟩

/-- The bytes of the accumulator. -/
def width (l : Level) : Int := if l.wide then 2 else 1

/-- The level after some bytes were pushed. -/
def grow (l : Level) (n : Int) : Level := { l with depth := l.depth + n }

theorem grow_zero (l : Level) : l.grow 0 = l := by
  simp [grow]

theorem grow_grow (l : Level) (n k : Int) : (l.grow n).grow k = l.grow (n + k) := by
  simp [grow, Int.add_assoc]

end Level

/-! ### Instructions -/

/-- What an instruction does to control. -/
inductive Kind where
  /-- Control passes on to the next line. -/
  | straight
  /-- Control goes to a label or passes on. -/
  | branch
  | jump
  | call
  | ret
  deriving DecidableEq, Repr

/-- The mnemonics of branches. -/
def branchOps : List String :=
  ["beq", "bne", "bmi", "bpl", "bcs", "bcc", "bvs", "bvc", "jz", "jnz", "jm", "jp", "jc", "jnc"]

/-- The mnemonics that push, pop and switch the width of the accumulator. -/
def levelOps : List String :=
  ["pha", "pla", "phx", "phy", "php", "plx", "ply", "plp", "push", "pop", "rep", "sep"]

/-- The mnemonics of jumps, calls and returns. -/
def transferOps : List String := ["jmp", "jsr", "call", "rts", "ret"]

/-- The mnemonics that change a level or transfer control. All others are *plain*. -/
def specialOps : List String := branchOps ++ levelOps ++ transferOps

namespace Assembly.Instr

/-- What an instruction does to control. -/
def kind (i : Instr) : Kind :=
  if branchOps.contains i.op then .branch
  else if i.op = "jmp" then .jump
  else if i.op = "jsr" ∨ i.op = "call" then .call
  else if i.op = "rts" ∨ i.op = "ret" then .ret
  else .straight

theorem op_of_call {i : Instr} (h : i.kind = .call) : i.op = "jsr" ∨ i.op = "call" := by
  unfold kind at h
  split_ifs at h with _ _ hcall
  exact hcall

end Assembly.Instr

/-- **The level after a straight instruction.** The width of the accumulator is switched by a
constant that names its bit alone. -/
def Level.after? (l : Level) (i : Instr) : Option Level :=
  if i.kind ≠ .straight then none
  else match i.op with
    | "pha" => some (l.grow l.width)
    | "pla" => some (l.grow (-l.width))
    | "phx" | "phy" | "php" => some (l.grow 1)
    | "plx" | "ply" | "plp" => some (l.grow (-1))
    | "push" => some (l.grow 2)
    | "pop" => some (l.grow (-2))
    | "rep" => if i.args = [.imm 0x20] then some { l with wide := true } else none
    | "sep" => if i.args = [.imm 0x20] then some { l with wide := false } else none
    | _ => some l

/-- The level after straight instructions. -/
def Level.through? (l : Level) (is : List Instr) : Option Level := is.foldlM Level.after? l

section Plain

variable {op : String}

theorem kind_of_plain (h : op ∉ specialOps) (args : List Arg) :
    Instr.kind ⟨op, args⟩ = .straight := by
  simp only [specialOps, transferOps, List.mem_append, List.mem_cons, not_or] at h
  simp [Instr.kind, h]

theorem Level.after?_of_plain (h : op ∉ specialOps) (l : Level) (args : List Arg) :
    l.after? ⟨op, args⟩ = some l := by
  have hkind := kind_of_plain h args
  simp only [specialOps, levelOps, List.mem_append, List.mem_cons, not_or] at h
  unfold Level.after?
  rw [if_neg (by simp [hkind])]
  split <;> simp_all

/-- A mnemonic is plain if none of the special ones starts as it does. -/
theorem plain_append {start : String}
    (h : specialOps.all (fun op => !start.toList.isPrefixOf op.toList) = true) (rest : String) :
    start ++ rest ∉ specialOps := by
  intro hmem
  have hstart := List.all_eq_true.mp h _ hmem
  rw [String.toList_append, Bool.not_eq_true', ← Bool.not_eq_true,
    List.isPrefixOf_iff_prefix] at hstart
  exact hstart (List.prefix_append ..)

end Plain

/-- What was pushed before only shifts the level. -/
theorem Level.after?_grow (l : Level) (n : Int) (i : Instr) :
    (l.grow n).after? i = (l.after? i).map (·.grow n) := by
  have hgrow : ∀ k, (l.grow n).grow k = (l.grow k).grow n := by
    intro k
    rw [grow_grow, grow_grow, Int.add_comm]
  have hwidth : (l.grow n).width = l.width := rfl
  unfold Level.after?
  split
  · rfl
  · split
    case h_11 => split <;> rfl
    case h_12 => split <;> rfl
    all_goals simp only [hwidth, hgrow, Option.map_some]

theorem Level.through?_cons (l : Level) (i : Instr) (is : List Instr) :
    l.through? (i :: is) = (l.after? i).bind (·.through? is) := rfl

theorem Level.through?_of_plain {is : List Instr} (h : ∀ i ∈ is, i.op ∉ specialOps) (l : Level) :
    l.through? is = some l := by
  induction is with
  | nil => rfl
  | cons i is ih =>
    rw [through?_cons, after?_of_plain (h i (.head _)) l i.args]
    exact ih fun j hj => h j (.tail _ hj)

theorem Level.through?_append (l : Level) (is js : List Instr) :
    l.through? (is ++ js) = (l.through? is).bind (·.through? js) := by
  simp [through?, List.foldlM_append]

theorem Level.through?_grow (l : Level) (n : Int) (is : List Instr) :
    (l.grow n).through? is = (l.through? is).map (·.grow n) := by
  induction is generalizing l with
  | nil => rfl
  | cons i is ih =>
    rw [through?_cons, through?_cons, after?_grow]
    cases l.after? i with
    | none => rfl
    | some l' => exact ih l'

/-! ### Code -/

/-- The levels that labels stand for. -/
abbrev Labelling := String → Level

/-- **The levels around one line.** -/
def Fits (Γ : Labelling) (l : Level) (line : Line) (l' : Level) : Prop :=
  match line with
  | .label name => Γ name = l ∧ l' = l
  | .comment _ => l' = l
  | .instr i =>
    match i.kind with
    | .straight => l.after? i = some l'
    | .branch => Γ (Simulator.referred i) = l ∧ l' = l
    | .jump => Γ (Simulator.referred i) = l
    | .call => l.wide = false ∧ l' = l
    | .ret => l = .base

/-- **Code that leads from a level to another one.** -/
def Leads (Γ : Labelling) : Level → List Line → Level → Prop
  | l, [], l' => l = l'
  | l, line :: ls, l' => ∃ k, Fits Γ l line k ∧ Leads Γ k ls l'

namespace Leads

variable {Γ : Labelling} {l l' l'' : Level} {ls ks : List Line}

theorem refl (Γ : Labelling) (l : Level) : Leads Γ l [] l := rfl

theorem single {line : Line} (h : Fits Γ l line l') : Leads Γ l [line] l' := ⟨l', h, rfl⟩

theorem append (h : Leads Γ l ls l') (h' : Leads Γ l' ks l'') : Leads Γ l (ls ++ ks) l'' := by
  induction ls generalizing l with
  | nil =>
    obtain rfl : l = l' := h
    exact h'
  | cons line ls ih =>
    obtain ⟨k, hline, hrest⟩ := h
    exact ⟨k, hline, ih hrest⟩

theorem of_after {i : Instr} (h : l.after? i = some l') : Leads Γ l [.instr i] l' := by
  have hkind : i.kind = .straight := by
    by_contra hne
    simp [Level.after?, hne] at h
  refine single ?_
  simpa only [Fits, hkind] using h

end Leads

end Octet
