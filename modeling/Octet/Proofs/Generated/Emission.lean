import Octet.Compile
import Octet.Proofs.Allocation
import Octet.Proofs.Balance.Building
import Octet.Proofs.Generated.Intel
import Octet.Proofs.Generated.Mos

/-!
# Emitting code that runs

A computation that builds code is judged by the code: `Emits` says that it succeeds, that the lines
it appends run from a given state, and that a postcondition holds of what it returns, of the record
it leaves and of the state at the end. Such facts compose along the computation, and so does the
code.

The record kept while building has to stay true of the machine. `Setting.Good` collects what is
needed of it between two computations: constants said to be in registers are there, the accumulator
is narrow, and no pointer is displaced. `Keeps` says what a computation leaves alone. Temporaries
and save cells that are not handed out yet may change at any time, since nobody reads them before
writing them.

## Main definitions

* `Arch.view`, `Arch.Runs` — running code on a machine
* `Setting` — a site with a placement of symbols and the bytes of its variables
* `Emits` — a computation whose code runs
* `Setting.Good` — what holds between computations
* `Keeps`, `Moves` — what a computation leaves alone, and one that leaves the carry alone too

## Main results

* `Emits.bind` — composition
* `emits_all`, `emits_instr` — emitting instructions that run
-/

namespace Octet

open Assembly (Arg Instr Line Part)
open Simulator (Memory)

/-! ### Running code on a machine -/

namespace Arch

variable {m : Arch} {symbols : List (String × Int)} {need need' : String → Int → Prop}
  {ls ks : List Line} {σ σ' σ'' : State}

/-- What depicts the states of a machine. -/
def view : (m : Arch) → View m.Cpu
  | .mos6502 => Mos.view
  | .wdc65816 => Mos.view
  | .i8080 => Intel.view

/-- **Running code** on a machine, from a state to a state. -/
def Runs (m : Arch) (symbols : List (String × Int)) (need : String → Int → Prop) (ls : List Line)
    (σ σ' : State) : Prop :=
  m.view.Runs symbols need ls σ σ'

theorem Runs.nil (m : Arch) (symbols : List (String × Int)) (need : String → Int → Prop)
    (σ : State) :
    m.Runs symbols need [] σ σ :=
  View.Runs.nil ..

theorem Runs.append (h : m.Runs symbols need ls σ σ') (h' : m.Runs symbols need ks σ' σ'') :
    m.Runs symbols need (ls ++ ks) σ σ'' :=
  View.Runs.append h h'

theorem Runs.mono (h : m.Runs symbols need ls σ σ') (hneed : ∀ n o, need n o → need' n o) :
    m.Runs symbols need' ls σ σ' :=
  View.Runs.mono h hneed

theorem runs_of_mos (hm : m ≠ .i8080) (h : Mos.view.Runs symbols need ls σ σ') :
    m.Runs symbols need ls σ σ' :=
  of_mos hm h h

theorem runs_of_intel (hm : m = .i8080) (h : Intel.view.Runs symbols need ls σ σ') :
    m.Runs symbols need ls σ σ' := by
  subst hm
  exact h

/-- Whether the effect of some instruction writes a register. -/
def covers (m : Arch) (is : List Instr) (u : Register) : Bool :=
  is.any fun i => (m.effect? i).any fun e => !e.spares u

end Arch

/-! ### Names of cells -/

namespace Build

/-- The name of a temporary. -/
def temporaryName (n : Nat) : String := "cate_tmp" ++ toString n

theorem temporaryName_injective {i j : Nat} (h : temporaryName i = temporaryName j) : i = j := by
  have hlist := congrArg String.toList h
  simp only [temporaryName, String.toList_append] at hlist
  exact Nat.repr_inj.mp (String.toList_injective (List.append_cancel_left hlist))

theorem saveCellName_injective {i j : Nat} (h : saveCellName i = saveCellName j) : i = j := by
  have hlist := congrArg String.toList h
  simp only [saveCellName, String.toList_append] at hlist
  exact Nat.repr_inj.mp (String.toList_injective (List.append_cancel_left hlist))

theorem temporaryName_ne_saveCellName (i j : Nat) : temporaryName i ≠ saveCellName j := by
  intro h
  have hsixth := congrArg (fun s : String => s.toList[5]?) h
  simp [temporaryName, saveCellName] at hsixth

end Build

open Build (temporaryName saveCellName)

/-- The cells of a machine are named apart from temporaries and save cells. -/
theorem Arch.address_ne {m : Arch} {r : Register} (hr : r ∈ m.cells) (i : Nat) :
    r.address ≠ temporaryName i ∧ r.address ≠ saveCellName i := by
  have hsixth : ∀ r ∈ m.cells, r.address.toList[5]? ≠ some 't' ∧
      r.address.toList[5]? ≠ some 's' := by
    cases m <;> decide
  obtain ⟨ht, hs⟩ := hsixth r hr
  constructor
  · intro h
    simp [h, temporaryName] at ht
  · intro h
    simp [h, saveCellName] at hs

theorem Arch.address_injective {m : Arch} {r r' : Register} (hr : r ∈ m.cells) (hr' : r' ∈ m.cells)
    (h : r.address = r'.address) : r = r' := by
  have hall : ∀ r ∈ m.cells, ∀ r' ∈ m.cells, r.address = r'.address → r = r' := by
    cases m <;> decide
  exact hall r hr r' hr' h

/-! ### What is known while building -/

/-- The record of reservations, pointers and cells is the same. -/
structure Work.Like (w w' : Work) : Prop where
  reserved : w'.draft.reserved = w.draft.reserved
  offsets : w'.draft.offsets = w.draft.offsets
  temporaries : w'.draft.temporaries = w.draft.temporaries
  saves : w'.draft.saves = w.draft.saves

/-- The record says the same about the machine. -/
structure Work.Same (w w' : Work) : Prop extends Work.Like w w' where
  known : w'.draft.known = w.draft.known

/-- No cell is given back. -/
structure Work.Grown (w w' : Work) : Prop where
  temporaries : w.draft.temporaries ≤ w'.draft.temporaries
  saves : w.draft.saves ≤ w'.draft.saves

/-- A name that is no temporary and no save cell still to be handed out. -/
structure Work.Old (w : Work) (n : String) : Prop where
  temporaries : ∀ i, n = temporaryName i → i < w.draft.temporaries
  saves : ∀ i, n = saveCellName i → i < w.draft.saves

namespace Work

variable {w w' w'' : Work} {n : String}

theorem Like.refl (w : Work) : w.Like w := ⟨rfl, rfl, rfl, rfl⟩

theorem Like.trans (h : w.Like w') (h' : w'.Like w'') : w.Like w'' :=
  ⟨h'.reserved.trans h.reserved, h'.offsets.trans h.offsets, h'.temporaries.trans h.temporaries,
    h'.saves.trans h.saves⟩

theorem Like.grown (h : w.Like w') : w.Grown w' :=
  ⟨Nat.le_of_eq h.temporaries.symm, Nat.le_of_eq h.saves.symm⟩

theorem Same.trans (h : w.Same w') (h' : w'.Same w'') : w.Same w'' :=
  ⟨h.toLike.trans h'.toLike, h'.known.trans h.known⟩

theorem Grown.refl (w : Work) : w.Grown w := ⟨Nat.le_refl _, Nat.le_refl _⟩

theorem Grown.trans (h : w.Grown w') (h' : w'.Grown w'') : w.Grown w'' :=
  ⟨Nat.le_trans h.temporaries h'.temporaries, Nat.le_trans h.saves h'.saves⟩

theorem Grown.old (h : w.Grown w') (hn : w.Old n) : w'.Old n where
  temporaries i hi := Nat.lt_of_lt_of_le (hn.temporaries i hi) h.temporaries
  saves i hi := Nat.lt_of_lt_of_le (hn.saves i hi) h.saves

theorem old_temporaryName {i : Nat} (h : i < w.draft.temporaries) : w.Old (temporaryName i) where
  temporaries _ hj := Build.temporaryName_injective hj ▸ h
  saves j hj := absurd hj (Build.temporaryName_ne_saveCellName i j)

theorem old_saveCellName {i : Nat} (h : i < w.draft.saves) : w.Old (saveCellName i) where
  temporaries j hj := absurd hj.symm (Build.temporaryName_ne_saveCellName j i)
  saves _ hj := Build.saveCellName_injective hj ▸ h

end Work

/-- **Where code is generated and run**: a site, the addresses of symbols, and the bytes in which
variables are, which are no temporaries and no save cells. -/
structure Setting where
  site : Site
  symbols : List (String × Int)
  owns : String → Int → Prop
  apart : ∀ n o i, owns n o → n ≠ temporaryName i ∧ n ≠ saveCellName i

namespace Setting

variable {S : Setting} {w w' : Work} {σ σ' : State} {n : String} {o : Int}

/-- The machine. -/
abbrev arch (S : Setting) : Arch := S.site.target.arch

/-- The accumulator. -/
abbrev acc (S : Setting) : Register := S.arch.accumulator

/-- Whether a unit must be preserved, by the record. -/
def occupied (S : Setting) (w : Work) (u : Register) : Bool :=
  S.site.occupied w.draft.reserved none u

/-- The bytes of variables, and of the temporaries that are handed out. -/
def Cell (S : Setting) (w : Work) (n : String) (o : Int) : Prop :=
  S.owns n o ∨ ∃ i < w.draft.temporaries, n = temporaryName i ∧ (o = 0 ∨ o = 1)

/-- The bytes that code may use: those of variables, temporaries and save cells. -/
def Needs (S : Setting) (w : Work) (n : String) (o : Int) : Prop :=
  S.Cell w n o ∨ ∃ i < w.draft.saves, n = saveCellName i ∧ o = 0

theorem Cell.mono (h : S.Cell w n o) (hw : w.Grown w') : S.Cell w' n o :=
  h.imp_right fun ⟨i, hi, hn⟩ => ⟨i, Nat.lt_of_lt_of_le hi hw.temporaries, hn⟩

theorem Needs.mono (h : S.Needs w n o) (hw : w.Grown w') : S.Needs w' n o :=
  h.imp (·.mono hw) fun ⟨i, hi, hn⟩ => ⟨i, Nat.lt_of_lt_of_le hi hw.saves, hn⟩

theorem Cell.old (h : S.Cell w n o) : w.Old n := by
  rcases h with h | ⟨i, hi, rfl, -⟩
  · exact ⟨fun i hi => absurd hi (S.apart n o i h).1, fun i hi => absurd hi (S.apart n o i h).2⟩
  · exact Work.old_temporaryName hi

/-- Constants said to be in byte registers are there. -/
def Tracks (S : Setting) (w : Work) (σ : State) : Prop :=
  ∀ r ∈ S.arch.bytes, ∀ v, w.draft.known.get? r = some v → ((σ.reg r).toNat : Int) = v

/-- **What holds between two computations.** -/
structure Good (S : Setting) (w : Work) (σ : State) : Prop where
  tracks : S.Tracks w σ
  narrow : σ.wide = false
  offsets : w.draft.offsets = []

theorem Good.same (h : S.Good w σ) (hw : w.Same w') : S.Good w' σ :=
  ⟨fun r hr v hv => h.tracks r hr v (hw.known ▸ hv), h.narrow, hw.offsets.trans h.offsets⟩

end Setting

/-- **What a computation leaves alone**: reservations, the stack, the registers of `K`, and memory
outside `A` that is in use. The record that it leaves behind is true of the machine. -/
structure Keeps (S : Setting) (K : Register → Prop) (A : String → Int → Prop) (w : Work) (σ : State)
    (w' : Work) (σ' : State) : Prop where
  good : S.Good w' σ'
  grown : w.Grown w'
  reserved : w'.draft.reserved = w.draft.reserved
  regs : ∀ u, K u → σ'.reg u = σ.reg u
  mem : ∀ n o, ¬ A n o → w.Old n → σ'.mem n o = σ.mem n o
  stack : σ'.stack = σ.stack

namespace Keeps

variable {S : Setting} {K K' : Register → Prop} {A A' : String → Int → Prop} {w w' w'' : Work}
  {σ σ' σ'' : State}

theorem trans (h : Keeps S K A w σ w' σ') (h' : Keeps S K A w' σ' w'' σ'') :
    Keeps S K A w σ w'' σ'' where
  good := h'.good
  grown := h.grown.trans h'.grown
  reserved := h'.reserved.trans h.reserved
  regs u hu := (h'.regs u hu).trans (h.regs u hu)
  mem n o hn ho := (h'.mem n o hn (h.grown.old ho)).trans (h.mem n o hn ho)
  stack := h'.stack.trans h.stack

theorem mono (h : Keeps S K A w σ w' σ') (hK : ∀ u, K' u → K u) (hA : ∀ n o, A n o → A' n o) :
    Keeps S K' A' w σ w' σ' :=
  { h with
    regs := fun u hu => h.regs u (hK u hu)
    mem := fun n o hn => h.mem n o fun ha => hn (hA n o ha) }

theorem same (h : Keeps S K A w σ w' σ') (hw : w'.Same w'') : Keeps S K A w σ w'' σ' :=
  { h with
    good := h.good.same hw
    grown := h.grown.trans hw.grown
    reserved := hw.reserved.trans h.reserved }

theorem of_state (hw : w.Like w') (hgood : S.Good w' σ') (hregs : ∀ u, K u → σ'.reg u = σ.reg u)
    (hmem : ∀ n o, ¬ A n o → σ'.mem n o = σ.mem n o) (hstack : σ'.stack = σ.stack) :
    Keeps S K A w σ w' σ' :=
  ⟨hgood, hw.grown, hw.reserved, hregs, fun n o hn _ => hmem n o hn, hstack⟩

end Keeps

/-- A computation that leaves the carry alone as well. -/
structure Moves (S : Setting) (K : Register → Prop) (A : String → Int → Prop) (w : Work) (σ : State)
    (w' : Work) (σ' : State) : Prop extends Keeps S K A w σ w' σ' where
  carry : σ'.carry = σ.carry

namespace Moves

variable {S : Setting} {K K' : Register → Prop} {A A' : String → Int → Prop} {w w' w'' : Work}
  {σ σ' σ'' : State}

theorem trans (h : Moves S K A w σ w' σ') (h' : Moves S K A w' σ' w'' σ'') :
    Moves S K A w σ w'' σ'' :=
  ⟨h.toKeeps.trans h'.toKeeps, h'.carry.trans h.carry⟩

theorem mono (h : Moves S K A w σ w' σ') (hK : ∀ u, K' u → K u) (hA : ∀ n o, A n o → A' n o) :
    Moves S K' A' w σ w' σ' :=
  ⟨h.toKeeps.mono hK hA, h.carry⟩

/-- The record may change where it says nothing about the machine. -/
theorem of_like (K : Register → Prop) (A : String → Int → Prop) (hw : w.Like w') (h : S.Good w' σ) :
    Moves S K A w σ w' σ :=
  ⟨.of_state hw h (fun _ _ => rfl) (fun _ _ _ => rfl) rfl, rfl⟩

theorem refl (K : Register → Prop) (A : String → Int → Prop) (h : S.Good w σ) :
    Moves S K A w σ w σ :=
  .of_like K A (.refl w) h

theorem of_setReg {r : Register} {v : UInt8} (A : String → Int → Prop) (hw : w.Like w')
    (h : S.Good w' (σ.setReg r v)) : Moves S (· ≠ r) A w σ w' (σ.setReg r v) :=
  ⟨.of_state hw h (fun _ hu => State.reg_setReg_of_ne hu) (fun _ _ _ => rfl) rfl, rfl⟩

theorem of_setRegs {q r : Register} {u v : UInt8} (A : String → Int → Prop) (hw : w.Like w')
    (h : S.Good w' (σ.setReg q u)) (hw' : w'.Like w'')
    (h' : S.Good w'' ((σ.setReg q u).setReg r v)) :
    Moves S (fun s => s ≠ q ∧ s ≠ r) A w σ w'' ((σ.setReg q u).setReg r v) :=
  ((of_setReg A hw h).mono (fun _ hs => hs.1) fun _ _ ha => ha).trans
    ((of_setReg A hw' h').mono (fun _ hs => hs.2) fun _ _ ha => ha)

theorem of_setMem {n : String} {o : Int} {v : UInt8} (K : Register → Prop) (hA : A n o)
    (hw : w.Like w') (h : S.Good w' (σ.setMem n o v)) : Moves S K A w σ w' (σ.setMem n o v) :=
  ⟨.of_state hw h (fun _ _ => rfl)
    (fun n' o' hn => if_neg fun (he : n' = n ∧ o' = o) => hn (he.1 ▸ he.2 ▸ hA)) rfl, rfl⟩

end Moves

/-! ### Computations whose code runs -/

/-- **A computation whose code runs.** It succeeds, the lines that it appends run from `σ`, and `Q`
holds of the outcome. -/
def Emits {α : Type} (S : Setting) (b : Build α) (w : Work) (σ : State)
    (Q : α → Work → State → Prop) :
    Prop :=
  ∃ a w' ls σ', S.site.run b w = (.ok a, w') ∧ w'.draft.lines = w.draft.lines ++ ls ∧ w.Grown w' ∧
    S.arch.Runs S.symbols (S.Needs w') ls σ σ' ∧ Q a w' σ'

/-- Where no pointer is displaced, none is moved back. -/
theorem Site.run_settleAll {s : Site} {w : Work} (h : w.draft.offsets = []) :
    s.run Build.settleAll w = (.ok (), w) := by
  refine (run_bind (show s.run read _ = (.ok s, _) from rfl)).trans ?_
  refine (run_bind (show s.run Build.draft _ = (.ok w.draft, _) from rfl)).trans ?_
  rw [h, List.mergeSort_nil]
  rfl

namespace Emits

variable {α β : Type} {S : Setting} {b : Build α} {f : α → Build β} {w w' : Work} {σ σ' : State}
  {P P' : α → Work → State → Prop} {Q : β → Work → State → Prop}

theorem of_run {a : α} {ls : List Line} (hrun : S.site.run b w = (.ok a, w'))
    (hlines : w'.draft.lines = w.draft.lines ++ ls) (hgrown : w.Grown w')
    (hruns : S.arch.Runs S.symbols (S.Needs w') ls σ σ') (hP : P a w' σ') : Emits S b w σ P :=
  ⟨a, w', ls, σ', hrun, hlines, hgrown, hruns, hP⟩

/-- A computation that appends no lines. -/
theorem of_silent {a : α} (hrun : S.site.run b w = (.ok a, w'))
    (hlines : w'.draft.lines = w.draft.lines)
    (hgrown : w.Grown w') (hP : P a w' σ) : Emits S b w σ P :=
  of_run hrun (by rw [hlines, List.append_nil]) hgrown (.nil ..) hP

theorem pure {a : α} (h : P a w σ) : Emits S (Pure.pure a) w σ P := of_silent rfl rfl (.refl w) h

theorem mono (h : Emits S b w σ P) (hP : ∀ a w' σ', P a w' σ' → P' a w' σ') : Emits S b w σ P' := by
  obtain ⟨a, w', ls, σ', hrun, hlines, hgrown, hruns, ha⟩ := h
  exact ⟨a, w', ls, σ', hrun, hlines, hgrown, hruns, hP _ _ _ ha⟩

/-- **Composition.** -/
theorem bind (hb : Emits S b w σ P) (hf : ∀ a w' σ', P a w' σ' → Emits S (f a) w' σ' Q) :
    Emits S (b >>= f) w σ Q := by
  obtain ⟨a, w₁, ls, σ₁, hrun, hlines, hgrown, hruns, ha⟩ := hb
  obtain ⟨c, w₂, ks, σ₂, hrun', hlines', hgrown', hruns', hc⟩ := hf a w₁ σ₁ ha
  refine ⟨c, w₂, ls ++ ks, σ₂, ?_, ?_, hgrown.trans hgrown', ?_, hc⟩
  · rw [Site.run_bind hrun, hrun']
  · rw [hlines', hlines, List.append_assoc]
  · exact (hruns.mono fun n o h => h.mono hgrown').append hruns'

/-- A computation that only reads. -/
theorem reads {a : α} (hrun : S.site.run b w = (.ok a, w)) (hf : Emits S (f a) w σ Q) :
    Emits S (b >>= f) w σ Q :=
  (of_silent (P := fun c v τ => c = a ∧ v = w ∧ τ = σ) hrun rfl (.refl w) ⟨rfl, rfl, rfl⟩).bind
    fun _ _ _ ⟨h, h', h''⟩ => by subst h h' h''; exact hf

theorem arch {f : Arch → Build β} (h : Emits S (f S.arch) w σ Q) :
    Emits S (Build.arch >>= f) w σ Q :=
  reads rfl h

theorem accumulator {f : Register → Build β} (h : Emits S (f S.acc) w σ Q) :
    Emits S (Build.accumulator >>= f) w σ Q :=
  reads rfl h

theorem draft {f : Draft → Build β} (h : Emits S (f w.draft) w σ Q) :
    Emits S (Build.draft >>= f) w σ Q :=
  reads rfl h

theorem site {f : Site → Build β} (h : Emits S (f S.site) w σ Q) : Emits S (read >>= f) w σ Q :=
  reads rfl h

theorem present {a : α} {x : Option α} (hx : x = some a) (h : Emits S (f a) w σ Q) :
    Emits S (Build.present x >>= f) w σ Q := by
  subst hx
  exact reads rfl h

theorem ofExcept {a : α} {x : Except Fault α} (hx : x = .ok a) (h : Emits S (f a) w σ Q) :
    Emits S (Build.ofExcept x >>= f) w σ Q := by
  subst hx
  exact reads rfl h

end Emits

/-! ### Emitting instructions -/

theorem Constants.get?_filter {k : Constants} {p : Register → Bool} {r : Register} {v : Int}
    (h : Constants.get? ⟨k.entries.filter fun e => p e.1⟩ r = some v) :
    k.get? r = some v ∧ p r = true := by
  have hfind : (k.entries.filter fun e => p e.1).find? (·.1 == r) =
      k.entries.find? fun e => p r && e.1 == r := by
    rw [List.find?_filter]
    congr 1
    funext e
    by_cases he : e.1 = r
    · simp [he]
    · simp [he]
  unfold get? at h ⊢
  rw [hfind] at h
  cases hp : p r with
  | true =>
    rw [hp] at h
    exact ⟨h, rfl⟩
  | false =>
    rw [hp] at h
    simp [List.find?_eq_none.2] at h

namespace Draft

theorem foldl_write_eq (d : Draft) (ws : List (Option Register)) : ∃ changed changedUnknown flags,
    ws.foldl write d = { d with
      changed, changedUnknown, flags
      known := ⟨d.known.entries.filter fun c => !ws.any (Register.clash · (some c.1))⟩ } := by
  induction ws generalizing d with
  | nil =>
    refine ⟨d.changed, d.changedUnknown, d.flags, ?_⟩
    have hall : (d.known.entries.filter fun c => !List.any [] (Register.clash · (some c.1))) =
        d.known.entries := List.filter_eq_self.2 fun _ _ => rfl
    rw [hall]
    rfl
  | cons w ws ih =>
    obtain ⟨changed, changedUnknown, flags, h⟩ := ih (d.write w)
    refine ⟨changed, changedUnknown, flags, ?_⟩
    rw [List.foldl_cons, h]
    cases w with
    | none => simp [write, Register.clash]
    | some r =>
      simp only [write, Constants.forget, List.filter_filter, List.any_cons, Register.clash,
        Bool.not_or, Register.conflicts_comm r, Bool.and_comm]

/-- An effect forgets the constants of the registers that it writes; else only flags and the list of
changed registers are touched. -/
theorem apply_eq (d : Draft) (e : Effect) : ∃ changed changedUnknown flags,
    d.apply e = { d with
      changed, changedUnknown, flags
      known := ⟨d.known.entries.filter fun c => e.spares c.1⟩ } := by
  obtain ⟨changed, changedUnknown, flags, h⟩ := d.foldl_write_eq e.writes
  unfold apply
  simp only [h]
  split
  · exact ⟨_, _, _, rfl⟩
  · split
    · exact ⟨_, _, _, rfl⟩
    · exact ⟨_, _, _, rfl⟩

end Draft

section Instructions

variable {S : Setting} {w : Work} {σ σ' : State} {i : Instr} {is : List Instr}

theorem Site.run_emitInstr {s : Site} {e : Effect} (h : s.target.arch.effect? i = some e)
    (w : Work) :
    s.run (Build.emitInstr i) w = (.ok (), ⟨w.ledger, (w.draft.append (.instr i)).apply e⟩) := by
  unfold Build.emitInstr
  rw [run_bind
    (show s.run (Build.modifyDraft _) w = (.ok (), ⟨w.ledger, w.draft.append (.instr i)⟩) from rfl),
    run_bind (show s.run Build.arch _ = (.ok s.target.arch, _) from rfl), h]
  rfl

/-- Emitting an instruction appends it, and keeps of the record what its effect does not touch. -/
theorem Site.exists_run_emitInstr {s : Site} (h : (s.target.arch.effect? i).isSome) (w : Work) :
    ∃ w', s.run (Build.emitInstr i) w = (.ok (), w') ∧
      w'.draft.lines = w.draft.lines ++ [.instr i] ∧
      w.Like w' ∧ ∀ r v, w'.draft.known.get? r = some v →
        w.draft.known.get? r = some v ∧ s.target.arch.covers [i] r = false := by
  obtain ⟨e, he⟩ := Option.isSome_iff_exists.mp h
  obtain ⟨changed, changedUnknown, flags, happly⟩ := (w.draft.append (.instr i)).apply_eq e
  refine ⟨_, run_emitInstr he w, ?_, ?_, ?_⟩
  · rw [happly]
    rfl
  · rw [happly]
    exact ⟨rfl, rfl, rfl, rfl⟩
  · intro r v hv
    rw [happly] at hv
    obtain ⟨hk, hs⟩ := Constants.get?_filter (p := e.spares) hv
    exact ⟨hk, by simp [Arch.covers, he, hs]⟩

theorem Site.exists_run_emitAll {s : Site} (h : ∀ i ∈ is, (s.target.arch.effect? i).isSome)
    (w : Work) :
    ∃ w', s.run (Build.emitAll is) w = (.ok (), w') ∧
      w'.draft.lines = w.draft.lines ++ is.map Line.instr ∧ w.Like w' ∧
        ∀ r v, w'.draft.known.get? r = some v →
          w.draft.known.get? r = some v ∧ s.target.arch.covers is r = false := by
  induction is generalizing w with
  | nil => exact ⟨w, rfl, by simp, .refl w, fun r v hv => ⟨hv, rfl⟩⟩
  | cons i is ih =>
    obtain ⟨w₁, hrun₁, hlines₁, hlike₁, hknown₁⟩ := exists_run_emitInstr (h i (.head _)) w
    obtain ⟨w₂, hrun₂, hlines₂, hlike₂, hknown₂⟩ := ih (fun j hj => h j (.tail _ hj)) w₁
    refine ⟨w₂, ?_, ?_, hlike₁.trans hlike₂, ?_⟩
    · exact (run_bind hrun₁).trans hrun₂
    · rw [hlines₂, hlines₁, List.append_assoc]
      rfl
    · intro r v hv
      obtain ⟨hv, hc⟩ := hknown₂ r v hv
      obtain ⟨hv, hc₁⟩ := hknown₁ r v hv
      refine ⟨hv, ?_⟩
      simp only [Arch.covers, List.any_cons, List.any_nil, Bool.or_false,
        Bool.or_eq_false_iff] at hc hc₁ ⊢
      exact ⟨hc₁, hc⟩

theorem Setting.Good.of_run {w' : Work} (hg : S.Good w σ) (hlike : w.Like w')
    (hwide : σ'.wide = false) (hknown : ∀ r v, w'.draft.known.get? r = some v →
      w.draft.known.get? r = some v ∧ S.arch.covers is r = false)
    (hcovers : ∀ u ∈ S.arch.bytes, σ'.reg u ≠ σ.reg u → S.arch.covers is u = true) :
    S.Good w' σ' where
  tracks r hr v hv := by
    obtain ⟨hv, hc⟩ := hknown r v hv
    have hsame : σ'.reg r = σ.reg r := by
      refine Decidable.byContradiction fun hne => ?_
      rw [hcovers r hr hne] at hc
      cases hc
    rw [hsame]
    exact hg.tracks r hr v hv
  narrow := hwide
  offsets := hlike.offsets.trans hg.offsets

/-- **Emitting instructions that run.** Every register that changes has to be covered by an
effect. -/
theorem emits_all (hg : S.Good w σ) (heffect : ∀ i ∈ is, (S.arch.effect? i).isSome)
    (hruns : S.arch.Runs S.symbols (S.Needs w) (is.map Line.instr) σ σ') (hwide : σ'.wide = false)
    (hcovers : ∀ u ∈ S.arch.bytes, σ'.reg u ≠ σ.reg u → S.arch.covers is u = true) :
    Emits S (Build.emitAll is) w σ fun _ w' τ => τ = σ' ∧ w.Like w' ∧ S.Good w' σ' := by
  obtain ⟨w', hrun, hlines, hlike, hknown⟩ := S.site.exists_run_emitAll heffect w
  exact .of_run hrun hlines hlike.grown (hruns.mono fun n o h => h.mono hlike.grown)
    ⟨rfl, hlike, hg.of_run hlike hwide hknown hcovers⟩

theorem emits_instr {op : String} {args : List Arg} (hg : S.Good w σ)
    (heffect : (S.arch.effect? ⟨op, args⟩).isSome)
    (hruns : S.arch.Runs S.symbols (S.Needs w) [.instr ⟨op, args⟩] σ σ') (hwide : σ'.wide = false)
    (hcovers : ∀ u ∈ S.arch.bytes, σ'.reg u ≠ σ.reg u → S.arch.covers [⟨op, args⟩] u = true) :
    Emits S (Build.emit op args) w σ fun _ w' τ => τ = σ' ∧ w.Like w' ∧ S.Good w' σ' := by
  obtain ⟨w', hrun, hlines, hlike, hknown⟩ := S.site.exists_run_emitInstr heffect w
  exact .of_run hrun hlines hlike.grown (hruns.mono fun n o h => h.mono hlike.grown)
    ⟨rfl, hlike, hg.of_run hlike hwide hknown hcovers⟩

end Instructions

end Octet
