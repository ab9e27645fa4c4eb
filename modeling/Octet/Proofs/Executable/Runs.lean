import Octet.Proofs.Steps

/-!
# Why runs fail

A run that fails with a trap does so at an instruction of the code that was loaded, or because the
function that it starts with does not exist. What can go wrong at an instruction is known: the
processor traps, a label or a callee is not found, or a function returns with its stack out of
balance. So whatever is known of the loaded code rules out failures, and there is no need to follow
runs for each kind of failure anew.

## Main definitions

* `Simulator.Raises` — the reasons for a trap

## Main results

* `Simulator.raises_of_failure` — a run fails for one of these reasons
* `Arch.not_isRejection_of_failure` — code that the processor can execute is not rejected in a run
-/

namespace Octet

open Assembly (Instr Line)

namespace Simulator

variable {κ : Type}

/-- An instruction of loaded code stood in a line, and is no directive of the assembler. -/
theorem Code.mem_code_of_load {f g : Assembly.Routine} {p : Placed} (h : p ∈ (load f g).instrs) :
    Line.instr p.instr ∈ f.code ∧ p.instr.op.toList.head? ≠ some '.' := by
  have hmem : p ∈ f.code.zipIdx.filterMap placed? := by simpa [load] using h
  obtain ⟨⟨line, k⟩, hline, hplaced⟩ := List.mem_filterMap.mp hmem
  cases line with
  | instr i =>
    simp only [placed?] at hplaced
    split at hplaced
    · cases hplaced
    · rename_i hdot
      cases hplaced
      exact ⟨List.mem_of_getElem? (List.mem_zipIdx_iff_getElem?.mp hline), by simpa using hdot⟩
  | label name => cases hplaced
  | comment text => cases hplaced

/-- **The reasons for a trap** in code that was loaded. -/
inductive Raises (s : Simulator κ) : Trap → Prop
  | step {code : Code} {p : Placed} {M : Machine κ} {t : Trap} (hcode : code ∈ s.code)
    (hp : p ∈ code.instrs)
      (h : ((s.processor.step p.instr).run M).1 = .error t) : Raises s t
  | label {code : Code} {p : Placed} {M : Machine κ} {name : String} (hcode : code ∈ s.code)
      (hp : p ∈ code.instrs) (h : ((s.processor.step p.instr).run M).1 = .ok (.jump name))
      (hname : code.labels.lookup name = none) : Raises s (.unknownLabel name code.name)
  | callee (name : String) : Raises s (.unknownCallee name)
  | unbalanced (function : String) (left entered : Int) : Raises s
    (.unbalanced function left entered)

/-- How one instruction may end: with frames of loaded code, or with a trap for one of the
reasons. -/
def Accounted (s : Simulator κ) : Progress κ × Option Trap → Prop
  | (P, none) => ∀ f ∈ P.frames, f.code ∈ s.code
  | (_, some t) => s.Raises t

section Runs

variable {s : Simulator κ} {frames : List Frame}

theorem accounted_call (name : String) (calls : List (StubCall κ)) (M : Machine κ)
    (h : ∀ f ∈ frames, f.code ∈ s.code) : s.Accounted (s.call name frames calls M) := by
  obtain ⟨cpu, memory⟩ := M
  unfold call
  dsimp only
  split
  · exact h
  · split
    · exact h
    · split
      · rename_i code hcode
        rintro f (_ | ⟨_, hf⟩)
        · exact List.mem_of_find?_eq_some hcode
        · exact h f hf
      · exact .callee name

/-- Control goes on in the code of the frame, or there is a reason why it cannot. -/
theorem accounted_transfer {t : Transfer} {frame : Frame} (calls : List (StubCall κ))
    {M M' : Machine κ}
    {p : Placed} (h : ∀ f ∈ frame :: frames, f.code ∈ s.code) (hp : p ∈ frame.code.instrs)
    (ht : ((s.processor.step p.instr).run M).1 = .ok t) :
    s.Accounted (s.transfer t frame frames calls M') := by
  have hcode : frame.code ∈ s.code := h frame (.head _)
  have hmoved : ∀ n, ∀ f ∈ ({ frame with position := n } : Frame) :: frames, f.code ∈ s.code := by
    rintro n f (_ | ⟨_, hf⟩)
    · exact hcode
    · exact h f (.tail _ hf)
  cases t with
  | next => exact hmoved _
  | jump name =>
    unfold transfer
    cases hname : frame.code.labels.lookup name with
    | some n =>
      simp only [hname]
      exact hmoved n
    | none =>
      simp only [hname]
      exact .label hcode hp ht hname
  | call name => exact accounted_call name calls M' (hmoved _)
  | ret =>
    unfold transfer
    dsimp only
    split
    · exact fun f hf => h f (.tail _ hf)
    · exact .unbalanced _ _ _

theorem accounted_execute {frame : Frame} {n : Nat} {p : Placed} (calls : List (StubCall κ))
    (M : Machine κ)
    (h : ∀ f ∈ frame :: frames, f.code ∈ s.code) (hp : frame.code.instrs[n]? = some p) :
    (∀ P, s.execute p frame frames calls M = (P, none) → ∀ f ∈ P.frames, f.code ∈ s.code) ∧
      ∀ P e t, s.execute p frame frames calls M = (P, some e) → e.trap? = some t → s.Raises t := by
  have hmem : p ∈ frame.code.instrs := Array.mem_of_getElem? hp
  unfold execute
  rcases hrun : (s.processor.step p.instr).run M with ⟨trap | t, M'⟩
  · refine ⟨by simp, ?_⟩
    rintro P _ _ ⟨⟩ ⟨⟩
    exact .step (h frame (.head _)) hmem (M := M) (by rw [hrun])
  · have ht : ((s.processor.step p.instr).run M).1 = .ok t := by rw [hrun]
    have haccounted : s.Accounted (s.transfer t frame frames calls M') :=
      accounted_transfer calls h hmem ht
    rcases hmove : s.transfer t frame frames calls M' with ⟨P', _ | trap⟩
    · rw [hmove] at haccounted
      simp only [hmove]
      refine ⟨?_, by simp⟩
      rintro P ⟨⟩
      exact haccounted
    · rw [hmove] at haccounted
      simp only [hmove]
      refine ⟨by simp, ?_⟩
      rintro P _ _ ⟨⟩ ⟨⟩
      exact haccounted

theorem raises_of_runLoop {name : String} {budget steps : Nat} {P : Progress κ}
    (h : ∀ f ∈ P.frames, f.code ∈ s.code) {e : Failure} {t : Trap}
    (he : (s.runLoop name budget steps P).failure = some e) (ht : e.trap? = some t) :
    s.Raises t := by
  fun_induction runLoop s name budget steps P with
  | case1 => cases he
  | case2 =>
    cases he
    cases ht
  | case3 =>
    cases he
    cases ht
  | case4 steps calls M frame rest p hp budget P' hexecute ih =>
    exact ih ((accounted_execute calls M h hp).1 P' hexecute) he
  | case5 steps calls M frame rest p hp budget P' e' hexecute =>
    cases he
    exact (accounted_execute calls M h hp).2 P' e t hexecute ht

/-- **A run fails for a reason** that is found in the code, if it fails with a trap. -/
theorem raises_of_failure {name : String} {M : Machine κ} {e : Failure} {t : Trap}
    (he : (s.run name M).failure = some e) (ht : e.trap? = some t) : s.Raises t := by
  obtain ⟨cpu, memory⟩ := M
  have haccounted : s.Accounted (s.call name [] [] ⟨s.processor.enter cpu, memory⟩) :=
    accounted_call name [] _ (by simp)
  unfold run at he
  rcases hcall : s.call name [] [] ⟨s.processor.enter cpu, memory⟩ with ⟨P, _ | trap⟩
  · rw [hcall] at haccounted
    simp only [hcall] at he
    exact raises_of_runLoop haccounted he ht
  · rw [hcall] at haccounted
    simp only [hcall] at he
    cases he
    cases ht
    exact haccounted

end Runs

end Simulator

/-- **Code that the processor can execute is not rejected**, whatever else happens in a run. -/
theorem Arch.not_isRejection_of_failure {m : Arch} {s : Simulator m.Cpu}
    (hs : s.processor = m.processor)
    (hcode : ∀ code ∈ s.code, ∀ p ∈ code.instrs, m.executes p.instr = true) {name : String}
    {M : Simulator.Machine m.Cpu} {e : Simulator.Failure} {t : Simulator.Trap}
    (he : (s.run name M).failure = some e) (ht : e.trap? = some t) : t.isRejection = false := by
  cases Simulator.raises_of_failure he ht with
  | step hmem hp h =>
    rw [hs] at h
    cases (m.meets_step _ _).of_error h with
    | missing | outside => rfl
    | rejected hexecutes =>
      rw [hcode _ hmem _ hp] at hexecutes
      cases hexecutes
  | label => rfl
  | callee => rfl
  | unbalanced => rfl

end Octet
