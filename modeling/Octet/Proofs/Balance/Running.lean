import Octet.Proofs.Balance.Loading
import Octet.Proofs.Balance.Machines
import Octet.Proofs.Listing

/-!
# Runs of compiled code are balanced

A run keeps a frame for every function that was called and has not returned. Each frame stands at a
level, that of its position: the machine shows the level of the frame on top, and what it will show
after that frame is left is the level of the frame below. Every instruction keeps this so. Hence the
stack pointer is back where it was on entry, and the accumulator narrow, whenever the code of an
instruction of the program begins; and a return finds the stack as the call had left it.

A label of the program must not be named as a generated one, for a jump would confuse the two. The
labels of a function are named after it, so this cannot happen if the function has a name at all.

## Main definitions

* `Simulator.step?`, `Simulator.reached?` — what a run reaches
* `Simulator.Held` — every frame stands at its level
* `Simulator.Hosts` — a simulator that holds a program

## Main results

* `Simulator.ends_execute` — an instruction keeps frames at their levels
* `Listing.anchorsApart_of_build` — named functions have labels of their own
* `Program.stack_balanced` — compiled code is balanced
-/

namespace Octet

open Assembly

namespace Simulator

variable {κ : Type}

/-- Whether a run failed because of the balance of the stack. -/
def Failure.isUnbalanced : Failure → Bool
  | .trapped _ _ _ t => t.isUnbalanced
  | .notStarted t => t.isUnbalanced
  | _ => false

/-! ### Runs step by step -/

/-- Where a run stands after one more instruction, unless it ends there. -/
def step? (s : Simulator κ) (P : Progress κ) : Option (Progress κ) :=
  match P.frames with
  | [] => none
  | frame :: rest =>
    match frame.code.instrs[frame.position]? with
    | none => none
    | some p =>
      match s.execute p frame rest P.calls P.machine with
      | (P', none) => some P'
      | (_, some _) => none

/-- **Where a run stands** after some instructions, unless it has ended before. -/
def reached? (s : Simulator κ) (name : String) (M : Machine κ) : Nat → Option (Progress κ)
  | 0 =>
    match s.call name [] [] ⟨s.processor.enter M.cpu, M.memory⟩ with
    | (P, none) => some P
    | (_, some _) => none
  | n + 1 => (s.reached? name M n).bind s.step?

section Steps

variable {s : Simulator κ} {name : String} {M : Machine κ} {P P' : Progress κ}

theorem exists_execute (h : s.step? P = some P') :
    ∃ frame rest p, P.frames = frame :: rest ∧ frame.code.instrs[frame.position]? = some p ∧
      s.execute p frame rest P.calls P.machine = (P', none) := by
  unfold step? at h
  split at h
  · cases h
  · split at h
    · cases h
    · split at h
      · cases h
        exact ⟨_, _, _, ‹_›, ‹_›, ‹_›⟩
      · cases h

end Steps

/-! ### Frames and levels -/

/-- Where an instruction may send control, and what the machine shows then, in a function that was
entered with a stack pointer. -/
def Arrives (Γ : Labelling) (bits : Nat) (entry : Int) (l' : Level) : Transfer → Standing → Prop
  | .next, q => q = l'.standing bits entry
  | .jump name, q => q = (Γ name).standing bits entry
  | .call _, q => l'.wide = false ∧ q = l'.standing bits entry
  | .ret, q => q = Level.base.standing bits entry

/-- An instruction whose levels fit goes where they say. -/
theorem arrives_of_follows {Γ : Labelling} {bits : Nat} {entry : Int} {l l' : Level} {i : Instr}
    {t : Transfer} {q : Standing} (h : Fits Γ l (.instr i) l') (ht : t ∈ i.transfers)
    (hq : Standing.Follows bits i (l.standing bits entry) q) : Arrives Γ bits entry l' t q := by
  unfold Instr.transfers at ht
  cases hkind : i.kind with
  | straight =>
    simp only [Fits, hkind, List.mem_singleton] at h ht
    subst ht
    exact hq.2 l l' entry h rfl
  | branch =>
    obtain rfl := hq.1 (by simp [hkind])
    simp only [Fits, hkind, List.mem_cons, List.not_mem_nil, or_false] at h ht
    obtain ⟨hname, rfl⟩ := h
    rcases ht with rfl | rfl
    · rfl
    · exact congrArg (Level.standing bits entry) hname.symm
  | jump =>
    obtain rfl := hq.1 (by simp [hkind])
    simp only [Fits, hkind, List.mem_singleton] at h ht
    subst ht
    exact congrArg (Level.standing bits entry) h.symm
  | call =>
    obtain rfl := hq.1 (by simp [hkind])
    simp only [Fits, hkind, List.mem_singleton] at h ht
    obtain ⟨hwide, rfl⟩ := h
    subst ht
    exact ⟨hwide, rfl⟩
  | ret =>
    obtain rfl := hq.1 (by simp [hkind])
    simp only [Fits, hkind, List.mem_singleton] at h ht
    subst h ht
    rfl

/-- **Every frame stands at its level.** The machine shows the level of the first frame, and will
show that of the next one when the first is left. -/
def Held (s : Simulator κ) (bits : Nat) (levels : Code → Nat → Level) : Standing → List Frame → Prop
  | _, [] => True
  | shown, f :: fs =>
    f.code ∈ s.code ∧ shown = (levels f.code f.position).standing bits f.stackPointer ∧
      Level.base.standing bits f.stackPointer = ⟨f.stackPointer, false⟩ ∧
        s.Held bits levels ⟨f.stackPointer, false⟩ fs

/-- Levels for the code of a simulator, whose processor and stubs heed them. -/
structure Levelling (s : Simulator κ) (standing : κ → Standing) (bits : Nat) (Γ : Labelling)
    (levels : Code → Nat → Level) : Prop where
  processor : s.processor.Levelled standing bits
  code : ∀ c ∈ s.code, c.Levelled Γ (levels c)
  stubs : ∀ x ∈ s.stubs, ∀ cpu, standing (x.2 cpu) = standing cpu

section Levelling

variable {s : Simulator κ} {standing : κ → Standing} {bits : Nat} {Γ : Labelling}
  {levels : Code → Nat → Level}

/-- How an instruction may end: with every frame at its level, or for another reason than the
balance of the stack. -/
def Sustained (s : Simulator κ) (standing : κ → Standing) (bits : Nat)
    (levels : Code → Nat → Level) {τ : Type}
    (isUnbalanced : τ → Bool) : Progress κ × Option τ → Prop
  | (P, none) => s.Held bits levels (standing P.machine.cpu) P.frames
  | (_, some t) => isUnbalanced t = false

/-- What a machine shows at a level is within the range of its stack pointer. -/
theorem standing_pointer (l : Level) (bits : Nat) (entry : Int) :
    Level.base.standing bits (l.standing bits entry).pointer =
      ⟨(l.standing bits entry).pointer, false⟩ := by
  simpa [Level.standing, Level.base] using Bits.low_sub_low bits (entry - l.depth) 0

/-- A call is made with a narrow accumulator. -/
theorem sustained_call (hs : s.Levelling standing bits Γ levels) (name : String)
    {frames : List Frame}
    (calls : List (StubCall κ)) (M : Machine κ) {entry : Int} (hM : standing M.cpu = ⟨entry, false⟩)
    (hentry : Level.base.standing bits entry = ⟨entry, false⟩)
    (hframes : s.Held bits levels ⟨entry, false⟩ frames) :
    s.Sustained standing bits levels Trap.isUnbalanced (s.call name frames calls M) := by
  obtain ⟨cpu, memory⟩ := M
  change standing cpu = _ at hM
  unfold call
  cases hstub : s.stubs.lookup name with
  | some set =>
    obtain ⟨before, after, hstubs, -⟩ := List.lookup_eq_some_iff.mp hstub
    have hkeeps := hs.stubs (name, set) (by simp [hstubs]) cpu
    change s.Held bits levels (standing (set cpu)) frames
    rwa [hkeeps.trans hM]
  | none =>
    cases hroutine : s.processor.routine? name with
    | some f =>
      have hkeeps := hs.processor.routine name f hroutine ⟨cpu, memory⟩
      change s.Held bits levels (standing (f ⟨cpu, memory⟩).cpu) frames
      rwa [hkeeps.trans hM]
    | none =>
      cases hcode : s.code.find? (·.name == name) with
      | some code =>
        have hmem : code ∈ s.code := List.mem_of_find?_eq_some hcode
        have hpointer : s.processor.stackPointer cpu = entry := by rw [hs.processor.pointer, hM]
        refine ⟨hmem, ?_, ?_, ?_⟩
        · rw [(hs.code code hmem).start, hpointer, hentry]
          exact hM
        · rw [hpointer, hentry]
        · rw [hpointer]
          exact hframes
      | none => rfl

/-- Control moves on within the levels of a function, or leaves it at the level at which it was
entered. -/
theorem sustained_transfer (hs : s.Levelling standing bits Γ levels) {t : Transfer} {frame : Frame}
    {frames : List Frame} (calls : List (StubCall κ)) {M : Machine κ} (hcode : frame.code ∈ s.code)
    (hentry : Level.base.standing bits frame.stackPointer = ⟨frame.stackPointer, false⟩)
    (hframes : s.Held bits levels ⟨frame.stackPointer, false⟩ frames)
    (ht : Arrives Γ bits frame.stackPointer (levels frame.code (frame.position + 1)) t
      (standing M.cpu)) :
    s.Sustained standing bits levels Trap.isUnbalanced (s.transfer t frame frames calls M) := by
  obtain ⟨cpu, memory⟩ := M
  cases t with
  | next => exact ⟨hcode, ht, hentry, hframes⟩
  | jump label =>
    cases hlabel : frame.code.labels.lookup label with
    | some position =>
      simp only [transfer, hlabel]
      refine ⟨hcode, ?_, hentry, hframes⟩
      rw [← (hs.code _ hcode).label label position hlabel]
      exact ht
    | none =>
      simp only [transfer, hlabel]
      rfl
  | call name =>
    obtain ⟨hwide, hshown⟩ := ht
    have hcall : standing cpu = ⟨(standing cpu).pointer, false⟩ := by
      rw [hshown, ← hwide]
      rfl
    have hpointer : Level.base.standing bits (standing cpu).pointer =
        ⟨(standing cpu).pointer, false⟩ := by
      rw [hshown]
      exact standing_pointer _ _ _
    have hafter : s.Held bits levels ⟨(standing cpu).pointer, false⟩
        ({ frame with position := frame.position + 1 } :: frames) :=
      ⟨hcode, hcall.symm.trans hshown, hentry, hframes⟩
    exact sustained_call hs name calls ⟨cpu, memory⟩ hcall hpointer hafter
  | ret =>
    have hshown : standing cpu = ⟨frame.stackPointer, false⟩ := Eq.trans ht hentry
    have hleft : s.processor.stackPointer cpu = frame.stackPointer := by
      rw [hs.processor.pointer, hshown]
    simp only [transfer, hleft, beq_self_eq_true, ↓reduceIte]
    change s.Held bits levels (standing cpu) frames
    rwa [hshown]

/-- **An instruction keeps every frame at its level**, and fails for another reason than the balance
of the stack. -/
theorem sustained_execute (hs : s.Levelling standing bits Γ levels) {p : Placed} {frame : Frame}
    {frames : List Frame} (calls : List (StubCall κ)) {M : Machine κ}
    (hp : frame.code.instrs[frame.position]? = some p)
    (h : s.Held bits levels (standing M.cpu) (frame :: frames)) :
    s.Sustained standing bits levels Failure.isUnbalanced (s.execute p frame frames calls M) := by
  obtain ⟨hcode, hshown, hentry, hframes⟩ := h
  have hfits := (hs.code _ hcode).instr _ _ hp
  have hends := hs.processor.step p.instr M.cpu M.memory
  unfold execute
  rcases hrun : (s.processor.step p.instr).run M with ⟨trap | t, M'⟩
  · rw [hrun] at hends
    exact hends
  · rw [hrun] at hends
    have htransfer := sustained_transfer hs calls hcode hentry hframes
      (arrives_of_follows hfits hends.1 (hshown ▸ hends.2))
    rcases hmove : s.transfer t frame frames calls M' with ⟨P', _ | trap⟩
    · rw [hmove] at htransfer
      simp only [hmove]
      exact htransfer
    · rw [hmove] at htransfer
      simp only [hmove]
      exact htransfer

/-- A run starts with a narrow accumulator. -/
theorem sustained_start (hs : s.Levelling standing bits Γ levels) (name : String) (M : Machine κ)
    (hM : Level.base.standing bits (standing M.cpu).pointer = ⟨(standing M.cpu).pointer, false⟩) :
    s.Sustained standing bits levels Trap.isUnbalanced
      (s.call name [] [] ⟨s.processor.enter M.cpu, M.memory⟩) :=
  sustained_call hs name [] ⟨s.processor.enter M.cpu, M.memory⟩
    (hs.processor.enter M.cpu) hM trivial

/-- Every frame of a run stands at its level. -/
theorem held_of_reached? (hs : s.Levelling standing bits Γ levels) {name : String} {M : Machine κ}
    (hM : Level.base.standing bits (standing M.cpu).pointer = ⟨(standing M.cpu).pointer, false⟩)
    {n : Nat} {P : Progress κ} (h : s.reached? name M n = some P) :
    s.Held bits levels (standing P.machine.cpu) P.frames := by
  induction n generalizing P with
  | zero =>
    have hcall := sustained_start hs name M hM
    unfold reached? at h
    split at h
    · rename_i P' hcalled
      cases h
      rwa [hcalled] at hcall
    · cases h
  | succ n ih =>
    obtain ⟨P', hP', hstep⟩ := Option.bind_eq_some_iff.mp h
    obtain ⟨frame, rest, p, hframes, hp, hexecute⟩ := exists_execute hstep
    have hsustained := sustained_execute hs P'.calls hp (hframes ▸ ih hP')
    rw [hexecute] at hsustained
    exact hsustained

/-- No run fails because of the balance of the stack. -/
theorem balanced_runLoop (hs : s.Levelling standing bits Γ levels) {name : String}
    {budget steps : Nat}
    {P : Progress κ} (hP : s.Held bits levels (standing P.machine.cpu) P.frames) :
    ∀ e, (s.runLoop name budget steps P).failure = some e → e.isUnbalanced = false := by
  fun_induction runLoop s name budget steps P with
  | case1 => simp
  | case2 =>
    rintro _ ⟨⟩
    rfl
  | case3 =>
    rintro _ ⟨⟩
    rfl
  | case4 steps calls M frame rest p hp budget P' hexecute ih =>
    have hsustained := sustained_execute hs calls hp hP
    rw [hexecute] at hsustained
    exact ih hsustained
  | case5 steps calls M frame rest p hp budget P' e hexecute =>
    have hsustained := sustained_execute hs calls hp hP
    rw [hexecute] at hsustained
    rintro _ ⟨⟩
    exact hsustained

/-- **No run fails because of the balance of the stack.** -/
theorem balanced_run (hs : s.Levelling standing bits Γ levels) (name : String) (M : Machine κ)
    (hM : Level.base.standing bits (standing M.cpu).pointer = ⟨(standing M.cpu).pointer, false⟩) :
    ∀ e, (s.run name M).failure = some e → e.isUnbalanced = false := by
  have hstart := sustained_start hs name M hM
  obtain ⟨cpu, memory⟩ := M
  unfold run
  rcases hcall : s.call name [] [] ⟨s.processor.enter cpu, memory⟩ with ⟨P, _ | t⟩
  · rw [hcall] at hstart
    simp only [hcall]
    exact balanced_runLoop hs hstart
  · rw [hcall] at hstart
    simp only [hcall]
    rintro _ ⟨⟩
    exact hstart

end Levelling

/-- **A simulator that holds a program** for a machine. Stubs leave the stack pointer and the width
of the accumulator as they found them. -/
structure Hosts {m : Arch} (s : Simulator m.Cpu) (asm : Assembly) : Prop where
  processor : s.processor = m.processor
  code : s.code = Code.ofAssembly asm
  stubs : ∀ x ∈ s.stubs, ∀ cpu, m.standing (x.2 cpu) = m.standing cpu

end Simulator

/-! ### Compiled programs -/

/-- **Functions with names have labels of their own.** A label starts with the name of its function,
and the only underscore of a generated label comes first. -/
theorem Listing.anchorsApart_of_build {l : Listing} {p : Program} (h : l.build = .ok p)
    (hnames : ∀ f ∈ p.functions, f.name ≠ "") : p.AnchorsApart := by
  intro f hf i hi a ha n heq
  obtain ⟨label, hlabel⟩ := anchor_of_build h hf hi ha
  have hchars : f.name.toList ++ '_' :: label.toList = '_' :: 'L' :: Nat.toDigits 10 n := by
    rw [← toList_generatedLabel, ← heq, hlabel]
    simp [String.toList_append]
  cases hname : f.name.toList with
  | nil => exact hnames f hf (String.toList_eq_nil_iff.mp hname)
  | cons first others =>
    rw [hname, List.cons_append] at hchars
    obtain ⟨-, hrest⟩ := List.cons.inj hchars
    have hmem : '_' ∈ 'L' :: Nat.toDigits 10 n := hrest ▸ by simp
    simp at hmem

/-- **Compiled code is balanced.** Whenever a run comes to the code of an instruction of the
program, the stack pointer is what it was when the current function was entered, and the accumulator
is narrow; and no run fails because a function returned with another stack pointer. -/
theorem Program.stack_balanced {l : Listing} {p : Program} {target : Target}
    {ledger ledger' : Ledger}
    {c : Compilation} {asm : Assembly} {s : Simulator target.arch.Cpu} (hbuild : l.build = .ok p)
    (hapart : p.AnchorsApart) (hcompile : p.compile target ledger = (c, ledger'))
    (hok : c.outcome = .ok asm)
    (hs : s.Hosts asm) (name : String) (M : Simulator.Machine target.arch.Cpu)
    (hM : 0 ≤ (target.arch.standing M.cpu).pointer ∧
      (target.arch.standing M.cpu).pointer < Bits.modulus target.arch.pointerBits) :
    (∀ n P frame rest, s.reached? name M n = some P → P.frames = frame :: rest →
      ∀ f ∈ c.functions, f.function.name = frame.code.name →
        ∀ j, frame.position = Built.position f.attempt.blocks j →
        target.arch.standing P.machine.cpu = ⟨frame.stackPointer, false⟩) ∧
      ∀ e, (s.run name M).failure = some e → e.isUnbalanced = false := by
  obtain ⟨Γ, hcode⟩ := exists_levelled_code (Listing.nodup_of_build hbuild) hapart hcompile hok
  have : Nonempty Level := ⟨.base⟩
  choose! levels hlevels hstarts using hcode
  have hlevelling : s.Levelling target.arch.standing target.arch.pointerBits Γ levels :=
    ⟨hs.processor ▸ target.arch.levelled_processor, hs.code ▸ hlevels, hs.stubs⟩
  have hpointer := Level.standing_base hM.1 hM.2
  refine ⟨fun n P frame rest hP hframes f hf hname j hj => ?_,
    Simulator.balanced_run hlevelling name M hpointer⟩
  have hheld := Simulator.held_of_reached? hlevelling hpointer hP
  rw [hframes] at hheld
  obtain ⟨hmem, hshown, hentry, -⟩ := hheld
  rw [hshown, hj, hstarts _ (hs.code ▸ hmem) f hf hname, hentry]

/-! ### A function that pushes, switches and jumps -/

namespace Balance

open Simulator

/-- A function of the given name. It adds words, for which the 65816 switches its accumulator, and
then compares bytes, with the accumulator on the stack where the comparison jumps. -/
def crossing (name : String) : Listing where
  globals := [⟨"g", "byte"⟩, ⟨"d", "word"⟩, ⟨"e", "word"⟩]
  externs := []
  functions :=
    [{  name
        params := [⟨"v", "byte"⟩]
        result := "byte"
        vars := []
        code :=
          [ { op := "add", dest := "d", left := "d", right := "e" },
            { op := "compare", cond := "gt", left := "v", right := "g", target := "yes" },
            { label := "L1" },
            { op := "return", left := "1" },
            { label := "yes" },
            { op := "return", left := "2" } ] }]

/-- The program of `crossing`. -/
def crossed (name : String) : Program :=
  (crossing name).build.toOption.getD ⟨[], [], [], []⟩

/-- The program, compiled for the 65816. -/
def compiled (name : String) : Compilation := ((crossed name).compile Arch.wdc65816.target .empty).1

/-- The code of the program. -/
def code (name : String) : Assembly := (compiled name).outcome.toOption.getD ⟨[], [], []⟩

/-- The program, loaded. -/
def host (name : String) : Simulator MosCpu :=
  ⟨MosCpu.processor, Code.ofAssembly (code name), [], 0⟩

/-- A machine on which the comparison fails. -/
def machine : Simulator.Machine MosCpu :=
  ⟨{ MosCpu.start with a := 3 }, ((Memory.blank 0x200).place "g" 1).write 0x200 1 9⟩

theorem build_crossing : (crossing "f").build = .ok (crossed "f") := by cbv

theorem outcome_compiled : (compiled "f").outcome = .ok (code "f") := by decide +kernel

theorem anchorsApart_crossed : (crossed "f").AnchorsApart := by
  refine Listing.anchorsApart_of_build build_crossing fun f hf => ?_
  have hnames : ∀ name ∈ (crossed "f").functions.map (·.name), name ≠ "" := by decide +kernel
  exact hnames f.name (List.mem_map_of_mem hf)

theorem hosts_host : (host "f").Hosts (m := .wdc65816) (code "f") :=
  ⟨rfl, rfl, fun _ hx => absurd hx List.not_mem_nil⟩

/-- After fourteen instructions the run has left the comparison, by the label that was generated for
it. -/
theorem balanced_crossing :
    ∃ P frame rest, (host "f").reached? "f" machine 14 = some P ∧ P.frames = frame :: rest ∧
      (∃ f ∈ (compiled "f").functions, frame.position = Built.position f.attempt.blocks 3) ∧
      P.machine.cpu.standing = ⟨frame.stackPointer, false⟩ ∧
      ∀ e, ((host "f").run "f" machine).failure = some e → e.isUnbalanced = false := by
  have hframe : (((host "f").reached? "f" machine 14).bind (·.frames.head?)).map
      (fun f => (f.code.name, f.position)) = some ("f", 16) := by decide +kernel
  have hblock : ("f", 16) ∈ (compiled "f").functions.map
      fun f => (f.function.name, Built.position f.attempt.blocks 3) := by decide +kernel
  obtain ⟨frame, hframe, hplace⟩ := Option.map_eq_some_iff.mp hframe
  obtain ⟨P, hP, hhead⟩ := Option.bind_eq_some_iff.mp hframe
  obtain ⟨rest, hframes⟩ := List.head?_eq_some_iff.mp hhead
  obtain ⟨f, hf, hstart⟩ := List.mem_map.mp hblock
  obtain ⟨hname, hposition⟩ := Prod.mk.inj (hplace.trans hstart.symm)
  have hcompile : (crossed "f").compile Arch.wdc65816.target .empty = (compiled "f", _) := rfl
  obtain ⟨hlevel, hfailure⟩ :=
    Program.stack_balanced build_crossing anchorsApart_crossed hcompile outcome_compiled
    hosts_host "f" machine ⟨by decide, by decide⟩
  exact ⟨P, frame, rest, hP, hframes, ⟨f, hf, hposition⟩,
    hlevel 14 P frame rest hP hframes f hf hname.symm 3 hposition, hfailure⟩

-- Without a name, the label `L1` of the function is the one that is generated first.
example : ((host "").run "" machine).failure.map (·.isUnbalanced) = some true := by decide +kernel

end Balance

end Octet
