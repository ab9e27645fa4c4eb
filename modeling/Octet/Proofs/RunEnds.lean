import Octet.Proofs.Balance.Running
import Octet.Proofs.Executable.Runs
import Octet.Proofs.InRange

/-!
# Runs end

A run executes instructions until its last frame is left, until control runs off the code, until an
instruction traps, or until as many were executed as it may execute; labels, comments and directives
cost nothing. One that ends without a failure has left every function that it entered, with the
stack pointer it had on entry: a return compares the two, and frames only ever grow and shrink at
their top.

A run that stops because an operand or a byte is missing gives no answer at all. This cannot happen
with instructions that have all their operands and registers that start in range.

## Main definitions

* `Simulator.Ends` — how a run may end, and after how many instructions
* `Simulator.Enters` — a function is entered
* `Simulator.ConfinesUpTo` — code, routines and stubs that keep registers in range

## Main results

* `Simulator.step?_frames` — what an instruction does to the frames
* `Simulator.left_of_reached?` — a frame is on the stack until it is left
* `Arch.run_ends` — runs end, within their limit
* `Simulator.run_missing_operand` — an instruction without its operand
* `Simulator.IntelCpu.registers_in_range` — registers of the 8080 stay in range
-/

namespace Octet

open Assembly (Instr Line)

namespace Simulator

variable {κ : Type}

/-- **How a run may end**, after some instructions were executed. -/
inductive Ends (s : Simulator κ) (name : String) (M : Machine κ) : Nat → Outcome κ → Prop
  | notStarted {P : Progress κ} {t : Trap}
    (h : s.call name [] [] ⟨s.processor.enter M.cpu, M.memory⟩ = (P, some t)) :
    Ends s name M 0 ⟨P.machine, P.calls.reverse, 0, some (.notStarted t)⟩
  | returned {n : Nat} {P : Progress κ} (h : s.reached? name M n = some P)
    (hframes : P.frames = []) :
    Ends s name M n ⟨P.machine, P.calls.reverse, n, none⟩
  | ranOff {n : Nat} {P : Progress κ} {frame : Frame} {rest : List Frame}
    (h : s.reached? name M n = some P)
    (hframes : P.frames = frame :: rest) (hend : frame.code.instrs[frame.position]? = none) :
    Ends s name M n ⟨P.machine, P.calls.reverse, n, some (.ranOff frame.code.name)⟩
  | limit {P : Progress κ} {frame : Frame} {rest : List Frame} {p : Placed}
    (h : s.reached? name M s.budget = some P) (hframes : P.frames = frame :: rest)
    (hp : frame.code.instrs[frame.position]? = some p) :
    Ends s name M s.budget ⟨P.machine, P.calls.reverse, s.budget + 1, some (.stepLimit name)⟩
  | failed {n : Nat} {P P' : Progress κ} {frame : Frame} {rest : List Frame} {p : Placed}
    {e : Failure} (h : s.reached? name M n = some P) (hframes : P.frames = frame :: rest)
    (hp : frame.code.instrs[frame.position]? = some p)
    (hexecute : s.execute p frame rest P.calls P.machine = (P', some e)) :
    Ends s name M (n + 1) ⟨P'.machine, P'.calls.reverse, n + 1, some e⟩

section Steps

variable {s : Simulator κ} {name : String} {M : Machine κ} {P P' : Progress κ}

theorem step?_of_execute {frame : Frame} {rest : List Frame} {p : Placed}
    (hframes : P.frames = frame :: rest) (hp : frame.code.instrs[frame.position]? = some p)
    (hexecute : s.execute p frame rest P.calls P.machine = (P', none)) : s.step? P = some P' := by
  unfold step?
  simp only [hframes, hp, hexecute]

/-- The rest of a run, which goes on from where it stands. -/
theorem ends_runLoop {budget steps : Nat} (h : s.reached? name M steps = some P)
    (hbudget : steps + budget = s.budget) :
    ∃ n ≤ s.budget, Ends s name M n (s.runLoop name budget steps P) := by
  fun_induction runLoop s name budget steps P with
  | case1 => exact ⟨_, by omega, .returned h rfl⟩
  | case2 _ _ _ _ _ _ hend => exact ⟨_, by omega, .ranOff h rfl hend⟩
  | case3 steps calls M' frame rest p hp =>
    obtain rfl : steps = s.budget := by omega
    exact ⟨_, le_refl _, .limit h rfl hp⟩
  | case4 steps calls M' frame rest p hp budget P' hexecute ih =>
    refine ih ?_ (by omega)
    rw [reached?, h]
    exact step?_of_execute (P := ⟨frame :: rest, calls, M'⟩) rfl hp hexecute
  | case5 steps calls M' frame rest p hp budget P' e hexecute =>
    exact ⟨_, by omega, .failed h rfl hp hexecute⟩

/-- **Every run ends**, and executes no more instructions than it may. -/
theorem ends_run (s : Simulator κ) (name : String) (M : Machine κ) :
    ∃ n ≤ s.budget, Ends s name M n (s.run name M) := by
  obtain ⟨cpu, memory⟩ := M
  unfold run
  rcases hcall : s.call name [] [] ⟨s.processor.enter cpu, memory⟩ with ⟨P, _ | t⟩
  · simp only [hcall]
    exact ends_runLoop (by simp only [reached?, hcall]) (Nat.zero_add _)
  · simp only [hcall]
    exact ⟨0, Nat.zero_le _, .notStarted hcall⟩

/-! ### Frames -/

/-- A call pushes at most one frame, which keeps the stack pointer. -/
theorem call_frames {callee : String} {frames : List Frame} {calls : List (StubCall κ)}
    (h : s.call callee frames calls M = (P, none)) :
    P.frames = frames ∨ ∃ code, P.frames = ⟨code, 0, s.processor.stackPointer P.machine.cpu⟩ ::
      frames := by
  obtain ⟨cpu, memory⟩ := M
  unfold call at h
  dsimp only at h
  split at h
  · cases h
    exact .inl rfl
  · split at h
    · cases h
      exact .inl rfl
    · split at h
      · cases h
        exact .inr ⟨_, rfl⟩
      · cases h

/-- **What an instruction does to the frames**: control stays in the function, or enters another one
above it, or leaves it with the stack pointer of its frame. -/
theorem step?_frames (h : s.step? P = some P') :
    ∃ frame rest, P.frames = frame :: rest ∧
      ((∃ n, P'.frames = { frame with position := n } :: rest) ∨
        (∃ code n, P'.frames = ⟨code, 0, s.processor.stackPointer P'.machine.cpu⟩ ::
          { frame with position := n } :: rest) ∨
        P'.frames = rest ∧ s.processor.stackPointer P'.machine.cpu = frame.stackPointer) := by
  obtain ⟨frame, rest, p, hframes, -, hexecute⟩ := exists_execute h
  refine ⟨frame, rest, hframes, ?_⟩
  unfold execute at hexecute
  rcases hrun : (s.processor.step p.instr).run P.machine with ⟨trap | t, ⟨cpu, memory⟩⟩
  · simp [hrun] at hexecute
  simp only [hrun] at hexecute
  rcases hmove : s.transfer t frame rest P.calls ⟨cpu, memory⟩ with ⟨P₁, _ | trap⟩
  case some => simp [hmove] at hexecute
  simp only [hmove, Option.map_none, Prod.mk.injEq, and_true] at hexecute
  subst hexecute
  cases t with
  | next =>
    cases hmove
    exact .inl ⟨_, rfl⟩
  | jump label =>
    unfold transfer at hmove
    dsimp only at hmove
    split at hmove
    · cases hmove
      exact .inl ⟨_, rfl⟩
    · cases hmove
  | call callee =>
    have hcall : s.call callee ({ frame with position := frame.position + 1 } :: rest) P.calls
      ⟨cpu, memory⟩ = (P₁, none) := hmove
    rcases call_frames hcall with hP | ⟨code, hP⟩
    · exact .inl ⟨_, hP⟩
    · exact .inr (.inl ⟨code, _, hP⟩)
  | ret =>
    unfold transfer at hmove
    dsimp only at hmove
    split at hmove
    · rename_i hleft
      cases hmove
      exact .inr (.inr ⟨rfl, by simpa using hleft⟩)
    · cases hmove

/-- What a run reaches later it can only reach through what it reaches now. -/
theorem reached?_of_le {j k : Nat} (h : s.reached? name M k = some P) (hjk : j ≤ k) :
    ∃ Q, s.reached? name M j = some Q := by
  obtain ⟨d, rfl⟩ := Nat.exists_eq_add_of_le hjk
  induction d generalizing P with
  | zero => exact ⟨P, h⟩
  | succ d ih =>
    obtain ⟨Q, hQ, -⟩ := Option.bind_eq_some_iff.mp h
    exact ih hQ (Nat.le_add_right j d)

/-- A frame is on the stack until its function is left, with the stack pointer of the frame. -/
theorem left_of_reached? {k d : Nat} {frame : Frame} {rest : List Frame}
    (h : s.reached? name M k = some P)
    (hframes : P.frames = frame :: rest) (h' : s.reached? name M (k + d) = some P') :
    (∃ above frame', P'.frames = above ++ frame' :: rest ∧
      frame'.stackPointer = frame.stackPointer) ∨
      ∃ j, k < j ∧ j ≤ k + d ∧ ∃ R, s.reached? name M j = some R ∧ R.frames = rest ∧
        s.processor.stackPointer R.machine.cpu = frame.stackPointer := by
  induction d generalizing P' with
  | zero =>
    obtain rfl := Option.some.inj (h.symm.trans h')
    exact .inl ⟨[], frame, hframes, rfl⟩
  | succ d ih =>
    obtain ⟨Q, hQ, hstep⟩ := Option.bind_eq_some_iff.mp h'
    obtain ⟨above, frame', hQframes, hpointer⟩ | ⟨j, hlow, hhigh, hleft⟩ := ih hQ
    · obtain ⟨top, below, htop, hmoved⟩ := step?_frames hstep
      rw [hQframes] at htop
      cases above with
      | nil =>
        obtain ⟨rfl, rfl⟩ := List.cons.inj htop
        obtain ⟨n, hP'⟩ | ⟨code, n, hP'⟩ | ⟨hP', hsp⟩ := hmoved
        · exact .inl ⟨[], _, hP', hpointer⟩
        · exact .inl ⟨[_], _, hP', hpointer⟩
        · exact .inr ⟨k + (d + 1), by omega, le_refl _, P', h', hP', hsp.trans hpointer⟩
      | cons first above =>
        obtain ⟨rfl, rfl⟩ := List.cons.inj htop
        obtain ⟨n, hP'⟩ | ⟨code, n, hP'⟩ | ⟨hP', -⟩ := hmoved
        · exact .inl ⟨_ :: above, frame', hP', hpointer⟩
        · exact .inl ⟨_ :: _ :: above, frame', hP', hpointer⟩
        · exact .inl ⟨above, frame', hP', hpointer⟩
    · exact .inr ⟨j, hlow, by omega, hleft⟩

/-- **A function is entered**: there is one frame more than before the last instruction, or than
before the run. -/
def Enters (s : Simulator κ) (name : String) (M : Machine κ) : Nat → Progress κ → Prop
  | 0, P => s.reached? name M 0 = some P ∧ P.frames ≠ []
  | k + 1, P => s.reached? name M (k + 1) = some P ∧
    ∃ Q, s.reached? name M k = some Q ∧ Q.frames.length < P.frames.length

/-- The frame of a function that is entered keeps the stack pointer. -/
theorem Enters.frames {k : Nat} (h : Enters s name M k P) :
    s.reached? name M k = some P ∧ ∃ frame rest, P.frames = frame :: rest ∧
      frame.stackPointer = s.processor.stackPointer P.machine.cpu := by
  cases k with
  | zero =>
    obtain ⟨hP, hne⟩ := h
    refine ⟨hP, ?_⟩
    unfold reached? at hP
    split at hP
    · rename_i hcall
      cases hP
      obtain hframes | ⟨code, hframes⟩ := call_frames hcall
      · exact absurd hframes hne
      · exact ⟨_, _, hframes, rfl⟩
    · cases hP
  | succ k =>
    obtain ⟨hP, Q, hQ, hlength⟩ := h
    refine ⟨hP, ?_⟩
    obtain ⟨Q', hQ', hstep⟩ := Option.bind_eq_some_iff.mp hP
    obtain rfl := Option.some.inj (hQ.symm.trans hQ')
    obtain ⟨frame, rest, hframes, ⟨n, hP'⟩ | ⟨code, n, hP'⟩ | ⟨hP', -⟩⟩ := step?_frames hstep
    · rw [hframes, hP'] at hlength
      simp at hlength
    · exact ⟨_, _, hP', rfl⟩
    · rw [hframes, hP', List.length_cons] at hlength
      omega

/-- **A run without a failure has left every function that it entered**, with the stack pointer it
had on entry. -/
theorem left_of_returned {k n : Nat} {P P' : Progress κ} (h : Enters s name M k P)
    (h' : s.reached? name M n = some P') (hframes' : P'.frames = []) :
    ∃ j, k < j ∧ j ≤ n ∧ ∃ R, s.reached? name M j = some R ∧ R.frames = P.frames.tail ∧
      s.processor.stackPointer R.machine.cpu = s.processor.stackPointer P.machine.cpu := by
  obtain ⟨hP, frame, rest, hframes, hpointer⟩ := h.frames
  have hkn : k ≤ n := by
    by_contra hlt
    obtain ⟨Q, hQ⟩ := reached?_of_le hP (show n + 1 ≤ k by omega)
    obtain ⟨Q', hQ', hstep⟩ := Option.bind_eq_some_iff.mp hQ
    obtain rfl := Option.some.inj (h'.symm.trans hQ')
    obtain ⟨top, below, htop, -⟩ := step?_frames hstep
    simp [hframes'] at htop
  obtain ⟨d, rfl⟩ := Nat.exists_eq_add_of_le hkn
  obtain ⟨above, frame', hP', -⟩ | ⟨j, hlow, hhigh, R, hR, hRframes, hsp⟩ :=
    left_of_reached? hP hframes h'
  · simp [hframes'] at hP'
  · exact ⟨j, hlow, hhigh, R, hR, by rw [hRframes, hframes, List.tail_cons], hsp.trans hpointer⟩

end Steps

/-! ### Registers in range -/

/-- **Code, routines and stubs that keep registers in range**, where instructions trap as `T`
allows. -/
structure ConfinesUpTo (s : Simulator κ) (T : Trap → Prop) (Q : κ → Prop) : Prop where
  step : ∀ code ∈ s.code, ∀ p ∈ code.instrs, ∀ c, Q c →
    Exec.Meets T c (s.processor.step p.instr) fun _ c' => Q c'
  routine : ∀ name f, s.processor.routine? name = some f → ∀ M, Q M.cpu → Q (f M).cpu
  stub : ∀ x ∈ s.stubs, ∀ c, Q c → Q (x.2 c)
  enter : ∀ c, Q c → Q (s.processor.enter c)

section Range

variable {s : Simulator κ} {T : Trap → Prop} {Q : κ → Prop} {name : String} {M : Machine κ}
  {P : Progress κ} {frame : Frame} {frames : List Frame} {calls : List (StubCall κ)}

theorem ConfinesUpTo.call (hs : s.ConfinesUpTo T Q) (name : String) (frames : List Frame)
    (calls : List (StubCall κ)) {M : Machine κ} (hM : Q M.cpu) :
    Q (s.call name frames calls M).1.machine.cpu ∧
      (s.call name frames calls M).2 ≠ some .absent := by
  obtain ⟨cpu, memory⟩ := M
  unfold Simulator.call
  dsimp only
  split
  · rename_i set hstub
    obtain ⟨before, after, hstubs, -⟩ := List.lookup_eq_some_iff.mp hstub
    exact ⟨hs.stub (name, set) (by simp [hstubs]) cpu hM, by simp⟩
  · split
    · rename_i hroutine
      exact ⟨hs.routine _ _ hroutine _ hM, by simp⟩
    · split
      · exact ⟨hM, by simp⟩
      · exact ⟨hM, by simp⟩

theorem ConfinesUpTo.transfer (hs : s.ConfinesUpTo T Q) (t : Transfer) (frame : Frame)
    (frames : List Frame) (calls : List (StubCall κ)) {M : Machine κ} (hM : Q M.cpu) :
    Q (s.transfer t frame frames calls M).1.machine.cpu ∧
      (s.transfer t frame frames calls M).2 ≠ some .absent := by
  cases t with
  | next => exact ⟨hM, by simp [Simulator.transfer]⟩
  | jump label =>
    unfold Simulator.transfer
    dsimp only
    split
    · exact ⟨hM, by simp⟩
    · exact ⟨hM, by simp⟩
  | call callee => exact hs.call _ _ _ hM
  | ret =>
    unfold Simulator.transfer
    dsimp only
    split
    · exact ⟨hM, by simp⟩
    · exact ⟨hM, by simp⟩

/-- An instruction keeps registers in range, and nothing is missing unless `T` allows it. -/
theorem ConfinesUpTo.execute (hs : s.ConfinesUpTo T Q) {p : Placed} (hcode : frame.code ∈ s.code)
    (hp : p ∈ frame.code.instrs)
    (hM : Q M.cpu) {e : Option Failure} (h : s.execute p frame frames calls M = (P, e)) :
    (e = none → Q P.machine.cpu) ∧ ∀ e', e = some e' → e'.trap? = some .absent → T .absent := by
  have hends := hs.step _ hcode _ hp M.cpu hM M.memory
  unfold Simulator.execute at h
  rcases hrun : (s.processor.step p.instr).run M with ⟨trap | t, M'⟩
  · rw [hrun] at hends
    simp only [hrun, Prod.mk.injEq] at h
    obtain ⟨-, rfl⟩ := h
    refine ⟨by rintro ⟨⟩, ?_⟩
    rintro _ ⟨⟩ ⟨⟩
    exact hends
  · rw [hrun] at hends
    have hmoved := hs.transfer t frame frames calls (M := M') hends
    simp only [hrun, Prod.mk.injEq] at h
    obtain ⟨rfl, rfl⟩ := h
    refine ⟨fun _ => hmoved.1, fun e he => ?_⟩
    obtain ⟨trap, htrap, rfl⟩ := Option.map_eq_some_iff.mp he
    rintro ⟨⟩
    exact absurd htrap hmoved.2

/-- Registers are in range all along a run, which executes code of the program. -/
theorem ConfinesUpTo.reached? (hs : s.ConfinesUpTo T Q) (hM : Q M.cpu) {n : Nat}
    (h : s.reached? name M n = some P) :
    Q P.machine.cpu ∧ ∀ f ∈ P.frames, f.code ∈ s.code := by
  induction n generalizing P with
  | zero =>
    have hrange := (hs.call name [] [] (M := ⟨_, M.memory⟩) (hs.enter _ hM)).1
    have hcode : s.Accounted (s.call name [] [] _) :=
      accounted_call name [] ⟨s.processor.enter M.cpu, M.memory⟩ (by simp)
    unfold Simulator.reached? at h
    split at h
    · rename_i hcall
      cases h
      rw [hcall] at hrange hcode
      exact ⟨hrange, hcode⟩
    · cases h
  | succ n ih =>
    obtain ⟨P', hP', hstep⟩ := Option.bind_eq_some_iff.mp h
    obtain ⟨frame, rest, p, hframes, hp, hexecute⟩ := exists_execute hstep
    obtain ⟨hrange, hcode⟩ := ih hP'
    rw [hframes] at hcode
    exact ⟨(hs.execute (hcode frame (.head _)) (Array.mem_of_getElem? hp) hrange hexecute).1 rfl,
      (accounted_execute P'.calls P'.machine hcode hp).1 P hexecute⟩

/-- **A run does not stop because something is missing**, unless `T` allows it. -/
theorem ConfinesUpTo.ends (hs : s.ConfinesUpTo T Q) (hM : Q M.cpu) {n : Nat} {o : Outcome κ}
    (h : Ends s name M n o) {e : Failure}
    (he : o.failure = some e) (habsent : e.trap? = some .absent) : T .absent := by
  cases h with
  | notStarted h =>
    cases he
    cases habsent
    have hcall := (hs.call name [] [] (M := ⟨_, M.memory⟩) (hs.enter _ hM)).2
    rw [h] at hcall
    exact absurd rfl hcall
  | returned => cases he
  | ranOff | limit => cases he; cases habsent
  | failed h hframes hp hexecute =>
    cases he
    obtain ⟨hrange, hcode⟩ := hs.reached? hM h
    rw [hframes] at hcode
    exact (hs.execute (hcode _ (.head _)) (Array.mem_of_getElem? hp) hrange hexecute).2 e
      rfl habsent

end Range

end Simulator

open Simulator in
/-- **Runs end.** A run executes no more instructions than its limit says, a million if that is
zero and none if it is negative. If it does not fail then every function that was entered has been
left again, with the stack pointer it had on entry. And it gives an answer if all instructions have
their operands, addresses start in range and stubs keep them there. -/
theorem Arch.run_ends {m : Arch} {s : Simulator m.Cpu} {name : String}
    {M : Simulator.Machine m.Cpu} :
    ∃ n ≤ (if s.limit = 0 then 1000000 else s.limit.toNat), Ends s name M n (s.run name M) ∧
      ((s.run name M).failure = none → ∀ k P, Enters s name M k P → ∃ j, k < j ∧ j ≤ n ∧
        ∃ R, s.reached? name M j = some R ∧ R.frames = P.frames.tail ∧
          s.processor.stackPointer R.machine.cpu = s.processor.stackPointer P.machine.cpu) ∧
      (s.processor = m.processor → (∀ code ∈ s.code, ∀ p ∈ code.instrs, m.Complete p.instr) →
        (∀ x ∈ s.stubs, ∀ c, m.Addressed c → m.Addressed (x.2 c)) → m.Addressed M.cpu →
        ∀ e, (s.run name M).failure = some e → e.trap? ≠ some .absent) := by
  obtain ⟨n, hn, hends⟩ := ends_run s name M
  refine ⟨n, by simpa [budget] using hn, hends, fun hnone k P hP => ?_, ?_⟩
  · generalize s.run name M = o at hends hnone
    cases hends with
    | returned h hframes => exact left_of_returned hP h hframes
    | notStarted | ranOff | limit | failed => cases hnone
  · intro hs hcode hstubs hM e he habsent
    have hconfines : s.ConfinesUpTo (· ≠ .absent) m.Addressed :=
      ⟨fun code hmem p hp c hc => by rw [hs]; exact Addressed.step hc (hcode code hmem p hp),
        fun name f h M hM => Addressed.routine (by rwa [hs] at h) hM, hstubs,
        fun c hc => by rw [hs]; exact Addressed.enter hc⟩
    exact hconfines.ends hM hends he habsent rfl

namespace Simulator

/-- A function that calls another one, which saves the accumulator. -/
def saving : Assembly :=
  ⟨[⟨"f", [.instr ⟨"jsr", [.label "g"]⟩, .instr ⟨"rts", []⟩]⟩,
    ⟨"g", [.instr ⟨"pha", []⟩, .comment "", .instr ⟨"pla", []⟩, .instr ⟨"rts", []⟩]⟩], [], []⟩

/-- The function that is entered by the first of five instructions is left again. If only four may
be executed then the run stops, but not because something is missing. -/
theorem run_ends_saving :
    (∃ s M, MosCpu.load? 5 saving = some (s, M) ∧ (s.run "f" M).failure = none ∧
      ∃ n ≤ 5, Ends s "f" M n (s.run "f" M) ∧ ∀ P, Enters s "f" M 1 P → ∃ j, 1 < j ∧ j ≤ n ∧
        ∃ R, s.reached? "f" M j = some R ∧ R.frames = P.frames.tail ∧
          R.machine.cpu.sp = P.machine.cpu.sp) ∧
    ∃ s M, MosCpu.load? 4 saving = some (s, M) ∧
      ∃ e, (s.run "f" M).failure = some e ∧ e.trap? ≠ some .absent := by
  constructor
  · obtain ⟨n, hn, hends, hleft, -⟩ := @Arch.run_ends .mos6502
      ⟨MosCpu.processor, Code.ofAssembly saving, [], 5⟩ "f" ⟨MosCpu.start, Memory.blank 0x200⟩
    exact ⟨_, _, rfl, by decide +kernel, n, hn, hends, hleft (by decide +kernel) 1⟩
  · obtain ⟨n, -, -, -, hanswer⟩ := @Arch.run_ends .mos6502
      ⟨MosCpu.processor, Code.ofAssembly saving, [], 4⟩ "f" ⟨MosCpu.start, Memory.blank 0x200⟩
    obtain ⟨e, he⟩ := Option.isSome_iff_exists.mp (show (Simulator.run
      ⟨MosCpu.processor, Code.ofAssembly saving, [], 4⟩ "f"
        ⟨MosCpu.start, Memory.blank 0x200⟩).failure.isSome by decide +kernel)
    exact ⟨_, _, rfl, e, he, hanswer rfl (by decide) (by simp) ⟨by decide, by decide⟩ e he⟩

/-- **An instruction without its operand** stops the run without an answer. -/
theorem run_missing_operand : ∃ s M,
    MosCpu.load? 0 ⟨[⟨"f", [.instr ⟨"lda", []⟩, .instr ⟨"rts", []⟩]⟩], [], []⟩ = some (s, M) ∧
      (s.run "f" M).failure = some (.trapped "f" 0 "lda" .absent) := ⟨_, _, rfl, by decide +kernel⟩

/-! ### Memory behind `hl` -/

namespace IntelCpu

variable {M : Machine IntelCpu}

/-- The byte behind `hl` can be read. -/
theorem InRange.run_get (hM : InRange M.cpu) :
    (get (.reg "m")).run M = (.ok ((M.memory.byte M.cpu.hl).toNat : Int), M) := by
  have hload : (get (.reg "m")).run M = (Exec.load M.cpu.hl).run M := rfl
  rw [hload, Exec.run_load hM.addressed.hl]

/-- The byte behind `hl` can be written. -/
theorem InRange.run_set (hM : InRange M.cpu) (v : Int) :
    (set (.reg "m") v).run M =
      (.ok (), ⟨M.cpu, M.memory.setByte M.cpu.hl (Memory.byteOf (Bits.low 8 v))⟩) := by
  have hstore : (set (.reg "m") v).run M = (Exec.store M.cpu.hl (Bits.low 8 v)).run M := rfl
  rw [hstore, Exec.run_store hM.addressed.hl]

/-- **Registers of the 8080 stay in range**, whatever the program and however many instructions were
executed, if they start there and stubs keep them there. So `hl` is always the address of a byte,
the byte behind it can be read and written, and an instruction that has its operands does not miss
anything. -/
theorem registers_in_range {s : Simulator IntelCpu} {name : String} {n : Nat}
    {P : Progress IntelCpu}
    (hs : s.processor = processor) (hstubs : ∀ x ∈ s.stubs, ∀ c, InRange c → InRange (x.2 c))
    (hM : InRange M.cpu) (h : s.reached? name M n = some P) :
    InRange P.machine.cpu ∧ Bits.Within 16 P.machine.cpu.hl ∧
      (get (.reg "m")).run P.machine = (.ok ((P.machine.memory.byte P.machine.cpu.hl).toNat : Int),
        P.machine) ∧
      (∀ v, (set (.reg "m") v).run P.machine =
        (.ok (),
          ⟨P.machine.cpu, P.machine.memory.setByte P.machine.cpu.hl
            (Memory.byteOf (Bits.low 8 v))⟩)) ∧
      ∀ i, ((step i).run P.machine).1 = .error .absent → i.args.length < Intel.operands i.op := by
  have hconfines : s.ConfinesUpTo (fun _ => True) InRange := by
    refine ⟨fun _ _ p _ c hc => ?_, fun _ f h M hM => inRange_routine (by rwa [hs] at h) hM, hstubs,
      fun c hc => ?_⟩
    · rw [hs]
      refine (Arch.meets_step .i8080 p.instr c).mono (fun _ _ => trivial) fun _ _ h => ?_
      obtain ⟨-, v, u, k, h⟩ := h
      exact hc.change h
    · rw [hs]
      exact hc
  have hP : InRange P.machine.cpu := (hconfines.reached? hM h).1
  refine ⟨hP, hP.addressed.hl, hP.run_get, hP.run_set, fun i habsent => ?_⟩
  cases (Arch.meets_step .i8080 i P.machine.cpu).of_error habsent with
  | missing hlt => exact hlt
  | outside hout => exact absurd hP.addressed.hl hout
  | rejected _ ht => cases ht

/-- A function that counts `hl` up from its last value. -/
def counting : Assembly :=
  ⟨[⟨"f", [.instr ⟨"lxi", [.reg "h", .imm 65535]⟩, .instr ⟨"inx", [.reg "h"]⟩,
    .instr ⟨"inr", [.reg "m"]⟩, .instr ⟨"ret", []⟩]⟩], [], []⟩

theorem inRange_counting : ∃ s M P, load? 0 counting = some (s, M) ∧ s.reached? "f" M 2 = some P ∧
    P.machine.cpu.hl = 0 ∧ InRange P.machine.cpu ∧
      (get (.reg "m")).run P.machine = (.ok ((P.machine.memory.byte P.machine.cpu.hl).toNat : Int),
        P.machine) := by
  have hstart : InRange start := by constructor <;> exact ⟨by decide, by decide⟩
  have hhl : (Simulator.reached? ⟨processor, Code.ofAssembly counting, [], 0⟩ "f"
    ⟨start, Memory.blank 0x100⟩ 2).map (·.machine.cpu.hl) = some 0 := by decide +kernel
  obtain ⟨P, hP, hzero⟩ := Option.map_eq_some_iff.mp hhl
  obtain ⟨hrange, -, hget, -⟩ := registers_in_range rfl (by simp) hstart hP
  exact ⟨_, _, P, rfl, hP, hzero, hrange, hget⟩

end IntelCpu

end Simulator

end Octet
