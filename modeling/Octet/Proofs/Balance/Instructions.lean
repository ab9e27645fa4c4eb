import Octet.Proofs.Balance.Comparisons

/-!
# Instructions are balanced

Every instruction is built from the stage at which nothing is reserved and nothing is pushed, and
back to it. The destinations of a parallel move stay pinned until all its transfers are done; their
pins come back the last one first, and are released in that order.

A return leaves the function, so that it may only be built while nothing is pushed. A label of the
program stands for the level at which functions are entered.

## Main results

* `Build.balanced_parallel` — parallel transfers
* `Build.neutral_subroutine`, `Build.balanced_returnValue` — calls and returns
* `Build.balanced_instruction`, `Build.neutral_prologue` — instructions and prologues
* `Build.balanced_finish` — the end of an instruction
-/

namespace Octet

open Assembly

theorem ParallelMove.harmless_orderRounds (last : Option Register) (rounds : Nat)
    (ps : List Pending) :
    Harmless (orderRounds last rounds ps) := by
  induction rounds generalizing ps with
  | zero =>
    cases ps with
    | nil => exact harmless_ok _
    | cons p ps => exact harmless_error rfl
  | succ rounds ih =>
    cases ps with
    | nil => exact harmless_ok _
    | cons p ps =>
      unfold orderRounds
      split
      · exact (ih _).bind fun _ => harmless_ok _
      split
      · exact (ih _).bind fun _ => harmless_ok _
      · exact harmless_error rfl

namespace Build

variable {s : Site} {R : List Reservation} {P : List (String × Level)}

/-! ### Calls -/

theorem neutral_saveSources (ts : List (Location × Location)) (is : List Nat) :
    Neutral s (saveSources ts is) := by
  induction is generalizing ts with
  | nil => exact .pure _
  | cons i is ih =>
    unfold saveSources
    split
    · exact neutral_toTemporary.bind fun t => ih _
    · exact ih ts

theorem balanced_transferAll (ts : List (Location × Location)) (is : List Nat) :
    Balanced s (.of R P) (transferAll ts is) fun held => .of (held ++ R) P := by
  induction is generalizing R with
  | nil => exact .pure _ rfl
  | cons i is ih =>
    unfold transferAll
    split
    · exact ih
    refine (neutral_move _ _).bind fun _ => ?_
    split
    · refine balanced_pin.bind fun held => ih.bind fun rest => .pure _ ?_
      simp
    · exact ih

/-- **Parallel transfers** leave their destinations pinned. -/
theorem balanced_parallel (ts : List (Location × Location)) :
    Balanced s (.of R P) (parallel ts) fun held => .of (held ++ R) P := by
  refine .accumulator ((plain_ofExcept (ParallelMove.harmless_orderRounds _ _ _) _).bind fun x =>
    ?_)
  exact (neutral_saveSources ts x.2 _ _).bind fun ts => balanced_transferAll ts x.1

theorem neutral_arguments (callee : Signature) (xs : List (Parameter × Option Register × Operand)) :
    Neutral s (arguments callee xs) := by
  induction xs with
  | nil => exact .pure _
  | cons x xs ih =>
    obtain ⟨p, arrival, arg⟩ := x
    refine (neutral_locate arg).bind fun source => ?_
    cases arrival with
    | some r => exact ih.bind fun _ => .pure _
    | none =>
      refine fun R P => .observes (fun _ => rfl) fun w _ => ?_
      refine .unless (balanced_modifyLedger fun l => labels_reference l p.slot) ?_
      exact (neutral_move _ _).bind fun _ => ih R P

/-- **Calls.** -/
theorem neutral_subroutine (callee : Signature) (args : List Operand) (dest : Option Operand)
    (hc : s.Calls callee.name) : Neutral s (subroutine callee args dest) := by
  refine fun R P => .arch ((neutral_arguments callee _ _ _).bind fun ts =>
    (balanced_parallel ts).bind fun held => ?_)
  refine (neutral_call hc _ _).bind fun _ => balanced_releaseAll.bind fun _ => ?_
  split
  · exact (neutral_locate _ _ _).bind fun d => neutral_move R P
  · exact .pure _ rfl

/-- **Prologues.** -/
theorem neutral_prologue : Neutral s prologue :=
  fun _ _ => .read ((balanced_parallel _).bind fun _ => balanced_releaseAll)

/-- Returning, while nothing is pushed. -/
theorem balanced_emitReturn : Balanced s (.of [] P) (emit s.target.arch.branches.ret []) fun _ =>
    .of [] P := by
  have hkind : Instr.kind ⟨s.target.arch.branches.ret, []⟩ = .ret := by
    cases s.target.arch <;> rfl
  refine balanced_emitInstr (l := .base) (by simp [Instr.GoesTo, hkind])
    (by simp [Instr.CallsOnly, hkind])
    fun Γ _ _ => ?_
  simp only [Fits, hkind]
  rfl

/-- **Returns.** -/
theorem balanced_returnValue (value : Option Operand) :
    Balanced s (.of [] P) (returnValue value) fun _ => .of [] P := by
  refine .arch ?_
  split
  · refine .read ((neutral_locate _ _ _).bind fun v => (neutral_move _ _).bind fun _ => ?_)
    exact balanced_emitReturn
  · exact balanced_emitReturn

/-! ### Instructions -/

theorem neutral_exchange (dest source : Operand) : Neutral s (exchange dest source) := by
  refine fun R P => .read ?_
  dsimp only
  refine .ite (.pure _ rfl) ((neutral_locate dest _ _).bind fun d =>
    (neutral_locate source _ _).bind fun l => ?_)
  exact .ite ((plain_emit (by decide) _).bind fun _ => .pure _ rfl) (.pure _ rfl)

theorem neutral_copyValue (dest source : Operand) : Neutral s (copyValue dest source) :=
  (neutral_locate dest).bind fun _ => (neutral_locate source).bind fun _ => neutral_move

theorem neutral_load (dest source : Operand) : Neutral s (load dest source) := by
  refine fun R P => .arch ?_
  dsimp only
  split
  · refine (neutral_exchange dest source R P).bind fun exchanged => ?_
    exact .ite (.pure _ rfl) (neutral_copyValue dest source R P)
  · exact neutral_copyValue dest source R P

theorem neutral_resize (dest source : Operand) : Neutral s (resize dest source) :=
  (neutral_locate dest).bind fun _ => (neutral_locate source).bind fun _ =>
    .ite neutral_extend neutral_move

theorem neutral_jumpTo {target : Anchor} (ht : s.Names target.name) : Neutral s (jumpTo target) :=
  fun R P => .read (.ite (.pure _ rfl) (neutral_jump ht R P))

/-- The anchor that an instruction places, with the level that it stands for: that at which
functions are entered. -/
def placing : Inst → List (String × Level)
  | .label a => [(a.name, .base)]
  | _ => []

/-- Placing a label of the program, while nothing is pushed. -/
theorem balanced_place (a : Anchor) : Balanced s (.of [] (placing (.label a) ++ P))
    (modifyDraft (·.append (.label a.name))) fun _ => .of [] P := by
  intro w hw hs
  refine ⟨hw, hs, Nat.le_refl _, [.label a.name], rfl, ⟨?_, by simp, by simp⟩, fun _ => .base,
    fun Γ hΓ => ⟨.single ?_, ?_⟩⟩
  · simp [generatedLabels_self, Stage.names, Stage.of, placing, Line.label?]
  · exact ⟨hΓ.awaited _ (.head _), rfl⟩
  · exact fun p hp => hΓ.awaited p (.tail _ hp)

theorem neutral_binary {op : BinaryOp} {dest left right : Operand}
    (h : s.inst = some (.binary op dest left right)) :
    Neutral s (instruction (.binary op dest left right)) := by
  cases op with
  | add | sub => exact neutral_addOrSubtract
  | and | or | xor => exact neutral_bitwise
  | shl | shr => exact neutral_shift fun hcount => ⟨_, h, hcount, rfl⟩
  | mul => exact neutral_multiply fun hleft hright => ⟨_, h, hleft, hright, rfl⟩

/-- **Every instruction is balanced**, from the stage at which nothing is reserved and back to it. A
label of the program is awaited and placed. -/
theorem balanced_instruction {i : Inst} (h : s.inst = some i) :
    Balanced s (.of [] (placing i ++ P)) (instruction i) fun _ => .of [] P := by
  have hnames : ∀ a, i.anchor? = some a → s.Names a.name :=
    fun a ha => ⟨a, by rw [h]; exact ha, rfl⟩
  cases i with
  | label a => exact balanced_place a
  | load d l => exact neutral_load d l _ _
  | binary op d l r => exact neutral_binary h _ _
  | unary op d l => exact neutral_negate _ _
  | resize d l => exact neutral_resize d l _ _
  | jump a => exact neutral_jumpTo (hnames a rfl) _ _
  | compare c l r a =>
    refine neutral_compare (hnames a rfl) (fun harch signed => ⟨_, h, harch, ?_⟩) _ _
    cases signed with
    | false => exact .inl rfl
    | true => exact .inr rfl
  | decJump d a => exact neutral_decrementAndJump (hnames a rfl) _ _
  | call callee args d => exact neutral_subroutine callee args d ⟨_, h, rfl⟩ _ _
  | ret v => exact balanced_returnValue v

/-- **The end of an instruction** finds nothing reserved. -/
theorem balanced_finish : Balanced s (.of [] P) finish fun _ => .of [] P := by
  refine (neutral_settleAll _ _).bind fun _ => ?_
  refine Balanced.bind (balanced_modifyDraft (fun _ => rfl) fun _ => rfl) fun _ =>
    .draft fun d hd => ?_
  have hopen : d.reserved.length = 0 := congrArg List.length hd
  rw [hopen]
  exact .pure _ rfl

end Build

end Octet
