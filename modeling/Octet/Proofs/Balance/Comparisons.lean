import Octet.Proofs.Balance.Arithmetic

/-!
# Comparisons are balanced

A comparison leaves its instruction in the middle, for the target of the instruction, with
everything restored on the way. Where it skips code of its own, the label skipped to stands for the
level of the reservations that are open there, or for that level with a wide accumulator.

## Main results

* `Build.neutral_compareZero` — comparisons with zero
* `Build.neutral_compareBytes`, `Build.neutral_compareWords` — comparisons of two locations
* `Build.neutral_compare`, `Build.neutral_decrementAndJump` — the instructions
-/

namespace Octet

open Assembly

/-- What the flags show of a value is told by branches of the machine. -/
theorem Arch.flags_mem_branchOps (m : Arch) : m.branches.eq ∈ branchOps ∧
    m.branches.ne ∈ branchOps ∧
    m.branches.minus ∈ branchOps ∧ m.branches.plus ∈ branchOps := by
  cases m <;> decide

/-- On the 8080, the instruction of the site may call the routines that compare words. -/
def Site.ComparesByCall (s : Site) : Prop := s.target.arch = .i8080 →
  ∀ signed : Bool, s.Calls (if signed then "cate.CompareHlDeSigned" else "cate.CompareHlDe")

section

variable {s : Site} {R : List Reservation} {P : List (String × Level)} {target : String}
  {cond : Cond} {signed : Bool} {l r : Location}

open Build

namespace Build

/-! ### Comparing with zero -/

/-- For `>` and `≤` there are two branches; the first one of `>` skips the other. -/
theorem neutral_branchOnFlags (ht : s.Names target) : Neutral s (branchOnFlags cond target) := by
  obtain ⟨heq, hne, hminus, hplus⟩ := s.target.arch.flags_mem_branchOps
  refine fun R P => .arch ?_
  cases cond with
  | eq => exact neutral_branch heq ht R P
  | ne => exact neutral_branch hne ht R P
  | lt => exact neutral_branch hminus ht R P
  | ge => exact neutral_branch hplus ht R P
  | le => exact (neutral_branch hminus ht R P).bind fun _ => neutral_branch heq ht R P
  | gt =>
    refine (balanced_freshLabel (.of R)).bind fun skip =>
      (balanced_branchLocal heq (.head _)).bind fun _ => ?_
    exact (neutral_branch hplus ht _ _).bind fun _ => balanced_label (k := .of R P) skip

/-- If the test needed the accumulator then it is given back at the target and behind the branch. -/
theorem neutral_testAndBranch (ht : s.Names target) : Neutral s (testAndBranch cond l target) := by
  refine fun R P => balanced_testByte.bind fun res => (neutral_branchOnFlags ht _ _).bind fun _ =>
    ?_
  exact balanced_unpin

/-- Which byte is tested first emits nothing. -/
theorem plain_testOrder : Plain s (testOrder cond l) := by
  unfold testOrder
  split
  · exact plain_byteOf.bind fun _ => plain_byteOf.bind fun _ => .pure _
  · exact plain_byteOf.bind fun _ => plain_byteOf.bind fun _ => .pure _

theorem plain_testAccumulator : Plain s testAccumulator := by
  refine fun k => .accumulator ((plain_flagsShow k).bind fun shown => ?_)
  split
  · exact .pure _ rfl
  · exact plain_testInPlace.discard k

/-- Both bytes of a word are put together in the accumulator. A variable in there that is still
needed is pinned meanwhile. -/
theorem neutral_branchZeroBothBytes (ht : s.Names target) :
    Neutral s (branchZeroBothBytes cond l target) := by
  obtain ⟨heq, hne, hminus, hplus⟩ := s.target.arch.flags_mem_branchOps
  refine fun R P => .read (.arch (.accumulator ?_))
  refine .ite_bind (Q := fun keep => .of (keep.toList ++ R) P)
    (balanced_pin.bind fun _ => .pure _ rfl) (.pure _ rfl) fun keep => ?_
  refine (plain_testOrder _).bind fun order => ?_
  -- both ways to obtain the bytes go on with the same test
  extract_lets tested
  have htested : ∀ x, Balanced s (.of (keep.toList ++ R) P) (tested x) fun _ => .of R P := by
    refine fun x => balanced_reserveLoad.bind fun res => ?_
    have hdone : Balanced s (.of (res :: (keep.toList ++ R)) P) (do
        release res
        unpin keep) fun _ => .of R P :=
      balanced_release.bind fun _ => balanced_unpin
    dsimp only
    split
    · exact (neutral_operateWith _ _).bind fun _ => (neutral_branchOnFlags ht _ _).bind fun _ =>
        hdone
    · exact (neutral_operateWith _ _).bind fun _ => (neutral_branchOnFlags ht _ _).bind fun _ =>
        hdone
    · refine (plain_testAccumulator _).bind fun _ => (neutral_branch hminus ht _ _).bind fun _ => ?_
      exact (neutral_operateWith _ _).bind fun _ => (neutral_branch heq ht _ _).bind fun _ => hdone
    · refine (plain_testAccumulator _).bind fun _ => ?_
      refine (balanced_freshLabel (.of (res :: (keep.toList ++ R)))).bind fun skip => ?_
      refine (balanced_branchLocal hminus (.head _)).bind fun _ =>
        (neutral_operateWith _ _).bind fun _ => ?_
      refine (neutral_branch hne ht _ _).bind fun _ => ?_
      exact (balanced_label (k := .of (res :: (keep.toList ++ R)) P) skip).bind fun _ => hdone
    · exact hdone
    · exact hdone
  dsimp only
  split
  · exact (neutral_toTemporary _ _).bind fun t => (plain_testOrder _).bind htested
  · exact htested _

/-- For `<` and `≥` the high byte decides. -/
theorem neutral_branchZeroWord (ht : s.Names target) :
    Neutral s (branchZeroWord cond l target) := by
  unfold branchZeroWord
  split
  · exact plain_byteOf.neutral.bind fun byte => neutral_testAndBranch ht
  · exact plain_byteOf.neutral.bind fun byte => neutral_testAndBranch ht
  · exact neutral_branchZeroBothBytes ht

/-- **Comparing with zero.** -/
theorem neutral_compareZero (ht : s.Names target) :
    Neutral s (compareZero cond signed l target) := by
  unfold compareZero
  split
  · exact .pure _
  · exact neutral_jump ht
  · exact .ite (neutral_branchZeroWord ht) (neutral_testAndBranch ht)

/-! ### Comparing two locations -/

/-- The right operand is moved out of the accumulator. -/
theorem neutral_normalizeOperands : Neutral s (normalizeOperands cond l r) := by
  refine fun R P => .accumulator ?_
  dsimp only
  exact .ite_bind (neutral_toTemporary _ _) (.pure _ rfl) fun _ => .pure _ rfl

/-- Words that may still be equal are told apart by their high bytes. -/
theorem balanced_branchOnHigh {k : Stage} {acc : Option Register} {o : Operation} {op : String}
    {rest : Build Unit}
    (ho : o.Straight) (hop : op ∈ branchOps) (ht : s.Names target)
    (h : Balanced s (.of R P) rest fun _ => k) :
    Balanced s (.of R P) (do
      loadByte acc (← byteOf l 1)
      operate o (← byteOf r 1)
      branch op target
      rest) fun _ => k := by
  refine (plain_byteOf _).bind fun _ => (neutral_loadByte _ _).bind fun _ => ?_
  refine (plain_byteOf _).bind fun _ => (neutral_operate ho _ _).bind fun _ => ?_
  exact (neutral_branch hop ht _ _).bind fun _ => h

end Build

namespace Mos

theorem neutral_branchOn (ht : s.Names target) :
    Build.Neutral s (Mos.branchOn cond signed target) := by
  unfold Mos.branchOn
  split
  · exact neutral_branch (by decide) ht
  · exact neutral_branch (by decide) ht
  · exact neutral_branch (by cases signed <;> decide) ht
  · exact neutral_branch (by cases signed <;> decide) ht

theorem neutral_overflow : Build.Neutral s Mos.overflow := by
  refine fun R P => (balanced_freshLabel (.of R)).bind fun skip => ?_
  refine (balanced_branchLocal (by decide) (.head _)).bind fun _ =>
    (plain_emit (by decide) _).bind fun _ => ?_
  exact balanced_label (k := .of R P) skip

theorem neutral_compareBytes (ht : s.Names target) :
    Build.Neutral s (Mos.compareBytes cond signed l r target) := by
  refine fun R P => (neutral_normalizeOperands _ _).bind fun x => ?_
  dsimp only
  split
  · refine (plain_present _).bind fun r => (plain_argOf _).bind fun _ => ?_
    exact (plain_emit (Mos.plain_compareOp r) _).bind fun _ => neutral_branchOn ht R P
  refine balanced_reserveLoad.bind fun res => ?_
  have hbranch : Balanced s (.of (res :: R) P) (do
      Mos.branchOn x.1 (signed && x.1.isOrder) target
      release res) fun _ => .of R P :=
    (neutral_branchOn ht _ _).bind fun _ => balanced_release
  split
  · refine (neutral_operate (by decide) _ _).bind fun _ =>
      (neutral_overflow _ _).bind fun _ => hbranch
  · exact (neutral_operate (by decide) _ _).bind fun _ => hbranch

/-- Words are compared low bytes first. For equality the high bytes are compared only if these
agree. -/
theorem neutral_compareHalves (ht : s.Names target) :
    Build.Neutral s (Mos.compareHalves cond signed l r target) := by
  refine fun R P => (neutral_normalizeOperands _ _).bind fun x => ?_
  dsimp only
  refine (plain_byteOf _).bind fun _ => balanced_reserveLoad.bind fun res => ?_
  refine (plain_byteOf _).bind fun _ => (neutral_operate (by decide) _ _).bind fun _ => ?_
  split
  · refine (neutral_branch (by decide) ht _ _).bind fun _ => ?_
    exact balanced_branchOnHigh (by decide) (by decide) ht balanced_release
  · refine (balanced_freshLabel (.of (res :: R))).bind fun skip => ?_
    refine (balanced_branchLocal (by decide) (.head _)).bind fun _ => ?_
    refine balanced_branchOnHigh (by decide) (by decide) ht ?_
    exact (balanced_label (k := .of (res :: R) P) skip).bind fun _ => balanced_release
  · refine (plain_byteOf _).bind fun _ => (neutral_loadByte _ _).bind fun _ => ?_
    refine (plain_byteOf _).bind fun _ => (neutral_operate (by decide) _ _).bind fun _ => ?_
    refine .when (neutral_overflow _ _) ?_
    exact (neutral_branchOn ht _ _).bind fun _ => balanced_release

/-- The accumulator is narrow again at the branch; the sign is corrected while it is wide. -/
theorem neutral_compareWide (ht : s.Names target) :
    Build.Neutral s (Mos.compareWide cond signed l r target) := by
  refine .ite (neutral_compareHalves ht) fun R P => ?_
  dsimp only
  refine balanced_reserve.bind fun res => (plain_argOf _).bind fun _ => ?_
  refine (balanced_emitAll (l := ⟨(Level.of (res :: R)).depth, true⟩) rfl).bind fun _ => ?_
  have hnarrow : ∀ (cond : Cond) (subtracts : Bool),
      Balanced s ⟨res :: R, ⟨(Level.of (res :: R)).depth, true⟩, P⟩ (do
        emitAll [⟨"sep", [.imm 0x20]⟩, ⟨".a8", []⟩]
        Mos.branchOn cond subtracts target
        release res) fun _ => .of R P := by
    intro cond subtracts
    refine (balanced_emitAll (l := .of (res :: R)) rfl).bind fun _ => ?_
    exact (neutral_branchOn ht (res :: R) P).bind fun _ => balanced_release
  refine .ite ?_ ?_
  · refine (plain_emit (by decide) _).bind fun _ => (plain_argOf _).bind fun _ => ?_
    refine (plain_emit (by decide) _).bind fun _ => ?_
    refine (balanced_freshLabel ⟨(Level.of (res :: R)).depth, true⟩).bind fun skip => ?_
    refine (balanced_branchLocal (by decide) (.head _)).bind fun _ =>
      (plain_emit (by decide) _).bind fun _ => ?_
    exact (balanced_label (k := ⟨res :: R, ⟨(Level.of (res :: R)).depth, true⟩, P⟩) skip).bind
      fun _ => hnarrow _ _
  · exact (plain_argOf _).bind fun _ => (plain_emit (by decide) _).bind fun _ => hnarrow _ _

end Mos

namespace Intel

theorem neutral_flipSign : Build.Neutral s Intel.flipSign := neutral_operate (by decide)

theorem neutral_branchOn (ht : s.Names target) : Build.Neutral s (Intel.branchOn cond target) := by
  unfold Intel.branchOn
  split
  · exact neutral_branch (by decide) ht
  · exact neutral_branch (by decide) ht
  · exact neutral_branch (by decide) ht
  · exact neutral_branch (by decide) ht

/-- Signed bytes are compared with their signs flipped, one of them in a register taken for it. -/
theorem neutral_compareSigned (ht : s.Names target) :
    Build.Neutral s (Intel.compareSigned cond l r target) := by
  intro R P
  unfold Intel.compareSigned
  -- both ways to load the accumulator go on with the same comparison
  extract_lets loaded
  have hloaded : ∀ x : Reservation × Location,
      Balanced s (.of (x.1 :: R) P) (loaded x) fun _ => .of R P := by
    refine fun x => (balanced_reserveAny _ _).bind fun y => ?_
    refine (neutral_loadByte _ _).bind fun _ => (neutral_flipSign _ _).bind fun _ => ?_
    refine (plain_emit (by decide) _).bind fun _ => (neutral_loadByte _ _).bind fun _ => ?_
    refine (neutral_flipSign _ _).bind fun _ => (neutral_operate (by decide) _ _).bind fun _ => ?_
    refine (neutral_branchOn ht _ _).bind fun _ => balanced_release.bind fun _ => ?_
    exact balanced_release
  split
  · exact balanced_reserveLoad.bind fun res => (neutral_toTemporary _ _).bind fun t =>
      hloaded (res, t)
  · exact balanced_reserve.bind fun res => hloaded (res, l)

theorem neutral_compareBytes (ht : s.Names target) :
    Build.Neutral s (Intel.compareBytes cond signed l r target) := by
  refine fun R P => (neutral_normalizeOperands _ _).bind fun x => ?_
  dsimp only
  split
  · refine balanced_reserveLoad.bind fun res => (neutral_operate (by decide) _ _).bind fun _ => ?_
    exact (neutral_branchOn ht _ _).bind fun _ => balanced_release
  split
  · refine balanced_reserveLoad.bind fun res => (neutral_flipSign _ _).bind fun _ => ?_
    refine (neutral_operate (by decide) _ _).bind fun _ => ?_
    exact (neutral_branchOn ht _ _).bind fun _ => balanced_release
  · exact neutral_compareSigned ht R P

/-- Words are compared for equality byte by byte. -/
theorem neutral_compareEqual {isEqual : Bool} (ht : s.Names target) :
    Build.Neutral s (Intel.compareEqual isEqual l r target) := by
  refine fun R P => (plain_byteOf _).bind fun _ => balanced_reserveLoad.bind fun res => ?_
  refine (plain_byteOf _).bind fun _ => (neutral_operate (by decide) _ _).bind fun _ => ?_
  dsimp only
  split
  · refine (balanced_freshLabel (.of (res :: R))).bind fun skip => ?_
    refine (balanced_branchLocal (by decide) (.head _)).bind fun _ => ?_
    refine balanced_branchOnHigh (by decide) (by decide) ht ?_
    exact (balanced_label (k := .of (res :: R) P) skip).bind fun _ => balanced_release
  · refine (neutral_branch (by decide) ht _ _).bind fun _ => ?_
    exact balanced_branchOnHigh (by decide) (by decide) ht balanced_release

theorem neutral_compareWords (ht : s.Names target)
    (hc : s.Calls (if signed then "cate.CompareHlDeSigned" else "cate.CompareHlDe")) :
    Build.Neutral s (Intel.compareWords cond signed l r target) := by
  refine fun R P => (neutral_normalizeOperands _ _).bind fun x => ?_
  dsimp only
  split
  · exact neutral_compareEqual ht R P
  refine balanced_reserveFor.bind fun heldHl => balanced_reserveFor.bind fun heldDe => ?_
  refine (neutral_loadTwo _ _).bind fun _ => balanced_reserve.bind fun res => ?_
  refine (neutral_call hc _ _).bind fun _ => (neutral_branchOn ht _ _).bind fun _ => ?_
  exact balanced_release.bind fun _ => balanced_release.bind fun _ => balanced_release

end Intel

namespace Build

theorem neutral_compareBytes (ht : s.Names target) :
    Neutral s (compareBytes cond signed l r target) := by
  refine fun R P => .arch ?_
  split
  · exact Intel.neutral_compareBytes ht R P
  · exact Mos.neutral_compareBytes ht R P

theorem neutral_compareWords (ht : s.Names target)
    (hc : s.ComparesByCall) : Neutral s (compareWords cond signed l r target) := by
  refine fun R P => .arch ?_
  split
  · exact Mos.neutral_compareHalves ht R P
  · exact Mos.neutral_compareWide ht R P
  · exact Intel.neutral_compareWords ht (hc ‹_› signed) R P

/-! ### Instructions -/

/-- Comparing two locations at a width. -/
theorem neutral_compareLocated {width : Int}
    (ht : s.Names target) (hc : s.ComparesByCall) :
    Neutral s (compareLocated cond signed width l r target) :=
  .ite (neutral_compareWords ht hc) (neutral_compareBytes ht)

/-- **Comparing and branching.** -/
theorem neutral_compare {left right : Operand} (ht : s.Names target) (hc : s.ComparesByCall) :
    Neutral s (compare cond left right target) := by
  refine (neutral_locate left).bind fun l => (neutral_locate right).bind fun r => ?_
  refine .when plain_requireWords.neutral ?_
  dsimp only
  split
  · refine plain_present.neutral.bind fun holds => .ite (neutral_jump ht) (.pure _)
  split
  · exact neutral_compareLocated ht hc
  refine plain_present.neutral.bind fun k => plain_present.neutral.bind fun bits => ?_
  split
  · exact .pure _
  · exact neutral_jump ht
  · exact neutral_compareZero ht
  · exact neutral_compareLocated ht hc

/-- **Decrementing and jumping.** -/
theorem neutral_decrementAndJump {counter : Operand} (ht : s.Names target) :
    Neutral s (decrementAndJump counter target) := by
  obtain ⟨-, hne, -, -⟩ := s.target.arch.flags_mem_branchOps
  refine (neutral_locate counter).bind fun d => .ite ?_ ?_
  · refine neutral_stepByte.bind fun stepped =>
      .ite (fun R P => .arch (neutral_branch hne ht R P)) ?_
    refine fun R P => .accumulator (balanced_reserveLoad.bind fun res => ?_)
    refine (neutral_operateWith _ _).bind fun _ => (neutral_storeByte _ _).bind fun _ => .arch ?_
    exact (neutral_branch hne ht _ _).bind fun _ => balanced_release
  · have hzero : Neutral s (branchZeroWord .ne d target) := neutral_branchZeroWord ht
    refine neutral_stepWord.bind fun stepped => fun R P => ?_
    exact .unless (neutral_wordArithmetic R P) (hzero R P)

end Build

end

end Octet
