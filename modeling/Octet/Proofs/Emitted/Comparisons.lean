import Octet.Proofs.Emitted.Arithmetic

/-!
# Comparisons

A comparison loads one operand into the accumulator and hands the other one to the instruction. An
operand that occupies the accumulator goes to a scratch location first. Leaving the instruction
restores what was saved, which refers to known symbols too.

Words are compared by their bytes or by an instruction for words. Operands of other widths are
compared as bytes, and handed to the instruction as they are: the right one, or the left one where
the relation is turned around, and both where the 8080 compares with a sign (`Cond.handed`). If the
widths are the same these are bytes. An aggregate may be compared with a variable of two bytes,
however, and that may be a pair. On the 6502 family it never gets there, because the only pair
contains the accumulator and is moved away.

## Main definitions

* `Cond.handed` — the operands that a comparison of bytes takes as they are

## Main results

* `Build.keeps_compareZero`, `Build.keeps_compareBytes`, `Build.keeps_compareWords`
* `Build.keeps_compare`, `Build.keeps_decrementAndJump`
-/

namespace Octet

open Assembly

/-- The operand that is compared, with `>` and `≤` turned around. -/
def Cond.left (c : Cond) (l r : Location) : Location :=
  match c with
  | .gt | .le => r
  | _ => l

/-- The operand that it is compared with. -/
def Cond.right (c : Cond) (l r : Location) : Location :=
  match c with
  | .gt | .le => l
  | _ => r

/-- **The operands that a comparison of bytes takes as they are** on the 8080. The other one is
loaded into the accumulator. With a sign, both are loaded from where they are. -/
def Cond.handed (c : Cond) (signed : Bool) (l r : Location) : List Location :=
  if signed && c.isOrder then [l, r] else [c.right l r]

theorem Cond.eq_of_mem_handed {c : Cond} {signed : Bool} {l r x : Location}
    (h : x ∈ c.handed signed l r) :
    x = l ∨ x = r := by
  unfold handed at h
  split at h
  · simpa using h
  · obtain rfl := List.mem_singleton.mp h
    cases c with
    | gt | le => exact .inl rfl
    | _ => exact .inr rfl

/-- In a comparison with a constant `>` and `≤` do not remain. -/
theorem Cond.right_of_against {c c' : Cond} {k k' : Int} {signed : Bool} {bits : Nat}
    (h : c.against k signed bits = .constant c' k') (l r : Location) : c'.right l r = r := by
  have hbound : ∀ (c : Cond) (k : Int), (∀ l r, c.right l r = r) →
      c.againstBound k signed bits = .constant c' k' → c'.right l r = r := by
    intro c k hc h
    unfold againstBound at h
    dsimp only at h
    split at h
    · cases h
    split at h
    · cases h
    split at h
    · cases h
    · cases h
      exact hc l r
  unfold against at h
  dsimp only at h
  split at h
  · cases h
  split at h
  · split at h
    · cases h
    · exact hbound .ge _ (fun _ _ => rfl) h
  · split at h
    · cases h
    · exact hbound .lt _ (fun _ _ => rfl) h
  · rename_i hgt hle
    refine hbound c k (fun l r => ?_) h
    cases c with
    | gt => exact absurd rfl hgt
    | le => exact absurd rfl hle
    | _ => rfl

theorem Arch.executes_flags (m : Arch) (target : String) :
    m.executes ⟨m.branches.eq, [.label target]⟩ = true ∧
    m.executes ⟨m.branches.ne, [.label target]⟩ = true ∧
      m.executes ⟨m.branches.minus, [.label target]⟩ = true ∧
    m.executes ⟨m.branches.plus, [.label target]⟩ = true := by
  cases m <;> exact ⟨rfl, rfl, rfl, rfl⟩

section

variable {s : Site} {D : List String} {X : Prop} {K : Vocabulary s D X} {l r : Location}
  {cond : Cond} {signed : Bool} {target : String}

open Build

namespace Build

/-! ### Comparing with zero -/

theorem keeps_branchEq : Keeps K (branch s.target.arch.branches.eq target) :=
  keeps_branch (fun _ t => (Arch.executes_flags _ t).1)

theorem keeps_branchNe : Keeps K (branch s.target.arch.branches.ne target) :=
  keeps_branch (fun _ t => (Arch.executes_flags _ t).2.1)

theorem keeps_branchMinus : Keeps K (branch s.target.arch.branches.minus target) :=
  keeps_branch (fun _ t => (Arch.executes_flags _ t).2.2.1)

theorem keeps_branchPlus : Keeps K (branch s.target.arch.branches.plus target) :=
  keeps_branch (fun _ t => (Arch.executes_flags _ t).2.2.2)

theorem keeps_branchOnFlags : Keeps K (branchOnFlags cond target) := by
  refine Brings.arch ?_
  cases cond with
  | eq => exact keeps_branchEq
  | ne => exact keeps_branchNe
  | lt => exact keeps_branchMinus
  | ge => exact keeps_branchPlus
  | le => exact keeps_branchMinus.bind fun _ => keeps_branchEq
  | gt =>
    refine keeps_freshLabel.bind fun skip => ?_
    refine Keeps.bind (keeps_emit (by simp) fun _ => (Arch.executes_flags _ skip).1) fun _ => ?_
    exact keeps_branchPlus.bind fun _ => keeps_label

theorem keeps_testAndBranch (hl : l.Known K) (hbyte : l.KnownByte K) :
    Keeps K (testAndBranch cond l target) :=
  (brings_testByte hl hbyte).bind fun _ _ _ hres => keeps_branchOnFlags.bind fun _ =>
    keeps_unpin hres

theorem cites_testOrder (hl : l.Known K) : Cites K (testOrder cond l) fun x => x.1.Known K ∧
    x.2.KnownByte K := by
  refine Brings.ite ?_ ?_
  · exact (cites_byteOf hl).bind fun x hx => (cites_byteOf hl).bind fun y hy => .pure ⟨hx.1, hy.2⟩
  · exact (cites_byteOf hl).bind fun x hx => (cites_byteOf hl).bind fun y hy => .pure ⟨hx.1, hy.2⟩

theorem keeps_testAccumulator : Keeps K testAccumulator := by
  refine Brings.accumulator (keeps_flagsShow.bind fun _ => .ite (.pure trivial) (Keeps.discard ?_))
  exact keeps_testInPlace (Location.knownByte_ofRegister (serves_accumulator _ rfl))

theorem keeps_branchZeroBothBytes (hl : l.Known K) :
    Keeps K (branchZeroBothBytes cond l target) := by
  refine Brings.read (.arch (.accumulator ?_))
  have hpin : Brings K (some <$> pin (some s.target.arch.accumulator)) fun keep K' =>
      ∀ res ∈ keep, res.Known K' := by
    refine Cites.brings (.map (cites_pin.mono ?_))
    rintro res K' - hres _ ⟨⟩
    exact hres
  refine .ite_bind hpin (.pure (by simp)) fun keep K₁ hle₁ hkeep => ?_
  have hl := hl.mono hle₁
  refine (cites_testOrder hl).bind fun order horder => ?_
  -- both ways to obtain the bytes go on with the same test
  extract_lets tested
  have htested : ∀ (x : Location × Location) {K₂ : Vocabulary s D X}, K₁ ≤ K₂ → x.1.Known K₂ ∧
    x.2.KnownByte K₂ → Keeps K₂ (tested x) := by
    intro x K₂ hle₂ hx
    refine (brings_reserveLoad (Arch.mem_registers_accumulator _) hx.1).bind fun res K₃ hle₃ hres =>
      ?_
    have hor : Keeps K₃ (operateWith .or false x.2) := keeps_operateWith (hx.2.mono hle₃)
    have hdone : Keeps K₃ (do
        release res
        unpin keep) :=
      (keeps_release hres).bind fun _ => keeps_unpin fun res hres =>
        (hkeep res hres).mono (hle₂.trans hle₃)
    dsimp only
    split
    · exact hor.bind fun _ => keeps_branchOnFlags.bind fun _ => hdone
    · exact hor.bind fun _ => keeps_branchOnFlags.bind fun _ => hdone
    · refine keeps_testAccumulator.bind fun _ => keeps_branchMinus.bind fun _ => ?_
      exact hor.bind fun _ => keeps_branchEq.bind fun _ => hdone
    · refine keeps_testAccumulator.bind fun _ => keeps_freshLabel.bind fun skip => ?_
      refine Keeps.bind (keeps_emit (by simp) fun _ => (Arch.executes_flags _ skip).2.2.1) fun _ =>
        ?_
      refine hor.bind fun _ => keeps_branchNe.bind fun _ => ?_
      exact keeps_label.bind fun _ => hdone
    · exact hdone
    · exact hdone
  dsimp only
  split
  · refine (brings_toTemporary hl).bind fun t K₂ hle₂ ht => ?_
    exact (cites_testOrder ht.1).bind fun x hx => htested x hle₂ hx
  · exact htested _ (le_refl K₁) horder

theorem keeps_branchZeroWord (hl : l.Known K) : Keeps K (branchZeroWord cond l target) := by
  have hsign : ∀ cond, Keeps K (do testAndBranch cond (← byteOf l 1) target) := fun cond =>
    (cites_byteOf hl).bind fun byte hbyte => keeps_testAndBranch hbyte.1 hbyte.2
  cases cond with
  | lt | ge => exact hsign _
  | _ => exact keeps_branchZeroBothBytes hl

/-- **Comparing with zero.** -/
theorem keeps_compareZero (hl : l.Known K) : Keeps K (compareZero cond signed l target) := by
  unfold compareZero
  split
  · exact .pure _
  · exact keeps_jump
  split
  · exact keeps_branchZeroWord hl
  · rename_i hwidth
    exact keeps_testAndBranch hl (hl.knownByte fun _ => by simpa using hwidth)

/-! ### Comparing two locations -/

/-- What comes of the operands of a comparison: the right one is moved out of the accumulator. -/
structure NormalOperands (acc : Register) (cond : Cond) (l r : Location)
    (x : Cond × Location × Location) : Prop where
  order : x.1.isOrder = cond.isOrder
  left : x.2.1 = cond.left l r
  constant : x.2.2.constant? = none → (cond.right l r).constant? = none
  apart : x.2.2 = cond.right l r ∧ (cond.right l r).uses acc = false ∨ x.2.2.isPair = false

theorem constant?_of_uses {q : Register} (h : l.uses q = true) : l.constant? = none := by
  unfold Location.constant?
  split
  · rename_i hplace
    simp [Location.uses, Location.touched?, hplace, Register.clash] at h
  · rfl

theorem isPair_of_isMemory (h : l.isMemory = true) : l.isPair = false := by
  unfold Location.isMemory at h
  split at h
  · rename_i hplace
    simp [Location.isPair, hplace]
  · cases h

theorem brings_normalizeOperands (hl : l.Known K) (hr : r.Known K) :
    Brings K (normalizeOperands cond l r) fun x K' =>
      NormalOperands s.target.arch.accumulator cond l r x ∧ x.2.1.Known K' ∧ x.2.2.Known K' := by
  have hturned : ∀ (c : Cond) (x y : Location), c.isOrder = cond.isOrder → x = cond.left l r →
    y = cond.right l r → x.Known K → y.Known K → Brings K (do
        let y ← if y.uses (← accumulator) then toTemporary y else pure y
        return (c, x, y)) fun x K' =>
          NormalOperands s.target.arch.accumulator cond l r x ∧ x.2.1.Known K' ∧
            x.2.2.Known K' := by
    rintro c _ _ hc rfl rfl hx hy
    refine .accumulator ?_
    dsimp only
    split
    · rename_i huses
      refine (brings_toTemporary hy).bind fun t K' hle ht => .pure ⟨?_, hx.mono hle, ht.1⟩
      exact ⟨hc, rfl, fun _ => constant?_of_uses huses, .inr (isPair_of_isMemory ht.2.2)⟩
    · rename_i huses
      exact .pure ⟨⟨hc, rfl, fun h => h, .inl ⟨rfl, by simpa using huses⟩⟩, hx, hy⟩
  unfold normalizeOperands
  cases cond with
  | gt | le => exact hturned _ _ _ rfl rfl rfl hr hl
  | _ => exact hturned _ _ _ rfl rfl rfl hl hr

end Build

namespace Mos

/-- The right operand of a comparison on the 6502 family is no pair: the only pair contains the
accumulator. -/
theorem knownByte_right (hm : s.target.arch ≠ .i8080) {x : Cond × Location × Location}
    (hx : NormalOperands s.target.arch.accumulator cond l r x) (h : x.2.2.Known K) :
    x.2.2.KnownByte K := by
  refine h.knownByte_of_isPair fun hX => ?_
  rcases hx.apart with ⟨heq, huses⟩ | hpair
  · rw [← heq] at huses
    unfold Location.isPair
    split
    · rename_i q hq
      obtain ⟨hmem, hfits⟩ := h.register q hq
      have hall : ∀ q ∈ Mos.all, q.isCell = false → Register.clash (some q) (some Mos.a) = false →
          q.isPair = false := by
        decide
      have huses : Register.clash (some q) (some s.target.arch.accumulator) = false := by
        simpa [Location.uses, Location.touched?, hq] using huses
      cases harch : s.target.arch with
      | i8080 => exact absurd harch hm
      | _ =>
        rw [harch] at hmem huses
        exact hall q hmem (hfits hX).1 huses
    · rfl
  · exact hpair

/-- The operations by which bytes are compared. -/
theorem known_comparison {m : Arch} (hm : m ≠ .i8080) {o : Operation}
    (ho : o ∈ [compareOperation, subtractOperation, borrowOperation]) : o.Known m := by
  fin_cases ho
  all_goals exact known_of_isValue hm (by rintro _ ⟨⟩ <;> rfl) fun a =>
    ⟨takes_one _ a, takes_one _ a⟩

variable (hm : s.target.arch ≠ .i8080)

include hm

theorem keeps_branchNamed {op : String} (hop : ∀ t, Mos.executes ⟨op, [.label t]⟩ = true) :
    Keeps K (branch op target) :=
  keeps_branch (fun _ t => (Arch.executes_mos hm _).trans (hop t))

theorem keeps_branchOn : Keeps K (Mos.branchOn cond signed target) := by
  unfold Mos.branchOn
  split
  · exact keeps_branchNamed hm (fun _ => rfl)
  · exact keeps_branchNamed hm (fun _ => rfl)
  · cases signed <;> exact keeps_branchNamed hm (fun _ => rfl)
  · cases signed <;> exact keeps_branchNamed hm (fun _ => rfl)

theorem keeps_overflow : Keeps K Mos.overflow := by
  refine keeps_freshLabel.bind fun skip => Keeps.bind (keeps_emitMos hm (by simp) fun _ => rfl)
    fun _ => ?_
  exact (keeps_emitMos hm (by simp) fun _ => rfl).bind fun _ => keeps_label

theorem serves_a : ∀ q ∈ some Mos.a, s.Serves X q := by
  rintro _ ⟨⟩
  exact Site.serves_of_mem_bytes (Arch.of_mos hm (by decide) (by decide))

theorem keeps_compareBytes (hl : l.Known K) (hr : r.Known K) :
    Keeps K (Mos.compareBytes cond signed l r target) := by
  refine (brings_normalizeOperands hl hr).bind fun x K₁ _ hx => ?_
  have hright := knownByte_right hm hx.1 hx.2.2
  dsimp only
  split
  · rename_i hin
    obtain ⟨hin, -⟩ := Bool.and_eq_true_iff.mp hin
    obtain ⟨hin, hkind⟩ := Bool.and_eq_true_iff.mp hin
    refine (cites_present fun q hq => Mos.mem_bytes_of_isIn hm hin hq).bind fun q hq => ?_
    refine (cites_argOf hright.toNamed).bind fun arg harg => ?_
    refine Keeps.bind (keeps_emitMos hm (by simpa using harg.1) fun _ => ?_) fun _ =>
      keeps_branchOn hm
    refine Mos.executes_compareOp hm hq ?_
    rcases Bool.or_eq_true_iff.mp hkind with hkind | hkind
    · exact Mos.isValue_of_isConstant (Location.isConstant_arg hkind harg.2)
    · exact Mos.isValue_of_isCell (Location.isCell_of_isFixed (Location.isFixed_arg hkind harg.2))
  refine (brings_reserveLoad (Mos.mem_registers hm (by decide)) hx.2.1).bind fun res K₂ hle hres =>
    ?_
  have hbranch : ∀ subtracts, Keeps K₂ (do
      Mos.branchOn x.1 subtracts target
      release res) := fun _ => (keeps_branchOn hm).bind fun _ => keeps_release hres
  split
  · refine (keeps_operate (fun _ => known_comparison hm (by simp)) (hright.mono hle)).bind fun _ =>
      ?_
    exact (keeps_overflow hm).bind fun _ => hbranch _
  · exact (keeps_operate (fun _ => known_comparison hm (by simp)) (hright.mono hle)).bind fun _ =>
      hbranch _

theorem keeps_compareHalves (hl : l.Known K) (hr : r.Known K) :
    Keeps K (Mos.compareHalves cond signed l r target) := by
  refine (brings_normalizeOperands hl hr).bind fun x K₁ _ hx => ?_
  dsimp only
  refine (cites_byteOf hx.2.1).bind fun low hlow => ?_
  refine (brings_reserveLoad (Mos.mem_registers hm (by decide)) hlow.1).bind fun res K₂ hle hres =>
    ?_
  have hleft := hx.2.1.mono hle
  have hright := hx.2.2.mono hle
  have hcompare : ∀ {b : Location}, b.KnownByte K₂ → Keeps K₂ (operate compareOperation b) :=
    keeps_operate fun _ => known_comparison hm (by simp)
  refine (cites_byteOf hright).bind fun low hlow => (hcompare hlow.2).bind fun _ => ?_
  split
  · refine (keeps_branchNamed hm (fun _ => rfl)).bind fun _ => ?_
    refine (cites_byteOf hleft).bind fun high hhigh =>
      (keeps_loadByte (serves_a hm) hhigh.2).bind fun _ => ?_
    refine (cites_byteOf hright).bind fun high hhigh => (hcompare hhigh.2).bind fun _ => ?_
    exact (keeps_branchNamed hm (fun _ => rfl)).bind fun _ => keeps_release hres
  · refine keeps_freshLabel.bind fun skip => Keeps.bind (keeps_emitMos hm (by simp) fun _ => rfl)
      fun _ => ?_
    refine (cites_byteOf hleft).bind fun high hhigh =>
      (keeps_loadByte (serves_a hm) hhigh.2).bind fun _ => ?_
    refine (cites_byteOf hright).bind fun high hhigh => (hcompare hhigh.2).bind fun _ => ?_
    refine (keeps_branchNamed hm (fun _ => rfl)).bind fun _ => ?_
    exact keeps_label.bind fun _ => keeps_release hres
  · refine (cites_byteOf hleft).bind fun high hhigh =>
      (keeps_loadByte (serves_a hm) hhigh.2).bind fun _ => ?_
    refine (cites_byteOf hright).bind fun high hhigh => ?_
    refine (keeps_operate (fun _ => known_comparison hm (by simp)) hhigh.2).bind fun _ => ?_
    exact .when (keeps_overflow hm) ((keeps_branchOn hm).bind fun _ => keeps_release hres)

theorem keeps_compareWide (hl : l.Known K) (hr : r.Known K) :
    Keeps K (Mos.compareWide cond signed l r target) := by
  have hcompare : ∀ (cond : Cond) {l r : Location}, l.Known K → r.Known K → l.isWide = true →
    r.isWide = true → Keeps K (do
        let subtracts := signed && cond.isOrder
        let res ← reserve Mos.a
        emitAll [⟨"rep", [.imm 0x20]⟩, ⟨".a16", []⟩, ⟨"lda", [← argOf l]⟩]
        if subtracts then
          emit "sec" []
          emit "sbc" [← argOf r]
          let skip ← freshLabel
          branchLocal "bvc" skip
          emit "eor" [.imm 0x8000]
          label skip
        else emit "cmp" [← argOf r]
        emitAll [⟨"sep", [.imm 0x20]⟩, ⟨".a8", []⟩]
        branchOn cond subtracts target
        release res) := by
    intro cond l r hl hr hwideL hwideR
    refine (Mos.brings_reserveA hm).bind fun res K' hle hres => ?_
    refine (cites_argOf (hl.toNamed.mono hle)).bind fun x hx => ?_
    have hr := hr.toNamed.mono hle
    have hnarrow : ∀ subtracts, Keeps K' (do
        emitAll [⟨"sep", [.imm 0x20]⟩, ⟨".a8", []⟩]
        Mos.branchOn cond subtracts target
        release res) := by
      intro subtracts
      refine (keeps_emitAllMos hm (by simp) rfl).bind fun _ => ?_
      exact (keeps_branchOn hm).bind fun _ => keeps_release hres
    refine Keeps.bind (keeps_emitAll fun i hi => ?_) fun _ => Brings.ite ?_ ?_
    · fin_cases hi
      · exact Mos.known_mos hm (by simp) rfl
      · exact ⟨by simp, fun _ => rfl⟩
      · exact Mos.known_mos hm (by simpa using hx.1)
          ((takes_one _ x).trans (Location.isValue_arg hwideL hx.2))
    · refine Keeps.bind (keeps_emitMos hm (by simp) fun _ => rfl) fun _ =>
        (cites_argOf hr).bind fun y hy => ?_
      refine Keeps.bind (keeps_emitMos hm (by simpa using hy.1) fun _ => ?_) fun _ => ?_
      · exact (takes_one _ y).trans (Location.isValue_arg hwideR hy.2)
      refine keeps_freshLabel.bind fun skip => Keeps.bind (keeps_emitMos hm (by simp) fun _ => rfl)
        fun _ => ?_
      refine Keeps.bind (keeps_emitMos hm (by simp) fun _ => rfl) fun _ => ?_
      exact keeps_label.bind fun _ => hnarrow _
    · refine (cites_argOf hr).bind fun y hy => ?_
      refine Keeps.bind (keeps_emitMos hm (by simpa using hy.1) fun _ => ?_) fun _ => hnarrow _
      exact (takes_one _ y).trans (Location.isValue_arg hwideR hy.2)
  unfold Mos.compareWide
  split
  · exact keeps_compareHalves hm hl hr
  rename_i hwide
  have hwide : l.isWide = true ∧ r.isWide = true := by simpa [not_or] using hwide
  cases cond with
  | gt | le => exact hcompare _ hr hl hwide.2 hwide.1
  | _ => exact hcompare _ hl hr hwide.1 hwide.2

end Mos

namespace Intel

variable (hm : s.target.arch = .i8080)

include hm

theorem known_comparison : compareOperation.Known s.target.arch := by
  rw [hm]
  refine ⟨⟨by simp [compareOperation], fun a ha => ?_⟩, fun a ha => ?_⟩
  · exact (takes_one _ a).trans ha
  · exact (takes_one _ a).trans ha

theorem keeps_flipSign : Keeps K Intel.flipSign := by
  refine keeps_operateConstant (fun _ => ⟨by simp [flipOperation], fun a ha => ?_⟩)
    (Location.known_immediate _).toNamed rfl
  rw [hm]
  exact (takes_one _ a).trans ha

theorem keeps_branchNamed {op : String} (hop : ∀ t, Intel.executes ⟨op, [.label t]⟩ = true) :
    Keeps K (branch op target) :=
  keeps_branch (fun _ t => by rw [hm]; exact hop t)

theorem keeps_branchOn : Keeps K (Intel.branchOn cond target) := by
  unfold Intel.branchOn
  split
  all_goals exact keeps_branchNamed hm (fun _ => rfl)

theorem serves_a : ∀ q ∈ some Intel.a, s.Serves X q := by
  rintro _ ⟨⟩
  refine Site.serves_of_mem_bytes ?_
  rw [hm]
  decide

theorem keeps_compareSigned (hl : l.Known K) (hleft : l.KnownByte K) (hr : r.KnownByte K)
 : Keeps K (Intel.compareSigned cond l r target) := by
  have hmem : Intel.a ∈ s.target.arch.registers := Intel.mem_registers hm (by decide)
  have hbytes : ∀ q ∈ [Intel.e, Intel.d, Intel.c, Intel.b, Intel.l, Intel.h],
      q ∈ s.target.arch.bytes := by
    rw [hm]
    decide
  unfold Intel.compareSigned
  -- both ways to load the accumulator go on with the same comparison
  extract_lets loaded
  have hloaded : ∀ (x : Reservation × Location) {K₁ : Vocabulary s D X}, K ≤ K₁ → x.1.Known K₁ →
    x.2.KnownByte K₁ → Keeps K₁ (loaded x) := by
    intro x K₁ hle₁ hres hx
    refine (brings_reserveAny (fun q hq => Arch.mem_registers_of_mem_bytes (hbytes q hq)) _).bind ?_
    rintro ⟨q, held⟩ K₂ hle₂ ⟨hq, hheld⟩
    have hq := hbytes q hq
    refine (keeps_loadByte (serves_a hm) (hr.mono (hle₁.trans hle₂))).bind fun _ =>
      (keeps_flipSign hm).bind fun _ => ?_
    refine (Intel.keeps_mov hm ⟨Arg.known_reg, fun _ => Arch.isReg_of_mem_bytes (hm ▸ hq)⟩
      known_aArg).bind fun _ => ?_
    refine (keeps_loadByte (serves_a hm) (hx.mono hle₂)).bind fun _ =>
      (keeps_flipSign hm).bind fun _ => ?_
    have hregister : (Location.ofRegister q).KnownByte K₂ :=
      Location.knownByte_ofRegister (Site.serves_of_mem_bytes hq)
    refine (keeps_operate (fun _ => known_comparison hm) hregister).bind fun _ => ?_
    refine (keeps_branchOn hm).bind fun _ => (keeps_release hheld).bind fun _ => ?_
    exact keeps_release (hres.mono hle₂)
  split
  · refine (brings_reserveLoad hmem hl).bind fun res K₁ hle₁ hres => ?_
    refine (brings_toTemporary (hl.mono hle₁)).bind fun t K₂ hle₂ ht => ?_
    exact hloaded (res, t) (hle₁.trans hle₂) (hres.mono hle₂) ht.2.1
  · exact (brings_reserve hmem).bind fun res K₁ hle₁ hres =>
      hloaded (res, l) hle₁ hres (hleft.mono hle₁)

/-- Comparing bytes. With a sign, both operands are loaded from where they are, unless one is a
constant. -/
theorem keeps_compareBytes (hl : l.Known K) (hr : r.Known K)
    (hright : X → (cond.right l r).isPair = false)
    (hleft : X → signed = true → cond.isOrder = true → (cond.right l r).constant? = none →
      (cond.left l r).isPair = false)
 : Keeps K (Intel.compareBytes cond signed l r target) := by
  have hmem : Intel.a ∈ s.target.arch.registers := Intel.mem_registers hm (by decide)
  refine (brings_normalizeOperands hl hr).bind fun x K₁ _ hx => ?_
  have hright : x.2.2.KnownByte K₁ := by
    refine hx.2.2.knownByte_of_isPair fun hX => ?_
    rcases hx.1.apart with ⟨heq, -⟩ | hpair
    · exact heq ▸ hright hX
    · exact hpair
  dsimp only
  split
  · refine (brings_reserveLoad hmem hx.2.1).bind fun res K₂ hle hres => ?_
    refine (keeps_operate (fun _ => known_comparison hm) (hright.mono hle)).bind fun _ => ?_
    exact (keeps_branchOn hm).bind fun _ => keeps_release hres
  rename_i hsigned
  have hsigned : signed = true ∧ cond.isOrder = true := by simpa [not_or, hx.1.order] using hsigned
  split
  · refine (brings_reserveLoad hmem hx.2.1).bind fun res K₂ _ hres =>
      (keeps_flipSign hm).bind fun _ => ?_
    refine (keeps_operate (fun _ => known_comparison hm) (Location.knownByte_immediate _)).bind
      fun _ => ?_
    exact (keeps_branchOn hm).bind fun _ => keeps_release hres
  · rename_i hnone
    refine keeps_compareSigned hm hx.2.1 (hx.2.1.knownByte_of_isPair fun hX => ?_) hright
    exact hx.1.left ▸ hleft hX hsigned.1 hsigned.2 (hx.1.constant hnone)

theorem keeps_compareEqual (isEqual : Bool) (hl : l.Known K) (hr : r.Known K) :
    Keeps K (Intel.compareEqual isEqual l r target) := by
  refine (cites_byteOf hl).bind fun low hlow => ?_
  refine (brings_reserveLoad (Intel.mem_registers hm (by decide)) hlow.1).bind
    fun res K' hle hres => ?_
  have hl := hl.mono hle
  have hr := hr.mono hle
  have hcompare : ∀ {b : Location}, b.KnownByte K' → Keeps K' (operate compareOperation b) :=
    keeps_operate fun _ => known_comparison hm
  refine (cites_byteOf hr).bind fun low hlow => (hcompare hlow.2).bind fun _ => ?_
  dsimp only
  split
  · refine keeps_freshLabel.bind fun skip => Keeps.bind (keeps_emitIntel hm (by simp) fun _ => rfl)
      fun _ => ?_
    refine (cites_byteOf hl).bind fun high hhigh =>
      (keeps_loadByte (serves_a hm) hhigh.2).bind fun _ => ?_
    refine (cites_byteOf hr).bind fun high hhigh => (hcompare hhigh.2).bind fun _ => ?_
    refine (keeps_branchNamed hm (fun _ => rfl)).bind fun _ => ?_
    exact keeps_label.bind fun _ => keeps_release hres
  · refine (keeps_branchNamed hm (fun _ => rfl)).bind fun _ => ?_
    refine (cites_byteOf hl).bind fun high hhigh =>
      (keeps_loadByte (serves_a hm) hhigh.2).bind fun _ => ?_
    refine (cites_byteOf hr).bind fun high hhigh => (hcompare hhigh.2).bind fun _ => ?_
    exact (keeps_branchNamed hm (fun _ => rfl)).bind fun _ => keeps_release hres

theorem keeps_compareWords (hl : l.Known K) (hr : r.Known K) :
    Keeps K (Intel.compareWords cond signed l r target) := by
  have hmem : ∀ q ∈ [Intel.hl, Intel.de, Intel.a], q ∈ s.target.arch.registers :=
    fun q hq =>
      Intel.mem_registers hm ((by decide : ∀ q ∈ [Intel.hl, Intel.de, Intel.a], q ∈ Intel.all) q hq)
  refine (brings_normalizeOperands hl hr).bind fun x K₁ _ hx => ?_
  dsimp only
  split
  · exact keeps_compareEqual hm _ hx.2.1 hx.2.2
  refine (brings_reserveFor (hmem _ (by simp))).bind fun heldHl K₂ hle₂ hheldHl => ?_
  refine (brings_reserveFor (hmem _ (by simp))).bind fun heldDe K₃ hle₃ hheldDe => ?_
  have hle := hle₂.trans hle₃
  refine (keeps_loadTwo (hmem _ (by simp)) (hmem _ (by simp)) (hx.2.1.mono hle)
    (hx.2.2.mono hle)).bind fun _ => ?_
  refine (brings_reserve (hmem _ (by simp))).bind fun res K₄ hle₄ hres =>
    keeps_call.bind fun _ => ?_
  refine (keeps_branchOn hm).bind fun _ => (keeps_release hres).bind fun _ => ?_
  exact (keeps_release (hheldDe.mono hle₄)).bind fun _ =>
    keeps_release (hheldHl.mono (hle₃.trans hle₄))

end Intel

namespace Build

theorem keeps_compareBytes (hl : l.Known K) (hr : r.Known K)
    (hright : X → s.target.arch = .i8080 → (cond.right l r).isPair = false)
    (hleft : X → s.target.arch = .i8080 → signed = true → cond.isOrder = true →
      (cond.right l r).constant? = none →
      (cond.left l r).isPair = false) : Keeps K (compareBytes cond signed l r target) := by
  refine Brings.arch ?_
  split
  · rename_i hm
    exact Intel.keeps_compareBytes hm hl hr (fun x => hright x hm) (fun x => hleft x hm)
  · rename_i hm
    exact Mos.keeps_compareBytes hm hl hr

theorem keeps_compareWords (hl : l.Known K) (hr : r.Known K) :
    Keeps K (compareWords cond signed l r target) := by
  refine Brings.arch ?_
  split
  · rename_i hm
    exact Mos.keeps_compareHalves (by simp [hm]) hl hr
  · rename_i hm
    exact Mos.keeps_compareWide (by simp [hm]) hl hr
  · rename_i hm
    exact Intel.keeps_compareWords hm hl hr

/-! ### Instructions -/

/-- Comparing with a constant. -/
theorem keeps_compareConstant (hcond : ∀ x y, cond.right x y = y) (width : Int)
    (hl : l.Known K) (hr : r.Known K) (hconstant : r.constant?.isSome = true) :
    Keeps K (compareLocated cond signed width l r target) := by
  refine Brings.ite (keeps_compareWords hl hr) ?_
  refine keeps_compareBytes hl hr (fun _ _ => ?_) (fun _ _ _ _ hnone => ?_)
  · rw [hcond]
    exact Location.isPair_of_isImmediate (Location.isImmediate_of_constant hconstant)
  · rw [hcond] at hnone
    rw [hnone] at hconstant
    cases hconstant

/-- Comparing locations of which neither is a constant. -/
theorem keeps_compareApart {width : Int} (hl : l.Known K) (hr : r.Known K)
    (hhanded : X → s.target.arch = .i8080 → width ≠ 2 → ∀ x ∈ cond.handed signed l r,
      x.isPair = false)
 : Keeps K (compareLocated cond signed width l r target) := by
  unfold compareLocated
  split
  · exact keeps_compareWords hl hr
  rename_i hwidth
  have hwidth : width ≠ 2 := by simpa using hwidth
  have hboth : X → signed = true → cond.isOrder = true → s.target.arch = .i8080 →
      l.isPair = false ∧ r.isPair = false := by
    intro x hsigned horder hm
    have h := hhanded x hm hwidth
    simpa [Cond.handed, hsigned, horder] using h
  refine keeps_compareBytes hl hr (fun x hm => ?_) (fun x hm hsigned horder _ => ?_)
  · cases hsigned : signed && cond.isOrder with
    | true =>
      obtain ⟨hsigned, horder⟩ := Bool.and_eq_true_iff.mp hsigned
      obtain ⟨hx, hy⟩ := hboth x hsigned horder hm
      cases cond with
      | gt | le => exact hx
      | _ => exact hy
    | false => exact hhanded x hm hwidth _ (by simp [Cond.handed, hsigned])
  · obtain ⟨hx, hy⟩ := hboth x hsigned horder hm
    cases cond with
    | gt | le => exact hy
    | _ => exact hx

/-- A constant address is no wider than a word. -/
theorem width_located_le {o : Operand} (himm : (o.located s.registers).isImmediate = true)
    (hnone : (o.located s.registers).constant? = none) : (o.located s.registers).width ≤ 2 := by
  cases o with
  | int t v => cases hnone
  | var v o t =>
    simp only [Operand.located] at himm
    repeat' split at himm
    all_goals cases himm
  | deref p o t => cases himm
  | address n o t => exact le_refl 2
  | string n v => exact le_refl 2
  | addressByte n o h => exact (by decide : (1 : Int) ≤ 2)

section

variable {left right : Operand}

/-- A constant address on the left goes to the right. What is taken as it is is no pair after that
if it was none before, since a word then makes the comparison one of words. -/
theorem known_turned {x : Cond × Location × Location} (hl : (left.located s.registers).Known K)
    (hr : (right.located s.registers).Known K)
    (hhanded : X → s.target.arch = .i8080 →
      max (left.located s.registers).width (right.located s.registers).width ≠ 2 →
      (left.located s.registers).constant? = none → (right.located s.registers).constant? = none →
      ∀ x ∈ cond.handed left.type.signed (left.located s.registers) (right.located s.registers),
        x.isPair = false)
    (hx : (if (left.located s.registers).isImmediate &&
      !(right.located s.registers).isImmediate then
      (cond.swap, right.located s.registers, left.located s.registers)
      else (cond, left.located s.registers, right.located s.registers)) = x) :
    x.2.1.Known K ∧ x.2.2.Known K ∧ (x.2.2.constant? = none → X → s.target.arch = .i8080 →
      max (left.located s.registers).width (right.located s.registers).width ≠ 2 →
      ∀ y ∈ x.1.handed left.type.signed x.2.1 x.2.2, y.isPair = false) := by
  subst hx
  split
  · rename_i himm
    obtain ⟨himm, -⟩ := Bool.and_eq_true_iff.mp himm
    refine ⟨hr, hl, fun hnone hX hm hwidth y hy => ?_⟩
    have hle := width_located_le himm hnone
    rcases Cond.eq_of_mem_handed hy with rfl | rfl
    · exact (hr.knownByte fun _ => by omega).isPair hX
    · exact Location.isPair_of_isImmediate himm
  · rename_i himm
    refine ⟨hl, hr, fun hnone hX hm hwidth => ?_⟩
    cases hconstant : (left.located s.registers).constant? with
    | none => exact hhanded hX hm hwidth hconstant hnone
    | some v =>
      have hleft : (left.located s.registers).isImmediate = true :=
        Location.isImmediate_of_constant (by simp [hconstant])
      have hright : (right.located s.registers).isImmediate = true := by simpa [hleft] using himm
      intro y hy
      rcases Cond.eq_of_mem_handed hy with rfl | rfl
      · exact Location.isPair_of_isImmediate hleft
      · exact Location.isPair_of_isImmediate hright

/-- **Comparing and branching.** -/
theorem keeps_compare (hl : left.Known K) (hr : right.Known K)
    (hhanded : X → s.target.arch = .i8080 →
      max (left.located s.registers).width (right.located s.registers).width ≠ 2 →
      (left.located s.registers).constant? = none → (right.located s.registers).constant? = none →
      ∀ x ∈ cond.handed left.type.signed (left.located s.registers) (right.located s.registers),
        x.isPair = false)
 : Keeps K (compare cond left right target) := by
  refine Brings.locate (.locate ?_)
  refine Brings.when keeps_requireWords ?_
  dsimp only
  split
  · exact keeps_present.bind fun holds => .ite keeps_jump (.pure trivial)
  generalize hturned :
    (if (left.located s.registers).isImmediate && !(right.located s.registers).isImmediate then
    (cond.swap, right.located s.registers, left.located s.registers)
    else (cond, left.located s.registers, right.located s.registers)) = turned
  obtain ⟨hx, hy, hhanded⟩ := known_turned hl.located hr.located hhanded hturned
  split
  · rename_i hnone
    exact keeps_compareApart hx hy (hhanded hnone)
  refine keeps_present.bind fun k => keeps_present.bind fun bits => ?_
  split
  · exact .pure trivial
  · exact keeps_jump
  · exact keeps_compareZero hx
  · rename_i hagainst
    exact keeps_compareConstant (Cond.right_of_against hagainst) _ hx
      (Location.known_of_immediate rfl).1 rfl

/-- **Decrementing and jumping.** -/
theorem keeps_decrementAndJump (hd : left.Known K) : Keeps K (decrementAndJump left target) := by
  refine Brings.locate ?_
  have hd := hd.located
  split
  · rename_i hwidth
    have hwidth : (left.located s.registers).width = 1 := by simpa using hwidth
    have hbyte := hd.knownByte fun _ => by omega
    refine (keeps_stepByte hbyte).bind fun stepped => .ite (.arch keeps_branchNe) ?_
    refine .accumulator
      ((brings_reserveLoad (Arch.mem_registers_accumulator _) hd).bind fun res K' hle hres => ?_)
    refine (keeps_operateWith (Location.knownByte_immediate _)).bind fun _ => ?_
    refine (keeps_storeByte serves_accumulator (hbyte.mono hle)).bind fun _ => .arch ?_
    exact keeps_branchNe.bind fun _ => keeps_release hres
  · rename_i hwidth
    refine (keeps_stepWord hd (fun _ => by simpa using hwidth)).bind fun stepped => ?_
    exact .unless (keeps_wordArithmetic hd hd (Location.known_immediate _))
      (keeps_branchZeroWord hd)

end

end Build

end

end Octet
