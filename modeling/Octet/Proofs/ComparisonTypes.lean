import Octet.Proofs.Reading

/-!
# Constants in comparisons

In a comparison, a constant without a type of its own should take the type of its partner. Which
operand is the constant is decided before operands are read, by looking at their texts as they are
written, while reading passes over blanks at both ends. So a constant with blanks around it is not
recognized, and a partner that is a constant with a type of its own looks like one that needs a
type. What follows says exactly when the type is handed over.

## Main definitions

* `Listing.bare?` — the number that a text is, without a type of its own

## Main results

* `Text.solid_of_literal?` — there are no blanks in a literal
* `Listing.Scope.comparison_types` — the type of a constant in a comparison
-/

namespace Octet

namespace Text

/-- A character of a literal: neither blank nor a quotation mark. -/
def Solid (c : Char) : Prop := 43 ≤ c.toNat ∧ c.toNat ≤ 122

theorem Solid.not_isBlank {c : Char} (h : Solid c) : isBlank c = false := by
  have h₀ := h.1
  have h₁ := h.2
  simp only [isBlank, Bool.or_eq_false_iff, Bool.and_eq_false_iff, decide_eq_false_iff_not,
    beq_eq_false_iff_ne]
  omega

theorem solid_of_digit {c : Char} {d : Nat} (h : digitValue? c = some d) : Solid c := by
  unfold digitValue? at h
  simp only [Bool.and_eq_true, decide_eq_true_eq, Char.le_def, UInt32.le_iff_toNat_le] at h
  unfold Solid Char.toNat
  split at h
  · rename_i hc
    change 48 ≤ c.val.toNat ∧ c.val.toNat ≤ 57 at hc
    omega
  · split at h
    · rename_i hc
      change 97 ≤ c.val.toNat ∧ c.val.toNat ≤ 122 at hc
      omega
    · split at h
      · rename_i hc
        change 65 ≤ c.val.toNat ∧ c.val.toNat ≤ 90 at hc
        omega
      · cases h

theorem solid_of_magnitude {base bound acc n : Nat} {gaps : Bool} {s : List Char}
    (h : magnitude base bound gaps acc s = .ok n) : ∀ c ∈ s, Solid c := by
  fun_induction magnitude base bound gaps acc s with
  | case1 => simp
  | case2 acc c s hgap ih =>
    obtain rfl : c = '_' := by simpa using (Bool.and_eq_true_iff.mp hgap).2
    exact List.forall_mem_cons.mpr ⟨⟨by decide, by decide⟩, ih h⟩
  | case4 acc c s _ d hd _ _ ih => exact List.forall_mem_cons.mpr ⟨solid_of_digit hd, ih h⟩
  | case3 | case5 | case6 => cases h

theorem solid_of_baseOf? {c : Char} {b : Nat} (h : baseOf? c = some b) : Solid c := by
  unfold baseOf? at h
  split at h
  case h_7 => cases h
  all_goals exact ⟨by decide, by decide⟩

theorem solid_of_unsignedLiteral {bound n : Nat} {s : List Char}
    (h : unsignedLiteral bound s = .ok n) :
    ∀ c ∈ s, Solid c := by
  have hzero : Solid '0' := ⟨by decide, by decide⟩
  cases s with
  | nil => simp
  | cons first rest =>
    unfold unsignedLiteral at h
    dsimp only at h
    rw [List.isEmpty_cons, if_neg (by decide)] at h
    obtain ⟨m, hm, -⟩ := Listing.Except.bind_eq_ok_iff.mp h
    have hdigits := solid_of_magnitude hm
    split at hdigits
    · rename_i c d rest heq
      rw [heq]
      refine List.forall_mem_cons.mpr ⟨hzero, ?_⟩
      split at hdigits
      · rename_i hbase
        exact List.forall_mem_cons.mpr ⟨solid_of_baseOf? hbase, hdigits⟩
      · exact hdigits
    · rename_i heq
      rw [heq]
      exact List.forall_mem_cons.mpr ⟨hzero, hdigits⟩
    · exact hdigits

/-- **There are no blanks in a literal**, nor quotation marks. -/
theorem solid_of_literal? {s : List Char} {v : Int} (h : literal? s = some v) :
    s ≠ [] ∧ ∀ c ∈ s, Solid c := by
  have hliteral : literal 32 s = .ok v := by
    unfold literal? at h
    cases hs : literal 32 s with
    | error e => simp [hs, Except.toOption] at h
    | ok w => simpa [hs, Except.toOption] using h
  obtain ⟨m, hm, -⟩ := Listing.Except.bind_eq_ok_iff.mp hliteral
  have hdigits := solid_of_unsignedLiteral hm
  split at hdigits
  · exact ⟨by simp, List.forall_mem_cons.mpr ⟨⟨by decide, by decide⟩, hdigits⟩⟩
  · exact ⟨by simp, List.forall_mem_cons.mpr ⟨⟨by decide, by decide⟩, hdigits⟩⟩
  · refine ⟨?_, hdigits⟩
    rintro rfl
    cases hm

theorem cut_of_notMem {c : Char} {s : List Char} (h : c ∉ s) : cut c s = (s, none) := by
  have hdrop : s.dropWhile (· != c) = [] := by
    rw [List.dropWhile_eq_nil_iff]
    intro d hd
    rw [bne_iff_ne]
    rintro rfl
    exact h hd
  simp [cut, hdrop]

theorem notMem_of_cut {c : Char} {s : List Char} (h : (cut c s).2 = none) : c ∉ s := by
  intro hc
  unfold cut at h
  split at h
  · rename_i hdrop
    simpa using List.dropWhile_eq_nil_iff.mp hdrop c hc
  · cases h

theorem trim_of_solid {s : List Char} (h : ∀ c ∈ s, Solid c) : trim s = s := by
  have hdrop : ∀ t : List Char, (∀ c ∈ t, Solid c) → t.dropWhile isBlank = t := by
    rintro (_ | ⟨c, t⟩) ht
    · rfl
    · exact List.dropWhile_cons_of_neg (by simp [(ht c List.mem_cons_self).not_isBlank])
  rw [trim, hdrop s h, hdrop s.reverse (by simpa using h), List.reverse_reverse]

theorem mem_trim {c : Char} {s : List Char} (h : c ∈ s) (hc : isBlank c = false) : c ∈ trim s := by
  have hdrop : ∀ t : List Char, c ∈ t → c ∈ t.dropWhile isBlank := by
    intro t ht
    rw [← List.takeWhile_append_dropWhile (p := isBlank) (l := t), List.mem_append] at ht
    refine ht.resolve_left fun htake => ?_
    simp [List.mem_takeWhile_imp htake] at hc
  rw [trim, List.mem_reverse]
  exact hdrop _ (List.mem_reverse.mpr (hdrop s h))

end Text

namespace Listing

open Text (trim)

/-- **The number that a text is**, without a type of its own. -/
def bare? (text : String) : Option Int :=
  if (Text.cut ':' (trim text.toList)).2 = none then Text.literal? (trim text.toList) else none

section Bare

variable {text : String} {v : Int}

theorem literal?_of_bare? (h : bare? text = some v) :
    (Text.cut ':' (trim text.toList)).2 = none ∧ Text.literal? (trim text.toList) = some v := by
  unfold bare? at h
  split at h
  · exact ⟨‹_›, h⟩
  · cases h

/-- A number is recognized as it is written, without blanks. -/
theorem isConstant_of_bare? (h : bare? text = some v) :
    isConstant text = true ↔ trim text.toList = text.toList := by
  obtain ⟨hcut, hliteral⟩ := literal?_of_bare? h
  have hcolon : ':' ∉ text.toList :=
    fun hmem => Text.notMem_of_cut hcut (Text.mem_trim hmem (by decide))
  rw [isConstant, Text.cut_of_notMem hcolon]
  constructor
  · intro hsome
    obtain ⟨w, hw⟩ := Option.isSome_iff_exists.mp hsome
    exact Text.trim_of_solid (Text.solid_of_literal? hw).2
  · intro htrim
    rw [← htrim, hliteral]
    rfl

variable (s : Scope) (surroundings : Option Ty)

/-- A number is read as a constant, with the type that its surroundings give it. -/
theorem Scope.operand_of_bare? (h : bare? text = some v) :
    s.operand text surroundings = pure (constant surroundings v) := by
  obtain ⟨hcut, hliteral⟩ := literal?_of_bare? h
  obtain ⟨hne, hsolid⟩ := Text.solid_of_literal? hliteral
  have hcut := Text.cut_of_notMem (Text.notMem_of_cut hcut)
  have hplain : s.plainOperand surroundings (trim text.toList) = .ok (constant surroundings v) := by
    simp only [plainOperand, hcut, hliteral]
    rfl
  have hquote : ∀ rest, trim text.toList ≠ '"' :: rest := by
    intro rest heq
    have hfirst := (hsolid '"' (by simp [heq])).1
    exact absurd hfirst (by decide)
  unfold operand
  dsimp only
  split
  · exact absurd ‹_› hne
  · exact absurd ‹_› (hquote _)
  · rw [hplain]

/-- Anything else is read as it is in any surroundings. -/
theorem Scope.operand_of_not_bare? (h : bare? text = none) :
    s.operand text surroundings = s.operand text none := by
  have hplain : s.plainOperand surroundings (trim text.toList) = s.plainOperand none
      (trim text.toList) := by
    unfold bare? at h
    unfold plainOperand
    cases hcut : Text.cut ':' (trim text.toList) with
    | mk base typeName =>
      cases typeName with
      | none =>
        have hcolon := Text.cut_of_notMem (Text.notMem_of_cut (congrArg Prod.snd hcut))
        obtain rfl : base = trim text.toList := (Prod.mk.inj (hcut.symm.trans hcolon)).1
        rw [hcut, if_pos rfl] at h
        simp only [h]
      | some name =>
        dsimp only
        cases Ty.parseChars name with
        | ok t => rfl
        | error e => rfl
  unfold operand
  dsimp only
  split
  · rfl
  · rfl
  · rw [hplain]

end Bare

/-- A constant of a type that constants can have. -/
theorem type_constant {t : Ty} (ht : t.isByte ∨ t.isWord) (v : Int) :
    (constant (some t) v).type = t := by
  cases t <;> simp_all [constant, constantType, Operand.type, Ty.isByte, Ty.isWord]

/-- **The type of a constant in a comparison**, whose partner is no constant without a type. On the
left it takes the type of its partner if there are no blanks around it and the partner does not look
like a constant, and on the right unless there are blanks around it and the partner looks like one.
Otherwise its value alone decides. -/
theorem Scope.comparison_types {s : Scope} {e : Entry} {c : Cond} {v : Int} {o : Operand}
    {strings strings' : Strings}
    (hop : Operator.parse? e.op = some .compare) (hcond : Cond.parse? e.cond = some c)
    (htarget : e.target.isEmpty = false) (ho : o.type.isByte ∨ o.type.isWord) :
    (bare? e.left = some v → bare? e.right = none →
      s.operand e.right none strings = .ok (o, strings') →
      ∃ k, s.entry e strings = .ok (.compare c k o (s.anchor e.target), strings') ∧
        (∃ n, k = .int k.type n) ∧
        k.type = if trim e.left.toList = e.left.toList ∧ isConstant e.right = false then o.type
          else constantType none v) ∧
    (bare? e.right = some v → bare? e.left = none →
      s.operand e.left none strings = .ok (o, strings') →
      ∃ k, s.entry e strings = .ok (.compare c o k (s.anchor e.target), strings') ∧
        (∃ n, k = .int k.type n) ∧
        k.type = if trim e.right.toList ≠ e.right.toList ∧
          isConstant e.left = true then constantType none v
          else o.type) := by
  have hentry : ∀ l r, s.pair e.left e.right none strings = .ok ((l, r), strings') →
      s.entry e strings = .ok (.compare c l r (s.anchor e.target), strings') := by
    intro l r hpair
    unfold entry
    simp only [hop, hcond]
    refine Reader.bind_eq_ok_iff.mpr ⟨(l, r), strings', hpair, ?_⟩
    simp only [target, htarget]
    rfl
  have hpair : ∀ b, (isConstant e.left && !isConstant e.right) = b →
      s.pair e.left e.right none = if b then (do
          let r ← s.operand e.right none
          let l ← s.operand e.left (some r.type)
          return (l, r))
        else (do
          let l ← s.operand e.left none
          let r ← s.operand e.right (some l.type)
          return (l, r)) := by
    intro b hb
    cases b <;> simp [pair, hb]
  constructor
  · intro hleft hright hpartner
    have hsame := isConstant_of_bare? hleft
    by_cases hlooks : trim e.left.toList = e.left.toList ∧ isConstant e.right = false
    · refine ⟨constant (some o.type) v, hentry _ _ ?_, ⟨_, rfl⟩,
        (type_constant ho v).trans (if_pos hlooks).symm⟩
      rw [hpair true (by simp [hsame.mpr hlooks.1, hlooks.2])]
      refine Reader.bind_eq_ok_iff.mpr ⟨o, strings', hpartner, ?_⟩
      rw [operand_of_bare? _ _ hleft]
      rfl
    · refine ⟨constant none v, hentry _ _ ?_, ⟨_, rfl⟩, (if_neg hlooks).symm⟩
      rw [hpair false (by simpa [hsame] using hlooks), operand_of_bare? _ _ hleft]
      refine Reader.bind_eq_ok_iff.mpr
        ⟨_, strings, rfl, Reader.bind_eq_ok_iff.mpr ⟨o, strings', ?_, rfl⟩⟩
      rw [operand_of_not_bare? _ _ hright]
      exact hpartner
  · intro hright hleft hpartner
    have hsame := isConstant_of_bare? hright
    by_cases hlooks : trim e.right.toList ≠ e.right.toList ∧ isConstant e.left = true
    · refine ⟨constant none v, hentry _ _ ?_, ⟨_, rfl⟩, (if_pos hlooks).symm⟩
      rw [hpair true (by simpa [← hsame, hlooks.2] using hlooks.1), operand_of_bare? _ _ hright]
      refine Reader.bind_eq_ok_iff.mpr
        ⟨_, strings, rfl, Reader.bind_eq_ok_iff.mpr ⟨o, strings', ?_, rfl⟩⟩
      rw [operand_of_not_bare? _ _ hleft]
      exact hpartner
    · refine ⟨constant (some o.type) v, hentry _ _ ?_, ⟨_, rfl⟩,
        (type_constant ho v).trans (if_neg hlooks).symm⟩
      rw [hpair false ?_]
      · refine Reader.bind_eq_ok_iff.mpr ⟨o, strings', hpartner, ?_⟩
        rw [operand_of_bare? _ _ hright]
        rfl
      · rw [ne_eq, ← hsame] at hlooks
        cases hl : isConstant e.left <;> simp_all

/-- A function with one variable, which is a word. -/
def wordScope : Scope := ⟨"f", .void, [], [⟨0, false, "w", "f_w", .word false, none⟩], []⟩

/-- A constant takes the type of a word, but not if there is a blank in front of it. -/
theorem comparison_types_blank :
    let e (text : String) : Entry :=
  { op := "compare", cond := "eq", left := text, right := "w", target := "l" }
    let w : Operand := .var ⟨0, false, "w", "f_w", .word false, none⟩ 0 (.word false)
    (∃ k, wordScope.entry (e "5") [] = .ok (.compare .eq k w ⟨"f_l"⟩, []) ∧ k.type = .word false) ∧
      ∃ k, wordScope.entry (e " 5") [] = .ok (.compare .eq k w ⟨"f_l"⟩, []) ∧
        k.type = .byte false := by
  intro e w
  have hread : wordScope.operand "w" none [] = .ok (w, []) := by cbv
  obtain ⟨k, hk, -, htype⟩ :=
    (@Scope.comparison_types wordScope (e "5") .eq 5 w [] [] rfl rfl (by decide) (.inr rfl)).1
    (by decide +kernel) (by decide +kernel) hread
  obtain ⟨k', hk', -, htype'⟩ :=
    (@Scope.comparison_types wordScope (e " 5") .eq 5 w [] [] rfl rfl (by decide) (.inr rfl)).1
      (by decide +kernel) (by decide +kernel) hread
  exact ⟨⟨k, hk, htype.trans (by decide +kernel)⟩, k', hk', htype'.trans (by decide +kernel)⟩

end Listing

end Octet
