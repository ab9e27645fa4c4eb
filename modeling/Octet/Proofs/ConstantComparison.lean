import Octet.Proofs.Emitted.Arithmetic

/-!
# Comparisons with a constant

A comparison with a constant is decided, or reduced to the flags of a value, or to a comparison with
a constant that is not zero by `=`, `≠`, `<` or `≥`. Along the way the constant goes to the right,
`>` and `≤` become `≥` and `<` of the next constant, and comparisons at either end of the range are
decided.

The reduction is right for values read at the width of the comparison. A test of flags reads a value
at its own width: if that is smaller, and the comparison is signed, a byte from 128 on is taken for
a negative number, and the test is the opposite of what was asked for.

## Main definitions

* `ConstantTest.perform`, `ConstantTest.test` — the code of a test, and what it finds of a value
* `ConstantTest.misreads` — whether a test takes a byte for a negative number

## Main results

* `Cond.relates_against`, `Cond.relates_againstZero` — reductions keep the relation
* `Build.compare_constant` — what is selected for a comparison with a constant, and what it finds
-/

namespace Octet

/-! ### Reductions -/

theorem Cond.relates_swap (c : Cond) (a b : Int) : c.swap.relates a b = c.relates b a := by
  cases c <;> simp [swap, relates, bne, Bool.beq_comm]

namespace ConstantTest

/-- The code of a test. -/
def perform (signed : Bool) (width : Int) (l : Location) (target : String) :
    ConstantTest → Build Unit
  | never => pure ()
  | always => Build.jump target
  | zero c => Build.compareZero c signed l target
  | constant c k => Build.compareLocated c signed width l
    { Location.immediate k width with signed } target

/-- The relation that a test stands for. -/
def relates (x : Int) : ConstantTest → Bool
  | never => false
  | always => true
  | zero c => c.relates x 0
  | constant c k => c.relates x k

end ConstantTest

namespace Cond

variable {signed : Bool} {bits : Nat} {x k k' : Int} {c c' : Cond}

theorem relates_againstBound (c : Cond) (hx : leastValue signed bits ≤ x) :
    (c.againstBound k signed bits).relates x = c.relates x k := by
  unfold againstBound
  dsimp only
  split_ifs with hlt hge hzero
  · simp_all [ConstantTest.relates, relates]
  · simp_all [ConstantTest.relates, relates]
  · simp_all [ConstantTest.relates]
  · rfl

/-- **The normal form of a comparison** stands for the same relation, on the values of some bits. -/
theorem relates_against (c : Cond) (hx : leastValue signed bits ≤ x)
    (hx' : x ≤ greatestValue signed bits) :
    (c.against k signed bits).relates x = c.relates x k := by
  unfold against
  dsimp only
  by_cases hzero : k = 0
  · simp [hzero, ConstantTest.relates]
  rw [if_neg (by simpa using hzero)]
  cases c with
  | eq | ne | lt | ge => exact relates_againstBound _ hx
  | gt =>
    dsimp only
    split_ifs with hmax
    · simp_all [ConstantTest.relates, relates]
    · rw [relates_againstBound _ hx]
      simp only [relates, decide_eq_decide]
      omega
  | le =>
    dsimp only
    split_ifs with hmax
    · simp_all [ConstantTest.relates, relates]
    · rw [relates_againstBound _ hx]
      simp only [relates, decide_eq_decide]
      omega

theorem eq_of_againstBound (h : c.againstBound k signed bits = .constant c' k') :
    c' = c ∧ k' = k ∧ k ≠ 0 := by
  unfold againstBound at h
  dsimp only at h
  split_ifs at h with hlt hge hzero
  cases h
  exact ⟨rfl, rfl, by simpa using hzero⟩

/-- **What is left to compare with** is not zero and has the same bits, and the relation is neither
`>` nor `≤`. -/
theorem constant_of_against (h : c.against k signed bits = .constant c' k')
    (hk : leastValue signed bits ≤ k) (hk' : k ≤ greatestValue signed bits) :
    k' ≠ 0 ∧ leastValue signed bits ≤ k' ∧ k' ≤ greatestValue signed bits ∧ c' ≠ .gt ∧
      c' ≠ .le := by
  unfold against at h
  dsimp only at h
  by_cases hzero : k = 0
  · simp [hzero] at h
  rw [if_neg (by simpa using hzero)] at h
  cases c with
  | eq | ne | lt | ge =>
    obtain ⟨rfl, rfl, hne⟩ := eq_of_againstBound h
    exact ⟨hne, hk, hk', by decide, by decide⟩
  | gt | le =>
    dsimp only at h
    split_ifs at h with hmax
    obtain ⟨rfl, rfl, hne⟩ := eq_of_againstBound h
    have hmax : k ≠ greatestValue signed bits := by simpa using hmax
    exact ⟨hne, by omega, by omega, by decide, by decide⟩

end Cond

/-! ### Values at a width -/

section Width

variable {signed : Bool} {width own : Nat} {a v : Int}

/-- What a value is read as: the highest bit of its bytes is the sign, if there is one. -/
theorem normalize_eq (hwidth : width = 1 ∨ width = 2) (v : Int) (signed : Bool) :
    normalize v signed width =
      if signed && decide (256 ^ width / 2 ≤ v % 256 ^ width) then v % 256 ^ width - 256 ^ width
      else v % 256 ^ width := by
  rcases hwidth with rfl | rfl <;> rfl

/-- The least and the greatest value of some bytes. -/
theorem range_eq (hwidth : width = 1 ∨ width = 2) (signed : Bool) :
    leastValue signed (8 * width) = (if signed then -(256 ^ width / 2) else 0) ∧
      greatestValue signed (8 * width) =
        (if signed then 256 ^ width / 2 - 1 else 256 ^ width - 1) := by
  rcases hwidth with rfl | rfl <;> cases signed <;> decide

/-- A value that is read at a width lies in the range of the width. -/
theorem normalize_mem (v : Int) (signed : Bool) (hwidth : width = 1 ∨ width = 2) :
    leastValue signed (8 * width) ≤ normalize v signed width ∧
      normalize v signed width ≤ greatestValue signed (8 * width) := by
  obtain ⟨hleast, hgreatest⟩ := range_eq hwidth signed
  rw [hleast, hgreatest, normalize_eq hwidth]
  rcases hwidth with rfl | rfl <;> cases signed <;> simp <;> omega

theorem normalize_of_emod (hwidth : width = 1 ∨ width = 2) (h : v % 256 ^ width = 0) :
    normalize v signed width = 0 := by
  rw [normalize_eq hwidth, h]
  rcases hwidth with rfl | rfl <;> simp

/-- A value in the range of a width is read as itself. -/
theorem normalize_of_mem (hwidth : width = 1 ∨ width = 2) (hv : leastValue signed (8 * width) ≤ v)
    (hv' : v ≤ greatestValue signed (8 * width)) : normalize v signed width = v := by
  obtain ⟨hleast, hgreatest⟩ := range_eq hwidth signed
  rw [hleast] at hv
  rw [hgreatest] at hv'
  rw [normalize_eq hwidth]
  rcases hwidth with rfl | rfl <;> cases signed <;> simp_all <;> omega

end Width

/-! ### What tests find -/

/-- What a test of flags finds of a value. The flags show the value at its own width, with its
sign. -/
def ZeroTest.test (own : Nat) (a : Int) : ZeroTest → Bool
  | never => false
  | always => true
  | flags c => c.relates (normalize a true own) 0

namespace ConstantTest

/-- **What a test finds of a value** of `own` bytes that is compared at some width. -/
def test (signed : Bool) (width own : Nat) (a : Int) : ConstantTest → Bool
  | never => false
  | always => true
  | zero c => (c.againstZero signed).test own a
  | constant c k => c.holds a k signed width

/-- Whether a test takes a value for a negative number that is none at the width of the
comparison. -/
def misreads (signed : Bool) (width own : Nat) (a : Int) : ConstantTest → Bool
  | zero c => signed && c.isOrder && decide (own < width) && decide (128 ≤ a)
  | _ => false

end ConstantTest

section Tests

variable {signed : Bool} {width own : Nat} {a k : Int}

/-- Numbers below and above zero are related to it in opposite ways by an order, and in the same way
otherwise. -/
theorem Cond.relates_opposite (c : Cond) {x y : Int} (hx : x < 0) (hy : 0 < y) :
    c.relates x 0 = (c.relates y 0 ^^ c.isOrder) := by
  cases c <;> grind [relates, isOrder]

/-- A value is read as itself, unless its highest bit is read as a sign. -/
theorem normalize_own (hwidth : width = 1 ∨ width = 2) (hown : 0 < own ∧ own ≤ width) (ha : 0 ≤ a)
    (ha' : a < 256 ^ own) (hsign : signed = true → own < width) : normalize a signed width = a := by
  have hlt : a < 256 ^ width := ha'.trans_le (pow_le_pow_right₀ (by decide) hown.2)
  rw [normalize_eq hwidth, Int.emod_eq_of_lt ha hlt]
  cases signed with
  | false => rfl
  | true =>
    obtain ⟨rfl, rfl⟩ : own = 1 ∧ width = 2 := by
      have := hsign rfl
      omega
    rw [if_neg]
    simp
    omega

/-- A value that is shown as zero is zero. -/
theorem normalize_eq_zero_iff (hown : own = 1 ∨ own = 2) (ha : 0 ≤ a) (ha' : a < 256 ^ own) :
    normalize a true own = 0 ↔ a = 0 := by
  rw [normalize_eq hown, Int.emod_eq_of_lt ha ha']
  rcases hown with rfl | rfl <;> simp <;> omega

/-- **The test of flags** finds how a value is related to zero, or the opposite of it. -/
theorem Cond.test_againstZero (c : Cond) (hwidth : width = 1 ∨ width = 2)
    (hown : 0 < own ∧ own ≤ width) (ha : 0 ≤ a) (ha' : a < 256 ^ own) :
    (c.againstZero signed).test own a =
      (c.relates (normalize a signed width) 0 ^^ (ConstantTest.zero c).misreads signed width
        own a) := by
  have hzero := normalize_eq_zero_iff (by omega : own = 1 ∨ own = 2) ha ha'
  cases signed with
  | false =>
    have hle : a ≤ 0 ↔ a = 0 := by omega
    have hlt : 0 < a ↔ ¬a = 0 := by omega
    rw [normalize_own hwidth hown ha ha' (by simp)]
    cases c <;>
      simp [againstZero, ZeroTest.test, relates, ConstantTest.misreads, bne, beq_eq_decide, hzero,
        hle, hlt, ha]
  | true =>
    rcases Nat.lt_or_ge own width with hlt | hge
    · obtain ⟨rfl, rfl⟩ : own = 1 ∧ width = 2 := by omega
      rw [normalize_own hwidth hown ha ha' fun _ => hlt]
      have hshown : normalize a true 1 = if 128 ≤ a then a - 256 else a := by
        rw [normalize_eq (.inl rfl), Int.emod_eq_of_lt ha ha']
        simp
      have htest : (c.againstZero true).test 1 a = c.relates (normalize a true 1) 0 := rfl
      rw [htest]
      by_cases hsign : 128 ≤ a
      · rw [c.relates_opposite (by omega : normalize a true 1 < 0) (by omega : 0 < a)]
        simp [ConstantTest.misreads, hsign]
      · rw [hshown, if_neg hsign]
        simp [ConstantTest.misreads, hsign]
    · obtain rfl : own = width := by omega
      simp [againstZero, ZeroTest.test, ConstantTest.misreads]

/-- **The test of a normal form** finds how a value is related to a constant, unless it misreads the
value. -/
theorem Cond.test_against (signed : Bool) (c : Cond) (hwidth : width = 1 ∨ width = 2)
    (hown : 0 < own ∧ own ≤ width) (ha : 0 ≤ a) (ha' : a < 256 ^ own) :
    let t := c.against (normalize k signed width) signed (8 * width)
    t.test signed width own a = (c.holds a k signed width ^^ t.misreads signed width own a) := by
  intro t
  obtain ⟨hx, hx'⟩ := normalize_mem a signed hwidth
  obtain ⟨hk, hk'⟩ := normalize_mem k signed hwidth
  have hrelates : t.relates (normalize a signed width) = c.holds a k signed width :=
    relates_against c hx hx'
  rw [← hrelates]
  cases ht : t with
  | never => rfl
  | always => rfl
  | zero c' => exact c'.test_againstZero hwidth hown ha ha'
  | constant c' k' =>
    obtain ⟨-, hleast, hgreatest, -⟩ := constant_of_against ht hk hk'
    simp [ConstantTest.test, ConstantTest.relates, ConstantTest.misreads, holds,
      normalize_of_mem hwidth hleast hgreatest]

end Tests

/-! ### The instruction -/

namespace Build

/-- Going on with where an operand is. -/
theorem locate_bind {β : Type} {s : Site} {o : Operand} {f g : Location → Build β}
    (h : f (o.located s.registers) s = g (o.located s.registers) s) :
    (locate o >>= f) s = (locate o >>= g) s := by
  have hread : ∀ F : Site → Build β, (read >>= F) s = F s s := fun _ => rfl
  unfold locate
  simp only [bind_assoc]
  rw [hread, hread]
  split
  · rename_i r _
    simp only [bind_assoc, pure_bind]
    exact congrArg (fun y => settle r s >>= fun _ => y) h
  · simpa only [pure_bind] using h

variable {s : Site} {x c : Operand} {k : Int} {w : Nat}

theorem present_normalize (k : Int) (signed : Bool) (hwidth : w = 1 ∨ w = 2) :
    normalize? k signed w = some (normalize k signed w) ∧ Bits.count? w = some (8 * w) := by
  rcases hwidth with rfl | rfl
  · exact ⟨by cases signed <;> rfl, rfl⟩
  · exact ⟨by cases signed <;> rfl, rfl⟩

/-- What comes before a test of a word. -/
theorem requireWords_bind {b : Build Unit} (ls : List Location) :
    (if (w : Int) == 2 then requireWords ls >>= fun _ => b else b) =
      (if w = 2 then requireWords ls else pure ()) >>= fun _ => b := by
  by_cases hw : w = 2
  · simp [hw]
  · rw [if_neg (by simpa using fun h => hw (by omega)), if_neg hw, pure_bind]

/-- **A constant is compared with on the right**, whatever side it was written on. Only an address
does not change places with it. -/
theorem compare_against (cond : Cond) (target : String) (flipped : Bool)
    (hx : (x.located s.registers).constant? = none)
    (hk : (c.located s.registers).constant? = some k)
    (hw : max x.type.byteCount c.type.byteCount = w) (hwidth : w = 1 ∨ w = 2) :
    let left := if flipped then c else x
    let right := if flipped then x else c
    compare cond left right target s = (locate left >>= fun _ => locate right >>= fun _ =>
      (if w = 2 then requireWords [left.located s.registers, right.located s.registers]
        else pure ()) >>= fun _ =>
        if flipped && (x.located s.registers).isImmediate then
          compareLocated cond left.type.signed w (c.located s.registers) (x.located s.registers)
            target
        else
          ((if flipped then cond.swap else cond).against (normalize k left.type.signed w)
            left.type.signed (8 * w)).perform left.type.signed w (x.located s.registers) target)
        s := by
  intro left right
  unfold compare
  refine locate_bind (locate_bind ?_)
  have hmax : max (left.located s.registers).width (right.located s.registers).width = w := by
    rw [Operand.width_located, Operand.width_located]
    cases flipped <;> simp [left, right] <;> omega
  have himm : (c.located s.registers).isImmediate = true :=
    Location.isImmediate_of_constant (by simp [hk])
  obtain ⟨hnormalize, hcount⟩ := present_normalize k left.type.signed hwidth
  have hpresent : ∀ {α : Type} (y : α), present (some y) = pure y := fun _ => rfl
  cases flipped with
  | false =>
    simp only [left, right, Bool.false_eq_true, if_false] at hmax hnormalize ⊢
    simp only [hmax, hx, hk, himm, Bool.not_true, Bool.and_false, Bool.false_and,
      Bool.false_eq_true, if_false, hnormalize, hcount, hpresent, pure_bind]
    rw [← requireWords_bind]
    rfl
  | true =>
    simp only [left, right, if_true] at hmax hnormalize ⊢
    cases hside : (x.located s.registers).isImmediate with
    | false =>
      simp only [hmax, hx, hk, himm, Bool.not_false, Bool.true_and, Bool.false_eq_true,
        if_true, if_false, hnormalize, hcount, hpresent, pure_bind]
      rw [← requireWords_bind]
      rfl
    | true =>
      simp only [hmax, hx, hk, himm, Bool.not_true, Bool.true_and, Bool.false_eq_true,
        if_true, if_false]
      rw [← requireWords_bind]

/-- **Comparisons with a constant.** What is selected for a comparison of a value with a constant at
a width of one or two bytes is a normal form, whatever side the constant was written on: nothing, a
jump, a test against zero, or a comparison with a constant that is not zero at that width, by a
relation other than `>` and `≤`. It finds of the value what the relation says, except where it
misreads it, and there it finds the opposite. An address on the right of a constant is compared as
it stands there. -/
theorem compare_constant (cond : Cond) (target : String) (flipped : Bool)
    (hx : (x.located s.registers).constant? = none)
    (hk : (c.located s.registers).constant? = some k) (hown : 0 < x.type.byteCount)
    (hw : max x.type.byteCount c.type.byteCount = w) (hwidth : w = 1 ∨ w = 2) :
    let left := if flipped then c else x
    let right := if flipped then x else c
    let signed := left.type.signed
    let t := (if flipped then cond.swap else cond).against (normalize k signed w) signed (8 * w)
    compare cond left right target s = (locate left >>= fun _ => locate right >>= fun _ =>
        (if w = 2 then requireWords [left.located s.registers, right.located s.registers]
          else pure ()) >>= fun _ =>
          if flipped && (x.located s.registers).isImmediate then
            compareLocated cond signed w (c.located s.registers) (x.located s.registers) target
          else t.perform signed w (x.located s.registers) target) s ∧
      (∀ c' k', t = .constant c' k' → k' % 256 ^ w ≠ 0 ∧ c' ≠ .gt ∧ c' ≠ .le) ∧
      ∀ a, 0 ≤ a → a < 256 ^ x.type.byteCount →
        t.test signed w x.type.byteCount a =
          ((if flipped then cond.holds k a signed w else cond.holds a k signed w) ^^
            t.misreads signed w x.type.byteCount a) := by
  intro left right signed t
  refine ⟨compare_against cond target flipped hx hk hw hwidth, fun c' k' ht => ?_,
    fun a ha ha' => ?_⟩
  · obtain ⟨hk, hk'⟩ := normalize_mem k signed hwidth
    obtain ⟨hne, hleast, hgreatest, hgt, hle⟩ := Cond.constant_of_against ht hk hk'
    refine ⟨fun hmod => hne ?_, hgt, hle⟩
    rw [← normalize_of_mem hwidth hleast hgreatest]
    exact normalize_of_emod hwidth hmod
  · refine (Cond.test_against signed (if flipped then cond.swap else cond) hwidth
      ⟨hown, by omega⟩ ha ha').trans (congrArg (xor · _) ?_)
    cases flipped with
    | false => rfl
    | true => exact Cond.relates_swap cond _ _

/-- Zero is greater than no byte, but a byte from 128 on is found to be less than zero if zero is a
signed word. -/
theorem compare_byte_with_zero :
    let b : Operand := .whole ⟨0, true, "b", "b", .byte false, none⟩
    let s : Site := ⟨Arch.i8080.target, ⟨"f", [], .void, [], [], []⟩, ⟨[]⟩, 0, none⟩
    compare .gt (.int (.word true) 0) b "yes" s =
        (locate (.int (.word true) 0) >>= fun _ => locate b >>= fun _ =>
          requireWords [.immediate 0 2, b.located ⟨[]⟩] >>= fun _ =>
            compareZero .lt true (b.located ⟨[]⟩) "yes") s ∧
      Cond.gt.holds 0 128 true 2 = false ∧ (ConstantTest.zero .lt).test true 2 1 128 = true := by
  intro b s
  obtain ⟨hcode, -, htest⟩ :=
    compare_constant (s := s) (x := b) (c := .int (.word true) 0) (w := 2) .gt "yes" true
    rfl rfl (by decide) rfl (.inr rfl)
  exact ⟨hcode, by decide, htest 128 (by decide) (by decide)⟩

end Build

end Octet
