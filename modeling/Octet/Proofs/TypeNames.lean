import Octet.Proofs.Reading

/-!
# Names of types

A type has many names. The empty name is `void`, a bare `ptr` is `ptr:byte`, and a size may have a
sign and leading zeros in front. Only one of them is ever written, so writing what was read takes
all names of a type to a single one. That is a normal form if the written name is read as the type
again, however deep its pointers go.

Sizes are integers of 64 bits, and one that is not positive is refused. No other type lacks a name.

## Main definitions

* `Ty.Nameable` — types that have a name

## Main results

* `Text.magnitude_of_isDigit`, `Text.decimal_toDigits` — digits are read as the number that they
  stand for
* `Ty.parse_text`, `Ty.nameable_of_parseChars` — what is written is read back, and what is read has
  a name
* `Ty.names_roundTrip` — written names are a normal form
-/

namespace Octet

/-! ### Decimals -/

namespace Text

/-- **Decimal digits are read as the number that they stand for**, if it is within the bound. -/
theorem magnitude_of_isDigit {bound acc : Nat} {s : List Char} (hs : ∀ c ∈ s, c.isDigit = true)
    (h : Nat.ofDigitChars 10 s acc ≤ bound) :
    magnitude 10 bound false acc s = .ok (Nat.ofDigitChars 10 s acc) := by
  induction s generalizing acc with
  | nil => simp [magnitude]
  | cons c s ih =>
    obtain ⟨hc, hs⟩ := List.forall_mem_cons.mp hs
    obtain ⟨hlow, hhigh⟩ : '0' ≤ c ∧ c ≤ '9' := by simpa [Char.isDigit, Char.le_def] using hc
    have hvalue : digitValue? c = some (c.toNat - 48) := by simp [digitValue?, hlow, hhigh]
    have hdigit : c.toNat - 48 < 10 := by
      have hnine : c.toNat ≤ 57 := hhigh
      omega
    rw [Nat.ofDigitChars_cons, Nat.mul_comm] at h ⊢
    have hacc : acc * 10 + (c.toNat - 48) ≤ bound := by
      -- the bound is met at every digit, since those that follow only add to the number
      rw [Nat.ofDigitChars_eq_ofDigitChars_zero] at h
      exact (Nat.le_mul_of_pos_left _ (by positivity)).trans ((Nat.le_add_right _ _).trans h)
    simp only [magnitude, Bool.false_and, Bool.false_eq_true, if_false, hvalue, if_pos hdigit,
      if_pos hacc]
    exact ih hs h

theorem splitSign_of_isDigit {s : List Char} (hs : ∀ c ∈ s, c.isDigit = true) :
    splitSign s = (false, s) := by
  unfold splitSign
  split
  · exact absurd (hs _ (.head _)) (by decide)
  · exact absurd (hs _ (.head _)) (by decide)
  · rfl

/-- A number that fits some bits with a sign is read from its digits. -/
theorem decimal_toDigits {bits n : Nat} (h : n < Bits.modulus (bits - 1)) :
    decimal bits (Nat.toDigits 10 n) = .ok (n : Int) := by
  have hdigits : ∀ c ∈ Nat.toDigits 10 n, c.isDigit = true := fun c hc =>
    Nat.isDigit_of_mem_toDigits (by decide) (by decide) hc
  have hbound : n ≤ Bits.modulus bits - 1 := by
    have hpow := Nat.pow_le_pow_right (n := 2) (by decide) (Nat.sub_le bits 1)
    simp only [Bits.modulus, Nat.one_shiftLeft] at h ⊢
    omega
  have hvalue := magnitude_of_isDigit hdigits (Nat.ofDigitChars_ten_toDigits.trans_le hbound)
  rw [Nat.ofDigitChars_ten_toDigits] at hvalue
  simp [decimal, splitSign_of_isDigit hdigits, hvalue, withSign, h, bind, Except.bind,
    Nat.toDigits_ne_nil]

/-- Whatever is read as a decimal of some bits fits them with a sign. -/
theorem lt_of_decimal {bits : Nat} {s : List Char} {v : Int} (h : decimal bits s = .ok v) :
    v < Bits.modulus (bits - 1) := by
  have hmodulus : 0 < Bits.modulus (bits - 1) := by simp [Bits.modulus, Nat.one_shiftLeft]
  unfold decimal at h
  dsimp only at h
  split at h
  · cases h
  · obtain ⟨n, -, h⟩ := Listing.Except.bind_eq_ok_iff.mp h
    unfold withSign at h
    dsimp only at h
    split_ifs at h
    all_goals cases h
    all_goals omega

end Text

/-! ### Types -/

namespace Ty

/-- **Types that have a name**: void, bytes and words with a sign or without, aggregates whose size
is a positive integer of 64 bits, and pointers to such types. -/
def Nameable : Ty → Prop
  | pointer target => target.Nameable
  | struct size => 0 < size ∧ size < Bits.modulus 63
  | _ => True

theorem parseSimple_struct {size : List Char} {n : Int} (h : Text.decimal 64 size = .ok n)
    (hn : 0 < n) :
    parseSimple (String.ofList ("struct:".toList ++ size)) = .ok (struct n.toNat) := by
  unfold parseSimple
  split
  case h_7 => simp [h, hn]
  all_goals exact absurd (congrArg String.toList ‹_›) (by simp)

/-- **What is written is read back.** -/
theorem parse_text {t : Ty} (h : t.Nameable) : parse t.text = .ok t := by
  unfold parse
  induction t with
  | void => rfl
  | byte signed => cases signed <;> rfl
  | word signed => cases signed <;> rfl
  | pointer target ih =>
    rw [text, String.toList_append]
    exact congrArg (Except.map pointer) (ih h)
  | struct size =>
    rw [text, String.toList_append, Nat.toString_eq_repr, Nat.toList_repr]
    exact parseSimple_struct (Text.decimal_toDigits h.2) (Int.natCast_pos.mpr h.1)

theorem nameable_of_parseSimple {name : String} {t : Ty} (h : parseSimple name = .ok t) :
    t.Nameable := by
  unfold parseSimple at h
  split at h
  case h_7 =>
    split at h
    · split at h
      · rename_i n hn
        have hlt : n < Bits.modulus 63 := Text.lt_of_decimal hn
        split at h
        · cases h
          exact ⟨by omega, by omega⟩
        · cases h
      · cases h
    · cases h
  all_goals
    cases h
    trivial

/-- **What is read has a name.** -/
theorem nameable_of_parseChars {name : List Char} {t : Ty} (h : parseChars name = .ok t) :
    t.Nameable := by
  fun_induction parseChars name generalizing t with
  | case1 =>
    cases h
    trivial
  | case2 target ih =>
    cases htarget : parseChars target with
    | error e => simp [htarget, Except.map] at h
    | ok u =>
      have hu : u.Nameable := ih htarget
      rw [htarget] at h
      cases h
      exact hu
  | case3 => exact nameable_of_parseSimple h

/-- **Written names are a normal form.** A type that is read from any name has a name, and the name
that is written for it is read as the same type. Two names are of the same type if and only if the
same name is written for both. And every type that has a name is read from the name that is written
for it. -/
theorem names_roundTrip :
    (∀ name t, parse name = .ok t → t.Nameable ∧ parse t.text = .ok t) ∧
      (∀ name name' t t', parse name = .ok t → parse name' = .ok t' → (t.text = t'.text ↔ t = t')) ∧
      ∀ t : Ty, t.Nameable → parse t.text = .ok t := by
  have hread {name : String} {t : Ty} (h : parse name = .ok t) : parse t.text = .ok t :=
    parse_text (nameable_of_parseChars h)
  refine ⟨fun _ _ h => ⟨nameable_of_parseChars h, hread h⟩, ?_, fun _ => parse_text⟩
  intro name name' t t' ht ht'
  refine ⟨fun heq => ?_, congrArg text⟩
  have h := hread ht
  rw [heq, hread ht'] at h
  exact (Except.ok.inj h).symm

/-- A size with a sign and zeros in front behind two pointers, a pointer to nothing, and the
greatest size. -/
theorem names_roundTrip_nested :
    parse "ptr:ptr:struct:+007" = .ok (pointer (pointer (struct 7))) ∧
      parse (pointer (pointer (struct 7))).text = .ok (pointer (pointer (struct 7))) ∧
      parse "ptr:" = .ok (pointer void) ∧
      ((pointer (pointer (struct 7))).text = (pointer void).text ↔
        pointer (pointer (struct 7)) = pointer void) ∧
      (struct 9223372036854775807).Nameable ∧
      parse (struct 9223372036854775807).text = .ok (struct 9223372036854775807) := by
  have hnested : parse "ptr:ptr:struct:+007" = .ok (pointer (pointer (struct 7))) := by
    decide +kernel
  have hnothing : parse "ptr:" = .ok (pointer void) := by decide +kernel
  have hgreatest : (struct 9223372036854775807).Nameable := ⟨by decide, by decide⟩
  exact ⟨hnested, (names_roundTrip.1 _ _ hnested).2, hnothing,
    names_roundTrip.2.1 _ _ _ _ hnested hnothing, hgreatest, names_roundTrip.2.2 _ hgreatest⟩

end Ty

end Octet
