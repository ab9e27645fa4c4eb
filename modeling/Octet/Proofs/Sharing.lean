import Octet.Proofs.Listing
import Octet.Proofs.LiveRange
import Octet.Target.Legality

/-!
# Registers shared along control flow

Two variables may hold the same register when their ranges do not intersect. A range is an interval
of addresses, and what a program does is a path through them, so sharing is safe only as far as the
interval has every address at which control carries the value of the variable.

It has them all exactly when the variable is not carried back above its first mention. A jump back
leads to a label; if the variable is mentioned above that label, or arrives at the entry, the loop
is entered from above and the range reaches its end. If not, the range begins below the label, and
the code between the label and the first mention may be run while the value is still needed.
`Sharing.returned_after_sharing` is a function in which this goes wrong.

Instructions may write one byte of a word and leave the other one, so what is carried, and what is
lost, is a byte.

## Main definitions

* `Inst.WritesByte`, `Inst.ReadsByte` — the bytes of variables that an instruction writes and reads
* `Function.edges`, `Function.Path` — control flow, and the paths from the entry
* `Function.Carries` — a byte of a variable is carried from where it is given to where it is read
* `Function.CarriesFromAbove` — a variable is not carried back above its first mention
* `Function.Overwrites` — a path on which a byte is lost

## Main results

* `Function.carriesFromAbove_iff_rangeCovers` — a range has what paths need exactly in this case
* `Function.not_overwrites_of_build` — two such variables lose no byte to each other, on any machine
* `Sharing.returned_after_sharing` — a function in which a value is carried back and lost
-/

namespace Octet

/-! ### What an instruction writes and reads -/

namespace Operand

/-- Whether the operand has a byte of a variable. -/
def hasByte (v : Variable) (b : Int) : Operand → Bool
  | var u offset type => u == v && decide (offset ≤ b) && decide (b < offset + type.byteCount)
  | _ => false

/-- Whether the operand goes through a byte of a pointer. -/
def followsByte (v : Variable) (b : Int) : Operand → Bool
  | deref u .. => u == v && decide (0 ≤ b) && decide (b < u.type.byteCount)
  | _ => false

theorem direct?_of_hasByte {o : Operand} {v : Variable} {b : Int} (h : o.hasByte v b = true) :
    o.direct? = some v := by
  cases o <;> simp_all [hasByte, direct?]

theorem pointer?_of_followsByte {o : Operand} {v : Variable} {b : Int}
    (h : o.followsByte v b = true) : o.pointer? = some v := by
  cases o <;> simp_all [followsByte, pointer?]

end Operand

namespace Inst

/-- The instruction writes the variable, or a part of it. -/
def Writes (i : Inst) (v : Variable) : Prop := i.dest?.bind (·.direct?) = some v

instance (i : Inst) (v : Variable) : Decidable (i.Writes v) := inferInstanceAs (Decidable (_ = _))

/-- The operands whose value is read. The counter of a counting jump is read before it is
written. -/
def sources : Inst → List Operand
  | decJump c _ => [c]
  | i => i.left?.toList ++ i.right?.toList ++ i.args

/-- The instruction reads the variable, or goes through it as a pointer. -/
def Reads (i : Inst) (v : Variable) : Prop :=
  (∃ o ∈ i.sources, o.mentioned? = some v) ∨ i.dest?.bind (·.pointer?) = some v

instance (i : Inst) (v : Variable) : Decidable (i.Reads v) := inferInstanceAs (Decidable (_ ∨ _))

/-- The instruction writes a byte of the variable. -/
def WritesByte (i : Inst) (v : Variable) (b : Int) : Prop :=
  ∃ o, i.dest? = some o ∧ o.hasByte v b = true

/-- The instruction reads a byte of the variable, or goes through it. -/
def ReadsByte (i : Inst) (v : Variable) (b : Int) : Prop :=
  (∃ o ∈ i.sources, (o.hasByte v b || o.followsByte v b) = true) ∨
    ∃ o, i.dest? = some o ∧ o.followsByte v b = true

variable {i : Inst} {v : Variable} {b : Int}

theorem WritesByte.writes (h : i.WritesByte v b) : i.Writes v := by
  obtain ⟨o, ho, hb⟩ := h
  rw [Writes, ho]
  exact Operand.direct?_of_hasByte hb

theorem ReadsByte.reads (h : i.ReadsByte v b) : i.Reads v := by
  rcases h with ⟨o, ho, hb⟩ | ⟨o, ho, hb⟩
  · refine .inl ⟨o, ho, ?_⟩
    rcases Bool.or_eq_true_iff.mp hb with hb | hb
    · cases o <;> simp_all [Operand.hasByte, Operand.mentioned?]
    · cases o <;> simp_all [Operand.followsByte, Operand.mentioned?]
  · refine .inr ?_
    rw [ho]
    exact Operand.pointer?_of_followsByte hb

theorem Writes.mentions (h : i.Writes v) : i.Mentions v := by
  obtain ⟨o, ho, hv⟩ := Option.bind_eq_some_iff.mp h
  refine ⟨o, by simp [operands, ho], ?_⟩
  cases o <;> simp_all [Operand.direct?, Operand.mentioned?]

theorem Reads.mentions (h : i.Reads v) : i.Mentions v := by
  rcases h with ⟨o, ho, hv⟩ | h
  · refine ⟨o, ?_, hv⟩
    cases i <;> simp_all [sources, operands, dest?, left?, right?, args]
  · obtain ⟨o, ho, hv⟩ := Option.bind_eq_some_iff.mp h
    refine ⟨o, by simp [operands, ho], ?_⟩
    cases o <;> simp_all [Operand.pointer?, Operand.mentioned?]

/-- Only a counting jump both writes a variable and goes somewhere, and it reads what it writes. -/
theorem WritesByte.readsByte_of_target {a : Anchor} (h : i.WritesByte v b)
    (ha : i.target? = some a) : i.ReadsByte v b := by
  obtain ⟨o, ho, hb⟩ := h
  cases i with
  | decJump c t =>
    obtain rfl : c = o := Option.some.inj ho
    exact .inl ⟨c, by simp [sources], by simp [hb]⟩
  | label | load | binary | unary | resize | call | ret => simp [target?] at ha
  | jump | compare => simp [dest?] at ho

/-- An instruction writes one variable at most. -/
theorem Writes.eq {w : Variable} (hv : i.Writes v) (hw : i.Writes w) : v = w :=
  Option.some.inj (hv.symm.trans hw)

end Inst

namespace Function

/-! ### Control flow -/

/-- The pairs of addresses between which control may pass in one step: from the entry to the first
instruction, to the next instruction, and to the label that an instruction names. -/
def edges (f : Function) : List (Nat × Nat) :=
  (0, 1) :: f.addressed.flatMap fun (a, i) =>
    (if i.fallsThrough then [(a, a + 1)] else []) ++
      i.target?.toList.map fun t => (a, f.addressOf t)

/-- The first `n` steps of `p` are a path from the entry. -/
structure Path (f : Function) (n : Nat) (p : Nat → Nat) : Prop where
  start : p 0 = 0
  step : ∀ m < n, (p m, p (m + 1)) ∈ f.edges

/-- The instruction at an address writes a byte of a variable. -/
def WritesByteAt (f : Function) (a : Nat) (v : Variable) (b : Int) : Prop :=
  ∃ i, f.at? a = some i ∧ i.WritesByte v b

/-- The instruction at an address reads a byte of a variable. -/
def ReadsByteAt (f : Function) (a : Nat) (v : Variable) (b : Int) : Prop :=
  ∃ i, f.at? a = some i ∧ i.ReadsByte v b

/-- The instruction at an address writes a variable, or a part of it. -/
def WrittenAt (f : Function) (a : Nat) (v : Variable) : Prop := ∃ b, f.WritesByteAt a v b

/-- The instruction at an address reads a variable, or a part of it. -/
def ReadAt (f : Function) (a : Nat) (v : Variable) : Prop := ∃ b, f.ReadsByteAt a v b

/-- The instruction at an address mentions a variable. -/
def MentionedAt (f : Function) (a : Nat) (v : Variable) : Prop :=
  ∃ i, f.at? a = some i ∧ i.Mentions v

/-- A variable gets a value, or a part of one: it is written, or arrives as a parameter. -/
def GivenAt (f : Function) (a : Nat) (v : Variable) : Prop :=
  (a = 0 ∧ v.parameter.isSome = true) ∨ f.WrittenAt a v

/-- On every path, every variable that is no parameter is written before it is read. -/
def AssignsBeforeUse (f : Function) : Prop :=
  ∀ n p, f.Path n p → ∀ k ≤ n, ∀ v ∈ f.vars, v.parameter = none → f.ReadAt (p k) v →
    ∃ j < k, f.WrittenAt (p j) v

/-- **A byte that is lost**: on the path, `v` gets a value, then `w` is written, and then a byte of
`v` is read that was not written after `w`. -/
def Overwrites (f : Function) (n : Nat) (p : Nat → Nat) (v w : Variable) : Prop :=
  ∃ i j k b, i < j ∧ j < k ∧ k ≤ n ∧ f.GivenAt (p i) v ∧ f.WrittenAt (p j) w ∧
    f.ReadsByteAt (p k) v b ∧ ∀ m, j < m → m < k → ¬ f.WritesByteAt (p m) v b

/-- At step `k` a byte of `v` is read that was not written since `v` has got a value at step `i`. -/
structure Carries (f : Function) (p : Nat → Nat) (v : Variable) (i k : Nat) : Prop where
  lt : i < k
  given : f.GivenAt (p i) v
  kept : ∃ b, f.ReadsByteAt (p k) v b ∧ ∀ m, i < m → m < k → ¬ f.WritesByteAt (p m) v b

/-- A variable is a parameter, or mentioned before an address. -/
def MentionedAbove (f : Function) (v : Variable) (a : Nat) : Prop :=
  v.parameter.isSome = true ∨ ∃ b < a, f.MentionedAt b v

/-- **A variable is not carried back above its first mention.** Wherever a byte of it is carried
along a jump back, the variable is a parameter or is mentioned above the place where the jump
leads. -/
def CarriesFromAbove (f : Function) (v : Variable) : Prop :=
  ∀ n p, f.Path n p → ∀ i k, k ≤ n → f.Carries p v i k →
    ∀ m, i ≤ m → m < k → p (m + 1) ≤ p m → f.MentionedAbove v (p (m + 1))

/-- The range of a variable has every address along which a byte of it is carried. -/
def RangeCovers (f : Function) (v : Variable) : Prop :=
  ∀ n p, f.Path n p → ∀ i k, k ≤ n → f.Carries p v i k →
    ∀ m, i ≤ m → m ≤ k → (f.range v).Covers (p m)

variable {f : Function} {n : Nat} {p : Nat → Nat} {v w : Variable} {a b : Nat}

theorem mem_edges : (a, b) ∈ f.edges ↔ (a = 0 ∧ b = 1) ∨ ∃ i, f.at? a = some i ∧
    ((i.fallsThrough = true ∧ b = a + 1) ∨ ∃ t, i.target? = some t ∧ b = f.addressOf t) := by
  simp only [edges, List.mem_cons, Prod.mk.injEq, List.mem_flatMap, mem_addressed, Prod.exists,
    List.mem_append, List.mem_map, Option.mem_toList]
  refine or_congr Iff.rfl ⟨?_, ?_⟩
  · rintro ⟨c, i, hi, h | ⟨t, ht, rfl, rfl⟩⟩
    · split at h
      · rename_i hfall
        obtain ⟨rfl, rfl⟩ := Prod.mk.inj (List.mem_singleton.mp h)
        exact ⟨i, hi, .inl ⟨hfall, rfl⟩⟩
      · simp at h
    · exact ⟨i, hi, .inr ⟨t, ht, rfl⟩⟩
  · rintro ⟨i, hi, ⟨hfall, rfl⟩ | ⟨t, ht, rfl⟩⟩
    · exact ⟨a, i, hi, .inl (by simp [hfall])⟩
    · exact ⟨a, i, hi, .inr ⟨t, ht, rfl, rfl⟩⟩

/-- A step that does not go forward is a jump back. -/
theorem mem_loops_of_edge (h : (a, b) ∈ f.edges) (hle : b ≤ a) :
    (⟨b, a⟩ : Loop) ∈ f.loops ∧ ∃ i t, f.at? a = some i ∧ i.target? = some t ∧
      b = f.addressOf t := by
  rcases mem_edges.mp h with ⟨rfl, rfl⟩ | ⟨i, hi, ⟨-, rfl⟩ | ⟨t, ht, rfl⟩⟩
  · omega
  · omega
  · exact ⟨mem_loops.mpr ⟨a, i, t, hi, ht, hle, rfl⟩, i, t, hi, ht, rfl⟩

/-- A jump leads to a label. -/
theorem JumpsPlaced.at?_addressOf (h : f.JumpsPlaced) {i : Inst} {t : Anchor}
    (hi : f.at? a = some i) (ht : i.target? = some t) :
    f.at? (f.addressOf t) = some (.label t) := by
  have hlabel := h i (mem_code_of_at? hi) t ht
  unfold addressOf
  cases hidx : f.code.findIdx? (· == .label t) with
  | none =>
    have := List.findIdx?_eq_none_iff.mp hidx _ hlabel
    simp at this
  | some j =>
    obtain ⟨hj, hjt, -⟩ := List.findIdx?_eq_some_iff_getElem.mp hidx
    simp only [beq_iff_eq] at hjt
    simp only [at?]
    rw [List.getElem?_eq_getElem hj, hjt]

theorem not_mentionedAt_label {t : Anchor} (h : f.at? a = some (.label t)) :
    ¬ f.MentionedAt a v := by
  rintro ⟨i, hi, o, ho, -⟩
  obtain rfl : Inst.label t = i := Option.some.inj (h.symm.trans hi)
  simp [Inst.operands, Inst.dest?, Inst.left?, Inst.right?, Inst.args] at ho

theorem WrittenAt.mentionedAt (h : f.WrittenAt a v) : f.MentionedAt a v := by
  obtain ⟨b, i, hi, hw⟩ := h
  exact ⟨i, hi, hw.writes.mentions⟩

theorem Carries.mentionedAt {i k : Nat} (h : f.Carries p v i k) : f.MentionedAt (p k) v := by
  obtain ⟨b, ⟨j, hj, hr⟩, -⟩ := h.kept
  exact ⟨j, hj, hr.reads.mentions⟩

/-! ### Ranges along a path -/

/-- What reading a listing gives: variables carry their position, ranges are those of the analysis,
and jumps lead to labels. -/
structure Read (f : Function) : Prop where
  indexed : f.Indexed
  ranges : f.ranges = f.vars.map f.rangeOf
  placed : f.JumpsPlaced

namespace Read

variable (hf : f.Read)

include hf

theorem range_eq (hv : v ∈ f.vars) : f.range v = f.rangeOf v := by
  have hget : f.vars[v.index]? = some v := hf.indexed.getElem? hv
  simp [range, hf.indexed.isStatic hv, hf.ranges, hget]

/-- A range with a mention begins before an address exactly when its variable is mentioned above
it. -/
theorem first_lt_iff (hv : v ∈ f.vars) (hm : f.MentionedAt b v) (ha : 1 ≤ a) :
    (f.range v).first < a ↔ f.MentionedAbove v a := by
  obtain ⟨i, hi, him⟩ := hm
  rw [hf.range_eq hv]
  cases hp : v.parameter with
  | some q =>
    rw [first_rangeOf_parameter hp hi him]
    exact ⟨fun _ => .inl (by simp [hp]), fun _ => by omega⟩
  | none =>
    constructor
    · intro hlt
      obtain ⟨c, j, hc, hj, hfirst⟩ := exists_first_rangeOf hp hi him
      exact .inr ⟨c, by omega, j, hc, hj⟩
    · rintro (h | ⟨c, hlt, j, hc, hj⟩)
      · simp [hp] at h
      · have := (covers_rangeOf hc hj).2.1
        omega

theorem covers_of_mentionedAt (hv : v ∈ f.vars) (hm : f.MentionedAt a v) :
    0 ≤ (f.range v).first ∧ (f.range v).Covers a := by
  obtain ⟨i, hi, him⟩ := hm
  rw [hf.range_eq hv]
  exact covers_rangeOf hi him

/-- Control comes back to an address only through a label. -/
theorem at?_of_back (hp : f.Path n p) {m : Nat} (hm : m < n) (hback : p (m + 1) ≤ p m) :
    1 ≤ p (m + 1) ∧ ∃ t, f.at? (p (m + 1)) = some (.label t) := by
  obtain ⟨-, i, t, hi, ht, heq⟩ := mem_loops_of_edge (hp.step m hm) hback
  have hlabel := hf.placed.at?_addressOf hi ht
  rw [← heq] at hlabel
  exact ⟨one_le_of_at? hlabel, t, hlabel⟩

variable {i k : Nat} (hv : v ∈ f.vars) (hc : f.Carries p v i k)

include hv hc

theorem first_le_of_given : (f.range v).first ≤ p i := by
  rcases hc.given with ⟨h₀, hpar⟩ | hw
  · obtain ⟨q, hq⟩ := Option.isSome_iff_exists.mp hpar
    obtain ⟨j, hj, hr⟩ := hc.mentionedAt
    rw [hf.range_eq hv, first_rangeOf_parameter hq hj hr]
    omega
  · exact (hf.covers_of_mentionedAt hv hw.mentionedAt).2.1

variable (hp : f.Path n p) (hk : k ≤ n)

include hp hk

/-- The range has begun before every later step. Control goes forward from where the value is given,
or back to a place above which the variable is mentioned. -/
theorem first_lt_of_carries (hfrom : f.CarriesFromAbove v) :
    ∀ m, i ≤ m → m < k → (f.range v).first < p (m + 1) := by
  have step : ∀ m, i ≤ m → m < k → (f.range v).first ≤ p m → (f.range v).first < p (m + 1) := by
    intro m him hmk hle
    rcases Nat.lt_or_ge (p m) (p (m + 1)) with hfwd | hback
    · omega
    · have habove := hfrom n p hp i k hk hc m him hmk hback
      have hpos := (hf.at?_of_back hp (by omega) hback).1
      exact (hf.first_lt_iff hv hc.mentionedAt hpos).mpr habove
  intro m him
  obtain ⟨d, rfl⟩ := Nat.exists_eq_add_of_le him
  induction d with
  | zero => exact fun hk => step i him hk (hf.first_le_of_given hv hc)
  | succ d ih => exact fun hk => step _ him hk (Int.le_of_lt (ih (by omega) (by omega)))

/-- The range does not end before the value is read. Going back from there, a step forward stays
before the end, and a jump back was made in a loop that the range enters from above. -/
theorem le_last_of_carries (hfrom : f.CarriesFromAbove v) :
    ∀ d, i + d ≤ k → (p (k - d) : Int) ≤ (f.range v).last := by
  obtain ⟨h₀, hcovers⟩ := hf.covers_of_mentionedAt hv hc.mentionedAt
  intro d
  induction d with
  | zero => exact fun _ => hcovers.2
  | succ d ih =>
    intro hd
    obtain ⟨m, hm⟩ : ∃ m, m + 1 = k - d := ⟨k - d - 1, by omega⟩
    have hlast := ih (by omega)
    rw [show k - (d + 1) = m by omega]
    rw [← hm] at hlast
    rcases Nat.lt_or_ge (p m) (p (m + 1)) with hfwd | hback
    · omega
    · have hloop := (mem_loops_of_edge (hp.step m (by omega)) hback).1
      have hfirst := hf.first_lt_of_carries hv hc hp hk hfrom m (by omega) (by omega)
      rw [hf.range_eq hv] at h₀ hfirst hlast ⊢
      exact last_rangeOf_of_loop hloop h₀ hfirst hlast

end Read

/-- **A range has every address along which its variable is carried exactly when the variable is not
carried back above its first mention.** -/
theorem carriesFromAbove_iff_rangeCovers (hf : f.Read) (hv : v ∈ f.vars) :
    f.CarriesFromAbove v ↔ f.RangeCovers v := by
  constructor
  · intro hfrom n p hp i k hk hc m him hmk
    refine ⟨?_, ?_⟩
    · rcases Nat.eq_or_lt_of_le him with rfl | hlt
      · exact hf.first_le_of_given hv hc
      · obtain ⟨m, rfl⟩ : ∃ m', m = m' + 1 := ⟨m - 1, by omega⟩
        exact Int.le_of_lt (hf.first_lt_of_carries hv hc hp hk hfrom m (by omega) (by omega))
    · have := hf.le_last_of_carries hv hc hp hk hfrom (k - m) (by omega)
      rwa [show k - (k - m) = m by omega] at this
  · intro hcover n p hp i k hk hc m him hmk hback
    obtain ⟨hpos, t, hlabel⟩ := hf.at?_of_back hp (by omega) hback
    have hle := (hcover n p hp i k hk hc (m + 1) (by omega) (by omega)).1
    refine (hf.first_lt_iff hv hc.mentionedAt hpos).mp ?_
    -- a label mentions nothing, so the range cannot begin there
    rcases Int.lt_or_eq_of_le hle with hlt | heq
    · exact hlt
    · obtain ⟨i, hi, him⟩ := hc.mentionedAt
      rw [hf.range_eq hv] at heq
      cases hpar : v.parameter with
      | some q =>
        rw [first_rangeOf_parameter hpar hi him] at heq
        omega
      | none =>
        obtain ⟨c, j, hcj, hj, hfirst⟩ := exists_first_rangeOf hpar hi him
        obtain rfl : c = p (m + 1) := by omega
        exact absurd ⟨j, hcj, hj⟩ (not_mentionedAt_label hlabel)

/-! ### Values are not lost -/

/-- The last step before `j` at which a variable gets a value, as far as one byte is concerned. -/
theorem exists_last_given {i j : Nat} (hij : i < j) (hg : f.GivenAt (p i) v) (b : Int) :
    ∃ i', i ≤ i' ∧ i' < j ∧ f.GivenAt (p i') v ∧ ∀ m, i' < m → m < j →
      ¬ f.WritesByteAt (p m) v b := by
  induction hij with
  | refl => exact ⟨i, Nat.le_refl i, by omega, hg, fun m h₁ h₂ => by omega⟩
  | @step j hij ih =>
    by_cases hw : f.WritesByteAt (p j) v b
    · exact ⟨j, by omega, by omega, .inr ⟨b, hw⟩, fun m h₁ h₂ => by omega⟩
    · obtain ⟨i', hle, hlt, hg', hkept⟩ := ih
      refine ⟨i', hle, by omega, hg', fun m h₁ h₂ => ?_⟩
      rcases Nat.lt_or_eq_of_le (Nat.lt_succ_iff.mp h₂) with h | rfl
      · exact hkept m h₁ h
      · exact hw

/-- A path that loses a byte carries it past the write. -/
theorem Overwrites.carries (h : f.Overwrites n p v w) (hne : v ≠ w) :
    ∃ i j k, i < j ∧ j < k ∧ k ≤ n ∧ f.WrittenAt (p j) w ∧ f.Carries p v i k := by
  obtain ⟨i, j, k, b, hij, hjk, hk, hg, hw, hr, hkept⟩ := h
  obtain ⟨i', -, hlt, hg', hkept'⟩ := exists_last_given hij hg b
  refine ⟨i', j, k, hlt, hjk, hk, hw, by omega, hg', b, hr, fun m h₁ h₂ => ?_⟩
  rcases Nat.lt_trichotomy m j with h | rfl | h
  · exact hkept' m h₁ h
  · rintro ⟨a, ha, hav⟩
    obtain ⟨_, a', ha', haw⟩ := hw
    obtain rfl : a = a' := Option.some.inj (ha.symm.trans ha')
    exact hne (hav.writes.eq haw.writes)
  · exact hkept m h h₂

/-- A variable that is counted down in a jump back has a range that began before. -/
theorem Read.first_lt_of_counted (hf : f.Read) (hassigns : f.AssignsBeforeUse)
    (hfrom : f.CarriesFromAbove w) (hp : f.Path n p) {j : Nat} (hj : j < n) (hw : w ∈ f.vars)
    (hwrite : f.WrittenAt (p j) w) (hback : p (j + 1) ≤ p j) : (f.range w).first < p j := by
  obtain ⟨b, i, hi, hiw⟩ := hwrite
  obtain ⟨-, i', t, hi', ht, -⟩ := mem_loops_of_edge (hp.step j hj) hback
  obtain rfl : i = i' := Option.some.inj (hi.symm.trans hi')
  have hread : f.ReadsByteAt (p j) w b := ⟨i, hi, hiw.readsByte_of_target ht⟩
  cases hpar : w.parameter with
  | some q =>
    rw [hf.range_eq hw, first_rangeOf_parameter hpar hi hiw.writes.mentions]
    have := one_le_of_at? hi
    omega
  | none =>
    obtain ⟨m, hmj, hm⟩ := hassigns n p hp j (by omega) w hw hpar ⟨b, hread⟩
    obtain ⟨m', -, hlt, hg, hkept⟩ := exists_last_given hmj (.inr hm) b
    obtain ⟨j', rfl⟩ : ∃ j', j = j' + 1 := ⟨j - 1, by omega⟩
    exact hf.first_lt_of_carries hw ⟨hlt, hg, b, hread, hkept⟩ hp (by omega) hfrom j' (by omega)
      (by omega)

/-- Where a byte is lost, the ranges of the two variables intersect. -/
theorem Overwrites.intersects (hf : f.Read) (hassigns : f.AssignsBeforeUse) (hp : f.Path n p)
    (hv : v ∈ f.vars) (hw : w ∈ f.vars) (hne : v ≠ w) (hfrom : f.CarriesFromAbove v)
    (hfrom' : f.CarriesFromAbove w) (h : f.Overwrites n p v w) :
    (f.range v).intersects (f.range w) = true := by
  obtain ⟨i, j, k, hij, hjk, hk, hwrite, hc⟩ := h.carries hne
  obtain ⟨hv₀, -⟩ := hf.covers_of_mentionedAt hv hc.mentionedAt
  obtain ⟨hw₀, hwfirst, hwlast⟩ := hf.covers_of_mentionedAt hw hwrite.mentionedAt
  have hvfirst : (f.range v).first < p j := by
    obtain ⟨j', rfl⟩ : ∃ j', j = j' + 1 := ⟨j - 1, by omega⟩
    exact hf.first_lt_of_carries hv hc hp hk hfrom j' (by omega) (by omega)
  have hcover := (carriesFromAbove_iff_rangeCovers hf hv).mp hfrom n p hp i k hk hc
  have hvlast := (hcover j (by omega) (by omega)).2
  have hvnext := (hcover (j + 1) (by omega) (by omega)).2
  -- the ranges share the address of the write, and the register could only be handed over there if
  -- the range of `w` began with it
  have htaken : (f.range v).last = p j → (f.range w).first < p j := by
    intro hlast
    exact hf.first_lt_of_counted hassigns hfrom' hp (by omega) hw hwrite (by omega)
  simp only [LiveRange.intersects, LiveRange.handsOver, Bool.and_eq_true, decide_eq_true_eq,
    Bool.or_eq_true, beq_iff_eq, Bool.not_eq_true', Bool.and_eq_false_iff, beq_eq_false_iff_ne,
    decide_eq_false_iff_not]
  omega

/-- The registers of the variables on a machine. -/
def registersOn (f : Function) (m : Arch) : Assignment :=
  f.allocate m.machine (f.signature.arrivals m)

end Function

namespace Listing

theorem read_of_build {l : Listing} {program : Program} {f : Function}
    (hl : l.build = .ok program) (hf : f ∈ program.functions) : f.Read :=
  ⟨indexed_of_build hl hf, ranges_of_build hl hf, jumpsPlaced_of_build hl hf⟩

end Listing

/-- **Sharing loses no byte.** In a function that assigns before it uses, let two variables have
conflicting registers and let neither be carried back above its first mention. Then one is never
written while a byte of the other one is still to be read. This holds on every machine. -/
theorem Function.not_overwrites_of_build {l : Listing} {program : Program} {f : Function}
    (hl : l.build = .ok program) (hf : f ∈ program.functions) (hassigns : f.AssignsBeforeUse)
    (m : Arch) {v w : Variable} (hv : v ∈ f.vars) (hw : w ∈ f.vars) (hne : v ≠ w)
    (hfrom : f.CarriesFromAbove v) (hfrom' : f.CarriesFromAbove w)
    (hclash : Register.clash ((f.registersOn m).get v) ((f.registersOn m).get w) = true)
    {n : Nat} {p : Nat → Nat} (hp : f.Path n p) : ¬ f.Overwrites n p v w := by
  intro hlost
  have hread := Listing.read_of_build hl hf
  have hapart := Function.separates_allocate hread.indexed m.machine (f.signature.arrivals m)
  have hmeet := hlost.intersects hread hassigns hp hv hw hne hfrom hfrom'
  have hfree : Register.clash ((f.registersOn m).get v) ((f.registersOn m).get w) = false :=
    hapart.apart v hv w hw hne hmeet
  rw [hfree] at hclash
  exact Bool.false_ne_true hclash

/-! ### A value carried round a loop -/

namespace Sharing

/-- A byte variable. -/
def byteVariable (index : Nat) (name label : String) (parameter : Option Nat) : Variable :=
  ⟨index, false, name, label, .byte false, parameter⟩

/-- The operand that is a byte variable. -/
def byteOperand (v : Variable) : Operand := .var v 0 (.byte false)

/-- A global byte. -/
def global : Variable := ⟨0, true, "g", "g", .byte false, none⟩

/-- A sum in a loop, after another variable had the register of the sum. -/
def sumListing : Listing where
  globals := [⟨"g", "byte"⟩]
  externs := []
  functions :=
    [{  name := "f"
        params := [⟨"n", "byte"⟩]
        result := "byte"
        vars := [⟨"s", "byte"⟩, ⟨"t", "byte"⟩]
        code :=
          [ { op := "load", dest := "t", left := "1" },
            { op := "load", dest := "g", left := "t" },
            { op := "load", dest := "g", left := "t" },
            { op := "load", dest := "s", left := "0" },
            { label := "loop" },
            { op := "add", dest := "s", left := "s", right := "n" },
            { op := "decjump", dest := "n", target := "loop" },
            { op := "return", left := "s" } ] }]

/-- The number of rounds. -/
def rounds : Variable := byteVariable 0 "n" "f_n" (some 0)

/-- The sum. -/
def total : Variable := byteVariable 1 "s" "f_s" none

/-- The variable before. -/
def scratch : Variable := byteVariable 2 "t" "f_t" none

/-- The function of `sumListing`. -/
def sum : Function where
  name := "f"
  params := [⟨0, "n", .byte false, "f_n"⟩]
  result := .byte false
  vars := [rounds, total, scratch]
  code :=
    [ .load (byteOperand scratch) (.int (.byte false) 1),
      .load (byteOperand global) (byteOperand scratch),
      .load (byteOperand global) (byteOperand scratch),
      .load (byteOperand total) (.int (.byte false) 0),
      .label ⟨"f_loop"⟩,
      .binary .add (byteOperand total) (byteOperand total) (byteOperand rounds),
      .decJump (byteOperand rounds) ⟨"f_loop"⟩,
      .ret (some (byteOperand total)) ]
  ranges := [⟨[6, 7], some (0, 6)⟩, ⟨[4, 6, 8], none⟩, ⟨[1, 2, 3], none⟩]

theorem build_sumListing : sumListing.build = .ok ⟨[global], [], [], [sum]⟩ := by cbv

theorem edges_sum :
    sum.edges = [(0, 1), (1, 2), (2, 3), (3, 4), (4, 5), (5, 6), (6, 7), (7, 8), (7, 5)] := by cbv

theorem clash_sum :
    Register.clash ((sum.registersOn .mos6502).get total) ((sum.registersOn .mos6502).get scratch) =
      true := by cbv

/-- The loop is entered from above, after both variables were assigned. -/
theorem path_sum {n : Nat} {p : Nat → Nat} (hp : sum.Path n p) :
    ∀ k ≤ n, (k ≤ 4 ∧ p k = k) ∨ (5 ≤ k ∧ 5 ≤ p k) := by
  intro k
  induction k with
  | zero => exact fun _ => .inl ⟨by omega, hp.start⟩
  | succ k ih =>
    intro hk
    have hstep := hp.step k (by omega)
    simp only [edges_sum, List.mem_cons, Prod.mk.injEq, List.not_mem_nil, or_false] at hstep
    have := ih (by omega)
    omega

theorem assignsBeforeUse_sum : sum.AssignsBeforeUse := by
  intro n p hp k hk v hv hpar hread
  have hreads : ∀ x ∈ sum.addressed, ∀ v ∈ sum.vars, v.parameter = none → x.2.Reads v →
      (v = scratch ∧ 2 ≤ x.1) ∨ (v = total ∧ 6 ≤ x.1) := by decide
  obtain ⟨_, i, hi, hr⟩ := hread
  have hpath := path_sum hp
  rcases hreads (p k, i) (Function.mem_addressed.mpr hi) v hv hpar hr.reads with ⟨rfl, h⟩ | ⟨rfl, h⟩
  · have hk₁ := hpath k hk
    have h₁ := hpath 1 (by omega)
    refine ⟨1, by omega, ?_⟩
    rw [show p 1 = 1 by omega]
    exact ⟨0, _, rfl, _, rfl, by decide⟩
  · have hk₄ := hpath k hk
    have h₄ := hpath 4 (by omega)
    refine ⟨4, by omega, ?_⟩
    rw [show p 4 = 4 by omega]
    exact ⟨0, _, rfl, _, rfl, by decide⟩

theorem carriesFromAbove_sum {v : Variable} (hv : v ∈ sum.vars) : sum.CarriesFromAbove v := by
  intro n p hp i k hk hc m him hmk hback
  have hstep := hp.step m (by omega)
  simp only [edges_sum, List.mem_cons, Prod.mk.injEq, List.not_mem_nil, or_false] at hstep
  rw [show p (m + 1) = 5 by omega]
  simp only [sum, List.mem_cons, List.not_mem_nil, or_false] at hv
  rcases hv with rfl | rfl | rfl
  · exact .inl rfl
  · exact .inr ⟨4, by omega, _, rfl, byteOperand total, by decide, rfl⟩
  · exact .inr ⟨1, by omega, _, rfl, byteOperand scratch, by decide, rfl⟩

/-- The path that runs the loop twice. -/
def twoRounds (k : Nat) : Nat := [0, 1, 2, 3, 4, 5, 6, 7, 5, 6, 7, 8].getD k 0

theorem path_twoRounds : sum.Path 11 twoRounds := ⟨rfl, by rw [edges_sum]; decide⟩

/-- The sum is in the register of the other variable, and is not lost when the loop is run twice. -/
theorem sum_not_overwritten :
    sumListing.build = .ok ⟨[global], [], [], [sum]⟩ ∧ sum.AssignsBeforeUse ∧
      sum.CarriesFromAbove total ∧ sum.CarriesFromAbove scratch ∧ sum.Path 11 twoRounds ∧
      ¬ sum.Overwrites 11 twoRounds total scratch :=
  have htotal : sum.CarriesFromAbove total := carriesFromAbove_sum (by decide)
  have hscratch : sum.CarriesFromAbove scratch := carriesFromAbove_sum (by decide)
  ⟨build_sumListing, assignsBeforeUse_sum, htotal, hscratch, path_twoRounds,
    Function.not_overwrites_of_build build_sumListing (List.mem_singleton.mpr rfl)
      assignsBeforeUse_sum .mos6502 (by decide) (by decide) (by decide) htotal hscratch clash_sum
      path_twoRounds⟩

/-! ### A value carried back above its variable -/

/-- A function whose second half comes first. It assigns `v`, then uses `w`, and jumps back to
return `v`. -/
def backListing : Listing where
  globals := [⟨"g", "byte"⟩]
  externs := []
  functions :=
    [{  name := "f"
        params := []
        result := "byte"
        vars := [⟨"v", "byte"⟩, ⟨"w", "byte"⟩]
        code :=
          [ { op := "jump", target := "start" },
            { label := "use" },
            { op := "return", left := "v" },
            { label := "start" },
            { op := "load", dest := "v", left := "1" },
            { op := "load", dest := "w", left := "2" },
            { op := "load", dest := "g", left := "w" },
            { op := "load", dest := "g", left := "w" },
            { op := "jump", target := "use" } ] }]

/-- The variable that is returned. -/
def returned : Variable := byteVariable 0 "v" "f_v" none

/-- The variable in between. -/
def between : Variable := byteVariable 1 "w" "f_w" none

/-- The function of `backListing`. -/
def back : Function where
  name := "f"
  params := []
  result := .byte false
  vars := [returned, between]
  code :=
    [ .jump ⟨"f_start"⟩,
      .label ⟨"f_use"⟩,
      .ret (some (byteOperand returned)),
      .label ⟨"f_start"⟩,
      .load (byteOperand returned) (.int (.byte false) 1),
      .load (byteOperand between) (.int (.byte false) 2),
      .load (byteOperand global) (byteOperand between),
      .load (byteOperand global) (byteOperand between),
      .jump ⟨"f_use"⟩ ]
  ranges := [⟨[3, 5], none⟩, ⟨[6, 7, 8], none⟩]

theorem build_backListing : backListing.build = .ok ⟨[global], [], [], [back]⟩ := by cbv

theorem edges_back :
    back.edges = [(0, 1), (1, 4), (2, 3), (4, 5), (5, 6), (6, 7), (7, 8), (8, 9), (9, 2)] := by cbv

/-- The only path through the function. -/
def backPath (k : Nat) : Nat := [0, 1, 4, 5, 6, 7, 8, 9, 2, 3].getD k 0

theorem path_backPath : back.Path 9 backPath := ⟨rfl, by rw [edges_back]; decide⟩

theorem path_back {n : Nat} {p : Nat → Nat} (hp : back.Path n p) :
    ∀ k ≤ n, k < 10 ∧ p k = backPath k := by
  have hnext : ∀ k < 10, ∀ e ∈ back.edges, e.1 = backPath k → k + 1 < 10 ∧
      e.2 = backPath (k + 1) := by
    rw [edges_back]
    decide
  intro k
  induction k with
  | zero => exact fun _ => ⟨by decide, hp.start⟩
  | succ k ih =>
    intro hk
    obtain ⟨hlt, heq⟩ := ih (by omega)
    exact hnext k hlt _ (hp.step k (by omega)) heq

theorem assignsBeforeUse_back : back.AssignsBeforeUse := by
  intro n p hp k hk v hv hpar hread
  have hreads : ∀ x ∈ back.addressed, ∀ v ∈ back.vars, x.2.Reads v →
      (v = returned ∧ x.1 = 3) ∨ (v = between ∧ (x.1 = 7 ∨ x.1 = 8)) := by decide
  have hsteps : ∀ k < 10, (backPath k = 3 → 3 < k) ∧ (backPath k = 7 ∨ backPath k = 8 → 4 < k) := by
    decide
  obtain ⟨_, i, hi, hr⟩ := hread
  obtain ⟨hlt, heq⟩ := path_back hp k hk
  rcases hreads (p k, i) (Function.mem_addressed.mpr hi) v hv hr.reads with ⟨rfl, h⟩ | ⟨rfl, h⟩
  · have h₃ : 3 < k := (hsteps k hlt).1 (heq ▸ h)
    refine ⟨3, h₃, ?_⟩
    rw [(path_back hp 3 (by omega)).2]
    exact ⟨0, _, rfl, _, rfl, by decide⟩
  · have h₄ : 4 < k := (hsteps k hlt).2 (heq ▸ h)
    refine ⟨4, h₄, ?_⟩
    rw [(path_back hp 4 (by omega)).2]
    exact ⟨0, _, rfl, _, rfl, by decide⟩

/-- **A value that is carried back can be lost.** Every variable of the function is assigned before
it is used, yet on each machine the two share a register and the path loses the value to be
returned. -/
theorem returned_after_sharing :
    backListing.build = .ok ⟨[global], [], [], [back]⟩ ∧ back.AssignsBeforeUse ∧
      (∀ m : Arch, Register.clash ((back.registersOn m).get returned)
        ((back.registersOn m).get between) = true) ∧
      back.Path 9 backPath ∧ back.Overwrites 9 backPath returned between := by
  refine ⟨build_backListing, assignsBeforeUse_back, ?_, path_backPath, 3, 4, 9, 0,
    by decide, by decide, by decide, .inr ⟨0, _, rfl, _, rfl, by decide⟩,
    ⟨0, _, rfl, _, rfl, by decide⟩, ⟨_, rfl, .inl ⟨_, .head _, by decide⟩⟩, ?_⟩
  · intro m
    cases m with
    | mos6502 | wdc65816 | i8080 => cbv
  · have hwrites : ∀ x ∈ back.addressed, x.2.Writes returned → x.1 = 5 := by decide
    have hsteps : ∀ m < 9, 4 < m → backPath m ≠ 5 := by decide
    rintro m h₁ h₂ ⟨i, hi, hw⟩
    exact hsteps m h₂ h₁ (hwrites (backPath m, i) (Function.mem_addressed.mpr hi) hw.writes)

end Sharing

end Octet
