import Mathlib
import Octet.Liveness

/-!
# Ranges are closed over loops

The analysis widens a range to the end of every loop that it enters from above, and repeats this
once for every loop. This module shows that the repetition is long enough: afterwards no loop widens
the range any more. Each widening leaves fewer loops that end beyond the range, and a round without
widening is the last one.

Widening moves only the end of a range, so the first address of a range is the first mention, or the
entry for a parameter.

## Main definitions

* `LiveRange.Covers` — an address lies in the range

## Main results

* `LiveRange.closed_closed` — no loop widens a range that was closed over all of them
* `Function.covers_rangeOf` — the range of a variable has all its mentions
* `Function.last_rangeOf_of_loop` — it reaches the end of a loop that it enters
-/

namespace Octet

namespace LiveRange

/-- The address lies between the ends of the range. -/
def Covers (r : LiveRange) (address : Nat) : Prop := r.first ≤ address ∧ (address : Int) ≤ r.last

/-! ### Widening -/

variable {r : LiveRange} {l : Loop}

@[simp] theorem usages_extend (lo hi : Int) : (r.extend lo hi).usages = r.usages := by
  unfold extend
  split <;> rfl

theorem first_extend_first (hi : Int) (h : 0 ≤ r.first) :
    (r.extend r.first hi).first = r.first := by
  obtain ⟨usages, extent⟩ := r
  cases extent with
  | none =>
    simp only [first] at h
    simp [extend, first]
  | some e =>
    simp only [extend, first] at h ⊢
    grind

theorem last_extend (lo hi : Int) (h : r.last < hi) : (r.extend lo hi).last = hi := by
  obtain ⟨usages, extent⟩ := r
  cases extent with
  | none =>
    simp only [last] at h
    simp only [extend, last]
    omega
  | some e =>
    simp only [last] at h
    simp only [extend, last]
    omega

/-- The condition on which a loop widens a range. -/
def Enters (r : LiveRange) (l : Loop) : Prop :=
  0 ≤ r.first ∧ r.first < l.head ∧ l.head ≤ r.last ∧ r.last < l.tail

theorem through_of_enters (h : r.Enters l) : r.through l = r.extend r.first l.tail := by
  obtain ⟨h₀, h₁, h₂, h₃⟩ := h
  simp [through, h₀, h₁, h₂, h₃]

theorem through_of_not_enters (h : ¬ r.Enters l) : r.through l = r := by
  unfold through
  split
  · rename_i hc
    simp only [Bool.and_eq_true, decide_eq_true_eq] at hc
    exact absurd ⟨hc.1.1.1, hc.1.1.2, hc.1.2, hc.2⟩ h
  · rfl

/-- Widening leaves the first address alone. -/
@[simp] theorem first_through : (r.through l).first = r.first := by
  by_cases h : r.Enters l
  · rw [through_of_enters h, first_extend_first _ h.1]
  · rw [through_of_not_enters h]

theorem last_through_of_enters (h : r.Enters l) : (r.through l).last = l.tail := by
  rw [through_of_enters h, last_extend _ _ h.2.2.2]

theorem last_le_last_through : r.last ≤ (r.through l).last := by
  by_cases h : r.Enters l
  · rw [last_through_of_enters h]
    exact Int.le_of_lt h.2.2.2
  · exact Int.le_of_eq (congrArg LiveRange.last (through_of_not_enters h)).symm

/-! ### Rounds of widening -/

variable {loops : List Loop}

@[simp] theorem throughAll_cons (l : Loop) (ls : List Loop) :
    r.throughAll (l :: ls) = (r.through l).throughAll ls := rfl

theorem first_throughAll : (r.throughAll loops).first = r.first := by
  induction loops generalizing r with
  | nil => rfl
  | cons l ls ih => rw [throughAll_cons, ih, first_through]

theorem last_le_last_throughAll : r.last ≤ (r.throughAll loops).last := by
  induction loops generalizing r with
  | nil => exact Int.le_refl _
  | cons l ls ih =>
    rw [throughAll_cons]
    exact Int.le_trans last_le_last_through ih

/-- No loop of a list widens the range. -/
def Closed (r : LiveRange) (loops : List Loop) : Prop := ∀ l ∈ loops, ¬ r.Enters l

theorem throughAll_of_closed (h : r.Closed loops) : r.throughAll loops = r := by
  induction loops with
  | nil => rfl
  | cons l ls ih =>
    rw [throughAll_cons, through_of_not_enters (h l (by simp))]
    exact ih fun k hk => h k (by simp [hk])

/-- How many loops end beyond the range. -/
def beyond (r : LiveRange) (loops : List Loop) : Nat := loops.countP fun l => r.last < l.tail

theorem beyond_le_of_last_le {s : LiveRange} (h : r.last ≤ s.last) :
    s.beyond loops ≤ r.beyond loops := by
  refine List.countP_mono_left fun l _ hl => ?_
  simp only [decide_eq_true_eq] at hl ⊢
  omega

theorem beyond_through_lt (hl : l ∈ loops) (h : r.Enters l) :
    (r.through l).beyond loops < r.beyond loops := by
  have hlast := last_through_of_enters h
  have hlt := h.2.2.2
  obtain ⟨before, after, rfl⟩ := List.append_of_mem hl
  have hb : (r.through l).beyond before ≤ r.beyond before :=
    beyond_le_of_last_le last_le_last_through
  have ha : (r.through l).beyond after ≤ r.beyond after :=
    beyond_le_of_last_le last_le_last_through
  simp only [beyond, List.countP_append, List.countP_cons, hlast, Int.lt_irrefl, hlt] at hb ha ⊢
  simp only [decide_true, decide_false, if_true]
  simp
  omega

/-- A round widens for some loop, or none of its loops can. -/
theorem beyond_throughAll_lt {ls : List Loop} (hls : ∀ l ∈ ls, l ∈ loops) (h : ¬ r.Closed ls) :
    (r.throughAll ls).beyond loops < r.beyond loops := by
  induction ls generalizing r with
  | nil => exact absurd (fun l hl => by simp at hl) h
  | cons l ls ih =>
    rw [throughAll_cons]
    by_cases he : r.Enters l
    · exact Nat.lt_of_le_of_lt (beyond_le_of_last_le last_le_last_throughAll)
        (beyond_through_lt (hls l (by simp)) he)
    · rw [through_of_not_enters he]
      refine ih (fun k hk => hls k (by simp [hk])) fun hc => h ?_
      intro k hk
      rcases List.mem_cons.mp hk with rfl | hk
      · exact he
      · exact hc k hk

/-- As many rounds as loops end beyond the range are enough. -/
theorem closed_of_rounds (rounds : List Loop) (h : r.beyond loops ≤ rounds.length) :
    (rounds.foldl (fun r _ => r.throughAll loops) r).Closed loops := by
  induction rounds generalizing r with
  | nil =>
    intro l hl he
    have hnone : r.beyond loops = 0 := Nat.le_zero.mp h
    have := List.countP_eq_zero.mp hnone l hl
    simp only [decide_eq_true_eq] at this
    exact this he.2.2.2
  | cons k ks ih =>
    rw [List.foldl_cons]
    by_cases hc : r.Closed loops
    · rw [throughAll_of_closed hc]
      clear ih h
      induction ks with
      | nil => exact hc
      | cons _ ks ih => rw [List.foldl_cons, throughAll_of_closed hc]; exact ih
    · have := beyond_throughAll_lt (fun l hl => hl) hc
      exact ih (by simp only [List.length_cons] at h; omega)

/-- **No loop widens a range that was closed over all of them.** -/
theorem closed_closed : (r.closed loops).Closed loops :=
  closed_of_rounds loops (List.countP_le_length ..)

theorem first_closed : (r.closed loops).first = r.first := by
  have rounds : ∀ ks : List Loop,
      (ks.foldl (fun r _ => r.throughAll loops) r).first = r.first := by
    intro ks
    induction ks generalizing r with
    | nil => rfl
    | cons _ ks ih => rw [List.foldl_cons, ih, first_throughAll]
  exact rounds loops

theorem last_le_last_closed : r.last ≤ (r.closed loops).last := by
  have rounds : ∀ ks : List Loop,
      r.last ≤ (ks.foldl (fun r _ => r.throughAll loops) r).last := by
    intro ks
    induction ks generalizing r with
    | nil => exact Int.le_refl _
    | cons _ ks ih => rw [List.foldl_cons]; exact Int.le_trans last_le_last_throughAll ih
  exact rounds loops

end LiveRange

/-! ### The range of a variable -/

/-- The instruction mentions the variable. -/
def Inst.Mentions (i : Inst) (v : Variable) : Prop := ∃ o ∈ i.operands, o.mentioned? = some v

namespace Function

variable {f : Function} {v : Variable} {i : Inst} {n : Nat}

theorem mem_addressed {a : Nat × Inst} : a ∈ f.addressed ↔ f.at? a.1 = some a.2 := by
  obtain ⟨n, i⟩ := a
  simp only [addressed, List.mem_map, Prod.exists, Prod.mk.injEq]
  constructor
  · rintro ⟨j, k, h, rfl, rfl⟩
    exact List.mem_zipIdx_iff_getElem?.mp h
  · intro h
    cases n with
    | zero => simp [at?] at h
    | succ n => exact ⟨i, n, List.mem_zipIdx_iff_getElem?.mpr h, rfl, rfl⟩

theorem mem_usages {a : Int} :
    a ∈ f.usages v ↔ ∃ n i, f.at? n = some i ∧ i.Mentions v ∧ a = n := by
  simp only [usages, List.mem_filterMap, mem_addressed, Prod.exists]
  constructor
  · rintro ⟨n, i, h, ha⟩
    split at ha
    · rename_i hany
      simp only [List.any_eq_true, beq_iff_eq] at hany
      exact ⟨n, i, h, hany, (Option.some.inj ha).symm⟩
    · simp at ha
  · rintro ⟨n, i, h, hm, rfl⟩
    obtain ⟨o, ho, hov⟩ := hm
    exact ⟨n, i, h, if_pos (List.any_eq_true.mpr ⟨o, ho, by simp [hov]⟩)⟩

/-- Mentions are listed in ascending order. -/
theorem pairwise_usages : (f.usages v).Pairwise (· < ·) := by
  have hz : f.code.zipIdx.Pairwise (fun a b => a.2 < b.2) := by
    rw [List.pairwise_iff_getElem]
    intro i j hi hj hij
    simpa using hij
  refine List.Pairwise.filterMap _ (R := fun a b => a.1 < b.1) ?_ (List.pairwise_map.mpr ?_)
  · rintro ⟨m, i⟩ ⟨n, j⟩ h a ha b hb
    dsimp only at ha hb h
    split at ha
    · split at hb
      · cases ha
        cases hb
        omega
      · simp at hb
    · simp at ha
  · exact hz.imp fun h => by dsimp only; omega

/-- The jumps back are the jumps whose label does not stand after them. -/
theorem mem_loops {l : Loop} :
    l ∈ f.loops ↔ ∃ n i t, f.at? n = some i ∧ i.target? = some t ∧ f.addressOf t ≤ n ∧
      l = ⟨f.addressOf t, n⟩ := by
  simp only [loops, List.mem_filterMap, mem_addressed, Prod.exists]
  constructor
  · rintro ⟨n, i, h, hl⟩
    split at hl
    · rename_i t ht
      split at hl
      · rename_i hle
        exact ⟨n, i, t, h, ht, hle, (Option.some.inj hl).symm⟩
      · simp at hl
    · simp at hl
  · rintro ⟨n, i, t, h, ht, hle, rfl⟩
    exact ⟨n, i, h, by simp [ht, hle]⟩

theorem mem_code_of_at? (h : f.at? n = some i) : i ∈ f.code := by
  cases n with
  | zero => simp [at?] at h
  | succ n => exact List.mem_of_getElem? h

theorem one_le_of_at? (h : f.at? n = some i) : 1 ≤ n := by
  cases n with
  | zero => simp [at?] at h
  | succ n => omega

/-- What a range is before it is closed over loops. -/
def mentionRange (f : Function) (v : Variable) : LiveRange :=
  match v.parameter, f.usages v with
  | some _, u :: us => LiveRange.extend ⟨u :: us, none⟩ 0 u
  | _, us => ⟨us, none⟩

theorem rangeOf_eq : f.rangeOf v = (f.mentionRange v).closed f.loops := by
  unfold rangeOf mentionRange
  cases v.parameter with
  | none => rfl
  | some p =>
    cases f.usages v with
    | nil => rfl
    | cons u us => rfl

theorem covers_mentionRange {a : Int} (h : a ∈ f.usages v) :
    0 ≤ (f.mentionRange v).first ∧ (f.mentionRange v).first ≤ a ∧ a ≤ (f.mentionRange v).last := by
  have hpos : ∀ b ∈ f.usages v, 1 ≤ b := by
    intro b hb
    obtain ⟨n, i, hn, -, rfl⟩ := mem_usages.mp hb
    have := one_le_of_at? hn
    omega
  have hsorted := f.pairwise_usages (v := v)
  have hhead : (f.usages v).headD (-1) ≤ a ∧ 1 ≤ (f.usages v).headD (-1) := by
    cases hu : f.usages v with
    | nil => simp [hu] at h
    | cons u us =>
      rw [hu] at h hsorted
      refine ⟨?_, hpos u (by simp [hu])⟩
      rcases List.mem_cons.mp h with rfl | h
      · exact Int.le_refl _
      · exact Int.le_of_lt ((List.pairwise_cons.mp hsorted).1 a h)
  have hlast : a ≤ (f.usages v).getLastD (-1) := by
    obtain ⟨before, after, hu⟩ := List.append_of_mem h
    rw [hu] at hsorted ⊢
    cases hafter : after.getLast? with
    | none =>
      rw [List.getLast?_eq_none_iff] at hafter
      simp [hafter]
    | some b =>
      have hb : b ∈ after := List.mem_of_getLast? hafter
      have hab : a < b := (List.pairwise_cons.mp (List.pairwise_append.mp hsorted).2.1).1 b hb
      rw [List.getLastD_eq_getLast?, List.getLast?_append, List.getLast?_cons, hafter]
      simpa using Int.le_of_lt hab
  unfold mentionRange
  split
  · rename_i p u us hp hu
    rw [hu] at hhead hlast
    simp only [List.headD_cons] at hhead
    have hu₀ : 0 < u := by omega
    simp only [LiveRange.extend, LiveRange.first, LiveRange.last, List.headD_cons, hu₀, decide_true,
      Bool.or_true, if_true]
    omega
  · exact ⟨by simp only [LiveRange.first]; omega, hhead.1, hlast⟩

/-- The range of a variable has all its mentions. -/
theorem covers_rangeOf (h : f.at? n = some i) (hm : i.Mentions v) :
    0 ≤ (f.rangeOf v).first ∧ (f.rangeOf v).Covers n := by
  have hu : (n : Int) ∈ f.usages v := mem_usages.mpr ⟨n, i, h, hm, rfl⟩
  obtain ⟨h₀, h₁, h₂⟩ := covers_mentionRange hu
  rw [rangeOf_eq, LiveRange.Covers, LiveRange.first_closed]
  exact ⟨h₀, h₁, Int.le_trans h₂ LiveRange.last_le_last_closed⟩

theorem exists_usages (h : f.at? n = some i) (hm : i.Mentions v) :
    ∃ k j us, f.at? k = some j ∧ j.Mentions v ∧ f.usages v = (k : Int) :: us := by
  have hu : (n : Int) ∈ f.usages v := mem_usages.mpr ⟨n, i, h, hm, rfl⟩
  obtain ⟨u, us, hus⟩ := List.exists_cons_of_ne_nil (List.ne_nil_of_mem hu)
  obtain ⟨k, j, hk, hj, rfl⟩ := mem_usages.mp (show u ∈ f.usages v by simp [hus])
  exact ⟨k, j, us, hk, hj, hus⟩

/-- The range of a parameter that is mentioned starts at the entry. -/
theorem first_rangeOf_parameter {p : Nat} (hp : v.parameter = some p) (h : f.at? n = some i)
    (hm : i.Mentions v) : (f.rangeOf v).first = 0 := by
  obtain ⟨k, j, us, hk, -, hus⟩ := exists_usages h hm
  have hk₀ : (0 : Int) < k := by have := one_le_of_at? hk; omega
  rw [rangeOf_eq, LiveRange.first_closed, mentionRange, hus]
  simp only [hp, LiveRange.extend, LiveRange.first, List.headD_cons, hk₀, decide_true,
    Bool.or_true, if_true]

/-- Any other range that has a mention starts at one. -/
theorem exists_first_rangeOf (hp : v.parameter = none) (h : f.at? n = some i) (hm : i.Mentions v) :
    ∃ m j, f.at? m = some j ∧ j.Mentions v ∧ (f.rangeOf v).first = m := by
  obtain ⟨k, j, us, hk, hj, hus⟩ := exists_usages h hm
  rw [rangeOf_eq, LiveRange.first_closed, mentionRange, hus]
  exact ⟨k, j, hk, hj, by simp [hp, LiveRange.first]⟩

/-- Only a variable that is mentioned has a range. -/
theorem exists_mention_of_first (h : 0 ≤ (f.rangeOf v).first) :
    ∃ n i, f.at? n = some i ∧ i.Mentions v := by
  rw [rangeOf_eq, LiveRange.first_closed, mentionRange] at h
  cases hus : f.usages v with
  | nil =>
    rw [hus] at h
    cases v.parameter <;> simp [LiveRange.first] at h
  | cons u us =>
    obtain ⟨n, i, hi, hv, -⟩ := mem_usages.mp (show u ∈ f.usages v by simp [hus])
    exact ⟨n, i, hi, hv⟩

/-- **A range reaches the end of every loop that it enters from above.** -/
theorem last_rangeOf_of_loop {l : Loop} (hl : l ∈ f.loops) (h₀ : 0 ≤ (f.rangeOf v).first)
    (hfirst : (f.rangeOf v).first < l.head) (hhead : l.head ≤ (f.rangeOf v).last) :
    l.tail ≤ (f.rangeOf v).last := by
  have hclosed : (f.rangeOf v).Closed f.loops := rangeOf_eq ▸ LiveRange.closed_closed
  have := hclosed l hl
  unfold LiveRange.Enters at this
  omega

end Function

end Octet
