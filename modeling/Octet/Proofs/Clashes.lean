import Octet.Proofs.LeastRange

/-!
# The check of an assignment is exact

The check goes through the variables, and from each one through those whose ranges intersect its
own. Intersection is symmetric, so a pair of variables comes up twice, and is reported from the side
of the one declared first. How often something is reported is therefore a sum over the variables in
which all terms but one vanish.

## Main definitions

* `Clash.isWidthOf`, `Clash.isBetween` — what a clash is about
* `Assignment.misfits`, `Function.collides` — a register of the wrong width, and two registers that
  conflict

## Main results

* `Function.mem_clashes_iff` — what is reported
* `Function.countP_isWidthOf_clashes`, `Function.countP_isBetween_clashes` — how often it is
  reported
* `Function.clashes_exact` — nothing is missing, wrong, or reported twice
-/

namespace Octet

namespace Clash

/-- The clash is about the width of the register of a variable. -/
def isWidthOf (v : Variable) : Clash → Bool
  | width _ u _ => u == v
  | registers .. => false

/-- The clash is between two variables, either way round. -/
def isBetween (v w : Variable) : Clash → Bool
  | width .. => false
  | registers _ u _ x _ => (u == v && x == w) || (u == w && x == v)

theorem isBetween_comm (v w : Variable) : isBetween v w = isBetween w v := by
  funext c
  cases c with
  | width => rfl
  | registers => exact Bool.or_comm ..

end Clash

/-- The variable has a register of another width than its own. -/
def Assignment.misfits (a : Assignment) (v : Variable) : Bool :=
  match a.get v with
  | some r => r.width != v.type.byteCount
  | none => false

namespace Function

variable {f : Function} {a : Assignment} {u v w : Variable}

/-- The ranges of two variables intersect, and their registers conflict. -/
def collides (f : Function) (a : Assignment) (v w : Variable) : Bool :=
  (f.range v).intersects (f.range w) && Register.clash (a.get v) (a.get w)

theorem collides_comm (f : Function) (a : Assignment) (v w : Variable) :
    f.collides a v w = f.collides a w v := by
  rw [collides, collides, LiveRange.intersects_comm, Register.clash_comm]

/-! ### What is reported -/

theorem mem_clashesOf_iff {e : Clash} : e ∈ f.clashesOf a v ↔
    (∃ r, a.get v = some r ∧ r.width ≠ v.type.byteCount ∧ e = .width f.name v r) ∨
      ∃ w ∈ f.vars, ∃ r s, a.get v = some r ∧ a.get w = some s ∧ w ≠ v ∧ v.index ≤ w.index ∧
        f.collides a v w = true ∧ e = .registers f.name v r w s := by
  unfold clashesOf
  cases hv : a.get v with
  | none => simp
  | some r =>
    simp only [List.mem_append, List.mem_filterMap, mem_intersections, Option.some.injEq,
      exists_eq_left']
    refine or_congr ?_ (exists_congr fun w => ?_)
    · by_cases hwidth : r.width = v.type.byteCount
      · simp [hwidth]
      · simp [hwidth]
    · cases hw : a.get w with
      | none => simp
      | some s =>
        simp only [collides, hv, hw, Register.clash, Option.some.injEq, Bool.and_eq_true,
          decide_eq_true_eq, Option.ite_none_right_eq_some]
        constructor
        · rintro ⟨⟨hmem, hne, hi⟩, ⟨hle, hc⟩, rfl⟩
          exact ⟨hmem, r, s, rfl, rfl, hne, hle, ⟨hi, hc⟩, rfl⟩
        · rintro ⟨hmem, _, _, rfl, rfl, hne, hle, ⟨hi, hc⟩, rfl⟩
          exact ⟨⟨hmem, hne, hi⟩, ⟨hle, hc⟩, rfl⟩

theorem mem_clashes_iff {e : Clash} : e ∈ f.clashes a ↔
    (∃ v ∈ f.vars, ∃ r, a.get v = some r ∧ r.width ≠ v.type.byteCount ∧ e = .width f.name v r) ∨
      ∃ v ∈ f.vars, ∃ w ∈ f.vars, ∃ r s, a.get v = some r ∧ a.get w = some s ∧ w ≠ v ∧
        v.index ≤ w.index ∧
        f.collides a v w = true ∧ e = .registers f.name v r w s := by
  simp only [clashes, List.mem_flatMap, mem_clashesOf_iff, and_or_left, exists_or]

/-! ### How often it is reported -/

/-- The variable from whose side a clash is reported. -/
theorem subject_of_mem_clashesOf {e : Clash} (h : e ∈ f.clashesOf a v) :
    (∃ r, e = .width f.name v r) ∨ ∃ r w s, e = .registers f.name v r w s := by
  rcases mem_clashesOf_iff.mp h with ⟨r, -, -, rfl⟩ | ⟨w, -, r, s, -, -, -, -, -, rfl⟩
  · exact .inl ⟨r, rfl⟩
  · exact .inr ⟨r, w, s, rfl⟩

theorem nodup_clashesOf (hf : f.Indexed) : (f.clashesOf a v).Nodup := by
  unfold clashesOf
  split
  · exact List.nodup_nil
  refine List.nodup_append.mpr ⟨by split <;> simp, ?_, fun e he e' he' => ?_⟩
  · refine (hf.nodup.filter _).filterMap fun w w' e he he' => ?_
    split at he <;> split at he' <;>
      simp only [Option.mem_def, Option.ite_none_right_eq_some, Option.some.injEq,
        reduceCtorEq] at he he'
    exact (Clash.registers.inj (he.2.trans he'.2.symm)).2.2.2.1
  · obtain ⟨w, -, hw⟩ := List.mem_filterMap.mp he'
    split at he <;> split at hw <;> simp_all
    rw [← hw.2]
    simp

theorem nodup_clashes (hf : f.Indexed) (a : Assignment) : (f.clashes a).Nodup := by
  refine List.nodup_flatMap.mpr ⟨fun v _ => nodup_clashesOf hf,
    hf.nodup.imp fun {v w} hne e hv hw => ?_⟩
  rcases subject_of_mem_clashesOf hv with ⟨r, rfl⟩ | ⟨r, x, s, rfl⟩
  · rcases subject_of_mem_clashesOf hw with ⟨r', he⟩ | ⟨r', x', s', he⟩ <;> simp_all
  · rcases subject_of_mem_clashesOf hw with ⟨r', he⟩ | ⟨r', x', s', he⟩ <;> simp_all

/-- What at most one of the clashes that are reported can be is counted once, if it is reported at
all. -/
theorem countP_clashes (hf : f.Indexed) {p : Clash → Bool} {reported : Bool}
    (hone : ∀ c ∈ f.clashes a, ∀ c' ∈ f.clashes a, p c = true → p c' = true → c' = c)
    (hreported : (∃ c ∈ f.clashes a, p c = true) ↔ reported = true) :
    (f.clashes a).countP p = if reported then 1 else 0 := by
  by_cases h : reported = true
  · obtain ⟨c, hc, hp⟩ := hreported.mpr h
    have hcount : (f.clashes a).countP p = (f.clashes a).count c := by
      refine List.countP_congr fun c' hc' => ⟨fun hp' => ?_, fun he => ?_⟩
      · exact beq_iff_eq.mpr (hone c hc c' hc' hp hp')
      · exact (beq_iff_eq.mp he) ▸ hp
    rw [hcount, (nodup_clashes hf a).count, if_pos hc, if_pos h]
  · rw [if_neg h]
    exact List.countP_eq_zero.mpr fun c hc hp => h (hreported.mp ⟨c, hc, hp⟩)

theorem mem_clashes_and_isWidthOf_iff (hv : v ∈ f.vars) {c : Clash} :
    c ∈ f.clashes a ∧ c.isWidthOf v = true ↔
    ∃ r, a.get v = some r ∧ r.width ≠ v.type.byteCount ∧ c = .width f.name v r := by
  constructor
  · rintro ⟨hc, hp⟩
    rcases mem_clashes_iff.mp hc with ⟨u, -, r, hr, hwidth, rfl⟩ |
      ⟨u, -, w, -, r, s, -, -, -, -, -, rfl⟩
    · obtain rfl : u = v := by simpa [Clash.isWidthOf] using hp
      exact ⟨r, hr, hwidth, rfl⟩
    · simp [Clash.isWidthOf] at hp
  · rintro ⟨r, hr, hwidth, rfl⟩
    exact ⟨mem_clashes_iff.mpr (.inl ⟨v, hv, r, hr, hwidth, rfl⟩), by simp [Clash.isWidthOf]⟩

/-- **A register of the wrong width is reported once.** -/
theorem countP_isWidthOf_clashes (hf : f.Indexed) (hv : v ∈ f.vars) :
    (f.clashes a).countP (Clash.isWidthOf v) = if a.misfits v then 1 else 0 := by
  refine countP_clashes hf (fun c hc c' hc' hp hp' => ?_) ?_
  · obtain ⟨r, hr, -, rfl⟩ := (mem_clashes_and_isWidthOf_iff hv).mp ⟨hc, hp⟩
    obtain ⟨r', hr', -, rfl⟩ := (mem_clashes_and_isWidthOf_iff hv).mp ⟨hc', hp'⟩
    rw [Option.some.inj (hr.symm.trans hr')]
  · simp only [mem_clashes_and_isWidthOf_iff hv, Assignment.misfits]
    cases a.get v with
    | none => simp
    | some r => simp

/-- Two variables are reported from the side of the one declared first. -/
theorem mem_clashes_and_isBetween_iff (hv : v ∈ f.vars) (hw : w ∈ f.vars) (hlt : v.index < w.index)
    {c : Clash} :
    c ∈ f.clashes a ∧ c.isBetween v w = true ↔ ∃ r s, a.get v = some r ∧ a.get w = some s ∧
      f.collides a v w = true ∧ c = .registers f.name v r w s := by
  constructor
  · rintro ⟨hc, hp⟩
    rcases mem_clashes_iff.mp hc with ⟨u, -, r, hr, hwidth, rfl⟩ |
      ⟨u, -, x, -, r, s, hr, hs, -, hle, hcollides, rfl⟩
    · simp [Clash.isBetween] at hp
    · have hpair : u = v ∧ x = w ∨ u = w ∧ x = v := by simpa [Clash.isBetween] using hp
      rcases hpair with ⟨rfl, rfl⟩ | ⟨rfl, rfl⟩
      · exact ⟨r, s, hr, hs, hcollides, rfl⟩
      · exact absurd hlt (Nat.not_lt.mpr hle)
  · rintro ⟨r, s, hr, hs, hcollides, rfl⟩
    have hne : w ≠ v := by
      rintro rfl
      exact Nat.lt_irrefl _ hlt
    exact ⟨mem_clashes_iff.mpr (.inr ⟨v, hv, w, hw, r, s, hr, hs, hne, hlt.le, hcollides, rfl⟩),
      by simp [Clash.isBetween]⟩

/-- **Two variables that collide are reported once**, whichever of them is named first. -/
theorem countP_isBetween_clashes (hf : f.Indexed) (hv : v ∈ f.vars) (hw : w ∈ f.vars)
    (hne : v ≠ w) :
    (f.clashes a).countP (Clash.isBetween v w) = if f.collides a v w then 1 else 0 := by
  wlog hlt : v.index < w.index generalizing v w with hsides
  · rw [Clash.isBetween_comm, collides_comm]
    have hindex := hf.index_ne hv hw hne
    exact hsides hw hv hne.symm (by omega)
  refine countP_clashes hf (fun c hc c' hc' hp hp' => ?_) ?_
  · obtain ⟨r, s, hr, hs, -, rfl⟩ := (mem_clashes_and_isBetween_iff hv hw hlt).mp ⟨hc, hp⟩
    obtain ⟨r', s', hr', hs', -, rfl⟩ := (mem_clashes_and_isBetween_iff hv hw hlt).mp ⟨hc', hp'⟩
    rw [Option.some.inj (hr.symm.trans hr'), Option.some.inj (hs.symm.trans hs')]
  · simp only [mem_clashes_and_isBetween_iff hv hw hlt]
    constructor
    · rintro ⟨c, r, s, -, -, hcollides, -⟩
      exact hcollides
    · intro hcollides
      have hclash : Register.clash (a.get v) (a.get w) = true :=
        (Bool.and_eq_true_iff.mp hcollides).2
      cases hr : a.get v with
      | none => simp [hr] at hclash
      | some r =>
        cases hs : a.get w with
        | none => simp [hr, hs] at hclash
        | some s => exact ⟨_, r, s, rfl, rfl, hcollides, rfl⟩

/-- **The check of an assignment is exact.** Whatever registers the variables of an analyzed
function were given, the check finds nothing exactly if every register has the width of its variable
and no two variables with intersecting ranges hold conflicting registers. What it finds is a
register of the wrong width, reported once for its variable, or two such variables, reported once
for the two of them. -/
theorem clashes_exact (hf : f.Indexed) (a : Assignment) :
    (f.analyzed.clashes a = [] ↔
      (∀ v ∈ f.vars, ∀ r, a.get v = some r → r.width = v.type.byteCount) ∧
        ∀ v ∈ f.vars, ∀ w ∈ f.vars, v ≠ w → (f.rangeOf v).intersects (f.rangeOf w) = true →
          Register.clash (a.get v) (a.get w) = false) ∧
      (∀ v ∈ f.vars, (f.analyzed.clashes a).countP (Clash.isWidthOf v) =
        if ∃ r, a.get v = some r ∧ r.width ≠ v.type.byteCount then 1 else 0) ∧
      (∀ v ∈ f.vars, ∀ w ∈ f.vars, v ≠ w → (f.analyzed.clashes a).countP (Clash.isBetween v w) =
        if (f.rangeOf v).intersects (f.rangeOf w) = true ∧
          Register.clash (a.get v) (a.get w) = true then 1 else 0) ∧
      ∀ e, e ∈ f.analyzed.clashes a ↔
        (∃ v ∈ f.vars, ∃ r, a.get v = some r ∧ r.width ≠ v.type.byteCount ∧ e = .width f.name v r) ∨
          ∃ v ∈ f.vars, ∃ w ∈ f.vars, ∃ r s, a.get v = some r ∧ a.get w = some s ∧
            v.index < w.index ∧
            (f.rangeOf v).intersects (f.rangeOf w) = true ∧ r.conflicts s = true ∧
              e = .registers f.name v r w s := by
  have hrange : ∀ v ∈ f.vars, f.analyzed.range v = f.rangeOf v := fun v hv => range_analyzed hf hv
  have hindexed : f.analyzed.Indexed := hf
  refine ⟨?_, fun v hv => ?_, fun v hv w hw hne => ?_, fun e => ?_⟩
  · rw [clashes_eq_nil_iff]
    refine and_congr Iff.rfl (forall₂_congr fun v hv => forall₂_congr fun w hw => ?_)
    rw [hrange v hv, hrange w hw]
  · rw [countP_isWidthOf_clashes hindexed hv]
    refine if_congr ?_ rfl rfl
    unfold Assignment.misfits
    cases a.get v with
    | none => simp
    | some r => simp
  · rw [countP_isBetween_clashes hindexed hv hw hne, collides, hrange v hv, hrange w hw]
    exact if_congr (Bool.and_eq_true_iff) rfl rfl
  · refine mem_clashes_iff.trans (or_congr Iff.rfl ?_)
    constructor
    · rintro ⟨v, hv, w, hw, r, s, hr, hs, hne, hle, hcollides, he⟩
      rw [collides, hrange v hv, hrange w hw, hr, hs, Bool.and_eq_true] at hcollides
      have hindex := hf.index_ne hw hv hne
      exact ⟨v, hv, w, hw, r, s, hr, hs, by omega, hcollides.1, hcollides.2, he⟩
    · rintro ⟨v, hv, w, hw, r, s, hr, hs, hlt, hi, hconflicts, he⟩
      refine ⟨v, hv, w, hw, r, s, hr, hs, ?_, hlt.le, ?_, he⟩
      · rintro rfl
        exact Nat.lt_irrefl _ hlt
      · rw [collides, hrange v hv, hrange w hw, hr, hs, hi]
        exact hconflicts

end Function

/-- In the loop of `Sharing.sum` the number of rounds is in the accumulator, and the sum in a pair
that contains it. -/
theorem clashes_rounds_in_pair :
    Sharing.sum.Indexed ∧
      (let clashes := Sharing.sum.analyzed.clashes ⟨[some Mos.a, some Mos.ax, none]⟩
      clashes.countP (Clash.isWidthOf Sharing.total) = 1 ∧
        clashes.countP (Clash.isWidthOf Sharing.rounds) = 0 ∧
        clashes.countP (Clash.isBetween Sharing.total Sharing.rounds) = 1 ∧
        clashes.countP (Clash.isBetween Sharing.total Sharing.scratch) = 0) := by
  have hindexed : Sharing.sum.Indexed :=
    Listing.indexed_of_build Sharing.build_sumListing (List.mem_singleton.mpr rfl)
  obtain ⟨-, hwidth, hbetween, -⟩ :=
    Function.clashes_exact hindexed ⟨[some Mos.a, some Mos.ax, none]⟩
  refine ⟨hindexed, ?_, ?_, ?_, ?_⟩
  · exact (hwidth _ (by decide)).trans (if_pos ⟨Mos.ax, rfl, by decide⟩)
  · exact (hwidth _ (by decide)).trans (if_neg (by rintro ⟨r, ⟨⟩, h⟩; exact h rfl))
  · exact (hbetween _ (by decide) _ (by decide) (by decide)).trans (if_pos (by decide))
  · exact (hbetween _ (by decide) _ (by decide) (by decide)).trans (if_neg (by decide))

end Octet
