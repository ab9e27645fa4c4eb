import Mathlib
import Octet.Allocation

/-!
# What an allocation keeps apart

Registers are handed out one at a time, so what holds of the final assignment is what a single offer
preserves. The invariant is `Function.Separates`: registers fit the variables that hold them,
variables whose ranges intersect hold no conflicting registers, and nothing is handed to a variable
that is never mentioned. A register that is handed out keeps it because it was legal; the three
passes hand out registers one after another.

Nothing here depends on the machine. What it offers and what it allows only restricts the choice.

## Main definitions

* `Function.Indexed` — variables carry their position, which is how an assignment finds their
  register
* `Function.Separates` — the invariant of the allocation
* `Function.Gives` — what holds when a register is handed out

## Main results

* `Register.conflicts_comm`, `LiveRange.intersects_comm` — both sides of the invariant are symmetric
* `Function.Separates.set` — a legal register keeps the invariant
* `Function.allocate_induction` — what every register that is handed out keeps holds of the
  allocation
* `Function.exists_gives` — every register of the allocation was handed out
* `Function.separates_allocate` — the allocation establishes it
-/

namespace Octet

/-! ### Conflicts and overlaps are symmetric -/

namespace Register

theorem contains_iff {r o : Register} : r.contains o = true ↔ r = o ∨ o ∈ r.parts := by
  simp [contains]

theorem conflicts_iff {r o : Register} :
    r.conflicts o = true ↔ r = o ∨ o ∈ r.parts ∨ r ∈ o.parts ∨ ∃ u ∈ r.parts, u ∈ o.parts := by
  simp only [conflicts, Bool.or_eq_true, List.any_eq_true, contains_iff]
  constructor
  · rintro (((h | h) | h | h) | ⟨u, hu, rfl | h⟩)
    · exact .inl h
    · exact .inr (.inl h)
    · exact .inl h.symm
    · exact .inr (.inr (.inl h))
    · exact .inr (.inl hu)
    · exact .inr (.inr (.inr ⟨u, hu, h⟩))
  · rintro (h | h | h | ⟨u, hu, h⟩)
    · exact .inl (.inl (.inl h))
    · exact .inl (.inl (.inr h))
    · exact .inl (.inr (.inr h))
    · exact .inr ⟨u, hu, .inr h⟩

theorem conflicts_comm (r o : Register) : r.conflicts o = o.conflicts r := by
  have hsymm : ∀ {r o : Register}, r.conflicts o = true → o.conflicts r = true := by
    intro r o h
    rcases conflicts_iff.mp h with h | h | h | ⟨u, hu, h⟩ <;> rw [conflicts_iff]
    · exact .inl h.symm
    · exact .inr (.inr (.inl h))
    · exact .inr (.inl h)
    · exact .inr (.inr (.inr ⟨u, h, hu⟩))
  exact Bool.eq_iff_iff.mpr ⟨hsymm, hsymm⟩

@[simp] theorem conflicts_self (r : Register) : r.conflicts r = true :=
  conflicts_iff.mpr (.inl rfl)

@[simp] theorem clash_none_left (o : Option Register) : clash none o = false := rfl

@[simp] theorem clash_none_right (r : Option Register) : clash r none = false := by
  cases r <;> rfl

@[simp] theorem clash_some (r o : Register) : clash (some r) (some o) = r.conflicts o := rfl

theorem clash_comm (r o : Option Register) : clash r o = clash o r := by
  cases r with
  | none => simp
  | some r =>
    cases o with
    | none => simp
    | some o => exact conflicts_comm r o

end Register

namespace RegisterSet

variable {s : RegisterSet} {r o : Register} {rs : List Register}

theorem mem_insert : o ∈ (s.insert r).members ↔ o ∈ s.members ∨ o = r := by
  unfold insert
  split
  · rename_i h
    have hmem : r ∈ s.members := by simpa [contains] using h
    exact ⟨.inl, fun ho => ho.elim id (· ▸ hmem)⟩
  · simp

theorem mem_ofList : o ∈ (ofList rs).members ↔ o ∈ rs := by
  have fold : ∀ (rs : List Register) (s : RegisterSet), o ∈ (rs.foldl insert s).members ↔
      o ∈ s.members ∨ o ∈ rs := by
    intro rs
    induction rs with
    | nil => simp
    | cons r rs ih =>
      intro s
      rw [List.foldl_cons, ih, mem_insert, List.mem_cons, or_assoc]
  rw [ofList, fold]
  simp [empty]

theorem conflicts_of_not_conflictsWith (h : s.conflictsWith r = false) (ho : o ∈ s.members) :
    o.conflicts r = false := by
  simp only [conflictsWith, List.any_eq_false] at h
  exact Bool.eq_false_iff.mpr (h o ho)

end RegisterSet

theorem LiveRange.intersects_comm (r s : LiveRange) : r.intersects s = s.intersects r := by
  simp only [LiveRange.intersects, Int.max_comm s.first, Int.min_comm s.last,
    Bool.and_comm (decide (0 ≤ s.first)), Bool.and_right_comm _ (!s.handsOver r)]

/-! ### Assignments -/

/-- The variables of a list are local and carry their position. -/
def Positioned (vs : List Variable) : Prop :=
  ∀ (i : Nat) (v : Variable), vs[i]? = some v → v.index = i ∧ v.isStatic = false

/-- Every variable of the function is local and carries its position. -/
def Function.Indexed (f : Function) : Prop := Positioned f.vars

namespace Function.Indexed

variable {f : Function} {v w : Variable}

theorem getElem? (h : f.Indexed) (hv : v ∈ f.vars) : f.vars[v.index]? = some v := by
  obtain ⟨i, hi⟩ := List.mem_iff_getElem?.mp hv
  rw [(h i v hi).1]
  exact hi

theorem isStatic (h : f.Indexed) (hv : v ∈ f.vars) : v.isStatic = false :=
  (h _ _ (h.getElem? hv)).2

theorem index_lt (h : f.Indexed) (hv : v ∈ f.vars) : v.index < f.vars.length :=
  (List.getElem?_eq_some_iff.mp (h.getElem? hv)).1

/-- The position tells variables apart. -/
theorem index_ne (h : f.Indexed) (hv : v ∈ f.vars) (hw : w ∈ f.vars) (hne : v ≠ w) :
    v.index ≠ w.index := by
  intro he
  have hvw : some v = some w := by rw [← h.getElem? hv, ← h.getElem? hw, he]
  exact hne (Option.some.inj hvw)

end Function.Indexed

namespace Assignment

variable {f : Function} {a : Assignment} {v w : Variable} {r : Register}

theorem get_empty (hf : f.Indexed) (hv : v ∈ f.vars) : (empty f).get v = none := by
  simp [get, empty, hf.isStatic hv]

theorem get_set_self (hf : f.Indexed) (hv : v ∈ f.vars) (hl : a.registers.length = f.vars.length) :
    (a.set v r).get v = some r := by
  have hlt : v.index < a.registers.length := hl ▸ hf.index_lt hv
  simp [get, set, hf.isStatic hv, hlt]

theorem get_set_of_ne (hf : f.Indexed) (hv : v ∈ f.vars) (hw : w ∈ f.vars) (hne : w ≠ v) :
    (a.set v r).get w = a.get w := by
  simp [get, set, List.getElem?_set_ne (hf.index_ne hv hw (Ne.symm hne))]

end Assignment

/-! ### The invariant -/

namespace Function

/-- **What the allocation keeps.** -/
structure Separates (f : Function) (a : Assignment) : Prop where
  /-- There is one entry for each variable. -/
  length_eq : a.registers.length = f.vars.length
  /-- A register has the width of its variable. -/
  width : ∀ v ∈ f.vars, ∀ r, a.get v = some r → r.width = v.type.byteCount
  /-- Only variables in use hold registers. -/
  used : ∀ v ∈ f.vars, ∀ r, a.get v = some r → 0 ≤ (f.range v).first
  /-- Variables whose ranges intersect are in registers that do not conflict. -/
  apart : ∀ v ∈ f.vars, ∀ w ∈ f.vars, v ≠ w → (f.range v).intersects (f.range w) = true →
    Register.clash (a.get v) (a.get w) = false

theorem separates_empty {f : Function} (hf : f.Indexed) : f.Separates (.empty f) where
  length_eq := by simp [Assignment.empty]
  width v hv r h := by simp [Assignment.get_empty hf hv] at h
  used v hv r h := by simp [Assignment.get_empty hf hv] at h
  apart v hv w _ _ _ := by simp [Assignment.get_empty hf hv]

variable {f : Function} {m : Machine} {a : Assignment} {v w : Variable} {r : Register}

theorem width_of_legal (h : f.legal m a v r = true) : r.width = v.type.byteCount := by
  simp only [legal, Bool.and_eq_true, beq_iff_eq] at h
  exact h.1.1

/-- A legal register conflicts with none of an intersecting variable. -/
theorem clash_of_legal (h : f.legal m a v r = true) (hw : w ∈ f.vars) (hne : w ≠ v)
    (hi : (f.range v).intersects (f.range w) = true) :
    Register.clash (a.get w) (some r) = false := by
  simp only [legal, Bool.and_eq_true] at h
  have hmem : w ∈ f.intersections v := by simp [intersections, hw, hne, hi]
  simpa using List.all_eq_true.mp h.1.2 w hmem

theorem Separates.set (hs : f.Separates a) (hf : f.Indexed) (hv : v ∈ f.vars)
    (hu : 0 ≤ (f.range v).first) (h : f.legal m a v r = true) : f.Separates (a.set v r) where
  length_eq := by simpa [Assignment.set] using hs.length_eq
  width w hw s hget := by
    by_cases hwv : w = v
    · subst hwv
      rw [Assignment.get_set_self hf hv hs.length_eq] at hget
      exact Option.some.inj hget ▸ width_of_legal h
    · rw [Assignment.get_set_of_ne hf hv hw hwv] at hget
      exact hs.width w hw s hget
  used w hw s hget := by
    by_cases hwv : w = v
    · exact hwv ▸ hu
    · rw [Assignment.get_set_of_ne hf hv hw hwv] at hget
      exact hs.used w hw s hget
  apart x hx y hy hne hi := by
    -- Only pairs with `v` are new; legality speaks about `v` on the right.
    by_cases hxv : x = v
    · subst hxv
      rw [Assignment.get_set_self hf hv hs.length_eq, Assignment.get_set_of_ne hf hv hy hne.symm,
        Register.clash_comm]
      exact clash_of_legal h hy hne.symm hi
    · rw [Assignment.get_set_of_ne hf hv hx hxv]
      by_cases hyv : y = v
      · subst hyv
        rw [Assignment.get_set_self hf hv hs.length_eq]
        exact clash_of_legal h hx hxv (by rw [LiveRange.intersects_comm]; exact hi)
      · rw [Assignment.get_set_of_ne hf hv hy hyv]
        exact hs.apart x hx y hy hne hi

/-! ### The three passes

A property of assignments that holds at the start and survives every register that is handed out
holds of the allocation. `Gives` collects what is known when a register is handed out. -/

/-- A parameter keeps the register in which it arrives, unless it points to an aggregate, or takes
one in which none arrives. -/
def Settles (arrivals : List (Option Register)) (v : Variable) (r : Register) : Prop :=
  ∀ i, v.parameter = some i → arrivals[i]? = some (some r) ∧ v.type.isAggregatePointer = false ∨
    ∀ o, some o ∈ arrivals → r.conflicts o = false

/-- What holds when the allocation gives a register to a variable. -/
structure Gives (f : Function) (m : Machine) (arrivals : List (Option Register)) (a : Assignment)
    (v : Variable) (r : Register) : Prop where
  mem : v ∈ f.vars
  used : 0 ≤ (f.range v).first
  legal : f.legal m a v r = true
  offered : (∃ once, r ∈ m.pool v.type once) ∨ some r ∈ arrivals
  settles : Settles arrivals v r

section Passes

variable {arrivals : List (Option Register)} {P : Assignment → Prop}
  (hset : ∀ {a v r}, P a → f.Gives m arrivals a v r → P (a.set v r))

include hset

theorem offer_induction (ha : P a) (hv : v ∈ f.vars) (hu : 0 ≤ (f.range v).first)
    {candidates : List Register} (hpool : ∀ r ∈ candidates, ∃ once, r ∈ m.pool v.type once)
    (hsettles : ∀ r ∈ candidates, Settles arrivals v r) : P (f.offer m a v candidates) := by
  unfold Function.offer
  split
  · rename_i r hr
    have hmem := List.mem_of_find?_eq_some hr
    exact hset ha ⟨hv, hu, List.find?_some hr, .inl (hpool r hmem), hsettles r hmem⟩
  · exact ha

theorem foldl_offer_induction (once : Bool) :
    ∀ (vs : List Variable) {a : Assignment}, P a →
      (∀ v ∈ vs, v ∈ f.vars ∧ 0 ≤ (f.range v).first ∧ v.parameter = none) →
      P (vs.foldl (fun a v => f.offer m a v (m.pool v.type once)) a) := by
  intro vs
  induction vs with
  | nil => intro a ha _; exact ha
  | cons v vs ih =>
    intro a ha hvs
    obtain ⟨hv, hu, hlocal⟩ := hvs v (by simp)
    have hsettles : ∀ r ∈ m.pool v.type once, Settles arrivals v r := by simp [Settles, hlocal]
    exact ih (offer_induction hset ha hv hu (fun r hr => ⟨once, hr⟩) hsettles) fun w hw =>
      hvs w (by simp [hw])

omit hset in
theorem first_of_waits (h : f.waits a v = true) : 0 ≤ (f.range v).first ∧ v.parameter = none := by
  simp only [waits, Bool.and_eq_true, decide_eq_true_eq, Option.isNone_iff_eq_none] at h
  exact ⟨h.2, h.1.1.2⟩

theorem shortPass_induction (ha : P a) : P (f.shortPass m a) := by
  refine foldl_offer_induction hset true _ ha fun v hv => ?_
  simp only [List.mem_mergeSort, List.mem_filter, Bool.and_eq_true] at hv
  exact ⟨hv.1, first_of_waits hv.2.1⟩

theorem generalPass_induction (ha : P a) : P (f.generalPass m a) := by
  refine foldl_offer_induction hset false _ ha fun v hv => ?_
  simp only [List.mem_mergeSort, List.mem_filter] at hv
  exact ⟨hv.1, first_of_waits hv.2⟩

theorem settleParameter_induction (ha : P a) (hv : v ∈ f.vars) :
    P (f.settleParameter m arrivals a v) := by
  unfold Function.settleParameter
  split
  · exact ha
  · rename_i p hparameter
    split
    · exact ha
    · rename_i h
      have hu : 0 ≤ (f.range v).first := by
        simp only [Bool.or_eq_true, decide_eq_true_eq, not_or] at h
        omega
      dsimp only
      split
      · rename_i r hr
        obtain ⟨harrives, hkept⟩ := Option.filter_eq_some_iff.mp hr
        simp only [Bool.and_eq_true] at hkept
        rw [List.getD_eq_getElem?_getD] at harrives
        have hp : arrivals[p]? = some (some r) := by
          cases hp : arrivals[p]? with
          | none => simp [hp] at harrives
          | some o => rw [← harrives, hp, Option.getD_some]
        refine hset ha ⟨hv, hu, hkept.2, .inr (List.mem_of_getElem? hp), fun i hi =>
          .inl ⟨?_, by simpa using hkept.1⟩⟩
        rw [← Option.some.inj (hparameter.symm.trans hi), hp]
      · refine offer_induction hset ha hv hu (fun r hr => ⟨false, (List.mem_filter.mp hr).1⟩)
          fun r hr i _ => .inr ?_
        intro o ho
        have hfree : (RegisterSet.ofList (arrivals.filterMap id)).conflictsWith r = false := by
          simpa using (List.mem_filter.mp hr).2
        rw [Register.conflicts_comm]
        exact RegisterSet.conflicts_of_not_conflictsWith hfree
          (RegisterSet.mem_ofList.mpr (by simpa using ho))

theorem parameterPass_induction (ha : P a) : P (f.parameterPass m arrivals a) := by
  have fold : ∀ (vs : List Variable) {a : Assignment}, P a → (∀ v ∈ vs, v ∈ f.vars) →
      P (vs.foldl (f.settleParameter m arrivals) a) := by
    intro vs
    induction vs with
    | nil => intro a ha _; exact ha
    | cons v vs ih =>
      intro a ha hvs
      exact ih (settleParameter_induction hset ha (hvs v (by simp))) fun w hw =>
        hvs w (by simp [hw])
  exact fold f.vars ha fun _ hv => hv

/-- **Induction along the allocation.** -/
theorem allocate_induction (hempty : P (.empty f)) : P (f.allocate m arrivals) :=
  parameterPass_induction hset (generalPass_induction hset (shortPass_induction hset hempty))

end Passes

/-- **The allocation keeps intersecting variables apart**, on every machine and for every way in
which parameters arrive. -/
theorem separates_allocate (hf : f.Indexed) (m : Machine) (arrivals : List (Option Register)) :
    f.Separates (f.allocate m arrivals) :=
  allocate_induction (fun hs hg => hs.set hf hg.mem hg.used hg.legal) (separates_empty hf)

/-- **Every register of the allocation was handed out** to the variable that holds it. -/
theorem exists_gives (hf : f.Indexed) {arrivals : List (Option Register)} (hv : v ∈ f.vars)
    (hr : (f.allocate m arrivals).get v = some r) : ∃ a, f.Gives m arrivals a v r := by
  have hall : f.Separates (f.allocate m arrivals) ∧ ∀ w ∈ f.vars, ∀ q,
      (f.allocate m arrivals).get w = some q → ∃ a, f.Gives m arrivals a w q := by
    refine allocate_induction (P := fun a => f.Separates a ∧ ∀ w ∈ f.vars, ∀ q, a.get w = some q →
      ∃ a, f.Gives m arrivals a w q) ?_ ⟨separates_empty hf, fun w hw q hq => ?_⟩
    · rintro a v r ⟨hs, ha⟩ hg
      refine ⟨hs.set hf hg.mem hg.used hg.legal, fun w hw q hq => ?_⟩
      by_cases hwv : w = v
      · subst hwv
        rw [Assignment.get_set_self hf hg.mem hs.length_eq] at hq
        exact ⟨a, Option.some.inj hq ▸ hg⟩
      · rw [Assignment.get_set_of_ne hf hg.mem hw hwv] at hq
        exact ha w hw q hq
    · rw [Assignment.get_empty hf hw] at hq
      cases hq
  exact hall.2 v hv r hr

end Function

end Octet
