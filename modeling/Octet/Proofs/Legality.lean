import Octet.Proofs.Sharing

/-!
# Finished assignments are legal

A register is legal for a variable when it is handed out, and that question is asked of an
assignment in which most variables have none yet. Two checks are made of the finished one.

The first is the check of the allocation itself: widths fit, and variables whose ranges intersect do
not conflict. It finds nothing, whatever the machine offers and allows.

The second is the machine's: it still allows every variable its register at every address of its
range. Only one of its conditions looks at the registers of other variables: a pointer and the
destination of the instruction that follows it must not conflict. That condition is symmetric, and
both variables are mentioned by the instruction, so its address lies in both ranges. Whichever of
the two is served last is asked about the other, so no later register takes back an earlier answer.

## Main definitions

* `Function.Allowed` — the machine allows every register of an assignment, over the whole range
* `Function.Closed` — variables that are mentioned are global or variables of the function

## Main results

* `Function.clashes_eq_nil_iff` — what the check looks for
* `Function.clashes_allocate` — the allocation passes its check, on every machine
* `Function.allowed_of_build`, `Function.allowed_allocate` — the machine allows the finished
  assignment
-/

namespace Octet

namespace Function

variable {f : Function} {a : Assignment} {v w : Variable} {r : Register}

/-! ### The check of the allocation -/

theorem mem_intersections :
    w ∈ f.intersections v ↔ w ∈ f.vars ∧ w ≠ v ∧ (f.range v).intersects (f.range w) = true := by
  simp [intersections]

theorem clashesOf_eq_nil_iff :
    f.clashesOf a v = [] ↔ ∀ r, a.get v = some r → r.width = v.type.byteCount ∧
      ∀ w ∈ f.intersections v, ∀ s, a.get w = some s → v.index ≤ w.index →
        r.conflicts s = false := by
  unfold clashesOf
  cases hv : a.get v with
  | none => simp
  | some r =>
    simp only [List.append_eq_nil_iff, List.filterMap_eq_nil_iff, Option.some.injEq,
      forall_eq']
    refine and_congr (by simp) (forall_congr' fun w => forall_congr' fun _ => ?_)
    cases a.get w with
    | none => simp
    | some s => simp

/-- **What the check looks for.** As a pair of variables is looked at from the one declared first,
the check covers both ways round. -/
theorem clashes_eq_nil_iff : f.clashes a = [] ↔
    (∀ v ∈ f.vars, ∀ r, a.get v = some r → r.width = v.type.byteCount) ∧
      ∀ v ∈ f.vars, ∀ w ∈ f.vars, v ≠ w → (f.range v).intersects (f.range w) = true →
        Register.clash (a.get v) (a.get w) = false := by
  simp only [clashes, List.flatMap_eq_nil_iff, clashesOf_eq_nil_iff]
  constructor
  · intro h
    refine ⟨fun v hv r hr => (h v hv r hr).1, fun v hv w hw hne hi => ?_⟩
    cases hr : a.get v with
    | none => rfl
    | some r =>
      cases hs : a.get w with
      | none => simp
      | some s =>
        rcases Nat.le_total v.index w.index with hle | hle
        · exact (h v hv r hr).2 w (mem_intersections.mpr ⟨hw, hne.symm, hi⟩) s hs hle
        · rw [LiveRange.intersects_comm] at hi
          rw [Register.clash_comm]
          exact (h w hw s hs).2 v (mem_intersections.mpr ⟨hv, hne, hi⟩) r hr hle
  · rintro ⟨hwidth, hapart⟩ v hv r hr
    refine ⟨hwidth v hv r hr, fun w hw s hs _ => ?_⟩
    obtain ⟨hw, hne, hi⟩ := mem_intersections.mp hw
    simpa [hr, hs] using hapart v hv w hw hne.symm hi

theorem range_analyzed (hf : f.Indexed) (hv : v ∈ f.vars) : f.analyzed.range v = f.rangeOf v := by
  simp [range, analyzed, hf.isStatic hv, hf.getElem? hv]

/-- **The allocation passes its check**, whatever the machine offers and allows: registers have the
width of their variables, variables with intersecting ranges do not conflict, and a variable that no
instruction mentions gets none. -/
theorem clashes_allocate (hf : f.Indexed) (m : Machine) (arrivals : List (Option Register)) :
    let a := f.analyzed.allocate m arrivals
    (∀ v ∈ f.vars, ∀ r, a.get v = some r → r.width = v.type.byteCount) ∧
      (∀ v ∈ f.vars, ∀ w ∈ f.vars, v ≠ w → (f.rangeOf v).intersects (f.rangeOf w) = true →
        Register.clash (a.get v) (a.get w) = false) ∧
      (∀ v ∈ f.vars, (∀ i ∈ f.code, ¬ i.Mentions v) → a.get v = none) ∧
      f.analyzed.clashes a = [] := by
  intro a
  have hs : f.analyzed.Separates a := separates_allocate (f := f.analyzed) hf m arrivals
  refine ⟨hs.width, fun v hv w hw hne hi => ?_, fun v hv hnone => ?_,
    clashes_eq_nil_iff.mpr ⟨hs.width, hs.apart⟩⟩
  · rw [← range_analyzed hf hv, ← range_analyzed hf hw] at hi
    exact hs.apart v hv w hw hne hi
  · cases hr : a.get v with
    | none => rfl
    | some r =>
      have hfirst := hs.used v hv r hr
      rw [range_analyzed hf hv] at hfirst
      obtain ⟨n, i, hi, hm⟩ := exists_mention_of_first hfirst
      exact absurd hm (hnone i (mem_code_of_at? hi))

end Function

/-- The check of a loop that shares a register, with the parameter in the accumulator. -/
theorem clashes_sum :
    Sharing.sum.Indexed ∧
      (∀ v ∈ Sharing.sum.vars, ∀ r,
        (Sharing.sum.analyzed.allocate Arch.mos6502.machine [some Mos.a]).get v = some r →
          r.width = v.type.byteCount) ∧
      (Sharing.sum.analyzed.clashes
        (Sharing.sum.analyzed.allocate Arch.mos6502.machine [some Mos.a]) = []) := by
  have hindexed : Sharing.sum.Indexed :=
    Listing.indexed_of_build Sharing.build_sumListing (List.mem_singleton.mpr rfl)
  obtain ⟨hwidth, -, -, hnil⟩ :=
    Function.clashes_allocate hindexed Arch.mos6502.machine [some Mos.a]
  exact ⟨hindexed, hwidth, hnil⟩

/-! ### What the machine allows -/

namespace Inst

/-- The instruction goes through the pointer. -/
def Follows (i : Inst) (p : Variable) : Prop := p ∈ i.operands.filterMap (·.pointer?)

/-- One of the variables is a pointer that the instruction follows, and the other one its
destination. -/
def Faces (i : Inst) (v w : Variable) : Prop :=
  v ≠ w ∧ (i.Follows v ∧ i.Writes w ∨ i.Writes v ∧ i.Follows w)

variable {i : Inst} {v w p : Variable} {m : Arch} {f : Function} {a : Assignment} {r : Register}

theorem Follows.mentions (h : i.Follows p) : i.Mentions p := by
  obtain ⟨o, ho, hp⟩ := List.mem_filterMap.mp h
  refine ⟨o, ho, ?_⟩
  cases o <;> simp_all [Operand.pointer?, Operand.mentioned?]

theorem Faces.symm (h : i.Faces v w) : i.Faces w v :=
  ⟨h.1.symm, h.2.elim (fun h => .inr h.symm) fun h => .inl h.symm⟩

theorem Faces.mentions (h : i.Faces v w) : i.Mentions v :=
  h.2.elim (fun h => h.1.mentions) fun h => h.1.mentions

/-- What a pointer forbids, with the registers of other variables apart. -/
theorem pointerForbids_eq_false_iff {n : Int} :
    i.pointerForbids m f a n v r p = false ↔
      i.pointerForbids m f ⟨[]⟩ n v r p = false ∧
        (p = v → ∀ w, i.Writes w → w ≠ v → Register.clash (a.get w) (some r) = false) ∧
        (p ≠ v → i.Writes v → Register.clash (a.get p) (some r) = false) := by
  have hnone : ∀ w, Register.clash (Assignment.get ⟨[]⟩ w) (some r) = false := by
    simp [Assignment.get]
  unfold pointerForbids Writes
  by_cases hpv : p = v
  · cases i.dest?.bind (·.direct?) with
    | none => simp [hpv]
    | some d =>
      by_cases hdv : d = v
      · simp [hpv, hdv]
      · simp [hpv, hdv, hnone]
  · simp only [beq_iff_eq, hpv, if_false, hnone, Bool.and_false, Bool.false_or,
      Bool.or_eq_false_iff, Bool.and_eq_false_imp, false_imp_iff, true_and, ne_eq,
        not_false_eq_true,
      true_imp_iff]
    exact and_comm

end Inst

namespace Function

variable {f : Function} {m : Arch} {a : Assignment} {v w : Variable} {r : Register}
  {i : Inst} {n : Nat}

/-- **What a register may not clash with.** The machine's answer depends on the registers of those
variables only that the instruction makes the variable face. -/
theorem allows_iff : m.allows f a n v r = true ↔
    m.allows f ⟨[]⟩ n v r = true ∧
      ∀ i, f.at? n = some i → ∀ w, i.Faces v w → Register.clash (a.get w) (some r) = false := by
  cases hi : f.at? n with
  | none => simp [Arch.allows, hi]
  | some i =>
    simp only [Arch.allows, hi, Bool.and_eq_true, List.all_eq_true, Bool.not_eq_true',
      Option.some.injEq, forall_eq', and_assoc]
    refine and_congr Iff.rfl (and_congr Iff.rfl (and_congr Iff.rfl (and_congr Iff.rfl ⟨?_, ?_⟩)))
    · intro h
      refine ⟨fun p hp => (Inst.pointerForbids_eq_false_iff.mp (h p hp)).1, ?_⟩
      rintro w ⟨hne, ⟨hv, hw⟩ | ⟨hv, hw⟩⟩
      · exact (Inst.pointerForbids_eq_false_iff.mp (h v hv)).2.1 rfl w hw hne.symm
      · exact (Inst.pointerForbids_eq_false_iff.mp (h w hw)).2.2 hne.symm hv
    · rintro ⟨hempty, hfaces⟩ p hp
      refine Inst.pointerForbids_eq_false_iff.mpr ⟨hempty p hp, ?_, ?_⟩
      · rintro rfl w hw hne
        exact hfaces w ⟨hne.symm, .inl ⟨hp, hw⟩⟩
      · intro hne hv
        exact hfaces p ⟨Ne.symm hne, .inr ⟨hv, hp⟩⟩

/-- Variables that are mentioned are global or variables of the function. -/
def Closed (f : Function) : Prop :=
  ∀ i ∈ f.code, ∀ v, i.Mentions v → v ∈ f.vars ∨ v.isStatic = true

/-- Giving a variable a register changes the register of no other variable that is mentioned. -/
theorem Closed.get_set (hc : f.Closed) (hf : f.Indexed) (hi : i ∈ f.code) (hw : i.Mentions w)
    (hv : v ∈ f.vars) (hne : w ≠ v) : (a.set v r).get w = a.get w := by
  rcases hc i hi w hw with hw | hw
  · exact Assignment.get_set_of_ne hf hv hw hne
  · simp [Assignment.get, hw]

/-- The machine allows every register of the assignment at every address of the range. -/
def Allowed (f : Function) (m : Arch) (a : Assignment) : Prop :=
  ∀ v ∈ f.vars, ∀ r, a.get v = some r → ∀ n : Nat, (f.range v).Covers n →
    m.allows f a n v r = true

theorem allowed_empty (hf : f.Indexed) (m : Arch) : f.Allowed m (.empty f) := by
  intro v hv r hr
  simp [Assignment.get_empty hf hv] at hr

theorem allows_of_legal (h : f.legal m.machine a v r = true) (hn : (f.range v).Covers n) :
    m.allows f a n v r = true := by
  simp only [legal, Bool.and_eq_true, List.all_eq_true, List.mem_range, Bool.or_eq_true,
    decide_eq_true_eq] at h
  obtain ⟨hfirst, hlast⟩ := hn
  rcases h.2 n (by omega) with hlt | hallows
  · omega
  · exact hallows

/-- **A legal register takes back no answer.** A variable that was served before and faces the one
that is served now was asked about by the machine just now. -/
theorem Allowed.set (ha : f.Allowed m a) (hf : f.Read) (hc : f.Closed)
    (hl : a.registers.length = f.vars.length) (hv : v ∈ f.vars)
    (h : f.legal m.machine a v r = true) : f.Allowed m (a.set v r) := by
  have hkeeps : ∀ {n i}, f.at? n = some i → ∀ {w}, i.Mentions w → w ≠ v →
      (a.set v r).get w = a.get w := fun hi w hw hne =>
    hc.get_set hf.indexed (mem_code_of_at? hi) hw hv hne
  intro w hw s hs n hn
  by_cases hwv : w = v
  · subst hwv
    obtain rfl : r = s :=
      Option.some.inj ((Assignment.get_set_self hf.indexed hw hl).symm.trans hs)
    obtain ⟨halone, hfaces⟩ := allows_iff.mp (allows_of_legal h hn)
    refine allows_iff.mpr ⟨halone, fun i hi x hx => ?_⟩
    rw [hkeeps hi hx.symm.mentions hx.1.symm]
    exact hfaces i hi x hx
  · rw [Assignment.get_set_of_ne hf.indexed hv hw hwv] at hs
    obtain ⟨halone, hfaces⟩ := allows_iff.mp (ha w hw s hs n hn)
    refine allows_iff.mpr ⟨halone, fun i hi x hx => ?_⟩
    by_cases hxv : x = v
    · subst hxv
      have hcovers := (hf.covers_of_mentionedAt hv ⟨i, hi, hx.symm.mentions⟩).2
      have hasked := (allows_iff.mp (allows_of_legal h hcovers)).2 i hi w hx.symm
      rwa [Assignment.get_set_self hf.indexed hv hl, Register.clash_comm, ← hs]
    · rw [hkeeps hi hx.symm.mentions hxv]
      exact hfaces i hi x hx

end Function

/-- The machine allows every register of the finished assignment, whichever variable was served
last. -/
theorem Function.allowed_of_build {l : Listing} {program : Program} {f : Function}
    (hl : l.build = .ok program) (hf : f ∈ program.functions) (m : Arch)
    (arrivals : List (Option Register)) : f.Allowed m (f.allocate m.machine arrivals) := by
  have hread := Listing.read_of_build hl hf
  have hclosed : f.Closed := fun i hi v hv =>
    (Listing.declared_of_build hl hf hi hv).imp_right (Listing.isStatic_of_build hl)
  have hallowed : f.Separates (f.allocate m.machine arrivals) ∧
      f.Allowed m (f.allocate m.machine arrivals) := by
    refine Function.allocate_induction (P := fun a => f.Separates a ∧ f.Allowed m a) ?_
      ⟨Function.separates_empty hread.indexed, Function.allowed_empty hread.indexed m⟩
    rintro a v r ⟨hs, ha⟩ hg
    exact ⟨hs.set hread.indexed hg.mem hg.used hg.legal,
      ha.set hread hclosed hs.length_eq hg.mem hg.legal⟩
  exact hallowed.2

/-- **The machine allows the finished assignment.** Every variable of a function that was read may
hold its register at every address of its range, now that all the others have theirs. -/
theorem Function.allowed_allocate {l : Listing} {program : Program} {f : Function}
    (hl : l.build = .ok program) (hf : f ∈ program.functions) (m : Arch)
    (arrivals : List (Option Register)) {v : Variable} {r : Register} (hv : v ∈ f.vars)
    (hr : (f.allocate m.machine arrivals).get v = some r) {n : Nat} (hn : (f.range v).Covers n) :
    m.allows f (f.allocate m.machine arrivals) n v r = true :=
  Function.allowed_of_build hl hf m arrivals v hv r hr n hn

/-! ### A pointer and what it is followed for -/

namespace Legality

/-- A function that follows a pointer for the last time, into a variable that is used from there on.
The ranges of the two do not intersect. -/
def followListing : Listing where
  globals := [⟨"g", "word"⟩]
  externs := []
  functions :=
    [{  name := "f"
        params := []
        result := "word"
        vars := [⟨"p", "ptr:word"⟩, ⟨"w", "word"⟩]
        code :=
          [ { op := "load", dest := "p", left := "&g" },
            { op := "load", dest := "w", left := "*p" },
            { op := "return", left := "w" } ] }]

/-- The global word. -/
def global : Variable := ⟨0, true, "g", "g", .word false, none⟩

/-- The pointer. -/
def followed : Variable := ⟨0, false, "p", "f_p", .pointer (.word false), none⟩

/-- The word behind the pointer. -/
def found : Variable := ⟨1, false, "w", "f_w", .word false, none⟩

/-- The function of `followListing`. -/
def follow : Function where
  name := "f"
  params := []
  result := .word false
  vars := [followed, found]
  code :=
    [ .load (.whole followed) (.address "g" 0 (.word false)),
      .load (.whole found) (.deref followed 0 (.word false)),
      .ret (some (.whole found)) ]
  ranges := [⟨[1, 2], none⟩, ⟨[2, 3], none⟩]

theorem build_followListing : followListing.build = .ok ⟨[global], [], [], [follow]⟩ := by cbv

/-- On the 8080 both are in pairs, and the machine allows each its own where they meet. -/
theorem allows_follow :
    followListing.build = .ok ⟨[global], [], [], [follow]⟩ ∧
      (follow.allocate Arch.i8080.machine []).get followed = some Intel.hl ∧
      (follow.allocate Arch.i8080.machine []).get found = some Intel.de ∧
      Arch.i8080.allows follow (follow.allocate Arch.i8080.machine []) 2 followed Intel.hl = true ∧
      Arch.i8080.allows follow (follow.allocate Arch.i8080.machine []) 2 found Intel.de = true := by
  have hp : (follow.allocate Arch.i8080.machine []).get followed = some Intel.hl := by cbv
  have hw : (follow.allocate Arch.i8080.machine []).get found = some Intel.de := by cbv
  exact ⟨build_followListing, hp, hw,
    Function.allowed_allocate build_followListing (List.mem_singleton.mpr rfl) .i8080 []
      (by decide) hp ⟨by decide, by decide⟩,
    Function.allowed_allocate build_followListing (List.mem_singleton.mpr rfl) .i8080 []
      (by decide) hw ⟨by decide, by decide⟩⟩

end Legality

end Octet
