import Octet.Proofs.Legality
import Octet.Proofs.WellFormed

/-!
# Live ranges are the least ones

The range of a variable has to reach its last mention, and the end of every loop that it enters from
above and reaches into. Widening moves the end of a range only as far as some loop asks for, so the
end stays below every address that satisfies all of this; and once no loop widens the range any
more, its end is such an address itself. The order in which loops are looked at, and the number of
rounds, make no difference.

## Main definitions

* `LiveRange.Encloses` — an address at which a range can end, by the loops of a list
* `Function.EndsAt` — the same, by the instructions of a function
* `Function.Analyzed` — what the analysis finds out about a function

## Main results

* `LiveRange.isLeast_last_closed` — closing a range over loops moves its end to the least such
  address
* `Listing.analyzed_of_build` — the ranges of functions that were read are the least ones
-/

namespace Octet

namespace LiveRange

variable {r : LiveRange} {l : Loop} {loops : List Loop} {e : Int}

/-! ### Widening adds no mentions -/

@[simp] theorem usages_through : (r.through l).usages = r.usages := by
  by_cases h : r.Enters l
  · rw [through_of_enters h, usages_extend]
  · rw [through_of_not_enters h]

theorem usages_throughAll : (r.throughAll loops).usages = r.usages := by
  induction loops generalizing r with
  | nil => rfl
  | cons l ls ih => rw [throughAll_cons, ih, usages_through]

theorem usages_closed : (r.closed loops).usages = r.usages := by
  have rounds : ∀ ks : List Loop,
      (ks.foldl (fun r _ => r.throughAll loops) r).usages = r.usages := by
    intro ks
    induction ks generalizing r with
    | nil => rfl
    | cons _ ks ih => rw [List.foldl_cons, ih, usages_throughAll]
  exact rounds loops

/-! ### Widening goes no further than it must -/

/-- **An address at which a range can end**: with every loop that a range from `first` to there
enters from above, it has the end of the loop. -/
def Encloses (loops : List Loop) (first e : Int) : Prop :=
  ∀ l ∈ loops, first < l.head → l.head ≤ e → l.tail ≤ e

theorem last_through_le (hl : l ∈ loops) (he : Encloses loops r.first e) (h : r.last ≤ e) :
    (r.through l).last ≤ e := by
  by_cases henters : r.Enters l
  · rw [last_through_of_enters henters]
    exact he l hl henters.2.1 (henters.2.2.1.trans h)
  · rwa [through_of_not_enters henters]

theorem last_throughAll_le {ls : List Loop} (hls : ∀ l ∈ ls, l ∈ loops)
    (he : Encloses loops r.first e) (h : r.last ≤ e) : (r.throughAll ls).last ≤ e := by
  induction ls generalizing r with
  | nil => exact h
  | cons l ls ih =>
    rw [throughAll_cons]
    refine ih (fun k hk => hls k (.tail _ hk)) ?_ (last_through_le (hls l (.head _)) he h)
    rwa [first_through]

theorem last_closed_le (he : Encloses loops r.first e) (h : r.last ≤ e) :
    (r.closed loops).last ≤ e := by
  have rounds : ∀ ks : List Loop, (ks.foldl (fun r _ => r.throughAll loops) r).last ≤ e := by
    intro ks
    induction ks generalizing r with
    | nil => exact h
    | cons _ ks ih =>
      rw [List.foldl_cons]
      refine ih ?_ (last_throughAll_le (fun _ hl => hl) he h)
      rwa [first_throughAll]
  exact rounds loops

/-- **Closing a range over loops** moves its end to the least address at which it can end. -/
theorem isLeast_last_closed (loops : List Loop) (h₀ : 0 ≤ r.first) :
    IsLeast {e | r.last ≤ e ∧ Encloses loops r.first e} (r.closed loops).last := by
  refine ⟨⟨last_le_last_closed, fun l hl hfirst hhead => ?_⟩, fun e he => last_closed_le he.2 he.1⟩
  have hnot := closed_closed (r := r) l hl
  rw [Enters, first_closed] at hnot
  omega

/-- A range that no loop widens is closed already. -/
theorem closed_of_closed (h : r.Closed loops) : r.closed loops = r := by
  have rounds : ∀ ks : List Loop, ks.foldl (fun r _ => r.throughAll loops) r = r := by
    intro ks
    induction ks with
    | nil => rfl
    | cons _ ks ih => rw [List.foldl_cons, throughAll_of_closed h, ih]
  exact rounds loops

end LiveRange

namespace Function

variable {f : Function} {v w : Variable}

/-- An address at which a range from `first` on can end, by the jumps of the function: where the
range enters the code between a label and a later jump back to it from above, it has the jump. -/
def EndsAt (f : Function) (first e : Int) : Prop :=
  ∀ (t h : Nat) (i : Inst) (a : Anchor), f.at? t = some i → i.target? = some a →
    f.at? h = some (.label a) → h ≤ t → first < h → (h : Int) ≤ e → (t : Int) ≤ e

/-- **What the analysis finds out** about the variables of a function. -/
structure Analyzed (f : Function) : Prop where
  /-- The mentions are the addresses of the instructions that mention the variable, in ascending
  order. -/
  ascending : ∀ v ∈ f.vars, (f.range v).usages.Pairwise (· < ·)
  mentions : ∀ v ∈ f.vars, ∀ a, a ∈ (f.range v).usages ↔ ∃ n i, f.at? n = some i ∧
    i.Mentions v ∧ a = n
  /-- A range starts at the entry for a parameter, and else at the first mention. -/
  first : ∀ v ∈ f.vars, ∀ u, (f.range v).usages.head? = some u →
    (f.range v).first = if v.parameter.isSome then 0 else u
  /-- It ends at the least address, from the last mention on, at which it can end. -/
  last : ∀ v ∈ f.vars, ∀ u, (f.range v).usages.getLast? = some u →
    IsLeast {e | u ≤ e ∧ f.EndsAt (f.range v).first e} (f.range v).last
  /-- A variable that is not mentioned has no range. -/
  unused : ∀ v ∈ f.vars, (f.range v).usages = [] → (f.range v).first = -1 ∧ (f.range v).last = -1
  /-- Another round over the loops widens no range. -/
  stable : ∀ v ∈ f.vars, (f.range v).throughAll f.loops = f.range v
  /-- The variables whose ranges intersect are listed once each, as they are declared. -/
  listed : ∀ v ∈ f.vars, (f.intersections v).Sublist f.vars ∧ (f.intersections v).Nodup
  intersections : ∀ v ∈ f.vars, ∀ w ∈ f.vars,
    w ∈ f.intersections v ↔ w ≠ v ∧ (f.range v).intersects (f.range w) = true
  symmetric : ∀ v ∈ f.vars, ∀ w ∈ f.vars, w ∈ f.intersections v ↔ v ∈ f.intersections w
  /-- To analyze the function again changes nothing. -/
  again : f.analyzed = f

/-! ### Mentions -/

theorem usages_rangeOf : (f.rangeOf v).usages = f.usages v := by
  rw [rangeOf_eq, LiveRange.usages_closed, mentionRange]
  split
  · rename_i hu
    rw [LiveRange.usages_extend, hu]
  · rfl

theorem one_le_of_mem_usages {a : Int} (h : a ∈ f.usages v) : 1 ≤ a := by
  obtain ⟨n, i, hn, -, rfl⟩ := mem_usages.mp h
  exact_mod_cast one_le_of_at? hn

theorem first_mentionRange {u : Int} {us : List Int} (hu : f.usages v = u :: us) :
    (f.mentionRange v).first = if v.parameter.isSome then 0 else u := by
  have hpos : 0 < u := one_le_of_mem_usages (f := f) (v := v) (by simp [hu])
  unfold mentionRange
  cases v.parameter with
  | none => simp [LiveRange.first, hu]
  | some p => simp [hu, LiveRange.extend, LiveRange.first, hpos]

/-- A parameter that arrives extends its range to the first mention only, which is not the last
one. -/
theorem last_mentionRange : (f.mentionRange v).last = (f.usages v).getLastD (-1) := by
  unfold mentionRange
  split
  · rename_i u us _ hu
    have hle : u ≤ (u :: us).getLastD (-1) := by
      have hsorted := f.pairwise_usages (v := v)
      rw [hu] at hsorted
      rw [List.getLastD_eq_getLast?, List.getLast?_eq_some_getLast (List.cons_ne_nil u us),
        Option.getD_some]
      rcases List.mem_cons.mp (List.getLast_mem (List.cons_ne_nil u us)) with heq | hmem
      · exact heq.ge
      · exact ((List.pairwise_cons.mp hsorted).1 _ hmem).le
    simpa [LiveRange.extend, LiveRange.last, hu] using hle
  · rfl

theorem rangeOf_of_unused (hu : f.usages v = []) : f.rangeOf v = .empty := by
  have hnone : f.mentionRange v = .empty := by
    unfold mentionRange
    rw [hu]
    split
    · contradiction
    · rfl
  have hclosed : LiveRange.empty.Closed f.loops := fun l _ h => absurd h.1 (by decide)
  rw [rangeOf_eq, hnone, LiveRange.closed_of_closed hclosed]

/-- The variables of a function are different from each other. -/
theorem Indexed.nodup (hf : f.Indexed) : f.vars.Nodup := by
  refine List.nodup_iff_getElem?_ne_getElem?.mpr fun i j hij hj heq => ?_
  have hv : f.vars[j]? = some (f.vars.get ⟨j, hj⟩) := List.getElem?_eq_getElem hj
  have hi := (hf i _ (heq.trans hv)).1
  have hj := (hf j _ hv).1
  omega

/-! ### Loops -/

/-- Where the labels of jumps are placed once, loops are the jumps back to them. -/
theorem encloses_iff (hplaced : f.JumpsPlaced) (honce : (f.code.filterMap Inst.placed?).Nodup)
    {first e : Int} :
    LiveRange.Encloses f.loops first e ↔ f.EndsAt first e := by
  have haddress : ∀ {h : Nat} {a : Anchor}, f.at? h = some (.label a) → f.addressOf a = h := by
    intro h a hh
    cases h with
    | zero => cases hh
    | succ h => exact addressOf_eq (getElem?_eq_label_iff honce hh)
  constructor
  · intro henc t h i a hi ha hh hle hfirst hend
    have hloop : ⟨h, t⟩ ∈ f.loops := by
      refine mem_loops.mpr ⟨t, i, a, hi, ha, ?_, ?_⟩
      · rwa [haddress hh]
      · rw [haddress hh]
    exact henc _ hloop hfirst hend
  · intro hends l hl hfirst hend
    obtain ⟨t, i, a, hi, ha, hle, rfl⟩ := mem_loops.mp hl
    exact hends t _ i a hi ha (hplaced.at?_addressOf hi ha) hle hfirst hend

end Function

namespace Listing

variable {l : Listing} {p : Program} {f : Function}

/-- **The ranges of functions that were read are the least ones** that have all mentions and are
closed over loops, and the variables whose ranges intersect are listed. -/
theorem analyzed_of_build (h : l.build = .ok p) (hf : f ∈ p.functions) : f.Analyzed := by
  have hread := read_of_build h hf
  have hends : ∀ {first e : Int}, LiveRange.Encloses f.loops first e ↔ f.EndsAt first e :=
    Function.encloses_iff hread.placed (labels_nodup_of_build h hf)
  have husages : ∀ {v}, v ∈ f.vars → (f.range v).usages = f.usages v := by
    intro v hv
    rw [hread.range_eq hv, Function.usages_rangeOf]
  have hfirst : ∀ {v}, v ∈ f.vars → (f.range v).first = (f.mentionRange v).first := by
    intro v hv
    rw [hread.range_eq hv, Function.rangeOf_eq, LiveRange.first_closed]
  constructor
  case ascending =>
    intro v hv
    rw [husages hv]
    exact Function.pairwise_usages
  case mentions =>
    intro v hv a
    rw [husages hv]
    exact Function.mem_usages
  case first =>
    intro v hv u hu
    obtain ⟨us, hus⟩ := List.head?_eq_some_iff.mp hu
    rw [husages hv] at hus
    rw [hfirst hv, Function.first_mentionRange hus]
  case last =>
    intro v hv u hu
    have hmem : u ∈ f.usages v := husages hv ▸ List.mem_of_getLast? hu
    have hlast : (f.mentionRange v).last = u := by
      rw [Function.last_mentionRange, List.getLastD_eq_getLast?, ← husages hv, hu, Option.getD_some]
    have hleast := LiveRange.isLeast_last_closed f.loops (Function.covers_mentionRange hmem).1
    simp only [hends, hlast, ← hfirst hv] at hleast
    rwa [← Function.rangeOf_eq, ← hread.range_eq hv] at hleast
  case unused =>
    intro v hv hu
    rw [husages hv] at hu
    rw [hread.range_eq hv, Function.rangeOf_of_unused hu]
    exact ⟨rfl, rfl⟩
  case stable =>
    intro v hv
    rw [hread.range_eq hv, Function.rangeOf_eq]
    exact LiveRange.throughAll_of_closed LiveRange.closed_closed
  case listed =>
    intro v _
    exact ⟨List.filter_sublist, hread.indexed.nodup.filter _⟩
  case intersections =>
    intro v _ w hw
    rw [Function.mem_intersections]
    exact and_iff_right hw
  case symmetric =>
    intro v hv w hw
    rw [Function.mem_intersections, Function.mem_intersections, LiveRange.intersects_comm, ne_comm,
      and_iff_right hv, and_iff_right hw]
  case again =>
    have hranges := hread.ranges
    unfold Function.analyzed
    rw [← hranges]

end Listing

/-! ### Loops that cross -/

namespace LeastRange

/-- A function with two loops of which neither contains the other. The first one carries the range
of `v` to its jump, which lies behind the label of the second. -/
def crossListing : Listing where
  globals := [⟨"g", "byte"⟩]
  externs := []
  functions :=
    [{  name := "f"
        params := [⟨"n", "byte"⟩]
        result := "byte"
        vars := [⟨"v", "byte"⟩, ⟨"w", "byte"⟩]
        code :=
          [ { op := "load", dest := "v", left := "g" },
            { label := "top" },
            { op := "load", dest := "w", left := "v" },
            { label := "middle" },
            { op := "decjump", dest := "n", target := "top" },
            { op := "decjump", dest := "w", target := "middle" },
            { op := "return", left := "w" } ] }]

/-- The global byte. -/
def global : Variable := ⟨0, true, "g", "g", .byte false, none⟩

/-- The counter of the first loop, a parameter. -/
def outer : Variable := ⟨0, false, "n", "f_n", .byte false, some 0⟩

/-- What is read in each round of the first loop. -/
def kept : Variable := ⟨1, false, "v", "f_v", .byte false, none⟩

/-- The counter of the second loop. -/
def inner : Variable := ⟨2, false, "w", "f_w", .byte false, none⟩

/-- The function of `crossListing`. -/
def cross : Function where
  name := "f"
  params := [⟨0, "n", .byte false, "f_n"⟩]
  result := .byte false
  vars := [outer, kept, inner]
  code :=
    [ .load (.whole kept) (.whole global),
      .label ⟨"f_top"⟩,
      .load (.whole inner) (.whole kept),
      .label ⟨"f_middle"⟩,
      .decJump (.whole outer) ⟨"f_top"⟩,
      .decJump (.whole inner) ⟨"f_middle"⟩,
      .ret (some (.whole inner)) ]
  ranges := [⟨[5], some (0, 6)⟩, ⟨[1, 3], some (1, 6)⟩, ⟨[3, 6, 7], none⟩]

/-- The last mention of `v` is at 3, and its range ends at the jump of the second loop, at 6; that
of the parameter starts at the entry. Both intersect. -/
theorem isLeast_cross :
    crossListing.build = .ok ⟨[global], [], [], [cross]⟩ ∧
      IsLeast {e | 3 ≤ e ∧ cross.EndsAt 1 e} 6 ∧ (cross.range outer).first = 0 ∧
        (kept ∈ cross.intersections outer ↔ outer ∈ cross.intersections kept) := by
  have hbuild : crossListing.build = .ok ⟨[global], [], [], [cross]⟩ := by cbv
  have hanalyzed := Listing.analyzed_of_build hbuild (List.mem_singleton.mpr rfl)
  have houter : outer ∈ cross.vars := by decide
  have hkept : kept ∈ cross.vars := by decide
  exact ⟨hbuild, hanalyzed.last kept hkept 3 rfl, hanalyzed.first outer houter 5 rfl,
    hanalyzed.symmetric outer houter kept hkept⟩

end LeastRange

end Octet
