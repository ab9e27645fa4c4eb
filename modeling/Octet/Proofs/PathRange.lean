import Octet.Proofs.LeastRange
import Octet.Proofs.Sharing

/-!
# Ranges have the paths between mentions

A range is an interval of addresses. Control may leave an interval at either end and come back
later, through any number of loops that are nested or cross each other; what it must not do is leave
it between two mentions of the variable.

At the front only a jump back around the first address leads out of a range. At the end there is no
way to come back: a jump from beyond the end into the range comes from a loop that the range enters
from above, and a range that is closed over loops reaches the end of that loop. So the walk is
looked at twice, forward for the front and backward for the end.

## Main definitions

* `Function.Walk` — steps along control flow, from anywhere
* `Function.LoopsAround` — a jump back around an address

## Main results

* `Function.covers_walks` — the range of a variable has every address between two of its mentions,
  unless a jump leads back around its first address
-/

namespace Octet

namespace Function

/-- The first `n` steps of `p` follow control flow, from wherever they start. -/
def Walk (f : Function) (n : Nat) (p : Nat → Nat) : Prop := ∀ m < n, (p m, p (m + 1)) ∈ f.edges

/-- **A jump back around an address**: from there or behind it, to a label there or before it. -/
def LoopsAround (f : Function) (address : Int) : Prop :=
  ∃ (t h : Nat) (i : Inst) (a : Anchor), f.at? t = some i ∧ i.target? = some a ∧
    f.at? h = some (.label a) ∧ (h : Int) ≤ address ∧ address ≤ t

variable {f : Function} {v : Variable} {n : Nat} {p : Nat → Nat}

theorem Read.of_analyzed (hindexed : f.Indexed) (hplaced : f.JumpsPlaced) : f.analyzed.Read :=
  ⟨hindexed, rfl, hplaced⟩

/-- Nothing jumps back to the entry. -/
theorem not_loopsAround_zero : ¬ f.LoopsAround 0 := by
  rintro ⟨t, h, i, a, -, -, hlabel, hle, -⟩
  have := one_le_of_at? hlabel
  omega

namespace Read

variable (hf : f.Read)

include hf

theorem first_of_parameter (hv : v ∈ f.vars) (hp : v.parameter.isSome = true) {a : Nat}
    (hm : f.MentionedAt a v) :
    (f.range v).first = 0 := by
  obtain ⟨q, hq⟩ := Option.isSome_iff_exists.mp hp
  obtain ⟨i, hi, him⟩ := hm
  rw [hf.range_eq hv, first_rangeOf_parameter hq hi him]

/-- A step back from within a range, or from beyond it, leads behind its first address. -/
theorem first_lt_of_back {first : Int} (haround : ¬ f.LoopsAround first) {a b : Nat}
    (h : (a, b) ∈ f.edges) (hback : b ≤ a) (hfirst : first ≤ a) : first < b := by
  obtain ⟨-, i, t, hi, ht, rfl⟩ := mem_loops_of_edge h hback
  refine Int.not_le.mp fun hle => haround ?_
  exact ⟨a, _, i, t, hi, ht, hf.placed.at?_addressOf hi ht, hle, hfirst⟩

/-- **The front.** A walk that starts in a range or beyond it does not come before it. -/
theorem first_le_of_walk {first : Int} (haround : ¬ f.LoopsAround first) (hwalk : f.Walk n p)
    (hstart : first ≤ p 0) : ∀ m ≤ n, first ≤ p m := by
  intro m
  induction m with
  | zero => exact fun _ => hstart
  | succ m ih =>
    intro hm
    have hle := ih (by omega)
    rcases Nat.lt_or_ge (p m) (p (m + 1)) with hforward | hback
    · omega
    · exact (hf.first_lt_of_back haround (hwalk m hm) hback hle).le

/-- **The end.** A walk that ends before the end of a range has not been beyond it. The induction
goes backward from where the walk ends. -/
theorem le_last_of_walk (hv : v ∈ f.vars) (h₀ : 0 ≤ (f.range v).first)
    (haround : ¬ f.LoopsAround (f.range v).first) (hwalk : f.Walk n p)
    (hfirst : ∀ m ≤ n, (f.range v).first ≤ p m)
    (hend : (p n : Int) ≤ (f.range v).last) : ∀ d ≤ n, (p (n - d) : Int) ≤ (f.range v).last := by
  intro d
  induction d with
  | zero => exact fun _ => hend
  | succ d ih =>
    intro hd
    obtain ⟨m, hm⟩ : ∃ m, m + 1 = n - d := ⟨n - d - 1, by omega⟩
    have hlast := ih (by omega)
    rw [show n - (d + 1) = m by omega]
    rw [← hm] at hlast
    have hedge := hwalk m (by omega)
    rcases Nat.lt_or_ge (p m) (p (m + 1)) with hforward | hback
    · omega
    · -- the jump closes a loop that the range enters from above, so its end is in the range
      have hhead := hf.first_lt_of_back haround hedge hback (hfirst m (by omega))
      have hloop := (mem_loops_of_edge hedge hback).1
      rw [hf.range_eq hv] at h₀ hhead hlast ⊢
      exact last_rangeOf_of_loop hloop h₀ hhead hlast

theorem covers_of_walk (hv : v ∈ f.vars) (haround : ¬ f.LoopsAround (f.range v).first)
    (hwalk : f.Walk n p)
    (hstart : f.MentionedAt (p 0) v ∨ (p 0 = 0 ∧ v.parameter.isSome = true))
    (hend : f.MentionedAt (p n) v) :
    ∀ m ≤ n, (f.range v).Covers (p m) := by
  obtain ⟨h₀, hcovers⟩ := hf.covers_of_mentionedAt hv hend
  have hfirst : (f.range v).first ≤ p 0 := by
    rcases hstart with hm | ⟨hentry, hp⟩
    · exact (hf.covers_of_mentionedAt hv hm).2.1
    · rw [hf.first_of_parameter hv hp hend]
      omega
  have hfront := hf.first_le_of_walk haround hwalk hfirst
  intro m hm
  refine ⟨hfront m hm, ?_⟩
  have hback := hf.le_last_of_walk hv h₀ haround hwalk hfront hcovers.2 (n - m) (by omega)
  rwa [show n - (n - m) = m by omega] at hback

end Read

/-- **Ranges have the paths between mentions.** In an analyzed function, unless a jump leads back
around the first address of a variable, every walk from where the variable occurs to where it occurs
stays within its range. No jump leads back around the first address of a parameter that is
mentioned. -/
theorem covers_walks (hindexed : f.Indexed) (hplaced : f.JumpsPlaced) (hv : v ∈ f.vars)
    (hused : (f.analyzed.range v).usages ≠ []) :
    (v.parameter.isSome = true → ¬ f.LoopsAround (f.analyzed.range v).first) ∧
      (¬ f.LoopsAround (f.analyzed.range v).first →
        ∀ n p, f.Walk n p → (f.MentionedAt (p 0) v ∨ (p 0 = 0 ∧ v.parameter.isSome = true)) →
          f.MentionedAt (p n) v → ∀ m ≤ n, (f.analyzed.range v).Covers (p m)) := by
  have hread : f.analyzed.Read := .of_analyzed hindexed hplaced
  obtain ⟨a, ha⟩ : ∃ a, f.MentionedAt a v := by
    obtain ⟨u, hu⟩ := List.exists_mem_of_ne_nil _ hused
    rw [hread.range_eq hv, usages_rangeOf] at hu
    obtain ⟨a, i, hi, him, -⟩ := mem_usages.mp hu
    exact ⟨a, i, hi, him⟩
  refine ⟨fun hp => ?_, fun haround n p hwalk hstart hend => ?_⟩
  · rw [hread.first_of_parameter hv hp ha]
    exact not_loopsAround_zero
  · exact hread.covers_of_walk hv haround hwalk hstart hend

end Function

/-! ### A walk through two loops that cross -/

namespace PathRange

open LeastRange (cross crossListing kept outer)

/-- A walk in `LeastRange.cross` from the last mention of `v` down to the jump of the second loop,
back above it, and up through the first loop to the mention again. -/
def detour (m : Nat) : Nat := [3, 4, 5, 6, 4, 5, 2, 3].getD m 0

/-- The walk stays in the range of `v`, whose mentions are at 1 and 3 only. No jump leads back
around the first address of the parameter. -/
theorem covers_detour :
    cross.Walk 7 detour ∧ ¬ cross.LoopsAround 1 ∧ ¬ cross.LoopsAround 0 ∧
      ∀ m ≤ 7, 1 ≤ (detour m : Int) ∧ (detour m : Int) ≤ 6 := by
  have hbuild : crossListing.build = .ok ⟨[LeastRange.global], [], [], [cross]⟩ := by cbv
  have hmem : cross ∈ [cross] := List.mem_singleton.mpr rfl
  have hindexed := Listing.indexed_of_build hbuild hmem
  have hplaced := Listing.jumpsPlaced_of_build hbuild hmem
  have hkept : kept ∈ cross.vars := by decide
  have houter : outer ∈ cross.vars := by decide
  have hwalk : cross.Walk 7 detour := by
    have hedges : ∀ m < 7, (detour m, detour (m + 1)) ∈ cross.edges := by decide
    exact hedges
  have haround : ¬ cross.LoopsAround 1 := by
    rintro ⟨t, h, i, a, -, -, hlabel, hle, -⟩
    obtain rfl | rfl : h = 0 ∨ h = 1 := by omega
    · cases hlabel
    · cases hlabel
  have hmention : cross.MentionedAt 3 kept := ⟨_, rfl, .whole kept, by decide, rfl⟩
  refine ⟨hwalk, haround, (Function.covers_walks hindexed hplaced houter (by decide)).1 rfl, ?_⟩
  exact (Function.covers_walks hindexed hplaced hkept (by decide)).2 haround 7 detour hwalk
    (.inl hmention) hmention

end PathRange

end Octet
