import Octet.Build.Call
import Octet.Proofs.ParallelMove
import Octet.Proofs.Symbols
import Octet.Target.Legality

/-!
# Parameters arrive undisturbed

The convention takes the registers of parameters in turn, each apart from those before. A parameter
then stays where it arrives, or is moved to memory, or into a register in which none arrives. So the
transfers of the prologue read the registers of arrivals only, and none of them writes one: no
source has to be saved before the first, whatever the order.

## Main definitions

* `Arch.passing`, `Arch.freeBefore` — the registers for a parameter, and those still free for it
* `Site.deliveries` — the transfers of the prologue
* `Function.Settled` — what holds of the parameters of a function

## Main results

* `Arch.pairwise_arrivalsAfter` — no two parameters arrive in conflicting registers
* `Arch.getElem?_arrivals` — which register a parameter arrives in
* `Function.settles_allocate` — where the variables of parameters live
* `Listing.settled_of_build` — parameters of functions that were read arrive undisturbed
-/

namespace Octet

/-! ### The convention -/

theorem RegisterSet.conflictsWith_insert (s : RegisterSet) (r o : Register) :
    (s.insert r).conflictsWith o = (s.conflictsWith o || r.conflicts o) := by
  rw [Bool.eq_iff_iff, Bool.or_eq_true]
  simp only [conflictsWith, List.any_eq_true, mem_insert]
  grind

namespace Arch

variable {m : Arch} {used : RegisterSet} {ts : List Ty} {r : Register}

/-- The registers in which a parameter of a type is passed, the preferred ones first. -/
def passing (m : Arch) (t : Ty) : List Register :=
  if t.isWord then m.wordParameters else m.byteParameters

theorem length_arrivalsAfter : (m.arrivalsAfter used ts).length = ts.length := by
  induction ts generalizing used with
  | nil => rfl
  | cons t ts ih =>
    unfold arrivalsAfter
    dsimp only
    split <;> simp [ih]

/-- Registers that are used already stay apart. -/
theorem conflictsWith_of_mem_arrivalsAfter (h : some r ∈ m.arrivalsAfter used ts) :
    used.conflictsWith r = false := by
  induction ts generalizing used with
  | nil => cases h
  | cons t ts ih =>
    unfold arrivalsAfter at h
    dsimp only at h
    split at h
    · rename_i s hs
      rcases List.mem_cons.mp h with h | h
      · cases h
        simpa using List.find?_some hs
      · have hfree := ih h
        simp only [RegisterSet.conflictsWith, List.any_eq_false] at hfree ⊢
        exact fun o ho => hfree o (RegisterSet.mem_insert.mpr (.inl ho))
    · rcases List.mem_cons.mp h with h | h
      · cases h
      · exact ih h

/-- **No two parameters arrive in conflicting registers.** -/
theorem pairwise_arrivalsAfter : (m.arrivalsAfter used ts).Pairwise fun x y =>
    Register.clash x y = false := by
  induction ts generalizing used with
  | nil => exact .nil
  | cons t ts ih =>
    unfold arrivalsAfter
    dsimp only
    split
    · rename_i r _
      refine List.pairwise_cons.mpr ⟨fun y hy => ?_, ih⟩
      cases y with
      | none => exact Register.clash_none_right _
      | some o =>
        have hfree := conflictsWith_of_mem_arrivalsAfter hy
        exact RegisterSet.conflicts_of_not_conflictsWith hfree
          (RegisterSet.mem_insert.mpr (.inr rfl))
    · exact List.pairwise_cons.mpr ⟨fun y _ => Register.clash_none_left y, ih⟩

theorem mem_parameters_of_arrivalsAfter {i : Nat} {t : Ty} (ht : ts[i]? = some t)
    (hr : (m.arrivalsAfter used ts)[i]? = some (some r)) : r ∈ m.passing t := by
  induction ts generalizing used i with
  | nil => cases ht
  | cons u ts ih =>
    unfold arrivalsAfter at hr
    dsimp only at hr
    cases i with
    | zero =>
      cases ht
      split at hr
      · rename_i s hs
        obtain rfl : s = r := by simpa using hr
        exact List.mem_of_find?_eq_some hs
      · simp at hr
    | succ i =>
      split at hr
      · exact ih (by simpa using ht) (by simpa using hr)
      · exact ih (by simpa using ht) (by simpa using hr)

/-- The registers in which parameters are passed are as wide as those. -/
theorem width_parameters (m : Arch) : (∀ r ∈ m.byteParameters, r.width = 1) ∧
    ∀ r ∈ m.wordParameters, r.width = 2 := by
  cases m <;> decide

/-- **A parameter arrives in the first register** for its type that conflicts with no earlier
one. -/
theorem getElem?_arrivalsAfter {i : Nat} {t : Ty} (ht : ts[i]? = some t) :
    (m.arrivalsAfter used ts)[i]? = some ((m.passing t).find? fun r =>
      !used.conflictsWith r && ((m.arrivalsAfter used ts).take i).all fun o =>
        !Register.clash o (some r)) := by
  induction ts generalizing used i with
  | nil => cases ht
  | cons u ts ih =>
    unfold arrivalsAfter
    dsimp only
    cases i with
    | zero =>
      cases ht
      split
      · rename_i s hs
        simpa [passing] using hs.symm
      · rename_i hs
        simp only [passing, List.take_zero, List.all_nil, Bool.and_true, hs]
        rfl
    | succ i =>
      split
      · rename_i s hs
        simp [ih (by simpa using ht), RegisterSet.conflictsWith_insert, Register.clash,
          Bool.and_assoc]
      · simp [ih (by simpa using ht), Register.clash]

section Arrivals

variable {i j : Nat} {t : Ty} {c : Register}

theorem clash_arrivals {x y : Option Register} (hij : i < j) (hx : (m.arrivals ts)[i]? = some x)
    (hy : (m.arrivals ts)[j]? = some y) : Register.clash x y = false := by
  obtain ⟨hi, rfl⟩ := List.getElem?_eq_some_iff.mp hx
  obtain ⟨hj, rfl⟩ := List.getElem?_eq_some_iff.mp hy
  exact List.pairwise_iff_getElem.mp pairwise_arrivalsAfter i j hi hj hij

/-- Whether a register was free when the parameter at a position was passed. -/
def freeBefore (m : Arch) (ts : List Ty) (i : Nat) (r : Register) : Bool :=
  ((m.arrivals ts).take i).all fun o => !Register.clash o (some r)

theorem getElem?_arrivals (ht : ts[i]? = some t) :
    (m.arrivals ts)[i]? = some ((m.passing t).find? (m.freeBefore ts i)) := by
  have hempty : ∀ r, RegisterSet.empty.conflictsWith r = false := fun _ => rfl
  rw [arrivals, getElem?_arrivalsAfter ht]
  simp only [hempty, Bool.not_false, Bool.true_and]
  rfl

/-- A register in which a later parameter arrives was free before. -/
theorem freeBefore_of_arrivals (hij : i < j) (hj : (m.arrivals ts)[j]? = some (some c)) :
    m.freeBefore ts i c = true := by
  refine List.all_eq_true.mpr fun o ho => ?_
  obtain ⟨k, hk⟩ := List.mem_iff_getElem?.mp ho
  rw [List.getElem?_take] at hk
  split at hk
  · rename_i hki
    simpa using clash_arrivals (hki.trans hij) hk hj
  · cases hk

theorem exists_conflicts_of_not_freeBefore (h : m.freeBefore ts i c = false) :
    ∃ o, some o ∈ m.arrivals ts ∧ c.conflicts o = true := by
  obtain ⟨x, hx, hclash⟩ := List.all_eq_false.mp h
  cases x with
  | none => simp [Register.clash] at hclash
  | some o =>
    refine ⟨o, List.mem_of_mem_take hx, ?_⟩
    rw [Register.conflicts_comm]
    simpa [Register.clash] using hclash

/-- A parameter that is passed in memory finds no register free. -/
theorem exists_conflicts_of_none (ht : ts[i]? = some t) (hi : (m.arrivals ts)[i]? = some none)
    (hc : c ∈ m.passing t) :
    ∃ o, some o ∈ m.arrivals ts ∧ c.conflicts o = true := by
  have hnone : (m.passing t).find? (m.freeBefore ts i) = none :=
    Option.some.inj ((getElem?_arrivals ht).symm.trans hi)
  exact exists_conflicts_of_not_freeBefore
    (Bool.eq_false_iff.mpr (List.find?_eq_none.mp hnone c hc))

/-- A parameter that is passed in memory could not take a register in which a later one arrives. -/
theorem notMem_passing_of_none (ht : ts[i]? = some t) (hi : (m.arrivals ts)[i]? = some none)
    (hij : i < j) (hj : (m.arrivals ts)[j]? = some (some c)) : c ∉ m.passing t := by
  have hnone : (m.passing t).find? (m.freeBefore ts i) = none :=
    Option.some.inj ((getElem?_arrivals ht).symm.trans hi)
  exact fun hc => List.find?_eq_none.mp hnone c hc (freeBefore_of_arrivals hij hj)

/-- On the 6502 the first parameter takes the accumulator, so that later ones arrive in `y` or in
memory. -/
theorem eq_y_of_arrivals (hm : m ≠ .i8080) (hj : 0 < j) (h : (m.arrivals ts)[j]? = some (some c)) :
    c = Mos.y := by
  have hlength : (m.arrivals ts).length = ts.length := length_arrivalsAfter
  have hlt : j < ts.length := hlength ▸ (List.getElem?_eq_some_iff.mp h).1
  have hfirst : ts[0]? = some (ts.get ⟨0, hj.trans hlt⟩) := List.getElem?_eq_getElem _
  have hmem : c ∈ m.passing (ts.get ⟨j, hlt⟩) :=
    mem_parameters_of_arrivalsAfter (List.getElem?_eq_getElem hlt) h
  have harrival := getElem?_arrivals (m := m) hfirst
  have hfree : m.freeBefore ts 0 = fun _ => true := rfl
  rw [hfree] at harrival
  have hclash := clash_arrivals hj harrival h
  have hall : ∀ t t' : Bool, ∀ c ∈ if t then m.wordParameters else m.byteParameters,
      Register.clash ((if t' then m.wordParameters else m.byteParameters).find? fun _ => true)
        (some c) = false → c = Mos.y := by
    cases m with
    | i8080 => exact absurd rfl hm
    | mos6502 | wdc65816 => decide
  exact hall _ _ c hmem hclash

/-- The first register for a parameter conflicts with one in which some parameter arrives. -/
theorem exists_conflicts_of_head? (ht : ts[i]? = some t) (hc : (m.passing t).head? = some c) :
    ∃ o, some o ∈ m.arrivals ts ∧ c.conflicts o = true := by
  have harrival := getElem?_arrivals (m := m) ht
  obtain ⟨cs, hcs⟩ := List.head?_eq_some_iff.mp hc
  cases hfree : m.freeBefore ts i c with
  | true =>
    rw [hcs, List.find?_cons_of_pos hfree] at harrival
    exact ⟨c, List.mem_of_getElem? harrival, Register.conflicts_self c⟩
  | false => exact exists_conflicts_of_not_freeBefore hfree

end Arrivals
end Arch

/-! ### Where parameters live -/

namespace Listing

/-- Parameters are bytes, or words and pointers, and have the joined symbols of their names. -/
theorem passable_of_parameters {function : String} {ds : List Declaration} {n : Nat}
    {ps : List Parameter} (h : parameters function n ds = .ok ps) :
    ∀ p ∈ ps, p.type.byteCount = (if p.type.isWord then 2 else 1) ∧
      p.slot = joined function p.name := by
  induction ds generalizing n ps with
  | nil =>
    cases h
    simp
  | cons d ds ih =>
    obtain ⟨t, qs, ⟨hstruct, hvoid⟩, hqs, rfl⟩ := parameters_cons h
    refine List.forall_mem_cons.mpr ⟨⟨?_, rfl⟩, ih hqs⟩
    cases t with
    | void => exact absurd rfl hvoid
    | struct size => exact absurd rfl (hstruct size)
    | byte | word | pointer => rfl

theorem passable_of_signature {r : Routine} {σ : Signature} (h : r.signature = .ok σ) :
    ∀ p ∈ σ.params, p.type.byteCount = (if p.type.isWord then 2 else 1) ∧
      p.slot = joined r.name p.name :=
  passable_of_parameters (parameters_of_signature h).2

end Listing

namespace Location

@[simp] theorem register?_ofRegister (r : Register) : (ofRegister r).register? = some r := by
  unfold ofRegister
  split <;> rfl

@[simp] theorem touched?_ofRegister (r : Register) : (ofRegister r).touched? = some r := by
  unfold ofRegister
  split <;> rfl

@[simp] theorem same_ofRegister_self (r : Register) :
    (ofRegister r).same (ofRegister r) = true := by
  unfold ofRegister
  split <;> simp [same]

end Location

/-- Where a parameter arrives. -/
def Parameter.arrivesAt (p : Parameter) (arrival : Option Register) : Location :=
  match arrival with
  | some r => .ofRegister r
  | none => .memory p.slot 0 p.type.byteCount

namespace Site

variable {s : Site} {p : Parameter} {arrival : Option Register} {t : Location × Location}

/-- Where the variable of a parameter lives. -/
def homeOf (s : Site) (p : Parameter) (v : Variable) : Location :=
  match s.registers.get v with
  | some r => .ofRegister r
  | none => .memory v.label 0 p.type.byteCount

@[simp] theorem register?_homeOf (s : Site) (p : Parameter) (v : Variable) :
    (s.homeOf p v).register? = s.registers.get v := by
  unfold homeOf
  split
  · rename_i r hr
    rw [Location.register?_ofRegister, hr]
  · rename_i hr
    rw [hr]
    rfl

@[simp] theorem touched?_arrivesAt (p : Parameter) (arrival : Option Register) :
    (p.arrivesAt arrival).touched? = arrival := by
  cases arrival with
  | none => rfl
  | some r => exact Location.touched?_ofRegister r

/-- A parameter is transferred if it is used and does not arrive at its home. -/
theorem parameterTransfer?_eq_some_iff :
    Build.parameterTransfer? s p arrival = some t ↔
      ∃ v, s.function.parameterVariable? p = some v ∧ 0 ≤ (s.function.range v).first ∧
        (s.homeOf p v).same (p.arrivesAt arrival) = false ∧
          (s.homeOf p v, p.arrivesAt arrival) = t := by
  change (do
    let v ← s.function.parameterVariable? p
    guard (0 ≤ (s.function.range v).first)
    guard (!(s.homeOf p v).same (p.arrivesAt arrival))
    return (s.homeOf p v, p.arrivesAt arrival)) = some t ↔ _
  simp [Option.bind_eq_some_iff, Option.guard_eq_some']

/-- The transfers of the prologue. -/
def deliveries (s : Site) : List (Location × Location) :=
  (s.function.params.zip (s.function.signature.arrivals s.target.arch)).filterMap
    fun (p, arrival) =>
    Build.parameterTransfer? s p arrival

theorem mem_deliveries :
    t ∈ s.deliveries ↔ ∃ (i : Nat) (p : Parameter) (arrival : Option Register),
      s.function.params[i]? = some p ∧
      (s.function.signature.arrivals s.target.arch)[i]? = some arrival ∧
        Build.parameterTransfer? s p arrival = some t := by
  rw [deliveries, List.mem_filterMap]
  constructor
  · rintro ⟨⟨p, arrival⟩, hmem, ht⟩
    obtain ⟨i, hi⟩ := List.mem_iff_getElem?.mp hmem
    obtain ⟨hp, harrival⟩ := List.getElem?_zip_eq_some.mp hi
    exact ⟨i, p, arrival, hp, harrival, ht⟩
  · rintro ⟨i, p, arrival, hp, harrival, ht⟩
    exact ⟨(p, arrival), List.mem_of_getElem? (List.getElem?_zip_eq_some.mpr ⟨hp, harrival⟩), ht⟩

end Site

/-- The site of the prologue of a function, with the registers that the allocation gives out. -/
def Function.entry (f : Function) (target : Target) : Site :=
  ⟨target, f, f.allocate target.arch.machine (f.signature.arrivals target.arch), 0, none⟩

/-- **Parameters arrive undisturbed.** -/
structure Function.Settled (f : Function) (target : Target) : Prop where
  /-- Each parameter has an arrival register, or none. -/
  length : (f.signature.arrivals target.arch).length = f.params.length
  /-- No two parameters arrive in conflicting registers. -/
  apart : (f.signature.arrivals target.arch).Pairwise fun x y => Register.clash x y = false
  /-- A parameter arrives in a register of its width. -/
  width : ∀ (i : Nat) (p : Parameter) (r : Register), f.params[i]? = some p →
    (f.signature.arrivals target.arch)[i]? = some (some r) → r.width = p.type.byteCount
  /-- A parameter that is used lives in memory, where it arrives, or in a register that conflicts
  with no arrival. -/
  home : ∀ (i : Nat) (p : Parameter) (v : Variable), f.params[i]? = some p →
    f.parameterVariable? p = some v →
    0 ≤ (f.range v).first → ∀ r, (f.entry target).registers.get v = some r →
      (f.signature.arrivals target.arch)[i]? = some (some r) ∨
        ∀ o, some o ∈ f.signature.arrivals target.arch → r.conflicts o = false
  /-- One that points to an aggregate does not stay where it arrives. -/
  aggregate : ∀ (i : Nat) (p : Parameter) (v : Variable), f.params[i]? = some p →
    f.parameterVariable? p = some v →
    p.type.isAggregatePointer = true → ∀ r, (f.entry target).registers.get v = some r →
      (f.signature.arrivals target.arch)[i]? ≠ some (some r)
  /-- No source has to be saved before the transfers, whichever register comes last. -/
  unsaved : ∀ last, ∃ order,
    ParallelMove.order ((f.entry target).deliveries.map Build.toParallelMove) last = .ok (order, [])

namespace Function

variable {f : Function} {target : Target} {i : Nat} {p : Parameter} {v : Variable}

/-- The variable of a parameter carries its position. -/
theorem parameter_of_parameterVariable? (hparams : Listing.NumberedFrom 0 f.params)
    (hp : f.params[i]? = some p)
    (hv : f.parameterVariable? p = some v) : v ∈ f.vars ∧ v.parameter = some i := by
  have hindex : p.index = i := by simpa using hparams i p hp
  have hfound := List.find?_some hv
  exact ⟨List.mem_of_find?_eq_some hv, by simpa [hindex] using hfound⟩

/-- **Where the variables of parameters live.** -/
theorem settles_allocate (hf : f.Indexed) (hv : v ∈ f.vars) {r : Register}
    (hr : (f.entry target).registers.get v = some r) :
    Settles (f.signature.arrivals target.arch) v r := by
  obtain ⟨_, hg⟩ := exists_gives hf hv hr
  exact hg.settles

/-- A transfer writes memory, or a register in which no parameter arrives. -/
theorem conflicts_of_mem_deliveries (hf : f.Indexed) (hparams : Listing.NumberedFrom 0 f.params)
    {t : Location × Location} (ht : t ∈ (f.entry target).deliveries) {r : Register}
    (hr : t.1.register? = some r)
    {o : Register} (ho : some o ∈ f.signature.arrivals target.arch) : r.conflicts o = false := by
  obtain ⟨i, p, arrival, hp, harrival, ht⟩ := Site.mem_deliveries.mp ht
  obtain ⟨v, hv, -, hsame, rfl⟩ := Site.parameterTransfer?_eq_some_iff.mp ht
  rw [Site.register?_homeOf] at hr
  obtain ⟨hmem, hi⟩ := parameter_of_parameterVariable? hparams hp hv
  rcases settles_allocate hf hmem hr i hi with ⟨hkept, -⟩ | hfree
  · -- a parameter that arrives at its home is not moved
    obtain rfl : arrival = some r := Option.some.inj (harrival.symm.trans hkept)
    simp [Site.homeOf, hr, Parameter.arrivesAt] at hsame
  · exact hfree o ho

/-- A transfer reads nothing but the register in which its parameter arrives. -/
theorem mem_arrivals_of_mem_deliveries {t : Location × Location}
    (ht : t ∈ (f.entry target).deliveries) {r : Register}
    (hr : r ∈ Build.readsOf t.2) : some r ∈ f.signature.arrivals target.arch := by
  obtain ⟨i, p, arrival, -, harrival, ht⟩ := Site.mem_deliveries.mp ht
  obtain ⟨v, -, -, -, rfl⟩ := Site.parameterTransfer?_eq_some_iff.mp ht
  obtain rfl : arrival = some r := by simpa [Build.readsOf] using hr
  exact List.mem_of_getElem? harrival

/-- No transfer of the prologue overwrites what one reads. -/
theorem not_overwrites_of_mem_deliveries (hf : f.Indexed)
    (hparams : Listing.NumberedFrom 0 f.params)
    {t u : Location × Location} (ht : t ∈ (f.entry target).deliveries)
    (hu : u ∈ (f.entry target).deliveries) :
    (Build.toParallelMove t).overwrites (Build.toParallelMove u) = false := by
  rw [Bool.eq_false_iff]
  intro hover
  obtain ⟨d, hd, r, hr, hconflicts⟩ := ParallelMove.overwrites_iff.mp hover
  have hfree := conflicts_of_mem_deliveries hf hparams ht hd (mem_arrivals_of_mem_deliveries hu hr)
  rw [Register.conflicts_comm, hfree] at hconflicts
  cases hconflicts

end Function

/-- **Parameters of functions that were read arrive undisturbed.** -/
theorem Listing.settled_of_build {l : Listing} {p : Program} (h : l.build = .ok p) {f : Function}
    (hf : f ∈ p.functions) (target : Target) : f.Settled target := by
  obtain ⟨routine, -, σ, hσ, hreads⟩ := function_of_build h hf
  obtain rfl : f.signature = σ := hreads.signature_eq hσ
  have hindexed := indexed_of_build h hf
  have hparams : NumberedFrom 0 f.params := numbered_signature hσ
  constructor
  case length => exact Arch.length_arrivalsAfter.trans (List.length_map _)
  case apart => exact Arch.pairwise_arrivalsAfter
  case width =>
    intro i q r hq hr
    have htype : (f.signature.params.map (·.type))[i]? = some q.type :=
      (List.getElem?_map ..).trans (congrArg (Option.map (·.type)) hq)
    have hpassed := Arch.mem_parameters_of_arrivalsAfter htype hr
    have hcount := (passable_of_signature hσ q (List.mem_of_getElem? hq)).1
    obtain ⟨hbytes, hwords⟩ := target.arch.width_parameters
    rw [hcount]
    unfold Arch.passing at hpassed
    split at hpassed
    · rename_i hword
      rw [if_pos hword, hwords r hpassed]
      rfl
    · rename_i hbyte
      rw [if_neg hbyte, hbytes r hpassed]
      rfl
  case home =>
    intro i q v hq hv _ r hr
    obtain ⟨hmem, hi⟩ := Function.parameter_of_parameterVariable? hparams hq hv
    exact (Function.settles_allocate hindexed hmem hr i hi).imp_left (·.1)
  case aggregate =>
    intro i q v hq hv haggregate r hr harrival
    obtain ⟨hmem, hi⟩ := Function.parameter_of_parameterVariable? hparams hq hv
    obtain rfl :=
      Option.some.inj ((hreads.parameterVariable?_eq hσ (List.mem_of_getElem? hq)).symm.trans hv)
    rcases Function.settles_allocate hindexed hmem hr i hi with ⟨-, hscalar⟩ | hfree
    · exact absurd (haggregate.symm.trans hscalar) (by decide)
    · have hself := hfree r (List.mem_of_getElem? harrival)
      rw [Register.conflicts_self] at hself
      cases hself
  case unsaved =>
    intro last
    obtain ⟨order, saves, horder, hschedule⟩ :=
      ParallelMove.exists_order ((f.entry target).deliveries.map Build.toParallelMove) last
    obtain rfl := hschedule.saves_eq_nil fun x hx y hy => by
      have hx := List.mem_of_getElem? (ParallelMove.mem_pendings.mp hx)
      have hy := List.mem_of_getElem? (ParallelMove.mem_pendings.mp hy)
      obtain ⟨t, ht, htx⟩ := List.mem_map.mp hx
      obtain ⟨u, hu, huy⟩ := List.mem_map.mp hy
      exact htx ▸ huy ▸ Function.not_overwrites_of_mem_deliveries hindexed hparams ht hu
    exact ⟨order, horder⟩

namespace Arrivals

/-- A function with a pointer to an aggregate, a byte and a word. -/
def mixedListing : Listing where
  globals := [⟨"g", "byte"⟩]
  externs := []
  functions :=
    [{  name := "f"
        params := [⟨"p", "ptr:struct:4"⟩, ⟨"b", "byte"⟩, ⟨"w", "word"⟩]
        result := "word"
        vars := []
        code :=
          [ { op := "load", dest := "g", left := "b" },
            { op := "load", dest := "w", left := "p" },
            { op := "return", left := "w" } ] }]

/-- The global byte. -/
def global : Variable := ⟨0, true, "g", "g", .byte false, none⟩

/-- The pointer. -/
def aggregate : Parameter := ⟨0, "p", .pointer (.struct 4), "f_p"⟩

/-- The byte. -/
def byte : Parameter := ⟨1, "b", .byte false, "f_b"⟩

/-- The word. -/
def word : Parameter := ⟨2, "w", .word false, "f_w"⟩

open Listing in
/-- The function of `mixedListing`. -/
def mixed : Function where
  name := "f"
  params := [aggregate, byte, word]
  result := .word false
  vars := [parameterVariable aggregate, parameterVariable byte, parameterVariable word]
  code :=
    [ .load (.whole global) (.whole (parameterVariable byte)),
      .load (.whole (parameterVariable word)) (.whole (parameterVariable aggregate)),
      .ret (some (.whole (parameterVariable word))) ]
  ranges := [⟨[2], some (0, 2)⟩, ⟨[1], some (0, 1)⟩, ⟨[2, 3], some (0, 2)⟩]

/-- The pointer arrives in `ax`, and its transfer comes first. -/
theorem settled_mixed :
    mixedListing.build = .ok ⟨[global], [], [], [mixed]⟩ ∧
      mixed.signature.arrivals .mos6502 = [some Mos.ax, some Mos.y, none] ∧
      (mixed.entry Arch.mos6502.target).deliveries.length = 2 ∧
      (mixed.entry Arch.mos6502.target).registers.get (Listing.parameterVariable aggregate) =
        some Mos.zeroWords[0] ∧
      (∀ o, some o ∈ mixed.signature.arrivals .mos6502 → Mos.zeroWords[0].conflicts o = false) ∧
      ∃ order,
        ParallelMove.order ((mixed.entry Arch.mos6502.target).deliveries.map Build.toParallelMove)
          (some Mos.a) =
        .ok (order, []) := by
  have hbuild : mixedListing.build = .ok ⟨[global], [], [], [mixed]⟩ := by cbv
  have hsettled := Listing.settled_of_build hbuild (List.mem_singleton.mpr rfl) Arch.mos6502.target
  have harrivals : mixed.signature.arrivals .mos6502 = [some Mos.ax, some Mos.y, none] := by decide
  have hhome : (mixed.entry Arch.mos6502.target).registers.get
    (Listing.parameterVariable aggregate) = some Mos.zeroWords[0] := by decide +kernel
  refine ⟨hbuild, harrivals, by decide +kernel, hhome, ?_, hsettled.unsaved _⟩
  refine (hsettled.home 0 aggregate _ rfl (by decide) (by decide) _ hhome).resolve_left ?_
  exact hsettled.aggregate 0 aggregate _ rfl (by decide) (by decide) _ hhome

end Arrivals

end Octet
