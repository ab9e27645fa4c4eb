import Octet.Proofs.Arrivals
import Octet.Proofs.Emitted.Compilation
import Octet.Proofs.Generated.Transfers
import Octet.Proofs.LeastRange
import Octet.Proofs.WellFormed

/-!
# Where parameters live

A parameter that is mentioned at all is wanted from the prologue on. So its register is occupied
there, and no two parameters in use live in conflicting registers. No two share a slot either:
parameters may have the same name, but the name then means only the last of them. What is left to
ask is that no slot is named like a cell of the machine.

Wherever a parameter lives or arrives, it is a byte or a word that the code can move: in registers
of the processor, in a cell, or in its slot.

## Main definitions

* `Function.Receiving`, `Function.Receives` — what is known of parameters, and parameters in use
* `Function.Stored`, `Function.Storage` — parameters in memory, and the bytes where they are
* `Function.NamedApart` — slots are named apart from what the machine and the compiler use
* `Setting.Enters` — the setting of a prologue
* `Setting.home`, `Setting.homeRegister?` — where a parameter lives

## Main results

* `Listing.receiving_of_build` — what is known of the parameters of functions that were read
* `Setting.Enters.occupied`, `Setting.Enters.conflicts_homes` — registers of parameters in use
* `Setting.Enters.holds_home`, `Setting.Enters.holds_arrival` — parameters can be moved
-/

namespace Octet

open Build (temporaryName saveCellName)
open Listing (NumberedFrom parameterVariable)

/-! ### Parameters in use -/

namespace Function

/-- What reading a function says about its parameters. -/
structure Receiving (f : Function) : Prop where
  read : f.Read
  numbered : NumberedFrom 0 f.params
  received : ∀ q ∈ f.params, f.parameterVariable? q = some (parameterVariable q)
  byteCount : ∀ q ∈ f.params, q.type.byteCount = if q.type.isWord then 2 else 1
  /-- No two parameters in use share their slot, as a name means only one of them. -/
  slots : ∀ q ∈ f.params, ∀ q' ∈ f.params, f.usages (parameterVariable q) ≠ [] →
    f.usages (parameterVariable q') ≠ [] → q.slot = q'.slot → q.index = q'.index

/-- **A parameter in use**, at its position. -/
structure Receives (f : Function) (i : Nat) (q : Parameter) : Prop where
  param : f.params[i]? = some q
  used : 0 ≤ (f.range (parameterVariable q)).first

section Ranges

variable {f : Function} {i j : Nat} {q q' : Parameter}

theorem type_of_param (hq : f.params[i]? = some q) :
    (f.signature.params.map (·.type))[i]? = some q.type :=
  (List.getElem?_map ..).trans (congrArg (Option.map (·.type)) hq)

theorem mem_passing {m : Arch} {o : Register} (hq : f.params[i]? = some q)
    (ho : (f.signature.arrivals m)[i]? = some (some o)) : o ∈ m.passing q.type :=
  Arch.mem_parameters_of_arrivalsAfter (type_of_param hq) ho

theorem Receiving.isWord (hf : f.Receiving) (hq : q ∈ f.params) (h : (q.type.byteCount : Int) = 2) :
    q.type.isWord = true := by
  have hcount := hf.byteCount q hq
  split at hcount
  · assumption
  · omega

theorem Receives.mem (h : f.Receives i q) : q ∈ f.params := List.mem_of_getElem? h.param

theorem Receives.index (hf : f.Receiving) (h : f.Receives i q) : q.index = i := by
  simpa using hf.numbered i q h.param

theorem Receives.mem_vars (hf : f.Receiving) (h : f.Receives i q) : parameterVariable q ∈ f.vars :=
  List.mem_of_find?_eq_some (hf.received q h.mem)

theorem Receives.usages_ne_nil (hf : f.Receiving) (h : f.Receives i q) :
    f.usages (parameterVariable q) ≠ [] := by
  intro hu
  have hused := h.used
  rw [hf.read.range_eq (h.mem_vars hf), rangeOf_of_unused hu] at hused
  cases hused

/-- The range of a parameter in use begins at the prologue and goes on. -/
theorem Receives.range (hf : f.Receiving) (h : f.Receives i q) :
    (f.range (parameterVariable q)).first = 0 ∧ 1 ≤ (f.range (parameterVariable q)).last := by
  rw [hf.read.range_eq (h.mem_vars hf)]
  have husages := usages_rangeOf (f := f) (v := parameterVariable q)
  cases hu : f.usages (parameterVariable q) with
  | nil => exact absurd hu (h.usages_ne_nil hf)
  | cons u us =>
    refine ⟨?_, ?_⟩
    · rw [rangeOf_eq, LiveRange.first_closed, first_mentionRange hu]
      rfl
    · rw [hu] at husages
      have hlast : (u :: us).getLastD (-1) ∈ f.usages (parameterVariable q) := by
        rw [hu, List.getLastD_eq_getLast?, List.getLast?_eq_some_getLast (List.cons_ne_nil u us),
          Option.getD_some]
        exact List.getLast_mem _
      have hpos := one_le_of_mem_usages hlast
      unfold LiveRange.last
      rw [husages]
      split
      · exact hpos.trans (le_max_right ..)
      · exact hpos

theorem Receives.intersects (hf : f.Receiving) (h : f.Receives i q) (h' : f.Receives j q') :
    (f.range (parameterVariable q)).intersects (f.range (parameterVariable q')) = true := by
  obtain ⟨hfirst, hlast⟩ := h.range hf
  obtain ⟨hfirst', hlast'⟩ := h'.range hf
  have hlt : (0 : Int) < min (f.range (parameterVariable q)).last
      (f.range (parameterVariable q')).last := by omega
  simp [LiveRange.intersects, hfirst, hfirst', hlt]

end Ranges

end Function

namespace Listing

variable {l : Listing} {p : Program} {f : Function}

/-- A variable that is mentioned is the one that its name means. -/
theorem Routine.Reads.find?_name {r : Routine} {globals : List Variable} {callees : List Signature}
    {σ : Signature} (h : r.Reads globals callees σ f) {v : Variable} (hv : f.usages v ≠ []) :
    (⟨r.name, σ.result, globals, f.vars, callees⟩ : Scope).find? v.name = some v := by
  obtain ⟨a, ha⟩ := List.exists_mem_of_ne_nil _ hv
  obtain ⟨n, i, hi, ⟨o, ho, hmentioned⟩, -⟩ := Function.mem_usages.mp ha
  obtain ⟨e, -, hread⟩ := exists_of_forall₂_right h.code (Function.mem_code_of_at? hi)
  obtain ⟨text, -, hreads⟩ := hread.reads ho
  exact hreads.find?_name hmentioned

theorem receiving_of_build (h : l.build = .ok p) (hf : f ∈ p.functions) : f.Receiving := by
  obtain ⟨r, -, σ, hσ, hreads⟩ := function_of_build h hf
  obtain rfl : f.signature = σ := hreads.signature_eq hσ
  have hpassable := passable_of_signature hσ
  refine ⟨read_of_build h hf, numbered_signature hσ, fun q hq => hreads.parameterVariable?_eq hσ hq,
    fun q hq => (hpassable q hq).1, fun q hq q' hq' hu hu' hslot => ?_⟩
  rw [(hpassable q hq).2, (hpassable q' hq').2] at hslot
  have hname : q.name = q'.name := joined_right_injective r.name hslot
  have hfind := hreads.find?_name hu
  rw [show (parameterVariable q).name = (parameterVariable q').name from hname,
    hreads.find?_name hu'] at hfind
  exact congrArg Variable.index (Option.some.inj hfind.symm)

end Listing

/-! ### Memory -/

namespace Function

/-- A parameter in use that lives or arrives in memory. -/
structure Stored (f : Function) (m : Arch) (i : Nat) (q : Parameter) :
    Prop extends f.Receives i q where
  memory : (f.registersOn m).get (parameterVariable q) = none ∨
    (f.signature.arrivals m)[i]? = some none

/-- **The memory of parameters**: the slots of those that live or arrive in memory, and the cells of
the machine. -/
def Storage (f : Function) (m : Arch) (n : String) (o : Int) : Prop :=
  (∃ i q, f.Stored m i q ∧ n = q.slot ∧ 0 ≤ o ∧ o < q.type.byteCount) ∨
    ∃ r ∈ m.cells, n = r.address ∧ 0 ≤ o ∧ o < r.width

/-- **The slots of parameters are named apart** from what the machine and the compiler use. -/
structure NamedApart (f : Function) (m : Arch) : Prop where
  cells : ∀ q ∈ f.params, ∀ r ∈ m.cells, q.slot ≠ r.address
  scratch : ∀ q ∈ f.params, ∀ i, q.slot ≠ temporaryName i ∧ q.slot ≠ saveCellName i

end Function

theorem Arch.mem_cells {m : Arch} {r : Register} (hr : r ∈ m.registers) (hcell : r.isCell = true) :
    r ∈ m.cells := by
  have hall : ∀ r ∈ m.registers, r.isCell = true → r ∈ m.cells := by cases m <;> decide
  exact hall r hr hcell

/-! ### Bytes of registers -/

namespace Location

theorem mem_bytes_of_memory {l : Location} {n : String} {o : Int} {home : Option Register}
    {p : Place}
    (hl : l.place = .memory n o home) (hp : p ∈ l.bytes) : ∃ o' home', p = .memory n o' home' := by
  obtain ⟨i, hi, hp⟩ := List.mem_filterMap.mp hp
  obtain ⟨b, hb, rfl⟩ := Option.map_eq_some_iff.mp hp
  unfold byte? at hb
  split at hb
  · rename_i hw
    have hi : i = 0 := by
      have hlt := List.mem_range.mp hi
      rw [beq_iff_eq.mp hw] at hlt
      simpa using hlt
    have hb : l = b := by simpa [hi] using hb
    exact ⟨o, home, hb ▸ hl⟩
  · rw [hl] at hb
    exact ⟨_, _, by rw [← Option.some.inj hb]⟩

theorem place_ofRegister (r : Register) :
    (ofRegister r).place = if r.isCell then .memory r.address 0 (some r) else .register
      (some r) := by
  unfold ofRegister
  split <;> rfl

theorem width_ofRegister (r : Register) : (ofRegister r).width = r.width := by
  unfold ofRegister
  split <;> rfl

/-- The bytes of a register are its units, or bytes of the cell. -/
theorem mem_bytes_ofRegister {r : Register} {p : Place} (hp : p ∈ (ofRegister r).bytes) :
    (r.isCell = false ∧ ∃ u ∈ r.units, p = .register (some u)) ∨
      (r.isCell = true ∧ ∃ o home, p = .memory r.address o home) := by
  cases r with
  | cell id name width address pointer => exact .inr ⟨rfl, mem_bytes_of_memory rfl hp⟩
  | byte id name pointer =>
    rw [bytes_of_byte rfl] at hp
    exact .inl ⟨rfl, _, .head _, List.mem_singleton.mp hp⟩
  | pair id name low high pointer =>
    have hbytes : (ofRegister (.pair id name low high pointer)).bytes =
        [.register (some low), .register (some high)] := rfl
    rw [hbytes] at hp
    refine .inl ⟨rfl, ?_⟩
    simpa [Register.units, Register.isPair, Register.parts] using hp

end Location

theorem Register.conflicts_unit {r u : Register} (hu : u ∈ r.units) : r.conflicts u = true := by
  rw [conflicts_iff]
  unfold units at hu
  split at hu
  · exact .inr (.inl hu)
  · exact .inl (List.mem_singleton.mp hu).symm

/-- The registers of a machine are bytes of its processor, pairs of them, and cells. -/
theorem Arch.registers_cases {m : Arch} {r : Register} (hr : r ∈ m.registers) :
    r ∈ m.bytes ∨ (∃ low high, (r, low, high) ∈ m.pairs) ∨ r ∈ m.cells := by
  have hall : ∀ r ∈ m.registers, r ∈ m.bytes ∨ (∃ t ∈ m.pairs, t.1 = r) ∨ r ∈ m.cells := by
    cases m <;> decide
  rcases hall r hr with hbyte | ⟨⟨_, low, high⟩, hpair, rfl⟩ | hcell
  · exact .inl hbyte
  · exact .inr (.inl ⟨low, high, hpair⟩)
  · exact .inr (.inr hcell)

theorem Arch.width_registers (m : Arch) : (∀ r ∈ m.bytes, r.width = 1 ∧ r.isCell = false) ∧
    (∀ t ∈ m.pairs, t.1.width = 2 ∧ t.1.isCell = false) ∧
      ∀ r ∈ m.cells, r.isCell = true ∧ (r.width = 1 ∨ r.width = 2) := by
  cases m <;> decide

/-! ### Homes -/

namespace Setting

/-- **The setting of a prologue.** -/
structure Enters (S : Setting) (f : Function) : Prop where
  site : S.site = f.entry S.site.target
  owns : ∀ n o, f.Storage S.arch n o → S.owns n o
  named : f.NamedApart S.arch
  receiving : f.Receiving

/-- Where a parameter lives. -/
def home (S : Setting) (q : Parameter) : Location := S.site.homeOf q (parameterVariable q)

/-- The register in which a parameter lives. -/
def homeRegister? (S : Setting) (q : Parameter) : Option Register :=
  S.site.registers.get (parameterVariable q)

section Homes

variable {S : Setting} {q : Parameter} {r u : Register} {p : Place}

theorem home_of_some (h : S.homeRegister? q = some r) :
    S.home q = .ofRegister r := by
  unfold home Site.homeOf
  rw [← homeRegister?, h]

theorem home_of_none (h : S.homeRegister? q = none) :
    S.home q = .memory q.slot 0 q.type.byteCount := by
  unfold home Site.homeOf
  rw [← homeRegister?, h]
  rfl

theorem register_mem_home (hp : .register (some u) ∈ (S.home q).bytes) :
    ∃ r, S.homeRegister? q = some r ∧ r.isCell = false ∧ u ∈ r.units := by
  cases hr : S.homeRegister? q with
  | none =>
    rw [home_of_none hr] at hp
    obtain ⟨_, _, h⟩ := Location.mem_bytes_of_memory rfl hp
    cases h
  | some r =>
    rw [home_of_some hr] at hp
    rcases Location.mem_bytes_ofRegister hp with ⟨hcell, u', hu', h⟩ | ⟨-, _, _, h⟩
    · cases h
      exact ⟨r, rfl, hcell, hu'⟩
    · cases h

theorem memory_mem_home {n : String} {k : Int} {cell : Option Register}
    (hp : .memory n k cell ∈ (S.home q).bytes) :
    (S.homeRegister? q = none ∧ n = q.slot) ∨ ∃ r, S.homeRegister? q = some r ∧ r.isCell = true ∧
      n = r.address := by
  cases hr : S.homeRegister? q with
  | none =>
    rw [home_of_none hr] at hp
    obtain ⟨_, _, h⟩ := Location.mem_bytes_of_memory rfl hp
    cases h
    exact .inl ⟨rfl, rfl⟩
  | some r =>
    rw [home_of_some hr] at hp
    rcases Location.mem_bytes_ofRegister hp with ⟨-, _, _, h⟩ | ⟨hcell, _, _, h⟩
    · cases h
    · cases h
      exact .inr ⟨r, rfl, hcell, rfl⟩

/-- The bytes of a parameter in a register of the processor are registers. -/
theorem mem_bytes_home (hr : S.homeRegister? q = some r) (hcell : r.isCell = false)
    (hp : p ∈ (S.home q).bytes) :
    ∃ u, p = .register (some u) := by
  rw [home_of_some hr] at hp
  rcases Location.mem_bytes_ofRegister hp with ⟨-, u, -, h⟩ | ⟨hcell', -⟩
  · exact ⟨u, h⟩
  · rw [hcell] at hcell'
    cases hcell'

end Homes

namespace Enters

variable {S : Setting} {f : Function} {w : Work} {i j : Nat} {q q' : Parameter} {r r' o : Register}
  {arrival : Option Register} {p : Place} (hS : S.Enters f)

include hS

theorem function_eq : S.site.function = f := by rw [hS.site]; rfl

theorem registers_eq :
    S.site.registers = f.allocate S.arch.machine (f.signature.arrivals S.arch) := by
  rw [hS.site]
  rfl

theorem mem_registers (hq : f.Receives i q) (hr : S.homeRegister? q = some r) :
    r ∈ S.arch.registers ∧ r.width = q.type.byteCount := by
  rw [homeRegister?, hS.registers_eq] at hr
  have hmem := hq.mem_vars hS.receiving
  have hindexed := hS.receiving.read.indexed
  exact ⟨Function.mem_registers_of_allocate hindexed _ _ hmem hr,
    (Function.separates_allocate hindexed _ _).width _ hmem r hr⟩

/-- The register of a parameter in use is occupied. -/
theorem occupied (hq : f.Receives i q) (hr : S.homeRegister? q = some r) {u : Register}
    (hu : r.conflicts u = true) :
    S.occupied w u = true := by
  have hheld : S.site.heldBy none u (parameterVariable q) = true := by
    have hdest : S.site.dest? = none := by rw [hS.site]; rfl
    have haddress : S.site.address = 0 := by rw [hS.site]; rfl
    obtain ⟨hfirst, hlast⟩ := hq.range hS.receiving
    have hlast : 0 ≤ (f.range (parameterVariable q)).last := by omega
    have hlive : (f.range (parameterVariable q)).liveAt 0 = true := by
      simp [LiveRange.liveAt, hfirst, hlast]
    rw [homeRegister?] at hr
    simp [Site.heldBy, hr, hdest, haddress, hS.function_eq, hu, hlive, Register.clash]
  have hany : S.site.function.vars.any (S.site.heldBy none u) = true := by
    rw [hS.function_eq]
    exact List.any_eq_true.mpr ⟨_, hq.mem_vars hS.receiving, hheld⟩
  simp [Setting.occupied, Site.occupied, hany]

/-- Parameters in use live in registers that do not conflict. -/
theorem conflicts_homes (hq : f.Receives i q) (hq' : f.Receives j q') (hij : i ≠ j)
    (hr : S.homeRegister? q = some r) (hr' : S.homeRegister? q' = some r') :
    r.conflicts r' = false := by
  have hne : parameterVariable q ≠ parameterVariable q' := by
    intro h
    have hindex : q.index = q'.index := congrArg Variable.index h
    rw [hq.index hS.receiving, hq'.index hS.receiving] at hindex
    exact hij hindex
  have hapart :=
    (Function.separates_allocate hS.receiving.read.indexed S.arch.machine
      (f.signature.arrivals S.arch)).apart _
    (hq.mem_vars hS.receiving) _ (hq'.mem_vars hS.receiving) hne (hq.intersects hS.receiving hq')
  rwa [← hS.registers_eq, ← homeRegister?, ← homeRegister?, hr, hr'] at hapart

theorem slot_ne_slot (hq : f.Receives i q) (hq' : f.Receives j q') (hij : i ≠ j) :
    q.slot ≠ q'.slot := by
  intro h
  have hindex := hS.receiving.slots q hq.mem q' hq'.mem (hq.usages_ne_nil hS.receiving)
    (hq'.usages_ne_nil hS.receiving) h
  rw [hq.index hS.receiving, hq'.index hS.receiving] at hindex
  exact hij hindex

theorem slot_ne_address (hq : f.Receives i q) (hq' : f.Receives j q')
    (hr : S.homeRegister? q' = some r) (hcell : r.isCell = true) : q.slot ≠ r.address :=
  hS.named.cells q hq.mem r (Arch.mem_cells (hS.mem_registers hq' hr).1 hcell)

/-! ### Values of parameters -/

theorem holds_register (hr : r ∈ S.arch.registers) (w : Work) :
    S.Holds w (.ofRegister r) r.width := by
  obtain ⟨hbytes, hpairs, hcells⟩ := S.arch.width_registers
  have hplace := Location.place_ofRegister r
  have hwidth := Location.width_ofRegister r
  rcases Arch.registers_cases hr with hbyte | ⟨low, high, hpair⟩ | hcell
  · obtain ⟨hw, hc⟩ := hbytes r hbyte
    rw [hc] at hplace
    rw [hw] at hwidth ⊢
    exact .byte (hplace ▸ hbyte) hwidth
  · obtain ⟨hw, hc⟩ := hpairs _ hpair
    rw [show r.isCell = false from hc] at hplace
    rw [show r.width = 2 from hw] at hwidth ⊢
    have hword : S.Word w (Location.ofRegister r).place (.register (some low))
        (.register (some high)) := hplace ▸ .pair hpair
    exact .word hword hwidth
  · obtain ⟨hc, hw⟩ := hcells r hcell
    have hcell : ∀ o : Int, 0 ≤ o → o < r.width → S.Cell w r.address o := fun o h₀ h₁ =>
      .inl (hS.owns _ _ (.inr ⟨r, hcell, rfl, h₀, h₁⟩))
    rw [if_pos hc] at hplace
    rcases hw with hw | hw
    · rw [hw] at hwidth hcell ⊢
      refine .byte ?_ hwidth
      rw [hplace]
      exact ⟨hcell 0 (by decide) (by decide), fun q hq => Option.some.inj hq ▸ hc⟩
    · rw [hw] at hwidth hcell ⊢
      have hword : S.Word w (Location.ofRegister r).place (.memory r.address 0 none)
          (.memory r.address 1 none) := by
        rw [hplace]
        refine .memory (hcell 0 (by decide) (by decide)) (hcell 1 (by decide) (by decide))
          fun q hq => ?_
        cases hq
        exact ⟨hc, by simp [Register.isWord, hw]⟩
      exact .word hword hwidth

theorem holds_slot (hq : f.Stored S.arch i q) (w : Work) :
    S.Holds w (.memory q.slot 0 q.type.byteCount) q.type.byteCount := by
  have hcell : ∀ o : Int, 0 ≤ o → o < q.type.byteCount → S.Cell w q.slot o := fun o h₀ h₁ =>
    .inl (hS.owns _ _ (.inl ⟨i, q, hq, rfl, h₀, h₁⟩))
  have hcount := hS.receiving.byteCount q hq.mem
  generalize q.type.byteCount = n at hcount hcell
  split at hcount
  · subst hcount
    exact .word (.memory (hcell 0 (by decide) (by decide)) (hcell 1 (by decide) (by decide))
      (by simp)) rfl
  · subst hcount
    exact .byte ⟨hcell 0 (by decide) (by decide), by simp⟩ rfl

theorem holds_home (hq : f.Receives i q) (w : Work) : S.Holds w (S.home q) q.type.byteCount := by
  cases hr : S.homeRegister? q with
  | none =>
    rw [home_of_none hr]
    rw [homeRegister?, hS.registers_eq] at hr
    exact hS.holds_slot ⟨hq, .inl hr⟩ w
  | some r =>
    obtain ⟨hmem, hwidth⟩ := hS.mem_registers hq hr
    rw [home_of_some hr, ← hwidth]
    exact hS.holds_register hmem w

theorem registers_of_passing (ho : o ∈ S.arch.passing q.type) (hq : q ∈ f.params) :
    o ∈ S.arch.registers ∧ o.isCell = false ∧ o.width = q.type.byteCount := by
  have hall : (∀ o ∈ S.arch.byteParameters, o ∈ S.arch.registers ∧ o.isCell = false ∧ o.width = 1) ∧
      ∀ o ∈ S.arch.wordParameters, o ∈ S.arch.registers ∧ o.isCell = false ∧ o.width = 2 := by
        cases S.arch <;> decide
  rw [hS.receiving.byteCount q hq]
  unfold Arch.passing at ho
  split at ho
  · rename_i hword
    rw [if_pos hword]
    exact hall.2 o ho
  · rename_i hbyte
    rw [if_neg hbyte]
    exact hall.1 o ho

theorem holds_arrival (hq : f.Receives i q)
    (harrival : (f.signature.arrivals S.arch)[i]? = some arrival) (w : Work) :
    S.Holds w (q.arrivesAt arrival) q.type.byteCount := by
  cases arrival with
  | none => exact hS.holds_slot ⟨hq, .inr harrival⟩ w
  | some o =>
    obtain ⟨hregister, -, hwidth⟩ :=
      hS.registers_of_passing (Function.mem_passing hq.param harrival) hq.mem
    rw [← hwidth]
    exact hS.holds_register hregister w

/-- The bytes of a parameter that arrives in a register are registers. -/
theorem mem_bytes_arrival (hq : f.params[i]? = some q)
    (ho : (f.signature.arrivals S.arch)[i]? = some (some o))
    (hp : p ∈ (q.arrivesAt (some o)).bytes) : ∃ u ∈ o.units, p = .register (some u) := by
  obtain ⟨-, hcell, -⟩ := hS.registers_of_passing (Function.mem_passing hq ho)
    (List.mem_of_getElem? hq)
  rcases Location.mem_bytes_ofRegister hp with ⟨-, h⟩ | ⟨hcell', -⟩
  · exact h
  · rw [hcell] at hcell'
    cases hcell'

/-- A parameter that is not transferred lives where it arrives. -/
theorem eq_of_same (hq : f.Receives i q)
    (harrival : (f.signature.arrivals S.arch)[i]? = some arrival)
    (hsame : (S.home q).same (q.arrivesAt arrival) = true) : S.home q = q.arrivesAt arrival := by
  have hplace : ∀ {o}, arrival = some o → (q.arrivesAt arrival).place = .register (some o) := by
    rintro o rfl
    obtain ⟨-, hcell, -⟩ := hS.registers_of_passing (Function.mem_passing hq.param harrival) hq.mem
    rw [Parameter.arrivesAt, Location.place_ofRegister, hcell]
    rfl
  cases hr : S.homeRegister? q with
  | none =>
    cases arrival with
    | none => exact home_of_none hr
    | some o =>
      rw [home_of_none hr] at hsame
      simp [Location.same, Location.memory, hplace rfl] at hsame
  | some r =>
    rw [home_of_some hr] at hsame ⊢
    cases arrival with
    | none =>
      cases hcell : r.isCell with
      | true =>
        have hname : r.address = q.slot := by
          have hplaces := (Bool.and_eq_true_iff.mp hsame).2
          rw [Location.place_ofRegister, if_pos hcell] at hplaces
          simpa [Parameter.arrivesAt, Location.memory] using hplaces
        exact absurd hname.symm (hS.slot_ne_address hq hq hr hcell)
      | false =>
        simp [Location.same, Location.place_ofRegister, hcell, Parameter.arrivesAt,
          Location.memory] at hsame
    | some o =>
      cases hcell : r.isCell with
      | true => simp [Location.same, Location.place_ofRegister, hcell, hplace rfl] at hsame
      | false =>
        have heq : r = o := by
          have hplaces := (Bool.and_eq_true_iff.mp hsame).2
          rw [Location.place_ofRegister, hcell, hplace rfl] at hplaces
          simpa using hplaces
        rw [heq]
        rfl

end Enters

end Setting

end Octet
