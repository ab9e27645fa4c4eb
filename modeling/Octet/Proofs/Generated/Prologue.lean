import Octet.Proofs.Generated.Homes

/-!
# The prologue delivers parameters

The prologue moves each parameter in use from where it arrives to where it lives, in the order of
the parameters. No transfer writes where another parameter waits, but a transfer may need a register
on its way, and takes one in which no variable lives. On the 8080 words go from `de` and `bc` to
memory through the accumulator, and on the 6502 words go from memory to the zero page through the
first free register. A later parameter may still be waiting in that register; such a parameter is
*crossed*, and may be lost. All others are delivered. On the 65816 words go through the wide
accumulator, in which only the first parameter arrives, and none is crossed.

## Main definitions

* `Site.relay?`, `Function.crossed` — registers on the way, and parameters that are crossed
* `Setting.Carries` — parameters that are transferred
* `Function.Delivered` — parameters are where they live

## Main results

* `Setting.Enters.clear_home`, `Setting.Enters.clear_arrival` — what transfers leave alone
* `Setting.Enters.emits_prologue` — the prologue of a function
* `Listing.prologue_delivers` — the prologue of every function that was read delivers parameters
-/

namespace Octet

open Assembly (Arg Instr Line Part)
open Build (temporaryName saveCellName)
open Listing (parameterVariable)

/-! ### Registers on the way -/

/-- The free register through which a transfer goes, if it needs one that is neither its source nor
its destination. -/
def Site.relay? (s : Site) (t : Location × Location) : Option Register :=
  let isFree (u : Register) : Bool := !s.occupied [] none u
  match s.target.arch, t.1.place, t.2.place with
  | .i8080, .memory .., .register r =>
    if r == some Intel.hl || r == some Intel.a then none else [Intel.a].find? isFree
  | .mos6502, .memory .., .memory .. => [Mos.a, Mos.x, Mos.y].find? isFree
  | _, _, _ => none

/-- **Whether a parameter is crossed**: an earlier one is transferred through the register in which
it waits. -/
def Function.crossed (f : Function) (target : Target) (j : Nat) : Bool :=
  let s := f.entry target
  let arrivals := f.signature.arrivals target.arch
  ((f.params.zip arrivals).take j).any fun (q, arrival) =>
    (Build.parameterTransfer? s q arrival).any fun t =>
      Register.clash (s.relay? t) (arrivals.getD j none)

/-! ### Transfers -/

namespace Setting

/-- **A parameter in use is transferred** from where it arrives to where it lives. -/
structure Carries (S : Setting) (f : Function) (i : Nat) (q : Parameter) (arrival : Option Register)
    (t : Location × Location) : Prop where
  receives : f.Receives i q
  arrives : (f.signature.arrivals S.arch)[i]? = some arrival
  apart : (S.home q).same (q.arrivesAt arrival) = false
  eq : t = (S.home q, q.arrivesAt arrival)

theorem occupied_eq {S : Setting} {w : Work} (hw : w.draft.reserved = []) (u : Register) :
    S.occupied w u = S.site.occupied [] none u := by
  rw [Setting.occupied, hw]

/-- Memory is moved through a register that is not occupied, if there is one. -/
theorem occupied_or_ne_relay {S : Setting} {w : Work} {u : Register} (hu : u ∈ S.arch.relays)
    (hclear : Register.clash (S.arch.relays.find? fun c => !S.occupied w c) (some u) = false) :
    S.occupied w u = true ∨ u ≠ S.relay w := by
  rw [Setting.relay]
  cases hfind : S.arch.relays.find? fun c => !S.occupied w c with
  | none => exact .inl (by simpa using List.find?_eq_none.mp hfind u hu)
  | some c =>
    right
    rintro rfl
    simp [hfind, Register.clash] at hclear

namespace Carries

variable {S : Setting} {f : Function} {i j : Nat} {q : Parameter} {o u : Register}
  {arrival : Option Register} {t : Location × Location}

/-- A parameter that is passed in memory is transferred into a register only. -/
theorem exists_homeRegister (hc : S.Carries f i q none t) : ∃ r, S.homeRegister? q = some r := by
  cases hr : S.homeRegister? q with
  | some r => exact ⟨r, rfl⟩
  | none =>
    have hapart := hc.apart
    rw [home_of_none hr] at hapart
    simp [Parameter.arrivesAt, Location.same, Location.memory] at hapart

/-- A transfer does not write the register of a unit that its destination does not conflict with. -/
theorem dest_ne {x : Place × Place} (hc : S.Carries f i q arrival t)
    (hx : x ∈ t.1.bytes.zip t.2.bytes)
    (hfree : ∀ r, S.homeRegister? q = some r → r.conflicts o = false) (hu : u ∈ o.units) :
    x.1 ≠ .register (some u) := by
  intro h
  have hmem := (List.of_mem_zip hx).1
  rw [h, hc.eq] at hmem
  obtain ⟨r, hr, -, hur⟩ := register_mem_home hmem
  have hconflicts := Register.conflicts_of_mem_units hur hu
  rw [hfree r hr] at hconflicts
  cases hconflicts

/-- A parameter in memory before one that arrives in a register for bytes is a word. -/
theorem isWord (hc : S.Carries f i q none t) (hij : i < j)
    (ho : (f.signature.arrivals S.arch)[j]? = some (some o)) (hbyte : o ∈ S.arch.byteParameters) :
    q.type.isWord = true := by
  by_contra hword
  refine Arch.notMem_passing_of_none (Function.type_of_param hc.receives.param) hc.arrives hij ho ?_
  rw [Arch.passing, if_neg hword]
  exact hbyte

end Carries

namespace Enters

variable {S : Setting} {f : Function} {w : Work} {i j : Nat} {q q' : Parameter} {r o u : Register}
  {arrival arrival' : Option Register} {t : Location × Location} {p : Place} (hS : S.Enters f)

include hS

theorem carries_iff (hq : f.params[i]? = some q)
    (harrival : (f.signature.arrivals S.arch)[i]? = some arrival) :
    Build.parameterTransfer? S.site q arrival = some t ↔ S.Carries f i q arrival t := by
  have hreceived := hS.receiving.received q (List.mem_of_getElem? hq)
  rw [Site.parameterTransfer?_eq_some_iff, hS.function_eq, hreceived]
  constructor
  · rintro ⟨v, hv, hused, hsame, rfl⟩
    cases hv
    exact ⟨⟨hq, hused⟩, harrival, hsame, rfl⟩
  · rintro ⟨⟨-, hused⟩, -, hsame, rfl⟩
    exact ⟨_, rfl, hused, hsame, rfl⟩

/-- A parameter is transferred into a register in which none arrives. -/
theorem conflicts_arrival (hc : S.Carries f i q arrival t) (hr : S.homeRegister? q = some r)
    (ho : some o ∈ f.signature.arrivals S.arch) : r.conflicts o = false := by
  have ht : t ∈ (f.entry S.site.target).deliveries := by
    refine Site.mem_deliveries.mpr ⟨i, q, arrival, hc.receives.param, hc.arrives, ?_⟩
    have htransfer := (hS.carries_iff hc.receives.param hc.arrives).mpr hc
    rwa [hS.site] at htransfer
  refine Function.conflicts_of_mem_deliveries hS.receiving.read.indexed
    hS.receiving.numbered ht ?_ ho
  rw [hc.eq, home, Site.register?_homeOf]
  exact hr

theorem not_isPair (hc : S.Carries f i q none t) (hr : S.homeRegister? q = some r)
    {low high : Register} :
    (r, low, high) ∉ S.arch.pairs := by
  intro hpair
  have hpassed : ∀ t ∈ S.arch.pairs, t.1 ∈ S.arch.wordParameters ∧ t.1.width = 2 := by
    cases S.arch <;> decide
  obtain ⟨hmem, hwidth⟩ := hpassed _ hpair
  have hword : q.type.isWord = true :=
    hS.receiving.isWord hc.receives.mem ((hS.mem_registers hc.receives hr).2.symm.trans hwidth)
  obtain ⟨o, ho, hconflicts⟩ :=
    Arch.exists_conflicts_of_none (Function.type_of_param hc.receives.param) hc.arrives
    (show r ∈ S.arch.passing q.type by rw [Arch.passing, if_pos hword]; exact hmem)
  rw [hS.conflicts_arrival hc hr ho] at hconflicts
  cases hconflicts

/-- **The transfers of a prologue can be made.** -/
theorem movable (hc : S.Carries f i q arrival t) (w : Work) : S.Movable w t := by
  rw [hc.eq]
  refine ⟨⟨_, hS.holds_home hc.receives w, hS.holds_arrival hc.receives hc.arrives w⟩,
    fun hwidth hreg => ?_⟩
  cases arrival with
  | some o =>
    obtain ⟨-, hcell, -⟩ :=
      hS.registers_of_passing (Function.mem_passing hc.receives.param hc.arrives) hc.receives.mem
    simp [Location.isRegister, Parameter.arrivesAt, Location.place_ofRegister, hcell]
  | none =>
    obtain ⟨r, hr⟩ := hc.exists_homeRegister
    dsimp only at hwidth hreg
    rw [home_of_some hr] at hwidth hreg
    rw [Location.width_ofRegister] at hwidth
    obtain ⟨hbytes, -, hcells⟩ := S.arch.width_registers
    rcases Arch.registers_cases (hS.mem_registers hc.receives hr).1 with hbyte |
      ⟨low, high, hpair⟩ | hcell
    · rw [(hbytes r hbyte).1] at hwidth
      cases hwidth
    · exact absurd hpair (hS.not_isPair hc hr)
    · simp [Location.isRegister, Location.place_ofRegister, (hcells r hcell).1] at hreg

/-- A register is written by a transfer only while it is occupied. -/
theorem occupied_dest (hc : S.Carries f i q arrival t) (hr : t.1.place = .register (some r))
    (hu : r.conflicts u = true) :
    S.occupied w u = true := by
  rw [hc.eq] at hr
  cases hhome : S.homeRegister? q with
  | none =>
    rw [home_of_none hhome] at hr
    cases hr
  | some r' =>
    rw [home_of_some hhome, Location.place_ofRegister] at hr
    split at hr
    · cases hr
    · cases hr
      exact hS.occupied hc.receives hhome hu

/-- No parameter is transferred into the accumulator. -/
theorem not_conflicts_acc (hc : S.Carries f i q arrival t) (hr : S.homeRegister? q = some r) :
    r.conflicts S.acc = false := by
  rw [Bool.eq_false_iff]
  intro hacc
  have hfirst : ∀ r ∈ S.arch.registers, r.conflicts S.arch.accumulator = true →
      (r.width = 1 → S.arch.byteParameters.head? = some r) ∧
        (r.width = 2 → S.arch.wordParameters.head? = some r) := by
    cases S.arch <;> decide
  obtain ⟨hmem, hwidth⟩ := hS.mem_registers hc.receives hr
  obtain ⟨hbyte, hword⟩ := hfirst r hmem hacc
  have hhead : (S.arch.passing q.type).head? = some r := by
    have hcount := hS.receiving.byteCount q hc.receives.mem
    unfold Arch.passing
    split at hcount
    · rename_i h
      rw [if_pos h]
      exact hword (hwidth.trans (by rw [hcount]; rfl))
    · rename_i h
      rw [if_neg h]
      exact hbyte (hwidth.trans (by rw [hcount]; rfl))
  obtain ⟨o, ho, hconflicts⟩ :=
    Arch.exists_conflicts_of_head? (Function.type_of_param hc.receives.param) hhead
  rw [hS.conflicts_arrival hc hr ho] at hconflicts
  cases hconflicts

/-! ### What transfers leave alone -/

/-- No transfer writes to the slot of another parameter. -/
theorem slot_untouched (hc : S.Carries f i q arrival t) (hq' : f.Receives j q') (hij : i ≠ j)
    {k : Int} (hp : p ∈ t.1.bytes) :
    ¬ p.Touches q'.slot k := by
  rintro ⟨cell, rfl⟩
  rw [hc.eq] at hp
  rcases memory_mem_home hp with ⟨-, h⟩ | ⟨r, hr, hcell, h⟩
  · exact hS.slot_ne_slot hq' hc.receives hij.symm h
  · exact hS.slot_ne_address hq' hc.receives hr hcell h

/-- **Where a parameter lives is clear of the transfers of others.** -/
theorem clear_home (hc : S.Carries f i q arrival t) (hq' : f.Receives j q') (hij : i ≠ j)
    (hp : p ∈ (S.home q').bytes) :
    S.Clear w t p where
  reg u hu := by
    rw [hu] at hp
    obtain ⟨r, hr, -, hur⟩ := register_mem_home hp
    refine .inl fun x hx => ⟨?_, .inl (hS.occupied hq' hr (Register.conflicts_unit hur))⟩
    exact hc.dest_ne hx (fun r' hr' => hS.conflicts_homes hc.receives hq' hij hr' hr) hur
  mem n k hn x hx hxn := by
    obtain ⟨cell, rfl⟩ := hn
    rcases memory_mem_home hp with ⟨-, rfl⟩ | ⟨r, hr, hcell, rfl⟩
    · exact hS.slot_untouched hc hq' hij hx hxn
    · obtain ⟨cell', rfl⟩ := hxn
      rw [hc.eq] at hx
      rcases memory_mem_home hx with ⟨-, h⟩ | ⟨r', hr', hcell', h⟩
      · exact hS.slot_ne_address hc.receives hq' hr hcell h.symm
      · have hmem := Arch.mem_cells (hS.mem_registers hq' hr).1 hcell
        have hmem' := Arch.mem_cells (hS.mem_registers hc.receives hr').1 hcell'
        obtain rfl := Arch.address_injective hmem hmem' h
        have happart := hS.conflicts_homes hc.receives hq' hij hr' hr
        rw [Register.conflicts_self] at happart
        cases happart

section Waiting

variable (hw : w.draft.reserved = []) (hc : S.Carries f i q arrival t) (hij : i < j)
  (ho : (f.signature.arrivals S.arch)[j]? = some (some o)) (hu : u ∈ o.units)

include hc ho hu in
/-- A transfer does not write a register in which a parameter waits. -/
theorem dest_ne_waiting {x : Place × Place} (hx : x ∈ t.1.bytes.zip t.2.bytes) :
    x.1 ≠ .register (some u) :=
  hc.dest_ne hx (fun _ hr => hS.conflicts_arrival hc hr (List.mem_of_getElem? ho)) hu

include hw hc ho hu in
/-- On the 8080 a value goes to memory through the accumulator, unless it is in `hl`. -/
theorem passes_intel_memory (hm : S.arch = .i8080) (hr : S.homeRegister? q = none)
    (hclear : Register.clash (S.site.relay? t) (some o) = false) : S.Passes w t u := by
  cases arrival with
  | none =>
    obtain ⟨r, hr'⟩ := hc.exists_homeRegister
    rw [hr] at hr'
    cases hr'
  | some s =>
    obtain ⟨-, hcell, hwidth⟩ :=
      hS.registers_of_passing (Function.mem_passing hc.receives.param hc.arrives) hc.receives.mem
    have hplace : t.1.place = .memory q.slot 0 none := by rw [hc.eq, home_of_none hr]; rfl
    have hplace' : t.2.place = .register (some s) := by
      rw [hc.eq, Parameter.arrivesAt, Location.place_ofRegister, hcell]
      rfl
    by_cases hhl : s = Intel.hl
    · refine .inr ⟨?_, by simp [Arch.bypasses, hm, hplace, hplace', hhl]⟩
      rw [hc.eq, home_of_none hr]
      exact hwidth.symm.trans (by rw [hhl]; rfl)
    · refine .inl fun x hx => ⟨hS.dest_ne_waiting hc ho hu hx, ?_⟩
      obtain ⟨hdest, hsource⟩ := List.of_mem_zip hx
      rw [hc.eq] at hdest hsource
      obtain ⟨_, _, hx₁⟩ := Location.mem_bytes_of_memory (by rw [home_of_none hr]; rfl) hdest
      obtain ⟨u', hu', hx₂⟩ := hS.mem_bytes_arrival hc.receives.param hc.arrives hsource
      by_cases ha : u = Intel.a
      · by_cases hs : s = Intel.a
        · obtain rfl : u' = Intel.a := by
            simpa [hs, Register.units, Register.isPair, Intel.a] using hu'
          exact .inr (by simp [Arch.disturbs, hx₁, hx₂, ha])
        · left
          rw [occupied_eq hw, ha]
          by_contra hfree
          have hconflicts := Register.conflicts_unit hu
          rw [ha, Register.conflicts_comm] at hconflicts
          have hrelay : S.site.relay? t = some Intel.a := by
            simp [Site.relay?, hm, hplace, hplace', hhl, hs, hfree]
          rw [hrelay, Register.clash_some, hconflicts] at hclear
          cases hclear
      · exact .inr (by simp [Arch.disturbs, hx₁, hx₂, hm, Arch.accumulator, ha])

include hc hij ho hu in
/-- On the 8080 no parameter goes from memory to a register while one waits in the accumulator. -/
theorem ne_acc_of_none (hm : S.arch = .i8080) (harrival : arrival = none) : u ≠ Intel.a := by
  rintro rfl
  subst harrival
  obtain ⟨q', hq'⟩ : ∃ q', f.params[j]? = some q' := by
    have hlength : (f.signature.arrivals S.arch).length = f.params.length :=
      Arch.length_arrivalsAfter.trans (List.length_map _)
    have hlt : j < f.params.length := hlength ▸ (List.getElem?_eq_some_iff.mp ho).1
    exact ⟨_, List.getElem?_eq_getElem hlt⟩
  have hbyte : o ∈ S.arch.byteParameters := by
    have hmem :=
      (hS.registers_of_passing (Function.mem_passing hq' ho) (List.mem_of_getElem? hq')).1
    have hall : ∀ o ∈ Arch.registers .i8080, Intel.a ∈ o.units →
        o ∈ Arch.byteParameters .i8080 := by decide
    rw [hm] at hmem ⊢
    exact hall o hmem hu
  obtain ⟨r, hr⟩ := hc.exists_homeRegister
  obtain ⟨hmem, hwidth⟩ := hS.mem_registers hc.receives hr
  have hword := hc.isWord hij ho hbyte
  rw [hS.receiving.byteCount q hc.receives.mem, if_pos hword] at hwidth
  obtain ⟨hbytes, -, hcells⟩ := S.arch.width_registers
  rcases Arch.registers_cases hmem with hbyte | ⟨low, high, hpair⟩ | hcell
  · rw [(hbytes r hbyte).1] at hwidth
    cases hwidth
  · exact hS.not_isPair hc hr hpair
  · rw [hm] at hcell
    cases hcell

include hc hij ho hu in
theorem passes_intel_register (hm : S.arch = .i8080) (hr : S.homeRegister? q = some r) :
    S.Passes w t u := by
  have hcell : r.isCell = false := by
    have hall : ∀ r ∈ Arch.registers .i8080, r.isCell = false := by decide
    exact hall r (hm ▸ (hS.mem_registers hc.receives hr).1)
  refine .inl fun x hx => ⟨hS.dest_ne_waiting hc ho hu hx, .inr ?_⟩
  obtain ⟨hdest, hsource⟩ := List.of_mem_zip hx
  rw [hc.eq] at hdest hsource
  obtain ⟨d, hx₁⟩ := mem_bytes_home hr hcell hdest
  cases harrival : arrival with
  | some s =>
    subst harrival
    obtain ⟨u', -, hx₂⟩ := hS.mem_bytes_arrival hc.receives.param hc.arrives hsource
    simp [Arch.disturbs, hx₁, hx₂, hm]
  | none =>
    have ha := hS.ne_acc_of_none hc hij ho hu hm harrival
    subst harrival
    obtain ⟨_, _, hx₂⟩ := Location.mem_bytes_of_memory rfl hsource
    simp [Arch.disturbs, hx₁, hx₂, hm, Arch.accumulator, ha]

include hw hc hij ho hu in
/-- On the 6502 and the 65816 only values that go from memory to memory need a register. -/
theorem passes_mos (hm : S.arch ≠ .i8080)
    (hclear : Register.clash (S.site.relay? t) (some o) = false) :
    S.Passes w t u := by
  have hne := fun x hx => hS.dest_ne_waiting hc ho hu (x := x) hx
  obtain rfl : o = Mos.y := Arch.eq_y_of_arrivals hm (Nat.zero_lt_of_lt hij) ho
  obtain rfl : u = Mos.y := by simpa [Register.units, Register.isPair, Mos.y] using hu
  have hacc : (Mos.y == S.arch.accumulator) = false := by
    rw [Arch.accumulator_of_mos hm]
    rfl
  have hnot : (S.arch == .i8080) = false := by simpa using hm
  cases arrival with
  | some s =>
    refine .inl fun x hx => ⟨hne x hx, .inr ?_⟩
    have hsource := (List.of_mem_zip hx).2
    rw [hc.eq] at hsource
    obtain ⟨u', -, hx₂⟩ := hS.mem_bytes_arrival hc.receives.param hc.arrives hsource
    cases hx₁ : x.1 <;> simp [Arch.disturbs, hx₂, hacc, hnot]
  | none =>
    obtain ⟨r, hr⟩ := hc.exists_homeRegister
    have hplace' : t.2.place = .memory q.slot 0 none := by rw [hc.eq]; rfl
    cases hcell : r.isCell with
    | false =>
      refine .inl fun x hx => ⟨hne x hx, .inr ?_⟩
      obtain ⟨hdest, hsource⟩ := List.of_mem_zip hx
      rw [hc.eq] at hdest hsource
      obtain ⟨d, hx₁⟩ := mem_bytes_home hr hcell hdest
      obtain ⟨_, _, hx₂⟩ := Location.mem_bytes_of_memory rfl hsource
      simp [Arch.disturbs, hx₁, hx₂, hnot]
    | true =>
      have hplace : t.1.place = .memory r.address 0 (some r) := by
        rw [hc.eq, home_of_some hr, Location.place_ofRegister, if_pos hcell]
      cases harch : S.arch with
      | i8080 => exact absurd harch hm
      | wdc65816 =>
        -- the value goes through the wide accumulator
        have hword := hc.isWord hij ho (by rw [harch]; decide)
        refine .inr ⟨?_, by rw [harch, hplace, hplace']; rfl⟩
        rw [hc.eq, home_of_some hr, Location.width_ofRegister, (hS.mem_registers hc.receives hr).2,
          hS.receiving.byteCount q hc.receives.mem, if_pos hword]
        rfl
      | mos6502 =>
        refine .inl fun x hx => ⟨hne x hx, ?_⟩
        obtain ⟨hdest, hsource⟩ := List.of_mem_zip hx
        rw [hc.eq] at hdest hsource
        obtain ⟨_, _, hx₁⟩ := Location.mem_bytes_of_memory (hc.eq ▸ hplace) hdest
        obtain ⟨_, _, hx₂⟩ := Location.mem_bytes_of_memory rfl hsource
        have hrelay? : S.site.relay? t = S.arch.relays.find? fun c => !S.occupied w c := by
          simp only [Site.relay?, harch, hplace, hplace', occupied_eq hw]
          rfl
        rw [hrelay?] at hclear
        rw [hx₁, hx₂]
        refine (occupied_or_ne_relay (by rw [harch]; decide) hclear).imp_right fun hy => ?_
        simpa [Arch.disturbs] using hy

end Waiting

/-- **Where a parameter waits is clear of the transfers before**, unless one goes through there. -/
theorem clear_arrival (hw : w.draft.reserved = []) (hc : S.Carries f i q arrival t)
    (hq' : f.Receives j q') (hij : i < j)
    (harrival : (f.signature.arrivals S.arch)[j]? = some arrival')
    (hclear : Register.clash (S.site.relay? t) arrival' = false)
    (hp : p ∈ (q'.arrivesAt arrival').bytes) :
    S.Clear w t p := by
  cases arrival' with
  | none =>
    obtain ⟨k, cell, rfl⟩ := Location.mem_bytes_of_memory rfl hp
    refine ⟨fun u hu => (by cases hu), ?_⟩
    rintro n o ⟨cell', hn⟩ x hx
    cases hn
    exact hS.slot_untouched hc hq' hij.ne hx
  | some o =>
    obtain ⟨u, hu, rfl⟩ := hS.mem_bytes_arrival hq'.param harrival hp
    refine ⟨?_, fun n k hn => by obtain ⟨cell, hn⟩ := hn; cases hn⟩
    intro u' hu'
    cases hu'
    by_cases hm : S.arch = .i8080
    · cases hr : S.homeRegister? q with
      | none => exact hS.passes_intel_memory hw hc harrival hu hm hr hclear
      | some r => exact hS.passes_intel_register hc hij harrival hu hm hr
    · exact hS.passes_mos hw hc hij harrival hu hm hclear

/-! ### The prologue -/

theorem carries_of_mem (ht : t ∈ S.site.deliveries) : ∃ i q arrival, S.Carries f i q arrival t := by
  obtain ⟨i, q, arrival, hq, harrival, ht⟩ := Site.mem_deliveries.mp ht
  rw [hS.function_eq] at hq harrival
  exact ⟨i, q, arrival, (hS.carries_iff hq harrival).mp ht⟩

/-- The transfers of a prologue are made in the order of the parameters. -/
theorem order_deliveries : ParallelMove.order (S.site.deliveries.map Build.toParallelMove)
    (some S.acc) =
    .ok (List.range S.site.deliveries.length, []) := by
  rw [← List.length_map Build.toParallelMove]
  refine ParallelMove.order_of_free ?_ ?_
  · intro x hx y hy
    obtain ⟨t, ht, rfl⟩ := List.mem_map.mp hx
    obtain ⟨t', ht', rfl⟩ := List.mem_map.mp hy
    rw [hS.site] at ht ht'
    exact Function.not_overwrites_of_mem_deliveries hS.receiving.read.indexed
      hS.receiving.numbered ht ht'
  · intro x hx
    obtain ⟨t, ht, rfl⟩ := List.mem_map.mp hx
    obtain ⟨i, q, arrival, hc⟩ := hS.carries_of_mem ht
    have hdest : (Build.toParallelMove t).dest = S.homeRegister? q := by
      rw [Build.toParallelMove, hc.eq, home, Site.register?_homeOf]
      rfl
    rw [hdest]
    cases hr : S.homeRegister? q with
    | none => rfl
    | some r => exact hS.not_conflicts_acc hc hr

/-- The transfers of the parameters before a position, the transfer of the one there, and those
after. -/
theorem exists_split (hc : S.Carries f j q arrival t) :
    ∃ before after, S.site.deliveries = before ++ t :: after ∧
    (∀ e ∈ before, ∃ i < j, ∃ q' arrival', S.Carries f i q' arrival' e ∧
      (q', arrival') ∈ (f.params.zip (f.signature.arrivals S.arch)).take j) ∧
    ∀ e ∈ after, ∃ i > j, ∃ q' arrival', S.Carries f i q' arrival' e := by
  let zs := f.params.zip (f.signature.arrivals S.arch)
  let g : Parameter × Option Register → Option (Location × Location) :=
    fun z => Build.parameterTransfer? S.site z.1 z.2
  have hdeliveries : S.site.deliveries = zs.filterMap g := by
    rw [Site.deliveries, hS.function_eq]
  have hget : zs[j]? = some (q, arrival) :=
    List.getElem?_zip_eq_some.mpr ⟨hc.receives.param, hc.arrives⟩
  obtain ⟨hlt, heq⟩ := List.getElem?_eq_some_iff.mp hget
  have hsplit : zs = zs.take j ++ (q, arrival) :: zs.drop (j + 1) := by
    rw [← heq, ← List.drop_eq_getElem_cons hlt, List.take_append_drop]
  have hcarries : ∀ {i : Nat} {z : Parameter × Option Register} {e : Location × Location},
    zs[i]? = some z → g z = some e → S.Carries f i z.1 z.2 e := by
    intro i z e hz he
    obtain ⟨hp, ha⟩ := List.getElem?_zip_eq_some.mp hz
    exact (hS.carries_iff hp ha).mp he
  refine ⟨(zs.take j).filterMap g, (zs.drop (j + 1)).filterMap g, ?_, fun e he => ?_,
    fun e he => ?_⟩
  · have hg : g (q, arrival) = some t := (hS.carries_iff hc.receives.param hc.arrives).mpr hc
    rw [hdeliveries]
    conv_lhs => rw [hsplit]
    rw [List.filterMap_append, List.filterMap_cons, hg]
  · obtain ⟨z, hz, he⟩ := List.mem_filterMap.mp he
    obtain ⟨i, hi⟩ := List.mem_iff_getElem?.mp hz
    rw [List.getElem?_take] at hi
    split at hi
    · rename_i hij
      exact ⟨i, hij, z.1, z.2, hcarries hi he, hz⟩
    · cases hi
  · obtain ⟨z, hz, he⟩ := List.mem_filterMap.mp he
    obtain ⟨i, hi⟩ := List.mem_iff_getElem?.mp hz
    rw [List.getElem?_drop] at hi
    exact ⟨j + 1 + i, by omega, z.1, z.2, hcarries hi he⟩

/-- A transfer before a parameter that is not crossed does not go through where the parameter
waits. -/
theorem clash_of_not_crossed (h : f.crossed S.site.target j = false)
    (harrival : (f.signature.arrivals S.arch)[j]? = some arrival) (hc : S.Carries f i q arrival' t)
    (hmem : (q, arrival') ∈ (f.params.zip (f.signature.arrivals S.arch)).take j) :
    Register.clash (S.site.relay? t) arrival = false := by
  have htransfer := (hS.carries_iff hc.receives.param hc.arrives).mpr hc
  have hall := List.any_eq_false.mp h _ hmem
  rw [← hS.site] at hall
  dsimp only at hall
  rw [htransfer, List.getD_eq_getElem?_getD, harrival] at hall
  simpa using hall

theorem emits_prologue {σ : State} (hw : w.draft.reserved = []) (hg : S.Good w σ) :
    Emits S Build.prologue w σ fun _ w' σ' => S.Good w' σ' ∧ w'.draft.reserved = [] ∧
      σ'.stack = σ.stack ∧
      ∀ j q arrival, f.Receives j q → (f.signature.arrivals S.arch)[j]? = some arrival →
        f.crossed S.site.target j = false → (S.home q).bytesIn S.symbols σ' =
          (q.arrivesAt arrival).bytesIn S.symbols σ := by
  have hparallel := emits_parallel (w := w) (σ := σ) hS.order_deliveries (fun t ht => ?_)
    (fun t ht r hr u hu => ?_) hg
  · refine .site (hparallel.bind fun held w₁ σ₁ h => (h.closes w₁ σ₁ rfl).mono ?_)
    rintro _ _ _ ⟨rfl, rfl⟩
    refine ⟨⟨h.good.tracks, h.good.narrow, h.good.offsets⟩, hw, h.stack,
      fun j q arrival hq harrival hcrossed => ?_⟩
    cases hsame : (S.home q).same (q.arrivesAt arrival) with
    | true =>
      rw [← hS.eq_of_same hq harrival hsame]
      refine Location.bytesIn_congr fun p hp => h.kept p ((hS.holds_home hq w).stores hp)
        fun t ht => ?_
      obtain ⟨i, q', arrival', hc⟩ := hS.carries_of_mem ht
      refine hS.clear_home hc hq ?_ hp
      rintro rfl
      obtain rfl := Option.some.inj (hc.receives.param.symm.trans hq.param)
      obtain rfl := Option.some.inj (hc.arrives.symm.trans harrival)
      rw [hc.apart] at hsame
      cases hsame
    | false =>
      have hc : S.Carries f j q arrival (S.home q, q.arrivesAt arrival) :=
        ⟨hq, harrival, hsame, rfl⟩
      obtain ⟨before, after, hsplit, hbefore, hafter⟩ := hS.exists_split hc
      refine h.delivered before _ after hsplit (fun e he p hp => ?_) fun e he p hp => ?_
      · obtain ⟨i, hij, q', arrival', hc', hmem⟩ := hbefore e he
        exact hS.clear_arrival hw hc' hq hij harrival
          (hS.clash_of_not_crossed hcrossed harrival hc' hmem) hp
      · obtain ⟨i, hij, q', arrival', hc'⟩ := hafter e he
        exact hS.clear_home hc' hq hij.ne' hp
  · obtain ⟨i, q, arrival, hc⟩ := hS.carries_of_mem ht
    exact hS.movable hc w
  · obtain ⟨i, q, arrival, hc⟩ := hS.carries_of_mem ht
    exact hS.occupied_dest hc hr hu

end Enters

end Setting

/-- Ending an instruction where no pointer is displaced and no reservation is open. -/
theorem Site.run_finish {s : Site} {w : Work} (hoffsets : w.draft.offsets = [])
    (hreserved : w.draft.reserved = []) :
    s.run Build.finish w = (.ok (), w) := by
  obtain ⟨ledger, draft⟩ := w
  refine (run_bind (run_settleAll hoffsets)).trans ?_
  have hsame : { draft with offsets := [] } = draft := by rw [← hoffsets]
  refine (run_bind
    (show s.run (Build.modifyDraft _) _ = (.ok (), ⟨ledger, { draft with offsets := [] }⟩) from
      rfl)).trans ?_
  rw [hsame]
  refine (run_bind (show s.run Build.draft _ = (.ok draft, _) from rfl)).trans ?_
  dsimp only at hreserved
  rw [hreserved]
  rfl

namespace Function

/-- What is built without a script is what its code leaves behind. -/
theorem buildAt_of_run {s : Site} {known : Constants} {flags : FlagState} {act : Build Unit}
    {ledger : Ledger} {w : Work}
    (h : s.run (do act; Build.finish) ⟨ledger, .start known flags⟩ = (.ok (), w)) :
    buildAt s known flags none act ledger =
      (⟨⟨s.address, s.inst, w.draft.lines, w.draft.changed, w.draft.changedUnknown, known,
        w.draft.known, w.draft.flags⟩, [], none⟩, w.ledger) := by
  simp only [buildAt, Site.runScript, if_true, h]

/-- Where the prologue of a function runs. -/
def setting (f : Function) (target : Target) (symbols : List (String × Int))
    (h : f.NamedApart target.arch) :
    Setting where
  site := f.entry target
  symbols := symbols
  owns := f.Storage target.arch
  apart n o i := by
    rintro (⟨_, q, hq, rfl, -⟩ | ⟨r, hr, rfl, -⟩)
    · exact h.scratch q hq.mem i
    · exact Arch.address_ne hr i

/-- On the 65816 no parameter is crossed. -/
theorem crossed_wdc65816 (f : Function) {target : Target} (hm : target.arch = .wdc65816) (j : Nat) :
    f.crossed target j = false := by
  have hrelay : ∀ t, (f.entry target).relay? t = none := by
    intro t
    have harch : (f.entry target).target.arch = .wdc65816 := hm
    simp only [Site.relay?, harch]
  simp [crossed, hrelay, Register.clash]

/-- **Parameters were delivered**: each one in use that is not crossed is where it lives, and the
stack is as before. On the 65816 none is crossed. -/
structure Delivered (f : Function) (target : Target) (symbols : List (String × Int))
    (σ σ' : State) : Prop where
  stack : σ'.stack = σ.stack
  narrow : σ'.wide = false
  value : ∀ (j : Nat) (q : Parameter) (v : Variable) (arrival : Option Register),
    f.params[j]? = some q → f.parameterVariable? q = some v → 0 ≤ (f.range v).first →
    (f.signature.arrivals target.arch)[j]? = some arrival → target.arch = .wdc65816 ∨
      f.crossed target j = false →
      ((f.entry target).homeOf q v).bytesIn symbols σ' = (q.arrivesAt arrival).bytesIn symbols σ

end Function

/-- **The prologue delivers parameters.** For every function that was read, on every machine, the
prologue is built without a fault, and its code runs from every state in which the accumulator is
narrow. Each parameter in use then has, where it lives, the value with which it arrived, unless it
was crossed. -/
theorem Listing.prologue_delivers {l : Listing} {p : Program} (h : l.build = .ok p) {f : Function}
    (hf : f ∈ p.functions)
    (target : Target) (hnames : f.NamedApart target.arch) (symbols : List (String × Int))
    (ledger : Ledger) (σ : State) (hσ : σ.wide = false) :
    ∃ (w : Work) (σ' : State),
      (f.entry target).run (do Build.prologue; Build.finish) ⟨ledger, .start .empty .unknown⟩ =
        (.ok (), w) ∧
      (Function.buildAt (f.entry target) .empty .unknown none Build.prologue ledger).1.fault =
        none ∧
      (Function.buildAt (f.entry target) .empty .unknown none Build.prologue ledger).1.block.lines =
        w.draft.lines ∧
      target.arch.Runs symbols ((f.setting target symbols hnames).Needs w) w.draft.lines σ σ' ∧
      f.Delivered target symbols σ σ' := by
  have hreceiving := receiving_of_build h hf
  have hS : (f.setting target symbols hnames).Enters f :=
    ⟨rfl, fun _ _ ho => ho, hnames, hreceiving⟩
  have hgood : (f.setting target symbols hnames).Good ⟨ledger, .start .empty .unknown⟩ σ :=
    ⟨fun r _ v hv => (by cases hv), hσ, rfl⟩
  obtain ⟨_, w, ls, σ', hrun, hlines, -, hruns, hgood', hreserved, hstack, hvalue⟩ :=
    hS.emits_prologue rfl hgood
  have hfinish : (f.entry target).run (do Build.prologue; Build.finish)
      ⟨ledger, .start .empty .unknown⟩ = (.ok (), w) :=
    (Site.run_bind hrun).trans (Site.run_finish hgood'.offsets hreserved)
  have hbuild := Function.buildAt_of_run hfinish
  have hlines : w.draft.lines = ls := hlines
  refine ⟨w, σ', hfinish, by rw [hbuild], by rw [hbuild], hlines ▸ hruns, hstack, hgood'.narrow, ?_⟩
  intro j q v arrival hq hv hused harrival hcrossed
  obtain rfl := Option.some.inj ((hreceiving.received q (List.mem_of_getElem? hq)).symm.trans hv)
  exact hvalue j q arrival ⟨hq, hused⟩ harrival
    (hcrossed.elim (fun hm => f.crossed_wdc65816 hm j) id)

namespace Prologue

/-- A function with two words and a byte, which is called with all of them in registers and calls
another one. -/
def waitingListing : Listing where
  globals := []
  externs := [{ name := "h", params := [], result := "", vars := [], code := [] }]
  functions :=
    [{  name := "f"
        params := [⟨"u", "word"⟩, ⟨"v", "word"⟩, ⟨"w", "byte"⟩]
        result := "byte"
        vars := [⟨"k", "word"⟩]
        code :=
          [ { op := "call", callee := "h" },
            { op := "load", dest := "k", left := "v" },
            { op := "return", left := "w" } ] }]

/-- The word that is in use. -/
def word : Parameter := ⟨1, "v", .word false, "f_v"⟩

/-- The byte. -/
def byte : Parameter := ⟨2, "w", .byte false, "f_w"⟩

/-- The local variable. -/
def copy : Variable := ⟨3, false, "k", "f_k", .word false, none⟩

/-- The other function. -/
def callee : Signature := ⟨"h", [], .void⟩

/-- The function of `waitingListing`. -/
def waiting : Function where
  name := "f"
  params := [⟨0, "u", .word false, "f_u"⟩, word, byte]
  result := .byte false
  vars := [parameterVariable ⟨0, "u", .word false, "f_u"⟩, parameterVariable word,
    parameterVariable byte, copy]
  code :=
    [ .call callee [] none,
      .load (.whole copy) (.whole (parameterVariable word)),
      .ret (some (.whole (parameterVariable byte))) ]
  ranges := [⟨[], none⟩, ⟨[2], some (0, 2)⟩, ⟨[3], some (0, 3)⟩, ⟨[2], none⟩]

theorem namedApart_waiting : waiting.NamedApart .i8080 where
  cells q _ r hr := by cases hr
  scratch q hq i := by
    have hfirst : ∀ q ∈ waiting.params, q.slot.toList[0]? = some 'f' := by decide
    constructor
    · intro h
      simpa [h, temporaryName] using hfirst q hq
    · intro h
      simpa [h, saveCellName] using hfirst q hq

/-- A state in which the word is 515 and the byte is 7. -/
def arriving : State where
  reg r := if r = Intel.a then 7 else if r = Intel.d then 2 else if r = Intel.e then 3 else 0
  mem _ _ := 0
  stack := []
  carry := false
  wide := false
  upper := 0

/-- Memory with the slots of the word and the byte. -/
def slots : Layout :=
  .ofCells [("f_v", 0x1000), ("f_w", 0x1002)] [("f_v", 0), ("f_v", 1), ("f_w", 0)] 0xff00 16

theorem fits_slots : Intel.Fits slots :=
  Intel.fits_ofCells (Layout.apart_ofCells (by decide) (by decide) _ _) (by decide) (by decide)
    (by decide)

/-- The parameter that is not used has no slot. -/
theorem owns_slots {n : String} {o : Int} (h : waiting.Storage .i8080 n o) : slots.owns n o := by
  rcases h with ⟨i, q, hq, rfl, h₀, h₁⟩ | ⟨r, hr, -⟩
  · have hcases : q = word ∨ q = byte := by
      have hall : ∀ q ∈ waiting.params, 0 ≤ (waiting.range (parameterVariable q)).first →
          q = word ∨ q = byte := by decide
      exact hall q hq.mem hq.used
    rcases hcases with rfl | rfl
    · obtain rfl | rfl : o = 0 ∨ o = 1 := by
        change o < 2 at h₁
        omega
      · exact .head _
      · exact .tail _ (.head _)
    · obtain rfl : o = 0 := by
        change o < 1 at h₁
        omega
      exact .tail _ (.tail _ (.head _))
  · cases hr

/-- The word is delivered to its slot. It goes through the accumulator, where the byte waits, which
is crossed: the byte is stored only after the accumulator was used. -/
theorem delivered_waiting :
    waitingListing.build = .ok ⟨[], [], [callee], [waiting]⟩ ∧
      waiting.signature.arrivals .i8080 = [some Intel.hl, some Intel.de, some Intel.a] ∧
      waiting.crossed Arch.i8080.target 1 = false ∧ waiting.crossed Arch.i8080.target 2 = true ∧
      Intel.Fits slots ∧ ∃ (w : Work) (σ' : State),
        w.draft.lines =
          [ .instr ⟨"mov", [.reg "a", .reg "e"]⟩, .instr ⟨"sta", [.mem "f_v" 0]⟩,
            .instr ⟨"mov", [.reg "a", .reg "d"]⟩, .instr ⟨"sta", [.mem "f_v" 1]⟩,
            .instr ⟨"sta", [.mem "f_w" 0]⟩ ] ∧
        Arch.Runs .i8080 slots.symbols slots.owns w.draft.lines arriving σ' ∧
        ((waiting.entry Arch.i8080.target).homeOf word (parameterVariable word)).bytesIn
          slots.symbols σ' = [3, 2] := by
  have hbuild : waitingListing.build = .ok ⟨[], [], [callee], [waiting]⟩ := by cbv
  have hcrossed : waiting.crossed Arch.i8080.target 1 = false := by decide +kernel
  obtain ⟨w, σ', hrun, -, hlines, hruns, hdelivered⟩ :=
    Listing.prologue_delivers hbuild (List.mem_singleton.mpr rfl) Arch.i8080.target
      namedApart_waiting slots.symbols .empty arriving rfl
  have hcells : w.draft.temporaries = 0 ∧ w.draft.saves = 0 := by
    rw [show w = _ from (congrArg Prod.snd hrun).symm]
    cbv
  refine ⟨hbuild, by decide, hcrossed, by decide +kernel, fits_slots, w, σ', ?_, ?_, ?_⟩
  · rw [← hlines]
    cbv
  · refine hruns.mono ?_
    rintro n o ((h | ⟨i, hi, -⟩) | ⟨i, hi, -⟩)
    · exact owns_slots h
    · rw [hcells.1] at hi
      cases hi
    · rw [hcells.2] at hi
      cases hi
  · rw [hdelivered.value 1 word (parameterVariable word) (some Intel.de) rfl (by decide) (by decide)
      (by decide) (.inr hcrossed)]
    decide

end Prologue

end Octet
