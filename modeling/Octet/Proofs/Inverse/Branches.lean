import Octet.Proofs.Generated.Saving
import Octet.Proofs.Inverse.Registers

/-!
# Branches that restore

A branch out of an instruction is taken while reservations are open. Everything they have saved is
restored on the way, the last reservation first, and only if the branch is taken: the branch is
turned round, and jumps over the restores.

`Opened` follows reservations from the machine before the first of them. Each one pins a register,
or has saved some; in between anything may happen that keeps what was saved. So reservations that
are released give reservations that are open again, one fewer, and restoring all of them is
releasing them in turn. A register that several of them have saved ends up as the outermost one has
found it.

## Main definitions

* `Arch.tests` — the flags that branches look at
* `Opening`, `Opened` — reservations that are open, with what they have saved

## Main results

* `Opened.release` — releasing the last reservation
* `Opened.restoreAll` — restoring what all of them have saved
* `Build.branch_restores` — a branch restores everything, and only if it is taken
-/

namespace Octet

open Assembly (Arg Instr Line)
open Build (saveCellName)
open Simulator (Memory Reading)

/-! ### Conditions -/

namespace Arch

/-- The branches that can be executed, with the flag that each looks at and what it has to be for
the branch to be taken. -/
def tests : Arch → List (String × String × Bool)
  | .i8080 =>
    [("jz", "z", true), ("jnz", "z", false), ("jm", "s", true), ("jp", "s", false),
      ("jc", "cy", true), ("jnc", "cy", false)]
  | _ =>
    [("beq", "z", true), ("bne", "z", false), ("bmi", "n", true), ("bpl", "n", false),
      ("bcs", "c", true), ("bcc", "c", false), ("bvs", "v", true), ("bvc", "v", false)]

variable {m : Arch} {op flag : String} {value : Bool}

/-- The branches of the machine that its processor knows. -/
theorem exists_mem_tests (hop : (m.branches.opposites.lookup op).isSome) {target : String}
    {M : Simulator.Machine m.Cpu}
    (hknown : (m.processor.step ⟨op, [.label target]⟩).run M ≠ (.error (.unknownMnemonic op), M)) :
    ∃ flag value, (op, flag, value) ∈ m.tests := by
  obtain ⟨inverse, hinverse⟩ := Option.isSome_iff_exists.mp hop
  obtain ⟨before, after, hopposites, -⟩ := List.lookup_eq_some_iff.mp hinverse
  have hmem : (op, inverse) ∈ m.branches.opposites := by simp [hopposites]
  cases m with
  | mos6502 | wdc65816 =>
    have hall : ∀ e ∈ (Arch.branches .mos6502).opposites, ∃ t ∈ Arch.tests .mos6502,
        t.1 = e.1 := by decide
    obtain ⟨⟨_, flag, value⟩, ht, rfl⟩ := hall _ hmem
    exact ⟨flag, value, ht⟩
  | i8080 =>
    have hall : ∀ e ∈ (Arch.branches .i8080).opposites,
        e.1 = "jpe" ∨ e.1 = "jpo" ∨ ∃ t ∈ Arch.tests .i8080, t.1 = e.1 := by decide
    obtain rfl | rfl | ⟨⟨_, flag, value⟩, ht, rfl⟩ := hall _ hmem
    · exact absurd rfl hknown
    · exact absurd rfl hknown
    · exact ⟨flag, value, ht⟩

/-- The opposite of a branch looks at the same flag. -/
theorem exists_opposite (h : (op, flag, value) ∈ m.tests) :
    ∃ inverse, m.branches.opposites.lookup op = some inverse ∧
      (inverse, flag, !value) ∈ m.tests := by
  have hall : ∀ t ∈ m.tests, ∃ t' ∈ m.tests,
      m.branches.opposites.lookup t.1 = some t'.1 ∧ t'.2 = (t.2.1, !t.2.2) := by
    cases m <;> decide
  obtain ⟨⟨inverse, _⟩, hmem, hlookup, rfl⟩ := hall _ h
  exact ⟨inverse, hlookup, hmem⟩

/-- **A branch** changes nothing, and jumps if its flag is right. -/
theorem run_branch (h : (op, flag, value) ∈ m.tests) (target : String)
    (M : Simulator.Machine m.Cpu) :
    (m.processor.step ⟨op, [.label target]⟩).run M =
      (.ok (if m.shows M flag = some (.flag value) then .jump target else .next), M) := by
  have hset : ∀ b : Bool,
      ((.ok (if b then .jump target else .next), M) :
        Except Simulator.Trap Simulator.Transfer × _) =
        (.ok (if some (Reading.flag b) = some (.flag true) then .jump target else .next), M) := by
    intro b
    cases b <;> rfl
  have hclear : ∀ b : Bool,
      ((.ok (if !b then .jump target else .next), M) :
        Except Simulator.Trap Simulator.Transfer × _) =
        (.ok (if some (Reading.flag b) = some (.flag false) then .jump target else .next), M) := by
    intro b
    cases b <;> rfl
  cases m with
  | mos6502 | wdc65816 =>
    simp only [tests, List.mem_cons, Prod.mk.injEq, List.not_mem_nil, or_false] at h
    obtain ⟨rfl, rfl, rfl⟩ | ⟨rfl, rfl, rfl⟩ | ⟨rfl, rfl, rfl⟩ | ⟨rfl, rfl, rfl⟩ | ⟨rfl, rfl, rfl⟩ |
      ⟨rfl, rfl, rfl⟩ |
      ⟨rfl, rfl, rfl⟩ | ⟨rfl, rfl, rfl⟩ := h
    exacts [hset _, hclear _, hset _, hclear _, hset _, hclear _, hset _, hclear _]
  | i8080 =>
    simp only [tests, List.mem_cons, Prod.mk.injEq, List.not_mem_nil, or_false] at h
    obtain ⟨rfl, rfl, rfl⟩ | ⟨rfl, rfl, rfl⟩ | ⟨rfl, rfl, rfl⟩ | ⟨rfl, rfl, rfl⟩ | ⟨rfl, rfl, rfl⟩ |
      ⟨rfl, rfl, rfl⟩ := h
    exacts [hset _, hclear _, hset _, hclear _, hset _, hclear _]

theorem run_jump (target : String) (M : Simulator.Machine m.Cpu) :
    (m.processor.step ⟨m.branches.jump, [.label target]⟩).run M = (.ok (.jump target), M) := by
  cases m <;> rfl

/-! ### Instructions that the record follows -/

variable {i : Instr} {is : List Instr} {M M' : Simulator.Machine m.Cpu}

/-- Only a store to nowhere has no listed effect. -/
theorem isSome_effect? (h : i.args = [] → i.op ∉ ["sta", "stx", "sty", "stz"]) :
    (m.effect? i).isSome := by
  have hmos : (Mos.effect? i).isSome := by
    unfold Mos.effect?
    split
    all_goals try rfl
    all_goals split
    all_goals try rfl
    all_goals
      rename_i hop _ hargs
      exact absurd (by rw [hop]; decide) (h hargs)
  cases m with
  | mos6502 => exact hmos
  | i8080 => rfl
  | wdc65816 =>
    change (Mos.wideEffect? i).isSome
    unfold Mos.wideEffect?
    split
    all_goals first | rfl | exact hmos

/-- What can be executed has listed effects. -/
theorem isSome_effect?_of_execute (h : m.processor.execute is M = some M') :
    ∀ i ∈ is, (m.effect? i).isSome := by
  induction is generalizing M with
  | nil => exact fun i hi => absurd hi List.not_mem_nil
  | cons i is ih =>
    refine List.forall_mem_cons.mpr ⟨isSome_effect? fun hargs hop => ?_, ?_⟩
    · obtain ⟨op, args⟩ := i
      have hnone : m.processor.execute (⟨op, args⟩ :: is) M = none := by
        obtain rfl : args = [] := hargs
        simp only [List.mem_cons, List.not_mem_nil, or_false] at hop
        obtain rfl | rfl | rfl | rfl := hop
        all_goals cases m <;> rfl
      rw [hnone] at h
      cases h
    · rw [Simulator.Processor.execute] at h
      split at h
      · exact ih h
      · split at h
        · exact ih h
        · cases h

end Arch

/-! ### Symbols that stay where they are -/

namespace Arch

variable {m : Arch} {symbols symbols' : List (String × Int)} {name : String} {p : Int}
  {n k l d room : Nat}

theorem addressIn_grown (hgrown : ∀ name a, symbols.lookup name = some a →
    symbols'.lookup name = some a)
    (hplaced : (symbols.lookup name).isSome) :
    addressIn symbols' name = addressIn symbols name := by
  rw [addressIn, hgrown _ _ (lookup_addressIn hplaced)]
  rfl

/-- There is as much room when more symbols are placed. -/
theorem Roomy.grown (h : m.Roomy symbols k p room)
    (hgrown : ∀ name a, symbols.lookup name = some a → symbols'.lookup name = some a) :
    m.Roomy symbols' k p room := by
  refine ⟨fun name o ho => ?_, fun name o name' o' ho ho' he => ?_, fun name o ho => ?_, h.room⟩
  · rw [hgrown _ _ (lookup_addressIn (h.placed name o ho))]
    rfl
  · rw [addressIn_grown hgrown (h.placed name o ho),
      addressIn_grown hgrown (h.placed name' o' ho')] at he
    exact h.apart name o name' o' ho ho' he
  · rw [addressIn_grown hgrown (h.placed name o ho)]
    exact h.clear name o ho

theorem Keeping.refl (m : Arch) (n k d : Nat) (p : Int) (M : Simulator.Machine m.Cpu) :
    m.Keeping n k d p M M :=
  ⟨rfl, fun _ _ h => h, fun _ _ => rfl, fun _ _ _ _ _ => rfl⟩

theorem Keeping.trans {M₁ M₂ M₃ : Simulator.Machine m.Cpu} (h : m.Keeping n k d p M₁ M₂)
    (h' : m.Keeping n l d p M₂ M₃)
    (hk : k ≤ l) (hroomy : m.Roomy M₁.memory.symbols k p room) : m.Keeping n k d p M₁ M₃ := by
  refine ⟨h'.pointer.trans h.pointer, fun name a ha => h'.symbols _ _ (h.symbols _ _ ha),
    fun i hi => (h'.stack i hi).trans (h.stack i hi), fun j o hj hj' ho => ?_⟩
  have hcells := h'.cells j o hj (by omega) ho
  rw [addressIn_grown h.symbols (hroomy.placed _ o (.save hj' ho))] at hcells
  exact hcells.trans (h.cells j o hj hj' ho)

end Arch

/-! ### Open reservations -/

/-- A reservation that is open, with the registers that it has saved and the machine from which it
has saved them. -/
structure Opening (m : Arch) where
  reservation : Reservation
  units : List Register
  before : Simulator.Machine m.Cpu

namespace Opening

variable {m : Arch}

/-- The code that restores what a reservation has saved. -/
def code (o : Opening m) : List Instr := o.reservation.restore.getD []

/-- **The machine before the outermost reservation** that has saved a register. The last reservation
comes first. -/
def outermost? (u : Register) : List (Opening m) → Option (Simulator.Machine m.Cpu)
  | [] => none
  | o :: os => (outermost? u os).or (if u ∈ o.units then some o.before else none)

end Opening

/-- **Open reservations**, the last one first, from the machine before the first of them. The save
cells from `first` up to `n` and `d` bytes of the stack are in use. In between, these are kept. -/
inductive Opened (m : Arch) (first : Nat) (M₀ : Simulator.Machine m.Cpu) :
    List (Opening m) → Nat → Nat → Simulator.Machine m.Cpu → Prop
  | start : Opened m first M₀ [] first 0 M₀
  | between {os : List (Opening m)} {n n' d : Nat} {M M' : Simulator.Machine m.Cpu} :
    Opened m first M₀ os n d M →
      m.Proper M' → m.Keeping first n d (m.pointer M₀) M M' → n ≤ n' → Opened m first M₀ os n' d M'
  | pin {os : List (Opening m)} {n d : Nat} {M : Simulator.Machine m.Cpu} (ticket : Nat)
    (r : Option Register) :
      Opened m first M₀ os n d M → Opened m first M₀ (⟨⟨ticket, r, none⟩, [], M⟩ :: os) n d M
  | save {os : List (Opening m)} {n d : Nat} {M M' : Simulator.Machine m.Cpu} {us : List Register}
    {code : SaveCode}
      (ticket : Nat) (r : Option Register) : Opened m first M₀ os n d M →
        (∀ u ∈ us, u ∈ m.savable) → us.Nodup →
      m.saveCode n us = .ok code → m.processor.execute code.save M = some M' →
      Opened m first M₀ (⟨⟨ticket, r, some code.restore⟩, us, M⟩ :: os) code.next
        (d + code.depth m) M'

namespace Opened

variable {m : Arch} {first n d : Nat} {M₀ M N : Simulator.Machine m.Cpu} {os : List (Opening m)}
  {o : Opening m} {room cells : Nat}

/-- The machine while reservations are open. -/
structure Underway (m : Arch) (first : Nat) (M₀ : Simulator.Machine m.Cpu) (n d : Nat)
    (M : Simulator.Machine m.Cpu) :
    Prop where
  proper : m.Proper M
  pointer : m.pointer M = m.lowered (m.pointer M₀) d
  symbols : ∀ name a, M₀.memory.symbols.lookup name = some a → M.memory.symbols.lookup name = some a
  first_le : first ≤ n

section Saving

variable {us : List Register} {code : SaveCode} {M' : Simulator.Machine m.Cpu}
  (hus : ∀ u ∈ us, u ∈ m.savable) (hnodup : us.Nodup) (hcode : m.saveCode n us = .ok code)

include hus hnodup hcode

theorem inverts : code.Inverts m n us (code.depth m) := by
  obtain ⟨code', d, hcode', hinv⟩ := m.exists_inverts n hus hnodup
  obtain rfl : code = code' := Except.ok.inj (hcode.symm.trans hcode')
  rw [hinv.depth_eq]
  exact hinv

/-- Save code that has run can be undone. -/
theorem exists_saving (hM : m.Proper M)
    (hroomy : m.Roomy M.memory.symbols code.next (m.pointer M) (code.depth m + 2))
    (hrun : m.processor.execute code.save M = some M') :
    m.Saving n code.next (code.depth m) M M' ∧
      ∀ M₂, m.Proper M₂ → m.Keeping n code.next (code.depth m) (m.pointer M) M' M₂ →
        ∃ M₃, m.processor.execute code.restore M₂ = some M₃ ∧
          m.Restoring us (code.depth m) M M₂ M₃ := by
  obtain ⟨M₁, hsave, hsaving, hback⟩ := (inverts hus hnodup hcode).inverts M hM hroomy
  obtain rfl : M₁ = M' := Option.some.inj (hsave.symm.trans hrun)
  exact ⟨hsaving, hback⟩

end Saving

/-- Room that is left for code which saves more. -/
theorem Underway.roomy (h : Underway m first M₀ n d M) {e k : Nat} (hd : d + e ≤ room)
    (hk : k ≤ cells) (hroomy : m.Roomy M₀.memory.symbols cells (m.pointer M₀) (room + 2)) :
    m.Roomy M.memory.symbols k (m.pointer M₀) (d + e + 2) ∧
      m.Roomy M.memory.symbols k (m.pointer M) (e + 2) := by
  have hgrown := (hroomy.grown h.symbols).mono hk (show d + (e + 2) ≤ room + 2 by omega)
  rw [h.pointer]
  exact ⟨hgrown, hgrown.lowered⟩

theorem underway (h : Opened m first M₀ os n d M) (hM₀ : m.Proper M₀)
    (hroomy : m.Roomy M₀.memory.symbols cells (m.pointer M₀) (room + 2)) (hn : n ≤ cells)
    (hd : d ≤ room) :
    Underway m first M₀ n d M := by
  induction h with
  | start => exact ⟨hM₀, (Arch.lowered_zero hM₀.nonneg hM₀.lt).symm, fun _ _ h => h, Nat.le_refl _⟩
  | between _ hM' hkeep hle ih =>
    have hunder := ih (Nat.le_trans hle hn) hd
    exact ⟨hM', hkeep.pointer.trans hunder.pointer, fun name a ha =>
      hkeep.symbols _ _ (hunder.symbols _ _ ha), Nat.le_trans hunder.first_le hle⟩
  | pin _ _ _ ih => exact ih hn hd
  | save _ _ _ hus hnodup hcode hrun ih =>
    have hnext := (inverts hus hnodup hcode).next
    have hunder := ih (Nat.le_trans hnext hn) (by omega)
    obtain ⟨hsaving, -⟩ :=
      exists_saving hus hnodup hcode hunder.proper (hunder.roomy hd hn hroomy).2 hrun
    refine ⟨hsaving.proper hunder.proper, ?_, fun name a ha => ?_,
      Nat.le_trans hunder.first_le hnext⟩
    · rw [hsaving.pointer, hunder.pointer, Arch.lowered_lowered]
    · rw [hsaving.symbols]
      exact hunder.symbols _ _ ha

/-- **Releasing** the last reservation brings back what it has saved, and leaves the others open. -/
theorem release (h : Opened m first M₀ (o :: os) n d M) (hM₀ : m.Proper M₀)
    (hroomy : m.Roomy M₀.memory.symbols cells (m.pointer M₀) (room + 2)) (hn : n ≤ cells)
    (hd : d ≤ room) (hN : m.Proper N) (hkeep : m.Keeping first n d (m.pointer M₀) M N) :
    ∃ n' d' N', n' ≤ n ∧ d' ≤ d ∧ m.processor.execute o.code N = some N' ∧
      Opened m first M₀ os n' d' N' ∧
      ∀ u ∈ m.savable, m.holds N' u = if u ∈ o.units then m.holds o.before u else m.holds N u := by
  generalize hall : o :: os = all at h
  induction h generalizing N with
  | start => cases hall
  | @between all n n' d M M' hopen hM' hkeep' hle ih =>
    have hunder := hopen.underway hM₀ hroomy (Nat.le_trans hle hn) hd
    have hroom := (hunder.roomy (e := 0) hd (Nat.le_trans hle hn) hroomy).1
    obtain ⟨k, e, N', hk, he, hrest⟩ :=
      ih (Nat.le_trans hle hn) hd hN (hkeep'.trans hkeep hle hroom) hall
    exact ⟨k, e, N', Nat.le_trans hk hle, he, hrest⟩
  | @pin all n d M ticket r hopen ih =>
    obtain ⟨rfl, rfl⟩ := List.cons.inj hall
    refine ⟨n, d, N, Nat.le_refl _, Nat.le_refl _, rfl, hopen.between hN hkeep (Nat.le_refl _),
      fun u hu => ?_⟩
    rw [if_neg List.not_mem_nil]
  | @save all n d M M' us code ticket r hopen hus hnodup hcode hrun ih =>
    obtain ⟨rfl, rfl⟩ := List.cons.inj hall
    have hinv := inverts hus hnodup hcode
    have hunder := hopen.underway hM₀ hroomy (Nat.le_trans hinv.next hn) (by omega)
    obtain ⟨hroom, hroom'⟩ := hunder.roomy hd hn hroomy
    obtain ⟨hsaving, hback⟩ := exists_saving hus hnodup hcode hunder.proper hroom' hrun
    have hkeep' := hkeep.inner hunder.first_le
    rw [← hunder.pointer] at hkeep'
    obtain ⟨N', hrestore, hr⟩ := hback N hN hkeep'
    have hopen' := hopen.between (hr.proper hunder.proper hN)
      (hkeep.outer hroom hunder.pointer hus hinv.next hsaving hr) (Nat.le_refl _)
    refine ⟨n, d, N', hinv.next, Nat.le_add_right _ _, hrestore, hopen', fun u hu => ?_⟩
    have hsymbols : ∀ name a, M.memory.symbols.lookup name = some a →
        N.memory.symbols.lookup name = some a := by
      intro name a ha
      refine hkeep.symbols _ _ ?_
      rwa [hsaving.symbols]
    split
    · exact hr.holds_saved hroom' hsymbols hus ‹_›
    · exact hr.holds_other hroom' hsymbols hus hu ‹_›

/-- Where there is room, a reservation can save registers. -/
theorem exists_save (h : Opened m first M₀ os n d M) (hM₀ : m.Proper M₀)
    (hroomy : m.Roomy M₀.memory.symbols cells (m.pointer M₀) (room + 2)) {us : List Register}
    {code : SaveCode}
    (hus : ∀ u ∈ us, u ∈ m.savable) (hnodup : us.Nodup) (hcode : m.saveCode n us = .ok code)
    (hn : code.next ≤ cells) (hd : d + code.depth m ≤ room) (ticket : Nat) (r : Option Register) :
    ∃ M', Opened m first M₀ (⟨⟨ticket, r, some code.restore⟩, us, M⟩ :: os) code.next
      (d + code.depth m) M' := by
  have hinv := inverts hus hnodup hcode
  have hunder := h.underway hM₀ hroomy (Nat.le_trans hinv.next hn) (by omega)
  obtain ⟨M', hrun, -⟩ := hinv.inverts M hunder.proper (hunder.roomy hd hn hroomy).2
  exact ⟨M', h.save ticket r hus hnodup hcode hrun⟩

/-- Nothing is on the stack when no reservation is open. -/
theorem depth_nil (h : Opened m first M₀ [] n d M) : d = 0 := by
  generalize hall : [] = all at h
  induction h with
  | start => rfl
  | between _ _ _ _ ih => exact ih hall
  | pin => cases hall
  | save => cases hall

/-- **Restoring everything**, the last reservation first, is releasing the reservations in turn. -/
theorem restoreAll (h : Opened m first M₀ os n d M) (hM₀ : m.Proper M₀)
    (hroomy : m.Roomy M₀.memory.symbols cells (m.pointer M₀) (room + 2)) (hn : n ≤ cells)
    (hd : d ≤ room) :
    ∃ N, m.processor.execute (os.flatMap Opening.code) M = some N ∧ m.pointer N = m.pointer M₀ ∧
      ∀ u ∈ m.savable, m.holds N u = m.holds ((Opening.outermost? u os).getD M) u := by
  induction os generalizing n d M with
  | nil =>
    refine ⟨M, rfl, ?_, fun u hu => rfl⟩
    rw [(h.underway hM₀ hroomy hn hd).pointer, h.depth_nil, Arch.lowered_zero hM₀.nonneg hM₀.lt]
  | cons o os ih =>
    obtain ⟨n', d', N, hn', hd', hrun, hopen, hholds⟩ :=
      h.release hM₀ hroomy hn hd (h.underway hM₀ hroomy hn hd).proper (.refl ..)
    obtain ⟨N', hrun', hpointer, hholds'⟩ := ih hopen (Nat.le_trans hn' hn) (Nat.le_trans hd' hd)
    refine ⟨N', ?_, hpointer, fun u hu => ?_⟩
    · rw [List.flatMap_cons, Simulator.Processor.execute_append, hrun]
      exact hrun'
    · rw [hholds' u hu, Opening.outermost?]
      cases Opening.outermost? u os with
      | some _ => rfl
      | none =>
        rw [Option.none_or, Option.getD_none, hholds u hu]
        split <;> rfl

end Opened

/-! ### The code of a branch -/

namespace Draft

/-- The code of a branch out of an instruction, with its opposite and a label behind it. -/
def departure (d : Draft) (m : Arch) (op inverse skip target : String) : List Line :=
  if d.hasSaves then
    [.instr ⟨inverse, [.label skip]⟩] ++ d.restores.map Line.instr ++
      [.instr ⟨m.branches.jump, [.label target]⟩] ++ [.label skip]
  else [.instr ⟨op, [.label target]⟩]

theorem restores_eq_nil {d : Draft} (h : d.hasSaves = false) : d.restores = [] := by
  refine List.flatMap_eq_nil_iff.mpr fun r hr => ?_
  have hnone := List.any_eq_false.mp h r hr
  rw [Option.not_isSome_iff_eq_none.mp hnone]
  rfl

end Draft

/-- Building a branch succeeds, and leaves the reservations open. -/
theorem Site.exists_run_branch {s : Site} {w : Work} {op inverse : String}
    (hinverse : s.target.arch.branches.opposites.lookup op = some inverse)
    (hoffsets : w.draft.offsets = [])
    (heffects : ∀ i ∈ w.draft.restores, (s.target.arch.effect? i).isSome) (target : String) :
    ∃ skip w', s.run (Build.branch op target) w = (.ok (), w') ∧
      w'.draft.reserved = w.draft.reserved ∧
      w'.draft.lines = w.draft.lines ++ w.draft.departure s.target.arch op inverse skip target := by
  have heffect : ∀ op label, (s.target.arch.effect? ⟨op, [.label label]⟩).isSome :=
    fun _ _ => Arch.isSome_effect? fun h => by cases h
  have hdraft : ∀ v : Work, s.run Build.draft v = (.ok v.draft, v) := fun _ => rfl
  have harch : ∀ v : Work, s.run Build.arch v = (.ok s.target.arch, v) := fun _ => rfl
  have hstart : s.run (Build.branch op target) w = _ :=
    (run_bind (run_settleAll hoffsets)).trans (run_bind (hdraft w))
  cases hsaves : w.draft.hasSaves with
  | false =>
    obtain ⟨w', hrun, hlines, hlike, -⟩ := s.exists_run_emitInstr (heffect op target) w
    refine ⟨"", w', ?_, hlike.reserved, ?_⟩
    · rw [hstart, hsaves]
      exact hrun
    · rw [hlines, Draft.departure, hsaves]
      rfl
  | true =>
    obtain ⟨skip, ledger, hfresh⟩ : ∃ skip ledger, s.run Build.freshLabel w =
        (.ok skip, ⟨ledger, w.draft⟩) :=
      ⟨_, _, rfl⟩
    obtain ⟨w₁, hrun₁, hlines₁, hlike₁, -⟩ :=
      s.exists_run_emitInstr (heffect inverse skip) ⟨ledger, w.draft⟩
    have hrestores : w₁.draft.restores = w.draft.restores := by
      rw [Draft.restores, hlike₁.reserved, Draft.restores]
    obtain ⟨w₂, hrun₂, hlines₂, hlike₂, -⟩ := s.exists_run_emitAll heffects w₁
    obtain ⟨w₃, hrun₃, hlines₃, hlike₃, -⟩ :=
      s.exists_run_emitInstr (heffect s.target.arch.branches.jump target) w₂
    refine ⟨skip, ⟨w₃.ledger, { w₃.draft.append (.label skip) with known := .empty }⟩, ?_, ?_, ?_⟩
    · rw [hstart, hsaves, if_pos rfl, run_bind (harch w)]
      dsimp only
      rw [hinverse]
      refine (run_bind hfresh).trans ((run_bind hrun₁).trans ?_)
      have hall : s.run Build.restoreAll w₁ = (.ok (), w₂) := by
        refine (run_bind (hdraft w₁)).trans ?_
        rw [hrestores]
        exact hrun₂
      exact (run_bind hall).trans ((run_bind hrun₃).trans rfl)
    · exact hlike₃.reserved.trans (hlike₂.reserved.trans hlike₁.reserved)
    · change w₃.draft.lines ++ [.label skip] = _
      rw [hlines₃, hlines₂, hlines₁, Draft.departure, if_pos hsaves]
      simp only [List.append_assoc]

namespace Arch

variable {m : Arch} {op flag inverse skip target : String} {value : Bool}
  {M N : Simulator.Machine m.Cpu} {d : Draft}

theorem exists_flag (h : (op, flag, value) ∈ m.tests) (M : Simulator.Machine m.Cpu) :
    ∃ b, m.shows M flag = some (.flag b) := by
  have hflag : flag ∈ m.tests.map (·.2.1) := List.mem_map_of_mem h
  cases m with
  | mos6502 | wdc65816 =>
    have hall : ∀ f ∈ (Arch.tests .mos6502).map (·.2.1), f = "z" ∨ f = "n" ∨ f = "c" ∨
        f = "v" := by decide
    obtain rfl | rfl | rfl | rfl := hall _ hflag
    all_goals exact ⟨_, rfl⟩
  | i8080 =>
    have hall : ∀ f ∈ (Arch.tests .i8080).map (·.2.1), f = "z" ∨ f = "s" ∨ f = "cy" := by decide
    obtain rfl | rfl | rfl := hall _ hflag
    all_goals exact ⟨_, rfl⟩

theorem executed?_branch (h : (op, flag, value) ∈ m.tests) (target : String) :
    Line.executed? (.instr ⟨op, [.label target]⟩) = some ⟨op, [.label target]⟩ := by
  have hall : ∀ t ∈ m.tests, (t.1.toList.head? == some '.') = false := by cases m <;> decide
  exact Line.executed?_instr (hall _ h)

theorem executed?_jump (m : Arch) (target : String) :
    Line.executed? (.instr ⟨m.branches.jump, [.label target]⟩) = some
      ⟨m.branches.jump, [.label target]⟩ :=
  Line.executed?_instr (by cases m <;> decide)

/-- **Control leaves through the code of a branch** to its target if its flag is right, past the
restores, and else goes on behind it. -/
theorem passes_departure {s : Simulator m.Cpu} (hs : s.processor = m.processor)
    (hop : (op, flag, value) ∈ m.tests)
    (hinverse : (inverse, flag, !value) ∈ m.tests)
    (hrun : m.processor.execute d.restores M = some N)
    {c : Simulator.Code} {i t : Nat} (hsits : c.Sits i (d.departure m op inverse skip target))
    (htarget : c.labels.lookup target = some t) :
    (m.shows M flag = some (.flag value) → s.Passes c i t M N) ∧
      (m.shows M flag ≠ some (.flag value) →
        s.Passes c i (i + Line.count (d.departure m op inverse skip target)) M M) := by
  have hstep : ∀ {op value} (_ : (op, flag, value) ∈ m.tests) (label : String),
      (s.processor.step ⟨op, [.label label]⟩).run M = _ := fun h label => hs ▸ run_branch h label M
  cases hsaves : d.hasSaves with
  | false =>
    obtain rfl : M = N := by
      rw [Draft.restores_eq_nil hsaves] at hrun
      exact Option.some.inj hrun
    rw [Draft.departure, if_neg (by simp [hsaves])] at hsits ⊢
    obtain ⟨line, hline⟩ := hsits.head (executed?_branch hop target)
    have hone : Line.count [.instr ⟨op, [.label target]⟩] = 1 := by
      simp [Line.count, executed?_branch hop]
    refine ⟨fun h => ?_, fun h => ?_⟩
    · refine .of_jump hline ?_ htarget
      rw [hstep hop, if_pos h]
    · rw [hone]
      refine .of_next hline ?_
      rw [hstep hop, if_neg h]
  | true =>
    rw [Draft.departure, if_pos hsaves] at hsits ⊢
    obtain ⟨b, hflag⟩ := exists_flag hop M
    have hone : Line.count [.instr ⟨inverse, [.label skip]⟩] = 1 := by
      simp [Line.count, executed?_branch hinverse]
    obtain ⟨line, hline⟩ := hsits.left.left.left.head (executed?_branch hinverse skip)
    refine ⟨fun h => ?_, fun h => ?_⟩
    · have hover : s.Passes c i (i + 1) M M := by
        refine .of_next hline ?_
        rw [hstep hinverse, if_neg]
        rw [h]
        cases value <;> decide
      have hrestore : s.Passes c (i + 1) (i + 1 + Line.count (d.restores.map Line.instr)) M N := by
        refine .of_execute (hs ▸ hrun) ?_
        rw [← hone]
        exact hsits.left.left.right
      obtain ⟨line', hline'⟩ := hsits.left.right.head (executed?_jump m target)
      rw [Line.count_append, hone, ← Nat.add_assoc] at hline'
      refine (hover.trans hrestore).trans (.of_jump hline' ?_ htarget)
      rw [hs]
      exact run_jump target N
    · have hskip := hsits.label _ skip [] rfl
      have hnone : Line.count [.label skip] = 0 := rfl
      rw [Line.count_append _ [.label skip], hnone, Nat.add_zero]
      refine .of_jump hline ?_ hskip
      rw [hstep hinverse, if_pos]
      rw [hflag] at h ⊢
      cases b <;> cases value <;> simp_all

end Arch

/-! ### Branches -/

namespace Build

/-- **Branches out of an instruction restore everything, and only if they are taken.** Whatever
reservations are open, a branch that the processor knows is built, and leaves them open. Where its
code sits, control goes to the target exactly if the flag is right. Then every register that was
saved is as it was before the outermost reservation that has saved it, the others are as they were,
and the stack pointer is where it was before the first reservation. Else the machine does not change
at all, and the last reservation can be released later. -/
theorem branch_restores {s : Site} {m : Arch} (hm : s.target.arch = m) {w : Work}
    (op target : String) {first n d : Nat}
    {M₀ M : Simulator.Machine m.Cpu} {os : List (Opening m)} (hproper : m.Proper M₀)
    (hroomy : m.Roomy M₀.memory.symbols n (m.pointer M₀) (d + 2))
    (hopen : Opened m first M₀ os n d M)
    (hreserved : w.draft.reserved = os.map Opening.reservation) (hoffsets : w.draft.offsets = [])
    (hop : (m.branches.opposites.lookup op).isSome)
    (hknown : (m.processor.step ⟨op, [.label target]⟩).run M ≠ (.error (.unknownMnemonic op), M)) :
    ∃ flag value ls w', (op, flag, value) ∈ m.tests ∧ s.run (branch op target) w = (.ok (), w') ∧
      w'.draft.lines = w.draft.lines ++ ls ∧ w'.draft.reserved = w.draft.reserved ∧
      ∀ (sim : Simulator m.Cpu) c, sim.processor = m.processor →
        (∀ i t, c.Sits i ls → c.labels.lookup target = some t →
          (m.shows M flag = some (.flag value) →
            ∃ N, sim.Passes c i t M N ∧ m.pointer N = m.pointer M₀ ∧
              ∀ u ∈ m.savable, m.holds N u = m.holds ((Opening.outermost? u os).getD M) u) ∧
          (m.shows M flag ≠ some (.flag value) → sim.Passes c i (i + Line.count ls) M M)) ∧
        ∀ o rest, os = o :: rest → ∀ v N, v.draft.reserved = w'.draft.reserved → m.Proper N →
          m.Keeping first n d (m.pointer M₀) M N →
            ∃ v' ks N', s.run (release o.reservation) v = (.ok (), v') ∧
              v'.draft.lines = v.draft.lines ++ ks ∧
              v'.draft.reserved = rest.map Opening.reservation ∧
              (∀ j, c.Sits j ks → sim.Passes c j (j + Line.count ks) N N') ∧
              (∃ n' d', Opened m first M₀ rest n' d' N') ∧
              ∀ u ∈ m.savable, m.holds N' u = if u ∈ o.units then m.holds o.before u
                else m.holds N u := by
  subst hm
  obtain ⟨flag, value, htest⟩ := Arch.exists_mem_tests hop hknown
  obtain ⟨inverse, hlookup, hinverse⟩ := Arch.exists_opposite htest
  obtain ⟨N, hrun, hpointer, hholds⟩ :=
    hopen.restoreAll hproper hroomy (Nat.le_refl _) (Nat.le_refl _)
  have hrestores : w.draft.restores = os.flatMap Opening.code := by
    rw [Draft.restores, hreserved, List.flatMap_map]
    rfl
  rw [← hrestores] at hrun
  obtain ⟨skip, w', hbranch, hsame, hlines⟩ :=
    Site.exists_run_branch hlookup hoffsets (Arch.isSome_effect?_of_execute hrun) target
  refine ⟨flag, value, _, w', htest, hbranch, hlines, hsame, fun sim c hsim =>
    ⟨fun i t hsits htarget => ?_, ?_⟩⟩
  · obtain ⟨htaken, helse⟩ := Arch.passes_departure hsim htest hinverse hrun hsits htarget
    exact ⟨fun h => ⟨N, htaken h, hpointer, hholds⟩, helse⟩
  · rintro o rest rfl v N hv hN hkeep
    obtain ⟨n', d', N', -, -, hrun', hopen', hholds'⟩ :=
      hopen.release hproper hroomy (Nat.le_refl _) (Nat.le_refl _) hN hkeep
    have htop : v.draft.reserved = o.reservation :: rest.map Opening.reservation := by
      rw [hv, hsame, hreserved, List.map_cons]
    obtain ⟨v', hemit, hlines', hlike, -⟩ :=
      s.exists_run_emitAll (Arch.isSome_effect?_of_execute hrun')
      ⟨v.ledger, { v.draft with reserved := rest.map Opening.reservation }⟩
    refine ⟨v', _, N', (Site.run_release htop).trans hemit, hlines', hlike.reserved,
      fun j hsits => ?_, ⟨n', d', hopen'⟩, hholds'⟩
    exact .of_execute (hsim ▸ hrun') hsits

end Build

/-! ### A branch out of nested reservations -/

namespace Inverse

open Simulator (IntelCpu)

/-- A place where code is built for the 8080. -/
def site : Site := ⟨Arch.target .i8080, ⟨"f", [], .void, [], [], []⟩, ⟨[]⟩, 1, none⟩

/-- Code in which `mixed` was saved, then `a` once more, and then `d` was pinned. -/
def nested : Work :=
  ⟨.empty, { Draft.start .empty .unknown with
    reserved := [⟨2, some Intel.d, none⟩, ⟨1, some Intel.a, some [⟨"pop", [.reg "psw"]⟩]⟩,
      ⟨0, some Intel.hl, some mixedCode.restore⟩]
    saves := 1 }⟩

/-- A branch that restores all of it. -/
def exit : List Line :=
  [.instr ⟨"jnz", [.label "_L1"]⟩, .instr ⟨"pop", [.reg "psw"]⟩] ++
    mixedCode.restore.map Line.instr ++ [.instr ⟨"jmp", [.label "out"]⟩, .label "_L1"]

/-- The branch, and a return at its target. -/
def exitRoutine : Simulator.Code :=
  ⟨"f", ((exit.filterMap Line.executed? ++ [Instr.mk "ret" [], Instr.mk "ret" []]).map
    (Simulator.Placed.mk 0)).toArray, [("_L1", 9), ("out", 10)]⟩

theorem sits_exit : exitRoutine.Sits 0 exit := Simulator.Code.sits_of_holds (by decide)

theorem lines_exit : (site.run (Build.branch "jz" "out") nested).2.draft.lines = exit := by
  decide +kernel

/-- Before the branch: `mixed` was saved, all registers were overwritten, `a` was saved again, all
registers were cleared, and `d` was pinned. -/
theorem exists_opened (z : Bool) : ∃ M₁ M₂ : Simulator.Machine IntelCpu, M₂.cpu.sp = 0xfefa ∧
    Opened .i8080 0 mixedStart
      [⟨⟨2, some Intel.d, none⟩, [], filled 0 z M₂⟩,
        ⟨⟨1, some Intel.a, some [⟨"pop", [.reg "psw"]⟩]⟩, [Intel.a], filled 9 true M₁⟩,
        ⟨⟨0, some Intel.hl, some mixedCode.restore⟩, mixed, mixedStart⟩] 1 6 (filled 0 z M₂) := by
  have hroomy : Arch.Roomy .i8080 mixedStart.memory.symbols 1 0xff00 (6 + 2) := roomy_mixedStart
  have hmixed : ∀ u ∈ mixed, u ∈ Arch.savable .i8080 := by decide
  have hcode : Arch.saveCode .i8080 0 mixed = .ok mixedCode := by cbv
  have ha : ∀ u ∈ [Intel.a], u ∈ Arch.savable .i8080 := by decide
  have hagain : Arch.saveCode .i8080 1 [Intel.a] = .ok
      ⟨[⟨"push", [.reg "psw"]⟩], [⟨"pop", [.reg "psw"]⟩], 1⟩ := by cbv
  have hkeep : ∀ (v z n d) (M : Simulator.Machine IntelCpu),
      Arch.Keeping .i8080 0 n d 0xff00 M (filled v z M) :=
    fun _ _ _ _ _ => ⟨rfl, fun _ _ h => h, fun _ _ => rfl, fun _ _ _ _ _ => rfl⟩
  have hfirst : Opened .i8080 0 mixedStart [] 0 0 mixedStart := .start
  obtain ⟨M₁, hopen⟩ := hfirst.exists_save proper_mixedStart hroomy hmixed (by decide) hcode
    (by decide) (by decide) 0 (some Intel.hl)
  have hM₁ := hopen.underway proper_mixedStart hroomy (by decide) (by decide)
  have hsecond := hopen.between (proper_filled 9 true hM₁.proper.nonneg hM₁.proper.lt) (hkeep ..)
    (Nat.le_refl 1)
  obtain ⟨M₂, hopen'⟩ := hsecond.exists_save proper_mixedStart hroomy ha (by decide) hagain
    (by decide) (by decide) 1 (some Intel.a)
  have hM₂ := hopen'.underway proper_mixedStart hroomy (by decide) (by decide)
  have hthird := hopen'.between (proper_filled 0 z hM₂.proper.nonneg hM₂.proper.lt) (hkeep ..)
    (Nat.le_refl 1)
  exact ⟨M₁, M₂, hM₂.pointer, hthird.pin 2 (some Intel.d)⟩

/-- The branch is taken if the zero flag is set: `a` is as it was before the first of the two
reservations that have saved it, and the registers that nobody has saved stay cleared. Else nothing
happens. -/
theorem exit_restores :
    (∃ M N : Simulator.Machine IntelCpu, M.cpu = ⟨0, 0, 0, 0, 0, 0, 0, 0xfefa, false, true, false⟩ ∧
      Simulator.Passes ⟨IntelCpu.processor, [], [], 0⟩ exitRoutine 0 10 M N ∧ N.cpu.sp = 0xff00 ∧
        [N.cpu.a, N.cpu.b, N.cpu.c, N.cpu.d, N.cpu.e, N.cpu.h, N.cpu.l] = [1, 2, 0, 0, 0, 6, 7]) ∧
    ∃ M : Simulator.Machine IntelCpu, M.cpu = ⟨0, 0, 0, 0, 0, 0, 0, 0xfefa, false, false, false⟩ ∧
      Simulator.Passes ⟨IntelCpu.processor, [], [], 0⟩ exitRoutine 0 9 M M := by
  have hroomy : Arch.Roomy .i8080 mixedStart.memory.symbols 1 0xff00 (6 + 2) := roomy_mixedStart
  have hcpu : ∀ (z) {M : Simulator.Machine IntelCpu}, M.cpu.sp = 0xfefa →
      (filled 0 z M).cpu = ⟨0, 0, 0, 0, 0, 0, 0, 0xfefa, false, z, false⟩ := by
    intro z M h
    rw [filled, h]
    rfl
  -- the lines that are emitted do not depend on the machine
  have hlines : ∀ {ls w'}, site.run (Build.branch "jz" "out") nested = (.ok (), w') →
      w'.draft.lines = nested.draft.lines ++ ls → ls = exit := by
    intro ls w' hrun h
    have hexit := lines_exit
    rw [hrun] at hexit
    exact h.symm.trans hexit
  have hflag : ∀ {flag value}, ("jz", flag, value) ∈ Arch.tests .i8080 → flag = "z" ∧
      value = true := by
    intro flag value h
    simpa [Arch.tests] using h
  constructor
  · obtain ⟨M₁, M₂, hsp, hopen⟩ := exists_opened true
    obtain ⟨flag, value, ls, w', htest, hrun, hls, -, h⟩ := Build.branch_restores
      (show site.target.arch = .i8080 from rfl) "jz" "out" proper_mixedStart hroomy hopen
      (show nested.draft.reserved = _ from rfl) rfl rfl (by rintro ⟨⟩)
    obtain ⟨rfl, rfl⟩ := hflag htest
    obtain rfl := hlines hrun hls
    obtain ⟨N, hpass, hpointer, hholds⟩ :=
      ((h ⟨IntelCpu.processor, [], [], 0⟩ exitRoutine rfl).1 0 10 sits_exit rfl).1 rfl
    refine ⟨filled 0 true M₂, N, hcpu true hsp, hpass, hpointer, ?_⟩
    have hnumber : ∀ {v w : Int}, some (Reading.number v) = some (.number w) → v = w := by
      intro v w h
      exact Reading.number.inj (Option.some.inj h)
    have ha : N.cpu.a = 1 := hnumber (hholds Intel.a (by decide))
    have hb : N.cpu.b = 2 := hnumber (hholds Intel.b (by decide))
    have hc : N.cpu.c = 0 := hnumber (hholds Intel.c (by decide))
    have hd : N.cpu.d = 0 := hnumber (hholds Intel.d (by decide))
    have he : N.cpu.e = 0 := hnumber (hholds Intel.e (by decide))
    have hh : N.cpu.h = 6 := hnumber (hholds Intel.h (by decide))
    have hl : N.cpu.l = 7 := hnumber (hholds Intel.l (by decide))
    rw [ha, hb, hc, hd, he, hh, hl]
  · obtain ⟨M₁, M₂, hsp, hopen⟩ := exists_opened false
    obtain ⟨flag, value, ls, w', htest, hrun, hls, -, h⟩ := Build.branch_restores
      (show site.target.arch = .i8080 from rfl) "jz" "out" proper_mixedStart hroomy hopen
      (show nested.draft.reserved = _ from rfl) rfl rfl (by rintro ⟨⟩)
    obtain ⟨rfl, rfl⟩ := hflag htest
    obtain rfl := hlines hrun hls
    refine ⟨filled 0 false M₂, hcpu false hsp, ?_⟩
    refine ((h ⟨IntelCpu.processor, [], [], 0⟩ exitRoutine rfl).1 0 10 sits_exit rfl).2 ?_
    rintro ⟨⟩

end Inverse

end Octet
