import Octet.Proofs.Emitted.Building

/-!
# Reservations

Taking a register may park what it holds in save cells. They are numbered on from those in use, and
all of them are asked for before the code that saves is emitted, so that both this code and the code
that is kept back refer to known symbols. A displaced pointer is moved in its cell, and moved back
before control leaves the instruction.

The code for all of this is made from the registers of the machine: the 6502 has mnemonics that
contain their names, and the 8080 pushes and counts whole pairs. So it can always be executed.

## Main results

* `Arch.uses_saveCode`, `Arch.known_adjustCode` — saving registers and moving pointers
* `Build.brings_reserve`, `Build.keeps_release` — taking a register and giving it back
* `Build.cites_locate` — where an operand is
* `Build.keeps_jump`, `Build.keeps_branch` — leaving the instruction
-/

namespace Octet

open Assembly

/-! ### Save code -/

/-- Code that saves and code that restores, both with some symbols only. The save cells among the
symbols are those from `n` on that the code uses. -/
structure SaveCode.Uses (m : Arch) (X : Prop) (N : Set String) (n : Nat) (c : SaveCode) : Prop where
  le_next : n ≤ c.next
  save : (∀ i, n ≤ i → i < c.next → Build.saveCellName i ∈ N) → ∀ i ∈ c.save, i.Known m X N
  restore : (∀ i, n ≤ i → i < c.next → Build.saveCellName i ∈ N) → ∀ i ∈ c.restore, i.Known m X N

namespace SaveCode

variable {m : Arch} {X : Prop} {N : Set String} {n : Nat} {c d : SaveCode}
  {save restore : List Instr}

theorem uses_none : (none n).Uses m X N n := ⟨le_refl n, by simp [none], by simp [none]⟩

/-- Units that are saved without a cell. -/
theorem uses_of_pushed (hsave : ∀ i ∈ save, i.Known m X N)
    (hrestore : ∀ i ∈ restore, i.Known m X N) :
    Uses m X N n ⟨save, restore, n⟩ :=
  ⟨le_refl n, fun _ => hsave, fun _ => hrestore⟩

/-- A unit that is saved in a cell. -/
theorem uses_of_parked (hsave : Build.saveCellName n ∈ N → ∀ i ∈ save, i.Known m X N)
    (hrestore : Build.saveCellName n ∈ N → ∀ i ∈ restore, i.Known m X N) :
    Uses m X N n ⟨save, restore, n + 1⟩ :=
  ⟨Nat.le_succ n, fun h => hsave (h n (le_refl n) (Nat.lt_succ_self n)),
    fun h => hrestore (h n (le_refl n) (Nat.lt_succ_self n))⟩

theorem Uses.andThen (hc : c.Uses m X N n) (hd : d.Uses m X N c.next) :
    (c.andThen d).Uses m X N n := by
  -- the cells of the first part come before those of the second one
  have hfirst : (∀ i, n ≤ i → i < d.next → Build.saveCellName i ∈ N) →
      ∀ i, n ≤ i → i < c.next → Build.saveCellName i ∈ N :=
    fun h i hi hlt => h i hi (hlt.trans_le hd.le_next)
  have hsecond : (∀ i, n ≤ i → i < d.next → Build.saveCellName i ∈ N) →
      ∀ i, c.next ≤ i → i < d.next → Build.saveCellName i ∈ N :=
    fun h i hi hlt => h i (hc.le_next.trans hi) hlt
  refine ⟨hc.le_next.trans hd.le_next, fun h i hi => ?_, fun h i hi => ?_⟩
  · exact (List.mem_append.mp hi).elim (hc.save (hfirst h) i) (hd.save (hsecond h) i)
  · exact (List.mem_append.mp hi).elim (hd.restore (hsecond h) i) (hc.restore (hfirst h) i)

end SaveCode

namespace Mos

variable {m : Arch} {X : Prop} {N : Set String} {n : Nat} {u : Register} {c : SaveCode}

theorem known_mos (hm : m ≠ .i8080) {i : Instr} (h : ∀ a ∈ i.args, a.Known N)
    (hx : executes i = true) :
    i.Known m X N :=
  ⟨h, fun _ => Arch.admits_of_executes ((Arch.executes_mos hm i).trans hx)⟩

theorem known_copyThroughA (hm : m ≠ .i8080) {dest source : String} (hdest : dest ∈ N)
    (hsource : source ∈ N) (width : Int) : ∀ i ∈ copyThroughA dest source width, i.Known m X N := by
  intro i hi
  simp only [copyThroughA, List.cons_append, List.mem_cons, List.mem_append, List.mem_flatMap,
    List.not_mem_nil, or_false] at hi
  rcases hi with rfl | ⟨j, -, rfl | rfl⟩ | rfl
  all_goals exact known_mos hm (by simp [hdest, hsource]) rfl

/-- Code with a wide accumulator. -/
theorem known_wide (hm : m ≠ .i8080) {code : List Instr} (h : ∀ i ∈ code, i.Known m X N) :
    ∀ i ∈ wide code, i.Known m X N := by
  intro i hi
  simp only [wide, List.mem_append, List.mem_cons, List.not_mem_nil, or_false] at hi
  rcases hi with ((rfl | rfl) | hi) | rfl | rfl
  · exact known_mos hm (by simp) rfl
  · exact ⟨by simp, fun _ => rfl⟩
  · exact h i hi
  · exact known_mos hm (by simp) rfl
  · exact ⟨by simp, fun _ => rfl⟩

theorem uses_saveUnit (hm : m ≠ .i8080) (hu : u.isCell = true → u.address ∈ N)
    (h : saveUnit n u = .ok c) :
    c.Uses m X N n := by
  unfold saveUnit at h
  dsimp only at h
  split at h
  · cases h
    exact SaveCode.uses_of_pushed (by simpa using known_mos hm (by simp) rfl)
      (by simpa using known_mos hm (by simp) rfl)
  split at h
  · rename_i hindex
    cases h
    simp only [Bool.or_eq_true, beq_iff_eq] at hindex
    rcases hindex with rfl | rfl
    all_goals
      exact SaveCode.uses_of_parked (fun hn => by simpa using known_mos hm (by simpa using hn) rfl)
        fun hn => by simpa using known_mos hm (by simpa using hn) rfl
  split at h
  · rename_i hcell
    cases h
    exact SaveCode.uses_of_parked (fun hn => known_copyThroughA hm hn (hu hcell) _)
      fun hn => known_copyThroughA hm (hu hcell) hn _
  · cases h

theorem uses_saveWideUnit (hm : m ≠ .i8080) (hu : u.isCell = true → u.address ∈ N)
    (h : saveWideUnit n u = .ok c) :
    c.Uses m X N n := by
  have hcopy : ∀ dest ∈ N, ∀ source ∈ N, ∀ i ∈ copyWord dest source, i.Known m X N := by
    intro dest hdest source hsource
    refine known_wide hm fun i hi => ?_
    fin_cases hi
    all_goals exact known_mos hm (by simp [hdest, hsource]) rfl
  unfold saveWideUnit at h
  dsimp only at h
  split at h
  · rename_i hindex
    cases h
    simp only [Bool.or_eq_true, beq_iff_eq] at hindex
    rcases hindex with (rfl | rfl) | rfl
    all_goals
      exact SaveCode.uses_of_pushed (by simpa using known_mos hm (by simp) rfl)
        (by simpa using known_mos hm (by simp) rfl)
  split at h
  · rename_i hcell
    split at h
    · cases h
      exact SaveCode.uses_of_parked (fun hn => hcopy _ hn _ (hu hcell)) fun hn =>
        hcopy _ (hu hcell) _ hn
    · cases h
      exact SaveCode.uses_of_parked (fun hn => known_copyThroughA hm hn (hu hcell) _)
        fun hn => known_copyThroughA hm (hu hcell) hn _
  · cases h

theorem uses_saveUnits {one : Nat → Register → Except Fault SaveCode} {us : List Register}
    (hone : ∀ n, ∀ u ∈ us, ∀ c, one n u = .ok c → c.Uses m X N n) (h : saveUnits one n us = .ok c) :
    c.Uses m X N n := by
  induction us generalizing n c with
  | nil =>
    cases h
    exact SaveCode.uses_none
  | cons u us ih =>
    obtain ⟨d, hu, h⟩ := Listing.Except.bind_eq_ok_iff.mp h
    obtain ⟨e, hus, h⟩ := Listing.Except.bind_eq_ok_iff.mp h
    cases h
    exact (hone n u (.head _) d hu).andThen (ih (fun n v hv => hone n v (.tail _ hv)) hus)

end Mos

namespace Intel

variable {X : Prop} {N : Set String}

theorem known_intel {i : Instr} (h : ∀ a ∈ i.args, a.Known N) (hx : executes i = true) :
    i.Known .i8080 X N :=
  ⟨h, fun _ => Arch.admits_of_executes hx⟩

/-- Pairs are named by registers. -/
theorem known_pairArg {p : Register} {a : Arg} (h : pairArg p = .ok a) : a.Known N := by
  unfold pairArg at h
  split at h
  · cases h
    exact Arg.known_reg
  · cases h

/-- A byte is parked in a cell, through the accumulator. -/
theorem uses_saveAlone (n : Nat) {u : Register} (hu : u ∈ Arch.bytes .i8080) :
    (saveAlone n u).Uses .i8080 X N n := by
  have hexecutes : ∀ u ∈ Arch.bytes .i8080, executes ⟨"mov", [.reg "a", .reg u.name]⟩ = true ∧
      executes ⟨"mov", [.reg u.name, .reg "a"]⟩ = true := by decide
  obtain ⟨hload, hstore⟩ := hexecutes u hu
  refine SaveCode.uses_of_parked (fun hn i hi => ?_) fun hn i hi => ?_
  · fin_cases hi
    all_goals exact known_intel (by simp [psw, hn]) (by first | rfl | assumption)
  · fin_cases hi
    all_goals exact known_intel (by simp [psw, hn]) (by first | rfl | assumption)

/-- Two halves that are saved together are pushed as a pair. -/
theorem mem_registers_of_pairAndMate? {u p mate : Register} (h : pairAndMate? u = some (p, mate)) :
    p ∈ Arch.registers .i8080 := by
  obtain ⟨q, hq, h⟩ := List.exists_of_findSome?_eq_some h
  obtain rfl : q = p := by
    split at h
    · split at h
      · exact (Prod.mk.inj (Option.some.inj h)).1
      · split at h
        · exact (Prod.mk.inj (Option.some.inj h)).1
        · cases h
    · cases h
  exact (by decide : ∀ q ∈ [bc, de, hl], q ∈ Arch.registers .i8080) q hq

theorem uses_saveUnits {n : Nat} {done us : List Register} {c : SaveCode}
    (hus : ∀ u ∈ us, u ∈ Arch.bytes .i8080)
    (h : saveUnits n done us = .ok c) : c.Uses .i8080 X N n := by
  have hpush : ∀ a : Arg, a.Known N → a.isReg ("psw" :: pairOperands) = true → ∀ n,
      SaveCode.Uses .i8080 X N n ⟨[⟨"push", [a]⟩], [⟨"pop", [a]⟩], n⟩ := by
    intro a hknown ha n
    have hone : ∀ op, executes ⟨op, [a]⟩ = takes [Arg.isReg ("psw" :: pairOperands)] [a] →
        ∀ i ∈ [(⟨op, [a]⟩ : Instr)], i.Known .i8080 X N := by
      intro op hop i hi
      obtain rfl := List.mem_singleton.mp hi
      exact known_intel (by simpa using hknown) (hop.trans ((takes_one _ a).trans ha))
    exact SaveCode.uses_of_pushed (hone "push" rfl) (hone "pop" rfl)
  induction us generalizing n done c with
  | nil =>
    cases h
    exact SaveCode.uses_none
  | cons u us ih =>
    have hrest : ∀ u ∈ us, u ∈ Arch.bytes .i8080 := fun v hv => hus v (.tail _ hv)
    unfold saveUnits at h
    split at h
    · exact ih hrest h
    split at h
    · obtain ⟨d, hd, h⟩ := Listing.Except.bind_eq_ok_iff.mp h
      cases h
      exact (hpush psw (by simp [psw]) rfl n).andThen (ih hrest hd)
    split at h
    · rename_i p mate hmate
      obtain ⟨a, ha, h⟩ := Listing.Except.bind_eq_ok_iff.mp h
      obtain ⟨d, hd, h⟩ := Listing.Except.bind_eq_ok_iff.mp h
      cases h
      have hp := mem_registers_of_pairAndMate? (Option.eq_some_of_filter_eq_some hmate)
      have hreg : a.isReg ("psw" :: pairOperands) = true := by
        have hpair := Arch.isReg_pairArg hp ha
        cases a <;> simp_all [Arg.isReg]
      exact (hpush a (known_pairArg ha) hreg n).andThen (ih hrest hd)
    · obtain ⟨d, hd, h⟩ := Listing.Except.bind_eq_ok_iff.mp h
      cases h
      exact (uses_saveAlone n (hus u (.head _))).andThen (ih hrest hd)

end Intel

/-- **Save code** consists of instructions of the machine, and refers to the cells among the units
and to its save cells. -/
theorem Arch.uses_saveCode {m : Arch} {X : Prop} {N : Set String} {n : Nat} {units : List Register}
    {c : SaveCode}
    (hunits : ∀ u ∈ units, ∃ r ∈ m.registers, u ∈ r.units)
    (hcells : ∀ u ∈ units, u.isCell = true → u.address ∈ N)
    (h : m.saveCode n units = .ok c) : c.Uses m X N n := by
  cases m with
  | mos6502 =>
    exact Mos.uses_saveUnits (fun n u hu c => Mos.uses_saveUnit (by decide) (hcells u hu)) h
  | wdc65816 =>
    refine Mos.uses_saveUnits (fun n u hu c => Mos.uses_saveWideUnit (by decide) (hcells u ?_)) h
    exact (List.mem_append.mp hu).elim List.mem_of_mem_filter List.mem_of_mem_filter
  | i8080 =>
    refine Intel.uses_saveUnits (fun u hu => ?_) h
    obtain ⟨r, hr, hu⟩ := hunits u hu
    have hbytes : ∀ r ∈ Arch.registers .i8080, ∀ u ∈ r.units, u ∈ Arch.bytes .i8080 := by decide
    exact hbytes r hr u hu

/-! ### Moving pointers -/

/-- **Code that moves a pointer** consists of instructions of the machine, and refers to the cell of
the pointer. -/
theorem Arch.known_adjustCode {m : Arch} {X : Prop} {N : Set String} {p : Register}
    (hp : p ∈ m.registers)
    (haddress : m ≠ .i8080 → p.address ∈ N) {delta : Int} {is : List Instr}
    (h : m.adjustCode p delta = .ok is) :
    ∀ i ∈ is, i.Known m X N := by
  have hmos : ∀ m : Arch, m ≠ .i8080 → p.address ∈ N → ∀ i ∈ Mos.adjustCode p delta,
      i.Known m X N := by
    intro m hm haddress i hi
    simp only [Mos.adjustCode, List.mem_cons, List.not_mem_nil, or_false] at hi
    rcases hi with rfl | rfl | rfl | rfl | rfl | rfl | rfl | rfl | rfl | rfl | rfl
    all_goals exact Mos.known_mos hm (by simp [haddress]) rfl
  cases m with
  | mos6502 =>
    cases h
    exact hmos _ (by decide) (haddress (by decide))
  | wdc65816 =>
    cases h
    exact hmos _ (by decide) (haddress (by decide))
  | i8080 =>
    unfold adjustCode Intel.adjustCode at h
    dsimp only at h
    split at h
    · cases h
      simp
    split at h
    · obtain ⟨a, ha, h⟩ := Listing.Except.bind_eq_ok_iff.mp h
      cases h
      have hreg := Arch.isReg_pairArg hp ha
      intro i hi
      obtain rfl := List.eq_of_mem_replicate hi
      refine Intel.known_intel (by simpa using Intel.known_pairArg ha) ?_
      split
      · exact (takes_one _ a).trans hreg
      · exact (takes_one _ a).trans hreg
    · cases h
      intro i hi
      fin_cases hi
      all_goals exact Intel.known_intel (by simp [Intel.psw]) rfl

namespace Build

variable {s : Site} {D : List String} {X : Prop} {K : Vocabulary s D X}

/-! ### Reservations -/

theorem cites_hold {r : Option Register} {restore : Option (List Instr)}
    (h : ∀ i ∈ restore.getD [], i.Known s.target.arch X K.names) :
    Cites K (hold r restore) (·.Known K) := by
  refine .draft fun d => ?_
  have hhold : Keeps K (modifyDraft fun d' =>
      { d' with reserved := ⟨d.tickets, r, restore⟩ :: d'.reserved, tickets :=
        d'.tickets + 1 }) := by
    refine keeps_modifyDraft fun N d' hN hd => ⟨hd.lines, ?_, hd.offsets⟩
    rintro res (_ | ⟨_, hres⟩)
    · exact fun i hi => (h i hi).mono hN
    · exact hd.reserved res hres
  exact hhold.bind fun _ => .pure h

/-- A pin keeps no code back. -/
theorem cites_pin {r : Option Register} : Cites K (pin r) (·.Known K) := cites_hold (by simp)

/-- A pin is returned behind those that are put on after it. -/
theorem cites_pin_append {r : Option Register} {pins : Build (List Reservation)}
    (h : Cites K pins fun held => ∀ res ∈ held, res.Known K) :
    Cites K (do
      let held ← pin r
      return (← pins) ++ [held]) fun held => ∀ res ∈ held, res.Known K := by
  refine cites_pin.bind fun held hheld => h.bind fun rest hrest => .pure ?_
  simpa [or_imp, forall_and] using ⟨hrest, hheld⟩

/-- Save cells are asked for one after the other. -/
theorem run_saveCells {α : Type} (xs : List α) (w : Work) : ∃ w',
    s.run (xs.forM fun _ => discard saveCell) w = (.ok (), w') ∧
      w.ledger.Grows s.target.arch w'.ledger ∧
      (∀ N, w.draft.Within s.target.arch X N → w'.draft.Within s.target.arch X N) ∧
        ∀ i, w.draft.saves ≤ i → i < w.draft.saves + xs.length →
          saveCellName i ∈ w'.ledger.names := by
  induction xs generalizing w with
  | nil => exact ⟨w, rfl, .refl _ _, fun _ h => h, fun i hi hlt => absurd hlt (by simpa using hi)⟩
  | cons x xs ih =>
    let l := w.ledger.reserve (saveCellName w.draft.saves) 2 s.target.arch.scratchSegment
    obtain ⟨w', hrun, hgrows, hwithin, hmem⟩ := ih ⟨l, { w.draft with saves := w.draft.saves + 1 }⟩
    refine ⟨w', hrun, (Ledger.grows_reserve (.inr ⟨_, rfl⟩) w.ledger).trans hgrows, fun N hw => ?_,
      fun i hi hlt => ?_⟩
    · exact hwithin N ⟨hw.lines, hw.reserved, hw.offsets⟩
    · rcases hi.eq_or_lt with rfl | hi
      · exact hgrows.subset (Ledger.mem_names_reserve ..)
      · exact hmem i hi (by simp only [List.length_cons] at hlt ⊢; omega)

/-- **Saving units** in cells that are asked for. -/
theorem brings_save {units : List Register} (h : ∀ u ∈ units, ∃ r ∈ s.target.arch.registers,
    u ∈ r.units) :
    Brings K (save units) fun restore K' => ∀ i ∈ restore, i.Known s.target.arch X K'.names := by
  have hcells : ∀ u ∈ units, u.isCell = true → u.address ∈ K.names := by
    intro u hu hcell
    obtain ⟨r, hr, hmem⟩ := h u hu
    have hunits : ∀ r ∈ s.target.arch.registers, ∀ u ∈ r.units, u.isCell = true →
        u ∈ s.target.arch.registers := by
      cases s.target.arch <;> decide
    exact K.mem_address (hunits r hr u hmem hcell) hcell
  intro G w hD hK hw r w' hrun
  let tail (code : SaveCode) : Build (List Instr) := do
    emitAll code.save
    return code.restore
  have hsave : s.run (save units) w = s.run
    (ofExcept (s.target.arch.saveCode w.draft.saves units) >>= fun code =>
      (List.range (code.next - w.draft.saves)).forM (fun _ => discard saveCell) >>= fun _ =>
        tail code) w := rfl
  rw [hsave] at hrun
  cases hcode : s.target.arch.saveCode w.draft.saves units with
  | error e =>
    rw [hcode] at hrun
    cases hrun
    exact ⟨.refl _ _, by rintro _ ⟨⟩⟩
  | ok code =>
    have hrun : s.run
      ((List.range (code.next - w.draft.saves)).forM (fun _ => discard saveCell) >>= fun _ =>
        tail code) w = (r, w') := by
      rw [hcode] at hrun
      exact hrun
    obtain ⟨w₁, hasked, hgrows, hwithin, hmem⟩ :=
      run_saveCells (s := s) (List.range (code.next - w.draft.saves)) w
    rw [Site.run_bind hasked] at hrun
    have hsubset : G ∪ w.ledger.names ⊆ G ∪ w₁.ledger.names :=
      Set.union_subset_union_right G hgrows.subset
    let K' : Vocabulary s D X := ⟨G ∪ w₁.ledger.names, fun q hq => hsubset (hK (K.cells q hq)),
      fun n hn => hsubset (hK (K.functions n hn))⟩
    have huses : code.Uses s.target.arch X K'.names w.draft.saves :=
      Arch.uses_saveCode h (fun u hu hcell => hsubset (hK (hcells u hu hcell))) hcode
    have hnames : ∀ i, w.draft.saves ≤ i → i < code.next → saveCellName i ∈ K'.names :=
      fun i hi hlt => .inr (hmem i hi (by rw [List.length_range]; omega))
    have htail : Brings K' (tail code) fun restore K' => ∀ i ∈ restore,
        i.Known s.target.arch X K'.names :=
      (keeps_emitAll (huses.save hnames)).bind fun _ => .pure (huses.restore hnames)
    have hD₁ := hgrows.defined.trans hD
    obtain ⟨hgrows', hok⟩ := htail G w₁ hD₁ subset_rfl (hwithin _ (hw.mono hsubset)) r w' hrun
    refine ⟨hgrows.trans hgrows', fun restore hrestore => ?_⟩
    obtain ⟨hwithin', K'', hle, hrest⟩ := hok restore hrestore
    exact ⟨hwithin', K'', le_trans (show K ≤ K' from Set.Subset.trans hK hsubset) hle, hrest⟩

theorem brings_reserveSparing {r : Register} (hr : r ∈ s.target.arch.registers)
    (spare : Option Variable) :
    Brings K (reserveSparing r spare) fun res K' => res.Known K' := by
  refine .read (.draft fun d => ?_)
  dsimp only
  split
  · exact Cites.brings (cites_hold (by simp))
  · refine (brings_save fun u hu => ⟨r, hr, List.mem_of_mem_filter hu⟩).bind
      fun restore K' _ hrestore => ?_
    exact Cites.brings (cites_hold hrestore)

/-- **Taking a register** of the machine. -/
theorem brings_reserve {r : Register} (hr : r ∈ s.target.arch.registers) :
    Brings K (reserve r) fun res K' => res.Known K' :=
  brings_reserveSparing hr none

theorem brings_reserveFor {r : Register} (hr : r ∈ s.target.arch.registers) {source : Location} :
    Brings K (reserveFor r source) fun res K' => res.Known K' :=
  .read (brings_reserveSparing hr _)

/-- **Giving a register back** runs the code that was kept back for it. -/
theorem keeps_release {res : Reservation} (h : res.Known K) : Keeps K (release res) := by
  refine Brings.looks (g := fun w => w.draft) (fun _ => rfl) fun w K' hle hw => ?_
  have hfailed : Keeps K' (release.failed res) := Brings.read (.throw _)
  split
  · rename_i top rest hreserved
    split
    · have hrest : Keeps K' (modifyDraft fun d => { d with reserved := rest }) := by
        refine keeps_modifyDraft fun N d hN hd => ⟨hd.lines, fun res hres => ?_, hd.offsets⟩
        exact (hw.reserved res (hreserved ▸ .tail _ hres)).mono hN
      exact hrest.bind fun _ => keeps_emitAll (h.mono hle)
    · exact hfailed
  · exact hfailed

theorem brings_reserveAny {candidates : List Register}
    (hmem : ∀ r ∈ candidates, r ∈ s.target.arch.registers) (avoid : List Location) :
    Brings K (reserveAny candidates avoid) fun x K' => x.1 ∈ candidates ∧ x.2.Known K' := by
  refine .read (.draft fun d => ?_)
  dsimp only
  split
  · rename_i r hr
    have hr : r ∈ candidates := by
      rcases Option.or_eq_some_iff.mp hr with hr | ⟨-, hr⟩
      · exact List.mem_of_mem_filter (List.mem_of_find?_eq_some hr)
      · exact List.mem_of_mem_filter (List.mem_of_mem_head? hr)
    exact (brings_reserve (hmem r hr)).bind fun res K' _ hres => .pure ⟨hr, hres⟩
  · exact .throw _

theorem cites_pinAt {l : Location} : Cites K (pinAt l) fun held => ∀ res ∈ held, res.Known K := by
  unfold pinAt
  split
  · refine cites_pin.bind fun res hres => .pure ?_
    rintro _ ⟨⟩
    exact hres
  · exact Brings.pure (by simp)

theorem keeps_unpin {held : Option Reservation} (h : ∀ res ∈ held, res.Known K) :
    Keeps K (unpin held) := by
  cases held with
  | none => exact .pure ()
  | some res => exact keeps_release (h res rfl)

theorem keeps_restoreAll : Keeps K restoreAll := by
  refine Brings.looks (g := fun w => w.draft) (fun _ => rfl) fun w K' _ hw =>
    keeps_emitAll fun i hi => ?_
  obtain ⟨res, hres, hi⟩ := List.mem_flatMap.mp hi
  exact hw.reserved res hres i hi

/-! ### Displaced pointers -/

section Pointers

variable {p : Register} (hp : p ∈ s.target.arch.registers ∧ p.isPointer = true)

include hp

theorem keeps_adjust (delta : Int) : Keeps K (adjust p delta) := by
  refine Brings.draft fun d => .arch ?_
  have haddress : s.target.arch ≠ .i8080 → p.address ∈ K.names :=
    fun hm => K.mem_address_pointer hm hp.1 hp.2
  refine (cites_ofExcept fun is his => Arch.known_adjustCode (X := X) hp.1 haddress his).bind
    fun is his => ?_
  exact (keeps_emitAll his).bind fun _ => keeps_track (fun _ => rfl) (fun _ => rfl) fun _ => rfl

theorem keeps_moveBack (delta : Int) : Keeps K (moveBack p delta) :=
  (keeps_adjust hp _).bind fun _ => keeps_modifyDraft fun _ _ _ hd => hd.filter_offsets _

theorem keeps_setOffset (o : Displacement) : Keeps K (modifyDraft (·.setOffset p o)) := by
  refine keeps_modifyDraft fun N d _ hd => ⟨hd.lines, hd.reserved, ?_⟩
  rintro e (_ | ⟨_, he⟩)
  · exact hp
  · exact hd.offsets e (List.mem_of_mem_filter he)

end Pointers

theorem keeps_dropOffset (p : Register) : Keeps K (modifyDraft (·.dropOffset p)) :=
  keeps_modifyDraft fun _ _ _ hd => hd.filter_offsets _

theorem keeps_settle (r : Register) : Keeps K (settle r) := by
  refine Brings.observes (g := fun w => w.draft) (fun _ => rfl) fun w _ hw =>
    Keeps.forM fun e he => ?_
  exact Brings.ite (keeps_moveBack (hw e he) _) (.pure trivial)

theorem keeps_settleAll : Keeps K settleAll := by
  refine Brings.read (.observes (g := fun w => w.draft) (fun _ => rfl) fun w _ hw =>
    Keeps.forM fun e he => ?_)
  exact Brings.ite (keeps_moveBack (hw e (List.mem_mergeSort.mp he)) _) (.pure trivial)

/-- **Where an operand is** when it is read. -/
theorem cites_locate (o : Operand) : Cites K (locate o) (· = o.located s.registers) := by
  refine .read ?_
  dsimp only
  split
  · exact (keeps_settle _).bind fun _ => .pure rfl
  · exact .pure rfl

theorem Brings.locate {α : Type} {f : Location → Build α} {Q : α → Vocabulary s D X → Prop}
    {o : Operand}
    (h : Brings K (f (o.located s.registers)) Q) : Brings K (Build.locate o >>= f) Q := by
  refine (cites_locate o).bind ?_
  rintro _ rfl
  exact h

/-! ### Leaving the instruction -/

theorem keeps_jump {target : String} : Keeps K (jump target) := by
  refine keeps_settleAll.bind fun _ => keeps_restoreAll.bind fun _ =>
    .arch (keeps_emit (by simp) fun _ => ?_)
  cases s.target.arch <;> rfl

/-- The opposite of a branch of the machine is one too. -/
theorem executes_opposite {m : Arch} {mnemonic inverse : String}
    (h : ∀ target, m.executes ⟨mnemonic, [.label target]⟩ = true)
    (hinverse : m.branches.opposites.lookup mnemonic = some inverse) (target : String) :
    m.executes ⟨inverse, [.label target]⟩ = true := by
  obtain ⟨before, after, hopposites, -⟩ := List.lookup_eq_some_iff.mp hinverse
  have hmem : (mnemonic, inverse) ∈ m.branches.opposites := by simp [hopposites]
  have h := h target
  cases m with
  | i8080 =>
    simp only [Arch.branches, List.mem_cons, Prod.mk.injEq, List.not_mem_nil, or_false] at hmem
    rcases hmem with ⟨-, rfl⟩ | ⟨-, rfl⟩ | ⟨-, rfl⟩ | ⟨-, rfl⟩ | ⟨-, rfl⟩ | ⟨-, rfl⟩ |
      ⟨rfl, -⟩ | ⟨rfl, -⟩
    case inr.inr.inr.inr.inr.inr.inl => cases h
    case inr.inr.inr.inr.inr.inr.inr => cases h
    all_goals rfl
  | _ =>
    simp only [Arch.branches, List.mem_cons, Prod.mk.injEq, List.not_mem_nil, or_false] at hmem
    rcases hmem with ⟨-, rfl⟩ | ⟨-, rfl⟩ | ⟨-, rfl⟩ | ⟨-, rfl⟩ | ⟨-, rfl⟩ | ⟨-, rfl⟩ |
      ⟨-, rfl⟩ | ⟨-, rfl⟩
    all_goals rfl

/-- **Leaving for a label on a condition.** -/
theorem keeps_branch {mnemonic : String}
    (h : X → ∀ target, s.target.arch.executes ⟨mnemonic, [.label target]⟩ = true)
    {target : String} : Keeps K (branch mnemonic target) := by
  refine keeps_settleAll.bind fun _ => .draft fun d => ?_
  refine Brings.ite (.arch ?_) (keeps_emit (by simp) fun x => h x target)
  dsimp only
  split
  · exact .throw _
  · rename_i inverse hinverse
    refine keeps_freshLabel.bind fun skip => ?_
    refine (keeps_emit (by simp) fun x => executes_opposite (h x) hinverse skip).bind fun _ => ?_
    refine keeps_restoreAll.bind fun _ => Keeps.bind (keeps_emit (by simp) fun _ => ?_) fun _ =>
      keeps_label
    cases s.target.arch <;> rfl

end Build

end Octet
