import Octet.Proofs.Generated.Emission

/-!
# Saving and restoring registers

Code that takes an occupied register saves it first and restores it when it gives the register back.
What happens in between is not known when the register is taken; it has to leave the stack as it
was, and the save cells that are in use. Then the saved registers are restored, and nothing else
changes but, on the 8080, the carry, which comes back together with the accumulator.

`SaveCode.Works` states this of the code alone, for a single byte register. `Opens` states it of a
reservation, with the promise of what its release will do. Pins are reservations that have saved
nothing, and emit no code.

## Main definitions

* `SaveCode.Works` — code that saves, and code that restores what was saved
* `Opens` — a reservation was opened, and can be released
* `Pins` — registers were pinned

## Main results

* `Arch.exists_works` — the save code of every machine works
* `emits_reserveSparing`, `emits_pin` — opening a reservation, and pinning a register
* `Opens.release` — what a reservation, what is done under it, and its release leave alone
-/

namespace Octet

open Assembly (Arg Instr Line Part)
open Build (temporaryName saveCellName)

/-! ### Code that saves and restores -/

/-- Saving changes nothing but the stack and save cells from `n` on. -/
structure Saved (n : Nat) (σ σ' : State) : Prop where
  reg : σ'.reg = σ.reg
  mem : ∀ name o, (∀ i, n ≤ i → name ≠ saveCellName i) → σ'.mem name o = σ.mem name o
  carry : σ'.carry = σ.carry
  wide : σ'.wide = σ.wide

/-- Some units and the stack are back as they were in `σ`; the rest is as in `τ`. The carry may be
as in either. -/
structure Restored (us : List Register) (σ τ τ' : State) : Prop where
  saved : ∀ u ∈ us, τ'.reg u = σ.reg u
  other : ∀ u, u ∉ us → τ'.reg u = τ.reg u
  mem : τ'.mem = τ.mem
  stack : τ'.stack = σ.stack
  carry : τ.carry = σ.carry → τ'.carry = σ.carry
  wide : τ'.wide = τ.wide

/-- A state has the save cells from `n` to `k`, and the stack, as another one. -/
structure SameSaves (n k : Nat) (σ τ : State) : Prop where
  stack : τ.stack = σ.stack
  cells : ∀ i, n ≤ i → i < k → τ.mem (saveCellName i) 0 = σ.mem (saveCellName i) 0

/-- **Save code that works**: from every state it saves the units, and from every later state with
the same stack and save cells it restores them. -/
structure SaveCode.Works (m : Arch) (symbols : List (String × Int)) (n : Nat) (us : List Register)
    (code : SaveCode) : Prop where
  next : n ≤ code.next
  saveEffect : ∀ i ∈ code.save, (m.effect? i).isSome
  restoreEffect : ∀ i ∈ code.restore, (m.effect? i).isSome
  covers : ∀ u ∈ us, m.covers code.restore u = true
  runs : ∀ need σ, σ.wide = false → (∀ i, n ≤ i → i < code.next → need (saveCellName i) 0) →
    ∃ σ', m.Runs symbols need (code.save.map Line.instr) σ σ' ∧ Saved n σ σ' ∧
      ∀ need τ, τ.wide = false → (∀ i, n ≤ i → i < code.next → need (saveCellName i) 0) →
        SameSaves n code.next σ' τ →
          ∃ τ', m.Runs symbols need (code.restore.map Line.instr) τ τ' ∧ Restored us σ τ τ'

namespace Mos

variable {m : Arch} {symbols : List (String × Int)} {r : Register}

/-- Registers that the machine pushes and pulls. -/
theorem works_push (hm : m ≠ .i8080) (hr : r ∈ [a, x, y]) (hpush : m = .wdc65816 ∨ r = a)
    (n : Nat) :
    SaveCode.Works m symbols n [r] ⟨[⟨"ph" ++ r.name, []⟩], [⟨"pl" ++ r.name, []⟩], n⟩ where
  next := Nat.le_refl n
  saveEffect := by
    refine List.forall_mem_singleton.2 ?_
    obtain rfl | rfl | rfl := eq_of_mem hr <;> exact Arch.of_mos hm rfl rfl
  restoreEffect := by
    refine List.forall_mem_singleton.2 ?_
    obtain rfl | rfl | rfl := eq_of_mem hr <;> exact Arch.of_mos hm rfl rfl
  covers := by
    refine List.forall_mem_singleton.2 ?_
    rcases hpush with rfl | rfl
    · obtain rfl | rfl | rfl := eq_of_mem hr <;> rfl
    · exact Arch.of_mos hm rfl rfl
  runs need σ hw _ := by
    refine ⟨_, Arch.runs_of_mos hm (runs_push hr hw), ⟨rfl, fun _ _ _ => rfl, rfl, rfl⟩, ?_⟩
    intro need τ hτ _ hsame
    refine ⟨_, Arch.runs_of_mos hm (runs_pull hr hτ hsame.stack), ?_⟩
    exact ⟨by simp, fun u hu => State.reg_setReg_of_ne (by simpa using hu), rfl, rfl, id, rfl⟩

/-- Index registers of the 6502, which go to a save cell. -/
theorem works_cell (hr : r ∈ [x, y]) (n : Nat) :
    SaveCode.Works .mos6502 symbols n [r]
      ⟨[⟨"st" ++ r.name, [.mem (saveCellName n) 0]⟩], [⟨"ld" ++ r.name, [.mem (saveCellName n) 0]⟩],
        n + 1⟩ where
  next := Nat.le_succ n
  saveEffect := by
    refine List.forall_mem_singleton.2 ?_
    obtain rfl | rfl := List.mem_pair.mp hr <;> rfl
  restoreEffect := by
    refine List.forall_mem_singleton.2 ?_
    obtain rfl | rfl := List.mem_pair.mp hr <;> rfl
  covers := by
    refine List.forall_mem_singleton.2 ?_
    obtain rfl | rfl := List.mem_pair.mp hr <;> rfl
  runs need σ hw hneed := by
    have hr' : r ∈ [a, x, y] := .tail _ hr
    refine ⟨σ.setMem (saveCellName n) 0 (σ.reg r), ?_, ?_, ?_⟩
    · exact runs_store hr' hw (hneed n (Nat.le_refl n) (Nat.lt_succ_self n))
    · exact ⟨rfl, fun k o hk => if_neg fun h => hk n (Nat.le_refl n) h.1, rfl, rfl⟩
    intro need τ hτ hneed hsame
    have hcell : τ.mem (saveCellName n) 0 = σ.reg r := by
      rw [hsame.cells n (Nat.le_refl n) (Nat.lt_succ_self n), State.mem_setMem_self]
    refine ⟨τ.setReg r (τ.mem (saveCellName n) 0), ?_, ?_⟩
    · exact runs_load hr' hτ (hneed n (Nat.le_refl n) (Nat.lt_succ_self n))
    · exact ⟨by
        simpa using hcell, fun u hu => State.reg_setReg_of_ne (by simpa using hu), rfl,
          hsame.stack, id, rfl⟩

end Mos

namespace Intel

variable {symbols : List (String × Int)}

/-- The accumulator is pushed with the flags. -/
theorem works_flags (n : Nat) :
    SaveCode.Works .i8080 symbols n [a] ⟨[⟨"push", [psw]⟩], [⟨"pop", [psw]⟩], n⟩ where
  next := Nat.le_refl n
  saveEffect i _ := rfl
  restoreEffect i _ := rfl
  covers := List.forall_mem_singleton.2 rfl
  runs need σ hw _ := by
    refine ⟨_, runs_pushFlags, ⟨rfl, fun _ _ _ => rfl, rfl, rfl⟩, ?_⟩
    intro need τ hτ _ hsame
    refine ⟨_, runs_popFlags hsame.stack, ?_⟩
    exact ⟨by
      simp, fun u hu => State.reg_setReg_of_ne (by simpa using hu), rfl, rfl, fun _ => rfl, rfl⟩

/-- A byte register whose mate is not saved goes to a save cell, through the accumulator. -/
theorem works_alone {u : Register} (hu : u ∈ Arch.bytes .i8080) (hne : u ≠ a) (n : Nat) :
    SaveCode.Works .i8080 symbols n [u] (saveAlone n u) where
  next := Nat.le_succ n
  saveEffect i _ := rfl
  restoreEffect i _ := rfl
  covers := by
    obtain rfl | rfl | rfl | rfl | rfl | rfl | rfl :=
      mem_bytes hu <;> exact List.forall_mem_singleton.2 rfl
  runs need σ hw hneed := by
    have ha : a ∈ Arch.bytes .i8080 := .head _
    have hcell := hneed n (Nat.le_refl n) (Nat.lt_succ_self n)
    refine ⟨_, (View.Runs.cons runs_pushFlags <| .cons (runs_mov ha hu) <| .cons (runs_sta hcell) <|
      runs_popFlags rfl), ⟨?_, fun k o hk => if_neg fun h => hk n (Nat.le_refl n) h.1, rfl, rfl⟩,
        ?_⟩
    · funext v
      by_cases hv : v = a
      · simp [hv]
      · simp [State.reg_setReg, hv]
    intro need τ hτ hneed hsame
    have hcell := hneed n (Nat.le_refl n) (Nat.lt_succ_self n)
    have hvalue : τ.mem (saveCellName n) 0 = σ.reg u := by
      rw [hsame.cells n (Nat.le_refl n) (Nat.lt_succ_self n)]
      simp
    refine ⟨_, (View.Runs.cons runs_pushFlags <| .cons (runs_lda hcell) <| .cons (runs_mov hu ha) <|
      runs_popFlags rfl), ?_, ?_, rfl, hsame.stack, id, rfl⟩
    · simpa [State.reg_setReg, hne] using hvalue
    · intro v hv
      have hvu : v ≠ u := by simpa using hv
      by_cases hva : v = a
      · simp [hva]
      · simp [State.reg_setReg, hva, hvu]

end Intel

/-- **The save code of every machine works.** -/
theorem Arch.exists_works (m : Arch) (symbols : List (String × Int)) (n : Nat) {r : Register}
    (hr : r ∈ m.bytes) :
    ∃ code, m.saveCode n [r] = .ok code ∧ code.Works m symbols n [r] := by
  cases m with
  | mos6502 =>
    have hname : r = Mos.a ∨ r = Mos.x ∨ r = Mos.y := by simpa [Arch.bytes] using hr
    rcases hname with rfl | rfl | rfl
    · refine ⟨_, ?_, Mos.works_push (by decide) hr (.inr rfl) n⟩
      rfl
    · refine ⟨_, ?_, Mos.works_cell (.head _) n⟩
      rfl
    · refine ⟨_, ?_, Mos.works_cell (.tail _ (.head _)) n⟩
      rfl
  | wdc65816 =>
    have hname : r = Mos.a ∨ r = Mos.x ∨ r = Mos.y := by simpa [Arch.bytes] using hr
    rcases hname with rfl | rfl | rfl
    all_goals
      refine ⟨_, ?_, Mos.works_push (by decide) hr (.inl rfl) n⟩
      rfl
  | i8080 =>
    by_cases ha : r = Intel.a
    · subst ha
      refine ⟨_, ?_, Intel.works_flags n⟩
      rfl
    · have hname := hr
      simp only [Arch.bytes, List.mem_cons, List.not_mem_nil, or_false] at hname
      refine ⟨Intel.saveAlone n r, ?_, Intel.works_alone hr ha n⟩
      rcases hname with rfl | rfl | rfl | rfl | rfl | rfl | rfl
      · exact absurd rfl ha
      all_goals rfl

/-! ### Reservations -/

section Reservations

variable {S : Setting} {w w' w₂ : Work} {σ σ' σ₂ : State} {us : List Register} {r : Option Register}
  {res : Reservation} {K : Register → Prop} {A : String → Int → Prop}

/-- Handing out save cells changes nothing else of the record. -/
theorem Site.run_saveCells (s : Site) (l : List Nat) (w : Work) : ∃ ledger,
    s.run (l.forM fun _ => discard Build.saveCell) w =
      (.ok (), ⟨ledger, { w.draft with saves := w.draft.saves + l.length }⟩) := by
  induction l generalizing w with
  | nil => exact ⟨w.ledger, rfl⟩
  | cons i l ih =>
    obtain ⟨ledger, h⟩ :=
      ih ⟨w.ledger.reserve (saveCellName w.draft.saves) 2 s.target.arch.scratchSegment,
      { w.draft with saves := w.draft.saves + 1 }⟩
    refine ⟨ledger, h.trans ?_⟩
    rw [List.length_cons, Nat.add_comm l.length, ← Nat.add_assoc]

/-- **A reservation was opened.** It has saved the units `us`; whatever is done under it, if it
leaves the stack and the save cells alone, the release brings them back. -/
structure Opens (S : Setting) (r : Option Register) (us : List Register) (w : Work) (σ : State)
    (res : Reservation) (w' : Work) (σ' : State) : Prop where
  register : res.register = r
  reserved : w'.draft.reserved = res :: w.draft.reserved
  temporaries : w'.draft.temporaries = w.draft.temporaries
  saves : w.draft.saves ≤ w'.draft.saves
  good : S.Good w' σ'
  saved : Saved w.draft.saves σ σ'
  restores : ∀ w₂ τ, S.Good w₂ τ → w'.Grown w₂ → SameSaves w.draft.saves w'.draft.saves σ' τ →
    Emits S (Build.emitAll (res.restore.getD [])) w₂ τ fun _ w₃ τ' =>
      w₂.Like w₃ ∧ S.Good w₃ τ' ∧ Restored us σ τ τ'

/-- Opening a reservation that has saved nothing. -/
theorem emits_hold_none (hg : S.Good w σ) :
    Emits S (Build.hold r none) w σ fun res w' σ' => Opens S r [] w σ res w' σ' ∧ σ' = σ := by
  refine .of_silent rfl rfl ⟨Nat.le_refl _, Nat.le_refl _⟩ ⟨?_, rfl⟩
  refine ⟨rfl, rfl, rfl, Nat.le_refl _, ⟨hg.tracks, hg.narrow, hg.offsets⟩,
    ⟨rfl, fun _ _ _ => rfl, rfl, rfl⟩, fun w₂ τ hg₂ _ hsame => ?_⟩
  exact .of_silent rfl rfl (.refl w₂)
    ⟨.refl w₂, hg₂, ⟨nofun, fun _ _ => rfl, rfl, hsame.stack, id, rfl⟩⟩

/-- **Saving a unit**, with code that brings it back. -/
theorem emits_save {u : Register} (hu : u ∈ S.arch.bytes) (hg : S.Good w σ) :
    Emits S (Build.save [u] >>= fun restore => Build.hold r (some restore)) w σ
      (Opens S r [u] w σ) := by
  obtain ⟨code, hcode, hworks⟩ := S.arch.exists_works S.symbols w.draft.saves hu
  obtain ⟨ledger, hcells⟩ := S.site.run_saveCells (List.range (code.next - w.draft.saves)) w
  rw [List.length_range, Nat.add_sub_cancel' hworks.next] at hcells
  -- the record once the cells are handed out
  let w₁ : Work := ⟨ledger, { w.draft with saves := code.next }⟩
  have hg₁ : S.Good w₁ σ := ⟨hg.tracks, hg.narrow, hg.offsets⟩
  have hgrown : w.Grown w₁ := ⟨Nat.le_refl _, hworks.next⟩
  have hneeds : ∀ v, w₁.Grown v → ∀ i, w.draft.saves ≤ i → i < code.next →
      S.Needs v (saveCellName i) 0 :=
    fun v hv i _ hi => .inr ⟨i, Nat.lt_of_lt_of_le hi hv.saves, rfl, rfl⟩
  obtain ⟨σ', hruns, hsaved, hback⟩ := hworks.runs (S.Needs w₁) σ hg.narrow (hneeds w₁ (.refl w₁))
  have hsave : Emits S (Build.save [u]) w σ fun restore w' τ =>
      restore = code.restore ∧ τ = σ' ∧ w₁.Like w' ∧ S.Good w' σ' := by
    refine .draft (.arch (.ofExcept hcode ?_))
    refine .bind (P := fun _ v τ => v = w₁ ∧ τ = σ) (.of_silent hcells rfl hgrown ⟨rfl, rfl⟩) ?_
    rintro _ _ _ ⟨rfl, rfl⟩
    refine (emits_all hg₁ hworks.saveEffect hruns (hsaved.wide.trans hg.narrow) ?_).bind ?_
    · exact fun u _ hu => absurd (congrFun hsaved.reg u) hu
    · rintro _ w' _ ⟨rfl, hlike, hgood⟩
      exact .pure ⟨rfl, rfl, hlike, hgood⟩
  refine hsave.bind ?_
  rintro _ w' _ ⟨rfl, rfl, hlike, hgood⟩
  refine .of_silent rfl rfl ⟨Nat.le_refl _, Nat.le_refl _⟩ ?_
  refine ⟨rfl, congrArg _ hlike.reserved, hlike.temporaries, ?_,
    ⟨hgood.tracks, hgood.narrow, hgood.offsets⟩, hsaved, fun w₂ τ hg₂ hgrown₂ hsame => ?_⟩
  · exact Nat.le_trans hworks.next (Nat.le_of_eq hlike.saves.symm)
  have hgrown₂ : w₁.Grown w₂ := hlike.grown.trans ⟨hgrown₂.temporaries, hgrown₂.saves⟩
  obtain ⟨τ', hrestore, hrestored⟩ := hback (S.Needs w₂) τ hg₂.narrow (hneeds w₂ hgrown₂)
    ⟨hsame.stack, fun i hi hi' => hsame.cells i hi (hlike.saves ▸ hi')⟩
  refine (emits_all hg₂ hworks.restoreEffect hrestore (hrestored.wide.trans hg₂.narrow) ?_).mono ?_
  · intro u _ hu
    refine hworks.covers u (Decidable.byContradiction fun hmem => hu ?_)
    exact hrestored.other u hmem
  · rintro _ w₃ _ ⟨rfl, hlike₃, hgood₃⟩
    exact ⟨hlike₃, hgood₃, hrestored⟩

theorem Site.run_release {s : Site} {rest : List Reservation}
    (hres : w.draft.reserved = res :: rest) :
    s.run (Build.release res) w =
      s.run (Build.emitAll (res.restore.getD []))
        ⟨w.ledger, { w.draft with reserved := rest }⟩ := by
  unfold Build.release
  rw [run_bind (show s.run Build.draft w = (.ok w.draft, w) from rfl)]
  dsimp only
  rw [hres]
  simp only [beq_self_eq_true, if_true]
  rfl

/-- **Releasing a reservation.** What was saved is back; for the rest the reservation leaves alone
what was left alone under it. -/
theorem Opens.release (h : Opens S r us w σ res w' σ') (hbody : Keeps S K A w' σ' w₂ σ₂)
    (hA : ∀ i, ¬ A (saveCellName i) 0) :
    Emits S (Build.release res) w₂ σ₂ fun _ w₃ σ₃ =>
      Keeps S (fun u => u ∈ us ∨ K u) A w σ w₃ σ₃ ∧ Restored us σ σ₂ σ₃ := by
  have hres : w₂.draft.reserved = res :: w.draft.reserved := hbody.reserved.trans h.reserved
  have hsame : SameSaves w.draft.saves w'.draft.saves σ' σ₂ :=
    ⟨hbody.stack, fun i _ hi => hbody.mem _ _ (hA i) (Work.old_saveCellName hi)⟩
  let w₂' : Work := ⟨w₂.ledger, { w₂.draft with reserved := w.draft.reserved }⟩
  have hgood : S.Good w₂' σ₂ := ⟨hbody.good.tracks, hbody.good.narrow, hbody.good.offsets⟩
  have hgrown : w.Grown w₂' :=
    ⟨h.temporaries ▸ hbody.grown.temporaries, Nat.le_trans h.saves hbody.grown.saves⟩
  obtain ⟨_, w₃, ls, σ₃, hrun, hlines, hgrown₃, hruns, hlike, hgood₃, hrestored⟩ :=
    h.restores w₂' σ₂ hgood ⟨hbody.grown.temporaries, hbody.grown.saves⟩ hsame
  refine .of_run ((Site.run_release hres).trans hrun) hlines
    ⟨hgrown₃.temporaries, hgrown₃.saves⟩ hruns ?_
  refine ⟨⟨hgood₃, hgrown.trans hgrown₃, hlike.reserved, ?_, ?_, hrestored.stack⟩, hrestored⟩
  · intro u hu
    by_cases hmem : u ∈ us
    · exact hrestored.saved u hmem
    · rw [hrestored.other u hmem, hbody.regs u (hu.resolve_left hmem), h.saved.reg]
  · intro n o hn hold
    have hold' : w'.Old n :=
      ⟨fun i hi => h.temporaries ▸ hold.temporaries i hi,
        fun i hi => Nat.lt_of_lt_of_le (hold.saves i hi) h.saves⟩
    rw [hrestored.mem, hbody.mem n o hn hold']
    exact h.saved.mem n o fun i hi hni => absurd (hold.saves i hni) (Nat.not_lt.mpr hi)

/-- Byte registers are their own units. -/
theorem Arch.units_of_mem {m : Arch} {q : Register} (hq : q ∈ m.bytes) : q.units = [q] := by
  have hall : ∀ r ∈ m.bytes, r.units = [r] := by cases m <;> decide
  exact hall q hq

/-- **Taking a byte register**, which is saved unless only `spare` is in it. -/
theorem emits_reserveSparing {q : Register} (hq : q ∈ S.arch.bytes) (spare : Option Variable)
    (hg : S.Good w σ) :
    Emits S (Build.reserveSparing q spare) w σ
      (Opens S (some q) ([q].filter (S.site.occupied w.draft.reserved spare)) w σ) := by
  refine .site (.draft ?_)
  dsimp only
  rw [Arch.units_of_mem hq]
  have hunits : [q].filter (S.site.occupied w.draft.reserved spare) = [] ∨
      [q].filter (S.site.occupied w.draft.reserved spare) = [q] := by
    rw [List.filter_cons]
    split
    · exact .inr rfl
    · exact .inl rfl
  rcases hunits with hunits | hunits
  · rw [hunits]
    exact (emits_hold_none hg).mono fun _ _ _ h => h.1
  · rw [hunits]
    exact emits_save hq hg

theorem emits_reserve {q : Register} (hq : q ∈ S.arch.bytes) (hg : S.Good w σ) :
    Emits S (Build.reserve q) w σ (Opens S (some q) ([q].filter (S.occupied w)) w σ) :=
  emits_reserveSparing hq none hg

/-! ### Pins -/

/-- The record with other reservations. -/
def Work.setReserved (w : Work) (reserved : List Reservation) : Work :=
  ⟨w.ledger, { w.draft with reserved }⟩

/-- **Registers were pinned**: they are reserved, and nothing was saved. `close` gives them back. -/
structure Pins (S : Setting) (rs : List Register) (w w' : Work) (close : Build Unit) : Prop where
  temporaries : w'.draft.temporaries = w.draft.temporaries
  saves : w'.draft.saves = w.draft.saves
  offsets : w'.draft.offsets = w.draft.offsets
  known : w'.draft.known = w.draft.known
  reserved : ∃ held : List Reservation, w'.draft.reserved = held ++ w.draft.reserved ∧
    ∀ q, q ∈ held.map (·.register) ↔ q ∈ rs.map some
  closes : ∀ v τ, v.draft.reserved = w'.draft.reserved →
    Emits S close v τ fun _ v' τ' => τ' = τ ∧ v' = v.setReserved w.draft.reserved

namespace Pins

variable {rs qs : List Register} {close close' : Build Unit}

theorem nil (S : Setting) (w : Work) : Pins S [] w w (pure ()) where
  temporaries := rfl
  saves := rfl
  offsets := rfl
  known := rfl
  reserved := ⟨[], rfl, fun _ => Iff.rfl⟩
  closes v τ hv := .pure ⟨rfl, by rw [Work.setReserved, ← hv]⟩

theorem grown (h : Pins S rs w w' close) : w.Grown w' :=
  ⟨Nat.le_of_eq h.temporaries.symm, Nat.le_of_eq h.saves.symm⟩

/-- What is done while registers are pinned leaves alone what it would leave alone without the
pins. -/
theorem keeps (h : Pins S rs w w' close) (hbody : Keeps S K A w' σ w₂ σ₂) :
    Keeps S K A w σ (w₂.setReserved w.draft.reserved) σ₂ where
  good := ⟨hbody.good.tracks, hbody.good.narrow, hbody.good.offsets⟩
  grown := ⟨h.temporaries ▸ hbody.grown.temporaries, h.saves ▸ hbody.grown.saves⟩
  reserved := rfl
  regs := hbody.regs
  mem n o hn ho := hbody.mem n o hn (h.grown.old ho)
  stack := hbody.stack

/-- Pinned registers are occupied, and so is what was occupied before; nothing else is. -/
theorem occupied_iff (h : Pins S rs w w' close) (spare : Option Variable) (u : Register) :
    S.site.occupied w'.draft.reserved spare u = true ↔
      (∃ q ∈ rs, q.conflicts u = true) ∨ S.site.occupied w.draft.reserved spare u = true := by
  obtain ⟨held, hheld, hrs⟩ := h.reserved
  have hany : (∃ res ∈ held, Register.clash res.register (some u) = true) ↔
      ∃ q ∈ rs, q.conflicts u = true := by
    constructor
    · rintro ⟨res, hres, hclash⟩
      obtain ⟨q, hq, hqr⟩ := List.mem_map.mp ((hrs res.register).mp (List.mem_map_of_mem hres))
      rw [← hqr] at hclash
      exact ⟨q, hq, hclash⟩
    · rintro ⟨q, hq, hconflicts⟩
      obtain ⟨res, hres, hqr⟩ := List.mem_map.mp ((hrs (some q)).mpr (List.mem_map_of_mem hq))
      exact ⟨res, hres, by rw [hqr]; exact hconflicts⟩
  simp only [Site.occupied, hheld, List.any_append, Bool.or_eq_true, List.any_eq_true (l := held),
    hany, or_assoc]

theorem occupied_of (h : Pins S rs w w' close) {u : Register} (hu : S.occupied w u = true) :
    S.occupied w' u = true :=
  (h.occupied_iff none u).mpr (.inr hu)

theorem occupied_eq (h : Pins S [] w w' close) : S.occupied w' = S.occupied w := by
  funext u
  rw [Bool.eq_iff_iff]
  exact (h.occupied_iff none u).trans (by simp [Setting.occupied])

theorem occupied_of_mem (h : Pins S rs w w' close) {u : Register} (hu : u ∈ rs) :
    S.occupied w' u = true :=
  (h.occupied_iff none u).mpr (.inl ⟨u, hu, by simp [Register.conflicts, Register.contains]⟩)

end Pins

/-- Pinning a register. -/
theorem emits_pin {q : Register} (hg : S.Good w σ) :
    Emits S (Build.pin (some q)) w σ fun res w' σ' => σ' = σ ∧ S.Good w' σ ∧
      Pins S [q] w w' (Build.release res) := by
  refine .of_silent rfl rfl ⟨Nat.le_refl _, Nat.le_refl _⟩
    ⟨rfl, ⟨hg.tracks, hg.narrow, hg.offsets⟩, ?_⟩
  refine ⟨rfl, rfl, rfl, rfl, ⟨[_], rfl, fun _ => Iff.rfl⟩, fun v τ hv => ?_⟩
  exact .of_silent (Site.run_release hv) rfl ⟨Nat.le_refl _, Nat.le_refl _⟩ ⟨rfl, rfl⟩

end Reservations

end Octet
