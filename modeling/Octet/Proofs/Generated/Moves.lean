import Octet.Proofs.Generated.Saving

/-!
# Moving bytes

A byte is moved from one register or byte of memory to another by loads, stores and copies. What
such a move does is the same on all machines, and is stated once, as `Transfers`: the destination
holds what the source held before, and nothing else changes but registers that were free.
`Arch.disturbs` says which registers a move may use on the way when they are free.

## Main definitions

* `Place.byteIn`, `Setting.Stores` — the byte at a place, and the places that store bytes
* `Arch.disturbs`, `Setting.Spares`, `Transfers` — what a move changes

## Main results

* `emits_loadDirect`, `emits_storeDirect` — loads and stores
* `emits_moveByte` — moves between any two places that store bytes
-/

namespace Octet

open Assembly (Arg Instr Line Part)
open Simulator (Memory)
open Build (temporaryName saveCellName)

/-! ### Places of bytes -/

namespace Place

/-- The byte at a place. -/
def byteIn (symbols : List (String × Int)) (σ : State) : Place → UInt8
  | .immediate v => Memory.byteOf v
  | .symbol n o part => Memory.byteOf (part.of (addressIn symbols n + o))
  | .register (some r) => σ.reg r
  | .memory n o _ => σ.mem n o
  | _ => 0

/-- The register that is written with a place. -/
def registers : Place → List Register
  | .register (some r) => [r]
  | _ => []

/-- The byte of memory that is written with a place. -/
def Touches (p : Place) (n : String) (o : Int) : Prop := ∃ home, p = .memory n o home

end Place

/-- The registers through which a byte is moved from memory to memory, the preferred ones first. -/
def Arch.relays : Arch → List Register
  | .i8080 => [Intel.a, Intel.e, Intel.d, Intel.c, Intel.b]
  | _ => [Mos.a, Mos.x, Mos.y]

/-- Whether a move may use a free register on its way. Copies between index registers and, on the
8080, loads and stores of other registers go through the accumulator; moves from memory to memory go
through `relay`, and other moves to memory through any register. -/
def Arch.disturbs (m : Arch) (relay : Register) (dest source : Place) (u : Register) : Bool :=
  match dest, source with
  | .register d, .register s => m != .i8080 && u == m.accumulator && d != some u && s != some u
  | .register d, .memory .. => m == .i8080 && u == m.accumulator && d != some u
  | .memory .., .register s => m == .i8080 && u == m.accumulator && s != some u
  | .memory .., .memory .. => u == relay
  | .memory .., _ => true
  | _, _ => false

namespace Setting

variable {S : Setting} {w w' : Work} {p : Place} {σ σ' : State}

/-- Places that a byte can be written to and read from. -/
def Stores (S : Setting) (w : Work) : Place → Prop
  | .register (some r) => r ∈ S.arch.bytes
  | .memory n o home => S.Cell w n o ∧ ∀ q, home = some q → q.isCell = true
  | _ => False

/-- The register through which a byte is moved from memory to memory: the first free one, or else
the accumulator. -/
def relay (S : Setting) (w : Work) : Register :=
  (S.arch.relays.find? fun c => !S.occupied w c).getD S.acc

/-- Registers that a move leaves alone. -/
def Spares (S : Setting) (w : Work) (dest source : Place) (u : Register) : Prop :=
  dest ≠ .register (some u) ∧
    (S.occupied w u = true ∨ S.arch.disturbs (S.relay w) dest source u = false)

theorem head?_relays (S : Setting) : S.arch.relays.head? = some S.acc := by
  rw [acc]
  cases S.arch <;> rfl

theorem relay_eq {t : Register}
    (h : (S.arch.relays.find? fun c => !S.occupied w c).or S.arch.relays.head? = some t) :
    S.relay w = t := by
  rw [head?_relays] at h
  unfold relay
  cases hfind : S.arch.relays.find? fun c => !S.occupied w c with
  | some c => simpa [hfind] using h
  | none => simpa [hfind] using h

/-- The accumulator is the relay, unless it is occupied. -/
theorem occupied_of_ne_relay (h : S.acc ≠ S.relay w) : S.occupied w S.acc = true := by
  by_contra hfree
  obtain ⟨rs, hrs⟩ := List.head?_eq_some_iff.mp S.head?_relays
  exact h (by simp [relay, hrs, hfree])

theorem Stores.mono (h : S.Stores w p) (hw : w.Grown w') : S.Stores w' p := by
  cases p with
  | memory n o home => exact ⟨h.1.mono hw, h.2⟩
  | register r =>
    cases r with
    | some r => exact h
    | none => exact h
  | _ => exact h

/-- A place keeps its byte while its register and its memory are left alone. -/
theorem Stores.byteIn_eq {K : Register → Prop} {A : String → Int → Prop} (h : S.Stores w p)
    (hkeeps : Keeps S K A w σ w' σ') (hreg : ∀ r, p = .register (some r) → K r)
    (hmem : ∀ n o, p.Touches n o → ¬ A n o) : p.byteIn S.symbols σ' = p.byteIn S.symbols σ := by
  cases p with
  | register r =>
    cases r with
    | some r => exact hkeeps.regs r (hreg r rfl)
    | none => rfl
  | memory n o home => exact hkeeps.mem n o (hmem n o ⟨home, rfl⟩) (h.1.old)
  | _ => rfl

theorem Cell.ne_saveCellName {n : String} {o : Int} (h : S.Cell w n o) (i : Nat) :
    n ≠ saveCellName i := by
  rcases h with h | ⟨j, -, rfl, -⟩
  · exact (S.apart _ _ i h).2
  · exact Build.temporaryName_ne_saveCellName j i

theorem Stores.not_saveCell (h : S.Stores w p) (i : Nat) : ¬ p.Touches (saveCellName i) 0 := by
  rintro ⟨home, rfl⟩
  exact h.1.ne_saveCellName i rfl

end Setting

/-- **A byte was moved** from one place to another. -/
structure Transfers (S : Setting) (dest source : Place) (w : Work) (σ : State) (w' : Work)
    (σ' : State) :
    Prop extends Moves S (S.Spares w dest source) dest.Touches w σ w' σ' where
  value : dest.byteIn S.symbols σ' = source.byteIn S.symbols σ

section Bytes

variable {S : Setting} {w w' w'' : Work} {σ σ' : State} {r d s : Register} {n : String} {o : Int}
  {dest source : Place} {home : Option Register}

/-- Reserving a register does not change what is at a place. -/
theorem Opens.byteIn_eq {q : Option Register} {us : List Register} {res : Reservation} {p : Place}
    (h : Opens S q us w σ res w' σ') (hp : S.Stores w p) :
    p.byteIn S.symbols σ' = p.byteIn S.symbols σ := by
  cases p with
  | register r =>
    cases r with
    | some r => exact congrFun h.saved.reg r
    | none => rfl
  | memory n o home =>
    exact h.saved.mem n o fun i hi hn => absurd ((hp.1.old).saves i hn) (Nat.not_lt.mpr hi)
  | _ => rfl

theorem Opens.grown {q : Option Register} {us : List Register} {res : Reservation}
    (h : Opens S q us w σ res w' σ') : w.Grown w' := ⟨Nat.le_of_eq h.temporaries.symm, h.saves⟩

/-- What leaves the carry alone under a reservation does so together with it. -/
theorem Opens.carry_eq {q : Option Register} {us : List Register} {res : Reservation}
    {σ₂ σ₃ : State}
    (h : Opens S q us w σ res w' σ') (hbody : σ₂.carry = σ'.carry)
    (hrestored : Restored us σ σ₂ σ₃) :
    σ₃.carry = σ.carry :=
  hrestored.carry (hbody.trans h.saved.carry)

theorem Opens.occupied_of {q : Option Register} {us : List Register} {res : Reservation}
    {u : Register}
    (h : Opens S q us w σ res w' σ') (hu : S.occupied w u = true) : S.occupied w' u = true := by
  simp only [Setting.occupied, Site.occupied, h.reserved, List.any_cons, Bool.or_eq_true] at hu ⊢
  rcases hu with hu | hu
  · exact .inl (.inr hu)
  · exact .inr hu

/-! ### Steps without code -/

theorem emits_modifyDraft {f : Draft → Draft} (hlines : (f w.draft).lines = w.draft.lines)
    (hsame : w.Same ⟨w.ledger, f w.draft⟩) :
    Emits S (Build.modifyDraft f) w σ fun _ w' σ' => σ' = σ ∧ w.Same w' :=
  .of_silent rfl hlines hsame.grown ⟨rfl, hsame⟩

theorem emits_forget {l : Location} (hoffsets : w.draft.offsets = []) :
    Emits S (Build.forget l) w σ fun _ w' σ' => σ' = σ ∧ w.Same w' := by
  have hforget : (w.draft.forgetOffsets l).offsets = w.draft.offsets := by
    unfold Draft.forgetOffsets
    rw [hoffsets]
    rfl
  exact emits_modifyDraft rfl ⟨⟨rfl, hforget, rfl, rfl⟩, rfl⟩

theorem emits_written {l : Location} (hoffsets : w.draft.offsets = []) :
    Emits S (Build.written l) w σ fun _ w' σ' => σ' = σ ∧ w.Same w' := by
  refine (emits_forget hoffsets).bind ?_
  rintro _ w₁ _ ⟨rfl, hsame₁⟩
  refine (emits_modifyDraft rfl ⟨⟨rfl, rfl, rfl, rfl⟩, rfl⟩).mono ?_
  rintro _ w₂ _ ⟨rfl, hsame₂⟩
  exact ⟨rfl, hsame₁.trans hsame₂⟩

theorem Constants.get?_set (k : Constants) (r u : Register) (v : Int) :
    (k.set r v).get? u = if u = r then some v else k.get? u := by
  simp only [get?, set, List.find?_cons]
  by_cases hu : u = r
  · simp [hu]
  · have hur : (r == u) = false := beq_eq_false_iff_ne.mpr (Ne.symm hu)
    rw [hur, if_neg hu, List.find?_filter]
    simp only
    congr 2
    funext e
    by_cases he : e.1 = u
    · simp [he, hu]
    · simp [he]

theorem Arch.not_isCell {m : Arch} {q : Register} (hq : q ∈ m.bytes) : q.isCell = false := by
  have hall : ∀ r ∈ m.bytes, r.isCell = false := by cases m <;> decide
  exact hall q hq

/-- Recording a constant that is in a register. -/
theorem emits_setKnown {v : Int} (hr : r ∈ S.arch.bytes) (hg : S.Good w σ)
    (hv : ((σ.reg r).toNat : Int) = v) :
    Emits S (Build.setKnown r v) w σ fun _ w' σ' => σ' = σ ∧ w.Like w' ∧ S.Good w' σ := by
  unfold Build.setKnown
  rw [Arch.not_isCell hr, if_neg (by decide)]
  refine .of_silent rfl rfl ⟨Nat.le_refl _, Nat.le_refl _⟩
    ⟨rfl, ⟨rfl, rfl, rfl, rfl⟩, fun u hu k hk => ?_, hg.narrow, hg.offsets⟩
  rw [Constants.get?_set] at hk
  split at hk
  · subst u
    cases hk
    exact hv
  · exact hg.tracks u hu k hk

/-! ### Loads, stores and copies -/

theorem Arch.bytes_of_mos {m : Arch} (hm : m ≠ .i8080) : m.bytes = [Mos.a, Mos.x, Mos.y] :=
  of_mos hm rfl rfl

theorem Arch.accumulator_of_mos {m : Arch} (hm : m ≠ .i8080) : m.accumulator = Mos.a :=
  of_mos hm rfl rfl

/-- Only the register that is set changes. -/
theorem Arch.covers_setReg {m : Arch} {is : List Instr} {v : UInt8} (h : m.covers is r = true) :
    ∀ u ∈ m.bytes, (σ.setReg r v).reg u ≠ σ.reg u → m.covers is u = true := by
  intro u _ hu
  by_cases hur : u = r
  · exact hur ▸ h
  · exact absurd (State.reg_setReg_of_ne hur) hu

theorem Mos.effect_load {m : Arch} (hm : m ≠ .i8080) (hr : r ∈ [Mos.a, Mos.x, Mos.y]) (arg : Arg) :
    m.effect? ⟨"ld" ++ r.name, [arg]⟩ = some (.computes r) := by
  obtain rfl | rfl | rfl := eq_of_mem hr <;> exact Arch.of_mos hm rfl rfl

theorem Arch.covers_of_effect {m : Arch} {i : Instr} {e : Effect} {u : Register}
    (h : m.effect? i = some e) (he : e.spares u = false) : m.covers [i] u = true := by
  simp [Arch.covers, h, he]

theorem Effect.spares_computes (r : Register) : (Effect.computes r).spares r = false := by
  simp [Effect.spares, Effect.computes, Register.clash, Register.conflicts, Register.contains]

theorem Effect.spares_writes1 (r : Register) : (Effect.writes1 r).spares r = false := by
  simp [Effect.spares, Effect.writes1, Register.clash, Register.conflicts, Register.contains]

theorem Intel.effect_mov (hr : r ∈ Arch.bytes .i8080) (arg : Arg) :
    Arch.effect? .i8080 ⟨"mov", [.reg r.name, arg]⟩ = some (.writes1 r) := by
  obtain rfl | rfl | rfl | rfl | rfl | rfl | rfl := mem_bytes hr <;> rfl

/-- Emitting an instruction that sets a register. -/
theorem emits_setReg {op : String} {args : List Arg} {e : Effect} {v : UInt8} (hg : S.Good w σ)
    (heffect : S.arch.effect? ⟨op, args⟩ = some e) (hspares : e.spares r = false)
    (hruns : S.arch.Runs S.symbols (S.Needs w) [.instr ⟨op, args⟩] σ (σ.setReg r v)) :
    Emits S (Build.emit op args) w σ fun _ w' σ' => σ' = σ.setReg r v ∧ w.Like w' ∧
      S.Good w' σ' := by
  refine (emits_instr hg (by rw [heffect]; rfl) hruns hg.narrow
    (Arch.covers_setReg (Arch.covers_of_effect heffect hspares))).mono ?_
  rintro _ w' _ ⟨rfl, hlike, hgood⟩
  exact ⟨rfl, hlike, hgood⟩

/-- Emitting an instruction that writes memory. -/
theorem emits_setMem {op : String} {args : List Arg} {v : UInt8} (hg : S.Good w σ)
    (heffect : (S.arch.effect? ⟨op, args⟩).isSome)
    (hruns : S.arch.Runs S.symbols (S.Needs w) [.instr ⟨op, args⟩] σ (σ.setMem n o v)) :
    Emits S (Build.emit op args) w σ fun _ w' σ' => σ' = σ.setMem n o v ∧ w.Like w' ∧
      S.Good w' σ' := by
  refine (emits_instr hg heffect hruns hg.narrow fun u _ hu => absurd rfl hu).mono ?_
  rintro _ w' _ ⟨rfl, hlike, hgood⟩
  exact ⟨rfl, hlike, hgood⟩

theorem Transfers.same (h : Transfers S dest source w σ w' σ') (hw : w'.Same w'') :
    Transfers S dest source w σ w'' σ' :=
  ⟨⟨h.toKeeps.same hw, h.carry⟩, h.value⟩

theorem mem_filter_singleton {p : Register → Bool} {q u : Register} :
    u ∈ [q].filter p ↔ u = q ∧ p u = true := by
  rw [List.mem_filter, List.mem_singleton]

/-- What is not restored is as it was before the release. -/
theorem Restored.byteIn_eq {us : List Register} {τ τ' : State} {p : Place} (h : Restored us σ τ τ')
    (hp : ∀ u ∈ us, p ≠ .register (some u)) : p.byteIn S.symbols τ' = p.byteIn S.symbols τ := by
  cases p with
  | register r =>
    cases r with
    | some r => exact h.other r fun hr => hp r hr rfl
    | none => rfl
  | memory n o home => exact congrFun (congrFun h.mem n) o
  | _ => rfl

/-- Releasing a reservation under which a byte was moved. -/
theorem Opens.transfers {K : Register → Prop} {q : Option Register} {us : List Register}
    {res : Reservation}
    {w₁ w₂ : Work} {σ₁ σ₂ : State} (h : Opens S q us w σ res w₁ σ₁)
    (hbody : Moves S K dest.Touches w₁ σ₁ w₂ σ₂)
    (hdest : S.Stores w dest) (hsource : S.Stores w source)
    (hspares : ∀ u, S.Spares w dest source u → u ∈ us ∨ K u)
    (hus : ∀ u ∈ us, dest ≠ .register (some u))
    (hvalue : dest.byteIn S.symbols σ₂ = source.byteIn S.symbols σ₁) :
    Emits S (Build.release res) w₂ σ₂ fun _ => Transfers S dest source w σ := by
  refine (h.release hbody.toKeeps hdest.not_saveCell).mono ?_
  rintro _ w₃ σ₃ ⟨hkeeps, hrestored⟩
  refine ⟨⟨hkeeps.mono hspares fun _ _ h => h, h.carry_eq hbody.carry hrestored⟩, ?_⟩
  exact (hrestored.byteIn_eq hus).trans (hvalue.trans (h.byteIn_eq hsource))

/-- A move that goes through the accumulator, which is saved if it is occupied. -/
theorem Setting.Spares.relay {u q : Register} (hu : S.Spares w dest source u) (hq : S.acc = q)
    (hdisturbs : S.arch.disturbs (S.relay w) dest source q = true) :
    u ∈ [q].filter (S.occupied w) ∨ u ≠ q ∧ dest ≠ .register (some u) := by
  by_cases huq : u = q
  · subst huq
    refine .inl (mem_filter_singleton.mpr ⟨rfl, hu.2.resolve_right fun h => ?_⟩)
    rw [hdisturbs] at h
    cases h
  · exact .inr ⟨huq, hu.1⟩

theorem ne_register_of_filter {p : Register → Bool} {q : Register} (h : r ≠ q) :
    ∀ u ∈ [q].filter p, Place.register (some r) ≠ .register (some u) := by
  intro u hu he
  cases he
  exact h (mem_filter_singleton.mp hu).1

theorem ne_of_register_ne {u : Register} (h : Place.register (some r) ≠ .register (some u)) :
    u ≠ r :=
  fun hur => h (hur ▸ rfl)

/-- Setting a register to a byte moves it there. -/
theorem Transfers.of_setReg {v : UInt8} (hv : source.byteIn S.symbols σ = v) (hlike : w.Like w')
    (hgood : S.Good w' (σ.setReg r v)) :
    Transfers S (.register (some r)) source w σ w' (σ.setReg r v) :=
  ⟨(Moves.of_setReg _ hlike hgood).mono (fun _ hu => ne_of_register_ne hu.1) fun _ _ h => h,
    (State.reg_setReg_self ..).trans hv.symm⟩

/-- Loading memory into a register. -/
theorem emits_loadMemory (hr : r ∈ S.arch.bytes) (hcell : S.Stores w (.memory n o home))
    (hg : S.Good w σ) :
    Emits S (Build.loadMemory (some r) (.mem n o)) w σ
      fun _ => Transfers S (.register (some r)) (.memory n o home) w σ := by
  refine .arch ?_
  split
  · rename_i hm
    have hr' : r ∈ Arch.bytes .i8080 := hm ▸ hr
    have ha : Intel.a ∈ Arch.bytes .i8080 := .head _
    unfold Intel.loadMemory
    by_cases hra : r = Intel.a
    · subst hra
      rw [if_pos (by rfl)]
      refine (emits_setReg hg (e := .writes1 Intel.a) (by rw [hm]; rfl) (Effect.spares_writes1 _)
        (Arch.runs_of_intel hm (Intel.runs_lda (.inl hcell.1)))).mono ?_
      rintro _ w' _ ⟨rfl, hlike, hgood⟩
      exact .of_setReg rfl hlike hgood
    · rw [if_neg (by simpa using hra)]
      refine (emits_reserve (by rw [hm]; exact ha) hg).bind fun res w₁ σ₁ hopen => ?_
      refine (emits_setReg hopen.good (e := .writes1 Intel.a) (by rw [hm]; rfl)
        (Effect.spares_writes1 _)
        (Arch.runs_of_intel hm (Intel.runs_lda (.inl (hcell.1.mono hopen.grown))))).bind ?_
      rintro _ w₂ _ ⟨rfl, hlike₂, hgood₂⟩
      refine .reads rfl ((emits_setReg hgood₂ (by rw [hm]; exact Intel.effect_mov hr' _)
        (Effect.spares_writes1 r) (Arch.runs_of_intel hm (Intel.runs_mov hr' ha))).bind ?_)
      rintro _ w₃ _ ⟨rfl, hlike₃, hgood₃⟩
      refine hopen.transfers (.of_setRegs _ hlike₂ hgood₂ hlike₃ hgood₃) hr hcell (fun u hu => ?_)
        (ne_register_of_filter hra) (by simp [Place.byteIn])
      refine (hu.relay (congrArg Arch.accumulator hm) ?_).imp_right fun h =>
        ⟨h.1, ne_of_register_ne h.2⟩
      simp [Arch.disturbs, hm, Arch.accumulator, hra]
  · rename_i hm
    rw [Arch.bytes_of_mos hm] at hr
    refine .reads rfl ?_
    refine (emits_setReg hg (Mos.effect_load hm hr _) (Effect.spares_computes r)
      (Arch.runs_of_mos hm (Mos.runs_load hr hg.narrow (.inl hcell.1)))).mono ?_
    rintro _ w' _ ⟨rfl, hlike, hgood⟩
    exact .of_setReg rfl hlike hgood

theorem Mos.effect_store {m : Arch} (hm : m ≠ .i8080) (hr : r ∈ [Mos.a, Mos.x, Mos.y]) (arg : Arg) :
    (m.effect? ⟨"st" ++ r.name, [arg]⟩).isSome := by
  obtain rfl | rfl | rfl := eq_of_mem hr <;> exact Arch.of_mos hm rfl rfl

/-- Storing a register to memory. -/
theorem emits_storeMemory (hr : r ∈ S.arch.bytes) (hcell : S.Stores w (.memory n o home))
    (hg : S.Good w σ) :
    Emits S (Build.storeMemory (some r) (.mem n o)) w σ
      fun _ => Transfers S (.memory n o home) (.register (some r)) w σ := by
  refine .arch ?_
  split
  · rename_i hm
    have hr' : r ∈ Arch.bytes .i8080 := hm ▸ hr
    have ha : Intel.a ∈ Arch.bytes .i8080 := .head _
    unfold Intel.storeMemory
    by_cases hra : r = Intel.a
    · subst hra
      rw [if_pos (by rfl)]
      refine (emits_setMem hg (by rw [hm]; rfl)
        (Arch.runs_of_intel hm (Intel.runs_sta (.inl hcell.1)))).mono ?_
      rintro _ w' _ ⟨rfl, hlike, hgood⟩
      exact ⟨Moves.of_setMem _ ⟨home, rfl⟩ hlike hgood, State.mem_setMem_self ..⟩
    · rw [if_neg (by simpa using hra)]
      refine (emits_reserve (by rw [hm]; exact ha) hg).bind fun res w₁ σ₁ hopen => ?_
      refine .reads rfl ((emits_setReg hopen.good (by rw [hm]; exact Intel.effect_mov ha _)
        (Effect.spares_writes1 _) (Arch.runs_of_intel hm (Intel.runs_mov ha hr'))).bind ?_)
      rintro _ w₂ _ ⟨rfl, hlike₂, hgood₂⟩
      refine (emits_setMem hgood₂ (by rw [hm]; rfl) (Arch.runs_of_intel hm
        (Intel.runs_sta (.inl (hcell.1.mono (hopen.grown.trans hlike₂.grown)))))).bind ?_
      rintro _ w₃ _ ⟨rfl, hlike₃, hgood₃⟩
      refine hopen.transfers
        ((Moves.of_setReg _ hlike₂ hgood₂).trans (.of_setMem _ ⟨home, rfl⟩ hlike₃ hgood₃)) hcell hr
        (fun u hu => ?_) (by simp) (by simp [Place.byteIn])
      refine (hu.relay (congrArg Arch.accumulator hm) ?_).imp_right fun h => h.1
      simp [Arch.disturbs, hm, Arch.accumulator, hra]
  · rename_i hm
    rw [Arch.bytes_of_mos hm] at hr
    refine .reads rfl ?_
    refine (emits_setMem hg (Mos.effect_store hm hr _)
      (Arch.runs_of_mos hm (Mos.runs_store hr hg.narrow (.inl hcell.1)))).mono ?_
    rintro _ w' _ ⟨rfl, hlike, hgood⟩
    exact ⟨Moves.of_setMem _ ⟨home, rfl⟩ hlike hgood, State.mem_setMem_self ..⟩

theorem Mos.effect_toA {m : Arch} (hm : m ≠ .i8080) (hr : r ∈ [Mos.x, Mos.y]) :
    m.effect? ⟨"t" ++ r.name ++ "a", []⟩ = some (.computes Mos.a) := by
  obtain rfl | rfl := List.mem_pair.mp hr <;> exact Arch.of_mos hm rfl rfl

theorem Mos.effect_fromA {m : Arch} (hm : m ≠ .i8080) (hr : r ∈ [Mos.x, Mos.y]) :
    m.effect? ⟨"ta" ++ r.name, []⟩ = some (.computes r) := by
  obtain rfl | rfl := List.mem_pair.mp hr <;> exact Arch.of_mos hm rfl rfl

theorem Mos.mem_index (hr : r ∈ [Mos.a, Mos.x, Mos.y]) (hne : r ≠ Mos.a) : r ∈ [Mos.x, Mos.y] :=
  (List.mem_cons.mp hr).resolve_left hne

/-- Copying a register to another one. -/
theorem emits_copy (hd : d ∈ S.arch.bytes) (hs : s ∈ S.arch.bytes) (hne : d ≠ s) (hg : S.Good w σ) :
    Emits S (Build.copy (some d) (some s)) w σ
      fun _ => Transfers S (.register (some d)) (.register (some s)) w σ := by
  have hdest : S.Stores w (.register (some d)) := hd
  have hsource : S.Stores w (.register (some s)) := hs
  refine .arch ?_
  split
  · rename_i hm
    rw [hm] at hd hs
    refine .reads rfl (.reads rfl ?_)
    refine (emits_setReg hg (by rw [hm]; exact Intel.effect_mov hd _) (Effect.spares_writes1 d)
      (Arch.runs_of_intel hm (Intel.runs_mov hd hs))).mono ?_
    rintro _ w' _ ⟨rfl, hlike, hgood⟩
    exact .of_setReg rfl hlike hgood
  · rename_i hm
    rw [Arch.bytes_of_mos hm] at hd hs
    unfold Mos.copy
    by_cases hda : d = Mos.a
    · subst hda
      have hs' := Mos.mem_index hs (Ne.symm hne)
      rw [if_pos (by rfl)]
      refine .reads rfl ((emits_setReg hg (Mos.effect_toA hm hs') (Effect.spares_computes _)
        (Arch.runs_of_mos hm (Mos.runs_toA hs'))).mono ?_)
      rintro _ w' _ ⟨rfl, hlike, hgood⟩
      exact .of_setReg rfl hlike hgood
    have hd' := Mos.mem_index hd hda
    rw [if_neg (by simpa using hda)]
    by_cases hsa : s = Mos.a
    · subst hsa
      rw [if_pos (by rfl)]
      refine .reads rfl ((emits_setReg hg (Mos.effect_fromA hm hd') (Effect.spares_computes _)
        (Arch.runs_of_mos hm (Mos.runs_fromA hd'))).mono ?_)
      rintro _ w' _ ⟨rfl, hlike, hgood⟩
      exact .of_setReg rfl hlike hgood
    have hs' := Mos.mem_index hs hsa
    rw [if_neg (by simpa using hsa)]
    refine (emits_reserve (by rw [Arch.bytes_of_mos hm]; exact .head _) hg).bind
      fun res w₁ σ₁ hopen => ?_
    refine .reads rfl ((emits_setReg hopen.good (Mos.effect_toA hm hs') (Effect.spares_computes _)
      (Arch.runs_of_mos hm (Mos.runs_toA hs'))).bind ?_)
    rintro _ w₂ _ ⟨rfl, hlike₂, hgood₂⟩
    refine .reads rfl ((emits_setReg hgood₂ (Mos.effect_fromA hm hd') (Effect.spares_computes _)
      (Arch.runs_of_mos hm (Mos.runs_fromA hd'))).bind ?_)
    rintro _ w₃ _ ⟨rfl, hlike₃, hgood₃⟩
    refine hopen.transfers (.of_setRegs _ hlike₂ hgood₂ hlike₃ hgood₃) hdest hsource
      (fun u hu => ?_) (ne_register_of_filter hda) (by simp [Place.byteIn])
    refine (hu.relay (Arch.accumulator_of_mos hm) ?_).imp_right fun h =>
      ⟨h.1, ne_of_register_ne h.2⟩
    simpa [Arch.disturbs, Arch.accumulator_of_mos hm, hda, hsa] using hm

/-- Copying a register together with what is known of it. -/
theorem emits_copyKnown (hd : d ∈ S.arch.bytes) (hs : s ∈ S.arch.bytes) (hne : d ≠ s)
    (hg : S.Good w σ) :
    Emits S (Build.copyKnown (some d) (some s)) w σ
      fun _ => Transfers S (.register (some d)) (.register (some s)) w σ := by
  refine .reads (a := w.draft.known.get? s) rfl ((emits_copy hd hs hne hg).bind fun _ w₁ σ₁ h => ?_)
  cases hv : w.draft.known.get? s with
  | none => exact .pure h
  | some v =>
    have hvalue : ((σ₁.reg d).toNat : Int) = v := by
      have hreg : σ₁.reg d = σ.reg s := h.value
      rw [hreg]
      exact hg.tracks s hs v hv
    refine .present rfl ((emits_setKnown hd h.good hvalue).mono ?_)
    rintro _ w₂ _ ⟨rfl, hlike, hg₂⟩
    exact ⟨h.toMoves.trans (.of_like _ _ hlike hg₂), h.value⟩

theorem emits_loaded (h : Transfers S dest source w σ w' σ') :
    Emits S (Build.loadDirect.loaded (some r)) w' σ' fun _ => Transfers S dest source w σ := by
  refine .present rfl ((emits_forget h.good.offsets).mono ?_)
  rintro _ w₂ _ ⟨rfl, hsame⟩
  exact h.same hsame

/-- **Loading a byte** into a register. -/
theorem emits_loadDirect {l : Location} (hr : r ∈ S.arch.bytes) (hl : S.Stores w l.place)
    (hg : S.Good w σ) :
    Emits S (Build.loadDirect (some r) l) w σ fun _ =>
      Transfers S (.register (some r)) l.place w σ := by
  obtain ⟨place, width, signed⟩ := l
  cases place with
  | register s =>
    cases s with
    | none => exact hl.elim
    | some s =>
      change Emits S (if (some s == some r) = true then pure PUnit.unit else
        Build.copyKnown (some r) (some s) >>= fun _ => Build.loadDirect.loaded (some r)) w σ _
      by_cases hsr : s = r
      · subst hsr
        rw [if_pos (by simp)]
        exact .pure ⟨.refl _ _ hg, rfl⟩
      · rw [if_neg (by simpa using hsr)]
        refine (emits_copyKnown hr hl (Ne.symm hsr) hg).bind fun _ w₁ σ₁ h => ?_
        exact emits_loaded h
  | memory n o home =>
    exact (emits_loadMemory hr hl hg).bind fun _ w₁ σ₁ h => emits_loaded h
  | _ => exact hl.elim

/-- **Storing a byte** from a register. -/
theorem emits_storeDirect {l : Location} (hr : r ∈ S.arch.bytes) (hl : S.Stores w l.place)
    (hg : S.Good w σ) :
    Emits S (Build.storeDirect (some r) l) w σ fun _ =>
      Transfers S l.place (.register (some r)) w σ := by
  obtain ⟨place, width, signed⟩ := l
  have hwritten : ∀ {l : Location} {w' : Work} {σ' : State},
    Transfers S place (.register (some r)) w σ w' σ' →
      Emits S (Build.written l) w' σ' fun _ => Transfers S place (.register (some r)) w σ := by
    intro l w' σ' h
    refine (emits_written h.good.offsets).mono ?_
    rintro _ w₂ _ ⟨rfl, hsame⟩
    exact h.same hsame
  cases place with
  | register d =>
    cases d with
    | none => exact hl.elim
    | some d =>
      change Emits S
        (if (some d == some r) = true then Build.written ⟨.register (some d), width, signed⟩ else
        Build.copyKnown (some d) (some r) >>= fun _ =>
          Build.written ⟨.register (some d), width, signed⟩) w σ _
      by_cases hdr : d = r
      · subst hdr
        rw [if_pos (by simp)]
        exact hwritten ⟨.refl _ _ hg, rfl⟩
      · rw [if_neg (by simpa using hdr)]
        exact (emits_copyKnown hl hr hdr hg).bind fun _ w₁ σ₁ h => hwritten h
  | memory n o home => exact (emits_storeMemory hr hl hg).bind fun _ w₁ σ₁ h => hwritten h
  | _ => exact hl.elim

/-! ### Moves of bytes -/

theorem Keeps.occupied_eq {K : Register → Prop} {A : String → Int → Prop}
    (h : Keeps S K A w σ w' σ') :
    S.occupied w' = S.occupied w := by
  funext u
  rw [Setting.occupied, h.reserved, Setting.occupied]

theorem Setting.Stores.not_indirect {l : Location} (h : S.Stores w l.place) :
    l.isIndirect = false := by
  obtain ⟨place, width, signed⟩ := l
  cases place with
  | indirect v base o => exact h.elim
  | _ => rfl

theorem Build.loadByte_of_direct {l : Location} (h : l.isIndirect = false) (r : Option Register) :
    Build.loadByte r l = Build.loadDirect r l := by
  unfold Build.loadByte
  rw [h]
  rfl

theorem Build.storeByte_of_direct {l : Location} (h : l.isIndirect = false) (r : Option Register) :
    Build.storeByte r l = Build.storeDirect r l := by
  unfold Build.storeByte
  rw [h]
  rfl

theorem emits_loadByte {l : Location} (hr : r ∈ S.arch.bytes) (hl : S.Stores w l.place)
    (hg : S.Good w σ) :
    Emits S (Build.loadByte (some r) l) w σ fun _ =>
      Transfers S (.register (some r)) l.place w σ := by
  rw [Build.loadByte_of_direct hl.not_indirect]
  exact emits_loadDirect hr hl hg

theorem emits_storeByte {l : Location} (hr : r ∈ S.arch.bytes) (hl : S.Stores w l.place)
    (hg : S.Good w σ) :
    Emits S (Build.storeByte (some r) l) w σ fun _ =>
      Transfers S l.place (.register (some r)) w σ := by
  rw [Build.storeByte_of_direct hl.not_indirect]
  exact emits_storeDirect hr hl hg

theorem Location.byteIn_of_same {symbols : List (String × Int)} {l k : Location}
    (h : l.same k = true) (σ : State) :
    l.place.byteIn symbols σ = k.place.byteIn symbols σ := by
  obtain ⟨p, wp, sp⟩ := l
  obtain ⟨q, wq, sq⟩ := k
  cases p <;> cases q <;> simp_all [Location.same, Place.byteIn]

/-- Byte registers share no storage with memory cells. -/
theorem Arch.not_conflicts_cell {m : Arch} {q c : Register} (hq : q.isCell = true)
    (hc : c ∈ m.bytes) :
    q.conflicts c = false := by
  have hcell := Arch.not_isCell hc
  have hpair : c.isPair = false := by
    have := Arch.units_of_mem hc
    cases c with
    | pair id name low high pointer =>
      simp [Register.units, Register.isPair, Register.parts] at this
    | byte | cell => rfl
  cases q with
  | byte | pair => cases hq
  | cell =>
    cases c with
    | byte => simp [Register.conflicts, Register.contains, Register.parts]
    | pair => cases hpair
    | cell => cases hcell

/-- Taking one of some byte registers. -/
theorem emits_reserveAny {cs : List Register} {avoid : List Location} (hcs : cs ≠ [])
    (hbytes : ∀ c ∈ cs, c ∈ S.arch.bytes) (havoid : ∀ l ∈ avoid, ∀ c ∈ cs, l.uses c = false)
    (hg : S.Good w σ) :
    Emits S (Build.reserveAny cs avoid) w σ fun x w' σ' =>
      x.1 ∈ cs ∧ (cs.find? fun c => !S.occupied w c).or cs.head? = some x.1 ∧
        Opens S (some x.1) ([x.1].filter (S.occupied w)) w σ x.2 w' σ' := by
  have husable : (cs.filter fun c => !avoid.any (·.uses c)) = cs := by
    rw [List.filter_eq_self]
    intro c hc
    simpa using fun l hl => havoid l hl c hc
  have hfree : (cs.find? fun c => !c.units.any (S.site.occupied w.draft.reserved none)) =
      cs.find? fun c => !S.occupied w c := by
    refine List.find?_congr fun c hc => ?_
    rw [Arch.units_of_mem (hbytes c hc), Setting.occupied]
    simp
  refine .site (.draft ?_)
  dsimp only
  rw [husable, hfree]
  have htaken : ∃ t ∈ cs, (cs.find? fun c => !S.occupied w c).or cs.head? = some t := by
    cases hfind : cs.find? fun c => !S.occupied w c with
    | some t => exact ⟨t, List.mem_of_find?_eq_some hfind, rfl⟩
    | none =>
      obtain ⟨t, cs, rfl⟩ := List.exists_cons_of_ne_nil hcs
      exact ⟨t, .head _, rfl⟩
  obtain ⟨t, ht, htaken⟩ := htaken
  rw [htaken]
  refine (emits_reserve (hbytes t ht) hg).bind fun res w₁ σ₁ hopen => ?_
  exact .pure ⟨ht, rfl, hopen⟩

/-- A location that is memory or a constant uses no byte register. -/
theorem Setting.Stores.not_uses {l : Location} {c : Register} (h : S.Stores w l.place)
    (hreg : l.isRegister = false) (hc : c ∈ S.arch.bytes) : l.uses c = false := by
  obtain ⟨place, width, signed⟩ := l
  cases place with
  | register r => cases hreg
  | memory n o home =>
    cases home with
    | none => rfl
    | some q => exact Arch.not_conflicts_cell (h.2 q rfl) hc
  | indirect v base o => exact h.elim
  | _ => rfl

theorem Setting.Stores.exists_memory {l : Location} (h : S.Stores w l.place)
    (hreg : l.isRegister = false) :
    ∃ n o home, l.place = .memory n o home := by
  obtain ⟨place, width, signed⟩ := l
  cases place with
  | memory n o home => exact ⟨n, o, home, rfl⟩
  | register r => cases hreg
  | _ => exact h.elim

theorem Setting.Stores.exists_register {l : Location} (h : S.Stores w l.place)
    (hreg : l.isRegister = true) :
    ∃ r ∈ S.arch.bytes, l.place = .register (some r) := by
  obtain ⟨place, width, signed⟩ := l
  cases place with
  | register r =>
    cases r with
    | some r => exact ⟨r, h, rfl⟩
    | none => exact h.elim
  | _ => cases hreg

theorem Arch.transfer_of_direct {m : Arch} {l k : Location} (hl : l.isIndirect = false)
    (hk : k.isIndirect = false) :
    m.transfer l k = m.relays := by
  cases m <;> simp [Arch.transfer, Arch.relays, hl, hk]

theorem Arch.relays_spec (m : Arch) : m.relays ≠ [] ∧ ∀ c ∈ m.relays, c ∈ m.bytes := by
  cases m <;> decide

/-- A move from memory to memory through some register. -/
theorem emits_throughAny {l k : Location} (hl : S.Stores w l.place) (hk : S.Stores w k.place)
    (hlreg : l.isRegister = false) (hkreg : k.isRegister = false) (hg : S.Good w σ) :
    Emits S (Build.reserveAny S.arch.relays [l, k] >>= fun x =>
      Build.loadByte (some x.1) k >>= fun _ =>
      Build.storeByte (some x.1) l >>= fun _ => Build.release x.2) w σ
        fun _ => Transfers S l.place k.place w σ := by
  obtain ⟨hne, hbytes⟩ := S.arch.relays_spec
  have havoid : ∀ j ∈ [l, k], ∀ c ∈ S.arch.relays, j.uses c = false := by
    intro j hj c hc
    fin_cases hj
    · exact hl.not_uses hlreg (hbytes c hc)
    · exact hk.not_uses hkreg (hbytes c hc)
  refine (emits_reserveAny hne hbytes havoid hg).bind ?_
  rintro ⟨t, res⟩ w₁ σ₁ ⟨ht, htaken, hopen⟩
  refine (emits_loadByte (hbytes t ht) (hk.mono hopen.grown) hopen.good).bind fun _ w₂ σ₂ hload =>
    ?_
  have hl₂ := hl.mono (hopen.grown.trans hload.grown)
  refine (emits_storeByte (hbytes t ht) hl₂ hload.good).bind fun _ w₃ σ₃ hstore => ?_
  obtain ⟨n, o, home, hplace⟩ : ∃ n o home, l.place = .memory n o home := hl.exists_memory hlreg
  obtain ⟨n', o', home', hkplace⟩ := hk.exists_memory hkreg
  -- on the way only the accumulator may be needed, besides the register that was taken
  have hbody : Moves S (fun u => u ≠ t ∧ (S.occupied w u = true ∨ u ≠ S.acc)) l.place.Touches w₁ σ₁
      w₃ σ₃ := by
    refine (hload.toMoves.mono (fun u hu => ⟨fun h => hu.1 (by cases h; rfl), ?_⟩) fun n o h =>
      ?_).trans (hstore.toMoves.mono (fun u hu => ⟨by simp [hplace], ?_⟩) fun n o h => h)
    · exact hu.2.imp hopen.occupied_of fun h => by simp [hkplace, Arch.disturbs, h]
    · obtain ⟨home, h⟩ := h
      cases h
    · refine hu.2.imp (fun h => by rw [hload.occupied_eq]; exact hopen.occupied_of h) fun h => ?_
      simp [hplace, Arch.disturbs, h]
  refine hopen.transfers hbody hl hk (fun u hu => ?_) (by simp [hplace])
    (hstore.value.trans hload.value)
  rcases hu.2 with hoccupied | hspared
  · by_cases hut : u = t
    · exact .inl (mem_filter_singleton.mpr ⟨hut, hoccupied⟩)
    · exact .inr ⟨hut, .inl hoccupied⟩
  · have hne : u ≠ S.relay w := by simpa [hplace, hkplace, Arch.disturbs] using hspared
    have hrelay : S.relay w = t := Setting.relay_eq htaken
    refine .inr ⟨hrelay ▸ hne, ?_⟩
    by_cases hacc : u = S.acc
    · exact .inl (hacc ▸ Setting.occupied_of_ne_relay (hacc ▸ hne))
    · exact .inr hacc

/-- **Moving a byte.** -/
theorem emits_moveByte {l k : Location} (hl : S.Stores w l.place) (hk : S.Stores w k.place)
    (hg : S.Good w σ) :
    Emits S (Build.moveByte l k) w σ fun _ => Transfers S l.place k.place w σ := by
  change Emits S (Build.full.moveByte l k) w σ _
  unfold Access.moveByte
  by_cases hsame : l.same k = true
  · rw [if_pos hsame]
    exact .pure ⟨.refl _ _ hg, Location.byteIn_of_same hsame σ⟩
  rw [if_neg hsame]
  cases hlreg : l.isRegister with
  | true =>
    obtain ⟨r, hr, hplace⟩ := hl.exists_register hlreg
    rw [hplace]
    exact emits_loadByte hr hk hg
  | false =>
    obtain ⟨n, o, home, hplace⟩ := hl.exists_memory hlreg
    cases hkreg : k.isRegister with
    | true =>
      obtain ⟨r, hr, hkplace⟩ := hk.exists_register hkreg
      have hstore := emits_storeByte hr hl hg
      rw [hplace] at hstore ⊢
      rw [hkplace]
      exact hstore
    | false =>
      have hany := emits_throughAny hl hk hlreg hkreg hg
      rw [← Arch.transfer_of_direct hl.not_indirect hk.not_indirect, hplace] at hany
      obtain ⟨n', o', home', hkplace⟩ := hk.exists_memory hkreg
      obtain ⟨kplace, width, signed⟩ := k
      cases hkplace
      rw [hplace]
      exact .arch (.reads rfl hany)

/-- Pinning the register of a place. -/
theorem emits_pinAt {l : Location} (hl : S.Stores w l.place) (hg : S.Good w σ) :
    Emits S (Build.pinAt l) w σ fun held w' σ' =>
      σ' = σ ∧ S.Good w' σ ∧ Pins S l.place.registers w w' (Build.unpin held) := by
  obtain ⟨place, width, signed⟩ := l
  cases place with
  | register r =>
    cases r with
    | none => exact hl.elim
    | some r => exact (emits_pin hg).bind fun res w' σ' h => .pure h
  | memory n o home => exact .pure ⟨rfl, hg, .nil S w⟩
  | _ => exact hl.elim

end Bytes

end Octet
