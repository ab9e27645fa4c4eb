import Octet.Build.Call
import Octet.Proofs.Generated.Words

/-!
# Values moved one after another

A value of one or two bytes is moved by `Build.move`. What the move leaves alone is known byte by
byte, and for words that the machine moves to memory on its own, from the instruction. When several
values are moved in turn, a place *is clear of* a move if the move neither writes it nor needs its
register. A value arrives if its source is clear of the moves before, and its destination of those
after. The registers written stay pinned; as they are held by variables all the time, the pins
change nothing about what may be used on the way.

## Main definitions

* `Location.bytes`, `Location.bytesIn` — the places of the bytes of a value, and the value
* `Setting.Holds` — places for values
* `Setting.Movable`, `Conveys` — moves that can be made, and what a move does
* `Setting.Clear` — places that a move leaves alone
* `Build.transferList` — moves in turn, which pin what they write
* `ConveysAll` — what moves in turn do

## Main results

* `emits_move` — moving a value
* `emits_transferList` — moving values in turn
* `emits_parallel` — parallel moves that need no particular order
-/

namespace Octet

open Assembly (Arg Instr Line Part)

/-! ### Values -/

namespace Location

/-- The places of the bytes of a value, the low one first. -/
def bytes (l : Location) : List Place :=
  (List.range l.width.toNat).filterMap fun i : Nat => (l.byte? i).map (·.place)

/-- The bytes of a value. -/
def bytesIn (symbols : List (String × Int)) (σ : State) (l : Location) : List UInt8 :=
  l.bytes.map (·.byteIn symbols σ)

theorem bytes_of_byte {l : Location} (h : l.width = 1) : l.bytes = [l.place] := by
  simp [bytes, byte?, h]

theorem bytes_of_word {S : Setting} {w : Work} {l : Location} {low high : Place}
    (hl : S.Word w l.place low high) (h : l.width = 2) : l.bytes = [low, high] := by
  have hrange : List.range l.width.toNat = [0, 1] := by rw [h]; rfl
  simp [bytes, hrange, hl.byte_zero h, hl.byte_one h]

end Location

/-! ### One move -/

namespace Setting

variable {S : Setting} {w w' : Work} {t : Location × Location}

/-- **A place for a value** of one or two bytes that can be read and written. -/
inductive Holds (S : Setting) (w : Work) (l : Location) : Int → Prop
  | byte (h : S.Stores w l.place) (hw : l.width = 1) : Holds S w l 1
  | word {low high : Place} (h : S.Word w l.place low high) (hw : l.width = 2) : Holds S w l 2

theorem Holds.mono {l : Location} {n : Int} (h : S.Holds w l n) (hw : w.Grown w') :
    S.Holds w' l n := by
  cases h with
  | byte h hwidth => exact .byte (h.mono hw) hwidth
  | word h hwidth => exact .word (h.mono hw) hwidth

theorem Holds.stores {l : Location} {n : Int} (h : S.Holds w l n) {p : Place} (hp : p ∈ l.bytes) :
    S.Stores w p := by
  cases h with
  | byte h hwidth =>
    rw [Location.bytes_of_byte hwidth] at hp
    exact List.mem_singleton.mp hp ▸ h
  | word h hwidth =>
    rw [Location.bytes_of_word h hwidth] at hp
    rcases List.mem_pair.mp hp with rfl | rfl
    · exact h.stores_low
    · exact h.stores_high

/-- **A value can be moved** from the second location to the first. A pair is not loaded from
memory, as the record may not be true of the machine after that. -/
structure Movable (S : Setting) (w : Work) (t : Location × Location) : Prop where
  holds : ∃ n, S.Holds w t.1 n ∧ S.Holds w t.2 n
  paired : t.1.width = 2 → t.1.isRegister = true → t.2.isRegister = true

theorem Movable.mono (h : S.Movable w t) (hw : w.Grown w') : S.Movable w' t := by
  obtain ⟨n, hdest, hsource⟩ := h.holds
  exact ⟨⟨n, hdest.mono hw, hsource.mono hw⟩, h.paired⟩

theorem Movable.stores_dest (h : S.Movable w t) {p : Place} (hp : p ∈ t.1.bytes) :
    S.Stores w p := by
  obtain ⟨n, hdest, -⟩ := h.holds
  exact hdest.stores hp

theorem Movable.stores_source (h : S.Movable w t) {p : Place} (hp : p ∈ t.2.bytes) :
    S.Stores w p := by
  obtain ⟨n, -, hsource⟩ := h.holds
  exact hsource.stores hp

/-- A move leaves a register alone, byte by byte or by the instruction that makes it. -/
def Passes (S : Setting) (w : Work) (t : Location × Location) (u : Register) : Prop :=
  (∀ b ∈ t.1.bytes.zip t.2.bytes, S.Spares w b.1 b.2 u) ∨
    t.1.width = 2 ∧ S.arch.bypasses t.1.place t.2.place u = true

/-- **A place is clear of a move** that neither writes it nor needs its register. -/
structure Clear (S : Setting) (w : Work) (t : Location × Location) (p : Place) : Prop where
  reg : ∀ u, p = .register (some u) → S.Passes w t u
  mem : ∀ n o, p.Touches n o → ∀ q ∈ t.1.bytes, ¬ q.Touches n o

theorem Spares.congr {dest source : Place} {u : Register} (h : S.Spares w dest source u)
    (hw : S.occupied w' = S.occupied w) : S.Spares w' dest source u :=
  h.mono (fun hu => hw ▸ hu) fun _ _ _ _ => relay_congr hw

theorem Clear.congr {p : Place} (h : S.Clear w t p) (hw : S.occupied w' = S.occupied w) :
    S.Clear w' t p where
  reg u hu := (h.reg u hu).imp_left fun hspares b hb => (hspares b hb).congr hw
  mem := h.mem

end Setting

/-- **A value was moved.** -/
structure Conveys (S : Setting) (t : Location × Location) (w : Work) (σ : State) (w' : Work)
    (σ' : State) : Prop extends
    Keeps S (S.Passes w t) (fun n o => ∃ p ∈ t.1.bytes, p.Touches n o) w σ w' σ' where
  value : t.1.bytesIn S.symbols σ' = t.2.bytesIn S.symbols σ

section Moves

variable {S : Setting} {w w' : Work} {σ σ' : State} {t : Location × Location} {p : Place}

/-- A place that is clear of a move keeps its byte. -/
theorem Conveys.byteIn_eq (h : Conveys S t w σ w' σ') (hp : S.Stores w p) (hclear : S.Clear w t p) :
    p.byteIn S.symbols σ' = p.byteIn S.symbols σ := by
  refine hp.byteIn_eq h.toKeeps hclear.reg ?_
  rintro n o hn ⟨q, hq, hqn⟩
  exact hclear.mem n o hn q hq hqn

/-- **Moving a value.** -/
theorem emits_move (ht : S.Movable w t) (hg : S.Good w σ) :
    Emits S (Build.move t.1 t.2) w σ fun _ => Conveys S t w σ := by
  obtain ⟨l, k⟩ := t
  obtain ⟨⟨n, hl, hk⟩, hpaired⟩ := ht
  cases hl with
  | byte hl hw =>
    obtain ⟨hk, hw'⟩ : S.Stores w k.place ∧ k.width = 1 := by
      cases hk with
      | byte hk hw' => exact ⟨hk, hw'⟩
    have hdest := Location.bytes_of_byte hw
    have hsource := Location.bytes_of_byte hw'
    refine (emits_move_byte hl hw hk hw' hg).mono fun _ w' σ' h =>
      ⟨h.toKeeps.mono (fun u hu => ?_) fun n o hn => ?_, ?_⟩
    · rcases hu with hu | ⟨hwidth, -⟩
      · exact hu (l.place, k.place) (by simp [hdest, hsource])
      · rw [hw] at hwidth
        cases hwidth
    · exact ⟨l.place, by simp [hdest], hn⟩
    · simpa [Location.bytesIn, hdest, hsource] using h.value
  | @word low high hl hw =>
    obtain ⟨sourceLow, sourceHigh, hk, hw'⟩ : ∃ low high, S.Word w k.place low high ∧
        k.width = 2 := by
      cases hk with
      | word hk hw' => exact ⟨_, _, hk, hw'⟩
    have hdest := Location.bytes_of_word hl hw
    have hsource := Location.bytes_of_word hk hw'
    refine (emits_move_word_bypassing hl hw hk hw' (fun _ => hpaired hw) hg).mono fun _ w' σ' h =>
      ?_
    obtain ⟨h, hbypasses⟩ := h
    refine ⟨{ h.toKeeps with regs := fun u hu => ?_, mem :=
      fun n o hn hold => h.mem n o (fun ha => hn ?_) hold }, ?_⟩
    · rcases hu with hu | ⟨-, hu⟩
      · exact h.regs u ⟨hu (low, sourceLow) (by simp [hdest, hsource]),
          hu (high, sourceHigh) (by simp [hdest, hsource])⟩
      · exact hbypasses u hu
    · rcases ha with ha | ha
      · exact ⟨low, by simp [hdest], ha⟩
      · exact ⟨high, by simp [hdest], ha⟩
    · simp [Location.bytesIn, hdest, hsource, h.low_eq, h.high_eq]

end Moves

/-! ### Moves in turn -/

namespace Build

/-- Pins the register of a destination. -/
def pinDest (l : Location) : Build (List Reservation) :=
  match l.place with
  | .register (some r) => return [← pin (some r)]
  | _ => return []

/-- Does transfers in turn, and pins the registers written; the last pin comes first. -/
def transferList : List (Location × Location) → Build (List Reservation)
  | [] => return []
  | (dest, source) :: ts => do
    move dest source
    let held ← pinDest dest
    return (← transferList ts) ++ held

/-- Transfers in the order of their positions are done in turn. -/
theorem transferAll_range' (us ts : List (Location × Location)) :
    transferAll (us ++ ts) (List.range' us.length ts.length) = transferList ts := by
  induction ts generalizing us with
  | nil => rfl
  | cons t ts ih =>
    obtain ⟨dest, source⟩ := t
    have hrest := ih (us ++ [(dest, source)])
    rw [List.append_assoc, List.singleton_append, List.length_append,
      List.length_singleton] at hrest
    have hget : (us ++ (dest, source) :: ts)[us.length]? = some (dest, source) := by simp
    rw [List.length_cons, List.range'_succ, transferAll, hget, transferList]
    dsimp only
    rw [hrest, pinDest]
    generalize dest.place = p
    cases p with
    | register r => cases r <;> simp
    | none | immediate | symbol | memory | indirect => simp

theorem transferAll_range (ts : List (Location × Location)) :
    transferAll ts (List.range ts.length) = transferList ts := by
  rw [List.range_eq_range']
  exact transferAll_range' [] ts

end Build

/-- **Values were moved in turn**, and `held` are the pins of the registers written. -/
structure ConveysAll (S : Setting) (ts : List (Location × Location)) (w : Work) (σ : State)
    (held : List Reservation) (w' : Work) (σ' : State) : Prop where
  good : S.Good w' σ'
  stack : σ'.stack = σ.stack
  closes : ∀ v τ, v.draft.reserved = w'.draft.reserved →
    Emits S (held.forM Build.release) v τ fun _ v' τ' => τ' = τ ∧
      v' = v.setReserved w.draft.reserved
  /-- What is clear of all the moves is kept. -/
  kept : ∀ p, S.Stores w p → (∀ t ∈ ts, S.Clear w t p) →
    p.byteIn S.symbols σ' = p.byteIn S.symbols σ
  /-- What is clear of the moves before and after arrives. -/
  delivered : ∀ before t after, ts = before ++ t :: after →
    (∀ e ∈ before, ∀ p ∈ t.2.bytes, S.Clear w e p) →
    (∀ e ∈ after, ∀ p ∈ t.1.bytes, S.Clear w e p) →
      t.1.bytesIn S.symbols σ' = t.2.bytesIn S.symbols σ

section Turns

variable {S : Setting} {w w' : Work} {σ σ' : State} {ts : List (Location × Location)}

theorem Location.bytesIn_congr {l : Location}
    (h : ∀ p ∈ l.bytes, p.byteIn S.symbols σ' = p.byteIn S.symbols σ) :
    l.bytesIn S.symbols σ' = l.bytesIn S.symbols σ :=
  List.map_congr_left h

/-- Pinning a register that is held already changes nothing about what may be used. -/
theorem emits_pinDest {l : Location}
    (hheld : ∀ r, l.place = .register (some r) → ∀ u, r.conflicts u = true → S.occupied w u = true)
    (hg : S.Good w σ) :
    Emits S (Build.pinDest l) w σ fun held w' σ' => σ' = σ ∧ S.Good w' σ ∧
      S.occupied w' = S.occupied w ∧
      ∃ rs, Pins S rs w w' (held.forM Build.release) := by
  unfold Build.pinDest
  split
  · rename_i r hr
    refine (emits_pin hg).bind ?_
    rintro res w₁ _ ⟨rfl, hgood, hpins⟩
    refine .pure ⟨rfl, hgood, ?_, [r], { hpins with closes := fun v τ hv => ?_ }⟩
    · funext u
      rw [Bool.eq_iff_iff]
      refine (hpins.occupied_iff none u).trans ⟨?_, .inr⟩
      rintro (⟨q, hq, hconflicts⟩ | hocc)
      · rw [List.mem_singleton.mp hq] at hconflicts
        exact hheld r hr u hconflicts
      · exact hocc
    · exact (hpins.closes v τ hv).bind fun _ _ _ h => .pure h
  · exact .pure ⟨rfl, hg, rfl, [], Pins.nil S w⟩

/-- **Moving values in turn**, into memory or registers that are held all the time. -/
theorem emits_transferList (hts : ∀ t ∈ ts, S.Movable w t)
    (hheld : ∀ t ∈ ts, ∀ r, t.1.place = .register (some r) → ∀ u, r.conflicts u = true →
      S.occupied w u = true)
    (hg : S.Good w σ) : Emits S (Build.transferList ts) w σ (ConveysAll S ts w σ) := by
  -- each move is made with the same registers in use, so that what is clear of it stays so
  induction ts generalizing w σ with
  | nil =>
    refine .pure ⟨hg, rfl, fun v τ hv => .pure ⟨rfl, by rw [Work.setReserved, ← hv]⟩,
      fun _ _ _ => rfl, ?_⟩
    intro before t after h
    simp at h
  | cons t ts ih =>
    refine (emits_move (hts t (.head _)) hg).bind fun _ w₁ σ₁ hmove => ?_
    have hocc₁ : S.occupied w₁ = S.occupied w := by
      funext u
      rw [Setting.occupied, hmove.reserved, ← Setting.occupied]
    refine (emits_pinDest (fun r hr u hu => ?_) hmove.good).bind ?_
    · rw [hocc₁]
      exact hheld t (.head _) r hr u hu
    rintro pins w₂ _ ⟨rfl, hgood₂, hocc₂, rs, hpins⟩
    have hgrown : w.Grown w₂ := hmove.grown.trans hpins.grown
    have hocc : S.occupied w₂ = S.occupied w := hocc₂.trans hocc₁
    refine (ih (fun e he => (hts e (.tail _ he)).mono hgrown) (fun e he => ?_) hgood₂).bind
      fun held w₃ σ₃ hrest => ?_
    · rw [hocc]
      exact hheld e (.tail _ he)
    refine .pure ⟨hrest.good, hrest.stack.trans hmove.stack, fun v τ hv => ?_,
      fun p hp hclear => ?_, ?_⟩
    · change Emits S (forM (held ++ pins) Build.release) v τ _
      rw [List.forM_append]
      refine (hrest.closes v τ hv).bind ?_
      rintro _ _ _ ⟨rfl, rfl⟩
      refine (hpins.closes (v.setReserved w₂.draft.reserved) _ rfl).mono ?_
      rintro _ _ _ ⟨rfl, rfl⟩
      exact ⟨rfl, by rw [hmove.reserved]; rfl⟩
    · rw [hrest.kept p (hp.mono hgrown) fun e he => (hclear e (.tail _ he)).congr hocc]
      exact hmove.byteIn_eq hp (hclear t (.head _))
    · intro before e after hsplit hbefore hafter
      cases before with
      | nil =>
        obtain ⟨rfl, rfl⟩ := List.cons.inj hsplit
        rw [← hmove.value]
        refine Location.bytesIn_congr fun p hp => hrest.kept p ?_ fun e he =>
          (hafter e he p hp).congr hocc
        exact ((hts t (.head _)).stores_dest hp).mono hgrown
      | cons first before =>
        obtain ⟨rfl, rfl⟩ := List.cons.inj hsplit
        have he : e ∈ before ++ e :: after := by simp
        rw [hrest.delivered before e after rfl
          (fun d hd p hp => (hbefore d (.tail _ hd) p hp).congr hocc)
          fun d hd p hp => (hafter d hd p hp).congr hocc]
        exact Location.bytesIn_congr fun p hp =>
          hmove.byteIn_eq ((hts e (.tail _ he)).stores_source hp) (hbefore t (.head _) p hp)

/-- **Parallel moves that need no particular order** are made in turn. -/
theorem emits_parallel
    (horder : ParallelMove.order (ts.map Build.toParallelMove) (some S.acc) =
      .ok (List.range ts.length, []))
    (hts : ∀ t ∈ ts, S.Movable w t)
    (hheld : ∀ t ∈ ts, ∀ r, t.1.place = .register (some r) → ∀ u, r.conflicts u = true →
      S.occupied w u = true)
    (hg : S.Good w σ) : Emits S (Build.parallel ts) w σ (ConveysAll S ts w σ) := by
  refine .accumulator (.ofExcept horder ?_)
  have htransfers := emits_transferList hts hheld hg
  rw [← Build.transferAll_range] at htransfers
  exact .reads rfl htransfers

end Turns

end Octet
