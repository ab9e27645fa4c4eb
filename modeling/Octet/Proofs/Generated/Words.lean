import Octet.Proofs.Generated.Moves

/-!
# Moving words

A word is moved as two bytes, or by an instruction of the machine: with the wide accumulator of the
65816, or with the pair `hl` of the 8080. `Setting.Word` lists the places where words are, together
with the places of their two bytes, and what a move does is stated in terms of the bytes.

A load of `hl` from memory is left out, as it is missing in the table of effects: after it the
record is not true of the machine any more.

## Main definitions

* `Setting.Word` — words and their two bytes
* `TransfersWord` — a word was moved

## Main results

* `emits_moveHalves` — moving a word byte by byte
* `emits_move_byte`, `emits_move_word_bypassing` — moves between any two places
-/

namespace Octet

open Assembly (Arg Instr Line Part)
open Simulator (Memory)
open Build (temporaryName saveCellName)

/-! ### Places of words -/

/-- The pairs of a machine with their low and high halves. -/
def Arch.pairs : Arch → List (Register × Register × Register)
  | .i8080 => [(Intel.bc, Intel.c, Intel.b), (Intel.de, Intel.e, Intel.d),
    (Intel.hl, Intel.l, Intel.h)]
  | _ => [(Mos.ax, Mos.a, Mos.x)]

/-- **A word**: its place, and the places of its low and of its high byte. -/
inductive Setting.Word (S : Setting) (w : Work) : Place → Place → Place → Prop
  | pair {p low high : Register} (h : (p, low, high) ∈ S.arch.pairs) :
      Word S w (.register (some p)) (.register (some low)) (.register (some high))
  | memory {n : String} {home : Option Register} (h₀ : S.Cell w n 0) (h₁ : S.Cell w n 1)
      (hhome : ∀ q, home = some q → q.isCell = true ∧ q.isWord = true) :
      Word S w (.memory n 0 home) (.memory n 0 none) (.memory n 1 none)

theorem Arch.part_of_pairs {m : Arch} {p low high : Register} (h : (p, low, high) ∈ m.pairs) :
    p.part? 0 = some low ∧ p.part? 1 = some high := by
  have hall : ∀ t ∈ m.pairs, t.1.part? 0 = some t.2.1 ∧ t.1.part? 1 = some t.2.2 := by
    cases m <;> decide
  exact hall _ h

theorem Arch.bytes_of_pairs {m : Arch} {p low high : Register} (h : (p, low, high) ∈ m.pairs) :
    low ∈ m.bytes ∧ high ∈ m.bytes := by
  have hall : ∀ t ∈ m.pairs, t.2.1 ∈ m.bytes ∧ t.2.2 ∈ m.bytes := by cases m <;> decide
  exact hall _ h

/-- No high half is the accumulator. -/
theorem Arch.high_ne_accumulator {m : Arch} {p low high : Register} (h : (p, low, high) ∈ m.pairs) :
    high ≠ m.accumulator := by
  have hall : ∀ t ∈ m.pairs, t.2.2 ≠ m.accumulator := by cases m <;> decide
  exact hall _ h

/-- No low half shares storage with a high half. -/
theorem Arch.not_conflicts_halves {m : Arch} {p low high p' low' high' : Register}
    (h : (p, low, high) ∈ m.pairs)
    (h' : (p', low', high') ∈ m.pairs) : high'.conflicts low = false := by
  have hall : ∀ t ∈ m.pairs, ∀ t' ∈ m.pairs, t'.2.2.conflicts t.2.1 = false := by cases m <;> decide
  exact hall _ h _ h'

namespace Setting.Word

variable {S : Setting} {w w' : Work} {σ σ' : State} {p q low high low' high' : Place} {l : Location}

theorem mono (h : S.Word w p low high) (hw : w.Grown w') : S.Word w' p low high := by
  cases h with
  | pair h => exact .pair h
  | memory h₀ h₁ hhome => exact .memory (h₀.mono hw) (h₁.mono hw) hhome

theorem filter_home {home : Option Register} (h : ∀ q, home = some q → q.isCell = true ∧
    q.isWord = true) :
    (home.filter fun q => !q.isWord) = none := by
  cases home with
  | none => rfl
  | some q => simp [Option.filter, (h q rfl).2]

theorem byte_zero (h : S.Word w l.place low high) (hw : l.width = 2) :
    l.byte? 0 = some ⟨low, 1, false⟩ := by
  obtain ⟨place, width, signed⟩ := l
  subst hw
  cases h with
  | pair h => simp [Location.byte?, (Arch.part_of_pairs h).1]
  | memory h₀ h₁ hhome =>
    have hwrap : Bits.wrap 0 = 0 := by decide
    simp [Location.byte?, filter_home hhome, hwrap]

theorem byte_one (h : S.Word w l.place low high) (hw : l.width = 2) :
    l.byte? 1 = some ⟨high, 1, l.signed⟩ := by
  obtain ⟨place, width, signed⟩ := l
  subst hw
  cases h with
  | pair h => simp [Location.byte?, (Arch.part_of_pairs h).2]
  | memory h₀ h₁ hhome =>
    have hwrap : Bits.wrap 1 = 1 := by decide
    simp [Location.byte?, filter_home hhome, hwrap]

theorem stores_low (h : S.Word w p low high) : S.Stores w low := by
  cases h with
  | pair h => exact (Arch.bytes_of_pairs h).1
  | memory h₀ h₁ hhome => exact ⟨h₀, nofun⟩

theorem stores_high (h : S.Word w p low high) : S.Stores w high := by
  cases h with
  | pair h => exact (Arch.bytes_of_pairs h).2
  | memory h₀ h₁ hhome => exact ⟨h₁, nofun⟩

/-- A word has only one pair of bytes. -/
theorem unique (h : S.Word w p low high) (h' : S.Word w' p low' high') :
    low = low' ∧ high = high' := by
  cases h with
  | @pair q r s hp =>
    cases h' with
    | @pair _ r' s' hp' =>
      obtain ⟨hr, hs⟩ := Arch.part_of_pairs hp
      obtain ⟨hr', hs'⟩ := Arch.part_of_pairs hp'
      rw [← hr, ← hs, hr', hs']
      exact ⟨rfl, rfl⟩
  | memory =>
    cases h'
    exact ⟨rfl, rfl⟩

/-- The low byte of a word shares no storage with the high byte of any word. -/
theorem not_clobbers (h : S.Word w p low high) (h' : S.Word w q low' high') (s s' : Bool) :
    Location.clobbers ⟨low, 1, s⟩ ⟨high', 1, s'⟩ = false := by
  cases h with
  | pair h =>
    cases h' with
    | pair h' => exact Arch.not_conflicts_halves h h'
    | memory => rfl
  | memory =>
    have hwrap : Bits.wrap 2 = 2 ∧ Bits.wrap 1 = 1 := by decide
    cases h' with
    | pair => rfl
    | memory => simp [Location.clobbers, Location.overlaps, Location.offset, hwrap]

/-- The low byte of a word is other memory than the high byte of any word. -/
theorem touches_apart (h : S.Word w p low high) (h' : S.Word w q low' high') {n : String} {o : Int}
    (hn : low.Touches n o) : ¬ high'.Touches n o := by
  obtain ⟨home, hn⟩ := hn
  rintro ⟨home', hn'⟩
  cases h <;> cases hn
  cases h' <;> cases hn'

/-- The low byte of a word is in another register than the high byte of any word. -/
theorem low_ne_high (h : S.Word w p low high) (h' : S.Word w q low' high') {r : Register}
    (hr : low = .register (some r)) : high' ≠ .register (some r) := by
  intro hr'
  cases h with
  | memory => cases hr
  | pair h =>
    cases h' with
    | memory => cases hr'
    | pair h' =>
      cases hr
      cases hr'
      have hconflicts := Arch.not_conflicts_halves h h'
      simp [Register.conflicts, Register.contains] at hconflicts

/-- Both bytes of a word are in memory, or none. -/
theorem registers_of_memory (h : S.Word w p low high) {n : String} {o : Int}
    {home : Option Register} (hmem : high = .memory n o home) : low.registers = [] := by
  cases h with
  | pair => cases hmem
  | memory => rfl

/-- Moving the low byte of a pair does not need the high half. -/
theorem not_disturbs (h : S.Word w p low high) {r : Register} (hr : high = .register (some r))
    (q : Register) (dest : Place) : S.arch.disturbs q dest low r = false := by
  cases h with
  | memory => cases hr
  | pair h =>
    cases hr
    have hne := Arch.high_ne_accumulator h
    cases dest <;> simp [Arch.disturbs, hne]

end Setting.Word

/-! ### Moves of words -/

/-- **A word was moved**, given by the places of its bytes. -/
structure TransfersWord (S : Setting) (low high sourceLow sourceHigh : Place) (w : Work) (σ : State)
    (w' : Work) (σ' : State) : Prop extends
    Keeps S (fun u => S.Spares w low sourceLow u ∧ S.Spares w high sourceHigh u)
      (fun n o => low.Touches n o ∨ high.Touches n o) w σ w' σ' where
  low_eq : low.byteIn S.symbols σ' = sourceLow.byteIn S.symbols σ
  high_eq : high.byteIn S.symbols σ' = sourceHigh.byteIn S.symbols σ

section Words

variable {S : Setting} {w w' w'' : Work} {σ σ' σ'' : State} {low high sourceLow sourceHigh : Place}
  {l k : Location}

/-- What is occupied stays spared, and so does what is free while a move to memory has the same
relay. -/
theorem Setting.Spares.mono {dest source : Place} {u : Register} (h : S.Spares w dest source u)
    (hocc : S.occupied w u = true → S.occupied w' u = true)
    (hrelay : ∀ n o home, dest = .memory n o home → S.relay w' = S.relay w) :
    S.Spares w' dest source u := by
  refine ⟨h.1, h.2.imp hocc fun hfree => ?_⟩
  cases dest with
  | memory n o home => rwa [hrelay n o home rfl]
  | _ => cases source <;> exact hfree

theorem Setting.relay_congr (h : S.occupied w' = S.occupied w) : S.relay w' = S.relay w := by
  rw [Setting.relay, h, Setting.relay]

/-- The high byte of the source is still there when the low byte was moved. -/
theorem Setting.Word.high_after_low (hl : S.Word w l.place low high)
    (hk : S.Word w k.place sourceLow sourceHigh) (h : Transfers S low sourceLow w σ w' σ') :
    sourceHigh.byteIn S.symbols σ' = sourceHigh.byteIn S.symbols σ := by
  refine hk.stores_high.byteIn_eq h.toKeeps (fun r hr => ?_) fun n o hn ha =>
    hl.touches_apart hk ha hn
  exact ⟨fun he => hl.low_ne_high hk he hr, .inr (hk.not_disturbs hr _ low)⟩

/-- Moving a word byte by byte. -/
theorem emits_moveHalves (hl : S.Word w l.place low high) (hw : l.width = 2)
    (hk : S.Word w k.place sourceLow sourceHigh) (hw' : k.width = 2) (hg : S.Good w σ) :
    Emits S (Build.full.moveHalves l k) w σ fun _ =>
      TransfersWord S low high sourceLow sourceHigh w σ := by
  have hplan : Location.wordPlan ⟨low, 1, false⟩ ⟨high, 1, l.signed⟩ ⟨sourceLow, 1, false⟩
      ⟨sourceHigh, 1, k.signed⟩ = .lowFirst := by
    rw [Location.wordPlan, hl.not_clobbers hk]
    rfl
  refine .present (hl.byte_zero hw) (.present (hl.byte_one hw) (.present (hk.byte_zero hw')
    (.present (hk.byte_one hw') ?_)))
  dsimp only
  rw [hplan]
  have hlow := hl.stores_low
  have hhigh := hl.stores_high
  refine (emits_moveByte (l := ⟨low, 1, false⟩) (k := ⟨sourceLow, 1, false⟩) hlow
    hk.stores_low hg).bind
    fun _ w₁ σ₁ h₁ => ?_
  refine (emits_pinAt (l := ⟨low, 1, false⟩) (hlow.mono h₁.grown) h₁.good).bind ?_
  rintro held w₂ _ ⟨rfl, hg₂, hpins⟩
  refine (emits_moveByte (l := ⟨high, 1, l.signed⟩) (k := ⟨sourceHigh, 1, k.signed⟩)
    (hhigh.mono (h₁.grown.trans hpins.grown))
      (hk.stores_high.mono (h₁.grown.trans hpins.grown)) hg₂).bind
      fun _ w₃ σ₃ h₃ => ?_
  have hkeeps := hpins.keeps h₃.toKeeps
  refine (hpins.closes w₃ σ₃ h₃.reserved).bind ?_
  rintro _ _ _ ⟨rfl, rfl⟩
  refine (emits_forget hkeeps.good.offsets).mono ?_
  rintro _ w₄ _ ⟨rfl, hsame⟩
  have hsecond := hkeeps.same hsame
  refine ⟨?_, ?_, ?_⟩
  · refine (h₁.toKeeps.mono (fun u hu => hu.1) fun _ _ h => .inl h).trans
      (hsecond.mono (fun u hu => hu.2.mono (fun h => ?_) fun n o home hmem => ?_) fun _ _ h =>
        .inr h)
    · exact hpins.occupied_of (by rw [h₁.occupied_eq]; exact h)
    · rw [hl.registers_of_memory hmem] at hpins
      exact Setting.relay_congr (hpins.occupied_eq.trans h₁.occupied_eq)
  · refine Eq.trans ?_ h₁.value
    refine (hlow.mono h₁.grown).byteIn_eq hsecond (fun r hr => ?_) fun n o hn =>
      hl.touches_apart hl hn
    exact ⟨hl.low_ne_high hl hr, .inl (hpins.occupied_of_mem (by rw [hr]; exact .head _))⟩
  · exact h₃.value.trans (hl.high_after_low hk h₁)

end Words

/-! ### Words as operands -/

section Operands

variable {S : Setting} {w : Work} {σ : State} {low high : Place} {l : Location}

theorem Setting.Word.isWide (h : S.Word w l.place low high) (hw : l.width = 2)
    (hreg : l.isRegister = false) :
    l.isWide = true := by
  obtain ⟨place, width, signed⟩ := l
  subst hw
  cases h with
  | pair => cases hreg
  | memory => rfl

theorem Setting.Word.not_isWide (h : S.Word w l.place low high) (hreg : l.isRegister = true) :
    l.isWide = false := by
  obtain ⟨place, width, signed⟩ := l
  cases h with
  | pair => rfl
  | memory => cases hreg

theorem Location.not_isMemory (hreg : l.isRegister = true) : l.isMemory = false := by
  obtain ⟨place, width, signed⟩ := l
  cases place with
  | register => rfl
  | _ => cases hreg

theorem Setting.Word.exists_memory (h : S.Word w l.place low high) (hreg : l.isRegister = false) :
    ∃ n home, l.place = .memory n 0 home ∧ low = .memory n 0 none ∧ high = .memory n 1 none ∧
      S.Cell w n 0 ∧
      S.Cell w n 1 := by
  obtain ⟨place, width, signed⟩ := l
  cases h with
  | pair => cases hreg
  | @memory n home h₀ h₁ hhome => exact ⟨n, home, rfl, rfl, rfl, h₀, h₁⟩

theorem Setting.Word.exists_pair (h : S.Word w l.place low high) (hreg : l.isRegister = true) :
    ∃ p r s, (p, r, s) ∈ S.arch.pairs ∧ l.place = .register (some p) ∧ low = .register (some r) ∧
      high = .register (some s) := by
  obtain ⟨place, width, signed⟩ := l
  cases h with
  | @pair p r s h => exact ⟨p, r, s, h, rfl, rfl, rfl⟩
  | memory => cases hreg

end Operands

/-! ### Native moves -/

section Native

variable {S : Setting} {w w' : Work} {σ σ' : State} {low high sourceLow sourceHigh : Place}
  {l k : Location}

/-- Whether a word is moved to memory by instructions of the machine that leave a register alone:
`hl` is stored, and the 65816 needs the accumulator only. -/
def Arch.bypasses (m : Arch) (dest source : Place) (u : Register) : Bool :=
  match m, dest, source with
  | .i8080, .memory .., .register r => r == some Intel.hl
  | .wdc65816, .memory .., .memory .. => u != Mos.a
  | _, _, _ => false

theorem Arch.not_bypasses_register {m : Arch} {u : Register} {source : Place}
    (hreg : l.isRegister = true) :
    m.bypasses l.place source u = false := by
  obtain ⟨place, width, signed⟩ := l
  cases place with
  | register r => cases m <;> rfl
  | _ => cases hreg

/-- A word was moved by an instruction of the machine, or nothing happened. -/
def Native (Q : Work → State → Prop) (w : Work) (σ : State) (b : Bool) (w' : Work) (σ' : State) :
    Prop :=
  (b = true ∧ Q w' σ') ∨ (b = false ∧ w' = w ∧ σ' = σ)

/-- Memory after a word was stored at a symbol. -/
theorem Keeps.of_setWord {K : Register → Prop} {A : String → Int → Prop} {n : String}
    {low high : UInt8}
    (hlike : w.Like w') (hgood : S.Good w' σ') (hregs : ∀ u, K u → σ'.reg u = σ.reg u)
    (hmem : σ'.mem = (σ.setWord n 0 low high).mem) (hstack : σ'.stack = σ.stack) (h₀ : A n 0)
    (h₁ : A n 1) :
    Keeps S K A w σ w' σ' := by
  refine .of_state hlike hgood hregs (fun n' o' hn => ?_) hstack
  rw [hmem]
  exact State.mem_setWord_of_ne (fun h => hn (h.1 ▸ h.2 ▸ h₀)) fun h => hn (h.1 ▸ h.2 ▸ h₁)

theorem eq_of_touches {n n' : String} {o : Int}
    (h : (Place.memory n 0 none).Touches n' o ∨ (Place.memory n 1 none).Touches n' o) : n' = n := by
  rcases h with ⟨home, he⟩ | ⟨home, he⟩
  · cases he
    rfl
  · cases he
    rfl

/-- Copying a word from memory to memory with the wide accumulator. -/
theorem emits_copyWide {n n' : String} (hm : S.arch = .wdc65816) (h₀ : S.Needs w n 0)
    (h₁ : S.Needs w n 1) (h₀' : S.Needs w n' 0) (h₁' : S.Needs w n' 1) (hg : S.Good w σ) :
    Emits S (Build.emitAll (Mos.wide [⟨"lda", [.mem n' 0]⟩, ⟨"sta", [.mem n 0]⟩])) w σ
      fun _ w' σ' =>
      w.Like w' ∧ S.Good w' σ' ∧ (∀ u, u ≠ Mos.a → σ'.reg u = σ.reg u) ∧
        σ'.mem = (σ.setWord n 0 (σ.mem n' 0) (σ.mem n' 1)).mem ∧ σ'.stack = σ.stack := by
  have hlda : Mos.view.Runs S.symbols (S.Needs w) [.instr ⟨"lda", [.mem n' 0]⟩]
      (σ.setWide true) _ :=
    Mos.runs_lda_wide rfl h₀' h₁'
  have hregs : ∀ u, u ≠ Mos.a → (σ.setReg Mos.a (σ.mem n' 0)).reg u = σ.reg u :=
    fun u hu => State.reg_setReg_of_ne hu
  have hruns : Mos.view.Runs S.symbols (S.Needs w)
      (List.map Line.instr [⟨"lda", [.mem n' 0]⟩, ⟨"sta", [.mem n 0]⟩]) (σ.setWide true) _ :=
    hlda.cons (Mos.runs_sta_wide rfl h₀ h₁)
  refine (emits_all hg (fun i hi => ?_)
    (Arch.runs_of_mos (by rw [hm]; decide) (Mos.runs_wide hruns)) rfl
    fun u _ hu => ?_).mono ?_
  · simp only [Mos.wide, List.cons_append, List.nil_append, List.mem_cons, List.not_mem_nil,
      or_false] at hi
    rw [hm]
    rcases hi with rfl | rfl | rfl | rfl | rfl | rfl <;> rfl
  · have hua : u = Mos.a := Decidable.byContradiction fun h => hu (hregs u h)
    rw [hua, hm]
    rfl
  · rintro _ w' _ ⟨rfl, hlike, hgood⟩
    refine ⟨hlike, hgood, hregs, ?_, rfl⟩
    simp [State.setWord, State.setMem]

/-- Moving a word with the wide accumulator. -/
theorem emits_moveWide (hm : S.arch = .wdc65816) (hl : S.Word w l.place low high) (hw : l.width = 2)
    (hk : S.Word w k.place sourceLow sourceHigh) (hw' : k.width = 2) (hg : S.Good w σ) :
    Emits S (Mos.moveWide l k) w σ fun b w' σ' =>
      Native (TransfersWord S low high sourceLow sourceHigh w σ) w σ b w' σ' ∧
        ∀ u, S.arch.bypasses l.place k.place u = true → b = true ∧ σ'.reg u = σ.reg u := by
  unfold Mos.moveWide
  cases hlreg : l.isRegister with
  | true =>
    rw [if_pos (by simp [Location.isWordMemory, Location.not_isMemory hlreg])]
    exact .pure ⟨.inr ⟨rfl, rfl, rfl⟩, by simp [Arch.not_bypasses_register hlreg]⟩
  | false =>
  cases hkreg : k.isRegister with
  | true =>
    rw [if_pos (by simp [hk.not_isWide hkreg])]
    obtain ⟨_, _, _, -, hkplace, -, -⟩ := hk.exists_pair hkreg
    exact .pure ⟨.inr ⟨rfl, rfl, rfl⟩, by simp [hm, hkplace, Arch.bypasses]⟩
  | false =>
  obtain ⟨n, home, hplace, rfl, rfl, h₀, h₁⟩ := hl.exists_memory hlreg
  obtain ⟨n', home', hkplace, rfl, rfl, h₀', h₁'⟩ := hk.exists_memory hkreg
  have hmemory : l.isWordMemory = true := by
    simp [Location.isWordMemory, Location.isMemory, hplace, hw]
  rw [if_neg (by simp [hmemory, hk.isWide hw' hkreg])]
  refine .ofExcept (a := .mem n 0) (by rw [Location.arg, hplace]) ?_
  rw [if_neg (by simp [Location.isZero, Location.constant?, hkplace])]
  refine (emits_reserve (by rw [hm]; exact .head _) hg).bind fun res w₁ σ₁ hopen => ?_
  refine .ofExcept (a := .mem n' 0) (by rw [Location.arg, hkplace]) ?_
  have hneeds : ∀ {n : String} {o : Int}, S.Cell w n o → S.Needs w₁ n o :=
    fun h => .inl (h.mono hopen.grown)
  refine (emits_copyWide hm (hneeds h₀) (hneeds h₁) (hneeds h₀') (hneeds h₁') hopen.good).bind ?_
  rintro _ w₂ σ₂ ⟨hlike, hgood, hregs, hmem, hstack⟩
  have hbody : Keeps S (· ≠ Mos.a)
      (fun n' o => (Place.memory n 0 none).Touches n' o ∨ (Place.memory n 1 none).Touches n' o) w₁
        σ₁ w₂ σ₂ :=
    .of_setWord hlike hgood hregs hmem hstack (.inl ⟨none, rfl⟩) (.inr ⟨none, rfl⟩)
  refine (hopen.release hbody fun i h => h₀.ne_saveCellName i (eq_of_touches h).symm).bind ?_
  rintro _ w₃ σ₃ ⟨hkeeps, hrestored⟩
  have hsource : ∀ {o : Int}, S.Cell w n' o → σ₁.mem n' o = σ.mem n' o :=
    fun {o} h => hopen.byteIn_eq (p := .memory n' o none) ⟨h, by simp⟩
  refine .pure ⟨.inl ⟨rfl, hkeeps.mono (fun u hu => ?_) fun _ _ h => h, ?_, ?_⟩,
    fun u hu => ⟨rfl, hkeeps.regs u (.inr ?_)⟩⟩
  · by_cases hua : u = Mos.a
    · refine .inl (mem_filter_singleton.mpr ⟨hua, hu.1.2.elim id fun hfree => ?_⟩)
      have hacc : u = S.acc := hua.trans (congrArg Arch.accumulator hm).symm
      have hne : u ≠ S.relay w := by simpa [Arch.disturbs] using hfree
      exact hacc ▸ Setting.occupied_of_ne_relay (hacc ▸ hne)
    · exact .inr hua
  · change σ₃.mem n 0 = σ.mem n' 0
    rw [hrestored.mem, hmem, State.low_setWord, hsource h₀']
  · change σ₃.mem n (0 + 1) = σ.mem n' 1
    rw [hrestored.mem, hmem, State.high_setWord, hsource h₁']
  · rw [hm, hplace, hkplace] at hu
    simpa [Arch.bypasses] using hu

end Native

/-! ### Pairs of the 8080 -/

section Pairs

variable {S : Setting} {w w' : Work} {σ σ' : State} {low high sourceLow sourceHigh : Place}
  {l k : Location} {p r s : Register}

theorem Intel.isPair_of_pairs (h : (p, r, s) ∈ Arch.pairs .i8080) : p.isPair = true := by
  have hall : ∀ t ∈ Arch.pairs .i8080, t.1.isPair = true := by decide
  exact hall _ h

theorem Intel.halves_hl (h : (Intel.hl, r, s) ∈ Arch.pairs .i8080) : r = Intel.l ∧ s = Intel.h := by
  have hall : ∀ t ∈ Arch.pairs .i8080, t.1 = Intel.hl → t.2.1 = Intel.l ∧
      t.2.2 = Intel.h := by decide
  exact hall _ h rfl

theorem Site.run_pairAt (site : Site) (hp : p.isPair = true)
    (hplace : l.place = .register (some p)) :
    site.run (Intel.pairAt? l) w = (.ok (some p), w) := by
  obtain ⟨place, width, signed⟩ := l
  subst hplace
  have hrun : site.run (Intel.pairAt? ⟨.register (some p), width, signed⟩) w =
      (.ok (if p.isPair then some p else none), w) := rfl
  rw [hrun, hp]
  rfl

theorem Site.run_pairAt_none (site : Site) (hreg : l.isRegister = false) :
    site.run (Intel.pairAt? l) w = (.ok none, w) := by
  obtain ⟨place, width, signed⟩ := l
  cases place with
  | register => cases hreg
  | _ => rfl

/-- Storing `hl` to memory. -/
theorem emits_shld {n : String} (hm : S.arch = .i8080) (h₀ : S.Cell w n 0) (h₁ : S.Cell w n 1)
    (hg : S.Good w σ) :
    Emits S (Build.emit "shld" [.mem n 0]) w σ fun _ w' σ' =>
      TransfersWord S (.memory n 0 none) (.memory n 1 none) (.register (some Intel.l))
        (.register (some Intel.h)) w σ w' σ' ∧
        σ'.reg = σ.reg := by
  refine (emits_instr hg (by rw [hm]; rfl)
    (Arch.runs_of_intel hm (Intel.runs_shld (.inl h₀) (.inl h₁))) hg.narrow
    fun u _ hu => absurd rfl hu).mono ?_
  rintro _ w' _ ⟨rfl, hlike, hgood⟩
  exact ⟨⟨.of_setWord hlike hgood (fun _ _ => rfl) rfl rfl (.inl ⟨none, rfl⟩) (.inr ⟨none, rfl⟩),
    State.low_setWord .., State.high_setWord σ n 0 _ _⟩, rfl⟩

/-- Moving a word with an instruction for pairs: only `hl` is stored to memory. -/
theorem emits_movePair (hm : S.arch = .i8080) (hl : S.Word w l.place low high)
    (hk : S.Word w k.place sourceLow sourceHigh) (hpaired : l.isRegister = true →
      k.isRegister = true)
    (hg : S.Good w σ) :
    Emits S (Intel.movePair l k) w σ fun b w' σ' =>
      Native (TransfersWord S low high sourceLow sourceHigh w σ) w σ b w' σ' ∧
        ∀ u, S.arch.bypasses l.place k.place u = true → b = true ∧ σ'.reg u = σ.reg u := by
  unfold Intel.movePair
  cases hlreg : l.isRegister with
  | true =>
    obtain ⟨p, r, s, hpair, hplace, rfl, rfl⟩ := hl.exists_pair hlreg
    obtain ⟨_, _, _, -, hkplace, -, -⟩ := hk.exists_pair (hpaired hlreg)
    refine .reads (S.site.run_pairAt (Intel.isPair_of_pairs (hm ▸ hpair)) hplace) ?_
    simp only [Location.isImmediate, Location.isMemory, hplace, hkplace, Bool.and_false]
    exact .pure ⟨.inr ⟨rfl, rfl, rfl⟩, by simp [hm, Arch.bypasses]⟩
  | false =>
    obtain ⟨n, home, hplace, rfl, rfl, h₀, h₁⟩ := hl.exists_memory hlreg
    have hisIn : l.isIn Intel.hl = false := by simp [Location.isIn, hplace]
    have hmemory : l.isMemory = true := by simp [Location.isMemory, hplace]
    refine .reads (S.site.run_pairAt_none hlreg) ?_
    dsimp only
    rw [hisIn, hmemory]
    by_cases hkhl : k.place = .register (some Intel.hl)
    · rw [if_neg (by simp), if_pos (by simp [Location.isIn, hkhl])]
      obtain ⟨p, r, s, hpair, hp, rfl, rfl⟩ := hk.exists_pair (by simp [Location.isRegister, hkhl])
      rw [hm] at hpair
      have hp : p = Intel.hl := by simpa [hkhl] using hp.symm
      subst hp
      obtain ⟨rfl, rfl⟩ := Intel.halves_hl hpair
      exact .ofExcept (by rw [Location.arg, hplace])
        ((emits_shld hm h₀ h₁ hg).bind fun _ w' σ' h =>
          .pure ⟨.inl ⟨rfl, h.1⟩, fun u _ => ⟨rfl, congrFun h.2 u⟩⟩)
    · rw [if_neg (by simp), if_neg (by simpa [Location.isIn] using hkhl)]
      refine .pure ⟨.inr ⟨rfl, rfl, rfl⟩, fun u hu => absurd hu ?_⟩
      rw [hm, hplace]
      obtain ⟨kplace, kwidth, ksigned⟩ := k
      cases kplace with
      | register r => simpa [Arch.bypasses] using hkhl
      | _ => simp [Arch.bypasses]

end Pairs

/-! ### Moves between any two places -/

section Moves

variable {S : Setting} {w w' w'' : Work} {σ σ' : State} {low high sourceLow sourceHigh : Place}
  {l k : Location}

theorem emits_nativeMove (hl : S.Word w l.place low high) (hw : l.width = 2)
    (hk : S.Word w k.place sourceLow sourceHigh) (hw' : k.width = 2)
    (hpaired : S.arch = .i8080 → l.isRegister = true → k.isRegister = true) (hg : S.Good w σ) :
    Emits S (Build.nativeMove l k) w σ fun b w' σ' =>
      Native (TransfersWord S low high sourceLow sourceHigh w σ) w σ b w' σ' ∧
        ∀ u, S.arch.bypasses l.place k.place u = true → b = true ∧ σ'.reg u = σ.reg u := by
  refine .arch ?_
  cases hm : S.arch with
  | mos6502 => exact .pure ⟨.inr ⟨rfl, rfl, rfl⟩, by simp [Arch.bypasses]⟩
  | wdc65816 =>
    have hmove := emits_moveWide hm hl hw hk hw' hg
    rwa [hm] at hmove
  | i8080 =>
    have hmove := emits_movePair hm hl hk (hpaired hm) hg
    rwa [hm] at hmove

theorem TransfersWord.same (h : TransfersWord S low high sourceLow sourceHigh w σ w' σ')
    (hw : w'.Same w'') :
    TransfersWord S low high sourceLow sourceHigh w σ w'' σ' :=
  ⟨h.toKeeps.same hw, h.low_eq, h.high_eq⟩

/-- The same word has the same bytes. -/
theorem Setting.Word.eq_of_same (hl : S.Word w l.place low high)
    (hk : S.Word w k.place sourceLow sourceHigh)
    (h : l.same k = true) : low = sourceLow ∧ high = sourceHigh := by
  obtain ⟨p, wp, sp⟩ := l
  obtain ⟨q, wq, sq⟩ := k
  cases hl with
  | @pair p r s hp =>
    cases hk with
    | memory => simp [Location.same] at h
    | @pair p' r' s' hp' =>
      have hpp : p = p' := by simpa [Location.same] using (Bool.and_eq_true_iff.mp h).2
      subst hpp
      exact Setting.Word.unique (w := w) (.pair hp) (.pair (w := w) hp')
  | @memory n home h₀ h₁ hhome =>
    cases hk with
    | pair => simp [Location.same] at h
    | @memory n' home' h₀' h₁' hhome' =>
      have hnn : n = n' := by simpa [Location.same] using (Bool.and_eq_true_iff.mp h).2
      subst hnn
      exact ⟨rfl, rfl⟩

/-- **Moving a word**, with what an instruction of the machine leaves alone. -/
theorem emits_move_word_bypassing (hl : S.Word w l.place low high) (hw : l.width = 2)
    (hk : S.Word w k.place sourceLow sourceHigh) (hw' : k.width = 2)
    (hpaired : S.arch = .i8080 → l.isRegister = true → k.isRegister = true) (hg : S.Good w σ) :
    Emits S (Build.move l k) w σ fun _ w' σ' =>
      TransfersWord S low high sourceLow sourceHigh w σ w' σ' ∧
      ∀ u, S.arch.bypasses l.place k.place u = true → σ'.reg u = σ.reg u := by
  change Emits S (Build.full.move l k) w σ _
  rw [Access.move, hw, if_neg (by decide), Access.moveWord]
  by_cases hsame : l.same k = true
  · obtain ⟨rfl, rfl⟩ := hl.eq_of_same hk hsame
    rw [if_pos hsame]
    exact .pure ⟨⟨(Moves.refl _ _ hg).toKeeps, rfl, rfl⟩, fun _ _ => rfl⟩
  rw [if_neg hsame, hw', if_neg (by simp), Access.movePlainWord, if_neg hsame]
  refine (emits_nativeMove hl hw hk hw' hpaired hg).bind ?_
  rintro b w₁ σ₁ ⟨⟨rfl, h⟩ | ⟨rfl, rfl, rfl⟩, hbypasses⟩
  · rw [if_pos rfl]
    refine (emits_written h.good.offsets).mono ?_
    rintro _ w₂ _ ⟨rfl, hsame₂⟩
    exact ⟨h.same hsame₂, fun u hu => (hbypasses u hu).2⟩
  · rw [if_neg (by decide)]
    exact (emits_moveHalves hl hw hk hw' hg).mono fun _ _ _ h =>
      ⟨h, fun u hu => by cases (hbypasses u hu).1⟩

/-- Moving a byte, by the general move. -/
theorem emits_move_byte (hl : S.Stores w l.place) (hw : l.width = 1) (hk : S.Stores w k.place)
    (hw' : k.width = 1) (hg : S.Good w σ) :
    Emits S (Build.move l k) w σ fun _ => Transfers S l.place k.place w σ := by
  change Emits S (Build.full.move l k) w σ _
  rw [Access.move, hw, if_pos (by decide)]
  exact .present (by simp [Location.byte?, hw']) (emits_moveByte hl hk hg)

end Moves

end Octet
