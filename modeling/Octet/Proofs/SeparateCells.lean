import Octet.Proofs.Coverage.Layout

/-!
# Symbols that do not interfere

The symbols of a simulated memory are used from outside by their names: one asks for an address,
peeks at a value or pokes one. Cells are placed when the program is loaded, and all other symbols on
their first use, so what is kept is an invariant of both: symbols lie apart from each other below
the next free address, each of them shows its value, and what lies above is still zero. Placing a
symbol and writing to one preserve it.

A value is read as an integer of 64 bits. Up to seven bytes this makes no difference, but from eight
bytes on the value that is shown has a sign, and bytes behind the eighth are not seen.

## Main definitions

* `Simulator.Memory.Access`, `Simulator.Memory.perform` — uses of symbols
* `Simulator.Memory.held` — what symbols should show after some uses
* `Simulator.Memory.Kept` — symbols lie apart and show their values

## Main results

* `Simulator.Memory.Kept.place`, `Simulator.Memory.Kept.write` — placing and writing preserve the
  invariant
* `Simulator.Memory.symbols_apart` — symbols do not interfere, whatever the uses are
* `Simulator.Memory.peek_nine_bytes` — more than eight bytes are not shown
-/

namespace Octet.Simulator.Memory

open Assembly (Cell)

/-- A use of a symbol. -/
inductive Access where
  | address (name : String)
  | peek (name : String)
  | poke (name : String) (v : Int)

/-- The symbol that is used. -/
def Access.name : Access → String
  | address name | peek name | poke name _ => name

/-- Memory after a use, each symbol being used with a width of its own. -/
def perform (width : String → Nat) (m : Memory) : Access → Memory
  | .address name => (m.address name).2
  | .peek name => (m.peek name (width name)).2
  | .poke name v => m.poke name (width name) v

/-- The bytes that a symbol takes up. One that is not declared gets two. -/
def sizeIn (cells : List Cell) (name : String) : Int :=
  ((cells.find? (·.name == name)).map extent).getD 2

/-- The contents that a symbol is declared with. -/
def contents (cells : List Cell) (name : String) : List UInt8 :=
  ((cells.find? (·.name == name)).map (·.init)).getD []

/-- The number that bytes make up, the lowest first. -/
def ofBytes : List UInt8 → Int
  | [] => 0
  | b :: bs => b.toNat + 256 * ofBytes bs

/-- What symbols should show after a use. -/
def hold (width : String → Nat) (shown : String → Int) : Access → String → Int
  | .poke name v => Function.update shown name (v % 2 ^ (8 * width name))
  | _ => shown

/-- What symbols should show at first. -/
def declared (cells : List Cell) (width : String → Nat) (name : String) : Int :=
  ofBytes ((contents cells name).take (width name))

/-- **What symbols should show** after some uses: the last value that was poked, cut to its width,
and else the contents of the cell. -/
def held (cells : List Cell) (width : String → Nat) (calls : List Access) : String → Int :=
  calls.foldl (hold width) (declared cells width)

/-- What is shown of a value, as an integer of 64 bits. -/
def seen (width : Nat) (v : Int) : Int := if width < 8 then v else Bits.wrap v

/-- The symbols that are used without being declared. -/
def newcomers (cells : List Cell) (calls : List Access) : Finset String :=
  (calls.map Access.name).toFinset \ (cells.map (·.name)).toFinset

/-! ### Bytes and values -/

section Values

variable {m m' : Memory} {a v : Int} {bs : List UInt8} {n : Nat}

/-- Bytes that are there make up the value. -/
theorem value_eq_ofBytes (h : ∀ i : Nat, i < n → m.byte (a + i) = bs.getD i 0) :
    m.value a n = ofBytes (bs.take n) := by
  induction n generalizing a bs with
  | zero => rfl
  | succ n ih =>
    have hfirst := h 0 (by omega)
    have hrest : ∀ i : Nat, i < n → m.byte (a + 1 + i) = bs.tail.getD i 0 := by
      intro i hi
      have := h (i + 1) (by omega)
      rw [show a + ((i + 1 : Nat) : Int) = a + 1 + i by omega] at this
      rw [this]
      cases bs <;> rfl
    rw [value, ih hrest, ← Int.add_zero a, show (0 : Int) = ((0 : Nat) : Int) from rfl, hfirst]
    cases bs with
    | nil => simp [ofBytes]
    | cons b bs => simp [ofBytes]

theorem symbols_setValue (m : Memory) (a v : Int) (n : Nat) :
    (m.setValue a v n).symbols = m.symbols ∧ (m.setValue a v n).next = m.next := by
  induction n generalizing m a v with
  | zero => exact ⟨rfl, rfl⟩
  | succ n ih => exact ih ..

/-- What was written is read back, cut to its width. -/
theorem value_setValue (h₀ : 0 ≤ a) (h₁ : a + n ≤ 0x10000) :
    (m.setValue a v n).value a n = v % 2 ^ (8 * n) := by
  induction n generalizing m a v with
  | zero => simp [value]
  | succ n ih =>
    have hkept : ((m.setByte a (byteOf v)).setValue (a + 1) (Bits.shr v 8) n).byte a =
        byteOf v := by
      have hguard := guards_setValue (S := (· = a)) (m := m.setByte a (byteOf v)) (i := a + 1)
          (v := Bits.shr v 8) (n := n) (by rintro b rfl k hk; rw [Ne, index_eq_iff]; omega)
      rw [hguard.bytes a rfl, byte_setByte_self]
    rw [setValue, value, hkept, ih (by omega) (by omega), toNat_byteOf, Bits.shr_eight]
    have hpow : (2 : Int) ^ (8 * (n + 1)) = 256 * 2 ^ (8 * n) := by rw [Nat.mul_succ, pow_add]; ring
    have hdiv : v / 256 / 2 ^ (8 * n) = v / (256 * 2 ^ (8 * n)) :=
      Int.ediv_ediv_of_nonneg (by decide)
    rw [hpow, Int.emod_def v, Int.emod_def (v / 256), Int.emod_def v, hdiv]
    ring

/-- Filling puts bytes where they belong, and nowhere else. -/
theorem byte_fill (h₀ : 0 ≤ a) (h₁ : a + bs.length ≤ 0x10000) {b : Int} (hb₀ : 0 ≤ b)
    (hb₁ : b < 0x10000) :
    (m.fill a bs).byte b = if a ≤ b ∧ b < a + bs.length then bs.getD (b - a).toNat 0
      else m.byte b := by
  induction bs generalizing m a with
  | nil => simp only [fill, List.length_nil]; rw [if_neg (by omega)]
  | cons c bs ih =>
    simp only [List.length_cons, Nat.cast_add, Nat.cast_one] at h₁ ⊢
    rw [fill, if_pos (by omega), ih (by omega) (by omega)]
    by_cases hab : b = a
    · subst hab
      simp
    · rw [byte_setByte_of_ne (by rw [Ne, index_eq_iff]; omega)]
      by_cases hin : a + 1 ≤ b ∧ b < a + 1 + bs.length
      · rw [if_pos hin, if_pos (by omega), show (b - a).toNat = (b - (a + 1)).toNat + 1 by omega]
        rfl
      · rw [if_neg hin, if_neg (by omega)]

end Values

/-! ### Symbols apart -/

/-- **Symbols lie apart and show their values.** Memory is free from the next address on, and
symbols that have not been placed yet should show what they are declared with. -/
structure Kept (base : Int) (cells : List Cell) (width : String → Nat) (shown : String → Int)
    (m : Memory) : Prop where
  base_le : base ≤ m.next
  next_le : m.next ≤ 0x10000
  inside : ∀ s a, m.symbols.lookup s = some a → base ≤ a ∧ a + sizeIn cells s ≤ m.next
  apart : ∀ s t a b, s ≠ t → m.symbols.lookup s = some a → m.symbols.lookup t = some b →
    a + sizeIn cells s ≤ b ∨ b + sizeIn cells t ≤ a
  value : ∀ s a, m.symbols.lookup s = some a → m.value a (width s) = shown s
  free : ∀ b, m.next ≤ b → b < 0x10000 → m.byte b = 0
  unplaced : ∀ s, m.symbols.lookup s = none → shown s = declared cells width s

section Keeping

variable {base a v : Int} {cells : List Cell} {width : String → Nat} {shown : String → Int}
  {m : Memory} {name : String}

theorem lookup_place (m : Memory) (name s : String) (size : Int) :
    (m.place name size).symbols.lookup s = if s = name then some m.next
      else m.symbols.lookup s := by
  by_cases h : s = name
  · simp [Memory.place, h]
  · simp [Memory.place, List.lookup, h, beq_eq_false_iff_ne.mpr h]

/-- Placing a symbol, with the contents that it is declared with. -/
theorem Kept.place (h : Kept base cells width shown m) (hbase : 0 ≤ base)
    (hwidth : ∀ s, (width s : Int) ≤ sizeIn cells s)
    (hname : m.symbols.lookup name = none)
    (hlength : (contents cells name).length ≤ sizeIn cells name)
    (hfit : m.next + sizeIn cells name ≤ 0x10000) :
    Kept base cells width shown
      ((m.fill m.next (contents cells name)).place name (sizeIn cells name)) := by
  have hlow := h.base_le
  have hsymbols := fill_symbols m m.next (contents cells name)
  have hlookup : ∀ s,
    ((m.fill m.next (contents cells name)).place name (sizeIn cells name)).symbols.lookup s =
      if s = name then some m.next else m.symbols.lookup s := by
    intro s
    rw [lookup_place, hsymbols.1, hsymbols.2]
  have hnext : ((m.fill m.next (contents cells name)).place name (sizeIn cells name)).next =
      m.next + sizeIn cells name := by
    rw [Memory.place, hsymbols.2]
    exact Bits.wrap_of_lt (by omega) (by omega)
  have hbyte : ∀ b, 0 ≤ b → b < 0x10000 → (m.fill m.next (contents cells name)).byte b = _ :=
    fun b =>
    byte_fill (by omega) (by omega)
  refine ⟨by
    omega, by
      omega, fun s b hs => ?_, fun s t b c hne hs ht => ?_, fun s b hs => ?_, fun b hb hb' => ?_,
    fun s hs => ?_⟩
  · rw [hlookup] at hs
    split at hs
    · cases hs; subst s; omega
    · have := h.inside s b hs
      omega
  · rw [hlookup] at hs ht
    split at hs <;> split at ht
    · exact absurd (by simp_all) hne
    · cases hs; exact .inr (h.inside t c ht).2
    · cases ht; exact .inl (h.inside s b hs).2
    · exact h.apart s t b c hne hs ht
  · rw [hlookup] at hs
    have hs' := hwidth s
    split at hs
    · cases hs; subst s
      rw [h.unplaced name hname]
      refine value_eq_ofBytes fun i hi => (hbyte _ (by omega) (by omega)).trans ?_
      split
      · congr 1; omega
      · rw [h.free _ (by omega) (by omega), List.getD_eq_default _ _ (by omega)]
    · have hin := h.inside s b hs
      rw [← h.value s b hs]
      refine value_eq fun c hc hc' => (hbyte c (by omega) (by omega)).trans (if_neg (by omega))
  · exact (hbyte b (by omega) hb').trans ((if_neg (by omega)).trans (h.free b (by omega) hb'))
  · rw [hlookup] at hs
    split at hs
    · cases hs
    · exact h.unplaced s hs

/-- Writing to a symbol. -/
theorem Kept.write (h : Kept base cells width shown m) (hbase : 0 ≤ base)
    (hwidth : ∀ s, (width s : Int) ≤ sizeIn cells s) (hname : m.symbols.lookup name = some a) :
    Kept base cells width (Function.update shown name (v % 2 ^ (8 * width name)))
      (m.write a (width name) v) := by
  have hin := h.inside name a hname
  have hw := hwidth name
  have htop := h.next_le
  obtain ⟨hsymbols, hnext⟩ : (m.write a (width name) v).symbols = m.symbols ∧
      (m.write a (width name) v).next = m.next :=
    symbols_setValue ..
  have hguards : Guards (fun b => 0 ≤ b ∧ b < 0x10000 ∧ (b < a ∨ a + width name ≤ b)) m
      (m.write a (width name) v) :=
    guards_write (by omega) (by omega) fun b hb => hb
  refine ⟨hnext ▸ h.base_le, hnext ▸ htop, fun s b hs => ?_, fun s t b c hne hs ht => ?_,
    fun s b hs => ?_,
    fun b hb hb' => ?_, fun s hs => ?_⟩
  · rw [hsymbols] at hs
    rw [hnext]
    exact h.inside s b hs
  · rw [hsymbols] at hs ht
    exact h.apart s t b c hne hs ht
  · rw [hsymbols] at hs
    by_cases hsn : s = name
    · subst hsn
      obtain rfl := Option.some.inj (hname.symm.trans hs)
      rw [Function.update_self]
      exact value_setValue (by omega) (by omega)
    · rw [Function.update_of_ne hsn, ← h.value s b hs]
      have hin' := h.inside s b hs
      have hw' := hwidth s
      have hapart := h.apart s name b a hsn hs hname
      exact value_eq fun c hc hc' => hguards.bytes c ⟨by omega, by omega, by omega⟩
  · rw [hnext] at hb
    exact (hguards.bytes b ⟨by omega, hb', by omega⟩).trans (h.free b hb hb')
  · rw [hsymbols] at hs
    have hsn : s ≠ name := by rintro rfl; simp [hname] at hs
    rw [Function.update_of_ne hsn]
    exact h.unplaced s hs

/-! Cells are placed first. -/

theorem find?_of_mem {c : Cell} (hnames : (cells.map (·.name)).Nodup) (hc : c ∈ cells) :
    cells.find? (·.name == c.name) = some c := by
  induction cells with
  | nil => cases hc
  | cons d cells ih =>
    simp only [List.map_cons, List.nodup_cons] at hnames
    rcases List.mem_cons.mp hc with rfl | hc
    · simp
    · have hne : d.name ≠ c.name := fun he => hnames.1 (he ▸ List.mem_map_of_mem hc)
      rw [List.find?_cons_of_neg (by simpa using hne), ih hnames.2 hc]

theorem kept_blank (hbase : base ≤ 0x10000) :
    Kept base cells width (declared cells width) (blank base) where
  base_le := le_refl base
  next_le := hbase
  inside s a hs := by simp [blank] at hs
  apart s t a b hne hs := by simp [blank] at hs
  value s a hs := by simp [blank] at hs
  free b _ _ := byte_blank base b
  unplaced _ _ := rfl

/-- **Cells are laid out** one behind the other, all of them. -/
theorem Kept.layout {cs : List Cell} (h : Kept base cells width shown m) (hbase : 0 ≤ base)
    (hwidth : ∀ s, (width s : Int) ≤ sizeIn cells s)
    (hcells : ∀ c ∈ cs, cells.find? (·.name == c.name) = some c)
    (hnames : (cs.map (·.name)).Nodup) (hnew : ∀ c ∈ cs, m.symbols.lookup c.name = none)
    (hfit : m.next + (cs.map extent).sum ≤ 0x10000) :
    ∃ m', cs.foldlM addCell? m = some m' ∧ Kept base cells width shown m' ∧
      m'.next = m.next + (cs.map extent).sum := by
  induction cs generalizing m with
  | nil => exact ⟨m, rfl, h, by simp⟩
  | cons c cs ih =>
    simp only [List.map_cons, List.nodup_cons, List.sum_cons] at hnames hfit ⊢
    have hrest := extent_nonneg cs
    have hc := hcells c (.head _)
    have hsize : sizeIn cells c.name = extent c := by simp [sizeIn, hc]
    have hinit : contents cells c.name = c.init := by simp [contents, hc]
    have hlength : (c.init.length : Int) ≤ extent c := by unfold extent; omega
    have hpos : 1 ≤ extent c := by unfold extent; omega
    have hplace :=
      h.place hbase hwidth (hnew c (.head _)) (by rw [hsize, hinit]; exact hlength) (by omega)
    rw [hsize, hinit] at hplace
    have hadd : m.addCell? c = some ((m.fill m.next c.init).place c.name (extent c)) := by
      have hlow := h.base_le
      exact if_pos (by simp only [Bool.and_eq_true, decide_eq_true_eq]; omega)
    obtain ⟨hsymbols, hnext, -⟩ := addCell?_eq_some hadd (by omega)
    obtain ⟨m', hm', hkept, htop⟩ :=
      ih hplace (fun d hd => hcells d (List.mem_cons_of_mem c hd)) hnames.2 (fun d hd => by
        have hne : d.name ≠ c.name := fun he => hnames.1 (he ▸ List.mem_map_of_mem hd)
        rw [hsymbols]
        simpa [List.lookup, beq_eq_false_iff_ne.mpr hne] using hnew d (List.mem_cons_of_mem c hd))
      (by omega)
    exact ⟨m', by rw [List.foldlM_cons, hadd]; exact hm', hkept, by omega⟩

/-! All other symbols are placed on their first use. -/

/-- Looking up a symbol, for which there is room. -/
theorem Kept.address (h : Kept base cells width shown m) (hbase : 0 ≤ base)
    (hwidth : ∀ s, (width s : Int) ≤ sizeIn cells s)
    (hroom : m.symbols.lookup name = none → cells.find? (·.name == name) = none ∧
      m.next + 2 ≤ 0x10000) :
    Kept base cells width shown (m.address name).2 := by
  unfold Memory.address
  cases hname : m.symbols.lookup name with
  | some a => exact h
  | none =>
    obtain ⟨hcells, hnext⟩ := hroom hname
    have hsize : sizeIn cells name = 2 := by simp [sizeIn, hcells]
    have hinit : contents cells name = [] := by simp [contents, hcells]
    have hplace := h.place hbase hwidth hname (by simp [hinit, hsize]) (by omega)
    rwa [hsize, hinit] at hplace

/-- A symbol that is kept shows its value. -/
theorem Kept.read (h : Kept base cells width shown m) (hname : m.symbols.lookup name = some a) :
    m.read a (width name) = seen (width name) (shown name) := by
  have hlt : ((width name : Int) < 8) ↔ width name < 8 := by omega
  simp only [Memory.read, Int.toNat_natCast, h.value name a hname, seen, hlt]

theorem symbols_perform (width : String → Nat) (m : Memory) (c : Access) :
    (m.perform width c).symbols = (m.address c.name).2.symbols ∧
      (m.perform width c).next = (m.address c.name).2.next := by
  cases c with
  | address name => exact ⟨rfl, rfl⟩
  | peek name => exact ⟨rfl, rfl⟩
  | poke name v => exact symbols_setValue ..

/-- Uses move no symbol that has been placed. -/
theorem lookup_perform_all {s : String} (calls : List Access) (h : m.symbols.lookup s = some a) :
    (calls.foldl (perform width) m).symbols.lookup s = some a := by
  induction calls generalizing m with
  | nil => exact h
  | cons c calls ih =>
    apply ih
    rw [(symbols_perform width m c).1]
    exact (guards_address (S := fun _ => False) c.name).symbols s a h

/-- After a use, the symbol has been placed. -/
theorem lookup_address (m : Memory) (name : String) :
    (m.address name).2.symbols.lookup name = some (m.address name).1 := by
  unfold Memory.address
  cases hname : m.symbols.lookup name with
  | some a => exact hname
  | none => simp [lookup_place]

theorem lookup_used {c : Access} {calls : List Access} (h : c ∈ calls) :
    ∃ a, (calls.foldl (perform width) m).symbols.lookup c.name = some a := by
  obtain ⟨before, after, rfl⟩ := List.append_of_mem h
  rw [List.foldl_append, List.foldl_cons]
  have hplaced := lookup_address (before.foldl (perform width) m) c.name
  rw [← (symbols_perform width _ c).1] at hplaced
  exact ⟨_, lookup_perform_all after hplaced⟩

/-- The symbols that still have to be placed. -/
def waiting (m : Memory) (calls : List Access) : Finset String :=
  (calls.map Access.name).toFinset.filter (m.symbols.lookup · = none)

theorem mem_waiting {calls : List Access} {s : String} :
    s ∈ m.waiting calls ↔ (∃ c ∈ calls, c.name = s) ∧ m.symbols.lookup s = none := by
  simp [waiting]

/-- One that has to be placed takes two bytes, and waits no longer. -/
theorem room_perform (width : String → Nat) {c : Access} {calls : List Access} (hnext : 0 ≤ m.next)
    (hroom : m.next + 2 * (m.waiting (c :: calls)).card ≤ 0x10000) :
    (m.symbols.lookup c.name = none → m.next + 2 ≤ 0x10000) ∧
      (m.perform width c).next + 2 * ((m.perform width c).waiting calls).card ≤ 0x10000 := by
  obtain ⟨hsymbols, htop⟩ := symbols_perform width m c
  cases hname : m.symbols.lookup c.name with
  | some a =>
    have hsame : m.address c.name = (a, m) := by simp [Memory.address, hname]
    have hsub : (m.perform width c).waiting calls ⊆ m.waiting (c :: calls) := by
      intro s hs
      rw [mem_waiting, hsymbols, hsame] at hs
      obtain ⟨⟨d, hd, hds⟩, hs⟩ := hs
      exact mem_waiting.mpr ⟨⟨d, List.mem_cons_of_mem c hd, hds⟩, hs⟩
    have hcard := Finset.card_le_card hsub
    rw [htop, hsame]
    exact ⟨by simp, by simp only; omega⟩
  | none =>
    have hnew : m.address c.name = (m.next, m.place c.name 2) := by simp [Memory.address, hname]
    have hmem : c.name ∈ m.waiting (c :: calls) := mem_waiting.mpr ⟨⟨c, (.head _), rfl⟩, hname⟩
    have hsub : (m.perform width c).waiting calls ⊆ (m.waiting (c :: calls)).erase c.name := by
      intro s hs
      rw [mem_waiting, hsymbols, hnew, lookup_place] at hs
      obtain ⟨⟨d, hd, hds⟩, hs⟩ := hs
      split at hs
      · cases hs
      · exact Finset.mem_erase.mpr ⟨‹_›, mem_waiting.mpr ⟨⟨d, List.mem_cons_of_mem c hd, hds⟩, hs⟩⟩
    have hcard := Finset.card_le_card hsub
    have hpos := Finset.card_pos.mpr ⟨_, hmem⟩
    rw [Finset.card_erase_of_mem hmem] at hcard
    have hplace : (m.perform width c).next = m.next + 2 := by
      rw [htop, hnew]
      exact Bits.wrap_of_lt (by omega) (by omega)
    exact ⟨fun _ => by omega, by omega⟩

/-- **Ready for some uses**: all cells have been placed, and there is room for what is waiting. -/
structure Ready (base : Int) (cells : List Cell) (width : String → Nat) (shown : String → Int)
    (m : Memory) (calls : List Access) : Prop extends Kept base cells width shown m where
  placed : ∀ s, m.symbols.lookup s = none → cells.find? (·.name == s) = none
  room : m.next + 2 * (m.waiting calls).card ≤ 0x10000

/-- **A use of a symbol**, which is looked up first. -/
theorem Ready.perform {c : Access} {calls : List Access}
    (h : Ready base cells width shown m (c :: calls))
    (hbase : 0 ≤ base) (hwidth : ∀ s, (width s : Int) ≤ sizeIn cells s) :
    Kept base cells width shown (m.address c.name).2 ∧
      Ready base cells width (hold width shown c) (m.perform width c) calls := by
  have hlow := h.base_le
  obtain ⟨hnext, hroom⟩ := room_perform width (by omega) h.room
  have hkept := h.address hbase hwidth fun hname => ⟨h.placed _ hname, hnext hname⟩
  refine ⟨hkept, ?_, fun s hs => ?_, hroom⟩
  · cases c with
    | address name => exact hkept
    | peek name => exact hkept
    | poke name v => exact hkept.write hbase hwidth (lookup_address m name)
  · refine h.placed s (Option.eq_none_iff_forall_ne_some.mpr fun a ha => ?_)
    have hstay : (m.perform width c).symbols.lookup s = some a := lookup_perform_all [c] ha
    simp [hs] at hstay

/-- **Any uses of symbols** keep them apart. -/
theorem Ready.perform_all {before after : List Access}
    (h : Ready base cells width shown m (before ++ after))
    (hbase : 0 ≤ base) (hwidth : ∀ s, (width s : Int) ≤ sizeIn cells s) :
    Ready base cells width (before.foldl (hold width) shown)
      (before.foldl (Memory.perform width) m) after := by
  induction before generalizing m shown with
  | nil => exact h
  | cons c before ih => exact ih (h.perform hbase hwidth).2

/-- The cells of a program are laid out, with room for what is used besides. -/
theorem ready_ofCells {calls : List Access} (hbase : 0 ≤ base) (hnames : (cells.map (·.name)).Nodup)
    (hwidth : ∀ s, (width s : Int) ≤ sizeIn cells s)
    (hfit : base + (cells.map extent).sum + 2 * (newcomers cells calls).card ≤ 0x10000) :
    ∃ m, ofCells? base cells = some m ∧ Ready base cells width (declared cells width) m calls := by
  have hrest := extent_nonneg cells
  obtain ⟨m, hm, hkept, hnext⟩ :=
    (kept_blank (by omega)).layout hbase hwidth (fun c => find?_of_mem hnames) hnames
    (fun _ _ => rfl) (by change base + _ ≤ _; omega)
  have hplaced : ∀ s, m.symbols.lookup s = none → cells.find? (·.name == s) = none := by
    intro s hs
    rw [List.find?_eq_none]
    intro c hc
    obtain ⟨a, ha, -⟩ := (lookup_foldlM_addCell? hm hnames (by change base + _ ≤ _; omega)).2.1 c hc
    rw [beq_iff_eq]
    rintro rfl
    simp [ha] at hs
  have hsub : m.waiting calls ⊆ newcomers cells calls := by
    intro s hs
    obtain ⟨⟨c, hc, rfl⟩, hs⟩ := mem_waiting.mp hs
    have hcells := hplaced _ hs
    simp only [List.find?_eq_none, beq_iff_eq] at hcells
    simp only [newcomers, Finset.mem_sdiff, List.mem_toFinset, List.mem_map, not_exists, not_and]
    exact ⟨⟨c, hc, rfl⟩, hcells⟩
  have hcard := Finset.card_le_card hsub
  have hnext : m.next = base + _ := hnext
  exact ⟨m, hm, hkept, hplaced, by omega⟩

/-- **Symbols do not interfere.** Let cells have different names, let each symbol be used with one
width that is at most its size, and let everything that is placed fit into memory. Then the cells
can be laid out, and every symbol that is declared or used has a home of its own: homes lie apart,
and at each point of the run all symbols placed so far are still there. Whatever is used next is
found at its home, and shows what it should, which only its own contents and the values poked to it
decide. -/
theorem symbols_apart {calls : List Access} (hbase : 0 ≤ base) (hnames : (cells.map (·.name)).Nodup)
    (hwidth : ∀ s, (width s : Int) ≤ sizeIn cells s)
    (hfit : base + (cells.map extent).sum + 2 * (newcomers cells calls).card ≤ 0x10000) :
    ∃ m, ofCells? base cells = some m ∧ ∃ home : String → Int,
      (∀ s ∈ cells.map (·.name) ++ calls.map Access.name, base ≤ home s ∧
        home s + sizeIn cells s ≤ 0x10000) ∧
      (∀ s ∈ cells.map (·.name) ++ calls.map Access.name,
        ∀ t ∈ cells.map (·.name) ++ calls.map Access.name, s ≠ t →
        home s + sizeIn cells s ≤ home t ∨ home t + sizeIn cells t ≤ home s) ∧
      ∀ before c after, calls = before ++ c :: after →
        (∀ s ∈ cells.map (·.name) ++ before.map Access.name,
          (before.foldl (perform width) m).symbols.lookup s = some (home s)) ∧
        ((before.foldl (perform width) m).address c.name).1 = home c.name ∧
        ((before.foldl (perform width) m).peek c.name (width c.name)).1 =
          seen (width c.name) (held cells width before c.name) := by
  obtain ⟨m, hm, hready⟩ := ready_ofCells hbase hnames hwidth hfit
  -- A symbol that is declared or used has been placed, and stays where it is until the end.
  have hplaced : ∀ before after, calls = before ++ after →
    ∀ s ∈ cells.map (·.name) ++ before.map Access.name, ∃ a,
      (before.foldl (perform width) m).symbols.lookup s = some a := by
    rintro before after rfl s hs
    rcases List.mem_append.mp hs with hs | hs
    · obtain ⟨c, hc, rfl⟩ := List.mem_map.mp hs
      refine Option.ne_none_iff_exists'.mp fun hnone => ?_
      simpa [find?_of_mem hnames hc] using (hready.perform_all hbase hwidth).placed _ hnone
    · obtain ⟨c, hc, rfl⟩ := List.mem_map.mp hs
      exact lookup_used hc
  have hend : Ready base cells width (held cells width calls) (calls.foldl (perform width) m) [] :=
    Ready.perform_all (by rwa [List.append_nil]) hbase hwidth
  choose! home hhome using hplaced calls [] (List.append_nil calls).symm
  refine ⟨m, hm, home, fun s hs => ?_, fun s hs t ht hne => ?_, ?_⟩
  · have hin := hend.inside s _ (hhome s hs)
    have htop := hend.next_le
    omega
  · exact hend.apart s t _ _ hne (hhome s hs) (hhome t ht)
  · rintro before c after rfl
    have hrun : Ready base cells width (held cells width before) _ (c :: after) :=
      hready.perform_all hbase hwidth
    have hmine := lookup_address (before.foldl (perform width) m) c.name
    have hlater : ∀ s a, (before.foldl (perform width) m).symbols.lookup s = some a →
        ((before ++ c :: after).foldl (perform width) m).symbols.lookup s = some a := by
      intro s a hs
      rw [List.foldl_append]
      exact lookup_perform_all (c :: after) hs
    refine ⟨fun s hs => ?_, ?_, (hrun.perform hbase hwidth).1.read hmine⟩
    · obtain ⟨a, ha⟩ := hplaced before (c :: after) rfl s hs
      rw [ha, ← hlater s a ha,
        hhome s (by simp only [List.map_append, List.mem_append] at hs ⊢; tauto)]
    · have huse : ((before ++ c :: after).foldl (perform width) m).symbols.lookup c.name =
          some ((before.foldl (perform width) m).address c.name).1 := by
        rw [List.foldl_append, List.foldl_cons]
        exact lookup_perform_all after (by rw [(symbols_perform width _ c).1, hmine])
      exact Option.some.inj (huse.symm.trans (hhome c.name (by simp)))

end Keeping

/-- Two bytes of `t`, which nobody declares, are not changed by what is poked to `x`. -/
theorem symbols_apart_poke : ∃ m, ofCells? 0x200 [⟨"x", 3, [1, 2], .data⟩] = some m ∧
    (([Access.poke "t" (-2), .poke "x" 70000].foldl (perform fun _ => 2) m).peek "t" 2).1 =
      65534 := by
  obtain ⟨m, hm, home, -, -, hrun⟩ := @symbols_apart 0x200 [⟨"x", 3, [1, 2], .data⟩] (fun _ => 2)
    [.poke "t" (-2), .poke "x" 70000, .peek "t"] (by decide) (by decide)
    (fun s => by by_cases hs : "x" = s <;> simp [sizeIn, extent, hs]) (by decide)
  exact ⟨m, hm, (hrun [.poke "t" (-2), .poke "x" 70000] (.peek "t") [] rfl).2.2.trans (by decide)⟩

/-- **More than eight bytes are not shown.** The contents of the cell make up the number `2 ^ 64`,
and reading all nine bytes shows zero. -/
theorem peek_nine_bytes :
    ∃ m, ofCells? 0x200 [⟨"x", 9, [0, 0, 0, 0, 0, 0, 0, 0, 1], .data⟩] = some m ∧
    ofBytes [0, 0, 0, 0, 0, 0, 0, 0, 1] = 2 ^ 64 ∧ (m.peek "x" 9).1 = 0 := by
  have hwidth : ∀ s, ((if s = "x" then 9 else 2 : Nat) : Int) ≤
      sizeIn [⟨"x", 9, [0, 0, 0, 0, 0, 0, 0, 0, 1], .data⟩] s := by
    intro s
    by_cases hs : s = "x"
    · simp [sizeIn, extent, hs]
    · simp [sizeIn, hs, Ne.symm hs]
  obtain ⟨m, hm, hready⟩ := @ready_ofCells 0x200 _ _ [.peek "x"] (by decide) (by decide) hwidth
    (by decide)
  have hread := (hready.perform (by decide) hwidth).1.read (lookup_address m "x")
  refine ⟨m, hm, by simp [ofBytes], Eq.trans ?_ (hread.trans (by decide))⟩
  simp only [Memory.peek, Access.name, if_true, Nat.cast_ofNat]

end Octet.Simulator.Memory
