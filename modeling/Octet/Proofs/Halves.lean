import Octet.Proofs.Balance.Building
import Octet.Proofs.Generated.Moves
import Octet.Proofs.ParallelMove

/-!
# Bytes of words

A word is two bytes, and most machines work on one at a time. Registers, operands and locations are
all taken apart into bytes, by rules of their own; this module says how the rules fit together.

## Main definitions

* `Register.Flat`, `Operand.Whole` — registers made of bytes, and operands that lie as a word does
* `Place.uses`, `Place.read` — the bytes that a value depends on, and the value
* `Location.Halves.moves`, `Location.Halves.Apart` — the byte moves of a word, and what they may
  rely on

## Main results

* `Register.conflicts_exact` — conflict is overlap of bytes
* `Operand.located_byteAt` — bytes of operands lie where the bytes of the word do
* `Access.moveHalves_overlapping` — word moves respect overlap
-/

namespace Octet

open Assembly (Line)

/-! ### Registers made of bytes -/

namespace Register

variable {r o : Register}

/-- The halves of the register, if it is a pair, are no pairs themselves. -/
def Flat (r : Register) : Prop := ∀ p ∈ r.parts, p.isPair = false

instance : DecidablePred Flat :=
  fun r => inferInstanceAs (Decidable (∀ p ∈ r.parts, p.isPair = false))

theorem units_of_not_isPair (h : r.isPair = false) : r.units = [r] := by simp [units, h]

/-- The halves of a register are its units. -/
theorem mem_units_of_mem_parts (h : o ∈ r.parts) : o ∈ r.units := by
  cases r with
  | pair => exact h
  | byte | cell => cases h

theorem exists_mem_units (r : Register) : ∃ u, u ∈ r.units := by
  cases r with
  | pair id name low => exact ⟨low, .head _⟩
  | byte | cell => exact ⟨_, .head _⟩

/-- Registers made of bytes that conflict have a byte in common. -/
theorem Flat.exists_unit (hr : r.Flat) (ho : o.Flat) (h : r.conflicts o = true) :
    ∃ u ∈ r.units, u ∈ o.units := by
  rcases conflicts_iff.mp h with rfl | h | h | ⟨u, hu, h⟩
  · exact (exists_mem_units r).imp fun u hu => ⟨hu, hu⟩
  · exact ⟨o, mem_units_of_mem_parts h, by simp [units_of_not_isPair (hr o h)]⟩
  · exact ⟨r, by simp [units_of_not_isPair (ho r h)], mem_units_of_mem_parts h⟩
  · exact ⟨u, mem_units_of_mem_parts hu, mem_units_of_mem_parts h⟩

theorem Flat.conflicts_iff_units (hr : r.Flat) (ho : o.Flat) :
    r.conflicts o = true ↔ ∃ u ∈ r.units, u ∈ o.units := by
  refine ⟨hr.exists_unit ho, ?_⟩
  rintro ⟨u, hu, h⟩
  exact conflicts_of_mem_units hu h

/-- **Conflict is overlap of bytes.** In a register file of bytes, cells and pairs of bytes, two
registers conflict if and only if they have a unit in common. So conflict is symmetric, and a set of
registers conflicts with a register if and only if one of its members has a unit in common with
it. -/
theorem conflicts_exact {file : List Register} (hfile : ∀ r ∈ file, r.Flat) (hr : r ∈ file)
    (ho : o ∈ file) :
    (r.conflicts o = true ↔ ∃ u ∈ r.units, u ∈ o.units) ∧ r.conflicts o = o.conflicts r ∧
      ∀ s : RegisterSet, (∀ m ∈ s.members, m ∈ file) →
        (s.conflictsWith r = true ↔ ∃ m ∈ s.members, ∃ u ∈ m.units, u ∈ r.units) := by
  refine ⟨(hfile r hr).conflicts_iff_units (hfile o ho), conflicts_comm r o, fun s hs => ?_⟩
  rw [RegisterSet.conflictsWith, List.any_eq_true]
  exact exists_congr fun m => and_congr_right fun hm =>
    (hfile m (hs m hm)).conflicts_iff_units (hfile r hr)

/-- Two pairs that share one byte, and a pair that has none of theirs. -/
theorem conflicts_exact_pairs :
    let ce : Register := .pair 11 "ce" Intel.c Intel.e false
    let file := ce :: Intel.all ++ Mos.cells
    (∀ r ∈ file, r.Flat) ∧ ce ∈ file ∧ Intel.bc ∈ file ∧
      (ce.conflicts Intel.bc = true ↔ ∃ u ∈ ce.units, u ∈ Intel.bc.units) ∧
        (∃ u ∈ ce.units, u ∈ Intel.bc.units) ∧
      ((RegisterSet.ofList [Intel.bc, Intel.hl]).conflictsWith ce = true ↔
        ∃ m ∈ [Intel.bc, Intel.hl], ∃ u ∈ m.units, u ∈ ce.units) := by
  intro ce file
  have hfile : ∀ r ∈ file, r.Flat := by decide
  have hce : ce ∈ file := by decide
  have hbc : Intel.bc ∈ file := by decide
  obtain ⟨hconflicts, -, hset⟩ := conflicts_exact hfile hce hbc
  exact ⟨hfile, hce, hbc, hconflicts, by decide, hset _ (by decide)⟩

end Register

/-! ### Bytes of operands -/

namespace Operand

variable {o : Operand} {registers : Assignment}

/-- An operand that is no part of a variable. The variable is in memory, in a pair, or in a cell of
more than one byte. -/
def Whole (registers : Assignment) : Operand → Prop
  | .var v offset type => offset = 0 ∧ type = v.type ∧
    ∀ r, registers.get v = some r → r.isPair = true ∨ r.isCell = true ∧ r.width ≠ 1
  | _ => True

/-- The bytes of a constant make up its lowest two bytes. -/
theorem low_add_high (v : Int) :
    Bits.low 8 (Bits.shr v 0) + 256 * Bits.low 8 (Bits.shr v 8) = v % 65536 := by
  have hzero : Bits.shr v 0 = v := by simp [Bits.shr]
  rw [hzero, Bits.shr_eight, Bits.low_eight, Bits.low_eight]
  omega

/-- A byte of a word is a byte of the integer that was cut to it. -/
theorem byte_located_int {t : Ty} (v : Int) (ht : t.byteCount = 2) {i : Nat} (hi : i < 2) :
    ((int t v).located registers).byte? i =
      some ((int (.byte (t.signed && i == 1)) (Bits.low 8 (Bits.shr v (8 * i)))).located
        registers) := by
  have hl : (int t v).located registers = ⟨.immediate (Bits.low 16 v), 2, t.signed⟩ := by
    simp [located, type, ht, Location.immediate]
  rw [hl]
  obtain rfl | rfl : i = 0 ∨ i = 1 := by omega
  · have hbyte : Bits.low 8 (Bits.shr (Bits.low 16 v) 0) = Bits.low 8
        (Bits.low 8 (Bits.shr v 0)) := by
      simp only [Bits.shr, Int.shiftRight_zero, Bits.low_eight, Bits.low_sixteen]
      omega
    exact congrArg (fun b => some (Location.mk (.immediate b) 1 (t.signed && false))) hbyte
  · have hbyte : Bits.low 8 (Bits.shr (Bits.low 16 v) 8) = Bits.low 8
        (Bits.low 8 (Bits.shr v 8)) := by
      simp only [Bits.shr_eight, Bits.low_eight, Bits.low_sixteen]
      omega
    exact congrArg (fun b => some (Location.mk (.immediate b) 1 (t.signed && true))) hbyte

section Variables

variable {v : Variable} {r : Register} {i : Nat}

theorem located_memory (h : registers.get v = none) (offset : Int) (t : Ty) :
    (var v offset t).located registers = ⟨.memory v.label offset none, t.byteCount, t.signed⟩ := by
  unfold located
  simp only [h]
  rfl

/-- A part of a variable in a cell. The cell is its home if the part is all of it. -/
theorem located_cell (h : registers.get v = some r) (hcell : r.isCell = true)
    (offset : Int) (t : Ty) :
    (var v offset t).located registers = ⟨.memory r.address offset
      (if offset == 0 && (t.byteCount : Int) == r.width then some r else none), t.byteCount,
        t.signed⟩ := by
  unfold located
  simp only [h, hcell, if_true]
  rfl

theorem located_register (h : registers.get v = some r) (hcell : r.isCell = false)
    (offset : Int) (t : Ty) :
    (var v offset t).located registers =
      ⟨.register (if (t.byteCount : Int) < r.width then r.part? offset else some r), t.byteCount,
        t.signed⟩ := by
  unfold located
  simp only [h, hcell]
  rfl

/-- A byte of a variable, wherever the variable is. -/
theorem byte_located_var (hv : v.type.byteCount = 2)
    (hr : ∀ r, registers.get v = some r → r.isPair = true ∨ r.isCell = true ∧ r.width ≠ 1)
    (hi : i < 2) :
    ((var v 0 v.type).located registers).byte? i =
      some ((var v (Bits.wrap (0 + i)) (.byte (v.type.signed && i == 1))).located registers) := by
  have hone : ((i : Int) == 1) = (i == 1) := by
    obtain rfl | rfl : i = 0 ∨ i = 1 := by omega
    · rfl
    · rfl
  cases hget : registers.get v with
  | none =>
    rw [located_memory hget, located_memory hget, hv]
    change _ = some (Location.mk (.memory v.label (Bits.wrap (0 + i)) none) 1
      (v.type.signed && i == 1))
    simp [Location.byte?, hone]
  | some r =>
    rcases hr r hget with hpair | ⟨hcell, hwidth⟩
    · have hwrap : Bits.wrap (0 + i) = i := by rw [zero_add, Bits.wrap_of_lt (by omega) (by omega)]
      obtain ⟨hcell, hwidth⟩ : r.isCell = false ∧ r.width = 2 := by
        cases r with
        | pair => exact ⟨rfl, rfl⟩
        | byte | cell => cases hpair
      rw [located_register hget hcell, located_register hget hcell, hv, hwidth, hwrap]
      change _ = some (Location.mk (.register (r.part? i)) 1 (v.type.signed && i == 1))
      simp [Location.byte?, hone]
    · have hhome : (if (2 : Int) = r.width then some r else none).filter
          (fun r => !r.isWord) = none := by
        split
        · rename_i h
          simp [Register.isWord, ← h]
        · rfl
      have hnone : (if Bits.wrap (0 + i) == 0 && (1 : Int) == r.width then some r else none) =
          none :=
        if_neg (by simp [Ne.symm hwidth])
      rw [located_cell hget hcell, located_cell hget hcell, hv]
      change _ = some (Location.mk (.memory r.address (Bits.wrap (0 + i))
        (if Bits.wrap (0 + i) == 0 && (1 : Int) == r.width then some r else none)) 1
          (v.type.signed && i == 1))
      rw [hnone]
      simp [Location.byte?, hone, hhome]

end Variables

/-- **Slicing commutes with locating.** A byte of an operand of two bytes is where the byte of its
location is. The two bytes of a constant make up its lowest two bytes. -/
theorem located_byteAt (hwidth : o.type.byteCount = 2) (hwhole : o.Whole registers) :
    (∀ i < 2, ∃ b, o.byteAt i = .ok b ∧ (o.located registers).byte? i = some
      (b.located registers)) ∧
      ∀ t v, o = .int t v → ∃ t₀ low t₁ high, o.byteAt 0 = .ok (.int t₀ low) ∧
        o.byteAt 1 = .ok (.int t₁ high) ∧
        low + 256 * high = v % 65536 := by
  constructor
  · intro i hi
    cases o with
    | int t v => exact ⟨_, rfl, byte_located_int v hwidth hi⟩
    | var v offset t =>
      obtain ⟨rfl, rfl, hr⟩ := hwhole
      exact ⟨_, rfl, byte_located_var hwidth hr hi⟩
    | deref p offset t =>
      have hl : (deref p offset t).located registers =
          ⟨.indirect p (registers.get p) offset, 2, t.signed⟩ :=
        congrArg (fun n : Nat => Location.mk (.indirect p (registers.get p) offset) n t.signed)
          hwidth
      obtain rfl | rfl : i = 0 ∨ i = 1 := by omega
      · exact ⟨_, rfl, by rw [hl]; rfl⟩
      · exact ⟨_, rfl, by rw [hl]; rfl⟩
    | address | string =>
      obtain rfl | rfl : i = 0 ∨ i = 1 := by omega
      · exact ⟨_, rfl, rfl⟩
      · exact ⟨_, rfl, rfl⟩
    | addressByte => cases hwidth
  · rintro t v rfl
    exact ⟨_, _, _, _, rfl, rfl, low_add_high v⟩

/-- The signed byte of a word in a pair. -/
theorem located_byteAt_pair :
    let v : Variable := ⟨0, false, "w", "f_w", .word true, none⟩
    let registers : Assignment := ⟨[some Mos.ax]⟩
    ((whole v).type.byteCount = 2 ∧ (whole v).Whole registers) ∧
      ∃ b, (whole v).byteAt 1 = .ok b ∧ ((whole v).located registers).byte? 1 =
        some (b.located registers) := by
  intro v registers
  have hwhole : (whole v).Whole registers := by
    refine ⟨rfl, rfl, fun r hr => .inl ?_⟩
    cases hr
    rfl
  exact ⟨⟨rfl, hwhole⟩, (located_byteAt rfl hwhole).1 1 (by decide)⟩

/-- **A word in a cell of one byte**: the low byte is located in the cell as a register, the low
byte of the location of the word is not. -/
theorem located_byteAt_byte_cell :
    let v : Variable := ⟨0, false, "w", "f_w", .word false, none⟩
    let r : Register := .cell 10 "cate_zb0" 1 "cate_zb0" false
    let registers : Assignment := ⟨[some r]⟩
    (whole v).type.byteCount = 2 ∧ registers.get v = some r ∧ r.isCell = true ∧
      ∃ b, (whole v).byteAt 0 = .ok b ∧ ((whole v).located registers).byte? 0 ≠
        some (b.located registers) :=
  ⟨rfl, rfl, rfl, _, rfl, by decide⟩

end Operand

/-! ### Bytes that a value depends on -/

/-- A byte that can change: a register, or a byte of memory. -/
inductive Storage where
  | register (r : Register)
  | memory (name : String) (offset : Int)
  deriving DecidableEq

/-- The content of a byte. -/
def State.at (σ : State) : Storage → UInt8
  | .register r => σ.reg r
  | .memory name offset => σ.mem name offset

/-- What addresses mean: where symbols are, and the byte of memory at an offset from a pointer,
whose bytes are given with the low one first. -/
structure Addressing where
  symbols : List (String × Int)
  target : List UInt8 → Int → String × Int

namespace Place

variable {A : Addressing} {σ σ' : State} {p : Place}

/-- The byte that a place is, unless it is a constant or behind a pointer. -/
def storage? : Place → Option Storage
  | .register r => r.map .register
  | .memory name offset _ => some (.memory name offset)
  | _ => .none

/-- Where the bytes of the pointer to a place are, in its register or in memory. -/
def pointerBytes : Place → List Place
  | .indirect v .none _ => [.memory v.label 0 .none, .memory v.label 1 .none]
  | .indirect _ (some r) _ =>
    if r.isCell then [.memory r.address 0 .none, .memory r.address 1 .none]
    else [.register (r.part? 0), .register (r.part? 1)]
  | _ => []

/-- How far a place is from its pointer. -/
def distance? : Place → Option Int
  | .indirect _ _ offset => some offset
  | _ => .none

/-- The byte that a place behind a pointer is. -/
def pointed? (A : Addressing) (σ : State) (p : Place) : Option Storage :=
  p.distance?.map fun offset =>
    let byte := A.target (p.pointerBytes.map (·.byteIn A.symbols σ)) offset
    .memory byte.1 byte.2

/-- **The bytes that a value depends on**: the one where it is, and those of the pointer to it. -/
def uses (A : Addressing) (σ : State) (p : Place) : List Storage :=
  p.storage?.toList ++ (p.pointed? A σ).toList ++ p.pointerBytes.filterMap storage?

/-- The value of the byte at a place. -/
def read (A : Addressing) (σ : State) (p : Place) : UInt8 :=
  (p.pointed? A σ).elim (p.byteIn A.symbols σ) σ.at

theorem eq_of_storage?_register {r : Register} (h : p.storage? = some (.register r)) :
    p = .register (some r) := by
  cases p with
  | register r' =>
    obtain ⟨_, rfl, h⟩ := Option.map_eq_some_iff.mp h
    cases h
    rfl
  | memory | none | immediate | symbol | indirect => cases h

theorem exists_of_storage?_memory {name : String} {offset : Int}
    (h : p.storage? = some (.memory name offset)) :
    ∃ home, p = .memory name offset home := by
  cases p with
  | register r' =>
    obtain ⟨_, _, h⟩ := Option.map_eq_some_iff.mp h
    cases h
  | memory =>
    cases h
    exact ⟨_, rfl⟩
  | none | immediate | symbol | indirect => cases h

/-- A place that can be written is read from there, and from nowhere else. -/
theorem of_storage? {x : Storage} (h : p.storage? = some x) :
    p.read A σ = σ.at x ∧ p.uses A σ = [x] := by
  cases x with
  | register r =>
    obtain rfl := eq_of_storage?_register h
    exact ⟨rfl, rfl⟩
  | memory =>
    obtain ⟨home, rfl⟩ := exists_of_storage?_memory h
    exact ⟨rfl, rfl⟩

theorem byteIn_congr (symbols : List (String × Int))
    (h : ∀ x, p.storage? = some x → σ'.at x = σ.at x) :
    p.byteIn symbols σ' = p.byteIn symbols σ := by
  cases p with
  | register r =>
    cases r with
    | none => rfl
    | some r => exact h _ rfl
  | memory => exact h _ rfl
  | none | immediate | symbol | indirect => rfl

/-- A value stays as long as the bytes that it depends on do. -/
theorem read_congr (h : ∀ x ∈ p.uses A σ, σ'.at x = σ.at x) : p.read A σ' = p.read A σ := by
  have hpointer : p.pointerBytes.map (·.byteIn A.symbols σ') = p.pointerBytes.map
      (·.byteIn A.symbols σ) :=
    List.map_congr_left fun q hq => byteIn_congr A.symbols fun x hx =>
      h x (List.mem_append_right _ (List.mem_filterMap.mpr ⟨q, hq, hx⟩))
  have hpointed : p.pointed? A σ' = p.pointed? A σ := by rw [pointed?, hpointer, pointed?]
  rw [read, hpointed, read]
  cases hp : p.pointed? A σ with
  | none => exact byteIn_congr A.symbols fun x hx => h x (by simp [uses, hx])
  | some x => exact h x (by simp [uses, hp])

end Place

/-- The greatest offset. Behind it offsets go on with the least one. -/
def lastOffset : Int := 9223372036854775807

namespace Location

variable {A : Addressing} {σ : State} {d k : Location} {x : Storage}

/-- The pointer to a place is in memory at some symbol, or in the halves of a register. -/
theorem mem_pointer {v : Variable} {base : Option Register} {offset : Int}
    (hx : x ∈ (Place.indirect v base offset).pointerBytes.filterMap Place.storage?) :
    (∃ r u, base = some r ∧ u ∈ r.parts ∧ x = .register u) ∨
      ∃ i, (i = 0 ∨ i = 1) ∧ ((base = .none ∧ x = .memory v.label i) ∨
        ∃ r, base = some r ∧ r.isCell = true ∧ x = .memory r.address i) := by
  have hpair : ∀ {n}, x ∈ [Place.memory n 0 .none, .memory n 1 .none].filterMap Place.storage? →
      ∃ i, (i = 0 ∨ i = 1) ∧ x = .memory n i := by
    intro n hx
    obtain rfl | rfl : x = .memory n 0 ∨ x = .memory n 1 := by simpa [Place.storage?] using hx
    · exact ⟨0, .inl rfl, rfl⟩
    · exact ⟨1, .inr rfl, rfl⟩
  cases base with
  | none =>
    obtain ⟨i, hi, rfl⟩ := hpair hx
    exact .inr ⟨i, hi, .inl ⟨rfl, rfl⟩⟩
  | some r =>
    cases hcell : r.isCell with
    | true =>
      simp only [Place.pointerBytes, hcell, if_true] at hx
      obtain ⟨i, hi, rfl⟩ := hpair hx
      exact .inr ⟨i, hi, .inr ⟨r, rfl, hcell, rfl⟩⟩
    | false =>
      cases r with
      | pair id name low high pointer =>
        obtain rfl | rfl : x = .register low ∨ x = .register high := by
          simpa [Place.pointerBytes, Place.storage?, Register.isCell, Register.part?] using hx
        · exact .inl ⟨_, _, rfl, .head _, rfl⟩
        · exact .inl ⟨_, _, rfl, .tail _ (.head _), rfl⟩
      | byte | cell =>
        simp [Place.pointerBytes, Place.storage?, Register.part?, Register.isCell] at hx hcell

/-- **A byte that is not in the way.** If writing a byte does not clobber another one then that one
does not depend on it. -/
theorem not_mem_uses (hclobbers : d.clobbers k = false) (hx : d.place.storage? = some x)
    (hpointed : k.place.pointed? A σ ≠ some x)
    (hlast : ∀ name offset home home', d.place = .memory name offset home →
      k.place = .memory name offset home' →
      offset < Bits.wrap (offset + 1)) (hd : d.width = 1) (hk : k.width = 1) :
    x ∉ k.place.uses A σ := by
  obtain ⟨p, _, s⟩ := d
  obtain ⟨q, _, s'⟩ := k
  subst hd hk
  intro hmem
  simp only [Place.uses, List.mem_append, Option.mem_toList] at hmem
  rcases hmem with (hmem | hmem) | hmem
  · cases x with
    | register r =>
      obtain rfl := Place.eq_of_storage?_register hx
      obtain rfl := Place.eq_of_storage?_register hmem
      simp [clobbers, touched?, Register.clash] at hclobbers
    | memory name offset =>
      obtain ⟨home, rfl⟩ := Place.exists_of_storage?_memory hx
      obtain ⟨home', rfl⟩ := Place.exists_of_storage?_memory hmem
      have hlt := hlast _ _ _ _ rfl rfl
      simp [clobbers, overlaps, Location.offset, hlt] at hclobbers
  · exact hpointed hmem
  · cases q with
    | indirect v base offset =>
      rcases mem_pointer hmem with ⟨r, u, rfl, hu, rfl⟩ | ⟨i, hi, hbase⟩
      · obtain rfl := Place.eq_of_storage?_register hx
        have hconflicts : r.conflicts u = true := Register.conflicts_iff.mpr (.inr (.inl hu))
        simp [clobbers, touched?, Register.clash, hconflicts] at hclobbers
      · have hreaches : i < 2 ∧ 0 < Bits.wrap (i + 1) := by
          rcases hi with rfl | rfl
          · decide
          · decide
        rcases hbase with ⟨rfl, rfl⟩ | ⟨r, rfl, hcell, rfl⟩
        · obtain ⟨home, rfl⟩ := Place.exists_of_storage?_memory hx
          simp [clobbers, hreaches] at hclobbers
        · obtain ⟨home, rfl⟩ := Place.exists_of_storage?_memory hx
          simp [clobbers, hreaches, hcell] at hclobbers
    | register | memory | none | immediate | symbol => cases hmem

/-- Bytes have one byte. -/
theorem width_of_byte? {l b : Location} {i : Int} (h : l.byte? i = some b) : b.width = 1 := by
  unfold byte? at h
  split at h
  · rename_i hone
    cases h
    split
    · exact eq_of_beq hone
    · rfl
  · split at h
    · cases h
      rfl
    · obtain ⟨bits, -, h⟩ := Option.bind_eq_some_iff.mp h
      cases h
      rfl
    · cases h
      rfl
    · cases h
      rfl
    · cases h
    · cases h
      rfl
    · cases h
      rfl

end Location

/-! ### Orders of byte moves -/

/-- What a reduction to 64 bits is. -/
theorem Bits.exists_wrap_eq (v : Int) : ∃ n, wrap v = v + 18446744073709551616 * n ∧
    -9223372036854775808 ≤ wrap v ∧ wrap v < 9223372036854775808 := by
  have hm : modulus 64 = 18446744073709551616 := by decide
  rw [wrap, hm, Int.bmod_def]
  split
  · exact ⟨-(v / 18446744073709551616), by omega, by omega, by omega⟩
  · exact ⟨-(v / 18446744073709551616) - 1, by omega, by omega, by omega⟩

/-- A place for a word: two registers, or memory. -/
def Place.HoldsWord : Place → Prop
  | .register (some (.pair _ _ low high _)) => low ≠ high
  | .memory .. => True
  | _ => False

/-- A location with its two bytes. -/
structure Location.Halves (l : Location) where
  low : Location
  high : Location
  low_eq : l.byte? 0 = some low
  high_eq : l.byte? 1 = some high

namespace Location.Halves

variable {dest source : Location} (d : dest.Halves) (k : source.Halves) (t : Location)

/-- The byte moves that move a word, each as a destination and a source. -/
def moves : List (Location × Location) :=
  match d.low.wordPlan d.high k.low k.high with
  | .lowFirst => [(d.low, k.low), (d.high, k.high)]
  | .highFirst => [(d.high, k.high), (d.low, k.low)]
  | .throughTemporary => [(t, k.high), (d.low, k.low), (d.high, t)]

/-- The bytes of a destination are two registers, or two bytes of memory next to each other. -/
theorem places (hword : dest.place.HoldsWord) (hwidth : dest.width = 2) :
    (∃ r r', r ≠ r' ∧ d.low.place = .register (some r) ∧ d.high.place = .register (some r')) ∨
      ∃ name offset home, d.low.place = .memory name (Bits.wrap offset) home ∧
        d.high.place = .memory name (Bits.wrap (offset + 1)) home := by
  obtain ⟨low, high, hlow, hhigh⟩ := d
  obtain ⟨place, _, s⟩ := dest
  subst hwidth
  cases place with
  | register r =>
    cases r with
    | none => cases hword
    | some r =>
      cases r with
      | pair id name r r' pointer =>
        cases hlow
        cases hhigh
        exact .inl ⟨r, r', hword, rfl, rfl⟩
      | byte | cell => cases hword
  | memory name offset home =>
    cases hlow
    cases hhigh
    exact .inr ⟨name, offset, _, congrArg (fun o => Place.memory name (Bits.wrap o) _)
      (add_zero offset), rfl⟩
  | none | immediate | symbol | indirect => cases hword

theorem exists_storages (hword : dest.place.HoldsWord) (hwidth : dest.width = 2) :
    ∃ x y, d.low.place.storage? = some x ∧ d.high.place.storage? = some y ∧ y ≠ x := by
  rcases d.places hword hwidth with ⟨r, r', hne, hl, hh⟩ | ⟨name, offset, home, hl, hh⟩
  · exact ⟨.register r, .register r', by rw [hl]; rfl, by rw [hh]; rfl, by simpa using hne.symm⟩
  · refine ⟨_, _, by rw [hl]; rfl, by rw [hh]; rfl, ?_⟩
    obtain ⟨_, h₀⟩ := Bits.exists_wrap_eq offset
    obtain ⟨_, h₁⟩ := Bits.exists_wrap_eq (offset + 1)
    simp only [ne_eq, Storage.memory.injEq, true_and]
    omega

/-- The high byte of a word in memory is behind the low one. -/
theorem high_of_memory {name : String} {offset : Int} {home : Option Register}
    (h : k.low.place = .memory name offset home) :
    k.high.place = .immediate 0 ∨ ∃ home', k.high.place = .memory name
      (Bits.wrap (offset + 1)) home' := by
  obtain ⟨low, high, hlow, hhigh⟩ := k
  obtain ⟨place, width, s⟩ := source
  cases hone : width == 1 with
  | true =>
    simp only [byte?, hone, if_true] at hhigh
    cases hhigh
    exact .inl rfl
  | false =>
    simp only [byte?, hone, Bool.false_eq_true, if_false] at hlow hhigh
    cases place with
    | memory name' offset' home' =>
      cases hlow
      cases hhigh
      cases h
      have hwrap : Bits.wrap (offset' + 1) = Bits.wrap (Bits.wrap (offset' + 0) + 1) := by
        obtain ⟨_, h₀⟩ := Bits.exists_wrap_eq (offset' + 0)
        obtain ⟨_, h₁⟩ := Bits.exists_wrap_eq (offset' + 1)
        obtain ⟨_, h₂⟩ := Bits.exists_wrap_eq (Bits.wrap (offset' + 0) + 1)
        omega
      exact .inr ⟨_, congrArg (fun o => Place.memory name o _) hwrap⟩
    | register r =>
      cases r with
      | none => cases hlow
      | some r =>
        cases hlow
        cases h
    | none | immediate | symbol | indirect =>
      cases hlow
      cases h

/-- Memory that is the low byte of one word and the high byte of another one is not moved last to
first, other than at the end of the offsets. -/
theorem offset_lt_of_highFirst (hword : dest.place.HoldsWord) (hwidth : dest.width = 2)
    (hclobbers : d.low.clobbers k.high = true) {name : String} {offset : Int}
    {home home' : Option Register}
    (hd : d.high.place = .memory name offset home) (hk : k.low.place = .memory name offset home') :
    offset < Bits.wrap (offset + 1) := by
  have hlow := width_of_byte? d.low_eq
  have hhigh := width_of_byte? k.high_eq
  rcases d.places hword hwidth with ⟨r, r', -, -, hr⟩ | ⟨n, o, home, hl, hh⟩
  · rw [hr] at hd
    cases hd
  rw [hh] at hd
  cases hd
  rcases k.high_of_memory hk with hzero | ⟨home'', hsecond⟩
  · simp [clobbers, hl, hzero] at hclobbers
  obtain ⟨_, h₀⟩ := Bits.exists_wrap_eq o
  obtain ⟨_, h₁⟩ := Bits.exists_wrap_eq (o + 1)
  obtain ⟨_, h₂⟩ := Bits.exists_wrap_eq (Bits.wrap (o + 1) + 1)
  obtain ⟨_, h₃⟩ := Bits.exists_wrap_eq (Bits.wrap (Bits.wrap (o + 1) + 1) + 1)
  have hoverlaps : Bits.wrap o < Bits.wrap (Bits.wrap (Bits.wrap (o + 1) + 1) + 1) := by
    simp only [clobbers, hl, hsecond, overlaps, Location.offset, hlow, hhigh, Bool.and_eq_true,
      decide_eq_true_eq]
      at hclobbers
    exact hclobbers.2.1
  omega

end Location.Halves

namespace Addressing

variable {A : Addressing} {U : Storage → Prop} {σ σ' σ₁ σ₂ σ₃ : State} {d d' k k' t : Location}
  {x x' y : Storage}

/-- **A byte was moved**: the destination holds what the source held, and of the bytes of `U` no
other one changed. -/
structure Copies (A : Addressing) (U : Storage → Prop) (d k : Location) (σ σ' : State) : Prop where
  value : ∀ x, d.place.storage? = some x → σ'.at x = k.place.read A σ
  frame : ∀ x, U x → d.place.storage? ≠ some x → σ'.at x = σ.at x

/-- Bytes were moved one after another. -/
def Performs (A : Addressing) (U : Storage → Prop) :
    List (Location × Location) → State → State → Prop
  | [], σ, σ' => σ' = σ
  | m :: ms, σ, σ' => ∃ σ₁, A.Copies U m.1 m.2 σ σ₁ ∧ A.Performs U ms σ₁ σ'

theorem copies_setReg {r : Register} (hd : d.place = .register (some r)) :
    A.Copies U d k σ (σ.setReg r (k.place.read A σ)) := by
  refine ⟨?_, ?_⟩ <;> rw [hd]
  · rintro _ ⟨⟩
    exact σ.reg_setReg_self r _
  · intro x _ hx
    cases x with
    | register u =>
      refine State.reg_setReg_of_ne ?_
      rintro rfl
      exact hx rfl
    | memory => rfl

theorem copies_setMem {name : String} {offset : Int} {home : Option Register}
    (hd : d.place = .memory name offset home) :
    A.Copies U d k σ (σ.setMem name offset (k.place.read A σ)) := by
  refine ⟨?_, ?_⟩ <;> rw [hd]
  · rintro _ ⟨⟩
    exact State.mem_setMem_self ..
  · intro x _ hx
    cases x with
    | register => rfl
    | memory n o =>
      refine if_neg ?_
      rintro ⟨rfl, rfl⟩
      exact hx rfl

/-- A move leaves a value alone that does not depend on its destination. -/
theorem Copies.read_eq (h : A.Copies U d k σ σ') (hx : d.place.storage? = some x) {p : Place}
    (hU : ∀ y ∈ p.uses A σ, U y) (hp : x ∉ p.uses A σ) : p.read A σ' = p.read A σ := by
  refine Place.read_congr fun y hy => h.frame y (hU y hy) fun hxy => hp ?_
  rw [hx] at hxy
  cases hxy
  exact hy

/-- Two moves, the first of which does not write what the second one reads. -/
theorem Copies.both (h : A.Copies U d k σ σ₁) (h' : A.Copies U d' k' σ₁ σ₂)
    (hx : d.place.storage? = some x)
    (hx' : d'.place.storage? = some x') (hne : x' ≠ x) (hUx : U x)
    (hU : ∀ y ∈ k'.place.uses A σ, U y) (hp : x ∉ k'.place.uses A σ) :
    d.place.read A σ₂ = k.place.read A σ ∧ d'.place.read A σ₂ = k'.place.read A σ := by
  have hframe : σ₂.at x = σ₁.at x := h'.frame x hUx (by simpa [hx'] using hne)
  rw [(Place.of_storage? hx).1, (Place.of_storage? hx').1, hframe, h.value x hx, h'.value x' hx']
  exact ⟨rfl, h.read_eq hx hU hp⟩

end Addressing

namespace Location.Halves

variable {A : Addressing} {σ σ' : State} {dest source : Location} {d : dest.Halves}
  {k : source.Halves} {t : Location}

/-- The bytes that a word move depends on, with those that it writes. -/
def Needs (A : Addressing) (σ : State) (d : dest.Halves) (k : source.Halves) (t : Location)
    (x : Storage) : Prop :=
  ∃ l ∈ [d.low, d.high, k.low, k.high, t], x ∈ l.place.uses A σ

/-- **What a word move may rely on**: the source points outside the destination, the temporary is
not used for anything else, and a word at the end of the offsets is not moved from one byte before
it. -/
structure Apart (A : Addressing) (σ : State) (d : dest.Halves) (k : source.Halves) (t : Location) :
    Prop where
  pointed : ∀ l ∈ [k.low, k.high], ∀ x, l.place.pointed? A σ = some x →
    d.low.place.storage? ≠ some x ∧ d.high.place.storage? ≠ some x
  temporary : ∃ y, t.place.storage? = some y ∧ ∀ l ∈ [d.low, d.high, k.low, k.high],
    y ∉ l.place.uses A σ
  last : ∀ name home home', d.low.place = .memory name lastOffset home →
    k.high.place ≠ .memory name lastOffset home'

/-- The order is right: moving the low byte first leaves the high byte of the source alone. -/
theorem Apart.low_not_mem (h : Apart A σ d k t) (hword : dest.place.HoldsWord)
    (hwidth : dest.width = 2)
    (hclobbers : d.low.clobbers k.high = false) {x : Storage} (hx : d.low.place.storage? = some x) :
    x ∉ k.high.place.uses A σ := by
  refine not_mem_uses hclobbers hx (fun hp => (h.pointed _ (by simp) x hp).1 hx) ?_
    (width_of_byte? d.low_eq) (width_of_byte? k.high_eq)
  intro name offset home home' hd hk
  have hne : offset ≠ lastOffset := by
    rintro rfl
    exact h.last name home home' hd hk
  rcases d.places hword hwidth with ⟨r, r', -, hr, -⟩ | ⟨n, o, home, hl, -⟩
  · rw [hr] at hd
    cases hd
  rw [hl] at hd
  cases hd
  obtain ⟨_, h₀⟩ := Bits.exists_wrap_eq o
  obtain ⟨_, h₁⟩ := Bits.exists_wrap_eq (Bits.wrap o + 1)
  rw [lastOffset] at hne
  omega

/-- The order is right: moving the high byte first leaves the low byte of the source alone. -/
theorem Apart.high_not_mem (h : Apart A σ d k t) (hword : dest.place.HoldsWord)
    (hwidth : dest.width = 2)
    (hlow : d.low.clobbers k.high = true) (hclobbers : d.high.clobbers k.low = false) {x : Storage}
    (hx : d.high.place.storage? = some x) : x ∉ k.low.place.uses A σ :=
  not_mem_uses hclobbers hx (fun hp => (h.pointed _ (by simp) x hp).2 hx)
    (fun _ _ _ _ hd hk => offset_lt_of_highFirst d k hword hwidth hlow hd hk)
      (width_of_byte? d.high_eq)
    (width_of_byte? k.low_eq)

/-- **The order is right.** After the byte moves the destination holds what the source held
before. -/
theorem Apart.performs (h : Apart A σ d k t) (hword : dest.place.HoldsWord)
    (hwidth : dest.width = 2) (hmoves : A.Performs (Needs A σ d k t) (d.moves k t) σ σ') :
    d.low.place.read A σ' = k.low.place.read A σ ∧
      d.high.place.read A σ' = k.high.place.read A σ := by
  obtain ⟨x, x', hx, hx', hne⟩ := d.exists_storages hword hwidth
  have hUx : Needs A σ d k t x := ⟨d.low, by simp, by simp [(Place.of_storage? hx).2]⟩
  cases hlow : d.low.clobbers k.high with
  | false =>
    rw [show d.moves k t = [(d.low, k.low), (d.high, k.high)]
      by simp [moves, wordPlan, hlow]] at hmoves
    obtain ⟨σ₁, h₁, _, h₂, rfl⟩ := hmoves
    exact h₁.both h₂ hx hx' hne hUx (fun y hy => ⟨k.high, by simp, hy⟩)
      (h.low_not_mem hword hwidth hlow hx)
  | true =>
    cases hhigh : d.high.clobbers k.low with
    | false =>
      rw [show d.moves k t = [(d.high, k.high), (d.low, k.low)]
        by simp [moves, wordPlan, hlow, hhigh]] at hmoves
      obtain ⟨σ₁, h₁, _, h₂, rfl⟩ := hmoves
      have hUx' : Needs A σ d k t x' := ⟨d.high, by simp, by simp [(Place.of_storage? hx').2]⟩
      exact (h₁.both h₂ hx' hx hne.symm hUx' (fun y hy => ⟨k.low, by simp, hy⟩)
        (h.high_not_mem hword hwidth hlow hhigh hx')).symm
    | true =>
      rw [show d.moves k t = [(t, k.high), (d.low, k.low), (d.high, t)]
        by simp [moves, wordPlan, hlow, hhigh]]
        at hmoves
      obtain ⟨σ₁, h₁, σ₂, h₂, _, h₃, rfl⟩ := hmoves
      obtain ⟨y, hy, hunused⟩ := h.temporary
      have huses : ∀ τ, t.place.uses A τ = [y] := fun τ => (Place.of_storage? hy).2
      have hxy : x ≠ y := by
        rintro rfl
        exact hunused d.low (by simp) (by simp [(Place.of_storage? hx).2])
      -- The low byte of the source does not notice that the temporary is written, and the temporary
      -- not that the low
      -- byte of the destination is.
      obtain ⟨hl, hh⟩ :=
        h₂.both h₃ hx hx' hne hUx (fun z hz => ⟨t, by simp, by rwa [huses] at hz ⊢⟩)
        (by simpa [huses] using hxy)
      rw [hl, hh, h₁.read_eq hy (fun z hz => ⟨k.low, by simp, hz⟩) (hunused k.low (by simp)),
        (Place.of_storage? hy).1, h₁.value y hy]
      exact ⟨rfl, rfl⟩

end Location.Halves

/-! ### Building the moves -/

/-- The temporary that is handed out next. -/
def Work.temporary (w : Work) : Location := .memory (Build.temporaryName w.draft.temporaries) 0 1

section Building

variable {s : Site} {A : Addressing} {U : Storage → Prop}
  {after : List Line → Constants → State → Prop} {c : Access}
  {d k : Location} {w : Work} {σ : State}

/-- **Byte moves that copy.** `after` relates the lines of a program, with the constants known
behind them, to the states that they lead to. -/
def Access.Copies (c : Access) (s : Site) (A : Addressing) (U : Storage → Prop)
    (after : List Line → Constants → State → Prop) (d k : Location) : Prop :=
  ∀ w σ, after w.draft.lines w.draft.known σ → ∃ w' σ', s.run (c.moveByte d k) w = (.ok (), w') ∧
    w'.draft.reserved = w.draft.reserved ∧ after w'.draft.lines w'.draft.known σ' ∧
      A.Copies U d k σ σ'

theorem Site.run_byteOf {l b : Location} {i : Int} (h : l.byte? i = some b) (w : Work) :
    s.run (Build.byteOf l i) w = (.ok b, w) := by
  rw [Build.byteOf, h]
  rfl

/-- A pin that is taken off again leaves no trace in the code. -/
theorem Site.run_pinAt (s : Site) (l : Location) (w : Work) :
    ∃ held w', s.run (Build.pinAt l) w = (.ok held, w') ∧ w'.draft.lines = w.draft.lines ∧
      w'.draft.known = w.draft.known ∧ ∀ v, v.draft.reserved = w'.draft.reserved →
        ∃ v', s.run (Build.unpin held) v = (.ok (), v') ∧ v'.draft.lines = v.draft.lines ∧
          v'.draft.known = v.draft.known := by
  unfold Build.pinAt
  split
  · exact ⟨_, _, rfl, rfl, rfl, fun v hv => ⟨_, run_release hv, rfl, rfl⟩⟩
  · exact ⟨none, w, rfl, rfl, rfl, fun v _ => ⟨v, rfl, rfl, rfl⟩⟩

/-- The last of the byte moves, with what was written before it pinned. -/
theorem Access.Copies.pinned (h : c.Copies s A U after d k)
    (hafter : after w.draft.lines w.draft.known σ) (l dest : Location) :
    ∃ w' σ', s.run (do
        let held ← Build.pinAt l
        c.moveByte d k
        Build.unpin held
        Build.forget dest) w = (.ok (), w') ∧
      after w'.draft.lines w'.draft.known σ' ∧ A.Copies U d k σ σ' := by
  obtain ⟨held, w₁, hpin, hlines, hknown, hunpin⟩ := s.run_pinAt l w
  obtain ⟨w₂, σ₂, hmove, hreserved, hafter₂, hcopies⟩ := h w₁ σ (by rwa [hlines, hknown])
  obtain ⟨w₃, hrun, hlines₃, hknown₃⟩ := hunpin w₂ hreserved
  refine ⟨⟨w₃.ledger, w₃.draft.forgetOffsets dest⟩, σ₂, ?_, ?_, hcopies⟩
  · exact (Site.run_bind hpin).trans ((Site.run_bind hmove).trans (Site.run_bind hrun))
  · change after w₃.draft.lines w₃.draft.known σ₂
    rwa [hlines₃, hknown₃]

/-- Moving a word byte by byte performs the byte moves of its plan. -/
theorem Access.run_moveHalves {dest source : Location} {d : dest.Halves} {k : source.Halves}
    (hmoves : ∀ m ∈ d.moves k w.temporary, c.Copies s A U after m.1 m.2)
    (hafter : after w.draft.lines w.draft.known σ) :
    ∃ w' σ', s.run (c.moveHalves dest source) w = (.ok (), w') ∧
      after w'.draft.lines w'.draft.known σ' ∧
      A.Performs U (d.moves k w.temporary) σ σ' := by
  have hbytes : s.run (c.moveHalves dest source) w = _ :=
    (Site.run_bind (Site.run_byteOf d.low_eq w)).trans
      ((Site.run_bind (Site.run_byteOf d.high_eq w)).trans
      ((Site.run_bind (Site.run_byteOf k.low_eq w)).trans
        (Site.run_bind (Site.run_byteOf k.high_eq w))))
  rw [hbytes]
  dsimp only
  unfold Location.Halves.moves at hmoves ⊢
  cases hplan : d.low.wordPlan d.high k.low k.high with
  | lowFirst =>
    rw [hplan] at hmoves
    obtain ⟨w₁, σ₁, hrun₁, -, hafter₁, h₁⟩ := hmoves (d.low, k.low) (by simp) w σ hafter
    obtain ⟨w₂, σ₂, hrun₂, hafter₂, h₂⟩ :=
      (hmoves (d.high, k.high) (by simp)).pinned hafter₁ d.low dest
    exact ⟨w₂, σ₂, (Site.run_bind hrun₁).trans hrun₂, hafter₂, σ₁, h₁, σ₂, h₂, rfl⟩
  | highFirst =>
    rw [hplan] at hmoves
    obtain ⟨w₁, σ₁, hrun₁, -, hafter₁, h₁⟩ := hmoves (d.high, k.high) (by simp) w σ hafter
    obtain ⟨w₂, σ₂, hrun₂, hafter₂, h₂⟩ :=
      (hmoves (d.low, k.low) (by simp)).pinned hafter₁ d.high dest
    exact ⟨w₂, σ₂, (Site.run_bind hrun₁).trans hrun₂, hafter₂, σ₁, h₁, σ₂, h₂, rfl⟩
  | throughTemporary =>
    rw [hplan] at hmoves
    obtain ⟨w₁, ht, hlines, hknown⟩ : ∃ w₁, s.run (Build.temporary 1) w = (.ok w.temporary, w₁) ∧
        w₁.draft.lines = w.draft.lines ∧ w₁.draft.known = w.draft.known := ⟨_, rfl, rfl, rfl⟩
    obtain ⟨w₂, σ₂, hrun₂, -, hafter₂, h₂⟩ :=
      hmoves (w.temporary, k.high) (by simp) w₁ σ (by rwa [hlines, hknown])
    obtain ⟨w₃, σ₃, hrun₃, -, hafter₃, h₃⟩ := hmoves (d.low, k.low) (by simp) w₂ σ₂ hafter₂
    obtain ⟨w₄, σ₄, hrun₄, hafter₄, h₄⟩ :=
      (hmoves (d.high, w.temporary) (by simp)).pinned hafter₃ d.low dest
    exact ⟨w₄, σ₄,
      (Site.run_bind ht).trans ((Site.run_bind hrun₂).trans ((Site.run_bind hrun₃).trans hrun₄)),
      hafter₄, σ₂, h₂, σ₃, h₃, σ₄, h₄, rfl⟩

/-- **Word moves respect overlap.** Whatever the source of a word move is, and wherever it overlaps
the destination: if byte moves copy bytes, and change nothing else that the move depends on, then
moving the word byte by byte, in the order that is chosen from what the bytes clobber, leaves in the
two bytes of the destination what the two bytes of the source were before. -/
theorem Access.moveHalves_overlapping {dest source : Location} (d : dest.Halves) (k : source.Halves)
    (hword : dest.place.HoldsWord) (hwidth : dest.width = 2) (hapart : d.Apart A σ k w.temporary)
    (hmoves : ∀ m ∈ d.moves k w.temporary, c.Copies s A (d.Needs A σ k w.temporary) after m.1 m.2)
    (hafter : after w.draft.lines w.draft.known σ) :
    ∃ w' σ', s.run (c.moveHalves dest source) w = (.ok (), w') ∧
      after w'.draft.lines w'.draft.known σ' ∧
      d.low.place.read A σ' = k.low.place.read A σ ∧
        d.high.place.read A σ' = k.high.place.read A σ := by
  obtain ⟨w', σ', hrun, hafter', hperforms⟩ := run_moveHalves hmoves hafter
  exact ⟨w', σ', hrun, hafter', hapart.performs hword hwidth hperforms⟩

end Building

/-- Exchanging the accumulator and `x` takes a temporary. The code needs no memory but the
temporary, and runs wherever that is placed outside of the stack. -/
theorem Access.moveHalves_overlapping_swap :
    let s : Site := ⟨Arch.target .mos6502, ⟨"f", [], .void, [], [], []⟩, ⟨[]⟩, 0, none⟩
    let w : Work := ⟨.empty, .start .empty .unknown⟩
    let σ : State := ⟨fun r => if r = Mos.a then 1 else 2, fun _ _ => 0, [], false, false, 0⟩
    let xa : Register := .pair 5 "xa" Mos.x Mos.a false
    let L : Layout := .ofCells [("cate_tmp0", 0x300)] [("cate_tmp0", 0)] 255 1
    Mos.Fits L ∧ ∃ w' σ',
      s.run (Build.direct.moveHalves (.ofRegister Mos.ax) (.ofRegister xa)) w = (.ok (), w') ∧
        Mos.view.Runs L.symbols L.owns w'.draft.lines σ σ' ∧ σ'.reg Mos.a = 2 ∧
          σ'.reg Mos.x = 1 := by
  intro s w σ xa L
  have hfits : Mos.Fits L :=
    Mos.fits_ofCells (Layout.apart_ofCells (by decide) (by decide) 255 1) (by decide) (by decide)
  let d : (Location.ofRegister Mos.ax).Halves := ⟨_, _, rfl, rfl⟩
  let k : (Location.ofRegister xa).Halves := ⟨_, _, rfl, rfl⟩
  let A : Addressing := ⟨L.symbols, fun _ _ => ("", 0)⟩
  let after : List Line → Constants → State → Prop := fun ls known τ =>
    Mos.view.Runs L.symbols L.owns ls σ τ ∧ τ.wide = false ∧ known = .empty
  have howns : L.owns (Build.temporaryName 0) 0 :=
    show (Build.temporaryName 0, (0 : Int)) ∈ [("cate_tmp0", 0)] by decide +kernel
  have hapart : d.Apart A σ k w.temporary := by
    refine ⟨?_, ⟨_, rfl, by decide +kernel⟩, ?_⟩
    · intro l hl x hx
      obtain rfl | rfl : l = k.low ∨ l = k.high := by simpa using hl
      · cases hx
      · cases hx
    · intro name home home' h
      cases h
  have hmoves : ∀ m ∈ d.moves k w.temporary,
      Build.direct.Copies s A (d.Needs A σ k w.temporary) after m.1 m.2 := by
    rw [show d.moves k w.temporary = [(w.temporary, k.high), (d.low, k.low),
      (d.high, w.temporary)] by
      decide +kernel]
    rintro m hm ⟨ledger, ⟨⟩⟩ τ ⟨hruns, hwide, rfl⟩
    obtain rfl | rfl | rfl :
        m = (w.temporary, k.high) ∨ m = (d.low, k.low) ∨ m = (d.high, w.temporary) := by
      simpa using hm
    · exact ⟨_, _, rfl, rfl, ⟨hruns.append (Mos.runs_store (by decide) hwide howns), hwide, rfl⟩,
        Addressing.copies_setMem rfl⟩
    · exact ⟨_, _, rfl, rfl, ⟨hruns.append (Mos.runs_toA (by decide)), hwide, rfl⟩,
        Addressing.copies_setReg rfl⟩
    · exact ⟨_, _, rfl, rfl, ⟨hruns.append (Mos.runs_load (by decide) hwide howns), hwide, rfl⟩,
        Addressing.copies_setReg rfl⟩
  obtain ⟨w', σ', hrun, hafter, hlow, hhigh⟩ := Access.moveHalves_overlapping d k
    (show Mos.a ≠ Mos.x by decide) rfl hapart hmoves ⟨.nil _ _ _ _, rfl, rfl⟩
  exact ⟨hfits, w', σ', hrun, hafter.1, hlow, hhigh⟩

/-- **A word at the end of the offsets**: moved from one byte before it, the low byte goes first,
and overwrites the high byte of the source. -/
theorem Access.moveHalves_overlapping_lastOffset :
    let dest : Location := .memory "w" lastOffset 2
    let source : Location := .memory "w" (lastOffset - 1) 2
    let t : Location := .memory "cate_tmp0" 0 1
    let A : Addressing := ⟨[], fun _ _ => ("", 0)⟩
    ∃ (d : dest.Halves) (k : source.Halves) (σ σ' : State),
      dest.place.HoldsWord ∧
        (∀ l ∈ [d.low, d.high, k.low, k.high], .memory "cate_tmp0" 0 ∉ l.place.uses A σ) ∧
        A.Performs (fun _ => True) (d.moves k t) σ σ' ∧
          d.high.place.read A σ' ≠ k.high.place.read A σ := by
  intro dest source t A
  let σ : State := ⟨fun _ => 0, fun _ o => if o = lastOffset then 1 else 2, [], false, false, 0⟩
  exact ⟨⟨_, _, rfl, rfl⟩, ⟨_, _, rfl, rfl⟩, σ, _, trivial, by decide +kernel,
    ⟨_, Addressing.copies_setMem rfl, _, Addressing.copies_setMem rfl, rfl⟩, by decide +kernel⟩

end Octet
