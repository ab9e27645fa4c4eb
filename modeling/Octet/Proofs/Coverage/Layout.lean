import Octet.Proofs.Generated.Bytes

/-!
# Cells that lie apart

The cells of a program are laid out one behind the other. As long as they have different names and
fit into memory, no two of them share a byte, and a store that stays inside one cell leaves every
other cell as it was. A computation *guards* bytes if it leaves them alone and moves no symbol that
has been placed.

## Main definitions

* `Simulator.Memory.Laid` — cells that lie apart above the page of the stack
* `Simulator.Memory.Guards`, `Simulator.Exec.Guards` — symbols stay where they are, and some bytes
  keep their values

## Main results

* `Simulator.Memory.guards_write` — a store beside the guarded bytes
* `Simulator.Memory.laid_ofCells` — the cells of a program lie apart
-/

namespace Octet

open Assembly (Arg Instr)

namespace Simulator

namespace Memory

variable {m m' m'' : Memory} {S : Int → Prop}

/-- **Cells that lie apart** above the page of the stack, each of the size that goes with its
name. -/
structure Laid (m : Memory) (cells : List String) (size : String → Int) : Prop where
  placed : ∀ s ∈ cells, ∃ a, m.symbols.lookup s = some a ∧ 0x200 ≤ a ∧ a + size s ≤ 0x10000
  apart : ∀ s ∈ cells, ∀ t ∈ cells, s ≠ t → ∀ a b, m.symbols.lookup s = some a →
    m.symbols.lookup t = some b → a + size s ≤ b ∨ b + size t ≤ a

/-- Symbols that have been placed stay there, and some bytes keep their values. -/
structure Guards (S : Int → Prop) (m m' : Memory) : Prop where
  symbols : ∀ s a, m.symbols.lookup s = some a → m'.symbols.lookup s = some a
  bytes : ∀ b, S b → m'.byte b = m.byte b

theorem Guards.refl (S : Int → Prop) (m : Memory) : Guards S m m := ⟨fun _ _ h => h, fun _ _ => rfl⟩

theorem Guards.trans (h : Guards S m m') (h' : Guards S m' m'') : Guards S m m'' :=
  ⟨fun s a hs => h'.symbols s a (h.symbols s a hs), fun b hb =>
    (h'.bytes b hb).trans (h.bytes b hb)⟩

/-- Looking up a symbol may place it, which moves no other. -/
theorem guards_address (name : String) : Guards S m (m.address name).2 := by
  unfold address
  cases hn : m.symbols.lookup name with
  | some a => exact .refl S m
  | none =>
    refine ⟨fun s a hs => ?_, fun _ _ => rfl⟩
    have hne : (s == name) = false := by
      rw [beq_eq_false_iff_ne]
      rintro rfl
      simp [hn] at hs
    simpa [place, List.lookup, hne] using hs

theorem guards_setByte {i : Int} {v : UInt8} (h : ∀ b, S b → index b ≠ index i) :
    Guards S m (m.setByte i v) :=
  ⟨fun _ _ hs => hs, fun b hb => byte_setByte_of_ne (h b hb)⟩

theorem guards_setValue {n : Nat} {i v : Int} (h : ∀ b, S b → ∀ k : Nat, k < n →
    index b ≠ index (i + k)) :
    Guards S m (m.setValue i v n) := by
  induction n generalizing m i v with
  | zero => exact .refl S m
  | succ n ih =>
    have hfirst : Guards S m (m.setByte i (byteOf v)) :=
      guards_setByte fun b hb => by simpa using h b hb 0 (by omega)
    refine hfirst.trans (ih fun b hb k hk => ?_)
    have hk := h b hb (k + 1) (by omega)
    rwa [show i + ((k + 1 : Nat) : Int) = i + 1 + k by omega] at hk

/-- A store beside the guarded bytes. -/
theorem guards_write {i v : Int} {n : Nat} (h₀ : 0 ≤ i) (h₁ : i + n ≤ 0x10000)
    (hS : ∀ b, S b → 0 ≤ b ∧ b < 0x10000 ∧ (b < i ∨ i + n ≤ b)) : Guards S m (m.write i n v) := by
  refine guards_setValue fun b hb k hk => ?_
  have hb := hS b hb
  rw [Ne, index_eq_iff]
  simp only [Int.toNat_natCast] at hk
  omega

theorem value_eq {n : Nat} {i : Int} (h : ∀ b, i ≤ b → b < i + n → m'.byte b = m.byte b) :
    m'.value i n = m.value i n := by
  induction n generalizing i with
  | zero => rfl
  | succ n ih =>
    simp only [value]
    rw [h i (by omega) (by omega), ih fun b hb hb' => h b (by omega) (by omega)]

/-- A cell whose bytes are guarded holds what it held. -/
theorem Guards.peek {a w : Int} {s : String} (h : Guards (fun b => a ≤ b ∧ b < a + w) m m')
    (hs : m.symbols.lookup s = some a) : (m'.peek s w).1 = (m.peek s w).1 := by
  have hs' := h.symbols s a hs
  have hv : m'.value a w.toNat = m.value a w.toNat :=
    value_eq fun b hb hb' => h.bytes b ⟨hb, by omega⟩
  simp only [Memory.peek, Memory.address, hs, hs', Memory.read, hv]

theorem byte_blank (base a : Int) : (blank base).byte a = 0 := by simp [byte, blank]

/-! The cells of a program are placed one behind the other. -/

theorem fill_symbols (m : Memory) (addr : Int) (bs : List UInt8) :
    (m.fill addr bs).symbols = m.symbols ∧ (m.fill addr bs).next = m.next := by
  induction bs generalizing m addr with
  | nil => exact ⟨rfl, rfl⟩
  | cons b bs ih =>
    rw [fill]
    split
    · exact ih _ _
    · exact ⟨rfl, rfl⟩

/-- A cell is placed at the next free address, and the next one behind it. -/
theorem addCell?_eq_some {c : Assembly.Cell} (h : m.addCell? c = some m')
    (hnext : m.next + extent c ≤ 0x10000) :
    m'.symbols = (c.name, m.next) :: m.symbols ∧ m'.next = m.next + extent c ∧ 0 ≤ m.next := by
  unfold addCell? at h
  split at h
  · rename_i hin
    simp only [Bool.and_eq_true, decide_eq_true_eq] at hin
    cases h
    obtain ⟨hsymbols, hfill⟩ := fill_symbols m m.next c.init
    have hpos : 1 ≤ extent c := by unfold extent; omega
    refine ⟨by rw [place, hsymbols, hfill], ?_, hin.1⟩
    rw [place, hfill]
    exact Bits.wrap_of_lt (by omega) (by omega)
  · simp at h

theorem extent_nonneg (cs : List Assembly.Cell) : 0 ≤ (cs.map extent).sum := by
  induction cs with
  | nil => simp
  | cons c cs ih =>
    have hpos : 1 ≤ extent c := by unfold extent; omega
    simp only [List.map_cons, List.sum_cons]
    omega

/-- Where cells come to lie: from the next free address on, apart from each other, and nothing else
moves. -/
theorem lookup_foldlM_addCell? {cs : List Assembly.Cell} (h : cs.foldlM addCell? m = some m')
    (hnames : (cs.map (·.name)).Nodup) (hfit : m.next + (cs.map extent).sum ≤ 0x10000) :
    (∀ s, s ∉ cs.map (·.name) → m'.symbols.lookup s = m.symbols.lookup s) ∧
      (∀ c ∈ cs, ∃ a, m'.symbols.lookup c.name = some a ∧ m.next ≤ a ∧ a + extent c ≤ 0x10000) ∧
      ∀ c ∈ cs, ∀ d ∈ cs, c.name ≠ d.name → ∀ a b, m'.symbols.lookup c.name = some a →
        m'.symbols.lookup d.name = some b → a + extent c ≤ b ∨ b + extent d ≤ a := by
  induction cs generalizing m with
  | nil =>
    cases h
    simp
  | cons c cs ih =>
    obtain ⟨m₁, hc, hcs⟩ := Option.bind_eq_some_iff.mp h
    simp only [List.map_cons, List.nodup_cons, List.sum_cons] at hnames hfit
    have hrest := extent_nonneg cs
    obtain ⟨hsymbols, hnext, h₀⟩ := addCell?_eq_some hc (by omega)
    obtain ⟨hother, hplaced, hapart⟩ := ih hcs hnames.2 (by omega)
    have hc' : m'.symbols.lookup c.name = some m.next := by
      rw [hother _ hnames.1, hsymbols]
      simp [List.lookup]
    refine ⟨fun s hs => ?_, fun d hd => ?_, fun d hd e he hne a b ha hb => ?_⟩
    · simp only [List.map_cons, List.mem_cons, not_or] at hs
      have hne : (s == c.name) = false := beq_eq_false_iff_ne.mpr hs.1
      rw [hother s hs.2, hsymbols]
      simp [List.lookup, hne]
    · rcases List.mem_cons.mp hd with rfl | hd
      · exact ⟨m.next, hc', by omega, by omega⟩
      · obtain ⟨a, ha, hlow, hhigh⟩ := hplaced d hd
        have hpos : 1 ≤ extent c := by unfold extent; omega
        exact ⟨a, ha, by omega, hhigh⟩
    · rcases List.mem_cons.mp hd with rfl | hd' <;> rcases List.mem_cons.mp he with rfl | he'
      · exact absurd rfl hne
      · obtain ⟨b', hb', hlow, -⟩ := hplaced e he'
        obtain rfl := Option.some.inj (hc'.symm.trans ha)
        obtain rfl := Option.some.inj (hb'.symm.trans hb)
        omega
      · obtain ⟨a', ha', hlow, -⟩ := hplaced d hd'
        obtain rfl := Option.some.inj (hc'.symm.trans hb)
        obtain rfl := Option.some.inj (ha'.symm.trans ha)
        omega
      · exact hapart d hd' e he' hne a b ha hb

/-- **The cells of a program lie apart**, once they are laid out above the page of the stack and fit
into memory. -/
theorem laid_ofCells {base : Int} {cs : List Assembly.Cell} {size : String → Int}
    (h : ofCells? base cs = some m)
    (hbase : 0x200 ≤ base) (hnames : (cs.map (·.name)).Nodup)
    (hfit : base + (cs.map extent).sum ≤ 0x10000)
    (hsize : ∀ c ∈ cs, size c.name = extent c) : m.Laid (cs.map (·.name)) size := by
  obtain ⟨-, hplaced, hapart⟩ := lookup_foldlM_addCell? h hnames hfit
  constructor
  · intro s hs
    obtain ⟨c, hc, rfl⟩ := List.mem_map.mp hs
    obtain ⟨a, ha, hlow, hhigh⟩ := hplaced c hc
    have hlow : base ≤ a := hlow
    exact ⟨a, ha, by omega, by rw [hsize c hc]; exact hhigh⟩
  · intro s hs t ht hne a b ha hb
    obtain ⟨c, hc, rfl⟩ := List.mem_map.mp hs
    obtain ⟨d, hd, rfl⟩ := List.mem_map.mp ht
    rw [hsize c hc, hsize d hd]
    exact hapart c hc d hd hne a b ha hb

end Memory

namespace Exec

variable {κ α β : Type} {S : Int → Prop}

/-- The computation guards some bytes, from one state of the machine on. -/
def GuardsAt (S : Int → Prop) (x : Exec κ α) (M : Machine κ) : Prop :=
  Memory.Guards S M.memory (x.run M).2.memory

theorem guards_bindAt {x : Exec κ α} {f : α → Exec κ β} {M : Machine κ} (hx : GuardsAt S x M)
    (hf : ∀ a, (x.run M).1 = .ok a → GuardsAt S (f a) (x.run M).2) : GuardsAt S (x >>= f) M := by
  change Memory.Guards S M.memory
    ((ExceptT.bindCont (fun a => f a) (x.run M).1).run (x.run M).2).2.memory
  cases hr : (x.run M).1 with
  | error t => exact hx
  | ok a => exact hx.trans (hf a hr)

/-- The computation guards all bytes, from every state of the machine on. -/
def Guards (S : Int → Prop) (x : Exec κ α) : Prop := ∀ M, GuardsAt S x M

theorem guards_bind {x : Exec κ α} {f : α → Exec κ β} (hx : Guards S x) (hf : ∀ a, Guards S (f a)) :
    Guards S (x >>= f) := fun M => guards_bindAt (hx M) fun a _ => hf a _

theorem guards_pure (a : α) : Guards S (pure a : Exec κ α) := fun M => .refl S M.memory

theorem guards_throw (t : Trap) : Guards S (throw t : Exec κ α) := fun M => .refl S M.memory

theorem guards_cpu : Guards S (cpu : Exec κ κ) := fun M => .refl S M.memory

theorem guards_update (f : κ → κ) : Guards S (update f) := fun M => .refl S M.memory

theorem guards_address (name : String) : Guards S (address name : Exec κ Int) := fun M =>
  Memory.guards_address (m := M.memory) name

theorem guards_read (a w : Int) : Guards S (read a w : Exec κ Int) := fun M => .refl S M.memory

theorem guards_load (i : Int) : Guards S (load i : Exec κ Int) := by
  refine guards_bind (fun M => .refl S M.memory) fun M => ?_
  split
  · exact guards_pure _
  · exact guards_throw _

theorem guards_operand (i : Instr) (n : Nat) : Guards S (operand i n : Exec κ Arg) := by
  unfold operand
  split
  · exact guards_pure _
  · exact guards_throw _

end Exec

end Simulator

end Octet
