import Octet.Proofs.Balance.Building
import Octet.Proofs.Cells.Table
import Octet.Proofs.Steps

/-!
# Building code

Code refers to memory by symbols: the variables of a program, its literals, the cells that serve as
registers, scratch cells, and symbols that are defined elsewhere. A computation starts from a
*vocabulary*, the symbols that are known then, and may extend it: a scratch cell is asked for before
code refers to it. What is known stays known, since the ledger only grows. Symbols that the ledger
will get later, such as the variables in memory, are promised from the start.

Code is made of instructions of the machine as long as operands are at locations that it can work
with: a location in a register is as wide as the register, and a byte of it is then in a byte
register, or in none. Since this depends on how operands are typed and symbols do not, it is asked
for on a condition `X`: where `X` fails, what is said here is about symbols alone.

What a computation returns is described in the vocabulary in which it ends: a location that is
known, or a reservation that keeps back code with known symbols. What it does to the ledger is said
even if it breaks off.

## Main definitions

* `Arch.admits` — instructions of a machine, and directives
* `Assembly.Arg.symbol?` — the symbol that an operand of an instruction refers to
* `Vocabulary` — symbols that are known
* `Draft.Within` — code under construction that refers to some symbols only and, if asked for, can
  be executed
* `Build.Brings`, `Build.Cites`, `Build.Keeps` — computations that build such code
* `Vocabulary.Has`, `Location.Known`, `Location.KnownByte`, `Reservation.Known` — variables,
  locations, reservations

## Main results

* `Build.Brings.bind` — composition
* `Build.keeps_emit`, `Build.keeps_emitAll` — emitting instructions
* `Location.Known.byte?` — the bytes of a location
* `Operand.Known.located` — where operands are
-/

namespace Octet

open Assembly

/-! ### Instructions and registers -/

/-- The machine has the instruction, or it is a directive of the assembler. -/
def Arch.admits (m : Arch) (i : Instr) : Bool := i.op.toList.head? == some '.' || m.executes i

theorem Arch.admits_of_executes {m : Arch} {i : Instr} (h : m.executes i = true) :
    m.admits i = true := by
  simp [admits, h]

theorem Arch.executes_mos {m : Arch} (hm : m ≠ .i8080) (i : Instr) :
    m.executes i = Mos.executes i :=
  of_mos hm rfl rfl

theorem takes_one (p : Arg → Bool) (a : Arg) : takes [p] [a] = p a := by simp [takes]

theorem takes_two (p q : Arg → Bool) (a b : Arg) : takes [p, q] [a, b] = (p a && q b) := by
  simp [takes]

namespace Arch

variable {m : Arch} {r u : Register}

theorem mem_registers_of_mem_bytes (h : r ∈ m.bytes) : r ∈ m.registers := by
  cases m <;> revert r <;> decide

theorem isCell_of_mem_bytes (h : r ∈ m.bytes) : r.isCell = false := by
  cases m <;> revert r <;> decide

/-- A register of the machine that is neither a pair nor a cell is one of its byte registers. -/
theorem mem_bytes_of_width (h : r ∈ m.registers) (hcell : r.isCell = false) (hwidth : r.width ≠ 2) :
    r ∈ m.bytes := by
  have hall : ∀ r ∈ m.registers, r.isCell = false → r.width ≠ 2 → r ∈ m.bytes := by
    cases m <;> decide
  exact hall r h hcell hwidth

theorem width_of_mem_bytes (h : r ∈ m.bytes) : r.width = 1 := by
  cases m <;> revert r <;> decide

theorem width_pos (h : r ∈ m.registers) : 0 < r.width := by
  cases m <;> revert r <;> decide

theorem mem_bytes_of_part? {i : Int} (h : r ∈ m.registers) (hpart : r.part? i = some u) :
    u ∈ m.bytes := by
  have hparts : ∀ r ∈ m.registers, ∀ u ∈ r.parts, u ∈ m.bytes := by cases m <;> decide
  have hmem : u ∈ r.parts := by
    unfold Register.part? at hpart
    split at hpart
    · cases hpart
      exact .head _
    · cases hpart
      exact .tail _ (.head _)
    · cases hpart
  exact hparts r h u hmem

theorem mem_bytes_accumulator (m : Arch) : m.accumulator ∈ m.bytes := by cases m <;> decide

theorem mem_registers_accumulator (m : Arch) : m.accumulator ∈ m.registers :=
  mem_registers_of_mem_bytes m.mem_bytes_accumulator

/-- The name of a byte register is an operand of the 8080. -/
theorem isReg_of_mem_bytes (h : r ∈ Arch.bytes .i8080) :
    Arg.isReg Intel.byteOperands (.reg r.name) = true := by
  revert r
  decide

/-- A pair is named by its upper half. -/
theorem isReg_pairArg (h : r ∈ Arch.registers .i8080) {a : Arg} (ha : Intel.pairArg r = .ok a) :
    a.isReg Intel.pairOperands = true := by
  have hpairs : ∀ r ∈ Arch.registers .i8080, ∀ h ∈ r.high?.toList,
      Arg.isReg Intel.pairOperands (.reg h.name) = true := by decide
  unfold Intel.pairArg at ha
  split at ha
  · rename_i u hu
    cases ha
    exact hpairs r h u (by simp [hu])
  · cases ha

end Arch

/-! ### Symbols of instructions -/

/-- The symbol that an operand of an instruction refers to. Where control goes is not a symbol of
memory. -/
def Assembly.Arg.symbol? : Arg → Option String
  | .symbol name _ _ => some name
  | .mem name _ => some name
  | .ind name _ => some name
  | _ => none

/-- The operand refers to one of some symbols, or to none. -/
def Assembly.Arg.Known (N : Set String) (a : Arg) : Prop := ∀ n ∈ a.symbol?, n ∈ N

/-- **An instruction that may be emitted**: it refers to some symbols only and, on the condition
`X`, is one of the machine. -/
structure Assembly.Instr.Known (m : Arch) (X : Prop) (N : Set String) (i : Instr) : Prop where
  args : ∀ a ∈ i.args, a.Known N
  admits : X → m.admits i = true

namespace Assembly.Arg

variable {N : Set String} {n : String} {o : Int}

@[simp] theorem known_imm {v : Int} : (imm v).Known N := by simp [Known, symbol?]

@[simp] theorem known_reg : (reg n).Known N := by simp [Known, symbol?]

@[simp] theorem known_label : (label n).Known N := by simp [Known, symbol?]

@[simp] theorem known_symbol {p : Part} : (symbol n o p).Known N ↔ n ∈ N := by simp [Known, symbol?]

@[simp] theorem known_mem : (mem n o).Known N ↔ n ∈ N := by simp [Known, symbol?]

@[simp] theorem known_ind {index : String} : (ind n index).Known N ↔ n ∈ N := by
  simp [Known, symbol?]

end Assembly.Arg

theorem Assembly.Arg.Known.mono {N N' : Set String} {a : Arg} (h : a.Known N) (hN : N ⊆ N') :
    a.Known N' :=
  fun n hn => hN (h n hn)

theorem Assembly.Instr.Known.mono {m : Arch} {X : Prop} {N N' : Set String} {i : Instr}
    (h : i.Known m X N) (hN : N ⊆ N') : i.Known m X N' :=
  ⟨fun a ha => (h.args a ha).mono hN, h.admits⟩

/-! ### Vocabularies -/

/-- **Symbols that are known at a site**, the cells that serve as registers and the functions `D`
that are defined among them, for code that can be executed if `X`. -/
structure Vocabulary (s : Site) (D : List String) (X : Prop) where
  names : Set String
  cells : ∀ r ∈ s.target.arch.cells, r.address ∈ names
  functions : ∀ n ∈ D, n ∈ names

namespace Vocabulary

variable {s : Site} {D : List String} {X : Prop} {K K' : Vocabulary s D X} {r : Register}

instance : Preorder (Vocabulary s D X) := .lift names

/-- The registers of the machine that are cells are known. -/
theorem mem_address (K : Vocabulary s D X) (hr : r ∈ s.target.arch.registers)
    (hcell : r.isCell = true) :
    r.address ∈ K.names := by
  have hcells : ∀ r ∈ s.target.arch.registers, r.isCell = true → r ∈ s.target.arch.cells := by
    cases s.target.arch <;> decide
  exact K.cells r (hcells r hr hcell)

/-- Apart from the 8080, whose pointers are pairs, pointers are cells. -/
theorem mem_address_pointer (K : Vocabulary s D X) (hm : s.target.arch ≠ .i8080)
    (hr : r ∈ s.target.arch.registers) (hpointer : r.isPointer = true) : r.address ∈ K.names := by
  have hcells : ∀ m : Arch, m ≠ .i8080 → ∀ r ∈ m.registers, r.isPointer = true →
      r.isCell = true := by
    intro m hm
    exact Arch.of_mos hm (by decide) (by decide)
  exact K.mem_address hr (hcells _ hm r hr hpointer)

end Vocabulary

/-! ### Code under construction -/

/-- The code that a reservation keeps back may be emitted. -/
def Reservation.Within (m : Arch) (X : Prop) (N : Set String) (res : Reservation) : Prop :=
  ∀ i ∈ res.restore.getD [], i.Known m X N

theorem Reservation.Within.mono {m : Arch} {X : Prop} {N N' : Set String} {res : Reservation}
    (h : res.Within m X N) (hN : N ⊆ N') : res.Within m X N' :=
  fun i hi => (h i hi).mono hN

/-- **Code under construction that refers to some symbols only** and can be executed if `X`. Only
pointers of the machine count as displaced. -/
structure Draft.Within (m : Arch) (X : Prop) (N : Set String) (d : Draft) : Prop where
  lines : ∀ i, Line.instr i ∈ d.lines → i.Known m X N
  reserved : ∀ res ∈ d.reserved, res.Within m X N
  offsets : ∀ e ∈ d.offsets, e.1 ∈ m.registers ∧ e.1.isPointer = true

namespace Draft

variable {m : Arch} {X : Prop} {N N' : Set String} {d d' : Draft}

theorem within_start (known : Constants) (flags : FlagState) : (start known flags).Within m X N :=
  ⟨by simp [start], by simp [start], by simp [start]⟩

theorem Within.mono (h : d.Within m X N) (hN : N ⊆ N') : d.Within m X N' :=
  ⟨fun i hi => (h.lines i hi).mono hN, fun res hres => (h.reserved res hres).mono hN, h.offsets⟩

/-- A change of what is tracked. -/
theorem Within.of_eq (h : d.Within m X N) (hlines : d'.lines = d.lines)
    (hreserved : d'.reserved = d.reserved) (hoffsets : d'.offsets = d.offsets) : d'.Within m X N :=
  ⟨hlines ▸ h.lines, hreserved ▸ h.reserved, hoffsets ▸ h.offsets⟩

theorem Within.append_instr {i : Instr} (h : d.Within m X N) (hi : i.Known m X N) :
    (d.append (.instr i)).Within m X N := by
  refine ⟨fun j hj => ?_, h.reserved, h.offsets⟩
  rcases List.mem_append.mp hj with hj | hj
  · exact h.lines j hj
  · obtain rfl : j = i := by simpa using hj
    exact hi

theorem Within.append_label {name : String} (h : d.Within m X N) :
    (d.append (.label name)).Within m X N :=
  ⟨fun i hi => h.lines i (by simpa [append] using hi), h.reserved, h.offsets⟩

theorem offsets_apply (d : Draft) (e : Effect) : (d.apply e).offsets = d.offsets := by
  have hwrites : (e.writes.foldl write d).offsets = d.offsets := by
    induction e.writes generalizing d with
    | nil => rfl
    | cons r rs ih => exact (ih (d.write r)).trans (by cases r <;> rfl)
  unfold apply
  dsimp only
  split
  · exact hwrites
  · split
    · exact hwrites
    · exact hwrites

theorem Within.apply (h : d.Within m X N) (e : Effect) : (d.apply e).Within m X N :=
  h.of_eq (Build.apply_lines_reserved d e).1 (Build.apply_lines_reserved d e).2 (offsets_apply d e)

theorem Within.filter_offsets (h : d.Within m X N) (keep : Register × Displacement → Bool) :
    { d with offsets := d.offsets.filter keep }.Within m X N :=
  ⟨h.lines, h.reserved, fun e he => h.offsets e (List.mem_of_mem_filter he)⟩

end Draft

/-- A reservation that keeps back code with known symbols. -/
def Reservation.Known {s : Site} {D : List String} {X : Prop} (K : Vocabulary s D X)
    (res : Reservation) : Prop :=
  res.Within s.target.arch X K.names

theorem Reservation.Known.mono {s : Site} {D : List String} {X : Prop} {K K' : Vocabulary s D X}
    {res : Reservation} (h : res.Known K) (hle : K ≤ K') : res.Known K' :=
  Within.mono h hle

namespace Build

variable {α β : Type} {s : Site} {D : List String} {X : Prop} {K K' : Vocabulary s D X}
  {b : Build α} {f : α → Build β}
  {Q : α → Vocabulary s D X → Prop} {Q' : β → Vocabulary s D X → Prop} {P : α → Prop}

/-- **A computation that refers to known symbols only**, whatever the symbols `G` are that the
ledger will get later. What it returns satisfies `Q` in the vocabulary that is known then. -/
def Brings (K : Vocabulary s D X) (b : Build α) (Q : α → Vocabulary s D X → Prop) : Prop :=
  ∀ (G : Set String) (w : Work), w.ledger.defined = D → K.names ⊆ G ∪ w.ledger.names →
    w.draft.Within s.target.arch X (G ∪ w.ledger.names) → ∀ r w', s.run b w = (r, w') →
      w.ledger.Grows s.target.arch w'.ledger ∧ ∀ a, r = .ok a →
        w'.draft.Within s.target.arch X (G ∪ w'.ledger.names) ∧
          ∃ K', K ≤ K' ∧ K'.names ⊆ G ∪ w'.ledger.names ∧ Q a K'

/-- A computation that refers to known symbols only, and returns something that satisfies `P`. -/
def Cites (K : Vocabulary s D X) (b : Build α) (P : α → Prop) : Prop := Brings K b fun a _ => P a

/-- A computation that refers to known symbols only. -/
def Keeps (K : Vocabulary s D X) (b : Build α) : Prop := Cites K b fun _ => True

/-! ### Composition -/

/-- **Composition.** The second computation starts with what is known after the first one. -/
theorem Brings.bind (hb : Brings K b Q) (hf : ∀ a K', K ≤ K' → Q a K' → Brings K' (f a) Q') :
    Brings K (b >>= f) Q' := by
  intro G w hD hK hw r w'' hrun
  rcases run_bind_cases s b f w with ⟨a, w', hb', hbind⟩ | ⟨e, w', hb', hbind⟩
  · obtain ⟨hgrows, hok⟩ := hb G w hD hK hw _ w' hb'
    obtain ⟨hwithin, K', hle, hK', hQ⟩ := hok a rfl
    obtain ⟨hgrows', hok'⟩ :=
      hf a K' hle hQ G w' (hgrows.defined.trans hD) hK' hwithin r w'' (hbind ▸ hrun)
    refine ⟨hgrows.trans hgrows', fun c hc => ?_⟩
    obtain ⟨hwithin', K'', hle', hK'', hQ'⟩ := hok' c hc
    exact ⟨hwithin', K'', hle.trans hle', hK'', hQ'⟩
  · obtain ⟨rfl, rfl⟩ := Prod.mk.inj (hbind.symm.trans hrun)
    exact ⟨(hb G w hD hK hw _ _ hb').1, by rintro _ ⟨⟩⟩

theorem Cites.bind (hb : Cites K b P) (hf : ∀ a, P a → Brings K (f a) Q') :
    Brings K (b >>= f) Q' := by
  intro G w hD hK hw r w'' hrun
  rcases run_bind_cases s b f w with ⟨a, w', hb', hbind⟩ | ⟨e, w', hb', hbind⟩
  · obtain ⟨hgrows, hok⟩ := hb G w hD hK hw _ w' hb'
    obtain ⟨hwithin, K', hle, hK', hP⟩ := hok a rfl
    have hD' := hgrows.defined.trans hD
    obtain ⟨hgrows', hok'⟩ :=
      hf a hP G w' hD' (Set.Subset.trans hle hK') hwithin r w'' (hbind ▸ hrun)
    exact ⟨hgrows.trans hgrows', hok'⟩
  · obtain ⟨rfl, rfl⟩ := Prod.mk.inj (hbind.symm.trans hrun)
    exact ⟨(hb G w hD hK hw _ _ hb').1, by rintro _ ⟨⟩⟩

theorem Keeps.bind (hb : Keeps K b) (hf : ∀ a, Brings K (f a) Q') : Brings K (b >>= f) Q' :=
  Cites.bind hb fun a _ => hf a

theorem Brings.mono {R : α → Vocabulary s D X → Prop} (h : Brings K b Q)
    (hQR : ∀ a K', K ≤ K' → Q a K' → R a K') :
    Brings K b R := by
  intro G w hD hK hw r w' hrun
  obtain ⟨hgrows, hok⟩ := h G w hD hK hw r w' hrun
  refine ⟨hgrows, fun a ha => ?_⟩
  obtain ⟨hwithin, K', hle, hK', hQ⟩ := hok a ha
  exact ⟨hwithin, K', hle, hK', hQR a K' hle hQ⟩

/-- What holds in the vocabulary at the start holds in the one at the end, which may be the same. -/
theorem Cites.brings (h : Cites K b fun a => Q a K) : Brings K b Q := by
  intro G w hD hK hw r w' hrun
  obtain ⟨hgrows, hok⟩ := h G w hD hK hw r w' hrun
  refine ⟨hgrows, fun a ha => ?_⟩
  obtain ⟨hwithin, K', hle, hK', hQ⟩ := hok a ha
  exact ⟨hwithin, K, le_refl K, Set.Subset.trans hle hK', hQ⟩

theorem Brings.pure {a : α} (h : Q a K) : Brings K (Pure.pure a) Q := by
  rintro G w - hK hw _ _ ⟨⟩
  refine ⟨.refl _ _, ?_⟩
  rintro _ ⟨⟩
  exact ⟨hw, K, le_refl K, hK, h⟩

theorem Keeps.pure (a : α) : Keeps K (Pure.pure a) := Brings.pure trivial

theorem Brings.throw (e : Fault) : Brings K (throw e : Build α) Q := by
  rintro G w - - - _ _ ⟨⟩
  exact ⟨.refl _ _, by rintro _ ⟨⟩⟩

theorem Brings.ite {c : Prop} [Decidable c] {b' : Build α} (hb : Brings K b Q)
    (hb' : Brings K b' Q) :
    Brings K (if c then b else b') Q := by
  split
  · exact hb
  · exact hb'

/-- Computing a value in one of two ways before going on. -/
theorem Brings.ite_bind {c : Prop} [Decidable c] {b' : Build α} (hb : Brings K b Q)
    (hb' : Brings K b' Q)
    (hf : ∀ a K', K ≤ K' → Q a K' → Brings K' (f a) Q') :
    Brings K (if c then b >>= f else b' >>= f) Q' :=
  .ite (hb.bind hf) (hb'.bind hf)

/-- Doing something on a condition before going on. -/
theorem Brings.when {c : Prop} [Decidable c] {b : Build Unit} {f : Unit → Build β} (hb : Keeps K b)
    (hf : Brings K (f ()) Q') : Brings K (if c then b >>= f else f ()) Q' :=
  .ite (hb.bind fun _ => hf) hf

theorem Brings.unless {c : Prop} [Decidable c] {b : Build Unit} {f : Unit → Build β}
    (hb : Keeps K b) (hf : Brings K (f ()) Q') : Brings K (if c then f () else b >>= f) Q' :=
  .ite hf (hb.bind fun _ => hf)

theorem Brings.map {g : α → β} (hb : Brings K b fun a K' => Q' (g a) K') :
    Brings K (g <$> b) Q' := by
  rw [← bind_pure_comp]
  exact hb.bind fun a K' _ ha => .pure ha

theorem Keeps.discard (hb : Keeps K b) : Keeps K (discard b) := Brings.map hb

theorem Keeps.returns {x : β} (hb : Keeps K b) : Keeps K (b >>= fun _ => Pure.pure x) :=
  hb.bind fun _ => .pure trivial

theorem Keeps.forM {xs : List β} {f : β → Build PUnit} (h : ∀ x ∈ xs, Keeps K (f x)) :
    Keeps K (xs.forM f) := by
  induction xs with
  | nil => exact .pure ()
  | cons x xs ih => exact (h x (.head _)).bind fun _ => ih fun y hy => h y (.tail _ hy)

/-- A computation that only looks at the work, in the vocabulary of all symbols that are known
then. -/
theorem Brings.looks {g : Work → α} (hrun : ∀ w, s.run b w = (.ok (g w), w))
    (h : ∀ w K', K ≤ K' → w.draft.Within s.target.arch X K'.names → Brings K' (f (g w)) Q') :
    Brings K (b >>= f) Q' := by
  intro G w hD hK hw r w' hbind
  rw [Site.run_bind (hrun w)] at hbind
  let K' : Vocabulary s D X :=
    ⟨G ∪ w.ledger.names, fun q hq => hK (K.cells q hq), fun n hn => hK (K.functions n hn)⟩
  obtain ⟨hgrows, hok⟩ := h w K' hK hw G w hD subset_rfl hw r w' hbind
  refine ⟨hgrows, fun c hc => ?_⟩
  obtain ⟨hwithin, K'', hle, hK''⟩ := hok c hc
  exact ⟨hwithin, K'', le_trans (show K ≤ K' from hK) hle, hK''⟩

/-- A computation that only looks at the work. -/
theorem Brings.observes {g : Work → α} (hrun : ∀ w, s.run b w = (.ok (g w), w))
    (h : ∀ w, w.ledger.defined = D →
      (∀ e ∈ w.draft.offsets, e.1 ∈ s.target.arch.registers ∧ e.1.isPointer = true) →
        Brings K (f (g w)) Q') :
    Brings K (b >>= f) Q' := by
  intro G w hD hK hw r w' hbind
  rw [Site.run_bind (hrun w)] at hbind
  exact h w hD hw.offsets G w hD hK hw r w' hbind

theorem Brings.read {f : Site → Build β} (h : Brings K (f s) Q') :
    Brings K (MonadReader.read >>= f) Q' :=
  .observes (fun _ => rfl) fun _ _ _ => h

theorem Brings.arch {f : Arch → Build β} (h : Brings K (f s.target.arch) Q') :
    Brings K (Build.arch >>= f) Q' :=
  .observes (fun _ => rfl) fun _ _ _ => h

theorem Brings.accumulator {f : Register → Build β}
    (h : Brings K (f s.target.arch.accumulator) Q') :
    Brings K (Build.accumulator >>= f) Q' :=
  .observes (fun _ => rfl) fun _ _ _ => h

theorem Brings.draft {f : Draft → Build β} (h : ∀ d, Brings K (f d) Q') :
    Brings K (Build.draft >>= f) Q' :=
  .observes (fun _ => rfl) fun w _ _ => h w.draft

theorem keeps_of_observes {g : Work → α} (hrun : ∀ w, s.run b w = (.ok (g w), w)) : Keeps K b := by
  intro G w _ hK hw r w' h
  rw [hrun] at h
  cases h
  exact ⟨.refl _ _, fun _ _ => ⟨hw, K, le_refl K, hK, trivial⟩⟩

/-! ### What is tracked -/

theorem keeps_modifyDraft {g : Draft → Draft}
    (h : ∀ N d, K.names ⊆ N → d.Within s.target.arch X N → (g d).Within s.target.arch X N) :
    Keeps K (modifyDraft g) := by
  rintro G w - hK hw _ _ ⟨⟩
  exact ⟨.refl _ _, fun _ _ => ⟨h _ _ hK hw, K, le_refl K, hK, trivial⟩⟩

/-- A change that concerns neither lines nor reservations nor displaced pointers. -/
theorem keeps_track {g : Draft → Draft} (hlines : ∀ d, (g d).lines = d.lines)
    (hreserved : ∀ d, (g d).reserved = d.reserved) (hoffsets : ∀ d, (g d).offsets = d.offsets) :
    Keeps K (modifyDraft g) :=
  keeps_modifyDraft fun _ d _ hd => hd.of_eq (hlines d) (hreserved d) (hoffsets d)

/-- **Entering a symbol into the ledger.** It is known from then on. -/
theorem brings_modifyLedger {g : Ledger → Ledger} {n : String}
    (hgrows : ∀ l, Ledger.Grows s.target.arch l (g l))
    (hmem : ∀ l, n ∈ (g l).names) : Brings K (modifyLedger g) fun _ K' => n ∈ K'.names := by
  rintro G w - hK hw _ _ ⟨⟩
  have hsubset : G ∪ w.ledger.names ⊆ G ∪ (g w.ledger).names :=
    Set.union_subset_union_right G (hgrows _).subset
  refine ⟨hgrows _, fun _ _ => ⟨hw.mono hsubset, ⟨_, fun q hq => hsubset (hK (K.cells q hq)),
    fun n hn => hsubset (hK (K.functions n hn))⟩, ?_, subset_rfl, ?_⟩⟩
  · exact Set.Subset.trans hK hsubset
  · exact .inr (hmem _)

theorem cites_present {x : Option α} (h : ∀ a, x = some a → P a) : Cites K (present x) P := by
  cases x with
  | none => exact Brings.throw _
  | some a => exact Brings.pure (h a rfl)

theorem cites_ofExcept {x : Except Fault α} (h : ∀ a, x = .ok a → P a) :
    Cites K (ofExcept x) P := by
  cases x with
  | error e => exact Brings.throw e
  | ok a => exact Brings.pure (h a rfl)

theorem keeps_present {x : Option α} : Keeps K (present x) := cites_present fun _ _ => trivial

theorem cites_nameOf (r : Option Register) : Cites K (nameOf r) fun name => ∃ q, r = some q ∧
    name = q.name :=
  Cites.bind (cites_present (P := fun q => r = some q) fun _ h => h) fun q hq => .pure ⟨q, hq, rfl⟩

theorem keeps_known? (r : Option Register) : Keeps K (known? r) := keeps_of_observes fun _ => rfl

theorem keeps_inUse (r : Register) : Keeps K (inUse r) := keeps_of_observes fun _ => rfl

theorem keeps_flagsShow {l : Location} : Keeps K (flagsShow l) := keeps_of_observes fun _ => rfl

theorem keeps_setKnown (r : Register) (v : Int) : Keeps K (setKnown r v) :=
  Brings.ite (.pure trivial) (keeps_track (fun _ => rfl) (fun _ => rfl) fun _ => rfl)

theorem keeps_flagsAlso {l : Location} : Keeps K (flagsAlso l) := by
  refine keeps_track (fun d => ?_) (fun d => ?_) fun d => ?_
  all_goals
    dsimp only
    split <;> rfl

theorem keeps_flagsFrom {l : Location} : Keeps K (flagsFrom l) :=
  keeps_track (fun _ => rfl) (fun _ => rfl) fun _ => rfl

theorem keeps_forget {l : Location} : Keeps K (forget l) :=
  keeps_modifyDraft fun _ _ _ hd => hd.filter_offsets _

theorem keeps_written {l : Location} : Keeps K (written l) :=
  keeps_forget.bind fun _ => keeps_track (fun _ => rfl) (fun _ => rfl) fun _ => rfl

theorem keeps_freshLabel : Keeps K freshLabel := by
  rintro G w - hK hw _ _ ⟨⟩
  exact ⟨.of_cells_eq rfl (fun _ hn => hn) rfl, fun _ _ => ⟨hw, K, le_refl K, hK, trivial⟩⟩

theorem keeps_label {name : String} : Keeps K (label name) :=
  keeps_modifyDraft fun _ _ _ hd => hd.append_label.of_eq rfl rfl rfl

theorem brings_scratchCell {n : String} (h : Ledger.IsScratch n) :
    Brings K (scratchCell n) fun _ K' => n ∈ K'.names :=
  .arch (brings_modifyLedger (Ledger.grows_reserve h) fun l => l.mem_names_reserve n _ _)

/-! ### Instructions -/

theorem keeps_emitInstr {i : Instr} (h : i.Known s.target.arch X K.names) :
    Keeps K (emitInstr i) := by
  refine (keeps_modifyDraft fun N d hN hd => hd.append_instr (h.mono hN)).bind fun _ => .arch ?_
  split
  · exact keeps_modifyDraft fun N d _ hd => hd.apply _
  · exact .throw _

/-- **Emitting an instruction** with known symbols, one of the machine. -/
theorem keeps_emit {op : String} {args : List Arg} (h : ∀ a ∈ args, a.Known K.names)
    (hx : X → s.target.arch.executes ⟨op, args⟩ = true) : Keeps K (emit op args) :=
  keeps_emitInstr ⟨h, fun x => Arch.admits_of_executes (hx x)⟩

theorem keeps_emitIntel (hm : s.target.arch = .i8080) {op : String} {args : List Arg}
    (h : ∀ a ∈ args, a.Known K.names) (hx : X → Intel.executes ⟨op, args⟩ = true) :
    Keeps K (emit op args) :=
  keeps_emit h fun x => by rw [hm]; exact hx x

theorem keeps_emitMos (hm : s.target.arch ≠ .i8080) {op : String} {args : List Arg}
    (h : ∀ a ∈ args, a.Known K.names) (hx : X → Mos.executes ⟨op, args⟩ = true) :
    Keeps K (emit op args) :=
  keeps_emit h fun x => by rw [Arch.executes_mos hm]; exact hx x

theorem keeps_emitAll {is : List Instr} (h : ∀ i ∈ is, i.Known s.target.arch X K.names) :
    Keeps K (emitAll is) :=
  .forM fun i hi => keeps_emitInstr (h i hi)

/-- Code of the 8080 that can be looked through. -/
theorem keeps_emitAllIntel (hm : s.target.arch = .i8080) {is : List Instr}
    (h : ∀ i ∈ is, ∀ a ∈ i.args, a.Known K.names) (hx : is.all Intel.executes = true) :
    Keeps K (emitAll is) := by
  refine keeps_emitAll fun i hi => ⟨h i hi, fun _ => Arch.admits_of_executes ?_⟩
  rw [hm]
  exact List.all_eq_true.mp hx i hi

/-- Code of the 6502 family that can be looked through. -/
theorem keeps_emitAllMos (hm : s.target.arch ≠ .i8080) {is : List Instr}
    (h : ∀ i ∈ is, ∀ a ∈ i.args, a.Known K.names) (hx : is.all (Arch.admits .mos6502) = true) :
    Keeps K (emitAll is) := by
  refine keeps_emitAll fun i hi => ⟨h i hi, fun _ => ?_⟩
  have hi := List.all_eq_true.mp hx i hi
  unfold Arch.admits at hi ⊢
  rwa [Arch.executes_mos hm]

theorem keeps_call {name : String} : Keeps K (call name) := by
  refine (brings_modifyLedger (fun l => l.grows_reference name) fun l =>
    l.mem_names_reference name).bind
    fun _ _ _ _ => .arch (keeps_emit (by simp) fun _ => ?_)
  cases s.target.arch <;> rfl

end Build

/-! ### Locations -/

section

variable {s : Site} {D : List String} {X : Prop}

/-- The variable has a register of the machine, as wide as it is if `X`, or its symbol is known. -/
structure Vocabulary.Has (K : Vocabulary s D X) (v : Variable) : Prop where
  register : ∀ r, s.registers.get v = some r → r ∈ s.target.arch.registers ∧
    (X → r.width = v.type.byteCount)
  memory : s.registers.get v = none → v.label ∈ K.names

theorem Vocabulary.Has.mono {K K' : Vocabulary s D X} {v : Variable} (h : K.Has v) (hle : K ≤ K') :
    K'.Has v :=
  ⟨h.register, fun hv => hle (h.memory hv)⟩

/-- A register of the machine, one of a byte if `X`. -/
def Site.Serves (s : Site) (X : Prop) (r : Register) : Prop :=
  r ∈ s.target.arch.registers ∧ (X → r ∈ s.target.arch.bytes)

theorem Site.serves_of_mem_bytes {r : Register} (h : r ∈ s.target.arch.bytes) : s.Serves X r :=
  ⟨Arch.mem_registers_of_mem_bytes h, fun _ => h⟩

/-- A location whose symbol or whose pointer, if it has one, is known. -/
structure Location.Named (K : Vocabulary s D X) (l : Location) : Prop where
  symbol : ∀ n o p, l.place = .symbol n o p → n ∈ K.names
  memory : ∀ n o home, l.place = .memory n o home → n ∈ K.names
  pointer : ∀ v base o, l.place = .indirect v base o → base = s.registers.get v ∧ K.Has v

/-- **A known location**: if it is in a register, this is one of the machine, and as wide as the
location if `X`. -/
structure Location.Known (K : Vocabulary s D X) (l : Location) : Prop extends l.Named K where
  register : ∀ r, l.place = .register (some r) →
    r ∈ s.target.arch.registers ∧ (X → r.isCell = false ∧ r.width = l.width)

/-- A known location of a byte: if it is in a register, this serves for a byte. -/
structure Location.KnownByte (K : Vocabulary s D X) (l : Location) : Prop extends l.Named K where
  register : ∀ r, l.place = .register (some r) → s.Serves X r

end

namespace Location

variable {s : Site} {D : List String} {X : Prop} {K K' : Vocabulary s D X} {l b : Location}
  {n : String} {o w : Int}

theorem Named.mono (h : l.Named K) (hle : K ≤ K') : l.Named K' where
  symbol n o p hl := hle (h.symbol n o p hl)
  memory n o home hl := hle (h.memory n o home hl)
  pointer v base o hl := ⟨(h.pointer v base o hl).1, (h.pointer v base o hl).2.mono hle⟩

theorem Known.mono (h : l.Known K) (hle : K ≤ K') : l.Known K' := ⟨h.toNamed.mono hle, h.register⟩

theorem KnownByte.mono (h : l.KnownByte K) (hle : K ≤ K') : l.KnownByte K' :=
  ⟨h.toNamed.mono hle, h.register⟩

/-- **A location that is no word** is in a byte register, if it is in one. -/
theorem Known.knownByte (h : l.Known K) (hwidth : X → l.width ≠ 2) : l.KnownByte K := by
  refine ⟨h.toNamed, fun r hr => ?_⟩
  obtain ⟨hmem, hfits⟩ := h.register r hr
  exact ⟨hmem, fun x => Arch.mem_bytes_of_width hmem (hfits x).1 ((hfits x).2 ▸ hwidth x)⟩

/-- Constants, addresses and memory at a symbol. -/
theorem Named.known (h : l.Named K) (hr : ∀ r, l.place ≠ .register (some r)) :
    l.Known K ∧ l.KnownByte K :=
  ⟨⟨h, fun r hl => absurd hl (hr r)⟩, ⟨h, fun r hl => absurd hl (hr r)⟩⟩

theorem known_of_immediate {v : Int} (h : l.place = .immediate v) : l.Known K ∧ l.KnownByte K :=
  Named.known ⟨by simp [h], by simp [h], by simp [h]⟩ (by simp [h])

theorem known_of_symbol {p : Part} (h : l.place = .symbol n o p) (hn : n ∈ K.names) :
    l.Known K ∧ l.KnownByte K :=
  Named.known ⟨by simp [h, hn], by simp [h], by simp [h]⟩ (by simp [h])

theorem known_of_memory {home : Option Register} (h : l.place = .memory n o home)
    (hn : n ∈ K.names) :
    l.Known K ∧ l.KnownByte K :=
  Named.known ⟨by simp [h], by simp [h, hn], by simp [h]⟩ (by simp [h])

theorem known_of_indirect {v : Variable} (h : l.place = .indirect v (s.registers.get v) o)
    (hv : K.Has v) :
    l.Known K ∧ l.KnownByte K :=
  Named.known ⟨by simp [h], by simp [h], by simp_all⟩ (by simp [h])

theorem known_of_register {r : Option Register} (h : l.place = .register r)
    (hr : ∀ q, r = some q → q ∈ s.target.arch.registers ∧
      (X → q.isCell = false ∧ q.width = l.width)) :
    l.Known K :=
  ⟨⟨by simp [h], by simp [h], by simp [h]⟩, fun q hq => hr q (Place.register.inj (h.symm.trans hq))⟩

theorem known_immediate (v : Int) : (immediate v w).Known K := (known_of_immediate rfl).1

theorem knownByte_immediate (v : Int) : (immediate v w).KnownByte K := (known_of_immediate rfl).2

theorem known_memory (hn : n ∈ K.names) : (memory n o w).Known K := (known_of_memory rfl hn).1

theorem knownByte_memory (hn : n ∈ K.names) : (memory n o w).KnownByte K :=
  (known_of_memory rfl hn).2

theorem known_ofRegister {r : Register} (h : r ∈ s.target.arch.registers) :
    (ofRegister r).Known K := by
  unfold ofRegister
  split
  · rename_i hcell
    exact (known_of_memory rfl (K.mem_address h hcell)).1
  · rename_i hcell
    refine known_of_register rfl ?_
    rintro _ ⟨⟩
    exact ⟨h, fun _ => ⟨by simpa using hcell, rfl⟩⟩

theorem knownByte_ofRegister {r : Register} (h : s.Serves X r) : (ofRegister r).KnownByte K := by
  unfold ofRegister
  split
  · rename_i hcell
    exact (known_of_memory rfl (K.mem_address h.1 hcell)).2
  · refine ⟨⟨by simp, by simp, by simp⟩, ?_⟩
    rintro _ ⟨⟩
    exact h

/-- **A byte of a known location** is known, and in a byte register, if it is in one. -/
theorem Known.byte? (h : l.Known K) {i : Int} (hb : l.byte? i = some b) :
    b.Known K ∧ b.KnownByte K := by
  suffices hbyte : b.Known K ∧
    b.width = 1 from ⟨hbyte.1, hbyte.1.knownByte fun _ => by rw [hbyte.2]; decide⟩
  unfold Location.byte? at hb
  split at hb
  · rename_i hwidth
    cases hb
    split
    · exact ⟨h, by simpa using hwidth⟩
    · exact ⟨known_immediate 0, rfl⟩
  · dsimp only at hb
    split at hb
    · cases hb
      exact ⟨(Named.known ⟨by simp, by simp, by simp⟩ (by simp)).1, rfl⟩
    · obtain ⟨bits, -, hb⟩ := Option.bind_eq_some_iff.mp hb
      cases hb
      exact ⟨(known_of_immediate rfl).1, rfl⟩
    · rename_i n o p hl
      cases hb
      exact ⟨(known_of_symbol rfl (h.symbol n o p hl)).1, rfl⟩
    · rename_i r hl
      cases hb
      refine ⟨known_of_register rfl fun q hq => ?_, rfl⟩
      have hbytes := Arch.mem_bytes_of_part? (h.register r hl).1 hq
      exact ⟨Arch.mem_registers_of_mem_bytes hbytes,
        fun _ => ⟨Arch.isCell_of_mem_bytes hbytes, Arch.width_of_mem_bytes hbytes⟩⟩
    · cases hb
    · rename_i n o home hl
      cases hb
      exact ⟨(known_of_memory rfl (h.memory n o home hl)).1, rfl⟩
    · rename_i v base o hl
      cases hb
      obtain ⟨rfl, hv⟩ := h.pointer v base o hl
      exact ⟨(known_of_indirect rfl hv).1, rfl⟩

/-- A known location as an operand. -/
theorem Named.arg {a : Arg} (h : l.Named K) (ha : l.arg = .ok a) : a.Known K.names := by
  unfold Location.arg at ha
  split at ha
  · cases ha
    exact Arg.known_imm
  · rename_i n o p hl
    cases ha
    exact Arg.known_symbol.mpr (h.symbol n o p hl)
  · rename_i n o home hl
    cases ha
    exact Arg.known_mem.mpr (h.memory n o home hl)
  · cases ha
    exact Arg.known_reg
  all_goals cases ha

end Location

/-- The symbol whose address an operand is. -/
def Operand.address? : Operand → Option String
  | .address name _ _ => some name
  | .string name _ => some name
  | .addressByte name _ _ => some name
  | _ => none

/-- The operand has the type of its variable, or is a byte of it. -/
def Operand.isOwn : Operand → Bool
  | .var v _ t => t.byteCount == v.type.byteCount || t.byteCount == 1
  | _ => true

/-- The variable of an operand and the symbol whose address it is are known; its type is its own if
`X`. -/
structure Operand.Known {s : Site} {D : List String} {X : Prop} (K : Vocabulary s D X)
    (o : Operand) : Prop where
  mentioned : ∀ v ∈ o.mentioned?, K.Has v
  address : ∀ n ∈ o.address?, n ∈ K.names
  own : X → o.isOwn = true

namespace Operand

variable {s : Site} {D : List String} {X : Prop} {K K' : Vocabulary s D X} {o : Operand}

theorem Known.mono (h : o.Known K) (hle : K ≤ K') : o.Known K' :=
  ⟨fun v hv => (h.mentioned v hv).mono hle, fun n hn => hle (h.address n hn), h.own⟩

/-- **Where an operand is**, if its variable and its symbol are known. -/
theorem Known.located (h : o.Known K) : (o.located s.registers).Known K := by
  cases o with
  | int t v => exact (Location.known_of_immediate rfl).1
  | address n o t => exact (Location.known_of_symbol rfl (h.address n rfl)).1
  | string n v => exact (Location.known_of_symbol rfl (h.address n rfl)).1
  | addressByte n o part => exact (Location.known_of_symbol rfl (h.address n rfl)).1
  | deref p o t => exact (Location.known_of_indirect rfl (h.mentioned p rfl)).1
  | var v o t =>
    have hv : K.Has v := h.mentioned v rfl
    simp only [Operand.located]
    split
    · rename_i hnone
      exact (Location.known_of_memory rfl (hv.memory hnone)).1
    · rename_i r hr
      obtain ⟨hmem, hwidth⟩ := hv.register r hr
      split
      · rename_i hcell
        exact (Location.known_of_memory rfl (K.mem_address hmem hcell)).1
      · rename_i hcell
        refine Location.known_of_register rfl fun q hq => ?_
        -- a part of the register if the operand is narrower, and then it is a byte
        split at hq
        · rename_i hlt
          have hbytes := Arch.mem_bytes_of_part? hmem hq
          refine ⟨Arch.mem_registers_of_mem_bytes hbytes, fun x =>
            ⟨Arch.isCell_of_mem_bytes hbytes, ?_⟩⟩
          have hwidth := hwidth x
          have ho := h.own x
          rw [Arch.width_of_mem_bytes hbytes]
          simp only [isOwn, Bool.or_eq_true, beq_iff_eq] at ho
          simp only [type] at hlt ⊢
          omega
        · rename_i hge
          cases hq
          refine ⟨hmem, fun x => ⟨by simpa using hcell, ?_⟩⟩
          have hpos := Arch.width_pos hmem
          have hwidth := hwidth x
          have ho := h.own x
          simp only [isOwn, Bool.or_eq_true, beq_iff_eq] at ho
          simp only [type] at hge ⊢
          omega

end Operand

namespace Build

variable {s : Site} {D : List String} {X : Prop} {K : Vocabulary s D X} {l : Location}

theorem serves_accumulator : ∀ q ∈ some s.target.arch.accumulator, s.Serves X q := by
  rintro _ ⟨⟩
  exact Site.serves_of_mem_bytes (Arch.mem_bytes_accumulator _)

theorem cites_byteOf (h : l.Known K) {i : Int} : Cites K (byteOf l i) fun b => b.Known K ∧
    b.KnownByte K :=
  cites_present fun _ hb => h.byte? hb

/-- A constant, an address or memory at a symbol, as an operand. -/
theorem cites_argOf (h : l.Named K) : Cites K (argOf l) fun a => a.Known K.names ∧ l.arg = .ok a :=
  cites_ofExcept fun _ ha => ⟨h.arg ha, ha⟩

/-- **A scratch location** is asked for before it is used. -/
theorem brings_temporary {width : Int} :
    Brings K (temporary width) fun t K' => t.Known K' ∧ t.KnownByte K' ∧ t.isMemory = true := by
  refine .draft fun d => (brings_scratchCell (.inl ⟨d.temporaries, rfl⟩)).bind fun _ K' _ hn => ?_
  refine Keeps.bind (keeps_track (fun _ => rfl) (fun _ => rfl) fun _ => rfl) fun _ => .pure ?_
  exact ⟨Location.known_memory hn, Location.knownByte_memory hn, rfl⟩

end Build

end Octet
