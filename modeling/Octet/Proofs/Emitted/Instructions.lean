import Octet.Proofs.Emitted.Comparisons

/-!
# Instructions

Parameters and results travel in registers of the machine, so that each transfer of a call or a
prologue is a move between known locations. A parameter that travels in memory is passed at its
slot. The slot of a function that is defined is one of its variables; that of any other function is
entered into the ledger when an argument is stored there. The other symbols of an instruction are
those of its operands.

An operation on bytes takes one of its operands as it is, and if that operand is a variable that is
a word, its register is a pair. No instruction for bytes has a pair as its operand. `Inst.handed`
lists the locations that an instruction takes in this way.

## Main definitions

* `Vocabulary.HasSlots` — a signature whose slots are known
* `Inst.handed` — the locations that an instruction for bytes takes as they are
* `Inst.Known` — an instruction whose operands and slots are known

## Main results

* `Arch.mem_registers_of_mem_arrivals` — parameters arrive in registers of the machine
* `Build.keeps_subroutine`, `Build.keeps_prologue`, `Build.keeps_returnValue` — calls and returns
* `Build.keeps_instruction` — instructions
-/

namespace Octet

open Assembly

/-! ### The calling convention -/

namespace Arch

variable {m : Arch} {r : Register}

theorem mem_registers_of_mem_arrivalsAfter {used : RegisterSet} {ts : List Ty}
    (h : some r ∈ m.arrivalsAfter used ts) :
    r ∈ m.registers := by
  have hparameters : ∀ (word : Bool), ∀ r ∈ if word then m.wordParameters else m.byteParameters,
      r ∈ m.registers := by
    cases m <;> decide
  induction ts generalizing used with
  | nil => cases h
  | cons t ts ih =>
    unfold arrivalsAfter at h
    dsimp only at h
    split at h
    · rename_i q hq
      rcases List.mem_cons.mp h with hr | h
      · cases hr
        exact hparameters t.isWord r (List.mem_of_find?_eq_some hq)
      · exact ih h
    · rcases List.mem_cons.mp h with hr | h
      · cases hr
      · exact ih h

/-- **Parameters arrive in registers of the machine.** -/
theorem mem_registers_of_mem_arrivals {σ : Signature} (h : some r ∈ σ.arrivals m) :
    r ∈ m.registers :=
  mem_registers_of_mem_arrivalsAfter h

theorem mem_registers_result (m : Arch) (t : Ty) : m.result t ∈ m.registers := by
  unfold result
  cases m <;> cases t.isWord <;> decide

end Arch

/-- The slots of the parameters that travel in memory are known. -/
def Vocabulary.HasSlots {s : Site} {D : List String} {X : Prop} (K : Vocabulary s D X)
    (σ : Signature) : Prop :=
  ∀ x ∈ σ.params.zip (σ.arrivals s.target.arch), x.2 = none → x.1.slot ∈ K.names

namespace Build

variable {s : Site} {D : List String} {X : Prop} {K K' : Vocabulary s D X}
  {ts : List (Location × Location)}

/-- Transfers between known locations. -/
def TransfersKnown (ts : List (Location × Location)) (K : Vocabulary s D X) : Prop :=
  ∀ t ∈ ts, t.1.Known K ∧ t.2.Known K

theorem TransfersKnown.mono (h : TransfersKnown ts K) (hle : K ≤ K') : TransfersKnown ts K' :=
  fun t ht => ⟨(h t ht).1.mono hle, (h t ht).2.mono hle⟩

/-! ### Calls -/

theorem brings_saveSources (h : TransfersKnown ts K) (is : List Nat) :
    Brings K (saveSources ts is) TransfersKnown := by
  induction is generalizing K ts with
  | nil => exact .pure h
  | cons i is ih =>
    unfold saveSources
    split
    · rename_i dest source hget
      obtain ⟨hdest, hsource⟩ := h _ (List.mem_of_getElem? hget)
      refine (brings_toTemporary hsource).bind fun t K' hle ht => ih fun x hx => ?_
      rcases List.mem_or_eq_of_mem_set hx with hx | rfl
      · exact h.mono hle x hx
      · exact ⟨hdest.mono hle, ht.1⟩
    · exact ih h

theorem cites_transferAll (h : TransfersKnown ts K) (is : List Nat) :
    Cites K (transferAll ts is) fun held => ∀ res ∈ held, res.Known K := by
  induction is with
  | nil => exact Brings.pure (by simp)
  | cons i is ih =>
    unfold transferAll
    split
    · exact ih
    rename_i dest source hget
    obtain ⟨hdest, hsource⟩ := h _ (List.mem_of_getElem? hget)
    refine (keeps_move hdest hsource).bind fun _ => ?_
    split
    · exact cites_pin_append ih
    · exact ih

/-- **Parallel transfers.** -/
theorem brings_parallel (h : TransfersKnown ts K) :
    Brings K (parallel ts) fun held K' => ∀ res ∈ held, res.Known K' :=
  .accumulator (Cites.bind (cites_ofExcept (P := fun _ => True) fun _ _ => trivial) fun x _ =>
    (brings_saveSources h x.2).bind fun _ _ _ hts => (cites_transferAll hts x.1).brings)

/-- **Arguments** that travel in memory are stored at slots that are known or entered into the
ledger. -/
theorem brings_arguments (callee : Signature) {xs : List (Parameter × Option Register × Operand)}
    (h : ∀ x ∈ xs, (∀ r, x.2.1 = some r → r ∈ s.target.arch.registers) ∧ x.2.2.Known K ∧
      (callee.name ∈ D → x.2.1 = none → x.1.slot ∈ K.names)) :
      Brings K (arguments callee xs) TransfersKnown := by
  induction xs generalizing K with
  | nil => exact .pure (by simp [TransfersKnown])
  | cons x xs ih =>
    obtain ⟨p, arrival, arg⟩ := x
    obtain ⟨harrival, harg, hslot⟩ := h _ (.head _)
    have hrest : ∀ {K' : Vocabulary s D X}, K ≤ K' →
        Brings K' (arguments callee xs) TransfersKnown := by
      intro K' hle
      refine ih fun x hx => ?_
      obtain ⟨harrival, harg, hslot⟩ := h x (.tail _ hx)
      exact ⟨harrival, harg.mono hle, fun hD hnone => hle (hslot hD hnone)⟩
    refine (cites_locate arg).bind ?_
    rintro _ rfl
    have hsource := harg.located
    cases arrival with
    | some r =>
      refine (hrest (le_refl K)).bind fun rest K' hle hts => .pure ?_
      rintro t (_ | ⟨_, ht⟩)
      · exact ⟨Location.known_ofRegister (harrival r rfl), hsource.mono hle⟩
      · exact hts t ht
    | none =>
      refine .observes (g := id) (fun _ => rfl) fun w hD _ => ?_
      dsimp only
      split
      · rename_i hdefined
        have hslot := hslot (hD ▸ List.contains_iff_mem.mp hdefined) rfl
        exact (keeps_move (Location.known_memory hslot) hsource).bind fun _ => hrest (le_refl K)
      · refine (brings_modifyLedger (fun l => l.grows_reference p.slot) fun l =>
          l.mem_names_reference p.slot).bind
          fun _ K' hle hslot => ?_
        exact (keeps_move (Location.known_memory hslot) (hsource.mono hle)).bind fun _ => hrest hle

/-- **Calls.** -/
theorem keeps_subroutine {callee : Signature} {args : List Operand} {dest : Option Operand}
    (hargs : ∀ o ∈ args, o.Known K) (hdest : ∀ o ∈ dest, o.Known K)
    (hslots : callee.name ∈ D → K.HasSlots callee) :
    Keeps K (subroutine callee args dest) := by
  refine .arch ((brings_arguments callee fun x hx => ?_).bind fun ts K₁ hle₁ hts => ?_)
  · obtain ⟨k, hx⟩ := List.mem_iff_getElem?.mp hx
    obtain ⟨hparam, hx⟩ := List.getElem?_zip_eq_some.mp hx
    obtain ⟨harrival, harg⟩ := List.getElem?_zip_eq_some.mp hx
    refine ⟨fun r hr => ?_, hargs _ (List.mem_of_getElem? harg), fun hD hnone => ?_⟩
    · exact Arch.mem_registers_of_mem_arrivals (hr ▸ List.mem_of_getElem? harrival)
    · exact hslots hD (x.1, x.2.1)
        (List.mem_of_getElem? (List.getElem?_zip_eq_some.mpr ⟨hparam, harrival⟩)) hnone
  refine (brings_parallel hts).bind fun held K₂ hle₂ hheld => ?_
  refine keeps_call.bind fun _ => (keeps_releaseAll hheld).bind fun _ => ?_
  split
  · refine (cites_locate _).bind ?_
    rintro _ rfl
    refine keeps_move ?_ (Location.known_ofRegister (Arch.mem_registers_result _ _))
    exact (hdest _ rfl).located.mono (hle₁.trans hle₂)
  · exact .pure trivial

/-- A parameter is moved between registers of the machine, its slot and its variable. -/
theorem known_of_parameterTransfer (hvars : ∀ v ∈ s.function.vars, K.Has v) {p : Parameter}
    {arrival : Option Register}
    (harrival : ∀ r, arrival = some r → r ∈ s.target.arch.registers)
    (hslot : arrival = none → p.slot ∈ K.names)
    {t : Location × Location} (h : parameterTransfer? s p arrival = some t) :
    t.1.Known K ∧ t.2.Known K := by
  obtain ⟨v, hv, h⟩ := Option.bind_eq_some_iff.mp h
  obtain ⟨-, -, h⟩ := Option.bind_eq_some_iff.mp h
  obtain ⟨-, -, h⟩ := Option.bind_eq_some_iff.mp h
  cases h
  have hv := hvars v (List.mem_of_find?_eq_some hv)
  constructor
  · dsimp only
    split
    · rename_i r hr
      exact Location.known_ofRegister (hv.register r hr).1
    · rename_i hnone
      exact Location.known_memory (hv.memory hnone)
  · cases arrival with
    | some r => exact Location.known_ofRegister (harrival r rfl)
    | none => exact Location.known_memory (hslot rfl)

/-- **Prologues.** -/
theorem keeps_prologue (hvars : ∀ v ∈ s.function.vars, K.Has v)
    (hslots : K.HasSlots s.function.signature) :
    Keeps K prologue := by
  refine .read ((brings_parallel fun t ht => ?_).bind fun held K' _ hheld => keeps_releaseAll hheld)
  obtain ⟨⟨p, arrival⟩, hmem, ht⟩ := List.mem_filterMap.mp ht
  have hslot : arrival = none → p.slot ∈ K.names := hslots (p, arrival) hmem
  refine known_of_parameterTransfer hvars (fun r hr => ?_) hslot ht
  exact Arch.mem_registers_of_mem_arrivals (hr ▸ (List.of_mem_zip hmem).2)

/-- **Returns.** -/
theorem keeps_returnValue {value : Option Operand} (h : ∀ o ∈ value, o.Known K) :
    Keeps K (returnValue value) := by
  have hreturn : Keeps K (emit s.target.arch.branches.ret []) := by
    refine keeps_emit (by simp) fun _ => ?_
    cases s.target.arch <;> rfl
  refine .arch ?_
  split
  · refine .read ((cites_locate _).bind ?_)
    rintro _ rfl
    have hresult : (Location.ofRegister (s.target.arch.result s.function.result)).Known K :=
      Location.known_ofRegister (Arch.mem_registers_result _ _)
    exact (keeps_move hresult (h _ rfl).located).bind fun _ => hreturn
  · exact hreturn

/-! ### Instructions -/

section Values

variable {d l : Operand} (hd : d.Known K) (hl : l.Known K)

include hd hl

theorem keeps_copyValue : Keeps K (copyValue d l) := by
  refine Brings.locate (.locate ?_)
  exact keeps_move hd.located hl.located

theorem keeps_load : Keeps K (load d l) := by
  have hexchange : s.target.arch = .i8080 → Keeps K (exchange d l) := by
    intro hm
    refine .read
      (.ite (.pure trivial) ((cites_locate d).bind fun _ _ => (cites_locate l).bind fun _ _ => ?_))
    exact .ite ((keeps_emitIntel hm (by simp) fun _ => rfl).returns) (.pure trivial)
  refine .arch ?_
  dsimp only
  split
  · rename_i hm
    exact (hexchange hm).bind fun _ => .ite (.pure trivial) (keeps_copyValue hd hl)
  · exact keeps_copyValue hd hl

theorem keeps_resize : Keeps K (resize d l) := by
  refine Brings.locate (.locate ?_)
  exact .ite (keeps_extend hd.located hl.located) (keeps_move hd.located hl.located)

end Values

end Build

/-- **The locations that an instruction for bytes takes as they are.** An operation does so unless
its destination is a word, and a comparison on the 8080 unless one of its operands is. -/
def Inst.handed (m : Arch) (ρ : Assignment) : Inst → List Location
  | .binary op d l r =>
    match op with
    | .shl | .shr | .mul => []
    | _ => if d.type.byteCount == 2 then [] else
      [op.handed m.accumulator (l.located ρ) (r.located ρ)]
  | .compare c l r _ =>
    let x := l.located ρ
    let y := r.located ρ
    if m == .i8080 && max x.width y.width != 2 && x.constant?.isNone && y.constant?.isNone then
      c.handed l.type.signed x y
    else []
  | _ => []

/-- **An instruction that can be built**: the symbols of its operands and the slots of the function
that it calls are known, and it takes no pair for a byte if `X`. -/
structure Inst.Known {s : Site} {D : List String} {X : Prop} (K : Vocabulary s D X) (i : Inst) :
    Prop where
  operands : ∀ o ∈ i.operands, o.Known K
  slots : ∀ callee args d, i = .call callee args d → callee.name ∈ D → K.HasSlots callee
  handed : X → ∀ x ∈ i.handed s.target.arch s.registers, x.isPair = false

namespace Build

variable {s : Site} {D : List String} {X : Prop} {K : Vocabulary s D X}

/-- **Every instruction refers to known symbols only**, and consists of instructions of the machine
if `X`. -/
theorem keeps_instruction {i : Inst} (h : i.Known K) : Keeps K (instruction i) := by
  have hknown := h.operands
  cases i with
  | label a => exact keeps_modifyDraft fun N d _ hd => hd.append_label
  | load d l =>
    refine keeps_load (hknown d ?_) (hknown l ?_)
    all_goals simp [Inst.operands, Inst.dest?, Inst.left?]
  | binary op d l r =>
    have hd := hknown d (by simp [Inst.operands, Inst.dest?])
    have hl := hknown l (by simp [Inst.operands, Inst.left?])
    have hr := hknown r (by simp [Inst.operands, Inst.right?])
    cases op with
    | add | sub =>
      exact keeps_addOrSubtract hd hl hr fun x hwidth =>
        h.handed x _ (by simp [Inst.handed, hwidth])
    | and | or | xor =>
      exact keeps_bitwise hd hl hr fun x hwidth => h.handed x _ (by simp [Inst.handed, hwidth])
    | shl | shr => exact keeps_shift hd hl hr
    | mul => exact keeps_multiply hd hl hr
  | unary op d l =>
    refine keeps_negate (hknown d ?_) (hknown l ?_)
    all_goals simp [Inst.operands, Inst.dest?, Inst.left?]
  | resize d l =>
    refine keeps_resize (hknown d ?_) (hknown l ?_)
    all_goals simp [Inst.operands, Inst.dest?, Inst.left?]
  | jump a => exact Brings.read (.ite (.pure trivial) keeps_jump)
  | compare c l r a =>
    have hl := hknown l (by simp [Inst.operands, Inst.left?])
    have hr := hknown r (by simp [Inst.operands, Inst.right?])
    refine keeps_compare hl hr (fun x hm hwidth hleft hright y hy => ?_)
    exact h.handed x y (by simpa [Inst.handed, hm, hwidth, hleft, hright] using hy)
  | decJump d a => exact keeps_decrementAndJump (hknown d (by simp [Inst.operands, Inst.dest?]))
  | call callee args d =>
    refine keeps_subroutine (fun o ho => hknown o ?_) (fun o ho => hknown o ?_)
      (h.slots callee args d rfl)
    · simp [Inst.operands, Inst.args, ho]
    · simp [Inst.operands, Inst.dest?, Option.mem_toList.mpr ho]
  | ret v =>
    refine keeps_returnValue fun o ho => hknown o ?_
    simp [Inst.operands, Inst.left?, Option.mem_toList.mpr ho]

/-- The end of an instruction. -/
theorem keeps_finish : Keeps K finish := by
  refine keeps_settleAll.bind fun _ => ?_
  refine Keeps.bind (keeps_modifyDraft fun N d _ hd => ⟨hd.lines, hd.reserved, by simp⟩) fun _ =>
    .draft fun d => ?_
  exact .ite (.read (.throw _)) (.pure trivial)

end Build

end Octet
