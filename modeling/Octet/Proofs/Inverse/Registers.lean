import Octet.Proofs.Inverse.Intel
import Octet.Proofs.Inverse.Mos

/-!
# Save and restore are inverse

For every list of different registers that can be saved there is save code, and around whatever
keeps what it has saved the code inverts itself. This is stated here of control that passes through
the code, where it sits among other code, and of what registers hold.

## Main definitions

* `Arch.holds` — what a register holds, in the processor or in memory
* `SaveCode.depth` — the bytes that save code leaves on the stack

## Main results

* `Arch.exists_inverts` — there is save code for every list of different registers, and it inverts
  itself
* `Arch.restore_inverts_save` — restoring brings back what was saved, and nothing else
-/

namespace Octet

open Assembly (Arg Instr Line)
open Build (saveCellName)
open Simulator (Memory Reading)

/-- **There is save code**, and it inverts itself. -/
theorem Arch.exists_inverts (m : Arch) (n : Nat) {us : List Register}
    (hus : ∀ u ∈ us, u ∈ m.savable)
    (hnodup : us.Nodup) : ∃ code d, m.saveCode n us = .ok code ∧ code.Inverts m n us d := by
  cases m with
  | mos6502 =>
    exact Mos.exists_inverts_saveUnits (fun u hu n => Mos.exists_inverts_saveUnit hu n) hus hnodup n
  | wdc65816 =>
    -- bytes are saved before words
    have hmem : ∀ u, u ∈ us.filter (!·.isWord) ++ us.filter (·.isWord) ↔ u ∈ us := by
      intro u
      cases hw : u.isWord <;> simp [hw]
    have hnodup' : (us.filter (!·.isWord) ++ us.filter (·.isWord)).Nodup := by
      refine List.nodup_append.mpr ⟨hnodup.filter _, hnodup.filter _, fun u hu v hv he => ?_⟩
      subst he
      simp_all
    obtain ⟨s, d, hs, hinv⟩ :=
      Mos.exists_inverts_saveUnits (fun u hu n => Mos.exists_inverts_saveWideUnit hu n)
      (fun u hu => hus u ((hmem u).mp hu)) hnodup' n
    exact ⟨s, d, hs, hinv.congr fun u => (hmem u).symm⟩
  | i8080 =>
    have hbytes : ∀ u ∈ us, u ∈ Arch.bytes .i8080 :=
      fun u hu => by simpa [savable, cells] using hus u hu
    obtain ⟨s, d, hs, hinv⟩ := Intel.exists_inverts_saveUnits hbytes n [] fun _ _ _ _ _ _ =>
      List.not_mem_nil
    exact ⟨s, d, hs, hinv.congr fun u => by simp⟩

/-- The bytes that save code leaves on the stack. -/
def SaveCode.depth (m : Arch) (code : SaveCode) : Nat :=
  (m.slotBytes * Line.rises (code.save.map Line.instr)).toNat

theorem SaveCode.Inverts.depth_eq {m : Arch} {n d : Nat} {us : List Register} {code : SaveCode}
    (h : code.Inverts m n us d) : code.depth m = d := by
  rw [SaveCode.depth, h.depth, Int.toNat_natCast]

namespace Arch

/-! ### What registers hold -/

/-- What a register holds. -/
def holds (m : Arch) (M : Simulator.Machine m.Cpu) (u : Register) : Option Reading :=
  if u.isCell then some (.number (M.memory.peek u.address u.width).1) else m.reading M.cpu u

/-- The flags that saving leaves, and that restoring may bring back. -/
def keptFlags : Arch → List String
  | .i8080 => ["s", "z", "cy"]
  | _ => ["c", "v"]

section Holds

variable {m : Arch} {M N : Simulator.Machine m.Cpu} {u : Register}

theorem value_congr {mem mem' : Memory} {a : Int} {n : Nat}
    (h : ∀ o : Nat, o < n → mem'.byte (a + o) = mem.byte (a + o)) :
    mem'.value a n = mem.value a n := by
  induction n generalizing a with
  | zero => rfl
  | succ n ih =>
    have hfirst := h 0 (by omega)
    rw [Int.natCast_zero, Int.add_zero] at hfirst
    rw [Memory.value, Memory.value, hfirst, ih]
    intro o ho
    have := h (o + 1) (by omega)
    rwa [Int.natCast_add, Int.natCast_one, Int.add_comm (o : Int), ← Int.add_assoc] at this

theorem name_mem_names (hcell : u.isCell = false) : u.name ∈ m.names u := by
  rw [names, if_neg (by simp [hcell])]
  split
  · rename_i h
    rw [h.2]
    decide
  · exact .head _

theorem width_cell_pos (hu : u ∈ m.cells) : ((0 : Nat) : Int) < u.width := by
  have hall : ∀ v ∈ m.cells, ((0 : Nat) : Int) < v.width := by cases m <;> decide
  exact hall u hu

/-- A register that is a memory cell holds what its bytes say. -/
theorem holds_congr_of_cell (hcell : u.isCell = true)
    (hplaced : (M.memory.symbols.lookup u.address).isSome)
    (hsymbols : ∀ a, M.memory.symbols.lookup u.address = some a →
      N.memory.symbols.lookup u.address = some a)
    (hbytes : ∀ o : Nat, o < u.width → N.memory.byte (addressIn M.memory.symbols u.address + o) =
      M.memory.byte (addressIn M.memory.symbols u.address + o)) :
    m.holds N u = m.holds M u := by
  have hM := lookup_addressIn hplaced
  have hN := hsymbols _ hM
  have hvalue : N.memory.value (addressIn M.memory.symbols u.address) u.width.toNat =
      M.memory.value (addressIn M.memory.symbols u.address) u.width.toNat :=
    value_congr fun o ho => hbytes o (by omega)
  have hpeek : ∀ (mem : Memory) (a : Int), mem.symbols.lookup u.address = some a →
      (mem.peek u.address u.width).1 = mem.read a u.width := by
    intro mem a h
    simp [Memory.peek, Memory.address, h]
  rw [holds, holds, if_pos hcell, if_pos hcell, hpeek _ _ hM, hpeek _ _ hN, Memory.read,
    Memory.read, hvalue]

theorem holds_congr_of_byte (hcell : u.isCell = false) (h : m.shows N u.name = m.shows M u.name) :
    m.holds N u = m.holds M u := by
  rw [holds, holds, if_neg (by simp [hcell]), if_neg (by simp [hcell])]
  exact h

variable {M₁ M₂ M₃ : Simulator.Machine m.Cpu} {us : List Register} {n k d : Nat}

/-- Saving changes no register. -/
theorem Saving.holds_eq (h : m.Saving n k d M M₁)
    (hroomy : m.Roomy M.memory.symbols k (m.pointer M) (d + 2))
    (hu : u ∈ m.savable) : m.holds M₁ u = m.holds M u := by
  cases hcell : u.isCell with
  | false =>
    exact holds_congr_of_byte hcell (h.shows _ (mem_steady_of_mem_names hu (name_mem_names hcell)))
  | true =>
    have hmem := mem_cells_of_isCell hu hcell
    refine holds_congr_of_cell hcell (hroomy.placed _ 0 (.register hmem (width_cell_pos hmem))) ?_
      fun o ho => ?_
    · intro a ha
      rwa [h.symbols]
    · exact h.bytes _ (hroomy.not_pushed_cell hmem ho) (hroomy.not_saveByte_cell hmem ho)

/-- Restoring brings the registers of its list back. -/
theorem Restoring.holds_saved (h : m.Restoring us d M M₂ M₃) {p : Int} {room : Nat}
    (hroomy : m.Roomy M.memory.symbols k p room)
    (hsymbols : ∀ name a, M.memory.symbols.lookup name = some a →
      M₂.memory.symbols.lookup name = some a)
    (hus : ∀ u ∈ us, u ∈ m.savable) (hu : u ∈ us) : m.holds M₃ u = m.holds M u := by
  cases hcell : u.isCell with
  | false => exact holds_congr_of_byte hcell (h.back u hu _ (name_mem_names hcell))
  | true =>
    have hmem := mem_cells_of_isCell (hus u hu) hcell
    refine holds_congr_of_cell hcell (hroomy.placed _ 0 (.register hmem (width_cell_pos hmem))) ?_
      (h.cells u hu hcell)
    intro a ha
    rw [h.symbols]
    exact hsymbols _ a ha

/-- Restoring leaves the other registers. -/
theorem Restoring.holds_other (h : m.Restoring us d M M₂ M₃)
    (hroomy : m.Roomy M.memory.symbols k (m.pointer M) (d + 2))
    (hsymbols : ∀ name a, M.memory.symbols.lookup name = some a →
      M₂.memory.symbols.lookup name = some a)
    (hus : ∀ u ∈ us, u ∈ m.savable) (hu : u ∈ m.savable) (hout : u ∉ us) :
    m.holds M₃ u = m.holds M₂ u := by
  cases hcell : u.isCell with
  | false =>
    refine holds_congr_of_byte hcell
      (h.other _ (mem_steady_of_mem_names hu (name_mem_names hcell)) fun v hv => ?_)
    refine not_mem_names_of_ne hu (hus v hv) ?_ (name_mem_names hcell)
    rintro rfl
    exact hout hv
  | true =>
    have hmem := mem_cells_of_isCell hu hcell
    have hplaced := lookup_addressIn (hroomy.placed _ 0 (.register hmem (width_cell_pos hmem)))
    have hsame := hsymbols _ _ hplaced
    have haddress : addressIn M₂.memory.symbols u.address =
        addressIn M.memory.symbols u.address := by
      rw [addressIn, hsame]
      rfl
    refine holds_congr_of_cell hcell (by rw [hsame]; rfl) (fun a ha => ?_) fun o ho => ?_
    · rwa [h.symbols]
    · rw [haddress]
      exact h.bytes _ (hroomy.not_pushed_cell hmem ho) (hroomy.not_cellByte_cell hus hmem ho hout)

/-- The flags come back with the accumulator of the 8080, and stay with every other register. -/
theorem Restoring.shows_flag (h : m.Restoring us d M M₂ M₃) (hus : ∀ u ∈ us, u ∈ m.savable)
    {f : String} (hf : f ∈ m.keptFlags) :
    m.shows M₃ f = if m = .i8080 ∧ Intel.a ∈ us then m.shows M f else m.shows M₂ f := by
  have hsteady : f ∈ m.steady := by
    have hall : ∀ g ∈ m.keptFlags, g ∈ m.steady := by cases m <;> decide
    exact hall f hf
  split
  · rename_i ha
    refine h.back Intel.a ha.2 f ?_
    obtain ⟨rfl, -⟩ := ha
    have hall : ∀ g ∈ Arch.keptFlags .i8080, g ∈ Arch.names .i8080 Intel.a := by decide
    exact hall f hf
  · rename_i ha
    refine h.other f hsteady fun u hu hname => ha ?_
    have hall : ∀ v ∈ m.savable, ∀ g ∈ m.keptFlags, g ∈ m.names v → m = .i8080 ∧ v = Intel.a := by
      cases m <;> decide
    obtain ⟨hm, rfl⟩ := hall u (hus u hu) f hf hname
    exact ⟨hm, hu⟩

end Holds

/-! ### The inverse -/

/-- **Save and restore are inverse around any code.** Save code changes no register. From every
machine that keeps the stack pointer, the bytes that were pushed and the save cells, restore code
brings the saved registers back, with the stack pointer, and leaves the others; on the 8080 the
flags come back with the accumulator. -/
theorem restore_inverts_save (m : Arch) (n : Nat) {us : List Register}
    (hus : ∀ u ∈ us, u ∈ m.savable) (hdistinct : us.Nodup) :
    ∃ code, m.saveCode n us = .ok code ∧
      ∀ M, m.Proper M → m.Roomy M.memory.symbols code.next (m.pointer M) (code.depth m + 2) →
        ∀ (s : Simulator m.Cpu) c i, s.processor = m.processor →
          c.Sits i (code.save.map Line.instr) →
          ∃ M₁, s.Passes c i (i + Line.count (code.save.map Line.instr)) M M₁ ∧
            m.pointer M₁ = m.lowered (m.pointer M) (code.depth m) ∧
            (∀ u ∈ m.savable, m.holds M₁ u = m.holds M u) ∧
            ∀ M₂ j, m.Proper M₂ → m.Keeping n code.next (code.depth m) (m.pointer M) M₁ M₂ →
              c.Sits j (code.restore.map Line.instr) →
                ∃ M₃, s.Passes c j (j + Line.count (code.restore.map Line.instr)) M₂ M₃ ∧
                  m.pointer M₃ = m.pointer M ∧
                  (∀ u ∈ m.savable, m.holds M₃ u = if u ∈ us then m.holds M u else m.holds M₂ u) ∧
                  ∀ f ∈ m.keptFlags, m.shows M₃ f =
                    if m = .i8080 ∧ Intel.a ∈ us then m.shows M f else m.shows M₂ f := by
  obtain ⟨code, d, hcode, hinv⟩ := m.exists_inverts n hus hdistinct
  refine ⟨code, hcode, fun M hM hroomy s c i hs hsits => ?_⟩
  rw [hinv.depth_eq] at hroomy ⊢
  obtain ⟨M₁, hsave, hsaving, hback⟩ := hinv.inverts M hM hroomy
  rw [← hs] at hsave
  refine ⟨M₁, .of_execute hsave hsits, hsaving.pointer, fun u hu => hsaving.holds_eq hroomy hu,
    fun M₂ j hM₂ hkeep hsits' => ?_⟩
  obtain ⟨M₃, hrestore, hrestoring⟩ := hback M₂ hM₂ hkeep
  rw [← hs] at hrestore
  have hsymbols : ∀ name a, M.memory.symbols.lookup name = some a →
      M₂.memory.symbols.lookup name = some a := by
    intro name a h
    refine hkeep.symbols name a ?_
    rwa [hsaving.symbols]
  refine ⟨M₃, .of_execute hrestore hsits', hrestoring.pointer, fun u hu => ?_, fun f hf =>
    hrestoring.shows_flag hus hf⟩
  split
  · exact hrestoring.holds_saved hroomy hsymbols hus ‹_›
  · exact hrestoring.holds_other hroomy hsymbols hus hu ‹_›

end Arch

/-! ### A pair, a register alone and the accumulator -/

namespace Inverse

open Simulator (IntelCpu)

/-- `h` and `l` are pushed together, `b` goes to a save cell, and `a` is pushed with the flags. -/
def mixed : List Register := [Intel.l, Intel.b, Intel.a, Intel.h]

/-- The code that saves them, and the code that restores them. -/
def mixedCode : SaveCode :=
  ⟨[⟨"push", [.reg "h"]⟩, ⟨"push", [.reg "psw"]⟩, ⟨"mov", [.reg "a", .reg "b"]⟩,
    ⟨"sta", [.mem "cate_save0" 0]⟩, ⟨"pop", [.reg "psw"]⟩, ⟨"push", [.reg "psw"]⟩],
    [⟨"pop", [.reg "psw"]⟩, ⟨"push", [.reg "psw"]⟩, ⟨"lda", [.mem "cate_save0" 0]⟩,
      ⟨"mov", [.reg "b", .reg "a"]⟩, ⟨"pop", [.reg "psw"]⟩, ⟨"pop", [.reg "h"]⟩], 1⟩

/-- The two pieces of code, one after the other. -/
def mixedRoutine : Simulator.Code :=
  ⟨"f", ((mixedCode.save ++ mixedCode.restore).map fun i => ⟨0, i⟩).toArray, []⟩

/-- A machine with a save cell, before the registers are saved. -/
def mixedStart : Simulator.Machine IntelCpu :=
  ⟨⟨1, 2, 3, 4, 5, 6, 7, 0xff00, true, false, true⟩, (Memory.blank 0x100).place "cate_save0" 2⟩

/-- The machine with a byte in all registers but the stack pointer, and with some zero flag. -/
def filled (v : UInt8) (z : Bool) (M : Simulator.Machine IntelCpu) : Simulator.Machine IntelCpu :=
  ⟨⟨v.toNat, v.toNat, v.toNat, v.toNat, v.toNat, v.toNat, v.toNat, M.cpu.sp, false, z, false⟩,
    M.memory⟩

theorem proper_mixedStart : Arch.Proper .i8080 mixedStart := by
  refine ⟨?_, by rintro ⟨⟩, by decide, by decide⟩
  simp only [Arch.byteNames, List.mem_cons, List.not_mem_nil, or_false, forall_eq_or_imp, forall_eq]
  exact ⟨⟨1, rfl⟩, ⟨2, rfl⟩, ⟨3, rfl⟩, ⟨4, rfl⟩, ⟨5, rfl⟩, ⟨6, rfl⟩, ⟨7, rfl⟩⟩

theorem proper_filled (v : UInt8) (z : Bool) {M : Simulator.Machine IntelCpu} (h₀ : 0 ≤ M.cpu.sp)
    (h₁ : M.cpu.sp < 65536) : Arch.Proper .i8080 (filled v z M) := by
  refine ⟨?_, by rintro ⟨⟩, h₀, h₁⟩
  simp only [Arch.byteNames, List.mem_cons, List.not_mem_nil, or_false, forall_eq_or_imp, forall_eq]
  exact ⟨⟨v, rfl⟩, ⟨v, rfl⟩, ⟨v, rfl⟩, ⟨v, rfl⟩, ⟨v, rfl⟩, ⟨v, rfl⟩, ⟨v, rfl⟩⟩

theorem sits_mixedRoutine : mixedRoutine.Sits 0 (mixedCode.save.map Line.instr) ∧
    mixedRoutine.Sits 6 (mixedCode.restore.map Line.instr) :=
  ⟨Simulator.Code.sits_of_holds (by decide), Simulator.Code.sits_of_holds (by decide)⟩

/-- There is room for saving. -/
theorem roomy_mixedStart : Arch.Roomy .i8080 mixedStart.memory.symbols 1 0xff00 8 := by
  have howns : ∀ name o, Arch.Owns .i8080 1 name o → name = "cate_save0" ∧ o < 2 := by
    rintro _ _ (⟨hu, -⟩ | ⟨hi, ho⟩)
    · exact absurd hu List.not_mem_nil
    · obtain rfl := Nat.lt_one_iff.mp hi
      exact ⟨rfl, ho⟩
  refine ⟨fun name o h => ?_, fun name o name' o' h h' he => ?_, fun name o h => ?_, by decide⟩
  · rw [(howns name o h).1]
    rfl
  · obtain ⟨rfl, ho⟩ := howns name o h
    obtain ⟨rfl, ho'⟩ := howns name' o' h'
    rw [Memory.index_eq_iff] at he
    exact ⟨rfl, by omega⟩
  · obtain ⟨rfl, ho⟩ := howns name o h
    rintro ⟨k, hk, he⟩
    have haddress : addressIn mixedStart.memory.symbols "cate_save0" = 0x100 := rfl
    rw [haddress, Memory.index_eq_iff] at he
    simp only [Arch.slot] at he
    omega

/-- All registers are overwritten in between. The saved ones come back, with the flags; the others
do not. -/
theorem restored_after_scrambling : ∃ M₁ M₃ : Simulator.Machine IntelCpu,
    Simulator.Passes ⟨IntelCpu.processor, [], [], 0⟩ mixedRoutine 0 6 mixedStart M₁ ∧
      Simulator.Passes ⟨IntelCpu.processor, [], [], 0⟩ mixedRoutine 6 12 (filled 9 true M₁) M₃ ∧
        M₃.cpu = ⟨1, 2, 9, 9, 9, 6, 7, 0xff00, true, false, true⟩ := by
  have hsavable : ∀ u ∈ mixed, u ∈ Arch.savable .i8080 := by decide
  obtain ⟨code, hcode, h⟩ := Arch.restore_inverts_save .i8080 0 hsavable (by decide)
  obtain rfl : mixedCode = code := by
    have : Arch.saveCode .i8080 0 mixed = .ok mixedCode := by cbv
    rw [this] at hcode
    exact Except.ok.inj hcode
  obtain ⟨M₁, hpass, hpointer, -, hback⟩ := h mixedStart proper_mixedStart
    (roomy_mixedStart.mono (Nat.le_refl _) (by decide))
      ⟨IntelCpu.processor, [], [], 0⟩ mixedRoutine 0 rfl
    sits_mixedRoutine.1
  have hsp : M₁.cpu.sp = 0xfefc := hpointer
  have hmiddle : Arch.Proper .i8080 (filled 9 true M₁) := proper_filled 9 true (by omega) (by omega)
  obtain ⟨M₃, hpass', hpointer', hholds, hflags⟩ := hback (filled 9 true M₁) 6 hmiddle
    ⟨rfl, fun _ _ h => h, fun _ _ => rfl, fun _ _ _ _ _ => rfl⟩ sits_mixedRoutine.2
  refine ⟨M₁, M₃, hpass, hpass', ?_⟩
  have hnumber : ∀ {v w : Int}, some (Reading.number v) = some (.number w) → v = w := by
    intro v w h
    exact Reading.number.inj (Option.some.inj h)
  have hflag : ∀ {v w : Bool}, some (Reading.flag v) = some (.flag w) → v = w := by
    intro v w h
    exact Reading.flag.inj (Option.some.inj h)
  have ha : M₃.cpu.a = 1 := hnumber (hholds Intel.a (by decide))
  have hb : M₃.cpu.b = 2 := hnumber (hholds Intel.b (by decide))
  have hc : M₃.cpu.c = 9 := hnumber (hholds Intel.c (by decide))
  have hd : M₃.cpu.d = 9 := hnumber (hholds Intel.d (by decide))
  have he : M₃.cpu.e = 9 := hnumber (hholds Intel.e (by decide))
  have hh : M₃.cpu.h = 6 := hnumber (hholds Intel.h (by decide))
  have hl : M₃.cpu.l = 7 := hnumber (hholds Intel.l (by decide))
  have hs : M₃.cpu.s = true := hflag (hflags "s" (by decide))
  have hz : M₃.cpu.z = false := hflag (hflags "z" (by decide))
  have hcy : M₃.cpu.cy = true := hflag (hflags "cy" (by decide))
  have hsp' : M₃.cpu.sp = 0xff00 := hpointer'
  have hcpu : M₃.cpu =
    (⟨M₃.cpu.a, M₃.cpu.b, M₃.cpu.c, M₃.cpu.d, M₃.cpu.e, M₃.cpu.h, M₃.cpu.l, M₃.cpu.sp, M₃.cpu.s,
    M₃.cpu.z, M₃.cpu.cy⟩ : IntelCpu) := rfl
  rw [hcpu, ha, hb, hc, hd, he, hh, hl, hsp', hs, hz, hcy]

end Inverse

end Octet
