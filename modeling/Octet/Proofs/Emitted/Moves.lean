import Octet.Proofs.Emitted.Reserving

/-!
# Moves

Values are moved byte by byte or by an instruction for words. A byte is loaded and stored at the
symbol of its location or behind the pointer through which it is reached. The 6502 has mnemonics
made of register names, so that what is loaded and stored has to be in a byte register, and so it
is: a byte of a known location is never in a pair.

The moves are written over a way to load and a way to store a byte, and refer to known symbols if
these do; a pointer that is loaded into a scratch register is moved there by the ways that do not
follow any.

## Main definitions

* `Access.Informed` — ways to load and store a byte, for registers that serve and known locations
* `Reached.Known` — a pointer that is ready to be followed

## Main results

* `Access.Informed.move` — moving a value by an informed access
* `Build.brings_pointer`, `Build.keeps_done` — following a pointer
* `Build.informed_full` — loading and storing bytes anywhere
-/

namespace Octet

open Assembly

/-! ### Mnemonics made of register names -/

namespace Mos

variable {m : Arch} {q : Register}

/-- The 6502 family has three byte registers. -/
theorem mem_bytes_cases (hm : m ≠ .i8080) (h : q ∈ m.bytes) : q = a ∨ q = x ∨ q = y := by
  have hall : ∀ q ∈ Arch.bytes .mos6502, q = a ∨ q = x ∨ q = y := by decide
  exact Arch.of_mos (motive := fun m => q ∈ m.bytes → _) hm (hall q) (hall q) h

/-- Loads, stores and transfers of byte registers are instructions of the machine. -/
theorem executes_load (hm : m ≠ .i8080) (h : q ∈ m.bytes) {arg : Arg} (harg : arg.isValue = true) :
    executes ⟨"ld" ++ q.name, [arg]⟩ = true := by
  rcases mem_bytes_cases hm h with rfl | rfl | rfl
  all_goals exact (takes_one _ arg).trans harg

theorem executes_store (hm : m ≠ .i8080) (h : q ∈ m.bytes) {arg : Arg} (harg : arg.isCell = true) :
    executes ⟨"st" ++ q.name, [arg]⟩ = true := by
  rcases mem_bytes_cases hm h with rfl | rfl | rfl
  all_goals exact (takes_one _ arg).trans harg

theorem executes_fromA (hm : m ≠ .i8080) (h : q ∈ m.bytes) (ha : q ≠ a) :
    executes ⟨"ta" ++ q.name, []⟩ = true := by
  rcases mem_bytes_cases hm h with rfl | rfl | rfl
  · exact absurd rfl ha
  all_goals rfl

theorem executes_toA (hm : m ≠ .i8080) (h : q ∈ m.bytes) (ha : q ≠ a) :
    executes ⟨"t" ++ q.name ++ "a", []⟩ = true := by
  rcases mem_bytes_cases hm h with rfl | rfl | rfl
  · exact absurd rfl ha
  all_goals rfl

theorem mem_registers (hm : m ≠ .i8080) (h : q ∈ all) : q ∈ m.registers :=
  Arch.of_mos hm h h

theorem mem_bytes_y (hm : m ≠ .i8080) : y ∈ m.bytes :=
  Arch.of_mos hm (by decide) (by decide)

end Mos

/-! ### Locations as operands -/

namespace Location

variable {l : Location} {a : Arg}

/-- The operand for a place in memory is an address. -/
theorem isFixed_arg (h : l.isMemory = true) (ha : l.arg = .ok a) : a.isFixed = true := by
  unfold isMemory at h
  split at h
  · rename_i hplace
    simp only [arg, hplace] at ha
    cases ha
    rfl
  · cases h

/-- The operand for a constant or an address is a constant. -/
theorem isConstant_arg (h : l.isImmediate = true) (ha : l.arg = .ok a) : a.isConstant = true := by
  unfold isImmediate at h
  split at h
  · rename_i hplace
    simp only [arg, hplace] at ha
    cases ha
    rfl
  · rename_i hplace
    simp only [arg, hplace] at ha
    cases ha
    rfl
  · cases h

theorem isCell_of_isFixed (h : a.isFixed = true) : a.isCell = true := by
  cases a <;> first | rfl | cases h

/-- The operand for a place that the wide accumulator can be loaded from is a value. -/
theorem isValue_arg (h : l.isWide = true) (ha : l.arg = .ok a) : a.isValue = true := by
  unfold isWide at h
  split at h
  case h_4 => cases h
  all_goals
    rename_i hplace
    simp only [arg, hplace] at ha
    cases ha
    rfl

end Location

section Bytes

variable {s : Site} {D : List String} {X : Prop} {K : Vocabulary s D X}
  {r dest source : Option Register} {arg : Arg}

open Build

/-! ### Bytes -/

/-- The name of a register that serves. -/
theorem Build.cites_byteName (h : ∀ q ∈ r, s.Serves X q) :
    Cites K (nameOf r) fun name => ∃ q, s.Serves X q ∧ r = some q ∧ name = q.name := by
  refine Brings.mono (cites_nameOf r) ?_
  rintro name - - ⟨q, hq, hname⟩
  exact ⟨q, h q hq, hq, hname⟩

/-- Copying a register, through the accumulator if neither of the two is it. -/
theorem Mos.keeps_copy (hm : s.target.arch ≠ .i8080) (hdest : ∀ q ∈ dest, s.Serves X q)
    (hsource : ∀ q ∈ source, s.Serves X q) (hne : source ≠ dest) :
    Keeps K (Mos.copy dest source) := by
  unfold Mos.copy
  split
  · rename_i ha
    obtain rfl : dest = some Mos.a := by simpa using ha
    refine (cites_byteName hsource).bind ?_
    rintro _ ⟨q, hq, rfl, rfl⟩
    exact keeps_emitMos hm (by simp) fun x => Mos.executes_toA hm (hq.2 x) fun h => hne (h ▸ rfl)
  rename_i hd
  split
  · refine (cites_byteName hdest).bind ?_
    rintro _ ⟨q, hq, rfl, rfl⟩
    exact keeps_emitMos hm (by simp) fun x => Mos.executes_fromA hm (hq.2 x) fun h =>
      hd (by simp [h])
  rename_i hs
  refine (brings_reserve (Mos.mem_registers hm (by decide))).bind fun held K' _ hheld => ?_
  refine (cites_byteName hsource).bind ?_
  rintro _ ⟨q, hq, rfl, rfl⟩
  refine (keeps_emitMos hm (by simp) fun x => Mos.executes_toA hm (hq.2 x) fun h =>
    hs (by simp [h])).bind fun _ => ?_
  refine (cites_byteName hdest).bind ?_
  rintro _ ⟨q', hq', rfl, rfl⟩
  refine Keeps.bind (keeps_emitMos hm (by simp) fun x => ?_) fun _ => keeps_release hheld
  exact Mos.executes_fromA hm (hq'.2 x) fun h => hd (by simp [h])

/-- The operand that names a byte register. -/
theorem Intel.cites_regArg (hm : s.target.arch = .i8080) (h : ∀ q ∈ r, s.Serves X q) :
    Cites K (Intel.regArg r) fun a => a.Known K.names ∧
      (X → a.isReg Intel.byteOperands = true) := by
  refine (cites_byteName h).bind ?_
  rintro _ ⟨q, hq, -, rfl⟩
  exact .pure ⟨Arg.known_reg, fun x => Arch.isReg_of_mem_bytes (hm ▸ hq.2 x)⟩

theorem Intel.mem_registers (hm : s.target.arch = .i8080) {q : Register} (h : q ∈ Intel.all) :
    q ∈ s.target.arch.registers := by
  rw [hm]
  exact h

/-- An instruction that moves a byte between registers. -/
theorem Intel.keeps_mov (hm : s.target.arch = .i8080) {target from₀ : Arg}
    (htarget : target.Known K.names ∧ (X → target.isReg Intel.byteOperands = true))
    (hfrom : from₀.Known K.names ∧ (X → from₀.isReg Intel.byteOperands = true)) :
    Keeps K (emit "mov" [target, from₀]) :=
  keeps_emitIntel hm (by simp [htarget.1, hfrom.1]) fun x =>
    (takes_two _ _ target from₀).trans (by simp [htarget.2 x, hfrom.2 x])

/-- The accumulator and the byte behind `hl` are operands that need no symbol. -/
theorem Intel.known_aArg : aArg.Known K.names ∧ (X → aArg.isReg Intel.byteOperands = true) :=
  ⟨Arg.known_reg, fun _ => rfl⟩

theorem Intel.known_mArg : mArg.Known K.names ∧ (X → mArg.isReg Intel.byteOperands = true) :=
  ⟨Arg.known_reg, fun _ => rfl⟩

/-- Loading a register from an address. -/
theorem Intel.keeps_loadMemory (hm : s.target.arch = .i8080) (h : ∀ q ∈ r, s.Serves X q)
    (harg : arg.Known K.names)
    (hfixed : arg.isFixed = true) : Keeps K (Intel.loadMemory r arg) := by
  have hload : ∀ {K : Vocabulary s D X}, arg.Known K.names → Keeps K (emit "lda" [arg]) :=
    fun harg =>
    keeps_emitIntel hm (by simpa using harg) fun _ => (takes_one _ arg).trans hfixed
  unfold Intel.loadMemory
  split
  · exact hload harg
  refine (brings_reserve (Intel.mem_registers hm (by decide))).bind fun held K' hle hheld => ?_
  refine (hload (harg.mono hle)).bind fun _ => (Intel.cites_regArg hm h).bind fun target htarget =>
    ?_
  exact (Intel.keeps_mov hm htarget Intel.known_aArg).bind fun _ => keeps_release hheld

/-- Storing a register to an address. -/
theorem Intel.keeps_storeMemory (hm : s.target.arch = .i8080) (h : ∀ q ∈ r, s.Serves X q)
    (harg : arg.Known K.names)
    (hfixed : arg.isFixed = true) : Keeps K (Intel.storeMemory r arg) := by
  have hstore : ∀ {K : Vocabulary s D X}, arg.Known K.names → Keeps K (emit "sta" [arg]) :=
    fun harg =>
    keeps_emitIntel hm (by simpa using harg) fun _ => (takes_one _ arg).trans hfixed
  unfold Intel.storeMemory
  split
  · exact hstore harg
  refine (brings_reserve (Intel.mem_registers hm (by decide))).bind fun held K' hle hheld => ?_
  refine (Intel.cites_regArg hm h).bind fun from₀ hfrom => ?_
  refine (Intel.keeps_mov hm Intel.known_aArg hfrom).bind fun _ => ?_
  exact (hstore (harg.mono hle)).bind fun _ => keeps_release hheld

namespace Build

/-- An instruction that is named after a register. -/
theorem keeps_emitNamed (hm : s.target.arch ≠ .i8080) (h : ∀ q ∈ r, s.Serves X q)
    (harg : arg.Known K.names) {op : String}
    (hx : ∀ q ∈ s.target.arch.bytes, Mos.executes ⟨op ++ q.name, [arg]⟩ = true) :
    Keeps K (nameOf r >>= fun name => emit (op ++ name) [arg]) := by
  refine (cites_byteName h).bind ?_
  rintro _ ⟨q, hq, -, rfl⟩
  exact keeps_emitMos hm (by simpa using harg) fun x => hx q (hq.2 x)

/-- Loading a constant or the address of a known symbol. -/
theorem keeps_loadImmediate (h : ∀ q ∈ r, s.Serves X q) (harg : arg.Known K.names)
    (hconstant : arg.isConstant = true) :
    Keeps K (loadImmediate r arg) := by
  refine Brings.arch ?_
  split
  · rename_i hm
    refine (Intel.cites_regArg hm h).bind fun target htarget => ?_
    refine keeps_emitIntel hm (by simp [htarget.1, harg]) fun x => ?_
    exact (takes_two _ _ target arg).trans (by simp [htarget.2 x, hconstant])
  · rename_i hm
    exact keeps_emitNamed hm h harg fun q hq => Mos.executes_load hm hq
      (by simp [Arg.isValue, hconstant])

theorem keeps_loadMemory (h : ∀ q ∈ r, s.Serves X q) (harg : arg.Known K.names)
    (hfixed : arg.isFixed = true) :
    Keeps K (loadMemory r arg) := by
  refine Brings.arch ?_
  split
  · rename_i hm
    exact Intel.keeps_loadMemory hm h harg hfixed
  · rename_i hm
    exact keeps_emitNamed hm h harg fun q hq =>
      Mos.executes_load hm hq (by simp [Arg.isValue, Location.isCell_of_isFixed hfixed])

theorem keeps_storeMemory (h : ∀ q ∈ r, s.Serves X q) (harg : arg.Known K.names)
    (hfixed : arg.isFixed = true) :
    Keeps K (storeMemory r arg) := by
  refine Brings.arch ?_
  split
  · rename_i hm
    exact Intel.keeps_storeMemory hm h harg hfixed
  · rename_i hm
    exact keeps_emitNamed hm h harg fun q hq => Mos.executes_store hm hq
      (Location.isCell_of_isFixed hfixed)

theorem keeps_copyKnown (hdest : ∀ q ∈ dest, s.Serves X q) (hsource : ∀ q ∈ source, s.Serves X q)
    (hne : source ≠ dest) : Keeps K (copyKnown dest source) := by
  have hcopy : Keeps K (copy dest source) := by
    refine Brings.arch ?_
    split
    · rename_i hm
      refine (Intel.cites_regArg hm hdest).bind fun target htarget => ?_
      exact (Intel.cites_regArg hm hsource).bind fun from₀ hfrom => Intel.keeps_mov hm htarget hfrom
    · rename_i hm
      exact Mos.keeps_copy hm hdest hsource hne
  refine (keeps_known? source).bind fun value => hcopy.bind fun _ => ?_
  split
  · exact keeps_present.bind fun r => keeps_setKnown r _
  · exact .pure trivial

/-- **Loading a byte** from a known place that no pointer leads to. -/
theorem keeps_loadDirect (h : ∀ q ∈ r, s.Serves X q) {l : Location} (hl : l.KnownByte K) :
    Keeps K (loadDirect r l) := by
  have hloaded : Keeps K (loadDirect.loaded r) := keeps_present.bind fun _ => keeps_forget
  unfold loadDirect
  split
  · refine (keeps_known? r).bind fun known => .ite (.pure trivial) ?_
    refine (keeps_loadImmediate h Arg.known_imm rfl).bind fun _ => ?_
    exact keeps_present.bind fun q => (keeps_setKnown q _).bind fun _ => hloaded
  · rename_i n o p hplace
    exact (keeps_loadImmediate h (Arg.known_symbol.mpr (hl.symbol n o p hplace)) rfl).bind fun _ =>
      hloaded
  · rename_i q hplace
    split
    · exact Brings.pure trivial
    · rename_i hne
      refine (keeps_copyKnown h ?_ (by simpa using hne)).bind fun _ => hloaded
      rintro u rfl
      exact hl.register u hplace
  · rename_i n o home hplace
    exact (keeps_loadMemory h (Arg.known_mem.mpr (hl.memory n o home hplace)) rfl).bind fun _ =>
      hloaded
  · exact .throw _
  · exact .throw _

/-- **Storing a byte** to a known place that no pointer leads to. -/
theorem keeps_storeDirect (h : ∀ q ∈ r, s.Serves X q) {l : Location} (hl : l.KnownByte K) :
    Keeps K (storeDirect r l) := by
  have hwritten : Keeps K (written l) := keeps_written
  unfold storeDirect
  split
  · rename_i d hplace
    split
    · exact hwritten
    · rename_i hne
      refine (keeps_copyKnown ?_ h fun heq => hne (by simp [heq])).bind fun _ => hwritten
      rintro u rfl
      exact hl.register u hplace
  · rename_i n o home hplace
    exact (keeps_storeMemory h (Arg.known_mem.mpr (hl.memory n o home hplace)) rfl).bind fun _ =>
      hwritten
  · exact .throw _

end Build

end Bytes

/-- A way to load and a way to store a byte, for registers that serve and known locations. -/
structure Access.Informed (s : Site) (X : Prop) (c : Access) : Prop where
  load : ∀ {D : List String} (K : Vocabulary s D X) r l, (∀ q ∈ r, s.Serves X q) → l.KnownByte K →
    Build.Keeps K (c.load r l)
  store : ∀ {D : List String} (K : Vocabulary s D X) r l, (∀ q ∈ r, s.Serves X q) → l.KnownByte K →
    Build.Keeps K (c.store r l)

section Words

variable {s : Site} {D : List String} {X : Prop} {K : Vocabulary s D X} {dest source : Location}

open Build

theorem Build.informed_direct : direct.Informed s X :=
  ⟨fun _ _ _ h hl => keeps_loadDirect h hl, fun _ _ _ h hl => keeps_storeDirect h hl⟩

/-! ### Words -/

/-- Moving a word to memory with the wide accumulator. -/
theorem Mos.keeps_moveWide (hm : s.target.arch ≠ .i8080) (hdest : dest.Known K)
    (hsource : source.Known K) :
    Keeps K (Mos.moveWide dest source) := by
  unfold Mos.moveWide
  split
  · exact .pure _
  rename_i hkinds
  have hkinds : (dest.isMemory = true ∧ dest.width = 2) ∧ source.isWide = true := by
    simpa [Location.isWordMemory, not_or] using hkinds
  refine (cites_argOf hdest.toNamed).bind fun d hd => ?_
  have hcell : d.isCell = true := Location.isCell_of_isFixed (Location.isFixed_arg hkinds.1.1 hd.2)
  split
  · refine Keeps.bind (keeps_emitAll (Mos.known_wide hm ?_)) fun _ => .pure trivial
    intro i hi
    obtain rfl := List.mem_singleton.mp hi
    exact Mos.known_mos hm (by simpa using hd.1) ((takes_one _ d).trans hcell)
  refine (brings_reserve (Mos.mem_registers hm (by decide))).bind fun held K' hle hheld => ?_
  refine (cites_argOf (hsource.toNamed.mono hle)).bind fun a ha => ?_
  refine Keeps.bind (keeps_emitAll (Mos.known_wide hm ?_)) fun _ => ?_
  · intro i hi
    fin_cases hi
    · exact Mos.known_mos hm (by simpa using ha.1)
        ((takes_one _ a).trans (Location.isValue_arg hkinds.2 ha.2))
    · exact Mos.known_mos hm (by simpa using hd.1.mono hle) ((takes_one _ d).trans hcell)
  · exact (keeps_release hheld).returns

theorem Intel.cites_pairAt? (hl : dest.Known K) :
    Cites K (Intel.pairAt? dest) fun p => ∀ q ∈ p, q ∈ s.target.arch.registers := by
  unfold Intel.pairAt?
  split
  · rename_i r hplace
    refine (cites_present (P := fun q => r = some q) fun _ h => h).bind ?_
    rintro q rfl
    refine .pure fun u hu => ?_
    split at hu
    · cases hu
      exact (hl.register _ hplace).1
    · cases hu
  · exact Brings.pure (by simp)

/-- The operand that names a pair. -/
theorem Intel.cites_pairArg (hm : s.target.arch = .i8080) {p : Register}
    (hp : p ∈ s.target.arch.registers) :
    Cites K (Build.ofExcept (Intel.pairArg p)) fun a => a.Known K.names ∧
      a.isReg Intel.pairOperands = true :=
  cites_ofExcept fun _ ha => ⟨Intel.known_pairArg ha, Arch.isReg_pairArg (hm ▸ hp) ha⟩

/-- Moving a word by an instruction for pairs. -/
theorem Intel.keeps_movePair (hm : s.target.arch = .i8080) (hdest : dest.Known K)
    (hsource : source.Known K) :
    Keeps K (Intel.movePair dest source) := by
  refine (Intel.cites_pairAt? hdest).bind fun p hp => ?_
  split
  · rename_i p himmediate
    refine (Intel.cites_pairArg hm (hp p rfl)).bind fun a ha =>
      (cites_argOf hsource.toNamed).bind fun v hv => ?_
    refine Keeps.bind (keeps_emitIntel hm (by simp [ha.1, hv.1]) fun _ => ?_) fun _ => .pure trivial
    exact (takes_two _ _ a v).trans (by simp [ha.2, Location.isConstant_arg himmediate hv.2])
  split
  · rename_i hmemory
    have hmemory : source.isMemory = true := by simp_all
    refine (cites_argOf hsource.toNamed).bind fun v hv => ?_
    refine Keeps.bind (keeps_emitIntel hm (by simpa using hv.1) fun _ => ?_) fun _ => .pure trivial
    exact (takes_one _ v).trans (Location.isFixed_arg hmemory hv.2)
  split
  · rename_i hmemory
    have hmemory : dest.isMemory = true := by simp_all
    refine (cites_argOf hdest.toNamed).bind fun v hv => ?_
    refine Keeps.bind (keeps_emitIntel hm (by simpa using hv.1) fun _ => ?_) fun _ => .pure trivial
    exact (takes_one _ v).trans (Location.isFixed_arg hmemory hv.2)
  · exact .pure trivial

/-- Moving a word by an instruction of the machine, if it has one. -/
theorem Build.keeps_nativeMove (hdest : dest.Known K) (hsource : source.Known K) :
    Keeps K (nativeMove dest source) := by
  refine Brings.arch ?_
  split
  · exact .pure trivial
  · rename_i hm
    exact Mos.keeps_moveWide (by simp [hm]) hdest hsource
  · rename_i hm
    exact Intel.keeps_movePair hm hdest hsource

theorem Build.cites_preferKnown (candidates : List Register) (v : Int) :
    Cites K (preferKnown candidates v) fun cs => ∀ r ∈ cs, r ∈ candidates := by
  refine .read (.draft fun d => .pure fun r hr => ?_)
  exact (List.mem_append.mp hr).elim List.mem_of_mem_filter List.mem_of_mem_filter

theorem Build.keeps_signFill : Keeps K signFill := by
  refine Brings.arch ?_
  split
  · rename_i hm
    exact keeps_emitAllIntel hm (by simp) rfl
  · rename_i hm
    exact keeps_emitAllMos hm (by simp) rfl

/-- Bytes are moved through byte registers. -/
theorem Arch.mem_bytes_transfer {m : Arch} {dest source : Location} :
    ∀ r ∈ m.transfer dest source, r ∈ m.bytes := by
  intro r hr
  cases m with
  | i8080 =>
    exact (by decide : ∀ r ∈ [Intel.a, Intel.e, Intel.d, Intel.c, Intel.b], r ∈ Arch.bytes .i8080) r
      hr
  | _ =>
    have hall : ∀ r ∈ [Mos.a, Mos.x, Mos.y], r ∈ Arch.bytes .mos6502 := by decide
    simp only [transfer] at hr
    split at hr
    · obtain rfl := List.mem_singleton.mp hr
      exact hall _ (.head _)
    · exact hall r hr

/-- The registers through which a byte is moved are taken. -/
theorem Build.brings_transfer {candidates : List Register}
    (h : ∀ r ∈ candidates, r ∈ s.target.arch.transfer dest source) (avoid : List Location) :
    Brings K (reserveAny candidates avoid) fun x K' => (∀ q ∈ some x.1, s.Serves X q) ∧
      x.2.Known K' := by
  have hmem : ∀ r ∈ candidates, s.Serves X r :=
    fun r hr => Site.serves_of_mem_bytes (Arch.mem_bytes_transfer r (h r hr))
  refine (brings_reserveAny (fun r hr => (hmem r hr).1) avoid).mono ?_
  rintro ⟨t, res⟩ K' - ⟨ht, hres⟩
  refine ⟨?_, hres⟩
  rintro _ ⟨⟩
  exact hmem t ht

namespace Access

variable {c : Access}

/-- Moving a byte between known places. -/
theorem Informed.moveByte (hc : c.Informed s X) (hdest : dest.KnownByte K)
    (hsource : source.KnownByte K) :
    Keeps K (c.moveByte dest source) := by
  unfold Access.moveByte
  split
  · exact .pure _
  split
  · rename_i r hplace
    exact hc.load K _ _ (fun q hq => hdest.register q (by rw [hplace, hq])) hsource
  · rename_i r hplace _
    exact hc.store K _ _ (fun q hq => hsource.register q (by rw [hplace, hq])) hdest
  refine Brings.arch ?_
  have hrelay : ∀ candidates : List Register,
    (∀ r ∈ candidates, r ∈ s.target.arch.transfer dest source) → Keeps K (do
        let x ← reserveAny candidates [dest, source]
        c.load (some x.1) source
        c.store (some x.1) dest
        release x.2) := by
    intro candidates hcandidates
    refine (brings_transfer hcandidates _).bind ?_
    rintro ⟨t, res⟩ K' hle ⟨ht, hres⟩
    refine (hc.load K' _ _ ht (hsource.mono hle)).bind fun _ => ?_
    exact (hc.store K' _ _ ht (hdest.mono hle)).bind fun _ => keeps_release hres
  split
  · exact (cites_preferKnown _ _).bind fun cs hcs => hrelay cs hcs
  · exact hrelay _ fun _ hr => hr

/-- Moving a word byte by byte. -/
theorem Informed.moveHalves (hc : c.Informed s X) (hdest : dest.Known K)
    (hsource : source.Known K) :
    Keeps K (c.moveHalves dest source) := by
  -- the first byte stays pinned while the second one is moved
  have hsecond : ∀ {K : Vocabulary s D X} (first second from₂ : Location), second.KnownByte K →
    from₂.KnownByte K → Keeps K (do
        let held ← pinAt first
        c.moveByte second from₂
        unpin held
        forget dest) := by
    intro K first second from₂ hsecond hfrom
    refine cites_pinAt.bind fun held hheld => (hc.moveByte hsecond hfrom).bind fun _ => ?_
    exact (keeps_unpin hheld).bind fun _ => keeps_forget
  refine (cites_byteOf hdest).bind fun low hlow => (cites_byteOf hdest).bind fun high hhigh => ?_
  refine (cites_byteOf hsource).bind fun sourceLow hlow' => ?_
  refine (cites_byteOf hsource).bind fun sourceHigh hhigh' => ?_
  split
  · exact (hc.moveByte hlow.2 hlow'.2).bind fun _ => hsecond _ _ _ hhigh.2 hhigh'.2
  · exact (hc.moveByte hhigh.2 hhigh'.2).bind fun _ => hsecond _ _ _ hlow.2 hlow'.2
  · refine brings_temporary.bind fun t K' hle ht =>
      (hc.moveByte ht.2.1 (hhigh'.2.mono hle)).bind fun _ => ?_
    exact (hc.moveByte (hlow.2.mono hle) (hlow'.2.mono hle)).bind fun _ =>
      hsecond _ _ _ (hhigh.2.mono hle) ht.2.1

theorem Informed.movePlainWord (hc : c.Informed s X) (hdest : dest.Known K)
    (hsource : source.Known K) :
    Keeps K (c.movePlainWord dest source) := by
  unfold Access.movePlainWord
  split
  · exact .pure _
  refine (keeps_nativeMove hdest hsource).bind fun moved => ?_
  exact Brings.ite keeps_written (hc.moveHalves hdest hsource)

/-- Taking the accumulator for a byte. -/
theorem Informed.loadAccumulator (hc : c.Informed s X) (hsource : source.Known K) :
    Brings K (c.loadAccumulator source) fun res K' => res.Known K' := by
  refine .accumulator ?_
  refine (brings_reserveFor (Arch.mem_registers_accumulator _)).bind fun res K' hle hres => ?_
  refine (cites_byteOf (hsource.mono hle)).bind fun byte hbyte => ?_
  have hacc : (Location.ofRegister s.target.arch.accumulator).KnownByte K' :=
    Location.knownByte_ofRegister (serves_accumulator _ rfl)
  exact (hc.moveByte hacc hbyte.2).bind fun _ => .pure hres

/-- Extending a signed byte to a word that does not hold the accumulator. -/
theorem Informed.extendApart (hc : c.Informed s X) (hdest : dest.Known K)
    (hsource : source.Known K) :
    Keeps K (c.extendApart dest source) := by
  refine Brings.accumulator ((hc.loadAccumulator hsource).bind fun res K' hle hres => ?_)
  have hdest := hdest.mono hle
  refine (cites_byteOf hdest).bind fun low hlow => ?_
  refine (hc.store K' _ _ serves_accumulator hlow.2).bind fun _ => ?_
  refine cites_pinAt.bind fun held hheld => keeps_signFill.bind fun _ => ?_
  refine (cites_byteOf hdest).bind fun high hhigh => ?_
  refine (hc.store K' _ _ serves_accumulator hhigh.2).bind fun _ => ?_
  exact (keeps_unpin hheld).bind fun _ => keeps_release hres

theorem Informed.extend (hc : c.Informed s X) (hdest : dest.Known K) (hsource : source.Known K) :
    Keeps K (c.extend dest source) := by
  refine Brings.arch ?_
  split
  · refine brings_temporary.bind fun t K' hle ht => ?_
    exact (hc.extendApart ht.1 (hsource.mono hle)).bind fun _ =>
      hc.movePlainWord (hdest.mono hle) ht.1
  · exact hc.extendApart hdest hsource

theorem Informed.moveWord (hc : c.Informed s X) (hdest : dest.Known K) (hsource : source.Known K) :
    Keeps K (c.moveWord dest source) := by
  unfold Access.moveWord
  split
  · exact .pure _
  · exact Brings.ite (hc.extend hdest hsource) (hc.movePlainWord hdest hsource)

/-- **Moving a value** between known locations. -/
theorem Informed.move (hc : c.Informed s X) (hdest : dest.Known K) (hsource : source.Known K) :
    Keeps K (c.move dest source) := by
  unfold Access.move
  split
  · rename_i hwidth
    have hwidth : dest.width = 1 := by simpa using hwidth
    exact (cites_byteOf hsource).bind fun byte hbyte =>
      hc.moveByte (hdest.knownByte fun _ => by omega) hbyte.2
  · exact hc.moveWord hdest hsource

end Access

end Words

/-! ### Pointers -/

/-- **A pointer that is ready to be followed**, with known symbols in what its reservations keep
back. -/
structure Reached.Known {s : Site} {D : List String} {X : Prop} (K : Vocabulary s D X)
    (p : Reached) : Prop where
  register : p.register ∈ s.target.arch.registers ∧ p.register.isPointer = true
  held : ∀ h ∈ p.held, h.1.Known K ∧ h.2.Known K

section Pointers

variable {s : Site} {D : List String} {X : Prop} {K : Vocabulary s D X} {r : Option Register}
  {l : Location} {p : Reached}

open Build

theorem Arch.mem_registers_pointerScratch {m : Arch} : ∀ r ∈ m.pointerScratch, r ∈ m.registers := by
  cases m <;> decide

theorem Arch.isPointer_pointerScratch {m : Arch} : ∀ r ∈ m.pointerScratch, r.isPointer = true := by
  cases m <;> decide

/-- **Making a pointer ready.** -/
theorem Build.brings_pointer (hl : l.Named K) : Brings K (pointer l) fun p K' => p.Known K' := by
  unfold pointer
  split
  case h_2 => exact .throw _
  rename_i v base offset hplace
  obtain ⟨hbase, hv⟩ := hl.pointer v base offset hplace
  -- once a register holds the pointer, it is moved if the byte is out of its window
  have hready : ∀ {K : Vocabulary s D X} (p : Register) (owner : Option Variable)
      (held : Option (Reservation × Reservation)), p ∈ s.target.arch.registers ∧
        p.isPointer = true →
      (∀ h ∈ held, h.1.Known K ∧ h.2.Known K) →
      Brings K (do
        let index := Bits.wrap (offset - (← draft).offset p)
        if (← arch).inWindow index then return Reached.mk p index held
        adjust p index
        modifyDraft (·.setOffset p ⟨offset, owner⟩)
        return Reached.mk p 0 held) fun p K' => p.Known K' := by
    intro K p owner held hp hheld
    refine .draft fun d => .arch ?_
    split
    · exact .pure ⟨hp, hheld⟩
    · exact (keeps_adjust hp _).bind fun _ => (keeps_setOffset hp _).bind fun _ => .pure ⟨hp, hheld⟩
  split
  · rename_i p hp
    obtain ⟨hp, hpointer⟩ := Option.filter_eq_some_iff.mp hp
    have hmem : p ∈ s.target.arch.registers := (hv.register p (hbase ▸ hp)).1
    exact .observes (g := fun _ => (p, some v, none)) (fun _ => rfl) fun _ _ _ =>
      hready _ _ none ⟨hmem, hpointer⟩ (by simp)
  · refine .arch ((brings_reserveAny Arch.mem_registers_pointerScratch _).bind ?_)
    rintro ⟨p, res⟩ K' hle ⟨hp, hres⟩
    have hmem := Arch.mem_registers_pointerScratch p hp
    refine (keeps_dropOffset p).bind fun _ => (cites_locate _).bind ?_
    rintro _ rfl
    have hwhole : (Operand.whole v).Known K' := by
      refine ⟨?_, by rintro _ ⟨⟩, fun _ => by simp [Operand.whole, Operand.isOwn]⟩
      rintro _ ⟨⟩
      exact hv.mono hle
    refine (informed_direct.move (Location.known_ofRegister hmem) hwhole.located).bind fun _ => ?_
    refine cites_pin.bind fun held hheld => ?_
    refine .observes (g := fun _ => (p, none, some (held, res))) (fun _ => rfl) fun _ _ _ => ?_
    refine hready _ _ _ ⟨hmem, Arch.isPointer_pointerScratch p hp⟩ ?_
    rintro _ ⟨⟩
    exact ⟨hheld, hres⟩

/-- **Giving a pointer back.** -/
theorem Build.keeps_done (h : p.Known K) : Keeps K (done p) := by
  obtain ⟨register, index, held⟩ := p
  cases held with
  | none => exact .pure ()
  | some pair =>
    obtain ⟨hpin, hres⟩ := h.held pair rfl
    exact (keeps_dropOffset register).bind fun _ => (keeps_release hpin).bind fun _ =>
      keeps_release hres

theorem Reached.Known.mono {K' : Vocabulary s D X} (h : p.Known K) (hle : K ≤ K') : p.Known K' :=
  ⟨h.register, fun x hx => ⟨(h.held x hx).1.mono hle, (h.held x hx).2.mono hle⟩⟩

namespace Mos

variable (hm : s.target.arch ≠ .i8080)

include hm

theorem serves_y : ∀ q ∈ some y, s.Serves X q := by
  rintro _ ⟨⟩
  exact Site.serves_of_mem_bytes (mem_bytes_y hm)

/-- An instruction on the byte behind a known pointer. -/
theorem keeps_indexed {op : String} (hop : executes ⟨op, [.ind p.register.address "y"]⟩ = true)
    (hp : p.Known K) :
    Keeps K (indexed op p) := by
  refine (keeps_loadDirect (serves_y hm) (Location.knownByte_immediate _)).bind fun _ => ?_
  refine keeps_emitMos hm ?_ fun _ => hop
  simpa using K.mem_address_pointer hm hp.register.1 hp.register.2

theorem brings_reserveA : Brings K (reserve a) fun res K' => res.Known K' :=
  brings_reserve (mem_registers hm (by decide))

theorem brings_reserveY : Brings K (reserve y) fun res K' => res.Known K' :=
  brings_reserve (mem_registers hm (by decide))

/-- Loading through a pointer. -/
theorem keeps_loadIndirect (h : ∀ q ∈ r, s.Serves X q) (hp : p.Known K) :
    Keeps K (loadIndirect r p) := by
  unfold loadIndirect
  split
  · refine (brings_reserveY hm).bind fun held K' hle hheld => ?_
    exact (keeps_indexed hm rfl (hp.mono hle)).bind fun _ => keeps_release hheld
  rename_i hra
  split
  · refine (brings_reserveA hm).bind fun held K' hle hheld =>
      (keeps_indexed hm rfl (hp.mono hle)).bind fun _ => ?_
    exact (keeps_emitMos hm (by simp) fun _ => rfl).bind fun _ => keeps_release hheld
  · refine (brings_reserveA hm).bind fun heldA K₁ hle₁ hheldA => ?_
    refine (brings_reserveY hm).bind fun heldY K₂ hle₂ hheldY => ?_
    refine (keeps_indexed hm rfl (hp.mono (hle₁.trans hle₂))).bind fun _ =>
      (keeps_release hheldY).bind fun _ => ?_
    refine (cites_byteName h).bind ?_
    rintro _ ⟨q, hq, rfl, rfl⟩
    refine Keeps.bind (keeps_emitMos hm (by simp) fun x => ?_) fun _ =>
      keeps_release (hheldA.mono hle₂)
    exact executes_fromA hm (hq.2 x) fun hqa => hra (by simp [hqa])

theorem keeps_storeIndirect (h : ∀ q ∈ r, s.Serves X q) (hp : p.Known K) :
    Keeps K (storeIndirect r p) := by
  unfold storeIndirect
  split
  · refine (brings_reserveY hm).bind fun held K' hle hheld => ?_
    exact (keeps_indexed hm rfl (hp.mono hle)).bind fun _ => keeps_release hheld
  · rename_i hra
    refine (brings_reserveA hm).bind fun heldA K₁ hle₁ hheldA => (cites_byteName h).bind ?_
    rintro _ ⟨q, hq, rfl, rfl⟩
    refine Keeps.bind (keeps_emitMos hm (by simp) fun x => ?_) fun _ => ?_
    · exact executes_toA hm (hq.2 x) fun hqa => hra (by simp [hqa])
    refine (brings_reserveY hm).bind fun heldY K₂ hle₂ hheldY => ?_
    refine (keeps_indexed hm rfl (hp.mono (hle₁.trans hle₂))).bind fun _ =>
      (keeps_release hheldY).bind fun _ => ?_
    exact keeps_release (hheldA.mono hle₂)

end Mos

namespace Build

/-- **Loading a byte through a pointer** that is made ready for it. -/
theorem keeps_loadThrough (h : ∀ q ∈ r, s.Serves X q) (hl : l.Named K) :
    Keeps K (loadThrough r l) := by
  refine (brings_pointer hl).bind fun p K' _ hp => .arch ?_
  have hforget : Keeps K' (do
      done p
      forget (.ofRegister (← present r))) :=
    (keeps_done hp).bind fun _ => keeps_present.bind fun _ => keeps_forget
  split
  · rename_i hm
    refine (Intel.cites_regArg hm h).bind fun target htarget => ?_
    exact (Intel.keeps_mov hm htarget Intel.known_mArg).bind fun _ => hforget
  · rename_i hm
    exact (Mos.keeps_loadIndirect hm h hp).bind fun _ => hforget

/-- **Storing a byte through a pointer.** -/
theorem keeps_storeThrough (h : ∀ q ∈ r, s.Serves X q) (hl : l.Named K) :
    Keeps K (storeThrough r l) := by
  refine (brings_pointer hl).bind fun p K' _ hp => .arch ?_
  have hwritten : Keeps K' (do
      done p
      written l) := (keeps_done hp).bind fun _ => keeps_written
  split
  · rename_i hm
    refine (Intel.cites_regArg hm h).bind fun from₀ hfrom => ?_
    exact (Intel.keeps_mov hm Intel.known_mArg hfrom).bind fun _ => hwritten
  · rename_i hm
    exact (Mos.keeps_storeIndirect hm h hp).bind fun _ => hwritten

theorem cites_overlapping? (r : Option Register) (l : Location) :
    Cites K (overlapping? r l) fun o => ∀ q ∈ o, q ∈ r := by
  unfold overlapping?
  split
  · refine Brings.ite (.pure (by simp)) (.arch (.pure fun q hq => ?_))
    exact Option.eq_some_of_filter_eq_some hq
  · exact Brings.pure (by simp)

/-- A register that overlaps the scratch pointer is loaded by way of another one. -/
theorem keeps_loadByte (h : ∀ q ∈ r, s.Serves X q) (hl : l.KnownByte K) :
    Keeps K (loadByte r l) := by
  unfold loadByte
  split
  · exact keeps_loadDirect h hl
  refine (cites_overlapping? r l).bind fun overlap hoverlap => ?_
  split
  · exact keeps_loadThrough h hl.toNamed
  · rename_i q
    refine .arch ((brings_transfer (fun _ hr => hr) _).bind ?_)
    rintro ⟨t, res⟩ K' hle ⟨ht, hres⟩
    refine (keeps_loadThrough ht (hl.toNamed.mono hle)).bind fun _ => ?_
    refine (keeps_loadDirect ?_ (Location.knownByte_ofRegister (ht t rfl))).bind fun _ =>
      keeps_release hres
    exact fun u hu => h u (hoverlap u hu)

theorem keeps_storeByte (h : ∀ q ∈ r, s.Serves X q) (hl : l.KnownByte K) :
    Keeps K (storeByte r l) := by
  unfold storeByte
  split
  · exact keeps_storeDirect h hl
  refine (cites_overlapping? r l).bind fun overlap hoverlap => ?_
  split
  · exact keeps_storeThrough h hl.toNamed
  · rename_i q
    have hq : s.Serves X q := h q (hoverlap q rfl)
    refine .arch ((brings_transfer (fun _ hr => hr) _).bind ?_)
    rintro ⟨t, res⟩ K' hle ⟨ht, hres⟩
    refine (keeps_loadDirect ht (Location.knownByte_ofRegister hq)).bind fun _ => ?_
    exact (keeps_storeThrough ht (hl.toNamed.mono hle)).bind fun _ => keeps_release hres

/-- **Loading and storing bytes anywhere.** -/
theorem informed_full : full.Informed s X :=
  ⟨fun _ _ _ h hl => keeps_loadByte h hl, fun _ _ _ h hl => keeps_storeByte h hl⟩

variable {dest source : Location}

theorem keeps_moveByte (hdest : dest.KnownByte K) (hsource : source.KnownByte K) :
    Keeps K (moveByte dest source) :=
  informed_full.moveByte hdest hsource

theorem keeps_move (hdest : dest.Known K) (hsource : source.Known K) : Keeps K (move dest source) :=
  informed_full.move hdest hsource

theorem keeps_extend (hdest : dest.Known K) (hsource : source.Known K) :
    Keeps K (extend dest source) :=
  informed_full.extend hdest hsource

/-- Taking a register and loading it. -/
theorem brings_reserveLoad {q : Register} (hq : q ∈ s.target.arch.registers) (hl : l.Known K) :
    Brings K (reserveLoad q l) fun res K' => res.Known K' :=
  (brings_reserveFor hq).bind fun _ _ hle hres =>
    (keeps_move (Location.known_ofRegister hq) (hl.mono hle)).bind fun _ => .pure hres

theorem brings_toTemporaryByte (h : ∀ q ∈ r, s.Serves X q) :
    Brings K (toTemporaryByte r) fun t K' => t.KnownByte K' ∧ t.isMemory = true :=
  brings_temporary.bind fun _ _ _ ht => (keeps_storeByte h ht.2.1).bind fun _ => .pure ht.2

/-- A temporary is known once it was asked for. -/
theorem brings_toTemporary (hl : l.Known K) :
    Brings K (toTemporary l) fun t K' => t.Known K' ∧ t.KnownByte K' ∧ t.isMemory = true :=
  brings_temporary.bind fun _ _ hle ht => (keeps_move ht.1 (hl.mono hle)).bind fun _ => .pure ht

/-- Loading two registers in an order in which neither load destroys the other source. -/
theorem keeps_loadTwo {q u : Register} (hq : q ∈ s.target.arch.registers)
    (hu : u ∈ s.target.arch.registers)
    (hdest : dest.Known K) (hsource : source.Known K) : Keeps K (loadTwo q dest u source) := by
  -- the register that is loaded first stays pinned while the other one is loaded
  have hpinned : ∀ {K : Vocabulary s D X} (r : Register) {a b : Location}, a.Known K → b.Known K →
      Keeps K (do
        let held ← pin (some r)
        move a b
        release held) := by
    intro K r a b ha hb
    exact cites_pin.bind fun held hheld => (keeps_move ha hb).bind fun _ => keeps_release hheld
  have hq : ∀ {K : Vocabulary s D X}, (Location.ofRegister q).Known K :=
    Location.known_ofRegister hq
  have hu : ∀ {K : Vocabulary s D X}, (Location.ofRegister u).Known K :=
    Location.known_ofRegister hu
  unfold loadTwo
  dsimp only
  split
  · exact (keeps_move hq hdest).bind fun _ => hpinned _ hu hsource
  split
  · exact (keeps_move hu hsource).bind fun _ => hpinned _ hq hdest
  · exact (brings_toTemporary hsource).bind fun t K' hle ht =>
      (keeps_move hq (hdest.mono hle)).bind fun _ => hpinned _ hu ht.1

end Build

end Pointers

end Octet
