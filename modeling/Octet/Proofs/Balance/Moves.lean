import Octet.Proofs.Balance.Reserving

/-!
# Moves are balanced

Moving a value takes registers to relay it, pointers to reach it, and pins on what has arrived
already, and gives all of them back. The moves are written over a way to load and a way to store a
byte, so that they are neutral if these are; following a pointer needs moves itself, and is neutral
by the moves that do not follow any.

## Main results

* `Access.Neutral.move` — moving a value by a neutral access
* `Build.balanced_pointer`, `Build.balanced_done` — following a pointer
* `Build.neutral_full` — loading and storing bytes anywhere
-/

namespace Octet

open Assembly

/-! ### Mnemonics made of register names -/

/-- Loads, stores and transfers of the 6502 family are named after their register; none of them
moves the stack or transfers control. -/
theorem plain_load (name : String) : "ld" ++ name ∉ specialOps := plain_append (by decide) name

theorem plain_store (name : String) : "st" ++ name ∉ specialOps := plain_append (by decide) name

theorem plain_fromA (name : String) : "ta" ++ name ∉ specialOps := plain_append (by decide) name

theorem plain_toA (name : String) : "t" ++ name ++ "a" ∉ specialOps := by
  rw [String.append_assoc]
  exact plain_append (by decide) _

section Bytes

variable {s : Site} {R : List Reservation} {P : List (String × Level)}
  {r : Option Register} {m : Arg}

open Build

/-! ### Bytes -/

/-- A copy between two index registers goes through the accumulator, which is saved around it. -/
theorem Mos.neutral_copy {dest source : Option Register} : Neutral s (Mos.copy dest source) := by
  unfold Mos.copy
  split
  · exact ((plain_nameOf source).bind fun name => plain_emit (plain_toA name)).neutral
  split
  · exact ((plain_nameOf dest).bind fun name => plain_emit (plain_fromA name)).neutral
  intro R P
  refine balanced_reserve.bind fun held => ?_
  refine (plain_nameOf source _).bind fun name => (plain_emit (plain_toA name) _).bind fun _ => ?_
  refine (plain_nameOf dest _).bind fun name => (plain_emit (plain_fromA name) _).bind fun _ => ?_
  exact balanced_release

theorem Intel.plain_regArg : Plain s (Intel.regArg r) :=
  (plain_nameOf r).bind fun _ => .pure _

/-- On the 8080 only the accumulator is loaded from an address; other registers are loaded through
it. -/
theorem Intel.neutral_loadMemory : Neutral s (Intel.loadMemory r m) := by
  unfold Intel.loadMemory
  split
  · exact (plain_emit (by decide)).neutral
  intro R P
  refine balanced_reserve.bind fun held => (plain_emit (by decide) _).bind fun _ => ?_
  refine (Intel.plain_regArg _).bind fun arg => (plain_emit (by decide) _).bind fun _ => ?_
  exact balanced_release

/-- Stores go through the accumulator as well. -/
theorem Intel.neutral_storeMemory : Neutral s (Intel.storeMemory r m) := by
  unfold Intel.storeMemory
  split
  · exact (plain_emit (by decide)).neutral
  intro R P
  refine balanced_reserve.bind fun held => (Intel.plain_regArg _).bind fun arg => ?_
  refine (plain_emit (by decide) _).bind fun _ => (plain_emit (by decide) _).bind fun _ => ?_
  exact balanced_release

namespace Build

/-- Loading a constant or an address needs no other register. -/
theorem plain_loadImmediate {value : Arg} : Plain s (loadImmediate r value) := by
  refine fun k => .arch ?_
  split
  · exact ((Intel.plain_regArg).bind fun _ => plain_emit (by decide)) k
  · exact ((plain_nameOf r).bind fun name => plain_emit (plain_load name)) k

theorem neutral_loadMemory : Neutral s (loadMemory r m) := by
  refine fun R P => .arch ?_
  split
  · exact Intel.neutral_loadMemory R P
  · exact ((plain_nameOf r).bind fun name => plain_emit (plain_load name)).neutral R P

theorem neutral_storeMemory : Neutral s (storeMemory r m) := by
  refine fun R P => .arch ?_
  split
  · exact Intel.neutral_storeMemory R P
  · exact ((plain_nameOf r).bind fun name => plain_emit (plain_store name)).neutral R P

theorem neutral_copy {dest source : Option Register} : Neutral s (copy dest source) := by
  refine fun R P => .arch ?_
  split
  · exact ((Intel.plain_regArg).bind fun _ => (Intel.plain_regArg).bind fun _ =>
      plain_emit (by decide)).neutral R P
  · exact Mos.neutral_copy R P

/-- A copy is recorded to hold the constant that its source is known to hold. -/
theorem neutral_copyKnown {dest source : Option Register} : Neutral s (copyKnown dest source) := by
  refine (plain_known?).neutral.bind fun value => neutral_copy.bind fun _ => ?_
  split
  · exact (plain_present.bind fun r => plain_setKnown r _).neutral
  · exact .pure _

theorem plain_loaded : Plain s (loadDirect.loaded r) :=
  plain_present.bind fun _ => plain_forget

/-- **Loading a byte** from a place that no pointer leads to. -/
theorem neutral_loadDirect {source : Location} : Neutral s (loadDirect r source) := by
  have hloaded : Neutral s (loadDirect.loaded r) := plain_loaded.neutral
  unfold loadDirect
  split
  · refine (plain_known?).neutral.bind fun known => .ite (.pure ()) ?_
    refine plain_loadImmediate.neutral.bind fun _ => ?_
    exact plain_present.neutral.bind fun _ => (plain_setKnown _ _).neutral.bind fun _ => hloaded
  · exact plain_loadImmediate.neutral.bind fun _ => hloaded
  · exact .ite (.pure ()) (neutral_copyKnown.bind fun _ => hloaded)
  · exact neutral_loadMemory.bind fun _ => hloaded
  · exact .throw rfl
  · exact .throw rfl

/-- **Storing a byte** to a place that no pointer leads to. -/
theorem neutral_storeDirect {dest : Location} : Neutral s (storeDirect r dest) := by
  have hwritten : Neutral s (written dest) := plain_written.neutral
  unfold storeDirect
  split
  · split
    · exact hwritten
    · exact neutral_copyKnown.bind fun _ => hwritten
  · exact neutral_storeMemory.bind fun _ => hwritten
  · exact .throw rfl

end Build

end Bytes

/-- A way to load and a way to store a byte that leave reservations and their level as they are. -/
structure Access.Neutral (s : Site) (c : Access) : Prop where
  load : ∀ r l, Build.Neutral s (c.load r l)
  store : ∀ r l, Build.Neutral s (c.store r l)

section Words

variable {s : Site} {R : List Reservation} {P : List (String × Level)} {dest source : Location}

open Build

theorem Build.neutral_direct : direct.Neutral s :=
  ⟨fun _ _ => neutral_loadDirect, fun _ _ => neutral_storeDirect⟩

/-! ### Words -/

/-- Code with a wide accumulator, which neither pushes nor pops. -/
theorem Mos.through?_wide {code : List Instr} (h : ∀ i ∈ code, i.op ∉ specialOps) :
    Level.base.through? (Mos.wide code) = some .base := by
  have henter : Level.base.through? [⟨"rep", [.imm 0x20]⟩, ⟨".a16", []⟩] = some ⟨0, true⟩ := rfl
  rw [Mos.wide, Level.through?_append, Level.through?_append, henter, Option.bind_some,
    Level.through?_of_plain h, Option.bind_some]
  rfl

/-- The accumulator is widened and narrowed again around such code. -/
theorem Mos.neutral_wide {code : List Instr} (h : ∀ i ∈ code, i.op ∉ specialOps) :
    Build.Neutral s (emitAll (Mos.wide code)) := neutral_emitAll (Mos.through?_wide h)

/-- A word is copied to memory with the wide accumulator, which is reserved for it unless it is zero
that is stored. -/
theorem Mos.neutral_moveWide : Build.Neutral s (Mos.moveWide dest source) := by
  unfold Mos.moveWide
  split
  · exact .pure _
  refine plain_argOf.neutral.bind fun d => ?_
  split
  · refine (Mos.neutral_wide ?_).bind fun _ => .pure _
    simpa using (by decide : "stz" ∉ specialOps)
  intro R P
  refine balanced_reserve.bind fun held => (plain_argOf _).bind fun arg => ?_
  refine (Mos.neutral_wide ?_ _ _).bind fun _ => balanced_release.bind fun _ => .pure _ rfl
  simpa using ⟨(by decide : "lda" ∉ specialOps), (by decide : "sta" ∉ specialOps)⟩

theorem Intel.plain_pairAt? {l : Location} : Plain s (Intel.pairAt? l) := by
  unfold Intel.pairAt?
  split
  · exact plain_present.bind fun _ => .pure _
  · exact .pure _

/-- Words are moved by `lxi`, `lhld` and `shld`, which need no register to be reserved. -/
theorem Intel.plain_movePair : Plain s (Intel.movePair dest source) := by
  refine (Intel.plain_pairAt?).bind fun p => ?_
  split
  · exact (plain_ofExcept (Intel.harmless_pairArg _)).bind fun _ => plain_argOf.bind fun _ =>
      (plain_emit (by decide)).bind fun _ => .pure _
  split
  · exact plain_argOf.bind fun _ => (plain_emit (by decide)).bind fun _ => .pure _
  split
  · exact plain_argOf.bind fun _ => (plain_emit (by decide)).bind fun _ => .pure _
  · exact .pure _

/-- Moving a word by an instruction of the machine, if it has one. -/
theorem Build.neutral_nativeMove : Build.Neutral s (nativeMove dest source) := by
  refine fun R P => .arch ?_
  split
  · exact .pure _ rfl
  · exact Mos.neutral_moveWide R P
  · exact (Intel.plain_movePair).neutral R P

theorem Build.plain_preferKnown {candidates : List Register} {v : Int} :
    Plain s (preferKnown candidates v) :=
  plain_of_observes fun _ => rfl

theorem Build.plain_signFill : Plain s signFill := by
  refine fun k => .arch ?_
  split
  · exact plain_emitAll (fun _ => rfl) k
  · exact plain_emitAll (fun _ => rfl) k

namespace Access

variable {c : Access}

/-- A byte goes from memory to memory through a register that is reserved for it. -/
theorem Neutral.moveByte (hc : c.Neutral s) : Build.Neutral s (c.moveByte dest source) := by
  unfold Access.moveByte
  split
  · exact .pure _
  split
  · exact hc.load _ _
  · exact hc.store _ _
  intro R P
  refine .arch ?_
  have hrelay : ∀ x : Register × Reservation, Balanced s (.of (x.2 :: R) P) (do
      c.load (some x.1) source
      c.store (some x.1) dest
      release x.2) fun _ => .of R P :=
    fun x => (hc.load _ _ _ _).bind fun _ => (hc.store _ _ _ _).bind fun _ => balanced_release
  split
  · exact (plain_preferKnown _).bind fun _ => (balanced_reserveAny _ _).bind hrelay
  · exact (balanced_reserveAny _ _).bind hrelay

/-- Moving a word byte by byte. -/
theorem Neutral.moveHalves (hc : c.Neutral s) : Build.Neutral s (c.moveHalves dest source) := by
  -- the first byte stays pinned while the second one is moved
  have hsecond : ∀ first second from₂ : Location, Build.Neutral s (do
      let held ← pinAt first
      c.moveByte second from₂
      unpin held
      forget dest) := by
    intro first second from₂ R P
    refine balanced_pinAt.bind fun held => (hc.moveByte _ _).bind fun _ => ?_
    exact balanced_unpin.bind fun _ => plain_forget _
  refine plain_byteOf.neutral.bind fun low => plain_byteOf.neutral.bind fun high => ?_
  refine plain_byteOf.neutral.bind fun sourceLow => plain_byteOf.neutral.bind fun sourceHigh => ?_
  split
  · exact hc.moveByte.bind fun _ => hsecond _ _ _
  · exact hc.moveByte.bind fun _ => hsecond _ _ _
  · refine (plain_temporary 1).neutral.bind fun t => hc.moveByte.bind fun _ => ?_
    exact hc.moveByte.bind fun _ => hsecond _ _ _

theorem Neutral.movePlainWord (hc : c.Neutral s) :
    Build.Neutral s (c.movePlainWord dest source) := by
  unfold Access.movePlainWord
  split
  · exact .pure _
  refine neutral_nativeMove.bind fun moved => ?_
  exact .ite plain_written.neutral hc.moveHalves

/-- The accumulator stays reserved for the byte that is loaded into it. -/
theorem Neutral.loadAccumulator (hc : c.Neutral s) :
    Balanced s (.of R P) (c.loadAccumulator source) fun res => .of (res :: R) P := by
  refine .accumulator (balanced_reserveFor.bind fun res => (plain_byteOf _).bind fun byte => ?_)
  exact (hc.moveByte _ _).bind fun _ => .pure _ rfl

/-- Extending a signed byte to a word that does not hold the accumulator. -/
theorem Neutral.extendApart (hc : c.Neutral s) : Build.Neutral s (c.extendApart dest source) := by
  intro R P
  refine .accumulator (hc.loadAccumulator.bind fun res => (plain_byteOf _).bind fun low => ?_)
  refine (hc.store _ _ _ _).bind fun _ => balanced_pinAt.bind fun held => ?_
  refine (plain_signFill _).bind fun _ => (plain_byteOf _).bind fun high => ?_
  refine (hc.store _ _ _ _).bind fun _ => balanced_unpin.bind fun _ => ?_
  exact balanced_release

/-- A word that holds the accumulator is extended in a temporary. -/
theorem Neutral.extend (hc : c.Neutral s) : Build.Neutral s (c.extend dest source) := by
  refine fun R P => .arch ?_
  split
  · refine (plain_temporary _ _).bind fun t => (hc.extendApart _ _).bind fun _ => ?_
    exact hc.movePlainWord _ _
  · exact hc.extendApart _ _

theorem Neutral.moveWord (hc : c.Neutral s) : Build.Neutral s (c.moveWord dest source) := by
  unfold Access.moveWord
  split
  · exact .pure _
  · exact .ite hc.extend hc.movePlainWord

/-- **Moving a value** leaves reservations and their level as they are. -/
theorem Neutral.move (hc : c.Neutral s) : Build.Neutral s (c.move dest source) := by
  refine .ite ?_ hc.moveWord
  exact plain_byteOf.neutral.bind fun byte => hc.moveByte

end Access

end Words

/-! ### Pointers -/

/-- The reservations that come with a pointer, the last one first. -/
def Reached.reservations (p : Reached) : List Reservation :=
  match p.held with
  | none => []
  | some (held, res) => [held, res]

section Pointers

variable {s : Site} {R : List Reservation} {P : List (String × Level)} {r : Option Register}
  {dest source l : Location}

open Build

/-- **Making a pointer ready** opens the reservations that come with it. -/
theorem Build.balanced_pointer : Balanced s (.of R P) (pointer l) fun p =>
    .of (p.reservations ++ R) P := by
  unfold pointer
  split
  · rename_i v base offset _
    -- once a register holds the pointer, it is moved if the byte is out of its window
    have hready :
      ∀ (p : Register) (owner : Option Variable) (held : Option (Reservation × Reservation)),
        Balanced s (.of (Reached.reservations ⟨p, 0, held⟩ ++ R) P) (do
          let index := Bits.wrap (offset - (← draft).offset p)
          if (← arch).inWindow index then return Reached.mk p index held
          adjust p index
          modifyDraft (·.setOffset p ⟨offset, owner⟩)
          return Reached.mk p 0 held) fun p => .of (p.reservations ++ R) P := by
      intro p owner held
      refine .draft fun d _ => .arch ?_
      split
      · exact .pure _ rfl
      · refine (neutral_adjust p _ _ _).bind fun _ => ?_
        exact .bind (balanced_modifyDraft (fun _ => rfl) fun _ => rfl) fun _ => .pure _ rfl
    split
    · exact .reads (fun _ => rfl) (hready _ _ none)
    · refine .arch ((balanced_reserveAny _ _).bind fun x => ?_)
      refine Balanced.bind (balanced_modifyDraft (fun _ => rfl) fun _ => rfl) fun _ => ?_
      refine (neutral_locate _ _ _).bind fun source => (neutral_direct.move _ _).bind fun _ => ?_
      exact balanced_pin.bind fun held => .reads (fun _ => rfl) (hready x.1 none (some (held, x.2)))
  · exact .throw rfl

/-- **Giving a pointer back** releases them. -/
theorem Build.balanced_done (p : Reached) :
    Balanced s (.of (p.reservations ++ R) P) (done p) fun _ => .of R P := by
  obtain ⟨register, index, held⟩ := p
  cases held with
  | none => exact .pure _ rfl
  | some pair =>
    refine Balanced.bind (balanced_modifyDraft (fun _ => rfl) fun _ => rfl) fun _ => ?_
    exact balanced_release.bind fun _ => balanced_release

/-- The index goes to `y` first. -/
theorem Mos.balanced_indexed {op : String} (hop : op ∉ specialOps) (p : Reached) :
    Build.Neutral s (Mos.indexed op p) :=
  neutral_loadDirect.bind fun _ => (plain_emit hop).neutral

/-- Loading through a pointer reserves `a` and `y`, except for the one that is loaded. -/
theorem Mos.neutral_loadIndirect (p : Reached) : Build.Neutral s (Mos.loadIndirect r p) := by
  have hload : Build.Neutral s (Mos.indexed "lda" p) := Mos.balanced_indexed (by decide) p
  intro R P
  unfold Mos.loadIndirect
  split
  · exact balanced_reserve.bind fun held => (hload _ _).bind fun _ => balanced_release
  split
  · refine balanced_reserve.bind fun held => (hload _ _).bind fun _ => ?_
    exact (plain_emit (by decide) _).bind fun _ => balanced_release
  · refine balanced_reserve.bind fun heldA => balanced_reserve.bind fun heldY => ?_
    refine (hload _ _).bind fun _ => balanced_release.bind fun _ =>
      (plain_nameOf r _).bind fun name => ?_
    exact (plain_emit (plain_fromA name) _).bind fun _ => balanced_release

theorem Mos.neutral_storeIndirect (p : Reached) : Build.Neutral s (Mos.storeIndirect r p) := by
  have hstore : Build.Neutral s (Mos.indexed "sta" p) := Mos.balanced_indexed (by decide) p
  intro R P
  unfold Mos.storeIndirect
  split
  · exact balanced_reserve.bind fun held => (hstore _ _).bind fun _ => balanced_release
  · refine balanced_reserve.bind fun heldA => (plain_nameOf r _).bind fun name => ?_
    refine (plain_emit (plain_toA name) _).bind fun _ => balanced_reserve.bind fun heldY => ?_
    exact (hstore _ _).bind fun _ => balanced_release.bind fun _ => balanced_release

namespace Build

/-- **Loading a byte through a pointer**, which is given back once the byte is there. -/
theorem neutral_loadThrough : Neutral s (loadThrough r source) := by
  intro R P
  have hforget : ∀ p : Reached, Balanced s (.of (p.reservations ++ R) P) (do
      done p
      forget (.ofRegister (← present r))) fun _ => .of R P := by
    intro p
    exact (balanced_done p).bind fun _ => (plain_present _).bind fun _ => plain_forget _
  refine balanced_pointer.bind fun p => .arch ?_
  split
  · exact (Intel.plain_regArg _).bind fun _ => (plain_emit (by decide) _).bind fun _ => hforget p
  · exact (Mos.neutral_loadIndirect p _ _).bind fun _ => hforget p

/-- **Storing a byte through a pointer.** -/
theorem neutral_storeThrough : Neutral s (storeThrough r dest) := by
  intro R P
  have hwritten : ∀ p : Reached, Balanced s (.of (p.reservations ++ R) P) (do
      done p
      written dest) fun _ => .of R P :=
    fun p => (balanced_done p).bind fun _ => plain_written _
  refine balanced_pointer.bind fun p => .arch ?_
  split
  · exact (Intel.plain_regArg _).bind fun _ => (plain_emit (by decide) _).bind fun _ => hwritten p
  · exact (Mos.neutral_storeIndirect p _ _).bind fun _ => hwritten p

theorem plain_overlapping? : Plain s (overlapping? r l) := by
  unfold overlapping?
  split
  · exact .ite (.pure _) fun _ => .arch (.pure _ rfl)
  · exact .pure _

/-- A register that overlaps the scratch pointer is loaded by way of another one. -/
theorem neutral_loadByte : Neutral s (loadByte r source) := by
  unfold loadByte
  split
  · exact neutral_loadDirect
  refine (plain_overlapping?).neutral.bind fun overlap => ?_
  split
  · exact neutral_loadThrough
  · refine fun R P => .arch ((balanced_reserveAny _ _).bind fun x => ?_)
    refine (neutral_loadThrough _ _).bind fun _ => (neutral_loadDirect _ _).bind fun _ => ?_
    exact balanced_release

theorem neutral_storeByte : Neutral s (storeByte r dest) := by
  unfold storeByte
  split
  · exact neutral_storeDirect
  refine (plain_overlapping?).neutral.bind fun overlap => ?_
  split
  · exact neutral_storeThrough
  · refine fun R P => .arch ((balanced_reserveAny _ _).bind fun x => ?_)
    refine (neutral_loadDirect _ _).bind fun _ => (neutral_storeThrough _ _).bind fun _ => ?_
    exact balanced_release

/-- **Loading and storing bytes anywhere.** -/
theorem neutral_full : full.Neutral s := ⟨fun _ _ => neutral_loadByte, fun _ _ => neutral_storeByte⟩

theorem neutral_moveByte : Neutral s (moveByte dest source) :=
  neutral_full.moveByte

theorem neutral_move : Neutral s (move dest source) := neutral_full.move

theorem neutral_extend : Neutral s (extend dest source) :=
  neutral_full.extend

/-- Taking a register and loading it. -/
theorem balanced_reserveLoad {r : Register} :
    Balanced s (.of R P) (reserveLoad r source) fun res => .of (res :: R) P :=
  balanced_reserveFor.bind fun _ => (neutral_move _ _).bind fun _ => .pure _ rfl

theorem neutral_toTemporaryByte : Neutral s (toTemporaryByte r) :=
  (plain_temporary 1).neutral.bind fun _ => neutral_storeByte.bind fun _ => .pure _

/-- A temporary is memory, and nothing is reserved for it. -/
theorem neutral_toTemporary : Neutral s (toTemporary l) :=
  (plain_temporary l.width).neutral.bind fun _ => neutral_move.bind fun _ => .pure _

/-- Loading two registers in an order in which neither load destroys the other source. -/
theorem neutral_loadTwo {r : Register} {a : Location} {q : Register} {b : Location} :
    Neutral s (loadTwo r a q b) := by
  -- the register that is loaded first stays pinned while the other one is loaded
  have hpinned : ∀ (r : Register) (dest source : Location), Neutral s (do
      let held ← pin (some r)
      move dest source
      release held) :=
    fun r dest source R P => balanced_pin.bind fun held => (neutral_move _ _).bind fun _ =>
      balanced_release
  unfold loadTwo
  dsimp only
  split
  · exact neutral_move.bind fun _ => hpinned _ _ _
  split
  · exact neutral_move.bind fun _ => hpinned _ _ _
  · exact neutral_toTemporary.bind fun t => neutral_move.bind fun _ => hpinned _ _ _

end Build

end Pointers

end Octet
