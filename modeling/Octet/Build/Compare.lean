import Octet.Build.Arithmetic

/-!
# Comparisons

A comparison with a constant is first brought into a normal form: `>` and `≤` become `≥` and `<` of
the next constant, a comparison that always or never holds is decided, and one with zero only needs
the flags. The machines compare what is left: bytes in the accumulator, words byte by byte, with a
wide accumulator, or by a runtime routine.

## Main definitions

* `ConstantTest`, `Cond.against` — a comparison with a constant in normal form
* `ZeroTest`, `Cond.againstZero` — a comparison with zero
* `Build.compareBytes`, `Build.compareWords` — comparisons of the machines
* `Build.compare`, `Build.decrementAndJump` — the instructions
-/

namespace Octet

open Assembly

/-! ### Normal forms -/

/-- A comparison with a constant in normal form. -/
inductive ConstantTest where
  | never
  | always
  /-- A comparison with zero. -/
  | zero (cond : Cond)
  /-- A comparison with a constant that is not zero, by a relation other than `>` and `≤`. -/
  | constant (cond : Cond) (k : Int)
  deriving DecidableEq, Repr

/-- The least value of some bits. -/
def leastValue (signed : Bool) (bits : Nat) : Int :=
  if signed then Bits.wrap (-Bits.shifted (bits - 1)) else 0

/-- The greatest value of some bits. -/
def greatestValue (signed : Bool) (bits : Nat) : Int :=
  Bits.wrap (Bits.shifted (if signed then bits - 1 else bits) - 1)

/-- A comparison by a relation other than `>` and `≤` with a constant, once the constant may be the
least value or zero. -/
def Cond.againstBound (c : Cond) (k : Int) (signed : Bool) (bits : Nat) : ConstantTest :=
  let least := leastValue signed bits
  if c == .lt && k == least then .never
  else if c == .ge && k == least then .always
  else if k == 0 then .zero c
  else .constant c k

/-- **The normal form of a comparison with a constant** of some bits. -/
def Cond.against (c : Cond) (k : Int) (signed : Bool) (bits : Nat) : ConstantTest :=
  let greatest := greatestValue signed bits
  if k == 0 then .zero c
  else match c with
    | .gt => if k == greatest then .never else Cond.againstBound .ge (k + 1) signed bits
    | .le => if k == greatest then .always else Cond.againstBound .lt (k + 1) signed bits
    | c => c.againstBound k signed bits

/-- A comparison with zero in normal form. -/
inductive ZeroTest where
  | never
  | always
  | flags (cond : Cond)
  deriving DecidableEq, Repr

/-- The normal form of a comparison with zero. Without a sign nothing is below zero. -/
def Cond.againstZero (c : Cond) (signed : Bool) : ZeroTest :=
  if signed then .flags c
  else match c with
    | .lt => .never
    | .ge => .always
    | .le => .flags .eq
    | .gt => .flags .ne
    | c => .flags c

namespace Build

/-! ### Comparing with zero -/

/-- Branches on a relation to zero that the flags show. -/
def branchOnFlags (cond : Cond) (target : String) : Build Unit := do
  let b := (← arch).branches
  match cond with
  | .eq => branch b.eq target
  | .ne => branch b.ne target
  | .lt => branch b.minus target
  | .ge => branch b.plus target
  | .le =>
    branch b.minus target
    branch b.eq target
  | .gt =>
    let skip ← freshLabel
    branchLocal b.eq skip
    branch b.plus target
    label skip

/-- Tests a byte and branches. -/
def testAndBranch (cond : Cond) (l : Location) (target : String) : Build Unit := do
  let res ← testByte l
  branchOnFlags cond target
  unpin res

/-- The bytes of a word in the order in which they are tested: for equality the low one first, else
the high one. -/
def testOrder (cond : Cond) (l : Location) : Build (Location × Location) := do
  if cond.isOrder then return (← byteOf l 1, ← byteOf l 0)
  return (← byteOf l 0, ← byteOf l 1)

/-- Tests the accumulator unless the flags show it. -/
def testAccumulator : Build Unit := do
  let acc := Location.ofRegister (← accumulator)
  unless ← flagsShow acc do discard (testInPlace acc)

/-- Branches on the relation of a word to zero by both its bytes. A variable in the accumulator that
is still needed is kept. -/
def branchZeroBothBytes (cond : Cond) (l : Location) (target : String) : Build Unit := do
  let site ← read
  let b := (← arch).branches
  let acc ← accumulator
  let needed := (site.dying l).isNone || site.variableAt l == site.dest?
  let keep ← if l.uses acc && needed then some <$> pin (some acc) else pure none
  let (first, second) ← testOrder cond l
  let (first, second) ← if second.uses acc then testOrder cond (← toTemporary l)
    else pure (first, second)
  let res ← reserveLoad acc first
  match cond with
  | .eq | .ne =>
    operateWith .or false second
    branchOnFlags cond target
  | .le =>
    testAccumulator
    branch b.minus target
    operateWith .or false second
    branch b.eq target
  | .gt =>
    testAccumulator
    let skip ← freshLabel
    branchLocal b.minus skip
    operateWith .or false second
    branch b.ne target
    label skip
  | .lt | .ge => pure ()
  release res
  unpin keep

/-- Branches on the relation of a signed word to zero. -/
def branchZeroWord (cond : Cond) (l : Location) (target : String) : Build Unit := do
  match cond with
  | .lt | .ge => testAndBranch cond (← byteOf l 1) target
  | _ => branchZeroBothBytes cond l target

/-- Branches on the relation of a location to zero. -/
def compareZero (cond : Cond) (signed : Bool) (l : Location) (target : String) : Build Unit := do
  match cond.againstZero signed with
  | .never => return
  | .always => jump target
  | .flags cond =>
    if l.width == 2 then branchZeroWord cond l target else testAndBranch cond l target

/-! ### Comparing two locations -/

/-- Turns `>` and `≤` around, and moves the right operand out of the accumulator. -/
def normalizeOperands (cond : Cond) (l r : Location) : Build (Cond × Location × Location) := do
  let (cond, l, r) := match cond with
    | .gt | .le => (cond.swap, r, l)
    | _ => (cond, l, r)
  let r ← if r.uses (← accumulator) then toTemporary r else pure r
  return (cond, l, r)

end Build

namespace Mos

/-- The operation that compares. -/
def compareOperation : Operation := ⟨"cmp", "cmp", none⟩
/-- The subtraction of low bytes. -/
def subtractOperation : Operation := ⟨"sbc", "sbc", some "sec"⟩
/-- The subtraction of high bytes. -/
def borrowOperation : Operation := ⟨"sbc", "sbc", none⟩

/-- Branches if a relation held for the last comparison or subtraction. -/
def branchOn (cond : Cond) (signed : Bool) (target : String) : Build Unit :=
  match cond with
  | .eq => Build.branch "beq" target
  | .ne => Build.branch "bne" target
  | .lt => Build.branch (if signed then "bmi" else "bcc") target
  | _ => Build.branch (if signed then "bpl" else "bcs") target

/-- Corrects the sign of a subtraction that overflowed. -/
def overflow : Build Unit := do
  let skip ← Build.freshLabel
  Build.branchLocal "bvc" skip
  Build.emit "eor" [.imm 0x80]
  Build.label skip

/-- Compares bytes. -/
def compareBytes (cond : Cond) (signed : Bool) (l r : Location) (target : String) :
    Build Unit := do
  let (cond, l, r) ← Build.normalizeOperands cond l r
  let subtracts := signed && cond.isOrder
  if (l.isIn x || l.isIn y) && (r.isImmediate || r.isMemory) && !subtracts then
    Build.emit (compareOp (← Build.present l.register?)) [← Build.argOf r]
    branchOn cond false target
  else
    let res ← Build.reserveLoad a l
    if subtracts then
      Build.operate subtractOperation r
      overflow
    else Build.operate compareOperation r
    branchOn cond subtracts target
    Build.release res

/-- Compares words byte by byte. -/
def compareHalves (cond : Cond) (signed : Bool) (l r : Location) (target : String) :
    Build Unit := do
  let (cond, l, r) ← Build.normalizeOperands cond l r
  let res ← Build.reserveLoad a (← Build.byteOf l 0)
  Build.operate compareOperation (← Build.byteOf r 0)
  match cond with
  | .ne =>
    Build.branch "bne" target
    Build.loadByte (some a) (← Build.byteOf l 1)
    Build.operate compareOperation (← Build.byteOf r 1)
    Build.branch "bne" target
  | .eq =>
    let skip ← Build.freshLabel
    Build.branchLocal "bne" skip
    Build.loadByte (some a) (← Build.byteOf l 1)
    Build.operate compareOperation (← Build.byteOf r 1)
    Build.branch "beq" target
    Build.label skip
  | _ =>
    Build.loadByte (some a) (← Build.byteOf l 1)
    Build.operate borrowOperation (← Build.byteOf r 1)
    if signed then overflow
    branchOn cond signed target
  Build.release res

/-- Compares words with the wide accumulator. -/
def compareWide (cond : Cond) (signed : Bool) (l r : Location) (target : String) :
    Build Unit := do
  if !l.isWide || !r.isWide then
    compareHalves cond signed l r target
  else
    let (cond, l, r) := match cond with
      | .gt | .le => (cond.swap, r, l)
      | _ => (cond, l, r)
    let subtracts := signed && cond.isOrder
    let res ← Build.reserve a
    Build.emitAll [⟨"rep", [.imm 0x20]⟩, ⟨".a16", []⟩, ⟨"lda", [← Build.argOf l]⟩]
    if subtracts then
      Build.emit "sec" []
      Build.emit "sbc" [← Build.argOf r]
      let skip ← Build.freshLabel
      Build.branchLocal "bvc" skip
      Build.emit "eor" [.imm 0x8000]
      Build.label skip
    else Build.emit "cmp" [← Build.argOf r]
    Build.emitAll [⟨"sep", [.imm 0x20]⟩, ⟨".a8", []⟩]
    branchOn cond subtracts target
    Build.release res

end Mos

namespace Intel

/-- The operation that compares. -/
def compareOperation : Operation := ⟨"cmp", "cpi", none⟩
/-- The operation that flips bits by a constant. -/
def flipOperation : Operation := ⟨"", "xri", none⟩

/-- Flips the sign of the accumulator, which makes signed bytes comparable as unsigned ones. -/
def flipSign : Build Unit := Build.operate flipOperation (.immediate 0x80 1)

/-- Branches if a relation held for the last comparison. -/
def branchOn (cond : Cond) (target : String) : Build Unit :=
  match cond with
  | .eq => Build.branch "jz" target
  | .ne => Build.branch "jnz" target
  | .lt => Build.branch "jc" target
  | _ => Build.branch "jnc" target

/-- Compares two signed bytes that are no constants. -/
def compareSigned (cond : Cond) (l r : Location) (target : String) : Build Unit := do
  let (res, l) ← if l.uses a then
      let res ← Build.reserveLoad a l
      pure (res, ← Build.toTemporary l)
    else pure (← Build.reserve a, l)
  let avoid := [l, r] ++
    if l.isIndirect || r.isIndirect then [Location.ofRegister hl] else []
  let (s, held) ← Build.reserveAny [e, d, c, b, Intel.l, h] avoid
  Build.loadByte (some a) r
  flipSign
  Build.emit "mov" [.reg s.name, aArg]
  Build.loadByte (some a) l
  flipSign
  Build.operate compareOperation (.ofRegister s)
  branchOn cond target
  Build.release held
  Build.release res

/-- Compares bytes. -/
def compareBytes (cond : Cond) (signed : Bool) (l r : Location) (target : String) :
    Build Unit := do
  let (cond, l, r) ← Build.normalizeOperands cond l r
  if !signed || !cond.isOrder then
    let res ← Build.reserveLoad a l
    Build.operate compareOperation r
    branchOn cond target
    Build.release res
  else
    match r.constant? with
    | some k =>
      let res ← Build.reserveLoad a l
      flipSign
      Build.operate compareOperation (.immediate (Bits.xor k 0x80) 1)
      branchOn cond target
      Build.release res
    | none => compareSigned cond l r target

/-- Compares words for equality, byte by byte. -/
def compareEqual (isEqual : Bool) (l r : Location) (target : String) : Build Unit := do
  let res ← Build.reserveLoad a (← Build.byteOf l 0)
  Build.operate compareOperation (← Build.byteOf r 0)
  if isEqual then
    let skip ← Build.freshLabel
    Build.branchLocal "jnz" skip
    Build.loadByte (some a) (← Build.byteOf l 1)
    Build.operate compareOperation (← Build.byteOf r 1)
    Build.branch "jz" target
    Build.label skip
  else
    Build.branch "jnz" target
    Build.loadByte (some a) (← Build.byteOf l 1)
    Build.operate compareOperation (← Build.byteOf r 1)
    Build.branch "jnz" target
  Build.release res

/-- Compares words: for order by a runtime routine. -/
def compareWords (cond : Cond) (signed : Bool) (l r : Location) (target : String) :
    Build Unit := do
  let (cond, l, r) ← Build.normalizeOperands cond l r
  if !cond.isOrder then compareEqual (cond == .eq) l r target
  else
    let heldHl ← Build.reserveFor hl l
    let heldDe ← Build.reserveFor de r
    Build.loadTwo hl l de r
    let res ← Build.reserve a
    Build.call (if signed then "cate.CompareHlDeSigned" else "cate.CompareHlDe")
    branchOn cond target
    Build.release res
    Build.release heldDe
    Build.release heldHl

end Intel

namespace Build

/-- Compares bytes that are not both constants. -/
def compareBytes (cond : Cond) (signed : Bool) (l r : Location) (target : String) :
    Build Unit := do
  match ← arch with
  | .i8080 => Intel.compareBytes cond signed l r target
  | _ => Mos.compareBytes cond signed l r target

/-- Compares words that are not both constants. -/
def compareWords (cond : Cond) (signed : Bool) (l r : Location) (target : String) :
    Build Unit := do
  match ← arch with
  | .mos6502 => Mos.compareHalves cond signed l r target
  | .wdc65816 => Mos.compareWide cond signed l r target
  | .i8080 => Intel.compareWords cond signed l r target

/-! ### Instructions -/

/-- Compares locations of some width. -/
def compareLocated (cond : Cond) (signed : Bool) (width : Int) (l r : Location) (target : String) :
    Build Unit :=
  if width == 2 then compareWords cond signed l r target
  else compareBytes cond signed l r target

/-- **Compare and branch.** -/
def compare (cond : Cond) (left right : Operand) (target : String) : Build Unit := do
  let l ← locate left
  let r ← locate right
  let width := max l.width r.width
  let signed := left.type.signed
  if width == 2 then requireWords [l, r]
  match l.constant?, r.constant? with
  | some a, some b => if ← present (cond.holds? a b signed width) then jump target
  | _, _ =>
    let (cond, l, r) :=
      if l.isImmediate && !r.isImmediate then (cond.swap, r, l) else (cond, l, r)
    match r.constant? with
    | none => compareLocated cond signed width l r target
    | some v =>
      let k ← present (normalize? v signed width)
      let bits ← present (Bits.count? width)
      match cond.against k signed bits with
      | .never => return
      | .always => jump target
      | .zero cond => compareZero cond signed l target
      | .constant cond k =>
        compareLocated cond signed width l { Location.immediate k width with signed } target

/-- **Decrement and jump.** -/
def decrementAndJump (counter : Operand) (target : String) : Build Unit := do
  let d ← locate counter
  if d.width == 1 then
    if ← stepByte d true then branch (← arch).branches.ne target
    else
      let acc ← accumulator
      let res ← reserveLoad acc d
      operateWith .sub false (.immediate 1 1)
      storeByte (some acc) d
      branch (← arch).branches.ne target
      release res
  else
    unless ← stepWord d true do wordArithmetic .sub d d (.immediate 1 2) temporaryBound
    branchZeroWord .ne d target

end Build

end Octet
