import Octet.Target

/-!
# Which variables may hold which registers

Code for an instruction uses registers of its own, and a variable that is live through the
instruction must not sit in one of them. No variable keeps a register over a call. Runtime routines
destroy the registers in which they take their operands, and comparisons the accumulator. The right
operand of an operator that does not commute cannot be the accumulator, which holds the left one.
And a pointer must not be overwritten before it has been followed.

## Main definitions

* `Inst.runtimeClobbers` — the registers that a runtime routine destroys
* `Arch.allows` — whether a variable may hold a register at an address
* `Arch.machine` — the machine as the allocation sees it
-/

namespace Octet

/-- Whether the operand is a constant by which a multiplication becomes a shift or a move. -/
def Operand.isPowerOfTwo : Operand → Bool
  | .int t value =>
    let k := Bits.low t.maskBits value
    Bits.and k (k - 1) == 0
  | _ => false

/-- The registers destroyed by the runtime routine that an instruction calls, if it calls one. -/
def Inst.runtimeClobbers (m : Arch) (i : Inst) : RegisterSet :=
  let rt := m.runtime
  let word := match i.dest? with
    | some d => d.type.isWord
    | none => false
  let value := if word then rt.wordValue else rt.byteValue
  let factor := if word then rt.wordOperand else rt.byteOperand
  match i with
  | .binary .shl _ _ r | .binary .shr _ _ r =>
    if r.isConstant then .empty else .ofList [value, rt.counter]
  | .binary .mul _ l r =>
    if l.isPowerOfTwo || r.isPowerOfTwo then .empty else .ofList [value, factor]
  | .compare cond l .. =>
    if m == .i8080 && l.type.isWord && cond.isOrder then .ofList [m.accumulator] else .empty
  | _ => .empty

/-- Whether the instruction reads the variable itself as left or right operand. -/
def Inst.reads (i : Inst) (v : Variable) : Bool :=
  (i.left?.toList ++ i.right?.toList).any (·.direct? == some v)

/-- Whether a pointer of the instruction forbids a variable a register. `dest` is the variable that
the instruction writes. A pointer must survive until it has been followed, so it does not share a
register with the destination; and loading another pointer must not destroy an operand still to be
read. -/
def Inst.pointerForbids (i : Inst) (m : Arch) (f : Function) (a : Assignment) (address : Int)
    (v : Variable) (r : Register) (p : Variable) : Bool :=
  let dest := i.dest?.bind (·.direct?)
  if p == v then
    match dest with
    | some d => d != v && Register.clash (a.get d) (some r)
    | none => false
  else
    (dest == some v && Register.clash (a.get p) (some r)) ||
      (i.reads v && (dest == some v || (f.range v).last == address) &&
        m.pointerScratch.any (·.conflicts r))

/-- **Legality.** Whether a variable may hold a register at an address. -/
def Arch.allows (m : Arch) (f : Function) (a : Assignment) (address : Nat) (v : Variable)
    (r : Register) : Bool :=
  match f.at? address with
  | none => true
  | some i =>
    let through := (f.range v).liveThrough address
    let isCall := i.operator == .call
    let isCompare := i.operator == .compare
    !(isCall && through) && !(through && (i.runtimeClobbers m).conflictsWith r) &&
      !(isCompare && through && m.isAccumulator r) &&
      !(!i.operator.commutative && i.right?.bind (·.direct?) == some v && m.isAccumulator r) &&
      (i.operands.filterMap (·.pointer?)).all fun p => !i.pointerForbids m f a address v r p

/-- The machine as the allocation sees it. -/
def Arch.machine (m : Arch) : Machine := ⟨m.pool, m.allows⟩

end Octet
