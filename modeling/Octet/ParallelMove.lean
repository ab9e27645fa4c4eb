import Octet.Fault
import Octet.Register

/-!
# Parallel moves

Several values are to be moved at once, and a move may overwrite a register that another one still
has to read. The moves are put into an order in which none does. Moves into registers that conflict
with a given last one are put off while others are ready. Where only cycles remain, the source of
one move is *saved*: it is copied aside before the first move, and reads no register any more.

Each round takes one move or saves one source, and no source is saved twice, so twice as many rounds
as moves are enough.

## Main definitions

* `ParallelMove` — the register that a move writes, and those that it reads
* `ParallelMove.order` — the order of the moves, and the sources to save
-/

namespace Octet

/-- One of several moves that happen at once. A move into memory writes no register. -/
structure ParallelMove where
  dest : Option Register
  reads : List Register
  deriving DecidableEq, Repr

namespace ParallelMove

/-- A move still to be done, with its position. -/
structure Pending where
  index : Nat
  move : ParallelMove
  deriving DecidableEq, Repr

/-- Whether the move writes a register that the other one reads. -/
def overwrites (m other : ParallelMove) : Bool :=
  match m.dest with
  | some d => other.reads.any (·.conflicts d)
  | none => false

/-- Whether the move must wait: another pending one still reads what it writes. -/
def Pending.blocked (ps : List Pending) (p : Pending) : Bool :=
  ps.any fun q => q.index != p.index && p.move.overwrites q.move

/-- Whether the move is put off while others are ready. -/
def Pending.deferred (last : Option Register) (p : Pending) : Bool :=
  Register.clash p.move.dest last

/-- The move to do next: the first ready one that is not put off, or else the first ready one. -/
def next? (last : Option Register) (ps : List Pending) : Option Pending :=
  let ready := ps.filter fun p => !p.blocked ps
  (ready.find? fun p => !p.deferred last).or ready.head?

/-- The move whose source is saved: the first one whose source another pending move overwrites. -/
def cycle? (ps : List Pending) : Option Pending :=
  ps.find? fun p => ps.any fun q => q.index != p.index && q.move.overwrites p.move

/-- The rounds of the ordering. -/
def orderRounds (last : Option Register) :
    Nat → List Pending → Except Fault (List Nat × List Nat)
  | _, [] => .ok ([], [])
  | 0, _ :: _ => .error .blockedMoves
  | rounds + 1, ps =>
    match next? last ps with
    | some p => do
      let (order, saves) ← orderRounds last rounds (ps.filter (·.index != p.index))
      return (p.index :: order, saves)
    | none =>
      match cycle? ps with
      | some p => do
        let saved := ps.map fun q =>
          if q.index == p.index then { q with move := { q.move with reads := [] } } else q
        let (order, saves) ← orderRounds last rounds saved
        return (order, p.index :: saves)
      | none => .error .blockedMoves

/-- **The order of parallel moves**: the positions in order, and those whose source is saved. -/
def order (moves : List ParallelMove) (last : Option Register) :
    Except Fault (List Nat × List Nat) :=
  orderRounds last (2 * moves.length) (moves.zipIdx.map fun (m, i) => ⟨i, m⟩)

end ParallelMove

end Octet
