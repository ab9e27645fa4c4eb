import Octet.Listing.Build
import Octet.Markup.Node
import Octet.Markup.Shape

/-!
# Listings as text

A listing is written as a markup text: mappings for the listing, its functions, declarations and
instructions, sequences for lists of them, and scalars for names, types and operands.

A scalar is taken by its text, whatever it looks like, unless a tag says what it has to look like. A
field without a value is left as it is, and so is a list; an entry of a list without a value is left
out. An alias stands for the node it names, with the line of that node.

A text that does not have this shape is refused: a field that does not exist or stands twice, a
scalar where a list or a mapping is needed, or the other way round. Such mismatches are only
counted, so that reading goes on after them. An operand that is no scalar ends the reading at once,
and thereby comes before any mismatch; a mapping with a field that stands twice is not looked into.

The key `<<` merges other mappings into one: their fields are read after its own, unless they are
set already.

## Main definitions

* `Listing.ReadError`, `Listing.ReadError.message` — why a text is no listing
* `Listing.ofText` — the listing that a text holds
* `Program.ofText` — the program that a text holds
-/

namespace Octet

open Markup (Node Tag Flaw Document)

namespace Listing

/-- Why a text is no listing. -/
inductive ReadError where
  /-- The text has a flaw as a markup text. -/
  | flawed (flaw : Flaw)
  /-- Fields or values that a listing does not have. -/
  | mismatched (count : Nat)
  /-- There is no document. -/
  | empty
  /-- An operand is not a scalar. -/
  | operand (line : Nat)
  deriving DecidableEq, Repr

/-- The wording of a text that is no listing. -/
def ReadError.message : ReadError → String
  | flawed _ => "decode listing: malformed text"
  | mismatched count => "decode listing: " ++ toString count ++ " fields do not fit"
  | empty => "decode listing: EOF"
  | operand line => "decode listing: line " ++ toString line ++ ": operand must be a scalar"

/-- Reading from the tree of a document, with a count of mismatches. -/
abbrev Fit := ReaderT Document (StateT Nat (Except ReadError))

namespace Fit

/-- Counts a mismatch and goes on with a value. -/
def mismatch {α : Type} (a : α) : Fit α := do
  modify (· + 1)
  return a

/-- Ends the reading with a flaw of the text. -/
def flawed {α : Type} (flaw : Flaw) : Fit α := throw (.flawed flaw)

/-- The node that an alias refers to; any other node is itself. -/
def target (n : Node) : Fit Node := return (← read).target n

/-- The text of a scalar, unless it stands for nothing. -/
def scalar (text : String) (isPlain : Bool) (tag : Tag) : Fit (Option String) :=
  match tag.reading isPlain text with
  | .ok s => return s
  | .error flaw => flawed flaw

/-- A value in place of a scalar that cannot be one. Nothing is no mismatch. -/
def unfit {α : Type} (text : String) (isPlain : Bool) (tag : Tag) (a : α) : Fit α := do
  match ← scalar text isPlain tag with
  | none => return a
  | some _ => mismatch a

/-- The text of a scalar, unless it stands for nothing. -/
def text (n : Node) : Fit (Option String) := do
  match ← target n with
  | .scalar text isPlain tag _ => scalar text isPlain tag
  | _ => mismatch none

/-- The text of an operand, unless it stands for nothing. A tag only counts if it says that there is
nothing. -/
def operand (n : Node) : Fit (Option String) := do
  match ← target n with
  | .scalar text isPlain tag _ =>
    if tag == .nothing then scalar text isPlain tag
    else if tag == .unspecified && isPlain && Markup.isNothing text then return none
    else return some text
  | .sequence _ tag line => if tag == .nothing then mismatch none else throw (.operand line)
  | .mapping _ tag line => if tag == .nothing then mismatch none else throw (.operand line)
  | .alias .. => flawed .anchor

/-- The entries of a list that have a value. -/
def items {α : Type} (entry : Node → Fit (Option α)) (n : Node) : Fit (List α) := do
  match ← target n with
  | .sequence ns _ _ => ns.filterMapM entry
  | .scalar text isPlain tag _ => unfit text isPlain tag []
  | _ => mismatch []

/-! ### Fields -/

/-- What makes two keys the same: the text of a scalar, the name of an alias, and nothing but its
kind for a collection. -/
def identity : Node → Nat × String
  | .scalar text _ _ _ => (0, text)
  | .sequence _ _ _ => (1, "")
  | .mapping _ _ _ => (2, "")
  | .alias name _ _ => (3, name)

/-- Whether all values of a list differ. -/
def allDiffer {α : Type} [BEq α] : List α → Bool
  | [] => true
  | a :: as => !as.contains a && allDiffer as

/-- Whether a key says that its value is merged. -/
def isMerge : Node → Bool
  | .scalar "<<" isPlain tag _ => tag == .merge || (tag == .unspecified && isPlain)
  | _ => false

/-- A record as far as its fields have been read. -/
structure Filled (ρ : Type) where
  record : ρ
  /-- The fields that the mapping has set. -/
  fields : List String
  /-- The fields that a merged mapping cannot set any more; none for a mapping that is not
  merged. -/
  closed : Option (List String)

/-- Reads one field into a record, if there is a field of that name. -/
def fill {ρ : Type} (field : String → Option (ρ → Node → Fit ρ)) (r : Filled ρ) (key value : Node) :
    Fit (Filled ρ) := do
  if isMerge key then return r
  match ← text key with
  | none => return r
  | some name =>
    if r.closed.any (·.contains name) then return r
    let r := { r with closed := r.closed.map (name :: ·) }
    match field name with
    | none => mismatch r
    | some put =>
      if r.fields.contains name then mismatch r
      else return { r with record := ← put r.record value, fields := name :: r.fields }

/-- The entries of a mapping that is merged. -/
def merged (n : Node) : Fit (List (Node × Node)) := do
  match ← target n with
  | .mapping entries _ _ => return entries
  | _ => flawed .merge

/-- Reads the fields of a mapping into a record, and then those of the mappings merged into it. The
number bounds how far mappings are merged into each other; only one that is merged into itself gets
there. -/
def fillAll {ρ : Type} (field : String → Option (ρ → Node → Fit ρ)) :
    Nat → Filled ρ → List (Node × Node) → Fit (Option (Filled ρ))
  | 0, _, _ => flawed .cycle
  | n + 1, r, entries => do
    if !allDiffer (entries.map fun (key, _) => identity key) then return ← mismatch none
    let r ← entries.foldlM (fun r (key, value) => fill field r key value) { r with fields := [] }
    match entries.find? fun (key, _) => isMerge key with
    | none => return some r
    | some (_, value) =>
      let own ← (entries.map (·.1)).filterMapM text
      let others := match value with
        | .sequence ns _ _ => ns
        | n => [n]
      let r := { r with closed := some (r.closed.getD own) }
      return some (← others.foldlM (fun r other => do
        return (← fillAll field n r (← merged other)).getD r) r)

/-- **A mapping with known fields.** The function reads the value of a field into the record, if
there is a field of that name. -/
def fields {ρ : Type} (start : ρ) (field : String → Option (ρ → Node → Fit ρ)) (n : Node) :
    Fit (Option ρ) := do
  match ← target n with
  | .mapping entries _ _ =>
    return (← fillAll field (← read).size ⟨start, [], none⟩ entries).map (·.record)
  | .scalar text isPlain tag _ => unfit text isPlain tag none
  | _ => mismatch none

/-- A field of text: nothing leaves it as it is. -/
def textField {ρ : Type} (put : ρ → String → ρ) : Option (ρ → Node → Fit ρ) :=
  some fun r n => do return ((← text n).map (put r)).getD r

/-- A field of an operand: nothing leaves it as it is. -/
def operandField {ρ : Type} (put : ρ → String → ρ) : Option (ρ → Node → Fit ρ) :=
  some fun r n => do return ((← operand n).map (put r)).getD r

/-- A field of a list. -/
def listField {ρ α : Type} (entry : Node → Fit (Option α)) (put : ρ → List α → ρ) :
    Option (ρ → Node → Fit ρ) :=
  some fun r n => do return put r (← items entry n)

/-! ### The parts of a listing -/

/-- A declaration. -/
def declaration : Node → Fit (Option Declaration) :=
  fields {} fun
    | "name" => textField fun d s => { d with name := s }
    | "type" => textField fun d s => { d with type := s }
    | _ => none

/-- An instruction. -/
def entry : Node → Fit (Option Entry) :=
  fields {} fun
    | "label" => textField fun e s => { e with label := s }
    | "op" => textField fun e s => { e with op := s }
    | "dest" => operandField fun e s => { e with dest := s }
    | "left" => operandField fun e s => { e with left := s }
    | "right" => operandField fun e s => { e with right := s }
    | "cond" => textField fun e s => { e with cond := s }
    | "target" => textField fun e s => { e with target := s }
    | "callee" => textField fun e s => { e with callee := s }
    | "args" => listField operand fun e ss => { e with args := ss }
    | _ => none

/-- A function. -/
def routine : Node → Fit (Option Routine) :=
  fields {} fun
    | "name" => textField fun f s => { f with name := s }
    | "params" => listField declaration fun f ds => { f with params := ds }
    | "result" => textField fun f s => { f with result := s }
    | "vars" => listField declaration fun f ds => { f with vars := ds }
    | "code" => listField entry fun f es => { f with code := es }
    | _ => none

/-- A whole listing. -/
def listing : Node → Fit (Option Listing) :=
  fields {} fun
    | "globals" => listField declaration fun l ds => { l with globals := ds }
    | "externs" => listField routine fun l fs => { l with externs := fs }
    | "functions" => listField routine fun l fs => { l with functions := fs }
    | _ => none

end Fit

/-- **The listing that a text holds.** A document without contents is an empty listing. -/
def ofText (text : String) : Except ReadError Listing :=
  match Markup.document text with
  | .error flaw => .error (.flawed flaw)
  | .ok none => .error .empty
  | .ok (some d) =>
    match ((Fit.listing d.root).run d).run 0 with
    | .error e => .error e
    | .ok (l, 0) => .ok (l.getD {})
    | .ok (_, count) => .error (.mismatched count)

end Listing

/-- Why a text is no program. -/
inductive SourceError where
  | unreadable (error : Listing.ReadError)
  | refused (error : Listing.Error)
  deriving DecidableEq, Repr

/-- The wording of a text that is no program. -/
def SourceError.message : SourceError → String
  | unreadable error => error.message
  | refused error => error.message

/-- **The program that a text holds.** -/
def Program.ofText (text : String) : Except SourceError Program :=
  match Listing.ofText text with
  | .error e => .error (.unreadable e)
  | .ok l => l.build.mapError .refused

end Octet
