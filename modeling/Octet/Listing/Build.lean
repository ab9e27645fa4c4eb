import Octet.Listing
import Octet.Listing.Error
import Octet.Liveness
import Octet.Text.Blank

/-!
# From a listing to a program

Names are resolved, types are read and operands are typed. A name means the variable of the function
that was declared last under it, and else the global one. A constant without a type of its own takes
the type of its surroundings: that of the destination, of the parameter it is passed to, of the
result it is returned as, or, in a comparison, of its partner. Where the surroundings give no type,
a constant that fits a byte is one.

String literals are numbered in the order in which they are met.

## Main definitions

* `Listing.Scope`, `Listing.Scope.operand` — what names mean in a function, and reading operands
* `Listing.Scope.entry` — reading an instruction
* `Listing.build` — reading a listing
-/

namespace Octet.Listing

/-- The string literals met so far. -/
abbrev Strings := List (String × List UInt8)

/-- Reading that numbers string literals and may be refused. -/
abbrev Reader (ε : Type) := StateT Strings (Except ε)

/-- What names mean inside a function. -/
structure Scope where
  function : String
  result : Ty
  globals : List Variable
  locals : List Variable
  callees : List Signature

/-- The last variable of a list with a name. -/
def lastNamed? (vs : List Variable) (name : String) : Option Variable :=
  vs.reverse.find? (·.name == name)

/-- The type of a constant that takes it from its surroundings: where they give none, or one that no
constant can have, a byte if the value fits, and else a word. -/
def constantType (given : Option Ty) (value : Int) : Ty :=
  match given with
  | some (.byte s) => .byte s
  | some (.word s) => .word s
  | some (.pointer t) => .pointer t
  | _ => if 0xff < value || value < -0x80 then .word false else .byte false

/-- A constant, cut to its type. -/
def constant (given : Option Ty) (value : Int) : Operand :=
  let t := constantType given value
  .int t (Bits.low t.maskBits value)

/-- Whether the text, up to a type, is a constant. -/
def isConstant (text : String) : Bool :=
  (Text.literal? (Text.cut ':' text.toList).1).isSome

/-- A name with an optional offset after a plus. -/
def splitOffset (text : List Char) : Except OperandError (String × Int) :=
  match Text.cut '+' text with
  | (name, none) => .ok (String.ofList name, 0)
  | (name, some offset) =>
    match Text.literal? offset with
    | some n => .ok (String.ofList name, n)
    | none => .error (.badOffset (String.ofList offset))

namespace Scope

/-- The variable that a name means. -/
def find? (s : Scope) (name : String) : Option Variable :=
  (lastNamed? s.locals name).or (lastNamed? s.globals name)

/-- The variable that a name must mean. -/
def find (s : Scope) (name : String) : Except OperandError Variable :=
  match s.find? name with
  | some v => .ok v
  | none => .error (.undeclared name)

/-- Memory behind a pointer, written without the star. Behind a pointer to an aggregate are
bytes. -/
def derefOperand (s : Scope) (explicit : Option Ty) (text : List Char) :
    Except OperandError Operand := do
  let (name, offset) ← splitOffset text
  let p ← s.find name
  match p.type with
  | .pointer target =>
    let t := match explicit, target with
      | some t, _ => t
      | none, .struct _ => .byte false
      | none, t => t
    return .deref p offset t
  | _ => throw (.notPointer name)

/-- The address of a symbol, written without the ampersand. The name of a variable means its
symbol. -/
def addressOperand (s : Scope) (text : List Char) : Except OperandError Operand := do
  let (name, offset) ← splitOffset text
  match s.find? name with
  | some v => return .address v.label offset v.type
  | none => return .address name offset (.byte false)

/-- A variable, or the low or high byte of one. -/
def variableOperand (s : Scope) (explicit : Option Ty) (text : List Char) :
    Except OperandError Operand := do
  let (nameChars, part) := Text.cut '.' text
  let name := String.ofList nameChars
  let v ← s.find name
  match part with
  | none => return .var v 0 (explicit.getD v.type)
  | some partChars =>
    let part := String.ofList partChars
    unless v.type.isWord do throw (.noByte name part)
    match part with
    | "lo" => return .var v 0 (.byte false)
    | "hi" => return .var v 1 (.byte false)
    | _ => throw (.unknownByte name part)

/-- An operand that is no string literal. -/
def plainOperand (s : Scope) (surroundings : Option Ty) (text : List Char) :
    Except OperandError Operand := do
  let (base, typeName) := Text.cut ':' text
  let explicit ← match typeName with
    | none => pure none
    | some name =>
      match Ty.parseChars name with
      | .ok t => pure (some t)
      | .error e => throw (.badType e)
  match Text.literal? base with
  | some value => return constant (explicit.or surroundings) value
  | none =>
    match base with
    | '*' :: rest => s.derefOperand explicit rest
    | '&' :: rest => s.addressOperand rest
    | _ => s.variableOperand explicit base

/-- **Reading an operand**: a variable or a byte of one, memory behind a pointer, the address of a
symbol, a constant or a string literal. A type after a colon takes the place of the inferred one. -/
def operand (s : Scope) (text : String) (surroundings : Option Ty) :
    Reader EntryError Operand := do
  let text := Text.trim text.toList
  match text with
  | [] => throw (.operand .missing)
  | '"' :: _ =>
    match Text.unquote? text with
    | none => throw (.operand (.badString (String.ofList text)))
    | some value =>
      let label := "_s" ++ toString ((← get).length + 1)
      modify (· ++ [(label, value)])
      return .string label value
  | _ =>
    match s.plainOperand surroundings text with
    | .ok o => return o
    | .error e => throw (.operand e)

/-- Two operands of which one types the other: the surroundings if they give a type, else the first
one, or the second one if only the first is a constant. -/
def pair (s : Scope) (left right : String) (surroundings : Option Ty) :
    Reader EntryError (Operand × Operand) := do
  if surroundings.isNone && isConstant left && !isConstant right then
    let r ← s.operand right none
    let l ← s.operand left (some r.type)
    return (l, r)
  let l ← s.operand left surroundings
  let r ← s.operand right (some (surroundings.getD l.type))
  return (l, r)

/-- The anchor of a label of the function. -/
def anchor (s : Scope) (label : String) : Anchor := ⟨s.function ++ "_" ++ label⟩

/-- The anchor that an instruction names. -/
def target (s : Scope) (label : String) : Reader EntryError Anchor :=
  if label.isEmpty then throw .missingTarget else pure (s.anchor label)

/-- The arguments of a call, each typed by its parameter. -/
def arguments (s : Scope) : List String → List Parameter → Reader EntryError (List Operand)
  | a :: as, p :: ps => do
    let o ← s.operand a (some p.type)
    return o :: (← s.arguments as ps)
  | _, _ => return []

/-- A call. The callee is the one declared last under its name. -/
def callEntry (s : Scope) (e : Entry) : Reader EntryError Inst := do
  match s.callees.reverse.find? (·.name == e.callee) with
  | none => throw (.unknownCallee e.callee)
  | some callee =>
    unless e.args.length == callee.params.length do
      throw (.arity callee.name callee.params.length e.args.length)
    let args ← s.arguments e.args callee.params
    if e.dest.isEmpty then return .call callee args none
    if callee.result == .void then throw (.noResult callee.name)
    let dest ← s.operand e.dest (some callee.result)
    return .call callee args (some dest)

/-- **Reading an instruction** that is no label. -/
def entry (s : Scope) (e : Entry) : Reader EntryError Inst := do
  match Operator.parse? e.op with
  | none => throw (.unknownOperator e.op)
  | some .label => throw .labelOperator
  | some .jump => return .jump (← s.target e.target)
  | some .ret =>
    if e.left.isEmpty then
      if s.result == .void then return .ret none else throw (.missingValue s.result)
    return .ret (some (← s.operand e.left (some s.result)))
  | some .decJump =>
    let dest ← s.operand e.dest none
    return .decJump dest (← s.target e.target)
  | some .compare =>
    match Cond.parse? e.cond with
    | none => throw (.unknownCondition e.cond)
    | some cond =>
      let (l, r) ← s.pair e.left e.right none
      return .compare cond l r (← s.target e.target)
  | some .call => s.callEntry e
  | some .load =>
    let dest ← s.operand e.dest none
    return .load dest (← s.operand e.left (some dest.type))
  | some (.unary op) =>
    let dest ← s.operand e.dest none
    return .unary op dest (← s.operand e.left (some dest.type))
  | some .resize =>
    let dest ← s.operand e.dest none
    return .resize dest (← s.operand e.left none)
  | some (.binary op) =>
    let dest ← s.operand e.dest none
    match op with
    | .shl | .shr =>
      let l ← s.operand e.left (some dest.type)
      let r ← s.operand e.right (some (.byte false))
      return .binary op dest l r
    | _ =>
      let (l, r) ← s.pair e.left e.right (some dest.type)
      return .binary op dest l r

/-- The code of a function from position `n` on. `defined` holds the labels already placed. -/
def code (s : Scope) : Nat → List String → List Entry → Reader Error (List Inst)
  | _, _, [] => return []
  | n, defined, e :: es => do
    if e.label.isEmpty then
      let i ← fun strings => (s.entry e strings).mapError (.badEntry s.function n)
      return i :: (← s.code (n + 1) defined es)
    if defined.contains e.label then
      throw (.badEntry s.function n (.labelTwice e.label))
    return .label (s.anchor e.label) :: (← s.code (n + 1) (e.label :: defined) es)

end Scope

/-- The labels that a list of instructions names, in order. -/
def namedLabels (es : List Entry) : List String :=
  es.filterMap fun e =>
    if !e.label.isEmpty then none
    else match Operator.parse? e.op with
      | some op => if op.isJump then some e.target else none
      | none => none

/-- The parameters of a routine. Aggregates and `void` cannot be passed. -/
def parameters (function : String) : Nat → List Declaration → Except Error (List Parameter)
  | _, [] => .ok []
  | n, d :: ds => do
    match Ty.parse d.type with
    | .error e => throw (.badParameter function d.name e)
    | .ok (.struct size) => throw (.cannotPass function d.name (.struct size))
    | .ok .void => throw (.cannotPass function d.name .void)
    | .ok t =>
      return ⟨n, d.name, t, function ++ "_" ++ d.name⟩ :: (← parameters function (n + 1) ds)

/-- The signature of a routine. -/
def Routine.signature (r : Routine) : Except Error Signature := do
  match Ty.parse r.result with
  | .error e => throw (.badResult r.name e)
  | .ok result => return ⟨r.name, ← parameters r.name 0 r.params, result⟩

/-- The variable that receives a parameter. -/
def parameterVariable (p : Parameter) : Variable :=
  ⟨p.index, false, p.name, p.slot, p.type, some p.index⟩

/-- The variables of a function after those already declared. -/
def localVariables (function : String) :
    List Variable → List Declaration → Except Error (List Variable)
  | vs, [] => .ok vs
  | vs, d :: ds => do
    if vs.any (·.name == d.name) then throw (.variableTwice function d.name)
    match Ty.parse d.type with
    | .error e => throw (.badVariable function d.name e)
    | .ok t =>
      localVariables function
        (vs ++ [⟨vs.length, false, d.name, function ++ "_" ++ d.name, t, none⟩]) ds

/-- The body of a function whose signature is known. -/
def Routine.function (r : Routine) (globals : List Variable) (callees : List Signature)
    (signature : Signature) : Reader Error Function := do
  let vs ← localVariables r.name (signature.params.map parameterVariable) r.vars
  let scope : Scope := ⟨r.name, signature.result, globals, vs, callees⟩
  let code ← scope.code 0 [] r.code
  match (namedLabels r.code).find? fun l => !r.code.any (·.label == l) with
  | some l => throw (.undefinedLabel r.name l)
  | none =>
    let f : Function := ⟨r.name, signature.params, signature.result, vs, code, []⟩
    return f.analyzed

/-- The global variables. -/
def globalVariables : Nat → List Declaration → Except Error (List Variable)
  | _, [] => .ok []
  | n, d :: ds => do
    match Ty.parse d.type with
    | .error e => throw (.badGlobal d.name e)
    | .ok t => return ⟨n, true, d.name, d.name, t, none⟩ :: (← globalVariables (n + 1) ds)

/-- The signatures of functions, after those of the routines declared before. -/
def signatures : List Signature → List Routine → Except Error (List Signature)
  | callees, [] => .ok callees
  | callees, r :: rs => do
    let s ← r.signature
    if callees.any (·.name == s.name) then throw (.functionTwice s.name)
    signatures (callees ++ [s]) rs

end Octet.Listing

namespace Octet

/-- **Reading a listing.** Declarations come first, then the functions in turn. -/
def Listing.build (l : Listing) : Except Listing.Error Program := do
  let globals ← Listing.globalVariables 0 l.globals
  let externs ← l.externs.mapM Listing.Routine.signature
  let callees ← Listing.signatures externs l.functions
  let bodies := l.functions.zip (callees.drop externs.length)
  let (functions, strings) ←
    StateT.run (bodies.mapM fun (r, s) => Listing.Routine.function r globals callees s) []
  return ⟨globals, strings, externs, functions⟩

end Octet
