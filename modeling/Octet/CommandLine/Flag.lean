import Octet.Text.Numeral
import Octet.Text.Quoted

/-!
# Flags of the command line

A flag has a long name, and some have a letter. Long names follow two dashes, letters follow one
dash and can be grouped. A *switch* is turned on by its mere presence and takes a value only after
an equals sign; any other flag takes what follows an equals sign, or the rest of its group of
letters, or the next argument. Flags and other arguments may come in any order; after two dashes
alone there are no flags any more.

Arguments are read from left to right, and the first that cannot be read ends it.

## Main definitions

* `Flag`, `Options` — the flags, and what they set
* `FlagError`, `FlagError.message` — why arguments cannot be read
* `Options.read` — the options and the other arguments of a command line
-/

namespace Octet.CommandLine

/-- A flag of the command line. -/
inductive Flag where
  /-- The target architecture. -/
  | arch
  /-- The largest constant that is added by increments. -/
  | threshold
  /-- Show the allocation of registers. -/
  | allocation
  /-- Show the program; reserved, as there is no agreed form to show it in. -/
  | program
  /-- Check the allocation of registers. -/
  | verify
  /-- Log what is done. -/
  | verbose
  /-- The file to write to. -/
  | output
  | help
  | version
  deriving DecidableEq, Repr

namespace Flag

/-- All flags. -/
def all : List Flag :=
  [arch, threshold, allocation, program, verify, verbose, output, help, version]

/-- The name after two dashes. -/
def name : Flag → String
  | arch => "arch"
  | threshold => "threshold"
  | allocation => "dalloc"
  | program => "dir"
  | verify => "verify"
  | verbose => "verbose"
  | output => "output"
  | help => "help"
  | version => "version"

/-- The letter after one dash. -/
def letter? : Flag → Option Char
  | verbose => some 'v'
  | output => some 'o'
  | help => some 'h'
  | _ => none

/-- Whether a flag needs no value. -/
def isSwitch : Flag → Bool
  | arch | threshold | output => false
  | _ => true

/-- A flag as messages show it: its letter, if it has one, and its name. -/
def text (f : Flag) : String :=
  match f.letter? with
  | some c => "-" ++ String.singleton c ++ ", --" ++ f.name
  | none => "--" ++ f.name

/-- The flag of a name. -/
def named? (name : String) : Option Flag := all.find? (·.name == name)

/-- The flag of a letter. -/
def lettered? (c : Char) : Option Flag := all.find? (·.letter? == some c)

end Flag

/-- What the flags set. -/
structure Options where
  arch : String := "mos6502"
  threshold : Int := 0
  allocation : Bool := false
  program : Bool := false
  verify : Bool := false
  verbose : Bool := false
  output : String := ""
  help : Bool := false
  version : Bool := false
  deriving DecidableEq, Repr, Inhabited

/-! ### Errors -/

/-- Why the value of a flag is refused. -/
inductive ValueError where
  | notNumber (error : Text.NumeralError)
  | notTruth
  deriving DecidableEq, Repr

/-- The wording of a refused value. -/
def ValueError.message (value : String) : ValueError → String
  | notNumber .malformed => "strconv.ParseInt: parsing " ++ Text.quote value ++ ": invalid syntax"
  | notNumber .outOfRange =>
    "strconv.ParseInt: parsing " ++ Text.quote value ++ ": value out of range"
  | notTruth => "strconv.ParseBool: parsing " ++ Text.quote value ++ ": invalid syntax"

/-- Why arguments cannot be read. -/
inductive FlagError where
  | badForm (argument : String)
  | unknownName (name : String)
  | unknownLetter (letters : List Char)
  | noValue (argument : String)
  | noLetterValue (letters : List Char)
  | badValue (flag : Flag) (value : String) (error : ValueError)
  | tooMany (count : Nat)
  deriving DecidableEq, Repr

/-- The first byte of a character between single quotes, escaped. -/
def quotedByte (c : Char) : String :=
  let byte := match String.utf8EncodeChar c with
    | b :: _ => Char.ofNat b.toNat
    | [] => c
  let shown := if byte == '\'' then ['\\', byte] else if byte == '"' then [byte] else Text.escape byte
  "'" ++ String.ofList shown ++ "'"

/-- The letter in front of a group, and the group, as messages show them. -/
def letterText (letters : List Char) : String :=
  match letters with
  | [] => ""
  | c :: _ => quotedByte c ++ " in -" ++ String.ofList letters

/-- The wording of arguments that cannot be read. -/
def FlagError.message : FlagError → String
  | badForm argument => "bad flag syntax: " ++ argument
  | unknownName name => "unknown flag: --" ++ name
  | unknownLetter letters => "unknown shorthand flag: " ++ letterText letters
  | noValue argument => "flag needs an argument: " ++ argument
  | noLetterValue letters => "flag needs an argument: " ++ letterText letters
  | badValue flag value error =>
    "invalid argument " ++ Text.quote value ++ " for " ++ Text.quote flag.text ++ " flag: " ++
      error.message value
  | tooMany count => "accepts at most 1 arg(s), received " ++ toString count

/-! ### Values -/

/-- A truth value in one of its spellings. -/
def truth? (value : String) : Option Bool :=
  if value ∈ ["1", "t", "T", "TRUE", "true", "True"] then some true
  else if value ∈ ["0", "f", "F", "FALSE", "false", "False"] then some false
  else none

namespace Options

/-- Sets a flag. -/
def set (o : Options) (f : Flag) (value : String) : Except FlagError Options :=
  let switch (put : Bool → Options) : Except FlagError Options :=
    match truth? value with
    | some b => .ok (put b)
    | none => .error (.badValue f value .notTruth)
  match f with
  | .arch => .ok { o with arch := value }
  | .output => .ok { o with output := value }
  | .threshold =>
    match Text.literal 64 value.toList with
    | .ok n => .ok { o with threshold := n }
    | .error e => .error (.badValue f value (.notNumber e))
  | .allocation => switch fun b => { o with allocation := b }
  | .program => switch fun b => { o with program := b }
  | .verify => switch fun b => { o with verify := b }
  | .verbose => switch fun b => { o with verbose := b }
  | .help => switch fun b => { o with help := b }
  | .version => switch fun b => { o with version := b }

/-- Reads an argument after its two dashes. The next argument is its value if it needs one and has
none of its own, which the second result tells. -/
def readName (o : Options) (argument : String) (s : List Char) (next : Option String) :
    Except FlagError (Options × Bool) := do
  if s.head? == some '-' || s.head? == some '=' then throw (.badForm argument)
  let name := String.ofList (s.takeWhile (· != '='))
  match Flag.named? name with
  | none => throw (.unknownName name)
  | some f =>
    match s.dropWhile (· != '=') with
    | _ :: value => return (← o.set f (String.ofList value), false)
    | [] =>
      if f.isSwitch then return (← o.set f "true", false)
      match next with
      | some value => return (← o.set f value, true)
      | none => throw (.noValue argument)

/-- Reads a group of letters. The next argument is the value of the last if it needs one and has
none of its own, which the second result tells. -/
def readLetters (o : Options) (next : Option String) :
    List Char → Except FlagError (Options × Bool)
  | [] => .ok (o, false)
  | c :: s => do
    match Flag.lettered? c with
    | none => throw (.unknownLetter (c :: s))
    | some f =>
      match s with
      | '=' :: d :: value => return (← o.set f (String.ofList (d :: value)), false)
      | _ =>
        if f.isSwitch then (← o.set f "true").readLetters next s
        else if !s.isEmpty then return (← o.set f (String.ofList s), false)
        else match next with
          | some value => return (← o.set f value, true)
          | none => throw (.noLetterValue (c :: s))

/-- Reads arguments after some others, which come last first. -/
def readFrom (o : Options) : List String → List String → Except FlagError (Options × List String)
  | [], others => .ok (o, others.reverse)
  | argument :: rest, others => do
    let (o, used) ← match argument.toList with
      | ['-', '-'] => return (o, others.reverse ++ rest)
      | '-' :: '-' :: s => o.readName argument s rest.head?
      | '-' :: c :: s => o.readLetters rest.head? (c :: s)
      | _ => return ← o.readFrom rest (argument :: others)
    match used, rest with
    | true, _ :: rest => o.readFrom rest others
    | _, rest => o.readFrom rest others

/-- **The options and the other arguments** of a command line. -/
def read (arguments : List String) : Except FlagError (Options × List String) :=
  Options.readFrom {} arguments []

end Options

end Octet.CommandLine
