import Octet.CommandLine.Flag
import Octet.CommandLine.Log
import Octet.CommandLine.Tree
import Octet.Listing.Read

/-!
# The command line

The command reads a program from a file, or from the standard input, compiles it and writes assembly
to the standard output or to a file. What it does is a function of its arguments, of the input and
of the files; reading and writing them is left to whoever calls it.

Flags come first: arguments that cannot be read end everything without a word. Then come the
requests for help and for the version, the number of arguments, the input, and the compilation. The
log and the allocation are written as far as the compilation went.

## Main definitions

* `CommandLine.Files`, `CommandLine.Outcome` — the files a command sees, and what it leaves
* `CommandLine.run` — what a command does
-/

namespace Octet.CommandLine

/-- The files that a command sees. Where something is not possible, the reason is told. -/
structure Files where
  /-- The contents of a file. -/
  read : String → Except String String
  /-- Whether a file can be written, and under which name it is kept then. -/
  create : String → Except String String

/-- The name in the current directory that a path stands for, if it does not lead elsewhere. -/
def fileName? (path : String) : Option String :=
  match (path.splitOn "/").filter (· != ".") with
  | [name] => if name.isEmpty then none else some name
  | _ => none

/-- Files that lie in one directory without others in it. -/
def Files.flat (files : List (String × String)) : Files where
  read path := match (fileName? path).bind fun name => files.lookup name with
    | some text => .ok text
    | none => .error "no such file or directory"
  create path := match fileName? path with
    | some name => .ok name
    | none => .error (if path == "." then "is a directory" else "no such file or directory")

/-- What a command leaves. -/
structure Outcome where
  stdout : String := ""
  stderr : String := ""
  /-- Why the command failed, if it did. -/
  error : Option String := none
  /-- The file that was written. -/
  written : Option (String × String) := none
  /-- A broken invariant, which ends everything at once. -/
  fault : Option Fault := none
  deriving DecidableEq, Repr, Inhabited

namespace Outcome

/-- A failure, reported under the name of the command. -/
def failed (o : Outcome) (report error : String) : Outcome :=
  { o with stderr := o.stderr ++ "cate8: " ++ report ++ "\n", error := some error }

/-- A failure to read or to write a file. -/
def refused (o : Outcome) (activity name reason : String) : Outcome :=
  let error := "open " ++ name ++ ": " ++ reason
  o.failed ("error " ++ activity ++ " " ++ name ++ ": " ++ error) error

end Outcome

/-- The version of the command. -/
def version : String := "0.1.0"

/-- What the command is about. -/
def helpText : String :=
  "cate8 reads a program in the YAML listing form of its intermediate\n" ++
  "representation, allocates registers and emits assembly for the 6502,\n" ++
  "the 65816 or the 8080. Without a file the listing is read from stdin.\n"

/-- The names of all architectures, in alphabetical order. -/
def archNames : List String := (Arch.all.map Arch.name).mergeSort fun a b => decide (a ≤ b)

/-- Everything that is wrong with the registers of a compilation. -/
def clashText (c : Compilation) : String :=
  "\n".intercalate ((c.functions.flatMap fun f => f.function.clashes f.registers).map (·.message))

/-- Writes assembly to the standard output, or to a file. -/
def write (o : Options) (files : Files) (outcome : Outcome) (text : String) : Outcome :=
  if o.output.isEmpty then { outcome with stdout := outcome.stdout ++ text }
  else match files.create o.output with
    | .ok name => { outcome with written := some (name, text) }
    | .error reason => outcome.refused "creating" o.output reason

/-- **Compiles the program in a text** for a machine. The name of the input leads the messages. -/
def compile (o : Options) (files : Files) (arch : Arch) (name text : String) : Outcome :=
  match Program.ofText text with
  | .error e => ({} : Outcome).failed (name ++ ": " ++ e.message) e.message
  | .ok p =>
    let target := if 0 < o.threshold then { arch.target with threshold := o.threshold }
      else arch.target
    let (c, _) := (p.compile target).run .empty
    let outcome : Outcome := { stderr := if o.verbose then c.log else "" }
    match c.outcome with
    | .error e =>
      if e.isRefusal then outcome.failed (name ++ ": " ++ e.message) e.message
      else { outcome with fault := some e.fault }
    | .ok assembly =>
      let clashes := clashText c
      if o.verify && !clashes.isEmpty then outcome.failed (name ++ ": " ++ clashes) clashes
      else
        let outcome := if o.allocation then { outcome with stdout := c.tree ++ "\n" } else outcome
        write o files outcome (arch.dialect.program assembly)

/-- Compiles an input for the machine that the options name. -/
def compileFor (o : Options) (files : Files) (name text : String) : Outcome :=
  match Arch.parse? o.arch with
  | some arch => compile o files arch name text
  | none =>
    ({} : Outcome).failed
      ("unknown architecture " ++ Text.quote o.arch ++ " (want one of " ++
        ", ".intercalate archNames ++ ")")
      ("unknown architecture: " ++ o.arch)

/-- **What a command does**, by its arguments without its name. -/
def run (arguments : List String) (stdin : String) (files : Files) : Outcome :=
  match Options.read arguments with
  | .error e => { error := some e.message }
  | .ok (o, others) =>
    if o.help then { stdout := helpText }
    else if o.version then { stdout := "cate8 version " ++ version ++ "\n" }
    else match others with
      | [] => compileFor o files "<stdin>" stdin
      | [name] =>
        match files.read name with
        | .ok text => compileFor o files name text
        | .error reason => ({} : Outcome).refused "reading" name reason
      | _ => { error := some (FlagError.tooMany others.length).message }

/-- The file that a command reads. -/
def inputFile? (arguments : List String) : Option String :=
  match Options.read arguments with
  | .ok (_, [name]) => some name
  | _ => none

/-- Whether a command reads the standard input. -/
def readsStdin (arguments : List String) : Bool :=
  match Options.read arguments with
  | .ok (o, []) => !o.help && !o.version
  | _ => false

end Octet.CommandLine
