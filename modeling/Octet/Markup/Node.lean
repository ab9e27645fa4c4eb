import Octet.Markup.Token

/-!
# The tree of a markup text

The tokens of a text form a tree of scalars, sequences and mappings. Each node knows the line it
starts in. Nodes that are named by an anchor are numbered, and an alias refers to one of them by its
number, even from within it; the name of an anchor can be used again.

Only the first document of a text is read. A text with no document at all has no tree, which is told
apart from a document without contents: that one is a scalar without text.

## Main definitions

* `Node` — a tree
* `Document` — a tree with the nodes that have been named
* `document` — the first document of a text
-/

namespace Octet.Markup

/-- A tree of a markup text. -/
inductive Node where
  | scalar (text : String) (isPlain : Bool) (tag : Tag) (line : Nat)
  | sequence (items : List Node) (tag : Tag) (line : Nat)
  | mapping (entries : List (Node × Node)) (tag : Tag) (line : Nat)
  /-- The name of another node, with its number. -/
  | alias (name : String) (number : Nat) (line : Nat)
  deriving Repr

namespace Node

/-- The line that a node starts in. -/
def line : Node → Nat
  | .scalar _ _ _ n => n
  | .sequence _ _ n => n
  | .mapping _ _ n => n
  | .alias _ _ n => n

/-- A node that is left out. -/
def absent (line : Nat) : Node := .scalar "" true .unspecified line

end Node

/-- The tokens still to be read, and what has been read about names and handles. -/
structure Reader where
  scanner : Scanner
  /-- The numbers of the nodes that anchors have named, the last first. -/
  names : List (String × Nat)
  /-- The nodes with their numbers, as far as they have been read. -/
  nodes : List (Nat × Node)
  /-- What the handles of tags stand for. -/
  handles : List (String × String)

/-- Reading a tree from tokens. -/
abbrev Read := StateT Reader (Except Flaw)

namespace Read

/-- The next token; there has to be one. -/
def peek : Read Token := do
  let r ← get
  let scanner ← r.scanner.ready
  set { r with scanner }
  match scanner.queue with
  | [] => throw .unexpected
  | t :: _ => return t

/-- Passes over the next token. -/
def skip : Read Unit := modify fun r => { r with scanner := r.scanner.use }

/-- Passes over the next token if it is of a kind. -/
def skipIf (kind : Token.Kind) : Read Bool := do
  if (← peek).kind == kind then do skip; return true else return false

/-! ### What stands before a node -/

/-- The name of an anchor, if there is one. -/
def anchor? : Read (Option String) := do
  match (← peek).kind with
  | .anchor name => do skip; return some name
  | _ => return none

/-- The address of a tag, if there is one. -/
def tag? : Read (Option TagName) := do
  match (← peek).kind with
  | .tag name => do skip; return some name
  | _ => return none

/-- What stands before a node: an anchor and a tag, in either order. -/
def properties : Read (Option String × Option TagName) := do
  match ← anchor? with
  | some name => return (some name, ← tag?)
  | none =>
    match ← tag? with
    | some tag => return (← anchor?, some tag)
    | none => return (none, none)

/-- The tag that is written before a node. -/
def tagOf (name : Option TagName) : Read Tag := do
  match name with
  | none => return .unspecified
  | some name =>
    match Tag.address? (← get).handles name with
    | some address => return .ofAddress address
    | none => throw .tag

/-- Reads a node, which is named if there is a name for it. The name is known within the node. -/
def naming (name : Option String) (read : Read Node) : Read Node := do
  match name with
  | none => read
  | some name =>
    let number := (← get).names.length
    modify fun r => { r with names := (name, number) :: r.names }
    let node ← read
    modify fun r => { r with nodes := (number, node) :: r.nodes }
    return node

/-- The alias of a node that has been named. -/
def aliased (name : String) (line : Nat) : Read Node := do
  match (← get).names.lookup name with
  | some number => return .alias name number line
  | none => throw .anchor

/-! ### Nodes

The number that all of these functions take bounds how far they go on; as each step passes over a
token or goes one level down, a multiple of the length of the text is enough. -/

mutual

/-- **A node.** Blocks can only stand outside of brackets; the entries of a sequence that is the
value of a key may be as little indented as the key. -/
def node (inBlock unindented : Bool) : Nat → Read Node
  | 0 => throw .unexpected
  | n + 1 => do
    let t ← peek
    let line := t.line
    if let .alias name := t.kind then
      skip
      return ← aliased name line
    let (name, written) ← properties
    let content ← peek
    let tag ← tagOf written
    let absent : Read Node :=
      if name.isSome || written.isSome then naming name (return .scalar "" true tag line)
      else throw .unexpected
    match content.kind with
    | .scalar text isPlain => naming name do
      skip
      return .scalar text isPlain tag line
    | .flowSequence => naming name do
      skip
      return .sequence (← flowItems true n) tag line
    | .flowMapping => naming name do
      skip
      return .mapping (← flowEntries true n) tag line
    | .blockSequence =>
      if inBlock then naming name do
        skip
        return .sequence (← blockItems n) tag line
      else absent
    | .blockMapping =>
      if inBlock then naming name do
        skip
        return .mapping (← blockEntries n) tag line
      else absent
    | .blockEntry =>
      if unindented then naming name do
        return .sequence (← unindentedItems n) tag line
      else absent
    | _ => absent

/-- A node, or none if one of some tokens comes first. -/
def nodeUnless (stops : List Token.Kind) (inBlock unindented : Bool) : Nat → Read Node
  | 0 => throw .unexpected
  | n + 1 => do
    let t ← peek
    if t.kind ∈ stops then return .absent t.line else node inBlock unindented n

/-- The entries of a sequence up to the end of its block. -/
def blockItems : Nat → Read (List Node)
  | 0 => throw .unexpected
  | n + 1 => do
    if ← skipIf .blockEntry then
      let item ← nodeUnless [.blockEntry, .blockEnd] true false n
      return item :: (← blockItems n)
    else if ← skipIf .blockEnd then return []
    else throw .unexpected

/-- The entries of a sequence that is not indented, which anything else ends. -/
def unindentedItems : Nat → Read (List Node)
  | 0 => throw .unexpected
  | n + 1 => do
    if ← skipIf .blockEntry then
      let item ← nodeUnless [.blockEntry, .key, .value, .blockEnd] true false n
      return item :: (← unindentedItems n)
    else return []

/-- The value of a key, which may be left out. -/
def valueUnless (stops : List Token.Kind) (inBlock : Bool) : Nat → Read Node
  | 0 => throw .unexpected
  | n + 1 => do
    if ← skipIf .value then nodeUnless stops inBlock inBlock n
    else return .absent (← peek).line

/-- The entries of a mapping up to the end of its block. -/
def blockEntries : Nat → Read (List (Node × Node))
  | 0 => throw .unexpected
  | n + 1 => do
    if ← skipIf .key then
      let key ← nodeUnless [.key, .value, .blockEnd] true true n
      let value ← valueUnless [.key, .value, .blockEnd] true n
      return (key, value) :: (← blockEntries n)
    else if ← skipIf .blockEnd then return []
    else throw .unexpected

/-- The entries of a sequence up to its closing bracket. An entry with a key is a mapping of its
own; if the key is left out, the token in its place is passed over with it. -/
def flowItems (first : Bool) : Nat → Read (List Node)
  | 0 => throw .unexpected
  | n + 1 => do
    if ← skipIf .flowSequenceEnd then return []
    unless first do
      unless ← skipIf .flowEntry do throw .unexpected
    if ← skipIf .flowSequenceEnd then return []
    let t ← peek
    if ← skipIf .key then
      let next ← peek
      let key ←
        if next.kind ∈ [.value, .flowEntry, .flowSequenceEnd] then do
          skip
          pure (Node.absent next.line)
        else node false false n
      let value ← valueUnless [.flowEntry, .flowSequenceEnd] false n
      return .mapping [(key, value)] .unspecified t.line :: (← flowItems false n)
    else
      let item ← node false false n
      return item :: (← flowItems false n)

/-- The entries of a mapping up to its closing bracket. A key may stand alone. -/
def flowEntries (first : Bool) : Nat → Read (List (Node × Node))
  | 0 => throw .unexpected
  | n + 1 => do
    if ← skipIf .flowMappingEnd then return []
    unless first do
      unless ← skipIf .flowEntry do throw .unexpected
    if ← skipIf .flowMappingEnd then return []
    if ← skipIf .key then
      let key ← nodeUnless [.value, .flowEntry, .flowMappingEnd] false false n
      let value ← valueUnless [.flowEntry, .flowMappingEnd] false n
      return (key, value) :: (← flowEntries false n)
    else
      let key ← node false false n
      return (key, .absent key.line) :: (← flowEntries false n)

end

/-! ### Documents -/

/-- Passes over the directives at the top of a document, and tells whether there are any. The
version, which can be told once, has to be 1.1, and each handle can be told once as well. -/
def directives (versioned found : Bool) : Nat → Read Bool
  | 0 => throw .unexpected
  | n + 1 => do
    match (← peek).kind with
    | .directive (.version major minor) => do
      if versioned || major != 1 || minor != 1 then throw .directive
      skip
      directives true true n
    | .directive (.handle name address) => do
      let r ← get
      if (r.handles.lookup name).isSome then throw .directive
      set { r with handles := (name, address) :: r.handles }
      skip
      directives versioned true n
    | _ => return found

/-- The contents of a document after its first line, which may be left out. -/
def contents (bound : Nat) : Read Node := do
  let t ← peek
  match t.kind with
  | .directive _ => return .absent t.line
  | _ => nodeUnless [.documentStart, .documentEnd, .streamEnd] true false bound

/-- The first document, if there is one. What follows it must be a token as well. -/
def document (bound : Nat) : Read (Option Node) := do
  if (← peek).kind == .streamEnd then return none
  let directed ← directives false false bound
  modify fun r => { r with handles := r.handles ++ Tag.handles }
  let root ←
    if ← skipIf .documentStart then contents bound
    else if directed then throw .unexpected
    else node true false bound
  let _ ← peek
  return some root

end Read

/-- A tree with the nodes that have been named. -/
structure Document where
  root : Node
  /-- The named nodes with their numbers. -/
  nodes : List (Nat × Node)
  /-- A bound on the number of nodes. -/
  size : Nat

/-- The node that an alias refers to; any other node is itself. -/
def Document.target (d : Document) : Node → Node
  | .alias name number line => (d.nodes.lookup number).getD (.alias name number line)
  | n => n

/-- **The first document of a text**, or none if the text holds no document. -/
def document (text : String) : Except Flaw (Option Document) := do
  match Scanner.ofText? text with
  | none => throw .character
  | some scanner =>
    let (root, r) ← (Read.document (16 * text.length + 64)).run ⟨scanner, [], [], []⟩
    return root.map fun root => ⟨root, r.nodes, text.length + 1⟩

end Octet.Markup
