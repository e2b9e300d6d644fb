import StepLoom.Yaml.Token

/-!
# Nodes

`Document.ofTokens` puts the tokens of one document together to numbered nodes. Every node has its
tag, given in the text or found from it. A collection knows its members by their numbers, and an
alias is the number of the node that its anchor names; so a node can stand at several places, and
also inside itself.
-/

namespace StepLoom

namespace Yaml

inductive Node where
  | scalar (tag : Tag) (text : String)
  | seq (tag : Tag) (items : List Nat)
  | map (tag : Tag) (pairs : List (Nat × Nat))

instance : Inhabited Node := ⟨.scalar .null ""⟩

namespace Node

def tag : Node → Tag
  | scalar tag _ | seq tag _ | map tag _ => tag

def withTag (tag : Tag) : Node → Node
  | scalar _ text => scalar tag text
  | seq _ items => seq tag items
  | map _ pairs => map tag pairs

/-- The node where nothing is written. -/
def nothing : Node := .scalar .null ""

end Node

/-- The nodes of a document; none is the root of an empty one. -/
structure Document where
  nodes : Array Node
  root : Option Nat

/-- The texts that stand in front of the known tags. -/
def standardPrefix : String := "tag:yaml.org,2002:"

def Tag.ofText (text : String) : Tag :=
  let known : List (String × Tag) :=
    [("null", .null), ("bool", .bool), ("int", .int), ("float", .float), ("timestamp", .timestamp),
      ("binary", .binary), ("str", .str), ("seq", .seq), ("map", .map), ("omap", .omap),
      ("pairs", .pairs), ("set", .set), ("merge", .merge), ("value", .default)]
  match known.find? fun (name, _) => text == standardPrefix ++ name with
  | some (_, tag) => tag
  | none => .other

/-- What is left to read, and what has been met on the way. -/
structure Composer where
  dialect : Dialect
  tokens : List Token
  /-- What keeps the text from having more tokens. -/
  broken : Option Fault
  nodes : Array Node := #[]
  anchors : List (String × Nat) := []
  handles : List (String × String) := []

namespace Composer

abbrev Step := StateT Composer (Except Fault)

def peek : Step (Option Token) := do
  let s ← get
  match s.tokens, s.broken with
  | t :: _, _ => return some t
  | [], none => return none
  | [], some fault => throw fault

def drop : Step Unit := modify fun s => { s with tokens := s.tokens.drop 1 }

def defaultHandles : List (String × String) := [("!", "!"), ("!!", standardPrefix)]

/-- The directives in front of a document: one version at most, and each handle once. -/
def directives : Nat → (hasVersion : Bool) → Step Unit
  | 0, _ => return
  | fuel + 1, hasVersion => do
    match ← peek with
    | some (.directive d) =>
      drop
      match d with
      | .version major =>
        if hasVersion || major != 1 then throw .yaml
        directives fuel true
      | .handle name text =>
        if (← get).handles.any (·.1 == name) then throw .yaml
        modify fun s => { s with handles := (name, text) :: s.handles }
        directives fuel hasVersion
      | .unknown => directives fuel hasVersion
    | _ => return

/-- An anchor and a tag in front of a node, in either order. -/
def properties : Step (Option String × Option (Option String × String)) := do
  match ← peek with
  | some (.anchor a) =>
    drop
    match ← peek with
    | some (.tag h t) => drop; return (some a, some (h, t))
    | _ => return (some a, none)
  | some (.tag h t) =>
    drop
    match ← peek with
    | some (.anchor a) => drop; return (some a, some (h, t))
    | _ => return (none, some (h, t))
  | _ => return (none, none)

/-- The full text of a tag; the tag `!` asks for the default and counts as none. -/
def tagText (given : Option (Option String × String)) : Step (Option String) := do
  match given with
  | none => return none
  | some (none, text) => return if text = "!" then none else some text
  | some (some handle, text) =>
    match (← get).handles.find? (·.1 == handle) with
    | some (_, full) => return some (full ++ text)
    | none => throw .yaml

/-- A new node, under its anchor. No anchor is given twice. -/
def add (anchor : Option String) (n : Node) : Step Nat := do
  let number := (← get).nodes.size
  match anchor with
  | some a =>
    if (← get).anchors.any (·.1 == a) then throw .yaml
    modify fun s => { s with anchors := (a, number) :: s.anchors }
  | none => pure ()
  modify fun s => { s with nodes := s.nodes.push n }
  return number

/-- Gives a node its content. -/
def complete (number : Nat) (n : Node) : Step Nat := do
  modify fun s => { s with nodes := s.nodes.setIfInBounds number n }
  return number

def lookUp (anchor : String) : Step Nat := do
  match (← get).anchors.find? (·.1 == anchor) with
  | some (_, n) => return n
  | none => throw .yaml

/-- A new node where nothing is written. -/
def nothing : Step Nat := add none .nothing

def plainTag (text : String) : Step Tag := return Tag.ofPlain (← get).dialect text

/-- The tag of a collection. -/
def collectionTag (given : Option String) (usual : Tag) : Tag :=
  match given with
  | some text => Tag.ofText text
  | none => usual

/-- A sequence, known under its anchor before its items are read. -/
def sequence (anchor : Option String) (given : Option String) (items : Step (List Nat)) :
    Step Nat := do
  let tag := collectionTag given .seq
  let number ← add anchor (.seq tag [])
  complete number (.seq tag (← items))

/-- A mapping, known under its anchor before its fields are read. -/
def mapping (anchor : Option String) (given : Option String) (pairs : Step (List (Nat × Nat))) :
    Step Nat := do
  let tag := collectionTag given .map
  let number ← add anchor (.map tag [])
  complete number (.map tag (← pairs))

/-- A node without content, which needs an anchor or a tag. -/
def empty (anchor : Option String) (given : Option (Option String × String))
    (tag : Option String) : Step Nat := do
  if anchor.isNone && given.isNone then throw .yaml
  match tag with
  | some t => add anchor (.scalar (Tag.ofText t) "")
  | none => add anchor .nothing

mutual

/-- A node. `isBlock` allows block collections, `isField` a sequence that is not indented. -/
def node : Nat → (isBlock isField : Bool) → Step Nat
  | 0, _, _ => throw .yaml
  | fuel + 1, isBlock, isField => do
    match ← peek with
    | some (.alias a) => drop; lookUp a
    | _ =>
      let (anchor, given) ← properties
      let tag ← tagText given
      match ← peek with
      | some .entry =>
        if isField then sequence anchor tag (levelEntries fuel)
        else empty anchor given tag
      | some (.scalar isPlain text) =>
        drop
        let tag ← match tag with
          | some t => pure (Tag.ofText t)
          | none => if isPlain || given.isSome then plainTag text else pure .str
        add anchor (.scalar tag text)
      | some .openBracket => drop; sequence anchor tag (flowItems fuel true)
      | some .openBrace => drop; mapping anchor tag (flowFields fuel true)
      | some .blockSequence =>
        if isBlock then drop; sequence anchor tag (blockEntries fuel)
        else empty anchor given tag
      | some .blockMapping =>
        if isBlock then drop; mapping anchor tag (blockFields fuel)
        else empty anchor given tag
      | _ => empty anchor given tag

/-- Entries of a block sequence, up to its end. -/
def blockEntries : Nat → Step (List Nat)
  | 0 => throw .yaml
  | fuel + 1 => do
    match ← peek with
    | some .entry =>
      drop
      let item ← match ← peek with
        | some .entry | some .blockEnd => nothing
        | _ => node fuel true false
      return item :: (← blockEntries fuel)
    | some .blockEnd => drop; return []
    | _ => throw .yaml

/-- Entries of a sequence that stands at the level of the mapping it belongs to. -/
def levelEntries : Nat → Step (List Nat)
  | 0 => throw .yaml
  | fuel + 1 => do
    match ← peek with
    | some .entry =>
      drop
      let item ← match ← peek with
        | some .entry | some .key | some .value | some .blockEnd => nothing
        | _ => node fuel true false
      return item :: (← levelEntries fuel)
    | _ => return []

/-- Fields of a block mapping, up to its end. -/
def blockFields : Nat → Step (List (Nat × Nat))
  | 0 => throw .yaml
  | fuel + 1 => do
    match ← peek with
    | some .key =>
      drop
      let key ← match ← peek with
        | some .key | some .value | some .blockEnd => nothing
        | _ => node fuel true true
      let value ← match ← peek with
        | some .value =>
          drop
          match ← peek with
          | some .key | some .value | some .blockEnd => nothing
          | _ => node fuel true true
        | _ => nothing
      return (key, value) :: (← blockFields fuel)
    | some .blockEnd => drop; return []
    | _ => throw .yaml

/-- Items in brackets, up to the closing one. A key among them makes a mapping of one field. -/
def flowItems : Nat → (isFirst : Bool) → Step (List Nat)
  | 0, _ => throw .yaml
  | fuel + 1, isFirst => do
    match ← peek with
    | some .closeBracket => drop; return []
    | _ =>
      if !isFirst then
        match ← peek with
        | some .comma => drop
        | _ => throw .yaml
      match ← peek with
      | some .key =>
        drop
        let number ← add none (.map .map [])
        let key ← match ← peek with
          | some .value | some .comma | some .closeBracket => nothing
          | _ => node fuel false false
        let value ← match ← peek with
          | some .value =>
            drop
            match ← peek with
            | some .comma | some .closeBracket => nothing
            | _ => node fuel false false
          | _ => nothing
        discard (complete number (.map .map [(key, value)]))
        return number :: (← flowItems fuel false)
      | some .closeBracket => drop; return []
      | _ =>
        let item ← node fuel false false
        return item :: (← flowItems fuel false)

/-- Fields in braces, up to the closing one. -/
def flowFields : Nat → (isFirst : Bool) → Step (List (Nat × Nat))
  | 0, _ => throw .yaml
  | fuel + 1, isFirst => do
    match ← peek with
    | some .closeBrace => drop; return []
    | _ =>
      if !isFirst then
        match ← peek with
        | some .comma => drop
        | _ => throw .yaml
      match ← peek with
      | some .key =>
        drop
        let key ← match ← peek with
          | some .value | some .comma | some .closeBrace => nothing
          | _ => node fuel false false
        let value ← match ← peek with
          | some .value =>
            drop
            match ← peek with
            | some .comma | some .closeBrace => nothing
            | _ => node fuel false false
          | _ => nothing
        return (key, value) :: (← flowFields fuel false)
      | some .closeBrace => drop; return []
      | _ =>
        let key ← node fuel false false
        let value ← nothing
        return (key, value) :: (← flowFields fuel false)

end

/-- Marks of document ends, as many as there are. -/
def dropEnds : Nat → Step Unit
  | 0 => return
  | fuel + 1 => do
    match ← peek with
    | some .documentEnd => drop; dropEnds fuel
    | _ => return

/-- The content of the only document; none if there is no document. -/
def document : Step (Option Nat) := do
  let fuel := 2 * (← get).tokens.length + 2
  let root ← match ← peek with
    | some .streamEnd => pure none
    | some (.directive _) | some .documentStart =>
      directives fuel false
      modify fun s => { s with
        handles := s.handles ++ defaultHandles.filter fun (k, _) => !s.handles.any (·.1 == k) }
      match ← peek with
      | some .documentStart =>
        drop
        match ← peek with
        | some (.directive _) | some .documentStart | some .documentEnd | some .streamEnd =>
          some <$> nothing
        | _ => some <$> node fuel true false
      | _ => throw .yaml
    | _ =>
      modify fun s => { s with handles := defaultHandles }
      some <$> node fuel true false
  dropEnds fuel
  match ← peek with
  | some .streamEnd => return root
  | _ => throw .yaml

end Composer

/-- The document in some tokens. -/
def Document.ofTokens (dialect : Dialect) (tokens : Tokens) : Except Fault Document := do
  let start : Composer := { dialect, tokens := tokens.list, broken := tokens.broken }
  let (root, s) ← Composer.document.run start
  return ⟨s.nodes, root⟩

end Yaml

end StepLoom
