import Rematch.Config.Yaml.Resolution
import Rematch.Config.Yaml.Stream

/-!
The nodes of a document, read from its tokens: scalars, lists and tables, and references to nodes
with an anchor. An anchor can be referred to within its own node.
-/

namespace Rematch.Config.Yaml

inductive Node where
  | scalar (line : Nat) (tag text : Bytes)
  | sequence (line : Nat) (tag : Bytes) (items : List Node)
  | mapping (line : Nat) (tag : Bytes) (entries : List (Node × Node))
  /-- A reference to the node with a number, which is itself the reference with a number. -/
  | reference (line : Nat) (name : Bytes) (target number : Nat)

def emptyNode (line : Nat) : Node := .scalar line ScalarKind.null.tag []

/-- A document: its outermost node, and the nodes with an anchor by their numbers. -/
structure Document where
  root : Node
  anchored : List (Nat × Node) := []

structure NodeReader where
  stream : Stream
  handles : List (Bytes × Bytes) := []
  anchors : List (Bytes × Nat) := []
  anchored : List (Nat × Node) := []
  references : Nat := 0

abbrev Reading := StateT NodeReader (Except YamlError)

def peek : Reading Token := do
  let reader ← get
  let (token, stream) ← reader.stream.peek
  set { reader with stream }
  return token

def skip : Reading Unit := modify fun reader => { reader with stream := reader.stream.skip }

def advance : Reading Token := do
  skip
  peek

structure Properties where
  anchor? : Option Bytes := none
  tag? : Option (Bytes × Bytes × Nat) := none
  line : Nat

def readAnchor (properties : Properties) : Reading Properties := do
  match (← peek).lexeme, properties.anchor? with
  | .anchor name, none =>
    skip
    return { properties with anchor? := some name }
  | _, _ => return properties

def readTagProperty (properties : Properties) : Reading Properties := do
  let token ← peek
  match token.lexeme with
  | .tag handle suffix =>
    skip
    return { properties with tag? := some (handle, suffix, token.line) }
  | _ => return properties

def readProperties : Reading Properties := do
  let token ← peek
  let properties ← readAnchor { line := token.line }
  let properties ← readTagProperty properties
  readAnchor properties

def Properties.fullTag (properties : Properties) : Reading Bytes := do
  match properties.tag? with
  | none => return []
  | some (handle, suffix, line) =>
    if handle.isEmpty then return suffix
    match (← get).handles.lookup handle with
    | some expansion => return expansion ++ suffix
    | none => throw (.parsing properties.line line "found undefined tag handle")

def settledTag (tag fallback : Bytes) : Bytes :=
  if tag.isEmpty ∨ tag = Bytes.ofString "!" then fallback else shorten tag

def Properties.register (properties : Properties) : Reading (Option Nat) := do
  match properties.anchor? with
  | none => return none
  | some name =>
    let reader ← get
    let number := reader.anchors.length
    set { reader with anchors := (name, number) :: reader.anchors }
    return some number

def keep (number? : Option Nat) (node : Node) : Reading Node := do
  if let some number := number? then
    modify fun reader => { reader with anchored := (number, node) :: reader.anchored }
  return node

def readReference (line : Nat) (name : Bytes) : Reading Node := do
  skip
  let reader ← get
  match reader.anchors.lookup name with
  | none => throw (.unknownAnchor name)
  | some target =>
    set { reader with references := reader.references + 1 }
    return .reference line name target reader.references

mutual

/-- Reads a node. Block collections, and lists without an indentation of their own, are nodes only
where they are allowed. -/
def readNode (allowsBlock allowsDashes : Bool) : Nat → Reading Node
  | 0 => return emptyNode 0
  | fuel + 1 => do
    let first ← peek
    if let .alias_ name := first.lexeme then return ← readReference first.line name
    let properties ← readProperties
    let tag ← properties.fullTag
    let line := properties.line
    let token ← peek
    match token.lexeme with
    | .scalar text isPlain =>
      skip
      let fallback := if isPlain then plainTag text else ScalarKind.text.tag
      keep (← properties.register) (.scalar line (settledTag tag fallback) text)
    | .sign .flowSequenceStart =>
      let number? ← properties.register
      skip
      let items ← readFlowItems fuel token.line true []
      keep number? (.sequence line (settledTag tag sequenceTag) items)
    | .sign .flowMappingStart =>
      let number? ← properties.register
      skip
      let entries ← readFlowEntries fuel token.line true []
      keep number? (.mapping line (settledTag tag mappingTag) entries)
    | _ =>
      if token.is .blockEntry && allowsDashes then
        let number? ← properties.register
        let items ← readDashItems fuel []
        keep number? (.sequence line (settledTag tag sequenceTag) items)
      else if token.is .blockSequenceStart && allowsBlock then
        let number? ← properties.register
        skip
        let items ← readBlockItems fuel token.line []
        keep number? (.sequence line (settledTag tag sequenceTag) items)
      else if token.is .blockMappingStart && allowsBlock then
        let number? ← properties.register
        skip
        let entries ← readBlockEntries fuel token.line []
        keep number? (.mapping line (settledTag tag mappingTag) entries)
      else if properties.anchor?.isSome || !tag.isEmpty then
        keep (← properties.register) (.scalar line (settledTag tag ScalarKind.null.tag) [])
      else throw (.parsing line token.line "did not find expected node content")
termination_by structural fuel => fuel

def readBlockItems : Nat → Nat → List Node → Reading (List Node)
  | 0, _, items => return items.reverse
  | fuel + 1, start, items => do
    let token ← peek
    if token.is .blockEntry then
      let next ← advance
      let item ←
        if next.isAny [.blockEntry, .blockEnd] then pure (emptyNode token.line)
        else readNode true false fuel
      readBlockItems fuel start (item :: items)
    else if token.is .blockEnd then
      skip
      return items.reverse
    else throw (.parsing start token.line "did not find expected '-' indicator")
termination_by structural fuel => fuel

def readDashItems : Nat → List Node → Reading (List Node)
  | 0, items => return items.reverse
  | fuel + 1, items => do
    let token ← peek
    if token.is .blockEntry then
      let next ← advance
      let item ←
        if next.isAny [.blockEntry, .key, .value, .blockEnd] then pure (emptyNode token.line)
        else readNode true false fuel
      readDashItems fuel (item :: items)
    else return items.reverse
termination_by structural fuel => fuel

def readBlockEntries : Nat → Nat → List (Node × Node) → Reading (List (Node × Node))
  | 0, _, entries => return entries.reverse
  | fuel + 1, start, entries => do
    let token ← peek
    if token.is .key then
      let next ← advance
      let key ←
        if next.isAny [.key, .value, .blockEnd] then pure (emptyNode token.line)
        else readNode true true fuel
      let token ← peek
      let value ←
        if token.is .value then
          let next ← advance
          if next.isAny [.key, .value, .blockEnd] then pure (emptyNode token.line)
          else readNode true true fuel
        else pure (emptyNode token.line)
      readBlockEntries fuel start ((key, value) :: entries)
    else if token.is .blockEnd then
      skip
      return entries.reverse
    else throw (.parsing start token.line "did not find expected key")
termination_by structural fuel => fuel

def readFlowItems : Nat → Nat → Bool → List Node → Reading (List Node)
  | 0, _, _, items => return items.reverse
  | fuel + 1, start, isFirst, items => do
    let token ← peek
    if token.is .flowSequenceEnd then
      skip
      return items.reverse
    if !isFirst && !token.is .flowEntry then
      throw (.parsing start token.line "did not find expected ',' or ']'")
    let token ← if isFirst then pure token else advance
    if token.is .flowSequenceEnd then
      skip
      return items.reverse
    let item ←
      if token.is .key then
        skip
        let entry ← readPair fuel
        pure (.mapping token.line mappingTag [entry])
      else readNode false false fuel
    readFlowItems fuel start false (item :: items)
termination_by structural fuel => fuel

def readPair : Nat → Reading (Node × Node)
  | 0 => return (emptyNode 0, emptyNode 0)
  | fuel + 1 => do
    let token ← peek
    let key ←
      if token.isAny [.value, .flowEntry, .flowSequenceEnd] then do
        skip
        pure (emptyNode token.line)
      else readNode false false fuel
    let token ← peek
    let value ←
      if token.is .value then
        let next ← advance
        if next.isAny [.flowEntry, .flowSequenceEnd] then pure (emptyNode token.line)
        else readNode false false fuel
      else pure (emptyNode token.line)
    let _ ← peek
    return (key, value)
termination_by structural fuel => fuel

def readFlowEntries : Nat → Nat → Bool → List (Node × Node) → Reading (List (Node × Node))
  | 0, _, _, entries => return entries.reverse
  | fuel + 1, start, isFirst, entries => do
    let token ← peek
    if token.is .flowMappingEnd then
      skip
      return entries.reverse
    if !isFirst && !token.is .flowEntry then
      throw (.parsing start token.line "did not find expected ',' or '\x7d'")
    let token ← if isFirst then pure token else advance
    if token.is .flowMappingEnd then
      skip
      return entries.reverse
    let entry ←
      if token.is .key then readFlowEntry fuel
      else do
        let key ← readNode false false fuel
        pure (key, emptyNode (← peek).line)
    readFlowEntries fuel start false (entry :: entries)
termination_by structural fuel => fuel

def readFlowEntry : Nat → Reading (Node × Node)
  | 0 => return (emptyNode 0, emptyNode 0)
  | fuel + 1 => do
    let next ← advance
    let key ←
      if next.isAny [.value, .flowEntry, .flowMappingEnd] then pure (emptyNode next.line)
      else readNode false false fuel
    let token ← peek
    let value ←
      if token.is .value then
        let next ← advance
        if next.isAny [.flowEntry, .flowMappingEnd] then pure (emptyNode next.line)
        else readNode false false fuel
      else pure (emptyNode token.line)
    return (key, value)
termination_by structural fuel => fuel

end

def defaultHandles : List (Bytes × Bytes) := [
  (Bytes.ofString "!", Bytes.ofString "!"),
  (Bytes.ofString "!!", commonTags)]

def readDirectives : Nat → Bool → Reading Unit
  | 0, _ => return ()
  | fuel + 1, hasVersion => do
    let token ← peek
    match token.lexeme with
    | .version major minor =>
      if hasVersion then throw (.parsing 0 token.line "found duplicate %YAML directive")
      if major ≠ 1 ∨ minor ≠ 1 then
        throw (.parsing 0 token.line "found incompatible YAML document")
      skip
      readDirectives fuel true
    | .handle name expansion =>
      let reader ← get
      if (reader.handles.lookup name).isSome then
        throw (.parsing 0 token.line "found duplicate %TAG directive")
      set { reader with handles := (name, expansion) :: reader.handles }
      skip
      readDirectives fuel hasVersion
    | _ => return ()

def readRoot (fuel : Nat) : Reading (Option Node) := do
  let token ← peek
  if token.is .streamEnd then return none
  let isExplicit := token.isDirective || token.is .documentStart
  if isExplicit then
    readDirectives fuel false
    let token ← peek
    if !token.is .documentStart then
      throw (.parsing 0 token.line "did not find expected <document start>")
    skip
  modify fun reader => { reader with handles := reader.handles ++ defaultHandles }
  let token ← peek
  let isEmpty :=
    token.isDirective || token.isAny [.documentStart, .documentEnd, .streamEnd]
  let root ← if isExplicit && isEmpty then pure (emptyNode token.line) else readNode true false fuel
  let _ ← peek
  return some root

def Document.ofBytes (bytes : Bytes) : Except YamlError (Option Document) := do
  let cursor := Cursor.ofSource (Source.ofBytes bytes)
  let (root?, reader) ← (readRoot (4 * cursor.limit + 4)).run { stream := { cursor } }
  return root?.map fun root => { root, anchored := reader.anchored }

end Rematch.Config.Yaml
