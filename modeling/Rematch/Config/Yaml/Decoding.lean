import Rematch.Config.Literal
import Rematch.Config.Yaml.Node

/-!
Settings in YAML: the table that the first document of a text is. Faults of single values are
collected, and any other fault ends the reading. References make a node count once more each time,
and too many of them are refused.
-/

namespace Rematch.Config.Yaml

namespace Node

def line : Node → Nat
  | .scalar line .. | .sequence line .. | .mapping line .. | .reference line .. => line

def content : Node → Bytes
  | .scalar _ _ text => text
  | .reference _ name .. => name
  | _ => []

def isSame (first second : Node) : Bool :=
  match first, second with
  | .scalar _ _ first, .scalar _ _ second => first == second
  | .reference _ first .., .reference _ second .. => first == second
  | .sequence .., .sequence .. | .mapping .., .mapping .. => true
  | _, _ => false

def isMergeKey : Node → Bool
  | .scalar _ tag text => tag = mergeTag && text = Bytes.ofString "<<"
  | _ => false

end Node

def Document.target (document : Document) (number : Nat) : Node :=
  (document.anchored.lookup number).getD (emptyNode 0)

def Document.tagOf (document : Document) : Node → Bytes
  | .scalar _ tag _ | .sequence _ tag _ | .mapping _ tag _ => tag
  | .reference _ _ target _ =>
    match document.target target with
    | .scalar _ tag _ | .sequence _ tag _ | .mapping _ tag _ => tag
    | .reference .. => []

def Document.isMapping (document : Document) (node : Node) : Bool :=
  match node with
  | .mapping .. => true
  | .reference _ _ target _ =>
    match document.target target with
    | .mapping .. => true
    | _ => false
  | _ => false

def repeatedKeys : List Node → List TypeFault
  | [] => []
  | first :: keys =>
    (keys.filter first.isSame).map (fun key =>
      .duplicateKey key.line key.content first.line) ++ repeatedKeys keys

structure Decoder where
  visits : Nat := 0
  referredVisits : Nat := 0
  openReferences : List Nat := []
  faults : List TypeFault := []

abbrev Decoding := StateT Decoder (Except YamlError)

def freeVisits : Nat := 400000

def strictVisits : Nat := 4000000

/-- Whether too many visits are within references. The allowed part goes down from 99 to 10 in a
hundred. -/
def isExcessive (visits referredVisits : Nat) : Bool :=
  let span := strictVisits - freeVisits
  let beyond := min visits strictVisits - freeVisits
  100 < referredVisits && 1000 < visits &&
    visits * (99 * span - 89 * beyond) < referredVisits * 100 * span

def visit : Decoding Unit := do
  let decoder ← get
  let visits := decoder.visits + 1
  let referredVisits :=
    if decoder.openReferences.isEmpty then decoder.referredVisits else decoder.referredVisits + 1
  if isExcessive visits referredVisits then throw .excessiveAliases
  set { decoder with visits, referredVisits }

def report (faults : List TypeFault) : Decoding Unit :=
  modify fun decoder => { decoder with faults := faults.reverse ++ decoder.faults }

def follow {α : Type} (name : Bytes) (number : Nat) (decode : Decoding α) : Decoding α := do
  if number ∈ (← get).openReferences then throw (.selfReference name)
  modify fun decoder => { decoder with openReferences := number :: decoder.openReferences }
  let result ← decode
  modify fun decoder => { decoder with openReferences := decoder.openReferences.drop 1 }
  return result

inductive Target where
  | text
  | settings

def Target.name : Target → String
  | .text => "string"
  | .settings => "map[string]interface \x7b\x7d"

def mismatch (target : Target) : Node → Decoding Unit
  | .scalar line tag text => report [.mistyped line tag text target.name]
  | .sequence line tag _ | .mapping line tag _ => report [.mistyped line tag [] target.name]
  | .reference .. => return ()

def checkKeys (entries : List (Node × Node)) : Decoding Bool := do
  let faults := repeatedKeys (entries.map (·.1))
  report faults
  return faults.isEmpty

def decodeName (document : Document) : Nat → Node → Decoding (Option Value)
  | 0, _ => return none
  | fuel + 1, node => do
    visit
    match node with
    | .reference _ name target number =>
      follow name number (decodeName document fuel (document.target target))
    | .scalar _ tag text =>
      match ← resolve tag text with
      | .null => return none
      | .text bytes => return some (.text bytes)
      | _ => return some (.text text)
    | .sequence .. =>
      mismatch .text node
      return none
    | .mapping _ _ entries =>
      if ← checkKeys entries then mismatch .text node
      return none

def hashable (key : Value) : Decoding Value :=
  match key with
  | .list _ | .table _ => throw (.unhashableKey key.kind)
  | _ => return key

/-- A table being filled: its entries, later ones first, and the keys that may not be set any
more. -/
structure Filling where
  entries : List (Value × Value)
  /-- The keys are known only while tables are merged. -/
  settled? : Option (List Value)

mutual

def decodeNode (document : Document) : Nat → Node → Decoding (Option Value)
  | 0, _ => return none
  | fuel + 1, node => do
    visit
    match node with
    | .reference _ name target number =>
      follow name number (decodeNode document fuel (document.target target))
    | .scalar _ tag text => return some (← resolve tag text)
    | .sequence _ _ items => return some (.list (← decodeItems document fuel [] items))
    | .mapping _ _ entries =>
      if !(← checkKeys entries) then return none
      let tags := [ScalarKind.text.tag, mergeTag]
      let hasNames := entries.all fun (key, _) => tags.contains (document.tagOf key)
      let filling ← fill document fuel hasNames entries { entries := [], settled? := none }
      return some (.table filling.entries)

def decodeItems (document : Document) : Nat → List Value → List Node → Decoding (List Value)
  | 0, values, _ | _, values, [] => return values.reverse
  | fuel + 1, values, item :: items => do
    match ← decodeNode document fuel item with
    | some value => decodeItems document fuel (value :: values) items
    | none => decodeItems document fuel values items

def fill (document : Document) :
    Nat → Bool → List (Node × Node) → Filling → Decoding Filling
  | 0, _, _, filling => return filling
  | fuel + 1, hasNames, entries, filling => do
    let ordinary := entries.filter fun (key, _) => !key.isMergeKey
    let merged? := (entries.filter fun (key, _) => key.isMergeKey).getLast?
    let filling ← addEntries document fuel hasNames filling ordinary
    match merged? with
    | none => return filling
    | some (_, source) =>
      let settled ← match filling.settled? with
        | some settled => pure settled
        | none => settledKeys document fuel [] (entries.map (·.1))
      let filling' ← merge document fuel hasNames source { filling with settled? := some settled }
      return { filling' with settled? := filling.settled?.bind fun _ => filling'.settled? }

def addEntries (document : Document) :
    Nat → Bool → Filling → List (Node × Node) → Decoding Filling
  | 0, _, filling, _ | _, _, filling, [] => return filling
  | fuel + 1, hasNames, filling, (key, value) :: entries => do
    let key? ←
      if hasNames then decodeName document fuel key else decodeNode document fuel key
    match key? with
    | none => addEntries document fuel hasNames filling entries
    | some key =>
      let isSettled ← match filling.settled? with
        | some settled => do
          let key ← hashable key
          pure (settled.any key.isSameKey)
        | none => pure false
      if isSettled then addEntries document fuel hasNames filling entries
      else
        match key with
        | .list _ | .table _ => throw (.invalidKey key.literal)
        | _ =>
          let settled? := filling.settled?.map (key :: ·)
          let value? ← decodeNode document fuel value
          let filled := match value? with
            | some value => (key, value) :: filling.entries
            | none => filling.entries
          addEntries document fuel hasNames { entries := filled, settled? } entries

def settledKeys (document : Document) : Nat → List Value → List Node → Decoding (List Value)
  | 0, settled, _ | _, settled, [] => return settled
  | fuel + 1, settled, key :: keys => do
    match ← decodeNode document fuel key with
    | some key => settledKeys document fuel ((← hashable key) :: settled) keys
    | none => settledKeys document fuel settled keys

def merge (document : Document) : Nat → Bool → Node → Filling → Decoding Filling
  | 0, _, _, filling => return filling
  | fuel + 1, hasNames, source, filling =>
    match source with
    | .sequence _ _ items => mergeItems document fuel hasNames filling items
    | _ => mergeTable document fuel hasNames source filling

def mergeItems (document : Document) :
    Nat → Bool → Filling → List Node → Decoding Filling
  | 0, _, filling, _ | _, _, filling, [] => return filling
  | fuel + 1, hasNames, filling, item :: items => do
    let filling ← mergeTable document fuel hasNames item filling
    mergeItems document fuel hasNames filling items

def mergeTable (document : Document) : Nat → Bool → Node → Filling → Decoding Filling
  | 0, _, _, filling => return filling
  | fuel + 1, hasNames, source, filling => do
    if !document.isMapping source then throw .mergeOfNoMapping
    visit
    match source with
    | .reference _ name target number =>
      follow name number (mergeTable document fuel hasNames (document.target target) filling)
    | .mapping _ _ entries =>
      if ← checkKeys entries then fill document fuel hasNames entries filling
      else return filling
    | _ => return filling

end

def decodeRoot (document : Document) (fuel : Nat) : Decoding (List (Value × Value)) := do
  visit
  visit
  match document.root with
  | .mapping _ _ entries =>
    if ← checkKeys entries then
      return (← fill document fuel true entries { entries := [], settled? := none }).entries
    else return []
  | .scalar line tag text =>
    match ← resolve tag text with
    | .null => return []
    | _ =>
      mismatch .settings (.scalar line tag text)
      return []
  | node =>
    mismatch .settings node
    return []

def decode (text : Bytes) : Except YamlError Table := do
  let some document ← Document.ofBytes text | return []
  let size := text.length + 1
  let (entries, decoder) ← (decodeRoot document (4 * size * size)).run {}
  if decoder.faults.isEmpty then
    return Table.ofEntries (entries.map fun (key, value) => (key.toText, value))
  else throw (.mistyped decoder.faults.reverse)

end Rematch.Config.Yaml
