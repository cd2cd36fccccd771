import Rematch.Config.Toml.Node

/-!
Settings in TOML: keys with values, line by line, in sections that headers begin. Each line is read,
checked and valued before the next one.
-/

namespace Rematch.Config.Toml

inductive Statement where
  | pair (key : List Bytes) (node : Node)
  | table (key : List Bytes)
  | tables (key : List Bytes)

def readHeader (fuel : Nat) (text : Bytes) : Except TomlError (Statement × Bytes) := do
  if (Bytes.ofString "[[").isPrefixOf text then
    let (key, rest) ← readKey fuel (skipBlanks (text.drop 2))
    let rest ← expect ']' rest
    return (.tables key, ← expect ']' rest)
  else
    let (key, rest) ← readKey fuel (skipBlanks (text.drop 1))
    return (.table key, ← expect ']' rest)

def readPair (fuel : Nat) (text : Bytes) : Except TomlError (Statement × Bytes) := do
  let (key, rest) ← readKeyAndSign fuel text
  let (node, rest) ← readNode fuel rest
  return (.pair key node, rest)

def readLine (fuel : Nat) (text : Bytes) : Except TomlError (Option Statement × Bytes) := do
  let text := skipBlanks text
  if text.isEmpty ∨ atNewline text then return (none, text)
  if Bytes.peek text = '#' then return (none, ← skipOptionalComment text)
  let (statement, rest) ←
    if Bytes.peek text = '[' then readHeader fuel text else readPair fuel text
  return (some statement, ← skipOptionalComment (skipBlanks rest))

structure Document where
  entries : Entries := []
  path : List Bytes := []

namespace Document

def openSection (document : Document)
    (settle : Bytes → Option Entry → Except DefinitionFault Entry) (key : List Bytes) :
    Except DefinitionFault Document := do
  let closed ← document.entries.modify (fun entries => .ok (closeEntries entries)) document.path
  return { entries := ← Entries.openWith settle key closed, path := key }

def define (document : Document) (key : List Bytes) (value : Value) :
    Except DefinitionFault Document := do
  let entries ← document.entries.modify (Entries.define value key) document.path
  return { document with entries }

def add (document : Document) : Statement → Except TomlError Document
  | .table key => (document.openSection Entries.settleTable key).mapError .definition
  | .tables key => (document.openSection Entries.settleTables key).mapError .definition
  | .pair key node => do
    let _ ← (document.define key .null).mapError .definition
    node.check.mapError .definition
    let value ← node.value
    (document.define key value).mapError .definition

def readLines (limit : Nat) : Nat → Bool → Document → Bytes → Except TomlError Document
  | 0, _, document, _ => .ok document
  | fuel + 1, isFirst, document, text => do
    if text.isEmpty then return document
    let text ← if isFirst then pure text else skipNewline text
    if text.isEmpty then return document
    let (statement?, rest) ← readLine limit text
    let document ← match statement? with
      | some statement => document.add statement
      | none => pure document
    readLines limit fuel false document rest

end Document

def decode (text : Bytes) : Except TomlError Table := do
  let limit := 3 * text.length + 3
  let document ← Document.readLines limit limit true {} text
  return Table.ofEntries (document.entries.map fun (name, entry) => (name, entry.toValue))

end Rematch.Config.Toml
