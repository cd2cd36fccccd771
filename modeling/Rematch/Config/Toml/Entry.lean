import Rematch.Config.Toml.Error
import Rematch.Config.Value

/-!
What the keys of a document stand for. A key is defined once, a table is declared once, and a table
that dotted keys made is closed at the end of the section in which they stand.
-/

namespace Rematch.Config.Toml

inductive Origin where
  /-- On the way to a table that was declared. -/
  | implied
  /-- By a dotted key in the section that is being read. -/
  | dotted
  /-- By its header, or by a dotted key in a section before. -/
  | declared
  deriving DecidableEq

/-- What a key stands for. An array of tables has its last one first. -/
inductive Entry where
  | value (value : Value)
  | table (origin : Origin) (entries : List (Bytes × Entry))
  | tables (elements : List (List (Bytes × Entry)))

abbrev Entries := List (Bytes × Entry)

def Entry.kind : Entry → EntryKind
  | .value _ => .value
  | .table _ _ => .table
  | .tables _ => .arrayTable

namespace Entries

def get? (entries : Entries) (name : Bytes) : Option Entry :=
  (entries.find? fun (key, _) => key == name).map (·.2)

def set (entries : Entries) (name : Bytes) (entry : Entry) : Entries :=
  if (entries.get? name).isSome then
    entries.map fun (key, old) => if key == name then (key, entry) else (key, old)
  else (name, entry) :: entries

def define (value : Value) : List Bytes → Entries → Except DefinitionFault Entries
  | [], entries => .ok entries
  | [name], entries =>
    match entries.get? name with
    | some _ => .error (.alreadyDefined name)
    | none => .ok (entries.set name (.value value))
  | name :: rest, entries =>
    match entries.get? name with
    | none => (define value rest []).map fun inner => entries.set name (.table .dotted inner)
    | some (.table .declared _) => .error (.closedTable name)
    | some (.table origin inner) =>
      (define value rest inner).map fun inner => entries.set name (.table origin inner)
    | some entry => .error (.expectedTable name entry.kind)

/-- Opens what a header names. `settle` gives what the last part of the key stands for from what it
stood for before. -/
def openWith (settle : Bytes → Option Entry → Except DefinitionFault Entry) :
    List Bytes → Entries → Except DefinitionFault Entries
  | [], entries => .ok entries
  | [name], entries => (settle name (entries.get? name)).map (entries.set name)
  | name :: rest, entries =>
    match entries.get? name with
    | none =>
      (openWith settle rest []).map fun inner => entries.set name (.table .implied inner)
    | some (.table origin inner) =>
      (openWith settle rest inner).map fun inner => entries.set name (.table origin inner)
    | some (.tables (current :: done)) =>
      (openWith settle rest current).map fun current =>
        entries.set name (.tables (current :: done))
    | some entry => .error (.expectedTable name entry.kind)

def settleTable (name : Bytes) : Option Entry → Except DefinitionFault Entry
  | none => .ok (.table .declared [])
  | some (.table .declared _) => .error (.secondTable name)
  | some (.table _ inner) => .ok (.table .declared inner)
  | some entry => .error (.notTable name entry.kind)

def settleTables (name : Bytes) : Option Entry → Except DefinitionFault Entry
  | none => .ok (.tables [[]])
  | some (.tables elements) => .ok (.tables ([] :: elements))
  | some entry => .error (.notArrayTable name entry.kind)

def modify (change : Entries → Except DefinitionFault Entries) :
    List Bytes → Entries → Except DefinitionFault Entries
  | [], entries => change entries
  | name :: rest, entries =>
    match entries.get? name with
    | some (.table origin inner) =>
      (modify change rest inner).map fun inner => entries.set name (.table origin inner)
    | some (.tables (current :: done)) =>
      (modify change rest current).map fun current => entries.set name (.tables (current :: done))
    | _ => .ok entries

end Entries

mutual

def Entry.close : Entry → Entry
  | .value value => .value value
  | .table origin entries =>
    .table (if origin = .dotted then .declared else origin) (closeEntries entries)
  | .tables elements => .tables (closeElements elements)

def closeEntries : List (Bytes × Entry) → List (Bytes × Entry)
  | [] => []
  | (name, entry) :: rest => (name, entry.close) :: closeEntries rest

def closeElements : List (List (Bytes × Entry)) → List (List (Bytes × Entry))
  | [] => []
  | entries :: rest => closeEntries entries :: closeElements rest

end

mutual

def Entry.toValue : Entry → Value
  | .value value => value
  | .table _ entries => .table (pairsOf entries)
  | .tables elements => .list (tablesOf elements).reverse

def pairsOf : List (Bytes × Entry) → List (Value × Value)
  | [] => []
  | (name, entry) :: rest => (.text name, entry.toValue) :: pairsOf rest

def tablesOf : List (List (Bytes × Entry)) → List Value
  | [] => []
  | entries :: rest => .table (pairsOf entries) :: tablesOf rest

end

end Rematch.Config.Toml
