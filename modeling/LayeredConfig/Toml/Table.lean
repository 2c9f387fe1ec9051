import LayeredConfig.Value.Basic

/-! # Tables under construction

A text builds its table field by field. How a table came to be decides what may still be added to it:
under a header of its own it is complete, one that a header only passed through may still get a header,
and one that dotted keys opened grows by further dotted keys.
-/
namespace LayeredConfig.Toml

inductive Origin where
  | header | passage | dottedKey
deriving DecidableEq

/-- What stands under a key of a table: a finished value, a table, or a list of tables, the last one
first. -/
inductive Item where
  | leaf (v : Value)
  | table (origin : Origin) (entries : List (String × Item))
  | tables (elements : List (List (String × Item)))

abbrev Entries := List (String × Item)

abbrev Change := Origin → Entries → Option Entries

namespace Entries

def insert (key : String) (item : Item) : Entries → Entries
  | [] => [(key, item)]
  | (k, i) :: rest => if k = key then (key, item) :: rest else (k, i) :: insert key item rest

/-- Changes the table that keys lead to. Missing tables on the way are made with the given origin. A list
of tables leads to its last one, and a dotted key may not lead into a table with a header. -/
def within (made : Origin) (change : Change) : List String → Change
  | [], origin, entries => change origin entries
  | key :: path, _, entries =>
    match entries.lookup key with
    | none => (within made change path made []).map fun new => insert key (.table made new) entries
    | some (.leaf _) => none
    | some (.table origin inner) =>
      if made = .dottedKey ∧ origin = .header then none
      else (within made change path origin inner).map fun new => insert key (.table origin new) entries
    | some (.tables []) => none
    | some (.tables (last :: before)) =>
      (within made change path .header last).map fun new => insert key (.tables (new :: before)) entries

/-- Gives a new key its value. After a dotted key the table must be one that dotted keys opened. -/
def define (dotted : Bool) (key : String) (v : Value) : Change := fun origin entries =>
  if dotted != decide (origin = .dottedKey) || (entries.lookup key).isSome then none
  else some (insert key (.leaf v) entries)

def addField (path : List String) (key : String) (v : Value) : Change :=
  within .dottedKey (define (!path.isEmpty) key v) path

/-- Opens the table of a header: a new one, or one that a header only passed through. -/
def openTable (key : String) : Change := fun _ entries =>
  match entries.lookup key with
  | none => some (insert key (.table .header []) entries)
  | some (.table .passage inner) => some (insert key (.table .header inner) entries)
  | _ => none

def openElement (key : String) : Change := fun _ entries =>
  match entries.lookup key with
  | none => some (insert key (.tables [[]]) entries)
  | some (.tables elements) => some (insert key (.tables ([] :: elements)) entries)
  | _ => none

end Entries

mutual

def Item.value : Item → Value
  | .leaf v => v
  | .table _ entries => .map (entriesFields entries)
  | .tables elements => .list (elementValues elements).reverse

def entriesFields : List (String × Item) → Fields
  | [] => []
  | (key, item) :: rest => Fields.insert key item.value (entriesFields rest)

def elementValues : List (List (String × Item)) → List Value
  | [] => []
  | entries :: rest => .map (entriesFields entries) :: elementValues rest

end

end LayeredConfig.Toml
