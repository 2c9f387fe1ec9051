import LayeredConfig.Error

/-! # Formats

A format reads and writes documents as text. Formats are found by name in a registry, which every
operation that needs them is handed.
-/
namespace LayeredConfig

structure Format where
  /-- All documents of a text, in canonical form. -/
  decode : String → Except Error (List Value)
  /-- A single document as text. -/
  encode : Value → Except Error String
  /-- Several documents as one text. -/
  encodeStream : List Value → Except Error String

/-- Formats under their names, in ascending order of the names. -/
structure Registry where
  formats : List (String × Format)

namespace Registry

def empty : Registry := ⟨[]⟩

private def insertFormat (name : String) (format : Format) :
    List (String × Format) → List (String × Format)
  | [] => [(name, format)]
  | (n, f) :: rest =>
    if name = n then (name, format) :: rest
    else if name < n then (name, format) :: (n, f) :: rest
    else (n, f) :: insertFormat name format rest

def register (r : Registry) (name : String) (format : Format) : Registry :=
  ⟨insertFormat name format r.formats⟩

def get (r : Registry) (name : String) : Except Error Format :=
  match r.formats.lookup name with
  | some f => .ok f
  | none => .error (.unknownFormat name)

def contains (r : Registry) (name : String) : Bool := (r.formats.lookup name).isSome

def names (r : Registry) : List String := r.formats.map (·.1)

end Registry

def defaultOutputFormat : String := "json-pretty"

def encodeAll (encode : Value → Except Error String) : List Value → Except Error (List String)
  | [] => .ok []
  | v :: rest => do
    let text ← encode v
    let texts ← encodeAll encode rest
    .ok (text :: texts)

end LayeredConfig
