/-! # Directives

Keys that begin with a dollar sign and are not data. No finished document holds one of them.
-/
namespace LayeredConfig

inductive Directive where
  | parent
  | pattern
  | patch
  | merge
  | replace
  | output
  | encode
deriving DecidableEq

namespace Directive

def key : Directive → String
  | parent => "$parent"
  | pattern => "$match"
  | patch => "$patch"
  | merge => "$merge"
  | replace => "$replace"
  | output => "$output"
  | encode => "$encode"

def all : List Directive := [parent, pattern, patch, merge, replace, output, encode]

def isKey (key : String) : Bool := all.any (·.key == key)

end Directive

/-- The string that stands for a value a later layer must supply. -/
def requiredMark : String := "$required"

def replacePatch : String := "replace"

/-- How deeply a merge, an evaluation or a comparison may nest. -/
def depthLimit : Nat := 1000

end LayeredConfig
