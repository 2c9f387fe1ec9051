/-! # File paths

A path is a text of names with slashes between them. The operations here read the text alone: empty
names and `.` inside a path say nothing, and only a `.` at its very beginning counts as a name.
-/
namespace LayeredConfig.Path

def pieces : List Char → List (List Char)
  | [] => [[]]
  | c :: rest =>
    if c = '/' then [] :: pieces rest
    else match pieces rest with
      | [] => [[c]]
      | piece :: more => (c :: piece) :: more

def isVoid (piece : List Char) : Bool := piece = [] || piece = ['.']

/-- Pieces, last first, without the void ones at the end; the first piece of all is kept. -/
def trimVoid : List (List Char) → List (List Char)
  | [] => []
  | [first] => [first]
  | piece :: rest => if isVoid piece then trimVoid rest else piece :: rest

/-- The last name and the pieces before it, last first. There is none in the empty path and in the
root. -/
def splitLast (path : String) : Option (List Char × List (List Char)) :=
  match trimVoid (pieces path.toList).reverse with
  | [] => none
  | [] :: _ => none
  | piece :: rest => some (piece, rest)

def join : List (List Char) → List Char
  | [] => []
  | [[]] => ['/']
  | piece :: rest => piece ++ rest.flatMap ('/' :: ·)

def parent? (path : String) : Option String :=
  (splitLast path).map fun (_, rest) => String.ofList (join (trimVoid rest).reverse)

def fileName? (path : String) : Option (List Char) :=
  (splitLast path).bind fun (name, _) =>
    if name = ['.'] ∨ name = ['.', '.'] then none else some name

def splitDot (name : List Char) : Option (List Char × List Char) :=
  let (after, before) := name.reverse.span (· ≠ '.')
  match before with
  | [] => none
  | _ :: before => some (before.reverse, after.reverse)

/-- A name split at its last dot, unless nothing stands before it. -/
def splitName (name : List Char) : Option (List Char × List Char) :=
  (splitDot name).filter (!·.1.isEmpty)

def stem? (path : String) : Option (List Char) :=
  (fileName? path).map fun name => ((splitName name).map (·.1)).getD name

def extension? (path : String) : Option String :=
  ((fileName? path).bind splitName).map fun (_, ext) => String.ofList (ext.map Char.toLower)

/-- A path inside a directory; an absolute path stays as it is. -/
def inside (directory path : String) : String :=
  if path.toList.head? = some '/' ∨ directory = "" then path
  else if directory.toList.getLast? = some '/' then directory ++ path
  else directory ++ "/" ++ path

end LayeredConfig.Path
