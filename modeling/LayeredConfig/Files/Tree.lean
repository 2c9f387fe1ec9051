import LayeredConfig.Files.Path
import LayeredConfig.Files.View

/-! # File trees

A file tree is what the program sees of a file system: the entries at their places, and the directory
from which relative paths start. There are no links, so the place that a path leads to is its canonical
form. The root is always a directory.
-/
namespace LayeredConfig

/-- The names that lead from the root to an entry. -/
abbrev Place := List String

inductive Entry where
  | file (bytes : ByteArray)
  | directory

structure FileTree where
  entries : List (Place × Entry)
  working : Place

namespace FileTree

def entry? (t : FileTree) (place : Place) : Option Entry :=
  if place = [] then some .directory else t.entries.lookup place

def isDirectory (t : FileTree) (place : Place) : Bool :=
  match t.entry? place with
  | some .directory => true
  | _ => false

def nameLimit : Nat := 255

def pathLimit : Nat := 4095

/-- Walks along the pieces of a path. Every step, also one that leads nowhere else, starts at a
directory. -/
def walk (t : FileTree) (here : Place) : List (List Char) → Except IoKind Place
  | [] => .ok here
  | piece :: rest =>
    if !t.isDirectory here then .error .notADirectory
    else if Path.isVoid piece then t.walk here rest
    else if piece = ['.', '.'] then t.walk here.dropLast rest
    else
      let name := String.ofList piece
      if nameLimit < name.utf8ByteSize then .error .invalidFilename
      else if (t.entry? (here ++ [name])).isSome then t.walk (here ++ [name]) rest
      else .error .notFound

def locatePieces (t : FileTree) : List (List Char) → Except IoKind Place
  | [[]] => .error .notFound
  | [] :: rest => t.walk [] rest
  | pieces => t.walk t.working pieces

def locate (t : FileTree) (path : String) : Except IoKind Place :=
  if path.toList.contains '\x00' then .error .invalidInput
  else if pathLimit < path.utf8ByteSize then .error .invalidFilename
  else t.locatePieces (Path.pieces path.toList)

def isFile (t : FileTree) (path : String) : Bool :=
  match t.locate path with
  | .ok place =>
    match t.entry? place with
    | some (.file _) => true
    | _ => false
  | .error _ => false

def placePath (place : Place) : String :=
  if place.isEmpty then "/" else String.join (place.map ("/" ++ ·))

def canonicalPath (t : FileTree) (path : String) : Except IoKind String :=
  placePath <$> t.locate path

def read (t : FileTree) (path : String) : Except IoKind String := do
  let place ← t.locate path
  match t.entry? place with
  | some (.file bytes) =>
    match String.fromUTF8? bytes with
    | some text => .ok text
    | none => .error .invalidData
  | some .directory => .error .isADirectory
  | none => .error .notFound

def insert (t : FileTree) (place : Place) (bytes : ByteArray) : FileTree :=
  { t with entries := (place, .file bytes) :: t.entries.filter (·.1 ≠ place) }

def erase (t : FileTree) (place : Place) : FileTree :=
  { t with entries := t.entries.filter (·.1 ≠ place) }

/-- Where a file that is moved to a path comes to stand. A path that ends in a slash asks for a
directory, and `.`, `..` and the root cannot be replaced. -/
def replaceable (t : FileTree) (path : String) : Except IoKind Place :=
  let reversed := (Path.pieces path.toList).reverse
  match reversed with
  | [[]] => .error .notFound
  | last :: before =>
    if last = [] then
      match before.dropWhile (·.isEmpty) with
      | [] => .error .resourceBusy
      | name :: _ =>
        if Path.isVoid name || name = ['.', '.'] then .error .resourceBusy
        else .error .notADirectory
    else if Path.isVoid last || last = ['.', '.'] then .error .resourceBusy
    else do
      let directory ← if before.isEmpty then .ok t.working else t.locatePieces (before.reverse ++ [[]])
      let place := directory ++ [String.ofList last]
      if t.isDirectory place then .error .isADirectory else .ok place
  | [] => .error .notFound

theorem canonicalPath_mem {t : FileTree} {path canonical : String} (hf : t.isFile path = true)
    (h : t.canonicalPath path = .ok canonical) : canonical ∈ t.entries.map (placePath ·.1) := by
  unfold isFile at hf
  unfold canonicalPath at h
  cases hl : t.locate path with
  | error kind => simp [hl] at hf
  | ok place =>
    rw [hl] at h hf
    cases h
    unfold entry? at hf
    by_cases hroot : place = []
    · simp [hroot] at hf
    · simp only [if_neg hroot] at hf
      cases hentry : t.entries.lookup place with
      | none => simp [hentry] at hf
      | some entry =>
        obtain ⟨before,after,he,_⟩ := List.lookup_eq_some_iff.mp hentry
        rw [he]
        simp

def view (t : FileTree) : FileView where
  isFile := t.isFile
  canonicalPath := t.canonicalPath
  read := t.read
  canonicalPaths := t.entries.map (placePath ·.1)
  canonicalPath_mem := canonicalPath_mem

instance : Coe FileTree FileView := ⟨view⟩

def names (t : FileTree) : List String :=
  t.entries.filterMap fun (place, _) =>
    if place ≠ [] ∧ place.dropLast = t.working then place.getLast? else none

end FileTree
end LayeredConfig
