import LayeredConfig.Files.Tree

/-! # Replacing files

A file is replaced as a whole: its text first goes to a new file beside it, which is then moved to its
place. A device may refuse each of these steps; what a failure leaves behind is part of the result.
-/
namespace LayeredConfig

inductive WriteStep where
  | create | fill | inspect | permit | move
deriving DecidableEq

/-- A device: why it refuses a step, if it does, and how many bytes it takes when it refuses to fill a file. -/
structure Device where
  refusal : WriteStep → Option IoKind
  taken : Nat

def Device.reliable : Device := ⟨fun _ => none, 0⟩

/-- A change to a file tree. What was changed before a failure stays changed. -/
abbrev Writing (ε α : Type) := ExceptT ε (StateM FileTree) α

namespace FileTree

def attempt (device : Device) (step : WriteStep) : Writing IoKind Unit :=
  match device.refusal step with
  | none => pure ()
  | some kind => throw kind

def look {ε α : Type} (f : FileTree → Except ε α) : Writing ε α := do
  match f (← getThe FileTree) with
  | .ok a => pure a
  | .error e => throw e

def targetDirectory (path : String) (t : FileTree) : Except IoKind Place := do
  let directory ← t.locate (match Path.parent? path with
    | some parent => if parent = "" then "." else parent
    | none => ".")
  if t.isDirectory directory then .ok directory else .error .notADirectory

def temporaryName (n : Nat) : String := ".tmp" ++ toString n

/-- A place in a directory where nothing stands. One of the names is free, as there are more of them than
entries. -/
def freePlace (t : FileTree) (directory : Place) : Place :=
  directory ++ [temporaryName (((List.range (t.entries.length + 1)).find? fun n =>
    (t.entry? (directory ++ [temporaryName n])).isNone).getD 0)]

/-- Whether a path can be looked at: nothing needs to stand there. -/
def inspect (path : String) (t : FileTree) : Except IoKind Unit :=
  match t.locate path with
  | .ok _ | .error .notFound => .ok ()
  | .error kind => .error kind

/-- Fills a new file. Of bytes that are refused, the first may have been taken. -/
def fill (device : Device) (place : Place) (bytes : ByteArray) : Writing IoKind Unit :=
  match device.refusal .fill with
  | none => modify (·.insert place bytes)
  | some kind => do
    modify (·.insert place (bytes.extract 0 device.taken))
    throw kind

/-- Fills the new file, gives it the permissions of the file it replaces, and moves it to its path. -/
def fillAndMove (device : Device) (temporary : Place) (path : String) (bytes : ByteArray) :
    Writing IoKind Unit := do
  fill device temporary bytes
  attempt device .inspect
  look (inspect path)
  attempt device .permit
  attempt device .move
  let place ← look (·.replaceable path)
  modify fun t => (t.erase temporary).insert place bytes

def removingOnFailure (temporary : Place) (change : Writing IoKind Unit) : Writing IoKind Unit :=
  ExceptT.mk (do
    match ← change.run with
    | .ok () => pure (.ok ())
    | .error kind =>
      modify (·.erase temporary)
      pure (.error kind))

def writeAtomic (device : Device) (path text : String) : Writing IoKind Unit := do
  let directory ← look (targetDirectory path)
  attempt device .create
  let temporary := (← getThe FileTree).freePlace directory
  modify (·.insert temporary .empty)
  removingOnFailure temporary (fillAndMove device temporary path text.toUTF8)

end FileTree
end LayeredConfig
