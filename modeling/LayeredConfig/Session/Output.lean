import LayeredConfig.Evaluation
import LayeredConfig.Files.Write
import LayeredConfig.Output
import LayeredConfig.Session

/-! # Output of a session

Documents are evaluated, split into what they put out, checked and then encoded. Nothing is written
unless everything could be encoded.
-/
namespace LayeredConfig.Session

def scope (s : Session) (root : Value) : Scope := ⟨root, s.values, s.registry⟩

def documentLabel (index : Nat) : String := "[doc" ++ toString index ++ "]"

def checkAll : List Value → Except Error Unit
  | [] => .ok ()
  | v :: rest => do
    v.checkFinished
    checkAll rest

def outputsAt (s : Session) (index : Nat) : Except Error (List Value) := do
  let root ← s.document index
  labelled (documentLabel index) do
    match ← (s.scope root).evaluate root with
    | none => .ok []
    | some v =>
      checkAll v.outputs
      .ok v.outputs

/-- Joins what a function gives for each index from `index` on. -/
def collect {α : Type} (f : Nat → Except Error (List α)) (index : Nat) :
    Nat → Except Error (List α)
  | 0 => .ok []
  | count + 1 => do
    let xs ← f index
    let rest ← collect f (index + 1) count
    .ok (xs ++ rest)

def outputs (s : Session) : Except Error (List Value) :=
  collect s.outputsAt 0 s.documents.length

def encodeEach (format : Format) (index out : Nat) : List Value → Except Error (List String)
  | [] => .ok []
  | v :: rest => do
    let text ← labelled ("[doc" ++ toString index ++ ":out" ++ toString out ++ "]") (format.encode v)
    let texts ← encodeEach format index (out + 1) rest
    .ok (text :: texts)

def textsAt (s : Session) (format : String) (index : Nat) : Except Error (List String) := do
  let f ← s.registry.get format
  let outputs ← s.outputsAt index
  encodeEach f index 0 outputs

def texts (s : Session) (format : String) : Except Error (List String) :=
  collect (s.textsAt format) 0 s.documents.length

def render (s : Session) (format : String) : Except Error String := do
  let outputs ← s.outputs
  let f ← s.registry.get format
  f.encodeStream outputs

def renderForStream (s : Session) (format : String) : Except Error String :=
  s.render (if format = "" then defaultOutputFormat else format)

abbrev Sink (σ : Type) := String → StateM σ (Except IoError Unit)

/-- Writes a text to a stream, which is not asked to take an empty one, and flushes it. -/
def writeAll {σ : Type} (sink : Sink σ) (flush : StateM σ (Except IoError Unit)) (text : String) :
    StateM σ (Except IoError Unit) :=
  if text = "" then flush
  else do
    match ← sink text with
    | .ok () => flush
    | .error cause => pure (.error cause)

/-- Writes everything put out to a stream; one without a buffer has nothing to flush. -/
def sendTo {σ : Type} (s : Session) (sink : Sink σ) (format : String)
    (flush : StateM σ (Except IoError Unit) := pure (.ok ())) : StateM σ (Except Error Unit) :=
  match s.renderForStream format with
  | .error e => pure (.error e)
  | .ok text => do
    match ← writeAll sink flush text with
    | .ok () => pure (.ok ())
    | .error cause => pure (.error (.write cause))

def fileFormat (path format : String) : String :=
  if format = "" then (Path.extension? path).getD defaultOutputFormat else format

def renderToFile (s : Session) (device : Device) (path format : String) : Writing Error Unit := do
  let text ← FileTree.look fun _ => labelled path (s.render (fileFormat path format))
  (FileTree.writeAtomic device path text).adapt fun kind => .outputFile path ⟨kind, none⟩

end LayeredConfig.Session
