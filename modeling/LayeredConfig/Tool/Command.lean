import LayeredConfig.Difference
import LayeredConfig.Formats
import LayeredConfig.Session.Output
import LayeredConfig.Tool.Arguments

/-! # The work of the tools

A tool loads layers with all their parents, derives documents from them and writes these to a file or to
the standard output.
-/
namespace LayeredConfig.Tool

inductive Failure where
  | engine (e : Error)
  | documentCount (path : String) (count : Nat)
  | missingTool
  | spawn (tool : String) (cause : IoError)
  | io (path : String) (cause : IoError)

def Failure.message : Failure → String
  | engine e => e.message
  | documentCount path count =>
    path ++ ": expected exactly one document, found " ++ toString count
  | missingTool => "usage: strata-wrap TOOL [ARGS...], or symlink <tool>-strata to strata-wrap"
  | spawn tool cause => "failed to run '" ++ tool ++ "': " ++ cause.toString
  | io path cause => "I/O error at " ++ path ++ ": " ++ cause.toString

/-- What a tool does to the files, and the text it writes to the standard output. -/
abbrev Work (α : Type) := Writing Failure α

def fallbackFormat : String := "json"

/-- The format of the output: the one asked for, or the one that the extension of the output or of the
input names. An empty format counts as none. -/
def resolveFormat (options : Options) (input : Option String) : String :=
  ((options.format.filter (· ≠ "")) <|> options.output.bind Path.extension? <|>
    input.bind Path.extension?).getD fallbackFormat

def engine {α : Type} (result : Except Error α) : Except Failure α := result.mapError .engine

def loadSession (files : FileView) (inputs : List String) : Except Failure Session :=
  let (result, session) := ((inputs.forM (Session.mergeFileLayers files)).run).run
    (Session.empty .builtIn)
  engine (result.map fun _ => session)

def deliver (device : Device) (output : Option String) (text : String) : Work String :=
  match output with
  | none => pure text
  | some path => do
    (FileTree.writeAtomic device path text).adapt fun kind => .io path ⟨kind, none⟩
    pure ""

def runRender (device : Device) (options : Options) (inputs : List String) : Work String := do
  let session ← FileTree.look (loadSession · inputs)
  let format := resolveFormat options none
  match options.output with
  | some path =>
    (session.renderToFile device path format).adapt .engine
    pure ""
  | none => FileTree.look fun _ => engine (session.renderForStream format)

def deliverValues (device : Device) (options : Options) (input : String) (values : List Value) :
    Work String := do
  let text ← FileTree.look fun _ => engine (do
    let format ← Registry.builtIn.get (resolveFormat options (some input))
    format.encodeStream values)
  deliver device options.output text

def runRequired (device : Device) (options : Options) (input : String) : Work String := do
  let session ← FileTree.look (loadSession · [input])
  deliverValues device options input (session.values.map fun v => v.required?.getD (.map []))

def loadSingle (path : String) (files : FileTree) : Except Failure Value := do
  let session ← loadSession files [path]
  match session.values with
  | [v] => .ok v
  | values => .error (.documentCount path values.length)

def runDiff (device : Device) (options : Options) (operation : Operation) (a b : String) :
    Work String := do
  let first ← FileTree.look (loadSingle a)
  let second ← FileTree.look (loadSingle b)
  let result ← FileTree.look fun _ => engine (match operation with
    | .intersect => intersect first second
    | .subtract => subtract first second)
  deliverValues device options a [result]

def run (device : Device) : Command → Work String
  | .render options inputs => runRender device options inputs
  | .required options input => runRequired device options input
  | .diff options operation a b => runDiff device options operation a b

end LayeredConfig.Tool
