import LayeredConfig.Tool.Wrapper

/-! # Running tools

The wrapper leaves it to a runner to start the tool. The runner is told the name of the tool and its arguments, and sees
the files with the staged ones among them.
-/
namespace LayeredConfig.Tool

/-- How a tool ended: its exit code, if it ended by itself, and what it wrote to the standard output. -/
structure Ended where
  code : Option Nat
  stdout : String

abbrev Runner := FileTree → String → List String → Except IoKind Ended

/-- The runner of a system without programs. -/
def runProgram : Runner := fun _ _ _ => .error .notFound

def stagedPlace (path : String) : Place := ((Path.pieces path.toList).drop 1).map String.ofList

def withStaged (files : FileTree) (staged : List StagedFile) : FileTree :=
  staged.foldl (fun t file => t.insert (stagedPlace file.path) file.text.toUTF8)
    { files with entries := (["tmp"], .directory) :: files.entries }

/-- The exit code of a tool that did not end by itself. -/
def stoppedCode : Nat := 1

def runWrapped (runner : Runner) (files : FileTree) (argv : List String) :
    Except Failure (Nat × String) := do
  let (tool, args) ← splitInvocation argv
  let (args, staged) ← rewriteArguments .reliable files .builtIn args
  match runner (withStaged files staged) tool args with
  | .ok ended => .ok (ended.code.getD stoppedCode, ended.stdout)
  | .error kind => .error (.spawn tool ⟨kind, none⟩)

end LayeredConfig.Tool
