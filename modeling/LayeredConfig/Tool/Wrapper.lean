import LayeredConfig.Digits
import LayeredConfig.Tool.Command

/-! # The wrapper

The wrapper runs another tool on layers that it has merged before. Each argument that names a layer is
replaced by the path of a temporary file with the merged text, in the format that the argument asks for.
-/
namespace LayeredConfig.Tool

def linkSuffix : List Char := ['-', 's', 't', 'r', 'a', 't', 'a']

def layerExtensions : List String := ["json", "toml", "yaml", "yml"]

def linkedTool? (program : String) : Option String :=
  (Path.stem? program).bind fun stem =>
    let length := stem.length - linkSuffix.length
    if linkSuffix.isSuffixOf stem ∧ 0 < length then some (String.ofList (stem.take length)) else none

def splitInvocation (argv : List String) : Except Failure (String × List String) :=
  match linkedTool? (argv.headD ""), argv.drop 1 with
  | some tool, args => .ok (tool, args)
  | none, tool :: args => .ok (tool, args)
  | none, [] => .error .missingTool

structure StagedFile where
  path : String
  extension : String
  text : String

def stagedPath (directory token extension : String) : String :=
  Path.inside directory ("strata-" ++ token ++ "." ++ extension)

/-- Where temporary files come from. Each file gets a name of its own. -/
structure Staging where
  directory : String
  /-- What tells the name of a file from others, or why there can be no such file. The files are numbered in the
  order in which they are asked for, each with its extension and text. -/
  token : Nat → String → String → Except IoKind String
  plain : ∀ {n : Nat} {extension text name : String}, token n extension text = .ok name → '/' ∉ name.toList
  injective : ∀ {m n : Nat} {extension text extension' text' name : String},
    token m extension text = .ok name → token n extension' text' = .ok name → m = n

def Staging.reliable : Staging where
  directory := "/tmp"
  token n _ _ := .ok (toString n)
  plain := by
    rintro n _ _ _ ⟨⟩
    exact Digits.notMem_toString (by decide) n
  injective hm hn := Digits.toString_injective ((Except.ok.inj hm).trans (Except.ok.inj hn).symm)

def layerArgument? (files : FileView) (registry : Registry) (arg : String) :
    Option (String × String) := do
  let extension ← (Path.extension? arg).filter layerExtensions.contains
  let layer ← findLayer files registry arg
  some (layer, extension)

def stage (staging : Staging) (files : FileView) (count : Nat) (layer extension : String) :
    Except Failure StagedFile := do
  let session ← loadSession files [layer]
  let text ← engine (session.render extension)
  match staging.token count extension text with
  | .ok token => .ok ⟨stagedPath staging.directory token extension, extension, text⟩
  | .error kind => .error (.io layer ⟨kind, none⟩)

/-- Replaces the arguments that name layers by the paths of temporary files, and gives these files beside the
arguments; `count` files were staged before. Their names mean nothing to the arguments, for which the files are
what they were. -/
def rewriteFrom (staging : Staging) (files : FileView) (registry : Registry) :
    Nat → List String → Except Failure (List String × List StagedFile)
  | _, [] => .ok ([], [])
  | count, arg :: rest =>
    match layerArgument? files registry arg with
    | none => do
      let (args, staged) ← rewriteFrom staging files registry count rest
      .ok (arg :: args, staged)
    | some (layer, extension) => do
      let file ← stage staging files count layer extension
      let (args, staged) ← rewriteFrom staging files registry (count + 1) rest
      .ok (file.path :: args, file :: staged)

def rewriteArguments (staging : Staging) (files : FileView) (registry : Registry) (args : List String) :
    Except Failure (List String × List StagedFile) :=
  rewriteFrom staging files registry 0 args

inductive Argument where
  | plain (text : String)
  | staged (extension text : String)

/-- What the arguments are to the tool, when the files in place of those that name layers are given. -/
def argumentsOf (files : FileView) (registry : Registry) : List String → List StagedFile → List Argument
  | [], _ => []
  | arg :: rest, staged =>
    match layerArgument? files registry arg, staged with
    | some _, file :: staged => .staged file.extension file.text :: argumentsOf files registry rest staged
    | _, staged => .plain arg :: argumentsOf files registry rest staged

def prepareArguments (files : FileView) (registry : Registry) (args : List String) :
    Except Failure (List Argument) := do
  let (_, staged) ← rewriteArguments .reliable files registry args
  .ok (argumentsOf files registry args staged)

end LayeredConfig.Tool
