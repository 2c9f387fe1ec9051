import LayeredConfig.Files.Path
import LayeredConfig.Files.View
import LayeredConfig.Format

/-! # Layers

A layer is a file of documents that patch the layer below it. Its first document may name that layer
with `$parent`; else a file name with an inner dot implies one: `app.prod.yaml` stands on `app.yaml`.
-/
namespace LayeredConfig

structure Layer where
  path : String
  /-- The path of the layer below, if there is one. -/
  parent : Option String
  documents : List Value

def layerStem (registry : Registry) (path : String) : String :=
  match Path.extension? path with
  | some ext =>
    if registry.contains ext then
      match Path.splitDot path.toList with
      | some (stem, _) => String.ofList stem
      | none => path
    else path
  | none => path

/-- The file that a path addresses: itself, or the same stem with the name of a format. -/
def findLayer (files : FileView) (registry : Registry) (path : String) : Option String :=
  if files.isFile path then some path
  else (registry.names.map fun name => layerStem registry path ++ "." ++ name).find? files.isFile

def directoryOf (path : String) : String := (Path.parent? path).getD ""

/-- The parent that a dotted file name implies, the extension of the layer itself tried first. -/
def impliedParent (files : FileView) (registry : Registry) (path : String) : Option String := do
  let stem ← Path.stem? path
  let (base, _) ← Path.splitDot stem
  if base.isEmpty then none
  else
    let extensions := (Path.extension? path).toList ++ registry.names
    (extensions.map fun ext =>
      Path.inside (directoryOf path) (String.ofList base ++ "." ++ ext)).find? files.isFile

/-- The parent that the value of `$parent` declares, relative to the layer. -/
def declaredParent (path : String) : Value → Except Error (Option String)
  | .bool false => .ok none
  | .string target =>
    if target = "" then .error (.invalidParent path .empty)
    else .ok (some (Path.inside (directoryOf path) target))
  | v => .error (.invalidParent path (.kind v.kind))

def withoutParent : Value → Value
  | .map fields => .map (Fields.erase Directive.parent.key fields)
  | v => v

def onFile {α : Type} (path : String) (fault : FileFault) : Except Error α := .error (.file path fault)

def withFile {ε α : Type} (path : String) (fault : ε → FileFault) : Except ε α → Except Error α
  | .ok a => .ok a
  | .error e => onFile path (fault e)

def layerFormat (registry : Registry) (path : String) : Except Error Format :=
  match Path.extension? path with
  | some ext => withFile path .error (registry.get ext)
  | none => onFile path .noExtension

/-- The parent of a layer: declared by the first of its documents, or else implied. -/
def layerParent (files : FileView) (registry : Registry) (path : String) (values : List Value) :
    Except Error (Option String) :=
  match values.head?.bind (·.field? Directive.parent.key) with
  | some declared => declaredParent path declared
  | none => .ok (impliedParent files registry path)

def loadLayer (files : FileView) (registry : Registry) (path : String) : Except Error Layer := do
  let format ← layerFormat registry path
  let text ← withFile path (fun kind => .io ⟨kind, none⟩) (files.read path)
  let values ← withFile path .error (format.decode text)
  let parent ← layerParent files registry path values
  .ok ⟨path, parent, values.map withoutParent⟩

/-- The failure to find a layer; `child` is the layer that names it as its parent. -/
def missingLayer (path : String) (child : Option String) : Error :=
  let message := match child with
    | some child => "parent layer '" ++ path ++ "' does not exist (referenced from '" ++ child ++ "')"
    | none => "layer '" ++ path ++ "' does not exist"
  .file path (.io ⟨.notFound, some message⟩)

/-- Loads a layer and those below it, down to the last, which becomes the first of the result. `seen`
holds the canonical paths of the layers above, nearest first, and `layers` those layers. No chain is
longer than there are files. -/
def loadChainFrom (files : FileView) (registry : Registry) :
    Nat → List String → List Layer → String → Except Error (List Layer)
  | 0, seen, _, _ => .error (.cyclicParent seen.reverse)
  | fuel + 1, seen, layers, path =>
    match findLayer files registry path with
    | none => .error (missingLayer path seen.head?)
    | some found =>
      match files.canonicalPath found with
      | .error kind => onFile found (.io ⟨kind, none⟩)
      | .ok canonical =>
        if seen.contains canonical then .error (.cyclicParent (canonical :: seen).reverse)
        else do
          let layer ← loadLayer files registry found
          match layer.parent with
          | none => .ok (layer :: layers)
          | some parent => loadChainFrom files registry fuel (canonical :: seen) (layer :: layers) parent

/-- Loads the layer at a path and all below it, oldest first. -/
def loadChain (files : FileView) (registry : Registry) (path : String) : Except Error (List Layer) :=
  loadChainFrom files registry (files.canonicalPaths.length + 1) [] [] path

end LayeredConfig
