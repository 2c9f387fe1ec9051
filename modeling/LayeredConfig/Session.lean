import LayeredConfig.Document
import LayeredConfig.Format
import LayeredConfig.Layer
import LayeredConfig.Merge
import LayeredConfig.Value.Canonical
import LayeredConfig.Value.Pattern
import LayeredConfig.Value.Summary

/-! # Sessions

A session holds the documents that layers have been merged into, in order. The n-th document of a layer
patches the n-th document of the session, unless it carries `$match`: then it patches every document
that satisfies the pattern. A session only grows.
-/
namespace LayeredConfig

/-- `nextId` is the least identifier that no document has taken yet. -/
structure Session where
  documents : List Document
  registry : Registry
  nextId : DocumentId

/-- A change to a session. What was changed before a failure stays changed. -/
abbrev Edit (α : Type) := ExceptT Error (StateM Session) α

namespace Session

def empty (registry : Registry) : Session := ⟨[], registry, 0⟩

/-- A patch without its `$match`, and the pattern; a `null` pattern counts as none. -/
def splitPattern : Value → Value × Option Value
  | .map fields =>
    (.map (Fields.erase Directive.pattern.key fields),
      (Fields.get? Directive.pattern.key fields).filter (!·.isNull))
  | v => (v, none)

/-- The document at an index as a merge sees it: beyond the end stands `null`. -/
def dataAt (s : Session) (index : Nat) : Value := (s.documents[index]?.map (·.data)).getD .null

/-- Documents up to the given number, the new ones `null` with identifiers of their own. -/
def pad (s : Session) (count : Nat) : Session :=
  let missing := count - s.documents.length
  { s with
    documents := s.documents ++ (List.range missing).map fun i => ⟨s.nextId + i, [], .null⟩
    nextId := s.nextId + missing }

def setData (s : Session) (index : Nat) (data : Value) (origin : Option DocumentId) : Session :=
  { s with
    documents := s.documents.modify index fun d =>
      { d with data, parents := d.parents ++ origin.toList } }

def maxIndex : Nat := 18446744073709551615

def applyAt (index : Nat) (patch : Value) (origin : Option DocumentId) : Edit Unit := do
  let s ← getThe Session
  if maxIndex ≤ index then throw (.invalidIndex index s.documents.length)
  let merged ← liftExcept (merge (s.dataAt index) patch)
  set ((s.pad (index + 1)).setData index merged origin)
where
  liftExcept {α : Type} (r : Except Error α) : Edit α := ExceptT.mk (pure r)

def matching (s : Session) (pattern : Value) : List Nat :=
  (s.documents.zipIdx.filter fun (d, _) => d.data.satisfies pattern).map (·.2)

def apply (index : Nat) (patch : Value) (origin : Option DocumentId) : Edit Unit := do
  match splitPattern patch with
  | (patch, none) => applyAt index patch origin
  | (patch, some pattern) =>
    let s ← getThe Session
    let targets := s.matching pattern
    if targets.isEmpty then throw (.noMatch pattern.summary)
    targets.forM fun i => applyAt i patch origin

/-- Merges a patch; `$match` in it overrides the index. -/
def applyPatch (index : Nat) (patch : Value) : Edit Unit := apply index patch.canonical none

def mergeSession (other : Session) : Edit Unit :=
  other.documents.zipIdx.forM fun (d, i) => apply i d.data (some d.id)

def takeIds (count : Nat) : Edit DocumentId := do
  let s ← getThe Session
  set { s with nextId := s.nextId + count }
  pure s.nextId

def labelledEdit {α : Type} (label : String) (edit : Edit α) : Edit α :=
  ExceptT.mk (do
    match ← edit.run with
    | .ok a => pure (.ok a)
    | .error e => pure (.error (.context label e)))

def mergeDocuments (path : String) (documents : List Document) : Edit Unit :=
  documents.zipIdx.forM fun (d, i) =>
    labelledEdit ("[" ++ path ++ ":doc" ++ toString i ++ "]") (apply i d.data (some d.id))

def numbered (first : DocumentId) (layer : Layer) : List Document :=
  (layer.documents.zipIdx first).map fun (v, id) => ⟨id, [], v⟩

def documentCount (layers : List Layer) : Nat := (layers.flatMap (·.documents)).length

/-- The documents of layers, oldest first. Identifiers were taken as the layers were loaded, so that
those of a layer come after those of the layers that stand on it. -/
def numberedLayers (first : DocumentId) : List Layer → List (String × List Document)
  | [] => []
  | layer :: rest =>
    (layer.path, numbered (first + documentCount rest) layer) :: numberedLayers first rest

def mergeLayers (layers : List Layer) : Edit Unit := do
  let first ← takeIds (documentCount layers)
  (numberedLayers first layers).forM fun (path, documents) => mergeDocuments path documents

def mergeLayer (layer : Layer) : Edit Unit := mergeLayers [layer]

/-- Merges the documents of one file without its parents. -/
def mergeFile (files : FileView) (path : String) : Edit Unit := do
  let s ← getThe Session
  let layer ← ExceptT.mk (pure (loadLayer files s.registry path))
  mergeLayer layer

def mergeFileLayers (files : FileView) (path : String) : Edit Unit := do
  let s ← getThe Session
  let layers ← ExceptT.mk (pure (loadChain files s.registry path))
  mergeLayers layers

def document (s : Session) (index : Nat) : Except Error Value :=
  match s.documents[index]? with
  | some d => .ok d.data
  | none => .error (.invalidIndex index s.documents.length)

def values (s : Session) : List Value := s.documents.map (·.data)

end Session
end LayeredConfig
