import LayeredConfig.Error
import LayeredConfig.Value.Path
import LayeredConfig.Value.Pattern
import LayeredConfig.Value.Summary

/-! # References

What `$merge` and `$replace` point at: a document, named by a pattern or by its index or left out for
the document at hand, and a dotted path inside it.
-/
namespace LayeredConfig

inductive Target where
  | current
  | matching (pattern : Value)
  | index (n : Nat)

structure Reference where
  target : Target
  path : String

namespace Reference

/-- A selector names the path first, then the document; a path left out is the root. -/
def ofSelector (directive : Directive) (selector : Fields) : Except Error Reference := do
  let path ← match Fields.get? "path" selector with
    | none => .ok ""
    | some (.string path) => .ok path
    | some v => .error (.directiveValue directive (.selectorPath v.kind))
  match Fields.get? Directive.pattern.key selector, Fields.get? "index" selector with
  | some pattern, _ => .ok ⟨.matching pattern, path⟩
  | none, some (.number (.integer n)) =>
    match n.toNat? with
    | some n => .ok ⟨.index n, path⟩
    | none =>
      .error (.directiveValue directive (.selectorIndex (Value.number (.integer n)).summary))
  | none, some v => .error (.directiveValue directive (.selectorIndex v.summary))
  | none, none => .error (.directiveValue directive .selectorTarget)

def ofValue (directive : Directive) : Value → Except Error Reference
  | .string path => .ok ⟨.current, path⟩
  | .map selector => ofSelector directive selector
  | v => .error (.referenceKind directive v.kind)

def text (r : Reference) : String :=
  match r.target with
  | .current => r.path
  | .matching pattern => "[" ++ pattern.summary ++ "]:" ++ r.path
  | .index n => "[doc" ++ toString n ++ "]:" ++ r.path

def document (r : Reference) (root : Value) (documents : List Value) : Except Error Value :=
  match r.target with
  | .current => .ok root
  | .matching pattern =>
    match documents.find? (·.satisfies pattern) with
    | some d => .ok d
    | none => .error (.noMatch pattern.summary)
  | .index n =>
    match documents[n]? with
    | some d => .ok d
    | none => .error (.invalidIndex n documents.length)

def resolve (r : Reference) (directive : Directive) (root : Value) (documents : List Value) :
    Except Error Value := do
  let document ← r.document root documents
  match document.atPath? r.path with
  | some v => .ok v
  | none => .error (.unresolved directive r.text)

end Reference
end LayeredConfig
