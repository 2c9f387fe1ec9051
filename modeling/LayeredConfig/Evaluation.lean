import LayeredConfig.Format
import LayeredConfig.Merge
import LayeredConfig.Reference

/-! # Evaluation

The directives of a map are evaluated in a fixed order: `$merge`, `$replace`, `$output`, `$encode`,
then the fields. A reference reads the document as it was before evaluation, and what it points at is
evaluated one level deeper, so that the depth limit also ends references that lead in a circle.

The steps are written for any evaluator, which says how values are handed to encoders. The plain one gives
results and nothing else.
-/
namespace LayeredConfig

structure Scope where
  root : Value
  documents : List Value
  registry : Registry

def formatName : Value → Except Error String
  | .string name => .ok name
  | v => .error (.directiveValue .encode (.notFormatName v.kind))

/-- A list element `{"$output": false}`, which omits the list. -/
def isOmission : Value → Bool
  | .map [(key, .bool false)] => key = Directive.output.key
  | _ => false

/-- The format that a list element of the form `{"$encode": format}` names. -/
def encodeMark : Value → Except Error (Option String)
  | .map [(key, v)] =>
    if key = Directive.encode.key then some <$> formatName v else .ok none
  | _ => .ok none

def Directive.stringPrefix (d : Directive) : String := d.key ++ ":"

def stringReference? (s : String) : Option (Directive × String) :=
  [Directive.merge, Directive.replace].findSome? fun d =>
    let mark := d.stringPrefix.toList
    if mark.isPrefixOf s.toList then some (d, String.ofList (s.toList.drop mark.length)) else none

/-- Whether a map is selected as an output, or `none` when it is omitted. -/
def selection (fields : Fields) : Except Error (Option Bool) :=
  match Fields.get? Directive.output.key fields with
  | none => .ok (some false)
  | some (.bool true) => .ok (some true)
  | some (.bool false) => .ok none
  | some v => .error (.directiveValue .output (.notBool v.kind))

def requestedFormat (fields : Fields) : Except Error (Option String) :=
  match Fields.get? Directive.encode.key fields with
  | none => .ok none
  | some v => some <$> formatName v

namespace Scope

def resolve (scope : Scope) (directive : Directive) (reference : Value) : Except Error Value := do
  let r ← Reference.ofValue directive reference
  r.resolve directive scope.root scope.documents

def encode (scope : Scope) (format : String) (v : Value) : Except Error Value := do
  let f ← scope.registry.get format
  .string <$> labelled Directive.encode.key (f.encode v)

end Scope

/-- What an evaluation is carried out by: it puts errors under labels and hands values to encoders. -/
class Evaluator (m : Type → Type) where
  labelled {α : Type} : String → m α → m α
  encode : Scope → String → Value → m Value

instance : Evaluator (Except Error) := ⟨labelled, Scope.encode⟩

variable {m : Type → Type} [Monad m] [MonadLiftT (Except Error) m] [Evaluator m]

def evaluateFields (evaluate : Value → m (Option Value)) : Fields → m Fields
  | [] => pure []
  | (key, v) :: rest => do
    let result ← Evaluator.labelled key (evaluate v)
    let results ← evaluateFields evaluate rest
    pure (match result with
      | some v => (key, v) :: results
      | none => results)

theorem evaluateFields_cons {evaluate : Value → Except Error (Option Value)} {key : String} {v : Value}
    {rest : Fields} : evaluateFields evaluate ((key, v) :: rest) = (do
      let result ← labelled key (evaluate v)
      let results ← evaluateFields evaluate rest
      .ok (match result with
        | some v => (key, v) :: results
        | none => results)) := rfl

/-- Evaluates elements from position `index` on. Beside the elements that are left it returns the
format that the last mark among them names. -/
def evaluateItems (evaluate : Value → m (Option Value)) (index : Nat) :
    List Value → m (Option String × List Value)
  | [] => pure (none, [])
  | v :: rest => do
    match ← labelled (toString index) (encodeMark v) with
    | some format =>
      let (later, results) ← evaluateItems evaluate (index + 1) rest
      pure (some (later.getD format), results)
    | none =>
      let result ← Evaluator.labelled (toString index) (evaluate v)
      let (later, results) ← evaluateItems evaluate (index + 1) rest
      pure (later, result.toList ++ results)

theorem evaluateItems_cons {evaluate : Value → Except Error (Option Value)} {index : Nat} {v : Value}
    {rest : List Value} : evaluateItems evaluate index (v :: rest) = (do
      match ← labelled (toString index) (encodeMark v) with
      | some format =>
        let (later, results) ← evaluateItems evaluate (index + 1) rest
        .ok (some (later.getD format), results)
      | none =>
        let result ← labelled (toString index) (evaluate v)
        let (later, results) ← evaluateItems evaluate (index + 1) rest
        .ok (later, result.toList ++ results)) := rfl

namespace Scope

/-- Evaluates a value with the levels that are left. `none` stands for an omitted value. -/
def evaluateBy (m : Type → Type) [Monad m] [MonadLiftT (Except Error) m] [Evaluator m] (scope : Scope) :
    Nat → Value → m (Option Value)
  | 0, v => liftM (Except.error (.circular v.summary) : Except Error _)
  | levels + 1, .map fields =>
    match Fields.get? Directive.merge.key fields, Fields.get? Directive.replace.key fields with
    | some reference, _ => do
      let target ← scope.resolve .merge reference
      let merged ← labelled Directive.merge.key
        (merge target (.map (Fields.erase Directive.merge.key fields)))
      scope.evaluateBy m levels merged
    | none, some reference => do
      let target ← scope.resolve .replace reference
      scope.evaluateBy m levels target
    | none, none => do
      match ← selection fields with
      | none => pure none
      | some selected =>
        let format ← requestedFormat fields
        let rest := Fields.erase Directive.encode.key (Fields.erase Directive.output.key fields)
        let rest := if ← isReplacement rest then Fields.erase Directive.patch.key rest else rest
        let results ← evaluateFields (scope.evaluateBy m levels) rest
        match format with
        | some format => some <$> Evaluator.encode scope format (.map results)
        | none =>
          pure (some (.map (if selected then
            Fields.insert Directive.output.key (.bool true) results else results)))
  | levels + 1, .list items =>
    if items.any isOmission then pure none
    else do
      let (format, results) ← evaluateItems (scope.evaluateBy m levels) 0 items
      match format with
      | some format => some <$> Evaluator.encode scope format (.list results)
      | none => pure (some (.list results))
  | levels + 1, .string s =>
    match stringReference? s with
    | some (directive, path) => do
      let target ← scope.resolve directive (.string path)
      scope.evaluateBy m levels target
    | none => pure (some (.string s))
  | _ + 1, v => pure (some v)

def evaluateWithin (scope : Scope) (levels : Nat) (v : Value) : Except Error (Option Value) :=
  scope.evaluateBy (Except Error) levels v

def evaluate (scope : Scope) (v : Value) : Except Error (Option Value) :=
  scope.evaluateWithin (depthLimit + 1) v

variable {scope : Scope} {levels : Nat} {fields : Fields} {reference v : Value}

theorem evaluateWithin_zero : scope.evaluateWithin 0 v = .error (.circular v.summary) := rfl

theorem evaluateWithin_merge (hm : fields.get? Directive.merge.key = some reference) :
    scope.evaluateWithin (levels + 1) (.map fields) = (do
      let target ← scope.resolve .merge reference
      let merged ← LayeredConfig.labelled Directive.merge.key
        (merge target (.map (fields.erase Directive.merge.key)))
      scope.evaluateWithin levels merged) := by
  rw [evaluateWithin, evaluateBy, hm]
  rfl

theorem evaluateWithin_replace (hm : fields.get? Directive.merge.key = none)
    (hr : fields.get? Directive.replace.key = some reference) :
    scope.evaluateWithin (levels + 1) (.map fields) =
      scope.resolve .replace reference >>= scope.evaluateWithin levels := by
  rw [evaluateWithin, evaluateBy, hm, hr]
  rfl

theorem evaluateWithin_fields (hm : fields.get? Directive.merge.key = none)
    (hr : fields.get? Directive.replace.key = none) :
    scope.evaluateWithin (levels + 1) (.map fields) = (do
      match ← selection fields with
      | none => .ok none
      | some selected =>
        let format ← requestedFormat fields
        let rest := (fields.erase Directive.output.key).erase Directive.encode.key
        let rest := if ← isReplacement rest then rest.erase Directive.patch.key else rest
        let results ← evaluateFields (scope.evaluateWithin levels) rest
        match format with
        | some format => some <$> scope.encode format (.map results)
        | none =>
          .ok (some (.map (if selected then results.insert Directive.output.key (.bool true) else results)))) := by
  rw [evaluateWithin, evaluateBy, hm, hr]
  rfl

theorem evaluateWithin_list {items : List Value} :
    scope.evaluateWithin (levels + 1) (.list items) = if items.any isOmission then .ok none else (do
      let (format, results) ← evaluateItems (scope.evaluateWithin levels) 0 items
      match format with
      | some format => some <$> scope.encode format (.list results)
      | none => .ok (some (.list results))) := rfl

theorem evaluateWithin_reference {s path : String} {d : Directive} (h : stringReference? s = some (d, path)) :
    scope.evaluateWithin (levels + 1) (.string s) =
      scope.resolve d (.string path) >>= scope.evaluateWithin levels := by
  rw [evaluateWithin, evaluateBy, h]
  rfl

theorem evaluateWithin_text {s : String} (h : stringReference? s = none) :
    scope.evaluateWithin (levels + 1) (.string s) = .ok (some (.string s)) := by
  rw [evaluateWithin, evaluateBy, h]
  rfl

end Scope
end LayeredConfig
