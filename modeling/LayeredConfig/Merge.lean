import LayeredConfig.Error

/-! # Merging

The source is laid over the destination: maps merge key by key, lists are joined, anything else is
overridden, and `null` deletes the key that holds it. A map with `$patch: replace` takes the place of
the destination, or as an element of a list removes the element that stands at its position.
-/
namespace LayeredConfig

def isReplacement (fields : Fields) : Except Error Bool :=
  match Fields.get? Directive.patch.key fields with
  | none => .ok false
  | some (.string s) => if s = replacePatch then .ok true else .error (.patchValue s)
  | some v => .error (.patchKind v.kind)

def isRemoval : Value → Except Error Bool
  | .map fields => isReplacement fields
  | _ => .ok false

/-- Joins the elements of a source, from position `index` on, to a growing destination. -/
def mergeItems (index : Nat) (dst : List Value) : List Value → Except Error (List Value)
  | [] => .ok dst
  | item :: rest => do
    if ← labelled (toString index) (isRemoval item) then
      mergeItems (index + 1) (dst.eraseIdx index) rest
    else mergeItems (index + 1) (dst ++ [item]) rest

mutual

def mergeAt (depth : Nat) (dst : Value) : Value → Except Error Value
  | .null => if depthLimit < depth then .error .tooDeep else .ok dst
  | .map src =>
    if depthLimit < depth then .error .tooDeep
    else match dst with
      | .map fields => do
        if ← isReplacement src then .ok (.map (Fields.erase Directive.patch.key src))
        else .map <$> mergeFields depth fields src
      | .list _ => .error (.mismatch .list .map)
      | _ => .ok (.map src)
  | .list src =>
    if depthLimit < depth then .error .tooDeep
    else match dst with
      | .list items => .list <$> mergeItems 0 items src
      | .map _ => .error (.mismatch .map .list)
      | _ => .ok (.list src)
  | src =>
    if depthLimit < depth then .error .tooDeep
    else match dst with
      | .map _ => .error (.mismatch .map src.kind)
      | .list _ => .error (.mismatch .list src.kind)
      | _ => .ok src

def mergeFields (depth : Nat) (dst : Fields) : List (String × Value) → Except Error Fields
  | [] => .ok dst
  | (key, .null) :: rest => mergeFields depth (Fields.erase key dst) rest
  | (key, value) :: rest =>
    match Fields.get? key dst with
    | some old => do
      let merged ← labelled key (mergeAt (depth + 1) old value)
      mergeFields depth (Fields.insert key merged dst) rest
    | none => mergeFields depth (Fields.insert key value dst) rest

end

/-- The source laid over the destination. -/
def merge (dst src : Value) : Except Error Value := mergeAt 0 dst src

end LayeredConfig
