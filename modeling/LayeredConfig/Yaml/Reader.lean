import LayeredConfig.Yaml.Alias
import LayeredConfig.Yaml.Scalar
import LayeredConfig.Yaml.Scanner

/-! # Reading YAML

Documents are read from tokens and their nodes turned into values. Keys are the texts of scalars, whatever
these would mean as values; of fields with one key the last counts. How deep a document nests and how
often it follows aliases is bounded.
-/
namespace LayeredConfig.Yaml

def depthLimit : Nat := 128

/-- An alias may be followed this often for each step through the document. -/
def aliasesPerStep : Nat := 100

/-- The value of a scalar without quotes and tag. Infinities and not-a-number count as `null`. -/
def bareValue? (text : List Char) : Option Value :=
  match plain text with
  | .null => some .null
  | .bool b => some (.bool b)
  | .integer i => Value.integer? i
  | .float x => some ((x.map fun x => Value.number (.float x)).getD .null)
  | .text => some (.string (String.ofList text))

def isLocalTag (tag : List Char) : Bool := tag.head? = some '!'

/-- The value of a scalar: a tag for a kind of value asks for a scalar of that kind, a local tag has no
meaning here, and any other tag stands for a text. -/
def scalarValue? (tag : Option (List Char)) (bare : Bool) (text : List Char) : Option Value :=
  match tag.map String.ofList with
  | none => if bare then bareValue? text else some (.string (String.ofList text))
  | some "tag:yaml.org,2002:bool" =>
    if trueWords.contains text then some (.bool true)
    else if falseWords.contains text then some (.bool false)
    else none
  | some "tag:yaml.org,2002:int" => (integer? text).bind Value.integer?
  | some "tag:yaml.org,2002:float" =>
    (float? text).map fun x => (x.map fun x => Value.number (.float x)).getD .null
  | some "tag:yaml.org,2002:null" => if nullWords.contains text then some .null else none
  | some _ => if tag.any isLocalTag then none else some (.string (String.ofList text))

/-- What following an alias needs to know: the anchors of the document, and how often aliases may still
be followed is the state. -/
abbrev Reading (α : Type) := StateT Nat Option α

def follow (anchors : Anchors) (number : Nat) : Reading Linked := do
  match ← get with
  | 0 => failure
  | left + 1 =>
    set left
    (anchors.target? number).getM

def keyText (anchors : Anchors) : Linked → Reading String
  | .scalar _ _ text => pure (String.ofList text)
  | .alias number => do
    match ← follow anchors number with
    | .scalar _ _ text => pure (String.ofList text)
    | _ => failure
  | _ => failure

def target (anchors : Anchors) : Linked → Reading Linked
  | .alias number => follow anchors number
  | node => pure node

def readLinked (anchors : Anchors) : Nat → Linked → Reading Value
  | 0, node => do
    match ← target anchors node with
    | .scalar tag bare text => (scalarValue? tag bare text).getM
    | _ => failure
  | depth + 1, node => do
    match ← target anchors node with
    | .scalar tag bare text => (scalarValue? tag bare text).getM
    | .alias _ => failure
    | .sequence tag items =>
      if tag.any isLocalTag then failure
      Value.list <$> items.mapM (readLinked anchors depth)
    | .mapping tag fields =>
      if tag.any isLocalTag then failure
      let pairs ← fields.mapM fun (key, v) => do
        let key ← keyText anchors key
        let v ← readLinked anchors depth v
        pure (key, v)
      pure (.map (Fields.ofList pairs))

def documentValue? (node : Node) : Option Value := do
  let (linked, anchors) ← (link node).run .empty
  let (v, _) ← (readLinked anchors depthLimit linked).run (aliasesPerStep * linked.steps)
  some v

def contentIsOver : List Token → Bool
  | [] | .version _ _ :: _ | .tagHandle _ _ :: _ | .documentStart :: _ | .documentEnd :: _ => true
  | _ => false

/-- Reads the directives before a document: at most one version, of the first kind, and each handle
once. -/
def readDirectives (versioned : Bool) (handles : Handles) : List Token → Option (Handles × List Token)
  | .version major minor :: rest =>
    if versioned || major ≠ 1 || (minor ≠ 1 && minor ≠ 2) then none
    else readDirectives true handles rest
  | .tagHandle handle start :: rest =>
    if (handles.lookup handle).isSome then none
    else readDirectives versioned ((handle, start) :: handles) rest
  | tokens => some (handles, tokens)

def readContent (handles : Handles) (tokens : List Token) : Option (Node × List Token) := do
  let (node, rest) ←
    if contentIsOver tokens then some (Node.empty, tokens)
    else readNode handles (2 * tokens.length + 2) true false tokens
  match rest with
  | .documentEnd :: rest => some (node, rest)
  | rest => some (node, rest)

def skipEnds : List Token → List Token
  | .documentEnd :: rest => skipEnds rest
  | tokens => tokens

/-- Reads the documents of a text. Only the first may begin without a border, and directives ask for
one too. -/
def readDocuments : Nat → Bool → List Token → Option (List Node)
  | 0, _, _ => none
  | fuel + 1, isFirst, tokens =>
    match if isFirst then tokens else skipEnds tokens with
    | [] => some []
    | tokens => do
      let implicit := match tokens with
        | .version _ _ :: _ | .tagHandle _ _ :: _ | .documentStart :: _ => false
        | _ => isFirst
      let (node, rest) ←
        if implicit then readNode [] (2 * tokens.length + 2) true false tokens
        else do
          match ← readDirectives false [] tokens with
          | (handles, .documentStart :: rest) => readContent handles rest
          | _ => none
      let rest := match implicit, rest with
        | true, .documentEnd :: rest => rest
        | _, rest => rest
      let nodes ← readDocuments fuel false rest
      some (node :: nodes)

/-- The documents of a text. A text without any counts as one that is `null`. -/
def documents? (text : String) : Option (List Value) := do
  let tokens ← tokens? text.toList
  let nodes ← readDocuments (tokens.length + 1) true tokens
  if nodes.isEmpty then some [.null] else nodes.mapM documentValue?

end LayeredConfig.Yaml
