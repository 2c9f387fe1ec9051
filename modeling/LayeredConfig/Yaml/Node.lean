import LayeredConfig.Yaml.Token

/-! # Nodes

The tree that tokens describe, before anything is known about the values of scalars and the targets of
aliases. What is left out between marks is an empty scalar.
-/
namespace LayeredConfig.Yaml

structure Properties where
  anchor : Option (List Char)
  tag : Option (List Char)

inductive Node where
  | scalar (properties : Properties) (bare : Bool) (text : List Char)
  | alias (name : List Char)
  | sequence (properties : Properties) (items : List Node)
  | mapping (properties : Properties) (fields : List (Node × Node))

def Node.empty : Node := .scalar ⟨none, none⟩ true []

abbrev Handles := List (List Char × List Char)

def commonHandles : Handles :=
  [(['!'], ['!']), (['!', '!'], "tag:yaml.org,2002:".toList)]

def wholeTag? (handles : Handles) (handle rest : List Char) : Option (List Char) :=
  if handle.isEmpty then some rest
  else ((handles ++ commonHandles).lookup handle).map (· ++ rest)

def readProperties (handles : Handles) : List Token → Option (Properties × List Token)
  | .anchor name :: .tag handle rest :: tokens | .tag handle rest :: .anchor name :: tokens =>
    (wholeTag? handles handle rest).map fun tag => (⟨some name, some tag⟩, tokens)
  | .anchor name :: tokens => some (⟨some name, none⟩, tokens)
  | .tag handle rest :: tokens =>
    (wholeTag? handles handle rest).map fun tag => (⟨none, some tag⟩, tokens)
  | tokens => some (⟨none, none⟩, tokens)

/-- A scalar with its properties: the tag `!` only keeps quotes from mattering, so it is no tag. -/
def scalarNode (p : Properties) (bare : Bool) (text : List Char) : Node :=
  .scalar { p with tag := p.tag.filter (· ≠ ['!']) } bare text

def entryIsOver : List Token → Bool
  | .sequenceEntry :: _ | .blockEnd :: _ => true
  | _ => false

def fieldIsOver : List Token → Bool
  | .key :: _ | .value :: _ | .blockEnd :: _ => true
  | _ => false

def pairIsOver : List Token → Bool
  | .flowEntry :: _ | .flowSequenceEnd :: _ => true
  | _ => false

def flowFieldIsOver : List Token → Bool
  | .flowEntry :: _ | .flowMappingEnd :: _ => true
  | _ => false

mutual

/-- Reads a node. `inBlock` allows a block, and `asValue` a list whose dashes stand at the column of the
key before it. The fuel bounds the calls: twice the number of tokens and two always suffice. -/
def readNode (handles : Handles) : Nat → Bool → Bool → List Token → Option (Node × List Token)
  | 0, _, _, _ => none
  | fuel + 1, inBlock, asValue, tokens =>
    match tokens with
    | .alias name :: rest => some (.alias name, rest)
    | tokens => do
      let (p, tokens) ← readProperties handles tokens
      match tokens with
      | .sequenceEntry :: _ =>
        if asValue then
          let (items, rest) ← readAligned handles fuel [] tokens
          some (.sequence p items, rest)
        else emptyNode p tokens
      | .scalar text bare :: rest => some (scalarNode p bare text, rest)
      | .flowSequenceStart :: rest =>
        let (items, rest) ← readFlowItems handles fuel true [] rest
        some (.sequence p items, rest)
      | .flowMappingStart :: rest =>
        let (fields, rest) ← readFlowFields handles fuel true [] rest
        some (.mapping p fields, rest)
      | .sequenceStart :: rest =>
        if inBlock then
          let (items, rest) ← readItems handles fuel [] rest
          some (.sequence p items, rest)
        else emptyNode p tokens
      | .mappingStart :: rest =>
        if inBlock then
          let (fields, rest) ← readFields handles fuel [] rest
          some (.mapping p fields, rest)
        else emptyNode p tokens
      | tokens => emptyNode p tokens
where
  /-- Properties may stand alone. -/
  emptyNode (p : Properties) (tokens : List Token) : Option (Node × List Token) :=
    if p.anchor.isSome || p.tag.isSome then some (.scalar p true [], tokens) else none

def readOptional (handles : Handles) :
    Nat → Bool → Bool → Bool → List Token → Option (Node × List Token)
  | 0, _, _, _, _ => none
  | fuel + 1, isOver, inBlock, asValue, tokens =>
    if isOver then some (.empty, tokens) else readNode handles fuel inBlock asValue tokens

/-- Reads the entries of a list up to the end of its block; `acc` holds those already read, last first. -/
def readItems (handles : Handles) : Nat → List Node → List Token → Option (List Node × List Token)
  | 0, _, _ => none
  | fuel + 1, acc, tokens =>
    match tokens with
    | .sequenceEntry :: rest => do
      let (node, rest) ← readOptional handles fuel (entryIsOver rest) true false rest
      readItems handles fuel (node :: acc) rest
    | .blockEnd :: rest => some (acc.reverse, rest)
    | _ => none

/-- Reads the entries of a list that has no block of its own, as far as they go. -/
def readAligned (handles : Handles) : Nat → List Node → List Token → Option (List Node × List Token)
  | 0, _, _ => none
  | fuel + 1, acc, tokens =>
    match tokens with
    | .sequenceEntry :: rest => do
      let (node, rest) ←
        readOptional handles fuel (entryIsOver rest || fieldIsOver rest) true false rest
      readAligned handles fuel (node :: acc) rest
    | tokens => some (acc.reverse, tokens)

def readFields (handles : Handles) :
    Nat → List (Node × Node) → List Token → Option (List (Node × Node) × List Token)
  | 0, _, _ => none
  | fuel + 1, acc, tokens =>
    match tokens with
    | .key :: rest => do
      let (key, rest) ← readOptional handles fuel (fieldIsOver rest) true true rest
      match rest with
      | .value :: rest =>
        let (v, rest) ← readOptional handles fuel (fieldIsOver rest) true true rest
        readFields handles fuel ((key, v) :: acc) rest
      | rest => readFields handles fuel ((key, .empty) :: acc) rest
    | .blockEnd :: rest => some (acc.reverse, rest)
    | _ => none

/-- Reads the elements of a list in brackets up to its end. A pair among them is a map of one field; where
its key is left out, the token that shows this is passed over. -/
def readFlowItems (handles : Handles) :
    Nat → Bool → List Node → List Token → Option (List Node × List Token)
  | 0, _, _, _ => none
  | fuel + 1, isFirst, acc, tokens =>
    match tokens with
    | .flowSequenceEnd :: rest => some (acc.reverse, rest)
    | tokens => do
      let tokens ← if isFirst then some tokens else afterComma tokens
      match tokens with
      | .flowSequenceEnd :: rest => some (acc.reverse, rest)
      | .key :: rest =>
        let (key, rest) ← match rest with
          | .value :: rest | .flowEntry :: rest | .flowSequenceEnd :: rest => some (Node.empty, rest)
          | rest => readNode handles fuel false false rest
        let (v, rest) ← match rest with
          | .value :: rest => readOptional handles fuel (pairIsOver rest) false false rest
          | rest => some (Node.empty, rest)
        readFlowItems handles fuel false (.mapping ⟨none, none⟩ [(key, v)] :: acc) rest
      | tokens =>
        let (node, rest) ← readNode handles fuel false false tokens
        readFlowItems handles fuel false (node :: acc) rest
where
  afterComma : List Token → Option (List Token)
    | .flowEntry :: rest => some rest
    | _ => none

/-- Reads the fields of a map in braces up to its end. A key without a mark has no value. -/
def readFlowFields (handles : Handles) :
    Nat → Bool → List (Node × Node) → List Token → Option (List (Node × Node) × List Token)
  | 0, _, _, _ => none
  | fuel + 1, isFirst, acc, tokens =>
    match tokens with
    | .flowMappingEnd :: rest => some (acc.reverse, rest)
    | tokens => do
      let tokens ← if isFirst then some tokens else afterComma tokens
      match tokens with
      | .flowMappingEnd :: rest => some (acc.reverse, rest)
      | .key :: rest =>
        let isOver := match rest with
          | .value :: _ => true
          | rest => flowFieldIsOver rest
        let (key, rest) ← readOptional handles fuel isOver false false rest
        let (v, rest) ← match rest with
          | .value :: rest => readOptional handles fuel (flowFieldIsOver rest) false false rest
          | rest => some (Node.empty, rest)
        readFlowFields handles fuel false ((key, v) :: acc) rest
      | tokens =>
        let (key, rest) ← readNode handles fuel false false tokens
        readFlowFields handles fuel false ((key, .empty) :: acc) rest
where
  afterComma : List Token → Option (List Token)
    | .flowEntry :: rest => some rest
    | _ => none

end

end LayeredConfig.Yaml
