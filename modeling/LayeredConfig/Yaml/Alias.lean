import LayeredConfig.Yaml.Node

/-! # Anchors and aliases

Anchors are numbered in the order in which their nodes begin: the number of an anchor is how many different
names came before it, and of two anchors with one number the later takes it. So a name that is used again
points to its new node from then on, and the next new name shares the number with it.
-/
namespace LayeredConfig.Yaml

inductive Linked where
  | scalar (tag : Option (List Char)) (bare : Bool) (text : List Char)
  | alias (number : Nat)
  | sequence (tag : Option (List Char)) (items : List Linked)
  | mapping (tag : Option (List Char)) (fields : List (Linked × Linked))

/-- `numbers` holds the number of each name, `owners` which anchored node has a number, latest first, and
`nodes` the anchored nodes that are complete. `count` of them have begun. -/
structure Anchors where
  numbers : List (List Char × Nat)
  owners : List (Nat × Nat)
  nodes : List (Nat × Linked)
  count : Nat

namespace Anchors

def empty : Anchors := ⟨[], [], [], 0⟩

def register (a : Anchors) (name : List Char) : Anchors :=
  let number := a.numbers.length
  { a with
    numbers := (name, number) :: a.numbers.filter (·.1 ≠ name)
    owners := (number, a.count) :: a.owners
    count := a.count + 1 }

def target? (a : Anchors) (number : Nat) : Option Linked :=
  (a.owners.lookup number).bind fun owner => a.nodes.lookup owner

end Anchors

def anchored (anchor : Option (List Char)) (link : StateT Anchors Option Linked) :
    StateT Anchors Option Linked := do
  match anchor with
  | none => link
  | some name =>
    let a ← get
    set (a.register name)
    let linked ← link
    modify fun b => { b with nodes := (a.count, linked) :: b.nodes }
    pure linked

mutual

/-- Gives each alias its number, and fails at an alias whose name no anchor had before. -/
def link : Node → StateT Anchors Option Linked
  | .scalar p bare text => anchored p.anchor (pure (.scalar p.tag bare text))
  | .alias name => do
    let a ← get
    match a.numbers.lookup name with
    | some number => pure (.alias number)
    | none => failure
  | .sequence p items => anchored p.anchor (Linked.sequence p.tag <$> linkItems items)
  | .mapping p fields => anchored p.anchor (Linked.mapping p.tag <$> linkFields fields)

def linkItems : List Node → StateT Anchors Option (List Linked)
  | [] => pure []
  | node :: rest => do
    let linked ← link node
    let more ← linkItems rest
    pure (linked :: more)

def linkFields : List (Node × Node) → StateT Anchors Option (List (Linked × Linked))
  | [] => pure []
  | (key, v) :: rest => do
    let linkedKey ← link key
    let linkedValue ← link v
    let more ← linkFields rest
    pure ((linkedKey, linkedValue) :: more)

end

mutual

/-- How many steps it takes to walk through a node: a list or map is entered and left. -/
def Linked.steps : Linked → Nat
  | .scalar _ _ _ => 1
  | .alias _ => 1
  | .sequence _ items => stepsItems items + 2
  | .mapping _ fields => stepsFields fields + 2

def stepsItems : List Linked → Nat
  | [] => 0
  | node :: rest => node.steps + stepsItems rest

def stepsFields : List (Linked × Linked) → Nat
  | [] => 0
  | (key, v) :: rest => key.steps + v.steps + stepsFields rest

end

end LayeredConfig.Yaml
