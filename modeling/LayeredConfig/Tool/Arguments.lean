/-! # Arguments of the tools

All tools share their options; they differ in the arguments without a dash. A value is taken in when the
next argument begins or when all are read, so that an unknown argument is found before what is wrong with
an earlier value.
-/
namespace LayeredConfig

inductive Tool where
  | render | required | diff
deriving DecidableEq

namespace Tool

def ofName? (name : String) : Option Tool :=
  if name = "strata" then some render
  else if name = "strata-required" then some required
  else if name = "strata-diff" then some diff
  else none

inductive UsageError where
  | unknownArgument
  | invalidValue
  | argumentConflict
  | tooManyValues
  | missingArgument
  | helpRequested
  | versionRequested
deriving DecidableEq

structure Options where
  output : Option String
  format : Option String
  verbose : Bool

inductive Operation where
  | intersect | subtract
deriving DecidableEq

def Operation.ofName? (name : String) : Option Operation :=
  if name = "intersect" then some intersect
  else if name = "subtract" then some subtract
  else none

inductive Command where
  | render (options : Options) (inputs : List String)
  | required (options : Options) (input : String)
  | diff (options : Options) (operation : Operation) (a b : String)

inductive Flag where
  | verbose | help | version

inductive ValueOption where
  | output | format

inductive Name where
  | flag (f : Flag)
  | valueOption (o : ValueOption)

def longName? (name : String) : Option Name :=
  if name = "output" then some (.valueOption .output)
  else if name = "format" then some (.valueOption .format)
  else if name = "verbose" then some (.flag .verbose)
  else if name = "help" then some (.flag .help)
  else if name = "version" then some (.flag .version)
  else none

def letterName? (letter : Char) : Option Name :=
  if letter = 'o' then some (.valueOption .output)
  else if letter = 'f' then some (.valueOption .format)
  else if letter = 'v' then some (.flag .verbose)
  else if letter = 'h' then some (.flag .help)
  else if letter = 'V' then some (.flag .version)
  else none

/-- What was begun and is not yet taken in: an option, with its value once that is read, or the name of an
operation. -/
inductive Pending where
  | nothing
  | valueOption (o : ValueOption) (value : Option String)
  | operation (name : String)

/-- What was read so far. `count` arguments without a dash have begun; those taken in are in `paths`, the
operation apart. -/
structure Parse where
  tool : Tool
  options : Options
  operation : Option Operation
  paths : List String
  count : Nat
  pending : Pending

namespace Parse

def start (tool : Tool) : Parse := ⟨tool, ⟨none, none, false⟩, none, [], 0, .nothing⟩

def setOption (p : Parse) (o : ValueOption) (value : String) : Except UsageError Parse :=
  match o with
  | .output =>
    if p.options.output.isSome then .error .argumentConflict
    else .ok { p with options := { p.options with output := some value }, pending := .nothing }
  | .format =>
    if p.options.format.isSome then .error .argumentConflict
    else .ok { p with options := { p.options with format := some value }, pending := .nothing }

def settle (p : Parse) : Except UsageError Parse :=
  match p.pending with
  | .nothing => .ok p
  | .valueOption _ none => .error .invalidValue
  | .valueOption o (some value) => p.setOption o value
  | .operation name =>
    match Operation.ofName? name with
    | some operation => .ok { p with operation := some operation, pending := .nothing }
    | none => .error .invalidValue

def setFlag (p : Parse) (f : Flag) : Except UsageError Parse := do
  let p ← p.settle
  match f with
  | .help => .error .helpRequested
  | .version => .error .versionRequested
  | .verbose =>
    if p.options.verbose then .error .argumentConflict
    else .ok { p with options := { p.options with verbose := true } }

def beginOption (p : Parse) (o : ValueOption) (attached : Option String) : Except UsageError Parse := do
  let p ← p.settle
  match attached with
  | some value => p.setOption o value
  | none => .ok { p with pending := .valueOption o none }

def readLong (p : Parse) (name : String) (attached : Option String) : Except UsageError Parse :=
  match longName? name, attached with
  | none, _ => .error .unknownArgument
  | some (.valueOption o), attached => p.beginOption o attached
  | some (.flag _), some _ => .error .tooManyValues
  | some (.flag f), none => p.setFlag f

/-- The letters after a single dash. The value of an option may follow its letter at once. -/
def readLetters (p : Parse) : List Char → Except UsageError Parse
  | [] => .ok p
  | letter :: rest =>
    match letterName? letter with
    | none => .error .unknownArgument
    | some (.flag f) => do
      let p ← p.setFlag f
      readLetters p rest
    | some (.valueOption o) =>
      p.beginOption o (match rest with
        | [] => none
        | '=' :: value => some (String.ofList value)
        | value => some (String.ofList value))

/-- How many arguments without a dash a tool takes; `none` is any number. -/
def capacity : Tool → Option Nat
  | render => none
  | required => some 1
  | diff => some 3

def readPath (p : Parse) (arg : String) : Except UsageError Parse :=
  if (capacity p.tool).any (· ≤ p.count) then .error .unknownArgument
  else do
    let p ← p.settle
    if p.tool = diff ∧ p.count = 0 then .ok { p with count := 1, pending := .operation arg }
    else .ok { p with count := p.count + 1, paths := p.paths ++ [arg] }

def awaited (p : Parse) : Option ValueOption :=
  match p.pending with
  | .valueOption o none => some o
  | _ => none

def readPlain (p : Parse) (arg : String) : Except UsageError Parse :=
  match p.awaited with
  | some o => .ok { p with pending := .valueOption o (some arg) }
  | none => p.readPath arg

def readOne (p : Parse) (arg : String) : Except UsageError Parse :=
  match arg.toList with
  | '-' :: '-' :: long =>
    let (name, attached) := long.span (· ≠ '=')
    p.readLong (String.ofList name) (match attached with
      | [] => none
      | _ :: value => some (String.ofList value))
  | '-' :: letter :: letters => p.readLetters (letter :: letters)
  | _ => p.readPlain arg

def readAll (p : Parse) (optionsEnded : Bool) : List String → Except UsageError Parse
  | [] => p.settle
  | arg :: rest =>
    if optionsEnded then do
      let p ← p.readPath arg
      readAll p true rest
    else if arg = "--" then readAll p true rest
    else do
      let p ← p.readOne arg
      readAll p false rest

def command (p : Parse) : Except UsageError Command :=
  match p.tool, p.operation, p.paths with
  | render, _, input :: inputs => .ok (.render p.options (input :: inputs))
  | required, _, [input] => .ok (.required p.options input)
  | diff, some operation, [a, b] => .ok (.diff p.options operation a b)
  | _, _, _ => .error .missingArgument

end Parse

def readArguments (tool : Tool) (environmentFormat : Option String) (args : List String) :
    Except UsageError Command := do
  let p ← (Parse.start tool).readAll false args
  { p with options := { p.options with format := p.options.format <|> environmentFormat } }.command

end Tool
end LayeredConfig
