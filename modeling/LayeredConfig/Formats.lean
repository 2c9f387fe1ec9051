import LayeredConfig.Format
import LayeredConfig.Json.Reader
import LayeredConfig.Json.Text
import LayeredConfig.Toml.Reader
import LayeredConfig.Toml.Text
import LayeredConfig.Value.Canonical
import LayeredConfig.Yaml.Reader
import LayeredConfig.Yaml.Text

/-! # The formats

JSON in two layouts, YAML and TOML. What a reader gives is brought into canonical form. Every value has a
text in JSON and YAML; a TOML text is one map, so it cannot hold several documents.
-/
namespace LayeredConfig

def decoded (name : String) (values : Option (List Value)) : Except Error (List Value) :=
  match values with
  | some values => .ok (values.map Value.canonical)
  | none => .error (.decode name)

namespace Json

def stream (text : Value → String) (values : List Value) : String :=
  String.join (values.map fun v => text v ++ "\n")

def format : Format where
  decode input := decoded "json" (documents? input)
  encode v := .ok (text v)
  encodeStream values := .ok (stream text values)

def prettyText (v : Value) : String := String.ofList (pretty 0 v)

def prettyFormat : Format where
  decode input := decoded "json" (documents? input)
  encode v := .ok (prettyText v)
  encodeStream values := .ok (stream prettyText values)

end Json

namespace Yaml

def border : String := "---\n"

def format : Format where
  decode input := decoded "yaml" (documents? input)
  encode v := .ok (text v)
  encodeStream values := .ok (border.intercalate (values.map text))

end Yaml

namespace Toml

def encode (v : Value) : Except Error String :=
  match text v with
  | .ok text => .ok text
  | .error kind => .error (.encode "toml" (.value kind))

def encodeStream : List Value → Except Error String
  | [] => .ok ""
  | [v] => encode v
  | values => .error (.encode "toml" (.documents values.length))

def format : Format where
  decode input := decoded "toml" ((value? input).map ([·]))
  encode
  encodeStream

end Toml

namespace Registry

def builtIn : Registry :=
  ((((empty.register "json" Json.format).register "json-pretty" Json.prettyFormat).register
    "yaml" Yaml.format).register "yml" Yaml.format).register "toml" Toml.format

def showChar (c : Char) : List Char :=
  if c = '"' then ['\\', '"']
  else if c = '\\' then ['\\', '\\']
  else if c = '\n' then ['\\', 'n']
  else if c = '\r' then ['\\', 'r']
  else if c = '\t' then ['\\', 't']
  else if c.toNat = 0 then ['\\', '0']
  else if c.toNat < 0x20 ∨ (0x7F ≤ c.toNat ∧ c.toNat < 0xA0) then
    '\\' :: 'u' :: '\x7b' :: (Nat.toDigits 16 c.toNat ++ ['\x7d'])
  else [c]

def showName (name : String) : String :=
  "\"" ++ String.ofList (name.toList.flatMap showChar) ++ "\""

def shown (r : Registry) : String := "\x7b" ++ ", ".intercalate (r.names.map showName) ++ "\x7d"

end Registry
end LayeredConfig
