/-! # Classes of characters -/
namespace LayeredConfig.Toml

def isBlank (c : Char) : Bool := c = ' ' || c = '\t'

def isControl (c : Char) : Bool := (c.toNat < 0x20 && c ≠ '\t') || c.toNat = 0x7F

def isBareChar (c : Char) : Bool := c.isAlphanum || c = '-' || c = '_'

end LayeredConfig.Toml
