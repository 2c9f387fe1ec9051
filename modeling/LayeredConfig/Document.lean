import LayeredConfig.Value.Basic

/-! # Documents

A document is a value with an identity of its own and a record of what was merged into it.
-/
namespace LayeredConfig

/-- Identifiers are taken from an ascending count. -/
abbrev DocumentId := Nat

structure Document where
  id : DocumentId
  /-- The documents merged into this one, oldest first. -/
  parents : List DocumentId
  data : Value

end LayeredConfig
