import LayeredConfig.Error

/-! # Views of a file system

What a reader of layers asks of a file system, while nothing changes it: whether a path leads to a file,
which canonical path stands for all paths that lead there, and the text that is read through a path.
Nothing is said of how paths are resolved, so there may be links, and a file may be out of reach. A view
is of finitely many files.
-/
namespace LayeredConfig

structure FileView where
  isFile : String → Bool
  canonicalPath : String → Except IoKind String
  read : String → Except IoKind String
  /-- The canonical paths of all files. -/
  canonicalPaths : List String
  canonicalPath_mem : ∀ {path canonical : String}, isFile path = true →
    canonicalPath path = .ok canonical → canonical ∈ canonicalPaths

end LayeredConfig
