import LayeredConfig.Directive
import LayeredConfig.Value.Basic

/-! # Errors

Each error is a cause; `Error.message` words it. A label that says where a failure happened wraps the
failure, outermost label first.
-/
namespace LayeredConfig

inductive IoKind where
  | notFound | invalidData | isADirectory | notADirectory | brokenPipe | resourceBusy
  | invalidInput | invalidFilename | permissionDenied
deriving DecidableEq

/-- A refusal of the file system, with the words for it if they are not the system's own. -/
structure IoError where
  kind : IoKind
  message : Option String

inductive DirectiveFault where
  | notBool (found : Kind)
  | notFormatName (found : Kind)
  | selectorPath (found : Kind)
  | selectorIndex (shown : String)
  | selectorTarget

inductive EncodeFault where
  | value (found : Kind)
  | documents (count : Nat)

inductive ParentFault where
  | empty
  | kind (found : Kind)

mutual

inductive Error where
  | patchKind (found : Kind)
  | patchValue (value : String)
  | referenceKind (directive : Directive) (found : Kind)
  | directiveValue (directive : Directive) (fault : DirectiveFault)
  | invalidIndex (index count : Nat)
  | noMatch (pattern : String)
  | unresolved (directive : Directive) (path : String)
  | circular (value : String)
  | tooDeep
  | mismatch (dst src : Kind)
  | unknownFormat (name : String)
  | encode (format : String) (fault : EncodeFault)
  | decode (format : String)
  | outputFile (path : String) (cause : IoError)
  | write (cause : IoError)
  | file (path : String) (cause : FileFault)
  | invalidParent (path : String) (fault : ParentFault)
  | cyclicParent (cycle : List String)
  | leftoverDirective (path : List String) (directive : String)
  | requiredMissing (path : List String)
  | context (label : String) (cause : Error)

inductive FileFault where
  | noExtension
  | io (cause : IoError)
  | error (cause : Error)

end

namespace IoError

def text : IoKind → String
  | .notFound => "No such file or directory (os error 2)"
  | .invalidData => "stream did not contain valid UTF-8"
  | .isADirectory => "Is a directory (os error 21)"
  | .notADirectory => "Not a directory (os error 20)"
  | .brokenPipe => "Broken pipe (os error 32)"
  | .resourceBusy => "Device or resource busy (os error 16)"
  | .invalidInput => "file name contained an unexpected NUL byte"
  | .invalidFilename => "File name too long (os error 36)"
  | .permissionDenied => "Permission denied (os error 13)"

def toString (e : IoError) : String := e.message.getD (text e.kind)

end IoError

def DirectiveFault.message : DirectiveFault → String
  | notBool found => "expected true or false, found " ++ found.name
  | notFormatName found => "expected a format name, found " ++ found.name
  | selectorPath found => "selector path must be a string, found " ++ found.name
  | selectorIndex shown => "selector index must be a non-negative integer, found " ++ shown
  | selectorTarget => "selector needs either $match or index"

def EncodeFault.message : EncodeFault → String
  | value found => "cannot represent " ++ found.name
  | documents count => "a TOML file holds one document, got " ++ toString count

def ParentFault.message : ParentFault → String
  | empty => "must be a non-empty path"
  | kind found => "expected a path or false, found " ++ found.name

def placeText (path : List String) : String :=
  if path.isEmpty then "<root>" else ".".intercalate path

mutual

def Error.message : Error → String
  | .patchKind found => "$patch must be a string, found " ++ found.name
  | .patchValue value => "unknown $patch value '" ++ value ++ "'"
  | .referenceKind directive found =>
    directive.key ++ " must be a path or document selector, found " ++ found.name
  | .directiveValue directive fault =>
    "invalid value for " ++ directive.key ++ ": " ++ fault.message
  | .invalidIndex index count =>
    "document index " ++ toString index ++ " out of range (session holds " ++ toString count ++ ")"
  | .noMatch pattern => "no document matches " ++ pattern
  | .unresolved directive path => directive.key ++ " reference not found: " ++ path
  | .circular value =>
    "circular reference (depth limit " ++ toString depthLimit ++ " exceeded) at " ++ value
  | .tooDeep => "document nesting exceeds depth limit " ++ toString depthLimit
  | .mismatch dst src => "cannot merge " ++ src.name ++ " into " ++ dst.name
  | .unknownFormat name => "unknown format '" ++ name ++ "'"
  | .encode format fault => "failed to encode " ++ format ++ ": " ++ fault.message
  | .decode format => "failed to decode " ++ format ++ ": malformed document"
  | .outputFile path cause =>
    "failed to write output file '" ++ path ++ "': " ++ cause.toString
  | .write cause => "failed to write output: " ++ cause.toString
  | .file path cause => "layer file error in '" ++ path ++ "': " ++ cause.message
  | .invalidParent path fault => "invalid $parent in '" ++ path ++ "': " ++ fault.message
  | .cyclicParent cycle => "cyclic $parent chain detected: " ++ " -> ".intercalate cycle
  | .leftoverDirective path directive =>
    "unexpected directive " ++ directive ++ " at " ++ placeText path
  | .requiredMissing path => "required value missing at " ++ placeText path
  | .context label cause => label ++ ": " ++ cause.message

def FileFault.message : FileFault → String
  | .noExtension => "cannot infer format: file has no extension"
  | .io cause => cause.toString
  | .error cause => cause.message

end

namespace Error

/-- The failure under all labels. -/
def root : Error → Error
  | context _ cause => cause.root
  | e => e

def labels : Error → List String
  | context label cause => label :: cause.labels
  | _ => []

end Error

def labelled {α : Type} (label : String) (result : Except Error α) : Except Error α :=
  match result with
  | .ok a => .ok a
  | .error e => .error (.context label e)

end LayeredConfig
