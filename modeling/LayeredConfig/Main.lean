import LayeredConfig.Tool.Program

/-! # The command line

The name of the program says which tool to run. The directories of the files that the tool asks for are
read into a file tree, the tool runs on that tree, and what it wrote goes to the file system or to the
standard output.
-/
namespace LayeredConfig.CommandLine

def placeOf (path : String) : Place :=
  ((Path.pieces path.toList).filter (!Path.isVoid ·)).foldl
    (fun place piece => if piece = ['.', '.'] then place.dropLast else place ++ [String.ofList piece]) []

def directoryPlace (working path : String) : Place :=
  placeOf (Path.inside working (directoryOf path))

def readEntry (path : String) (isDirectory : Bool) : IO (Option Entry) := do
  if isDirectory then return some .directory
  match ← (IO.FS.readBinFile path).toBaseIO with
  | .ok bytes => return some (.file bytes)
  | .error _ => return none

def loadDirectory (t : FileTree) (place : Place) : IO FileTree := do
  match ← (System.mkFilePath [FileTree.placePath place]).readDir.toBaseIO with
  | .error _ => return t
  | .ok found =>
    let parents := (List.range (place.length + 1)).map fun n => (place.take n, Entry.directory)
    let entries ← found.toList.filterMapM fun e => do
      let entry ← readEntry e.path.toString (← e.path.isDir)
      return entry.map fun entry => (place ++ [e.fileName], entry)
    return { t with entries := entries ++ parents ++ t.entries }

def missingPath? : Tool.Failure → Option String
  | .engine (.file path (.io ⟨.notFound, _⟩)) => some path
  | .io path ⟨.notFound, _⟩ => some path
  | _ => none

/-- Does some work, and again as long as it misses a file whose directory was not read yet; `known` are
the directories that were. -/
def runLoading {α : Type} (working : String) (work : Tool.Work α) :
    Nat → List Place → FileTree → IO (Except Tool.Failure α × FileTree)
  | 0, _, t => return work.run t
  | fuel + 1, known, t => do
    match work.run t with
    | (.error failure, after) =>
      match (missingPath? failure).map (directoryPlace working) with
      | some place =>
        if known.contains place then return (.error failure, after)
        else runLoading working work fuel (place :: known) (← loadDirectory t place)
      | none => return (.error failure, after)
    | result => return result

def runOn {α : Type} (working : String) (paths : List String) (work : Tool.Work α) :
    IO (Except Tool.Failure α × FileTree) := do
  let places := (placeOf working :: paths.map (directoryPlace working)).eraseDups
  let tree ← places.foldlM loadDirectory ⟨[], placeOf working⟩
  runLoading working work 100 places tree

def replaceFile (path text : String) : IO Unit := do
  let temporary := path ++ ".staged"
  IO.FS.writeFile temporary text
  IO.FS.rename temporary path

def outputPath? : Tool.Command → Option String
  | .render options _ | .required options _ | .diff options _ _ _ => options.output

def inputPaths : Tool.Command → List String
  | .render _ inputs => inputs
  | .required _ input => [input]
  | .diff _ _ a b => [a, b]

def usage (tool : Tool) : String :=
  match tool with
  | .render => "usage: strata [-o PATH] [-f FORMAT] [-v] INPUT..."
  | .required => "usage: strata-required [-o PATH] [-f FORMAT] [-v] INPUT"
  | .diff => "usage: strata-diff [-o PATH] [-f FORMAT] [-v] intersect|subtract A B"

def usageCode : Tool.UsageError → UInt32
  | .helpRequested | .versionRequested => 0
  | _ => 2

def fail (failure : Tool.Failure) : IO UInt32 := do
  IO.eprintln ("Error: " ++ failure.message)
  return 1

def runTool (tool : Tool) (working : String) (args : List String) : IO UInt32 := do
  match Tool.readArguments tool (← IO.getEnv "STRATA_FORMAT") args with
  | .error e =>
    IO.eprintln (usage tool)
    return usageCode e
  | .ok command =>
    let paths := (outputPath? command).toList ++ inputPaths command
    match ← runOn working paths (Tool.run .reliable command) with
    | (.error failure, _) => fail failure
    | (.ok stdout, files) =>
      IO.print stdout
      if let some path := outputPath? command then
        if let .ok text := files.read path then replaceFile path text
      return 0

def runWrapper (working : String) (argv : List String) : IO UInt32 := do
  match ← runOn working (argv.drop 1) (FileTree.look (Tool.runWrapped Tool.runProgram · argv)) with
  | (.error failure, _) => fail failure
  | (.ok (code, stdout), _) =>
    IO.print stdout
    return code.toUInt32

end LayeredConfig.CommandLine

open LayeredConfig in
def main (args : List String) : IO UInt32 := do
  let program := (← IO.appPath).fileName.getD ""
  let working := (← IO.currentDir).toString
  match Tool.ofName? program with
  | some tool => CommandLine.runTool tool working args
  | none => CommandLine.runWrapper working (program :: args)
