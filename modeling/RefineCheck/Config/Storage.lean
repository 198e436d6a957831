/-
  RefineCheck.Config.Storage

  Configurations in files: a tree of files and directories, loading from a path, and saving
  to one, which creates the directories on the way.
-/

import RefineCheck.Config

namespace RefineCheck.Config

/-- What a path leads to. -/
inductive Content
  | file (text : String)
  | directory
deriving DecidableEq, Repr

/-- Files and directories by the names on their paths. The empty path is a directory. -/
abbrev Files := List (List String × Content)

namespace Files

/-- The names on a path that is written with slashes. -/
def names (path : String) : List String :=
  (path.splitOn "/").filter fun name => !name.isEmpty && name != "."

/-- What stands at the path; the empty path is the directory that is always there. -/
def get? (files : Files) (path : List String) : Option Content :=
  if path.isEmpty then some .directory else files.lookup path

/-- Stores something at the path, in place of what stood there. -/
def put (files : Files) (path : List String) (content : Content) : Files :=
  (path, content) :: files.filter fun e => e.1 != path

end Files

/-- Why a configuration cannot be read or written. -/
inductive StorageError
  /-- A path that is to be read is a directory. -/
  | readDirectory (path : String)
  /-- A document that cannot be read, or that sets something to a value of another kind. -/
  | parse (path : String)
  | environment (cause : EnvironmentError)
  /-- A directory that is to be created is a file. -/
  | notDirectory (path : String)
  /-- A path that is to be written is a directory. -/
  | writeDirectory (path : String)
  /-- A path without a name. -/
  | noName (path : String)
deriving DecidableEq, Repr

/-- The text of the failure. -/
def StorageError.message : StorageError → String
  | .readDirectory path => "config: failed to read " ++ path ++ ": read " ++ path ++ ": is a directory"
  | .parse path => "config: failed to parse " ++ path
  | .environment cause => cause.message
  | .notDirectory path => "config: failed to create directory: mkdir " ++ path ++ ": not a directory"
  | .writeDirectory path => "config: failed to write " ++ path ++ ": open " ++ path ++ ": is a directory"
  | .noName path =>
    "config: failed to write " ++ path ++ ": open " ++ path ++ ": no such file or directory"

/-- Loads the defaults with the settings of a file, if there is one, and of the environment. -/
def load (files : Files) (env : Environment) (path : String) : Except StorageError Config := do
  let c ← match files.get? (Files.names path) with
    | none => pure {}
    | some .directory => throw (.readDirectory path)
    | some (.file text) =>
      match ({} : Config).withText? text with
      | some c => pure c
      | none => throw (.parse path)
  (c.withEnvironment env).mapError .environment

/-- Creates the directory at each of the paths, the outermost first. -/
def makeDirectories (files : Files) : (paths : List (List String)) → Except StorageError Files
  | [] => .ok files
  | path :: paths =>
    match files.get? path with
    | some .directory => makeDirectories files paths
    | some (.file _) => .error (.notDirectory ("/".intercalate path))
    | none => makeDirectories (files.put path .directory) paths

/-- The paths of the directories on the way to a path, the outermost first. -/
def parents (path : List String) : List (List String) :=
  (List.range path.length).map fun n => path.take n

/-- Writes the settings to a file. -/
def save (c : Config) (files : Files) (path : String) : Except StorageError Files := do
  let names := Files.names path
  if path.endsWith "/" then
    let _ ← makeDirectories files (parents names ++ [names])
    throw (.writeDirectory path)
  let files ← makeDirectories files (parents names)
  if path.isEmpty then throw (.noName path)
  match files.get? names with
  | some .directory => throw (.writeDirectory path)
  | _ => return files.put names (.file c.text)

end RefineCheck.Config
