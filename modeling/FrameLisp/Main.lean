/-
The command line.

The settings come from the environment. The shell works on files as a value, so what lies on the way to the
prelude's path is read from disk before it runs; the standard prelude is put beside the program itself. With
arguments these are the program text, without them the prompt is shown and one line is read.
-/
import FrameLisp.Shell

namespace FrameLisp.Main

/-- the settings of the environment -/
def readSettings : IO Settings := do
  return ⟨← IO.getEnv "FRAMELISP_PROMPT", ← IO.getEnv "FRAMELISP_PRELUDE_PATH", ← IO.getEnv "LOGLEVEL"⟩

/-- whether a directory on disk may be searched, be it for itself -/
def mayBeSearched (path : String) : IO Bool := (System.mkFilePath [path, "."]).pathExists

/-- the entries of a directory on disk with what a prelude may read of them -/
def readEntries (path : String) : IO (List (String × FileTree)) := do
  let listed ← (System.mkFilePath [path]).readDir
  let searchable ← mayBeSearched path
  listed.toList.mapM fun e => do
    if ← e.path.isDir then return (e.fileName, FileTree.directory [])
    else if searchable && Prelude.isProgramName e.fileName then
      return (e.fileName, FileTree.file (← IO.FS.readBinFile e.path))
    else return (e.fileName, FileTree.file ByteArray.empty)

/-- the names that are left when every `..` takes back the one before it -/
def plainNames (names : List String) : List String :=
  names.foldl (fun kept name => if name = ".." then kept.dropLast else kept ++ [name]) []

/-- adds what is on disk at a path to the files, with the entries of a directory if they are asked for -/
def addPath (files : Files) (p : Path) (withEntries : Bool) : IO Files := do
  let disk := System.mkFilePath [p.text]
  let place := plainNames ((if p.anchor = .relative then files.working else []) ++ p.names)
  if ← disk.isDir then
    let entries ← if withEntries then readEntries p.text else pure (files.root.enter [] place).1.entries
    let directory := FileTree.directory entries (← mayBeSearched p.text)
    return { files with root := directory.put place files.root }
  else
    match files.root.walk files.nameLimit [] place with
    | .ok none =>
      if ← disk.pathExists then return { files with root := (FileTree.file ByteArray.empty).put place files.root }
      else return files
    | _ => return files

/-- the files that matter for a prelude at this path: the names on the way, and what is in its last two directories -/
def readFiles (standard path : Path) : IO Files := do
  let working := (Path.ofText (← IO.currentDir).toString).names
  let start : Files := { root := (FileTree.directory []).put working (.directory []), working }
  let length := path.names.length
  let files ← (List.range (length + 1)).foldlM (fun files n =>
    addPath files { path with names := path.names.take n } (length ≤ n + 1)) start
  let core := FileTree.file Prelude.standardText.toUTF8
  return { files with root := core.put (standard.names ++ ["core.lisp"]) files.root }

/-- the surroundings of a run of this program -/
def readSurroundings : IO Surroundings := do
  let settings ← readSettings
  let program := Path.ofText (← IO.appPath).toString
  let standard := program.parent.entry "prelude"
  let path := (Settings.pathsOr [standard] settings.preludePath).headD standard
  return { settings, files := ← readFiles standard path, standardPrelude := standard }

/-- runs the shell; the prompt is shown before the input is read, so it is not shown again with the output -/
def run (args : List String) : IO UInt32 := do
  let s ← readSurroundings
  let prompt := if args.isEmpty then s.settings.promptText else ""
  let output ← IO.getStdout
  output.putStr prompt
  output.flush
  let input ← if args.isEmpty then (← IO.getStdin).getLine else pure ""
  let report := Shell.run s args input
  output.putStr (String.ofList (report.output.toList.drop prompt.toList.length))
  output.flush
  let errors ← IO.getStderr
  errors.putStr (report.errorOutput s.settings)
  match report.ending, report.status? with
  | .escaped fault, _ =>
    errors.putStrLn fault.message
    return 1
  | _, status => return ((status.getD 0).toUInt32)

end FrameLisp.Main

def main (args : List String) : IO UInt32 := FrameLisp.Main.run args
