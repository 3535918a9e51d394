/-
Files as a value.

A tree is a file with its bytes or a directory with named entries. `Files` is a whole tree together with the
directory that relative paths start from. Finding a path walks down: every name but the last has to be a directory,
and `..` goes back up, at the root to the root itself.

Not every path is looked up. A directory may be closed to searches, and a name or a whole path may be longer than
the system allows. The lookup is refused then (`Refusal`), whether something is at the path or not. What is found can
be read: the bytes of a file, and the names in a directory whether it may be searched or not.
-/
import FrameLisp.Files.Path

namespace FrameLisp

/-- a cause for which a path is not looked up -/
inductive Refusal where
  /-- a name of the path, or the path, has too many bytes -/
  | tooLong
  /-- a directory on the way may not be searched -/
  | closed
  deriving DecidableEq, Repr

def Refusal.message : Refusal → String
  | .tooLong => "File name too long"
  | .closed => "Permission denied"

/-- a file or a directory -/
inductive FileTree where
  | file (bytes : ByteArray)
  | directory (entries : List (String × FileTree)) (searchable : Bool := true)

namespace FileTree

instance : Inhabited FileTree := ⟨.directory []⟩

def isDirectory : FileTree → Bool
  | .file _ => false
  | .directory .. => true

/-- the entries of a directory -/
def entries : FileTree → List (String × FileTree)
  | .file _ => []
  | .directory entries _ => entries

/-- whether names are looked up in a directory -/
def searchable : FileTree → Bool
  | .file _ => true
  | .directory _ searchable => searchable

/-- what the names lead to from `here`, which lies below the directories `above`, the nearest first; a name may have
`limit` bytes -/
def walk (limit : Nat) (here : FileTree) (above : List FileTree) : List String → Except Refusal (Option FileTree)
  | [] => .ok (some here)
  | name :: names =>
    if !here.isDirectory then .ok none
    else if !here.searchable then .error .closed
    else if name = ".." then
      match above with
      | [] => walk limit here [] names
      | up :: above => walk limit up above names
    else if limit < name.utf8ByteSize then .error .tooLong
    else
      match here.entries.lookup name with
      | none => .ok none
      | some inner => walk limit inner (here :: above) names

/-- the directory that the names lead to, and those above it; nothing is asked on the way -/
def enter (here : FileTree) (above : List FileTree) : List String → FileTree × List FileTree
  | [] => (here, above)
  | name :: names => enter ((here.entries.lookup name).getD (.directory [])) (here :: above) names

/-- puts `tree` where the names lead to and makes the directories on the way -/
def put (tree : FileTree) : List String → FileTree → FileTree
  | [], _ => tree
  | name :: names, here =>
    let inner := put tree names ((here.entries.lookup name).getD (.directory []))
    if (here.entries.lookup name).isSome then
      .directory (here.entries.map fun e => if e.1 == name then (name, inner) else e) here.searchable
    else .directory (here.entries ++ [(name, inner)]) here.searchable

end FileTree

/-- a tree of files, the directory that relative paths start from, and how many bytes a name and a path may have -/
structure Files where
  root : FileTree
  working : List String
  nameLimit : Nat := 255
  pathLimit : Nat := 4095

namespace Files

/-- the directory where the names of a path start, and those above it -/
def origin (files : Files) : Anchor → FileTree × List FileTree
  | .relative => files.root.enter [] files.working
  | .root | .doubleRoot => (files.root, [])

/-- what is at a path, if anything is -/
def find (files : Files) (p : Path) : Except Refusal (Option FileTree) :=
  if files.pathLimit < p.text.utf8ByteSize then .error .tooLong
  else (files.origin p.anchor).1.walk files.nameLimit (files.origin p.anchor).2 p.names

end Files

end FrameLisp
