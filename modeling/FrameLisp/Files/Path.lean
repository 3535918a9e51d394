/-
Paths.

A path is an anchor, that is where it starts, and the names below it. In a text, slashes separate names; empty
names and `.` mean nothing and are left out, `..` is kept. A text that starts with a slash starts at the root,
and exactly two slashes at the start are an anchor of their own. So no name of a path that was read is empty or
a point (`names_ofText`).
-/

namespace FrameLisp

/-- where a path starts -/
inductive Anchor where
  | relative
  | root
  | doubleRoot
  deriving DecidableEq, Repr

/-- an anchor and the names below it -/
structure Path where
  anchor : Anchor
  names : List String
  deriving DecidableEq, Repr

namespace Path

/-- the anchor of a text, by the number of slashes at its start -/
def anchorOf (cs : List Char) : Anchor :=
  match (cs.takeWhile (· == '/')).length with
  | 0 => .relative
  | 2 => .doubleRoot
  | _ => .root

/-- the path that a text means -/
def ofText (text : String) : Path where
  anchor := anchorOf text.toList
  names := ((text.toList.splitOn '/').map String.ofList).filter fun name => name != "" && name != "."

/-- the text of a path; the empty relative path is a point -/
def text (p : Path) : String :=
  let below := "/".intercalate p.names
  match p.anchor with
  | .relative => if p.names.isEmpty then "." else below
  | .root => "/" ++ below
  | .doubleRoot => "//" ++ below

/-- the path one name up, where there is one -/
def parent (p : Path) : Path := { p with names := p.names.dropLast }

/-- the path of an entry -/
def entry (p : Path) (name : String) : Path := { p with names := p.names ++ [name] }

/-- no name of a path read from a text is empty or a point -/
theorem names_ofText (s : String) : ∀ name ∈ (ofText s).names, name ≠ "" ∧ name ≠ "." := by
  intro name hname
  simpa using (List.mem_filter.1 hname).2

end Path

end FrameLisp
