/-
Atoms, the leaves of a program text.

Every token other than a parenthesis is exactly one atom (`Atom.ofToken`): a number when the whole token is a
numeral, else a string when it starts and ends with a quotation mark, else an identifier. Two atoms agree when
they are of one kind and their contents are equal, for numbers as numbers: the two zeros agree, and what is not
a number agrees with nothing.
-/
import FrameLisp.Number.Numeral
import FrameLisp.Number.Written
import FrameLisp.Text.Quoted

namespace FrameLisp

/-- a leaf of a program text -/
inductive Atom where
  | number (value : Float)
  | string (text : String)
  | identifier (name : String)
  deriving Repr

namespace Atom

/-- the text between the quotation marks of a token, if it has both -/
def unquote? : List Char → Option (List Char)
  | '"' :: c :: cs => if (c :: cs).getLast? = some '"' then some (c :: cs).dropLast else none
  | _ => none

/-- the atom that a token stands for -/
def ofToken (token : String) : Atom :=
  match Numeral.ofChars? token.toList with
  | some n => .number n.toFloat
  | none =>
    match unquote? token.toList with
    | some cs => .string (String.ofList cs)
    | none => .identifier token

def kind : Atom → String
  | .number _ => "number"
  | .string _ => "string"
  | .identifier _ => "identifier"

def isIdentifier : Atom → Bool
  | .identifier _ => true
  | _ => false

/-- whether two atoms are equal as parts of a program -/
def agrees : Atom → Atom → Bool
  | .number x, .number y => x == y
  | .string s, .string t => s == t
  | .identifier m, .identifier n => m == n
  | _, _ => false

/-- an atom the way a program text has it -/
def written : Atom → String
  | .number x => Number.exactText x
  | .string s => "\"" ++ s ++ "\""
  | .identifier name => name

/-- an atom with its kind, for messages about a program text -/
def inspect : Atom → String
  | .number x => "Atom(number, " ++ Number.exactText x ++ ")"
  | .string s => "Atom(string, " ++ Text.quoted s ++ ")"
  | .identifier name => "Atom(identifier, " ++ Text.quoted name ++ ")"

theorem unquote?_quoted (cs : List Char) : unquote? ('"' :: (cs ++ ['"'])) = some cs := by
  cases cs with
  | nil => rfl
  | cons c cs =>
    have hlast : (c :: (cs ++ ['"'])).getLast? = some '"' := by
      rw [← List.cons_append, List.getLast?_append]
      rfl
    have hdrop : (c :: (cs ++ ['"'])).dropLast = c :: cs := by
      rw [← List.cons_append, List.dropLast_concat]
    simp [unquote?, hlast, hdrop]

/-- a quotation mark is no part of a numeral -/
theorem ofChars?_quote (cs : List Char) : Numeral.ofChars? ('"' :: cs) = none := by
  have hsign : Numeral.takeSign ('"' :: cs) = (false, '"' :: cs) := rfl
  have hdigit : Char.isDigit '"' = false := by decide
  simp [Numeral.ofChars?, hsign, Numeral.takeFraction, hdigit]

/-- a text between quotation marks is a string -/
theorem ofToken_quoted (s : String) : ofToken (String.ofList ('"' :: (s.toList ++ ['"']))) = .string s := by
  simp [ofToken, ofChars?_quote, unquote?_quoted]

end Atom

end FrameLisp
