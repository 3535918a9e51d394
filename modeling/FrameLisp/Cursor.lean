/-
A cursor over tokens.

The tokens stay as they are and only the position moves, forward and never past the end
(`Cursor.read_position`). Reading takes one form as `Datum.read?` does, and reading all takes the forms that are
left; only these two go into lists, so only they can meet lists that are nested too deeply. Such a reading fails, and
what it took until then stays taken: the cursor is behind the parenthesis that opens one list too many.
-/
import FrameLisp.Datum.Reading
import FrameLisp.Fault
import FrameLisp.Token.Nesting

namespace FrameLisp

/-- a sequence of tokens and how many of them are taken -/
structure Cursor where
  tokens : List String
  position : Nat
  deriving DecidableEq, Repr

namespace Cursor

def start (tokens : List String) : Cursor := ⟨tokens, 0⟩

/-- the tokens that are not taken yet -/
def rest (c : Cursor) : List String := c.tokens.drop c.position

/-- the next token, if there is one -/
def peek (c : Cursor) : Option String := c.tokens[c.position]?

/-- takes the next token, if there is one -/
def advance (c : Cursor) : Option String × Cursor :=
  match c.peek with
  | none => (none, c)
  | some t => (some t, { c with position := c.position + 1 })

def exhausted (c : Cursor) : Bool := c.tokens.length ≤ c.position

/-- moves on to where only `rest` is left -/
def moveTo (c : Cursor) (rest : List String) : Cursor := { c with position := c.tokens.length - rest.length }

/-- takes one form; without a form, whatever is left -/
def read (c : Cursor) : Option Datum × Cursor :=
  match Datum.read? c.rest with
  | none => (none, c.moveTo [])
  | some (d, rest) => (some d, c.moveTo rest)

/-- takes all forms that are left -/
def readAll (c : Cursor) : List Datum × Cursor := (Datum.readAll c.rest, c.moveTo [])

/-- the tokens between this position and a later one -/
def taken (c later : Cursor) : List String := c.rest.take (later.position - c.position)

/-- behind the first token that opens more than `limit` lists -/
def stopped (limit : Nat) (c : Cursor) : Cursor :=
  { c with position := c.position + (Token.within limit 0 c.rest).length + 1 }

/-- a move that takes forms, if their lists are nested at most `limit` deep; the cursor moves either way -/
def limited {α : Type} (limit : Nat) (move : Cursor → α × Cursor) (c : Cursor) : Except Fault α × Cursor :=
  let (a, moved) := move c
  if Token.nestedWithin limit (c.taken moved) then (.ok a, moved) else (.error .tooDeep, c.stopped limit)

/-- takes one form as `read` does, within a limit -/
def readWithin (limit : Nat) : Cursor → Except Fault (Option Datum) × Cursor := limited limit read

/-- takes all forms that are left as `readAll` does, within a limit -/
def readAllWithin (limit : Nat) : Cursor → Except Fault (List Datum) × Cursor := limited limit readAll

theorem length_rest (c : Cursor) : c.rest.length = c.tokens.length - c.position := by
  simp [rest]

theorem peek_eq_head? (c : Cursor) : c.peek = c.rest.head? := by
  simp [peek, rest]

theorem read_tokens (c : Cursor) : c.read.2.tokens = c.tokens := by
  simp only [read]
  split <;> rfl

/-- reading keeps the position inside the tokens and never moves it back -/
theorem read_position {c : Cursor} (h : c.position ≤ c.tokens.length) :
    c.position ≤ c.read.2.position ∧ c.read.2.position ≤ c.tokens.length := by
  simp only [read]
  split
  · exact ⟨by simpa [moveTo] using h, by simp [moveTo]⟩
  · next d rest hread =>
    have hlen := Datum.length_of_read? hread
    rw [length_rest] at hlen
    refine ⟨?_, by simp [moveTo]⟩
    simp only [moveTo]
    omega

end Cursor

end FrameLisp
