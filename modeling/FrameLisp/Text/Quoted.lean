/-
Text between quotation marks, as messages and notes show it.

`quoted` writes a text so that its limits and its unusual characters can be seen: between single quotes, or
between double quotes when the text holds a single quote and no double one. The backslash and the mark in use
are escaped by a backslash, tab, line feed and carriage return have their letters, and any other character that
is not printable is written by its code point in two, four or eight hexadecimal digits. A text of plain
characters is written as it is (`quoted_plain`).
-/
import FrameLisp.Text.Printable

namespace FrameLisp.Text

/-- the hexadecimal digits of `n`, with zeros in front up to `width` digits -/
def hex (width n : Nat) : List Char :=
  let digits := Nat.toDigits 16 n
  List.replicate (width - digits.length) '0' ++ digits

/-- one character of a text that stands between two of `mark` -/
def escape (mark c : Char) : List Char :=
  if c == '\\' || c == mark then ['\\', c]
  else if c == '\n' then ['\\', 'n']
  else if c == '\r' then ['\\', 'r']
  else if c == '\t' then ['\\', 't']
  else if isPrintable c then [c]
  else if c.toNat < 0x100 then '\\' :: 'x' :: hex 2 c.toNat
  else if c.toNat < 0x10000 then '\\' :: 'u' :: hex 4 c.toNat
  else '\\' :: 'U' :: hex 8 c.toNat

/-- the mark that a text is put between: the single quote, unless only the double one needs no escape -/
def markFor (cs : List Char) : Char :=
  if cs.contains '\'' && !cs.contains '"' then '"' else '\''

/-- a text between quotation marks, with everything unusual in it escaped -/
def quoted (s : String) : String :=
  let mark := markFor s.toList
  String.ofList (mark :: (s.toList.flatMap (escape mark) ++ [mark]))

theorem escape_plain {mark c : Char} (hmark : c ≠ mark) (hslash : c ≠ '\\') (hprint : isPrintable c = true) :
    escape mark c = [c] := by
  have hn : c ≠ '\n' := by rintro rfl; exact absurd hprint (by decide)
  have hr : c ≠ '\r' := by rintro rfl; exact absurd hprint (by decide)
  have ht : c ≠ '\t' := by rintro rfl; exact absurd hprint (by decide)
  simp [escape, hmark, hslash, hn, hr, ht, hprint]

/-- a text of printable characters with no quote and no backslash only gets its two marks -/
theorem quoted_plain {s : String} (h : ∀ c ∈ s.toList, c ≠ '\'' ∧ c ≠ '\\' ∧ isPrintable c = true) :
    quoted s = String.ofList ('\'' :: (s.toList ++ ['\''])) := by
  have hmark : markFor s.toList = '\'' := by
    have : '\'' ∉ s.toList := fun hmem => (h _ hmem).1 rfl
    simp [markFor, this]
  have hflat : ∀ cs : List Char, (∀ c ∈ cs, c ≠ '\'' ∧ c ≠ '\\' ∧ isPrintable c = true) →
      cs.flatMap (escape '\'') = cs := by
    intro cs
    induction cs with
    | nil => simp
    | cons c cs ih =>
      intro hcs
      obtain ⟨h1, h2, h3⟩ := hcs c (by simp)
      rw [List.flatMap_cons, escape_plain h1 h2 h3, ih fun d hd => hcs d (List.mem_cons_of_mem _ hd)]
      rfl
  simp [quoted, hmark, hflat _ h]

end FrameLisp.Text
