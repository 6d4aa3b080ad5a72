import ClassicBasic.Diagnostic
import ClassicBasic.Dialect.Grammar
import ClassicBasic.Text.Blank

/-!
# Characters at their places

The lexer reads the lines of a listing as one list of characters, each with its place. A line loses
the white space at its end and gains an end mark.
-/

set_option autoImplicit false

namespace ClassicBasic

structure Glyph where
  char : Char
  pos : Position
  /-- Whether this is the end mark of its line. -/
  ends : Bool
  deriving DecidableEq, Repr

namespace Glyph

def endMark : Char := '\r'

/-- Characters of the line `text` from column `col` on, then its end mark. -/
def spread (line : Nat) (text file : Text) : Int → Text → List Glyph
  | col, [] => [⟨endMark, .onLine line col text file, true⟩]
  | col, c :: rest => ⟨c, .onLine line col text file, false⟩ :: spread line text file (col + 1) rest

def ofLine (l : Line) : List Glyph :=
  let text := Text.trimBlankEnd l.text
  spread l.number text l.file 1 text

def place : List Glyph → Position
  | [] => {}
  | g :: _ => g.pos

/-- The characters up to the end mark of the line, and what follows them. -/
def restOfLine (input : List Glyph) : Text × List Glyph :=
  ((input.takeWhile fun g => !g.ends).map char, input.dropWhile fun g => !g.ends)

/-- The characters from the next line on, if more than `closing` of them are left: the last line of
a listing is never entered this way. -/
def nextLine? (closing : Nat) (input : List Glyph) : Option (List Glyph) :=
  let next := (input.dropWhile fun g => !g.ends).drop 1
  if closing < next.length then some next else none

theorem length_dropWhile_le {α : Type} (p : α → Bool) (l : List α) :
    (l.dropWhile p).length ≤ l.length := (List.dropWhile_suffix p).length_le

theorem length_restOfLine (input : List Glyph) : (restOfLine input).2.length ≤ input.length :=
  length_dropWhile_le _ input

theorem length_nextLine {closing : Nat} {input next : List Glyph}
    (h : nextLine? closing input = some next) : next.length < input.length := by
  simp only [nextLine?] at h
  split at h
  · rename_i hlt
    obtain rfl := Option.some.inj h
    have := length_dropWhile_le (fun g => !g.ends) input
    simp only [List.length_drop] at hlt ⊢
    omega
  · cases h

end Glyph

end ClassicBasic
