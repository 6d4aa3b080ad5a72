import ClassicBasic.Text.PathName

/-!
# Places in a source file

Lines and columns count from one; a position keeps the text of its line so that a diagnostic can
show it.
-/

set_option autoImplicit false

namespace ClassicBasic

structure Position where
  line : Int := 0
  col : Int := 0
  /-- How many blanks and tabs the line starts with. -/
  offset : Nat := 0
  text : Text := []
  file : Text := []
  deriving DecidableEq, Repr

namespace Position

def indents (c : Char) : Bool := c == ' ' || c == '\t'

def onLine (line col : Int) (text file : Text) : Position :=
  { line, col, offset := (text.takeWhile indents).length, text, file }

def withCol (p : Position) (col : Int) : Position := { p with col }

def withLine (p : Position) (line : Int) : Position := { p with line }

def coordinates (p : Position) : Text :=
  "(" ++ Text.ofInt p.line ++ "," ++ Text.ofInt p.col ++ ")"

/-- The short form of a position: the name of the file and the coordinates. -/
def render (p : Position) : Text := PathName.base p.file ++ ":" ++ p.coordinates

end Position

end ClassicBasic
