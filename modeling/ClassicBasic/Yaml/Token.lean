import ClassicBasic.Text.Basic

/-!
# Tokens of a settings file

What a file is made of: the marks around documents, collections and their parts, and texts. Marks
that a file has only by its indentation are tokens too. A place counts characters, lines and columns
from zero.
-/

set_option autoImplicit false

namespace ClassicBasic.Yaml

inductive Token
  | streamEnd
  | directive
  | documentStart
  | documentEnd
  /-- The start of a list by indentation. -/
  | itemsStart
  /-- The start of a mapping by indentation. -/
  | entriesStart
  /-- The end of a collection by indentation. -/
  | blockEnd
  | bracketOpen
  | bracketClose
  | braceOpen
  | braceClose
  | comma
  | dash
  | key
  | value
  | alias (name : Text)
  | anchor (name : Text)
  | tag (name : Text)
  | scalar (quoted : Bool) (text : Text)
  deriving DecidableEq, Repr

structure Place where
  index : Nat := 0
  line : Nat := 0
  col : Nat := 0
  deriving DecidableEq, Repr

namespace Place

def ahead (p : Place) (n : Nat) : Place := { p with index := p.index + n, col := p.col + n }

def nextLine (p : Place) : Place := { index := p.index + 1, line := p.line + 1, col := 0 }

end Place

def isBlank (c : Char) : Bool := c == ' ' || c == '\t'

/-- Whether `c` ends a line: the line feed and the separators of lines and paragraphs. -/
def isBreak (c : Char) : Bool := c == '\n' || c.toNat == 0x2028 || c.toNat == 0x2029

def endsWord : Text → Bool
  | [] => true
  | c :: _ => isBlank c || isBreak c

def isMarker (t : Text) : Bool :=
  (t.take 3 == "---".toList || t.take 3 == "...".toList) && endsWord (t.drop 3)

def apostrophe : Char := Char.ofNat 39

/-- Every line end but the two separators as a line feed. -/
def unifyEnds : Text → Text
  | [] => []
  | '\r' :: '\n' :: rest => '\n' :: unifyEnds rest
  | c :: rest => (if c = '\r' ∨ c.toNat = 0x85 then '\n' else c) :: unifyEnds rest

def isAllowed (c : Char) : Bool :=
  let n := c.toNat
  c == '\t' || c == '\n' || c == '\r' || (0x20 ≤ n && n ≤ 0x7E) || n == 0x85 ||
    (0xA0 ≤ n && n ≤ 0xFFFD) || 0x10000 ≤ n

def skipMark : Text → Text
  | [] => []
  | c :: rest => if c.toNat = 0xFEFF then rest else c :: rest

end ClassicBasic.Yaml
