import ClassicBasic.Text.Basic

/-!
# White space

The code points with the property White_Space. Lines are trimmed by this class, while the lexer
knows only the ASCII blanks inside a line.
-/

set_option autoImplicit false

namespace ClassicBasic.Text

def blankRanges : List (Nat × Nat) :=
  [(0x9, 0xD), (0x20, 0x20), (0x85, 0x85), (0xA0, 0xA0), (0x1680, 0x1680), (0x2000, 0x200A),
    (0x2028, 0x2029), (0x202F, 0x202F), (0x205F, 0x205F), (0x3000, 0x3000)]

def isBlank (c : Char) : Bool := inRanges blankRanges c

def trimBlankEnd (t : Text) : Text := trimEnd isBlank t

def trimBlank (t : Text) : Text := trimBoth isBlank t

/-- The maximal runs of characters that are not white space. -/
def fields (t : Text) : List Text :=
  (t.splitBy fun a b => isBlank a == isBlank b).filter fun run => !run.all isBlank

end ClassicBasic.Text
