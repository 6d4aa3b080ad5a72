import ClassicBasic.Dialect.Basic

/-!
# Character sets

Characters outside ASCII are typed as look-alikes. Some are stored as the letter whose key produces
them, the others as their place in the upper half of the character set.
-/

set_option autoImplicit false

namespace ClassicBasic.Dialect

/-- Look-alikes stored as the letter that produces them on the keyboard. -/
def keyboardLetters : Dialect → List (Char × Char)
  | .msx =>
    [('☺', 'A'), ('☻', 'B'), ('♥', 'C'), ('♦', 'D'), ('♣', 'E'), ('♠', 'F'), ('·', 'G'),
      ('◘', 'H'), ('○', 'I'), ('◙', 'J'), ('♂', 'K'), ('♀', 'L'), ('♪', 'M'), ('♬', 'N'),
      ('☼', 'O'), ('┿', 'P'), ('┴', 'Q'), ('┬', 'R'), ('┤', 'S'), ('├', 'T'), ('┼', 'U'),
      ('│', 'V'), ('─', 'W'), ('┌', 'X'), ('┐', 'Y'), ('└', 'Z'), ('┘', '['), ('╳', ']'),
      ('╱', '\\'), ('╲', '^'), ('╂', '_')]
  | .coco => []

/-- The upper half of the character set, in order. -/
def upperHalf : Dialect → Text
  | .msx =>
    "ÇüéâäàåçêëèïîìÄÅÉæÆôöòûùÿÖÜ¢£¥₧ƒáíóúñÑªº¿⌐¬½¼¡«»ÃãĨĩÕõŨũĲĳ¾∽◇‰¶§" ++
    "▂▚▆▔◾▇▎▞▊▕▉▨▧▼▲▶◀⧗⧓▘▗▝▖▒Δǂω█▄▌▐▀αβΓπΣσμτΦθΩδ∞φ∈∩≡±≥≤⌠⌡÷≈°∙‐√ⁿ²❚■"
  | .coco => "█▛▜▀▙▌▚▘▟▞▐▝▄▖▗"

def upperHalfStart : Nat := 0x80

/-- The character of the target that a character of the source is stored as. -/
def translateChar (d : Dialect) (c : Char) : Char :=
  let typed := (d.keyboardLetters.lookup c).getD c
  match d.upperHalf.idxOf? typed with
  | some i => Char.ofNat (upperHalfStart + i)
  | none => typed

def translate (d : Dialect) (t : Text) : Text := t.map d.translateChar

end ClassicBasic.Dialect
