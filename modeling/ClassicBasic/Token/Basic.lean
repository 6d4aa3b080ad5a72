import ClassicBasic.Text.Quoted
import ClassicBasic.Token.Kind
import ClassicBasic.Token.Position

/-!
# Tokens

A token is a kind, the text it stands for and the place it came from. A variable is known by its
name without the type sigil, in small letters, together with the file it was written in.
-/

set_option autoImplicit false

namespace ClassicBasic

structure Token where
  kind : Kind := .illegal
  value : Text := []
  pos : Position := {}
  deriving DecidableEq, Repr

namespace Token

def isSigil (c : Char) : Bool := c == '%' || c == '!' || c == '#' || c == '$'

def upper (t : Token) : Text := Text.upper t.value

def lower (t : Token) : Text := Text.lower t.value

def is (t : Token) (word : Text) : Bool := Text.sameLetters t.value word

def bareName (t : Token) : Text := Text.trimEnd isSigil t.value

def varName (t : Token) : Text := Text.lower t.bareName

def sigil (t : Token) : Text := t.value.drop t.bareName.length

/-- The name of a variable bound to its file, which keeps equal names of different files apart. -/
def qualified (t : Token) : Text := t.varName ++ "@" ++ t.pos.file

def movedTo (t : Token) (pos : Position) : Token := { t with pos }

def withKind (t : Token) (kind : Kind) : Token := { t with kind }

def withValue (t : Token) (value : Text) : Token := { t with value }

def hasKind (t : Token) (k : Kind) : Bool := t.kind == k

/-- A line of a token report: the label of a kind, the quoted value and the place in columns. -/
def describeAs (label value : Text) (pos : Position) : Text :=
  Text.padTo 14 label ++ " " ++ Text.padTo 16 (Text.quoted value) ++ " " ++ pos.render

def describe (t : Token) : Text := describeAs t.kind.name t.value t.pos

def sameValues (s t : List Token) : Bool := s.map value == t.map value

end Token

end ClassicBasic
