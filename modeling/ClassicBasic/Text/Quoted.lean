import ClassicBasic.Text.Printable

/-!
# Quoted texts

A text between double quotes in which every character either prints as itself or is written as an
escape, so that the quoted form is one line and shows what it holds.
-/

set_option autoImplicit false

namespace ClassicBasic.Text

/-- `n` in lower case hexadecimal with at least `width` digits. -/
def hex (width n : Nat) : Text :=
  let digits := Nat.toDigits 16 n
  List.replicate (width - digits.length) '0' ++ digits

/-- The name of a control character that has an escape of its own. -/
def controlName (c : Char) : Option Char :=
  match c.toNat with
  | 0x07 => some 'a'
  | 0x08 => some 'b'
  | 0x0C => some 'f'
  | 0x0A => some 'n'
  | 0x0D => some 'r'
  | 0x09 => some 't'
  | 0x0B => some 'v'
  | _ => none

def escape (c : Char) : Text :=
  if c = '"' ∨ c = '\\' then ['\\', c]
  else if isPrintable c then [c]
  else
    match controlName c with
    | some name => ['\\', name]
    | none =>
      let n := c.toNat
      if n < 0x20 ∨ n = 0x7F then '\\' :: 'x' :: hex 2 n
      else if n < 0x10000 then '\\' :: 'u' :: hex 4 n
      else '\\' :: 'U' :: hex 8 n

def quoted (t : Text) : Text := '"' :: t.flatMap escape ++ ['"']

end ClassicBasic.Text
