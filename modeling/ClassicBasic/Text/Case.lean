import ClassicBasic.Text.Basic
import ClassicBasic.Text.CaseTable

/-!
# Letter case

Simple case maps: every character goes to one character. Two texts are the same up to case when
their characters fold alike; folding identifies a letter with all its variants, such as the long s
with s and the Kelvin sign with k.
-/

set_option autoImplicit false

namespace ClassicBasic.Text

/-- The code point `n` moved by the first range that covers it. -/
def shiftBy (ranges : List CaseRange) (c : Char) : Option Char :=
  (ranges.find? (·.covers c.toNat)).map fun r => Char.ofNat ((c.toNat : Int) + r.shift).toNat

def upperChar (c : Char) : Char :=
  if c.toNat < 0x80 then c.toUpper else (shiftBy upperRanges c).getD c

def lowerChar (c : Char) : Char :=
  if c.toNat < 0x80 then c.toLower else (shiftBy lowerRanges c).getD c

/-- The common representative of all case variants of a character. -/
def foldChar (c : Char) : Char :=
  if c.toNat < 0x80 then c.toLower else (shiftBy foldRanges c).getD (lowerChar c)

def upper (t : Text) : Text := t.map upperChar

def lower (t : Text) : Text := t.map lowerChar

/-- `t` with every character replaced by its representative. -/
def fold (t : Text) : Text := t.map foldChar

def sameLetters : Text → Text → Bool
  | [], [] => true
  | a :: s, b :: t => foldChar a == foldChar b && sameLetters s t
  | _, _ => false

theorem sameLetters_eq (s t : Text) : sameLetters s t = (fold s == fold t) := by
  induction s generalizing t with
  | nil => cases t <;> rfl
  | cons a s ih => cases t <;> simp_all [sameLetters, fold]

@[simp]
theorem length_upper (t : Text) : (upper t).length = t.length := by simp [upper]

@[simp]
theorem sameLetters_self (t : Text) : sameLetters t t = true := by simp [sameLetters_eq]

end ClassicBasic.Text
