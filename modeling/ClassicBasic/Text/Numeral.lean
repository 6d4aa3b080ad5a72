import ClassicBasic.Text.Case
import ClassicBasic.Text.Quoted

/-!
# Numerals and truth words

Integers are words of 64 bits. A numeral is either not a numeral at all or names a number outside
the range of a word; the two faults are told apart.
-/

set_option autoImplicit false

namespace ClassicBasic

namespace Word

/-- How many values a word of 64 bits has. -/
def size : Nat := 18446744073709551616

/-- How many of them are not negative when the word has a sign. -/
def half : Nat := 9223372036854775808

end Word

/-- The integer in the range of a signed word that agrees with `n` modulo the number of words. -/
def wrap (n : Int) : Int := n.bmod Word.size

namespace Text

inductive NumeralFault
  | malformed
  | outOfRange
  deriving DecidableEq, Repr

def NumeralFault.message : NumeralFault → Text
  | .malformed => "invalid syntax"
  | .outOfRange => "value out of range"

/-- The value of a digit below 36, letters counting from ten in either case. -/
def digitValue (c : Char) : Option Nat :=
  if c.isDigit then some (c.toNat - '0'.toNat)
  else if 'a' ≤ c.toLower ∧ c.toLower ≤ 'z' then some (c.toLower.toNat - 'a'.toNat + 10)
  else none

/-- The number that digits in `base` denote after `n`. Reading stops at the first character that is
no digit there and at the first digit that takes the number past an unsigned 64-bit word. -/
def natInBase (base : Nat) : Nat → Text → Except NumeralFault Nat
  | n, [] => .ok n
  | n, c :: digits =>
    match digitValue c with
    | none => .error .malformed
    | some d =>
      if base ≤ d then .error .malformed
      else if Word.size ≤ n * base + d then .error .outOfRange
      else natInBase base (n * base + d) digits

def splitSign : Text → Bool × Text
  | '-' :: t => (true, t)
  | '+' :: t => (false, t)
  | t => (false, t)

/-- The signed number, when a 64-bit word holds it. -/
def signedWord (negative : Bool) (n : Nat) : Except NumeralFault Int :=
  if negative then
    if n ≤ Word.half then .ok (-(n : Int)) else .error .outOfRange
  else
    if n < Word.half then .ok n else .error .outOfRange

def readInt (t : Text) : Except NumeralFault Int :=
  let (negative, digits) := splitSign t
  if digits = [] then .error .malformed
  else natInBase 10 0 digits >>= signedWord negative

/-- The base that a numeral announces by a leading zero, the text of the announcement, and the
digits after it. A leading zero alone announces octal. -/
def announcedBase (t : Text) : Nat × Text × Text :=
  match t with
  | '0' :: c :: rest =>
    match c.toLower with
    | 'x' => (16, ['0', c], rest)
    | 'o' => (8, ['0', c], rest)
    | 'b' => (2, ['0', c], rest)
    | _ => (8, ['0'], c :: rest)
  | _ => (10, [], t)

/-- Whether every underscore stands between two digits, or between an announced base and a
digit. `afterDigit` says that one may stand here. -/
def underscoresOk (afterDigit : Bool) : Text → Bool
  | [] => true
  | '_' :: rest =>
    afterDigit &&
      match rest with
      | [] => false
      | c :: _ => c != '_' && underscoresOk false rest
  | _ :: rest => underscoresOk true rest

/-- Reads an optionally signed integer in the base it announces, with underscores allowed between
digits. -/
def readAnyInt (t : Text) : Except NumeralFault Int :=
  let (negative, numeral) := splitSign t
  let (base, announced, digits) := announcedBase numeral
  let plain := digits.filter (· != '_')
  if plain = [] then .error .malformed
  else
    natInBase base 0 plain >>= fun n =>
      if underscoresOk (announced != []) digits then signedWord negative n
      else .error .malformed

def readBool (t : Text) : Option Bool :=
  if ["1", "t", "T", "true", "TRUE", "True"].any (fun w => w.toList == t) then some true
  else if ["0", "f", "F", "false", "FALSE", "False"].any (fun w => w.toList == t) then some false
  else none

/-- A number in the range of a word is not changed by wrapping. -/
theorem wrap_of_range {n : Int} (lo : -(Word.half : Int) ≤ n) (hi : n < Word.half) :
    wrap n = n := by
  unfold wrap Word.size
  unfold Word.half at lo hi
  rw [Int.bmod_eq_of_le] <;> omega

end Text

end ClassicBasic
