import ClassicBasic.Text.Numeral

/-!
# Numerals of a settings file

A numeral stands for an integer that a signed or an unsigned word holds, or for a number with 53
significant bits. Underscores between digits count for nothing.
-/

set_option autoImplicit false

namespace ClassicBasic.Yaml

inductive Number
  /-- An integer that a signed or an unsigned word holds. -/
  | integer (n : Int)
  /-- A number with 53 significant bits. Its whole part is a signed word, or it has none; two to the
  power 63 has the lowest word. -/
  | rounded (whole : Option Int)
  deriving DecidableEq, Repr

structure Decimal where
  negative : Bool
  digits : Nat
  /-- The power of ten that the digits are multiplied by. -/
  exponent : Int
  deriving DecidableEq, Repr

namespace Decimal

def digitsValue (t : Text) : Nat := t.foldl (fun n c => n * 10 + (c.toNat - 48)) 0

/-- Takes a numeral with a fraction or an exponent apart. -/
def ofText? (t : Text) : Option Decimal :=
  let (negative, body) := Text.splitSign t
  let whole := body.takeWhile Char.isDigit
  let afterWhole := body.drop whole.length
  let (fraction, left) := match afterWhole with
    | '.' :: rest => (rest.takeWhile Char.isDigit, rest.dropWhile Char.isDigit)
    | rest => ([], rest)
  let made (exponent : Int) : Option Decimal :=
    some ⟨negative, digitsValue (whole ++ fraction), exponent - fraction.length⟩
  if whole = [] ∧ fraction = [] then none
  else
    match left with
    | [] => made 0
    | e :: rest =>
      let (down, power) := Text.splitSign rest
      if (e = 'e' ∨ e = 'E') ∧ power ≠ [] ∧ power.all Char.isDigit then
        made (if down then -(digitsValue power : Int) else digitsValue power)
      else none

/-- `num / den` rounded to the nearest number with 53 significant bits, a tie to the even one, and
then cut to a whole number. -/
def wholePart (num den : Nat) : Nat :=
  if num < den then (if (den - num) <<< 54 ≤ den then 1 else 0)
  else
    let bits := (num / den).log2
    if bits ≤ 52 then
      let scaled := num <<< (52 - bits)
      let q := scaled / den
      let r := 2 * (scaled % den)
      let rounded := if den < r ∨ (r = den ∧ q % 2 = 1) then q + 1 else q
      rounded >>> (52 - bits)
    else
      let unit := den <<< (bits - 52)
      let q := num / unit
      let r := 2 * (num % unit)
      (if unit < r ∨ (r = unit ∧ q % 2 = 1) then q + 1 else q) <<< (bits - 52)

/-- The signed word of a whole part. Below all words stands the lowest, and two to the power 63 has
it too; what is greater has none. -/
def signedWhole (negative : Bool) (n : Nat) : Option Int :=
  if negative then some (-(min n Word.half : Nat))
  else if n < Word.half then some n
  else if n = Word.half then some (-(n : Int))
  else none

/-- The largest exponent of a numeral that can be of use. -/
def limit : Int := 400

/-- The number nearest to the decimal; a decimal beyond the numbers has none. -/
def number? (d : Decimal) : Option Number :=
  let length : Int := (Nat.toDigits 10 d.digits).length
  if d.digits = 0 ∨ d.exponent + length < -limit then some (.rounded (some 0))
  else if limit < d.exponent + length then none
  else
    let n := if 0 ≤ d.exponent then wholePart (d.digits * Nat.pow 10 d.exponent.toNat) 1
      else wholePart d.digits (Nat.pow 10 (-d.exponent).toNat)
    if 1 <<< 1024 ≤ n then none else some (.rounded (signedWhole d.negative n))

end Decimal

/-- The number with 53 significant bits nearest to an integer. -/
def Number.ofRounding (n : Int) : Number :=
  .rounded (Decimal.signedWhole (n < 0) (Decimal.wholePart n.natAbs 1))

/-- Whether underscores stand between digits only; `digit` tells whether a digit is in front. -/
def underscoresApart (digit : Bool) : Text → Bool
  | [] => true
  | c :: rest =>
    if c = '_' then digit && (rest.head?.any Char.isDigit) && underscoresApart false rest
    else underscoresApart c.isDigit rest

def withoutUnderscores (t : Text) : Text := t.filter (· != '_')

def pointNumber? (t : Text) : Option Number :=
  if underscoresApart false t then (Decimal.ofText? (withoutUnderscores t)).bind Decimal.number?
  else none

/-- The number of a numeral that announces base two or eight and has its sign behind that. -/
def signedBehindBase? : Text → Option Number
  | '0' :: c :: sign :: digits =>
    let base? : Option Nat := if c = 'b' then some 2 else if c = 'o' then some 8 else none
    if (sign = '+' ∨ sign = '-') ∧ digits ≠ [] then
      base?.bind fun base =>
        match Text.natInBase base 0 digits >>= Text.signedWord (sign == '-') with
        | .ok n => some (.integer n)
        | .error _ => none
    else none
  | _ => none

/-- The number of a numeral without a sign that an unsigned word holds. -/
def unsigned? (t : Text) : Option Number :=
  let digits := (Text.announcedBase t).2.2
  match Text.natInBase (Text.announcedBase t).1 0 digits with
  | .ok n => if digits = [] then none else some (.integer n)
  | .error _ => none

/-- The number of a numeral that starts with a digit or a sign. -/
def digitNumber? (t : Text) : Option Number :=
  let plain := withoutUnderscores t
  match Text.readAnyInt plain with
  | .ok n => some (.integer n)
  | .error _ =>
    (unsigned? plain).or <|
      ((Decimal.ofText? plain).bind Decimal.number?).or (signedBehindBase? plain)

end ClassicBasic.Yaml
