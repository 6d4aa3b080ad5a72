import ClassicBasic.Text.Encoding
import ClassicBasic.Text.Numeral

/-!
# What scripts say

Escapes and formats in the words of the commands that write them out. A format is gone over as long
as values are left. A directive in it says how a value is written: as octets or as a number, in a
field of some width.
-/

set_option autoImplicit false

namespace ClassicBasic.Format

/-- The value of up to `n` digits in `base` behind `value`, and what follows them. -/
def digits (base n value : Nat) : Text → Nat × Text
  | [] => (value, [])
  | c :: rest =>
    match n, Text.digitValue c with
    | m + 1, some d =>
      if d < base then digits base m (value * base + d) rest else (value, c :: rest)
    | _, _ => (value, c :: rest)

/-- The number of the character that a letter behind a backslash stands for. -/
def control? (c : Char) : Option UInt8 :=
  match c with
  | 'a' => some 7
  | 'b' => some 8
  | 't' => some 9
  | 'n' => some 10
  | 'v' => some 11
  | 'f' => some 12
  | 'r' => some 13
  | 'e' => some 27
  | '\\' => some 92
  | _ => none

def isOctal (c : Char) : Bool := '0' ≤ c && c ≤ '7'

/-- What an escape stands for, read behind its backslash, and what follows it. A backslash in front
of any other character stands for itself. -/
def escape : Text → Octets × Text
  | [] => ([92], [])
  | c :: rest =>
    if isOctal c then
      let found := digits 8 3 0 (c :: rest)
      ([UInt8.ofNat found.1], found.2)
    else
      match control? c with
      | some b => ([b], rest)
      | none => ([92], c :: rest)

/-- The same in a word to be said, where three octal digits may follow a zero. Nothing is said
behind `c`. -/
def wordEscape? : Text → Option (Octets × Text)
  | 'c' :: _ => none
  | '0' :: rest =>
    let found := digits 8 3 0 rest
    some ([UInt8.ofNat found.1], found.2)
  | t => some (escape t)

/-- The same with up to two hexadecimal digits behind `x`. -/
def longEscape? : Text → Option (Octets × Text)
  | 'x' :: c :: rest =>
    if (Text.digitValue c).any (· < 16) then
      let found := digits 16 2 0 (c :: rest)
      some ([UInt8.ofNat found.1], found.2)
    else some ([92, 120], c :: rest)
  | t => wordEscape? t

/-- Octets to be said, and whether they are the last. -/
structure Saying where
  octets : Octets := []
  last : Bool := false
  deriving DecidableEq, Repr

/-- Replaces the escapes of a text, of which there are at most `fuel`. -/
def unescapeFrom (read : Text → Option (Octets × Text)) : Nat → Text → Saying
  | 0, _ => {}
  | _ + 1, [] => {}
  | fuel + 1, c :: rest =>
    match if c = '\\' then read rest else some (Encoding.utf8Octets [c], rest) with
    | none => { last := true }
    | some (here, behind) =>
      let more := unescapeFrom read fuel behind
      { more with octets := here ++ more.octets }

def unescape (read : Text → Option (Octets × Text)) (t : Text) : Saying :=
  unescapeFrom read (t.length + 1) t

structure Directive where
  /-- Whether the value stands at the left of its field. -/
  left : Bool := false
  /-- Whether zeros fill the field of a number. -/
  zeros : Bool := false
  /-- What stands in front of a number that is not negative. -/
  sign : Text := []
  /-- Whether a number shows its base. -/
  based : Bool := false
  width : Nat := 0
  /-- The least number of digits, or the greatest number of octets. -/
  precision : Option Nat := none
  deriving DecidableEq, Repr

namespace Directive

def flag (d : Directive) (c : Char) : Directive :=
  match c with
  | '-' => { d with left := true }
  | '0' => { d with zeros := true }
  | '+' => { d with sign := ['+'] }
  | ' ' => { d with sign := if d.sign = [] then [' '] else d.sign }
  | _ => { d with based := true }

/-- The directive with a width; a negative one puts the value at the left. -/
def wide (d : Directive) (n : Int) : Directive :=
  { d with width := n.natAbs, left := d.left || n < 0 }

def place (d : Directive) (octets : Octets) : Octets :=
  let gap := List.replicate (d.width - octets.length) 32
  if d.left then octets ++ gap else gap ++ octets

/-- Octets, cut to the precision, in their field. -/
def octets (d : Directive) (octets : Octets) : Octets :=
  d.place (match d.precision with
    | some n => octets.take n
    | none => octets)

/-- A numeral with `lead` in front of its digits, in its field. -/
def numeral (d : Directive) (lead shown : Text) : Octets :=
  let least :=
    match d.precision with
    | some n => n
    | none => if d.zeros && !d.left then d.width - lead.length else 0
  d.place (Encoding.utf8Octets (lead ++ List.replicate (least - shown.length) '0' ++ shown))

/-- The digits of a number; a precision of zero leaves none of zero itself. -/
def shownDigits (d : Directive) (base n : Nat) : Text :=
  if n = 0 ∧ d.precision = some 0 then [] else Nat.toDigits base n

def signed (d : Directive) (n : Int) : Octets :=
  d.numeral (if n < 0 then ['-'] else d.sign) (d.shownDigits 10 n.natAbs)

/-- A number without a sign, in the base that the letter of the directive names. -/
def unsigned (d : Directive) (letter : Char) (n : Nat) : Octets :=
  match letter with
  | 'o' =>
    let shown := d.shownDigits 8 n
    d.numeral [] (if d.based && shown.head? != some '0' then '0' :: shown else shown)
  | 'x' => d.numeral (if d.based && n != 0 then "0x" else []) (d.shownDigits 16 n)
  | 'X' =>
    d.numeral (if d.based && n != 0 then "0X" else []) ((d.shownDigits 16 n).map Char.toUpper)
  | _ => d.numeral [] (d.shownDigits 10 n)

end Directive

structure Printing where
  /-- The values left. -/
  values : List Text
  /-- What has been said, last piece first. -/
  pieces : List Octets := []
  /-- What is wrong with values, in order. -/
  complaints : List Text := []
  /-- How it has to end at least. -/
  code : Int := 0
  /-- Whether nothing more is said. -/
  stopped : Bool := false
  deriving DecidableEq, Repr

namespace Printing

def say (p : Printing) (octets : Octets) : Printing := { p with pieces := octets :: p.pieces }

def said (p : Printing) : Octets := p.pieces.reverse.flatten

def complain (p : Printing) (complaint : Text) : Printing :=
  { p with complaints := p.complaints ++ [complaint], code := 1 }

def fail (p : Printing) (complaint : Text) : Printing :=
  { p with complaints := p.complaints ++ [complaint], code := 2, stopped := true }

def take (p : Printing) : Option Text × Printing :=
  (p.values.head?, { p with values := p.values.tail })

def isGap (c : Char) : Bool := c == ' ' || (9 ≤ c.toNat && c.toNat ≤ 13)

/-- The number at the start of a text, in the base that it announces, and what follows; without
digits that is all of the text. -/
def leadingNumber (t : Text) : Bool × Nat × Text :=
  let (negative, numeral) := Text.splitSign (t.dropWhile isGap)
  let hexadecimal :=
    match numeral with
    | '0' :: x :: c :: _ => x.toLower == 'x' && (Text.digitValue c).any (· < 16)
    | _ => false
  let base := if hexadecimal then 16 else if numeral.head? = some '0' then 8 else 10
  let numerals := if hexadecimal then numeral.drop 2 else numeral
  let (n, rest) := digits base numerals.length 0 numerals
  (negative, n, if rest.length = numeral.length then t else rest)

/-- The next value as a number in the range of a word with or without a sign. A value that starts
with a quote is the number of the octet behind it, and no value is zero. -/
def takeNumber (p : Printing) (signed : Bool) : Int × Printing :=
  match p.values with
  | [] => (0, p)
  | value :: values =>
    let p := { p with values }
    match value with
    | c :: rest =>
      if c = '"' ∨ c.toNat = 39 then
        (((Encoding.utf8Octets rest).head?.map (·.toNat)).getD 0, p)
      else
        let (negative, n, behind) := leadingNumber value
        let lowest : Int := if signed then -(Word.half : Int) else 1 - Word.size
        let highest : Int := if signed then Word.half - 1 else Word.size - 1
        let exact : Int := if negative then -(n : Int) else n
        let inRange := lowest ≤ exact ∧ exact ≤ highest
        let read := if signed then max lowest (min exact highest)
          else if inRange then exact % Word.size else highest
        (read,
          if behind = value then p.complain (value ++ ": expected numeric value")
          else if behind ≠ [] then p.complain (value ++ ": not completely converted")
          else if inRange then p
          else p.complain (value ++ ": Numerical result out of range"))
    | [] => (0, p)

/-- The number at the start of a format, or the next value for a star, and what follows. -/
def measure (p : Printing) (t : Text) : Option Int × Printing × Text :=
  match t with
  | '*' :: rest =>
    let (n, p) := p.takeNumber true
    (some n, p, rest)
  | _ =>
    let (n, rest) := digits 10 t.length 0 t
    (if rest.length = t.length then none else some n, p, rest)

/-- Writes a value as the letter of a directive says; `written` is the directive as it stands. -/
def convert (p : Printing) (d : Directive) (letter : Char) (written : Text) : Printing :=
  match letter with
  | 's' =>
    let (value, p) := p.take
    p.say (d.octets (Encoding.utf8Octets (value.getD [])))
  | 'b' =>
    let (value, p) := p.take
    let saying := unescape wordEscape? (value.getD [])
    { p.say (d.octets saying.octets) with stopped := saying.last }
  | 'c' =>
    let (value, p) := p.take
    p.say (d.place [((Encoding.utf8Octets (value.getD [])).head?).getD 0])
  | _ =>
    if letter = 'd' ∨ letter = 'i' then
      let (n, p) := p.takeNumber true
      p.say (d.signed n)
    else if ['o', 'u', 'x', 'X'].contains letter then
      let (n, p) := p.takeNumber false
      p.say (d.unsigned letter n.toNat)
    else p.fail (written ++ ": invalid directive")

/-- Carries out the directive behind a percent sign, and tells what follows it. -/
def direct (p : Printing) (t : Text) : Printing × Text :=
  let flags := t.takeWhile fun c => "#-+ 0".toList.contains c
  let d := flags.foldl Directive.flag {}
  let (width, p, behind) := p.measure (t.drop flags.length)
  let d := d.wide (width.getD 0)
  let (d, p, behind) :=
    match behind with
    | '.' :: rest =>
      let (precision, p, behind) := p.measure rest
      let n := precision.getD 0
      ({ d with precision := if n < 0 then none else some n.toNat }, p, behind)
    | _ => (d, p, behind)
  match behind with
  | [] => (p.fail "missing format character", [])
  | letter :: rest =>
    (p.convert d letter ('%' :: t.take (t.length - rest.length)), rest)

def pass : Nat → Text → Printing → Printing
  | 0, _, p => p
  | _ + 1, [], p => p
  | fuel + 1, '%' :: '%' :: rest, p => pass fuel rest (p.say [37])
  | fuel + 1, '%' :: rest, p =>
    let (p, behind) := p.direct rest
    if p.stopped then p else pass fuel behind p
  | fuel + 1, '\\' :: rest, p => pass fuel (escape rest).2 (p.say (escape rest).1)
  | fuel + 1, c :: rest, p => pass fuel rest (p.say (Encoding.utf8Octets [c]))

/-- Goes over a format again while it takes values and some are left. -/
def passes (pattern : Text) : Nat → Printing → Printing
  | 0, p => p
  | fuel + 1, p =>
    let done := pass (pattern.length + 1) pattern p
    if done.stopped ∨ done.values = [] ∨ done.values.length = p.values.length then done
    else passes pattern fuel done

end Printing

def render (pattern : Text) (values : List Text) : Printing :=
  Printing.passes pattern (values.length + 1) { values }

end ClassicBasic.Format
