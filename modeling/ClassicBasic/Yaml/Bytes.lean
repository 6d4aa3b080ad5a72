import ClassicBasic.Text.Encoding

/-!
# The bytes of a settings file

A file is UTF-8, unless one of two marks in front says that it holds units of two bytes. Bytes that
are no text are no settings file.
-/

set_option autoImplicit false

namespace ClassicBasic.Yaml

/-- The unit that two bytes make, the first of them being the high one if `big` holds. -/
def unit (big : Bool) (a b : UInt8) : Nat :=
  if big then a.toNat * 256 + b.toNat else b.toNat * 256 + a.toNat

/-- Whether a unit is the first of a pair that makes one character. -/
def isHigh (n : Nat) : Bool := 0xD800 ≤ n && n < 0xDC00

def isLow (n : Nat) : Bool := 0xDC00 ≤ n && n < 0xE000

/-- The text of units of two bytes, unless a half of a pair stands alone or a byte is missing. -/
def wideText? (big : Bool) : Octets → Option Text
  | [] => some []
  | [_] => none
  | a :: b :: rest =>
    let n := unit big a b
    if isLow n then none
    else if isHigh n then
      match rest with
      | c :: d :: more =>
        let m := unit big c d
        if isLow m then
          (wideText? big more).map fun t =>
            Char.ofNat (0x10000 + (n - 0xD800) * 0x400 + (m - 0xDC00)) :: t
        else none
      | _ => none
    else (wideText? big rest).map fun t => Char.ofNat n :: t

/-- The text of a file in UTF-8, unless its bytes are none. -/
def narrowText? (bytes : Octets) : Option Text :=
  let text := Encoding.utf8.decode bytes
  if Encoding.utf8Octets text = bytes then some text else none

def text? : Octets → Option Text
  | a :: b :: rest =>
    if a = 0xFF ∧ b = 0xFE then wideText? false rest
    else if a = 0xFE ∧ b = 0xFF then wideText? true rest
    else narrowText? (a :: b :: rest)
  | bytes => narrowText? bytes

end ClassicBasic.Yaml
