import ClassicBasic.Text.Case

/-!
# Encodings of files

A file is a list of octets. Latin-1 gives each octet the character of the same number. UTF-8 reads
each maximal start of a malformed sequence as one replacement character, and octets that are only
shown have a replacement for each octet of it.
-/

set_option autoImplicit false

namespace ClassicBasic

abbrev Octets := List UInt8

inductive Encoding
  | latin1
  | utf8
  deriving DecidableEq, Repr

namespace Encoding

/-- The encoding that a setting names; no name means Latin-1. -/
def ofName? (name : Text) : Option Encoding :=
  let key := Text.lower name
  if ["", "latin1", "iso-8859-1"].any (fun w => w.toList == key) then some .latin1
  else if ["utf-8", "utf8"].any (fun w => w.toList == key) then some .utf8
  else none

def replacement : Char := Char.ofNat 0xFFFD

def continuation? (lo hi : Nat) (b : UInt8) : Option Nat :=
  if lo ≤ b.toNat ∧ b.toNat ≤ hi then some (b.toNat % 64) else none

/-- What the first octet of a character says: its payload, how many octets follow, and the range
allowed for the second. -/
def lead? (b : UInt8) : Option (Nat × Nat × Nat × Nat) :=
  let n := b.toNat
  if n < 0x80 then some (n, 0, 0, 0)
  else if n < 0xC2 then none
  else if n < 0xE0 then some (n % 32, 1, 0x80, 0xBF)
  else if n = 0xE0 then some (0, 2, 0xA0, 0xBF)
  else if n = 0xED then some (0xD, 2, 0x80, 0x9F)
  else if n < 0xF0 then some (n % 16, 2, 0x80, 0xBF)
  else if n = 0xF0 then some (0, 3, 0x90, 0xBF)
  else if n < 0xF4 then some (n % 8, 3, 0x80, 0xBF)
  else if n = 0xF4 then some (4, 3, 0x80, 0x8F)
  else none

/-- Where a reader of UTF-8 stands: between characters, or behind `begun` octets of a character with
payload `sofar`, owing `owed` more, the next of them between `lo` and `hi`. -/
inductive Utf8State
  | between
  | inside (sofar begun owed lo hi : Nat)
  deriving DecidableEq, Repr

/-- How a character reads that is begun and not finished: as one replacement, or as one for each of
its octets. -/
inductive Repair
  | once
  | perOctet
  deriving DecidableEq, Repr

/-- The replacement of a character of which `begun` octets are there. -/
def Repair.text : Repair → Nat → Text
  | .once, _ => [replacement]
  | .perOctet, begun => List.replicate begun replacement

/-- The character read from one octet between characters, and the state after it. -/
def utf8Start (b : UInt8) : Text × Utf8State :=
  match lead? b with
  | none => ([replacement], .between)
  | some (n, 0, _, _) => ([Char.ofNat n], .between)
  | some (n, owed, lo, hi) => ([], .inside n 1 owed lo hi)

/-- The characters finished by one octet, and the state after it. -/
def utf8Step (r : Repair) : Utf8State → UInt8 → Text × Utf8State
  | .between, b => utf8Start b
  | .inside sofar begun owed lo hi, b =>
    match continuation? lo hi b with
    | some d =>
      if owed = 1 then ([Char.ofNat (sofar * 64 + d)], .between)
      else ([], .inside (sofar * 64 + d) (begun + 1) (owed - 1) 0x80 0xBF)
    | none => (r.text begun ++ (utf8Start b).1, (utf8Start b).2)

def utf8Read (r : Repair) : Utf8State → Octets → Text
  | .between, [] => []
  | .inside _ begun _ _ _, [] => r.text begun
  | s, b :: rest => (utf8Step r s b).1 ++ utf8Read r (utf8Step r s b).2 rest

def decode : Encoding → Octets → Text
  | .latin1, bytes => bytes.map fun b => Char.ofNat b.toNat
  | .utf8, bytes => utf8Read .once .between bytes

/-- The text that octets show when nobody has checked them: each octet that is no part of a
character shows as a replacement of its own. -/
def shown (bytes : Octets) : Text := utf8Read .perOctet .between bytes

/-- The octets of one character, if the encoding has it. -/
def encodeChar? : Encoding → Char → Option Octets
  | .latin1, c => if c.toNat ≤ 0xFF then some [UInt8.ofNat c.toNat] else none
  | .utf8, c => some (String.utf8EncodeChar c)

/-- The octets of a text, if the encoding has all its characters. -/
def encode? (e : Encoding) (t : Text) : Option Octets := (t.mapM e.encodeChar?).map List.flatten

/-- The octets of a text in UTF-8. -/
def utf8Octets (t : Text) : Octets := t.flatMap String.utf8EncodeChar

/-- The text in which each character stands for one octet of the same number. -/
def octetText (bytes : Octets) : Text := decode .latin1 bytes

end Encoding

end ClassicBasic
