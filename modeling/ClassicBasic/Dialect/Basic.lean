import ClassicBasic.Text.Quoted
import ClassicBasic.Text.Numeral

/-!
# The classic BASICs

Each dialect has its names, file extensions and vocabulary; the syntax that programs are written in
is shared.
-/

set_option autoImplicit false

namespace ClassicBasic

inductive Dialect
  | msx
  | coco
  deriving DecidableEq, Repr

namespace Dialect

def id : Dialect → Text
  | .msx => "msx"
  | .coco => "coco"

def name : Dialect → Text
  | .msx => "MSX"
  | .coco => "Tandy Color Computer"

def all : List Dialect := [.coco, .msx]

def ofId? (id : Text) : Option Dialect := all.find? (·.id == id)

def unknownMessage (id : Text) : Text :=
  "unknown system id: " ++ Text.quoted id ++ " (available: [" ++
    Text.joinWith " ".toList (all.map Dialect.id) ++ "])"

def dignifiedExt : Dialect → Text
  | .msx => ".dmx"
  | .coco => ".DCC"

def asciiExt : Dialect → Text
  | .msx => ".amx"
  | .coco => ".ACC"

def binaryExt : Dialect → Text
  | .msx => ".bmx"
  | .coco => ".BCC"

def forcesCapitals : Dialect → Bool
  | .msx => false
  | .coco => true

/-- Whether an underscore in front of a name calls an extension statement. -/
def callsByUnderscore : Dialect → Bool
  | .msx => true
  | .coco => false

def maxLineLength : Nat := 256

/-- How many characters of a variable name the interpreter tells apart. -/
def nameLength : Nat := 2

def slotCount : Nat := 676

def letters : Text := "abcdefghijklmnopqrstuvwxyz"

/-- The short name of a slot: its two digits to the base of the letters. -/
def shortName? (slot : Nat) : Option Text := do
  let first ← letters[slot / 26]?
  let second ← letters[slot % 26]?
  return [first, second]

def lineBreak : Text := "\r\n"

end Dialect

end ClassicBasic
