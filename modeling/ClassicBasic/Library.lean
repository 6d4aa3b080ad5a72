import ClassicBasic.Listing
import ClassicBasic.Text.Encoding

/-!
# Reading and writing files of lines

What can go wrong between a listing and the bytes of a file. Both directions are functions of the
bytes; who holds the files decides which of them exist.
-/

set_option autoImplicit false

namespace ClassicBasic

inductive LoadError
  | noName
  | notFound (path : Text)
  | unreadable (path reason : Text)
  | unsupported (encoding : Text)
  deriving DecidableEq, Repr

namespace LoadError

def message : LoadError → Text
  | .noName => "file name not given"
  | .notFound path => "file not found: " ++ path
  | .unreadable path reason => "read " ++ path ++ ": " ++ reason
  | .unsupported encoding => "unsupported encoding: " ++ encoding

/-- Whether the file does not exist, so that another place may be tried. -/
def isNotFound : LoadError → Bool
  | .notFound _ => true
  | _ => false

end LoadError

inductive SaveError
  | unsupported (encoding : Text)
  | unencodable (line : Text)
  | unwritable (path reason : Text)
  deriving DecidableEq, Repr

def SaveError.message : SaveError → Text
  | .unsupported encoding => "unsupported encoding: " ++ encoding
  | .unencodable line =>
    "saving encode error: encoding: rune not supported by encoding.\n    " ++ line
  | .unwritable path reason => "save folder not found: " ++ path ++ ": " ++ reason

namespace Listing

def ofOctets (path encoding : Text) (tab : Int) (bytes : Octets) : Except LoadError Listing :=
  match Encoding.ofName? encoding with
  | none => .error (.unsupported encoding)
  | some e => .ok (ofText (e.decode bytes) path tab)

/-- The bytes of encoded lines, each followed by the bytes of `newline`. The first line that the
encoding cannot represent is the error. -/
def encodeLines (e : Encoding) (newline : Octets) : List Text → Except SaveError Octets
  | [] => .ok []
  | line :: rest =>
    match e.encode? line with
    | none => .error (.unencodable line)
    | some bytes => (encodeLines e newline rest).map fun tail => bytes ++ newline ++ tail

/-- The bytes of a file that holds `lines` in the named encoding. -/
def toOctets (lines : List Text) (encoding newline : Text) : Except SaveError Octets :=
  match Encoding.ofName? encoding with
  | none => .error (.unsupported encoding)
  | some e => encodeLines e (Encoding.utf8Octets newline) lines

end Listing

structure Shelf where
  /-- The listing of the file at a path, or why there is none. -/
  load : Text → Except LoadError Listing
  /-- How many files there are at most. -/
  size : Nat

namespace Shelf

/-- A shelf with the given files, found by exactly their paths. -/
def ofEntries (entries : List (Text × Except LoadError Listing)) : Shelf :=
  { load := fun path => (entries.lookup path).getD (.error (.notFound path))
    size := entries.length }

end Shelf

end ClassicBasic
