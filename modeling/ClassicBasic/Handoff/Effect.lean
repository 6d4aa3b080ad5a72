import ClassicBasic.Files
import ClassicBasic.Handoff.Script

/-!
# What a command does

A command is a function of the files and of what it reads: it may change the files, says something
on its streams and ends with a code. What it says is kept in order, with the stream it is said on.
-/

set_option autoImplicit false

namespace ClassicBasic.Shell

open Script (Stream)

structure Effect where
  files : Files
  spoken : List (Stream × Octets) := []
  code : Int := 0
  /-- Whether the script ends with the command. -/
  final : Bool := false
  deriving DecidableEq, Repr

def say (files : Files) (octets : Octets) : Effect := { files, spoken := [(.output, octets)] }

def complaintLine (complaint : Text) : Stream × Octets :=
  (.errors, Encoding.utf8Octets (complaint ++ "\n"))

def complain (files : Files) (complaint : Text) (code : Int) : Effect :=
  { files, spoken := [complaintLine complaint], code }

def operands (words : List Text) : List Text :=
  words.filter fun w => !(['-'].isPrefixOf w && w != ['-'])

def unusable (name : Text) (e : Files.Trouble) : Text :=
  name ++ ": " ++
    match e with
    | .missing => "No such file or directory"
    | .notFolder => "Not a directory"
    | .isFolder => "Is a directory"
    | .notEmpty => "Directory not empty"

def inQuotes (name : Text) : Text := Char.ofNat 39 :: name ++ [Char.ofNat 39]

def nowhere : Text := "/dev/null"

def zeros : Text := "/dev/zero"

def contents (files : Files) (path : Text) : Except Files.Trouble Octets :=
  if path = nowhere then .ok [] else files.read path

end ClassicBasic.Shell
