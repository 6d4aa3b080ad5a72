import ClassicBasic.Files
import ClassicBasic.Log
import ClassicBasic.Settings.Check

/-!
# The desk that commands work at

A command prints, reads and writes files, and may end early. What it has printed and the files it
has written outlive its end.
-/

set_option autoImplicit false

namespace ClassicBasic

structure Desk where
  files : Files
  /-- What has been printed. -/
  output : Text := []
  deriving DecidableEq, Repr

inductive Halt
  /-- The failure has been printed already. -/
  | reported
  /-- The failure has still to be told. -/
  | refused (message : Text)
  deriving DecidableEq, Repr

abbrev Work (α : Type) := EStateM Halt Desk α

namespace Work

def print (t : Text) : Work Unit := fun d => .ok () { d with output := d.output ++ t }

def say (verbosity : Int) (records : List Record) : Work Unit := print (printed verbosity records)

/-- Prints a failure, if it shows at a verbosity, and ends the command. -/
def fail {α : Type} (verbosity : Int) (reason : Text) (pos : Option Position) : Work α := do
  say verbosity [Record.stopped reason pos]
  throw .reported

def files : Work Files := fun d => .ok d.files d

def setFiles (f : Files) : Work Unit := fun d => .ok () { d with files := f }

/-- The listing of a file, read as the settings say. -/
def load (verbosity : Int) (s : Settings) (path : Text) : Work Listing := do
  match (← files).load s.encoding s.tabLength path with
  | .ok listing => return listing
  | .error e => fail verbosity e.message none

def save (verbosity : Int) (path : Text) (lines : List Text) (encoding newline : Text) :
    Work Unit := do
  match (← files).save path lines encoding newline with
  | .ok written => setFiles written
  | .error e => fail verbosity e.message none

/-- The settings as they are used, if they are valid. -/
def validated (verbosity : Int) (s : Settings) : Work Settings :=
  match s.fault? with
  | some reason => fail verbosity reason none
  | none => return s.normalised

def dialect (verbosity : Int) (s : Settings) : Work Dialect :=
  match Dialect.ofId? s.system with
  | some d => return d
  | none => fail verbosity (Dialect.unknownMessage s.system) none

def absolute (path : Text) : Work Text := do
  return PathName.absolute (← files).home path

end Work

end ClassicBasic
