import ClassicBasic.Diagnostic
import ClassicBasic.Text.Blank

/-!
# The log of a conversion

Records are collected in order and printed afterwards: a verbosity decides which of them show. The
bullet in front of a line tells its severity.
-/

set_option autoImplicit false

namespace ClassicBasic

namespace Severity

def error : Int := 8

/-- Advice; the conversion goes on. -/
def warning : Int := 4

def step : Int := 0

def detail : Int := -2

def item : Int := -4

def bullet (severity : Int) : Text :=
  if error ≤ severity then "*** "
  else if severity = warning then "  * "
  else if severity = step then "--- "
  else if severity = detail then "  - "
  else "    "

def threshold (verbosity : Int) : Int :=
  if verbosity ≤ 1 then error
  else if verbosity = 2 then warning
  else if verbosity = 3 then step
  else if verbosity = 4 then detail
  else item

/-- Whether records of a severity show at a verbosity; nothing shows when it is not positive. -/
def shows (verbosity severity : Int) : Bool := 0 < verbosity && threshold verbosity ≤ severity

end Severity

structure Record where
  severity : Int
  message : Text
  pos : Option Position := none
  /-- Names with values, shown behind the message. -/
  notes : List (Text × Text) := []
  deriving DecidableEq, Repr

namespace Record

def step (message : Text) : Record := { severity := Severity.step, message }

def detail (message : Text) : Record := { severity := Severity.detail, message }

def item (message : Text) : Record := { severity := Severity.item, message }

def warning (pos : Position) (cause : Cause) : Record :=
  { severity := Severity.warning, message := cause.message, pos := some pos }

/-- The place in front of a message; errors also name the file. -/
def place (severity : Int) (pos : Position) : Text :=
  (if Severity.error ≤ severity then PathName.base pos.file ++ ": " else []) ++
    pos.coordinates ++ ": "

/-- A name with its value, as it stands behind a message. -/
def note (n : Text × Text) : Text := " " ++ n.1 ++ "=" ++ n.2

def render (r : Record) : Text :=
  Severity.bullet r.severity ++
    (match r.pos with | some pos => place r.severity pos | none => []) ++
    r.message ++ r.notes.flatMap note ++ "\n"

/-- The line of a record, if it shows at the verbosity. -/
def shown (verbosity : Int) (r : Record) : Text :=
  if Severity.shows verbosity r.severity then r.render else []

/-- The mark under the column of a position, below its line without indentation. -/
def caret (pos : Position) : Text :=
  List.replicate (pos.col - pos.offset - 1).toNat '-' ++ "^"

/-- The record of a failure: with a place, its line and a mark under its column follow. -/
def stopped (reason : Text) (pos : Option Position) : Record :=
  { severity := Severity.error
    message :=
      reason ++
        (match pos with
          | some pos => "\n    " ++ Text.trimBlank pos.text ++ "\n    " ++ caret pos
          | none => []) ++
        "\n    Conversion stopped."
    pos }

/-- The record that closes the log of a failed conversion. -/
def ofFailure (f : Failure) : Record := stopped f.reason f.position?

end Record

/-- The verbosity for the parts of a program that should report errors only. -/
def quietVerbosity (verbosity : Int) : Int := min verbosity 1

def printed (verbosity : Int) (records : List Record) : Text :=
  records.flatMap (Record.shown verbosity)

end ClassicBasic
