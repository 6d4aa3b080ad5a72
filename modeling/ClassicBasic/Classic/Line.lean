import ClassicBasic.Classic.Piece
import ClassicBasic.Label
import ClassicBasic.Program.Declare
import ClassicBasic.Text.Digit
import ClassicBasic.Text.Numeral

/-!
# Numbered lines

The lines of a classic listing: a number, greater from line to line, and the code behind it. Line
numbers behind a branch keyword are read as jumps.
-/

set_option autoImplicit false

namespace ClassicBasic

structure NumberedLine where
  number : Int
  pos : Position
  code : List Piece
  deriving DecidableEq, Repr

namespace NumberedLine

/-- What the names of labels made from line numbers start with. -/
def labelStart : Text := "l_"

def label (number : Int) : Text := Label.bracketed (labelStart ++ Text.ofInt number)

/-- How a jump from the line `number` to the line `target` is written. -/
def jumpText (number target : Int) : Text :=
  if target = number then Label.bracketed Label.sameLine else label target

/-- Turns the numbers behind branch keywords of the line `number` into jumps. `branching` tells
whether only numbers and commas stand between such a keyword and the pieces. -/
def markJumps (number : Int) (branching : Bool) : List Piece → List Piece
  | [] => []
  | p :: rest =>
    if p.kind = .jump then p :: markJumps number true rest
    else if branching ∧ p.kind = .number then
      match Text.readInt p.text with
      | .error _ => p :: markJumps number false rest
      | .ok target =>
        { kind := .labelJump, text := jumpText number target, gap := p.gap,
          target := some target } :: markJumps number true rest
    else if branching ∧ p.text = "," then p :: markJumps number true rest
    else p :: markJumps number false rest

/-- Reads a line behind the line `last`; a blank line gives nothing. -/
def read (d : Dialect) (last : Int) (l : Line) : Except Failure (Option NumberedLine) :=
  let pos := Position.onLine l.number 1 l.text l.file
  let text := Text.trimBlank l.text
  let digits := text.takeWhile Text.isDecimalDigit
  if text = [] then .ok none
  else if digits = [] then .error (.located .lineNumberMissing pos)
  else
    match Text.readInt digits with
    | .error _ => .error (.located (.lineNumberInvalid digits) pos)
    | .ok number =>
      if number ≤ last then .error (.located (.lineNumberOrder number) pos)
      else
        let code := markJumps number false (Piece.scan d false (text.drop digits.length))
        .ok (some { number, pos, code })

/-- Reads lines behind the line `last`; a number without code is warned about. -/
def readAll (d : Dialect) (last : Int) : List Line → Advised (List NumberedLine)
  | [] => { outcome := .ok [] }
  | l :: rest =>
    match read d last l with
    | .error e => { outcome := .error e }
    | .ok none => readAll d last rest
    | .ok (some line) =>
      let more := readAll d line.number rest
      let warning := if line.code = []
        then [(line.pos, Cause.numberWithoutCode line.number)] else []
      { warnings := warning ++ more.warnings, outcome := more.outcome.map (line :: ·) }

def jumps (l : NumberedLine) : List Int := l.code.filterMap Piece.target

def targets (lines : List NumberedLine) : List Int :=
  lines.flatMap fun l => l.jumps.filter (· != l.number)

def danglingJumps (lines : List NumberedLine) : List (Position × Cause) :=
  let present := lines.map NumberedLine.number
  lines.flatMap fun l =>
    (l.jumps.filter fun n => !present.contains n).map fun n => (l.pos, Cause.lineAbsent n)

end NumberedLine

end ClassicBasic
