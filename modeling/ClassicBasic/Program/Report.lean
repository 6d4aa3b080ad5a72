import ClassicBasic.Program.Numbering

/-!
# Reports

Listings that can be saved next to a converted program: what its lines were made from, which short
names its variables got, and its tokens.
-/

set_option autoImplicit false

namespace ClassicBasic

structure Report where
  kind : Text
  lines : List Text
  deriving DecidableEq, Repr

namespace Report

def infoText (i : LineInfo) : Text :=
  Text.ofInt i.number ++ " - " ++
    if i.source = 0 then "Auto generated".toList else Text.ofInt i.source

/-- The numbered lines with the source lines they were made from. -/
def ofLines (infos : List LineInfo) : Report :=
  { kind := "lines"
    lines := (Text.ofNat infos.length ++ " lines generated.") :: "(Classic - Dignified)" :: [] ::
      infos.map infoText }

/-- Whether a text comes before another in the order of characters, or is equal to it. -/
def notAfter : Text → Text → Bool
  | [], _ => true
  | _ :: _, [] => false
  | a :: s, b :: t => a < b || (a == b && notAfter s t)

/-- Whether a variable comes before another one in the report: by its short name, then by its long
name, the last one first. -/
def before (a b : Text × Text) : Bool :=
  if a.2 = b.2 then notAfter b.1 a.1 else notAfter b.2 a.2

def variableText (v : Text × Text) : Text := v.2 ++ ":" ++ v.1.takeWhile (· != '@')

/-- The short names given, by qualified long name. -/
def ofVariables (given : List (Text × Text)) : Report :=
  { kind := "variables"
    lines := (Text.ofNat given.length ++ " variables assigned") :: [] ::
      (given.mergeSort before).map variableText }

/-- The tokens of a program at one stage of its conversion. -/
def ofTokens (kind file : Text) (tokens : List Token) : Report :=
  { kind
    lines := (PathName.base file ++ " " ++ kind ++ " output") ::
      (Text.ofNat tokens.length ++ " tokens") :: [] :: tokens.map Token.describe }

/-- Whether `c` is left out at the end of a written line. -/
def isLineEnd (c : Char) : Bool := c == ' ' || c == '\r' || c == '\n'

def written (r : Report) : Text := r.lines.flatMap fun l => Text.trimEnd isLineEnd l ++ ['\n']

def path (r : Report) (output : Text) : Text := PathName.stem output ++ "_" ++ r.kind ++ ".txt"

end Report

end ClassicBasic
