import ClassicBasic.Classic.Line
import ClassicBasic.Text.Encoding

/-!
# From classic lines to dignified source

Line numbers go and every line that another one jumps to gets a label. Blanks are put where the
words could otherwise not be told apart.
-/

set_option autoImplicit false

namespace ClassicBasic.Dignify

structure Layout where
  /-- Keywords and variables stay as typed. -/
  keepCase : Bool := false
  /-- Each statement gets its own line; statements behind an IF stay together. -/
  split : Bool := false
  /-- An empty line stands in front of every label but the first. -/
  blankLine : Bool := true
  /-- What code lines start with, once more for each open FOR loop. -/
  indent : Text := "\t"
  deriving DecidableEq, Repr

def isLetterCode (n : Nat) : Bool :=
  (65 ≤ n && n ≤ 90) || (97 ≤ n && n ≤ 122) || n == 0xAA || n == 0xB5 || n == 0xBA ||
    (0xC0 ≤ n && n ≤ 0xFF && n != 0xD7 && n != 0xF7)

/-- Whether a byte next to a keyword would run into it: the code of a letter or a digit, or one of
the signs around labels, strings and names of texts. -/
def runsOn (b : UInt8) : Bool :=
  let n := b.toNat
  isLetterCode n || (48 ≤ n && n ≤ 57) || n == 0x7B || n == 0x7D || n == 0x22 || n == 0x24

/-- Whether the text ends so that a keyword behind it would run into it. -/
def endRunsOn (text : Text) : Bool :=
  match (Encoding.utf8Octets (text.drop (text.length - 1))).getLast? with
  | some b => runsOn b
  | none => false

/-- Whether the text starts so that it would run into a keyword in front. -/
def startRunsOn (text : Text) : Bool :=
  match (Encoding.utf8Octets (text.take 1)).head? with
  | some b => runsOn b
  | none => false

def isComma (p : Piece) : Bool := p.text == ","

def isTight (p : Piece) : Bool := p.kind == .separator || isComma p

/-- Whether a blank stands between the piece `last`, after which the text `written` stands, and the
piece `p`, to be written as `text`. -/
def spaced (last p : Piece) (written text : Text) : Bool :=
  if p.kind = .remarkText || isTight last || isTight p then false
  else
    p.gap || (p.isKeyword && (endRunsOn written || written.getLast? == some ')')) ||
      (last.isKeyword && startRunsOn text)

def pieceText (o : Layout) (p : Piece) : Text :=
  if o.keepCase || p.kind.isLiteral then p.text else Text.lower p.text

/-- The pieces behind the piece `last` and the text `written`. -/
def renderFrom (o : Layout) (last : Piece) (written : Text) : List Piece → Text
  | [] => written
  | p :: rest =>
    let text := pieceText o p
    renderFrom o p (written ++ (if spaced last p written text then " " else "") ++ text) rest

def render (o : Layout) : List Piece → Text
  | [] => []
  | p :: rest => renderFrom o p (pieceText o p) rest

/-- Splits code at the separators in front of any IF; `read` is the statement being read. -/
def splitFrom (read : List Piece) : List Piece → List (List Piece)
  | [] => [read]
  | p :: rest =>
    if p.isInstruction "IF" then [read ++ p :: rest]
    else if p.kind = .separator then read :: splitFrom [] rest
    else splitFrom (read ++ [p]) rest

def statements (o : Layout) (code : List Piece) : List (List Piece) :=
  (if o.split then splitFrom [] code else [code]).filter (· != [])

def opened (code : List Piece) : Nat := code.countP (·.isInstruction "FOR")

/-- Whether the variables of a NEXT end in front of the piece. -/
def endsNext (p : Piece) : Bool := p.kind == .separator || p.kind == .remark

/-- How many FOR loops the NEXT statements of the code close: one for each variable. -/
def closed : List Piece → Nat
  | [] => 0
  | p :: rest =>
    (if p.isInstruction "NEXT" then
      ((rest.takeWhile fun q => !endsNext q).countP isComma) + 1 else 0) + closed rest

def startsWithNext : List Piece → Bool
  | [] => false
  | p :: _ => p.isInstruction "NEXT"

/-- The lines of statements at a depth of FOR loops, and the depth behind them. -/
def indented (o : Layout) (depth : Nat) : List (List Piece) → List Text × Nat
  | [] => ([], depth)
  | code :: rest =>
    let closes := closed code
    let early := startsWithNext code
    let here := if early then depth - closes else depth
    let after := if early then here + opened code else here + opened code - closes
    let more := indented o after rest
    (((List.replicate (here + 1) o.indent).flatten ++ render o code) :: more.1, more.2)

/-- The lines of a program at a depth of FOR loops. `first` tells whether nothing has been written
yet and `targets` are the lines that get labels. -/
def layOut (o : Layout) (targets : List Int) (first : Bool) (depth : Nat) :
    List NumberedLine → List Text
  | [] => []
  | l :: rest =>
    let label := if targets.contains l.number then
        (if o.blankLine && !first then [[]] else []) ++ [NumberedLine.label l.number]
      else []
    let body := indented o depth (statements o l.code)
    let lines := label ++ body.1
    lines ++ layOut o targets (first && lines.isEmpty) body.2 rest

/-- The dignified source of a classic listing, with warnings about it. -/
def ofListing (d : Dialect) (o : Layout) (listing : Listing) : Advised (List Text) :=
  match listing with
  | _ :: second :: more =>
    let read := NumberedLine.readAll d (-1) (second :: more).dropLast
    match read.outcome with
    | .error e => { warnings := read.warnings, outcome := .error e }
    | .ok lines =>
      { warnings := read.warnings ++ NumberedLine.danglingJumps lines
        outcome := .ok (layOut o (NumberedLine.targets lines) true 0 lines) }
  | _ => { outcome := .error (.general .notFramed) }

def log (a : Advised (List Text)) : List Record :=
  a.warnings.map fun w => Record.warning w.1 w.2

end ClassicBasic.Dignify
