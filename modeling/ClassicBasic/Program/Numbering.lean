import ClassicBasic.Label
import ClassicBasic.Program.Session
import ClassicBasic.Text.Digit

/-!
# Line numbers

The fourth stage of a conversion. Lines are numbered in equal steps, long variables get their short
names, and labels and functions are noted with the lines they stand for. Afterwards every
placeholder is replaced by the number of its line. Numbers are 64-bit words.
-/

set_option autoImplicit false

namespace ClassicBasic

structure LineInfo where
  number : Int
  /-- The number of the source line, zero for a line that none was written for. -/
  source : Int
  text : Text := []
  file : Text := []
  deriving DecidableEq, Repr

namespace Numbering

inductive Target
  /-- The line of a label. -/
  | label
  /-- The line behind a loop. -/
  | pastLoop
  /-- The first line of a function. -/
  | routine
  deriving DecidableEq, Repr

/-- A token of the numbered program, with what its value is still to be replaced by. -/
structure Pending where
  token : Token
  target : Option Target := none
  deriving DecidableEq, Repr

structure Scale where
  start : Int := 10
  step : Int := 10
  deriving DecidableEq, Repr

structure State where
  /-- The number of the line being read. -/
  line : Int
  /-- The output, last token first. -/
  out : List Pending
  /-- Lines by the label in front of them, latest first. -/
  labels : List (Text × Int) := []
  /-- Lines by the function that starts there, latest first. -/
  routines : List (Text × Int) := []
  /-- Lines behind a loop by its name, latest first. -/
  ends : List (Text × Int) := []
  /-- What the report of labels says about a line, latest first. -/
  notes : List (Int × Text) := []
  /-- The lines passed, latest first. -/
  infos : List LineInfo := []
  deriving DecidableEq, Repr

namespace State

def emit (s : State) (t : Token) : State := { s with out := ⟨t, none⟩ :: s.out }

def await (s : State) (t : Token) (target : Target) : State :=
  { s with out := ⟨t, some target⟩ :: s.out }

/-- Adds to what the report of labels says about the line being read. -/
def note (s : State) (entry : Text) : State := { s with notes := (s.line, entry) :: s.notes }

end State

/-- Names belong to their file, so that included files keep labels of their own. -/
def key (t : Token) : Text := t.value ++ "@" ++ t.pos.file

def isNumber (t : Text) : Bool := !t.isEmpty && t.all Text.isDecimalDigit

def markLabel (s : State) (t : Token) : Except Failure State :=
  if (s.labels.lookup (key t)).isSome then .error (t.failure (.labelDuplicated t.value))
  else .ok { s.note ("<" ++ t.value) with labels := (key t, s.line) :: s.labels }

/-- A jump to a label, or back to the start of a loop. -/
def jump (step : Int) (s : State) (t : Token) : State :=
  let s := s.note (">" ++ t.value)
  let s := if t.kind = .labelReturn
    then { s with ends := (key t, wrap (s.line + step)) :: s.ends } else s
  if t.value = Label.sameLine then s.emit (t.withValue (Text.ofInt s.line)) else s.await t .label

/-- The end of the line being read; `next` is the token behind it. -/
def endLine (step : Int) (s : State) (t next : Token) : Except Failure State :=
  let info : LineInfo :=
    { number := s.line, source := t.pos.line, text := t.pos.text, file := t.pos.file }
  let s := { s with infos := info :: s.infos }
  if next.kind = .eof then .ok (s.emit t)
  else if isNumber next.value then .error (next.failure (.lineStartsWithNumber next.value))
  else
    let line := wrap (s.line + step)
    let number : Token :=
      ⟨.lineNumber, Text.ofInt line, (t.pos.withLine next.pos.line).withCol 0⟩
    .ok ({ s with line }.emit t |>.emit number)

/-- One token of the fourth stage that is neither a variable nor the end; `next` is the token behind
it. -/
def step (scale : Scale) (s : State) (t next : Token) : Except Failure State :=
  match t.kind with
  | .labelLine => markLabel s t
  | .labelJump | .labelReturn => .ok (jump scale.step s t)
  | .labelExit => .ok ((s.note ("*" ++ t.value)).await t .pastLoop)
  | .functionEntry =>
    .ok { s.note ("<" ++ t.value) with routines := (key t, s.line) :: s.routines }
  | .functionCall => .ok ((s.note (">" ++ t.value)).await t .routine)
  | .newline => endLine scale.step s t next
  | _ => .ok (s.emit t)

def shorten (d : Dialect) (t : Token) : Conversion Token := do
  let (token, known) ← Conversion.ofExcept ((← Conversion.naming).shorten d t)
  Conversion.setNaming known
  return token

/-- The fourth stage on the tokens `input`, without replacing placeholders. -/
def walk (d : Dialect) (scale : Scale) (s : State) : List Token → Conversion State
  | [] => throw .exhausted
  | t :: rest =>
    if t.kind = .eof then return s.emit t
    else if t.kind = .identifier then do
      walk d scale (s.emit (← shorten d t)) rest
    else do
      walk d scale (← Conversion.ofExcept (step scale s t (rest.headD t))) rest

def settle (s : State) (target : Target) (p : Pending) : Except Failure Pending :=
  let at? := fun lines : List (Text × Int) => lines.lookup (key p.token)
  let found := fun line : Int => Except.ok { token := p.token.withValue (Text.ofInt line) }
  if p.target ≠ some target then .ok p
  else
    match target with
    | .label =>
      match at? s.labels with
      | some line => found line
      | none => .error (p.token.failure (.undefinedLabel p.token.value))
    | .pastLoop =>
      match at? s.ends with
      | some line =>
        if s.line < line then .error (p.token.failure .exitPastEnd) else found line
      | none => .error (p.token.failure .exitPastEnd)
    | .routine =>
      match at? s.routines with
      | some line => found line
      | none => .error (p.token.failure (.undefinedFunction p.token.value))

/-- The output with all placeholders replaced: jumps first, then ways out of loops, then calls. -/
def resolve (s : State) : Except Failure (List Token) := do
  let jumps ← s.out.reverse.mapM (settle s .label)
  let exits ← jumps.mapM (settle s .pastLoop)
  let calls ← exits.mapM (settle s .routine)
  return calls.map Pending.token

def headerTexts : List Text :=
  ["Converted with Basic Dignified", "https://github.com/farique1/basic-dignified"]

def remarkLine (pos : Position) (text : Text) : List Token :=
  let pos := (pos.withLine 0).withCol 0
  [⟨.remark, "'", pos⟩, ⟨.remarkText, text, pos.withCol 1⟩,
    ⟨.newline, "\r", pos.withCol text.length⟩]

/-- The tokens of a program with its introduction behind the first line end. -/
def withHeader (tokens : List Token) : List Token :=
  match tokens with
  | [] => []
  | start :: _ =>
    tokens.take 2 ++ headerTexts.flatMap (remarkLine start.pos) ++ tokens.drop 2

structure Numbered where
  tokens : List Token
  /-- The lines, in order. -/
  infos : List LineInfo
  /-- What the report of labels says about lines, in order. -/
  notes : List (Int × Text)
  deriving DecidableEq, Repr

def number (d : Dialect) (scale : Scale) : List Token → Conversion Numbered
  | [] => throw .exhausted
  | start :: rest => do
    let first : State := { line := wrap (scale.start - scale.step), out := [⟨start, none⟩] }
    let last ← walk d scale first rest
    let tokens ← Conversion.ofExcept (resolve last)
    return { tokens, infos := last.infos.reverse, notes := last.notes.reverse }

end Numbering

end ClassicBasic
