import ClassicBasic.Text.Numeral
import ClassicBasic.Yaml.Token

/-!
# Texts of a settings file

Texts without quotes, between quotes and in blocks. In the first two a line end reads as a blank and
further line ends read as themselves; a block keeps its lines, or folds them in the same way.
Readers give the text, the place behind it and what follows there; they take fuel that the length of
the file bounds.
-/

set_option autoImplicit false

namespace ClassicBasic.Yaml

/-- A text that has been read, the place behind it and what follows there. -/
structure Read where
  text : Text
  place : Place
  rest : Text
  /-- Whether a line end was the last but blanks that was read. -/
  broken : Bool := false
  deriving DecidableEq, Repr

structure Gap where
  /-- Blanks, as long as no line end follows. -/
  blanks : Text := []
  broken : Bool := false
  /-- The first line end, unless a backslash was in front of it. -/
  first : Option Char := none
  /-- The other line ends. -/
  later : Text := []
  deriving DecidableEq, Repr

namespace Gap

def text (g : Gap) : Text :=
  if g.broken then
    match g.first with
    | none => g.later
    | some '\n' => if g.later = [] then [' '] else g.later
    | some c => c :: g.later
  else g.blanks

def addBlank (g : Gap) (c : Char) : Gap :=
  if g.broken then g else { g with blanks := g.blanks ++ [c] }

def addBreak (g : Gap) (c : Char) : Gap :=
  if g.broken then { g with later := g.later ++ [c] }
  else { blanks := [], broken := true, first := some c, later := [] }

end Gap

/-- Reads a gap. On lines but the first no tab may stand in front of column `limit`. -/
def gap (limit : Nat) (g : Gap) (p : Place) : Text → Option (Gap × Place × Text)
  | [] => some (g, p, [])
  | c :: rest =>
    if isBlank c then
      if g.broken ∧ p.col < limit ∧ c = '\t' then none
      else gap limit (g.addBlank c) (p.ahead 1) rest
    else if isBreak c then gap limit (g.addBreak c) p.nextLine rest
    else some (g, p, c :: rest)

/-! ## Texts without quotes -/

/-- Whether `c` has a meaning of its own inside brackets. -/
def isFlowMark (c : Char) : Bool := c == ',' || c == '[' || c == ']' || c == '\x7b' || c == '\x7d'

/-- Whether no text without quotes starts with `c`, whatever follows it. -/
def isReservedStart (c : Char) : Bool :=
  isFlowMark c || c == '#' || c == '&' || c == '*' || c == '!' || c == '|' || c == '>' ||
    c == apostrophe || c == '"' || c == '%' || c == '@' || c.toNat == 0x60

def startsPlain (flow : Bool) : Text → Bool
  | [] => false
  | c :: rest =>
    if c = '-' then !endsWord rest
    else if c = '?' ∨ c = ':' then !flow && !endsWord rest
    else !isReservedStart c && !isBlank c && !isBreak c

/-- The characters in front that belong to a text without quotes and are no blanks. -/
def plainRun (flow : Bool) : Text → Text
  | [] => []
  | c :: rest =>
    if isBlank c ∨ isBreak c ∨ (c = ':' ∧ endsWord rest) ∨ (flow ∧ (isFlowMark c ∨ c = '?')) then []
    else c :: plainRun flow rest

/-- Reads a text without quotes, `read` being what was read of it and `g` the gap behind that.
Outside brackets it ends in front of a line that does not reach column `limit`. -/
def plain (flow : Bool) (limit : Nat) : Nat → Text → Gap → Place → Text → Option Read
  | 0, _, _, _, _ => none
  | fuel + 1, read, g, p, t =>
    let run := plainRun flow t
    if (p.col = 0 ∧ isMarker t) ∨ t.head? = some '#' ∨ run = [] then
      some { text := read, place := p, rest := t, broken := g.broken }
    else
      let read := read ++ g.text ++ run
      match gap limit {} (p.ahead run.length) (t.drop run.length) with
      | none => none
      | some (next, place, rest) =>
        if (next.blanks = [] ∧ !next.broken) ∨ (!flow ∧ place.col < limit) then
          some { text := read, place, rest, broken := next.broken }
        else plain flow limit fuel read next place rest

/-! ## Texts between quotes -/

/-- The character with the number that hexadecimal digits stand for. -/
def hexChar? (digits : Text) : Option Char :=
  match digits.mapM Text.digitValue with
  | none => none
  | some values =>
    let n := values.foldl (fun n d => n * 16 + d) 0
    if values.all (· < 16) ∧ n.isValidChar then some (Char.ofNat n) else none

/-- The character that a letter behind a backslash stands for. -/
def escapeChar? (c : Char) : Option Char :=
  match c with
  | '0' => some (Char.ofNat 0)
  | 'a' => some (Char.ofNat 7)
  | 'b' => some (Char.ofNat 8)
  | 't' | '\t' => some '\t'
  | 'n' => some '\n'
  | 'v' => some (Char.ofNat 11)
  | 'f' => some (Char.ofNat 12)
  | 'r' => some '\r'
  | 'e' => some (Char.ofNat 27)
  | ' ' | '"' | '\\' => some c
  | 'N' => some (Char.ofNat 0x85)
  | '_' => some (Char.ofNat 0xA0)
  | 'L' => some (Char.ofNat 0x2028)
  | 'P' => some (Char.ofNat 0x2029)
  | _ => if c = apostrophe then some c else none

/-- How many hexadecimal digits follow a letter behind a backslash. -/
def escapeWidth (c : Char) : Nat :=
  if c = 'x' then 2 else if c = 'u' then 4 else if c = 'U' then 8 else 0

/-- The character that a backslash and the text behind it stand for, and how long that text is. -/
def escaped (t : Text) : Option (Char × Nat) :=
  match t with
  | [] => none
  | c :: rest =>
    let width := escapeWidth c
    if width = 0 then (escapeChar? c).map fun e => (e, 1)
    else if rest.length < width then none
    else (hexChar? (rest.take width)).map fun e => (e, width + 1)

/-- Reads a text up to its closing quote, `read` being what was read of it. A doubled single quote
stands for one; between double quotes there are escapes. -/
def quoted (quote : Char) : Nat → Text → Place → Text → Option Read
  | 0, _, _, _ => none
  | _ + 1, _, _, [] => none
  | fuel + 1, read, p, c :: rest =>
    let behindGap (g : Gap) (p : Place) (t : Text) : Option Read :=
      (gap 0 g p t).bind fun r =>
        if r.2.1.col = 0 ∧ isMarker r.2.2 then none
        else quoted quote fuel (read ++ r.1.text) r.2.1 r.2.2
    if c = quote then
      if quote = apostrophe ∧ rest.head? = some quote then
        quoted quote fuel (read ++ [c]) (p.ahead 2) (rest.drop 1)
      else some { text := read, place := p.ahead 1, rest }
    else if c = '\\' ∧ quote = '"' then
      if rest.head?.any isBreak then behindGap { broken := true } (p.ahead 1).nextLine (rest.drop 1)
      else
        (escaped rest).bind fun e =>
          quoted quote fuel (read ++ [e.1]) (p.ahead (e.2 + 1)) (rest.drop e.2)
    else if isBlank c ∨ isBreak c then behindGap {} p (c :: rest)
    else quoted quote fuel (read ++ [c]) (p.ahead 1) rest

/-! ## Blocks -/

inductive Chomping
  | strip
  | clip
  | keep
  deriving DecidableEq, Repr

/-- What stands behind the bar of a block: what happens to the line ends at its end, and how much
deeper than its parent it stands, zero if that is not told. -/
structure BlockHeader where
  chomping : Chomping := .clip
  deeper : Nat := 0
  deriving DecidableEq, Repr

def chomping? (c : Char) : Option Chomping :=
  if c = '+' then some .keep else if c = '-' then some .strip else none

/-- The header of a block and how long it is; none if it asks for no indentation. -/
def blockHeader (t : Text) : Option (BlockHeader × Nat) :=
  let depth (c : Char) : Nat := c.toNat - '0'.toNat
  match t with
  | [] => some ({}, 0)
  | c :: rest =>
    match chomping? c with
    | some chomping =>
      match rest.head? with
      | some d =>
        if d = '0' then none
        else if d.isDigit then some ({ chomping, deeper := depth d }, 2)
        else some ({ chomping }, 1)
      | none => some ({ chomping }, 1)
    | none =>
      if c = '0' then none
      else if c.isDigit then
        match rest.head?.bind chomping? with
        | some chomping => some ({ chomping, deeper := depth c }, 2)
        | none => some ({ deeper := depth c }, 1)
      else some ({}, 0)

/-- Reads the indentation of lines of a block and the empty lines in front of the next one: the
deepest column reached, the line ends, the place and what follows. Zero stands for an indentation
that is not known yet. -/
def blockGap (indent deepest : Nat) (breaks : Text) (p : Place) :
    Text → Option (Nat × Text × Place × Text)
  | [] => some (max deepest p.col, breaks, p, [])
  | c :: rest =>
    if (indent = 0 ∨ p.col < indent) ∧ c = ' ' then blockGap indent deepest breaks (p.ahead 1) rest
    else if (indent = 0 ∨ p.col < indent) ∧ c = '\t' then none
    else if isBreak c then blockGap indent (max deepest p.col) (breaks ++ [c]) p.nextLine rest
    else some (max deepest p.col, breaks, p, c :: rest)

structure Block where
  text : Text := []
  /-- The end of the last line. -/
  last : Text := []
  /-- The ends of the empty lines behind it. -/
  empty : Text := []
  /-- Whether the last line started with a blank. -/
  loose : Bool := false
  deriving DecidableEq, Repr

namespace Block

/-- The block with a line added. A folded line end between two lines that start without a blank
reads as a blank, or as nothing in front of empty lines. -/
def add (literal : Bool) (b : Block) (line : Text) : Block :=
  let loose := line.head?.any isBlank
  let joint :=
    if !literal ∧ !b.loose ∧ !loose ∧ b.last = ['\n'] then (if b.empty = [] then [' '] else [])
    else b.last
  { text := b.text ++ joint ++ b.empty ++ line, loose }

def finish (chomping : Chomping) (b : Block) : Text :=
  match chomping with
  | .strip => b.text
  | .clip => b.text ++ b.last
  | .keep => b.text ++ b.last ++ b.empty

end Block

/-- Reads the lines of a block that start in column `indent`. -/
def blockLines (literal : Bool) (indent : Nat) : Nat → Block → Place → Text →
    Option (Block × Place × Text)
  | 0, _, _, _ => none
  | fuel + 1, b, p, t =>
    if p.col = indent ∧ t ≠ [] then
      let line := t.takeWhile fun c => !isBreak c
      let added := b.add literal line
      match t.drop line.length with
      | [] => some (added, p.ahead line.length, [])
      | c :: rest =>
        match blockGap indent 0 [] (p.ahead line.length).nextLine rest with
        | none => none
        | some (_, breaks, place, next) =>
          blockLines literal indent fuel { added with last := [c], empty := breaks } place next
    else some (b, p, t)

/-- Reads a block behind its bar, `parent` being the indentation around it. -/
def blockScalar (literal : Bool) (parent : Int) (fuel : Nat) (p : Place) (t : Text) :
    Option Read := do
  let (header, length) ← blockHeader t
  let behind := t.drop length
  let blanks := (behind.takeWhile isBlank).length
  let comment :=
    if (behind.drop blanks).head? = some '#' then
      ((behind.drop blanks).takeWhile fun c => !isBreak c).length
    else 0
  let ended := p.ahead (length + blanks + comment)
  let start ← match behind.drop (blanks + comment) with
    | [] => some (ended, [])
    | c :: rest => if isBreak c then some (ended.nextLine, rest) else none
  let told := if header.deeper = 0 then 0 else (max parent 0).toNat + header.deeper
  let (deepest, breaks, place, rest) ← blockGap told 0 [] start.1 start.2
  let indent := if told = 0 then max (max deepest (parent + 1).toNat) 1 else told
  let (b, place, rest) ← blockLines literal indent fuel { empty := breaks } place rest
  return { text := b.finish header.chomping, place, rest, broken := true }

end ClassicBasic.Yaml
