import ClassicBasic.Yaml.Scalar

/-!
# From a settings file to its tokens

A file is read once from front to back. Outside brackets the column of a line opens and closes
collections. That a text is a key is known only at the colon behind it, so every text that may be
one is remembered with the number of its token; at the colon the mark of a key is put in front of
it.
-/

set_option autoImplicit false

namespace ClassicBasic.Yaml

/-- A text or collection that is a key if a colon follows it. -/
structure Candidate where
  place : Place
  /-- Whether there is no other way to read it. -/
  required : Bool
  /-- The number of its first token. -/
  number : Nat
  deriving DecidableEq, Repr

namespace Candidate

def longest : Nat := 1024

def isLive (k : Candidate) (p : Place) : Bool :=
  k.place.line == p.line && p.index ≤ k.place.index + longest

end Candidate

structure Scanner where
  place : Place := {}
  /-- What has not been read yet. -/
  rest : Text
  /-- The column of the innermost collection by indentation. -/
  indent : Int := -1
  /-- The columns around it, from the inside out. -/
  outer : List Int := []
  /-- Whether a key may start here. -/
  keyAllowed : Bool := true
  /-- The candidate inside the innermost open brackets, if there is one. -/
  candidate : Option Candidate := none
  /-- The candidates around the open brackets, from the inside out. -/
  enclosing : List (Option Candidate) := []
  /-- The tokens so far, the last one first. -/
  tokens : List Token := []
  deriving DecidableEq, Repr

namespace Scanner

def flow (s : Scanner) : Bool := !s.enclosing.isEmpty

def push (s : Scanner) (t : Token) : Scanner := { s with tokens := t :: s.tokens }

/-- Puts a token in front of that with the number `number`. -/
def insert (s : Scanner) (number : Nat) (t : Token) : Scanner :=
  let back := s.tokens.length - number
  { s with tokens := s.tokens.take back ++ t :: s.tokens.drop back }

def ahead (s : Scanner) (n : Nat) : Scanner :=
  { s with place := s.place.ahead n, rest := s.rest.drop n }

def behind (s : Scanner) (r : Read) : Scanner := { s with place := r.place, rest := r.rest }

/-- Opens a collection at column `col` if that is deeper, with its token put by `put`. -/
def deepen (s : Scanner) (col : Nat) (put : Scanner → Scanner) : Scanner :=
  if s.flow ∨ (col : Int) ≤ s.indent then s
  else { put s with indent := col, outer := s.indent :: s.outer }

/-- The column of the collection that is left when those deeper than `col` are closed, the columns
around it, and how many are closed. -/
def unwind (col : Int) (indent : Int) : List Int → Int × List Int × Nat
  | [] => (indent, [], 0)
  | i :: outer =>
    if col < indent then
      let r := unwind col i outer
      (r.1, r.2.1, r.2.2 + 1)
    else (indent, i :: outer, 0)

def close (s : Scanner) (col : Int) : Scanner :=
  if s.flow then s
  else
    let r := unwind col s.indent s.outer
    { s with
      indent := r.1
      outer := r.2.1
      tokens := List.replicate r.2.2 Token.blockEnd ++ s.tokens }

/-- Gives up the candidate; one that is required cannot be given up. -/
def dropCandidate (s : Scanner) : Option Scanner :=
  match s.candidate with
  | none => some s
  | some k => if k.required then none else some { s with candidate := none }

/-- Makes what follows a candidate where a key may start. -/
def addCandidate (s : Scanner) : Option Scanner :=
  if s.keyAllowed then
    s.dropCandidate.map fun t =>
      { t with
        candidate := some
          { place := s.place
            required := !s.flow && s.indent == s.place.col
            number := s.tokens.length } }
  else some s

/-! ## Between tokens -/

inductive Skipping
  | blanks
  | comment
  /-- Blanks and line ends between two comments. -/
  | between
  deriving DecidableEq, Repr

/-- Whether a comment follows behind nothing but blanks and line feeds. -/
def commentFollows (t : Text) : Bool :=
  (t.dropWhile fun c => isBlank c || c == '\n').head? == some '#'

/-- Skips blanks, line ends and comments: whether a key may start then, the place and what follows.
Where a key may start a tab is no blank; between comments it is. -/
def skip (flow : Bool) : Skipping → Bool → Place → Text → Bool × Place × Text
  | _, keyAllowed, p, [] => (keyAllowed, p, [])
  | .blanks, keyAllowed, p, c :: rest =>
    if c = ' ' ∨ (c = '\t' ∧ (flow ∨ !keyAllowed)) then
      skip flow .blanks keyAllowed (p.ahead 1) rest
    else if isBreak c then skip flow .blanks (!flow || keyAllowed) p.nextLine rest
    else if c = '#' then skip flow .comment keyAllowed (p.ahead 1) rest
    else (keyAllowed, p, c :: rest)
  | .comment, keyAllowed, p, c :: rest =>
    if isBreak c then
      if c = '\n' ∧ commentFollows rest then skip flow .between keyAllowed p.nextLine rest
      else skip flow .blanks (!flow || keyAllowed) p.nextLine rest
    else skip flow .comment keyAllowed (p.ahead 1) rest
  | .between, keyAllowed, p, c :: rest =>
    if isBreak c then skip flow .between keyAllowed p.nextLine rest
    else if c = '#' then skip flow .comment keyAllowed (p.ahead 1) rest
    else skip flow .between keyAllowed (p.ahead 1) rest

/-- Goes to the next token and closes the collections that its column ends. -/
def toToken (s : Scanner) : Scanner :=
  let r := skip s.flow .blanks s.keyAllowed s.place s.rest
  { s with keyAllowed := r.1, place := r.2.1, rest := r.2.2 }.close r.2.1.col

def skipComment (s : Scanner) : Scanner :=
  let blanks := (s.rest.takeWhile isBlank).length
  let behind := s.rest.drop blanks
  if behind.head? = some '#' then
    s.ahead (blanks + (behind.takeWhile fun c => !isBreak c).length)
  else s

/-! ## Tokens -/

def reset (s : Scanner) : Option Scanner :=
  (s.close (-1)).dropCandidate.map fun t => { t with keyAllowed := false }

def finish (s : Scanner) : Option Scanner :=
  let ended :=
    if s.place.col = 0 then s.place else { s.place with col := 0, line := s.place.line + 1 }
  (reset { s with place := ended }).map fun t => t.push .streamEnd

/-- The only directive there is, with the version of the format. -/
def version : List Text := ["%YAML", "1.1"]

def directive (s : Scanner) : Option Scanner :=
  let line := s.rest.takeWhile fun c => !isBreak c
  let words := ((Text.splitAt ' ' (line.takeWhile (· != '#'))).filter (· != []))
  if words = version then s.reset.map fun t => (t.push .directive).ahead line.length else none

def marker (s : Scanner) : Option Scanner :=
  let mark := if s.rest.head? = some '-' then Token.documentStart else Token.documentEnd
  s.reset.map fun t => (t.push mark).ahead 3

def openFlow (s : Scanner) (t : Token) : Option Scanner :=
  s.addCandidate.map fun s =>
    ({ s with
      enclosing := s.candidate :: s.enclosing
      candidate := none
      keyAllowed := true }.push t).ahead 1

def closeFlow (s : Scanner) (t : Token) : Option Scanner :=
  s.dropCandidate.map fun s =>
    let out := match s.enclosing with
      | [] => s
      | k :: rest => { s with candidate := k, enclosing := rest }
    ({ out with keyAllowed := false }.push t).ahead 1

def comma (s : Scanner) : Option Scanner :=
  s.dropCandidate.map fun s => ({ s with keyAllowed := true }.push .comma).ahead 1

def dash (s : Scanner) : Option Scanner :=
  if !s.flow ∧ !s.keyAllowed then none
  else
    (s.deepen s.place.col (·.push .itemsStart)).dropCandidate.map fun s =>
      ({ s with keyAllowed := true }.push .dash).ahead 1

def questionMark (s : Scanner) : Option Scanner :=
  if !s.flow ∧ !s.keyAllowed then none
  else
    (s.deepen s.place.col (·.push .entriesStart)).dropCandidate.map fun s =>
      ({ s with keyAllowed := !s.flow }.push .key).ahead 1

def colon (s : Scanner) : Option Scanner :=
  let loose : Option Scanner :=
    if !s.flow ∧ !s.keyAllowed then none
    else
      let opened := s.deepen s.place.col (·.push .entriesStart)
      some (({ opened with keyAllowed := !s.flow }.push .value).ahead 1)
  match s.candidate with
  | none => loose
  | some k =>
    if k.isLive s.place then
      let opened := (s.insert k.number .key).deepen k.place.col (·.insert k.number .entriesStart)
      some (({ opened with candidate := none, keyAllowed := false }.push .value).ahead 1)
    else if k.required then none
    else loose

def isNameChar (c : Char) : Bool := c.isAlphanum || c == '_' || c == '-'

def named (s : Scanner) (make : Text → Token) : Option Scanner :=
  s.addCandidate.bind fun s =>
    let name := (s.rest.drop 1).takeWhile isNameChar
    let behind := s.rest.drop (name.length + 1)
    let ends := endsWord behind || behind.head?.any fun c =>
      "?:,]\x7d%@".toList.contains c || c.toNat == 0x60
    if name = [] ∨ !ends then none
    else some (({ s with keyAllowed := false }.push (make name)).ahead (name.length + 1))

def isTagChar (c : Char) : Bool :=
  isNameChar c || ";/?:@&=+$,.!~*()[]".toList.contains c || c == apostrophe

def longTag : Text := "tag:yaml.org,2002:"

def shortTag (t : Text) : Text :=
  if longTag.isPrefixOf t then "!!".toList ++ t.drop longTag.length else t

/-- The tag at the start of the text, in its short form, and how long it is. -/
def tag? (t : Text) : Option (Text × Nat) :=
  let name := t.takeWhile isTagChar
  match t.drop 1 with
  | '<' :: rest =>
    let name := rest.takeWhile isTagChar
    if name ≠ [] ∧ (rest.drop name.length).head? = some '>' then
      some (shortTag name, name.length + 3)
    else none
  | second :: _ =>
    let handle := (t.drop 1).takeWhile isNameChar
    let isHandle := (t.drop (handle.length + 1)).head? == some '!'
    if second = '!' then (if 2 < name.length then some (name, name.length) else none)
    else if isHandle then none
    else some (name, name.length)
  | [] => some (name, name.length)

/-- A tag, which a blank or a line end has to follow. -/
def tag (s : Scanner) : Option Scanner :=
  s.addCandidate.bind fun s =>
    (tag? s.rest).bind fun r =>
      if endsWord (s.rest.drop r.2) then
        some (({ s with keyAllowed := false }.push (.tag r.1)).ahead r.2)
      else none

def quotedScalar (s : Scanner) (quote : Char) : Option Scanner :=
  s.addCandidate.bind fun s =>
    (quoted quote s.rest.length [] (s.place.ahead 1) (s.rest.drop 1)).map fun r =>
      ({ s with keyAllowed := false }.push (.scalar true r.text)).behind r

/-- A text without quotes. A key may start behind it on a new line. -/
def plainScalar (s : Scanner) : Option Scanner :=
  s.addCandidate.bind fun s =>
    (plain s.flow (s.indent + 1).toNat (s.rest.length + 1) [] {} s.place s.rest).map fun r =>
      let next := ({ s with keyAllowed := r.broken }.push (.scalar false r.text)).behind r
      if r.broken then next else next.skipComment

def block (s : Scanner) (literal : Bool) : Option Scanner :=
  s.dropCandidate.bind fun s =>
    let read := blockScalar literal s.indent (s.rest.length + 1) (s.place.ahead 1) (s.rest.drop 1)
    read.map fun r => ({ s with keyAllowed := true }.push (.scalar true r.text)).behind r

def token (s : Scanner) : Option Scanner :=
  match s.rest with
  | [] => s.finish
  | c :: rest =>
    if s.place.col = 0 ∧ c = '%' then s.directive
    else if s.place.col = 0 ∧ isMarker s.rest then s.marker
    else if c = '[' then (s.openFlow .bracketOpen).map skipComment
    else if c = '\x7b' then (s.openFlow .braceOpen).map skipComment
    else if c = ']' then (s.closeFlow .bracketClose).map skipComment
    else if c = '\x7d' then (s.closeFlow .braceClose).map skipComment
    else if c = ',' then s.comma.map skipComment
    else if c = '-' ∧ endsWord rest then s.dash
    else if c = '?' ∧ (s.flow ∨ endsWord rest) then s.questionMark.map skipComment
    else if c = ':' ∧ (s.flow ∨ endsWord rest) then s.colon.map skipComment
    else if c = '*' then (s.named .alias).map skipComment
    else if c = '&' then (s.named .anchor).map skipComment
    else if c = '!' then s.tag.map skipComment
    else if c = '|' ∧ !s.flow then s.block true
    else if c = '>' ∧ !s.flow then s.block false
    else if c = apostrophe ∨ c = '"' then (s.quotedScalar c).map skipComment
    else if startsPlain s.flow s.rest then s.plainScalar
    else none

/-- The candidates that a colon can still make keys, or that nothing else can be made of. -/
def pending (s : Scanner) : List Candidate :=
  (s.candidate :: s.enclosing).filterMap fun k => k.filter fun k => k.isLive s.place || k.required

/-- The tokens that can be used when the file cannot be read on: a token counts only if two others
follow it and it is no candidate. -/
def usable (s : Scanner) : List Token :=
  let count := s.pending.foldl (fun n k => min n k.number) (s.tokens.length - 2)
  s.tokens.reverse.take count

/-- The tokens from here on. If the file cannot be read to its end they stop before that. -/
def run : Nat → Scanner → List Token
  | 0, s => s.usable
  | fuel + 1, s =>
    match s.toToken.token with
    | none => s.usable
    | some next =>
      if next.tokens.head? = some .streamEnd then next.tokens.reverse else run fuel next

end Scanner

/-- The tokens of a settings file; they end with that of its end if all of it could be read. -/
def tokens (t : Text) : List Token :=
  let text := unifyEnds (skipMark t)
  if (skipMark t).all isAllowed then Scanner.run (text.length + 1) { rest := text } else []

end ClassicBasic.Yaml
