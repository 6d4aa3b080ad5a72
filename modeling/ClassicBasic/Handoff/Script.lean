import ClassicBasic.Text.Basic

/-!
# Reading small scripts

A script for the hand-off is pipelines with `;`, `&&` and `||` between them, and a pipeline is
simple commands with `|` between them. A command is words, and tells where its streams come from
and go to. Quotes keep characters together, a backslash takes the meaning from one, a dollar sign
stands in front of a parameter, and a number sign at the start of a word opens a comment.
-/

set_option autoImplicit false

namespace ClassicBasic

namespace Script

inductive Stream
  | input
  | output
  | errors
  deriving DecidableEq, Repr

inductive Target
  | stream (s : Stream)
  | file (append : Bool) (path : Text)
  deriving DecidableEq, Repr

/-- When a pipeline runs, by how the one in front of it ended. -/
inductive Joint
  | always
  | onSuccess
  | onFailure
  deriving DecidableEq, Repr

structure Command where
  words : List Text := []
  sends : List (Stream × Target) := []
  deriving DecidableEq, Repr

/-- Commands of which each reads what the one in front of it says. -/
structure Pipeline where
  joint : Joint := .always
  commands : List Command := []
  deriving DecidableEq, Repr

/-- How characters are quoted; those of a comment do not count. -/
inductive Quote
  | none
  | single
  | double
  | comment
  deriving DecidableEq, Repr

structure Reading where
  /-- The pipelines read, last one first. -/
  done : List Pipeline := []
  /-- The pipeline being read. -/
  pipeline : Pipeline := {}
  /-- The command being read. -/
  command : Command := {}
  /-- The word being read, last character first, if one has been started. -/
  word : Option Text := none
  /-- What the next word is the file of. -/
  awaited : Option (Stream × Bool) := none
  deriving DecidableEq, Repr

namespace Reading

def add (r : Reading) (t : Text) : Reading :=
  { r with word := some (t.reverseAux (r.word.getD [])) }

def close (r : Reading) : Reading :=
  match r.word, r.awaited with
  | none, _ => r
  | some w, none =>
    { r with word := none, command := { r.command with words := r.command.words ++ [w.reverse] } }
  | some w, some (s, append) =>
    let sends := r.command.sends ++ [(s, Target.file append w.reverse)]
    { r with word := none, awaited := none, command := { r.command with sends } }

/-- Ends the command being read; the next one reads what it says. -/
def pipe (r : Reading) : Reading :=
  let closed := r.close
  let commands := closed.pipeline.commands ++ [closed.command]
  { closed with pipeline := { closed.pipeline with commands }, command := {} }

def next (r : Reading) (joint : Joint) : Reading :=
  let closed := r.pipe
  { closed with done := closed.pipeline :: closed.done, pipeline := { joint } }

/-- The stream that a sign of redirection is about: a digit right in front of it names one. -/
def stream (r : Reading) (usual : Stream) : Stream × Reading :=
  if r.word = some ['2'] then (.errors, { r with word := none })
  else if r.word = some ['1'] then (.output, { r with word := none })
  else if r.word = some ['0'] then (.input, { r with word := none })
  else (usual, r.close)

def sendToFile (r : Reading) (usual : Stream) (append : Bool) : Reading :=
  let s := r.stream usual
  { s.2 with awaited := some (s.1, append) }

def sendToStream (r : Reading) (digit : Char) : Reading :=
  let s := r.stream .output
  let target := Target.stream (if digit = '2' then .errors else .output)
  { s.2 with command := { s.2.command with sends := s.2.command.sends ++ [(s.1, target)] } }

end Reading

def ownNumber : Text := "1"

def parameter (parameters : List Text) (c : Char) : Text :=
  if c.isDigit then (parameters[c.toNat - 48]?).getD (if c = '0' then "sh" else [])
  else if c = '@' ∨ c = '*' then Text.joinWith [' '] (parameters.drop 1)
  else if c = '#' then Text.ofNat (parameters.length - 1)
  else if c = '$' then ownNumber
  else ['$', c]

/-- Whether a backslash inside double quotes takes the meaning from a character. -/
def losesMeaning (c : Char) : Bool := c == '"' || c == '\\' || c == '$' || c.toNat == 96

/-- Reads a script; there is nothing to read in one with a quote that is not closed. -/
def readFrom (parameters : List Text) : Quote → Reading → Text → Option Reading
  | .single, _, [] | .double, _, [] => none
  | _, r, [] => some (r.next .always)
  | .single, r, c :: rest =>
    if c.toNat = 39 then readFrom parameters .none (r.add []) rest
    else readFrom parameters .single (r.add [c]) rest
  | .comment, r, c :: rest =>
    if c = '\n' then readFrom parameters .none (r.next .always) rest
    else readFrom parameters .comment r rest
  | .double, r, '\\' :: c :: rest =>
    readFrom parameters .double (r.add (if losesMeaning c then [c] else ['\\', c])) rest
  | .double, r, '$' :: c :: rest =>
    readFrom parameters .double (r.add (parameter parameters c)) rest
  | .double, r, c :: rest =>
    if c = '"' then readFrom parameters .none (r.add []) rest
    else readFrom parameters .double (r.add [c]) rest
  | .none, r, '\\' :: c :: rest => readFrom parameters .none (r.add [c]) rest
  | .none, r, '$' :: c :: rest => readFrom parameters .none (r.add (parameter parameters c)) rest
  | .none, r, '&' :: '&' :: rest => readFrom parameters .none (r.next .onSuccess) rest
  | .none, r, '|' :: '|' :: rest => readFrom parameters .none (r.next .onFailure) rest
  | .none, r, '>' :: '&' :: c :: rest => readFrom parameters .none (r.sendToStream c) rest
  | .none, r, '>' :: '>' :: rest => readFrom parameters .none (r.sendToFile .output true) rest
  | .none, r, c :: rest =>
    if c = '"' then readFrom parameters .double (r.add []) rest
    else if c.toNat = 39 then readFrom parameters .single (r.add []) rest
    else if c = '>' then readFrom parameters .none (r.sendToFile .output false) rest
    else if c = '<' then readFrom parameters .none (r.sendToFile .input false) rest
    else if c = '|' then readFrom parameters .none r.pipe rest
    else if c = '#' ∧ r.word = none then readFrom parameters .comment r rest
    else if c = ';' ∨ c = '\n' then readFrom parameters .none (r.next .always) rest
    else if c = ' ' ∨ c = '\t' then readFrom parameters .none r.close rest
    else readFrom parameters .none (r.add [c]) rest

/-- The pipelines of a script, unless a quote in it is not closed. -/
def pipelines? (parameters : List Text) (script : Text) : Option (List Pipeline) :=
  (readFrom parameters .none {} script).map fun r => r.done.reverse

end Script

end ClassicBasic
