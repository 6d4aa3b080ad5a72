import ClassicBasic.Handoff.Job
import ClassicBasic.Handoff.Shell

/-!
# Running a tool

A tool is a command with arguments, in which placeholders stand for the parts of the job. Only
commands that this program can carry out by itself are found.
-/

set_option autoImplicit false

namespace ClassicBasic

inductive Ending
  | exited (code : Int)
  | notStarted (reason : Text)
  deriving DecidableEq, Repr

namespace Tool

def placeholders (job : Job) : List (Text × Text) :=
  [("\x7bascii\x7d", job.ascii), ("\x7bbinary\x7d", job.binary), ("\x7blist\x7d", job.list),
    ("\x7bwidth\x7d", Text.ofInt job.width), ("\x7bverbose\x7d", Text.ofInt job.verbosity)]

/-- Replaces placeholders; `skip` characters belong to the one just replaced. -/
def fillFrom (table : List (Text × Text)) (skip : Nat) : Text → Text
  | [] => []
  | c :: rest =>
    match skip with
    | n + 1 => fillFrom table n rest
    | 0 =>
      match table.find? fun e => e.1.isPrefixOf (c :: rest) with
      | some e => e.2 ++ fillFrom table (e.1.length - 1) rest
      | none => c :: fillFrom table 0 rest

def fill (job : Job) (argument : Text) : Text := fillFrom (placeholders job) 0 argument

/-- The arguments of a tool that no others are given for. -/
def usualArguments (job : Job) : List Text :=
  Text.ofStrings <|
    ["\x7bascii\x7d", "\x7bbinary\x7d", "-vb", "\x7bverbose\x7d"] ++
      if 0 < job.width then ["-el", "\x7bwidth\x7d"] else []

def arguments (given : List Text) (job : Job) : List Text :=
  (if given = [] then usualArguments job else given).map (fill job)

structure Ran where
  files : Files
  said : Octets := []
  ending : Ending := .exited 0
  deriving DecidableEq, Repr

def Ran.ofOutcome (o : Shell.Outcome) : Ran := ⟨o.files, o.said, .exited o.code⟩

/-- Carries out a script under the options it is given with. -/
def runShell (files : Files) : List Text → Shell.Outcome
  | [] => { files }
  | [option] =>
    if option = "-c" then
      { files, said := Encoding.utf8Octets "sh: 0: -c requires an argument\n", code := 2 }
    else Shell.cannotOpen files option
  | option :: script :: parameters =>
    if option = "-c" then Shell.runScript files parameters script
    else Shell.cannotOpen files option

def run (files : Files) (command : Text) (arguments : List Text) : Ran :=
  if command = "echo" then { files, said := Shell.echo arguments }
  else if command = "true" then { files }
  else if command = "false" then { files, ending := .exited 1 }
  else if command = "sh" then .ofOutcome (runShell files arguments)
  else if command.contains '/' then
    { files
      ending := .notStarted ("fork/exec " ++ command ++ ": no such file or directory") }
  else
    { files
      ending := .notStarted
        ("exec: " ++ Text.quoted command ++ ": executable file not found in $PATH") }

/-- Whether `c` is left out at the end of a line that a tool says. -/
def isLineEnd (c : Char) : Bool := c == ' ' || c == '\r'

/-- The octets of the first line that is too long to be read. -/
def tooLong : Nat := 65536

/-- The lines of what a tool says, without empty ones. Reading ends at a line that is too long. -/
def spokenLines (said : Octets) : List Text :=
  let lines := (Text.splitAt 10 said).takeWhile fun line => line.length < tooLong
  (lines.map fun line => Text.trimEnd isLineEnd (Encoding.shown line)).filter (· != [])

/-- Why a tool failed, if it did. -/
def failure? : Ending → Option Text
  | .exited code =>
    if code = 0 then none else some ("tokenizer exited with code " ++ Text.ofInt code)
  | .notStarted reason => some ("tokenizer: " ++ reason)

/-- What came of the tool `command` on a job, and the files it leaves. -/
def tokenize (command : Text) (given : List Text) (job : Job) (files : Files) :
    Files × ToolResult :=
  if command = [] then (files, { lines := [], failure := some "tokenizer not configured" })
  else
    let ran := run files command (arguments given job)
    (ran.files, { lines := spokenLines ran.said, failure := failure? ran.ending })

end Tool

end ClassicBasic
