import ClassicBasic.Handoff.Filter

/-!
# Running small scripts

The commands of a script run one after the other. Each says something on its streams, which go to
files, to the next command or into what the script says; all of that is collected in order.
-/

set_option autoImplicit false

namespace ClassicBasic.Shell

open Script (Command Pipeline Stream Target)

/-- Whether a word is an option of the command that says its words. -/
def isEchoOption : Text → Bool
  | '-' :: c :: rest => (c :: rest).all fun d => d == 'n' || d == 'e' || d == 'E'
  | _ => false

/-- What is said, with a line end unless it is the last that is said or the line stays open. -/
def endLine (saying : Format.Saying) (keepOpen : Bool) : Octets :=
  saying.octets ++ if saying.last || keepOpen then [] else [10]

/-- What the command says that says its words, and replaces escapes when asked to. -/
def echo (words : List Text) : Octets :=
  let options := words.takeWhile isEchoOption
  let text := Text.joinWith [' '] (words.drop options.length)
  let letters := options.flatten.filter fun c => c == 'e' || c == 'E'
  endLine
    (if letters.getLast? = some 'e' then Format.unescape Format.longEscape? text
      else { octets := Encoding.utf8Octets text })
    (options.any (·.contains 'n'))

/-- The same inside a script, where escapes are always replaced. -/
def scriptEcho (words : List Text) : Octets :=
  let quiet := words.head? = some ['-', 'n']
  endLine
    (Format.unescape Format.wordEscape?
      (Text.joinWith [' '] (if quiet then words.tail else words)))
    quiet

/-- What the name of the script and the place in it are in front of a complaint of its own. -/
def ownComplaint (complaint : Text) : Text := "sh: 1: " ++ complaint

/-- Says values in a format; complaints come first. -/
def printFormat (files : Files) : List Text → Effect
  | [] => complain files (ownComplaint "printf: usage: printf format [arg ...]") 2
  | pattern :: values =>
    let p := Format.render pattern values
    { files
      spoken := p.complaints.map (fun c => complaintLine (ownComplaint ("printf: " ++ c))) ++
        [(.output, p.said)]
      code := p.code }

/-- Whether a word is an option that passes over files that do not exist. -/
def isForce (word : Text) : Bool := ['-'].isPrefixOf word && word.contains 'f'

/-- Copies a file, and removes it afterwards when it is to be moved. -/
def copy (files : Files) (name : Text) (moves : Bool) (words : List Text) : Effect :=
  match operands words with
  | [source, destination] =>
    match contents files source with
    | .error e => complain files (name ++ ": cannot stat " ++ unusable (inQuotes source) e) 1
    | .ok bytes =>
      let target :=
        if files.isFolder (PathName.absolute files.home destination) then
          PathName.join [destination, PathName.base source]
        else destination
      match files.write target bytes with
      | .error e =>
        complain files (name ++ ": cannot create regular file " ++ unusable (inQuotes target) e) 1
      | .ok written =>
        { files := if moves then (written.remove source).toOption.getD written else written }
  | _ => complain files (name ++ ": missing file operand") 1

/-- Removes files; with `force` those that do not exist are passed over. -/
def remove (force : Bool) (files : Files) : List Text → Effect
  | [] => { files }
  | path :: rest =>
    match files.remove path with
    | .ok left => remove force left rest
    | .error e =>
      let more := remove force files rest
      if force ∧ e = .missing then more
      else
        let complaint := complaintLine ("rm: cannot remove " ++ unusable (inQuotes path) e)
        { more with spoken := complaint :: more.spoken, code := 1 }

def touch (files : Files) : List Text → Effect
  | [] => { files }
  | path :: rest =>
    match contents files path, files.write path [] with
    | .error .missing, .ok written => touch written rest
    | .error .missing, .error e =>
      complain files ("touch: cannot touch " ++ unusable (inQuotes path) e) 1
    | _, _ => touch files rest

/-- Says the numbers from `first` on, `n` of them in steps, on lines of their own. -/
def countUp (first step : Int) : Nat → Octets
  | 0 => []
  | n + 1 => Encoding.utf8Octets (Text.ofInt first ++ "\n") ++ countUp (first + step) step n

/-- Says the numbers up to a last one, from one or from a first one. -/
def sequence (files : Files) (words : List Text) : Effect :=
  let numbers := words.filterMap fun w => (Text.readInt w).toOption
  match numbers with
  | [last] => say files (countUp 1 1 last.toNat)
  | [first, last] => say files (countUp first 1 (last - first + 1).toNat)
  | [first, step, last] => say files (countUp first step ((last - first) / step + 1).toNat)
  | _ => complain files "seq: missing operand" 1

/-- Whether a condition on one word holds, if there is such a condition. -/
def holdsOf? (files : Files) (condition word : Text) : Option Bool :=
  let folder := files.isFolder (PathName.absolute files.home word)
  match condition with
  | ['-', 'n'] => some (word != [])
  | ['-', 'z'] => some (word == [])
  | ['-', 'd'] => some folder
  | ['-', 'f'] => some (files.read word).toBool
  | ['-', 's'] => some ((files.read word).toOption.any (· != []))
  | ['-', 'e'] => some (folder || (contents files word).toBool)
  | _ => none

/-- Whether a relation between two words holds, if there is such a relation. -/
def relates? (a relation b : Text) : Option Bool :=
  let number (t : Text) := (Text.readInt t).toOption.getD 0
  if relation = "=" then some (a == b)
  else if relation = "!=" then some (a != b)
  else if relation = "-eq" then some (number a == number b)
  else if relation = "-ne" then some (number a != number b)
  else if relation = "-lt" then some (number a < number b)
  else if relation = "-le" then some (number a ≤ number b)
  else if relation = "-gt" then some (number b < number a)
  else if relation = "-ge" then some (number b ≤ number a)
  else none

/-- Whether the condition that words make holds, if they make one. -/
def holds? (files : Files) : List Text → Option Bool
  | [] => some false
  | ['!'] :: rest => (holds? files rest).map (!·)
  | [word] => some (word != [])
  | [condition, word] => holdsOf? files condition word
  | [a, relation, b] => relates? a relation b
  | _ => none

def answer (files : Files) (words : List Text) : Effect :=
  match holds? files words with
  | some true => { files }
  | some false => { files, code := 1 }
  | none => { files, code := 2 }

/-- Runs a simple command that reads `input`; `last` is how the one before it ended. -/
def simple (files : Files) (last : Int) (input : Octets) : List Text → Effect
  | [] => { files }
  | name :: words =>
    if name = "echo" then say files (scriptEcho words)
    else if name = "printf" then printFormat files words
    else if name = "true" ∨ name = ":" then { files }
    else if name = "false" then { files, code := 1 }
    else if name = "test" then answer files words
    else if name = "[" then answer files words.dropLast
    else if name = "cat" then cat files input words
    else if name = "head" then head files input words
    else if name = "tr" then transliterate files input words
    else if name = "seq" then sequence files words
    else if name = "cp" then copy files name false words
    else if name = "mv" then copy files name true words
    else if name = "rm" then remove (words.any isForce) files (operands words)
    else if name = "touch" then touch files (operands words)
    else if name = "kill" ∧ words.getLast? = some Script.ownNumber then
      { files, code := -1, final := true }
    else if name = "exit" then
      match words with
      | code :: _ => { files, code := (Text.readInt code).toOption.getD 2 % 256, final := true }
      | [] => { files, code := last, final := true }
    else complain files (ownComplaint (name ++ ": not found")) 127

inductive Destination
  | collected
  | piped
  | file (path : Text)
  deriving DecidableEq, Repr

structure Routing where
  input : Octets
  output : Destination
  errors : Destination := .collected
  deriving DecidableEq, Repr

def Routing.of (r : Routing) : Stream → Destination
  | .errors => r.errors
  | _ => r.output

def Routing.send (r : Routing) (s : Stream) (destination : Destination) : Routing :=
  match s with
  | .errors => { r with errors := destination }
  | _ => { r with output := destination }

/-- Opens the files that the streams of a command are found in, or tells why one cannot be. -/
def openAll (files : Files) (r : Routing) :
    List (Stream × Target) → Except Text (Files × Routing)
  | [] => .ok (files, r)
  | (s, .stream other) :: rest => openAll files (r.send s (r.of other)) rest
  | (.input, .file _ path) :: rest =>
    match contents files path with
    | .ok input => openAll files { r with input } rest
    | .error _ => .error (ownComplaint ("cannot open " ++ path ++ ": No such file"))
  | (s, .file append path) :: rest =>
    if path = nowhere then openAll files (r.send s (.file path)) rest
    else
      match files.write path (if append then (files.read path).toOption.getD [] else []) with
      | .ok opened => openAll opened (r.send s (.file path)) rest
      | .error .isFolder =>
        .error (ownComplaint ("cannot create " ++ path ++ ": Is a directory"))
      | .error _ => .error (ownComplaint ("cannot create " ++ path ++ ": Directory nonexistent"))

/-- Adds octets to a file, if there is one to add to. -/
def addTo (files : Files) (path : Text) (bytes : Octets) : Files :=
  if path = nowhere then files
  else
    match files.read path with
    | .ok old => (files.write path (old ++ bytes)).toOption.getD files
    | .error _ => files

structure Outcome where
  files : Files
  said : Octets := []
  /-- What the next command reads. -/
  piped : Octets := []
  code : Int := 0
  final : Bool := false
  deriving DecidableEq, Repr

def deliver (r : Routing) (files : Files) : List (Stream × Octets) → Outcome
  | [] => { files }
  | (s, octets) :: rest =>
    match r.of s with
    | .collected =>
      let more := deliver r files rest
      { more with said := octets ++ more.said }
    | .piped =>
      let more := deliver r files rest
      { more with piped := octets ++ more.piped }
    | .file path => deliver r (addTo files path octets) rest

/-- Runs a command with its streams sent to where they go. -/
def runCommand (files : Files) (last : Int) (r : Routing) (c : Command) : Outcome :=
  match openAll files r c.sends with
  | .error complaint => { files, said := (complaintLine complaint).2, code := 2 }
  | .ok (opened, routing) =>
    let e := simple opened last routing.input c.words
    { deliver routing e.files e.spoken with code := e.code, final := e.final }

/-- Runs commands of which each reads what the one in front of it says, the first one `input`. -/
def runCommands (files : Files) (last : Int) (input : Octets) : List Command → Outcome
  | [] => { files, code := last }
  | [c] => runCommand files last { input, output := .collected } c
  | c :: rest =>
    let first := runCommand files last { input, output := .piped } c
    let more := runCommands first.files last first.piped rest
    { more with said := first.said ++ more.said, final := false }

/-- Whether a pipeline runs after one that ended with `last`. -/
def runs (joint : Script.Joint) (last : Int) : Bool :=
  match joint with
  | .always => true
  | .onSuccess => last == 0
  | .onFailure => last != 0

def runAll (files : Files) (last : Int) : List Pipeline → Outcome
  | [] => { files, code := last }
  | p :: rest =>
    if runs p.joint last && p.commands != [{}] then
      let first := runCommands files last [] p.commands
      if first.final then first
      else
        let more := runAll first.files first.code rest
        { more with said := first.said ++ more.said }
    else runAll files last rest

def runScript (files : Files) (parameters : List Text) (script : Text) : Outcome :=
  match Script.pipelines? parameters script with
  | some pipelines => runAll files 0 pipelines
  | none =>
    let complaint := ownComplaint "Syntax error: Unterminated quoted string"
    { files, said := (complaintLine complaint).2, code := 2 }

def cannotOpen (files : Files) (file : Text) : Outcome :=
  { files
    said := Encoding.utf8Octets ("sh: 0: cannot open " ++ file ++ ": No such file\n")
    code := 2 }

end ClassicBasic.Shell
