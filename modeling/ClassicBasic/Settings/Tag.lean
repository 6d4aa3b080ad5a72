import ClassicBasic.Settings.Basic
import ClassicBasic.Dialect.Grammar

/-!
# Settings inside a program

A line `##BB:NAME=value` of a program is a tag that changes a setting. Tags are read before the
program is converted.
-/

set_option autoImplicit false

namespace ClassicBasic

structure Tag where
  name : Text
  value : Text
  pos : Position
  deriving DecidableEq, Repr

namespace Tag

inductive Purpose
  | exportFile
  | arguments
  | help
  | switch (f : SwitchField)
  | number (f : NumberField)
  deriving DecidableEq, Repr

/-- The tags that are understood, with what they do and how that is explained. -/
def known : List (Text × Purpose × Text) :=
  [("EXPORT_FILE", .exportFile, "path of the converted file"),
    ("ARGUMENTS", .arguments, "command line arguments, as typed after badig"),
    ("HELP", .help, "print this list and stop"),
    ("TK_TOKENIZE", .switch .tokenize, "tokenize the converted file (true/false)"),
    ("TK_LIST", .number .listWidth, "save a list file of the given width (0 to 32)"),
    ("TK_DEL_ASCII", .switch .deleteAscii,
      "delete the ASCII file after tokenizing (true/false)"),
    ("TK_VERBOSE", .number .toolVerbosity, "tokenizer verbosity (0 to 5)")]

def purpose? (name : Text) : Option Purpose := (known.lookup name).map (·.1)

def explained (name meaning : Text) : Text :=
  "  " ++ Text.padTo 14 name ++ " " ++ meaning ++ "\n"

def explanation : Text :=
  "Remtags, written as ##BB:NAME=value on their own line:\n" ++
    known.flatMap fun e => explained e.1 e.2.2

def isLead (c : Char) : Bool :=
  c == ' ' || c == '\t' || c == '\n' || c == '\r' || c.toNat == 0x0C

/-- The name and the value of the tag that a line is, as written. -/
def split? (line : Text) : Option (Text × Text) :=
  let text := line.dropWhile isLead
  let mark : Text := "##BB:"
  let rest := text.drop mark.length
  let name := rest.takeWhile Grammar.isNameChar
  if Text.sameLetters (text.take mark.length) mark ∧ name ≠ [] then
    match rest.drop name.length with
    | '=' :: value => some (name, value)
    | _ => none
  else none

/-- The tags of a listing, and warnings about those that are not understood. -/
def readAll : Listing → List Tag × List Record
  | [] => ([], [])
  | l :: rest =>
    let more := readAll rest
    match split? l.text with
    | none => more
    | some (written, value) =>
      let name := Text.upper written
      let pos := Position.onLine l.number 1 l.text l.file
      if (purpose? name).isSome then
        ({ name, value := Text.trimBlank value, pos } :: more.1, more.2)
      else
        (more.1, { severity := Severity.warning
                   message := "Remtag not available: " ++ name
                   pos := some pos } :: more.2)

inductive Fault
  | notSwitch (t : Tag)
  | notNumber (t : Tag)
  | notHandled (t : Tag)
  deriving DecidableEq, Repr

namespace Fault

/-- What is wrong, without the place. -/
def reason : Fault → Text
  | .notSwitch t => "Remtag must be true or false: " ++ t.name ++ " = " ++ t.value
  | .notNumber t => "Remtag must be a number: " ++ t.name ++ " = " ++ t.value
  | .notHandled t => "remtag " ++ t.name ++ " not handled"

/-- Where the tag is; a tag that is not understood has no place. -/
def position? : Fault → Option Position
  | .notSwitch t | .notNumber t => some t.pos
  | .notHandled _ => none

def message (f : Fault) : Text :=
  match f.position? with
  | some pos => pos.tell f.reason
  | none => f.reason

end Fault

/-- The words of a command line. A single dash in front of a longer name stands for two. -/
def argumentWords (value : Text) : List Text :=
  (Text.fields value).map fun word =>
    match word with
    | '-' :: c :: _ => if c ≠ '-' ∧ 2 < Text.byteCount word then '-' :: word else word
    | _ => word

def switchValue? (t : Tag) : Option Bool :=
  let word := Text.lower t.value
  if word = "true" then some true else if word = "false" then some false else none

structure Applied where
  settings : Settings
  /-- Words for the command line. -/
  arguments : List Text := []
  /-- Whether the tags are to be explained. -/
  help : Bool := false
  deriving DecidableEq, Repr

/-- Applies one tag. A switch or number that cannot be read leaves off or zero. -/
def apply (a : Applied) (t : Tag) : Applied × Option Fault :=
  match purpose? t.name with
  | none => (a, some (.notHandled t))
  | some .exportFile => ({ a with settings := { a.settings with output := t.value } }, none)
  | some .arguments => ({ a with arguments := a.arguments ++ argumentWords t.value }, none)
  | some .help =>
    match t.switchValue? with
    | some b => ({ a with help := b }, none)
    | none => ({ a with help := false }, some (.notSwitch t))
  | some (.switch f) =>
    match t.switchValue? with
    | some b => ({ a with settings := a.settings.setSwitch f b }, none)
    | none => ({ a with settings := a.settings.setSwitch f false }, some (.notSwitch t))
  | some (.number f) =>
    match Text.readInt t.value with
    | .ok n => ({ a with settings := a.settings.setNumber f n }, none)
    | .error _ => ({ a with settings := a.settings.setNumber f 0 }, some (.notNumber t))

def applyAll : Applied → List Tag → Applied × Option Fault
  | a, [] => (a, none)
  | a, t :: rest =>
    match apply a t with
    | (a, some fault) => (a, some fault)
    | (a, none) => applyAll a rest

end Tag

end ClassicBasic
