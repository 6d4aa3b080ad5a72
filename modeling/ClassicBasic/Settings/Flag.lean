import ClassicBasic.Classic.Dignify
import ClassicBasic.Settings.Basic

/-!
# Flags

Settings on a command line. `--name=value` and `--name value` set a flag, `-v5`, `-v=5` and `-v 5`
one with a letter; a flag with an implied value takes another one only behind a sign of equality.
Two dashes alone end the flags, and what is no flag stays behind in order.
-/

set_option autoImplicit false

namespace ClassicBasic

structure Invocation where
  settings : Settings := {}
  /-- How dignified source is laid out. -/
  layout : Dignify.Layout := {}
  indents : Bool := true
  help : Bool := false
  deriving DecidableEq, Repr

namespace Flag

inductive Target
  | field (f : Field)
  /-- The switch is off when the flag is true. -/
  | off (f : SwitchField)
  | keepCase
  | split
  | blankLine
  | indents
  | help
  deriving DecidableEq, Repr

end Flag

structure Flag where
  name : Text
  letter : Option Char := none
  target : Flag.Target
  /-- The value of the flag when none is given. -/
  implied : Option Text := none
  deriving DecidableEq, Repr

namespace Flag

def valued (name : Text) (f : Field) : Flag := { name, target := .field f }

def switch (name : Text) (target : Target) : Flag := { name, target, implied := some "true" }

def setting (name : Text) (f : SwitchField) : Flag := switch name (.field (.switch f))

def common : List Flag :=
  [valued "id" (.text .system),
    valued "tl" (.number .tabLength),
    valued "ls" (.number .lineStart),
    valued "lp" (.number .lineStep),
    switch "rh" (.off .header),
    setting "ss" .stripSpaces,
    setting "ca" .capitals,
    setting "tr" .translate,
    valued "cp" (.text .printStyle),
    valued "tg" (.text .thenGoto),
    { valued "vb" (.number .verbosity) with letter := some 'v' },
    setting "prr" .printReports,
    setting "lbr" .labelReport,
    setting "lnr" .lineReport,
    setting "var" .variableReport,
    setting "lex" .lexerReport,
    setting "par" .parserReport,
    valued "tokenizer" (.text .command),
    setting "tk_tokenize" .tokenize,
    { valued "tk_list" (.number .listWidth) with implied := some "16" },
    setting "tk_del_ascii" .deleteAscii,
    valued "tk_verbose" (.number .toolVerbosity)]

def help : Flag := { switch "help" .help with letter := some 'h' }

def layout : List Flag :=
  [switch "kc" .keepCase, switch "sc" .split, switch "bl" .blankLine, switch "in" .indents]

def title (f : Flag) : Text :=
  match f.letter with
  | some c => '-' :: c :: ", --" ++ f.name
  | none => "--" ++ f.name

end Flag

namespace Invocation

def setSwitch (i : Invocation) (target : Flag.Target) (b : Bool) : Invocation :=
  match target with
  | .field (.switch f) => { i with settings := i.settings.setSwitch f b }
  | .field _ => i
  | .off f => { i with settings := i.settings.setSwitch f (!b) }
  | .keepCase => { i with layout := { i.layout with keepCase := b } }
  | .split => { i with layout := { i.layout with split := b } }
  | .blankLine => { i with layout := { i.layout with blankLine := b } }
  | .indents => { i with indents := b }
  | .help => { i with help := b }

/-- The word that was set nearest to a numeral outside the range of words. -/
def nearestWord (value : Text) : Int :=
  if (Text.splitSign value).1 then -(Word.half : Int) else Word.half - 1

def notNumber (value : Text) (fault : Text.NumeralFault) : Text :=
  "strconv.ParseInt: parsing " ++ Text.quoted value ++ ": " ++ fault.message

/-- What is said of a value that is neither true nor false. -/
def notSwitch (value : Text) : Text :=
  "strconv.ParseBool: parsing " ++ Text.quoted value ++ ": " ++
    Text.NumeralFault.malformed.message

/-- Gives a flag a value, or tells why it cannot have it. A value that cannot be read leaves zero,
or the nearest word; a switch is then off, and one that a flag turns off stays. -/
def assign (i : Invocation) (target : Flag.Target) (value : Text) : Invocation × Option Text :=
  match target with
  | .field (.text f) => ({ i with settings := i.settings.setText f value }, none)
  | .field (.number f) =>
    match Text.readAnyInt value with
    | .ok n => ({ i with settings := i.settings.setNumber f n }, none)
    | .error .malformed =>
      ({ i with settings := i.settings.setNumber f 0 }, some (notNumber value .malformed))
    | .error .outOfRange =>
      ({ i with settings := i.settings.setNumber f (nearestWord value) },
        some (notNumber value .outOfRange))
  | .off f =>
    match Text.readBool value with
    | some b => (i.setSwitch (.off f) b, none)
    | none => (i, some (notSwitch value))
  | target =>
    match Text.readBool value with
    | some b => (i.setSwitch target b, none)
    | none => (i.setSwitch target false, some (notSwitch value))

def value (i : Invocation) : Flag.Target → Text
  | .field f => i.settings.value f
  | .off f => Settings.ofBool (!i.settings.switch f)
  | .keepCase => Settings.ofBool i.layout.keepCase
  | .split => Settings.ofBool i.layout.split
  | .blankLine => Settings.ofBool i.layout.blankLine
  | .indents => Settings.ofBool i.indents
  | .help => Settings.ofBool i.help

end Invocation

inductive FlagFault
  | badSyntax (word : Text)
  | unknown (name : Text)
  | unknownLetter (letter : Char) (letters : Text)
  | needsValue (word : Text)
  | letterNeedsValue (letter : Char) (letters : Text)
  | invalid (value title reason : Text)
  | helpAsked
  deriving DecidableEq, Repr

namespace FlagFault

def escaped (c : Char) : Text :=
  if c.toNat = 39 then "\\'" else if c = '"' then [c] else Text.escape c

def quotedChar (c : Char) : Text := "'" ++ escaped c ++ "'"

def message : FlagFault → Text
  | .badSyntax word => "bad flag syntax: " ++ word
  | .unknown name => "unknown flag: --" ++ name
  | .unknownLetter c letters => "unknown shorthand flag: " ++ quotedChar c ++ " in -" ++ letters
  | .needsValue word => "flag needs an argument: " ++ word
  | .letterNeedsValue c letters =>
    "flag needs an argument: " ++ quotedChar c ++ " in -" ++ letters
  | .invalid value title reason =>
    "invalid argument " ++ Text.quoted value ++ " for " ++ Text.quoted title ++ " flag: " ++ reason
  | .helpAsked => "pflag: help requested"

end FlagFault

namespace CommandLine

structure State where
  invocation : Invocation
  /-- The words that are no flags. -/
  words : List Text := []
  /-- The flags given. -/
  given : List Flag := []
  deriving DecidableEq, Repr

def State.give (s : State) (f : Flag) (value : Text) : State × Option FlagFault :=
  match s.invocation.assign f.target value with
  | (i, some reason) => ({ s with invocation := i }, some (.invalid value f.title reason))
  | (i, none) =>
    ({ s with invocation := i, given := if f ∈ s.given then s.given else s.given ++ [f] }, none)

/-- A flag with the value it is given and the words behind it. -/
structure Found where
  flag : Flag
  value : Text
  rest : List Text
  deriving DecidableEq, Repr

/-- Reads `--word`, in front of the words `rest`. -/
def long (flags : List Flag) (word : Text) (rest : List Text) : Except FlagFault Found :=
  let body := word.drop 2
  let name := body.takeWhile (· != '=')
  match body with
  | '-' :: _ | '=' :: _ | [] => .error (.badSyntax word)
  | _ =>
    match flags.find? (·.name == name) with
    | none => .error (if name = "help" then .helpAsked else .unknown name)
    | some flag =>
      match body.drop name.length, flag.implied, rest with
      | _ :: value, _, _ => .ok ⟨flag, value, rest⟩
      | [], some value, _ => .ok ⟨flag, value, rest⟩
      | [], none, value :: more => .ok ⟨flag, value, more⟩
      | [], none, [] => .error (.needsValue word)

/-- The character with the number of the first byte of `c`. -/
def leadChar (c : Char) : Char :=
  match Encoding.utf8Octets [c] with
  | b :: _ => Char.ofNat b.toNat
  | [] => c

/-- Reads the letter `c` in front of the letters `more` and the words `rest`: the flag found, and
the letters still to be read. -/
def short (flags : List Flag) (c : Char) (more : Text) (rest : List Text) :
    Except FlagFault (Found × Text) :=
  match flags.find? (·.letter == some c) with
  | none => .error (if c = 'h' then .helpAsked else .unknownLetter (leadChar c) (c :: more))
  | some flag =>
    match more, flag.implied, rest with
    | '=' :: d :: value, _, _ => .ok (⟨flag, d :: value, rest⟩, [])
    | _, some value, _ => .ok (⟨flag, value, rest⟩, more)
    | d :: value, none, _ => .ok (⟨flag, d :: value, rest⟩, [])
    | [], none, value :: left => .ok (⟨flag, value, left⟩, [])
    | [], none, [] => .error (.letterNeedsValue c [c])

/-- Reads letters in front of the words `rest`: the words behind them. -/
def shorts (flags : List Flag) (s : State) (rest : List Text) (fuel : Nat) (letters : Text) :
    State × Except FlagFault (List Text) :=
  match fuel, letters with
  | 0, _ | _, [] => (s, .ok rest)
  | fuel + 1, c :: more =>
    if ("test.".toList).isPrefixOf (c :: more) then (s, .ok rest)
    else
      match short flags c more rest with
      | .error e => (s, .error e)
      | .ok (found, left) =>
        match s.give found.flag found.value with
        | (s, some fault) => (s, .error fault)
        | (s, none) => shorts flags s found.rest fuel left

/-- Reads one word that starts with a dash, in front of the words `rest`. -/
def flagWord (flags : List Flag) (s : State) (word : Text) (rest : List Text) :
    State × Except FlagFault (List Text) :=
  match word with
  | '-' :: '-' :: _ =>
    match long flags word rest with
    | .error e => (s, .error e)
    | .ok found =>
      match s.give found.flag found.value with
      | (s, some fault) => (s, .error fault)
      | (s, none) => (s, .ok found.rest)
  | _ => shorts flags s rest word.length (word.drop 1)

def isPlain : Text → Bool
  | '-' :: _ :: _ => false
  | _ => true

def readFrom (flags : List Flag) : Nat → State → List Text → State × Option FlagFault
  | 0, s, _ => (s, none)
  | _ + 1, s, [] => (s, none)
  | fuel + 1, s, word :: rest =>
    if isPlain word then readFrom flags fuel { s with words := s.words ++ [word] } rest
    else if word = "--" then ({ s with words := s.words ++ rest }, none)
    else
      match flagWord flags s word rest with
      | (s, .error e) => (s, some e)
      | (s, .ok left) => readFrom flags fuel s left

/-- Reads a command line; what was set before a fault stays. -/
def read (flags : List Flag) (i : Invocation) (words : List Text) : State × Option FlagFault :=
  readFrom flags (words.length + 1) { invocation := i } words

def State.changes (s : State) : List Text :=
  s.given.map fun f => f.name ++ "=" ++ s.invocation.value f.target

end CommandLine

end ClassicBasic
