import ClassicBasic.Command.Convert
import ClassicBasic.Command.Name
import ClassicBasic.Command.Reverse
import ClassicBasic.Settings.Load
import ClassicBasic.Yaml.Bytes

/-!
# Running a command line

Everything that the program does, as a function of its command line, the environment and the files.
-/

set_option autoImplicit false

namespace ClassicBasic

namespace Execute

def usage : Text :=
  "Converts programs written with labels, long variable names, defines and structured blocks\n" ++
  "into classic line-numbered Basic.\n\n" ++
  "Usage:\n" ++
  "  badig [input] [output]\n" ++
  "  badig reverse input [output]\n" ++
  "  badig remtags\n" ++
  "  badig init\n"

def init (file : Text) (s : Settings) : Work Unit :=
  match s.fault? with
  | some reason => throw (.refused reason)
  | none => do
    match (← Work.files).write file (Encoding.utf8Octets (SettingsFile.write s.normalised)) with
    | .error e => throw (.refused (Files.writeReason file e))
    | .ok written =>
      Work.setFiles written
      Work.print ("Settings saved: " ++ file ++ "\n")

/-- The settings with the words of the command line as input and output. -/
def withWords (i : Invocation) (words : List Text) : Invocation :=
  let s := i.settings
  { i with settings :=
      { s with input := words.headD s.input, output := words.tail.headD s.output } }

def perform (file : Text) (name : CommandName) (i : Invocation) (words : List Text) : Work Unit :=
  match name with
  | .convert =>
    let i := withWords i words
    if i.settings.input = [] then Work.print usage else Convert.run name.flags i
  | .reverse => Reverse.run i (words.headD []) (words.tail.headD [])
  | .remtags => Work.print Tag.explanation
  | .init => init file i.settings
  | .help => Work.print usage

def commandLine (file : Text) (s : Settings) (words : List Text) : Work Unit :=
  let found := CommandName.find words
  match CommandLine.read found.1.flags { settings := s } found.2 with
  | (_, some fault) => throw (.refused fault.message)
  | (read, none) =>
    if read.invocation.help then Work.print usage
    else
      match found.1.wordsFault? read.words with
      | some reason => throw (.refused reason)
      | none => perform file found.1 read.invocation read.words

def fileVariable : Text := "BADIG_CONFIG"

def settingsFile (env : Environment) : Text :=
  match env.lookup fileVariable with
  | some (c :: rest) => c :: rest
  | _ => SettingsFile.defaultName

/-- The text of the settings file, if there is one. Bytes that are no text are no settings. -/
def settingsText (files : Files) (path : Text) : Except SettingsFault (Option Text) :=
  match files.read path with
  | .error .missing => .ok none
  | .error e => .error (.unreadable path (Files.readReason path e))
  | .ok bytes =>
    match Yaml.text? bytes with
    | some text => .ok (some text)
    | none => .error (.notSettings path)

def settings (env : Environment) (files : Files) : Except SettingsFault Settings :=
  let path := settingsFile env
  match settingsText files path with
  | .error fault => .error fault
  | .ok text =>
    match Settings.load path text env with
    | (_, some fault) => .error fault
    | (s, none) => .ok s

end Execute

structure Finished where
  files : Files
  /-- What was printed. -/
  output : Text := []
  /-- What was told as an error. -/
  complaint : Option Text := none
  succeeded : Bool
  deriving DecidableEq, Repr

def execute (env : Environment) (files : Files) (words : List Text) : Finished :=
  match Execute.settings env files with
  | .error fault => { files, complaint := some fault.message, succeeded := false }
  | .ok s =>
    match (Execute.commandLine (Execute.settingsFile env) s words).run { files } with
    | .ok _ d => { files := d.files, output := d.output, succeeded := true }
    | .error .reported d => { files := d.files, output := d.output, succeeded := false }
    | .error (.refused message) d =>
      { files := d.files, output := d.output, complaint := some message, succeeded := false }

end ClassicBasic
