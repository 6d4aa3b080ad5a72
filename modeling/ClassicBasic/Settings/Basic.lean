import ClassicBasic.Program.Options

/-!
# Settings

Everything that a run of the program can be told. The fields are data, so that a settings file, the
environment and the command line can address them by tables of names.
-/

set_option autoImplicit false

namespace ClassicBasic

/-- Settings of the tool that a converted program is handed to. -/
structure ToolSettings where
  command : Text := []
  /-- What the command is called with; nothing stands for the usual arguments. -/
  arguments : Option (List Text) := none
  tokenize : Bool := false
  listWidth : Int := 0
  deleteAscii : Bool := false
  verbosity : Int := 3
  deriving DecidableEq, Repr

/-- All settings, with the values they have unless something is said about them. -/
structure Settings where
  system : Text := "msx"
  input : Text := []
  output : Text := []
  tabLength : Int := 4
  lineStart : Int := 10
  lineStep : Int := 10
  header : Bool := true
  stripSpaces : Bool := false
  capitals : Bool := false
  translate : Bool := false
  printStyle : Text := []
  thenGoto : Text := []
  printReports : Bool := false
  labelReport : Bool := false
  lineReport : Bool := false
  variableReport : Bool := false
  lexerReport : Bool := false
  parserReport : Bool := false
  verbosity : Int := 3
  tool : ToolSettings := {}
  deriving DecidableEq, Repr

inductive TextField
  | system
  | input
  | output
  | printStyle
  | thenGoto
  | command
  deriving DecidableEq, Repr

inductive NumberField
  | tabLength
  | lineStart
  | lineStep
  | verbosity
  | listWidth
  | toolVerbosity
  deriving DecidableEq, Repr

inductive SwitchField
  | header
  | stripSpaces
  | capitals
  | translate
  | printReports
  | labelReport
  | lineReport
  | variableReport
  | lexerReport
  | parserReport
  | tokenize
  | deleteAscii
  deriving DecidableEq, Repr

inductive Field
  | text (f : TextField)
  | number (f : NumberField)
  | switch (f : SwitchField)
  deriving DecidableEq, Repr

namespace Settings

def text (s : Settings) : TextField → Text
  | .system => s.system
  | .input => s.input
  | .output => s.output
  | .printStyle => s.printStyle
  | .thenGoto => s.thenGoto
  | .command => s.tool.command

def setText (s : Settings) (f : TextField) (value : Text) : Settings :=
  match f with
  | .system => { s with system := value }
  | .input => { s with input := value }
  | .output => { s with output := value }
  | .printStyle => { s with printStyle := value }
  | .thenGoto => { s with thenGoto := value }
  | .command => { s with tool := { s.tool with command := value } }

def number (s : Settings) : NumberField → Int
  | .tabLength => s.tabLength
  | .lineStart => s.lineStart
  | .lineStep => s.lineStep
  | .verbosity => s.verbosity
  | .listWidth => s.tool.listWidth
  | .toolVerbosity => s.tool.verbosity

def setNumber (s : Settings) (f : NumberField) (value : Int) : Settings :=
  match f with
  | .tabLength => { s with tabLength := value }
  | .lineStart => { s with lineStart := value }
  | .lineStep => { s with lineStep := value }
  | .verbosity => { s with verbosity := value }
  | .listWidth => { s with tool := { s.tool with listWidth := value } }
  | .toolVerbosity => { s with tool := { s.tool with verbosity := value } }

def switch (s : Settings) : SwitchField → Bool
  | .header => s.header
  | .stripSpaces => s.stripSpaces
  | .capitals => s.capitals
  | .translate => s.translate
  | .printReports => s.printReports
  | .labelReport => s.labelReport
  | .lineReport => s.lineReport
  | .variableReport => s.variableReport
  | .lexerReport => s.lexerReport
  | .parserReport => s.parserReport
  | .tokenize => s.tool.tokenize
  | .deleteAscii => s.tool.deleteAscii

def setSwitch (s : Settings) (f : SwitchField) (value : Bool) : Settings :=
  match f with
  | .header => { s with header := value }
  | .stripSpaces => { s with stripSpaces := value }
  | .capitals => { s with capitals := value }
  | .translate => { s with translate := value }
  | .printReports => { s with printReports := value }
  | .labelReport => { s with labelReport := value }
  | .lineReport => { s with lineReport := value }
  | .variableReport => { s with variableReport := value }
  | .lexerReport => { s with lexerReport := value }
  | .parserReport => { s with parserReport := value }
  | .tokenize => { s with tool := { s.tool with tokenize := value } }
  | .deleteAscii => { s with tool := { s.tool with deleteAscii := value } }

@[simp] theorem text_setText (s : Settings) (f g : TextField) (value : Text) :
    (s.setText f value).text g = if f = g then value else s.text g := by
  cases f <;> cases g <;> rfl

@[simp] theorem number_setNumber (s : Settings) (f g : NumberField) (value : Int) :
    (s.setNumber f value).number g = if f = g then value else s.number g := by
  cases f <;> cases g <;> rfl

@[simp] theorem switch_setSwitch (s : Settings) (f g : SwitchField) (value : Bool) :
    (s.setSwitch f value).switch g = if f = g then value else s.switch g := by
  cases f <;> cases g <;> rfl

def ofBool (b : Bool) : Text := if b then "true" else "false"

def value (s : Settings) : Field → Text
  | .text f => s.text f
  | .number f => Text.ofInt (s.number f)
  | .switch f => ofBool (s.switch f)

def options (s : Settings) : Options :=
  { scale := { start := s.lineStart, step := s.lineStep }
    header := s.header
    stripSpaces := s.stripSpaces
    capitals := s.capitals
    translate := s.translate
    labelReport := s.labelReport
    printStyle := s.printStyle
    thenGoto := s.thenGoto }

def encoding (s : Settings) : Text := if s.translate then "utf-8" else "latin1"

end Settings

end ClassicBasic
