import ClassicBasic.Settings.Basic

/-!
# Which settings are valid

Each setting is checked on its own; all faults are told at once, in the order of the settings.
-/

set_option autoImplicit false

namespace ClassicBasic

namespace Settings

structure Fault where
  /-- Where the setting is. -/
  place : Text
  value : Text
  /-- The rule that the value breaks, and what the rule asks for. -/
  rule : Text
  bound : Text
  deriving DecidableEq, Repr

def Fault.message (f : Fault) : Text :=
  f.place ++ ": invalid value " ++ f.value ++ " (" ++ f.rule ++ " " ++ f.bound ++ ")"

def outside (place : Text) (lo hi n : Int) : Option Fault :=
  if n < lo then some ⟨place, Text.ofInt n, "min", Text.ofInt lo⟩
  else if hi < n then some ⟨place, Text.ofInt n, "max", Text.ofInt hi⟩
  else none

/-- The fault of a text that is neither empty nor one of the choices. -/
def notOneOf (place : Text) (choices : List Text) (t : Text) : Option Fault :=
  if t = [] ∨ t ∈ choices then none
  else some ⟨place, t, "oneof", Text.joinWith " ".toList choices⟩

def faults (s : Settings) : List Fault :=
  [if s.system = [] then some ⟨"Settings.SystemID", [], "required", []⟩ else none,
    outside "Settings.TabLength" 0 16 s.tabLength,
    outside "Settings.LineStart" 0 65529 s.lineStart,
    outside "Settings.LineStep" 1 65529 s.lineStep,
    notOneOf "Settings.ConvertPrint" ["?", "p"] s.printStyle,
    notOneOf "Settings.StripThenGoto" ["t", "g"] s.thenGoto,
    outside "Settings.Verbosity" 0 5 s.verbosity,
    outside "Settings.Tokenizer.List" 0 32 s.tool.listWidth,
    outside "Settings.Tokenizer.Verbose" 0 5 s.tool.verbosity].filterMap id

/-- The settings with their choices in lower case, which is how they are checked. -/
def normalised (s : Settings) : Settings :=
  { s with printStyle := Text.lower s.printStyle, thenGoto := Text.lower s.thenGoto }

/-- What is wrong with the settings, if anything. -/
def fault? (s : Settings) : Option Text :=
  match s.normalised.faults with
  | [] => none
  | faults => some (Text.joinWith "; ".toList (faults.map Fault.message))

end Settings

end ClassicBasic
