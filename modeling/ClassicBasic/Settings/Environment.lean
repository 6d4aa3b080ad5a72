import ClassicBasic.Settings.Basic

/-!
# Settings from the environment

A variable of the environment replaces the value of its setting; texts come first, then numbers,
then switches.
-/

set_option autoImplicit false

namespace ClassicBasic

abbrev Environment := List (Text × Text)

namespace Environment

def texts : List (Text × TextField) :=
  [("BADIG_SYSTEM_ID", .system), ("BADIG_CONVERT_PRINT", .printStyle),
    ("BADIG_STRIP_THEN_GOTO", .thenGoto), ("BADIG_TOKENIZER", .command)]

def numbers : List (Text × NumberField) :=
  [("BADIG_TAB_LENGTH", .tabLength), ("BADIG_LINE_START", .lineStart),
    ("BADIG_LINE_STEP", .lineStep), ("BADIG_VERBOSE_LEVEL", .verbosity)]

def switches : List (Text × SwitchField) :=
  [("BADIG_REM_HEADER", .header), ("BADIG_STRIP_SPACES", .stripSpaces),
    ("BADIG_CAPITALIZE_ALL", .capitals), ("BADIG_TRANSLATE", .translate)]

inductive Fault
  | notNumber (name value : Text) (fault : Text.NumeralFault)
  | notSwitch (name value : Text)
  deriving DecidableEq, Repr

def Fault.message : Fault → Text
  | .notNumber name value fault =>
    name ++ " must be a number: strconv.Atoi: parsing " ++ Text.quoted value ++ ": " ++
      fault.message
  | .notSwitch name value =>
    name ++ " must be true or false: strconv.ParseBool: parsing " ++ Text.quoted value ++ ": " ++
      Text.NumeralFault.malformed.message

/-- Settings with a fault that may have been met on the way. -/
abbrev Applied := Settings × Option Fault

def applyTexts (env : Environment) (s : Settings) : Settings :=
  texts.foldl (fun s e =>
    match env.lookup e.1 with
    | some value => s.setText e.2 value
    | none => s) s

/-- Applies variables that hold numbers up to the first fault. -/
def applyNumbers (env : Environment) : List (Text × NumberField) → Settings → Applied
  | [], s => (s, none)
  | (name, field) :: rest, s =>
    match env.lookup name with
    | none => applyNumbers env rest s
    | some value =>
      match Text.readInt value with
      | .ok n => applyNumbers env rest (s.setNumber field n)
      | .error fault => (s, some (.notNumber name value fault))

/-- Applies variables that are on or off up to the first fault. -/
def applySwitches (env : Environment) : List (Text × SwitchField) → Settings → Applied
  | [], s => (s, none)
  | (name, field) :: rest, s =>
    match env.lookup name with
    | none => applySwitches env rest s
    | some value =>
      match Text.readBool value with
      | some b => applySwitches env rest (s.setSwitch field b)
      | none => (s, some (.notSwitch name value))

/-- The settings under the environment; what was set before a fault stays. -/
def apply (env : Environment) (s : Settings) : Applied :=
  match applyNumbers env numbers (applyTexts env s) with
  | (s, some fault) => (s, some fault)
  | (s, none) => applySwitches env switches s

end Environment

end ClassicBasic
