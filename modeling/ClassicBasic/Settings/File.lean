import ClassicBasic.Settings.Environment
import ClassicBasic.Text.Encoding
import ClassicBasic.Yaml.Read
import ClassicBasic.Yaml.Write

/-!
# The settings file

Keys of the file and the settings they stand for. A value of the wrong kind is a fault that leaves
its setting alone; a key given twice leaves the whole mapping alone.
-/

set_option autoImplicit false

namespace ClassicBasic.SettingsFile

/-- Where the settings are, unless the environment says otherwise. -/
def defaultName : Text := "badig.yaml"

/-- Keys with the settings they stand for, in the order in which they are written. -/
def fields : List (Text × Field) :=
  [("system_id", .text .system),
    ("source_file", .text .input),
    ("destin_file", .text .output),
    ("tab_length", .number .tabLength),
    ("line_start", .number .lineStart),
    ("line_step", .number .lineStep),
    ("rem_header", .switch .header),
    ("strip_spaces", .switch .stripSpaces),
    ("capitalize_all", .switch .capitals),
    ("translate", .switch .translate),
    ("convert_print", .text .printStyle),
    ("strip_then_goto", .text .thenGoto),
    ("print_report", .switch .printReports),
    ("label_report", .switch .labelReport),
    ("line_report", .switch .lineReport),
    ("var_report", .switch .variableReport),
    ("lexer_report", .switch .lexerReport),
    ("parser_report", .switch .parserReport),
    ("verbose_level", .number .verbosity)]

def toolKey : Text := "tokenizer"

def argumentsKey : Text := "args"

def firstToolFields : List (Text × Field) := [("command", .text .command)]

def lastToolFields : List (Text × Field) :=
  [("tokenize", .switch .tokenize),
    ("list", .number .listWidth),
    ("del_ascii", .switch .deleteAscii),
    ("verbose", .number .toolVerbosity)]

def yesWords : List Text := ["y", "Y", "yes", "Yes", "YES", "on", "On", "ON"]

def noWords : List Text := ["n", "N", "no", "No", "NO", "off", "Off", "OFF"]

/-- Settings, and whether everything so far was of the right kind. -/
abbrev Decoded := Settings × Bool

/-- Gives a setting the value that a text of the file stands for. -/
def decodeText (s : Settings) (f : Field) (t : Text) (m : Yaml.Meaning) : Decoded :=
  match f, m with
  | _, .nothing => (s, true)
  | .text f, _ => (s.setText f t, true)
  | .number f, .number (.integer n) => if n < Word.half then (s.setNumber f n, true) else (s, false)
  | .number f, .number (.rounded (some n)) => (s.setNumber f n, true)
  | .switch f, .truth b => (s.setSwitch f b, true)
  | .switch f, .plain =>
    if yesWords.contains t then (s.setSwitch f true, true)
    else if noWords.contains t then (s.setSwitch f false, true)
    else (s, false)
  | _, _ => (s, false)

def decodeField (s : Settings) (f : Field) : Yaml.Node → Decoded
  | .scalar tag quoted t =>
    match Yaml.scalarMeaning? tag quoted t with
    | some m => decodeText s f t m
    | none => (s, false)
  | _ => (s, false)

/-- The texts among the items of a list, and whether all of them were texts or not there. -/
def decodeTexts : List Yaml.Node → List Text × Bool
  | [] => ([], true)
  | .scalar tag quoted t :: rest =>
    let more := decodeTexts rest
    match Yaml.scalarMeaning? tag quoted t with
    | none => (more.1, false)
    | some .nothing => more
    | some _ => (t :: more.1, more.2)
  | _ :: rest => ((decodeTexts rest).1, false)

def isNull : Yaml.Node → Bool
  | .scalar tag quoted t => Yaml.scalarMeaning? tag quoted t == some .nothing
  | _ => false

def decodeArguments (s : Settings) (n : Yaml.Node) : Decoded :=
  match n with
  | .sequence items =>
    let found := decodeTexts items
    ({ s with tool := { s.tool with arguments := some found.1 } }, found.2)
  | n =>
    if isNull n then ({ s with tool := { s.tool with arguments := none } }, true) else (s, false)

/-- Whether two keys are the same: texts by their characters, and all lists and all mappings. -/
def sameKey : Yaml.Node → Yaml.Node → Bool
  | .scalar _ _ t, .scalar _ _ u => t == u
  | .sequence _, .sequence _ => true
  | .mapping _, .mapping _ => true
  | _, _ => false

def keysDiffer : List (Yaml.Node × Yaml.Node) → Bool
  | [] => true
  | e :: rest => !(rest.any fun f => sameKey e.1 f.1) && keysDiffer rest

/-- Applies the entries of a mapping, each by `decode`; a key given twice makes it void. A key that
stands for nothing counts for nothing, and one that is no text is a fault. -/
def decodeEntries (decode : Settings → Text → Yaml.Node → Decoded) (s : Settings)
    (entries : List (Yaml.Node × Yaml.Node)) : Decoded :=
  if keysDiffer entries then
    entries.foldl (fun d e =>
      let next := match e.1 with
        | .scalar _ _ t => if isNull e.1 then (d.1, true) else decode d.1 t e.2
        | _ => (d.1, false)
      (next.1, d.2 && next.2)) (s, true)
  else (s, false)

/-- Applies one entry of the mapping about the tool; unknown keys count for nothing. -/
def decodeToolEntry (s : Settings) (key : Text) (n : Yaml.Node) : Decoded :=
  if key = argumentsKey then decodeArguments s n
  else
    match (firstToolFields ++ lastToolFields).lookup key with
    | some f => decodeField s f n
    | none => (s, true)

/-- Applies a mapping, by `decode` for each entry; a value that is not there is none. -/
def decodeMapping (decode : Settings → Text → Yaml.Node → Decoded) (s : Settings) (n : Yaml.Node) :
    Decoded :=
  match n with
  | .mapping entries => decodeEntries decode s entries
  | n => (s, isNull n)

/-- Applies one entry of the file; unknown keys count for nothing. -/
def decodeEntry (s : Settings) (key : Text) (n : Yaml.Node) : Decoded :=
  if key = toolKey then decodeMapping decodeToolEntry s n
  else
    match fields.lookup key with
    | some f => decodeField s f n
    | none => (s, true)

/-- Applies a settings file; a text that is none changes nothing. -/
def apply (t : Text) (s : Settings) : Decoded :=
  match Yaml.read t with
  | .error _ => (s, false)
  | .ok none => (s, true)
  | .ok (some n) => decodeMapping decodeEntry s n

def fieldText (indent : Text) (s : Settings) (f : Field) : Text :=
  match f with
  | .text f => Yaml.textValue (indent ++ "    ") (s.text f)
  | f => s.value f

def fieldLine (indent : Text) (s : Settings) (e : Text × Field) : Text :=
  indent ++ e.1 ++ ": " ++ Yaml.closed (fieldText indent s e.2)

def argumentLine (t : Text) : Text :=
  "        - " ++ Yaml.closed (Yaml.textValue "          ".toList t)

/-- The lines about the arguments of the tool; there are none without arguments. -/
def argumentLines (s : Settings) : Text :=
  match s.tool.arguments.getD [] with
  | [] => []
  | arguments => "    args:\n" ++ arguments.flatMap argumentLine

def write (s : Settings) : Text :=
  let inner : Text := "    "
  fields.flatMap (fieldLine [] s) ++ toolKey ++ ":\n" ++
    firstToolFields.flatMap (fieldLine inner s) ++ argumentLines s ++
    lastToolFields.flatMap (fieldLine inner s)

end ClassicBasic.SettingsFile
