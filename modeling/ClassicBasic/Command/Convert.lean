import ClassicBasic.Command.Desk
import ClassicBasic.Handoff.Tool
import ClassicBasic.Program.Compile
import ClassicBasic.Settings.Flag
import ClassicBasic.Settings.Tag

/-!
# Converting a program

Reads a program, lets its tags change the settings, compiles it, saves the classic lines and the
reports, and hands the result to a tool.
-/

set_option autoImplicit false

namespace ClassicBasic.Convert

/-- The settings after the tags of a program, or nothing if the tags only ask to be explained. -/
def tagged (flags : List Flag) (i : Invocation) (listing : Listing) : Work (Option Settings) := do
  let verbosity := i.settings.verbosity
  let (tags, warnings) := Tag.readAll listing
  Work.say verbosity warnings
  match Tag.applyAll { settings := i.settings } tags with
  | (_, some fault) => Work.fail verbosity fault.reason fault.position?
  | (applied, none) =>
    if applied.help then
      Work.print Tag.explanation
      return none
    else
      match CommandLine.read flags { i with settings := applied.settings } applied.arguments with
      | (_, some fault) => Work.fail verbosity ("Remtag ARGUMENTS: " ++ fault.message) none
      | (read, none) => return some (← Work.validated verbosity read.invocation.settings)

def compile (s : Settings) (d : Dialect) (input : Text) (listing : Listing) :
    Work (Compiled × Naming) := do
  let files ← Work.files
  let setting : Setting :=
    { dialect := d, shelf := files.shelf s.encoding s.tabLength, home := files.home, main := input }
  match (Compile.ofListing setting s.options listing).run {} with
  | .ok compiled session =>
    Work.say s.verbosity session.records
    return (compiled, session.naming)
  | .error failure session =>
    Work.say s.verbosity session.records
    Work.fail s.verbosity failure.reason failure.position?

def wanted (s : Settings) (reports : List Report) : List Report :=
  ((reports.zip [s.lineReport, s.variableReport, s.lexerReport, s.parserReport]).filter
    (·.2)).map (·.1)

def writeReport (s : Settings) (output : Text) (r : Report) : Work Unit :=
  if s.printReports then Work.print (r.written ++ "\n")
  else do
    let path := r.path output
    Work.save s.verbosity path r.lines "utf-8" "\n"
    Work.say s.verbosity [.detail ("Report saved: " ++ path)]

def handOver (s : Settings) (d : Dialect) (output : Text) : Work Unit := do
  let tool := s.tool
  let job := Job.make output d.binaryExt tool.listWidth tool.deleteAscii tool.verbosity
  let (files, result) := Tool.tokenize tool.command (tool.arguments.getD []) job (← Work.files)
  let done := job.handOver result files
  Work.setFiles done.files
  Work.say s.verbosity done.records
  match done.fault with
  | some fault => Work.fail s.verbosity fault.message none
  | none => return ()

/-- Converts the program at `input` under settings that its tags have changed. -/
def convert (s : Settings) (input : Text) : Work Unit := do
  let listing ← Work.load s.verbosity s input
  let d ← Work.dialect s.verbosity s
  Work.say s.verbosity
    [.step ("Basic Dignified: " ++ d.name), .step ("Converting: " ++ PathName.base input)]
  let (compiled, naming) ← compile s d input listing
  let output := PathName.saveFile input s.output d.asciiExt
  Work.save s.verbosity output compiled.code "latin1" Dialect.lineBreak
  Work.say s.verbosity [.step ("Saved: " ++ output)]
  (wanted s (Compile.reports compiled naming.declared input)).forM (writeReport s output)
  if s.tool.tokenize then handOver s d output

def run (flags : List Flag) (i : Invocation) : Work Unit := do
  let input ← Work.absolute i.settings.input
  let listing ← Work.load i.settings.verbosity i.settings input
  match ← tagged flags i listing with
  | some s => convert s input
  | none => return ()

end ClassicBasic.Convert
