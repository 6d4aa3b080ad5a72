import ClassicBasic.Command.Execute

/-!
# The program

Gathers the environment and the files around the working folder, runs the command line on them and
puts back what has changed.
-/

set_option autoImplicit false

namespace ClassicBasic.World

def maxDepth : Nat := 8

/-- The files and folders below a folder; what cannot be read is passed over. -/
def gather (depth : Nat) (folder : String) : IO (List Text × List (Text × Octets)) := do
  match depth with
  | 0 => return ([], [])
  | depth + 1 =>
    let mut folders : List Text := []
    let mut contents : List (Text × Octets) := []
    let entries ← try ((← IO.currentDir) / folder).readDir catch _ => pure #[]
    for entry in entries do
      let path := folder ++ "/" ++ entry.fileName
      if ← entry.path.isDir then
        let below ← gather depth path
        folders := folders ++ path.toList :: below.1
        contents := contents ++ below.2
      else
        let bytes ← try IO.FS.readBinFile path catch _ => pure ByteArray.empty
        contents := contents ++ [(path.toList, bytes.toList)]
    return (folders, contents)

/-- The files that a command line may be about: those around the working folder and around the
files it names. -/
def gatherFiles (home : Text) (words : List Text) : IO Files := do
  let around := (words.map fun w => PathName.dir (PathName.absolute home w)).filter
    fun folder => !(home ++ ['/']).isPrefixOf (folder ++ ['/'])
  let mut files := Files.ofContents home []
  for folder in (home :: around).eraseDups do
    let found ← gather maxDepth (String.ofList folder)
    files := { files with
      folders := files.folders ++ folder :: Files.above folder ++ found.1
      contents := files.contents ++ found.2 }
  return files

/-- The variables of the environment that the settings know. -/
def gatherVariables : IO Environment := do
  let names := Execute.fileVariable :: Environment.texts.map (·.1) ++
    Environment.numbers.map (·.1) ++ Environment.switches.map (·.1)
  names.filterMapM fun name => do
    return (← IO.getEnv (String.ofList name)).map fun value => (name, value.toList)

def putBack (before after : Files) : IO Unit := do
  for entry in after.contents do
    if before.contents.lookup entry.1 ≠ some entry.2 then
      IO.FS.writeBinFile (String.ofList entry.1) ⟨entry.2.toArray⟩
  for entry in before.contents do
    if !after.isFile entry.1 then IO.FS.removeFile (String.ofList entry.1)

end ClassicBasic.World

open ClassicBasic in
def main (words : List String) : IO UInt32 := do
  let home := (← IO.currentDir).toString.toList
  let words := Text.ofStrings words
  let files ← World.gatherFiles home words
  let done := execute (← World.gatherVariables) files words
  World.putBack files done.files
  IO.print (String.ofList done.output)
  match done.complaint with
  | some message => IO.eprintln (String.ofList message)
  | none => pure ()
  return if done.succeeded then 0 else 1
