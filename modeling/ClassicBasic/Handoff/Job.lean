import ClassicBasic.Files
import ClassicBasic.Log

/-!
# Handing a classic program to a tool

A job names the program, the file the tool makes from it and maybe a list file. What the tool says
is logged; on success the classic program can be deleted.
-/

set_option autoImplicit false

namespace ClassicBasic

structure Job where
  ascii : Text
  binary : Text
  /-- Where the list file goes, empty if none is wanted. -/
  list : Text
  width : Int
  deleteAscii : Bool
  verbosity : Int
  deriving DecidableEq, Repr

namespace Job

def listExt : Text := ".lmx"

def maxWidth : Int := 32

def make (ascii binaryExt : Text) (width : Int) (deleteAscii : Bool) (verbosity : Int) : Job :=
  let stem := PathName.stem ascii
  let width := min (max width 0) maxWidth
  { ascii
    binary := stem ++ binaryExt
    list := if 0 < width then stem ++ listExt else []
    width
    deleteAscii
    verbosity }

end Job

/-- What came of running a tool: what it said, and why it failed. -/
structure ToolResult where
  lines : List Text
  failure : Option Text := none
  deriving DecidableEq, Repr

inductive JobFault
  | toolFailed (reason : Text)
  | asciiNotDeleted (reason : Text)
  deriving DecidableEq, Repr

def JobFault.message : JobFault → Text
  | .toolFailed reason => "Tokenizing failed: " ++ reason
  | .asciiNotDeleted reason => "Could not delete the ASCII file: " ++ reason

namespace Job

structure Done where
  files : Files
  records : List Record
  fault : Option JobFault := none
  deriving DecidableEq, Repr

def listRecords (job : Job) : List Record :=
  if job.list = [] then [] else [.detail ("List: " ++ job.list)]

def handOver (job : Job) (result : ToolResult) (files : Files) : Done :=
  let spoken := Record.step ("Tokenizing: " ++ job.ascii) :: result.lines.map Record.item
  match result.failure with
  | some reason => { files, records := spoken, fault := some (.toolFailed reason) }
  | none =>
    let saved := spoken ++ Record.detail ("Saved: " ++ job.binary) :: job.listRecords
    if job.deleteAscii then
      match files.remove job.ascii with
      | .ok left => { files := left, records := saved ++ [.detail ("Deleted: " ++ job.ascii)] }
      | .error e =>
        { files, records := saved
          fault := some (.asciiNotDeleted (Files.removeReason job.ascii e)) }
    else { files, records := saved }

end Job

end ClassicBasic
