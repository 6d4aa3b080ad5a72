import ClassicBasic.Library
import ClassicBasic.Text.PathName

/-!
# Files and folders

The files that a run can see, as a value. Paths are followed segment by segment, so that a path
through a file or through a folder that does not exist leads nowhere.
-/

set_option autoImplicit false

namespace ClassicBasic

structure Files where
  /-- The folder that relative paths start from. -/
  home : Text
  folders : List Text
  contents : List (Text × Octets)
  deriving DecidableEq, Repr

namespace Files

inductive Trouble
  | missing
  | notFolder
  | isFolder
  | notEmpty
  deriving DecidableEq, Repr

def Trouble.message : Trouble → Text
  | .missing => "no such file or directory"
  | .notFolder => "not a directory"
  | .isFolder => "is a directory"
  | .notEmpty => "directory not empty"

def segments (path : Text) : List Text := (Text.splitAt '/' path).filter (· != [])

def ofSegments (segments : List Text) : Text := '/' :: Text.joinWith ['/'] segments

def above (path : Text) : List Text :=
  let parts := segments path
  (List.range parts.length).map fun n => ofSegments (parts.take n)

/-- Files in the folder `home`, with the folders they need. -/
def ofContents (home : Text) (contents : List (Text × Octets)) : Files :=
  { home, contents, folders := home :: above home ++ contents.flatMap fun e => above e.1 }

def isFile (f : Files) (path : Text) : Bool := (f.contents.lookup path).isSome

def isFolder (f : Files) (path : Text) : Bool := f.folders.contains path

/-- Follows the segments of a path from the folder with the segments `done`, last one first. -/
def follow (f : Files) (done : List Text) : List Text → Except Trouble (List Text)
  | [] => .ok done
  | segment :: rest =>
    let here := ofSegments done.reverse
    if f.isFile here then .error .notFolder
    else if !f.isFolder here then .error .missing
    else if segment = [] ∨ segment = ['.'] then follow f done rest
    else if segment = ['.', '.'] then follow f done.tail rest
    else follow f (segment :: done) rest

def resolve (f : Files) (path : Text) : Except Trouble Text :=
  if path = [] then .error .missing
  else
    let full := if PathName.isAbsolute path then path else f.home ++ "/" ++ path
    (f.follow [] (Text.splitAt '/' full)).map fun done => ofSegments done.reverse

def read (f : Files) (path : Text) : Except Trouble Octets :=
  match f.resolve path with
  | .error e => .error e
  | .ok full =>
    match f.contents.lookup full with
    | some bytes => .ok bytes
    | none => .error (if f.isFolder full then .isFolder else .missing)

def without (f : Files) (path : Text) : Files :=
  { f with contents := f.contents.filter (·.1 != path) }

def write (f : Files) (path : Text) (bytes : Octets) : Except Trouble Files :=
  match f.resolve path with
  | .error e => .error e
  | .ok full =>
    if f.isFolder full then .error .isFolder
    else if !f.isFolder (PathName.dir full) then .error .missing
    else .ok { f with contents := (f.without full).contents ++ [(full, bytes)] }

def remove (f : Files) (path : Text) : Except Trouble Files :=
  match f.resolve path with
  | .error e => .error e
  | .ok full =>
    if f.isFile full then .ok (f.without full)
    else .error (if f.isFolder full then .notEmpty else .missing)

def readReason (path : Text) (e : Trouble) : Text :=
  (if e = .isFolder then "read " else "open ") ++ path ++ ": " ++ e.message

def writeReason (path : Text) (e : Trouble) : Text := "open " ++ path ++ ": " ++ e.message

def removeReason (path : Text) (e : Trouble) : Text := "remove " ++ path ++ ": " ++ e.message

def load (f : Files) (encoding : Text) (tab : Int) (path : Text) : Except LoadError Listing :=
  if path = [] then .error .noName
  else
    match f.read path with
    | .error .missing => .error (.notFound path)
    | .error e => .error (.unreadable path (readReason path e))
    | .ok bytes => Listing.ofOctets path encoding tab bytes

def shelf (f : Files) (encoding : Text) (tab : Int) : Shelf :=
  { load := f.load encoding tab, size := f.contents.length }

def save (f : Files) (path : Text) (lines : List Text) (encoding newline : Text) :
    Except SaveError Files :=
  match Listing.toOctets lines encoding newline with
  | .error e => .error e
  | .ok bytes =>
    match f.write path bytes with
    | .error e => .error (.unwritable path (writeReason path e))
    | .ok files => .ok files

end Files

end ClassicBasic
