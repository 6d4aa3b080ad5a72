import ClassicBasic.Text.Basic

/-!
# Path names

Slash-separated names, taken apart and put together by their text alone.
-/

set_option autoImplicit false

namespace ClassicBasic.PathName

def isAbsolute : Text → Bool
  | '/' :: _ => true
  | _ => false

/-- One more segment after `done` (last first). A parent segment takes the last one back; with
nothing to take back it is kept in a relative name and dropped at the root. -/
def cleanStep (rooted : Bool) (done : List Text) (segment : Text) : List Text :=
  if segment = [] ∨ segment = ['.'] then done
  else if segment = ['.', '.'] then
    match done with
    | [] => if rooted then [] else [segment]
    | last :: earlier => if last = ['.', '.'] then segment :: done else earlier
  else segment :: done

def clean (path : Text) : Text :=
  let rooted := isAbsolute path
  let segments := ((Text.splitAt '/' path).foldl (cleanStep rooted) []).reverse
  let body := Text.joinWith ['/'] segments
  if rooted then '/' :: body else if body = [] then ['.'] else body

def afterSlash (path : Text) : Text := (path.reverse.takeWhile (· != '/')).reverse

/-- The last segment; a dot for the empty name, a slash for the root. -/
def base (path : Text) : Text :=
  if path = [] then ['.']
  else
    let bare := Text.trimEnd (· == '/') path
    if bare = [] then ['/'] else afterSlash bare

def dir (path : Text) : Text := clean (path.take (path.length - (afterSlash path).length))

/-- The end of the last segment from its last dot on, empty when it has none. -/
def ext (path : Text) : Text :=
  let segment := afterSlash path
  if segment.contains '.' then '.' :: (segment.reverse.takeWhile (· != '.')).reverse else []

def stem (path : Text) : Text := path.take (path.length - (ext path).length)

/-- The names put after one another and cleaned, leading empty ones left out. -/
def join (parts : List Text) : Text :=
  match parts.dropWhile (· == []) with
  | [] => []
  | parts => clean (Text.joinWith ['/'] parts)

/-- The cleaned absolute form of a name used in the directory `cwd`. -/
def absolute (cwd path : Text) : Text :=
  if isAbsolute path then clean path else join [cwd, path]

/-- Where the result made from `input` goes. No `output` keeps the name of the input with `ext`; a
relative `output` is taken from the directory of the input; one that ends in a slash is a directory
that receives the input's name; a missing extension becomes `ext`. -/
def saveFile (input output extension : Text) : Text :=
  let home := dir input
  let name := base (stem input) ++ extension
  let placed := if isAbsolute output then output else join [home, output]
  if output = [] then join [home, name]
  else if output.getLast? = some '/' then join [placed, name]
  else if ext placed = [] then placed ++ extension
  else placed

end ClassicBasic.PathName
