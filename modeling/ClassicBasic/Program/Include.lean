import ClassicBasic.Program.Label
import ClassicBasic.Program.Merge
import ClassicBasic.Lexer.Basic

/-!
# Files that include files

The stages every file goes through, included or not. A file is looked for next to the one that
includes it and then next to the main file; a file that is being converted is never included again,
so the files in progress are all different and their number bounds the depth.
-/

set_option autoImplicit false

namespace ClassicBasic

structure Setting where
  dialect : Dialect
  shelf : Shelf
  /-- The directory that relative paths start from. -/
  home : Text
  /-- The path of the main file. -/
  main : Text

structure Branch where
  path : Text
  /-- The absolute paths of the files in progress, this one first. -/
  stack : List Text
  /-- Whether the file adds nothing to the log. -/
  quiet : Bool
  deriving DecidableEq, Repr

namespace Branch

def main (s : Setting) : Branch :=
  { path := s.main, stack := [PathName.absolute s.home s.main], quiet := false }

def enter (s : Setting) (b : Branch) (path : Text) : Branch :=
  { path, stack := PathName.absolute s.home path :: b.stack, quiet := true }

def candidates (s : Setting) (b : Branch) (file : Text) : List Text :=
  let here := PathName.dir b.path
  let there := PathName.dir s.main
  if PathName.isAbsolute file then [file]
  else if here = there then [PathName.join [here, file]]
  else [PathName.join [here, file], PathName.join [there, file]]

/-- The first of the paths at which there is a file, with its listing. A file in progress and a file
that cannot be read end the search. -/
def find (s : Setting) (b : Branch) (file : Text) : List Text → Except Cause (Text × Listing)
  | [] => .error (.includeFailed (.notFound file))
  | path :: more =>
    if b.stack.contains (PathName.absolute s.home path) then .error (.circularInclude file)
    else
      match s.shelf.load path with
      | .ok listing => .ok (path, listing)
      | .error e => if e.isNotFound && !more.isEmpty then find s b file more else
        .error (.includeFailed e)

def fileName (t : Token) : Text := Text.trimBlank (Text.trimBoth Merge.isQuote t.value)

/-- The tokens of an included file that stand for its directive: neither the sentinels nor the last
line end. -/
def body (tokens : List Token) : List Token :=
  let inner := (tokens.drop 2).dropLast
  if (inner.getLast?.map Token.kind) = some .newline then inner.dropLast else inner

def named (s : Setting) (b : Branch) (directive name : Token) : Except Failure (Text × Listing) :=
  let file := fileName name
  if name.kind ≠ .string ∨ file = [] then .error (directive.failure (.notAFileName name.value))
  else
    match find s b file (candidates s b file) with
    | .ok found => .ok found
    | .error cause => .error (name.failure cause)

/-- The tokens of an included file, converted by `front`. -/
def splice (s : Setting) (b : Branch)
    (front : Branch → List Token → Conversion (List Token)) (directive name : Token) :
    Conversion (List Token) := do
  Conversion.checkpoint
  let (path, listing) ← Conversion.ofExcept (named s b directive name)
  Conversion.note b.quiet (.detail ("Including: " ++ PathName.base path))
  let lexed ← Conversion.ofExcept (Lexer.lex s.dialect listing)
  return body (← front (b.enter s path) lexed)

/-- The first three stages on the tokens of a file, with at most `depth` files inside one
another. -/
def convert (s : Setting) (depth : Nat) (b : Branch) (lexed : List Token) :
    Conversion (List Token) := do
  Conversion.checkpoint
  Conversion.note b.quiet (.item "Pass 1.")
  let (tables, carried) ← Directive.carryOut s.dialect b.quiet lexed
  Conversion.checkpoint
  Conversion.note b.quiet (.item "Pass 2.")
  let placed ← Conversion.ofExcept (Label.place s.dialect tables carried)
  Conversion.note b.quiet (.item "Pass 3.")
  let inner := match depth with
    | 0 => fun _ _ => throw .exhausted
    | depth + 1 => convert s depth
  Merge.merge s.dialect b.quiet (splice s b inner) placed

end Branch

end ClassicBasic
