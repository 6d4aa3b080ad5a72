import ClassicBasic.Program.Declare
import ClassicBasic.Program.PrintAt

/-!
# Merging a file into one run of lines

The third stage of a conversion. Included files are put in place, remark blocks become remark lines,
lines and strings that belong together are joined, and the variables of the file are met. The rules
for joining look only at the last tokens of the output and at where a token stands in the file.
-/

set_option autoImplicit false

namespace ClassicBasic.Merge

def isQuote (c : Char) : Bool := c == '"'

def mergeStrings (first second : Text) : Text :=
  Text.trimEnd isQuote first ++ second.dropWhile isQuote

structure Place where
  /-- How many tokens are in front of it. -/
  before : Nat
  /-- How many tokens follow it. -/
  behind : Nat
  deriving DecidableEq, Repr

/-- Whether a line end in front of the end of the file can go: what follows it there is more than
the last statement. -/
def Place.isInner (p : Place) : Bool := 3 ≤ p.behind

def Place.isLater (p : Place) : Bool := 3 < p.before

/-- Puts a line end behind an output (last token first). -/
def addNewline (p : Place) (t : Token) : List Token → List Token
  | [] => [t]
  | last :: out =>
    match last.kind with
    | .newline | .labelLine | .functionEntry => last :: out
    | .joiner => if p.isInner then out else t :: out
    | .separator => if p.isInner then last :: out else t :: last :: out
    | _ => t :: last :: out

/-- Puts a separator of statements behind an output (last token first). -/
def addSeparator (p : Place) (t : Token) : List Token → List Token
  | [] => [t]
  | last :: out =>
    match last.kind with
    | .separator => last :: out
    | .newline => if p.isLater then t :: out else t :: last :: out
    | _ => t :: last :: out

/-- Puts a string behind an output (last token first); it continues a string that ends there or on
the line before. -/
def addString (t : Token) : List Token → List Token
  | [] => [t]
  | last :: out =>
    if last.kind = .string then t.withValue (mergeStrings last.value t.value) :: out
    else if last.kind = .newline then
      match out with
      | [] => t :: last :: out
      | earlier :: before =>
        if earlier.kind = .string then
          t.withValue (mergeStrings earlier.value t.value) :: before
        else t :: last :: out
    else t :: last :: out

/-- Puts a token behind an output (last token first). -/
def add (p : Place) (t : Token) (out : List Token) : List Token :=
  match t.kind with
  | .newline => addNewline p t out
  | .separator => addSeparator p t out
  | .string => addString t out
  | _ => t :: out

/-- The remark lines of a block up to its end, and what follows it; the end of the program is not
passed. -/
def unwrap (d : Dialect) : List Token → List Token × List Token
  | [] => ([], [])
  | t :: rest =>
    if t.kind = .blockEnd then ([], rest)
    else if t.kind = .eof then ([], t :: rest)
    else
      let r := unwrap d rest
      (Lexer.snippet d t.pos "'" ++ t.withKind .remarkText ::
        ⟨.newline, "\r", t.pos.withCol t.value.length⟩ :: r.1, r.2)

theorem length_unwrap (d : Dialect) (l : List Token) : (unwrap d l).2.length ≤ l.length := by
  induction l with
  | nil => exact Nat.le_refl _
  | cons t rest ih =>
    simp only [unwrap]
    split
    · exact Nat.le_succ _
    · split
      · exact Nat.le_refl _
      · exact Nat.le_succ_of_le ih

def keepSign : Text := "~"

/-- Takes note of the variable `t` behind an output (last token first): the output without the sign
that keeps the name. -/
def meetVariable (quiet : Bool) (t : Token) (out : List Token) : Conversion (List Token) := do
  let known ← Conversion.naming
  match out with
  | last :: before =>
    if last.value = keepSign then
      Conversion.advise quiet (known.keepWritten t)
      return before
    else
      Conversion.advise quiet (known.meet t)
      return last :: before
  | [] =>
    Conversion.advise quiet (known.meet t)
    return []

/-- The third stage on the tokens `input` behind an output (last token first), in a file of `total`
tokens. `splice` gives the tokens of an included file, by the directive and the name behind it. -/
def run (d : Dialect) (quiet : Bool) (splice : Token → Token → Conversion (List Token))
    (total : Nat) (out input : List Token) : Conversion (List Token) :=
  match input with
  | [] => throw .exhausted
  | t :: rest =>
    if t.kind = .eof then return (t :: out).reverse
    else if t.kind = .directive ∧ t.is "INCLUDE" then do
      let body ← splice t (rest.headD t)
      run d quiet splice total (body.reverse ++ out) rest.tail
    else if t.kind = .blockRemark then
      run d quiet splice total ((unwrap d rest).1.reverse ++ out) (unwrap d rest).2
    else do
      let met ← if t.kind = .identifier then meetVariable quiet t out else pure out
      let place : Place := { before := total - 1 - rest.length, behind := rest.length }
      run d quiet splice total (add place t met) rest
termination_by input.length
decreasing_by
  · simp only [List.length_cons, List.length_tail]
    omega
  · have := length_unwrap d rest
    simp only [List.length_cons]
    omega
  · simp

def merge (d : Dialect) (quiet : Bool) (splice : Token → Token → Conversion (List Token)) :
    List Token → Conversion (List Token)
  | [] => throw .exhausted
  | start :: rest => run d quiet splice (rest.length + 1) [start] rest

end ClassicBasic.Merge
