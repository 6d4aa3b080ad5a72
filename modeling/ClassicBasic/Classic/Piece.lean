import ClassicBasic.Dialect.Grammar
import ClassicBasic.Text.Blank

/-!
# Reading a classic line

A classic interpreter finds keywords anywhere, even inside what reads as a name. A line is cut into
pieces accordingly; blanks between pieces are only remembered as gaps. Every step takes at least one
character, so the number of characters left bounds the reading.
-/

set_option autoImplicit false

namespace ClassicBasic

structure Piece where
  kind : Kind
  text : Text
  /-- Blanks stood in front of the piece. -/
  gap : Bool := false
  /-- The line that a jump leads to. -/
  target : Option Int := none
  deriving DecidableEq, Repr

namespace Piece

def isInstruction (p : Piece) (word : Text) : Bool :=
  p.kind == .instruction && Text.sameLetters p.text word

def isKeyword (p : Piece) : Bool :=
  match p.kind with
  | .instruction | .jump | .function | .operator | .data | .remark => true
  | _ => false

def keywordLimit : Nat := 8

/-- The number of characters of the longest keyword that starts the text. -/
def keywordLength (d : Dialect) (text : Text) : Nat :=
  (List.range (min text.length keywordLimit)).foldl
    (fun best i =>
      let word := text.take (i + 1)
      if Text.byteCount word ≤ keywordLimit && d.isReserved word then i + 1 else best) 0

/-- The length of the longest number that starts the text behind the characters `read` and is not
cut short by a keyword; `best` is the length found so far. -/
def numberLength (d : Dialect) (read : Text) (best : Nat) : Text → Nat
  | [] => best
  | c :: rest =>
    if !read.isEmpty && !c.isDigit && 0 < keywordLength d (c :: rest) then best
    else
      match d.classify (read ++ [c]) with
      | some .number => numberLength d (read ++ [c]) (read.length + 1) rest
      | some .baseMark | some .lonePoint => numberLength d (read ++ [c]) best rest
      | _ => best

/-- How many characters belong to a name at whose inside the text starts: up to the next keyword. -/
def nameLength (d : Dialect) : Text → Nat
  | [] => 0
  | c :: rest =>
    if c.isAlphanum && keywordLength d (c :: rest) = 0 then nameLength d rest + 1 else 0

def typedLength (d : Dialect) (text : Text) : Nat :=
  let n := nameLength d text
  match text.drop n with
  | c :: _ => if Grammar.isTypeSigil c then n + 1 else n
  | [] => n

/-- The kind of the word, number, name or symbol that starts the text `c :: rest`, and how many
characters of `rest` belong to it. -/
def word (d : Dialect) (c : Char) (rest : Text) : Kind × Nat :=
  let key := keywordLength d (c :: rest)
  let number := if c.isDigit || c == '.' || c == '&' then numberLength d [] 0 (c :: rest) else 0
  if 0 < key then ((d.classify ((c :: rest).take key)).getD .instruction, key - 1)
  else if 0 < number then (.number, number - 1)
  else if c.isAlphanum then (.identifier, typedLength d rest)
  else (if c = ':' then .separator else .symbol, 0)

/-- The items of a DATA statement, up to a separator outside quotes. -/
def dataItems (inside : Bool) : Text → Text
  | [] => []
  | c :: rest =>
    if c = '"' then c :: dataItems (!inside) rest
    else if c = ':' && !inside then []
    else c :: dataItems inside rest

def remarkSign : Text := "'"

def remark (mark text : Text) (gap : Bool) : List Piece :=
  { kind := .remark, text := mark, gap } ::
    if text = [] then [] else [{ kind := .remarkText, text }]

/-- Whether the text starts with a word, in any case. -/
def startsWith (word text : Text) : Bool := Text.upper (text.take word.length) == word

/-- The pieces of the code of a line; `gap` tells whether blanks have just been passed. -/
def scan (d : Dialect) (gap : Bool) (text : Text) : List Piece :=
  match text with
  | [] => []
  | c :: rest =>
    if c = ' ' || c = '\t' then scan d true rest
    else if c = '"' then
      let body := rest.takeWhile (· != '"')
      let left := rest.drop body.length
      { kind := .string, text := c :: body ++ left.take 1, gap } :: scan d false (left.drop 1)
    else if remarkSign = [c] then remark [c] rest gap
    else if startsWith "REM" (c :: rest) then remark (c :: rest.take 2) (rest.drop 2) gap
    else if startsWith "DATA" (c :: rest) then
      let items := dataItems false (rest.drop 3)
      let field := Text.trimBlank items
      { kind := .data, text := c :: rest.take 3, gap } ::
        (if field = [] then [] else [{ kind := .dataField, text := field, gap := true }]) ++
        scan d false ((rest.drop 3).drop items.length)
    else
      let found := word d c rest
      { kind := found.1, text := c :: rest.take found.2, gap } :: scan d false (rest.drop found.2)
termination_by text.length
decreasing_by
  all_goals simp only [List.length_cons, List.length_drop]
  all_goals omega

end Piece

end ClassicBasic
