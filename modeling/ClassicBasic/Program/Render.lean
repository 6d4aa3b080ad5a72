import ClassicBasic.Program.Options
import ClassicBasic.Dialect.Grammar

/-!
# Classic lines

How the tokens of a numbered program are written. A keyword has a blank on either side unless it
touches a symbol; where two words would read as another, a blank stands between them in any case.
-/

set_option autoImplicit false

namespace ClassicBasic.Render

def isSpace (c : Char) : Bool := c == ' '

/-- Whether `t` behind the token `last` and the text `written` would read as part of another word:
OR behind an X, or a letter that can be a digit behind a number. -/
def needsSpace (last : Option Token) (t : Token) (written : Text) : Bool :=
  !t.kind.isLiteral && !t.value.isEmpty && !written.isEmpty &&
    ((t.is "OR" && (Text.upper written).getLast? == some 'X') ||
      ((last.map Token.kind) == some .number &&
        (t.upper.head?.map fun c => 'A' ≤ c && c ≤ 'F').getD false))

def isKeyword (d : Dialect) (t : Token) : Bool := !t.kind.isLiteral && d.isReserved t.value

/-- What stands in front of a keyword behind the token `last` and the text `written`. -/
def spaceBefore (d : Dialect) (space : Text) (last : Option Token) (t : Token) (written : Text) :
    Text :=
  match last with
  | none => []
  | some before =>
    if isKeyword d t && !written.isEmpty && written.getLast? != some ' ' &&
        !d.isTight before.value then space else []

def spaceBehind (d : Dialect) (space : Text) (t : Token) (next : Option Token) : Text :=
  match next with
  | none => if t.kind = .lineNumber then space else []
  | some following =>
    if t.kind = .lineNumber || (isKeyword d t && !d.isTight following.value) then space else []

/-- The text of the tokens of a line behind the token `last` and the text `written`. -/
def lineText (d : Dialect) (space : Text) (last : Option Token) (written : Text) :
    List Token → Text
  | [] => written
  | t :: rest =>
    if t.kind = .newline then lineText d space (some t) written rest
    else
      let apart := if needsSpace last t written then written ++ " " else written
      let text := apart ++ spaceBefore d space last t apart ++ t.value ++
        spaceBehind d space t rest.head?
      lineText d space (some t) text rest

/-- The number that a line is looked up by in the report of labels: its numeral read digit by
digit. -/
def reportKey : List Token → Int
  | [] => -1
  | t :: _ =>
    if t.kind = .lineNumber then
      t.value.foldl (fun n c => wrap (n * 10 + ((c.toNat : Int) - 48))) 0
    else -1

def labels (notes : List (Int × Text)) (number : Int) : List Text :=
  (notes.filter (·.1 == number)).map (·.2)

def line (d : Dialect) (o : Options) (notes : List (Int × Text)) (tokens : List Token) : Text :=
  let text := lineText d (if o.stripSpaces then [] else " ") none [] tokens
  let found := labels notes (reportKey tokens)
  let reported := if o.labelReport && !found.isEmpty
    then Text.trimEnd isSpace text ++ " '" ++ Text.joinWith " ".toList found else text
  Text.trimEnd isSpace reported

/-- A character that the character set of a machine cannot have. -/
def isForeign (c : Char) : Bool := 0xFF < c.toNat

/-- The lines of the tokens of a program; `read` are the tokens of the line being read, last token
first. A line without its end is not written. -/
def linesFrom (d : Dialect) (o : Options) (notes : List (Int × Text)) (read : List Token) :
    List Token → Except Failure (List Text)
  | [] => .ok []
  | t :: rest =>
    if t.kind = .eof then .ok []
    else
      match if o.translate then t.value.find? isForeign else none with
      | some c => .error (t.failure (.untranslatable c))
      | none =>
        let read := if t.value = [] then read else t :: read
        if t.kind ≠ .newline then linesFrom d o notes read rest
        else
          let text := line d o notes read.reverse
          if Dialect.maxLineLength < text.length then
            .error (t.failure (.lineTooLong text.length))
          else (linesFrom d o notes [] rest).map (text :: ·)

def lines (d : Dialect) (o : Options) (notes : List (Int × Text)) (tokens : List Token) :
    Except Failure (List Text) :=
  linesFrom d o notes [] (tokens.drop 2)

end ClassicBasic.Render
