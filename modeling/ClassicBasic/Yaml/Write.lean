import ClassicBasic.Yaml.Node

/-!
# Writing a settings file

A text is written without quotes where it reads back as itself, between single quotes where only its
look is in the way, and between double quotes where it would read as something else or holds
characters that do not print. A text of several lines is written as a block. Two separators besides
the line feed end a line and are written as they are.
-/

set_option autoImplicit false

namespace ClassicBasic.Yaml

def oldTruthWords : List Text :=
  ["y", "Y", "yes", "Yes", "YES", "on", "On", "ON", "n", "N", "no", "No", "NO", "off", "Off",
    "OFF"]

def isDigitOrLow (c : Char) : Bool := c.isDigit || c == '_'

def isSixtieth : Text → Bool
  | [c] => c.isDigit
  | [c, d] => '0' ≤ c && c ≤ '5' && d.isDigit
  | _ => false

/-- Whether the pieces between colons make a number to the base sixty. -/
def areSixtieths : List Text → Bool
  | [] => false
  | [last] =>
    let whole := last.takeWhile (· != '.')
    isSixtieth whole && (last.drop (whole.length + 1)).all isDigitOrLow
  | piece :: rest => isSixtieth piece && areSixtieths rest

/-- Whether some readers take the text for a number to the base sixty. -/
def isSexagesimal (t : Text) : Bool :=
  match Text.splitAt ':' (Text.splitSign t).2 with
  | (c :: more) :: rest => c.isDigit && more.all isDigitOrLow && areSixtieths rest
  | _ => false

/-- Whether the text without quotes would read as something else. -/
def isMistaken (t : Text) : Bool :=
  meaning t != .plain || isSexagesimal t || oldTruthWords.contains t

/-- Whether `c` ends a line: the line feed and the separators of lines and paragraphs. -/
def endsLine (c : Char) : Bool := c == '\n' || c.toNat == 0x2028 || c.toNat == 0x2029

def prints (c : Char) : Bool :=
  let n := c.toNat
  n == 0x0A || (0x20 ≤ n && n ≤ 0x7E) || (0xA0 ≤ n && n ≤ 0xFFFD && n != 0xFEFF)

def isGap (c : Char) : Bool := c == ' ' || c == '\t'

def isGapOrEnd : Text → Bool
  | [] => true
  | c :: _ => isGap c

/-- Whether a text inside a line reads as a key, a value or a comment; `apart` tells whether a gap
is in front. -/
def hasMark (apart : Bool) : Text → Bool
  | [] => false
  | c :: rest => (c == ':' && isGapOrEnd rest) || (c == '#' && apart) || hasMark (isGap c) rest

/-- Whether two neighbours in the text are in relation `p`. -/
def hasPair (p : Char → Char → Bool) : Text → Bool
  | c :: d :: rest => p c d || hasPair p (d :: rest)
  | _ => false

/-- Whether a blank stands in front of the end of a line. -/
def hasBlankEnd (t : Text) : Bool := hasPair (fun c d => c == ' ' && endsLine d) t

def hasBlankStart (t : Text) : Bool := hasPair (fun c d => endsLine c && d == ' ') t

def isSpecial (t : Text) : Bool := t.any fun c => c != '\t' && !prints c

def fitsBlock (t : Text) : Bool := t.getLast? != some ' ' && !hasBlankEnd t && !isSpecial t

/-- Whether the text can be written between single quotes. -/
def fitsSingle (t : Text) : Bool :=
  !hasBlankEnd t && !hasBlankStart t && !t.contains '\t' && !isSpecial t

/-- Whether the start of the text has a meaning of its own. -/
def startsOdd (t : Text) : Bool :=
  match t with
  | [] => false
  | c :: rest =>
    t.take 3 == "---".toList || t.take 3 == "...".toList ||
      "#,[]\x7b\x7d&*!|>\"%@".toList.contains c || c.toNat == 39 || c.toNat == 0x60 ||
      ((c == '?' || c == ':' || c == '-') && isGapOrEnd rest) || hasMark (isGap c) rest

def fitsPlain (t : Text) : Bool :=
  fitsSingle t && !t.any endsLine && t.head? != some ' ' && t.getLast? != some ' ' && !startsOdd t

/-- Hexadecimal digits in capitals, at least `width` of them. -/
def hexCapitals (width n : Nat) : Text := Text.upper (Text.hex width n)

/-- The letter that stands for a character behind a backslash. -/
def escapeLetter (c : Char) : Option Char :=
  match c.toNat with
  | 0x00 => some '0'
  | 0x07 => some 'a'
  | 0x08 => some 'b'
  | 0x09 => some 't'
  | 0x0A => some 'n'
  | 0x0B => some 'v'
  | 0x0C => some 'f'
  | 0x0D => some 'r'
  | 0x1B => some 'e'
  | 0x22 => some '"'
  | 0x5C => some '\\'
  | 0x85 => some 'N'
  | 0xA0 => some '_'
  | 0x2028 => some 'L'
  | 0x2029 => some 'P'
  | _ => none

def escape (c : Char) : Text :=
  let n := c.toNat
  match escapeLetter c with
  | some letter => ['\\', letter]
  | none =>
    if n ≤ 0xFF then '\\' :: 'x' :: hexCapitals 2 n
    else if n ≤ 0xFFFF then '\\' :: 'u' :: hexCapitals 4 n
    else '\\' :: 'U' :: hexCapitals 8 n

/-- Whether `c` can stand between double quotes as it is. -/
def standsBare (c : Char) : Bool := prints c && !endsLine c && c != '"' && c != '\\'

/-- Whether the text starts with the mark of an encoding. -/
def isMarked (t : Text) : Bool := t.head?.any fun c => c.toNat == 0xFEFF

/-- The text between double quotes. Behind the mark of an encoding nothing stands as it is. -/
def doubleQuoted (t : Text) : Text :=
  '"' :: (t.flatMap fun c => if standsBare c && !isMarked t then [c] else escape c) ++ ['"']

/-- The lines of a text, each but empty ones behind `indent`; `fresh` tells whether a line starts
here. Characters are written by `put`. -/
def indented (put : Char → Text) (indent : Text) (fresh : Bool) : Text → Text
  | [] => []
  | c :: rest =>
    if endsLine c then c :: indented put indent true rest
    else (if fresh then indent else []) ++ put c ++ indented put indent false rest

/-- The text between single quotes; lines but the first start with `indent`. -/
def singleQuoted (indent t : Text) : Text :=
  "'" ++ indented (fun c => if c.toNat = 39 then [c, c] else [c]) indent false t ++ "'"

def chomping (t : Text) : Text :=
  match t.reverse with
  | [] => "-"
  | c :: before =>
    if !endsLine c then "-"
    else
      match before with
      | [] => "+"
      | d :: _ => if endsLine d then "+" else []

def startsLoose (t : Text) : Bool := t.head?.any fun c => c == ' ' || endsLine c

def startsBroken (t : Text) : Bool := t.head?.any endsLine

/-- The text as a block whose lines start with `indent`. A line end at its start is that of the line
in front of the block. -/
def block (indent t : Text) : Text :=
  "|" ++ (if startsLoose t then "4".toList else []) ++ chomping t ++
    (if startsBroken t then [] else ['\n']) ++ indented (fun c => [c]) indent true t

/-- A text as a value; its lines but the first start with `indent`. -/
def textValue (indent t : Text) : Text :=
  if t.contains '\n' then (if fitsBlock t then block indent t else doubleQuoted t)
  else if isMistaken t then doubleQuoted t
  else if fitsPlain t then t
  else if fitsSingle t then singleQuoted indent t
  else doubleQuoted t

/-- A value with the end of its line, which some blocks have already. -/
def closed (value : Text) : Text := if value.getLast?.any endsLine then value else value ++ ['\n']

end ClassicBasic.Yaml
