import ClassicBasic.Yaml.Instant

/-!
# Values of a settings file

A file holds texts, lists and mappings. What a text that is not quoted stands for is decided by its
look: nothing, a truth value, a number, a date, or the text itself. A tag in front of a text says
which of these it has to be.
-/

set_option autoImplicit false

namespace ClassicBasic.Yaml

inductive Node
  | scalar (tag : Option Text) (quoted : Bool) (text : Text)
  | sequence (items : List Node)
  | mapping (entries : List (Node × Node))
  deriving Repr

def Node.null : Node := .scalar none false []

inductive Meaning
  | nothing
  | truth (b : Bool)
  | number (n : Number)
  | instant
  | plain
  deriving DecidableEq, Repr

def nullWords : List Text := ["", "~", "null", "Null", "NULL"]

def trueWords : List Text := ["true", "True", "TRUE"]

def falseWords : List Text := ["false", "False", "FALSE"]

def unboundedWords : List Text :=
  [".nan", ".NaN", ".NAN", ".inf", ".Inf", ".INF", "+.inf", "+.Inf", "+.INF"]

def lowestWords : List Text := ["-.inf", "-.Inf", "-.INF"]

/-- What a numeral stands for, if it is one. -/
def numeral? (t : Text) : Option Number :=
  match t with
  | [] => none
  | c :: _ =>
    if c = '.' then pointNumber? t
    else if c.isDigit ∨ c = '+' ∨ c = '-' then digitNumber? t
    else none

def meaning (t : Text) : Meaning :=
  if nullWords.contains t then .nothing
  else if trueWords.contains t then .truth true
  else if falseWords.contains t then .truth false
  else if unboundedWords.contains t then .number (.rounded none)
  else if lowestWords.contains t then .number (.rounded (some (-(Word.half : Int))))
  else if Instant.isInstant t then .instant
  else
    match numeral? t with
    | some n => .number n
    | none => .plain

/-- Whether a number that has to be rounded may be given as `n`: unsigned words may not. -/
def Number.toRounded? : Number → Option Number
  | .integer n => if n < Word.half then some (.ofRounding n) else none
  | .rounded whole => some (.rounded whole)

/-- What a text with a tag stands for, if it is of the kind that the tag asks for. Tags of no kind
ask for a text. -/
def taggedMeaning? (tag t : Text) : Option Meaning :=
  let asked (kind : String) : Bool := tag == "!!".toList ++ kind.toList
  if asked "null" then (if meaning t = .nothing then some .nothing else none)
  else if asked "bool" then
    match meaning t with
    | .truth b => some (.truth b)
    | _ => none
  else if asked "int" then
    match meaning t with
    | .number (.integer n) => some (.number (.integer n))
    | _ => none
  else if asked "float" then
    match meaning t with
    | .number n => n.toRounded?.map .number
    | _ => none
  else if asked "timestamp" then (if meaning t = .instant then some .instant else none)
  else if asked "binary" then none
  else some .plain

/-- What a text of the file stands for; nothing if its tag asks for something else. -/
def scalarMeaning? (tag : Option Text) (quoted : Bool) (t : Text) : Option Meaning :=
  match tag with
  | some tag => taggedMeaning? tag t
  | none => some (if quoted then .plain else meaning t)

end ClassicBasic.Yaml
