import ClassicBasic.Program.Options
import ClassicBasic.Dialect.Charset
import ClassicBasic.Lexer.Munch

/-!
# Last touches

The fifth stage of a conversion, on a numbered program: truth values become numbers, a compound
assignment is written out, and the style of PRINT, of THEN GOTO, of literals and of capitals is
brought to what the options ask for.
-/

set_option autoImplicit false

namespace ClassicBasic.Touch

def isPrint (t : Token) : Bool :=
  t.kind == .instruction && (t.value == Options.questionMark || t.is "print")

def printed (o : Options) (t : Token) : Token :=
  t.withValue (if o.printStyle = Options.questionMark then Options.questionMark else "print")

def operator (t : Token) : Text := t.value.take 1

/-- Whether a compound assignment changes its variable by one. -/
def isByOne (t : Token) : Bool := t.value.all fun c => t.value.head? == some c

/-- `x op= e` as `x = x op e`, behind the variable `x`. -/
def writtenOut (d : Dialect) (t operand : Token) : List Token :=
  Lexer.snippet d t.pos "=" ++ operand :: Lexer.snippet d t.pos (operator t) ++
    if isByOne t then Lexer.snippet d t.pos "1" else []

/-- Whether the last token of an output (last token first) is one of the words. -/
def follows (out : List Token) (words : List Text) : Bool :=
  match out with
  | [] => false
  | t :: _ => words.any (t.is ·)

/-- A token in capitals, if that is asked for and the token is no literal. -/
def capitalised (d : Dialect) (o : Options) (t : Token) : Token :=
  if o.inCapitals d && !t.kind.isLiteral then t.withValue t.upper else t

/-- The tokens that a token is replaced by behind an output (last token first); `next` is the token
behind it. -/
def touch (d : Dialect) (o : Options) (out : List Token) (t next : Token) :
    Except Failure (List Token) :=
  if isPrint t ∧ o.printStyle ≠ [] then .ok [capitalised d o (printed o t)]
  else if o.dropsThen ∧ t.kind = .jump ∧ t.is "THEN" ∧ next.is "GOTO" then .ok []
  else if o.dropsGoto ∧ t.kind = .jump ∧ t.is "GOTO" ∧ follows out ["THEN", "ELSE"] then .ok []
  else if t.kind = .compound then
    match out with
    | [] => .error (t.failure (.compoundOperand t.value))
    | operand :: _ =>
      if operand.kind = .identifier then .ok (writtenOut d t operand)
      else .error (t.failure (.compoundOperand t.value))
  else if t.kind = .truth ∧ t.is "FALSE" then .ok (Lexer.snippet d t.pos "0")
  else if t.kind = .truth ∧ t.is "TRUE" then .ok (Lexer.snippet d t.pos "-1")
  else if o.translate ∧ t.kind.isLiteral then .ok [t.withValue (d.translate t.value)]
  else .ok [capitalised d o t]

/-- The fifth stage on the tokens `input` behind an output (last token first). -/
def run (d : Dialect) (o : Options) (out : List Token) : List Token → Except Failure (List Token)
  | [] => .error .exhausted
  | t :: rest =>
    if t.kind = .eof then .ok (t :: out).reverse
    else
      match touch d o out t (rest.headD t) with
      | .error e => .error e
      | .ok tokens => run d o (tokens.reverse ++ out) rest

def finish (d : Dialect) (o : Options) : List Token → Except Failure (List Token)
  | [] => .error .exhausted
  | start :: rest => run d o [start] rest

end ClassicBasic.Touch
