import ClassicBasic.Dialect.Vocabulary
import ClassicBasic.Token.Kind

/-!
# Grammars

A grammar is an ordered list of rules; the first rule that accepts a whole text decides its kind.
Letters match up to case folding, digits and blanks are those of ASCII.
-/

set_option autoImplicit false

namespace ClassicBasic

structure NumberForm where
  /-- Letters that introduce an exponent. -/
  exponents : List Char
  /-- Signs of the type behind a decimal numeral. -/
  suffixes : List Char
  /-- Letters after & with the digits they admit. -/
  bases : List (Char × List Char)
  deriving DecidableEq, Repr

inductive Shape
  /-- Line ends, at least one. -/
  | lineEnds
  /-- One blank inside a line. -/
  | blank
  /-- One of the words, or one of the numbered words with or without a digit. -/
  | words (plain numbered : List Text)
  /-- The lead, a letter and letters, digits or underscores, then maybe a type sigil. -/
  | name (lead : Text) (typed : Bool)
  /-- A complete numeral. -/
  | number (form : NumberForm)
  /-- The start of a numeral in another base. -/
  | baseMark (form : NumberForm)
  deriving DecidableEq, Repr

structure Rule where
  kind : Kind
  shape : Shape
  deriving DecidableEq, Repr

namespace Grammar

def isLetter (c : Char) : Bool :=
  let f := Text.foldChar c
  'a' ≤ f && f ≤ 'z'

/-- Whether `c` may stand in a name after its first letter. -/
def isNameChar (c : Char) : Bool := isLetter c || c == '_' || c.isDigit

def isTypeSigil (c : Char) : Bool := c == '%' || c == '!' || c == '#' || c == '$'

def isOneOf (letters : List Char) (c : Char) : Bool :=
  letters.any fun l => Text.foldChar l == Text.foldChar c

/-- What follows a name's first letter: name characters, then at most a sigil if `typed`. -/
def nameTail (typed : Bool) : Text → Bool
  | [] => true
  | [c] => isNameChar c || (typed && isTypeSigil c)
  | c :: rest => isNameChar c && nameTail typed rest

/-- Whether `t` is a letter followed by the rest of a name. -/
def isName (typed : Bool) : Text → Bool
  | [] => false
  | c :: rest => isLetter c && nameTail typed rest

def after (lead t : Text) : Option Text :=
  if lead.isPrefixOf t then some (t.drop lead.length) else none

def numberEnd (form : NumberForm) : Text → Bool
  | [] => true
  | [c] => form.suffixes.contains c
  | _ => false

/-- What follows the digits of a decimal numeral: maybe an exponent, then its end. The digits of an
exponent may be missing. -/
def exponentTail (form : NumberForm) : Text → Bool
  | [] => true
  | c :: rest =>
    if isOneOf form.exponents c then
      match rest with
      | '+' :: digits => numberEnd form (digits.dropWhile Char.isDigit)
      | '-' :: digits => numberEnd form (digits.dropWhile Char.isDigit)
      | digits => numberEnd form (digits.dropWhile Char.isDigit)
    else numberEnd form (c :: rest)

/-- Whether `t` is a decimal numeral: digits with at most one point, at least one digit before the
point or after it when it comes first. -/
def isDecimal (form : NumberForm) (t : Text) : Bool :=
  match t with
  | [] => false
  | '.' :: c :: rest => c.isDigit && exponentTail form (rest.dropWhile Char.isDigit)
  | c :: rest =>
    c.isDigit &&
      match rest.dropWhile Char.isDigit with
      | '.' :: fraction => exponentTail form (fraction.dropWhile Char.isDigit)
      | tail => exponentTail form tail

def isBased (form : NumberForm) : Text → Bool
  | '&' :: c :: digits =>
    digits != [] && form.bases.any fun b => isOneOf [b.1] c && digits.all (isOneOf b.2)
  | _ => false

/-- Whether `t` is the start of a numeral in another base. -/
def isBaseMark (form : NumberForm) : Text → Bool
  | ['&'] => true
  | ['&', c] => isOneOf (form.bases.map Prod.fst) c
  | _ => false

/-- Whether `t` is `word` with or without a digit behind it. -/
def isNumbered (word t : Text) : Bool :=
  Text.sameLetters word t ||
    match t.getLast? with
    | some c => c.isDigit && Text.sameLetters word t.dropLast
    | none => false

end Grammar

open Grammar in
def Shape.accepts : Shape → Text → Bool
  | .lineEnds, t => t != [] && t.all (· == '\r')
  | .blank, t =>
    match t with
    | [c] => c == ' ' || c == '\t' || c == '\x0c'
    | _ => false
  | .words plain numbered, t =>
    plain.any (Text.sameLetters · t) || numbered.any (isNumbered · t)
  | .name lead typed, t =>
    match after lead t with
    | some rest => isName typed rest
    | none => false
  | .number form, t => isDecimal form t || isBased form t
  | .baseMark form, t => isBaseMark form t

namespace Dialect

def numberForm : Dialect → NumberForm
  | .msx =>
    { exponents := ['D', 'E'], suffixes := ['%', '#', '!']
      bases := [('H', "0123456789ABCDEF"), ('O', "01234567"), ('B', "01")] }
  | .coco =>
    { exponents := ['E'], suffixes := []
      bases := [('H', "0123456789ABCDEF"), ('O', "01234567")] }

/-- The rules of the dignified syntax, shared by all dialects. -/
def dignifiedRules : List Rule :=
  [⟨.newline, .lineEnds⟩,
    ⟨.spaces, .blank⟩,
    ⟨.directive,
      .words ["DEFINE", "DECLARE", "INCLUDE", "KEEP", "ENDIF", "FUNC", "RET", "EXIT"] []⟩,
    ⟨.functionName, .name ['.'] false⟩,
    ⟨.truth, .words ["TRUE", "FALSE"] []⟩,
    ⟨.mark, .words ["[", "]", "\x7b", "\x7d", "@", "~"] []⟩,
    ⟨.lineComment, .words ["##"] []⟩,
    ⟨.joiner, .words ["_"] []⟩,
    ⟨.toggle, .name ['#'] false⟩,
    ⟨.blockComment, .words ["###"] []⟩,
    ⟨.lonePoint, .words ["."] []⟩]

def classicRules (d : Dialect) : List Rule :=
  [⟨.operator, .words d.operators []⟩,
    ⟨.symbol, .words d.symbols []⟩,
    ⟨.compound, .words compounds []⟩,
    ⟨.function, .words (d.functions ++ d.textFunctions) numberedFunctions⟩,
    ⟨.jump, .words d.jumps []⟩,
    ⟨.instruction, .words d.instructions numberedInstructions⟩,
    ⟨.number, .number d.numberForm⟩,
    ⟨.remark, .words ["'", "REM"] []⟩,
    ⟨.data, .words ["DATA"] []⟩,
    ⟨.blockRemark, .words ["''"] []⟩,
    ⟨.baseMark, .baseMark d.numberForm⟩,
    ⟨.separator, .words [":"] []⟩,
    ⟨.quote, .words ["\""] []⟩,
    ⟨.identifier, .name [] true⟩]

def grammar (d : Dialect) : List Rule := dignifiedRules ++ d.classicRules

def classify (d : Dialect) (t : Text) : Option Kind :=
  (d.grammar.find? (·.shape.accepts t)).map Rule.kind

/-- Whether `t` may name a define, a label or a declared variable. -/
def isIdentifier (t : Text) : Bool := Grammar.isName false t

def isFunctionName (t : Text) : Bool := (Shape.name ['.'] false).accepts t

/-- A mark and the name behind it, taken apart. -/
def splitToggle : Text → Option (Text × Text)
  | '#' :: c :: rest => if (c :: rest).contains '\n' then none else some (['#'], c :: rest)
  | _ => none

end Dialect

end ClassicBasic
