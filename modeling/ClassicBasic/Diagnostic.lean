import ClassicBasic.Library
import ClassicBasic.Token.Basic

/-!
# Diagnostics

Why a program or a listing is refused, or what is worth a warning. Each reason carries the texts
its wording names; the wording itself is in one place.
-/

set_option autoImplicit false

namespace ClassicBasic

inductive Cause
  -- Reading characters
  | unrecognised (text : Text)
  | incomplete (text : Text)
  | blockNotClosed (line : Int)
  -- Directives
  | notAtLineStart (word : Text)
  | toggleNotClosed (tag : Text)
  | invalidKeepTag (tag : Text)
  | keepTagDuplicated (tag : Text)
  | missing (symbol : Text)
  | unbalanced (brackets : Text)
  | expecting (symbol : Text)
  | closingNotFound (symbol : Text)
  -- Defines
  | blankDefinition
  | invalidDefineName (name : Text)
  | defineDuplicated (name : Text)
  | invalidDefineParameter (name : Text)
  | tooManyOpened (symbol : Text)
  | blankDefine
  | notDefineName (name : Text)
  | undefinedDefine (name : Text)
  -- Functions
  | insideFunction
  | functionDuplicated (name : Text)
  | missingParameter (name : Text)
  | parameterNotVariable (value : Text)
  | parameterNotSingle (value : Text)
  | resultOutsideFunction
  | missingResult
  | invalidFunctionName (name : Text)
  | functionNotClosed (name : Text)
  | undefinedFunction (name : Text)
  | argumentMismatch
  | variableMismatch
  | callNotVariable (value : Text)
  | callNotSingle (value : Text)
  -- Names of variables
  | invalidDeclared (name : Text)
  | declaredTooShort (name : Text)
  | reservedKeyword (name : Text)
  | invalidShort (name : Text)
  | longTaken (name other short : Text)
  | longRedeclared (name wanted other short : Text)
  | shortRedeclared (name wanted other short : Text)
  | keptDeclared (name wanted : Text)
  | keepOnShort (name : Text)
  | declaredKept (written name short : Text)
  | tooManyVariables (max : Nat) (name : Text)
  | declaredConflict (name other short : Text)
  | keptConflict (name other : Text)
  | shortConflict (name other : Text)
  | keptConflictWith (name short other : Text)
  | shortConflictWith (name short : Text)
  -- Labels and loops
  | blankLabel
  | misplacedLabel
  | invalidLabel (name : Text)
  | labelDuplicated (name : Text)
  | undefinedLabel (name : Text)
  | loopNotOpened
  | loopNotClosed (name : Text)
  | exitOutsideLoop
  | exitPastEnd
  -- Includes
  | notAFileName (value : Text)
  | circularInclude (file : Text)
  | includeFailed (error : LoadError)
  -- Classic lines
  | lineStartsWithNumber (value : Text)
  | compoundOperand (symbol : Text)
  | untranslatable (char : Char)
  | lineTooLong (length : Nat)
  -- Classic listings
  | notFramed
  | lineNumberMissing
  | lineNumberInvalid (digits : Text)
  | lineNumberOrder (number : Int)
  | numberWithoutCode (number : Int)
  | lineAbsent (number : Int)
  deriving DecidableEq, Repr

def Cause.message : Cause → Text
  | .unrecognised text => "Character not recognized in this context: " ++ text
  | .incomplete text => "Token incomplete: " ++ text
  | .blockNotClosed line => "Block not closed from: " ++ Text.ofInt line
  | .notAtLineStart word => word ++ " must be at the start of a line."
  | .toggleNotClosed tag => "Toggle rem not closed from " ++ tag
  | .invalidKeepTag tag => "Invalid keep tag: " ++ tag
  | .keepTagDuplicated tag => "Keep tag duplicated: " ++ tag
  | .missing symbol => "Missing " ++ symbol
  | .unbalanced brackets => "Unbalanced " ++ brackets
  | .expecting symbol => "Expecting: " ++ symbol
  | .closingNotFound symbol => "Closing \"" ++ symbol ++ "\" not found."
  | .blankDefinition => "Define definition blank."
  | .invalidDefineName name => "Invalid define name: " ++ name
  | .defineDuplicated name => "Define name duplicated: " ++ name
  | .invalidDefineParameter name => "Invalid define parameter: " ++ name
  | .tooManyOpened symbol => "Too many opened \"" ++ symbol ++ "\""
  | .blankDefine => "Define blank."
  | .notDefineName name => name ++ " invalid define name."
  | .undefinedDefine name => name ++ " define not defined."
  | .insideFunction => "Already inside a function."
  | .functionDuplicated name => "Function name duplicated: " ++ name
  | .missingParameter name => "Function definition missing argument: " ++ name
  | .parameterNotVariable value => "Function definition only takes variables: " ++ value
  | .parameterNotSingle value => "Function definition only takes one variable: " ++ value
  | .resultOutsideFunction => "Ret without function."
  | .missingResult => "Function return missing variable."
  | .invalidFunctionName name => "Invalid function name: " ++ name
  | .functionNotClosed name => "Func without ret: " ++ name
  | .undefinedFunction name => "Function not defined: " ++ name
  | .argumentMismatch => "Function arguments mismatch."
  | .variableMismatch => "Function variable mismatch."
  | .callNotVariable value => "Function call only takes variables: " ++ value
  | .callNotSingle value => "Function call only takes one variable: " ++ value
  | .invalidDeclared name => "Invalid declared variable: " ++ name
  | .declaredTooShort name => "Declared variable too short: " ++ name
  | .reservedKeyword name => "Variable is a reserved keyword: " ++ name
  | .invalidShort name => "Invalid declared short variable: " ++ name
  | .longTaken name other short =>
    "Long variable already reserved: " ++ name ++ " " ++ other ++ ":" ++ short
  | .longRedeclared name wanted other short =>
    "Long variable already declared: " ++ name ++ ":" ++ wanted ++ " " ++ other ++ ":" ++ short
  | .shortRedeclared name wanted other short =>
    "Short variable already declared: " ++ name ++ ":" ++ wanted ++ " " ++ other ++ ":" ++ short
  | .keptDeclared name wanted =>
    "Long variable already reserved: " ++ name ++ ":" ++ wanted ++ " " ++ name
  | .keepOnShort name => "Can't use ~ on a short named variable: " ++ name
  | .declaredKept written name short =>
    "Long variable already declared: " ++ written ++ " " ++ name ++ ":" ++ short
  | .tooManyVariables max name =>
    "Too many variables used (max=" ++ Text.ofNat max ++ "): " ++ name
  | .declaredConflict name other short =>
    "Declared variable conflict: " ++ name ++ " " ++ other ++ ":" ++ short
  | .keptConflict name other => "Reserved long variable conflict: " ++ name ++ " " ++ other
  | .shortConflict name other => "Reserved short variable conflict: " ++ name ++ " " ++ other
  | .keptConflictWith name short other =>
    "Reserved long variable conflict: " ++ name ++ ":" ++ short ++ " " ++ other
  | .shortConflictWith name short =>
    "Reserved short variable conflict: " ++ name ++ ":" ++ short ++ " " ++ short
  | .blankLabel => "Label blank."
  | .misplacedLabel => "Label error."
  | .invalidLabel name => "Invalid label name: " ++ name
  | .labelDuplicated name => "Label duplicated: " ++ name
  | .undefinedLabel name => "Label does not exist: " ++ name
  | .loopNotOpened => "Loop label close without open."
  | .loopNotClosed name => "Loop label not closed from: " ++ name
  | .exitOutsideLoop => "Exit outside of a loop label."
  | .exitPastEnd => "Loop exit past end of program."
  | .notAFileName value => "Include error: " ++ value
  | .circularInclude file => "circular include detected: " ++ file
  | .includeFailed error => error.message
  | .lineStartsWithNumber value => "Line starting with number: " ++ value
  | .compoundOperand symbol => "Compound assignment needs a plain variable: " ++ symbol
  | .untranslatable char =>
    "Translate cannot encode character: " ++ [char] ++ " (" ++ Text.ofNat char.toNat ++ ")"
  | .lineTooLong length => "Line too long: " ++ Text.ofNat length ++ " characters"
  | .notFramed => "Listing without PROGRAM and EOF lines"
  | .lineNumberMissing => "Line number missing"
  | .lineNumberInvalid digits => "Line number not valid: " ++ digits
  | .lineNumberOrder number => "Line number out of order: " ++ Text.ofInt number
  | .numberWithoutCode number => "Line number without code: " ++ Text.ofInt number
  | .lineAbsent number => "Line does not exist: " ++ Text.ofInt number

/-- What went wrong at a place, with the place in front. -/
def Position.tell (pos : Position) (reason : Text) : Text :=
  PathName.base pos.file ++ ": " ++ pos.coordinates ++ ": " ++ reason

inductive Failure
  /-- Something is wrong at a place of a program. -/
  | located (cause : Cause) (pos : Position)
  /-- Something is wrong with a program as a whole. -/
  | general (cause : Cause)
  /-- The conversion was called off. -/
  | canceled
  /-- A file could not be read. -/
  | unloadable (error : LoadError)
  /-- A listing came without its sentinel lines. -/
  | unframed
  /-- The text of a listing ended where more had to follow. -/
  | exhausted
  deriving DecidableEq, Repr

namespace Failure

/-- Where the failure is, if it is at a place of a program. -/
def position? : Failure → Option Position
  | .located _ pos => some pos
  | _ => none

/-- What went wrong, without the place. -/
def reason : Failure → Text
  | .located cause _ => cause.message
  | .general cause => cause.message
  | .canceled => "context canceled"
  | .unloadable error => error.message
  | .unframed => "lexer: listing without PROGRAM and EOF lines"
  | .exhausted => "listing exhausted"

def message (f : Failure) : Text :=
  match f.position? with
  | some pos => pos.tell f.reason
  | none => f.reason

end Failure

def Token.failure (t : Token) (cause : Cause) : Failure := .located cause t.pos

end ClassicBasic
