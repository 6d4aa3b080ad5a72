import ClassicBasic.Text.Case

/-!
# Kinds of tokens

Kinds up to the data items come from the lexer; the rest are made while a program is converted.
-/

set_option autoImplicit false

namespace ClassicBasic

inductive Kind
  /-- A character outside the grammar. -/
  | illegal
  /-- Start of a token list. -/
  | program
  /-- End of a token list. -/
  | eof
  /-- End of a line. -/
  | newline
  /-- A blank, never kept. -/
  | spaces
  /-- DEFINE DECLARE INCLUDE KEEP ENDIF FUNC RET EXIT. -/
  | directive
  /-- A name after a point. -/
  | functionName
  /-- TRUE FALSE. -/
  | truth
  /-- Brackets, braces, @ and ~. -/
  | mark
  /-- ##. -/
  | lineComment
  /-- _. -/
  | joiner
  /-- #name. -/
  | toggle
  /-- ###. -/
  | blockComment
  /-- A point that starts nothing. -/
  | lonePoint
  /-- A variable or label name. -/
  | identifier
  /-- AND OR NOT and the like. -/
  | operator
  /-- = + - ( ) and the like. -/
  | symbol
  /-- ++ -- += -= *= /= ^=. -/
  | compound
  /-- ABS CHR$ and the like. -/
  | function
  /-- GOTO GOSUB THEN and the like. -/
  | jump
  /-- PRINT FOR and the like. -/
  | instruction
  /-- A numeral. -/
  | number
  /-- An apostrophe or REM. -/
  | remark
  /-- DATA. -/
  | data
  /-- Two apostrophes. -/
  | blockRemark
  /-- & without digits. -/
  | baseMark
  /-- A colon. -/
  | separator
  /-- The start of a string. -/
  | quote
  /-- A text with its quotes. -/
  | string
  /-- What follows a remark. -/
  | remarkText
  /-- A line of a remark block. -/
  | blockText
  /-- The end of a remark block. -/
  | blockEnd
  /-- One item of DATA. -/
  | dataField
  /-- The number of a classic line. -/
  | lineNumber
  /-- _ used as CALL. -/
  | call
  /-- The name after a CALL. -/
  | callName
  /-- Where a define takes its argument. -/
  | slot
  /-- A marker of the dialect inside a define. -/
  | special
  /-- A label in front of a line. -/
  | labelLine
  /-- A jump to a label. -/
  | labelJump
  /-- The jump back to the start of a loop. -/
  | labelReturn
  /-- The jump past the end of a loop. -/
  | labelExit
  /-- Where a function starts. -/
  | functionEntry
  /-- A call of a function. -/
  | functionCall
  deriving DecidableEq, Repr

namespace Kind

/-- Every kind, in the order of their codes. -/
def all : List Kind :=
  [.illegal, .program, .eof, .newline, .spaces, .directive, .functionName, .truth, .mark,
    .lineComment, .joiner, .toggle, .blockComment, .lonePoint, .identifier, .operator, .symbol,
    .compound, .function, .jump, .instruction, .number, .remark, .data, .blockRemark, .baseMark,
    .separator, .quote, .string, .remarkText, .blockText, .blockEnd, .dataField, .lineNumber,
    .call, .callName, .slot, .special, .labelLine, .labelJump, .labelReturn, .labelExit,
    .functionEntry, .functionCall]

def name : Kind → Text
  | .illegal => "ILLEGAL"
  | .program => "PROGRAM"
  | .eof => "EOF"
  | .newline => "NEWLINE"
  | .spaces => "SPACES"
  | .directive => "D_INSTRUCTION"
  | .functionName => "D_FUNC_NAME"
  | .truth => "D_OPERATOR"
  | .mark => "D_SYMBOL"
  | .lineComment => "D_LINE_REM"
  | .joiner => "D_SEPARATOR"
  | .toggle => "D_TOGGLE_REM"
  | .blockComment => "D_BLOCK_REM"
  | .lonePoint => "D_PARTIAL"
  | .identifier => "IDENTIFIER"
  | .operator => "C_OPERATOR"
  | .symbol => "C_SYMBOL"
  | .compound => "C_EXT_SYMBOL"
  | .function => "C_FUNCTION"
  | .jump => "C_JUMP"
  | .instruction => "C_INSTRUCTION"
  | .number => "NUMBER"
  | .remark => "C_REM"
  | .data => "C_DATA"
  | .blockRemark => "C_BLOCK_REM"
  | .baseMark => "C_PARTIAL"
  | .separator => "C_SEPARATOR"
  | .quote => "C_QUOTE"
  | .string => "STRING"
  | .remarkText => "REM_TEXT"
  | .blockText => "REM_BLOCK_TEXT"
  | .blockEnd => "REM_BLOCK_END"
  | .dataField => "DATA_FIELD"
  | .lineNumber => "LINE_NUMBER"
  | .call => "C_CALL"
  | .callName => "C_CALL_IDENT"
  | .slot => "D_DEFINE_VAR"
  | .special => "D_SPECIAL"
  | .labelLine => "LABEL_LINE"
  | .labelJump => "LABEL_JUMP"
  | .labelReturn => "LABEL_RETURN"
  | .labelExit => "LABEL_EXIT"
  | .functionEntry => "FUNC_DEF"
  | .functionCall => "FUNC_CALL"

/-- The kind with the given code, counted from zero. -/
def ofCode? : Int → Option Kind
  | .ofNat n => all[n]?
  | .negSucc _ => none

/-- The name of the kind with the given code, or the code itself where there is none. -/
def label (code : Int) : Text :=
  match ofCode? code with
  | some kind => kind.name
  | none => "Kind(" ++ Text.ofInt code ++ ")"

/-- Tokens that carry text of the program as it was written. -/
def isLiteral : Kind → Bool
  | .string | .remarkText | .blockText | .dataField => true
  | _ => false

def isPlaceholder : Kind → Bool
  | .labelJump | .labelReturn | .labelExit | .functionCall => true
  | _ => false

end Kind

end ClassicBasic
