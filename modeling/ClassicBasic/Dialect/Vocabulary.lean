import ClassicBasic.Dialect.Basic

/-!
# Vocabularies

The words and symbols of each dialect, in capitals. Words are recognised by their capitals, so a
character whose capital is a letter of the word counts as that letter.
-/

set_option autoImplicit false

namespace ClassicBasic.Dialect

def instructions : Dialect → List Text
  | .msx => Text.ofAscii
    ["AS", "BASE", "BEEP", "BLOAD", "BSAVE", "CALL", "CIRCLE", "CLEAR", "CLOAD", "CLOSE", "CLS",
      "CMD", "COLOR", "CONT", "COPY", "CSAVE", "CSRLIN", "DEF", "DEFDBL", "DEFINT", "MAXFILES",
      "DEFSNG", "DEFSTR", "DIM", "DRAW", "DSKI", "END", "EQV", "ERASE", "ERR", "ERROR", "FIELD",
      "FILES", "FN", "FOR", "GET", "IF", "INPUT", "INTERVAL", "IMP", "IPL", "KILL", "LET",
      "LFILES", "LINE", "LOAD", "LOCATE", "LPRINT", "LSET", "MAX", "MERGE", "MOTOR", "NAME",
      "NEW", "NEXT", "OFF", "ON", "OPEN", "OUT", "OUTPUT", "PAINT", "POINT", "POKE", "PRESET",
      "PRINT", "PSET", "PUT", "READ", "RSET", "SAVE", "SCREEN", "SET", "SOUND", "STEP", "STOP",
      "SWAP", "TIME", "TO", "TROFF", "TRON", "USING", "VPOKE", "WAIT", "WIDTH", "?"]
  | .coco => Text.ofAscii
    ["ATTR", "AUDIO", "BACKUP", "CIRCLE", "CLEAR", "CLOAD", "CLOSE", "CLS", "CMP", "COLOR",
      "CONT", "COPY", "CSAVE", "CVN", "DEF", "DIM", "DIR", "DLOAD", "DOS", "DRAW", "DRIVE",
      "DSKINI", "END", "EVAL", "EXEC", "FIELD", "FILES", "FOR", "FREE", "GET", "HBUFF", "HCIRCLE",
      "HCLS", "HCOLOR", "HDRAW", "HGET", "HLINE", "HPAINT", "HPRINT", "HPUT", "HRESET", "HSCREEN",
      "HSET", "HSTAT", "IF", "INPUT", "KILL", "LET", "LINE", "LOAD", "LOCATE", "LOC", "LOF",
      "LPOKE", "LSET", "MERGE", "MOTOR", "NEW", "NEXT", "OFF", "ON", "OPEN", "PAINT", "PALETTE",
      "PCLEAR", "PCLS", "PCOPY", "PLAY", "PMODE", "POKE", "PRESET", "PRINT", "PSET", "PUT",
      "READ", "RENAME", "RESET", "RESTORE", "RETURN", "RGB", "RSET", "SAVE", "SCREEN", "SET",
      "SKIPF", "SOUND", "STEP", "STOP", "SUB", "TAB", "TO", "TROFF", "TRON", "UNLOAD", "VERIFY",
      "WIDTH", "WRITE", "DSKI$", "DSKO$", "MKN$", "?"]

def textFunctions : Dialect → List Text
  | .msx => Text.ofAscii
    ["ATTR$", "BIN$", "CHR$", "DSKO$", "HEX$", "INKEY$", "INPUT$", "LEFT$", "MID$", "MKD$",
      "MKI$", "MKS$", "OCT$", "RIGHT$", "SPACE$", "SPRITE$", "STR$", "STRING$"]
  | .coco => Text.ofAscii
    ["CHR$", "HEX$", "INKEY$", "LEFT$", "RIGHT$", "MID$", "STR$"]

def functions : Dialect → List Text
  | .msx => Text.ofAscii
    ["ABS", "ASC", "ATN", "CDBL", "CINT", "COS", "CSNG", "CVD", "CVI", "CVS", "DSKF", "EOF",
      "EXP", "FIX", "FPOS", "FRE", "INP", "INSTR", "INT", "KEY", "LEN", "LOC", "LOF", "LOG",
      "LPOS", "PAD", "PDL", "PEEK", "PLAY", "POS", "RND", "SGN", "SIN", "SPC", "SPRITE", "SQR",
      "STICK", "STRIG", "TAB", "TAN", "VAL", "VARPTR", "VDP", "VPEEK"]
  | .coco => Text.ofAscii
    ["ABS", "ASC", "ATN", "BUTTON", "COS", "EOF", "ERLIN", "ERRNO", "EXP", "FIX", "HPOINT",
      "INSTR", "INT", "JOYSTK", "LEN", "LOG", "LPEEK", "MEM", "PEEK", "POINT", "POS", "PPOINT",
      "RND", "SGN", "SIN", "STRING", "SQR", "TAN", "TIMER", "VAL", "VARPTR"]

def jumps : Dialect → List Text
  | .msx => Text.ofAscii
    ["RESTORE", "AUTO", "RENUM", "DELETE", "RESUME", "ERL", "ELSE", "RUN", "LIST", "LLIST",
      "GOTO", "RETURN", "THEN", "GOSUB"]
  | .coco => Text.ofAscii
    ["GOTO", "GOSUB", "RENUM", "RUN", "DEL", "ELSE", "LIST", "LLIST", "THEN", "BRK", "ERR", "EDIT"]

def operators : Dialect → List Text
  | .msx => Text.ofAscii
    ["AND", "MOD", "NOT", "OR", "XOR"]
  | .coco => Text.ofAscii
    ["NOT", "AND", "OR"]

def symbols : Dialect → List Text
  | .msx => Text.ofAscii
    [">", "=", "<", "+", "*", "/", "^", "\\", "-", ",", "(", ")", ";", "#"]
  | .coco => Text.ofAscii
    [">", "=", "<", "+", "*", "/", "^", "-", ",", "(", ")", ";", "#", "@"]

def compounds : List Text := ["++", "--", "+=", "-=", "*=", "/=", "^="]

def numberedInstructions : List Text := ["DEFUSR"]

def numberedFunctions : List Text := ["USR"]

/-- Reserved words that the grammar reads by rules of their own. -/
def reservedOnly : Dialect → List Text
  | .msx => ["DATA"]
  | .coco => ["REM", "DATA"]

/-- A word that a digit may follow, in all its forms. -/
def numberedForms (word : Text) : List Text :=
  word :: ("0123456789".toList.map fun digit => word ++ [digit])

/-- Words at which the search for the variables of a function call stops. -/
def stopWords (d : Dialect) : List Text :=
  d.instructions ++ numberedInstructions.flatMap numberedForms ++ d.jumps ++ d.textFunctions ++
    d.functions ++ numberedFunctions.flatMap numberedForms

def reservedWords (d : Dialect) : List Text := d.stopWords ++ d.operators ++ d.reservedOnly

def isReserved (d : Dialect) (word : Text) : Bool := d.reservedWords.contains (Text.upper word)

/-- Whether `word` ends the search for the variables of a function call. -/
def isStopWord (d : Dialect) (word : Text) : Bool := d.stopWords.contains (Text.upper word)

/-- Whether a keyword next to `symbol` needs no blank between them. -/
def isTight (d : Dialect) (symbol : Text) : Bool :=
  symbol == ":" || symbol == "_" || (d.symbols.contains symbol && symbol != "#")

/-- Whether `name` is a variable name that the interpreter tells apart in full. -/
def isShortName : Text → Bool
  | [c] => c.isAlpha
  | [c, e] => c.isAlpha && e.isAlphanum
  | _ => false

end ClassicBasic.Dialect
