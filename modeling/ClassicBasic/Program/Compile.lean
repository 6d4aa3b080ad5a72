import ClassicBasic.Program.Include
import ClassicBasic.Program.Render
import ClassicBasic.Program.Report
import ClassicBasic.Program.Touch

/-!
# Compiling a program

From the listing of a program to its classic lines, with a log of the way there.
-/

set_option autoImplicit false

namespace ClassicBasic

structure Compiled where
  /-- The classic lines. -/
  code : List Text
  /-- The tokens that were read. -/
  lexed : List Token
  /-- The tokens that were written. -/
  parsed : List Token
  /-- The lines, with what they were made from. -/
  infos : List LineInfo
  deriving DecidableEq, Repr

namespace Compile

/-- What the log says about how many things were made. Times are not measured. -/
def created (n : Nat) (things : Text) : Record :=
  .item (Text.ofNat n ++ " " ++ things ++ " created in 0.0000s.")

def ofListing (s : Setting) (o : Options) (listing : Listing) : Conversion Compiled := do
  Conversion.note false (.item "Lexing.")
  let lexed ← Conversion.ofExcept (Lexer.lex s.dialect listing)
  Conversion.note false (created lexed.length "tokens")
  Conversion.note false (.item "Parsing.")
  let merged ← Branch.convert s s.shelf.size (Branch.main s) lexed
  Conversion.checkpoint
  Conversion.note false (.item "Pass 4.")
  let whole := if o.header then Numbering.withHeader merged else merged
  let numbered ← Numbering.number s.dialect o.scale whole
  Conversion.note false (.item "Pass 5.")
  let parsed ← Conversion.ofExcept (Touch.finish s.dialect o numbered.tokens)
  Conversion.note false (created parsed.length "tokens")
  Conversion.note false (.item "Generating.")
  let code ← Conversion.ofExcept (Render.lines s.dialect o numbered.notes parsed)
  Conversion.note false (created code.length "lines")
  Conversion.note false (.item "Total: 0.0000s.")
  return { code, lexed, parsed, infos := numbered.infos.drop 1 }

def ofFile (s : Setting) (o : Options) : Conversion Compiled := do
  Conversion.note false (.step ("Basic Dignified: " ++ s.dialect.name))
  Conversion.note false (.step ("Converting: " ++ PathName.base s.main))
  Conversion.note false (.detail ("Loading file: " ++ s.main))
  match s.shelf.load s.main with
  | .error e => throw (.unloadable e)
  | .ok listing => ofListing s o listing

/-- The reports on a compiled program: its lines, the short names given, and its tokens as read and
as written. -/
def reports (c : Compiled) (given : List (Text × Text)) (main : Text) : List Report :=
  [Report.ofLines c.infos, Report.ofVariables given, Report.ofTokens "lexer" main c.lexed,
    Report.ofTokens "parser" main c.parsed]

end Compile

end ClassicBasic
