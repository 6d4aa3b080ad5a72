import ClassicBasic.Program.Numbering

/-!
# How a program is converted

The switches of a conversion, as they are given: an unknown style changes nothing it is compared
with.
-/

set_option autoImplicit false

namespace ClassicBasic

structure Options where
  scale : Numbering.Scale := {}
  /-- Lines that introduce the program are put in front. -/
  header : Bool := true
  /-- No blanks are put around keywords. -/
  stripSpaces : Bool := false
  capitals : Bool := false
  /-- Literals are written in the character set of the machine. -/
  translate : Bool := false
  /-- A remark behind each line lists the labels it has to do with. -/
  labelReport : Bool := false
  /-- The way PRINT is written: as it is, as a question mark, or in full. -/
  printStyle : Text := []
  /-- Which of THEN GOTO is left out: nothing, `t` or `g`. -/
  thenGoto : Text := []
  deriving DecidableEq, Repr

namespace Options

def questionMark : Text := "?"

def inCapitals (o : Options) (d : Dialect) : Bool := o.capitals || d.forcesCapitals

def dropsThen (o : Options) : Bool := Text.lower o.thenGoto == "t"

def dropsGoto (o : Options) : Bool := Text.lower o.thenGoto == "g"

end Options

end ClassicBasic
