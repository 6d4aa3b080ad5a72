import ClassicBasic.Log
import ClassicBasic.Naming

/-!
# The course of a conversion

What a conversion carries along: the names of variables, the log, how often it may still be asked
whether it should go on, and in which orders it will walk the declared names, which no program can
know. All of it outlives a failure, so that the log can be shown.
-/

set_option autoImplicit false

namespace ClassicBasic

structure Session where
  naming : Naming := {}
  records : List Record := []
  /-- How many more checks find the conversion wanted; without a number all of them do. -/
  allowance : Option Nat := none
  /-- The orders of the walks through the declared names, one for each walk to come; when they run
  out, names are walked as they were declared. -/
  orders : List Nat := []
  deriving DecidableEq, Repr

abbrev Conversion (α : Type) := EStateM Failure Session α

namespace Conversion

def ofExcept {α : Type} (x : Except Failure α) : Conversion α := fun s =>
  match x with
  | .ok a => .ok a s
  | .error e => .error e s

/-- Adds to the log, unless the file being converted is to be quiet. -/
def note (quiet : Bool) (r : Record) : Conversion Unit := fun s =>
  .ok () (if quiet then s else { s with records := s.records ++ [r] })

/-- Adds warnings to the log, unless the file being converted is to be quiet. -/
def warn (quiet : Bool) (warnings : List (Position × Cause)) : Conversion Unit := fun s =>
  .ok () (if quiet then s
    else { s with records := s.records ++ warnings.map fun w => Record.warning w.1 w.2 })

def checkpoint : Conversion Unit := fun s =>
  match s.allowance with
  | none => .ok () s
  | some 0 => .error .canceled s
  | some (n + 1) => .ok () { s with allowance := some n }

def naming : Conversion Naming := fun s => .ok s.naming s

/-- The order of the next walk through the declared names. -/
def order : Conversion Nat := fun s =>
  .ok (s.orders.headD 0) { s with orders := s.orders.tail }

def setNaming (n : Naming) : Conversion Unit := fun s => .ok () { s with naming := n }

end Conversion

end ClassicBasic
