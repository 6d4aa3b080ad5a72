import ClassicBasic.Diagnostic
import ClassicBasic.Dialect.Vocabulary

/-!
# Short names for variables

A classic BASIC tells variables apart by two characters. Long names get short ones: declared by the
program, or taken from a stock that is used from its end. Names that the program writes itself, in
two letters or kept long on purpose, are never given to another variable.
-/

set_option autoImplicit false

namespace ClassicBasic

/-- What is known about the names of variables, shared by a program and all it includes. -/
structure Naming where
  /-- The short names given, by the qualified long name, in the order they were given. -/
  declared : List (Text × Text) := []
  /-- Short names that the program writes itself. -/
  written : List Text := []
  /-- Long names that stay as they are. -/
  kept : List Token := []
  /-- Slots from this one on have been used or passed over. -/
  free : Nat := Dialect.slotCount
  deriving DecidableEq, Repr

namespace Naming

/-- The characters of a name that the interpreter tells apart. -/
def significant (name : Text) : Text := name.take Dialect.nameLength

def unqualified (key : Text) : Text := key.takeWhile (· != '@')

def shortOf? (n : Naming) (t : Token) : Option Text := n.declared.lookup t.qualified

def isKept (n : Naming) (t : Token) : Bool := n.kept.any fun k => k.qualified == t.qualified

def declare (n : Naming) (t : Token) (short : Text) : Naming :=
  { n with declared := n.declared ++ [(t.qualified, short)] }

def write (n : Naming) (name : Text) : Naming :=
  if n.written.contains name then n else { n with written := n.written ++ [name] }

def keep (n : Naming) (t : Token) : Naming :=
  if n.isKept t then n else { n with kept := n.kept ++ [t] }

def walked {α : Type} (k : Nat) : List α → List α
  | [] => []
  | a :: l => (walked (k / (l.length + 1)) l).insertIdx (k % (l.length + 1)) a

def isTaken (n : Naming) (short : Text) : Bool :=
  n.declared.any (fun e => e.2 == short) || n.written.contains short ||
    n.kept.any fun k => significant k.varName == short

/-- The last short name below a slot that is neither taken nor reserved, and its slot. -/
def lastFree (d : Dialect) (n : Naming) : Nat → Option (Text × Nat)
  | 0 => none
  | slot + 1 =>
    match Dialect.shortName? slot with
    | none => lastFree d n slot
    | some short =>
      if n.isTaken short || d.isReserved short then lastFree d n slot else some (short, slot)

/-- The short name of a variable, given to it on its first use. -/
def allocate (d : Dialect) (n : Naming) (t : Token) : Except Failure (Text × Naming) :=
  match n.shortOf? t with
  | some short => .ok (short, n)
  | none =>
    match lastFree d n n.free with
    | some (short, slot) => .ok (short, { n.declare t short with free := slot })
    | none => .error (t.failure (.tooManyVariables Dialect.slotCount t.value))

/-- The token of a variable under its short name. Short names and kept ones stay. -/
def shorten (d : Dialect) (n : Naming) (t : Token) : Except Failure (Token × Naming) :=
  if t.varName.length ≤ Dialect.nameLength || n.isKept t then .ok (t, n)
  else (n.allocate d t).map fun given => (t.withValue (given.1 ++ t.sigil), given.2)

end Naming

end ClassicBasic
