import ClassicBasic.Text.Basic

/-!
# Listings

A listing is the numbered lines of a file between two sentinel lines. Any of the three conventions
ends a line, and a line end at the very end starts no further line.
-/

set_option autoImplicit false

namespace ClassicBasic

structure Line where
  number : Nat
  text : Text
  file : Text
  deriving DecidableEq, Repr

/-- Numbered lines, sentinels included. -/
abbrev Listing := List Line

namespace Listing

def programText : Text := "PROGRAM"

def eofText : Text := "EOF"

def unifyEnds : Text → Text
  | [] => []
  | '\r' :: '\n' :: t => '\n' :: unifyEnds t
  | '\r' :: t => '\n' :: unifyEnds t
  | c :: t => c :: unifyEnds t

/-- Blanks in place of tabs, each filling up to the next multiple of `size` from column `col`. -/
def expandFrom (size col : Nat) : Text → Text
  | [] => []
  | '\t' :: t =>
    let pad := size - col % size
    List.replicate pad ' ' ++ expandFrom size (col + pad) t
  | c :: t => c :: expandFrom size (col + 1) t

/-- Blanks in place of tabs; a size that is not positive leaves them. -/
def expandTabs (size : Int) (t : Text) : Text :=
  if size ≤ 0 then t else expandFrom size.toNat 0 t

def lineTexts (t : Text) : List Text :=
  let unified := unifyEnds t
  let body := (Text.dropTail ['\n'] unified).getD unified
  if body = [] then [] else Text.splitAt '\n' body

def numberFrom (file : Text) : Nat → List Text → Listing
  | _, [] => []
  | n, t :: rest => ⟨n, t, file⟩ :: numberFrom file (n + 1) rest

def framed (file : Text) (texts : List Text) : Listing :=
  ⟨0, programText, file⟩ :: numberFrom file 1 texts ++ [⟨texts.length + 1, eofText, file⟩]

def ofText (t file : Text) (tab : Int) : Listing :=
  framed file ((lineTexts t).map (expandTabs tab))

end Listing

end ClassicBasic
