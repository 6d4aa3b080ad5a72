import ClassicBasic.Dialect.Grammar
import ClassicBasic.Text.Blank
import ClassicBasic.Token.Basic

/-!
# The longest token

A candidate grows by one character at a time as long as the grammar accepts it.
-/

set_option autoImplicit false

namespace ClassicBasic.Lexer

/-- Grows `taken`, of kind `kind`, over the elements of a list: the text, its kind and what is left
of the list. -/
def munch {α : Type} (char : α → Char) (d : Dialect) (taken : Text) (kind : Kind) :
    List α → Text × Kind × List α
  | [] => (taken, kind, [])
  | x :: rest =>
    match d.classify (taken ++ [char x]) with
    | some k => munch char d (taken ++ [char x]) k rest
    | none => (taken, kind, x :: rest)

theorem length_munch {α : Type} (char : α → Char) (d : Dialect) (taken : Text) (kind : Kind)
    (l : List α) : (munch char d taken kind l).2.2.length ≤ l.length := by
  induction l generalizing taken kind with
  | nil => simp [munch]
  | cons x rest ih =>
    simp only [munch]
    split
    · exact Nat.le_succ_of_le (ih _ _)
    · simp

/-- The tokens of a piece of code, all of them at `pos`. Blanks separate tokens. The error is a
character outside the grammar; other white space outside the grammar stands as a token. -/
def snippet? (d : Dialect) (pos : Position) (code : Text) : Except Char (List Token) :=
  match code with
  | [] => .ok []
  | c :: rest =>
    match d.classify [c] with
    | none =>
      if Text.isBlank c then
        (snippet? d pos (rest.dropWhile (· == ' '))).map (⟨.illegal, [c], pos⟩ :: ·)
      else .error c
    | some k =>
      let token := munch id d [c] k rest
      (snippet? d pos (token.2.2.dropWhile (· == ' '))).map fun tokens =>
        if token.2.1 = .spaces then tokens else ⟨token.2.1, token.1, pos⟩ :: tokens
termination_by code.length
decreasing_by
  · have := (List.dropWhile_suffix (l := rest) (· == ' ')).length_le
    simp only [List.length_cons]
    omega
  · have := length_munch id d [c] k rest
    have := (List.dropWhile_suffix (l := (munch id d [c] k rest).2.2) (· == ' ')).length_le
    simp only [List.length_cons]
    omega

/-- What a piece of code with a character outside the grammar is answered with. -/
def outsideMessage (d : Dialect) (c : Char) : Text :=
  "lexer: " ++ Text.quoted [c] ++ " not in the " ++ d.name ++ " grammar"

/-- The tokens of a piece of code made of words and symbols of the dialect. -/
def snippet (d : Dialect) (pos : Position) (code : Text) : List Token :=
  match snippet? d pos code with
  | .ok tokens => tokens
  | .error _ => []

end ClassicBasic.Lexer
