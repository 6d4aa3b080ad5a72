import ClassicBasic.Program.Define
import ClassicBasic.Lexer.Munch

/-!
# Printing at a place of the screen

`[?](x,y)` is known in every program. One dialect has an instruction for it; the other prints at an
offset, `?@32*(y)+(x)`, which markers around the arguments tell it to work out.
-/

set_option autoImplicit false

namespace ClassicBasic.PrintAt

def opening : Text := "?"

def closing : Text := "??"

def columns : Int := 32

/-- The defines that every program of a dialect starts with; `pos` is the start of the program. -/
def builtin (d : Dialect) (pos : Position) : Defines :=
  match d with
  | .msx =>
    [{ name := Define.printAt
       body :=
         Lexer.snippet d pos "locate" ++ [⟨.slot, "VAR", pos⟩] ++ Lexer.snippet d pos ":?"
       fallback := Lexer.snippet d pos "0,0" }]
  | .coco =>
    [{ name := Define.printAt
       body := [⟨.special, opening, {}⟩, ⟨.slot, [], {}⟩, ⟨.special, closing, {}⟩]
       fallback := Lexer.snippet d pos "0" }]

structure Arguments where
  x : List Token := []
  y : List Token := []
  /-- The token that ended the arguments. -/
  last : Token
  /-- What follows the arguments. -/
  rest : List Token
  deriving DecidableEq, Repr

def deeper (t : Token) (depth : Int) : Int :=
  if t.value = "(" then depth + 1 else if t.value = ")" then depth - 1 else depth

/-- Splits the arguments at the first comma outside parentheses. `x` is the first argument once the
comma has been passed and `term` the argument being read; the end of the program is not passed. -/
def split (depth : Int) (x : Option (List Token)) (term : List Token) (last : Token) :
    List Token → Arguments
  | [] => { x := x.getD [], last, rest := [] }
  | t :: rest =>
    if t.kind = .eof then { x := x.getD [], last := t, rest := t :: rest }
    else if t.kind = .special ∧ t.value = closing then
      match x with
      | some x => { x, y := term, last := t, rest }
      | none => { x := term, last := t, rest }
    else
      let depth' := deeper t depth
      if t.kind = .symbol ∧ t.value = "," ∧ depth' = 0 ∧ x = none then
        split depth' (some term) [] t rest
      else split depth' x (term ++ [t]) t rest

def numeral? : List Token → Option Int
  | [t] => if t.kind = .number then (Text.readInt t.value).toOption else none
  | _ => none

/-- The offset of a place: one numeral when both arguments are numerals. -/
def offset (d : Dialect) (pos : Position) (x y : List Token) : List Token :=
  let code := fun text : Text => Lexer.snippet d pos text
  if y = [] then (if x = [] then code "0" else x)
  else
    let x := if x = [] then code "0" else x
    match numeral? x, numeral? y with
    | some m, some n => code (Text.ofInt (wrap (wrap (columns * n) + m)))
    | _, _ => code "32*(" ++ y ++ code ")+(" ++ x ++ code ")"

/-- The tokens that print at the place given by the arguments: a comma follows the offset unless the
statement ends there. -/
def render (d : Dialect) (a : Arguments) : List Token :=
  let next := a.rest.headD a.last
  let comma := if next.kind = .separator ∨ next.kind = .newline then []
    else Lexer.snippet d a.last.pos ","
  Lexer.snippet d a.last.pos "?@" ++ offset d a.last.pos a.x a.y ++ comma

theorem length_split (depth : Int) (x : Option (List Token)) (term : List Token) (last : Token)
    (l : List Token) : (split depth x term last l).rest.length ≤ l.length := by
  induction l generalizing depth x term last with
  | nil => exact Nat.le_refl _
  | cons t rest ih =>
    simp only [split]
    split
    · exact Nat.le_refl _
    · split
      · split <;> exact Nat.le_succ _
      · split <;> exact Nat.le_succ_of_le (ih _ _ _ _)

end ClassicBasic.PrintAt
