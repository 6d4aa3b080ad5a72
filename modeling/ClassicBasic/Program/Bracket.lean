import ClassicBasic.Diagnostic

/-!
# Brackets

One token between an opening and a closing symbol. Past the end of a list its last token is read
again and again.
-/

set_option autoImplicit false

namespace ClassicBasic

inductive Bracketed
  /-- Nothing; the token is the one behind the closing bracket. -/
  | blank (next : Token)
  /-- One token, with the closing bracket and what follows it. -/
  | holding (content closer : Token) (rest : List Token)
  deriving DecidableEq, Repr

namespace Bracketed

/-- Reads what stands between `opening` and `closing`, from the token `t` followed by `rest`. -/
def read (opening closing : Text) (t : Token) (rest : List Token) : Except Failure Bracketed :=
  let content := rest.headD t
  let next := rest.tail.headD content
  if t.value ≠ opening then .error (t.failure (.expecting opening))
  else if content.value = closing then .ok (.blank next)
  else if next.value ≠ closing then .error (next.failure (.closingNotFound closing))
  else .ok (.holding content next (rest.drop 2))

theorem length_holding {opening closing : Text} {t : Token} {rest : List Token}
    {content closer : Token} {after : List Token}
    (h : read opening closing t rest = .ok (.holding content closer after)) :
    after.length ≤ rest.length := by
  unfold read at h
  dsimp only at h
  split at h
  · cases h
  · split at h
    · cases h
    · split at h
      · cases h
      · cases h
        simp

end Bracketed

namespace Token

def endsLine (t : Token) : Bool := t.kind == .newline || t.kind == .eof

end Token

/-- What follows the end of a line; the end of the program is not passed. -/
def afterLineEnd : List Token → List Token
  | [] => []
  | t :: rest => if t.kind = .newline then rest else t :: rest

theorem length_afterLineEnd (l : List Token) : (afterLineEnd l).length ≤ l.length := by
  cases l with
  | nil => exact Nat.le_refl _
  | cons t rest =>
    simp only [afterLineEnd]
    split <;> simp

end ClassicBasic
