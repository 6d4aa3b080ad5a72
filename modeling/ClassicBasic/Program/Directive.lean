import ClassicBasic.Program.Declare
import ClassicBasic.Program.PrintAt
import ClassicBasic.Program.Routine

/-!
# Directives

The first stage of a conversion: lines behind an inactive tag go, directives are carried out,
defines are expanded. What it learns about the file stands in tables.
-/

set_option autoImplicit false

namespace ClassicBasic

structure Tables where
  defines : Defines
  /-- The active tags, in capitals. -/
  keeps : List Text := []
  routines : Routines := []
  /-- The function being defined, by its name, with its parameters. -/
  opened : Option (Token × List Parameter) := none
  deriving DecidableEq, Repr

namespace Directive

/-- Whether the last token of an output (last token first) ends a line. -/
def atLineStart : List Token → Bool
  | [] => false
  | t :: _ => t.kind == .newline

def isActive (keeps : List Text) (tag : Text) : Bool :=
  (keeps.contains tag || keeps.contains "#ALL") && !keeps.contains "#NONE"

/-- Skips the rest of a line behind the tag `tag`, its end included. -/
def skipLine (tag : Token) : List Token → Except Failure (List Token)
  | [] => .error .exhausted
  | t :: rest =>
    if t.kind = .eof then .error (tag.failure (.toggleNotClosed tag.value))
    else if t.kind = .newline then .ok rest
    else skipLine tag rest

/-- Skips lines up to the tag `tag` alone on a line; `last` is the token before the rest. -/
def skipBlock (tag last : Token) : List Token → Except Failure (List Token)
  | [] => .error .exhausted
  | t :: rest =>
    if t.kind = .eof then .error (tag.failure (.toggleNotClosed tag.value))
    else if t.kind = .toggle ∧ t.is tag.value ∧ last.kind = .newline ∧
        (rest.headD t).kind = .newline then .ok rest
    else skipBlock tag t rest

/-- Skips what an inactive tag stands in front of: the rest of its line or, when it is alone there,
all lines up to the same tag alone on a line. -/
def skipToggled (tag : Token) (rest : List Token) : Except Failure (List Token) :=
  if (rest.headD tag).kind = .newline then skipBlock tag tag rest else skipLine tag rest

/-- Reads the tags of a KEEP line, and what follows the line. -/
def keepTags (keeps : List Text) : List Token → Except Failure (List Text × List Token)
  | [] => .error .exhausted
  | t :: rest =>
    if t.endsLine then .ok (keeps, afterLineEnd (t :: rest))
    else if t.kind ≠ .toggle then .error (t.failure (.invalidKeepTag t.value))
    else if keeps.contains t.upper then .error (t.failure (.keepTagDuplicated t.value))
    else keepTags (keeps ++ [t.upper]) rest

/-- Reads a FUNC line up to its closing parenthesis: the tables, the mark of the entry and what
follows. -/
def openRoutine (tables : Tables) (t : Token) (rest : List Token) :
    Except Failure (Tables × Token × List Token) :=
  let fn := rest.headD t
  match tables.opened with
  | some (earlier, _) => .error (earlier.failure .insideFunction)
  | none =>
    if (tables.routines.lookup fn.lower).isSome then
      .error (fn.failure (.functionDuplicated fn.value))
    else
      match Routine.argumentList fn rest.tail with
      | .error e => .error e
      | .ok (runs, closer, after) =>
        match runs.mapM (Routine.parameter fn) with
        | .error e => .error e
        | .ok parameters =>
          .ok ({ tables with opened := some (fn, parameters) },
            ⟨.functionEntry, fn.lower, closer.pos.withCol 1⟩, after)

/-- Reads the results behind RET: the tables, the tokens that return and what follows. -/
def closeRoutine (d : Dialect) (tables : Tables) (t : Token) (rest : List Token) :
    Except Failure (Tables × List Token × List Token) :=
  match tables.opened with
  | none => .error (t.failure .resultOutsideFunction)
  | some (fn, parameters) =>
    let (results, last, after) := Routine.resultList t rest
    if results.any (· == []) then .error (t.failure .missingResult)
    else
      .ok ({ tables with
          routines := tables.routines ++ [(fn.lower, { parameters, results })], opened := none },
        Lexer.snippet d last.pos "return", after)

/-- The token that `t` is read as, behind an output (last token first): with calls by underscore, an
underscore that does not end its line is a call and the name behind it is left alone. -/
def asCall (d : Dialect) (out : List Token) (t : Token) (rest : List Token) : Token :=
  if !d.callsByUnderscore then t
  else if t.kind = .joiner ∧ (rest.headD t).kind ≠ .newline then t.withKind .call
  else if t.kind = .identifier ∧ (out.head?.map Token.kind) = some .call then t.withKind .callName
  else t

structure Progress where
  tables : Tables
  /-- The output, last token first. -/
  out : List Token
  rest : List Token

def obey (d : Dialect) (tables : Tables) (out : List Token) (t : Token) (rest : List Token) :
    Except Failure Progress :=
  let first := atLineStart out
  if t.is "EXIT" || t.is "INCLUDE" then .ok ⟨tables, t :: out, rest⟩
  else if t.is "ENDIF" then .ok ⟨tables, out, rest⟩
  else if t.is "DEFINE" && first then
    (Define.readLine tables.defines t rest).map fun r =>
      ⟨{ tables with defines := r.1 }, out, r.2⟩
  else if t.is "KEEP" && first then
    (keepTags tables.keeps rest).map fun r => ⟨{ tables with keeps := r.1 }, out, r.2⟩
  else if t.is "FUNC" && first then
    (openRoutine tables t rest).map fun r => ⟨r.1, r.2.1 :: out, r.2.2⟩
  else if t.is "RET" && first then
    (closeRoutine d tables t rest).map fun r => ⟨r.1, r.2.1.reverse ++ out, r.2.2⟩
  else .error (t.failure (.notAtLineStart t.value))

/-- One token of the first stage, other than DECLARE and the end. -/
def step (d : Dialect) (tables : Tables) (out : List Token) (t : Token) (rest : List Token) :
    Except Failure Progress :=
  if t.kind = .toggle ∧ atLineStart out then
    if isActive tables.keeps t.upper then .ok ⟨tables, out, rest⟩
    else (skipToggled t rest).map fun left => ⟨tables, out, left⟩
  else if t.kind = .directive then obey d tables out t rest
  else if t.kind = .mark ∧ t.value = "[" then
    (Define.expand tables.defines t rest).map fun e => ⟨tables, e.tokens.reverse ++ out, e.rest⟩
  else .ok ⟨tables, asCall d out t rest :: out, rest⟩

theorem length_skipLine {tag : Token} {l left : List Token} (h : skipLine tag l = .ok left) :
    left.length ≤ l.length := by
  induction l with
  | nil => cases h
  | cons t rest ih =>
    simp only [skipLine] at h
    split at h
    · cases h
    · split at h
      · cases h
        exact Nat.le_succ _
      · exact Nat.le_succ_of_le (ih h)

theorem length_skipBlock {tag last : Token} {l left : List Token}
    (h : skipBlock tag last l = .ok left) : left.length ≤ l.length := by
  induction l generalizing last with
  | nil => cases h
  | cons t rest ih =>
    simp only [skipBlock] at h
    split at h
    · cases h
    · split at h
      · cases h
        exact Nat.le_succ _
      · exact Nat.le_succ_of_le (ih h)

theorem length_skipToggled {tag : Token} {l left : List Token}
    (h : skipToggled tag l = .ok left) : left.length ≤ l.length := by
  unfold skipToggled at h
  split at h
  · exact length_skipBlock h
  · exact length_skipLine h

theorem length_keepTags {keeps : List Text} {l : List Token} {r : List Text × List Token}
    (h : keepTags keeps l = .ok r) : r.2.length ≤ l.length := by
  induction l generalizing keeps with
  | nil => cases h
  | cons t rest ih =>
    simp only [keepTags] at h
    split at h
    · cases h
      have := length_afterLineEnd (t :: rest)
      exact this
    · split at h
      · cases h
      · split at h
        · cases h
        · exact Nat.le_succ_of_le (ih h)

theorem length_openRoutine {tables : Tables} {t : Token} {rest : List Token}
    {r : Tables × Token × List Token} (h : openRoutine tables t rest = .ok r) :
    r.2.2.length ≤ rest.length := by
  unfold openRoutine at h
  dsimp only at h
  split at h
  · cases h
  · split at h
    · cases h
    · split at h
      · cases h
      · rename_i runs closer after ha
        split at h
        · cases h
        · cases h
          have := Routine.length_argumentList ha
          simp only [List.length_tail] at this
          exact Nat.le_trans this (Nat.sub_le _ _)

theorem length_closeRoutine {d : Dialect} {tables : Tables} {t : Token} {rest : List Token}
    {r : Tables × List Token × List Token} (h : closeRoutine d tables t rest = .ok r) :
    r.2.2.length ≤ rest.length := by
  unfold closeRoutine at h
  split at h
  · cases h
  · dsimp only at h
    split at h
    · cases h
    · cases h
      exact Routine.length_resultList t rest

theorem length_obey {d : Dialect} {tables : Tables} {out : List Token} {t : Token}
    {rest : List Token} {p : Progress} (h : obey d tables out t rest = .ok p) :
    p.rest.length ≤ rest.length := by
  unfold obey at h
  dsimp only at h
  split at h
  · cases h
    exact Nat.le_refl _
  · split at h
    · cases h
      exact Nat.le_refl _
    · split at h
      · obtain ⟨r, hr, rfl⟩ := Outcome.map_eq_ok_iff.1 h
        exact Define.length_readLine hr
      · split at h
        · obtain ⟨r, hr, rfl⟩ := Outcome.map_eq_ok_iff.1 h
          exact length_keepTags hr
        · split at h
          · obtain ⟨r, hr, rfl⟩ := Outcome.map_eq_ok_iff.1 h
            exact length_openRoutine hr
          · split at h
            · obtain ⟨r, hr, rfl⟩ := Outcome.map_eq_ok_iff.1 h
              exact length_closeRoutine hr
            · cases h

theorem length_step {d : Dialect} {tables : Tables} {out : List Token} {t : Token}
    {rest : List Token} {p : Progress} (h : step d tables out t rest = .ok p) :
    p.rest.length ≤ rest.length := by
  unfold step at h
  split at h
  · split at h
    · cases h
      exact Nat.le_refl _
    · obtain ⟨left, hl, rfl⟩ := Outcome.map_eq_ok_iff.1 h
      exact length_skipToggled hl
  · split at h
    · exact length_obey h
    · split at h
      · obtain ⟨e, _, rfl⟩ := Outcome.map_eq_ok_iff.1 h
        exact e.le
      · cases h
        exact Nat.le_refl _

/-- Whether `t` starts a DECLARE line behind an output (last token first). -/
def declares (out : List Token) (t : Token) : Bool :=
  t.kind == .directive && t.is "DECLARE" && atLineStart out

/-- The first stage on the tokens `input` behind an output (last token first). -/
def run (d : Dialect) (quiet : Bool) (tables : Tables) (out : List Token) (input : List Token) :
    Conversion (Tables × List Token) :=
  match input with
  | [] => throw .exhausted
  | t :: rest =>
    if t.kind = .eof then return (tables, (t :: out).reverse)
    else if declares out t then do
      let ⟨left, _hl⟩ ← Conversion.declareLine d quiet t rest
      run d quiet tables out left
    else
      match _h : step d tables out t rest with
      | .error e => throw e
      | .ok p => run d quiet p.tables p.out p.rest
termination_by input.length
decreasing_by
  · simp only [List.length_cons]
    omega
  · have := length_step _h
    simp only [List.length_cons]
    omega

def carryOut (d : Dialect) (quiet : Bool) (tokens : List Token) :
    Conversion (Tables × List Token) :=
  match tokens with
  | start :: newline :: rest =>
    run d quiet { defines := PrintAt.builtin d start.pos } [newline, start] rest
  | _ => throw .exhausted

end Directive

end ClassicBasic
