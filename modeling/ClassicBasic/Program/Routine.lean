import ClassicBasic.Outcome
import ClassicBasic.Program.Bracket
import ClassicBasic.Dialect.Grammar
import ClassicBasic.Lexer.Munch

/-!
# Functions of a program

A function is a run of lines between FUNC and RET. A call sets the parameters, jumps to the lines
and then copies the results: `v = .f(a)` stands for `p=a:gosub f:v=r`.
-/

set_option autoImplicit false

namespace ClassicBasic

/-- A parameter with the tokens it is set to when a call leaves it out. -/
structure Parameter where
  name : Token
  fallback : List Token := []
  deriving DecidableEq, Repr

structure Routine where
  parameters : List Parameter
  results : List (List Token)
  deriving DecidableEq, Repr

/-- The functions known in a file, by their names. -/
abbrev Routines := List (Text × Routine)

namespace Routine

/-- Splits tokens at the commas outside parentheses, up to the parenthesis that closes the list:
the runs, that parenthesis and what follows it. `depth` counts the open parentheses and `run` is the
run being read. -/
def splitArguments (depth : Nat) (run : List Token) :
    List Token → Except Failure (List (List Token) × Token × List Token)
  | [] => .error .exhausted
  | t :: rest =>
    if t.endsLine then .error (t.failure (.unbalanced "()"))
    else if t.value = "(" then splitArguments (depth + 1) (run ++ [t]) rest
    else if t.value = "," ∧ depth = 1 then
      (splitArguments depth [] rest).map fun r => (run :: r.1, r.2)
    else if t.value = ")" then
      if depth = 1 then .ok ([run], t, rest) else splitArguments (depth - 1) (run ++ [t]) rest
    else splitArguments depth (run ++ [t]) rest

/-- The arguments behind the name of a function, the parenthesis that closes them and what follows
it. -/
def argumentList (fn : Token) (rest : List Token) :
    Except Failure (List (List Token) × Token × List Token) :=
  let opening := rest.headD fn
  let closer := rest.tail.headD opening
  if fn.kind ≠ .functionName then .error (fn.failure (.invalidFunctionName fn.value))
  else if opening.value ≠ "(" then .error (opening.failure (.missing "("))
  else if closer.value = ")" then .ok ([], closer, rest.drop 2)
  else splitArguments 1 [] rest.tail

theorem length_splitArguments {depth : Nat} {run l : List Token}
    {r : List (List Token) × Token × List Token} (h : splitArguments depth run l = .ok r) :
    r.2.2.length ≤ l.length := by
  induction l generalizing depth run r with
  | nil => cases h
  | cons t rest ih =>
    simp only [splitArguments] at h
    split at h
    · cases h
    · split at h
      · exact Nat.le_succ_of_le (ih h)
      · split at h
        · obtain ⟨s, hs, rfl⟩ := Outcome.map_eq_ok_iff.1 h
          have := ih hs
          exact Nat.le_succ_of_le this
        · split at h
          · split at h
            · cases h
              exact Nat.le_succ _
            · exact Nat.le_succ_of_le (ih h)
          · exact Nat.le_succ_of_le (ih h)

theorem length_argumentList {fn : Token} {rest : List Token}
    {r : List (List Token) × Token × List Token} (h : argumentList fn rest = .ok r) :
    r.2.2.length ≤ rest.length := by
  unfold argumentList at h
  dsimp only at h
  split at h
  · cases h
  · split at h
    · cases h
    · split at h
      · cases h
        simp
      · have := length_splitArguments h
        simp only [List.length_tail] at this
        omega

/-- The parameter that one run of a definition of `fn` stands for. -/
def parameter (fn : Token) : List Token → Except Failure Parameter
  | [] => .error (fn.failure (.missingParameter fn.value))
  | [v] =>
    if v.kind = .identifier then .ok { name := v }
    else .error (v.failure (.parameterNotVariable v.value))
  | v :: assign :: fallback =>
    if v.kind ≠ .identifier then .error (v.failure (.parameterNotVariable v.value))
    else if assign.value ≠ "=" then .error (assign.failure (.parameterNotSingle assign.value))
    else .ok { name := v, fallback }

def endsResults (t : Token) : Bool := t.value == "'" || t.kind == .separator || t.endsLine

/-- Splits the results behind RET at the commas: the runs, the last token of them and what follows.
`run` is the run being read and `last` the token before the rest. -/
def splitResults (run : List Token) (last : Token) :
    List Token → List (List Token) × Token × List Token
  | [] => ([run], last, [])
  | t :: rest =>
    if endsResults t then ([run], last, t :: rest)
    else if t.value = "," then
      let r := splitResults [] t rest
      (run :: r.1, r.2)
    else splitResults (run ++ [t]) t rest

/-- The results behind the token RET, the last token read and what follows. -/
def resultList (ret : Token) (rest : List Token) : List (List Token) × Token × List Token :=
  if endsResults (rest.headD ret) then ([], ret, rest) else splitResults [] ret rest

theorem length_splitResults (run : List Token) (last : Token) (l : List Token) :
    (splitResults run last l).2.2.length ≤ l.length := by
  induction l generalizing run last with
  | nil => exact Nat.le_refl _
  | cons t rest ih =>
    simp only [splitResults]
    split
    · exact Nat.le_refl _
    · split
      · exact Nat.le_succ_of_le (ih _ _)
      · exact Nat.le_succ_of_le (ih _ _)

theorem length_resultList (ret : Token) (rest : List Token) :
    (resultList ret rest).2.2.length ≤ rest.length := by
  unfold resultList
  split
  · exact Nat.le_refl _
  · exact length_splitResults _ _ _

/-- Whether the variables of a call begin right after `t`. -/
def startsStatement (d : Dialect) (t : Token) : Bool :=
  t.kind == .newline || t.kind == .program || t.kind == .separator || d.isStopWord t.value

/-- Takes tokens back from an output, last token first, to the start of the statement: the runs
between commas in reading order, and what is left of the output. -/
def takeBack (d : Dialect) (run : List Token) (runs : List (List Token)) :
    List Token → List (List Token) × List Token
  | [] => (run :: runs, [])
  | t :: out =>
    if startsStatement d t then (run :: runs, t :: out)
    else if t.value = "," then takeBack d [] (run :: runs) out
    else takeBack d (t :: run) runs out

/-- The variable that one run in front of a call stands for, or nothing to be set. -/
def resultVariable : List Token → Except Failure (Option Token)
  | [] => .ok none
  | v :: more =>
    if v.kind ≠ .identifier then .error (v.failure (.callNotVariable v.value))
    else
      match more with
      | [] => .ok (some v)
      | w :: _ => .error (w.failure (.callNotSingle w.value))

/-- The variables that a call sets, taken back from the output (last token first) with the sign of
equality behind them, and what is left of the output. -/
def callVariables (d : Dialect) (out : List Token) :
    Except Failure (List (Option Token) × List Token) :=
  match out with
  | [] => .ok ([], [])
  | t :: before =>
    if t.value ≠ "=" then .ok ([], t :: before)
    else
      let taken := takeBack d [] [] before
      (taken.1.mapM resultVariable).map fun vars => (vars, taken.2)

/-- The tokens that set the parameters of a function, each followed by a separator. A missing
argument is replaced by the default; setting a variable to itself is left out. -/
def setParameters (equal separator : List Token) : List Parameter → List (List Token) → List Token
  | [], _ => []
  | p :: more, arguments =>
    let given := arguments.headD []
    let value := if given = [] then p.fallback else given
    (if value = [] || Token.sameValues [p.name] value then []
      else p.name :: equal ++ value ++ separator) ++
      setParameters equal separator more arguments.tail

/-- The tokens that copy the results of a function, each led by a separator. -/
def copyResults (equal separator : List Token) :
    List (Option Token) → List (List Token) → List Token
  | [], _ => []
  | v :: more, results =>
    (match v with
      | none => []
      | some v =>
        if Token.sameValues (results.headD []) [v] then []
        else separator ++ v :: equal ++ results.headD []) ++
      copyResults equal separator more results.tail

/-- The tokens of a call of `fn` whose list of arguments ends at `pos`. -/
def callTokens (d : Dialect) (f : Routine) (fn : Token) (pos : Position)
    (arguments : List (List Token)) (vars : List (Option Token)) : List Token :=
  let equal := Lexer.snippet d pos "="
  let separator := Lexer.snippet d pos ":"
  setParameters equal separator f.parameters arguments ++ Lexer.snippet d pos "gosub" ++
    ⟨.functionCall, fn.lower, fn.pos⟩ :: copyResults equal separator vars f.results

/-- Expands the call of `fn`: its tokens, what is left of the output (last token first) and what
follows the call. -/
def call (d : Dialect) (routines : Routines) (fn : Token) (out rest : List Token) :
    Except Failure (List Token × List Token × List Token) :=
  match routines.lookup fn.lower with
  | none => .error (fn.failure (.undefinedFunction fn.value))
  | some f =>
    match callVariables d out with
    | .error e => .error e
    | .ok (vars, before) =>
      match argumentList fn rest with
      | .error e => .error e
      | .ok (arguments, closer, after) =>
        if f.parameters.length < arguments.length then .error (fn.failure .argumentMismatch)
        else if f.results.length < vars.length then .error (fn.failure .variableMismatch)
        else .ok (callTokens d f fn closer.pos arguments vars, before, after)

theorem length_call {d : Dialect} {routines : Routines} {fn : Token} {out rest : List Token}
    {r : List Token × List Token × List Token} (h : call d routines fn out rest = .ok r) :
    r.2.2.length ≤ rest.length := by
  unfold call at h
  split at h
  · cases h
  · split at h
    · cases h
    · split at h
      · cases h
      · rename_i arguments closer after ha
        split at h
        · cases h
        · split at h
          · cases h
          · cases h
            have := length_argumentList ha
            exact this

end Routine

end ClassicBasic
