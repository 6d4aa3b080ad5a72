import ClassicBasic.Outcome
import ClassicBasic.Program.Bracket
import ClassicBasic.Dialect.Grammar

/-!
# Defines

A define is a run of tokens with slots. Written `[name]` it stands for its tokens with its default
in the slots; written `[name](tokens)` the tokens between the parentheses go there, after the
defines among them have been expanded.
-/

set_option autoImplicit false

namespace ClassicBasic

structure Define where
  name : Text
  body : List Token
  /-- What the slots hold when no argument is given. -/
  fallback : List Token := []
  deriving DecidableEq, Repr

abbrev Defines := List Define

namespace Defines

def named? (table : Defines) (name : Text) : Option Define := table.find? (·.name == name)

end Defines

namespace Define

/-- The name of the define that prints at a place of the screen. -/
def printAt : Text := "?"

/-- Whether `name` may stand between the brackets of an invocation. -/
def isInvocable (name : Text) : Bool :=
  name == printAt ||
    (name != [] && (Text.lower name).all fun c => c == '_' || c.isLower || c.isDigit)

/-- The tokens of the define with `argument` in its slots, or its default when that is empty; its
own tokens are placed at `pos`. -/
def instantiate (m : Define) (argument : List Token) (pos : Position) : List Token :=
  let value := if argument = [] then m.fallback else argument
  m.body.flatMap fun t => if t.kind = .slot then value else [t.movedTo pos]

/-- What came out of reading a list of tokens: tokens, and a rest that is not longer. -/
structure Expansion (input : List Token) where
  tokens : List Token
  rest : List Token
  le : rest.length ≤ input.length

mutual

/-- The expansion of the invocation whose opening bracket `t` stands before `rest`. -/
def expand (table : Defines) (t : Token) (rest : List Token) : Except Failure (Expansion rest) :=
  match Bracketed.read "[" "]" t rest with
  | .error e => .error e
  | .ok (.blank next) => .error (next.failure .blankDefine)
  | .ok (.holding name _ _) =>
    if !isInvocable name.value then .error (name.failure (.notDefineName name.value))
    else
      match table.named? name.lower with
      | none => .error (name.failure (.undefinedDefine name.value))
      | some m =>
        match h : rest.drop 2 with
        | [] => .ok ⟨m.instantiate [] name.pos, [], Nat.zero_le _⟩
        | p :: after =>
          have hlt : after.length < rest.length := by
            have := congrArg List.length h
            simp only [List.length_drop, List.length_cons] at this
            omega
          if p.kind = .symbol ∧ p.value = "(" then
            match argument table 1 after with
            | .error e => .error e
            | .ok arg =>
              .ok ⟨m.instantiate arg.tokens name.pos, arg.rest,
                Nat.le_trans arg.le (Nat.le_of_lt hlt)⟩
          else
            .ok ⟨m.instantiate [] name.pos, p :: after, by
              have := congrArg List.length h
              simp only [List.length_drop] at this
              omega⟩
termination_by rest.length

/-- The tokens up to the parenthesis that closes the group opened `depth` levels up, with the
invocations among them expanded. -/
def argument (table : Defines) (depth : Nat) (input : List Token) :
    Except Failure (Expansion input) :=
  match input with
  | [] => .error .exhausted
  | t :: rest =>
    if t.endsLine then .error (t.failure (.missing ")"))
    else if t.kind = .mark ∧ t.value = "[" then
      match expand table t rest with
      | .error e => .error e
      | .ok inner =>
        match argument table depth inner.rest with
        | .error e => .error e
        | .ok more =>
          .ok ⟨inner.tokens ++ more.tokens, more.rest,
            Nat.le_trans more.le (Nat.le_succ_of_le inner.le)⟩
    else if t.value = ")" ∧ depth = 1 then .ok ⟨[], rest, Nat.le_succ _⟩
    else
      let depth' := if t.value = "(" then depth + 1 else if t.value = ")" then depth - 1 else depth
      match argument table depth' rest with
      | .error e => .error e
      | .ok more => .ok ⟨t :: more.tokens, more.rest, Nat.le_succ_of_le more.le⟩
termination_by input.length
decreasing_by
  · simp
  · have := inner.le
    simp only [List.length_cons]
    omega
  · simp

end

/-- The tokens of a default up to its closing bracket, and what follows. -/
def readFallback : List Token → Except Failure (List Token × List Token)
  | [] => .error .exhausted
  | t :: rest =>
    if t.endsLine then .error (t.failure (.unbalanced "[]"))
    else if t.value = "[" then .error (t.failure (.tooManyOpened "["))
    else if t.value = "]" then .ok ([], rest)
    else (readFallback rest).map fun r => (t :: r.1, r.2)

theorem length_readFallback {l : List Token} {r : List Token × List Token}
    (h : readFallback l = .ok r) : r.2.length < l.length := by
  induction l generalizing r with
  | nil => cases h
  | cons t rest ih =>
    simp only [readFallback] at h
    split at h
    · cases h
    · split at h
      · cases h
      · split at h
        · cases h
          simp
        · obtain ⟨s, hs, rfl⟩ := Outcome.map_eq_ok_iff.1 h
          have := ih hs
          exact Nat.lt_succ_of_lt this

/-- The tokens of a definition up to its closing bracket, its default, and what follows. Brackets
inside mark slots; the first of them holds the default. -/
def readBody (l : List Token) : Except Failure (List Token × Option (List Token) × List Token) :=
  match l with
  | [] => .error .exhausted
  | t :: rest =>
    if t.endsLine then .error (t.failure (.unbalanced "[]"))
    else if t.value = "[" then
      match _h : readFallback rest with
      | .error e => .error e
      | .ok (inner, after) =>
        (readBody after).map fun r => (⟨.slot, "VAR", t.pos⟩ :: r.1, some inner, r.2.2)
    else if t.value = "]" then .ok ([], none, rest)
    else (readBody rest).map fun r => (t :: r.1, r.2)
termination_by l.length
decreasing_by
  · have := length_readFallback _h
    simp only [List.length_cons] at *
    omega
  · simp

theorem length_readBody {l : List Token} {r : List Token × Option (List Token) × List Token}
    (h : readBody l = .ok r) : r.2.2.length < l.length := by
  fun_induction readBody l generalizing r with
  | case1 => cases h
  | case2 => cases h
  | case3 => simp_all
  | case4 t rest _ _ inner after hf ih =>
    obtain ⟨s, hs, rfl⟩ := Outcome.map_eq_ok_iff.1 h
    have := length_readFallback hf
    have := ih hs
    simp only [List.length_cons] at *
    omega
  | case5 =>
    cases h
    simp
  | case6 t rest _ _ _ ih =>
    obtain ⟨s, hs, rfl⟩ := Outcome.map_eq_ok_iff.1 h
    have := ih hs
    exact Nat.lt_succ_of_lt this

/-- A define whose body is the rest of the line, `(parameter) tokens`, and what follows the line.
Every use of the parameter is a slot. -/
def readParametric (name opening : Token) (rest : List Token) :
    Except Failure (Define × List Token) :=
  let parameter := rest.headD opening
  let closer := rest.tail.headD parameter
  let line := (rest.drop 2).takeWhile fun t => !t.endsLine
  let after := (rest.drop 2).dropWhile fun t => !t.endsLine
  if parameter.kind ≠ .identifier then
    .error (parameter.failure (.invalidDefineParameter parameter.value))
  else if closer.value ≠ ")" then .error (closer.failure (.missing ")"))
  else if line = [] then .error (name.failure .blankDefinition)
  else
    let slotted := fun t : Token =>
      if t.kind = .identifier ∧ t.varName = parameter.varName then t.withKind .slot else t
    .ok ({ name := name.lower, body := line.map slotted }, afterLineEnd after)

/-- The name of a definition that follows `t`, and the token behind its brackets with what follows
that token. -/
def readName (table : Defines) (t : Token) (rest : List Token) :
    Except Failure (Token × Token × List Token) :=
  match Bracketed.read "[" "]" (rest.headD t) rest.tail with
  | .error e => .error e
  | .ok (.blank next) => .error (next.failure .blankDefinition)
  | .ok (.holding name closer after) =>
    if !Dialect.isIdentifier name.value then .error (name.failure (.invalidDefineName name.value))
    else if (table.named? name.lower).isSome then
      .error (name.failure (.defineDuplicated name.value))
    else .ok (name, after.headD closer, after.tail)

theorem length_readName {table : Defines} {t : Token} {rest : List Token}
    {r : Token × Token × List Token} (h : readName table t rest = .ok r) :
    r.2.2.length ≤ rest.length := by
  unfold readName at h
  split at h
  · cases h
  · cases h
  · rename_i name closer after hb
    split at h
    · cases h
    · split at h
      · cases h
      · cases h
        simp only [Bracketed.read] at hb
        split at hb
        · cases hb
        · split at hb
          · cases hb
          · split at hb
            · cases hb
            · cases hb
              simp only [List.length_tail, List.length_drop]
              omega

/-- Reads the definitions that follow `t` on a line into the table, and what follows the line. -/
def readLine (table : Defines) (t : Token) (rest : List Token) :
    Except Failure (Defines × List Token) :=
  match _hn : readName table t rest with
  | .error e => .error e
  | .ok (name, next, after) =>
    if next.kind = .symbol ∧ next.value = "(" then
      (readParametric name next after).map fun r => (table ++ [r.1], r.2)
    else if next.value ≠ "[" then .error (next.failure (.expecting "["))
    else
      match _hb : readBody after with
      | .error e => .error e
      | .ok (_, _, []) => .error .exhausted
      | .ok (body, fallback, u :: left) =>
        let table' := table ++ [{ name := name.lower, body, fallback := fallback.getD [] }]
        if u.value = "," then readLine table' u left
        else if u.endsLine then .ok (table', afterLineEnd (u :: left))
        else .error (u.failure (.expecting ","))
termination_by rest.length
decreasing_by
  have := length_readName _hn
  have := length_readBody _hb
  simp only [List.length_cons] at *
  omega

theorem length_readParametric {name opening : Token} {rest : List Token}
    {r : Define × List Token} (h : readParametric name opening rest = .ok r) :
    r.2.length ≤ rest.length := by
  unfold readParametric at h
  dsimp only at h
  split at h
  · cases h
  · split at h
    · cases h
    · split at h
      · cases h
      · cases h
        have h1 := length_afterLineEnd ((rest.drop 2).dropWhile fun t => !t.endsLine)
        have h2 := (List.dropWhile_suffix (l := rest.drop 2) (fun t => !t.endsLine)).length_le
        simp only [List.length_drop] at h2
        simp only
        omega

theorem length_readLine {table : Defines} {t : Token} {rest : List Token}
    {r : Defines × List Token} (h : readLine table t rest = .ok r) :
    r.2.length ≤ rest.length := by
  fun_induction readLine table t rest generalizing r with
  | case1 => cases h
  | case2 table t rest name next after hn =>
    obtain ⟨s, hs, rfl⟩ := Outcome.map_eq_ok_iff.1 h
    have := length_readParametric hs
    have := length_readName hn
    simp only at *
    omega
  | case3 => cases h
  | case4 => cases h
  | case5 => cases h
  | case6 table t rest name next after hn _ _ body fallback u left hb =>
    rename_i ih
    have := ih h
    have := length_readName hn
    have := length_readBody hb
    simp only [List.length_cons] at *
    omega
  | case7 table t rest name next after hn _ _ body fallback u left hb =>
    cases h
    have := length_readName hn
    have := length_readBody hb
    have := length_afterLineEnd (u :: left)
    simp only [List.length_cons] at *
    omega
  | case8 => cases h

end Define

end ClassicBasic
