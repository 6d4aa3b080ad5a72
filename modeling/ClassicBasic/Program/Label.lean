import ClassicBasic.Label
import ClassicBasic.Program.Directive

/-!
# Labels and loops

The second stage of a conversion. `{name}` names a line or, behind code, jumps to it; `name{` opens
a loop that `}` closes with a jump back and EXIT leaves. All of them become placeholders for line
numbers. Calls of functions are expanded on the way.
-/

set_option autoImplicit false

namespace ClassicBasic.Label

structure Progress where
  /-- The names of the open loops, innermost first. -/
  loops : List Token
  /-- The output, last token first. -/
  out : List Token
  rest : List Token
  deriving DecidableEq, Repr

/-- Whether the bracket `t` behind an output (last token first) opens a jump to a label. -/
def opensJump (out : List Token) (t : Token) (rest : List Token) : Bool :=
  let next := rest.headD t
  !Directive.atLineStart out && next.kind != .newline &&
    (rest.tail.headD next).value == closing

def readJump (loops out : List Token) (t : Token) (rest : List Token) : Except Failure Progress :=
  match Bracketed.read opening closing t rest with
  | .error e => .error e
  | .ok (.blank next) => .error (next.failure .blankLabel)
  | .ok (.holding content _ after) =>
    if content.value = sameLine ∨ Dialect.isIdentifier content.value then
      .ok ⟨loops, ⟨.labelJump, content.lower, content.pos⟩ :: out, after⟩
    else .error (content.failure (.invalidLabel content.value))

def lineMark (label : Token) (pos : Position) : Except Failure Token :=
  if Dialect.isIdentifier label.value then .ok ⟨.labelLine, label.lower, pos⟩
  else .error (label.failure (.invalidLabel label.value))

/-- A label in front of a line, or the name that opens a loop. -/
def readLine (loops out : List Token) (t : Token) (rest : List Token) : Except Failure Progress :=
  match out with
  | [] => .error (t.failure .misplacedLabel)
  | last :: before =>
    if last.kind = .newline then
      match Bracketed.read opening closing t rest with
      | .error e => .error e
      | .ok (.blank next) => .error (next.failure .blankLabel)
      | .ok (.holding content closer after) =>
        (lineMark content closer.pos).map fun mark => ⟨loops, mark :: last :: before, after⟩
    else if Directive.atLineStart before then
      (lineMark last t.pos).map fun mark => ⟨last :: loops, mark :: before, rest⟩
    else .error (t.failure .misplacedLabel)

/-- Whether a statement behind an output (last token first) needs no separator. -/
def startsStatement : List Token → Bool
  | [] => false
  | t :: _ => t.kind == .newline || t.kind == .separator

/-- The end of the innermost loop: a jump back to its start. -/
def closeLoop (d : Dialect) (loops out : List Token) (t : Token) (rest : List Token) :
    Except Failure Progress :=
  match loops with
  | [] => .error (t.failure .loopNotOpened)
  | label :: outer =>
    let separator := if startsStatement out then [] else Lexer.snippet d t.pos ":"
    let jump := separator ++ Lexer.snippet d t.pos "goto"
    .ok ⟨outer, ⟨.labelReturn, label.lower, t.pos⟩ :: jump.reverse ++ out, rest⟩

/-- The way out of the innermost loop: a jump past its end. -/
def leaveLoop (d : Dialect) (loops out : List Token) (t : Token) (rest : List Token) :
    Except Failure Progress :=
  match loops with
  | [] => .error (t.failure .exitOutsideLoop)
  | label :: _ =>
    .ok ⟨loops,
      ⟨.labelExit, label.lower, t.pos⟩ :: (Lexer.snippet d t.pos "goto").reverse ++ out, rest⟩

/-- One token of the second stage, other than the end. -/
def step (d : Dialect) (routines : Routines) (loops out : List Token) (t : Token)
    (rest : List Token) : Except Failure Progress :=
  if t.kind = .functionName then
    (Routine.call d routines t out rest).map fun r => ⟨loops, r.1.reverse ++ r.2.1, r.2.2⟩
  else if t.kind = .mark ∧ t.value = opening then
    if opensJump out t rest then readJump loops out t rest else readLine loops out t rest
  else if t.kind = .mark ∧ t.value = closing then closeLoop d loops out t rest
  else if t.kind = .directive ∧ t.is "EXIT" then leaveLoop d loops out t rest
  else if d = .coco ∧ t.kind = .special ∧ t.value = PrintAt.opening then
    let arguments := PrintAt.split 0 none [] t rest
    .ok ⟨loops, (PrintAt.render d arguments).reverse ++ out, arguments.rest⟩
  else .ok ⟨loops, t :: out, rest⟩

theorem length_readJump {loops out : List Token} {t : Token} {rest : List Token} {p : Progress}
    (h : readJump loops out t rest = .ok p) : p.rest.length ≤ rest.length := by
  unfold readJump at h
  split at h
  · cases h
  · cases h
  · rename_i hb
    split at h
    · cases h
      exact Bracketed.length_holding hb
    · cases h

theorem length_readLine {loops out : List Token} {t : Token} {rest : List Token} {p : Progress}
    (h : readLine loops out t rest = .ok p) : p.rest.length ≤ rest.length := by
  unfold readLine at h
  split at h
  · cases h
  · split at h
    · split at h
      · cases h
      · cases h
      · rename_i hb
        obtain ⟨_, _, rfl⟩ := Outcome.map_eq_ok_iff.1 h
        exact Bracketed.length_holding hb
    · split at h
      · obtain ⟨_, _, rfl⟩ := Outcome.map_eq_ok_iff.1 h
        exact Nat.le_refl _
      · cases h

theorem length_step {d : Dialect} {routines : Routines} {loops out : List Token} {t : Token}
    {rest : List Token} {p : Progress} (h : step d routines loops out t rest = .ok p) :
    p.rest.length ≤ rest.length := by
  unfold step at h
  split at h
  · obtain ⟨r, hr, rfl⟩ := Outcome.map_eq_ok_iff.1 h
    exact Routine.length_call hr
  · split at h
    · split at h
      · exact length_readJump h
      · exact length_readLine h
    · split at h
      · unfold closeLoop at h
        split at h <;> cases h
        exact Nat.le_refl _
      · split at h
        · unfold leaveLoop at h
          split at h <;> cases h
          exact Nat.le_refl _
        · split at h
          · cases h
            exact PrintAt.length_split _ _ _ _ _
          · cases h
            exact Nat.le_refl _

def unclosed (tables : Tables) (loops : List Token) : Option Failure :=
  match loops, tables.opened with
  | label :: _, _ => some (label.failure (.loopNotClosed label.value))
  | [], some (fn, _) => some (fn.failure (.functionNotClosed fn.value))
  | [], none => none

/-- The second stage on the tokens `input` behind an output (last token first). -/
def run (d : Dialect) (tables : Tables) (loops out input : List Token) :
    Except Failure (List Token) :=
  match input with
  | [] => .error .exhausted
  | t :: rest =>
    if t.kind = .eof then
      match unclosed tables loops with
      | some failure => .error failure
      | none => .ok (t :: out).reverse
    else
      match _h : step d tables.routines loops out t rest with
      | .error e => .error e
      | .ok p => run d tables p.loops p.out p.rest
termination_by input.length
decreasing_by
  have := length_step _h
  simp only [List.length_cons]
  omega

def place (d : Dialect) (tables : Tables) : List Token → Except Failure (List Token)
  | [] => .error .exhausted
  | start :: rest => run d tables [] [start] rest

end ClassicBasic.Label
