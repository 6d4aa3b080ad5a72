import ClassicBasic.Program.Bracket
import ClassicBasic.Program.Session
import ClassicBasic.Dialect.Grammar

/-!
# Declared and written names

`DECLARE long:short` fixes the short name of a variable; `DECLARE long` keeps its name, as `~long`
does where it is used. Names that cannot be told apart are warned about. An entry is held against the
names declared before it in an order that is not fixed: where it clashes with two of them, it depends
on the order which of the two is told.
-/

set_option autoImplicit false

namespace ClassicBasic

/-- Warnings with their places, and what came of the step that gave them. -/
structure Advised (α : Type) where
  warnings : List (Position × Cause) := []
  outcome : Except Failure α

structure Declaration where
  long : Token
  short : Option Token := none
  deriving DecidableEq, Repr

namespace Declaration

/-- Whether an entry that ends before `t` has no short name. -/
def endsBefore (t : Token) : Bool := t.value == "," || t.endsLine

/-- Reads the entry that follows `t`, and what follows the entry. -/
def read (d : Dialect) (t : Token) (rest : List Token) :
    Except Failure (Declaration × List Token) :=
  let long := rest.headD t
  let after := rest.tail
  if !Dialect.isIdentifier long.value then .error (long.failure (.invalidDeclared long.value))
  else if Text.byteCount long.varName = 1 then
    .error (long.failure (.declaredTooShort long.lower))
  else if d.isReserved long.value then .error (long.failure (.reservedKeyword long.lower))
  else
    let next := after.headD long
    if endsBefore next then .ok ({ long }, after)
    else if next.value ≠ ":" then .error (next.failure (.expecting ":"))
    else
      let short := after.tail.headD next
      if !Dialect.isShortName short.value then
        .error (short.failure (.invalidShort short.lower))
      else .ok ({ long, short := some short }, after.drop 2)

theorem length_read {d : Dialect} {t : Token} {rest : List Token}
    {r : Declaration × List Token} (h : read d t rest = .ok r) : r.2.length ≤ rest.length := by
  unfold read at h
  dsimp only at h
  split at h
  · cases h
  · split at h
    · cases h
    · split at h
      · cases h
      · split at h
        · cases h
          simp
        · split at h
          · cases h
          · split at h
            · cases h
            · cases h
              simp only [List.length_drop, List.length_tail]
              omega

/-- Keeps a long name, or notes one that is short already. -/
def keepLong (k : Nat) (n : Naming) (long : Token) : Advised Naming :=
  let name := long.varName
  let sign := Naming.significant name
  let before := (Naming.walked k n.declared).takeWhile fun e => e.1 != long.qualified
  let declared := (before.filter fun e => e.2 == sign).map fun e =>
    (long.pos, Cause.declaredConflict name (Naming.unqualified e.1) e.2)
  match n.declared.find? fun e => e.1 == long.qualified with
  | some (key, short) =>
    { warnings := declared
      outcome := .error (long.failure (.longTaken name (Naming.unqualified key) short)) }
  | none =>
    let kept := (n.kept.filter fun k => Naming.significant k.varName == sign).map fun k =>
      (long.pos, Cause.keptConflict name k.varName)
    let written := (n.written.filter (· == sign)).map fun s =>
      (long.pos, Cause.shortConflict name s)
    { warnings := declared ++ kept ++ written
      outcome := .ok (if name.length = Dialect.nameLength then n.write name else n.keep long) }

/-- Gives a long name the short name that the program wants. -/
def fixShort (k : Nat) (n : Naming) (long short : Token) : Advised Naming :=
  let name := long.varName
  let wanted := short.lower
  match (Naming.walked k n.declared).find? fun e => e.1 == long.qualified || e.2 == wanted with
  | some (key, given) =>
    let other := Naming.unqualified key
    { outcome := .error (short.failure (if key = long.qualified
        then .longRedeclared name wanted other given
        else .shortRedeclared name wanted other given)) }
  | none =>
    if n.isKept long then { outcome := .error (long.failure (.keptDeclared name wanted)) }
    else
      let kept := (n.kept.filter fun k => Naming.significant k.varName == wanted).map fun k =>
        (short.pos, Cause.keptConflictWith name wanted k.varName)
      let written := if n.written.contains wanted
        then [(short.pos, Cause.shortConflictWith name wanted)] else []
      { warnings := kept ++ written, outcome := .ok (n.declare long wanted) }

/-- What an entry does to the names, walked in their `k`-th order. -/
def apply (k : Nat) (n : Naming) (e : Declaration) : Advised Naming :=
  match e.short with
  | none => keepLong k n e.long
  | some short => fixShort k n e.long short

end Declaration

namespace Naming

def keepWritten (n : Naming) (t : Token) : Advised Naming :=
  let name := t.varName
  if name.length ≤ Dialect.nameLength then { outcome := .error (t.failure (.keepOnShort name)) }
  else
    match n.shortOf? t with
    | some short => { outcome := .error (t.failure (.declaredKept t.lower name short)) }
    | none =>
      let clashes := n.kept.filter fun k =>
        k.varName != name && (name.isPrefixOf k.varName || k.varName.isPrefixOf name)
      { warnings := clashes.map fun k => (t.pos, Cause.keptConflict name k.varName)
        outcome := .ok (n.keep t) }

def meet (n : Naming) (t : Token) : Advised Naming :=
  let name := t.varName
  let short := name.length ≤ Dialect.nameLength
  if (n.shortOf? t).isSome then { outcome := .ok n }
  else
    let written := if short then [] else
      (n.written.filter (· == significant name)).map fun s => (t.pos, Cause.shortConflict name s)
    let isKeptName := n.kept.any fun k => k.varName == name
    let clashes := n.kept.filter fun k =>
      k.varName != name &&
        (name == significant k.varName || (isKeptName && name.isPrefixOf k.varName))
    { warnings := written ++ clashes.map fun k => (t.pos, Cause.keptConflict name k.varName)
      outcome := .ok (if short then n.write name else n) }

end Naming

namespace Conversion

/-- Gives the warnings of a step and goes on with the names it leaves. -/
def advise (quiet : Bool) (a : Advised Naming) : Conversion Unit := do
  warn quiet a.warnings
  setNaming (← ofExcept a.outcome)

def enter (quiet : Bool) (e : Declaration) : Conversion Unit := do
  let k ← order
  advise quiet (e.apply k (← naming))

/-- Reads the entries that follow `t` on a DECLARE line: what follows the line. -/
def declareLine (d : Dialect) (quiet : Bool) (t : Token) (rest : List Token) :
    Conversion { left : List Token // left.length ≤ rest.length } :=
  match h : Declaration.read d t rest with
  | .error e => throw e
  | .ok (entry, after) => do
    enter quiet entry
    match hu : after with
    | [] => throw .exhausted
    | u :: left =>
      have hle : (u :: left).length ≤ rest.length := hu ▸ Declaration.length_read h
      if u.value = "," then do
        let ⟨final, hf⟩ ← declareLine d quiet u left
        return ⟨final, Nat.le_trans hf (Nat.le_trans (Nat.le_succ _) hle)⟩
      else if u.endsLine then
        return ⟨afterLineEnd (u :: left), Nat.le_trans (length_afterLineEnd _) hle⟩
      else throw (u.failure (.expecting ","))
termination_by rest.length
decreasing_by
  simp only [List.length_cons] at hle
  omega

end Conversion

end ClassicBasic
