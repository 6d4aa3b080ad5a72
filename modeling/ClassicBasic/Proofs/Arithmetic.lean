import ClassicBasic.Token.Basic
import Mathlib.Algebra.Order.Field.Rat
import Mathlib.Tactic.FieldSimp
import Mathlib.Tactic.Ring

/-!
# Arithmetic expressions

How a machine reads a run of tokens as an arithmetic expression: powers before signs, signs before
products, products before sums, and operators that bind alike from left to right. Reading is the inverse
of writing well-formed expressions down, so a run of tokens is worth one number at most.
-/

set_option autoImplicit false

namespace ClassicBasic

inductive Operator
  | plus
  | minus
  | modulo
  | quotient
  | times
  | over
  | power
  deriving DecidableEq, Repr

namespace Operator

/-- How tightly an operator binds; a sign binds looser than a power and tighter than the rest. -/
def rank : Operator → Nat
  | .plus | .minus => 0
  | .modulo => 1
  | .quotient => 2
  | .times | .over => 3
  | .power => 5

def signRank : Nat := 4

def signs : List (Text × Operator) :=
  [("+", .plus), ("-", .minus), ("*", .times), ("/", .over), ("\\", .quotient), ("^", .power)]

def of? (t : Token) : Option Operator :=
  if t.kind = .symbol then signs.lookup t.value
  else if t.kind = .operator ∧ t.upper = "MOD" then some .modulo
  else none

/-- Whether `x op (y op' z)` is `(x op y) op' z`. -/
def shifts : Operator → Operator → Bool
  | .plus, .plus | .plus, .minus | .times, .times | .times, .over => true
  | _, _ => false

end Operator

/-- An arithmetic expression as it is written. -/
inductive Expression
  /-- A numeral, a variable or a call. -/
  | operand (tokens : List Token)
  /-- `(e)` -/
  | group (left : Token) (e : Expression) (right : Token)
  | signed (sign : Token) (e : Expression)
  | binary (e : Expression) (o : Token) (e' : Expression)
  deriving DecidableEq, Repr

namespace Expression

def isOpening (t : Token) : Bool := t.kind == .symbol && t.value == ['(']

def isClosing (t : Token) : Bool := t.kind == .symbol && t.value == [')']

def isSign (t : Token) : Bool := t.kind == .symbol && (t.value == ['+'] || t.value == ['-'])

def isName (t : Token) : Bool :=
  t.kind == .number || t.kind == .identifier || t.kind == .function || t.kind == .instruction ||
    t.kind == .jump

/-- The tokens up to the parenthesis that closes `depth` open ones, and what follows it. -/
def closing? (depth : Nat) : List Token → Option (List Token × List Token)
  | [] => none
  | t :: rest =>
    if isClosing t ∧ depth = 1 then some ([t], rest)
    else
      (closing? (if isOpening t then depth + 1 else if isClosing t then depth - 1 else depth) rest).map
        fun r => (t :: r.1, r.2)

/-- The arguments in parentheses, if there are any, and what follows them. -/
def arguments? : List Token → Option (List Token × List Token)
  | [] => some ([], [])
  | t :: rest =>
    if isOpening t then (closing? 1 rest).map fun r => (t :: r.1, r.2) else some ([], t :: rest)

/-- The variable or call that starts with `t`, and what follows it. A function of the program is called
by FN and its name. -/
def call? (t : Token) : List Token → Option (List Token × List Token)
  | [] => some ([t], [])
  | u :: more =>
    if t.kind = .instruction ∧ u.kind = .identifier then
      (arguments? more).map fun r => (t :: u :: r.1, r.2)
    else (arguments? (u :: more)).map fun r => (t :: r.1, r.2)

/-- The numeral, variable or call that stands first, and what follows it. -/
def operand? : List Token → Option (List Token × List Token)
  | [] => none
  | t :: rest =>
    if isName t then if t.kind = .number then some ([t], rest) else call? t rest else none

/-- The tokens as they stand. -/
def tokens : Expression → List Token
  | .operand tokens => tokens
  | .group left e right => left :: (e.tokens ++ [right])
  | .signed sign e => sign :: e.tokens
  | .binary e o e' => e.tokens ++ o :: e'.tokens

/-- Whether an operator of rank `n` behind the expression is not taken for a part of its end. -/
def Ends (n : Nat) : Expression → Prop
  | .operand _ => True
  | .group _ _ _ => True
  | .signed _ e => n < Operator.signRank ∧ e.Ends n
  | .binary _ o e => (∀ op ∈ Operator.of? o, n ≤ op.rank) ∧ e.Ends n

/-- Whether the expression is an operand of an operator that takes rank `n` and above. -/
def Stands (n : Nat) : Expression → Prop
  | .binary _ o _ => ∃ op ∈ Operator.of? o, n ≤ op.rank
  | _ => True

/-- Whether an expression is written as it is to be read. -/
def WellFormed : Expression → Prop
  | .operand tokens => operand? tokens = some (tokens, [])
  | .group left e right => isOpening left = true ∧ isClosing right = true ∧ e.WellFormed
  | .signed sign e => isSign sign = true ∧ e.WellFormed ∧ e.Stands Operator.signRank
  | .binary e o e' => ∃ op ∈ Operator.of? o,
      e.WellFormed ∧ e.Ends op.rank ∧ e'.WellFormed ∧ e'.Stands (op.rank + 1)

/-! ### Reading -/

mutual

/-- The expression of operators of rank `n` and above that stands first, and what follows it. -/
def parse : Nat → Nat → List Token → Option (Expression × List Token)
  | 0, _, _ => none
  | fuel + 1, n, input => (primary fuel input).bind fun r => climb fuel n r.1 r.2

/-- The operand, group or sign with its operand that stands first, and what follows it. -/
def primary : Nat → List Token → Option (Expression × List Token)
  | 0, _ => none
  | _, [] => none
  | fuel + 1, t :: rest =>
    if isSign t then (parse fuel Operator.signRank rest).map fun r => (.signed t r.1, r.2)
    else if isOpening t then
      match parse fuel 0 rest with
      | some (e, right :: more) => if isClosing right then some (.group t e right, more) else none
      | _ => none
    else (operand? (t :: rest)).map fun r => (.operand r.1, r.2)

/-- The expression that `e` goes on to with operators of rank `n` and above, and what follows it. -/
def climb : Nat → Nat → Expression → List Token → Option (Expression × List Token)
  | 0, _, _, _ => none
  | _, _, e, [] => some (e, [])
  | fuel + 1, n, e, o :: rest =>
    match Operator.of? o with
    | none => some (e, o :: rest)
    | some op =>
      if n ≤ op.rank then
        (parse fuel (op.rank + 1) rest).bind fun r => climb fuel n (.binary e o r.1) r.2
      else some (e, o :: rest)

end

def parse? (input : List Token) : Option Expression :=
  match parse (3 * input.length + 1) 0 input with
  | some (e, []) => some e
  | _ => none

/-- Whether what follows an expression is not taken for a part of it. -/
def Follows (e : Expression) (rest : List Token) : Prop :=
  ∀ t ∈ rest.head?, isClosing t = true ∨ ∃ op ∈ Operator.of? t, e.Ends op.rank

theorem closing?_append {depth : Nat} {l : List Token} {r : List Token × List Token}
    (h : closing? depth l = some r) (rest : List Token) :
    closing? depth (l ++ rest) = some (r.1, r.2 ++ rest) := by
  induction l generalizing depth r with
  | nil => cases h
  | cons t l ih =>
    rw [closing?] at h
    rw [List.cons_append, closing?]
    split at h
    · rename_i hc
      cases h
      rw [if_pos hc]
    · rename_i hc
      obtain ⟨s, hs, rfl⟩ := Option.map_eq_some_iff.1 h
      rw [if_neg hc, ih hs]
      rfl

theorem of?_closing {t : Token} (h : isClosing t = true) : Operator.of? t = none := by
  simp only [isClosing, Bool.and_eq_true, beq_iff_eq] at h
  rw [Operator.of?, if_pos h.1, h.2]
  rfl

theorem of?_opening {t : Token} (h : isOpening t = true) : Operator.of? t = none := by
  simp only [isOpening, Bool.and_eq_true, beq_iff_eq] at h
  rw [Operator.of?, if_pos h.1, h.2]
  rfl

theorem arguments?_append {l : List Token} {a : List Token} (h : arguments? l = some (a, []))
    {rest : List Token} (hr : ∀ t ∈ rest.head?, isOpening t = false) :
    arguments? (l ++ rest) = some (a, rest) := by
  cases l with
  | nil =>
    cases h
    cases rest with
    | nil => rfl
    | cons t rest => rw [List.nil_append, arguments?, if_neg (by simp [hr t rfl])]
  | cons t l =>
    rw [arguments?] at h
    rw [List.cons_append, arguments?]
    split at h
    · rename_i ho
      obtain ⟨⟨b, left⟩, hc, he⟩ := Option.map_eq_some_iff.1 h
      cases he
      rw [if_pos ho, closing?_append hc]
      rfl
    · cases h

theorem call?_append {t : Token} {l a rest : List Token} (h : call? t l = some (a, []))
    (hr : ∀ u ∈ rest.head?, isOpening u = false ∧ u.kind ≠ .identifier) :
    call? t (l ++ rest) = some (a, rest) := by
  have hopen : ∀ u ∈ rest.head?, isOpening u = false := fun u hu => (hr u hu).1
  cases l with
  | nil =>
    cases h
    cases rest with
    | nil => rfl
    | cons u more =>
      have hu : ¬(t.kind = .instruction ∧ u.kind = .identifier) := fun h => (hr u rfl).2 h.2
      rw [List.nil_append, call?, if_neg hu, arguments?, if_neg (by simp [hopen u rfl])]
      rfl
  | cons u l =>
    rw [call?] at h
    rw [List.cons_append, call?]
    split at h
    · rename_i hu
      obtain ⟨⟨b, left⟩, hc, he⟩ := Option.map_eq_some_iff.1 h
      cases he
      rw [if_pos hu, arguments?_append hc hopen]
      rfl
    · rename_i hu
      obtain ⟨⟨b, left⟩, hc, he⟩ := Option.map_eq_some_iff.1 h
      cases he
      rw [if_neg hu, ← List.cons_append, arguments?_append hc hopen]
      rfl

theorem operand?_append {l a rest : List Token} (h : operand? l = some (a, []))
    (hr : ∀ t ∈ rest.head?, isOpening t = false ∧ t.kind ≠ .identifier) :
    operand? (l ++ rest) = some (a, rest) := by
  cases l with
  | nil => cases h
  | cons t l =>
    rw [operand?] at h
    rw [List.cons_append, operand?]
    split at h
    · rename_i hn
      rw [if_pos hn]
      split at h
      · rename_i hk
        cases h
        rw [if_pos hk, List.nil_append]
      · rename_i hk
        rw [if_neg hk, call?_append h hr]
    · cases h

theorem exists_name {a : List Token} (h : operand? a = some (a, [])) :
    ∃ t rest, a = t :: rest ∧ isName t = true := by
  cases a with
  | nil => cases h
  | cons t rest =>
    rw [operand?] at h
    split at h
    · exact ⟨t, rest, rfl, ‹_›⟩
    · cases h

/-- What may follow an expression is neither a parenthesis that opens nor a variable. -/
theorem Follows.head {e : Expression} {rest : List Token} (h : Follows e rest) :
    ∀ t ∈ rest.head?, isOpening t = false ∧ t.kind ≠ .identifier := by
  intro t ht
  rcases h t ht with hc | ⟨op, hop, -⟩
  · simp only [isClosing, Bool.and_eq_true, beq_iff_eq] at hc
    simp [isOpening, hc.1, hc.2]
  · constructor
    · by_contra ho
      rw [of?_opening (by simpa using ho)] at hop
      cases hop
    · intro hk
      rw [Operator.of?, if_neg (by simp [hk]), if_neg (by simp [hk])] at hop
      cases hop

theorem climb_nil {fuel n : Nat} (e : Expression) (hf : 1 ≤ fuel) : climb fuel n e [] = some (e, []) := by
  cases fuel with
  | zero => omega
  | succ fuel =>
    rw [climb]
    simp

theorem climb_stop {fuel n : Nat} (e : Expression) {rest : List Token} (hf : 1 ≤ fuel)
    (h : ∀ t ∈ rest.head?, ∀ op ∈ Operator.of? t, op.rank < n) :
    climb fuel n e rest = some (e, rest) := by
  cases rest with
  | nil => exact climb_nil e hf
  | cons o rest =>
    cases fuel with
    | zero => omega
    | succ fuel =>
      rw [climb]
      cases ho : Operator.of? o with
      | none => rfl
      | some op => simp only [if_neg (Nat.not_le.2 (h o rfl op ho))]

theorem climb_go {fuel n : Nat} (e : Expression) {o : Token} {rest : List Token} {op : Operator}
    (ho : Operator.of? o = some op) (hn : n ≤ op.rank) :
    climb (fuel + 1) n e (o :: rest) =
      (parse fuel (op.rank + 1) rest).bind fun r => climb fuel n (.binary e o r.1) r.2 := by
  rw [climb, ho]
  simp only [if_pos hn]

theorem primary_operand {fuel : Nat} {a rest : List Token} (h : operand? a = some (a, []))
    (hr : ∀ t ∈ rest.head?, isOpening t = false ∧ t.kind ≠ .identifier) :
    primary (fuel + 1) (a ++ rest) = some (.operand a, rest) := by
  obtain ⟨t, more, rfl, ht⟩ := exists_name h
  have hk : t.kind ≠ .symbol := by
    intro hk
    simp [isName, hk] at ht
  rw [List.cons_append, primary, if_neg (by simp [isSign, hk]), if_neg (by simp [isOpening, hk]),
    ← List.cons_append, operand?_append h hr]
  rfl

theorem WellFormed.stands_zero {e : Expression} (he : e.WellFormed) : e.Stands 0 := by
  cases e with
  | binary e o e' =>
    obtain ⟨op, hop, -⟩ := he
    exact ⟨op, hop, Nat.zero_le _⟩
  | _ => trivial

theorem WellFormed.stands {e : Expression} (he : e.WellFormed) {n q : Nat} (hq : e.Ends q)
    (hn : n ≤ q) : e.Stands n := by
  cases e with
  | binary e o e' =>
    obtain ⟨op, hop, -⟩ := he
    exact ⟨op, hop, Nat.le_trans hn (hq.1 op hop)⟩
  | _ => trivial

/-- Reading an expression with what follows it comes to reading on behind the expression. The fuel that
an expression takes is three times its length at most. -/
theorem parse_append {e : Expression} (he : e.WellFormed) {n K : Nat} (hs : e.Stands n)
    {rest : List Token} {r : Option (Expression × List Token)} (hr : Follows e rest)
    (h : ∀ fuel, K ≤ fuel → climb fuel n e rest = r) (fuel : Nat)
    (hf : K + 3 * e.tokens.length ≤ fuel) : parse fuel n (e.tokens ++ rest) = r := by
  induction e generalizing n K rest r fuel with
  | operand a =>
    obtain ⟨t, more, rfl, -⟩ := exists_name he
    simp only [tokens, List.length_cons] at hf
    obtain ⟨fuel, rfl⟩ : ∃ k, fuel = k + 2 := ⟨fuel - 2, by omega⟩
    rw [parse, tokens, primary_operand he hr.head]
    exact h _ (by omega)
  | group left e right ih =>
    obtain ⟨hleft, hright, he⟩ := he
    simp only [tokens, List.length_cons, List.length_append, List.length_nil] at hf
    obtain ⟨fuel, rfl⟩ : ∃ k, fuel = k + 2 := ⟨fuel - 2, by omega⟩
    have hinner : parse fuel 0 (e.tokens ++ right :: rest) = some (e, right :: rest) := by
      refine ih he he.stands_zero (fun t ht => .inl ?_) (fun k hk => climb_stop e hk ?_) fuel
        (by omega)
      · cases ht
        exact hright
      · intro t ht op hop
        cases ht
        rw [of?_closing hright] at hop
        cases hop
    have hsign : ¬isSign left = true := by
      simp only [isOpening, Bool.and_eq_true, beq_iff_eq] at hleft
      simp [isSign, hleft.2]
    rw [parse, tokens, List.cons_append, List.append_assoc, List.cons_append, List.nil_append, primary,
      if_neg hsign, if_pos hleft, hinner]
    simp only [if_pos hright]
    exact h _ (by omega)
  | signed sign e ih =>
    obtain ⟨hsign, he, hs⟩ := he
    simp only [tokens, List.length_cons] at hf
    obtain ⟨fuel, rfl⟩ : ∃ k, fuel = k + 2 := ⟨fuel - 2, by omega⟩
    have hinner : parse fuel Operator.signRank (e.tokens ++ rest) = some (e, rest) := by
      refine ih he hs (fun t ht => ?_) (fun k hk => climb_stop e hk ?_) fuel (by omega)
      · exact (hr t ht).imp_right fun ⟨op, hop, hends⟩ => ⟨op, hop, hends.2⟩
      · intro t ht op hop
        rcases hr t ht with hc | ⟨op', hop', hends⟩
        · rw [of?_closing hc] at hop
          cases hop
        · cases Option.some.inj ((Option.mem_def.1 hop).symm.trans hop')
          exact hends.1
    rw [parse, tokens, List.cons_append, primary, if_pos hsign, hinner]
    exact h _ (by omega)
  | binary e o e' ih ih' =>
    obtain ⟨op, hop, he, hends, he', hs'⟩ := he
    obtain ⟨op', hop', hn⟩ := hs
    cases Option.some.inj ((Option.mem_def.1 hop).symm.trans hop')
    simp only [tokens, List.length_cons, List.length_append] at hf
    rw [tokens, List.append_assoc, List.cons_append]
    refine ih he (K := K + 3 * e'.tokens.length + 2) (he.stands hends hn) (fun t ht => ?_)
      (fun k hk => ?_) fuel (by omega)
    · cases ht
      exact .inr ⟨op, hop, hends⟩
    obtain ⟨k, rfl⟩ : ∃ j, k = j + 1 := ⟨k - 1, by omega⟩
    have hinner : parse k (op.rank + 1) (e'.tokens ++ rest) = some (e', rest) := by
      refine ih' he' hs' (fun t ht => ?_) (fun j hj => climb_stop e' hj ?_) k (by omega)
      · exact (hr t ht).imp_right fun ⟨op, hop, hends⟩ => ⟨op, hop, hends.2⟩
      · intro t ht op' hop'
        rcases hr t ht with hc | ⟨op'', hop'', hends⟩
        · rw [of?_closing hc] at hop'
          cases hop'
        · cases Option.some.inj ((Option.mem_def.1 hop').symm.trans hop'')
          exact Nat.lt_succ_of_le (hends.1 op hop)
    rw [climb_go e hop hn, hinner]
    exact h k (by omega)

theorem parse?_tokens {e : Expression} (he : e.WellFormed) : parse? e.tokens = some e := by
  have h : parse (3 * e.tokens.length + 1) 0 (e.tokens ++ []) = some (e, []) :=
    parse_append he he.stands_zero (fun _ ht => by cases ht) (fun k hk => climb_nil e hk) _ (by omega)
  rw [List.append_nil] at h
  rw [parse?, h]

theorem tokens_injective {e e' : Expression} (he : e.WellFormed) (he' : e'.WellFormed)
    (h : e.tokens = e'.tokens) : e = e' := by
  have := parse?_tokens he'
  rw [← h, parse?_tokens he] at this
  exact Option.some.inj this

end Expression

/-- What a machine makes of operands and of the operators whose results are its own. -/
structure Machine where
  operand : List Token → Option ℚ
  power : ℚ → ℚ → Option ℚ
  quotient : ℚ → ℚ → Option ℚ
  modulo : ℚ → ℚ → Option ℚ
  /-- The numeral 1 is one. -/
  one : ∀ pos, operand [⟨.number, "1", pos⟩] = some 1

namespace Machine

def apply (m : Machine) : Operator → ℚ → ℚ → Option ℚ
  | .plus, x, y => some (x + y)
  | .minus, x, y => some (x - y)
  | .times, x, y => some (x * y)
  | .over, x, y => if y = 0 then none else some (x / y)
  | .modulo, x, y => m.modulo x y
  | .quotient, x, y => m.quotient x y
  | .power, x, y => m.power x y

/-- The result of an operator on operands that may be undefined. -/
def combine (m : Machine) (op : Operator) (x y : Option ℚ) : Option ℚ :=
  x.bind fun x => y.bind fun y => m.apply op x y

/-- The number that an expression stands for where it is defined. -/
def value (m : Machine) : Expression → Option ℚ
  | .operand tokens => m.operand tokens
  | .group _ e _ => m.value e
  | .signed sign e => (m.value e).map fun x => if sign.value = ['-'] then -x else x
  | .binary e o e' => (Operator.of? o).bind fun op => m.combine op (m.value e) (m.value e')

/-- The number that a run of tokens stands for. -/
def worth (m : Machine) (input : List Token) : Option ℚ := (Expression.parse? input).bind m.value

theorem worth_tokens (m : Machine) {e : Expression} (he : e.WellFormed) :
    m.worth e.tokens = m.value e := by
  rw [worth, Expression.parse?_tokens he]
  rfl

theorem combine_shift (m : Machine) {op op' : Operator} (h : op.shifts op' = true)
    (x y z : Option ℚ) : m.combine op' (m.combine op x y) z = m.combine op x (m.combine op' y z) := by
  cases x with
  | none => rfl
  | some x =>
    cases y with
    | none => cases z <;> rfl
    | some y =>
      cases z with
      | none => cases op <;> cases op' <;> first | rfl | cases h
      | some z =>
        cases op <;> cases op' <;> try cases h
        · simp only [combine, apply, Option.bind_some, add_assoc]
        · simp only [combine, apply, Option.bind_some, add_sub_assoc]
        · simp only [combine, apply, Option.bind_some, mul_assoc]
        · simp only [combine, apply, Option.bind_some]
          split
          · rfl
          · simp only [Option.bind_some, mul_div_assoc]

end Machine

namespace Expression

/-- What is read when `x o` is written in front of an expression: the operands that bind tighter than
`o` are taken to its right. -/
def attach (x : Expression) (o : Token) (op : Operator) : Expression → Expression
  | .binary e o' e' =>
    if (Operator.of? o').any fun op' => op'.rank ≤ op.rank then .binary (attach x o op e) o' e'
    else .binary x o (.binary e o' e')
  | e => .binary x o e

/-- Whether every operator of an expression outside parentheses binds tighter than `op`, or comes to
the same behind it. -/
def Reassociates (op : Operator) : Expression → Prop
  | .binary e o' _ => ∀ op' ∈ Operator.of? o',
      op.rank < op'.rank ∨ (op.shifts op' = true ∧ e.Reassociates op)
  | _ => True

theorem tokens_attach (x : Expression) (o : Token) (op : Operator) (e : Expression) :
    (attach x o op e).tokens = x.tokens ++ o :: e.tokens := by
  induction e with
  | binary e o' e' ih =>
    rw [attach]
    split
    · simp [tokens, ih]
    · rfl
  | _ => rfl

variable {o v : Token} {op : Operator} {e : Expression}

theorem wellFormed_attach (hv : operand? [v] = some ([v], [])) (ho : Operator.of? o = some op)
    (he : e.WellFormed) : (attach (.operand [v]) o op e).WellFormed ∧
      ∀ q ≤ op.rank, e.Ends q → (attach (.operand [v]) o op e).Ends q := by
  have single (e : Expression) (he : e.WellFormed) (hs : e.Stands (op.rank + 1)) :
      (binary (.operand [v]) o e).WellFormed ∧
        ∀ q ≤ op.rank, e.Ends q → (binary (.operand [v]) o e).Ends q := by
    refine ⟨⟨op, ho, hv, trivial, he, hs⟩, fun q hq hends => ⟨fun op' hop' => ?_, hends⟩⟩
    cases Option.some.inj (ho.symm.trans hop')
    exact hq
  induction e with
  | operand a => exact single _ he trivial
  | group left e right => exact single _ he trivial
  | signed sign e => exact single _ he trivial
  | binary e o' e' ih =>
    obtain ⟨op', hop', hwell, hends, hwell', hstands⟩ := id he
    obtain ⟨hattach, hkeep⟩ := ih hwell
    have hof : Operator.of? o' = some op' := hop'
    by_cases hle : op'.rank ≤ op.rank
    · rw [attach, if_pos (by simp [hof, hle])]
      exact ⟨⟨op', hop', hattach, hkeep op'.rank hle hends, hwell', hstands⟩, fun q _ hq => hq⟩
    · rw [attach, if_neg (by simpa [hof] using hle)]
      exact single _ he ⟨op', hop', Nat.lt_of_not_le hle⟩

theorem value_attach (m : Machine) (x : Expression) (ho : Operator.of? o = some op)
    (he : e.WellFormed) (hr : e.Reassociates op) :
    m.value (attach x o op e) = m.combine op (m.value x) (m.value e) := by
  have single (e : Expression) :
      m.value (.binary x o e) = m.combine op (m.value x) (m.value e) := by
    rw [Machine.value, ho, Option.bind_some]
  induction e with
  | operand a => exact single _
  | group left e right => exact single _
  | signed sign e => exact single _
  | binary e o' e' ih =>
    obtain ⟨op', hop', hwell, -⟩ := he
    have hof : Operator.of? o' = some op' := hop'
    rcases hr op' hop' with hlt | ⟨hshift, hr⟩
    · rw [attach, if_neg (by simpa [hof] using hlt)]
      exact single _
    · by_cases hle : op'.rank ≤ op.rank
      · rw [attach, if_pos (by simp [hof, hle]), Machine.value, Machine.value, hof, Option.bind_some,
          Option.bind_some, ih hwell hr, m.combine_shift hshift]
      · rw [attach, if_neg (by simpa [hof] using hle)]
        exact single _

end Expression

end ClassicBasic
