import ClassicBasic.Proofs.Arithmetic
import ClassicBasic.Proofs.Expansion
import ClassicBasic.Proofs.Homed

/-!
# Compound assignments

The last stage writes `x op= e` as `x = x op e`, with the tokens of `e` as they come. So `x` gets what it
is to get as long as the operators of `e` bind tighter than `op`, or come to the same behind it.
-/

set_option autoImplicit false

namespace ClassicBasic

variable {d : Dialect} {o : Options}

namespace Touch

def polish (d : Dialect) (o : Options) (t : Token) : List Token :=
  if t.kind = .truth ∧ t.is "FALSE" then Lexer.snippet d t.pos "0"
  else if t.kind = .truth ∧ t.is "TRUE" then Lexer.snippet d t.pos "-1"
  else if o.translate ∧ t.kind.isLiteral then [t.withValue (d.translate t.value)]
  else [capitalised d o t]

/-- Whether a token is treated by itself: it is no PRINT, no THEN or GOTO, no compound assignment and not
the end. -/
structure Settled (t : Token) : Prop where
  print : isPrint t = false
  jump : t.kind = .jump → t.is "THEN" = false ∧ t.is "GOTO" = false
  compound : t.kind ≠ .compound
  eof : t.kind ≠ .eof

variable {t : Token}

theorem touch_settled (h : Settled t) (out : List Token) (next : Token) :
    touch d o out t next = .ok (polish d o t) := by
  have hthen : ¬(o.dropsThen ∧ t.kind = .jump ∧ t.is "THEN" ∧ next.is "GOTO") := fun hc => by
    rw [(h.jump hc.2.1).1] at hc
    exact Bool.false_ne_true hc.2.2.1
  have hgoto : ¬(o.dropsGoto ∧ t.kind = .jump ∧ t.is "GOTO" ∧ follows out ["THEN", "ELSE"]) := fun hc => by
    rw [(h.jump hc.2.1).2] at hc
    exact Bool.false_ne_true hc.2.2.1
  have hprint : ¬(isPrint t = true ∧ o.printStyle ≠ []) := fun hc => by
    rw [h.print] at hc
    exact Bool.false_ne_true hc.1
  unfold touch polish
  rw [if_neg hprint, if_neg hthen, if_neg hgoto, if_neg h.compound]
  split_ifs <;> rfl

theorem run_settled {l : List Token} (h : ∀ t ∈ l, Settled t) (out rest : List Token) :
    run d o out (l ++ rest) = run d o ((l.flatMap (polish d o)).reverse ++ out) rest := by
  induction l generalizing out with
  | nil => rfl
  | cons t l ih =>
    obtain ⟨ht, hl⟩ := List.forall_mem_cons.1 h
    rw [List.cons_append, run, if_neg ht.eof, touch_settled ht]
    simp only [ih hl, List.flatMap_cons, List.reverse_append, List.append_assoc]

theorem polish_single (ht : t.kind ≠ .truth) (hl : t.kind.isLiteral = false) :
    polish d o t = [capitalised d o t] := by
  simp [polish, ht, hl]

theorem capitalised_value_iff {c : Char} (hc : c.toNat < 0x80) (hu : c.isUpper = false)
    (h0 : c ≠ '\x00') (hkept : Text.upper [c] = [c]) :
    (capitalised d o t).value = [c] ↔ t.value = [c] := by
  rcases capitalised_value (d := d) (o := o) (t := t) with h | h <;> rw [h]
  refine ⟨fun heq => ?_, fun heq => by rw [heq, hkept]⟩
  by_contra hne
  exact upper_ne hne hc hu h0 heq

end Touch

namespace Expression

open Touch

variable {t : Token}

theorem isOpening_capitalised : isOpening (capitalised d o t) = isOpening t := by
  rw [Bool.eq_iff_iff]
  simp only [isOpening, Bool.and_eq_true, beq_iff_eq, capitalised_kind,
    capitalised_value_iff (c := '(') (by decide) (by decide) (by decide) (by decide)]

theorem isClosing_capitalised : isClosing (capitalised d o t) = isClosing t := by
  rw [Bool.eq_iff_iff]
  simp only [isClosing, Bool.and_eq_true, beq_iff_eq, capitalised_kind,
    capitalised_value_iff (c := ')') (by decide) (by decide) (by decide) (by decide)]

theorem minus_capitalised : (capitalised d o t).value = ['-'] ↔ t.value = ['-'] :=
  capitalised_value_iff (by decide) (by decide) (by decide) (by decide)

theorem isSign_capitalised : isSign (capitalised d o t) = isSign t := by
  rw [Bool.eq_iff_iff]
  simp only [isSign, Bool.and_eq_true, Bool.or_eq_true, beq_iff_eq, capitalised_kind,
    minus_capitalised, capitalised_value_iff (c := '+') (by decide) (by decide) (by decide) (by decide)]

theorem polish_symbol (h : t.kind = .symbol) : polish d o t = [capitalised d o t] :=
  polish_single (by simp [h]) (by simp [h, Kind.isLiteral])

theorem polish_parenthesis (h : isOpening t = true ∨ isClosing t = true) :
    polish d o t = [capitalised d o t] := by
  simp only [isOpening, isClosing, Bool.and_eq_true, beq_iff_eq, ← and_or_left] at h
  exact polish_symbol h.1

theorem polish_name (h : isName t = true) : polish d o t = [capitalised d o t] := by
  refine polish_single (fun hk => ?_) ?_
  · simp [isName, hk] at h
  · cases hk : t.kind <;> simp_all [isName, Kind.isLiteral]

theorem polish_operator {op : Operator} (h : Operator.of? t = some op) :
    polish d o t = [capitalised d o t] := by
  unfold Operator.of? at h
  split at h
  · exact polish_symbol ‹_›
  · split at h
    · rename_i hk
      exact polish_single (by simp [hk.1]) (by simp [hk.1, Kind.isLiteral])
    · cases h

theorem of?_capitalised {op : Operator} (h : Operator.of? t = some op) :
    Operator.of? (capitalised d o t) = some op := by
  have hvalue := capitalised_value (d := d) (o := o) (t := t)
  unfold Operator.of? at h ⊢
  rw [capitalised_kind]
  split at h
  · rename_i hk
    have hsign : Text.upper t.value = t.value := by
      have hall : ∀ p ∈ Operator.signs, Text.upper p.1 = p.1 := by decide
      obtain ⟨before, after, hmem, -⟩ := List.lookup_eq_some_iff.1 h
      exact hall (t.value, op) (by rw [hmem]; simp)
    rw [hsign, or_self] at hvalue
    rw [if_pos hk, hvalue, h]
  · rename_i hk
    split at h
    · rename_i hm
      have hupper : (capitalised d o t).upper = "MOD".toList := by
        rcases hvalue with hv | hv
        · rw [Token.upper, hv]
          exact hm.2
        · rw [Token.upper, hv]
          exact (congrArg Text.upper hm.2).trans (by decide)
      rw [if_neg hk, if_pos ⟨hm.1, hupper⟩, h]
    · cases h

theorem parentheses_snippet {pos : Position} {code : Text} (h : code = "0".toList ∨ code = "-1".toList) :
    ∀ u ∈ Lexer.snippet d pos code, isOpening u = false ∧ isClosing u = false := by
  have hmem : ("0".toList, [(.number, "0".toList)]) ∈ Lexer.fixedCode ∧
      ("-1".toList, [(.symbol, "-".toList), (.number, "1".toList)]) ∈ Lexer.fixedCode := by
    decide
  intro u hu
  rcases h with rfl | rfl
  · rw [Lexer.snippet_fixed hmem.1] at hu
    rw [List.mem_singleton.1 hu]
    exact ⟨rfl, rfl⟩
  · rw [Lexer.snippet_fixed hmem.2] at hu
    rcases List.mem_cons.1 hu with rfl | hu
    · exact ⟨rfl, rfl⟩
    · rw [List.mem_singleton.1 hu]
      exact ⟨rfl, rfl⟩

theorem parentheses_polish (ho : isOpening t = false) (hc : isClosing t = false) :
    ∀ u ∈ polish d o t, isOpening u = false ∧ isClosing u = false := by
  unfold polish
  split
  · exact parentheses_snippet (.inl rfl)
  · split
    · exact parentheses_snippet (.inr rfl)
    · split
      · rename_i hl
        have hk : t.kind ≠ .symbol := fun hk => by simp [hk, Kind.isLiteral] at hl
        simp [isOpening, isClosing, Token.withValue, hk]
      · simp [isOpening_capitalised, isClosing_capitalised, ho, hc]

theorem closing?_skip {depth : Nat} {l : List Token}
    (h : ∀ u ∈ l, isOpening u = false ∧ isClosing u = false) (rest : List Token) :
    closing? depth (l ++ rest) = (closing? depth rest).map fun r => (l ++ r.1, r.2) := by
  induction l with
  | nil => simp
  | cons t l ih =>
    obtain ⟨ht, hl⟩ := List.forall_mem_cons.1 h
    rw [List.cons_append, closing?, if_neg (by simp [ht.2]), ht.1, ht.2, if_neg (by simp),
      if_neg (by simp), ih hl, Option.map_map]
    rfl

theorem closing?_polished {depth : Nat} {l : List Token} {r : List Token × List Token}
    (h : closing? depth l = some r) : closing? depth (l.flatMap (polish d o)) =
      some (r.1.flatMap (polish d o), r.2.flatMap (polish d o)) := by
  induction l generalizing depth r with
  | nil => cases h
  | cons t l ih =>
    rw [closing?] at h
    by_cases hp : isOpening t = true ∨ isClosing t = true
    · have hone : polish d o t = [capitalised d o t] := polish_parenthesis hp
      rw [List.flatMap_cons, hone, List.singleton_append, closing?, isOpening_capitalised,
        isClosing_capitalised]
      split at h
      · rename_i hc
        cases h
        rw [if_pos hc]
        simp [hone]
      · rename_i hc
        obtain ⟨s, hs, rfl⟩ := Option.map_eq_some_iff.1 h
        rw [if_neg hc, ih hs]
        simp [hone]
    · rw [not_or, Bool.not_eq_true, Bool.not_eq_true] at hp
      rw [if_neg (by simp [hp.2])] at h
      obtain ⟨s, hs, rfl⟩ := Option.map_eq_some_iff.1 h
      simp only [hp.1, hp.2, Bool.false_eq_true, if_false] at hs
      rw [List.flatMap_cons, closing?_skip (parentheses_polish hp.1 hp.2), ih hs]
      simp

theorem arguments?_polished {l a : List Token} (h : arguments? l = some (a, [])) :
    arguments? (l.flatMap (polish d o)) = some (a.flatMap (polish d o), []) := by
  cases l with
  | nil =>
    cases h
    rfl
  | cons t l =>
    rw [arguments?] at h
    split at h
    · rename_i ho
      obtain ⟨⟨b, left⟩, hc, he⟩ := Option.map_eq_some_iff.1 h
      cases he
      have hone : polish d o t = [capitalised d o t] := polish_parenthesis (.inl ho)
      rw [List.flatMap_cons, hone, List.singleton_append, arguments?, isOpening_capitalised,
        if_pos ho, closing?_polished hc]
      simp [hone]
    · cases h

theorem operand?_polished {a : List Token} (h : operand? a = some (a, [])) :
    operand? (a.flatMap (polish d o)) = some (a.flatMap (polish d o), []) := by
  obtain ⟨t, rest, rfl, ht⟩ := exists_name h
  have hname : isName (capitalised d o t) = true := by
    simpa only [isName, capitalised_kind] using ht
  rw [operand?, if_pos ht] at h
  rw [List.flatMap_cons, polish_name ht, List.singleton_append, operand?, if_pos hname,
    capitalised_kind]
  split at h
  · rename_i hk
    cases h
    rw [if_pos hk]
    rfl
  · rename_i hk
    rw [if_neg hk]
    cases rest with
    | nil => rfl
    | cons u more =>
      rw [call?] at h
      split at h
      · rename_i hu
        obtain ⟨⟨b, left⟩, hb, he⟩ := Option.map_eq_some_iff.1 h
        cases he
        have hone : polish d o u = [capitalised d o u] :=
          polish_single (by simp [hu.2]) (by simp [hu.2, Kind.isLiteral])
        rw [List.flatMap_cons, hone, List.singleton_append, call?, capitalised_kind, capitalised_kind,
          if_pos hu, arguments?_polished hb]
        rfl
      · rename_i hu
        obtain ⟨⟨b, left⟩, hb, he⟩ := Option.map_eq_some_iff.1 h
        cases he
        have ho : isOpening u = true := by
          by_contra ho
          rw [arguments?, if_neg ho] at hb
          cases hb
        have hone : polish d o u = [capitalised d o u] := polish_parenthesis (.inl ho)
        have hlast := arguments?_polished (d := d) (o := o) hb
        rw [List.flatMap_cons, hone, List.singleton_append] at hlast ⊢
        rw [call?, capitalised_kind, capitalised_kind, if_neg hu, hlast]
        rfl

def polished (d : Dialect) (o : Options) : Expression → Expression
  | .operand tokens => .operand (tokens.flatMap (polish d o))
  | .group left e right => .group (capitalised d o left) (e.polished d o) (capitalised d o right)
  | .signed sign e => .signed (capitalised d o sign) (e.polished d o)
  | .binary e sign e' => .binary (e.polished d o) (capitalised d o sign) (e'.polished d o)

variable {e : Expression}

theorem tokens_polished (he : e.WellFormed) :
    (e.polished d o).tokens = e.tokens.flatMap (polish d o) := by
  induction e with
  | operand a => rfl
  | group left e right ih =>
    obtain ⟨hl, hr, he⟩ := he
    simp [polished, tokens, ih he, polish_parenthesis (.inl hl), polish_parenthesis (.inr hr)]
  | signed sign e ih =>
    obtain ⟨hs, he, -⟩ := he
    simp only [isSign, Bool.and_eq_true, beq_iff_eq] at hs
    simp [polished, tokens, ih he, polish_symbol hs.1]
  | binary e sign e' ih ih' =>
    obtain ⟨op, hop, he, -, he', -⟩ := he
    simp [polished, tokens, ih he, ih' he', polish_operator hop]

theorem Stands.polished {n : Nat} (h : e.Stands n) : (e.polished d o).Stands n := by
  cases e with
  | binary e sign e' =>
    obtain ⟨op, hop, hn⟩ := h
    exact ⟨op, of?_capitalised hop, hn⟩
  | _ => trivial

theorem WellFormed.ends_polished (he : e.WellFormed) {n : Nat} (h : e.Ends n) :
    (e.polished d o).Ends n := by
  induction e with
  | signed sign e ih => exact ⟨h.1, ih he.2.1 h.2⟩
  | binary e sign e' ih ih' =>
    obtain ⟨op, hop, -, -, he', -⟩ := he
    refine ⟨fun op' hop' => ?_, ih' he' h.2⟩
    cases Option.some.inj ((of?_capitalised hop).symm.trans hop')
    exact h.1 op hop
  | _ => trivial

theorem WellFormed.polished (he : e.WellFormed) : (e.polished d o).WellFormed := by
  induction e with
  | operand a => exact operand?_polished he
  | group left e right ih =>
    exact ⟨isOpening_capitalised.trans he.1, isClosing_capitalised.trans he.2.1, ih he.2.2⟩
  | signed sign e ih => exact ⟨isSign_capitalised.trans he.1, ih he.2.1, he.2.2.polished⟩
  | binary e sign e' ih ih' =>
    obtain ⟨op, hop, he, hends, he', hstands⟩ := he
    exact ⟨op, of?_capitalised hop, ih he, he.ends_polished hends, ih' he', hstands.polished⟩

theorem WellFormed.reassociates_polished (he : e.WellFormed) {op : Operator} (h : e.Reassociates op) :
    (e.polished d o).Reassociates op := by
  induction e with
  | binary e sign e' ih ih' =>
    obtain ⟨op', hop', he, -⟩ := he
    intro op'' hop''
    cases Option.some.inj ((of?_capitalised hop').symm.trans hop'')
    exact (h op' hop').imp_right fun hs => ⟨hs.1, ih he hs.2⟩
  | _ => trivial

end Expression

namespace Machine

open Expression

/-- The machine as the source sees it, whose operands are written by the last stage. -/
def through (d : Dialect) (o : Options) (m : Machine) : Machine where
  operand tokens := m.operand (tokens.flatMap (Touch.polish d o))
  power := m.power
  quotient := m.quotient
  modulo := m.modulo
  one pos := by
    have hvalue : (Touch.capitalised d o ⟨.number, "1", pos⟩).value = ['1'] :=
      (Touch.capitalised_value_iff (by decide) (by decide) (by decide) (by decide)).2 rfl
    have hself : Touch.capitalised d o ⟨.number, "1", pos⟩ = ⟨.number, "1", pos⟩ := by
      unfold Touch.capitalised at hvalue ⊢
      split
      · rename_i hc
        rw [if_pos hc] at hvalue
        exact congrArg (Token.mk .number · pos) hvalue
      · rfl
    rw [List.flatMap_singleton, polish_name rfl, hself, m.one]

theorem value_polished (m : Machine) {e : Expression} (he : e.WellFormed) :
    m.value (e.polished d o) = (m.through d o).value e := by
  induction e with
  | operand a => rfl
  | group left e right ih => exact ih he.2.2
  | signed sign e ih =>
    simp only [polished, value, ih he.2.1, minus_capitalised]
  | binary e sign e' ih ih' =>
    obtain ⟨op, hop, he, -, he', -⟩ := he
    rw [polished, value, value, ih he, ih' he', of?_capitalised hop, hop]
    cases op <;> rfl

/-- A machine whose variables are all 0. It knows whole numbers and takes powers, quotients and
remainders of none. -/
def cleared : Machine where
  operand
    | [t] =>
      if t.kind = .number then (Text.natInBase 10 0 t.value).toOption.map fun n : Nat => (n : ℚ)
      else some 0
    | _ => none
  power _ _ := none
  quotient _ _ := none
  modulo _ _ := none
  one _ := by simp [show Text.natInBase 10 0 ['1'] = .ok 1 from rfl, Except.toOption]

end Machine

namespace Touch

open Expression

/-- The compound assignments with an operand. -/
def assigned : List (Text × Operator) :=
  [("+=", .plus), ("-=", .minus), ("*=", .times), ("/=", .over), ("^=", .power)]

/-- The compound assignments by one. -/
def counted : List (Text × Operator) := [("++", .plus), ("--", .minus)]

theorem snippet_sign {pos : Position} {c : Char} (hc : c ∈ "=+-*/^".toList) :
    Lexer.snippet d pos [c] = [⟨.symbol, [c], pos⟩] :=
  Lexer.snippet_fixed (List.mem_append_left _ (List.mem_map_of_mem hc)) pos

theorem snippet_equals {pos : Position} : Lexer.snippet d pos "=" = [⟨.symbol, "=", pos⟩] :=
  snippet_sign (by decide)

theorem snippet_one {pos : Position} : Lexer.snippet d pos ['1'] = [⟨.number, ['1'], pos⟩] :=
  Lexer.snippet_fixed (p := (['1'], [(.number, ['1'])])) (by decide) pos

variable {t x : Token}

theorem run_writtenOut (hx : x.kind = .identifier) (ht : t.kind = .compound) (out rest : List Token) :
    run d o (x :: out) (t :: rest) =
      run d o ((writtenOut d t x).reverse ++ x :: out) rest := by
  have htouch (next : Token) : touch d o (x :: out) t next = .ok (writtenOut d t x) := by
    simp [touch, isPrint, ht, hx]
  rw [run, if_neg (by simp [ht]), htouch]

theorem writtenOut_assigned {op : Operator} (h : (t.value, op) ∈ assigned) :
    ∃ c, Operator.of? ⟨.symbol, [c], t.pos⟩ = some op ∧
      writtenOut d t x = [⟨.symbol, "=", t.pos⟩, x, ⟨.symbol, [c], t.pos⟩] := by
  have hall : (assigned.all fun p => "+-*/^".toList.any fun c =>
      p.1 == [c, '='] && Operator.signs.lookup [c] == some p.2) = true := by decide
  obtain ⟨c, hc, hboth⟩ := List.any_eq_true.1 (List.all_eq_true.1 hall _ h)
  obtain ⟨hv, hs⟩ : t.value = [c, '='] ∧ Operator.signs.lookup [c] = some op := by
    simpa only [Bool.and_eq_true, beq_iff_eq] using hboth
  have hne : c ≠ '=' := fun heq => by
    rw [heq] at hc
    exact absurd hc (by decide)
  have hop : operator t = [c] := by rw [operator, hv]; rfl
  have hone : isByOne t = false := by simp [isByOne, hv, hne]
  refine ⟨c, hs, ?_⟩
  rw [writtenOut, hop, snippet_equals, snippet_sign (List.mem_cons_of_mem _ hc), hone]
  rfl

theorem writtenOut_counted {op : Operator} (h : (t.value, op) ∈ counted) :
    ∃ c, Operator.of? ⟨.symbol, [c], t.pos⟩ = some op ∧
      writtenOut d t x =
        [⟨.symbol, "=", t.pos⟩, x, ⟨.symbol, [c], t.pos⟩, ⟨.number, ['1'], t.pos⟩] := by
  have hall : (counted.all fun p => "+-*/^".toList.any fun c =>
      p.1 == [c, c] && Operator.signs.lookup [c] == some p.2) = true := by decide
  obtain ⟨c, hc, hboth⟩ := List.any_eq_true.1 (List.all_eq_true.1 hall _ h)
  obtain ⟨hv, hs⟩ : t.value = [c, c] ∧ Operator.signs.lookup [c] = some op := by
    simpa only [Bool.and_eq_true, beq_iff_eq] using hboth
  have hop : operator t = [c] := by rw [operator, hv]; rfl
  have hone : isByOne t = true := by simp [isByOne, hv]
  refine ⟨c, hs, ?_⟩
  rw [writtenOut, hop, snippet_equals, snippet_sign (List.mem_cons_of_mem _ hc), hone,
    if_pos rfl]
  exact congrArg _ snippet_one

theorem run_assigned (hx : x.kind = .identifier) (ht : t.kind = .compound) {op : Operator}
    (h : (t.value, op) ∈ assigned) {l : List Token} (hl : ∀ u ∈ l, Settled u) (out rest : List Token) :
    ∃ sign, Operator.of? sign = some op ∧ run d o (x :: out) (t :: (l ++ rest)) =
      run d o ((x :: sign :: l.flatMap (polish d o)).reverse ++ ⟨.symbol, "=", t.pos⟩ :: x :: out)
        rest := by
  obtain ⟨c, hc, hw⟩ := writtenOut_assigned (d := d) (x := x) h
  refine ⟨_, hc, ?_⟩
  rw [run_writtenOut hx ht, hw, run_settled hl]
  simp

theorem operand?_variable (hx : x.kind = .identifier) : operand? [x] = some ([x], []) := by
  simp [operand?, isName, hx, call?]

/-- A compound assignment assigns what its operator makes of the variable and of the expression behind
it, where the operators of the expression bind tighter or come to the same. -/
theorem run_compound (m : Machine) (hx : x.kind = .identifier) (ht : t.kind = .compound)
    (out rest : List Token) :
    (∀ op, ∀ e : Expression, (t.value, op) ∈ assigned → e.WellFormed →
      (∀ u ∈ e.tokens, Settled u) → e.Reassociates op → ∃ right,
        run d o (x :: out) (t :: (e.tokens ++ rest)) =
          run d o (right.reverse ++ ⟨.symbol, "=", t.pos⟩ :: x :: out) rest ∧
        m.worth right = m.combine op (m.operand [x]) ((m.through d o).worth e.tokens)) ∧
    ∀ op, (t.value, op) ∈ counted → ∃ right,
      run d o (x :: out) (t :: rest) =
        run d o (right.reverse ++ ⟨.symbol, "=", t.pos⟩ :: x :: out) rest ∧
      m.worth right = m.combine op (m.operand [x]) (some 1) := by
  constructor
  · intro op e h he hl hr
    obtain ⟨sign, hs, hrun⟩ := run_assigned (d := d) (o := o) hx ht h hl out rest
    refine ⟨_, hrun, ?_⟩
    have hread := wellFormed_attach (operand?_variable hx) hs (he.polished (d := d) (o := o))
    have htokens : x :: sign :: e.tokens.flatMap (polish d o) =
        (attach (.operand [x]) sign op (e.polished d o)).tokens := by
      rw [tokens_attach, tokens_polished he]
      rfl
    rw [htokens, m.worth_tokens hread.1, value_attach m _ hs he.polished (he.reassociates_polished hr),
      m.value_polished he, (m.through d o).worth_tokens he]
    rfl
  · intro op h
    obtain ⟨c, hc, hw⟩ := writtenOut_counted (d := d) (x := x) h
    refine ⟨[x, ⟨.symbol, [c], t.pos⟩, ⟨.number, ['1'], t.pos⟩], ?_, ?_⟩
    · rw [run_writtenOut hx ht, hw]
      simp
    · have hread : (Expression.binary (.operand [x]) ⟨.symbol, [c], t.pos⟩
          (.operand [⟨.number, ['1'], t.pos⟩])).WellFormed :=
        ⟨op, hc, operand?_variable hx, trivial, rfl, trivial⟩
      refine (m.worth_tokens hread).trans ?_
      rw [Machine.value, hc, Option.bind_some, Machine.value, Machine.value]
      exact congrArg _ (m.one t.pos)

/-- The expression `1-2` -/
def oneLessTwo : Expression :=
  .binary (.operand [⟨.number, "1", {}⟩]) ⟨.symbol, "-", {}⟩ (.operand [⟨.number, "2", {}⟩])

theorem wellFormed_oneLessTwo : oneLessTwo.WellFormed :=
  ⟨.minus, rfl, rfl, trivial, rfl, trivial⟩

theorem settled_oneLessTwo : ∀ u ∈ oneLessTwo.tokens, Settled u := by
  intro u hu
  simp only [oneLessTwo, tokens, List.mem_append, List.mem_cons, List.not_mem_nil, or_false] at hu
  rcases hu with rfl | rfl | rfl <;> exact ⟨rfl, by decide, by decide, by decide⟩

/-- Behind `x+=1-2` a variable that was 0 is -1. -/
theorem run_compound_sum : ∃ right,
    run .msx {} [⟨.identifier, "x", {}⟩]
        (⟨.compound, "+=", {}⟩ :: (oneLessTwo.tokens ++ [⟨.eof, [], {}⟩])) =
      run .msx {} (right.reverse ++ [⟨.symbol, "=", {}⟩, ⟨.identifier, "x", {}⟩]) [⟨.eof, [], {}⟩] ∧
    Machine.cleared.worth right = some (-1) := by
  obtain ⟨right, hrun, hworth⟩ := (run_compound (d := .msx) (o := {}) Machine.cleared
    (x := ⟨.identifier, "x", {}⟩) (t := ⟨.compound, "+=", {}⟩) rfl rfl [] [⟨.eof, [], {}⟩]).1 .plus
    oneLessTwo (by decide) wellFormed_oneLessTwo settled_oneLessTwo
    (fun op' hop' => by cases hop'; exact .inr ⟨rfl, trivial⟩)
  exact ⟨right, hrun, hworth.trans (by decide +kernel)⟩

/-- Not every compound assignment does so: `x-=1-2` becomes `x=x-1-2`. -/
theorem exists_compound_regrouped : ¬∀ (m : Machine) (x t : Token) (op : Operator) (e : Expression)
    (out rest : List Token), x.kind = .identifier → t.kind = .compound → (t.value, op) ∈ assigned →
    e.WellFormed → (∀ u ∈ e.tokens, Settled u) → ∃ right,
      run .msx {} (x :: out) (t :: (e.tokens ++ rest)) =
        run .msx {} (right.reverse ++ ⟨.symbol, "=", t.pos⟩ :: x :: out) rest ∧
      m.worth right = m.combine op (m.operand [x]) ((m.through .msx {}).worth e.tokens) := by
  intro h
  obtain ⟨right, hrun, hworth⟩ := h Machine.cleared ⟨.identifier, "x", {}⟩ ⟨.compound, "-=", {}⟩ .minus
    oneLessTwo [] [⟨.eof, [], {}⟩] rfl rfl (by decide) wellFormed_oneLessTwo settled_oneLessTwo
  have hright : right = [⟨.identifier, "x", {}⟩, ⟨.symbol, "-", {}⟩, ⟨.number, "1", {}⟩,
      ⟨.symbol, "-", {}⟩, ⟨.number, "2", {}⟩] := by
    have hwritten : (oneLessTwo.tokens.flatMap (polish .msx {})).reverse ++
        ((writtenOut .msx ⟨.compound, "-=", {}⟩ ⟨.identifier, "x", {}⟩).reverse ++
          [⟨.identifier, "x", {}⟩]) =
        ([⟨.identifier, "x", {}⟩, ⟨.symbol, "-", {}⟩, ⟨.number, "1", {}⟩, ⟨.symbol, "-", {}⟩,
          ⟨.number, "2", {}⟩] : List Token).reverse ++
          [⟨.symbol, "=", {}⟩, ⟨.identifier, "x", {}⟩] := by
      decide +kernel
    rw [run_writtenOut rfl rfl, run_settled settled_oneLessTwo, run, if_pos rfl, run, if_pos rfl,
      Except.ok.injEq, List.reverse_inj, List.cons_inj_right, hwritten] at hrun
    exact (List.reverse_inj.1 (List.append_cancel_right hrun)).symm
  rw [hright] at hworth
  exact absurd hworth (by decide +kernel)

end Touch

end ClassicBasic
