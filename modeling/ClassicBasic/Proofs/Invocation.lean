import ClassicBasic.Proofs.Directive

/-!
# Invocations of defines

An invocation is written `[name]`, or `[name]` with an argument between parentheses in which other
invocations may stand. What it expands to is read off how it is written: the body of the define with
the argument in its slots, the invocations of the argument expanded first. The first stage reads what
is written and nothing else.
-/

set_option autoImplicit false

namespace ClassicBasic.Define

/-! ### What is written -/

/-- Tokens with the invocations among them. -/
inductive Writing
  | done
  | token (t : Token) (more : Writing)
  /-- `[name]` -/
  | bare (opening name closing : Token) (more : Writing)
  /-- `[name](content)` -/
  | filled (opening name closing left : Token) (content : Writing) (right : Token) (more : Writing)

namespace Writing

/-- The tokens as they stand. -/
def tokens : Writing → List Token
  | .done => []
  | .token t more => t :: more.tokens
  | .bare opening name closing more => opening :: name :: closing :: more.tokens
  | .filled opening name closing left content right more =>
    opening :: name :: closing :: left :: (content.tokens ++ right :: more.tokens)

def plain : Writing → List Token
  | .done => []
  | .token t more => t :: more.plain
  | .bare _ _ _ more => more.plain
  | .filled _ _ _ _ _ _ more => more.plain

/-- A single invocation. -/
inductive Single : Writing → Prop
  | bare (opening name closing : Token) : Single (.bare opening name closing .done)
  | filled (opening name closing left : Token) (content : Writing) (right : Token) :
    Single (.filled opening name closing left content right .done)

end Writing

/-- A body with `value` in each of its slots and its own tokens placed at `pos`. -/
def replaced (value : List Token) (pos : Position) : List Token → List Token
  | [] => []
  | t :: body =>
    if t.kind = .slot then value ++ replaced value pos body
    else t.movedTo pos :: replaced value pos body

/-- The body of the define that `name` names with `given` in its slots, or with the default of the
define when nothing is given. -/
def substituted (table : Defines) (name : Token) (given : List Token) : List Token :=
  match table.named? name.lower with
  | none => []
  | some m => replaced (if given = [] then m.fallback else given) name.pos m.body

/-- What is written with each invocation expanded, those of an argument before the argument is put
into the slots. -/
def Writing.expanded (table : Defines) : Writing → List Token
  | .done => []
  | .token t more => t :: more.expanded table
  | .bare _ name _ more => substituted table name [] ++ more.expanded table
  | .filled _ name _ _ content _ more =>
    substituted table name (content.expanded table) ++ more.expanded table

def OpensGroup (t : Token) : Prop := t.kind = .symbol ∧ t.value = "("

def openings (l : List Token) : Nat := l.countP fun t : Token => t.value = "("

def closings (l : List Token) : Nat := l.countP fun t : Token => t.value = ")"

/-- Whether the parenthesis behind `l` is the first that closes one in front of `l`. -/
def Balanced (l : List Token) : Prop :=
  (∀ read, read <+: l → closings read ≤ openings read) ∧ openings l = closings l

/-- Whether `name` with the bracket `closing` behind it invokes a define of the table. -/
structure Names (table : Defines) (name closing : Token) : Prop where
  invocable : isInvocable name.value = true
  known : (table.named? name.lower).isSome = true
  closed : closing.value = "]"

def Unfilled (left : List Token) : Prop := ∀ t ∈ left.head?, ¬OpensGroup t

/-- Whether what stands behind an invocation is not its argument. -/
def Writing.Stops (left : List Token) : Writing → Prop
  | .bare _ _ _ _ => Unfilled left
  | _ => True

/-- Whether something is written as it is to be read: every invocation names a define, and its
argument is the shortest group of balanced parentheses behind it, where the parentheses of invocations
in it do not count. -/
inductive Writing.Legible (table : Defines) : Writing → Prop
  | done : Legible table .done
  | token {t : Token} {more : Writing} (ht : ¬Opens t) (hl : t.endsLine = false)
      (hm : Legible table more) : Legible table (.token t more)
  | bare {opening name closing : Token} {more : Writing} (ho : Opens opening)
      (hn : Names table name closing) (hu : Unfilled more.tokens) (hm : Legible table more) :
      Legible table (.bare opening name closing more)
  | filled {opening name closing left right : Token} {content more : Writing} (ho : Opens opening)
      (hn : Names table name closing) (hg : OpensGroup left) (hc : Legible table content)
      (hb : Balanced content.plain) (hr : right.value = ")") (hl : right.endsLine = false)
      (hm : Legible table more) :
      Legible table (.filled opening name closing left content right more)

/-! ### The readers without their bounds -/

theorem instantiate_eq (m : Define) (given : List Token) (pos : Position) :
    m.instantiate given pos = replaced (if given = [] then m.fallback else given) pos m.body := by
  unfold instantiate
  dsimp only
  induction m.body with
  | nil => rfl
  | cons t body ih =>
    rw [List.flatMap_cons, ih, replaced]
    split <;> rfl

/-- What an invocation expands to, and what follows it. -/
def read (table : Defines) (t : Token) (rest : List Token) : Except Failure (List Token × List Token) :=
  (expand table t rest).map fun e => (e.tokens, e.rest)

/-- An argument with its invocations expanded, and what follows it. -/
def gather (table : Defines) (depth : Nat) (input : List Token) :
    Except Failure (List Token × List Token) :=
  (argument table depth input).map fun e => (e.tokens, e.rest)

variable {table : Defines} {t name closing left right : Token} {rest after : List Token}
  {r : List Token × List Token}

theorem substituted_eq {m : Define} (hm : table.named? name.lower = some m) (given : List Token) :
    substituted table name given = m.instantiate given name.pos := by
  rw [substituted, hm, instantiate_eq]

theorem read_holding (ht : t.value = "[") (hn : Names table name closing) :
    Bracketed.read "[" "]" t (name :: closing :: after) = .ok (.holding name closing after) := by
  have hne : name.value ≠ "]" := fun h => absurd (h ▸ hn.invocable) (by decide)
  simp only [Bracketed.read, List.headD_cons, List.tail_cons, List.drop_succ_cons, List.drop_zero]
  rw [if_neg (not_not.2 ht), if_neg hne, if_neg (not_not.2 hn.closed)]

theorem read_bare (ht : t.value = "[") (hn : Names table name closing) (hu : Unfilled after) :
    read table t (name :: closing :: after) = .ok (substituted table name [], after) := by
  obtain ⟨m, hm⟩ := Option.isSome_iff_exists.1 hn.known
  rw [read, expand, read_holding ht hn]
  simp only [hn.invocable, Bool.not_true, Bool.false_eq_true, if_false, hm, substituted_eq hm]
  split
  · rename_i hd
    obtain rfl : after = [] := by simpa using hd
    rfl
  · rename_i p more hd
    obtain rfl : after = p :: more := by simpa using hd
    have hp : ¬(p.kind = .symbol ∧ p.value = "(") := hu p rfl
    rw [if_neg hp]
    rfl

theorem read_filled (ht : t.value = "[") (hn : Names table name closing) (hg : OpensGroup left) :
    read table t (name :: closing :: left :: after) =
      (gather table 1 after).map fun r => (substituted table name r.1, r.2) := by
  obtain ⟨m, hm⟩ := Option.isSome_iff_exists.1 hn.known
  have hp : left.kind = .symbol ∧ left.value = "(" := hg
  rw [read, expand, read_holding ht hn, gather]
  simp only [hn.invocable, Bool.not_true, Bool.false_eq_true, if_false, hm, substituted_eq hm]
  split
  · rename_i hd
    simp at hd
  · rename_i p more hd
    obtain ⟨rfl, rfl⟩ : left = p ∧ after = more := by simpa using hd
    rw [if_pos hp]
    cases argument table 1 after <;> rfl

theorem names_of_read (h : read table t rest = .ok r) : ∃ name closing after,
    rest = name :: closing :: after ∧ Names table name closing := by
  obtain ⟨e, he, rfl⟩ := Outcome.map_eq_ok_iff.1 h
  unfold expand at he
  split at he
  · cases he
  · cases he
  · rename_i name closing after hb
    obtain ⟨hrest, hclosed⟩ := Bracketed.holding_eq (by decide) hb
    split at he
    · cases he
    · rename_i hname
      split at he
      · cases he
      · rename_i m hm
        exact ⟨name, closing, after, hrest, by simpa using hname, by rw [hm]; rfl, hclosed⟩

theorem gather_nil {depth : Nat} : gather table depth [] = .error .exhausted := by
  rw [gather, argument]
  rfl

theorem gather_cons {depth : Nat} (hl : t.endsLine = false) (ht : ¬Opens t) :
    gather table depth (t :: rest) =
      if t.value = ")" ∧ depth = 1 then .ok ([], rest)
      else (gather table
        (if t.value = "(" then depth + 1 else if t.value = ")" then depth - 1 else depth) rest).map
          fun r => (t :: r.1, r.2) := by
  have ho : ¬(t.kind = .mark ∧ t.value = "[") := ht
  rw [gather, argument, if_neg (by simp [hl]), if_neg ho]
  split
  · rfl
  · dsimp only
    rw [gather]
    cases argument table _ rest <;> rfl

theorem gather_opens {depth : Nat} (ht : Opens t) :
    gather table depth (t :: rest) = (read table t rest).bind fun inner =>
      (gather table depth inner.2).map fun r => (inner.1 ++ r.1, r.2) := by
  have hl : t.endsLine = false := by simp [Token.endsLine, ht.1]
  have ho : t.kind = .mark ∧ t.value = "[" := ht
  rw [gather, argument, if_neg (by simp [hl]), if_pos ho, read]
  cases expand table t rest with
  | error e => rfl
  | ok inner =>
    simp only [Except.map, Except.bind, gather]
    cases argument table depth inner.rest <;> rfl

theorem gather_endsLine {depth : Nat} (hl : t.endsLine = true) :
    gather table depth (t :: rest) = .error (t.failure (.missing ")")) := by
  rw [gather, argument, if_pos hl]
  rfl

/-- Reading an invocation takes its name, and its argument if one follows. -/
theorem read_eq_ok_iff (ht : t.value = "[") : read table t rest = .ok r ↔
    (∃ name closing, rest = name :: closing :: r.2 ∧ Names table name closing ∧ Unfilled r.2 ∧
      r.1 = substituted table name []) ∨
    ∃ name closing left after given, rest = name :: closing :: left :: after ∧
      Names table name closing ∧ OpensGroup left ∧ gather table 1 after = .ok (given, r.2) ∧
      r.1 = substituted table name given := by
  constructor
  · intro h
    obtain ⟨name, closing, after, rfl, hn⟩ := names_of_read h
    by_cases hu : Unfilled after
    · rw [read_bare ht hn hu] at h
      cases h
      exact .inl ⟨name, closing, rfl, hn, hu, rfl⟩
    · obtain ⟨left, more, rfl, hg⟩ : ∃ left more, after = left :: more ∧ OpensGroup left := by
        cases after with
        | nil => exact absurd (by simp [Unfilled]) hu
        | cons left more => exact ⟨left, more, rfl, by simpa [Unfilled] using hu⟩
      rw [read_filled ht hn hg] at h
      obtain ⟨given, hgiven, rfl⟩ := Outcome.map_eq_ok_iff.1 h
      exact .inr ⟨name, closing, left, more, given.1, rfl, hn, hg, hgiven, rfl⟩
  · rintro (⟨name, closing, rfl, hn, hu, hr⟩ | ⟨name, closing, left, after, given, rfl, hn, hg, hgiven, hr⟩)
    · rw [read_bare ht hn hu, ← hr]
    · rw [read_filled ht hn hg, hgiven, Except.map, ← hr]

/-! ### Parentheses -/

/-- Whether the parenthesis behind `l` is the first that closes all of `depth` open ones. -/
def Closes (depth : Nat) (l : List Token) : Prop :=
  (∀ read, read <+: l → closings read < depth + openings read) ∧ depth + openings l = closings l + 1

theorem closes_one (l : List Token) : Closes 1 l ↔ Balanced l := by
  unfold Closes Balanced
  constructor
  · rintro ⟨hread, hl⟩
    exact ⟨fun read h => by have := hread read h; omega, by omega⟩
  · rintro ⟨hread, hl⟩
    exact ⟨fun read h => by have := hread read h; omega, by omega⟩

theorem parenthesis_cases (t : Token) (depth : Nat) : ∃ o c, (∀ l, openings (t :: l) = openings l + o) ∧
    (∀ l, closings (t :: l) = closings l + c) ∧
    (if t.value = "(" then depth + 1 else if t.value = ")" then depth - 1 else depth) = depth + o - c ∧
    (c = 0 ∧ t.value ≠ ")" ∨ c = 1 ∧ o = 0 ∧ t.value = ")") := by
  have hopen : ∀ l, openings (t :: l) = openings l + if t.value = "(" then 1 else 0 := fun l => by
    simp only [openings, List.countP_cons, decide_eq_true_eq]
  have hclose : ∀ l, closings (t :: l) = closings l + if t.value = ")" then 1 else 0 := fun l => by
    simp only [closings, List.countP_cons, decide_eq_true_eq]
  refine ⟨_, _, hopen, hclose, ?_⟩
  by_cases ho : t.value = "("
  · have hc : t.value ≠ ")" := fun hc => absurd (ho.symm.trans hc) (by decide)
    rw [if_pos ho, if_pos ho, if_neg hc]
    exact ⟨rfl, .inl ⟨rfl, hc⟩⟩
  · rw [if_neg ho, if_neg ho]
    by_cases hc : t.value = ")"
    · rw [if_pos hc, if_pos hc]
      exact ⟨rfl, .inr ⟨rfl, rfl, hc⟩⟩
    · rw [if_neg hc, if_neg hc]
      exact ⟨rfl, .inl ⟨rfl, hc⟩⟩

theorem closes_cons {depth : Nat} {l : List Token} (hd : 0 < depth) :
    Closes depth (t :: l) ↔ ¬(t.value = ")" ∧ depth = 1) ∧
      Closes (if t.value = "(" then depth + 1 else if t.value = ")" then depth - 1 else depth) l := by
  obtain ⟨o, c, ho, hc, hdepth, hcases⟩ := parenthesis_cases t depth
  have hnil : openings [] = 0 ∧ closings [] = 0 := ⟨rfl, rfl⟩
  unfold Closes
  rw [hdepth, ho, hc]
  constructor
  · rintro ⟨hread, hl⟩
    have hfirst := hread [t] (by simp)
    rw [ho, hc] at hfirst
    refine ⟨?_, fun read h => ?_, by omega⟩
    · rintro ⟨hv, rfl⟩
      rcases hcases with ⟨-, hne⟩ | ⟨rfl, rfl, -⟩
      · exact hne hv
      · omega
    · have hmore := hread (t :: read) ((List.prefix_cons_inj t).2 h)
      rw [ho, hc] at hmore
      omega
  · rintro ⟨hgo, hread, hl⟩
    have hdeep : c = 0 ∨ 2 ≤ depth := by
      rcases hcases with ⟨rfl, -⟩ | ⟨-, -, hv⟩
      · exact .inl rfl
      · have : depth ≠ 1 := fun h => hgo ⟨hv, h⟩
        omega
    refine ⟨fun read h => ?_, by omega⟩
    rcases List.prefix_cons_iff.1 h with rfl | ⟨more, rfl, hmore⟩
    · omega
    · have hmore := hread more hmore
      rw [ho, hc]
      omega

theorem depth_pos {depth : Nat} (hd : 0 < depth) (hgo : ¬(t.value = ")" ∧ depth = 1)) :
    0 < if t.value = "(" then depth + 1 else if t.value = ")" then depth - 1 else depth := by
  split_ifs with ho hc
  · omega
  · have : depth ≠ 1 := fun h => hgo ⟨hc, h⟩
    omega
  · exact hd

/-! ### Reading is the inverse of writing -/

theorem legible_of_gather {n depth : Nat} {input : List Token} (hn : input.length ≤ n) (hd : 0 < depth)
    (h : gather table depth input = .ok r) : ∃ (content : Writing) (right : Token),
      content.Legible table ∧
      input = content.tokens ++ right :: r.2 ∧ right.value = ")" ∧ right.endsLine = false ∧
      Closes depth content.plain ∧ r.1 = content.expanded table := by
  induction n generalizing depth input r with
  | zero =>
    rw [List.length_eq_zero_iff.1 (Nat.le_zero.1 hn), gather_nil] at h
    cases h
  | succ n ih =>
    cases input with
    | nil =>
      rw [gather_nil] at h
      cases h
    | cons t rest =>
      have hlen : rest.length ≤ n := by simpa using hn
      by_cases hl : t.endsLine = true
      · rw [gather_endsLine hl] at h
        cases h
      rw [Bool.not_eq_true] at hl
      by_cases ht : Opens t
      · rw [gather_opens ht] at h
        obtain ⟨inner, hread, h⟩ := Outcome.bind_eq_ok_iff.1 h
        obtain ⟨more, hmore, rfl⟩ := Outcome.map_eq_ok_iff.1 h
        rcases (read_eq_ok_iff ht.2).1 hread with ⟨name, closing, rfl, hnames, hu, hinner⟩ |
          ⟨name, closing, left, after, given, rfl, hnames, hg, hgiven, hinner⟩
        · have hshort : inner.2.length ≤ n := by
            simp only [List.length_cons] at hlen
            omega
          obtain ⟨content, right, hcontent, hinput, hv, hline, hcloses, hexp⟩ := ih hshort hd hmore
          refine ⟨.bare t name closing content, right, .bare ht hnames ?_ hcontent, ?_, hv, hline,
            hcloses, ?_⟩
          · intro u hu'
            refine hu u ?_
            rw [hinput, List.head?_append, Option.mem_def.1 hu']
            rfl
          · rw [hinput]
            rfl
          · rw [hinner, hexp]
            rfl
        · have hshort : after.length ≤ n := by
            simp only [List.length_cons] at hlen
            omega
          obtain ⟨inside, close, hinside, rfl, hcv, hcl, hbalanced, rfl⟩ := ih hshort Nat.one_pos hgiven
          have hshort' : inner.2.length ≤ n := by
            simp only [List.length_cons, List.length_append] at hlen
            omega
          obtain ⟨content, right, hcontent, hinput, hv, hline, hcloses, hexp⟩ := ih hshort' hd hmore
          refine ⟨.filled t name closing left inside close content, right,
            .filled ht hnames hg hinside ((closes_one _).1 hbalanced) hcv hcl hcontent, ?_, hv, hline,
            hcloses, ?_⟩
          · rw [hinput]
            simp [Writing.tokens]
          · rw [hinner, hexp]
            rfl
      · rw [gather_cons hl ht] at h
        split at h
        · rename_i hclose
          cases h
          obtain ⟨hv, rfl⟩ := hclose
          exact ⟨.done, t, .done, rfl, hv, hl, (closes_one _).2 ⟨by simp [Writing.plain, closings], rfl⟩, rfl⟩
        · rename_i hclose
          obtain ⟨more, hmore, rfl⟩ := Outcome.map_eq_ok_iff.1 h
          obtain ⟨content, right, hcontent, hinput, hv, hline, hcloses, hexp⟩ :=
            ih hlen (depth_pos hd hclose) hmore
          refine ⟨.token t content, right, .token ht hl hcontent, ?_, hv, hline, ?_, ?_⟩
          · rw [hinput]
            rfl
          · exact (closes_cons hd).2 ⟨hclose, hcloses⟩
          · rw [hexp]
            rfl

theorem gather_of_legible {w : Writing} (hw : w.Legible table) {depth : Nat} (hd : 0 < depth)
    (hc : Closes depth w.plain) (hv : right.value = ")") (hl : right.endsLine = false)
    (left : List Token) :
    gather table depth (w.tokens ++ right :: left) = .ok (w.expanded table, left) := by
  induction hw generalizing depth right left with
  | done =>
    have hdepth : depth = 1 := by
      have := hc.2
      simp only [Writing.plain, openings, closings, List.countP_nil] at this
      omega
    have ho : ¬Opens right := fun h => absurd (h.2.symm.trans hv) (by decide)
    rw [Writing.tokens, List.nil_append, gather_cons hl ho, if_pos ⟨hv, hdepth⟩]
    rfl
  | token ht hline hm ih =>
    obtain ⟨hgo, hrest⟩ := (closes_cons hd).1 hc
    rw [Writing.tokens, List.cons_append, gather_cons hline ht, if_neg hgo,
      ih (depth_pos hd hgo) hrest hv hl]
    rfl
  | @bare opening name closing more ho hn hu hm ih =>
    have hu' : Unfilled (more.tokens ++ right :: left) := by
      intro u hu'
      cases hmore : more.tokens with
      | nil =>
        rw [hmore, List.nil_append, List.head?_cons, Option.mem_some_iff] at hu'
        exact fun hg => absurd (hv.symm.trans (hu' ▸ hg.2)) (by decide)
      | cons v rest =>
        rw [hmore] at hu' hu
        exact hu u hu'
    rw [Writing.tokens, List.cons_append, List.cons_append, List.cons_append, gather_opens ho,
      read_bare ho.2 hn hu', Except.bind, ih hd hc hv hl]
    rfl
  | @filled opening name closing left' right' content more ho hn hg hcontent hb hr hl' hm ihc ih =>
    rw [Writing.tokens, List.cons_append, List.cons_append, List.cons_append, List.cons_append,
      List.append_assoc, List.cons_append, gather_opens ho, read_filled ho.2 hn hg,
      ihc Nat.one_pos ((closes_one _).2 hb) hr hl', Except.map, Except.bind, ih hd hc hv hl]
    rfl

theorem read_eq_ok_iff_legible (ht : Opens t) : read table t rest = .ok r ↔
    ∃ w : Writing, w.Single ∧ w.Legible table ∧ t :: rest = w.tokens ++ r.2 ∧ w.Stops r.2 ∧
      r.1 = w.expanded table := by
  rw [read_eq_ok_iff ht.2]
  constructor
  · rintro (⟨name, closing, rfl, hn, hu, hr⟩ | ⟨name, closing, left, after, given, rfl, hn, hg, hgiven, hr⟩)
    · have hw : Writing.Legible table (.bare t name closing .done) :=
        .bare ht hn (by simp [Unfilled, Writing.tokens]) .done
      refine ⟨_, .bare t name closing, hw, rfl, hu, ?_⟩
      rw [hr, Writing.expanded, Writing.expanded, List.append_nil]
    · obtain ⟨content, right, hcontent, rfl, hv, hl, hcloses, rfl⟩ :=
        legible_of_gather (Nat.le_refl _) Nat.one_pos hgiven
      have hw : Writing.Legible table (.filled t name closing left content right .done) :=
        .filled ht hn hg hcontent ((closes_one _).1 hcloses) hv hl .done
      refine ⟨_, .filled t name closing left content right, hw, by simp [Writing.tokens], trivial, ?_⟩
      rw [hr, Writing.expanded, Writing.expanded, List.append_nil]
  · rintro ⟨w, hsingle, hw, htokens, hstops, hr⟩
    cases hsingle with
    | bare opening name closing =>
      cases hw with | bare ho hn _ _ =>
      simp only [Writing.tokens, List.cons_append, List.nil_append, List.cons.injEq] at htokens
      refine .inl ⟨_, _, htokens.2, hn, hstops, ?_⟩
      rw [hr, Writing.expanded, Writing.expanded, List.append_nil]
    | filled opening name closing left content right =>
      cases hw with | filled ho hn hg hc hb hv hl _ =>
      simp only [Writing.tokens, List.cons_append, List.append_assoc, List.nil_append,
        List.cons.injEq] at htokens
      obtain ⟨rfl, rfl⟩ := htokens
      refine .inr ⟨_, _, _, _, _, rfl, hn, hg,
        gather_of_legible hc Nat.one_pos ((closes_one _).2 hb) hv hl r.2, ?_⟩
      rw [hr, Writing.expanded, Writing.expanded, List.append_nil]

end ClassicBasic.Define

namespace ClassicBasic.Directive
open Define

theorem step_opens {d : Dialect} {tables : Tables} {out rest : List Token} {t : Token} (ht : Opens t) :
    step d tables out t rest = (read tables.defines t rest).map fun r =>
      ⟨tables, r.1.reverse ++ out, r.2⟩ := by
  have ho : t.kind = .mark ∧ t.value = "[" := ht
  rw [step, if_neg (by simp [ht.1]), if_neg (by simp [ht.1]), if_pos ho]
  unfold Define.read
  cases expand tables.defines t rest <;> rfl

/-- Where an invocation starts, the first stage takes the invocation and no more, puts out what it
expands to, and leaves the tables as they are. -/
theorem step_invocation_iff {d : Dialect} {tables : Tables} {out rest : List Token} {t : Token}
    {p : Progress} (ht : Opens t) :
    step d tables out t rest = .ok p ↔
      ∃ w : Writing, w.Single ∧ w.Legible tables.defines ∧ t :: rest = w.tokens ++ p.rest ∧
        w.Stops p.rest ∧ p.out = (w.expanded tables.defines).reverse ++ out ∧ p.tables = tables := by
  rw [step_opens ht, Outcome.map_eq_ok_iff]
  constructor
  · rintro ⟨r, hr, rfl⟩
    obtain ⟨w, hsingle, hw, htokens, hstops, hexpanded⟩ := (read_eq_ok_iff_legible ht).1 hr
    exact ⟨w, hsingle, hw, htokens, hstops, by rw [hexpanded], rfl⟩
  · obtain ⟨tables', out', left⟩ := p
    rintro ⟨w, hsingle, hw, htokens, hstops, rfl, htables⟩
    obtain rfl : tables' = tables := htables
    exact ⟨(w.expanded tables'.defines, left),
      (read_eq_ok_iff_legible ht).2 ⟨w, hsingle, hw, htokens, hstops, rfl⟩, rfl⟩

/-- The define `a` is `1` and a slot with the default `7`; it is invoked on itself in parentheses. -/
theorem step_nested_invocation :
    Opens ⟨.mark, "[", {}⟩ ∧
    ∃ p, step .msx { defines := [⟨"a", [⟨.number, "1", {}⟩, ⟨.slot, "VAR", {}⟩], [⟨.number, "7", {}⟩]⟩] } []
        ⟨.mark, "[", {}⟩ [⟨.identifier, "a", { col := 2 }⟩, ⟨.mark, "]", {}⟩, ⟨.symbol, "(", {}⟩,
          ⟨.symbol, "(", {}⟩, ⟨.mark, "[", {}⟩, ⟨.identifier, "a", { col := 5 }⟩, ⟨.mark, "]", {}⟩,
          ⟨.symbol, ")", {}⟩, ⟨.symbol, ")", {}⟩, ⟨.newline, "\r", {}⟩, ⟨.eof, "EOF", {}⟩] = .ok p ∧
      p.out.reverse = [⟨.number, "1", { col := 2 }⟩, ⟨.symbol, "(", {}⟩, ⟨.number, "1", { col := 5 }⟩,
        ⟨.number, "7", {}⟩, ⟨.symbol, ")", {}⟩] ∧
      p.rest = [⟨.newline, "\r", {}⟩, ⟨.eof, "EOF", {}⟩] := by
  refine ⟨⟨rfl, rfl⟩, ⟨_, _, _⟩, (step_invocation_iff ⟨rfl, rfl⟩).2 ⟨.filled ⟨.mark, "[", {}⟩
    ⟨.identifier, "a", { col := 2 }⟩ ⟨.mark, "]", {}⟩ ⟨.symbol, "(", {}⟩
    (.token ⟨.symbol, "(", {}⟩ (.bare ⟨.mark, "[", {}⟩ ⟨.identifier, "a", { col := 5 }⟩ ⟨.mark, "]", {}⟩
      (.token ⟨.symbol, ")", {}⟩ .done))) ⟨.symbol, ")", {}⟩ .done, .filled .., ?_, rfl, trivial, rfl, rfl⟩,
    rfl, rfl⟩
  have hname : ∀ pos pos', Names [⟨"a", [⟨.number, "1", {}⟩, ⟨.slot, "VAR", {}⟩], [⟨.number, "7", {}⟩]⟩]
      ⟨.identifier, "a", pos⟩ ⟨.mark, "]", pos'⟩ := fun _ _ => ⟨rfl, rfl, rfl⟩
  have hsymbol : ∀ value pos, ¬Opens ⟨.symbol, value, pos⟩ := fun _ _ h => by cases h.1
  refine .filled ⟨rfl, rfl⟩ (hname _ _) ⟨rfl, rfl⟩ (.token (hsymbol _ _) rfl (.bare ⟨rfl, rfl⟩ (hname _ _) ?_
    (.token (hsymbol _ _) rfl .done))) ⟨fun read h => ?_, by decide⟩ rfl rfl .done
  · rintro t ht ⟨-, hv⟩
    obtain rfl : _ = t := by simpa [Writing.tokens] using ht
    exact absurd hv (by decide)
  · rcases List.prefix_cons_iff.1 h with rfl | ⟨more, rfl, hmore⟩
    · decide
    · rcases List.prefix_cons_iff.1 (show more <+: [⟨.symbol, ")", {}⟩] from hmore) with rfl | ⟨last, rfl, hlast⟩
      · decide
      · rw [List.prefix_nil.1 hlast]
        decide

end ClassicBasic.Directive
