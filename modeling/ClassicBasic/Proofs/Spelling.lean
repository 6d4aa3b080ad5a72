import ClassicBasic.Proofs.Reading
import ClassicBasic.Proofs.ShortNames

/-!
# Texts spelled out

The lexer on characters at their places. A token that the grammar accepts from its first character on
is read to its end when the grammar accepts it no further; blanks, quotes, brackets and punctuation
end every token.
-/

set_option autoImplicit false

namespace ClassicBasic

namespace Grammar

/-- Characters that stand in no token of more characters, and the end mark. -/
def boundaries : Text :=
  [' ', '\t', '\r', '"', '\x7b', '\x7d', '(', ')', ',', ':', ';']

/-- Whether no longer text with one of the signs in it has the shape, unless it is a name. -/
def isClear (signs : Text) : Shape → Bool
  | .lineEnds | .blank => true
  | .words plain numbered =>
    plain.all (fun w => w.length == 1 || signs.all fun b => !(Text.fold w).contains b) &&
      numbered.all fun w => signs.all fun b => !(Text.fold w).contains b
  | .name lead _ => signs.all fun b => !lead.contains b
  | .number form | .baseMark form =>
    signs.all fun b => !isNumeralSign form b && !isOneOf (form.bases.map Prod.fst) b &&
      form.bases.all fun base => !isOneOf [base.1] b && !isOneOf base.2 b

theorem grammar_isClear (d : Dialect) :
    ∀ r ∈ d.grammar, isClear boundaries r.shape = true ∧ isClear ['_'] r.shape = true := by
  rw [Dialect.grammar_spelled]
  cases d <;> decide +kernel

/-- A sign that folds to itself and means nothing in a numeral but its place in a table. -/
structure IsSign (c : Char) : Prop where
  fold : Text.foldChar c = c
  digit : c.isDigit = false
  base : c ≠ '&'

theorem boundaries_signs : boundaries.all (fun b => Text.foldChar b == b && !b.isDigit && b != '&' &&
    !isNameChar b && !isTypeSigil b) = true := by decide

variable {d : Dialect} {v w : Text} {c : Char} {k : Kind}

theorem boundary_signs (h : c ∈ boundaries) :
    IsSign c ∧ isNameChar c = false ∧ isTypeSigil c = false := by
  have hall := List.all_eq_true.1 boundaries_signs c h
  simp only [Bool.and_eq_true, beq_iff_eq, bne_iff_ne, Bool.not_eq_true'] at hall
  obtain ⟨⟨⟨⟨hfold, hdigit⟩, hamp⟩, hname⟩, hsigil⟩ := hall
  exact ⟨⟨hfold, hdigit, hamp⟩, hname, hsigil⟩

theorem mem_fold_of_sameLetters (h : Text.sameLetters w v = true) (hc : c ∈ v)
    (hfold : Text.foldChar c = c) : c ∈ Text.fold w := by
  rw [Text.sameLetters_eq, beq_iff_eq] at h
  rw [h, ← hfold]
  exact List.mem_map_of_mem hc

theorem length_of_sameLetters (h : Text.sameLetters w v = true) : v.length = w.length := by
  rw [Text.sameLetters_eq, beq_iff_eq] at h
  simpa [Text.fold] using (congrArg List.length h).symm

theorem isBased_chars {form : NumberForm} (h : isBased form v = true) (hc : c ∈ v) :
    c = '&' ∨ ∃ base ∈ form.bases, isOneOf [base.1] c = true ∨ isOneOf base.2 c = true := by
  unfold isBased at h
  split at h
  · simp only [Bool.and_eq_true, List.any_eq_true, List.all_eq_true] at h
    obtain ⟨-, base, hb, hlead, hdigits⟩ := h
    rcases List.mem_cons.1 hc with rfl | hc
    · exact .inl rfl
    · rcases List.mem_cons.1 hc with rfl | hc
      · exact .inr ⟨base, hb, .inl hlead⟩
      · exact .inr ⟨base, hb, .inr (hdigits c hc)⟩
  · cases h

theorem not_accepts_numbered (hs : IsSign c) (hw : c ∉ Text.fold w) (hc : c ∈ v) :
    isNumbered w v = false := by
  have hnone {t : Text} (ht : c ∈ t) : Text.sameLetters w t = false :=
    Bool.eq_false_iff.2 fun hsame => hw (mem_fold_of_sameLetters hsame ht hs.fold)
  unfold isNumbered
  rw [hnone hc, Bool.false_or]
  split
  · rename_i x hx
    by_cases hlast : c ∈ v.dropLast
    · rw [hnone hlast, Bool.and_false]
    · -- the sign itself would be the digit
      obtain ⟨front, rfl⟩ := List.getLast?_eq_some_iff.1 hx
      have : c = x := by
        rw [List.dropLast_concat] at hlast
        simpa [hlast] using hc
      rw [← this, hs.digit, Bool.false_and]
  · rfl

/-- A longer text with a sign in it is made of line ends or a name. -/
theorem accepts_sign {signs : Text} {s : Shape} (hs : isClear signs s = true)
    (h : s.accepts v = true) (hc : c ∈ v) (hb : c ∈ signs) (hsign : IsSign c) :
    v.length = 1 ∨ s = .lineEnds ∨ ∃ lead typed rest, s = .name lead typed ∧ v = lead ++ rest ∧
      isName typed rest = true ∧ c ∈ rest := by
  cases s with
  | lineEnds => exact .inr (.inl rfl)
  | blank =>
    simp only [Shape.accepts] at h
    split at h
    · exact .inl rfl
    · cases h
  | words plain numbered =>
    simp only [isClear, Bool.and_eq_true, List.all_eq_true, Bool.or_eq_true, beq_iff_eq,
      Bool.not_eq_true', List.contains_eq_mem, decide_eq_false_iff_not] at hs
    simp only [Shape.accepts, Bool.or_eq_true, List.any_eq_true] at h
    rcases h with ⟨w, hw, hsame⟩ | ⟨w, hw, hsame⟩
    · rcases hs.1 w hw with hlen | hnone
      · exact .inl ((length_of_sameLetters hsame).trans hlen)
      · exact absurd (mem_fold_of_sameLetters hsame hc hsign.fold) (hnone c hb)
    · rw [not_accepts_numbered hsign (hs.2 w hw c hb) hc] at hsame
      cases hsame
  | name lead typed =>
    simp only [isClear, List.all_eq_true, Bool.not_eq_true', List.contains_eq_mem,
      decide_eq_false_iff_not] at hs
    simp only [Shape.accepts, after] at h
    split at h
    · rename_i rest hrest
      split at hrest
      · rename_i hlead
        cases hrest
        obtain ⟨rest, rfl⟩ := List.isPrefixOf_iff_prefix.1 hlead
        rw [List.drop_left] at h
        refine .inr (.inr ⟨lead, typed, rest, rfl, rfl, h, ?_⟩)
        exact (List.mem_append.1 hc).resolve_left (hs c hb)
      · cases hrest
    · cases h
  | number form =>
    simp only [isClear, List.all_eq_true, Bool.and_eq_true, Bool.not_eq_true'] at hs
    rw [Shape.accepts, Bool.or_eq_true] at h
    rcases h with h | h
    · have hnumeral := isDecimal_signs h c hc
      rw [(hs c hb).1.1] at hnumeral
      cases hnumeral
    · rcases isBased_chars h hc with rfl | ⟨base, hbase, hone | hone⟩
      · exact absurd rfl hsign.base
      · rw [((hs c hb).2 base hbase).1] at hone
        cases hone
      · rw [((hs c hb).2 base hbase).2] at hone
        cases hone
  | baseMark form =>
    simp only [isClear, List.all_eq_true, Bool.and_eq_true, Bool.not_eq_true'] at hs
    rcases isBaseMark_cases h with rfl | ⟨x, rfl, hx⟩
    · exact .inl rfl
    · rcases List.mem_cons.1 hc with rfl | hc
      · exact absurd rfl hsign.base
      · obtain rfl := List.mem_singleton.1 hc
        rw [(hs c hb).1.2] at hx
        cases hx

/-- A boundary is a token of its own, and the end mark joins with its like. -/
theorem accepts_boundary {s : Shape} (hs : isClear boundaries s = true) (h : s.accepts v = true)
    (hc : c ∈ v) (hb : c ∈ boundaries) : v.length = 1 ∨ s = .lineEnds := by
  obtain ⟨hsign, hname, hsigil⟩ := boundary_signs hb
  rcases accepts_sign hs h hc hb hsign with hone | hends | ⟨lead, typed, rest, rfl, rfl, hrest, hc⟩
  · exact .inl hone
  · exact .inr hends
  · rcases isName_chars hrest c hc with hn | hn
    · rw [hname] at hn
      cases hn
    · rw [hsigil] at hn
      cases hn

end Grammar

namespace Dialect

open Grammar (boundaries)

variable {d : Dialect} {v w : Text} {c x : Char} {k : Kind}

theorem classify_boundary (hb : c ∈ boundaries) (hc : c ∈ v) (hl : v.length ≠ 1)
    (hr : ∃ x ∈ v, x ≠ '\r') : d.classify v = none := by
  rw [Option.eq_none_iff_forall_ne_some]
  intro k h
  obtain ⟨r, hmem, -, ha⟩ := classify_rule h
  rcases Grammar.accepts_boundary (Grammar.grammar_isClear d r hmem).1 ha hc hb with hone | hends
  · exact hl hone
  · obtain ⟨x, hx, hne⟩ := hr
    rw [hends] at ha
    simp only [Shape.accepts, Bool.and_eq_true, List.all_eq_true, beq_iff_eq] at ha
    exact hne (ha.2 x hx)

theorem classify_append_boundary (hb : c ∈ boundaries) (hr : ∃ x ∈ v, x ≠ '\r') :
    d.classify (v ++ [c]) = none := by
  obtain ⟨x, hx, hne⟩ := hr
  refine classify_boundary hb (by simp) ?_ ⟨x, by simp [hx], hne⟩
  have := List.length_pos_of_mem hx
  rw [List.length_append, List.length_singleton]
  omega

theorem classify_boundary_append (hb : c ∈ boundaries) (hr : c ≠ '\r') (x : Char) :
    d.classify [c, x] = none :=
  classify_boundary hb (by simp) (by simp) ⟨c, by simp, hr⟩

theorem classify_boundaries (d : Dialect) : d.classify [' '] = some .spaces ∧
    d.classify ['\t'] = some .spaces ∧ d.classify ['"'] = some .quote ∧
    d.classify Label.opening = some .mark ∧ d.classify Label.closing = some .mark ∧
    d.classify Label.sameLine = some .mark :=
  ⟨classify_sign (by decide), classify_sign (by decide), classify_sign (by decide),
    classify_sign (by decide), classify_sign (by decide), classify_sign (by decide)⟩

theorem classify_returns (hv : v ≠ []) (h : ∀ c ∈ v, c = '\r') : d.classify v = some .newline := by
  have ha : Shape.accepts .lineEnds v = true := by simpa [Shape.accepts] using ⟨hv, h⟩
  simp only [classify, grammar, dignifiedRules, List.cons_append, List.find?_cons, ha, Option.map_some]

theorem exists_ne_return (h : d.classify v = some k) (hk : k ≠ .newline) (hv : v ≠ []) :
    ∃ x ∈ v, x ≠ '\r' := by
  by_contra hall
  push Not at hall
  exact hk (Option.some.inj (h.symm.trans (classify_returns hv hall)))

/-- Whether the lexer reads a text from its first character on to its last as it grows. -/
def Whole (d : Dialect) (w : Text) : Prop :=
  ∀ n < w.length, (d.classify (w.take (n + 1))).isSome = true

end Dialect

/-- Whether characters at their places spell a text inside a line of the file. -/
structure Spells (file : Text) (gs : List Glyph) (t : Text) : Prop where
  chars : gs.map Glyph.char = t
  inside : ∀ g ∈ gs, g.ends = false
  files : ∀ g ∈ gs, g.pos.file = file

namespace Spells

variable {file t u : Text} {c : Char} {gs : List Glyph}

theorem split (h : Spells file gs (t ++ u)) :
    ∃ front back, gs = front ++ back ∧ Spells file front t ∧ Spells file back u := by
  obtain ⟨front, back, rfl, hf, hb⟩ := List.map_eq_append_iff.1 h.chars
  have hin := List.forall_mem_append.1 h.inside
  have hfile := List.forall_mem_append.1 h.files
  exact ⟨front, back, rfl, ⟨hf, hin.1, hfile.1⟩, ⟨hb, hin.2, hfile.2⟩⟩

theorem cons (h : Spells file gs (c :: t)) :
    ∃ g back, gs = g :: back ∧ g.char = c ∧ g.pos.file = file ∧ Spells file back t := by
  obtain ⟨g, back, rfl, hc, hb⟩ := List.map_eq_cons_iff.1 h.chars
  have hin := List.forall_mem_cons.1 h.inside
  have hfile := List.forall_mem_cons.1 h.files
  exact ⟨g, back, rfl, hc, hfile.1, ⟨hb, hin.2, hfile.2⟩⟩

theorem nil (h : Spells file gs []) : gs = [] := List.map_eq_nil_iff.1 h.chars

end Spells

namespace Lexer

variable {d : Dialect} {closing : Nat} {last : Kind} {file : Text} {k : Kind} {g next : Glyph}
  {gs rest left : List Glyph} {t u w : Text}

/-- The longest token takes what the grammar accepts on the way, up to where it accepts no more. -/
theorem munch_spelled {kind : Kind} (hgs : gs.map Glyph.char = u)
    (hw : ∀ n < u.length, (d.classify (t ++ u.take (n + 1))).isSome = true)
    (ht : d.classify t = some kind) (hk : d.classify (t ++ u) = some k)
    (hn : d.classify (t ++ u ++ [next.char]) = none) :
    munch Glyph.char d t kind (gs ++ next :: rest) = (t ++ u, k, next :: rest) := by
  induction gs generalizing t u kind with
  | nil =>
    obtain rfl : [] = u := hgs
    rw [List.append_nil] at hk hn ⊢
    obtain rfl := Option.some.inj (ht.symm.trans hk)
    simp only [List.nil_append, munch, hn]
  | cons g gs ih =>
    obtain ⟨c, u, rfl⟩ : ∃ c u', u = c :: u' := ⟨_, _, hgs.symm⟩
    obtain ⟨hc, hgs⟩ := List.cons.inj hgs
    obtain ⟨kind', hkind⟩ := Option.isSome_iff_exists.1 (hw 0 (by simp))
    simp only [List.take_succ_cons, List.take_zero] at hkind
    have hmore : ∀ n < u.length, (d.classify (t ++ [c] ++ u.take (n + 1))).isSome = true := by
      intro n hlt
      have := hw (n + 1) (by simpa using hlt)
      rwa [List.take_succ_cons, List.append_cons] at this
    have htake : t ++ c :: u = t ++ [c] ++ u := List.append_cons t c u
    rw [htake] at hk hn ⊢
    simp only [List.cons_append, munch, hc, hkind]
    exact ih hgs hmore hkind hk hn

/-- The next token is a text that the grammar accepts on the way and no further. -/
theorem scan_spelled (rest : List Glyph) (hgs : Spells file gs w) (hw : d.Whole w) (hk : d.classify w = some k)
    (hn : d.classify (w ++ [next.char]) = none) (hne : w ≠ []) :
    ∃ g back pos, gs = g :: back ∧ pos.file = file ∧
      scan d g (back ++ next :: rest) = .ok (⟨k, w, pos⟩, next :: rest) := by
  obtain ⟨c, u, rfl⟩ := List.exists_cons_of_ne_nil hne
  obtain ⟨g, back, rfl, rfl, hfile, hback⟩ := hgs.cons
  obtain ⟨kind, hkind⟩ := Option.isSome_iff_exists.1 (hw 0 (by simp))
  simp only [List.take_succ_cons, List.take_zero] at hkind
  have hmore : ∀ n < u.length, (d.classify ([g.char] ++ u.take (n + 1))).isSome = true := by
    intro n hlt
    have := hw (n + 1) (by simpa using hlt)
    rwa [List.take_succ_cons] at this
  have hmunch : munch Glyph.char d [g.char] kind (back ++ next :: rest) =
      (g.char :: u, k, next :: rest) := munch_spelled hback.chars hmore hkind hk hn
  refine ⟨g, back, g.pos, rfl, hfile, ?_⟩
  unfold scan
  simp only [hkind, hmunch, List.cons_ne_nil, false_and, if_false]

theorem lexFrom_skip {t : Token} (hr : closing ≤ rest.length)
    (hs : scan d g rest = .ok (t, left)) (hk : t.kind = .spaces) :
    lexFrom d closing last (g :: rest) = lexFrom d closing last left := by
  rw [lexFrom, if_neg (Nat.not_lt.2 hr)]
  split
  · rename_i he
    rw [hs] at he
    cases he
  · rename_i he
    rw [hs] at he
    cases he
    rw [if_pos hk]

theorem lexFrom_token {t : Token} {read : List Token × List Glyph} (hr : closing ≤ rest.length)
    (hs : scan d g rest = .ok (t, left)) (hsp : t.kind ≠ .spaces)
    (hpart : ¬(t.kind = .baseMark ∨ t.kind = .lonePoint))
    (hc : complete d closing last t left = .ok read) :
    lexFrom d closing last (g :: rest) =
      (lexFrom d closing ((read.1.getLast?.map Token.kind).getD last) read.2).map (read.1 ++ ·) := by
  rw [lexFrom, if_neg (Nat.not_lt.2 hr)]
  split
  · rename_i he
    rw [hs] at he
    cases he
  · rename_i he
    rw [hs] at he
    cases he
    rw [if_neg hsp, if_neg hpart]
    split
    · rename_i he
      rw [hc] at he
      cases he
    · rename_i he
      rw [hc] at he
      cases he
      rfl

theorem lexFrom_blank (hg : g.char = ' ' ∨ g.char = '\t') (hr : closing ≤ rest.length) :
    lexFrom d closing last (g :: next :: rest) = lexFrom d closing last (next :: rest) := by
  obtain ⟨hspace, htab, -⟩ := Dialect.classify_boundaries d
  obtain ⟨hk, hb, hne⟩ : d.classify [g.char] = some .spaces ∧ g.char ∈ Grammar.boundaries ∧
      g.char ≠ '\r' := by
    rcases hg with hg | hg <;> rw [hg] <;> exact ⟨by assumption, by decide, by decide⟩
  have hscan : scan d g (next :: rest) = .ok (⟨.spaces, [g.char], g.pos⟩, next :: rest) := by
    have hn : d.classify [g.char, next.char] = none := Dialect.classify_boundary_append hb hne _
    unfold scan
    simp [hk, munch, hn]
  exact lexFrom_skip (by rw [List.length_cons]; omega) hscan rfl

theorem lexFrom_blanks (hg : ∀ g ∈ gs, g.char = ' ' ∨ g.char = '\t') (hr : closing ≤ rest.length) :
    lexFrom d closing last (gs ++ next :: rest) = lexFrom d closing last (next :: rest) := by
  induction gs with
  | nil => rfl
  | cons g gs ih =>
    rw [List.forall_mem_cons] at hg
    rw [← ih hg.2]
    cases gs with
    | nil => exact lexFrom_blank hg.1 hr
    | cons g' gs => exact lexFrom_blank hg.1 (hr.trans (by simp; omega))

theorem restOfLine_spelled (h : Spells file gs u) (hn : next.ends = true) :
    Glyph.restOfLine (gs ++ next :: rest) = (u, next :: rest) := by
  have hin : ∀ g ∈ gs, (!g.ends) = true := fun g hg => by simp [h.inside g hg]
  unfold Glyph.restOfLine
  rw [List.takeWhile_append_of_pos hin, List.dropWhile_append_of_pos hin]
  simp [hn, h.chars]

section Items

variable {c : Nat} {s : Position} {joined part item : Text}

/-- What one step over the items of DATA puts out and leaves: the items end there or go on. -/
inductive ItemStep where
  | last (tokens : List Token) (left : List Glyph)
  | next (tokens : List Token) (start : Position) (joined part : Text) (left : List Glyph)

/-- The items read from a step on. -/
def ItemStep.run (c : Nat) : ItemStep → List Token × List Glyph
  | .last tokens left => (tokens, left)
  | .next tokens start joined part left =>
    (tokens ++ (dataItems c start joined part left).1, (dataItems c start joined part left).2)

def itemPart (c : Nat) (s : Position) (joined item : Text) (left : List Glyph) : ItemStep :=
  if !(item.getLast? == some ',') && !endsData left then .next [] s joined item left
  else
    match continued? c item left with
    | some more => .next [] s (joined ++ item.dropLast) [] more
    | none =>
      if item.getLast? == some ',' then
        let here := Glyph.place left
        let tokens : List Token := [⟨.dataField, joined ++ item.dropLast, s⟩,
          ⟨.symbol, ",", here.withCol (here.col - 1)⟩]
        if endsData left then .last tokens left else .next tokens here [] [] left
      else .last [⟨.dataField, joined ++ item, s⟩] left

def itemStep (c : Nat) (s : Position) (joined part : Text) : List Glyph → ItemStep
  | [] => .last [] []
  | g :: rest =>
    if g.char = Glyph.endMark then
      .last (if joined = [] then [] else [⟨.dataField, joined, s⟩]) (g :: rest)
    else if (part ++ [g.char]).all Text.isBlank then .next [] (Glyph.place rest) joined [] rest
    else itemPart c s joined (dataPart part g rest).1 (dataPart part g rest).2

theorem dataItems_step (input : List Glyph) :
    dataItems c s joined part input = (itemStep c s joined part input).run c := by
  cases input with
  | nil =>
    rw [dataItems]
    rfl
  | cons g rest =>
    rw [dataItems, itemStep]
    split
    · rfl
    split
    · rfl
    rw [itemPart]
    dsimp only
    split
    · rfl
    split
    · rename_i hnext
      rw [hnext]
      rfl
    · rename_i hnext
      rw [hnext]
      dsimp only
      split
      · split <;> rfl
      · rfl

theorem itemPart_shorter {ts : List Token} {s' : Position} {joined' part' : Text} {more : List Glyph}
    (h : itemPart c s joined item left = .next ts s' joined' part' more) :
    more.length ≤ left.length := by
  unfold itemPart at h
  split at h
  · cases h
    exact Nat.le_refl _
  split at h
  · rename_i hnext
    cases h
    exact Nat.le_of_lt (length_continued hnext)
  · dsimp only at h
    split at h
    · split at h <;> cases h
      exact Nat.le_refl _
    · cases h

theorem itemStep_shorter {ts : List Token} {s' : Position} {joined' part' : Text}
    {input more : List Glyph}
    (h : itemStep c s joined part input = .next ts s' joined' part' more) :
    more.length < input.length := by
  cases input with
  | nil => cases h
  | cons g rest =>
    rw [itemStep] at h
    rw [List.length_cons, Nat.lt_succ_iff]
    split at h
    · cases h
    split at h
    · cases h
      exact Nat.le_refl _
    · exact (itemPart_shorter h).trans (length_dataPart part g rest)

end Items

theorem spread_append (line : Nat) (text file : Text) (col : Int) (t u : Text) :
    ∃ gs col', Glyph.spread line text file col (t ++ u) = gs ++ Glyph.spread line text file col' u ∧
      Spells file gs t := by
  induction t generalizing col with
  | nil => exact ⟨[], col, rfl, rfl, by simp, by simp⟩
  | cons c t ih =>
    obtain ⟨gs, col', heq, hgs⟩ := ih (col + 1)
    refine ⟨⟨c, .onLine line col text file, false⟩ :: gs, col', ?_, ?_, ?_, ?_⟩
    · rw [List.cons_append, Glyph.spread, heq, List.cons_append]
    · rw [List.map_cons, hgs.chars]
    · exact List.forall_mem_cons.2 ⟨rfl, hgs.inside⟩
    · exact List.forall_mem_cons.2 ⟨rfl, hgs.files⟩

theorem munch_returns (rest : List Glyph) (hgs : ∀ g ∈ gs, g.char = '\r') (ht : ∀ c ∈ t, c = '\r') (hne : t ≠ [])
    (hn : next.char ≠ '\r') :
    ∃ u, (∀ c ∈ u, c = '\r') ∧
      munch Glyph.char d t .newline (gs ++ next :: rest) = (u, .newline, next :: rest) := by
  induction gs generalizing t with
  | nil =>
    obtain ⟨c, t, rfl⟩ := List.exists_cons_of_ne_nil hne
    obtain rfl := ht c List.mem_cons_self
    have hnone : d.classify ('\r' :: t ++ [next.char]) = none :=
      Dialect.classify_boundary (c := '\r') (by decide) (by simp) (by simp) ⟨next.char, by simp, hn⟩
    exact ⟨_, ht, by simp only [List.nil_append, munch, hnone]⟩
  | cons g gs ih =>
    rw [List.forall_mem_cons] at hgs
    have hmore : ∀ c ∈ t ++ [g.char], c = '\r' := by
      simpa [or_imp, forall_and] using ⟨ht, hgs.1⟩
    obtain ⟨u, hu, hmunch⟩ := ih hgs.2 hmore (by simp)
    refine ⟨u, hu, ?_⟩
    simp only [List.cons_append, munch, Dialect.classify_returns (by simp) hmore]
    exact hmunch

end Lexer

end ClassicBasic
