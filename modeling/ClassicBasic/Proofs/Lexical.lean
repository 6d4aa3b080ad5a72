import ClassicBasic.Program.Compile
import ClassicBasic.Proofs.Case
import ClassicBasic.Proofs.Spelled

/-!
# Kinds and values of tokens

A token of a kind that the grammar gives out has a value that the grammar gives this kind. Lexing
makes such tokens only, and so does reading a piece of code, so the property can be followed through
the stages of a conversion.
-/

set_option autoImplicit false

namespace ClassicBasic

namespace Kind

/-- Kinds of texts that are read as they stand, of the sentinels and of strange white space. -/
def isRaw : Kind → Bool
  | .illegal | .program | .eof | .string | .remarkText | .blockText | .blockEnd | .dataField => true
  | _ => false

def isMade : Kind → Bool
  | .lineNumber | .call | .callName | .slot | .special | .labelLine | .labelJump | .labelReturn
  | .labelExit | .functionEntry | .functionCall => true
  | _ => false

def isRead (k : Kind) : Bool := !k.isRaw && !k.isMade

def isEntry : Kind → Bool
  | .labelLine | .functionEntry => true
  | _ => false

theorem isMade_of_isRaw {k : Kind} (h : k.isRaw = true) : k.isMade = false := by
  cases k <;> first | rfl | cases h

theorem isEntry_of_unmade {k : Kind} (h : k.isMade = false) : k.isEntry = false := by
  cases k <;> first | rfl | cases h

end Kind

/-- Only numbering makes line numbers, the kinds of the grammar stand for what it reads, and no entry
is taken for the sign that keeps a name. -/
structure Token.Lawful (d : Dialect) (t : Token) : Prop where
  unnumbered : t.kind ≠ .lineNumber
  classified : t.kind.isRead → d.classify t.value = some t.kind
  unkept : t.kind.isEntry → t.value ≠ Merge.keepSign

structure Token.Lexed (d : Dialect) (t : Token) : Prop extends Token.Lawful d t where
  unmade : t.kind.isMade = false

namespace Grammar

theorem nameTail_typed {t : Text} (h : nameTail false t = true) : nameTail true t = true := by
  fun_induction nameTail false t with
  | case1 => rfl
  | case2 c => simp_all [nameTail]
  | case3 c rest hr ih => simp_all [nameTail]

theorem isName_typed {t : Text} (h : isName false t = true) : isName true t = true := by
  cases t with
  | nil => cases h
  | cons c rest =>
    simp only [isName, Bool.and_eq_true] at h ⊢
    exact ⟨h.1, nameTail_typed h.2⟩

end Grammar

namespace Dialect

variable {d : Dialect} {v : Text} {k : Kind}

theorem classify_rule (h : d.classify v = some k) :
    ∃ r ∈ d.grammar, r.kind = k ∧ r.shape.accepts v = true := by
  obtain ⟨r, hr, rfl⟩ := Option.map_eq_some_iff.1 h
  have ha := List.find?_some hr
  exact ⟨r, List.mem_of_find?_eq_some hr, rfl, ha⟩

/-- The rules of all dialects whose shape their kind determines, and that of the names of variables. -/
theorem grammar_rules (d : Dialect) :
    (∀ r ∈ d.grammar, r.kind.isRead = true ∧ (r.kind = .toggle → r.shape = .name ['#'] false) ∧
      (r.kind = .newline → r.shape = .lineEnds) ∧
      (r.kind = .functionName → r.shape = .name ['.'] false)) ∧
    ⟨.identifier, .name [] true⟩ ∈ d.grammar := by
  rw [Dialect.grammar_spelled]
  cases d <;> decide

theorem grammar_isRead (d : Dialect) : ∀ r ∈ d.grammar, r.kind.isRead = true :=
  fun r hr => ((grammar_rules d).1 r hr).1

theorem identifier_rule (d : Dialect) : ⟨.identifier, .name [] true⟩ ∈ d.grammar :=
  (grammar_rules d).2

theorem toggle_rule (d : Dialect) :
    ∀ r ∈ d.grammar, r.kind = .toggle → r.shape = .name ['#'] false :=
  fun r hr => ((grammar_rules d).1 r hr).2.1

theorem newline_rule (d : Dialect) :
    ∀ r ∈ d.grammar, r.kind = .newline → r.shape = .lineEnds :=
  fun r hr => ((grammar_rules d).1 r hr).2.2.1

theorem functionName_rule (d : Dialect) :
    ∀ r ∈ d.grammar, r.kind = .functionName → r.shape = .name ['.'] false :=
  fun r hr => ((grammar_rules d).1 r hr).2.2.2

def commonSigns : List (Char × Kind) :=
  [('\r', .newline), (' ', .spaces), ('\t', .spaces), ('"', .quote), ('\'', .remark), (',', .symbol),
    ('#', .symbol), ('-', .symbol), (')', .symbol), ('.', .lonePoint), ('&', .baseMark), ('[', .mark),
    (']', .mark), ('\x7b', .mark), ('\x7d', .mark), ('@', .mark), ('~', .mark)] ++
    "0123456789".toList.map (·, .number)

theorem classify_signs (d : Dialect) :
    d.classify [] = none ∧ ∀ s ∈ commonSigns, d.classify [s.1] = some s.2 := by
  simp only [Dialect.classify_spelled]
  cases d <;> decide +kernel

theorem classify_nil (d : Dialect) : d.classify [] = none := (classify_signs d).1

theorem classify_sign {c : Char} (h : (c, k) ∈ commonSigns) : d.classify [c] = some k :=
  (classify_signs d).2 (c, k) h

theorem accepts_newline (h : d.classify v = some .newline) : v ≠ [] ∧ ∀ c ∈ v, c = '\r' := by
  obtain ⟨r, hr, hk, ha⟩ := classify_rule h
  rw [newline_rule d r hr hk] at ha
  simpa [Shape.accepts] using ha

theorem separator_rule (d : Dialect) :
    ∀ r ∈ d.grammar, r.kind = .separator → r.shape = .words [":"] [] := by
  cases d <;> decide

theorem accepts_separator (h : d.classify v = some .separator) :
    v = [':'] := by
  obtain ⟨r, hr, hk, ha⟩ := classify_rule h
  rw [separator_rule d r hr hk] at ha
  simp only [Shape.accepts, List.any_cons, List.any_nil, Bool.or_false] at ha
  exact Text.eq_of_sameLetters (by decide) ha

theorem accepts_functionName (h : d.classify v = some .functionName) : ∃ name, v = '.' :: name := by
  obtain ⟨r, hr, hk, ha⟩ := classify_rule h
  rw [functionName_rule d r hr hk] at ha
  cases v with
  | nil => simp [Shape.accepts, Grammar.after] at ha
  | cons c rest =>
    by_cases hc : c = '.'
    · exact ⟨rest, by rw [hc]⟩
    · simp [Shape.accepts, Grammar.after, Ne.symm hc] at ha

theorem accepts_toggle {name : Text} (h : d.classify ('#' :: name) = some .toggle) :
    Grammar.isName false name = true := by
  obtain ⟨r, hr, hk, ha⟩ := classify_rule h
  rw [toggle_rule d r hr hk] at ha
  simpa [Shape.accepts, Grammar.after] using ha

theorem isRead_of_classify (h : d.classify v = some k) : k.isRead = true := by
  obtain ⟨r, hr, rfl, -⟩ := classify_rule h
  exact grammar_isRead d r hr

end Dialect

namespace Token

variable {d : Dialect} {t : Token} {v : Text} {k : Kind} {pos : Position}

theorem lawful_of_unread (hk : k.isRead = false) (hn : k ≠ .lineNumber)
    (he : k.isEntry = false) : Lawful d ⟨k, v, pos⟩ := by
  constructor
  · exact hn
  · intro h
    simp [hk] at h
  · intro h
    simp [he] at h

theorem lexed_of_classify (h : d.classify v = some k) : Lexed d ⟨k, v, pos⟩ := by
  have hr := Dialect.isRead_of_classify h
  simp only [Kind.isRead, Bool.and_eq_true, Bool.not_eq_true'] at hr
  refine ⟨⟨?_, fun _ => h, ?_⟩, hr.2⟩
  · rintro rfl
    simp [Kind.isMade] at hr
  · intro he
    simp [Kind.isEntry_of_unmade hr.2] at he

theorem lexed_of_raw (hk : k.isRaw = true) : Lexed d ⟨k, v, pos⟩ := by
  have hm := Kind.isMade_of_isRaw hk
  refine ⟨lawful_of_unread (by simp [Kind.isRead, hk]) ?_ (Kind.isEntry_of_unmade hm), hm⟩
  rintro rfl
  cases hm

theorem Lawful.kind_ne_newline (h : t.Lawful d) (hv : '\r' ∉ t.value) : t.kind ≠ .newline := by
  intro hk
  obtain ⟨hne, hall⟩ := Dialect.accepts_newline (hk ▸ h.classified (hk ▸ rfl))
  obtain ⟨c, rest, hcons⟩ := List.exists_cons_of_ne_nil hne
  have hc : c ∈ t.value := by simp [hcons]
  exact hv (hall c hc ▸ hc)

end Token

namespace Lexer

variable {d : Dialect}

theorem classify_munch {α : Type} (char : α → Char) (taken : Text) (kind : Kind)
    (h : d.classify taken = some kind) (l : List α) :
    d.classify (munch char d taken kind l).1 = some (munch char d taken kind l).2.1 := by
  induction l generalizing taken kind with
  | nil => exact h
  | cons x rest ih =>
    simp only [munch]
    split
    · rename_i k hk
      exact ih _ _ hk
    · exact h

theorem snippet?_lexed {pos : Position} {code : Text} {tokens : List Token}
    (h : snippet? d pos code = .ok tokens) : ∀ t ∈ tokens, t.Lexed d := by
  fun_induction snippet? d pos code generalizing tokens with
  | case1 => simp_all
  | case2 c rest hc hb ih =>
    obtain ⟨more, hm, rfl⟩ := Outcome.map_eq_ok_iff.1 h
    intro t ht
    rcases List.mem_cons.1 ht with rfl | ht
    · exact Token.lexed_of_raw rfl
    · exact ih hm t ht
  | case3 => cases h
  | case4 c rest k hk =>
    rename_i ih
    obtain ⟨more, hm, rfl⟩ := Outcome.map_eq_ok_iff.1 h
    intro t ht
    split at ht
    · exact ih hm t ht
    · rcases List.mem_cons.1 ht with rfl | ht
      · exact Token.lexed_of_classify (classify_munch id [c] k hk rest)
      · exact ih hm t ht

theorem snippet_lexed (pos : Position) (code : Text) : ∀ t ∈ snippet d pos code, t.Lexed d := by
  unfold snippet
  cases h : snippet? d pos code with
  | ok tokens => exact snippet?_lexed h
  | error c => simp

theorem scan_classified {g : Glyph} {rest left : List Glyph} {t : Token}
    (h : scan d g rest = .ok (t, left)) : d.classify t.value = some t.kind := by
  unfold scan at h
  split at h
  · cases h
  · rename_i k hk
    dsimp only at h
    split at h
    · cases h
    · cases h
      exact classify_munch Glyph.char [g.char] k hk rest

theorem blockLines_kind {closing : Nat} {opener : Token} {input : List Glyph}
    {read : List Token × List Glyph} (h : blockLines closing opener input = .ok read) :
    ∀ t ∈ read.1, t.kind = .blockText ∨ t.kind = .blockEnd := by
  fun_induction blockLines closing opener input generalizing read with
  | case1 =>
    cases h
    intro t ht
    split at ht
    · rw [List.mem_singleton.1 ht]
      exact .inr rfl
    · rcases List.mem_cons.1 ht with rfl | ht
      · exact .inl rfl
      · rw [List.mem_singleton.1 ht]
        exact .inr rfl
  | case2 => cases h
  | case3 =>
    rename_i ih
    obtain ⟨more, hm, rfl⟩ := Outcome.map_eq_ok_iff.1 h
    exact List.forall_mem_cons.2 ⟨.inl rfl, ih hm⟩

theorem block_lexed {closing : Nat} {opener : Token} {input : List Glyph}
    {read : List Token × List Glyph} (ho : opener.Lexed d)
    (h : block closing opener input = .ok read) : ∀ t ∈ read.1, t.Lexed d := by
  unfold block at h
  split at h
  · cases h
  · obtain ⟨more, hm, rfl⟩ := Outcome.map_eq_ok_iff.1 h
    intro t ht
    dsimp only at ht
    split at ht
    · rcases List.mem_cons.1 ht with rfl | ht
      · exact ho
      · rcases blockLines_kind hm t ht with hk | hk
        · exact Token.lexed_of_raw (by rw [hk]; rfl)
        · exact Token.lexed_of_raw (by rw [hk]; rfl)
    · cases ht

theorem classify_comma (d : Dialect) : d.classify "," = some .symbol :=
  Dialect.classify_sign (by decide)

theorem classify_hash (d : Dialect) : d.classify ['#'] = some .symbol :=
  Dialect.classify_sign (by decide)

theorem classify_apostrophe (d : Dialect) : d.classify "'" = some .remark :=
  Dialect.classify_sign (by decide)

theorem snippet_apostrophe (pos : Position) : snippet d pos "'" = [⟨.remark, "'", pos⟩] := by
  have hk : d.classify ['\''] = some .remark := classify_apostrophe d
  have heq : snippet? d pos ['\''] = .ok [⟨.remark, "'", pos⟩] := by
    rw [snippet?]
    split
    · rename_i hn
      rw [hk] at hn
      cases hn
    · rename_i k hn
      rw [hk] at hn
      cases hn
      simp [munch, snippet?, Except.map]
  rw [snippet]
  split
  · rename_i tokens hs
    cases hs.symm.trans heq
    rfl
  · rename_i hs
    cases hs.symm.trans heq

theorem classify_endMark (d : Dialect) : d.classify [Glyph.endMark] = some .newline :=
  Dialect.classify_sign (by decide)

theorem dataItems_kind (closing : Nat) (start : Position) (joined part : Text)
    (input : List Glyph) : ∀ t ∈ (dataItems closing start joined part input).1,
      t.kind = .dataField ∨ (t.kind = .symbol ∧ t.value = ",") := by
  fun_induction dataItems closing start joined part input with
  | case1 => simp
  | case2 =>
    intro t ht
    split at ht
    · cases ht
    · rw [List.mem_singleton.1 ht]
      exact .inl rfl
  | case3 _ _ _ _ _ _ _ ih => exact ih
  | case4 _ _ _ _ _ _ _ _ _ _ _ ih => exact ih
  | case5 _ _ _ _ _ _ _ _ _ _ _ _ _ ih => exact ih
  | case6 =>
    exact List.forall_mem_cons.2 ⟨.inl rfl, List.forall_mem_cons.2 ⟨.inr ⟨rfl, rfl⟩, by simp⟩⟩
  | case7 _ _ _ _ _ _ _ _ _ _ _ _ _ _ _ _ _ ih =>
    intro t ht
    rcases List.mem_append.1 ht with ht | ht
    · rcases List.mem_cons.1 ht with rfl | ht
      · exact .inl rfl
      · rw [List.mem_singleton.1 ht]
        exact .inr ⟨rfl, rfl⟩
    · exact ih t ht
  | case8 => simp

theorem dataFields_kind (closing : Nat) (input : List Glyph) :
    ∀ t ∈ (dataFields closing input).1, t.kind = .dataField ∨ (t.kind = .symbol ∧ t.value = ",") := by
  unfold dataFields
  dsimp only
  split
  · simp
  · exact dataItems_kind _ _ _ _ _

theorem dataFields_lexed (closing : Nat) (input : List Glyph) :
    ∀ t ∈ (dataFields closing input).1, t.Lexed d := by
  intro t ht
  rcases dataFields_kind closing input t ht with hk | ⟨hk, hv⟩
  · exact Token.lexed_of_raw (by rw [hk]; rfl)
  · exact Token.lexed_of_classify (by rw [hk, hv]; exact classify_comma d)

theorem classify_name {name : Text} (h : d.classify ('#' :: name) = some .toggle) :
    ∃ k, d.classify name = some k := by
  have ht : Grammar.isName false name = true := Dialect.accepts_toggle h
  have ha : Shape.accepts (.name [] true) name = true := Grammar.isName_typed ht
  have hf : (d.grammar.find? (·.shape.accepts name)).isSome := by
    rw [List.find?_isSome]
    exact ⟨⟨.identifier, .name [] true⟩, Dialect.identifier_rule d, ha⟩
  obtain ⟨r, hr⟩ := Option.isSome_iff_exists.1 hf
  exact ⟨r.kind, by rw [Dialect.classify, hr]; rfl⟩

theorem splitToggle_eq {t symbol name : Text} (h : Dialect.splitToggle t = some (symbol, name)) :
    symbol = ['#'] ∧ t = '#' :: name := by
  unfold Dialect.splitToggle at h
  split at h
  · split at h
    · cases h
    · cases h
      exact ⟨rfl, rfl⟩
  · cases h

theorem complete_lexed {closing : Nat} {last : Kind} {t : Token} {input : List Glyph}
    {read : List Token × List Glyph} (ht : d.classify t.value = some t.kind)
    (h : complete d closing last t input = .ok read) : ∀ u ∈ read.1, u.Lexed d := by
  have hl : t.Lexed d := Token.lexed_of_classify ht
  have raw {k : Kind} {v : Text} {pos : Position} (hk : k.isRaw = true) : Token.Lexed d ⟨k, v, pos⟩ :=
    Token.lexed_of_raw hk
  unfold complete at h
  split at h
  case h_1 hk =>
    split at h
    · rename_i symbol name hs
      cases h
      obtain ⟨rfl, hv⟩ := splitToggle_eq hs
      obtain ⟨k, hn⟩ := classify_name (hv ▸ hk ▸ ht)
      simp only [List.mem_cons, List.not_mem_nil, or_false, forall_eq_or_imp, forall_eq, hn,
        Option.getD_some]
      exact ⟨Token.lexed_of_classify (classify_hash d), Token.lexed_of_classify hn⟩
    · cases h
      simpa using hl
  case h_2 =>
    split at h
    · exact block_lexed hl h
    · cases h
      simp only [List.mem_cons, List.not_mem_nil, or_false, forall_eq_or_imp, forall_eq]
      exact ⟨Token.lexed_of_classify (classify_apostrophe d), raw rfl⟩
  case h_3 =>
    split at h
    · exact block_lexed hl h
    · cases h
      simp
  case h_4 =>
    cases h
    simp
  case h_5 =>
    cases h
    intro u hu
    dsimp only at hu
    split at hu
    · rwa [List.mem_singleton.1 hu]
    · rcases List.mem_cons.1 hu with rfl | hu
      · exact hl
      · rw [List.mem_singleton.1 hu]
        exact raw rfl
  case h_6 =>
    cases h
    simpa using raw rfl
  case h_7 =>
    cases h
    intro u hu
    rcases List.mem_cons.1 hu with rfl | hu
    · exact hl
    · exact dataFields_lexed closing input u hu
  case h_8 =>
    cases h
    simpa using hl

theorem lexFrom_lexed {closing : Nat} {last : Kind} {input : List Glyph} {tokens : List Token}
    (h : lexFrom d closing last input = .ok tokens) : ∀ t ∈ tokens, t.Lexed d := by
  fun_induction lexFrom d closing last input generalizing tokens with
  | case1 =>
    cases h
    simpa using Token.lexed_of_raw rfl
  | case2 =>
    cases h
    simpa using Token.lexed_of_raw rfl
  | case3 => cases h
  | case4 _ _ _ _ _ _ _ _ ih => exact ih h
  | case5 => cases h
  | case6 => cases h
  | case7 last g rest hlt t left hs hk hb read left' hc last' =>
    rename_i ih
    obtain ⟨more, hm, rfl⟩ := Outcome.map_eq_ok_iff.1 h
    intro u hu
    rcases List.mem_append.1 hu with hu | hu
    · exact complete_lexed (scan_classified hs) hc u hu
    · exact ih hm u hu

/-- The tokens of a listing are lexed ones, between a start with its line end and what follows. -/
theorem lex_lexed {listing : Listing} {tokens : List Token} (h : lex d listing = .ok tokens) :
    ∀ t ∈ tokens, t.Lexed d := by
  unfold lex at h
  split at h
  · obtain ⟨more, hm, rfl⟩ := Outcome.map_eq_ok_iff.1 h
    intro t ht
    rcases List.mem_cons.1 ht with rfl | ht
    · exact Token.lexed_of_raw rfl
    · rcases List.mem_cons.1 ht with rfl | ht
      · exact Token.lexed_of_classify (classify_endMark d)
      · exact lexFrom_lexed hm t ht
  · cases h

theorem lex_start {listing : Listing} {tokens : List Token} (h : lex d listing = .ok tokens) :
    ∃ start newline rest, tokens = start :: newline :: rest ∧
      start.kind = .program ∧ newline.kind = .newline := by
  unfold lex at h
  split at h
  · obtain ⟨more, hm, rfl⟩ := Outcome.map_eq_ok_iff.1 h
    exact ⟨_, _, _, rfl, rfl, rfl⟩
  · cases h

end Lexer

end ClassicBasic
