import ClassicBasic.Proofs.Laid
import ClassicBasic.Proofs.Spelling
import Mathlib.Logic.Relation

/-!
# What lexing takes from a listing

Lexing takes the characters of a listing from left to right: a blank is left out, a token takes a run
of characters of its line and is placed at the first, a comment drops the rest of its line, and a
block of comments drops everything up to the end of its last line.
-/

set_option autoImplicit false

namespace ClassicBasic

def Kind.isText : Kind → Bool
  | .program | .newline | .eof => false
  | _ => true

def Token.IsText (t : Token) : Prop := t.kind.isText = true

instance (t : Token) : Decidable t.IsText := inferInstanceAs (Decidable (_ = _))

theorem Token.IsText.ne_newline {t : Token} (h : t.IsText) : (t.kind == .newline) = false := by
  rw [beq_eq_false_iff_ne]
  intro hk
  rw [Token.IsText, hk] at h
  cases h

namespace Lexer

open Glyph (Laid Inside endMark place)

def commentSign : Text := "##"

/-- What opens a block of comments, and closes it at the end of a line. -/
def blockSign : Text := "###"

/-- The tokens of what is left of a listing, whose last `closing` characters are not read. A line is
`fresh` while it has no token. -/
inductive Covers (closing : Nat) : Bool → List Glyph → List Token → Prop
  | done {fresh : Bool} {input : List Glyph} {tokens : List Token}
      (short : input.length ≤ closing) (mute : ∀ t ∈ tokens, ¬t.IsText) : Covers closing fresh input tokens
  | mark {fresh : Bool} {input : List Glyph} {tokens : List Token} {t : Token} (mute : ¬t.IsText)
      (more : Covers closing fresh input tokens) : Covers closing fresh input (t :: tokens)
  | blank {fresh : Bool} {g : Glyph} {rest : List Glyph} {tokens : List Token}
      (inside : g.ends = false) (blank : Text.isBlank g.char = true)
      (more : Covers closing fresh rest tokens) : Covers closing fresh (g :: rest) tokens
  | ending {fresh : Bool} {e : Glyph} {rest : List Glyph} {tokens : List Token}
      (ends : e.ends = true) (more : Covers closing true rest tokens) :
      Covers closing fresh (e :: rest) tokens
  | token {fresh : Bool} {span rest : List Glyph} {tokens : List Token} {t : Token}
      (text : t.IsText) (inside : Inside span) (on : rest ≠ []) (value : t.value = span.map Glyph.char)
      (pos : t.pos = place (span ++ rest)) (more : Covers closing false rest tokens) :
      Covers closing fresh (span ++ rest) (t :: tokens)
  | comment {fresh : Bool} {span rest : List Glyph} {e : Glyph} {tokens : List Token}
      (inside : Inside span) (sign : commentSign <+: span.map Glyph.char) (ends : e.ends = true)
      (more : Covers closing true (e :: rest) tokens) : Covers closing fresh (span ++ e :: rest) tokens
  | block {first middle last rest : List Glyph} {e : Glyph} {tokens : List Token}
      (opens : Inside first) (opener : first.map Glyph.char = blockSign)
      (closes : Inside last) (closer : last.map Glyph.char = blockSign) (ends : e.ends = true)
      (more : Covers closing true (e :: rest) tokens) :
      Covers closing true (first ++ middle ++ last ++ e :: rest) tokens

variable {d : Dialect} {closing : Nat} {fresh : Bool} {g e : Glyph} {span input rest left : List Glyph}
  {tokens more : List Token} {t : Token}

theorem Covers.refresh (h : Covers closing false input more) (f : Bool) : Covers closing f input more := by
  generalize hf : false = fresh at h
  induction h generalizing f with
  | done short mute => exact .done short mute
  | mark mute _ ih => exact .mark mute (ih f hf)
  | blank inside blank _ ih => exact .blank inside blank (ih f hf)
  | ending ends more => exact .ending ends more
  | token text inside on value pos more => exact .token text inside on value pos more
  | comment inside sign ends more => exact .comment inside sign ends more
  | block => cases hf

theorem Covers.blanks (h : Covers closing fresh rest more) (hs : Inside span)
    (hb : ∀ g ∈ span, Text.isBlank g.char = true) : Covers closing fresh (span ++ rest) more := by
  induction span with
  | nil => exact h
  | cons g span ih =>
    obtain ⟨hg, hspan⟩ := Glyph.inside_cons.1 hs
    obtain ⟨hblank, hblanks⟩ := List.forall_mem_cons.1 hb
    exact .blank hg hblank (ih hspan hblanks)

theorem Covers.endings (h : Covers closing true rest more) (hs : ∀ g ∈ span, g.ends = true)
    (hne : span ≠ []) : Covers closing fresh (span ++ rest) more := by
  induction span generalizing fresh with
  | nil => exact absurd rfl hne
  | cons g span ih =>
    obtain ⟨hg, hspan⟩ := List.forall_mem_cons.1 hs
    refine .ending hg ?_
    by_cases hnil : span = []
    · rw [hnil]
      exact h
    · exact ih hspan hnil

/-! ### Runs of characters -/

theorem munch_span (taken : Text) (kind : Kind) (l : List Glyph) :
    ∃ span, l = span ++ (munch Glyph.char d taken kind l).2.2 ∧
      (munch Glyph.char d taken kind l).1 = taken ++ span.map Glyph.char := by
  induction l generalizing taken kind with
  | nil => exact ⟨[], rfl, by simp [munch]⟩
  | cons g rest ih =>
    simp only [munch]
    split
    · obtain ⟨span, hrest, htext⟩ := ih (taken ++ [g.char]) ‹_›
      refine ⟨g :: span, ?_, ?_⟩
      · rw [List.cons_append, ← hrest]
      · rw [htext, List.map_cons, List.append_assoc, List.singleton_append]
    · exact ⟨[], rfl, by simp⟩

theorem scan_span (h : scan d g rest = .ok (t, left)) : ∃ span, g :: rest = span ++ left ∧
    span ≠ [] ∧ t.value = span.map Glyph.char ∧ t.pos = g.pos := by
  unfold scan at h
  split at h
  · cases h
  · rename_i k _
    dsimp only at h
    split at h
    · cases h
    · cases h
      obtain ⟨span, hrest, htext⟩ := munch_span (d := d) [g.char] k rest
      exact ⟨g :: span, by rw [List.cons_append, ← hrest], by simp, htext, rfl⟩

end Lexer

theorem Dialect.not_mem_return {d : Dialect} {v : Text} {k : Kind} (h : d.classify v = some k)
    (hk : k ≠ .newline) (hv : v ≠ []) : '\r' ∉ v := by
  intro hmem
  have hother := exists_ne_return h hk hv
  by_cases hl : v.length = 1
  · obtain ⟨c, rfl⟩ := List.length_eq_one_iff.1 hl
    obtain ⟨x, hx, hne⟩ := hother
    exact hne ((List.mem_singleton.1 hx).trans (List.mem_singleton.1 hmem).symm)
  · rw [classify_boundary (by decide) hmem hl hother] at h
    cases h

theorem Dialect.accepts_spaces {d : Dialect} {v : Text} (h : d.classify v = some .spaces) :
    ∀ c ∈ v, Text.isBlank c = true := by
  obtain ⟨r, hr, hk, ha⟩ := classify_rule h
  have hall : ∀ r ∈ d.grammar, r.kind = .spaces → r.shape = .blank := by
    cases d <;> decide
  rw [hall r hr hk] at ha
  match v, ha with
  | [c], ha =>
    simp only [Shape.accepts, Bool.or_eq_true, beq_iff_eq] at ha
    intro x hx
    rw [List.mem_singleton.1 hx]
    rcases ha with (rfl | rfl) | rfl <;> decide

theorem Dialect.opening_rule (d : Dialect) : ∀ r ∈ d.grammar,
    (r.kind = .lineComment → r.shape = .words ["##"] []) ∧
      (r.kind = .blockComment → r.shape = .words ["###"] []) ∧
      (r.kind = .blockRemark → r.shape = .words ["''"] []) := by
  cases d <;> decide

theorem Dialect.classify_opening {d : Dialect} {v : Text} :
    (d.classify v = some .lineComment → v = Lexer.commentSign) ∧
      (d.classify v = some .blockComment → v = Lexer.blockSign) ∧
      (d.classify v = some .blockRemark → v = "''") := by
  refine ⟨fun h => ?_, fun h => ?_, fun h => ?_⟩ <;> obtain ⟨r, hr, hk, ha⟩ := classify_rule h
  · rw [(opening_rule d r hr).1 hk] at ha
    simp only [Shape.accepts, List.any_cons, List.any_nil, Bool.or_false] at ha
    exact Text.eq_of_sameLetters (by decide) ha
  · rw [(opening_rule d r hr).2.1 hk] at ha
    simp only [Shape.accepts, List.any_cons, List.any_nil, Bool.or_false] at ha
    exact Text.eq_of_sameLetters (by decide) ha
  · rw [(opening_rule d r hr).2.2 hk] at ha
    simp only [Shape.accepts, List.any_cons, List.any_nil, Bool.or_false] at ha
    exact Text.eq_of_sameLetters (by decide) ha

namespace Glyph

variable {span input rest left : List Glyph} {g : Glyph}

theorem Laid.inside (h : Laid (span ++ rest)) (hr : endMark ∉ span.map char) : Inside span := by
  intro g hg
  have hapt := h.apt g (List.mem_append_left _ hg)
  rw [Bool.eq_false_iff]
  exact fun hends => hr (hapt.marks.2 hends ▸ List.mem_map_of_mem hg)

theorem Laid.ending (h : Laid (span ++ rest)) (hr : ∀ c ∈ span.map char, c = endMark) :
    ∀ g ∈ span, g.ends = true := fun g hg =>
  (h.apt g (List.mem_append_left _ hg)).marks.1 (hr _ (List.mem_map_of_mem hg))

/-- The rest of a line is a run of characters with an end mark behind it. -/
theorem Laid.restOfLine (h : Laid input) (hne : input ≠ []) : ∃ span e rest, Inside span ∧
    e.ends = true ∧ input = span ++ e :: rest ∧ restOfLine input = (span.map char, e :: rest) := by
  have hsplit := List.takeWhile_append_dropWhile (p := fun g : Glyph => !g.ends) (l := input)
  have hinside : Inside (input.takeWhile fun g => !g.ends) := fun g hg => by
    simpa using List.mem_takeWhile_imp hg
  have hleft : (input.dropWhile fun g => !g.ends) ≠ [] := by
    rw [← hsplit] at h hne
    exact h.ne_nil hinside hne
  obtain ⟨e, rest, hcons⟩ := List.exists_cons_of_ne_nil hleft
  refine ⟨_, e, rest, hinside, ?_, ?_, ?_⟩
  · have hends := List.head?_dropWhile_not (fun g : Glyph => !g.ends) input
    rw [hcons] at hends
    simpa using hends
  · rw [← hcons, hsplit]
  · rw [Glyph.restOfLine, hcons]

theorem restOfLine_cons (hg : g.ends = false) : (restOfLine (g :: rest)).2 = (restOfLine rest).2 := by
  simp [restOfLine, hg]

theorem restOfLine_append (hs : Inside span) : (restOfLine (span ++ rest)).2 = (restOfLine rest).2 := by
  unfold restOfLine
  rw [List.dropWhile_append_of_pos fun g hg => by simp [hs g hg]]

theorem nextLine_ending {closing : Nat} {e : Glyph} {next : List Glyph} (he : e.ends = true)
    (h : nextLine? closing (e :: rest) = some next) : next = rest ∧ next ≠ [] := by
  simp only [nextLine?, List.dropWhile_cons, he, Bool.not_true, Bool.false_eq_true, if_false,
    List.drop_succ_cons, List.drop_zero, Option.ite_none_right_eq_some, Option.some.injEq] at h
  exact ⟨h.2.symm, h.2 ▸ List.ne_nil_of_length_pos (Nat.zero_lt_of_lt h.1)⟩

theorem length_nextLine_rest {closing : Nat} {next : List Glyph}
    (h : nextLine? closing input = some next) : next.length < (restOfLine input).2.length := by
  unfold nextLine? at h
  dsimp only at h
  split at h
  · obtain rfl := Option.some.inj h
    rename_i hlt
    rw [List.length_drop] at hlt ⊢
    exact Nat.sub_lt (by omega) Nat.one_pos
  · cases h

end Glyph

namespace Lexer

open Glyph (Laid Inside endMark place)

variable {d : Dialect} {closing : Nat} {fresh : Bool} {g e : Glyph} {span input rest left : List Glyph}
  {tokens more : List Token} {t : Token}

/-! ### Blocks -/

theorem dropTail_span {tail body : Text} (h : Text.dropTail tail (span.map Glyph.char) = some body) :
    ∃ first last, span = first ++ last ∧ first.map Glyph.char = body ∧ last.map Glyph.char = tail := by
  unfold Text.dropTail at h
  split at h
  · rename_i hsuffix
    obtain ⟨kept, hkept⟩ := List.isSuffixOf_iff_suffix.1 hsuffix
    cases h
    obtain ⟨first, last, rfl, hfirst, hlast⟩ := List.map_eq_append_iff.1 hkept.symm
    refine ⟨first, last, rfl, ?_, hlast⟩
    rw [List.map_append, hfirst, hlast, List.length_append, Nat.add_sub_cancel, List.take_left]
  · cases h

/-- Every line of a block is a token or blank, up to the sign that closes it. -/
theorem blockLines_covers {opener : Token} {read : List Token × List Glyph} (hl : Laid input)
    (hne : input ≠ []) (h : blockLines closing opener input = .ok read)
    (hm : Covers closing false read.2 more) (f : Bool) :
    Covers closing f input (read.1 ++ more) := by
  fun_induction blockLines closing opener input generalizing read f with
  | case1 input text atEnd body hbody endPos =>
    rename_i last
    cases h
    obtain ⟨span, e, rest, hin, he, rfl, hrest⟩ := hl.restOfLine hne
    simp only [text, atEnd, endPos, last, hrest] at hbody hm ⊢
    obtain ⟨first, sign, rfl, hfirst, hsign⟩ := dropTail_span hbody
    have hin1 : Inside first := fun g hg => hin g (List.mem_append_left _ hg)
    have hin2 : Inside sign := fun g hg => hin g (List.mem_append_right _ hg)
    rw [List.append_assoc] at hl ⊢
    have hclose : Covers closing false (sign ++ e :: rest) (⟨.blockEnd, opener.value,
        (place (e :: rest)).withCol ((place (e :: rest)).col - opener.value.length)⟩ :: more) := by
      refine .token rfl hin2 (by simp) hsign.symm ?_ hm
      have hplace := hl.append_right.place_append hin2
      have hlen : opener.value.length = sign.length := by rw [← hsign, List.length_map]
      simp only [hplace, Position.withCol, hlen]
      rw [Int.add_sub_cancel]
    split
    · rename_i hblank
      refine Covers.blanks (hclose.refresh f) hin1 fun g hg => ?_
      exact List.all_eq_true.1 hblank _ (hfirst ▸ List.mem_map_of_mem hg)
    · exact .token rfl hin1 (by simp) hfirst.symm rfl hclose
  | case2 => cases h
  | case3 input text atEnd hnone next hn =>
    rename_i ih
    obtain ⟨read, hread, rfl⟩ := Outcome.map_eq_ok_iff.1 h
    obtain ⟨span, e, rest, hin, he, rfl, hrest⟩ := hl.restOfLine hne
    simp only [text, atEnd, hrest] at hn ⊢
    obtain ⟨rfl, hnext⟩ := Glyph.nextLine_ending he hn
    exact .token rfl hin (by simp) rfl rfl (.ending he (ih hl.append_right.tail hnext hread hm true))

theorem blockLines_region {opener : Token} {read : List Token × List Glyph} (hl : Laid input)
    (hne : input ≠ []) (h : blockLines closing opener input = .ok read) :
    ∃ middle last e rest, input = middle ++ last ++ e :: rest ∧ read.2 = e :: rest ∧
      Inside last ∧ last.map Glyph.char = opener.value ∧ e.ends = true := by
  fun_induction blockLines closing opener input generalizing read with
  | case1 input text atEnd body hbody =>
    cases h
    obtain ⟨span, e, rest, hin, he, rfl, hrest⟩ := hl.restOfLine hne
    simp only [text, atEnd, hrest] at hbody ⊢
    obtain ⟨first, sign, rfl, -, hsign⟩ := dropTail_span hbody
    exact ⟨first, sign, e, rest, rfl, rfl, fun g hg => hin g (List.mem_append_right _ hg), hsign, he⟩
  | case2 => cases h
  | case3 input text atEnd hnone next hn =>
    rename_i ih
    obtain ⟨read, hread, rfl⟩ := Outcome.map_eq_ok_iff.1 h
    obtain ⟨span, e, rest, hin, he, rfl, hrest⟩ := hl.restOfLine hne
    simp only [atEnd, hrest] at hn
    obtain ⟨rfl, hnext⟩ := Glyph.nextLine_ending he hn
    obtain ⟨middle, last, e', rest, rfl, hleft, hlast⟩ := ih hl.append_right.tail hnext hread
    exact ⟨span ++ e :: middle, last, e', rest, by simp, hleft, hlast⟩

theorem blockStart_cases {start : List Glyph} (hl : Laid input) (hne : input ≠ [])
    (h : blockStart? closing input = some start) :
    start ≠ [] ∧ (start = input ∨ ∃ e, e.ends = true ∧ input = e :: start) := by
  unfold blockStart? at h
  split at h
  · rename_i hnil
    obtain ⟨span, e, rest, hin, he, rfl, hrest⟩ := hl.restOfLine hne
    rw [hrest] at hnil
    obtain rfl := List.map_eq_nil_iff.1 hnil
    obtain ⟨rfl, hstart⟩ := Glyph.nextLine_ending he h
    exact ⟨hstart, .inr ⟨e, he, rfl⟩⟩
  · cases h
    exact ⟨hne, .inl rfl⟩

theorem block_covers {read : List Token × List Glyph} (hl : Laid (span ++ input)) (hs : Inside span)
    (hne : span ≠ []) (hv : t.value = span.map Glyph.char) (hp : t.pos = place (span ++ input))
    (hk : t.kind = .blockRemark ∨ t.value = blockSign) (h : block closing t input = .ok read)
    (hm : Covers closing read.1.isEmpty read.2 more) : Covers closing true (span ++ input) (read.1 ++ more) := by
  have hinput : input ≠ [] := hl.ne_nil hs (by simp [hne])
  unfold block at h
  split at h
  · cases h
  · rename_i start hstart
    obtain ⟨lines, hlines, rfl⟩ := Outcome.map_eq_ok_iff.1 h
    obtain ⟨hstart, hcases⟩ := blockStart_cases hl.append_right hinput hstart
    have hls : Laid start := by
      rcases hcases with rfl | ⟨e, -, rfl⟩
      · exact hl.append_right
      · exact hl.append_right.tail
    by_cases hkind : t.kind = .blockRemark
    · rw [if_pos hkind] at hm ⊢
      refine .token (by simp [Token.IsText, Kind.isText, hkind]) hs hinput hv hp ?_
      have hcov (f : Bool) : Covers closing f start (lines.1 ++ more) :=
        blockLines_covers hls hstart hlines hm f
      rcases hcases with rfl | ⟨e, he, rfl⟩
      · exact hcov false
      · exact .ending he (hcov true)
    · rw [if_neg hkind] at hm ⊢
      obtain ⟨middle, last, e, rest, hregion, hleft, hin, hsign, he⟩ :=
        blockLines_region hls hstart hlines
      have hvalue : t.value = blockSign := hk.resolve_left hkind
      rw [hleft] at hm
      obtain ⟨middle', rfl⟩ : ∃ middle', input = middle' ++ last ++ e :: rest := by
        rcases hcases with rfl | ⟨e', -, rfl⟩
        · exact ⟨middle, hregion⟩
        · exact ⟨e' :: middle, by rw [hregion]; rfl⟩
      rw [← List.append_assoc, ← List.append_assoc]
      exact .block hs (hv ▸ hvalue) hin (hsign.trans hvalue) he hm

/-! ### Items of DATA -/

theorem quotedTail_span (hl : Laid input) : ∃ span, input = span ++ (quotedTail input).2 ∧
    Inside span ∧ (quotedTail input).1 = span.map Glyph.char := by
  induction input with
  | nil => exact ⟨[], rfl, by simp [Inside], rfl⟩
  | cons g rest ih =>
    simp only [quotedTail]
    split
    · exact ⟨[], rfl, by simp [Inside], rfl⟩
    · rename_i hg
      have hin : g.ends = false := by
        rw [Bool.eq_false_iff]
        exact fun hends => hg ((hl.apt g List.mem_cons_self).marks.2 hends)
      split
      · rename_i hquote
        exact ⟨[g], rfl, by simpa [Inside] using hin, by simp [hquote]⟩
      · obtain ⟨span, hrest, hspan, htext⟩ := ih hl.tail
        refine ⟨g :: span, ?_, Glyph.inside_cons.2 ⟨hin, hspan⟩, ?_⟩
        · rw [List.cons_append, ← hrest]
        · rw [htext, List.map_cons]

theorem dataPart_span {part : Text} (hl : Laid (span ++ g :: rest)) (hs : Inside span)
    (hg : g.char ≠ endMark) (hv : part = span.map Glyph.char) : ∃ item,
      span ++ g :: rest = item ++ (dataPart part g rest).2 ∧ Inside item ∧
        (dataPart part g rest).1 = item.map Glyph.char ∧ (dataPart part g rest).2 ≠ [] ∧
        (Glyph.restOfLine (g :: rest)).2 = (Glyph.restOfLine (dataPart part g rest).2).2 := by
  have hin : g.ends = false := by
    rw [Bool.eq_false_iff]
    exact fun hends => hg ((hl.apt g (by simp)).marks.2 hends)
  obtain ⟨item, hsplit, hitem, htext⟩ : ∃ item, span ++ g :: rest = item ++ (dataPart part g rest).2 ∧
      Inside item ∧ (dataPart part g rest).1 = item.map Glyph.char := by
    unfold dataPart
    split
    · rename_i hq
      obtain rfl : span = [] := List.map_eq_nil_iff.1 (hv ▸ hq.1)
      obtain ⟨tail, hrest, htail, htext⟩ := quotedTail_span hl.tail
      refine ⟨g :: tail, ?_, Glyph.inside_cons.2 ⟨hin, htail⟩, ?_⟩
      · rw [List.nil_append, List.cons_append, ← hrest]
      · rw [htext, List.map_cons, hq.2]
    · refine ⟨span ++ [g], by simp, ?_, by simp [hv]⟩
      intro u hu
      rcases List.mem_append.1 hu with hu | hu
      · exact hs u hu
      · rw [List.mem_singleton.1 hu]
        exact hin
  refine ⟨item, hsplit, hitem, htext, ?_, ?_⟩
  · exact Laid.ne_nil (hsplit ▸ hl) hitem (by simp [← hsplit])
  · have hrest := congrArg (fun l => (Glyph.restOfLine l).2) hsplit
    simpa only [Glyph.restOfLine_append hs, Glyph.restOfLine_append hitem] using hrest

theorem comma_covers (hl : Laid (span ++ input)) (hs : Inside span) (hne : input ≠ [])
    (hcomma : (span.map Glyph.char).getLast? = some ',') (hm : Covers closing false input more) :
    Covers closing false (span ++ input)
      (⟨.dataField, (span.map Glyph.char).dropLast, place (span ++ input)⟩ ::
        ⟨.symbol, ",", (place input).withCol ((place input).col - 1)⟩ :: more) := by
  rw [List.getLast?_map, Option.map_eq_some_iff] at hcomma
  obtain ⟨c, hc, hcomma⟩ := hcomma
  obtain ⟨item, rfl⟩ := List.getLast?_eq_some_iff.1 hc
  have hitem : Inside item := fun g hg => hs g (List.mem_append_left _ hg)
  have hin : Inside [c] := fun g hg => hs g (List.mem_append_right _ hg)
  rw [List.append_assoc] at hl ⊢
  refine .token rfl hitem (by simp) (by simp) rfl ?_
  refine .token rfl hin hne (by simp [hcomma]) ?_ hm
  have hplace := hl.append_right.place_append hin
  simp only [hplace, Position.withCol, List.length_singleton]
  rw [Nat.cast_one, Int.add_sub_cancel]

/-- Whether the item read at `input` is what stands in front of it on the line. -/
structure InItem (span input : List Glyph) (start : Position) (joined part : Text) : Prop where
  laid : Laid (span ++ input)
  inside : Inside span
  left : input ≠ []
  earlier : joined = []
  text : part = span.map Glyph.char
  start : start = place (span ++ input)

/-- Whether a step over items covers `whole` with its tokens and those behind them, unless the items go
on behind `later`. -/
def StepCovers (closing : Nat) (whole later : List Glyph) : ItemStep → Prop
  | .last ts left => ∀ more, Covers closing false left more → Covers closing false whole (ts ++ more)
  | .next ts s joined part left => later.length ≤ left.length →
    ∃ span, InItem span left s joined part ∧ (part ≠ [] → endsData left = false) ∧
      later = (Glyph.restOfLine left).2 ∧
      ∀ more, Covers closing false (span ++ left) more → Covers closing false whole (ts ++ more)

section Items

variable {start : Position} {joined part : Text}

theorem itemPart_covers (h : InItem span left start joined part) :
    StepCovers closing (span ++ left) (Glyph.restOfLine left).2 (itemPart closing start joined part left) := by
  have hcomma (hlast : (part.getLast? == some ',') = true) (more : List Token)
      (hm : Covers closing false left more) :
      Covers closing false (span ++ left) (⟨.dataField, joined ++ part.dropLast, start⟩ ::
        ⟨.symbol, ",", (place left).withCol ((place left).col - 1)⟩ :: more) := by
    rw [h.text] at hlast
    have hcov := comma_covers h.laid h.inside h.left (eq_of_beq hlast) hm
    rwa [← h.text, ← h.start, ← List.nil_append part.dropLast, ← h.earlier] at hcov
  unfold itemPart
  split
  · rename_i hopen
    rw [Bool.and_eq_true, Bool.not_eq_true'] at hopen
    exact fun _ => ⟨span, h, fun _ => by simpa using hopen.2, rfl, fun more hm => hm⟩
  split
  · -- an item that goes on in the next line ends behind the end of this one
    rename_i next hnext
    intro hlong
    unfold continued? at hnext
    split at hnext
    · exact absurd hlong (Nat.not_le.2 (Glyph.length_nextLine_rest hnext))
    · cases hnext
  dsimp only
  split
  · rename_i hlast
    split
    · exact hcomma hlast
    · exact fun _ => ⟨[], ⟨h.laid.append_right, by simp [Inside], h.left, rfl, rfl, rfl⟩, by simp, rfl,
        hcomma hlast⟩
  · exact fun more hm => .token rfl h.inside h.left (by rw [h.earlier]; exact h.text) h.start hm

theorem itemStep_covers (h : InItem span input start joined part)
    (hpart : part ≠ [] → endsData input = false) :
    StepCovers closing (span ++ input) (Glyph.restOfLine input).2
      (itemStep closing start joined part input) := by
  cases input with
  | nil => exact absurd rfl h.left
  | cons g rest =>
    rw [itemStep]
    split
    · rename_i hg
      intro more hm
      rw [if_pos h.earlier]
      by_cases hnil : part = []
      · obtain rfl : span = [] := List.map_eq_nil_iff.1 (h.text.symm.trans hnil)
        exact hm
      · simpa [endsData, hg] using hpart hnil
    rename_i hg
    have hin : g.ends = false := by
      rw [Bool.eq_false_iff]
      exact fun hends => hg ((h.laid.apt g (by simp)).marks.2 hends)
    split
    · rename_i hblank
      intro _
      have hrest : rest ≠ [] := h.laid.append_right.tail_ne_nil hin
      refine ⟨[], ⟨h.laid.append_right.tail, by simp [Inside], hrest, h.earlier, rfl, rfl⟩, by simp,
        by rw [Glyph.restOfLine_cons hin], fun more hm => ?_⟩
      rw [List.append_cons]
      refine Covers.blanks hm ?_ ?_
      · intro u hu
        rcases List.mem_append.1 hu with hu | hu
        · exact h.inside u hu
        · rw [List.mem_singleton.1 hu]
          exact hin
      · intro u hu
        refine List.all_eq_true.1 hblank _ ?_
        rw [h.text, ← List.map_singleton, ← List.map_append]
        exact List.mem_map_of_mem hu
    · obtain ⟨span', hsplit, hspan, htext, hleft, hrest⟩ := dataPart_span h.laid h.inside hg h.text
      have hitem : InItem span' (dataPart part g rest).2 start joined (dataPart part g rest).1 :=
        ⟨hsplit ▸ h.laid, hspan, hleft, h.earlier, htext, hsplit ▸ h.start⟩
      rw [hsplit, hrest]
      exact itemPart_covers hitem

theorem dataItems_covers (h : InItem span input start joined part)
    (hpart : part ≠ [] → endsData input = false)
    (hstay : (Glyph.restOfLine input).2 <:+ (dataItems closing start joined part input).2)
    (hm : Covers closing false (dataItems closing start joined part input).2 more) :
    Covers closing false (span ++ input) ((dataItems closing start joined part input).1 ++ more) := by
  obtain ⟨n, hn⟩ : ∃ n, input.length = n := ⟨_, rfl⟩
  induction n using Nat.strong_induction_on generalizing span input start joined part more with
  | _ n ih =>
    have hcovers : StepCovers closing (span ++ input) (Glyph.restOfLine input).2
        (itemStep closing start joined part input) := itemStep_covers h hpart
    rw [dataItems_step] at hstay hm ⊢
    generalize hstep : itemStep closing start joined part input = step at *
    cases step with
    | last ts left => exact hcovers more hm
    | next ts s' joined' part' left =>
      have hshort := itemStep_shorter hstep
      have hlong := hstay.length_le.trans (length_dataItems closing s' joined' part' left)
      obtain ⟨span', hitem, hopen, hlater, hcov⟩ := hcovers hlong
      rw [hlater] at hstay
      have hmore := ih _ (by omega) hitem hopen hstay hm rfl
      simpa [ItemStep.run] using hcov _ hmore

end Items

theorem dataFields_covers (hl : Laid input) (hne : input ≠ [])
    (hstay : (Glyph.restOfLine input).2 <:+ (dataFields closing input).2)
    (hm : Covers closing false (dataFields closing input).2 more) :
    Covers closing false input ((dataFields closing input).1 ++ more) := by
  have hsplit := List.takeWhile_append_dropWhile (p := fun g : Glyph => g.char == ' ') (l := input)
  have hblank : ∀ g ∈ input.takeWhile (fun g => g.char == ' '), g.char = ' ' := fun g hg => by
    simpa using List.mem_takeWhile_imp hg
  have hin : Inside (input.takeWhile fun g => g.char == ' ') := by
    rw [← hsplit] at hl
    refine hl.inside fun hmem => ?_
    obtain ⟨g, hg, hchar⟩ := List.mem_map.1 hmem
    rw [hblank g hg] at hchar
    exact absurd hchar (by decide)
  rw [← hsplit] at hl hne
  rw [← hsplit, Glyph.restOfLine_append hin, hsplit] at hstay
  have hbody := hl.ne_nil hin hne
  have hcov : Covers closing false (input.dropWhile fun g => g.char == ' ')
      ((dataFields closing input).1 ++ more) := by
    unfold dataFields at hm hstay ⊢
    dsimp only at hm hstay ⊢
    split
    · rename_i hends
      rw [if_pos hends] at hm
      exact hm
    · rename_i hends
      rw [if_neg hends] at hm hstay
      have hitem : InItem [] (input.dropWhile fun g => g.char == ' ')
          (place (input.dropWhile fun g => g.char == ' ')) [] [] :=
        ⟨hl.append_right, by simp [Inside], hbody, rfl, rfl, rfl⟩
      exact dataItems_covers hitem (by simp) hstay hm
  have hall := hcov.blanks hin fun g hg => by
    rw [hblank g hg]
    decide
  rwa [hsplit] at hall

/-! ### One token after the other -/

def next? (d : Dialect) (closing : Nat) (last : Kind) : List Glyph → Option (Kind × List Glyph)
  | [] => none
  | g :: rest =>
    match scan d g rest with
    | .error _ => none
    | .ok (t, left) =>
      if t.kind = .spaces then some (last, left)
      else
        match complete d closing last t left with
        | .error _ => none
        | .ok (tokens, left') => some ((tokens.getLast?.map Token.kind).getD last, left')

def Comes (d : Dialect) (closing : Nat) : Kind × List Glyph → Kind × List Glyph → Prop :=
  Relation.ReflTransGen fun at' at'' => next? d closing at'.1 at'.2 = some at''

/-- Whether the items of every DATA statement end on the line of their statement. -/
def DataStays (d : Dialect) (closing : Nat) (last : Kind) (input : List Glyph) : Prop :=
  ∀ last' g rest t left, Comes d closing (last, input) (last', g :: rest) →
    scan d g rest = .ok (t, left) → t.kind = .data →
      (Glyph.restOfLine left).2 <:+ (dataFields closing left).2

variable {last last' : Kind} {k : Kind}

theorem DataStays.next (h : DataStays d closing last input)
    (hn : next? d closing last input = some (last', left)) : DataStays d closing last' left :=
  fun _ _ _ _ _ hc => h _ _ _ _ _ (.head hn hc)

theorem DataStays.here (h : DataStays d closing last (g :: rest)) (hs : scan d g rest = .ok (t, left))
    (hk : t.kind = .data) : (Glyph.restOfLine left).2 <:+ (dataFields closing left).2 :=
  h _ _ _ _ _ .refl hs hk

/-- Whether the items of DATA end on their line, as far as `n` tokens tell. -/
def staysFor (d : Dialect) (closing : Nat) : Nat → Kind → List Glyph → Bool
  | 0, _, _ => false
  | n + 1, last, input =>
    (match input with
      | [] => true
      | g :: rest =>
        match scan d g rest with
        | .error _ => true
        | .ok (t, left) =>
          t.kind != .data || (Glyph.restOfLine left).2.isSuffixOf (dataFields closing left).2) &&
      match next? d closing last input with
      | none => true
      | some (last', left) => staysFor d closing n last' left

theorem dataStays_of_staysFor {n : Nat} (h : staysFor d closing n last input = true) :
    DataStays d closing last input := by
  intro last' g rest t left hc hs hk
  induction n generalizing last input with
  | zero => cases h
  | succ n ih =>
    simp only [staysFor, Bool.and_eq_true] at h
    rcases hc.cases_head with heq | ⟨⟨k, more⟩, hstep, hc⟩
    · obtain ⟨rfl, rfl⟩ := Prod.mk.inj heq
      have hhere := h.1
      simp only [hs, hk, bne_self_eq_false, Bool.false_or, List.isSuffixOf_iff_suffix] at hhere
      exact hhere
    · have hmore := h.2
      dsimp only at hstep
      rw [hstep] at hmore
      exact ih hmore hc

theorem block_last {read : List Token × List Glyph} (hk : t.kind ≠ .newline)
    (h : block closing t input = .ok read) :
    ((read.1.getLast?.map Token.kind).getD .newline == .newline) = read.1.isEmpty := by
  cases hlast : read.1.getLast? with
  | none =>
    rw [List.getLast?_eq_none_iff.1 hlast]
    rfl
  | some u =>
    have hmem := List.mem_of_getLast? hlast
    have hkind : u.kind ≠ .newline := by
      rcases (block_spec h).1 u hmem with rfl | hu | hu
      · exact hk
      · simp [hu]
      · simp [hu]
    cases hread : read.1 with
    | nil => simp [hread] at hmem
    | cons => simpa using hkind

theorem pair_covers {u : Token} (htt : t.IsText) (hut : u.IsText) (hl : Laid (g :: span ++ input))
    (hs : Inside (g :: span))
    (hinput : input ≠ []) (ht : t.value = [g.char]) (hp : t.pos = g.pos)
    (hu : u.value = span.map Glyph.char) (hup : u.pos = t.pos.withCol (t.pos.col + 1))
    (hm : Covers closing false input more) :
    Covers closing fresh (g :: span ++ input) (t :: u :: more) := by
  obtain ⟨hg, hspan⟩ := Glyph.inside_cons.1 hs
  have hnext : place (span ++ input) = g.pos.withCol (g.pos.col + 1) := hl.place_tail hg
  have hfirst : Inside [g] := by simpa [Inside] using hg
  refine @Covers.token _ _ [g] (span ++ input) _ _ htt hfirst (by simp [hinput]) ht hp ?_
  exact .token hut hspan hinput hu (by rw [hup, hp, hnext]) hm

theorem isText_of_classify {v : Text} {pos : Position} (h : d.classify v = some k) (hk : k ≠ .newline) :
    Token.IsText ⟨k, v, pos⟩ := by
  have hread := Dialect.isRead_of_classify h
  cases k <;> first | rfl | exact absurd rfl hk | cases hread

theorem name_isText {name : Text} {pos : Position} (h : '\r' ∉ name) :
    Token.IsText ⟨(d.classify name).getD .identifier, name, pos⟩ := by
  cases hcl : d.classify name with
  | none => rfl
  | some k =>
    refine isText_of_classify hcl ?_
    rintro rfl
    obtain ⟨hne, hall⟩ := Dialect.accepts_newline hcl
    obtain ⟨c, name, rfl⟩ := List.exists_cons_of_ne_nil hne
    exact h (by simp [hall c])

/-- Whether a token is what stands in front of `input` on its line. -/
structure StandsAt (t : Token) (span input : List Glyph) : Prop where
  laid : Laid (span ++ input)
  ne_nil : span ≠ []
  inside : Inside span
  left : input ≠ []
  text : t.IsText
  value : t.value = span.map Glyph.char
  pos : t.pos = place (span ++ input)

section Complete

variable {tail : List Glyph}

theorem StandsAt.covers (h : StandsAt t span input) (hm : Covers closing false input more) :
    Covers closing fresh (span ++ input) (t :: more) :=
  .token h.text h.inside h.left h.value h.pos hm

theorem tag_covers {name : Text} (h : StandsAt t span input) (hv : t.value = '#' :: name)
    (hreturn : '\r' ∉ t.value) (hm : Covers closing false input more) :
    Covers closing fresh (span ++ input) (⟨.symbol, ['#'], t.pos⟩ ::
      ⟨(d.classify name).getD .identifier, name, t.pos.withCol (t.pos.col + 1)⟩ :: more) := by
  obtain ⟨g, span, rfl⟩ := List.exists_cons_of_ne_nil h.ne_nil
  obtain ⟨hchar, hchars⟩ : '#' = g.char ∧ name = span.map Glyph.char := by
    simpa [hv] using h.value
  have hname : Token.IsText ⟨(d.classify name).getD .identifier, name, t.pos.withCol (t.pos.col + 1)⟩ :=
    name_isText fun hmem => hreturn (hv ▸ List.mem_cons_of_mem _ hmem)
  exact pair_covers rfl hname h.laid h.inside h.left (congrArg (fun c => [c]) hchar) h.pos hchars rfl hm

/-- An apostrophe and the remark behind it, where two of them open no block. -/
theorem apostrophe_covers (h : StandsAt t span (tail ++ e :: rest)) (htail : Inside tail)
    (hv : t.value = "''") (hm : Covers closing false (e :: rest) more) :
    Covers closing fresh (span ++ (tail ++ e :: rest)) (⟨.remark, "'", t.pos⟩ ::
      ⟨.remarkText, "'" ++ tail.map Glyph.char, t.pos.withCol (t.pos.col + 1)⟩ :: more) := by
  have hvalue := hv.symm.trans h.value
  obtain ⟨a, b, rfl⟩ : ∃ a b, span = [a, b] := by
    refine List.length_eq_two.1 ?_
    simpa using (congrArg List.length hvalue).symm
  obtain ⟨ha, hb⟩ : '\'' = a.char ∧ '\'' = b.char := by simpa using hvalue
  have hin : Inside (a :: b :: tail) :=
    Glyph.inside_cons.2 ⟨h.inside a (by simp), Glyph.inside_cons.2 ⟨h.inside b (by simp), htail⟩⟩
  show Covers closing _ (a :: (b :: tail) ++ e :: rest) _
  exact pair_covers rfl rfl h.laid hin (by simp) (congrArg (fun c => [c]) ha) h.pos
    (congrArg (fun c => c :: tail.map Glyph.char) hb) rfl hm

theorem remark_covers (h : StandsAt t span (tail ++ e :: rest)) (htail : Inside tail)
    (hm : Covers closing false (e :: rest) more) :
    Covers closing fresh (span ++ (tail ++ e :: rest))
      ((if tail.map Glyph.char = [] then [t]
        else [t, ⟨.remarkText, tail.map Glyph.char, place (tail ++ e :: rest)⟩]) ++ more) := by
  split
  · rename_i hnil
    obtain rfl := List.map_eq_nil_iff.1 hnil
    exact h.covers hm
  · exact h.covers (.token rfl htail (by simp) rfl rfl hm)

theorem comment_covers (h : StandsAt t span (tail ++ e :: rest)) (htail : Inside tail)
    (he : e.ends = true) (hsign : commentSign <+: t.value)
    (hm : Covers closing (last == .newline) (e :: rest) more) :
    Covers closing (last == .newline) (span ++ (tail ++ e :: rest)) more := by
  rw [← List.append_assoc]
  refine .comment ?_ ?_ he ?_
  · intro g hg
    rcases List.mem_append.1 hg with hg | hg
    · exact h.inside g hg
    · exact htail g hg
  · rw [List.map_append, ← h.value]
    exact hsign.trans (List.prefix_append _ _)
  · by_cases hlast : last = .newline
    · simpa [hlast] using hm
    · rw [beq_eq_false_iff_ne.2 hlast] at hm
      exact hm.refresh true

theorem string_covers (h : StandsAt t span input) (hm : Covers closing false (quotedTail input).2 more) :
    Covers closing fresh (span ++ input)
      (⟨.string, t.value ++ (quotedTail input).1, t.pos⟩ :: more) := by
  obtain ⟨body, hbody, hin, hquoted⟩ := quotedTail_span h.laid.append_right
  have hcat : span ++ input = (span ++ body) ++ (quotedTail input).2 := by
    rw [List.append_assoc, ← hbody]
  have hl := h.laid
  have hp := h.pos
  rw [hcat] at hl hp ⊢
  have hall : Inside (span ++ body) := by
    intro g hg
    rcases List.mem_append.1 hg with hg | hg
    · exact h.inside g hg
    · exact hin g hg
  refine .token rfl hall (hl.ne_nil hall (by simp [h.ne_nil])) ?_ hp hm
  rw [h.value, hquoted, List.map_append]

theorem data_last (hk : t.kind ≠ .newline) (input : List Glyph) :
    (((t :: (dataFields closing input).1).getLast?.map Token.kind).getD last == .newline) = false := by
  rw [beq_eq_false_iff_ne, List.getLast?_eq_some_getLast (List.cons_ne_nil _ _), Option.map_some,
    Option.getD_some]
  rcases List.mem_cons.1 (List.getLast_mem (List.cons_ne_nil t _)) with hu | hu
  · rw [hu]
    exact hk
  · rcases dataFields_kind closing _ _ hu with hu | ⟨hu, -⟩
    · simp [hu]
    · simp [hu]

theorem complete_covers {read : List Token × List Glyph} (hl : Laid (span ++ input))
    (hne : span ≠ []) (hv : t.value = span.map Glyph.char) (hp : t.pos = place (span ++ input))
    (hc : d.classify t.value = some t.kind)
    (hstay : t.kind = .data → (Glyph.restOfLine input).2 <:+ (dataFields closing input).2)
    (h : complete d closing last t input = .ok read)
    (hm : Covers closing ((read.1.getLast?.map Token.kind).getD last == .newline) read.2 more) :
    Covers closing (last == .newline) (span ++ input) (read.1 ++ more) := by
  by_cases hnl : t.kind = .newline
  · -- line ends
    have hends := hl.ending (hv ▸ (Dialect.accepts_newline (hnl ▸ hc)).2)
    simp only [complete, hnl] at h
    cases h
    refine .mark (by simp [Token.IsText, Kind.isText, hnl]) (Covers.endings ?_ hends hne)
    simpa [hnl] using hm
  have hreturn : '\r' ∉ t.value := Dialect.not_mem_return hc hnl (by simp [hv, hne])
  have hs : Inside span := hl.inside (hv ▸ hreturn)
  have hinput : input ≠ [] := hl.ne_nil hs (by simp [hne])
  have ht : StandsAt t span input := ⟨hl, hne, hs, hinput, isText_of_classify hc hnl, hv, hp⟩
  have halone : (t.kind == .newline) = false := beq_eq_false_iff_ne.2 hnl
  obtain ⟨tail, e, rest, htail, he, rfl, hrest⟩ := hl.append_right.restOfLine hinput
  have opened (hsign : t.kind = .blockRemark ∨ t.value = blockSign) (hlast : last = .newline)
      (hblock : block closing t (tail ++ e :: rest) = .ok read) :
      Covers closing (last == .newline) (span ++ (tail ++ e :: rest)) (read.1 ++ more) := by
    rw [hlast, block_last hnl hblock] at hm
    rw [hlast]
    exact block_covers hl hs hne hv hp hsign hblock hm
  unfold complete at h
  split at h
  case h_1 hk =>
    split at h
    · rename_i symbol name _ hsplit
      cases h
      obtain ⟨rfl, hname⟩ := splitToggle_eq hsplit
      have hkind := (name_isText fun hmem => hreturn (hname ▸ List.mem_cons_of_mem _ hmem) :
        Token.IsText ⟨(d.classify name).getD .identifier, name, t.pos⟩).ne_newline
      exact tag_covers ht hname hreturn (by simpa [hkind] using hm)
    · cases h
      exact ht.covers (by simpa [halone] using hm)
  case h_2 hk =>
    split at h
    · exact opened (.inl hk) ‹_› h
    · simp only [hrest] at h
      cases h
      exact apostrophe_covers ht htail (Dialect.classify_opening.2.2 (hk ▸ hc)) hm
  case h_3 hk =>
    have hvalue : t.value = blockSign := Dialect.classify_opening.2.1 (hk ▸ hc)
    split at h
    · exact opened (.inr hvalue) ‹_› h
    · simp only [hrest] at h
      cases h
      exact comment_covers ht htail he (by rw [hvalue]; decide) hm
  case h_4 hk =>
    simp only [hrest] at h
    cases h
    have hvalue : t.value = commentSign := Dialect.classify_opening.1 (hk ▸ hc)
    exact comment_covers ht htail he (by rw [hvalue]) hm
  case h_5 hk =>
    simp only [hrest] at h
    cases h
    refine remark_covers ht htail ?_
    dsimp only at hm
    split at hm
    · simpa [halone] using hm
    · exact hm
  case h_6 hk =>
    cases h
    exact string_covers ht hm
  case h_7 hk =>
    cases h
    exact ht.covers (dataFields_covers hl.append_right hinput (hstay hk) (data_last hnl _ ▸ hm))
  case h_8 =>
    cases h
    exact ht.covers (by simpa [halone] using hm)

end Complete

theorem lexFrom_covers (hl : Laid input) (hstay : DataStays d closing last input)
    (h : lexFrom d closing last input = .ok tokens) :
    Covers closing (last == .newline) input tokens := by
  fun_induction lexFrom d closing last input generalizing tokens with
  | case1 =>
    cases h
    exact .done (Nat.zero_le _) (by simp [Token.IsText, Kind.isText])
  | case2 last g rest hlt =>
    cases h
    exact .done hlt (by simp [Token.IsText, Kind.isText])
  | case3 => cases h
  | case4 last g rest hlt t left hs hk =>
    rename_i ih
    have hnext : next? d closing last (g :: rest) = some (last, left) := by
      simp [next?, hs, hk]
    obtain ⟨span, hsplit, hne, hv, hp⟩ := scan_span hs
    have hc := scan_classified hs
    have hblank := Dialect.accepts_spaces (hk ▸ hc)
    rw [hsplit] at hl ⊢
    have hin : Inside span := by
      refine hl.inside ?_
      rw [← hv]
      exact Dialect.not_mem_return hc (by simp [hk]) (by simp [hv, hne])
    refine Covers.blanks (ih hl.append_right (hstay.next hnext) h) hin fun u hu => ?_
    exact hblank _ (hv ▸ List.mem_map_of_mem hu)
  | case5 => cases h
  | case6 => cases h
  | case7 last g rest hlt t left hs hk hb read left' hc last' =>
    rename_i ih
    obtain ⟨more, hm, rfl⟩ := Outcome.map_eq_ok_iff.1 h
    have hnext : next? d closing last (g :: rest) = some (last', left') := by
      simp [next?, hs, hk, hc, last']
    obtain ⟨span, hsplit, hne, hv, hp⟩ := scan_span hs
    have hleft : left' <:+ left := complete_suffix hc
    have hpos : t.pos = place (span ++ left) := by
      rw [← hsplit]
      exact hp
    have hlaid : Laid (span ++ left) := hsplit ▸ hl
    rw [hsplit]
    exact complete_covers hlaid hne hv hpos (scan_classified hs) (hstay.here hs) hc
      (ih (hlaid.append_right.suffix hleft) (hstay.next hnext) hm)

end Lexer

end ClassicBasic
