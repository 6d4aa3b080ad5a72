import ClassicBasic.Proofs.Case
import ClassicBasic.Proofs.Lexical
import Mathlib.Data.List.Chain

/-!
# What may follow a remark

A remark goes on to the end of its line, and so does a string that is not closed: code behind them
would be swallowed. Lexing puts nothing there, since the rest of the line is read into them, unless
REM is the name of a tag that is taken apart.
-/

set_option autoImplicit false

namespace ClassicBasic

namespace Kind

def isOver : Kind → Bool
  | .remark | .remarkText | .string | .eof => false
  | _ => true

def isInside : Kind → Bool
  | .newline | .eof | .remarkText => false
  | _ => true

end Kind

def Enclosed (v : Text) : Prop := 2 ≤ v.length ∧ v.head? = some '"' ∧ v.getLast? = some '"'

instance (v : Text) : Decidable (Enclosed v) := inferInstanceAs (Decidable (_ ∧ _))

namespace Token

/-- Whether a token is over where it ends, so that more code may follow. -/
def Closed (t : Token) : Prop := t.kind.isOver = true ∨ (t.kind = .string ∧ Enclosed t.value)

instance (t : Token) : Decidable t.Closed := inferInstanceAs (Decidable (_ ∨ _))

def Before (t u : Token) : Prop :=
  t.Closed ∨ (t.kind ≠ .eof ∧ u.endsLine = true) ∨ (t.kind = .remark ∧ u.kind = .remarkText)

variable {t u : Token}

theorem closed_of_kind {k : Kind} (hk : t.kind = k) (h : k.isOver = true) : t.Closed :=
  .inl (hk ▸ h)

theorem Before.closed (h : t.Before u) (hu : u.kind.isInside = true) : t.Closed := by
  rcases h with h | ⟨-, h⟩ | ⟨-, h⟩
  · exact h
  · cases hk : u.kind <;> simp_all [endsLine, Kind.isInside]
  · rw [h] at hu
    cases hu

theorem Closed.isInside (h : t.Closed) (hn : t.kind ≠ .newline) : t.kind.isInside = true := by
  rcases h with h | ⟨h, -⟩
  · cases hk : t.kind <;> simp_all [Kind.isOver, Kind.isInside]
  · rw [h]
    rfl

def SplitsTag (t u : Token) : Prop := t.value = ['#'] ∧ u.kind = .remark

instance (t u : Token) : Decidable (SplitsTag t u) := inferInstanceAs (Decidable (_ ∧ _))

end Token

def Sealed (l : List Token) : Prop := l.IsChain Token.Before

def lineOver : List Token → Bool
  | [] => true
  | t :: _ => t.endsLine

def pastText : List Token → List Token
  | [] => []
  | t :: rest => if t.kind = .remarkText then rest else t :: rest

/-- Whether no code stands behind a remark, whose text may follow it, or behind a string without its
quotes on the same line. -/
def Unswallowed : List Token → Prop
  | [] => True
  | t :: rest =>
    (t.kind = .remark → lineOver (pastText rest) = true) ∧
      (t.kind = .string → ¬Enclosed t.value → lineOver rest = true) ∧ Unswallowed rest

instance decidableUnswallowed : (l : List Token) → Decidable (Unswallowed l)
  | [] => .isTrue trivial
  | _ :: rest =>
    have := decidableUnswallowed rest
    inferInstanceAs (Decidable (_ ∧ _ ∧ _))

theorem Sealed.unswallowed {l : List Token} (h : Sealed l) : Unswallowed l := by
  induction l with
  | nil => trivial
  | cons t rest ih =>
    refine ⟨fun hk => ?_, fun hk hv => ?_, ih h.tail⟩
    · have open' : ¬t.Closed := by simp [Token.Closed, hk, Kind.isOver]
      cases rest with
      | nil => rfl
      | cons u more =>
        rcases h.rel with hc | ⟨-, hu⟩ | ⟨-, hu⟩
        · exact absurd hc open'
        · cases huk : u.kind <;> simp_all [pastText, lineOver, Token.endsLine]
        · -- behind the text of a remark there is nothing but the end of the line
          rw [pastText, if_pos hu]
          cases more with
          | nil => rfl
          | cons w more =>
            rcases h.tail.rel with hc | ⟨-, hw⟩ | ⟨hr, -⟩
            · simp [Token.Closed, hu, Kind.isOver] at hc
            · exact hw
            · simp [hu] at hr
    · cases rest with
      | nil => rfl
      | cons u more =>
        rcases h.rel with hc | ⟨-, hu⟩ | ⟨hr, -⟩
        · simp [Token.Closed, hk, Kind.isOver, hv] at hc
        · exact hu
        · simp [hk] at hr

namespace Text

/-- Texts that are the same up to letter case start with the same sign. -/
theorem sameLetters_cons {s t : Text} {c : Char} (h : sameLetters s (c :: t) = true)
    (hc : c.toNat < 0x80) (hu : c.isUpper = false) (hl : c.isLower = false) (h0 : c ≠ '\x00') :
    ∃ more, s = c :: more ∧ sameLetters more t = true := by
  cases s with
  | nil => cases h
  | cons a more =>
    simp only [sameLetters, Bool.and_eq_true, beq_iff_eq] at h
    have hself : foldChar c = c := by
      rw [foldChar, if_pos hc]
      unfold Char.toLower
      split
      · rename_i hrange
        have hupper : c.isUpper = true := decide_eq_true hrange
        rw [hu] at hupper
        cases hupper
      · rfl
    exact ⟨more, by rw [foldChar_eq (h.1.trans hself) hc hl h0], h.2⟩

end Text

/-- Whether no text of a shape starts with a line end, as can be told from its first sign. -/
def Shape.refusesReturn : Shape → Bool
  | .lineEnds => false
  | .words plain numbered => (plain ++ numbered).all fun w => !w.contains '\r'
  | .name lead _ => lead.head? != some '\r'
  | _ => true

open Grammar in
theorem Shape.not_accepts_return {s : Shape} {v : Text} (h : s.refusesReturn = true) :
    s.accepts ('\r' :: v) = false := by
  have hletter : isLetter '\r' = false := by decide
  cases s with
  | lineEnds => cases h
  | blank => cases v <;> simp [accepts]
  | words plain numbered =>
    have hword {w t : Text} (hw : w ∈ plain ++ numbered) :
        Text.sameLetters w ('\r' :: t) = false := by
      rw [Bool.eq_false_iff]
      intro hs
      obtain ⟨more, rfl, -⟩ :=
        Text.sameLetters_cons hs (by decide) (by decide) (by decide) (by decide)
      have hnone := List.all_eq_true.1 h _ hw
      simp at hnone
    have hplain : ∀ w ∈ plain, Text.sameLetters w ('\r' :: v) = false := fun w hw =>
      hword (List.mem_append_left _ hw)
    have hnumbered : ∀ w ∈ numbered, isNumbered w ('\r' :: v) = false := by
      intro w hw
      have hmem : w ∈ plain ++ numbered := List.mem_append_right _ hw
      unfold isNumbered
      rw [hword hmem, Bool.false_or]
      cases v with
      | nil => simp [Char.isDigit]
      | cons c v =>
        rw [List.dropLast_cons_cons, hword hmem]
        split <;> simp
    simp only [accepts, Bool.or_eq_false_iff, List.any_eq_false, Bool.not_eq_true]
    exact ⟨hplain, hnumbered⟩
  | name lead typed =>
    cases lead with
    | nil => simp [accepts, after, isName, hletter]
    | cons c lead =>
      have hc : c ≠ '\r' := by simpa [refusesReturn] using h
      simp [accepts, after, hc]
  | number form => cases v <;> simp [accepts, isDecimal, isBased, Char.isDigit]
  | baseMark form => cases v <;> simp [accepts, isBaseMark]

namespace Dialect

variable {d : Dialect} {v : Text} {k : Kind}

theorem classify_return (h : d.classify ('\r' :: v) = some k) : k = .newline := by
  obtain ⟨r, hr, rfl, ha⟩ := classify_rule h
  have hall : ∀ r ∈ d.grammar, r.kind = .newline ∨ r.shape.refusesReturn = true := by
    rw [grammar_spelled]
    cases d <;> decide
  rcases hall r hr with hk | hs
  · exact hk
  · rw [Shape.not_accepts_return hs] at ha
    cases ha

theorem classify_quote (h : d.classify v = some .quote) : v = ['"'] := by
  obtain ⟨r, hr, hk, ha⟩ := classify_rule h
  have hall : ∀ r ∈ d.grammar, r.kind = .quote → r.shape = .words ["\""] [] := by
    cases d <;> decide
  rw [hall r hr hk] at ha
  simp only [Shape.accepts, List.any_cons, List.any_nil, Bool.or_false] at ha
  exact Text.eq_of_sameLetters (by decide) ha

end Dialect

namespace Glyph

def Marked (input : List Glyph) : Prop := ∀ g ∈ input, g.ends = true → g.char = endMark

def Over (input : List Glyph) : Prop := ∀ g ∈ input.head?, g.char = endMark

variable {input : List Glyph}

theorem Marked.suffix {left : List Glyph} (h : Marked input) (hs : left <:+ input) : Marked left :=
  fun g hg => h g (hs.mem hg)

theorem restOfLine_suffix (input : List Glyph) : (restOfLine input).2 <:+ input :=
  List.dropWhile_suffix _

theorem restOfLine_over (h : Marked input) : Over (restOfLine input).2 := by
  intro g hg
  have hmem : g ∈ input := (restOfLine_suffix input).mem (List.mem_of_mem_head? hg)
  refine h g hmem ?_
  have hends := List.head?_dropWhile_not (fun g : Glyph => !g.ends) input
  rw [show (input.dropWhile fun g => !g.ends).head? = some g from hg] at hends
  simpa using hends

theorem nextLine_suffix {closing : Nat} {next : List Glyph}
    (h : nextLine? closing input = some next) : next <:+ input := by
  unfold nextLine? at h
  dsimp only at h
  split at h
  · cases h
    exact (List.drop_suffix 1 _).trans (List.dropWhile_suffix _)
  · cases h

theorem ofLine_marked (l : Line) : Marked (ofLine l) := by
  have hspread (line : Nat) (text file : Text) (col : Int) (rest : Text) :
      Marked (spread line text file col rest) := by
    induction rest generalizing col with
    | nil => simp [Marked, spread]
    | cons c rest ih =>
      refine List.forall_mem_cons.2 ⟨by simp, ih (col + 1)⟩
  exact hspread _ _ _ _ _

theorem flatMap_marked (lines : Listing) : Marked (lines.flatMap ofLine) := by
  intro g hg
  obtain ⟨l, -, hg⟩ := List.mem_flatMap.1 hg
  exact ofLine_marked l g hg

end Glyph

namespace Lexer

open Glyph (Marked Over endMark)

variable {d : Dialect} {closing : Nat} {input : List Glyph}

theorem munch_suffix {α : Type} (char : α → Char) (taken : Text) (kind : Kind) (l : List α) :
    (munch char d taken kind l).2.2 <:+ l := by
  induction l generalizing taken kind with
  | nil => exact List.suffix_refl _
  | cons x rest ih =>
    simp only [munch]
    split
    · exact (ih _ _).trans (List.suffix_cons x rest)
    · exact List.suffix_refl _

theorem isPrefix_munch {α : Type} (char : α → Char) (taken : Text) (kind : Kind) (l : List α) :
    taken <+: (munch char d taken kind l).1 := by
  induction l generalizing taken kind with
  | nil => exact List.prefix_refl _
  | cons x rest ih =>
    simp only [munch]
    split
    · exact (List.prefix_append _ _).trans (ih _ _)
    · exact List.prefix_refl _

theorem scan_suffix {g : Glyph} {rest left : List Glyph} {t : Token}
    (h : scan d g rest = .ok (t, left)) : left <:+ rest := by
  unfold scan at h
  split at h
  · cases h
  · dsimp only at h
    split at h
    · cases h
    · cases h
      exact munch_suffix _ _ _ _

theorem scan_over {g : Glyph} {rest left : List Glyph} {t : Token} (hg : g.char = endMark)
    (h : scan d g rest = .ok (t, left)) : t.kind = .newline := by
  have hc := scan_classified h
  have hp : [g.char] <+: t.value := by
    unfold scan at h
    split at h
    · cases h
    · dsimp only at h
      split at h
      · cases h
      · cases h
        exact isPrefix_munch _ _ _ _
  obtain ⟨more, hv⟩ := hp
  rw [← hv, hg] at hc
  exact Dialect.classify_return hc

theorem quotedTail_suffix (input : List Glyph) : (quotedTail input).2 <:+ input := by
  induction input with
  | nil => exact List.suffix_refl _
  | cons g rest ih =>
    simp only [quotedTail]
    split
    · exact List.suffix_refl _
    · split
      · exact List.suffix_cons g rest
      · exact ih.trans (List.suffix_cons g rest)

theorem quotedTail_cases (input : List Glyph) :
    (∃ body, (quotedTail input).1 = body ++ ['"']) ∨ Over (quotedTail input).2 := by
  induction input with
  | nil => exact .inr (by simp [quotedTail, Over])
  | cons g rest ih =>
    simp only [quotedTail]
    split
    · rename_i hg
      exact .inr (by simpa [Over] using hg)
    · split
      · exact .inl ⟨[], rfl⟩
      · rcases ih with ⟨body, hb⟩ | ho
        · exact .inl ⟨g.char :: body, by rw [hb]; rfl⟩
        · exact .inr ho

theorem dataPart_suffix (part : Text) (g : Glyph) (rest : List Glyph) :
    (dataPart part g rest).2 <:+ g :: rest := by
  unfold dataPart
  split
  · exact (quotedTail_suffix rest).trans (List.suffix_cons g rest)
  · exact List.suffix_cons g rest

theorem continued_suffix {item : Text} {left next : List Glyph}
    (h : continued? closing item left = some next) : next <:+ left := by
  unfold continued? at h
  split at h
  · exact Glyph.nextLine_suffix h
  · cases h

theorem dataItems_suffix (start : Position) (joined part : Text) (input : List Glyph) :
    (dataItems closing start joined part input).2 <:+ input := by
  fun_induction dataItems closing start joined part input with
  | case1 => exact List.suffix_refl _
  | case2 => exact List.suffix_refl _
  | case3 _ _ _ g rest _ _ ih => exact ih.trans (List.suffix_cons g rest)
  | case4 _ _ part g rest _ _ _ _ _ _ ih => exact ih.trans (dataPart_suffix part g rest)
  | case5 _ _ part g rest _ _ _ _ _ _ _ hn ih =>
    exact ih.trans ((continued_suffix hn).trans (dataPart_suffix part g rest))
  | case6 _ _ part g rest => exact dataPart_suffix part g rest
  | case7 _ _ part g rest _ _ _ _ _ _ _ _ _ _ _ _ ih => exact ih.trans (dataPart_suffix part g rest)
  | case8 _ _ part g rest => exact dataPart_suffix part g rest

theorem dataFields_suffix (input : List Glyph) : (dataFields closing input).2 <:+ input := by
  unfold dataFields
  dsimp only
  split
  · exact List.dropWhile_suffix _
  · exact (dataItems_suffix _ _ _ _).trans (List.dropWhile_suffix _)

theorem blockLines_suffix {opener : Token} {read : List Token × List Glyph}
    (h : blockLines closing opener input = .ok read) : read.2 <:+ input := by
  fun_induction blockLines closing opener input generalizing read with
  | case1 =>
    cases h
    exact Glyph.restOfLine_suffix _
  | case2 => cases h
  | case3 input _ _ _ next hn =>
    rename_i ih
    obtain ⟨more, hm, rfl⟩ := Outcome.map_eq_ok_iff.1 h
    exact (ih hm).trans ((Glyph.nextLine_suffix hn).trans (Glyph.restOfLine_suffix input))

theorem blockStart_suffix {start : List Glyph} (h : blockStart? closing input = some start) :
    start <:+ input := by
  unfold blockStart? at h
  split at h
  · exact Glyph.nextLine_suffix h
  · cases h
    exact List.suffix_refl _

theorem block_spec {opener : Token} {read : List Token × List Glyph}
    (h : block closing opener input = .ok read) :
    (∀ t ∈ read.1, t = opener ∨ t.kind = .blockText ∨ t.kind = .blockEnd) ∧ read.2 <:+ input := by
  unfold block at h
  split at h
  · cases h
  · rename_i start hs
    obtain ⟨more, hm, rfl⟩ := Outcome.map_eq_ok_iff.1 h
    refine ⟨?_, (blockLines_suffix hm).trans (blockStart_suffix hs)⟩
    dsimp only
    split
    · exact List.forall_mem_cons.2 ⟨.inl rfl, fun t ht => .inr (blockLines_kind hm t ht)⟩
    · simp

theorem complete_suffix {last : Kind} {t : Token} {read : List Token × List Glyph}
    (h : complete d closing last t input = .ok read) : read.2 <:+ input := by
  have hrest := Glyph.restOfLine_suffix input
  unfold complete at h
  split at h
  · split at h <;> cases h <;> exact List.suffix_refl _
  · split at h
    · exact (block_spec h).2
    · cases h
      exact hrest
  · split at h
    · exact (block_spec h).2
    · cases h
      exact hrest
  · cases h
    exact hrest
  · cases h
    exact hrest
  · cases h
    exact quotedTail_suffix input
  · cases h
    exact dataFields_suffix input
  · cases h
    exact List.suffix_refl _

/-- What is read for one token leaves an end of the input. Every token is over where it ends, the last
one maybe only where the line ends as well. -/
structure Reads (input : List Glyph) (read : List Token × List Glyph) : Prop where
  suffix : read.2 <:+ input
  tokens : Sealed read.1
  last : ∀ t ∈ read.1.getLast?, t.Closed ∨ (t.kind ≠ .eof ∧ Over read.2)

theorem sealed_of_closed {l : List Token} (h : ∀ t ∈ l, t.Closed) : Sealed l := by
  induction l with
  | nil => exact List.isChain_nil
  | cons t rest ih =>
    rw [List.forall_mem_cons] at h
    exact (ih h.2).cons fun u _ => .inl h.1

theorem reads_of_closed {read : List Token × List Glyph} (hs : read.2 <:+ input)
    (h : ∀ t ∈ read.1, t.Closed) : Reads input read :=
  ⟨hs, sealed_of_closed h, fun t ht => .inl (h t (List.mem_of_mem_getLast? ht))⟩

theorem tag_reads {name : Text} {pos pos' : Position}
    (hs : ([⟨.symbol, "#", pos⟩, ⟨(d.classify name).getD .identifier, name, pos'⟩] :
      List Token).IsChain fun t u => ¬t.SplitsTag u) (ht : d.classify ('#' :: name) = some .toggle) :
    Reads input ([⟨.symbol, "#", pos⟩, ⟨(d.classify name).getD .identifier, name, pos'⟩], input) := by
  obtain ⟨k, hn⟩ := classify_name ht
  have hkr := Dialect.isRead_of_classify hn
  have hne : k ≠ .remark := by
    rintro rfl
    simp [Token.SplitsTag, hn] at hs
  refine reads_of_closed (List.suffix_refl _) ?_
  simp only [List.forall_mem_cons, hn, Option.getD_some]
  refine ⟨Token.closed_of_kind rfl rfl, Token.closed_of_kind rfl ?_, by simp⟩
  cases k <;> simp_all [Kind.isOver, Kind.isRead, Kind.isRaw]

theorem block_reads {t : Token} {read : List Token × List Glyph} (ht : t.Closed)
    (h : block closing t input = .ok read) : Reads input read := by
  obtain ⟨hkinds, hsuf⟩ := block_spec h
  refine reads_of_closed hsuf fun u hu => ?_
  rcases hkinds u hu with rfl | hu | hu
  · exact ht
  · exact Token.closed_of_kind hu rfl
  · exact Token.closed_of_kind hu rfl

theorem string_reads {v : Text} {pos : Position} (ht : d.classify v = some .quote) :
    Reads input ([⟨.string, v ++ (quotedTail input).1, pos⟩], (quotedTail input).2) := by
  have hv := Dialect.classify_quote ht
  refine ⟨quotedTail_suffix input, List.isChain_singleton _, ?_⟩
  rintro u ⟨⟩
  rcases quotedTail_cases input with ⟨body, hb⟩ | ho
  · refine .inl (.inr ⟨rfl, ?_⟩)
    simp [Enclosed, hv, hb, List.getLast?_cons]
  · exact .inr ⟨by simp, ho⟩

theorem data_reads {t : Token} (hk : t.kind = .data) :
    Reads input (t :: (dataFields closing input).1, (dataFields closing input).2) := by
  refine reads_of_closed (dataFields_suffix input) ?_
  refine List.forall_mem_cons.2 ⟨Token.closed_of_kind hk rfl, fun u hu => ?_⟩
  rcases dataFields_kind closing input u hu with hu | ⟨hu, -⟩
  · exact Token.closed_of_kind hu rfl
  · exact Token.closed_of_kind hu rfl

theorem complete_reads {last : Kind} {t : Token} {read : List Token × List Glyph}
    (hm : Marked input) (ht : d.classify t.value = some t.kind)
    (hs : read.1.IsChain fun t u => ¬t.SplitsTag u) (h : complete d closing last t input = .ok read) :
    Reads input read := by
  have hrest := Glyph.restOfLine_suffix input
  have hover := Glyph.restOfLine_over hm
  have hread := Dialect.isRead_of_classify ht
  unfold complete at h
  split at h
  case h_1 hk =>
    split at h
    · rename_i symbol name hsplit
      cases h
      obtain ⟨rfl, hv⟩ := splitToggle_eq hsplit
      exact tag_reads hs (hv ▸ hk ▸ ht)
    · cases h
      exact reads_of_closed (List.suffix_refl _) (by simp [Token.closed_of_kind hk rfl])
  case h_2 hk =>
    split at h
    · exact block_reads (Token.closed_of_kind hk rfl) h
    · cases h
      refine ⟨hrest, ?_, ?_⟩
      · exact List.isChain_pair.2 (.inr (.inr ⟨rfl, rfl⟩))
      · simpa using .inr hover
  case h_3 hk =>
    split at h
    · exact block_reads (Token.closed_of_kind hk rfl) h
    · cases h
      exact reads_of_closed hrest (by simp)
  case h_4 =>
    cases h
    exact reads_of_closed hrest (by simp)
  case h_5 hk =>
    cases h
    refine ⟨hrest, ?_, ?_⟩
    · dsimp only
      split
      · exact List.isChain_singleton t
      · exact List.isChain_pair.2 (.inr (.inr ⟨hk, rfl⟩))
    · dsimp only
      split
      · simpa [hk] using .inr hover
      · simpa using .inr hover
  case h_6 hk =>
    cases h
    exact string_reads (hk ▸ ht)
  case h_7 hk =>
    cases h
    exact data_reads hk
  case h_8 =>
    cases h
    refine reads_of_closed (List.suffix_refl _) ?_
    simp only [List.forall_mem_cons]
    refine ⟨.inl ?_, by simp⟩
    cases hk : t.kind <;> simp_all [Kind.isOver, Kind.isRead, Kind.isRaw]

/-- What is lexed is sealed, and at the end of a line it starts with a line end. -/
theorem lexFrom_sealed {last : Kind} {tokens : List Token} (hm : Marked input)
    (hs : tokens.IsChain fun t u => ¬t.SplitsTag u) (h : lexFrom d closing last input = .ok tokens) :
    Sealed tokens ∧ (Over input → ∀ t ∈ tokens.head?, t.endsLine = true) := by
  fun_induction lexFrom d closing last input generalizing tokens with
  | case1 =>
    cases h
    exact ⟨List.isChain_singleton _, by simp [Token.endsLine]⟩
  | case2 =>
    cases h
    exact ⟨List.isChain_singleton _, by simp [Token.endsLine]⟩
  | case3 => cases h
  | case4 last g rest _ t left hscan hk ih =>
    have hleft := (hm.suffix (List.suffix_cons g rest)).suffix (scan_suffix hscan)
    refine ⟨(ih hleft hs h).1, fun ho => ?_⟩
    have hn := scan_over (ho g rfl) hscan
    rw [hn] at hk
    cases hk
  | case5 => cases h
  | case6 => cases h
  | case7 last g rest _ t left hscan _ _ read left' hc last' =>
    rename_i ih
    obtain ⟨more, hmore, rfl⟩ := Outcome.map_eq_ok_iff.1 h
    have hleft := (hm.suffix (List.suffix_cons g rest)).suffix (scan_suffix hscan)
    obtain ⟨hsuf, hread, hlast⟩ :=
      complete_reads hleft (scan_classified hscan) hs.left_of_append hc
    obtain ⟨htail, hstart⟩ := ih (hleft.suffix hsuf) hs.right_of_append hmore
    refine ⟨hread.append htail fun u hu v hv => ?_, fun ho u hu => ?_⟩
    · rcases hlast u hu with hclosed | ⟨hk, hend⟩
      · exact .inl hclosed
      · exact .inr (.inl ⟨hk, hstart hend v hv⟩)
    · have hn := scan_over (ho g rfl) hscan
      have hone : read = [t] := by
        unfold complete at hc
        rw [hn] at hc
        cases hc
        rfl
      rw [hone] at hu
      cases hu
      simp [Token.endsLine, hn]

/-- Nothing is swallowed in the tokens of a listing unless REM is the name of a tag that is taken
apart. -/
theorem lex_sealed {listing : Listing} {tokens : List Token} (h : lex d listing = .ok tokens)
    (hs : tokens.IsChain fun t u => ¬t.SplitsTag u) : Sealed tokens := by
  unfold lex at h
  split at h
  · obtain ⟨more, hm, rfl⟩ := Outcome.map_eq_ok_iff.1 h
    obtain ⟨hmore, -⟩ := lexFrom_sealed (Glyph.flatMap_marked _) hs.tail.tail hm
    refine (hmore.cons fun u _ => .inl ?_).cons fun u _ => .inl ?_
    · exact Token.closed_of_kind rfl rfl
    · exact Token.closed_of_kind rfl rfl
  · cases h

end Lexer

end ClassicBasic
