import ClassicBasic.Proofs.Fronts
import ClassicBasic.Proofs.LineEnds
import ClassicBasic.Proofs.Numerals
import ClassicBasic.Proofs.Reading
import ClassicBasic.Proofs.Written

/-!
# Lines without code

A blank line or a line of comment may be put between any two lines of a program that are not inside a
block and not the parts of an item of DATA. It leaves the same tokens, with one more line end among
those in front of the next line or none. So the program is compiled to the same code wherever the line
ends count the same.
-/

set_option autoImplicit false

namespace ClassicBasic

open List (Forall₂)
open Token (Like Twins)

namespace Dialect

variable {d : Dialect} {c : Char}

theorem hash_rule (d : Dialect) : ∀ r ∈ d.grammar, avoids '#' r.shape = true ∨
    r.shape = .words ["##"] [] ∨ r.shape = .words ["###"] [] ∨ r.shape = .name ['#'] false ∨
    r.shape = .number d.numberForm ∨ r.shape = .baseMark d.numberForm := by
  rw [grammar_spelled, numberForm_spelled]
  cases d <;> decide +kernel

theorem classify_comment (d : Dialect) : d.classify Lexer.commentSign = some .lineComment := by
  rw [classify_spelled]
  cases d <;> decide +kernel

theorem classify_comment_append (hc : c ≠ '#') : d.classify (Lexer.commentSign ++ [c]) = none := by
  rw [Option.eq_none_iff_forall_ne_some]
  intro k h
  obtain ⟨r, hmem, -, ha⟩ := classify_rule h
  change r.shape.accepts ['#', '#', c] = true at ha
  rcases hash_rule d r hmem with hs | hs | hs | hs | hs | hs
  · rw [not_accepts_avoids hs (by simp)] at ha
    cases ha
  · rw [hs] at ha
    simp [Shape.accepts, Text.sameLetters] at ha
  · rw [hs] at ha
    have hsame : ("###" : Text) = ['#', '#', c] := by
      simp only [Shape.accepts, List.any_cons, List.any_nil, Bool.or_false] at ha
      exact (Text.eq_of_sameLetters (by decide) ha).symm
    cases hsame
    exact hc rfl
  · rw [hs] at ha
    have hletter : Grammar.isLetter '#' = false := by decide
    simp [Shape.accepts, Grammar.after, Grammar.isName, hletter] at ha
  · rw [hs] at ha
    simp [Shape.accepts, Grammar.isDecimal, Grammar.isBased] at ha
  · rw [hs] at ha
    simp [Shape.accepts, Grammar.isBaseMark] at ha

end Dialect

namespace Glyph

theorem chars_ofLine (l : Line) : (ofLine l).map char = l.read ++ [endMark] := by
  have hspread (line : Nat) (text file : Text) (col : Int) (rest : Text) :
      (spread line text file col rest).map char = rest ++ [endMark] := by
    induction rest generalizing col with
    | nil => rfl
    | cons c rest ih => simp [spread, ih]
  exact hspread _ _ _ _ _

theorem exists_marks {X : List Glyph} (h : ∃ u ∈ X, u.char ≠ '\r') : ∃ M z Z, X = M ++ z :: Z ∧
    X.dropWhile (·.char == '\r') = z :: Z ∧ (∀ g ∈ M, g.char = '\r') ∧ z.char ≠ '\r' := by
  have hne : X.dropWhile (·.char == '\r') ≠ [] := by
    simpa [List.dropWhile_eq_nil_iff] using h
  obtain ⟨z, Z, hcons⟩ := List.exists_cons_of_ne_nil hne
  refine ⟨X.takeWhile (·.char == '\r'), z, Z, ?_, hcons, fun g hg => ?_, ?_⟩
  · rw [← hcons, List.takeWhile_append_dropWhile]
  · simpa using List.mem_takeWhile_imp hg
  · have hhead := List.head?_dropWhile_not (fun g : Glyph => g.char == '\r') X
    rw [hcons] at hhead
    simpa using hhead

end Glyph

namespace Lexer

variable {d : Dialect} {closing : Nat} {last : Kind} {M Z : List Glyph} {z : Glyph}

theorem lexFrom_ends (hM : ∀ g ∈ M, g.char = '\r') (hne : M ≠ []) (hz : z.char ≠ '\r')
    (hr : closing ≤ (z :: Z).length) : ∃ n : Token, n.EndsRow d ∧ n.pos = Glyph.place M ∧
      lexFrom d closing last (M ++ z :: Z) = (lexFrom d closing .newline (z :: Z)).map ([n] ++ ·) := by
  obtain ⟨g, gs, rfl⟩ := List.exists_cons_of_ne_nil hne
  obtain ⟨hg, hgs⟩ := List.forall_mem_cons.1 hM
  have hk : d.classify [g.char] = some .newline := by
    rw [hg]
    exact classify_endMark d
  obtain ⟨u, hu, hmunch⟩ := munch_returns (d := d) Z hgs (by simpa using hg)
    (List.cons_ne_nil g.char []) hz
  have hscan : scan d g (gs ++ z :: Z) = .ok (⟨.newline, u, g.pos⟩, z :: Z) := by
    unfold scan
    simp only [hk, hmunch, List.cons_ne_nil, false_and, if_false]
  refine ⟨⟨.newline, u, g.pos⟩, ⟨rfl, (Token.lexed_of_classify (scan_classified hscan)).toLawful⟩, rfl, ?_⟩
  rw [List.cons_append, lexFrom_token (by simp at hr ⊢; omega) hscan (by simp) (by simp)
    (complete_self rfl (by simp))]
  rfl

theorem lexFrom_marks (hM : ∀ g ∈ M, g.char = '\r') (hz : z.char ≠ '\r') (hne : M ≠ [] ∨ last = .newline)
    (hr : closing ≤ (z :: Z).length) : ∃ ns : List Token, (∀ n ∈ ns, n.EndsRow d) ∧ (M ≠ [] → ns ≠ []) ∧
      lexFrom d closing last (M ++ z :: Z) = (lexFrom d closing .newline (z :: Z)).map (ns ++ ·) := by
  by_cases hnil : M = []
  · obtain rfl : last = .newline := hne.resolve_left fun h => h hnil
    exact ⟨[], by simp, fun h => absurd hnil h, by rw [hnil, List.nil_append, map_nothing]⟩
  · obtain ⟨n, hn, -, hlex⟩ := lexFrom_ends (d := d) hM hnil hz hr
    exact ⟨[n], by simpa using hn, by simp, hlex⟩

theorem lexFrom_comment {file w text : Text} {gs : List Glyph} {e : Glyph} {X : List Glyph}
    (hb : ∀ c ∈ w, c = ' ' ∨ c = '\t') (hgs : Spells file gs (w ++ commentSign ++ text))
    (hh : text.head? ≠ some '#') (he : e.ends = true) (hmark : e.char = '\r') (hr : closing ≤ X.length) :
    lexFrom d closing last (gs ++ e :: X) = lexFrom d closing last (e :: X) := by
  rw [List.append_assoc] at hgs
  obtain ⟨front, back, rfl, hfront, hback⟩ := hgs.split
  obtain ⟨sign, rest, rfl, hsign, hrest⟩ := hback.split
  obtain ⟨next, more, hnext, hchar⟩ : ∃ next more, rest ++ e :: X = next :: more ∧ next.char ≠ '#' := by
    cases text with
    | nil =>
      obtain rfl := hrest.nil
      exact ⟨e, X, rfl, by rw [hmark]; decide⟩
    | cons c text =>
      obtain ⟨g, back, rfl, rfl, -, -⟩ := hrest.cons
      exact ⟨g, back ++ e :: X, rfl, by simpa using hh⟩
  have hwhole : d.Whole commentSign := by
    intro n hn
    have hsmall : n = 0 ∨ n = 1 := by
      have : commentSign.length = 2 := rfl
      omega
    rcases hsmall with rfl | rfl
    · rw [show commentSign.take 1 = ['#'] from rfl, classify_hash]
      rfl
    · rw [show commentSign.take 2 = commentSign from rfl, Dialect.classify_comment]
      rfl
  obtain ⟨g, tail, pos, rfl, -, hscan⟩ := scan_spelled more hsign hwhole (Dialect.classify_comment d)
    (Dialect.classify_comment_append hchar) (by decide)
  have hroom : closing ≤ (tail ++ next :: more).length := by
    rw [← hnext]
    simp only [List.length_append, List.length_cons]
    omega
  have hcomplete (last : Kind) : complete d closing last ⟨.lineComment, commentSign, pos⟩ (next :: more) =
      .ok ([], e :: X) := by
    rw [← hnext]
    simp only [complete, restOfLine_spelled hrest he]
  have hfront : ∀ u ∈ front, u.char = ' ' ∨ u.char = '\t' :=
    fun u hu => hb u.char (hfront.chars ▸ List.mem_map_of_mem hu)
  rw [List.append_assoc, List.append_assoc, hnext, List.cons_append, lexFrom_blanks hfront hroom,
    lexFrom_token hroom hscan (by simp) (by simp) (hcomplete last)]
  exact map_nothing _

/-- Whether a line has no code: it is blank, or a comment follows its blanks. -/
def Codeless (t : Text) : Prop :=
  t.all Text.isBlank = true ∨ ∃ blanks rest, t = blanks ++ commentSign ++ rest ∧
    (∀ c ∈ blanks, c = ' ' ∨ c = '\t') ∧ rest.head? ≠ some '#'

theorem Codeless.read {l : Line} (h : Codeless l.text) : l.read = [] ∨ ∃ blanks rest,
    l.read = blanks ++ commentSign ++ rest ∧ (∀ c ∈ blanks, c = ' ' ∨ c = '\t') ∧ rest.head? ≠ some '#' := by
  rcases h with hblank | ⟨blanks, rest, htext, hb, hh⟩
  · refine .inl ?_
    rw [Line.read, Text.trimBlankEnd, Text.trimEnd, List.reverse_eq_nil_iff, List.dropWhile_eq_nil_iff]
    exact fun c hc => List.all_eq_true.1 hblank c (List.mem_reverse.1 hc)
  · refine .inr ⟨blanks, Text.trimBlankEnd rest, ?_, hb, fun he => hh ?_⟩
    · have hsign := Text.trimEnd_append_cons (p := Text.isBlank) (c := '#') (by decide) (blanks ++ ['#']) rest
      simpa [Line.read, Text.trimBlankEnd, htext, commentSign] using hsign
    · rw [← Text.trimEnd_append_takeWhile Text.isBlank rest]
      rw [List.head?_append, show (Text.trimEnd Text.isBlank rest).head? = some '#' from he]
      rfl

theorem lexFrom_codeless {l : Line} {R M Z : List Glyph} {z : Glyph} (h : Codeless l.text)
    (hR : ∀ g ∈ R, g.char = '\r') (hne : R ≠ [] ∨ last = .newline) (hM : ∀ g ∈ M, g.char = '\r')
    (hz : z.char ≠ '\r') (hr : closing ≤ (z :: Z).length) :
    ∃ ns : List Token, (∀ n ∈ ns, n.EndsRow d) ∧ ns ≠ [] ∧
      lexFrom d closing last (R ++ (Glyph.ofLine l ++ (M ++ z :: Z))) =
        (lexFrom d closing .newline (z :: Z)).map (ns ++ ·) := by
  rcases h.read with hblank | ⟨blanks, rest, hread, hb, hh⟩
  · have hline : Glyph.ofLine l = [⟨Glyph.endMark, .onLine l.number 1 [] l.file, true⟩] := by
      have : Text.trimBlankEnd l.text = [] := hblank
      simp [Glyph.ofLine, this, Glyph.spread]
    have hall : ∀ g ∈ R ++ (Glyph.ofLine l ++ M), g.char = '\r' := by
      rw [hline]
      simpa [or_imp, forall_and, Glyph.endMark] using ⟨hR, hM⟩
    obtain ⟨ns, hns, hne', hlex⟩ := @lexFrom_marks d _ last _ _ _ hall hz (.inl (by simp [hline])) hr
    refine ⟨ns, hns, hne' (by simp [hline]), ?_⟩
    rw [← hlex]
    simp
  · obtain ⟨gs, col, hspread, hgs⟩ := spread_append l.number l.read l.file 1 l.read []
    rw [List.append_nil] at hspread
    have hline : Glyph.ofLine l = gs ++ [⟨Glyph.endMark, .onLine l.number col l.read l.file, true⟩] := hspread
    generalize he : (⟨Glyph.endMark, .onLine l.number col l.read l.file, true⟩ : Glyph) = e at hline
    have hends : e.ends = true := by rw [← he]
    have hmark : e.char = '\r' := by rw [← he]; rfl
    rw [hread] at hgs
    -- the comment starts with a character that ends no line
    obtain ⟨u, more, rfl⟩ : ∃ u more, gs = u :: more := by
      refine List.exists_cons_of_ne_nil fun hnil => ?_
      have := hgs.chars
      rw [hnil] at this
      simp [commentSign] at this
    have hu : u.char ≠ '\r' := by
      have hchars := hgs.chars
      cases blanks with
      | nil =>
        obtain ⟨hchar, -⟩ := List.cons.inj hchars
        rw [hchar]
        decide
      | cons c blanks =>
        obtain ⟨hchar, -⟩ := List.cons.inj hchars
        rw [hchar]
        rcases hb c List.mem_cons_self with rfl | rfl <;> decide
    have hroom : closing ≤ (M ++ z :: Z).length := by
      rw [List.length_append]
      omega
    have hover : closing ≤ (u :: (more ++ e :: (M ++ z :: Z))).length := by
      simp only [List.length_append, List.length_cons] at hroom ⊢
      omega
    obtain ⟨ns, hns, -, hfront⟩ := @lexFrom_marks d _ _ _ _ _ hR hu hne hover
    have hcomment := @lexFrom_comment d _ .newline _ _ _ _ _ _ hb hgs hh hends hmark hroom
    have hmarks : ∀ g ∈ e :: M, g.char = '\r' := List.forall_mem_cons.2 ⟨hmark, hM⟩
    obtain ⟨ns', hns', hne', hback⟩ := @lexFrom_marks d _ .newline _ _ _ hmarks hz (.inl (by simp)) hr
    refine ⟨ns ++ ns', List.forall_mem_append.2 ⟨hns, hns'⟩, by simp [hne'], ?_⟩
    have hinput : R ++ (Glyph.ofLine l ++ (M ++ z :: Z)) = R ++ u :: (more ++ e :: (M ++ z :: Z)) := by
      rw [hline]
      simp
    rw [hinput, hfront, ← List.cons_append, hcomment, ← List.cons_append, hback, map_append]

end Lexer

namespace Listing

open Glyph (Laid ofLine endMark)

variable {d : Dialect} {file line : Text} {front back : List Text}

theorem numberFrom_append (file : Text) (n : Nat) (front back : List Text) :
    numberFrom file n (front ++ back) = numberFrom file n front ++ numberFrom file (n + front.length) back := by
  induction front generalizing n with
  | nil => rfl
  | cons t front ih =>
    rw [List.cons_append, numberFrom, numberFrom, ih, List.cons_append, List.length_cons,
      Nat.add_right_comm, Nat.add_assoc n]

def glyphs (file : Text) (n : Nat) (texts : List Text) : List Glyph :=
  (numberFrom file n texts).flatMap ofLine

/-- The characters of the last line. -/
def final (file : Text) (n : Nat) : List Glyph := ofLine ⟨n, eofText, file⟩

theorem length_final (file : Text) (n : Nat) : (final file n).length = 4 := by
  have hchars := congrArg List.length (Glyph.chars_ofLine ⟨n, eofText, file⟩)
  rw [List.length_map] at hchars
  rw [final, hchars]
  rfl

theorem head_final (file : Text) (n : Nat) : ∃ u ∈ (final file n).head?, u.char ≠ '\r' :=
  ⟨⟨'E', .onLine n 1 eofText file, false⟩, rfl, by simp⟩

/-- The tokens that every listing of a file starts with. -/
def opening (file : Text) : List Token :=
  let start := Glyph.place (ofLine ⟨0, programText, file⟩)
  [⟨.program, programText, start⟩, ⟨.newline, [endMark], start⟩]

theorem lex_framed (file : Text) (texts : List Text) : Lexer.lex d (framed file texts) =
    (Lexer.lexFrom d 4 .newline (glyphs file 1 texts ++ final file (texts.length + 1))).map
      (opening file ++ ·) := by
  have hlines : ∃ second more, numberFrom file 1 texts ++ [⟨texts.length + 1, eofText, file⟩] =
      second :: more := List.exists_cons_of_ne_nil (by simp)
  obtain ⟨second, more, hcons⟩ := hlines
  have hlast : (second :: more).getLast (by simp) = ⟨texts.length + 1, eofText, file⟩ := by
    simp [← hcons]
  rw [framed, List.cons_append, hcons]
  simp only [Lexer.lex, hlast]
  rw [show (ofLine ⟨texts.length + 1, eofText, file⟩).length = 4 from length_final file _, ← hcons,
    List.flatMap_append]
  simp [glyphs, final, opening]

/-- Whether a line may be put behind the lines in front: they leave no block open, and the last of them
is no DATA line that ends in an underscore. -/
structure Ready (d : Dialect) (file : Text) (front : List Text) : Prop where
  blocks : Lexer.blockOpen (Lexer.lex d (framed file front)) = false
  data : (front.getLast?.bind fun text => (Text.trimBlankEnd text).getLast?) = some '_' →
    Lexer.endsInData (Lexer.lex d (framed file front)) = false

/-- The characters of lines end in an underscore in front of the last line end only if the last line
does. -/
theorem underscored_glyphs (n : Nat) (h : Lexer.EndsUnderscored (glyphs file n front)) :
    (front.getLast?.bind fun text => (Text.trimBlankEnd text).getLast?) = some '_' := by
  obtain ⟨inside, u, e, hends, hu⟩ := h
  have hchars := congrArg (List.map Glyph.char) hends
  rw [List.map_append, List.map_cons, List.map_singleton, hu] at hchars
  cases hlast : front.getLast? with
  | none =>
    rw [List.getLast?_eq_none_iff.1 hlast] at hends
    simp [glyphs, numberFrom] at hends
  | some text =>
    obtain ⟨lines, rfl⟩ := List.getLast?_eq_some_iff.1 hlast
    rw [glyphs, numberFrom_append, List.flatMap_append, List.map_append, numberFrom, numberFrom,
      List.flatMap_singleton, Glyph.chars_ofLine, Line.read] at hchars
    have hparts : ((glyphs file n lines).map Glyph.char ++ Text.trimBlankEnd text) ++ [endMark] =
        (inside.map Glyph.char ++ ['_']) ++ [e.char] := by simpa [glyphs] using hchars
    have hcut : (glyphs file n lines).map Glyph.char ++ Text.trimBlankEnd text =
        inside.map Glyph.char ++ ['_'] := (List.append_inj' hparts rfl).1
    have htail := congrArg List.getLast? hcut
    rw [List.getLast?_append, List.getLast?_concat] at htail
    rw [Option.bind_some]
    cases hread : (Text.trimBlankEnd text).getLast? with
    | some c =>
      rw [hread] at htail
      exact htail
    | none =>
      -- what is in front ends a line
      rw [hread, Option.none_or] at htail
      obtain rfl | ⟨lines, t, rfl⟩ := List.eq_nil_or_concat lines
      · simp [glyphs, numberFrom] at htail
      · rw [List.concat_eq_append, glyphs, numberFrom_append, List.flatMap_append, List.map_append,
          numberFrom, numberFrom, List.flatMap_singleton, Glyph.chars_ofLine, ← List.append_assoc,
          List.getLast?_concat] at htail
        cases htail

theorem laid_glyphs (n : Nat) (hr : ∀ t ∈ front, endMark ∉ t) : Laid (glyphs file n front) := by
  refine Proper.laid ⟨pairwise_numberFrom _ _ _, fun l hl => ?_⟩
  exact hr _ (mem_numberFrom hl).2.2.1

theorem glyphs_ne_nil (n : Nat) (h : front ≠ []) : glyphs file n front ≠ [] := by
  obtain ⟨t, more, rfl⟩ := List.exists_cons_of_ne_nil h
  intro hnil
  have hchars := congrArg (List.map Glyph.char) hnil
  simp [glyphs, numberFrom, Glyph.chars_ofLine] at hchars

/-- The lines in front are refused, or they are lexed as far as the line ends in front of the place. -/
theorem Ready.settles (h : Ready d file front) (hr : ∀ t ∈ front, endMark ∉ t) :
    (∃ e, ∀ X : List Glyph, 4 ≤ X.length → Lexer.lexFrom d 4 .newline (glyphs file 1 front ++ X) = .error e) ∨
      ∃ us last R, (R ≠ [] ∨ (us = [] ∧ last = .newline)) ∧ (∀ g ∈ R, g.char = '\r') ∧
        ∀ X : List Glyph, 4 ≤ X.length → Lexer.lexFrom d 4 .newline (glyphs file 1 front ++ X) =
          (Lexer.lexFrom d 4 last (R ++ X)).map (us ++ ·) := by
  by_cases hnil : front = []
  · subst hnil
    exact .inr ⟨[], .newline, [], .inr ⟨rfl, rfl⟩, by simp, fun X _ => (Lexer.map_nothing _).symm⟩
  · have hlength := length_final file (front.length + 1)
    have hblocks := h.blocks
    have hdata := h.data
    rw [lex_framed] at hblocks hdata
    have hsettles : Lexer.Settles d (final file (front.length + 1)).length .newline (glyphs file 1 front) := by
      refine Lexer.lexFrom_settles (head_final _ _) (laid_glyphs 1 hr) (glyphs_ne_nil 1 hnil) ?_ fun hu => ?_
      · rw [hlength, ← Lexer.blockOpen_map _ (opening file)]
        exact hblocks
      · rw [hlength]
        exact Lexer.endsInData_of_map (hdata (underscored_glyphs 1 hu))
    rw [hlength] at hsettles
    rcases hsettles with herr | ⟨us, last, R, hR, -, hmarks, hlex⟩
    · exact .inl herr
    · exact .inr ⟨us, last, R, .inl hR, hmarks, hlex⟩

theorem glyphs_same (file : Text) (n n' : Nat) (texts : List Text) :
    Forall₂ (Glyph.Same id) (glyphs file n texts) (glyphs file n' texts) := by
  refine List.rel_flatMap (R := Line.Same id) ?_ fun _ _ hl => Glyph.ofLine_same Text.fine_id hl
  induction texts generalizing n n' with
  | nil => exact .nil
  | cons t texts ih => exact .cons ⟨rfl, rfl⟩ (ih _ _)

theorem final_same (file : Text) (n n' : Nat) : Forall₂ (Glyph.Same id) (final file n) (final file n') :=
  Glyph.ofLine_same Text.fine_id ⟨rfl, rfl⟩

theorem length_behind (X : List Glyph) (n : Nat) :
    4 ≤ ((X ++ final file n).dropWhile (·.char == '\r')).length := by
  obtain ⟨u, hu, hne⟩ := head_final file n
  obtain ⟨more, hcons⟩ := List.head?_eq_some_iff.1 hu
  rw [List.dropWhile_append]
  split
  · rw [hcons, List.dropWhile_cons_of_neg (by simpa using hne), ← hcons, length_final]
  · rw [List.length_append, length_final]
    omega

/-- A line without code adds line ends to those in front of the next line. -/
theorem lex_interposed (h : Ready d file front) (hl : Lexer.Codeless line)
    (hr : ∀ t ∈ front, endMark ∉ t) :
    (∃ e e', Lexer.lex d (framed file (front ++ back)) = .error e ∧
      Lexer.lex d (framed file (front ++ line :: back)) = .error e') ∨
    ∃ us ns ns' ms ms', Lexer.lex d (framed file (front ++ back)) = .ok (opening file ++ (us ++ (ns ++ ms))) ∧
      Lexer.lex d (framed file (front ++ line :: back)) = .ok (opening file ++ (us ++ (ns' ++ ms'))) ∧
      (∀ n ∈ ns, n.EndsRow d) ∧ (∀ n ∈ ns', n.EndsRow d) ∧ (us ≠ [] → ns ≠ []) ∧ ns' ≠ [] ∧
      Forall₂ (Token.Same id) ms ms' := by
  let m := 1 + front.length
  let Y := glyphs file m back ++ final file ((front ++ back).length + 1)
  let Y' := glyphs file (m + 1) back ++ final file ((front ++ line :: back).length + 1)
  have hlex : Lexer.lex d (framed file (front ++ back)) =
      (Lexer.lexFrom d 4 .newline (glyphs file 1 front ++ Y)).map (opening file ++ ·) := by
    rw [lex_framed, glyphs, numberFrom_append, List.flatMap_append, List.append_assoc]
    rfl
  have hlex' : Lexer.lex d (framed file (front ++ line :: back)) = (Lexer.lexFrom d 4 .newline
      (glyphs file 1 front ++ (ofLine ⟨m, line, file⟩ ++ Y'))).map (opening file ++ ·) := by
    rw [lex_framed, glyphs, numberFrom_append, List.flatMap_append, List.append_assoc, numberFrom,
      List.flatMap_cons, List.append_assoc]
    rfl
  have hY : Forall₂ (Glyph.Same id) Y Y' := List.rel_append (glyphs_same _ _ _ _) (final_same _ _ _)
  have hroom (X : List Glyph) (n : Nat) : 4 ≤ (X ++ final file n).length := by
    rw [List.length_append, length_final]
    omega
  rw [hlex, hlex']
  rcases h.settles hr with ⟨e, herr⟩ | ⟨us, last, R, hR, hmarks, hus⟩
  · refine .inl ⟨e, e, ?_, ?_⟩
    · rw [herr Y (hroom _ _)]
      rfl
    · rw [herr _ (by rw [← List.append_assoc]; exact hroom _ _)]
      rfl
  · have hother (X : List Glyph) (n : Nat) : ∃ u ∈ X ++ final file n, u.char ≠ '\r' := by
      obtain ⟨u, hu, hne⟩ := head_final file n
      exact ⟨u, List.mem_append_right _ (List.mem_of_mem_head? hu), hne⟩
    obtain ⟨M, z, Z, hsplit, hdrop, hM, hz⟩ := Glyph.exists_marks (hother (glyphs file m back) _)
    obtain ⟨M', z', Z', hsplit', hdrop', hM', hz'⟩ := Glyph.exists_marks (hother (glyphs file (m + 1) back) _)
    have hsame : Forall₂ (Glyph.Same id) (z :: Z) (z' :: Z') := by
      rw [← hdrop, ← hdrop']
      exact Glyph.dropWhile_same (fun g g' hg => hg.beq Text.fine_id (by decide)) hY
    have hbehind : 4 ≤ (z :: Z).length := hdrop ▸ length_behind _ _
    have hbehind' : 4 ≤ (z' :: Z').length := hdrop' ▸ length_behind _ _
    have hends : ∀ g ∈ R ++ M, g.char = '\r' := List.forall_mem_append.2 ⟨hmarks, hM⟩
    obtain ⟨ns, hns, hne, hfront⟩ := Lexer.lexFrom_marks (d := d) hends hz
      (hR.imp (fun hR => by simp [hR]) And.right) hbehind
    obtain ⟨ns', hns', hne', hback⟩ := Lexer.lexFrom_codeless (d := d) (l := ⟨m, line, file⟩) hl hmarks
      (hR.imp_right And.right) hM' hz' hbehind'
    have hus' : us ≠ [] → ns ≠ [] := fun hus => hne (by simp [hR.resolve_right fun hnil => hus hnil.1])
    have hlexed : Lexer.lexFrom d 4 .newline (glyphs file 1 front ++ Y) =
        (Lexer.lexFrom d 4 .newline (z :: Z)).map (us ++ ns ++ ·) := by
      rw [hus Y (hroom _ _), show Y = M ++ z :: Z from hsplit, ← List.append_assoc, hfront, Lexer.map_append]
    have hlexed' : Lexer.lexFrom d 4 .newline (glyphs file 1 front ++ (ofLine ⟨m, line, file⟩ ++ Y')) =
        (Lexer.lexFrom d 4 .newline (z' :: Z')).map (us ++ ns' ++ ·) := by
      rw [hus _ (by rw [← List.append_assoc]; exact hroom _ _), show Y' = M' ++ z' :: Z' from hsplit', hback,
        Lexer.map_append]
    rw [hlexed, hlexed']
    rcases (@Lexer.lexFrom_same _ Text.fine_id d 4 _ _ .newline hsame).elim with
      ⟨e, e', hx, hx'⟩ | ⟨ms, ms', hx, hx', hms⟩
    · exact .inl ⟨e, e', by rw [hx]; rfl, by rw [hx']; rfl⟩
    · refine .inr ⟨us, ns, ns', ms, ms', ?_, ?_, hns, hns', hus', hne', hms⟩
      · rw [hx]
        simp [Except.map]
      · rw [hx']
        simp [Except.map]

/-- Tokens of a listing that are the same but for their places are alike. -/
theorem twins_same {t t' : Token} (h : t.Same id t') (hl : t.Lexed d) (hl' : t'.Lexed d) :
    Twins d id ⟨Eq, Eq, True⟩ t t' := by
  have hv : t.value = t'.value := by simpa using h.value
  exact ⟨⟨h.kind, hl.toLawful, hl'.toLawful, fun _ => h.file, fun _ => by rw [hv], fun _ => hv⟩,
    fun _ => hv, fun _ => hv, fun _ => trivial⟩

theorem spelling_self (d : Dialect) : Spelling d id ⟨Eq, Eq, True⟩ := by
  refine ⟨Text.fine_id, fun _ => rfl, ?_⟩
  rintro v v' w w' - rfl rfl
  exact Iff.rfl

/-- Line ends in any numbers stand in front of programs that are alike. -/
theorem runs_ends {R : Token → Token → Prop} {ns ns' ms ms' : List Token} (hns : ∀ n ∈ ns, n.EndsRow d)
    (hns' : ∀ n ∈ ns', n.EndsRow d) (hms : Forall₂ R ms ms') : Runs d True R true (ns ++ ms) (ns' ++ ms') := by
  induction ns with
  | nil =>
    induction ns' with
    | nil => exact runs_of_forall₂ hms true
    | cons n ns' ih =>
      obtain ⟨hn, hns'⟩ := List.forall_mem_cons.1 hns'
      exact .right trivial hn (ih hns')
  | cons n ns ih =>
    obtain ⟨hn, hns⟩ := List.forall_mem_cons.1 hns
    exact .left trivial hn (ih hns)

/-- A listing with a line without code is alike but for repeated line ends. -/
theorem paired_interposed (h : Ready d file front) (hl : Lexer.Codeless line)
    (hr : ∀ t ∈ front, endMark ∉ t) :
    Outcome.Both (Paired d True (Twins d id ⟨Eq, Eq, True⟩)) (Lexer.lex d (framed file (front ++ back)))
      (Lexer.lex d (framed file (front ++ line :: back))) := by
  rcases @lex_interposed _ _ _ _ back h hl hr with
    ⟨e, e', hx, hx'⟩ | ⟨us, ns, ns', ms, ms', hx, hx', hns, hns', hus, hne', hms⟩
  · rw [hx, hx']
    exact .error e e'
  · have hlexed := Lexer.lex_lexed hx
    have hlexed' := Lexer.lex_lexed hx'
    rw [hx, hx']
    have hself {t : Token} (ht : t ∈ opening file ++ (us ++ (ns ++ ms))) : Twins d id ⟨Eq, Eq, True⟩ t t :=
      twins_same ⟨rfl, rfl, rfl⟩ (hlexed t ht) (hlexed t ht)
    have hms' : Forall₂ (Twins d id ⟨Eq, Eq, True⟩) ms ms' := by
      refine List.forall₂_iff_zip.2 ⟨hms.length_eq, fun hp => ?_⟩
      obtain ⟨hmem, hmem'⟩ := List.of_mem_zip hp
      exact twins_same ((List.forall₂_iff_zip.1 hms).2 hp) (hlexed _ (by simp [hmem])) (hlexed' _ (by simp [hmem']))
    have hfront : Forall₂ (Twins d id ⟨Eq, Eq, True⟩) us us :=
      List.forall₂_same.2 fun t ht => hself (by simp [ht])
    have hruns : Runs d True (Twins d id ⟨Eq, Eq, True⟩) true (us ++ (ns ++ ms)) (us ++ (ns' ++ ms')) := by
      by_cases hnil : us = []
      · rw [hnil, List.nil_append, List.nil_append]
        exact runs_ends hns hns' hms'
      · obtain ⟨n, ns, rfl⟩ := List.exists_cons_of_ne_nil (hus hnil)
        obtain ⟨n', ns', rfl⟩ := List.exists_cons_of_ne_nil hne'
        obtain ⟨hn, hns⟩ := List.forall_mem_cons.1 hns
        obtain ⟨hn', hns'⟩ := List.forall_mem_cons.1 hns'
        refine Runs.append hfront (.cons ((spelling_self d).twins.ends hn hn') ?_) true
        rw [hn.kind]
        exact runs_ends hns hns' hms'
    have hends : (⟨.newline, [endMark], Glyph.place (ofLine ⟨0, programText, file⟩)⟩ : Token).EndsRow d :=
      ⟨rfl, (hlexed _ (by simp [opening])).toLawful⟩
    exact .ok ⟨_, _, _, _, _, _, rfl, rfl, hself (by simp [opening]), by simp, hends, hends, hruns⟩

end Listing

namespace Merge

variable {d : Dialect} {f : Char → Char} {l l' m m' : List Token}

theorem pending_congr (hf : Text.Fine f) (h : Forall₂ (Like d f) l m) (held named : Bool) :
    pending held named l = pending held named m := by
  induction h generalizing held named with
  | nil => rfl
  | @cons t t' l m ht _ ih =>
    have hi : t.is "INCLUDE" = t'.is "INCLUDE" := ht.is hf (w := "INCLUDE") (by decide)
    rw [pending, pending, ht.kind, hi, ih]

/-- Whether line ends count the same is seen from programs that are alike. -/
theorem Level.congr (hf : Text.Fine f) (h : Level l l') (hl : Forall₂ (Like d f) l m)
    (hl' : Forall₂ (Like d f) l' m') : Level m m' := by
  have kinds {l m : List Token} (hl : Forall₂ (Like d f) l m) : l.map Token.kind = m.map Token.kind := by
    rw [← List.forall₂_eq_eq_eq, List.forall₂_map_left_iff, List.forall₂_map_right_iff]
    exact hl.imp fun _ _ ht => ht.kind
  have first (l : List Token) : (l.tail.dropWhile (·.kind == .newline)).head?.map Token.kind =
      ((l.map Token.kind).tail.dropWhile (· == .newline)).head? := by
    rw [← List.map_tail, List.dropWhile_map, List.head?_map]
    rfl
  have count (l : List Token) : (l.tail.takeWhile (·.kind == .newline)).length =
      ((l.map Token.kind).tail.takeWhile (· == .newline)).length := by
    rw [← List.map_tail, List.takeWhile_map, List.length_map]
    rfl
  constructor
  · rw [← pending_congr hf hl, ← pending_congr hf hl']
    exact h.pending
  · have hopening := h.opening
    rw [first, count, count] at hopening ⊢
    rwa [kinds hl, kinds hl'] at hopening

end Merge

namespace Compile

variable {s : Setting} {o : Options} {σ : Session} {file line : Text} {front back : List Text}

/-- Whether the line ends of two listings count the same where they come to the third stage. -/
def EvenEnds (s : Setting) (σ : Session) (listing listing' : Listing) : Prop :=
  ∀ l l' placed placed' τ τ', Lexer.lex s.dialect listing = .ok l → Lexer.lex s.dialect listing' = .ok l' →
    Branch.front s (Branch.main s) l σ = .ok placed τ → Branch.front s (Branch.main s) l' σ = .ok placed' τ' →
      Merge.Level placed placed'

/-- A line without code changes nothing in what a program is compiled to, as long as its line end makes no
difference to the third stage. -/
theorem code_interposed (h : Listing.Ready s.dialect file front) (hl : Lexer.Codeless line)
    (hr : ∀ t ∈ front, Glyph.endMark ∉ t) (hu : Branch.NoneUnderscored s (Branch.main s) s.shelf.size)
    (he : EvenEnds s σ (Listing.framed file (front ++ back)) (Listing.framed file (front ++ line :: back))) :
    Conversion.Both (fun c c' => c.code = c'.code) (ofListing s o (Listing.framed file (front ++ back)) σ)
      (ofListing s o (Listing.framed file (front ++ line :: back)) σ) := by
  have hlex : Outcome.Both (fun l l' => Paired s.dialect True (Twins s.dialect id ⟨Eq, Eq, True⟩) l l' ∧
        Lexer.lex s.dialect (Listing.framed file (front ++ line :: back)) = .ok l')
      (Lexer.lex s.dialect (Listing.framed file (front ++ back)))
      (Lexer.lex s.dialect (Listing.framed file (front ++ line :: back))) := by
    rcases (@Listing.paired_interposed _ _ _ _ back h hl hr).elim with ⟨e, e', hx, hx'⟩ | ⟨l, l', hx, hx', hpaired⟩
    · rw [hx, hx']
      exact .error e e'
    · rw [hx, hx']
      exact .ok ⟨hpaired, rfl⟩
  -- what comes to the third stage is the same in a session that is alike
  have hfront {listing : Listing} {l placed : List Token} {τ υ : Session} (hx : Lexer.lex s.dialect listing = .ok l)
      (hσ : σ.Alike τ) (hp : Branch.front s (Branch.main s) l τ = .ok placed υ) :
      ∃ placed₀ υ₀, Branch.front s (Branch.main s) l σ = .ok placed₀ υ₀ ∧
        Forall₂ (Like s.dialect id) placed₀ placed := by
    have hmatched := Listing.matched_refl (d := s.dialect) Text.fine_id listing
    rw [Listing.Matched, hx] at hmatched
    obtain ⟨S, hS, hpaired⟩ : ∃ S, Spelling s.dialect id S ∧ Paired s.dialect False (Twins s.dialect id S) l l := by
      cases hmatched with
      | ok hpaired => exact hpaired
    have hboth := Branch.front_both (b := Branch.main s) hS hpaired hσ
    rw [hp] at hboth
    generalize hr : Branch.front s (Branch.main s) l σ = r at hboth
    cases hboth with
    | ok hruns _ => exact ⟨_, _, rfl, (hruns.forall₂ not_false).imp fun _ _ ht => ht.toLike⟩
  have hboth := @ofListing_both _ o _ σ s s.shelf _ _ _ Text.fine_id hlex
    (fun l l' τ τ' hx hl hσ hτ => by
      obtain ⟨hpaired, hx'⟩ := hl
      refine Branch.convert_loose (Listing.spelling_self s.dialect) hx hx' hpaired hu
        (fun placed placed' υ υ' hp hp' => ?_) hτ
      obtain ⟨placed₀, _, hp₀, hlike⟩ := hfront hx hσ hp
      obtain ⟨placed₀', _, hp₀', hlike'⟩ := hfront hx' (hσ.trans hτ) hp'
      exact (he _ _ _ _ _ _ hx hx' hp₀ hp₀').congr Text.fine_id hlike hlike')
    ⟨Naming.alike_refl _, rfl⟩
  refine hboth.mono fun c c' hcode => ?_
  simpa [List.forall₂_eq_eq_eq] using hcode

/-- A program that includes nothing has no included file that ends in an underscore. -/
theorem noneUnderscored_lone : Branch.NoneUnderscored (lone .msx) (Branch.main (lone .msx)) 0 := by
  intro t u σ body τ h
  obtain ⟨_, _, _, _, _, -, hconvert, -, -, -⟩ := Branch.splice_cases h
  cases hconvert

/-- The line ends of two listings that include nothing, counted behind the first two stages. -/
theorem evenEnds_of_placed? {listing listing' : Listing} {p p' : List Token} (hp : placed? listing = some p)
    (hp' : placed? listing' = some p') (hl : Merge.Level p p') : EvenEnds (lone .msx) σ listing listing' := by
  intro l l' placed placed' τ τ' hx hx' hf hf'
  rwa [eq_of_placed? hx hp hf, eq_of_placed? hx' hp' hf']

/-- A line of comment between two lines. -/
theorem comment_interposed :
    ∃ c τ c' τ',
      ofListing (lone .msx) {} (Listing.framed "/main" (["print 1".toList] ++ ["print 2".toList])) {} = .ok c τ ∧
      ofListing (lone .msx) {} (Listing.framed "/main"
        (["print 1".toList] ++ " ## twice".toList :: ["print 2".toList])) {} = .ok c' τ' ∧ c.code = c'.code := by
  -- the runs and the conditions share the reading of the listings
  obtain ⟨hrun, hblocks, hplaced⟩ : (outcome (lone .msx) {} (Listing.framed "/main"
        (["print 1".toList] ++ ["print 2".toList]))).isSome = true ∧
      Lexer.blockOpen (Lexer.lex .msx (Listing.framed "/main" ["print 1".toList])) = false ∧
      (placed? (Listing.framed "/main" (["print 1".toList] ++ ["print 2".toList]))).any (fun p =>
        (placed? (Listing.framed "/main" (["print 1".toList] ++ " ## twice".toList :: ["print 2".toList]))).any
          fun p' => decide (Merge.Level p p')) = true := by decide +kernel
  obtain ⟨c, hc⟩ := Option.isSome_iff_exists.1 hrun
  obtain ⟨τ, hτ⟩ := exists_of_outcome hc
  obtain ⟨p, hp, hany⟩ := (Option.any_eq_true _ _).1 hplaced
  obtain ⟨p', hp', hlevel⟩ := (Option.any_eq_true _ _).1 hany
  have hready : Listing.Ready .msx "/main".toList ["print 1".toList] :=
    ⟨hblocks, fun he => absurd he (by decide)⟩
  have hcomment : Lexer.Codeless " ## twice".toList := .inr ⟨[' '], " twice".toList, rfl, by simp, by decide⟩
  have hboth := @code_interposed (lone .msx) {} {} "/main".toList " ## twice".toList ["print 1".toList]
    ["print 2".toList] hready hcomment (by decide) noneUnderscored_lone
    (evenEnds_of_placed? hp hp' (of_decide_eq_true hlevel))
  rw [hτ] at hboth
  generalize ofListing (lone .msx) {} (Listing.framed "/main"
    (["print 1".toList] ++ " ## twice".toList :: ["print 2".toList])) {} = r at hboth
  cases hboth with
  | ok hcode _ => exact ⟨c, τ, _, _, hτ, rfl, hcode⟩

/-- An underscore takes one line end, so a line of comment behind it parts what it joins. -/
theorem comment_parts_joined_lines :
    Listing.Ready .msx "/main" ["print 1 _".toList] ∧ Lexer.Codeless "##".toList ∧
      ∃ c τ c' τ',
        ofListing (lone .msx) { header := false }
          (Listing.framed "/main" (["print 1 _".toList] ++ ["+2".toList])) {} = .ok c τ ∧
        ofListing (lone .msx) { header := false }
          (Listing.framed "/main" (["print 1 _".toList] ++ "##".toList :: ["+2".toList])) {} = .ok c' τ' ∧
        c.code = ["10 print 1+2"] ∧ c'.code = ["10 print 1", "20 +2"] := by
  obtain ⟨hrun, hrun', hblocks, hdata⟩ : (outcome (lone .msx) { header := false } (Listing.framed "/main"
        (["print 1 _".toList] ++ ["+2".toList]))).map Compiled.code = some ["10 print 1+2".toList] ∧
      (outcome (lone .msx) { header := false } (Listing.framed "/main"
        (["print 1 _".toList] ++ "##".toList :: ["+2".toList]))).map Compiled.code =
          some ["10 print 1".toList, "20 +2".toList] ∧
      Lexer.blockOpen (Lexer.lex .msx (Listing.framed "/main" ["print 1 _".toList])) = false ∧
      Lexer.endsInData (Lexer.lex .msx (Listing.framed "/main" ["print 1 _".toList])) = false := by
    decide +kernel
  obtain ⟨c, hc, hcode⟩ := Option.map_eq_some_iff.1 hrun
  obtain ⟨c', hc', hcode'⟩ := Option.map_eq_some_iff.1 hrun'
  obtain ⟨τ, hτ⟩ := exists_of_outcome hc
  obtain ⟨τ', hτ'⟩ := exists_of_outcome hc'
  exact ⟨⟨hblocks, fun _ => hdata⟩, .inr ⟨[], [], rfl, by simp, by simp⟩, c, τ, c', τ', hτ, hτ', hcode, hcode'⟩

end Compile

end ClassicBasic
