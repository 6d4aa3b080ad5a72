import ClassicBasic.Proofs.Draft
import ClassicBasic.Proofs.Layouts
import ClassicBasic.Proofs.Snippets

/-!
# Drafts as text

Lines of source that are labels of numbered lines, or that each are read as a row of code, are lexed to
the draft of those labels and rows.
-/

set_option autoImplicit false

namespace ClassicBasic

open List (Forall₂)
open Glyph (OneLine endMark ofLine)
open NumberedLine (labelName)
open Text (IsIndent)

namespace Grammar

theorem nameTail_of_chars {typed : Bool} {t : Text} (h : ∀ c ∈ t, isNameChar c = true) :
    nameTail typed t = true := by
  fun_induction nameTail typed t with
  | case1 => rfl
  | case2 c => simp [h c]
  | case3 c rest _ ih =>
    rw [List.forall_mem_cons] at h
    rw [h.1, ih h.2]
    rfl

end Grammar

namespace Dialect

variable {d : Dialect} {v : Text} {x : Char}

theorem name_rule (d : Dialect) : ∀ r ∈ d.grammar, ∀ lead typed, r.shape = .name lead typed →
    r.kind = .identifier ∨ lead = ['.'] ∨ lead = ['#'] := by
  cases d <;> simp [grammar, dignifiedRules, classicRules]

/-- A name with an underscore is no keyword. -/
theorem classify_underscored (hu : '_' ∈ v) (hn : Grammar.isName true (x :: v) = true) :
    d.classify (x :: v) = some .identifier := by
  have hid : Shape.accepts (.name [] true) (x :: v) = true := by
    simpa [Shape.accepts, Grammar.after] using hn
  obtain ⟨k, h⟩ : ∃ k, d.classify (x :: v) = some k := by
    have hsome : (d.grammar.find? (·.shape.accepts (x :: v))).isSome = true :=
      List.find?_isSome.2 ⟨_, identifier_rule d, hid⟩
    obtain ⟨r, hr⟩ := Option.isSome_iff_exists.1 hsome
    exact ⟨r.kind, by rw [classify, hr]; rfl⟩
  obtain ⟨r, hmem, rfl, ha⟩ := classify_rule h
  have hx : Grammar.isLetter x = true := by
    rw [Grammar.isName, Bool.and_eq_true] at hn
    exact hn.1
  have hlen : (x :: v).length ≠ 1 := by
    have := List.length_pos_of_mem hu
    rw [List.length_cons]
    omega
  rcases Grammar.accepts_sign (Grammar.grammar_isClear d r hmem).2 ha (List.mem_cons_of_mem x hu)
    (by decide) ⟨by decide, by decide, by decide⟩ with hone | hends | ⟨lead, typed, rest, hs, heq, -⟩
  · exact absurd hone hlen
  · rw [hends] at ha
    simp only [Shape.accepts, Bool.and_eq_true, List.all_eq_true, beq_iff_eq] at ha
    exact absurd (ha.2 '_' (List.mem_cons_of_mem x hu)) (by decide)
  · rcases name_rule d r hmem lead typed hs with hk | rfl | rfl
    · rw [h, hk]
    · obtain ⟨rfl, -⟩ := List.cons.inj heq
      exact absurd hx (by decide)
    · obtain ⟨rfl, -⟩ := List.cons.inj heq
      exact absurd hx (by decide)

end Dialect

namespace NumberedLine

variable {n : Int}

theorem isName_labelled {typed : Bool} {u : Text} (h : ∀ c ∈ u, c.isDigit = true) :
    Grammar.isName typed ('l' :: '_' :: u) = true := by
  have hl : Grammar.isLetter 'l' = true := by decide
  rw [Grammar.isName, hl, Bool.true_and]
  refine Grammar.nameTail_of_chars (List.forall_mem_cons.2 ⟨by decide, fun c hc => ?_⟩)
  simp [Grammar.isNameChar, h c hc]

/-- The name of a label is one token. -/
theorem labelName_whole (d : Dialect) (hn : 0 ≤ n) :
    d.Whole (labelName n) ∧ d.classify (labelName n) = some .identifier := by
  obtain ⟨m, rfl⟩ := Int.eq_ofNat_of_zero_le hn
  have hdigits : ∀ c ∈ Text.ofInt m, c.isDigit = true := fun c hc => Text.isDigit_of_mem_ofNat hc
  have hname {u : Text} (hu : ∀ c ∈ u, c.isDigit = true) : d.classify ('l' :: '_' :: u) = some .identifier :=
    Dialect.classify_underscored List.mem_cons_self (isName_labelled hu)
  refine ⟨fun i hi => ?_, hname hdigits⟩
  rw [labelName_eq]
  match i with
  | 0 =>
    have hname : (Shape.name [] true).accepts ['l'] = true := by decide
    have hl : (d.classify ['l']).isSome = true := by
      rw [Dialect.classify, Option.isSome_map, List.find?_isSome]
      exact ⟨⟨.identifier, .name [] true⟩, Dialect.identifier_rule d, hname⟩
    exact hl
  | i + 1 =>
    rw [List.take_succ_cons, List.take_succ_cons, hname fun c hc => hdigits c (List.mem_of_mem_take hc)]
    rfl

end NumberedLine

namespace Lexer

variable {d : Dialect} {closing : Nat} {last : Kind} {file w : Text} {k : Kind} {next : Glyph}
  {gs rest : List Glyph}

/-- A word that ends where the next character stands is one token. -/
theorem lexFrom_spelled (hgs : Spells file gs w) (hw : d.Whole w) (hk : d.classify w = some k)
    (hn : d.classify (w ++ [next.char]) = none) (hne : w ≠ []) (hone : k = .mark ∨ k = .identifier)
    (hr : closing ≤ rest.length) : ∃ pos : Position, pos.file = file ∧
      lexFrom d closing last (gs ++ next :: rest) =
        (lexFrom d closing k (next :: rest)).map (⟨k, w, pos⟩ :: ·) := by
  obtain ⟨g, back, pos, rfl, hpos, hscan⟩ := scan_spelled rest hgs hw hk hn hne
  have hroom : closing ≤ (back ++ next :: rest).length := by
    rw [List.length_append, List.length_cons]
    omega
  have hself : complete d closing last ⟨k, w, pos⟩ (next :: rest) = .ok ([⟨k, w, pos⟩], next :: rest) := by
    refine complete_self ?_ ?_ <;> rcases hone with rfl | rfl <;> simp [Kind.opensRun]
  refine ⟨pos, hpos, ?_⟩
  rw [List.cons_append, lexFrom_token hroom hscan (by rcases hone with rfl | rfl <;> simp)
    (by rcases hone with rfl | rfl <;> simp) hself]
  rfl

/-- The tokens of a line on its own. -/
def readLine? (d : Dialect) (file t : Text) : Option (List Token) :=
  (lex d (Listing.framed file [t])).toOption.map fun tokens => (tokens.drop 2).dropLast.dropLast

theorem readLine?_eq (d : Dialect) (file t : Text) : readLine? d file t =
    (lexFrom d 4 .newline (Listing.glyphs file 1 [t] ++ Listing.final file 2)).toOption.map fun tokens =>
      tokens.dropLast.dropLast := by
  rw [readLine?, Listing.lex_framed]
  cases lexFrom d 4 .newline (Listing.glyphs file 1 [t] ++ Listing.final file 2) with
  | error e => rfl
  | ok tokens => rfl

end Lexer

open Lexer (readLine?)

namespace Token

variable {t u : Token}

theorem Same.value_id (h : u.Same id t) : u.value = t.value := by simpa using h.value

theorem Same.isMark (h : u.Same id t) (sign : Text) : u.isMark sign = t.isMark sign := by
  rw [Token.isMark, Token.isMark, h.kind, h.value_id]

theorem Same.isQuiet (h : u.Same id t) : u.isQuiet = t.isQuiet := by
  rw [Token.isQuiet, Token.isQuiet, h.kind, h.isMark]

theorem Same.isCalm (h : u.Same id t) : u.isCalm = t.isCalm := by
  rw [Token.isCalm, Token.isCalm, h.isQuiet, h.isMark, h.isMark]

end Token

theorem Row.same {names : List Text} {ts us : List Token} (h : Row names ts) (hu : Forall₂ (Token.Same id) us ts) :
    Row names us := by
  refine h.congr (R := fun t u => u.Same id t) (fun t u hs => ⟨hs.value_id, hs.isQuiet, hs.isMark⟩)
    (fun t u hs ht => ?_)
    (fun t u hs ht => ?_) hu.flip
  · rw [Token.startsRow] at ht ⊢
    rwa [hs.isCalm, hs.kind]
  · rw [Token.endsRow] at ht ⊢
    rwa [hs.kind]

theorem Glyph.text_ofLine {l : Line} {g : Glyph} (h : g ∈ ofLine l) : g.pos.text = l.read := by
  have hspread (line : Nat) (text file : Text) (col : Int) (rest : Text) :
      ∀ g ∈ spread line text file col rest, g.pos.text = text := by
    induction rest generalizing col with
    | nil => simp [spread, Position.onLine]
    | cons c rest ih => exact List.forall_mem_cons.2 ⟨rfl, ih (col + 1)⟩
  exact hspread _ _ _ _ _ g h

namespace Listing

variable {d : Dialect} {file w t : Text} {ts : List Token} {n : Nat}

theorem readLine?_blank (h : Text.trimBlankEnd t = []) : readLine? d file t = some [] := by
  obtain ⟨e, he, hglyphs⟩ := glyphs_blank h file 1 []
  have hend := @Lexer.lexFrom_end d .newline e (final file 2) he (head_final file 2)
  rw [length_final] at hend
  rw [Lexer.readLine?_eq, hglyphs, show glyphs file (1 + 1) [] = [] from rfl, List.cons_append,
    List.nil_append, hend]
  rfl

/-- A line that is read on its own is read so in front of other lines, up to its end mark. -/
theorem exists_read (hread : readLine? d file t = some ts) (hne : Text.trimBlankEnd t ≠ []) (hr : endMark ∉ w ++ t)
    (hs : ¬Spills d file t) (hw : IsIndent w) (n : Nat) :
    ∃ us last e, Forall₂ (Token.Same id) us ts ∧ (∀ u ∈ us, u.Homed file) ∧ e.char = '\r' ∧
      e.pos.text = Text.trimBlankEnd (w ++ t) ∧ ∀ X : List Glyph, 4 ≤ X.length →
        Lexer.lexFrom d 4 .newline (ofLine ⟨n, w ++ t, file⟩ ++ X) =
          (Lexer.lexFrom d 4 last (e :: X)).map (us ++ ·) := by
  obtain ⟨W, -, A, -, hline, -, -, hblank, -, hchars, hA⟩ := Glyph.ofLine_relaid file hw hw hne n n
  have hof : Glyph.Of (ofLine ⟨n, w ++ t, file⟩) file := Glyph.of_ofLine rfl
  have hone : OneLine A := (hline ▸ Glyph.oneLine_ofLine hr).suffix (List.suffix_append W A) hA
  have indent (X : List Glyph) (hX : 4 ≤ X.length) :
      Lexer.lexFrom d 4 .newline (W ++ A ++ X) = Lexer.lexFrom d 4 .newline (A ++ X) := by
    rw [List.append_assoc]
    refine Lexer.lexFrom_indent hblank ?_
    have := List.length_pos_of_ne_nil hA
    rw [List.length_append]
    omega
  have hsame := @line_same d file w [] t hw (by simp [IsIndent]) hne n 1 2 2
  rw [Lexer.readLine?_eq, Option.map_eq_some_iff] at hread
  obtain ⟨alone, halone, rfl⟩ := hread
  rw [glyphs_cons, hline, show glyphs file (n + 1) [] = [] from rfl, List.append_nil,
    indent _ (length_final file 2).ge, List.nil_append] at hsame
  -- read on its own, the line ends where its end mark is
  obtain ⟨tokens, hlex, htokens⟩ : ∃ tokens, Lexer.lexFrom d 4 .newline (A ++ final file 2) = .ok tokens ∧
      Forall₂ (Token.Same id) tokens alone := by
    rcases hsame.elim with ⟨e, e', -, he'⟩ | ⟨l, l', hl, hl', h⟩
    · rw [he'] at halone
      cases halone
    · rw [hl'] at halone
      cases halone
      exact ⟨l, hl, h⟩
  have hsettled := @Lexer.lexFrom_line d .newline A (final file 2) hone (head_final file 2)
  rw [length_final] at hsettled
  rcases hsettled (by rw [hlex]; rfl) (data_behind hs hw hne hline hblank hchars) with
    ⟨err, herr⟩ | ⟨us, last, e, heA, hmark, hgo⟩
  · rw [herr _ (length_final file 2).ge] at hlex
    cases hlex
  have hend := @Lexer.lexFrom_end d last e (final file 2) hmark (head_final file 2)
  rw [length_final] at hend
  rw [hgo _ (length_final file 2).ge, hend] at hlex
  obtain rfl : us ++ [_, _] = tokens := Except.ok.inj hlex
  refine ⟨us, last, e, ?_, ?_, hmark, ?_, fun X hX => ?_⟩
  · have htake := List.forall₂_take us.length htokens
    have hlen : alone.length = us.length + 2 := by simpa using htokens.length_eq.symm
    rw [List.take_left] at htake
    rwa [List.dropLast_eq_take, List.dropLast_eq_take, List.length_take, hlen, List.take_take,
      show min (min (us.length + 2 - 1) (us.length + 2) - 1) (us.length + 2 - 1) = us.length by omega]
  · have hfrom : Glyph.Of (A ++ final file 2) file := fun g hg => by
      rcases List.mem_append.1 hg with hg | hg
      · exact hof g (hline ▸ List.mem_append_right W hg)
      · exact Glyph.of_ofLine rfl g hg
    have hhomed := Lexer.lexFrom_homed hfrom (by rw [hgo _ (length_final file 2).ge, hend]; rfl)
    exact fun u hu => hhomed u (List.mem_append_left _ hu)
  · exact Glyph.text_ofLine (hline ▸ List.mem_append_right W heA)
  · rw [hline, indent X hX, hgo X hX]

/-- The label of a numbered line is a name between two marks. -/
theorem exists_label {m : Int} (hm : 0 ≤ m) (d : Dialect) (file : Text) : ∃ opener content closer,
    readLine? d file (NumberedLine.label m) = some [opener, content, closer] ∧ opener.isMark Label.opening = true ∧
      content.isQuiet = true ∧ content.value = labelName m ∧ closer.isMark Label.closing = true := by
  obtain ⟨hwhole, hname⟩ := NumberedLine.labelName_whole d hm
  obtain ⟨-, -, -, hopening, hclosing, -⟩ := Dialect.classify_boundaries d
  have sign {s : Text} {c : Char} (hs : s = [c]) (hk : d.classify s = some .mark) : d.Whole s := by
    intro i hi
    obtain rfl : i = 0 := by rw [hs, List.length_singleton] at hi; omega
    rw [hs] at hk ⊢
    rw [List.take_of_length_le (by simp), hk]
    rfl
  have hread : Text.trimBlankEnd (NumberedLine.label m) = NumberedLine.label m := by
    have hsign : Text.isBlank '\x7d' = false := by decide
    simp [NumberedLine.label, Label.bracketed, Label.closing, Text.trimBlankEnd, Text.trimEnd, hsign]
  obtain ⟨span, e, hline, hinside, hchars, -, hmark⟩ := Glyph.split_ofLine ⟨1, NumberedLine.label m, file⟩
  have hof : Glyph.Of (ofLine ⟨1, NumberedLine.label m, file⟩) file := Glyph.of_ofLine rfl
  have hspan : Spells file span (Label.opening ++ labelName m ++ Label.closing) :=
    ⟨hchars.trans hread, hinside, fun g hg => hof g (by simp [hline, hg])⟩
  obtain ⟨both, back, rfl, hboth, hback⟩ := hspan.split
  obtain ⟨front, middle, rfl, hfront, hmiddle⟩ := hboth.split
  -- each of the three parts ends where the next one starts
  have hreturn : '\r' ∈ Grammar.boundaries := by decide
  have hbrace : '\x7d' ∈ Grammar.boundaries := by decide
  obtain ⟨g, middle', rfl, hg, -, -⟩ := hmiddle.cons
  obtain ⟨u, back', rfl, hu, -, hnil⟩ := hback.cons
  obtain rfl := hnil.nil
  have hfour := length_final file 2
  obtain ⟨p₁, -, h₁⟩ := @Lexer.lexFrom_spelled d 4 .newline file _ _ g front
      (middle' ++ (u :: e :: final file 2)) hfront
    (sign rfl hopening) hopening (Dialect.classify_boundary_append (by decide) (by decide) _)
    (by simp [Label.opening])
    (.inl rfl) (by simp; omega)
  obtain ⟨p₂, -, h₂⟩ := @Lexer.lexFrom_spelled d 4 .mark file _ _ u (g :: middle') (e :: final file 2) hmiddle
    hwhole hname
    (hu ▸ Dialect.classify_append_boundary hbrace ⟨'l', by simp [NumberedLine.labelName_eq], by decide⟩)
    (by simp [NumberedLine.labelName_eq]) (.inr rfl) (by simp; omega)
  obtain ⟨p₃, -, h₃⟩ := @Lexer.lexFrom_spelled d 4 .identifier file _ _ e [u] (final file 2) hback
    (sign rfl hclosing) hclosing
    (hmark ▸ Dialect.classify_append_boundary hreturn ⟨'\x7d', by simp [Label.closing], by decide⟩)
    (by simp [Label.closing]) (.inl rfl) hfour.ge
  have hend := @Lexer.lexFrom_end d .mark e (final file 2) hmark (head_final file 2)
  rw [hfour] at hend
  refine ⟨⟨.mark, Label.opening, p₁⟩, ⟨.identifier, labelName m, p₂⟩, ⟨.mark, Label.closing, p₃⟩,
    ?_, rfl, rfl, rfl, rfl⟩
  rw [Lexer.readLine?_eq, glyphs_cons, hline, show glyphs file (1 + 1) [] = [] from rfl]
  simp only [List.append_assoc, List.cons_append, List.nil_append, List.append_nil] at h₁ h₂ h₃ ⊢
  rw [h₁, h₂, h₃, hend]
  rfl

end Listing

/-- Whether lines of source are those of a draft: labels of numbered lines, rows behind any indents, and
empty lines. -/
inductive Legible (d : Dialect) (file : Text) : List Text → List Draft → Prop
  | nil : Legible d file [] []
  | blank {L : List Text} {ds : List Draft} (more : Legible d file L ds) : Legible d file ([] :: L) ds
  | label {m : Int} {L : List Text} {ds : List Draft} (hm : 0 ≤ m) (more : Legible d file L ds) :
      Legible d file (NumberedLine.label m :: L) (.label m :: ds)
  | row {w t : Text} {names : List Text} {ts : List Token} {L : List Text} {ds : List Draft} (hw : IsIndent w)
      (hr : endMark ∉ t) (hread : readLine? d file t = some ts) (hrow : Row names ts) (hj : AreJumps names)
      (hs : ¬Listing.Spills d file t) (more : Legible d file L ds) :
      Legible d file ((w ++ t) :: L) (.row names (Text.trimBlankEnd (w ++ t)) :: ds)

namespace Legible

open Listing (glyphs final)

variable {d : Dialect} {file : Text} {L : List Text} {ds : List Draft}

/-- Whether what starts with no end mark is lexed to the tokens of a draft. -/
def Starts (d : Dialect) (file : Text) (ds : List Draft) (X : List Glyph) : Prop :=
  (∃ z Z, X = z :: Z ∧ z.char ≠ '\r') ∧ ∃ tokens, Lexer.lexFrom d 4 .newline X = .ok tokens ∧ Drafted file ds tokens

/-- Whether what follows is lexed to a line end and the tokens of a draft. -/
def Follows (d : Dialect) (file : Text) (ds : List Draft) (X : List Glyph) : Prop :=
  ∀ last M, M ≠ [] → (∀ g ∈ M, g.char = '\r') →
    ∃ newline tokens, Lexer.lexFrom d 4 last (M ++ X) = .ok (newline :: tokens) ∧
    newline.EndsRow d ∧ newline.pos = Glyph.place M ∧ Drafted file ds tokens

variable {X : List Glyph}

theorem Starts.follows (h : Starts d file ds X) (hr : 4 ≤ X.length) : Follows d file ds X := by
  intro last M hne hM
  obtain ⟨⟨z, Z, rfl, hz⟩, tokens, hlex, hd⟩ := h
  obtain ⟨newline, hn, hpos, hends⟩ := @Lexer.lexFrom_ends d 4 last M Z z hM hne hz hr
  exact ⟨newline, tokens, by rw [hends, hlex]; rfl, hn, hpos, hd⟩

theorem ne_keepSign {newline : Token} (h : newline.EndsRow d) : newline.value ≠ Merge.keepSign :=
  h.returns.ne (by decide)

variable {w t : Text} {ts : List Token}

/-- A line that is read on its own comes in front of what follows. -/
theorem exists_behind (hread : readLine? d file t = some ts) (hne : Text.trimBlankEnd t ≠ [])
    (hr : endMark ∉ w ++ t)
    (hs : ¬Listing.Spills d file t) (hw : IsIndent w) (n k : Nat)
    (more : Follows d file ds (glyphs file (n + 1) L ++ final file k)) :
    (∃ z Z, glyphs file n ((w ++ t) :: L) ++ final file k = z :: Z ∧ z.char ≠ '\r') ∧
      ∃ us newline tokens, Forall₂ (Token.Same id) us ts ∧ (∀ u ∈ us, u.Homed file) ∧ newline.EndsRow d ∧
        newline.pos.text = Text.trimBlankEnd (w ++ t) ∧ Drafted file ds tokens ∧
        Lexer.lexFrom d 4 .newline (glyphs file n ((w ++ t) :: L) ++ final file k) =
          .ok (us ++ newline :: tokens) := by
  have hshown : Text.trimBlankEnd (w ++ t) ≠ [] := by
    rw [Text.trimBlankEnd_indented hw, if_neg hne]
    exact List.append_ne_nil_of_right_ne_nil _ hne
  obtain ⟨us, last, e, hsame, hhomed, hmark, htext, hlex⟩ := Listing.exists_read hread hne hr hs hw n
  obtain ⟨newline, tokens, hmore, hn, hpos, hd⟩ := more last [e] (by simp) (by simpa using hmark)
  refine ⟨Listing.exists_head hr hshown n _, us, newline, tokens, hsame, hhomed, hn,
    by rw [hpos]; exact htext, hd, ?_⟩
  rw [Listing.glyphs_cons, List.append_assoc, hlex _ (Listing.room_final _ _ _), ← List.singleton_append, hmore]
  rfl

theorem returns_indented (hw : IsIndent w) (hr : endMark ∉ t) : endMark ∉ w ++ t := by
  rw [List.mem_append, not_or]
  exact ⟨fun hm => by simpa [endMark] using hw _ hm, hr⟩

theorem starts_row {names : List Text} (hw : IsIndent w) (hr : endMark ∉ t) (hread : readLine? d file t = some ts)
    (hrow : Row names ts) (hj : AreJumps names) (hs : ¬Listing.Spills d file t) (n k : Nat)
    (more : Follows d file ds (glyphs file (n + 1) L ++ final file k)) :
    Starts d file (.row names (Text.trimBlankEnd (w ++ t)) :: ds)
      (glyphs file n ((w ++ t) :: L) ++ final file k) := by
  have hne : Text.trimBlankEnd t ≠ [] := by
    intro hnil
    obtain rfl : [] = ts := Option.some.inj ((Listing.readLine?_blank hnil).symm.trans hread)
    exact absurd hrow.head (by decide)
  obtain ⟨hhead, us, newline, tokens, hsame, hhomed, hn, htext, hd, hlex⟩ :=
    exists_behind hread hne (returns_indented hw hr) hs hw n k more
  exact ⟨hhead, _, hlex, .row (hrow.same hsame) hj hhomed hn.kind (ne_keepSign hn) htext hd⟩

theorem starts_label {m : Int} (hm : 0 ≤ m) (n k : Nat)
    (more : Follows d file ds (glyphs file (n + 1) L ++ final file k)) :
    Starts d file (.label m :: ds) (glyphs file n (NumberedLine.label m :: L) ++ final file k) := by
  obtain ⟨opener, content, closer, hread, ho, hc, hv, hclose⟩ := Listing.exists_label hm d file
  have hlast : (Text.trimBlankEnd (NumberedLine.label m)).getLast? = some '\x7d' := by
    have hsign : Text.isBlank '\x7d' = false := by decide
    simp [NumberedLine.label, Label.bracketed, Label.closing, Text.trimBlankEnd, Text.trimEnd, hsign]
  have hne : Text.trimBlankEnd (NumberedLine.label m) ≠ [] := fun hnil => by simp [hnil] at hlast
  have hspills : ¬Listing.Spills d file (NumberedLine.label m) := by
    rintro ⟨hs, -⟩
    rw [hlast] at hs
    exact absurd hs (by decide)
  have hr : endMark ∉ [] ++ NumberedLine.label m := fun hm =>
    (NumberedLine.inLine_jumpText 0 (m := 0) (.inr hm)).1.1 rfl
  obtain ⟨hhead, us, newline, tokens, hsame, hhomed, hn, -, hd, hlex⟩ :=
    exists_behind hread hne hr hspills (by simp [IsIndent]) n k more
  obtain _ | ⟨hopener, _ | ⟨hcontent, _ | ⟨hcloser, _ | _⟩⟩⟩ := hsame
  have hmark := (hcloser.isMark _).trans hclose
  refine ⟨hhead, _, hlex, .label ((hopener.isMark _).trans ho) (hcontent.isQuiet.trans hc)
    (hcontent.value_id.trans hv) hmark (hhomed _ (by simp) ?_ (.inl (Token.kind_of_isMark hmark))) hn.kind hd⟩
  rw [Token.kind_of_isMark hmark]
  rfl

/-- Legible lines are lexed to their draft, as they stand or behind line ends. -/
theorem lexed (h : Legible d file L ds) (n k : Nat) :
    (L.head? ≠ some [] → Starts d file ds (glyphs file n L ++ final file k)) ∧
      Follows d file ds (glyphs file n L ++ final file k) := by
  induction h generalizing n with
  | nil =>
    obtain ⟨z, Z, hfinal, hz⟩ := Listing.exists_final file k
    have hlex : Lexer.lexFrom d 4 .newline (final file k) =
        .ok [⟨.eof, Listing.eofText, Glyph.place (final file k)⟩] := by
      obtain ⟨g, more, hcons⟩ := List.exists_cons_of_ne_nil (show final file k ≠ [] by simp [hfinal])
      have hlen := Listing.length_final file k
      rw [hcons] at hlen ⊢
      rw [Lexer.lexFrom, if_pos (by simp at hlen; omega)]
      rfl
    have hstarts : Starts d file [] (final file k) := ⟨⟨z, Z, hfinal, hz⟩, _, hlex, .done rfl⟩
    exact ⟨fun _ => hstarts, hstarts.follows (Listing.length_final file k).ge⟩
  | @blank L ds more ih =>
    obtain ⟨e, he, hglyphs⟩ := Listing.glyphs_blank (t := []) rfl file n L
    refine ⟨fun hL => absurd rfl hL, fun last M hne hM => ?_⟩
    -- an empty line is one more line end
    obtain ⟨newline, tokens, hlex, hn, hpos, hd⟩ := (ih (n + 1)).2 last (M ++ [e]) (by simp)
      (by simpa [or_imp, forall_and] using ⟨hM, he⟩)
    obtain ⟨g, M, rfl⟩ := List.exists_cons_of_ne_nil hne
    exact ⟨newline, tokens, by rw [hglyphs]; simpa using hlex, hn, hpos, hd⟩
  | @label m L ds hm more ih =>
    have hstarts := starts_label hm n k (ih (n + 1)).2
    exact ⟨fun _ => hstarts, hstarts.follows (Listing.room_final _ _ _)⟩
  | @row w t names ts L ds hw hr hread hrow hj hs more ih =>
    have hstarts := starts_row hw hr hread hrow hj hs n k (ih (n + 1)).2
    exact ⟨fun _ => hstarts, hstarts.follows (Listing.room_final _ _ _)⟩

/-- A listing of legible lines is lexed to its start and the tokens of its draft. -/
theorem lex_framed (h : Legible d file L ds) (hL : L.head? ≠ some []) : ∃ start newline input,
    Lexer.lex d (Listing.framed file L) = .ok (start :: newline :: input) ∧ Drafted file ds input ∧
      start.kind = .program ∧ start.value ≠ Merge.keepSign ∧ newline.kind = .newline ∧
      newline.value ≠ Merge.keepSign := by
  have hstart : Listing.programText ≠ Merge.keepSign := by decide
  have hend : [endMark] ≠ Merge.keepSign := by decide
  obtain ⟨-, tokens, hlex, hd⟩ := (h.lexed 1 (L.length + 1)).1 hL
  exact ⟨_, _, tokens, by rw [Listing.lex_framed, hlex]; rfl, hd, rfl, hstart, rfl, hend⟩

end Legible

end ClassicBasic
