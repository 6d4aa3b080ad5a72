import ClassicBasic.Proofs.Interposed

/-!
# Lines laid out anew

Blanks in front of a line and empty lines behind one are not seen by the lexer: it skips the blanks and
takes line ends one after the other for one. Blocks of comments are left at the same lines. Only the
lines of a block of remarks are kept as they are laid out, and an item of DATA may go on in an empty
line.
-/

set_option autoImplicit false

namespace ClassicBasic

open List (Forall₂)
open Token (Twins)
open Glyph (Laid Inside Same endMark ofLine)
open Outcome (Both)

namespace Text

variable {w v t : Text}

/-- Whether a text is made of blanks and tabs. -/
def IsIndent (w : Text) : Prop := ∀ c ∈ w, c = ' ' ∨ c = '\t'

theorem IsIndent.isBlank (hw : IsIndent w) : ∀ c ∈ w, Text.isBlank c = true := by
  intro c hc
  rcases hw c hc with rfl | rfl <;> decide

theorem trimBlankEnd_indented (hw : IsIndent w) :
    trimBlankEnd (w ++ t) = if trimBlankEnd t = [] then [] else w ++ trimBlankEnd t := by
  have hblank : w.reverse.dropWhile isBlank = [] := by
    rw [List.dropWhile_eq_nil_iff]
    exact fun c hc => hw.isBlank c (List.mem_reverse.1 hc)
  unfold trimBlankEnd trimEnd
  rw [List.reverse_append, List.dropWhile_append, hblank]
  cases t.reverse.dropWhile isBlank with
  | nil => simp
  | cons c rest => simp

theorem isPrefix_trimBlankEnd (t : Text) : trimBlankEnd t <+: t := ⟨_, trimEnd_append_takeWhile isBlank t⟩

/-- Whether a text holds no two apostrophes side by side. -/
def Unpaired (t : Text) : Prop := ¬['\'', '\''] <:+: t

instance (t : Text) : Decidable (Unpaired t) := inferInstanceAs (Decidable (¬_))

theorem unpaired_iff_isChain : Unpaired t ↔ t.IsChain fun a b => ¬(a = '\'' ∧ b = '\'') := by
  rw [List.isChain_iff_forall_rel_of_append_cons_cons]
  constructor
  · rintro h a b front back rfl ⟨rfl, rfl⟩
    exact h ⟨front, back, by simp⟩
  · rintro h ⟨front, back, hback⟩
    exact @h _ _ front back (by simpa using hback.symm) ⟨rfl, rfl⟩

theorem Unpaired.part (h : Unpaired t) (hv : v <:+: t) : Unpaired v := fun hp => h (hp.trans hv)

theorem unpaired_append : Unpaired (t ++ v) ↔ Unpaired t ∧ Unpaired v ∧
    ¬(t.getLast? = some '\'' ∧ v.head? = some '\'') := by
  rw [unpaired_iff_isChain, unpaired_iff_isChain, unpaired_iff_isChain, List.isChain_append]
  refine and_congr_right fun _ => and_congr_right fun _ => ⟨?_, ?_⟩
  · rintro h ⟨hlast, hhead⟩
    exact h _ hlast _ hhead ⟨rfl, rfl⟩
  · rintro h x hx y hy ⟨rfl, rfl⟩
    exact h ⟨hx, hy⟩

theorem isSuffix_indented {s : Text} (hw : IsIndent w) (hs : ∀ c ∈ s, c ≠ ' ' ∧ c ≠ '\t') :
    s <:+ w ++ v ↔ s <:+ v := by
  refine ⟨fun h => ?_, fun h => h.trans (List.suffix_append w v)⟩
  rcases List.suffix_or_suffix_of_suffix h (List.suffix_append w v) with h' | ⟨p, rfl⟩
  · exact h'
  · cases p with
    | nil => exact List.suffix_refl _
    | cons c p =>
      obtain ⟨q, hq⟩ := h
      rw [← List.append_assoc, List.append_left_inj] at hq
      obtain ⟨hspace, htab⟩ := hs c (by simp)
      exact absurd (hw c (hq ▸ by simp)) (by simp [hspace, htab])

end Text

open Text (IsIndent)

/-- Whether lines are the same but for what they are indented by and for empty lines. `P` holds of what
is behind the indents. -/
inductive Listing.Relaid (P : Text → Prop) : List Text → List Text → Prop
  | nil : Relaid P [] []
  | line {w w' t : Text} {L L' : List Text} (hw : IsIndent w) (hw' : IsIndent w') (ht : P t)
      (more : Relaid P L L') : Relaid P ((w ++ t) :: L) ((w' ++ t) :: L')
  | left {L L' : List Text} (more : Relaid P L L') : Relaid P ([] :: L) L'
  | right {L L' : List Text} (more : Relaid P L L') : Relaid P L ([] :: L')

namespace Listing.Relaid

variable {P Q : Text → Prop} {L L' M M' : List Text}

theorem mono (h : Relaid P L L') (hPQ : ∀ t, P t → Q t) : Relaid Q L L' := by
  induction h with
  | nil => exact .nil
  | line hw hw' ht _ ih => exact .line hw hw' (hPQ _ ht) ih
  | left _ ih => exact .left ih
  | right _ ih => exact .right ih

theorem append (h : Relaid P L L') (hM : Relaid P M M') : Relaid P (L ++ M) (L' ++ M') := by
  induction h with
  | nil => exact hM
  | line hw hw' ht _ ih => exact .line hw hw' ht ih
  | left _ ih => exact .left ih
  | right _ ih => exact .right ih

/-- What is behind the indents stands in the lines. -/
theorem mem (h : Relaid P L L') : Relaid (fun t => P t ∧ ∃ w, IsIndent w ∧ w ++ t ∈ L) L L' := by
  induction h with
  | nil => exact .nil
  | line hw hw' ht _ ih =>
    refine .line hw hw' ⟨ht, _, hw, List.mem_cons_self⟩ (ih.mono ?_)
    rintro t ⟨ht, w, hw, hm⟩
    exact ⟨ht, w, hw, List.mem_cons_of_mem _ hm⟩
  | left _ ih =>
    refine .left (ih.mono ?_)
    rintro t ⟨ht, w, hw, hm⟩
    exact ⟨ht, w, hw, List.mem_cons_of_mem _ hm⟩
  | right _ ih => exact .right ih

end Listing.Relaid

namespace Glyph

variable {A R : List Glyph} {g : Glyph} {w w' t file : Text}

/-- Characters of one line, its end mark included. -/
structure OneLine (A : List Glyph) : Prop where
  laid : Laid A
  ne_nil : A ≠ []
  inside : Inside A.dropLast

theorem OneLine.suffix (h : OneLine A) (hs : R <:+ A) (hne : R ≠ []) : OneLine R := by
  refine ⟨h.laid.suffix hs, hne, fun g hg => h.inside g ?_⟩
  obtain ⟨gone, rfl⟩ := hs
  rw [List.dropLast_append_of_ne_nil hne]
  exact List.mem_append_right _ hg

theorem OneLine.split (h : OneLine A) :
    ∃ span e, A = span ++ [e] ∧ Inside span ∧ e.ends = true ∧ e.char = '\r' := by
  have hlast := h.laid.last _ (List.getLast?_eq_some_getLast h.ne_nil)
  refine ⟨A.dropLast, A.getLast h.ne_nil, (List.dropLast_append_getLast h.ne_nil).symm, h.inside, hlast,
    (h.laid.apt _ (List.getLast_mem _)).marks.2 hlast⟩

theorem OneLine.marks (h : OneLine A) (hall : ∀ g ∈ A, g.char = '\r') : ∃ e, A = [e] ∧ e.char = '\r' := by
  obtain ⟨span, e, rfl, hspan, -, hmark⟩ := h.split
  cases span with
  | nil => exact ⟨e, rfl, hmark⟩
  | cons g span =>
    have hends := (h.laid.apt g (by simp)).marks.1 (hall g (by simp))
    rw [hspan g (by simp)] at hends
    cases hends

theorem OneLine.char_ne (h : OneLine (g :: R)) (hR : R ≠ []) : g.char ≠ '\r' := by
  refine h.laid.char_ne.2 (h.inside g ?_)
  obtain ⟨u, more, rfl⟩ := List.exists_cons_of_ne_nil hR
  simp

/-- Behind a comment that goes up to the end of the line its end mark is left. -/
theorem OneLine.restOfLine (h : OneLine R) (C : List Glyph) :
    ∃ e, e.char = '\r' ∧ (Glyph.restOfLine (R ++ C)).2 = e :: C := by
  obtain ⟨span, e, rfl, hspan, hends, hmark⟩ := h.split
  have hall : ∀ u ∈ span, (!u.ends) = true := fun u hu => by simp [hspan u hu]
  have hlast : (Glyph.restOfLine (span ++ [e])).2 = [e] := by
    simp [Glyph.restOfLine, List.dropWhile_append_of_pos hall, hends]
  refine ⟨e, hmark, ?_⟩
  rw [h.laid.restOfLine_append h.ne_nil, hlast, List.singleton_append]

theorem split_ofLine (l : Line) : ∃ span e, ofLine l = span ++ [e] ∧ Inside span ∧ span.map char = l.read ∧
    e.ends = true ∧ e.char = '\r' := by
  obtain ⟨span, col, hspread, hspan⟩ := Lexer.spread_append l.number l.read l.file 1 l.read []
  rw [List.append_nil] at hspread
  exact ⟨span, _, hspread, hspan.inside, hspan.chars, rfl, rfl⟩

theorem oneLine_ofLine {l : Line} (h : endMark ∉ l.text) : OneLine (ofLine l) := by
  obtain ⟨span, e, hline, hspan, -, -, -⟩ := split_ofLine l
  refine ⟨Listing.laid_ofLine h, ?_, ?_⟩ <;> rw [hline]
  · simp
  · simpa using hspan

/-- A line in two layouts: behind the blanks it is the same. -/
theorem ofLine_relaid (file : Text) (hw : IsIndent w) (hw' : IsIndent w')
    (ht : Text.trimBlankEnd t ≠ []) (n n' : Nat) :
    ∃ W W' A A', ofLine ⟨n, w ++ t, file⟩ = W ++ A ∧ ofLine ⟨n', w' ++ t, file⟩ = W' ++ A' ∧
      Forall₂ (Same id) A A' ∧ (∀ g ∈ W, g.char = ' ' ∨ g.char = '\t') ∧
      (∀ g ∈ W', g.char = ' ' ∨ g.char = '\t') ∧ A.map char = Text.trimBlankEnd t ++ [endMark] ∧ A ≠ [] := by
  have line {w : Text} (hw : IsIndent w) (n : Nat) : ∃ W col, ofLine ⟨n, w ++ t, file⟩ =
      W ++ spread n (w ++ Text.trimBlankEnd t) file col (Text.trimBlankEnd t) ∧ W.map char = w := by
    obtain ⟨W, col, hspread, hW⟩ := Lexer.spread_append n (w ++ Text.trimBlankEnd t) file 1 w (Text.trimBlankEnd t)
    refine ⟨W, col, ?_, hW.chars⟩
    rw [← hspread, ofLine, Text.trimBlankEnd_indented hw, if_neg ht]
  obtain ⟨W, col, hline, hW⟩ := line hw n
  obtain ⟨W', col', hline', hW'⟩ := line hw' n'
  have hsame : Forall₂ (Same id) (spread n (w ++ Text.trimBlankEnd t) file col (Text.trimBlankEnd t))
      (spread n' (w' ++ Text.trimBlankEnd t) file col' (Text.trimBlankEnd t)) := spread_same rfl _ _ _ _ _ _
  have hchars := chars_ofLine ⟨n, w ++ t, file⟩
  rw [hline, List.map_append, hW, Line.read, Text.trimBlankEnd_indented hw, if_neg ht, List.append_assoc,
    List.append_right_inj] at hchars
  refine ⟨W, W', _, _, hline, hline', hsame, fun g hg => hw _ (hW ▸ List.mem_map_of_mem hg),
    fun g hg => hw' _ (hW' ▸ List.mem_map_of_mem hg), hchars, fun hnil => ?_⟩
  rw [hnil] at hchars
  simp at hchars

theorem ofLine_blank {l : Line} (h : Text.trimBlankEnd l.text = []) :
    ∃ e, ofLine l = [e] ∧ e.char = '\r' ∧ e.ends = true := by
  refine ⟨⟨endMark, .onLine l.number 1 [] l.file, true⟩, ?_, rfl, rfl⟩
  simp [ofLine, h, spread]

end Glyph

open Glyph (OneLine)

namespace Lexer

variable {d : Dialect} {closing : Nat} {last : Kind} {g : Glyph} {A A' C rest input left : List Glyph} {t : Token}

/-! ### Within a line -/

theorem complete_ok (h : last = .newline → t.kind ≠ .blockRemark ∧ t.kind ≠ .blockComment) :
    ∃ read, complete d closing last t input = .ok read := by
  unfold complete
  split
  · split <;> exact ⟨_, rfl⟩
  · rename_i hk
    rw [if_neg fun hl => (h hl).1 hk]
    exact ⟨_, rfl⟩
  · rename_i hk
    rw [if_neg fun hl => (h hl).2 hk]
    exact ⟨_, rfl⟩
  all_goals exact ⟨_, rfl⟩

theorem complete_nil (h : complete d closing last t input = .ok ([], left))
    (hb : last = .newline → t.kind ≠ .blockRemark ∧ t.kind ≠ .blockComment) :
    left = (Glyph.restOfLine input).2 := by
  unfold complete at h
  split at h
  · split at h <;> cases h
  · rename_i hk
    rw [if_neg fun hl => (hb hl).1 hk] at h
    cases h
  · rename_i hk
    rw [if_neg fun hl => (hb hl).2 hk] at h
    cases h
    rfl
  · cases h
    rfl
  · cases hread : (Glyph.restOfLine input).1 with
    | nil =>
      rw [hread] at h
      cases h
    | cons c more =>
      rw [hread] at h
      cases h
  all_goals cases h

/-- The first token of a line is none that ends a line, and nothing read behind it is: where the token
before it still counts as the last one, nothing has been read. -/
theorem complete_silent (hg : g.char ≠ '\r') {R : List Glyph} (hscan : scan d g input = .ok (t, R))
    (hm : Glyph.Marked R) {ts : List Token} (h : complete d closing last t R = .ok (ts, left))
    (hlast : (ts.getLast?.map Token.kind).getD last = .newline) : ts = [] := by
  have hvalue := scan_classified hscan
  rcases complete_cases hm hvalue h with ⟨hinner, -⟩ | ⟨-, hk⟩ | ⟨-, -, -, ⟨u, hu, hk⟩, -⟩
  · cases hts : ts.getLast? with
    | none => exact List.getLast?_eq_none_iff.1 hts
    | some u =>
      have hk := hinner u (List.mem_of_getLast? hts)
      rw [hts] at hlast
      rw [show u.kind = .newline from hlast] at hk
      cases hk
  · obtain ⟨span, hspan, hne, htext, -⟩ := scan_span hscan
    obtain ⟨u, span, rfl⟩ := List.exists_cons_of_ne_nil hne
    obtain rfl : g = u := (List.cons.inj hspan).1
    exact absurd ((Dialect.accepts_newline (hk ▸ hvalue)).2 _ (by rw [htext]; simp)) hg
  · rw [Option.mem_def.1 hu] at hlast
    rw [show u.kind = .newline from hlast] at hk
    cases hk

theorem blockOpen_step (hC : ∃ u ∈ C.head?, u.char ≠ '\r') (hm : Glyph.Marked C) (hA : OneLine (g :: rest))
    (hopens : last = .newline → ∀ t R, scan d g (rest ++ C) = .ok (t, R) →
      t.kind ≠ .spaces ∧ t.kind ≠ .blockRemark ∧ t.kind ≠ .blockComment)
    (ih : ∀ L last', OneLine L → L <:+ rest → last' ≠ .newline →
      blockOpen (lexFrom d C.length last' (L ++ C)) = false) :
    blockOpen (lexFrom d C.length last (g :: rest ++ C)) = false := by
  by_cases hrest : rest = []
  · subst hrest
    obtain ⟨e, he, hmark⟩ := hA.marks (by
      obtain ⟨span, e, hsplit, -, -, hmark⟩ := hA.split
      obtain rfl : span = [] := by simpa using congrArg List.length hsplit
      obtain rfl : g = e := by simpa using hsplit
      simpa using hmark)
    rw [he, List.singleton_append, lexFrom_end hmark hC]
    rfl
  have hroom : C.length ≤ (rest ++ C).length := by simp
  rw [List.cons_append, lexFrom_cons hroom]
  rcases scan_local (d := d) hA.laid ⟨g, by simp, hA.char_ne hrest⟩ with ⟨t, R, hR, hRA, hscan⟩ | ⟨text, hscan⟩
  swap
  · rw [hscan]
    rfl
  have hline : OneLine R := hA.suffix (hRA.trans (List.suffix_cons g rest)) hR
  rw [hscan]
  simp only [bind, Except.bind]
  split
  · rename_i hsp
    exact ih R last hline hRA fun hl => (hopens hl t _ (hscan C)).1 hsp
  split
  · rfl
  have hb : last = .newline → t.kind ≠ .blockRemark ∧ t.kind ≠ .blockComment :=
    fun hl => (hopens hl t _ (hscan C)).2
  obtain ⟨⟨ts, left⟩, hread⟩ : ∃ read, complete d C.length last t (R ++ C) = .ok read := complete_ok hb
  rw [hread]
  simp only [blockOpen_map]
  by_cases hlast : (ts.getLast?.map Token.kind).getD last = .newline
  · -- a comment is read to the end of the line
    have hmarked : Glyph.Marked (R ++ C) := by
      intro u hu
      rcases List.mem_append.1 hu with hu | hu
      · exact fun he => (hline.laid.apt u hu).marks.2 he
      · exact hm u hu
    obtain rfl := complete_silent (hA.char_ne hrest) (hscan C) hmarked hread hlast
    obtain ⟨e, hmark, hrestOf⟩ := hline.restOfLine C
    rw [complete_nil hread hb, hrestOf, lexFrom_end hmark hC]
    rfl
  · rcases @complete_local d C.length last _ hline.laid hR t with
      ⟨us, L, hL, hLR, hok⟩ | ⟨line, pos, herr⟩ | ⟨front, u, e, us, v, rfl, hu, he, hv, hok⟩
    · rw [hok C (Nat.le_refl _)] at hread
      cases hread
      exact ih L _ (hline.suffix hLR hL) (hLR.trans hRA) hlast
    · rw [herr C rfl] at hread
      cases hread
    · rw [hok C rfl] at hread
      cases hread
      rw [lexFrom_end he hC]
      rfl

/-- Behind the first token of a line no block is opened. -/
theorem blockOpen_line (hC : ∃ u ∈ C.head?, u.char ≠ '\r') (hm : Glyph.Marked C) (hA : OneLine A)
    (hl : last ≠ .newline) : blockOpen (lexFrom d C.length last (A ++ C)) = false := by
  obtain ⟨n, hn⟩ : ∃ n, A.length = n := ⟨_, rfl⟩
  induction n using Nat.strong_induction_on generalizing A last with
  | _ n ih =>
    obtain ⟨g, rest, rfl⟩ := List.exists_cons_of_ne_nil hA.ne_nil
    refine blockOpen_step hC hm hA (fun h => absurd h hl) fun L last' hL hsuffix hlast => ?_
    have hlen := hsuffix.length_le
    exact ih L.length (by simp only [List.length_cons] at hn; omega) hL hlast rfl

/-! ### Across lines -/

/-- What is left behind a block of comments whose lines start here. -/
def behindBlock (opener : Token) (input : List Glyph) : Option (List Glyph) :=
  (blockLines 4 opener input).toOption.map Prod.snd

/-- A line of a block closes it, or the block goes on in the next line. -/
theorem behindBlock_line {opener : Token} {span X : List Glyph} {e : Glyph} (hv : opener.value = blockSign)
    (hs : Inside span) (he : e.ends = true) (hX : ¬4 < X.length → behindBlock opener X = none) :
    behindBlock opener (span ++ e :: X) =
      if blockSign <:+ span.map Glyph.char then some (e :: X) else behindBlock opener X := by
  have hall : ∀ u ∈ span, (!u.ends) = true := fun u hu => by simp [hs u hu]
  have hread : Glyph.restOfLine (span ++ e :: X) = (span.map Glyph.char, e :: X) := by
    simp [Glyph.restOfLine, List.takeWhile_append_of_pos hall, List.dropWhile_append_of_pos hall, he]
  have hnext : Glyph.nextLine? 4 (e :: X) = if 4 < X.length then some X else none := by
    simp [Glyph.nextLine?, he]
  rw [behindBlock, blockLines, hread]
  simp only [hv, Text.dropTail, List.isSuffixOf_iff_suffix]
  by_cases hsuffix : blockSign <:+ span.map Glyph.char
  · simp only [if_pos hsuffix]
    rfl
  · simp only [if_neg hsuffix]
    by_cases hlen : 4 < X.length
    · split
      · rename_i hx
        rw [hnext, if_pos hlen] at hx
        cases hx
      · rename_i hx
        rw [hnext, if_pos hlen] at hx
        cases hx
        rw [behindBlock]
        cases blockLines 4 opener X <;> rfl
    · rw [hX hlen]
      split
      · rfl
      · rename_i hx
        rw [hnext, if_neg hlen] at hx
        cases hx

theorem block_behind {span X : List Glyph} {e : Glyph} (hk : t.kind = .blockComment) (hv : t.value = blockSign)
    (hs : Inside span) (he : e.ends = true) (hX : ¬4 < X.length → behindBlock t X = none) :
    (∃ err, block 4 t (span ++ e :: X) = .error err ∧ behindBlock t (span ++ e :: X) = none) ∨
      ∃ left, block 4 t (span ++ e :: X) = .ok ([], left) ∧ behindBlock t (span ++ e :: X) = some left := by
  have lines {input : List Glyph} (hstart : blockStart? 4 (span ++ e :: X) = some input)
      (hbehind : behindBlock t (span ++ e :: X) = behindBlock t input) :
      (∃ err, block 4 t (span ++ e :: X) = .error err ∧ behindBlock t (span ++ e :: X) = none) ∨
        ∃ left, block 4 t (span ++ e :: X) = .ok ([], left) ∧ behindBlock t (span ++ e :: X) = some left := by
    rw [hbehind, behindBlock]
    simp only [block, hstart]
    cases blockLines 4 t input with
    | error err => exact .inl ⟨err, rfl, rfl⟩
    | ok read => exact .inr ⟨read.2, by simp [Except.map, hk], rfl⟩
  have hall : ∀ u ∈ span, (!u.ends) = true := fun u hu => by simp [hs u hu]
  have hread : (Glyph.restOfLine (span ++ e :: X)).1 = span.map Glyph.char := by
    simp [Glyph.restOfLine, List.takeWhile_append_of_pos hall, he]
  by_cases hnil : span = []
  · subst hnil
    rw [List.map_nil, List.nil_append] at hread
    rw [List.nil_append] at lines ⊢
    have hnext : Glyph.nextLine? 4 (e :: X) = if 4 < X.length then some X else none := by
      simp [Glyph.nextLine?, he]
    have hbehind : behindBlock t (e :: X) = behindBlock t X := by
      have hline := @behindBlock_line t [] X e hv (by simp [Inside]) he hX
      rwa [List.nil_append, if_neg (by decide)] at hline
    by_cases hlen : 4 < X.length
    · exact lines (by simp [blockStart?, hread, hnext, hlen]) hbehind
    · refine .inl ⟨t.failure (.blockNotClosed t.pos.line), ?_, by rw [hbehind, hX hlen]⟩
      simp [block, blockStart?, hread, hnext, hlen]
  · exact lines (by simp [blockStart?, hread, hnil]) rfl

theorem lexFrom_indent {W X : List Glyph} (hW : ∀ g ∈ W, g.char = ' ' ∨ g.char = '\t') (hr : closing < X.length) :
    lexFrom d closing last (W ++ X) = lexFrom d closing last X := by
  cases X with
  | nil => cases hr
  | cons g rest => exact lexFrom_blanks hW (Nat.lt_succ_iff.1 hr)

theorem endsInData_same {r r' : Except Failure (List Token)} (h : Both (Forall₂ (Token.Same id)) r r') :
    endsInData r = endsInData r' := by
  rcases h.elim with ⟨e, e', rfl, rfl⟩ | ⟨l, l', rfl, rfl, hl⟩
  · rfl
  · have hkinds : l.map Token.kind = l'.map Token.kind := by
      rw [← List.forall₂_eq_eq_eq, List.forall₂_map_left_iff, List.forall₂_map_right_iff]
      exact hl.imp fun _ _ ht => ht.kind
    have hdata (l : List Token) : (l.reverse.drop 2).head?.any (·.kind == .dataField) =
        ((l.map Token.kind).reverse.drop 2).head?.any (· == .dataField) := by
      rw [← List.map_reverse, ← List.map_drop, List.head?_map, Option.any_map]
    rw [endsInData, endsInData, hdata, hdata, hkinds]

theorem lexFrom_line (hA : OneLine A) (hC : ∃ u ∈ C.head?, u.char ≠ '\r')
    (hopen : blockOpen (lexFrom d C.length last (A ++ C)) = false)
    (hdata : EndsUnderscored A → endsInData (lexFrom d C.length last (A ++ C)) = false) :
    (∃ err, ∀ X : List Glyph, C.length ≤ X.length → lexFrom d C.length last (A ++ X) = .error err) ∨
      ∃ us last' e, e ∈ A ∧ e.char = '\r' ∧ ∀ X : List Glyph, C.length ≤ X.length →
        lexFrom d C.length last (A ++ X) = (lexFrom d C.length last' (e :: X)).map (us ++ ·) := by
  refine (lexFrom_settles hC hA.laid hA.ne_nil hopen hdata).imp_right ?_
  rintro ⟨us, last', R, hR, hRA, hmarks, hlex⟩
  obtain ⟨e, rfl, he⟩ := (hA.suffix hRA hR).marks hmarks
  exact ⟨us, last', e, hRA.mem List.mem_cons_self, he, hlex⟩

theorem append_same {R R' : List Glyph} (h : Forall₂ (Same id) (R ++ C) (R' ++ C)) : Forall₂ (Same id) R R' := by
  have hlen : R.length = R'.length := by simpa using h.length_eq
  have htake := List.forall₂_take R.length h
  rwa [List.take_left, hlen, List.take_left] at htake

theorem underscored_iff : EndsUnderscored A ↔ ∃ v c, A.map Glyph.char = v ++ ['_', c] := by
  constructor
  · rintro ⟨front, u, e, rfl, hu⟩
    exact ⟨front.map Glyph.char, e.char, by simp [hu]⟩
  · rintro ⟨v, c, h⟩
    obtain ⟨front, back, rfl, -, hback⟩ := List.map_eq_append_iff.1 h
    obtain ⟨u, more, rfl, hu, hmore⟩ := List.map_eq_cons_iff.1 hback
    obtain ⟨e, rfl, -⟩ := List.map_eq_singleton_iff.1 hmore
    exact ⟨front, u, e, rfl, hu⟩

theorem underscored_same (h : Forall₂ (Same id) A A') : EndsUnderscored A ↔ EndsUnderscored A' := by
  have hchars : A.map Glyph.char = A'.map Glyph.char := by
    rw [← List.forall₂_eq_eq_eq, List.forall₂_map_left_iff, List.forall₂_map_right_iff]
    exact h.imp fun _ _ hg => hg.char
  rw [underscored_iff, underscored_iff, hchars]

variable {S : Token → Token → Prop} {X X' : List Glyph} {g' : Glyph} {rest' R R' : List Glyph} {t' : Token}

/-- What stands behind two lines of the same characters is lexed to related tokens: behind their ends,
and behind the blocks of comments that their first tokens open. -/
structure Behind (d : Dialect) (S : Token → Token → Prop) (X X' : List Glyph) : Prop where
  room : 4 ≤ X.length
  room' : 4 ≤ X'.length
  block {t t' : Token} {R R' : List Glyph} (hk : t.kind = .blockComment) (hv : t.value = blockSign)
    (hk' : t'.kind = .blockComment) (hv' : t'.value = blockSign) (hR : OneLine R) (hR' : OneLine R')
    (h : Forall₂ (Same id) R R') :
    (∃ err err', block 4 t (R ++ X) = .error err ∧ block 4 t' (R' ++ X') = .error err') ∨
      ∃ left left', block 4 t (R ++ X) = .ok ([], left) ∧ block 4 t' (R' ++ X') = .ok ([], left') ∧
        Both (Forall₂ S) (lexFrom d 4 .newline left) (lexFrom d 4 .newline left')
  ends {e e' : Glyph} (he : e.char = '\r') (he' : e'.char = '\r') (last last' : Kind) :
    Both (Forall₂ S) (lexFrom d 4 last (e :: X)) (lexFrom d 4 last' (e' :: X'))

theorem room_append {Y : List Glyph} (h : 4 ≤ Y.length) (rest : List Glyph) : 4 ≤ (rest ++ Y).length := by
  rw [List.length_append]
  omega

theorem Behind.comment (h : Behind d S X X') (hscan : scan d g (rest ++ X) = .ok (t, R ++ X))
    (hscan' : scan d g' (rest' ++ X') = .ok (t', R' ++ X')) (hk : t.kind = .blockComment)
    (hk' : t'.kind = .blockComment) (hR : OneLine R) (hR' : OneLine R') (hRR : Forall₂ (Same id) R R') :
    Both (Forall₂ S) (lexFrom d 4 .newline (g :: rest ++ X)) (lexFrom d 4 .newline (g' :: rest' ++ X')) := by
  have sign {t : Token} {input left : List Glyph} {g : Glyph} (hk : t.kind = .blockComment)
      (hs : scan d g input = .ok (t, left)) : t.value = blockSign :=
    Dialect.classify_opening.2.1 (hk ▸ scan_classified hs)
  have step {t : Token} {input left : List Glyph} {g : Glyph} (hk : t.kind = .blockComment)
      (hr : 4 ≤ input.length) (hs : scan d g input = .ok (t, left)) :
      lexFrom d 4 .newline (g :: input) = Lexer.block 4 t left >>= fun read =>
        (lexFrom d 4 ((read.1.getLast?.map Token.kind).getD .newline) read.2).map (read.1 ++ ·) := by
    rw [lexFrom_cons hr, hs]
    simp only [bind, Except.bind, complete, hk, if_true]
    rfl
  rw [List.cons_append, List.cons_append, step hk (room_append h.room _) hscan,
    step hk' (room_append h.room' _) hscan']
  rcases h.block hk (sign hk hscan) hk' (sign hk' hscan') hR hR' hRR with
    ⟨err, err', hx, hx'⟩ | ⟨left, left', hx, hx', hboth⟩
  · rw [hx, hx']
    exact .error _ _
  · rw [hx, hx']
    simpa only [bind, Except.bind, List.getLast?_nil, Option.map_none, Option.getD_none, map_nothing] using hboth

/-- Two lines that open no block. Each is read as it is in front of the last line. -/
theorem Behind.line (h : Behind d S X X') (hS : ∀ t t' : Token, t.Same id t' → S t t')
    (h4 : C.length = 4) (hC : ∃ u ∈ C.head?, u.char ≠ '\r') (hA : OneLine A) (hA' : OneLine A')
    (hsame : Forall₂ (Same id) A A') (hopen : blockOpen (lexFrom d C.length .newline (A ++ C)) = false)
    (hopen' : blockOpen (lexFrom d C.length .newline (A' ++ C)) = false)
    (hdata : EndsUnderscored A → endsInData (lexFrom d 4 .newline (A ++ C)) = false) :
    Both (Forall₂ S) (lexFrom d 4 .newline (A ++ X)) (lexFrom d 4 .newline (A' ++ X')) := by
  have hwhole : Both (Forall₂ (Token.Same id)) (lexFrom d 4 .newline (A ++ C)) (lexFrom d 4 .newline (A' ++ C)) :=
    lexFrom_same Text.fine_id (List.rel_append hsame (List.forall₂_same.2 fun _ _ => ⟨rfl, rfl, rfl⟩))
  have hend {last : Kind} {e : Glyph} (he : e.char = '\r') : lexFrom d 4 last (e :: C) =
      .ok [⟨.newline, [e.char], e.pos⟩, ⟨.eof, Listing.eofText, Glyph.place C⟩] := by
    rw [← h4]
    exact lexFrom_end he hC
  have hread := lexFrom_line hA hC hopen (h4 ▸ hdata)
  have hread' := lexFrom_line hA' hC hopen' fun hu => by
    rw [h4, ← endsInData_same hwhole]
    exact hdata ((underscored_same hsame).2 hu)
  rw [h4] at hread hread'
  rcases hread with ⟨err, herr⟩ | ⟨us, last, e, -, he, hlex⟩ <;>
    rcases hread' with ⟨err', herr'⟩ | ⟨us', last', e', -, he', hlex'⟩
  · rw [herr X h.room, herr' X' h.room']
    exact .error _ _
  · rw [herr C h4.ge, hlex' C h4.ge, hend he'] at hwhole
    cases hwhole
  · rw [hlex C h4.ge, hend he, herr' C h4.ge] at hwhole
    cases hwhole
  · rw [hlex C h4.ge, hend he, hlex' C h4.ge, hend he'] at hwhole
    cases hwhole with
    | ok htokens =>
      have hus := List.forall₂_take us.length htokens
      have hlen : us.length = us'.length := by simpa using htokens.length_eq
      rw [List.take_left, hlen, List.take_left] at hus
      rw [hlex X h.room, hlex' X' h.room']
      exact (h.ends he he' last last').map fun l l' hl => List.rel_append (hus.imp hS) hl

theorem pair_of_blockRemark (hs : scan d g (rest ++ C) = .ok (t, R ++ C)) (hk : t.kind = .blockRemark) :
    ['\'', '\''] <:+: (g :: rest).map Glyph.char := by
  obtain ⟨span, hspan, -, hvalue, -⟩ := scan_span hs
  rw [← List.append_assoc, ← List.cons_append, List.append_left_inj] at hspan
  have hsign : t.value = "''" := Dialect.classify_opening.2.2 (hk ▸ scan_classified hs)
  rw [hspan, List.map_append, ← hvalue, hsign]
  exact (List.prefix_append _ _).isInfix

/-- Two lines of the same characters are lexed to the same tokens up to their ends, or to the end of the
block that the first token of each opens. -/
theorem lexFrom_lines (hX : Behind d S X X') (hS : ∀ t t' : Token, t.Same id t' → S t t')
    (h4 : C.length = 4) (hC : ∃ u ∈ C.head?, u.char ≠ '\r') (hm : Glyph.Marked C) (hA : OneLine A)
    (hA' : OneLine A') (h : Forall₂ (Same id) A A') (hpair : Text.Unpaired (A.map Glyph.char))
    (hdata : EndsUnderscored A → endsInData (lexFrom d 4 .newline (A ++ C)) = false) :
    Both (Forall₂ S) (lexFrom d 4 .newline (A ++ X)) (lexFrom d 4 .newline (A' ++ X')) := by
  obtain ⟨n, hn⟩ : ∃ n, A.length = n := ⟨_, rfl⟩
  induction n using Nat.strong_induction_on generalizing A A' with
  | _ n ih =>
    have hwhole := h
    cases h with
    | nil => exact absurd rfl hA.ne_nil
    | @cons g g' rest rest' hg hrest' =>
      by_cases hnil : rest = []
      · subst hnil
        cases hrest'
        exact hX.ends ((hA.laid.apt g (by simp)).marks.2 (hA.laid.last g rfl))
          ((hA'.laid.apt g' (by simp)).marks.2 (hA'.laid.last g' rfl)) _ _
      have hnil' : rest' ≠ [] := fun h' => hnil (by
        rw [h'] at hrest'
        exact List.forall₂_nil_right_iff.1 hrest')
      simp only [List.length_cons] at hn
      have hscanned := scan_same Text.fine_id (d := d) hg (List.rel_append hrest'
        (List.forall₂_same.2 fun (u : Glyph) (_ : u ∈ C) => (⟨rfl, rfl, rfl⟩ : Same id u u)))
      rcases scan_local (d := d) hA.laid ⟨g, by simp, hA.char_ne hnil⟩ with
        ⟨t, R, hR, hRA, hscan⟩ | ⟨text, hscan⟩ <;>
        rcases scan_local (d := d) hA'.laid ⟨g', by simp, hA'.char_ne hnil'⟩ with
          ⟨t', R', hR', hRA', hscan'⟩ | ⟨text', hscan'⟩ <;>
        rw [hscan, hscan'] at hscanned
      · cases hscanned with
        | ok hread =>
        obtain ⟨ht, hleft⟩ := hread
        dsimp only at ht hleft
        have hRR := append_same hleft
        have hline : OneLine R := hA.suffix (hRA.trans (List.suffix_cons g rest)) hR
        have hline' : OneLine R' := hA'.suffix (hRA'.trans (List.suffix_cons g' rest')) hR'
        have hkind := ht.kind
        by_cases hsp : t.kind = .spaces
        · have hsuffix : R <:+ g :: rest := hRA.trans (List.suffix_cons g rest)
          have hlen := hRA.length_le
          rw [List.cons_append, List.cons_append, lexFrom_skip (room_append hX.room _) (hscan X) hsp,
            lexFrom_skip (room_append hX.room' _) (hscan' X') (hkind ▸ hsp)]
          refine ih R.length (by omega) hline hline' hRR
            (hpair.part (hsuffix.map Glyph.char).isInfix) (fun hu => ?_) rfl
          · have hover := hdata (hu.grow hsuffix)
            rwa [List.cons_append, lexFrom_skip (room_append h4.ge _) (hscan C) hsp] at hover
        by_cases hcomment : t.kind = .blockComment
        · exact hX.comment (hscan X) (hscan' X') hcomment (hkind ▸ hcomment) hline hline' hRR
        have hremark : t.kind ≠ .blockRemark := fun hk => hpair (pair_of_blockRemark (hscan C) hk)
        -- the line opens no block
        refine hX.line hS h4 hC hA hA' hwhole ?_ ?_ hdata
        · exact blockOpen_step hC hm hA (fun _ u L hu => by
            rw [hscan C] at hu
            cases hu
            exact ⟨hsp, hremark, hcomment⟩) fun L last' hL _ hl => blockOpen_line hC hm hL hl
        · exact blockOpen_step hC hm hA' (fun _ u L hu => by
            rw [hscan' C] at hu
            cases hu
            exact ⟨hkind ▸ hsp, hkind ▸ hremark, hkind ▸ hcomment⟩) fun L last' hL _ hl =>
              blockOpen_line hC hm hL hl
      · cases hscanned
      · cases hscanned
      · rw [List.cons_append, List.cons_append, lexFrom_cons (room_append hX.room _),
          lexFrom_cons (room_append hX.room' _), hscan, hscan']
        exact .error _ _

end Lexer

/-- Whether two tokens are the same but for their places, or both end lines. -/
def Token.Corresponds (d : Dialect) (t t' : Token) : Prop := t.Same id t' ∨ t.EndsRow d ∧ t'.EndsRow d

namespace Listing

variable {d : Dialect} {file : Text} {P : Text → Prop} {L L' : List Text} {opener opener' : Token}

theorem glyphs_cons (file : Text) (n : Nat) (t : Text) (L : List Text) :
    glyphs file n (t :: L) = ofLine ⟨n, t, file⟩ ++ glyphs file (n + 1) L := by
  rw [glyphs, numberFrom, List.flatMap_cons]
  rfl

theorem behindBlock_final (hv : opener.value = Lexer.blockSign) (k : Nat) :
    Lexer.behindBlock opener (final file k) = none := by
  obtain ⟨span, e, hline, hspan, hchars, he, -⟩ := Glyph.split_ofLine ⟨k, eofText, file⟩
  have hnil : Lexer.behindBlock opener [] = none := by
    simp [Lexer.behindBlock, Lexer.blockLines, Glyph.restOfLine, Text.dropTail, hv, Lexer.blockSign,
      Glyph.nextLine?]
    rfl
  rw [final, hline, Lexer.behindBlock_line hv hspan he fun _ => hnil, hchars, if_neg (by
    rw [show Line.read ⟨k, eofText, file⟩ = eofText from rfl]; decide), hnil]

theorem room_behind (file : Text) (L : List Text) (hv : opener.value = Lexer.blockSign) (n k : Nat)
    (h : ¬4 < (glyphs file n L ++ final file k).length) :
    Lexer.behindBlock opener (glyphs file n L ++ final file k) = none := by
  obtain rfl : L = [] := by
    by_contra hne
    have := List.length_pos_of_ne_nil (show glyphs file n L ≠ [] from glyphs_ne_nil n hne)
    rw [List.length_append, length_final] at h
    omega
  exact behindBlock_final hv k

theorem behindBlock_cons (file : Text) (L : List Text) (hv : opener.value = Lexer.blockSign)
    (n k : Nat) (w t : Text) (hw : IsIndent w) :
    (∃ e, e.char = '\r' ∧ e.ends = true ∧ Lexer.blockSign <:+ Text.trimBlankEnd t ∧
      Lexer.behindBlock opener (glyphs file n ((w ++ t) :: L) ++ final file k) =
        some (e :: (glyphs file (n + 1) L ++ final file k))) ∨
      ¬Lexer.blockSign <:+ Text.trimBlankEnd t ∧
      Lexer.behindBlock opener (glyphs file n ((w ++ t) :: L) ++ final file k) =
        Lexer.behindBlock opener (glyphs file (n + 1) L ++ final file k) := by
  obtain ⟨span, e, hline, hspan, hchars, he, hmark⟩ := Glyph.split_ofLine ⟨n, w ++ t, file⟩
  have hsign : Lexer.blockSign <:+ span.map Glyph.char ↔ Lexer.blockSign <:+ Text.trimBlankEnd t := by
    rw [hchars, Line.read, Text.trimBlankEnd_indented hw]
    split
    · rename_i hnil
      rw [hnil]
    · exact Text.isSuffix_indented hw (by simp [Lexer.blockSign])
  rw [glyphs_cons, hline, List.append_assoc, List.append_assoc, List.singleton_append,
    Lexer.behindBlock_line hv hspan he (room_behind file L hv _ _)]
  by_cases hs : Lexer.blockSign <:+ span.map Glyph.char
  · exact .inl ⟨e, hmark, he, hsign.1 hs, if_pos hs⟩
  · exact .inr ⟨fun h => hs (hsign.2 h), if_neg hs⟩

theorem behindBlock_nil (file : Text) (L : List Text) (hv : opener.value = Lexer.blockSign) (n k : Nat) :
    Lexer.behindBlock opener (glyphs file n ([] :: L) ++ final file k) =
      Lexer.behindBlock opener (glyphs file (n + 1) L ++ final file k) := by
  rcases behindBlock_cons file L hv n k [] [] (by simp [IsIndent]) with ⟨-, -, -, hsign, -⟩ | ⟨-, hgo⟩
  · exact absurd hsign (by decide)
  · exact hgo

/-- A block of comments is left at the same line in any layout. -/
theorem behindBlock_relaid (file : Text) (h : Relaid P L L') (hv : opener.value = Lexer.blockSign)
    (hv' : opener'.value = Lexer.blockSign) (n n' k k' : Nat) :
    (Lexer.behindBlock opener (glyphs file n L ++ final file k) = none ∧
      Lexer.behindBlock opener' (glyphs file n' L' ++ final file k') = none) ∨
    ∃ e e' L₁ L₁' m m', e.char = '\r' ∧ e'.char = '\r' ∧ Relaid P L₁ L₁' ∧ L₁ <:+ L ∧ L₁' <:+ L' ∧
      Lexer.behindBlock opener (glyphs file n L ++ final file k) =
        some (e :: (glyphs file m L₁ ++ final file k)) ∧
      Lexer.behindBlock opener' (glyphs file n' L' ++ final file k') =
        some (e' :: (glyphs file m' L₁' ++ final file k')) := by
  induction h generalizing n n' with
  | nil => exact .inl ⟨behindBlock_final hv k, behindBlock_final hv' k'⟩
  | @line w w' t L L' hw hw' ht more ih =>
    rcases behindBlock_cons file L hv n k w t hw with ⟨e, hmark, -, hsign, hleft⟩ | ⟨hsign, hgo⟩ <;>
      rcases behindBlock_cons file L' hv' n' k' w' t hw' with ⟨e', hmark', -, hsign', hleft'⟩ | ⟨hsign', hgo'⟩
    · exact .inr ⟨e, e', L, L', _, _, hmark, hmark', more, List.suffix_cons _ _,
        List.suffix_cons _ _, hleft, hleft'⟩
    · exact absurd hsign hsign'
    · exact absurd hsign' hsign
    · rw [hgo, hgo']
      refine (ih _ _).imp_right ?_
      rintro ⟨e, e', L₁, L₁', m, m', he, he', hmore, hs, hs', hx, hx'⟩
      exact ⟨e, e', L₁, L₁', m, m', he, he', hmore, hs.trans (List.suffix_cons _ _),
        hs'.trans (List.suffix_cons _ _), hx, hx'⟩
  | @left L L' more ih =>
    rw [behindBlock_nil file L hv]
    refine (ih _ _).imp_right ?_
    rintro ⟨e, e', L₁, L₁', m, m', he, he', hmore, hs, hs', hx, hx'⟩
    exact ⟨e, e', L₁, L₁', m, m', he, he', hmore, hs.trans (List.suffix_cons _ _), hs', hx, hx'⟩
  | @right L L' more ih =>
    rw [behindBlock_nil file L' hv']
    refine (ih _ _).imp_right ?_
    rintro ⟨e, e', L₁, L₁', m, m', he, he', hmore, hs, hs', hx, hx'⟩
    exact ⟨e, e', L₁, L₁', m, m', he, he', hmore, hs, hs'.trans (List.suffix_cons _ _), hx, hx'⟩

/-! ### Programs -/

/-- Whether a line, read on its own, ends in an item of DATA with an underscore at its end. -/
def Spills (d : Dialect) (file t : Text) : Prop :=
  (Text.trimBlankEnd t).getLast? = some '_' ∧ Lexer.endsInData (Lexer.lex d (framed file [t])) = true

instance (d : Dialect) (file t : Text) : Decidable (Spills d file t) :=
  inferInstanceAs (Decidable (_ ∧ _))

/-- Whether a line is read the same in every layout. -/
structure Steady (d : Dialect) (file t : Text) : Prop where
  returns : endMark ∉ t
  pairs : Text.Unpaired t
  data : ¬Spills d file t

/-- Whether lines are lexed to the same tokens behind line ends in any number. -/
def Goes (d : Dialect) (file : Text) (L L' : List Text) : Prop :=
  ∀ (n n' k k' : Nat) (last last' : Kind) (M M' : List Glyph), M ≠ [] → M' ≠ [] → (∀ g ∈ M, g.char = '\r') →
    (∀ g ∈ M', g.char = '\r') → Both (Forall₂ (Token.Corresponds d))
      (Lexer.lexFrom d 4 last (M ++ (glyphs file n L ++ final file k)))
      (Lexer.lexFrom d 4 last' (M' ++ (glyphs file n' L' ++ final file k')))

variable {w w' t : Text}

theorem room_final (A : List Glyph) (file : Text) (k : Nat) : 4 ≤ (A ++ final file k).length := by
  rw [List.length_append, length_final]
  omega

/-- Blocks that the first tokens of two lines open are left at the same line. -/
theorem block_relaid (more : Relaid P L L')
    (hgoes : ∀ L₁ L₁', L₁ <:+ L → L₁' <:+ L' → Relaid P L₁ L₁' → Goes d file L₁ L₁')
    {R R' : List Glyph} (hk : opener.kind = .blockComment) (hv : opener.value = Lexer.blockSign)
    (hk' : opener'.kind = .blockComment) (hv' : opener'.value = Lexer.blockSign) (hR : OneLine R) (hR' : OneLine R')
    (h : Forall₂ (Same id) R R') (n n' k k' : Nat) :
    (∃ err err', Lexer.block 4 opener (R ++ (glyphs file n L ++ final file k)) = .error err ∧
      Lexer.block 4 opener' (R' ++ (glyphs file n' L' ++ final file k')) = .error err') ∨
    ∃ left left', Lexer.block 4 opener (R ++ (glyphs file n L ++ final file k)) = .ok ([], left) ∧
      Lexer.block 4 opener' (R' ++ (glyphs file n' L' ++ final file k')) = .ok ([], left') ∧
      Both (Forall₂ (Token.Corresponds d)) (Lexer.lexFrom d 4 .newline left)
      (Lexer.lexFrom d 4 .newline left') := by
  obtain ⟨span, e, rfl, hspan, he, hmark⟩ := hR.split
  obtain ⟨span', e', rfl, hspan', he', hmark'⟩ := hR'.split
  have hchars : span.map Glyph.char = span'.map Glyph.char := by
    have hsame : (span ++ [e]).map Glyph.char = (span' ++ [e']).map Glyph.char := by
      rw [← List.forall₂_eq_eq_eq, List.forall₂_map_left_iff, List.forall₂_map_right_iff]
      exact h.imp fun _ _ hg => hg.char
    rw [List.map_append, List.map_append] at hsame
    exact (List.append_inj' hsame rfl).1
  have one {e : Glyph} (he : e.char = '\r') : ∀ g ∈ [e], g.char = '\r' := by simpa using he
  have hroom := room_behind file L hv n k
  have hroom' := room_behind file L' hv' n' k'
  have hline := Lexer.behindBlock_line hv hspan he hroom
  have hline' := Lexer.behindBlock_line hv' hspan' he' hroom'
  have hblock := Lexer.block_behind hk hv hspan he hroom
  have hblock' := Lexer.block_behind hk' hv' hspan' he' hroom'
  have hboth : (Lexer.behindBlock opener (span ++ e :: (glyphs file n L ++ final file k)) = none ∧
        Lexer.behindBlock opener' (span' ++ e' :: (glyphs file n' L' ++ final file k')) = none) ∨
      ∃ left left', Lexer.behindBlock opener (span ++ e :: (glyphs file n L ++ final file k)) = some left ∧
        Lexer.behindBlock opener' (span' ++ e' :: (glyphs file n' L' ++ final file k')) = some left' ∧
        Both (Forall₂ (Token.Corresponds d)) (Lexer.lexFrom d 4 .newline left)
        (Lexer.lexFrom d 4 .newline left') := by
    rw [hline, hline', ← hchars]
    by_cases hsign : Lexer.blockSign <:+ span.map Glyph.char
    · rw [if_pos hsign, if_pos hsign]
      exact .inr ⟨_, _, rfl, rfl, hgoes L L' (List.suffix_refl _) (List.suffix_refl _) more n n' k k' _ _ [e] [e']
        (by simp) (by simp) (one hmark) (one hmark')⟩
    · rw [if_neg hsign, if_neg hsign]
      refine (behindBlock_relaid file more hv hv' n n' k k').imp_right ?_
      rintro ⟨u, u', L₁, L₁', m, m', hu, hu', hmore, hs, hs', hx, hx'⟩
      exact ⟨_, _, hx, hx', hgoes L₁ L₁' hs hs' hmore m m' k k' _ _ [u] [u'] (by simp) (by simp) (one hu) (one hu')⟩
  rw [List.append_assoc, List.append_assoc, List.singleton_append, List.singleton_append]
  rcases hblock with ⟨err, hx, hnone⟩ | ⟨left, hx, hsome⟩ <;>
    rcases hblock' with ⟨err', hx', hnone'⟩ | ⟨left', hx', hsome'⟩
  · exact .inl ⟨err, err', hx, hx'⟩
  · simp [hnone, hsome'] at hboth
  · simp [hnone', hsome] at hboth
  · rw [hsome, hsome'] at hboth
    obtain ⟨hx₁, -⟩ | ⟨u, u', hu, hu', hb⟩ := hboth
    · cases hx₁
    · cases hu
      cases hu'
      exact .inr ⟨left, left', hx, hx', hb⟩

/-- A line on its own is read the same behind any indent. -/
theorem line_same (hw : IsIndent w) (hw' : IsIndent w') (hne : Text.trimBlankEnd t ≠ []) (n n' k k' : Nat) :
    Both (Forall₂ (Token.Same id)) (Lexer.lexFrom d 4 .newline (glyphs file n [w ++ t] ++ final file k))
      (Lexer.lexFrom d 4 .newline (glyphs file n' [w' ++ t] ++ final file k')) := by
  obtain ⟨W, W', A, A', hline, hline', hsame, hblank, hblank', -, hA⟩ :=
    Glyph.ofLine_relaid file hw hw' hne n n'
  have room {B : List Glyph} (hB : 0 < B.length) (k : Nat) : 4 < (B ++ final file k).length := by
    rw [List.length_append, length_final]
    omega
  have hpos := List.length_pos_of_ne_nil hA
  rw [glyphs_cons, glyphs_cons, hline, hline', show glyphs file (n + 1) [] = [] from rfl,
    show glyphs file (n' + 1) [] = [] from rfl, List.append_nil, List.append_nil, List.append_assoc,
    List.append_assoc, Lexer.lexFrom_indent hblank (room hpos k),
    Lexer.lexFrom_indent hblank' (room (hsame.length_eq ▸ hpos) k')]
  exact Lexer.lexFrom_same Text.fine_id (List.rel_append hsame (final_same file k k'))

theorem Spills.indented (h : Spills d file t) (hw : IsIndent w) : Spills d file (w ++ t) := by
  obtain ⟨hlast, hdata⟩ := h
  have hne : Text.trimBlankEnd t ≠ [] := fun hnil => by simp [hnil] at hlast
  refine ⟨?_, ?_⟩
  · rw [Text.trimBlankEnd_indented hw, if_neg hne, List.getLast?_append, hlast]
    rfl
  · have hsame := (@line_same d file w [] t hw (by simp [IsIndent]) hne 1 1 2 2).map
      (g := (opening file ++ ·)) fun l l' hl =>
        List.rel_append (List.forall₂_same.2 fun _ (_ : _ ∈ opening file) => ⟨rfl, rfl, rfl⟩) hl
    rw [lex_framed] at hdata ⊢
    exact (Lexer.endsInData_same hsame).trans hdata

theorem data_behind (h : ¬Spills d file t) (hw : IsIndent w) (hne : Text.trimBlankEnd t ≠ [])
    {n : Nat} {W A : List Glyph} (hline : ofLine ⟨n, w ++ t, file⟩ = W ++ A)
    (hblank : ∀ g ∈ W, g.char = ' ' ∨ g.char = '\t')
    (hchars : A.map Glyph.char = Text.trimBlankEnd t ++ [endMark]) (hu : Lexer.EndsUnderscored A) :
    Lexer.endsInData (Lexer.lexFrom d 4 .newline (A ++ final file 2)) = false := by
  have hlast : (Text.trimBlankEnd t).getLast? = some '_' := by
    obtain ⟨v, c, hv⟩ := Lexer.underscored_iff.1 hu
    rw [hchars, show v ++ ['_', c] = (v ++ ['_']) ++ [c] by simp] at hv
    rw [(List.append_inj' hv rfl).1, List.getLast?_concat]
  have halone : Lexer.endsInData (Lexer.lex d (framed file [t])) = false :=
    Bool.eq_false_iff.2 fun hd => h ⟨hlast, hd⟩
  rw [lex_framed] at halone
  have hread := Lexer.endsInData_of_map halone
  have hsame := Lexer.endsInData_same (@line_same d file w [] t hw (by simp [IsIndent]) hne n 1 2 2)
  have hroom : 4 < (A ++ final file 2).length := by
    have hlength := congrArg List.length hchars
    simp only [List.length_map, List.length_append, List.length_singleton] at hlength
    rw [List.length_append, length_final]
    omega
  rw [glyphs_cons, hline, show glyphs file (n + 1) [] = [] from rfl, List.append_nil, List.append_assoc,
    Lexer.lexFrom_indent hblank hroom] at hsame
  exact hsame.trans hread

theorem exists_head (hr : endMark ∉ t) (hne : Text.trimBlankEnd t ≠ []) (n : Nat) (X : List Glyph) :
    ∃ z Z, glyphs file n (t :: L) ++ X = z :: Z ∧ z.char ≠ '\r' := by
  have hline : OneLine (ofLine ⟨n, t, file⟩) := Glyph.oneLine_ofLine hr
  obtain ⟨z, Z, hcons⟩ := List.exists_cons_of_ne_nil hline.ne_nil
  refine ⟨z, Z ++ (glyphs file (n + 1) L ++ X), by rw [glyphs_cons, hcons]; simp, ?_⟩
  rw [hcons] at hline
  refine hline.char_ne fun hnil => hne ?_
  have hchars := congrArg List.length (Glyph.chars_ofLine ⟨n, t, file⟩)
  rw [hcons, hnil] at hchars
  simpa [Line.read] using hchars

theorem Steady.returns_behind (h : Steady d file t) (hw : IsIndent w) : endMark ∉ w ++ t := by
  rw [List.mem_append, not_or]
  exact ⟨fun hm => by simpa [endMark] using hw _ hm, h.returns⟩

/-- Lines that are not blank are lexed to the same tokens in any layout if what is behind them is. -/
theorem row_relaid (hw : IsIndent w) (hw' : IsIndent w') (ht : Steady d file t) (hne : Text.trimBlankEnd t ≠ [])
    (more : Relaid P L L')
    (hgoes : ∀ L₁ L₁', L₁ <:+ L → L₁' <:+ L' → Relaid P L₁ L₁' → Goes d file L₁ L₁') (n n' k k' : Nat) :
    Both (Forall₂ (Token.Corresponds d))
      (Lexer.lexFrom d 4 .newline (glyphs file n ((w ++ t) :: L) ++ final file k))
      (Lexer.lexFrom d 4 .newline (glyphs file n' ((w' ++ t) :: L') ++ final file k')) := by
  obtain ⟨W, W', A, A', hline, hline', hsame, hblank, hblank', hchars, hA⟩ :=
    Glyph.ofLine_relaid file hw hw' hne n n'
  have hA' : A' ≠ [] := fun hnil => hA (by rw [hnil] at hsame; exact List.forall₂_nil_right_iff.1 hsame)
  have hone : OneLine A := (hline ▸ Glyph.oneLine_ofLine (ht.returns_behind hw)).suffix (List.suffix_append W A) hA
  have hone' : OneLine A' :=
    (hline' ▸ Glyph.oneLine_ofLine (ht.returns_behind hw')).suffix (List.suffix_append W' A') hA'
  have room {B : List Glyph} (hB : B ≠ []) (n k : Nat) (L : List Text) :
      4 < (B ++ (glyphs file n L ++ final file k)).length := by
    have := List.length_pos_of_ne_nil hB
    simp only [List.length_append, length_final]
    omega
  have hX : Lexer.Behind d (Token.Corresponds d) (glyphs file (n + 1) L ++ final file k)
      (glyphs file (n' + 1) L' ++ final file k') :=
    ⟨room_final _ _ _, room_final _ _ _,
      fun hk hv hk' hv' hR hR' h => block_relaid more hgoes hk hv hk' hv' hR hR' h _ _ _ _,
      fun {e e'} he he' last last' => hgoes L L' (List.suffix_refl _) (List.suffix_refl _) more _ _ k k' last last'
        [e] [e'] (by simp) (by simp) (by simpa using he) (by simpa using he')⟩
  rw [glyphs_cons, glyphs_cons, hline, hline', List.append_assoc, List.append_assoc, List.append_assoc,
    List.append_assoc, Lexer.lexFrom_indent hblank (room hA _ _ _), Lexer.lexFrom_indent hblank' (room hA' _ _ _)]
  have hmarked : Glyph.Marked (final file 2) := Glyph.ofLine_marked _
  have hpair : Text.Unpaired (A.map Glyph.char) := by
    rw [hchars, Text.unpaired_append]
    exact ⟨ht.pairs.part (Text.isPrefix_trimBlankEnd t).isInfix, by decide, by simp [endMark]⟩
  exact Lexer.lexFrom_lines hX (fun _ _ h => .inl h) (length_final file 2) (head_final file 2)
    hmarked hone hone' hsame
    hpair (data_behind ht.data hw hne hline hblank hchars)

theorem glyphs_blank (h : Text.trimBlankEnd t = []) (file : Text) (n : Nat) (L : List Text) :
    ∃ e, e.char = '\r' ∧ glyphs file n (t :: L) = e :: glyphs file (n + 1) L := by
  obtain ⟨e, hline, hmark, -⟩ := Glyph.ofLine_blank (l := ⟨n, t, file⟩) h
  exact ⟨e, hmark, by rw [glyphs_cons, hline]; rfl⟩

/-- Line ends in front of what does not start with one become one of them. -/
theorem both_ends {M M' X X' : List Glyph} (hne : M ≠ []) (hne' : M' ≠ []) (hM : ∀ g ∈ M, g.char = '\r')
    (hM' : ∀ g ∈ M', g.char = '\r') (hX : ∃ z Z, X = z :: Z ∧ z.char ≠ '\r')
    (hX' : ∃ z Z, X' = z :: Z ∧ z.char ≠ '\r')
    (hr : 4 ≤ X.length) (hr' : 4 ≤ X'.length) (last last' : Kind)
    (h : Both (Forall₂ (Token.Corresponds d)) (Lexer.lexFrom d 4 .newline X) (Lexer.lexFrom d 4 .newline X')) :
    Both (Forall₂ (Token.Corresponds d)) (Lexer.lexFrom d 4 last (M ++ X))
    (Lexer.lexFrom d 4 last' (M' ++ X')) := by
  obtain ⟨z, Z, rfl, hz⟩ := hX
  obtain ⟨z', Z', rfl, hz'⟩ := hX'
  obtain ⟨u, hu, -, hlex⟩ := @Lexer.lexFrom_ends d 4 last M Z z hM hne hz hr
  obtain ⟨u', hu', -, hlex'⟩ := @Lexer.lexFrom_ends d 4 last' M' Z' z' hM' hne' hz' hr'
  rw [hlex, hlex']
  exact h.map fun l l' hl => .cons (.inr ⟨hu, hu'⟩) hl

theorem exists_final (file : Text) (k : Nat) : ∃ z Z, final file k = z :: Z ∧ z.char ≠ '\r' := by
  obtain ⟨u, hu, hchar⟩ := head_final file k
  obtain ⟨more, hmore⟩ := List.head?_eq_some_iff.1 hu
  exact ⟨u, more, hmore, hchar⟩

/-- Lines in two layouts are lexed to the same tokens behind line ends in any number. -/
theorem goes_relaid (h : Relaid (Steady d file) L L') : Goes d file L L' := by
  obtain ⟨m, hm⟩ : ∃ m, L.length + L'.length = m := ⟨_, rfl⟩
  induction m using Nat.strong_induction_on generalizing L L' with
  | _ m ih =>
    intro n n' k k' last last' M M' hne hne' hM hM'
    -- an empty line is one more of them
    have ends {M : List Glyph} {e : Glyph} (hM : ∀ g ∈ M, g.char = '\r') (he : e.char = '\r') :
        ∀ g ∈ M ++ [e], g.char = '\r' := by
      simpa [or_imp, forall_and] using ⟨hM, he⟩
    cases h with
    | nil =>
      exact both_ends hne hne' hM hM' (exists_final file k) (exists_final file k') (length_final file k).ge
        (length_final file k').ge last last'
        ((Lexer.lexFrom_same Text.fine_id (final_same file k k')).mono fun _ _ hl =>
          hl.imp fun _ _ ht => .inl ht)
    | @line w w' t L L' hw hw' ht more =>
      simp only [List.length_cons] at hm
      by_cases hnil : Text.trimBlankEnd t = []
      · have blank {w : Text} (hw : IsIndent w) : Text.trimBlankEnd (w ++ t) = [] := by
          rw [Text.trimBlankEnd_indented hw, if_pos hnil]
        obtain ⟨e, he, hglyphs⟩ := glyphs_blank (blank hw) file n L
        obtain ⟨e', he', hglyphs'⟩ := glyphs_blank (blank hw') file n' L'
        rw [hglyphs, hglyphs', List.cons_append, List.cons_append, List.append_cons, List.append_cons M']
        exact ih _ (by omega) more rfl _ _ k k' last last' _ _ (by simp) (by simp) (ends hM he) (ends hM' he')
      · have shown {w : Text} (hw : IsIndent w) : Text.trimBlankEnd (w ++ t) ≠ [] := by
          rw [Text.trimBlankEnd_indented hw, if_neg hnil]
          simp [hnil]
        refine both_ends hne hne' hM hM' (exists_head (ht.returns_behind hw) (shown hw) n _)
          (exists_head (ht.returns_behind hw') (shown hw') n' _) (room_final _ _ _) (room_final _ _ _) last last'
          (row_relaid hw hw' ht hnil more (fun L₁ L₁' hs hs' hL => ih _ ?_ hL rfl) n n' k k')
        have := hs.length_le
        have := hs'.length_le
        omega
    | left more =>
      obtain ⟨e, he, hglyphs⟩ := glyphs_blank (t := []) rfl file n _
      rw [hglyphs, List.cons_append, List.append_cons]
      exact ih _ (by simp at hm; omega) more rfl _ n' k k' last last' _ M' (by simp) hne' (ends hM he) hM'
    | right more =>
      obtain ⟨e, he, hglyphs⟩ := glyphs_blank (t := []) rfl file n' _
      rw [hglyphs, List.cons_append, List.append_cons M']
      exact ih _ (by simp at hm; omega) more rfl n _ k k' last last' M _ hne (by simp) hM (ends hM' he)

/-- Programs in two layouts, neither of which starts with an empty line, are lexed to the same tokens. -/
theorem lex_relaid (h : Relaid (Steady d file) L L') (hL : L.head? ≠ some []) (hL' : L'.head? ≠ some []) :
    Both (Forall₂ (Token.Corresponds d)) (Lexer.lexFrom d 4 .newline (glyphs file 1 L ++ final file (L.length + 1)))
      (Lexer.lexFrom d 4 .newline (glyphs file 1 L' ++ final file (L'.length + 1))) := by
  cases h with
  | nil =>
    exact (Lexer.lexFrom_same Text.fine_id (final_same file _ _)).mono fun _ _ hl =>
      hl.imp fun _ _ ht => .inl ht
  | @line w w' t L L' hw hw' ht more =>
    by_cases hnil : Text.trimBlankEnd t = []
    · have blank {w : Text} (hw : IsIndent w) : Text.trimBlankEnd (w ++ t) = [] := by
        rw [Text.trimBlankEnd_indented hw, if_pos hnil]
      obtain ⟨e, he, hglyphs⟩ := glyphs_blank (blank hw) file 1 L
      obtain ⟨e', he', hglyphs'⟩ := glyphs_blank (blank hw') file 1 L'
      rw [hglyphs, hglyphs']
      exact goes_relaid more _ _ _ _ _ _ [e] [e'] (by simp) (by simp) (by simpa using he) (by simpa using he')
    · exact row_relaid hw hw' ht hnil more (fun _ _ _ _ hmore => goes_relaid hmore) _ _ _ _
  | left => exact absurd rfl hL
  | right => exact absurd rfl hL'

theorem matched_relaid (h : Relaid (Steady d file) L L') (hL : L.head? ≠ some []) (hL' : L'.head? ≠ some []) :
    Matched d id (framed file L) (framed file L') := by
  unfold Matched
  rcases (lex_relaid h hL hL').elim with ⟨e, e', hx, hx'⟩ | ⟨l, l', hx, hx', hl⟩
  · rw [lex_framed, lex_framed, hx, hx']
    exact .error _ _
  · have hlex : Lexer.lex d (framed file L) = .ok (opening file ++ l) := by rw [lex_framed, hx]; rfl
    have hlex' : Lexer.lex d (framed file L') = .ok (opening file ++ l') := by rw [lex_framed, hx']; rfl
    have hlexed := Lexer.lex_lexed hlex
    have hlexed' := Lexer.lex_lexed hlex'
    rw [hlex, hlex']
    have htwins : Forall₂ (Twins d id ⟨Eq, Eq, True⟩) l l' := by
      refine List.forall₂_iff_zip.2 ⟨hl.length_eq, fun {t t'} hp => ?_⟩
      obtain ⟨hmem, hmem'⟩ := List.of_mem_zip hp
      rcases (List.forall₂_iff_zip.1 hl).2 hp with hsame | ⟨hn, hn'⟩
      · exact twins_same hsame (hlexed _ (by simp [hmem])) (hlexed' _ (by simp [hmem']))
      · exact (spelling_self d).twins.ends hn hn'
    have hstart : ⟨.program, programText, Glyph.place (ofLine ⟨0, programText, file⟩)⟩ ∈ opening file ++ l := by
      simp [opening]
    have hends : (⟨.newline, [endMark], Glyph.place (ofLine ⟨0, programText, file⟩)⟩ : Token).EndsRow d :=
      ⟨rfl, (hlexed _ (by simp [opening])).toLawful⟩
    exact .ok ⟨_, spelling_self d, _, _, l, _, _, l', rfl, rfl,
      twins_same ⟨rfl, rfl, rfl⟩ (hlexed _ hstart) (hlexed _ hstart), by simp, hends, hends,
      runs_of_forall₂ htwins true⟩

end Listing

/-- A program compiles to the same lines of code in any layout, or in none. -/
theorem Compile.code_relaid {s : Setting} {o : Options} {σ : Session} {file : Text} {L L' : List Text}
    (h : Listing.Relaid (Listing.Steady s.dialect file) L L') (hL : L.head? ≠ some []) (hL' : L'.head? ≠ some []) :
    Conversion.Both (fun c c' => c.code = c'.code) (ofListing s o (Listing.framed file L) σ)
      (ofListing s o (Listing.framed file L') σ) := by
  have hshelf := Shelf.matched_refl (d := s.dialect) Text.fine_id s.shelf
  have hboth := @ofListing_both _ o _ σ s s.shelf _ _ _ Text.fine_id (Listing.matched_relaid h hL hL')
    (fun l l' τ τ' hx hl _ hτ => by
      obtain ⟨S, hS, hl⟩ := hl
      exact Branch.convert_both hshelf hS hx hl hτ)
    ⟨Naming.alike_refl _, rfl⟩
  refine hboth.mono fun c c' hcode => ?_
  simpa [List.forall₂_eq_eq_eq] using hcode

end ClassicBasic
