import ClassicBasic.Proofs.Parts
import ClassicBasic.Proofs.Relaid
import ClassicBasic.Proofs.Saving
import ClassicBasic.Proofs.Signposts

/-!
# Layouts of dignified source

How lines are indented and whether empty lines stand in front of labels makes no difference to what
dignified source is compiled to, unless a line ends inside an item of DATA.
-/

set_option autoImplicit false

namespace ClassicBasic

open List (Forall₂)
open Text (Unpaired IsIndent)

namespace Text

variable {t u v w : Text} {vs ws : List Text}

theorem unpaired_of_not_mem (h : '\'' ∉ t) : Unpaired t := fun hp => h (hp.subset (by simp))

/-- Whether two texts may be put side by side. -/
def Apart (v w : Text) : Prop := ¬(v.getLast? = some '\'' ∧ w.head? = some '\'')

/-- Texts that make no two apostrophes stand side by side, with blanks between them or without. -/
structure Joinable (vs : List Text) : Prop where
  each : ∀ v ∈ vs, Unpaired v
  apart : vs.IsChain Apart

theorem joinable_cons : Joinable (v :: vs) ↔ Unpaired v ∧ (∀ w ∈ vs.head?, Apart v w) ∧ Joinable vs := by
  constructor
  · rintro ⟨heach, hapart⟩
    obtain ⟨hv, hvs⟩ := List.forall_mem_cons.1 heach
    obtain ⟨hhead, htail⟩ := List.isChain_cons.1 hapart
    exact ⟨hv, hhead, hvs, htail⟩
  · rintro ⟨hv, hhead, hvs⟩
    exact ⟨List.forall_mem_cons.2 ⟨hv, hvs.each⟩, List.isChain_cons.2 ⟨hhead, hvs.apart⟩⟩

theorem joinable_nil : Joinable [] := ⟨by simp, .nil⟩

theorem joinable_single (hv : Unpaired v) : Joinable [v] := joinable_cons.2 ⟨hv, by simp, joinable_nil⟩

theorem Joinable.part (h : Joinable vs) (hw : ws <:+: vs) : Joinable ws := by
  refine ⟨fun v hv => h.each v (hw.subset hv), ?_⟩
  obtain ⟨before, after, rfl⟩ := hw
  exact h.apart.left_of_append.right_of_append

/-- Whether a text shows no apostrophe that another one does not. -/
structure Tamer (v w : Text) : Prop where
  unpaired (h : Unpaired v) : Unpaired w
  head (h : w.head? = some '\'') : v.head? = some '\''
  last (h : w.getLast? = some '\'') : v.getLast? = some '\''

theorem Tamer.refl (v : Text) : Tamer v v := ⟨id, id, id⟩

theorem tamer_of_not_mem (h : '\'' ∉ w) : Tamer v w :=
  ⟨fun _ => unpaired_of_not_mem h, fun hw => absurd (List.mem_of_head? hw) h,
    fun hw => absurd (List.mem_of_getLast? hw) h⟩

theorem lowerChar_eq_sign {c : Char} : lowerChar c = '\'' ↔ c = '\'' := by
  refine ⟨fun h => lowerChar_eq h (by decide) (by decide) (by decide), ?_⟩
  rintro rfl
  decide

theorem tamer_lower (v : Text) : Tamer v (lower v) := by
  refine ⟨fun h => ?_, fun h => ?_, fun h => ?_⟩
  · rw [unpaired_iff_isChain] at h ⊢
    refine (List.isChain_map lowerChar).2 (h.imp fun a b hab => ?_)
    rwa [lowerChar_eq_sign, lowerChar_eq_sign]
  · rw [lower, List.head?_map, Option.map_eq_some_iff] at h
    obtain ⟨c, hc, hlower⟩ := h
    rw [hc, lowerChar_eq_sign.1 hlower]
  · rw [lower, List.getLast?_map, Option.map_eq_some_iff] at h
    obtain ⟨c, hc, hlower⟩ := h
    rw [hc, lowerChar_eq_sign.1 hlower]

theorem Joinable.tamed (h : Joinable vs) (ht : Forall₂ Tamer vs ws) : Joinable ws := by
  induction ht with
  | nil => exact joinable_nil
  | @cons v w vs ws hvw ht ih =>
    obtain ⟨hv, hhead, hvs⟩ := joinable_cons.1 h
    refine joinable_cons.2 ⟨hvw.unpaired hv, fun x hx => ?_, ih hvs⟩
    cases ht with
    | nil => cases hx
    | @cons v' w' _ _ hvw' _ =>
      cases hx
      rintro ⟨hlast, hfirst⟩
      exact hhead v' rfl ⟨hvw.last hlast, hvw'.head hfirst⟩

end Text

open Text (Joinable Apart Tamer)

namespace Piece

variable {d : Dialect} {c : Char} {rest t : Text}

/-- What is read of a text that holds no two apostrophes side by side can be joined, and starts with an
apostrophe only if the text does so behind its blanks. -/
structure Shown (d : Dialect) (t : Text) : Prop where
  joinable : Joinable ((reading d t).map Prod.snd)
  head (v : Text) (hv : v ∈ ((reading d t).map Prod.snd).head?) (hs : v.head? = some '\'') :
    (t.dropWhile isGap).head? = some '\''

theorem shown_nil : Shown d [] :=
  ⟨by rw [reading_nil]; exact Text.joinable_nil, fun v hv => by simp [reading_nil] at hv⟩

theorem shown_gap (hc : isGap c = true) (h : Shown d rest) : Shown d (c :: rest) := by
  constructor
  · rw [reading_gap hc]
    exact h.joinable
  · rw [reading_gap hc, List.dropWhile_cons_of_pos hc]
    exact h.head

theorem shown_step {k : Kind} {v : Text} {faces : List Face} (hc : isGap c = false)
    (hread : reading d (c :: rest) = (k, v) :: faces) (hv : Unpaired v) (hfirst : v.head? = some c)
    (hnext : ∀ w ∈ (faces.map Prod.snd).head?, Apart v w) (hfaces : Joinable (faces.map Prod.snd)) :
    Shown d (c :: rest) := by
  constructor
  · rw [hread]
    exact Text.joinable_cons.2 ⟨hv, hnext, hfaces⟩
  · rw [hread, List.dropWhile_cons_of_neg (by simp [hc])]
    rintro w hw hs
    cases hw
    exact hfirst.symm.trans hs

theorem apart_of_last {v w : Text} (h : v.getLast? ≠ some '\'') : Apart v w := fun hs => h hs.1

theorem shown_string (hu : Unpaired ('"' :: rest)) (h : Shown d (step d '"' rest).left) :
    Shown d ('"' :: rest) := by
  by_cases hclosed : '"' ∈ rest
  · obtain ⟨body, left, rfl, hb⟩ := List.eq_append_cons_of_mem hclosed
    rw [step_closed d hb] at h
    refine shown_step rfl (by rw [reading_step rfl, step_closed d hb]; rfl) (hu.part ⟨[], left, by simp⟩) rfl
      (fun w _ => apart_of_last ?_) h.joinable
    rw [List.getLast?_concat]
    decide
  · have hread : reading d ('"' :: rest) = [(.string, '"' :: rest)] := by
      rw [reading_step rfl, step_unclosed d hclosed, reading_nil]
      rfl
    exact shown_step rfl hread hu rfl (by simp) Text.joinable_nil

theorem shown_noted {mark text : Text} (hc : isGap c = false) (hu : Unpaired (c :: rest))
    (hs : step d c rest = { faces := noted mark text, left := [] }) (he : c :: rest = mark ++ text)
    (hm : mark.head? = some c) : Shown d (c :: rest) := by
  rw [he] at hu
  obtain ⟨hmark, htext, hapart⟩ := Text.unpaired_append.1 hu
  have hread : reading d (c :: rest) = (.remark, mark) :: if text = [] then [] else [(.remarkText, text)] := by
    rw [reading_step hc, hs, reading_nil, List.append_nil, noted]
  by_cases hnil : text = []
  · rw [if_pos hnil] at hread
    exact shown_step hc hread hmark hm (by simp) Text.joinable_nil
  · rw [if_neg hnil] at hread
    exact shown_step hc hread hmark hm (by rintro w ⟨⟩; exact hapart) (Text.joinable_single htext)

theorem shown_data (hc : isGap c = false) (hq : c ≠ '"') (hs : c ≠ '\'')
    (hr : ¬startsWith "REM" (c :: rest) = true) (hd : startsWith "DATA" (c :: rest) = true)
    (hu : Unpaired (c :: rest)) (h : Shown d (step d c rest).left) : Shown d (c :: rest) := by
  have hread := reading_step (d := d) hc rest
  rw [step_data d hq hs hr hd] at hread h
  obtain ⟨left, hleft, -, hend⟩ := dataItems_spec [] (rest.drop 3)
  change rest.drop 3 = dataItems false (rest.drop 3) ++ left at hleft
  change ∀ x ∈ left.head?, x = ':' ∧ Text.insideQuotes (dataItems false (rest.drop 3)) = false at hend
  generalize dataItems false (rest.drop 3) = items at *
  have hdrop : (rest.drop 3).drop items.length = left := by rw [hleft, List.drop_left]
  simp only [hdrop, fielded] at hread h
  have hline : c :: rest = (c :: rest.take 3) ++ (items ++ left) := by
    rw [← hleft, List.cons_append, List.take_append_drop]
  obtain ⟨hmark, hitems, -⟩ := Text.unpaired_append.1 (hline ▸ hu)
  have hsign : (c :: rest.take 3).getLast? ≠ some '\'' := by
    intro hl
    have hupper : Text.upper (c :: rest.take 3) = "DATA" := startsWith_iff.1 hd
    have hlast := congrArg List.getLast? hupper
    rw [Text.upper, List.getLast?_map, hl] at hlast
    exact absurd hlast (by decide)
  by_cases hnil : Text.trimBlank items = []
  · rw [if_pos hnil] at hread
    exact shown_step hc hread hmark rfl (fun w _ => apart_of_last hsign) h.joinable
  · rw [if_neg hnil] at hread
    refine shown_step hc hread hmark rfl (fun w _ => apart_of_last hsign)
      (Text.joinable_cons.2 ⟨?_, ?_, h.joinable⟩)
    · obtain ⟨before, after, hsplit, -, -⟩ := Text.trimBoth_split Text.isBlank items
      change items = before ++ (Text.trimBlank items ++ after) at hsplit
      refine (Text.unpaired_append.1 hitems).1.part ⟨before, after, ?_⟩
      rw [List.append_assoc]
      exact hsplit.symm
    · rintro w hw ⟨-, hfirst⟩
      have hstart := h.head w hw hfirst
      cases left with
      | nil => cases hstart
      | cons x left =>
        obtain ⟨rfl, -⟩ := hend x rfl
        cases hstart

theorem shown_word (hc : isGap c = false) (hw : StartsWord c rest)
    (h : Shown d (step d c rest).left) : Shown d (c :: rest) := by
  rw [step_word d hw] at h
  have hinner : isInner c = true := by
    simp only [isGap, Bool.or_eq_false_iff, decide_eq_false_iff_not] at hc
    exact isInner_iff.2 ⟨hc.1, hc.2, hw.1, hw.2.1⟩
  have hsign : '\'' ∉ c :: rest.take (word d c rest).2 := fun hm =>
    (isInner_iff.1 (word_inner hinner rest _ hm)).2.2.2 rfl
  exact shown_step hc (by rw [reading_step hc, step_word d hw]; rfl) (Text.unpaired_of_not_mem hsign) rfl
    (fun w _ => apart_of_last fun hl => hsign (List.mem_of_getLast? hl)) h.joinable

theorem shown_reading (hu : Unpaired t) : Shown d t := by
  induction t using step_induction d with
  | nil => exact shown_nil
  | gap c rest hc ih => exact shown_gap hc (ih (hu.part (List.suffix_cons c rest).isInfix))
  | step c rest hc ih =>
    have hleft : Shown d (step d c rest).left :=
      ih (hu.part ((step_left_suffix d c rest).trans (List.suffix_cons c rest)).isInfix)
    by_cases hq : c = '"'
    · subst hq
      exact shown_string hu hleft
    by_cases hs : c = '\''
    · subst hs
      exact shown_noted rfl hu (step_sign d rest) rfl rfl
    by_cases hr : startsWith "REM" (c :: rest) = true
    · exact shown_noted hc hu (step_remark d hq hs hr) (by simp) rfl
    by_cases hd : startsWith "DATA" (c :: rest) = true
    · exact shown_data hc hq hs hr hd hu hleft
    · exact shown_word hc ⟨hq, hs, hr, hd⟩ hleft

end Piece

/-- Whether a character may stand in a line that is read with tabs at every `tab` columns. -/
def Listing.InLine (tab : Int) (c : Char) : Prop := c ≠ '\r' ∧ c ≠ '\n' ∧ (0 < tab → c ≠ '\t')

open Listing (InLine)

theorem Text.inLine_lowerChar {tab : Int} {c : Char} (h : InLine tab c) : InLine tab (lowerChar c) := by
  have back {x : Char} (hx : x ∈ ['\r', '\n', '\t']) (hc : lowerChar c = x) : c = x := by
    simp only [List.mem_cons, List.not_mem_nil, or_false] at hx
    rcases hx with rfl | rfl | rfl <;> exact lowerChar_eq hc (by decide) (by decide) (by decide)
  exact ⟨fun hc => h.1 (back (by simp) hc), fun hc => h.2.1 (back (by simp) hc),
    fun ht hc => h.2.2 ht (back (by simp) hc)⟩

namespace NumberedLine

variable {tab m n : Int} {c : Char}

theorem mem_jumpText (h : c ∈ jumpText m n ∨ c ∈ label n) :
    c ∈ ['\x7b', '\x7d', 'l', '_', '@', '-'] ∨ c.isDigit = true := by
  have signs : ∀ v ∈ [Label.opening, labelStart, Label.sameLine, Label.closing],
      v ⊆ ['\x7b', '\x7d', 'l', '_', '@', '-'] := by
    simp [Label.opening, labelStart, Label.sameLine, Label.closing]
  have number (h : c ∈ label n) : c ∈ ['\x7b', '\x7d', 'l', '_', '@', '-'] ∨ c.isDigit = true := by
    simp only [label, Label.bracketed, List.mem_append] at h
    rcases h with (h | h | h) | h
    · exact .inl (signs _ (by simp) h)
    · exact .inl (signs _ (by simp) h)
    · exact (Text.ofInt_signs h).imp_left fun h => by simp [h]
    · exact .inl (signs _ (by simp) h)
  rcases h with h | h
  · unfold jumpText at h
    split at h
    · simp only [Label.bracketed, List.mem_append] at h
      rcases h with (h | h) | h <;> exact .inl (signs _ (by simp) h)
    · exact number h
  · exact number h

theorem inLine_jumpText (tab : Int) (h : c ∈ jumpText m n ∨ c ∈ label n) : InLine tab c ∧ c ≠ '\'' := by
  rcases mem_jumpText h with h | h
  · simp only [List.mem_cons, List.not_mem_nil, or_false] at h
    rcases h with rfl | rfl | rfl | rfl | rfl | rfl <;> simp [InLine]
  · refine ⟨⟨?_, ?_, fun _ => ?_⟩, ?_⟩ <;> rintro rfl <;> exact absurd h (by decide)

theorem tamer_markJumps (number : Int) (branching : Bool) (code : List Piece) :
    Forall₂ Tamer (code.map Piece.text) ((markJumps number branching code).map Piece.text) := by
  induction code generalizing branching with
  | nil => exact .nil
  | cons p code ih =>
    have hjump (target : Int) : Tamer p.text (jumpText number target) :=
      Text.tamer_of_not_mem fun hm => (inLine_jumpText 0 (.inl hm)).2 rfl
    rw [markJumps]
    split
    · exact .cons (.refl _) (ih _)
    · split
      · split
        · exact .cons (.refl _) (ih _)
        · exact .cons (hjump _) (ih _)
      · split <;> exact .cons (.refl _) (ih _)

end NumberedLine

namespace Dignify

variable {tab : Int} {o o' : Layout} {p last : Piece} {code statement : List Piece}
  {code' : List (List Piece)} {written : Text}

/-- Whether the pieces of a line can be written on lines of their own. -/
structure Plain (tab : Int) (code : List Piece) : Prop where
  texts : ∀ p ∈ code, p.text ≠ []
  chars : ∀ p ∈ code, ∀ c ∈ p.text, InLine tab c

theorem Plain.part (h : Plain tab code) (hs : statement <:+: code) : Plain tab statement :=
  ⟨fun p hp => h.texts p (hs.subset hp), fun p hp => h.chars p (hs.subset hp)⟩

/-- Whether the pieces of a line can be laid out in lines. -/
structure Clean (tab : Int) (code : List Piece) : Prop extends Plain tab code where
  joinable : Joinable (code.map Piece.text)

theorem Clean.part (h : Clean tab code) (hs : statement <:+: code) : Clean tab statement :=
  ⟨h.toPlain.part hs, h.joinable.part (hs.map _)⟩

theorem plain_numbered {d : Dialect} {l : Line} (hc : ∀ c ∈ l.text, InLine tab c) (n : Int) :
    Plain tab (l.numbered d n).code := by
  have hmarked {p : Piece} (hp : p ∈ (l.numbered d n).code) :
      p.text ≠ [] ∧ ∀ c ∈ p.text, InLine tab c := by
    obtain ⟨i, hi⟩ := List.mem_iff_getElem?.1 hp
    rw [Line.numbered, NumberedLine.getElem?_markJumps_line] at hi
    obtain ⟨q, hq, rfl⟩ := Option.map_eq_some_iff.1 hi
    cases Piece.reference (l.pieces d) i with
    | some target =>
      exact ⟨NumberedLine.jumpText_ne_nil n target, fun c hc => (NumberedLine.inLine_jumpText tab (.inl hc)).1⟩
    | none =>
      have hfound : Piece.Found l.text q.face := (l.pieces_raw d q (List.mem_of_getElem? hq)).1
      exact ⟨hfound.ne_nil, fun c hq => hc c (hfound.text hq)⟩
  exact ⟨fun p hp => (hmarked hp).1, fun p hp => (hmarked hp).2⟩

theorem clean_numbered {d : Dialect} {l : Line} (hc : ∀ c ∈ l.text, InLine tab c) (hu : Unpaired l.text) (n : Int) :
    Clean tab (l.numbered d n).code := by
  have hcode : (Text.trimBlank l.text).drop l.numeral.length <:+: l.text := by
    obtain ⟨before, after, hsplit, -, -⟩ := Text.trimBoth_split Text.isBlank l.text
    exact (List.drop_suffix _ _).isInfix.trans ⟨before, after, by rw [List.append_assoc]; exact hsplit.symm⟩
  have hshown := Piece.shown_reading (d := d) (hu.part hcode)
  have htexts : (Piece.reading d ((Text.trimBlank l.text).drop l.numeral.length)).map Prod.snd =
      (l.pieces d).map Piece.text := by
    rw [Piece.reading, List.map_map]
    rfl
  exact ⟨plain_numbered hc n, (htexts ▸ hshown.joinable).tamed (NumberedLine.tamer_markJumps _ _ _)⟩

theorem isInfix_splitFrom (read : List Piece) : ∀ statement ∈ splitFrom read code, statement <:+: read ++ code := by
  induction code generalizing read with
  | nil => simp [splitFrom]
  | cons p rest ih =>
    rw [splitFrom]
    split
    · simp
    · split
      · refine List.forall_mem_cons.2 ⟨(List.prefix_append _ _).isInfix, fun statement hs => ?_⟩
        have hrest : rest <:+ read ++ p :: rest := ⟨read ++ [p], by simp⟩
        exact (ih [] statement hs).trans hrest.isInfix
      · intro statement hs
        simpa using ih _ statement hs

theorem isInfix_statements : ∀ statement ∈ statements o code, statement <:+: code := by
  intro statement hs
  have hs := (List.mem_filter.1 hs).1
  split at hs
  · exact isInfix_splitFrom [] statement hs
  · rw [List.mem_singleton.1 hs]

theorem tamer_pieceText (o : Layout) (p : Piece) : Tamer p.text (pieceText o p) := by
  unfold pieceText
  split
  · exact .refl _
  · exact Text.tamer_lower _

theorem inLine_pieceText (h : ∀ c ∈ p.text, InLine tab c) : ∀ c ∈ pieceText o p, InLine tab c := by
  unfold pieceText
  split
  · exact h
  · intro c hc
    obtain ⟨x, hx, rfl⟩ := List.mem_map.1 hc
    exact Text.inLine_lowerChar (h x hx)

theorem exists_renderFrom (o : Layout) (last : Piece) (written : Text) (code : List Piece) :
    ∃ more, renderFrom o last written code = written ++ more := by
  induction code generalizing last written with
  | nil => exact ⟨[], (List.append_nil _).symm⟩
  | cons p code ih =>
    obtain ⟨more, hmore⟩ :=
      ih p (written ++ (if spaced last p written (pieceText o p) then " " else "") ++ pieceText o p)
    exact ⟨_, by rw [renderFrom, hmore, List.append_assoc, List.append_assoc]⟩

theorem mem_renderFrom {c : Char} (h : c ∈ renderFrom o last written code) :
    c ∈ written ∨ c = ' ' ∨ ∃ p ∈ code, c ∈ pieceText o p := by
  induction code generalizing last written with
  | nil => exact .inl h
  | cons p code ih =>
    rcases ih h with h | h | ⟨q, hq, h⟩
    · rcases List.mem_append.1 h with h | h
      · rcases List.mem_append.1 h with h | h
        · exact .inl h
        · split at h <;> simp at h
          exact .inr (.inl h)
      · exact .inr (.inr ⟨p, by simp, h⟩)
    · exact .inr (.inl h)
    · exact .inr (.inr ⟨q, by simp [hq], h⟩)

/-- What is written behind the last piece holds no two apostrophes side by side. -/
theorem unpaired_renderFrom (hw : Unpaired written) (hlast : written.getLast? = (pieceText o last).getLast?)
    (h : Joinable (pieceText o last :: code.map (pieceText o))) (hne : ∀ p ∈ code, p.text ≠ []) :
    Unpaired (renderFrom o last written code) := by
  induction code generalizing last written with
  | nil => exact hw
  | cons p code ih =>
    obtain ⟨-, hnext, hjoin⟩ := Text.joinable_cons.1 h
    obtain ⟨hp, hcode⟩ := List.forall_mem_cons.1 hne
    have hapart : Apart written (pieceText o p) := by
      rintro ⟨hl, hh⟩
      exact hnext _ rfl ⟨hlast ▸ hl, hh⟩
    have hjoined : Unpaired
        (written ++ (if spaced last p written (pieceText o p) then " " else "") ++ pieceText o p) := by
      have hpiece := (Text.joinable_cons.1 hjoin).1
      split
      · rw [Text.unpaired_append, Text.unpaired_append]
        exact ⟨⟨hw, by decide, by simp⟩, hpiece, by simp⟩
      · rw [show written ++ ("" : Text) = written from List.append_nil written, Text.unpaired_append]
        exact ⟨hw, hpiece, hapart⟩
    refine ih hjoined ?_ hjoin hcode
    obtain ⟨c, hc⟩ := Option.ne_none_iff_exists'.1 (mt List.getLast?_eq_none_iff.1 (Piece.pieceText_ne_nil o hp))
    rw [List.getLast?_append, hc]
    rfl

/-- Whether a text makes up a line of its own that is read with tabs at every `tab` columns. -/
structure Lined (tab : Int) (t : Text) : Prop where
  ne_nil : t ≠ []
  chars : ∀ c ∈ t, InLine tab c
  unpaired : Unpaired t

theorem lined_label (tab n : Int) : Lined tab (NumberedLine.label n) :=
  ⟨by simp [NumberedLine.label, Label.bracketed, Label.opening],
    fun c hc => (NumberedLine.inLine_jumpText tab (m := 0) (.inr hc)).1,
    Text.unpaired_of_not_mem fun hc => (NumberedLine.inLine_jumpText tab (m := 0) (.inr hc)).2 rfl⟩

theorem render_ne_nil (h : Plain tab code) (hne : code ≠ []) : render o code ≠ [] := by
  obtain ⟨p, code, rfl⟩ := List.exists_cons_of_ne_nil hne
  obtain ⟨more, hmore⟩ := exists_renderFrom o p (pieceText o p) code
  rw [render, hmore]
  exact List.append_ne_nil_of_left_ne_nil (Piece.pieceText_ne_nil o (h.texts p (by simp))) _

theorem inLine_render (h : Plain tab code) : ∀ c ∈ render o code, InLine tab c := by
  cases code with
  | nil => simp [render]
  | cons p code =>
    have hchars : ∀ q ∈ p :: code, ∀ c ∈ pieceText o q, InLine tab c :=
      fun q hq => inLine_pieceText (h.chars q hq)
    intro c hc
    rcases mem_renderFrom hc with hc | rfl | ⟨q, hq, hc⟩
    · exact hchars p (by simp) c hc
    · simp [InLine]
    · exact hchars q (by simp [hq]) c hc

theorem lined_render (h : Clean tab code) (hne : code ≠ []) : Lined tab (render o code) := by
  refine ⟨render_ne_nil h.toPlain hne, inLine_render h.toPlain, ?_⟩
  obtain ⟨p, code, rfl⟩ := List.exists_cons_of_ne_nil hne
  have htexts : Forall₂ Tamer ((p :: code).map Piece.text) ((p :: code).map (pieceText o)) := by
    rw [List.forall₂_map_left_iff, List.forall₂_map_right_iff]
    exact List.forall₂_same.2 fun q _ => tamer_pieceText o q
  have hjoin := h.joinable.tamed htexts
  exact unpaired_renderFrom (Text.joinable_cons.1 hjoin).1 rfl hjoin fun q hq => h.texts q (by simp [hq])

/-- Whether layouts differ in how lines are indented and in empty lines only. -/
structure Layout.Close (o o' : Layout) : Prop where
  split : o.split = o'.split
  keepCase : o.keepCase = o'.keepCase
  indent : IsIndent o.indent
  indent' : IsIndent o'.indent

theorem isIndent_flatten (h : IsIndent o.indent) (k : Nat) : IsIndent (List.replicate k o.indent).flatten := by
  intro c hc
  obtain ⟨w, hw, hc⟩ := List.mem_flatten.1 hc
  rw [List.eq_of_mem_replicate hw] at hc
  exact h c hc

theorem Layout.Close.renderFrom (h : o.Close o') (last : Piece) (written : Text) (code : List Piece) :
    Dignify.renderFrom o last written code = Dignify.renderFrom o' last written code := by
  induction code generalizing last written with
  | nil => rfl
  | cons p code ih =>
    have htext : pieceText o p = pieceText o' p := by rw [pieceText, pieceText, h.keepCase]
    rw [Dignify.renderFrom, Dignify.renderFrom, htext, ih]

theorem Layout.Close.render (h : o.Close o') (code : List Piece) :
    Dignify.render o code = Dignify.render o' code := by
  cases code with
  | nil => rfl
  | cons p code =>
    have htext : pieceText o p = pieceText o' p := by rw [pieceText, pieceText, h.keepCase]
    rw [Dignify.render, Dignify.render, htext, h.renderFrom]

open Listing (Relaid)

theorem Layout.Close.indented (h : o.Close o') {code : List (List Piece)}
    (hc : ∀ statement ∈ code, Lined tab (Dignify.render o statement))
    (depth : Nat) : Relaid (Lined tab) (Dignify.indented o depth code).1 (Dignify.indented o' depth code).1 ∧
      (Dignify.indented o depth code).2 = (Dignify.indented o' depth code).2 := by
  induction code generalizing depth with
  | nil => exact ⟨.nil, rfl⟩
  | cons statement code ih =>
    obtain ⟨hs, hcode⟩ := List.forall_mem_cons.1 hc
    simp only [Dignify.indented, ← h.render]
    obtain ⟨hmore, hdepth⟩ := ih hcode _
    exact ⟨.line (isIndent_flatten h.indent _) (isIndent_flatten h.indent' _) hs hmore, hdepth⟩

/-- Programs in two layouts, at the same depth. -/
theorem Layout.Close.layOut (h : o.Close o') {lines : List NumberedLine} (hc : ∀ l ∈ lines, Clean tab l.code)
    (targets : List Int) (first first' : Bool) (depth : Nat) :
    Relaid (Lined tab) (Dignify.layOut o targets first depth lines)
    (Dignify.layOut o' targets first' depth lines) := by
  induction lines generalizing first first' depth with
  | nil => exact .nil
  | cons l rest ih =>
    obtain ⟨hl, hrest⟩ := List.forall_mem_cons.1 hc
    obtain ⟨gap, next, hgap, hlay⟩ := layOut_cons o targets first depth l rest
    obtain ⟨gap', next', hgap', hlay'⟩ := layOut_cons o' targets first' depth l rest
    have hstatements : statements o l.code = statements o' l.code := by rw [statements, statements, h.split]
    have hlined : ∀ statement ∈ statements o l.code, Lined tab (Dignify.render o statement) := fun statement hs =>
      lined_render (hl.part (isInfix_statements statement hs)) (by simpa using (List.mem_filter.1 hs).2)
    obtain ⟨hbody, hdepth⟩ := h.indented hlined depth
    rw [hlay, hlay', ← hstatements, ← hdepth]
    refine Relaid.append ?_ (hbody.append (ih hrest _ _ _))
    split
    · have hnone : IsIndent [] := by simp [IsIndent]
      have hlabel := Relaid.line hnone hnone (lined_label tab l.number) .nil
      rcases hgap with rfl | rfl <;> rcases hgap' with rfl | rfl
      · exact hlabel
      · exact .right hlabel
      · exact .left hlabel
      · exact .left (.right hlabel)
    · exact .nil

theorem indented_ne_nil {l : NumberedLine} (h : Plain tab l.code) (depth : Nat) :
    ∀ t ∈ (indented o depth (statements o l.code)).1, t ≠ [] := by
  intro t ht
  obtain ⟨statement, hs, k, rfl⟩ := Outcome.exists_of_forall₂ (indented_written depth _) ht
  refine List.append_ne_nil_of_right_ne_nil _ (render_ne_nil (h.part (isInfix_statements statement hs)) ?_)
  simpa using (List.mem_filter.1 hs).2

theorem head_layOut {lines : List NumberedLine} (hc : ∀ l ∈ lines, Plain tab l.code) (o : Layout)
    (targets : List Int) (depth : Nat) : (layOut o targets true depth lines).head? ≠ some [] := by
  induction lines generalizing depth with
  | nil => simp [layOut]
  | cons l rest ih =>
    obtain ⟨hl, hrest⟩ := List.forall_mem_cons.1 hc
    have hbody := indented_ne_nil (o := o) hl depth
    have hlabel : NumberedLine.label l.number ≠ [] := (lined_label tab l.number).ne_nil
    simp only [layOut, Bool.not_true, Bool.and_false, Bool.false_eq_true, if_false, List.nil_append, Bool.true_and]
    split
    · simpa using hlabel
    · cases hlines : (indented o depth (statements o l.code)).1 with
      | nil => simpa using ih hrest _
      | cons t more =>
        have ht := hbody t (by simp [hlines])
        simpa using ht

theorem getLast_layOut {lines : List NumberedLine} (hc : ∀ l ∈ lines, Plain tab l.code) (o : Layout)
    (targets : List Int) (first : Bool) (depth : Nat) :
    (layOut o targets first depth lines).getLast? ≠ some [] := by
  induction lines generalizing first depth with
  | nil => simp [layOut]
  | cons l rest ih =>
    obtain ⟨hl, hrest⟩ := List.forall_mem_cons.1 hc
    have hbody := indented_ne_nil (o := o) hl depth
    have hlabel : NumberedLine.label l.number ≠ [] := (lined_label tab l.number).ne_nil
    obtain ⟨gap, next, -, hlay⟩ := layOut_cons o targets first depth l rest
    rw [hlay, List.getLast?_append, List.getLast?_append]
    intro hlast
    rcases Option.or_eq_some_iff.1 hlast with hlast | ⟨-, hlast⟩
    · rcases Option.or_eq_some_iff.1 hlast with hlast | ⟨-, hlast⟩
      · exact ih hrest _ _ hlast
      · exact hbody _ (List.mem_of_getLast? hlast) rfl
    · split at hlast
      · rw [List.getLast?_concat] at hlast
        exact hlabel (Option.some.inj hlast)
      · cases hlast

end Dignify

namespace Listing

open Text (joinWith)

variable {t text file : Text} {tab : Int} {lines L L' : List Text} {P : Text → Prop} {c : Char}

theorem unifyEnds_returnless (h : '\r' ∉ t) : unifyEnds t = t := by
  induction t with
  | nil => rfl
  | cons c t ih =>
    simp only [List.mem_cons, not_or] at h
    rw [unifyEnds_cons (Ne.symm h.1), ih h.2]

theorem joinWith_concat (lines : List Text) (last : Text) :
    joinWith "\n" (lines ++ [last]) = written ['\n'] lines ++ last := by
  induction lines with
  | nil => rfl
  | cons t lines ih =>
    obtain ⟨u, more, hcons⟩ := List.exists_cons_of_ne_nil (List.concat_ne_nil last lines)
    rw [List.cons_append, hcons, joinWith, ← hcons, ih, written_cons, List.append_assoc, List.append_assoc]
    · rfl
    · simp

/-- Lines that are joined are read again as they are. -/
theorem lineTexts_joined (hl : ∀ t ∈ lines, Unbroken t) (hlast : lines.getLast? ≠ some []) :
    lineTexts (joinWith "\n" lines) = lines := by
  rcases List.eq_nil_or_concat lines with rfl | ⟨init, last, rfl⟩
  · rfl
  · rw [List.concat_eq_append] at hl hlast ⊢
    have hinit : ∀ t ∈ init, Unbroken t := fun t ht => hl t (by simp [ht])
    have hend : Unbroken last := hl last (by simp)
    have hne : last ≠ [] := by simpa using hlast
    rw [joinWith_concat]
    have hreturns : '\r' ∉ written ['\n'] init ++ last := by
      simp only [List.mem_append, written, List.mem_flatMap, List.mem_singleton, not_or, not_exists, not_and]
      exact ⟨fun t ht => ⟨fun hm => (hinit t ht _ hm).1 rfl, by decide⟩, fun hm => (hend _ hm).1 rfl⟩
    have hdrop : Text.dropTail ['\n'] (written ['\n'] init ++ last) = none := by
      rw [Text.dropTail, if_neg]
      intro hs
      obtain ⟨front, hfront⟩ := List.isSuffixOf_iff_suffix.1 hs
      obtain ⟨before, c, rfl⟩ := (List.eq_nil_or_concat last).resolve_left hne
      rw [List.concat_eq_append, ← List.append_assoc] at hfront
      obtain rfl := (List.cons.inj (List.append_inj' hfront rfl).2).1
      exact (hend '\n' (by simp)).2 rfl
    unfold lineTexts
    dsimp only
    rw [unifyEnds_returnless hreturns, hdrop, Option.getD_none, if_neg (List.append_ne_nil_of_right_ne_nil _ hne),
      splitAt_written hinit hend]

theorem mem_expandFrom {size col : Nat} (h : c ∈ expandFrom size col t) : c = ' ' ∨ c ∈ t ∧ c ≠ '\t' := by
  fun_induction expandFrom size col t with
  | case1 => cases h
  | case2 col t pad ih =>
    rcases List.mem_append.1 h with h | h
    · exact .inl (List.eq_of_mem_replicate h)
    · exact (ih h).imp_right fun h => ⟨List.mem_cons_of_mem _ h.1, h.2⟩
  | case3 col x t hx ih =>
    rcases List.mem_cons.1 h with rfl | h
    · exact .inr ⟨List.mem_cons_self, hx⟩
    · exact (ih h).imp_right fun h => ⟨List.mem_cons_of_mem _ h.1, h.2⟩

theorem not_mem_split {piece : Text} (h : piece ∈ Text.splitAt c t) : c ∉ piece := by
  induction t generalizing piece with
  | nil =>
    rw [List.mem_singleton.1 h]
    simp
  | cons x t ih =>
    rw [Text.splitAt] at h
    split at h
    · exact absurd ‹_› (Text.splitAt_ne_nil c t)
    · rename_i first rest heq
      rw [heq] at ih
      split at h
      · rcases List.mem_cons.1 h with rfl | h
        · simp
        · exact ih h
      · rename_i hx
        rcases List.mem_cons.1 h with rfl | h
        · rw [List.mem_cons, not_or]
          exact ⟨Ne.symm hx, ih List.mem_cons_self⟩
        · exact ih (List.mem_cons_of_mem _ h)

theorem inLine_ofText (text : Text) (h : t ∈ (lineTexts text).map (expandTabs tab)) : ∀ c ∈ t, InLine tab c := by
  obtain ⟨u, hu, rfl⟩ := List.mem_map.1 h
  have hreturn : '\r' ∉ u := not_mem_lineTexts hu
  have hbreak : '\n' ∉ u := by
    unfold lineTexts at hu
    dsimp only at hu
    split at hu
    · cases hu
    · exact not_mem_split hu
  intro c hc
  unfold expandTabs at hc
  split at hc
  · rename_i htab
    exact ⟨fun he => hreturn (he ▸ hc), fun he => hbreak (he ▸ hc), fun hpos => by omega⟩
  · rcases mem_expandFrom hc with rfl | ⟨hm, hne⟩
    · simp [InLine]
    · exact ⟨fun he => hreturn (he ▸ hm), fun he => hbreak (he ▸ hm), fun _ => hne⟩

theorem expandFrom_indented {w : Text} (hw : IsIndent w) (ht : '\t' ∉ t) (size col : Nat) :
    ∃ w', IsIndent w' ∧ expandFrom size col (w ++ t) = w' ++ t := by
  induction w generalizing col with
  | nil => exact ⟨[], by simp [IsIndent], expandFrom_tabless ht size col⟩
  | cons c w ih =>
    obtain ⟨hc, hrest⟩ := List.forall_mem_cons.1 hw
    rcases hc with rfl | rfl
    · obtain ⟨w', hw', heq⟩ := ih hrest (col + 1)
      refine ⟨' ' :: w', List.forall_mem_cons.2 ⟨.inl rfl, hw'⟩, ?_⟩
      rw [List.cons_append, expandFrom, heq, List.cons_append]
      simp
    · obtain ⟨w', hw', heq⟩ := ih hrest (col + (size - col % size))
      refine ⟨List.replicate (size - col % size) ' ' ++ w', ?_, ?_⟩
      · intro x hx
        rcases List.mem_append.1 hx with hx | hx
        · exact .inl (List.eq_of_mem_replicate hx)
        · exact hw' x hx
      · rw [List.cons_append, expandFrom, heq, List.append_assoc]

theorem expandTabs_indented {w : Text} (hw : IsIndent w) (ht : ∀ c ∈ t, InLine tab c) :
    ∃ w', IsIndent w' ∧ expandTabs tab (w ++ t) = w' ++ t := by
  unfold expandTabs
  split
  · exact ⟨w, hw, rfl⟩
  · exact expandFrom_indented hw (fun hm => (ht _ hm).2.2 (by omega) rfl) _ _

theorem expandTabs_ne_nil (h : t ≠ []) : expandTabs tab t ≠ [] := by
  unfold expandTabs
  split
  · exact h
  · obtain ⟨c, t, rfl⟩ := List.exists_cons_of_ne_nil h
    by_cases hc : c = '\t'
    · subst hc
      rw [expandFrom, Nat.zero_mod, Nat.sub_zero]
      refine List.append_ne_nil_of_left_ne_nil ?_ _
      simp
      omega
    · rw [expandFrom]
      · simp
      · exact hc

theorem Relaid.expanded (h : Relaid P L L') (hP : ∀ t, P t → ∀ c ∈ t, InLine tab c) :
    Relaid P (L.map (expandTabs tab)) (L'.map (expandTabs tab)) := by
  have hnil : expandTabs tab [] = [] := by
    unfold expandTabs
    split <;> rfl
  induction h with
  | nil => exact .nil
  | line hw hw' ht _ ih =>
    obtain ⟨v, hv, heq⟩ := expandTabs_indented hw (hP _ ht)
    obtain ⟨v', hv', heq'⟩ := expandTabs_indented hw' (hP _ ht)
    rw [List.map_cons, List.map_cons, heq, heq']
    exact .line hv hv' ht ih
  | left _ ih =>
    rw [List.map_cons, hnil]
    exact .left ih
  | right _ ih =>
    rw [List.map_cons, hnil]
    exact .right ih

end Listing

namespace Dignify

variable {tab : Int} {o : Layout} {lines : List NumberedLine}

theorem head_expanded (hp : ∀ l ∈ lines, Plain tab l.code) (o : Layout) (targets : List Int) :
    ((layOut o targets true 0 lines).map (Listing.expandTabs tab)).head? ≠ some [] := by
  rw [List.head?_map]
  intro hhead
  obtain ⟨t, ht, hnil⟩ := Option.map_eq_some_iff.1 hhead
  exact Listing.expandTabs_ne_nil (fun he => head_layOut hp o targets 0 (he ▸ ht)) hnil

theorem unbroken_layOut (hp : ∀ l ∈ lines, Plain tab l.code) (hi : IsIndent o.indent)
    (targets : List Int) (first : Bool)
    (depth : Nat) : ∀ t ∈ layOut o targets first depth lines, Listing.Unbroken t := by
  have behind {w t : Text} (hw : IsIndent w) (ht : ∀ c ∈ t, InLine tab c) : Listing.Unbroken (w ++ t) := by
    intro c hc
    rcases List.mem_append.1 hc with hc | hc
    · rcases hw c hc with rfl | rfl <;> decide
    · exact ⟨(ht c hc).1, (ht c hc).2.1⟩
  induction lines generalizing first depth with
  | nil => simp [layOut]
  | cons l rest ih =>
    obtain ⟨hl, hrest⟩ := List.forall_mem_cons.1 hp
    obtain ⟨gap, next, hgap, hlay⟩ := layOut_cons o targets first depth l rest
    have hlabel : Listing.Unbroken (NumberedLine.label l.number) :=
      behind (w := []) (by simp [IsIndent]) (lined_label tab l.number).chars
    rw [hlay]
    intro t ht
    rcases List.mem_append.1 ht with ht | ht
    · split at ht
      · rcases hgap with rfl | rfl
        · rwa [List.mem_singleton.1 ht]
        · rcases List.mem_cons.1 ht with rfl | ht
          · simp [Listing.Unbroken]
          · rwa [List.mem_singleton.1 ht]
      · cases ht
    · rcases List.mem_append.1 ht with ht | ht
      · obtain ⟨statement, hs, k, rfl⟩ := Outcome.exists_of_forall₂ (indented_written depth _) ht
        exact behind (isIndent_flatten hi k) (inLine_render (hl.part (isInfix_statements statement hs)))
      · exact ih hrest _ _ t ht

/-- What is read of a line of a text. -/
theorem exists_line {d : Dialect} {text source : Text} {read : List NumberedLine} {l : NumberedLine}
    (hread : (NumberedLine.readAll d (-1) (Listing.numberFrom source 1
      ((Listing.lineTexts text).map (Listing.expandTabs tab)))).outcome = .ok read) (hl : l ∈ read) :
    ∃ line ∈ Listing.ofText text source tab, (∀ c ∈ line.text, InLine tab c) ∧
      ∃ n, line.number? = some n ∧ l = line.numbered d n := by
  obtain ⟨hreads, -, -⟩ := @NumberedLine.readAll_ok d [] _ read hread
  obtain ⟨line, hmem, n, hn, rfl⟩ := Outcome.exists_of_forall₂ hreads hl
  have hline := List.mem_of_mem_filter hmem
  refine ⟨line, ?_, Listing.inLine_ofText text (Listing.mem_numberFrom hline).2.2.1, n, hn, rfl⟩
  simp [Listing.ofText, Listing.framed, hline]

/-- The lines of a layout are read again as they are, but for their tabs. -/
theorem ofText_layOut (hp : ∀ l ∈ lines, Plain tab l.code) (hi : IsIndent o.indent)
    (targets : List Int) (file : Text) :
    Listing.ofText (Text.joinWith "\n" (layOut o targets true 0 lines)) file tab =
      Listing.framed file ((layOut o targets true 0 lines).map (Listing.expandTabs tab)) := by
  rw [Listing.ofText, Listing.lineTexts_joined (unbroken_layOut hp hi targets true 0)
    (getLast_layOut hp o targets true 0)]

end Dignify

namespace Compile

open Dignify (Layout)
open Listing (Spills)

variable {s : Setting} {o : Options} {σ : Session} {text source file : Text} {tab : Int} {a a' : Layout}
  {out : List Text}

theorem exists_error_of_outcome {listing : Listing} (h : (outcome s o listing).isSome = false) :
    ∃ e τ, ofListing s o listing {} = .error e τ := by
  unfold outcome at h
  cases hr : ofListing s o listing {} with
  | ok c τ => simp [hr] at h
  | error e τ => exact ⟨e, τ, rfl⟩

/-- Dignified source in two layouts compiles to the same code, or in neither of them. -/
theorem code_layOut (ha : a.Close a') {lines : List NumberedLine} (hc : ∀ l ∈ lines, Dignify.Clean tab l.code)
    (targets : List Int) (hdata : ∀ t ∈ Dignify.layOut a targets true 0 lines, ¬Spills s.dialect file t) :
    Conversion.Both (fun c c' => c.code = c'.code)
      (ofListing s o (Listing.ofText (Text.joinWith "\n" (Dignify.layOut a targets true 0 lines)) file tab) σ)
      (ofListing s o
        (Listing.ofText (Text.joinWith "\n" (Dignify.layOut a' targets true 0 lines)) file tab) σ) := by
  have hplain : ∀ l ∈ lines, Dignify.Plain tab l.code := fun l hl => (hc l hl).toPlain
  have hrelaid := ha.layOut hc targets true true 0
  have hsteady : Listing.Relaid (Listing.Steady s.dialect file)
      ((Dignify.layOut a targets true 0 lines).map (Listing.expandTabs tab))
      ((Dignify.layOut a' targets true 0 lines).map (Listing.expandTabs tab)) := by
    refine (hrelaid.mem.expanded fun t ht => ht.1.chars).mono ?_
    rintro t ⟨ht, w, hw, hm⟩
    exact ⟨fun hm => (ht.chars _ hm).1 rfl, ht.unpaired, fun hg => hdata _ hm (hg.indented hw)⟩
  rw [Dignify.ofText_layOut hplain ha.indent, Dignify.ofText_layOut hplain ha.indent']
  exact code_relaid hsteady (Dignify.head_expanded hplain a targets) (Dignify.head_expanded hplain a' targets)

/-- What a classic listing without two apostrophes side by side is converted to compiles to the same code
in layouts that differ in indents and empty lines only, or in neither of them, as long as no line ends in
an item of DATA that goes on in the next one. -/
theorem code_laidOut (ha : a.Close a') (hu : ∀ l ∈ Listing.ofText text source tab, Unpaired l.text)
    (h : (Dignify.ofListing s.dialect a (Listing.ofText text source tab)).outcome = .ok out)
    (hdata : ∀ t ∈ out, ¬Spills s.dialect file t) :
    ∃ out', (Dignify.ofListing s.dialect a' (Listing.ofText text source tab)).outcome = .ok out' ∧
      Conversion.Both (fun c c' => c.code = c'.code)
        (ofListing s o (Listing.ofText (Text.joinWith "\n" out) file tab) σ)
        (ofListing s o (Listing.ofText (Text.joinWith "\n" out') file tab) σ) := by
  set lines := (Listing.lineTexts text).map (Listing.expandTabs tab) with hlines
  set ls := Listing.numberFrom source 1 lines with hls
  have hlisting : Listing.ofText text source tab =
      ⟨0, Listing.programText, source⟩ :: (ls ++ [⟨lines.length + 1, Listing.eofText, source⟩]) := rfl
  rw [hlisting, Dignify.ofListing_framed] at h
  cases hread : (NumberedLine.readAll s.dialect (-1) ls).outcome with
  | error e =>
    rw [hread] at h
    cases h
  | ok read =>
    rw [hread] at h
    obtain rfl : Dignify.layOut a (NumberedLine.targets read) true 0 read = out := Except.ok.inj h
    have hclean : ∀ l ∈ read, Dignify.Clean tab l.code := by
      intro l hl
      obtain ⟨line, hmem, hchars, n, -, rfl⟩ := Dignify.exists_line hread hl
      exact Dignify.clean_numbered hchars (hu line hmem) n
    refine ⟨_, by rw [hlisting, Dignify.ofListing_framed, hread]; rfl, ?_⟩
    exact code_layOut ha hclean _ hdata

/-- A jump in two layouts. -/
theorem jump_laidOut :
    ∃ out out' c τ c' τ',
      (Dignify.ofListing .msx {} (Listing.ofText "10 CLS\n20 GOTO 10" "/main" 4)).outcome = .ok out ∧
      (Dignify.ofListing .msx { blankLine := false, indent := "  " }
        (Listing.ofText "10 CLS\n20 GOTO 10" "/main" 4)).outcome = .ok out' ∧
      ofListing (lone .msx) { header := false } (Listing.ofText (Text.joinWith "\n" out) "/main" 4) {} = .ok c τ ∧
      ofListing (lone .msx) { header := false } (Listing.ofText (Text.joinWith "\n" out') "/main" 4) {} =
        .ok c' τ' ∧
      c.code = c'.code := by
  obtain ⟨hconv, hunpaired, hdata, hrun⟩ :
      (Dignify.ofListing .msx {} (Listing.ofText "10 CLS\n20 GOTO 10" "/main" 4)).outcome =
        .ok (Text.ofStrings ["\x7bl_10\x7d", "\tcls", "\tgoto \x7bl_10\x7d"]) ∧
      (∀ l ∈ Listing.ofText "10 CLS\n20 GOTO 10" "/main" 4, Unpaired l.text) ∧
      (∀ t ∈ Text.ofStrings ["\x7bl_10\x7d", "\tcls", "\tgoto \x7bl_10\x7d"], ¬Spills .msx "/main" t) ∧
      (outcome (lone .msx) { header := false } (Listing.ofText (Text.joinWith "\n"
        (Text.ofStrings ["\x7bl_10\x7d", "\tcls", "\tgoto \x7bl_10\x7d"])) "/main" 4)).isSome = true := by
    decide +kernel
  obtain ⟨c, hc⟩ := Option.isSome_iff_exists.1 hrun
  obtain ⟨τ, hτ⟩ := exists_of_outcome hc
  obtain ⟨out', hconv', hboth⟩ := @code_laidOut (lone .msx) { header := false } {}
      "10 CLS\n20 GOTO 10" "/main" "/main" 4 {}
    { blankLine := false, indent := "  " } _ ⟨rfl, rfl, by simp [IsIndent], by simp [IsIndent]⟩
    hunpaired hconv hdata
  rw [hτ] at hboth
  generalize hr : ofListing (lone .msx) { header := false }
    (Listing.ofText (Text.joinWith "\n" out') "/main" 4) {} = r at hboth
  cases hboth with
  | ok hcode => exact ⟨_, out', c, τ, _, _, hconv, hconv', hτ, hr, hcode⟩

/-- An item of DATA may go on in an empty line in front of a label, but not in the label. -/
theorem data_line_not_laidOut :
    Layout.Close {} { blankLine := false } ∧
      (∀ l ∈ Listing.ofText "10 GOTO 20:DATA A\"B,\"C:'_\n20 END" "/main" 4,
        Unpaired l.text ∧ ∀ p ∈ l.pieces .msx, p.kind = .dataField → p.text.getLast? ≠ some '_') ∧
      ∃ out out' c τ e τ',
        (Dignify.ofListing .msx {}
          (Listing.ofText "10 GOTO 20:DATA A\"B,\"C:'_\n20 END" "/main" 4)).outcome = .ok out ∧
        (Dignify.ofListing .msx { blankLine := false }
          (Listing.ofText "10 GOTO 20:DATA A\"B,\"C:'_\n20 END" "/main" 4)).outcome = .ok out' ∧
        ofListing (lone .msx) { header := false } (Listing.ofText (Text.joinWith "\n" out) "/main" 4) {} = .ok c τ ∧
        ofListing (lone .msx) { header := false }
          (Listing.ofText (Text.joinWith "\n" out') "/main" 4) {} = .error e τ' := by
  obtain ⟨hplain, hconv, hconv', hrun, hfail⟩ :
      (∀ l ∈ Listing.ofText "10 GOTO 20:DATA A\"B,\"C:'_\n20 END" "/main" 4,
        Unpaired l.text ∧ ∀ p ∈ l.pieces .msx, p.kind = .dataField → p.text.getLast? ≠ some '_') ∧
      (Dignify.ofListing .msx {} (Listing.ofText "10 GOTO 20:DATA A\"B,\"C:'_\n20 END" "/main" 4)).outcome =
        .ok (Text.ofStrings ["\tgoto \x7bl_20\x7d:data A\"B,\"C:'_", "", "\x7bl_20\x7d", "\tend"]) ∧
      (Dignify.ofListing .msx { blankLine := false }
        (Listing.ofText "10 GOTO 20:DATA A\"B,\"C:'_\n20 END" "/main" 4)).outcome =
        .ok (Text.ofStrings ["\tgoto \x7bl_20\x7d:data A\"B,\"C:'_", "\x7bl_20\x7d", "\tend"]) ∧
      (outcome (lone .msx) { header := false } (Listing.ofText (Text.joinWith "\n" (Text.ofStrings
        ["\tgoto \x7bl_20\x7d:data A\"B,\"C:'_", "", "\x7bl_20\x7d", "\tend"])) "/main" 4)).isSome = true ∧
      (outcome (lone .msx) { header := false } (Listing.ofText (Text.joinWith "\n" (Text.ofStrings
        ["\tgoto \x7bl_20\x7d:data A\"B,\"C:'_", "\x7bl_20\x7d", "\tend"])) "/main" 4)).isSome = false := by
    decide +kernel
  obtain ⟨c, hc⟩ := Option.isSome_iff_exists.1 hrun
  obtain ⟨τ, hτ⟩ := exists_of_outcome hc
  obtain ⟨e, τ', hτ'⟩ := exists_error_of_outcome hfail
  exact ⟨⟨rfl, rfl, by simp [IsIndent], by simp [IsIndent]⟩, hplain, _, _, c, τ, e, τ', hconv, hconv', hτ, hτ'⟩

end Compile

end ClassicBasic
