import ClassicBasic.Proofs.Covering
import ClassicBasic.Proofs.Spelling
import ClassicBasic.Proofs.Sentinels

/-!
# Code that fits the machine

A character of the machine has a number below 256. What the grammar reads is folded to ASCII, and no
other character below 256 is, so what is read of a listing of such characters is ASCII except for the
texts that are read as they stand. Case, short names and numbers keep it so, and the character sets
stay below 256.
-/

set_option autoImplicit false

namespace ClassicBasic

namespace Text

variable {v w : Text} {c : Char}

theorem Ascii.latin (h : Ascii v) : Latin v := fun c hc => by
  have := h c hc
  omega

theorem Ascii.subset (h : Ascii w) (hv : v ⊆ w) : Ascii v := fun c hc => h c (hv hc)

theorem Latin.subset (h : Latin w) (hv : v ⊆ w) : Latin v := fun c hc => h c (hv hc)

theorem Ascii.append (hv : Ascii v) (hw : Ascii w) : Ascii (v ++ w) := fun c hc =>
  (List.mem_append.1 hc).elim (hv c) (hw c)

theorem Latin.append (hv : Latin v) (hw : Latin w) : Latin (v ++ w) := fun c hc =>
  (List.mem_append.1 hc).elim (hv c) (hw c)

def FoldsIn (c : Char) : Prop := (foldChar c).toNat < 0x80

instance (c : Char) : Decidable (FoldsIn c) := inferInstanceAs (Decidable (_ < _))

/-- The case maps keep the characters of ASCII among themselves, and none of their runs moves another
character that fits an octet into ASCII. -/
theorem octet_cases : (∀ n < 0x80, (lowerChar (Char.ofNat n)).toNat < 0x80 ∧
    (upperChar (Char.ofNat n)).toNat < 0x80 ∧ FoldsIn (Char.ofNat n)) ∧
    ∀ r ∈ foldRanges ++ lowerRanges, 0x100 ≤ r.first ∨
      (0x80 ≤ (r.first : Int) + r.shift ∧ r.shift < 0xD000) := by decide +kernel

theorem ascii_cases {c : Char} (h : c.toNat < 0x80) :
    (lowerChar c).toNat < 0x80 ∧ (upperChar c).toNat < 0x80 ∧ FoldsIn c := by
  have hall := octet_cases.1 c.toNat h
  rwa [Char.ofNat_toNat] at hall

theorem shiftBy_octet {ranges : List CaseRange} {c x : Char} (hr : ranges ⊆ foldRanges ++ lowerRanges)
    (hc : c.toNat < 0x100) (h : shiftBy ranges c = some x) : 0x80 ≤ x.toNat := by
  obtain ⟨r, hmem, rfl⟩ := Option.map_eq_some_iff.1 h
  have hcovers := List.find?_some hmem
  simp only [CaseRange.covers, Bool.and_eq_true, decide_eq_true_eq] at hcovers
  obtain hfirst | ⟨hlow, hhigh⟩ := octet_cases.2 r (hr (List.mem_of_find?_eq_some hmem))
  · omega
  · have hvalid : ((c.toNat : Int) + r.shift).toNat.isValidChar := .inl (by omega)
    rw [Char.ofNat, dif_pos hvalid]
    change 0x80 ≤ ((c.toNat : Int) + r.shift).toNat
    omega

theorem ascii_of_foldsIn {c : Char} (hc : c.toNat < 0x100) (h : FoldsIn c) : c.toNat < 0x80 := by
  by_contra hn
  have lowered : 0x80 ≤ (lowerChar c).toNat := by
    unfold lowerChar
    rw [if_neg hn]
    cases hs : shiftBy lowerRanges c with
    | none => exact Nat.le_of_not_lt hn
    | some x => exact shiftBy_octet (List.subset_append_right _ _) hc hs
  unfold FoldsIn foldChar at h
  rw [if_neg hn] at h
  cases hs : shiftBy foldRanges c with
  | none =>
    rw [hs, Option.getD_none] at h
    omega
  | some x =>
    rw [hs, Option.getD_some] at h
    have := shiftBy_octet (List.subset_append_left _ _) hc hs
    omega

theorem Ascii.lower (h : Ascii v) : Ascii (Text.lower v) := by
  intro c hc
  obtain ⟨x, hx, rfl⟩ := List.mem_map.1 hc
  exact (ascii_cases (h x hx)).1

theorem Ascii.upper (h : Ascii v) : Ascii (Text.upper v) := by
  intro c hc
  obtain ⟨x, hx, rfl⟩ := List.mem_map.1 hc
  exact (ascii_cases (h x hx)).2.1

theorem ascii_ofInt (n : Int) : Ascii (Text.ofInt n) :=
  Ascii.subset (w := PrintAt.signs) (by decide) (PrintAt.ofInt_subset n)

theorem foldsIn_of_ascii (h : c.toNat < 0x80) : FoldsIn c := (ascii_cases h).2.2

theorem Latin.ascii (h : Latin v) (hf : ∀ c ∈ v, FoldsIn c) : Ascii v := fun c hc =>
  ascii_of_foldsIn (Nat.lt_succ_of_le (h c hc)) (hf c hc)

/-- What differs from a word of ASCII in letter case only is folded to ASCII. -/
theorem foldsIn_of_sameLetters (hw : Ascii w) (h : sameLetters w v = true) : ∀ c ∈ v, FoldsIn c := by
  intro c hc
  rw [sameLetters_eq, beq_iff_eq] at h
  have hmem : foldChar c ∈ fold w := h ▸ List.mem_map_of_mem hc
  obtain ⟨x, hx, heq⟩ := List.mem_map.1 hmem
  unfold FoldsIn
  rw [← heq]
  exact foldsIn_of_ascii (hw x hx)

end Text

namespace Grammar

open Text (Ascii FoldsIn)

variable {c : Char} {v : Text} {form : NumberForm}

theorem foldsIn_of_isLetter (h : isLetter c = true) : FoldsIn c := by
  simp only [isLetter, Bool.and_eq_true, decide_eq_true_eq] at h
  have hz : (Text.foldChar c).toNat ≤ 'z'.toNat := h.2
  exact Nat.lt_of_le_of_lt hz (by decide)

theorem foldsIn_of_isDigit (h : c.isDigit = true) : FoldsIn c := by
  refine Text.foldsIn_of_ascii ?_
  have hall : Ascii "0123456789" := by decide
  exact hall c (Text.mem_digits h)

theorem foldsIn_of_isOneOf {letters : Text} (hl : Ascii letters) (h : isOneOf letters c = true) :
    FoldsIn c := by
  obtain ⟨x, hx, heq⟩ := List.any_eq_true.1 h
  unfold FoldsIn
  rw [← beq_iff_eq.1 heq]
  exact Text.foldsIn_of_ascii (hl x hx)

theorem foldsIn_of_isTypeSigil (h : isTypeSigil c = true) : FoldsIn c := by
  simp only [isTypeSigil, Bool.or_eq_true, beq_iff_eq] at h
  rcases h with ((rfl | rfl) | rfl) | rfl <;> decide

theorem foldsIn_of_isName {typed : Bool} (h : isName typed v = true) : ∀ c ∈ v, FoldsIn c := by
  intro c hc
  rcases isName_chars h c hc with hn | hs
  · simp only [isNameChar, Bool.or_eq_true, beq_iff_eq] at hn
    rcases hn with (hl | rfl) | hd
    · exact foldsIn_of_isLetter hl
    · decide
    · exact foldsIn_of_isDigit hd
  · exact foldsIn_of_isTypeSigil hs

theorem foldsIn_of_isNumbered {word : Text} (hw : Ascii word) (h : isNumbered word v = true) :
    ∀ c ∈ v, FoldsIn c := by
  simp only [isNumbered, Bool.or_eq_true] at h
  rcases h with h | h
  · exact Text.foldsIn_of_sameLetters hw h
  · split at h
    · rename_i x hx
      rw [Bool.and_eq_true] at h
      intro c hc
      rw [← List.dropLast_append_getLast? x hx] at hc
      rcases List.mem_append.1 hc with hc | hc
      · exact Text.foldsIn_of_sameLetters hw h.2 c hc
      · rw [List.mem_singleton.1 hc]
        exact foldsIn_of_isDigit h.1
    · cases h

end Grammar

def Shape.texts : Shape → List Text
  | .words plain numbered => plain ++ numbered
  | .name lead _ => [lead]
  | .number form | .baseMark form =>
    form.exponents :: form.suffixes :: form.bases.flatMap fun b => [[b.1], b.2]
  | .lineEnds | .blank => []

namespace Shape

open Text (FoldsIn)
open Grammar

variable {v : Text}

theorem foldsIn_of_accepts {shape : Shape} (hs : ∀ w ∈ shape.texts, Text.Ascii w)
    (h : shape.accepts v = true) : ∀ c ∈ v, FoldsIn c := by
  have bases {form : NumberForm} (hf : ∀ w ∈ texts (.number form), Text.Ascii w) :
      ∀ b ∈ form.bases, Text.Ascii [b.1] ∧ Text.Ascii b.2 := fun b hb => by
    have hmem {w : Text} (hw : w ∈ [[b.1], b.2]) : w ∈ texts (.number form) :=
      List.mem_cons_of_mem _ (List.mem_cons_of_mem _ (List.mem_flatMap.2 ⟨b, hb, hw⟩))
    exact ⟨hf _ (hmem (by simp)), hf _ (hmem (by simp))⟩
  cases shape with
  | lineEnds =>
    simp only [accepts, Bool.and_eq_true, List.all_eq_true, beq_iff_eq] at h
    intro c hc
    rw [h.2 c hc]
    decide
  | blank =>
    simp only [accepts] at h
    split at h
    · simp only [Bool.or_eq_true, beq_iff_eq] at h
      rw [List.forall_mem_singleton]
      rcases h with (rfl | rfl) | rfl <;> decide
    · cases h
  | words plain numbered =>
    simp only [accepts, Bool.or_eq_true, List.any_eq_true] at h
    rcases h with ⟨w, hw, hv⟩ | ⟨w, hw, hv⟩
    · exact Text.foldsIn_of_sameLetters (hs w (List.mem_append_left _ hw)) hv
    · exact foldsIn_of_isNumbered (hs w (List.mem_append_right _ hw)) hv
  | name lead typed =>
    simp only [accepts] at h
    split at h
    · rename_i rest hr
      unfold after at hr
      split at hr
      · rename_i hp
        cases hr
        obtain ⟨rest, rfl⟩ := List.isPrefixOf_iff_prefix.1 hp
        rw [List.drop_left] at h
        intro c hc
        rcases List.mem_append.1 hc with hc | hc
        · exact Text.foldsIn_of_ascii (hs lead List.mem_cons_self c hc)
        · exact foldsIn_of_isName h c hc
      · cases hr
    · cases h
  | number form =>
    have he : Text.Ascii form.exponents := hs _ (by simp [texts])
    have hx : Text.Ascii form.suffixes := hs _ (by simp [texts])
    have hb := bases hs
    simp only [accepts, Bool.or_eq_true] at h
    intro c hc
    rcases h with h | h
    · have hsign := isDecimal_signs h c hc
      simp only [isNumeralSign, Bool.or_eq_true, beq_iff_eq, List.contains_iff_mem] at hsign
      rcases hsign with ((((hd | rfl) | rfl) | rfl) | hs) | he'
      · exact foldsIn_of_isDigit hd
      · decide
      · decide
      · decide
      · exact Text.foldsIn_of_ascii (hx c hs)
      · exact foldsIn_of_isOneOf he he'
    · rcases isBased_chars h hc with rfl | ⟨b, hmem, hc | hc⟩
      · decide
      · exact foldsIn_of_isOneOf (hb b hmem).1 hc
      · exact foldsIn_of_isOneOf (hb b hmem).2 hc
  | baseMark form =>
    have hb := bases hs
    rcases isBaseMark_cases h with rfl | ⟨c, rfl, hc⟩
    · rw [List.forall_mem_singleton]
      decide
    · rw [List.forall_mem_cons, List.forall_mem_singleton]
      refine ⟨by decide, foldsIn_of_isOneOf (fun x hx => ?_) hc⟩
      obtain ⟨b, hmem, rfl⟩ := List.mem_map.1 hx
      exact (hb b hmem).1 _ List.mem_cons_self

end Shape

namespace Dialect

variable {d : Dialect} {v : Text} {k : Kind}

theorem grammar_written (d : Dialect) : ∀ r ∈ d.grammar, ∀ w ∈ r.shape.texts, Text.Ascii w := by
  rw [grammar_spelled]
  cases d <;> decide

/-- What the grammar reads is ASCII where all characters fit an octet. -/
theorem ascii_of_classify (h : d.classify v = some k) (hv : Text.Latin v) : Text.Ascii v := by
  obtain ⟨r, hr, -, ha⟩ := classify_rule h
  exact hv.ascii (Shape.foldsIn_of_accepts (grammar_written d r hr) ha)

end Dialect

open Text (Ascii Latin)

/-- Whether the characters of a token fit an octet, and are those of ASCII unless it is a text that is
read as it stands. -/
structure Token.Fits (t : Token) : Prop where
  inside : t.Inside
  latin : Latin t.value
  ascii : t.kind.isLiteral = false → Ascii t.value

variable {d : Dialect} {t : Token}

namespace Token

variable {k : Kind} {v : Text} {pos : Position}

theorem fits_of_ascii (hk : t.Inside) (hv : Ascii t.value) : t.Fits := ⟨hk, hv.latin, fun _ => hv⟩

theorem fits_mk (hk : k.isSentinel = false) (hv : Ascii v) : Fits ⟨k, v, pos⟩ := fits_of_ascii hk hv

theorem fits_of_literal (hk : t.kind.isLiteral = true) (hv : Latin t.value) : t.Fits := by
  refine ⟨?_, hv, fun h => absurd (hk.symm.trans h) (by decide)⟩
  unfold Inside
  cases h : t.kind <;> first | rfl | (rw [h] at hk; cases hk)

theorem Fits.ascii_of_names (h : t.Fits) (hn : t.Names) : Ascii t.value := by
  rcases hn with hk | hid | hv
  · exact h.ascii (by rw [hk]; rfl)
  · exact h.latin.ascii (Grammar.foldsIn_of_isName hid)
  · rw [hv]
    decide

end Token

namespace Glyph

def Fitting (input : List Glyph) : Prop := ∀ g ∈ input, g.char.toNat ≤ 0xFF

variable {input left : List Glyph}

theorem Fitting.suffix (h : Fitting input) (hs : left <:+ input) : Fitting left :=
  fun g hg => h g (hs.mem hg)

theorem Fitting.tail {g : Glyph} (h : Fitting (g :: input)) : Fitting input :=
  h.suffix (List.suffix_cons g input)

theorem Fitting.restOfLine (h : Fitting input) : Latin (restOfLine input).1 := fun c hc => by
  obtain ⟨g, hg, rfl⟩ := List.mem_map.1 hc
  exact h g (List.takeWhile_subset _ hg)

theorem fitting_ofLine {l : Line} (h : Latin l.text) : Fitting (ofLine l) := by
  intro g hg
  have spread_char (line : Nat) (text file : Text) (col : Int) (rest : Text) :
      ∀ g ∈ spread line text file col rest, g.char ∈ rest ∨ g.char = endMark := by
    induction rest generalizing col with
    | nil => simp [spread]
    | cons c rest ih =>
      rw [spread, List.forall_mem_cons]
      exact ⟨.inl List.mem_cons_self, fun g hg =>
        (ih (col + 1) g hg).imp_left fun hc => List.mem_cons_of_mem _ hc⟩
  rcases spread_char _ _ _ _ _ g hg with hc | hc
  · exact h _ (List.mem_reverse.1 ((List.dropWhile_suffix _).mem (List.mem_reverse.1 hc)))
  · rw [hc]
    decide

end Glyph

namespace Lexer

open Glyph (Fitting)

variable {closing : Nat} {input : List Glyph}

theorem snippet_fits {pos : Position} {code : Text} (hc : Ascii code) :
    ∀ t ∈ snippet d pos code, t.Fits := by
  intro t ht
  refine Token.fits_of_ascii (snippet_inside pos code t ht) ?_
  unfold snippet at ht
  split at ht
  · rename_i hs
    exact hc.subset (snippet?_spec hs t ht).2
  · cases ht

theorem quotedTail_latin (h : Fitting input) : Latin (quotedTail input).1 := by
  induction input with
  | nil => simp [quotedTail, Latin]
  | cons g rest ih =>
    simp only [quotedTail]
    split
    · simp [Latin]
    · split
      · simp [Latin]
      · exact List.forall_mem_cons.2 ⟨h g List.mem_cons_self, ih h.tail⟩

theorem dataPart_latin {part : Text} {g : Glyph} {rest : List Glyph} (hp : Latin part)
    (h : Fitting (g :: rest)) : Latin (dataPart part g rest).1 := by
  unfold dataPart
  split
  · exact List.forall_mem_cons.2 ⟨by decide, quotedTail_latin h.tail⟩
  · exact hp.append (List.forall_mem_singleton.2 (h g List.mem_cons_self))

theorem dataItems_fits {start : Position} {joined part : Text} (hj : Latin joined)
    (hp : Latin part) (h : Fitting input) :
    ∀ t ∈ (dataItems closing start joined part input).1, t.Fits := by
  have field {v : Text} {pos : Position} (hv : Latin v) : Token.Fits ⟨.dataField, v, pos⟩ :=
    Token.fits_of_literal rfl hv
  have comma {pos : Position} : Token.Fits ⟨.symbol, ",", pos⟩ := Token.fits_mk rfl (by decide)
  fun_induction dataItems closing start joined part input with
  | case1 => simp
  | case2 =>
    split
    · simp
    · exact List.forall_mem_singleton.2 (field hj)
  | case3 _ _ _ _ _ _ _ ih => exact ih hj (by simp [Latin]) h.tail
  | case4 _ joined part g rest _ _ _ _ _ _ ih =>
    exact ih hj (dataPart_latin hp h) (h.suffix (dataPart_suffix part g rest))
  | case5 _ joined part g rest _ _ _ _ _ _ _ hn ih =>
    refine ih (hj.append ((dataPart_latin hp h).subset (List.dropLast_subset _))) (by simp [Latin]) ?_
    exact h.suffix ((continued_suffix hn).trans (dataPart_suffix part g rest))
  | case6 _ joined part g rest =>
    refine List.forall_mem_cons.2 ⟨field ?_, List.forall_mem_singleton.2 comma⟩
    exact hj.append ((dataPart_latin hp h).subset (List.dropLast_subset _))
  | case7 _ joined part g rest _ _ _ _ _ _ _ _ _ _ _ _ ih =>
    intro t ht
    rcases List.mem_append.1 ht with ht | ht
    · refine List.forall_mem_cons.2 ⟨field ?_, List.forall_mem_singleton.2 comma⟩ t ht
      exact hj.append ((dataPart_latin hp h).subset (List.dropLast_subset _))
    · exact ih (by simp [Latin]) (by simp [Latin]) (h.suffix (dataPart_suffix part g rest)) t ht
  | case8 => exact List.forall_mem_singleton.2 (field (hj.append (dataPart_latin hp h)))

theorem blockLines_fits {opener : Token} {read : List Token × List Glyph} (ho : Ascii opener.value)
    (h : Fitting input) (hr : blockLines closing opener input = .ok read) :
    ∀ t ∈ read.1, t.Fits := by
  have line {v : Text} {pos : Position} (hv : Latin v) : Token.Fits ⟨.blockText, v, pos⟩ :=
    Token.fits_of_literal rfl hv
  have ended {pos : Position} : Token.Fits ⟨.blockEnd, opener.value, pos⟩ :=
    Token.fits_of_ascii rfl ho
  fun_induction blockLines closing opener input generalizing read with
  | case1 input text atEnd body hbody =>
    cases hr
    have hlatin : Latin body := by
      unfold Text.dropTail at hbody
      split at hbody
      · cases hbody
        exact h.restOfLine.subset fun c hc => List.mem_of_mem_take hc
      · cases hbody
    split
    · exact List.forall_mem_singleton.2 ended
    · exact List.forall_mem_cons.2 ⟨line hlatin, List.forall_mem_singleton.2 ended⟩
  | case2 => cases hr
  | case3 input _ _ _ next hn =>
    rename_i ih
    obtain ⟨more, hm, rfl⟩ := Outcome.map_eq_ok_iff.1 hr
    refine List.forall_mem_cons.2 ⟨line h.restOfLine, ih (h.suffix ?_) hm⟩
    exact (Glyph.nextLine_suffix hn).trans (Glyph.restOfLine_suffix input)

theorem reading_fits (h : Fitting input) : Reading d Token.Fits input := by
  intro closing last g rest t left read hsuf hs hc
  have hleft : Fitting left := h.suffix
    (((scan_suffix hs).trans (List.suffix_cons g rest)).trans hsuf)
  have hclass : d.classify t.value = some t.kind := scan_classified hs
  have hvalue : Ascii t.value := by
    obtain ⟨span, hspan, -, hv, -⟩ := scan_span hs
    refine Dialect.ascii_of_classify hclass fun c hc => ?_
    rw [hv] at hc
    obtain ⟨x, hx, rfl⟩ := List.mem_map.1 hc
    exact h x (hsuf.mem (hspan ▸ List.mem_append_left _ hx))
  have ht : t.Fits := Token.fits_of_ascii
    (Kind.not_isSentinel_of_isRead (Dialect.isRead_of_classify hclass)) hvalue
  have blocked (hb : block closing t left = .ok read) : ∀ u ∈ read.1, u.Fits := by
    unfold block at hb
    split at hb
    · cases hb
    · rename_i start hstart
      obtain ⟨more, hm, rfl⟩ := Outcome.map_eq_ok_iff.1 hb
      have hmore := blockLines_fits hvalue (hleft.suffix (blockStart_suffix hstart)) hm
      dsimp only
      split
      · exact List.forall_mem_cons.2 ⟨ht, hmore⟩
      · simp
  unfold complete at hc
  split at hc
  case h_1 hk =>
    split at hc
    · rename_i symbol name _ hsplit
      cases hc
      obtain ⟨rfl, hv⟩ := splitToggle_eq hsplit
      obtain ⟨k, hn⟩ := classify_name (hv ▸ hk ▸ hclass)
      have hname : Ascii name := hvalue.subset (by rw [hv]; exact List.subset_cons_self _ _)
      simp only [List.mem_cons, List.not_mem_nil, or_false, forall_eq_or_imp, forall_eq, hn,
        Option.getD_some]
      exact ⟨Token.fits_mk rfl (by decide), Token.fits_of_ascii
        (Kind.not_isSentinel_of_isRead (Dialect.isRead_of_classify hn)) hname⟩
    · cases hc
      exact List.forall_mem_singleton.2 ht
  case h_2 =>
    split at hc
    · exact blocked hc
    · cases hc
      refine List.forall_mem_cons.2 ⟨Token.fits_mk rfl (by decide),
        List.forall_mem_singleton.2 (Token.fits_of_literal rfl ?_)⟩
      exact Latin.append (by decide) hleft.restOfLine
  case h_3 =>
    split at hc
    · exact blocked hc
    · cases hc
      simp
  case h_4 =>
    cases hc
    simp
  case h_5 =>
    cases hc
    dsimp only
    split
    · exact List.forall_mem_singleton.2 ht
    · exact List.forall_mem_cons.2 ⟨ht,
        List.forall_mem_singleton.2 (Token.fits_of_literal rfl hleft.restOfLine)⟩
  case h_6 =>
    cases hc
    exact List.forall_mem_singleton.2
      (Token.fits_of_literal rfl (hvalue.latin.append (quotedTail_latin hleft)))
  case h_7 =>
    cases hc
    refine List.forall_mem_cons.2 ⟨ht, ?_⟩
    unfold dataFields
    dsimp only
    split
    · simp
    · exact dataItems_fits (by simp [Latin]) (by simp [Latin])
        (hleft.suffix (List.dropWhile_suffix _))
  case h_8 =>
    cases hc
    exact List.forall_mem_singleton.2 ht

end Lexer

/-- Whether the characters of a listing fit an octet. -/
def Listing.Fits (listing : Listing) : Prop := ∀ l ∈ listing, Latin l.text

instance (listing : Listing) : Decidable listing.Fits := inferInstanceAs (Decidable (∀ l ∈ listing, _))

theorem Lexer.lex_fits {listing : Listing} {tokens : List Token} (hl : listing.Fits)
    (h : lex d listing = .ok tokens) : Framed Token.Fits tokens := by
  refine lex_framed (fun _ => Token.fits_mk rfl (by decide)) (reading_fits fun g hg => ?_) h
  obtain ⟨l, hmem, hg⟩ := List.mem_flatMap.1 hg
  exact Glyph.fitting_ofLine (hl l (List.mem_of_mem_tail hmem)) g hg

theorem inherits_fits (d : Dialect) : Inherits d Token.Fits where
  inside _ h := h.inside
  code _ _ h := Lexer.snippet_fits h
  special v hv _ := by
    refine Token.fits_mk rfl ?_
    have hall : ∀ v ∈ [PrintAt.opening, PrintAt.closing], Ascii v := by decide
    exact hall v hv
  lineEnd _ := Token.fits_mk rfl (by decide)
  moved _ _ h := ⟨h.inside, h.latin, h.ascii⟩
  called t k h ht hk := by
    have hv : Ascii t.value := h.ascii (by rcases ht with ht | ht <;> rw [ht] <;> rfl)
    rcases hk with rfl | rfl <;> exact Token.fits_of_ascii rfl hv
  named t k pos h hn hk :=
    Token.fits_of_ascii (Kind.not_isSentinel_of_isNaming hk) (h.ascii_of_names hn).lower
  remark _ h := Token.fits_of_literal rfl h.latin
  joined s t hs ht _ hk := by
    refine Token.fits_of_literal (by rw [Token.withValue, hk]; rfl) ?_
    have htrim : Text.trimEnd Merge.isQuote s.value ⊆ s.value := fun c hc =>
      List.mem_reverse.1 ((List.dropWhile_suffix _).mem (List.mem_reverse.1 hc))
    exact (hs.latin.subset htrim).append (ht.latin.subset fun c hc => (List.dropWhile_suffix _).mem hc)

end ClassicBasic
