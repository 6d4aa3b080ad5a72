import ClassicBasic.Proofs.Reading
import Mathlib.Data.List.Chain

/-!
# Reading back a spaced line

A line of words, names, numbers, strings and symbols is written with blanks around its keywords. What
follows a keyword, a name or a number then starts with a blank or with a sign that neither of them
goes on with, so the reader stops where the token ends. Only a keyword of too many bytes is not found:
it is cut into other words.
-/

set_option autoImplicit false

namespace ClassicBasic

variable {d : Dialect} {c : Char} {rest v w z : Text}

/-- What starts a text without holding the character behind a part of it starts the part. -/
theorem Text.prefix_of_absent (hz : ∀ c ∈ z.head?, c ∉ w) (h : w <+: v ++ z) : w <+: v := by
  refine List.prefix_of_prefix_length_le h (List.prefix_append v z) (Nat.le_of_not_lt fun hlt => ?_)
  obtain ⟨more, hmore⟩ := h
  cases z with
  | nil =>
    have := congrArg List.length hmore
    simp only [List.length_append, List.length_nil] at this
    omega
  | cons c z =>
    refine hz c rfl ?_
    have hget : (w ++ more)[v.length]? = some c := by simp [hmore]
    rw [List.getElem?_append_left hlt] at hget
    exact List.mem_of_getElem? hget

namespace Dialect

def signs : Text :=
  [':', '>', '=', '<', '+', '*', '/', '^', '\\', '-', ',', '(', ')', ';', '@']

/-- What no keyword, name or number goes on with. -/
def stops : Text := [' ', '"', '_'] ++ signs

def numericSigils : Text := ['%', '!', '#']

theorem symbols_form (d : Dialect) : ∀ s ∈ d.symbols, ∃ c ∈ '#' :: signs, s = [c] := by
  have hall : ∀ s ∈ d.symbols, s ∈ ('#' :: signs).map fun c => [c] := by cases d <;> decide
  intro s hs
  obtain ⟨c, hc, rfl⟩ := List.mem_map.1 (hall s hs)
  exact ⟨c, hc, rfl⟩

def isWordChar (c : Char) : Bool := c.isUpper || c.isDigit || c == '$' || c == '?'

theorem reserved_form (d : Dialect) : ∀ w ∈ d.reservedWords,
    w.length ≤ Piece.keywordLimit ∧ (w.head?.any fun c => c.isUpper || c == '?') = true ∧
      w.all isWordChar = true ∧
      (w.length ≤ 3 → '$' ∉ w ∧ (w.length = 1 → w = ['?'])) ∧
      (w.take 3 = "REM" → w = "REM") := by
  rw [Dialect.reservedWords_spelled]
  cases d <;> decide +kernel

theorem upperChar_sign (h : c ∈ '$' :: '%' :: '!' :: '#' :: stops) : Text.upperChar c = c := by
  have hall : ('$' :: '%' :: '!' :: '#' :: stops).all (fun c => Text.upperChar c == c) = true := by
    decide
  exact beq_iff_eq.1 (List.all_eq_true.1 hall c h)

theorem mem_upper_sign (h : c ∈ '$' :: '%' :: '!' :: '#' :: stops) (hw : c ∈ w) :
    c ∈ Text.upper w := by
  rw [← upperChar_sign h]
  exact List.mem_map_of_mem hw

theorem isReserved_signless (h : d.isReserved w = true) (hc : c ∈ stops ++ numericSigils) :
    c ∉ w := by
  intro hw
  have hall := (reserved_form d _ (List.contains_iff_mem.1 h)).2.2.1
  have hsign : c ∈ '$' :: '%' :: '!' :: '#' :: stops := by
    rcases List.mem_append.1 hc with hc | hc
    · simp [hc]
    · simp only [numericSigils, List.mem_cons, List.not_mem_nil, or_false] at hc
      simp only [List.mem_cons]
      tauto
  have hnone : (stops ++ numericSigils).all (!isWordChar ·) = true := by decide
  have hword := List.all_eq_true.1 hnone c hc
  rw [List.all_eq_true.1 hall c (mem_upper_sign hsign hw)] at hword
  cases hword

theorem isReserved_short (h : d.isReserved w = true) (hlen : w.length ≤ 3) :
    '$' ∉ w ∧ (w.length = 1 → w = ['?']) := by
  obtain ⟨hdollar, hone⟩ := (reserved_form d _ (List.contains_iff_mem.1 h)).2.2.2.1
    (by rwa [Text.length_upper])
  refine ⟨fun hw => hdollar (mem_upper_sign (by simp) hw), fun hw => ?_⟩
  obtain ⟨x, rfl⟩ := List.length_eq_one_iff.1 hw
  have hx : Text.upperChar x = '?' := by simpa [Text.upper] using hone (by simp)
  rw [Text.upperChar_eq hx (by decide) (by decide) (by decide)]

def openless : Text := [' ', '\t', '"', '\'', '.', '&', '#'] ++ signs ++ "0123456789".toList

theorem isReserved_head (h : d.isReserved (c :: w) = true) : c ∉ openless := by
  intro hc
  have hall : openless.all (fun c => !(Text.upperChar c).isUpper && Text.upperChar c != '?') =
      true := by decide
  have hhead := (reserved_form d _ (List.contains_iff_mem.1 h)).2.1
  have hnone := List.all_eq_true.1 hall c hc
  simp only [Bool.and_eq_true, Bool.not_eq_true', bne_iff_ne] at hnone
  simp [Text.upper, hnone.1, hnone.2] at hhead

theorem openless_of_isDigit (h : c.isDigit = true) : c ∈ openless :=
  List.mem_append_right _ (Text.mem_digits h)

/-- Whether numerals alone can start like a numeral in texts of the shape. -/
def opensNoNumeral : Shape → Bool
  | .lineEnds | .blank | .baseMark _ => true
  | .words plain numbered =>
    (plain ++ numbered).all fun w => w.head?.any fun c => !(Text.foldChar c).isDigit
  | .name lead _ => !lead.head?.any Char.isDigit
  | .number _ => false

theorem numeral_only (d : Dialect) :
    ∀ r ∈ d.grammar, r.kind = .number ∨ opensNoNumeral r.shape = true := by
  rw [Dialect.grammar_spelled]
  cases d <;> decide

theorem number_rule (d : Dialect) : ⟨.number, .number d.numberForm⟩ ∈ d.grammar := by
  cases d <;> decide

theorem digit_signs (h : c.isDigit = true) : (Text.foldChar c).isDigit = true ∧ c ≠ '\r' ∧ c ≠ '.' ∧
    c ≠ ' ' ∧ c ≠ '\t' ∧ c ≠ '\x0c' ∧ c ≠ '&' ∧ Grammar.isLetter c = false := by
  have hall : "0123456789".toList.all (fun c => (Text.foldChar c).isDigit && c != '\r' && c != '.' &&
      c != ' ' && c != '\t' && c != '\x0c' && c != '&' && !Grammar.isLetter c) = true := by decide
  simpa [and_assoc] using List.all_eq_true.1 hall c (Text.mem_digits h)

theorem not_accepts_numeral {s : Shape} (hs : opensNoNumeral s = true) (hc : c.isDigit = true) :
    s.accepts (c :: rest) = false := by
  obtain ⟨hfold, hr, hpoint, hb, ht, hf, hamp, hletter⟩ := digit_signs hc
  have hword {w t : Text} (hw : (w.head?.any fun c => !(Text.foldChar c).isDigit) = true)
      (ht : ∀ x ∈ t.head?, x = c) : Text.sameLetters w t = false := by
    cases w with
    | nil => cases hw
    | cons x w =>
      cases t with
      | nil => rfl
      | cons y t =>
        obtain rfl := ht y rfl
        rw [Text.sameLetters, Bool.and_eq_false_iff, beq_eq_false_iff_ne]
        refine .inl fun he => ?_
        simp [he, hfold] at hw
  cases s with
  | lineEnds => simp [Shape.accepts, hr]
  | blank =>
    cases rest <;> simp [Shape.accepts, hb, ht, hf]
  | words plain numbered =>
    simp only [opensNoNumeral, List.all_append, Bool.and_eq_true, List.all_eq_true] at hs
    simp only [Shape.accepts, Bool.or_eq_false_iff, List.any_eq_false, Bool.not_eq_true]
    refine ⟨fun w hw => hword (hs.1 w hw) (by simp), fun w hw => ?_⟩
    unfold Grammar.isNumbered
    rw [hword (hs.2 w hw) (by simp), Bool.false_or]
    split
    · rw [hword (hs.2 w hw) (fun x hx => ?_), Bool.and_false]
      cases rest with
      | nil => cases hx
      | cons y rest => simpa [eq_comm] using hx
    · rfl
  | name lead typed =>
    simp only [opensNoNumeral, Bool.not_eq_true'] at hs
    cases lead with
    | nil => simp [Shape.accepts, Grammar.after, Grammar.isName, hletter]
    | cons x lead =>
      have hx : x ≠ c := by
        rintro rfl
        simp [hc] at hs
      simp [Shape.accepts, Grammar.after, hx]
  | number form => cases hs
  | baseMark form =>
    simp only [Shape.accepts, Grammar.isBaseMark]
    split <;> simp_all

/-- What decides whether a digit and what follows it make a number. -/
theorem isDecimal_digit {form : NumberForm} (hc : c.isDigit = true)
    (hrest : rest.dropWhile Char.isDigit = v) (hv : v.head? ≠ some '.') :
    Grammar.isDecimal form (c :: rest) = Grammar.exponentTail form v := by
  have hpoint := (digit_signs hc).2.2.1
  unfold Grammar.isDecimal
  split
  · contradiction
  · simp_all
  · rename_i hcons
    obtain ⟨rfl, rfl⟩ := List.cons.inj hcons
    rw [hc, Bool.true_and, hrest]
    split
    · simp at hv
    · rfl

theorem isDecimal_digits {form : NumberForm} (hv : v ≠ []) (hd : ∀ c ∈ v, c.isDigit = true) :
    Grammar.isDecimal form v = true := by
  obtain ⟨c, rest, rfl⟩ := List.exists_cons_of_ne_nil hv
  have hrest : rest.dropWhile Char.isDigit = [] :=
    List.dropWhile_eq_nil_iff.2 fun x hx => hd x (List.mem_cons_of_mem _ hx)
  rw [isDecimal_digit (hd c List.mem_cons_self) hrest (by simp)]
  rfl

theorem classify_digits (hv : v ≠ []) (hd : ∀ c ∈ v, c.isDigit = true) :
    d.classify v = some .number := by
  have haccepts : (Shape.number d.numberForm).accepts v = true := by
    rw [Shape.accepts, isDecimal_digits hv hd, Bool.true_or]
  have hsome : (d.classify v).isSome = true := by
    rw [classify, Option.isSome_map, List.find?_isSome]
    exact ⟨_, number_rule d, haccepts⟩
  obtain ⟨k, hk⟩ := Option.isSome_iff_exists.1 hsome
  obtain ⟨r, hr, hkind, ha⟩ := classify_rule hk
  obtain ⟨c, rest, rfl⟩ := List.exists_cons_of_ne_nil hv
  rcases numeral_only d r hr with hn | hn
  · rw [hk, ← hkind, hn]
  · rw [not_accepts_numeral hn (hd c List.mem_cons_self)] at ha
    cases ha

theorem stop_signs (d : Dialect) (h : c ∈ stops) : c ≠ '.' ∧ c.isDigit = false ∧
    c.isAlphanum = false ∧ Grammar.isTypeSigil c = false ∧
    Grammar.isOneOf d.numberForm.exponents c = false ∧ d.numberForm.suffixes.contains c = false := by
  have hall : stops.all (fun c => c != '.' && !c.isDigit && !c.isAlphanum &&
      !Grammar.isTypeSigil c && !Grammar.isOneOf d.numberForm.exponents c &&
      !d.numberForm.suffixes.contains c) = true := by cases d <;> decide
  simpa [and_assoc] using List.all_eq_true.1 hall c h

theorem not_number_stop (hv : v ≠ []) (hd : ∀ c ∈ v, c.isDigit = true) (hc : c ∈ stops) :
    d.classify (v ++ [c]) ≠ some .number := by
  intro h
  obtain ⟨x, rest, rfl⟩ := List.exists_cons_of_ne_nil hv
  have hamp := (digit_signs (hd x List.mem_cons_self)).2.2.2.2.2.2.1
  obtain ⟨hpoint, hcdigit, -, -, hexp, hsuffix⟩ := stop_signs d hc
  have hrest : (rest ++ [c]).dropWhile Char.isDigit = [c] := by
    rw [List.dropWhile_append_of_pos fun y hy => hd y (List.mem_cons_of_mem _ hy),
      List.dropWhile_cons_of_neg (by simp [hcdigit])]
  rcases accepts_number h with ha | ha
  · rw [List.cons_append, isDecimal_digit (hd x List.mem_cons_self) hrest (by simpa using hpoint)] at ha
    simp only [Grammar.exponentTail, Grammar.numberEnd, hexp, hsuffix, Bool.false_eq_true, if_false]
      at ha
  · rw [List.cons_append] at ha
    unfold Grammar.isBased at ha
    split at ha
    · simp_all
    · cases ha

end Dialect

namespace Piece

open Dialect

def Stopped (z : Text) : Prop := ∀ c ∈ z.head?, c ∈ stops

def Signed (z : Text) : Prop := ∀ c ∈ z.head?, c ∈ stops ++ numericSigils

theorem Stopped.signed (h : Stopped z) : Signed z := fun c hc => List.mem_append_left _ (h c hc)

theorem keywordLength_signed (hz : Signed z) (v : Text) :
    keywordLength d (v ++ z) = keywordLength d v := by
  refine (keywordLength_cut v z ?_).symm
  rcases Nat.eq_zero_or_pos (keywordLength d (v ++ z)) with h0 | hpos
  · omega
  · obtain ⟨hle, hk⟩ := keyword_of_pos hpos
    have := (Text.prefix_of_absent (fun c hc => isReserved_signless hk.2.2.2 (hz c hc))
      (List.take_prefix _ _)).length_le
    rwa [List.length_take_of_le hle] at this

theorem keywordLength_reserved (hv : v ≠ []) (h : d.isReserved v = true)
    (hb : Text.byteCount v ≤ keywordLimit) (hz : Stopped z) :
    keywordLength d (v ++ z) = v.length := by
  have hlen : v.length ≤ keywordLimit := by
    simpa using (reserved_form d _ (List.contains_iff_mem.1 h)).1
  rw [keywordLength_signed hz.signed]
  exact Nat.le_antisymm (keywordLength_le_length d v)
    (Keyword.length_le ⟨hv, hlen, hb, h⟩ (List.prefix_refl v))

theorem keywordLength_openless (hc : c ∈ openless) : keywordLength d (c :: rest) = 0 := by
  by_contra hne
  obtain ⟨hle, hk⟩ := keyword_of_pos (Nat.pos_of_ne_zero hne)
  obtain ⟨n, hn⟩ := Nat.exists_eq_succ_of_ne_zero hne
  rw [hn, List.take_succ_cons] at hk
  exact isReserved_head hk.2.2.2 hc

/-- A word in capitals does not start where a shorter text is followed by something else. -/
theorem startsWith_left (hz : ∀ c ∈ z.head?, Text.upperChar c ∉ w)
    (h : startsWith w (v ++ z) = true) : startsWith w v = true := by
  have hw := startsWith_iff.1 h
  have hpre : w <+: Text.upper v ++ Text.upper z := by
    rw [← hw, Text.upper, Text.upper, Text.upper, ← List.map_append]
    exact (List.take_prefix _ _).map _
  have hleft : w <+: Text.upper v := by
    refine Text.prefix_of_absent (fun c hc => ?_) hpre
    cases z with
    | nil => cases hc
    | cons x z =>
      cases hc
      exact hz x rfl
  rw [startsWith_iff, Text.upper, List.map_take]
  exact (List.prefix_iff_eq_take.1 hleft).symm

theorem numberLength_digits {read : Text} {best : Nat} (hz : Stopped z)
    (hr : ∀ c ∈ read, c.isDigit = true) (hv : ∀ c ∈ v, c.isDigit = true)
    (hend : v = [] → read ≠ [] ∧ best = read.length) :
    numberLength d read best (v ++ z) = read.length + v.length := by
  induction v generalizing read best with
  | nil =>
    obtain ⟨hne, rfl⟩ := hend rfl
    cases z with
    | nil => rfl
    | cons c z =>
      have hnumber := classify_digits (d := d) hne hr
      rw [List.nil_append, numberLength_cons]
      split
      · rfl
      · split
        · exact absurd ‹_› (not_number_stop hne hr (hz c rfl))
        · exact absurd ‹_› (not_mark_behind_number hnumber (.inl rfl))
        · exact absurd ‹_› (not_mark_behind_number hnumber (.inr rfl))
        · rfl
  | cons c v ih =>
    have hc := hv c List.mem_cons_self
    have hread : ∀ x ∈ read ++ [c], x.isDigit = true := by
      intro x hx
      rcases List.mem_append.1 hx with hx | hx
      · exact hr x hx
      · rwa [List.mem_singleton.1 hx]
    rw [List.cons_append, numberLength_cons, if_neg (by simp [hc]),
      classify_digits (by simp) hread]
    have := @ih (read ++ [c]) (read.length + 1) hread
      (fun x hx => hv x (List.mem_cons_of_mem _ hx)) (fun _ => ⟨by simp, by simp⟩)
    simp only [this, List.length_append, List.length_cons, List.length_nil]
    omega

def IsSigil (s : Text) : Prop := s = [] ∨ ∃ c, s = [c] ∧ Grammar.isTypeSigil c = true

theorem sigil_sign (h : Grammar.isTypeSigil c = true) : c ∈ '$' :: numericSigils := by
  simp only [Grammar.isTypeSigil, Bool.or_eq_true, beq_iff_eq] at h
  simp only [numericSigils, List.mem_cons]
  tauto

theorem isShortName_form (h : isShortName v = true) :
    ∃ c rest, v = c :: rest ∧ c.isAlpha = true ∧ rest.length ≤ 1 ∧ ∀ x ∈ v, x.isAlphanum = true := by
  match v, h with
  | [c], h =>
    have hc : c.isAlpha = true := h
    exact ⟨c, [], rfl, hc, by simp, by simp [Char.isAlphanum, hc]⟩
  | [c, e], h =>
    rw [isShortName, Bool.and_eq_true] at h
    exact ⟨c, [e], rfl, h.1, by simp, by simpa [Char.isAlphanum, h.1] using h.2⟩

theorem keywordLength_name {s : Text} (hlen : v.length ≤ 2) (halnum : ∀ c ∈ v, c.isAlphanum = true)
    (hv : d.isReserved v = false) (hs : IsSigil s) (hz : Stopped z) :
    keywordLength d (v ++ (s ++ z)) = 0 := by
  by_contra hne
  rw [← List.append_assoc, keywordLength_signed hz.signed] at hne
  obtain ⟨hle, hk⟩ := keyword_of_pos (Nat.pos_of_ne_zero hne)
  generalize keywordLength d (v ++ s) = n at hne hle hk
  have hpre : (v ++ s).take n <+: v := by
    refine Text.prefix_of_absent (fun c hc => ?_) (List.take_prefix _ _)
    rcases hs with rfl | ⟨x, rfl, hx⟩
    · cases hc
    · cases hc
      rcases List.mem_cons.1 (sigil_sign hx) with rfl | hx
      · refine (isReserved_short hk.2.2.2 ?_).1
        simp only [List.length_take, List.length_append, List.length_cons, List.length_nil]
        omega
      · exact isReserved_signless hk.2.2.2 (List.mem_append_right _ hx)
  have hn : ((v ++ s).take n).length = n := List.length_take_of_le hle
  have hmost := hpre.length_le
  rcases Nat.lt_or_ge n v.length with hlt | hge
  · -- a keyword of one letter
    have hone := (isReserved_short hk.2.2.2 (by omega)).2 (by omega)
    have hmem : '?' ∈ v := hpre.subset (by rw [hone]; exact List.mem_singleton_self _)
    exact absurd (halnum _ hmem) (by decide)
  · have hres := hk.2.2.2
    rw [hpre.eq_of_length (by omega), hv] at hres
    cases hres

theorem typedLength_sigil {s : Text} (hs : IsSigil s) (hz : Stopped z) :
    typedLength d (s ++ z) = s.length := by
  have hnone : typedLength d z = 0 := by
    cases z with
    | nil => rfl
    | cons c z =>
      obtain ⟨-, -, halnum, hsigil, -, -⟩ := stop_signs d (hz c rfl)
      rw [typedLength_cons, if_neg (by simp [halnum]), if_neg (by simp [hsigil])]
  rcases hs with rfl | ⟨c, rfl, hc⟩
  · exact hnone
  · rw [List.singleton_append, typedLength_cons, if_pos hc,
      if_neg (by simp [not_isAlphanum_of_isTypeSigil hc])]
    rfl

/-- What starts neither with a quote nor with an apostrophe, R or D starts with a word. -/
theorem startsWord_head (hq : c ≠ '"') (hs : c ≠ '\'') (hr : Text.upperChar c ≠ 'R')
    (hd : Text.upperChar c ≠ 'D') : StartsWord c rest := by
  have hnone {w : Text} {x : Char} (hx : Text.upperChar c ≠ x) :
      ¬startsWith (x :: w) (c :: rest) = true := by
    intro h
    have := startsWith_iff.1 h
    simp only [List.length_cons, List.take_succ_cons, Text.upper, List.map_cons] at this
    exact hx (List.cons.inj this).1
  exact ⟨hq, hs, hnone hr, hnone hd⟩

/-- What starts neither a remark nor DATA does not start one with a sign behind it. -/
theorem startsWord_left (hc : c ≠ '"' ∧ c ≠ '\'') (hr : ¬startsWith "REM" (c :: rest) = true)
    (hd : ¬startsWith "DATA" (c :: rest) = true) (hz : Signed z ∨ ∃ x more, z = x :: more ∧ x = '$') :
    StartsWord c (rest ++ z) := by
  have hall : ('$' :: (stops ++ numericSigils)).all (fun c =>
      (Text.ofStrings ["REM", "DATA"]).all fun w => !w.contains (Text.upperChar c)) = true := by
    decide
  have hwords {w : Text} (hw : w ∈ Text.ofStrings ["REM", "DATA"]) :
      ∀ x ∈ z.head?, Text.upperChar x ∉ w := by
    intro x hx
    have hmem : x ∈ '$' :: (stops ++ numericSigils) := by
      rcases hz with hz | ⟨y, more, rfl, rfl⟩
      · exact List.mem_cons_of_mem _ (hz x hx)
      · cases hx
        exact List.mem_cons_self
    simpa using List.all_eq_true.1 (List.all_eq_true.1 hall x hmem) w hw
  refine ⟨hc.1, hc.2, fun h => hr ?_, fun h => hd ?_⟩
  · exact startsWith_left (hwords (by simp [Text.ofStrings])) (by rwa [List.cons_append])
  · exact startsWith_left (hwords (by simp [Text.ofStrings])) (by rwa [List.cons_append])

def Taken (d : Dialect) (v z : Text) : Prop :=
  ∃ k c rest, v = c :: rest ∧ isGap c = false ∧
    step d c (rest ++ z) = { faces := [(k, v)], left := z }

theorem Taken.reading (h : Taken d v z) : ∃ k, reading d (v ++ z) = (k, v) :: reading d z := by
  obtain ⟨k, c, rest, rfl, hgap, hstep⟩ := h
  refine ⟨k, ?_⟩
  rw [List.cons_append, reading_step hgap, hstep]
  rfl

theorem taken_word {k : Kind} (hv : v = c :: rest) (hgap : isGap c = false)
    (hs : StartsWord c (rest ++ z)) (hw : word d c (rest ++ z) = (k, rest.length)) :
    Taken d v z := by
  subst hv
  refine ⟨k, c, rest, rfl, hgap, ?_⟩
  rw [step_word d hs, hw, List.take_left, List.drop_left]

theorem taken_string {body : Text} (hb : '"' ∉ body) : Taken d ('"' :: body ++ ['"']) z := by
  refine ⟨.string, '"', body ++ ['"'], rfl, by decide, ?_⟩
  rw [List.append_assoc, List.singleton_append, step_closed d hb]

theorem taken_sign (hc : c ∈ '#' :: signs) : Taken d [c] z := by
  have hall : ('#' :: signs).all (fun c => c != '"' && c != '\'' && !isGap c && !c.isAlphanum &&
      !(c.isDigit || c == '.' || c == '&') && openless.contains c && Text.upperChar c != 'R' &&
      Text.upperChar c != 'D') = true := by
    decide
  obtain ⟨hq, hs, hgap, halnum, hnum, hopen, hr, hd⟩ : _ ∧ _ ∧ _ ∧ _ ∧ _ ∧ _ ∧ _ ∧ _ := by
    simpa only [Bool.and_eq_true, bne_iff_ne, Bool.not_eq_true', and_assoc] using
      List.all_eq_true.1 hall c hc
  have hword : ∃ k, word d c ([] ++ z) = (k, 0) := by
    refine ⟨if c = ':' then .separator else .symbol, ?_⟩
    simp [word, keywordLength_openless (List.contains_iff_mem.1 hopen), hnum, halnum]
  obtain ⟨k, hk⟩ := hword
  exact taken_word rfl hgap (startsWord_head hq hs hr hd) hk

theorem taken_numeral (hv : v ≠ []) (hd : ∀ c ∈ v, c.isDigit = true) (hz : Stopped z) :
    Taken d v z := by
  obtain ⟨c, rest, rfl⟩ := List.exists_cons_of_ne_nil hv
  have hc := hd c List.mem_cons_self
  have hall : "0123456789".toList.all (fun c => c != '"' && c != '\'' && !isGap c &&
      Text.upperChar c != 'R' && Text.upperChar c != 'D') = true := by decide
  obtain ⟨hq, hs, hgap, hr, hdata⟩ : _ ∧ _ ∧ _ ∧ _ ∧ _ := by
    simpa only [Bool.and_eq_true, bne_iff_ne, Bool.not_eq_true', and_assoc] using
      List.all_eq_true.1 hall c (Text.mem_digits hc)
  have hnumber : numberLength d [] 0 (c :: rest ++ z) = [].length + (c :: rest).length :=
    numberLength_digits hz (by simp) hd (by simp)
  have hword : word d c (rest ++ z) = (.number, rest.length) := by
    rw [List.cons_append] at hnumber
    simp [word, keywordLength_openless (openless_of_isDigit hc), hc, hnumber]
  exact taken_word rfl hgap (startsWord_head hq hs hr hdata) hword

/-- A name of one or two letters and digits, and the sign of its type. -/
theorem taken_name {s : Text} (hv : isShortName v = true) (hr : d.isReserved v = false)
    (hs : IsSigil s) (hz : Stopped z) : Taken d (v ++ s) z := by
  have hletter {c : Char} (hc : c.isAlpha = true) : c ≠ '"' ∧ c ≠ '\'' ∧ isGap c = false ∧
      c.isDigit = false ∧ c ≠ '.' ∧ c ≠ '&' ∧ c.isAlphanum = true := by
    refine ⟨?_, ?_, ?_, ?_, ?_, ?_, by simp [Char.isAlphanum, hc]⟩
    any_goals rintro rfl; exact absurd hc (by decide)
    · rw [Bool.eq_false_iff]
      intro hg
      rcases (by simpa [isGap] using hg : c = ' ' ∨ c = '\t') with rfl | rfl <;>
        exact absurd hc (by decide)
    · rw [Bool.eq_false_iff]
      intro hd
      have hall : "0123456789".toList.all (!·.isAlpha) = true := by decide
      have := List.all_eq_true.1 hall c (Text.mem_digits hd)
      rw [hc] at this
      cases this
  obtain ⟨c, rest, rfl, hc, hlen, hall⟩ := isShortName_form hv
  obtain ⟨hq, hsign, hgap, hdigit, hpoint, hamp, halnum⟩ := hletter hc
  have hkey : keywordLength d (c :: rest ++ (s ++ z)) = 0 :=
    keywordLength_name (by simpa using hlen) hall hr hs hz
  have htyped : typedLength d (rest ++ (s ++ z)) = rest.length + s.length := by
    rcases Nat.le_one_iff_eq_zero_or_eq_one.1 hlen with h0 | h1
    · rw [List.length_eq_zero_iff.1 h0]
      simpa using typedLength_sigil hs hz
    · obtain ⟨e, rfl⟩ := List.length_eq_one_iff.1 h1
      have he := hall e (by simp)
      have hone : d.isReserved [e] = false := by
        refine Bool.eq_false_iff.2 fun h => ?_
        have := (isReserved_short h (by simp)).2 rfl
        rw [(List.cons.inj this).1] at he
        exact absurd he (by decide)
      have := keywordLength_name (v := [e]) (by simp) (by simpa using he) hone hs hz
      rw [List.singleton_append] at this ⊢
      rw [typedLength_cons, if_pos ⟨he, this⟩, typedLength_sigil hs hz]
      simp [Nat.add_comm]
  have hword : word d c (rest ++ s ++ z) = (.identifier, (rest ++ s).length) := by
    rw [List.append_assoc]
    rw [List.cons_append] at hkey
    simp [word, hkey, hdigit, hpoint, hamp, halnum, htyped]
  have hsigned : Signed (s ++ z) ∨ ∃ x more, s ++ z = x :: more ∧ x = '$' := by
    rcases hs with rfl | ⟨x, rfl, hx⟩
    · exact .inl hz.signed
    · rcases List.mem_cons.1 (sigil_sign hx) with rfl | hx
      · exact .inr ⟨_, z, rfl, rfl⟩
      · exact .inl fun y hy => List.mem_append_right _ (Option.some.inj hy ▸ hx)
  have hshort {w : Text} (hw : 2 < w.length) : ¬startsWith w (c :: rest) = true := fun h => by
    have := length_of_startsWith h
    rw [List.length_cons] at this
    omega
  have hstart : StartsWord c (rest ++ s ++ z) := by
    rw [List.append_assoc]
    exact startsWord_left ⟨hq, hsign⟩ (hshort (by decide)) (hshort (by decide)) hsigned
  exact taken_word List.cons_append hgap hstart hword

theorem isReserved_ne_nil (h : d.isReserved v = true) : v ≠ [] := by
  rintro rfl
  simpa [Text.upper] using (reserved_form d _ (List.contains_iff_mem.1 h)).2.1

theorem startsWord_reserved (h : d.isReserved (c :: rest) = true)
    (hr : Text.upper (c :: rest) ≠ "REM") (hd : Text.upper (c :: rest) ≠ "DATA") (hz : Stopped z) :
    isGap c = false ∧ StartsWord c (rest ++ z) := by
  have hc : c ∉ [' ', '\t', '"', '\''] := fun hc => isReserved_head h
    (List.mem_append_left _ (List.mem_append_left _ (List.mem_append_left ['.', '&', '#'] hc)))
  simp only [List.mem_cons, List.not_mem_nil, or_false, not_or] at hc
  have hmem := List.contains_iff_mem.1 h
  have htake (n : Nat) : (Text.upper (c :: rest)).take n = Text.upper ((c :: rest).take n) :=
    List.map_take.symm
  refine ⟨by simp [isGap, hc.1, hc.2.1], startsWord_left ⟨hc.2.2.1, hc.2.2.2⟩ (fun hs => hr ?_)
    (fun hs => hd ?_) (.inl hz.signed)⟩
  · refine (reserved_form d _ hmem).2.2.2.2 ?_
    rw [htake]
    exact startsWith_iff.1 hs
  · have hfour : (Text.upper (c :: rest)).take 4 = "DATA" := by
      rw [htake]
      exact startsWith_iff.1 hs
    rw [← hfour, List.take_of_length_le (Nat.le_of_eq ((reserved_plain d _ hmem).2 hfour))]

theorem taken_reserved (h : d.isReserved v = true) (hr : Text.upper v ≠ "REM")
    (hd : Text.upper v ≠ "DATA") (hb : Text.byteCount v ≤ keywordLimit) (hz : Stopped z) :
    Taken d v z := by
  obtain ⟨c, rest, rfl⟩ := List.exists_cons_of_ne_nil (isReserved_ne_nil h)
  obtain ⟨hgap, hstart⟩ := startsWord_reserved h hr hd hz
  have hkey := keywordLength_reserved (isReserved_ne_nil h) h hb hz
  rw [List.cons_append] at hkey
  refine taken_word (k := (d.classify (c :: rest)).getD .instruction) rfl hgap hstart ?_
  have htake : (c :: (rest ++ z)).take (rest.length + 1) = c :: rest := by
    rw [List.take_succ_cons, List.take_left]
  simp [word, hkey, htake]

theorem typedLength_chars (d : Dialect) (t : Text) :
    ∀ x ∈ t.take (typedLength d t), x.isAlphanum = true ∨ Grammar.isTypeSigil x = true := by
  induction t with
  | nil => simp
  | cons c rest ih =>
    rw [typedLength_cons]
    split
    · rename_i hc
      rw [List.take_succ_cons]
      exact List.forall_mem_cons.2 ⟨.inl hc.1, ih⟩
    · split
      · rename_i hc
        simpa using .inr hc
      · simp

theorem utf8Size_word (h : c.isAlphanum = true ∨ Grammar.isTypeSigil c = true) : c.utf8Size = 1 := by
  have hlt : c.toNat < 0x80 := by
    rcases h with h | h
    · exact Text.toNat_lt_of_isAlphanum h
    · simp only [Grammar.isTypeSigil, Bool.or_eq_true, beq_iff_eq] at h
      rcases h with ((rfl | rfl) | rfl) | rfl <;> decide
  rw [Char.utf8Size_eq_one_iff]
  exact UInt32.le_iff_toNat_le.2 (Nat.le_of_lt_succ hlt)

theorem byteCount_singles (h : ∀ x ∈ v, x.utf8Size = 1) : Text.byteCount v = v.length := by
  induction v with
  | nil => rfl
  | cons x v ih =>
    rw [List.forall_mem_cons] at h
    rw [Text.byteCount, List.foldr_cons, ← Text.byteCount, ih h.2, h.1, List.length_cons, Nat.add_comm]

theorem reading_oversized (h : d.isReserved v = true) (hr : Text.upper v ≠ "REM")
    (hd : Text.upper v ≠ "DATA") (hb : keywordLimit < Text.byteCount v) (hz : Stopped z) :
    ∃ f more, reading d (v ++ z) = f :: more ∧ f.2 ≠ v := by
  obtain ⟨c, rest, rfl⟩ := List.exists_cons_of_ne_nil (isReserved_ne_nil h)
  obtain ⟨hgap, hstart⟩ := startsWord_reserved h hr hd hz
  rw [List.cons_append, reading_step hgap, step_word d hstart]
  refine ⟨_, _, rfl, fun he => ?_⟩
  have hlen : (c :: rest).length ≤ keywordLimit := by
    simpa using (reserved_form d _ (List.contains_iff_mem.1 h)).1
  have hnumeral : (c.isDigit || c == '.' || c == '&') = false := by
    refine Bool.eq_false_iff.2 fun hn => isReserved_head h ?_
    simp only [Bool.or_eq_true, beq_iff_eq] at hn
    rcases hn with (hn | rfl) | rfl
    · exact openless_of_isDigit hn
    · decide
    · decide
  simp only [word, hnumeral, Bool.false_eq_true, if_false, Nat.lt_irrefl] at he
  split at he
  · rename_i hkey
    have hk := (keyword_of_pos hkey).2
    obtain ⟨n, hn⟩ := Nat.exists_eq_succ_of_ne_zero (Nat.ne_of_gt hkey)
    rw [hn] at he hk
    rw [List.take_succ_cons] at hk
    rw [Nat.succ_sub_one] at he
    rw [he] at hk
    exact absurd hk.2.2.1 (Nat.not_le_of_gt hb)
  · split at he
    · rename_i halnum
      have hsize : ∀ x ∈ c :: rest, x.utf8Size = 1 := by
        have hrest := (List.cons.inj he).2
        refine List.forall_mem_cons.2 ⟨utf8Size_word (.inl halnum), fun x hx => ?_⟩
        rw [← hrest] at hx
        exact utf8Size_word (typedLength_chars d _ x hx)
      rw [byteCount_singles hsize] at hb
      exact absurd hlen (Nat.not_le_of_gt hb)
    · have hrest : rest = [] := by simpa [eq_comm] using (List.cons.inj he).2
      subst hrest
      have := c.utf8Size_le_four
      simp only [Text.byteCount, List.foldr_cons, List.foldr_nil, keywordLimit] at hb
      omega

end Piece

namespace Render

open Dialect

def isNumeral (v : Text) : Bool := !v.isEmpty && v.all Char.isDigit

/-- Whether `v` is a short name that is no keyword, maybe with the sign of its type. -/
def isVariable (d : Dialect) (v : Text) : Bool :=
  isBare v || (isBare v.dropLast && v.getLast?.any Grammar.isTypeSigil)
where
  isBare (name : Text) : Bool := isShortName name && !d.isReserved name

/-- What a spaced line is made of. -/
inductive Plain (d : Dialect) (t : Token) : Prop
  | keyword (hk : t.kind.isLiteral = false) (h : d.isReserved t.value = true)
      (hr : Text.upper t.value ≠ "REM") (hd : Text.upper t.value ≠ "DATA")
  | symbol (h : t.value ∈ d.symbols)
  | separator (h : t.value = ":")
  | string {body : Text} (h : t.value = '"' :: body ++ ['"']) (hb : '"' ∉ body)
  | number (h : isNumeral t.value = true)
  | name (h : isVariable d t.value = true)

def isWordy (d : Dialect) (t : Token) : Bool := isNumeral t.value || isVariable d t.value

/-- Neighbours that do not read as one word when no blank is between them. -/
def Apart (d : Dialect) (t u : Token) : Prop :=
  isWordy d t = true → isWordy d u = false ∧ u.value ≠ "#"

instance (d : Dialect) : DecidableRel (Apart d) := fun t u =>
  inferInstanceAs (Decidable (isWordy d t = true → isWordy d u = false ∧ u.value ≠ "#"))

/-- Neighbours with a blank between them. -/
def Parted (d : Dialect) (t u : Token) : Prop :=
  isKeyword d t = true ∧ d.isTight u.value = false ∨
    isKeyword d u = true ∧ d.isTight t.value = false

/-- The tokens of a line one after the other, with blanks between them where they must be. -/
inductive Woven (d : Dialect) : List Token → Text → Prop
  | nil : Woven d [] []
  | blank {tokens : List Token} {text : Text} (h : Woven d tokens text) :
      Woven d tokens (' ' :: text)
  | token {t : Token} {tokens : List Token} {text : Text} (h : Woven d tokens text)
      (hgap : ∀ u ∈ tokens.head?, Parted d t u → StartsBlank text) :
      Woven d (t :: tokens) (t.value ++ text)

variable {t u : Token} {tokens : List Token} {text : Text}

theorem isReserved_symbol (h : ∃ c ∈ '#' :: signs, v = [c]) : d.isReserved v = false := by
  obtain ⟨c, hc, rfl⟩ := h
  refine Bool.eq_false_iff.2 fun hr => isReserved_head hr ?_
  have hall : ('#' :: signs).all openless.contains = true := by decide
  exact List.contains_iff_mem.1 (List.all_eq_true.1 hall c hc)

theorem isNumeral_iff : isNumeral v = true ↔ v ≠ [] ∧ ∀ c ∈ v, c.isDigit = true := by
  simp [isNumeral]

theorem isVariable_form (h : isVariable d v = true) : ∃ name sigil, v = name ++ sigil ∧
    isShortName name = true ∧ d.isReserved name = false ∧ Piece.IsSigil sigil := by
  simp only [isVariable, isVariable.isBare, Bool.or_eq_true, Bool.and_eq_true,
    Bool.not_eq_true'] at h
  rcases h with ⟨hn, hr⟩ | ⟨⟨hn, hr⟩, hlast⟩
  · exact ⟨v, [], (List.append_nil v).symm, hn, hr, .inl rfl⟩
  · obtain ⟨c, hc, hsigil⟩ : ∃ c, v.getLast? = some c ∧ Grammar.isTypeSigil c = true := by
      simpa [Option.any_eq_true] using hlast
    exact ⟨v.dropLast, [c], (List.dropLast_append_getLast? c hc).symm, hn, hr, .inr ⟨c, rfl, hsigil⟩⟩

theorem isReserved_variable (h : isVariable d v = true) : d.isReserved v = false := by
  obtain ⟨name, sigil, rfl, hn, hr, rfl | ⟨x, rfl, hx⟩⟩ := isVariable_form h
  · rwa [List.append_nil]
  · refine Bool.eq_false_iff.2 fun hv => ?_
    have hmem : x ∈ name ++ [x] := List.mem_append_right _ (List.mem_singleton_self x)
    obtain ⟨c, rest, rfl, -, hlen, -⟩ := Piece.isShortName_form hn
    rcases List.mem_cons.1 (Piece.sigil_sign hx) with rfl | hx
    · refine (isReserved_short hv ?_).1 hmem
      simp only [List.length_append, List.length_cons, List.length_nil]
      omega
    · exact isReserved_signless hv (List.mem_append_right _ hx) hmem

theorem Plain.reserved (h : Plain d t) (hr : d.isReserved t.value = true) :
    isKeyword d t = true ∧ Text.upper t.value ≠ "REM" ∧ Text.upper t.value ≠ "DATA" := by
  cases h with
  | keyword hk _ hrem hdata => exact ⟨by simp [isKeyword, hk, hr], hrem, hdata⟩
  | symbol h => rw [isReserved_symbol (symbols_form d _ h)] at hr; cases hr
  | separator h => rw [isReserved_symbol ⟨':', by decide, h⟩] at hr; cases hr
  | string h hb =>
    rw [h] at hr
    exact absurd (by decide) (isReserved_head hr)
  | number h =>
    obtain ⟨hne, hd⟩ := isNumeral_iff.1 h
    obtain ⟨c, rest, hv⟩ := List.exists_cons_of_ne_nil hne
    rw [hv] at hr hd
    exact absurd (openless_of_isDigit (hd c List.mem_cons_self)) (isReserved_head hr)
  | name h => rw [isReserved_variable h] at hr; cases hr

theorem isTight_form (h : d.isTight v = true) : ∃ c ∈ '_' :: signs, v = [c] := by
  simp only [isTight, Bool.or_eq_true, Bool.and_eq_true, beq_iff_eq, bne_iff_ne] at h
  rcases h with (rfl | rfl) | ⟨hs, hne⟩
  · exact ⟨':', by decide, rfl⟩
  · exact ⟨'_', by decide, rfl⟩
  · obtain ⟨c, hc, rfl⟩ := symbols_form d v (List.contains_iff_mem.1 hs)
    rcases List.mem_cons.1 hc with rfl | hc
    · exact absurd rfl hne
    · exact ⟨c, List.mem_cons_of_mem _ hc, rfl⟩

theorem isTight_wordy (h : isWordy d t = true) : d.isTight t.value = false := by
  refine Bool.eq_false_iff.2 fun ht => ?_
  obtain ⟨c, hc, hv⟩ := isTight_form ht
  have hall : ('_' :: signs).all (!·.isAlphanum) = true := by decide
  have hnone : c.isAlphanum = false := by simpa using List.all_eq_true.1 hall c hc
  rw [isWordy, Bool.or_eq_true] at h
  rcases h with h | h
  · have hdigit := (isNumeral_iff.1 h).2
    rw [hv] at hdigit
    simp [Char.isAlphanum, hdigit c List.mem_cons_self] at hnone
  · obtain ⟨name, sigil, hname, hn, -⟩ := isVariable_form h
    obtain ⟨x, rest, rfl, -, -, hall⟩ := Piece.isShortName_form hn
    rw [hv] at hname
    rw [(List.cons.inj hname).1, hall x List.mem_cons_self] at hnone
    cases hnone

theorem Plain.ends (h : Plain d t) : ∃ front c, t.value = front ++ [c] ∧ c ≠ ' ' := by
  have hends {v : Text} (hv : v ≠ []) (hb : ' ' ∉ v) : ∃ front c, v = front ++ [c] ∧ c ≠ ' ' := by
    refine ⟨v.dropLast, v.getLast hv, (List.dropLast_append_getLast hv).symm, fun he => hb ?_⟩
    rw [← he]
    exact List.getLast_mem hv
  cases h with
  | keyword _ h => exact hends (Piece.isReserved_ne_nil h) (isReserved_blankless h)
  | symbol h =>
    obtain ⟨c, hc, hv⟩ := symbols_form d _ h
    exact ⟨[], c, hv, by rintro rfl; exact absurd hc (by decide)⟩
  | separator h => exact ⟨[], ':', h, by decide⟩
  | string h => exact ⟨_, '"', h, by decide⟩
  | number h =>
    obtain ⟨hne, hd⟩ := isNumeral_iff.1 h
    exact hends hne fun hb => absurd (hd _ hb) (by decide)
  | name h =>
    obtain ⟨name, sigil, hv, hn, -, rfl | ⟨x, rfl, hx⟩⟩ := isVariable_form h
    · obtain ⟨c, rest, rfl, -, -, hall⟩ := Piece.isShortName_form hn
      rw [List.append_nil] at hv
      rw [hv]
      exact hends (by simp) fun hb => absurd (hall _ hb) (by decide)
    · exact ⟨name, x, hv, by rintro rfl; exact absurd hx (by decide)⟩

theorem Woven.blanks {gap : Text} (hgap : ∀ c ∈ gap, c = ' ') (h : Woven d tokens text) :
    Woven d tokens (gap ++ text) := by
  induction gap with
  | nil => exact h
  | cons c gap ih =>
    rw [hgap c List.mem_cons_self]
    exact (ih fun x hx => hgap x (List.mem_cons_of_mem _ hx)).blank

theorem startsBlank_append {gap : Text} (hgap : gap = " ") (text : Text) :
    StartsBlank (gap ++ text) := .inr ⟨text, by rw [hgap]; rfl⟩

/-- A line is woven of its tokens. Where a keyword follows a token that it cannot touch, the written
text ends in a blank or the line goes on with one. -/
theorem lineText_woven (hends : ∀ t ∈ tokens, t.kind ≠ .newline ∧
    ∃ front c, t.value = front ++ [c] ∧ c ≠ ' ') (last : Option Token) (written : Text) :
    ∃ text, lineText d " " last written tokens = written ++ text ∧ Woven d tokens text ∧
      ∀ before ∈ last, ∀ u ∈ tokens.head?, isKeyword d u = true → d.isTight before.value = false →
        written ≠ [] → written.getLast? = some ' ' ∨ StartsBlank text := by
  induction tokens generalizing last written with
  | nil => exact ⟨[], (List.append_nil _).symm, .nil, by simp⟩
  | cons t rest ih =>
    obtain ⟨hkind, front, c, hvalue, hc⟩ := hends t List.mem_cons_self
    have hblank {p : Prop} [Decidable p] : ∀ c ∈ (if p then " " else [] : Text), c = ' ' := by
      split <;> simp
    obtain ⟨gap, hgap, hgapeq, happart⟩ : ∃ gap : Text, (∀ c ∈ gap, c = ' ') ∧ (gap = [] ∨ gap = " ") ∧
        (if needsSpace last t written then written ++ " " else written) = written ++ gap := by
      refine ⟨if needsSpace last t written then " " else [], hblank, ?_, ?_⟩ <;> split <;> simp
    have hbefore : ∀ c ∈ spaceBefore d " " last t (written ++ gap), c = ' ' := by
      unfold spaceBefore
      split
      · simp
      · exact hblank
    have hbehind : ∀ c ∈ spaceBehind d " " t rest.head?, c = ' ' := by
      unfold spaceBehind
      split <;> exact hblank
    rw [lineText, if_neg hkind]
    dsimp only
    rw [happart]
    obtain ⟨text, htext, hwoven, hnext⟩ := ih (fun t ht => hends t (List.mem_cons_of_mem _ ht))
      (some t) (written ++ gap ++ spaceBefore d " " last t (written ++ gap) ++ t.value ++
        spaceBehind d " " t rest.head?)
    refine ⟨gap ++ (spaceBefore d " " last t (written ++ gap) ++ (t.value ++
      (spaceBehind d " " t rest.head? ++ text))), by rw [htext]; simp only [List.append_assoc],
      ((Woven.token (hwoven.blanks hbehind) ?_).blanks hbefore).blanks hgap, ?_⟩
    · rintro u hu (⟨hk, ht⟩ | ⟨hk, ht⟩)
      · refine startsBlank_append ?_ text
        rw [hu, spaceBehind]
        simp [hk, ht]
      · rcases hnext t rfl u hu hk ht (by simp [hvalue]) with hlast | hblank
        · cases hsp : spaceBehind d " " t rest.head? with
          | nil =>
            rw [hsp, List.append_nil, hvalue, ← List.append_assoc, List.getLast?_concat] at hlast
            exact absurd (Option.some.inj hlast) hc
          | cons x more =>
            rw [hbehind x (by rw [hsp]; exact List.mem_cons_self)]
            exact .inr ⟨_, rfl⟩
        · cases hsp : spaceBehind d " " t rest.head? with
          | nil => exact hblank
          | cons x more =>
            rw [hbehind x (by rw [hsp]; exact List.mem_cons_self)]
            exact .inr ⟨_, rfl⟩
    · rintro before rfl u hu hk ht hw
      obtain rfl : t = u := by simpa using hu
      rcases hgapeq with rfl | rfl
      · by_cases hl : written.getLast? = some ' '
        · exact .inl hl
        · refine .inr ?_
          rw [List.nil_append, List.append_nil]
          refine startsBlank_append ?_ _
          simp [spaceBefore, hk, ht, hw, hl]
      · exact .inr (startsBlank_append rfl _)

theorem StartsBlank.stopped (h : StartsBlank text) : Piece.Stopped text := by
  rcases h with rfl | ⟨more, rfl⟩
  · rintro c ⟨⟩
  · rintro c ⟨⟩
    decide

theorem stop_of_unparted (ht : isKeyword d t = true ∨ isWordy d t = true) (hu : Plain d u)
    (ha : Apart d t u) (hp : ¬Parted d t u) : ∃ c ∈ stops, ∃ more, u.value = c :: more := by
  have hsign {c : Char} (hc : c ∈ '_' :: signs) : c ∈ stops := by
    rcases List.mem_cons.1 hc with rfl | hc
    · decide
    · exact List.mem_append_right _ hc
  rcases ht with ht | ht
  · have htight : d.isTight u.value = true := by
      by_contra hn
      exact hp (.inl ⟨ht, Bool.eq_false_iff.2 hn⟩)
    obtain ⟨c, hc, hv⟩ := isTight_form htight
    exact ⟨c, hsign hc, [], hv⟩
  · cases hu with
    | keyword hk h =>
      exact absurd (.inr ⟨by simp [isKeyword, hk, h], isTight_wordy ht⟩) hp
    | symbol h =>
      obtain ⟨c, hc, hv⟩ := symbols_form d _ h
      rcases List.mem_cons.1 hc with rfl | hc
      · exact absurd hv (ha ht).2
      · exact ⟨c, hsign (List.mem_cons_of_mem _ hc), [], hv⟩
    | separator h => exact ⟨':', by decide, [], h⟩
    | string h => exact ⟨'"', by decide, _, h⟩
    | number h =>
      have hnone := (ha ht).1
      rw [isWordy, h, Bool.true_or] at hnone
      cases hnone
    | name h =>
      have hnone := (ha ht).1
      rw [isWordy, h, Bool.or_true] at hnone
      cases hnone

theorem Woven.stopped (h : Woven d tokens text) (ht : isKeyword d t = true ∨ isWordy d t = true)
    (hplain : ∀ u ∈ tokens, Plain d u) (hapart : ∀ u ∈ tokens.head?, Apart d t u)
    (hgap : ∀ u ∈ tokens.head?, Parted d t u → StartsBlank text) : Piece.Stopped text := by
  cases h with
  | nil => rintro c ⟨⟩
  | blank => exact StartsBlank.stopped (.inr ⟨_, rfl⟩)
  | @token u rest more h _ =>
    by_cases hp : Parted d t u
    · exact (hgap u rfl hp).stopped
    · obtain ⟨c, hc, left, hv⟩ := stop_of_unparted ht (hplain u List.mem_cons_self) (hapart u rfl) hp
      rw [hv]
      rintro x ⟨⟩
      exact hc

/-- Every token but a keyword that is too long is read as one piece. -/
theorem Plain.taken (h : Plain d t)
    (hfits : d.isReserved t.value = true → Text.byteCount t.value ≤ Piece.keywordLimit)
    (hz : isKeyword d t = true ∨ isWordy d t = true → Piece.Stopped z) : Piece.Taken d t.value z := by
  cases h with
  | keyword hk h hr hd =>
    exact Piece.taken_reserved h hr hd (hfits h) (hz (.inl (by simp [isKeyword, hk, h])))
  | symbol h =>
    obtain ⟨c, hc, hv⟩ := symbols_form d _ h
    rw [hv]
    exact Piece.taken_sign hc
  | separator h =>
    rw [h]
    exact Piece.taken_sign (by decide)
  | string h hb =>
    rw [h]
    exact Piece.taken_string hb
  | number h =>
    obtain ⟨hne, hd⟩ := isNumeral_iff.1 h
    exact Piece.taken_numeral hne hd (hz (.inr (by rw [isWordy, h, Bool.true_or])))
  | name h =>
    have hstop := hz (.inr (by rw [isWordy, h, Bool.or_true]))
    obtain ⟨name, sigil, hv, hn, hr, hs⟩ := isVariable_form h
    rw [hv]
    exact Piece.taken_name hn hr hs hstop

/-- The texts that a woven line is read as are those of its tokens if and only if no keyword is too
long. -/
theorem Woven.reading_iff (h : Woven d tokens text) (hplain : ∀ t ∈ tokens, Plain d t)
    (hapart : tokens.IsChain (Apart d)) :
    (Piece.reading d text).map Prod.snd = tokens.map Token.value ↔
      ∀ t ∈ tokens, d.isReserved t.value = true →
        Text.byteCount t.value ≤ Piece.keywordLimit := by
  induction h with
  | nil => simp
  | blank _ ih =>
    rw [Piece.reading_gap (by decide)]
    exact ih hplain hapart
  | @token t rest text h hgap ih =>
    have ht := hplain t List.mem_cons_self
    have hrest := fun u hu => hplain u (List.mem_cons_of_mem _ hu)
    have hstop (hw : isKeyword d t = true ∨ isWordy d t = true) : Piece.Stopped text :=
      h.stopped hw hrest (fun u hu => hapart.rel_head? hu) hgap
    rw [List.forall_mem_cons, ← ih hrest hapart.tail]
    by_cases hfits : d.isReserved t.value = true → Text.byteCount t.value ≤ Piece.keywordLimit
    · obtain ⟨k, hk⟩ := (ht.taken hfits hstop).reading
      rw [hk, List.map_cons, List.map_cons, List.cons_inj_right]
      exact (and_iff_right hfits).symm
    · obtain ⟨hr, hb⟩ := Classical.not_imp.1 hfits
      obtain ⟨hkey, hrem, hdata⟩ := ht.reserved hr
      obtain ⟨f, more, hread, hne⟩ :=
        Piece.reading_oversized hr hrem hdata (Nat.lt_of_not_le hb) (hstop (.inl hkey))
      rw [hread, List.map_cons, List.map_cons]
      exact iff_of_false (fun he => hne (List.cons.inj he).1) (fun hall => hfits hall.1)

/-- A spaced line is read back token by token if and only if its keywords are short enough. -/
theorem scan_spaced_iff (hkind : ∀ t ∈ tokens, t.kind ≠ .newline)
    (hplain : ∀ t ∈ tokens, Plain d t) (hapart : tokens.IsChain (Apart d)) :
    (Piece.scan d false (lineText d " " none [] tokens)).map Piece.text = tokens.map Token.value ↔
      ∀ t ∈ tokens, d.isReserved t.value = true →
        Text.byteCount t.value ≤ Piece.keywordLimit := by
  obtain ⟨text, htext, hwoven, -⟩ :=
    lineText_woven (d := d) (fun t ht => ⟨hkind t ht, (hplain t ht).ends⟩) none []
  rw [htext, List.nil_append, ← hwoven.reading_iff hplain hapart, Piece.reading, List.map_map]
  rfl

/-- A line that prints a text variable. -/
theorem scan_spaced_print :
    (Piece.scan .coco false (lineText .coco " " none [] [⟨.instruction, "print", {}⟩,
      ⟨.identifier, "a$", {}⟩])).map Piece.text = Text.ofStrings ["print", "a$"] :=
  (scan_spaced_iff (by simp)
    (by
      have hprint : Plain .coco ⟨.instruction, "print", {}⟩ :=
        .keyword rfl (by decide) (by decide +kernel) (by decide +kernel)
      have hname : Plain .coco ⟨.identifier, "a$", {}⟩ := .name (by decide +kernel)
      exact List.forall_mem_cons.2 ⟨hprint, List.forall_mem_singleton.2 hname⟩)
    (by decide)).2 (by
      simp only [List.forall_mem_cons]
      exact ⟨fun _ => by decide, fun _ => by decide, by simp⟩)

/-- A keyword may be too long: written with the long s it has nine bytes. -/
theorem scan_long_keyword : ¬∀ (d : Dialect) (tokens : List Token),
    (∀ t ∈ tokens, t.kind ≠ .newline) → (∀ t ∈ tokens, Plain d t) → tokens.IsChain (Apart d) →
      (Piece.scan d false (lineText d " " none [] tokens)).map Piece.text =
        tokens.map Token.value := by
  intro h
  have hword : Dialect.isReserved .msx "maxfileſ" = true := by decide
  have hplain : Plain .msx ⟨.instruction, "maxfileſ", {}⟩ :=
    .keyword rfl hword (by decide) (by decide)
  have hread := h .msx [⟨.instruction, "maxfileſ", {}⟩] (by simp) (by simpa using hplain)
    (List.isChain_singleton _)
  have hline : lineText .msx " " none [] [⟨.instruction, "maxfileſ", {}⟩] =
      ("maxfileſ" : Text) ++ [] := rfl
  have hwoven : Woven .msx [⟨.instruction, "maxfileſ", {}⟩] (("maxfileſ" : Text) ++ []) :=
    .token .nil (by simp)
  have hfits := (hwoven.reading_iff (by simpa using hplain) (List.isChain_singleton _)).1 (by
    rw [← hline, ← hread, Piece.reading, List.map_map]
    rfl) _ List.mem_cons_self hword
  exact absurd hfits (by decide)

end Render

end ClassicBasic
