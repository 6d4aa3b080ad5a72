import ClassicBasic.Proofs.Likeness
import ClassicBasic.Proofs.Spaced
import ClassicBasic.Proofs.Spelling

/-!
# Numbers of the grammar in a classic line

Every start of a number is a number or the mark of one, so a reader that goes on as long as the grammar
agrees reaches the end of it. The reader of classic lines looks for keywords on its way as well. No
keyword is made of the signs of decimal numerals, and one is made of the digits of the base sixteen:
DEF. Numbers without it are read as a whole.
-/

set_option autoImplicit false

namespace ClassicBasic

variable {d : Dialect} {form : NumberForm} {c : Char} {t v rest z : Text}

/-! ### Starts of numbers -/

namespace Grammar

/-- What holds of the rest behind a run of digits holds of it before the last character. -/
theorem dropWhile_init {p : Text → Bool} (hnil : p [] = true)
    (hinit : ∀ t, p (t ++ [c]) = true → p t = true)
    (h : p ((t ++ [c]).dropWhile Char.isDigit) = true) : p (t.dropWhile Char.isDigit) = true := by
  rw [List.dropWhile_append] at h
  split at h
  · rename_i he
    rw [List.isEmpty_iff.1 he, hnil]
  · exact hinit _ h

theorem numberEnd_init (h : numberEnd form (t ++ [c]) = true) : numberEnd form t = true := by
  cases t with
  | nil => rfl
  | cons x t =>
    cases t with
    | nil => cases h
    | cons y t => cases h

theorem exponentTail_init (h : exponentTail form (t ++ [c]) = true) :
    exponentTail form t = true := by
  cases t with
  | nil => rfl
  | cons x t =>
    rw [List.cons_append, exponentTail_cons] at h
    rw [exponentTail_cons]
    split at h
    · rename_i hx
      rw [if_pos hx]
      cases t with
      | nil => rfl
      | cons y t =>
        refine dropWhile_init (c := c) rfl (fun _ => numberEnd_init) ?_
        rw [List.cons_append, Text.splitSign_cons] at h
        rw [Text.splitSign_cons]
        split at h
        · rename_i hy
          rw [if_pos hy]
          exact h
        · rename_i hy
          rw [if_neg hy]
          split at h
          · rename_i hplus
            rw [if_pos hplus]
            exact h
          · rename_i hplus
            rw [if_neg hplus]
            exact h
    · rename_i hx
      rw [if_neg hx]
      exact numberEnd_init h

/-- A decimal numeral without its last character is one, or a point. -/
theorem isDecimal_init (hv : v ≠ []) (h : isDecimal form (v ++ [c]) = true) :
    v = ['.'] ∨ isDecimal form v = true := by
  have digits {t : Text} (h : exponentTail form ((t ++ [c]).dropWhile Char.isDigit) = true) :
      exponentTail form (t.dropWhile Char.isDigit) = true :=
    dropWhile_init rfl (fun _ => exponentTail_init) h
  obtain ⟨x, rest, rfl⟩ := List.exists_cons_of_ne_nil hv
  by_cases hx : x = '.'
  · subst hx
    cases rest with
    | nil => exact .inl rfl
    | cons y rest =>
      right
      rw [List.cons_append, List.cons_append] at h
      simp only [isDecimal, Bool.and_eq_true] at h ⊢
      exact ⟨h.1, digits h.2⟩
  · right
    rw [List.cons_append, isDecimal_cons fun he => absurd he hx, Bool.and_eq_true] at h
    rw [isDecimal_cons fun he => absurd he hx, Bool.and_eq_true]
    refine ⟨h.1, dropWhile_init (p := fun t => exponentTail form (pastPoint t)) rfl
      (fun t ht => ?_) h.2⟩
    cases t with
    | nil => rfl
    | cons y t =>
      rw [List.cons_append, pastPoint_cons] at ht
      rw [pastPoint_cons]
      split at ht
      · rename_i hy
        rw [if_pos hy]
        exact digits ht
      · rename_i hy
        rw [if_neg hy]
        exact exponentTail_init ht

/-- A numeral in another base without its last digit is one, or the mark of the base. -/
theorem isBased_init (h : isBased form (v ++ [c]) = true) :
    isBaseMark form v = true ∨ isBased form v = true := by
  unfold isBased at h
  split at h
  · rename_i x digits heq
    simp only [Bool.and_eq_true, bne_iff_ne, ne_eq, List.any_eq_true] at h
    obtain ⟨hne, b, hb, hx, hall⟩ := h
    obtain ⟨init, last, rfl⟩ : ∃ init last, digits = init ++ [last] :=
      ⟨_, _, (List.dropLast_append_getLast hne).symm⟩
    have happ : v ++ [c] = ('&' :: x :: init) ++ [last] := by simpa using heq
    obtain ⟨rfl, -⟩ := List.append_inj' happ rfl
    cases init with
    | nil =>
      left
      simp only [isOneOf, List.any_cons, List.any_nil, Bool.or_false] at hx
      simp only [isBaseMark, isOneOf, List.any_map, List.any_eq_true]
      exact ⟨b, hb, hx⟩
    | cons y init =>
      right
      simp only [isBased, Bool.and_eq_true, bne_iff_ne, ne_eq, reduceCtorEq, not_false_eq_true,
        List.any_eq_true, true_and]
      refine ⟨b, hb, hx, ?_⟩
      rw [List.all_append, Bool.and_eq_true] at hall
      exact hall.1
  · cases h

end Grammar

namespace Dialect

open Grammar

/-- Whether no text of the shape but the character alone starts with a character. -/
def avoids (c : Char) : Shape → Bool
  | .lineEnds => c != '\r'
  | .blank => true
  | .words plain numbered =>
    (plain.all fun w => w.length ≤ 1 || w.head?.all fun x => Text.foldChar x != Text.foldChar c) &&
      numbered.all fun w => w.head?.any fun x => Text.foldChar x != Text.foldChar c
  | .name lead _ => lead.head?.any (· != c) || (lead.isEmpty && !isLetter c)
  | .number _ | .baseMark _ => false

theorem not_accepts_avoids {s : Shape} (hs : avoids c s = true) (hrest : rest ≠ []) :
    s.accepts (c :: rest) = false := by
  have hword {w t : Text} (hw : (w.head?.all fun x => Text.foldChar x != Text.foldChar c) = true)
      (ht : t.head? = some c) : Text.sameLetters w t = false := by
    cases w with
    | nil =>
      cases t with
      | nil => cases ht
      | cons y t => rfl
    | cons x w =>
      cases t with
      | nil => cases ht
      | cons y t =>
        obtain rfl : y = c := by simpa using ht
        rw [Text.sameLetters, Bool.and_eq_false_iff, beq_eq_false_iff_ne]
        exact .inl (by simpa using hw)
  have hlong {w : Text} (hw : w.length ≤ 1) : Text.sameLetters w (c :: rest) = false := by
    rw [Bool.eq_false_iff]
    intro he
    have hlen := length_of_sameLetters he
    cases rest with
    | nil => exact hrest rfl
    | cons y rest =>
      simp only [List.length_cons] at hlen
      omega
  cases s with
  | lineEnds => simp_all [avoids, Shape.accepts]
  | blank =>
    cases rest with
    | nil => exact absurd rfl hrest
    | cons y rest => rfl
  | words plain numbered =>
    simp only [avoids, Bool.and_eq_true, List.all_eq_true, Bool.or_eq_true, decide_eq_true_eq] at hs
    simp only [Shape.accepts, Bool.or_eq_false_iff, List.any_eq_false, Bool.not_eq_true]
    refine ⟨fun w hw => (hs.1 w hw).elim hlong fun h => hword h rfl, fun w hw => ?_⟩
    have hany : (w.head?.all fun x => Text.foldChar x != Text.foldChar c) = true := by
      have := hs.2 w hw
      cases w <;> simp_all
    unfold isNumbered
    rw [hword hany rfl, Bool.false_or]
    split
    · rw [hword hany, Bool.and_false]
      cases rest with
      | nil => exact absurd rfl hrest
      | cons y rest => rfl
    · rfl
  | name lead typed =>
    simp only [avoids, Bool.or_eq_true, Bool.and_eq_true, Bool.not_eq_true', List.isEmpty_iff] at hs
    cases lead with
    | nil => simp_all [Shape.accepts, after, isName]
    | cons x lead => simp_all [Shape.accepts, after]
  | number form => cases hs
  | baseMark form => cases hs

/-- The rules for what starts with a point or an ampersand, apart from that of numbers. -/
theorem numeral_marks (d : Dialect) : ∀ r ∈ d.grammar, r.kind = .number ∨
    ((r.shape = .name ['.'] false ∨ r.shape = .baseMark d.numberForm ∨ avoids '.' r.shape = true) ∧
      ((r.kind = .baseMark ∧ r.shape = .baseMark d.numberForm) ∨ avoids '&' r.shape = true)) := by
  rw [grammar_spelled, numberForm_spelled]
  cases d <;> decide

theorem baseMark_rule (d : Dialect) : ⟨.baseMark, .baseMark d.numberForm⟩ ∈ d.grammar := by
  cases d <;> decide

/-- A rule that accepts a text decides its kind if no other one does. -/
theorem classify_of_only {r : Rule} (hr : r ∈ d.grammar) (ha : r.shape.accepts v = true)
    (honly : ∀ r' ∈ d.grammar, r'.shape.accepts v = true → r'.kind = r.kind) :
    d.classify v = some r.kind := by
  have hsome : (d.classify v).isSome = true := by
    rw [classify, Option.isSome_map, List.find?_isSome]
    exact ⟨r, hr, ha⟩
  obtain ⟨k, hk⟩ := Option.isSome_iff_exists.1 hsome
  obtain ⟨r', hr', rfl, ha'⟩ := classify_rule hk
  rw [hk, honly r' hr' ha']

theorem classify_decimal (h : isDecimal d.numberForm v = true) : d.classify v = some .number := by
  refine classify_of_only (number_rule d) (by rw [Shape.accepts, h, Bool.true_or])
    fun r hr ha => ?_
  by_contra hk
  cases v with
  | nil => cases h
  | cons c rest =>
    by_cases hc : c = '.'
    · subst hc
      cases rest with
      | nil => cases h
      | cons y rest =>
        have hy : y.isDigit = true := by
          simp only [isDecimal, Bool.and_eq_true] at h
          exact h.1
        rcases numeral_marks d r hr with hn | ⟨hn | hn | hn, -⟩
        · exact hk hn
        · rw [hn] at ha
          have hletter := (digit_signs hy).2.2.2.2.2.2.2
          simp [Shape.accepts, after, isName, hletter] at ha
        · rw [hn] at ha
          cases ha
        · rw [not_accepts_avoids hn (by simp)] at ha
          cases ha
    · have hdigit : c.isDigit = true := by
        cases rest <;> simp [isDecimal, hc] at h <;> exact h.1
      rcases numeral_only d r hr with hn | hn
      · exact hk hn
      · rw [not_accepts_numeral hn hdigit] at ha
        cases ha

theorem classify_based (h : isBased d.numberForm v = true) : d.classify v = some .number := by
  refine classify_of_only (number_rule d) (by rw [Shape.accepts, h, Bool.or_true])
    fun r hr ha => ?_
  by_contra hk
  unfold isBased at h
  split at h
  · rename_i x digits
    rcases numeral_marks d r hr with hn | ⟨-, ⟨-, hn⟩ | hn⟩
    · exact hk hn
    · rw [hn] at ha
      rcases isBaseMark_cases ha with hv | ⟨y, hv, -⟩
      · simp at hv
      · obtain ⟨rfl, rfl⟩ : x = y ∧ digits = [] := by simpa using hv
        simp at h
    · rw [not_accepts_avoids hn (by simp)] at ha
      cases ha
  · cases h

theorem classify_baseMark (h : isBaseMark d.numberForm v = true) :
    d.classify v = some .baseMark := by
  rcases isBaseMark_cases h with rfl | ⟨x, rfl, -⟩
  · exact classify_sign (by decide)
  · refine classify_of_only (baseMark_rule d) h fun r hr ha => ?_
    rcases numeral_marks d r hr with hn | ⟨-, ⟨hn, -⟩ | hn⟩
    · rw [(numeral_rule d r hr).1 hn] at ha
      cases ha
    · exact hn
    · rw [not_accepts_avoids hn (by simp)] at ha
      cases ha

/-- A number, or the mark of one, without its last character is a number or the mark of one. -/
theorem numeral_init {k : Kind} (hk : isNumeral k) (h : d.classify (v ++ [c]) = some k)
    (hv : v ≠ []) : ∃ k', isNumeral k' ∧ d.classify v = some k' := by
  have hpoint : d.classify ['.'] = some .lonePoint := classify_sign (by decide)
  rcases hk with rfl | rfl | rfl
  · rcases accepts_number h with hd | hb
    · rcases isDecimal_init hv hd with rfl | hd
      · exact ⟨_, .inr (.inr rfl), hpoint⟩
      · exact ⟨_, .inl rfl, classify_decimal hd⟩
    · rcases isBased_init hb with hm | hb
      · exact ⟨_, .inr (.inl rfl), classify_baseMark hm⟩
      · exact ⟨_, .inl rfl, classify_based hb⟩
  · rcases accepts_baseMark h with he | ⟨x, he, -⟩
    · exact absurd (List.append_inj' (he.trans (List.nil_append _).symm) rfl).1 hv
    · obtain ⟨rfl, -⟩ := List.append_inj' (he.trans (show _ = ['&'] ++ [x] from rfl)) rfl
      exact ⟨_, .inr (.inl rfl), classify_baseMark rfl⟩
  · exact absurd (List.append_inj' ((accepts_lonePoint h).trans (List.nil_append _).symm) rfl).1 hv

theorem numeral_prefix {k : Kind} (hk : isNumeral k) (h : d.classify v = some k) (hp : t <+: v)
    (ht : t ≠ []) : ∃ k', isNumeral k' ∧ d.classify t = some k' := by
  obtain ⟨rest, rfl⟩ := hp
  induction rest using List.reverseRecOn generalizing k with
  | nil => exact ⟨k, hk, by rwa [List.append_nil] at h⟩
  | append_singleton rest c ih =>
    rw [← List.append_assoc] at h
    obtain ⟨k', hk', h'⟩ := numeral_init hk h (by simp [ht])
    exact ih hk' h'

end Dialect

/-! ### Keywords in numbers -/

namespace Grammar

/-- Whether the characters of a list are all capitals of themselves up to case. -/
def areCapitals (letters : List Char) : Bool :=
  letters.all (fun l => Text.isInward (Text.foldChar l)) && (List.range 0x80).all fun n =>
    !isOneOf letters (Char.ofNat n) || letters.contains (Text.upperChar (Char.ofNat n))

theorem form_capitals (d : Dialect) : areCapitals d.numberForm.exponents = true ∧
    ∀ b ∈ d.numberForm.bases, areCapitals [b.1] = true ∧ areCapitals b.2 = true := by
  rw [Dialect.numberForm_spelled]
  cases d <;> decide +kernel

/-- What is one of some capitals up to case is one of them in capitals. -/
theorem upperChar_of_isOneOf {letters : List Char} (hl : areCapitals letters = true)
    (h : isOneOf letters c = true) : c.toNat < 0x80 ∧ Text.upperChar c ∈ letters := by
  rw [areCapitals, Bool.and_eq_true] at hl
  have hascii : c.toNat < 0x80 := by
    simp only [isOneOf, List.any_eq_true, beq_iff_eq] at h
    obtain ⟨l, hmem, hfold⟩ := h
    exact Text.ascii_of_foldChar rfl (hfold ▸ List.all_eq_true.1 hl.1 l hmem)
  have hall := List.all_eq_true.1 hl.2 c.toNat (List.mem_range.2 hascii)
  rw [Char.ofNat_toNat, h] at hall
  exact ⟨hascii, by simpa using hall⟩

end Grammar

namespace Piece

open Dialect Grammar

/-- The keyword made of digits of the base sixteen. -/
def hidden : Text := "DEF"

/-- The signs of decimal numerals, in capitals. -/
def decimalSigns : Text := "0123456789.+-%#!DE"

theorem hidden_reserved (d : Dialect) : hidden ∈ d.reservedWords := by
  rw [reservedWords_spelled]
  cases d <;> decide

/-- No keyword is made of the signs of decimal numerals, none is the letter of a base with its digits,
and one is made of digits of a base. -/
theorem reserved_numeral (d : Dialect) : ∀ w ∈ d.reservedWords,
    w.all decimalSigns.contains = false ∧ ∀ b ∈ d.numberForm.bases,
      (w.all b.2.contains = true → w = hidden) ∧
      (w.head? = some b.1 → w.tail.all b.2.contains = false) := by
  rw [reservedWords_spelled, numberForm_spelled]
  cases d <;> decide +kernel

theorem decimalSigns_of_numeralSign (h : isNumeralSign d.numberForm c = true) :
    Text.upperChar c ∈ decimalSigns := by
  have hdigits : "0123456789.+-%#!".toList.all
      (fun c => decimalSigns.contains (Text.upperChar c)) = true := by decide
  have hform : d.numberForm.exponents.all decimalSigns.contains = true ∧
      d.numberForm.suffixes.all "0123456789.+-%#!".toList.contains = true := by
    rw [Dialect.numberForm_spelled]
    cases d <;> decide
  have plain (hc : c ∈ "0123456789.+-%#!".toList) : Text.upperChar c ∈ decimalSigns :=
    List.contains_iff_mem.1 (List.all_eq_true.1 hdigits c hc)
  simp only [isNumeralSign, Bool.or_eq_true, beq_iff_eq] at h
  rcases h with ((((hc | rfl) | rfl) | rfl) | hc) | hc
  · exact plain (List.mem_append_left ".+-%#!".toList (Text.mem_digits hc))
  · exact plain (by decide)
  · exact plain (by decide)
  · exact plain (by decide)
  · exact plain (List.contains_iff_mem.1 (List.all_eq_true.1 hform.2 c (List.contains_iff_mem.1 hc)))
  · exact List.contains_iff_mem.1
      (List.all_eq_true.1 hform.1 _ (upperChar_of_isOneOf (form_capitals d).1 hc).2)

theorem keyword_of_hidden (ht : t.all (fun c => c.toNat < 0x80) = true)
    (h : hidden <+: Text.upper t) : 0 < keywordLength d t := by
  have htake : Text.upper (t.take 3) = hidden := by
    rw [Text.upper, List.map_take]
    exact (List.prefix_iff_eq_take.1 h).symm
  have hlen : (t.take 3).length = 3 := by
    rw [← Text.length_upper, htake]
    rfl
  have hbytes : Text.byteCount (t.take 3) ≤ keywordLimit := by
    rw [byteCount_singles fun x hx => ?_, hlen]
    · decide
    · have hx : x.toNat < 0x80 := by
        simpa using List.all_eq_true.1 ht x (List.mem_of_mem_take hx)
      exact Char.utf8Size_eq_one_iff.2 (Nat.le_of_lt_succ hx)
  have hkey : Keyword d (t.take 3) := by
    refine ⟨?_, ?_, hbytes, List.contains_iff_mem.2 (htake ▸ hidden_reserved d)⟩
    · rw [← List.length_pos_iff, hlen]
      decide
    · rw [hlen]
      decide
  have := hkey.length_le (List.take_prefix 3 t)
  omega

/-- What a number is made of: the signs of decimal numerals, or & with the letter of a base and its
digits. -/
theorem number_cases (h : d.classify (c :: rest) = some .number) :
    (∀ x ∈ c :: rest, isNumeralSign d.numberForm x = true) ∨
      ∃ x digits, c = '&' ∧ rest = x :: digits ∧ ∃ b ∈ d.numberForm.bases,
        Text.upperChar x = b.1 ∧ x.toNat < 0x80 ∧
        ∀ y ∈ digits, Text.upperChar y ∈ b.2 ∧ y.toNat < 0x80 := by
  rcases accepts_number h with hd | hb
  · exact .inl (isDecimal_signs hd)
  · right
    unfold isBased at hb
    split at hb
    · rename_i x digits heq
      obtain ⟨rfl, rfl⟩ := List.cons.inj heq
      simp only [Bool.and_eq_true, List.any_eq_true, List.all_eq_true] at hb
      obtain ⟨-, b, hb, hx, hdigits⟩ := hb
      obtain ⟨hletter, hbase⟩ := (form_capitals d).2 b hb
      obtain ⟨hascii, hmem⟩ := upperChar_of_isOneOf hletter hx
      refine ⟨x, digits, rfl, rfl, b, hb, List.mem_singleton.1 hmem, hascii, fun y hy => ?_⟩
      exact (upperChar_of_isOneOf hbase (hdigits y hy)).symm
    · cases hb

/-- A keyword starts inside a number exactly where the one made of digits stands. -/
theorem keyword_inside_iff (h : d.classify (c :: rest) = some .number) :
    (∃ x t, x :: t <:+ rest ∧ x.isDigit = false ∧ 0 < keywordLength d (x :: t)) ↔
      hidden <:+: Text.upper (c :: rest) := by
  constructor
  · rintro ⟨x, t, hsuffix, -, hpos⟩
    obtain ⟨-, hne, -, -, hres⟩ := keyword_of_pos hpos
    generalize keywordLength d (x :: t) = n at hne hres
    have hword := List.contains_iff_mem.1 hres
    obtain ⟨hdecimal, hbased⟩ := reserved_numeral d _ hword
    rcases number_cases h with hsigns | ⟨y, digits, rfl, rfl, b, hb, hy, -, hdigits⟩
    · have hall : (Text.upper ((x :: t).take n)).all decimalSigns.contains = true := by
        rw [List.all_eq_true]
        intro u hu
        obtain ⟨v, hv, rfl⟩ := List.mem_map.1 hu
        refine List.contains_iff_mem.2 (decimalSigns_of_numeralSign (hsigns v ?_))
        exact List.mem_cons_of_mem _ (hsuffix.subset (List.mem_of_mem_take hv))
      rw [hdecimal] at hall
      cases hall
    · have hall {l : Text} (hl : l <:+ digits) (m : Nat) :
          (Text.upper (l.take m)).all b.2.contains = true := by
        rw [List.all_eq_true]
        intro u hu
        obtain ⟨v, hv, rfl⟩ := List.mem_map.1 hu
        exact List.contains_iff_mem.2 (hdigits v (hl.subset (List.mem_of_mem_take hv))).1
      rcases List.suffix_cons_iff.1 hsuffix with he | hsuffix
      · obtain ⟨rfl, rfl⟩ := List.cons.inj he
        obtain ⟨m, rfl⟩ : ∃ m, n = m + 1 := by
          cases n with
          | zero => simp at hne
          | succ m => exact ⟨m, rfl⟩
        have hnone := (hbased b hb).2 (by simp [Text.upper, hy])
        rw [List.take_succ_cons, Text.upper, List.map_cons, List.tail_cons] at hnone
        rw [← Text.upper, hall (List.suffix_refl t) m] at hnone
        cases hnone
      · rw [← (hbased b hb).1 (hall hsuffix n)]
        have hpre : Text.upper ((x :: t).take n) <+: Text.upper (x :: t) :=
          (List.take_prefix _ _).map _
        have hinfix : Text.upper (x :: t) <:+ Text.upper ('&' :: y :: digits) :=
          ((hsuffix.trans (List.suffix_cons _ _)).trans (List.suffix_cons _ _)).map _
        exact hpre.isInfix.trans hinfix.isInfix
  · intro hinfix
    rcases number_cases h with hsigns | ⟨y, digits, rfl, rfl, b, hb, hy, hascii, hdigits⟩
    · have hf : 'F' ∈ Text.upper (c :: rest) := hinfix.subset (by decide)
      obtain ⟨v, hv, hupper⟩ := List.mem_map.1 hf
      have := decimalSigns_of_numeralSign (hsigns v hv)
      rw [hupper] at this
      exact absurd this (by decide)
    · obtain ⟨front, back, hsplit⟩ := hinfix
      rw [List.append_assoc] at hsplit
      obtain ⟨before, behind, heq, rfl, hbehind⟩ := List.map_eq_append_iff.1 hsplit.symm
      have hhidden : hidden <+: Text.upper behind := ⟨back, hbehind.symm⟩
      obtain ⟨x, t, rfl⟩ : ∃ x t, behind = x :: t := by
        cases behind with
        | nil => cases hbehind
        | cons x t => exact ⟨x, t, rfl⟩
      have hx : Text.upperChar x = 'D' := (List.cons.inj hbehind).1
      have hsuffix : x :: t <:+ y :: digits := by
        cases before with
        | nil =>
          obtain ⟨rfl, -⟩ := List.cons.inj heq
          exact absurd hx (by decide)
        | cons u before => exact ⟨before, (List.cons.inj heq).2.symm⟩
      refine ⟨x, t, hsuffix, ?_, keyword_of_hidden (List.all_eq_true.2 fun v hv => ?_) hhidden⟩
      · rw [Bool.eq_false_iff]
        intro hdigit
        rw [Text.upperChar_of_isDigit (.inr hdigit)] at hx
        subst hx
        cases hdigit
      · rcases List.mem_cons.1 (hsuffix.subset hv) with rfl | hv
        · exact decide_eq_true hascii
        · exact decide_eq_true (hdigits v hv).2

theorem numberLength_eq_iff {read s : Text} {best : Nat} (hread : read ≠ [])
    (hbest : best ≤ read.length) (hnil : s = [] → best = read.length)
    (hs : ∀ t, t <+: s → t ≠ [] → ∃ k, isNumeral k ∧ d.classify (read ++ t) = some k)
    (hend : s ≠ [] → d.classify (read ++ s) = some .number) :
    numberLength d read best s = read.length + s.length ↔
      ∀ x t, x :: t <:+ s → x.isDigit = false → keywordLength d (x :: t) = 0 := by
  induction s generalizing read best with
  | nil =>
    rw [numberLength, hnil rfl]
    simp
  | cons x s ih =>
    have hlen : (read ++ [x]).length = read.length + 1 := by simp
    have hempty : read.isEmpty = false := by simpa using hread
    rw [numberLength_cons, hempty]
    simp only [Bool.not_false, Bool.true_and, Bool.and_eq_true, Bool.not_eq_true',
      decide_eq_true_eq]
    split
    · rename_i hstop
      refine ⟨fun he => ?_, fun hnone => ?_⟩
      · simp only [List.length_cons] at he
        omega
      · rw [hnone x s (List.suffix_refl _) hstop.1] at hstop
        exact absurd hstop.2 (Nat.lt_irrefl 0)
    · rename_i hgo
      have hnone : (∀ y t, y :: t <:+ x :: s → y.isDigit = false → keywordLength d (y :: t) = 0) ↔
          ∀ y t, y :: t <:+ s → y.isDigit = false → keywordLength d (y :: t) = 0 := by
        refine ⟨fun h y t ht => h y t (ht.trans (List.suffix_cons x s)), fun h y t ht hy => ?_⟩
        rcases List.suffix_cons_iff.1 ht with he | ht
        · obtain ⟨rfl, rfl⟩ := List.cons.inj he
          exact Nat.eq_zero_of_not_pos fun hpos => hgo ⟨hy, hpos⟩
        · exact h y t ht hy
      have step (best : Nat) (hb : best ≤ read.length + 1) (hn : s = [] → best = read.length + 1) :
          numberLength d (read ++ [x]) best s = read.length + (x :: s).length ↔
            ∀ y t, y :: t <:+ x :: s → y.isDigit = false → keywordLength d (y :: t) = 0 := by
        rw [hnone, ← @ih (read ++ [x]) best (by simp) (by omega)
          (fun h => by rw [hn h, hlen]) (fun t ht hne => ?_) (fun hne => ?_), hlen,
          List.length_cons, Nat.add_assoc, Nat.add_comm 1]
        · have := hs (x :: t) (List.cons_prefix_cons.2 ⟨rfl, ht⟩) (by simp)
          simpa using this
        · have := hend (by simp)
          simpa using this
      have hlast : s = [] → d.classify (read ++ [x]) = some .number := fun h => by
        have := hend (by simp)
        rwa [h] at this
      obtain ⟨k, hk, hclass⟩ := hs [x] (List.cons_prefix_cons.2 ⟨rfl, List.nil_prefix⟩) (by simp)
      have marked (hk : k ≠ .number) : s = [] → best = read.length + 1 := fun h => by
        rw [hlast h] at hclass
        exact absurd (Option.some.inj hclass).symm hk
      rw [hclass]
      rcases hk with rfl | rfl | rfl
      · exact step _ (Nat.le_refl _) fun _ => rfl
      · exact step _ (Nat.le_succ_of_le hbest) (marked (by decide))
      · exact step _ (Nat.le_succ_of_le hbest) (marked (by decide))

/-- A number of the grammar at the end of a line or in front of a blank is read as it is, unless the
keyword made of digits is among its digits. -/
theorem word_number_iff (h : d.classify (c :: rest) = some .number) (hz : Render.StartsBlank z) :
    word d c (rest ++ z) = (.number, rest.length) ↔ ¬hidden <:+: Text.upper (c :: rest) := by
  have hopens : c.isDigit = true ∨ c = '.' ∨ c = '&' := by
    rcases accepts_number h with hd | hb
    · by_cases hc : c = '.'
      · exact .inr (.inl hc)
      · rw [isDecimal_cons fun he => absurd he hc, Bool.and_eq_true] at hd
        exact .inl hd.1
    · unfold isBased at hb
      split at hb
      · rename_i heq
        exact .inr (.inr (List.cons.inj heq).1)
      · cases hb
  have hopenless : c ∈ openless := by
    rcases hopens with hc | rfl | rfl
    · exact openless_of_isDigit hc
    · decide
    · decide
  have hstarts : (c.isDigit || c == '.' || c == '&') = true := by
    simpa [or_assoc] using hopens
  have hprefix {t : Text} (ht : t <+: rest) : ∃ k, isNumeral k ∧ d.classify (c :: t) = some k :=
    numeral_prefix (.inl rfl) h (List.cons_prefix_cons.2 ⟨rfl, ht⟩) (by simp)
  -- the first character is read without looking for a keyword
  have hnumber : numberLength d [] 0 (c :: rest) = rest.length + 1 ↔
      ¬hidden <:+: Text.upper (c :: rest) := by
    rw [← keyword_inside_iff h]
    obtain ⟨k, hk, hclass⟩ := hprefix (List.nil_prefix)
    have step (best : Nat) (hb : best ≤ 1) (hn : rest = [] → best = 1) :
        numberLength d [c] best rest = rest.length + 1 ↔
          ¬∃ x t, x :: t <:+ rest ∧ x.isDigit = false ∧ 0 < keywordLength d (x :: t) := by
      have := @numberLength_eq_iff d [c] rest best (by simp) hb hn (fun t ht _ => hprefix ht)
        (fun _ => h)
      rw [List.length_singleton, Nat.add_comm] at this
      rw [this]
      simp [Nat.pos_iff_ne_zero]
    have marked (hk : k ≠ .number) (hn : rest = []) : 0 = 1 := by
      rw [hn] at h
      rw [h] at hclass
      exact absurd (Option.some.inj hclass).symm hk
    rw [numberLength_cons, List.nil_append, hclass]
    rcases hk with rfl | rfl | rfl
    · exact step 1 (Nat.le_refl 1) fun _ => rfl
    · exact step 0 (Nat.zero_le 1) (marked (by decide))
    · exact step 0 (Nat.zero_le 1) (marked (by decide))
  rw [← hnumber, word, ← List.cons_append, numberLength_append_blank hz, List.cons_append,
    keywordLength_openless hopenless]
  simp only [hstarts, if_true, Nat.lt_irrefl, if_false]
  split
  · rename_i hpos
    simp only [Prod.mk.injEq, true_and]
    omega
  · split
    · simp
      omega
    · split <;> simp <;> omega

/-- A number in the base sixteen in front of a blank is read to its end. -/
theorem word_number_sixteen : word .msx '&' ("HFF".toList ++ " +1".toList) = (.number, 3) :=
  (word_number_iff (by decide +kernel) (.inr ⟨_, rfl⟩)).2 (by decide +kernel)

/-- The digits DEF end a number in front of them: nothing is left of it but its sign. -/
theorem word_hidden_keyword :
    Dialect.classify .msx "&HDEF" = some .number ∧ word .msx '&' "HDEF" = (.symbol, 0) := by
  decide +kernel

end Piece

end ClassicBasic
