import ClassicBasic.Classic.Piece
import ClassicBasic.Proofs.Lexical
import ClassicBasic.Proofs.Rows

/-!
# Words next to blanks

A classic reader takes the longest keyword that starts a text, the longest number, or a name up to
the next keyword. None of them holds a blank, so what follows a blank has no part in what is read in
front of it; and what is cut off behind a word takes no part in it either, as long as no keyword was
cut in two.
-/

set_option autoImplicit false

namespace ClassicBasic

open Render (StartsBlank)

variable {d : Dialect} {z : Text}

/-- What holds no blank and starts a text that a blank ends starts what is in front of the blank. -/
theorem Text.prefix_of_blankless {w t : Text} (hw : ' ' ∉ w) (hz : StartsBlank z)
    (h : w <+: t ++ z) : w <+: t := by
  rcases hz with rfl | ⟨more, rfl⟩
  · rwa [List.append_nil] at h
  · refine List.prefix_of_prefix_length_le h (List.prefix_append t _) (Nat.le_of_not_lt fun hlt => hw ?_)
    obtain ⟨left, hleft⟩ := h
    have hget : (w ++ left)[t.length]? = some ' ' := by simp [hleft]
    rw [List.getElem?_append_left hlt] at hget
    exact List.mem_of_getElem? hget

def Text.foldsOutside (x : Char) : Bool := x == 'i' || x == 'k' || x == 's'

def Text.isInward (x : Char) : Bool := x.toNat < 0x80 && x != '\x00' && !Text.foldsOutside x

theorem Text.ascii_of_foldChar {c x : Char} (h : Text.foldChar c = x) (hx : Text.isInward x = true) :
    c.toNat < 0x80 := by
  have hfold : Text.Lands Text.foldsOutside Text.foldRanges := by decide
  have hlower : Text.Lands Text.foldsOutside Text.lowerRanges := by decide +kernel
  simp only [Text.isInward, Bool.and_eq_true, decide_eq_true_eq, bne_iff_ne, Bool.not_eq_true'] at hx
  obtain ⟨⟨hx, h0⟩, ho⟩ := hx
  by_contra hc
  have hnot {ranges : List CaseRange} (hl : Text.Lands Text.foldsOutside ranges) :
      Text.shiftBy ranges c ≠ some x := fun hs => by
    rcases Text.shiftBy_lands hl hs hx with hp | hp
    · simp [ho] at hp
    · exact h0 hp
  rw [Text.foldChar, if_neg hc, Text.lowerChar, if_neg hc] at h
  cases hf : Text.shiftBy Text.foldRanges c with
  | some y => exact hnot hfold (by rw [hf]; simpa [hf] using h)
  | none =>
    cases hl : Text.shiftBy Text.lowerRanges c with
    | some y => exact hnot hlower (by rw [hl]; simpa [hf, hl] using h)
    | none =>
      have : c = x := by simpa [hf, hl] using h
      exact hc (this ▸ hx)

namespace Dialect

theorem isReserved_blankless {w : Text} (h : d.isReserved w = true) : ' ' ∉ w := by
  intro hb
  have hall : ∀ w ∈ d.reservedWords, ' ' ∉ w := by
    rw [reservedWords_spelled]
    cases d <;> decide +kernel
  refine hall _ (List.contains_iff_mem.1 h) ?_
  simpa [Text.upper] using ⟨' ', hb, by decide⟩

theorem numeral_rule (d : Dialect) : ∀ r ∈ d.grammar,
    (r.kind = .number → r.shape = .number d.numberForm) ∧
      (r.kind = .baseMark → r.shape = .baseMark d.numberForm) ∧
      (r.kind = .lonePoint → r.shape = .words ["."] []) := by
  cases d <;> decide

end Dialect

namespace Grammar

def isNumeralSign (form : NumberForm) (c : Char) : Bool :=
  c.isDigit || c == '.' || c == '+' || c == '-' || form.suffixes.contains c ||
    isOneOf form.exponents c

variable {form : NumberForm} {t : Text} {c : Char}

theorem mem_dropWhile_digits (h : c ∈ t) : c.isDigit = true ∨ c ∈ t.dropWhile Char.isDigit := by
  rw [← List.takeWhile_append_dropWhile (p := Char.isDigit) (l := t), List.mem_append] at h
  exact h.imp_left fun h => List.mem_takeWhile_imp h

theorem numberEnd_signs (h : numberEnd form t = true) : ∀ c ∈ t, isNumeralSign form c = true := by
  unfold numberEnd at h
  split at h
  · simp
  · simp_all [isNumeralSign]
  · cases h

theorem signs_of_dropWhile (h : ∀ c ∈ t.dropWhile Char.isDigit, isNumeralSign form c = true) :
    ∀ c ∈ t, isNumeralSign form c = true := fun c hc =>
  (mem_dropWhile_digits hc).elim (fun hd => by simp [isNumeralSign, hd]) (h c)

theorem exponentTail_signs (h : exponentTail form t = true) :
    ∀ c ∈ t, isNumeralSign form c = true := by
  unfold exponentTail at h
  split at h
  · simp
  · split at h
    · rename_i c rest hc
      refine List.forall_mem_cons.2 ⟨by simp [isNumeralSign, hc], ?_⟩
      split at h
      · exact List.forall_mem_cons.2 ⟨by simp [isNumeralSign], signs_of_dropWhile (numberEnd_signs h)⟩
      · exact List.forall_mem_cons.2 ⟨by simp [isNumeralSign], signs_of_dropWhile (numberEnd_signs h)⟩
      · exact signs_of_dropWhile (numberEnd_signs h)
    · exact numberEnd_signs h

theorem isDecimal_signs (h : isDecimal form t = true) : ∀ c ∈ t, isNumeralSign form c = true := by
  unfold isDecimal at h
  split at h
  · cases h
  · rename_i c rest
    rw [Bool.and_eq_true] at h
    refine List.forall_mem_cons.2 ⟨by simp [isNumeralSign], List.forall_mem_cons.2 ⟨?_, ?_⟩⟩
    · simp [isNumeralSign, h.1]
    · exact signs_of_dropWhile (exponentTail_signs h.2)
  · rename_i c rest _
    rw [Bool.and_eq_true] at h
    refine List.forall_mem_cons.2 ⟨by simp [isNumeralSign, h.1], signs_of_dropWhile ?_⟩
    have htail := h.2
    split at htail
    · rename_i fraction heq
      rw [heq]
      refine List.forall_mem_cons.2 ⟨by simp [isNumeralSign], ?_⟩
      exact signs_of_dropWhile (exponentTail_signs htail)
    · exact exponentTail_signs htail

theorem isBased_blankless (h : isBased d.numberForm t = true) : ' ' ∉ t := by
  unfold isBased at h
  split at h
  · rename_i c digits
    simp only [Bool.and_eq_true, List.any_eq_true, List.all_eq_true] at h
    obtain ⟨-, b, hb, hc, hdigits⟩ := h
    have hnone : ∀ b ∈ d.numberForm.bases, isOneOf [b.1] ' ' = false ∧ isOneOf b.2 ' ' = false := by
      cases d <;> decide
    intro hmem
    simp only [List.mem_cons, false_or, Char.reduceEq] at hmem
    rcases hmem with rfl | hmem
    · simp [(hnone b hb).1] at hc
    · simpa [(hnone b hb).2] using hdigits _ hmem
  · cases h

theorem isBaseMark_cases (h : isBaseMark form t = true) :
    t = ['&'] ∨ ∃ c, t = ['&', c] ∧ isOneOf (form.bases.map Prod.fst) c = true := by
  unfold isBaseMark at h
  split at h
  · exact .inl rfl
  · exact .inr ⟨_, rfl, h⟩
  · cases h

end Grammar

namespace Dialect

open Grammar

theorem accepts_number {v : Text} (h : d.classify v = some .number) :
    isDecimal d.numberForm v = true ∨ isBased d.numberForm v = true := by
  obtain ⟨r, hr, hk, ha⟩ := classify_rule h
  rw [(numeral_rule d r hr).1 hk] at ha
  simpa [Shape.accepts] using ha

theorem accepts_baseMark {v : Text} (h : d.classify v = some .baseMark) :
    v = ['&'] ∨ ∃ c, v = ['&', c] ∧ isOneOf (d.numberForm.bases.map Prod.fst) c = true := by
  obtain ⟨r, hr, hk, ha⟩ := classify_rule h
  rw [(numeral_rule d r hr).2.1 hk] at ha
  exact isBaseMark_cases ha

theorem accepts_lonePoint {v : Text} (h : d.classify v = some .lonePoint) : v = ['.'] := by
  obtain ⟨r, hr, hk, ha⟩ := classify_rule h
  rw [(numeral_rule d r hr).2.2 hk] at ha
  simp only [Shape.accepts, List.any_cons, List.any_nil, Bool.or_false] at ha
  exact Text.eq_of_sameLetters (by decide) ha

def isNumeral (k : Kind) : Prop := k = .number ∨ k = .baseMark ∨ k = .lonePoint

theorem numeral_blankless {v : Text} {k : Kind} (hk : isNumeral k) (h : d.classify v = some k) :
    ' ' ∉ v := by
  rcases hk with rfl | rfl | rfl
  · rcases accepts_number h with ha | ha
    · intro hb
      have hnone : isNumeralSign d.numberForm ' ' = false := by cases d <;> decide
      simpa [hnone] using isDecimal_signs ha _ hb
    · exact isBased_blankless ha
  · rcases accepts_baseMark h with rfl | ⟨c, rfl, hc⟩
    · decide
    · have hnone : isOneOf (d.numberForm.bases.map Prod.fst) ' ' = false := by cases d <;> decide
      intro hmem
      simp only [List.mem_cons, false_or, Char.reduceEq, List.not_mem_nil, or_false] at hmem
      subst hmem
      simp [hnone] at hc
  · rw [accepts_lonePoint h]
    decide

theorem not_mark_behind_number {v : Text} {c : Char} {k : Kind} (h : d.classify v = some .number)
    (hk : k = .baseMark ∨ k = .lonePoint) : d.classify (v ++ [c]) ≠ some k := by
  have hnil : d.classify [] ≠ some .number := by simp [classify_nil]
  have hmark : d.classify ['&'] ≠ some .number := by
    rw [classify_sign (show ('&', .baseMark) ∈ commonSigns by decide)]
    simp
  intro hm
  rcases hk with rfl | rfl
  · rcases accepts_baseMark hm with hv | ⟨x, hv, -⟩
    · obtain ⟨rfl, -⟩ := List.append_inj' (hv.trans (List.nil_append _).symm) rfl
      exact hnil h
    · obtain ⟨rfl, -⟩ := List.append_inj' (hv.trans (show _ = ['&'] ++ [x] from rfl)) rfl
      exact hmark h
  · obtain ⟨rfl, -⟩ := List.append_inj' ((accepts_lonePoint hm).trans (List.nil_append _).symm) rfl
    exact hnil h

end Dialect

theorem Text.mem_digits {c : Char} (h : c.isDigit = true) : c ∈ "0123456789".toList := by
  have hc : 48 ≤ c.toNat ∧ c.toNat ≤ 57 := by
    simpa [Char.isDigit, UInt32.le_iff_toNat_le] using h
  have hdigits : ∀ n < 58, 48 ≤ n → Char.ofNat n ∈ "0123456789".toList := by decide
  rw [← Char.ofNat_toNat c]
  exact hdigits _ (by omega) hc.1

namespace Piece

open Dialect

def Keyword (d : Dialect) (w : Text) : Prop :=
  w ≠ [] ∧ w.length ≤ keywordLimit ∧ Text.byteCount w ≤ keywordLimit ∧ d.isReserved w = true

theorem Keyword.blankless {w : Text} (h : Keyword d w) : ' ' ∉ w := isReserved_blankless h.2.2.2

theorem foldl_range_best (p : Nat → Bool) (n : Nat) :
    (∀ i < n, p i = true →
      i + 1 ≤ (List.range n).foldl (fun best i => if p i then i + 1 else best) 0) ∧
    ((List.range n).foldl (fun best i => if p i then i + 1 else best) 0 = 0 ∨
      ∃ i < n, p i = true ∧
        (List.range n).foldl (fun best i => if p i then i + 1 else best) 0 = i + 1) := by
  induction n with
  | zero => simp
  | succ n ih =>
    rw [List.range_succ, List.foldl_append]
    generalize (List.range n).foldl (fun best i => if p i then i + 1 else best) 0 = best at ih
    simp only [List.foldl_cons, List.foldl_nil]
    by_cases hp : p n = true
    · rw [if_pos hp]
      exact ⟨fun i hi _ => by omega, .inr ⟨n, by omega, hp, rfl⟩⟩
    · rw [if_neg hp]
      refine ⟨fun i hi hpi => ?_, ih.2.imp_right fun ⟨i, hi, h⟩ => ⟨i, by omega, h⟩⟩
      rcases Nat.lt_succ_iff_lt_or_eq.1 hi with hi | rfl
      · exact ih.1 i hi hpi
      · exact absurd hpi hp

theorem keywordLength_eq (d : Dialect) (t : Text) : keywordLength d t =
    (List.range (min t.length keywordLimit)).foldl (fun best i =>
      if (decide (Text.byteCount (t.take (i + 1)) ≤ keywordLimit) &&
        d.isReserved (t.take (i + 1))) then i + 1 else best) 0 := rfl

/-- No keyword in front of a text is longer than the one that is read. -/
theorem Keyword.length_le {w t : Text} (h : Keyword d w) (hp : w <+: t) :
    w.length ≤ keywordLength d t := by
  obtain ⟨hne, hlen, hbytes, hres⟩ := h
  have hpos : 0 < w.length := List.length_pos_iff.2 hne
  have htake : t.take (w.length - 1 + 1) = w := by
    rw [Nat.sub_add_cancel hpos]
    exact (List.prefix_iff_eq_take.1 hp).symm
  rw [keywordLength_eq]
  have hbest := (foldl_range_best (fun i => decide (Text.byteCount (t.take (i + 1)) ≤ keywordLimit) &&
    d.isReserved (t.take (i + 1))) (min t.length keywordLimit)).1 (w.length - 1)
    (by have := hp.length_le; omega) (by simp [htake, hbytes, hres])
  omega

theorem keyword_of_pos {t : Text} (h : 0 < keywordLength d t) :
    keywordLength d t ≤ t.length ∧ Keyword d (t.take (keywordLength d t)) := by
  rcases (foldl_range_best (fun i => decide (Text.byteCount (t.take (i + 1)) ≤ keywordLimit) &&
    d.isReserved (t.take (i + 1))) (min t.length keywordLimit)).2 with hz | ⟨i, hi, hp, he⟩
  · rw [keywordLength_eq, hz] at h
    exact absurd h (Nat.lt_irrefl 0)
  · rw [← keywordLength_eq] at he
    simp only [Bool.and_eq_true, decide_eq_true_eq] at hp
    have hlen : (t.take (i + 1)).length = i + 1 := by rw [List.length_take]; omega
    rw [he]
    refine ⟨by omega, ?_, by omega, hp.1, hp.2⟩
    rw [← List.length_pos_iff]
    omega

theorem keywordLength_le_length (d : Dialect) (t : Text) : keywordLength d t ≤ t.length := by
  rcases Nat.eq_zero_or_pos (keywordLength d t) with h | h
  · omega
  · exact (keyword_of_pos h).1

theorem keywordLength_le_append (d : Dialect) (t more : Text) :
    keywordLength d t ≤ keywordLength d (t ++ more) := by
  rcases Nat.eq_zero_or_pos (keywordLength d t) with h | h
  · omega
  · obtain ⟨hle, hk⟩ := keyword_of_pos h
    have := hk.length_le (((List.take_prefix _ t).trans (List.prefix_append t more)))
    rwa [List.length_take_of_le hle] at this

theorem keywordLength_cut (t more : Text) (h : keywordLength d (t ++ more) ≤ t.length) :
    keywordLength d t = keywordLength d (t ++ more) := by
  refine Nat.le_antisymm (keywordLength_le_append d t more) ?_
  rcases Nat.eq_zero_or_pos (keywordLength d (t ++ more)) with h0 | hpos
  · omega
  · obtain ⟨hle, hk⟩ := keyword_of_pos hpos
    rw [List.take_append_of_le_length h] at hk
    have := hk.length_le (List.take_prefix _ t)
    rwa [List.length_take_of_le h] at this

theorem keywordLength_append_blank (hz : StartsBlank z) (t : Text) :
    keywordLength d (t ++ z) = keywordLength d t := by
  refine (keywordLength_cut t z ?_).symm
  rcases Nat.eq_zero_or_pos (keywordLength d (t ++ z)) with h0 | hpos
  · omega
  · obtain ⟨hle, hk⟩ := keyword_of_pos hpos
    have := (Text.prefix_of_blankless hk.blankless hz (List.take_prefix _ _)).length_le
    rwa [List.length_take_of_le hle] at this

theorem numberLength_cases (d : Dialect) (read : Text) (best : Nat) (t : Text) :
    numberLength d read best t = best ∨
      (read.length < numberLength d read best t ∧
        numberLength d read best t ≤ read.length + t.length) := by
  induction t generalizing read best with
  | nil => exact .inl rfl
  | cons c rest ih =>
    simp only [numberLength]
    split
    · exact .inl rfl
    · have hlen : (read ++ [c]).length = read.length + 1 := by simp
      split
      · rcases ih (read ++ [c]) (read.length + 1) with h | ⟨h, hle⟩
        · rw [h]
          exact .inr ⟨by omega, by simp⟩
        · rw [hlen] at h hle
          exact .inr ⟨by omega, by simp; omega⟩
      all_goals first
        | exact .inl rfl
        | (rcases ih (read ++ [c]) best with h | ⟨h, hle⟩
           · exact .inl h
           · rw [hlen] at h hle
             exact .inr ⟨by omega, by simp; omega⟩)

theorem le_numberLength {read : Text} {best : Nat} (h : best ≤ read.length) (t : Text) :
    best ≤ numberLength d read best t := by
  rcases numberLength_cases d read best t with he | ⟨hlt, -⟩ <;> omega

/-- Whether the reader of a number stops at a keyword in front of the text `c :: rest`. -/
theorem numberLength_cons (d : Dialect) (read : Text) (best : Nat) (c : Char) (rest : Text) :
    numberLength d read best (c :: rest) =
      if !read.isEmpty && !c.isDigit && 0 < keywordLength d (c :: rest) then best
      else
        match d.classify (read ++ [c]) with
        | some .number => numberLength d (read ++ [c]) (read.length + 1) rest
        | some .baseMark | some .lonePoint => numberLength d (read ++ [c]) best rest
        | _ => best := rfl

theorem numberLength_append_blank (hz : StartsBlank z) (read : Text) (best : Nat) (t : Text) :
    numberLength d read best (t ++ z) = numberLength d read best t := by
  induction t generalizing read best with
  | nil =>
    rcases hz with rfl | ⟨more, rfl⟩
    · rfl
    · have hnone {k : Kind} (hk : isNumeral k) : d.classify (read ++ [' ']) ≠ some k := fun h =>
        numeral_blankless hk h (by simp)
      rw [List.nil_append, numberLength_cons]
      split
      · rfl
      · split
        · exact absurd ‹_› (hnone (.inl rfl))
        · exact absurd ‹_› (hnone (.inr (.inl rfl)))
        · exact absurd ‹_› (hnone (.inr (.inr rfl)))
        · rfl
  | cons c rest ih =>
    rw [List.cons_append, numberLength_cons, numberLength_cons, ← List.cons_append,
      keywordLength_append_blank hz]
    simp only [ih]

/-- A keyword that starts the text `y ++ z` in front of `z` is found in front of it. -/
def Uncut (d : Dialect) (y z : Text) : Prop :=
  y ≠ [] → 0 < keywordLength d (y ++ z) → 0 < keywordLength d y

/-- A number that ends in front of a text is read the same when the text is cut off further on. -/
theorem numberLength_cut {y : Text} (hcut : Uncut d y z) {read s : Text} {best : Nat}
    (hbest : best ≤ read.length)
    (hend : s = [] → best = read.length ∧ d.classify read = some .number)
    (h : numberLength d read best (s ++ (y ++ z)) = read.length + s.length) :
    numberLength d read best (s ++ y) = read.length + s.length := by
  induction s generalizing read best with
  | nil =>
    obtain ⟨rfl, hnum⟩ := hend rfl
    cases y with
    | nil => rfl
    | cons e y =>
      simp only [List.nil_append, List.cons_append, numberLength_cons, List.length_nil,
        Nat.add_zero] at h ⊢
      split at h
      · rename_i hstop
        simp only [Bool.and_eq_true, decide_eq_true_eq] at hstop
        rw [if_pos (by simpa using ⟨by simpa using hstop.1, hcut (by simp) hstop.2⟩)]
      · split
        · rfl
        · split at h
          · have hle : read.length + 1 ≤ numberLength d (read ++ [e]) (read.length + 1) (y ++ z) :=
              le_numberLength (by simp) _
            omega
          · exact absurd ‹_› (not_mark_behind_number hnum (.inl rfl))
          · exact absurd ‹_› (not_mark_behind_number hnum (.inr rfl))
          · rfl
  | cons c s ih =>
    have hlen : (read ++ [c]).length = read.length + 1 := by simp
    simp only [List.cons_append, numberLength_cons, List.length_cons] at h ⊢
    split at h
    · omega
    · rename_i hgo
      have hkey := keywordLength_le_append d (c :: (s ++ y)) z
      rw [List.cons_append, List.append_assoc] at hkey
      rw [if_neg (fun hstop => hgo ?_)]
      · -- behind the start of a number in another base there are characters of the number left
        have behind (hb : numberLength d (read ++ [c]) best (s ++ (y ++ z)) =
            read.length + (s.length + 1)) :
            numberLength d (read ++ [c]) best (s ++ y) = read.length + (s.length + 1) := by
          have hs : s ≠ [] := by
            rintro rfl
            rcases numberLength_cases d (read ++ [c]) best (y ++ z) with he | ⟨hlt, -⟩
            · simp only [List.nil_append, he, List.length_nil] at hb
              omega
            · simp only [List.nil_append, List.length_nil] at hb
              omega
          have := @ih (read ++ [c]) best (by omega) (fun he => absurd he hs) (by omega)
          omega
        split at h
        · rename_i hn
          have := @ih (read ++ [c]) (read.length + 1) (by omega) (fun _ => ⟨hlen.symm, hn⟩) (by omega)
          omega
        · exact behind h
        · exact behind h
        · omega
      · simp only [Bool.and_eq_true, decide_eq_true_eq] at hstop ⊢
        exact ⟨hstop.1, by omega⟩

theorem typedLength_nil (d : Dialect) : typedLength d [] = 0 := rfl

theorem typedLength_cons (d : Dialect) (c : Char) (rest : Text) :
    typedLength d (c :: rest) =
      if c.isAlphanum ∧ keywordLength d (c :: rest) = 0 then typedLength d rest + 1
      else if Grammar.isTypeSigil c then 1 else 0 := by
  by_cases hgo : c.isAlphanum ∧ keywordLength d (c :: rest) = 0
  · have hname : nameLength d (c :: rest) = nameLength d rest + 1 := by simp [nameLength, hgo]
    rw [if_pos hgo]
    unfold typedLength
    simp only [hname, List.drop_succ_cons]
    split
    · split <;> rfl
    · rfl
  · have hname : nameLength d (c :: rest) = 0 := by simpa [nameLength] using hgo
    rw [if_neg hgo]
    unfold typedLength
    simp only [hname, List.drop_zero, Nat.zero_add]

theorem typedLength_le (d : Dialect) (t : Text) : typedLength d t ≤ t.length := by
  induction t with
  | nil => exact Nat.le_refl 0
  | cons c rest ih =>
    rw [typedLength_cons, List.length_cons]
    split
    · omega
    · split <;> omega

theorem typedLength_append_blank (hz : StartsBlank z) (t : Text) :
    typedLength d (t ++ z) = typedLength d t := by
  induction t with
  | nil =>
    rcases hz with rfl | ⟨more, rfl⟩
    · rfl
    · rw [List.nil_append, typedLength_cons, typedLength_nil]
      rw [if_neg (by simp), if_neg (by simp [Grammar.isTypeSigil])]
  | cons c rest ih =>
    rw [List.cons_append, typedLength_cons, typedLength_cons, ← List.cons_append,
      keywordLength_append_blank hz, ih]

theorem not_isAlphanum_of_isTypeSigil {c : Char} (h : Grammar.isTypeSigil c = true) :
    c.isAlphanum = false := by
  simp only [Grammar.isTypeSigil, Bool.or_eq_true, beq_iff_eq] at h
  rcases h with ((rfl | rfl) | rfl) | rfl <;> decide

/-- A name that ends in front of a text is read the same when the text is cut off further on. -/
theorem typedLength_cut {y : Text} (hcut : Uncut d y z) {u : Text}
    (h : typedLength d (u ++ (y ++ z)) = u.length) : typedLength d (u ++ y) = u.length := by
  induction u with
  | nil =>
    cases y with
    | nil => rfl
    | cons e y =>
      simp only [List.nil_append, List.cons_append, typedLength_cons, List.length_nil] at h ⊢
      split at h
      · omega
      · rename_i hstop
        rw [if_neg (fun hgo => hstop ⟨hgo.1, ?_⟩)]
        · exact h
        · by_contra hne
          have := hcut (by simp) (Nat.pos_of_ne_zero hne)
          omega
  | cons c u ih =>
    simp only [List.cons_append, typedLength_cons, List.length_cons] at h ⊢
    split at h
    · rename_i hgo
      have hkey := keywordLength_le_append d (c :: (u ++ y)) z
      rw [List.cons_append, List.append_assoc, hgo.2] at hkey
      rw [if_pos ⟨hgo.1, by omega⟩, ih (by omega)]
    · split at h
      · rename_i hsigil
        rw [if_neg (by simp [not_isAlphanum_of_isTypeSigil hsigil]), if_pos hsigil]
        exact h
      · omega

def baseLetters : Text := "HOBhob"

theorem mem_baseLetters {c : Char}
    (h : Grammar.isOneOf (d.numberForm.bases.map Prod.fst) c = true) : c ∈ baseLetters := by
  simp only [Grammar.isOneOf, List.any_eq_true, beq_iff_eq] at h
  obtain ⟨l, hl, hfold⟩ := h
  have hall : (d.numberForm.bases.map Prod.fst).all
      (fun l => Text.isInward (Text.foldChar l) && Text.foldChar l ∈ ['h', 'o', 'b']) = true := by
    cases d <;> decide
  have hl := List.all_eq_true.1 hall l hl
  rw [hfold, Bool.and_eq_true, decide_eq_true_eq] at hl
  have hmem : Text.foldChar c ∈ ['h', 'o', 'b'] := hl.2
  have hascii : c.toNat < 0x80 := Text.ascii_of_foldChar rfl hl.1
  have hletters : ∀ n < 0x80, (Char.ofNat n).toLower ∈ ['h', 'o', 'b'] →
      Char.ofNat n ∈ baseLetters := by decide
  rw [Text.foldChar, if_pos hascii] at hmem
  rw [← Char.ofNat_toNat c] at hmem ⊢
  exact hletters _ hascii hmem

theorem classify_digit {c : Char} (h : c.isDigit = true) : d.classify [c] = some .number :=
  classify_sign (List.mem_append_right _ (List.mem_map_of_mem (Text.mem_digits h)))

theorem numberLength_pos_of_isDigit {c : Char} (h : c.isDigit = true) (rest : Text) :
    0 < numberLength d [] 0 (c :: rest) := by
  have hle : 1 ≤ numberLength d [c] 1 rest := le_numberLength (by simp) rest
  rw [numberLength_cons, if_neg (by simp), List.nil_append, classify_digit h]
  exact hle

/-- What starts no number starts none when the text is cut off further on. Behind the letter of a
base it takes two words to see that: a keyword may start there. -/
theorem numberLength_zero_cut {y : Text} {c : Char} (hcut : Uncut d y z)
    (hmark : ∀ e y', c = '&' → y = e :: y' → e ∈ baseLetters → keywordLength d (y ++ z) = 0 →
      Uncut d y' z)
    (h : numberLength d [] 0 (c :: (y ++ z)) = 0) : numberLength d [] 0 (c :: y) = 0 := by
  have hmarks {v : Text} {k : Kind} (hk : k = .baseMark ∨ k = .lonePoint) (hlen : 2 < v.length) :
      d.classify v ≠ some k := fun hm => by
    rcases hk with rfl | rfl
    · rcases accepts_baseMark hm with rfl | ⟨_, rfl, -⟩ <;> simp at hlen
    · rw [accepts_lonePoint hm] at hlen
      simp at hlen
  have hpos {read : Text} {best : Nat} (hb : 0 < best) (hle : best ≤ read.length) (t : Text) :
      numberLength d read best t ≠ 0 := by
    have := le_numberLength (d := d) hle t
    omega
  -- two characters in: they are & and the letter of a base
  have third {e : Char} {y : Text} (hy : c = '&' → e ∈ baseLetters → Uncut d y z)
      (hm : d.classify [c, e] = some .baseMark)
      (h : numberLength d [c, e] 0 (y ++ z) = 0) : numberLength d [c, e] 0 y = 0 := by
    obtain ⟨rfl, he⟩ : c = '&' ∧ e ∈ baseLetters := by
      rcases accepts_baseMark hm with hv | ⟨x, hv, hx⟩
      · simp at hv
      · obtain ⟨rfl, rfl⟩ : c = '&' ∧ e = x := by simpa using hv
        exact ⟨rfl, mem_baseLetters hx⟩
    cases y with
    | nil => rfl
    | cons f y =>
      simp only [List.cons_append, numberLength_cons, List.isEmpty_cons, Bool.not_false,
        Bool.true_and, Bool.and_eq_true, decide_eq_true_eq] at h ⊢
      split at h
      · rename_i hstop
        rw [if_pos ⟨hstop.1, hy rfl he (by simp) hstop.2⟩]
      · split
        · rfl
        · split at h
          · exact absurd h (hpos (by simp) (by simp) _)
          · exact absurd ‹_› (hmarks (.inl rfl) (by simp))
          · exact absurd ‹_› (hmarks (.inr rfl) (by simp))
          · rfl
  -- one character in
  have second (hm : d.classify [c] = some .baseMark ∨ d.classify [c] = some .lonePoint)
      (h : numberLength d [c] 0 (y ++ z) = 0) : numberLength d [c] 0 y = 0 := by
    cases y with
    | nil => rfl
    | cons e y =>
      simp only [List.cons_append, numberLength_cons, List.isEmpty_cons, Bool.not_false,
        Bool.true_and, Bool.and_eq_true, decide_eq_true_eq] at h ⊢
      split at h
      · rename_i hstop
        rw [if_pos ⟨hstop.1, hcut (by simp) hstop.2⟩]
      · rename_i hgo
        split
        · rfl
        · split at h
          · exact absurd h (hpos (by simp) (by simp) _)
          · refine third (fun hc he => hmark e y hc rfl he ?_) ‹_› h
            have hletters : baseLetters.all (!·.isDigit) = true := by decide
            by_contra hne
            exact hgo ⟨List.all_eq_true.1 hletters e he, Nat.pos_of_ne_zero hne⟩
          · exact absurd (accepts_lonePoint ‹_›) (by simp)
          · rfl
  simp only [numberLength_cons, List.isEmpty_nil, Bool.not_true, Bool.false_and, Bool.false_eq_true,
    if_false, List.nil_append] at h ⊢
  split at h
  · exact absurd h (hpos (by simp) (by simp) _)
  · exact second (.inl ‹_›) h
  · exact second (.inr ‹_›) h
  · rfl

theorem word_length (d : Dialect) (c : Char) (rest : Text) : (word d c rest).2 ≤ rest.length := by
  have hkey := keywordLength_le_length d (c :: rest)
  have hnum := numberLength_cases d [] 0 (c :: rest)
  simp only [List.length_cons, List.length_nil] at hkey hnum
  have hnumber : (if (c.isDigit || c == '.' || c == '&') = true then
      numberLength d [] 0 (c :: rest) else 0) ≤ rest.length + 1 := by split <;> omega
  unfold word
  dsimp only
  generalize (if (c.isDigit || c == '.' || c == '&') = true then
      numberLength d [] 0 (c :: rest) else 0) = number at hnumber ⊢
  split
  · exact Nat.sub_le_of_le_add hkey
  · split
    · exact Nat.sub_le_of_le_add hnumber
    · split
      · exact typedLength_le d rest
      · exact Nat.zero_le _

theorem word_append_blank (hz : StartsBlank z) (c : Char) (t : Text) :
    word d c (t ++ z) = word d c t := by
  have hkey : keywordLength d (c :: (t ++ z)) = keywordLength d (c :: t) :=
    keywordLength_append_blank hz (c :: t)
  have hnum : numberLength d [] 0 (c :: (t ++ z)) = numberLength d [] 0 (c :: t) :=
    numberLength_append_blank hz [] 0 (c :: t)
  have htake (h : 0 < keywordLength d (c :: t)) : (c :: (t ++ z)).take (keywordLength d (c :: t)) =
      (c :: t).take (keywordLength d (c :: t)) := by
    rw [← List.cons_append, List.take_append_of_le_length (keyword_of_pos h).1]
  unfold word
  simp only [hkey, hnum, typedLength_append_blank hz]
  by_cases hpos : 0 < keywordLength d (c :: t)
  · simp only [if_pos hpos, htake hpos]
  · simp only [if_neg hpos]

theorem word_blankless (d : Dialect) (c : Char) (rest : Text) :
    ' ' ∉ rest.take (word d c rest).2 := by
  intro hb
  obtain ⟨a, b, hab⟩ := List.append_of_mem hb
  have hrest : rest = a ++ ' ' :: (b ++ rest.drop (word d c rest).2) := by
    conv_lhs => rw [← List.take_append_drop (word d c rest).2 rest, hab]
    simp
  have hlt : a.length < (word d c rest).2 := by
    have := congrArg List.length hab
    simp only [List.length_take, List.length_append, List.length_cons] at this
    omega
  have heq : word d c rest = word d c a := by
    conv_lhs => rw [hrest]
    exact word_append_blank (.inr ⟨_, rfl⟩) c a
  have := word_length d c a
  rw [← heq] at this
  omega

/-- A word that ends in front of a text is read the same when the text is cut off further on. -/
theorem word_cut {y u : Text} {c : Char} {k : Kind} (hcut : Uncut d y z)
    (hmark : ∀ e y', c = '&' → y = e :: y' → e ∈ baseLetters → keywordLength d (y ++ z) = 0 →
      Uncut d y' z)
    (h : word d c (u ++ (y ++ z)) = (k, u.length)) : word d c (u ++ y) = (k, u.length) := by
  have hkey := keywordLength_le_append d (c :: (u ++ y)) z
  rw [List.cons_append, List.append_assoc] at hkey
  have name (h : (if c.isAlphanum then (Kind.identifier, typedLength d (u ++ (y ++ z)))
      else (if c = ':' then Kind.separator else Kind.symbol, 0)) = (k, u.length)) :
      (if c.isAlphanum then (Kind.identifier, typedLength d (u ++ y))
        else (if c = ':' then Kind.separator else Kind.symbol, 0)) = (k, u.length) := by
    split at h
    · rename_i hc
      rw [Prod.mk.injEq] at h
      rw [if_pos hc, typedLength_cut hcut h.2, h.1]
    · rename_i hc
      rw [if_neg hc, h]
  unfold word at h ⊢
  dsimp only at h ⊢
  by_cases hpos : 0 < keywordLength d (c :: (u ++ (y ++ z)))
  · rw [if_pos hpos, Prod.mk.injEq] at h
    have hlen : keywordLength d (c :: (u ++ (y ++ z))) = u.length + 1 := by omega
    have heq : keywordLength d (c :: (u ++ y)) = keywordLength d (c :: (u ++ (y ++ z))) := by
      have := keywordLength_cut (d := d) (c :: (u ++ y)) z (by
        simp only [List.cons_append, List.append_assoc, hlen, List.length_cons, List.length_append]
        omega)
      simpa using this
    rw [heq, if_pos hpos, Prod.mk.injEq]
    refine ⟨?_, h.2⟩
    rw [← h.1, hlen]
    simp
  · rw [if_neg hpos] at h
    rw [if_neg (by omega)]
    by_cases hdigit : (c.isDigit || c == '.' || c == '&') = true
    · rw [if_pos hdigit] at h ⊢
      rcases Nat.eq_zero_or_pos (numberLength d [] 0 (c :: (u ++ (y ++ z)))) with hz | hnum
      · rw [if_neg (by omega)] at h
        rw [if_neg ?_]
        · exact name h
        · have hu : u = [] := by
            simp only [Bool.or_eq_true, beq_iff_eq] at hdigit
            rcases hdigit with (hd | rfl) | rfl
            · exact absurd hz (numberLength_pos_of_isDigit hd _).ne'
            · simpa [eq_comm] using (Prod.mk.inj h).2
            · simpa [eq_comm] using (Prod.mk.inj h).2
          subst hu
          rw [List.nil_append] at hz ⊢
          rw [numberLength_zero_cut hcut hmark hz]
          exact Nat.lt_irrefl 0
      · rw [if_pos hnum, Prod.mk.injEq] at h
        have hsame := @numberLength_cut d z y hcut [] (c :: u) 0 (by simp) (by simp)
            (by simp only [List.cons_append, List.length_nil, List.length_cons]; omega)
        simp only [List.cons_append, List.length_nil, List.length_cons] at hsame
        rw [hsame, if_pos (by omega), Prod.mk.injEq]
        exact ⟨h.1, by omega⟩
    · rw [if_neg hdigit, if_neg (Nat.lt_irrefl 0)] at h ⊢
      exact name h

end Piece

end ClassicBasic
