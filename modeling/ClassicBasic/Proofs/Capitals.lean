import ClassicBasic.Proofs.Rescaling
import ClassicBasic.Proofs.Sentinels
import ClassicBasic.Proofs.Spaced

/-!
# Programs in capitals

Capitals are asked for at the end of a conversion. What is decided after a token has been put in
capitals is decided by its kind, by its letters up to case or by its signs, so a program in capitals
is the program without them, its words and names put in capitals one by one.
-/

set_option autoImplicit false

namespace ClassicBasic

namespace Text

variable {c x y : Char}

def strays : List Nat := [0x130, 0x131, 0x17F, 0x212A]

/-- Whether nothing but strays is moved into ASCII. -/
def Strays (ranges : List CaseRange) : Prop :=
  ∀ r ∈ ranges, 0x80 ≤ (r.first : Int) + r.shift ∨ (r.first = r.last ∧ r.first ∈ strays)

instance (ranges : List CaseRange) : Decidable (Strays ranges) :=
  inferInstanceAs (Decidable (∀ r ∈ ranges, _))

theorem strays_maps : Strays upperRanges ∧ Strays lowerRanges ∧ Strays foldRanges := by
  decide +kernel

theorem strays_image : ∀ r ∈ upperRanges, ∀ n ∈ strays,
    (n : Int) < r.first + r.shift ∨ r.last + r.shift < n := by
  decide +kernel

theorem shiftBy_spec {ranges : List CaseRange} (h : shiftBy ranges c = some x) :
    ∃ r ∈ ranges, r.first ≤ c.toNat ∧ c.toNat ≤ r.last ∧
      (x = '\x00' ∨ (x.toNat : Int) = c.toNat + r.shift) := by
  obtain ⟨r, hmem, hx⟩ := Option.map_eq_some_iff.1 h
  have hc := List.find?_some hmem
  simp only [CaseRange.covers, Bool.and_eq_true, decide_eq_true_eq] at hc
  refine ⟨r, List.mem_of_find?_eq_some hmem, hc.1.1, hc.1.2, ?_⟩
  generalize hn : (c.toNat : Int) + r.shift = n at hx
  by_cases hneg : n < 0
  · rw [Int.toNat_of_nonpos (by omega)] at hx
    exact .inl hx.symm
  · by_cases hv : n.toNat.isValidChar
    · rw [Char.ofNat, dif_pos hv] at hx
      have hnat : x.toNat = n.toNat := by rw [← hx]; rfl
      omega
    · rw [Char.ofNat, dif_neg hv] at hx
      exact .inl hx.symm

theorem shiftBy_stray {ranges : List CaseRange} (hr : Strays ranges)
    (h : shiftBy ranges c = some x) (hx : x.toNat < 0x80) (h0 : x ≠ '\x00') :
    c.toNat ∈ strays := by
  obtain ⟨r, hmem, hlo, hhi, hval⟩ := shiftBy_spec h
  rcases hr r hmem with hl | ⟨he, hl⟩
  · rcases hval with h' | h'
    · exact absurd h' h0
    · omega
  · rwa [show c.toNat = r.first by omega]

theorem shiftBy_upper_not_stray (h : shiftBy upperRanges c = some y) : y.toNat ∉ strays := by
  obtain ⟨r, hmem, hlo, hhi, hval⟩ := shiftBy_spec h
  intro hs
  have himage := strays_image r hmem _ hs
  rcases hval with rfl | h'
  · exact absurd hs (by decide)
  · omega

theorem not_isLower_upperChar (h : (upperChar c).toNat < 0x80) : (upperChar c).isLower = false := by
  by_cases hc : c.toNat < 0x80
  · have hall : ∀ n < 0x80, (Char.ofNat n).toUpper.isLower = false := by decide
    rw [upperChar, if_pos hc, ← Char.ofNat_toNat c]
    exact hall _ hc
  · rw [upperChar, if_neg hc] at h ⊢
    cases hs : shiftBy upperRanges c with
    | none =>
      rw [hs] at h
      exact absurd h hc
    | some y =>
      rw [hs] at h
      rcases shiftBy_lands lands_upper hs h with hy | rfl
      · have hup := isUpper_iff_toNat.1 hy
        rw [Option.getD_some, Bool.eq_false_iff]
        intro hl
        have := isLower_iff_toNat.1 hl
        omega
      · rfl

theorem upperChar_of_not_isLower (hc : c.toNat < 0x80) (h : c.isLower = false) :
    upperChar c = c := by
  have hall : ∀ n < 0x80, (Char.ofNat n).isLower = false → (Char.ofNat n).toUpper = Char.ofNat n := by
    decide
  rw [upperChar, if_pos hc]
  simpa only [Char.ofNat_toNat] using hall _ hc (by rwa [Char.ofNat_toNat])

theorem toNat_upperChar_lt (hc : c.toNat < 0x80) : (upperChar c).toNat < 0x80 := by
  have hall : ∀ n < 0x80, (Char.ofNat n).toUpper.toNat < 0x80 := by decide
  rw [upperChar, if_pos hc]
  simpa only [Char.ofNat_toNat] using hall _ hc

/-- What a character that is no letter of ASCII has as its capital: itself, or what is no stray. -/
theorem upperChar_cases (hc : ¬c.toNat < 0x80) :
    upperChar c = c ∨ (upperChar c).toNat ∉ strays := by
  rw [upperChar, if_neg hc]
  cases hs : shiftBy upperRanges c with
  | none => exact .inl rfl
  | some y => exact .inr (shiftBy_upper_not_stray hs)

theorem upperChar_stray (hc : ¬c.toNat < 0x80) (hx : (upperChar c).toNat < 0x80)
    (h0 : upperChar c ≠ '\x00') : c.toNat ∈ strays := by
  rw [upperChar, if_neg hc] at hx h0
  cases hs : shiftBy upperRanges c with
  | none =>
    rw [hs] at hx
    exact absurd hx hc
  | some y =>
    rw [hs] at hx h0
    exact shiftBy_stray strays_maps.1 hs hx h0

theorem upperChar_upperChar (hx : x.toNat < 0x80) (h0 : x ≠ '\x00') :
    upperChar (upperChar c) = x ↔ upperChar c = x := by
  constructor
  · rintro rfl
    by_cases hy : (upperChar c).toNat < 0x80
    · exact (upperChar_of_not_isLower hy (not_isLower_upperChar hy)).symm
    · -- a capital outside ASCII would be a stray
      rcases upperChar_cases (fun hc => hy (toNat_upperChar_lt hc)) with he | hstray
      · rw [he, he]
      · exact absurd (upperChar_stray hy hx h0) hstray
  · rintro rfl
    exact upperChar_of_not_isLower hx (not_isLower_upperChar hx)

theorem foldChar_stray (hc : ¬c.toNat < 0x80) (hx : (foldChar c).toNat < 0x80)
    (h0 : foldChar c ≠ '\x00') : c.toNat ∈ strays := by
  rw [foldChar, if_neg hc] at hx h0
  cases hf : shiftBy foldRanges c with
  | some y =>
    rw [hf] at hx h0
    exact shiftBy_stray strays_maps.2.2 hf hx h0
  | none =>
    rw [hf, Option.getD_none, lowerChar, if_neg hc] at hx h0
    cases hl : shiftBy lowerRanges c with
    | some y =>
      rw [hl] at hx h0
      exact shiftBy_stray strays_maps.2.1 hl hx h0
    | none =>
      rw [hl] at hx
      exact absurd hx hc

/-- Folding into ASCII does not depend on capitals, the variants of i apart. -/
theorem foldChar_upperChar (hx : x.toNat < 0x80) (h0 : x ≠ '\x00') (hi : x ≠ 'i') :
    foldChar (upperChar c) = x ↔ foldChar c = x := by
  by_cases hc : c.toNat < 0x80
  · have hall : ∀ n < 0x80, foldChar (upperChar (Char.ofNat n)) = foldChar (Char.ofNat n) := by decide
    have := hall _ hc
    rw [Char.ofNat_toNat] at this
    rw [this]
  · by_cases hs : c.toNat ∈ strays
    · have hall : ∀ n ∈ strays, foldChar (upperChar (Char.ofNat n)) = foldChar (Char.ofNat n) ∨
          (foldChar (upperChar (Char.ofNat n)) = 'i' ∧ 0x80 ≤ (foldChar (Char.ofNat n)).toNat) := by
        decide
      have hcase := hall _ hs
      rw [Char.ofNat_toNat] at hcase
      rcases hcase with he | ⟨he, hbig⟩
      · rw [he]
      · refine iff_of_false (fun h => hi (h.symm.trans he)) (fun h => ?_)
        rw [h] at hbig
        omega
    · rcases upperChar_cases hc with he | hstray
      · rw [he]
      · have hnone : foldChar c ≠ x := by
          rintro rfl
          exact hs (foldChar_stray hc hx h0)
        refine iff_of_false ?_ hnone
        rintro rfl
        by_cases hy : (upperChar c).toNat < 0x80
        · refine hs (upperChar_stray hc hy fun h => h0 ?_)
          rw [h]
          decide
        · exact hstray (foldChar_stray hy hx h0)

/-- A text with some of its letters in capitals and all its blanks. -/
def Raised (a b : Text) : Prop :=
  List.Forall₂ (fun x y => (y = x ∨ y = upperChar x) ∧ (y = ' ' ↔ x = ' ')) a b

variable {a b s t : Text}

theorem upperChar_blank : upperChar c = ' ' ↔ c = ' ' := by
  constructor
  · exact fun h => upperChar_eq h (by decide) (by decide) (by decide)
  · rintro rfl
    decide

theorem Raised.refl (a : Text) : Raised a a := List.forall₂_same.2 fun _ _ => ⟨.inl rfl, .rfl⟩

theorem raised_upper (a : Text) : Raised a (upper a) :=
  List.forall₂_map_right_iff.2 (List.forall₂_same.2 fun _ _ => ⟨.inr rfl, upperChar_blank⟩)

theorem Raised.append (h : Raised a b) (h' : Raised s t) : Raised (a ++ s) (b ++ t) :=
  List.rel_append h h'

theorem Raised.isEmpty (h : Raised a b) : b.isEmpty = a.isEmpty := by cases h <;> rfl

theorem Raised.getLast? (h : Raised a b) :
    (a.getLast? = none ∧ b.getLast? = none) ∨
      ∃ x y, a.getLast? = some x ∧ b.getLast? = some y ∧ (y = x ∨ y = upperChar x) ∧
        (y = ' ' ↔ x = ' ') := by
  have hrev := List.rel_reverse h
  rw [← List.head?_reverse, ← List.head?_reverse]
  generalize a.reverse = a' at hrev ⊢
  generalize b.reverse = b' at hrev ⊢
  cases hrev with
  | nil => exact .inl ⟨rfl, rfl⟩
  | cons hxy _ => exact .inr ⟨_, _, rfl, rfl, hxy⟩

theorem Raised.trimEnd {p : Char → Bool} (hp : ∀ x y, (y = ' ' ↔ x = ' ') → p y = p x)
    (h : Raised a b) : Raised (trimEnd p a) (trimEnd p b) := by
  have hdrop {a b : Text} (h : Raised a b) : Raised (a.dropWhile p) (b.dropWhile p) := by
    induction h with
    | nil => exact .nil
    | @cons x y a b hxy hab ih =>
      rw [List.dropWhile_cons, List.dropWhile_cons, hp x y hxy.2]
      split
      · exact ih
      · exact .cons hxy hab
  exact List.rel_reverse (hdrop (List.rel_reverse h))

theorem upper_of_forall (h : ∀ c ∈ a, upperChar c = c) : upper a = a := by
  rw [upper, List.map_congr_left h, List.map_id']

end Text

namespace Dialect

variable {d : Dialect} {v : Text}

theorem isWordChar_ascii {c : Char} (h : isWordChar c = true) :
    c.toNat < 0x80 ∧ c ≠ '\x00' ∧ c.isLower = false := by
  simp only [isWordChar, Bool.or_eq_true, beq_iff_eq] at h
  rcases h with ((h | h) | rfl) | rfl
  · have hup := Text.isUpper_iff_toNat.1 h
    refine ⟨by omega, by rintro rfl; exact absurd hup (by decide), Bool.eq_false_iff.2 fun hl => ?_⟩
    have := Text.isLower_iff_toNat.1 hl
    omega
  · have hall : "0123456789".toList.all (fun c => decide (c.toNat < 0x80) && c != '\x00' && !c.isLower) =
        true := by decide
    simpa [and_assoc] using List.all_eq_true.1 hall c (Text.mem_digits h)
  · decide
  · decide

/-- A word in capitals is one of the table if and only if its capitals are. -/
theorem upper_upper_eq_iff {w : Text} (hw : w.all isWordChar = true) :
    Text.upper (Text.upper v) = w ↔ Text.upper v = w := by
  induction v generalizing w with
  | nil => rfl
  | cons c v ih =>
    cases w with
    | nil => exact iff_of_false (by simp [Text.upper]) (by simp [Text.upper])
    | cons x w =>
      rw [List.all_cons, Bool.and_eq_true] at hw
      obtain ⟨hascii, hzero, -⟩ := isWordChar_ascii hw.1
      have hrest := ih hw.2
      simp only [Text.upper, List.map_cons, List.cons.injEq] at hrest ⊢
      rw [Text.upperChar_upperChar hascii hzero, hrest]

theorem isReserved_upper (d : Dialect) (v : Text) :
    d.isReserved (Text.upper v) = d.isReserved v := by
  have hword {w : Text} (hw : w ∈ d.reservedWords) : w.all isWordChar = true :=
    (reserved_form d w hw).2.2.1
  rw [Bool.eq_iff_iff, isReserved, isReserved, List.contains_iff_mem, List.contains_iff_mem]
  constructor
  · intro h
    rwa [(upper_upper_eq_iff (hword h)).1 rfl]
  · intro h
    rwa [(upper_upper_eq_iff (hword h)).2 rfl]

theorem upper_eq_sign {c : Char} (hc : c ∈ '_' :: signs) : Text.upper v = [c] ↔ v = [c] := by
  have hall : ('_' :: signs).all (fun c => decide (c.toNat < 0x80) && c != '\x00' && !c.isUpper &&
      Text.upperChar c == c) = true := by decide
  have hsign := List.all_eq_true.1 hall c hc
  simp only [Bool.and_eq_true, decide_eq_true_eq, bne_iff_ne, Bool.not_eq_true', beq_iff_eq] at hsign
  obtain ⟨⟨⟨hascii, hzero⟩, hup⟩, hself⟩ := hsign
  constructor
  · intro h
    obtain ⟨x, rfl⟩ : ∃ x, v = [x] := by
      rw [← List.length_eq_one_iff, ← Text.length_upper, h, List.length_singleton]
    rw [Text.upperChar_eq (List.singleton_inj.1 h) hascii hup hzero]
  · rintro rfl
    rw [Text.upper, List.map_singleton, hself]

theorem isTight_upper (d : Dialect) (v : Text) : d.isTight (Text.upper v) = d.isTight v := by
  rw [Bool.eq_iff_iff]
  constructor
  · intro h
    obtain ⟨c, hc, hv⟩ := Render.isTight_form h
    rwa [(upper_eq_sign hc).1 hv, ← hv]
  · intro h
    obtain ⟨c, hc, rfl⟩ := Render.isTight_form h
    rwa [(upper_eq_sign hc).2 rfl]

end Dialect

namespace Token

/-- The token in capitals, literals apart. -/
def raised (t : Token) : Token := if t.kind.isLiteral then t else t.withValue t.upper

variable {t : Token}

@[simp]
theorem raised_kind (t : Token) : t.raised.kind = t.kind := by
  unfold raised
  split <;> rfl

@[simp]
theorem raised_pos (t : Token) : t.raised.pos = t.pos := by
  unfold raised
  split <;> rfl

theorem raised_value (t : Token) :
    t.raised.value = if t.kind.isLiteral then t.value else Text.upper t.value := by
  unfold raised
  split <;> rfl

theorem raised_eq (h : Text.upper t.value = t.value) : t.raised = t := by
  unfold raised
  split
  · rfl
  · rw [Token.withValue, Token.upper, h]

theorem is_raised (t : Token) {w : Text} (hw : w ∈ Text.ofStrings ["THEN", "ELSE", "OR"]) :
    t.raised.is w = t.is w := by
  have hletters : ∀ w ∈ Text.ofStrings ["THEN", "ELSE", "OR"], w.all (fun c =>
      (Text.foldChar c).toNat < 0x80 && Text.foldChar c != '\x00' && Text.foldChar c != 'i') := by
    decide
  have hsame (v : Text) (w : Text) (hw : ∀ c ∈ w, (Text.foldChar c).toNat < 0x80 ∧
      Text.foldChar c ≠ '\x00' ∧ Text.foldChar c ≠ 'i') :
      Text.sameLetters (Text.upper v) w = Text.sameLetters v w := by
    induction v generalizing w with
    | nil => rfl
    | cons c v ih =>
      cases w with
      | nil => rfl
      | cons x w =>
        rw [List.forall_mem_cons] at hw
        obtain ⟨⟨hascii, hzero, hi⟩, hrest⟩ := hw
        simp only [Text.upper, List.map_cons, Text.sameLetters]
        rw [← Text.upper, ih w hrest, Bool.eq_iff_iff, Bool.and_eq_true, Bool.and_eq_true,
          beq_iff_eq, beq_iff_eq, Text.foldChar_upperChar hascii hzero hi]
  rw [Token.is, Token.is, raised_value]
  split
  · rfl
  · exact hsame t.value w (by simpa [and_assoc] using hletters w hw)

end Token

namespace Touch

variable {d : Dialect} {o : Options} {t next : Token} {out tokens input : List Token}

theorem snippet_raised (pos : Position) {code : Text}
    (h : code.all (fun c => Text.upperChar c == c) = true) :
    (Lexer.snippet d pos code).map Token.raised = Lexer.snippet d pos code := by
  simp only [List.all_eq_true, beq_iff_eq] at h
  conv_rhs => rw [← List.map_id (Lexer.snippet d pos code)]
  refine List.map_congr_left fun t ht => Token.raised_eq (Text.upper_of_forall fun c hc => h c ?_)
  unfold Lexer.snippet at ht
  split at ht
  · exact (Lexer.snippet?_spec ‹_› t ht).2 c hc
  · cases ht

theorem upperChar_compoundSigns {c : Char} (h : c ∈ Dialect.compoundSigns) :
    Text.upperChar c = c := by
  have hall : Dialect.compoundSigns.all (fun c => Text.upperChar c == c) = true := by decide
  exact beq_iff_eq.1 (List.all_eq_true.1 hall c h)

abbrev cased (o : Options) (capitals : Bool) : Options := { o with capitals }

theorem capitalised_on (d : Dialect) (o : Options) (t : Token) :
    capitalised d (cased o true) t = t.raised := by
  cases hk : t.kind.isLiteral <;> simp [capitalised, Options.inCapitals, Token.raised, hk]

theorem capitalised_off (hd : d.forcesCapitals = false) (o : Options) (t : Token) :
    capitalised d (cased o false) t = t := by
  simp [capitalised, Options.inCapitals, hd]

theorem follows_raised (out : List Token) :
    follows (out.map Token.raised) ["THEN", "ELSE"] = follows out ["THEN", "ELSE"] := by
  cases out with
  | nil => rfl
  | cons t out =>
    have hthen := t.is_raised (w := "THEN") (by decide)
    have helse := t.is_raised (w := "ELSE") (by decide)
    simp only [follows, List.map_cons, List.any_cons, List.any_nil, hthen, helse]

theorem writtenOut_raised (operand : Token) (hc : t.value ⊆ Dialect.compoundSigns) :
    (writtenOut d t operand).map Token.raised = writtenOut d t operand.raised := by
  have hsign {code : Text} (h : ∀ c ∈ code, c ∈ "1=".toList ∨ c ∈ t.value) :
      (Lexer.snippet d t.pos code).map Token.raised = Lexer.snippet d t.pos code := by
    refine snippet_raised _ (List.all_eq_true.2 fun c hc' => ?_)
    rcases h c hc' with hm | hm
    · have hall : "1=".toList.all (fun c => Text.upperChar c == c) = true := by decide
      exact List.all_eq_true.1 hall c hm
    · exact beq_iff_eq.2 (upperChar_compoundSigns (hc hm))
  unfold writtenOut
  rw [List.map_append, List.map_append, List.map_cons, hsign (by simp), operator,
    hsign (fun c hc => .inr (List.mem_of_mem_take hc))]
  split
  · rw [hsign (by simp)]
  · rfl

/-- Behind an output in capitals a token is touched as behind the same output without. -/
theorem touch_raised (hd : d.forcesCapitals = false) (ho : o.translate = false)
    (hc : t.kind = .compound → t.value ⊆ Dialect.compoundSigns) :
    touch d (cased o true) (out.map Token.raised) t next =
      (touch d (cased o false) out t next).map (List.map Token.raised) := by
  have hzero : (Lexer.snippet d t.pos "0").map Token.raised = Lexer.snippet d t.pos "0" :=
    snippet_raised _ (by decide)
  have hminus : (Lexer.snippet d t.pos "-1").map Token.raised = Lexer.snippet d t.pos "-1" :=
    snippet_raised _ (by decide)
  have hprinted : printed (cased o true) t = printed (cased o false) t := rfl
  unfold touch
  simp only [capitalised_on, capitalised_off hd, follows_raised, hprinted, Options.dropsThen,
    Options.dropsGoto, ho, Bool.false_eq_true, false_and, if_false]
  split
  · rfl
  · split
    · rfl
    · split
      · rfl
      · split
        · rename_i hk
          cases out with
          | nil => rfl
          | cons operand before =>
            simp only [List.map_cons, Token.raised_kind]
            split
            · rw [← writtenOut_raised operand (hc hk)]
              rfl
            · rfl
        · split
          · exact congrArg Except.ok hzero.symm
          · split
            · exact congrArg Except.ok hminus.symm
            · rfl

/-- Whether the fifth stage writes a token of its input as it is or in capitals that it has. -/
structure Plain (t : Token) : Prop where
  compound : t.kind = .compound → t.value ⊆ Dialect.compoundSigns
  ending : t.kind = .eof → t.raised = t

theorem run_raised (hd : d.forcesCapitals = false) (ho : o.translate = false)
    (hi : ∀ t ∈ input, Plain t) :
    run d (cased o true) (out.map Token.raised) input =
      (run d (cased o false) out input).map (List.map Token.raised) := by
  induction input generalizing out with
  | nil => rfl
  | cons t rest ih =>
    rw [List.forall_mem_cons] at hi
    rw [run, run]
    by_cases he : t.kind = .eof
    · rw [if_pos he, if_pos he]
      simp only [Except.map, List.map_reverse, List.map_cons, hi.1.ending he]
    · rw [if_neg he, if_neg he, touch_raised hd ho hi.1.compound]
      cases touch d (cased o false) out t (rest.headD t) with
      | error e => rfl
      | ok tokens =>
        simp only [Except.map]
        rw [← List.map_reverse, ← List.map_append, ih hi.2]
        rfl

/-- The fifth stage in capitals puts what it writes without them in capitals. -/
theorem finish_raised {start : Token} (hd : d.forcesCapitals = false) (ho : o.translate = false)
    (hs : start.raised = start) (hi : ∀ t ∈ input, Plain t) :
    finish d (cased o true) (start :: input) =
      (finish d (cased o false) (start :: input)).map (List.map Token.raised) := by
  have hrun : run d (cased o true) ([start].map Token.raised) input =
      (run d (cased o false) [start] input).map (List.map Token.raised) := run_raised hd ho hi
  rwa [List.map_singleton, hs] at hrun

end Touch

namespace Render

variable {d : Dialect} {t : Token} {last : Option Token} {written written' : Text}
  {tokens : List Token}

theorem lastCapital_raised {x : Char} (hx : x.toNat < 0x80 ∧ x ≠ '\x00')
    (h : Text.Raised written written') :
    ((Text.upper written').getLast? == some x) = ((Text.upper written).getLast? == some x) := by
  rw [Text.upper, Text.upper, List.getLast?_map, List.getLast?_map]
  rcases h.getLast? with ⟨ha, hb⟩ | ⟨a, b, ha, hb, rfl | rfl, -⟩
  · rw [ha, hb]
  · rw [ha, hb]
  · rw [ha, hb, Bool.eq_iff_iff]
    simp only [Option.map_some, beq_iff_eq, Option.some.injEq]
    exact Text.upperChar_upperChar hx.1 hx.2

theorem lastBlank_raised (h : Text.Raised written written') :
    (written'.getLast? != some ' ') = (written.getLast? != some ' ') := by
  rcases h.getLast? with ⟨ha, hb⟩ | ⟨a, b, ha, hb, -, hblank⟩
  · rw [ha, hb]
  · rw [ha, hb, Bool.eq_iff_iff]
    simp [hblank]

/-- Whether a word starts with a letter that can be a digit does not depend on capitals. -/
theorem digit_raised (v : Text) :
    ((Text.upper (Text.upper v)).head?.map fun c => decide ('A' ≤ c) && decide (c ≤ 'F')) =
      ((Text.upper v).head?.map fun c => decide ('A' ≤ c) && decide (c ≤ 'F')) := by
  cases v with
  | nil => rfl
  | cons c v =>
    have hletter {x : Char} (h : 'A' ≤ x ∧ x ≤ 'F') : x.toNat < 0x80 ∧ x ≠ '\x00' := by
      have hle : x.toNat ≤ 70 := UInt32.le_iff_toNat_le.1 h.2
      exact ⟨by omega, by rintro rfl; exact absurd h.1 (by decide)⟩
    simp only [Text.upper, List.map_cons, List.head?_cons, Option.map_some, Option.some.injEq]
    rw [Bool.eq_iff_iff, Bool.and_eq_true, Bool.and_eq_true, decide_eq_true_eq, decide_eq_true_eq,
      decide_eq_true_eq, decide_eq_true_eq]
    constructor
    · intro h
      obtain ⟨hx, h0⟩ := hletter h
      rwa [(Text.upperChar_upperChar hx h0).1 rfl]
    · intro h
      obtain ⟨hx, h0⟩ := hletter h
      rwa [(Text.upperChar_upperChar hx h0).2 rfl]

theorem isKeyword_raised (t : Token) : isKeyword d t.raised = isKeyword d t := by
  rw [isKeyword, isKeyword, Token.raised_kind, Token.raised_value]
  split
  · rfl
  · rw [Dialect.isReserved_upper]

theorem isTight_raised (t : Token) : d.isTight t.raised.value = d.isTight t.value := by
  rw [Token.raised_value]
  split
  · rfl
  · exact Dialect.isTight_upper d t.value

theorem value_raised (t : Token) : Text.Raised t.value t.raised.value := by
  rw [Token.raised_value]
  split
  · exact .refl _
  · exact Text.raised_upper _

theorem needsSpace_raised (h : Text.Raised written written') :
    needsSpace (last.map Token.raised) t.raised written' = needsSpace last t written := by
  have hor := t.is_raised (w := "OR") (by decide)
  have hlast : (last.map Token.raised).map Token.kind = last.map Token.kind := by
    rw [Option.map_map]
    exact congrArg (last.map ·) (funext fun u => u.raised_kind)
  have hempty := (value_raised t).isEmpty
  unfold needsSpace
  rw [hor, hlast, hempty, h.isEmpty, lastCapital_raised (by decide) h, Token.raised_kind]
  cases hk : t.kind.isLiteral with
  | true => rfl
  | false =>
    rw [Token.upper, Token.raised_value, hk, if_neg Bool.false_ne_true, digit_raised]
    rfl

theorem spaceBefore_raised (space : Text) (h : Text.Raised written written') :
    spaceBefore d space (last.map Token.raised) t.raised written' =
      spaceBefore d space last t written := by
  cases last with
  | none => rfl
  | some before =>
    simp only [spaceBefore, Option.map_some, isKeyword_raised, isTight_raised, h.isEmpty,
      lastBlank_raised h]

theorem spaceBehind_raised (space : Text) (next : Option Token) :
    spaceBehind d space t.raised (next.map Token.raised) = spaceBehind d space t next := by
  cases next with
  | none => simp only [spaceBehind, Option.map_none, Token.raised_kind]
  | some u => simp only [spaceBehind, Option.map_some, Token.raised_kind, isKeyword_raised,
      isTight_raised]

theorem lineText_raised (space : Text) (h : Text.Raised written written') :
    Text.Raised (lineText d space last written tokens)
      (lineText d space (last.map Token.raised) written' (tokens.map Token.raised)) := by
  induction tokens generalizing last written written' with
  | nil => exact h
  | cons t rest ih =>
    rw [List.map_cons, lineText, lineText, Token.raised_kind]
    split
    · exact ih h
    · have hapart : Text.Raised (if needsSpace last t written then written ++ " " else written)
          (if needsSpace (last.map Token.raised) t.raised written' then written' ++ " "
            else written') := by
        rw [needsSpace_raised h]
        split
        · exact h.append (.refl _)
        · exact h
      dsimp only
      rw [spaceBefore_raised space hapart, List.head?_map, spaceBehind_raised]
      exact ih (((hapart.append (.refl _)).append (value_raised t)).append (.refl _))

/-- Whether the number of a line is the same in capitals. -/
def Numeral (t : Token) : Prop := t.kind = .lineNumber → t.raised = t

theorem reportKey_raised (h : ∀ t ∈ tokens, Numeral t) :
    reportKey (tokens.map Token.raised) = reportKey tokens := by
  cases tokens with
  | nil => rfl
  | cons t rest =>
    simp only [List.map_cons, reportKey, Token.raised_kind]
    split
    · rw [h t List.mem_cons_self ‹_›]
    · rfl

theorem line_raised (o : Options) (notes : List (Int × Text)) (h : ∀ t ∈ tokens, Numeral t) :
    Text.Raised (line d (Touch.cased o false) notes tokens)
      (line d (Touch.cased o true) notes (tokens.map Token.raised)) := by
  have hblank (x y : Char) (hxy : y = ' ' ↔ x = ' ') : isSpace y = isSpace x := by
    rw [Bool.eq_iff_iff, isSpace, isSpace, beq_iff_eq, beq_iff_eq]
    exact hxy
  have htext : Text.Raised (lineText d (if o.stripSpaces then [] else " ") none [] tokens)
      (lineText d (if o.stripSpaces then [] else " ") none [] (tokens.map Token.raised)) :=
    lineText_raised _ (.refl [])
  unfold line
  rw [reportKey_raised h]
  refine Text.Raised.trimEnd hblank ?_
  dsimp only
  split
  · exact ((htext.trimEnd hblank).append (.refl _)).append (.refl _)
  · exact htext

open Outcome (Agrees)

theorem linesFrom_raised (o : Options) (notes : List (Int × Text)) (ho : o.translate = false)
    {read : List Token} (h : ∀ t ∈ tokens, Numeral t) (hr : ∀ t ∈ read, Numeral t) :
    Agrees (List.Forall₂ Text.Raised) (linesFrom d (Touch.cased o false) notes read tokens)
      (linesFrom d (Touch.cased o true) notes (read.map Token.raised) (tokens.map Token.raised)) := by
  induction tokens generalizing read with
  | nil => exact .ok .nil
  | cons t rest ih =>
    rw [List.forall_mem_cons] at h
    have hempty : t.raised.value = [] ↔ t.value = [] := by
      rw [← List.isEmpty_iff, ← List.isEmpty_iff, (value_raised t).isEmpty]
    have hread : ∀ u ∈ (if t.value = [] then read else t :: read), Numeral u := by
      split
      · exact hr
      · exact List.forall_mem_cons.2 ⟨h.1, hr⟩
    have hmap : (if t.raised.value = [] then read.map Token.raised
        else t.raised :: read.map Token.raised) =
        (if t.value = [] then read else t :: read).map Token.raised := by
      simp only [hempty]
      split <;> rfl
    simp only [List.map_cons, linesFrom, Token.raised_kind, ho, Bool.false_eq_true, if_false, hmap]
    generalize (if t.value = [] then read else t :: read) = read at hread
    split
    · exact .ok .nil
    · split
      · exact ih h.2 hread
      · have hline := line_raised (d := d) o notes
          (fun u hu => hread u (List.mem_reverse.1 hu) : ∀ u ∈ read.reverse, Numeral u)
        rw [← List.map_reverse, hline.length_eq]
        split
        · rw [Token.failure, Token.failure, Token.raised_pos]
          exact .error _
        · have hrest := @ih [] h.2 (by simp)
          rw [List.map_nil] at hrest
          generalize linesFrom d (Touch.cased o false) notes [] rest = off at hrest
          generalize linesFrom d (Touch.cased o true) notes [] (rest.map Token.raised) = on at hrest
          cases hrest with
          | error e => exact .error e
          | ok hcode => exact .ok (.cons hline hcode)

theorem lines_raised (o : Options) (notes : List (Int × Text)) (ho : o.translate = false)
    (h : ∀ t ∈ tokens, Numeral t) :
    Agrees (List.Forall₂ Text.Raised) (lines d (Touch.cased o false) notes tokens)
      (lines d (Touch.cased o true) notes (tokens.map Token.raised)) := by
  rw [lines, lines, ← List.map_drop]
  exact linesFrom_raised o notes ho (fun t ht => h t (List.mem_of_mem_drop ht)) (by simp)

theorem numeral_of_follows {scale : Numbering.Scale} {k K : Nat} {ended : List Int}
    (h : Numbering.Follows scale k K tokens ended) : ∀ t ∈ tokens, Numeral t := by
  induction h with
  | last ht =>
    rw [List.forall_mem_singleton]
    intro hk
    simp [ht] at hk
  | close ht hu =>
    refine List.forall_mem_cons.2 ⟨fun hk => ?_, List.forall_mem_singleton.2 fun hk => ?_⟩
    · simp [ht] at hk
    · simp [hu] at hk
  | token _ _ hl _ ih => exact List.forall_mem_cons.2 ⟨fun hk => absurd hk hl, ih⟩
  | line ht _ hv _ ih =>
    refine List.forall_mem_cons.2 ⟨fun hk => ?_, List.forall_mem_cons.2 ⟨fun _ => ?_, ih⟩⟩
    · simp [ht] at hk
    · exact Token.raised_eq (by rw [hv, Text.upper_ofInt])

end Render

namespace Touch

variable {d : Dialect} {o : Options} {input parsed : List Token}

open Render (Numeral)

theorem finish_numeral {start : Token} (hd : d.forcesCapitals = false)
    (h : finish d (cased o false) (start :: input) = .ok parsed) (hs : Numeral start)
    (hi : ∀ t ∈ input, Numeral t) : ∀ t ∈ parsed, Numeral t := by
  obtain ⟨new, rfl, hnew⟩ := finish_touches h
  refine List.forall_mem_cons.2 ⟨hs, ?_⟩
  clear h
  generalize hon : cased o false = off at hnew
  induction hnew with
  | ending ht =>
    rw [List.forall_mem_singleton]
    intro hk
    simp [ht] at hk
  | @token t next out rest tokens new ht _ ih =>
    rw [List.forall_mem_cons] at hi
    intro u hu
    rcases List.mem_append.1 hu with hu | hu
    · by_cases hk : t.kind.isNumbered = true
      · rw [touch_numbered hk, Except.ok.injEq, ← hon, capitalised_off hd] at ht
        rw [← ht, List.mem_singleton] at hu
        exact hu ▸ hi.1
      · intro hline
        have := touch_unnumbered ht (Bool.eq_false_iff.2 hk) u hu
        simp [hline, Kind.isNumbered] at this
    · exact ih hi.2 u hu

end Touch

namespace Compile

open Touch (cased Plain)
open Render (Numeral)

variable {s : Setting} {o : Options} {listing : Listing} {σ : Session}

/-- What the last two stages need of a numbered program in capitals. -/
theorem numbered_plain {lexed merged : List Token} {depth : Nat} {b : Branch}
    {numbered : Numbering.Numbered} {before after ready final : Session}
    (hx : Lexer.lex s.dialect listing = .ok lexed)
    (hm : Branch.convert s depth b lexed before = .ok merged after)
    (hn : Numbering.number s.dialect o.scale (whole o merged) ready = .ok numbered final) :
    ∃ start input, numbered.tokens = start :: input ∧ start.raised = start ∧ Numeral start ∧
      ∀ t ∈ input, Plain t ∧ Numeral t := by
  obtain ⟨start, second, rest, tail, K, hstart, -, htokens, hlay, hcompound⟩ :=
    numbered_layout hx hm hn
  obtain ⟨start', inner, last, hframed, hs, hl, hinner⟩ := number_convert_inside hx hm hn
  obtain ⟨rfl, htail⟩ := List.cons.inj (htokens.symm.trans hframed)
  have hends {t : Token} {v : Text} (hv : t.value = v) (hup : Text.upper v = v) : t.raised = t :=
    Token.raised_eq (by rw [hv, hup])
  refine ⟨start, _, htokens, hends hs.value (by decide), fun hk => ?_, fun t ht =>
    ⟨⟨hcompound t ht, fun hk => ?_⟩, Render.numeral_of_follows hlay.follows t ht⟩⟩
  · simp [hstart] at hk
  · rw [htail, List.mem_append, List.mem_singleton] at ht
    rcases ht with ht | rfl
    · exact absurd hk (hinner t ht).ne_eof
    · exact hends hl.value (by decide)

theorem staged_raised (hd : s.dialect.forcesCapitals = false) (ho : o.translate = false) :
    Conversion.Agrees
      (fun x y => x.1 = y.1 ∧ x.2.1 = y.2.1 ∧ y.2.2 = x.2.2.map Token.raised ∧
        ∀ t ∈ x.2.2, Numeral t)
      (staged s (cased o false) listing σ) (staged s (cased o true) listing σ) := by
  rw [staged_eq, staged_eq]
  have hsame : gathered s (cased o true) listing = gathered s (cased o false) listing := rfl
  rw [hsame]
  apply Conversion.Agrees.step
  rintro ⟨lexed, program⟩ ρ hg
  obtain ⟨merged, before, after, hx, hm, rfl⟩ := gathered_passes hg
  apply Conversion.Agrees.step
  intro numbered ρ₁ hn
  obtain ⟨start, input, htokens, hs, hnumeral, hinput⟩ := numbered_plain (o := cased o false) hx hm hn
  apply Conversion.Agrees.step
  rintro _ ρ₂ -
  rw [htokens, Touch.finish_raised hd ho hs fun t ht => (hinput t ht).1]
  cases hoff : Touch.finish s.dialect (cased o false) (start :: input) with
  | error e => exact .error e ρ₂
  | ok parsed =>
    have hparsed := Touch.finish_numeral hd hoff hnumeral fun t ht => (hinput t ht).2
    have hagree : Conversion.Agrees (fun x y => y = x.map Token.raised)
        (Conversion.ofExcept (.ok parsed : Except Failure (List Token)) ρ₂)
        (Conversion.ofExcept ((Except.ok parsed : Except Failure (List Token)).map
          (List.map Token.raised)) ρ₂) := .ok ρ₂ rfl
    apply hagree.bind
    rintro a b ρ₃ ha - rfl
    obtain ⟨rfl, -⟩ : parsed = a ∧ _ := by simpa [Conversion.ofExcept] using ha
    rw [List.length_map]
    apply Conversion.Agrees.step
    rintro _ ρ₄ -
    apply Conversion.Agrees.step
    rintro _ ρ₅ -
    exact .ok ρ₅ ⟨rfl, rfl, rfl, hparsed⟩

/-- A program compiled in capitals: the tokens written without them, put in capitals, literals apart,
and in lines with the same blanks. -/
def Capitals (off on : Compiled) : Prop :=
  on.parsed = off.parsed.map Token.raised ∧ List.Forall₂ Text.Raised off.code on.code ∧
    on.lexed = off.lexed ∧ on.infos = off.infos

/-- Capitals change nothing but letter case: a program compiles with them if and only if it does
without, and otherwise both compilations fail alike. -/
theorem ofListing_capitals (s : Setting) (o : Options) (listing : Listing) (σ : Session)
    (hd : s.dialect.forcesCapitals = false) (ho : o.translate = false) :
    Conversion.Agrees Capitals (ofListing s { o with capitals := false } listing σ)
      (ofListing s { o with capitals := true } listing σ) := by
  rw [ofListing_eq, ofListing_eq]
  apply (staged_raised hd ho).bind
  rintro ⟨lexed, numbered, parsed⟩ ⟨_, _, _⟩ ρ - - ⟨rfl, rfl, rfl, hnumeral⟩
  apply (Conversion.Agrees.ofExcept (Render.lines_raised o numbered.notes ho hnumeral)).bind
  intro code code' ρ₁ _ _ hcode
  rw [hcode.length_eq]
  apply Conversion.Agrees.step
  rintro _ ρ₂ -
  apply Conversion.Agrees.step
  rintro _ ρ₃ -
  exact .ok ρ₃ ⟨rfl, hcode, rfl, rfl⟩

/-- A variable and a text in capitals: the text stays. -/
theorem ofListing_capitals_print :
    Conversion.Agrees Capitals
        (ofListing (lone .msx) { header := false, capitals := false }
          (Listing.ofText "print a;\"b\"" "/main" 4) {})
        (ofListing (lone .msx) { header := false, capitals := true }
          (Listing.ofText "print a;\"b\"" "/main" 4) {}) ∧
      (outcome (lone .msx) { header := false, capitals := true }
        (Listing.ofText "print a;\"b\"" "/main" 4)).map Compiled.code =
        some ["10 PRINT A;\"b\"".toList] :=
  ⟨ofListing_capitals (lone .msx) { header := false } _ {} rfl rfl, by decide +kernel⟩

end Compile

end ClassicBasic
