import ClassicBasic.Proofs.Case
import ClassicBasic.Proofs.Lexical

/-!
# Texts that differ in nothing but letter case

Reading a program hardly ever looks at a character other than up to the case of ASCII letters. Two
texts that agree under a map `f` that confuses no more than these are taken for the same word by the
grammar and by the tables, and they stand for the same name and the same number.
-/

set_option autoImplicit false

namespace ClassicBasic

namespace Text

/-- Whether a map of characters confuses nothing but the cases of ASCII letters. -/
def Fine (f : Char → Char) : Prop := ∀ c c', f c = f c' → c.toLower = c'.toLower

theorem fine_id : Fine id := fun _ _ h => congrArg Char.toLower h

theorem fine_toLower : Fine Char.toLower := fun _ _ h => h

/-- What holds of ASCII in small letters as well holds of all characters so. -/
theorem apply_toLower {α : Type} {g : Char → α}
    (hg : ∀ n < 0x80, g (Char.ofNat n).toLower = g (Char.ofNat n)) (c : Char) :
    g c.toLower = g c := by
  by_cases hc : c.toNat < 0x80
  · simpa using hg c.toNat hc
  · have hupper : ¬(65 ≤ c.val ∧ c.val ≤ 90) := by
      simp only [UInt32.le_iff_toNat_le]
      intro h
      have h90 : c.toNat ≤ 90 := h.2
      omega
    have hself : c.toLower = c := dif_neg hupper
    rw [hself]

variable {f : Char → Char} {c c' x : Char} {v v' w w' : Text}

theorem Fine.apply {α : Type} {g : Char → α} (hf : Fine f)
    (hg : ∀ n < 0x80, g (Char.ofNat n).toLower = g (Char.ofNat n)) (h : f c = f c') : g c = g c' := by
  rw [← apply_toLower hg c, hf c c' h, apply_toLower hg c']

theorem map_of_map {α : Type} {g : Char → α} (hg : ∀ c c', f c = f c' → g c = g c')
    (h : v.map f = v'.map f) : v.map g = v'.map g := by
  induction v generalizing v' with
  | nil =>
    obtain rfl := List.map_eq_nil_iff.1 h.symm
    rfl
  | cons c v ih =>
    obtain ⟨c', v', rfl, hc, hv⟩ := List.map_eq_cons_iff.1 h.symm
    rw [List.map_cons, List.map_cons, hg c c' hc.symm, ih hv.symm]

theorem Fine.map {α : Type} {g : Char → α} (hf : Fine f)
    (hg : ∀ n < 0x80, g (Char.ofNat n).toLower = g (Char.ofNat n)) (h : v.map f = v'.map f) :
    v.map g = v'.map g :=
  map_of_map (fun _ _ hc => hf.apply hg hc) h

theorem length_of_map {α : Type} {g : Char → α} (h : v.map g = v'.map g) : v.length = v'.length := by
  simpa using congrArg List.length h

theorem Fine.lower (hf : Fine f) (h : v.map f = v'.map f) : lower v = lower v' :=
  hf.map (by decide) h

theorem Fine.upper (hf : Fine f) (h : v.map f = v'.map f) : upper v = upper v' :=
  hf.map (by decide) h

theorem Fine.fold (hf : Fine f) (h : v.map f = v'.map f) : fold v = fold v' :=
  hf.map (by decide) h

theorem Fine.sameLetters (hf : Fine f) (h : v.map f = v'.map f) (hw : w.map f = w'.map f) :
    sameLetters v w = sameLetters v' w' := by
  rw [sameLetters_eq, sameLetters_eq, hf.fold h, hf.fold hw]

theorem Fine.eq_sign (hf : Fine f) (h : f c = f c') (hx : isCaseless x = true) :
    c = x → c' = x := by
  rintro rfl
  simp only [isCaseless, Bool.and_eq_true, beq_iff_eq, decide_eq_true_eq, Bool.not_eq_true'] at hx
  obtain ⟨⟨⟨hfold, hascii⟩, hlower⟩, -⟩ := hx
  rw [foldChar, if_pos hascii] at hfold
  exact toLower_eq ((hf c c' h).symm.trans hfold) hlower

theorem Fine.eq_signs (hf : Fine f) (h : v.map f = v'.map f) (hw : w.all isCaseless = true) :
    v = w ↔ v' = w := by
  have hone {v v' : Text} (h : v.map f = v'.map f) (hv : v = w) : v' = w := by
    subst hv
    induction v generalizing v' with
    | nil => exact List.map_eq_nil_iff.1 h.symm
    | cons c v ih =>
      obtain ⟨c', v', rfl, hc, hv⟩ := List.map_eq_cons_iff.1 h.symm
      rw [List.all_cons, Bool.and_eq_true] at hw
      rw [hf.eq_sign hc.symm hw.1 rfl, ih hv.symm hw.2]
  exact ⟨hone h, hone h.symm⟩

theorem Fine.beq_signs (hf : Fine f) (h : v.map f = v'.map f) (hw : w.all isCaseless = true) :
    (v == w) = (v' == w) := by
  rw [Bool.eq_iff_iff, beq_iff_eq, beq_iff_eq]
  exact hf.eq_signs h hw

/-- What is trimmed off does not depend on case if the characters to trim are no letters. -/
theorem trimEnd_of_map {p : Char → Bool} (hp : ∀ c c', f c = f c' → p c = p c')
    (h : v.map f = v'.map f) : (trimEnd p v).map f = (trimEnd p v').map f := by
  have hdrop {u u' : Text} (hu : u.map f = u'.map f) :
      (u.dropWhile p).map f = (u'.dropWhile p).map f := by
    induction u generalizing u' with
    | nil =>
      obtain rfl := List.map_eq_nil_iff.1 hu.symm
      rfl
    | cons c u ih =>
      obtain ⟨c', u', rfl, hc, hrest⟩ := List.map_eq_cons_iff.1 hu.symm
      rw [List.dropWhile_cons, List.dropWhile_cons, hp c c' hc.symm]
      split
      · exact ih hrest.symm
      · exact hu
  rw [trimEnd, trimEnd, List.map_reverse, List.map_reverse]
  exact congrArg _ (hdrop (by rw [List.map_reverse, List.map_reverse, h]))

theorem Fine.all {p : Char → Bool} (hf : Fine f)
    (hp : ∀ n < 0x80, p (Char.ofNat n).toLower = p (Char.ofNat n)) (h : v.map f = v'.map f) :
    v.all p = v'.all p := by
  have := congrArg (List.all · id) (hf.map hp h)
  simpa [List.all_map] using this

theorem toLower_eq_sign_iff (hx : isCaseless x = true) : c.toLower = x ↔ c = x := by
  have hself : c.toLower.toLower = c.toLower := apply_toLower (by decide) c
  constructor
  · exact fine_toLower.eq_sign hself hx
  · exact fine_toLower.eq_sign hself.symm hx

theorem splitSign_cons (c : Char) (rest : Text) : splitSign (c :: rest) =
    if c = '-' then (true, rest) else if c = '+' then (false, rest) else (false, c :: rest) := by
  unfold splitSign
  split <;> simp_all

theorem splitSign_toLower (v : Text) :
    splitSign (v.map Char.toLower) = ((splitSign v).1, (splitSign v).2.map Char.toLower) := by
  cases v with
  | nil => rfl
  | cons c rest =>
    have hsigns : (c.toLower = '-' ↔ c = '-') ∧ (c.toLower = '+' ↔ c = '+') :=
      ⟨toLower_eq_sign_iff (by decide), toLower_eq_sign_iff (by decide)⟩
    rw [List.map_cons, splitSign_cons, splitSign_cons]
    simp only [hsigns.1, hsigns.2]
    split
    · rfl
    · split <;> rfl

theorem fold_toLower (v : Text) : fold (v.map Char.toLower) = fold v := by
  rw [fold, List.map_map]
  exact List.map_congr_left fun c _ => apply_toLower (g := foldChar) (by decide) c

end Text

namespace Grammar

open Text (apply_toLower toLower_eq_sign_iff)

variable {form : NumberForm} {c : Char} {v : Text}

theorem isDigit_toLower (c : Char) : c.toLower.isDigit = c.isDigit :=
  apply_toLower (g := Char.isDigit) (by decide) c

theorem isOneOf_toLower (letters : List Char) (c : Char) :
    isOneOf letters c.toLower = isOneOf letters c := by
  have hfold : Text.foldChar c.toLower = Text.foldChar c :=
    apply_toLower (g := Text.foldChar) (by decide) c
  rw [isOneOf, isOneOf, hfold]

theorem nameTail_toLower (typed : Bool) (v : Text) :
    nameTail typed (v.map Char.toLower) = nameTail typed v := by
  have hname (c : Char) : isNameChar c.toLower = isNameChar c :=
    apply_toLower (g := isNameChar) (by decide) c
  have hsigil (c : Char) : isTypeSigil c.toLower = isTypeSigil c :=
    apply_toLower (g := isTypeSigil) (by decide) c
  fun_induction nameTail typed v with
  | case1 => rfl
  | case2 c => simp [nameTail, hname, hsigil]
  | case3 c rest hr ih =>
    cases rest with
    | nil => exact absurd rfl hr
    | cons e rest => simpa [nameTail, hname] using congrArg (isNameChar c && ·) ih

theorem isName_toLower (typed : Bool) (v : Text) :
    isName typed (v.map Char.toLower) = isName typed v := by
  cases v with
  | nil => rfl
  | cons c rest =>
    have hletter : isLetter c.toLower = isLetter c := apply_toLower (g := isLetter) (by decide) c
    rw [List.map_cons, isName, isName, hletter, nameTail_toLower]

theorem dropDigits_toLower (v : Text) :
    (v.map Char.toLower).dropWhile Char.isDigit = (v.dropWhile Char.isDigit).map Char.toLower := by
  rw [List.dropWhile_map, show Char.isDigit ∘ Char.toLower = Char.isDigit from funext isDigit_toLower]

theorem numberEnd_toLower (hs : form.suffixes.all Text.isCaseless = true) (v : Text) :
    numberEnd form (v.map Char.toLower) = numberEnd form v := by
  match v with
  | [] => rfl
  | [c] =>
    rw [List.map_singleton, numberEnd, numberEnd, Bool.eq_iff_iff, List.contains_iff_mem,
      List.contains_iff_mem]
    constructor <;> intro h
    · have hself : c = c.toLower := (toLower_eq_sign_iff (List.all_eq_true.1 hs _ h)).1 rfl
      rwa [hself]
    · rwa [(toLower_eq_sign_iff (List.all_eq_true.1 hs _ h)).2 rfl]
  | _ :: _ :: _ => rfl

theorem exponentTail_cons (c : Char) (rest : Text) : exponentTail form (c :: rest) =
    if isOneOf form.exponents c then
      numberEnd form ((Text.splitSign rest).2.dropWhile Char.isDigit)
    else numberEnd form (c :: rest) := by
  unfold exponentTail
  dsimp only
  congr 1
  cases rest with
  | nil => rfl
  | cons e rest =>
    rw [Text.splitSign_cons]
    split <;> simp_all

theorem exponentTail_toLower (hs : form.suffixes.all Text.isCaseless = true) (v : Text) :
    exponentTail form (v.map Char.toLower) = exponentTail form v := by
  cases v with
  | nil => rfl
  | cons c rest =>
    rw [List.map_cons, exponentTail_cons, exponentTail_cons, isOneOf_toLower,
      ← List.map_cons (f := Char.toLower), numberEnd_toLower hs, Text.splitSign_toLower,
      dropDigits_toLower, numberEnd_toLower hs]

/-- What is behind the point and the digits that a text starts with, or the text. -/
def pastPoint : Text → Text
  | '.' :: fraction => fraction.dropWhile Char.isDigit
  | tail => tail

theorem pastPoint_cons (c : Char) (rest : Text) :
    pastPoint (c :: rest) = if c = '.' then rest.dropWhile Char.isDigit else c :: rest := by
  unfold pastPoint
  split <;> simp_all

theorem pastPoint_toLower (v : Text) :
    pastPoint (v.map Char.toLower) = (pastPoint v).map Char.toLower := by
  cases v with
  | nil => rfl
  | cons c rest =>
    have hpoint : c.toLower = '.' ↔ c = '.' := toLower_eq_sign_iff (by decide)
    rw [List.map_cons, pastPoint_cons, pastPoint_cons]
    simp only [hpoint]
    split
    · exact dropDigits_toLower rest
    · rfl

/-- A numeral that does not start with its point starts with a digit. -/
theorem isDecimal_cons {rest : Text} (h : c = '.' → rest = []) : isDecimal form (c :: rest) =
    (c.isDigit && exponentTail form (pastPoint (rest.dropWhile Char.isDigit))) := by
  unfold isDecimal
  split
  · rename_i heq
    cases heq
  · rename_i heq
    cases heq
    cases h rfl
  · rename_i heq
    cases heq
    unfold pastPoint
    split <;> simp_all

theorem isDecimal_toLower (hs : form.suffixes.all Text.isCaseless = true) (v : Text) :
    isDecimal form (v.map Char.toLower) = isDecimal form v := by
  cases v with
  | nil => rfl
  | cons c rest =>
    have hpoint : c.toLower = '.' ↔ c = '.' := toLower_eq_sign_iff (by decide)
    by_cases hc : c = '.' → rest = []
    · rw [List.map_cons, isDecimal_cons hc, isDecimal_cons fun h => by simp [hc (hpoint.1 h)],
        isDigit_toLower, dropDigits_toLower, pastPoint_toLower, exponentTail_toLower hs]
    · obtain ⟨rfl, hne⟩ := Classical.not_imp.1 hc
      obtain ⟨e, rest, rfl⟩ := List.exists_cons_of_ne_nil hne
      change (e.toLower.isDigit && exponentTail form
        ((rest.map Char.toLower).dropWhile Char.isDigit)) = _
      rw [isDigit_toLower, dropDigits_toLower, exponentTail_toLower hs]
      rfl

theorem isBased_toLower (v : Text) : isBased form (v.map Char.toLower) = isBased form v := by
  have hcons (c e : Char) (rest : Text) : isBased form (c :: e :: rest) = (c == '&' &&
      (rest != [] && form.bases.any fun b => isOneOf [b.1] e && rest.all (isOneOf b.2))) := by
    unfold isBased
    split <;> simp_all
  match v with
  | [] => rfl
  | [c] => 
    unfold isBased
    split <;> split <;> simp_all
  | c :: e :: rest =>
    have hamp : (c.toLower == '&') = (c == '&') := by
      rw [Bool.eq_iff_iff, beq_iff_eq, beq_iff_eq, toLower_eq_sign_iff (by decide)]
    have hnil : (rest.map Char.toLower != []) = (rest != []) := by cases rest <;> rfl
    have hall (letters : List Char) :
        (rest.map Char.toLower).all (isOneOf letters) = rest.all (isOneOf letters) := by
      rw [List.all_map]
      congr 1
      exact funext (isOneOf_toLower letters)
    rw [List.map_cons, List.map_cons, hcons, hcons, hamp, hnil]
    simp only [isOneOf_toLower, hall]

theorem isBaseMark_toLower (v : Text) : isBaseMark form (v.map Char.toLower) = isBaseMark form v := by
  have hamp (c : Char) : (c.toLower == '&') = (c == '&') := by
    rw [Bool.eq_iff_iff, beq_iff_eq, beq_iff_eq, toLower_eq_sign_iff (by decide)]
  have hone (c : Char) : isBaseMark form [c] = (c == '&') := by
    unfold isBaseMark
    split <;> simp_all
  have htwo (c e : Char) : isBaseMark form [c, e] =
      (c == '&' && isOneOf (form.bases.map Prod.fst) e) := by
    unfold isBaseMark
    split <;> simp_all
  match v with
  | [] => rfl
  | [c] => rw [List.map_singleton, hone, hone, hamp]
  | [c, e] => rw [List.map_cons, List.map_singleton, htwo, htwo, hamp, isOneOf_toLower]
  | _ :: _ :: _ :: _ =>
    unfold isBaseMark
    split <;> simp_all

theorem isNumbered_toLower (word v : Text) :
    isNumbered word (v.map Char.toLower) = isNumbered word v := by
  have hsame (u : Text) : Text.sameLetters word (u.map Char.toLower) = Text.sameLetters word u := by
    rw [Text.sameLetters_eq, Text.sameLetters_eq, Text.fold_toLower]
  rw [isNumbered, isNumbered, hsame, List.getLast?_map, ← List.map_dropLast, hsame]
  cases v.getLast? with
  | none => rfl
  | some c => simp [isDigit_toLower]

theorem after_toLower {lead : Text} (hl : lead.all Text.isCaseless = true) (v : Text) :
    after lead (v.map Char.toLower) = (after lead v).map (List.map Char.toLower) := by
  have hprefix : lead.isPrefixOf (v.map Char.toLower) = lead.isPrefixOf v := by
    induction lead generalizing v with
    | nil => rfl
    | cons x lead ih =>
      rw [List.all_cons, Bool.and_eq_true] at hl
      cases v with
      | nil => rfl
      | cons c v =>
        have hsign : (x == c.toLower) = (x == c) := by
          rw [Bool.eq_iff_iff, beq_iff_eq, beq_iff_eq, eq_comm, toLower_eq_sign_iff hl.1, eq_comm]
        rw [List.map_cons, List.isPrefixOf, List.isPrefixOf, hsign, ih hl.2]
  rw [after, after, hprefix, ← List.map_drop]
  split <;> rfl

end Grammar

/-- Whether what stands in a shape beside letters and digits is no letter. -/
def Shape.isPlain : Shape → Bool
  | .name lead _ => lead.all Text.isCaseless
  | .number form => form.suffixes.all Text.isCaseless
  | _ => true

theorem Shape.accepts_toLower {s : Shape} (hs : s.isPlain = true) (v : Text) :
    s.accepts (v.map Char.toLower) = s.accepts v := by
  have hsame (w : Text) : Text.sameLetters w (v.map Char.toLower) = Text.sameLetters w v := by
    rw [Text.sameLetters_eq, Text.sameLetters_eq, Text.fold_toLower]
  cases s with
  | lineEnds =>
    have hreturn (c : Char) : (c.toLower == '\r') = (c == '\r') := by
      rw [Bool.eq_iff_iff, beq_iff_eq, beq_iff_eq, Text.toLower_eq_sign_iff (by decide)]
    have hreturns : (v.map Char.toLower).all (· == '\r') = v.all (· == '\r') := by
      rw [List.all_map]
      exact congrArg v.all (funext hreturn)
    rw [accepts, accepts, hreturns]
    cases v <;> rfl
  | blank =>
    have hblank (c : Char) : (c.toLower == ' ' || c.toLower == '\t' || c.toLower == '\x0c') =
        (c == ' ' || c == '\t' || c == '\x0c') :=
      Text.apply_toLower (g := fun c => c == ' ' || c == '\t' || c == '\x0c') (by decide) c
    cases v with
    | nil => rfl
    | cons c v =>
      cases v with
      | nil => exact hblank c
      | cons _ _ => rfl
  | words plain numbered => simp only [accepts, hsame, Grammar.isNumbered_toLower]
  | name lead typed =>
    rw [accepts, accepts, Grammar.after_toLower hs]
    cases Grammar.after lead v with
    | none => rfl
    | some rest => exact Grammar.isName_toLower typed rest
  | number form => rw [accepts, accepts, Grammar.isDecimal_toLower hs, Grammar.isBased_toLower]
  | baseMark form => exact Grammar.isBaseMark_toLower v

namespace Dialect

variable {d : Dialect} {f : Char → Char} {v v' : Text}

theorem grammar_plain (d : Dialect) : ∀ r ∈ d.grammar, r.shape.isPlain = true := by
  cases d <;> decide

theorem classify_toLower (d : Dialect) (v : Text) : d.classify (v.map Char.toLower) = d.classify v := by
  have hfind {rules : List Rule} (h : ∀ r ∈ rules, r.shape.isPlain = true) :
      rules.find? (fun r => r.shape.accepts (v.map Char.toLower)) =
        rules.find? fun r => r.shape.accepts v := by
    induction rules with
    | nil => rfl
    | cons r rules ih =>
      rw [List.forall_mem_cons] at h
      rw [List.find?_cons, List.find?_cons, Shape.accepts_toLower h.1, ih h.2]
  rw [classify, hfind d.grammar_plain, classify]

theorem classify_like (d : Dialect) (hf : Text.Fine f) (h : v.map f = v'.map f) :
    d.classify v = d.classify v' := by
  rw [← classify_toLower d v, Text.map_of_map hf h, classify_toLower]

theorem isReserved_like (d : Dialect) (hf : Text.Fine f) (h : v.map f = v'.map f) :
    d.isReserved v = d.isReserved v' := by
  rw [isReserved, isReserved, hf.upper h]

theorem isStopWord_like (d : Dialect) (hf : Text.Fine f) (h : v.map f = v'.map f) :
    d.isStopWord v = d.isStopWord v' := by
  rw [isStopWord, isStopWord, hf.upper h]

theorem isTight_like (d : Dialect) (hf : Text.Fine f) (h : v.map f = v'.map f) :
    d.isTight v = d.isTight v' := by
  have hsymbols : ∀ w ∈ d.symbols, w.all Text.isCaseless = true := by cases d <;> decide
  have hcontains : d.symbols.contains v = d.symbols.contains v' := by
    rw [Bool.eq_iff_iff, List.contains_iff_mem, List.contains_iff_mem]
    constructor <;> intro hm
    · rwa [(hf.eq_signs h (hsymbols _ hm)).1 rfl]
    · rwa [(hf.eq_signs h (hsymbols _ hm)).2 rfl]
  have hne : (v != "#".toList) = (v' != "#".toList) := congrArg not (hf.beq_signs h (by decide))
  rw [isTight, isTight, hf.beq_signs h (by decide), hf.beq_signs h (by decide), hcontains, hne]

theorem isIdentifier_like (hf : Text.Fine f) (h : v.map f = v'.map f) :
    isIdentifier v = isIdentifier v' := by
  rw [isIdentifier, isIdentifier, ← Grammar.isName_toLower, Text.map_of_map hf h,
    Grammar.isName_toLower]

/-- Whether these are the kinds of the characters of a short name: a letter or no letter, and a letter or
digit or none of them. -/
def isShortForm : List (Bool × Bool) → Bool
  | [a] => a.1
  | [a, b] => a.1 && b.2
  | _ => false

theorem isShortName_eq (v : Text) :
    isShortName v = isShortForm (v.map fun c => (c.isAlpha, c.isAlphanum)) := by
  rcases v with - | ⟨a, - | ⟨b, - | ⟨c, v⟩⟩⟩ <;> rfl

theorem isShortName_like (hf : Text.Fine f) (h : v.map f = v'.map f) :
    isShortName v = isShortName v' := by
  rw [isShortName_eq, isShortName_eq, hf.map (by decide) h]

end Dialect

namespace Text

variable {f : Char → Char} {v v' : Text}

theorem readInt_like (hf : Fine f) (h : v.map f = v'.map f) : readInt v = readInt v' := by
  have hvalue (c : Char) : digitValue c.toLower = digitValue c :=
    apply_toLower (g := digitValue) (by decide) c
  have hnat (base n : Nat) (u : Text) :
      natInBase base n (u.map Char.toLower) = natInBase base n u := by
    induction u generalizing n with
    | nil => rfl
    | cons c u ih =>
      rw [List.map_cons, natInBase, natInBase, hvalue]
      cases digitValue c with
      | none => rfl
      | some d => simp only [ih]
  have hlower (u : Text) : readInt (u.map Char.toLower) = readInt u := by
    unfold readInt
    simp only [splitSign_toLower, List.map_eq_nil_iff, hnat]
  rw [← hlower v, map_of_map hf h, hlower]

end Text

namespace Numbering

theorem isNumber_like {f : Char → Char} {v v' : Text} (hf : Text.Fine f) (h : v.map f = v'.map f) :
    isNumber v = isNumber v' := by
  have hempty : v.isEmpty = v'.isEmpty := by
    rw [← List.isEmpty_map (f := f), h, List.isEmpty_map]
  rw [isNumber, isNumber, hempty, hf.all (by decide) h]

end Numbering

namespace Define

theorem isInvocable_like {f : Char → Char} {v v' : Text} (hf : Text.Fine f)
    (h : v.map f = v'.map f) : isInvocable v = isInvocable v' := by
  have hempty : (v != []) = (v' != []) := congrArg not (hf.beq_signs h rfl)
  rw [isInvocable, isInvocable, hf.beq_signs h (by decide), hempty, hf.lower h]

end Define

end ClassicBasic
