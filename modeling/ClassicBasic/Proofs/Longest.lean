import ClassicBasic.Proofs.Fenced
import ClassicBasic.Proofs.Numerals

/-!
# The longest token

Every start of a token is a token, so a candidate that stops growing where the grammar stops accepting
is the longest one: what is scanned is the longest text that the grammar accepts, and a character is
not recognised only if no text from it on is accepted.
-/

set_option autoImplicit false

namespace ClassicBasic

variable {d : Dialect} {c : Char} {t v w p : Text} {k : Kind}

/-! ### Starts of tokens -/

namespace Grammar

theorem nameTail_prefix {typed : Bool} (h : nameTail typed v = true) (hp : t <+: v) :
    nameTail typed t = true := by
  induction v generalizing t with
  | nil => rwa [List.prefix_nil.1 hp]
  | cons c v ih =>
    rcases List.prefix_cons_iff.1 hp with rfl | ⟨t, rfl, ht⟩
    · rfl
    · cases v with
      | nil =>
        obtain rfl := List.prefix_nil.1 ht
        exact h
      | cons x v =>
        simp only [nameTail, Bool.and_eq_true] at h
        have hmore := ih h.2 ht
        cases t with
        | nil => simp [nameTail, h.1]
        | cons y t => simpa [nameTail, h.1] using hmore

theorem isName_prefix {typed : Bool} (h : isName typed v = true) (hp : t <+: v) (ht : t ≠ []) :
    isName typed t = true := by
  obtain ⟨c, t, rfl⟩ := List.exists_cons_of_ne_nil ht
  obtain ⟨more, rfl⟩ := hp
  rw [List.cons_append, isName, Bool.and_eq_true] at h
  rw [isName, h.1, nameTail_prefix h.2 (List.prefix_append t more)]
  rfl

theorem eq_append_of_after {lead name : Text} (h : after lead v = some name) : v = lead ++ name := by
  unfold after at h
  split at h
  · rename_i hp
    cases h
    exact (List.prefix_iff_eq_append.1 (List.isPrefixOf_iff_prefix.1 hp)).symm
  · cases h

end Grammar

/-- What has the letters of a word starts with the letters of its starts. -/
theorem Text.sameLetters_prefix (h : Text.sameLetters w v = true) (hp : t <+: v) :
    Text.sameLetters (w.take t.length) t = true := by
  obtain ⟨more, rfl⟩ := hp
  simp only [Text.sameLetters_eq, beq_iff_eq, Text.fold, List.map_append] at h ⊢
  rw [List.map_take, h, ← List.length_map Text.foldChar, List.take_left]

namespace Grammar

theorem isName_letters (hv : v ≠ []) (h : ∀ c ∈ v, isLetter c = true) : isName true v = true := by
  have htail {v : Text} (h : ∀ c ∈ v, isLetter c = true) : nameTail true v = true := by
    induction v with
    | nil => rfl
    | cons c v ih =>
      obtain ⟨hc, hv⟩ := List.forall_mem_cons.1 h
      cases v with
      | nil => simp [nameTail, isNameChar, hc]
      | cons x v => simp [nameTail, isNameChar, hc, ih hv]
  obtain ⟨c, v, rfl⟩ := List.exists_cons_of_ne_nil hv
  obtain ⟨hc, hv⟩ := List.forall_mem_cons.1 h
  rw [isName, hc, htail hv]
  rfl

theorem all_isLetter_of_sameLetters (h : Text.sameLetters w v = true) (hw : w.all isLetter = true) :
    ∀ c ∈ v, isLetter c = true := by
  rw [Text.sameLetters_eq, beq_iff_eq, Text.fold, Text.fold] at h
  intro c hc
  have hmem : Text.foldChar c ∈ w.map Text.foldChar := h ▸ List.mem_map_of_mem hc
  obtain ⟨x, hx, he⟩ := List.mem_map.1 hmem
  have hletter := List.all_eq_true.1 hw x hx
  rwa [isLetter, he] at hletter

end Grammar

namespace Dialect

open Grammar

theorem isSome_classify_iff : (d.classify v).isSome = true ↔ ∃ r ∈ d.grammar, r.shape.accepts v = true := by
  rw [classify, Option.isSome_map, List.find?_isSome]

/-- Whether a text with the letters of `p` is accepted because `p` is a word or made of letters. -/
def admits (rules : List Rule) (p : Text) : Bool :=
  p.all isLetter || rules.any fun r =>
    match r.shape with
    | .words plain _ => plain.contains p
    | _ => false

theorem isSome_classify_of_admits (hp : admits d.grammar p = true) (h : Text.sameLetters p t = true)
    (ht : t ≠ []) : (d.classify t).isSome = true := by
  rw [isSome_classify_iff]
  rw [admits, Bool.or_eq_true] at hp
  rcases hp with hp | hp
  · refine ⟨_, identifier_rule d, ?_⟩
    simpa [Shape.accepts, after] using isName_letters ht (all_isLetter_of_sameLetters h hp)
  · obtain ⟨r, hr, hw⟩ := List.any_eq_true.1 hp
    refine ⟨r, hr, ?_⟩
    split at hw
    · rename_i plain numbered hs
      rw [hs, Shape.accepts, Bool.or_eq_true]
      exact .inl (List.any_eq_true.2 ⟨p, List.contains_iff_mem.1 hw, h⟩)
    · cases hw

/-- What a grammar has to accept for all starts of what the shape accepts to be accepted: the starts
of its words, and the lead of its names. -/
def startsWell (rules : List Rule) (form : NumberForm) : Shape → Bool
  | .lineEnds | .blank => true
  | .words plain numbered =>
    (plain ++ numbered).all fun w => w.all isLetter || w.inits.all (admits rules)
  | .name lead _ => lead.length ≤ 1 && admits rules lead
  | .number f | .baseMark f => f = form

theorem grammar_startsWell (d : Dialect) :
    ∀ r ∈ d.grammar, startsWell d.grammar d.numberForm r.shape = true := by
  rw [grammar_spelled, numberForm_spelled]
  cases d <;> decide +kernel

theorem isSome_classify_start (hw : (w.all isLetter || w.inits.all (admits d.grammar)) = true)
    (h : Text.sameLetters w v = true) (hp : t <+: v) (ht : t ≠ []) : (d.classify t).isSome = true := by
  refine isSome_classify_of_admits ?_ (Text.sameLetters_prefix h hp) ht
  rw [Bool.or_eq_true] at hw
  rcases hw with hw | hw
  · rw [admits, Bool.or_eq_true]
    exact .inl (List.all_eq_true.2 fun c hc => List.all_eq_true.1 hw c (List.mem_of_mem_take hc))
  · exact List.all_eq_true.1 hw _ ((List.mem_inits _ _).2 (List.take_prefix _ _))

theorem isSome_classify_prefix (h : (d.classify v).isSome = true) (hp : t <+: v) (ht : t ≠ []) :
    (d.classify t).isSome = true := by
  have number (hv : d.classify v = some .number ∨ d.classify v = some .baseMark) :
      (d.classify t).isSome = true := by
    obtain ⟨k, -, hk⟩ : ∃ k, isNumeral k ∧ d.classify t = some k :=
      hv.elim (fun hv => numeral_prefix (.inl rfl) hv hp ht)
        fun hv => numeral_prefix (.inr (.inl rfl)) hv hp ht
    rw [hk]
    rfl
  obtain ⟨r, hr, ha⟩ := isSome_classify_iff.1 h
  have hwell := grammar_startsWell d r hr
  cases hs : r.shape with
  | lineEnds =>
    rw [hs] at ha
    refine isSome_classify_iff.2 ⟨r, hr, ?_⟩
    simp only [hs, Shape.accepts, Bool.and_eq_true, List.all_eq_true] at ha ⊢
    exact ⟨by simpa using ht, fun c hc => ha.2 c (hp.subset hc)⟩
  | blank =>
    simp only [hs, Shape.accepts] at ha
    split at ha
    · rename_i c
      rcases List.prefix_cons_iff.1 hp with rfl | ⟨t, rfl, hnil⟩
      · exact absurd rfl ht
      · rwa [List.prefix_nil.1 hnil]
    · cases ha
  | words plain numbered =>
    rw [hs, startsWell, List.all_append, Bool.and_eq_true] at hwell
    rw [hs, Shape.accepts, Bool.or_eq_true] at ha
    rcases ha with ha | ha
    · obtain ⟨w, hw, hsame⟩ := List.any_eq_true.1 ha
      exact isSome_classify_start (List.all_eq_true.1 hwell.1 w hw) hsame hp ht
    · obtain ⟨w, hw, hnumbered⟩ := List.any_eq_true.1 ha
      have hstart := List.all_eq_true.1 hwell.2 w hw
      rw [isNumbered, Bool.or_eq_true] at hnumbered
      rcases hnumbered with hsame | hdigit
      · exact isSome_classify_start hstart hsame hp ht
      · split at hdigit
        · rename_i c hc
          rw [Bool.and_eq_true] at hdigit
          obtain ⟨init, rfl⟩ := List.getLast?_eq_some_iff.1 hc
          rw [List.dropLast_concat] at hdigit
          -- the digit is not part of a proper start
          rcases List.prefix_concat_iff.1 hp with rfl | hp
          · exact h
          · exact isSome_classify_start hstart hdigit.2 hp ht
        · cases hdigit
  | name lead typed =>
    rw [hs, startsWell, Bool.and_eq_true, decide_eq_true_eq] at hwell
    have hname : ∃ name, v = lead ++ name ∧ isName typed name = true := by
      simp only [hs, Shape.accepts] at ha
      split at ha
      · rename_i name hn
        exact ⟨name, eq_append_of_after hn, ha⟩
      · cases ha
    obtain ⟨name, rfl, hname⟩ := hname
    cases lead with
    | nil =>
      refine isSome_classify_iff.2 ⟨r, hr, ?_⟩
      simpa [hs, Shape.accepts, after] using isName_prefix hname hp ht
    | cons x lead =>
      obtain rfl : lead = [] := by simpa using hwell.1
      rcases List.prefix_cons_iff.1 hp with rfl | ⟨t, rfl, hmore⟩
      · exact absurd rfl ht
      · change t <+: name at hmore
        cases t with
        | nil => exact isSome_classify_of_admits hwell.2 (Text.sameLetters_self _) ht
        | cons y t =>
          refine isSome_classify_iff.2 ⟨r, hr, ?_⟩
          simpa [hs, Shape.accepts, after] using isName_prefix hname hmore (by simp)
  | number form =>
    rw [hs, startsWell, decide_eq_true_eq] at hwell
    rw [hs, Shape.accepts, Bool.or_eq_true, hwell] at ha
    exact number (.inl (ha.elim classify_decimal classify_based))
  | baseMark form =>
    rw [hs, startsWell, decide_eq_true_eq] at hwell
    rw [hs, Shape.accepts, hwell] at ha
    exact number (.inr (classify_baseMark ha))

end Dialect

/-! ### What is scanned -/

namespace Lexer

open Glyph (endMark)

variable {g : Glyph} {rest left : List Glyph}

theorem munch_stops {α : Type} (char : α → Char) (taken : Text) (kind : Kind) (l : List α) {x : α}
    {more : List α} (h : (munch char d taken kind l).2.2 = x :: more) :
    d.classify ((munch char d taken kind l).1 ++ [char x]) = none := by
  induction l generalizing taken kind with
  | nil => cases h
  | cons y l ih =>
    simp only [munch] at h ⊢
    split at h
    · rename_i k hk
      exact ih _ _ h
    · rename_i hk
      obtain ⟨rfl, -⟩ := List.cons.inj h
      exact hk

theorem scan_stops {t : Token} {x : Glyph} {more : List Glyph} (h : scan d g rest = .ok (t, x :: more)) :
    d.classify (t.value ++ [x.char]) = none := by
  unfold scan at h
  split at h
  · cases h
  · dsimp only at h
    split at h
    · cases h
    · simp only [Except.ok.injEq, Prod.mk.injEq] at h
      obtain ⟨rfl, hleft⟩ := h
      exact munch_stops Glyph.char _ _ _ hleft

/-- Whether a token is the longest that the grammar accepts at the start of an input, and what is left
of the input. -/
structure Longest (d : Dialect) (g : Glyph) (rest : List Glyph) (t : Token) (left : List Glyph) :
    Prop where
  taken : ∃ span, g :: rest = span ++ left ∧ t.value = span.map Glyph.char
  place : t.pos = g.pos
  accepted : d.classify t.value = some t.kind
  longest : ∀ p, p <+: (g :: rest).map Glyph.char → (d.classify p).isSome = true →
    p.length ≤ t.value.length

/-- What scanning comes to: the longest token, which leaves no trace if it is a blank, or a character that
is not recognised because no text from it on is accepted. -/
inductive Scanned (d : Dialect) (g : Glyph) (rest : List Glyph) :
    Except Failure (Token × List Glyph) → Prop
  | token {t : Token} {left : List Glyph} (longest : Longest d g rest t left)
      (skipped : t.kind = .spaces → ∀ closing last, closing ≤ rest.length →
        lexFrom d closing last (g :: rest) = lexFrom d closing last left) :
      Scanned d g rest (.ok (t, left))
  | unrecognised (none : ∀ p, p <+: (g :: rest).map Glyph.char → d.classify p = none) :
      Scanned d g rest (.error (.located (.unrecognised [g.char]) g.pos))

theorem longest_of_scan {t : Token} (h : scan d g rest = .ok (t, left)) : Longest d g rest t left := by
  obtain ⟨span, hsplit, hne, hv, hpos⟩ := scan_span h
  have hc := scan_classified h
  refine ⟨⟨span, hsplit, hv⟩, hpos, hc, fun p hp hsome => ?_⟩
  -- the token with the next character would be accepted
  by_contra hlt
  rw [hsplit, List.map_append, ← hv] at hp
  cases left with
  | nil =>
    have hlen := hp.length_le
    rw [List.map_nil, List.append_nil] at hlen
    exact hlt hlen
  | cons x more =>
    have hstop := scan_stops h
    have hnext : t.value ++ [x.char] <+: p := by
      refine List.prefix_of_prefix_length_le ?_ hp (by simpa using Nat.succ_le_of_lt (Nat.lt_of_not_le hlt))
      simp
    have := Dialect.isSome_classify_prefix hsome hnext (by simp)
    rw [hstop] at this
    cases this

theorem unrecognised_of_scan {e : Failure} (hf : ∃ u ∈ g :: rest, u.char ≠ endMark)
    (h : scan d g rest = .error e) : Scanned d g rest (.error e) := by
  have htold := (@scan_meets d _ rest g (List.suffix_refl _) hf).told h
  unfold scan at h
  split at h
  · rename_i hc
    cases h
    refine .unrecognised fun p hp => ?_
    rcases List.prefix_cons_iff.1 hp with rfl | ⟨q, rfl, hq⟩
    · exact Dialect.classify_nil d
    · by_contra hsome
      have hfirst := Dialect.isSome_classify_prefix (Option.ne_none_iff_isSome.1 hsome)
        (show [g.char] <+: g.char :: q from ⟨q, rfl⟩) (by simp)
      rw [hc] at hfirst
      cases hfirst
  · dsimp only at h
    split at h
    · cases h
      exact absurd rfl htold.1
    · cases h

end Lexer

/-- What is left of the listing of a text in front of its last line does not run out in line ends. -/
theorem Listing.exists_visible {text file : Text} {tab : Int} {g : Glyph} {rest : List Glyph}
    (hs : g :: rest <:+ (ofText text file tab).tail.flatMap Glyph.ofLine)
    (hr : eofText.length < rest.length) : ∃ u ∈ g :: rest, u.char ≠ Glyph.endMark := by
  obtain ⟨body, last, hbody, hlast⟩ : ∃ body last, (ofText text file tab).tail = body ++ [last] ∧
      last.text = eofText := ⟨_, _, rfl, rfl⟩
  have hline : ∃ u more, Glyph.ofLine last = u :: more ∧ u.char = 'E' ∧ more.length = 3 := by
    unfold Glyph.ofLine
    rw [hlast]
    exact ⟨_, _, rfl, rfl, rfl⟩
  obtain ⟨u, more, heq, hchar, hlen⟩ := hline
  rw [hbody, List.flatMap_append, List.flatMap_singleton, heq] at hs
  have hin : u :: more <:+ g :: rest := by
    refine List.suffix_of_suffix_length_le (List.suffix_append _ _) hs ?_
    rw [List.length_cons, List.length_cons, hlen]
    exact Nat.succ_le_succ (Nat.le_of_lt (Nat.lt_of_le_of_lt (by decide) hr))
  refine ⟨u, hin.mem List.mem_cons_self, ?_⟩
  rw [hchar]
  decide

/-- The starts of tokens are tokens, so the lexer scans the longest one, of which only a blank leaves
no trace; or nothing is accepted there, and the first character is not recognised. That holds of every
input in which a line is not blank, so of all that a listing has in front of its last line. -/
theorem Lexer.scan_longest (d : Dialect) :
    (∀ v t : Text, (d.classify v).isSome = true → t <+: v → t ≠ [] → (d.classify t).isSome = true) ∧
    (∀ (g : Glyph) (rest : List Glyph), (∃ u ∈ g :: rest, u.char ≠ Glyph.endMark) →
      Scanned d g rest (scan d g rest)) ∧
    ∀ (text file : Text) (tab : Int) (g : Glyph) (rest : List Glyph),
      g :: rest <:+ (Listing.ofText text file tab).tail.flatMap Glyph.ofLine →
      Listing.eofText.length < rest.length → ∃ u ∈ g :: rest, u.char ≠ Glyph.endMark := by
  refine ⟨fun v t h hp ht => Dialect.isSome_classify_prefix h hp ht, fun g rest hf => ?_,
    fun text file tab g rest => Listing.exists_visible⟩
  cases hs : scan d g rest with
  | error e => exact unrecognised_of_scan hf hs
  | ok found => exact .token (longest_of_scan hs) fun hk closing last hr => lexFrom_skip hr hs hk

/-- A numeral may end with the sign of an exponent that has no digits. -/
theorem Lexer.scan_bare_exponent :
    let g : Glyph := ⟨'1', .onLine 1 1 "1.5E+X" "", false⟩
    let rest := Glyph.spread 1 "1.5E+X" "" 2 ".5E+X" ++ Glyph.spread 2 "EOF" "" 1 "EOF"
    let number : Token := ⟨.number, "1.5E+", g.pos⟩
    (Dialect.msx.classify "1.5E").isSome = true ∧ (∃ u ∈ g :: rest, u.char ≠ Glyph.endMark) ∧
      Scanned .msx g rest (.ok (number, rest.drop 4)) := by
  intro g rest number
  have longest := scan_longest .msx
  have hread : (Dialect.msx.classify "1.5E+").isSome = true := by
    rw [Dialect.classify_spelled]
    decide
  have hstart := longest.1 "1.5E+" "1.5E" hread (by decide) (by decide)
  have hvisible := longest.2.2 "1.5E+X" "" 4 g rest ⟨[], by decide⟩ (by decide)
  have hscan : scan .msx g rest = .ok (number, rest.drop 4) := by decide +kernel
  exact ⟨hstart, hvisible, hscan ▸ longest.2.1 g rest hvisible⟩

end ClassicBasic
