import ClassicBasic.Proofs.Assignment
import ClassicBasic.Proofs.Filled
import ClassicBasic.Proofs.Finish
import ClassicBasic.Proofs.Visible

/-!
# What is shown on the lines of a program

Code that stands on a line of a merged program stays on it: numbering gives variables and placeholders
other values that are seen, and of THEN GOTO the last touches drop one word only.
-/

set_option autoImplicit false

namespace ClassicBasic

/-- Whether a token is no line end and no number of a line, and is seen. -/
structure Token.Shown (t : Token) : Prop where
  line : t.kind ≠ .newline
  number : t.kind ≠ .lineNumber
  visible : t.Visible

variable {d : Dialect} {P : Token → Prop} {held more : Prop} {l rest new : List Token} {t u : Token}

/-- Whether each line that ends has a token with a property; `held` says so of what is in front of the
list on its first line. -/
def Occupied (P : Token → Prop) (held : Prop) : List Token → Prop
  | [] => True
  | t :: rest =>
    if t.kind = .newline then held ∧ Occupied P False rest else Occupied P (held ∨ P t) rest

theorem occupied_newline (ht : t.kind = .newline) :
    Occupied P held (t :: rest) ↔ held ∧ Occupied P False rest := by
  rw [Occupied, if_pos ht]

theorem occupied_cons (ht : t.kind ≠ .newline) :
    Occupied P held (t :: rest) ↔ Occupied P (held ∨ P t) rest := by
  rw [Occupied, if_neg ht]

theorem Occupied.mono (h : Occupied P held l) (hm : held → more) : Occupied P more l := by
  induction l generalizing held more with
  | nil => trivial
  | cons t l ih =>
    by_cases ht : t.kind = .newline
    · rw [occupied_newline ht] at h ⊢
      exact ⟨hm h.1, h.2⟩
    · rw [occupied_cons ht] at h ⊢
      exact ih h (.imp_left hm)

theorem occupied_append (hl : ∀ t ∈ l, t.kind ≠ .newline) :
    Occupied P held (l ++ rest) ↔ Occupied P (held ∨ ∃ t ∈ l, P t) rest := by
  induction l generalizing held with
  | nil => simp
  | cons t l ih =>
    obtain ⟨ht, hl⟩ := List.forall_mem_cons.1 hl
    rw [List.cons_append, occupied_cons ht, ih hl, List.exists_mem_cons_iff, or_assoc]

/-- Lines of an output (last token first) that hold code, in front of others. -/
theorem occupied_of_filled {out : List Token} (h : Merge.Filled out)
    (hs : ∀ t ∈ out, t.Solid → P t) (hr : Occupied P (Merge.Held out) rest) :
    Occupied P False (out.reverse ++ rest) := by
  induction out generalizing rest with
  | nil => exact hr
  | cons t out ih =>
    obtain ⟨ht, hs⟩ := List.forall_mem_cons.1 hs
    rw [List.reverse_cons, List.append_assoc, List.singleton_append]
    refine ih h.2 hs ?_
    by_cases hk : t.kind = .newline
    · rw [occupied_newline hk]
      exact ⟨h.1 hk, hr.mono fun hheld => hheld.1 hk⟩
    · rw [occupied_cons hk]
      exact hr.mono fun hheld => hheld.2.symm.imp_right ht

namespace Token

theorem visible_ofInt {n : Int} (h : t.value = Text.ofInt n) : t.Visible := by
  obtain ⟨c, more, hc⟩ := List.exists_cons_of_ne_nil (Text.ofInt_ne_nil n)
  have hmem : c ∈ Text.ofInt n := by simp [hc]
  exact ⟨c, h ▸ hmem, by simpa [Render.isSpace] using Render.not_isSpace_ofInt c hmem⟩

end Token

namespace Numbering

theorem Numbers.occupied (h : Numbers l new)
    (hl : Occupied (fun t => t.kind.isEntry = false ∧ t.Shown) held l)
    (hv : ∀ u ∈ new, u.kind = .identifier ∨ u.kind.isPlaceholder → u.Visible) :
    Occupied Token.Shown held new := by
  induction h generalizing held with
  | @ending t rest ht =>
    rw [occupied_cons (by simp [ht])]
    trivial
  | @entry t rest new ht _ ih =>
    have hk : t.kind ≠ .newline := by
      rintro hk
      simp [hk, Kind.isEntry] at ht
    rw [occupied_cons hk] at hl
    exact ih (hl.mono fun h => h.resolve_right (by simp [ht])) hv
  | @line t number rest new ht hn _ ih =>
    rw [occupied_newline ht] at hl
    simp only [List.forall_mem_cons] at hv
    rw [occupied_newline ht, occupied_cons (by simp [hn])]
    exact ⟨hl.1, (ih hl.2 hv.2.2).mono fun h => h.elim⟩
  | @token t u rest new hu _ ih =>
    obtain ⟨hvu, hv⟩ := List.forall_mem_cons.1 hv
    by_cases hk : t.kind = .newline
    · obtain rfl : u = t := by
        rcases hu with rfl | ⟨-, hi | hp⟩
        · rfl
        · simp [hk] at hi
        · simp [hk, Kind.isPlaceholder] at hp
      rw [occupied_newline hk] at hl ⊢
      exact ⟨hl.1, ih hl.2 hv⟩
    · have huk : u.kind = t.kind := by
        rcases hu with rfl | ⟨h, -⟩
        · rfl
        · exact h
      rw [occupied_cons hk] at hl
      rw [occupied_cons (huk ▸ hk)]
      refine ih (hl.mono (.imp_right fun hs => ?_)) hv
      rcases hu with rfl | ⟨-, hchanged⟩
      · exact hs.2
      · exact ⟨huk ▸ hs.2.line, huk ▸ hs.2.number, hvu (by rwa [huk])⟩

end Numbering

namespace Dialect

theorem translateChar_ne_blank {c : Char} (h : c ≠ ' ') : d.translateChar c ≠ ' ' := by
  have hhalf := d.length_upperHalf
  have hupper : ∀ i < 0x80, Char.ofNat (upperHalfStart + i) ≠ ' ' := by decide
  have hletters : ∀ e ∈ d.keyboardLetters, e.2 ≠ ' ' := by cases d <;> decide
  have htyped : (d.keyboardLetters.lookup c).getD c ≠ ' ' := by
    cases hl : d.keyboardLetters.lookup c with
    | none => exact h
    | some y =>
      obtain ⟨l₁, l₂, heq, -⟩ := List.lookup_eq_some_iff.1 hl
      exact hletters (c, y) (by simp [heq])
  unfold translateChar
  dsimp only
  split
  · rename_i i hi
    exact hupper i (Nat.lt_of_lt_of_le (List.findIdx?_eq_some_iff_getElem.1 hi).1 hhalf)
  · exact htyped

end Dialect

namespace Token

theorem visible_of_is {w : Text} (h : t.is w = true) (hw : ∃ c ∈ Text.fold w, c ≠ ' ') : t.Visible := by
  obtain ⟨c, hc, hne⟩ := hw
  have hfold : Text.fold t.value = Text.fold w := by
    simpa [Token.is, Text.sameLetters_eq] using h
  rw [← hfold] at hc
  obtain ⟨x, hx, rfl⟩ := List.mem_map.1 hc
  refine ⟨x, hx, ?_⟩
  rintro rfl
  exact hne (by decide)

/-- The signs of line ends, of separators and of numbers below zero. -/
def lineSigns : Text := "\r:-"

/-- Whether a token is no word, as numbers and the ends of lines are none. -/
def Wordless (t : Token) : Prop := ∃ c ∈ t.value, c ∈ lineSigns ∨ c.isDigit = true

theorem Wordless.not_is {w : Text} (h : t.Wordless) (hw : (Text.fold w).all Char.isAlpha = true) :
    t.is w = false := by
  obtain ⟨c, hc, hsign⟩ := h
  rw [Bool.eq_false_iff]
  intro his
  have hfold : Text.fold t.value = Text.fold w := by
    simpa [Token.is, Text.sameLetters_eq] using his
  have halpha : (Text.foldChar c).isAlpha = true :=
    List.all_eq_true.1 hw _ (hfold ▸ List.mem_map_of_mem hc)
  rcases hsign with hs | hd
  · have hnone : lineSigns.all (fun c => !(Text.foldChar c).isAlpha) = true := by decide
    have hno := List.all_eq_true.1 hnone c hs
    simp [halpha] at hno
  · have hall : ∀ n : Fin 128, (Char.ofNat n).isDigit = true →
        (Text.foldChar (Char.ofNat n)).isAlpha = false := by decide
    have hlt : c.toNat < 128 := by
      have : c.isAlphanum = true := by simp [Char.isAlphanum, hd]
      exact Text.toNat_lt_of_isAlphanum this
    have := hall ⟨c.toNat, hlt⟩
    rw [Char.ofNat_toNat] at this
    rw [this hd] at halpha
    cases halpha

end Token

namespace Touch

variable {o : Options} {out tokens : List Token} {next : Token}

def jumpWords : List Text := ["THEN", "ELSE", "GOTO"]

theorem visible_of_jumpWord {w : Text} (hw : w ∈ jumpWords) (h : t.is w = true) : t.Visible := by
  have hall : jumpWords.all (fun w => (Text.fold w).any (· != ' ')) = true := by decide
  obtain ⟨c, hc, hne⟩ := List.any_eq_true.1 (List.all_eq_true.1 hall w hw)
  exact Token.visible_of_is h ⟨c, hc, by simpa using hne⟩

theorem capitalised_visible (h : t.Visible) : (capitalised d o t).Visible := by
  obtain ⟨c, hc, hne⟩ := h
  rcases capitalised_value (d := d) (o := o) (t := t) with hv | hv
  · exact ⟨c, hv ▸ hc, hne⟩
  · refine ⟨Text.upperChar c, hv ▸ List.mem_map_of_mem hc, fun hu => hne ?_⟩
    exact Text.upperChar_eq hu (by decide) (by decide) (by decide)

theorem capitalised_wordless (h : t.Wordless) : (capitalised d o t).Wordless := by
  obtain ⟨c, hc, hsign⟩ := h
  rcases capitalised_value (d := d) (o := o) (t := t) with hv | hv
  · exact ⟨c, hv ▸ hc, hsign⟩
  · have hkept : Text.upperChar c = c := by
      rcases hsign with hs | hd
      · have hall : Token.lineSigns.all (fun c => Text.upperChar c == c) = true := by decide
        exact beq_iff_eq.1 (List.all_eq_true.1 hall c hs)
      · exact Text.upperChar_of_isDigit (.inr hd)
    exact ⟨c, hv ▸ hkept ▸ List.mem_map_of_mem hc, hsign⟩

theorem snippet_truth {code : Text} (h : code ∈ Text.ofStrings ["0", "-1"]) (pos : Position) :
    ∃ u ∈ Lexer.snippet d pos code, u.Shown := by
  obtain ⟨p, hp, rfl, hne, hr⟩ : ∃ p ∈ Lexer.fixedCode, p.1 = code ∧ p.2 ≠ [] ∧ '\r' ∉ p.1 := by
    have hall : ∀ code ∈ Text.ofStrings ["0", "-1"],
        ∃ p ∈ Lexer.fixedCode, p.1 = code ∧ p.2 ≠ [] ∧ '\r' ∉ p.1 := by decide
    exact hall code h
  have hmoved : Lexer.snippet d pos p.1 ≠ [] := by
    rw [Lexer.snippet_fixed hp]
    simpa using hne
  obtain ⟨u, more, heq⟩ := List.exists_cons_of_ne_nil hmoved
  have hu : u ∈ Lexer.snippet d pos p.1 := by simp [heq]
  have hin := Lexer.snippet_inline hr u hu
  simp only [Kind.isInline, Bool.and_eq_true, bne_iff_ne] at hin
  exact ⟨u, hu, hin.1.1.2, hin.1.2, Lexer.snippet_visible pos p.1 u hu⟩

theorem touch_nil (h : touch d o out t next = .ok []) :
    (t.is "THEN" = true ∧ next.is "GOTO" = true) ∨
      (t.is "GOTO" = true ∧ follows out ["THEN", "ELSE"] = true) := by
  have written {code : Text} (hc : code ∈ Text.ofStrings ["0", "-1"])
      (h : Lexer.snippet d t.pos code = []) : False := by
    obtain ⟨u, hu, -⟩ := snippet_truth (d := d) hc t.pos
    rw [h] at hu
    cases hu
  unfold touch at h
  split at h
  · cases h
  · split at h
    · rename_i hthen
      exact .inl hthen.2.2
    · split at h
      · rename_i hgoto
        exact .inr hgoto.2.2
      · split at h
        · split at h
          · cases h
          · split at h
            · rw [Except.ok.injEq] at h
              simp [writtenOut] at h
            · cases h
        · split at h
          · exact (written (by decide) (Except.ok.inj h)).elim
          · split at h
            · exact (written (by decide) (Except.ok.inj h)).elim
            · split at h <;> cases h

theorem not_jumpWord {w : Text} (h : t.Wordless) (hw : w ∈ jumpWords) : t.is w = false := by
  have hall : ∀ w ∈ jumpWords, (Text.fold w).all Char.isAlpha = true := by decide
  exact h.not_is (hall w hw)

/-- What the last touches make of a token on a line: nothing, something that is shown, or one token in
the place of one that is not shown. -/
theorem touch_shown (h : touch d o out t next = .ok tokens) (hk : t.kind ≠ .newline)
    (hn : t.kind = .lineNumber → t.Wordless)
    (hc : t.kind = .compound → t.value ⊆ Dialect.compoundSigns) :
    (∀ u ∈ tokens, u.kind ≠ .newline) ∧ (tokens = [] ∨ (∃ u ∈ tokens, u.Shown) ∨
      (¬t.Shown ∧ ∃ u, tokens = [u] ∧ ∀ w ∈ jumpWords, u.is w = false)) := by
  -- a token in the place of another one is shown if that is
  have single {u : Token} (huk : u.kind = t.kind) (hv : t.Visible → u.Visible)
      (hl : t.kind = .lineNumber → u.Wordless) :
      (∀ v ∈ [u], v.kind ≠ .newline) ∧ ([u] = [] ∨ (∃ v ∈ [u], v.Shown) ∨
        (¬t.Shown ∧ ∃ v, [u] = [v] ∧ ∀ w ∈ jumpWords, v.is w = false)) := by
    refine ⟨by simpa [huk] using hk, .inr ?_⟩
    by_cases hu : u.Shown
    · exact .inl ⟨u, by simp, hu⟩
    · refine .inr ⟨fun ht => hu ⟨huk ▸ ht.line, huk ▸ ht.number, hv ht.visible⟩, u, rfl, ?_⟩
      intro w hw
      rw [Bool.eq_false_iff]
      intro his
      have hvisible := visible_of_jumpWord hw his
      have hnumber : t.kind = .lineNumber := by
        by_contra hne
        exact hu ⟨huk ▸ hk, huk ▸ hne, hvisible⟩
      rw [not_jumpWord (hl hnumber) hw] at his
      cases his
  have kept (hk : t.kind = .lineNumber → t.Wordless) := single (u := capitalised d o t)
    capitalised_kind capitalised_visible fun hl => capitalised_wordless (hk hl)
  by_cases hi : t.kind.isInline = true
  · have hin := touch_inline h hi fun hkind hr => absurd (hc hkind hr) (by decide)
    have inline {u : Token} (hu : u ∈ tokens) : u.kind ≠ .newline ∧ u.kind ≠ .lineNumber := by
      have := hin u hu
      simp only [Kind.isInline, Bool.and_eq_true, bne_iff_ne] at this
      exact ⟨this.1.1.2, this.1.2⟩
    have shown {u : Token} (hu : u ∈ tokens) (hv : u.Visible) : ∃ u ∈ tokens, u.Shown :=
      ⟨u, hu, (inline hu).1, (inline hu).2, hv⟩
    have hnumber : t.kind ≠ .lineNumber := by
      rintro hl
      simp [Kind.isInline, hl] at hi
    cases touch_cases h with
    | printed =>
      refine ⟨fun u hu => (inline hu).1, .inr (.inl (shown (List.mem_singleton_self _) ?_))⟩
      refine capitalised_visible ?_
      unfold Touch.printed
      split
      · exact ⟨'?', List.mem_singleton_self _, by decide⟩
      · exact ⟨'p', List.mem_cons_self, by decide⟩
    | gone => exact ⟨by simp, .inl rfl⟩
    | @writtenOut operand =>
      have hequals : (⟨.symbol, "=", t.pos⟩ : Token) ∈ writtenOut d t operand := by
        have hsnippet : Lexer.snippet d t.pos ['='] = [⟨.symbol, "=", t.pos⟩] := snippet_equals
        simp [writtenOut, hsnippet]
      refine ⟨fun u hu => (inline hu).1, .inr (.inl (shown hequals ⟨'=', ?_, by decide⟩))⟩
      exact List.mem_singleton_self _
    | truth _ hcode =>
      exact ⟨fun u hu => (inline hu).1, .inr (.inl (snippet_truth hcode t.pos))⟩
    | translated =>
      refine single rfl (fun hv => ?_) fun hl => absurd hl hnumber
      obtain ⟨c, hc, hne⟩ := hv
      exact ⟨d.translateChar c, List.mem_map_of_mem hc, Dialect.translateChar_ne_blank hne⟩
    | kept => exact kept hn
  · rw [touch_of_not_inline h (by simpa using hi)]
    exact kept hn

/-- What holds of the line that the last touches are on, if something is shown on it in what was read or
in what was written: a word that was dropped stands behind THEN or ELSE, or GOTO comes next. -/
structure Kept (read written : Prop) (out rest : List Token) : Prop where
  next : read → written ∨ ∃ t ∈ rest.head?, t.is "GOTO" = true
  last : ∀ t ∈ out.head?, (∃ w ∈ jumpWords, t.is w = true) → written

variable {read written : Prop}

theorem touch_kept (h : touch d o out t (rest.headD t) = .ok tokens) (hk : t.kind ≠ .newline)
    (hn : t.kind = .lineNumber → t.Wordless)
    (hc : t.kind = .compound → t.value ⊆ Dialect.compoundSigns) (hr : rest ≠ [])
    (hs : Kept read written out (t :: rest)) :
    (∀ u ∈ tokens, u.kind ≠ .newline) ∧
      Kept (read ∨ t.Shown) (written ∨ ∃ u ∈ tokens, u.Shown) (tokens.reverse ++ out) rest := by
  obtain ⟨hline, hcases⟩ := touch_shown h hk hn hc
  refine ⟨hline, ?_⟩
  rcases hcases with rfl | hshown | ⟨hnot, u, rfl, hu⟩
  · refine ⟨fun _ => ?_, fun u hu hw => .inl (hs.last u hu hw)⟩
    rcases touch_nil h with ⟨-, hnext⟩ | ⟨-, hfollows⟩
    · right
      cases rest with
      | nil => exact absurd rfl hr
      | cons u rest => exact ⟨u, rfl, hnext⟩
    · refine .inl (.inl ?_)
      cases out with
      | nil => cases hfollows
      | cons u out =>
        obtain ⟨w, hw, his⟩ := List.any_eq_true.1 hfollows
        have hwords : ∀ w ∈ Text.ofStrings ["THEN", "ELSE"], w ∈ jumpWords := by decide
        exact hs.last u rfl ⟨w, hwords w hw, his⟩
  · exact ⟨fun _ => .inl (.inr hshown), fun _ _ _ => .inr hshown⟩
  · refine ⟨fun hread => ?_, fun v hv ⟨w, hw, his⟩ => ?_⟩
    · refine .inl ((hs.next (hread.resolve_right hnot)).imp id fun ⟨v, hv, his⟩ => ?_)
      cases hv
      refine absurd ⟨hk, fun hl => ?_, visible_of_jumpWord (by decide) his⟩ hnot
      rw [not_jumpWord (hn hl) (by decide)] at his
      cases his
    · cases hv
      rw [hu w hw] at his
      cases his

theorem run_occupied {parsed : List Token} (h : run d o out l = .ok parsed)
    (hl : Occupied Token.Shown read l)
    (hw : ∀ t ∈ l, t.kind = .newline ∨ t.kind = .lineNumber → t.Wordless)
    (hc : ∀ t ∈ l, t.kind = .compound → t.value ⊆ Dialect.compoundSigns)
    (hs : Kept read written out l) :
    ∃ new, parsed = out.reverse ++ new ∧ Occupied Token.Shown written new := by
  induction l generalizing read written out with
  | nil => cases h
  | cons t rest ih =>
    obtain ⟨hwt, hw⟩ := List.forall_mem_cons.1 hw
    obtain ⟨hct, hc⟩ := List.forall_mem_cons.1 hc
    rcases run_cases h with ⟨he, rfl⟩ | ⟨he, tokens, ht, hr⟩
    · refine ⟨[t], by simp, ?_⟩
      rw [occupied_cons (by simp [he])]
      trivial
    · by_cases hk : t.kind = .newline
      · obtain rfl := touch_of_not_inline ht (by simp [hk, Kind.isInline])
        have hwordless := hwt (.inl hk)
        rw [occupied_newline hk] at hl
        have hwritten : written := (hs.next hl.1).resolve_right fun hgoto => by
          obtain ⟨u, hu, his⟩ := hgoto
          cases hu
          rw [not_jumpWord hwordless (by decide)] at his
          cases his
        -- a new line starts, with nothing on it
        have hnew : Kept False False (capitalised d o t :: out) rest := by
          refine ⟨fun h => h.elim, fun u hu hword => ?_⟩
          obtain ⟨w, hmem, his⟩ := hword
          cases hu
          rw [not_jumpWord (capitalised_wordless hwordless) hmem] at his
          cases his
        obtain ⟨new, hp, hnew⟩ := ih hr hl.2 hw hc hnew
        refine ⟨capitalised d o t :: new, by simpa using hp, ?_⟩
        rw [occupied_newline (by simpa using hk)]
        exact ⟨hwritten, hnew⟩
      · have hrest : rest ≠ [] := by
          rintro rfl
          cases hr
        obtain ⟨hline, hs⟩ := touch_kept ht hk (fun hn => hwt (.inr hn)) hct hrest hs
        rw [occupied_cons hk] at hl
        obtain ⟨new, rfl, hnew⟩ := ih hr hl hw hc hs
        exact ⟨tokens ++ new, by simp, (occupied_append hline).2 hnew⟩

end Touch

namespace Numbering

variable {scale : Scale} {k K : Nat} {ended : List Int}

theorem Follows.numerals (h : Follows scale k K l ended) :
    ∀ t ∈ l, t.kind = .lineNumber → ∃ n, t.value = Text.ofInt n := by
  induction h with
  | last ht => simp [ht]
  | close ht hu => simp [ht, hu]
  | token _ _ hl _ ih => exact List.forall_mem_cons.2 ⟨fun hk => absurd hk hl, ih⟩
  | line ht _ hv _ ih =>
    exact List.forall_mem_cons.2 ⟨fun hk => by simp [ht] at hk,
      List.forall_mem_cons.2 ⟨fun _ => ⟨_, hv⟩, ih⟩⟩

/-- Behind a line end or a separator, numbering goes on, maybe with the number of a line. -/
theorem Numbers.behind {second : Token} (h : Numbers (second :: l) new)
    (hk : second.kind = .newline ∨ second.kind = .separator) :
    ∃ tail, new = second :: tail ∧ (Numbers l tail ∨
      ∃ number more, tail = number :: more ∧ number.kind = .lineNumber ∧ Numbers l more) := by
  cases h with
  | ending ht => rcases hk with hk | hk <;> simp [ht] at hk
  | entry ht => rcases hk with hk | hk <;> simp [hk, Kind.isEntry] at ht
  | line _ hn h => exact ⟨_, rfl, .inr ⟨_, _, rfl, hn, h⟩⟩
  | token hu h =>
    rcases hu with rfl | ⟨-, hi | hp⟩
    · exact ⟨_, rfl, .inl h⟩
    · rcases hk with hk | hk <;> simp [hk] at hi
    · rcases hk with hk | hk <;> simp [hk, Kind.isPlaceholder] at hp

end Numbering

namespace Token

theorem Lawful.wordless (h : t.Lawful d) (hk : t.kind = .newline ∨ t.kind = .separator) : t.Wordless := by
  rcases hk with hk | hk
  · refine ⟨'\r', ?_, .inl (by decide)⟩
    by_contra hr
    exact h.kind_ne_newline hr hk
  · have hv := Dialect.accepts_separator (hk ▸ h.classified (by rw [hk]; rfl))
    exact ⟨':', by simp [hv], .inl (by decide)⟩

theorem wordless_ofInt {n : Int} (h : t.value = Text.ofInt n) : t.Wordless := by
  obtain ⟨c, more, hc⟩ := List.exists_cons_of_ne_nil (Text.ofInt_ne_nil n)
  have hmem : c ∈ Text.ofInt n := by simp [hc]
  refine ⟨c, h ▸ hmem, (Text.mem_ofInt hmem).imp ?_ id⟩
  rintro rfl
  decide

end Token

end ClassicBasic
