import ClassicBasic.Proofs.Carried

/-!
# Tokens that write nothing

An item of DATA may be empty, and so may the text of a remark. Lexing puts such a silent token right
behind DATA, a comma or a remark. The first two stages take it from there only together with what is in
front of it, or put it behind another sign, so no line comes to start with it.
-/

set_option autoImplicit false

namespace ClassicBasic

namespace Token

/-- Whether a character other than a blank is written. -/
def Visible (t : Token) : Prop := ∃ c ∈ t.value, c ≠ ' '

instance (t : Token) : Decidable t.Visible := List.decidableBEx _ t.value

/-- Whether an item of DATA or the text of a remark writes nothing. -/
def Silent (t : Token) : Prop := (t.kind = .dataField ∨ t.kind = .remarkText) ∧ ¬t.Visible

def Upholds (signs : List Text) (t : Token) : Prop :=
  t.kind = .data ∨ t.kind = .remark ∨ (t.kind = .symbol ∧ t.value ∈ signs)

end Token

/-- Whether every token that writes nothing stands behind one that upholds it. -/
def Upheld (signs : List Text) (l : List Token) : Prop :=
  l.IsChain fun t u => u.Silent → t.Upholds signs

def Voiced (l : List Token) : Prop := ∀ t ∈ l.head?, ¬t.Silent

def commas : List Text := Text.ofStrings [","]

def joints : List Text := Text.ofStrings [",", "=", "("]

variable {d : Dialect} {signs : List Text} {out kept input left rest l l' : List Token} {t u : Token}

namespace Token

theorem Silent.kind (h : t.Silent) : t.kind = .dataField ∨ t.kind = .remarkText := h.1

theorem not_silent_of_kind {k : Kind} (hk : t.kind = k) (hd : k ≠ .dataField)
    (hr : k ≠ .remarkText) : ¬t.Silent := fun h => by
  rcases h.1 with h | h
  · exact hd (hk.symm.trans h)
  · exact hr (hk.symm.trans h)

theorem Upholds.mono {more : List Text} (h : t.Upholds signs) (hs : signs ⊆ more) : t.Upholds more :=
  h.imp_right (.imp_right fun ⟨hk, hv⟩ => ⟨hk, hs hv⟩)

theorem not_upholds_of_kind {k : Kind} (hk : t.kind = k) (hd : k ≠ .data) (hr : k ≠ .remark)
    (hs : k ≠ .symbol) : ¬t.Upholds signs := by
  subst hk
  rintro (h | h | ⟨h, -⟩)
  · exact hd h
  · exact hr h
  · exact hs h

/-- Nothing but the signs, DATA and the remarks of the grammar uphold. -/
theorem Lawful.not_upholds {v : Text} (h : t.Lawful d) (hv : t.value = v)
    (hd : d.classify v ≠ some .data) (hr : d.classify v ≠ some .remark) (hs : v ∉ signs) :
    ¬t.Upholds signs := by
  subst hv
  rintro (hk | hk | ⟨-, hmem⟩)
  · exact hd (hk ▸ h.classified (hk ▸ rfl))
  · exact hr (hk ▸ h.classified (hk ▸ rfl))
  · exact hs hmem

end Token

section Lists

theorem upheld_cons :
    Upheld signs (t :: rest) ↔ Upheld signs rest ∧ ∀ u ∈ rest.head?, u.Silent → t.Upholds signs := by
  rw [Upheld, List.isChain_cons]
  exact and_comm

theorem Upheld.part {whole : List Token} (h : Upheld signs whole) (hl : l <:+: whole) :
    Upheld signs l := List.IsChain.infix h hl

theorem Upheld.mono {more : List Text} (h : Upheld signs l) (hs : signs ⊆ more) : Upheld more l :=
  List.IsChain.imp (fun _ _ hu hs' => (hu hs').mono hs) h

theorem Upheld.voiced (h : Upheld signs (t :: rest)) (ht : ¬t.Upholds signs) : Voiced rest :=
  fun u hu hs => ht ((upheld_cons.1 h).2 u hu hs)

theorem Upheld.append (h : Upheld signs l) (h' : Upheld signs l') (hv : Voiced l') :
    Upheld signs (l ++ l') :=
  List.IsChain.append h h' fun _ _ u hu hs => absurd hs (hv u hu)

theorem Upheld.cons (h : Upheld signs rest) (hv : Voiced rest) : Upheld signs (t :: rest) :=
  upheld_cons.2 ⟨h, fun u hu hs => absurd hs (hv u hu)⟩

theorem Upheld.behind (h : Upheld signs rest) (ht : t.Upholds signs) : Upheld signs (t :: rest) :=
  upheld_cons.2 ⟨h, fun _ _ _ => ht⟩

theorem voiced_cons (ht : ¬t.Silent) : Voiced (t :: rest) := by
  rintro u ⟨⟩
  exact ht

theorem Voiced.append (h : Voiced l) (h' : Voiced l') : Voiced (l ++ l') := by
  cases l with
  | nil => exact h'
  | cons t l => exact voiced_cons (h t rfl)

theorem Voiced.of_append (h : Voiced (l ++ l')) : Voiced l := by
  cases l with
  | nil => simp [Voiced]
  | cons t l => exact voiced_cons (h t rfl)

theorem upheld_of_forall (h : ∀ t ∈ l, ¬t.Silent) : Upheld signs l ∧ Voiced l := by
  refine ⟨?_, fun t ht => h t (List.mem_of_mem_head? ht)⟩
  induction l with
  | nil => exact List.isChain_nil
  | cons t rest ih =>
    obtain ⟨-, hrest⟩ := List.forall_mem_cons.1 h
    exact (ih hrest).cons fun u hu => hrest u (List.mem_of_mem_head? hu)

/-- Tokens may come in place of an end of the output and a beginning of the input. -/
theorem Upheld.insert (h : Upheld signs (out.reverse ++ input)) (hk : kept <:+ out)
    (hl : Upheld signs l) (hv : Voiced l) (hs : left <:+ input) (hleft : Voiced left) :
    Upheld signs ((l.reverse ++ kept).reverse ++ left) := by
  have hkept : Upheld signs kept.reverse :=
    h.part ((List.reverse_prefix.2 hk).isInfix.trans (List.prefix_append _ _).isInfix)
  have hinput : Upheld signs left :=
    h.part (hs.isInfix.trans (List.suffix_append _ _).isInfix)
  rw [List.reverse_append, List.reverse_reverse, List.append_assoc]
  exact hkept.append (hl.append hinput hleft) (hv.append hleft)

theorem voiced_afterLineEnd (h : Upheld signs (t :: rest)) (ht : t.endsLine = true) :
    Voiced (afterLineEnd (t :: rest)) := by
  simp only [afterLineEnd]
  split
  · rename_i hn
    exact h.voiced (Token.not_upholds_of_kind hn (by decide) (by decide) (by decide))
  · rename_i hn
    have he : t.kind = .eof := by simpa [Token.endsLine, hn] using ht
    exact voiced_cons (Token.not_silent_of_kind he (by decide) (by decide))

/-- What follows the end of a line starts with something that is written. -/
theorem Upheld.voiced_pastLine (h : Upheld signs rest) (hp : PastLine rest left) : Voiced left := by
  rcases hp with rfl | ⟨w, more, hw, hend, rfl⟩
  · simp [Voiced]
  · exact voiced_afterLineEnd (h.part hw.suffix.isInfix) hend

end Lists

namespace Lexer

theorem snippet_voiced (pos : Position) (code : Text) : ∀ t ∈ snippet d pos code, ¬t.Silent := by
  intro t ht hs
  unfold snippet at ht
  split at ht
  · rename_i tokens heq
    rcases (snippet?_spec heq t ht).1 with hk | hk
    · rcases hs.kind with h | h <;> simp [h] at hk
    · rcases hs.kind with h | h <;> simp [h, Kind.isRead, Kind.isRaw] at hk
  · cases ht

theorem snippet_upheld (pos : Position) (code : Text) :
    Upheld signs (snippet d pos code) ∧ Voiced (snippet d pos code) :=
  upheld_of_forall (snippet_voiced pos code)

theorem dataItems_upheld (closing : Nat) (start : Position) (joined part : Text)
    (input : List Glyph) : Upheld commas (dataItems closing start joined part input).1 := by
  fun_induction dataItems closing start joined part input with
  | case1 => exact List.isChain_nil
  | case2 =>
    split
    · exact List.isChain_nil
    · exact List.isChain_singleton _
  | case3 _ _ _ _ _ _ _ ih => exact ih
  | case4 _ _ _ _ _ _ _ _ _ _ _ ih => exact ih
  | case5 _ _ _ _ _ _ _ _ _ _ _ _ _ ih => exact ih
  | case6 => exact Upheld.cons (List.isChain_singleton _) (voiced_cons (by simp [Token.Silent]))
  | case7 _ _ _ _ _ _ _ _ _ _ _ _ _ _ _ _ _ ih =>
    exact Upheld.cons (Upheld.behind ih (.inr (.inr ⟨rfl, by simp [commas, Text.ofStrings]⟩)))
      (voiced_cons (by simp [Token.Silent]))
  | case8 => exact List.isChain_singleton _

theorem blockLines_voiced {closing : Nat} {opener : Token} {input : List Glyph}
    {read : List Token × List Glyph} (h : blockLines closing opener input = .ok read) :
    ∀ t ∈ read.1, ¬t.Silent := by
  intro t ht
  rcases blockLines_kind h t ht with hk | hk
  · exact Token.not_silent_of_kind hk (by decide) (by decide)
  · exact Token.not_silent_of_kind hk (by decide) (by decide)

theorem complete_upheld {closing : Nat} {last : Kind} {input : List Glyph}
    {read : List Token × List Glyph} (ht : d.classify t.value = some t.kind)
    (h : complete d closing last t input = .ok read) : Upheld commas read.1 ∧ Voiced read.1 := by
  have classified {u : Token} (hu : d.classify u.value = some u.kind) : ¬u.Silent := fun hs => by
    have hr := Dialect.isRead_of_classify hu
    rcases hs.kind with hk | hk <;> rw [hk] at hr <;> cases hr
  have blocked (hb : block closing t input = .ok read) : Upheld commas read.1 ∧ Voiced read.1 := by
    unfold block at hb
    split at hb
    · cases hb
    · obtain ⟨more, hm, rfl⟩ := Outcome.map_eq_ok_iff.1 hb
      refine upheld_of_forall fun u hu => ?_
      dsimp only at hu
      split at hu
      · rcases List.mem_cons.1 hu with rfl | hu
        · exact classified ht
        · exact blockLines_voiced hm u hu
      · cases hu
  unfold complete at h
  split at h
  case h_1 hk =>
    split at h
    · rename_i symbol name hs
      cases h
      obtain ⟨rfl, hv⟩ := splitToggle_eq hs
      obtain ⟨k, hn⟩ := classify_name (hv ▸ hk ▸ ht)
      refine upheld_of_forall (List.forall_mem_cons.2 ⟨classified (classify_hash d), ?_⟩)
      rw [hn]
      exact List.forall_mem_singleton.2 (classified hn)
    · cases h
      exact upheld_of_forall (List.forall_mem_singleton.2 (classified ht))
  case h_2 =>
    split at h
    · exact blocked h
    · cases h
      exact ⟨Upheld.behind (List.isChain_singleton _) (.inr (.inl rfl)),
        voiced_cons (by simp [Token.Silent])⟩
  case h_3 =>
    split at h
    · exact blocked h
    · cases h
      exact upheld_of_forall (by simp)
  case h_4 =>
    cases h
    exact upheld_of_forall (by simp)
  case h_5 hk =>
    cases h
    dsimp only
    split
    · exact upheld_of_forall (List.forall_mem_singleton.2 (classified ht))
    · exact ⟨Upheld.behind (List.isChain_singleton _) (.inr (.inl hk)), voiced_cons (classified ht)⟩
  case h_6 =>
    cases h
    exact upheld_of_forall (by simp [Token.Silent])
  case h_7 hk =>
    cases h
    refine ⟨Upheld.behind ?_ (.inl hk), voiced_cons (classified ht)⟩
    unfold dataFields
    dsimp only
    split
    · exact List.isChain_nil
    · exact dataItems_upheld _ _ _ _ _
  case h_8 =>
    cases h
    exact upheld_of_forall (List.forall_mem_singleton.2 (classified ht))

theorem lexFrom_upheld {closing : Nat} {last : Kind} {input : List Glyph} {tokens : List Token}
    (h : lexFrom d closing last input = .ok tokens) : Upheld commas tokens ∧ Voiced tokens := by
  have ending (pos : Position) : ¬Token.Silent ⟨.eof, Listing.eofText, pos⟩ := by simp [Token.Silent]
  fun_induction lexFrom d closing last input generalizing tokens with
  | case1 =>
    cases h
    exact upheld_of_forall (List.forall_mem_singleton.2 (ending _))
  | case2 =>
    cases h
    exact upheld_of_forall (List.forall_mem_singleton.2 (ending _))
  | case3 => cases h
  | case4 _ _ _ _ _ _ _ _ ih => exact ih h
  | case5 => cases h
  | case6 => cases h
  | case7 last g rest _ t left hs _ _ read left' hc =>
    rename_i ih
    obtain ⟨more, hm, rfl⟩ := Outcome.map_eq_ok_iff.1 h
    obtain ⟨hread, hvoiced⟩ := complete_upheld (scan_classified hs) hc
    obtain ⟨hmore, hnext⟩ := ih hm
    exact ⟨hread.append hmore hnext, hvoiced.append hnext⟩

theorem lex_upheld {listing : Listing} {tokens : List Token} (h : lex d listing = .ok tokens) :
    Upheld commas tokens := by
  unfold lex at h
  split at h
  · obtain ⟨more, hm, rfl⟩ := Outcome.map_eq_ok_iff.1 h
    obtain ⟨hmore, hnext⟩ := lexFrom_upheld hm
    exact (hmore.cons hnext).cons (voiced_cons (by simp [Token.Silent]))
  · cases h

end Lexer

namespace Define

/-- Whether a define and its default are upheld, and start with something that is written. -/
structure Steady (m : Define) : Prop where
  body : Upheld commas m.body
  head : Voiced m.body
  fallback : Upheld commas m.fallback
  first : Voiced m.fallback

theorem instantiate_upheld {m : Define} {given : List Token} {pos : Position} (hm : m.Steady)
    (hg : Upheld commas given) (hv : Voiced given) :
    Upheld commas (m.instantiate given pos) ∧ Voiced (m.instantiate given pos) := by
  have hvalue : Upheld commas (if given = [] then m.fallback else given) ∧
      Voiced (if given = [] then m.fallback else given) := by
    split
    · exact ⟨hm.fallback, hm.first⟩
    · exact ⟨hg, hv⟩
  unfold instantiate
  dsimp only
  generalize (if given = [] then m.fallback else given) = value at hvalue ⊢
  obtain ⟨hvalue, hfirst⟩ := hvalue
  have hbody := hm.body
  have hhead := hm.head
  generalize m.body = body at hbody hhead ⊢
  -- what stands for a part of the body starts with nothing only when that part does
  generalize hpart : (fun t : Token => if t.kind = .slot then value else [t.movedTo pos]) = part
  have all : Upheld commas (body.flatMap part) ∧ (Voiced body → Voiced (body.flatMap part)) := by
    clear hhead
    induction body with
    | nil => exact ⟨List.isChain_nil, fun h => h⟩
    | cons t body ih =>
      obtain ⟨hrest, hrel⟩ := upheld_cons.1 hbody
      obtain ⟨hup, hvoiced⟩ := ih hrest
      rw [List.flatMap_cons, ← hpart]
      dsimp only
      rw [hpart]
      split
      · rename_i hk
        have hnext : Voiced body :=
          hbody.voiced (Token.not_upholds_of_kind hk (by decide) (by decide) (by decide))
        exact ⟨hvalue.append hup (hvoiced hnext), fun _ => hfirst.append (hvoiced hnext)⟩
      · refine ⟨upheld_cons.2 ⟨hup, fun u hu hs => ?_⟩, fun h => voiced_cons (h t rfl)⟩
        by_contra ht
        exact hvoiced (hbody.voiced ht) u hu hs
  exact ⟨all.1, all.2 hhead⟩

/-- What the two readers of invocations make of an input that is upheld. -/
structure Yields (table : Defines) (input : List Token) : Prop where
  expand : ∀ t e, expand table t input = .ok e →
    (Upheld commas e.tokens ∧ Voiced e.tokens) ∧ e.rest <:+ input ∧ Voiced e.rest
  argument : ∀ depth e, argument table depth input = .ok e →
    (Upheld commas e.tokens ∧ (Voiced input → Voiced e.tokens)) ∧
      e.rest <:+ input ∧ Voiced e.rest

theorem not_upholds_closing {v : Text} (h : t.Lawful d) (hv : t.value = v)
    (hm : v = ")" ∨ v = "]" ∨ v = "\x7d") (hs : v ∉ signs) : ¬t.Upholds signs := by
  obtain ⟨k, hk, hd, hr⟩ : ∃ k, d.classify v = some k ∧ k ≠ .data ∧ k ≠ .remark := by
    rcases hm with rfl | rfl | rfl
    · exact ⟨.symbol, Dialect.classify_sign (by decide), by decide, by decide⟩
    · exact ⟨.mark, Dialect.classify_sign (by decide), by decide, by decide⟩
    · exact ⟨.mark, Dialect.classify_sign (by decide), by decide, by decide⟩
  exact h.not_upholds hv (by simpa [hk] using hd) (by simpa [hk] using hr) hs

theorem expand_yields {table : Defines} (hm : ∀ m ∈ table, m.Steady)
    (hi : Upheld commas input) (hl : ∀ u ∈ input, u.Lawful d)
    (ih : ∀ more, more.length < input.length → more <:+ input → Yields table more)
    (t : Token) (e : Expansion input) (h : expand table t input = .ok e) :
    (Upheld commas e.tokens ∧ Voiced e.tokens) ∧ e.rest <:+ input ∧ Voiced e.rest := by
  have nothing : Upheld commas [] ∧ Voiced [] := upheld_of_forall (by simp)
  unfold expand at h
  split at h
  · cases h
  · cases h
  · rename_i name closer after hb
    obtain ⟨rfl, hcloser⟩ := Bracketed.holding_eq (by decide) hb
    have hafter : Voiced after := by
      refine Upheld.voiced (hi.part (List.suffix_cons name _).isInfix) ?_
      exact not_upholds_closing (hl closer (by simp)) hcloser (.inr (.inl rfl)) (by decide)
    split at h
    · cases h
    · split at h
      · cases h
      · rename_i m hf
        have hp := hm m (List.mem_of_find?_eq_some hf)
        split at h
        · cases h
          exact ⟨instantiate_upheld hp nothing.1 nothing.2, List.nil_suffix, nothing.2⟩
        · rename_i p more hd
          have hd' : after = p :: more := by simpa using hd
          subst hd'
          have hsuf : more <:+ name :: closer :: p :: more := List.suffix_append [name, closer, p] more
          split at h
          · rename_i hparen
            split at h
            · cases h
            · rename_i arg harg
              cases h
              obtain ⟨⟨htokens, hhead⟩, hrest, hv⟩ := (ih more (by simp; omega) hsuf).argument _ _ harg
              have hmore : Voiced more := by
                refine Upheld.voiced (hi.part (List.suffix_append [name, closer] (p :: more)).isInfix) ?_
                rintro (hk | hk | ⟨-, hv⟩)
                · rw [hparen.1] at hk
                  cases hk
                · rw [hparen.1] at hk
                  cases hk
                · rw [hparen.2] at hv
                  exact absurd hv (by decide)
              exact ⟨instantiate_upheld hp htokens (hhead hmore), hrest.trans hsuf, hv⟩
          · cases h
            exact ⟨instantiate_upheld hp nothing.1 nothing.2,
              List.suffix_append [name, closer] (p :: more), hafter⟩

theorem argument_yields {table : Defines} (hi : Upheld commas input)
    (hl : ∀ u ∈ input, u.Lawful d)
    (ih : ∀ more, more.length < input.length → more <:+ input → Yields table more)
    (depth : Nat) (e : Expansion input) (h : argument table depth input = .ok e) :
    (Upheld commas e.tokens ∧ (Voiced input → Voiced e.tokens)) ∧
      e.rest <:+ input ∧ Voiced e.rest := by
  cases input with
  | nil =>
    unfold argument at h
    cases h
  | cons t rest =>
    have hsuf := List.suffix_cons t rest
    unfold argument at h
    split at h
    · cases h
    · have hrest := ih rest (by simp) hsuf
      split at h
      · split at h
        · cases h
        · rename_i inner hinner
          split at h
          · cases h
          · rename_i more hmore
            cases h
            obtain ⟨⟨htokens, hhead⟩, hs, hv⟩ := hrest.expand _ _ hinner
            have hlt : inner.rest.length < (t :: rest).length := Nat.lt_succ_of_le inner.le
            obtain ⟨⟨hmtokens, hmhead⟩, hms, hmv⟩ :=
              (ih inner.rest hlt (hs.trans hsuf)).argument _ _ hmore
            exact ⟨⟨htokens.append hmtokens (hmhead hv), fun _ => hhead.append (hmhead hv)⟩,
              hms.trans (hs.trans hsuf), hmv⟩
      · split at h
        · rename_i hclose
          cases h
          refine ⟨⟨List.isChain_nil, fun _ => by simp [Voiced]⟩, hsuf, hi.voiced ?_⟩
          exact not_upholds_closing (hl t (by simp)) hclose.1 (.inl rfl) (by decide)
        · dsimp only at h
          split at h
          · cases h
          · rename_i more hmore
            cases h
            obtain ⟨⟨htokens, hhead⟩, hs, hv⟩ := hrest.argument _ _ hmore
            refine ⟨⟨upheld_cons.2 ⟨htokens, fun u hu hsilent => ?_⟩, fun hv => voiced_cons (hv t rfl)⟩,
              hs.trans hsuf, hv⟩
            by_contra ht
            exact hhead (hi.voiced ht) u hu hsilent

/-- What invocations come to is upheld when the defines and the input are, and something is written
behind them. The two readers call each other on shorter inputs. -/
theorem yields_of_upheld {table : Defines} (hm : ∀ m ∈ table, m.Steady) (input : List Token)
    (hi : Upheld commas input) (hl : ∀ u ∈ input, u.Lawful d) : Yields table input := by
  have shorter (more : List Token) (_ : more.length < input.length) (hs : more <:+ input) :
      Yields table more :=
    yields_of_upheld hm more (hi.part hs.isInfix) fun u hu => hl u (hs.mem hu)
  exact ⟨expand_yields hm hi hl shorter, argument_yields hi hl shorter⟩
termination_by input.length


theorem readFallback_split {r : List Token × List Token} (h : readFallback l = .ok r) :
    ∃ closer, l = r.1 ++ closer :: r.2 ∧ closer.value = "]" := by
  induction l generalizing r with
  | nil => cases h
  | cons t rest ih =>
    simp only [readFallback] at h
    split at h
    · cases h
    · split at h
      · cases h
      · split at h
        · rename_i hv
          cases h
          exact ⟨t, rfl, hv⟩
        · obtain ⟨s, hs, rfl⟩ := Outcome.map_eq_ok_iff.1 h
          obtain ⟨closer, rfl, hv⟩ := ih hs
          exact ⟨closer, rfl, hv⟩

theorem not_upholds_opening (h : t.Lawful d) (hv : t.value = "[") : ¬t.Upholds commas := by
  have hclass : d.classify "[" = some .mark := Dialect.classify_sign (by decide)
  exact h.not_upholds hv (by rw [hclass]; simp) (by rw [hclass]; simp) (by decide)

/-- A body and its default are upheld like the line they are read from. -/
theorem readBody_upheld {r : List Token × Option (List Token) × List Token}
    (hi : Upheld commas l) (hl : ∀ u ∈ l, u.Lawful d) (h : readBody l = .ok r) :
    (Upheld commas r.1 ∧ (Voiced l → Voiced r.1)) ∧
      Upheld commas (r.2.1.getD []) ∧ Voiced (r.2.1.getD []) := by
  have nothing : Upheld commas [] ∧ Voiced [] := upheld_of_forall (by simp)
  fun_induction readBody l generalizing r with
  | case1 => cases h
  | case2 => cases h
  | case3 => simp_all
  | case4 t rest _ hopen inner after hf ih =>
    obtain ⟨s, hs, rfl⟩ := Outcome.map_eq_ok_iff.1 h
    obtain ⟨closer, rfl, hclose⟩ := readFallback_split hf
    obtain ⟨ht, hrest⟩ := List.forall_mem_cons.1 hl
    have hbehind : Upheld commas (closer :: after) :=
      hi.part ((List.suffix_append inner _).trans (List.suffix_cons t _)).isInfix
    have hafter : Voiced after :=
      hbehind.voiced (not_upholds_closing (hrest closer (by simp)) hclose (.inr (.inl rfl)) (by decide))
    obtain ⟨⟨hbody, hhead⟩, -⟩ :=
      ih (hbehind.part (List.suffix_cons closer after).isInfix) (fun u hu => hrest u (by simp [hu])) hs
    refine ⟨⟨hbody.cons (hhead hafter), fun _ => voiced_cons (by simp [Token.Silent])⟩, ?_, ?_⟩
    · exact hi.part ((List.prefix_append inner _).isInfix.trans (List.suffix_cons t _).isInfix)
    · exact (hi.voiced (not_upholds_opening ht hopen)).of_append
  | case5 =>
    cases h
    exact ⟨⟨nothing.1, fun _ => nothing.2⟩, nothing⟩
  | case6 t rest _ _ _ ih =>
    obtain ⟨s, hs, rfl⟩ := Outcome.map_eq_ok_iff.1 h
    obtain ⟨⟨hbody, hhead⟩, hfall⟩ := ih (upheld_cons.1 hi).1 (List.forall_mem_cons.1 hl).2 hs
    refine ⟨⟨upheld_cons.2 ⟨hbody, fun u hu hsilent => ?_⟩, fun hv => voiced_cons (hv t rfl)⟩, hfall⟩
    by_contra ht
    exact hhead (hi.voiced ht) u hu hsilent

theorem readParametric_steady {name opening : Token} {r : Define × List Token}
    (hi : Upheld commas rest) (hl : ∀ u ∈ rest, u.Lawful d)
    (h : readParametric name opening rest = .ok r) : r.1.Steady := by
  unfold readParametric at h
  dsimp only at h
  split at h
  · cases h
  · split at h
    · cases h
    · rename_i hcloser
      split at h
      · cases h
      · rename_i hne
        cases h
        -- the rest of the line is not empty, so two tokens stand in front of it
        match rest with
        | [] => exact absurd rfl hne
        | [_] => exact absurd rfl hne
        | parameter :: closer :: line =>
          have hline : Upheld commas (closer :: line) := (upheld_cons.1 hi).1
          have hvoiced : Voiced line := hline.voiced
            (not_upholds_closing (hl closer (by simp)) (Decidable.not_not.1 hcloser) (.inl rfl) (by decide))
          have hbody : Upheld commas (line.takeWhile fun t => !t.endsLine) :=
            hline.part ((List.takeWhile_prefix _).isInfix.trans (List.suffix_cons closer line).isInfix)
          refine ⟨?_, ?_, List.isChain_nil, by simp [Voiced]⟩
          · refine List.isChain_map_of_isChain _ (fun t u htu hs => ?_) hbody
            split at hs
            · exact absurd hs (by simp [Token.Silent, Token.withKind])
            · have ht := htu hs
              split
              · rename_i hk
                exact absurd ht (Token.not_upholds_of_kind hk.1 (by decide) (by decide) (by decide))
              · exact ht
          · intro t ht
            cases line with
            | nil => simp at ht
            | cons u line =>
              simp only [List.drop_succ_cons, List.drop_zero, List.takeWhile_cons] at ht
              split at ht
              · simp only [List.map_cons, List.head?_cons, Option.mem_def, Option.some.injEq] at ht
                rw [← ht]
                split
                · simp [Token.Silent, Token.withKind]
                · exact hvoiced u rfl
              · cases ht

theorem readName_voiced {table : Defines} {r : Token × Token × List Token}
    (hi : Upheld commas rest) (hl : ∀ u ∈ rest, u.Lawful d) (h : readName table t rest = .ok r)
    (hv : r.2.1.value = "[") : Voiced r.2.2 := by
  unfold readName at h
  split at h
  · cases h
  · cases h
  · rename_i name closer after hb
    split at h
    · cases h
    · split at h
      · cases h
      · cases h
        have ht := (Bracketed.holding_eq (by decide) hb).1
        have hs : after <:+ rest.tail := ht ▸ List.suffix_append [name, closer] after
        have hsuf := hs.trans (List.tail_suffix rest)
        cases after with
        | nil => simp [Voiced]
        | cons u after =>
          exact (hi.part hsuf.isInfix).voiced (not_upholds_opening (hl u (hsuf.mem (by simp))) hv)

theorem readLine_steady {table : Defines} {r : Defines × List Token} (hm : ∀ m ∈ table, m.Steady)
    (hi : Upheld commas rest) (hl : ∀ u ∈ rest, u.Lawful d) (h : readLine table t rest = .ok r) :
    ∀ m ∈ r.1, m.Steady := by
  have grow {table : Defines} {m : Define} (hm : ∀ m ∈ table, m.Steady) (hp : m.Steady) :
      ∀ m' ∈ table ++ [m], m'.Steady := by
    intro m' hm'
    rcases List.mem_append.1 hm' with hm' | hm'
    · exact hm m' hm'
    · rwa [List.mem_singleton.1 hm']
  have bodies {table : Defines} {t : Token} {rest : List Token} {name next : Token}
      {after body : List Token} {fallback : Option (List Token)} {left : List Token}
      (hi : Upheld commas rest) (hl : ∀ u ∈ rest, u.Lawful d)
      (hn : readName table t rest = .ok (name, next, after)) (hopen : next.value = "[")
      (hb : readBody after = .ok (body, fallback, left)) :
      Steady { name := name.lower, body, fallback := fallback.getD [] } := by
    have hsuf : after <:+ rest := readName_suffix hn
    obtain ⟨⟨hbody, hhead⟩, hfall, hfirst⟩ :=
      readBody_upheld (hi.part hsuf.isInfix) (fun u hu => hl u (hsuf.mem hu)) hb
    exact ⟨hbody, hhead (readName_voiced hi hl hn hopen), hfall, hfirst⟩
  fun_induction readLine table t rest generalizing r with
  | case1 => cases h
  | case2 table t rest name next after hn =>
    obtain ⟨s, hs, rfl⟩ := Outcome.map_eq_ok_iff.1 h
    have hsuf : after <:+ rest := readName_suffix hn
    exact grow hm (readParametric_steady (hi.part hsuf.isInfix) (fun u hu => hl u (hsuf.mem hu)) hs)
  | case3 => cases h
  | case4 => cases h
  | case5 => cases h
  | case6 table t rest name next after hn _ hbracket body fallback u left hb =>
    rename_i ih
    have hsuf : after <:+ rest := readName_suffix hn
    have hleft : left <:+ rest :=
      (List.suffix_cons u left).trans ((readBody_suffix hb).trans hsuf)
    exact ih (grow hm (bodies hi hl hn (Decidable.not_not.1 hbracket) hb)) (hi.part hleft.isInfix)
      (fun u hu => hl u (hleft.mem hu)) h
  | case7 table t rest name next after hn _ hbracket body fallback u left hb =>
    cases h
    exact grow hm (bodies hi hl hn (Decidable.not_not.1 hbracket) hb)
  | case8 => cases h

end Define

namespace Routine

theorem splitArguments_upheld {depth : Nat} {run after : List Token} {runs : List (List Token)}
    {closer : Token} (h : splitArguments depth run l = .ok (runs, closer, after))
    (hi : Upheld signs (run ++ l)) : ∀ r ∈ runs, Upheld signs r := by
  induction l generalizing depth run runs with
  | nil => cases h
  | cons t rest ih =>
    have pushed {depth : Nat} {runs : List (List Token)}
        (h : splitArguments depth (run ++ [t]) rest = .ok (runs, closer, after)) :
        ∀ r ∈ runs, Upheld signs r := ih h (by simpa using hi)
    have hrun : Upheld signs run := hi.part (List.prefix_append run _).isInfix
    simp only [splitArguments] at h
    split at h
    · cases h
    · split at h
      · exact pushed h
      · split at h
        · obtain ⟨⟨more, closer', after'⟩, hmore, he⟩ := Outcome.map_eq_ok_iff.1 h
          cases he
          have hrest : Upheld signs rest :=
            hi.part ((List.suffix_cons t rest).trans (List.suffix_append run _)).isInfix
          exact List.forall_mem_cons.2 ⟨hrun, ih hmore hrest⟩
        · split at h
          · split at h
            · cases h
              simpa using hrun
            · exact pushed h
          · exact pushed h

/-- The arguments of a function are upheld, and something is written behind them. -/
theorem argumentList_upheld {fn closer : Token} {after : List Token} {runs : List (List Token)}
    (h : argumentList fn rest = .ok (runs, closer, after)) (hi : Upheld signs rest)
    (hl : ∀ u ∈ rest, u.Lawful d) (hs : ")".toList ∉ signs) :
    (∀ r ∈ runs, Upheld signs r) ∧ Voiced after := by
  unfold argumentList at h
  dsimp only at h
  split at h
  · cases h
  · split at h
    · cases h
    · split at h
      · rename_i hclose
        cases h
        refine ⟨by simp, ?_⟩
        match rest with
        | [] => simp [Voiced]
        | [_] => simp [Voiced]
        | o :: closer :: after =>
          exact (upheld_cons.1 hi).1.voiced
            (Define.not_upholds_closing (hl closer (by simp)) hclose (.inl rfl) hs)
      · have htail := hi.part (List.tail_suffix rest).isInfix
        obtain ⟨read, heq, hv, -⟩ := splitArguments_spec h
        have hsuf : closer :: after <:+ rest.tail := heq ▸ List.suffix_append read _
        refine ⟨splitArguments_upheld h htail, (htail.part hsuf.isInfix).voiced ?_⟩
        exact Define.not_upholds_closing
          (hl closer (List.mem_of_mem_tail (hsuf.mem List.mem_cons_self))) hv (.inl rfl) hs

theorem parameter_spec {fn : Token} {run : List Token} {p : Parameter}
    (h : parameter fn run = .ok p) : p.name.kind = .identifier ∧ p.fallback <:+ run := by
  unfold parameter at h
  split at h
  · cases h
  · split at h
    · rename_i hk
      cases h
      exact ⟨hk, List.nil_suffix⟩
    · cases h
  · split at h
    · cases h
    · rename_i hk
      split at h
      · cases h
      · cases h
        exact ⟨Decidable.not_not.1 hk, List.suffix_append [_, _] _⟩

theorem endsResults_voiced (h : endsResults t = true) : ¬t.Silent := by
  intro hs
  simp only [endsResults, Token.endsLine, Bool.or_eq_true, beq_iff_eq] at h
  rcases h with (hv | hk) | hk | hk
  · exact hs.2 ⟨'\'', by rw [hv]; decide, by decide⟩
  · exact Token.not_silent_of_kind hk (by decide) (by decide) hs
  · exact Token.not_silent_of_kind hk (by decide) (by decide) hs
  · exact Token.not_silent_of_kind hk (by decide) (by decide) hs

theorem splitResults_upheld (run : List Token) (last : Token) (hi : Upheld signs (run ++ l)) :
    (∀ r ∈ (splitResults run last l).1, Upheld signs r) ∧ Voiced (splitResults run last l).2.2 := by
  induction l generalizing run last with
  | nil => simpa [splitResults, Voiced] using hi
  | cons t rest ih =>
    have hrun : Upheld signs run := hi.part (List.prefix_append run _).isInfix
    simp only [splitResults]
    split
    · rename_i hends
      exact ⟨by simpa using hrun, voiced_cons (endsResults_voiced hends)⟩
    · split
      · have hrest : Upheld signs rest :=
          hi.part ((List.suffix_cons t rest).trans (List.suffix_append run _)).isInfix
        obtain ⟨hmore, hv⟩ := ih [] t hrest
        exact ⟨List.forall_mem_cons.2 ⟨hrun, hmore⟩, hv⟩
      · exact ih (run ++ [t]) t (by simpa using hi)

/-- The results of a function are upheld, and something is written behind them. -/
theorem resultList_upheld (ret : Token) (hi : Upheld signs rest) :
    (∀ r ∈ (resultList ret rest).1, Upheld signs r) ∧ Voiced (resultList ret rest).2.2 := by
  unfold resultList
  split
  · rename_i hends
    refine ⟨by simp, ?_⟩
    cases rest with
    | nil => simp [Voiced]
    | cons u rest => exact voiced_cons (endsResults_voiced hends)
  · exact splitResults_upheld [] ret hi

end Routine

/-- Whether a parameter has the name of a variable and its default is upheld. -/
structure Parameter.Steady (p : Parameter) : Prop where
  name : p.name.kind = .identifier
  fallback : Upheld commas p.fallback

structure Tables.Steady (tables : Tables) : Prop where
  defines : ∀ m ∈ tables.defines, m.Steady
  parameters : ∀ e ∈ tables.routines, ∀ p ∈ e.2.parameters, p.Steady
  results : ∀ e ∈ tables.routines, ∀ r ∈ e.2.results, Upheld commas r
  opened : ∀ e ∈ tables.opened, ∀ p ∈ e.2, p.Steady

namespace Directive

variable {quiet : Bool} {tables : Tables}

theorem skipLine_voiced {tag : Token} (hi : Upheld signs l) (h : skipLine tag l = .ok left) :
    Voiced left := by
  induction l with
  | nil => cases h
  | cons t rest ih =>
    simp only [skipLine] at h
    split at h
    · cases h
    · split at h
      · rename_i hn
        cases h
        exact hi.voiced (Token.not_upholds_of_kind hn (by decide) (by decide) (by decide))
      · exact ih (upheld_cons.1 hi).1 h

theorem skipBlock_voiced {tag last : Token} (hi : Upheld signs l)
    (h : skipBlock tag last l = .ok left) : Voiced left := by
  induction l generalizing last with
  | nil => cases h
  | cons t rest ih =>
    simp only [skipBlock] at h
    split at h
    · cases h
    · split at h
      · rename_i hk
        cases h
        exact hi.voiced (Token.not_upholds_of_kind hk.1 (by decide) (by decide) (by decide))
      · exact ih (upheld_cons.1 hi).1 h

theorem skipToggled_voiced {tag : Token} (hi : Upheld signs l) (h : skipToggled tag l = .ok left) :
    Voiced left := by
  unfold skipToggled at h
  split at h
  · exact skipBlock_voiced hi h
  · exact skipLine_voiced hi h

theorem keepTags_voiced {keeps : List Text} {r : List Text × List Token} (hi : Upheld signs l)
    (h : keepTags keeps l = .ok r) : Voiced r.2 := by
  induction l generalizing keeps with
  | nil => cases h
  | cons t rest ih =>
    simp only [keepTags] at h
    split at h
    · rename_i hends
      cases h
      exact voiced_afterLineEnd hi hends
    · split at h
      · cases h
      · split at h
        · cases h
        · exact ih (upheld_cons.1 hi).1 h

theorem declareLine_voiced {r : { left : List Token // left.length ≤ rest.length }} {σ τ : Session}
    (hi : Upheld signs rest) (h : Conversion.declareLine d quiet t rest σ = .ok r τ) :
    Voiced r.1 := by
  fun_induction Conversion.declareLine d quiet t rest generalizing σ with
  | case1 => exact absurd h Conversion.throw_ne_ok
  | case2 t rest entry after hr ih =>
    obtain ⟨-, ρ, -, h⟩ := Conversion.bind_eq_ok_iff.1 h
    have hafter : Upheld signs after := hi.part (Declaration.suffix_read hr).isInfix
    split at h
    · exact absurd h Conversion.throw_ne_ok
    · rename_i u left _
      split at h
      · obtain ⟨f, ρ', hf, h⟩ := Conversion.bind_eq_ok_iff.1 h
        obtain ⟨rfl, rfl⟩ := Conversion.pure_eq_ok_iff.1 h
        exact ih u left rfl (upheld_cons.1 hafter).1 hf
      · split at h
        · rename_i hends
          cases (Conversion.pure_eq_ok_iff.1 h).1
          exact voiced_afterLineEnd hafter hends
        · exact absurd h Conversion.throw_ne_ok

/-- The first stage keeps an output (last token first) and the input behind it upheld. -/
theorem step_upheld {p : Progress} (h : step d tables out t rest = .ok p)
    (hi : Upheld commas (out.reverse ++ t :: rest)) (hs : p.rest <:+ rest)
    (hl : ∀ u ∈ t :: rest, u.Lawful d) (hm : ∀ m ∈ tables.defines, m.Steady) :
    Upheld commas (p.out.reverse ++ p.rest) := by
  have hsuf := hs.trans (List.suffix_cons t rest)
  have hright : Upheld commas (t :: rest) := hi.part (List.suffix_append out.reverse _).isInfix
  have hrest : Upheld commas rest := (upheld_cons.1 hright).1
  have hlrest := (List.forall_mem_cons.1 hl).2
  have put {l : List Token} (hl : Upheld commas l ∧ Voiced l) (hv : Voiced p.rest) :
      Upheld commas ((l.reverse ++ out).reverse ++ p.rest) :=
    hi.insert (List.suffix_refl out) hl.1 hl.2 hsuf hv
  have nothing : Upheld commas [] ∧ Voiced [] := upheld_of_forall (by simp)
  have pass : Upheld commas ((t :: out).reverse ++ rest) := by simpa using hi
  cases step_cases h with
  | untagged hk =>
    exact put nothing (hright.voiced (Token.not_upholds_of_kind hk (by decide) (by decide) (by decide)))
  | skipped _ hleft => exact put nothing (skipToggled_voiced hrest hleft)
  | left => exact pass
  | gone hk =>
    exact put nothing (hright.voiced (Token.not_upholds_of_kind hk (by decide) (by decide) (by decide)))
  | defined _ hr => exact put nothing (hrest.voiced_pastLine (Define.readLine_within hlrest hr).2)
  | tagged _ hr => exact put nothing (keepTags_voiced hrest hr)
  | @opened runs closer after ps _ ha =>
    refine put (l := [_]) (upheld_of_forall (by simp [Token.Silent])) ?_
    exact (Routine.argumentList_upheld ha (hrest.part (List.tail_suffix rest).isInfix)
      (fun u hu => hlrest u (List.mem_of_mem_tail hu)) (by decide)).2
  | closed => exact put (Lexer.snippet_upheld _ _) (Routine.resultList_upheld t hrest).2
  | expanded hk he =>
    obtain ⟨htokens, -, hv⟩ := (Define.yields_of_upheld hm rest hrest hlrest).expand t _ he
    exact put htokens hv
  | passed =>
    rcases asCall_cases (d := d) out t rest with heq | ⟨hk, hcall⟩
    · rw [heq]
      exact pass
    · refine put (l := [_]) (upheld_of_forall ?_) (hright.voiced ?_)
      · rw [List.forall_mem_singleton]
        rcases hcall with hk | hk
        · exact Token.not_silent_of_kind hk (by decide) (by decide)
        · exact Token.not_silent_of_kind hk (by decide) (by decide)
      · rcases hk with hk | hk
        · exact Token.not_upholds_of_kind hk (by decide) (by decide) (by decide)
        · exact Token.not_upholds_of_kind hk (by decide) (by decide) (by decide)

theorem step_steady {p : Progress} (h : step d tables out t rest = .ok p)
    (hi : Upheld commas rest) (hl : ∀ u ∈ rest, u.Lawful d) (ht : tables.Steady) :
    p.tables.Steady := by
  cases step_cases h with
  | defined _ hr =>
    exact ⟨Define.readLine_steady ht.defines hi hl hr, ht.parameters, ht.results, ht.opened⟩
  | @opened runs closer after ps _ ha hps =>
    refine ⟨ht.defines, ht.parameters, ht.results, ?_⟩
    rintro e ⟨⟩ p hmem
    obtain ⟨run, hrun, hparameter⟩ := Outcome.exists_of_forall₂ (Outcome.forall₂_of_mapM hps) hmem
    have hruns := (Routine.argumentList_upheld ha (hi.part (List.tail_suffix rest).isInfix)
      (fun u hu => hl u (List.mem_of_mem_tail hu)) (by decide)).1
    obtain ⟨hname, hs⟩ := Routine.parameter_spec hparameter
    exact ⟨hname, (hruns run hrun).part hs.isInfix⟩
  | @closed fn ps _ ho =>
    refine ⟨ht.defines, fun e he => ?_, fun e he r hr => ?_, by simp⟩
    · rcases List.mem_append.1 he with he | he
      · exact ht.parameters e he
      · rw [List.mem_singleton.1 he]
        exact ht.opened (fn, ps) ho
    · rcases List.mem_append.1 he with he | he
      · exact ht.results e he r hr
      · rw [List.mem_singleton.1 he] at hr
        exact (Routine.resultList_upheld t hi).1 r hr
  | _ => exact ⟨ht.defines, ht.parameters, ht.results, ht.opened⟩

theorem reaches_upheld {lexed : List Token} {p q : Point} (h : Reaches d quiet p q)
    (hl : ∀ u ∈ lexed, u.Lexed d) (hk : Kept d lexed p)
    (hi : Upheld commas (p.out.reverse ++ p.input)) (ht : p.tables.Steady) :
    Upheld commas (q.out.reverse ++ q.input) ∧ q.tables.Steady := by
  induction h with
  | refl => exact ⟨hi, ht⟩
  | tail hreach hstep ih =>
    obtain ⟨hi, ht⟩ := ih
    have hkept := reaches_kept hreach hl hk
    cases hstep with
    | @declared σ τ tables out rest t r hd h =>
      have hrest : Upheld commas rest :=
        hi.part ((List.suffix_cons t rest).trans (List.suffix_append out.reverse _)).isInfix
      exact ⟨hi.insert (l := []) (List.suffix_refl out) List.isChain_nil (by simp [Voiced])
        ((Conversion.suffix_declareLine h).trans (List.suffix_cons _ _))
        (declareLine_voiced hrest h), ht⟩
    | @read σ tables out rest t p he h =>
      have hlexed := fun u hu => hl u (hkept.input.mem hu)
      obtain ⟨-, -, hs⟩ := step_sound hkept.tables hkept.out hlexed h
      have hlaw := fun u hu => (hlexed u hu).toLawful
      have hrest : Upheld commas rest :=
        hi.part ((List.suffix_cons t rest).trans (List.suffix_append out.reverse _)).isInfix
      exact ⟨step_upheld h hi hs hlaw ht.defines,
        step_steady h hrest (fun u hu => hlaw u (List.mem_cons_of_mem t hu)) ht⟩

theorem builtin_steady (d : Dialect) (pos : Position) :
    Tables.Steady { defines := PrintAt.builtin d pos } := by
  refine ⟨fun m hm => ?_, by simp, by simp, by simp⟩
  have code (pos : Position) (text : Text) := Lexer.snippet_voiced (d := d) pos text
  cases d with
  | msx =>
    rw [List.mem_singleton.1 hm]
    obtain ⟨hbody, hhead⟩ : Upheld commas _ ∧ Voiced _ := upheld_of_forall
      (l := Lexer.snippet .msx pos "locate" ++ [⟨.slot, "VAR", pos⟩] ++ Lexer.snippet .msx pos ":?")
      (by
        simp only [List.mem_append, List.mem_singleton]
        rintro t ((ht | rfl) | ht)
        · exact code _ _ t ht
        · simp [Token.Silent]
        · exact code _ _ t ht)
    obtain ⟨hfall, hfirst⟩ : Upheld commas _ ∧ Voiced _ :=
      Lexer.snippet_upheld (d := .msx) pos "0,0"
    exact ⟨hbody, hhead, hfall, hfirst⟩
  | coco =>
    rw [List.mem_singleton.1 hm]
    obtain ⟨hbody, hhead⟩ : Upheld commas _ ∧ Voiced _ := upheld_of_forall
      (l := [⟨.special, PrintAt.opening, {}⟩, ⟨.slot, [], {}⟩, ⟨.special, PrintAt.closing, {}⟩])
      (by simp [Token.Silent])
    obtain ⟨hfall, hfirst⟩ : Upheld commas _ ∧ Voiced _ :=
      Lexer.snippet_upheld (d := .coco) pos "0"
    exact ⟨hbody, hhead, hfall, hfirst⟩

theorem carryOut_upheld {listing : Listing} {lexed : List Token} {r : Tables × List Token}
    {σ τ : Session} (hx : Lexer.lex d listing = .ok lexed)
    (h : carryOut d quiet lexed σ = .ok r τ) : Upheld commas r.2 ∧ r.1.Steady := by
  obtain ⟨start, newline, rest, final, last, left, rfl, hreach, hlast, heq⟩ := reaches_of_carryOut h
  obtain ⟨hkept, hl⟩ := kept_first (σ := σ) hx
  obtain ⟨hfinal, hsteady⟩ := reaches_upheld hreach hl hkept
    (by simpa using Lexer.lex_upheld hx) (builtin_steady d start.pos)
  refine ⟨?_, hsteady⟩
  rw [heq]
  refine hfinal.part ⟨[], left, ?_⟩
  simp

end Directive

end ClassicBasic
