import ClassicBasic.Proofs.Sentinels
import ClassicBasic.Proofs.Spelling
import ClassicBasic.Proofs.Upheld

/-!
# Tokens that are seen

A text that the grammar reads has a character other than a blank, unless it is a run of blanks, and the
first three stages make nothing blank of it. What writes nothing in a merged program is a text taken as
it stands: an item of DATA, the text of a remark, or strings joined to nothing.
-/

set_option autoImplicit false

namespace ClassicBasic

def Kind.isVerbatim : Kind → Bool
  | .string | .remarkText | .blockText | .blockEnd | .dataField => true
  | _ => false

/-- Whether a token that stands between the sentinels is seen unless it is taken as it stands. -/
def Token.Seen (t : Token) : Prop := t.Inside ∧ (t.kind.isVerbatim = true ∨ t.Visible)

variable {d : Dialect} {t : Token} {v : Text}

namespace Text

theorem lowerChar_ne_blank {c : Char} (h : c ≠ ' ') : lowerChar c ≠ ' ' := by
  intro hc
  exact h (lowerChar_eq hc (by decide) (by decide) (by decide))

end Text

namespace Grammar

theorem visible_of_isName (h : isName false v = true) : ∃ c ∈ v, c ≠ ' ' := by
  cases v with
  | nil => simp [isName] at h
  | cons c rest =>
    simp only [isName, Bool.and_eq_true] at h
    refine ⟨c, List.mem_cons_self, ?_⟩
    rintro rfl
    exact absurd h.1 (by decide)

end Grammar

namespace Dialect

theorem visible_of_classify {k : Kind} (h : d.classify v = some k) (hk : k ≠ .spaces) :
    ∃ c ∈ v, c ≠ ' ' := by
  by_contra hnone
  push Not at hnone
  have hblank : ' ' ∈ Grammar.boundaries := by decide
  match v with
  | [] => simp [classify_nil] at h
  | [c] =>
    rw [hnone c (by simp), (classify_boundaries d).1] at h
    exact hk (Option.some.inj h).symm
  | c :: x :: rest =>
    have hc : c = ' ' := hnone c (by simp)
    rw [classify_boundary hblank (by simp [hc]) (by simp) ⟨c, by simp, by simp [hc]⟩] at h
    cases h

end Dialect

namespace Lexer

theorem snippet_visible (pos : Position) (code : Text) : ∀ t ∈ snippet d pos code, t.Visible := by
  have all {tokens : List Token} (h : snippet? d pos code = .ok tokens) : ∀ t ∈ tokens, t.Visible := by
    fun_induction snippet? d pos code generalizing tokens with
    | case1 => simp_all
    | case2 c rest hc hb ih =>
      obtain ⟨more, hm, rfl⟩ := Outcome.map_eq_ok_iff.1 h
      refine List.forall_mem_cons.2 ⟨⟨c, by simp, ?_⟩, ih hm⟩
      rintro rfl
      simp [(Dialect.classify_boundaries d).1] at hc
    | case3 => cases h
    | case4 c rest k hk =>
      rename_i ih
      obtain ⟨more, hm, rfl⟩ := Outcome.map_eq_ok_iff.1 h
      split
      · exact ih hm
      · rename_i hs
        exact List.forall_mem_cons.2
          ⟨Dialect.visible_of_classify (classify_munch id [c] k hk rest) hs, ih hm⟩
  unfold snippet
  split
  · rename_i h
    exact all h
  · simp

/-- What a scanned token stands for is seen unless it is taken as it stands. -/
theorem complete_visible {closing : Nat} {last : Kind} {input : List Glyph}
    {read : List Token × List Glyph} (ht : d.classify t.value = some t.kind) (hs : t.kind ≠ .spaces)
    (h : complete d closing last t input = .ok read) :
    ∀ u ∈ read.1, u.kind.isVerbatim = true ∨ u.Visible := by
  have hseen : t.kind.isVerbatim = true ∨ t.Visible := .inr (Dialect.visible_of_classify ht hs)
  have kind {u : Token} {k : Kind} (hk : u.kind = k) (hv : k.isVerbatim = true) :
      u.kind.isVerbatim = true ∨ u.Visible := .inl (hk ▸ hv)
  have blocked (hb : block closing t input = .ok read) :
      ∀ u ∈ read.1, u.kind.isVerbatim = true ∨ u.Visible := by
    intro u hu
    rcases (block_spec hb).1 u hu with rfl | hk | hk
    · exact hseen
    · exact kind hk rfl
    · exact kind hk rfl
  have sign {k : Kind} {c : Char} {pos : Position} (hc : c ≠ ' ') :
      Token.Visible ⟨k, [c], pos⟩ := ⟨c, by simp, hc⟩
  unfold complete at h
  split at h
  case h_1 hk =>
    split at h
    · rename_i symbol name _ hsplit
      cases h
      obtain ⟨rfl, hv⟩ := splitToggle_eq hsplit
      have hname : Grammar.isName false name = true := Dialect.accepts_toggle (hv ▸ hk ▸ ht)
      refine List.forall_mem_cons.2 ⟨.inr (sign (by decide)), List.forall_mem_singleton.2 (.inr ?_)⟩
      exact Grammar.visible_of_isName hname
    · cases h
      exact List.forall_mem_singleton.2 hseen
  case h_2 =>
    split at h
    · exact blocked h
    · cases h
      exact List.forall_mem_cons.2 ⟨.inr (sign (by decide)), List.forall_mem_singleton.2 (.inl rfl)⟩
  case h_3 =>
    split at h
    · exact blocked h
    · cases h
      simp
  case h_4 =>
    cases h
    simp
  case h_5 =>
    cases h
    dsimp only
    split
    · exact List.forall_mem_singleton.2 hseen
    · exact List.forall_mem_cons.2 ⟨hseen, List.forall_mem_singleton.2 (.inl rfl)⟩
  case h_6 =>
    cases h
    exact List.forall_mem_singleton.2 (.inl rfl)
  case h_7 =>
    cases h
    refine List.forall_mem_cons.2 ⟨hseen, fun u hu => ?_⟩
    rcases dataFields_kind closing input u hu with hk | ⟨-, hv⟩
    · exact kind hk rfl
    · exact .inr ⟨',', by rw [hv]; decide, by decide⟩
  case h_8 =>
    cases h
    exact List.forall_mem_singleton.2 hseen

theorem lexFrom_visible {closing : Nat} {last : Kind} {input : List Glyph} {tokens : List Token}
    (h : lexFrom d closing last input = .ok tokens) :
    ∀ u ∈ tokens, u.kind.isVerbatim = true ∨ u.Visible := by
  have ending (pos : Position) : Token.Visible ⟨.eof, Listing.eofText, pos⟩ :=
    ⟨'E', by simp [Listing.eofText], by decide⟩
  fun_induction lexFrom d closing last input generalizing tokens with
  | case1 =>
    cases h
    exact List.forall_mem_singleton.2 (.inr (ending _))
  | case2 =>
    cases h
    exact List.forall_mem_singleton.2 (.inr (ending _))
  | case3 => cases h
  | case4 _ _ _ _ _ _ _ _ ih => exact ih h
  | case5 => cases h
  | case6 => cases h
  | case7 last g rest _ t left hs hk _ read left' hc =>
    rename_i ih
    obtain ⟨more, hm, rfl⟩ := Outcome.map_eq_ok_iff.1 h
    intro u hu
    rcases List.mem_append.1 hu with hu | hu
    · exact complete_visible (scan_classified hs) hk hc u hu
    · exact ih hm u hu

theorem lex_visible {listing : Listing} {tokens : List Token} (h : lex d listing = .ok tokens) :
    ∀ u ∈ tokens, u.kind.isVerbatim = true ∨ u.Visible := by
  unfold lex at h
  split at h
  · obtain ⟨more, hm, rfl⟩ := Outcome.map_eq_ok_iff.1 h
    have hline (pos : Position) : Token.Visible ⟨.newline, [Glyph.endMark], pos⟩ :=
      ⟨Glyph.endMark, by simp, by decide⟩
    have hstart (pos : Position) : Token.Visible ⟨.program, Listing.programText, pos⟩ :=
      ⟨'P', (by decide : 'P' ∈ Listing.programText), by decide⟩
    exact List.forall_mem_cons.2 ⟨.inr (hstart _), List.forall_mem_cons.2 ⟨.inr (hline _),
      lexFrom_visible hm⟩⟩
  · cases h

/-- What is lexed between the sentinels is seen unless it is taken as it stands. -/
theorem lex_seen {listing : Listing} {tokens : List Token} (h : lex d listing = .ok tokens) :
    Framed Token.Seen tokens := by
  have hv := lex_visible h
  obtain ⟨start, inner, last, rfl, hs, hl, hi⟩ := lex_inside h
  exact ⟨start, inner, last, rfl, hs, hl, fun t ht => ⟨hi t ht, hv t (by simp [ht])⟩⟩

end Lexer

theorem inherits_seen (d : Dialect) : Inherits d Token.Seen where
  inside _ h := h.1
  code pos text _ t ht := ⟨Lexer.snippet_inside pos text t ht, .inr (Lexer.snippet_visible pos text t ht)⟩
  special v hv _ := by
    refine ⟨rfl, .inr ⟨'?', ?_, by decide⟩⟩
    have hall : ∀ v ∈ [PrintAt.opening, PrintAt.closing], '?' ∈ v := by decide
    exact hall v hv
  lineEnd _ := ⟨rfl, .inr ⟨'\r', by simp, by decide⟩⟩
  moved _ _ h := h
  called t k h ht hk := by
    refine ⟨by rcases hk with rfl | rfl <;> rfl, .inr ?_⟩
    exact h.2.resolve_left (by rcases ht with ht | ht <;> simp [ht, Kind.isVerbatim])
  named t k pos h hn hk := by
    refine ⟨Kind.not_isSentinel_of_isNaming hk, .inr ?_⟩
    obtain ⟨c, hc, hne⟩ : t.Visible := by
      rcases hn with hn | hn | hn
      · exact h.2.resolve_left (by simp [hn, Kind.isVerbatim])
      · exact Grammar.visible_of_isName hn
      · exact ⟨'@', by rw [hn]; decide, by decide⟩
    exact ⟨Text.lowerChar c, List.mem_map_of_mem hc, Text.lowerChar_ne_blank hne⟩
  remark _ _ := ⟨rfl, .inl rfl⟩
  joined _ _ _ h _ hk := ⟨h.1, .inl (by rw [Token.withValue, hk]; rfl)⟩

namespace Merge

open Kind (isWithin)

/-- What is put in place brings no part of a block with it when the input brings none. -/
theorem tracks_unblocked : Tracks fun l out =>
    (∀ t ∈ l, isWithin t.kind = false) → ∀ t ∈ out, isWithin t.kind = false where
  put h tokens hl := by
    simp only [List.mem_append, or_imp, forall_and] at hl
    intro t ht
    rcases List.mem_append.1 ht with ht | ht
    · exact hl.2 t (List.mem_reverse.1 ht)
    · exact h hl.1 t ht
  sign h _ ht hl := by
    simp only [List.mem_append, or_imp, forall_and] at hl
    exact List.forall_mem_cons.2 ⟨by rw [ht]; rfl, (List.forall_mem_cons.1 (h hl.1)).2⟩
  add {l out} h p t hl := by
    simp only [List.mem_append, or_imp, forall_and] at hl
    obtain ⟨gone, kept, new, rfl, hadd, -, hnew⟩ := add_alters p t out
    rw [hadd]
    intro u hu
    rcases List.mem_append.1 hu with hu | hu
    · rcases hnew u hu with rfl | ⟨hk, -⟩
      · exact hl.2 u (by simp)
      · rw [hk]
        rfl
    · exact h hl.1 u (List.mem_append_right _ hu)

theorem Expands.unblocked {gives : Token → Token → List Token → Prop} {l whole : List Token}
    (h : Expands gives l whole)
    (hg : ∀ t name spliced, gives t name spliced → ∀ u ∈ spliced, isWithin u.kind = false) :
    ∀ u ∈ whole, isWithin u.kind = false := by
  induction h with
  | eof ht => exact List.forall_mem_singleton.2 (by rw [ht]; rfl)
  | included _ _ hs _ ih =>
    intro u hu
    rcases List.mem_append.1 hu with hu | hu
    · exact hg _ _ _ hs u hu
    · exact ih u hu
  | block _ _ _ _ ih =>
    intro u hu
    rcases List.mem_append.1 hu with hu | hu
    · obtain ⟨t, -, hu⟩ := List.mem_flatMap.1 hu
      simp only [textLine, List.mem_cons, List.not_mem_nil, or_false] at hu
      rcases hu with rfl | rfl | rfl <;> rfl
    · exact ih u hu
  | token _ hb _ _ ih => exact List.forall_mem_cons.2 ⟨Kind.isBlock_of_isWithin hb, ih⟩

end Merge

namespace Branch.Visit

variable {s : Setting} {v : Visit} {listing : Listing} {merged : List Token} {τ : Session}

/-- What a merged program has between its sentinels is seen unless it is taken as it stands. -/
theorem convert_seen (hx : Lexer.lex s.dialect listing = .ok v.lexed)
    (h : convert s v.depth v.branch v.lexed v.session = .ok merged τ) : Framed Token.Seen merged := by
  refine convert_framed (inherits_seen s.dialect) hx h fun w hw => ?_
  rcases hw.cases_tail with rfl | ⟨_, -, hv⟩
  · exact Lexer.lex_seen hx
  · cases hv with
    | entered _ _ _ _ _ he =>
      obtain ⟨listing', hx'⟩ := enters_lexed he
      exact Lexer.lex_seen hx'

theorem convert_unblocked (hx : Lexer.lex s.dialect listing = .ok v.lexed)
    (h : convert s v.depth v.branch v.lexed v.session = .ok merged τ) :
    ∀ t ∈ merged, t.kind.isWithin = false := by
  induction hd : v.depth using Nat.strong_induction_on generalizing v listing merged τ with
  | _ depth ih =>
    obtain ⟨placed, ready, whole, -, hexp, hF⟩ :=
      convert_expands Merge.tracks_unblocked (fun h => h) hx h
    have hwhole := hexp.unblocked fun t name spliced hgives => ?_
    · intro t ht
      exact hF hwhole t (List.mem_reverse.2 ht)
    · obtain ⟨w, before, after, merged', -, hdepth, he, hw, rfl, -⟩ := hgives
      obtain ⟨listing', hx'⟩ := enters_lexed he
      intro u hu
      exact ih w.depth (by omega) hx' hw rfl u (mem_of_mem_body hu)

end Branch.Visit

end ClassicBasic
