import ClassicBasic.Proofs.GivenNames
import ClassicBasic.Proofs.Narrow
import ClassicBasic.Proofs.Total

/-!
# Code that can be saved

The last stages write short names, numbers and capitals in ASCII and translated texts in the
character set of the machine. So code that comes from files of characters that fit an octet can be
saved in Latin-1, and so can translated code, which is checked, as long as no labels are reported
behind the check.
-/

set_option autoImplicit false

namespace ClassicBasic

open Text (Ascii Latin)

/-- Whether all short names that are given are written in ASCII. -/
def Naming.Coded (n : Naming) : Prop := ∀ e ∈ n.declared, Ascii e.2

variable {d : Dialect} {t u : Token} {n m : Naming} {quiet : Bool} {σ τ : Session}

theorem Dialect.ascii_of_isShortName {v : Text} (h : isShortName v = true) : Ascii v := by
  have hall {c : Char} (hc : c.isAlphanum = true) : c.toNat < 0x80 := Text.toNat_lt_of_isAlphanum hc
  have one {c : Char} (hc : c.isAlpha = true) : c.isAlphanum = true := by
    simp [Char.isAlphanum, hc]
  unfold isShortName at h
  split at h
  · exact List.forall_mem_singleton.2 (hall (one h))
  · rw [Bool.and_eq_true] at h
    exact List.forall_mem_cons.2 ⟨hall (one h.1), List.forall_mem_singleton.2 (hall h.2)⟩
  · cases h

theorem Dialect.ascii_of_shortName {slot : Nat} {v : Text} (h : shortName? slot = some v) :
    Ascii v := by
  have hletters : Ascii letters := by decide
  unfold shortName? at h
  simp only [Option.bind_eq_bind, Option.bind_eq_some_iff] at h
  obtain ⟨first, hf, second, hs, heq⟩ := h
  cases heq
  exact List.forall_mem_cons.2 ⟨hletters _ (List.mem_of_getElem? hf),
    List.forall_mem_singleton.2 (hletters _ (List.mem_of_getElem? hs))⟩

theorem Naming.common_ascii : Naming.Common Ascii where
  declared _ h := (Dialect.ascii_of_isShortName h).lower
  stock _ _ h := Dialect.ascii_of_shortName h

/-- Whether the characters of a token can be stored, and are those of ASCII unless it is a text that
is read as it stands. -/
structure Token.Storable (t : Token) : Prop where
  latin : Latin t.value
  ascii : t.kind.isLiteral = false → Ascii t.value

namespace Token

theorem storable_of_ascii (h : Ascii t.value) : t.Storable := ⟨h.latin, fun _ => h⟩

theorem Fits.storable (h : t.Fits) : t.Storable := ⟨h.latin, h.ascii⟩

end Token

theorem Framed.storable {tokens : List Token} (h : Framed Token.Fits tokens) :
    ∀ t ∈ tokens, t.Storable := by
  obtain ⟨start, inner, last, rfl, hs, hl, hi⟩ := h
  have hstart : start.Storable := Token.storable_of_ascii (by rw [hs.value]; decide)
  have hlast : last.Storable := Token.storable_of_ascii (by rw [hl.value]; decide)
  refine List.forall_mem_cons.2 ⟨hstart, fun t ht => ?_⟩
  rcases List.mem_append.1 ht with ht | ht
  · exact (hi t ht).storable
  · rwa [List.mem_singleton.1 ht]

namespace Numbering

variable {scale : Scale} {s s' last : State} {next : Token}

/-- Whether what has been numbered and what is noted about labels can be stored. -/
structure State.Storable (s : State) : Prop where
  out : ∀ p ∈ s.out, p.token.Storable
  notes : ∀ e ∈ s.notes, Ascii e.2

theorem State.Storable.emit (h : s.Storable) (ht : t.Storable) : (s.emit t).Storable :=
  ⟨List.forall_mem_cons.2 ⟨ht, h.out⟩, h.notes⟩

theorem State.Storable.await (h : s.Storable) (ht : t.Storable) (target : Target) :
    (s.await t target).Storable :=
  ⟨List.forall_mem_cons.2 ⟨ht, h.out⟩, h.notes⟩

theorem State.Storable.note {entry : Text} (h : s.Storable) (he : Ascii entry) :
    (s.note entry).Storable :=
  ⟨h.out, List.forall_mem_cons.2 ⟨he, h.notes⟩⟩

theorem storable_withValue_ofInt (t : Token) (n : Int) : (t.withValue (Text.ofInt n)).Storable :=
  Token.storable_of_ascii (Text.ascii_ofInt n)

theorem step_storable (h : step scale s t next = .ok s') (ht : t.Storable) (hs : s.Storable) :
    s'.Storable := by
  have noted {c : Char} (hc : c.toNat < 0x80) (hk : t.kind.isLiteral = false) :
      (s.note (c :: t.value)).Storable :=
    hs.note (List.forall_mem_cons.2 ⟨hc, ht.ascii hk⟩)
  have jumped (hk : t.kind.isLiteral = false) : (jump scale.step s t).Storable := by
    have hnote := noted (c := '>') (by decide) hk
    have hends (ends : List (Text × Int)) :
        { s.note (">" ++ t.value) with ends }.Storable := ⟨hnote.out, hnote.notes⟩
    simp only [jump]
    split <;> split
    · exact (hends _).emit (storable_withValue_ofInt t _)
    · exact hnote.emit (storable_withValue_ofInt t _)
    · exact (hends _).await ht _
    · exact hnote.await ht _
  unfold step at h
  split at h
  · rename_i hk
    unfold markLabel at h
    split at h
    · cases h
    · cases h
      have hnote := noted (c := '<') (by decide) (by rw [hk]; rfl)
      exact ⟨hnote.out, hnote.notes⟩
  · rename_i hk
    cases h
    exact jumped (by rw [hk]; rfl)
  · rename_i hk
    cases h
    exact jumped (by rw [hk]; rfl)
  · rename_i hk
    cases h
    exact (noted (by decide) (by rw [hk]; rfl)).await ht _
  · rename_i hk
    cases h
    have hnote := noted (c := '<') (by decide) (by rw [hk]; rfl)
    exact ⟨hnote.out, hnote.notes⟩
  · rename_i hk
    cases h
    exact (noted (by decide) (by rw [hk]; rfl)).await ht _
  · rcases endLine_cases h with ⟨-, rfl⟩ | ⟨-, rfl⟩
    · exact ⟨List.forall_mem_cons.2 ⟨ht, hs.out⟩, hs.notes⟩
    · refine ⟨List.forall_mem_cons.2 ⟨?_, List.forall_mem_cons.2 ⟨ht, hs.out⟩⟩, hs.notes⟩
      exact Token.storable_of_ascii (Text.ascii_ofInt _)
  · cases h
    exact hs.emit ht

theorem walk_storable {input : List Token} (h : walk d scale s input σ = .ok last τ)
    (hi : ∀ t ∈ input, t.Storable) (hs : s.Storable) (hn : σ.naming.Coded) : last.Storable := by
  induction input generalizing s σ with
  | nil => exact absurd h Conversion.throw_ne_ok
  | cons t rest ih =>
    obtain ⟨ht, hrest⟩ := List.forall_mem_cons.1 hi
    rcases walk_cases h with ⟨-, rfl, -⟩ | ⟨hk, u, known, hu, hw⟩ | ⟨-, -, s', hst, hw⟩
    · exact hs.emit ht
    · obtain ⟨hknown, hvalue⟩ := Naming.shorten_listed Naming.common_ascii hu hn
      refine ih hw hrest (hs.emit ?_) hknown
      rcases hvalue with rfl | ⟨v, hv, rfl⟩
      · exact ht
      · have hsigil : Ascii t.sigil :=
          (ht.ascii (by rw [hk]; rfl)).subset fun c hc => List.mem_of_mem_drop hc
        exact Token.storable_of_ascii (hv.append hsigil)
    · exact ih hw hrest (step_storable hst ht hs) hn

theorem number_storable {tokens : List Token} {numbered : Numbered}
    (h : number d scale tokens σ = .ok numbered τ) (hi : ∀ t ∈ tokens, t.Storable)
    (hn : σ.naming.Coded) :
    (∀ t ∈ numbered.tokens, t.Storable) ∧ ∀ e ∈ numbered.notes, Ascii e.2 := by
  cases tokens with
  | nil => exact absurd h Conversion.throw_ne_ok
  | cons start rest =>
    unfold number at h
    obtain ⟨last, ρ, hw, h⟩ := Conversion.bind_eq_ok_iff.1 h
    obtain ⟨tokens, ρ', hx, hp⟩ := Conversion.bind_eq_ok_iff.1 h
    obtain ⟨hr, -⟩ := Conversion.ofExcept_eq_ok_iff.1 hx
    obtain ⟨rfl, -⟩ := Conversion.pure_eq_ok_iff.1 hp
    obtain ⟨hstart, hrest⟩ := List.forall_mem_cons.1 hi
    have hlast := walk_storable hw hrest ⟨by simpa using hstart, by simp⟩ hn
    refine ⟨fun t ht => ?_, fun e he => hlast.notes e (List.mem_reverse.1 he)⟩
    obtain ⟨p, hp, hresolved⟩ := Outcome.exists_of_forall₂ (forall₂_resolve hr) ht
    rcases hresolved with ⟨-, rfl⟩ | ⟨target, -, e, -, -, rfl⟩
    · exact hlast.out p (List.mem_reverse.1 hp)
    · exact storable_withValue_ofInt _ _

end Numbering

theorem Text.toNat_ofNat {n : Nat} (h : n ≤ 0xFF) : (Char.ofNat n).toNat = n := by
  have hvalid : n.isValidChar := .inl (by omega)
  rw [Char.ofNat, dif_pos hvalid]
  rfl

theorem Dialect.latin_translate {v : Text} (h : Latin v) : Latin (d.translate v) := by
  have hhalf := d.length_upperHalf
  have hletters : ∀ e ∈ d.keyboardLetters, e.2.toNat ≤ 0xFF := by cases d <;> decide
  intro c hc
  obtain ⟨x, hx, rfl⟩ := List.mem_map.1 hc
  have htyped : ((d.keyboardLetters.lookup x).getD x).toNat ≤ 0xFF := by
    cases hl : d.keyboardLetters.lookup x with
    | none => exact h x hx
    | some y =>
      obtain ⟨l₁, l₂, heq, -⟩ := List.lookup_eq_some_iff.1 hl
      exact hletters (x, y) (by simp [heq])
  unfold translateChar
  dsimp only
  split
  · rename_i i hi
    have hlt : i < 0x80 := Nat.lt_of_lt_of_le (List.findIdx?_eq_some_iff_getElem.1 hi).1 hhalf
    have hfits : upperHalfStart + i ≤ 0xFF := by
      unfold upperHalfStart
      omega
    rwa [Text.toNat_ofNat hfits]
  · exact htyped

namespace Touch

variable {o : Options} {out tokens : List Token}

theorem capitalised_storable (ht : t.Storable) : (capitalised d o t).Storable := by
  unfold capitalised
  split
  · rename_i hk
    rw [Bool.and_eq_true, Bool.not_eq_true'] at hk
    exact Token.storable_of_ascii (ht.ascii hk.2).upper
  · exact ht

theorem touch_storable {next : Token} (h : touch d o out t next = .ok tokens) (ht : t.Storable)
    (ho : ∀ u ∈ out, u.Storable) : ∀ u ∈ tokens, u.Storable := by
  have code {pos : Position} {text : Text} (hc : Ascii text) :
      ∀ u ∈ Lexer.snippet d pos text, u.Storable := fun u hu => (Lexer.snippet_fits hc u hu).storable
  cases touch_cases h with
  | printed =>
    have hmark : Ascii Options.questionMark := by decide
    have hword : Ascii "print" := by decide
    refine List.forall_mem_singleton.2 (capitalised_storable (Token.storable_of_ascii ?_))
    unfold printed
    split
    · exact hmark
    · exact hword
  | gone => simp
  | @writtenOut operand before hk heq =>
    subst heq
    have hop : Ascii (operator t) :=
      (ht.ascii (by rw [hk]; rfl)).subset fun c hc => List.mem_of_mem_take hc
    intro u hu
    simp only [writtenOut, List.mem_append, List.mem_cons] at hu
    rcases hu with (hu | rfl | hu) | hu
    · exact code (by decide) u hu
    · exact ho u List.mem_cons_self
    · exact code hop u hu
    · split at hu
      · exact code (by decide) u hu
      · cases hu
  | truth _ hc =>
    have hall : ∀ text ∈ Text.ofStrings ["0", "-1"], Ascii text := by decide
    exact code (hall _ hc)
  | translated hk =>
    refine List.forall_mem_singleton.2 ⟨Dialect.latin_translate ht.latin, fun hn => ?_⟩
    exact absurd (hk.symm.trans hn) (by decide)
  | kept => exact List.forall_mem_singleton.2 (capitalised_storable ht)

theorem run_storable {input parsed : List Token} (h : run d o out input = .ok parsed)
    (hi : ∀ t ∈ input, t.Storable) (ho : ∀ t ∈ out, t.Storable) : ∀ t ∈ parsed, t.Storable := by
  induction input generalizing out with
  | nil => cases h
  | cons t rest ih =>
    obtain ⟨ht, hrest⟩ := List.forall_mem_cons.1 hi
    rcases run_cases h with ⟨-, rfl⟩ | ⟨-, tokens, htouch, hr⟩
    · intro u hu
      rcases List.mem_cons.1 (List.mem_reverse.1 hu) with rfl | hu
      · exact ht
      · exact ho u hu
    · refine ih hr hrest fun u hu => ?_
      rcases List.mem_append.1 hu with hu | hu
      · exact touch_storable htouch ht ho u (List.mem_reverse.1 hu)
      · exact ho u hu

theorem finish_storable {parsed : List Token} (h : finish d o tokens = .ok parsed)
    (hi : ∀ t ∈ tokens, t.Storable) : ∀ t ∈ parsed, t.Storable := by
  cases tokens with
  | nil => cases h
  | cons start rest =>
    obtain ⟨hstart, hrest⟩ := List.forall_mem_cons.1 hi
    exact run_storable h hrest (List.forall_mem_singleton.2 hstart)

end Touch

namespace Render

variable {o : Options} {notes : List (Int × Text)} {read tokens : List Token} {code : List Text}

theorem lineText_latin {space written : Text} {last : Option Token} (hs : Latin space)
    (hw : Latin written) (ht : ∀ t ∈ tokens, Latin t.value) :
    Latin (lineText d space last written tokens) := by
  induction tokens generalizing last written with
  | nil => exact hw
  | cons t rest ih =>
    obtain ⟨hfirst, hrest⟩ := List.forall_mem_cons.1 ht
    have before (apart : Text) : Latin (spaceBefore d space last t apart) := by
      unfold spaceBefore
      split
      · simp [Latin]
      · split
        · exact hs
        · simp [Latin]
    have behind : Latin (spaceBehind d space t rest.head?) := by
      unfold spaceBehind
      split <;> split <;> first | exact hs | simp [Latin]
    simp only [lineText]
    split
    · exact ih hw hrest
    · refine ih (Latin.append (Latin.append (Latin.append ?_ (before _)) hfirst) behind) hrest
      split
      · exact hw.append (by decide)
      · exact hw

theorem joinWith_latin {sep : Text} {parts : List Text} (hs : Latin sep)
    (hp : ∀ part ∈ parts, Latin part) : Latin (Text.joinWith sep parts) := by
  fun_induction Text.joinWith sep parts with
  | case1 => simp [Latin]
  | case2 part => exact hp part List.mem_cons_self
  | case3 part rest _ ih =>
    obtain ⟨hpart, hrest⟩ := List.forall_mem_cons.1 hp
    exact (hpart.append hs).append (ih hrest)

theorem trimEnd_latin {p : Char → Bool} {v : Text} (h : Latin v) : Latin (Text.trimEnd p v) :=
  h.subset fun _ hc => List.mem_reverse.1 ((List.dropWhile_suffix _).mem (List.mem_reverse.1 hc))

/-- The characters of a line are those of its tokens, blanks and what is reported. -/
theorem line_latin (ht : ∀ t ∈ tokens, Latin t.value)
    (hn : o.labelReport = true → ∀ e ∈ notes, Ascii e.2) : Latin (line d o notes tokens) := by
  have htext : Latin (lineText d (if o.stripSpaces then [] else " ") none [] tokens) := by
    refine lineText_latin ?_ (by simp [Latin]) ht
    split
    · simp [Latin]
    · decide
  unfold line
  refine trimEnd_latin ?_
  split
  · rename_i hr
    rw [Bool.and_eq_true] at hr
    refine ((trimEnd_latin htext).append (by decide)).append (joinWith_latin (by decide) ?_)
    intro part hpart
    obtain ⟨e, he, rfl⟩ := List.mem_map.1 hpart
    exact (hn hr.1 e (List.mem_filter.1 he).1).latin
  · exact htext

theorem rowsFrom_latin (hr : ∀ t ∈ read, Latin t.value) (ht : ∀ t ∈ tokens, Latin t.value) :
    ∀ row ∈ rowsFrom read tokens, ∀ t ∈ row, Latin t.value := by
  induction tokens generalizing read with
  | nil => simp [rowsFrom]
  | cons t rest ih =>
    obtain ⟨hfirst, hrest⟩ := List.forall_mem_cons.1 ht
    have hread : ∀ u ∈ (if t.value = [] then read else t :: read), Latin u.value := by
      split
      · exact hr
      · exact List.forall_mem_cons.2 ⟨hfirst, hr⟩
    simp only [rowsFrom]
    split
    · simp
    · split
      · refine List.forall_mem_cons.2 ⟨fun u hu => hread u (List.mem_reverse.1 hu), ?_⟩
        exact ih (by simp) hrest
      · exact ih hread hrest

theorem linesFrom_checked (h : linesFrom d o notes read tokens = .ok code) (ho : o.translate = true)
    (hr : ∀ t ∈ read, Latin t.value) :
    ∀ row ∈ rowsFrom read tokens, ∀ t ∈ row, Latin t.value := by
  induction tokens generalizing read code with
  | nil => simp [rowsFrom]
  | cons t rest ih =>
    simp only [linesFrom] at h
    simp only [rowsFrom]
    split at h
    · simp [*]
    · rename_i he
      rw [if_neg he]
      split at h
      · cases h
      · rename_i hfound
        have ht : Latin t.value := fun c hc => by
          simpa [isForeign] using List.find?_eq_none.1 hfound c hc
        have hread : ∀ u ∈ (if t.value = [] then read else t :: read), Latin u.value := by
          split
          · exact hr
          · exact List.forall_mem_cons.2 ⟨ht, hr⟩
        generalize (if t.value = [] then read else t :: read) = read' at h hread ⊢
        split at h
        · rename_i hn
          rw [if_neg hn]
          exact ih h hread
        · rename_i hn
          rw [if_pos (Decidable.not_not.1 hn)]
          split at h
          · cases h
          · obtain ⟨more, hm, rfl⟩ := Outcome.map_eq_ok_iff.1 h
            refine List.forall_mem_cons.2 ⟨fun u hu => hread u (List.mem_reverse.1 hu), ?_⟩
            exact ih hm (by simp)

end Render

/-! ### Saving -/

namespace Encoding

theorem exists_encode?_latin1 {v : Text} (h : Latin v) : ∃ octets, latin1.encode? v = some octets := by
  have hall : ∃ octets, v.mapM latin1.encodeChar? = some octets := by
    induction v with
    | nil => exact ⟨[], rfl⟩
    | cons c v ih =>
      obtain ⟨hc, hv⟩ := List.forall_mem_cons.1 h
      obtain ⟨octets, ho⟩ := ih hv
      exact ⟨[UInt8.ofNat c.toNat] :: octets, by simp [List.mapM_cons, ho, encodeChar?, hc]⟩
  obtain ⟨octets, ho⟩ := hall
  exact ⟨octets.flatten, by rw [encode?, ho]; rfl⟩

end Encoding

namespace Listing

theorem exists_toOctets {code : List Text} {encoding newline : Text}
    (he : Encoding.ofName? encoding = some .latin1) (h : ∀ line ∈ code, Latin line) :
    ∃ octets, toOctets code encoding newline = .ok octets := by
  unfold toOctets
  rw [he]
  dsimp only
  induction code with
  | nil => exact ⟨[], rfl⟩
  | cons line code ih =>
    obtain ⟨hline, hcode⟩ := List.forall_mem_cons.1 h
    obtain ⟨octets, ho⟩ := Encoding.exists_encode?_latin1 hline
    obtain ⟨more, hm⟩ := ih hcode
    exact ⟨octets ++ Encoding.utf8Octets newline ++ more, by rw [encodeLines, ho]; simp [hm, Except.map]⟩

end Listing

namespace Compile

open Branch (Visit)

variable {s : Setting} {o : Options} {listing : Listing} {merged : List Token} {c : Compiled}

/-- Whether a program with these tokens includes the file at a path when it is compiled. -/
def Includes (s : Setting) (lexed : List Token) (known : Naming) (path : Text) : Prop :=
  ∃ before v w, before.naming = known ∧
    Visit.Visits s ⟨s.shelf.size, Branch.main s, lexed, before⟩ v ∧ Visit.Includes s v w ∧
    w.branch.path = path

theorem whole_storable (o : Options) (h : ∀ t ∈ merged, t.Storable) :
    ∀ t ∈ whole o merged, t.Storable := by
  have hheader : ∀ text ∈ Numbering.headerTexts, Ascii text := by decide
  have hremark : Ascii "'" := by decide
  have hend : Ascii "\r" := by decide
  intro t ht
  unfold whole Numbering.withHeader at ht
  split at ht
  · split at ht
    · cases ht
    · simp only [List.mem_append, List.mem_flatMap] at ht
      rcases ht with (ht | ⟨text, htext, ht⟩) | ht
      · exact h t (List.mem_of_mem_take ht)
      · simp only [Numbering.remarkLine, List.mem_cons, List.not_mem_nil, or_false] at ht
        rcases ht with rfl | rfl | rfl
        · exact Token.storable_of_ascii hremark
        · exact Token.storable_of_ascii (hheader text htext)
        · exact Token.storable_of_ascii hend
      · exact h t (List.mem_of_mem_drop ht)
  · exact h t ht

/-- The finished tokens of a program from files that fit an octet can be stored, and so can what is
noted about its labels. -/
theorem storable_of_fits {numbered : Numbering.Numbered} {before after : Session}
    (hp : Passes s o listing σ c τ merged numbered before after) (hσ : σ.naming.Coded)
    (hl : listing.Fits) (hfiles : ∀ path file, Includes s c.lexed σ.naming path →
      s.shelf.load path = .ok file → file.Fits) :
    (∀ t ∈ c.parsed, t.Storable) ∧ ∀ e ∈ numbered.notes, Ascii e.2 := by
  have hframed : Framed Token.Fits merged := by
    refine Visit.convert_framed (v := ⟨s.shelf.size, Branch.main s, c.lexed, before⟩)
      (inherits_fits _) hp.lexed hp.converted fun w hw => ?_
    rcases hw.cases_tail with rfl | ⟨v, hv, hinc⟩
    · exact Lexer.lex_fits hl hp.lexed
    · have hpath : Includes s c.lexed σ.naming w.branch.path :=
        ⟨before, v, w, hp.started, hv, hinc, rfl⟩
      cases hinc with
      | entered _ _ _ _ _ he =>
        obtain ⟨file, hfile, hx⟩ := Branch.enters_shelved he
        exact Lexer.lex_fits (hfiles _ _ hpath hfile) hx
  have hcoded : after.naming.Coded :=
    Branch.convert_listed Naming.common_ascii hp.lexed hp.converted (hp.started ▸ hσ)
  obtain ⟨ready, final, hready, -, hn⟩ := hp.numbering
  obtain ⟨htokens, hnotes⟩ :=
    Numbering.number_storable hn (whole_storable o hframed.storable) (hready ▸ hcoded)
  exact ⟨Touch.finish_storable hp.finished htokens, hnotes⟩

/-- A program with a file of accented text. -/
def accented : Setting :=
  { dialect := .msx
    shelf := Shelf.ofTexts 4 [("/f", "print \"é\"")]
    home := "/"
    main := "/main" }

/-- Code from files that fit an octet can be saved in Latin-1, and so can translated code without a
report of labels. -/
theorem savable_of_ofListing (h : ofListing s o listing σ = .ok c τ) (hσ : σ.naming.Coded)
    (hfit : (listing.Fits ∧ ∀ path file, Includes s c.lexed σ.naming path →
        s.shelf.load path = .ok file → file.Fits) ∨
      (o.translate = true ∧ o.labelReport = false)) :
    (∀ line ∈ c.code, Latin line) ∧
      ∀ encoding newline, Encoding.ofName? encoding = some .latin1 →
        ∃ octets, Listing.toOctets c.code encoding newline = .ok octets := by
  obtain ⟨merged, numbered, before, after, hp⟩ := exists_passes h
  have hlatin : ∀ line ∈ c.code, Latin line := by
    rw [Render.lines_eq hp.rendered]
    intro line hline
    obtain ⟨row, hrow, rfl⟩ := List.mem_map.1 hline
    rcases hfit with ⟨hl, hfiles⟩ | ⟨ht, hreport⟩
    · obtain ⟨htokens, hnotes⟩ := storable_of_fits hp hσ hl hfiles
      refine Render.line_latin (Render.rowsFrom_latin (by simp) (fun t ht => ?_) row hrow)
        fun _ => hnotes
      exact (htokens t (List.mem_of_mem_drop ht)).latin
    · refine Render.line_latin (Render.linesFrom_checked hp.rendered ht (by simp) row hrow) ?_
      rw [hreport]
      exact fun h => absurd h (by decide)
  exact ⟨hlatin, fun encoding newline he => Listing.exists_toOctets he hlatin⟩

/-- A letter of Latin-1 in an included file. -/
theorem savable_of_accented_file :
    ∃ c, outcome accented {} (Listing.ofText "print \"à\"\ninclude \"f\"" "/main" 4) = some c ∧
      ∃ octets, Listing.toOctets c.code "latin1" "\r\n" = .ok octets := by
  obtain ⟨hrun, hmain, hfile⟩ :
      (outcome accented {} (Listing.ofText "print \"à\"\ninclude \"f\"" "/main" 4)).isSome = true ∧
        (Listing.ofText "print \"à\"\ninclude \"f\"" "/main" 4).Fits ∧
        (Listing.ofText "print \"é\"" "/f" 4).Fits := by decide +kernel
  obtain ⟨c, hc⟩ := Option.isSome_iff_exists.1 hrun
  obtain ⟨τ, hτ⟩ := exists_of_outcome hc
  refine ⟨c, hc, (savable_of_ofListing hτ (by simp [Naming.Coded]) (.inl ⟨hmain, ?_⟩)).2 _ _ (by decide)⟩
  intro path file _ hload
  obtain rfl : path = "/f".toList := by simpa using (Shelf.load_ofTexts hload).1
  cases hload
  exact hfile

end Compile

end ClassicBasic
