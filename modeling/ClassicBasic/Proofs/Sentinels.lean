import ClassicBasic.Proofs.Framed
import ClassicBasic.Proofs.Tidying

/-!
# Sentinels

Every list of tokens that a stage of a conversion leaves, of the main file and of the files it
includes, has one start, in front, and one end, behind everything else.
-/

set_option autoImplicit false

namespace ClassicBasic

/-- Whether the first token of a list, and no other, is a start, and the last one, and no other, an
end. -/
def Sentinels (tokens : List Token) : Prop :=
  tokens ≠ [] ∧ ∀ i t, tokens[i]? = some t →
    (t.kind = .program ↔ i = 0) ∧ (t.kind = .eof ↔ i + 1 = tokens.length)

variable {d : Dialect} {tokens : List Token} {t u : Token}

theorem Framed.sentinels (h : Framed Token.Inside tokens) : Sentinels tokens := by
  obtain ⟨start, inner, last, rfl, hs, hl, hi⟩ := h
  refine ⟨by simp, fun i t ht => ?_⟩
  cases i with
  | zero =>
    cases ht
    simp [hs.kind]
  | succ i =>
    rw [List.getElem?_cons_succ, List.getElem?_append] at ht
    split at ht
    · rename_i hlt
      have hin := hi t (List.mem_of_getElem? ht)
      simp only [hin.ne_program, hin.ne_eof, false_iff]
      simp
      omega
    · rename_i hle
      rw [List.getElem?_singleton] at ht
      split at ht
      · cases ht
        simp only [hl.kind, List.length_cons, List.length_append, List.length_nil]
        simp
        omega
      · cases ht

theorem Token.inside_of_kind {k : Kind} (h : t.kind = k) (hk : k.isSentinel = false) : t.Inside := by
  subst h
  exact hk

theorem Kind.not_isSentinel_of_isRead {k : Kind} (h : k.isRead = true) : k.isSentinel = false := by
  cases k <;> first | rfl | cases h

theorem Kind.not_isSentinel_of_isNaming {k : Kind} (h : Kind.isNaming k = true) :
    k.isSentinel = false := by
  cases k <;> first | rfl | cases h

namespace Lexer

theorem snippet_inside (pos : Position) (code : Text) :
    ∀ t ∈ snippet d pos code, t.Inside := by
  unfold snippet
  split
  · rename_i hs
    intro t ht
    rcases (snippet?_spec hs t ht).1 with hk | hk
    · exact Token.inside_of_kind hk rfl
    · exact Kind.not_isSentinel_of_isRead hk
  · simp

theorem reading_inside (input : List Glyph) : Reading d Token.Inside input := by
  intro closing last g rest t left read _ hs h
  have hkind : t.kind.isRead = true := Dialect.isRead_of_classify (scan_classified hs)
  have ht : t.Inside := Kind.not_isSentinel_of_isRead hkind
  have blocked (hb : block closing t left = .ok read) : ∀ u ∈ read.1, u.Inside := by
    intro u hu
    rcases (block_spec hb).1 u hu with rfl | hk | hk
    · exact ht
    · exact Token.inside_of_kind hk rfl
    · exact Token.inside_of_kind hk rfl
  unfold complete at h
  split at h
  case h_1 hk =>
    split at h
    · rename_i symbol name hsplit
      cases h
      obtain ⟨rfl, hv⟩ := splitToggle_eq hsplit
      obtain ⟨k, hn⟩ := classify_name (hv ▸ hk ▸ scan_classified hs)
      simp only [List.mem_cons, List.not_mem_nil, or_false, forall_eq_or_imp, forall_eq, hn,
        Option.getD_some]
      exact ⟨rfl, Kind.not_isSentinel_of_isRead (Dialect.isRead_of_classify hn)⟩
    · cases h
      simpa using ht
  case h_2 =>
    split at h
    · exact blocked h
    · cases h
      simp [Token.Inside, Kind.isSentinel]
  case h_3 =>
    split at h
    · exact blocked h
    · cases h
      simp
  case h_4 =>
    cases h
    simp
  case h_5 =>
    cases h
    intro u hu
    dsimp only at hu
    split at hu
    · rwa [List.mem_singleton.1 hu]
    · rcases List.mem_cons.1 hu with rfl | hu
      · exact ht
      · rw [List.mem_singleton.1 hu]
        rfl
  case h_6 =>
    cases h
    simp [Token.Inside, Kind.isSentinel]
  case h_7 =>
    cases h
    intro u hu
    rcases List.mem_cons.1 hu with rfl | hu
    · exact ht
    · rcases dataFields_kind closing left u hu with hk | ⟨hk, -⟩
      · exact Token.inside_of_kind hk rfl
      · exact Token.inside_of_kind hk rfl
  case h_8 =>
    cases h
    simpa using ht

theorem lex_inside {listing : Listing} (h : lex d listing = .ok tokens) :
    Framed Token.Inside tokens :=
  lex_framed (fun _ => rfl) (reading_inside _) h

end Lexer

theorem inherits_inside (d : Dialect) : Inherits d Token.Inside where
  inside _ h := h
  code pos text _ := Lexer.snippet_inside pos text
  special _ _ _ := rfl
  lineEnd _ := rfl
  moved _ _ h := h
  called _ _ _ _ hk := by rcases hk with rfl | rfl <;> rfl
  named _ _ _ _ _ hk := Kind.not_isSentinel_of_isNaming hk
  remark _ _ := rfl
  joined _ _ _ h _ _ := h

namespace Numbering

variable {scale : Scale} {inner new : List Token} {σ τ : Session}

theorem Stands.inside (h : Stands t u) (ht : t.Inside) : u.Inside := by
  rcases h with rfl | ⟨hk, -⟩
  · exact ht
  · exact Token.inside_of_kind hk ht

theorem Numbers.inside (h : Numbers (inner ++ [u]) new) (hi : ∀ t ∈ inner, t.Inside) (hu : u.Ends) :
    ∃ more, new = more ++ [u] ∧ ∀ t ∈ more, t.Inside := by
  induction inner generalizing new with
  | nil =>
    cases h with
    | ending => exact ⟨[], rfl, by simp⟩
    | entry ht => simp [hu.kind, Kind.isEntry] at ht
    | line ht => simp [hu.kind] at ht
    | token _ h => cases h
  | cons t inner ih =>
    obtain ⟨ht, hinner⟩ := List.forall_mem_cons.1 hi
    cases h with
    | ending he => exact absurd he ht.ne_eof
    | entry _ h => exact ih h hinner
    | line _ hn h =>
      obtain ⟨more, rfl, hmore⟩ := ih h hinner
      exact ⟨_ :: _ :: more, rfl, List.forall_mem_cons.2 ⟨ht, List.forall_mem_cons.2
        ⟨Token.inside_of_kind hn rfl, hmore⟩⟩⟩
    | token hs h =>
      obtain ⟨more, rfl, hmore⟩ := ih h hinner
      exact ⟨_ :: more, rfl, List.forall_mem_cons.2 ⟨hs.inside ht, hmore⟩⟩

theorem number_inside {numbered : Numbered} (hf : Framed Token.Inside tokens)
    (h : number d scale tokens σ = .ok numbered τ) : Framed Token.Inside numbered.tokens := by
  obtain ⟨start, inner, last, rfl, hs, hl, hi⟩ := hf
  obtain ⟨tail, heq, hn⟩ := number_numbers h
  obtain ⟨more, rfl, hmore⟩ := hn.inside hi hl
  exact ⟨start, more, last, heq, hs, hl, hmore⟩

end Numbering

namespace Touch

variable {o : Options} {inner new : List Token}

theorem touch_inside {out tokens : List Token} {next : Token}
    (h : touch d o out t next = .ok tokens) (ht : t.Inside) : ∀ u ∈ tokens, u.Inside := by
  have kept {u : Token} (hk : u.kind = t.kind) : u.Inside := Token.inside_of_kind hk ht
  cases touch_cases h with
  | printed => simpa using kept (capitalised_kind.trans printed_kind)
  | gone => simp
  | @writtenOut operand _ _ _ hi =>
    intro u hu
    simp only [writtenOut, List.mem_append, List.mem_cons] at hu
    rcases hu with (hu | rfl | hu) | hu
    · exact Lexer.snippet_inside _ _ u hu
    · exact Token.inside_of_kind hi rfl
    · exact Lexer.snippet_inside _ _ u hu
    · split at hu
      · exact Lexer.snippet_inside _ _ u hu
      · cases hu
  | truth => exact Lexer.snippet_inside _ _
  | translated => simpa using kept (u := t.withValue (d.translate t.value)) rfl
  | kept => simpa using kept capitalised_kind

theorem Touches.inside (h : Touches d o (inner ++ [u]) new) (hi : ∀ t ∈ inner, t.Inside) :
    ∃ more, new = more ++ [u] ∧ ∀ t ∈ more, t.Inside := by
  induction inner generalizing new with
  | nil =>
    cases h with
    | ending => exact ⟨[], rfl, by simp⟩
    | token _ h => cases h
  | cons t inner ih =>
    obtain ⟨ht, hinner⟩ := List.forall_mem_cons.1 hi
    cases h with
    | ending he => exact absurd he ht.ne_eof
    | @token _ next out _ tokens _ htouch h =>
      obtain ⟨more, rfl, hmore⟩ := ih h hinner
      refine ⟨tokens ++ more, by simp, fun v hv => ?_⟩
      rcases List.mem_append.1 hv with hv | hv
      · exact touch_inside htouch ht v hv
      · exact hmore v hv

theorem finish_inside {parsed : List Token} (hf : Framed Token.Inside tokens)
    (h : finish d o tokens = .ok parsed) : Framed Token.Inside parsed := by
  obtain ⟨start, inner, last, rfl, hs, hl, hi⟩ := hf
  obtain ⟨new, rfl, hn⟩ := finish_touches h
  obtain ⟨more, rfl, hmore⟩ := hn.inside hi
  exact ⟨start, more, last, rfl, hs, hl, hmore⟩

end Touch

namespace Compile

variable {s : Setting} {o : Options} {listing : Listing} {lexed carried placed merged : List Token}
  {tables : Tables} {quiet : Bool} {depth : Nat} {b : Branch}
  {numbered : Numbering.Numbered} {σ τ ready final : Session}

/-- The lists of tokens that the stages of a conversion leave when they succeed, in any file of a
program. -/
inductive Leaves (s : Setting) (o : Options) : List Token → Prop
  | lexed {listing : Listing} {lexed : List Token} (hx : Lexer.lex s.dialect listing = .ok lexed) :
    Leaves s o lexed
  | carried {listing : Listing} {lexed carried : List Token} {tables : Tables} {quiet : Bool}
    {σ τ : Session} (hx : Lexer.lex s.dialect listing = .ok lexed)
    (hd : Directive.carryOut s.dialect quiet lexed σ = .ok (tables, carried) τ) : Leaves s o carried
  | placed {listing : Listing} {lexed carried placed : List Token} {tables : Tables} {quiet : Bool}
    {σ τ : Session} (hx : Lexer.lex s.dialect listing = .ok lexed)
    (hd : Directive.carryOut s.dialect quiet lexed σ = .ok (tables, carried) τ)
    (hp : Label.place s.dialect tables carried = .ok placed) : Leaves s o placed
  | merged {listing : Listing} {lexed merged : List Token} {depth : Nat} {b : Branch}
    {σ τ : Session} (hx : Lexer.lex s.dialect listing = .ok lexed)
    (hm : Branch.convert s depth b lexed σ = .ok merged τ) : Leaves s o merged
  | numbered {listing : Listing} {lexed merged : List Token} {depth : Nat} {b : Branch}
    {numbered : Numbering.Numbered} {σ τ ready final : Session}
    (hx : Lexer.lex s.dialect listing = .ok lexed)
    (hm : Branch.convert s depth b lexed σ = .ok merged τ)
    (hn : Numbering.number s.dialect o.scale (whole o merged) ready = .ok numbered final) :
    Leaves s o numbered.tokens
  | finished {listing : Listing} {lexed merged parsed : List Token} {depth : Nat} {b : Branch}
    {numbered : Numbering.Numbered} {σ τ ready final : Session}
    (hx : Lexer.lex s.dialect listing = .ok lexed)
    (hm : Branch.convert s depth b lexed σ = .ok merged τ)
    (hn : Numbering.number s.dialect o.scale (whole o merged) ready = .ok numbered final)
    (hf : Touch.finish s.dialect o numbered.tokens = .ok parsed) : Leaves s o parsed

theorem whole_inside (o : Options) (hs : Merge.Seated merged.reverse)
    (hf : Framed Token.Inside merged) : Framed Token.Inside (whole o merged) := by
  obtain ⟨start, second, rest, rfl, -, hk⟩ := hs.exists_cons
  obtain ⟨lead, hwhole, hlead, -⟩ := whole_cons o start second rest
  obtain ⟨_, inner, last, heq, hstart, hl, hi⟩ := hf
  cases inner with
  | nil =>
    cases heq
    rcases hk with hk | hk <;> exact absurd (hl.kind.symm.trans hk) (by decide)
  | cons u inner =>
    obtain ⟨rfl, rfl, rfl⟩ : start = _ ∧ second = _ ∧ rest = inner ++ [last] := by simpa using heq
    obtain ⟨hu, hinner⟩ := List.forall_mem_cons.1 hi
    refine ⟨start, second :: (lead ++ inner), last, by rw [hwhole]; simp, hstart, hl,
      List.forall_mem_cons.2 ⟨hu, fun t ht => ?_⟩⟩
    rcases List.mem_append.1 ht with ht | ht
    · rcases hlead t ht with h | h | h <;> exact Token.inside_of_kind h rfl
    · exact hinner t ht

theorem convert_inside (hx : Lexer.lex s.dialect listing = .ok lexed)
    (hm : Branch.convert s depth b lexed σ = .ok merged τ) : Framed Token.Inside merged := by
  refine Branch.Visit.convert_framed (v := ⟨depth, b, lexed, σ⟩) (inherits_inside _) hx hm ?_
  intro w hw
  rcases hw.cases_tail with rfl | ⟨v, -, hv⟩
  · exact Lexer.lex_inside hx
  · cases hv with
    | entered _ _ _ _ _ he =>
      obtain ⟨listing', hx'⟩ := Branch.enters_lexed he
      exact Lexer.lex_inside hx'

theorem number_convert_inside (hx : Lexer.lex s.dialect listing = .ok lexed)
    (hm : Branch.convert s depth b lexed σ = .ok merged τ)
    (hn : Numbering.number s.dialect o.scale (whole o merged) ready = .ok numbered final) :
    Framed Token.Inside numbered.tokens :=
  Numbering.number_inside
    (whole_inside o (Branch.convert_settled hx hm).seated (convert_inside hx hm)) hn

/-- Whatever a stage leaves has its sentinels in their places and nowhere else. -/
theorem sentinels_of_leaves {tokens : List Token} (h : Leaves s o tokens) : Sentinels tokens := by
  apply Framed.sentinels
  cases h with
  | lexed hx => exact Lexer.lex_inside hx
  | carried hx hd =>
    exact (Directive.carryOut_framed (inherits_inside _) hx (Lexer.lex_inside hx) hd).2
  | placed hx hd hp =>
    obtain ⟨hplain, hsound⟩ := Directive.carryOut_sound hx hd
    obtain ⟨htables, hcarried⟩ :=
      Directive.carryOut_framed (inherits_inside _) hx (Lexer.lex_inside hx) hd
    exact Label.place_framed (inherits_inside _) hplain hsound htables hcarried hp
  | merged hx hm => exact convert_inside hx hm
  | numbered hx hm hn => exact number_convert_inside hx hm hn
  | finished hx hm hn hf => exact Touch.finish_inside (number_convert_inside hx hm hn) hf

/-- The stages of a compilation that succeeds leave what it reads and what it writes. -/
theorem leaves_of_ofListing {c : Compiled} (h : ofListing s o listing σ = .ok c τ) :
    Leaves s o c.lexed ∧ Leaves s o c.parsed := by
  obtain ⟨merged, numbered, before, after, hp⟩ := exists_passes h
  obtain ⟨ready, final, -, -, hn⟩ := hp.numbering
  exact ⟨.lexed hp.lexed, .finished hp.lexed hp.converted hn hp.finished⟩

/-- A program with an included file, a block of remarks, a function and a loop. -/
theorem sentinels_of_included_file :
    ∃ c, outcome Branch.Visit.quoting {} (Listing.ofText
        "func .f(a)\n''\nblock\n''\nret a\nl\x7b\nb=.f(2)\nprint \"a\"\ninclude \"f\"\n\x7d" "/main" 4) =
        some c ∧ Sentinels c.parsed := by
  have hrun : (outcome Branch.Visit.quoting {} (Listing.ofText
      "func .f(a)\n''\nblock\n''\nret a\nl\x7b\nb=.f(2)\nprint \"a\"\ninclude \"f\"\n\x7d" "/main" 4)).isSome =
      true := by decide +kernel
  obtain ⟨c, hc⟩ := Option.isSome_iff_exists.1 hrun
  obtain ⟨τ, hτ⟩ := exists_of_outcome hc
  exact ⟨c, hc, sentinels_of_leaves (leaves_of_ofListing hτ).2⟩

end Compile

end ClassicBasic
