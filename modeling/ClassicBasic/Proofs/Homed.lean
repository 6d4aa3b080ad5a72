import ClassicBasic.Proofs.Carried

/-!
# Tokens and their files

The lines of a listing are lines of one file, and the braces and ways out of loops that its first
stage leaves are at places of that file, those among them that defines stand for at the places where
they are used.
-/

set_option autoImplicit false

namespace ClassicBasic

namespace Listing

/-- Whether all lines of a listing are lines of one file. -/
def Of (listing : Listing) (file : Text) : Prop := ∀ l ∈ listing, l.file = file

theorem of_numberFrom (file : Text) (n : Nat) (texts : List Text) : (numberFrom file n texts).Of file := by
  induction texts generalizing n with
  | nil => simp [Of, numberFrom]
  | cons t rest ih => exact List.forall_mem_cons.2 ⟨rfl, ih (n + 1)⟩

theorem of_ofText (text file : Text) (tab : Int) : (ofText text file tab).Of file := by
  intro l hl
  simp only [ofText, framed, List.mem_append, List.mem_cons, List.not_mem_nil, or_false] at hl
  rcases hl with (rfl | hl) | rfl
  · rfl
  · exact of_numberFrom file 1 _ l hl
  · rfl

end Listing

namespace Token

/-- Whether a token is a brace or another mark, or the way out of a loop. -/
def Steers (t : Token) : Prop := t.kind = .mark ∨ (t.kind = .directive ∧ t.is "EXIT")

instance (t : Token) : Decidable t.Steers := inferInstanceAs (Decidable (_ ∨ _))

def AtHome (file : Text) (t : Token) : Prop := t.Steers → t.pos.file = file

/-- Whether a token is at a place of the file if it is a mark, a directive or the name of a define. -/
def Homed (file : Text) (t : Token) : Prop :=
  t.kind.isInner = true →
    t.kind = .mark ∨ t.kind = .directive ∨ Define.isInvocable t.value = true → t.pos.file = file

variable {file : Text} {t : Token}

theorem homed_of_file (h : t.pos.file = file) : t.Homed file := fun _ _ => h

theorem homed_of_isBlock (h : t.kind.isBlock = true) : t.Homed file :=
  fun hi => by simp [Kind.isInner, h] at hi

theorem Homed.atHome (h : t.Homed file) : t.AtHome file := by
  rintro (hk | ⟨hk, -⟩)
  · exact h (by rw [hk]; rfl) (.inl hk)
  · exact h (by rw [hk]; rfl) (.inr (.inl hk))

end Token

namespace Glyph

/-- Whether all characters are at places of the file. -/
def Of (input : List Glyph) (file : Text) : Prop := ∀ g ∈ input, g.pos.file = file

variable {input left : List Glyph} {file : Text}

theorem Of.suffix (h : Of input file) (hs : left <:+ input) : Of left file := fun g hg => h g (hs.mem hg)

theorem Of.place (h : Of input file) (hne : input ≠ []) : (Glyph.place input).file = file := by
  obtain ⟨g, rest, rfl⟩ := List.exists_cons_of_ne_nil hne
  exact h g List.mem_cons_self

theorem Of.place_or (h : Of input file) : (Glyph.place input).file = file ∨ input = [] := by
  by_cases hne : input = []
  · exact .inr hne
  · exact .inl (h.place hne)

theorem of_ofLine {l : Line} (h : l.file = file) : Of (ofLine l) file := by
  have spread (text rest : Text) (col : Int) : Of (spread l.number text l.file col rest) file := by
    induction rest generalizing col with
    | nil => simpa [Of, Glyph.spread, Position.onLine] using h
    | cons c rest ih => exact List.forall_mem_cons.2 ⟨h, ih (col + 1)⟩
  exact spread _ _ _

end Glyph

variable {d : Dialect} {file : Text}

namespace Lexer

open Glyph (Of place)

variable {closing : Nat} {input : List Glyph}

theorem dataItems_homed {start : Position} {joined part : Text} (ho : Of input file)
    (hs : start.file = file ∨ input = []) :
    ∀ t ∈ (dataItems closing start joined part input).1, t.Homed file := by
  have comma (pos : Position) : Token.Homed file ⟨.symbol, ",", pos⟩ := by
    have hcomma : ¬Define.isInvocable "," = true := by decide
    rintro - (h | h | h)
    · cases h
    · cases h
    · exact absurd h hcomma
  fun_induction dataItems closing start joined part input with
  | case1 => simp
  | case2 =>
    intro t ht
    split at ht
    · cases ht
    · rw [List.mem_singleton.1 ht]
      exact Token.homed_of_file (hs.resolve_right (by simp))
  | case3 start joined part g rest _ _ ih =>
    have hrest : Of rest file := ho.suffix (List.suffix_cons g rest)
    exact ih hrest hrest.place_or
  | case4 _ _ part g rest _ _ _ _ _ _ ih =>
    exact ih (ho.suffix (dataPart_suffix part g rest)) (.inl (hs.resolve_right (by simp)))
  | case5 _ _ part g rest _ _ _ _ _ _ next hn ih =>
    exact ih (ho.suffix ((continued_suffix hn).trans (dataPart_suffix part g rest)))
      (.inl (hs.resolve_right (by simp)))
  | case6 =>
    refine List.forall_mem_cons.2 ⟨Token.homed_of_file (hs.resolve_right (by simp)), ?_⟩
    simpa using comma _
  | case7 _ _ part g rest _ _ _ _ _ _ _ _ _ _ _ _ ih =>
    have hof := ho.suffix (dataPart_suffix part g rest)
    intro t ht
    rcases List.mem_append.1 ht with ht | ht
    · rcases List.mem_cons.1 ht with rfl | ht
      · exact Token.homed_of_file (hs.resolve_right (by simp))
      · rw [List.mem_singleton.1 ht]
        exact comma _
    · exact ih hof hof.place_or t ht
  | case8 =>
    simpa using Token.homed_of_file (hs.resolve_right (by simp))

theorem complete_homed {last : Kind} {t : Token} {read : List Token × List Glyph}
    (ht : t.pos.file = file) (ho : Of input file) (h : complete d closing last t input = .ok read) :
    ∀ u ∈ read.1, u.Homed file := by
  have here : t.Homed file := Token.homed_of_file ht
  have blocks {read : List Token × List Glyph} (h : block closing t input = .ok read) :
      ∀ u ∈ read.1, u.Homed file := by
    intro u hu
    rcases (block_spec h).1 u hu with rfl | hk | hk
    · exact here
    · exact Token.homed_of_isBlock (by rw [hk]; rfl)
    · exact Token.homed_of_isBlock (by rw [hk]; rfl)
  unfold complete at h
  split at h
  · split at h
    · cases h
      simpa using ⟨Token.homed_of_file ht, Token.homed_of_file ht⟩
    · cases h
      simpa using here
  · split at h
    · exact blocks h
    · cases h
      simpa using ⟨Token.homed_of_file ht, Token.homed_of_file ht⟩
  · split at h
    · exact blocks h
    · cases h
      simp
  · cases h
    simp
  · cases h
    dsimp only
    split
    · simpa using here
    · rename_i htext
      refine List.forall_mem_cons.2 ⟨here, List.forall_mem_singleton.2 (Token.homed_of_file (ho.place ?_))⟩
      rintro rfl
      exact htext rfl
  · cases h
    exact List.forall_mem_singleton.2 (Token.homed_of_file ht)
  · cases h
    refine List.forall_mem_cons.2 ⟨here, ?_⟩
    have hbody : Of (input.dropWhile fun g => g.char == ' ') file := ho.suffix (List.dropWhile_suffix _)
    unfold dataFields
    dsimp only
    split
    · simp
    · exact dataItems_homed hbody hbody.place_or
  · cases h
    simpa using here

theorem scan_pos {g : Glyph} {rest left : List Glyph} {t : Token} (h : scan d g rest = .ok (t, left)) :
    t.pos = g.pos := by
  unfold scan at h
  split at h
  · cases h
  · dsimp only at h
    split at h
    · cases h
    · cases h
      rfl

theorem lexFrom_homed {last : Kind} {tokens : List Token} (ho : Of input file)
    (h : lexFrom d closing last input = .ok tokens) : ∀ t ∈ tokens, t.Homed file := by
  have ending (pos : Position) : Token.Homed file ⟨.eof, Listing.eofText, pos⟩ := fun hi => by cases hi
  fun_induction lexFrom d closing last input generalizing tokens with
  | case1 =>
    cases h
    simpa using ending _
  | case2 =>
    cases h
    simpa using ending _
  | case3 => cases h
  | case4 last g rest _ t left hs _ ih =>
    exact ih (ho.suffix ((scan_suffix hs).trans (List.suffix_cons g rest))) h
  | case5 => cases h
  | case6 => cases h
  | case7 last g rest _ t left hs _ _ read left' hc last' =>
    rename_i ih
    obtain ⟨more, hm, rfl⟩ := Outcome.map_eq_ok_iff.1 h
    have hleft : Of left file := ho.suffix ((scan_suffix hs).trans (List.suffix_cons g rest))
    have hpos : t.pos = g.pos := scan_pos hs
    intro u hu
    rcases List.mem_append.1 hu with hu | hu
    · exact complete_homed (hpos ▸ ho g List.mem_cons_self) hleft hc u hu
    · exact ih (hleft.suffix (complete_suffix hc)) hm u hu

theorem lex_homed {listing : Listing} {lexed : List Token} (hf : listing.Of file)
    (h : lex d listing = .ok lexed) :
    (∀ t ∈ lexed, t.Homed file) ∧ ∀ t ∈ lexed.head?, t.pos.file = file := by
  unfold lex at h
  split at h
  · rename_i first second more
    obtain ⟨tokens, ht, rfl⟩ := Outcome.map_eq_ok_iff.1 h
    have hlines : Of ((second :: more).flatMap Glyph.ofLine) file := by
      intro g hg
      obtain ⟨l, hl, hg⟩ := List.mem_flatMap.1 hg
      exact Glyph.of_ofLine (hf l (List.mem_cons_of_mem _ hl)) g hg
    have hne : Glyph.ofLine first ≠ [] := by
      unfold Glyph.ofLine
      cases Text.trimBlankEnd first.text <;> simp [Glyph.spread]
    have hstart : (place (Glyph.ofLine first)).file = file :=
      (Glyph.of_ofLine (hf first List.mem_cons_self)).place hne
    refine ⟨?_, by simpa using hstart⟩
    exact List.forall_mem_cons.2 ⟨Token.homed_of_file hstart,
      List.forall_mem_cons.2 ⟨Token.homed_of_file hstart, lexFrom_homed hlines ht⟩⟩
  · cases h

end Lexer

namespace Lexer

/-- A piece of code is the same wherever it is put, but for where its tokens are. -/
theorem snippet?_movedTo (pos : Position) (code : Text) :
    snippet? d pos code = (snippet? d {} code).map (·.map (·.movedTo pos)) := by
  have mapped {x y : Except Char (List Token)} (u : Token) (h : y = x.map (·.map (·.movedTo pos))) :
      y.map (u.movedTo pos :: ·) = (x.map (u :: ·)).map (·.map (·.movedTo pos)) := by
    rw [h]
    cases x <;> rfl
  fun_induction snippet? d {} code with
  | case1 =>
    rw [snippet?]
    rfl
  | case2 c rest hk hb ih =>
    rw [snippet?]
    split
    · rw [if_pos hb]
      exact mapped ⟨.illegal, [c], {}⟩ ih
    · rename_i hk'
      rw [hk] at hk'
      cases hk'
  | case3 c rest hk hb =>
    rw [snippet?]
    split
    · rw [if_neg hb]
      rfl
    · rename_i hk'
      rw [hk] at hk'
      cases hk'
  | case4 c rest k hk token ih =>
    rw [snippet?]
    split
    · rename_i hk'
      rw [hk] at hk'
      cases hk'
    · rename_i k' hk'
      obtain rfl : k = k' := Option.some.inj (hk.symm.trans hk')
      dsimp only
      have same {x : Except Char (List Token)} : x.map (fun tokens => tokens) = x := by
        cases x <;> rfl
      by_cases hs : (munch id d [c] k rest).2.1 = .spaces
      · simpa only [token, if_pos hs, same] using ih
      · simp only [token, if_neg hs]
        exact mapped ⟨(munch id d [c] k rest).2.1, (munch id d [c] k rest).1, {}⟩ ih

theorem snippet_movedTo (pos : Position) (code : Text) :
    snippet d pos code = (snippet d {} code).map (·.movedTo pos) := by
  unfold snippet
  rw [snippet?_movedTo pos code]
  cases snippet? d {} code <;> rfl

/-- Code that the stages put out, with the tokens it is read as. -/
def fixedCode : List (Text × List (Kind × Text)) :=
  "=+-*/^".toList.map (fun sign => ([sign], [(.symbol, [sign])])) ++
  ([("0", [(.number, "0")]), ("1", [(.number, "1")]), ("-1", [(.symbol, "-"), (.number, "1")]),
    ("0,0", [(.number, "0"), (.symbol, ","), (.number, "0")]),
    ("32*(", [(.number, "32"), (.symbol, "*"), (.symbol, "(")]),
    (")+(", [(.symbol, ")"), (.symbol, "+"), (.symbol, "(")]),
    (")", [(.symbol, ")")])] : List (Text × List (Kind × Text)))

-- the code is read once, since the words of the dialect are taken apart for it
theorem snippet_stages (d : Dialect) :
    (∀ p ∈ fixedCode, snippet d {} p.1 = p.2.map fun face => ⟨face.1, face.2, {}⟩) ∧
      ∀ t ∈ snippet d {} "return", ¬t.Steers := by
  cases d <;> decide +kernel

variable {p : Text × List (Kind × Text)}

theorem snippet_fixed (h : p ∈ fixedCode) (pos : Position) :
    snippet d pos p.1 = p.2.map fun face => ⟨face.1, face.2, pos⟩ := by
  rw [snippet_movedTo, (snippet_stages d).1 p h, List.map_map]
  rfl

theorem snippet_straight (h : p ∈ fixedCode) (pos : Position) :
    ∀ t ∈ snippet d pos p.1, ¬t.Steers := by
  have hall : ∀ p ∈ fixedCode, ∀ face ∈ p.2, face.1 ≠ .mark ∧ face.1 ≠ .directive := by decide
  rw [snippet_fixed h]
  intro t ht
  obtain ⟨face, hf, rfl⟩ := List.mem_map.1 ht
  rintro (hk | ⟨hk, -⟩)
  · exact (hall p h face hf).1 hk
  · exact (hall p h face hf).2 hk

theorem snippet_return_straight (pos : Position) : ∀ t ∈ snippet d pos "return", ¬t.Steers := by
  rw [snippet_movedTo]
  intro t ht
  obtain ⟨u, hu, rfl⟩ := List.mem_map.1 ht
  exact (snippet_stages d).2 u hu

end Lexer

namespace Define

variable {rest : List Token} {t : Token}

/-- Behind code invocations expand to tokens at places of the file. -/
theorem expand_home {table : Defines} {e : Expansion rest}
    (hm : ∀ m ∈ table, ∀ u ∈ m.fallback, u.AtHome file) (hw : Whole (t :: rest))
    (ht : t.kind.isInner = true) (hl : ∀ u ∈ rest, u.Lawful d) (hh : ∀ u ∈ rest, u.Homed file)
    (h : expand table t rest = .ok e) : ∀ u ∈ e.tokens, u.AtHome file := by
  let Behind (input : List Token) : Prop :=
    (∃ t, t.kind.isInner = true ∧ Whole (t :: input)) ∧ (∀ u ∈ input, u.Lawful d) ∧
      ∀ u ∈ input, u.Homed file
  have supplies : Supplies Behind (fun pos => pos.file = file) (Token.AtHome file) table := by
    refine ⟨fun t rest hb hin => ?_, fun t rest hb _ _ _ => ?_, fun t u rest hb hi => ?_⟩
    · obtain ⟨⟨v, hv, hwhole⟩, hlaw, hhome⟩ := hb
      exact ⟨hwhole.within hv (.cons hin) hlaw, (List.forall_mem_cons.1 hlaw).2,
        (List.forall_mem_cons.1 hhome).2⟩
    · exact (hb.2.2 t List.mem_cons_self).atHome
    · obtain ⟨⟨v, hv, hwhole⟩, hlaw, hhome⟩ := hb
      -- the name stands on the line, and it is not the end
      have hn : t.kind ≠ .newline := (inline_of_isInvocable hi).kind_ne (hlaw t List.mem_cons_self)
      have he : t.kind ≠ .eof := fun he => List.cons_ne_nil _ _ (Whole.eq_nil_of_eof hwhole.tail he)
      exact hhome t List.mem_cons_self (Kind.isInner_of_ne (hwhole.unblocked hv t rfl) hn he)
        (.inr (.inr hi))
  have holds : ∀ m ∈ table, m.HoldsAt (fun pos => pos.file = file) (Token.AtHome file) :=
    fun m hmem => ⟨fun u _ _ pos hpos _ => hpos, hm m hmem⟩
  exact ((expands_of_supplies holds supplies rest ⟨⟨t, ht, hw⟩, hl, hh⟩).expand t e h).1

end Define

namespace Directive

variable {quiet : Bool} {tables : Tables} {out rest : List Token} {t : Token}

theorem step_home {p : Progress} (h : step d tables out t rest = .ok p) (hw : Whole (t :: rest))
    (hl : ∀ u ∈ rest, u.Lawful d) (hh : ∀ u ∈ t :: rest, u.Homed file)
    (hm : ∀ m ∈ tables.defines, ∀ u ∈ m.fallback, u.AtHome file) (ho : ∀ u ∈ out, u.AtHome file) :
    (∀ m ∈ p.tables.defines, ∀ u ∈ m.fallback, u.AtHome file) ∧ ∀ u ∈ p.out, u.AtHome file := by
  obtain ⟨ht, hrest⟩ := List.forall_mem_cons.1 hh
  cases step_cases h with
  | left => exact ⟨hm, List.forall_mem_cons.2 ⟨ht.atHome, ho⟩⟩
  | defined _ hr =>
    refine ⟨fun m hmem => ?_, ho⟩
    rcases (Define.readLine_within hl hr).1 m hmem with hmem | ⟨-, hf⟩
    · exact hm m hmem
    · exact fun u hu => (hrest u ((List.takeWhile_prefix _).mem (hf u hu).mem)).atHome
  | opened =>
    refine ⟨hm, List.forall_mem_cons.2 ⟨?_, ho⟩⟩
    rintro (hk | ⟨hk, -⟩) <;> cases hk
  | closed =>
    refine ⟨hm, fun u hu => ?_⟩
    rcases List.mem_append.1 hu with hu | hu
    · exact fun hs => absurd hs (Lexer.snippet_return_straight _ u (List.mem_reverse.1 hu))
    · exact ho u hu
  | expanded hk he =>
    have hin : t.kind.isInner = true := by rw [hk.1]; rfl
    refine ⟨hm, fun u hu => ?_⟩
    rcases List.mem_append.1 hu with hu | hu
    · exact Define.expand_home hm hw hin hl hrest he u (List.mem_reverse.1 hu)
    · exact ho u hu
  | passed =>
    refine ⟨hm, List.forall_mem_cons.2 ⟨?_, ho⟩⟩
    rcases asCall_cases (d := d) out t rest with heq | ⟨-, hk⟩
    · rw [heq]
      exact ht.atHome
    · rintro (hs | ⟨hs, -⟩) <;> rcases hk with hk | hk <;> cases hs.symm.trans hk
  | _ => exact ⟨hm, ho⟩

/-- The tokens that steer a file are at places of the file behind the first stage. -/
theorem carryOut_home {listing : Listing} {lexed : List Token} {r : Tables × List Token}
    {σ τ : Session} (hf : listing.Of file) (hx : Lexer.lex d listing = .ok lexed)
    (h : carryOut d quiet lexed σ = .ok r τ) : ∀ u ∈ r.2, u.AtHome file := by
  obtain ⟨start, newline, rest, final, last, left, rfl, hreach, hlast, heq⟩ := reaches_of_carryOut h
  obtain ⟨hkept, hl⟩ := kept_first (σ := σ) hx
  obtain ⟨hh, hstart⟩ := Lexer.lex_homed hf hx
  have hwhole : Whole rest := (Lexer.lex_whole hx).tail.tail
  have hall {q : Point} (hq : Reaches d quiet
      ⟨σ, { defines := PrintAt.builtin d start.pos }, [newline, start], rest⟩ q) :
      (∀ m ∈ q.tables.defines, ∀ u ∈ m.fallback, u.AtHome file) ∧ ∀ u ∈ q.out, u.AtHome file := by
    induction hq with
    | refl =>
      simp only [List.forall_mem_cons] at hh
      refine ⟨fun m hm u hu hs => ?_, by simpa using ⟨hh.2.1.atHome, hh.1.atHome⟩⟩
      cases d <;> rw [List.mem_singleton.1 hm] at hu
      · exact absurd hs (Lexer.snippet_straight (p := ("0,0", [(.number, "0"), (.symbol, ","),
          (.number, "0")])) (by decide) _ u hu)
      · exact absurd hs (Lexer.snippet_straight (p := ("0", [(.number, "0")])) (by decide) _ u hu)
    | tail hreach hstep ih =>
      have hk := reaches_kept hreach hl hkept
      cases hstep with
      | declared => exact ih
      | read he hst =>
        have hin {u : Token} (hu : u ∈ _) : u ∈ rest := hk.input.mem hu
        exact step_home hst (hwhole.suffix hk.input)
          (fun u hu => (hl u (hin (List.mem_cons_of_mem _ hu))).toLawful)
          (fun u hu => hh u (List.mem_cons_of_mem _ (List.mem_cons_of_mem _ (hin hu)))) ih.1 ih.2
  rw [heq]
  intro u hu
  rcases List.mem_cons.1 (List.mem_reverse.1 hu) with rfl | hu
  · rintro (hk | ⟨hk, -⟩) <;> cases hlast.symm.trans hk
  · exact (hall hreach).2 u hu

end Directive

end ClassicBasic
