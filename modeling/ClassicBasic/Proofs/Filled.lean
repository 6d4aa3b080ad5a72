import ClassicBasic.Proofs.Tidying
import ClassicBasic.Proofs.Upheld

/-!
# Lines that hold code

A line end is put behind an output only when code stands on the line, except near the end of a file:
there an underscore goes and the line end comes all the same. Where no file has an underscore alone on
its last line, code stands in front of every line end of a merged program.
-/

set_option autoImplicit false

namespace ClassicBasic

/-- Whether a token stays on its line as code: no line end, no entry, and nothing that writes nothing. -/
structure Token.Solid (t : Token) : Prop where
  line : t.kind ≠ .newline
  entry : t.kind.isEntry = false
  written : ¬t.Silent

namespace Merge

/-- Whether code stands on the line that an output (last token first) ends with. -/
def Held : List Token → Prop
  | [] => False
  | t :: out => t.kind ≠ .newline ∧ (t.Solid ∨ Held out)

/-- Whether code stands in front of every line end of an output (last token first). -/
def Filled : List Token → Prop
  | [] => True
  | t :: out => (t.kind = .newline → Held out) ∧ Filled out

/-- An output (last token first) without the start and the token behind it. -/
def content (out : List Token) : List Token := out.dropLast.dropLast

/-- Whether a line end comes near the end of a file where the underscore in front of it is alone on its
line, or where nothing but a separator is in front of it. -/
def Bare (p : Point) : Prop :=
  ∃ t rest last out, p.input = t :: rest ∧ t.kind = .newline ∧ rest.length < 3 ∧
    p.out = last :: out ∧ ((last.kind = .joiner ∧ ¬Held (content out)) ∨
      (last.kind = .separator ∧ content (last :: out) = []))

variable {d : Dialect} {quiet : Bool} {splice : Token → Token → Conversion (List Token)}
  {total : Nat} {out rest l : List Token} {t u : Token}

theorem held_cons (ht : t.Solid) : Held (t :: out) := ⟨ht.line, .inl ht⟩

theorem Held.append (h : Held l) : Held (l ++ out) := by
  induction l with
  | nil => cases h
  | cons t l ih => exact ⟨h.1, h.2.imp_right ih⟩

theorem Filled.append (h : Filled l) (ho : Filled out) : Filled (l ++ out) := by
  induction l with
  | nil => exact ho
  | cons t l ih => exact ⟨fun hk => (h.1 hk).append, ih h.2⟩

theorem filled_of_not_newline (h : ∀ t ∈ l, t.kind ≠ .newline) : Filled l := by
  induction l with
  | nil => trivial
  | cons t l ih =>
    obtain ⟨ht, hl⟩ := List.forall_mem_cons.1 h
    exact ⟨fun hk => absurd hk ht, ih hl⟩

/-- Whether an output (last token first) is seated and code stands in front of its other line ends. -/
def Stocked (out : List Token) : Prop :=
  ∃ front second start, out = front ++ [second, start] ∧
    (second.kind = .newline ∨ second.kind = .separator) ∧ start.kind = .program ∧ Filled front

theorem content_append {f : List Token} {second start : Token} :
    content (f ++ [second, start]) = f := by
  have heq : f ++ [second, start] = f ++ [second] ++ [start] := by simp
  rw [content, heq, List.dropLast_concat, List.dropLast_concat]

namespace Stocked

theorem append (h : Stocked out) (hl : Filled l) : Stocked (l ++ out) := by
  obtain ⟨f, second, start, rfl, hk, hs, hf⟩ := h
  exact ⟨l ++ f, second, start, by simp, hk, hs, hl.append hf⟩

theorem cons (h : Stocked out) (ht : t.kind ≠ .newline) : Stocked (t :: out) :=
  h.append (l := [t]) ⟨fun hk => absurd hk ht, trivial⟩

theorem tail (h : Stocked (t :: out)) (hn : t.kind ≠ .newline) (hs : t.kind ≠ .separator) :
    Stocked out := by
  obtain ⟨f, second, start, heq, hk, hp, hf⟩ := h
  cases f with
  | nil =>
    cases heq
    exact absurd hk (by simp [hn, hs])
  | cons u f =>
    cases heq
    exact ⟨f, second, start, rfl, hk, hp, hf.2⟩

theorem separated (h : Stocked (t :: out)) (hu : u.kind = .separator) : Stocked (u :: out) := by
  obtain ⟨f, second, start, heq, hk, hp, hf⟩ := h
  cases f with
  | nil =>
    cases heq
    exact ⟨[], u, start, rfl, .inr hu, hp, trivial⟩
  | cons v f =>
    cases heq
    exact ⟨u :: f, second, start, rfl, hk, hp, fun hn => by simp [hu] at hn, hf.2⟩

theorem line (h : Stocked out) (hb : Held (content out)) : Stocked (t :: out) := by
  obtain ⟨f, second, start, rfl, hk, hs, hf⟩ := h
  rw [content_append] at hb
  exact ⟨t :: f, second, start, rfl, hk, hs, fun _ => hb, hf⟩

theorem seated (h : Stocked out) : Seated out := by
  obtain ⟨f, second, start, rfl, hk, hs, -⟩ := h
  exact ⟨f, second, start, rfl, hk, hs⟩

/-- Code at the end of an output stands on its line, and so does what upholds a token that writes
nothing. -/
theorem held (h : Stocked (t :: out)) (hu : Upheld joints (t :: out).reverse)
    (hn : t.kind ≠ .newline) (hs : t.kind ≠ .separator ∨ content (t :: out) ≠ [])
    (he : t.kind.isEntry = false) : Held (content (t :: out)) := by
  obtain ⟨f, second, start, heq, hk, hp, hf⟩ := h
  rw [heq, content_append] at hs ⊢
  cases f with
  | nil =>
    cases heq
    simp_all
  | cons v f =>
    cases heq
    by_cases hsilent : t.Silent
    · -- what upholds it is behind the token in front of which the program starts
      have hup : ∀ w ∈ (f ++ [second, start]).head?, w.Upholds joints := by
        intro w hw
        obtain ⟨more, hmore⟩ : ∃ more, f ++ [second, start] = w :: more :=
          ⟨_, List.eq_cons_of_mem_head? hw⟩
        have hall : Upheld joints (t :: (f ++ [second, start])).reverse := hu
        rw [hmore] at hall
        have hpair : Upheld joints [w, t] := hall.part ⟨more.reverse, [], by simp⟩
        exact (upheld_cons.1 hpair).2 t rfl hsilent
      cases f with
      | nil =>
        have hsecond := hup second rfl
        rcases hk with hk | hk
        · exact absurd hsecond (Token.not_upholds_of_kind hk (by decide) (by decide) (by decide))
        · exact absurd hsecond (Token.not_upholds_of_kind hk (by decide) (by decide) (by decide))
      | cons w f =>
        have hkind : w.kind = .data ∨ w.kind = .remark ∨ w.kind = .symbol := by
          rcases hup w rfl with h | h | h
          · exact .inl h
          · exact .inr (.inl h)
          · exact .inr (.inr h.1)
        have hsolid : w.Solid := by
          rcases hkind with h | h | h <;>
            exact ⟨by simp [h], by simp [h, Kind.isEntry], by simp [Token.Silent, h]⟩
        exact ⟨hn, .inr (held_cons hsolid)⟩
    · exact held_cons ⟨hn, he, hsilent⟩

end Stocked

theorem addNewline_stocked (ht : t.kind = .newline) (h : Stocked out)
    (hu : Upheld joints out.reverse) (hb : ∀ σ, ¬Bare ⟨σ, out, t :: rest⟩) :
    Stocked (addNewline (placeOf total rest) t out) := by
  have inner (h : ¬(placeOf total rest).isInner = true) : rest.length < 3 :=
    Nat.lt_of_not_le fun hle => h (decide_eq_true hle)
  cases out with
  | nil => exact absurd rfl h.seated.ne_nil
  | cons last out =>
    simp only [addNewline]
    split
    · exact h
    · exact h
    · exact h
    · rename_i hk
      have htail := h.tail (by simp [hk]) (by simp [hk])
      split
      · exact htail
      · rename_i hp
        refine htail.line ?_
        by_contra hheld
        exact hb {} ⟨t, rest, last, out, rfl, ht, inner hp, rfl, .inl ⟨hk, hheld⟩⟩
    · rename_i hk
      split
      · exact h
      · rename_i hp
        refine h.line (h.held hu (by simp [hk]) (.inr fun hnil => ?_) (by rw [hk]; rfl))
        exact hb {} ⟨t, rest, last, out, rfl, ht, inner hp, rfl, .inr ⟨hk, hnil⟩⟩
    · rename_i hn hl hf _ hs
      have he : last.kind.isEntry = false := by
        cases hk : last.kind <;> simp_all [Kind.isEntry]
      exact h.line (h.held hu hn (.inl hs) he)

theorem addSeparator_stocked {p : Place} (ht : t.kind = .separator) (h : Stocked out) :
    Stocked (addSeparator p t out) := by
  cases out with
  | nil => exact absurd rfl h.seated.ne_nil
  | cons last out =>
    simp only [addSeparator]
    split
    · exact h
    · split
      · exact h.separated ht
      · exact h.cons (by simp [ht])
    · exact h.cons (by simp [ht])

theorem addString_stocked (ht : t.kind = .string) (h : Stocked out) :
    Stocked (addString t out) := by
  have hjoined {v : Text} : (t.withValue v).kind ≠ .newline := by simp [Token.withValue, ht]
  cases out with
  | nil => exact absurd rfl h.seated.ne_nil
  | cons last out =>
    simp only [addString]
    split
    · rename_i hk
      exact (h.tail (by simp [hk]) (by simp [hk])).cons hjoined
    · split
      · rename_i hk
        split
        · exact h.cons (by simp [ht])
        · rename_i earlier before
          split
          · rename_i hearlier
            obtain ⟨f, second, start, heq, hs, hp, hf⟩ := h
            cases f with
            | nil =>
              cases heq
              simp [hp] at hearlier
            | cons u f =>
              cases f with
              | nil =>
                cases heq
                simp [hearlier] at hs
              | cons v f =>
                cases heq
                exact Stocked.cons ⟨f, second, start, rfl, hs, hp, hf.2.2⟩ hjoined
          · exact h.cons (by simp [ht])
      · exact h.cons (by simp [ht])

/-- Putting a token behind an output leaves it and the input behind it upheld. -/
theorem add_upheld {p : Place} (hi : Upheld joints (out.reverse ++ t :: rest)) :
    Upheld joints ((add p t out).reverse ++ rest) := by
  by_cases hk : t.kind = .newline ∨ t.kind = .separator ∨ t.kind = .string
  · obtain ⟨gone, kept, new, rfl, hadd, -, hnew⟩ := add_alters p t out
    have hwritten : ∀ u ∈ new.reverse, ¬u.Silent := by
      intro u hu
      rcases hnew u (List.mem_reverse.1 hu) with rfl | ⟨hu, -⟩
      · rcases hk with hk | hk | hk <;> simp [Token.Silent, hk]
      · simp [Token.Silent, hu]
    have hright : Upheld joints (t :: rest) := hi.part (List.suffix_append _ _).isInfix
    have hrest : Voiced rest := by
      refine hright.voiced ?_
      rcases hk with hk | hk | hk <;> simp [Token.Upholds, hk]
    obtain ⟨hup, hvoiced⟩ : Upheld joints new.reverse ∧ Voiced new.reverse :=
      upheld_of_forall hwritten
    rw [hadd]
    simpa using hi.insert (List.suffix_append gone kept) hup hvoiced (List.suffix_cons t rest) hrest
  · have hadd : add p t out = t :: out := by
      unfold add
      split <;> simp_all
    rw [hadd]
    simpa using hi

/-- Every remark line of a block has its sign on it, and what it does not need is put back. -/
theorem unwrap_filled (hi : Upheld joints l) :
    Filled (unwrap d l).1.reverse ∧ (Upheld joints (unwrap d l).1 ∧ Voiced (unwrap d l).1) ∧
      Voiced (unwrap d l).2 := by
  have nothing : Upheld joints [] ∧ Voiced [] := upheld_of_forall (by simp)
  induction l with
  | nil => exact ⟨trivial, nothing, nothing.2⟩
  | cons t rest ih =>
    have hremark : Lexer.snippet d t.pos "'" = [⟨.remark, "'", t.pos⟩] :=
      Lexer.snippet_apostrophe t.pos
    simp only [unwrap]
    split
    · rename_i hk
      exact ⟨trivial, nothing,
        hi.voiced (Token.not_upholds_of_kind hk (by decide) (by decide) (by decide))⟩
    · split
      · rename_i hk
        exact ⟨trivial, nothing, voiced_cons (Token.not_silent_of_kind hk (by decide) (by decide))⟩
      · obtain ⟨hf, ⟨hup, hvoiced⟩, hleft⟩ := ih (upheld_cons.1 hi).1
        have hsign : Token.Solid ⟨.remark, "'", t.pos⟩ :=
          ⟨by simp, rfl, by simp [Token.Silent]⟩
        have hline : Filled [⟨.newline, "\r", t.pos.withCol t.value.length⟩,
            t.withKind .remarkText, ⟨.remark, "'", t.pos⟩] :=
          ⟨fun _ => ⟨by simp [Token.withKind], .inr (held_cons hsign)⟩,
            filled_of_not_newline (by simp [Token.withKind])⟩
        have htext := (hup.cons hvoiced).cons (t := t.withKind .remarkText)
          (voiced_cons (t := ⟨.newline, "\r", t.pos.withCol t.value.length⟩) (by simp [Token.Silent]))
        rw [hremark]
        refine ⟨?_, ⟨htext.behind (.inr (.inl rfl)), voiced_cons hsign.written⟩, hleft⟩
        simpa using hf.append hline

/-- Whether what is spliced in at a point is upheld and its lines hold code. -/
def Provided (splice : Token → Token → Conversion (List Token)) (p : Point) : Prop :=
  ∀ t rest spliced τ, p.input = t :: rest → t.kind = .directive → t.is "INCLUDE" →
    splice t (rest.headD t) p.session = .ok spliced τ →
    Filled spliced.reverse ∧ (Upheld joints spliced ∧ Voiced spliced) ∧ Voiced rest.tail

/-- One step of the third stage keeps an output (last token first) and the input behind it upheld. -/
theorem step_upheld {p q : Point} (h : Step d quiet splice total p q) (hs : Provided splice p)
    (hi : Upheld joints (p.out.reverse ++ p.input)) :
    Upheld joints (q.out.reverse ++ q.input) := by
  cases h with
  | @included σ τ out t rest spliced hk hincl hsp =>
    obtain ⟨-, ⟨hup, hv⟩, hnext⟩ := hs t rest spliced τ rfl hk hincl hsp
    exact hi.insert (List.suffix_refl out) hup hv
      ((List.tail_suffix rest).trans (List.suffix_cons t rest)) hnext
  | @block σ out t rest hk =>
    have hrest : Upheld joints rest :=
      hi.part ((List.suffix_cons t rest).trans (List.suffix_append _ _)).isInfix
    obtain ⟨-, ⟨hup, hv⟩, hnext⟩ := unwrap_filled (d := d) hrest
    exact hi.insert (List.suffix_refl out) hup hv
      ((suffix_unwrap rest).trans (List.suffix_cons t rest)) hnext
  | @named σ τ out met t rest hk hm =>
    have hright : Upheld joints (t :: rest) := hi.part (List.suffix_append _ _).isInfix
    have hrest : Voiced rest :=
      hright.voiced (Token.not_upholds_of_kind hk (by decide) (by decide) (by decide))
    have hmet : met <:+ out := by
      rcases meetVariable_cases hm with ⟨last, rfl, -, -⟩ | ⟨rfl, -⟩
      · exact List.suffix_cons last met
      · exact List.suffix_refl _
    exact hi.insert (l := [t]) hmet (List.isChain_singleton t)
      (voiced_cons (Token.not_silent_of_kind hk (by decide) (by decide))) (List.suffix_cons t rest)
      hrest
  | token => exact add_upheld hi

/-- One step of the third stage puts a line end where code stands unless the line is bare. -/
theorem step_stocked {p q : Point} (h : Step d quiet splice total p q)
    (hs : Provided splice p) (ho : Stocked p.out) (hl : ∀ u ∈ p.out, u.Lawful d)
    (hi : Upheld joints (p.out.reverse ++ p.input)) (hb : ¬Bare p) : Stocked q.out := by
  cases h with
  | @included σ τ out t rest spliced hk hincl hsp =>
    exact ho.append (hs t rest spliced τ rfl hk hincl hsp).1
  | @block σ out t rest hk =>
    have hrest : Upheld joints rest :=
      hi.part ((List.suffix_cons t rest).trans (List.suffix_append _ _)).isInfix
    exact ho.append (unwrap_filled hrest).1
  | named hk hm =>
    refine Stocked.cons ?_ (by simp [hk])
    rcases meetVariable_cases hm with ⟨last, rfl, hv, -⟩ | ⟨rfl, -⟩
    · obtain ⟨hn, hsep⟩ := kind_of_keepSign (hl last List.mem_cons_self) hv
      exact ho.tail hn hsep
    · exact ho
  | @token σ out t rest =>
    unfold add
    split
    · rename_i hk
      exact addNewline_stocked hk ho (hi.part (List.prefix_append _ _).isInfix)
        fun _ ⟨t, rest, last, out, h⟩ => hb ⟨t, rest, last, out, h⟩
    · rename_i hk
      exact addSeparator_stocked hk ho
    · rename_i hk
      exact addString_stocked hk ho
    · rename_i hn _ _
      exact ho.cons hn

theorem step_bare {p q : Point} (h : Step d quiet splice total p q) (ho : Stocked p.out)
    (hb : Bare p) : ∃ t out, q.out = t :: out ∧ t.kind = .newline ∧ Stocked out := by
  obtain ⟨t, rest, last, out, hinput, ht, hlt, hout, hbare⟩ := hb
  rw [hout] at ho
  cases h with
  | included hk =>
    cases hinput
    simp [ht] at hk
  | block hk =>
    cases hinput
    simp [ht] at hk
  | named hk =>
    cases hinput
    simp [ht] at hk
  | token =>
    cases hinput
    have hp : (placeOf total rest).isInner = false := decide_eq_false (Nat.not_le_of_lt hlt)
    dsimp only at hout
    subst hout
    rcases hbare with ⟨hk, -⟩ | ⟨hk, -⟩
    · exact ⟨t, out, by simp [add, ht, addNewline, hk, hp], ht, ho.tail (by simp [hk]) (by simp [hk])⟩
    · exact ⟨t, last :: out, by simp [add, ht, addNewline, hk, hp], ht, ho⟩

theorem step_closing {p q : Point} (h : Step d quiet splice total p q)
    (ho : ∃ t out, p.out = t :: out ∧ t.kind = .newline) (hi : ∀ u ∈ p.input, u.endsLine = true) :
    q.out = p.out := by
  obtain ⟨last, out, heq, hlast⟩ := ho
  cases h with
  | included hk => simp [Token.endsLine, hk] at hi
  | block hk => simp [Token.endsLine, hk] at hi
  | named hk => simp [Token.endsLine, hk] at hi
  | @token σ out' t rest he =>
    have ht : t.kind = .newline := by
      have := hi t List.mem_cons_self
      simpa [Token.endsLine, he] using this
    dsimp only at heq
    simp [heq, add, ht, addNewline, hlast]

end Merge

theorem Voiced.front {l left : List Token} (h : Voiced l) (hp : left <+: l) : Voiced left := by
  obtain ⟨after, rfl⟩ := hp
  exact h.of_append

namespace Branch

theorem body_isPrefix (tokens : List Token) : body tokens <+: tokens.drop 2 := by
  simp only [body]
  split
  · exact (List.dropLast_prefix _).trans (List.dropLast_prefix _)
  · exact List.dropLast_prefix _

namespace Visit

open Merge (Bare Stocked Filled)

/-- Whether every line end of a file comes where code stands on the line. -/
def Covered (s : Setting) (v : Visit) : Prop := ∀ p, v.Walks s p → ¬Bare p

/-- Whether behind a bare line of a file only line ends follow, the last of which an included file
loses. -/
def Closing (s : Setting) (v : Visit) : Prop :=
  ∀ p, v.Walks s p → Bare p → ∀ u ∈ p.input, u.endsLine = true

/-- Whether what is put in the place of a file is upheld and its lines hold code. -/
structure Dense (merged : List Token) : Prop where
  filled : Filled (body merged).reverse
  upheld : Upheld joints (body merged)
  voiced : Voiced (body merged)

variable {s : Setting} {v : Visit} {listing : Listing} {merged : List Token} {τ : Session}

theorem provided_of_feeds (hfeeds : Feeds s Dense v) {p : Merge.Point} (hw : v.Walks s p)
    (hi : Upheld joints p.input) : Merge.Provided (v.splice s) p := by
  intro t rest spliced τ hp hk hincl hs
  obtain ⟨merged, hm, rfl⟩ := hfeeds p t rest spliced τ hw hp hk hincl hs
  refine ⟨hm.filled, ⟨hm.upheld, hm.voiced⟩, ?_⟩
  rw [hp] at hi
  cases rest with
  | nil => simp [Voiced]
  | cons name rest =>
    obtain ⟨_, _, _, _, _, -, -, -, -, hname⟩ := splice_cases hs
    exact (upheld_cons.1 hi).1.voiced
      (Token.not_upholds_of_kind hname (by decide) (by decide) (by decide))

theorem walks_upheld (hfeeds : Feeds s Dense v) (hx : Lexer.lex s.dialect listing = .ok v.lexed)
    {p : Merge.Point} (h : v.Walks s p) : Upheld joints (p.out.reverse ++ p.input) := by
  obtain ⟨start, newline, rest, ready, hfront, hr⟩ := h
  induction hr with
  | refl => simpa using front_upheld hx hfront
  | @tail p q hr hstep ih =>
    have hw : v.Walks s p := ⟨start, newline, rest, ready, hfront, hr⟩
    have hi : Upheld joints p.input := ih.part (List.suffix_append _ _).isInfix
    exact Merge.step_upheld hstep (provided_of_feeds hfeeds hw hi) ih

/-- On its way through a file the third stage has put line ends where code stands, but maybe the last
one, behind which only line ends follow. -/
theorem walks_stocked (hfeeds : Feeds s Dense v) (hx : Lexer.lex s.dialect listing = .ok v.lexed)
    (hc : v.Closing s) {p : Merge.Point} (h : v.Walks s p) :
    Stocked p.out ∨ ¬v.Covered s ∧ ∃ t out, p.out = t :: out ∧ t.kind = .newline ∧ Stocked out ∧
      ∀ u ∈ p.input, u.endsLine = true := by
  obtain ⟨start, newline, rest, ready, hfront, hr⟩ := h
  obtain ⟨_, _, _, heq, hstart, hnewline, hsound, -, hrest⟩ := (front_sound hx hfront).exists_input
  cases heq
  have hlawful (t name : Token) (σ : Session) (spliced : List Token) (τ : Session)
      (h : v.splice s t name σ = .ok spliced τ) : ∀ u ∈ spliced, u.Lawful s.dialect := splice_lawful h
  induction hr with
  | refl => exact .inl ⟨[], newline, start, rfl, .inl hnewline, hstart, trivial⟩
  | @tail p q hr hstep ih =>
    have hw : v.Walks s p := ⟨start, newline, rest, ready, hfront, hr⟩
    have hup := walks_upheld hfeeds hx hw
    have hprov := provided_of_feeds hfeeds hw (hup.part (List.suffix_append _ _).isInfix)
    have hsuf := Merge.reaches_suffix (.single hstep)
    rcases ih with ho | ⟨hbare, t, out, hout, ht, ho, hends⟩
    · by_cases hb : Bare p
      · obtain ⟨t, out, hout, ht, hbehind⟩ := Merge.step_bare hstep ho hb
        exact .inr ⟨fun hcov => hcov p hw hb, t, out, hout, ht, hbehind,
          fun u hu => hc p hw hb u (hsuf.mem hu)⟩
      · have hset := Merge.reaches_settled hr hlawful
          ⟨hsound.lawful, [], newline, start, rfl, .inl hnewline, hstart⟩ hrest
        exact .inl (Merge.step_stocked hstep hprov ho hset.1.lawful hup hb)
    · have hq := Merge.step_closing hstep ⟨t, out, hout, ht⟩ hends
      exact .inr ⟨hbare, t, out, hq.trans hout, ht, ho, fun u hu => hends u (hsuf.mem hu)⟩

/-- What is put in the place of a file whose lines hold code, maybe but the last. -/
theorem dense_of_final {final left : List Token} {last : Token}
    (hu : Upheld joints (final.reverse ++ last :: left))
    (h : Stocked final ∨ ∃ t out, final = t :: out ∧ t.kind = .newline ∧ Stocked out) :
    Dense (last :: final).reverse := by
  obtain ⟨f, second, start, rfl, hk, hf⟩ : ∃ (f : List Token) (second start : Token),
      final = f ++ [second, start] ∧
      (second.kind = .newline ∨ second.kind = .separator) ∧
      Filled (if (f.head?.map Token.kind) = some .newline then f.tail else f) := by
    rcases h with ⟨f, second, start, rfl, hk, -, hf⟩ |
      ⟨t, out, rfl, ht, f, second, start, rfl, hk, -, hf⟩
    · refine ⟨f, second, start, rfl, hk, ?_⟩
      split
      · cases f with
        | nil => trivial
        | cons t f => exact hf.2
      · exact hf
    · exact ⟨t :: f, second, start, rfl, hk, by simpa [ht] using hf⟩
  have hmerged : (last :: (f ++ [second, start])).reverse =
      start :: second :: (f.reverse ++ [last]) := by simp
  have hbody : body (start :: second :: (f.reverse ++ [last])) =
      (if (f.head?.map Token.kind) = some .newline then f.tail else f).reverse := by
    simp only [body, List.drop_succ_cons, List.drop_zero, List.dropLast_concat, List.getLast?_reverse]
    split
    · exact List.dropLast_reverse
    · rfl
  have hup : Upheld joints (start :: second :: (f.reverse ++ [last])) := by
    refine hu.part ⟨[], left, ?_⟩
    simp
  have hsecond : ¬second.Upholds joints := by
    rcases hk with hk | hk
    · exact Token.not_upholds_of_kind hk (by decide) (by decide) (by decide)
    · exact Token.not_upholds_of_kind hk (by decide) (by decide) (by decide)
  rw [hmerged]
  exact ⟨by rwa [hbody, List.reverse_reverse], hup.part (body_within _),
    ((upheld_cons.1 hup).1.voiced hsecond).front (body_isPrefix _)⟩

/-- What is put in the place of a file has code on its lines when only line ends follow the bare lines of
all files in it. -/
theorem convert_dense (hx : Lexer.lex s.dialect listing = .ok v.lexed)
    (h : convert s v.depth v.branch v.lexed v.session = .ok merged τ)
    (hc : ∀ w, Visits s v w → w.Closing s) : Dense merged := by
  refine convert_visits ?_ hx h hc
  intro v listing placed merged ready τ hx hc hfront hm hfeeds
  obtain ⟨start, newline, rest, final, last, left, rfl, -, -, hr, -, rfl⟩ :=
    Merge.reaches_of_merge (front_sound hx hfront) hm
  have hw : v.Walks s ⟨τ, final, last :: left⟩ := ⟨start, newline, rest, ready, hfront, hr⟩
  refine dense_of_final (walks_upheld hfeeds hx hw) ((walks_stocked hfeeds hx hc hw).imp_right ?_)
  rintro ⟨-, t, out, hout, ht, ho, -⟩
  exact ⟨t, out, hout, ht, ho⟩

theorem feeds_dense (hc : ∀ w, Visits s v w → w.Closing s) : Feeds s Dense v := by
  obtain ⟨depth, b, lexed, σ⟩ := v
  intro p t rest spliced τ hw hp hk hi hs
  obtain ⟨b', lexed', ready', merged', he, hfront, rfl⟩ := splice_entered hs
  obtain ⟨listing', hx'⟩ := enters_lexed he
  cases depth with
  | zero => exact absurd hfront Conversion.throw_ne_ok
  | succ depth =>
    refine ⟨merged', ?_, rfl⟩
    exact convert_dense (v := ⟨depth, b', lexed', ready'⟩) hx' hfront fun w hw' =>
      hc w (.head (.entered rfl hw hp hk hi he) hw')

/-- In a converted file whose line ends all come where code stands, and in whose included files only
line ends follow bare lines, code stands in front of every line end but the first. -/
theorem convert_stocked (hx : Lexer.lex s.dialect listing = .ok v.lexed)
    (h : convert s v.depth v.branch v.lexed v.session = .ok merged τ) (hv : v.Covered s)
    (hc : ∀ w, Visits s v w → w.Closing s) :
    Upheld joints merged ∧ ∃ final last, merged = (last :: final).reverse ∧ last.kind = .eof ∧
      Stocked final := by
  obtain ⟨placed, ready, hfront, hm⟩ := convert_cases h
  obtain ⟨start, newline, rest, final, last, left, rfl, -, -, hr, hlast, rfl⟩ :=
    Merge.reaches_of_merge (front_sound hx hfront) hm
  have hw : v.Walks s ⟨τ, final, last :: left⟩ := ⟨start, newline, rest, ready, hfront, hr⟩
  have hfeeds := feeds_dense hc
  have hup := walks_upheld hfeeds hx hw
  refine ⟨hup.part ⟨[], left, by simp⟩, final, last, rfl, hlast, ?_⟩
  exact (walks_stocked hfeeds hx (hc v (.refl v)) hw).resolve_right fun h => h.1 hv

end Visit

end Branch

end ClassicBasic
