import ClassicBasic.Proofs.Carried

/-!
# What the third stage keeps

The third stage puts included files and remark lines in place and then only tidies up: line ends and
separators go where there is one already, an underscore goes in front of a line end and the sign of
a kept name in front of the name, and strings that meet become one string. Every other token comes
out as it went in, in the same order. Strings that meet where an included file starts are not joined.
-/

set_option autoImplicit false

namespace ClassicBasic

/-- Whether a token is more than the frame of a program and of its lines. -/
def Token.isCode (t : Token) : Bool :=
  match t.kind with
  | .program | .eof | .newline | .separator => false
  | _ => true

namespace Merge

/-- The code of a list of tokens. -/
def code (l : List Token) : List Token := l.filter Token.isCode

/-- What a few tokens next to each other become when the third stage tidies up. -/
inductive Trims : List Token → List Token → Prop
  /-- A line end goes where a line starts and behind a separator. -/
  | lineEnd {last t : Token}
      (hl : last.kind = .newline ∨ last.kind = .labelLine ∨ last.kind = .functionEntry ∨
        last.kind = .separator) (ht : t.kind = .newline) : Trims [last, t] [last]
  /-- A separator goes behind a separator. -/
  | separator {last t : Token} (hl : last.kind = .separator) (ht : t.kind = .separator) :
      Trims [last, t] [last]
  /-- A separator takes the place of a line end in front of it. -/
  | leading {last t : Token} (hl : last.kind = .newline) (ht : t.kind = .separator) :
      Trims [last, t] [t]
  /-- An underscore goes together with the line end behind it. -/
  | joined {last t : Token} (hl : last.kind = .joiner) (ht : t.kind = .newline) : Trims [last, t] []
  /-- An underscore goes in front of a line end that stays. -/
  | trailing {last t : Token} (hl : last.kind = .joiner) (ht : t.kind = .newline) :
      Trims [last, t] [t]
  /-- The sign that keeps a name goes. -/
  | sign {last t : Token} (hl : last.value = keepSign) (ht : t.kind = .identifier) :
      Trims [last, t] [t]
  /-- Strings next to each other become one string. -/
  | strings {last t : Token} (hl : last.kind = .string) (ht : t.kind = .string) :
      Trims [last, t] [t.withValue (mergeStrings last.value t.value)]
  /-- Strings with a line end between them become one string. -/
  | lines {last between t : Token} (hl : last.kind = .string) (hb : between.kind = .newline)
      (ht : t.kind = .string) :
      Trims [last, between, t] [t.withValue (mergeStrings last.value t.value)]

/-- Whether tidying up at one place leads from one list of tokens to another. -/
def Tidies (l l' : List Token) : Prop :=
  ∃ before old new after, Trims old new ∧ l = before ++ old ++ after ∧ l' = before ++ new ++ after

/-- Whether tidying up leads from one list of tokens to another. -/
abbrev Tidied : List Token → List Token → Prop := Relation.ReflTransGen Tidies

/-- Whether one code is the other less an underscore or the sign of a kept name, or with two strings
as one. -/
inductive Loses : List Token → List Token → Prop
  | dropped (before after : List Token) {u : Token} (hu : u.kind = .joiner ∨ u.value = keepSign) :
      Loses (before ++ u :: after) (before ++ after)
  | fused (before after : List Token) {s t : Token} (hs : s.kind = .string) (ht : t.kind = .string) :
      Loses (before ++ s :: t :: after)
        (before ++ t.withValue (mergeStrings s.value t.value) :: after)

theorem code_append (l l' : List Token) : code (l ++ l') = code l ++ code l' :=
  List.filter_append l l'

theorem code_cons_of_isCode {t : Token} {l : List Token} (h : t.isCode = true) :
    code (t :: l) = t :: code l := List.filter_cons_of_pos h

theorem code_cons_of_not {t : Token} {l : List Token} (h : t.isCode = false) :
    code (t :: l) = code l := List.filter_cons_of_neg (by simp [h])

theorem Loses.context {l l' : List Token} (h : Loses l l') (before after : List Token) :
    Loses (before ++ l ++ after) (before ++ l' ++ after) := by
  cases h with
  | dropped b a hu => simpa using Loses.dropped (before ++ b) (a ++ after) hu
  | fused b a hs ht => simpa using Loses.fused (before ++ b) (a ++ after) hs ht

theorem Trims.code_cases {old new : List Token} (h : Trims old new) :
    code new = code old ∨ Loses (code old) (code new) := by
  have frame {t : Token} (ht : t.kind = .newline ∨ t.kind = .separator) : t.isCode = false := by
    rcases ht with ht | ht <;> simp [Token.isCode, ht]
  cases h with
  | lineEnd _ ht => exact .inl (by simp [code, List.filter_cons, frame (.inl ht)])
  | separator _ ht => exact .inl (by simp [code, List.filter_cons, frame (.inr ht)])
  | leading hl ht => exact .inl (by simp [code, List.filter_cons, frame (.inl hl)])
  | @joined last t hl ht =>
    have hcode : last.isCode = true := by simp [Token.isCode, hl]
    rw [code_cons_of_isCode hcode, code_cons_of_not (frame (.inl ht))]
    exact .inr (.dropped [] _ (.inl hl))
  | @trailing last t hl ht =>
    have hcode : last.isCode = true := by simp [Token.isCode, hl]
    rw [code_cons_of_isCode hcode, code_cons_of_not (frame (.inl ht))]
    exact .inr (.dropped [] _ (.inl hl))
  | @sign last t hl ht =>
    cases hcode : last.isCode with
    | false => exact .inl (code_cons_of_not hcode).symm
    | true =>
      rw [code_cons_of_isCode hcode]
      exact .inr (.dropped [] _ (.inr hl))
  | @strings last t hl ht =>
    have hcode : last.isCode = true ∧ t.isCode = true := by simp [Token.isCode, hl, ht]
    have hnew : (t.withValue (mergeStrings last.value t.value)).isCode = true := hcode.2
    rw [code_cons_of_isCode hcode.1, code_cons_of_isCode hcode.2, code_cons_of_isCode hnew]
    exact .inr (.fused [] _ hl ht)
  | @lines last between t hl hb ht =>
    have hcode : last.isCode = true ∧ t.isCode = true := by simp [Token.isCode, hl, ht]
    have hnew : (t.withValue (mergeStrings last.value t.value)).isCode = true := hcode.2
    rw [code_cons_of_isCode hcode.1, code_cons_of_not (frame (.inl hb)),
      code_cons_of_isCode hcode.2, code_cons_of_isCode hnew]
    exact .inr (.fused [] _ hl ht)

/-- Of the code nothing is lost, doubled or moved by tidying up: some underscores and signs of kept
names are dropped, and some strings are one with the next. -/
theorem Tidied.loses {l l' : List Token} (h : Tidied l l') :
    Relation.ReflTransGen Loses (code l) (code l') := by
  refine h.lift' code fun a b hab => ?_
  obtain ⟨before, old, new, after, ht, rfl, rfl⟩ := hab
  change Relation.ReflTransGen Loses (code (before ++ old ++ after)) (code (before ++ new ++ after))
  simp only [code_append]
  rcases ht.code_cases with heq | hl
  · rw [heq]
  · exact .single (hl.context _ _)

variable {out l : List Token} {t : Token}

theorem Tidied.append {l l' : List Token} (h : Tidied l l') (after : List Token) :
    Tidied (l ++ after) (l' ++ after) := by
  refine h.lift (· ++ after) fun a b hab => ?_
  obtain ⟨before, old, new, behind, ht, rfl, rfl⟩ := hab
  exact ⟨before, old, new, behind ++ after, ht, by simp, by simp⟩

theorem tidied_end (out : List Token) {old new : List Token} (h : Trims old new) :
    Tidied (out.reverse ++ old) (out.reverse ++ new) :=
  .single ⟨out.reverse, old, new, [], h, by simp, by simp⟩

theorem addNewline_tidied (p : Place) (ht : t.kind = .newline) (out : List Token) :
    Tidied (t :: out).reverse (addNewline p t out).reverse := by
  cases out with
  | nil => exact .refl
  | cons last out =>
    have trims {new : List Token} (h : Trims [last, t] new) :
        Tidied (t :: last :: out).reverse (out.reverse ++ new) := by
      simpa using tidied_end out h
    simp only [addNewline]
    split
    · rename_i hl
      simpa using trims (.lineEnd (.inl hl) ht)
    · rename_i hl
      simpa using trims (.lineEnd (.inr (.inl hl)) ht)
    · rename_i hl
      simpa using trims (.lineEnd (.inr (.inr (.inl hl))) ht)
    · rename_i hl
      split
      · simpa using trims (.joined hl ht)
      · simpa using trims (.trailing hl ht)
    · rename_i hl
      split
      · simpa using trims (.lineEnd (.inr (.inr (.inr hl))) ht)
      · exact .refl
    · exact .refl

theorem addSeparator_tidied (p : Place) (ht : t.kind = .separator) (out : List Token) :
    Tidied (t :: out).reverse (addSeparator p t out).reverse := by
  cases out with
  | nil => exact .refl
  | cons last out =>
    have trims {new : List Token} (h : Trims [last, t] new) :
        Tidied (t :: last :: out).reverse (out.reverse ++ new) := by
      simpa using tidied_end out h
    simp only [addSeparator]
    split
    · rename_i hl
      simpa using trims (.separator hl ht)
    · rename_i hl
      split
      · simpa using trims (.leading hl ht)
      · exact .refl
    · exact .refl

theorem addString_tidied (ht : t.kind = .string) (out : List Token) :
    Tidied (t :: out).reverse (addString t out).reverse := by
  cases out with
  | nil => exact .refl
  | cons last out =>
    simp only [addString]
    split
    · rename_i hl
      simpa using tidied_end out (.strings hl ht)
    · split
      · rename_i hl
        cases out with
        | nil => exact .refl
        | cons earlier before =>
          dsimp only
          split
          · rename_i he
            simpa using tidied_end before (.lines he hl ht)
          · exact .refl
      · exact .refl

theorem add_tidied (p : Place) (t : Token) (out : List Token) :
    Tidied (t :: out).reverse (add p t out).reverse := by
  unfold add
  split
  · exact addNewline_tidied p ‹_› out
  · exact addSeparator_tidied p ‹_› out
  · exact addString_tidied ‹_› out
  · exact .refl

def textLine (t : Token) : List Token :=
  [⟨.remark, "'", t.pos⟩, t.withKind .remarkText, ⟨.newline, "\r", t.pos.withCol t.value.length⟩]

/-- What the tokens of a file become when the files that it includes, as `gives` has them, and the
remark lines of its blocks are put in place. -/
inductive Expands (gives : Token → Token → List Token → Prop) : List Token → List Token → Prop
  | eof {t : Token} (ht : t.kind = .eof) : Expands gives [t] [t]
  /-- A directive and the name behind it. -/
  | included {t name : Token} {rest spliced whole : List Token} (hk : t.kind = .directive)
      (hi : t.is "INCLUDE") (hg : gives t name spliced) (h : Expands gives rest whole) :
      Expands gives (t :: name :: rest) (spliced ++ whole)
  /-- A block. -/
  | block {t stop : Token} {texts rest whole : List Token} (hk : t.kind = .blockRemark)
      (ht : ∀ u ∈ texts, u.kind = .blockText) (hs : stop.kind = .blockEnd)
      (h : Expands gives rest whole) :
      Expands gives (t :: texts ++ stop :: rest) (texts.flatMap textLine ++ whole)
  /-- Any other token. -/
  | token {t : Token} {rest whole : List Token} (hd : ¬(t.kind = .directive ∧ t.is "INCLUDE"))
      (hb : t.kind.isBlock = false) (he : t.kind ≠ .eof) (h : Expands gives rest whole) :
      Expands gives (t :: rest) (t :: whole)

theorem Expands.mono {gives gives' : Token → Token → List Token → Prop} {whole : List Token}
    (h : Expands gives l whole) (hg : ∀ t name spliced, gives t name spliced → gives' t name spliced) :
    Expands gives' l whole := by
  induction h with
  | eof ht => exact .eof ht
  | included hk hi hs _ ih => exact .included hk hi (hg _ _ _ hs) ih
  | block hk ht hs _ ih => exact .block hk ht hs ih
  | token hd hb he _ ih => exact .token hd hb he ih

variable {d : Dialect} {quiet : Bool} {splice : Token → Token → Conversion (List Token)}
  {total : Nat} {rest : List Token}

theorem unwrap_block (hw : Whole (t :: rest)) (ht : t.kind.goesOn = true)
    (he : ∃ u ∈ rest, u.kind = .eof) :
    ∃ texts stop more, rest = texts ++ stop :: more ∧ (∀ u ∈ texts, u.kind = .blockText) ∧
      stop.kind = .blockEnd ∧ unwrap d rest = (texts.flatMap textLine, more) := by
  induction rest generalizing t with
  | nil => simp at he
  | cons u rest ih =>
    have hr : t.kind.leads u.kind = true := hw.rel
    have hu : u.kind.isWithin = true := by
      simp only [Kind.leads, Bool.and_eq_true, beq_iff_eq] at hr
      rw [← hr.1.1.2, ht]
    by_cases hend : u.kind = .blockEnd
    · exact ⟨[], u, rest, rfl, by simp, hend, by simp [unwrap, hend]⟩
    · have htext : u.kind = .blockText := (Kind.blockText_or_blockEnd hu).resolve_right hend
      have he' : ∃ v ∈ rest, v.kind = .eof := by
        obtain ⟨v, hv, hk⟩ := he
        rcases List.mem_cons.1 hv with rfl | hv
        · simp [htext] at hk
        · exact ⟨v, hv, hk⟩
      obtain ⟨texts, stop, more, rfl, htexts, hstop, heq⟩ := ih hw.tail (by rw [htext]; rfl) he'
      refine ⟨u :: texts, stop, more, rfl, List.forall_mem_cons.2 ⟨htext, htexts⟩, hstop, ?_⟩
      have hremark : Lexer.snippet d u.pos ['\''] = [⟨.remark, "'", u.pos⟩] :=
        Lexer.snippet_apostrophe u.pos
      simp [unwrap, htext, heq, textLine, hremark]

/-- What comes next is a string, maybe behind a line end. -/
def stringNext : List Token → Bool
  | [] => false
  | t :: rest =>
    t.kind == .string || (t.kind == .newline && (rest.head?.map Token.kind) == some .string)

def startsString (l : List Token) : Bool := (l.head?.map Token.kind) == some .string

/-- Whether no string is next to another or has just a line end between them. -/
def Fused : List Token → Prop
  | [] => True
  | t :: rest => (t.kind = .string → stringNext rest = false) ∧ Fused rest

instance decidableFused : (l : List Token) → Decidable (Fused l)
  | [] => .isTrue trivial
  | _ :: rest =>
    have := decidableFused rest
    inferInstanceAs (Decidable (_ ∧ _))

/-- Whether a string at the start of `spliced` meets one at the end of an output (last token
first). -/
def Seam (out spliced : List Token) : Prop :=
  (stringNext out = true ∧ startsString spliced = true) ∨
    (startsString out = true ∧ stringNext spliced = true)

theorem Fused.cons (h : Fused out) (ht : t.kind ≠ .string) : Fused (t :: out) :=
  ⟨fun hk => absurd hk ht, h⟩

theorem Fused.push (h : Fused out) (ht : ∀ u ∈ l, u.kind ≠ .string) : Fused (l.reverse ++ out) := by
  induction l generalizing out with
  | nil => exact h
  | cons u l ih =>
    obtain ⟨hu, hl⟩ := List.forall_mem_cons.1 ht
    simpa using ih (h.cons hu) hl

theorem stringNext_cons (hn : stringNext (t :: out) = true) :
    t.kind = .string ∨ (t.kind = .newline ∧ startsString out = true) := by
  simpa [stringNext, startsString] using hn

/-- What is put behind an output is fused with it unless strings meet. -/
theorem Fused.meet {spliced : List Token} (ho : Fused out) (hs : Fused spliced)
    (hm : ¬Seam out spliced) : Fused (spliced.reverse ++ out) := by
  induction spliced generalizing out with
  | nil => exact ho
  | cons t spliced ih =>
    have hnext : t.kind = .string → stringNext out = false := by
      intro hk
      rw [Bool.eq_false_iff]
      exact fun hn => hm (.inl ⟨hn, by simp [startsString, hk]⟩)
    have hseam : ¬Seam (t :: out) spliced := by
      rintro (⟨hn, hstart⟩ | ⟨hstart, hn⟩)
      · rcases stringNext_cons hn with hk | ⟨hk, hout⟩
        · cases spliced with
          | nil => cases hstart
          | cons u more => simp_all [Fused, stringNext, startsString]
        · exact hm (.inr ⟨hout, by simpa [stringNext, hk, startsString] using hstart⟩)
      · rw [hs.1 (by simpa [startsString] using hstart)] at hn
        cases hn
    have hout : Fused (t :: out) := ⟨hnext, ho⟩
    simpa using ih hout hs.2 hseam

theorem Fused.reverse (h : Fused l) : Fused l.reverse := by
  have hnone : ¬Seam [] l := by simp [Seam, stringNext, startsString]
  have hempty : Fused [] := trivial
  simpa using hempty.meet h hnone

theorem stringNext_append {after : List Token} (h : stringNext l = true) :
    stringNext (l ++ after) = true := by
  cases l with
  | nil => cases h
  | cons t rest =>
    rcases stringNext_cons h with hk | ⟨hk, hn⟩
    · simp [stringNext, hk]
    · cases rest with
      | nil => cases hn
      | cons u rest =>
        have hu : u.kind = .string := by simpa [startsString] using hn
        simp [stringNext, hk, hu]

theorem Fused.part {whole : List Token} (h : Fused whole) (hl : l <:+: whole) : Fused l := by
  obtain ⟨before, after, rfl⟩ := hl
  induction before with
  | nil =>
    induction l with
    | nil => trivial
    | cons t rest ih =>
      refine ⟨fun hk => ?_, ih h.2⟩
      have hnext : stringNext (rest ++ after) = false := h.1 hk
      rw [Bool.eq_false_iff]
      intro hn
      rw [stringNext_append hn] at hnext
      cases hnext
  | cons t before ih => exact ih h.2

theorem addNewline_fused (p : Place) (ht : t.kind = .newline) (h : Fused out) :
    Fused (addNewline p t out) := by
  have hpush {out : List Token} (ho : Fused out) : Fused (t :: out) := ho.cons (by simp [ht])
  cases out with
  | nil => exact hpush h
  | cons last out =>
    simp only [addNewline]
    split
    · exact h
    · exact h
    · exact h
    · split
      · exact h.2
      · exact hpush h.2
    · split
      · exact h
      · exact hpush h
    · exact hpush h

theorem addSeparator_fused (p : Place) (ht : t.kind = .separator) (h : Fused out) :
    Fused (addSeparator p t out) := by
  have hpush {out : List Token} (ho : Fused out) : Fused (t :: out) := ho.cons (by simp [ht])
  cases out with
  | nil => exact hpush h
  | cons last out =>
    simp only [addSeparator]
    split
    · exact h
    · split
      · exact hpush h.2
      · exact hpush h
    · exact hpush h

theorem addString_fused (t : Token) (h : Fused out) : Fused (addString t out) := by
  cases out with
  | nil => exact ⟨fun _ => rfl, h⟩
  | cons last out =>
    simp only [addString]
    split
    · rename_i hl
      exact ⟨fun _ => h.1 hl, h.2⟩
    · rename_i hl
      split
      · rename_i hn
        cases out with
        | nil => exact ⟨fun _ => by simp [stringNext, hl], h⟩
        | cons earlier before =>
          dsimp only
          split
          · rename_i he
            exact ⟨fun _ => h.2.1 he, h.2.2⟩
          · rename_i he
            exact ⟨fun _ => by simp [stringNext, hl, he], h⟩
      · rename_i hn
        exact ⟨fun _ => by simp [stringNext, hl, hn], h⟩

/-- A string put behind an output is one with the string before it. -/
theorem add_fused (p : Place) (t : Token) (h : Fused out) : Fused (add p t out) := by
  unfold add
  split
  · exact addNewline_fused p ‹_› h
  · exact addSeparator_fused p ‹_› h
  · exact addString_fused t h
  · exact h.cons ‹_›

theorem unwrap_kind (l : List Token) : ∀ u ∈ (unwrap d l).1, u.kind ≠ .string := by
  induction l with
  | nil => simp [unwrap]
  | cons t rest ih =>
    have hremark : Lexer.snippet d t.pos ['\''] = [⟨.remark, "'", t.pos⟩] :=
      Lexer.snippet_apostrophe t.pos
    simp only [unwrap]
    split
    · simp
    · split
      · simp
      · simpa [hremark, Token.withKind] using ih

/-- One step of the third stage leaves strings apart unless they meet where a file is included. -/
theorem step_fused {p q : Point} (h : Step d quiet splice total p q) (hp : Fused p.out)
    (hi : ∀ t rest spliced τ, p.input = t :: rest → t.kind = .directive → t.is "INCLUDE" →
      splice t (rest.headD t) p.session = .ok spliced τ → Fused spliced ∧ ¬Seam p.out spliced) :
    Fused q.out := by
  cases h with
  | @included σ τ out t rest spliced hk hincl hs =>
    obtain ⟨hf, hm⟩ := hi t rest spliced τ rfl hk hincl hs
    exact hp.meet hf hm
  | @block σ out t rest hk => exact hp.push (unwrap_kind rest)
  | @named σ τ out met t rest hk hmeet =>
    rcases meetVariable_cases hmeet with ⟨last, rfl, -, -⟩ | ⟨rfl, -⟩
    · exact hp.2.cons (by simp [hk])
    · exact hp.cons (by simp [hk])
  | token => exact add_fused _ _ hp

theorem starts_of_goesOn (h : Whole (t :: rest)) (ht : t.kind.goesOn = false) : Starts rest := by
  intro u hu
  cases rest with
  | nil => cases hu
  | cons v rest =>
    cases hu
    have hr : t.kind.leads u.kind = true := h.rel
    simp only [Kind.leads, Bool.and_eq_true, beq_iff_eq] at hr
    rw [← hr.1.1.2, ht]

theorem goesOn_of_isBlock {k : Kind} (h : k.isBlock = false) : k.goesOn = false := by
  cases k <;> first | rfl | cases h

/-- Whether the third stage, on its way from a point, puts `spliced` in the place of a directive and
the name behind it. -/
def Puts (d : Dialect) (quiet : Bool) (splice : Token → Token → Conversion (List Token)) (total : Nat)
    (first : Point) (t name : Token) (spliced : List Token) : Prop :=
  ∃ p rest τ, Reaches d quiet splice total first p ∧ p.input = t :: name :: rest ∧
    t.kind = .directive ∧ t.is "INCLUDE" ∧ splice t name p.session = .ok spliced τ

/-- Whether `F`, a relation of what has been put in place so far to the output (last token first), goes
on when the third stage does. -/
structure Tracks (F : List Token → List Token → Prop) : Prop where
  /-- Tokens are put behind the output. -/
  put {l out : List Token} (h : F l out) (tokens : List Token) :
    F (l ++ tokens) (tokens.reverse ++ out)
  /-- The sign that keeps a name goes. -/
  sign {l out : List Token} {last t : Token} (h : F l (last :: out)) (hl : last.value = keepSign)
    (ht : t.kind = .identifier) : F (l ++ [t]) (t :: out)
  add {l out : List Token} (h : F l out) (p : Place) (t : Token) : F (l ++ [t]) (add p t out)

theorem reaches_expands {F : List Token → List Token → Prop} (hF : Tracks F) {first p : Point}
    {τ : Session} {final : List Token} {last : Token} {l : List Token}
    (hfirst : Reaches d quiet splice total first p)
    (h : Reaches d quiet splice total p ⟨τ, final, [last]⟩) (hl : last.kind = .eof)
    (hw : Whole p.input) (hs : Starts p.input) (hf : F l p.out) :
    ∃ whole, Expands (Puts d quiet splice total first) p.input (whole ++ [last]) ∧
      F (l ++ whole) final := by
  induction h using Relation.ReflTransGen.head_induction_on generalizing l with
  | refl => exact ⟨[], .eof hl, by simpa using hf⟩
  | @head p q hstep hrest ih =>
    have hend : last ∈ q.input := (reaches_suffix hrest).mem List.mem_cons_self
    have hway := hfirst.tail hstep
    cases hstep with
    | @included σ σ' out t rest body hk hi hb =>
      cases rest with
      | nil => cases hend
      | cons name rest =>
        have hname : name.kind.goesOn = false :=
          goesOn_of_isBlock (hw.unblocked (by rw [hk]; rfl) name rfl)
        obtain ⟨whole, he, ht⟩ :=
          ih hway hw.tail.tail (starts_of_goesOn hw.tail hname) (hF.put hf body)
        refine ⟨body ++ whole, ?_, by simpa using ht⟩
        rw [List.append_assoc]
        exact .included hk hi ⟨_, rest, σ', hfirst, rfl, hk, hi, hb⟩ he
    | @block σ out t rest hk =>
      have heof : ∃ u ∈ rest, u.kind = .eof := ⟨last, (suffix_unwrap rest).mem hend, hl⟩
      obtain ⟨texts, stop, more, rfl, htexts, hstop, heq⟩ :=
        unwrap_block (d := d) hw (by rw [hk]; rfl) heof
      rw [heq] at ih hway
      have hmore : Whole (stop :: more) :=
        hw.suffix (List.IsSuffix.trans (List.suffix_append texts _) (List.suffix_cons t _))
      obtain ⟨whole, he, ht⟩ := ih hway hmore.tail (starts_of_goesOn hmore (by rw [hstop]; rfl))
        (hF.put hf (texts.flatMap textLine))
      refine ⟨texts.flatMap textLine ++ whole, ?_, by simpa using ht⟩
      rw [List.append_assoc]
      exact .block hk htexts hstop he
    | @named σ σ' out met t rest hk hm =>
      have hb : t.kind.isBlock = false := by rw [hk]; rfl
      have hmet : F (l ++ [t]) (t :: met) := by
        rcases meetVariable_cases hm with ⟨sign, rfl, hv, -⟩ | ⟨rfl, -⟩
        · exact hF.sign hf hv hk
        · exact hF.put hf [t]
      obtain ⟨whole, he, ht⟩ := ih hway hw.tail (starts_of_goesOn hw (goesOn_of_isBlock hb)) hmet
      exact ⟨t :: whole, .token (by simp [hk]) hb (by simp [hk]) he, by simpa using ht⟩
    | @token σ out t rest he hd hb _ =>
      have hblock : t.kind.isBlock = false := by
        have hwithin := hs t rfl
        cases hk : t.kind <;> simp_all [Kind.isBlock, Kind.isWithin]
      obtain ⟨whole, hexp, ht⟩ := ih hway hw.tail (starts_of_goesOn hw (goesOn_of_isBlock hblock))
        (hF.add hf (placeOf total rest) t)
      exact ⟨t :: whole, .token hd hblock he hexp, by simpa using ht⟩

theorem tracks_tidied : Tracks fun l out => Tidied l out.reverse where
  put h tokens := by simpa using h.append tokens
  sign {_ out last t} h hl ht :=
    (h.append [t]).trans (by simpa using tidied_end out (.sign hl ht))
  add {l out} h p t := (h.append [t]).trans (by simpa using add_tidied p t out)

end Merge

namespace Branch

open Merge

variable {s : Setting} {b : Branch} {depth : Nat} {listing : Listing} {lexed merged : List Token}
  {σ τ : Session}

theorem convert_framed (hx : Lexer.lex s.dialect listing = .ok lexed)
    (h : convert s depth b lexed σ = .ok merged τ) :
    ∃ start second inner last, merged = start :: second :: (inner ++ [last]) ∧
      start.isCode = false ∧ second.isCode = false ∧ last.isCode = false := by
  have hset := convert_settled hx h
  obtain ⟨placed, ready, hf, hm⟩ := convert_cases h
  obtain ⟨_, _, _, final, last, _, -, -, -, -, hlast, rfl⟩ := reaches_of_merge (front_sound hx hf) hm
  rw [List.reverse_reverse] at hset
  have hseated : Seated final.reverse.reverse := by
    rw [List.reverse_reverse]
    exact hset.seated.tail (by simp [hlast]) (by simp [hlast])
  obtain ⟨start, second, inner, heq, hstart, hsecond⟩ := hseated.exists_cons
  refine ⟨start, second, inner, last, by simp [heq], by simp [Token.isCode, hstart], ?_,
    by simp [Token.isCode, hlast]⟩
  rcases hsecond with hk | hk <;> simp [Token.isCode, hk]

theorem code_body (hx : Lexer.lex s.dialect listing = .ok lexed)
    (h : convert s depth b lexed σ = .ok merged τ) : code (body merged) = code merged := by
  obtain ⟨start, second, inner, last, rfl, hstart, hsecond, hlast⟩ := convert_framed hx h
  have hall : code (start :: second :: (inner ++ [last])) = code inner := by
    rw [code_cons_of_not hstart, code_cons_of_not hsecond, code_append, code_cons_of_not hlast]
    exact List.append_nil _
  rw [hall]
  simp only [body, List.drop_succ_cons, List.drop_zero, List.dropLast_concat]
  split
  · rename_i hk
    obtain ⟨before, u, rfl⟩ : ∃ before u, inner = before ++ [u] := by
      rcases List.eq_nil_or_concat inner with rfl | ⟨before, u, rfl⟩
      · cases hk
      · exact ⟨before, u, List.concat_eq_append⟩
    have hu : u.isCode = false := by
      have hn : u.kind = .newline := by simpa using hk
      simp [Token.isCode, hn]
    rw [List.dropLast_concat, code_append, code_cons_of_not hu]
    exact (List.append_nil _).symm
  · rfl

namespace Visit

/-- Whether `spliced` is what the file that a directive names, which the conversion of `v` includes,
comes to when it is converted by itself. -/
def Gives (s : Setting) (v : Visit) (directive name : Token) (spliced : List Token) : Prop :=
  ∃ (w : Visit) (ready after : Session) (merged : List Token), Includes s v w ∧
    v.depth = w.depth + 1 ∧
    enters s v.branch directive name ready = .ok (w.branch, w.lexed) w.session ∧
    convert s w.depth w.branch w.lexed w.session = .ok merged after ∧
    spliced = body merged ∧ code spliced = code merged

/-- Whether no file that is included starts with a string where a string has just ended. -/
def Unseamed (s : Setting) (v : Visit) : Prop :=
  ∀ (p : Point) (t : Token) (rest spliced : List Token) (τ : Session), v.Walks s p →
    p.input = t :: rest → t.kind = .directive → t.is "INCLUDE" →
    v.splice s t (rest.headD t) p.session = .ok spliced τ → ¬Seam p.out spliced

variable {v : Visit}

/-- What is put in the place of a directive is what the file that it names comes to. -/
theorem gives_of_puts {start newline t name : Token} {rest spliced : List Token} {ready : Session}
    (hfront : front s v.branch v.lexed v.session = .ok (start :: newline :: rest) ready)
    (h : Puts s.dialect v.branch.quiet (v.splice s) (start :: newline :: rest).length
      ⟨ready, [newline, start], rest⟩ t name spliced) : v.Gives s t name spliced := by
  obtain ⟨p, more, τ, hr, hp, hk, hi, hs⟩ := h
  have hw : v.Walks s p := ⟨start, newline, rest, ready, hfront, hr⟩
  obtain ⟨b, lexed, entered, merged, he, hinner, rfl⟩ := splice_entered hs
  obtain ⟨listing, hx⟩ := enters_lexed he
  cases hd : v.depth with
  | zero =>
    rw [hd] at hinner
    exact absurd hinner Conversion.throw_ne_ok
  | succ depth =>
    rw [hd] at hinner
    exact ⟨⟨depth, b, lexed, entered⟩, p.session, τ, merged, .entered hd hw hp hk hi he, hd, he,
      hinner, rfl, code_body hx hinner⟩

theorem walks_fused {p : Point} (hc : v.Unseamed s) (hfeeds : Feeds s Fused v)
    (hx : Lexer.lex s.dialect listing = .ok v.lexed) (h : v.Walks s p) : Fused p.out := by
  obtain ⟨start, newline, rest, ready, hfront, hr⟩ := h
  obtain ⟨_, _, _, heq, hstart, hnewline, -⟩ := (front_sound hx hfront).exists_input
  cases heq
  induction hr with
  | refl =>
    have hfirst : Fused [start] := Fused.cons trivial (by simp [hstart])
    exact hfirst.cons (by simp [hnewline])
  | @tail p q hr hstep ih =>
    have hw : v.Walks s p := ⟨start, newline, rest, ready, hfront, hr⟩
    refine step_fused hstep ih fun t rest' spliced τ hp hk hi hs => ⟨?_, hc p t rest' _ τ hw hp hk hi hs⟩
    obtain ⟨merged, hm, rfl⟩ := hfeeds p t rest' _ τ hw hp hk hi hs
    exact hm.part (body_within merged)

theorem convert_fused (hx : Lexer.lex s.dialect listing = .ok v.lexed)
    (h : convert s v.depth v.branch v.lexed v.session = .ok merged τ)
    (hc : ∀ w, Visits s v w → w.Unseamed s) : Fused merged := by
  refine convert_visits ?_ hx h hc
  intro v listing placed merged ready τ hx hc hfront hm hfeeds
  obtain ⟨start, newline, rest, final, last, left, rfl, -, -, hr, hlast, rfl⟩ :=
    reaches_of_merge (front_sound hx hfront) hm
  have hfinal : Fused final := walks_fused hc hfeeds hx ⟨start, newline, rest, ready, hfront, hr⟩
  exact (hfinal.cons (by simp [hlast])).reverse

/-- The first three stages put the files and the remark lines of a program in place. -/
theorem convert_expands {F : List Token → List Token → Prop} (hF : Tracks F) (hopen : F [] [])
    (hx : Lexer.lex s.dialect listing = .ok v.lexed)
    (h : convert s v.depth v.branch v.lexed v.session = .ok merged τ) :
    ∃ placed ready whole, front s v.branch v.lexed v.session = .ok placed ready ∧
      Expands (v.Gives s) placed whole ∧ F whole merged.reverse := by
  obtain ⟨placed, ready, hfront, hm⟩ := convert_cases h
  have hwhole := front_whole hx hfront
  obtain ⟨start, newline, rest, final, last, left, rfl, hstart, hnewline, hr, hlast, rfl⟩ :=
    reaches_of_merge (front_sound hx hfront) hm
  have hend : left = [] := by
    have hsuf : last :: left <:+ start :: newline :: rest :=
      (reaches_suffix hr).trans ((List.suffix_cons newline rest).trans (List.suffix_cons start _))
    exact Whole.eq_nil_of_eof (hwhole.suffix hsuf) hlast
  subst hend
  obtain ⟨whole, hexp, hf⟩ := reaches_expands hF .refl hr hlast hwhole.tail.tail
    (Whole.starts hwhole.tail hnewline) (hF.put hopen [start, newline])
  refine ⟨_, ready, start :: newline :: whole ++ [last], hfront, ?_, by simpa using hF.put hf [last]⟩
  refine .token (by simp [hstart]) (by rw [hstart]; rfl) (by simp [hstart])
    (.token (by simp [hnewline]) (by rw [hnewline]; rfl) (by simp [hnewline]) ?_)
  exact hexp.mono fun t name spliced hputs => gives_of_puts hfront hputs

/-- Of the code of a program the first three stages lose, double and move nothing. When no file starts
with a string where a string has just ended, no string is left next to another or with just a line end
between them. -/
theorem convert_tidied (hx : Lexer.lex s.dialect listing = .ok v.lexed)
    (h : convert s v.depth v.branch v.lexed v.session = .ok merged τ) :
    ∃ placed ready whole, front s v.branch v.lexed v.session = .ok placed ready ∧
      Expands (v.Gives s) placed whole ∧ Tidied whole merged ∧
      Relation.ReflTransGen Loses (code whole) (code merged) ∧
      ((∀ w, Visits s v w → w.Unseamed s) → Fused merged) := by
  obtain ⟨placed, ready, whole, hfront, hexpands, htidied⟩ :=
    convert_expands tracks_tidied .refl hx h
  rw [List.reverse_reverse] at htidied
  exact ⟨placed, ready, whole, hfront, hexpands, htidied, htidied.loses, convert_fused hx h⟩

theorem unseamed_of_depth_zero (hd : v.depth = 0) : v.Unseamed s := by
  intro p t rest spliced τ _ _ _ _ hs
  obtain ⟨_, _, _, _, -, hfront, -⟩ := splice_entered hs
  rw [hd] at hfront
  exact absurd hfront Conversion.throw_ne_ok

theorem unseamed_of_first {placed : List Token} {ready : Session}
    (hf : front s v.branch v.lexed v.session = .ok placed ready)
    (hk : ∀ t ∈ placed.drop 3, t.kind ≠ .directive) (hn : ∀ t ∈ placed.take 2, t.kind ≠ .string) :
    v.Unseamed s := by
  intro p t rest spliced τ hw hp hdir _ _
  obtain ⟨start, newline, left, ready', hf', hr⟩ := hw
  cases hf.symm.trans hf'
  simp only [List.take_succ_cons, List.take_zero, List.forall_mem_cons] at hn
  have hnone (u : Token) (l : List Token) (hu : u.kind ≠ .string) (hl : startsString l = false) :
      stringNext (u :: l) = false := by simp_all [stringNext, startsString]
  rcases hr.cases_head with rfl | ⟨q, hstep, hrest⟩
  · simp [Seam, stringNext, startsString, hn.1, hn.2.1]
  · -- behind the first token there is no other directive
    have hsuf : q.input <:+ left.tail := by
      cases hstep with
      | included => exact List.tail_suffix _
      | block => exact suffix_unwrap _
      | named => exact List.suffix_refl _
      | token => exact List.suffix_refl _
    have hmem : t ∈ left.tail := (hsuf.mem) ((reaches_suffix hrest).mem (hp ▸ List.mem_cons_self))
    exact absurd hdir (hk t (by simpa using hmem))

end Visit

end Branch

namespace Conversion

def result? {α : Type} (x : Conversion α) : Option α :=
  match x {} with
  | .ok a _ => some a
  | .error _ _ => none

theorem exists_of_result? {α : Type} {x : Conversion α} {a : α} (h : x.result? = some a) :
    ∃ τ, x {} = .ok a τ := by
  unfold result? at h
  split at h
  · cases h
    exact ⟨_, ‹_›⟩
  · cases h

end Conversion

namespace Branch.Visit

open Merge

/-- A program with a file of one string. -/
def quoting : Setting :=
  { dialect := .msx
    shelf := Shelf.ofEntries [("/f", .ok (Listing.ofText "\"b\"" "/f" 4))]
    home := "/"
    main := "/main" }

/-- The tokens of a main program. -/
def read (code : Text) : List Token :=
  ((Lexer.lex .msx (Listing.ofText code "/main" 4)).toOption).getD []

theorem lex_read {code : Text}
    (h : (Lexer.lex .msx (Listing.ofText code "/main" 4)).toOption.isSome = true) :
    Lexer.lex .msx (Listing.ofText code "/main" 4) = .ok (read code) := by
  unfold read
  cases hx : Lexer.lex .msx (Listing.ofText code "/main" 4) with
  | ok tokens => rfl
  | error e =>
    rw [hx] at h
    cases h

theorem tidied_quoting :
    ∃ placed ready whole merged τ,
      front quoting (Branch.main quoting) (read "include \"f\"\nprint \"c\" \"d\"") {} =
        .ok placed ready ∧
      convert quoting 1 (Branch.main quoting) (read "include \"f\"\nprint \"c\" \"d\"") {} =
        .ok merged τ ∧
      Expands (Visit.Gives quoting ⟨1, Branch.main quoting,
        read "include \"f\"\nprint \"c\" \"d\"", {}⟩) placed whole ∧
      Tidied whole merged ∧ Fused merged := by
  -- the runs share the reading of the listing
  obtain ⟨hread, hrun, hfirst⟩ : (Lexer.lex .msx
        (Listing.ofText "include \"f\"\nprint \"c\" \"d\"" "/main" 4)).toOption.isSome = true ∧
      ((convert quoting 1 (Branch.main quoting)
        (read "include \"f\"\nprint \"c\" \"d\"")).result?).isSome = true ∧
      ((front quoting (Branch.main quoting)
        (read "include \"f\"\nprint \"c\" \"d\"")).result?).map
        (fun placed => decide ((∀ t ∈ placed.drop 3, t.kind ≠ .directive) ∧
          ∀ t ∈ placed.take 2, t.kind ≠ .string)) = some true := by decide +kernel
  obtain ⟨merged, hm⟩ := Option.isSome_iff_exists.1 hrun
  obtain ⟨τ, hτ⟩ := Conversion.exists_of_result? hm
  obtain ⟨placed, hp, hplaced⟩ := Option.map_eq_some_iff.1 hfirst
  obtain ⟨ready, hready⟩ := Conversion.exists_of_result? hp
  obtain ⟨hdirectives, hstrings⟩ := of_decide_eq_true hplaced
  obtain ⟨_, _, whole, hfront, hexpands, htidied, -, hfused⟩ :=
    convert_tidied (s := quoting)
      (v := ⟨1, Branch.main quoting, read "include \"f\"\nprint \"c\" \"d\"", {}⟩)
      (lex_read hread) hτ
  cases hfront.symm.trans hready
  refine ⟨placed, ready, whole, merged, τ, hready, hτ, hexpands, htidied, hfused fun w hw => ?_⟩
  rcases hw.cases_head with rfl | ⟨u, hu, hrest⟩
  · exact unseamed_of_first hready hdirectives hstrings
  · cases hu with
    | entered hd =>
      cases hd
      obtain rfl := visits_of_depth_zero rfl hrest
      exact unseamed_of_depth_zero rfl

/-- A string at the start of an included file is left next to the string in front of it. -/
theorem included_string_unfused :
    ∃ merged τ, convert quoting 1 (Branch.main quoting) (read "print \"a\" include \"f\"") {} =
      .ok merged τ ∧ ¬Fused merged := by
  have hrun : ((convert quoting 1 (Branch.main quoting)
      (read "print \"a\" include \"f\"")).result?).map (fun merged => decide (Fused merged)) =
        some false := by decide +kernel
  obtain ⟨merged, hm, hf⟩ := Option.map_eq_some_iff.1 hrun
  obtain ⟨τ, hτ⟩ := Conversion.exists_of_result? hm
  exact ⟨merged, τ, hτ, of_decide_eq_false hf⟩

end Branch.Visit

end ClassicBasic
