import ClassicBasic.Proofs.Blocks
import ClassicBasic.Proofs.Expansion

/-!
# What the first two stages carry over

The first two stages take tokens out of lines and put code in their places. What they take starts
and ends inside a line or where a line does, and what they put there brings the blocks in it along
whole, so the blocks of a file come to the third stage as they were read, and the end of the program
is still the last of its tokens.
-/

set_option autoImplicit false

namespace ClassicBasic

namespace Kind

/-- Kinds of the marks and jumps that the second stage makes, and of the numbers of the fourth. -/
def isLaid : Kind → Bool
  | .labelLine | .labelJump | .labelReturn | .labelExit | .functionCall | .lineNumber => true
  | _ => false

theorem isLaid_of_unmade {k : Kind} (h : k.isMade = false) : k.isLaid = false := by
  cases k <;> first | rfl | cases h

end Kind

/-- Whether a token is code as the first stage knows it. -/
structure Token.Coded (t : Token) : Prop where
  inner : t.kind.isInner = true
  early : t.kind.isLaid = false

variable {d : Dialect} {out input rest left l : List Token} {t : Token}

/-- Whether more code may follow an output (last token first). -/
def Clear (out : List Token) : Prop := ∀ t ∈ out.head?, t.kind = .newline ∨ t.kind.isInner = true

def Unblocked (input : List Token) : Prop := ∀ t ∈ input.head?, t.kind.isBlock = false

def Starts (input : List Token) : Prop := ∀ t ∈ input.head?, t.kind.isWithin = false

theorem Unblocked.starts (h : Unblocked input) : Starts input :=
  fun t ht => Kind.isBlock_of_isWithin (h t ht)

/-- A run of tokens that brings the blocks in it along whole and may stand inside a line. -/
structure Portion (l : List Token) : Prop where
  whole : Whole l
  head : Unblocked l
  last : Clear l.reverse

namespace Portion

theorem nil : Portion [] := ⟨List.isChain_nil, by simp [Unblocked], by simp [Clear]⟩

theorem append {l' : List Token} (h : Portion l) (h' : Portion l') : Portion (l ++ l') := by
  refine ⟨h.whole.append h'.whole fun t ht u hu => ?_, fun t ht => ?_, fun t ht => ?_⟩
  · exact Kind.leads_of_isBlock (h.last t (by simpa using ht)) (h'.head u hu)
  · cases l with
    | nil => exact h'.head t ht
    | cons u l => exact h.head t ht
  · rw [List.reverse_append] at ht
    cases hl : l'.reverse with
    | nil =>
      rw [hl] at ht
      exact h.last t ht
    | cons u more =>
      rw [hl] at ht
      exact h'.last t (by rw [hl]; exact ht)

end Portion

theorem portion_of_inner (h : ∀ t ∈ l, t.kind.isInner = true) : Portion l :=
  ⟨Lexer.whole_of_isInner h, fun t ht => Kind.isBlock_of_isInner (h t (List.mem_of_mem_head? ht)),
    fun t ht => .inr (h t (List.mem_reverse.1 (List.mem_of_mem_head? ht)))⟩

namespace Whole

theorem suffix (h : Whole input) (hs : rest <:+ input) : Whole rest := List.IsChain.suffix h hs

theorem unblocked (h : Whole (t :: rest)) (ht : t.kind.isInner = true) : Unblocked rest := by
  intro u hu
  cases rest with
  | nil => cases hu
  | cons v rest =>
    cases hu
    exact Kind.isBlock_of_leads h.rel ht

theorem starts (h : Whole (t :: rest)) (ht : t.kind = .newline) : Starts rest := by
  intro u hu
  cases rest with
  | nil => cases hu
  | cons v rest =>
    cases hu
    have hr : t.kind.leads u.kind = true := h.rel
    rw [ht, Kind.newline_leads] at hr
    simpa using hr

theorem eq_nil_of_eof (h : Whole (t :: rest)) (ht : t.kind = .eof) : rest = [] := by
  cases rest with
  | nil => rfl
  | cons u rest =>
    have hr : t.kind.leads u.kind = true := h.rel
    rw [ht] at hr
    cases hr

theorem starts_afterLineEnd (h : Whole (t :: rest)) (ht : t.endsLine = true) :
    Starts (afterLineEnd (t :: rest)) := by
  simp only [afterLineEnd]
  split
  · rename_i hn
    exact h.starts hn
  · rename_i hn
    rintro u ⟨⟩
    have he : t.kind = .eof := by simpa [Token.endsLine, hn] using ht
    rw [he]
    rfl

theorem isInner_of_mem_lineOf (h : Whole (t :: rest)) (ht : t.kind.isInner = true) {u : Token}
    (hu : u ∈ lineOf rest) (he : u.kind ≠ .eof) : u.kind.isInner = true := by
  induction rest generalizing t with
  | nil => cases hu
  | cons v rest ih =>
    have hb := h.unblocked ht v rfl
    by_cases hn : v.kind = .newline
    · simp [lineOf, hn] at hu
    · rw [lineOf_cons hn] at hu
      by_cases hv : v.kind = .eof
      · obtain rfl := Whole.eq_nil_of_eof h.tail hv
        rcases List.mem_cons.1 hu with rfl | hu
        · exact absurd hv he
        · cases hu
      · have hinner := Kind.isInner_of_ne hb hn hv
        rcases List.mem_cons.1 hu with rfl | hu
        · exact hinner
        · exact ih h.tail hinner hu

theorem within (ht : t.kind.isInner = true) (h : Whole (t :: rest)) (hw : Within rest left)
    (hl : ∀ u ∈ rest, u.Lawful d) : ∃ u, u.kind.isInner = true ∧ Whole (u :: left) := by
  obtain ⟨read, rfl, hread⟩ := hw
  induction read generalizing t with
  | nil => exact ⟨t, ht, h⟩
  | cons v read ih =>
    obtain ⟨hv, hmore⟩ := List.forall_mem_cons.1 hread
    obtain ⟨hlv, hlmore⟩ := List.forall_mem_cons.1 hl
    have hb := h.unblocked ht v rfl
    by_cases he : v.kind = .eof
    · obtain ⟨-, rfl⟩ := List.append_eq_nil_iff.1 (Whole.eq_nil_of_eof h.tail he)
      exact ⟨t, ht, List.isChain_singleton t⟩
    · exact ih (Kind.isInner_of_ne hb (hv.kind_ne hlv) he) hmore h.tail hlmore

theorem starts_of_pastLine (h : Whole rest) (hp : PastLine rest left) : Starts left := by
  rcases hp with rfl | ⟨w, more, hw, hend, rfl⟩
  · simp [Starts]
  · exact starts_afterLineEnd (h.suffix hw.suffix) hend

end Whole

/-- What is put between an output that more code may follow and an input that starts inside a line
leaves the blocks of both whole. -/
theorem whole_insert {kept : List Token} (h : Whole (out.reverse ++ input)) (hk : kept <:+ out)
    (hc : Clear kept) (hl : Portion l) (hs : left <:+ input) (hu : Unblocked left) :
    Whole ((l.reverse ++ kept).reverse ++ left) := by
  have hleft : Whole kept.reverse :=
    List.IsChain.prefix (List.IsChain.left_of_append h) (List.reverse_prefix.2 hk)
  have hright : Whole left := (List.IsChain.right_of_append h).suffix hs
  have hout : Whole (kept.reverse ++ l) := hleft.append hl.whole fun t ht u hu' =>
    Kind.leads_of_isBlock (hc t (by simpa using ht)) (hl.head u hu')
  rw [List.reverse_append, List.reverse_reverse]
  refine hout.append hright fun t ht u hu' => Kind.leads_of_isBlock ?_ (hu u hu')
  cases hr : l.reverse with
  | nil =>
    rw [List.reverse_eq_nil_iff.1 hr, List.append_nil] at ht
    exact hc t (by simpa using ht)
  | cons v more =>
    refine hl.last t ?_
    rw [hr]
    have heq : (kept.reverse ++ l).reverse = v :: (more ++ kept) := by simp [hr]
    rw [← List.head?_reverse, heq] at ht
    exact ht

theorem whole_skip (h : Whole (out.reverse ++ input)) (hl : Directive.atLineStart out = true)
    (hs : left <:+ input) (hu : Starts left) : Whole (out.reverse ++ left) := by
  refine (List.IsChain.left_of_append h).append ((List.IsChain.right_of_append h).suffix hs)
    fun t ht u hu' => ?_
  have hn : t.kind = .newline := by
    cases out with
    | nil => cases hl
    | cons v out =>
      have hv : v = t := by simpa using ht
      simpa [Directive.atLineStart, hv] using hl
  rw [Token.Leads, hn, Kind.newline_leads, hu u hu']
  rfl

theorem clear_of_lineStart (h : Directive.atLineStart out = true) : Clear out := by
  cases out with
  | nil => cases h
  | cons u out =>
    rintro v ⟨⟩
    exact .inl (by simpa [Directive.atLineStart] using h)

/-- In front of code there is nothing that may not be followed by more. -/
theorem clear_of_inner (h : Whole (out.reverse ++ t :: rest)) (ht : t.kind.isInner = true) :
    Clear out := by
  cases out with
  | nil => simp [Clear]
  | cons u out =>
    rintro v ⟨⟩
    have hw : Whole (out.reverse ++ u :: t :: rest) := by simpa using h
    exact Kind.open_of_leads (List.IsChain.right_of_append hw).rel ht

def startsBlock (c : Char) : Bool := c == '\'' || c == '\r'

theorem Lexer.snippet_coded {pos : Position} {code : Text} (hc : code.any startsBlock = false) :
    ∀ t ∈ snippet d pos code, t.Coded := by
  intro t ht
  have hl : t.Lexed d := snippet_lexed pos code t ht
  refine ⟨?_, Kind.isLaid_of_unmade hl.unmade⟩
  have hnone {c : Char} (h : startsBlock c = true) : c ∉ t.value := by
    intro hmem
    unfold snippet at ht
    split at ht
    · rename_i tokens hs
      exact List.any_eq_false.1 hc c ((snippet?_spec hs t ht).2 c hmem) h
    · cases ht
  have hk : t.kind = .illegal ∨ t.kind.isRead = true := by
    unfold snippet at ht
    split at ht
    · rename_i tokens hs
      exact (snippet?_spec hs t ht).1
    · cases ht
  rcases hk with hk | hk
  · rw [hk]
    rfl
  · refine isInner_of_isRead hk (fun hb => ?_) (hl.kind_ne_newline (hnone rfl))
    have hv := classify_blockRemark (hb ▸ hl.classified hk)
    exact hnone (c := '\'') rfl (by rw [hv]; decide)

/-- Whether no token of a list is made by the second stage or later. -/
def Early (l : List Token) : Prop := ∀ t ∈ l, t.kind.isLaid = false

theorem isInner_of_onLine (h : Whole (t :: rest)) (ht : t.kind.isInner = true) {u : Token}
    (hu : OnLine rest u) : u.kind.isInner = true := by
  refine h.isInner_of_mem_lineOf ht hu.mem fun hk => ?_
  have hends := hu.inside
  rw [Token.endsLine, hk] at hends
  cases hends

theorem coded_of_onLine (h : Whole (t :: rest)) (ht : t.kind.isInner = true) (he : Early rest)
    {u : Token} (hu : OnLine rest u) : u.Coded :=
  ⟨isInner_of_onLine h ht hu, he u ((List.takeWhile_prefix _).mem hu.mem)⟩

/-- What is known about a file is put together from code. -/
structure Tables.Coded (tables : Tables) : Prop where
  defines : ∀ m ∈ tables.defines, m.Holds Token.Coded
  parameters : ∀ e ∈ tables.routines, ∀ p ∈ e.2.parameters, p.name.Coded ∧ ∀ t ∈ p.fallback, t.Coded
  results : ∀ e ∈ tables.routines, ∀ r ∈ e.2.results, ∀ t ∈ r, t.Coded
  opened : ∀ e ∈ tables.opened, ∀ p ∈ e.2, p.name.Coded ∧ ∀ t ∈ p.fallback, t.Coded

/-- What the first stage keeps of an output (last token first) and the input behind it. -/
structure Carries (out input : List Token) : Prop where
  whole : Whole (out.reverse ++ input)
  out : Early out
  input : Early input

namespace Carries

theorem right (h : Carries out input) : Whole input := List.IsChain.right_of_append h.whole

theorem pass (h : Carries out (t :: rest)) : Carries (t :: out) rest := by
  obtain ⟨ht, hrest⟩ := List.forall_mem_cons.1 h.input
  exact ⟨by simpa using h.whole, List.forall_mem_cons.2 ⟨ht, h.out⟩, hrest⟩

theorem append (h : Carries out input) (hc : Clear out) (hl : ∀ t ∈ l, t.Coded)
    (hs : left <:+ input) (hu : Unblocked left) : Carries (l.reverse ++ out) left := by
  refine ⟨whole_insert h.whole (List.suffix_refl out) hc
    (portion_of_inner fun t ht => (hl t ht).inner) hs hu, fun t ht => ?_,
    fun t ht => h.input t (hs.mem ht)⟩
  rcases List.mem_append.1 ht with ht | ht
  · exact (hl t (List.mem_reverse.1 ht)).early
  · exact h.out t ht

theorem skip (h : Carries out input) (hl : Directive.atLineStart out = true) (hs : left <:+ input)
    (hu : Starts left) : Carries out left :=
  ⟨whole_skip h.whole hl hs hu, h.out, fun t ht => h.input t (hs.mem ht)⟩

end Carries

namespace Define

/-- Behind code invocations expand to code, and take nothing but code. -/
theorem expand_coded {table : Defines} {e : Expansion rest} (hm : ∀ m ∈ table, m.Holds Token.Coded)
    (hw : Whole (t :: rest)) (ht : t.kind.isInner = true) (hl : ∀ u ∈ rest, u.Lawful d)
    (he : Early rest) (h : expand table t rest = .ok e) :
    (∀ u ∈ e.tokens, u.Coded) ∧ Within rest e.rest := by
  let Behind (input : List Token) : Prop :=
    (∃ t, t.kind.isInner = true ∧ Whole (t :: input)) ∧ (∀ u ∈ input, u.Lawful d) ∧ Early input
  have supplies : Supplies Behind (fun _ => True) Token.Coded table := by
    refine ⟨fun t rest hb hin => ?_, fun t rest hb _ hline _ => ?_, fun _ _ _ _ _ => trivial⟩
    · obtain ⟨⟨u, hu, hwhole⟩, hlaw, hearly⟩ := hb
      exact ⟨hwhole.within hu (.cons hin) hlaw, (List.forall_mem_cons.1 hlaw).2,
        (List.forall_mem_cons.1 hearly).2⟩
    · obtain ⟨⟨u, hu, hwhole⟩, -, hearly⟩ := hb
      exact coded_of_onLine hwhole hu hearly (onLine_head hline)
  exact (expands_of_supplies hm supplies rest ⟨⟨t, ht, hw⟩, hl, he⟩).expand t e h

theorem holds_coded {m : Define} (hb : ∀ t ∈ m.body, t.kind ≠ .slot → t.Coded)
    (hf : ∀ t ∈ m.fallback, t.Coded) : m.Holds Token.Coded :=
  ⟨fun t ht hk _ _ => ⟨(hb t ht hk).inner, (hb t ht hk).early⟩, hf⟩

end Define

namespace Directive

variable {quiet : Bool} {tables : Tables}

/-- Only code is read by the first stage; other tokens are passed on. -/
theorem step_inner {p : Progress} (h : step d tables out t rest = .ok p) :
    t.kind.isInner = true ∨ p = ⟨tables, t :: out, rest⟩ := by
  unfold step at h
  split at h
  · rename_i hk
    exact .inl (by rw [hk.1]; rfl)
  · split at h
    · rename_i hk
      exact .inl (by rw [hk]; rfl)
    · split at h
      · rename_i hk
        exact .inl (by rw [hk.1]; rfl)
      · cases h
        rcases asCall_cases (d := d) out t rest with heq | ⟨hk, -⟩
        · exact .inr (by rw [heq])
        · exact .inl (by rcases hk with hk | hk <;> rw [hk] <;> rfl)

theorem skipLine_starts {tag : Token} (hw : Whole l) (h : skipLine tag l = .ok left) :
    Starts left := by
  induction l with
  | nil => cases h
  | cons t rest ih =>
    simp only [skipLine] at h
    split at h
    · cases h
    · split at h
      · rename_i hn
        cases h
        exact hw.starts hn
      · exact ih hw.tail h

theorem skipBlock_starts {tag last : Token} (hw : Whole l) (h : skipBlock tag last l = .ok left) :
    Starts left := by
  induction l generalizing last with
  | nil => cases h
  | cons t rest ih =>
    simp only [skipBlock] at h
    split at h
    · cases h
    · split at h
      · rename_i hk
        cases h
        exact (hw.unblocked (by rw [hk.1]; rfl)).starts
      · exact ih hw.tail h

theorem skipToggled_starts {tag : Token} (hw : Whole l) (h : skipToggled tag l = .ok left) :
    Starts left := by
  unfold skipToggled at h
  split at h
  · exact skipBlock_starts hw h
  · exact skipLine_starts hw h

theorem keepTags_starts {keeps : List Text} {r : List Text × List Token} (hw : Whole l)
    (h : keepTags keeps l = .ok r) : Starts r.2 := by
  induction l generalizing keeps with
  | nil => cases h
  | cons t rest ih =>
    simp only [keepTags] at h
    split at h
    · rename_i hends
      cases h
      exact hw.starts_afterLineEnd hends
    · split at h
      · cases h
      · split at h
        · cases h
        · exact ih hw.tail h

theorem step_carries {p : Progress} (h : step d tables out t rest = .ok p)
    (hc : Carries out (t :: rest)) (hs : p.rest <:+ rest) (hp : tables.Coded)
    (hl : ∀ u ∈ t :: rest, u.Lawful d) : Carries p.out p.rest := by
  rcases step_inner h with ht | rfl
  · have hout := clear_of_inner hc.whole ht
    have hw := hc.right
    have hsuf := hs.trans (List.suffix_cons t rest)
    have hrest : ∀ u ∈ rest, u.Lawful d := (List.forall_mem_cons.1 hl).2
    have hearly : Early rest := (List.forall_mem_cons.1 hc.input).2
    have behind {left : List Token} (hwithin : Within rest left) : Unblocked left := by
      obtain ⟨u, hu, hwhole⟩ := hw.within ht hwithin hrest
      exact hwhole.unblocked hu
    cases step_cases h with
    | untagged => exact hc.append (l := []) hout (by simp) hsuf (behind (.refl rest))
    | skipped hline hleft => exact hc.skip hline hsuf (skipToggled_starts hw.tail hleft)
    | left => exact hc.pass
    | gone => exact hc.append (l := []) hout (by simp) hsuf (behind (.refl rest))
    | defined hline hr =>
      exact hc.skip hline hsuf (Whole.starts_of_pastLine hw.tail (Define.readLine_within hrest hr).2)
    | tagged hline hr => exact hc.skip hline hsuf (keepTags_starts hw.tail hr)
    | @opened runs closer after ps hline ha _ =>
      refine hc.append (l := [_]) hout (by simpa using ⟨rfl, rfl⟩) hsuf ?_
      cases rest with
      | nil =>
        obtain rfl : after = [] := by simpa using hs
        simp [Unblocked]
      | cons fn rest =>
        obtain ⟨hk, -⟩ := Routine.argumentList_spec (List.forall_mem_cons.1 hrest).2 ha
        have hfn : fn.Inline := .inl (by rw [show fn.kind = .functionName from hk]; simp)
        exact behind ((Within.cons hfn).trans
          (Routine.argumentList_within (List.forall_mem_cons.1 hrest).2 ha).2)
    | closed hline =>
      exact hc.append hout (Lexer.snippet_coded (by decide)) hsuf
        (behind (Routine.resultList_within t rest).2)
    | expanded _ he =>
      obtain ⟨hcoded, hwithin⟩ := Define.expand_coded hp.defines hw ht hrest hearly he
      exact hc.append hout hcoded hsuf (behind hwithin)
    | passed =>
      rcases asCall_cases (d := d) out t rest with heq | ⟨-, hk⟩
      · rw [heq]
        exact hc.pass
      · refine hc.append (l := [_]) hout ?_ hsuf (behind (.refl rest))
        rw [List.forall_mem_singleton]
        constructor <;> rcases hk with hk | hk <;> rw [hk] <;> rfl
  · exact hc.pass

/-- The tables of a file are put together from the code of its lines. -/
theorem step_coded {p : Progress} (h : step d tables out t rest = .ok p)
    (hc : Carries out (t :: rest)) (hp : tables.Coded) (hl : ∀ u ∈ t :: rest, u.Lawful d) :
    p.tables.Coded := by
  rcases step_inner h with ht | rfl
  · have hrest : ∀ u ∈ rest, u.Lawful d := (List.forall_mem_cons.1 hl).2
    have captured {u : Token} (hu : OnLine rest u) : u.Coded :=
      coded_of_onLine hc.right ht (List.forall_mem_cons.1 hc.input).2 hu
    cases step_cases h with
    | defined _ hr =>
      refine ⟨fun m hm => ?_, hp.parameters, hp.results, hp.opened⟩
      rcases (Define.readLine_within hrest hr).1 m hm with hm | ⟨hb, hf⟩
      · exact hp.defines m hm
      · exact Define.holds_coded (fun u hu hk => captured (hb u hu hk)) fun u hu => captured (hf u hu)
    | @opened runs closer after ps _ ha hps =>
      refine ⟨hp.defines, hp.parameters, hp.results, ?_⟩
      rintro e ⟨⟩ p hmem
      obtain ⟨run, hrun, hparameter⟩ := Outcome.exists_of_forall₂ (Outcome.forall₂_of_mapM hps) hmem
      refine Routine.parameter_holds (fun u hu => ?_) hparameter
      cases rest with
      | nil =>
        exact absurd ((Routine.argumentList_within (d := d) (by simp) ha).1 run hrun u hu).mem
          (by simp [lineOf])
      | cons fn rest =>
        obtain ⟨hk, -⟩ := Routine.argumentList_spec (List.forall_mem_cons.1 hrest).2 ha
        have hfn : fn.kind ≠ .newline := by rw [show fn.kind = .functionName from hk]; simp
        exact captured
          (((Routine.argumentList_within (List.forall_mem_cons.1 hrest).2 ha).1 run hrun u hu).cons hfn)
    | @closed fn ps _ ho =>
      refine ⟨hp.defines, fun e he => ?_, fun e he r hr u hu => ?_, by simp⟩
      · rcases List.mem_append.1 he with he | he
        · exact hp.parameters e he
        · rw [List.mem_singleton.1 he]
          exact hp.opened (fn, ps) ho
      · rcases List.mem_append.1 he with he | he
        · exact hp.results e he r hr u hu
        · rw [List.mem_singleton.1 he] at hr
          exact captured ((Routine.resultList_within t rest).1 r hr u hu)
    | _ => exact ⟨hp.defines, hp.parameters, hp.results, hp.opened⟩
  · exact hp

theorem declareLine_starts {r : { left : List Token // left.length ≤ rest.length }} {σ τ : Session}
    (hw : Whole rest) (h : Conversion.declareLine d quiet t rest σ = .ok r τ) : Starts r.1 := by
  fun_induction Conversion.declareLine d quiet t rest generalizing σ with
  | case1 => exact absurd h Conversion.throw_ne_ok
  | case2 t rest entry after hr ih =>
    obtain ⟨-, ρ, -, h⟩ := Conversion.bind_eq_ok_iff.1 h
    have hafter : Whole after := hw.suffix (Declaration.suffix_read hr)
    split at h
    · exact absurd h Conversion.throw_ne_ok
    · rename_i u left _
      split at h
      · obtain ⟨f, ρ', hf, h⟩ := Conversion.bind_eq_ok_iff.1 h
        obtain ⟨rfl, rfl⟩ := Conversion.pure_eq_ok_iff.1 h
        exact ih u left rfl hafter.tail hf
      · split at h
        · rename_i hends
          cases (Conversion.pure_eq_ok_iff.1 h).1
          exact hafter.starts_afterLineEnd hends
        · exact absurd h Conversion.throw_ne_ok

theorem reaches_carries {lexed : List Token} {p q : Point} (h : Reaches d quiet p q)
    (hl : ∀ u ∈ lexed, u.Lexed d) (hk : Kept d lexed p) (hc : Carries p.out p.input)
    (hp : p.tables.Coded) : Carries q.out q.input ∧ q.tables.Coded := by
  induction h with
  | refl => exact ⟨hc, hp⟩
  | tail hreach hstep ih =>
    obtain ⟨hc, hp⟩ := ih
    have hkept := reaches_kept hreach hl hk
    cases hstep with
    | declared hd h =>
      simp only [declares, Bool.and_eq_true] at hd
      exact ⟨hc.skip hd.2 ((Conversion.suffix_declareLine h).trans (List.suffix_cons _ _))
        (declareLine_starts hc.right.tail h), hp⟩
    | read he h =>
      have hlexed := fun u hu => hl u (hkept.input.mem hu)
      obtain ⟨-, -, hs⟩ := step_sound hkept.tables hkept.out hlexed h
      have hlaw := fun u hu => (hlexed u hu).toLawful
      exact ⟨step_carries h hc hs hp hlaw, step_coded h hc hp hlaw⟩

theorem builtin_coded (d : Dialect) (pos : Position) :
    Tables.Coded { defines := PrintAt.builtin d pos } := by
  refine ⟨fun m hm => ?_, by simp, by simp, by simp⟩
  cases d with
  | msx =>
    rw [List.mem_singleton.1 hm]
    refine Define.holds_coded (fun t ht hk => ?_) (Lexer.snippet_coded (by decide))
    simp only [List.mem_append, List.mem_singleton] at ht
    rcases ht with (ht | rfl) | ht
    · exact Lexer.snippet_coded (by decide) t ht
    · exact absurd rfl hk
    · exact Lexer.snippet_coded (by decide) t ht
  | coco =>
    rw [List.mem_singleton.1 hm]
    refine Define.holds_coded (fun t ht _ => ?_) (Lexer.snippet_coded (by decide))
    simp only [List.mem_cons, List.not_mem_nil, or_false] at ht
    rcases ht with rfl | rfl | rfl <;> exact ⟨rfl, rfl⟩

/-- The first stage leaves the blocks of a file whole, makes none of the marks of later stages, and
puts its tables together from code. -/
theorem carryOut_whole {listing : Listing} {lexed : List Token} {r : Tables × List Token}
    {σ τ : Session} (hx : Lexer.lex d listing = .ok lexed)
    (h : carryOut d quiet lexed σ = .ok r τ) : Whole r.2 ∧ Early r.2 ∧ r.1.Coded := by
  obtain ⟨start, newline, rest, final, last, left, rfl, hreach, hlast, heq⟩ := reaches_of_carryOut h
  obtain ⟨hkept, hl⟩ := kept_first (σ := σ) hx
  have hearly : Early (start :: newline :: rest) :=
    fun t ht => Kind.isLaid_of_unmade (Lexer.lex_lexed hx t ht).unmade
  have hfirst : Carries [newline, start] rest := by
    refine ⟨Lexer.lex_whole hx, fun t ht => hearly t ?_, fun t ht => hearly t (by simp [ht])⟩
    rcases List.mem_cons.1 ht with rfl | ht
    · simp
    · simp [List.mem_singleton.1 ht]
  obtain ⟨hfinal, hcoded⟩ := reaches_carries hreach hl hkept hfirst (builtin_coded d start.pos)
  have hend := hfinal.pass
  rw [heq]
  refine ⟨?_, fun t ht => hend.out t (List.mem_reverse.1 ht), hcoded⟩
  exact List.IsChain.left_of_append hend.whole

end Directive

namespace PrintAt

/-- The arguments are runs of the input between commas and markers, so blocks in them are whole. -/
theorem split_portion (depth : Int) (x : Option (List Token)) (term : List Token) (last : Token)
    (hx : Portion (x.getD [])) (hw : Whole (term ++ l)) (hu : Unblocked (term ++ l)) :
    Portion (split depth x term last l).x ∧ Portion (split depth x term last l).y ∧
      Unblocked (split depth x term last l).rest := by
  induction l generalizing depth x term last with
  | nil => exact ⟨hx, .nil, by simp [split, Unblocked]⟩
  | cons t rest ih =>
    have hterm (ht : t.kind.isInner = true) : Portion term := by
      refine ⟨List.IsChain.left_of_append hw, fun u hu' => hu u ?_,
        clear_of_inner (by simpa using hw) ht⟩
      rw [List.head?_append, Option.mem_def.1 hu']
      rfl
    have hright : Whole (t :: rest) := List.IsChain.right_of_append hw
    simp only [split]
    split
    · rename_i hk
      refine ⟨hx, .nil, ?_⟩
      rintro u ⟨⟩
      rw [hk]
      rfl
    · split
      · rename_i hk
        have ht : t.kind.isInner = true := by rw [hk.1]; rfl
        split
        · exact ⟨hx, hterm ht, hright.unblocked ht⟩
        · exact ⟨hterm ht, .nil, hright.unblocked ht⟩
      · split
        · rename_i hk
          have ht : t.kind.isInner = true := by rw [hk.1]; rfl
          exact ih _ _ _ _ (hterm ht) hright.tail (hright.unblocked ht)
        · exact ih _ _ _ _ hx (by simpa using hw) (by simpa using hu)

theorem offset_portion {pos : Position} {x y : List Token} (hx : Portion x) (hy : Portion y) :
    Portion (offset d pos x y) := by
  have hsigns : signs.any startsBlock = false := by decide
  have code {text : Text} (h : text ⊆ signs) : Portion (Lexer.snippet d pos text) :=
    portion_of_inner fun t ht => (Lexer.snippet_coded (Text.any_of_subset hsigns h) t ht).inner
  have filled : Portion (if x = [] then Lexer.snippet d pos "0" else x) := by
    split
    · exact code (by decide)
    · exact hx
  unfold offset
  dsimp only
  split
  · exact filled
  · split
    · exact code (ofInt_subset _)
    · exact ((((code (by decide)).append hy).append (code (by decide))).append filled).append
        (code (by decide))

theorem render_portion {a : Arguments} (hx : Portion a.x) (hy : Portion a.y) :
    Portion (render d a) := by
  have code {text : Text} (h : text.any startsBlock = false) :
      Portion (Lexer.snippet d a.last.pos text) :=
    portion_of_inner fun t ht => (Lexer.snippet_coded h t ht).inner
  unfold render
  refine ((code (by decide)).append (offset_portion hx hy)).append ?_
  split
  · exact .nil
  · exact code (by decide)

end PrintAt

namespace Routine

theorem takeBack_clear (run : List Token) (runs : List (List Token)) (hw : Whole out.reverse)
    (hc : Clear out) : Clear (takeBack d run runs out).2 := by
  induction out generalizing run runs with
  | nil => exact hc
  | cons t out ih =>
    simp only [takeBack]
    split
    · exact hc
    · rename_i hstart
      have ht : t.kind.isInner = true := by
        rcases hc t rfl with hn | ht
        · simp [startsStatement, hn] at hstart
        · exact ht
      have hw' : Whole (out.reverse ++ t :: []) := by simpa using hw
      have hbefore : Whole out.reverse := List.IsChain.left_of_append hw'
      split
      · exact ih _ _ hbefore (clear_of_inner hw' ht)
      · exact ih _ _ hbefore (clear_of_inner hw' ht)

theorem callVariables_clear {before : List Token} {vars : List (Option Token)}
    (hw : Whole out.reverse) (hc : Clear out) (hl : ∀ u ∈ out, u.Lawful d)
    (h : callVariables d out = .ok (vars, before)) : Clear before := by
  unfold callVariables at h
  split at h
  · cases h
    exact hc
  · rename_i t out
    split at h
    · cases h
      exact hc
    · rename_i hv
      obtain ⟨_, _, he⟩ := Outcome.map_eq_ok_iff.1 h
      cases he
      have hn : t.kind ≠ .newline :=
        (hl t (by simp)).kind_ne_newline (by rw [Decidable.not_not.1 hv]; decide)
      have ht : t.kind.isInner = true := (hc t rfl).resolve_left hn
      have hw' : Whole (out.reverse ++ t :: []) := by simpa using hw
      exact takeBack_clear _ _ (List.IsChain.left_of_append hw') (clear_of_inner hw' ht)

end Routine

namespace Label

theorem bracketed_unblocked {content closer : Token} {after : List Token}
    (hw : Whole (t :: rest)) (ht : t.kind.isInner = true) (hl : ∀ u ∈ rest, u.Lawful d)
    (hb : Bracketed.read opening closing t rest = .ok (.holding content closer after)) :
    Unblocked after := by
  obtain ⟨rfl, hv⟩ := Bracketed.holding_eq (by decide) hb
  have hcontent := hw.unblocked ht content rfl
  have hlaw := hl closer (by simp)
  have hn : closer.kind ≠ .newline := hlaw.kind_ne_newline (by rw [hv]; decide)
  have hremark : closer.kind ≠ .blockRemark := fun hk => by
    have heq := Lexer.classify_blockRemark (hk ▸ hlaw.classified (hk ▸ rfl))
    rw [hv] at heq
    exact absurd heq (by decide)
  have hr : content.kind.leads closer.kind = true := hw.tail.rel
  have hwithin : closer.kind.isWithin = false := by
    cases hk : content.kind <;> simp_all [Kind.isBlock, Kind.leads, Kind.goesOn]
  have hblock : closer.kind.isBlock = false := by
    cases hk : closer.kind <;> simp_all [Kind.isBlock, Kind.isWithin]
  by_cases he : closer.kind = .eof
  · rw [Whole.eq_nil_of_eof hw.tail.tail he]
    simp [Unblocked]
  · exact Whole.unblocked hw.tail.tail (Kind.isInner_of_ne hblock hn he)

theorem lineMark_kind {label mark : Token} {pos : Position} (h : lineMark label pos = .ok mark) :
    mark.kind = .labelLine := by
  unfold lineMark at h
  split at h
  · cases h
    rfl
  · cases h

theorem jump_inner (out : List Token) (pos : Position) {k : Kind} (hk : k.isInner = true)
    (v : Text) : ∀ u ∈ ((if startsStatement out then [] else Lexer.snippet d pos ":") ++
      Lexer.snippet d pos "goto") ++ [⟨k, v, pos⟩], u.kind.isInner = true := by
  have code {text : Text} (h : text.any startsBlock = false) :
      ∀ u ∈ Lexer.snippet d pos text, u.kind.isInner = true :=
    fun u hu => (Lexer.snippet_coded h u hu).inner
  intro u hu
  simp only [List.mem_append, List.mem_singleton] at hu
  rcases hu with (hu | hu) | rfl
  · split at hu
    · cases hu
    · exact code (by decide) u hu
  · exact code (by decide) u hu
  · exact hk

theorem step_whole {tables : Tables} {loops : List Token} {p : Progress}
    (h : step d tables.routines loops out t rest = .ok p) (hw : Whole (out.reverse ++ t :: rest))
    (hs : p.rest <:+ rest) (ho : ∀ u ∈ out, u.Lawful d) (hl : ∀ u ∈ t :: rest, u.Lawful d)
    (hr : tables.Coded) : Whole (p.out.reverse ++ p.rest) := by
  have hright : Whole (t :: rest) := List.IsChain.right_of_append hw
  have hsuf := hs.trans (List.suffix_cons t rest)
  have hrest : ∀ u ∈ rest, u.Lawful d := (List.forall_mem_cons.1 hl).2
  have inner {k : Kind} (hk : t.kind = k) (h : k.isInner = true) : t.kind.isInner = true := hk ▸ h
  -- code in the place of a token of code
  have put {l : List Token} (ht : t.kind.isInner = true) (hl : Portion l) (hu : Unblocked p.rest) :
      Whole ((l.reverse ++ out).reverse ++ p.rest) :=
    whole_insert hw (List.suffix_refl out) (clear_of_inner hw ht) hl hsuf hu
  have one {u : Token} (hu : u.kind.isInner = true) : Portion [u] :=
    portion_of_inner (by simpa using hu)
  cases step_cases h with
  | @called new before after hk hc =>
    obtain ⟨f, vars, arguments, closer, hf, hv, ha, rfl⟩ := Routine.call_cases hc
    obtain ⟨hvars, hbefore⟩ := Routine.callVariables_spec hv
    obtain ⟨harguments, hwithin⟩ := Routine.argumentList_within hrest ha
    have ht := inner hk rfl
    have hnew : ∀ u ∈ Routine.callTokens d f t closer.pos arguments vars, u.kind.isInner = true := by
      refine Routine.callTokens_holds (fun text htext u hu => ?_) rfl
        (fun p hp => ⟨(hr.parameters _ hf p hp).1.inner,
          fun u hu => ((hr.parameters _ hf p hp).2 u hu).inner⟩)
        (fun r hmem u hu => (hr.results _ hf r hmem u hu).inner)
        (fun a hmem u hu => isInner_of_onLine hright ht (harguments a hmem u hu))
        fun v hmem u hu => by rw [hvars v hmem u hu]; rfl
      have hall : ∀ text ∈ Text.ofStrings ["=", ":", "gosub"], text.any startsBlock = false := by
        decide
      exact (Lexer.snippet_coded (hall text htext) u hu).inner
    obtain ⟨u, hu, hafter⟩ := hright.within ht hwithin hrest
    exact whole_insert hw hbefore
      (Routine.callVariables_clear (List.IsChain.left_of_append hw) (clear_of_inner hw ht) ho hv)
      (portion_of_inner hnew) hsuf (hafter.unblocked hu)
  | jumped hk hb =>
    have ht := inner hk rfl
    exact put ht (one rfl) (bracketed_unblocked hright ht hrest hb)
  | labelled hk hline hb hm =>
    have ht := inner hk rfl
    exact put ht (one (by rw [lineMark_kind hm]; rfl)) (bracketed_unblocked hright ht hrest hb)
  | @looped last mark before hk heq _ hline hm =>
    subst heq
    exact whole_insert (l := [mark]) hw (List.suffix_cons last before) (clear_of_lineStart hline)
      (one (by rw [lineMark_kind hm]; rfl)) hsuf (hright.unblocked (inner hk rfl))
  | @closed label outer hk =>
    have hjump := jump_inner (d := d) out t.pos (k := .labelReturn) rfl label.lower
    simpa using put (inner hk rfl) (portion_of_inner hjump) (hright.unblocked (inner hk rfl))
  | @exited label outer hk =>
    have hjump := jump_inner (d := d) [⟨.newline, [], {}⟩] t.pos (k := .labelExit) rfl label.lower
    simpa [startsStatement] using
      put (inner hk rfl) (portion_of_inner hjump) (hright.unblocked (inner hk rfl))
  | printed hd hk =>
    have ht := inner hk rfl
    obtain ⟨hx, hy, hu⟩ :=
      PrintAt.split_portion 0 none [] t .nil hright.tail (hright.unblocked ht)
    exact put ht (PrintAt.render_portion hx hy) hu
  | passed => simpa using hw

theorem reaches_whole {tables : Tables} {carried : List Token} {p q : Point}
    (h : Reaches d tables.routines p q) (hr : tables.Plain d) (ht : tables.Coded)
    (hk : Kept d carried p) (hw : Whole (p.out.reverse ++ p.input)) :
    Whole (q.out.reverse ++ q.input) := by
  induction h with
  | refl => exact hw
  | tail hreach hstep ih =>
    have hkept := reaches_kept hreach hr.routines hk
    cases hstep with
    | read he h =>
      obtain ⟨-, -, hs⟩ := step_sound hr.routines hkept.out hkept.led hkept.lawful h
      exact step_whole h ih hs hkept.out.lawful hkept.lawful ht

/-- What the second stage leaves of a file whose blocks are whole has them whole. -/
theorem place_whole {tables : Tables} {carried placed : List Token}
    (h : place d tables carried = .ok placed) (hc : Entry.Sound d carried.reverse)
    (hr : tables.Plain d) (ht : tables.Coded) (hw : Whole carried) : Whole placed := by
  obtain ⟨start, newline, rest, final, last, left, rfl, -, -, hreach, -, rfl⟩ :=
    reaches_of_place hc h
  have hfinal := reaches_whole hreach hr ht (kept_first hc) (by simpa using hw)
  rw [List.reverse_cons]
  have heq : final.reverse ++ last :: left = final.reverse ++ [last] ++ left := by simp
  rw [heq] at hfinal
  exact List.IsChain.left_of_append hfinal

end Label

namespace Branch

theorem front_whole {s : Setting} {b : Branch} {listing : Listing} {lexed placed : List Token}
    {σ τ : Session} (hx : Lexer.lex s.dialect listing = .ok lexed)
    (h : front s b lexed σ = .ok placed τ) : Whole placed := by
  obtain ⟨tables, carried, _, _, hc, hp, -, -⟩ := front_cases h
  obtain ⟨hplain, hsound⟩ := Directive.carryOut_sound hx hc
  obtain ⟨hwhole, -, hcoded⟩ := Directive.carryOut_whole hx hc
  exact Label.place_whole hp hsound hplain hcoded hwhole

end Branch

end ClassicBasic
