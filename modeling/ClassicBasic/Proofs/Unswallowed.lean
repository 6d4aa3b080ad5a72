import ClassicBasic.Proofs.Expansion
import ClassicBasic.Proofs.Sealed

/-!
# When no code is swallowed

The stages behind the lexer take tokens out of one place and put them into another. A program stays
sealed when nothing that reaches to the end of its line is taken from there: neither by what is
captured in the tables, nor where the third stage joins two lines, two strings or two files.
-/

set_option autoImplicit false

namespace ClassicBasic

variable {d : Dialect} {out input l rest : List Token} {t u : Token}

/-- Whether anything may follow an output (last token first). -/
def Ready (out : List Token) : Prop := ∀ t ∈ out.head?, t.Closed

/-- Whether an output (last token first) and the input behind it are sealed. -/
def Joined (out input : List Token) : Prop := Sealed (out.reverse ++ input)

theorem Sealed.part {whole : List Token} (h : Sealed whole) (hl : l <:+: whole) : Sealed l := by
  obtain ⟨before, after, rfl⟩ := hl
  exact h.left_of_append.right_of_append

theorem sealed_reverse_cons :
    Sealed (t :: out).reverse ↔ Sealed out.reverse ∧ ∀ u ∈ out.head?, u.Before t := by
  rw [Sealed, List.reverse_cons, List.isChain_append]
  simp [Sealed]

theorem joined_iff : Joined out input ↔ Sealed out.reverse ∧ Sealed input ∧
    ∀ t ∈ out.head?, ∀ u ∈ input.head?, t.Before u := by
  rw [Joined, Sealed, List.isChain_append, List.getLast?_reverse]
  rfl

theorem joined_cons : Joined (t :: out) rest ↔ Joined out (t :: rest) := by
  simp [Joined]

theorem Joined.left (h : Joined out input) : Sealed out.reverse := h.left_of_append

theorem Joined.right (h : Joined out input) : Sealed input := h.right_of_append

theorem Joined.ready (h : Joined out (t :: rest)) (ht : t.kind.isInside = true) : Ready out :=
  fun u hu => ((joined_iff.1 h).2.2 u hu t rfl).closed ht

theorem ready_of_reverse (h : Sealed (t :: out).reverse) (ht : t.kind.isInside = true) : Ready out :=
  fun u hu => ((sealed_reverse_cons.1 h).2 u hu).closed ht

theorem ready_of_lineStart (h : Directive.atLineStart out = true) : Ready out := by
  cases out with
  | nil => cases h
  | cons t out =>
    rintro u ⟨⟩
    exact Token.closed_of_kind (by simpa [Directive.atLineStart] using h) rfl

/-- Sealed tokens may come behind an output that anything may follow. -/
theorem joined_of_ready (ho : Sealed out.reverse) (hr : Ready out) (hi : Sealed (l ++ rest)) :
    Joined (l.reverse ++ out) rest := by
  have : Sealed (out.reverse ++ (l ++ rest)) :=
    (joined_iff.2 ⟨ho, hi, fun u hu v _ => .inl (hr u hu)⟩ : Joined out (l ++ rest))
  simpa [Joined] using this

theorem sealed_append (hl : ∀ t ∈ l, t.Closed) (h : Sealed rest) : Sealed (l ++ rest) :=
  (Lexer.sealed_of_closed hl).append h fun t ht _ _ => .inl (hl t (List.mem_of_mem_getLast? ht))

/-- Tokens that are over may come in place of an end of the output and a beginning of the input. -/
theorem Joined.replace {kept old : List Token} (h : Joined out input) (hk : kept <:+ out)
    (hr : Ready kept) (hl : ∀ t ∈ l, t.Closed) (hs : old <:+ input) :
    Joined (l.reverse ++ kept) old :=
  joined_of_ready (h.left.part (List.reverse_infix.2 hk.isInfix)) hr
    (sealed_append hl (h.right.suffix hs))

def Unclosing (t : Token) : Prop := t.kind = .remarkText → t.value ≠ ")"

instance (t : Token) : Decidable (Unclosing t) := inferInstanceAs (Decidable (_ → _))

theorem Token.Closed.unclosing (h : t.Closed) : Unclosing t := by
  intro hk
  rcases h with h | ⟨h, -⟩
  · rw [hk] at h
    cases h
  · rw [hk] at h
    cases h

/-- Whether a line goes on, and behind the text of a remark as well. -/
def GoesOn (l : List Token) : Prop :=
  ∃ u more, l = u :: more ∧ u.endsLine = false ∧
    (u.kind = .remarkText → u.value ≠ ")" → ∃ v left, more = v :: left ∧ v.endsLine = false)

theorem closed_of_goesOn (hs : Sealed (t :: rest)) (hu : ∀ u ∈ rest, Unclosing u)
    (h : GoesOn rest) : t.Closed := by
  obtain ⟨u, more, rfl, hline, htext⟩ := h
  rcases hs.rel with hc | ⟨-, he⟩ | ⟨-, hk⟩
  · exact hc
  · rw [hline] at he
    cases he
  · obtain ⟨v, left, rfl, hv⟩ := htext hk (hu u (by simp) hk)
    rcases hs.tail.rel with hc | ⟨-, he⟩ | ⟨hr, -⟩
    · exact absurd hk (by rcases hc with h | ⟨h, -⟩ <;> intro hk <;> simp_all [Kind.isOver])
    · rw [hv] at he
      cases he
    · simp [hk] at hr

namespace Define

theorem argument_cons {table : Defines} {depth : Nat} {e : Expansion input}
    (h : argument table depth input = .ok e) :
    ∃ u more, input = u :: more ∧ u.endsLine = false ∧
      (u.value = ")" ∨ u.kind = .mark ∨ Readable table more) := by
  unfold argument at h
  split at h
  · cases h
  · rename_i u more
    split at h
    · cases h
    · rename_i hline
      refine ⟨u, more, rfl, by simpa using hline, ?_⟩
      split at h
      · rename_i hk
        exact .inr (.inl hk.1)
      · split at h
        · rename_i hv
          exact .inl hv.1
        · dsimp only at h
          split at h
          · cases h
          · rename_i e' he
            exact .inr (.inr ⟨_, e', he⟩)

theorem Readable.goesOn {table : Defines} (h : Readable table input) : GoesOn input := by
  obtain ⟨depth, e, h⟩ := h
  obtain ⟨u, more, rfl, hline, hu⟩ := argument_cons h
  refine ⟨u, more, rfl, hline, fun hk hv => ?_⟩
  rcases hu with hclose | hmark | ⟨depth', e', hmore⟩
  · exact absurd hclose hv
  · simp [hk] at hmark
  · obtain ⟨v, left, heq, hend, -⟩ := argument_cons hmore
    exact ⟨v, left, heq, hend⟩

theorem admits_closed {table : Defines} (hs : Sealed input) (hu : ∀ u ∈ input, Unclosing u) :
    Admits Token.Closed table input := by
  intro t rest hsuf _ hread
  exact closed_of_goesOn (hs.suffix hsuf)
    (fun u hmem => hu u (hsuf.mem (List.mem_cons_of_mem t hmem))) hread.goesOn

theorem readFallback_cons {r : List Token × List Token} (h : readFallback input = .ok r) :
    ∃ u more, input = u :: more ∧ u.endsLine = false ∧
      (r.2 = more ∨ ∃ r', readFallback more = .ok r' ∧ r'.2 = r.2) := by
  cases input with
  | nil => cases h
  | cons u more =>
    simp only [readFallback] at h
    split at h
    · cases h
    · rename_i hline
      refine ⟨u, more, rfl, by simpa using hline, ?_⟩
      split at h
      · cases h
      · split at h
        · cases h
          exact .inl rfl
        · obtain ⟨s, hs, rfl⟩ := Outcome.map_eq_ok_iff.1 h
          exact .inr ⟨s, hs, rfl⟩

theorem readFallback_closed {r : List Token × List Token} (h : readFallback input = .ok r)
    (hr : ∃ v left, r.2 = v :: left ∧ v.endsLine = false) (hs : Sealed input)
    (hu : ∀ u ∈ input, Unclosing u) : ∀ t ∈ r.1, t.Closed := by
  induction input generalizing r with
  | nil => cases h
  | cons t rest ih =>
    have hrest : ∀ u ∈ rest, Unclosing u := fun u hmem => hu u (List.mem_cons_of_mem t hmem)
    simp only [readFallback] at h
    split at h
    · cases h
    · split at h
      · cases h
      · split at h
        · cases h
          simp
        · obtain ⟨s, hread, rfl⟩ := Outcome.map_eq_ok_iff.1 h
          refine List.forall_mem_cons.2 ⟨closed_of_goesOn hs hrest ?_, ih hread hr hs.tail hrest⟩
          obtain ⟨u, more, rfl, hline, hmore⟩ := readFallback_cons hread
          refine ⟨u, more, rfl, hline, fun _ _ => ?_⟩
          rcases hmore with heq | ⟨r', hread', -⟩
          · exact heq ▸ hr
          · obtain ⟨v, left, heq, hend, -⟩ := readFallback_cons hread'
            exact ⟨v, left, heq, hend⟩

theorem readBody_closed {r : List Token × Option (List Token) × List Token}
    (h : readBody input = .ok r) (hs : Sealed input) (hu : ∀ u ∈ input, Unclosing u) :
    ∀ t ∈ r.2.1.getD [], t.Closed := by
  fun_induction readBody input generalizing r with
  | case1 => cases h
  | case2 => cases h
  | case3 => simp_all
  | case4 t rest _ _ inner after hf =>
    obtain ⟨s, hbody, rfl⟩ := Outcome.map_eq_ok_iff.1 h
    have hafter : ∃ v left, after = v :: left ∧ v.endsLine = false := by
      cases after with
      | nil =>
        unfold readBody at hbody
        cases hbody
      | cons v left =>
        unfold readBody at hbody
        split at hbody
        · cases hbody
        · rename_i hline
          exact ⟨v, left, rfl, by simpa using hline⟩
    exact readFallback_closed hf hafter hs.tail fun u hmem => hu u (List.mem_cons_of_mem t hmem)
  | case5 =>
    cases h
    simp
  | case6 t rest _ _ _ ih =>
    obtain ⟨s, hbody, rfl⟩ := Outcome.map_eq_ok_iff.1 h
    have hinner := ih hbody hs.tail fun u hmem => hu u (List.mem_cons_of_mem t hmem)
    exact hinner

theorem closed_holds {m : Define} (hb : ∀ t ∈ m.body, t.Closed) (hf : ∀ t ∈ m.fallback, t.Closed) :
    m.Holds Token.Closed :=
  ⟨fun t ht _ _ _ => hb t ht, hf⟩

end Define

def endsRemark (c : Char) : Bool := Text.foldChar c == '\'' || Text.foldChar c == 'm'

theorem Lexer.snippet_closed {pos : Position} {code : Text} (hc : code.any endsRemark = false) :
    ∀ t ∈ snippet d pos code, t.Closed := by
  intro t ht
  have hl : t.Lexed d := snippet_lexed pos code t ht
  unfold snippet at ht
  split at ht
  · rename_i tokens hs
    obtain ⟨hk, hv⟩ := snippet?_spec hs t ht
    have hr : t.kind ≠ .remark := by
      intro hr
      obtain ⟨r, hr, hkind, ha⟩ := Dialect.classify_rule (hr ▸ hl.classified (hr ▸ rfl))
      have hall : ∀ r ∈ d.grammar, r.kind = .remark → r.shape = .words ["'", "REM"] [] := by
        cases d <;> decide
      rw [hall r hr hkind] at ha
      have hnone {x : Char} (hx : x = '\'' ∨ x = 'm') : x ∉ Text.fold t.value := by
        intro hmem
        obtain ⟨c, hcv, rfl⟩ := List.mem_map.1 hmem
        exact List.any_eq_false.1 hc c (hv c hcv) (by simpa [endsRemark] using hx)
      simp only [Shape.accepts, List.any_cons, List.any_nil, Bool.or_false, Bool.or_eq_true,
        Text.sameLetters_eq, beq_iff_eq] at ha
      rcases ha with ha | ha
      · exact hnone (.inl rfl) (ha ▸ by decide)
      · exact hnone (.inr rfl) (ha ▸ by decide)
    refine .inl ?_
    rcases hk with hk | hk
    · rw [hk]
      rfl
    · cases hkind : t.kind <;> simp_all [Kind.isOver, Kind.isRead, Kind.isRaw]
  · cases ht

/-- Whether the bodies of the defines and the results of the functions of a file are over where they
end. -/
structure Tables.Over (tables : Tables) : Prop where
  bodies : ∀ m ∈ tables.defines, ∀ t ∈ m.body, t.Closed
  results : ∀ e ∈ tables.routines, ∀ r ∈ e.2.results, ∀ t ∈ r, t.Closed

instance (tables : Tables) : Decidable tables.Over :=
  decidable_of_iff
    ((∀ m ∈ tables.defines, ∀ t ∈ m.body, t.Closed) ∧
      ∀ e ∈ tables.routines, ∀ r ∈ e.2.results, ∀ t ∈ r, t.Closed)
    ⟨fun ⟨hb, hr⟩ => ⟨hb, hr⟩, fun h => ⟨h.bodies, h.results⟩⟩

/-- Whether all defaults in the tables of a file are over where they end. -/
structure Tables.Filled (tables : Tables) : Prop where
  fallbacks : ∀ m ∈ tables.defines, ∀ t ∈ m.fallback, t.Closed
  defaults : ∀ e ∈ tables.routines, ∀ p ∈ e.2.parameters, ∀ t ∈ p.fallback, t.Closed
  opened : ∀ e ∈ tables.opened, ∀ p ∈ e.2, ∀ t ∈ p.fallback, t.Closed

/-- What the first two stages keep of an output (last token first) and the input behind it. -/
structure Intact (out input : List Token) : Prop where
  joined : Joined out input
  out : ∀ u ∈ out, Unclosing u
  input : ∀ u ∈ input, Unclosing u

theorem Intact.pass (h : Intact out (t :: rest)) : Intact (t :: out) rest := by
  obtain ⟨ht, hrest⟩ := List.forall_mem_cons.1 h.input
  exact ⟨joined_cons.2 h.joined, List.forall_mem_cons.2 ⟨ht, h.out⟩, hrest⟩

theorem Intact.replace {kept old : List Token} (h : Intact out input) (hk : kept <:+ out)
    (hr : Ready kept) (hl : ∀ t ∈ l, t.Closed) (hs : old <:+ input) :
    Intact (l.reverse ++ kept) old := by
  refine ⟨h.joined.replace hk hr hl hs, fun u hu => ?_, fun u hu => h.input u (hs.mem hu)⟩
  rcases List.mem_append.1 hu with hu | hu
  · exact (hl u (List.mem_reverse.1 hu)).unclosing
  · exact h.out u (hk.mem hu)

theorem Intact.append {old : List Token} (h : Intact out input) (hr : Ready out)
    (hl : ∀ t ∈ l, t.Closed) (hs : old <:+ input) : Intact (l.reverse ++ out) old :=
  h.replace (List.suffix_refl out) hr hl hs

theorem Intact.put {old : List Token} (h : Intact out input) (hr : Ready out) (ht : t.Closed)
    (hs : old <:+ input) : Intact (t :: out) old :=
  h.append (l := [t]) hr (by simpa using ht) hs

theorem Intact.skip {old : List Token} (h : Intact out input) (hr : Ready out)
    (hs : old <:+ input) : Intact out old :=
  h.append (l := []) hr (by simp) hs

namespace Routine

theorem splitArguments_cons {depth : Nat} {run : List Token}
    {r : List (List Token) × Token × List Token} (h : splitArguments depth run input = .ok r) :
    ∃ u more, input = u :: more ∧ u.endsLine = false ∧
      (u.value = ")" ∨ ∃ depth' run' r', splitArguments depth' run' more = .ok r') := by
  cases input with
  | nil => cases h
  | cons u more =>
    simp only [splitArguments] at h
    split at h
    · cases h
    · rename_i hline
      refine ⟨u, more, rfl, by simpa using hline, ?_⟩
      split at h
      · exact .inr ⟨_, _, r, h⟩
      · split at h
        · obtain ⟨s, hs, -⟩ := Outcome.map_eq_ok_iff.1 h
          exact .inr ⟨_, _, s, hs⟩
        · split at h
          · exact .inl ‹_›
          · exact .inr ⟨_, _, r, h⟩

theorem goesOn_of_splitArguments {depth : Nat} {run : List Token}
    {r : List (List Token) × Token × List Token} (h : splitArguments depth run input = .ok r) :
    GoesOn input := by
  obtain ⟨u, more, rfl, hline, hu⟩ := splitArguments_cons h
  refine ⟨u, more, rfl, hline, fun _ hv => ?_⟩
  rcases hu with hclose | ⟨_, _, _, hmore⟩
  · exact absurd hclose hv
  · obtain ⟨v, left, heq, hend, -⟩ := splitArguments_cons hmore
    exact ⟨v, left, heq, hend⟩

theorem splitArguments_closed {depth : Nat} {run after : List Token} {runs : List (List Token)}
    {closer : Token} (h : splitArguments depth run input = .ok (runs, closer, after))
    (hs : Sealed input) (hu : ∀ u ∈ input, Unclosing u) (hr : ∀ t ∈ run, t.Closed) :
    ∀ r ∈ runs, ∀ t ∈ r, t.Closed := by
  induction input generalizing depth run runs with
  | nil => cases h
  | cons t rest ih =>
    have hrest : ∀ u ∈ rest, Unclosing u := fun u hmem => hu u (List.mem_cons_of_mem t hmem)
    have pushed {depth : Nat} {runs : List (List Token)}
        (h : splitArguments depth (run ++ [t]) rest = .ok (runs, closer, after)) :
        ∀ r ∈ runs, ∀ t ∈ r, t.Closed := by
      refine ih h hs.tail hrest fun u hmem => ?_
      rcases List.mem_append.1 hmem with hmem | hmem
      · exact hr u hmem
      · rw [List.mem_singleton.1 hmem]
        exact closed_of_goesOn hs hrest (goesOn_of_splitArguments h)
    simp only [splitArguments] at h
    split at h
    · cases h
    · split at h
      · exact pushed h
      · split at h
        · obtain ⟨⟨more, closer', after'⟩, hmore, he⟩ := Outcome.map_eq_ok_iff.1 h
          cases he
          exact List.forall_mem_cons.2 ⟨hr, ih hmore hs.tail hrest (by simp)⟩
        · split at h
          · split at h
            · cases h
              simpa using hr
            · exact pushed h
          · exact pushed h

theorem argumentList_closed {fn closer : Token} {after : List Token} {runs : List (List Token)}
    (h : argumentList fn rest = .ok (runs, closer, after)) (hs : Sealed rest)
    (hu : ∀ u ∈ rest, Unclosing u) : ∀ r ∈ runs, ∀ t ∈ r, t.Closed := by
  unfold argumentList at h
  dsimp only at h
  split at h
  · cases h
  · split at h
    · cases h
    · split at h
      · cases h
        simp
      · exact splitArguments_closed h hs.tail (fun u hmem => hu u (List.mem_of_mem_tail hmem))
          (by simp)

end Routine

namespace Directive

variable {quiet : Bool} {tables : Tables}

/-- The first stage puts nothing behind what reaches to the end of a line. -/
theorem step_intact {p : Progress} (h : step d tables out t rest = .ok p)
    (hi : Intact out (t :: rest)) (hs : p.rest <:+ rest)
    (hm : ∀ m ∈ tables.defines, m.Holds Token.Closed) : Intact p.out p.rest := by
  have hsuf := hs.trans (List.suffix_cons t rest)
  cases step_cases h with
  | untagged _ hl => exact hi.skip (ready_of_lineStart hl) hsuf
  | skipped hl => exact hi.skip (ready_of_lineStart hl) hsuf
  | left => exact hi.pass
  | gone hk => exact hi.skip (hi.joined.ready (by rw [hk]; rfl)) hsuf
  | defined hl => exact hi.skip (ready_of_lineStart hl) hsuf
  | tagged hl => exact hi.skip (ready_of_lineStart hl) hsuf
  | opened hl => exact hi.put (ready_of_lineStart hl) (Token.closed_of_kind rfl rfl) hsuf
  | closed hl =>
    exact hi.append (ready_of_lineStart hl) (Lexer.snippet_closed (by decide)) hsuf
  | expanded hk he =>
    have hrest := List.suffix_cons t rest
    have hexpands := Define.expands_of_holds hm rest
      (Define.admits_closed (hi.joined.right.suffix hrest) fun u hu => hi.input u (hrest.mem hu))
    exact hi.append (hi.joined.ready (by rw [hk.1]; rfl)) (hexpands.expand t _ he).1 hsuf
  | passed =>
    rcases asCall_cases (d := d) out t rest with heq | ⟨hk, hcall⟩
    · rw [heq]
      exact hi.pass
    · have hr : Ready out := hi.joined.ready (by rcases hk with hk | hk <;> rw [hk] <;> rfl)
      exact hi.put hr (.inl (by rcases hcall with hk | hk <;> rw [hk] <;> rfl)) hsuf

/-- The first stage reads no default that reaches to the end of a line. -/
theorem step_filled {p : Progress} (h : step d tables out t rest = .ok p)
    (hs : Sealed (t :: rest)) (hu : ∀ u ∈ t :: rest, Unclosing u) (hf : tables.Filled) :
    p.tables.Filled := by
  have hrest := List.suffix_cons t rest
  cases step_cases h with
  | defined _ hr =>
    refine ⟨Define.readLine_fallback hr (fun l r hl hb => ?_) hf.fallbacks, hf.defaults, hf.opened⟩
    exact Define.readBody_closed hb (hs.suffix (hl.trans hrest))
      fun u hmem => hu u (hrest.mem (hl.mem hmem))
  | @opened runs closer after ps _ ha hps =>
    refine ⟨hf.fallbacks, hf.defaults, ?_⟩
    rintro e ⟨⟩ p hp
    have htail : rest.tail <:+ t :: rest := (List.tail_suffix rest).trans hrest
    have hruns := Routine.argumentList_closed ha (hs.suffix htail)
      fun u hmem => hu u (htail.mem hmem)
    obtain ⟨run, hrun, hparameter⟩ := Outcome.exists_of_forall₂ (Outcome.forall₂_of_mapM hps) hp
    exact (Routine.parameter_holds (hruns run hrun) hparameter).2
  | @closed fn ps _ ho =>
    refine ⟨hf.fallbacks, fun e he => ?_, by simp⟩
    rcases List.mem_append.1 he with he | he
    · exact hf.defaults e he
    · rw [List.mem_singleton.1 he]
      exact hf.opened (fn, ps) ho
  | _ => exact ⟨hf.fallbacks, hf.defaults, hf.opened⟩

theorem reaches_intact {lexed : List Token} {p q : Point} (h : Reaches d quiet p q)
    (hl : ∀ u ∈ lexed, u.Lexed d) (hk : Kept d lexed p) (hi : Intact p.out p.input)
    (hf : p.tables.Filled) (hq : ∀ m ∈ q.tables.defines, ∀ t ∈ m.body, t.Closed) :
    Intact q.out q.input ∧ q.tables.Filled := by
  induction h using Relation.ReflTransGen.head_induction_on with
  | refl => exact ⟨hi, hf⟩
  | @head p r hstep hrest ih =>
    -- what is known at a point is known at the end
    have hsub := reaches_defines (.head hstep hrest)
    refine ih (step_kept hstep hl hk) ?_ ?_
    · cases hstep with
      | declared hd h =>
        simp only [declares, Bool.and_eq_true] at hd
        exact hi.skip (ready_of_lineStart hd.2)
          ((Conversion.suffix_declareLine h).trans (List.suffix_cons _ _))
      | read he h =>
        obtain ⟨-, -, hs⟩ := step_sound hk.tables hk.out (fun u hu => hl u (hk.input.mem hu)) h
        exact step_intact h hi hs fun m hm =>
          Define.closed_holds (hq m (hsub m hm)) (hf.fallbacks m hm)
    · cases hstep with
      | declared => exact hf
      | read he h => exact step_filled h hi.joined.right hi.input hf

/-- What the first stage leaves of a sealed file is sealed when the bodies of its defines are over. -/
theorem carryOut_sealed {listing : Listing} {lexed : List Token} {r : Tables × List Token}
    {σ τ : Session} (hx : Lexer.lex d listing = .ok lexed)
    (h : carryOut d quiet lexed σ = .ok r τ) (hs : Sealed lexed) (hu : ∀ u ∈ lexed, Unclosing u)
    (hr : r.1.Over) : Sealed r.2 ∧ (∀ u ∈ r.2, Unclosing u) ∧ r.1.Filled := by
  obtain ⟨start, newline, rest, final, last, left, rfl, hreach, hlast, heq⟩ := reaches_of_carryOut h
  obtain ⟨hkept, hl⟩ := kept_first (σ := σ) hx
  have hfirst : Intact [newline, start] rest := by
    refine ⟨hs, ?_, ?_⟩
    · simp only [List.forall_mem_cons] at hu ⊢
      exact ⟨hu.2.1, hu.1, by simp⟩
    · simp only [List.forall_mem_cons] at hu
      exact hu.2.2
  have hbuiltin : Tables.Filled { defines := PrintAt.builtin d start.pos } := by
    refine ⟨fun m hm => ?_, by simp, by simp⟩
    cases d with
    | msx =>
      rw [List.mem_singleton.1 hm]
      exact Lexer.snippet_closed (by decide)
    | coco =>
      rw [List.mem_singleton.1 hm]
      exact Lexer.snippet_closed (by decide)
  obtain ⟨hfinal, hfilled⟩ := reaches_intact hreach hl hkept hfirst hbuiltin hr.bodies
  have hend : Sealed (last :: final).reverse := (joined_cons.2 hfinal.joined).left
  rw [heq]
  refine ⟨hend, fun u hmem => ?_, hfilled⟩
  rcases List.mem_cons.1 (List.mem_reverse.1 hmem) with rfl | hmem
  · exact hfinal.input u (by simp)
  · exact hfinal.out u hmem

end Directive

namespace Routine

/-- Taking back the variables of a call stops where anything may follow. -/
theorem takeBack_ready (run : List Token) (runs : List (List Token)) (hs : Sealed out.reverse)
    (hr : Ready out) : Ready (takeBack d run runs out).2 := by
  induction out generalizing run runs with
  | nil => simp [takeBack, Ready]
  | cons t out ih =>
    simp only [takeBack]
    split
    · exact hr
    · rename_i hstart
      have hn : t.kind ≠ .newline := by
        intro hk
        simp [startsStatement, hk] at hstart
      have hout : Ready out := ready_of_reverse hs ((hr t rfl).isInside hn)
      have hbefore := (sealed_reverse_cons.1 hs).1
      split
      · exact ih _ _ hbefore hout
      · exact ih _ _ hbefore hout

theorem callVariables_ready {before : List Token} {vars : List (Option Token)}
    (h : callVariables d out = .ok (vars, before)) (hl : ∀ u ∈ out, u.Lawful d)
    (hs : Sealed out.reverse) (hr : Ready out) : Ready before := by
  unfold callVariables at h
  split at h
  · cases h
    simp [Ready]
  · rename_i t out
    split at h
    · cases h
      exact hr
    · rename_i hv
      obtain ⟨vars', hm, he⟩ := Outcome.map_eq_ok_iff.1 h
      cases he
      have hn : t.kind ≠ .newline := by
        refine (hl t (by simp)).kind_ne_newline ?_
        rw [Decidable.not_not.1 hv]
        decide
      exact takeBack_ready [] [] (sealed_reverse_cons.1 hs).1
        (ready_of_reverse hs ((hr t rfl).isInside hn))

end Routine

namespace Label

/-- The second stage puts nothing behind what reaches to the end of a line. -/
theorem step_intact {routines : Routines} {loops : List Token} {p : Progress}
    (h : step d routines loops out t rest = .ok p) (hi : Intact out (t :: rest))
    (hs : p.rest <:+ rest) (hl : ∀ u ∈ out, u.Lawful d)
    (hr : ∀ e ∈ routines, (∀ p ∈ e.2.parameters, p.name.kind = .identifier ∧
      ∀ t ∈ p.fallback, t.Closed) ∧ ∀ r ∈ e.2.results, ∀ t ∈ r, t.Closed)
    (hp : d = .coco → ∀ r ∈ PrintAt.argumentsOf (t :: rest), ∀ t ∈ r, t.Closed) :
    Intact p.out p.rest := by
  have hsuf := hs.trans (List.suffix_cons t rest)
  have inside {k : Kind} (hk : t.kind = k) (h : k.isInside = true) : Ready out :=
    hi.joined.ready (hk ▸ h)
  cases step_cases h with
  | called hk hc =>
    obtain ⟨f, vars, arguments, closer, hf, hv, ha, rfl⟩ := Routine.call_cases hc
    obtain ⟨hvars, hbefore⟩ := Routine.callVariables_spec hv
    obtain ⟨hparameters, hresults⟩ := hr _ hf
    have hout := inside hk rfl
    have hrest := List.suffix_cons t rest
    have hnew : ∀ u ∈ Routine.callTokens d f t closer.pos arguments vars, u.Closed := by
      refine Routine.callTokens_holds ?_ (Token.closed_of_kind rfl rfl) ?_ hresults ?_ ?_
      · intro text htext
        have hall : ∀ text ∈ Text.ofStrings ["=", ":", "gosub"], text.any endsRemark = false := by
          decide
        exact Lexer.snippet_closed (hall text htext)
      · exact fun p hmem =>
          ⟨Token.closed_of_kind (hparameters p hmem).1 rfl, (hparameters p hmem).2⟩
      · exact Routine.argumentList_closed ha (hi.joined.right.suffix hrest)
          fun u hu => hi.input u (hrest.mem hu)
      · exact fun v hmem u hu => Token.closed_of_kind (hvars v hmem u hu) rfl
    exact hi.replace hbefore (Routine.callVariables_ready hv hl hi.joined.left hout) hnew hsuf
  | jumped hk => exact hi.put (inside hk rfl) (Token.closed_of_kind rfl rfl) hsuf
  | labelled hk _ _ hm =>
    unfold lineMark at hm
    split at hm
    · cases hm
      exact hi.put (inside hk rfl) (Token.closed_of_kind rfl rfl) hsuf
    · cases hm
  | @looped last mark before hk heq _ hline hm =>
    subst heq
    unfold lineMark at hm
    split at hm
    · cases hm
      exact hi.replace (l := [_]) (List.suffix_cons last before) (ready_of_lineStart hline)
        (by simpa using Token.closed_of_kind rfl rfl) hsuf
    · cases hm
  | @closed label outer hk =>
    have hjump : ∀ u ∈ ((if startsStatement out then [] else Lexer.snippet d t.pos ":") ++
        Lexer.snippet d t.pos "goto") ++ [⟨.labelReturn, label.lower, t.pos⟩], u.Closed := by
      intro u hu
      simp only [List.mem_append, List.mem_singleton] at hu
      rcases hu with (hu | hu) | rfl
      · split at hu
        · cases hu
        · exact Lexer.snippet_closed (by decide) u hu
      · exact Lexer.snippet_closed (by decide) u hu
      · exact Token.closed_of_kind rfl rfl
    simpa using hi.append (inside hk rfl) hjump hsuf
  | @exited label outer hk =>
    have hjump : ∀ u ∈ Lexer.snippet d t.pos "goto" ++ [⟨.labelExit, label.lower, t.pos⟩],
        u.Closed := by
      intro u hu
      rcases List.mem_append.1 hu with hu | hu
      · exact Lexer.snippet_closed (by decide) u hu
      · rw [List.mem_singleton.1 hu]
        exact Token.closed_of_kind rfl rfl
    simpa using hi.append (inside hk rfl) hjump hsuf
  | printed hd hk =>
    have harguments := hp hd
    simp only [PrintAt.argumentsOf, hk, if_true, List.forall_mem_cons] at harguments
    have hsigns : PrintAt.signs.any endsRemark = false := by decide
    have hnew : ∀ u ∈ PrintAt.render d _, u.Closed := PrintAt.render_holds
      (fun code hc => Lexer.snippet_closed (Text.any_of_subset hsigns hc))
      harguments.1 harguments.2.1
    exact hi.append (inside hk rfl) hnew hsuf
  | passed => exact hi.pass

theorem reaches_intact {tables : Tables} {carried : List Token} {p q : Point}
    (h : Reaches d tables.routines p q) (hr : tables.Plain d) (ho : tables.Over)
    (hf : tables.Filled) (hn : Directive.Named tables)
    (hp : d = .coco → ∀ l ∈ carried.tails, ∀ r ∈ PrintAt.argumentsOf l, ∀ t ∈ r, t.Closed)
    (hk : Kept d carried p) (hi : Intact p.out p.input) : Intact q.out q.input := by
  induction h with
  | refl => exact hi
  | tail hreach hstep ih =>
    have hkept := reaches_kept hreach hr.routines hk
    cases hstep with
    | @read loops out rest t p he h =>
      obtain ⟨-, -, hs⟩ := step_sound hr.routines hkept.out hkept.led hkept.lawful h
      exact step_intact h ih hs hkept.out.lawful
        (fun e hmem => ⟨fun p hp => ⟨hn.routines e hmem p hp, hf.defaults e hmem p hp⟩,
          ho.results e hmem⟩)
        fun hd => hp hd _ ((List.mem_tails _ _).2 hkept.input)

/-- What the second stage leaves is sealed when what it is given is. -/
theorem place_sealed {tables : Tables} {carried placed : List Token}
    (h : place d tables carried = .ok placed) (hr : tables.Plain d) (ho : tables.Over)
    (hf : tables.Filled) (hn : Directive.Named tables) (hc : Entry.Sound d carried.reverse)
    (hp : d = .coco → ∀ l ∈ carried.tails, ∀ r ∈ PrintAt.argumentsOf l, ∀ t ∈ r, t.Closed)
    (hs : Sealed carried) (hu : ∀ u ∈ carried, Unclosing u) : Sealed placed := by
  obtain ⟨start, newline, rest, final, last, left, rfl, -, -, hreach, -, rfl⟩ :=
    reaches_of_place hc h
  have hkept := kept_first hc
  have hfirst : Intact [newline, start] rest := by
    simp only [List.forall_mem_cons] at hu
    exact ⟨hs, by simpa using ⟨hu.2.1, hu.1⟩, hu.2.2⟩
  have hfinal := reaches_intact hreach hr ho hf hn
    (fun hd l hl => hp hd l ((List.mem_tails _ _).2 (((List.mem_tails _ _).1 hl).trans
      (List.suffix_append [start, newline] rest)))) hkept hfirst
  exact (joined_cons.2 hfinal.joined).left

end Label

namespace Merge

variable {quiet : Bool} {splice : Token → Token → Conversion (List Token)} {total : Nat}

/-- Whether a string behind an output (last token first) continues the string `first`. -/
def Continues (out : List Token) (first : Token) : Prop :=
  first.kind = .string ∧ ((∃ before, out = first :: before) ∨
    ∃ newline before, newline.kind = .newline ∧ out = newline :: first :: before)

/-- Whether nothing is joined at a point of the third stage to what reaches to the end of its line. -/
structure Apart (total : Nat) (p : Point) : Prop where
  /-- A separator that comes in place of a line end follows code. -/
  separator : ∀ t rest newline earlier before, p.input = t :: rest → t.kind = .separator →
    p.out = newline :: earlier :: before → newline.kind = .newline →
    (placeOf total rest).isLater = true → earlier.Closed
  /-- Two strings make one with a quote at each end when the second one has them. -/
  string : ∀ t rest first, p.input = t :: rest → t.kind = .string → Continues p.out first →
    Enclosed t.value → Enclosed (mergeStrings first.value t.value)

theorem addNewline_joined {p : Place} (ht : t.kind = .newline) (hj : Joined out (t :: rest)) :
    Joined (addNewline p t out) rest := by
  have hsuf := List.suffix_cons t rest
  have closed : t.Closed := Token.closed_of_kind ht rfl
  unfold addNewline
  split
  · exact joined_cons.2 hj
  · rename_i last out
    have skip (hk : last.Closed) : Joined (last :: out) rest :=
      hj.replace (l := []) (List.suffix_refl _) (fun u hu => by cases hu; exact hk) (by simp) hsuf
    split
    · exact skip (Token.closed_of_kind ‹_› rfl)
    · exact skip (Token.closed_of_kind ‹_› rfl)
    · exact skip (Token.closed_of_kind ‹_› rfl)
    · rename_i hk
      have hready : Ready out := ready_of_reverse hj.left (by rw [hk]; rfl)
      split
      · exact hj.replace (l := []) (List.suffix_cons last out) hready (by simp) hsuf
      · exact hj.replace (l := [t]) (List.suffix_cons last out) hready (by simpa using closed) hsuf
    · split
      · exact skip (Token.closed_of_kind ‹_› rfl)
      · exact joined_cons.2 hj
    · exact joined_cons.2 hj

theorem addSeparator_joined {p : Place} (ht : t.kind = .separator) (hj : Joined out (t :: rest))
    (hc : ∀ newline earlier before, out = newline :: earlier :: before → newline.kind = .newline →
      p.isLater = true → earlier.Closed) : Joined (addSeparator p t out) rest := by
  have hsuf := List.suffix_cons t rest
  have closed : t.Closed := Token.closed_of_kind ht rfl
  unfold addSeparator
  split
  · exact joined_cons.2 hj
  · rename_i last out
    split
    · rename_i hk
      refine hj.replace (l := []) (List.suffix_refl _) (fun u hu => ?_) (by simp) hsuf
      cases hu
      exact Token.closed_of_kind hk rfl
    · rename_i hk
      split
      · rename_i hlater
        have hready : Ready out := by
          cases out with
          | nil => simp [Ready]
          | cons earlier before =>
            rintro u ⟨⟩
            exact hc last earlier before rfl hk hlater
        exact hj.replace (l := [t]) (List.suffix_cons last out) hready (by simpa using closed) hsuf
      · exact joined_cons.2 hj
    · exact joined_cons.2 hj

theorem continued_joined {first : Token} {before : List Token} (ht : t.kind = .string)
    (hj : Joined out (t :: rest)) (hk : first :: before <:+ out) (hf : first.kind = .string)
    (hc : Enclosed t.value → Enclosed (mergeStrings first.value t.value)) :
    Joined (t.withValue (mergeStrings first.value t.value) :: before) rest := by
  have hleft : Sealed (first :: before).reverse := hj.left.part (List.reverse_infix.2 hk.isInfix)
  have hready : Ready before := ready_of_reverse hleft (by rw [hf]; rfl)
  have hright : Sealed (t.withValue (mergeStrings first.value t.value) :: rest) := by
    refine hj.right.tail.cons fun u hu => ?_
    rcases (hj.right.rel_head? hu) with (hover | ⟨-, hv⟩) | ⟨hk, hline⟩ | ⟨hk, -⟩
    · rw [ht] at hover
      cases hover
    · exact .inl (.inr ⟨ht, hc hv⟩)
    · exact .inr (.inl ⟨hk, hline⟩)
    · simp [ht] at hk
  exact joined_of_ready (l := [_]) (sealed_reverse_cons.1 hleft).1 hready hright

theorem addString_joined (ht : t.kind = .string) (hj : Joined out (t :: rest))
    (hc : ∀ first, Continues out first → Enclosed t.value →
      Enclosed (mergeStrings first.value t.value)) : Joined (addString t out) rest := by
  unfold addString
  split
  · exact joined_cons.2 hj
  · rename_i last out
    split
    · rename_i hk
      exact continued_joined ht hj (List.suffix_refl _) hk
        (hc last ⟨hk, .inl ⟨out, rfl⟩⟩)
    · split
      · rename_i hn
        split
        · exact joined_cons.2 hj
        · rename_i earlier before
          split
          · rename_i hk
            exact continued_joined ht hj (List.suffix_cons last _) hk
              (hc earlier ⟨hk, .inr ⟨last, before, hn, rfl⟩⟩)
          · exact joined_cons.2 hj
      · exact joined_cons.2 hj

theorem unwrap_sealed (h : Sealed l) : Sealed ((unwrap d l).1 ++ (unwrap d l).2) := by
  induction l with
  | nil => exact h
  | cons t rest ih =>
    simp only [unwrap]
    split
    · exact h.tail
    · split
      · exact h
      · rw [Lexer.snippet_apostrophe]
        have htail := ih h.tail
        refine List.isChain_cons_cons.2 ⟨.inr (.inr ⟨rfl, rfl⟩), ?_⟩
        refine List.isChain_cons_cons.2 ⟨.inr (.inl ⟨by simp [Token.withKind], rfl⟩), ?_⟩
        exact htail.cons fun u _ => .inl (Token.closed_of_kind rfl rfl)

theorem step_joined {p q : Point} (h : Step d quiet splice total p q) (hj : Joined p.out p.input)
    (hl : ∀ u ∈ p.out, u.Lawful d) (ha : Apart total p)
    (hb : ∀ t rest body τ, p.input = t :: rest → t.kind = .directive → t.is "INCLUDE" →
      splice t (rest.headD t) p.session = .ok body τ → Sealed (body ++ rest.tail)) :
    Joined q.out q.input := by
  cases h with
  | included hk hn h =>
    exact joined_of_ready hj.left (hj.ready (by rw [hk]; rfl)) (hb _ _ _ _ rfl hk hn h)
  | block hk =>
    exact joined_of_ready hj.left (hj.ready (by rw [hk]; rfl)) (unwrap_sealed hj.right.tail)
  | @named σ τ out met t rest hk hm =>
    have hready : Ready out := hj.ready (by rw [hk]; rfl)
    have closed : ∀ u ∈ [t], u.Closed := by simpa using Token.closed_of_kind hk rfl
    have hsuf := List.suffix_cons t rest
    rcases meetVariable_cases hm with ⟨last, rfl, hv, -⟩ | ⟨rfl, -⟩
    · obtain ⟨hn, -⟩ := kind_of_keepSign (hl last (by simp)) hv
      exact hj.replace (l := [t]) (List.suffix_cons last met)
        (ready_of_reverse hj.left ((hready last rfl).isInside hn)) closed hsuf
    · exact hj.replace (l := [t]) (List.suffix_refl _) hready closed hsuf
  | @token σ out t rest he hd hblock hv =>
    show Joined (add (placeOf total rest) t out) rest
    unfold add
    split
    · exact addNewline_joined ‹_› hj
    · rename_i hk
      exact addSeparator_joined hk hj fun newline earlier before =>
        ha.separator t rest newline earlier before rfl hk
    · rename_i hk
      exact addString_joined hk hj fun first => ha.string t rest first rfl hk
    · exact joined_cons.2 hj

end Merge

namespace Branch

theorem endless_of_sealed {t : Token} (h : Sealed l) (ht : t ∈ l.dropLast) : t.kind ≠ .eof := by
  induction l with
  | nil => cases ht
  | cons u rest ih =>
    cases rest with
    | nil => cases ht
    | cons v more =>
      rcases List.mem_cons.1 ht with rfl | ht
      · intro hk
        rcases h.rel with (hover | ⟨hstring, -⟩) | ⟨hne, -⟩ | ⟨hr, -⟩
        · rw [hk] at hover
          cases hover
        · simp [hk] at hstring
        · exact hne hk
        · simp [hk] at hr
      · exact ih h.tail ht

namespace Visit

open Merge

variable {s : Setting} {v : Visit}

/-- Whether nothing in a file is put behind what reaches to the end of its line. -/
structure Guarded (s : Setting) (v : Visit) : Prop where
  /-- REM is not the name of a tag that is taken apart. -/
  tags : v.lexed.IsChain fun t u => ¬t.SplitsTag u
  /-- No text of a remark is taken for a closing parenthesis. -/
  texts : ∀ t ∈ v.lexed, Unclosing t
  /-- What is captured by the first stage is over where it ends. -/
  captured : ∀ tables carried before after,
    Directive.carryOut s.dialect v.branch.quiet v.lexed before = .ok (tables, carried) after →
    tables.Over ∧ (s.dialect = .coco →
      ∀ l ∈ carried.tails, ∀ r ∈ PrintAt.argumentsOf l, ∀ t ∈ r, t.Closed)
  /-- The third stage joins nothing to what reaches to the end of its line. -/
  apart : ∀ placed ready, front s v.branch v.lexed v.session = .ok placed ready →
    ∀ p, v.Walks s p → Apart placed.length p
  /-- A file that ends in a remark or an open string is included at the end of a line. -/
  included : ∀ p t rest spliced τ, v.Walks s p → p.input = t :: rest → t.kind = .directive →
    t.is "INCLUDE" → v.splice s t (rest.headD t) p.session = .ok spliced τ →
    (∀ u ∈ spliced.getLast?, u.Closed) ∨ lineOver rest.tail = true

theorem front_sealed {listing : Listing} {placed : List Token} {ready : Session}
    (hx : Lexer.lex s.dialect listing = .ok v.lexed) (hg : v.Guarded s)
    (hf : front s v.branch v.lexed v.session = .ok placed ready) : Sealed placed := by
  obtain ⟨tables, carried, before, after, hd, hp, -, -⟩ := front_cases hf
  obtain ⟨hover, hplaces⟩ := hg.captured tables carried before after hd
  obtain ⟨htables, hsound⟩ := Directive.carryOut_sound hx hd
  obtain ⟨hsealed, htexts, hfilled⟩ :=
    Directive.carryOut_sealed hx hd (Lexer.lex_sealed hx hg.tags) hg.texts hover
  exact Label.place_sealed hp htables hover hfilled (Directive.carryOut_named hd) hsound hplaces
    hsealed htexts

theorem walks_joined {listing : Listing} {p : Point}
    (hx : Lexer.lex s.dialect listing = .ok v.lexed) (hg : v.Guarded s) (hfeeds : Feeds s Sealed v)
    (hw : v.Walks s p) : Joined p.out p.input := by
  obtain ⟨start, newline, rest, ready, hfront, hr⟩ := hw
  have hsound := front_sound hx hfront
  induction hr with
  | refl =>
    have hs := front_sealed hx hg hfront
    exact hs
  | @tail p q hr hstep ih =>
    have hw : v.Walks s p := ⟨start, newline, rest, ready, hfront, hr⟩
    obtain ⟨_, _, _, heq, hstart, hnewline, ho, -, hrest⟩ := hsound.exists_input
    cases heq
    have hlawful : ∀ t name σ body τ, v.splice s t name σ = .ok body τ →
        ∀ u ∈ body, u.Lawful s.dialect := fun _ _ _ _ _ hs => splice_lawful hs
    have hsettled := reaches_settled hr hlawful
      ⟨ho.lawful, [], newline, start, rfl, .inl hnewline, hstart⟩ hrest
    refine step_joined hstep ih hsettled.1.lawful (hg.apart _ _ hfront p hw) ?_
    intro t rest' spliced τ hp hk hi hs
    obtain ⟨merged, hm, rfl⟩ := hfeeds p t rest' _ τ hw hp hk hi hs
    rw [hp] at ih
    have hbody : Sealed (body merged) := hm.part (body_within merged)
    refine hbody.append ih.right.tail.tail fun u hu w hw' => ?_
    rcases hg.included p t rest' _ τ hw hp hk hi hs with hclosed | hline
    · exact .inl (hclosed u hu)
    · refine .inr (.inl ⟨endless_of_sealed hm ?_, ?_⟩)
      · exact mem_dropLast_of_mem_body (List.mem_of_mem_getLast? hu)
      · cases hrest' : rest'.tail with
        | nil => simp [hrest'] at hw'
        | cons x more =>
          rw [hrest'] at hw' hline
          cases hw'
          exact hline

theorem convert_sealed {listing : Listing} {merged : List Token} {τ : Session}
    (hx : Lexer.lex s.dialect listing = .ok v.lexed)
    (h : convert s v.depth v.branch v.lexed v.session = .ok merged τ)
    (hg : ∀ w, Visits s v w → w.Guarded s) : Sealed merged := by
  refine convert_visits ?_ hx h hg
  intro v listing placed merged ready τ hx hg hfront hm hfeeds
  obtain ⟨start, newline, rest, final, last, left, rfl, -, -, hr, hlast, rfl⟩ :=
    reaches_of_merge (front_sound hx hfront) hm
  have hj := walks_joined hx hg hfeeds ⟨start, newline, rest, ready, hfront, hr⟩
  exact (joined_cons.2 hj).left

end Visit

end Branch

namespace Numbering

/-- Numbering keeps tokens sealed, whatever stands in front of them. -/
theorem Numbers.sealed {new : List Token} (h : Numbers input new) (hs : Sealed (t :: input)) :
    Sealed (t :: new) := by
  induction h generalizing t with
  | ending => exact List.isChain_pair.2 hs.rel
  | @entry u rest new hu _ ih =>
    refine ih (hs.tail.tail.cons fun v _ => .inl (hs.rel.closed ?_))
    cases hk : u.kind <;> simp_all [Kind.isEntry, Kind.isInside]
  | @line u number rest new hu hn _ ih =>
    have hnumber : Sealed (number :: rest) :=
      hs.tail.tail.cons fun v _ => .inl (Token.closed_of_kind hn rfl)
    refine List.isChain_cons_cons.2 ⟨hs.rel, List.isChain_cons_cons.2 ⟨?_, ih hnumber⟩⟩
    exact .inl (Token.closed_of_kind hu rfl)
  | @token u w rest new hw _ ih =>
    rcases hw with rfl | ⟨hk, hkind⟩
    · exact List.isChain_cons_cons.2 ⟨hs.rel, ih hs.tail⟩
    · have hinside : u.kind.isInside = true := by
        rcases hkind with hi | hp
        · rw [hi]
          rfl
        · cases hu : u.kind <;> simp_all [Kind.isPlaceholder, Kind.isInside]
      have hover : w.Closed := by
        refine .inl ?_
        rcases hkind with hi | hp
        · rw [hk, hi]
          rfl
        · rw [hk]
          cases hu : u.kind <;> simp_all [Kind.isPlaceholder, Kind.isOver]
      refine List.isChain_cons_cons.2 ⟨.inl (hs.rel.closed hinside), ih ?_⟩
      exact hs.tail.tail.cons fun v _ => .inl hover

end Numbering

/-- The upper half of a character set has no quotes, as can be told from its bytes. -/
theorem Dialect.translateChar_quote (d : Dialect) : d.translateChar '"' = '"' := by
  have hlookup : (d.keyboardLetters.lookup '"').getD '"' = '"' := by cases d <;> decide
  have hnone : '"' ∉ d.upperHalf := by
    intro hmem
    cases d with
    | msx =>
      rcases List.mem_append.1 hmem with h | h
      · exact absurd (Text.bytes_of_mem h 0x22 (by decide)) (by decide +kernel)
      · exact absurd (Text.bytes_of_mem h 0x22 (by decide)) (by decide +kernel)
    | coco => exact absurd (Text.bytes_of_mem hmem 0x22 (by decide)) (by decide +kernel)
  unfold translateChar
  rw [hlookup]
  simp only [List.idxOf?_eq_none_iff.2 hnone]

namespace Touch

variable {o : Options} {tokens : List Token}

theorem enclosed_map {v : Text} {f : Char → Char} (hf : f '"' = '"') (h : Enclosed v) :
    Enclosed (v.map f) := by
  obtain ⟨hl, hh, he⟩ := h
  exact ⟨by simpa using hl, by simp [hh, hf], by simp [he, hf]⟩

/-- A token that stands on a line of code is replaced by such ones, any other one by one like it. -/
theorem touch_alike {next : Token} (h : touch d o out t next = .ok tokens)
    (hc : t.kind = .compound → t.value ⊆ Dialect.compoundSigns) :
    (t.kind.isInside = true ∧ ∀ u ∈ tokens, u.Closed) ∨
      ∃ u, tokens = [u] ∧ u.kind = t.kind ∧ (Enclosed t.value → Enclosed u.value) := by
  have insideOf {k : Kind} (hk : t.kind = k) (h : k.isInside = true) : t.kind.isInside = true :=
    hk ▸ h
  cases touch_cases h with
  | printed hk =>
    refine .inl ⟨insideOf hk rfl, ?_⟩
    have hprinted : (capitalised d o (printed o t)).kind = .instruction := by simp [hk]
    simpa using Token.closed_of_kind hprinted rfl
  | gone hk => exact .inl ⟨insideOf hk rfl, by simp⟩
  | @writtenOut operand before hk _ hi =>
    have hsigns : Dialect.compoundSigns.any endsRemark = false := by decide
    have hop : (operator t).any endsRemark = false :=
      Text.any_of_subset hsigns fun c hmem => hc hk (List.mem_of_mem_take hmem)
    refine .inl ⟨insideOf hk rfl, fun u hu => ?_⟩
    simp only [writtenOut, List.mem_append, List.mem_cons] at hu
    rcases hu with (hu | rfl | hu) | hu
    · exact Lexer.snippet_closed (by decide) u hu
    · exact Token.closed_of_kind hi rfl
    · exact Lexer.snippet_closed hop u hu
    · split at hu
      · exact Lexer.snippet_closed (by decide) u hu
      · cases hu
  | truth hk hcode =>
    have hall : ∀ code ∈ Text.ofStrings ["0", "-1"], code.any endsRemark = false := by decide
    exact .inl ⟨insideOf hk rfl, Lexer.snippet_closed (hall _ hcode)⟩
  | translated =>
    exact .inr ⟨_, rfl, rfl, enclosed_map (Dialect.translateChar_quote d)⟩
  | kept =>
    refine .inr ⟨_, rfl, by simp, fun hv => ?_⟩
    rcases capitalised_value (d := d) (o := o) (t := t) with heq | heq
    · rwa [heq]
    · rw [heq]
      exact enclosed_map (by decide) hv

/-- The last touches keep tokens sealed, whatever stands in front of them. -/
theorem Touches.sealed {new : List Token} (h : Touches d o input new) (hs : Sealed (t :: input))
    (hc : ∀ u ∈ input, u.kind = .compound → u.value ⊆ Dialect.compoundSigns) :
    Sealed (t :: new) := by
  induction h generalizing t with
  | ending => exact List.isChain_pair.2 hs.rel
  | @token u next out rest tokens new ht _ ih =>
    rw [List.forall_mem_cons] at hc
    rcases touch_alike ht hc.1 with ⟨hinside, hover⟩ | ⟨w, rfl, hk, hv⟩
    · have hfirst : t.Closed := hs.rel.closed hinside
      have hrest := ih (hs.tail.tail.cons fun v _ => .inl hfirst) hc.2
      exact (sealed_append hover hrest.tail).cons fun v _ => .inl hfirst
    · have hlike : ∀ v, u.Before v → w.Before v := by
        rintro v ((hover | ⟨hk', hvalue⟩) | hline | htext)
        · exact .inl (.inl (hk ▸ hover))
        · exact .inl (.inr ⟨hk.trans hk', hv hvalue⟩)
        · exact .inr (.inl ⟨hk ▸ hline.1, hline.2⟩)
        · exact .inr (.inr ⟨hk.trans htext.1, htext.2⟩)
      refine List.isChain_cons_cons.2 ⟨?_, ih ?_ hc.2⟩
      · rcases hs.rel with hclosed | ⟨hne, hline⟩ | ⟨hr, htext⟩
        · exact .inl hclosed
        · exact .inr (.inl ⟨hne, by simpa [Token.endsLine, hk] using hline⟩)
        · exact .inr (.inr ⟨hr, hk.trans htext⟩)
      · exact hs.tail.tail.cons fun v hv' => hlike v (hs.tail.rel_head? hv')

end Touch

namespace Compile

open Branch (Visit)

variable {s : Setting} {o : Options} {listing : Listing} {c : Compiled} {σ τ : Session}

theorem whole_sealed {start second : Token} (hs : Sealed (start :: second :: rest))
    (hk : second.kind = .newline ∨ second.kind = .separator) :
    Sealed (whole o (start :: second :: rest)) := by
  have hsecond : second.Closed := by
    rcases hk with hk | hk
    · exact Token.closed_of_kind hk rfl
    · exact Token.closed_of_kind hk rfl
  have hline (pos : Position) (text : Text) {more : List Token} (hm : Sealed more) :
      Sealed (Numbering.remarkLine pos text ++ more) := by
    refine List.isChain_cons_cons.2 ⟨.inr (.inr ⟨rfl, rfl⟩), ?_⟩
    refine List.isChain_cons_cons.2 ⟨.inr (.inl ⟨by simp, rfl⟩), ?_⟩
    exact hm.cons fun u _ => .inl (Token.closed_of_kind rfl rfl)
  have hlines (pos : Position) (texts : List Text) {more : List Token} (hm : Sealed more) :
      Sealed (texts.flatMap (Numbering.remarkLine pos) ++ more) := by
    induction texts with
    | nil => exact hm
    | cons text texts ih =>
      rw [List.flatMap_cons, List.append_assoc]
      exact hline pos text ih
  unfold whole
  split
  · have htail := (hlines start.pos Numbering.headerTexts hs.tail.tail).cons
      fun u _ => (.inl hsecond : second.Before u)
    have hwhole := List.isChain_cons_cons.2 ⟨hs.rel, htail⟩
    exact hwhole
  · exact hs

theorem Passes.sealed {merged : List Token} {numbered : Numbering.Numbered}
    {before after : Session} (hp : Passes s o listing σ c τ merged numbered before after)
    (hm : Sealed merged) : Sealed c.parsed := by
  have hset := Branch.convert_settled hp.lexed hp.converted
  obtain ⟨_, _, _, heq, -, hsecond⟩ := hset.seated.exists_cons
  obtain ⟨start, second, rest, lead, numbers, new, rfl, -, -, hwhole, hnumbers, hsigns, -, hparsed,
    htouches⟩ := hp.finish
  cases heq
  have hsealed := hwhole ▸ whole_sealed (o := o) hm hsecond
  rw [hparsed]
  exact htouches.sealed (hnumbers.sealed hsealed) hsigns

/-- No code is swallowed in a compiled program whose files are guarded. -/
theorem unswallowed_of_guarded (h : ofListing s o listing σ = .ok c τ) :
    ∃ merged numbered before after, Passes s o listing σ c τ merged numbered before after ∧
      ((∀ v, Visit.Visits s ⟨s.shelf.size, Branch.main s, c.lexed, before⟩ v → v.Guarded s) →
        Unswallowed c.parsed) := by
  obtain ⟨merged, numbered, before, after, hp⟩ := exists_passes h
  refine ⟨merged, numbered, before, after, hp, fun hg => (hp.sealed ?_).unswallowed⟩
  exact Visit.convert_sealed (v := ⟨s.shelf.size, Branch.main s, c.lexed, before⟩) hp.lexed
    hp.converted hg

/-- Whether a token has no part in joining lines, strings or files. -/
def Unjoining (t : Token) : Prop :=
  t.kind ≠ .separator ∧ t.kind ≠ .directive ∧ (t.kind = .string → ¬Enclosed t.value)

instance (t : Token) : Decidable (Unjoining t) := inferInstanceAs (Decidable (_ ∧ _))

/-- Whether the first two stages leave a listing without anything that could be joined. -/
def isUnjoined (listing : Listing) : Bool :=
  match Lexer.lex .msx listing, carried? .msx listing with
  | .ok lexed, some (tables, carried) =>
    match Label.place .msx tables carried with
    | .ok placed =>
      decide (lexed.IsChain fun t u => ¬t.SplitsTag u) && decide (∀ t ∈ lexed, Unclosing t) &&
        decide tables.Over && decide (∀ t ∈ placed, Unjoining t)
    | .error _ => false
  | _, _ => false

open Merge in
/-- Of a program that includes no file, it is enough that nothing is joined. -/
theorem guarded_of_isUnjoined {before : Session} (hp : Lexer.lex .msx listing = .ok c.lexed)
    (hu : isUnjoined listing = true) (v : Visit)
    (hv : Visit.Visits (lone .msx) ⟨0, Branch.main (lone .msx), c.lexed, before⟩ v) :
    v.Guarded (lone .msx) := by
  obtain rfl := Visit.visits_of_depth_zero rfl hv
  unfold isUnjoined at hu
  rw [hp] at hu
  split at hu
  · rename_i lexed tables carried hlexed hcarried
    cases hlexed
    split at hu
    · rename_i placed hplace
      simp only [Bool.and_eq_true, decide_eq_true_eq] at hu
      obtain ⟨⟨⟨htags, htexts⟩, hover⟩, hplaced⟩ := hu
      have hfront {placed' : List Token} {ready : Session} (hf : Branch.front (lone .msx)
          (Branch.main (lone .msx)) c.lexed before = .ok placed' ready) : placed' = placed := by
        obtain ⟨_, _, _, _, hd, hl, -, -⟩ := Branch.front_cases hf
        cases eq_of_carried? hp hcarried hd
        cases hl.symm.trans hplace
        rfl
      -- nothing that the walk comes to takes part in a joint
      have hwalk {p : Point} {t : Token} {rest : List Token}
          (hw : Visit.Walks (lone .msx) ⟨0, Branch.main (lone .msx), c.lexed, before⟩ p)
          (hi : p.input = t :: rest) : Unjoining t := by
        obtain ⟨start, newline, left, ready, hf, hr⟩ := hw
        refine hplaced t (hfront hf ▸ ?_)
        have hsuf := reaches_suffix hr
        rw [hi] at hsuf
        exact List.mem_cons_of_mem _ (List.mem_cons_of_mem _ (hsuf.mem List.mem_cons_self))
      refine ⟨htags, htexts, ?_, ?_, ?_⟩
      · intro tables' carried' ready after hd
        cases eq_of_carried? hp hcarried hd
        exact ⟨hover, fun h => by cases h⟩
      · intro _ _ _ p hw
        refine ⟨?_, ?_⟩
        · intro t rest _ _ _ hi hk _ _ _
          exact absurd hk (hwalk hw hi).1
        · intro t rest _ hi hk _ hv
          exact absurd hv ((hwalk hw hi).2.2 hk)
      · intro p t rest _ _ hw hi hk _ _
        exact absurd hk (hwalk hw hi).2.1
    · cases hu
  · cases hu

theorem remark_lines_unswallowed :
    ∃ c τ merged numbered before after,
      ofListing (lone .msx) {} (Listing.ofText
        "define [x](y) y+1\nprint \"open\n'note\nrem more\nprint [x](2)" "/main" 4) {} = .ok c τ ∧
      Passes (lone .msx) {} (Listing.ofText
        "define [x](y) y+1\nprint \"open\n'note\nrem more\nprint [x](2)" "/main" 4) {} c τ merged
        numbered before after ∧ Unswallowed c.parsed := by
  -- the two runs share the reading of the listing
  obtain ⟨hrun, hunjoined⟩ : (outcome (lone .msx) {} (Listing.ofText
        "define [x](y) y+1\nprint \"open\n'note\nrem more\nprint [x](2)" "/main" 4)).isSome ∧
      isUnjoined (Listing.ofText
        "define [x](y) y+1\nprint \"open\n'note\nrem more\nprint [x](2)" "/main" 4) = true := by
    decide +kernel
  obtain ⟨c, hc⟩ := Option.isSome_iff_exists.1 hrun
  obtain ⟨τ, hτ⟩ := exists_of_outcome hc
  obtain ⟨merged, numbered, before, after, hp, hu⟩ := unswallowed_of_guarded hτ
  exact ⟨c, τ, merged, numbered, before, after, hτ, hp, hu (guarded_of_isUnjoined hp.lexed hunjoined)⟩

/-- An empty string takes the closing quote of the string that it continues. -/
theorem empty_string_swallows :
    ∃ c τ, ofListing (lone .msx) { header := false }
        (Listing.ofText "print \"a\" \"\":print 2" "/main" 4) {} = .ok c τ ∧
      ¬Unswallowed c.parsed ∧ c.code = ["10 print \"a:print 2".toList] := by
  have hrun : (outcome (lone .msx) { header := false }
      (Listing.ofText "print \"a\" \"\":print 2" "/main" 4)).map
      (fun c => (decide (Unswallowed c.parsed), c.code)) =
        some (false, ["10 print \"a:print 2".toList]) := by decide +kernel
  obtain ⟨c, hc, he⟩ := Option.map_eq_some_iff.1 hrun
  obtain ⟨τ, hτ⟩ := exists_of_outcome hc
  simp only [Prod.mk.injEq] at he
  exact ⟨c, τ, hτ, of_decide_eq_false he.1, he.2⟩

end Compile

end ClassicBasic
