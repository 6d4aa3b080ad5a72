import ClassicBasic.Proofs.Label
import Mathlib.Logic.Relation

/-!
# The third stage step by step

The third stage is a walk: each step takes something from the front of the input and changes the end
of the output. A run that succeeds is a chain of steps up to the end of the file, and since a step
is determined by where it starts, every point that can be reached lies on that chain.
-/

set_option autoImplicit false

namespace ClassicBasic.Merge

structure Point where
  session : Session
  /-- The output, last token first. -/
  out : List Token
  input : List Token

/-- Where a token in front of `rest` stands in a file of `total` tokens. -/
def placeOf (total : Nat) (rest : List Token) : Place :=
  { before := total - 1 - rest.length, behind := rest.length }

inductive Step (d : Dialect) (quiet : Bool) (splice : Token → Token → Conversion (List Token))
    (total : Nat) : Point → Point → Prop
  /-- An included file is put in place. -/
  | included {σ τ : Session} {out : List Token} {t : Token} {rest body : List Token}
      (hk : t.kind = .directive) (hi : t.is "INCLUDE")
      (h : splice t (rest.headD t) σ = .ok body τ) :
      Step d quiet splice total ⟨σ, out, t :: rest⟩ ⟨τ, body.reverse ++ out, rest.tail⟩
  /-- A block becomes remark lines. -/
  | block {σ : Session} {out : List Token} {t : Token} {rest : List Token}
      (hk : t.kind = .blockRemark) :
      Step d quiet splice total ⟨σ, out, t :: rest⟩
        ⟨σ, (unwrap d rest).1.reverse ++ out, (unwrap d rest).2⟩
  /-- A variable is met. -/
  | named {σ τ : Session} {out met : List Token} {t : Token} {rest : List Token}
      (hk : t.kind = .identifier) (h : meetVariable quiet t out σ = .ok met τ) :
      Step d quiet splice total ⟨σ, out, t :: rest⟩ ⟨τ, t :: met, rest⟩
  /-- Any other token is put behind the output. -/
  | token {σ : Session} {out : List Token} {t : Token} {rest : List Token}
      (he : t.kind ≠ .eof) (hd : ¬(t.kind = .directive ∧ t.is "INCLUDE"))
      (hb : t.kind ≠ .blockRemark) (hi : t.kind ≠ .identifier) :
      Step d quiet splice total ⟨σ, out, t :: rest⟩ ⟨σ, add (placeOf total rest) t out, rest⟩

abbrev Reaches (d : Dialect) (quiet : Bool) (splice : Token → Token → Conversion (List Token))
    (total : Nat) : Point → Point → Prop :=
  Relation.ReflTransGen (Step d quiet splice total)

variable {d : Dialect} {quiet : Bool} {splice : Token → Token → Conversion (List Token)}
  {total : Nat}

theorem reaches_of_run {out input merged : List Token} {σ τ : Session}
    (h : run d quiet splice total out input σ = .ok merged τ) :
    ∃ final last rest, Reaches d quiet splice total ⟨σ, out, input⟩ ⟨τ, final, last :: rest⟩ ∧
      last.kind = .eof ∧ merged = (last :: final).reverse := by
  fun_induction run d quiet splice total out input generalizing σ with
  | case1 => exact absurd h Conversion.throw_ne_ok
  | case2 out t rest hk =>
    obtain ⟨rfl, rfl⟩ := Conversion.pure_eq_ok_iff.1 h
    exact ⟨out, t, rest, .refl, hk, rfl⟩
  | case3 out t rest he hk ih =>
    obtain ⟨body, ρ, hs, h⟩ := Conversion.bind_eq_ok_iff.1 h
    obtain ⟨final, last, left, hr, hl⟩ := ih body h
    exact ⟨final, last, left, .head (.included hk.1 hk.2 hs) hr, hl⟩
  | case4 out t rest he hd hk ih =>
    obtain ⟨final, last, left, hr, hl⟩ := ih h
    exact ⟨final, last, left, .head (.block hk) hr, hl⟩
  | case5 out t rest he hd hb _ hk =>
    rename_i ih
    obtain ⟨met, ρ, hm, h⟩ := Conversion.bind_eq_ok_iff.1 h
    obtain ⟨final, last, left, hr, hl⟩ := ih met h
    have ha (p : Place) : add p t met = t :: met := by simp [add, hk]
    rw [ha] at hr
    exact ⟨final, last, left, .head (.named hk hm) hr, hl⟩
  | case6 out t rest he hd hb _ hk =>
    rename_i ih
    obtain ⟨met, ρ, hm, h⟩ := Conversion.bind_eq_ok_iff.1 h
    obtain ⟨rfl, rfl⟩ := Conversion.pure_eq_ok_iff.1 hm
    obtain ⟨final, last, left, hr, hl⟩ := ih out h
    exact ⟨final, last, left, .head (.token he hd hb hk) hr, hl⟩

theorem step_unique {p q q' : Point} (h : Step d quiet splice total p q)
    (h' : Step d quiet splice total p q') : q = q' := by
  cases h with
  | included hk hi hs =>
    cases h' with
    | included _ _ hs' =>
      cases hs.symm.trans hs'
      rfl
    | block hk' => simp [hk] at hk'
    | named hk' => simp [hk] at hk'
    | token _ hd => exact absurd ⟨hk, hi⟩ hd
  | block hk =>
    cases h' with
    | included hk' => simp [hk] at hk'
    | block => rfl
    | named hk' => simp [hk] at hk'
    | token _ _ hb => exact absurd hk hb
  | named hk hm =>
    cases h' with
    | included hk' => simp [hk] at hk'
    | block hk' => simp [hk] at hk'
    | named _ hm' =>
      cases hm.symm.trans hm'
      rfl
    | token _ _ _ hi => exact absurd hk hi
  | token he hd hb hi =>
    cases h' with
    | included hk' hi' => exact absurd ⟨hk', hi'⟩ hd
    | block hk' => exact absurd hk' hb
    | named hk' => exact absurd hk' hi
    | token => rfl

theorem not_step_of_eof {σ : Session} {out rest : List Token} {t : Token} {q : Point}
    (ht : t.kind = .eof) : ¬Step d quiet splice total ⟨σ, out, t :: rest⟩ q := by
  intro h
  cases h with
  | included hk => simp [ht] at hk
  | block hk => simp [ht] at hk
  | named hk => simp [ht] at hk
  | token he => exact he ht

theorem reaches_end {p q : Point} {τ : Session} {final rest : List Token} {last : Token}
    (hq : Reaches d quiet splice total p q)
    (hend : Reaches d quiet splice total p ⟨τ, final, last :: rest⟩) (hl : last.kind = .eof) :
    Reaches d quiet splice total q ⟨τ, final, last :: rest⟩ := by
  have unique : Relator.RightUnique (Step d quiet splice total) := fun _ _ _ h h' => step_unique h h'
  rcases Relation.ReflTransGen.total_of_right_unique unique hq hend with h | h
  · exact h
  · rcases h.cases_head with rfl | ⟨r, hr, -⟩
    · exact .refl
    · exact absurd hr (not_step_of_eof hl)

theorem meetVariable_cases {t : Token} {out met : List Token} {σ τ : Session}
    (h : meetVariable quiet t out σ = .ok met τ) :
    (∃ last, out = last :: met ∧ last.value = keepSign ∧
      (σ.naming.keepWritten t).outcome = .ok τ.naming) ∨
      (out = met ∧ (σ.naming.meet t).outcome = .ok τ.naming) := by
  unfold meetVariable at h
  obtain ⟨known, ρ, hn, h⟩ := Conversion.bind_eq_ok_iff.1 h
  obtain ⟨rfl, rfl⟩ := Conversion.naming_eq_ok_iff.1 hn
  split at h
  · split at h
    · obtain ⟨u, ρ', ha, h⟩ := Conversion.bind_eq_ok_iff.1 h
      obtain ⟨rfl, rfl⟩ := Conversion.pure_eq_ok_iff.1 h
      exact .inl ⟨_, rfl, ‹_›, Conversion.outcome_advise ha⟩
    · obtain ⟨u, ρ', ha, h⟩ := Conversion.bind_eq_ok_iff.1 h
      obtain ⟨rfl, rfl⟩ := Conversion.pure_eq_ok_iff.1 h
      exact .inr ⟨rfl, Conversion.outcome_advise ha⟩
  · obtain ⟨u, ρ', ha, h⟩ := Conversion.bind_eq_ok_iff.1 h
    obtain ⟨rfl, rfl⟩ := Conversion.pure_eq_ok_iff.1 h
    exact .inr ⟨rfl, Conversion.outcome_advise ha⟩

/-- How an output changes when `t` is put behind it: a little of it goes, and what comes instead is the
token or a string. -/
def Alters (t : Token) (out out' : List Token) : Prop :=
  ∃ gone kept new, out = gone ++ kept ∧ out' = new ++ kept ∧
    (∀ u ∈ gone, u.kind = .newline ∨ u.kind = .joiner ∨ u.kind = .string) ∧
    ∀ u ∈ new, u = t ∨ (u.kind = .string ∧ t.kind = .string)

theorem Alters.push (t : Token) (out : List Token) : Alters t out (t :: out) :=
  ⟨[], out, [t], rfl, rfl, by simp, by simp⟩

theorem Alters.keep (t : Token) (out : List Token) : Alters t out out :=
  ⟨[], out, [], rfl, rfl, by simp, by simp⟩

theorem addNewline_alters (p : Place) (t : Token) (out : List Token) :
    Alters t out (addNewline p t out) := by
  unfold addNewline
  split
  · exact .push t []
  · rename_i last out
    split
    · exact .keep t _
    · exact .keep t _
    · exact .keep t _
    · rename_i hk
      split
      · exact ⟨[last], out, [], rfl, rfl, by simp [hk], by simp⟩
      · exact ⟨[last], out, [t], rfl, rfl, by simp [hk], by simp⟩
    · split
      · exact .keep t _
      · exact .push t _
    · exact .push t _

theorem addSeparator_alters (p : Place) (t : Token) (out : List Token) :
    Alters t out (addSeparator p t out) := by
  unfold addSeparator
  split
  · exact .push t []
  · rename_i last out
    split
    · exact .keep t _
    · rename_i hk
      split
      · exact ⟨[last], out, [t], rfl, rfl, by simp [hk], by simp⟩
      · exact .push t _
    · exact .push t _

theorem addString_alters {t : Token} (ht : t.kind = .string) (out : List Token) :
    Alters t out (addString t out) := by
  unfold addString
  split
  · exact .push t []
  · rename_i last out
    split
    · rename_i hk
      exact ⟨[last], out, [_], rfl, rfl, by simp [hk], by simp [Token.withValue, ht]⟩
    · split
      · rename_i hk
        split
        · exact .push t _
        · rename_i earlier before
          split
          · rename_i hk'
            exact ⟨[last, earlier], before, [_], rfl, rfl, by simp [hk, hk'],
              by simp [Token.withValue, ht]⟩
          · exact .push t _
      · exact .push t _

theorem add_alters (p : Place) (t : Token) (out : List Token) : Alters t out (add p t out) := by
  unfold add
  split
  · exact addNewline_alters p t out
  · exact addSeparator_alters p t out
  · rename_i ht
    exact addString_alters ht out
  · exact .push t out

/-- The first line end is at the bottom of an output (last token first), or a separator that came in
its place. -/
def Seated (out : List Token) : Prop :=
  ∃ front second start, out = front ++ [second, start] ∧
    (second.kind = .newline ∨ second.kind = .separator) ∧ start.kind = .program

variable {out : List Token} {t : Token}

theorem Seated.append {l : List Token} (h : Seated out) : Seated (l ++ out) := by
  obtain ⟨front, second, start, rfl, hk, hs⟩ := h
  exact ⟨l ++ front, second, start, by simp, hk, hs⟩

theorem Seated.cons (h : Seated out) : Seated (t :: out) := h.append (l := [t])

theorem Seated.tail (h : Seated (t :: out)) (hn : t.kind ≠ .newline) (hs : t.kind ≠ .separator) :
    Seated out := by
  obtain ⟨front, second, start, heq, hk, hp⟩ := h
  cases front with
  | nil =>
    cases heq
    rcases hk with hk | hk
    · exact absurd hk hn
    · exact absurd hk hs
  | cons u front =>
    cases heq
    exact ⟨front, second, start, rfl, hk, hp⟩

theorem Seated.separated (h : Seated (t :: out)) {u : Token} (hu : u.kind = .separator) :
    Seated (u :: out) := by
  obtain ⟨front, second, start, heq, hk, hp⟩ := h
  cases front with
  | nil =>
    cases heq
    exact ⟨[], u, start, rfl, .inr hu, hp⟩
  | cons v front =>
    cases heq
    exact ⟨u :: front, second, start, rfl, hk, hp⟩

theorem Seated.ne_nil (h : Seated out) : out ≠ [] := by
  obtain ⟨front, second, start, rfl, -, -⟩ := h
  simp

theorem Seated.exists_cons {tokens : List Token} (h : Seated tokens.reverse) :
    ∃ start second rest, tokens = start :: second :: rest ∧ start.kind = .program ∧
      (second.kind = .newline ∨ second.kind = .separator) := by
  obtain ⟨front, second, start, heq, hk, hs⟩ := h
  refine ⟨start, second, front.reverse, ?_, hs, hk⟩
  rw [List.reverse_eq_iff.1 heq]
  simp

theorem addString_seated (h : Seated out) : Seated (addString t out) := by
  unfold addString
  split
  · exact absurd rfl h.ne_nil
  · rename_i last out
    split
    · rename_i hk
      exact (h.tail (by simp [hk]) (by simp [hk])).cons
    · split
      · split
        · exact h.cons
        · rename_i earlier before
          split
          · rename_i hk
            -- a string in front of the line end is not the start of the file
            obtain ⟨front, second, start, heq, hs, hp⟩ := h
            cases front with
            | nil =>
              cases heq
              simp [hk] at hp
            | cons u front =>
              simp only [List.cons_append, List.cons.injEq] at heq
              have hearlier : Seated (earlier :: before) := ⟨front, second, start, heq.2, hs, hp⟩
              exact (hearlier.tail (by simp [hk]) (by simp [hk])).cons
          · exact h.cons
      · exact h.cons

theorem add_seated {p : Place} (h : Seated out) : Seated (add p t out) := by
  unfold add
  split
  · unfold addNewline
    split
    · exact absurd rfl h.ne_nil
    · split
      · exact h
      · exact h
      · exact h
      · rename_i hk
        have htail := h.tail (by simp [hk]) (by simp [hk])
        split
        · exact htail
        · exact htail.cons
      · split
        · exact h
        · exact h.cons
      · exact h.cons
  · rename_i ht
    unfold addSeparator
    split
    · exact absurd rfl h.ne_nil
    · split
      · exact h
      · split
        · exact h.separated ht
        · exact h.cons
      · exact h.cons
  · exact addString_seated h
  · exact h.cons

/-- What the third stage keeps of an output (last token first). -/
structure Settled (d : Dialect) (out : List Token) : Prop where
  lawful : ∀ u ∈ out, u.Lawful d
  seated : Seated out

theorem unwrap_lawful {l : List Token} (hl : ∀ u ∈ l, u.Lawful d) :
    (∀ u ∈ (unwrap d l).1, u.Lawful d) ∧ ∀ u ∈ (unwrap d l).2, u.Lawful d := by
  induction l with
  | nil => simp [unwrap]
  | cons t rest ih =>
    rw [List.forall_mem_cons] at hl
    simp only [unwrap]
    split
    · exact ⟨by simp, hl.2⟩
    · split
      · exact ⟨by simp, List.forall_mem_cons.2 hl⟩
      · refine ⟨?_, (ih hl.2).2⟩
        simp only [List.mem_append, List.mem_cons]
        rintro u (hu | rfl | rfl | hu)
        · exact (Lexer.snippet_plain _ _ u hu).toLawful
        · exact Token.lawful_of_unread rfl (by simp) rfl
        · exact (Token.lexed_of_classify (Lexer.classify_endMark d)).toLawful
        · exact (ih hl.2).1 u hu

/-- The sign that keeps a name is neither a line end nor a separator. -/
theorem kind_of_keepSign (ht : t.Lawful d) (hv : t.value = keepSign) :
    t.kind ≠ .newline ∧ t.kind ≠ .separator := by
  constructor
  · refine ht.kind_ne_newline ?_
    rw [hv]
    decide
  · intro hk
    have hc := ht.classified (by rw [hk]; rfl)
    have hsign : d.classify keepSign = some .mark := Dialect.classify_sign (by decide)
    rw [hk, hv, hsign] at hc
    cases hc

theorem step_settled {p q : Point} (h : Step d quiet splice total p q)
    (hs : ∀ t name σ body τ, splice t name σ = .ok body τ → ∀ u ∈ body, u.Lawful d)
    (ho : Settled d p.out) (hi : ∀ u ∈ p.input, u.Lawful d) :
    Settled d q.out ∧ ∀ u ∈ q.input, u.Lawful d := by
  cases h with
  | included hk hn hb =>
    refine ⟨⟨?_, ho.seated.append⟩, fun u hu => hi u ?_⟩
    · intro u hu
      rcases List.mem_append.1 hu with hu | hu
      · exact hs _ _ _ _ _ hb u (List.mem_reverse.1 hu)
      · exact ho.lawful u hu
    · exact List.mem_cons_of_mem _ (List.mem_of_mem_tail hu)
  | block hk =>
    obtain ⟨hnew, hrest⟩ := unwrap_lawful (List.forall_mem_cons.1 hi).2
    refine ⟨⟨?_, ho.seated.append⟩, hrest⟩
    intro u hu
    rcases List.mem_append.1 hu with hu | hu
    · exact hnew u (List.mem_reverse.1 hu)
    · exact ho.lawful u hu
  | named hk hm =>
    dsimp only at ho hi ⊢
    rw [List.forall_mem_cons] at hi
    rcases meetVariable_cases hm with ⟨last, rfl, hv, -⟩ | ⟨rfl, -⟩
    · obtain ⟨hlast, hrest⟩ := List.forall_mem_cons.1 ho.lawful
      obtain ⟨hn, hsep⟩ := kind_of_keepSign hlast hv
      exact ⟨⟨List.forall_mem_cons.2 ⟨hi.1, hrest⟩, (ho.seated.tail hn hsep).cons⟩, hi.2⟩
    · exact ⟨⟨List.forall_mem_cons.2 ⟨hi.1, ho.lawful⟩, ho.seated.cons⟩, hi.2⟩
  | token he hd hb hv =>
    rename_i out t rest
    dsimp only at ho hi ⊢
    rw [List.forall_mem_cons] at hi
    refine ⟨⟨?_, add_seated ho.seated⟩, hi.2⟩
    obtain ⟨gone, kept, new, heq, hadd, -, hnew⟩ := add_alters (placeOf total rest) t out
    rw [hadd]
    intro u hu
    rcases List.mem_append.1 hu with hu | hu
    · rcases hnew u hu with rfl | ⟨hk, -⟩
      · exact hi.1
      · exact Token.lawful_of_unread (by rw [hk]; rfl) (by simp [hk]) (by rw [hk]; rfl)
    · exact ho.lawful u (by simp [heq, hu])

theorem reaches_settled {p q : Point} (h : Reaches d quiet splice total p q)
    (hs : ∀ t name σ body τ, splice t name σ = .ok body τ → ∀ u ∈ body, u.Lawful d)
    (ho : Settled d p.out) (hi : ∀ u ∈ p.input, u.Lawful d) :
    Settled d q.out ∧ ∀ u ∈ q.input, u.Lawful d := by
  induction h with
  | refl => exact ⟨ho, hi⟩
  | tail _ hstep ih => exact step_settled hstep hs ih.1 ih.2

theorem suffix_unwrap (l : List Token) : (unwrap d l).2 <:+ l := by
  induction l with
  | nil => exact List.suffix_refl _
  | cons t rest ih =>
    simp only [unwrap]
    split
    · exact List.suffix_cons t rest
    · split
      · exact List.suffix_refl _
      · exact ih.trans (List.suffix_cons t rest)

theorem reaches_suffix {p q : Point} (h : Reaches d quiet splice total p q) :
    q.input <:+ p.input := by
  induction h with
  | refl => exact List.suffix_refl _
  | tail _ hstep ih =>
    refine List.IsSuffix.trans ?_ ih
    cases hstep with
    | @included _ _ _ t rest _ =>
      exact (List.tail_suffix rest).trans (List.suffix_cons t rest)
    | @block _ _ t rest => exact (suffix_unwrap rest).trans (List.suffix_cons t rest)
    | named => exact List.suffix_cons _ _
    | token => exact List.suffix_cons _ _

theorem newline_step {σ : Session} {rest : List Token} (ht : t.kind = .newline) :
    Step d quiet splice total ⟨σ, out, t :: rest⟩ ⟨σ, add (placeOf total rest) t out, rest⟩ :=
  .token (by simp [ht]) (by simp [ht]) (by simp [ht]) (by simp [ht])

theorem first_step {start newline : Token} {rest : List Token} {σ : Session}
    (hs : start.kind = .program) (hn : newline.kind = .newline) :
    Step d quiet splice total ⟨σ, [start], newline :: rest⟩ ⟨σ, [newline, start], rest⟩ := by
  have hstep : Step d quiet splice total ⟨σ, [start], newline :: rest⟩ _ := newline_step hn
  simpa [add, addNewline, hn, hs] using hstep

open Entry in
theorem reaches_of_merge {placed merged : List Token} {σ τ : Session}
    (hp : Sound d placed.reverse) (h : merge d quiet splice placed σ = .ok merged τ) :
    ∃ start newline rest final last left, placed = start :: newline :: rest ∧
      start.kind = .program ∧ newline.kind = .newline ∧
      Reaches d quiet splice placed.length ⟨σ, [newline, start], rest⟩ ⟨τ, final, last :: left⟩ ∧
      last.kind = .eof ∧ merged = (last :: final).reverse := by
  obtain ⟨start, newline, rest, rfl, hs, hn, -⟩ := hp.exists_input
  obtain ⟨final, last, left, hr, hl, rfl⟩ := reaches_of_run h
  exact ⟨start, newline, rest, final, last, left, rfl, hs, hn,
    reaches_end (.single (first_step hs hn)) hr hl, hl, rfl⟩

open Entry in
theorem merge_settled {placed merged : List Token} {σ τ : Session}
    (hs : ∀ t name σ body τ, splice t name σ = .ok body τ → ∀ u ∈ body, u.Lawful d)
    (hp : Sound d placed.reverse) (h : merge d quiet splice placed σ = .ok merged τ) :
    Settled d merged.reverse := by
  obtain ⟨start, newline, rest, final, last, left, rfl, hk, hn, hr, hl, rfl⟩ :=
    reaches_of_merge hp h
  obtain ⟨_, _, _, heq, -, -, hsound, -, hrest⟩ := hp.exists_input
  cases heq
  obtain ⟨ho, hi⟩ := reaches_settled hr hs
    ⟨hsound.lawful, [], newline, start, rfl, .inl hn, hk⟩ hrest
  rw [List.reverse_reverse]
  exact ⟨List.forall_mem_cons.2 ⟨hi last (by simp), ho.lawful⟩, ho.seated.cons⟩

end ClassicBasic.Merge
