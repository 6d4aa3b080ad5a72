import ClassicBasic.Proofs.Label
import Mathlib.Logic.Relation

/-!
# The first two stages step by step

Like the third stage, the first two are walks: each step reads tokens from the front of the input and
changes the end of the output. What is left of the input is always an end of what was given, and the
output is sound at every point on the way.
-/

set_option autoImplicit false

namespace ClassicBasic

open Entry

variable {d : Dialect}

theorem Define.readLine_subset {table : Defines} {t : Token} {rest : List Token}
    {r : Defines × List Token} (h : readLine table t rest = .ok r) : ∀ m ∈ table, m ∈ r.1 := by
  fun_induction readLine table t rest generalizing r with
  | case1 => cases h
  | case2 table t rest name next after hn =>
    obtain ⟨s, hs, rfl⟩ := Outcome.map_eq_ok_iff.1 h
    exact fun m hm => List.mem_append_left _ hm
  | case3 => cases h
  | case4 => cases h
  | case5 => cases h
  | case6 =>
    rename_i ih
    exact fun m hm => ih h m (List.mem_append_left _ hm)
  | case7 =>
    cases h
    exact fun m hm => List.mem_append_left _ hm
  | case8 => cases h

namespace Directive

structure Point where
  session : Session
  tables : Tables
  /-- The output, last token first. -/
  out : List Token
  input : List Token

inductive Step (d : Dialect) (quiet : Bool) : Point → Point → Prop
  /-- A DECLARE line is carried out. -/
  | declared {σ τ : Session} {tables : Tables} {out rest : List Token} {t : Token}
      {left : { left : List Token // left.length ≤ rest.length }} (hd : declares out t)
      (h : Conversion.declareLine d quiet t rest σ = .ok left τ) :
      Step d quiet ⟨σ, tables, out, t :: rest⟩ ⟨τ, tables, out, left.1⟩
  /-- Any other token is read. -/
  | read {σ : Session} {tables : Tables} {out rest : List Token} {t : Token} {p : Progress}
      (he : t.kind ≠ .eof) (h : step d tables out t rest = .ok p) :
      Step d quiet ⟨σ, tables, out, t :: rest⟩ ⟨σ, p.tables, p.out, p.rest⟩

abbrev Reaches (d : Dialect) (quiet : Bool) : Point → Point → Prop :=
  Relation.ReflTransGen (Step d quiet)

variable {quiet : Bool} {σ τ : Session}

theorem reaches_of_run {tables : Tables} {out input : List Token} {r : Tables × List Token}
    (h : run d quiet tables out input σ = .ok r τ) :
    ∃ final last left, Reaches d quiet ⟨σ, tables, out, input⟩ ⟨τ, r.1, final, last :: left⟩ ∧
      last.kind = .eof ∧ r.2 = (last :: final).reverse := by
  fun_induction run d quiet tables out input generalizing σ with
  | case1 => exact absurd h Conversion.throw_ne_ok
  | case2 tables out t rest hk =>
    obtain ⟨rfl, rfl⟩ := Conversion.pure_eq_ok_iff.1 h
    exact ⟨out, t, rest, .refl, hk, rfl⟩
  | case3 tables out t rest _ hd ih =>
    obtain ⟨left, ρ, hl, h⟩ := Conversion.bind_eq_ok_iff.1 h
    obtain ⟨final, last, more, hr, hk⟩ := ih left.1 left.2 h
    exact ⟨final, last, more, .head (.declared hd hl) hr, hk⟩
  | case4 => exact absurd h Conversion.throw_ne_ok
  | case5 tables out t rest he _ p hstep ih =>
    obtain ⟨final, last, more, hr, hk⟩ := ih h
    exact ⟨final, last, more, .head (.read he hstep) hr, hk⟩

/-- The first stage walks from the first line end of a file to its end. -/
theorem reaches_of_carryOut {lexed : List Token} {r : Tables × List Token}
    (h : carryOut d quiet lexed σ = .ok r τ) :
    ∃ start newline rest final last left, lexed = start :: newline :: rest ∧
      Reaches d quiet ⟨σ, { defines := PrintAt.builtin d start.pos }, [newline, start], rest⟩
        ⟨τ, r.1, final, last :: left⟩ ∧ last.kind = .eof ∧ r.2 = (last :: final).reverse := by
  unfold carryOut at h
  split at h
  · rename_i start newline rest
    obtain ⟨final, last, left, hr, hk⟩ := reaches_of_run h
    exact ⟨start, newline, rest, final, last, left, rfl, hr, hk⟩
  · exact absurd h Conversion.throw_ne_ok

/-- What follows a DECLARE line does not depend on what is known about names. -/
theorem declareLine_unique {t : Token} {rest : List Token} {σ' τ' : Session}
    {left left' : { left : List Token // left.length ≤ rest.length }}
    (h : Conversion.declareLine d quiet t rest σ = .ok left τ)
    (h' : Conversion.declareLine d quiet t rest σ' = .ok left' τ') : left = left' := by
  fun_induction Conversion.declareLine d quiet t rest generalizing σ τ σ' τ' with
  | case1 => exact absurd h Conversion.throw_ne_ok
  | case2 t rest entry after hr ih =>
    obtain ⟨_, _, -, h⟩ := Conversion.bind_eq_ok_iff.1 h
    split at h
    · exact absurd h Conversion.throw_ne_ok
    · rename_i u more _
      obtain ⟨_, _, -, h'⟩ := Conversion.bind_eq_ok_iff.1 h'
      dsimp only at h'
      split at h
      · rename_i hv
        rw [if_pos hv] at h'
        obtain ⟨f, _, hf, h⟩ := Conversion.bind_eq_ok_iff.1 h
        obtain ⟨f', _, hf', h'⟩ := Conversion.bind_eq_ok_iff.1 h'
        obtain ⟨rfl, -⟩ := Conversion.pure_eq_ok_iff.1 h
        obtain ⟨rfl, -⟩ := Conversion.pure_eq_ok_iff.1 h'
        cases ih u more rfl hf hf'
        rfl
      · rename_i hv
        rw [if_neg hv] at h'
        split at h
        · rename_i he
          rw [if_pos he] at h'
          obtain ⟨rfl, -⟩ := Conversion.pure_eq_ok_iff.1 h
          obtain ⟨rfl, -⟩ := Conversion.pure_eq_ok_iff.1 h'
          rfl
        · exact absurd h Conversion.throw_ne_ok

theorem run_unique {tables : Tables} {out input : List Token} {r r' : Tables × List Token}
    {σ' τ' : Session} (h : run d quiet tables out input σ = .ok r τ)
    (h' : run d quiet tables out input σ' = .ok r' τ') : r = r' := by
  fun_induction run d quiet tables out input generalizing σ σ' with
  | case1 => exact absurd h Conversion.throw_ne_ok
  | case2 =>
    obtain ⟨rfl, -⟩ := Conversion.pure_eq_ok_iff.1 h
    obtain ⟨rfl, -⟩ := Conversion.pure_eq_ok_iff.1 h'
    rfl
  | case3 tables out t rest _ _ ih =>
    obtain ⟨left, _, hl, h⟩ := Conversion.bind_eq_ok_iff.1 h
    obtain ⟨left', _, hl', h'⟩ := Conversion.bind_eq_ok_iff.1 h'
    obtain rfl := declareLine_unique hl hl'
    exact ih left.1 left.2 h h'
  | case4 => exact absurd h Conversion.throw_ne_ok
  | case5 tables out t rest _ _ p hstep ih => exact ih h h'

theorem carryOut_unique {lexed : List Token} {r r' : Tables × List Token} {σ' τ' : Session}
    (h : carryOut d quiet lexed σ = .ok r τ) (h' : carryOut d quiet lexed σ' = .ok r' τ') :
    r = r' := by
  unfold carryOut at h h'
  split at h
  · exact run_unique h h'
  · exact absurd h Conversion.throw_ne_ok

/-- What holds at every point of the first stage: the tables and the output are sound, and the input
is an end of the tokens that were lexed. -/
structure Kept (d : Dialect) (input : List Token) (p : Point) : Prop where
  tables : p.tables.Plain d
  out : Sound d p.out
  input : p.input <:+ input

theorem step_kept {input : List Token} {p q : Point} (h : Step d quiet p q)
    (hl : ∀ u ∈ input, u.Lexed d) (hp : Kept d input p) : Kept d input q := by
  obtain ⟨ht, ho, hi⟩ := hp
  cases h with
  | declared hd h =>
    exact ⟨ht, ho, (Conversion.suffix_declareLine h).trans ((List.suffix_cons _ _).trans hi)⟩
  | read he h =>
    obtain ⟨ht', ho', hs⟩ := step_sound ht ho (fun u hu => hl u (hi.mem hu)) h
    exact ⟨ht', ho', hs.trans ((List.suffix_cons _ _).trans hi)⟩

theorem reaches_kept {input : List Token} {p q : Point} (h : Reaches d quiet p q)
    (hl : ∀ u ∈ input, u.Lexed d) (hp : Kept d input p) : Kept d input q := by
  induction h with
  | refl => exact hp
  | tail _ hstep ih => exact step_kept hstep hl ih

theorem kept_first {listing : Listing} {start newline : Token} {rest : List Token}
    (hx : Lexer.lex d listing = .ok (start :: newline :: rest)) :
    Kept d rest ⟨σ, { defines := PrintAt.builtin d start.pos }, [newline, start], rest⟩ ∧
      ∀ u ∈ rest, u.Lexed d := by
  obtain ⟨_, _, _, heq, hs, hn⟩ := Lexer.lex_start hx
  cases heq
  have hl := Lexer.lex_lexed hx
  simp only [List.forall_mem_cons] at hl
  refine ⟨⟨⟨PrintAt.builtin_plain d _, by simp, by simp⟩, ⟨?_, ?_, ?_⟩, List.suffix_refl _⟩, hl.2.2⟩
  · simpa using ⟨hl.2.1.toLawful, hl.1.toLawful⟩
  · simp [Placed, Kind.isEntry, hs, hn]
  · exact ⟨[], newline, start, rfl, hn, hs⟩

theorem reaches_defines {p q : Point} (h : Reaches d quiet p q) :
    ∀ m ∈ p.tables.defines, m ∈ q.tables.defines := by
  induction h with
  | refl => exact fun _ hm => hm
  | tail _ hstep ih =>
    intro m hm
    cases hstep with
    | declared => exact ih m hm
    | read he h =>
      cases step_cases h with
      | defined _ hr => exact Define.readLine_subset hr m (ih m hm)
      | _ => exact ih m hm

/-- Whether the parameters of all functions of a file are variables. -/
structure Named (tables : Tables) : Prop where
  routines : ∀ e ∈ tables.routines, ∀ p ∈ e.2.parameters, p.name.kind = .identifier
  opened : ∀ e ∈ tables.opened, ∀ p ∈ e.2, p.name.kind = .identifier

theorem parameter_kind {fn : Token} {run : List Token} {p : Parameter}
    (h : Routine.parameter fn run = .ok p) : p.name.kind = .identifier := by
  unfold Routine.parameter at h
  split at h
  · cases h
  · split at h
    · cases h
      assumption
    · cases h
  · split at h
    · cases h
    · rename_i hk
      split at h
      · cases h
      · cases h
        exact Decidable.not_not.1 hk

theorem step_named {p q : Point} (h : Step d quiet p q) (hp : Named p.tables) :
    Named q.tables := by
  cases h with
  | declared => exact hp
  | read he h =>
    cases step_cases h with
    | @opened runs closer after ps _ _ hps =>
      refine ⟨hp.routines, ?_⟩
      rintro e ⟨⟩ p hmem
      obtain ⟨run, -, hparameter⟩ := Outcome.exists_of_forall₂ (Outcome.forall₂_of_mapM hps) hmem
      exact parameter_kind hparameter
    | @closed fn ps _ ho =>
      refine ⟨fun e he => ?_, by simp⟩
      rcases List.mem_append.1 he with he | he
      · exact hp.routines e he
      · rw [List.mem_singleton.1 he]
        exact hp.opened (fn, ps) ho
    | _ => exact ⟨hp.routines, hp.opened⟩

theorem carryOut_named {lexed : List Token} {r : Tables × List Token} {σ τ : Session}
    (h : carryOut d quiet lexed σ = .ok r τ) : Named r.1 := by
  obtain ⟨start, newline, rest, final, last, left, rfl, hr, -, -⟩ := reaches_of_carryOut h
  have hfirst : Named { defines := PrintAt.builtin d start.pos } := ⟨by simp, by simp⟩
  have hall {p q : Point} (h : Reaches d quiet p q) (hp : Named p.tables) : Named q.tables := by
    induction h with
    | refl => exact hp
    | tail _ hstep ih => exact step_named hstep ih
  exact hall hr hfirst

end Directive

namespace Label

structure Point where
  loops : List Token
  /-- The output, last token first. -/
  out : List Token
  input : List Token

inductive Step (d : Dialect) (routines : Routines) : Point → Point → Prop
  | read {loops out rest : List Token} {t : Token} {p : Progress} (he : t.kind ≠ .eof)
      (h : step d routines loops out t rest = .ok p) :
      Step d routines ⟨loops, out, t :: rest⟩ ⟨p.loops, p.out, p.rest⟩

abbrev Reaches (d : Dialect) (routines : Routines) : Point → Point → Prop :=
  Relation.ReflTransGen (Step d routines)

theorem reaches_of_run {tables : Tables} {loops out input placed : List Token}
    (h : run d tables loops out input = .ok placed) :
    ∃ final last left,
      Reaches d tables.routines ⟨loops, out, input⟩ ⟨[], final, last :: left⟩ ∧
        last.kind = .eof ∧ placed = (last :: final).reverse := by
  fun_induction run d tables loops out input with
  | case1 => cases h
  | case2 => simp_all
  | case3 loops out t rest hk hu =>
    cases h
    obtain rfl : loops = [] := by
      cases loops with
      | nil => rfl
      | cons label outer => cases hu
    exact ⟨out, t, rest, .refl, hk, rfl⟩
  | case4 => simp_all
  | case5 loops out t rest hk p hstep ih =>
    obtain ⟨final, last, left, hr, hl⟩ := ih h
    exact ⟨final, last, left, .head (.read hk hstep) hr, hl⟩

/-- The second stage walks from the first line end of a file to its end, where no loop is open. -/
theorem reaches_of_place {tables : Tables} {carried placed : List Token}
    (hc : Sound d carried.reverse) (h : place d tables carried = .ok placed) :
    ∃ start newline rest final last left, carried = start :: newline :: rest ∧
      start.kind = .program ∧ newline.kind = .newline ∧
      Reaches d tables.routines ⟨[], [newline, start], rest⟩ ⟨[], final, last :: left⟩ ∧
        last.kind = .eof ∧ placed = (last :: final).reverse := by
  obtain ⟨start, newline, rest, rfl, hs, hn, -⟩ := hc.exists_input
  have first : step d tables.routines [] [start] newline rest = .ok ⟨[], [newline, start], rest⟩ := by
    simp [step, hn]
  simp only [place] at h
  rw [run] at h
  simp only [hn, reduceCtorEq, if_false] at h
  split at h
  · simp_all
  · rename_i p hp'
    cases first.symm.trans hp'
    obtain ⟨final, last, left, hr, hl⟩ := reaches_of_run h
    exact ⟨start, newline, rest, final, last, left, rfl, hs, hn, hr, hl⟩

/-- What holds at every point of the second stage: the output is sound, and the input is an end of
what the first stage left. -/
structure Kept (d : Dialect) (input : List Token) (p : Point) : Prop where
  out : Sound d p.out
  led : Led (Directive.atLineStart p.out) p.input
  lawful : ∀ u ∈ p.input, u.Lawful d
  input : p.input <:+ input

theorem step_kept {routines : Routines} {input : List Token} {p q : Point}
    (h : Step d routines p q) (hr : ∀ e ∈ routines, e.2.Plain d) (hp : Kept d input p) :
    Kept d input q := by
  cases h with
  | read he h =>
    obtain ⟨ho, hl, hu, hi⟩ := hp
    obtain ⟨ho', hl', hs⟩ := step_sound hr ho hl hu h
    exact ⟨ho', hl', fun u h => hu u (List.mem_cons_of_mem _ (hs.mem h)),
      hs.trans ((List.suffix_cons _ _).trans hi)⟩

theorem reaches_kept {routines : Routines} {input : List Token} {p q : Point}
    (h : Reaches d routines p q) (hr : ∀ e ∈ routines, e.2.Plain d) (hp : Kept d input p) :
    Kept d input q := by
  induction h with
  | refl => exact hp
  | tail _ hstep ih => exact step_kept hstep hr ih

theorem kept_first {start newline : Token} {rest : List Token}
    (hc : Sound d (start :: newline :: rest).reverse) :
    Kept d rest ⟨[], [newline, start], rest⟩ := by
  obtain ⟨_, _, _, heq, -, -, ho, hled, hl⟩ := hc.exists_input
  cases heq
  exact ⟨ho, hled, hl, List.suffix_refl _⟩

end Label

end ClassicBasic
