import ClassicBasic.Proofs.Compile
import ClassicBasic.Proofs.ShortNames

/-!
# How identifiers are renamed

The names of variables are handed on through the stages of a program and of all it includes. When
numbering starts, every variable of the merged program has been met, so a short name given on first
use differs from all that the program writes, except where it uses a short name that it declared to
stand for another.
-/

set_option autoImplicit false

namespace ClassicBasic

open Naming (Fair Grows Met Allots WrittenAs)

variable {d : Dialect} {quiet : Bool} {σ τ : Session}

theorem Conversion.declareLine_fair {t : Token} {rest : List Token}
    {r : { left : List Token // left.length ≤ rest.length }}
    (h : declareLine d quiet t rest σ = .ok r τ) (hf : Fair σ.naming) :
    Fair τ.naming ∧ Grows σ.naming τ.naming := by
  fun_induction declareLine d quiet t rest generalizing σ with
  | case1 => exact absurd h throw_ne_ok
  | case2 t rest entry after hr ih =>
    obtain ⟨u, ρ, ha, h⟩ := bind_eq_ok_iff.1 h
    obtain ⟨k, hk⟩ := outcome_enter ha
    obtain ⟨hfair, hgrows⟩ := Declaration.apply_fair hk (Declaration.read_valid hr) hf
    split at h
    · exact absurd h throw_ne_ok
    · rename_i u left _
      split at h
      · obtain ⟨f, ρ'', hline, h⟩ := bind_eq_ok_iff.1 h
        obtain ⟨-, rfl⟩ := pure_eq_ok_iff.1 h
        obtain ⟨hfair', hgrows'⟩ := ih u left rfl hline hfair
        exact ⟨hfair', hgrows.trans hgrows'⟩
      · split at h
        · obtain ⟨-, rfl⟩ := pure_eq_ok_iff.1 h
          exact ⟨hfair, hgrows⟩
        · exact absurd h throw_ne_ok

namespace Directive

theorem run_fair {tables : Tables} {out input : List Token} {r : Tables × List Token}
    (h : run d quiet tables out input σ = .ok r τ) (hf : Fair σ.naming) :
    Fair τ.naming ∧ Grows σ.naming τ.naming := by
  fun_induction run d quiet tables out input generalizing σ with
  | case1 => exact absurd h Conversion.throw_ne_ok
  | case2 =>
    obtain ⟨-, rfl⟩ := Conversion.pure_eq_ok_iff.1 h
    exact ⟨hf, .refl _⟩
  | case3 tables out t rest _ _ ih =>
    obtain ⟨left, ρ, hd, h⟩ := Conversion.bind_eq_ok_iff.1 h
    obtain ⟨hfair, hgrows⟩ := Conversion.declareLine_fair hd hf
    obtain ⟨hfair', hgrows'⟩ := ih left.1 left.2 h hfair
    exact ⟨hfair', hgrows.trans hgrows'⟩
  | case4 => exact absurd h Conversion.throw_ne_ok
  | case5 tables out t rest _ _ p hstep ih => exact ih h hf

theorem carryOut_fair {lexed : List Token} {r : Tables × List Token}
    (h : carryOut d quiet lexed σ = .ok r τ) (hf : Fair σ.naming) :
    Fair τ.naming ∧ Grows σ.naming τ.naming := by
  unfold carryOut at h
  split at h
  · exact run_fair h hf
  · exact absurd h Conversion.throw_ne_ok

end Directive

theorem Branch.front_fair {s : Setting} {b : Branch} {lexed placed : List Token}
    (h : front s b lexed σ = .ok placed τ) (hf : Fair σ.naming) :
    Fair τ.naming ∧ Grows σ.naming τ.naming := by
  obtain ⟨tables, carried, before, after, hd, -, hbefore, hafter⟩ := front_cases h
  rw [← hbefore] at hf ⊢
  rw [hafter]
  exact Directive.carryOut_fair hd hf

namespace Merge

/-- What is known about the variables of an output, in which no file ends. -/
structure Heard (n : Naming) (out : List Token) : Prop where
  met : ∀ t ∈ out, t.kind = .identifier → n.Met t
  endless : ∀ t ∈ out, t.kind ≠ .eof

variable {n m : Naming} {out l : List Token} {splice : Token → Token → Conversion (List Token)}
  {total : Nat}

theorem Heard.mono (h : Heard n out) (hg : Grows n m) : Heard m out :=
  ⟨fun t ht hk => (h.met t ht hk).mono hg, h.endless⟩

theorem Heard.append (hl : Heard n l) (ho : Heard n out) : Heard n (l ++ out) where
  met t ht := (List.mem_append.1 ht).elim (hl.met t) (ho.met t)
  endless t ht := (List.mem_append.1 ht).elim (hl.endless t) (ho.endless t)

theorem Heard.subset (h : Heard n out) (hl : ∀ t ∈ l, t ∈ out) : Heard n l :=
  ⟨fun t ht => h.met t (hl t ht), fun t ht => h.endless t (hl t ht)⟩

theorem heard_of_kinds (h : ∀ t ∈ l, t.kind ≠ .identifier ∧ t.kind ≠ .eof) : Heard n l :=
  ⟨fun t ht hk => absurd hk (h t ht).1, fun t ht => (h t ht).2⟩

theorem snippet_remark {pos : Position} :
    ∀ t ∈ Lexer.snippet d pos "'", t.kind ≠ .identifier ∧ t.kind ≠ .eof := by
  rw [Lexer.snippet_apostrophe]
  simp

theorem unwrap_heard (d : Dialect) (l : List Token) : Heard n (unwrap d l).1 := by
  apply heard_of_kinds
  induction l with
  | nil => simp [unwrap]
  | cons t rest ih =>
    simp only [unwrap]
    split
    · simp
    · split
      · simp
      · simp only [List.mem_append, List.mem_cons]
        rintro u (hu | rfl | rfl | hu)
        · exact snippet_remark u hu
        · simp [Token.withKind]
        · simp
        · exact ih u hu

theorem meetVariable_heard {t : Token} {met : List Token}
    (h : meetVariable quiet t out σ = .ok met τ) (hf : Fair σ.naming) (ho : Heard σ.naming out)
    (hk : t.kind = .identifier) (hb : '@' ∉ t.varName) :
    Fair τ.naming ∧ Grows σ.naming τ.naming ∧ Heard τ.naming (t :: met) := by
  have written {known : Naming} (hn : Fair known ∧ Grows σ.naming known ∧ known.Met t)
      (hs : ∀ u ∈ met, u ∈ out) :
      Fair known ∧ Grows σ.naming known ∧ Heard known (t :: met) := by
    obtain ⟨hfair, hgrows, hmet⟩ := hn
    refine ⟨hfair, hgrows, Heard.append (l := [t]) ?_ ((ho.subset hs).mono hgrows)⟩
    exact ⟨by simpa using fun _ => hmet, by simp [hk]⟩
  rcases meetVariable_cases h with ⟨last, rfl, -, ha⟩ | ⟨rfl, ha⟩
  · exact written (Naming.keepWritten_fair ha hf hb) fun u hu => List.mem_cons_of_mem _ hu
  · exact written (Naming.meet_fair ha hf) fun u hu => hu

/-- One step of the third stage meets the variables that it puts out. -/
theorem step_heard {p q : Point} (h : Step d quiet splice total p q)
    (hs : ∀ t name σ body τ, splice t name σ = .ok body τ → Fair σ.naming →
      Fair τ.naming ∧ Grows σ.naming τ.naming ∧ Heard τ.naming body)
    (hi : ∀ u ∈ p.input, u.Lawful d) (hf : Fair p.session.naming)
    (ho : Heard p.session.naming p.out) :
    Fair q.session.naming ∧ Grows p.session.naming q.session.naming ∧
      Heard q.session.naming q.out := by
  cases h with
  | included _ _ hb =>
    obtain ⟨hfair, hgrows, hbody⟩ := hs _ _ _ _ _ hb hf
    refine ⟨hfair, hgrows, Heard.append ?_ (ho.mono hgrows)⟩
    exact hbody.subset fun u hu => List.mem_reverse.1 hu
  | block =>
    refine ⟨hf, .refl _, Heard.append ?_ ho⟩
    exact (unwrap_heard d _).subset fun u hu => List.mem_reverse.1 hu
  | @named σ τ out met t rest hk hm =>
    exact meetVariable_heard hm hf ho hk (Token.varName_unqualified ((hi t (by simp)).isName hk))
  | @token σ out t rest he _ _ hv =>
    refine ⟨hf, .refl _, ?_⟩
    obtain ⟨gone, kept, new, heq, hadd, -, hnew⟩ := add_alters (placeOf total rest) t out
    dsimp only at ho ⊢
    rw [hadd]
    refine Heard.append (heard_of_kinds fun u hu => ?_) (ho.subset fun u hu => by simp [heq, hu])
    rcases hnew u hu with rfl | ⟨hk, -⟩
    · exact ⟨hv, he⟩
    · simp [hk]

theorem reaches_heard {p q : Point} (h : Reaches d quiet splice total p q)
    (hs : ∀ t name σ body τ, splice t name σ = .ok body τ → Fair σ.naming →
      Fair τ.naming ∧ Grows σ.naming τ.naming ∧ Heard τ.naming body)
    (hlaw : ∀ t name σ body τ, splice t name σ = .ok body τ → ∀ u ∈ body, u.Lawful d)
    (hset : Settled d p.out) (hi : ∀ u ∈ p.input, u.Lawful d) (hf : Fair p.session.naming)
    (ho : Heard p.session.naming p.out) :
    Fair q.session.naming ∧ Grows p.session.naming q.session.naming ∧
      Heard q.session.naming q.out := by
  induction h with
  | refl => exact ⟨hf, .refl _, ho⟩
  | tail hr hstep ih =>
    obtain ⟨hfair, hgrows, hheard⟩ := ih
    obtain ⟨hfair', hgrows', hheard'⟩ :=
      step_heard hstep hs (reaches_settled hr hlaw hset hi).2 hfair hheard
    exact ⟨hfair', hgrows.trans hgrows', hheard'⟩

open Entry in
theorem merge_heard {placed merged : List Token}
    (hs : ∀ t name σ body τ, splice t name σ = .ok body τ → Fair σ.naming →
      Fair τ.naming ∧ Grows σ.naming τ.naming ∧ Heard τ.naming body)
    (hlaw : ∀ t name σ body τ, splice t name σ = .ok body τ → ∀ u ∈ body, u.Lawful d)
    (hp : Sound d placed.reverse) (h : merge d quiet splice placed σ = .ok merged τ)
    (hf : Fair σ.naming) :
    Fair τ.naming ∧ Grows σ.naming τ.naming ∧
      ∃ front last, merged = front ++ [last] ∧ last.kind = .eof ∧ Heard τ.naming front := by
  obtain ⟨start, newline, rest, final, last, left, rfl, hk, hn, hr, hl, rfl⟩ :=
    reaches_of_merge hp h
  obtain ⟨_, _, _, heq, -, -, hsound, -, hrest⟩ := hp.exists_input
  cases heq
  have hset : Settled d [newline, start] := ⟨hsound.lawful, [], newline, start, rfl, .inl hn, hk⟩
  have hfirst : Heard σ.naming [newline, start] := heard_of_kinds (by simp [hk, hn])
  obtain ⟨hfair, hgrows, hheard⟩ := reaches_heard hr hs hlaw hset hrest hf hfirst
  refine ⟨hfair, hgrows, final.reverse, last, List.reverse_cons, hl, ?_⟩
  exact hheard.subset fun u hu => List.mem_reverse.1 hu

end Merge

namespace Branch

open Merge

/-- Every variable of a converted file has been met, whatever the file includes. -/
theorem convert_heard {s : Setting} {depth : Nat} {b : Branch} {listing : Listing}
    {lexed merged : List Token} (hx : Lexer.lex s.dialect listing = .ok lexed)
    (h : convert s depth b lexed σ = .ok merged τ) (hf : Fair σ.naming) :
    Fair τ.naming ∧ Grows σ.naming τ.naming ∧
      ∃ front last, merged = front ++ [last] ∧ last.kind = .eof ∧ Heard τ.naming front := by
  refine convert_induct (P := fun _ _ merged σ τ => Fair σ.naming →
    Fair τ.naming ∧ Grows σ.naming τ.naming ∧
      ∃ front last, merged = front ++ [last] ∧ last.kind = .eof ∧ Heard τ.naming front) ?_ hx h hf
  intro depth b listing lexed placed merged σ ready τ hx hfront hm hs hf
  obtain ⟨hfair, hgrows⟩ := front_fair hfront hf
  have hsplice : ∀ t name σ body τ, splice s b (inner s depth) t name σ = .ok body τ →
      Fair σ.naming → Fair τ.naming ∧ Grows σ.naming τ.naming ∧ Heard τ.naming body := by
    intro t name σ spliced τ hspliced hσ
    obtain ⟨path, lexed', merged', ready', hc, rfl, hready⟩ := hs _ _ _ _ _ hspliced
    rw [← hready] at hσ ⊢
    obtain ⟨hfair, hgrows, front, last, rfl, -, hheard⟩ := hc hσ
    refine ⟨hfair, hgrows, hheard.subset fun u hu => ?_⟩
    have hmem := mem_dropLast_of_mem_body hu
    rwa [List.dropLast_concat] at hmem
  obtain ⟨hfair', hgrows', hend⟩ := merge_heard hsplice (fun _ _ _ _ _ => splice_lawful)
    (front_sound hx hfront) hm hfair
  exact ⟨hfair', hgrows.trans hgrows', hend⟩

end Branch

/-- The variables of a program, in order. -/
def identifiers (tokens : List Token) : List Token :=
  tokens.filter fun t => t.kind == .identifier

theorem mem_identifiers {tokens : List Token} {t : Token} :
    t ∈ identifiers tokens ↔ t ∈ tokens ∧ t.kind = .identifier := by
  simp [identifiers]

theorem identifiers_append (l l' : List Token) :
    identifiers (l ++ l') = identifiers l ++ identifiers l' :=
  List.filter_append l l'

theorem identifiers_eq_nil {l : List Token} (h : ∀ t ∈ l, t.kind ≠ .identifier) :
    identifiers l = [] := by
  simpa [identifiers, List.filter_eq_nil_iff] using h

namespace Numbering

variable {scale : Scale} {s s' : State} {t next : Token}

/-- What a step puts out behind the output when it reads no variable. -/
theorem step_unnamed (h : step scale s t next = .ok s') (hk : t.kind ≠ .identifier) :
    ∃ emitted : List Pending, s'.out = emitted.reverse ++ s.out ∧
      ∀ p ∈ emitted, p.token.kind ≠ .identifier := by
  obtain ⟨emitted, hout, ⟨-, rfl⟩ | ⟨hn, number, hl, rfl⟩ | ⟨p, rfl, hp⟩⟩ := step_emits h
  · exact ⟨[], hout, by simp⟩
  · exact ⟨_, hout, by simp [hn, hl]⟩
  · have hkind : p.token.kind = t.kind := by
      rcases hp with rfl | ⟨heq, -⟩
      · rfl
      · exact heq
    exact ⟨[p], hout, by simpa [hkind] using hk⟩

/-- The variables of what was put out, which nothing is left to be done for. -/
structure Renders (m : Naming) (input : List Token) (emitted : List Pending) : Prop where
  written : List.Forall₂ m.WrittenAs (identifiers input) (identifiers (emitted.map Pending.token))
  settled : ∀ p ∈ emitted, p.token.kind = .identifier → p.target = none

theorem walk_written {input : List Token} {last : State}
    (h : walk d scale s input σ = .ok last τ) (hf : Fair σ.naming)
    (hend : ∀ t ∈ input.dropLast, t.kind ≠ .eof) :
    Fair τ.naming ∧ Allots σ.naming τ.naming ∧
      ∃ emitted, last.out = emitted.reverse ++ s.out ∧ Renders τ.naming input emitted := by
  induction input generalizing s σ with
  | nil => exact absurd h Conversion.throw_ne_ok
  | cons t rest ih =>
    have hrest : ∀ u ∈ rest.dropLast, u.kind ≠ .eof := by
      intro u hu
      cases rest with
      | nil => cases hu
      | cons v rest => exact hend u (List.mem_cons_of_mem _ hu)
    rcases walk_cases h with ⟨he, rfl, rfl⟩ | ⟨hk, u, known, hn, hw⟩ | ⟨-, hk, s', hst, hw⟩
    · obtain rfl : rest = [] := by
        cases rest with
        | nil => rfl
        | cons v rest => exact absurd he (hend t (by simp))
      refine ⟨hf, .refl _, [⟨t, none⟩], rfl, ?_, by simp⟩
      simp [identifiers, he]
    · obtain ⟨hfair, hallots, hwritten⟩ := Naming.shorten_allots hn hf
      obtain ⟨hfair', hallots', emitted, hout, hren⟩ := ih hw hfair hrest
      refine ⟨hfair', hallots.trans hallots', ⟨u, none⟩ :: emitted, ?_, ?_, ?_⟩
      · simp [hout, State.emit]
      · have huk : u.kind = .identifier := (shorten_kind hn).trans hk
        simp only [identifiers, List.map_cons, List.filter_cons, hk, huk, beq_self_eq_true, if_true]
        exact .cons (hwritten.mono hallots') hren.written
      · simpa using hren.settled
    · obtain ⟨sent, hsent, hunnamed⟩ := step_unnamed hst hk
      obtain ⟨hfair', hallots', emitted, hout, hren⟩ := ih hw hf hrest
      refine ⟨hfair', hallots', sent ++ emitted, by simp [hout, hsent], ?_, ?_⟩
      · have hnone : identifiers (sent.map Pending.token) = [] := by
          apply identifiers_eq_nil
          intro u hu
          obtain ⟨p, hp, rfl⟩ := List.mem_map.1 hu
          exact hunnamed p hp
        have hcons : identifiers (t :: rest) = identifiers rest := by simp [identifiers, hk]
        rw [hcons, List.map_append, identifiers_append, hnone]
        exact hren.written
      · intro p hp hpk
        rcases List.mem_append.1 hp with hp | hp
        · exact absurd hpk (hunnamed p hp)
        · exact hren.settled p hp hpk

theorem identifiers_resolved {pending : List Pending} {tokens : List Token}
    (h : List.Forall₂ (Resolved s) pending tokens)
    (hs : ∀ p ∈ pending, p.token.kind = .identifier → p.target = none) :
    identifiers tokens = identifiers (pending.map Pending.token) := by
  induction h with
  | nil => rfl
  | @cons p t pending tokens hp _ ih =>
    rw [List.forall_mem_cons] at hs
    have htail := ih hs.2
    by_cases hk : p.token.kind = .identifier
    · obtain rfl : t = p.token := by
        rcases hp with ⟨-, rfl⟩ | ⟨target, htarget, -⟩
        · rfl
        · rw [hs.1 hk] at htarget
          cases htarget
      simpa [identifiers, hk] using htail
    · have hkt : t.kind ≠ .identifier := by rwa [hp.kind]
      simpa [identifiers, hk, hkt] using htail

theorem number_written {start : Token} {rest : List Token} {numbered : Numbered}
    (h : number d scale (start :: rest) σ = .ok numbered τ) (hf : Fair σ.naming)
    (hs : start.kind = .program) (hend : ∀ t ∈ rest.dropLast, t.kind ≠ .eof) :
    Fair τ.naming ∧ Allots σ.naming τ.naming ∧
      List.Forall₂ τ.naming.WrittenAs (identifiers (start :: rest)) (identifiers numbered.tokens) := by
  obtain ⟨last, hw, hr, -⟩ := number_cases h
  obtain ⟨hfair, hallots, emitted, hout, hren⟩ := walk_written hw hf hend
  refine ⟨hfair, hallots, ?_⟩
  have hrev : last.out.reverse = ⟨start, none⟩ :: emitted := by simp [hout, opening]
  have hres := forall₂_resolve hr
  rw [hrev] at hres
  rw [identifiers_resolved hres (List.forall_mem_cons.2 ⟨fun _ => rfl, hren.settled⟩)]
  simpa [identifiers, hs] using hren.written

end Numbering

namespace Naming

/-- Whether variables are renamed consistently and apart. The pairs are the variables of a program
with what they are written as; `before` are the names known when short ones are first given on use,
and `final` those at the end. -/
structure Consistent (before final : Naming) (pairs : List (Token × Token)) : Prop where
  given : ∀ t u, (t, u) ∈ pairs → ∀ short, final.shortOf? t = some short →
    u = t.withValue (short ++ t.sigil)
  apart : ∀ t u t' u', (t, u) ∈ pairs → (t', u') ∈ pairs → t.qualified ≠ t'.qualified →
    before.shortOf? t = none → (final.shortOf? t).isSome →
    significant u.varName ≠ significant u'.varName

/-- Whether every short name that a program uses and declared is declared to stand for itself. -/
def Honest (final : Naming) (tokens : List Token) : Prop :=
  ∀ t ∈ tokens, t.kind = .identifier → t.varName.length ≤ Dialect.nameLength →
    ∀ short, final.shortOf? t = some short → t.value = short ++ t.sigil

variable {before final : Naming} {merged : List Token}

theorem mem_declared {t : Token} {short : Text} (h : final.shortOf? t = some short) :
    (t.qualified, short) ∈ final.declared := by
  obtain ⟨l₁, l₂, heq, -⟩ := List.lookup_eq_some_iff.1 h
  simp [heq]

theorem Fair.injective {t t' : Token} {short : Text} (h : Fair final)
    (ht : final.shortOf? t = some short) (ht' : final.shortOf? t' = some short) :
    t.qualified = t'.qualified := by
  have := List.inj_on_of_nodup_map h.distinct (mem_declared ht) (mem_declared ht') rfl
  exact (Prod.mk.inj this).1

theorem Fair.isShort {t : Token} {short : Text} (h : Fair final)
    (ht : final.shortOf? t = some short) : IsShort short :=
  h.short _ (mem_declared ht)

/-- A variable that is written as it is has no short name, unless its own name is short. -/
theorem Fair.shortOf?_kept {t : Token} (h : Fair final) (hk : final.isKept t) :
    final.shortOf? t = none := by
  obtain ⟨k, hmem, heq⟩ := isKept_iff.1 hk
  rw [← shortOf?_congr heq]
  exact h.apart k hmem

theorem given_of_honest {t u : Token} {short : Text} (hf : Fair final)
    (hh : Honest final merged) (ht : t ∈ merged) (hk : t.kind = .identifier)
    (hw : final.WrittenAs t u) (hs : final.shortOf? t = some short) :
    u = t.withValue (short ++ t.sigil) := by
  rcases hw with ⟨rfl, hl | hkept⟩ | ⟨-, short', hs', rfl⟩
  · rw [← hh u ht hk hl short hs]
    rfl
  · rw [hf.shortOf?_kept hkept] at hs
    cases hs
  · rw [hs, Option.some.injEq] at hs'
    rw [hs']

/-- The name that another variable is written under is none that was given on first use. -/
theorem apart_of_fresh {t t' u' : Token} {short : Text} (hf : Fair final)
    (ha : Allots before final) (hmet : before.Met t') (hb : '@' ∉ t'.varName)
    (hne : t.qualified ≠ t'.qualified) (hnew : before.shortOf? t = none)
    (hs : final.shortOf? t = some short) (hw : final.WrittenAs t' u')
    (hg : ∀ short', final.shortOf? t' = some short' → u' = t'.withValue (short' ++ t'.sigil)) :
    short ≠ significant u'.varName := by
  obtain ⟨hwritten, hkept⟩ : short ∉ before.written ∧
      ∀ k ∈ before.kept, significant k.varName ≠ short := by
    rcases ha.fresh _ (mem_declared hs) with hold | hfresh
    · have := List.lookup_eq_none_iff.1 hnew _ hold
      simp at this
    · exact hfresh
  cases hs' : final.shortOf? t' with
  | some short' =>
    have hshort' := hf.isShort hs'
    rw [hg short' hs', hshort'.varName, significant_eq hshort'.1]
    rintro rfl
    exact hne (hf.injective hs hs')
  | none =>
    rcases hw with ⟨rfl, hl | hk⟩ | ⟨-, short', hsome, -⟩
    · rw [significant_eq hl]
      rcases hmet hl with hmem | hsome
      · rintro rfl
        exact hwritten hmem
      · obtain ⟨short', hsome⟩ := Option.isSome_iff_exists.1 hsome
        rw [ha.given _ _ hsome] at hs'
        cases hs'
    · obtain ⟨k, hmem, heq⟩ := isKept_iff.1 hk
      rw [← unqualified_qualified hb, ← heq, unqualified_qualified (hf.bound k hmem)]
      rw [ha.kept] at hmem
      exact (hkept k hmem).symm
    · rw [hsome] at hs'
      cases hs'

/-- Renaming is consistent and apart exactly when short names are honest. -/
theorem consistent_iff_honest {written : List Token} (hf : Fair final) (ha : Allots before final)
    (hmet : ∀ t ∈ identifiers merged, before.Met t ∧ '@' ∉ t.varName)
    (hw : List.Forall₂ final.WrittenAs (identifiers merged) written) :
    Consistent before final ((identifiers merged).zip written) ↔ Honest final merged := by
  constructor
  · intro hc t ht hk hl short hs
    obtain ⟨i, hi, heq⟩ := List.getElem_of_mem (mem_identifiers.2 ⟨ht, hk⟩)
    have hi' : i < written.length := by rwa [← hw.length_eq]
    have hmem : (t, written[i]) ∈ (identifiers merged).zip written := by
      rw [List.mem_iff_getElem]
      exact ⟨i, by simp [hi, hi'], by simp [heq]⟩
    have hwi : final.WrittenAs t written[i] := by
      have := hw.get hi hi'
      simpa [heq] using this
    have hgiven := hc.given t written[i] hmem short hs
    rcases hwi with ⟨hsame, -⟩ | ⟨hlong, -⟩
    · rw [hsame] at hgiven
      exact congrArg Token.value hgiven
    · omega
  · intro hh
    -- every pair is a variable of the program with what it is written as
    have hpair {t u : Token} (hmem : (t, u) ∈ (identifiers merged).zip written) :
        t ∈ identifiers merged ∧ final.WrittenAs t u :=
      ⟨(List.of_mem_zip hmem).1, List.forall₂_zip hw hmem⟩
    have hgiven {t u : Token} (hmem : (t, u) ∈ (identifiers merged).zip written) {short : Text}
        (hs : final.shortOf? t = some short) : u = t.withValue (short ++ t.sigil) := by
      obtain ⟨ht, hwt⟩ := hpair hmem
      obtain ⟨ht, hk⟩ := mem_identifiers.1 ht
      exact given_of_honest hf hh ht hk hwt hs
    refine ⟨fun t u hmem short hs => hgiven hmem hs, ?_⟩
    intro t u t' u' hmem hmem' hne hnew hsome
    obtain ⟨short, hs⟩ := Option.isSome_iff_exists.1 hsome
    have hshort := hf.isShort hs
    rw [hgiven hmem hs, hshort.varName, significant_eq hshort.1]
    obtain ⟨ht', hwt'⟩ := hpair hmem'
    exact apart_of_fresh hf ha (hmet t' ht').1 (hmet t' ht').2 hne hnew hs hwt'
      fun short' hs' => hgiven hmem' hs'

end Naming

namespace Compile

variable {s : Setting} {o : Options} {listing : Listing} {c : Compiled}

theorem identifiers_whole (o : Options) (start second : Token) (rest : List Token) :
    identifiers (whole o (start :: second :: rest)) = identifiers (start :: second :: rest) := by
  obtain ⟨lead, hwhole, hkinds, -⟩ := whole_cons o start second rest
  have hlead : identifiers lead = [] := by
    apply identifiers_eq_nil
    intro t ht
    rcases hkinds t ht with hk | hk | hk <;> simp [hk]
  rw [hwhole]
  change identifiers ([start, second] ++ (lead ++ rest)) = identifiers ([start, second] ++ rest)
  rw [identifiers_append, identifiers_append, identifiers_append, hlead, List.nil_append]

/-- The variables of the merged program of a compilation from no names, and what numbering makes of
them. -/
theorem Passes.written {merged : List Token} {numbered : Numbering.Numbered}
    {before after : Session} (hp : Passes s o listing σ c τ merged numbered before after)
    (hσ : σ.naming = {}) :
    Fair τ.naming ∧ Allots after.naming τ.naming ∧
      (∀ t ∈ identifiers merged, after.naming.Met t ∧ '@' ∉ t.varName) ∧
      List.Forall₂ τ.naming.WrittenAs (identifiers merged) (identifiers numbered.tokens) := by
  have hempty : Fair before.naming := by
    rw [hp.started, hσ]
    exact Naming.fair_empty
  obtain ⟨hfair, -, known, last, rfl, heof, hheard⟩ :=
    Branch.convert_heard hp.lexed hp.converted hempty
  have hset := Branch.convert_settled hp.lexed hp.converted
  obtain ⟨start, second, body, rfl, hstart⟩ : ∃ start second body,
      known = start :: second :: body ∧ start.kind = .program := by
    obtain ⟨start, second, rest, heq, hstart, hkind⟩ := hset.seated.exists_cons
    match known with
    | [] => cases heq
    | [u] =>
      cases heq
      rcases hkind with hk | hk <;> simp [hk] at heof
    | u :: v :: body =>
      cases heq
      exact ⟨start, second, body, rfl, hstart⟩
  obtain ⟨ready, final, hready, hfinal, hnum⟩ := hp.numbering
  obtain ⟨lead, hwhole, hkinds, -⟩ := whole_cons o start second (body ++ [last])
  have hend : ∀ t ∈ (second :: (lead ++ (body ++ [last]))).dropLast, t.kind ≠ .eof := by
    have heq : (second :: (lead ++ (body ++ [last]))).dropLast = second :: (lead ++ body) := by
      rw [← List.append_assoc, ← List.cons_append, List.dropLast_concat]
    rw [heq]
    intro t ht
    simp only [List.mem_cons, List.mem_append] at ht
    rcases ht with rfl | ht | ht
    · exact hheard.endless t (by simp)
    · rcases hkinds t ht with hk | hk | hk <;> simp [hk]
    · exact hheard.endless t (by simp [ht])
  rw [List.cons_append, List.cons_append, hwhole] at hnum
  obtain ⟨hfair', hallots, hwritten⟩ := Numbering.number_written hnum (hready ▸ hfair) hstart hend
  rw [hfinal, ← hready]
  refine ⟨hfair', hallots, fun t ht => ?_, ?_⟩
  · obtain ⟨ht, hk⟩ := mem_identifiers.1 ht
    refine ⟨?_, Token.varName_unqualified ((hset.lawful t (List.mem_reverse.2 ht)).isName hk)⟩
    rcases List.mem_append.1 ht with ht | ht
    · exact hready ▸ hheard.met t ht hk
    · rw [List.mem_singleton.1 ht, heof] at hk
      cases hk
  · rwa [← hwhole, identifiers_whole] at hwritten

/-- Variables are renamed consistently and apart exactly when every short name that the program uses
and declared stands for itself. -/
theorem consistent_iff (h : ofListing s o listing σ = .ok c τ) (hσ : σ.naming = {}) :
    ∃ merged numbered before after, Passes s o listing σ c τ merged numbered before after ∧
      (identifiers numbered.tokens).length = (identifiers merged).length ∧
      (Naming.Consistent after.naming τ.naming
        ((identifiers merged).zip (identifiers numbered.tokens)) ↔
        Naming.Honest τ.naming merged) := by
  obtain ⟨merged, numbered, before, after, hp⟩ := exists_passes h
  obtain ⟨hfair, hallots, hmet, hwritten⟩ := hp.written hσ
  exact ⟨merged, numbered, before, after, hp, hwritten.length_eq.symm,
    Naming.consistent_iff_honest hfair hallots hmet hwritten⟩

/-- The short names that a compilation from a fresh session leaves. -/
def given? (s : Setting) (o : Options) (listing : Listing) : Option (List (Text × Text)) :=
  match ofListing s o listing {} with
  | .ok _ τ => some τ.naming.declared
  | .error _ _ => none

theorem exists_of_given? {given : List (Text × Text)} (h : given? s o listing = some given) :
    ∃ c τ, ofListing s o listing {} = .ok c τ ∧ τ.naming.declared = given := by
  unfold given? at h
  split at h
  · cases h
    exact ⟨_, _, ‹_›, rfl⟩
  · cases h

/-- A name of a file is not short if the sign behind it comes late. -/
theorem not_short_of_qualified {t : Token} {key : Text} (h : t.qualified = key)
    (hlate : '@' ∉ key.take (Dialect.nameLength + 1)) : Dialect.nameLength < t.varName.length := by
  by_contra hl
  refine hlate ?_
  rw [List.mem_iff_getElem?]
  refine ⟨t.varName.length, ?_⟩
  rw [List.getElem?_take_of_lt (by omega), ← h]
  simp [Token.qualified]

theorem declared_and_used_consistent :
    ∃ c τ merged numbered before after,
      ofListing (lone .msx) { header := false }
        (Listing.ofText "declare total:tt\nscore=1\ntotal=2\nab=3" "/main" 4) {} = .ok c τ ∧
      Passes (lone .msx) { header := false }
        (Listing.ofText "declare total:tt\nscore=1\ntotal=2\nab=3" "/main" 4) {} c τ merged numbered
        before after ∧
      Naming.Consistent after.naming τ.naming
        ((identifiers merged).zip (identifiers numbered.tokens)) := by
  have hrun : given? (lone .msx) { header := false }
      (Listing.ofText "declare total:tt\nscore=1\ntotal=2\nab=3" "/main" 4) =
      some [("total@/main".toList, "tt".toList), ("score@/main".toList, "zz".toList)] := by
    decide +kernel
  obtain ⟨c, τ, hτ, hgiven⟩ := exists_of_given? hrun
  obtain ⟨merged, numbered, before, after, hp, -, hiff⟩ := consistent_iff hτ rfl
  refine ⟨c, τ, merged, numbered, before, after, hτ, hp, hiff.2 ?_⟩
  intro t _ _ hl short hs
  have hmem := Naming.mem_declared hs
  rw [hgiven] at hmem
  simp only [List.mem_cons, Prod.mk.injEq, List.not_mem_nil, or_false] at hmem
  rcases hmem with ⟨hkey, -⟩ | ⟨hkey, -⟩
  · exact absurd hl (Nat.not_le.2 (not_short_of_qualified hkey (by decide)))
  · exact absurd hl (Nat.not_le.2 (not_short_of_qualified hkey (by decide)))

/-- The stages of a compilation of a program that includes no file, up to its numbering. -/
def numbered? (d : Dialect) (listing : Listing) :
    Option (List Token × Naming × Numbering.Numbered × Naming) :=
  match Lexer.lex d listing with
  | .ok lexed =>
    match Branch.convert (lone d) 0 (Branch.main (lone d)) lexed {} with
    | .ok merged after =>
      match Numbering.number d {} merged after with
      | .ok numbered final => some (merged, after.naming, numbered, final.naming)
      | .error _ _ => none
    | .error _ _ => none
  | .error _ => none

theorem exists_of_numbered? {d : Dialect} {merged : List Token} {numbered : Numbering.Numbered}
    {known given : Naming} (h : numbered? d listing = some (merged, known, numbered, given)) :
    ∃ lexed after final, Lexer.lex d listing = .ok lexed ∧
      Branch.convert (lone d) 0 (Branch.main (lone d)) lexed {} = .ok merged after ∧
      Numbering.number d {} merged after = .ok numbered final ∧ after.naming = known ∧
      final.naming = given := by
  unfold numbered? at h
  split at h
  · split at h
    · split at h
      · cases h
        exact ⟨_, _, _, ‹_›, ‹_›, ‹_›, rfl, rfl⟩
      · cases h
    · cases h
  · cases h

/-- A short name that is declared to stand for another is written as it is, and it is given to another
variable as well. -/
theorem declared_short_not_consistent :
    (∃ lexed merged after numbered final,
      Lexer.lex .msx (Listing.ofText "declare zz:ab\nzz=1\nscore=2" "/main" 4) = .ok lexed ∧
      Branch.convert (lone .msx) 0 (Branch.main (lone .msx)) lexed {} = .ok merged after ∧
      Numbering.number .msx {} merged after = .ok numbered final ∧
      ¬Naming.Consistent after.naming final.naming
        ((identifiers merged).zip (identifiers numbered.tokens))) ∧
      (outcome (lone .msx) { header := false }
        (Listing.ofText "declare zz:ab\nzz=1\nscore=2" "/main" 4)).map Compiled.code =
        some ["10 zz=1".toList, "20 zz=2".toList] := by
  -- the two runs share the reading of the listing
  obtain ⟨hrun, hcode⟩ :
      (numbered? .msx (Listing.ofText "declare zz:ab\nzz=1\nscore=2" "/main" 4)).map
        (fun r => [((identifiers r.1).zip (identifiers r.2.2.1.tokens)).map fun p =>
          (p.1.qualified, p.2.value), r.2.1.declared, r.2.2.2.declared]) =
        some [[("zz@/main".toList, "zz".toList), ("score@/main".toList, "zz".toList)],
          [("zz@/main".toList, "ab".toList)],
          [("zz@/main".toList, "ab".toList), ("score@/main".toList, "zz".toList)]] ∧
      (outcome (lone .msx) { header := false }
        (Listing.ofText "declare zz:ab\nzz=1\nscore=2" "/main" 4)).map Compiled.code =
        some ["10 zz=1".toList, "20 zz=2".toList] := by
    decide +kernel
  refine ⟨?_, hcode⟩
  · obtain ⟨⟨merged, known, numbered, given⟩, hr, he⟩ := Option.map_eq_some_iff.1 hrun
    obtain ⟨lexed, after, final, hx, hc, hn, rfl, rfl⟩ := exists_of_numbered? hr
    refine ⟨lexed, merged, after, numbered, final, hx, hc, hn, fun hcon => ?_⟩
    simp only [List.cons.injEq, and_true] at he
    obtain ⟨hpairs, hbefore, hfinal⟩ := he
    have hpair (key v : Text) (hk : (key, v) ∈ [("zz@/main".toList, "zz".toList),
        ("score@/main".toList, "zz".toList)]) :
        ∃ t u, (t, u) ∈ (identifiers merged).zip (identifiers numbered.tokens) ∧
          t.qualified = key ∧ u.value = v := by
      rw [← hpairs] at hk
      obtain ⟨⟨t, u⟩, hmem, heq⟩ := List.mem_map.1 hk
      cases heq
      exact ⟨t, u, hmem, rfl, rfl⟩
    obtain ⟨t, u, hmem, ht, hu⟩ := hpair "score@/main" "zz" (by simp)
    obtain ⟨t', u', hmem', ht', hu'⟩ := hpair "zz@/main" "zz" (by simp)
    refine hcon.apart t u t' u' hmem hmem' ?_ ?_ ?_ ?_
    · rw [ht, ht']
      decide
    · rw [Naming.shortOf?, ht, hbefore]
      decide
    · rw [Naming.shortOf?, ht, hfinal]
      decide
    · simp only [Token.varName, Token.bareName, hu, hu']

end Compile

end ClassicBasic
