import ClassicBasic.Proofs.Finish
import ClassicBasic.Proofs.Stages
import ClassicBasic.Proofs.Visit
import Mathlib.Data.List.Infix

/-!
# When expansion is complete

Each stage expands what it walks over: the first one the invocations of defines, the second one calls
of functions and the brackets of labels. What is captured on the way as a run of tokens, the body of a
parametric define, the default of a parameter, a result, an argument, is put out as it was captured.
So nothing is left unexpanded where no such run holds an invocation, a call or a label.
-/

set_option autoImplicit false

namespace ClassicBasic

/-- Whether a token is neither the name of a function nor the bracket that opens an invocation or a
label. -/
def Token.Expanded (t : Token) : Prop :=
  t.kind ≠ .functionName ∧ (t.kind = .mark → t.value ≠ "[" ∧ t.value ≠ Label.opening)

instance (t : Token) : Decidable t.Expanded := inferInstanceAs (Decidable (_ ∧ _))

/-- Whether nothing among the tokens is left to be expanded. -/
def Complete (tokens : List Token) : Prop := ∀ t ∈ tokens, t.Expanded

instance (tokens : List Token) : Decidable (Complete tokens) :=
  inferInstanceAs (Decidable (∀ t ∈ tokens, t.Expanded))

variable {d : Dialect} {l l' out : List Token} {t : Token}

theorem Token.expanded_of_kind (hf : t.kind ≠ .functionName) (hm : t.kind ≠ .mark) : t.Expanded :=
  ⟨hf, fun h => absurd h hm⟩

theorem Token.Expanded.not_opens (h : t.Expanded) : ¬Define.Opens t :=
  fun ho => (h.2 ho.1).1 ho.2

theorem complete_nil : Complete [] := by
  intro t ht
  cases ht

theorem Complete.append (h : Complete l) (h' : Complete l') : Complete (l ++ l') := by
  intro t ht
  rcases List.mem_append.1 ht with ht | ht
  · exact h t ht
  · exact h' t ht

theorem Complete.cons (ht : t.Expanded) (h : Complete l) : Complete (t :: l) :=
  List.forall_mem_cons.2 ⟨ht, h⟩

theorem Complete.subset (h : Complete l) (hs : ∀ t ∈ l', t ∈ l) : Complete l' :=
  fun t ht => h t (hs t ht)

theorem Complete.reverse (h : Complete l) : Complete l.reverse :=
  h.subset fun _ ht => List.mem_reverse.1 ht

def isExpandable (c : Char) : Bool := c == '.' || c == '[' || c == '\x7b'

theorem Lexer.snippet_complete {pos : Position} {code : Text}
    (hc : code.any isExpandable = false) : Complete (snippet d pos code) := by
  intro t ht
  have hl : t.Lexed d := snippet_lexed pos code t ht
  unfold snippet at ht
  split at ht
  · rename_i tokens hs
    obtain ⟨-, hv⟩ := snippet?_spec hs t ht
    have hnone {c : Char} (hmem : c ∈ t.value) : isExpandable c = false := by
      simpa using List.any_eq_false.1 hc c (hv c hmem)
    refine ⟨fun hk => ?_, fun _ => ⟨fun heq => ?_, fun heq => ?_⟩⟩
    · obtain ⟨name, hname⟩ := Dialect.accepts_functionName (hk ▸ hl.classified (hk ▸ rfl))
      exact absurd (hnone (hname ▸ List.mem_cons_self)) (by decide)
    · exact absurd (hnone (c := '[') (by simp [heq])) (by decide)
    · exact absurd (hnone (c := '\x7b') (by simp [heq, Label.opening])) (by decide)
  · cases ht

namespace Define

/-- Whether no token of a define or of its default opens an invocation. -/
theorem holds_of_not_opens {m : Define} (hb : ∀ t ∈ m.body, ¬Opens t)
    (hf : ∀ t ∈ m.fallback, ¬Opens t) : m.Holds fun t => ¬Opens t :=
  ⟨fun t ht _ _ _ => hb t ht, hf⟩

theorem readFallback_not_opens {r : List Token × List Token} (h : readFallback l = .ok r) :
    ∀ t ∈ r.1, ¬Opens t := by
  induction l generalizing r with
  | nil => cases h
  | cons t rest ih =>
    simp only [readFallback] at h
    split at h
    · cases h
    · split at h
      · cases h
      · rename_i hv
        split at h
        · cases h
          simp
        · obtain ⟨s, hs, rfl⟩ := Outcome.map_eq_ok_iff.1 h
          exact List.forall_mem_cons.2 ⟨fun ho => hv ho.2, ih hs⟩

theorem readBody_not_opens {r : List Token × Option (List Token) × List Token}
    (h : readBody l = .ok r) : ∀ t ∈ r.2.1.getD [], ¬Opens t := by
  fun_induction readBody l generalizing r with
  | case1 => cases h
  | case2 => cases h
  | case3 => simp_all
  | case4 t rest _ _ inner after hf ih =>
    obtain ⟨s, hs, rfl⟩ := Outcome.map_eq_ok_iff.1 h
    exact readFallback_not_opens hf
  | case5 =>
    cases h
    simp
  | case6 t rest _ _ _ ih =>
    obtain ⟨s, hs, rfl⟩ := Outcome.map_eq_ok_iff.1 h
    have hinner := ih hs
    exact hinner

/-- What holds of every default as it is read holds of the defaults in the table. -/
theorem readLine_fallback {P : Token → Prop} {table : Defines} {rest : List Token}
    {r : Defines × List Token} (h : readLine table t rest = .ok r)
    (hread : ∀ l r, l <:+ rest → readBody l = .ok r → ∀ t ∈ r.2.1.getD [], P t)
    (ht : ∀ m ∈ table, ∀ t ∈ m.fallback, P t) : ∀ m ∈ r.1, ∀ t ∈ m.fallback, P t := by
  have grow {table : Defines} {m : Define} (hm : ∀ t ∈ m.fallback, P t)
      (htable : ∀ m ∈ table, ∀ t ∈ m.fallback, P t) :
      ∀ m' ∈ table ++ [m], ∀ t ∈ m'.fallback, P t := by
    intro m' hm'
    rcases List.mem_append.1 hm' with hm' | hm'
    · exact htable m' hm'
    · rwa [List.mem_singleton.1 hm']
  fun_induction readLine table t rest generalizing r with
  | case1 => cases h
  | case2 table t rest name next after hn =>
    obtain ⟨s, hs, rfl⟩ := Outcome.map_eq_ok_iff.1 h
    refine grow ?_ ht
    unfold readParametric at hs
    dsimp only at hs
    split at hs
    · cases hs
    · split at hs
      · cases hs
      · split at hs
        · cases hs
        · cases hs
          simp
  | case3 => cases h
  | case4 => cases h
  | case5 => cases h
  | case6 table t rest name next after hn _ _ body fallback u left hb =>
    rename_i ih
    have hafter : after <:+ rest := readName_suffix hn
    have hleft : left <:+ rest :=
      (List.suffix_cons u left).trans ((readBody_suffix hb).trans hafter)
    exact ih h (fun l r hl => hread l r (hl.trans hleft)) (grow (hread _ _ hafter hb) ht)
  | case7 table t rest name next after hn _ _ body fallback u left hb =>
    cases h
    exact grow (hread _ _ (readName_suffix hn) hb) ht
  | case8 => cases h

end Define

namespace Directive

open Define (Opens)

variable {quiet : Bool} {tables : Tables} {rest : List Token}

theorem step_fallback {p q : Point} (h : Step d quiet p q)
    (hp : ∀ m ∈ p.tables.defines, ∀ t ∈ m.fallback, ¬Opens t) :
    ∀ m ∈ q.tables.defines, ∀ t ∈ m.fallback, ¬Opens t := by
  cases h with
  | declared => exact hp
  | read he h =>
    cases step_cases h with
    | defined _ hr =>
      exact Define.readLine_fallback hr (fun _ _ _ hb => Define.readBody_not_opens hb) hp
    | _ => exact hp

theorem asCall_not_opens (h : ¬Opens t) : ¬Opens (asCall d out t rest) := by
  unfold asCall
  split
  · exact h
  · split
    · exact fun ho => absurd ho.1 (by simp [Token.withKind])
    · split
      · exact fun ho => absurd ho.1 (by simp [Token.withKind])
      · exact h

/-- The first stage expands every invocation that it meets outside of definitions. -/
theorem step_not_opens {p : Progress} (h : step d tables out t rest = .ok p)
    (hm : ∀ m ∈ tables.defines, m.Holds fun u => ¬Opens u) (ho : ∀ u ∈ out, ¬Opens u) :
    ∀ u ∈ p.out, ¬Opens u := by
  cases step_cases h with
  | untagged => exact ho
  | skipped => exact ho
  | left hk => exact List.forall_mem_cons.2 ⟨fun h => absurd (hk.symm.trans h.1) (by decide), ho⟩
  | gone => exact ho
  | defined => exact ho
  | tagged => exact ho
  | opened => exact List.forall_mem_cons.2 ⟨fun h => absurd h.1 (by simp), ho⟩
  | closed =>
    intro u hu
    rcases List.mem_append.1 hu with hu | hu
    · exact (Lexer.snippet_complete (by decide) u (List.mem_reverse.1 hu)).not_opens
    · exact ho u hu
  | expanded _ he =>
    have hexpands := Define.expands_of_holds hm rest fun _ _ _ hn _ => hn
    intro u hu
    rcases List.mem_append.1 hu with hu | hu
    · exact (hexpands.expand t _ he).1 u (List.mem_reverse.1 hu)
    · exact ho u hu
  | passed hn => exact List.forall_mem_cons.2 ⟨asCall_not_opens hn, ho⟩

theorem reaches_not_opens {p q : Point} (h : Reaches d quiet p q)
    (hq : ∀ m ∈ q.tables.defines, ∀ u ∈ m.body, ¬Opens u)
    (hp : ∀ m ∈ p.tables.defines, ∀ u ∈ m.fallback, ¬Opens u) (ho : ∀ u ∈ p.out, ¬Opens u) :
    ∀ u ∈ q.out, ¬Opens u := by
  induction h using Relation.ReflTransGen.head_induction_on with
  | refl => exact ho
  | @head p r hstep hrest ih =>
    refine ih (step_fallback hstep hp) ?_
    -- what is known at a point is known at the end
    have hsub := reaches_defines (.head hstep hrest)
    cases hstep with
    | declared => exact ho
    | read he h =>
      exact step_not_opens h
        (fun m hm => Define.holds_of_not_opens (hq m (hsub m hm)) (hp m hm)) ho

/-- Behind the first stage no invocation is left when none is in the body of a define. -/
theorem carryOut_not_opens {listing : Listing} {lexed : List Token} {r : Tables × List Token}
    {σ τ : Session} (hx : Lexer.lex d listing = .ok lexed)
    (h : carryOut d quiet lexed σ = .ok r τ)
    (hb : ∀ m ∈ r.1.defines, ∀ u ∈ m.body, ¬Opens u) : ∀ u ∈ r.2, ¬Opens u := by
  obtain ⟨start, newline, rest, final, last, left, rfl, hr, hlast, heq⟩ := reaches_of_carryOut h
  obtain ⟨_, _, _, he, hs, hn⟩ := Lexer.lex_start hx
  cases he
  have hfirst : ∀ m ∈ PrintAt.builtin d start.pos, ∀ u ∈ m.fallback, ¬Opens u := by
    intro m hm u hu
    cases d with
    | msx =>
      rw [List.mem_singleton.1 hm] at hu
      exact (Lexer.snippet_complete (by decide) u hu).not_opens
    | coco =>
      rw [List.mem_singleton.1 hm] at hu
      exact (Lexer.snippet_complete (by decide) u hu).not_opens
  have hout : ∀ u ∈ [newline, start], ¬Opens u := by
    simp [Define.Opens, hs, hn]
  rw [heq]
  intro u hu
  rcases List.mem_cons.1 (List.mem_reverse.1 hu) with rfl | hu
  · exact fun ho => absurd (hlast.symm.trans ho.1) (by decide)
  · exact reaches_not_opens hr hb hfirst hout u hu

end Directive

/-- The arguments that the first token of a list has as the name of a function. -/
def Routine.argumentsOf : List Token → List (List Token)
  | [] => []
  | fn :: rest =>
    match argumentList fn rest with
    | .ok (runs, _) => runs
    | .error _ => []

/-- The arguments that the first token of a list has as the marker of PRINT at a place. -/
def PrintAt.argumentsOf : List Token → List (List Token)
  | [] => []
  | t :: rest =>
    if t.kind = .special then [(split 0 none [] t rest).x, (split 0 none [] t rest).y] else []

/-- Whether nothing is left to be expanded in what a file captures: the bodies of its defines hold no
invocations, and nothing at all is in the defaults and results of its functions, in the arguments
behind their names and in the arguments of PRINT at a place. -/
structure Flat (d : Dialect) (tables : Tables) (carried : List Token) : Prop where
  bodies : ∀ m ∈ tables.defines, ∀ t ∈ m.body, ¬Define.Opens t
  defaults : ∀ e ∈ tables.routines, ∀ p ∈ e.2.parameters, Complete p.fallback
  results : ∀ e ∈ tables.routines, ∀ r ∈ e.2.results, Complete r
  arguments : ∀ l ∈ carried.tails, ∀ r ∈ Routine.argumentsOf l, Complete r
  places : d = .coco → ∀ l ∈ carried.tails, ∀ r ∈ PrintAt.argumentsOf l, Complete r

instance (t : Token) : Decidable (Define.Opens t) := inferInstanceAs (Decidable (_ ∧ _))

instance (d : Dialect) (tables : Tables) (carried : List Token) :
    Decidable (Flat d tables carried) :=
  decidable_of_iff
    ((∀ m ∈ tables.defines, ∀ t ∈ m.body, ¬Define.Opens t) ∧
      (∀ e ∈ tables.routines, ∀ p ∈ e.2.parameters, Complete p.fallback) ∧
      (∀ e ∈ tables.routines, ∀ r ∈ e.2.results, Complete r) ∧
      (∀ l ∈ carried.tails, ∀ r ∈ Routine.argumentsOf l, Complete r) ∧
      (d = .coco → ∀ l ∈ carried.tails, ∀ r ∈ PrintAt.argumentsOf l, Complete r))
    ⟨fun ⟨hb, hd, hr, ha, hp⟩ => ⟨hb, hd, hr, ha, hp⟩,
      fun h => ⟨h.bodies, h.defaults, h.results, h.arguments, h.places⟩⟩

variable {tables : Tables} {carried : List Token}

theorem Flat.call (h : Flat d tables carried) {fn closer : Token} {rest after : List Token}
    {runs : List (List Token)} (hs : fn :: rest <:+ carried)
    (ha : Routine.argumentList fn rest = .ok (runs, closer, after)) : ∀ r ∈ runs, Complete r := by
  have hall := h.arguments _ ((List.mem_tails _ _).2 hs)
  simpa [Routine.argumentsOf, ha] using hall

theorem Flat.place (h : Flat d tables carried) {rest : List Token} (hd : d = .coco)
    (hs : t :: rest <:+ carried) (hk : t.kind = .special) :
    Complete (PrintAt.split 0 none [] t rest).x ∧ Complete (PrintAt.split 0 none [] t rest).y := by
  have hall := h.places hd _ ((List.mem_tails _ _).2 hs)
  simpa [PrintAt.argumentsOf, hk] using hall

namespace PrintAt

def signs : Text := "0123456789-*()+?@,"

theorem ofInt_subset (n : Int) : Text.ofInt n ⊆ signs := by
  intro c h
  rcases Text.mem_ofInt h with rfl | hd
  · decide
  · have hall : ∀ n < 58, 48 ≤ n → Char.ofNat n ∈ signs := by decide
    have hc : 48 ≤ c.toNat ∧ c.toNat ≤ 57 := by
      simpa [Char.isDigit, UInt32.le_iff_toNat_le] using hd
    have hmem := hall c.toNat (by omega) hc.1
    rwa [Char.ofNat_toNat] at hmem

variable {P : Token → Prop}

theorem offset_holds {pos : Position} {x y : List Token}
    (hcode : ∀ code ⊆ signs, ∀ t ∈ Lexer.snippet d pos code, P t)
    (hx : ∀ t ∈ x, P t) (hy : ∀ t ∈ y, P t) : ∀ t ∈ offset d pos x y, P t := by
  have filled : ∀ t ∈ if x = [] then Lexer.snippet d pos "0" else x, P t := by
    split
    · exact hcode "0" (by decide)
    · exact hx
  unfold offset
  dsimp only
  split
  · exact filled
  · split
    · exact hcode _ (ofInt_subset _)
    · intro t ht
      simp only [List.mem_append] at ht
      rcases ht with (((ht | ht) | ht) | ht) | ht
      · exact hcode "32*(" (by decide) t ht
      · exact hy t ht
      · exact hcode ")+(" (by decide) t ht
      · exact filled t ht
      · exact hcode ")" (by decide) t ht

/-- What holds of code made of the signs and of the arguments holds of all that prints at a place. -/
theorem render_holds {a : Arguments}
    (hcode : ∀ code ⊆ signs, ∀ t ∈ Lexer.snippet d a.last.pos code, P t)
    (hx : ∀ t ∈ a.x, P t) (hy : ∀ t ∈ a.y, P t) : ∀ t ∈ render d a, P t := by
  unfold render
  intro t ht
  simp only [List.mem_append] at ht
  rcases ht with (ht | ht) | ht
  · exact hcode "?@" (by decide) t ht
  · exact offset_holds hcode hx hy t ht
  · split at ht
    · cases ht
    · exact hcode "," (by decide) t ht

end PrintAt

namespace Label

variable {loops rest : List Token}

theorem step_complete {p : Progress} (h : step d tables.routines loops out t rest = .ok p)
    (hflat : Flat d tables carried) (hp : ∀ e ∈ tables.routines, ∀ p ∈ e.2.parameters,
      p.name.kind = .identifier) (hs : t :: rest <:+ carried) (ht : ¬Define.Opens t)
    (ho : Complete out) : Complete p.out := by
  have made {k : Kind} {v : Text} {pos : Position} (hf : k ≠ .functionName) (hm : k ≠ .mark) :
      Token.Expanded ⟨k, v, pos⟩ := Token.expanded_of_kind hf hm
  cases step_cases h with
  | called hk hc =>
    obtain ⟨f, vars, arguments, closer, hf, hv, ha, rfl⟩ := Routine.call_cases hc
    obtain ⟨hvars, hbefore⟩ := Routine.callVariables_spec hv
    have hnew : Complete (Routine.callTokens d f t closer.pos arguments vars) := by
      refine Routine.callTokens_holds ?_ (made (by simp) (by simp)) ?_ (hflat.results _ hf)
        (hflat.call hs ha) ?_
      · intro text htext
        have hall : ∀ text ∈ Text.ofStrings ["=", ":", "gosub"], text.any isExpandable = false := by
          decide
        exact Lexer.snippet_complete (hall text htext)
      · intro p hmem
        have hname := hp _ hf p hmem
        exact ⟨Token.expanded_of_kind (by simp [hname]) (by simp [hname]), hflat.defaults _ hf p hmem⟩
      · intro v hmem u hu
        have hkind := hvars v hmem u hu
        exact Token.expanded_of_kind (by simp [hkind]) (by simp [hkind])
    exact hnew.reverse.append (ho.subset fun u hu => hbefore.mem hu)
  | jumped => exact ho.cons (made (by simp) (by simp))
  | labelled _ _ _ hm =>
    unfold lineMark at hm
    split at hm
    · cases hm
      exact ho.cons (made (by simp) (by simp))
    · cases hm
  | looped _ heq _ _ hm =>
    subst heq
    unfold lineMark at hm
    split at hm
    · cases hm
      exact Complete.cons (made (by simp) (by simp)) (ho.subset fun u hu => List.mem_cons_of_mem _ hu)
    · cases hm
  | closed =>
    refine Complete.cons (made (by simp) (by simp)) (Complete.append (Complete.reverse ?_) ho)
    refine Complete.append ?_ (Lexer.snippet_complete (by decide))
    split
    · exact complete_nil
    · exact Lexer.snippet_complete (by decide)
  | exited =>
    refine Complete.cons (made (by simp) (by simp)) (Complete.append (Complete.reverse ?_) ho)
    exact Lexer.snippet_complete (by decide)
  | printed hd hk =>
    obtain ⟨hx, hy⟩ := hflat.place hd hs hk
    have hsigns : PrintAt.signs.any isExpandable = false := by decide
    have hnew : Complete (PrintAt.render d _) := PrintAt.render_holds
      (fun code hc => Lexer.snippet_complete (Text.any_of_subset hsigns hc)) hx hy
    exact hnew.reverse.append ho
  | passed hf hm => exact ho.cons ⟨hf, fun hk => ⟨fun hv => ht ⟨hk, hv⟩, fun hv => hm ⟨hk, hv⟩⟩⟩

end Label

namespace Label

theorem reaches_complete {carried : List Token} {tables : Tables} {p q : Point}
    (h : Reaches d tables.routines p q) (hr : ∀ e ∈ tables.routines, e.2.Plain d)
    (hflat : Flat d tables carried) (hn : Directive.Named tables)
    (hc : ∀ u ∈ carried, ¬Define.Opens u) (hk : Kept d carried p) (ho : Complete p.out) :
    Complete q.out := by
  induction h with
  | refl => exact ho
  | tail hp hstep ih =>
    have hkept := reaches_kept hp hr hk
    cases hstep with
    | read he h =>
      exact step_complete h hflat hn.routines hkept.input (hc _ (hkept.input.mem (by simp))) ih

/-- Nothing is left to be expanded behind the second stage of a file that captures nothing. -/
theorem place_complete {tables : Tables} {carried placed : List Token}
    (hp : tables.Plain d) (hs : Entry.Sound d carried.reverse) (hflat : Flat d tables carried)
    (hn : Directive.Named tables) (hc : ∀ u ∈ carried, ¬Define.Opens u)
    (h : place d tables carried = .ok placed) : Complete placed := by
  obtain ⟨start, newline, rest, final, last, left, rfl, hstart, hnewline, hr, hlast, rfl⟩ :=
    reaches_of_place hs h
  have hkept := kept_first hs
  have hinput : Kept d (start :: newline :: rest) ⟨[], [newline, start], rest⟩ :=
    ⟨hkept.out, hkept.led, hkept.lawful, List.suffix_append [start, newline] rest⟩
  have hfirst : Complete [newline, start] :=
    Complete.cons (Token.expanded_of_kind (by simp [hnewline]) (by simp [hnewline]))
      (Complete.cons (Token.expanded_of_kind (by simp [hstart]) (by simp [hstart])) complete_nil)
  have hfinal := reaches_complete hr hp.routines hflat hn hc hinput hfirst
  refine Complete.reverse (Complete.cons ?_ hfinal)
  exact Token.expanded_of_kind (by simp [hlast]) (by simp [hlast])

end Label

namespace Merge

theorem unwrap_complete (l : List Token) : Complete (unwrap d l).1 := by
  induction l with
  | nil => exact complete_nil
  | cons t rest ih =>
    simp only [unwrap]
    split
    · exact complete_nil
    · split
      · exact complete_nil
      · refine (Lexer.snippet_complete (by decide)).append ?_
        have htext : (t.withKind .remarkText).Expanded :=
          Token.expanded_of_kind (by simp [Token.withKind]) (by simp [Token.withKind])
        have hend := Complete.cons (t := ⟨.newline, "\r", t.pos.withCol t.value.length⟩)
          (Token.expanded_of_kind (by simp) (by simp)) ih
        exact hend.cons htext

end Merge

namespace Branch.Visit

open Merge

variable {s : Setting} {v : Visit} {p : Point}

/-- The third stage puts out what it reads, what the files it includes come to and remarks. -/
theorem walks_complete (hf : Feeds s Complete v)
    (hplaced : ∀ placed ready, front s v.branch v.lexed v.session = .ok placed ready →
      Complete placed) (hw : v.Walks s p) : Complete p.out ∧ Complete p.input := by
  obtain ⟨start, newline, rest, ready, hfront, hr⟩ := hw
  have hall := hplaced _ _ hfront
  induction hr with
  | refl => exact ⟨hall.subset (by simp), hall.subset (by simp +contextual)⟩
  | @tail p q hr hstep ih =>
    obtain ⟨ho, hi⟩ := ih
    cases hstep with
    | @included σ τ out t rest' body hk hn hb =>
      obtain ⟨merged, hm, rfl⟩ := hf _ _ _ _ _ ⟨start, newline, rest, ready, hfront, hr⟩ rfl hk hn hb
      refine ⟨Complete.append (Complete.reverse ?_) ho, ?_⟩
      · exact hm.subset fun u hu => mem_of_mem_body hu
      · exact hi.subset fun u hu => List.mem_cons_of_mem _ (List.mem_of_mem_tail hu)
    | block hk =>
      refine ⟨(unwrap_complete _).reverse.append ho, hi.subset fun u hu => ?_⟩
      exact List.mem_cons_of_mem _ ((suffix_unwrap _).mem hu)
    | named hk hm =>
      obtain ⟨ht, hrest⟩ := List.forall_mem_cons.1 hi
      refine ⟨Complete.cons ht (ho.subset fun u hu => ?_), hrest⟩
      rcases meetVariable_cases hm with ⟨last, heq, -, -⟩ | ⟨heq, -⟩
      · exact heq ▸ List.mem_cons_of_mem _ hu
      · exact heq ▸ hu
    | @token σ out t rest' he hd hb hi' =>
      obtain ⟨ht, hrest⟩ := List.forall_mem_cons.1 hi
      refine ⟨?_, hrest⟩
      obtain ⟨gone, kept, new, heq, hadd, -, hnew⟩ := add_alters (placeOf _ rest') t out
      dsimp only at ho ⊢
      rw [hadd]
      refine Complete.append (fun u hu => ?_) (ho.subset fun u hu => by simp [heq, hu])
      rcases hnew u hu with rfl | ⟨hk, -⟩
      · exact ht
      · exact Token.expanded_of_kind (by simp [hk]) (by simp [hk])

/-- Whether the first stage of a file leaves tables and tokens that capture nothing. -/
def CapturesNothing (s : Setting) (v : Visit) : Prop :=
  ∀ tables carried before after,
    Directive.carryOut s.dialect v.branch.quiet v.lexed before = .ok (tables, carried) after →
    Flat s.dialect tables carried

theorem front_complete {listing : Listing} {placed : List Token} {ready : Session}
    (hx : Lexer.lex s.dialect listing = .ok v.lexed) (hc : v.CapturesNothing s)
    (hf : front s v.branch v.lexed v.session = .ok placed ready) : Complete placed := by
  obtain ⟨tables, carried, before, after, hd, hp, -, -⟩ := front_cases hf
  obtain ⟨htables, hsound⟩ := Directive.carryOut_sound hx hd
  have hflat := hc tables carried before after hd
  exact Label.place_complete htables hsound hflat (Directive.carryOut_named hd)
    (Directive.carryOut_not_opens hx hd hflat.bodies) hp

/-- A program is expanded completely when none of its files captures anything. -/
theorem convert_complete {listing : Listing} {merged : List Token} {τ : Session}
    (hx : Lexer.lex s.dialect listing = .ok v.lexed)
    (h : convert s v.depth v.branch v.lexed v.session = .ok merged τ)
    (hc : ∀ w, Visits s v w → w.CapturesNothing s) : Complete merged := by
  refine convert_visits ?_ hx h hc
  intro v listing placed merged ready τ hx hc hfront hm hfeeds
  obtain ⟨start, newline, rest, final, last, left, rfl, -, -, hr, hlast, rfl⟩ :=
    reaches_of_merge (front_sound hx hfront) hm
  have hplaced : ∀ placed ready, front s v.branch v.lexed v.session = .ok placed ready →
      Complete placed := fun _ _ hf => front_complete hx hc hf
  obtain ⟨ho, hi⟩ := walks_complete hfeeds hplaced ⟨start, newline, rest, ready, hfront, hr⟩
  exact Complete.reverse (Complete.cons (hi last (by simp)) ho)

end Branch.Visit

namespace Touch

variable {o : Options} {tokens : List Token}

theorem upper_ne {v : Text} {c : Char} (hv : v ≠ [c]) (hc : c.toNat < 0x80)
    (hu : c.isUpper = false) (h0 : c ≠ '\x00') : Text.upper v ≠ [c] := by
  intro h
  match v with
  | [] => cases h
  | [x] =>
    have hx : Text.upperChar x = c := by simpa [Text.upper] using h
    exact hv (by rw [Text.upperChar_eq hx hc hu h0])
  | x :: y :: rest => simp [Text.upper] at h

theorem capitalised_expanded (ht : t.Expanded) : (capitalised d o t).Expanded := by
  refine ⟨by simpa using ht.1, fun hk => ?_⟩
  obtain ⟨hsquare, hcurly⟩ := ht.2 (by simpa using hk)
  rcases capitalised_value (d := d) (o := o) (t := t) with hv | hv
  · rw [hv]
    exact ⟨hsquare, hcurly⟩
  · rw [hv]
    exact ⟨upper_ne hsquare (by decide) (by decide) (by decide),
      upper_ne hcurly (by decide) (by decide) (by decide)⟩

theorem touch_complete {next : Token} (h : touch d o out t next = .ok tokens) (ht : t.Expanded)
    (hc : t.kind = .compound → t.value ⊆ Dialect.compoundSigns) : Complete tokens := by
  cases touch_cases h with
  | printed hk =>
    refine Complete.cons (capitalised_expanded (Token.expanded_of_kind ?_ ?_)) complete_nil <;>
      simp [hk]
  | gone => exact complete_nil
  | @writtenOut operand before hk _ hi =>
    have hsigns : Dialect.compoundSigns.any isExpandable = false := by decide
    have hop : (operator t).any isExpandable = false :=
      Text.any_of_subset hsigns fun c hmem => hc hk (List.mem_of_mem_take hmem)
    have hoperand : operand.Expanded := Token.expanded_of_kind (by simp [hi]) (by simp [hi])
    refine (Complete.append (Lexer.snippet_complete (by decide))
      (Complete.cons hoperand (Lexer.snippet_complete hop))).append ?_
    split
    · exact Lexer.snippet_complete (by decide)
    · exact complete_nil
  | truth _ hcode =>
    have hnone : ∀ code ∈ Text.ofStrings ["0", "-1"], code.any isExpandable = false := by decide
    exact Lexer.snippet_complete (hnone _ hcode)
  | translated hl =>
    refine Complete.cons (Token.expanded_of_kind ht.1 fun hk => ?_) complete_nil
    have hmark : t.kind = .mark := hk
    simp [hmark, Kind.isLiteral] at hl
  | kept => exact Complete.cons (capitalised_expanded ht) complete_nil

theorem Touches.complete {input new : List Token} (h : Touches d o input new)
    (hi : Complete input)
    (hc : ∀ t ∈ input, t.kind = .compound → t.value ⊆ Dialect.compoundSigns) :
    Complete new := by
  induction h with
  | ending => exact Complete.cons (hi _ List.mem_cons_self) complete_nil
  | token ht _ ih =>
    rw [List.forall_mem_cons] at hc
    obtain ⟨hfirst, hrest⟩ := List.forall_mem_cons.1 hi
    exact (touch_complete ht hfirst hc.1).append (ih hrest hc.2)

end Touch

namespace Numbering

theorem Stands.expanded {u : Token} (h : Stands t u) (ht : t.Expanded) : u.Expanded := by
  rcases h with rfl | ⟨hk, hi | hp⟩
  · exact ht
  · exact Token.expanded_of_kind (by simp [hk, hi]) (by simp [hk, hi])
  · refine Token.expanded_of_kind ?_ ?_
    · intro hf
      rw [← hk, hf] at hp
      cases hp
    · intro hm
      rw [← hk, hm] at hp
      cases hp

theorem Numbers.complete {input new : List Token} (h : Numbers input new) (hi : Complete input) :
    Complete new := by
  intro u hu
  rcases h.mem hu with hk | ⟨t, ht, hs⟩
  · exact Token.expanded_of_kind (by simp [hk]) (by simp [hk])
  · exact hs.expanded (hi t ht)

end Numbering

namespace Compile

open Branch (Visit)

variable {s : Setting} {o : Options} {listing : Listing} {c : Compiled} {σ τ : Session}

theorem Passes.complete {merged : List Token} {numbered : Numbering.Numbered}
    {before after : Session} (hp : Passes s o listing σ c τ merged numbered before after)
    (hm : Complete merged) : Complete c.parsed := by
  obtain ⟨start, second, rest, lead, numbers, new, rfl, -, hlead, -, hnumbers, hsigns, -, hparsed,
    htouches⟩ := hp.finish
  obtain ⟨hstart, hrest⟩ := List.forall_mem_cons.1 hm
  obtain ⟨hsecond, hrest⟩ := List.forall_mem_cons.1 hrest
  have hintroduced : Complete lead := by
    intro t ht
    rcases hlead t ht with hk | hk | hk <;>
      exact Token.expanded_of_kind (by simp [hk]) (by simp [hk])
  have hnumbered := hnumbers.complete (Complete.cons hsecond (hintroduced.append hrest))
  rw [hparsed]
  exact Complete.cons hstart (htouches.complete hnumbered hsigns)

/-- Nothing is left to be expanded in a compiled program when none of its files captures anything that
would have to be. -/
theorem complete_of_capturesNothing (h : ofListing s o listing σ = .ok c τ) :
    ∃ merged numbered before after, Passes s o listing σ c τ merged numbered before after ∧
      ((∀ v, Visit.Visits s ⟨s.shelf.size, Branch.main s, c.lexed, before⟩ v →
        v.CapturesNothing s) → Complete c.parsed) := by
  obtain ⟨merged, numbered, before, after, hp⟩ := exists_passes h
  refine ⟨merged, numbered, before, after, hp, fun hc => hp.complete ?_⟩
  exact Visit.convert_complete (v := ⟨s.shelf.size, Branch.main s, c.lexed, before⟩) hp.lexed
    hp.converted hc

def carried? (d : Dialect) (listing : Listing) : Option (Tables × List Token) :=
  match Lexer.lex d listing with
  | .ok lexed =>
    match Directive.carryOut d false lexed {} with
    | .ok r _ => some r
    | .error _ _ => none
  | .error _ => none

theorem eq_of_carried? {r r' : Tables × List Token} {lexed : List Token}
    (hx : Lexer.lex d listing = .ok lexed) (hr : carried? d listing = some r)
    (h : Directive.carryOut d false lexed σ = .ok r' τ) : r' = r := by
  unfold carried? at hr
  rw [hx] at hr
  dsimp only at hr
  split at hr
  · rename_i hrun
    cases hr
    exact Directive.carryOut_unique h hrun
  · cases hr

/-- Of a program that includes no file, the main file alone has to capture nothing. -/
theorem capturesNothing_of_carried? {before : Session}
    (hp : Lexer.lex .msx listing = .ok c.lexed)
    (hf : ∃ r, carried? .msx listing = some r ∧ Flat .msx r.1 r.2) (v : Visit)
    (hv : Visit.Visits (lone .msx) ⟨0, Branch.main (lone .msx), c.lexed, before⟩ v) :
    v.CapturesNothing (lone .msx) := by
  obtain ⟨r, hr, hflat⟩ := hf
  obtain rfl := Visit.visits_of_depth_zero rfl hv
  intro tables carried ready after hd
  cases eq_of_carried? hp hr hd
  exact hflat

theorem nested_in_arguments_complete :
    ∃ c τ merged numbered before after,
      ofListing (lone .msx) { header := false } (Listing.ofText
        "define [two](y) 2*y\n\x7bx\x7d\nc=.add([two](5))\nend\nfunc .add(a,b=1)\na=a+b\nret a"
        "/main" 4) {} = .ok c τ ∧
      Passes (lone .msx) { header := false } (Listing.ofText
        "define [two](y) 2*y\n\x7bx\x7d\nc=.add([two](5))\nend\nfunc .add(a,b=1)\na=a+b\nret a"
        "/main" 4) {} c τ merged numbered before after ∧ Complete c.parsed := by
  -- the two runs share the reading of the listing
  obtain ⟨hrun, hflat⟩ : (outcome (lone .msx) { header := false } (Listing.ofText
        "define [two](y) 2*y\n\x7bx\x7d\nc=.add([two](5))\nend\nfunc .add(a,b=1)\na=a+b\nret a"
        "/main" 4)).isSome ∧ (carried? .msx (Listing.ofText
        "define [two](y) 2*y\n\x7bx\x7d\nc=.add([two](5))\nend\nfunc .add(a,b=1)\na=a+b\nret a"
        "/main" 4)).map (fun r => decide (Flat .msx r.1 r.2)) = some true := by decide +kernel
  obtain ⟨c, hc⟩ := Option.isSome_iff_exists.1 hrun
  obtain ⟨τ, hτ⟩ := exists_of_outcome hc
  obtain ⟨r, hr, hf⟩ := Option.map_eq_some_iff.1 hflat
  obtain ⟨merged, numbered, before, after, hp, hcomplete⟩ := complete_of_capturesNothing hτ
  exact ⟨c, τ, merged, numbered, before, after, hτ, hp,
    hcomplete (capturesNothing_of_carried? hp.lexed ⟨r, hr, of_decide_eq_true hf⟩)⟩

/-- The body of a parametric define is put out as it was captured, and the name in it is taken for a
variable. -/
theorem nested_in_body_not_complete :
    ∃ c τ, ofListing (lone .msx) { header := false } (Listing.ofText
        "define [one][1]\ndefine [two](y) [one]+y\nprint [two](5)" "/main" 4) {} = .ok c τ ∧
      ¬Complete c.parsed ∧ c.code = ["10 print [zz]+5".toList] := by
  have hrun : (outcome (lone .msx) { header := false } (Listing.ofText
      "define [one][1]\ndefine [two](y) [one]+y\nprint [two](5)" "/main" 4)).map
      (fun c => (decide (Complete c.parsed), c.code)) = some (false, ["10 print [zz]+5".toList]) := by
    decide +kernel
  obtain ⟨c, hc, he⟩ := Option.map_eq_some_iff.1 hrun
  obtain ⟨τ, hτ⟩ := exists_of_outcome hc
  simp only [Prod.mk.injEq] at he
  exact ⟨c, τ, hτ, of_decide_eq_false he.1, he.2⟩

end Compile

end ClassicBasic
