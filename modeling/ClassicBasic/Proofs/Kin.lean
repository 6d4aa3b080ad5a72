import ClassicBasic.Proofs.Twins

/-!
# Twins through the second stage

What the second stage writes of twins is alike, and the names of variables in it are still spelled by
the rule of the two programs. Only there are texts compared as they are written: a call leaves out
what would set a variable to itself.
-/

set_option autoImplicit false

namespace ClassicBasic

open Outcome (Both both_mapM)
open List (Forall₂)
open Token (Twins Kin)

variable {d : Dialect} {loose : Prop} {f : Char → Char} {S : Wording} {t t' : Token}
  {pos pos' : Position} {l l' rest rest' out out' : List Token}

theorem Token.kin_address {k : Kind} {v : Text} (hk : k.isRead = false) (hn : k ≠ .lineNumber)
    (he : k.isEntry = false) (hp : pos.file = pos'.file) : Kin d f S ⟨k, v, pos⟩ ⟨k, v, pos'⟩ where
  kind := rfl
  lawful := lawful_of_unread hk hn he
  lawful' := lawful_of_unread hk hn he
  file _ := hp
  value _ := rfl
  exact _ := rfl
  renamed hi := by
    obtain rfl : k = .identifier := hi
    cases hk

theorem forall₂_kin (h : Forall₂ (Twins d f S) l l') : Forall₂ (Kin d f S) l l' :=
  h.imp fun _ _ ht => ht.kin

namespace PrintAt

variable {x x' y y' : List Token} {a a' : Arguments}

theorem numeral_alike (hS : Spelling d f S)
    (h : Back d loose (Twins d f S) x.reverse x'.reverse) : numeral? x = numeral? x' := by
  have single {x : List Token} (t : Token) (h : x.reverse = [t]) : x = [t] := by
    simpa using congrArg List.reverse h
  have other {x : List Token} (t u : Token) (m : List Token) (h : x.reverse = t :: u :: m) :
      numeral? x = none := by
    have hx : x = m.reverse ++ [u, t] := by simpa using congrArg List.reverse h
    rw [hx]
    cases m.reverse with
    | nil => rfl
    | cons v w => cases w <;> rfl
  have ends {x : List Token} (t : Token) (m : List Token) (h : x.reverse = t :: m)
      (hk : t.kind = .newline) : numeral? x = none := by
    cases m with
    | nil => simp [single t h, numeral?, hk]
    | cons u m => exact other t u m h
  rcases h.exists_cons hS.twins with ⟨hx, hx'⟩ | ⟨t, t', m, m', hx, hx', ht, hmore⟩
  · rw [List.reverse_eq_nil_iff.1 hx, List.reverse_eq_nil_iff.1 hx']
  · by_cases hk : t.kind = .newline
    · rw [ends t m hx hk, ends t' m' hx' (ht.kind ▸ hk)]
    · rcases (hmore hk).exists_cons hS.twins with ⟨rfl, rfl⟩ | ⟨u, u', n, n', rfl, rfl, -, -⟩
      · rw [single t hx, single t' hx', numeral?, numeral?, ht.kind,
          Text.readInt_like hS.fine (ht.value hk)]
      · rw [other t u n hx, other t' u' n' hx']

theorem eq_nil_alike (hS : Spelling d f S)
    (h : Back d loose (Twins d f S) x.reverse x'.reverse) : x = [] ↔ x' = [] := by
  rcases h.exists_cons hS.twins with ⟨hx, hx'⟩ | ⟨t, t', m, m', hx, hx', -⟩
  · rw [List.reverse_eq_nil_iff.1 hx, List.reverse_eq_nil_iff.1 hx']
  · have hne : x ≠ [] := by
      rintro rfl
      cases hx
    have hne' : x' ≠ [] := by
      rintro rfl
      cases hx'
    simp [hne, hne']

theorem back_snippet (hS : Spelling d f S) {code : Text} (hc : Lexer.Nameless d code)
    (hp : pos.file = pos'.file) : Back d loose (Twins d f S) (Lexer.snippet d pos code).reverse
      (Lexer.snippet d pos' code).reverse := by
  simpa only [List.append_nil] using Back.append (Lexer.snippet_twins hS hc hp) .nil

theorem offset_alike (hS : Spelling d f S) (hp : pos.file = pos'.file)
    (hx : Back d loose (Twins d f S) x.reverse x'.reverse)
    (hy : Back d loose (Twins d f S) y.reverse y'.reverse) :
    Back d loose (Twins d f S) (offset d pos x y).reverse (offset d pos' x' y').reverse := by
  have phrase (code : Text) (hc : code ∈ Lexer.phrases) :
      Back d loose (Twins d f S) (Lexer.snippet d pos code).reverse
        (Lexer.snippet d pos' code).reverse := back_snippet hS (Lexer.nameless_phrase hc) hp
  have hfilled : Back d loose (Twins d f S) (if x = [] then Lexer.snippet d pos "0" else x).reverse
      (if x' = [] then Lexer.snippet d pos' "0" else x').reverse := by
    simp only [eq_nil_alike hS hx]
    split
    · exact phrase _ (by decide)
    · exact hx
  have hnumeral := numeral_alike hS hfilled
  simp only [offset, eq_nil_alike hS hy]
  split
  · exact hfilled
  · rw [hnumeral, numeral_alike hS hy]
    split
    · exact back_snippet hS (Lexer.nameless_ofInt _) hp
    · simp only [List.reverse_append]
      exact (phrase _ (by decide)).append_back (hfilled.append_back
        ((phrase _ (by decide)).append_back (hy.append_back (phrase _ (by decide)))))

theorem render_alike (hS : Spelling d f S) (ha : Arguments.Alike d loose (Twins d f S) a a')
    (hl : a.last.kind ≠ .newline) (hlast : Twins d f S a.last a'.last)
    (hrest : Runs d loose (Twins d f S) false a.rest a'.rest) :
    Back d loose (Twins d f S) (render d a).reverse (render d a').reverse := by
  have hp := hlast.file hl
  have hnext := (hrest.head hlast).kind
  have hcomma : Back d loose (Twins d f S)
      (if (a.rest.headD a.last).kind = .separator ∨ (a.rest.headD a.last).kind = .newline then []
        else Lexer.snippet d a.last.pos ",").reverse
      (if (a'.rest.headD a'.last).kind = .separator ∨ (a'.rest.headD a'.last).kind = .newline then []
        else Lexer.snippet d a'.last.pos ",").reverse := by
    rw [hnext]
    split
    · exact .nil
    · exact back_snippet hS (Lexer.nameless_phrase (by decide)) hp
  simp only [render, List.reverse_append]
  exact hcomma.append_back ((offset_alike hS hp ha.x ha.y).append_back
    (back_snippet hS (Lexer.nameless_phrase (by decide)) hp))

end PrintAt

namespace Routine

variable {run run' : List Token} {runs runs' : List (List Token)} {fn fn' : Token}
  {vars vars' : List (Option Token)} {args args' : List (List Token)}

/-- Whether two calls set the same variable, if any. -/
def SetAlike (d : Dialect) (f : Char → Char) (S : Wording) :
    Option Token → Option Token → Prop :=
  Option.Rel fun v v' => Kin d f S v v' ∧ v.kind = .identifier

variable (hS : Spelling d f S)

include hS

theorem startsStatement_alike (ht : Kin d f S t t') : startsStatement d t = startsStatement d t' := by
  rw [startsStatement, startsStatement, ht.kind]
  by_cases hk : t'.kind = .newline
  · simp [hk]
  · rw [d.isStopWord_like hS.fine (ht.value (ht.kind ▸ hk))]

theorem takeBack_alike (hrun : Forall₂ (Kin d f S) run run')
    (hruns : Forall₂ (Forall₂ (Kin d f S)) runs runs') (ho : Back d loose (Kin d f S) out out') :
    Forall₂ (Forall₂ (Kin d f S)) (takeBack d run runs out).1 (takeBack d run' runs' out').1 ∧
      Back d loose (Kin d f S) (takeBack d run runs out).2 (takeBack d run' runs' out').2 := by
  induction out generalizing out' run run' runs runs' with
  | nil =>
    rcases ho.exists_cons hS.kin with ⟨-, rfl⟩ | ⟨_, _, _, _, h, -⟩
    · exact ⟨.cons hrun hruns, .nil⟩
    · cases h
  | cons t out ih =>
    rcases ho.exists_cons hS.kin with ⟨h, -⟩ | ⟨u, t', m, m', heq, rfl, ht, hmore⟩
    · cases h
    · obtain ⟨rfl, rfl⟩ := List.cons.inj heq
      simp only [takeBack, startsStatement_alike hS ht, hS.kin.sign ht (w := ",") (by decide)]
      split
      · exact ⟨.cons hrun hruns, ho⟩
      · rename_i hstart
        have hinline : t.kind ≠ .newline := by
          intro hk
          rw [← startsStatement_alike hS ht] at hstart
          simp [startsStatement, hk] at hstart
        split
        · exact ih .nil (.cons hrun hruns) (hmore hinline)
        · exact ih (.cons ht hrun) hruns (hmore hinline)

omit hS in
theorem resultVariable_both (h : Forall₂ (Kin d f S) run run') :
    Both (SetAlike d f S) (resultVariable run) (resultVariable run') := by
  cases h with
  | nil => exact .ok .none
  | @cons v v' m m' hv hm =>
    simp only [resultVariable, hv.kind, ne_eq]
    split
    · exact .error _ _
    · rename_i hk
      cases hm with
      | nil => exact .ok (.some ⟨hv, hv.kind ▸ not_not.1 hk⟩)
      | cons => exact .error _ _

theorem callVariables_both (ho : Back d loose (Kin d f S) out out') :
    Both (fun r r' => Forall₂ (SetAlike d f S) r.1 r'.1 ∧ Back d loose (Kin d f S) r.2 r'.2)
      (callVariables d out) (callVariables d out') := by
  rcases ho.exists_cons hS.kin with ⟨rfl, rfl⟩ | ⟨t, t', m, m', rfl, rfl, ht, hmore⟩
  · exact .ok ⟨.nil, .nil⟩
  · have hequal := hS.kin.sign ht (w := "=") (by decide)
    simp only [callVariables, ne_eq, hequal]
    split
    · exact .ok ⟨.nil, ho⟩
    · rename_i hv
      have hinline := hS.kin.inline_sign ht (hequal.2 (not_not.1 hv)) (by decide)
      obtain ⟨hruns, hleft⟩ := takeBack_alike hS .nil .nil (hmore hinline)
      exact (both_mapM hruns fun run run' hrun => resultVariable_both hrun).map
        fun vars vars' hvars => ⟨hvars, hleft⟩

/-- A variable is the whole of a run in both programs or in neither. -/
theorem sameValues_alike (hc : S.calls) (ht : Kin d f S t t') (hk : t.kind = .identifier)
    (h : Forall₂ (Twins d f S) l l') : Token.sameValues [t] l = Token.sameValues [t'] l' := by
  unfold Token.sameValues
  cases h with
  | nil => rfl
  | @cons w w' m m' hw hm =>
    cases hm with
    | cons => rw [Bool.eq_iff_iff]; simp
    | nil =>
      have hname := hk ▸ ht.lawful.classified (by rw [hk]; rfl)
      have hsame : t.value = w.value ↔ t'.value = w'.value := by
        by_cases hn : w.kind = .newline
        · obtain ⟨hends, hends'⟩ := hw.toLike.endsRow hn
          have apart {v w : Text} (hv : d.classify v = some .identifier) (hw : Token.Returns w) :
              v ≠ w := by
            rintro rfl
            have hisName := Lexer.isName_of_classify hv
            obtain ⟨c, v, rfl⟩ := List.exists_cons_of_ne_nil hw.1
            rw [hw.2 c (by simp), Grammar.isName] at hisName
            exact absurd (Bool.and_eq_true_iff.1 hisName).1 (by decide)
          have hk' : t'.kind = .identifier := ht.kind ▸ hk
          have hname' := hk' ▸ ht.lawful'.classified (by rw [hk']; rfl)
          simp [apart hname hends.returns, apart hname' hends'.returns]
        · exact hS.names hc (ht.renamed hk) (hw.spelled hn)
      rw [Bool.eq_iff_iff]
      simpa using hsame

omit hS in
theorem sameValues_comm (s l : List Token) : Token.sameValues s l = Token.sameValues l s := by
  unfold Token.sameValues
  rw [Bool.eq_iff_iff, beq_iff_eq, beq_iff_eq]
  exact eq_comm

theorem setParameters_alike (hc : S.calls) {equal equal' separator separator' : List Token}
    {ps ps' : List Parameter} (he : Forall₂ (Twins d f S) equal equal')
    (hs : Forall₂ (Twins d f S) separator separator') (hps : Forall₂ (ParameterAlike d f S) ps ps')
    (hargs : Forall₂ (Forall₂ (Twins d f S)) args args') :
    Forall₂ (Twins d f S) (setParameters equal separator ps args)
      (setParameters equal' separator' ps' args') := by
  have empty {s s' : List Token} (h : Forall₂ (Twins d f S) s s') : s = [] ↔ s' = [] := by
    rw [← List.length_eq_zero_iff, h.length_eq, List.length_eq_zero_iff]
  induction hps generalizing args args' with
  | nil => exact .nil
  | @cons p p' ps ps' hp hps ih =>
    have hgiven : Forall₂ (Twins d f S) (args.headD []) (args'.headD []) := by
      cases hargs with
      | nil => exact .nil
      | cons h _ => exact h
    have hmore : Forall₂ (Forall₂ (Twins d f S)) args.tail args'.tail := by
      cases hargs with
      | nil => exact .nil
      | cons _ h => exact h
    have hvalue : Forall₂ (Twins d f S) (if args.headD [] = [] then p.fallback else args.headD [])
        (if args'.headD [] = [] then p'.fallback else args'.headD []) := by
      simp only [empty hgiven]
      split
      · exact hp.fallback
      · exact hgiven
    have hsame := sameValues_alike hS hc hp.name.kin hp.variable_kind hvalue
    simp only [setParameters]
    refine List.rel_append ?_ (ih hmore)
    generalize (if args.headD [] = [] then p.fallback else args.headD []) = value at hvalue hsame ⊢
    generalize (if args'.headD [] = [] then p'.fallback else args'.headD []) = value' at hvalue hsame ⊢
    simp only [empty hvalue, hsame]
    split
    · exact .nil
    · exact List.rel_append (List.rel_append (.cons hp.name he) hvalue) hs

theorem copyResults_alike (hc : S.calls) {equal equal' separator separator' : List Token}
    (he : Forall₂ (Twins d f S) equal equal') (hs : Forall₂ (Twins d f S) separator separator')
    (hvars : Forall₂ (SetAlike d f S) vars vars')
    (hresults : Forall₂ (Forall₂ (Twins d f S)) args args') :
    Forall₂ (Kin d f S) (copyResults equal separator vars args)
      (copyResults equal' separator' vars' args') := by
  induction hvars generalizing args args' with
  | nil => exact .nil
  | @cons v v' vars vars' hv _ ih =>
    have hgiven : Forall₂ (Twins d f S) (args.headD []) (args'.headD []) := by
      cases hresults with
      | nil => exact .nil
      | cons h _ => exact h
    have hmore : Forall₂ (Forall₂ (Twins d f S)) args.tail args'.tail := by
      cases hresults with
      | nil => exact .nil
      | cons _ h => exact h
    simp only [copyResults]
    refine List.rel_append ?_ (ih hmore)
    cases hv with
    | none => exact .nil
    | @some v v' hv =>
      dsimp only
      rw [sameValues_comm, sameValues_alike hS hc hv.1 hv.2 hgiven, sameValues_comm]
      split
      · exact .nil
      · exact List.rel_append (List.rel_append (forall₂_kin hs) (.cons hv.1 (forall₂_kin he)))
          (forall₂_kin hgiven)

theorem call_both {table table' : Routines}
    (htable : Forall₂ (fun e e' => e.1 = e'.1 ∧ Alike d f S e.2 e'.2) table table')
    (hf : Twins d f S fn fn') (hk : fn.kind = .functionName) (ho : Back d loose (Kin d f S) out out')
    (h : Runs d loose (Twins d f S) false rest rest') :
    Both (fun r r' => Forall₂ (Kin d f S) r.1 r'.1 ∧ Back d loose (Kin d f S) r.2.1 r'.2.1 ∧
      Runs d loose (Twins d f S) false r.2.2 r'.2.2) (call d table fn out rest)
      (call d table' fn' out' rest') := by
  have hinline : fn.kind ≠ .newline := by simp [hk]
  have hlower := hf.toLike.lower hS.fine hinline
  have hknown : Option.Rel (Alike d f S) (table.lookup fn.lower) (table'.lookup fn'.lower) := by
    rw [hlower]
    exact lookup_alike htable _
  unfold call
  generalize table.lookup fn.lower = known at hknown
  generalize table'.lookup fn'.lower = known' at hknown
  cases hknown with
  | none => exact .error _ _
  | @some r r' hr =>
    rcases (callVariables_both hS ho).elim with
      ⟨e, e', hx, hx'⟩ | ⟨⟨vars, before⟩, ⟨vars', before'⟩, hx, hx', hvars, hbefore⟩
    · rw [hx, hx']
      exact .error _ _
    · rcases (argumentList_both hS.twins hf h).elim with
        ⟨e, e', hy, hy'⟩ | ⟨⟨args, closer, after⟩, ⟨args', closer', after'⟩, hy, hy', hargs, hcloser,
          hline, hafter⟩
      · rw [hx, hx', hy, hy']
        exact .error _ _
      · rw [hx, hx', hy, hy']
        dsimp only at hvars hbefore hargs hcloser hline hafter ⊢
        rw [hr.parameters.length_eq, hr.results.length_eq, hargs.length_eq, hvars.length_eq]
        split
        · exact .error _ _
        · split
          · exact .error _ _
          · refine .ok ⟨?_, hbefore, hafter⟩
            have hp := hcloser.file hline
            have phrase (code : Text) (hc : code ∈ Lexer.phrases) :=
              Lexer.snippet_twins hS (Lexer.nameless_phrase (d := d) hc) hp
            have hequal := phrase "=" (by decide)
            have hseparator := phrase ":" (by decide)
            refine List.rel_append (List.rel_append (forall₂_kin ?_) (forall₂_kin ?_)) (.cons ?_ ?_)
            · exact setParameters_alike hS (hf.calls hk) hequal hseparator hr.parameters hargs
            · exact phrase "gosub" (by decide)
            · rw [hlower]
              exact Token.kin_address rfl (by decide) rfl (hf.file hinline)
            · exact copyResults_alike hS (hf.calls hk) hequal hseparator hvars hr.results

end Routine

namespace Label

open Directive (atLineStart TablesAlike)

variable {loops loops' : List Token} {tables tables' : Tables}

structure Progress.Alike (d : Dialect) (loose : Prop) (f : Char → Char) (S : Wording)
    (p p' : Progress) : Prop where
  loops : Forall₂ (fun t t' => t.lower = t'.lower) p.loops p'.loops
  out : Back d loose (Kin d f S) p.out p'.out
  rest : Runs d loose (Twins d f S) (atLineStart p.out) p.rest p'.rest

variable (hS : Spelling d f S)

include hS

theorem opensJump_alike (ho : Back d loose (Kin d f S) out out') (ht : Twins d f S t t')
    (h : Runs d loose (Twins d f S) false rest rest') :
    opensJump out t rest = opensJump out' t' rest' := by
  have hnext := h.head ht
  by_cases hk : (rest.headD t).kind = .newline
  · have hk' := hnext.kind.symm.trans hk
    simp only [opensJump, hk, hk', bne_self_eq_false, Bool.and_false, Bool.false_and]
  · have hclose := (h.behind hk).head hnext
    simp only [opensJump, ho.atLineStart hS.kin, hnext.kind,
      hclose.toLike.value_beq hS.fine (w := Label.closing) (by decide)]

theorem readJump_both (hl : Forall₂ (fun t t' => t.lower = t'.lower) loops loops')
    (ho : Back d loose (Kin d f S) out out') (ht : Twins d f S t t')
    (h : Runs d loose (Twins d f S) false rest rest') :
    Both (Progress.Alike d loose f S) (readJump loops out t rest) (readJump loops' out' t' rest') := by
  have hread := Bracketed.read_abreast hS.twins opening Label.closing (by decide) (by decide) ht
    fun _ => h
  have idle {loops out rest : List Token} {t : Token}
      (h : Bracketed.Idle d (Bracketed.read opening Label.closing t rest)) :
      ∃ e, readJump loops out t rest = .error e := by
    unfold readJump
    split
    · exact ⟨_, rfl⟩
    · exact ⟨_, rfl⟩
    · rename_i hb
      have hreturns := (h _ _ _ hb).returns
      rw [if_neg (by simp [hreturns.not_isIdentifier, hreturns.ne (w := sameLine) (by decide)])]
      exact ⟨_, rfl⟩
  generalize hx : Bracketed.read opening Label.closing t rest = x at hread
  generalize hx' : Bracketed.read opening Label.closing t' rest' = x' at hread
  cases hread with
  | idle hi hi' =>
    obtain ⟨e, he⟩ : ∃ e, readJump loops out t rest = .error e := idle (hx ▸ hi)
    obtain ⟨e', he'⟩ : ∃ e, readJump loops' out' t' rest' = .error e := idle (hx' ▸ hi')
    rw [he, he']
    exact .error e e'
  | @holding content content' closer closer' after after' hinline hcontent hcloser hv hmore =>
    simp only [readJump, hx, hx', hS.twins.sign hcontent (w := sameLine) (by decide),
      Dialect.isIdentifier_like hS.fine (hcontent.value hinline),
      hcontent.toLike.lower hS.fine hinline]
    split
    · exact .ok ⟨hl, .cons (Token.kin_address rfl (by decide) rfl (hcontent.file hinline)) ho,
        hmore.anywhere _⟩
    · exact .error _ _

omit hS in
theorem lineMark_both (hf : Text.Fine f) (ht : Token.Like d f t t') (hk : t.kind ≠ .newline)
    (hp : pos.file = pos'.file) : Both (Kin d f S) (lineMark t pos) (lineMark t' pos') := by
  have hname := Dialect.isIdentifier_like hf (ht.value hk)
  by_cases hi : Dialect.isIdentifier t'.value = true
  · have hm : lineMark t pos = .ok ⟨.labelLine, t.lower, pos⟩ := if_pos (hname.trans hi)
    have hm' : lineMark t' pos' = .ok ⟨.labelLine, t'.lower, pos'⟩ := if_pos hi
    have hlower := ht.lower hf hk
    rw [hm, hm']
    exact .ok ⟨⟨rfl, lineMark_lawful hm, lineMark_lawful hm', fun _ => hp,
      fun _ => by rw [hlower], fun _ => hlower⟩, fun h => by cases h⟩
  · rw [lineMark, lineMark, if_neg (hname ▸ hi), if_neg hi]
    exact .error _ _

omit hS in
theorem readLine_idle {last : Token} (hn : last.kind = .newline)
    (h : Bracketed.Idle d (Bracketed.read opening Label.closing t rest)) :
    ∃ e, readLine loops (last :: out) t rest = .error e := by
  simp only [readLine, if_pos hn]
  revert h
  generalize Bracketed.read opening Label.closing t rest = x
  intro h
  cases x with
  | error e => exact ⟨e, rfl⟩
  | ok bracketed =>
    cases bracketed with
    | blank next => exact ⟨_, rfl⟩
    | holding content closer after =>
      have hmark : lineMark content closer.pos =
          .error (content.failure (.invalidLabel content.value)) :=
        if_neg (by simp [(h _ _ _ rfl).returns.not_isIdentifier])
      exact ⟨_, by simp only [hmark]; rfl⟩

theorem readLine_both (hl : Forall₂ (fun t t' => t.lower = t'.lower) loops loops')
    (ho : Back d loose (Kin d f S) out out') (ht : Twins d f S t t') (hk : t.kind ≠ .newline)
    (h : Runs d loose (Twins d f S) false rest rest') :
    Both (Progress.Alike d loose f S) (readLine loops out t rest) (readLine loops' out' t' rest') := by
  rcases ho.exists_cons hS.kin with ⟨rfl, rfl⟩ | ⟨last, last', before, before', rfl, rfl, hlast, hmore⟩
  · exact .error _ _
  · by_cases hn : last.kind = .newline
    · have hn' := hlast.kind.symm.trans hn
      have hread := Bracketed.read_abreast hS.twins opening Label.closing (by decide) (by decide) ht
        fun _ => h
      generalize hx : Bracketed.read opening Label.closing t rest = x at hread
      generalize hx' : Bracketed.read opening Label.closing t' rest' = x' at hread
      cases hread with
      | idle hi hi' =>
        obtain ⟨e, he⟩ := @readLine_idle d t rest before loops last hn (hx ▸ hi)
        obtain ⟨e', he'⟩ := @readLine_idle d t' rest' before' loops' last' hn' (hx' ▸ hi')
        rw [he, he']
        exact .error e e'
      | holding hinline hcontent hcloser hv hafter =>
        have hp := hcloser.file (hS.twins.inline hcloser hv (by decide))
        simp only [readLine, if_pos hn, if_pos hn', hx, hx']
        exact (@lineMark_both d f S _ _ _ _ hS.fine hcontent.toLike hinline hp).map
          fun m m' hm => ⟨hl, .cons hm ho, hafter.anywhere _⟩
    · simp only [readLine, ← hlast.kind, if_neg hn, ← (hmore hn).atLineStart hS.kin]
      split
      · have hlower := hlast.toLike.lower hS.fine hn
        exact (@lineMark_both d f S _ _ _ _ hS.fine hlast.toLike hn (ht.file hk)).map
          fun m m' hm => ⟨.cons hlower hl, .cons hm (hmore hn), h.anywhere _⟩
      · exact .error _ _

theorem startsStatement_back (ho : Back d loose (Kin d f S) out out') :
    startsStatement out = startsStatement out' := by
  rcases ho.exists_cons hS.kin with ⟨rfl, rfl⟩ | ⟨t, t', m, m', rfl, rfl, ht, -⟩
  · rfl
  · rw [startsStatement, startsStatement, ht.kind]

theorem closeLoop_both (hl : Forall₂ (fun t t' => t.lower = t'.lower) loops loops')
    (ho : Back d loose (Kin d f S) out out') (hp : t.pos.file = t'.pos.file)
    (h : Runs d loose (Twins d f S) false rest rest') :
    Both (Progress.Alike d loose f S) (closeLoop d loops out t rest)
      (closeLoop d loops' out' t' rest') := by
  cases hl with
  | nil => exact .error _ _
  | cons hlabel houter =>
    have phrase (code : Text) (hc : code ∈ Lexer.phrases) :=
      forall₂_kin (Lexer.snippet_twins hS (Lexer.nameless_phrase (d := d) hc) hp)
    have hjump : Forall₂ (Kin d f S)
        ((if startsStatement out then [] else Lexer.snippet d t.pos ":") ++
          Lexer.snippet d t.pos "goto")
        ((if startsStatement out' then [] else Lexer.snippet d t'.pos ":") ++
          Lexer.snippet d t'.pos "goto") := by
      refine List.rel_append ?_ (phrase _ (by decide))
      rw [startsStatement_back hS ho]
      split
      · exact .nil
      · exact phrase _ (by decide)
    refine .ok ⟨houter, .cons ?_ (ho.append hjump), h.anywhere _⟩
    rw [hlabel]
    exact Token.kin_address rfl (by decide) rfl hp

theorem leaveLoop_both (hl : Forall₂ (fun t t' => t.lower = t'.lower) loops loops')
    (ho : Back d loose (Kin d f S) out out') (hp : t.pos.file = t'.pos.file)
    (h : Runs d loose (Twins d f S) false rest rest') :
    Both (Progress.Alike d loose f S) (leaveLoop d loops out t rest)
      (leaveLoop d loops' out' t' rest') := by
  cases hl with
  | nil => exact .error _ _
  | cons hlabel houter =>
    have hjump := forall₂_kin
      (Lexer.snippet_twins hS (@Lexer.nameless_phrase d "goto" (by decide)) hp)
    refine .ok ⟨.cons hlabel houter, .cons ?_ (ho.append hjump), h.anywhere _⟩
    rw [hlabel]
    exact Token.kin_address rfl (by decide) rfl hp

theorem step_both {routines routines' : Routines}
    (htable : Forall₂ (fun e e' => e.1 = e'.1 ∧ Routine.Alike d f S e.2 e'.2) routines routines')
    (hl : Forall₂ (fun t t' => t.lower = t'.lower) loops loops')
    (ho : Back d loose (Kin d f S) out out') (ht : Twins d f S t t')
    (h : Runs d loose (Twins d f S) (t.kind == .newline) rest rest') :
    Both (fun p p' => Progress.Alike d loose f S p p' ∨ (p.rest = [] ∧ p'.rest = []))
      (step d routines loops out t rest) (step d routines' loops' out' t' rest') := by
  have hrest (hk : t.kind ≠ .newline) : Runs d loose (Twins d f S) false rest rest' := by
    rwa [beq_eq_false_iff_ne.2 hk] at h
  have hexact (hk : t.kind = .special) : t.value = t'.value := ht.exact (by rw [hk]; rfl)
  have hplace : d = .coco ∧ t.kind = .special ∧ t'.value = PrintAt.opening ↔
      d = .coco ∧ t.kind = .special ∧ t.value = PrintAt.opening :=
    and_congr_right fun _ => and_congr_right fun hk => by rw [hexact hk]
  simp only [step, ← ht.kind, ← hS.twins.sign ht (w := opening) (by decide),
    ← hS.twins.sign ht (w := Label.closing) (by decide),
    ← ht.toLike.is hS.fine (w := "EXIT") (by decide), hplace]
  split
  · rename_i hk
    refine (Routine.call_both hS htable ht hk ho (hrest (by simp [hk]))).map fun r r' hr => .inl ?_
    exact ⟨hl, hr.2.1.append hr.1, hr.2.2.anywhere _⟩
  · split
    · rename_i hk
      have hinline : t.kind ≠ .newline := by simp [hk.1]
      rw [opensJump_alike hS ho ht (hrest hinline)]
      split
      · exact (readJump_both hS hl ho ht (hrest hinline)).mono fun _ _ => .inl
      · exact (readLine_both hS hl ho ht hinline (hrest hinline)).mono fun _ _ => .inl
    · split
      · rename_i hk
        have hinline : t.kind ≠ .newline := by simp [hk.1]
        exact (closeLoop_both hS hl ho (ht.file hinline) (hrest hinline)).mono fun _ _ => .inl
      · split
        · rename_i hk
          have hinline : t.kind ≠ .newline := by simp [hk.1]
          exact (leaveLoop_both hS hl ho (ht.file hinline) (hrest hinline)).mono fun _ _ => .inl
        · split
          · rename_i hk
            have hinline : t.kind ≠ .newline := by simp [hk.2.1]
            have ha : PrintAt.Arguments.Alike d loose (Twins d f S) (PrintAt.split 0 none [] t rest)
                (PrintAt.split 0 none [] t' rest') :=
              PrintAt.split_alike hS.twins .none .nil (hrest hinline)
            refine .ok ?_
            rcases ha.more with hend | ⟨hline, hlast, hmore⟩
            · exact .inr hend
            · refine .inl ⟨hl, ?_, hmore.anywhere _⟩
              exact ((PrintAt.render_alike hS ha hline hlast hmore).mono fun _ _ hu => hu.kin)
                |>.append_back ho
          · exact .ok (.inl ⟨hl, .cons ht.kin ho, h⟩)

omit hS in
theorem run_step {p : Progress} (he : t.kind ≠ .eof)
    (h : step d tables.routines loops out t rest = .ok p) :
    run d tables loops out (t :: rest) = run d tables p.loops p.out p.rest := by
  rw [run, if_neg he]
  split
  · rename_i hs
    rw [h] at hs
    cases hs
  · rename_i hs
    rw [h] at hs
    cases hs
    rfl

omit hS in
theorem run_newline {n : Token} (hn : n.kind = .newline) :
    run d tables loops out (n :: rest) = run d tables loops (n :: out) rest := by
  have hstep : step d tables.routines loops out n rest = .ok ⟨loops, n :: out, rest⟩ := by
    simp [step, hn]
  exact run_step (by simp [hn]) hstep

omit hS in
theorem run_error {e : Failure} (he : t.kind ≠ .eof)
    (h : step d tables.routines loops out t rest = .error e) :
    run d tables loops out (t :: rest) = .error e := by
  rw [run, if_neg he]
  split
  · rename_i hs
    rw [h] at hs
    cases hs
    rfl
  · rename_i hs
    rw [h] at hs
    cases hs

/-- The second stage goes the same way on two programs that are alike. -/
theorem run_both (hm : TablesAlike d f S tables tables')
    (hl : Forall₂ (fun t t' => t.lower = t'.lower) loops loops')
    (ho : Back d loose (Kin d f S) out out')
    (h : Runs d loose (Twins d f S) (atLineStart out) l l') :
    Both (Runs d loose (Kin d f S) false) (run d tables loops out l)
      (run d tables' loops' out' l') := by
  obtain ⟨n, hn⟩ : ∃ n, l.length + l'.length = n := ⟨_, rfl⟩
  induction n using Nat.strong_induction_on generalizing loops loops' out out' l l' with
  | _ n ih =>
    generalize hstart : atLineStart out = b at h
    cases h with
    | nil =>
      rw [run, run]
      exact .error _ _
    | @cons _ t t' m m' ht hmore =>
      by_cases he : t.kind = .eof
      · have he' := ht.kind.symm.trans he
        have hend := (Back.cons ht.kin ho).reverse_append hS.kin .nil
        have hclosed : (unclosed tables loops).isSome = (unclosed tables' loops').isSome := by
          have hopened := hm.opened
          revert hopened
          unfold unclosed
          cases hl with
          | nil =>
            generalize tables.opened = o
            generalize tables'.opened = o'
            intro hopened
            cases hopened <;> rfl
          | cons => intro _; rfl
        rw [run, run, if_pos he, if_pos he']
        revert hclosed
        cases unclosed tables loops <;> cases unclosed tables' loops' <;> intro hclosed
        · exact .ok (by simpa only [List.append_nil] using hend)
        · cases hclosed
        · cases hclosed
        · exact .error _ _
      · have he' : t'.kind ≠ .eof := ht.kind ▸ he
        rcases (step_both hS hm.routines hl ho ht hmore).elim with
          ⟨e, e', hx, hx'⟩ | ⟨p, p', hx, hx', hp⟩
        · rw [run_error he hx, run_error he' hx']
          exact .error _ _
        · rw [run_step he hx, run_step he' hx']
          have hlt : p.rest.length + p'.rest.length < n := by
            have h1 := length_step hx
            have h2 := length_step hx'
            simp only [List.length_cons] at hn
            omega
          rcases hp with hp | ⟨hend, hend'⟩
          · exact ih _ hlt hp.loops hp.out hp.rest rfl
          · rw [hend, hend', run, run]
            exact .error _ _
    | @left k m _ hloose hk hmore =>
      rw [run_newline hk.kind]
      have hout : Back d loose (Kin d f S) (k :: out) out' := by
        cases out with
        | nil => cases hstart
        | cons last out => exact .left hloose hk (beq_iff_eq.1 hstart) ho
      have hnext : atLineStart (k :: out) = true := beq_iff_eq.2 hk.kind
      refine ih (m.length + l'.length) ?_ hl hout (by rw [hnext]; exact hmore) rfl
      simp only [List.length_cons] at hn
      omega
    | @right k _ m hloose hk hmore =>
      rw [run_newline hk.kind]
      have hstart' := (ho.atLineStart hS.kin).symm.trans hstart
      have hout : Back d loose (Kin d f S) out (k :: out') := by
        cases out' with
        | nil => cases hstart'
        | cons last out' => exact .right hloose hk (beq_iff_eq.1 hstart') ho
      refine ih (l.length + m.length) ?_ hl hout (by rw [hstart]; exact hmore) rfl
      simp only [List.length_cons] at hn
      omega

theorem place_both (hm : TablesAlike d f S tables tables')
    (h : Runs d loose (Twins d f S) false l l') :
    Both (Runs d loose (Kin d f S) false) (place d tables l) (place d tables' l') := by
  rcases h.exists_cons with ⟨rfl, rfl⟩ | ⟨t, t', m, m', rfl, rfl, ht, hmore⟩
  · exact .error _ _
  · exact run_both hS hm .nil (.cons ht.kin .nil) hmore

end Label

end ClassicBasic
