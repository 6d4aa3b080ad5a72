import ClassicBasic.Proofs.Abreast
import ClassicBasic.Proofs.Meets

/-!
# Readers of programs that are alike

A reader looks at kinds, at signs and at names without regard to case, and none goes past a line end
in the middle of what it reads. So on programs that are alike a reader does the same: it fails on
both, or what it takes is alike and what it leaves is.
-/

set_option autoImplicit false

namespace ClassicBasic

open Outcome (Both)
open List (Forall₂)

variable {d : Dialect} {loose : Prop} {f : Char → Char} {R : Token → Token → Prop} {b : Bool}
  {t t' u u' : Token} {l l' rest rest' : List Token} {w : Text}

theorem Runs.exists_of_cons (h : Runs d loose R false (t :: l) l') :
    ∃ t' m', l' = t' :: m' ∧ R t t' ∧ Runs d loose R (t.kind == .newline) l m' := by
  cases h with
  | cons h more => exact ⟨_, _, rfl, h, more⟩

theorem Runs.head (h : Runs d loose R false l l') (ht : R t t') : R (l.headD t) (l'.headD t') := by
  cases h with
  | nil => exact ht
  | cons h _ => exact h

theorem Runs.behind (h : Runs d loose R false l l') (hk : (l.headD t).kind ≠ .newline) :
    Runs d loose R false l.tail l'.tail := by
  cases h with
  | nil => exact .nil
  | cons h more =>
    rw [List.headD_cons] at hk
    rwa [beq_eq_false_iff_ne.2 hk] at more

theorem Runs.past (h : Runs d loose R false l l') (hk : (l.headD t).kind ≠ .newline)
    (hnext : (l.tail.headD u).kind ≠ .newline) : Runs d loose R false (l.drop 2) (l'.drop 2) := by
  simpa only [← List.drop_one, List.drop_drop] using (h.behind hk).behind hnext

namespace Ties

variable (hR : Ties d f R)

include hR

theorem kind (h : R t t') : t.kind = t'.kind := (hR.like h).kind

theorem sign (h : R t t') (hw : Token.isSigns w = true) : t.value = w ↔ t'.value = w :=
  (hR.like h).value_eq hR.fine hw

theorem endsLine (h : R t t') : t.endsLine = t'.endsLine := (hR.like h).endsLine

theorem inline (h : R t t') (hv : t.value = w) (hw : '\r' ∉ w) : t.kind ≠ .newline :=
  (hR.like h).lawful.kind_ne_newline (hv ▸ hw)

theorem inline_sign (h : R t t') (hv : t.value = w) (hw : Token.isSigns w = true) :
    t.kind ≠ .newline := by
  simp only [Token.isSigns, Bool.and_eq_true, Bool.not_eq_true', List.contains_eq_mem,
    decide_eq_false_iff_not] at hw
  exact hR.inline h hv hw.2

theorem line (h : Runs d loose R false l l') :
    Forall₂ R (l.takeWhile fun t => !t.endsLine) (l'.takeWhile fun t => !t.endsLine) ∧
      Runs d loose R false (l.dropWhile fun t => !t.endsLine) (l'.dropWhile fun t => !t.endsLine) := by
  induction l generalizing l' with
  | nil =>
    cases h
    exact ⟨.nil, .nil⟩
  | cons t l ih =>
    obtain ⟨t', m', rfl, ht, hmore⟩ := h.exists_of_cons
    have hend := hR.endsLine ht
    cases hline : t.endsLine with
    | true =>
      simp only [List.takeWhile_cons, List.dropWhile_cons, ← hend, hline, Bool.not_true]
      exact ⟨.nil, h⟩
    | false =>
      have hk : t.kind ≠ .newline := (not_endsLine (by simp [hline])).1
      obtain ⟨htake, hdrop⟩ := ih (h.tail hk).2
      simp only [List.takeWhile_cons, List.dropWhile_cons, ← hend, hline, Bool.not_false, if_true]
      exact ⟨.cons ht htake, hdrop⟩

theorem afterLineEnd (h : Runs d loose R false l l') :
    Runs d loose R true (afterLineEnd l) (afterLineEnd l') := by
  cases h with
  | nil => exact .nil
  | @cons _ t t' _ _ ht hmore =>
    simp only [ClassicBasic.afterLineEnd, ← hR.kind ht]
    split
    · rename_i hk
      rwa [hk] at hmore
    · exact .cons ht hmore

end Ties

/-- Whether a reading between brackets comes to nothing that is on one line. -/
def Bracketed.Idle (d : Dialect) (x : Except Failure Bracketed) : Prop :=
  ∀ content closer after, x = .ok (.holding content closer after) → content.EndsRow d

theorem Token.Returns.not_isIdentifier {v : Text} (h : Returns v) :
    Dialect.isIdentifier v = false := by
  obtain ⟨c, v, rfl⟩ := List.exists_cons_of_ne_nil h.1
  rw [h.2 c (by simp)]
  rfl

theorem Token.Returns.not_isShortName {v : Text} (h : Returns v) : Dialect.isShortName v = false := by
  have halpha : ('\r').isAlpha = false := by decide
  match v, h with
  | [], _ => rfl
  | [c], h => rw [h.2 c (by simp), Dialect.isShortName, halpha]
  | [c, e], h => rw [h.2 c (by simp), Dialect.isShortName, halpha, Bool.false_and]
  | _ :: _ :: _ :: _, _ => rfl

theorem Token.Returns.not_isInvocable {v : Text} (h : Returns v) :
    Define.isInvocable v = false := by
  obtain ⟨c, v, rfl⟩ := List.exists_cons_of_ne_nil h.1
  rw [h.2 c (by simp)]
  have hc : (Text.lowerChar '\r' == '_' || (Text.lowerChar '\r').isLower ||
      (Text.lowerChar '\r').isDigit) = false := by decide
  simp [Define.isInvocable, Define.printAt, Text.lower, hc]

/-- Readings between brackets: idle ones, or of tokens that are alike. -/
inductive Bracketed.Abreast (d : Dialect) (loose : Prop) (R : Token → Token → Prop)
    (closing : Text) : Except Failure Bracketed → Except Failure Bracketed → Prop
  | idle {x x' : Except Failure Bracketed} (h : Idle d x) (h' : Idle d x') : Abreast d loose R closing x x'
  | holding {content content' closer closer' : Token} {after after' : List Token}
      (inline : content.kind ≠ .newline) (content_alike : R content content')
      (closer_alike : R closer closer') (closed : closer.value = closing)
      (more : Runs d loose R false after after') :
      Abreast d loose R closing (.ok (.holding content closer after))
        (.ok (.holding content' closer' after'))

namespace Define

/-- Whether two tokens of a definition are alike: both are slots, or they are tokens that are. -/
def Filled (R : Token → Token → Prop) (t t' : Token) : Prop :=
  (t.kind = .slot ∧ t'.kind = .slot) ∨ (t.kind ≠ .slot ∧ t'.kind ≠ .slot ∧ R t t')

structure Alike (R : Token → Token → Prop) (m m' : Define) : Prop where
  name : m.name = m'.name
  body : Forall₂ (Filled R) m.body m'.body
  fallback : Forall₂ R m.fallback m'.fallback

theorem named_alike {table table' : Defines} (h : Forall₂ (Alike R) table table') (name : Text) :
    Option.Rel (Alike R) (table.named? name) (table'.named? name) := by
  induction h with
  | nil => exact .none
  | @cons m m' _ _ hm _ ih =>
    unfold Defines.named? at ih ⊢
    rw [List.find?_cons, List.find?_cons, ← hm.name]
    cases hname : m.name == name with
    | true => exact .some hm
    | false => exact ih

end Define

variable (hR : Ties d f R)

include hR

/-- What is between brackets is read of both programs, or of neither. -/
theorem Bracketed.read_abreast (opening closing : Text) (ho : Token.isSigns opening = true)
    (hc : Token.isSigns closing = true) (ht : R t t')
    (hr : t.kind ≠ .newline → Runs d loose R false rest rest') :
    Abreast d loose R closing (read opening closing t rest) (read opening closing t' rest') := by
  by_cases hopen : t.value = opening
  · have hopen' := (hR.sign ht ho).1 hopen
    have hrest := hr (hR.inline_sign ht hopen ho)
    have hcontent := hrest.head ht
    by_cases hk : (rest.headD t).kind = .newline
    · obtain ⟨hends, hends'⟩ := (hR.like hcontent).endsRow hk
      refine .idle (fun content closer after h => ?_) fun content closer after h => ?_ <;>
      · simp only [read, hopen, hopen'] at h
        split at h
        · contradiction
        · split at h
          · cases h
          · split at h
            · cases h
            · cases h
              assumption
    · have hnext := (hrest.behind hk).head hcontent
      have hfirst := hR.sign hcontent hc
      have hsecond := hR.sign hnext hc
      simp only [read, hopen, hopen', hfirst, hsecond, ne_eq, not_true_eq_false, if_false]
      by_cases hblank : (rest'.headD t').value = closing
      · rw [if_pos hblank, if_pos hblank]
        exact .idle (by rintro _ _ _ ⟨⟩) (by rintro _ _ _ ⟨⟩)
      · rw [if_neg hblank, if_neg hblank]
        by_cases hclosed : (rest'.tail.headD (rest'.headD t')).value = closing
        · rw [if_neg (not_not.2 hclosed), if_neg (not_not.2 hclosed)]
          have hv := hsecond.2 hclosed
          exact .holding hk hcontent hnext hv (hrest.past hk (hR.inline_sign hnext hv hc))
        · rw [if_pos hclosed, if_pos hclosed]
          exact .idle (by rintro _ _ _ ⟨⟩) (by rintro _ _ _ ⟨⟩)
  · have hopen' : ¬t'.value = opening := fun h => hopen ((hR.sign ht ho).2 h)
    refine .idle (fun content closer after h => ?_) fun content closer after h => ?_
    · simp [read, hopen] at h
    · simp [read, hopen'] at h

namespace Define

variable {table table' : Defines} {name name' opening opening' : Token}

theorem filled (h : R t t') : Filled R t t' := by
  by_cases hk : t.kind = .slot
  · exact .inl ⟨hk, hR.kind h ▸ hk⟩
  · exact .inr ⟨hk, hR.kind h ▸ hk, h⟩

theorem readFallback_both (h : Runs d loose R false l l') :
    Both (fun r r' => Forall₂ R r.1 r'.1 ∧ Runs d loose R false r.2 r'.2) (readFallback l)
      (readFallback l') := by
  induction l generalizing l' with
  | nil =>
    cases h
    exact .error _ _
  | cons t rest ih =>
    obtain ⟨t', rest', rfl, ht, hmore⟩ := h.exists_of_cons
    simp only [readFallback, hR.endsLine ht, hR.sign ht (w := "[") (by decide),
      hR.sign ht (w := "]") (by decide)]
    split
    · exact .error _ _
    · rename_i hline
      rw [← hR.endsLine ht] at hline
      have hrest := (h.tail (not_endsLine hline).1).2
      split
      · exact .error _ _
      · split
        · exact .ok ⟨.nil, hrest⟩
        · exact (ih hrest).map fun r r' hr => ⟨.cons ht hr.1, hr.2⟩

theorem readBody_both (h : Runs d loose R false l l') :
    Both (fun r r' => Forall₂ (Filled R) r.1 r'.1 ∧ Option.Rel (Forall₂ R) r.2.1 r'.2.1 ∧
      Runs d loose R false r.2.2 r'.2.2) (readBody l) (readBody l') := by
  induction hn : l.length using Nat.strong_induction_on generalizing l l' with
  | _ n ih =>
    cases l with
    | nil =>
      cases h
      rw [readBody]
      exact .error _ _
    | cons t rest =>
      obtain ⟨t', rest', rfl, ht, hmore⟩ := h.exists_of_cons
      have hopen := hR.sign ht (w := "[") (by decide)
      have hclose := hR.sign ht (w := "]") (by decide)
      rw [readBody, readBody]
      simp only [hR.endsLine ht, hopen, hclose]
      split
      · exact .error _ _
      · rename_i hline
        rw [← hR.endsLine ht] at hline
        have hrest := (h.tail (not_endsLine hline).1).2
        have hlt : rest.length < n := by simp [← hn]
        split
        · have hfall := readFallback_both hR hrest
          split
          · rename_i hx
            rw [hx] at hfall
            split
            · exact .error _ _
            · rename_i hx'
              rw [hx'] at hfall
              cases hfall
          · rename_i inner after hx
            rw [hx] at hfall
            split
            · rename_i hx'
              rw [hx'] at hfall
              cases hfall
            · rename_i hx'
              rw [hx'] at hfall
              cases hfall with
              | ok hr =>
                refine (ih _ (Nat.lt_trans (length_readFallback hx) hlt) hr.2 rfl).map ?_
                exact fun r r' hmore => ⟨.cons (.inl ⟨rfl, rfl⟩) hmore.1, .some hr.1, hmore.2.2⟩
        · split
          · exact .ok ⟨.nil, .none, hrest⟩
          · refine (ih _ hlt hrest rfl).map ?_
            exact fun r r' hr => ⟨.cons (filled hR ht) hr.1, hr.2⟩

theorem readParametric_both (hname : name.lower = name'.lower) (ho : R opening opening')
    (hr : Runs d loose R false rest rest') :
    Both (fun r r' => Alike R r.1 r'.1 ∧ Runs d loose R true r.2 r'.2)
      (readParametric name opening rest) (readParametric name' opening' rest') := by
  have hparam := hr.head ho
  simp only [readParametric, hR.kind hparam]
  split
  · exact .error _ _
  · rename_i hk
    have hinline : (rest.headD opening).kind ≠ .newline := by
      rw [hR.kind hparam, not_not.1 hk]
      decide
    have hclose := (hr.behind hinline).head hparam
    have hsign := hR.sign hclose (w := ")") (by decide)
    simp only [ne_eq, hsign]
    split
    · exact .error _ _
    · rename_i hv
      have hclosed := hR.inline_sign hclose (hsign.2 (not_not.1 hv)) (by decide)
      obtain ⟨hline, hdrop⟩ := hR.line (hr.past hinline hclosed)
      have hnil : (rest.drop 2).takeWhile (fun t => !t.endsLine) = [] ↔
          (rest'.drop 2).takeWhile (fun t => !t.endsLine) = [] := by
        rw [← List.length_eq_zero_iff, hline.length_eq, List.length_eq_zero_iff]
      simp only [hnil]
      split
      · exact .error _ _
      · refine .ok ⟨⟨hname, ?_, .nil⟩, hR.afterLineEnd hdrop⟩
        rw [List.forall₂_map_left_iff, List.forall₂_map_right_iff]
        refine hline.imp fun t t' ht => ?_
        have hvar : t.kind = .identifier ∧ t.varName = (rest.headD opening).varName ↔
            t'.kind = .identifier ∧ t'.varName = (rest'.headD opening').varName := by
          rw [hR.kind ht, (hR.like hparam).varName hR.fine hinline]
          refine and_congr_right fun hident => ?_
          rw [(hR.like ht).varName hR.fine (by rw [hR.kind ht, hident]; decide)]
        simp only [hvar]
        split
        · exact .inl ⟨rfl, rfl⟩
        · exact filled hR ht

omit hR in
theorem readName_idle (h : Bracketed.Idle d (Bracketed.read "[" "]" (rest.headD t) rest.tail)) :
    ∃ e, readName table t rest = .error e := by
  unfold readName
  split
  · exact ⟨_, rfl⟩
  · exact ⟨_, rfl⟩
  · rename_i hb
    rw [(h _ _ _ hb).returns.not_isIdentifier]
    exact ⟨_, rfl⟩

theorem readName_both (htable : Forall₂ (Alike R) table table') (ht : R t t')
    (hr : Runs d loose R false rest rest') :
    Both (fun r r' => r.1.lower = r'.1.lower ∧ R r.2.1 r'.2.1 ∧
      (r.2.1.kind ≠ .newline → Runs d loose R false r.2.2 r'.2.2))
      (readName table t rest) (readName table' t' rest') := by
  have hread := Bracketed.read_abreast hR "[" "]" (by decide) (by decide) (hr.head ht) hr.behind
  generalize hx : Bracketed.read "[" "]" (rest.headD t) rest.tail = x at hread
  generalize hx' : Bracketed.read "[" "]" (rest'.headD t') rest'.tail = x' at hread
  cases hread with
  | idle h h' =>
    obtain ⟨e, he⟩ : ∃ e, readName table t rest = .error e := readName_idle (hx ▸ h)
    obtain ⟨e', he'⟩ : ∃ e, readName table' t' rest' = .error e := readName_idle (hx' ▸ h')
    rw [he, he']
    exact .error e e'
  | @holding content content' closer closer' after after' hinline hcontent hcloser hv hmore =>
    have hlower := (hR.like hcontent).lower hR.fine hinline
    have hident := Dialect.isIdentifier_like hR.fine ((hR.like hcontent).value hinline)
    have hknown := named_alike htable content'.lower
    simp only [readName, hx, hx', hident, hlower]
    split
    · exact .error _ _
    · generalize Defines.named? table content'.lower = known at hknown
      generalize Defines.named? table' content'.lower = known' at hknown
      cases hknown with
      | none => exact .ok ⟨hlower, hmore.head hcloser, hmore.behind⟩
      | some => exact .error _ _

omit hR in
theorem readLine_eq (table : Defines) (t : Token) (rest : List Token) :
    readLine table t rest = readName table t rest >>= fun r =>
      if r.2.1.kind = .symbol ∧ r.2.1.value = "(" then
        (readParametric r.1 r.2.1 r.2.2).map fun m => (table ++ [m.1], m.2)
      else if r.2.1.value ≠ "[" then .error (r.2.1.failure (.expecting "["))
      else readBody r.2.2 >>= fun body =>
        match body.2.2 with
        | [] => .error .exhausted
        | u :: left =>
          let table' :=
            table ++ [{ name := r.1.lower, body := body.1, fallback := body.2.1.getD [] }]
          if u.value = "," then readLine table' u left
          else if u.endsLine then .ok (table', ClassicBasic.afterLineEnd (u :: left))
          else .error (u.failure (.expecting ",")) := by
  rw [readLine]
  split
  · rename_i hn
    rw [hn]
    rfl
  · rename_i name next after hn
    rw [hn]
    by_cases hk : next.kind = .symbol ∧ next.value = "("
    · rw [if_pos hk]
      exact (if_pos hk).symm
    · rw [if_neg hk]
      refine Eq.trans ?_ (if_neg hk).symm
      by_cases hv : next.value ≠ "["
      · rw [if_pos hv]
        exact (if_pos hv).symm
      · rw [if_neg hv]
        refine Eq.trans ?_ (if_neg hv).symm
        split <;>
        · rename_i hb
          rw [hb]
          rfl

theorem readLine_both (htable : Forall₂ (Alike R) table table') (ht : R t t')
    (hr : Runs d loose R false rest rest') :
    Both (fun r r' => Forall₂ (Alike R) r.1 r'.1 ∧ Runs d loose R true r.2 r'.2)
      (readLine table t rest) (readLine table' t' rest') := by
  induction hn : rest.length using Nat.strong_induction_on generalizing table table' t t' rest rest' with
  | _ n ih =>
    rw [readLine_eq, readLine_eq]
    apply (readName_both hR htable ht hr).bind
    rintro ⟨name, next, after⟩ ⟨name', next', after'⟩ hx ⟨hlower, hnext, hmore⟩
    dsimp only at hlower hnext hmore ⊢
    have hopen := hR.sign hnext (w := "(") (by decide)
    have hbracket := hR.sign hnext (w := "[") (by decide)
    simp only [← hR.kind hnext, ← hopen, ne_eq, ← hbracket]
    split
    · rename_i hk
      have hafter := hmore (hR.inline_sign hnext hk.2 (by decide))
      exact (readParametric_both hR hlower hnext hafter).map fun m m' hm =>
        ⟨List.rel_append htable (.cons hm.1 .nil), hm.2⟩
    · split
      · exact .error _ _
      · rename_i hv
        have hafter := hmore (hR.inline_sign hnext (not_not.1 hv) (by decide))
        apply (readBody_both hR hafter).bind
        rintro ⟨body, fallback, left⟩ ⟨body', fallback', left'⟩ hb ⟨hbody, hfall, hleft⟩
        have htable' : Forall₂ (Alike R)
            (table ++ [{ name := name.lower, body, fallback := fallback.getD [] }])
            (table' ++ [{ name := name'.lower, body := body', fallback := fallback'.getD [] }]) := by
          refine List.rel_append htable (.cons ⟨hlower, hbody, ?_⟩ .nil)
          cases hfall with
          | none => exact .nil
          | some h => exact h
        cases left with
        | nil =>
          cases hleft
          exact .error _ _
        | cons u left =>
          obtain ⟨u', left', rfl, hu, hmore'⟩ := hleft.exists_of_cons
          have hcomma := hR.sign hu (w := ",") (by decide)
          simp only [← hR.endsLine hu, ← hcomma]
          split
          · rename_i huv
            have hlt : left.length < n := by
              have h1 := length_readName hx
              have h2 := length_readBody hb
              simp only [List.length_cons] at h1 h2
              omega
            exact ih _ hlt htable' hu (hleft.tail (hR.inline_sign hu huv (by decide))).2 rfl
          · split
            · exact .ok ⟨htable', hR.afterLineEnd hleft⟩
            · exact .error _ _

end Define

namespace Routine

variable {run run' : List Token} {last last' fn fn' : Token} {depth : Nat}

theorem splitArguments_both (hrun : Forall₂ R run run') (h : Runs d loose R false l l') :
    Both (fun r r' => Forall₂ (Forall₂ R) r.1 r'.1 ∧ R r.2.1 r'.2.1 ∧ r.2.1.kind ≠ .newline ∧
      Runs d loose R false r.2.2 r'.2.2) (splitArguments depth run l) (splitArguments depth run' l') := by
  induction l generalizing l' depth run run' with
  | nil =>
    cases h
    exact .error _ _
  | cons t rest ih =>
    obtain ⟨t', rest', rfl, ht, hmore⟩ := h.exists_of_cons
    simp only [splitArguments, hR.endsLine ht, hR.sign ht (w := "(") (by decide),
      hR.sign ht (w := ")") (by decide), hR.sign ht (w := ",") (by decide)]
    split
    · exact .error _ _
    · rename_i hline
      rw [← hR.endsLine ht] at hline
      have hrest := h.tail (not_endsLine hline).1
      have hrun' : Forall₂ R (run ++ [t]) (run' ++ [t']) := List.rel_append hrun (.cons ht .nil)
      split
      · exact ih hrun' hrest.2
      · split
        · exact (ih .nil hrest.2).map fun r r' hr => ⟨.cons hrun hr.1, hr.2⟩
        · split
          · split
            · exact .ok ⟨.cons hrun .nil, ht, (not_endsLine hline).1, hrest.2⟩
            · exact ih hrun' hrest.2
          · exact ih hrun' hrest.2

theorem argumentList_both (hf : R fn fn') (h : Runs d loose R false rest rest') :
    Both (fun r r' => Forall₂ (Forall₂ R) r.1 r'.1 ∧ R r.2.1 r'.2.1 ∧ r.2.1.kind ≠ .newline ∧
      Runs d loose R false r.2.2 r'.2.2) (argumentList fn rest) (argumentList fn' rest') := by
  have hopening := h.head hf
  have hopen := hR.sign hopening (w := "(") (by decide)
  simp only [argumentList, hR.kind hf, ne_eq, hopen]
  split
  · exact .error _ _
  · split
    · exact .error _ _
    · rename_i hv
      have hinline := hR.inline_sign hopening (hopen.2 (not_not.1 hv)) (by decide)
      have hcloser := (h.behind hinline).head hopening
      have hclose := hR.sign hcloser (w := ")") (by decide)
      simp only [hclose]
      split
      · rename_i hc
        have hinline' := hR.inline_sign hcloser (hclose.2 hc) (by decide)
        exact .ok ⟨.nil, hcloser, hinline', h.past hinline hinline'⟩
      · exact splitArguments_both hR .nil (h.behind hinline)

theorem endsResults_alike (ht : R t t') : endsResults t = endsResults t' := by
  have hsign := (hR.like ht).value_beq hR.fine (w := "'") (by decide)
  rw [endsResults, endsResults, hsign, hR.kind ht, hR.endsLine ht]

theorem splitResults_both (hrun : Forall₂ R run run') (hlast : R last last')
    (hk : last.kind ≠ .newline) (h : Runs d loose R false l l') :
    Forall₂ (Forall₂ R) (splitResults run last l).1 (splitResults run' last' l').1 ∧
      R (splitResults run last l).2.1 (splitResults run' last' l').2.1 ∧
      (splitResults run last l).2.1.kind ≠ .newline ∧
      Runs d loose R false (splitResults run last l).2.2 (splitResults run' last' l').2.2 := by
  induction l generalizing l' run run' last last' with
  | nil =>
    cases h
    exact ⟨.cons hrun .nil, hlast, hk, .nil⟩
  | cons t rest ih =>
    obtain ⟨t', rest', rfl, ht, hmore⟩ := h.exists_of_cons
    simp only [splitResults, endsResults_alike hR ht, hR.sign ht (w := ",") (by decide)]
    split
    · exact ⟨.cons hrun .nil, hlast, hk, h⟩
    · rename_i hends
      have hline : t.kind ≠ .newline := by
        intro hnl
        rw [← endsResults_alike hR ht] at hends
        simp [endsResults, Token.endsLine, hnl] at hends
      have hrest := (h.tail hline).2
      split
      · obtain ⟨h1, h2⟩ := ih .nil ht hline hrest
        exact ⟨.cons hrun h1, h2⟩
      · exact ih (List.rel_append hrun (.cons ht .nil)) ht hline hrest

theorem resultList_both (hf : R t t') (hk : t.kind ≠ .newline) (h : Runs d loose R false rest rest') :
    Forall₂ (Forall₂ R) (resultList t rest).1 (resultList t' rest').1 ∧
      R (resultList t rest).2.1 (resultList t' rest').2.1 ∧
      (resultList t rest).2.1.kind ≠ .newline ∧
      Runs d loose R false (resultList t rest).2.2 (resultList t' rest').2.2 := by
  simp only [resultList, endsResults_alike hR (h.head hf)]
  split
  · exact ⟨.nil, hf, hk, h⟩
  · exact splitResults_both hR .nil hf hk h

end Routine

namespace Directive

variable {tag tag' last last' : Token} {keeps : List Text}

theorem skipLine_both (h : Runs d loose R false l l') :
    Both (Runs d loose R true) (skipLine tag l) (skipLine tag' l') := by
  induction l generalizing l' with
  | nil =>
    cases h
    exact .error _ _
  | cons t rest ih =>
    obtain ⟨t', rest', rfl, ht, hmore⟩ := h.exists_of_cons
    simp only [skipLine, hR.kind ht]
    split
    · exact .error _ _
    · split
      · rename_i hk
        rw [hR.kind ht, hk] at hmore
        exact .ok hmore
      · rename_i hk
        rw [← hR.kind ht] at hk
        exact ih (h.tail hk).2

theorem skipBlock_both (htag : R tag tag') (hk : tag.kind ≠ .newline)
    (hlast : b = (last.kind == .newline)) (hlast' : b = (last'.kind == .newline))
    (h : Runs d loose R b l l') :
    Both (Runs d loose R false) (skipBlock tag last l) (skipBlock tag' last' l') := by
  induction h generalizing last last' with
  | nil => exact .error _ _
  | @cons b t t' m m' ht hmore ih =>
    have hsame : last.kind = .newline ↔ last'.kind = .newline := by
      rw [← beq_iff_eq, ← hlast, hlast', beq_iff_eq]
    by_cases htoggle : t.kind = .toggle
    · have hinline : t.kind ≠ .newline := by simp [htoggle]
      have his : t.is tag.value = t'.is tag'.value :=
        hR.fine.sameLetters ((hR.like ht).value hinline) ((hR.like htag).value hk)
      have hrest : Runs d loose R false m m' := by
        rwa [beq_eq_false_iff_ne.2 hinline] at hmore
      have hends : ((m.headD t).kind = .newline) ↔ ((m'.headD t').kind = .newline) := by
        rw [hR.kind (hrest.head ht)]
      simp only [skipBlock, hR.kind ht, his, hsame, hends]
      split
      · exact .error _ _
      · split
        · exact .ok hrest
        · exact ih rfl (by rw [hR.kind ht])
    · have htoggle' : ¬t'.kind = .toggle := hR.kind ht ▸ htoggle
      simp only [skipBlock, htoggle', false_and, if_false, hR.kind ht]
      split
      · exact .error _ _
      · exact ih rfl (by rw [hR.kind ht])
  | @left n m m' hl hn hmore ih =>
    simp only [skipBlock, hn.kind, reduceCtorEq, false_and, if_false]
    exact ih (by rw [hn.kind]; rfl) hlast'
  | @right n m m' hl hn hmore ih =>
    have hnext : Both (Runs d loose R false) (skipBlock tag last m) (skipBlock tag' n m') :=
      ih hlast (by rw [hn.kind]; rfl)
    simpa only [skipBlock, hn.kind, reduceCtorEq, false_and, if_false] using hnext

theorem skipToggled_both (htag : R tag tag') (hk : tag.kind ≠ .newline)
    (h : Runs d loose R false rest rest') :
    Both (Runs d loose R true) (skipToggled tag rest) (skipToggled tag' rest') := by
  simp only [skipToggled, hR.kind (h.head htag)]
  split
  · have hfirst := beq_eq_false_iff_ne.2 hk
    exact (skipBlock_both hR htag hk hfirst.symm (by rw [← hR.kind htag, hfirst]) h).mono
      fun r r' hr => hr.anywhere true
  · exact skipLine_both hR h

theorem keepTags_both (h : Runs d loose R false l l') :
    Both (fun r r' => r.1 = r'.1 ∧ Runs d loose R true r.2 r'.2) (keepTags keeps l)
      (keepTags keeps l') := by
  induction l generalizing l' keeps with
  | nil =>
    cases h
    exact .error _ _
  | cons t rest ih =>
    obtain ⟨t', rest', rfl, ht, hmore⟩ := h.exists_of_cons
    simp only [keepTags, hR.endsLine ht, hR.kind ht]
    split
    · exact .ok ⟨rfl, hR.afterLineEnd h⟩
    · rename_i hline
      rw [← hR.endsLine ht] at hline
      have hinline := (not_endsLine hline).1
      rw [(hR.like ht).upper hR.fine hinline]
      split
      · exact .error _ _
      · split
        · exact .error _ _
        · exact ih (h.tail hinline).2

end Directive

namespace PrintAt

variable {a a' : Arguments} {x x' : Option (List Token)} {term term' : List Token}
  {last last' : Token} {depth : Int}

/-- Whether two arguments are alike, or the programs have run out behind both. -/
structure Arguments.Alike (d : Dialect) (loose : Prop) (R : Token → Token → Prop)
    (a a' : Arguments) : Prop where
  x : Back d loose R a.x.reverse a'.x.reverse
  y : Back d loose R a.y.reverse a'.y.reverse
  more : (a.rest = [] ∧ a'.rest = []) ∨ (a.last.kind ≠ .newline ∧ R a.last a'.last ∧
    Runs d loose R false a.rest a'.rest)

theorem deeper_alike (ht : R t t') : deeper t depth = deeper t' depth := by
  simp only [deeper, hR.sign ht (w := "(") (by decide), hR.sign ht (w := ")") (by decide)]

omit hR in
theorem deeper_ends (h : t.EndsRow d) : deeper t depth = depth := by
  rw [deeper, if_neg (h.returns.ne (by decide)), if_neg (h.returns.ne (by decide))]

theorem split_alike (hx : Option.Rel (fun s s' => Back d loose R s.reverse s'.reverse) x x')
    (hterm : Back d loose R term.reverse term'.reverse)
    (h : Runs d loose R (Directive.atLineStart term.reverse) l l') :
    Arguments.Alike d loose R (split depth x term last l) (split depth x' term' last' l') := by
  have hfirst {x x' : Option (List Token)}
      (hx : Option.Rel (fun s s' => Back d loose R s.reverse s'.reverse) x x') :
      Back d loose R (x.getD []).reverse (x'.getD []).reverse := by
    cases hx with
    | none => exact .nil
    | some h => exact h
  generalize hb : Directive.atLineStart term.reverse = b at h
  induction h generalizing depth x x' term term' last last' with
  | nil => exact ⟨hfirst hx, .nil, .inl ⟨rfl, rfl⟩⟩
  | @cons b t t' m m' ht hmore ih =>
    have hgrown : Back d loose R (term ++ [t]).reverse (term' ++ [t']).reverse := by
      simpa using Back.cons ht hterm
    have hnone : x = none ↔ x' = none := by cases hx <;> simp
    simp only [split, hR.kind ht, hR.sign ht (w := PrintAt.closing) (by decide),
      hR.sign ht (w := ",") (by decide), deeper_alike hR ht, hnone]
    split
    · rename_i hk
      have hinline : t.kind ≠ .newline := by rw [hR.kind ht, hk]; decide
      exact ⟨hfirst hx, .nil, .inr ⟨hinline, ht, .cons ht hmore⟩⟩
    · split
      · rename_i hk
        have hinline : t.kind ≠ .newline := by rw [hR.kind ht, hk.1]; decide
        have hrest : Runs d loose R false m m' := by rwa [beq_eq_false_iff_ne.2 hinline] at hmore
        cases hx with
        | none => exact ⟨hterm, .nil, .inr ⟨hinline, ht, hrest⟩⟩
        | some h => exact ⟨h, hterm, .inr ⟨hinline, ht, hrest⟩⟩
      · split
        · rename_i hk
          refine ih (.some hterm) .nil ?_
          rw [hR.kind ht, hk.1]
          rfl
        · refine ih hx hgrown ?_
          simp [Directive.atLineStart]
  | @left n m m' hl hn hmore ih =>
    have hgrown : Back d loose R (term ++ [n]).reverse term'.reverse := by
      rw [List.reverse_append]
      cases hrev : term.reverse with
      | nil => simp [hrev, Directive.atLineStart] at hb
      | cons k s =>
        rw [hrev] at hb hterm
        exact .left hl hn (beq_iff_eq.1 hb) hterm
    simp only [split, hn.kind, reduceCtorEq, false_and, if_false, deeper_ends hn]
    exact ih hx hgrown (by simp [Directive.atLineStart, hn.kind])
  | @right n m m' hl hn hmore ih =>
    have hgrown : Back d loose R term.reverse (term' ++ [n]).reverse := by
      have hb' := (hterm.atLineStart hR).symm.trans hb
      rw [List.reverse_append]
      cases hrev : term'.reverse with
      | nil => simp [hrev, Directive.atLineStart] at hb'
      | cons k s =>
        rw [hrev] at hb' hterm
        exact .right hl hn (beq_iff_eq.1 hb') hterm
    have hnext : Arguments.Alike d loose R (split depth x term last m)
        (split depth x' (term' ++ [n]) n m') := ih hx hgrown hb
    simpa only [split, hn.kind, reduceCtorEq, false_and, if_false, deeper_ends hn] using hnext

end PrintAt

end ClassicBasic
