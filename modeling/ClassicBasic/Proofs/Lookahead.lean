import ClassicBasic.Proofs.Captured
import ClassicBasic.Proofs.Invocation
import ClassicBasic.Proofs.Stages

/-!
# What a reader looks at

A reader of the first stage looks at the tokens it takes and, unless it takes the end of a line, at
one token behind them. So it takes the same from another input that agrees so far, and a step of the
first stage can be made again in front of another rest and behind another output that ends the same
way.
-/

set_option autoImplicit false

namespace ClassicBasic

variable {d : Dialect}

/-- Whether `left'` cannot be told from `left` by a reader whose last token is `last`. -/
def Behind (last : Token) (left left' : List Token) : Prop :=
  last.Inline → left'.head? = left.head?

theorem headD_congr {left left' : List Token} (h : left'.head? = left.head?) (read : List Token)
    (t : Token) : (read ++ left').headD t = (read ++ left).headD t := by
  rw [List.headD_eq_head?_getD, List.headD_eq_head?_getD, List.head?_append, List.head?_append, h]

theorem getLastD_append (t : Token) (l m : List Token) :
    (l ++ m).getLastD t = m.getLastD (l.getLastD t) := by
  induction l generalizing t with
  | nil => rfl
  | cons u l ih => rw [List.cons_append, List.getLastD_cons, List.getLastD_cons, ih]

/-- The end of a line is taken whatever follows it; what ends a line otherwise stays where it is. -/
theorem afterLineEnd_frame (t : Token) (rest : List Token) :
    ∃ taken, t :: rest = taken ++ afterLineEnd (t :: rest) ∧ ∀ last left', last.Inline →
      Behind (taken.getLastD last) (afterLineEnd (t :: rest)) left' →
        ∃ more, taken ++ left' = t :: more ∧ afterLineEnd (t :: more) = left' := by
  by_cases hk : t.kind = .newline
  · exact ⟨[t], by simp [afterLineEnd, hk], fun last left' _ _ => ⟨left', rfl, by simp [afterLineEnd, hk]⟩⟩
  · have hstay (rest : List Token) : afterLineEnd (t :: rest) = t :: rest := by simp [afterLineEnd, hk]
    refine ⟨[], (hstay rest).symm, fun last left' hl hb => ?_⟩
    rw [hstay] at hb
    have hhead := hb hl
    cases left' with
    | nil => cases hhead
    | cons u more =>
      simp only [List.head?_cons, Option.some.injEq] at hhead
      exact ⟨more, by rw [hhead]; rfl, by rw [hstay, hhead]⟩

theorem Bracketed.read_holding {opening closing : Text} {t content closer : Token}
    {rest after : List Token} (hne : opening ≠ closing)
    (h : read opening closing t rest = .ok (.holding content closer after)) :
    rest = content :: closer :: after ∧ ∀ after',
      read opening closing t (content :: closer :: after') = .ok (.holding content closer after') := by
  obtain ⟨rfl, hc⟩ := holding_eq hne h
  refine ⟨rfl, fun after' => ?_⟩
  unfold read at h ⊢
  simp only [List.headD_cons, List.tail_cons, List.drop_succ_cons, List.drop_zero] at h ⊢
  split at h
  · cases h
  · rename_i ho
    rw [if_neg ho]
    split at h
    · cases h
    · rename_i hb
      rw [if_neg hb, if_neg (by simp [hc])]

namespace Define

theorem readFallback_frame {l inner after : List Token} (h : readFallback l = .ok (inner, after)) :
    ∃ read, l = read ++ after ∧ ∀ after', readFallback (read ++ after') = .ok (inner, after') := by
  induction l generalizing inner with
  | nil => cases h
  | cons t rest ih =>
    simp only [readFallback] at h
    split at h
    · cases h
    · rename_i hl
      split at h
      · cases h
      · rename_i ho
        split at h
        · rename_i hc
          cases h
          exact ⟨[t], rfl, fun after' => by
            rw [List.cons_append, readFallback, if_neg hl, if_neg ho, if_pos hc]
            rfl⟩
        · rename_i hc
          obtain ⟨r, hr, he⟩ := Outcome.map_eq_ok_iff.1 h
          cases he
          obtain ⟨read, rfl, hread⟩ := ih hr
          refine ⟨t :: read, rfl, fun after' => ?_⟩
          rw [List.cons_append, readFallback, if_neg hl, if_neg ho, if_neg hc, hread]
          rfl

theorem readBody_frame {l : List Token} {r : List Token × Option (List Token) × List Token}
    (h : readBody l = .ok r) : ∃ read closer, l = read ++ closer :: r.2.2 ∧ closer.value = "]" ∧
      ∀ after', readBody (read ++ closer :: after') = .ok (r.1, r.2.1, after') := by
  fun_induction readBody l generalizing r with
  | case1 => cases h
  | case2 => cases h
  | case3 => cases h
  | case4 t rest hl ho inner after hf ih =>
    obtain ⟨s, hs, rfl⟩ := Outcome.map_eq_ok_iff.1 h
    obtain ⟨held, rfl, hheld⟩ := readFallback_frame hf
    obtain ⟨read, closer, rfl, hc, hread⟩ := ih hs
    refine ⟨t :: held ++ read, closer, by simp, hc, fun after' => ?_⟩
    rw [List.append_assoc, List.cons_append, readBody, if_neg hl, if_pos ho]
    split
    · rename_i hf'
      rw [hheld] at hf'
      cases hf'
    · rename_i hf'
      rw [hheld] at hf'
      cases hf'
      rw [hread]
      rfl
  | case5 t rest hl ho hc =>
    cases h
    refine ⟨[], t, rfl, hc, fun after' => ?_⟩
    rw [List.nil_append, readBody, if_neg hl, if_neg ho, if_pos hc]
  | case6 t rest hl ho hc ih =>
    obtain ⟨s, hs, rfl⟩ := Outcome.map_eq_ok_iff.1 h
    obtain ⟨read, closer, rfl, hclose, hread⟩ := ih hs
    refine ⟨t :: read, closer, rfl, hclose, fun after' => ?_⟩
    rw [List.cons_append, readBody, if_neg hl, if_neg ho, if_neg hc, hread]
    rfl

theorem readName_frame {table : Defines} {t name next : Token} {rest after : List Token}
    (h : readName table t rest = .ok (name, next, after)) (hn : next.value ≠ "]") :
    ∃ read, rest = read ++ next :: after ∧ ∀ after',
      readName table t (read ++ next :: after') = .ok (name, next, after') := by
  unfold readName at h
  split at h
  · cases h
  · cases h
  · rename_i b closer more hb
    obtain ⟨htail, hread⟩ := Bracketed.read_holding (by decide) hb
    have hclose := (Bracketed.holding_eq (by decide) hb).2
    split at h
    · cases h
    · rename_i hname
      split at h
      · cases h
      · rename_i hnew
        cases h
        obtain ⟨opening, rfl⟩ : ∃ opening, rest = opening :: name :: closer :: more := by
          cases rest with
          | nil => cases htail
          | cons opening rest => exact ⟨opening, by rw [← htail]; rfl⟩
        cases more with
        | nil => exact absurd hclose hn
        | cons u more =>
          refine ⟨[opening, name, closer], rfl, fun after' => ?_⟩
          simp only [List.headD_cons, List.cons_append, List.nil_append] at hread ⊢
          rw [readName]
          simp only [List.headD_cons, List.tail_cons, hread]
          rw [if_neg hname, if_neg hnew]

theorem rest_of_line_frame {body : List Token} {last : Token}
    (hlast : (body.takeWhile fun t => !t.endsLine) = [] → last.Inline) :
    ∃ read, body = read ++ afterLineEnd (body.dropWhile fun t => !t.endsLine) ∧ ∀ left',
      Behind (read.getLastD last) (afterLineEnd (body.dropWhile fun t => !t.endsLine)) left' →
        ((read ++ left').takeWhile fun t => !t.endsLine) = (body.takeWhile fun t => !t.endsLine) ∧
        afterLineEnd ((read ++ left').dropWhile fun t => !t.endsLine) = left' := by
  induction body generalizing last with
  | nil =>
    refine ⟨[], rfl, fun left' hb => ?_⟩
    have hleft := hb (hlast rfl)
    simp only [List.dropWhile_nil, afterLineEnd, List.head?_nil, List.head?_eq_none_iff] at hleft
    rw [hleft]
    exact ⟨rfl, rfl⟩
  | cons t rest ih =>
    by_cases ht : t.endsLine = true
    · have htake (more : List Token) : ((t :: more).takeWhile fun t => !t.endsLine) = [] :=
        List.takeWhile_cons_of_neg (by simp [ht])
      have hdrop (more : List Token) : ((t :: more).dropWhile fun t => !t.endsLine) = t :: more :=
        List.dropWhile_cons_of_neg (by simp [ht])
      obtain ⟨taken, htaken, hframe⟩ := afterLineEnd_frame t rest
      rw [hdrop]
      refine ⟨taken, htaken, fun left' hb => ?_⟩
      obtain ⟨more, heq, hafter⟩ := hframe last left' (hlast (htake rest)) hb
      rw [heq, hdrop, htake, htake]
      exact ⟨rfl, hafter⟩
    · have hline : t.endsLine = false := by simpa using ht
      have htake (more : List Token) : ((t :: more).takeWhile fun t => !t.endsLine) =
          t :: more.takeWhile fun t => !t.endsLine := List.takeWhile_cons_of_pos (by simp [hline])
      have hdrop (more : List Token) : ((t :: more).dropWhile fun t => !t.endsLine) =
          more.dropWhile fun t => !t.endsLine := List.dropWhile_cons_of_pos (by simp [hline])
      obtain ⟨read, hread, hframe⟩ := ih fun _ => Token.inline_of_endsLine hline
      rw [hdrop]
      refine ⟨t :: read, congrArg (t :: ·) hread, fun left' hb => ?_⟩
      rw [List.getLastD_cons] at hb
      obtain ⟨hsame, hafter⟩ := hframe left' hb
      rw [List.cons_append, hdrop, htake, htake, hsame]
      exact ⟨rfl, hafter⟩

theorem readParametric_frame {name opening : Token} {rest left : List Token} {m : Define}
    (h : readParametric name opening rest = .ok (m, left)) :
    ∃ read, rest = read ++ left ∧ ∀ left', Behind (read.getLastD opening) left left' →
      readParametric name opening (read ++ left') = .ok (m, left') := by
  unfold readParametric at h
  dsimp only at h
  split at h
  · cases h
  · rename_i hp
    split at h
    · cases h
    · rename_i hc
      split at h
      · cases h
      · rename_i hne
        match rest, h, hp, hc, hne with
        | [], _, _, _, hne => exact absurd rfl hne
        | [_], _, _, _, hne => exact absurd rfl hne
        | parameter :: closer :: body, h, hp, hc, hne =>
          simp only [List.headD_cons, List.tail_cons, List.drop_succ_cons, List.drop_zero] at hp hc hne
          obtain ⟨read, hread, hframe⟩ := @rest_of_line_frame body closer fun h => absurd h hne
          cases h
          refine ⟨parameter :: closer :: read, congrArg (parameter :: closer :: ·) hread, fun left' hb => ?_⟩
          rw [List.getLastD_cons, List.getLastD_cons] at hb
          obtain ⟨hsame, hafter⟩ := hframe left' hb
          rw [List.cons_append, List.cons_append, readParametric]
          simp only [List.headD_cons, List.tail_cons, List.drop_succ_cons, List.drop_zero]
          rw [if_neg hp, if_neg hc, hsame, if_neg hne, hafter]
          rfl

theorem readLine_parametric {table : Defines} {t name next : Token} {rest after : List Token}
    (hn : readName table t rest = .ok (name, next, after)) (hg : next.kind = .symbol ∧ next.value = "(") :
    readLine table t rest = (readParametric name next after).map fun r => (table ++ [r.1], r.2) := by
  rw [readLine]
  split
  · rename_i he
    rw [hn] at he
    cases he
  · rename_i he
    rw [hn] at he
    cases he
    rw [if_pos hg]

theorem readLine_bracketed {table : Defines} {t name next u : Token} {rest after left body : List Token}
    {fallback : Option (List Token)} (hn : readName table t rest = .ok (name, next, after))
    (hg : ¬(next.kind = .symbol ∧ next.value = "(")) (hv : ¬next.value ≠ "[")
    (hb : readBody after = .ok (body, fallback, u :: left)) :
    readLine table t rest =
      if u.value = "," then
        readLine (table ++ [{ name := name.lower, body, fallback := fallback.getD [] }]) u left
      else if u.endsLine then
        .ok (table ++ [{ name := name.lower, body, fallback := fallback.getD [] }],
          afterLineEnd (u :: left))
      else .error (u.failure (.expecting ",")) := by
  rw [readLine]
  split
  · rename_i he
    rw [hn] at he
    cases he
  · rename_i he
    rw [hn] at he
    cases he
    rw [if_neg hg, if_neg hv]
    split
    · rename_i he
      rw [hb] at he
      cases he
    · rename_i he
      rw [hb] at he
      cases he
    · rename_i he
      rw [hb] at he
      cases he
      rfl

theorem readLine_frame {table : Defines} {t : Token} {rest : List Token} {r : Defines × List Token}
    (h : readLine table t rest = .ok r) :
    ∃ read, rest = read ++ r.2 ∧ ∀ left', Behind (read.getLastD t) r.2 left' →
      readLine table t (read ++ left') = .ok (r.1, left') := by
  fun_induction readLine table t rest generalizing r with
  | case1 => cases h
  | case2 table t rest name next after hn hg =>
    obtain ⟨r, hr, rfl⟩ := Outcome.map_eq_ok_iff.1 h
    obtain ⟨front, rfl, hfront⟩ := readName_frame hn (by rw [hg.2]; decide)
    obtain ⟨read, rfl, hread⟩ := readParametric_frame hr
    refine ⟨front ++ next :: read, by simp, fun left' hb => ?_⟩
    rw [getLastD_append, List.getLastD_cons] at hb
    rw [List.append_assoc, List.cons_append, readLine_parametric (hfront _) hg, hread left' hb]
    rfl
  | case3 => cases h
  | case4 => cases h
  | case5 => cases h
  | case6 table t rest name next after hn hg hv body fallback u left hb =>
    rename_i hcomma ih
    obtain ⟨front, rfl, hfront⟩ := readName_frame hn (by rw [not_not.1 hv]; decide)
    obtain ⟨held, closer, rfl, -, hbody⟩ := readBody_frame hb
    obtain ⟨read, rfl, hread⟩ := ih h
    refine ⟨front ++ next :: (held ++ closer :: u :: read), by simp, fun left' hb => ?_⟩
    rw [getLastD_append, List.getLastD_cons, getLastD_append, List.getLastD_cons, List.getLastD_cons] at hb
    rw [List.append_assoc, List.cons_append, List.append_assoc, List.cons_append, List.cons_append,
      readLine_bracketed (hfront _) hg hv (hbody _), if_pos hcomma]
    exact hread left' hb
  | case7 table t rest name next after hn hg hv body fallback u left hb =>
    rename_i hcomma hends
    cases h
    obtain ⟨front, rfl, hfront⟩ := readName_frame hn (by rw [not_not.1 hv]; decide)
    obtain ⟨held, closer, rfl, hc, hbody⟩ := readBody_frame hb
    obtain ⟨taken, htaken, hframe⟩ := afterLineEnd_frame u left
    refine ⟨front ++ next :: (held ++ closer :: taken), by simp [← htaken], fun left' hb => ?_⟩
    rw [getLastD_append, List.getLastD_cons, getLastD_append, List.getLastD_cons] at hb
    obtain ⟨more, heq, hafter⟩ := hframe closer left' (.inr (by rw [hc]; decide)) hb
    rw [List.append_assoc, List.cons_append, List.append_assoc, List.cons_append, heq,
      readLine_bracketed (hfront _) hg hv (hbody _), if_neg hcomma, if_pos hends, hafter]
  | case8 => cases h

end Define

namespace Routine

theorem splitArguments_frame {depth : Nat} {run l : List Token}
    {r : List (List Token) × Token × List Token} (h : splitArguments depth run l = .ok r) :
    ∃ read, l = read ++ r.2.1 :: r.2.2 ∧ r.2.1.value = ")" ∧
      ∀ after', splitArguments depth run (read ++ r.2.1 :: after') = .ok (r.1, r.2.1, after') := by
  induction l generalizing depth run r with
  | nil => cases h
  | cons t rest ih =>
    simp only [splitArguments] at h
    split at h
    · cases h
    · rename_i hl
      split at h
      · rename_i ho
        obtain ⟨read, rfl, hclose, hread⟩ := ih h
        refine ⟨t :: read, rfl, hclose, fun after' => ?_⟩
        rw [List.cons_append, splitArguments, if_neg hl, if_pos ho, hread]
      · rename_i ho
        split at h
        · rename_i hc
          obtain ⟨s, hs, rfl⟩ := Outcome.map_eq_ok_iff.1 h
          obtain ⟨read, rfl, hclose, hread⟩ := ih hs
          refine ⟨t :: read, rfl, hclose, fun after' => ?_⟩
          rw [List.cons_append, splitArguments, if_neg hl, if_neg ho, if_pos hc, hread]
          rfl
        · rename_i hc
          split at h
          · rename_i hv
            split at h
            · rename_i hd
              cases h
              refine ⟨[], rfl, hv, fun after' => ?_⟩
              rw [List.nil_append, splitArguments, if_neg hl, if_neg ho, if_neg hc, if_pos hv, if_pos hd]
            · rename_i hd
              obtain ⟨read, rfl, hclose, hread⟩ := ih h
              refine ⟨t :: read, rfl, hclose, fun after' => ?_⟩
              rw [List.cons_append, splitArguments, if_neg hl, if_neg ho, if_neg hc, if_pos hv,
                if_neg hd, hread]
          · rename_i hv
            obtain ⟨read, rfl, hclose, hread⟩ := ih h
            refine ⟨t :: read, rfl, hclose, fun after' => ?_⟩
            rw [List.cons_append, splitArguments, if_neg hl, if_neg ho, if_neg hc, if_neg hv, hread]

theorem argumentList_frame {fn : Token} {rest : List Token}
    {r : List (List Token) × Token × List Token} (h : argumentList fn rest = .ok r) :
    ∃ read, rest = read ++ r.2.1 :: r.2.2 ∧ r.2.1.value = ")" ∧
      ∀ after', argumentList fn (read ++ r.2.1 :: after') = .ok (r.1, r.2.1, after') := by
  unfold argumentList at h
  dsimp only at h
  split at h
  · cases h
  · rename_i hk
    split at h
    · cases h
    · rename_i ho
      match rest, h, ho with
      | [], h, ho =>
        have hopen : fn.value = "(" := not_not.1 ho
        rw [if_neg (by rw [List.tail_nil, List.headD_nil, List.headD_nil, hopen]; decide)] at h
        cases h
      | [opening], h, ho =>
        have hopen : opening.value = "(" := not_not.1 ho
        rw [if_neg (by rw [List.tail_cons, List.headD_nil, List.headD_cons, hopen]; decide)] at h
        cases h
      | opening :: closer :: body, h, ho =>
        have hopen : ¬opening.value ≠ "(" := ho
        simp only [List.headD_cons, List.tail_cons, List.drop_succ_cons, List.drop_zero] at h
        split at h
        · rename_i hc
          cases h
          refine ⟨[opening], rfl, hc, fun after' => ?_⟩
          simp only [argumentList, List.cons_append, List.nil_append, List.headD_cons, List.tail_cons,
            List.drop_succ_cons, List.drop_zero]
          rw [if_neg hk, if_neg hopen, if_pos hc]
        · rename_i hc
          obtain ⟨read, hread, hclosed, hframe⟩ := splitArguments_frame h
          refine ⟨opening :: read, by rw [hread]; rfl, hclosed, fun after' => ?_⟩
          have hhead : (read ++ r.2.1 :: after').headD opening = closer := by
            cases read with
            | nil => exact ((List.cons.inj hread).1).symm
            | cons u read => exact ((List.cons.inj hread).1).symm
          have hclose : ¬((opening :: (read ++ r.2.1 :: after')).tail.headD opening).value = ")" := by
            rw [List.tail_cons, hhead]
            exact hc
          rw [List.cons_append, argumentList, if_neg hk, if_neg (by exact ho), if_neg (by exact hclose)]
          exact hframe after'

theorem splitResults_frame (run : List Token) (last : Token) (l : List Token) :
    ∃ read, l = read ++ (splitResults run last l).2.2 ∧
      (∀ u ∈ read, endsResults u = false) ∧
      ∀ left', left'.head? = (splitResults run last l).2.2.head? →
        splitResults run last (read ++ left') =
          ((splitResults run last l).1, (splitResults run last l).2.1, left') := by
  induction l generalizing run last with
  | nil =>
    refine ⟨[], rfl, by simp, fun left' h => ?_⟩
    simp only [splitResults, List.head?_nil, List.head?_eq_none_iff] at h
    rw [h]
    rfl
  | cons t rest ih =>
    by_cases ht : endsResults t = true
    · refine ⟨[], by simp [splitResults, ht], by simp, fun left' h => ?_⟩
      simp only [splitResults, ht, if_true, List.head?_cons] at h ⊢
      obtain ⟨more, rfl⟩ : ∃ more, left' = t :: more := by
        cases left' with
        | nil => cases h
        | cons u more => exact ⟨more, by rw [Option.some.inj h]⟩
      rw [List.nil_append, splitResults, if_pos ht]
    · by_cases hc : t.value = ","
      · obtain ⟨read, hread, hends, hframe⟩ := ih [] t
        simp only [splitResults, if_neg ht, if_pos hc]
        refine ⟨t :: read, congrArg (t :: ·) hread, ?_, fun left' h => ?_⟩
        · simpa using ⟨by simpa using ht, hends⟩
        · rw [List.cons_append, splitResults, if_neg ht, if_pos hc, hframe left' h]
      · obtain ⟨read, hread, hends, hframe⟩ := ih (run ++ [t]) t
        simp only [splitResults, if_neg ht, if_neg hc]
        refine ⟨t :: read, congrArg (t :: ·) hread, ?_, fun left' h => ?_⟩
        · simpa using ⟨by simpa using ht, hends⟩
        · rw [List.cons_append, splitResults, if_neg ht, if_neg hc, hframe left' h]

theorem resultList_frame (ret : Token) (rest : List Token) :
    ∃ read, rest = read ++ (resultList ret rest).2.2 ∧ (∀ u ∈ read, endsResults u = false) ∧
      ∀ left', left'.head? = (resultList ret rest).2.2.head? →
        resultList ret (read ++ left') =
          ((resultList ret rest).1, (resultList ret rest).2.1, left') := by
  by_cases he : endsResults (rest.headD ret) = true
  · rw [resultList, if_pos he]
    refine ⟨[], rfl, by simp, fun left' h => ?_⟩
    have hhead := headD_congr h [] ret
    rw [List.nil_append, List.nil_append] at hhead
    rw [List.nil_append, resultList, hhead, if_pos he]
  · rw [resultList, if_neg he]
    obtain ⟨read, hread, hends, hframe⟩ := splitResults_frame [] ret rest
    refine ⟨read, hread, hends, fun left' h => ?_⟩
    have hhead := headD_congr h read ret
    rw [← hread] at hhead
    rw [resultList, hhead, if_neg he, hframe left' h]

end Routine

theorem Declaration.read_frame {t u : Token} {rest after : List Token} {e : Declaration}
    (h : read d t rest = .ok (e, u :: after)) : ∃ front, rest = front ++ u :: after ∧
      (front.getLastD t).Inline ∧ ∀ after', read d t (front ++ u :: after') = .ok (e, u :: after') := by
  unfold read at h
  dsimp only at h
  split at h
  · cases h
  · rename_i hname
    split at h
    · cases h
    · rename_i hlong
      split at h
      · cases h
      · rename_i hfree
        rcases rest with _ | ⟨long, _ | ⟨next, more⟩⟩
        · split at h
          · cases h
          · split at h
            · cases h
            · split at h <;> cases h
        · split at h
          · cases h
          · split at h
            · cases h
            · split at h <;> cases h
        · split at h
          · rename_i hends
            cases h
            have hin : long.Inline :=
              Token.inline_of_isName (by simpa [Dialect.isIdentifier] using hname)
            refine ⟨[long], rfl, hin, fun after' => ?_⟩
            rw [List.cons_append, read, if_neg (by exact hname), if_neg (by exact hlong),
              if_neg (by exact hfree), if_pos (by exact hends)]
            rfl
          · rename_i hends
            split at h
            · cases h
            · rename_i hcolon
              split at h
              · cases h
              · rename_i hshort
                rcases more with _ | ⟨short, _ | ⟨v, more⟩⟩
                · cases h
                · cases h
                · cases h
                  have hin : short.Inline := Token.inline_of_isShortName (by simpa using hshort)
                  refine ⟨[long, next, short], rfl, hin, fun after' => ?_⟩
                  rw [List.cons_append, read, if_neg (by exact hname), if_neg (by exact hlong),
                    if_neg (by exact hfree), if_neg (by exact hends), if_neg (by exact hcolon),
                    if_neg (by exact hshort)]
                  rfl

namespace Conversion

variable {quiet : Bool}

/-- Whether a DECLARE line behind `t` leads from `σ` to `τ` and leaves `left` of the tokens. -/
def Declared (d : Dialect) (quiet : Bool) (t : Token) (rest : List Token) (σ : Session)
    (left : List Token) (τ : Session) : Prop :=
  ∃ r, declareLine d quiet t rest σ = .ok r τ ∧ r.1 = left

/-- A DECLARE line is an entry, and then more entries behind a comma or the end of the line. -/
theorem declared_iff {t : Token} {rest left : List Token} {σ τ : Session} :
    Declared d quiet t rest σ left τ ↔ ∃ e u more ρ,
      Declaration.read d t rest = .ok (e, u :: more) ∧
      enter quiet e σ = .ok () ρ ∧
      ((u.value = "," ∧ Declared d quiet u more ρ left τ) ∨
        (u.value ≠ "," ∧ u.endsLine = true ∧ ρ = τ ∧ afterLineEnd (u :: more) = left)) := by
  unfold Declared
  fun_cases declareLine d quiet t rest with
  | case1 _ he =>
    constructor
    · rintro ⟨r, h, -⟩
      exact absurd h throw_ne_ok
    · rintro ⟨e, u, more, ρ, hr, -⟩
      rw [he] at hr
      cases hr
  | case2 entry after hr =>
    constructor
    · rintro ⟨r, h, rfl⟩
      obtain ⟨⟨⟩, ρ, henter, h⟩ := bind_eq_ok_iff.1 h
      split at h
      · exact absurd h throw_ne_ok
      · rename_i u more _
        refine ⟨entry, u, more, ρ, hr, henter, ?_⟩
        split at h
        · rename_i hcomma
          obtain ⟨final, ρ'', hfinal, h⟩ := bind_eq_ok_iff.1 h
          obtain ⟨rfl, rfl⟩ := pure_eq_ok_iff.1 h
          exact .inl ⟨hcomma, final, hfinal, rfl⟩
        · rename_i hcomma
          split at h
          · rename_i hends
            obtain ⟨rfl, rfl⟩ := pure_eq_ok_iff.1 h
            exact .inr ⟨hcomma, hends, rfl, rfl⟩
          · exact absurd h throw_ne_ok
    · rintro ⟨e, u, more, ρ, hr', henter, h⟩
      rw [hr] at hr'
      cases hr'
      have hlen := Declaration.length_read hr
      simp only [List.length_cons] at hlen
      rcases h with ⟨hcomma, final, hfinal, rfl⟩ | ⟨hcomma, hends, rfl, rfl⟩
      · have hle : final.1.length ≤ rest.length := by
          have := final.2
          omega
        refine ⟨⟨final.1, hle⟩, bind_eq_ok_iff.2 ⟨(), ρ, henter, ?_⟩, rfl⟩
        dsimp only
        rw [if_pos hcomma]
        exact bind_eq_ok_iff.2 ⟨final, τ, hfinal, rfl⟩
      · have hle : (afterLineEnd (u :: more)).length ≤ rest.length := by
          have := length_afterLineEnd (u :: more)
          simp only [List.length_cons] at this
          omega
        refine ⟨⟨_, hle⟩, bind_eq_ok_iff.2 ⟨(), ρ, henter, ?_⟩, rfl⟩
        dsimp only
        rw [if_neg hcomma, if_pos hends]
        rfl

theorem declared_frame {t : Token} {rest left : List Token} {σ τ : Session}
    (h : Declared d quiet t rest σ left τ) :
    ∃ read, rest = read ++ left ∧ ∀ left', Behind (read.getLastD t) left left' →
      Declared d quiet t (read ++ left') σ left' τ := by
  obtain ⟨e, u, more, ρ, hr, henter, hnext⟩ := declared_iff.1 h
  have hshort : more.length < rest.length := Declaration.length_read hr
  obtain ⟨front, rfl, hin, hfront⟩ := Declaration.read_frame hr
  rcases hnext with ⟨hcomma, hmore⟩ | ⟨hcomma, hends, rfl, rfl⟩
  · obtain ⟨read, rfl, hframe⟩ := declared_frame hmore
    refine ⟨front ++ u :: read, by simp, fun left' hb => ?_⟩
    rw [getLastD_append, List.getLastD_cons] at hb
    rw [List.append_assoc, List.cons_append]
    exact declared_iff.2 ⟨e, u, read ++ left', ρ, hfront _, henter, .inl ⟨hcomma, hframe left' hb⟩⟩
  · obtain ⟨taken, htaken, hframe⟩ := afterLineEnd_frame u more
    refine ⟨front ++ taken, by rw [List.append_assoc, ← htaken], fun left' hb => ?_⟩
    rw [getLastD_append] at hb
    obtain ⟨more', hmore, hafter⟩ := hframe _ left' hin hb
    rw [List.append_assoc, hmore]
    exact declared_iff.2 ⟨e, u, more', ρ, hfront _, henter, .inr ⟨hcomma, hends, rfl, hafter⟩⟩
termination_by rest.length
decreasing_by omega

end Conversion

namespace Define

theorem read_frame {table : Defines} {t : Token} {rest : List Token} {r : List Token × List Token}
    (ht : Opens t) (h : read table t rest = .ok r) :
    ∃ front closer, rest = front ++ closer :: r.2 ∧ closer.Inline ∧
      ∀ left', left'.head? = r.2.head? →
        read table t (front ++ closer :: left') = .ok (r.1, left') := by
  obtain ⟨w, hsingle, hw, htokens, hstops, hexp⟩ := (read_eq_ok_iff_legible ht).1 h
  have again {left' : List Token} (hs : w.Stops left') {front : List Token}
      (hf : t :: front = w.tokens ++ left') : read table t front = .ok (r.1, left') :=
    (read_eq_ok_iff_legible ht).2 ⟨w, hsingle, hw, hf, hs, hexp⟩
  cases hsingle with
  | bare opening name closing =>
    obtain ⟨rfl, rfl⟩ := List.cons.inj htokens
    cases hw with | bare ho hn hu hm =>
    refine ⟨[name], closing, rfl, Token.inline_of_value hn.closed (by decide), fun left' hl => ?_⟩
    refine again (fun u hu => ?_) rfl
    rw [hl] at hu
    exact hstops u hu
  | filled opening name closing left content right =>
    obtain ⟨rfl, rfl⟩ := List.cons.inj htokens
    cases hw with | filled ho hn hg hc hb hr hl hm =>
    refine ⟨name :: closing :: left :: content.tokens, right, by simp [Writing.tokens],
      Token.inline_of_value hr (by decide), fun left' _ => ?_⟩
    exact again trivial (by simp [Writing.tokens])

end Define

namespace Directive

theorem skipLine_frame {tag : Token} {l left : List Token} (h : skipLine tag l = .ok left) :
    ∃ read last, l = read ++ last :: left ∧ last.kind = .newline ∧
      ∀ left', skipLine tag (read ++ last :: left') = .ok left' := by
  induction l with
  | nil => cases h
  | cons t rest ih =>
    simp only [skipLine] at h
    split at h
    · cases h
    · rename_i he
      split at h
      · rename_i hk
        cases h
        refine ⟨[], t, rfl, hk, fun left' => ?_⟩
        rw [List.nil_append, skipLine, if_neg he, if_pos hk]
      · rename_i hk
        obtain ⟨read, last, rfl, hlast, hframe⟩ := ih h
        refine ⟨t :: read, last, rfl, hlast, fun left' => ?_⟩
        rw [List.cons_append, skipLine, if_neg he, if_neg hk, hframe]

theorem skipBlock_frame {tag last : Token} {l left : List Token}
    (h : skipBlock tag last l = .ok left) :
    ∃ read closer, l = read ++ closer :: left ∧ closer.kind = .toggle ∧
      (∃ (newline : Token) (more : List Token), left = newline :: more ∧ newline.kind = .newline) ∧
      ∀ left', left'.head? = left.head? → skipBlock tag last (read ++ closer :: left') = .ok left' := by
  induction l generalizing last with
  | nil => cases h
  | cons t rest ih =>
    simp only [skipBlock] at h
    split at h
    · cases h
    · rename_i he
      split at h
      · rename_i hc
        cases h
        have hnext : ∃ (n : Token) (more : List Token), left = n :: more ∧ n.kind = .newline := by
          cases left with
          | nil =>
            have := hc.2.2.2
            rw [List.headD_nil, hc.1] at this
            cases this
          | cons n more => exact ⟨n, more, rfl, hc.2.2.2⟩
        refine ⟨[], t, rfl, hc.1, hnext, fun left' hh => ?_⟩
        have hhead := headD_congr hh [] t
        simp only [List.nil_append] at hhead
        rw [List.nil_append, skipBlock, if_neg he, if_pos (by rwa [hhead])]
      · rename_i hc
        obtain ⟨read, closer, rfl, hk, hnext, hframe⟩ := ih h
        refine ⟨t :: read, closer, rfl, hk, hnext, fun left' hh => ?_⟩
        have hhead : (read ++ closer :: left').headD t = (read ++ closer :: left).headD t := by
          cases read <;> rfl
        rw [List.cons_append, skipBlock, if_neg he, if_neg (by rwa [hhead]), hframe left' hh]

theorem skipToggled_frame {tag : Token} {l left : List Token} (h : skipToggled tag l = .ok left) :
    ∃ read last, l = read ++ last :: left ∧
      ∀ left', Behind last left left' → skipToggled tag (read ++ last :: left') = .ok left' := by
  have hhead (read : List Token) (last : Token) (left' : List Token) :
      (read ++ last :: left').headD tag = (read ++ last :: left).headD tag := by
    cases read <;> rfl
  unfold skipToggled at h
  split at h
  · rename_i hn
    obtain ⟨read, closer, rfl, hk, -, hframe⟩ := skipBlock_frame h
    refine ⟨read, closer, rfl, fun left' hb => ?_⟩
    rw [skipToggled, hhead, if_pos hn]
    exact hframe left' (hb (.inl (by simp [hk])))
  · rename_i hn
    obtain ⟨read, last, rfl, -, hframe⟩ := skipLine_frame h
    refine ⟨read, last, rfl, fun left' _ => ?_⟩
    rw [skipToggled, hhead, if_neg hn, hframe]

theorem keepTags_frame {keeps : List Text} {l : List Token} {r : List Text × List Token}
    {last : Token} (hlast : last.Inline) (h : keepTags keeps l = .ok r) :
    ∃ read, l = read ++ r.2 ∧ ∀ left', Behind (read.getLastD last) r.2 left' →
      keepTags keeps (read ++ left') = .ok (r.1, left') := by
  induction l generalizing keeps last with
  | nil => cases h
  | cons t rest ih =>
    simp only [keepTags] at h
    split at h
    · rename_i hends
      cases h
      obtain ⟨taken, htaken, hframe⟩ := afterLineEnd_frame t rest
      refine ⟨taken, htaken, fun left' hb => ?_⟩
      obtain ⟨more, hmore, hafter⟩ := hframe last left' hlast hb
      rw [hmore, keepTags, if_pos hends, hafter]
    · rename_i hends
      split at h
      · cases h
      · rename_i hk
        split at h
        · cases h
        · rename_i hnew
          have hin : t.Inline := Token.inline_of_endsLine (by simpa using hends)
          obtain ⟨read, rfl, hframe⟩ := ih hin h
          refine ⟨t :: read, rfl, fun left' hb => ?_⟩
          rw [List.getLastD_cons] at hb
          rw [List.cons_append, keepTags, if_neg hends, if_neg hk, if_neg hnew, hframe left' hb]

theorem openRoutine_frame {tables : Tables} {t : Token} {rest : List Token}
    {r : Tables × Token × List Token} (ht : t.kind ≠ .functionName)
    (h : openRoutine tables t rest = .ok r) :
    ∃ read closer, rest = read ++ closer :: r.2.2 ∧ closer.Inline ∧
      ∀ after', openRoutine tables t (read ++ closer :: after') = .ok (r.1, r.2.1, after') := by
  unfold openRoutine at h
  dsimp only at h
  split at h
  · cases h
  · rename_i hopened
    split at h
    · cases h
    · rename_i hnew
      split at h
      · cases h
      · rename_i runs closer after ha
        split at h
        · cases h
        · rename_i ps hps
          cases h
          obtain ⟨read, hread, hc, hframe⟩ := Routine.argumentList_frame ha
          cases rest with
          | nil =>
            rw [Routine.argumentList, if_pos (by exact ht)] at ha
            cases ha
          | cons fn rest =>
            simp only [List.headD_cons, List.tail_cons] at hread hframe hps hnew
            refine ⟨fn :: read, closer, by rw [hread]; rfl, Token.inline_of_value hc (by decide),
              fun after' => ?_⟩
            unfold openRoutine
            simp only [List.cons_append, List.headD_cons, List.tail_cons, hopened, hframe, hps]
            rw [if_neg hnew]

theorem closeRoutine_frame {tables : Tables} {t : Token} {rest : List Token}
    {r : Tables × List Token × List Token} (h : closeRoutine d tables t rest = .ok r) :
    ∃ read, rest = read ++ r.2.2 ∧ (∀ u ∈ read, u.Inline) ∧ ∀ left', left'.head? = r.2.2.head? →
      closeRoutine d tables t (read ++ left') = .ok (r.1, r.2.1, left') := by
  unfold closeRoutine at h
  split at h
  · cases h
  · rename_i fn ps hopened
    dsimp only at h
    split at h
    · cases h
    · rename_i hall
      cases h
      obtain ⟨read, hread, hends, hframe⟩ := Routine.resultList_frame t rest
      refine ⟨read, hread, fun u hu => ?_, fun left' hh => ?_⟩
      · have := hends u hu
        simp only [Routine.endsResults, Bool.or_eq_false_iff] at this
        exact Token.inline_of_endsLine this.2
      · unfold closeRoutine
        simp only [hopened, hframe left' hh]
        rw [if_neg hall]

/-- The kind of the last token of an output (last token first). -/
def lastKind (out : List Token) : Option Kind := out.head?.map Token.kind

theorem atLineStart_eq (out : List Token) : atLineStart out = (lastKind out == some .newline) := by
  cases out <;> rfl

theorem atLineStart_congr {out out' : List Token} (h : lastKind out' = lastKind out) :
    atLineStart out' = atLineStart out := by
  rw [atLineStart_eq, atLineStart_eq, h]

/-- What the stage `f` does in front of `rest` with the output `out`, it does in front of anything that
looks the same to it and with any output that ends with a token of the same kind. `read` is what it
takes and `new` is what it puts out. -/
structure Replays (f : List Token → List Token → Except Failure Progress) (out : List Token) (t : Token)
    (rest : List Token) (p : Progress) (read new : List Token) : Prop where
  rest_eq : rest = read ++ p.rest
  out_eq : p.out = new ++ out
  starts : ¬(read.getLastD t).Inline → atLineStart p.out = true
  again : ∀ out' left', lastKind out' = lastKind out → Behind (read.getLastD t) p.rest left' →
    f out' (read ++ left') = .ok ⟨p.tables, new ++ out', left'⟩

theorem obey_frame {tables : Tables} {out rest : List Token} {t : Token} {p : Progress}
    (hk : t.kind = .directive) (h : obey d tables out t rest = .ok p) :
    ∃ read new, Replays (obey d tables · t ·) out t rest p read new := by
  have hin : t.Inline := .inl (by simp [hk])
  unfold obey at h
  dsimp only at h
  split at h
  · rename_i h₁
    cases h
    refine ⟨[], [t], rfl, rfl, fun hn => absurd hin hn, fun out' left' _ _ => ?_⟩
    simp only [obey]
    rw [if_pos h₁]
    rfl
  · rename_i h₁
    split at h
    · rename_i h₂
      cases h
      refine ⟨[], [], rfl, rfl, fun hn => absurd hin hn, fun out' left' _ _ => ?_⟩
      simp only [obey]
      rw [if_neg h₁, if_pos h₂]
      rfl
    · rename_i h₂
      split at h
      · rename_i h₃
        obtain ⟨r, hr, rfl⟩ := Outcome.map_eq_ok_iff.1 h
        obtain ⟨read, hread, hframe⟩ := Define.readLine_frame hr
        refine ⟨read, [], hread, rfl, fun _ => (Bool.and_eq_true_iff.1 h₃).2, fun out' left' ho hb => ?_⟩
        simp only [obey, atLineStart_congr ho]
        rw [if_neg h₁, if_neg h₂, if_pos h₃, hframe left' hb]
        rfl
      · rename_i h₃
        split at h
        · rename_i h₄
          obtain ⟨r, hr, rfl⟩ := Outcome.map_eq_ok_iff.1 h
          obtain ⟨read, hread, hframe⟩ := keepTags_frame hin hr
          refine ⟨read, [], hread, rfl, fun _ => (Bool.and_eq_true_iff.1 h₄).2, fun out' left' ho hb => ?_⟩
          simp only [obey, atLineStart_congr ho]
          rw [if_neg h₁, if_neg h₂, if_neg h₃, if_pos h₄, hframe left' hb]
          rfl
        · rename_i h₄
          split at h
          · rename_i h₅
            obtain ⟨r, hr, rfl⟩ := Outcome.map_eq_ok_iff.1 h
            obtain ⟨read, closer, hread, hc, hframe⟩ := openRoutine_frame (by simp [hk]) hr
            refine ⟨read ++ [closer], [r.2.1], by simp [hread], rfl, fun hn => absurd hc ?_,
              fun out' left' ho _ => ?_⟩
            · rwa [List.getLastD_concat] at hn
            · simp only [obey, atLineStart_congr ho]
              rw [if_neg h₁, if_neg h₂, if_neg h₃, if_neg h₄, if_pos h₅, List.append_assoc,
                List.cons_append, List.nil_append, hframe left']
              rfl
          · rename_i h₅
            split at h
            · rename_i h₆
              obtain ⟨r, hr, rfl⟩ := Outcome.map_eq_ok_iff.1 h
              obtain ⟨read, hread, hall, hframe⟩ := closeRoutine_frame hr
              have hlast : (read.getLastD t).Inline := by
                rw [List.getLastD_eq_getLast?]
                cases hg : read.getLast? with
                | none => exact hin
                | some u => exact hall u (List.mem_of_getLast? hg)
              refine ⟨read, r.2.1.reverse, hread, rfl, fun hn => absurd hlast hn, fun out' left' ho hb => ?_⟩
              simp only [obey, atLineStart_congr ho]
              rw [if_neg h₁, if_neg h₂, if_neg h₃, if_neg h₄, if_neg h₅, if_pos h₆,
                hframe left' (hb hlast)]
              rfl
            · cases h

theorem asCall_congr {out out' rest rest' : List Token} {t : Token} (ho : lastKind out' = lastKind out)
    (hr : t.kind = .joiner → rest'.head? = rest.head?) : asCall d out' t rest' = asCall d out t rest := by
  have hlast : out'.head?.map Token.kind = out.head?.map Token.kind := ho
  unfold asCall
  rw [hlast]
  by_cases hj : t.kind = .joiner
  · have hhead := headD_congr (hr hj) [] t
    simp only [List.nil_append] at hhead
    rw [hhead]
  · simp only [hj, false_and, if_false]

theorem step_frame {tables : Tables} {out rest : List Token} {t : Token} {p : Progress}
    (h : step d tables out t rest = .ok p) :
    ∃ read new, Replays (step d tables · t ·) out t rest p read new := by
  have hstep := h
  unfold step at h
  split at h
  · rename_i hk
    have hin : t.Inline := .inl (by simp [hk.1])
    split at h
    · rename_i ha
      cases h
      refine ⟨[], [], rfl, rfl, fun hn => absurd hin hn, fun out' left' ho _ => ?_⟩
      simp only [step, atLineStart_congr ho]
      rw [if_pos hk, if_pos ha]
      rfl
    · rename_i ha
      obtain ⟨left, hleft, rfl⟩ := Outcome.map_eq_ok_iff.1 h
      obtain ⟨read, last, rfl, hframe⟩ := skipToggled_frame hleft
      refine ⟨read ++ [last], [], by simp, rfl, fun _ => hk.2, fun out' left' ho hb => ?_⟩
      rw [List.getLastD_concat] at hb
      simp only [step, atLineStart_congr ho]
      rw [if_pos hk, if_neg ha, List.append_assoc, List.cons_append, List.nil_append, hframe left' hb]
      rfl
  · rename_i hk
    split at h
    · rename_i hd
      obtain ⟨read, new, hr⟩ := obey_frame hd h
      refine ⟨read, new, hr.rest_eq, hr.out_eq, hr.starts, fun out' left' ho hb => ?_⟩
      simp only [step, atLineStart_congr ho]
      rw [if_neg hk, if_pos hd]
      exact hr.again out' left' ho hb
    · rename_i hd
      split at h
      · rename_i hopens
        rw [step_opens hopens] at hstep
        obtain ⟨r, hr, rfl⟩ := Outcome.map_eq_ok_iff.1 hstep
        obtain ⟨front, closer, hread, hc, hframe⟩ := Define.read_frame hopens hr
        have hlast : ((front ++ [closer]).getLastD t).Inline := by rwa [List.getLastD_concat]
        refine ⟨front ++ [closer], r.1.reverse, by simp [hread], rfl, fun hn => absurd hlast hn,
          fun out' left' _ hb => ?_⟩
        simp only [step_opens hopens, List.append_assoc, List.cons_append, List.nil_append]
        rw [hframe left' (hb hlast)]
        rfl
      · rename_i hopens
        cases h
        refine ⟨[], [asCall d out t rest], rfl, rfl, fun hn => ?_, fun out' left' ho hb => ?_⟩
        · have hn : t.kind = .newline := by
            by_contra hne
            exact hn (.inl hne)
          have hsame : asCall d out t rest = t := by
            rcases asCall_cases (d := d) out t rest with he | ⟨hj | hi, -⟩
            · exact he
            · rw [hn] at hj
              cases hj
            · rw [hn] at hi
              cases hi
          rw [hsame]
          simp [atLineStart, hn]
        · simp only [step, atLineStart_congr ho]
          rw [if_neg hk, if_neg hd, if_neg hopens, List.nil_append,
            asCall_congr ho fun hj => hb (.inl (by simp [hj]))]
          rfl

end Directive

end ClassicBasic
