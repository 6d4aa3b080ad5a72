import ClassicBasic.Proofs.Directive

/-!
# Readers that stop in time

A list of tokens ends with the end of the program, and every reader stops there at the latest. So a
reader either gives what it promises, with the end still ahead, or a failure that says what is wrong
with the program; that the list ran out is never what it comes to.
-/

set_option autoImplicit false

namespace ClassicBasic

/-- Whether a failure says what is wrong with a program, and not that a reader ran past the end of
what it reads. -/
def Failure.Told (e : Failure) : Prop := e ≠ .exhausted ∧ e ≠ .unframed

theorem Token.told (t : Token) (c : Cause) : (t.failure c).Told := by
  constructor <;> intro h <;> cases h

namespace Outcome

/-- Whether a computation gives a result that `Q` holds of or a failure that can be told. -/
def Meets {α : Type} (Q : α → Prop) : Except Failure α → Prop
  | .ok a => Q a
  | .error e => e.Told

variable {α β : Type} {P Q : α → Prop} {R : β → Prop}

theorem Meets.imp {x : Except Failure α} (h : Meets P x) (hq : ∀ a, x = .ok a → P a → Q a) :
    Meets Q x := by
  cases x with
  | ok a => exact hq a rfl h
  | error e => exact h

theorem Meets.told {x : Except Failure α} {e : Failure} (h : Meets Q x) (hx : x = .error e) :
    e.Told := by
  rw [hx] at h
  exact h

theorem Meets.holds {x : Except Failure α} {a : α} (h : Meets Q x) (hx : x = .ok a) : Q a := by
  rw [hx] at h
  exact h

theorem Meets.map {x : Except Failure α} {f : α → β} (h : Meets P x) (hf : ∀ a, P a → R (f a)) :
    Meets R (x.map f) := by
  cases x with
  | ok a => exact hf a h
  | error e => exact h

theorem Meets.bind {x : Except Failure α} {f : α → Except Failure β} (h : Meets P x)
    (hf : ∀ a, P a → Meets R (f a)) : Meets R (x >>= f) := by
  cases x with
  | ok a => exact hf a h
  | error e => exact h

theorem meets_mapM {f : α → Except Failure β} {l : List α}
    (hf : ∀ a ∈ l, Meets R (f a)) : Meets (fun r => ∀ b ∈ r, R b) (l.mapM f) := by
  induction l with
  | nil =>
    rw [List.mapM_nil]
    show ∀ b ∈ [], R b
    simp
  | cons a l ih =>
    obtain ⟨ha, hl⟩ := List.forall_mem_cons.1 hf
    have hmore := ih hl
    rw [List.mapM_cons]
    cases hfa : f a with
    | error e =>
      rw [hfa] at ha
      exact ha
    | ok b =>
      rw [hfa] at ha
      cases hr : l.mapM f with
      | error e =>
        rw [hr] at hmore
        exact hmore
      | ok r =>
        rw [hr] at hmore
        exact List.forall_mem_cons.2 ⟨ha, hmore⟩

end Outcome

open Outcome (Meets meets_mapM)

inductive Ended : List Token → Prop
  | last {t : Token} (kind : t.kind = .eof) (value : t.value = Listing.eofText) : Ended [t]
  | cons {t : Token} {rest : List Token} (more : Ended rest) : Ended (t :: rest)

namespace Ended

variable {t : Token} {l rest : List Token}

theorem ne_nil (h : Ended l) : l ≠ [] := by
  cases h <;> simp

theorem tail (h : Ended (t :: rest)) (ht : t.kind ≠ .eof) : Ended rest := by
  cases h with
  | last hk => exact absurd hk ht
  | cons h => exact h

theorem tail_of_value (h : Ended (t :: rest)) {v : Text} (hv : t.value = v)
    (hne : v ≠ Listing.eofText) : Ended rest := by
  cases h with
  | last _ hvalue => exact absurd (hv.symm.trans hvalue) hne
  | cons h => exact h

theorem of_suffix {s : List Token} (h : Ended l) (hs : s <:+ l) (hne : s ≠ []) : Ended s := by
  induction h with
  | last hk hv =>
    obtain rfl := (List.suffix_cons_iff.1 hs).resolve_right fun h => hne (List.suffix_nil.1 h)
    exact .last hk hv
  | cons h ih =>
    rcases List.suffix_cons_iff.1 hs with rfl | hs
    · exact .cons h
    · exact ih hs

theorem afterLineEnd (h : Ended l) : Ended (afterLineEnd l) := by
  cases l with
  | nil => exact h
  | cons t rest =>
    simp only [ClassicBasic.afterLineEnd]
    split
    · rename_i hk
      exact h.tail (by simp [hk])
    · exact h

theorem dropLine (h : Ended l) : Ended (l.dropWhile fun t => !t.endsLine) := by
  induction h with
  | last hk hv =>
    rw [List.dropWhile_cons_of_neg (by simp [Token.endsLine, hk])]
    exact .last hk hv
  | @cons t rest h ih =>
    by_cases hline : t.endsLine
    · rw [List.dropWhile_cons_of_neg (by simp [hline])]
      exact .cons h
    · rw [List.dropWhile_cons_of_pos (by simp [hline])]
      exact ih

theorem exists_cons (h : Ended l) : ∃ t rest, l = t :: rest := List.exists_cons_of_ne_nil h.ne_nil

end Ended

theorem not_endsLine {t : Token} (h : ¬t.endsLine = true) : t.kind ≠ .newline ∧ t.kind ≠ .eof := by
  simpa [Token.endsLine] using h

theorem Bracketed.read_meets {opening closing : Text} {t : Token} {rest : List Token}
    (hne : opening ≠ closing) (ho : opening ≠ Listing.eofText) (hc : closing ≠ Listing.eofText)
    (h : Ended (t :: rest)) :
    Meets (fun b => ∀ content closer after, b = .holding content closer after → Ended after)
      (read opening closing t rest) := by
  cases hr : read opening closing t rest with
  | error e =>
    unfold read at hr
    dsimp only at hr
    split at hr
    · cases hr
      exact Token.told _ _
    · split at hr
      · cases hr
      · split at hr
        · cases hr
          exact Token.told _ _
        · cases hr
  | ok b =>
    rintro content closer after rfl
    obtain ⟨rfl, hv⟩ := holding_eq hne hr
    have hopen : t.value = opening := by
      by_contra hv
      simp [read, hv] at hr
    have hrest := h.tail_of_value hopen ho
    have hclose : Ended (closer :: after) := hrest.of_suffix (List.suffix_cons _ _) (by simp)
    exact hclose.tail_of_value hv hc

namespace Define

theorem readFallback_meets {l : List Token} (h : Ended l) :
    Meets (fun r => Ended r.2) (readFallback l) := by
  induction l with
  | nil => exact absurd rfl h.ne_nil
  | cons t rest ih =>
    simp only [readFallback]
    split
    · exact Token.told _ _
    · rename_i hline
      have hrest := h.tail (not_endsLine hline).2
      split
      · exact Token.told _ _
      · split
        · exact hrest
        · exact (ih hrest).map fun r hr => hr

theorem readBody_meets {l : List Token} (h : Ended l) :
    Meets (fun r => Ended r.2.2) (readBody l) := by
  fun_induction readBody l with
  | case1 => exact absurd rfl h.ne_nil
  | case2 => exact Token.told _ _
  | case3 t rest hline hv e hf =>
    exact (readFallback_meets (h.tail (not_endsLine hline).2)).told hf
  | case4 t rest hline hv inner after hf ih =>
    have hfall : Ended after := (readFallback_meets (h.tail (not_endsLine hline).2)).holds hf
    exact (ih hfall).map fun r hr => hr
  | case5 t rest hline => exact h.tail (not_endsLine hline).2
  | case6 t rest hline _ _ ih => exact (ih (h.tail (not_endsLine hline).2)).map fun r hr => hr

theorem readParametric_meets {name opening : Token} {rest : List Token} (h : Ended rest) :
    Meets (fun r => Ended r.2) (readParametric name opening rest) := by
  obtain ⟨parameter, more, rfl⟩ := h.exists_cons
  unfold readParametric
  dsimp only [List.headD_cons, List.tail_cons]
  split
  · exact Token.told _ _
  · rename_i hp
    have hmore := h.tail (by rw [Decidable.not_not.1 hp]; decide)
    obtain ⟨closer, after, rfl⟩ := hmore.exists_cons
    split
    · exact Token.told _ _
    · rename_i hc
      have hafter : Ended after := hmore.tail_of_value (Decidable.not_not.1 hc) (by decide)
      split
      · exact Token.told _ _
      · exact hafter.dropLine.afterLineEnd

theorem readName_meets {table : Defines} {t : Token} {rest : List Token} (h : Ended rest) :
    Meets (fun r => Ended (r.2.1 :: r.2.2)) (readName table t rest) := by
  obtain ⟨opening, more, rfl⟩ := h.exists_cons
  have hbracket : Meets _ (Bracketed.read "[" "]" opening more) :=
    Bracketed.read_meets (by decide) (by decide) (by decide) h
  unfold readName
  rw [List.headD_cons, List.tail_cons]
  split
  · rename_i hb
    exact hbracket.told hb
  · exact Token.told _ _
  · rename_i name closer after hb
    have hafter : Ended after := hbracket.holds hb _ _ _ rfl
    split
    · exact Token.told _ _
    · split
      · exact Token.told _ _
      · obtain ⟨u, left, rfl⟩ := hafter.exists_cons
        exact hafter

theorem readLine_meets {table : Defines} {t : Token} {rest : List Token} (h : Ended rest) :
    Meets (fun r => Ended r.2) (readLine table t rest) := by
  have body {table : Defines} {t name next : Token} {rest after : List Token} (h : Ended rest)
      (hn : readName table t rest = .ok (name, next, after)) (hv : ¬next.value ≠ "[") :
      Meets (fun r => Ended r.2.2) (readBody after) :=
    readBody_meets (((readName_meets h).holds hn).tail_of_value (Decidable.not_not.1 hv) (by decide))
  fun_induction readLine table t rest with
  | case1 table t rest e hn => exact (readName_meets h).told hn
  | case2 table t rest name next after hn hk =>
    have hafter : Ended after := ((readName_meets h).holds hn).tail_of_value hk.2 (by decide)
    exact (readParametric_meets hafter).map fun r hr => hr
  | case3 => exact Token.told _ _
  | case4 table t rest name next after hn _ hv e hb => exact (body h hn hv).told hb
  | case5 table t rest name next after hn _ hv _ _ hb =>
    exact absurd rfl ((body h hn hv).holds hb).ne_nil
  | case6 table t rest name next after hn _ hv _ _ u left hb =>
    rename_i hcomma ih
    exact ih (((body h hn hv).holds hb).tail_of_value hcomma (by decide))
  | case7 table t rest name next after hn _ hv _ _ u left hb =>
    exact Ended.afterLineEnd ((body h hn hv).holds hb)
  | case8 => exact Token.told _ _

structure Expanding (table : Defines) (input : List Token) : Prop where
  expand : ∀ t, Meets (fun e => Ended e.rest) (expand table t input)
  argument : ∀ depth, Meets (fun e => Ended e.rest) (argument table depth input)

theorem expand_meets_step {table : Defines} {input : List Token} (h : Ended input)
    (ih : ∀ more, more.length < input.length → Ended more → Expanding table more) (t : Token) :
    Meets (fun e => Ended e.rest) (expand table t input) := by
  have hbracket : Meets _ (Bracketed.read "[" "]" t input) :=
    Bracketed.read_meets (by decide) (by decide) (by decide) (.cons h)
  unfold expand
  split
  · rename_i hb
    exact hbracket.told hb
  · exact Token.told _ _
  · rename_i name closer after hb
    obtain ⟨rfl, -⟩ := Bracketed.holding_eq (by decide) hb
    have hafter : Ended after := hbracket.holds hb _ _ _ rfl
    split
    · exact Token.told _ _
    · split
      · exact Token.told _ _
      · split
        · rename_i hd
          exact absurd hd hafter.ne_nil
        · rename_i p more hd
          have hd' : after = p :: more := by simpa using hd
          subst hd'
          split
          · rename_i hp
            have hmore := ih more (by simp; omega) (hafter.tail_of_value hp.2 (by decide))
            split
            · rename_i he
              exact (hmore.argument 1).told he
            · rename_i he
              exact (hmore.argument 1).holds he
          · exact hafter

theorem argument_meets_step {table : Defines} {input : List Token} (h : Ended input)
    (ih : ∀ more, more.length < input.length → Ended more → Expanding table more) (depth : Nat) :
    Meets (fun e => Ended e.rest) (argument table depth input) := by
  obtain ⟨t, rest, rfl⟩ := h.exists_cons
  unfold argument
  split
  · exact Token.told _ _
  · rename_i hline
    have hrest := h.tail (not_endsLine hline).2
    have hmore := ih rest (by simp) hrest
    split
    · split
      · rename_i he
        exact (hmore.expand t).told he
      · rename_i inner he
        have hlt : inner.rest.length < (t :: rest).length := Nat.lt_succ_of_le inner.le
        have hinner := (ih inner.rest hlt ((hmore.expand t).holds he)).argument depth
        split
        · rename_i he
          exact hinner.told he
        · rename_i he
          exact hinner.holds he
    · split
      · exact hrest
      · dsimp only
        have hargument := hmore.argument
          (if t.value = "(" then depth + 1 else if t.value = ")" then depth - 1 else depth)
        split
        · rename_i he
          exact hargument.told he
        · rename_i he
          exact hargument.holds he

/-- An invocation is read up to its end, whatever is nested in it. The two readers call each other on
shorter inputs. -/
theorem expanding {table : Defines} (input : List Token) (h : Ended input) : Expanding table input :=
  ⟨expand_meets_step h fun more _ hmore => expanding more hmore,
    argument_meets_step h fun more _ hmore => expanding more hmore⟩
termination_by input.length

end Define

namespace Routine

theorem splitArguments_meets {depth : Nat} {run l : List Token} (h : Ended l) :
    Meets (fun r => Ended r.2.2) (splitArguments depth run l) := by
  induction l generalizing depth run with
  | nil => exact absurd rfl h.ne_nil
  | cons t rest ih =>
    simp only [splitArguments]
    split
    · exact Token.told _ _
    · rename_i hline
      have hrest := h.tail (not_endsLine hline).2
      split
      · exact ih hrest
      · split
        · exact (ih hrest).map fun r hr => hr
        · split
          · split
            · exact hrest
            · exact ih hrest
          · exact ih hrest

theorem argumentList_meets {fn : Token} {rest : List Token} (h : Ended (fn :: rest)) :
    Meets (fun r => Ended r.2.2) (argumentList fn rest) := by
  unfold argumentList
  dsimp only
  split
  · exact Token.told _ _
  · rename_i hf
    have hrest := h.tail (by rw [Decidable.not_not.1 hf]; decide)
    obtain ⟨opening, more, rfl⟩ := hrest.exists_cons
    rw [List.headD_cons, List.tail_cons]
    split
    · exact Token.told _ _
    · rename_i ho
      have hmore := hrest.tail_of_value (Decidable.not_not.1 ho) (by decide)
      obtain ⟨closer, after, rfl⟩ := hmore.exists_cons
      split
      · rename_i hc
        exact hmore.tail_of_value hc (by decide)
      · exact splitArguments_meets hmore

theorem parameter_meets (fn : Token) (run : List Token) : Meets (fun _ => True) (parameter fn run) := by
  unfold parameter
  split
  · exact Token.told _ _
  · split
    · trivial
    · exact Token.told _ _
  · split
    · exact Token.told _ _
    · split
      · exact Token.told _ _
      · trivial

theorem splitResults_ended {run : List Token} {last : Token} {l : List Token} (h : Ended l) :
    Ended (splitResults run last l).2.2 := by
  induction l generalizing run last with
  | nil => exact absurd rfl h.ne_nil
  | cons t rest ih =>
    simp only [splitResults]
    split
    · exact h
    · rename_i hends
      have hrest : Ended rest := h.tail fun hk => by simp [endsResults, Token.endsLine, hk] at hends
      split
      · exact ih hrest
      · exact ih hrest

theorem resultList_ended {ret : Token} {rest : List Token} (h : Ended rest) :
    Ended (resultList ret rest).2.2 := by
  unfold resultList
  split
  · exact h
  · exact splitResults_ended h

theorem resultVariable_meets (run : List Token) : Meets (fun _ => True) (resultVariable run) := by
  unfold resultVariable
  split
  · trivial
  · split
    · exact Token.told _ _
    · split
      · trivial
      · exact Token.told _ _

theorem callVariables_meets {d : Dialect} (out : List Token) :
    Meets (fun _ => True) (callVariables d out) := by
  unfold callVariables
  split
  · trivial
  · split
    · trivial
    · exact (meets_mapM fun run _ => resultVariable_meets run).map fun _ _ => trivial

theorem call_meets {d : Dialect} {routines : Routines} {fn : Token} {out rest : List Token}
    (h : Ended (fn :: rest)) : Meets (fun r => Ended r.2.2) (call d routines fn out rest) := by
  unfold call
  split
  · exact Token.told _ _
  · split
    · rename_i hv
      exact (callVariables_meets out).told hv
    · split
      · rename_i ha
        exact (argumentList_meets h).told ha
      · rename_i ha
        split
        · exact Token.told _ _
        · split
          · exact Token.told _ _
          · exact (argumentList_meets h).holds ha

end Routine

namespace Directive

theorem skipLine_meets {tag : Token} {l : List Token} (h : Ended l) : Meets Ended (skipLine tag l) := by
  induction l with
  | nil => exact absurd rfl h.ne_nil
  | cons t rest ih =>
    simp only [skipLine]
    split
    · exact Token.told _ _
    · rename_i hk
      split
      · exact h.tail hk
      · exact ih (h.tail hk)

theorem skipBlock_meets {tag last : Token} {l : List Token} (h : Ended l) :
    Meets Ended (skipBlock tag last l) := by
  induction l generalizing last with
  | nil => exact absurd rfl h.ne_nil
  | cons t rest ih =>
    simp only [skipBlock]
    split
    · exact Token.told _ _
    · rename_i hk
      split
      · exact h.tail hk
      · exact ih (h.tail hk)

theorem skipToggled_meets {tag : Token} {rest : List Token} (h : Ended rest) :
    Meets Ended (skipToggled tag rest) := by
  unfold skipToggled
  split
  · exact skipBlock_meets h
  · exact skipLine_meets h

theorem keepTags_meets {keeps : List Text} {l : List Token} (h : Ended l) :
    Meets (fun r => Ended r.2) (keepTags keeps l) := by
  induction l generalizing keeps with
  | nil => exact absurd rfl h.ne_nil
  | cons t rest ih =>
    simp only [keepTags]
    split
    · exact h.afterLineEnd
    · rename_i hline
      split
      · exact Token.told _ _
      · split
        · exact Token.told _ _
        · exact ih (h.tail (not_endsLine hline).2)

theorem openRoutine_meets {tables : Tables} {t : Token} {rest : List Token} (h : Ended rest) :
    Meets (fun r => Ended r.2.2) (openRoutine tables t rest) := by
  obtain ⟨fn, more, rfl⟩ := h.exists_cons
  unfold openRoutine
  dsimp only
  rw [List.headD_cons, List.tail_cons]
  split
  · exact Token.told _ _
  · split
    · exact Token.told _ _
    · split
      · rename_i ha
        exact (Routine.argumentList_meets h).told ha
      · rename_i ha
        split
        · rename_i hp
          exact (meets_mapM fun run _ => Routine.parameter_meets fn run).told hp
        · exact (Routine.argumentList_meets h).holds ha

theorem closeRoutine_meets {d : Dialect} {tables : Tables} {t : Token} {rest : List Token}
    (h : Ended rest) : Meets (fun r => Ended r.2.2) (closeRoutine d tables t rest) := by
  unfold closeRoutine
  split
  · exact Token.told _ _
  · dsimp only
    split
    · exact Token.told _ _
    · exact Routine.resultList_ended h

theorem obey_meets {d : Dialect} {tables : Tables} {out : List Token} {t : Token}
    {rest : List Token} (h : Ended rest) :
    Meets (fun p => Ended p.rest) (obey d tables out t rest) := by
  unfold obey
  dsimp only
  split
  · exact h
  · split
    · exact h
    · split
      · exact (Define.readLine_meets h).map fun r hr => hr
      · split
        · exact (keepTags_meets h).map fun r hr => hr
        · split
          · exact (openRoutine_meets h).map fun r hr => hr
          · split
            · exact (closeRoutine_meets h).map fun r hr => hr
            · exact Token.told _ _

theorem step_meets {d : Dialect} {tables : Tables} {out : List Token} {t : Token}
    {rest : List Token} (h : Ended rest) :
    Meets (fun p => Ended p.rest) (step d tables out t rest) := by
  unfold step
  split
  · split
    · exact h
    · exact (skipToggled_meets h).map fun left hl => hl
  · split
    · exact obey_meets h
    · split
      · exact ((Define.expanding rest h).expand t).map fun e he => he
      · exact h

end Directive

end ClassicBasic
