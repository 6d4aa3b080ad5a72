import ClassicBasic.Program.Routine
import Mathlib.Data.List.Infix
import Mathlib.Data.List.TakeWhile

/-!
# Lists between commas

The arguments of a call are what stands between its parentheses, cut at the commas outside inner
parentheses. Its results go to what stands in front of it from the start of the statement on, cut at
every comma. Nothing of either is lost, and neither reader goes past the end of its list.
-/

set_option autoImplicit false

namespace ClassicBasic

namespace Token

def opensGroup (t : Token) : Bool := t.value == "(".toList

def closesGroup (t : Token) : Bool := t.value == ")".toList

end Token

def groupsOpened (l : List Token) : Nat := l.countP Token.opensGroup

def groupsClosed (l : List Token) : Nat := l.countP Token.closesGroup

inductive CommaList : List (List Token) → List Token → Prop
  | single (run : List Token) : CommaList [run] run
  | cons (run : List Token) {comma : Token} {runs : List (List Token)} {rest : List Token}
      (hc : comma.value = ",") (more : CommaList runs rest) :
      CommaList (run :: runs) (run ++ comma :: rest)

/-- Whether no group is closed before it is opened and all groups are closed. -/
structure Balanced (l : List Token) : Prop where
  within : ∀ p, p <+: l → groupsClosed p ≤ groupsOpened p
  settled : groupsClosed l = groupsOpened l

/-- Whether the tokens are balanced and have no comma outside parentheses. -/
structure Argument (l : List Token) : Prop extends Balanced l where
  whole : ∀ (p : List Token) (t : Token), p ++ [t] <+: l → groupsClosed p = groupsOpened p → t.value ≠ ","

variable {d : Dialect} {depth depth' : Nat} {t u closer : Token} {run l inner after : List Token}
  {runs : List (List Token)}

theorem groupsOpened_append (l m : List Token) : groupsOpened (l ++ m) = groupsOpened l + groupsOpened m :=
  List.countP_append

theorem groupsClosed_append (l m : List Token) : groupsClosed (l ++ m) = groupsClosed l + groupsClosed m :=
  List.countP_append

theorem groupsOpened_cons (t : Token) (l : List Token) :
    groupsOpened (t :: l) = groupsOpened l + if t.value = "(" then 1 else 0 := by
  simp [groupsOpened, List.countP_cons, Token.opensGroup]

theorem groupsClosed_cons (t : Token) (l : List Token) :
    groupsClosed (t :: l) = groupsClosed l + if t.value = ")" then 1 else 0 := by
  simp [groupsClosed, List.countP_cons, Token.closesGroup]

theorem CommaList.balanced (h : CommaList runs l) (hr : ∀ run ∈ runs, Balanced run) : Balanced l := by
  induction h with
  | single run => exact hr run (by simp)
  | @cons run comma runs rest hc _ ih =>
    obtain ⟨hrun, hr⟩ := List.forall_mem_cons.1 hr
    have hmore := ih hr
    have hcomma : groupsOpened (comma :: rest) = groupsOpened rest ∧
        groupsClosed (comma :: rest) = groupsClosed rest := by
      rw [groupsOpened_cons, groupsClosed_cons, hc]
      exact ⟨rfl, rfl⟩
    refine ⟨fun p hp => ?_, ?_⟩
    · rcases List.prefix_or_prefix_of_prefix hp (List.prefix_append run _) with hshort | ⟨q, rfl⟩
      · exact hrun.within p hshort
      · rw [groupsClosed_append, groupsOpened_append, hrun.settled]
        rw [List.prefix_append_right_inj, List.prefix_cons_iff] at hp
        rcases hp with rfl | ⟨q, rfl, hq⟩
        · exact Nat.le_refl _
        · have hle := hmore.within q hq
          rw [groupsOpened_cons, groupsClosed_cons, hc]
          exact Nat.add_le_add_left hle _
    · rw [groupsClosed_append, groupsOpened_append, hcomma.1, hcomma.2, hrun.settled, hmore.settled]

/-! ### Arguments -/

/-- Whether the tokens are the start of an argument at the given depth of parentheses, those around
the list included. -/
structure Begun (depth : Nat) (run : List Token) : Prop where
  within : ∀ p, p <+: run → groupsClosed p ≤ groupsOpened p
  level : groupsOpened run + 1 = groupsClosed run + depth
  whole : ∀ (p : List Token) (t : Token), p ++ [t] <+: run → groupsClosed p = groupsOpened p → t.value ≠ ","

theorem begun_nil : Begun 1 [] where
  within p hp := by simp [List.prefix_nil.1 hp, groupsClosed]
  level := rfl
  whole p t hp := by simp at hp

theorem begun_one_iff : Begun 1 run ↔ Argument run := by
  constructor
  · intro h
    have hlevel := h.level
    exact ⟨⟨h.within, by omega⟩, h.whole⟩
  · intro h
    exact ⟨h.within, by rw [h.settled], h.whole⟩

/-- A start of an argument goes on with a token that neither ends it nor closes the list. -/
theorem Begun.push (h : Begun depth run) (hl : groupsOpened (run ++ [t]) + 1 = groupsClosed (run ++ [t]) + depth')
    (hd : 1 ≤ depth') (hc : t.value = "," → depth ≠ 1) : Begun depth' (run ++ [t]) where
  within p hp := by
    rcases List.prefix_concat_iff.1 hp with rfl | hp
    · omega
    · exact h.within p hp
  level := hl
  whole p u hp hlevel := by
    rcases List.prefix_concat_iff.1 hp with heq | hp
    · obtain ⟨rfl, hu⟩ := List.append_inj' heq rfl
      obtain rfl : u = t := by simpa using hu
      have := h.level
      exact fun hcomma => hc hcomma (by omega)
    · exact h.whole p u hp hlevel

theorem Begun.push_open (h : Begun depth run) (ht : t.value = "(") :
    Begun (depth + 1) (run ++ [t]) := by
  have hlevel := h.level
  refine h.push ?_ (Nat.le_add_left _ _) (by simp [ht])
  rw [groupsOpened_append, groupsClosed_append, groupsOpened_cons, groupsClosed_cons, ht,
    if_pos rfl, if_neg (by decide)]
  simp only [groupsOpened, groupsClosed, List.countP_nil] at *
  omega

theorem Begun.push_close (h : Begun depth run) (ht : t.value = ")") (hd : depth ≠ 1) :
    Begun (depth - 1) (run ++ [t]) := by
  have hlevel := h.level
  have hle := h.within run (List.prefix_refl _)
  refine h.push ?_ (by omega) (by simp [ht])
  rw [groupsOpened_append, groupsClosed_append, groupsOpened_cons, groupsClosed_cons, ht,
    if_neg (by decide), if_pos rfl]
  simp only [groupsOpened, groupsClosed, List.countP_nil] at *
  omega

theorem Begun.push_other (h : Begun depth run) (ho : t.value ≠ "(") (hc : t.value ≠ ")")
    (hcomma : ¬(t.value = "," ∧ depth = 1)) : Begun depth (run ++ [t]) := by
  have hlevel := h.level
  have hle := h.within run (List.prefix_refl _)
  refine h.push ?_ (by omega) fun hv hd => hcomma ⟨hv, hd⟩
  rw [groupsOpened_append, groupsClosed_append, groupsOpened_cons, groupsClosed_cons, if_neg ho, if_neg hc]
  simp only [groupsOpened, groupsClosed, List.countP_nil] at *
  omega

/-- Two ways to cut tokens at a comma behind an argument are the same. -/
theorem Argument.cut_unique {comma comma' : Token} {run' rest rest' : List Token}
    (h : Argument run) (h' : Argument run') (hc : comma.value = ",") (hc' : comma'.value = ",")
    (heq : run ++ comma :: rest = run' ++ comma' :: rest') : run = run' ∧ rest = rest' := by
  have hp : run ++ [comma] <+: run' ++ comma' :: rest' := ⟨rest, by simp [← heq]⟩
  have hp' : run' ++ [comma'] <+: run' ++ comma' :: rest' := ⟨rest', by simp⟩
  rcases Nat.lt_trichotomy run.length run'.length with hlt | hlen | hlt
  · have hin : run ++ [comma] <+: run' :=
      List.prefix_of_prefix_length_le hp (List.prefix_append _ _) (by simpa using Nat.succ_le_of_lt hlt)
    exact absurd hc (h'.whole run comma hin h.settled)
  · obtain ⟨hrun, hmore⟩ := List.append_inj heq hlen
    exact ⟨hrun, (List.cons.inj hmore).2⟩
  · have hin : run' ++ [comma'] <+: run :=
      List.prefix_of_prefix_length_le (heq ▸ hp') (List.prefix_append _ _) (by simpa using Nat.succ_le_of_lt hlt)
    exact absurd hc' (h.whole run' comma' hin h'.settled)

namespace Routine

theorem commaList_of_splitArguments {r : List (List Token) × Token × List Token} (hb : Begun depth run)
    (h : splitArguments depth run l = .ok r) :
    ∃ inner, l = inner ++ r.2.1 :: r.2.2 ∧ r.2.1.value = ")" ∧ CommaList r.1 (run ++ inner) ∧
      (∀ run ∈ r.1, Argument run) ∧ ∀ t ∈ inner ++ [r.2.1], t.endsLine = false := by
  induction l generalizing depth run r with
  | nil => cases h
  | cons t rest ih =>
    -- the token is taken into the run that is being read
    have pushed {depth' : Nat} (hl : t.endsLine = false) (hb : Begun depth' (run ++ [t]))
        (h : splitArguments depth' (run ++ [t]) rest = .ok r) :
        ∃ inner, t :: rest = inner ++ r.2.1 :: r.2.2 ∧ r.2.1.value = ")" ∧
          CommaList r.1 (run ++ inner) ∧ (∀ run ∈ r.1, Argument run) ∧
          ∀ t ∈ inner ++ [r.2.1], t.endsLine = false := by
      obtain ⟨inner, rfl, hc, hj, ha, he⟩ := ih hb h
      refine ⟨t :: inner, rfl, hc, by simpa using hj, ha, ?_⟩
      exact List.forall_mem_cons.2 ⟨hl, he⟩
    simp only [splitArguments] at h
    split at h
    · cases h
    · rename_i hl
      rw [Bool.not_eq_true] at hl
      split at h
      · rename_i ho
        exact pushed hl (hb.push_open ho) h
      · rename_i ho
        split at h
        · rename_i hcomma
          obtain ⟨s, hs, rfl⟩ := Outcome.map_eq_ok_iff.1 h
          obtain ⟨hv, rfl⟩ := hcomma
          obtain ⟨inner, rfl, hc, hj, ha, he⟩ := ih begun_nil hs
          refine ⟨t :: inner, rfl, hc, .cons run hv hj, ?_, List.forall_mem_cons.2 ⟨hl, he⟩⟩
          exact List.forall_mem_cons.2 ⟨begun_one_iff.1 hb, ha⟩
        · rename_i hcomma
          split at h
          · rename_i hc
            split at h
            · rename_i hd
              subst hd
              cases h
              exact ⟨[], rfl, hc, by simpa using .single run, by simpa using begun_one_iff.1 hb,
                by simpa using hl⟩
            · rename_i hd
              exact pushed hl (hb.push_close hc hd) h
          · rename_i hc
            exact pushed hl (hb.push_other ho hc hcomma) h

theorem splitArguments_of_commaList (hb : Begun depth run) (hj : CommaList runs (run ++ inner))
    (ha : ∀ run ∈ runs, Argument run) (hc : closer.value = ")")
    (he : ∀ t ∈ inner ++ [closer], t.endsLine = false) :
    splitArguments depth run (inner ++ closer :: after) = .ok (runs, closer, after) := by
  have hall := hj.balanced fun run hr => (ha run hr).toBalanced
  induction inner generalizing depth run runs with
  | nil =>
    have hend : closer.endsLine = false := he closer (by simp)
    rw [List.append_nil] at hj hall
    obtain rfl : depth = 1 := by
      have := hb.level
      have := hall.settled
      omega
    have hrun : runs = [run] := by
      cases hj with
      | single => rfl
      | @cons first comma runs rest hcomma more =>
        have hfirst := ha first (by simp)
        exact absurd hcomma (hb.whole first comma ⟨rest, by simp⟩ hfirst.settled)
    simp [splitArguments, hend, hc, hrun]
  | cons t inner ih =>
    obtain ⟨hend, hmore⟩ := List.forall_mem_cons.1 he
    have happ : run ++ t :: inner = run ++ [t] ++ inner := by simp
    have hnext : ∀ {depth'}, Begun depth' (run ++ [t]) →
        splitArguments depth' (run ++ [t]) (inner ++ closer :: after) =
          .ok (runs, closer, after) := fun hb => ih hb (happ ▸ hj) ha hmore (happ ▸ hall)
    rw [List.cons_append, splitArguments, if_neg (by simp [hend])]
    split
    · rename_i ho
      exact hnext (hb.push_open ho)
    · rename_i ho
      split
      · rename_i hcomma
        obtain ⟨hv, rfl⟩ := hcomma
        have hrun := begun_one_iff.1 hb
        generalize hw : run ++ t :: inner = whole at hj
        cases hj with
        | single =>
          have hin : run ++ [t] <+: whole := ⟨inner, by simp [← hw]⟩
          exact absurd hv ((ha whole (by simp)).whole run t hin hrun.settled)
        | @cons first comma runs rest hcomma more =>
          obtain ⟨hfirst, hothers⟩ := List.forall_mem_cons.1 ha
          obtain ⟨rfl, rfl⟩ := hrun.cut_unique hfirst hv hcomma hw
          have hrest := more.balanced fun run hr => (hothers run hr).toBalanced
          rw [ih begun_nil more hothers hmore hrest]
          rfl
      · rename_i hcomma
        split
        · rename_i hc
          split
          · rename_i hd
            subst hd
            have hle := hall.within (run ++ [t]) ⟨inner, by simp⟩
            have hlevel := hb.level
            rw [groupsClosed_append, groupsOpened_append, groupsOpened_cons, groupsClosed_cons, hc, if_pos rfl,
              if_neg (by decide)] at hle
            simp only [groupsOpened, groupsClosed, List.countP_nil] at *
            omega
          · rename_i hd
            exact hnext (hb.push_close hc hd)
        · rename_i hc
          exact hnext (hb.push_other ho hc hcomma)

/-- Behind the name of a function: an opening parenthesis, arguments that end on their line, and the
parenthesis that closes their list. -/
inductive Arguments : List Token → List (List Token) → Token → List Token → Prop
  | none {opening closer : Token} {after : List Token} (ho : opening.value = "(")
      (hc : closer.value = ")") : Arguments (opening :: closer :: after) [] closer after
  | some {opening closer : Token} {inner after : List Token} {runs : List (List Token)}
      (ho : opening.value = "(") (hc : closer.value = ")") (hne : inner ≠ [])
      (hl : CommaList runs inner) (ha : ∀ run ∈ runs, Argument run)
      (he : ∀ t ∈ inner ++ [closer], t.endsLine = false) :
      Arguments (opening :: (inner ++ closer :: after)) runs closer after

theorem argumentList_iff {fn : Token} {rest : List Token} (hf : fn.kind = .functionName) :
    argumentList fn rest = .ok (runs, closer, after) ↔ Arguments rest runs closer after := by
  constructor
  · intro h
    unfold argumentList at h
    dsimp only at h
    rw [if_neg (by simp [hf])] at h
    split at h
    · cases h
    · rename_i ho
      rw [ne_eq, not_not] at ho
      cases rest with
      | nil =>
        rw [List.tail_nil, List.headD_nil, List.headD_nil, if_neg] at h
        · cases h
        · rw [List.headD_nil] at ho
          rw [ho]
          decide
      | cons opening rest =>
        rw [List.tail_cons, List.headD_cons] at h
        cases rest with
        | nil =>
          rw [List.headD_cons] at ho
          rw [List.headD_nil, ho, if_neg (by decide)] at h
          cases h
        | cons t rest =>
          rw [List.headD_cons] at h ho
          split at h
          · rename_i hc
            cases h
            exact .none ho hc
          · rename_i hc
            obtain ⟨inner, heq, hv, hl, ha, he⟩ := commaList_of_splitArguments begun_nil h
            rw [List.nil_append] at hl
            rw [heq]
            refine .some ho hv ?_ hl ha he
            rintro rfl
            obtain rfl : t = closer := by simpa using congrArg List.head? heq
            exact hc hv
  · intro h
    cases h with
    | none ho hc => simp [argumentList, hf, ho, hc]
    | @some opening closer inner after runs ho hc hne hl ha he =>
      obtain ⟨t, inner, rfl⟩ := List.exists_cons_of_ne_nil hne
      have ht : t.value ≠ ")" := by
        intro ht
        have hle := (hl.balanced fun run hr => (ha run hr).toBalanced).within [t] ⟨inner, rfl⟩
        rw [groupsClosed_cons, groupsOpened_cons, ht, if_pos rfl, if_neg (by decide)] at hle
        exact absurd hle (by decide)
      have hsplit := @splitArguments_of_commaList 1 closer [] _ after runs begun_nil hl ha hc he
      rw [List.cons_append] at hsplit
      have hv : ¬t.value = [')'] := ht
      simp [argumentList, hf, ho, hv, hsplit]

/-! ### Results -/

def Commaless (runs : List (List Token)) : Prop := ∀ run ∈ runs, ∀ t ∈ run, t.value ≠ ","

end Routine

theorem CommaList.unique {runs' : List (List Token)} (h : CommaList runs l) (h' : CommaList runs' l)
    (hc : Routine.Commaless runs) (hc' : Routine.Commaless runs') : runs = runs' := by
  have single {run : List Token} {comma : Token} (hrun : ∀ t ∈ run, t.value ≠ ",")
      (hcomma : comma.value = ",") : comma ∉ run := fun hm => hrun comma hm hcomma
  induction h generalizing runs' with
  | single run =>
    have hrun := hc run (by simp)
    cases h' with
    | single => rfl
    | cons run' hcomma more => exact absurd (by simp) (single hrun hcomma)
  | @cons run comma runs rest hcomma _ ih =>
    obtain ⟨hrun, hruns⟩ := List.forall_mem_cons.1 hc
    generalize hw : run ++ comma :: rest = whole at h'
    cases h' with
    | single => exact absurd (by simp [← hw]) (single (hc' whole (by simp)) hcomma)
    | @cons run' comma' runs' rest' hcomma' more =>
      obtain ⟨hrun', hruns'⟩ := List.forall_mem_cons.1 hc'
      rcases List.append_eq_append_iff.1 hw with ⟨more', rfl, heq⟩ | ⟨more', rfl, heq⟩
      · cases more' with
        | nil =>
          obtain ⟨rfl, rfl⟩ := List.cons.inj heq
          rw [List.append_nil, ih more hruns hruns']
        | cons u more' =>
          obtain ⟨rfl, -⟩ := List.cons.inj heq
          exact absurd (by simp) (single hrun' hcomma)
      · cases more' with
        | nil =>
          obtain ⟨rfl, rfl⟩ := List.cons.inj heq
          rw [List.append_nil, ih more hruns hruns']
        | cons u more' =>
          obtain ⟨rfl, -⟩ := List.cons.inj heq
          exact absurd (by simp) (single hrun hcomma')

namespace Routine

/-- What is taken back is cut at its commas, up to the start of the statement. -/
theorem takeBack_spec {out : List Token} (hl : CommaList (run :: runs) l)
    (hc : Commaless (run :: runs)) :
    CommaList (takeBack d run runs out).1
        ((out.takeWhile fun t => !startsStatement d t).reverse ++ l) ∧
      Commaless (takeBack d run runs out).1 ∧
      (takeBack d run runs out).2 = out.dropWhile fun t => !startsStatement d t := by
  induction out generalizing run runs l with
  | nil => exact ⟨hl, hc, rfl⟩
  | cons t out ih =>
    obtain ⟨hrun, hruns⟩ := List.forall_mem_cons.1 hc
    simp only [takeBack]
    split
    · rename_i hs
      simpa [hs] using ⟨hl, hc⟩
    · rename_i hs
      rw [Bool.not_eq_true] at hs
      simp only [List.takeWhile_cons, List.dropWhile_cons, hs, Bool.not_false, if_true,
        List.reverse_cons, List.append_assoc, List.singleton_append]
      split
      · rename_i hcomma
        exact ih (.cons [] hcomma hl) (List.forall_mem_cons.2 ⟨by simp, hc⟩)
      · rename_i hcomma
        refine ih ?_ (List.forall_mem_cons.2 ⟨List.forall_mem_cons.2 ⟨hcomma, hrun⟩, hruns⟩)
        cases hl with
        | single => exact .single _
        | cons run hv more => exact .cons (t :: run) hv more

theorem resultVariable_iff {v : Option Token} :
    resultVariable run = .ok v ↔ run = v.toList ∧ ∀ w ∈ v, w.kind = .identifier := by
  match run, v with
  | [], none => simp [resultVariable]
  | [], some w => simp [resultVariable]
  | [t], none =>
    simp only [resultVariable]
    split <;> simp
  | [t], some w =>
    by_cases hk : t.kind = .identifier
    · simp only [resultVariable, hk, ne_eq, not_true_eq_false, if_false, Except.ok.injEq,
        Option.some.injEq, Option.toList_some, List.cons.injEq, and_true, Option.mem_def,
        forall_eq']
      constructor
      · rintro rfl
        exact ⟨rfl, hk⟩
      · exact And.left
    · simp only [resultVariable, hk, ne_eq, not_false_eq_true, if_true, reduceCtorEq,
        Option.toList_some, List.cons.injEq, and_true, Option.mem_def, Option.some.injEq,
        forall_eq', false_iff, not_and]
      rintro rfl
      exact hk
  | t :: u :: more, v =>
    have hne : t :: u :: more ≠ v.toList := by cases v <;> simp
    simp only [resultVariable, hne, false_and, iff_false]
    split <;> simp

theorem mapM_resultVariable_iff {vars : List (Option Token)} :
    runs.mapM resultVariable = .ok vars ↔
      runs = vars.map Option.toList ∧ ∀ v, some v ∈ vars → v.kind = .identifier := by
  induction runs generalizing vars with
  | nil =>
    constructor
    · intro h
      cases h
      exact ⟨rfl, by simp⟩
    · rintro ⟨h, -⟩
      obtain rfl := List.map_eq_nil_iff.1 h.symm
      rfl
  | cons run runs ih =>
    rw [List.mapM_cons]
    constructor
    · intro h
      obtain ⟨v, hv, h⟩ := Outcome.bind_eq_ok_iff.1 h
      obtain ⟨more, hmore, h⟩ := Outcome.bind_eq_ok_iff.1 h
      cases h
      obtain ⟨rfl, hkind⟩ := resultVariable_iff.1 hv
      obtain ⟨rfl, hkinds⟩ := ih.1 hmore
      refine ⟨rfl, fun w hw => ?_⟩
      rcases List.mem_cons.1 hw with rfl | hw
      · exact hkind w rfl
      · exact hkinds w hw
    · rintro ⟨h, hkinds⟩
      obtain ⟨v, more, rfl, rfl, rfl⟩ := List.map_eq_cons_iff.1 h.symm
      have hv : resultVariable v.toList = .ok v :=
        resultVariable_iff.2 ⟨rfl, fun w hw => hkinds w (by simp [Option.mem_def.1 hw])⟩
      have hmore := ih.2 ⟨rfl, fun w hw => hkinds w (List.mem_cons_of_mem _ hw)⟩
      rw [hv, hmore]
      rfl

/-- What stands in front of a sign of equality (last token first): behind the start of the statement,
variables and empty places with commas between them. -/
structure Results (d : Dialect) (back : List Token) (vars : List (Option Token))
    (before : List Token) : Prop where
  split : ∃ taken stop earlier, back = taken.reverse ++ stop :: earlier ∧ before = stop :: earlier ∧
    startsStatement d stop = true ∧ (∀ t ∈ taken, startsStatement d t = false) ∧
    CommaList (vars.map Option.toList) taken
  names : ∀ v, some v ∈ vars → v.kind = .identifier ∧ v.value ≠ ","

/-- The results of a call are taken back to the start of its statement. -/
theorem callVariables_iff {equal : Token} {back before : List Token} {vars : List (Option Token)}
    (hp : back.getLast?.map Token.kind = some .program) (he : equal.value = "=") :
    callVariables d (equal :: back) = .ok (vars, before) ↔ Results d back vars before := by
  have hspec := @takeBack_spec d [] [] [] back (.single []) (by simp [Commaless])
  rw [List.append_nil] at hspec
  obtain ⟨hlist, hcommas, hrest⟩ := hspec
  have hcall : callVariables d (equal :: back) =
      ((takeBack d [] [] back).1.mapM resultVariable).map
        fun vars => (vars, (takeBack d [] [] back).2) := by
    simp [callVariables, he]
  rw [hcall]
  constructor
  · intro h
    obtain ⟨vars, hvars, heq⟩ := Outcome.map_eq_ok_iff.1 h
    cases heq
    obtain ⟨hruns, hkinds⟩ := mapM_resultVariable_iff.1 hvars
    rw [hruns] at hlist hcommas
    refine ⟨?_, fun v hv => ⟨hkinds v hv, hcommas (some v).toList ?_ v (by simp)⟩⟩
    · cases hfound : back.dropWhile fun t => !startsStatement d t with
      | nil =>
        -- the start of the program is never passed
        obtain ⟨last, hlast, hkind⟩ := Option.map_eq_some_iff.1 hp
        have hall := List.dropWhile_eq_nil_iff.1 hfound last (List.mem_of_getLast? hlast)
        simp [startsStatement, hkind] at hall
      | cons stop earlier =>
        have hsplit := List.takeWhile_append_dropWhile (p := fun t => !startsStatement d t)
          (l := back)
        rw [hfound] at hsplit
        refine ⟨_, stop, earlier, by rw [List.reverse_reverse, hsplit], by rw [hrest, hfound], ?_,
          fun t ht => ?_, hlist⟩
        · have hstop := List.head_dropWhile_not (p := fun t => !startsStatement d t) (l := back)
            (by simp [hfound])
          simpa [hfound] using hstop
        · simpa using List.mem_takeWhile_imp (List.mem_reverse.1 ht)
    · exact List.mem_map_of_mem hv
  · rintro ⟨⟨taken, stop, earlier, rfl, rfl, hstop, htaken, hl⟩, hnames⟩
    have hpass : ∀ t ∈ taken.reverse, (!startsStatement d t) = true := fun t ht => by
      simp [htaken t (List.mem_reverse.1 ht)]
    rw [List.takeWhile_append_of_pos hpass, List.takeWhile_cons_of_neg (by simp [hstop]),
      List.append_nil, List.reverse_reverse] at hlist
    rw [List.dropWhile_append_of_pos hpass, List.dropWhile_cons_of_neg (by simp [hstop])] at hrest
    have hcommas' : Commaless (vars.map Option.toList) := by
      intro run hrun t ht
      obtain ⟨v, hv, rfl⟩ := List.mem_map.1 hrun
      obtain rfl := Option.mem_toList.1 ht
      exact (hnames t hv).2
    rw [mapM_resultVariable_iff.2 ⟨hlist.unique hl hcommas hcommas', fun v hv => (hnames v hv).1⟩,
      hrest]
    rfl

/-- Arguments and results are cut at their commas, and nothing of them is lost. -/
theorem lists_exact (d : Dialect) :
    (∀ (fn closer : Token) (rest after : List Token) (runs : List (List Token)),
      fn.kind = .functionName →
        (argumentList fn rest = .ok (runs, closer, after) ↔ Arguments rest runs closer after)) ∧
    (∀ (equal : Token) (back before : List Token) (vars : List (Option Token)),
      back.getLast?.map Token.kind = some .program → equal.value = "=" →
        (callVariables d (equal :: back) = .ok (vars, before) ↔ Results d back vars before)) :=
  ⟨fun _ _ _ _ _ hf => argumentList_iff hf, fun _ _ _ _ hp he => callVariables_iff hp he⟩

/-- In `x,,y=.f(a,(b,c),):` there are three arguments, the last one empty, and the results go to
two variables with an empty place between them. -/
theorem lists_of_call :
    let word (c : Char) : Token := { kind := .identifier, value := [c] }
    let sign (c : Char) : Token := { kind := .symbol, value := [c] }
    let start : List Token := [{ kind := .newline, value := "" }, { kind := .program, value := "" }]
    Arguments [sign '(', word 'a', sign ',', sign '(', word 'b', sign ',', word 'c', sign ')', sign ',',
        sign ')', sign ':']
      [[word 'a'], [sign '(', word 'b', sign ',', word 'c', sign ')'], []] (sign ')') [sign ':'] ∧
    Results .msx (word 'y' :: sign ',' :: sign ',' :: word 'x' :: start)
      [some (word 'x'), none, some (word 'y')] start := by
  intro word sign start
  have lists := lists_exact .msx
  exact ⟨(lists.1 { kind := .functionName, value := ".f" } (sign ')') _ [sign ':'] _ rfl).1 (by decide +kernel),
    (lists.2 (sign '=') _ start _ rfl rfl).1 (by decide +kernel)⟩

end Routine

end ClassicBasic
