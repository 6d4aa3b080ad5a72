import ClassicBasic.Proofs.Case
import ClassicBasic.Proofs.Conversion
import ClassicBasic.Proofs.Entry

/-!
# What the first stage leaves

Every reader of the first stage gives back a rest of what it was given, so the tokens it takes and
the tokens it leaves are those that were lexed. The tables hold plain tokens, and the only entries
in the output are the functions of the file, each behind a line end.
-/

set_option autoImplicit false

namespace ClassicBasic

variable {d : Dialect}

theorem Bracketed.holding_eq {opening closing : Text} {t : Token} {rest : List Token}
    {content closer : Token} {after : List Token} (hne : opening ≠ closing)
    (h : read opening closing t rest = .ok (.holding content closer after)) :
    rest = content :: closer :: after ∧ closer.value = closing := by
  unfold read at h
  dsimp only at h
  split at h
  · cases h
  · split at h
    · cases h
    · split at h
      · cases h
      · rename_i ho hc hn
        cases h
        -- a list that is too short would make one token the opening and the closing one
        match rest with
        | [] => simp_all
        | [u] => simp_all
        | u :: w :: after => simpa using hn

theorem suffix_afterLineEnd (l : List Token) : afterLineEnd l <:+ l := by
  cases l with
  | nil => exact List.suffix_refl _
  | cons t rest =>
    simp only [afterLineEnd]
    split
    · exact List.suffix_cons t rest
    · exact List.suffix_refl _

/-- Whether a token is no line end, by its kind or by what is written in it. -/
def Token.Inline (t : Token) : Prop := t.kind ≠ .newline ∨ '\r' ∉ t.value

theorem Token.kind_ne_newline_of_endsLine {t : Token} (h : t.endsLine = false) :
    t.kind ≠ .newline := fun hk => by simp [endsLine, hk] at h

theorem Token.inline_of_endsLine {t : Token} (h : t.endsLine = false) : t.Inline :=
  .inl (kind_ne_newline_of_endsLine h)

/-- Whether `rest` is left of `input` when nothing but a part of its first line has been read. -/
def Within (input rest : List Token) : Prop := ∃ read, input = read ++ rest ∧ ∀ u ∈ read, u.Inline

namespace Within

variable {input rest left : List Token} {t : Token}

theorem refl (input : List Token) : Within input input := ⟨[], rfl, by simp⟩

theorem cons (ht : t.Inline) : Within (t :: rest) rest := ⟨[t], rfl, by simpa using ht⟩

theorem trans (h : Within input rest) (h' : Within rest left) : Within input left := by
  obtain ⟨read, rfl, hread⟩ := h
  obtain ⟨more, rfl, hmore⟩ := h'
  refine ⟨read ++ more, by simp, fun u hu => ?_⟩
  rcases List.mem_append.1 hu with hu | hu
  · exact hread u hu
  · exact hmore u hu

theorem suffix (h : Within input rest) : rest <:+ input := by
  obtain ⟨read, rfl, -⟩ := h
  exact List.suffix_append read rest

end Within

namespace Define

/-- The tokens of a define and of its default are plain. -/
structure Plain (d : Dialect) (m : Define) : Prop where
  body : ∀ t ∈ m.body, t.Plain d
  fallback : ∀ t ∈ m.fallback, t.Plain d

theorem slot_plain {v : Text} {pos : Position} : Token.Plain d ⟨.slot, v, pos⟩ :=
  Token.plain_of_unread rfl (by simp) rfl

/-- Whether `P` holds of what a define and its default come to at the places that `At` holds of. -/
structure HoldsAt (At : Position → Prop) (P : Token → Prop) (m : Define) : Prop where
  body : ∀ t ∈ m.body, t.kind ≠ .slot → ∀ pos, At pos → P (t.movedTo pos)
  fallback : ∀ t ∈ m.fallback, P t

abbrev Holds (P : Token → Prop) (m : Define) : Prop := m.HoldsAt (fun _ => True) P

variable {At : Position → Prop} {P : Token → Prop}

theorem Plain.holds {m : Define} (h : m.Plain d) : m.Holds (Token.Plain d) :=
  ⟨fun t ht _ _ _ => (h.body t ht).movedTo, h.fallback⟩

theorem instantiate_holds {m : Define} {given : List Token} {pos : Position} (hm : m.HoldsAt At P)
    (ha : At pos) (hg : ∀ t ∈ given, P t) : ∀ t ∈ m.instantiate given pos, P t := by
  intro t ht
  obtain ⟨u, hu, ht⟩ := List.mem_flatMap.1 ht
  split at ht
  · split at ht
    · exact hm.fallback t ht
    · exact hg t ht
  · rename_i hs
    rw [List.mem_singleton.1 ht]
    exact hm.body u hu hs pos ha

/-- Whether `t` opens an invocation. -/
def Opens (t : Token) : Prop := t.kind = .mark ∧ t.value = "["

def Readable (table : Defines) (input : List Token) : Prop :=
  ∃ depth e, argument table depth input = .ok e

/-- What the readers of invocations may rely on while `I` holds of what they read: `P` holds of the
tokens of arguments, the brackets of invocations apart, and `At` of where tokens are. -/
structure Supplies (I : List Token → Prop) (At : Position → Prop) (P : Token → Prop)
    (table : Defines) : Prop where
  next : ∀ t rest, I (t :: rest) → t.Inline → I rest
  token : ∀ t rest, I (t :: rest) → ¬Opens t → t.endsLine = false → Readable table rest → P t
  place : ∀ t u rest, I (t :: u :: rest) → isInvocable t.value = true → At t.pos

theorem Supplies.within {I : List Token → Prop} {table : Defines} {input rest : List Token}
    (h : Supplies I At P table) (hi : I input) (hw : Within input rest) : I rest := by
  obtain ⟨read, rfl, hread⟩ := hw
  induction read with
  | nil => exact hi
  | cons t read ih =>
    obtain ⟨ht, hrest⟩ := List.forall_mem_cons.1 hread
    exact ih hrest (h.next t _ hi ht)

/-- What the two readers of invocations make of an input: tokens that `P` holds of, and what follows
them on the line. -/
structure Expands (P : Token → Prop) (table : Defines) (input : List Token) : Prop where
  expand : ∀ t e, expand table t input = .ok e → (∀ u ∈ e.tokens, P u) ∧ Within input e.rest
  argument : ∀ depth e, argument table depth input = .ok e →
    (∀ u ∈ e.tokens, P u) ∧ Within input e.rest

theorem inline_of_isInvocable {t : Token} (h : isInvocable t.value = true) : t.Inline := by
  refine .inr fun hr => ?_
  simp only [isInvocable, Bool.or_eq_true, Bool.and_eq_true, beq_iff_eq] at h
  rcases h with hv | ⟨-, hall⟩
  · rw [hv] at hr
    exact absurd hr (by decide)
  · exact absurd (List.all_eq_true.1 hall _ (List.mem_map_of_mem hr)) (by decide)

variable {I : List Token → Prop}

theorem expand_step {table : Defines} {input : List Token} (hm : ∀ m ∈ table, m.HoldsAt At P)
    (hs : Supplies I At P table) (hi : I input)
    (ih : ∀ more, more.length < input.length → I more → Expands P table more)
    (t : Token) (e : Expansion input) (h : expand table t input = .ok e) :
    (∀ u ∈ e.tokens, P u) ∧ Within input e.rest := by
  unfold expand at h
  split at h
  · cases h
  · cases h
  · rename_i name closer after hb
    obtain ⟨rfl, hcloser⟩ := Bracketed.holding_eq (by decide) hb
    split at h
    · cases h
    · rename_i hname
      have hin : name.Inline := inline_of_isInvocable (by simpa using hname)
      have hclose : closer.Inline := .inr (by rw [hcloser]; decide)
      have hbracket (more : List Token) : Within (name :: closer :: more) more :=
        (Within.cons hin).trans (Within.cons hclose)
      split at h
      · cases h
      · rename_i m hf
        have hp := hm m (List.mem_of_find?_eq_some hf)
        have hat : At name.pos := hs.place name closer after hi (by simpa using hname)
        split at h
        · rename_i hd
          cases h
          have hd' : after = [] := by simpa using hd
          subst hd'
          exact ⟨instantiate_holds hp hat (by simp), hbracket []⟩
        · rename_i p more hd
          have hd' : after = p :: more := by simpa using hd
          subst hd'
          split at h
          · rename_i hparen
            split at h
            · cases h
            · rename_i arg harg
              cases h
              have hopen : p.Inline := .inr (by rw [hparen.2]; decide)
              have hmore : Within (name :: closer :: p :: more) more :=
                (hbracket _).trans (Within.cons hopen)
              obtain ⟨ht, hw⟩ := (ih more (by simp; omega) (hs.within hi hmore)).argument _ _ harg
              exact ⟨instantiate_holds hp hat ht, hmore.trans hw⟩
          · cases h
            exact ⟨instantiate_holds hp hat (by simp), hbracket _⟩

theorem argument_step {table : Defines} {input : List Token} (hs : Supplies I At P table)
    (hi : I input) (ih : ∀ more, more.length < input.length → I more → Expands P table more)
    (depth : Nat) (e : Expansion input) (h : argument table depth input = .ok e) :
    (∀ u ∈ e.tokens, P u) ∧ Within input e.rest := by
  cases input with
  | nil =>
    unfold argument at h
    cases h
  | cons t rest =>
    unfold argument at h
    split at h
    · cases h
    · rename_i hline
      have hend : t.endsLine = false := by simpa using hline
      have hpast : Within (t :: rest) rest := Within.cons (Token.inline_of_endsLine hend)
      have hrest := ih rest (by simp) (hs.within hi hpast)
      split at h
      · split at h
        · cases h
        · rename_i inner hinner
          split at h
          · cases h
          · rename_i more hmore
            cases h
            obtain ⟨ht, hw⟩ := hrest.expand _ _ hinner
            have hlt : inner.rest.length < (t :: rest).length := Nat.lt_succ_of_le inner.le
            obtain ⟨ht', hw'⟩ :=
              (ih inner.rest hlt (hs.within hi (hpast.trans hw))).argument _ _ hmore
            refine ⟨fun u hu => ?_, hpast.trans (hw.trans hw')⟩
            rcases List.mem_append.1 hu with hu | hu
            · exact ht u hu
            · exact ht' u hu
      · rename_i hopens
        split at h
        · cases h
          exact ⟨by simp, hpast⟩
        · dsimp only at h
          split at h
          · cases h
          · rename_i more hmore
            cases h
            obtain ⟨ht, hw⟩ := hrest.argument _ _ hmore
            have hp : P t := hs.token t rest hi hopens hend ⟨_, more, hmore⟩
            exact ⟨List.forall_mem_cons.2 ⟨hp, ht⟩, hpast.trans hw⟩

/-- What holds of defines and of the tokens of arguments holds of all that invocations expand to,
whatever is nested in them. The two readers call each other on shorter inputs. -/
theorem expands_of_supplies {table : Defines} (hm : ∀ m ∈ table, m.HoldsAt At P)
    (hs : Supplies I At P table) (input : List Token) (hi : I input) : Expands P table input :=
  ⟨expand_step hm hs hi fun more _ hmore => expands_of_supplies hm hs more hmore,
    argument_step hs hi fun more _ hmore => expands_of_supplies hm hs more hmore⟩
termination_by input.length

/-- Whether `P` holds of every token of an input that an argument can be read behind, the brackets of
invocations apart. -/
def Admits (P : Token → Prop) (table : Defines) (input : List Token) : Prop :=
  ∀ t rest, t :: rest <:+ input → ¬Opens t → Readable table rest → P t

theorem expands_of_holds {table : Defines} (hm : ∀ m ∈ table, m.Holds P) (input : List Token)
    (hi : Admits P table input) : Expands P table input := by
  have supplies : Supplies (Admits P table) (fun _ => True) P table := by
    refine ⟨fun t rest h _ u left hu => ?_, fun t rest h hn _ hr => ?_, fun _ _ _ _ _ => trivial⟩
    · exact h u left (hu.trans (List.suffix_cons t rest))
    · exact h t rest (List.suffix_refl _) hn hr
  exact expands_of_supplies hm supplies input hi

theorem expand_plain {table : Defines} {t : Token} {rest : List Token} {e : Expansion rest}
    (hm : ∀ m ∈ table, m.Plain d) (hi : ∀ u ∈ rest, u.Plain d)
    (h : expand table t rest = .ok e) : (∀ u ∈ e.tokens, u.Plain d) ∧ e.rest <:+ rest := by
  have hadmits : Admits (Token.Plain d) table rest := fun u _ hu _ _ => hi u (hu.mem List.mem_cons_self)
  obtain ⟨ht, hw⟩ :=
    (expands_of_holds (fun m hmem => (hm m hmem).holds) rest hadmits).expand t e h
  exact ⟨ht, hw.suffix⟩

theorem readFallback_spec {l : List Token} {r : List Token × List Token}
    (h : readFallback l = .ok r) : (∀ t ∈ r.1, t ∈ l) ∧ r.2 <:+ l := by
  induction l generalizing r with
  | nil => cases h
  | cons t rest ih =>
    simp only [readFallback] at h
    split at h
    · cases h
    · split at h
      · cases h
      · split at h
        · cases h
          exact ⟨by simp, List.suffix_cons t rest⟩
        · obtain ⟨s, hs, rfl⟩ := Outcome.map_eq_ok_iff.1 h
          obtain ⟨hm, hsuf⟩ := ih hs
          refine ⟨?_, hsuf.trans (List.suffix_cons t rest)⟩
          intro u hu
          rcases List.mem_cons.1 hu with rfl | hu
          · simp
          · simp [hm u hu]

theorem readBody_suffix {l : List Token} {r : List Token × Option (List Token) × List Token}
    (h : readBody l = .ok r) : r.2.2 <:+ l := by
  fun_induction readBody l generalizing r with
  | case1 => cases h
  | case2 => cases h
  | case3 => simp_all
  | case4 t rest _ _ inner after hf ih =>
    obtain ⟨s, hs, rfl⟩ := Outcome.map_eq_ok_iff.1 h
    exact (ih hs).trans ((readFallback_spec hf).2.trans (List.suffix_cons t rest))
  | case5 t rest =>
    cases h
    exact List.suffix_cons t rest
  | case6 t rest _ _ _ ih =>
    obtain ⟨s, hs, rfl⟩ := Outcome.map_eq_ok_iff.1 h
    exact (ih hs).trans (List.suffix_cons t rest)

theorem readBody_plain {l : List Token} {r : List Token × Option (List Token) × List Token}
    (hl : ∀ t ∈ l, t.Plain d) (h : readBody l = .ok r) :
    (∀ t ∈ r.1, t.Plain d) ∧ ∀ t ∈ r.2.1.getD [], t.Plain d := by
  fun_induction readBody l generalizing r with
  | case1 => cases h
  | case2 => cases h
  | case3 => simp_all
  | case4 t rest _ _ inner after hf ih =>
    obtain ⟨s, hs, rfl⟩ := Outcome.map_eq_ok_iff.1 h
    obtain ⟨hm, hsuf⟩ := readFallback_spec hf
    rw [List.forall_mem_cons] at hl
    obtain ⟨hb, -⟩ := ih (fun u hu => hl.2 u (hsuf.mem hu)) hs
    exact ⟨List.forall_mem_cons.2 ⟨slot_plain, hb⟩, fun u hu => hl.2 u (hm u hu)⟩
  | case5 =>
    cases h
    exact ⟨by simp, by simp⟩
  | case6 t rest _ _ _ ih =>
    obtain ⟨s, hs, rfl⟩ := Outcome.map_eq_ok_iff.1 h
    rw [List.forall_mem_cons] at hl
    obtain ⟨hb, hf⟩ := ih hl.2 hs
    exact ⟨List.forall_mem_cons.2 ⟨hl.1, hb⟩, hf⟩

theorem readParametric_plain {name opening : Token} {rest : List Token}
    {r : Define × List Token} (hl : ∀ t ∈ rest, t.Plain d)
    (h : readParametric name opening rest = .ok r) : r.1.Plain d ∧ r.2 <:+ rest := by
  unfold readParametric at h
  dsimp only at h
  split at h
  · cases h
  · split at h
    · cases h
    · split at h
      · cases h
      · cases h
        refine ⟨⟨?_, by simp⟩, ?_⟩
        · intro t ht
          obtain ⟨u, hu, rfl⟩ := List.mem_map.1 ht
          split
          · exact slot_plain
          · exact hl u (List.mem_of_mem_drop (List.takeWhile_subset _ hu))
        · exact (suffix_afterLineEnd _).trans
            ((List.dropWhile_suffix _).trans (List.drop_suffix 2 rest))

theorem readName_suffix {table : Defines} {t : Token} {rest : List Token}
    {r : Token × Token × List Token} (h : readName table t rest = .ok r) : r.2.2 <:+ rest := by
  unfold readName at h
  split at h
  · cases h
  · cases h
  · rename_i name closer after hb
    split at h
    · cases h
    · split at h
      · cases h
      · cases h
        have ht := (Bracketed.holding_eq (by decide) hb).1
        have hs : after <:+ rest.tail := ht ▸ List.suffix_append [name, closer] after
        exact (List.tail_suffix after).trans (hs.trans (List.tail_suffix rest))

theorem readLine_plain {table : Defines} {t : Token} {rest : List Token}
    {r : Defines × List Token} (hm : ∀ m ∈ table, m.Plain d) (hl : ∀ u ∈ rest, u.Plain d)
    (h : readLine table t rest = .ok r) : (∀ m ∈ r.1, m.Plain d) ∧ r.2 <:+ rest := by
  have grow {table : Defines} {m : Define} (hm : ∀ m ∈ table, m.Plain d) (hp : m.Plain d) :
      ∀ m' ∈ table ++ [m], m'.Plain d := by
    intro m' hm'
    rcases List.mem_append.1 hm' with hm' | hm'
    · exact hm m' hm'
    · rwa [List.mem_singleton.1 hm']
  fun_induction readLine table t rest generalizing r with
  | case1 => cases h
  | case2 table t rest name next after hn =>
    obtain ⟨s, hs, rfl⟩ := Outcome.map_eq_ok_iff.1 h
    have hsuf := readName_suffix hn
    obtain ⟨hp, hrest⟩ := readParametric_plain (fun u hu => hl u (hsuf.mem hu)) hs
    exact ⟨grow hm hp, hrest.trans hsuf⟩
  | case3 => cases h
  | case4 => cases h
  | case5 => cases h
  | case6 table t rest name next after hn _ _ body fallback u left hb =>
    rename_i ih
    have hsuf := readName_suffix hn
    obtain ⟨hbody, hfall⟩ := readBody_plain (fun u hu => hl u (hsuf.mem hu)) hb
    have hleft : left <:+ rest :=
      (List.suffix_cons u left).trans ((readBody_suffix hb).trans hsuf)
    obtain ⟨hp, hr⟩ := ih (grow hm ⟨hbody, hfall⟩) (fun u hu => hl u (hleft.mem hu)) h
    exact ⟨hp, hr.trans hleft⟩
  | case7 table t rest name next after hn _ _ body fallback u left hb =>
    cases h
    have hsuf := readName_suffix hn
    obtain ⟨hbody, hfall⟩ := readBody_plain (fun u hu => hl u (hsuf.mem hu)) hb
    exact ⟨grow hm ⟨hbody, hfall⟩,
      (suffix_afterLineEnd _).trans ((readBody_suffix hb).trans hsuf)⟩
  | case8 => cases h

end Define

namespace Routine

/-- The tokens that the parameters and the results of a function are made of are plain. -/
structure Plain (d : Dialect) (f : Routine) : Prop where
  parameters : ∀ p ∈ f.parameters, p.name.Plain d ∧ ∀ t ∈ p.fallback, t.Plain d
  results : ∀ r ∈ f.results, ∀ t ∈ r, t.Plain d

theorem splitArguments_spec {depth : Nat} {run l after : List Token} {runs : List (List Token)}
    {closer : Token} (h : splitArguments depth run l = .ok (runs, closer, after)) :
    ∃ read, l = read ++ closer :: after ∧ closer.value = ")" ∧ (∀ t ∈ read, t.endsLine = false) ∧
      ∀ r ∈ runs, ∀ t ∈ r, t ∈ run ∨ t ∈ read := by
  induction l generalizing depth run runs with
  | nil => cases h
  | cons t rest ih =>
    have next {depth : Nat} {run' : List Token} {runs : List (List Token)}
        (ht : t.endsLine = false) (hr : ∀ u ∈ run', u ∈ run ∨ u = t)
        (h : splitArguments depth run' rest = .ok (runs, closer, after)) :
        ∃ read, t :: rest = read ++ closer :: after ∧ closer.value = ")" ∧
          (∀ t ∈ read, t.endsLine = false) ∧ ∀ r ∈ runs, ∀ t ∈ r, t ∈ run ∨ t ∈ read := by
      obtain ⟨read, rfl, hc, hn, hm⟩ := ih h
      refine ⟨t :: read, rfl, hc, List.forall_mem_cons.2 ⟨ht, hn⟩, ?_⟩
      intro r hr' u hu
      rcases hm r hr' u hu with hu | hu
      · rcases hr u hu with hu | rfl
        · exact .inl hu
        · simp
      · simp [hu]
    have pushed : ∀ u ∈ run ++ [t], u ∈ run ∨ u = t := by simp
    simp only [splitArguments] at h
    split at h
    · cases h
    · rename_i hl
      have ht : t.endsLine = false := by simpa using hl
      split at h
      · exact next ht pushed h
      · split at h
        · obtain ⟨⟨more, closer', after'⟩, hs, he⟩ := Outcome.map_eq_ok_iff.1 h
          cases he
          obtain ⟨read, heq, hc, hn, hm⟩ := next ht (by simp) hs
          refine ⟨read, heq, hc, hn, List.forall_mem_cons.2 ⟨fun u hu => .inl hu, hm⟩⟩
        · split at h
          · split at h
            · cases h
              exact ⟨[], rfl, ‹_›, by simp, by simp_all⟩
            · exact next ht pushed h
          · exact next ht pushed h

/-- The arguments of a function are on one line, up to the parenthesis that closes them. -/
theorem argumentList_spec {fn closer : Token} {rest after : List Token}
    {runs : List (List Token)} (hl : ∀ t ∈ rest, t.Lawful d)
    (h : argumentList fn rest = .ok (runs, closer, after)) :
    fn.kind = .functionName ∧ ∃ read, rest = read ++ after ∧ (∀ t ∈ read, t.kind ≠ .newline) ∧
      ∀ r ∈ runs, ∀ t ∈ r, t ∈ read ∧ t.endsLine = false := by
  have signs {t : Token} (ht : t ∈ rest) {v : Text} (hv : t.value = v) (hr : '\r' ∉ v) :
      t.kind ≠ .newline := (hl t ht).kind_ne_newline (hv ▸ hr)
  unfold argumentList at h
  dsimp only at h
  split at h
  · cases h
  · rename_i hf
    refine ⟨by simpa using hf, ?_⟩
    split at h
    · cases h
    · rename_i ho
      match rest with
      | [] =>
        split at h
        · simp_all
        · cases h
      | [u] =>
        split at h
        · simp_all
        · cases h
      | u :: w :: more =>
        have hu : u.kind ≠ .newline := signs (by simp) (by simpa using ho) (by decide)
        split at h
        · rename_i hc
          cases h
          have hw : w.kind ≠ .newline := signs (by simp) (by simpa using hc) (by decide)
          exact ⟨[u, w], rfl, by simp [hu, hw], by simp⟩
        · obtain ⟨read, heq, hc, hn, hm⟩ := splitArguments_spec h
          have hw : closer.kind ≠ .newline := signs (by simp_all) hc (by decide)
          refine ⟨u :: read ++ [closer], ?_, ?_, ?_⟩
          · simp only [List.tail_cons] at heq
            simp [heq]
          · simp only [List.cons_append, List.mem_cons, List.mem_append, List.not_mem_nil, or_false]
            rintro t (rfl | ht | rfl)
            · exact hu
            · exact Token.kind_ne_newline_of_endsLine (hn t ht)
            · exact hw
          · intro r hr t ht
            rcases hm r hr t ht with ht | ht
            · cases ht
            · exact ⟨by simp [ht], hn t ht⟩

theorem parameter_holds {P : Token → Prop} {fn : Token} {run : List Token} {p : Parameter}
    (hr : ∀ t ∈ run, P t) (h : parameter fn run = .ok p) : P p.name ∧ ∀ t ∈ p.fallback, P t := by
  unfold parameter at h
  split at h
  · cases h
  · split at h
    · cases h
      simpa using hr
    · cases h
  · split at h
    · cases h
    · split at h
      · cases h
      · cases h
        simp only [List.forall_mem_cons] at hr
        exact ⟨hr.1, hr.2.2⟩

theorem splitResults_spec (run : List Token) (last : Token) (l : List Token) :
    (∀ r ∈ (splitResults run last l).1, ∀ t ∈ r, t ∈ run ∨ t ∈ l) ∧
      (splitResults run last l).2.2 <:+ l := by
  induction l generalizing run last with
  | nil => simp [splitResults]
  | cons t rest ih =>
    simp only [splitResults]
    split
    · exact ⟨by simp_all, List.suffix_refl _⟩
    · split
      · obtain ⟨hm, hs⟩ := ih [] t
        refine ⟨List.forall_mem_cons.2 ⟨fun u hu => .inl hu, ?_⟩,
          hs.trans (List.suffix_cons t rest)⟩
        intro r hr u hu
        simpa using .inr (.inr (by simpa using hm r hr u hu))
      · obtain ⟨hm, hs⟩ := ih (run ++ [t]) t
        refine ⟨?_, hs.trans (List.suffix_cons t rest)⟩
        intro r hr u hu
        simpa [or_assoc] using hm r hr u hu

theorem resultList_spec (ret : Token) (rest : List Token) :
    (∀ r ∈ (resultList ret rest).1, ∀ t ∈ r, t ∈ rest) ∧
      (resultList ret rest).2.2 <:+ rest := by
  unfold resultList
  split
  · exact ⟨by simp, List.suffix_refl _⟩
  · have h := splitResults_spec [] ret rest
    exact ⟨fun r hr t ht => by simpa using h.1 r hr t ht, h.2⟩

end Routine

/-- What is known about a file is put together from plain tokens. -/
structure Tables.Plain (d : Dialect) (tables : Tables) : Prop where
  defines : ∀ m ∈ tables.defines, m.Plain d
  routines : ∀ e ∈ tables.routines, e.2.Plain d
  opened : ∀ e ∈ tables.opened, ∀ p ∈ e.2, p.name.Plain d ∧ ∀ t ∈ p.fallback, t.Plain d

theorem PrintAt.builtin_plain (d : Dialect) (pos : Position) :
    ∀ m ∈ PrintAt.builtin d pos, m.Plain d := by
  have special (v : Text) : Token.Plain d ⟨.special, v, {}⟩ :=
    Token.plain_of_unread rfl (by simp) rfl
  have snippet (code : Text) := Lexer.snippet_plain (d := d) pos code
  intro m hm
  cases d with
  | msx =>
    rw [List.mem_singleton.1 hm]
    refine ⟨?_, snippet _⟩
    intro t ht
    simp only [List.mem_append, List.mem_singleton] at ht
    rcases ht with (ht | rfl) | ht
    · exact snippet _ t ht
    · exact Define.slot_plain
    · exact snippet _ t ht
  | coco =>
    rw [List.mem_singleton.1 hm]
    refine ⟨?_, snippet _⟩
    simp only [List.forall_mem_cons]
    exact ⟨special _, Define.slot_plain, special _, by simp⟩

namespace Directive

theorem suffix_skipLine {tag : Token} {l left : List Token} (h : skipLine tag l = .ok left) :
    left <:+ l := by
  induction l with
  | nil => cases h
  | cons t rest ih =>
    simp only [skipLine] at h
    split at h
    · cases h
    · split at h
      · cases h
        exact List.suffix_cons t _
      · exact (ih h).trans (List.suffix_cons t rest)

theorem suffix_skipBlock {tag last : Token} {l left : List Token}
    (h : skipBlock tag last l = .ok left) : left <:+ l := by
  induction l generalizing last with
  | nil => cases h
  | cons t rest ih =>
    simp only [skipBlock] at h
    split at h
    · cases h
    · split at h
      · cases h
        exact List.suffix_cons t _
      · exact (ih h).trans (List.suffix_cons t rest)

theorem suffix_skipToggled {tag : Token} {l left : List Token}
    (h : skipToggled tag l = .ok left) : left <:+ l := by
  unfold skipToggled at h
  split at h
  · exact suffix_skipBlock h
  · exact suffix_skipLine h

theorem suffix_keepTags {keeps : List Text} {l : List Token} {r : List Text × List Token}
    (h : keepTags keeps l = .ok r) : r.2 <:+ l := by
  induction l generalizing keeps with
  | nil => cases h
  | cons t rest ih =>
    simp only [keepTags] at h
    split at h
    · cases h
      exact suffix_afterLineEnd (t :: rest)
    · split at h
      · cases h
      · split at h
        · cases h
        · exact (ih h).trans (List.suffix_cons t rest)

/-- The name of a function starts with a point, in small letters as well. -/
theorem functionEntry_lawful {fn : Token} {pos : Position} (h : fn.Lawful d)
    (hk : fn.kind = .functionName) : Token.Lawful d ⟨.functionEntry, fn.lower, pos⟩ := by
  refine ⟨by simp, by simp [Kind.isRead, Kind.isRaw, Kind.isMade], fun _ => ?_⟩
  obtain ⟨name, hv⟩ := Dialect.accepts_functionName (hk ▸ h.classified (hk ▸ rfl))
  intro he
  have hc : Text.lowerChar '.' = '~' := by
    have := congrArg List.head? he
    simpa [Token.lower, hv, Text.lower, Merge.keepSign] using this
  exact absurd hc (by decide)

/-- What one token of the first stage can lead to, DECLARE and the end apart. -/
inductive Turn (d : Dialect) (tables : Tables) (out : List Token) (t : Token) (rest : List Token) :
    Progress → Prop
  /-- An active tag goes. -/
  | untagged (hk : t.kind = .toggle) (hl : atLineStart out) : Turn d tables out t rest ⟨tables, out, rest⟩
  /-- Lines behind an inactive tag go. -/
  | skipped {left : List Token} (hl : atLineStart out) (h : skipToggled t rest = .ok left) :
    Turn d tables out t rest ⟨tables, out, left⟩
  /-- EXIT and INCLUDE are left to later stages. -/
  | left (hk : t.kind = .directive) : Turn d tables out t rest ⟨tables, t :: out, rest⟩
  /-- ENDIF goes. -/
  | gone (hk : t.kind = .directive) : Turn d tables out t rest ⟨tables, out, rest⟩
  | defined {r : Defines × List Token} (hl : atLineStart out)
    (h : Define.readLine tables.defines t rest = .ok r) :
    Turn d tables out t rest ⟨{ tables with defines := r.1 }, out, r.2⟩
  | tagged {r : List Text × List Token} (hl : atLineStart out)
    (h : keepTags tables.keeps rest = .ok r) :
    Turn d tables out t rest ⟨{ tables with keeps := r.1 }, out, r.2⟩
  /-- A function starts behind a line end. -/
  | opened {runs : List (List Token)} {closer : Token} {after : List Token} {ps : List Parameter}
    (hl : atLineStart out)
    (ha : Routine.argumentList (rest.headD t) rest.tail = .ok (runs, closer, after))
    (hp : runs.mapM (Routine.parameter (rest.headD t)) = .ok ps) :
    Turn d tables out t rest ⟨{ tables with opened := some (rest.headD t, ps) },
      ⟨.functionEntry, (rest.headD t).lower, closer.pos.withCol 1⟩ :: out, after⟩
  /-- A function ends. -/
  | closed {fn : Token} {ps : List Parameter} (hl : atLineStart out)
    (ho : tables.opened = some (fn, ps)) :
    Turn d tables out t rest ⟨{ tables with
        routines := tables.routines ++
          [(fn.lower, { parameters := ps, results := (Routine.resultList t rest).1 })]
        opened := none },
      (Lexer.snippet d (Routine.resultList t rest).2.1.pos "return").reverse ++ out,
      (Routine.resultList t rest).2.2⟩
  | expanded {e : Define.Expansion rest} (hk : Define.Opens t)
    (h : Define.expand tables.defines t rest = .ok e) :
    Turn d tables out t rest ⟨tables, e.tokens.reverse ++ out, e.rest⟩
  | passed (hk : ¬Define.Opens t) :
    Turn d tables out t rest ⟨tables, asCall d out t rest :: out, rest⟩

theorem obey_cases {tables : Tables} {out : List Token} {t : Token} {rest : List Token}
    {p : Progress} (hk : t.kind = .directive) (h : obey d tables out t rest = .ok p) :
    Turn d tables out t rest p := by
  unfold obey at h
  dsimp only at h
  split at h
  · cases h
    exact .left hk
  · split at h
    · cases h
      exact .gone hk
    · split at h
      · rename_i hl
        obtain ⟨r, hr, rfl⟩ := Outcome.map_eq_ok_iff.1 h
        exact .defined (Bool.and_eq_true_iff.1 hl).2 hr
      · split at h
        · rename_i hl
          obtain ⟨r, hr, rfl⟩ := Outcome.map_eq_ok_iff.1 h
          exact .tagged (Bool.and_eq_true_iff.1 hl).2 hr
        · split at h
          · rename_i hl
            obtain ⟨r, hr, rfl⟩ := Outcome.map_eq_ok_iff.1 h
            unfold openRoutine at hr
            dsimp only at hr
            split at hr
            · cases hr
            · split at hr
              · cases hr
              · split at hr
                · cases hr
                · rename_i ha
                  split at hr
                  · cases hr
                  · rename_i hp
                    cases hr
                    exact .opened (Bool.and_eq_true_iff.1 hl).2 ha hp
          · split at h
            · rename_i hl
              obtain ⟨r, hr, rfl⟩ := Outcome.map_eq_ok_iff.1 h
              unfold closeRoutine at hr
              split at hr
              · cases hr
              · rename_i ho
                dsimp only at hr
                split at hr
                · cases hr
                · cases hr
                  exact .closed (Bool.and_eq_true_iff.1 hl).2 ho
            · cases h

theorem step_cases {tables : Tables} {out : List Token} {t : Token} {rest : List Token}
    {p : Progress} (h : step d tables out t rest = .ok p) : Turn d tables out t rest p := by
  unfold step at h
  split at h
  · rename_i hk
    split at h
    · cases h
      exact .untagged hk.1 hk.2
    · obtain ⟨left, hleft, rfl⟩ := Outcome.map_eq_ok_iff.1 h
      exact .skipped hk.2 hleft
  · split at h
    · rename_i hk
      exact obey_cases hk h
    · split at h
      · rename_i hk
        obtain ⟨e, he, rfl⟩ := Outcome.map_eq_ok_iff.1 h
        exact .expanded hk he
      · rename_i hk
        cases h
        exact .passed hk

theorem asCall_cases (out : List Token) (t : Token) (rest : List Token) :
    asCall d out t rest = t ∨ ((t.kind = .joiner ∨ t.kind = .identifier) ∧
      ((asCall d out t rest).kind = .call ∨ (asCall d out t rest).kind = .callName)) := by
  unfold asCall
  split
  · exact .inl rfl
  · split
    · rename_i hk
      exact .inr ⟨.inl hk.1, .inl rfl⟩
    · split
      · rename_i hk
        exact .inr ⟨.inr hk.1, .inr rfl⟩
      · exact .inl rfl

theorem asCall_plain {out : List Token} {t : Token} {rest : List Token} (ht : t.Plain d) :
    (asCall d out t rest).Plain d := by
  unfold asCall
  split
  · exact ht
  · split
    · exact Token.plain_of_unread rfl (by simp) rfl
    · split
      · exact Token.plain_of_unread rfl (by simp) rfl
      · exact ht

theorem head_lexed {t : Token} {rest : List Token} (hl : ∀ u ∈ t :: rest, u.Lexed d) :
    (rest.headD t).Lexed d := by
  cases rest with
  | nil => exact hl t (by simp)
  | cons u rest => exact hl u (by simp)

open Entry in
theorem step_sound {tables : Tables} {out : List Token} {t : Token} {rest : List Token}
    {p : Progress} (hp : tables.Plain d) (ho : Sound d out) (hl : ∀ u ∈ t :: rest, u.Lexed d)
    (h : step d tables out t rest = .ok p) :
    p.tables.Plain d ∧ Sound d p.out ∧ p.rest <:+ rest := by
  have hrest : ∀ u ∈ rest, u.Lexed d := fun u hu => hl u (List.mem_cons_of_mem _ hu)
  have hplain : ∀ u ∈ rest, u.Plain d := fun u hu => (hrest u hu).plain
  cases step_cases h with
  | untagged => exact ⟨hp, ho, List.suffix_refl _⟩
  | skipped _ hleft => exact ⟨hp, ho, suffix_skipToggled hleft⟩
  | left => exact ⟨hp, ho.cons (hl t (by simp)).plain, List.suffix_refl _⟩
  | gone => exact ⟨hp, ho, List.suffix_refl _⟩
  | defined _ hr =>
    obtain ⟨hm, hs⟩ := Define.readLine_plain hp.defines hplain hr
    exact ⟨⟨hm, hp.routines, hp.opened⟩, ho, hs⟩
  | tagged _ hr => exact ⟨⟨hp.defines, hp.routines, hp.opened⟩, ho, suffix_keepTags hr⟩
  | @opened runs closer after ps hline ha hps =>
    have htail : ∀ u ∈ rest.tail, u.Lexed d := fun u hu => hrest u (List.mem_of_mem_tail hu)
    obtain ⟨hk, read, heq, -, hm⟩ :=
      Routine.argumentList_spec (fun u hu => (htail u hu).toLawful) ha
    have hruns : ∀ r ∈ runs, ∀ u ∈ r, u.Plain d := fun r hr u hu =>
      (htail u (heq ▸ List.mem_append_left _ (hm r hr u hu).1)).plain
    refine ⟨⟨hp.defines, hp.routines, ?_⟩, ?_, ?_⟩
    · intro e he
      cases he
      intro p hp
      obtain ⟨run, hrun, hparameter⟩ := Outcome.exists_of_forall₂ (Outcome.forall₂_of_mapM hps) hp
      exact Routine.parameter_holds (hruns run hrun) hparameter
    · exact ho.push (functionEntry_lawful (head_lexed hl).toLawful hk) fun _ => hline
    · exact List.IsSuffix.trans ⟨read, heq.symm⟩ (List.tail_suffix rest)
  | @closed fn ps _ hopened =>
    obtain ⟨hm, hs⟩ := Routine.resultList_spec t rest
    refine ⟨⟨hp.defines, ?_, by simp⟩, ho.append_reverse (Lexer.snippet_plain _ _), hs⟩
    intro e he
    rcases List.mem_append.1 he with he | he
    · exact hp.routines e he
    · rw [List.mem_singleton.1 he]
      exact ⟨hp.opened (fn, ps) hopened, fun r hr u hu => (hrest u (hm r hr u hu)).plain⟩
  | expanded _ he =>
    obtain ⟨hm, hs⟩ := Define.expand_plain hp.defines hplain he
    exact ⟨hp, ho.append_reverse hm, hs⟩
  | passed => exact ⟨hp, ho.cons (asCall_plain (hl t (by simp)).plain), List.suffix_refl _⟩

end Directive

theorem Declaration.suffix_read {t : Token} {rest : List Token} {r : Declaration × List Token}
    (h : read d t rest = .ok r) : r.2 <:+ rest := by
  unfold read at h
  dsimp only at h
  split at h
  · cases h
  · split at h
    · cases h
    · split at h
      · cases h
      · split at h
        · cases h
          exact List.tail_suffix rest
        · split at h
          · cases h
          · split at h
            · cases h
            · cases h
              exact (List.drop_suffix 2 rest.tail).trans (List.tail_suffix rest)

theorem Conversion.suffix_declareLine {quiet : Bool} {t : Token} {rest : List Token}
    {r : { left : List Token // left.length ≤ rest.length }} {σ τ : Session}
    (h : declareLine d quiet t rest σ = .ok r τ) : r.1 <:+ rest := by
  fun_induction declareLine d quiet t rest generalizing σ with
  | case1 => exact absurd h throw_ne_ok
  | case2 t rest entry after hr ih =>
    obtain ⟨-, ρ, -, h⟩ := bind_eq_ok_iff.1 h
    have hs := Declaration.suffix_read hr
    split at h
    · exact absurd h throw_ne_ok
    · rename_i u left _
      split at h
      · obtain ⟨f, ρ', hf, h⟩ := bind_eq_ok_iff.1 h
        obtain ⟨rfl, rfl⟩ := pure_eq_ok_iff.1 h
        exact (ih u left rfl hf).trans ((List.suffix_cons u left).trans hs)
      · split at h
        · cases (pure_eq_ok_iff.1 h).1
          exact (suffix_afterLineEnd _).trans hs
        · exact absurd h throw_ne_ok

namespace Directive

open Entry in
theorem run_sound {quiet : Bool} {tables : Tables} {out input : List Token}
    {r : Tables × List Token} {σ τ : Session} (hp : tables.Plain d) (ho : Sound d out)
    (hl : ∀ u ∈ input, u.Lexed d) (h : run d quiet tables out input σ = .ok r τ) :
    r.1.Plain d ∧ Sound d r.2.reverse := by
  fun_induction run d quiet tables out input generalizing σ with
  | case1 => exact absurd h Conversion.throw_ne_ok
  | case2 tables out t rest hk =>
    obtain ⟨rfl, -⟩ := Conversion.pure_eq_ok_iff.1 h
    refine ⟨hp, ?_⟩
    rw [List.reverse_reverse]
    exact ho.cons (hl t (by simp)).plain
  | case3 tables out t rest _ _ ih =>
    obtain ⟨left, ρ, hd, h⟩ := Conversion.bind_eq_ok_iff.1 h
    have hs := Conversion.suffix_declareLine hd
    exact ih left.1 left.2 hp ho (fun u hu => hl u (List.mem_cons_of_mem _ (hs.mem hu))) h
  | case4 => exact absurd h Conversion.throw_ne_ok
  | case5 tables out t rest _ _ p hstep ih =>
    obtain ⟨hp', ho', hs⟩ := step_sound hp ho hl hstep
    exact ih hp' ho' (fun u hu => hl u (List.mem_cons_of_mem _ (hs.mem hu))) h

open Entry in
/-- The first stage keeps the start of a file, and its functions start where a line does. -/
theorem carryOut_sound {quiet : Bool} {listing : Listing} {lexed : List Token}
    {r : Tables × List Token} {σ τ : Session} (hx : Lexer.lex d listing = .ok lexed)
    (h : carryOut d quiet lexed σ = .ok r τ) : r.1.Plain d ∧ Sound d r.2.reverse := by
  obtain ⟨start, newline, rest, rfl, hs, hn⟩ := Lexer.lex_start hx
  have hl := Lexer.lex_lexed hx
  simp only [List.forall_mem_cons] at hl
  refine run_sound ⟨PrintAt.builtin_plain d _, by simp, by simp⟩ ⟨?_, ?_, ?_⟩ hl.2.2 h
  · simpa using ⟨hl.2.1.toLawful, hl.1.toLawful⟩
  · simp [Placed, Kind.isEntry, hs, hn]
  · exact ⟨[], newline, start, rfl, hn, hs⟩

end Directive

end ClassicBasic
