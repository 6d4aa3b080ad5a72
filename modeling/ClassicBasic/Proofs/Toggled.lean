import ClassicBasic.Proofs.Lookahead
import Mathlib.Data.List.Destutter

/-!
# Code behind inactive tags

A line behind an inactive tag, and the lines between two such tags, leave no trace: without them the
first stage comes to the same tables and the same names, and to the same tokens but for line ends that
stand behind line ends.
-/

set_option autoImplicit false

namespace ClassicBasic.Directive

variable {d : Dialect} {quiet : Bool}

/-! ### The program without the lines that are skipped -/

/-- Whether `u`, between `last` and `rest`, is the tag `tag` alone on a line. -/
def StandsAlone (tag last u : Token) (rest : List Token) : Prop :=
  u.kind = .toggle ∧ u.is tag.value = true ∧ last.kind = .newline ∧ (rest.headD u).kind = .newline

/-- Whether `body` is what stands between `tag`, alone on a line, and the next line that holds only the
same tag, `closer` with its end `newline`. -/
structure Encloses (tag : Token) (body : List Token) (closer newline : Token) (left : List Token) :
    Prop where
  alone : ∀ u ∈ body.head?, u.kind = .newline
  inside : ∀ u ∈ body, u.kind ≠ .eof
  closed : StandsAlone tag (body.getLastD tag) closer (newline :: left)
  first : ∀ front u back, body = front ++ u :: back →
    ¬StandsAlone tag (front.getLastD tag) u (back ++ closer :: newline :: left)

/-- Whether `kept` is the input at a point of the first stage without the lines that are skipped from
there: those that start with an inactive tag followed by code, and those from a line that holds only an
inactive tag to the next that holds only the same tag. `last` is the last token in front of the input. -/
inductive Trimmed (d : Dialect) (quiet : Bool) : Token → Point → List Token → Prop
  | done {last t : Token} {rest : List Token} {p : Point} (hp : p.input = t :: rest)
    (ht : t.kind = .eof) : Trimmed d quiet last p p.input
  | line {last t newline : Token} {σ : Session} {tables : Tables} {out code left kept : List Token}
    (hl : last.kind = .newline) (ht : t.kind = .toggle) (ha : isActive tables.keeps t.upper = false)
    (hc : code ≠ []) (hcode : ∀ u ∈ code, u.endsLine = false) (hn : newline.kind = .newline)
    (hm : Trimmed d quiet last ⟨σ, tables, out, left⟩ kept) :
    Trimmed d quiet last ⟨σ, tables, out, t :: (code ++ newline :: left)⟩ kept
  | block {last t closer newline : Token} {σ : Session} {tables : Tables}
    {out body left kept : List Token} (hl : last.kind = .newline) (ht : t.kind = .toggle)
    (ha : isActive tables.keeps t.upper = false) (hb : Encloses t body closer newline left)
    (hm : Trimmed d quiet last ⟨σ, tables, newline :: out, left⟩ kept) :
    Trimmed d quiet last ⟨σ, tables, out, t :: (body ++ closer :: newline :: left)⟩ kept
  /-- Any other token is kept, with what the stage reads with it. -/
  | taken {last t : Token} {read kept : List Token} {p q : Point}
    (hp : p.input = t :: (read ++ q.input)) (hs : Step d quiet p q)
    (hn : ¬(last.kind = .newline ∧ t.kind = .toggle ∧ isActive p.tables.keeps t.upper = false))
    (hm : Trimmed d quiet (read.getLastD t) q kept) : Trimmed d quiet last p (t :: (read ++ kept))

/-- Whether `kept` is the program `lexed` without the lines that the first stage skips. -/
def Untoggled (d : Dialect) (quiet : Bool) (σ : Session) (lexed kept : List Token) : Prop :=
  ∃ start newline rest more, lexed = start :: newline :: rest ∧ kept = start :: newline :: more ∧
    Trimmed d quiet newline ⟨σ, { defines := PrintAt.builtin d start.pos }, [newline, start], rest⟩ more

/-- Whether two tokens are not two line ends. -/
def Apart (t u : Token) : Prop := ¬(t.kind = .newline ∧ u.kind = .newline)

instance : DecidableRel Apart := fun t u => inferInstanceAs (Decidable ¬(t.kind = .newline ∧ u.kind = .newline))

theorem Trimmed.head_eq {last : Token} {p : Point} {kept : List Token}
    (h : Trimmed d quiet last p kept) (hl : last.kind ≠ .newline) : kept.head? = p.input.head? := by
  cases h with
  | done => rfl
  | line hn => exact absurd hn hl
  | block hn => exact absurd hn hl
  | taken hp =>
    rw [hp]
    rfl

/-! ### What is skipped -/

theorem skipLine_append {tag newline : Token} {code left : List Token}
    (hcode : ∀ u ∈ code, u.endsLine = false) (hn : newline.kind = .newline) :
    skipLine tag (code ++ newline :: left) = .ok left := by
  induction code with
  | nil => rw [List.nil_append, skipLine, if_neg (by simp [hn]), if_pos hn]
  | cons t code ih =>
    have ht : t.endsLine = false := hcode t List.mem_cons_self
    simp only [Token.endsLine, Bool.or_eq_false_iff, beq_eq_false_iff_ne] at ht
    rw [List.cons_append, skipLine, if_neg ht.2, if_neg ht.1, ih fun u hu => hcode u (List.mem_cons_of_mem t hu)]

theorem exists_code_of_skipLine {tag : Token} {l left : List Token} (h : skipLine tag l = .ok left) :
    ∃ code newline, l = code ++ newline :: left ∧ (∀ u ∈ code, u.endsLine = false) ∧
      newline.kind = .newline := by
  induction l with
  | nil => cases h
  | cons t rest ih =>
    simp only [skipLine] at h
    split at h
    · cases h
    · rename_i he
      split at h
      · rename_i hk
        cases h
        exact ⟨[], t, rfl, by simp, hk⟩
      · rename_i hk
        obtain ⟨code, newline, rfl, hcode, hn⟩ := ih h
        refine ⟨t :: code, newline, rfl, List.forall_mem_cons.2 ⟨?_, hcode⟩, hn⟩
        simp [Token.endsLine, he, hk]

theorem skipBlock_cons {tag last t : Token} {rest : List Token} (he : t.kind ≠ .eof) :
    (StandsAlone tag last t rest → skipBlock tag last (t :: rest) = .ok rest) ∧
    (¬StandsAlone tag last t rest → skipBlock tag last (t :: rest) = skipBlock tag t rest) := by
  refine ⟨fun h => ?_, fun h => ?_⟩
  · rw [skipBlock, if_neg he, if_pos (by exact h)]
  · rw [skipBlock, if_neg he, if_neg (by exact h)]

theorem skipBlock_append {tag last closer newline : Token} {body left : List Token}
    (hbody : ∀ u ∈ body, u.kind ≠ .eof)
    (hclosed : StandsAlone tag (body.getLastD last) closer (newline :: left))
    (hfirst : ∀ front u back, body = front ++ u :: back →
      ¬StandsAlone tag (front.getLastD last) u (back ++ closer :: newline :: left)) :
    skipBlock tag last (body ++ closer :: newline :: left) = .ok (newline :: left) := by
  induction body generalizing last with
  | nil => exact (skipBlock_cons (by simp [hclosed.1])).1 hclosed
  | cons t body ih =>
    obtain ⟨ht, hbody⟩ := List.forall_mem_cons.1 hbody
    rw [List.getLastD_cons] at hclosed
    have hgo : ¬StandsAlone tag last t (body ++ closer :: newline :: left) := hfirst [] t body rfl
    rw [List.cons_append, (skipBlock_cons ht).2 hgo]
    refine ih hbody hclosed fun front u back hsplit => ?_
    have := hfirst (t :: front) u back (congrArg (t :: ·) hsplit)
    rwa [List.getLastD_cons] at this

theorem exists_body_of_skipBlock {tag last : Token} {l left : List Token}
    (h : skipBlock tag last l = .ok left) : ∃ body closer newline more,
      left = newline :: more ∧ l = body ++ closer :: left ∧ (∀ u ∈ body, u.kind ≠ .eof) ∧
      StandsAlone tag (body.getLastD last) closer left ∧
      ∀ front u back, body = front ++ u :: back →
        ¬StandsAlone tag (front.getLastD last) u (back ++ closer :: left) := by
  induction l generalizing last with
  | nil => cases h
  | cons t rest ih =>
    have he : t.kind ≠ .eof := by
      intro he
      rw [skipBlock, if_pos he] at h
      cases h
    by_cases hs : StandsAlone tag last t rest
    · rw [(skipBlock_cons he).1 hs] at h
      cases h
      cases left with
      | nil =>
        have := hs.2.2.2
        rw [List.headD_nil, hs.1] at this
        cases this
      | cons newline more => exact ⟨[], t, newline, more, rfl, rfl, by simp, hs, by simp⟩
    · rw [(skipBlock_cons he).2 hs] at h
      obtain ⟨body, closer, newline, more, rfl, rfl, hbody, hclosed, hfirst⟩ := ih h
      refine ⟨t :: body, closer, newline, more, rfl, rfl, List.forall_mem_cons.2 ⟨he, hbody⟩, ?_, ?_⟩
      · rwa [List.getLastD_cons]
      · intro front u back hsplit
        cases front with
        | nil =>
          obtain ⟨rfl, rfl⟩ := List.cons.inj hsplit
          exact hs
        | cons v front =>
          rw [List.cons_append, List.cons.injEq] at hsplit
          rw [List.getLastD_cons, ← hsplit.1]
          exact hfirst front u back hsplit.2

/-! ### Line ends behind line ends -/

/-- Whether `out` is `out'` with further line ends behind line ends (last token first). -/
inductive Padded : List Token → List Token → Prop
  | nil : Padded [] []
  | cons {out out' : List Token} (t : Token) (h : Padded out out') : Padded (t :: out) (t :: out')
  | newline {out out' : List Token} {t : Token} (ht : t.kind = .newline)
    (hl : atLineStart out = true) (h : Padded out out') : Padded (t :: out) out'

namespace Padded

variable {out out' : List Token}

theorem refl (out : List Token) : Padded out out := by
  induction out with
  | nil => exact .nil
  | cons t out ih => exact ih.cons t

theorem append (h : Padded out out') (new : List Token) : Padded (new ++ out) (new ++ out') := by
  induction new with
  | nil => exact h
  | cons t new ih => exact ih.cons t

theorem lastKind_eq (h : Padded out out') : lastKind out' = lastKind out := by
  induction h with
  | nil => rfl
  | cons t => rfl
  | newline ht hl _ ih =>
    rw [atLineStart_eq, beq_iff_eq] at hl
    rw [ih, hl, lastKind, List.head?_cons, Option.map_some, ht]

end Padded

theorem destutter'_newline {t : Token} (ht : t.kind = .newline) (a : Token) (l more : List Token)
    (hl : (l.getLastD a).kind = .newline) :
    (l ++ t :: more).destutter' Apart a = (l ++ more).destutter' Apart a := by
  induction l generalizing a with
  | nil => exact List.destutter'_cons_neg more fun h => h ⟨hl, ht⟩
  | cons b l ih =>
    rw [List.getLastD_cons] at hl
    by_cases hab : Apart a b
    · rw [List.cons_append, List.cons_append, List.destutter'_cons_pos _ hab,
        List.destutter'_cons_pos _ hab, ih b hl]
    · rw [List.cons_append, List.cons_append, List.destutter'_cons_neg _ hab,
        List.destutter'_cons_neg _ hab]
      refine ih a ?_
      cases l with
      | nil => exact (not_not.1 hab).1
      | cons c l =>
        rw [List.getLastD_cons] at hl ⊢
        exact hl

theorem Padded.destutter_eq {out out' : List Token} (h : Padded out out') (more : List Token) :
    (out.reverse ++ more).destutter Apart = (out'.reverse ++ more).destutter Apart := by
  induction h generalizing more with
  | nil => rfl
  | cons t _ ih => simpa using ih (t :: more)
  | @newline out out' t ht hl _ ih =>
    rw [← ih more, List.reverse_cons, List.append_assoc, List.cons_append, List.nil_append]
    cases hout : out.reverse with
    | nil =>
      rw [List.reverse_eq_nil_iff.1 hout] at hl
      cases hl
    | cons a l =>
      have hlast : (l.getLastD a).kind = .newline := by
        have hhead := congrArg List.getLast? hout
        rw [List.getLast?_reverse, List.getLast?_cons] at hhead
        rw [atLineStart_eq, lastKind, hhead] at hl
        simpa [List.getLastD_eq_getLast?] using hl
      exact destutter'_newline ht a l more hlast

/-! ### The run without them -/

theorem declares_eq_false {tables : Tables} {out rest : List Token} {t : Token} {p : Progress}
    (h : step d tables out t rest = .ok p) : declares out t = false := by
  by_contra hd
  rw [Bool.not_eq_false, declares, Bool.and_eq_true, Bool.and_eq_true, beq_iff_eq] at hd
  obtain ⟨⟨hk, hw⟩, hl⟩ := hd
  have other {w : Text} (hne : Text.fold w ≠ Text.fold "DECLARE") : t.is w = false := by
    rw [Token.is, Text.sameLetters_eq, beq_iff_eq] at hw
    rw [Token.is, Text.sameLetters_eq, beq_eq_false_iff_ne, hw]
    exact hne.symm
  rw [step, if_neg (by simp [hk]), if_pos hk, obey, other (by decide), other (by decide),
    other (by decide), other (by decide), other (by decide), other (by decide), other (by decide)] at h
  simp at h

theorem run_declare {tables : Tables} {out rest : List Token} {t : Token} (hd : declares out t = true) :
    run d quiet tables out (t :: rest) =
      Conversion.declareLine d quiet t rest >>= fun left => run d quiet tables out left.1 := by
  have hk : t.kind = .directive := by
    rw [declares, Bool.and_eq_true, Bool.and_eq_true, beq_iff_eq] at hd
    exact hd.1.1
  rw [run, if_neg (by simp [hk]), if_pos hd]

theorem run_read {tables : Tables} {out rest : List Token} {t : Token} (he : t.kind ≠ .eof)
    (hd : declares out t = false) :
    run d quiet tables out (t :: rest) =
      match step d tables out t rest with
      | .error e => throw e
      | .ok p => run d quiet p.tables p.out p.rest := by
  rw [run, if_neg he, if_neg (by simp [hd])]
  split <;> rename_i h <;> rw [h]

theorem run_of_step {p q : Point} (h : Step d quiet p q) :
    run d quiet p.tables p.out p.input p.session = run d quiet q.tables q.out q.input q.session := by
  cases h with
  | @declared σ τ tables out rest t left hd h =>
    dsimp only
    rw [run_declare hd]
    change EStateM.bind _ _ σ = _
    unfold EStateM.bind
    rw [h]
  | @read σ tables out rest t p he h =>
    dsimp only
    rw [run_read he (declares_eq_false h), h]

theorem exists_step_of_run {p : Point} {t : Token} {rest : List Token} {r : Tables × List Token}
    {τ : Session} (hp : p.input = t :: rest) (he : t.kind ≠ .eof)
    (h : run d quiet p.tables p.out p.input p.session = .ok r τ) : ∃ q, Step d quiet p q := by
  obtain ⟨σ, tables, out, input⟩ := p
  obtain rfl : input = t :: rest := hp
  dsimp only at h
  cases hd : declares out t with
  | true =>
    rw [run_declare hd] at h
    obtain ⟨left, ρ, hl, -⟩ := Conversion.bind_eq_ok_iff.1 h
    exact ⟨_, .declared hd hl⟩
  | false =>
    rw [run_read he hd] at h
    cases hs : step d tables out t rest with
    | error e =>
      rw [hs] at h
      exact absurd h Conversion.throw_ne_ok
    | ok p => exact ⟨_, .read he hs⟩

/-- A step of the first stage can be made again in front of anything that looks the same to it, and
with any output that ends with a token of the same kind. -/
theorem step_again {p q : Point} (h : Step d quiet p q) :
    ∃ t read new, p.input = t :: (read ++ q.input) ∧ q.out = new ++ p.out ∧ t.kind ≠ .eof ∧
      (¬(read.getLastD t).Inline → atLineStart q.out = true) ∧
      ∀ out' left', lastKind out' = lastKind p.out → Behind (read.getLastD t) q.input left' →
        Step d quiet ⟨p.session, p.tables, out', t :: (read ++ left')⟩
          ⟨q.session, q.tables, new ++ out', left'⟩ := by
  cases h with
  | @declared σ τ tables out rest t left hd h =>
    have hk : t.kind = .directive ∧ atLineStart out = true := by
      rw [declares, Bool.and_eq_true, Bool.and_eq_true, beq_iff_eq] at hd
      exact ⟨hd.1.1, hd.2⟩
    obtain ⟨read, hread, hframe⟩ := Conversion.declared_frame ⟨left, h, rfl⟩
    refine ⟨t, read, [], congrArg (t :: ·) hread, rfl, by simp [hk.1], fun _ => hk.2,
      fun out' left' ho hb => ?_⟩
    obtain ⟨r, hr, hleft⟩ := hframe left' hb
    have hd' : declares out' t = true := by rwa [declares, atLineStart_congr ho]
    have hstep := @Step.declared d quiet σ τ tables out' (read ++ left') t r hd' hr
    rw [hleft] at hstep
    exact hstep
  | @read σ tables out rest t p he h =>
    obtain ⟨read, new, hr⟩ := step_frame h
    exact ⟨t, read, new, congrArg (t :: ·) hr.rest_eq, hr.out_eq, he, hr.starts,
      fun out' left' ho hb => .read he (hr.again out' left' ho hb)⟩

theorem step_skipped {σ : Session} {tables : Tables} {out rest left : List Token} {t : Token}
    (ht : t.kind = .toggle) (hl : atLineStart out = true) (ha : isActive tables.keeps t.upper = false)
    (hs : skipToggled t rest = .ok left) :
    Step d quiet ⟨σ, tables, out, t :: rest⟩ ⟨σ, tables, out, left⟩ := by
  refine @Step.read d quiet σ tables out rest t ⟨tables, out, left⟩ (by simp [ht]) ?_
  rw [step, if_pos ⟨ht, hl⟩, if_neg (by simp [ha]), hs]
  rfl

theorem step_passed {σ : Session} {tables : Tables} {out rest : List Token} {t : Token}
    (hk : t.kind ∉ [.eof, .toggle, .directive, .mark, .joiner, .identifier]) :
    Step d quiet ⟨σ, tables, out, t :: rest⟩ ⟨σ, tables, t :: out, rest⟩ := by
  simp only [List.mem_cons, List.not_mem_nil, or_false, not_or] at hk
  obtain ⟨he, ht, hd, hm, hj, hi⟩ := hk
  refine @Step.read d quiet σ tables out rest t ⟨tables, t :: out, rest⟩ he ?_
  have hsame : asCall d out t rest = t := by simp [asCall, hj, hi]
  rw [step, if_neg (by simp [ht]), if_neg (by simp [hd]), if_neg (by simp [hm]), hsame]

theorem run_line {t newline : Token} {σ : Session} {tables : Tables} {out code left : List Token}
    (hl : atLineStart out = true) (ht : t.kind = .toggle) (ha : isActive tables.keeps t.upper = false)
    (hc : code ≠ []) (hcode : ∀ u ∈ code, u.endsLine = false) (hn : newline.kind = .newline) :
    run d quiet tables out (t :: (code ++ newline :: left)) σ = run d quiet tables out left σ := by
  obtain ⟨u, more, rfl⟩ := List.exists_cons_of_ne_nil hc
  have hu : u.kind ≠ .newline := Token.kind_ne_newline_of_endsLine (hcode u List.mem_cons_self)
  have hs : skipToggled t (u :: more ++ newline :: left) = .ok left := by
    rw [skipToggled, if_neg (by exact hu), skipLine_append hcode hn]
  exact run_of_step (step_skipped ht hl ha hs)

theorem run_block {t closer newline : Token} {σ : Session} {tables : Tables}
    {out body left : List Token} (hl : atLineStart out = true) (ht : t.kind = .toggle)
    (ha : isActive tables.keeps t.upper = false) (hb : Encloses t body closer newline left) :
    run d quiet tables out (t :: (body ++ closer :: newline :: left)) σ =
      run d quiet tables (newline :: out) left σ := by
  have hn : newline.kind = .newline := hb.closed.2.2.2
  have hs : skipToggled t (body ++ closer :: newline :: left) = .ok (newline :: left) := by
    cases body with
    | nil =>
      have := hb.closed.2.2.1
      rw [List.getLastD_nil, ht] at this
      cases this
    | cons u body =>
      rw [skipToggled, if_pos (by exact hb.alone u rfl), skipBlock_append hb.inside hb.closed hb.first]
  rw [show run d quiet tables out (t :: (body ++ closer :: newline :: left)) σ =
    run d quiet tables out (newline :: left) σ from run_of_step (step_skipped ht hl ha hs)]
  exact run_of_step (step_passed (by simp [hn]))

theorem lawful_getLastD {t : Token} {read left : List Token}
    (h : ∀ u ∈ t :: (read ++ left), u.Lawful d) : (read.getLastD t).Lawful d := by
  rw [List.getLastD_eq_getLast?]
  cases hg : read.getLast? with
  | none => exact h t List.mem_cons_self
  | some u => exact h u (by simp [List.mem_of_getLast? hg])

/-- Without the lines that are skipped, the first stage comes to the same. -/
theorem run_trimmed {last : Token} {p : Point} {kept out' : List Token} {r : Tables × List Token}
    {τ : Session} (h : Trimmed d quiet last p kept) (hlast : last.Lawful d)
    (hi : ∀ u ∈ p.input, u.Lawful d) (hs : last.kind = .newline → atLineStart p.out = true)
    (hp : Padded p.out out') (hr : run d quiet p.tables p.out p.input p.session = .ok r τ) :
    ∃ output, run d quiet p.tables out' kept p.session = .ok (r.1, output) τ ∧
      Padded r.2.reverse output.reverse := by
  induction h generalizing out' with
  | @done last t rest p hinput ht =>
    rw [hinput, run, if_pos ht] at hr
    obtain ⟨rfl, rfl⟩ := Conversion.pure_eq_ok_iff.1 hr
    refine ⟨(t :: out').reverse, ?_, by simpa using hp.cons t⟩
    rw [hinput, run, if_pos ht]
    rfl
  | @line last t newline σ tables out code left kept hl ht ha hc hcode hn hm ih =>
    refine ih hlast (fun u hu => hi u (by simp [hu])) hs hp ?_
    rwa [run_line (hs hl) ht ha hc hcode hn] at hr
  | @block last t closer newline σ tables out body left kept hl ht ha hb hm ih =>
    have hn : newline.kind = .newline := hb.closed.2.2.2
    refine ih hlast (fun u hu => hi u (by simp [hu])) (fun _ => by simp [atLineStart, hn])
      (.newline hn (hs hl) hp) ?_
    rwa [run_block (hs hl) ht ha hb] at hr
  | @taken last t read kept p q hinput hstep hn hm ih =>
    obtain ⟨t', read', new, hinput', hout, -, hstarts, hagain⟩ := step_again hstep
    rw [hinput'] at hinput
    obtain ⟨rfl, hread⟩ := List.cons.inj hinput
    obtain rfl := List.append_cancel_right hread
    rw [hinput'] at hi
    have hlast' := lawful_getLastD hi
    have hbehind : Behind (read'.getLastD t') q.input kept := fun hin =>
      hm.head_eq (hin.kind_ne hlast')
    obtain ⟨output, hrun, hpad⟩ := ih hlast' (fun u hu => hi u (by simp [hu]))
      (fun hn => hstarts fun hin => hin.kind_ne hlast' hn) (hout ▸ hp.append new)
      (by rwa [run_of_step hstep] at hr)
    refine ⟨output, ?_, hpad⟩
    rw [← hrun]
    exact run_of_step (hagain out' kept hp.lastKind_eq hbehind)

theorem encloses_of_skipBlock {t : Token} {rest left : List Token}
    (hn : (rest.headD t).kind = .newline) (h : skipBlock t t rest = .ok left) :
    ∃ body closer newline more, left = newline :: more ∧ rest = body ++ closer :: newline :: more ∧
      Encloses t body closer newline more := by
  obtain ⟨body, closer, newline, more, rfl, rfl, hbody, hclosed, hfirst⟩ := exists_body_of_skipBlock h
  refine ⟨body, closer, newline, more, rfl, rfl, ⟨fun u hu => ?_, hbody, hclosed, hfirst⟩⟩
  cases body with
  | nil => cases hu
  | cons v body =>
    cases hu
    exact hn

/-- The lines that are skipped can be left out of every program that the first stage gets through. -/
theorem exists_trimmed (last : Token) (p : Point) {r : Tables × List Token} {τ : Session}
    (hlast : last.Lawful d) (hi : ∀ u ∈ p.input, u.Lawful d)
    (hs : last.kind = .newline → atLineStart p.out = true)
    (hr : run d quiet p.tables p.out p.input p.session = .ok r τ) :
    ∃ kept, Trimmed d quiet last p kept := by
  induction hlen : p.input.length using Nat.strong_induction_on generalizing last p with
  | _ n ih =>
  obtain ⟨σ, tables, out, input⟩ := p
  dsimp only at hlen
  cases input with
  | nil =>
    dsimp only at hr
    rw [run] at hr
    exact absurd hr Conversion.throw_ne_ok
  | cons t rest =>
    by_cases he : t.kind = .eof
    · exact ⟨_, .done rfl he⟩
    obtain ⟨q, hstep⟩ := exists_step_of_run rfl he hr
    by_cases hskip : last.kind = .newline ∧ t.kind = .toggle ∧ isActive tables.keeps t.upper = false
    · obtain ⟨hl, ht, ha⟩ := hskip
      have hstart : atLineStart out = true := hs hl
      obtain ⟨left, hleft⟩ : ∃ left, skipToggled t rest = .ok left := by
        cases hstep with
        | declared hd => simp [declares, ht] at hd
        | read _ h =>
          rw [step, if_pos ⟨ht, hstart⟩, if_neg (by simp [ha])] at h
          obtain ⟨left, hleft, -⟩ := Outcome.map_eq_ok_iff.1 h
          exact ⟨left, hleft⟩
      unfold skipToggled at hleft
      split at hleft
      · rename_i hn
        obtain ⟨body, closer, newline, more, rfl, rfl, hb⟩ := encloses_of_skipBlock hn hleft
        have hnewline : newline.kind = .newline := hb.closed.2.2.2
        simp only [List.length_cons, List.length_append] at hlen
        obtain ⟨kept, hk⟩ := ih more.length (by omega) last ⟨σ, tables, newline :: out, more⟩ hlast
          (fun u hu => hi u (by simp [show u ∈ more from hu])) (fun _ => by simp [atLineStart, hnewline])
          (by rwa [run_block hstart ht ha hb] at hr) rfl
        exact ⟨kept, .block hl ht ha hb hk⟩
      · rename_i hn
        obtain ⟨code, newline, rfl, hcode, hnewline⟩ := exists_code_of_skipLine hleft
        have hc : code ≠ [] := fun hc => hn (by rw [hc]; exact hnewline)
        simp only [List.length_cons, List.length_append] at hlen
        obtain ⟨kept, hk⟩ := ih left.length (by omega) last ⟨σ, tables, out, left⟩ hlast
          (fun u hu => hi u (by simp [show u ∈ left from hu])) hs
          (by rwa [run_line hstart ht ha hc hcode hnewline] at hr) rfl
        exact ⟨kept, .line hl ht ha hc hcode hnewline hk⟩
    · obtain ⟨t', read, new, hinput, -, -, hstarts, -⟩ := step_again hstep
      obtain ⟨rfl, rfl⟩ := List.cons.inj hinput
      have hlast' := lawful_getLastD hi
      simp only [List.length_cons, List.length_append] at hlen
      obtain ⟨kept, hk⟩ := ih q.input.length (by omega) (read.getLastD t) q hlast'
        (fun u hu => hi u (by simp [hu])) (fun hn => hstarts fun hin => hin.kind_ne hlast' hn)
        (by rwa [run_of_step hstep] at hr) rfl
      exact ⟨_, .taken rfl hstep hskip hk⟩

/-- Of a program that the first stage gets through, the lines behind inactive tags can be left out: it
comes to the same tables, the same names and the same tokens, but for repeated line ends. -/
theorem carryOut_untoggled {listing : Listing} {lexed : List Token} {r : Tables × List Token}
    {σ τ : Session} (hx : Lexer.lex d listing = .ok lexed) (h : carryOut d quiet lexed σ = .ok r τ) :
    (∃ kept, Untoggled d quiet σ lexed kept) ∧ ∀ kept, Untoggled d quiet σ lexed kept →
      ∃ output, carryOut d quiet kept σ = .ok (r.1, output) τ ∧
        output.destutter Apart = r.2.destutter Apart := by
  obtain ⟨start, newline, rest, rfl, hstart, hnewline⟩ := Lexer.lex_start hx
  have hl : ∀ u ∈ start :: newline :: rest, u.Lawful d := fun u hu => (Lexer.lex_lexed hx u hu).toLawful
  simp only [List.forall_mem_cons] at hl
  have hs : newline.kind = .newline → atLineStart [newline, start] = true := fun hn => by
    simp [atLineStart, hn]
  constructor
  · obtain ⟨kept, hk⟩ := exists_trimmed newline
      ⟨σ, { defines := PrintAt.builtin d start.pos }, [newline, start], rest⟩ hl.2.1 hl.2.2 hs h
    exact ⟨_, start, newline, rest, kept, rfl, rfl, hk⟩
  · rintro _ ⟨start', newline', rest', kept, heq, rfl, hk⟩
    obtain ⟨rfl, rfl, rfl⟩ : start = start' ∧ newline = newline' ∧ rest = rest' := by simpa using heq
    obtain ⟨output, hrun, hpad⟩ := run_trimmed hk hl.2.1 hl.2.2 hs (.refl _) h
    refine ⟨output, hrun, ?_⟩
    have := hpad.destutter_eq []
    simpa using this.symm

theorem untoggled_cls : ∃ lexed r τ output,
    Lexer.lex .msx (Listing.ofText "#a cls\nend" "/main" 4) = .ok lexed ∧
    carryOut .msx false lexed {} = .ok r τ ∧
    Untoggled .msx false {} lexed (lexed.take 2 ++ lexed.drop 5) ∧
    carryOut .msx false (lexed.take 2 ++ lexed.drop 5) {} = .ok (r.1, output) τ ∧
    output.destutter Apart = r.2.destutter Apart := by
  have hread : (Lexer.lex .msx (Listing.ofText "#a cls\nend" "/main" 4)).toOption.map
      (List.map Token.kind) = some [.program, .newline, .toggle, .instruction, .newline,
      .instruction, .newline, .eof] := by
    decide +kernel
  obtain ⟨lexed, hlexed, hkinds⟩ := Option.map_eq_some_iff.1 hread
  simp only [List.map_eq_cons_iff, List.map_eq_nil_iff] at hkinds
  obtain ⟨start, _, rfl, -, newline, _, rfl, hnewline, tag, _, rfl, htag, word, _, rfl, hword,
    behind, _, rfl, hbehind, last, _, rfl, hlast, final, _, rfl, hfinal,
    eof, _, rfl, heof, rfl⟩ := hkinds
  have hx : Lexer.lex .msx (Listing.ofText "#a cls\nend" "/main" 4) =
      .ok [start, newline, tag, word, behind, last, final, eof] := by
    cases hl : Lexer.lex .msx (Listing.ofText "#a cls\nend" "/main" 4) with
    | error e =>
      rw [hl] at hlexed
      cases hlexed
    | ok l =>
      rw [hl] at hlexed
      cases hlexed
      rfl
  have hcode : ∀ u ∈ [word], u.endsLine = false := by simp [Token.endsLine, hword]
  have hkept : Untoggled .msx false {} [start, newline, tag, word, behind, last, final, eof]
      [start, newline, last, final, eof] := by
    refine ⟨start, newline, _, _, rfl, rfl, @Trimmed.line _ _ newline tag behind _ _ _ [word]
      [last, final, eof] _ hnewline htag rfl (by simp) hcode hbehind ?_⟩
    refine @Trimmed.taken _ _ newline last [] [final, eof] _ _ rfl (step_passed (by simp [hlast]))
      (by simp [hlast]) ?_
    exact @Trimmed.taken _ _ last final [] [eof] _ _ rfl (step_passed (by simp [hfinal])) (by simp [hfinal])
      (.done rfl heof)
  have hr : carryOut .msx false [start, newline, tag, word, behind, last, final, eof] {} =
      .ok ({ defines := PrintAt.builtin .msx start.pos }, [start, newline, last, final, eof]) {} := by
    have hl : atLineStart [newline, start] = true := by simp [atLineStart, hnewline]
    have hskip := @run_line .msx false tag behind {} { defines := PrintAt.builtin .msx start.pos }
      [newline, start] [word] [last, final, eof] hl htag rfl (by simp) hcode hbehind
    have hlast := run_of_step (@step_passed .msx false {} { defines := PrintAt.builtin .msx start.pos }
      [newline, start] [final, eof] last (by simp [hlast]))
    have hfinal := run_of_step (@step_passed .msx false {} { defines := PrintAt.builtin .msx start.pos }
      [last, newline, start] [eof] final (by simp [hfinal]))
    refine hskip.trans (hlast.trans (hfinal.trans ?_))
    rw [run, if_pos heof]
    rfl
  obtain ⟨output, hrun, hsame⟩ := (carryOut_untoggled hx hr).2 _ hkept
  exact ⟨_, _, _, output, hx, hr, hkept, hrun, hsame⟩

end ClassicBasic.Directive
