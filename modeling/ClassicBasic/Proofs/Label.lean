import ClassicBasic.Proofs.Directive

/-!
# What the second stage leaves

Labels in front of lines become entries behind a line end, and expanding a call takes back no more
than the statement it stands in. So the entries of the output, those of the first stage among them,
all follow a line end.
-/

set_option autoImplicit false

namespace ClassicBasic

open Entry
open Directive (atLineStart)

variable {d : Dialect}

namespace PrintAt

/-- The arguments are runs of the input, so an entry in them still follows its line end. -/
theorem split_stretch (depth : Int) (x : Option (List Token)) (term : List Token) (last : Token)
    {l : List Token} (hx : Stretch d (x.getD [])) (hl : Stretch d (term ++ l)) :
    Stretch d (split depth x term last l).x ∧ Stretch d (split depth x term last l).y ∧
      Stretch d (split depth x term last l).rest ∧ (split depth x term last l).rest <:+ l := by
  induction l generalizing depth x term last with
  | nil => exact ⟨hx, .nil, .nil, List.suffix_refl _⟩
  | cons t rest ih =>
    simp only [split]
    split
    · rename_i hk
      have hne : t.kind ≠ .newline := by simp [hk]
      have heof : Led false (t :: rest) := by
        refine ⟨fun he => ?_, hl.led.of_append_cons.2⟩
        simp [hk, Kind.isEntry] at he
      exact ⟨hx, .nil, ⟨heof, fun u hu => hl.lawful u (by simp_all)⟩, List.suffix_refl _⟩
    · split
      · rename_i hk
        obtain ⟨hterm, hrest⟩ := hl.of_append_cons (by simp [hk.1])
        split
        · exact ⟨hx, hterm, hrest, List.suffix_cons t rest⟩
        · exact ⟨hterm, .nil, hrest, List.suffix_cons t rest⟩
      · split
        · rename_i hk
          obtain ⟨hterm, hrest⟩ := hl.of_append_cons (by simp [hk.1])
          obtain ⟨h1, h2, h3, h4⟩ := ih (deeper t depth) (some term) [] t hterm hrest
          exact ⟨h1, h2, h3, h4.trans (List.suffix_cons t rest)⟩
        · obtain ⟨h1, h2, h3, h4⟩ := ih (deeper t depth) x (term ++ [t]) t hx
            (by simpa using hl)
          exact ⟨h1, h2, h3, h4.trans (List.suffix_cons t rest)⟩

theorem offset_stretch {pos : Position} {x y : List Token} (hx : Stretch d x) (hy : Stretch d y) :
    Stretch d (offset d pos x y) := by
  have code (text : Text) : Stretch d (Lexer.snippet d pos text) :=
    stretch_of_plain (Lexer.snippet_plain pos text)
  have filled : Stretch d (if x = [] then Lexer.snippet d pos "0" else x) := by
    split
    · exact code _
    · exact hx
  unfold offset
  dsimp only
  split
  · exact filled
  · split
    · exact code _
    · exact ((((code _).append hy).append (code _)).append filled).append (code _)

theorem render_stretch {a : Arguments} (hx : Stretch d a.x) (hy : Stretch d a.y) :
    Stretch d (render d a) := by
  have code (text : Text) : Stretch d (Lexer.snippet d a.last.pos text) :=
    stretch_of_plain (Lexer.snippet_plain a.last.pos text)
  unfold render
  refine ((code _).append (offset_stretch hx hy)).append ?_
  split
  · exact .nil
  · exact code _

end PrintAt

namespace Routine

theorem takeBack_sound (run : List Token) (runs : List (List Token)) {out : List Token}
    (ho : Sound d out) (hr : ∀ r ∈ run :: runs, ∀ t ∈ r, t.Lawful d) :
    (∀ r ∈ (takeBack d run runs out).1, ∀ t ∈ r, t.Lawful d) ∧
      Sound d (takeBack d run runs out).2 := by
  induction out generalizing run runs with
  | nil => exact absurd rfl ho.based.ne_nil
  | cons t out ih =>
    simp only [takeBack]
    split
    · exact ⟨hr, ho⟩
    · rename_i hs
      have ht : t.kind ≠ .newline := by
        intro hk
        simp [startsStatement, hk] at hs
      split
      · exact ih _ _ (ho.tail ht) (List.forall_mem_cons.2 ⟨by simp, hr⟩)
      · rw [List.forall_mem_cons] at hr
        refine ih _ _ (ho.tail ht) (List.forall_mem_cons.2 ⟨?_, hr.2⟩)
        exact List.forall_mem_cons.2 ⟨ho.lawful t (by simp), hr.1⟩

theorem resultVariable_plain {run : List Token} {v : Option Token}
    (hr : ∀ t ∈ run, t.Lawful d) (h : resultVariable run = .ok v) : ∀ t ∈ v, t.Plain d := by
  unfold resultVariable at h
  split at h
  · cases h
    simp
  · split at h
    · cases h
    · rename_i u more hk
      split at h
      · cases h
        rintro t ⟨⟩
        have hi : u.kind = .identifier := by simpa using hk
        exact ⟨hr u (by simp), by rw [hi]; rfl⟩
      · cases h

theorem callVariables_sound {out before : List Token} {vars : List (Option Token)}
    (ho : Sound d out) (h : callVariables d out = .ok (vars, before)) :
    (∀ v ∈ vars, ∀ t ∈ v, t.Plain d) ∧ Sound d before := by
  unfold callVariables at h
  split at h
  · exact absurd rfl ho.based.ne_nil
  · rename_i t out
    split at h
    · cases h
      exact ⟨by simp, ho⟩
    · rename_i hv
      obtain ⟨vars', hm, he⟩ := Outcome.map_eq_ok_iff.1 h
      cases he
      have ht : t.kind ≠ .newline := by
        refine (ho.lawful t (by simp)).kind_ne_newline ?_
        rw [Decidable.not_not.1 hv]
        decide
      obtain ⟨hr, hs⟩ := takeBack_sound [] [] (ho.tail ht) (by simp)
      refine ⟨fun v hv => ?_, hs⟩
      obtain ⟨run, hrun, hresult⟩ := Outcome.exists_of_forall₂ (Outcome.forall₂_of_mapM hm) hv
      exact resultVariable_plain (hr run hrun) hresult

theorem suffix_takeBack (run : List Token) (runs : List (List Token)) (out : List Token) :
    (takeBack d run runs out).2 <:+ out := by
  induction out generalizing run runs with
  | nil => exact List.suffix_refl _
  | cons t out ih =>
    simp only [takeBack]
    split
    · exact List.suffix_refl _
    · split
      · exact (ih _ _).trans (List.suffix_cons t out)
      · exact (ih _ _).trans (List.suffix_cons t out)

theorem resultVariable_kind {run : List Token} {v : Option Token}
    (h : resultVariable run = .ok v) : ∀ t ∈ v, t.kind = .identifier := by
  unfold resultVariable at h
  split at h
  · cases h
    simp
  · split at h
    · cases h
    · rename_i u more hk
      split at h
      · cases h
        simpa using hk
      · cases h

theorem callVariables_spec {out before : List Token} {vars : List (Option Token)}
    (h : callVariables d out = .ok (vars, before)) :
    (∀ v ∈ vars, ∀ t ∈ v, t.kind = .identifier) ∧ before <:+ out := by
  unfold callVariables at h
  split at h
  · cases h
    exact ⟨by simp, List.suffix_refl _⟩
  · rename_i t out
    split at h
    · cases h
      exact ⟨by simp, List.suffix_refl _⟩
    · obtain ⟨vars', hm, he⟩ := Outcome.map_eq_ok_iff.1 h
      cases he
      refine ⟨fun v hv => ?_, (suffix_takeBack _ _ _).trans (List.suffix_cons t out)⟩
      obtain ⟨run, -, hresult⟩ := Outcome.exists_of_forall₂ (Outcome.forall₂_of_mapM hm) hv
      exact resultVariable_kind hresult

variable {P : Token → Prop}

theorem setParameters_holds {equal separator : List Token} {ps : List Parameter}
    {arguments : List (List Token)} (he : ∀ t ∈ equal, P t) (hs : ∀ t ∈ separator, P t)
    (hp : ∀ p ∈ ps, P p.name ∧ ∀ t ∈ p.fallback, P t) (ha : ∀ a ∈ arguments, ∀ t ∈ a, P t) :
    ∀ t ∈ setParameters equal separator ps arguments, P t := by
  induction ps generalizing arguments with
  | nil => simp [setParameters]
  | cons p more ih =>
    rw [List.forall_mem_cons] at hp
    have hgiven : ∀ t ∈ arguments.headD [], P t := by
      cases arguments with
      | nil => simp
      | cons a arguments => exact ha a (by simp)
    have hvalue : ∀ t ∈ if arguments.headD [] = [] then p.fallback else arguments.headD [], P t := by
      split
      · exact hp.1.2
      · exact hgiven
    simp only [setParameters, List.mem_append]
    generalize (if arguments.headD [] = [] then p.fallback else arguments.headD []) = value
      at hvalue ⊢
    rintro t (ht | ht)
    · split at ht
      · cases ht
      · simp only [List.cons_append, List.mem_cons, List.mem_append] at ht
        rcases ht with rfl | (ht | ht) | ht
        · exact hp.1.1
        · exact he t ht
        · exact hvalue t ht
        · exact hs t ht
    · exact ih hp.2 (fun a h => ha a (List.mem_of_mem_tail h)) t ht

theorem copyResults_holds {equal separator : List Token} {vars : List (Option Token)}
    {results : List (List Token)} (he : ∀ t ∈ equal, P t) (hs : ∀ t ∈ separator, P t)
    (hv : ∀ v ∈ vars, ∀ t ∈ v, P t) (hr : ∀ r ∈ results, ∀ t ∈ r, P t) :
    ∀ t ∈ copyResults equal separator vars results, P t := by
  induction vars generalizing results with
  | nil => simp [copyResults]
  | cons v more ih =>
    rw [List.forall_mem_cons] at hv
    have hvalue : ∀ t ∈ results.headD [], P t := by
      cases results with
      | nil => simp
      | cons r results => exact hr r (by simp)
    simp only [copyResults, List.mem_append]
    rintro t (ht | ht)
    · cases v with
      | none => cases ht
      | some v =>
        dsimp only at ht
        split at ht
        · cases ht
        · simp only [List.mem_append, List.mem_cons] at ht
          rcases ht with (ht | rfl | ht) | ht
          · exact hs t ht
          · exact hv.1 t rfl
          · exact he t ht
          · exact hvalue t ht
    · exact ih hv.2 (fun r h => hr r (List.mem_of_mem_tail h)) t ht

/-- What holds of the code between them, of the parameters and results of a function and of what is
given and set holds of all that a call comes to. -/
theorem callTokens_holds {f : Routine} {fn : Token} {pos : Position}
    {arguments : List (List Token)} {vars : List (Option Token)}
    (hcode : ∀ text ∈ Text.ofStrings ["=", ":", "gosub"], ∀ t ∈ Lexer.snippet d pos text, P t)
    (hcall : P ⟨.functionCall, fn.lower, fn.pos⟩)
    (hp : ∀ p ∈ f.parameters, P p.name ∧ ∀ t ∈ p.fallback, P t)
    (hr : ∀ r ∈ f.results, ∀ t ∈ r, P t) (ha : ∀ a ∈ arguments, ∀ t ∈ a, P t)
    (hv : ∀ v ∈ vars, ∀ t ∈ v, P t) : ∀ t ∈ callTokens d f fn pos arguments vars, P t := by
  have equal : ∀ t ∈ Lexer.snippet d pos "=", P t := hcode _ (by decide)
  have separator : ∀ t ∈ Lexer.snippet d pos ":", P t := hcode _ (by decide)
  intro t ht
  simp only [callTokens, List.mem_append, List.mem_cons] at ht
  rcases ht with (ht | ht) | rfl | ht
  · exact setParameters_holds equal separator hp ha t ht
  · exact hcode _ (by decide) t ht
  · exact hcall
  · exact copyResults_holds equal separator hv hr t ht

theorem call_cases {routines : Routines} {fn : Token} {out rest new before after : List Token}
    (h : call d routines fn out rest = .ok (new, before, after)) :
    ∃ f vars arguments closer, (fn.lower, f) ∈ routines ∧
      callVariables d out = .ok (vars, before) ∧
      argumentList fn rest = .ok (arguments, closer, after) ∧
      new = callTokens d f fn closer.pos arguments vars := by
  unfold call at h
  split at h
  · cases h
  · rename_i f hf
    split at h
    · cases h
    · rename_i vars before hv
      split at h
      · cases h
      · rename_i arguments closer after ha
        split at h
        · cases h
        · split at h
          · cases h
          · cases h
            obtain ⟨l₁, l₂, heq, -⟩ := List.lookup_eq_some_iff.1 hf
            exact ⟨f, vars, arguments, closer, by simp [heq], hv, ha, rfl⟩

/-- A call gives back the output up to its statement and what follows the line of arguments, with
plain tokens between them. -/
theorem call_sound {routines : Routines} {fn : Token} {out rest new before after : List Token}
    (hp : ∀ e ∈ routines, e.2.Plain d) (ho : Sound d out) (hl : Stretch d rest)
    (h : call d routines fn out rest = .ok (new, before, after)) :
    (∀ t ∈ new, t.Plain d) ∧ Sound d before ∧ Led false after ∧ after <:+ rest := by
  obtain ⟨f, vars, arguments, closer, hf, hv, ha, rfl⟩ := call_cases h
  obtain ⟨hvars, hbefore⟩ := callVariables_sound ho hv
  obtain ⟨-, read, rfl, hn, hm⟩ := argumentList_spec hl.lawful ha
  obtain ⟨hu, hafter⟩ := hl.led.of_append hn
  have hargs : ∀ a ∈ arguments, ∀ t ∈ a, t.Plain d := fun a ha' t ht =>
    ⟨hl.lawful t (List.mem_append_left _ (hm a ha' t ht).1), hu t (hm a ha' t ht).1⟩
  have hplain : f.Plain d := hp _ hf
  have hnew : ∀ t ∈ callTokens d f fn closer.pos arguments vars, t.Plain d :=
    callTokens_holds (fun text _ => Lexer.snippet_plain closer.pos text)
      (Token.plain_of_unread rfl (by simp) rfl) hplain.parameters hplain.results hargs hvars
  exact ⟨hnew, hbefore, hafter, List.suffix_append read after⟩

end Routine

namespace Label

theorem lineMark_lawful {label mark : Token} {pos : Position} (h : lineMark label pos = .ok mark) :
    mark.Lawful d := by
  unfold lineMark at h
  split at h
  · rename_i hi
    cases h
    refine ⟨by simp, by simp [Kind.isRead, Kind.isRaw, Kind.isMade], fun _ he => ?_⟩
    cases hv : label.value with
    | nil => simp [Dialect.isIdentifier, Grammar.isName, hv] at hi
    | cons c rest =>
      have hc : Text.lowerChar c = '~' := by
        have := congrArg List.head? he
        simpa [Token.lower, hv, Text.lower, Merge.keepSign] using this
      have hl : Grammar.isLetter c = true := by
        simp only [Dialect.isIdentifier, Grammar.isName, hv, Bool.and_eq_true] at hi
        exact hi.1
      rw [Text.lowerChar_eq hc (by decide) (by decide) (by decide)] at hl
      exact absurd hl (by decide)
  · cases h

/-- What one token of the second stage can lead to, the end apart. -/
inductive Turn (d : Dialect) (routines : Routines) (loops out : List Token) (t : Token)
    (rest : List Token) : Progress → Prop
  | called {new before after : List Token} (hk : t.kind = .functionName)
    (h : Routine.call d routines t out rest = .ok (new, before, after)) :
    Turn d routines loops out t rest ⟨loops, new.reverse ++ before, after⟩
  /-- A jump to a label. -/
  | jumped {content closer : Token} {after : List Token} (hk : t.kind = .mark)
    (hb : Bracketed.read opening closing t rest = .ok (.holding content closer after))
    (hn : content.value = sameLine ∨ Dialect.isIdentifier content.value) (hv : t.value = opening) :
    Turn d routines loops out t rest
      ⟨loops, ⟨.labelJump, content.lower, content.pos⟩ :: out, after⟩
  /-- A label in front of a line. -/
  | labelled {content closer mark : Token} {after : List Token} (hk : t.kind = .mark)
    (hl : Directive.atLineStart out)
    (hb : Bracketed.read opening closing t rest = .ok (.holding content closer after))
    (hm : lineMark content closer.pos = .ok mark) (hv : t.value = opening) :
    Turn d routines loops out t rest ⟨loops, mark :: out, after⟩
  /-- The start of a loop. -/
  | looped {last mark : Token} {before : List Token} (hk : t.kind = .mark)
    (ho : out = last :: before) (hn : last.kind ≠ .newline) (hl : Directive.atLineStart before)
    (hm : lineMark last t.pos = .ok mark) (hv : t.value = opening) :
    Turn d routines loops out t rest ⟨last :: loops, mark :: before, rest⟩
  /-- The end of a loop. -/
  | closed {label : Token} {outer : List Token} (hk : t.kind = .mark) (hl : loops = label :: outer)
    (hv : t.value = closing) :
    Turn d routines loops out t rest
      ⟨outer, ⟨.labelReturn, label.lower, t.pos⟩ ::
        ((if startsStatement out then [] else Lexer.snippet d t.pos ":") ++
          Lexer.snippet d t.pos "goto").reverse ++ out, rest⟩
  /-- The way out of a loop. -/
  | exited {label : Token} {outer : List Token} (hk : t.kind = .directive)
    (hl : loops = label :: outer) (hv : t.is "EXIT" = true) :
    Turn d routines loops out t rest
      ⟨loops, ⟨.labelExit, label.lower, t.pos⟩ :: (Lexer.snippet d t.pos "goto").reverse ++ out, rest⟩
  | printed (hd : d = .coco) (hk : t.kind = .special) (hv : t.value = PrintAt.opening) :
    Turn d routines loops out t rest
      ⟨loops, (PrintAt.render d (PrintAt.split 0 none [] t rest)).reverse ++ out,
        (PrintAt.split 0 none [] t rest).rest⟩
  | passed (hf : t.kind ≠ .functionName) (hm : ¬(t.kind = .mark ∧ t.value = opening))
    (hc : ¬(t.kind = .mark ∧ t.value = closing)) (hx : ¬(t.kind = .directive ∧ t.is "EXIT" = true)) :
    Turn d routines loops out t rest ⟨loops, t :: out, rest⟩

theorem readJump_cases {routines : Routines} {loops out : List Token} {t : Token}
    {rest : List Token} {p : Progress} (hk : t.kind = .mark) (hv : t.value = opening)
    (h : readJump loops out t rest = .ok p) : Turn d routines loops out t rest p := by
  unfold readJump at h
  split at h
  · cases h
  · cases h
  · rename_i hb
    split at h
    · rename_i hn
      cases h
      exact .jumped hk hb hn hv
    · cases h

theorem readLine_cases {routines : Routines} {loops out : List Token} {t : Token}
    {rest : List Token} {p : Progress} (hk : t.kind = .mark) (hv : t.value = opening)
    (h : readLine loops out t rest = .ok p) : Turn d routines loops out t rest p := by
  unfold readLine at h
  split at h
  · cases h
  · rename_i last before
    split at h
    · rename_i hn
      split at h
      · cases h
      · cases h
      · rename_i hb
        obtain ⟨mark, hm, rfl⟩ := Outcome.map_eq_ok_iff.1 h
        exact .labelled hk (by simp [atLineStart, hn]) hb hm hv
    · rename_i hn
      split at h
      · rename_i hl
        obtain ⟨mark, hm, rfl⟩ := Outcome.map_eq_ok_iff.1 h
        exact .looped hk rfl hn hl hm hv
      · cases h

theorem step_cases {routines : Routines} {loops out : List Token} {t : Token}
    {rest : List Token} {p : Progress} (h : step d routines loops out t rest = .ok p) :
    Turn d routines loops out t rest p := by
  unfold step at h
  split at h
  · rename_i hk
    obtain ⟨r, hr, rfl⟩ := Outcome.map_eq_ok_iff.1 h
    exact .called hk hr
  · rename_i hf
    split at h
    · rename_i hk
      split at h
      · exact readJump_cases hk.1 hk.2 h
      · exact readLine_cases hk.1 hk.2 h
    · rename_i hm
      split at h
      · rename_i hk
        unfold closeLoop at h
        split at h
        · cases h
        · cases h
          exact .closed hk.1 rfl hk.2
      · rename_i hc
        split at h
        · rename_i hk
          unfold leaveLoop at h
          split at h
          · cases h
          · cases h
            exact .exited hk.1 rfl hk.2
        · rename_i hx
          split at h
          · rename_i hk
            cases h
            exact .printed hk.1 hk.2.1 hk.2.2
          · cases h
            exact .passed hf hm hc hx

theorem bracketed_stretch {content closer t : Token} {rest after : List Token}
    (hl : Stretch d rest)
    (hb : Bracketed.read opening closing t rest = .ok (.holding content closer after)) :
    Led false after ∧ after <:+ rest := by
  obtain ⟨rfl, hc⟩ := Bracketed.holding_eq (by decide) hb
  have hn : closer.kind ≠ .newline := by
    refine (hl.lawful closer (by simp)).kind_ne_newline ?_
    rw [hc]
    decide
  exact ⟨(Stretch.of_append_cons (l := [content]) hl hn).2.led,
    List.suffix_append [content, closer] after⟩

/-- One step of the second stage keeps the output sound, and what is left starts with an entry only
behind a line end. -/
theorem step_sound {routines : Routines} {loops out : List Token} {t : Token}
    {rest : List Token} {p : Progress} (hp : ∀ e ∈ routines, e.2.Plain d) (ho : Sound d out)
    (hl : Led (atLineStart out) (t :: rest)) (ht : ∀ u ∈ t :: rest, u.Lawful d)
    (h : step d routines loops out t rest = .ok p) :
    Sound d p.out ∧ Led (atLineStart p.out) p.rest ∧ p.rest <:+ rest := by
  have behind {k : Kind} (hk : t.kind = k) (hn : k ≠ .newline) : Stretch d rest := by
    have hf : (k == .newline) = false := by simpa using hn
    have hr := hl.2
    rw [hk, hf] at hr
    exact ⟨hr, (List.forall_mem_cons.1 ht).2⟩
  have code (text : Text) := Lexer.snippet_plain (d := d) t.pos text
  cases step_cases h with
  | called hk hc =>
    obtain ⟨hplain, hbefore, hafter, hs⟩ := Routine.call_sound hp ho (behind hk (by simp)) hc
    exact ⟨hbefore.append_reverse hplain, hafter.anywhere, hs⟩
  | jumped hk hb =>
    obtain ⟨hled, hs⟩ := bracketed_stretch (behind hk (by simp)) hb
    exact ⟨ho.cons (Token.plain_of_unread rfl (by simp) rfl), hled.anywhere, hs⟩
  | labelled hk hline hb hm =>
    obtain ⟨hled, hs⟩ := bracketed_stretch (behind hk (by simp)) hb
    exact ⟨ho.push (lineMark_lawful hm) fun _ => hline, hled.anywhere, hs⟩
  | looped hk ho' hn hline hm =>
    subst ho'
    exact ⟨(ho.tail hn).push (lineMark_lawful hm) fun _ => hline,
      (behind hk (by simp)).led.anywhere, List.suffix_refl _⟩
  | closed hk =>
    refine ⟨Sound.cons (ho.append_reverse fun u hu => ?_) (Token.plain_of_unread rfl (by simp) rfl),
      (behind hk (by simp)).led.anywhere, List.suffix_refl _⟩
    rcases List.mem_append.1 hu with hu | hu
    · split at hu
      · cases hu
      · exact code _ u hu
    · exact code _ u hu
  | exited hk =>
    exact ⟨(ho.append_reverse (code "goto")).cons (Token.plain_of_unread rfl (by simp) rfl),
      (behind hk (by simp)).led.anywhere, List.suffix_refl _⟩
  | printed _ hk =>
    obtain ⟨hx, hy, hrest, hs⟩ :=
      PrintAt.split_stretch 0 none [] t .nil (behind hk (by simp))
    exact ⟨ho.append_stretch (PrintAt.render_stretch hx hy), hrest.led.anywhere, hs⟩
  | passed => exact ⟨ho.push (ht t (by simp)) hl.1, hl.2, List.suffix_refl _⟩

theorem run_sound {tables : Tables} {loops out input placed : List Token}
    (hp : tables.Plain d) (ho : Sound d out) (hl : Led (atLineStart out) input)
    (ht : ∀ u ∈ input, u.Lawful d) (h : run d tables loops out input = .ok placed) :
    Sound d placed.reverse := by
  fun_induction run d tables loops out input with
  | case1 => cases h
  | case2 => simp_all
  | case3 loops out t rest hk hu =>
    cases h
    rw [List.reverse_reverse]
    exact ho.push (ht t (by simp)) hl.1
  | case4 => simp_all
  | case5 loops out t rest hk p hstep ih =>
    obtain ⟨h1, h2, h3⟩ := step_sound hp.routines ho hl ht hstep
    exact ih h1 h2 (fun u hu => ht u (List.mem_cons_of_mem _ (h3.mem hu))) h

/-- Behind the second stage every entry stands right behind a line end. -/
theorem place_sound {tables : Tables} {carried placed : List Token} (hp : tables.Plain d)
    (hc : Sound d carried.reverse) (h : place d tables carried = .ok placed) :
    Sound d placed.reverse := by
  obtain ⟨start, newline, rest, rfl, -, hn, ho, hled, hl⟩ := hc.exists_input
  have first : step d tables.routines [] [start] newline rest = .ok ⟨[], [newline, start], rest⟩ := by
    simp [step, hn]
  simp only [place] at h
  rw [run] at h
  simp only [hn, reduceCtorEq, if_false] at h
  split at h
  · simp_all
  · rename_i p hp'
    cases first.symm.trans hp'
    exact run_sound hp ho hled hl h

end Label

end ClassicBasic
