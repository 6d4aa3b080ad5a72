import ClassicBasic.Proofs.Homed
import ClassicBasic.Proofs.Items

/-!
# Tokens that write nothing behind placeholders

The second stage puts arguments, defaults and results behind a sign of equality or a parenthesis, so what
writes nothing stays behind a sign also when it came first in what was captured.
-/

set_option autoImplicit false

namespace ClassicBasic

variable {d : Dialect} {signs : List Text} {out rest l l' : List Token} {t : Token}

/-- Anything may stand behind a list that ends in a sign that upholds. -/
theorem Upheld.meet (h : Upheld signs l) (h' : Upheld signs l')
    (hl : ∀ t ∈ l.getLast?, t.Upholds signs) : Upheld signs (l ++ l') :=
  List.IsChain.append h h' fun t ht _ _ _ => hl t ht

theorem commas_subset : commas ⊆ joints := by decide

namespace Lexer

/-- Anything may stand behind the code that is put in front of what was captured. -/
theorem snippet_behind {text : Text} (h : text ∈ Text.ofStrings ["=", "32*(", ")+("])
    (pos : Position) (hl : Upheld joints l) :
    Upheld joints (snippet d pos text ++ l) ∧ Voiced (snippet d pos text ++ l) := by
  obtain ⟨p, hp, rfl, face, hf, hsign⟩ : ∃ p ∈ fixedCode, p.1 = text ∧
      ∃ face ∈ p.2.getLast?, face.1 = .symbol ∧ face.2 ∈ joints := by
    have hall : ∀ text ∈ Text.ofStrings ["=", "32*(", ")+("], ∃ p ∈ fixedCode, p.1 = text ∧
        ∃ face ∈ p.2.getLast?, face.1 = .symbol ∧ face.2 ∈ joints := by decide
    exact hall text h
  have hlast : (snippet d pos p.1).getLast? = some ⟨face.1, face.2, pos⟩ := by
    rw [snippet_fixed hp, List.getLast?_map, Option.mem_def.1 hf]
    rfl
  obtain ⟨hup, hvoiced⟩ : Upheld joints _ ∧ Voiced _ := snippet_upheld (d := d) pos p.1
  refine ⟨hup.meet hl fun t ht => ?_, ?_⟩
  · rw [hlast] at ht
    cases ht
    exact .inr (.inr hsign)
  · cases hs : snippet d pos p.1 with
    | nil => simp [hs] at hlast
    | cons t more => exact voiced_cons (hvoiced t (by rw [hs]; rfl))

end Lexer

namespace PrintAt

theorem split_upheld (depth : Int) (x : Option (List Token)) (term : List Token) (last : Token)
    (hx : Upheld signs (x.getD []) ∧ Voiced (x.getD [])) (hi : Upheld signs (term ++ l))
    (hv : x = none → Voiced (term ++ l)) :
    (Upheld signs (split depth x term last l).x ∧ Voiced (split depth x term last l).x) ∧
      Upheld signs (split depth x term last l).y ∧ Voiced (split depth x term last l).rest := by
  have nothing : Upheld signs [] := List.isChain_nil
  induction l generalizing depth x term last with
  | nil => exact ⟨hx, nothing, by simp [split, Voiced]⟩
  | cons t rest ih =>
    have hterm : Upheld signs term := hi.part (List.prefix_append term _).isInfix
    have hright : Upheld signs (t :: rest) := hi.part (List.suffix_append term _).isInfix
    simp only [split]
    split
    · rename_i hk
      exact ⟨hx, nothing, voiced_cons (Token.not_silent_of_kind hk (by decide) (by decide))⟩
    · split
      · rename_i hk
        have hrest : Voiced rest :=
          hright.voiced (Token.not_upholds_of_kind hk.1 (by decide) (by decide) (by decide))
        split
        · exact ⟨hx, hterm, hrest⟩
        · exact ⟨⟨hterm, (hv rfl).of_append⟩, nothing, hrest⟩
      · split
        · rename_i hcomma
          exact ih _ _ _ _ ⟨hterm, (hv hcomma.2.2.2).of_append⟩ (by simpa using (upheld_cons.1 hright).1)
            (by simp)
        · exact ih _ _ _ _ hx (by simpa using hi) (by simpa using hv)

theorem offset_upheld {pos : Position} {x y : List Token} (hx : Upheld joints x) (hv : Voiced x)
    (hy : Upheld joints y) : Upheld joints (offset d pos x y) ∧ Voiced (offset d pos x y) := by
  have code (text : Text) : Upheld joints (Lexer.snippet d pos text) ∧
      Voiced (Lexer.snippet d pos text) := Lexer.snippet_upheld pos text
  have filled : Upheld joints (if x = [] then Lexer.snippet d pos "0" else x) ∧
      Voiced (if x = [] then Lexer.snippet d pos "0" else x) := by
    split
    · exact code "0"
    · exact ⟨hx, hv⟩
  unfold offset
  dsimp only
  split
  · exact filled
  · split
    · exact code _
    · have hend := filled.1.append (code ")").1 (code ")").2
      have hjoint : ")+(".toList ∈ Text.ofStrings ["=", "32*(", ")+("] := by decide
      obtain ⟨hgroup, hfirst⟩ := Lexer.snippet_behind (d := d) hjoint pos hend
      simp only [List.append_assoc]
      exact Lexer.snippet_behind (by decide) pos (hy.append hgroup hfirst)

theorem render_upheld {a : Arguments} (hx : Upheld joints a.x) (hv : Voiced a.x)
    (hy : Upheld joints a.y) : Upheld joints (render d a) ∧ Voiced (render d a) := by
  have code (text : Text) : Upheld joints (Lexer.snippet d a.last.pos text) ∧
      Voiced (Lexer.snippet d a.last.pos text) := Lexer.snippet_upheld _ text
  obtain ⟨hoffset, hfirst⟩ : Upheld joints (offset d a.last.pos a.x a.y) ∧
      Voiced (offset d a.last.pos a.x a.y) := offset_upheld hx hv hy
  have hfront := (code "?@").1.append hoffset hfirst
  have hvoiced := (code "?@").2.append hfirst
  unfold render
  dsimp only
  split
  · simpa using ⟨hfront, hvoiced⟩
  · exact ⟨hfront.append (code ",").1 (code ",").2, hvoiced.append (code ",").2⟩

end PrintAt

namespace Routine

theorem setParameters_upheld {equal separator : List Token} {parameters : List Parameter}
    {arguments : List (List Token)}
    (he : ∀ l, Upheld joints l → Upheld joints (equal ++ l) ∧ Voiced (equal ++ l))
    (hs : Upheld joints separator ∧ Voiced separator) (hp : ∀ p ∈ parameters, p.Steady)
    (ha : ∀ a ∈ arguments, Upheld joints a) :
    Upheld joints (setParameters equal separator parameters arguments) ∧
      Voiced (setParameters equal separator parameters arguments) := by
  induction parameters generalizing arguments with
  | nil => exact upheld_of_forall (by simp [setParameters])
  | cons p more ih =>
    obtain ⟨hp, hmore⟩ := List.forall_mem_cons.1 hp
    obtain ⟨hrest, hnext⟩ := ih hmore fun a h => ha a (List.mem_of_mem_tail h)
    have hgiven : Upheld joints (arguments.headD []) := by
      cases arguments with
      | nil => exact List.isChain_nil
      | cons a arguments => exact ha a (by simp)
    have hvalue : Upheld joints
        (if arguments.headD [] = [] then p.fallback else arguments.headD []) := by
      split
      · exact hp.fallback.mono commas_subset
      · exact hgiven
    simp only [setParameters]
    generalize (if arguments.headD [] = [] then p.fallback else arguments.headD []) = value
      at hvalue ⊢
    split
    · exact ⟨hrest, hnext⟩
    · obtain ⟨hset, hfirst⟩ := he _ (hvalue.append hs.1 hs.2)
      have hname : ¬p.name.Silent := Token.not_silent_of_kind hp.name (by decide) (by decide)
      rw [List.cons_append, List.cons_append, List.append_assoc]
      exact ⟨(hset.cons hfirst).append hrest hnext, voiced_cons hname⟩

theorem copyResults_upheld {equal separator : List Token} {vars : List (Option Token)}
    {results : List (List Token)}
    (he : ∀ l, Upheld joints l → Upheld joints (equal ++ l) ∧ Voiced (equal ++ l))
    (hs : Upheld joints separator ∧ Voiced separator)
    (hv : ∀ v ∈ vars, ∀ t ∈ v, t.kind = .identifier) (hr : ∀ r ∈ results, Upheld joints r) :
    Upheld joints (copyResults equal separator vars results) ∧
      Voiced (copyResults equal separator vars results) := by
  induction vars generalizing results with
  | nil => exact upheld_of_forall (by simp [copyResults])
  | cons v more ih =>
    obtain ⟨hv, hmore⟩ := List.forall_mem_cons.1 hv
    obtain ⟨hrest, hnext⟩ := ih hmore fun r h => hr r (List.mem_of_mem_tail h)
    have hvalue : Upheld joints (results.headD []) := by
      cases results with
      | nil => exact List.isChain_nil
      | cons r results => exact hr r (by simp)
    simp only [copyResults]
    cases v with
    | none => exact ⟨hrest, hnext⟩
    | some v =>
      dsimp only
      split
      · exact ⟨hrest, hnext⟩
      · obtain ⟨hset, hfirst⟩ := he _ hvalue
        have hname : ¬v.Silent := Token.not_silent_of_kind (hv v rfl) (by decide) (by decide)
        have hcopy := hs.1.append (hset.cons (t := v) hfirst) (voiced_cons hname)
        have hstart : Voiced (separator ++ v :: (equal ++ results.headD [])) :=
          hs.2.append (voiced_cons hname)
        exact ⟨by simpa using hcopy.append hrest hnext, by simpa using hstart.append hnext⟩

theorem callTokens_upheld {f : Routine} {fn : Token} {pos : Position}
    {arguments : List (List Token)} {vars : List (Option Token)}
    (hp : ∀ p ∈ f.parameters, p.Steady) (hr : ∀ r ∈ f.results, Upheld joints r)
    (ha : ∀ a ∈ arguments, Upheld joints a) (hv : ∀ v ∈ vars, ∀ t ∈ v, t.kind = .identifier) :
    Upheld joints (callTokens d f fn pos arguments vars) ∧
      Voiced (callTokens d f fn pos arguments vars) := by
  have equal (l : List Token) (hl : Upheld joints l) :
      Upheld joints (Lexer.snippet d pos "=" ++ l) ∧ Voiced (Lexer.snippet d pos "=" ++ l) :=
    Lexer.snippet_behind (by decide) pos hl
  have code (text : Text) : Upheld joints (Lexer.snippet d pos text) ∧
      Voiced (Lexer.snippet d pos text) := Lexer.snippet_upheld pos text
  obtain ⟨hset, hfirst⟩ := setParameters_upheld equal (code ":") hp ha
  obtain ⟨hcopy, hnext⟩ := copyResults_upheld equal (code ":") hv hr
  have hcall : Voiced (⟨.functionCall, fn.lower, fn.pos⟩ ::
      copyResults (Lexer.snippet d pos "=") (Lexer.snippet d pos ":") vars f.results) :=
    voiced_cons (by simp [Token.Silent])
  unfold callTokens
  dsimp only
  exact ⟨(hset.append (code "gosub").1 (code "gosub").2).append (hcopy.cons hnext) hcall,
    (hfirst.append (code "gosub").2).append hcall⟩

end Routine

namespace Label

theorem bracketed_voiced {content closer : Token} {after : List Token} (hi : Upheld joints rest)
    (hl : ∀ u ∈ rest, u.Lawful d)
    (hb : Bracketed.read opening closing t rest = .ok (.holding content closer after)) :
    Voiced after := by
  obtain ⟨rfl, hv⟩ := Bracketed.holding_eq (by decide) hb
  have hmark : ¬closer.Upholds joints :=
    Define.not_upholds_closing (hl closer (by simp)) hv (.inr (.inr rfl)) (by decide)
  exact (hi.part (List.suffix_cons content _).isInfix).voiced hmark

/-- The second stage keeps an output (last token first) and the input behind it upheld. -/
theorem step_upheld {tables : Tables} {loops : List Token} {p : Progress}
    (h : step d tables.routines loops out t rest = .ok p)
    (hi : Upheld joints (out.reverse ++ t :: rest)) (hs : p.rest <:+ rest)
    (hl : ∀ u ∈ t :: rest, u.Lawful d) (ht : tables.Steady) :
    Upheld joints (p.out.reverse ++ p.rest) := by
  have hsuf := hs.trans (List.suffix_cons t rest)
  have hright : Upheld joints (t :: rest) := hi.part (List.suffix_append out.reverse _).isInfix
  have hrest : Upheld joints rest := (upheld_cons.1 hright).1
  have hlrest := (List.forall_mem_cons.1 hl).2
  have behind {k : Kind} (hk : t.kind = k) (hd : k ≠ .data) (hr : k ≠ .remark) (hs : k ≠ .symbol) :
      Voiced rest := hright.voiced (Token.not_upholds_of_kind hk hd hr hs)
  have put {l : List Token} (hl : Upheld joints l ∧ Voiced l) (hv : Voiced p.rest) :
      Upheld joints ((l.reverse ++ out).reverse ++ p.rest) :=
    hi.insert (List.suffix_refl out) hl.1 hl.2 hsuf hv
  have one {k : Kind} {v : Text} {pos : Position} (hd : k ≠ .dataField) (hr : k ≠ .remarkText) :
      ∀ u ∈ [(⟨k, v, pos⟩ : Token)], ¬u.Silent :=
    List.forall_mem_singleton.2 (Token.not_silent_of_kind rfl hd hr)
  have marked {label mark : Token} {pos : Position} (h : lineMark label pos = .ok mark) :
      ∀ u ∈ [mark], ¬u.Silent :=
    List.forall_mem_singleton.2 (Token.not_silent_of_kind (lineMark_kind h) (by decide) (by decide))
  cases step_cases h with
  | @called new before after hk hc =>
    obtain ⟨f, vars, arguments, closer, hf, hv, ha, rfl⟩ := Routine.call_cases hc
    obtain ⟨hvars, hbefore⟩ := Routine.callVariables_spec hv
    obtain ⟨harguments, hafter⟩ := Routine.argumentList_upheld ha hrest hlrest (by decide)
    obtain ⟨hnew, hfirst⟩ : Upheld joints (Routine.callTokens d f t closer.pos arguments vars) ∧
        Voiced (Routine.callTokens d f t closer.pos arguments vars) := Routine.callTokens_upheld
      (ht.parameters _ hf) (fun r hr => (ht.results _ hf r hr).mono commas_subset) harguments hvars
    exact hi.insert hbefore hnew hfirst hsuf hafter
  | jumped hk hb =>
    exact put (l := [_]) (upheld_of_forall (one (by decide) (by decide)))
      (bracketed_voiced hrest hlrest hb)
  | labelled hk _ hb hm =>
    exact put (l := [_]) (upheld_of_forall (marked hm)) (bracketed_voiced hrest hlrest hb)
  | @looped last mark before hk heq _ _ hm =>
    subst heq
    obtain ⟨hup, hvoiced⟩ : Upheld joints [mark] ∧ Voiced [mark] := upheld_of_forall (marked hm)
    exact hi.insert (l := [mark]) (List.suffix_cons last before) hup hvoiced hsuf
      (behind hk (by decide) (by decide) (by decide))
  | @closed label outer hk =>
    have hjump : ∀ u ∈ ((if startsStatement out then [] else Lexer.snippet d t.pos ":") ++
        Lexer.snippet d t.pos "goto") ++ [⟨.labelReturn, label.lower, t.pos⟩], ¬u.Silent := by
      intro u hu
      simp only [List.mem_append] at hu
      rcases hu with (hu | hu) | hu
      · split at hu
        · cases hu
        · exact Lexer.snippet_voiced _ _ u hu
      · exact Lexer.snippet_voiced _ _ u hu
      · exact one (by decide) (by decide) u hu
    simpa using put (upheld_of_forall hjump) (behind hk (by decide) (by decide) (by decide))
  | @exited label outer hk =>
    have hjump : ∀ u ∈ Lexer.snippet d t.pos "goto" ++ [⟨.labelExit, label.lower, t.pos⟩],
        ¬u.Silent := by
      intro u hu
      rcases List.mem_append.1 hu with hu | hu
      · exact Lexer.snippet_voiced _ _ u hu
      · exact one (by decide) (by decide) u hu
    simpa using put (upheld_of_forall hjump) (behind hk (by decide) (by decide) (by decide))
  | printed _ hk =>
    have hv := behind hk (by decide) (by decide) (by decide)
    obtain ⟨⟨hx, hfirst⟩, hy, hnext⟩ := PrintAt.split_upheld 0 none [] t
      (upheld_of_forall (by simp)) hrest fun _ => hv
    exact put (PrintAt.render_upheld hx hfirst hy) hnext
  | passed => simpa using hi

theorem reaches_upheld {tables : Tables} {carried : List Token} {p q : Point}
    (h : Reaches d tables.routines p q) (hr : tables.Plain d) (ht : tables.Steady)
    (hk : Kept d carried p) (hi : Upheld joints (p.out.reverse ++ p.input)) :
    Upheld joints (q.out.reverse ++ q.input) := by
  induction h with
  | refl => exact hi
  | tail hreach hstep ih =>
    have hkept := reaches_kept hreach hr.routines hk
    cases hstep with
    | read he h =>
      obtain ⟨-, -, hs⟩ := step_sound hr.routines hkept.out hkept.led hkept.lawful h
      exact step_upheld h ih hs hkept.lawful ht

/-- What the second stage leaves of a file that is upheld is upheld. -/
theorem place_upheld {tables : Tables} {carried placed : List Token}
    (h : place d tables carried = .ok placed) (hc : Entry.Sound d carried.reverse)
    (hr : tables.Plain d) (ht : tables.Steady) (hi : Upheld joints carried) :
    Upheld joints placed := by
  obtain ⟨start, newline, rest, final, last, left, rfl, -, -, hreach, -, rfl⟩ :=
    reaches_of_place hc h
  have hfinal := reaches_upheld hreach hr ht (kept_first hc) (by simpa using hi)
  exact hfinal.part ⟨[], left, by simp⟩

end Label

namespace Branch

/-- What writes nothing comes to the third stage behind a sign only. -/
theorem front_upheld {s : Setting} {b : Branch} {listing : Listing} {lexed placed : List Token}
    {σ τ : Session} (hx : Lexer.lex s.dialect listing = .ok lexed)
    (h : front s b lexed σ = .ok placed τ) : Upheld joints placed := by
  obtain ⟨tables, carried, _, _, hc, hp, -, -⟩ := front_cases h
  obtain ⟨hplain, hsound⟩ := Directive.carryOut_sound hx hc
  obtain ⟨hupheld, hsteady⟩ := Directive.carryOut_upheld hx hc
  exact Label.place_upheld hp hsound hplain hsteady (hupheld.mono commas_subset)

end Branch

end ClassicBasic
