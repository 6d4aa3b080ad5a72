import ClassicBasic.Proofs.Covering
import ClassicBasic.Proofs.Stops

/-!
# Lexing stops in time

The last line of a listing stands behind a fence: the end mark of the line before it. Only a line end
takes an end mark, and the last line starts with none, so nothing is read past the fence but the fence
itself. Lexing therefore ends with a line end and the end of the program.
-/

set_option autoImplicit false

namespace ClassicBasic

theorem Failure.located_told (c : Cause) (pos : Position) : Failure.Told (.located c pos) := by
  constructor <;> intro h <;> cases h

theorem Shut.append {last : Kind} {tokens more : List Token}
    (h : Shut ((tokens.getLast?.map Token.kind).getD last) more) (ht : ∀ t ∈ tokens, t.kind ≠ .eof) :
    Shut last (tokens ++ more) := by
  induction tokens generalizing last with
  | nil => exact h
  | cons t tokens ih =>
    obtain ⟨hk, hmore⟩ := List.forall_mem_cons.1 ht
    apply Shut.cons hk
    apply ih _ hmore
    rw [List.getLast?_cons] at h
    cases hlast : tokens.getLast? with
    | none =>
      rw [hlast] at h
      exact h
    | some u =>
      rw [hlast] at h
      exact h

namespace Glyph

/-- Whether the characters `final` of the last line, and the end mark in front of them, are still
ahead. -/
def Fenced (final input : List Glyph) : Prop :=
  ∃ front fence, input = front ++ fence :: final ∧ fence.ends = true

variable {final input span left rest : List Glyph} {g : Glyph}

theorem Fenced.length_lt (h : Fenced final input) : final.length < input.length := by
  obtain ⟨front, fence, rfl, -⟩ := h
  rw [List.length_append, List.length_cons]
  omega

theorem Fenced.ne_nil (h : Fenced final input) : input ≠ [] :=
  List.ne_nil_of_length_pos (Nat.zero_lt_of_lt h.length_lt)

/-- A run of characters that ends no line is in front of the fence. -/
theorem Fenced.behind (h : Fenced final (span ++ left)) (hs : Inside span) : Fenced final left := by
  obtain ⟨front, fence, heq, hends⟩ := h
  rcases List.append_eq_append_iff.1 heq with ⟨more, -, hleft⟩ | ⟨more, rfl, hmore⟩
  · exact ⟨more, fence, hleft, hends⟩
  · cases more with
    | nil => exact ⟨[], fence, hmore.symm, hends⟩
    | cons u more =>
      obtain ⟨rfl, -⟩ := List.cons_eq_cons.1 hmore
      have hin := hs fence (by simp)
      rw [hends] at hin
      cases hin

theorem Fenced.tail (h : Fenced final (g :: rest)) (hg : g.ends = false) : Fenced final rest :=
  @Fenced.behind final [g] rest h (by simpa [Inside] using hg)

theorem Fenced.suffix (h : Fenced final input) (hs : left <:+ input) (hlen : final.length < left.length) :
    Fenced final left := by
  obtain ⟨front, fence, rfl, hends⟩ := h
  obtain ⟨gone, heq⟩ := hs
  rcases List.append_eq_append_iff.1 heq with ⟨more, -, hleft⟩ | ⟨more, -, hmore⟩
  · exact ⟨more, fence, hleft, hends⟩
  · have hle := congrArg List.length hmore
    rw [List.length_cons, List.length_append] at hle
    cases more with
    | nil => exact ⟨[], fence, hmore.symm, hends⟩
    | cons u more =>
      rw [List.length_cons] at hle
      omega

theorem Fenced.restOfLine (h : Fenced final input) : Fenced final (restOfLine input).2 := by
  have hsplit := List.takeWhile_append_dropWhile (p := fun g : Glyph => !g.ends) (l := input)
  rw [← hsplit] at h
  exact h.behind fun g hg => by simpa using List.mem_takeWhile_imp hg

theorem Fenced.nextLine (h : Fenced final input) (hn : nextLine? final.length input = some left) :
    Fenced final left := by
  apply h.suffix (nextLine_suffix hn)
  unfold nextLine? at hn
  dsimp only at hn
  split at hn
  · cases hn
    assumption
  · cases hn

end Glyph

namespace Lexer

open Glyph (Laid Inside Fenced endMark)

variable {d : Dialect} {final input left rest : List Glyph} {g : Glyph} {t : Token} {last : Kind}

theorem quotedTail_fenced (hl : Laid input) (h : Fenced final input) :
    Fenced final (quotedTail input).2 := by
  obtain ⟨span, hsplit, hin, -⟩ := quotedTail_span hl
  rw [hsplit] at h
  exact h.behind hin

theorem dataPart_fenced (part : Text) (hl : Laid (g :: rest)) (hg : g.ends = false)
    (h : Fenced final (g :: rest)) :
    Fenced final (dataPart part g rest).2 ∧ Laid (dataPart part g rest).2 := by
  unfold dataPart
  split
  · exact ⟨quotedTail_fenced hl.tail (h.tail hg), hl.tail.suffix (quotedTail_suffix rest)⟩
  · exact ⟨h.tail hg, hl.tail⟩

theorem dataItems_fenced {start : Position} {joined part : Text} (hl : Laid input)
    (h : Fenced final input) :
    Fenced final (dataItems final.length start joined part input).2 := by
  have inside {g : Glyph} {rest : List Glyph} (hl : Laid (g :: rest)) (hg : g.char ≠ endMark) :
      g.ends = false := by
    rw [Bool.eq_false_iff]
    exact fun hends => hg ((hl.apt g List.mem_cons_self).marks.2 hends)
  fun_induction dataItems final.length start joined part input with
  | case1 => exact absurd rfl h.ne_nil
  | case2 => exact h
  | case3 start joined part g rest hg hblank ih => exact ih hl.tail (h.tail (inside hl hg))
  | case4 start joined part g rest hg hblank item left comma hgo ih =>
    obtain ⟨hleft, hlaid⟩ := dataPart_fenced part hl (inside hl hg) h
    exact ih hlaid hleft
  | case5 start joined part g rest hg hblank item left comma hgo next hn ih =>
    obtain ⟨hleft, hlaid⟩ := dataPart_fenced part hl (inside hl hg) h
    unfold continued? at hn
    split at hn
    · exact ih (hlaid.suffix (Glyph.nextLine_suffix hn)) (hleft.nextLine hn)
    · cases hn
  | case6 start joined part g rest hg => exact (dataPart_fenced _ hl (inside hl hg) h).1
  | case7 start joined part g rest hg hblank item left comma hgo hn hcomma here tokens hends more ih =>
    obtain ⟨hleft, hlaid⟩ := dataPart_fenced part hl (inside hl hg) h
    exact ih hlaid hleft
  | case8 start joined part g rest hg => exact (dataPart_fenced _ hl (inside hl hg) h).1

theorem dataFields_fenced (hl : Laid input) (h : Fenced final input) :
    Fenced final (dataFields final.length input).2 := by
  have hsplit := List.takeWhile_append_dropWhile (p := fun g : Glyph => g.char == ' ') (l := input)
  have hin : Inside (input.takeWhile fun g => g.char == ' ') := by
    rw [← hsplit] at hl
    refine hl.inside fun hmem => ?_
    obtain ⟨g, hg, hchar⟩ := List.mem_map.1 hmem
    have hblank : g.char = ' ' := by simpa using List.mem_takeWhile_imp hg
    rw [hblank] at hchar
    exact absurd hchar (by decide)
  have hbody : Fenced final (input.dropWhile fun g => g.char == ' ') := by
    rw [← hsplit] at h
    exact h.behind hin
  unfold dataFields
  dsimp only
  split
  · exact hbody
  · exact dataItems_fenced (hl.suffix (List.dropWhile_suffix _)) hbody

theorem blockLines_fenced {opener : Token} (h : Fenced final input) :
    Outcome.Meets (fun read => Fenced final read.2) (blockLines final.length opener input) := by
  fun_induction blockLines final.length opener input with
  | case1 => exact h.restOfLine
  | case2 => exact Token.told _ _
  | case3 input text atEnd hnone next hn =>
    rename_i ih
    exact (ih (h.restOfLine.nextLine hn)).map fun read hr => hr

theorem block_fenced {opener : Token} (h : Fenced final input) :
    Outcome.Meets (fun read => Fenced final read.2) (block final.length opener input) := by
  unfold block
  split
  · exact Token.told _ _
  · rename_i start hs
    have hstart : Fenced final start := by
      unfold blockStart? at hs
      split at hs
      · exact h.nextLine hs
      · cases hs
        exact h
    exact (blockLines_fenced hstart).map fun read hr => hr

theorem complete_fenced (hl : Laid input) (h : Fenced final input) :
    Outcome.Meets (fun read => Fenced final read.2) (complete d final.length last t input) := by
  unfold complete
  split
  · split
    · exact h
    · exact h
  · split
    · exact block_fenced h
    · exact h.restOfLine
  · split
    · exact block_fenced h
    · exact h.restOfLine
  · exact h.restOfLine
  · exact h.restOfLine
  · exact quotedTail_fenced hl h
  · exact dataFields_fenced hl h
  · exact h

theorem complete_inner {closing : Nat} {read : List Token × List Glyph}
    (hc : d.classify t.value = some t.kind) (h : complete d closing last t input = .ok read) :
    ∀ u ∈ read.1, u.kind ≠ .eof := by
  have classified {v : Text} {k : Kind} (hc : d.classify v = some k) : k ≠ .eof := by
    intro hk
    have hread := Dialect.isRead_of_classify hc
    rw [hk] at hread
    cases hread
  have ht := classified hc
  have hblock {read : List Token × List Glyph} (h : block closing t input = .ok read) :
      ∀ u ∈ read.1, u.kind ≠ .eof := by
    intro u hu
    rcases (block_spec h).1 u hu with rfl | hu | hu
    · exact ht
    · simp [hu]
    · simp [hu]
  unfold complete at h
  split at h
  · split at h
    · rename_i symbol name _ _
      cases h
      have hname : (d.classify name).getD .identifier ≠ .eof := by
        cases hcl : d.classify name with
        | none => simp
        | some k => exact classified hcl
      simp [hname]
    · cases h
      simpa using ht
  · split at h
    · exact hblock h
    · cases h
      simp
  · split at h
    · exact hblock h
    · cases h
      simp
  · cases h
    simp
  · cases h
    dsimp only
    split
    · simpa using ht
    · simpa using ht
  · cases h
    simp
  · cases h
    intro u hu
    rcases List.mem_cons.1 hu with rfl | hu
    · exact ht
    · rcases dataFields_kind _ _ u hu with hu | ⟨hu, -⟩
      · simp [hu]
      · simp [hu]
  · cases h
    simpa using ht

theorem scan_meets (hs : final <:+ g :: rest) (hf : ∃ u ∈ final, u.char ≠ endMark) :
    Outcome.Meets (fun _ => True) (scan d g rest) := by
  unfold scan
  split
  · exact Failure.located_told _ _
  · rename_i k _
    dsimp only
    split
    · rename_i hover
      obtain ⟨span, hrest, htext⟩ := munch_span (d := d) [g.char] k rest
      rw [hover.1, List.append_nil] at hrest
      obtain ⟨u, hu, hchar⟩ := hf
      -- the token would hold the last line and an end mark
      have hmem : u.char ∈ (munch Glyph.char d [g.char] k rest).1 ++ [endMark] := by
        rw [htext, ← hrest]
        exact List.mem_append_left _ (List.mem_map_of_mem (hs.mem hu))
      obtain ⟨kind, hkind⟩ := Option.isSome_iff_exists.1 hover.2
      by_cases hn : kind = .newline
      · exact absurd ((Dialect.accepts_newline (hn ▸ hkind)).2 _ hmem) hchar
      · exact absurd (List.mem_append_right _ (List.mem_singleton_self _))
          (Dialect.not_mem_return hkind hn (by simp))
    · trivial

/-- What a token leaves of a listing that is fenced: the fence is still ahead, unless a line end took
it. -/
theorem scan_fenced (hl : Laid (g :: rest)) (hf : ∃ u more, final = u :: more ∧ u.ends = false)
    (h : Fenced final (g :: rest)) (hs : scan d g rest = .ok (t, left)) :
    Fenced final left ∨ (t.kind = .newline ∧ left = final) := by
  obtain ⟨span, hsplit, hne, hv, -⟩ := scan_span hs
  have hc := scan_classified hs
  rw [hsplit] at hl h
  by_cases hn : t.kind = .newline
  · -- line ends take no more than the fence
    have hends := hl.ending (hv ▸ (Dialect.accepts_newline (hn ▸ hc)).2)
    obtain ⟨front, fence, heq, hfence⟩ := h
    rcases List.append_eq_append_iff.1 heq with ⟨more, -, hleft⟩ | ⟨more, rfl, hmore⟩
    · exact .inl ⟨more, fence, hleft, hfence⟩
    · cases more with
      | nil => exact .inl ⟨[], fence, hmore.symm, hfence⟩
      | cons u more =>
        obtain ⟨rfl, hfinal⟩ := List.cons_eq_cons.1 hmore
        cases more with
        | nil => exact .inr ⟨hn, hfinal.symm⟩
        | cons w more =>
          obtain ⟨first, others, hcons, hfirst⟩ := hf
          obtain ⟨rfl, -⟩ := List.cons_eq_cons.1 (hcons.symm.trans hfinal)
          rw [hends first (by simp)] at hfirst
          cases hfirst
  · refine .inl (h.behind (hl.inside ?_))
    rw [← hv]
    exact Dialect.not_mem_return hc hn (by simp [hv, hne])

theorem lexFrom_meets (hl : Laid input)
    (hf : ∃ u more, final = u :: more ∧ u.ends = false)
    (h : Fenced final input ∨ (last = .newline ∧ input = final)) :
    Outcome.Meets (Shut last) (lexFrom d final.length last input) := by
  have fenced {last : Kind} {g : Glyph} {rest : List Glyph} (hlt : ¬rest.length < final.length)
      (h : Fenced final (g :: rest) ∨ (last = .newline ∧ g :: rest = final)) :
      Fenced final (g :: rest) := by
    refine h.resolve_right fun ⟨_, heq⟩ => hlt ?_
    rw [← heq]
    exact Nat.lt_succ_self _
  have scanned {g : Glyph} {rest : List Glyph} (hl : Laid (g :: rest)) (h : Fenced final (g :: rest)) :
      Outcome.Meets (fun _ => True) (scan d g rest) := by
    obtain ⟨front, fence, heq, -⟩ := h
    have hs : final <:+ g :: rest := ⟨front ++ [fence], by simp [heq]⟩
    obtain ⟨u, more, rfl, hu⟩ := hf
    refine scan_meets hs ⟨u, List.mem_cons_self, fun hchar => ?_⟩
    rw [(hl.apt u (hs.mem List.mem_cons_self)).marks.1 hchar] at hu
    cases hu
  fun_induction lexFrom d final.length last input with
  | case1 last =>
    obtain ⟨u, more, rfl, -⟩ := hf
    rcases h with h | ⟨-, h⟩
    · exact absurd rfl h.ne_nil
    · cases h
  | case2 last g rest hlt =>
    rcases h with h | ⟨rfl, -⟩
    · have hlen := h.length_lt
      rw [List.length_cons] at hlen
      omega
    · exact .last rfl rfl
  | case3 last g rest hlt e hs => exact (scanned hl (fenced hlt h)).told hs
  | case4 last g rest hlt t left hs hk ih =>
    have hleft : Fenced final left :=
      (scan_fenced hl hf (fenced hlt h) hs).resolve_right fun hn => by simp [hk] at hn
    exact ih (hl.tail.suffix (scan_suffix hs)) (.inl hleft)
  | case5 => exact Token.told _ _
  | case6 last g rest hlt t left hs hk hb e hc =>
    rcases scan_fenced hl hf (fenced hlt h) hs with hleft | ⟨hn, -⟩
    · exact (complete_fenced (hl.tail.suffix (scan_suffix hs)) hleft).told hc
    · simp [complete, hn] at hc
  | case7 last g rest hlt t left hs hk hb read left' hc last' =>
    rename_i ih
    have hlaid : Laid left := hl.tail.suffix (scan_suffix hs)
    have hahead : Fenced final left' ∨ (last' = .newline ∧ left' = final) := by
      rcases scan_fenced hl hf (fenced hlt h) hs with hleft | ⟨hn, hleft⟩
      · exact .inl ((complete_fenced hlaid hleft).holds hc)
      · simp only [complete, hn] at hc
        cases hc
        exact .inr ⟨hn, hleft⟩
    apply (ih (hlaid.suffix (complete_suffix hc)) hahead).map
    exact fun more hm => hm.append (complete_inner (scan_classified hs) hc)

end Lexer

namespace Listing

open Glyph (Laid Fenced ofLine)

theorem fenced_lines {body : Listing} {last : Line} (hb : ∀ l ∈ body, Glyph.endMark ∉ l.text) :
    Fenced (ofLine last) ((body ++ [last]).flatMap ofLine) ∨
      (body ++ [last]).flatMap ofLine = ofLine last := by
  rcases List.eq_nil_or_concat body with rfl | ⟨init, l, rfl⟩
  · exact .inr (by simp)
  · refine .inl ?_
    rw [List.concat_eq_append] at hb ⊢
    have hline : Laid (ofLine l) := laid_ofLine (hb l (by simp))
    have hne : ofLine l ≠ [] := by
      unfold ofLine
      cases Text.trimBlankEnd l.text <;> simp [Glyph.spread]
    refine ⟨init.flatMap ofLine ++ (ofLine l).dropLast, (ofLine l).getLast hne, ?_,
      hline.last _ (List.getLast?_eq_some_getLast hne)⟩
    calc (init ++ [l] ++ [last]).flatMap ofLine
        = init.flatMap ofLine ++ ((ofLine l).dropLast ++ [(ofLine l).getLast hne]) ++ ofLine last := by
          rw [List.dropLast_append_getLast]
          simp
      _ = init.flatMap ofLine ++ (ofLine l).dropLast ++ (ofLine l).getLast hne :: ofLine last := by
          simp only [List.append_assoc, List.singleton_append]

/-- Lexing the listing of a text gives the start of a program and what follows it up to its end, or
says what is wrong with the text. -/
theorem lex_meets (d : Dialect) (text file : Text) (tab : Int) :
    Outcome.Meets (fun tokens => ∃ start newline rest, tokens = start :: newline :: rest ∧
      Shut .newline rest) (Lexer.lex d (ofText text file tab)) := by
  obtain ⟨body, last, hbody, hlast⟩ : ∃ body last, ofText text file tab =
      ⟨0, programText, file⟩ :: (body ++ [last]) ∧ last.text = eofText := ⟨_, _, rfl, rfl⟩
  have hproper := proper_ofText text file tab
  rw [hbody] at hproper ⊢
  have hlex : Lexer.lex d (⟨0, programText, file⟩ :: (body ++ [last])) =
      (Lexer.lexFrom d (ofLine last).length .newline ((body ++ [last]).flatMap ofLine)).map
        fun tokens => ⟨.program, programText, Glyph.place (ofLine ⟨0, programText, file⟩)⟩ ::
          ⟨.newline, [Glyph.endMark], Glyph.place (ofLine ⟨0, programText, file⟩)⟩ :: tokens := by
    cases body with
    | nil => rfl
    | cons l body => simp [Lexer.lex]
  have hfirst : ∃ u more, ofLine last = u :: more ∧ u.ends = false := by
    unfold ofLine
    rw [hlast]
    exact ⟨_, _, rfl, rfl⟩
  have hahead : Fenced (ofLine last) ((body ++ [last]).flatMap ofLine) ∨
      (body ++ [last]).flatMap ofLine = ofLine last :=
    fenced_lines fun l hl => hproper.returns l (List.mem_cons_of_mem _ (List.mem_append_left _ hl))
  have hshut : Outcome.Meets (Shut .newline) (Lexer.lexFrom d (ofLine last).length .newline
      ((body ++ [last]).flatMap ofLine)) :=
    Lexer.lexFrom_meets hproper.tail.laid hfirst (hahead.imp_right fun h => ⟨rfl, h⟩)
  rw [hlex]
  exact hshut.map fun tokens ht => ⟨_, _, tokens, rfl, ht⟩

end Listing

end ClassicBasic
