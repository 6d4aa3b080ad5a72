import ClassicBasic.Proofs.Covering
import ClassicBasic.Proofs.Spelling

/-!
# Snippets and lines

A snippet is read without its places and without what opens a longer run: quotes, remarks, comments,
DATA. A line in which the lexer meets none of them has the tokens that it has as a snippet.
-/

set_option autoImplicit false

namespace ClassicBasic

open Grammar (boundaries)

/-- The kind and the text of a token. -/
def Token.face (t : Token) : Piece.Face := (t.kind, t.value)

/-- Whether what a token stands for is read behind it, or a comment is dropped with it. -/
def Kind.opensRun : Kind → Bool
  | .quote | .remark | .blockRemark | .lineComment | .blockComment | .data => true
  | _ => false

namespace Lexer

variable {d : Dialect} {pos : Position} {c : Char} {k : Kind} {t u v w z : Text}

/-- Whether a text is empty or starts with a character that ends every token in front of it. -/
def EndsTokens (z : Text) : Prop := ∀ c ∈ z.head?, c ∈ boundaries

theorem munch_append {α : Type} (char : α → Char) {taken : Text} {kind : Kind} (l z : List α)
    (hz : EndsTokens (z.map char)) (ht : ∃ x ∈ taken, x ≠ '\r') :
    munch char d taken kind (l ++ z) = ((munch char d taken kind l).1,
      (munch char d taken kind l).2.1, (munch char d taken kind l).2.2 ++ z) := by
  induction l generalizing taken kind with
  | nil =>
    cases z with
    | nil => rfl
    | cons x z =>
      have hnone : d.classify (taken ++ [char x]) = none :=
        Dialect.classify_append_boundary (hz _ rfl) ht
      simp only [List.nil_append, munch, hnone]
  | cons x l ih =>
    have ht' : ∃ y ∈ taken ++ [char x], y ≠ '\r' := by
      obtain ⟨y, hy, hne⟩ := ht
      exact ⟨y, List.mem_append_left _ hy, hne⟩
    rw [List.cons_append]
    simp only [munch]
    split
    · exact ih ht'
    · rfl

/-- Where characters stand makes no difference to the token that they make. -/
theorem munch_map {α β : Type} (char : α → Char) (char' : β → Char) (taken : Text) (kind : Kind)
    {l : List α} {l' : List β} (h : l.map char = l'.map char') :
    (munch char d taken kind l).1 = (munch char' d taken kind l').1 ∧
      (munch char d taken kind l).2.1 = (munch char' d taken kind l').2.1 ∧
      (munch char d taken kind l).2.2.map char = (munch char' d taken kind l').2.2.map char' := by
  induction l generalizing taken kind l' with
  | nil =>
    obtain rfl := List.map_eq_nil_iff.1 h.symm
    exact ⟨rfl, rfl, rfl⟩
  | cons x l ih =>
    obtain ⟨x', l', rfl, hx, hl⟩ := List.map_eq_cons_iff.1 h.symm
    simp only [munch, hx]
    split
    · exact ih _ _ hl.symm
    · refine ⟨rfl, rfl, ?_⟩
      rw [List.map_cons, List.map_cons, hx, hl]

/-! ### Snippets -/

theorem snippet?_dropWhile (code : Text) :
    snippet? d pos (code.dropWhile (· == ' ')) = snippet? d pos code := by
  cases code with
  | nil => rfl
  | cons c rest =>
    by_cases hc : c = ' '
    · subst hc
      have hmunch : munch id d [' '] .spaces rest = ([' '], .spaces, rest) := by
        cases rest with
        | nil => rfl
        | cons x rest =>
          have hnone : d.classify [' ', x] = none :=
            Dialect.classify_boundary_append (by decide) (by decide) x
          simp [munch, hnone]
      rw [List.dropWhile_cons_of_pos (by simp), snippet?, (Dialect.classify_boundaries d).1]
      simp only [hmunch, if_true]
      cases snippet? d pos (rest.dropWhile (· == ' ')) <;> rfl
    · rw [List.dropWhile_cons_of_neg (by simpa using hc)]

theorem snippet?_cons (hk : d.classify [c] = some k) (rest : Text) :
    snippet? d pos (c :: rest) =
      (snippet? d pos (munch id d [c] k rest).2.2).map fun tokens =>
        if (munch id d [c] k rest).2.1 = .spaces then tokens
        else ⟨(munch id d [c] k rest).2.1, (munch id d [c] k rest).1, pos⟩ :: tokens := by
  rw [snippet?, hk]
  simp only [snippet?_dropWhile]

theorem snippet?_blanks (h : ∀ c ∈ z, c = ' ' ∨ c = '\t') : snippet? d pos z = .ok [] := by
  induction z with
  | nil => rw [snippet?]
  | cons c z ih =>
    obtain ⟨hc, hz⟩ := List.forall_mem_cons.1 h
    have hk : d.classify [c] = some .spaces := by
      rcases hc with rfl | rfl
      · exact (Dialect.classify_boundaries d).1
      · exact (Dialect.classify_boundaries d).2.1
    have hmunch : munch id d [c] .spaces z = ([c], .spaces, z) := by
      cases z with
      | nil => rfl
      | cons x z =>
        have hnone : d.classify [c, x] = none := by
          rcases hc with rfl | rfl <;> exact Dialect.classify_boundary_append (by decide) (by decide) x
        simp [munch, hnone]
    rw [snippet?_cons hk, hmunch, ih hz]
    rfl

/-! ### Lines -/

variable {closing : Nat} {last last' : Kind} {g mark : Glyph} {input rest left final inner : List Glyph}
  {tok : Token} {tokens : List Token}

/-- Whether lexing meets no quote, remark, comment or DATA, and splits no name off its mark. -/
def Undisturbed (d : Dialect) (closing : Nat) (last : Kind) (input : List Glyph) : Prop :=
  ∀ last' g rest t left, Comes d closing (last, input) (last', g :: rest) →
    closing ≤ rest.length → scan d g rest = .ok (t, left) →
      t.kind.opensRun = false ∧ (t.kind = .toggle → opensTag last' = true)

theorem Undisturbed.next (h : Undisturbed d closing last input)
    (hn : next? d closing last input = some (last', left)) : Undisturbed d closing last' left :=
  fun _ _ _ _ _ hc => h _ _ _ _ _ (.head hn hc)

def undisturbedFor (d : Dialect) (closing : Nat) : Nat → Kind → List Glyph → Bool
  | 0, _, _ => false
  | n + 1, last, input =>
    (match input with
      | [] => true
      | g :: rest =>
        match scan d g rest with
        | .error _ => true
        | .ok (t, _) =>
          rest.length < closing || (!t.kind.opensRun && (t.kind != .toggle || opensTag last))) &&
      match next? d closing last input with
      | none => true
      | some (last', left) => undisturbedFor d closing n last' left

theorem undisturbed_of_undisturbedFor {n : Nat} (h : undisturbedFor d closing n last input = true) :
    Undisturbed d closing last input := by
  intro last' g rest t left hc hr hs
  induction n generalizing last input with
  | zero => cases h
  | succ n ih =>
    simp only [undisturbedFor, Bool.and_eq_true] at h
    rcases hc.cases_head with heq | ⟨⟨k, more⟩, hstep, hc⟩
    · obtain ⟨rfl, rfl⟩ := Prod.mk.inj heq
      have hhere := h.1
      simp only [hs, decide_eq_false (Nat.not_lt.2 hr), Bool.false_or, Bool.and_eq_true,
        Bool.not_eq_true', Bool.or_eq_true, bne_iff_ne] at hhere
      exact ⟨hhere.1, hhere.2.neg_resolve_left⟩
    · have hmore := h.2
      dsimp only at hstep
      rw [hstep] at hmore
      exact ih hmore hc

theorem complete_self (h : tok.kind.opensRun = false) (ht : tok.kind = .toggle → opensTag last = true) :
    complete d closing last tok left = .ok ([tok], left) := by
  unfold complete
  split
  · rename_i hk
    rw [ht hk]
  all_goals first
    | rfl
    | (rename_i hk; rw [hk] at h; cases h)

theorem scan_inner (hm : mark.char = Glyph.endMark) (hg : g.char ≠ '\r')
    (h : scan d g (inner ++ mark :: final) = .ok (tok, left)) : ∃ k, d.classify [g.char] = some k ∧
      tok = ⟨(munch Glyph.char d [g.char] k inner).2.1, (munch Glyph.char d [g.char] k inner).1, g.pos⟩ ∧
      left = (munch Glyph.char d [g.char] k inner).2.2 ++ mark :: final := by
  have hz : EndsTokens ((mark :: final).map Glyph.char) := by
    intro c hc
    obtain rfl : mark.char = c := by simpa using hc
    rw [hm]
    decide
  unfold scan at h
  split at h
  · cases h
  · rename_i k hk
    dsimp only at h
    rw [munch_append Glyph.char inner (mark :: final) hz ⟨g.char, by simp, hg⟩] at h
    split at h
    · cases h
    · cases h
      exact ⟨k, hk, rfl, rfl⟩

/-- What lexing that succeeds makes of a character in front of the last line. -/
theorem lexFrom_cons_cases (hr : closing ≤ rest.length) (h : lexFrom d closing last (g :: rest) = .ok tokens) :
    ∃ t left, scan d g rest = .ok (t, left) ∧
      ((t.kind = .spaces ∧ lexFrom d closing last left = .ok tokens) ∨
        (t.kind ≠ .spaces ∧ ∃ read more, complete d closing last t left = .ok read ∧
          lexFrom d closing ((read.1.getLast?.map Token.kind).getD last) read.2 = .ok more ∧
          tokens = read.1 ++ more)) := by
  rw [lexFrom, if_neg (Nat.not_lt.2 hr)] at h
  split at h
  · cases h
  · rename_i t left hs
    refine ⟨t, left, hs, ?_⟩
    split at h
    · exact .inl ⟨‹_›, h⟩
    · rename_i hk
      split at h
      · cases h
      · split at h
        · cases h
        · rename_i found hc
          obtain ⟨more, hm, rfl⟩ := Outcome.map_eq_ok_iff.1 h
          exact .inr ⟨hk, _, more, hc, hm, rfl⟩

/-- Whether the tokens end as those of a line in front of the last one do. -/
def EndsLine (inner tokens : List Token) : Prop :=
  ∃ line eof, tokens = inner ++ [line, eof] ∧ line.kind = .newline ∧ eof.kind = .eof

/-- The tokens of what is left of a line are those of it as a snippet. -/
theorem snippet_of_lexFrom (hm : mark.char = Glyph.endMark) (hf : ∃ u ∈ final.head?, u.char ≠ '\r')
    (hi : ∀ g ∈ inner, g.char ≠ '\r') (hz : ∀ c ∈ z, c = ' ' ∨ c = '\t')
    (hu : Undisturbed d final.length last (inner ++ mark :: final))
    (h : lexFrom d final.length last (inner ++ mark :: final) = .ok tokens) :
    ∃ between snippet, EndsLine between tokens ∧
      snippet? d pos (inner.map Glyph.char ++ z) = .ok snippet ∧
      snippet.map Token.face = between.map Token.face := by
  have hends : EndsTokens z := by
    intro c hc
    rcases hz c (List.mem_of_mem_head? hc) with rfl | rfl <;> decide
  induction hn : inner.length using Nat.strong_induction_on generalizing inner last tokens with
  | _ n ih =>
    subst hn
    cases inner with
    | nil =>
      obtain ⟨u, hu, hchar⟩ := hf
      obtain ⟨more, rfl⟩ := List.head?_eq_some_iff.1 hu
      have hk : d.classify [mark.char] = some .newline := hm ▸ classify_endMark d
      have hnone : d.classify [mark.char, u.char] = none :=
        Dialect.classify_boundary (show '\r' ∈ boundaries by decide) (by simp [hm, Glyph.endMark])
          (by simp) ⟨u.char, by simp, hchar⟩
      have hs : scan d mark (u :: more) = .ok (⟨.newline, [mark.char], mark.pos⟩, u :: more) := by
        simp [scan, hk, munch, hnone]
      have hlast : ∀ last, lexFrom d (u :: more).length last (u :: more) =
          .ok [⟨.eof, Listing.eofText, u.pos⟩] := fun last => by
        rw [lexFrom, if_pos (by simp)]
      rw [List.nil_append, lexFrom_token (Nat.le_refl _) hs (by simp) (by simp) (complete_self rfl (by simp)),
        hlast] at h
      cases h
      exact ⟨[], [], ⟨_, _, rfl, rfl, rfl⟩, snippet?_blanks hz, rfl⟩
    | cons g inner =>
      obtain ⟨hg, hi⟩ := List.forall_mem_cons.1 hi
      have hr : final.length ≤ (inner ++ mark :: final).length := by
        rw [List.length_append, List.length_cons]
        omega
      obtain ⟨t, left, hs, hcases⟩ := lexFrom_cons_cases hr h
      obtain ⟨hrun, htag⟩ := hu _ _ _ _ _ .refl hr hs
      have hcomplete := @complete_self d final.length last left t hrun htag
      obtain ⟨k, hk, ht, rfl⟩ := scan_inner hm hg hs
      -- the snippet starts with the same token
      obtain ⟨htext, hkind, hleft⟩ :=
        munch_map Glyph.char id [g.char] k (show inner.map Glyph.char = (inner.map Glyph.char).map id by simp)
      rw [List.map_id] at hleft
      have hsnippet := @snippet?_cons d pos _ _ hk (inner.map Glyph.char ++ z)
      rw [munch_append id _ z (by simpa using hends) ⟨g.char, by simp, hg⟩, ← htext, ← hkind, ← hleft] at hsnippet
      generalize hfound : munch Glyph.char d [g.char] k inner = found at *
      have hlen : found.2.2.length < (g :: inner).length := by
        rw [← hfound, List.length_cons]
        exact Nat.lt_succ_of_le (length_munch _ _ _ _ _)
      have hi' : ∀ g ∈ found.2.2, g.char ≠ '\r' := by
        obtain ⟨span, hsplit, -⟩ := @munch_span d [g.char] k inner
        rw [hfound] at hsplit
        exact fun u hu => hi u (hsplit ▸ List.mem_append_right _ hu)
      have hkind' : t.kind = found.2.1 := by rw [ht]
      rw [List.map_cons, List.cons_append, hsnippet]
      rcases hcases with ⟨hsp, hl⟩ | ⟨hsp, read, more, hc, hl, rfl⟩
      · have hnext : next? d final.length last (g :: (inner ++ mark :: final)) =
            some (last, found.2.2 ++ mark :: final) := by simp [next?, hs, hsp]
        obtain ⟨between, snippet, hend, hsome, hfaces⟩ := ih _ hlen hi' (hu.next hnext) hl rfl
        exact ⟨between, snippet, hend, by simp [hsome, ← hkind', hsp, Except.map], hfaces⟩
      · obtain rfl := Except.ok.inj (hc.symm.trans hcomplete)
        have hnext : next? d final.length last (g :: (inner ++ mark :: final)) =
            some (t.kind, found.2.2 ++ mark :: final) := by simp [next?, hs, hsp, hcomplete]
        obtain ⟨between, snippet, ⟨line, eof, rfl, hline, heof⟩, hsome, hfaces⟩ :=
          ih _ hlen hi' (hu.next hnext) hl rfl
        refine ⟨t :: between, ⟨found.2.1, found.1, pos⟩ :: snippet, ⟨line, eof, rfl, hline, heof⟩, ?_, ?_⟩
        · simp [hsome, ← hkind', hsp, Except.map]
        · rw [List.map_cons, List.map_cons, hfaces, ht]
          rfl

end Lexer

/-- A line that is lexed without a quote, a remark, a comment, DATA or a name split off its mark has
the same tokens as a snippet. -/
theorem Lexer.snippet_of_line (d : Dialect) (pos : Position) (file text : Text) (tokens : List Token)
    (hw : ∀ c ∈ text, Text.isBlank c = true → c = ' ' ∨ c = '\t')
    (hu : Undisturbed d (Glyph.ofLine ⟨2, Listing.eofText, file⟩).length .newline
      ((Listing.framed file [text]).tail.flatMap Glyph.ofLine))
    (h : lex d (Listing.framed file [text]) = .ok tokens) :
    ∃ start newline between snippet, tokens.take 2 = [start, newline] ∧
      start.kind = .program ∧ newline.kind = .newline ∧ EndsLine between (tokens.drop 2) ∧
      snippet? d pos text = .ok snippet ∧ snippet.map Token.face = between.map Token.face := by
  have hsplit := Text.trimEnd_append_takeWhile Text.isBlank text
  change Text.trimBlankEnd text ++ _ = text at hsplit
  generalize htrail : (text.reverse.takeWhile Text.isBlank).reverse = trail at hsplit
  have hz : ∀ c ∈ trail, c = ' ' ∨ c = '\t' := fun c hc => by
    refine hw c (hsplit ▸ List.mem_append_right _ hc) ?_
    rw [← htrail, List.mem_reverse] at hc
    exact List.mem_takeWhile_imp hc
  obtain ⟨inner, col, hspread, hinner⟩ :=
    spread_append 1 (Text.trimBlankEnd text) file 1 (Text.trimBlankEnd text) []
  rw [List.append_nil, Glyph.spread] at hspread
  generalize hmark : (⟨Glyph.endMark, .onLine 1 col (Text.trimBlankEnd text) file, true⟩ : Glyph) = mark at hspread
  generalize hfinal : Glyph.ofLine ⟨2, Listing.eofText, file⟩ = final at hu
  have hlines : (Listing.framed file [text]).tail.flatMap Glyph.ofLine = inner ++ mark :: final := by
    rw [← hfinal]
    simp [Listing.framed, Listing.numberFrom, Glyph.ofLine, hspread]
  rw [hlines] at hu
  have hlex : lex d (Listing.framed file [text]) =
      (lexFrom d final.length .newline (inner ++ mark :: final)).map fun tokens =>
        ⟨.program, Listing.programText, Glyph.place (Glyph.ofLine ⟨0, Listing.programText, file⟩)⟩ ::
          ⟨.newline, [Glyph.endMark], Glyph.place (Glyph.ofLine ⟨0, Listing.programText, file⟩)⟩ ::
            tokens := by
    rw [← hlines, ← hfinal]
    rfl
  rw [hlex] at h
  obtain ⟨more, hmore, rfl⟩ := Outcome.map_eq_ok_iff.1 h
  have hreturn : ∀ g ∈ inner, g.char ≠ '\r' := fun g hg he => by
    have hmem : '\r' ∈ text := by
      rw [← hsplit, ← hinner.chars]
      exact List.mem_append_left _ (he ▸ List.mem_map_of_mem hg)
    exact absurd (hw '\r' hmem (by decide)) (by decide)
  have hfirst : ∃ u ∈ final.head?, u.char ≠ '\r' := by
    rw [← hfinal]
    exact ⟨_, rfl, show 'E' ≠ '\r' by decide⟩
  obtain ⟨between, snippet, hend, hsome, hfaces⟩ :=
    @snippet_of_lexFrom d pos trail _ mark final inner more (hmark ▸ rfl) hfirst hreturn hz hu hmore
  rw [hinner.chars, hsplit] at hsome
  exact ⟨_, _, between, snippet, rfl, rfl, rfl, hend, hsome, hfaces⟩

/-- A name with a mark in front is not split where it starts a line. -/
theorem Lexer.snippet_of_tag : ∃ start newline between snippet tokens,
    lex .msx (Listing.framed "/main" ["#a\tlocate 1,2 "]) = .ok tokens ∧
      tokens.take 2 = [start, newline] ∧ start.kind = .program ∧ newline.kind = .newline ∧
      EndsLine between (tokens.drop 2) ∧
      snippet? .msx {} "#a\tlocate 1,2 " = .ok snippet ∧
      snippet.map Token.face = between.map Token.face := by
  have hu : Undisturbed .msx (Glyph.ofLine ⟨2, Listing.eofText, "/main"⟩).length .newline
      ((Listing.framed "/main" ["#a\tlocate 1,2 "]).tail.flatMap Glyph.ofLine) := by
    refine undisturbed_of_undisturbedFor (n := 20) ?_
    decide +kernel
  have hblanks : "#a\tlocate 1,2 ".toList.all
      (fun c => !Text.isBlank c || c == ' ' || c == '\t') = true := by decide
  have hw : ∀ c ∈ "#a\tlocate 1,2 ".toList, Text.isBlank c = true → c = ' ' ∨ c = '\t' := fun c hc hb => by
    simpa [hb] using List.all_eq_true.1 hblanks c hc
  cases h : lex .msx (Listing.framed "/main" ["#a\tlocate 1,2 "]) with
  | ok tokens =>
    obtain ⟨start, newline, between, snippet, hstarts⟩ :=
      snippet_of_line .msx {} "/main" "#a\tlocate 1,2 " tokens hw hu h
    exact ⟨start, newline, between, snippet, tokens, rfl, hstarts⟩
  | error e =>
    have hok : (lex .msx (Listing.framed "/main" ["#a\tlocate 1,2 "])).isOk = true := by
      decide +kernel
    rw [h] at hok
    cases hok

end ClassicBasic
