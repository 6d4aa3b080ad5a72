import ClassicBasic.Proofs.DraftLines
import ClassicBasic.Proofs.DraftText

/-!
# Branches of split lines

A classic listing is converted to labels and statements, each on a line of its own, and compiled again.
Its branches lead to the statements that they led to, but for those to their own line behind its first
statement: they come to lead to the statement that they stand in.
-/

set_option autoImplicit false

namespace ClassicBasic

open List (Forall₂)
open ClassicBasic.Numbering (Scale lineAt)
open Dignify (Layout Plain statements render layOut)
open Glyph (endMark)
open Lexer (readLine?)
open NumberedLine (labelName jumpName)
open Text (IsIndent)

namespace Dignify

/-- The numbered lines of a classic listing. -/
def numberedLines? (d : Dialect) (listing : Listing) : Option (List NumberedLine) :=
  (NumberedLine.readAll d (-1) (listing.drop 1).dropLast).outcome.toOption

/-- The lines that a statement branches to. -/
def branches (statement : List Piece) : List Int := statement.filterMap Piece.target

/-- Whether the lexer reads a statement of the line with the number back as a row that branches to the
same lines. -/
structure ReadsBack (d : Dialect) (file : Text) (a : Layout) (number : Int) (statement : List Piece) :
    Prop where
  row : ∃ ts, readLine? d file (render a statement) = some ts ∧
    Row ((branches statement).map (jumpName number)) ts
  data : ¬Listing.Spills d file (render a statement)

instance (d : Dialect) (file : Text) (a : Layout) (number : Int) (statement : List Piece) :
    Decidable (ReadsBack d file a number statement) :=
  decidable_of_iff ((readLine? d file (render a statement)).any (fun ts =>
      decide (Row ((branches statement).map (jumpName number)) ts)) = true ∧
    ¬Listing.Spills d file (render a statement)) (by
      simp only [Option.any_eq_true, decide_eq_true_eq]
      exact ⟨fun h => ⟨h.1, h.2⟩, fun h => ⟨h.1, h.2⟩⟩)

end Dignify

open Dignify (ReadsBack branches)

namespace Draft

variable {scale : Scale} {file : Text} {k : Nat}

theorem rows_append (ds ds' : List Draft) : rows (ds ++ ds') = rows ds ++ rows ds' := by
  fun_induction rows ds with
  | case1 => rfl
  | case2 n ds ih => exact ih
  | case3 names text ds ih => rw [List.cons_append, rows, ih, List.cons_append]

theorem labels_append (ds ds' : List Draft) : labels scale file k (ds ++ ds') =
    labels scale file k ds ++ labels scale file (k + (rows ds).length) ds' := by
  induction ds generalizing k with
  | nil => rfl
  | cons draft ds ih =>
    cases draft with
    | label n => rw [List.cons_append, labels, labels, ih, rows, List.cons_append]
    | row names text =>
      rw [List.cons_append, labels, labels, ih, rows, List.length_cons, Nat.add_right_comm, Nat.add_assoc]

/-- Whether a row is a statement of the line with the number, behind some indent. -/
inductive Stands (a : Layout) (number : Int) : List Piece → Draft → Prop
  | row {statement : List Piece} {w : Text} (hw : IsIndent w) : Stands a number statement
      (.row ((branches statement).map (jumpName number)) (Text.trimBlankEnd (w ++ render a statement)))

/-- Whether a draft is that of numbered lines, with labels in front of the targets. -/
inductive Of (a : Layout) (targets : List Int) : List NumberedLine → List Draft → Prop
  | nil : Of a targets [] []
  | line {l : NumberedLine} {lines : List NumberedLine} {body ds : List Draft}
      (hb : Forall₂ (Stands a l.number) (statements a l.code) body) (more : Of a targets lines ds) :
      Of a targets (l :: lines) ((if l.number ∈ targets then [.label l.number] else []) ++ (body ++ ds))

variable {a : Layout} {number : Int} {targets : List Int} {l : NumberedLine}
  {before after lines : List NumberedLine} {body ds : List Draft} {code : List (List Piece)}

theorem rows_body (h : Forall₂ (Stands a number) code body) :
    Forall₂ (fun statement row => row.1 = (branches statement).map (jumpName number) ∧
      ∃ w, IsIndent w ∧ row.2 = Text.trimBlankEnd (w ++ render a statement)) code (rows body) := by
  induction h with
  | nil => exact .nil
  | cons hs _ ih =>
    cases hs with
    | row hw => exact .cons ⟨rfl, _, hw, rfl⟩ ih

theorem labels_body (h : Forall₂ (Stands a number) code body) : labels scale file k body = [] := by
  induction h generalizing k with
  | nil => rfl
  | cons hs _ ih =>
    cases hs with
    | row => exact ih

/-- How many statements lines of a listing have. -/
def size (a : Layout) (lines : List NumberedLine) : Nat := (lines.flatMap fun l => statements a l.code).length

theorem size_cons : size a (l :: lines) = (statements a l.code).length + size a lines := by
  rw [size, List.flatMap_cons, List.length_append, size]

theorem rows_line (n : Int) (c : Prop) [Decidable c] (body ds : List Draft) :
    rows ((if c then [.label n] else []) ++ (body ++ ds)) = rows body ++ rows ds := by
  rw [rows_append, rows_append]
  split <;> rfl

theorem Of.rows_length (h : Of a targets lines ds) : (rows ds).length = size a lines := by
  induction h with
  | nil => rfl
  | @line l lines body ds hb more ih =>
    rw [rows_line, List.length_append, ih, size_cons, (rows_body hb).length_eq]

/-- The statements of a line stand behind those of the lines in front. -/
theorem Of.getElem? (h : Of a targets (before ++ l :: after) ds) {i : Nat} {statement : List Piece}
    (hi : (statements a l.code)[i]? = some statement) : ∃ w, IsIndent w ∧ (rows ds)[size a before + i]? =
      some ((branches statement).map (jumpName l.number), Text.trimBlankEnd (w ++ render a statement)) := by
  induction before generalizing ds with
  | nil =>
    cases h with
    | line hb more =>
      obtain ⟨⟨names, text⟩, hrow, rfl, w, hw, rfl⟩ := exists_getElem?_of_forall₂ (rows_body hb) hi
      refine ⟨w, hw, ?_⟩
      rw [rows_line, show size a [] + i = i from Nat.zero_add i,
        List.getElem?_append_left (List.getElem?_eq_some_iff.1 hrow).1, hrow]
  | cons l' before ih =>
    cases h with
    | line hb more =>
      obtain ⟨w, hw, hrow⟩ := ih more
      refine ⟨w, hw, ?_⟩
      have hlen := (rows_body hb).length_eq
      rw [rows_line, size_cons, List.getElem?_append_right (by omega), ← hrow]
      congr 1
      omega

/-- A label stands for the place of the first statement behind the lines in front. -/
theorem Of.mem_labels (h : Of a targets lines ds) {n line : Int}
    (hm : (labelName n ++ "@" ++ file, line) ∈ labels scale file k ds) :
    ∃ before l after, lines = before ++ l :: after ∧ l.number = n ∧
      line = lineAt scale (k + size a before) := by
  induction h generalizing k with
  | nil => cases hm
  | @line l lines body ds hb more ih =>
    have hfront : rows (if l.number ∈ targets then [.label l.number] else []) = [] := by split <;> rfl
    rw [labels_append, labels_append, labels_body hb, List.nil_append, hfront, List.length_nil, Nat.add_zero,
      List.mem_append, ← (rows_body hb).length_eq] at hm
    rcases hm with hm | hm
    · split at hm
      · obtain ⟨hkey, rfl⟩ := Prod.mk.inj (List.mem_singleton.1 hm)
        rw [List.append_cancel_right_eq, List.append_cancel_right_eq] at hkey
        exact ⟨[], l, lines, rfl, (NumberedLine.labelName_injective hkey).symm, rfl⟩
      · cases hm
    · obtain ⟨before, l', after, rfl, hn, hline⟩ := ih hm
      exact ⟨l :: before, l', after, rfl, hn, by rw [hline, size_cons, Nat.add_assoc]⟩

end Draft

namespace Legible

open Draft (Stands)
open Listing (expandTabs)

variable {d : Dialect} {file : Text} {tab : Int} {a : Layout} {L L' : List Text} {ds ds' : List Draft}
  {number : Int} {code : List (List Piece)}

theorem append (h : Legible d file L ds) (h' : Legible d file L' ds') :
    Legible d file (L ++ L') (ds ++ ds') := by
  induction h with
  | nil => exact h'
  | blank _ ih => exact .blank ih
  | label hm _ ih => exact .label hm ih
  | row hw hr hread hrow hj hs _ ih => exact .row hw hr hread hrow hj hs ih

theorem areJumps (number : Int) (targets : List Int) : AreJumps (targets.map (jumpName number)) := by
  intro name hm
  obtain ⟨target, -, rfl⟩ := List.mem_map.1 hm
  rw [jumpName]
  split
  · exact .inl rfl
  · exact .inr ⟨target, rfl⟩

/-- Statements that are read back make up the rows of a draft. -/
theorem exists_body (hi : IsIndent a.indent) (hp : ∀ statement ∈ code, Plain tab statement)
    (hb : ∀ statement ∈ code, ReadsBack d file a number statement) (depth : Nat) :
    ∃ body, Legible d file ((Dignify.indented a depth code).1.map (expandTabs tab)) body ∧
      Forall₂ (Stands a number) code body := by
  induction code generalizing depth with
  | nil => exact ⟨[], .nil, .nil⟩
  | cons statement code ih =>
    rw [List.forall_mem_cons] at hp hb
    simp only [Dignify.indented]
    obtain ⟨body, hbody, hstands⟩ := ih hp.2 hb.2 _
    obtain ⟨w, hw, hexpand⟩ := Listing.expandTabs_indented (Dignify.isIndent_flatten hi _)
      (Dignify.inLine_render (o := a) hp.1)
    obtain ⟨ts, hread, hrow⟩ := hb.1.row
    refine ⟨_ :: body, ?_, .cons (.row hw) hstands⟩
    rw [List.map_cons, hexpand]
    exact .row hw (fun hm => (Dignify.inLine_render hp.1 _ hm).1 rfl) hread hrow
      (areJumps number _) hb.1.data hbody

theorem expandTabs_label (tab m : Int) : expandTabs tab (NumberedLine.label m) = NumberedLine.label m := by
  have htab : '\t' ∉ NumberedLine.label m := fun hm =>
    (NumberedLine.inLine_jumpText 1 (m := 0) (.inr hm)).1.2.2 (by decide) rfl
  unfold expandTabs
  split
  · rfl
  · exact Listing.expandFrom_tabless htab _ _

/-- A listing whose statements are read back is laid out in the lines of a draft. -/
theorem exists_draft (hi : IsIndent a.indent) {lines : List NumberedLine}
    (hp : ∀ l ∈ lines, Plain tab l.code) (hn : ∀ l ∈ lines, 0 ≤ l.number)
    (hb : ∀ l ∈ lines, ∀ statement ∈ statements a l.code, ReadsBack d file a l.number statement)
    (targets : List Int) (first : Bool) (depth : Nat) :
    ∃ ds, Legible d file ((layOut a targets first depth lines).map (expandTabs tab)) ds ∧
      Draft.Of a targets lines ds := by
  induction lines generalizing first depth with
  | nil => exact ⟨[], .nil, .nil⟩
  | cons l lines ih =>
    rw [List.forall_mem_cons] at hp hn hb
    obtain ⟨gap, next, hgap, hlay⟩ := Dignify.layOut_cons a targets first depth l lines
    obtain ⟨ds, hds, hof⟩ := ih hp.2 hn.2 hb.2 next (Dignify.indented a depth (statements a l.code)).2
    obtain ⟨body, hbody, hstands⟩ := exists_body hi
      (fun statement hs => hp.1.part (Dignify.isInfix_statements statement hs)) hb.1 depth
    refine ⟨_, ?_, .line hstands hof⟩
    rw [hlay, List.map_append, List.map_append]
    refine append ?_ (hbody.append hds)
    have hnil : expandTabs tab [] = [] := by
      unfold expandTabs
      split <;> rfl
    have hlabel : Legible d file [NumberedLine.label l.number] [.label l.number] := .label hn.1 .nil
    split
    · rcases hgap with rfl | rfl
      · rwa [List.nil_append, List.map_singleton, expandTabs_label]
      · rw [List.map_append, List.map_singleton, List.map_singleton, expandTabs_label, hnil]
        exact .blank hlabel
    · exact .nil

end Legible

/-- Whether line `k` of a compiled program, with a number and jumps, is made of a statement. -/
def Compiled.Holds (c : Compiled) (d : Dialect) (o : Options) (a : Layout) (k : Nat)
    (statement : List Piece) (n : Int) (jumps : List Token) : Prop :=
  ∃ w, IsIndent w ∧ c.HasLine d o k n (Text.trimBlankEnd (w ++ render a statement)) jumps

namespace Compile

/-- The line of the code that the first statement behind some lines of the listing stands on. -/
def placeBehind (o : Options) (a : Layout) (before : List NumberedLine) : Nat :=
  introduction o + Draft.size a before

/-- Where the branch to the line `target` leads that is statement `i` of the line `l`, with the number `n` in
the code, and that has become the token `u`. -/
structure Branches (c : Compiled) (d : Dialect) (o : Options) (a : Layout) (lines : List NumberedLine)
    (l : NumberedLine) (i : Nat) (n target : Int) (u : Token) : Prop where
  /-- To the first statement of the target, unless a statement behind the first branches to its own line. -/
  first : (target = l.number → i = 0) → ∀ before l' after statement, lines = before ++ l' :: after →
    l'.number = target → (statements a l'.code)[0]? = some statement →
    ∃ n' jumps, c.Holds d o a (placeBehind o a before) statement n' jumps ∧ u.value = Text.ofInt n'
  /-- Such a branch leads to the statement that it stands in. -/
  own : target = l.number → u.value = Text.ofInt n

/-- Whether a compiled program has a line for each statement of a listing, with its branches. -/
structure Flows (c : Compiled) (d : Dialect) (o : Options) (a : Layout) (lines : List NumberedLine) : Prop where
  length : c.code.length = placeBehind o a lines
  statement (before : List NumberedLine) (l : NumberedLine) (after : List NumberedLine) (i : Nat)
    (statement : List Piece) (hl : lines = before ++ l :: after) (hi : (statements a l.code)[i]? = some statement) :
    ∃ n jumps, c.Holds d o a (placeBehind o a before + i) statement n jumps ∧
      Forall₂ (Branches c d o a lines l i n) (branches statement) jumps

variable {s : Setting} {o : Options} {c : Compiled} {σ τ : Session} {a : Layout}
  {text source file : Text} {tab : Int} {lines : List NumberedLine} {out : List Text}

theorem eq_of_number (hnodup : (lines.map NumberedLine.number).Nodup) {b b' e e' : List NumberedLine}
    {l l' : NumberedLine} (h : lines = b ++ l :: e) (h' : lines = b' ++ l' :: e') (hn : l.number = l'.number) :
    b = b' ∧ l = l' := by
  have hat {b e : List NumberedLine} {l : NumberedLine} (h : lines = b ++ l :: e) :
      (lines.map NumberedLine.number)[b.length]? = some l.number := by
    simp [h]
  have hlen : b.length = b'.length := by
    obtain ⟨hlt, -⟩ := List.getElem?_eq_some_iff.1 (hat h)
    exact (List.getElem?_inj hlt hnodup).1 ((hat h).trans (hn ▸ (hat h').symm))
  obtain ⟨hb, hcons⟩ := List.append_inj (h.symm.trans h') hlen
  exact ⟨hb, (List.cons.inj hcons).1⟩

/-- Laid out in lines that are read back, the branches of numbered lines lead to their targets. -/
theorem flows_layOut (hi : IsIndent a.indent) (hp : ∀ l ∈ lines, Plain tab l.code)
    (hn : ∀ l ∈ lines, 0 ≤ l.number) (hnodup : (lines.map NumberedLine.number).Nodup)
    (hb : ∀ l ∈ lines, ∀ statement ∈ statements a l.code, ReadsBack s.dialect file a l.number statement)
    (targets : List Int)
    (h : ofListing s o (Listing.ofText (Text.joinWith "\n" (layOut a targets true 0 lines)) file tab) σ =
      .ok c τ) :
    Flows c s.dialect o a lines := by
  obtain ⟨ds, hlegible, hof⟩ := Legible.exists_draft hi hp hn hb targets true 0
  obtain ⟨start, newline, input, hlex, hd, hk, hstart, hnl, hv⟩ :=
    hlegible.lex_framed (Dignify.head_expanded hp a targets)
  rw [Dignify.ofText_layOut hp hi] at h
  obtain ⟨hlen, hrows⟩ := hasLine_drafted h hlex hd hk hstart hnl hv
  have place {before after : List NumberedLine} {l : NumberedLine} {i : Nat} {statement : List Piece}
      (hl : lines = before ++ l :: after) (hi : (statements a l.code)[i]? = some statement) :
      ∃ jumps, c.Holds s.dialect o a (placeBehind o a before + i) statement
          (lineAt o.scale (placeBehind o a before + i + 1)) jumps ∧
        Forall₂ (Draft.Leads o.scale file (introduction o + 1) ds (Draft.size a before + i))
          ((branches statement).map (jumpName l.number)) jumps := by
    subst hl
    obtain ⟨w, hw, hrow⟩ := hof.getElem? hi
    obtain ⟨jumps, hline, hleads⟩ := hrows _ _ _ hrow
    rw [← Nat.add_assoc] at hline
    exact ⟨jumps, ⟨w, hw, hline⟩, hleads⟩
  refine ⟨by rw [hlen, hof.rows_length, placeBehind], fun before l after i statement hl hi => ?_⟩
  obtain ⟨jumps, hholds, hleads⟩ := place hl hi
  rw [List.forall₂_map_left_iff] at hleads
  refine ⟨_, jumps, hholds, hleads.imp fun target u hu => ?_⟩
  have hnumber : introduction o + 1 + (Draft.size a before + i) = placeBehind o a before + i + 1 := by
    rw [placeBehind]
    omega
  have hown (ht : target = l.number) :
      u.value = Text.ofInt (lineAt o.scale (placeBehind o a before + i + 1)) := by
    rw [← hnumber]
    exact hu.here (if_pos ht)
  refine ⟨fun hfirst before' l' after' statement' hl' hn' hi' => ?_, hown⟩
  obtain ⟨jumps', hholds', -⟩ := place hl' hi'
  refine ⟨_, jumps', hholds', ?_⟩
  by_cases ht : target = l.number
  · obtain rfl := hfirst ht
    obtain ⟨rfl, -⟩ := eq_of_number hnodup hl hl' (ht.symm.trans hn'.symm)
    exact hown ht
  · obtain ⟨line, hline, hvalue⟩ := hu.away target (if_neg ht)
    obtain ⟨before'', l'', after'', hl'', hn'', rfl⟩ := hof.mem_labels hline
    obtain ⟨rfl, -⟩ := eq_of_number hnodup hl' hl'' (hn'.trans hn''.symm)
    rw [hvalue, placeBehind]
    congr 2
    omega

/-- In what a classic listing is converted to, branches lead to the first statements of their targets when it
is compiled, unless statements behind the first branch to their own line, if the lexer reads every statement
back as a row with the same branches. -/
theorem flows_ofListing (hi : IsIndent a.indent)
    (hl : Dignify.numberedLines? s.dialect (Listing.ofText text source tab) = some lines)
    (hb : ∀ l ∈ lines, ∀ statement ∈ statements a l.code, ReadsBack s.dialect file a l.number statement)
    (hout : (Dignify.ofListing s.dialect a (Listing.ofText text source tab)).outcome = .ok out)
    (h : ofListing s o (Listing.ofText (Text.joinWith "\n" out) file tab) σ = .ok c τ) :
    Flows c s.dialect o a lines := by
  set texts := (Listing.lineTexts text).map (Listing.expandTabs tab) with htexts
  have hlisting : Listing.ofText text source tab = ⟨0, Listing.programText, source⟩ ::
      (Listing.numberFrom source 1 texts ++ [⟨texts.length + 1, Listing.eofText, source⟩]) := rfl
  rw [hlisting, Dignify.ofListing_framed] at hout
  rw [hlisting, Dignify.numberedLines?, List.drop_one, List.tail_cons, List.dropLast_concat] at hl
  cases hread : (NumberedLine.readAll s.dialect (-1) (Listing.numberFrom source 1 texts)).outcome with
  | error e =>
    rw [hread] at hl
    cases hl
  | ok read =>
    rw [hread] at hl hout
    obtain rfl : read = lines := Option.some.inj hl
    obtain rfl : layOut a (NumberedLine.targets read) true 0 read = out := Except.ok.inj hout
    obtain ⟨-, hchain, -⟩ := @NumberedLine.readAll_ok s.dialect [] _ read hread
    have hnodup : (read.map NumberedLine.number).Nodup :=
      (List.isChain_iff_pairwise.1 hchain).tail.imp fun h => ne_of_lt h
    refine flows_layOut hi (fun l hm => ?_) (fun l hm => ?_) hnodup hb _ h <;>
      obtain ⟨line, -, hchars, n, hn, rfl⟩ := Dignify.exists_line hread hm
    · exact Dignify.plain_numbered hchars n
    · exact Line.number?_nonneg hn

/-- Branches to a line behind, to a line in front and to the own line. -/
theorem split_jumps_flow :
    ∃ lines c τ, Dignify.numberedLines? .msx (Listing.ofText "10 CLS:GOTO 20\n20 GOTO 20:GOTO 10" "/main" 4) =
        some lines ∧
      ofListing (lone .msx) { header := false } (Listing.ofText (Text.joinWith "\n" (Text.ofStrings
        ["\x7bl_10\x7d", "\tcls", "\tgoto \x7bl_20\x7d", "", "\x7bl_20\x7d", "\tgoto \x7b@\x7d",
          "\tgoto \x7bl_10\x7d"])) "/main" 4) {} = .ok c τ ∧
      c.code = Text.ofStrings ["10 cls", "20 goto 30", "30 goto 30", "40 goto 10"] ∧
      Flows c .msx { header := false } { split := true } lines := by
  obtain ⟨hlines, hout, hrun⟩ :
      (Dignify.numberedLines? .msx (Listing.ofText "10 CLS:GOTO 20\n20 GOTO 20:GOTO 10" "/main" 4)).any
        (fun lines => decide (∀ l ∈ lines, ∀ statement ∈ statements { split := true } l.code,
          ReadsBack .msx "/main" { split := true } l.number statement)) = true ∧
      (Dignify.ofListing .msx { split := true }
        (Listing.ofText "10 CLS:GOTO 20\n20 GOTO 20:GOTO 10" "/main" 4)).outcome = .ok (Text.ofStrings
          ["\x7bl_10\x7d", "\tcls", "\tgoto \x7bl_20\x7d", "", "\x7bl_20\x7d", "\tgoto \x7b@\x7d",
            "\tgoto \x7bl_10\x7d"]) ∧
      (outcome (lone .msx) { header := false } (Listing.ofText (Text.joinWith "\n" (Text.ofStrings
        ["\x7bl_10\x7d", "\tcls", "\tgoto \x7bl_20\x7d", "", "\x7bl_20\x7d", "\tgoto \x7b@\x7d",
          "\tgoto \x7bl_10\x7d"])) "/main" 4)).map Compiled.code =
        some (Text.ofStrings ["10 cls", "20 goto 30", "30 goto 30", "40 goto 10"]) := by
    decide +kernel
  obtain ⟨lines, hl, hb⟩ := (Option.any_eq_true _ _).1 hlines
  obtain ⟨c, hc, hcode⟩ := Option.map_eq_some_iff.1 hrun
  obtain ⟨τ, hτ⟩ := exists_of_outcome hc
  exact ⟨lines, c, τ, hl, hτ, hcode,
    @flows_ofListing (lone .msx) _ c {} τ { split := true } _ _ _ 4 _ _ (by simp [IsIndent]) hl
      (of_decide_eq_true hb) hout hτ⟩

/-- The first statement of line 10 stands on the first line of the code, but its branch to line 10 leads to the
second. -/
theorem jump_behind_not_first :
    ∃ c τ, (Dignify.ofListing .msx { split := true } (Listing.ofText "10 A=1:GOTO 10" "/main" 4)).outcome =
        .ok (Text.ofStrings ["\ta=1", "\tgoto \x7b@\x7d"]) ∧
      (Dignify.numberedLines? .msx (Listing.ofText "10 A=1:GOTO 10" "/main" 4)).map
        (·.map fun l => (l.number, l.jumps)) = some [(10, [10])] ∧
      ofListing (lone .msx) { header := false } (Listing.ofText (Text.joinWith "\n" (Text.ofStrings
        ["\ta=1", "\tgoto \x7b@\x7d"])) "/main" 4) {} = .ok c τ ∧
      c.infos.map (fun info => (info.number, info.text)) =
        [(10, "    a=1".toList), (20, "    goto \x7b@\x7d".toList)] ∧
      c.code = Text.ofStrings ["10 a=1", "20 goto 20"] := by
  obtain ⟨hout, hjumps, hrun⟩ :
      (Dignify.ofListing .msx { split := true } (Listing.ofText "10 A=1:GOTO 10" "/main" 4)).outcome =
        .ok (Text.ofStrings ["\ta=1", "\tgoto \x7b@\x7d"]) ∧
      (Dignify.numberedLines? .msx (Listing.ofText "10 A=1:GOTO 10" "/main" 4)).map
        (·.map fun l => (l.number, l.jumps)) = some [(10, [10])] ∧
      (outcome (lone .msx) { header := false } (Listing.ofText (Text.joinWith "\n" (Text.ofStrings
        ["\ta=1", "\tgoto \x7b@\x7d"])) "/main" 4)).map (fun c =>
          (c.infos.map (fun info => (info.number, info.text)), c.code)) =
        some ([(10, "    a=1".toList), (20, "    goto \x7b@\x7d".toList)],
          Text.ofStrings ["10 a=1", "20 goto 20"]) := by
    decide +kernel
  obtain ⟨c, hc, he⟩ := Option.map_eq_some_iff.1 hrun
  obtain ⟨τ, hτ⟩ := exists_of_outcome hc
  rw [Prod.mk.injEq] at he
  exact ⟨c, τ, hout, hjumps, hτ, he.1, he.2⟩

end Compile

end ClassicBasic
