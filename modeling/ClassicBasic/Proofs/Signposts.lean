import ClassicBasic.Classic.Dignify
import ClassicBasic.Proofs.References
import Mathlib.Data.List.Nodup

/-!
# Labels of classic lines

The lines that others refer to are collected over a whole listing before it is written, and each of
them gets its label when its turn comes. So a label stands once, in front of the code of its line or,
where the line has none, of the code that comes next, and every reference to it is written by its
name.
-/

set_option autoImplicit false

namespace ClassicBasic

namespace Text

theorem ofNat_injective {m n : Nat} (h : ofNat m = ofNat n) : m = n := by
  have hdigits : Nat.toDigits 10 m = Nat.toDigits 10 n := by simpa [ofNat] using h
  rw [← Nat.ofDigitChars_ten_toDigits (n := m), hdigits, Nat.ofDigitChars_ten_toDigits]

theorem ofInt_injective {m n : Int} (h : ofInt m = ofInt n) : m = n := by
  have hminus {k : Nat} {t : Text} : ofNat k ≠ '-' :: t := fun he =>
    absurd (isDigit_of_mem_ofNat (n := k) (c := '-') (by rw [he]; exact List.mem_cons_self))
      (by decide)
  cases m with
  | ofNat m =>
    cases n with
    | ofNat n => rw [ofNat_injective h]
    | negSucc n => exact absurd h hminus
  | negSucc m =>
    cases n with
    | ofNat n => exact absurd h.symm hminus
    | negSucc n =>
      have := ofNat_injective (List.cons.inj h).2
      rw [Nat.succ.inj this]

theorem ofInt_signs {n : Int} {c : Char} (h : c ∈ ofInt n) : c = '-' ∨ c.isDigit = true := by
  cases n with
  | ofNat n => exact .inr (isDigit_of_mem_ofNat h)
  | negSucc n => exact (List.mem_cons.1 h).imp id isDigit_of_mem_ofNat

end Text

namespace Label

variable {name : Text}

theorem bracketed_injective {name' : Text} (h : bracketed name = bracketed name') :
    name = name' := by
  simpa [bracketed, opening, closing] using h

theorem lower_bracketed (name : Text) : Text.lower (bracketed name) = bracketed (Text.lower name) := by
  have hopening : Text.lower opening = opening := by decide
  have hclosing : Text.lower closing = closing := by decide
  rw [bracketed, Text.lower, List.map_append, List.map_append]
  exact congr_arg₂ _ (congr_arg₂ _ hopening rfl) hclosing

end Label

theorem Text.lowerChar_of_isDigit {c : Char} (h : c.isDigit = true) : Text.lowerChar c = c := by
  have hall : "0123456789".toList.all (fun c => Text.lowerChar c == c) = true := by decide
  refine beq_iff_eq.1 (List.all_eq_true.1 hall c ?_)
  have hc : 48 ≤ c.toNat ∧ c.toNat ≤ 57 := by
    simpa [Char.isDigit, UInt32.le_iff_toNat_le] using h
  have hdigits : ∀ n < 58, 48 ≤ n → Char.ofNat n ∈ "0123456789".toList := by decide
  rw [← Char.ofNat_toNat c]
  exact hdigits _ (by omega) hc.1

namespace NumberedLine

theorem label_injective {m n : Int} (h : label m = label n) : m = n :=
  Text.ofInt_injective (List.append_cancel_left (Label.bracketed_injective h))

theorem lower_jumpText (m n : Int) : Text.lower (jumpText m n) = jumpText m n := by
  have hdigits : (Text.ofInt n).map Text.lowerChar = Text.ofInt n := by
    conv_rhs => rw [← List.map_id (Text.ofInt n)]
    refine List.map_congr_left fun c hc => ?_
    rcases Text.ofInt_signs hc with rfl | hd
    · decide
    · exact Text.lowerChar_of_isDigit hd
  unfold jumpText
  split
  · decide
  · have hstart : Text.lower labelStart = labelStart := by decide
    rw [label, Label.lower_bracketed, Text.lower, List.map_append, hdigits]
    exact congrArg (fun t => Label.bracketed (t ++ _)) hstart

theorem jumpText_ne_nil (m n : Int) : jumpText m n ≠ [] := by
  unfold jumpText
  split <;> simp [label, Label.bracketed, Label.opening]

end NumberedLine

theorem Piece.pieceText_ne_nil (o : Dignify.Layout) {p : Piece} (h : p.text ≠ []) :
    Dignify.pieceText o p ≠ [] := by
  unfold Dignify.pieceText
  split
  · exact h
  · simpa [Text.lower] using h

namespace Dignify

open NumberedLine (label)

/-- Whether a line of dignified source is a label: a name between brackets. -/
def isLabelLine (t : Text) : Bool :=
  let name := (t.drop 1).dropLast
  t == Label.bracketed name && !name.contains '\x7b'

/-- Whether a line of dignified source is neither empty nor a label. -/
def isCodeLine (t : Text) : Bool := t != [] && !isLabelLine t

theorem isCodeLine_label (n : Int) : isCodeLine (label n) = false := by
  have hname : (((label n).drop 1).dropLast) = NumberedLine.labelStart ++ Text.ofInt n := by
    simp [label, Label.bracketed, Label.opening, Label.closing]
  have hsign : '\x7b' ∉ NumberedLine.labelStart ++ Text.ofInt n := by
    intro h
    rcases List.mem_append.1 h with h | h
    · revert h
      decide
    · rcases Text.ofInt_signs h with h | h
      · cases h
      · revert h
        decide
  have hlabel : isLabelLine (label n) = true := by
    unfold isLabelLine
    rw [hname]
    simpa [label] using hsign
  simp [isCodeLine, hlabel]

theorem isCodeLine_of_last {t : Text} {c : Char} (h : t.getLast? = some c) (hc : c ≠ '\x7d') :
    isCodeLine t = true := by
  have hne : t ≠ [] := by
    rintro rfl
    cases h
  have hlabel : isLabelLine t = false := by
    refine Bool.eq_false_iff.2 fun hl => hc ?_
    have heq := (Bool.and_eq_true_iff.1 hl).1
    rw [beq_iff_eq] at heq
    rw [heq] at h
    simpa [Label.bracketed, Label.closing] using h.symm
  simp [isCodeLine, hlabel, hne]

/-- A line that ends with a name between brackets is no label if there is something in front. -/
theorem isCodeLine_append {u name : Text} (h : u ≠ []) :
    isCodeLine (u ++ Label.bracketed name) = true := by
  obtain ⟨c, u, rfl⟩ := List.exists_cons_of_ne_nil h
  have hname : ((c :: u ++ Label.bracketed name).drop 1).dropLast = u ++ '\x7b' :: name := by
    have heq : (c :: u ++ Label.bracketed name).drop 1 = u ++ '\x7b' :: name ++ ['\x7d'] := by
      simp [Label.bracketed, Label.opening, Label.closing]
    rw [heq, List.dropLast_concat]
  have hlabel : isLabelLine (c :: u ++ Label.bracketed name) = false := by
    unfold isLabelLine
    rw [hname]
    simp
  rw [isCodeLine, hlabel]
  rfl

section LayOut

variable {o : Layout} {targets : List Int}

/-- What the lines of a program are written as, without the labels between them. -/
def blocks (o : Layout) (depth : Nat) : List NumberedLine → List (List Text)
  | [] => []
  | l :: rest =>
    (indented o depth (statements o l.code)).1 ::
      blocks o (indented o depth (statements o l.code)).2 rest

theorem layOut_cons (o : Layout) (targets : List Int) (first : Bool) (depth : Nat)
    (l : NumberedLine) (rest : List NumberedLine) :
    ∃ gap first', (gap = [] ∨ gap = [[]]) ∧ layOut o targets first depth (l :: rest) =
      (if l.number ∈ targets then gap ++ [label l.number] else []) ++
        ((indented o depth (statements o l.code)).1 ++
          layOut o targets first' (indented o depth (statements o l.code)).2 rest) := by
  have hgap : (if o.blankLine && !first then [[]] else ([] : List Text)) = [] ∨
      (if o.blankLine && !first then [[]] else ([] : List Text)) = [[]] := by
    split <;> simp
  rw [layOut, List.append_assoc]
  simp only [List.contains_iff_mem]
  exact ⟨_, _, hgap, rfl⟩

variable {first : Bool} {depth : Nat} {lines : List NumberedLine}

theorem filter_layOut (h : ∀ b ∈ blocks o depth lines, ∀ t ∈ b, isCodeLine t = true) :
    (layOut o targets first depth lines).filter isCodeLine = (blocks o depth lines).flatten := by
  induction lines generalizing first depth with
  | nil => rfl
  | cons l rest ih =>
    obtain ⟨gap, first', hgap, heq⟩ := layOut_cons o targets first depth l rest
    rw [blocks, List.forall_mem_cons] at h
    have hlead : (if l.number ∈ targets then gap ++ [label l.number] else []).filter isCodeLine =
        [] := by
      split
      · rw [List.filter_append, List.filter_singleton, isCodeLine_label]
        rcases hgap with rfl | rfl <;> rfl
      · rfl
    rw [heq, List.filter_append, List.filter_append, hlead, ih h.2, List.filter_eq_self.2 h.1]
    rfl

theorem count_layOut (h : ∀ b ∈ blocks o depth lines, ∀ t ∈ b, isCodeLine t = true) (n : Int) :
    (layOut o targets first depth lines).count (label n) =
      if n ∈ targets then (lines.map NumberedLine.number).count n else 0 := by
  induction lines generalizing first depth with
  | nil => simp [layOut]
  | cons l rest ih =>
    obtain ⟨gap, first', hgap, heq⟩ := layOut_cons o targets first depth l rest
    rw [blocks, List.forall_mem_cons] at h
    have hbody : (indented o depth (statements o l.code)).1.count (label n) = 0 := by
      refine List.count_eq_zero.2 fun hm => ?_
      exact absurd (h.1 _ hm) (by simp [isCodeLine_label])
    have hgap0 : gap.count (label n) = 0 := by
      rcases hgap with rfl | rfl <;> simp [label, Label.bracketed, Label.opening]
    have hlead : (if l.number ∈ targets then gap ++ [label l.number] else []).count (label n) =
        if n ∈ targets ∧ l.number = n then 1 else 0 := by
      by_cases hn : l.number = n
      · subst hn
        by_cases hm : l.number ∈ targets <;> simp [hm, hgap0]
      · have hne : label l.number ≠ label n := fun he => hn (NumberedLine.label_injective he)
        by_cases hm : l.number ∈ targets <;> simp [hm, hn, hgap0, hne]
    rw [heq, List.count_append, List.count_append, hlead, hbody, ih h.2, List.map_cons,
      List.count_cons]
    by_cases hm : n ∈ targets <;> simp [hm, Nat.add_comm]

theorem behind_append {x : Text} {front back before after : List Text}
    (h : front ++ back = before ++ x :: after) (hx : x ∉ front) :
    ∃ between, back = between ++ x :: after := by
  rcases List.append_eq_append_iff.1 h with ⟨between, -, hback⟩ | ⟨between, hfront, hback⟩
  · exact ⟨between, hback⟩
  · cases between with
    | nil => exact ⟨[], hback.symm⟩
    | cons y between =>
      obtain ⟨rfl, -⟩ := List.cons.inj hback
      simp [hfront] at hx

/-- Behind a label comes the code of its line and of the lines behind. -/
theorem behind_label (h : ∀ b ∈ blocks o depth lines, ∀ t ∈ b, isCodeLine t = true) {n : Int}
    {before after : List Text} (hout : layOut o targets first depth lines = before ++ label n :: after) :
    ∃ i, (lines[i]?).map NumberedLine.number = some n ∧
      after.filter isCodeLine = ((blocks o depth lines).drop i).flatten := by
  induction lines generalizing first depth before with
  | nil => simp [layOut] at hout
  | cons l rest ih =>
    obtain ⟨gap, first', hgap, heq⟩ := layOut_cons o targets first depth l rest
    have hcode := h
    rw [blocks, List.forall_mem_cons] at h
    have hbody : label n ∉ (indented o depth (statements o l.code)).1 := fun hm =>
      absurd (h.1 _ hm) (by simp [isCodeLine_label])
    have hgapless : label n ∉ gap := by
      rcases hgap with rfl | rfl <;> simp [label, Label.bracketed, Label.opening]
    -- a label behind the code of the line is one of the lines behind
    have hlater {between : List Text} (hl : (indented o depth (statements o l.code)).1 ++
        layOut o targets first' (indented o depth (statements o l.code)).2 rest =
          between ++ label n :: after) : ∃ i, ((l :: rest)[i]?).map NumberedLine.number = some n ∧
            after.filter isCodeLine = ((blocks o depth (l :: rest)).drop i).flatten := by
      obtain ⟨between', hmore⟩ := behind_append hl hbody
      obtain ⟨i, hi, hfilter⟩ := ih h.2 hmore
      exact ⟨i + 1, hi, hfilter⟩
    rw [heq] at hout
    split at hout
    · rw [List.append_assoc] at hout
      obtain ⟨between, hlabel⟩ := behind_append hout hgapless
      cases between with
      | nil =>
        rw [List.singleton_append, List.nil_append, List.cons.injEq] at hlabel
        obtain ⟨hn, rfl⟩ := hlabel
        refine ⟨0, by simpa using NumberedLine.label_injective hn, ?_⟩
        rw [List.filter_append, List.filter_eq_self.2 h.1, filter_layOut h.2]
        rfl
      | cons _ between => exact hlater (List.cons.inj hlabel).2
    · exact hlater hout

/-- What a line is written as: a line for each statement, indented. -/
def Written (o : Layout) (code : List Piece) (block : List Text) : Prop :=
  List.Forall₂ (fun statement t => ∃ k, t = (List.replicate k o.indent).flatten ++ render o statement)
    (statements o code) block

theorem indented_written (depth : Nat) (code : List (List Piece)) :
    List.Forall₂ (fun statement t =>
      ∃ k, t = (List.replicate k o.indent).flatten ++ render o statement)
      code (indented o depth code).1 := by
  induction code generalizing depth with
  | nil => exact .nil
  | cons statement rest ih =>
    rw [indented]
    exact .cons ⟨_, rfl⟩ (ih _)

end LayOut

/-- Code of a line without brackets: they stand only around the names that jumps lead to, and no
statement starts with a jump. -/
structure Signed (code : List Piece) : Prop where
  texts : ∀ p ∈ code, p.text ≠ []
  signs : ∀ p ∈ code, if p.kind = .labelJump then ∃ name, p.text = Label.bracketed name
    else '\x7d' ∉ p.text
  head : ∀ p ∈ code.head?, p.kind ≠ .labelJump
  chain : code.IsChain fun p q => p.kind = .separator → q.kind ≠ .labelJump

variable {o : Layout} {code statement : List Piece} {p : Piece}

theorem Signed.front {back : List Piece} (h : Signed (code ++ back)) : Signed code where
  texts q hq := h.texts q (List.mem_append_left _ hq)
  signs q hq := h.signs q (List.mem_append_left _ hq)
  head q hq := h.head q (by
    cases code with
    | nil => cases hq
    | cons r code => exact hq)
  chain := h.chain.left_of_append

theorem Signed.back {front : List Piece} (h : Signed (front ++ p :: code))
    (hp : p.kind = .separator) : Signed code where
  texts q hq := h.texts q (List.mem_append_right _ (List.mem_cons_of_mem _ hq))
  signs q hq := h.signs q (List.mem_append_right _ (List.mem_cons_of_mem _ hq))
  head q hq := (List.isChain_cons.1 h.chain.right_of_append).1 q hq hp
  chain := h.chain.right_of_append.tail

theorem Signed.splitFrom (read : List Piece) (h : Signed (read ++ code)) :
    ∀ statement ∈ splitFrom read code, Signed statement := by
  induction code generalizing read with
  | nil =>
    rw [Dignify.splitFrom, List.forall_mem_singleton]
    simpa using h
  | cons p rest ih =>
    rw [Dignify.splitFrom]
    split
    · exact List.forall_mem_singleton.2 h
    · split
      · rename_i hp
        exact List.forall_mem_cons.2 ⟨h.front, ih [] (h.back hp)⟩
      · exact ih _ (by simpa using h)

theorem Signed.statements (h : Signed code) :
    ∀ statement ∈ statements o code, statement ≠ [] ∧ Signed statement := by
  intro statement hs
  obtain ⟨hs, hne⟩ := List.mem_filter.1 hs
  refine ⟨by simpa using hne, ?_⟩
  split at hs
  · exact h.splitFrom [] statement hs
  · rwa [List.mem_singleton.1 hs]

theorem renderFrom_concat (last p : Piece) (written : Text) (code : List Piece) :
    ∃ between, renderFrom o last written (code ++ [p]) = written ++ between ++ pieceText o p := by
  induction code generalizing last written with
  | nil => exact ⟨_, rfl⟩
  | cons q code ih =>
    obtain ⟨between, heq⟩ := ih q (written ++
      (if spaced last q written (pieceText o q) then " " else "") ++ pieceText o q)
    rw [List.cons_append, renderFrom, heq, List.append_assoc written, List.append_assoc written]
    exact ⟨_, rfl⟩

/-- Statements with brackets only around the names of jumps are no labels, wherever they stand. -/
theorem Signed.isCodeLine (h : Signed statement) (hne : statement ≠ []) (k : Nat) :
    isCodeLine ((List.replicate k o.indent).flatten ++ render o statement) = true := by
  generalize (List.replicate k o.indent).flatten = lead
  obtain ⟨front, p, rfl⟩ : ∃ front p, statement = front ++ [p] :=
    ⟨_, _, (List.dropLast_concat_getLast hne).symm⟩
  have htexts := h.texts
  have hsign := h.signs p (by simp)
  obtain ⟨u, hrender, hu⟩ : ∃ u, render o (front ++ [p]) = u ++ pieceText o p ∧
      (front ≠ [] → u ≠ []) := by
    cases front with
    | nil => exact ⟨[], rfl, fun h => absurd rfl h⟩
    | cons q front =>
      obtain ⟨between, heq⟩ := renderFrom_concat (o := o) q p (pieceText o q) front
      refine ⟨_, heq, fun _ => List.append_ne_nil_of_left_ne_nil ?_ _⟩
      exact Piece.pieceText_ne_nil o (htexts q (by simp))
  rw [hrender, ← List.append_assoc]
  split at hsign
  · rename_i hk
    have hfront : front ≠ [] := by
      rintro rfl
      exact h.head p rfl hk
    obtain ⟨name, ht⟩ := hsign
    obtain ⟨name', ht'⟩ : ∃ name', pieceText o p = Label.bracketed name' := by
      unfold pieceText
      split
      · exact ⟨name, ht⟩
      · exact ⟨_, ht ▸ Label.lower_bracketed name⟩
    rw [ht']
    exact isCodeLine_append (List.append_ne_nil_of_right_ne_nil _ (hu hfront))
  · have hsign' : '\x7d' ∉ pieceText o p := by
      unfold pieceText
      split
      · exact hsign
      · intro hm
        obtain ⟨c, hc, heq⟩ := List.mem_map.1 hm
        have := Text.lowerChar_eq heq (by decide) (by decide) (by decide)
        exact hsign (this ▸ hc)
    obtain ⟨c, hc⟩ := Option.ne_none_iff_exists'.1 (mt List.getLast?_eq_none_iff.1
      (Piece.pieceText_ne_nil o (htexts p (by simp))))
    refine isCodeLine_of_last (c := c) ?_ fun heq => hsign' (heq ▸ List.mem_of_getLast? hc)
    rw [List.getLast?_append, hc]
    rfl

/-- Brackets in a marked line without brackets are those of its jumps. -/
theorem signed_numbered {d : Dialect} {l : Line} (h : '\x7d' ∉ l.text) (n : Int) :
    Signed (l.numbered d n).code where
  texts p hp := by
    obtain ⟨i, hi⟩ := List.mem_iff_getElem?.1 hp
    rw [Line.numbered, NumberedLine.getElem?_markJumps_line] at hi
    obtain ⟨q, hq, rfl⟩ := Option.map_eq_some_iff.1 hi
    cases Piece.reference (l.pieces d) i with
    | some target => exact NumberedLine.jumpText_ne_nil n target
    | none => exact (l.pieces_raw d q (List.mem_of_getElem? hq)).1.ne_nil
  signs p hp := by
    obtain ⟨i, hi⟩ := List.mem_iff_getElem?.1 hp
    rw [Line.numbered, NumberedLine.getElem?_markJumps_line] at hi
    obtain ⟨q, hq, rfl⟩ := Option.map_eq_some_iff.1 hi
    cases Piece.reference (l.pieces d) i with
    | some target =>
      have hname : ∃ name, NumberedLine.jumpText n target = Label.bracketed name := by
        unfold NumberedLine.jumpText
        split <;> exact ⟨_, rfl⟩
      simpa [Piece.marked] using hname
    | none =>
      have hfound : Piece.Found l.text q.face := (l.pieces_raw d q (List.mem_of_getElem? hq)).1
      have hkind : q.kind ≠ .labelJump := hfound.kind
      rw [Piece.marked, if_neg hkind]
      exact fun hm => h (hfound.text hm)
  head := NumberedLine.head_unmarked (l.pieces_raw d) [] rfl
  chain := NumberedLine.isChain_markJumps (l.pieces_raw d) []

open Piece (reference)
open NumberedLine (written readAll)
open Line (OutOfOrder)

/-- Whether the line numbered `n` is among the lines and another one refers to it. -/
def Referred (d : Dialect) (lines : List Line) (n : Int) : Prop :=
  (∃ l ∈ lines, l.number? = some n) ∧
    ∃ l ∈ lines, l.number? ≠ some n ∧ ∃ i, reference (l.pieces d) i = some n

/-- How the lines of a classic listing are labelled in dignified source. -/
structure Labelled (d : Dialect) (o : Layout) (lines : List Line) (out : List Text) : Prop where
  /-- No label stands twice. -/
  once : ∀ n, out.count (label n) ≤ 1
  /-- Labels stand for the lines that others refer to. -/
  labels : ∀ n, label n ∈ out ↔ Referred d lines n
  /-- Behind a label, the first line that is neither a label nor empty is the first one that its line
  is written as, or the next one if there is none. -/
  placed : ∃ blocks, List.Forall₂ (fun l block => ∃ n, l.number? = some n ∧
      Written o (l.numbered d n).code block) lines blocks ∧
    out.filter Dignify.isCodeLine = blocks.flatten ∧
    ∀ n before after, out = before ++ label n :: after →
      ∃ i, (lines[i]?).bind Line.number? = some n ∧
        after.filter Dignify.isCodeLine = (blocks.drop i).flatten
  /-- References to other lines are written as their labels, those to the own line as a sign. -/
  references : ∀ l ∈ lines, ∀ n ∈ l.number?, ∀ i target, reference (l.pieces d) i = some target →
    ((l.numbered d n).code[i]?).map (pieceText o) =
      some (if target = n then Label.bracketed "@" else label target)

variable {d : Dialect} {ls : List Line} {lines : List NumberedLine} {n : Int}

/-- Lines and what they are read as. -/
abbrev Reads (d : Dialect) (l : Line) (line : NumberedLine) : Prop :=
  ∃ n, l.number? = some n ∧ line = l.numbered d n

theorem number_of_reads (h : List.Forall₂ (Reads d) ls lines) :
    ls.map Line.number? = lines.map fun line => some line.number := by
  induction h with
  | nil => rfl
  | cons hl _ ih =>
    obtain ⟨n, hn, rfl⟩ := hl
    rw [List.map_cons, List.map_cons, ih, hn]
    rfl

theorem numbers_of_reads (h : List.Forall₂ (Reads d) ls lines) :
    n ∈ lines.map NumberedLine.number ↔ ∃ l ∈ ls, l.number? = some n := by
  rw [← List.mem_map (f := Line.number?), number_of_reads h]
  simp

theorem mem_targets_iff (h : List.Forall₂ (Reads d) ls lines) :
    n ∈ NumberedLine.targets lines ↔
      ∃ l ∈ ls, l.number? ≠ some n ∧ ∃ i, reference (l.pieces d) i = some n := by
  induction h with
  | nil => simp [NumberedLine.targets]
  | @cons l line ls lines hl _ ih =>
    obtain ⟨m, hm, rfl⟩ := hl
    have hjumps : n ∈ (l.numbered d m).jumps.filter (· != m) ↔
        l.number? ≠ some n ∧ ∃ i, reference (l.pieces d) i = some n := by
      rw [List.mem_filter, Line.numbered, NumberedLine.mem_jumps_iff (l.pieces_raw d), hm, and_comm]
      simp [ne_comm]
    rw [NumberedLine.targets, List.flatMap_cons, List.mem_append, ← NumberedLine.targets, ih]
    simp only [List.mem_cons, exists_eq_or_imp]
    exact or_congr_left hjumps

theorem blocks_written (h : List.Forall₂ (Reads d) ls lines) (depth : Nat) :
    List.Forall₂ (fun l block => ∃ n, l.number? = some n ∧ Written o (l.numbered d n).code block)
      ls (blocks o depth lines) := by
  induction h generalizing depth with
  | nil => exact .nil
  | cons hl _ ih =>
    obtain ⟨n, hn, rfl⟩ := hl
    exact .cons ⟨n, hn, indented_written depth _⟩ (ih _)

theorem isCodeLine_blocks (h : List.Forall₂ (Reads d) ls lines) (hls : ∀ l ∈ ls, '\x7d' ∉ l.text)
    (depth : Nat) : ∀ b ∈ blocks o depth lines, ∀ t ∈ b, Dignify.isCodeLine t = true := by
  intro b hb t ht
  obtain ⟨l, hl, n, -, hwritten⟩ := Outcome.exists_of_forall₂ (blocks_written h depth) hb
  obtain ⟨statement, hs, k, rfl⟩ := Outcome.exists_of_forall₂ hwritten ht
  obtain ⟨hne, hsigned⟩ := (signed_numbered (hls l hl) n).statements statement hs
  exact hsigned.isCodeLine hne k

theorem labelled (h : List.Forall₂ (Reads d) ls lines)
    (hnodup : (lines.map NumberedLine.number).Nodup) (hls : ∀ l ∈ ls, '\x7d' ∉ l.text) :
    Labelled d o ls (layOut o (NumberedLine.targets lines) true 0 lines) := by
  have hcode := isCodeLine_blocks (o := o) h hls 0
  refine ⟨fun n => ?_, fun n => ?_, ?_, ?_⟩
  · rw [count_layOut hcode]
    split
    · exact List.nodup_iff_count_le_one.1 hnodup n
    · exact Nat.zero_le 1
  · rw [← List.count_pos_iff, count_layOut hcode, Referred, ← mem_targets_iff h,
      ← numbers_of_reads h, and_comm]
    split <;> simp [*]
  · refine ⟨blocks o 0 lines, blocks_written h 0, filter_layOut hcode, fun n before after hout => ?_⟩
    obtain ⟨i, hi, hafter⟩ := behind_label hcode hout
    refine ⟨i, ?_, hafter⟩
    have hnumbers := congrArg (·[i]?) (number_of_reads h)
    simp only [List.getElem?_map] at hnumbers
    cases hl : ls[i]? <;> cases hline : lines[i]? <;> simp_all
  · intro l _ n _ i target href
    obtain ⟨p, hp, -, ht, -⟩ := NumberedLine.marked_of_reference n href
    have htext : pieceText o p = NumberedLine.jumpText n target := by
      unfold pieceText
      rw [ht, NumberedLine.lower_jumpText, ite_self]
    rw [Line.numbered, hp, Option.map_some, htext]
    rfl

theorem ofListing_framed (d : Dialect) (o : Layout) (first last : Line) (ls : List Line) :
    (ofListing d o (first :: (ls ++ [last]))).outcome =
      (readAll d (-1) ls).outcome.map fun lines =>
        layOut o (NumberedLine.targets lines) true 0 lines := by
  obtain ⟨second, more, hlines⟩ := List.exists_cons_of_ne_nil (List.concat_ne_nil last ls)
  have hdrop : (second :: more).dropLast = ls := by rw [← hlines, List.dropLast_concat]
  rw [hlines, ofListing, hdrop]
  split <;> simp [*, Except.map]

/-- Dignified source of a listing without brackets has a label for each line that others refer to,
and a listing is refused exactly for its first line that is out of order. -/
theorem ofListing_labelled (d : Dialect) (o : Layout) (first last : Line) (ls : List Line) :
    (∀ out, (ofListing d o (first :: (ls ++ [last]))).outcome = .ok out →
      (∀ l ∈ ls, '\x7b' ∉ l.text ∧ '\x7d' ∉ l.text) → Labelled d o (written ls) out) ∧
    ((∃ f, (ofListing d o (first :: (ls ++ [last]))).outcome = .error f) ↔
      ∃ before l after, written ls = before ++ l :: after ∧ OutOfOrder before l) ∧
    ∀ f, (ofListing d o (first :: (ls ++ [last]))).outcome = .error f →
      ∃ before l after cause, written ls = before ++ l :: after ∧ OutOfOrder before l ∧
        (∀ b l' a, before = b ++ l' :: a → ¬OutOfOrder b l') ∧ f = .located cause l.start := by
  have hframed := ofListing_framed d o first last ls
  rw [show (-1 : Int) = Line.lastNumber [] from rfl] at hframed
  cases hread : (readAll d (Line.lastNumber []) ls).outcome with
  | error e =>
    rw [hread] at hframed
    obtain ⟨before, l, after, cause, hls, hout, hin, rfl⟩ := NumberedLine.readAll_error hread
    rw [hframed]
    refine ⟨fun out h => (nomatch h), ⟨fun _ => ⟨before, l, after, hls, hout⟩, fun _ => ⟨_, rfl⟩⟩,
      fun f h => ?_⟩
    cases h
    exact ⟨before, l, after, cause, hls, hout, hin, rfl⟩
  | ok lines =>
    rw [hread] at hframed
    obtain ⟨hreads, hchain, hin⟩ := NumberedLine.readAll_ok hread
    rw [hframed]
    refine ⟨fun out h hls => ?_, ⟨fun h => ?_, fun h => ?_⟩, fun f h => (nomatch h)⟩
    · cases h
      have hnodup : (lines.map NumberedLine.number).Nodup :=
        (List.isChain_iff_pairwise.1 hchain).tail.imp fun h => ne_of_lt h
      exact labelled hreads hnodup fun l hl => (hls l (List.mem_of_mem_filter hl)).2
    · obtain ⟨f, h⟩ := h
      cases h
    · obtain ⟨before, l, after, hls, hout⟩ := h
      exact absurd hout (hin before l after hls)

theorem ofListing_labelled_loop :
    Labelled .msx {} [⟨1, "10 A", ""⟩, ⟨2, "20 GOTO 10", ""⟩]
      (Text.ofStrings ["\x7bl_10\x7d", "\ta", "\tgoto \x7bl_10\x7d"]) :=
  (ofListing_labelled .msx {} ⟨0, "", ""⟩ ⟨3, "", ""⟩ [⟨1, "10 A", ""⟩, ⟨2, "20 GOTO 10", ""⟩]).1 _
    (by decide +kernel) (by decide)

end Dignify

end ClassicBasic
