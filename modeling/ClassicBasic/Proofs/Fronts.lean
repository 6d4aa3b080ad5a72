import ClassicBasic.Proofs.LexedAlike
import ClassicBasic.Proofs.Snippets

/-!
# The front of a listing

How the lines in front of a place in a listing are read does not depend on the lines behind it, as long
as the place is not inside a block and not behind an item of DATA that goes on in the next line. Both
are seen when the lines in front are lexed on their own.
-/

set_option autoImplicit false

namespace ClassicBasic

open Glyph (Laid)

namespace Glyph

variable {input rest : List Glyph} {g : Glyph}

theorem Laid.char_ne (h : Laid (g :: rest)) : g.char ≠ endMark ↔ g.ends = false := by
  rw [Ne, (h.apt g List.mem_cons_self).marks, Bool.not_eq_true]

theorem place_append (h : input ≠ []) (X : List Glyph) : place (input ++ X) = place input := by
  obtain ⟨g, rest, rfl⟩ := List.exists_cons_of_ne_nil h
  rfl

theorem Laid.restOfLine_append (h : Laid input) (hne : input ≠ []) (X : List Glyph) :
    Glyph.restOfLine (input ++ X) = ((Glyph.restOfLine input).1, (Glyph.restOfLine input).2 ++ X) := by
  obtain ⟨span, e, rest, hspan, he, rfl, hread⟩ := h.restOfLine hne
  have hall : ∀ g ∈ span, (!g.ends) = true := fun g hg => by simp [hspan g hg]
  rw [hread]
  simp [Glyph.restOfLine, List.takeWhile_append_of_pos hall, List.dropWhile_append_of_pos hall, he]

theorem Laid.restOfLine_ne_nil (h : Laid input) (hne : input ≠ []) : (Glyph.restOfLine input).2 ≠ [] := by
  obtain ⟨span, e, rest, -, -, -, hread⟩ := h.restOfLine hne
  simp [hread]

theorem Laid.nextLine_append (h : Laid input) (hne : input ≠ []) (c : Nat) :
    (∃ R, R ≠ [] ∧ R <:+ input ∧ R.length < input.length ∧
      ∀ X : List Glyph, c ≤ X.length → nextLine? c (input ++ X) = some (R ++ X)) ∨
      ∃ front e, input = front ++ [e] ∧ Inside front ∧ e.ends = true ∧
        ∀ X : List Glyph, X.length = c → nextLine? c (input ++ X) = none := by
  obtain ⟨span, e, rest, hspan, he, rfl, -⟩ := h.restOfLine hne
  have hall : ∀ g ∈ span, (!g.ends) = true := fun g hg => by simp [hspan g hg]
  have hnext (X : List Glyph) :
      nextLine? c (span ++ e :: rest ++ X) = if c < (rest ++ X).length then some (rest ++ X) else none := by
    simp [nextLine?, List.dropWhile_append_of_pos hall, he]
  cases rest with
  | nil =>
    refine .inr ⟨span, e, rfl, hspan, he, fun X hX => ?_⟩
    rw [hnext, if_neg (by simp [hX])]
  | cons u more =>
    refine .inl ⟨u :: more, by simp, ⟨span ++ [e], by simp⟩, by simp; omega, fun X hX => ?_⟩
    rw [hnext, if_pos (by simp only [List.length_append, List.length_cons]; omega)]

end Glyph

namespace Lexer

variable {d : Dialect} {closing : Nat} {last : Kind} {g : Glyph} {A rest : List Glyph} {t : Token}

/-- Whether a reader takes what it reads from `A`, and not all of it, whatever of `closing` characters
or more follows. -/
def Within (closing : Nat) (A : List Glyph)
    (read : List Glyph → Except Failure (List Token × List Glyph)) : Prop :=
  ∃ ts R, R ≠ [] ∧ R <:+ A ∧
    ∀ X : List Glyph, closing ≤ X.length → read (A ++ X) = .ok (ts, R ++ X)

/-- Whether a reader finds that a block is not closed when nothing but the last line follows. -/
def LeftOpen (closing : Nat) (A : List Glyph)
    (read : List Glyph → Except Failure (List Token × List Glyph)) : Prop :=
  ∃ line pos, ∀ X : List Glyph, X.length = closing →
    read (A ++ X) = .error (.located (.blockNotClosed line) pos)

/-- Whether a reader ends in an item of DATA with an underscore at the end of `A` when nothing but the
last line follows. -/
def LeftWaiting (closing : Nat) (A : List Glyph)
    (read : List Glyph → Except Failure (List Token × List Glyph)) : Prop :=
  ∃ front u e ts t, A = front ++ [u, e] ∧ u.char = '_' ∧ e.char = Glyph.endMark ∧ t.kind = .dataField ∧
    ∀ X : List Glyph, X.length = closing → read (A ++ X) = .ok (ts ++ [t], e :: X)

variable {read read' : List Glyph → Except Failure (List Token × List Glyph)} {A' : List Glyph}

/-- Whether a reader goes on as another one does with a later part of what is in front. -/
structure PassesOn (closing : Nat) (A' : List Glyph)
    (read' : List Glyph → Except Failure (List Token × List Glyph)) (A : List Glyph)
    (read : List Glyph → Except Failure (List Token × List Glyph)) (f : List Token → List Token) : Prop where
  suffix : A <:+ A'
  reads : ∀ X : List Glyph, closing ≤ X.length →
    read' (A' ++ X) = (read (A ++ X)).map fun r => (f r.1, r.2)

namespace PassesOn

variable {f : List Token → List Token}

theorem within (h : PassesOn closing A' read' A read f) (hw : Within closing A read) :
    Within closing A' read' := by
  obtain ⟨ts, R, hR, hRA, hok⟩ := hw
  refine ⟨f ts, R, hR, hRA.trans h.suffix, fun X hX => ?_⟩
  rw [h.reads X hX, hok X hX]
  rfl

theorem leftOpen (h : PassesOn closing A' read' A read f) (ho : LeftOpen closing A read) :
    LeftOpen closing A' read' := by
  obtain ⟨line, pos, herr⟩ := ho
  refine ⟨line, pos, fun X hX => ?_⟩
  rw [h.reads X hX.ge, herr X hX]
  rfl

theorem leftWaiting {us : List Token} (h : PassesOn closing A' read' A read (us ++ ·))
    (hw : LeftWaiting closing A read) : LeftWaiting closing A' read' := by
  obtain ⟨front, u, e, ts, t, rfl, hu, he, ht, hok⟩ := hw
  obtain ⟨gone, rfl⟩ := h.suffix
  refine ⟨gone ++ front, u, e, us ++ ts, t, by simp, hu, he, ht, fun X hX => ?_⟩
  rw [h.reads X hX.ge, hok X hX]
  simp [Except.map]

end PassesOn

/-- A block is closed within the lines in front or open at their end. -/
theorem blockLines_local (hA : Laid A) (hne : A ≠ []) (opener : Token) :
    Within closing A (blockLines closing opener) ∨ LeftOpen closing A (blockLines closing opener) := by
  obtain ⟨n, hn⟩ : ∃ n, A.length = n := ⟨_, rfl⟩
  induction n using Nat.strong_induction_on generalizing A with
  | _ n ih =>
    have hread := hA.restOfLine_append hne
    have hover := hA.restOfLine_ne_nil hne
    have hsuffix := Glyph.restOfLine_suffix A
    cases hbody : Text.dropTail opener.value (Glyph.restOfLine A).1 with
    | some body =>
      let closer : Token := ⟨.blockEnd, opener.value, (Glyph.place (Glyph.restOfLine A).2).withCol
        ((Glyph.place (Glyph.restOfLine A).2).col - opener.value.length)⟩
      refine .inl ⟨if body.all Text.isBlank then [closer] else [⟨.blockText, body, Glyph.place A⟩, closer],
        _, hover, hsuffix, fun X _ => ?_⟩
      rw [blockLines, hread]
      simp only [hbody, Glyph.place_append hover, Glyph.place_append hne]
      rfl
    | none =>
      rcases (hA.suffix hsuffix).nextLine_append hover closing with
        ⟨R, hR, hRA, hlen, hnext⟩ | ⟨-, -, -, -, -, hnext⟩
      · have hless := Glyph.length_restOfLine A
        have hpass : PassesOn closing A (blockLines closing opener) R (blockLines closing opener)
            (⟨.blockText, (Glyph.restOfLine A).1, Glyph.place A⟩ :: ·) := by
          refine ⟨hRA.trans hsuffix, fun X hX => ?_⟩
          rw [blockLines, hread]
          simp only [hbody, Glyph.place_append hne]
          split
          · rename_i hx
            rw [hnext X hX] at hx
            cases hx
          · rename_i hx
            rw [hnext X hX] at hx
            cases hx
            rfl
        exact (ih _ (by omega) (hA.suffix (hRA.trans hsuffix)) hR rfl).imp hpass.within hpass.leftOpen
      · refine .inr ⟨opener.pos.line, opener.pos, fun X hX => ?_⟩
        rw [blockLines, hread]
        simp only [hbody]
        split
        · rfl
        · rename_i hx
          rw [hnext X hX] at hx
          cases hx

theorem block_local (hA : Laid A) (hne : A ≠ []) (opener : Token) :
    Within closing A (block closing opener) ∨ LeftOpen closing A (block closing opener) := by
  have hread := hA.restOfLine_append hne
  have hpass {R : List Glyph} (hRA : R <:+ A)
      (hstart : ∀ X : List Glyph, closing ≤ X.length → blockStart? closing (A ++ X) = some (R ++ X)) :
      PassesOn closing A (block closing opener) R (blockLines closing opener)
        (fun ts => if opener.kind = .blockRemark then opener :: ts else []) :=
    ⟨hRA, fun X hX => by simp only [block, hstart X hX]⟩
  by_cases hnil : (Glyph.restOfLine A).1 = []
  · have hstart (X : List Glyph) : blockStart? closing (A ++ X) = Glyph.nextLine? closing (A ++ X) := by
      simp only [blockStart?, hread, hnil, if_true]
    rcases hA.nextLine_append hne closing with ⟨R, hR, hRA, -, hnext⟩ | ⟨-, -, -, -, -, hnext⟩
    · have hblock := hpass hRA fun X hX => (hstart X).trans (hnext X hX)
      exact (blockLines_local (hA.suffix hRA) hR opener).imp hblock.within hblock.leftOpen
    · refine .inr ⟨opener.pos.line, opener.pos, fun X hX => ?_⟩
      simp only [block, hstart, hnext X hX]
      rfl
  · have hblock := hpass (List.suffix_refl A) fun X _ => by simp only [blockStart?, hread, if_neg hnil]
    exact (blockLines_local hA hne opener).imp hblock.within hblock.leftOpen

theorem quotedTail_append (hA : Laid A) (hne : A ≠ []) (X : List Glyph) :
    quotedTail (A ++ X) = ((quotedTail A).1, (quotedTail A).2 ++ X) ∧ (quotedTail A).2 ≠ [] := by
  induction A with
  | nil => exact absurd rfl hne
  | cons g rest ih =>
    simp only [List.cons_append, quotedTail]
    split
    · exact ⟨rfl, by simp⟩
    · rename_i hg
      have hrest := hA.tail_ne_nil (hA.char_ne.1 hg)
      split
      · exact ⟨rfl, hrest⟩
      · obtain ⟨heq, hleft⟩ := ih hA.tail hrest
        exact ⟨by rw [heq], hleft⟩

theorem dataPart_append (hA : Laid (g :: rest)) (hg : g.char ≠ Glyph.endMark) (part : Text)
    (X : List Glyph) :
    dataPart part g (rest ++ X) = ((dataPart part g rest).1, (dataPart part g rest).2 ++ X) ∧
      (dataPart part g rest).2 ≠ [] := by
  have hrest := hA.tail_ne_nil (hA.char_ne.1 hg)
  obtain ⟨hquoted, hleft⟩ := quotedTail_append hA.tail hrest X
  unfold dataPart
  split
  · exact ⟨by rw [hquoted], hleft⟩
  · exact ⟨rfl, hrest⟩

theorem dataPart_last (hA : Laid (g :: rest)) (part : Text) :
    ∃ front u, g :: rest = front ++ u :: (dataPart part g rest).2 ∧
      (dataPart part g rest).1.getLast? = some u.char := by
  unfold dataPart
  split
  · rename_i hq
    obtain ⟨span, hspan, -, hvalue⟩ := quotedTail_span hA.tail
    refine ⟨(g :: span).dropLast, (g :: span).getLast (by simp), ?_, ?_⟩
    · conv => lhs; rw [hspan, ← List.cons_append, ← List.dropLast_append_getLast (List.cons_ne_nil g span)]
      simp
    · rw [hvalue, ← hq.2, ← List.map_cons, List.getLast?_map, List.getLast?_eq_some_getLast (by simp)]
      rfl
  · exact ⟨[], g, rfl, by simp⟩

def ItemStep.remains : ItemStep → List Glyph
  | .last _ left => left
  | .next _ _ _ _ left => left

/-- A step over items with `X` behind what it leaves. -/
def ItemStep.before (X : List Glyph) : ItemStep → ItemStep
  | .last ts left => .last ts (left ++ X)
  | .next ts s joined part left => .next ts s joined part (left ++ X)

/-- Whether a step over items leaves some of `A`, and is the same whatever of `closing` characters or
more follows. -/
def StepsWithin (closing : Nat) (A : List Glyph) (step : List Glyph → ItemStep) : Prop :=
  ∃ st : ItemStep, st.remains ≠ [] ∧ st.remains <:+ A ∧
    ∀ X : List Glyph, closing ≤ X.length → step (A ++ X) = st.before X

section Items

variable {s : Position} {joined item part : Text} {left : List Glyph}

/-- Whether an item ends in an underscore at the end of the listing. -/
def ItemWaits (closing : Nat) (s : Position) (joined item : Text) (left : List Glyph) : Prop :=
  ∃ e, left = [e] ∧ e.ends = true ∧ item.getLast? = some '_' ∧
    ∀ X : List Glyph, X.length = closing →
      itemPart closing s joined item (left ++ X) = .last [⟨.dataField, joined ++ item, s⟩] (e :: X)

theorem endsData_append (hne : left ≠ []) (X : List Glyph) : endsData (left ++ X) = endsData left := by
  obtain ⟨g, rest, rfl⟩ := List.exists_cons_of_ne_nil hne
  rfl

theorem endsLine_append (hne : left ≠ []) (X : List Glyph) : endsLine (left ++ X) = endsLine left := by
  obtain ⟨g, rest, rfl⟩ := List.exists_cons_of_ne_nil hne
  rfl

/-- An item that ends in an underscore at the end of a line goes on in the next line, if there is one. -/
theorem itemPart_waiting (hl : Laid left) (hne : left ≠ [])
    (hover : ¬(!(item.getLast? == some ',') && !endsData left) = true)
    (hgo : (endsLine left && item.getLast? == some '_') = true) :
    StepsWithin closing left (itemPart closing s joined item) ∨ ItemWaits closing s joined item left := by
  have hcont (X : List Glyph) : continued? closing item (left ++ X) =
      Glyph.nextLine? closing (left ++ X) := by rw [continued?, endsLine_append hne, if_pos hgo]
  rcases hl.nextLine_append hne closing with
    ⟨R, hR, hRA, -, hnext⟩ | ⟨inside, e, rfl, hinside, hmark, hnext⟩
  · refine .inl ⟨.next [] s (joined ++ item.dropLast) [] R, hR, hRA, fun X hX => ?_⟩
    rw [itemPart, endsData_append hne, if_neg hover, hcont, hnext X hX]
    rfl
  · rw [Bool.and_eq_true, beq_iff_eq] at hgo
    obtain rfl : inside = [] := by
      cases inside with
      | nil => rfl
      | cons w more =>
        have hw : w.char = Glyph.endMark := by simpa [endsLine] using hgo.1
        exact absurd hw (hl.char_ne.2 (hinside w List.mem_cons_self))
    refine .inr ⟨e, rfl, hmark, hgo.2, fun X hX => ?_⟩
    rw [itemPart, endsData_append hne, if_neg hover, hcont, hnext X hX, hgo.2]
    rfl

theorem itemPart_within (hl : Laid left) (hne : left ≠ []) :
    StepsWithin closing left (itemPart closing s joined item) ∨ ItemWaits closing s joined item left := by
  by_cases hover : (!(item.getLast? == some ',') && !endsData left) = true
  · refine .inl ⟨.next [] s joined item left, hne, List.suffix_refl _, fun X _ => ?_⟩
    rw [itemPart, endsData_append hne, if_pos hover]
    rfl
  by_cases hgo : (endsLine left && item.getLast? == some '_') = true
  · exact itemPart_waiting hl hne hover hgo
  have hcont (X : List Glyph) : continued? closing item (left ++ X) = none := by
    rw [continued?, endsLine_append hne, if_neg hgo]
  let tokens : List Token := [⟨.dataField, joined ++ item.dropLast, s⟩,
    ⟨.symbol, ",", (Glyph.place left).withCol ((Glyph.place left).col - 1)⟩]
  refine .inl ⟨if item.getLast? == some ',' then
      if endsData left then .last tokens left else .next tokens (Glyph.place left) [] [] left
    else .last [⟨.dataField, joined ++ item, s⟩] left, ?_, ?_, fun X _ => ?_⟩
  · split
    · split <;> exact hne
    · exact hne
  · split
    · split <;> exact List.suffix_refl _
    · exact List.suffix_refl _
  · rw [itemPart, endsData_append hne, if_neg hover, hcont, Glyph.place_append hne]
    dsimp only
    split
    · split <;> rfl
    · rfl

def itemReader (closing : Nat) (s : Position) (joined part : Text) (input : List Glyph) :
    Except Failure (List Token × List Glyph) := .ok (dataItems closing s joined part input)

theorem itemStep_within (hA : Laid A) (hne : A ≠ []) (s : Position) (joined part : Text) :
    StepsWithin closing A (itemStep closing s joined part) ∨
      LeftWaiting closing A (itemReader closing s joined part) := by
  obtain ⟨g, rest, rfl⟩ := List.exists_cons_of_ne_nil hne
  by_cases he : g.char = Glyph.endMark
  · refine .inl ⟨.last (if joined = [] then [] else [⟨.dataField, joined, s⟩])
      (g :: rest), by simp [ItemStep.remains],
      List.suffix_refl _, fun X _ => ?_⟩
    rw [List.cons_append, itemStep, if_pos he]
    rfl
  have hrest := hA.tail_ne_nil (hA.char_ne.1 he)
  by_cases hb : (part ++ [g.char]).all Text.isBlank = true
  · refine .inl ⟨.next [] (Glyph.place rest) joined [] rest, hrest, List.suffix_cons g rest, fun X _ => ?_⟩
    rw [List.cons_append, itemStep, if_neg he, if_pos hb, Glyph.place_append hrest]
    rfl
  -- one more character, or a quoted text
  have hleft := (dataPart_append hA he part []).2
  obtain ⟨front, u, hsplit, hlast⟩ := dataPart_last hA part
  have hpart (X : List Glyph) : itemStep closing s joined part (g :: rest ++ X) =
      itemPart closing s joined (dataPart part g rest).1 ((dataPart part g rest).2 ++ X) := by
    rw [List.cons_append, itemStep, if_neg he, if_neg hb, (dataPart_append hA he part X).1]
  generalize (dataPart part g rest).1 = item at *
  generalize (dataPart part g rest).2 = left at *
  have hleftA : left <:+ g :: rest := ⟨front ++ [u], by rw [hsplit]; simp⟩
  rcases itemPart_within (hA.suffix hleftA) hleft with
    ⟨st, hover, hsuffix, hstep⟩ | ⟨e, rfl, hmark, hitem, hstep⟩
  · exact .inl ⟨st, hover, hsuffix.trans hleftA, fun X hX => (hpart X).trans (hstep X hX)⟩
  · rw [hlast, Option.some.injEq] at hitem
    refine .inr ⟨front, u, e, [], ⟨.dataField, joined ++ item, s⟩, hsplit, hitem,
      (hA.apt e (hleftA.subset List.mem_cons_self)).marks.2 hmark, rfl, fun X hX => ?_⟩
    rw [itemReader, dataItems_step, hpart, hstep X hX]
    rfl

/-- A statement of DATA ends within the lines in front or waits for more at their end. -/
theorem dataItems_within (hA : Laid A) (hne : A ≠ []) (s : Position) (joined part : Text) :
    Within closing A (itemReader closing s joined part) ∨
      LeftWaiting closing A (itemReader closing s joined part) := by
  obtain ⟨n, hn⟩ : ∃ n, A.length = n := ⟨_, rfl⟩
  induction n using Nat.strong_induction_on generalizing A s joined part with
  | _ n ih =>
    rcases itemStep_within hA hne s joined part with ⟨st, hover, hsuffix, hstep⟩ | hwait
    swap
    · exact .inr hwait
    cases st with
    | last ts left =>
      refine .inl ⟨ts, left, hover, hsuffix, fun X hX => ?_⟩
      rw [itemReader, dataItems_step, hstep X hX]
      rfl
    | next ts s' joined' part' left =>
      have hpass : PassesOn closing A (itemReader closing s joined part) left
          (itemReader closing s' joined' part') (ts ++ ·) := by
        refine ⟨hsuffix, fun X hX => ?_⟩
        rw [itemReader, dataItems_step, hstep X hX]
        rfl
      have hshort := itemStep_shorter (hstep (List.replicate closing (A.head hne)) (by simp))
      rw [List.length_append, List.length_append] at hshort
      exact (ih left.length (by omega) (hA.suffix hsuffix) hover _ _ _ rfl).imp
        hpass.within hpass.leftWaiting

end Items

/-- The items behind a DATA keyword start within the lines in front. -/
theorem dataFields_passes (hA : Laid A) (hne : A ≠ []) (t : Token) : ∃ R, R ≠ [] ∧ R <:+ A ∧
    ((∀ X : List Glyph, closing ≤ X.length →
        (.ok (t :: (dataFields closing (A ++ X)).1, (dataFields closing (A ++ X)).2) :
          Except Failure (List Token × List Glyph)) = .ok ([t], R ++ X)) ∨
      ∃ s, PassesOn closing A (fun input => .ok (t :: (dataFields closing input).1, (dataFields closing input).2))
        R (itemReader closing s [] []) ([t] ++ ·)) := by
  have hbody : A.dropWhile (fun g => g.char == ' ') ≠ [] := by
    rw [Ne, List.dropWhile_eq_nil_iff, not_forall]
    have hmem := List.getLast_mem hne
    refine ⟨A.getLast hne, fun h => ?_⟩
    have hmark := (hA.apt _ hmem).marks.2 (hA.last _ (List.getLast?_eq_some_getLast hne))
    rw [hmark] at h
    exact absurd (h hmem) (by decide)
  have hdrop (X : List Glyph) : (A ++ X).dropWhile (fun g => g.char == ' ') =
      A.dropWhile (fun g => g.char == ' ') ++ X := by
    rw [List.dropWhile_append, if_neg (by simpa using hbody)]
  generalize hR : A.dropWhile (fun g => g.char == ' ') = R at hbody hdrop
  have hsuffix : R <:+ A := hR ▸ List.dropWhile_suffix _
  have hends (X : List Glyph) : endsData (R ++ X) = endsData R := by
    obtain ⟨w, more, rfl⟩ := List.exists_cons_of_ne_nil hbody
    rfl
  refine ⟨R, hbody, hsuffix, ?_⟩
  by_cases hover : endsData R = true
  · exact .inl fun X _ => by simp only [dataFields, hdrop, hends, if_pos hover]
  · refine .inr ⟨Glyph.place R, hsuffix, fun X _ => ?_⟩
    simp only [dataFields, hdrop, hends, if_neg hover, Glyph.place_append hbody]
    rfl

/-- What a token opens is closed within the lines in front, or it is left open or waiting at their end. -/
theorem complete_local (hA : Laid A) (hne : A ≠ []) (t : Token) :
    Within closing A (complete d closing last t) ∨ LeftOpen closing A (complete d closing last t) ∨
      LeftWaiting closing A (complete d closing last t) := by
  have hread := hA.restOfLine_append hne
  have hover := hA.restOfLine_ne_nil hne
  have hsuffix := Glyph.restOfLine_suffix A
  have keeps {ts : List Token} (h : ∀ X, complete d closing last t (A ++ X) = .ok (ts, A ++ X)) :
      Within closing A (complete d closing last t) :=
    ⟨ts, A, hne, List.suffix_refl A, fun X _ => h X⟩
  have line {ts : List Token} (h : ∀ X, complete d closing last t (A ++ X) =
      .ok (ts, (Glyph.restOfLine A).2 ++ X)) : Within closing A (complete d closing last t) :=
    ⟨ts, _, hover, hsuffix, fun X _ => h X⟩
  have blocks (h : complete d closing last t = block closing t) :
      Within closing A (complete d closing last t) ∨ LeftOpen closing A (complete d closing last t) := by
    rw [h]
    exact block_local hA hne t
  cases hk : t.kind
  case toggle =>
    refine .inl ?_
    cases hsplit : Dialect.splitToggle t.value with
    | none => exact @keeps [t] fun X => by cases ho : opensTag last <;> simp [complete, hk, hsplit, ho]
    | some r =>
      cases ho : opensTag last with
      | true => exact @keeps [t] fun X => by simp [complete, hk, ho]
      | false => exact keeps fun X => by simp only [complete, hk, hsplit, ho]; rfl
  case blockRemark =>
    by_cases hl : last = .newline
    · exact (blocks (by funext input; simp [complete, hk, hl])).imp_right .inl
    · exact .inl (line fun X => by simp only [complete, hk, if_neg hl, hread]; rfl)
  case blockComment =>
    by_cases hl : last = .newline
    · exact (blocks (by funext input; simp [complete, hk, hl])).imp_right .inl
    · exact .inl (line fun X => by simp only [complete, hk, if_neg hl, hread]; rfl)
  case lineComment => exact .inl (line fun X => by simp only [complete, hk, hread]; rfl)
  case remark => exact .inl (line fun X => by simp only [complete, hk, hread, Glyph.place_append hne]; rfl)
  case quote =>
    obtain hquoted := quotedTail_append hA hne
    exact .inl ⟨_, _, (hquoted []).2, quotedTail_suffix A, fun X _ => by
      simp only [complete, hk, (hquoted X).1]; rfl⟩
  case data =>
    have hcomplete : complete d closing last t = fun input =>
        .ok (t :: (dataFields closing input).1, (dataFields closing input).2) := by
      funext input
      simp only [complete, hk]
    rw [hcomplete]
    obtain ⟨R, hR, hRA, hover | ⟨s, hpass⟩⟩ := @dataFields_passes closing _ hA hne t
    · exact .inl ⟨[t], R, hR, hRA, hover⟩
    · exact (dataItems_within (hA.suffix hRA) hR s [] []).imp hpass.within fun h => .inr (hpass.leftWaiting h)
  all_goals exact .inl (@keeps [t] fun X => by simp [complete, hk])

theorem munch_within {taken : Text} {k : Kind} (h : (munch Glyph.char d taken k A).2.2 ≠ []) (X : List Glyph) :
    munch Glyph.char d taken k (A ++ X) = ((munch Glyph.char d taken k A).1,
      (munch Glyph.char d taken k A).2.1, (munch Glyph.char d taken k A).2.2 ++ X) := by
  induction A generalizing taken k with
  | nil => exact absurd rfl h
  | cons g A ih =>
    simp only [List.cons_append, munch] at h ⊢
    split
    · rename_i hk
      rw [hk] at h
      exact ih h
    · rfl

/-- A token of the lines in front is scanned within them, unless nothing but line ends is left there. -/
theorem scan_local (hA : Laid (g :: rest)) (hother : ∃ u ∈ g :: rest, u.char ≠ '\r') :
    (∃ t R, R ≠ [] ∧ R <:+ rest ∧ ∀ X, scan d g (rest ++ X) = .ok (t, R ++ X)) ∨
      ∃ text, ∀ X, scan d g (rest ++ X) = .error (.located (.unrecognised text) g.pos) := by
  cases hk : d.classify [g.char] with
  | none => exact .inr ⟨[g.char], fun X => by simp only [scan, hk]⟩
  | some k =>
    have hleft : (munch Glyph.char d [g.char] k rest).2.2 ≠ [] := by
      intro hnil
      have hclass := classify_munch Glyph.char [g.char] k hk rest
      obtain ⟨span, hspan, hvalue⟩ := munch_span (d := d) [g.char] k rest
      rw [hnil, List.append_nil] at hspan
      subst hspan
      -- all of the characters in front would be one token with a line end in it
      have hmem : '\r' ∈ (munch Glyph.char d [g.char] k rest).1 := by
        have hlast := List.getLast_mem (List.cons_ne_nil g rest)
        have hmark := (hA.apt _ hlast).marks.2 (hA.last _ (List.getLast?_eq_some_getLast (by simp)))
        have := List.mem_map_of_mem (f := Glyph.char) hlast
        rw [hmark] at this
        rw [hvalue]
        simpa [Glyph.endMark] using this
      have hne : ∃ x ∈ (munch Glyph.char d [g.char] k rest).1, x ≠ '\r' := by
        obtain ⟨u, hu, hchar⟩ := hother
        refine ⟨u.char, ?_, hchar⟩
        rw [hvalue]
        simpa using List.mem_map_of_mem (f := Glyph.char) hu
      by_cases hl : (munch Glyph.char d [g.char] k rest).1.length = 1
      · obtain ⟨c, hc⟩ := List.length_eq_one_iff.1 hl
        obtain ⟨x, hx, hxne⟩ := hne
        rw [hc, List.mem_singleton] at hmem hx
        exact hxne (hx.trans hmem.symm)
      · rw [Dialect.classify_boundary (by decide) hmem hl hne] at hclass
        cases hclass
    refine .inl ⟨⟨(munch Glyph.char d [g.char] k rest).2.1, (munch Glyph.char d [g.char] k rest).1, g.pos⟩,
      _, hleft, munch_suffix _ _ _ _, fun X => ?_⟩
    simp only [scan, hk, munch_within hleft]
    rw [if_neg (by simp [hleft])]

def blockOpen : Except Failure (List Token) → Bool
  | .error (.located (.blockNotClosed _) _) => true
  | _ => false

/-- Whether the last token in front of the line end at the end of a file is an item of DATA. -/
def endsInData : Except Failure (List Token) → Bool
  | .ok tokens => (tokens.reverse.drop 2).head?.any (·.kind == .dataField)
  | .error _ => false

theorem blockOpen_map (r : Except Failure (List Token)) (us : List Token) :
    blockOpen (r.map (us ++ ·)) = blockOpen r := by
  cases r <;> rfl

theorem endsInData_of_map {r : Except Failure (List Token)} {us : List Token}
    (h : endsInData (r.map (us ++ ·)) = false) : endsInData r = false := by
  cases r with
  | error e => rfl
  | ok tokens =>
    rw [Bool.eq_false_iff] at h ⊢
    intro ht
    refine h ?_
    simp only [endsInData, Except.map, List.reverse_append, Option.any_eq_true] at ht ⊢
    obtain ⟨t, hmem, ht⟩ := ht
    obtain ⟨more, hmore⟩ := List.head?_eq_some_iff.1 hmem
    exact ⟨t, by rw [List.drop_append_of_le_length (by
      by_contra hcon
      rw [List.drop_of_length_le (by omega)] at hmore
      cases hmore), hmore]; rfl, ht⟩

def EndsUnderscored (A : List Glyph) : Prop := ∃ front u e, A = front ++ [u, e] ∧ u.char = '_'

theorem EndsUnderscored.grow (hs : rest <:+ A) (h : EndsUnderscored rest) : EndsUnderscored A := by
  obtain ⟨gone, rfl⟩ := hs
  obtain ⟨front, u, e, rfl, hu⟩ := h
  exact ⟨gone ++ front, u, e, by simp, hu⟩

theorem lexFrom_end {e : Glyph} {C : List Glyph} (he : e.char = Glyph.endMark)
    (hC : ∃ u ∈ C.head?, u.char ≠ '\r') :
    lexFrom d C.length last (e :: C) =
      .ok [⟨.newline, [e.char], e.pos⟩, ⟨.eof, Listing.eofText, Glyph.place C⟩] := by
  obtain ⟨u, hu, hchar⟩ := hC
  obtain ⟨more, rfl⟩ := List.head?_eq_some_iff.1 hu
  have hk : d.classify [e.char] = some .newline := he ▸ classify_endMark d
  have hnone : d.classify [e.char, u.char] = none :=
    Dialect.classify_boundary (show '\r' ∈ Grammar.boundaries by decide) (by simp [he, Glyph.endMark])
      (by simp) ⟨u.char, by simp, hchar⟩
  have hs : scan d e (u :: more) = .ok (⟨.newline, [e.char], e.pos⟩, u :: more) := by
    simp [scan, hk, munch, hnone]
  rw [lexFrom_token (Nat.le_refl _) hs (by simp) (by simp) (complete_self rfl (by simp)), lexFrom,
    if_pos (by simp)]
  rfl

/-- Whether the characters in front of a place are lexed as far as the line ends in front of it, or
refused, whatever of `closing` characters or more follows. -/
def Settles (d : Dialect) (closing : Nat) (last : Kind) (A : List Glyph) : Prop :=
  (∃ e, ∀ X : List Glyph, closing ≤ X.length → lexFrom d closing last (A ++ X) = .error e) ∨
    ∃ us last' R, R ≠ [] ∧ R <:+ A ∧ (∀ g ∈ R, g.char = '\r') ∧ ∀ X : List Glyph, closing ≤ X.length →
      lexFrom d closing last (A ++ X) = (lexFrom d closing last' (R ++ X)).map (us ++ ·)

theorem map_nothing (r : Except Failure (List Token)) : r.map ([] ++ ·) = r := by
  cases r <;> rfl

theorem map_append (r : Except Failure (List Token)) (ts us : List Token) :
    (r.map (us ++ ·)).map (ts ++ ·) = r.map (ts ++ us ++ ·) := by
  cases r with
  | error e => rfl
  | ok tokens => exact congrArg Except.ok (List.append_assoc ts us tokens).symm

/-- What is done for the tokens of a later part is done for all of them. -/
theorem Settles.back {ts : List Token} {last' : Kind} {R : List Glyph} (h : Settles d closing last' R)
    (hRA : R <:+ A) (hstep : ∀ X : List Glyph, closing ≤ X.length →
      lexFrom d closing last (A ++ X) = (lexFrom d closing last' (R ++ X)).map (ts ++ ·)) :
    Settles d closing last A := by
  rcases h with ⟨e, herr⟩ | ⟨us, last'', R', hR', hRR, hmarks, hlex⟩
  · exact .inl ⟨e, fun X hX => by rw [hstep X hX, herr X hX]; rfl⟩
  · refine .inr ⟨ts ++ us, last'', R', hR', hRR.trans hRA, hmarks, fun X hX => ?_⟩
    rw [hstep X hX, hlex X hX, map_append]

/-- The lines in front of a place settle if they leave no block open and no item of DATA waiting. -/
theorem lexFrom_settles {C : List Glyph} (hC : ∃ u ∈ C.head?, u.char ≠ '\r') (hA : Laid A) (hne : A ≠ [])
    (hopen : blockOpen (lexFrom d C.length last (A ++ C)) = false)
    (hdata : EndsUnderscored A → endsInData (lexFrom d C.length last (A ++ C)) = false) :
    Settles d C.length last A := by
  obtain ⟨n, hn⟩ : ∃ n, A.length = n := ⟨_, rfl⟩
  induction n using Nat.strong_induction_on generalizing A last with
  | _ n ih =>
    by_cases hmarks : ∀ g ∈ A, g.char = '\r'
    · exact .inr ⟨[], last, A, hne, List.suffix_refl A, hmarks, fun X _ => (map_nothing _).symm⟩
    obtain ⟨g, rest, rfl⟩ := List.exists_cons_of_ne_nil hne
    simp only [List.length_cons] at hn
    have hroom (X : List Glyph) (hX : C.length ≤ X.length) : C.length ≤ (rest ++ X).length := by
      rw [List.length_append]
      omega
    have go {ts : List Token} {last' : Kind} {R : List Glyph} (hR : R ≠ []) (hRA : R <:+ rest)
        (hstep : ∀ X : List Glyph, C.length ≤ X.length →
          lexFrom d C.length last (g :: rest ++ X) = (lexFrom d C.length last' (R ++ X)).map (ts ++ ·)) :
        Settles d C.length last (g :: rest) := by
      have hsuffix : R <:+ g :: rest := hRA.trans (List.suffix_cons g rest)
      have hlen := hRA.length_le
      rw [hstep C (Nat.le_refl _)] at hopen hdata
      exact (ih R.length (by omega) (hA.suffix hsuffix) hR (blockOpen_map _ ts ▸ hopen)
        (fun hu => endsInData_of_map (hdata (hu.grow hsuffix))) rfl).back hsuffix hstep
    have hother : ∃ u ∈ g :: rest, u.char ≠ '\r' := by
      push Not at hmarks
      exact hmarks
    rcases scan_local (d := d) hA hother with ⟨t, R, hR, hRA, hscan⟩ | ⟨text, hscan⟩
    swap
    · refine .inl ⟨.located (.unrecognised text) g.pos, fun X hX => ?_⟩
      rw [List.cons_append, lexFrom_cons (hroom X hX), hscan]
      rfl
    by_cases hsp : t.kind = .spaces
    · have hstep (X : List Glyph) (hX : C.length ≤ X.length) : lexFrom d C.length last (g :: rest ++ X) =
          (lexFrom d C.length last (R ++ X)).map ([] ++ ·) := by
        rw [List.cons_append, lexFrom_skip (hroom X hX) (hscan X) hsp, map_nothing]
      exact go hR hRA hstep
    by_cases hpart : t.kind = .baseMark ∨ t.kind = .lonePoint
    · refine .inl ⟨t.failure (.incomplete t.value), fun X hX => ?_⟩
      rw [List.cons_append, lexFrom_cons (hroom X hX), hscan]
      simp only [bind, Except.bind, if_neg hsp, if_pos hpart]
    have hlaid := hA.suffix (hRA.trans (List.suffix_cons g rest))
    rcases @complete_local d C.length last _ hlaid hR t with
      ⟨ts, L, hL, hLR, hok⟩ | ⟨line, pos, herr⟩ | ⟨front, u, e, ts, v, rfl, hu, he, hv, hok⟩
    · have hstep (X : List Glyph) (hX : C.length ≤ X.length) : lexFrom d C.length last (g :: rest ++ X) =
          (lexFrom d C.length ((ts.getLast?.map Token.kind).getD last) (L ++ X)).map (ts ++ ·) := by
        rw [List.cons_append, lexFrom_token (hroom X hX) (hscan X) hsp hpart (hok X hX)]
      exact go hL (hLR.trans hRA) hstep
    · rw [List.cons_append, lexFrom_cons (hroom C (Nat.le_refl _)), hscan] at hopen
      simp only [bind, Except.bind, if_neg hsp, if_neg hpart, herr C rfl] at hopen
      cases hopen
    · have hover := hdata (EndsUnderscored.grow (hRA.trans (List.suffix_cons g rest)) ⟨front, u, e, rfl, hu⟩)
      rw [List.cons_append, lexFrom_token (hroom C (Nat.le_refl _)) (hscan C) hsp hpart (hok C rfl),
        lexFrom_end he hC] at hover
      simp [endsInData, Except.map, hv] at hover

end Lexer

end ClassicBasic
