import ClassicBasic.Proofs.Sealed

/-!
# How the characters of a listing are laid out

Every character of a listing is where its place says: in its column of the text of its line, with the
end mark behind the text. Characters follow each other column by column, and a line end is followed by
the first column of a later line. What is left of a listing while it is read is laid out as well.
-/

set_option autoImplicit false

namespace ClassicBasic

def Position.Before (p q : Position) : Prop := p.line < q.line ∨ (p.line = q.line ∧ p.col ≤ q.col)

theorem Position.Before.trans {p q r : Position} (h : p.Before q) (h' : q.Before r) : p.Before r := by
  unfold Before at *
  omega

namespace Glyph

/-- Whether a character is the one of its column, or the end mark behind the text of its line. -/
structure Apt (g : Glyph) : Prop where
  marks : g.char = endMark ↔ g.ends = true
  placed : ∃ i : Nat, g.pos.col = i + 1 ∧
    if g.ends then i = g.pos.text.length else g.pos.text[i]? = some g.char

def Precedes (a b : Glyph) : Prop :=
  if a.ends then a.pos.line < b.pos.line ∧ b.pos.col = 1 else b.pos = a.pos.withCol (a.pos.col + 1)

/-- Characters in the order of their places, up to the end of a line. -/
structure Laid (input : List Glyph) : Prop where
  apt : ∀ g ∈ input, g.Apt
  chain : input.IsChain Precedes
  last : ∀ g ∈ input.getLast?, g.ends = true

def Inside (span : List Glyph) : Prop := ∀ g ∈ span, g.ends = false

variable {input span rest left : List Glyph} {g : Glyph}

theorem Laid.suffix (h : Laid input) (hs : left <:+ input) : Laid left where
  apt g hg := h.apt g (hs.mem hg)
  chain := h.chain.suffix hs
  last := by
    obtain ⟨gone, rfl⟩ := hs
    intro g hg
    apply h.last g
    rw [List.getLast?_append, Option.mem_def.1 hg]
    rfl

theorem Laid.tail (h : Laid (g :: rest)) : Laid rest := h.suffix (List.suffix_cons g rest)

theorem Laid.append_right (h : Laid (span ++ rest)) : Laid rest := h.suffix (List.suffix_append _ _)

theorem Laid.ne_nil (h : Laid (span ++ rest)) (hs : Inside span) (hne : span ++ rest ≠ []) :
    rest ≠ [] := by
  rintro rfl
  rw [List.append_nil] at h hne
  have hlast := h.last _ (List.getLast?_eq_some_getLast hne)
  rw [hs _ (List.getLast_mem hne)] at hlast
  cases hlast

theorem inside_cons : Inside (g :: span) ↔ g.ends = false ∧ Inside span := List.forall_mem_cons

theorem Laid.tail_ne_nil (h : Laid (g :: rest)) (hg : g.ends = false) : rest ≠ [] := by
  rintro rfl
  have hlast := h.last g rfl
  rw [hg] at hlast
  cases hlast

theorem Laid.place_tail (h : Laid (g :: rest)) (hg : g.ends = false) :
    place rest = g.pos.withCol (g.pos.col + 1) := by
  have hchain := h.chain
  cases rest with
  | nil => exact absurd rfl (h.tail_ne_nil hg)
  | cons u left =>
    rw [List.isChain_cons_cons] at hchain
    simpa [Precedes, hg, place] using hchain.1

/-- The place behind a run of characters is as many columns further on. -/
theorem Laid.place_append (h : Laid (span ++ rest)) (hs : Inside span) :
    place rest = (place (span ++ rest)).withCol ((place (span ++ rest)).col + span.length) := by
  induction span with
  | nil => simp [Position.withCol]
  | cons g more ih =>
    obtain ⟨hg, hmore⟩ := inside_cons.1 hs
    have hnext : place (more ++ rest) = g.pos.withCol (g.pos.col + 1) := h.place_tail hg
    rw [ih h.tail hmore, hnext]
    simp only [List.cons_append, place, Position.withCol, List.length_cons]
    push_cast
    congr 1
    omega

/-- A run of characters is the piece of its line that starts at its place. -/
theorem Laid.text_append (h : Laid (span ++ rest)) (hs : Inside span) (hne : span ++ rest ≠ []) :
    ∃ i : Nat, (place (span ++ rest)).col = i + 1 ∧
      i + span.length ≤ (place (span ++ rest)).text.length ∧
      ((place (span ++ rest)).text.drop i).take span.length = span.map char := by
  induction span with
  | nil =>
    cases rest with
    | nil => exact absurd rfl hne
    | cons g rest =>
      obtain ⟨i, hi, hplaced⟩ := (h.apt g List.mem_cons_self).placed
      refine ⟨i, hi, ?_, by simp⟩
      simp only [List.nil_append, place, List.length_nil, Nat.add_zero]
      split at hplaced
      · exact Nat.le_of_eq hplaced
      · exact Nat.le_of_lt (List.getElem?_eq_some_iff.1 hplaced).1
  | cons g more ih =>
    obtain ⟨hg, hmore⟩ := inside_cons.1 hs
    have hnext : place (more ++ rest) = g.pos.withCol (g.pos.col + 1) := h.place_tail hg
    obtain ⟨j, hj, hlen, htext⟩ := ih h.tail hmore (h.tail_ne_nil hg)
    obtain ⟨i, hi, hplaced⟩ := (h.apt g List.mem_cons_self).placed
    rw [hnext] at hj hlen htext
    simp only [Position.withCol] at hj hlen htext
    obtain rfl : j = i + 1 := by omega
    rw [hg] at hplaced
    simp only [Bool.false_eq_true, if_false] at hplaced
    refine ⟨i, hi, ?_, ?_⟩
    · simp only [List.cons_append, place, List.length_cons]
      omega
    · have hdrop : g.pos.text.drop i = g.char :: g.pos.text.drop (i + 1) := by
        obtain ⟨hlt, hget⟩ := List.getElem?_eq_some_iff.1 hplaced
        rw [List.drop_eq_getElem_cons hlt, hget]
      simp only [List.cons_append, place, hdrop, List.length_cons, List.take_succ_cons, htext,
        List.map_cons]

theorem Laid.text_over {e : Glyph} (h : Laid (span ++ e :: rest)) (hs : Inside span)
    (he : e.ends = true) : (place (span ++ e :: rest)).col + span.length =
      (place (span ++ e :: rest)).text.length + 1 := by
  have hplace := h.place_append hs
  obtain ⟨i, hi, hplaced⟩ := (h.apt e (by simp)).placed
  rw [he, if_pos rfl] at hplaced
  simp only [place] at hplace
  have hcol : e.pos.col = (place (span ++ e :: rest)).col + span.length := by
    rw [hplace]
    rfl
  have htext : e.pos.text = (place (span ++ e :: rest)).text := by
    rw [hplace]
    rfl
  rw [← htext, ← hplaced, ← hcol, hi]

theorem Laid.before (h : Laid (span ++ rest)) (hr : rest ≠ []) :
    (place (span ++ rest)).Before (place rest) := by
  induction span with
  | nil => exact .inr ⟨rfl, Int.le_refl _⟩
  | cons g more ih =>
    have hchain := h.chain
    cases hcons : more ++ rest with
    | nil => simp [hr] at hcons
    | cons u left =>
      have hlater := ih h.tail
      rw [List.cons_append, hcons, List.isChain_cons_cons] at hchain
      rw [hcons] at hlater
      simp only [List.cons_append, place, Position.Before] at hlater ⊢
      have hprec := hchain.1
      unfold Precedes at hprec
      split at hprec
      · omega
      · rw [hprec] at hlater
        simp only [Position.withCol] at hlater
        omega

theorem Laid.before_tail (h : Laid (g :: rest)) (hr : rest ≠ []) :
    (place (g :: rest)).Before (place rest) :=
  @Laid.before [g] rest h hr

theorem laid_spread (line : Nat) (file pre text : Text) (hr : endMark ∉ text) :
    Laid (spread line (pre ++ text) file (pre.length + 1) text) ∧
      ∀ g ∈ (spread line (pre ++ text) file (pre.length + 1) text).head?,
        g.pos = .onLine line (pre.length + 1) (pre ++ text) file := by
  induction text generalizing pre with
  | nil =>
    refine ⟨⟨?_, List.isChain_singleton _, by simp [spread]⟩, by simp [spread]⟩
    intro g hg
    rw [List.mem_singleton.1 hg]
    exact ⟨by simp, pre.length, rfl, by simp [Position.onLine]⟩
  | cons c text ih =>
    simp only [List.mem_cons, not_or] at hr
    have hmore := ih (pre ++ [c]) hr.2
    rw [List.append_assoc, List.singleton_append, List.length_append, List.length_singleton] at hmore
    push_cast at hmore
    obtain ⟨hlaid, hhead⟩ := hmore
    refine ⟨⟨?_, ?_, ?_⟩, by simp [spread]⟩
    · refine List.forall_mem_cons.2 ⟨⟨?_, pre.length, rfl, ?_⟩, hlaid.apt⟩
      · simpa [eq_comm] using hr.1
      · simp [Position.onLine]
    · rw [spread, List.isChain_cons]
      refine ⟨fun u hu => ?_, hlaid.chain⟩
      simp [Precedes, hhead u hu, Position.onLine, Position.withCol]
    · intro g hg
      apply hlaid.last g
      rw [spread, List.getLast?_cons] at hg
      cases hlast : (spread line (pre ++ c :: text) file (pre.length + 1 + 1) text).getLast? with
      | none =>
        cases text <;> simp [spread] at hlast
      | some u =>
        rw [hlast] at hg
        exact hg

theorem pos_spread {line : Nat} {text file more : Text} {col : Int}
    (hg : g ∈ spread line text file col more) : g.pos = .onLine line g.pos.col text file := by
  induction more generalizing col with
  | nil =>
    rw [List.mem_singleton.1 hg]
    rfl
  | cons c more ih =>
    rcases List.mem_cons.1 hg with rfl | hg
    · rfl
    · exact ih hg

theorem mem_spread {line : Nat} {text file more : Text} {col : Int} {i : Nat} {c : Char}
    (hc : more[i]? = some c) :
    ⟨c, .onLine line (col + i) text file, false⟩ ∈ spread line text file col more := by
  induction more generalizing col i with
  | nil => simp at hc
  | cons x more ih =>
    cases i with
    | zero =>
      obtain rfl : x = c := by simpa using hc
      simp [spread]
    | succ i =>
      have hmem : ⟨c, .onLine line (col + 1 + i) text file, false⟩ ∈
          spread line text file (col + 1) more := ih (by simpa using hc)
      have hcol : col + 1 + (i : Int) = col + ((i + 1 : Nat) : Int) := by
        push_cast
        omega
      rw [hcol] at hmem
      exact List.mem_cons_of_mem _ hmem

end Glyph

namespace Line

/-- The text of a line as it is read: the white space at its end is gone. -/
def read (l : Line) : Text := Text.trimBlankEnd l.text

end Line

theorem Text.trimEnd_subset (p : Char → Bool) (t : Text) : trimEnd p t ⊆ t := by
  intro c hc
  exact List.mem_reverse.1 ((List.dropWhile_suffix p).mem (List.mem_reverse.1 hc))

namespace Listing

open Glyph (Laid ofLine endMark)

/-- Lines in the order of their numbers, without end marks of their own. -/
structure Proper (listing : Listing) : Prop where
  numbers : listing.Pairwise fun l l' => l.number < l'.number
  returns : ∀ l ∈ listing, endMark ∉ l.text

variable {listing : Listing} {l : Line}

theorem Proper.tail (h : Proper (l :: listing)) : Proper listing :=
  ⟨(List.pairwise_cons.1 h.numbers).2, (List.forall_mem_cons.1 h.returns).2⟩

theorem laid_ofLine (h : endMark ∉ l.text) : Laid (ofLine l) := by
  have hread : endMark ∉ l.read := fun hmem => h (Text.trimEnd_subset _ _ hmem)
  exact (Glyph.laid_spread l.number l.file [] l.read hread).1

theorem head_ofLine (l : Line) : ∀ g ∈ (ofLine l).head?, g.pos.line = l.number ∧ g.pos.col = 1 := by
  intro g hg
  unfold ofLine at hg
  cases hread : Text.trimBlankEnd l.text <;>
    simp only [hread, Glyph.spread, List.head?_cons, Option.mem_def, Option.some.injEq] at hg <;>
    exact hg ▸ ⟨rfl, rfl⟩

theorem Proper.laid (h : Proper listing) : Laid (listing.flatMap ofLine) := by
  induction listing with
  | nil => exact ⟨by simp, List.isChain_nil, by simp⟩
  | cons l more ih =>
    have hline := laid_ofLine (List.forall_mem_cons.1 h.returns).1
    have hmore := ih h.tail
    rw [List.flatMap_cons]
    refine ⟨?_, List.isChain_append.2 ⟨hline.chain, hmore.chain, ?_⟩, ?_⟩
    · intro g hg
      rcases List.mem_append.1 hg with hg | hg
      · exact hline.apt g hg
      · exact hmore.apt g hg
    · intro a ha b hb
      have hends : a.ends = true := hline.last a ha
      have hpos := Glyph.pos_spread (List.mem_of_mem_getLast? ha)
      rw [Glyph.Precedes, if_pos hends, hpos]
      cases more with
      | nil => simp at hb
      | cons l' more =>
        have hne : ofLine l' ≠ [] := by
          unfold ofLine
          cases Text.trimBlankEnd l'.text <;> simp [Glyph.spread]
        rw [List.flatMap_cons, List.head?_append_of_ne_nil _ hne] at hb
        have hhead := head_ofLine l' b hb
        rw [hhead.1, hhead.2]
        have hlt := (List.pairwise_cons.1 h.numbers).1 l' List.mem_cons_self
        exact ⟨Int.ofNat_lt.2 hlt, rfl⟩
    · intro g hg
      rw [List.getLast?_append, Option.mem_def, Option.or_eq_some_iff] at hg
      rcases hg with hg | ⟨-, hg⟩
      · exact hmore.last g hg
      · exact hline.last g hg

theorem not_mem_unifyEnds (t : Text) : endMark ∉ unifyEnds t := by
  fun_induction unifyEnds t <;> simp_all [endMark, eq_comm]

theorem not_mem_expandFrom {size col : Nat} {t : Text} (h : endMark ∉ t) :
    endMark ∉ expandFrom size col t := by
  fun_induction expandFrom size col t with
  | case1 => exact h
  | case2 col t pad ih =>
    simp only [List.mem_cons, not_or] at h
    simp only [List.mem_append, List.mem_replicate, not_or]
    exact ⟨by simp [endMark], ih h.2⟩
  | case3 col c t _ ih =>
    simp only [List.mem_cons, not_or] at h ⊢
    exact ⟨h.1, ih h.2⟩

theorem not_mem_splitAt {c x : Char} {t piece : Text} (h : x ∉ t)
    (hp : piece ∈ Text.splitAt c t) : x ∉ piece := by
  induction t generalizing piece with
  | nil =>
    rw [Text.splitAt, List.mem_singleton] at hp
    simp [hp]
  | cons y t ih =>
    simp only [List.mem_cons, not_or] at h
    simp only [Text.splitAt] at hp
    split at hp
    · rename_i heq
      exact absurd heq (Text.splitAt_ne_nil c t)
    · rename_i first rest heq
      have hfirst : x ∉ first := ih h.2 (by simp [heq])
      have hrest : ∀ p ∈ rest, x ∉ p := fun p hmem => ih h.2 (by simp [heq, hmem])
      split at hp
      · rcases List.mem_cons.1 hp with rfl | hp
        · simp
        · rcases List.mem_cons.1 hp with rfl | hp
          · exact hfirst
          · exact hrest _ hp
      · rcases List.mem_cons.1 hp with rfl | hp
        · simp only [List.mem_cons, not_or]
          exact ⟨h.1, hfirst⟩
        · exact hrest _ hp

theorem not_mem_lineTexts {t text : Text} (h : text ∈ lineTexts t) : endMark ∉ text := by
  unfold lineTexts at h
  dsimp only at h
  split at h
  · cases h
  · refine not_mem_splitAt (fun hmem => not_mem_unifyEnds t ?_) h
    unfold Text.dropTail at hmem
    split at hmem
    · exact List.mem_of_mem_take hmem
    · exact hmem

theorem mem_numberFrom {file : Text} {n : Nat} {texts : List Text} (h : l ∈ numberFrom file n texts) :
    n ≤ l.number ∧ l.number < n + texts.length ∧ l.text ∈ texts ∧ l.file = file := by
  induction texts generalizing n with
  | nil => cases h
  | cons text texts ih =>
    rcases List.mem_cons.1 h with rfl | h
    · simp
    · obtain ⟨hlo, hhi, hmem, hfile⟩ := ih h
      refine ⟨by omega, ?_, List.mem_cons_of_mem _ hmem, hfile⟩
      rw [List.length_cons]
      omega

theorem pairwise_numberFrom (file : Text) (n : Nat) (texts : List Text) :
    (numberFrom file n texts).Pairwise fun l l' => l.number < l'.number := by
  induction texts generalizing n with
  | nil => exact .nil
  | cons text texts ih =>
    refine List.pairwise_cons.2 ⟨fun l hl => ?_, ih (n + 1)⟩
    exact (mem_numberFrom hl).1

theorem proper_ofText (t file : Text) (tab : Int) : Proper (ofText t file tab) := by
  unfold ofText framed
  constructor
  · rw [List.cons_append, List.pairwise_cons, List.pairwise_append]
    refine ⟨?_, pairwise_numberFrom _ _ _, List.pairwise_singleton _ _, ?_⟩
    · intro l hl
      rcases List.mem_append.1 hl with hl | hl
      · exact (mem_numberFrom hl).1
      · rw [List.mem_singleton.1 hl]
        exact Nat.succ_pos _
    · intro l hl l' hl'
      rw [List.mem_singleton.1 hl']
      have hlt := (mem_numberFrom hl).2.1
      dsimp only
      omega
  · intro l hl
    rw [List.cons_append, List.mem_cons, List.mem_append, List.mem_singleton] at hl
    have hsentinels : endMark ∉ programText ∧ endMark ∉ eofText := by decide
    rcases hl with rfl | hl | rfl
    · exact hsentinels.1
    · obtain ⟨text, htext, heq⟩ := List.mem_map.1 (mem_numberFrom hl).2.2.1
      rw [← heq]
      unfold expandTabs
      split
      · exact not_mem_lineTexts htext
      · exact not_mem_expandFrom (not_mem_lineTexts htext)
    · exact hsentinels.2

end Listing

end ClassicBasic
