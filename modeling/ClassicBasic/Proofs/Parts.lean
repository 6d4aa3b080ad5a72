import ClassicBasic.Proofs.Spaced
import ClassicBasic.Proofs.Spelling
import Mathlib.Data.List.DropRight

/-!
# The parts of a classic line

A classic line is a row of parts: blanks, words, strings, remarks, and DATA with its items. The pieces
that are read of it hold everything but the blanks between the parts and the white space around the
items, and a piece has a gap where blanks stand in front of its part.
-/

set_option autoImplicit false

namespace ClassicBasic

namespace Text

theorem trimBoth_split (p : Char → Bool) (t : Text) :
    ∃ before after, t = before ++ (trimBoth p t ++ after) ∧ before.all p = true ∧ after.all p = true := by
  refine ⟨t.takeWhile p, ((t.dropWhile p).reverse.takeWhile p).reverse, ?_, List.all_takeWhile, ?_⟩
  · rw [trimBoth, trimEnd_append_takeWhile, List.takeWhile_append_dropWhile]
  · rw [List.all_reverse]
    exact List.all_takeWhile

def insideQuotes (t : Text) : Bool := t.count '"' % 2 == 1

theorem insideQuotes_append_quote (t : Text) : insideQuotes (t ++ ['"']) = !insideQuotes t := by
  simp only [insideQuotes, List.count_append, List.count_singleton_self]
  rcases Nat.mod_two_eq_zero_or_one (t.count '"') with h | h <;> simp [Nat.add_mod, h]

theorem insideQuotes_append_other {c : Char} (h : c ≠ '"') (t : Text) :
    insideQuotes (t ++ [c]) = insideQuotes t := by
  simp [insideQuotes, List.count_append, h]

end Text

namespace Piece

open Dialect

/-- A part of a classic line as it is written. -/
inductive Part
  | blanks (text : Text)
  | word (kind : Kind) (text : Text)
  | string (text : Text)
  | remark (mark text : Text)
  | data (mark before items after : Text)

/-- What is written. -/
def Part.source : Part → Text
  | .blanks text => text
  | .word _ text => text
  | .string text => text
  | .remark mark text => mark ++ text
  | .data mark before items after => mark ++ (before ++ (items ++ after))

/-- What is kept of a part: no blanks between parts and no white space around items. -/
def Part.kept : Part → Text
  | .blanks _ => []
  | .word _ text => text
  | .string text => text
  | .remark mark text => mark ++ text
  | .data mark _ items _ => mark ++ items

/-- The pieces of a part; `gap` tells whether blanks stand in front of it. -/
def Part.pieces (gap : Bool) : Part → List Piece
  | .blanks _ => []
  | .word kind text => [{ kind, text, gap }]
  | .string text => [{ kind := .string, text, gap }]
  | .remark mark text =>
    { kind := .remark, text := mark, gap } ::
      if text = [] then [] else [{ kind := .remarkText, text, gap := false }]
  | .data mark _ items _ =>
    { kind := .data, text := mark, gap } ::
      if items = [] then [] else [{ kind := .dataField, text := items, gap := true }]

def Part.isBlanks : Part → Bool
  | .blanks _ => true
  | _ => false

/-- The pieces of parts; `gap` tells whether blanks stand in front of them. -/
def partPieces (gap : Bool) : List Part → List Piece
  | [] => []
  | part :: more => part.pieces gap ++ partPieces part.isBlanks more

/-- Whether the parts make up a line. Blanks are taken together, strings go on to the next quote, a
remark takes all that follows, and items go on to the next separator outside quotes. -/
inductive Parts (d : Dialect) : List Part → Prop
  | nil : Parts d []
  | blanks {text : Text} {more : List Part} (hne : text ≠ [])
      (hb : ∀ c ∈ text, c = ' ' ∨ c = '\t') (hmore : ∀ part ∈ more.head?, part.isBlanks = false)
      (m : Parts d more) :
      Parts d (.blanks text :: more)
  | word {kind : Kind} {c : Char} {rest : Text} {more : List Part}
      (hw : StartsWord c (rest ++ more.flatMap Part.source))
      (hc : ∀ x ∈ c :: rest, x ≠ ' ' ∧ x ≠ '\t' ∧ x ≠ '"') (m : Parts d more) :
      Parts d (.word kind (c :: rest) :: more)
  | string {body : Text} {more : List Part} (hb : '"' ∉ body) (m : Parts d more) :
      Parts d (.string ('"' :: body ++ ['"']) :: more)
  | unclosed {body : Text} (hb : '"' ∉ body) : Parts d [.string ('"' :: body)]
  | remark {mark text : Text} (hm : mark = "'" ∨ Text.upper mark = "REM") :
      Parts d [.remark mark text]
  | data {mark before items after : Text} {more : List Part} (hm : Text.upper mark = "DATA")
      (hb : before.all Text.isBlank = true) (ha : after.all Text.isBlank = true)
      (ht : Text.trimBlank items = items)
      (hin : ∀ p, p ++ [':'] <+: before ++ (items ++ after) → Text.insideQuotes p = true)
      (hend : ∀ c ∈ (more.flatMap Part.source).head?,
        c = ':' ∧ Text.insideQuotes (before ++ (items ++ after)) = false)
      (m : Parts d more) : Parts d (.data mark before items after :: more)

variable {d : Dialect} {c x : Char} {rest t : Text} {parts : List Part}

theorem dataItems_spec (lead t : Text) : ∃ left, t = dataItems (Text.insideQuotes lead) t ++ left ∧
    (∀ p, p ++ [':'] <+: dataItems (Text.insideQuotes lead) t → Text.insideQuotes (lead ++ p) = true) ∧
    ∀ c ∈ left.head?, c = ':' ∧ Text.insideQuotes (lead ++ dataItems (Text.insideQuotes lead) t) = false := by
  induction t generalizing lead with
  | nil => exact ⟨[], rfl, by simp [dataItems], by simp⟩
  | cons c rest ih =>
    obtain ⟨left, hleft, hin, hend⟩ := ih (lead ++ [c])
    -- what is read behind `c` is read behind `lead` and `c`
    have pushed (hc : c = ':' → Text.insideQuotes lead = true)
        (hd : dataItems (Text.insideQuotes lead) (c :: rest) =
          c :: dataItems (Text.insideQuotes (lead ++ [c])) rest) :
        ∃ left, c :: rest = dataItems (Text.insideQuotes lead) (c :: rest) ++ left ∧
          (∀ p, p ++ [':'] <+: dataItems (Text.insideQuotes lead) (c :: rest) →
            Text.insideQuotes (lead ++ p) = true) ∧
          ∀ x ∈ left.head?, x = ':' ∧
            Text.insideQuotes (lead ++ dataItems (Text.insideQuotes lead) (c :: rest)) = false := by
      rw [hd]
      refine ⟨left, ?_, fun p hp => ?_, fun x hx => ?_⟩
      · rw [List.cons_append, ← hleft]
      · cases p with
        | nil =>
          rw [List.append_nil]
          exact hc (List.cons_prefix_cons.1 hp).1.symm
        | cons y p =>
          obtain ⟨rfl, hp⟩ := List.cons_prefix_cons.1 hp
          simpa using hin p hp
      · simpa using hend x hx
    by_cases hq : c = '"'
    · subst hq
      refine pushed (by simp) ?_
      simp [dataItems, Text.insideQuotes_append_quote]
    · by_cases hs : (c = ':' && !Text.insideQuotes lead) = true
      · have hclosed : c = ':' ∧ Text.insideQuotes lead = false := by simpa using hs
        have hd : dataItems (Text.insideQuotes lead) (c :: rest) = [] := by simp [dataItems, hclosed]
        rw [hd]
        refine ⟨c :: rest, rfl, by simp, fun x hx => ?_⟩
        obtain rfl : c = x := by simpa using hx
        simpa using hclosed
      · refine pushed (by simpa using hs) ?_
        rw [dataItems, if_neg hq, if_neg hs, Text.insideQuotes_append_other hq]

/-- Whether a character can stand in a word. -/
def isInner (x : Char) : Bool := x != ' ' && x != '\t' && x != '"' && x != '\''

theorem isInner_iff : isInner x = true ↔ x ≠ ' ' ∧ x ≠ '\t' ∧ x ≠ '"' ∧ x ≠ '\'' := by
  simp [isInner, and_assoc]

theorem mem_of_not_isInner (h : ¬isInner x = true) : x ∈ [' ', '\t', '"', '\''] := by
  rw [isInner_iff] at h
  simp only [List.mem_cons, List.not_mem_nil, or_false]
  by_contra hnone
  simp only [not_or] at hnone
  exact h hnone

theorem Keyword.inner {w : Text} (h : Keyword d w) : ∀ x ∈ w, isInner x = true := by
  intro x hx
  have hall : ∀ w ∈ d.reservedWords, w.all isInner = true := by
    rw [reservedWords_spelled]
    cases d <;> decide +kernel
  have hmem : Text.upperChar x ∈ Text.upper w := List.mem_map_of_mem hx
  have hupper := List.all_eq_true.1 (hall _ (List.contains_iff_mem.1 h.2.2.2)) _ hmem
  by_contra hout
  have hstay : [' ', '\t', '"', '\''].all (fun x => !isInner (Text.upperChar x)) = true := by decide
  simpa [hupper] using List.all_eq_true.1 hstay x (mem_of_not_isInner hout)

theorem number_inner {v : Text} (h : d.classify v = some .number) : ∀ x ∈ v, isInner x = true := by
  intro x hx
  by_contra hout
  have hmark := mem_of_not_isInner hout
  rcases accepts_number h with ha | ha
  · have hnone : [' ', '\t', '"', '\''].all (fun x => !Grammar.isNumeralSign d.numberForm x) = true := by
      cases d <;> decide
    simpa [Grammar.isDecimal_signs ha x hx] using List.all_eq_true.1 hnone x hmark
  · have hnone : [' ', '\t', '"', '\''].all (fun x => x != '&' && d.numberForm.bases.all fun b =>
        !Grammar.isOneOf [b.1] x && !Grammar.isOneOf b.2 x) = true := by
      cases d <;> decide
    have hx' := List.all_eq_true.1 hnone x hmark
    rw [Bool.and_eq_true, List.all_eq_true] at hx'
    rcases Grammar.isBased_chars ha hx with rfl | ⟨b, hb, hlead | hdigit⟩
    · simp at hx'
    · simpa [hlead] using hx'.2 b hb
    · simpa [hdigit] using hx'.2 b hb

theorem numberLength_number (read : Text) (best : Nat) (t : Text) :
    numberLength d read best t = best ∨ ∃ n ≤ t.length, numberLength d read best t = read.length + n ∧
      d.classify (read ++ t.take n) = some .number := by
  induction t generalizing read best with
  | nil => exact .inl rfl
  | cons c rest ih =>
    -- a number that is read further on starts with `c`
    have longer (best' : Nat) (h : numberLength d read best (c :: rest) = numberLength d (read ++ [c]) best' rest)
        (hb : best' = best ∨ (best' = read.length + 1 ∧ d.classify (read ++ [c]) = some .number)) :
        numberLength d read best (c :: rest) = best ∨ ∃ n ≤ (c :: rest).length,
          numberLength d read best (c :: rest) = read.length + n ∧
            d.classify (read ++ (c :: rest).take n) = some .number := by
      rw [h]
      rcases ih (read ++ [c]) best' with he | ⟨n, hn, he, hk⟩
      · rw [he]
        refine hb.imp_right fun hb => ⟨1, by simp, hb.1, ?_⟩
        simpa using hb.2
      · refine .inr ⟨n + 1, by simpa using hn, ?_, ?_⟩
        · rw [he, List.length_append, List.length_singleton]
          omega
        · simpa using hk
    rw [numberLength_cons] at *
    split
    · exact .inl rfl
    · rename_i hgo
      rw [if_neg hgo] at longer
      split <;> rename_i hk
      · rw [hk] at longer
        exact longer _ rfl (.inr ⟨rfl, rfl⟩)
      · rw [hk] at longer
        exact longer _ rfl (.inl rfl)
      · rw [hk] at longer
        exact longer _ rfl (.inl rfl)
      · exact .inl rfl

theorem word_inner (hc : isInner c = true) (rest : Text) :
    ∀ x ∈ c :: rest.take (word d c rest).2, isInner x = true := by
  unfold word
  dsimp only
  generalize hn : (if (c.isDigit || c == '.' || c == '&') = true then
    numberLength d [] 0 (c :: rest) else 0) = number
  split
  · rename_i hkey
    have hall := (keyword_of_pos hkey).2.inner
    rwa [← Nat.sub_add_cancel hkey, List.take_succ_cons] at hall
  · split
    · rename_i hnum
      split at hn
      · rcases @numberLength_number d [] 0 (c :: rest) with he | ⟨n, -, he, hk⟩
        · omega
        · obtain rfl : number = n := by simpa [he] using hn.symm
          have hall := number_inner hk
          rwa [List.nil_append, ← Nat.sub_add_cancel hnum, List.take_succ_cons] at hall
      · omega
    · split
      · refine List.forall_mem_cons.2 ⟨hc, fun x hx => ?_⟩
        have hname := typedLength_chars d rest x hx
        have hnone : [' ', '\t', '"', '\''].all (fun x => !(x.isAlphanum || Grammar.isTypeSigil x)) = true := by
          decide
        by_contra hout
        have hout := List.all_eq_true.1 hnone x (mem_of_not_isInner hout)
        rcases hname with hname | hname <;> simp [hname] at hout
      · simpa using hc

/-- Whether a text is a line of parts, and the pieces that are read are theirs. -/
def Parted (d : Dialect) (text : Text) : Prop :=
  ∃ parts, Parts d parts ∧ parts.flatMap Part.source = text ∧
    ∀ gap, scan d gap text = partPieces gap parts

section Parted

variable {d : Dialect} {c : Char} {rest : Text}

end Parted

end Piece

end ClassicBasic
