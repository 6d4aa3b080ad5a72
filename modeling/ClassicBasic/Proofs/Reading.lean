import ClassicBasic.Proofs.Words
import Mathlib.Data.List.Infix

/-!
# Reading step by step

Where no blank stands, the reader of a classic line takes one step: a string, a remark, DATA with its
items, or a word. What it reads are kinds and texts; a blank makes no difference to them in front of
a step, nor around the items of DATA. Everywhere else it would.
-/

set_option autoImplicit false

namespace ClassicBasic

open Render (StartsBlank)

namespace Text

theorem trimEnd_append_cons {p : Char → Bool} {c : Char} (h : p c = false) (s t : Text) :
    trimEnd p (s ++ c :: t) = s ++ c :: trimEnd p t := by
  unfold trimEnd
  rw [List.reverse_append, List.reverse_cons, List.append_assoc, List.dropWhile_append]
  split
  · rename_i hnil
    simp [List.isEmpty_iff.1 hnil, h]
  · simp

theorem length_trimEnd_le (p : Char → Bool) (t : Text) : (trimEnd p t).length ≤ t.length := by
  have := (List.dropWhile_suffix (l := t.reverse) p).length_le
  simpa [trimEnd] using this

end Text

namespace Piece

variable {d : Dialect} {c : Char} {rest z : Text}

abbrev Face := Kind × Text

/-- What a piece is read as, wherever blanks stand. -/
def face (p : Piece) : Face := (p.kind, p.text)

/-- The pieces that the reader makes of a text. -/
def reading (d : Dialect) (text : Text) : List Face := (scan d false text).map face

def isGap (c : Char) : Bool := c = ' ' || c = '\t'

structure Step where
  faces : List Face
  /-- What is left at the places inside the step where a blank makes no difference. -/
  pauses : List Text := []
  /-- What is left behind the step. -/
  left : Text
  deriving DecidableEq, Repr

def noted (mark text : Text) : List Face :=
  (.remark, mark) :: if text = [] then [] else [(.remarkText, text)]

/-- The items of DATA, without blanks around them. -/
def fielded (items : Text) : List Face :=
  if Text.trimBlank items = [] then [] else [(.dataField, Text.trimBlank items)]

/-- What is left in front of the text `left` at the places among the blanks around `items`. -/
def edges (items left : Text) : List Text :=
  (items.tails.filter fun q =>
    q.all Text.isBlank || (items.take (items.length - q.length)).all Text.isBlank).map (· ++ left)

/-- The step of the reader on the text `c :: rest`. -/
def step (d : Dialect) (c : Char) (rest : Text) : Step :=
  if c = '"' then
    let body := rest.takeWhile (· != '"')
    let left := rest.drop body.length
    { faces := [(.string, c :: body ++ left.take 1)], left := left.drop 1 }
  else if remarkSign = [c] then { faces := noted [c] rest, left := [] }
  else if startsWith "REM" (c :: rest) then
    { faces := noted (c :: rest.take 2) (rest.drop 2), left := [] }
  else if startsWith "DATA" (c :: rest) then
    let items := dataItems false (rest.drop 3)
    let left := (rest.drop 3).drop items.length
    { faces := (.data, c :: rest.take 3) :: fielded items, pauses := edges items left, left }
  else
    let found := word d c rest
    { faces := [(found.1, c :: rest.take found.2)], left := rest.drop found.2 }

theorem step_closed (d : Dialect) {body : Text} (hb : '"' ∉ body) (left : Text) :
    step d '"' (body ++ '"' :: left) = { faces := [(.string, '"' :: body ++ ['"'])], left } := by
  have htake : (body ++ '"' :: left).takeWhile (· != '"') = body := by
    rw [List.takeWhile_append_of_pos (fun x hx => by simpa using ne_of_mem_of_not_mem hx hb)]
    simp
  simp [step, htake]

theorem step_unclosed (d : Dialect) {body : Text} (hb : '"' ∉ body) :
    step d '"' body = { faces := [(.string, '"' :: body)], left := [] } := by
  have htake : body.takeWhile (· != '"') = body := by
    rw [List.takeWhile_eq_self_iff]
    exact fun x hx => by simpa using ne_of_mem_of_not_mem hx hb
  simp [step, htake]

def StartsWord (c : Char) (rest : Text) : Prop :=
  c ≠ '"' ∧ c ≠ '\'' ∧ ¬startsWith "REM" (c :: rest) = true ∧ ¬startsWith "DATA" (c :: rest) = true

theorem step_sign (d : Dialect) (rest : Text) :
    step d '\'' rest = { faces := noted "'" rest, left := [] } := by
  simp [step, remarkSign]

theorem step_remark (d : Dialect) (hq : c ≠ '"') (hs : c ≠ '\'')
    (h : startsWith "REM" (c :: rest) = true) :
    step d c rest = { faces := noted (c :: rest.take 2) (rest.drop 2), left := [] } := by
  have hsign : ¬remarkSign = [c] := fun he => hs (List.singleton_inj.1 he).symm
  rw [step, if_neg hq, if_neg hsign, if_pos h]

theorem step_data (d : Dialect) (hq : c ≠ '"') (hs : c ≠ '\'')
    (hr : ¬startsWith "REM" (c :: rest) = true) (h : startsWith "DATA" (c :: rest) = true) :
    step d c rest =
      { faces := (.data, c :: rest.take 3) :: fielded (dataItems false (rest.drop 3))
        pauses := edges (dataItems false (rest.drop 3))
          ((rest.drop 3).drop (dataItems false (rest.drop 3)).length)
        left := (rest.drop 3).drop (dataItems false (rest.drop 3)).length } := by
  have hsign : ¬remarkSign = [c] := fun he => hs (List.singleton_inj.1 he).symm
  rw [step, if_neg hq, if_neg hsign, if_neg hr, if_pos h]

theorem step_word (d : Dialect) (h : StartsWord c rest) :
    step d c rest =
      { faces := [((word d c rest).1, c :: rest.take (word d c rest).2)]
        left := rest.drop (word d c rest).2 } := by
  obtain ⟨hq, hs, hr, hd⟩ := h
  have hsign : ¬remarkSign = [c] := fun he => hs (List.singleton_inj.1 he).symm
  rw [step, if_neg hq, if_neg hsign, if_neg hr, if_neg hd]

theorem step_left_suffix (d : Dialect) (c : Char) (rest : Text) : (step d c rest).left <:+ rest := by
  unfold step
  dsimp only
  split
  · rw [List.drop_drop]
    exact List.drop_suffix _ _
  · split
    · exact List.nil_suffix
    · split
      · exact List.nil_suffix
      · split
        · rw [List.drop_drop]
          exact List.drop_suffix _ _
        · exact List.drop_suffix _ _

theorem step_induction {P : Text → Prop} (d : Dialect) (nil : P [])
    (gap : ∀ c rest, isGap c = true → P rest → P (c :: rest))
    (step : ∀ c rest, isGap c = false → P (step d c rest).left → P (c :: rest)) (t : Text) : P t := by
  induction h : t.length using Nat.strong_induction_on generalizing t with
  | _ n ih =>
    subst h
    cases t with
    | nil => exact nil
    | cons c rest =>
      cases hc : isGap c with
      | true => exact gap c rest hc (ih rest.length (by simp) rest rfl)
      | false =>
        have hlen := (step_left_suffix d c rest).length_le
        exact step c rest hc (ih _ (by simp; omega) _ rfl)

theorem map_face_scan (d : Dialect) (gap : Bool) (t : Text) : (scan d gap t).map face = reading d t := by
  unfold reading
  cases t with
  | nil => simp [scan]
  | cons c rest =>
    rw [scan, scan]
    split
    · rfl
    · split
      · rfl
      · split
        · rfl
        · split
          · rfl
          · split <;> rfl

@[simp]
theorem reading_nil (d : Dialect) : reading d [] = [] := by simp [reading, scan]

/-- The pieces of a step, behind a blank if `gap`; only items of DATA have a gap of their own. -/
def pieces (gap : Bool) : List Face → List Piece
  | [] => []
  | f :: more =>
    { kind := f.1, text := f.2, gap } ::
      more.map fun f => { kind := f.1, text := f.2, gap := f.1 == .dataField }

theorem map_face_pieces (gap : Bool) (faces : List Face) : (pieces gap faces).map face = faces := by
  cases faces with
  | nil => rfl
  | cons f more => simp [pieces, face, Function.comp_def]

theorem scan_nil (d : Dialect) (gap : Bool) : scan d gap [] = [] := by rw [scan]

theorem scan_gap (h : isGap c = true) (gap : Bool) (rest : Text) :
    scan d gap (c :: rest) = scan d true rest := by
  have hc : (c = ' ' || c = '\t') = true := h
  rw [scan, if_pos hc]

theorem scan_step (h : isGap c = false) (gap : Bool) (rest : Text) :
    scan d gap (c :: rest) =
      pieces gap (step d c rest).faces ++ scan d false (step d c rest).left := by
  have hc : ¬(c = ' ' || c = '\t') = true := by simpa [isGap] using h
  have hnoted (mark text : Text) : remark mark text gap = pieces gap (noted mark text) := by
    unfold remark noted
    split <;> rfl
  rw [scan, if_neg hc]
  unfold step
  dsimp only
  split
  · rfl
  · split
    · rw [hnoted, scan_nil, List.append_nil]
    · split
      · rw [hnoted, scan_nil, List.append_nil]
      · split
        · simp only [fielded]
          split <;> simp [pieces]
        · rfl

theorem reading_gap (h : isGap c = true) (rest : Text) : reading d (c :: rest) = reading d rest := by
  rw [← map_face_scan d true rest, reading, scan_gap h]

theorem reading_step (h : isGap c = false) (rest : Text) :
    reading d (c :: rest) = (step d c rest).faces ++ reading d (step d c rest).left := by
  rw [reading, scan_step h, List.map_append, map_face_pieces]
  rfl

/-- What is left of a text at the places where a blank makes no difference to what is read. -/
def rests (d : Dialect) (text : Text) : List Text :=
  text ::
    match text with
    | [] => []
    | c :: rest =>
      if isGap c then rests d rest
      else (step d c rest).pauses ++ rests d (step d c rest).left
termination_by text.length
decreasing_by
  · simp
  · have := (step_left_suffix d c rest).length_le
    simp
    omega

theorem rests_nil (d : Dialect) : rests d [] = [[]] := by rw [rests]

theorem rests_gap (h : isGap c = true) (rest : Text) :
    rests d (c :: rest) = (c :: rest) :: rests d rest := by
  rw [rests]
  simp [h]

theorem rests_step (h : isGap c = false) (rest : Text) :
    rests d (c :: rest) =
      (c :: rest) :: ((step d c rest).pauses ++ rests d (step d c rest).left) := by
  rw [rests]
  simp [h]

theorem mem_rests_self (d : Dialect) (t : Text) : t ∈ rests d t := by
  rw [rests.eq_def]
  exact List.mem_cons_self

theorem mem_edges_iff {items left x : Text} : x ∈ edges items left ↔
    ∃ p q, items = p ++ q ∧ x = q ++ left ∧
      (q.all Text.isBlank = true ∨ p.all Text.isBlank = true) := by
  unfold edges
  simp only [List.mem_map, List.mem_filter, List.mem_tails, Bool.or_eq_true]
  constructor
  · rintro ⟨q, ⟨⟨p, rfl⟩, hb⟩, rfl⟩
    refine ⟨p, q, rfl, rfl, hb.imp_right fun hp => ?_⟩
    simpa using hp
  · rintro ⟨p, q, rfl, rfl, hb⟩
    refine ⟨q, ⟨⟨p, rfl⟩, hb.imp_right fun hp => ?_⟩, rfl⟩
    simpa using hp

theorem isPrefix_dataItems (inside : Bool) (t : Text) : dataItems inside t <+: t := by
  induction t generalizing inside with
  | nil => exact List.prefix_refl _
  | cons c rest ih =>
    simp only [dataItems]
    split
    · exact (List.prefix_cons_inj _).2 (ih _)
    · split
      · exact List.nil_prefix
      · exact (List.prefix_cons_inj _).2 (ih _)

theorem edges_suffix {t x : Text}
    (h : x ∈ edges (dataItems false t) (t.drop (dataItems false t).length)) : x <:+ t := by
  obtain ⟨p, q, hpq, rfl, -⟩ := mem_edges_iff.1 h
  refine ⟨p, ?_⟩
  rw [← List.append_assoc, ← hpq]
  exact List.prefix_iff_eq_append.1 (isPrefix_dataItems false t)

/-- The items of DATA end in front of a separator, or they go on in what is put behind them. -/
theorem dataItems_append (inside : Bool) (t more : Text) :
    (∃ left, t = dataItems inside t ++ ':' :: left ∧
        dataItems inside (t ++ more) = dataItems inside t) ∨
      (dataItems inside t = t ∧ ∃ i, dataItems inside (t ++ more) = t ++ dataItems i more) := by
  induction t generalizing inside with
  | nil => exact .inr ⟨rfl, inside, rfl⟩
  | cons c rest ih =>
    have more (i : Bool) :
        (∃ left, c :: rest = c :: dataItems i rest ++ ':' :: left ∧
          c :: dataItems i (rest ++ more) = c :: dataItems i rest) ∨
        (c :: dataItems i rest = c :: rest ∧
          ∃ j, c :: dataItems i (rest ++ more) = c :: rest ++ dataItems j more) := by
      rcases ih i with ⟨left, ht, he⟩ | ⟨ht, j, he⟩
      · refine .inl ⟨left, ?_, by rw [he]⟩
        rw [List.cons_append, ← ht]
      · exact .inr ⟨by rw [ht], j, by rw [he, List.cons_append]⟩
    simp only [List.cons_append, dataItems]
    by_cases hq : c = '"'
    · simp only [if_pos hq]
      exact more (!inside)
    · simp only [if_neg hq]
      by_cases hs : (c = ':' && !inside) = true
      · simp only [if_pos hs]
        have hc : c = ':' ∧ inside = false := by simpa using hs
        exact .inl ⟨rest, by rw [hc.1]; rfl, trivial⟩
      · simp only [if_neg hs]
        exact more inside

theorem startsWith_iff {w t : Text} : startsWith w t = true ↔ Text.upper (t.take w.length) = w := by
  unfold startsWith
  exact beq_iff_eq

/-- A word that starts a text is as long in the text as in capitals. -/
theorem length_of_startsWith {w t : Text} (h : startsWith w t = true) : w.length ≤ t.length := by
  have := congrArg List.length (startsWith_iff.1 h)
  rw [Text.length_upper, List.length_take] at this
  omega

theorem startsWith_of_take {w t t' : Text} (h : startsWith w t = true)
    (he : t'.take w.length = t.take w.length) : startsWith w t' = true := by
  rw [startsWith_iff, he]
  exact startsWith_iff.1 h

theorem blankless_of_startsWith {w t : Text} (hw : ' ' ∉ w) (h : startsWith w t = true) :
    ' ' ∉ t.take w.length := by
  intro hb
  refine hw ?_
  rw [← startsWith_iff.1 h]
  exact List.mem_map.2 ⟨' ', hb, by decide⟩

theorem startsWith_append {w t : Text} (h : startsWith w t = true) (more : Text) :
    startsWith w (t ++ more) = true := by
  rw [startsWith_iff, List.take_append_of_le_length (length_of_startsWith h)]
  exact startsWith_iff.1 h

theorem startsWith_append_blank {w : Text} (hw : ' ' ∉ w) (hz : StartsBlank z) (t : Text) :
    startsWith w (t ++ z) = startsWith w t := by
  rw [Bool.eq_iff_iff]
  refine ⟨fun h => ?_, fun h => startsWith_append h z⟩
  rcases hz with rfl | ⟨more, rfl⟩
  · rwa [List.append_nil] at h
  · rcases Nat.lt_or_ge t.length w.length with hlt | hle
    · refine absurd ?_ hw
      rw [← startsWith_iff.1 h]
      refine List.mem_map.2 ⟨' ', ?_, by decide⟩
      rw [List.take_append, List.mem_append]
      obtain ⟨n, hn⟩ := Nat.exists_eq_add_of_lt hlt
      right
      rw [show w.length - t.length = n + 1 by omega, List.take_succ_cons]
      exact List.mem_cons_self
    · rw [startsWith_iff, List.take_append_of_le_length hle] at h
      exact startsWith_iff.2 h

theorem rests_suffix (d : Dialect) (t : Text) : ∀ x ∈ rests d t, x <:+ t := by
  induction t using step_induction d with
  | nil => simp [rests_nil]
  | gap c rest hc ih =>
    intro x hx
    rw [rests_gap hc, List.mem_cons] at hx
    rcases hx with rfl | hx
    · exact List.suffix_refl _
    · exact (ih x hx).trans (List.suffix_cons c rest)
  | step c rest hc ih =>
    intro x hx
    rw [rests_step hc, List.mem_cons, List.mem_append] at hx
    rcases hx with rfl | hx | hx
    · exact List.suffix_refl _
    · refine List.IsSuffix.trans ?_ (List.suffix_cons c rest)
      unfold step at hx
      dsimp only at hx
      split at hx
      · cases hx
      · split at hx
        · cases hx
        · split at hx
          · cases hx
          · split at hx
            · exact (edges_suffix hx).trans (List.drop_suffix 3 rest)
            · cases hx
    · exact (ih x hx).trans ((step_left_suffix d c rest).trans (List.suffix_cons c rest))

/-- Blanks, and signs that literals start with or names end with. -/
def plainSigns : Text := [' ', '\t', '"', '\'', '%', '!', '#', '$']

theorem reserved_plain (d : Dialect) : ∀ w ∈ d.reservedWords,
    w.head?.any (· ∈ plainSigns) = false ∧ (w.take 4 = "DATA" → w.length = 4) := by
  rw [Dialect.reservedWords_spelled]
  cases d <;> decide +kernel

/-- No keyword starts with a blank or a sign of literals and names. -/
theorem Keyword.head {w : Text} (h : Keyword d (c :: w)) : c ∉ plainSigns := by
  intro hc
  have hhead := (reserved_plain d _ (List.contains_iff_mem.1 h.2.2.2)).1
  have hsame : plainSigns.all (fun x => Text.upperChar x == x) = true := by decide
  simp only [Text.upper, List.map_cons, List.head?_cons, Option.any_some, decide_eq_false_iff_not,
    beq_iff_eq.1 (List.all_eq_true.1 hsame c hc)] at hhead
  exact hhead hc

theorem keyword_head {t : Text} (h : 0 < keywordLength d (c :: t)) : c ∉ plainSigns := by
  obtain ⟨-, hk⟩ := keyword_of_pos h
  obtain ⟨n, hn⟩ := Nat.exists_eq_add_of_lt h
  rw [Nat.zero_add] at hn
  rw [hn, List.take_succ_cons] at hk
  exact hk.head

/-- A keyword in front of a place where a blank makes no difference ends in front of it. -/
theorem uncut_of_mem_rests {y : Text} (h : z ∈ rests d (y ++ z)) : Uncut d y z := by
  intro hy hkey
  obtain ⟨c, y, rfl⟩ := List.exists_cons_of_ne_nil hy
  rw [List.cons_append] at h hkey
  suffices hle : keywordLength d ((c :: y) ++ z) ≤ (c :: y).length by
    rw [keywordLength_cut (c :: y) z hle]
    exact hkey
  rw [List.cons_append]
  obtain ⟨hlen, hk⟩ := keyword_of_pos hkey
  have hc := keyword_head hkey
  have hgap : isGap c = false := by
    rw [Bool.eq_false_iff]
    intro hg
    rcases (by simpa [isGap] using hg : c = ' ' ∨ c = '\t') with rfl | rfl <;>
      exact absurd hc (by decide)
  rw [rests_step hgap, List.mem_cons, List.mem_append] at h
  rcases h with h | h
  · have := congrArg List.length h
    simp only [List.length_cons, List.length_append] at this
    omega
  · have hsuffix := rests_suffix d (step d c (y ++ z)).left z
    unfold step at h hsuffix
    dsimp only at h hsuffix
    split at h
    · rename_i hq
      exact absurd hc (by rw [hq]; decide)
    · split at h
      · rename_i hq
        exact absurd hc (by rw [← List.singleton_inj.1 hq]; decide)
      · split at h
        · -- nothing but the end is left of a remark
          simp only [List.not_mem_nil, rests_nil, List.mem_singleton, false_or] at h
          rw [h, List.append_nil] at hlen
          exact h ▸ (by simpa using hlen)
        · split at h
          · rename_i hdata
            have hz : z.length ≤ ((y ++ z).drop 3).length :=
              h.elim (fun h => (edges_suffix h).length_le)
                (fun h => ((rests_suffix d _ z h).trans (List.drop_suffix _ _)).length_le)
            have hfour : 4 ≤ (c :: (y ++ z)).length := length_of_startsWith hdata
            simp only [List.length_drop, List.length_append, List.length_cons] at hz hfour
            -- the word that starts with DATA is DATA
            by_contra hgt
            simp only [List.length_cons] at hgt
            have hword := (reserved_plain d _ (List.contains_iff_mem.1 hk.2.2.2)).2 (by
              rw [← startsWith_iff.1 hdata, Text.upper, ← List.map_take, List.take_take,
                Nat.min_eq_left (by omega)]
              rfl)
            rw [Text.length_upper, List.length_take_of_le hlen] at hword
            omega
          · have hz : z.length ≤ ((y ++ z).drop (keywordLength d (c :: (y ++ z)) - 1)).length := by
              have hword : (word d c (y ++ z)).2 = keywordLength d (c :: (y ++ z)) - 1 := by
                simp only [word, if_pos hkey]
              rw [← hword]
              exact (rests_suffix d _ z (by simpa using h)).length_le
            simp only [List.length_drop, List.length_append, List.length_cons] at hz hlen ⊢
            omega

theorem uncut_of_mem_rests_base {y : Text} {e : Char} (he : e ∈ baseLetters)
    (hkey : keywordLength d (e :: (y ++ z)) = 0) (h : z ∈ rests d (e :: (y ++ z))) :
    Uncut d y z := by
  intro hy hnext
  have hletters : baseLetters.all (fun e => decide (isGap e = false ∧ e ≠ '"' ∧ e ≠ '\'' ∧
      e.isAlphanum = true ∧ (e.isDigit || e == '.' || e == '&') = false ∧
      ∀ w ∈ Text.ofStrings ["REM", "DATA"], w.head? ≠ some (Text.upperChar e))) = true := by
    decide
  obtain ⟨hgap, hquote, hsign, halnum, hnumber, hwords⟩ :=
    of_decide_eq_true (List.all_eq_true.1 hletters e he)
  have hstarts {w : Text} (hw : w ∈ Text.ofStrings ["REM", "DATA"]) :
      ¬startsWith w (e :: (y ++ z)) = true := by
    intro hs
    have hne : ∀ w ∈ Text.ofStrings ["REM", "DATA"], w ≠ [] := by decide
    refine hwords w hw ?_
    rw [← startsWith_iff.1 hs]
    obtain ⟨x, w, rfl⟩ := List.exists_cons_of_ne_nil (hne w hw)
    rfl
  have hname : typedLength d (y ++ z) = 0 := by
    obtain ⟨f, y, rfl⟩ := List.exists_cons_of_ne_nil hy
    rw [List.cons_append] at hnext ⊢
    have hf := keyword_head hnext
    rw [typedLength_cons, if_neg (fun hgo => Nat.ne_of_gt hnext hgo.2), if_neg]
    intro hs
    simp only [Grammar.isTypeSigil, Bool.or_eq_true, beq_iff_eq] at hs
    rcases hs with ((rfl | rfl) | rfl) | rfl <;> exact absurd hf (by decide)
  have hstep : step d e (y ++ z) = { faces := [(.identifier, [e])], left := y ++ z } := by
    have hword : word d e (y ++ z) = (.identifier, 0) := by
      simp [word, hkey, hnumber, halnum, hname]
    have hremark : ¬remarkSign = [e] := fun hs => hsign (List.singleton_inj.1 hs).symm
    unfold step
    rw [if_neg hquote, if_neg hremark, if_neg (hstarts (by simp [Text.ofStrings])),
      if_neg (hstarts (by simp [Text.ofStrings])), hword]
    rfl
  refine uncut_of_mem_rests ?_ hy hnext
  rw [rests_step hgap, hstep, List.mem_cons] at h
  rcases h with h | h
  · have := congrArg List.length h
    simp only [List.length_cons, List.length_append] at this
    omega
  · simpa using h

/-- A word in front of a place where a blank makes no difference is read the same when the text is
cut off there. -/
theorem word_cut_of_mem_rests {y u : Text} {k : Kind} (hz : z ∈ rests d (y ++ z))
    (h : word d c (u ++ (y ++ z)) = (k, u.length)) : word d c (u ++ y) = (k, u.length) :=
  word_cut (uncut_of_mem_rests hz) (fun _ _ _ hy he hkey => by
    subst hy
    exact uncut_of_mem_rests_base he hkey hz) h

end Piece

end ClassicBasic
