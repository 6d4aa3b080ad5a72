import ClassicBasic.Proofs.Reading
import ClassicBasic.Proofs.Rendering
import ClassicBasic.Proofs.Sealed

/-!
# The report of labels is read as a remark

The report puts a remark behind a line once the line is written. The reader takes it for one unless
the line ends in something that goes on to the end of the line: DATA, or a string that is not closed.
-/

set_option autoImplicit false

namespace ClassicBasic

open Render (StartsBlank)

namespace Dialect

variable {d : Dialect}

theorem data_rule (d : Dialect) :
    ∀ r ∈ d.grammar, r.kind = .data → r.shape = .words ["DATA"] [] := by
  cases d <;> decide

theorem upper_of_classify_data {w : Text} (h : d.classify w = some .data) :
    Text.upper w = "DATA" := by
  obtain ⟨r, hr, hk, ha⟩ := classify_rule h
  rw [data_rule d r hr hk] at ha
  simp only [Shape.accepts, List.any_cons, List.any_nil, Bool.or_false] at ha
  rw [Text.sameLetters_eq, beq_iff_eq] at ha
  have hletter (x : Char) (hx : x ∈ ['d', 'a', 't']) {c : Char} (hc : x = Text.foldChar c) :
      Text.upperChar c = Text.upperChar x := by
    have hplain : ['d', 'a', 't'].all Text.isInward = true := by decide
    have hascii := Text.ascii_of_foldChar hc.symm (List.all_eq_true.1 hplain x hx)
    have hall : ∀ n < 0x80, (Char.ofNat n).toLower ∈ ['d', 'a', 't'] →
        Text.upperChar (Char.ofNat n) = Text.upperChar (Char.ofNat n).toLower := by decide
    rw [Text.foldChar, if_pos hascii] at hc
    subst hc
    rw [← Char.ofNat_toNat c] at hx ⊢
    exact hall _ hascii hx
  have hword : Text.fold "DATA" = ['d', 'a', 't', 'a'] := by decide
  rw [hword] at ha
  unfold Text.fold at ha
  obtain ⟨c1, w1, rfl, h1, ha⟩ := List.map_eq_cons_iff.1 ha.symm
  obtain ⟨c2, w2, rfl, h2, ha⟩ := List.map_eq_cons_iff.1 ha
  obtain ⟨c3, w3, rfl, h3, ha⟩ := List.map_eq_cons_iff.1 ha
  obtain ⟨c4, w4, rfl, h4, ha⟩ := List.map_eq_cons_iff.1 ha
  obtain rfl := List.map_eq_nil_iff.1 ha
  simp only [Text.upper, List.map_cons, List.map_nil, hletter 'd' (by simp) h1.symm,
    hletter 'a' (by simp) h2.symm, hletter 't' (by simp) h3.symm, hletter 'a' (by simp) h4.symm]
  decide

end Dialect

namespace Piece

variable {d : Dialect} {c : Char} {rest v : Text} {gap : Bool} {r r' : List Piece}

/-- Whether a piece goes on to the end of the line whatever is written there. -/
def Open (p : Piece) : Prop :=
  p.kind = .data ∨ p.kind = .dataField ∨ (p.kind = .string ∧ ¬Enclosed p.text)

instance (p : Piece) : Decidable p.Open := inferInstanceAs (Decidable (_ ∨ _))

/-- Whether the last piece of a line is open. -/
def EndsOpen (r : List Piece) : Prop := ∃ p ∈ r.getLast?, p.Open

instance (r : List Piece) : Decidable (EndsOpen r) :=
  inferInstanceAs (Decidable (∃ p ∈ r.getLast?, p.Open))

/-- Whether two lines are read alike, but for a remark at the end of the second one or more text in
the remark that both end with. -/
inductive Remarked : List Piece → List Piece → Prop
  | same (r : List Piece) : Remarked r r
  | added (r : List Piece) {mark text : Piece} (hm : mark.kind = .remark)
      (ht : text.kind = .remarkText) : Remarked r (r ++ [mark, text])
  | started (r : List Piece) {mark text : Piece} (hm : mark.kind = .remark)
      (ht : text.kind = .remarkText) : Remarked (r ++ [mark]) (r ++ [mark, text])
  | longer (r : List Piece) {text : Piece} (more : Text) (ht : text.kind = .remarkText) :
      Remarked (r ++ [text]) (r ++ [{ text with text := text.text ++ more }])

theorem Remarked.prepend (front : List Piece) (h : Remarked r r') :
    Remarked (front ++ r) (front ++ r') := by
  cases h with
  | same => exact .same _
  | added _ hm ht => simpa using Remarked.added (front ++ r) hm ht
  | started r hm ht => simpa using Remarked.started (front ++ r) hm ht
  | longer r more ht => simpa using Remarked.longer (front ++ r) more ht

theorem endsOpen_append (front : List Piece) (h : r ≠ []) : EndsOpen (front ++ r) ↔ EndsOpen r := by
  rw [EndsOpen, EndsOpen, List.getLast?_append_of_ne_nil _ h]

inductive Overgrown : List Piece → List Piece → Prop
  | string {p : Piece} {more : Text} (rest : List Piece) (hk : p.kind = .string)
      (ho : ¬Enclosed p.text) (hm : more ≠ []) :
      Overgrown [p] ({ p with text := p.text ++ more } :: rest)
  | data {p f : Piece} (rest : List Piece) (hk : p.kind = .data) (hf : f.kind = .dataField) :
      Overgrown [p] (p :: f :: rest)
  | field {p f f' : Piece} (rest : List Piece) (hf : f.kind = .dataField)
      (hf' : f'.kind = .dataField) (hne : f ≠ f') : Overgrown [p, f] (p :: f' :: rest)

theorem Overgrown.ne_nil (h : Overgrown r r') : r ≠ [] := by
  rintro rfl
  cases h

theorem Overgrown.endsOpen (h : Overgrown r r') : EndsOpen r := by
  cases h with
  | string rest hk ho hm => exact ⟨_, rfl, .inr (.inr ⟨hk, ho⟩)⟩
  | data rest hk hf => exact ⟨_, rfl, .inl hk⟩
  | field rest hf hf' hne => exact ⟨_, rfl, .inr (.inl hf)⟩

theorem Remarked.eq_or_added (h : Remarked r r') (ho : EndsOpen r) :
    r' = r ∨ ∃ mark text, mark.kind = .remark ∧ r' = r ++ [mark, text] := by
  obtain ⟨p, hp, hopen⟩ := ho
  cases h with
  | same => exact .inl rfl
  | added _ hm ht => exact .inr ⟨_, _, hm, rfl⟩
  | started r hm ht =>
    obtain rfl : _ = p := by simpa using hp
    simp [Open, hm] at hopen
  | longer r more ht =>
    obtain rfl : _ = p := by simpa using hp
    simp [Open, ht] at hopen

theorem Overgrown.not_remarked (front : List Piece) (h : Overgrown r r') :
    ¬Remarked (front ++ r) (front ++ r') := by
  intro hr
  have hne := h.ne_nil
  have hsame : r' = r ∨ ∃ mark text, mark.kind = .remark ∧ r' = r ++ [mark, text] := by
    rcases hr.eq_or_added ((endsOpen_append front hne).2 h.endsOpen) with he | ⟨mark, text, hm, he⟩
    · exact .inl (List.append_cancel_left he)
    · rw [List.append_assoc] at he
      exact .inr ⟨mark, text, hm, List.append_cancel_left he⟩
  cases h with
  | @string p more rest hk ho hm =>
    have hlen : (p.text ++ more).length ≠ p.text.length := by
      have := List.length_pos_iff.2 hm
      rw [List.length_append]
      omega
    rcases hsame with he | ⟨mark, text, -, he⟩
    · exact hlen (congrArg (fun r => (r.headD p).text.length) he)
    · exact hlen (congrArg (fun r => (r.headD p).text.length) he)
  | @data p f rest hk hf =>
    rcases hsame with he | ⟨mark, text, hm, he⟩
    · simp at he
    · obtain ⟨-, rfl, -⟩ : p = p ∧ f = mark ∧ rest = [text] := by simpa using he
      simp [hf] at hm
  | @field p f f' rest hf hf' hne' =>
    rcases hsame with he | ⟨mark, text, hm, he⟩
    · exact hne' (List.cons.inj (List.cons.inj he).2).1.symm
    · exact hne' (List.cons.inj (List.cons.inj he).2).1.symm

/-- What the report puts behind a line that says `v` about its labels. -/
def reported (v : Text) : Text := " '" ++ v

theorem reported_startsBlank (v : Text) : StartsBlank (reported v) := .inr ⟨'\'' :: v, rfl⟩

/-- How a step of the reader changes when the report is put behind the text. -/
inductive Lengthened (v : Text) : Step → Step → Prop
  /-- The step is over in front of it. -/
  | ended {s s' : Step} (hf : s'.faces = s.faces) (hl : s'.left = s.left ++ reported v)
      (ho : (∀ f ∈ s.faces.getLast?, f.1 ≠ .data ∧ f.1 ≠ .dataField ∧
        (f.1 = .string → Enclosed f.2)) ∨ ∃ more, s.left = ':' :: more) : Lengthened v s s'
  | remark {s s' : Step} {mark text : Text} (hl : s.left = []) (hl' : s'.left = [])
      (hf : s.faces = noted mark text) (hf' : s'.faces = noted mark (text ++ reported v)) :
      Lengthened v s s'
  | string {s s' : Step} {text more : Text} (hl : s.left = []) (hf : s.faces = [(.string, text)])
      (ho : ¬Enclosed text) (hf' : s'.faces = [(.string, text ++ more)]) (hm : more ≠ []) :
      Lengthened v s s'
  | data {s s' : Step} {word items field : Text} (hl : s.left = [])
      (hf : s.faces = (.data, word) :: fielded items) (hf' : s'.faces = [(.data, word), (.dataField, field)])
      (hne : field ≠ Text.trimBlank items) : Lengthened v s s'

theorem not_enclosed_of_not_mem {body : Text} (h : '"' ∉ body) : ¬Enclosed ('"' :: body) := by
  rintro ⟨hlen, -, hlast⟩
  have hne : body ≠ [] := by
    rintro rfl
    simp at hlen
  rw [List.getLast?_cons_of_ne_nil hne] at hlast
  exact h (List.mem_of_getLast? hlast)

theorem enclosed_quoted (body : Text) : Enclosed ('"' :: body ++ ['"']) := by
  refine ⟨by simp, rfl, ?_⟩
  rw [List.getLast?_append_of_ne_nil _ (by simp)]
  rfl

/-- With the report behind them, the items of DATA that go on to the end of the line say more. -/
theorem length_trimBlank_lt (t w : Text) :
    (Text.trimBlank t).length < (Text.trimBlank (t ++ ' ' :: '\'' :: w)).length := by
  have hquote : Text.isBlank '\'' = false := by decide
  unfold Text.trimBlank Text.trimBoth
  rw [List.dropWhile_append]
  split
  · rename_i hnil
    rw [List.isEmpty_iff.1 hnil, List.dropWhile_cons_of_pos (by decide),
      List.dropWhile_cons_of_neg (by decide), ← List.nil_append ('\'' :: w),
      Text.trimEnd_append_cons hquote]
    simp [Text.trimEnd]
  · rw [show (t.dropWhile Text.isBlank) ++ ' ' :: '\'' :: w =
      (t.dropWhile Text.isBlank ++ [' ']) ++ '\'' :: w by simp, Text.trimEnd_append_cons hquote]
    have := Text.length_trimEnd_le Text.isBlank (t.dropWhile Text.isBlank)
    simp only [List.length_append, List.length_cons]
    omega

theorem word_kind (h : ¬startsWith "DATA" (c :: rest) = true) :
    (word d c rest).1 ≠ .data ∧ (word d c rest).1 ≠ .dataField ∧ (word d c rest).1 ≠ .string := by
  unfold word
  dsimp only
  generalize (if (c.isDigit || c == '.' || c == '&') = true then
      numberLength d [] 0 (c :: rest) else 0) = number
  split
  · rename_i hpos
    obtain ⟨hle, hk⟩ := keyword_of_pos hpos
    cases hc : d.classify ((c :: rest).take (keywordLength d (c :: rest))) with
    | none => simp
    | some k =>
      have hread := Dialect.isRead_of_classify hc
      refine ⟨?_, ?_, ?_⟩ <;> rintro rfl
      · have hup := Dialect.upper_of_classify_data hc
        have hlen : keywordLength d (c :: rest) = 4 := by
          have := congrArg List.length hup
          rwa [Text.length_upper, List.length_take_of_le hle] at this
        rw [hlen] at hup
        exact h (startsWith_iff.2 hup)
      · cases hread
      · cases hread
  · split
    · simp
    · split
      · simp
      · split <;> simp

theorem step_lengthened (d : Dialect) (c : Char) (rest v : Text) :
    Lengthened v (step d c rest) (step d c (rest ++ reported v)) := by
  have hz := reported_startsBlank v
  by_cases hq : c = '"'
  · subst hq
    by_cases hmem : '"' ∈ rest
    · obtain ⟨body, left, rfl, hb⟩ := List.eq_append_cons_of_mem hmem
      rw [List.append_assoc, List.cons_append, step_closed d hb, step_closed d hb]
      exact .ended rfl rfl (.inl (by simpa using enclosed_quoted body))
    · rw [step_unclosed d hmem]
      by_cases hmore : '"' ∈ reported v
      · obtain ⟨body, left, hbody, hb⟩ := List.eq_append_cons_of_mem hmore
        rw [hbody, ← List.append_assoc, step_closed d (by simp [hmem, hb])]
        exact .string rfl rfl (not_enclosed_of_not_mem hmem) (by simp; rfl) (by simp)
      · rw [step_unclosed d (by simp [hmem, hmore])]
        exact .string rfl rfl (not_enclosed_of_not_mem hmem) rfl (by simp [reported])
  have hrem : startsWith "REM" (c :: (rest ++ reported v)) = startsWith "REM" (c :: rest) :=
    startsWith_append_blank (by decide) hz (c :: rest)
  have hdata : startsWith "DATA" (c :: (rest ++ reported v)) = startsWith "DATA" (c :: rest) :=
    startsWith_append_blank (by decide) hz (c :: rest)
  unfold step
  simp only [hrem, hdata, if_neg hq]
  split
  · exact .remark rfl rfl rfl rfl
  · split
    · rename_i hr
      have hlen : 3 ≤ rest.length + 1 := length_of_startsWith hr
      refine .remark rfl rfl rfl ?_
      rw [List.take_append_of_le_length (by omega), List.drop_append_of_le_length (by omega)]
    · split
      · rename_i hr hd
        have hlen : 4 ≤ rest.length + 1 := length_of_startsWith hd
        rw [List.take_append_of_le_length (by omega), List.drop_append_of_le_length (by omega)]
        rcases dataItems_append false (rest.drop 3) (reported v) with ⟨left, ht, he⟩ | ⟨ht, i, he⟩
        · have hleft : (rest.drop 3).drop (dataItems false (rest.drop 3)).length = ':' :: left :=
            List.append_cancel_left
              ((List.prefix_iff_eq_append.1 (isPrefix_dataItems false _)).trans ht)
          have hle : (dataItems false (rest.drop 3)).length ≤ (rest.drop 3).length :=
            (isPrefix_dataItems false _).length_le
          refine .ended ?_ ?_ (.inr ⟨left, hleft⟩)
          · simp only [he]
          · simp only [he, List.drop_append_of_le_length hle]
        · have hitems : dataItems i (reported v) = ' ' :: '\'' :: dataItems i v := rfl
          have hlonger := length_trimBlank_lt (rest.drop 3) (dataItems i v)
          rw [← hitems, ← he] at hlonger
          have hfield : fielded (dataItems false (rest.drop 3 ++ reported v)) =
              [(.dataField, Text.trimBlank (dataItems false (rest.drop 3 ++ reported v)))] :=
            if_neg fun hnil => by simp [hnil] at hlonger
          refine .data ?_ rfl (by rw [hfield]) fun h => ?_
          · simp only [ht, List.drop_length]
          · rw [h, ht] at hlonger
            exact Nat.lt_irrefl _ hlonger
      · rename_i hr hd
        have hword : word d c (rest ++ reported v) = word d c rest := word_append_blank hz c rest
        have hlen := word_length d c rest
        refine .ended ?_ ?_ (.inl ?_)
        · rw [hword, List.take_append_of_le_length hlen]
        · rw [hword, List.drop_append_of_le_length hlen]
        · obtain ⟨h1, h2, h3⟩ := word_kind (d := d) hd
          simpa using ⟨h1, h2, fun h => absurd h h3⟩

theorem pieces_eq_nil_iff {faces : List Face} : pieces gap faces = [] ↔ faces = [] := by
  cases faces <;> simp [pieces]

theorem step_faces_ne_nil (d : Dialect) (c : Char) (rest : Text) : (step d c rest).faces ≠ [] := by
  unfold step
  dsimp only
  split
  · simp
  · split
    · simp [noted]
    · split
      · simp [noted]
      · split <;> simp

theorem not_endsOpen_pieces {faces : List Face}
    (h : ∀ f ∈ faces.getLast?, f.1 ≠ .data ∧ f.1 ≠ .dataField ∧ (f.1 = .string → Enclosed f.2)) :
    ¬EndsOpen (pieces gap faces) := by
  rintro ⟨p, hp, hopen⟩
  have hface : p.face ∈ faces.getLast? := by
    rw [← map_face_pieces gap faces, List.getLast?_map]
    exact Option.mem_map_of_mem face hp
  obtain ⟨hd, hf, hs⟩ := h _ hface
  rcases hopen with hk | hk | ⟨hk, ho⟩
  · exact hd hk
  · exact hf hk
  · exact ho (hs hk)

theorem noted_over (mark text : Text) : ∀ f ∈ (noted mark text).getLast?,
    f.1 ≠ .data ∧ f.1 ≠ .dataField ∧ (f.1 = .string → Enclosed f.2) := by
  unfold noted
  split <;> simp

theorem remarked_noted (gap : Bool) (mark text : Text) :
    Remarked (pieces gap (noted mark text)) (pieces gap (noted mark (text ++ reported v))) := by
  have hne : text ++ reported v ≠ [] := by simp [reported]
  unfold noted
  rw [if_neg hne]
  split
  · exact .started [] rfl rfl
  · exact .longer [{ kind := .remark, text := mark, gap }] (reported v) rfl

/-- The pieces of a line and of the line with the report behind it differ by a remark at their ends,
or in the open end of the first. -/
theorem scan_reported (d : Dialect) (gap : Bool) (u v : Text) (hv : v ≠ []) :
    (¬EndsOpen (scan d gap u) ∧ Remarked (scan d gap u) (scan d gap (u ++ reported v))) ∨
      ∃ front r r', scan d gap u = front ++ r ∧ scan d gap (u ++ reported v) = front ++ r' ∧
        Overgrown r r' := by
  have hreport (gap : Bool) : scan d gap (reported v) =
      [{ kind := .remark, text := "'", gap := true }, { kind := .remarkText, text := v }] := by
    rw [show reported v = ' ' :: '\'' :: v from rfl, scan_gap rfl, scan_step rfl]
    have hstep : step d '\'' v = { faces := noted "'" v, left := [] } := by
      simp [step, remarkSign]
    rw [hstep, scan_nil, noted, if_neg hv]
    rfl
  induction u using step_induction d generalizing gap with
  | nil =>
    refine .inl ⟨by simp [EndsOpen, scan_nil], ?_⟩
    rw [scan_nil, List.nil_append, hreport]
    exact .added [] rfl rfl
  | gap c rest hc ih =>
    rw [List.cons_append, scan_gap hc, scan_gap hc]
    exact ih true
  | step c rest hc ih =>
    rw [List.cons_append, scan_step hc, scan_step hc]
    cases step_lengthened d c rest v with
    | ended hf hl ho =>
      rw [hf, hl]
      rcases ih false with ⟨hopen, hr⟩ | ⟨front, r, r', h, h', hover⟩
      · refine .inl ⟨?_, hr.prepend _⟩
        by_cases hnil : scan d false (step d c rest).left = []
        · rcases ho with ho | ⟨more, hmore⟩
          · rw [hnil, List.append_nil]
            exact not_endsOpen_pieces ho
          · rw [hmore, scan_step rfl, List.append_eq_nil_iff, pieces_eq_nil_iff] at hnil
            exact absurd hnil.1 (step_faces_ne_nil d ':' more)
        · rwa [endsOpen_append _ hnil]
      · refine .inr ⟨pieces gap (step d c rest).faces ++ front, r, r', ?_, ?_, hover⟩
        · rw [h, List.append_assoc]
        · rw [h', List.append_assoc]
    | remark hl hl' hf hf' =>
      rw [hl, hl', hf, hf', scan_nil, List.append_nil, List.append_nil]
      exact .inl ⟨not_endsOpen_pieces (noted_over _ _), remarked_noted gap _ _⟩
    | string hl hf ho hf' hm =>
      rw [hl, hf, hf', scan_nil, List.append_nil]
      exact .inr ⟨[], _, _, rfl, rfl, .string _ rfl ho hm⟩
    | @data word items field hl hf hf' hne =>
      rw [hl, hf, hf', scan_nil, List.append_nil]
      refine .inr ⟨[], _, _, rfl, rfl, ?_⟩
      unfold fielded
      split
      · exact .data _ rfl rfl
      · exact .field _ rfl rfl (by simpa [eq_comm] using hne)

end Piece

namespace Render

variable {d : Dialect} {o : Options} {notes : List (Int × Text)} {report : Bool}

theorem marked_joinWith {texts : List Text} (hne : texts ≠ [])
    (h : ∀ t ∈ texts, Numbering.Marked t) : Numbering.Marked (Text.joinWith " " texts) := by
  obtain ⟨t, rest, rfl⟩ := List.exists_cons_of_ne_nil hne
  obtain ⟨c, more, rfl, hc⟩ := h t List.mem_cons_self
  cases rest with
  | nil => exact ⟨c, more, rfl, hc⟩
  | cons u rest => exact ⟨c, _, rfl, hc⟩

theorem line_reported (hn : ∀ n ∈ notes, Numbering.Marked n.2) (tokens : List Token) :
    line d { o with labelReport := true } notes tokens =
        line d { o with labelReport := false } notes tokens ∨
      ∃ v, v ≠ [] ∧ line d { o with labelReport := true } notes tokens =
        line d { o with labelReport := false } notes tokens ++ Piece.reported v := by
  by_cases hfound : labels notes (reportKey tokens) = []
  · left
    simp [line, hfound]
  · right
    have hmarked : ∀ t ∈ labels notes (reportKey tokens), Numbering.Marked t := by
      intro t ht
      obtain ⟨n, hmem, rfl⟩ := List.mem_map.1 ht
      exact hn n (List.mem_filter.1 hmem).1
    obtain ⟨c, more, hv, hc⟩ := marked_joinWith hfound hmarked
    refine ⟨c :: Text.trimEnd isSpace more, by simp, ?_⟩
    have hspace : isSpace c = false := by simpa [isSpace] using hc
    have hnotEmpty : (!(labels notes (reportKey tokens)).isEmpty) = true := by simp [hfound]
    simp only [line, Bool.true_and, Bool.false_and, Bool.false_eq_true, if_false, if_pos hnotEmpty, hv]
    rw [Text.trimEnd_append_cons hspace, List.append_assoc]
    rfl

theorem forall₂_line {P : Text → Text → Prop} {rows : List (List Token)} {o' : Options}
    (h : ∀ row, P (line d o notes row) (line d o' notes row)) :
    List.Forall₂ P (rows.map (line d o notes)) (rows.map (line d o' notes)) := by
  rw [List.forall₂_map_left_iff, List.forall₂_map_right_iff]
  exact List.forall₂_same.2 fun row _ => h row

def behindNumber (line : Text) : Text := line.dropWhile Text.isDecimalDigit

theorem behindNumber_append_reported (l v : Text) :
    behindNumber (l ++ Piece.reported v) = behindNumber l ++ Piece.reported v := by
  unfold behindNumber
  rw [List.dropWhile_append]
  split
  · rename_i hnil
    rw [List.isEmpty_iff.1 hnil]
    rfl
  · rfl

end Render

namespace Compile

open Piece (scan Remarked EndsOpen Overgrown)
open Render (behindNumber)

variable {s : Setting} {o : Options} {listing : Listing} {c c' : Compiled} {σ τ τ' : Session}

/-- The pieces of a line of code behind its number. -/
def piecesOf (d : Dialect) (line : Text) : List Piece := scan d false (behindNumber line)

/-- With the report and without it a program has the same lines, and each line with it is read like
the line without it but for a remark, unless something is reported behind DATA or behind a string
that is not closed. -/
theorem reported_remarked_iff
    (h : ofListing s { o with labelReport := false } listing σ = .ok c τ)
    (h' : ofListing s { o with labelReport := true } listing σ = .ok c' τ') :
    List.Forall₂ (fun l l' =>
      Remarked (piecesOf s.dialect l) (piecesOf s.dialect l') ↔
        (l' = l ∨ ¬EndsOpen (piecesOf s.dialect l))) c.code c'.code := by
  obtain ⟨notes, hmarked, hcode, hcode'⟩ := exists_rows h h'
  rw [hcode, hcode']
  refine Render.forall₂_line fun row => ?_
  rcases Render.line_reported (d := s.dialect) (o := o) hmarked row with he | ⟨v, hv, he⟩
  · have hsame : Render.line s.dialect { o with labelReport := true } notes row =
      Render.line s.dialect { o with labelReport := false } notes row := he
    rw [hsame]
    exact ⟨fun _ => .inl rfl, fun _ => .same _⟩
  · rw [he, piecesOf, piecesOf, Render.behindNumber_append_reported]
    have hnew : Render.line s.dialect { o with labelReport := false } notes row ++ Piece.reported v ≠
        Render.line s.dialect { o with labelReport := false } notes row := by
      simp [Piece.reported]
    rcases Piece.scan_reported s.dialect false
      (behindNumber (Render.line s.dialect { o with labelReport := false } notes row)) v hv with
      ⟨hopen, hr⟩ | ⟨front, r, r', hr, hr', hover⟩
    · exact ⟨fun _ => .inr hopen, fun _ => hr⟩
    · rw [hr, hr']
      constructor
      · exact fun hremarked => absurd hremarked (hover.not_remarked front)
      · rintro (heq | hopen)
        · exact absurd heq hnew
        · refine absurd ?_ hopen
          rw [Piece.endsOpen_append front hover.ne_nil]
          exact hover.endsOpen

theorem print_line_remarked :
    ∃ c τ c' τ', ofListing (lone .msx) { header := false, labelReport := false }
        (Listing.ofText "goto \x7ba\x7d\n\x7ba\x7d\nprint 1" "/main" 4) {} = .ok c τ ∧
      ofListing (lone .msx) { header := false, labelReport := true }
        (Listing.ofText "goto \x7ba\x7d\n\x7ba\x7d\nprint 1" "/main" 4) {} = .ok c' τ' ∧
      c'.code = ["10 goto 20 '>a", "20 print 1 '<a"] ∧
      List.Forall₂ (fun l l' => Remarked (piecesOf .msx l) (piecesOf .msx l')) c.code c'.code := by
  -- the runs share the reading of the listing
  obtain ⟨hrun, hrun', hclosed⟩ : (outcome (lone .msx) { header := false, labelReport := false }
        (Listing.ofText "goto \x7ba\x7d\n\x7ba\x7d\nprint 1" "/main" 4)).map Compiled.code =
        some ["10 goto 20".toList, "20 print 1".toList] ∧
      (outcome (lone .msx) { header := false, labelReport := true }
        (Listing.ofText "goto \x7ba\x7d\n\x7ba\x7d\nprint 1" "/main" 4)).map Compiled.code =
        some ["10 goto 20 '>a".toList, "20 print 1 '<a".toList] ∧
      ∀ l ∈ ["10 goto 20".toList, "20 print 1".toList], ¬EndsOpen (piecesOf .msx l) := by
    decide +kernel
  obtain ⟨c, hc, he⟩ := Option.map_eq_some_iff.1 hrun
  obtain ⟨c', hc', he'⟩ := Option.map_eq_some_iff.1 hrun'
  obtain ⟨τ, hτ⟩ := exists_of_outcome hc
  obtain ⟨τ', hτ'⟩ := exists_of_outcome hc'
  refine ⟨c, τ, c', τ', hτ, hτ', he', ?_⟩
  have hall : List.Forall₂ (fun l l' => Remarked (piecesOf .msx l) (piecesOf .msx l') ↔
      (l' = l ∨ ¬EndsOpen (piecesOf .msx l))) c.code c'.code :=
    reported_remarked_iff (o := { header := false }) hτ hτ'
  rw [he, he'] at hall ⊢
  simp only [List.forall₂_cons, List.Forall₂.nil, and_true] at hall ⊢
  exact ⟨hall.1.2 (.inr (hclosed _ (by simp))), hall.2.2 (.inr (hclosed _ (by simp)))⟩

/-- What is reported about a label in front of DATA becomes part of the data. -/
theorem data_line_not_remarked :
    ∃ c τ c' τ', ofListing (lone .msx) { header := false, labelReport := false }
        (Listing.ofText "restore \x7ba\x7d\n\x7ba\x7d\ndata 1,2" "/main" 4) {} = .ok c τ ∧
      ofListing (lone .msx) { header := false, labelReport := true }
        (Listing.ofText "restore \x7ba\x7d\n\x7ba\x7d\ndata 1,2" "/main" 4) {} = .ok c' τ' ∧
      c.code = ["10 restore 20", "20 data 1,2"] ∧
      c'.code = ["10 restore 20 '>a", "20 data 1,2 '<a"] ∧
      ¬List.Forall₂ (fun l l' => Remarked (piecesOf .msx l) (piecesOf .msx l')) c.code c'.code := by
  obtain ⟨hrun, hrun', hread, hread'⟩ :
      (outcome (lone .msx) { header := false, labelReport := false }
        (Listing.ofText "restore \x7ba\x7d\n\x7ba\x7d\ndata 1,2" "/main" 4)).map Compiled.code =
        some ["10 restore 20".toList, "20 data 1,2".toList] ∧
      (outcome (lone .msx) { header := false, labelReport := true }
        (Listing.ofText "restore \x7ba\x7d\n\x7ba\x7d\ndata 1,2" "/main" 4)).map Compiled.code =
        some ["10 restore 20 '>a".toList, "20 data 1,2 '<a".toList] ∧
      piecesOf .msx "20 data 1,2" = [⟨.data, "data", true, none⟩, ⟨.dataField, "1,2", true, none⟩] ∧
      piecesOf .msx "20 data 1,2 '<a" =
        [⟨.data, "data", true, none⟩, ⟨.dataField, "1,2 '<a", true, none⟩] := by decide +kernel
  obtain ⟨c, hc, he⟩ := Option.map_eq_some_iff.1 hrun
  obtain ⟨c', hc', he'⟩ := Option.map_eq_some_iff.1 hrun'
  obtain ⟨τ, hτ⟩ := exists_of_outcome hc
  obtain ⟨τ', hτ'⟩ := exists_of_outcome hc'
  refine ⟨c, τ, c', τ', hτ, hτ', he, he', fun hall => ?_⟩
  rw [he, he'] at hall
  simp only [List.forall₂_cons, List.Forall₂.nil, and_true] at hall
  rw [hread, hread'] at hall
  exact (Overgrown.field [] rfl rfl (by decide)).not_remarked [] hall.2

end Compile

end ClassicBasic
