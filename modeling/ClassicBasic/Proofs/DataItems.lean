import ClassicBasic.Lexer.Basic
import Mathlib.Data.List.Basic

/-!
# How the text of DATA is split

The text behind DATA runs to the first colon outside quotes, or to the end of its line. Commas outside
quotes divide it into items, and an item has no blanks in front. The lexer reads exactly these items,
except when only blanks stand between a comma and the colon, or when the line ends with a comma inside
quotes that are not closed.
-/

set_option autoImplicit false

namespace ClassicBasic.Lexer
open Glyph (spread endMark place)

/-- Where a reader of DATA stands. -/
inductive Stance
  /-- In front of the text of an item. -/
  | ahead
  /-- In an item, outside quotes. -/
  | bare
  /-- Inside the quotes of an item. -/
  | quoted
  deriving DecidableEq

namespace Stance

/-- Where the reader stands behind a character. An item is quoted if a quote is the first of its
characters that is no blank. -/
def next : Stance → Char → Stance
  | .ahead, c =>
    if c = ',' then .ahead else if Text.isBlank c then .ahead else if c = '"' then .quoted else .bare
  | .bare, c => if c = ',' then .ahead else .bare
  | .quoted, c => if c = '"' then .bare else .quoted

/-- The text up to the first colon outside quotes. -/
def statement : Stance → Text → Text
  | _, [] => []
  | s, c :: text => if s ≠ .quoted ∧ c = ':' then [] else c :: (s.next c).statement text

/-- The runs of a text between the commas outside quotes; `item` is the run being read. -/
def items : Stance → Text → Text → List Text
  | _, item, [] => [item]
  | s, item, c :: text =>
    if s ≠ .quoted ∧ c = ',' then item :: (s.next c).items [] text
    else (s.next c).items (item ++ [c]) text

end Stance

/-- The item of DATA in column `col`, at its first character that is no blank. -/
def dataField (spot : Int → Position) (col : Int) (item : Text) : Token :=
  ⟨.dataField, item.dropWhile Text.isBlank, spot (col + (item.takeWhile Text.isBlank).length)⟩

/-- Items of DATA from column `col` on and the commas between them. An item without text behind the
last comma is left out. -/
def dataTokens (spot : Int → Position) (col : Int) : List Text → List Token
  | [] => []
  | [item] => if item.all Text.isBlank then [] else [dataField spot col item]
  | item :: more =>
    dataField spot col item :: ⟨.symbol, ",", spot (col + item.length)⟩ ::
      dataTokens spot (col + item.length + 1) more

/-- Whether the statement goes on in the next line: it reaches the end of its line with an underscore
there, and there is a next line. -/
def GoesOn (closing : Nat) (s : Stance) (text : Text) (more : List Glyph) : Prop :=
  s.statement text = text ∧ text.getLast? = some '_' ∧ closing < more.length

/-- Whether the colon that ends the statement has a blank before it, with nothing but blanks back to
the last comma. -/
def StrayColon (s : Stance) (text : Text) : Prop :=
  s.statement text ≠ text ∧ (s.statement text).foldl Stance.next s = .ahead ∧
    (s.statement text).getLast?.any Text.isBlank = true

/-- Whether the line ends with a comma inside quotes that are not closed. -/
def StrayComma (s : Stance) (text : Text) : Prop :=
  (s.statement text).foldl Stance.next s = .quoted ∧ text.getLast? = some ','

variable {s : Stance} {c : Char} {item text : Text} {spot : Int → Position} {col : Int}

namespace Stance

theorem items_ne_nil (s : Stance) (item text : Text) : s.items item text ≠ [] := by
  induction text generalizing s item with
  | nil => simp [items]
  | cons c text ih =>
    rw [items]
    split
    · simp
    · exact ih _ _

theorem statement_eq_nil (hs : s ≠ .quoted) (h : text = [] ∨ text.head? = some ':') :
    s.statement text = [] := by
  cases text with
  | nil => rfl
  | cons c text =>
    obtain rfl : c = ':' := by simpa using h
    rw [statement, if_pos ⟨hs, rfl⟩]

theorem statement_ne_nil (h : ¬(text = [] ∨ text.head? = some ':')) : s.statement text ≠ [] := by
  cases text with
  | nil => simp at h
  | cons c text =>
    have hc : c ≠ ':' := by simpa using h
    simp [statement, hc]

theorem statement_quoted {word rest : Text} (hw : '"' ∉ word) :
    statement .quoted (word ++ '"' :: rest) = word ++ '"' :: statement .bare rest := by
  induction word with
  | nil => simp [statement, next]
  | cons c word ih =>
    have hc : c ≠ '"' := fun h => hw (h ▸ List.mem_cons_self)
    simp [statement, next, hc, ih fun h => hw (List.mem_cons_of_mem c h)]

theorem items_quoted {word rest : Text} (hw : '"' ∉ word) :
    items .quoted item (word ++ '"' :: rest) = items .bare (item ++ word ++ ['"']) rest := by
  induction word generalizing item with
  | nil => simp [items, next]
  | cons c word ih =>
    have hc : c ≠ '"' := fun h => hw (h ▸ List.mem_cons_self)
    simp [items, next, hc, ih fun h => hw (List.mem_cons_of_mem c h)]

theorem foldl_quoted {word rest : Text} (hw : '"' ∉ word) :
    (word ++ '"' :: rest).foldl next .quoted = rest.foldl next .bare := by
  induction word with
  | nil => simp [next]
  | cons c word ih =>
    have hc : c ≠ '"' := fun h => hw (h ▸ List.mem_cons_self)
    simpa [next, hc] using ih fun h => hw (List.mem_cons_of_mem c h)

theorem open_quoted (hw : '"' ∉ text) : statement .quoted text = text ∧
    items .quoted item text = [item ++ text] ∧ text.foldl next .quoted = .quoted := by
  induction text generalizing item with
  | nil => simp [statement, items]
  | cons c text ih =>
    have hc : c ≠ '"' := fun h => hw (h ▸ List.mem_cons_self)
    have h := @ih (item ++ [c]) fun h => hw (List.mem_cons_of_mem c h)
    simp [statement, items, next, hc, h.1, h.2.1, h.2.2]

end Stance

/-! ### Characters of a line -/

section

variable {line : Nat} {whole file : Text} {more : List Glyph}

theorem endsData_spread (ht : endMark ∉ text) :
    endsData (spread line whole file col text ++ more) = true ↔ text = [] ∨ text.head? = some ':' := by
  cases text with
  | nil => simp [spread, endsData]
  | cons c text =>
    have hc : c ≠ endMark := fun h => ht (h ▸ List.mem_cons_self)
    simp [spread, endsData, hc]

theorem length_spread : (spread line whole file col text).length = text.length + 1 := by
  induction text generalizing col with
  | nil => rfl
  | cons c text ih => rw [spread, List.length_cons, ih, List.length_cons]

theorem place_spread :
    place (spread line whole file col text ++ more) = .onLine line col whole file := by
  cases text <;> rfl

theorem quotedTail_enclosed {word rest : Text} (hw : '"' ∉ word) (he : endMark ∉ word) :
    quotedTail (spread line whole file col (word ++ '"' :: rest) ++ more) =
      (word ++ ['"'], spread line whole file (col + (word.length + 1)) rest ++ more) := by
  induction word generalizing col with
  | nil => simp [spread, quotedTail, endMark]
  | cons c word ih =>
    have hc : c ≠ '"' := fun h => hw (h ▸ List.mem_cons_self)
    have hce : c ≠ endMark := fun h => he (h ▸ List.mem_cons_self)
    simp only [spread, List.cons_append, quotedTail, hc, hce, if_false,
      ih (fun h => hw (List.mem_cons_of_mem c h)) fun h => he (List.mem_cons_of_mem c h)]
    have hcol : col + 1 + (word.length + 1) = col + ((c :: word).length + 1) := by
      simp only [List.length_cons]
      omega
    rw [hcol]

theorem quotedTail_open (hw : '"' ∉ text) (he : endMark ∉ text) :
    quotedTail (spread line whole file col text ++ more) =
      (text, spread line whole file (col + text.length) [] ++ more) := by
  induction text generalizing col with
  | nil => simp [spread, quotedTail, endMark]
  | cons c text ih =>
    have hc : c ≠ '"' := fun h => hw (h ▸ List.mem_cons_self)
    have hce : c ≠ endMark := fun h => he (h ▸ List.mem_cons_self)
    simp only [spread, List.cons_append, quotedTail, hc, hce, if_false,
      ih (fun h => hw (List.mem_cons_of_mem c h)) fun h => he (List.mem_cons_of_mem c h)]
    have hcol : col + 1 + text.length = col + (c :: text).length := by
      simp only [List.length_cons]
      omega
    rw [hcol]

end

/-! ### Tokens of items -/

theorem dataTokens_cons {first : Text} {rest : List Text} (h : rest ≠ []) :
    dataTokens spot col (first :: rest) =
      dataField spot col first :: ⟨.symbol, ",", spot (col + first.length)⟩ ::
        dataTokens spot (col + first.length + 1) rest := by
  cases rest with
  | nil => exact absurd rfl h
  | cons second rest => rfl

theorem dataTokens_blank {blanks : Text} (hb : blanks.all Text.isBlank = true) :
    dataTokens spot col (s.items (blanks ++ item) text) =
      dataTokens spot (col + blanks.length) (s.items item text) := by
  have hall : ∀ c ∈ blanks, Text.isBlank c = true := List.all_eq_true.1 hb
  have hfield : ∀ item, dataField spot col (blanks ++ item) = dataField spot (col + blanks.length) item := by
    intro item
    rw [dataField, dataField, List.dropWhile_append_of_pos hall, List.takeWhile_append_of_pos hall,
      List.length_append, Int.natCast_add, Int.add_assoc]
  induction text generalizing s item with
  | nil => simp only [Stance.items, dataTokens, List.all_append, hb, Bool.true_and, hfield]
  | cons c text ih =>
    rw [Stance.items, Stance.items]
    split
    · rw [dataTokens_cons (Stance.items_ne_nil _ _ _), dataTokens_cons (Stance.items_ne_nil _ _ _),
        hfield, List.length_append, Int.natCast_add, ← Int.add_assoc]
    · rw [List.append_assoc]
      exact ih

/-! ### What is out of place -/

theorem strayColon_cons (hc : s = .quoted ∨ c ≠ ':') (hne : (s.next c).statement text ≠ []) :
    StrayColon s (c :: text) ↔ StrayColon (s.next c) text := by
  have hgo : ¬(s ≠ .quoted ∧ c = ':') := by tauto
  have hlast : (c :: (s.next c).statement text).getLast? = ((s.next c).statement text).getLast? := by
    obtain ⟨u, more, hmore⟩ := List.exists_cons_of_ne_nil hne
    rw [hmore, List.getLast?_cons_cons]
  rw [StrayColon, StrayColon, Stance.statement, if_neg hgo, hlast, List.foldl_cons, ne_eq, ne_eq,
    List.cons.injEq, eq_self, true_and]

theorem strayComma_cons (hc : s = .quoted ∨ c ≠ ':') (hne : text ≠ []) :
    StrayComma s (c :: text) ↔ StrayComma (s.next c) text := by
  have hgo : ¬(s ≠ .quoted ∧ c = ':') := by tauto
  obtain ⟨u, more, rfl⟩ := List.exists_cons_of_ne_nil hne
  rw [StrayComma, StrayComma, Stance.statement, if_neg hgo, List.foldl_cons, List.getLast?_cons_cons]

/-! ### One step of the reader -/

section

variable {closing : Nat} {start : Position} {g : Glyph} {input more : List Glyph} {line : Nat}
  {whole file : Text}

theorem dataItems_leading_blank (hg : g.char ≠ endMark) (hb : Text.isBlank g.char = true) :
    dataItems closing start [] [] (g :: input) = dataItems closing (place input) [] [] input := by
  rw [dataItems, if_neg hg, if_pos (by simp [hb])]

/-- What an item that has been read comes to: its comma and the items behind it, or the end of the
statement, or more of its text. -/
theorem dataItems_part {read : Text} {left : List Glyph} (hg : g.char ≠ endMark)
    (hb : (item ++ [g.char]).all Text.isBlank = false) (hp : dataPart item g input = (read, left))
    (hgo : continued? closing read left = none) :
    dataItems closing start [] item (g :: input) =
      if read.getLast? = some ',' then
        (⟨.dataField, read.dropLast, start⟩ ::
          ⟨.symbol, ",", (place left).withCol ((place left).col - 1)⟩ ::
            if endsData left then [] else (dataItems closing (place left) [] [] left).1,
          if endsData left then left else (dataItems closing (place left) [] [] left).2)
      else if endsData left then ([⟨.dataField, read, start⟩], left)
      else dataItems closing start [] read left := by
  rw [dataItems, if_neg hg, if_neg (by simp [hb])]
  simp only [hp]
  by_cases hc : read.getLast? = some ','
  · simp only [hc, beq_self_eq_true, Bool.not_true, Bool.false_and, Bool.false_eq_true, if_false,
      if_true, List.nil_append]
    split
    · rename_i next hn
      rw [hp, hgo] at hn
      cases hn
    · by_cases he : endsData left = true <;> simp [he]
  · have hbeq : (read.getLast? == some ',') = false := by simpa using hc
    simp only [hbeq, Bool.not_false, Bool.true_and, hc, if_false, Bool.not_eq_true']
    by_cases he : endsData left = true
    · simp only [he, if_true, Bool.true_eq_false, if_false]
      split
      · rename_i next hn
        rw [hp, hgo] at hn
        cases hn
      · simp
    · simp [he]

/-- Whether the reader, behind the part `item` of an item in column `col`, splits what is left of the
line as documented. -/
def Splits (closing line : Nat) (whole file : Text) (more : List Glyph) (s : Stance) (col : Int)
    (item text : Text) : Prop :=
  dataItems closing (.onLine line col whole file) [] item
      (spread line whole file (col + item.length) text ++ more) =
    (dataTokens (.onLine line · whole file) col (s.items item (s.statement text)),
      spread line whole file (col + item.length + (s.statement text).length)
        (text.drop (s.statement text).length) ++ more)

theorem splits_blank (hc : Text.isBlank c = true) (hce : c ≠ endMark) :
    Splits closing line whole file more .ahead col [] (c :: text) ↔
      Splits closing line whole file more .ahead (col + 1) [] text := by
  have hcomma : c ≠ ',' := fun h => absurd (h ▸ hc) (by decide)
  have hcolon : c ≠ ':' := fun h => absurd (h ▸ hc) (by decide)
  have hnext : Stance.ahead.next c = .ahead := by simp [Stance.next, hc]
  have hblank := @dataTokens_blank .ahead [] (Stance.ahead.statement text) (.onLine line · whole file)
    col [c] (by simp [hc])
  have hlen : col + ((Stance.ahead.statement text).length + 1 : Nat) =
      col + 1 + (Stance.ahead.statement text).length := by omega
  rw [Splits, Splits, Stance.statement, if_neg (by simp [hcolon]), hnext, Stance.items,
    if_neg (by simp [hcomma]), hnext, List.nil_append, ← List.append_nil [c], hblank, spread,
    List.cons_append, dataItems_leading_blank hce hc, place_spread]
  simp only [List.length_cons, List.length_nil, Int.cast_ofNat_Int, Int.add_zero, hlen,
    List.drop_succ_cons, Nat.zero_add]

theorem continued_spread {read : Text} (ht : endMark ∉ text)
    (hgo : text = [] → read.getLast? = some '_' → ¬closing < more.length) :
    continued? closing read (spread line whole file col text ++ more) = none := by
  unfold continued?
  split
  · rename_i hends
    rw [Bool.and_eq_true, beq_iff_eq] at hends
    cases text with
    | nil => simpa [spread, Glyph.nextLine?] using hgo rfl hends.2
    | cons c text =>
      have hc : c ≠ endMark := fun h => ht (h ▸ List.mem_cons_self)
      simp [spread, endsLine, hc] at hends
  · rfl

theorem dataField_bare (hi : item.head?.map Text.isBlank = some false) :
    dataField spot col item = ⟨.dataField, item, spot col⟩ ∧ item.all Text.isBlank = false := by
  cases item with
  | nil => simp at hi
  | cons c item =>
    have hc : Text.isBlank c = false := by simpa using hi
    simp [dataField, hc]

/-- Reading the part `word` of an item leaves the rest of the line to be split. -/
theorem splits_word {word : Text} {s' : Stance} (hs' : s' ≠ .quoted)
    (ht : endMark ∉ text) (hi : (item ++ word).head?.map Text.isBlank = some false)
    (hread : ∀ start, dataItems closing start [] item
        (spread line whole file (col + item.length) (word ++ text) ++ more) =
      if endsData (spread line whole file (col + (item ++ word).length) text ++ more) then
        ([⟨.dataField, item ++ word, start⟩],
          spread line whole file (col + (item ++ word).length) text ++ more)
      else dataItems closing start [] (item ++ word)
        (spread line whole file (col + (item ++ word).length) text ++ more))
    (hstatement : s.statement (word ++ text) = word ++ s'.statement text)
    (hitems : ∀ rest, s.items item (word ++ rest) = s'.items (item ++ word) rest) :
    Splits closing line whole file more s col item (word ++ text) ↔
      text = [] ∨ text.head? = some ':' ∨
        Splits closing line whole file more s' col (item ++ word) text := by
  have hlen : col + item.length + (word ++ s'.statement text).length =
      col + (item ++ word).length + (s'.statement text).length := by
    simp only [List.length_append]
    omega
  have hdrop : (word ++ text).drop (word ++ s'.statement text).length =
      text.drop (s'.statement text).length := by
    rw [List.length_append, ← List.drop_drop, List.drop_left]
  rw [Splits, hread, hstatement, hitems, hlen, hdrop]
  by_cases hends : text = [] ∨ text.head? = some ':'
  · rw [if_pos ((endsData_spread ht).2 hends)]
    have hnil := Stance.statement_eq_nil hs' hends
    have hfield := @dataField_bare (item ++ word) (.onLine line · whole file) col hi
    refine iff_of_true ?_ (by tauto)
    simp [hnil, Stance.items, dataTokens, hfield.1, hfield.2]
  · rw [if_neg fun h => hends ((endsData_spread ht).1 h)]
    rw [Splits]
    tauto

theorem splits_comma (hs : s ≠ .quoted) (ht : endMark ∉ text)
    (hi : item = [] ∨ item.head?.map Text.isBlank = some false) :
    Splits closing line whole file more s col item (',' :: text) ↔
      text = [] ∨ text.head? = some ':' ∨
        Splits closing line whole file more .ahead (col + item.length + 1) [] text := by
  have hread := fun start => @dataItems_part item closing start
    ⟨',', .onLine line (col + item.length) whole file, false⟩
    (spread line whole file (col + item.length + 1) text ++ more) (item ++ [','])
    (spread line whole file (col + item.length + 1) text ++ more) (show ',' ≠ endMark by decide)
    (by simp [show Text.isBlank ',' = false by decide]) (by simp [dataPart])
    (continued_spread ht (by simp))
  have hnext : s.next ',' = .ahead := by cases s <;> simp [Stance.next] at hs ⊢
  have hstatement : s.statement (',' :: text) = ',' :: Stance.ahead.statement text := by
    rw [Stance.statement, if_neg (by simp), hnext]
  have hitems : ∀ rest, s.items item (',' :: rest) = item :: Stance.ahead.items [] rest := fun rest => by
    rw [Stance.items, if_pos ⟨hs, rfl⟩, hnext]
  have hfield : dataField (.onLine line · whole file) col item =
      ⟨.dataField, item, .onLine line col whole file⟩ := by
    rcases hi with rfl | hi
    · simp [dataField]
    · exact (dataField_bare hi).1
  have hlen : ∀ rest : Text, col + item.length + (',' :: rest : Text).length =
      col + item.length + 1 + rest.length := by
    intro rest
    simp only [List.length_cons]
    omega
  rw [Splits, spread, List.cons_append, hread, if_pos List.getLast?_concat, List.dropLast_concat,
    hstatement, hitems, dataTokens_cons (Stance.items_ne_nil _ _ _), hfield, hlen, List.length_cons,
    List.drop_succ_cons, place_spread]
  have hcol : col + item.length + 1 - 1 = col + item.length := by omega
  simp only [Position.withCol, Position.onLine, hcol, Prod.mk.injEq, List.cons.injEq, true_and]
  by_cases hends : text = [] ∨ text.head? = some ':'
  · rw [if_pos ((endsData_spread ht).2 hends), if_pos ((endsData_spread ht).2 hends)]
    have hnil := Stance.statement_eq_nil (s := .ahead) (by simp) hends
    exact iff_of_true (by simp [hnil, Stance.items, dataTokens]) (by tauto)
  · rw [if_neg fun h => hends ((endsData_spread ht).1 h),
      if_neg fun h => hends ((endsData_spread ht).1 h), Splits, Prod.ext_iff]
    simp only [Position.onLine, List.length_nil, Int.cast_ofNat_Int, Int.add_zero]
    tauto

/-- A reader that has read `word` of an item finds out of place what stands behind it. -/
theorem stray_word {word : Text} (hfold : word.foldl Stance.next s = .bare)
    (hstatement : s.statement (word ++ text) = word ++ Stance.bare.statement text) :
    (StrayColon s (word ++ text) ↔ StrayColon .bare text) ∧
      (StrayComma s (word ++ text) ↔ StrayComma .bare text) := by
  rw [StrayColon, StrayComma, hstatement, List.foldl_append, hfold, ne_eq, List.append_cancel_left_eq]
  constructor
  · rw [StrayColon]
    cases hnil : Stance.bare.statement text with
    | nil => simp
    | cons u more =>
      obtain ⟨v, hv⟩ : ∃ v, (u :: more).getLast? = some v := ⟨_, List.getLast?_eq_some_getLast (by simp)⟩
      simp [List.getLast?_append, hv]
  · rw [StrayComma]
    cases text with
    | nil => simp [Stance.statement]
    | cons u text => simp [List.getLast?_append]

theorem GoesOn.word {word : Text} {s' : Stance} (h : GoesOn closing s' text more)
    (hstatement : s.statement (word ++ text) = word ++ s'.statement text) :
    GoesOn closing s (word ++ text) more := by
  refine ⟨by rw [hstatement, h.1], ?_, h.2.2⟩
  rw [List.getLast?_append, h.2.1]
  rfl

theorem splits_nil : Splits closing line whole file more .ahead col [] [] := by
  simp [Splits, spread, dataItems, Stance.statement, Stance.items, dataTokens]

theorem length_dataItems_taken {joined part : Text} (hg : g.char ≠ endMark) :
    (dataItems closing start joined part (g :: input)).2.length ≤ input.length := by
  have hpart := length_dataPart part g input
  rw [dataItems, if_neg hg]
  split
  · exact length_dataItems _ _ _ _ _
  · dsimp only
    split
    · exact Nat.le_trans (length_dataItems _ _ _ _ _) hpart
    · split
      · rename_i next hn
        have hnext := length_continued hn
        exact Nat.le_trans (length_dataItems _ _ _ _ _) (Nat.le_trans (Nat.le_of_lt hnext) hpart)
      · split
        · split
          · exact hpart
          · exact Nat.le_trans (length_dataItems _ _ _ _ _) hpart
        · exact hpart

theorem not_splits_colon : ¬Splits closing line whole file more .ahead col [] (':' :: text) := by
  intro h
  have hlen := congrArg (fun r => r.2.length) h
  have hshort := @length_dataItems_taken closing (.onLine line col whole file)
    ⟨':', .onLine line (col + ([] : Text).length) whole file, false⟩
    (spread line whole file (col + ([] : Text).length + 1) text ++ more) [] []
    (show ':' ≠ endMark by decide)
  rw [Stance.statement_eq_nil (by simp) (by simp)] at hlen
  simp only [spread, List.cons_append, List.length_cons, List.length_append, length_spread,
    List.length_nil, List.drop_zero] at hlen hshort
  omega

theorem not_stray_comma (hs : s ≠ .quoted) (hends : text = [] ∨ text.head? = some ':') :
    ¬StrayColon s (',' :: text) ∧ ¬StrayComma s (',' :: text) := by
  have hnext : s.next ',' = .ahead := by cases s <;> simp [Stance.next] at hs ⊢
  have hstatement : s.statement (',' :: text) = [','] := by
    rw [Stance.statement, if_neg (by simp), hnext, Stance.statement_eq_nil (by simp) hends]
  rw [StrayColon, StrayComma, hstatement]
  constructor
  · simp [show Text.isBlank ',' = false by decide]
  · simp [hnext]

/-- Quotes that are not closed make one item, unless a comma ends the line. -/
theorem splits_open (hw : '"' ∉ text) (ht : endMark ∉ text)
    (hgo : ¬GoesOn closing .ahead ('"' :: text) more) :
    Splits closing line whole file more .ahead col [] ('"' :: text) ↔
      ¬StrayColon .ahead ('"' :: text) ∧ ¬StrayComma .ahead ('"' :: text) := by
  have hblank : Text.isBlank '"' = false := by decide
  have hnext : Stance.ahead.next '"' = .quoted := by simp [Stance.next, hblank]
  have hopen := @Stance.open_quoted ['"'] text hw
  have hstatement : Stance.ahead.statement ('"' :: text) = '"' :: text := by
    rw [Stance.statement, if_neg (by simp), hnext, hopen.1]
  have hitems : Stance.ahead.items [] ('"' :: text) = ['"' :: text] := by
    rw [Stance.items, if_neg (by simp), hnext, List.nil_append, hopen.2.1, List.singleton_append]
  have hfold : ('"' :: text).foldl Stance.next .ahead = .quoted := by
    rw [List.foldl_cons, hnext, hopen.2.2]
  have hfield := @dataField_bare ('"' :: text) (.onLine line · whole file) col (by simp [hblank])
  have hread := @dataItems_part [] closing (.onLine line col whole file)
    ⟨'"', .onLine line (col + ([] : Text).length) whole file, false⟩
    (spread line whole file (col + ([] : Text).length + 1) text ++ more) ('"' :: text)
    (spread line whole file (col + ([] : Text).length + 1 + text.length) [] ++ more)
    (show '"' ≠ endMark by decide) (by simp [hblank]) (by simp [dataPart, quotedTail_open hw ht])
    (continued_spread (by simp) fun _ hlast hlt => hgo ⟨hstatement, hlast, hlt⟩)
  have hcolon : ¬StrayColon .ahead ('"' :: text) := fun h => h.1 hstatement
  rw [StrayComma, hstatement, hfold, Splits, spread, List.cons_append, hread, hstatement, hitems]
  by_cases hlast : ('"' :: text).getLast? = some ','
  · rw [if_pos hlast]
    refine iff_of_false ?_ (by tauto)
    simp [dataTokens, hfield.2]
  · rw [if_neg hlast]
    refine iff_of_true ?_ (by tauto)
    simp only [dataTokens, hfield.1, hfield.2, spread, List.cons_append, endsData, beq_self_eq_true,
      Bool.true_or, if_true, List.length_cons, List.length_nil, Int.cast_ofNat_Int, Int.add_zero,
      List.drop_succ_cons, List.drop_length, Bool.false_eq_true, if_false, Prod.mk.injEq, true_and]
    have hcol : col + 1 + text.length = col + (text.length + 1 : Nat) := by omega
    rw [hcol]

/-- What the reader takes of an item before it looks whether the item or the statement ends: the
quotes that open it, or one character. -/
structure Takes (closing line : Nat) (whole file : Text) (more : List Glyph) (s : Stance) (col : Int)
    (item word rest : Text) : Prop where
  bare : word.foldl Stance.next s = .bare
  statement : s.statement (word ++ rest) = word ++ Stance.bare.statement rest
  starts : (item ++ word).head?.map Text.isBlank = some false
  splits : Splits closing line whole file more s col item (word ++ rest) ↔
    rest = [] ∨ rest.head? = some ':' ∨
      Splits closing line whole file more .bare col (item ++ word) rest

theorem takes_quotes {word rest : Text} (hw : '"' ∉ word) (ht : endMark ∉ word ++ '"' :: rest) :
    Takes closing line whole file more .ahead col [] ('"' :: (word ++ ['"'])) rest := by
  have hblank : Text.isBlank '"' = false := by decide
  have hnext : Stance.ahead.next '"' = .quoted := by simp [Stance.next, hblank]
  have hre : endMark ∉ rest := fun h => ht (by simp [h])
  have hsplit : ∀ rest, '"' :: (word ++ ['"']) ++ rest = '"' :: (word ++ '"' :: rest) := by simp
  have hlast : ('"' :: (word ++ ['"'])).getLast? = some '"' := by
    rw [← List.cons_append, List.getLast?_concat]
  have hstatement : Stance.ahead.statement ('"' :: (word ++ ['"']) ++ rest) =
      '"' :: (word ++ ['"']) ++ Stance.bare.statement rest := by
    rw [hsplit, hsplit, Stance.statement, if_neg (by simp), hnext, Stance.statement_quoted hw]
  have hitems : ∀ rest, Stance.ahead.items [] ('"' :: (word ++ ['"']) ++ rest) =
      Stance.bare.items ([] ++ '"' :: (word ++ ['"'])) rest := fun rest => by
    rw [hsplit, Stance.items, if_neg (by simp), hnext, Stance.items_quoted hw]
    rfl
  have hi : ([] ++ '"' :: (word ++ ['"'])).head?.map Text.isBlank = some false := by simp [hblank]
  have hlen : col + ([] : Text).length + 1 + (word.length + 1) =
      col + ([] ++ '"' :: (word ++ ['"'])).length := by
    simp only [List.nil_append, List.length_nil, List.length_cons, List.length_append]
    omega
  have hpart : dataPart [] ⟨'"', .onLine line (col + ([] : Text).length) whole file, false⟩
      (spread line whole file (col + ([] : Text).length + 1) (word ++ '"' :: rest) ++ more) =
        ([] ++ '"' :: (word ++ ['"']),
          spread line whole file (col + ([] ++ '"' :: (word ++ ['"'])).length) rest ++ more) := by
    rw [dataPart, if_pos ⟨rfl, rfl⟩, quotedTail_enclosed hw fun h => ht (by simp [h]), hlen]
    rfl
  have hgo : rest = [] → ([] ++ '"' :: (word ++ ['"'])).getLast? = some '_' → ¬closing < more.length := by
    simp [hlast]
  refine ⟨?_, hstatement, hi, splits_word (by simp) hre hi (fun start => ?_) hstatement hitems⟩
  · rw [List.foldl_cons, hnext, Stance.foldl_quoted hw, List.foldl_nil]
  · rw [hsplit, spread, List.cons_append,
      dataItems_part (show '"' ≠ endMark by decide) (by simp [hblank]) hpart (continued_spread hre hgo),
      if_neg (by simp [hlast])]

theorem takes_char {rest : Text} (hce : c ≠ endMark) (hcc : c ≠ ':') (hnext : s.next c = .bare)
    (hq : item = [] → c ≠ '"') (ht : endMark ∉ rest)
    (hi : (item ++ [c]).head?.map Text.isBlank = some false) (hgo : ¬GoesOn closing s (c :: rest) more) :
    Takes closing line whole file more s col item [c] rest := by
  have hcomma : c ≠ ',' := by
    rintro rfl
    cases s <;> simp [Stance.next] at hnext
  have hstatement : s.statement ([c] ++ rest) = [c] ++ Stance.bare.statement rest := by
    rw [List.singleton_append, Stance.statement, if_neg (by simp [hcc]), hnext, List.singleton_append]
  have hitems : ∀ rest, s.items item ([c] ++ rest) = Stance.bare.items (item ++ [c]) rest := fun rest => by
    rw [List.singleton_append, Stance.items, if_neg (by simp [hcomma]), hnext]
  have hlen : col + item.length + 1 = col + (item ++ [c]).length := by
    simp only [List.length_append, List.length_singleton]
    omega
  have hpart : dataPart item ⟨c, .onLine line (col + item.length) whole file, false⟩
      (spread line whole file (col + item.length + 1) rest ++ more) =
        (item ++ [c], spread line whole file (col + (item ++ [c]).length) rest ++ more) := by
    rw [dataPart, if_neg fun h => hq h.1 h.2, hlen]
  have hend : rest = [] → (item ++ [c]).getLast? = some '_' → ¬closing < more.length := by
    rintro rfl hlast hlt
    rw [List.getLast?_concat] at hlast
    exact hgo ⟨hstatement, hlast, hlt⟩
  refine ⟨hnext, hstatement, hi, splits_word (by simp) ht hi (fun start => ?_) hstatement hitems⟩
  rw [List.singleton_append, spread, List.cons_append,
    dataItems_part hce (@dataField_bare (item ++ [c]) (.onLine line · whole file) col hi).2 hpart
      (continued_spread ht hend), if_neg (by simp [hcomma])]

variable {rest : Text}

/-- Whether the text is split as documented exactly if nothing is out of place in it. -/
def SplitsIff (closing line : Nat) (whole file : Text) (more : List Glyph) (s : Stance) (col : Int)
    (item text : Text) : Prop :=
  Splits closing line whole file more s col item text ↔ ¬StrayColon s text ∧ ¬StrayComma s text

theorem splitsIff_comma (hs : s ≠ .quoted) (ht : endMark ∉ rest)
    (hi : item = [] ∨ item.head?.map Text.isBlank = some false)
    (hih : ¬(rest = [] ∨ rest.head? = some ':') →
      SplitsIff closing line whole file more .ahead (col + item.length + 1) [] rest) :
    SplitsIff closing line whole file more s col item (',' :: rest) := by
  have hnext : s.next ',' = .ahead := by cases s <;> simp [Stance.next] at hs ⊢
  rw [SplitsIff, splits_comma hs ht hi, ← or_assoc]
  by_cases hends : rest = [] ∨ rest.head? = some ':'
  · exact iff_of_true (.inl hends) (not_stray_comma hs hends)
  · have hrest : _ ↔ _ := hih hends
    rw [or_iff_right hends, hrest, strayComma_cons (.inr (by decide)) fun h => hends (.inl h),
      strayColon_cons (.inr (by decide)) (hnext ▸ Stance.statement_ne_nil hends), hnext]

theorem splitsIff_blank (hce : c ≠ endMark) (hc : Text.isBlank c = true)
    (hih : ¬(rest = [] ∨ rest.head? = some ':') →
      SplitsIff closing line whole file more .ahead (col + 1) [] rest) :
    SplitsIff closing line whole file more .ahead col [] (c :: rest) := by
  have hcc : c ≠ ':' := fun h => absurd (h ▸ hc) (by decide)
  have hnext : Stance.ahead.next c = .ahead := by simp [Stance.next, hc]
  rw [SplitsIff, splits_blank hc hce]
  rcases rest with - | ⟨u, rest⟩
  · refine iff_of_true splits_nil ⟨fun h => h.1 ?_, fun h => ?_⟩
    · simp [Stance.statement, hcc]
    · simp [StrayComma, Stance.statement, hcc, hnext] at h
  by_cases hu : u = ':'
  · subst hu
    refine iff_of_false not_splits_colon fun h => h.1 ?_
    simp [StrayColon, Stance.statement, hcc, hnext, hc]
  · have hends : ¬(u :: rest = [] ∨ (u :: rest).head? = some ':') := by simp [hu]
    have hrest : _ ↔ _ := hih hends
    rw [hrest, strayComma_cons (.inr hcc) (by simp),
      strayColon_cons (.inr hcc) (hnext ▸ Stance.statement_ne_nil hends), hnext]

theorem Takes.splitsIff {word : Text} (h : Takes closing line whole file more s col item word rest)
    (hih : ¬(rest = [] ∨ rest.head? = some ':') →
      SplitsIff closing line whole file more .bare col (item ++ word) rest) :
    SplitsIff closing line whole file more s col item (word ++ rest) := by
  have hstray := stray_word h.bare h.statement
  rw [SplitsIff, h.splits, hstray.1, hstray.2, ← or_assoc]
  by_cases hends : rest = [] ∨ rest.head? = some ':'
  · have hnil := Stance.statement_eq_nil (s := .bare) (by simp) hends
    refine iff_of_true (.inl hends) ⟨fun h => ?_, fun h => ?_⟩
    · simp [StrayColon, hnil] at h
    · simp [StrayComma, hnil] at h
  · have hrest : _ ↔ _ := hih hends
    rw [or_iff_right hends, hrest]

theorem splitsIff_of_length {n : Nat} (hn : text.length ≤ n)
    (hends : ¬(text = [] ∨ text.head? = some ':')) (ht : endMark ∉ text)
    (hs : s = .ahead ∧ item = [] ∨ s = .bare ∧ item.head?.map Text.isBlank = some false)
    (hgo : ¬GoesOn closing s text more) :
    SplitsIff closing line whole file more s col item text := by
  induction n generalizing text s item col with
  | zero => exact absurd (.inl (List.length_eq_zero_iff.1 (Nat.le_zero.1 hn))) hends
  | succ n ih =>
    obtain ⟨c, rest, rfl⟩ := List.exists_cons_of_ne_nil fun h => hends (.inl h)
    have hce : c ≠ endMark := fun h => ht (h ▸ List.mem_cons_self)
    have hcc : c ≠ ':' := by simpa using hends
    have htr : endMark ∉ rest := fun h => ht (List.mem_cons_of_mem c h)
    have hlen : rest.length ≤ n := by simpa using hn
    have hsq : s ≠ .quoted := by rcases hs with hs | hs <;> simp [hs.1]
    have hahead (hnext : s.next c = .ahead) (col) (hends : ¬(rest = [] ∨ rest.head? = some ':')) :
        SplitsIff closing line whole file more .ahead col [] rest := by
      refine ih hlen hends htr (.inl ⟨rfl, rfl⟩) fun h => hgo (@GoesOn.word s rest closing more [c] .ahead h ?_)
      rw [List.singleton_append, Stance.statement, if_neg (by simp [hcc]), hnext,
        List.singleton_append]
    by_cases hcomma : c = ','
    · subst hcomma
      have hnext : s.next ',' = .ahead := by cases s <;> simp [Stance.next] at hsq ⊢
      exact splitsIff_comma hsq htr (hs.imp And.right And.right) (hahead hnext _)
    by_cases hblank : s = .ahead ∧ Text.isBlank c = true
    · obtain ⟨rfl, hc⟩ := hblank
      obtain rfl : item = [] := by simpa using hs
      exact splitsIff_blank hce hc (hahead (by simp [Stance.next, hc]) _)
    by_cases hopen : s = .ahead ∧ c = '"' ∧ '"' ∉ rest
    · obtain ⟨rfl, rfl, hq⟩ := hopen
      obtain rfl : item = [] := by simpa using hs
      exact splits_open hq htr hgo
    obtain ⟨word, left, hsplit, hword, htakes⟩ : ∃ word left, c :: rest = word ++ left ∧ word ≠ [] ∧
        Takes closing line whole file more s col item word left := by
      by_cases hq : s = .ahead ∧ c = '"'
      · obtain ⟨rfl, rfl⟩ := hq
        obtain rfl : item = [] := by simpa using hs
        obtain ⟨word, left, rfl, hw⟩ := List.eq_append_cons_of_mem (by_contra fun h => hopen ⟨rfl, rfl, h⟩)
        exact ⟨_, left, by simp, by simp, takes_quotes hw htr⟩
      · refine ⟨[c], rest, rfl, by simp, takes_char hce hcc ?_ ?_ htr ?_ hgo⟩
        all_goals rcases hs with ⟨rfl, rfl⟩ | ⟨rfl, hitem⟩
        · simp_all [Stance.next]
        · simp [Stance.next, hcomma]
        · simpa using hq
        · rintro rfl
          simp at hitem
        · simpa using hblank
        · rw [List.head?_append, Option.map_or, hitem]
          rfl
    rw [hsplit] at hgo hn ht ⊢
    refine htakes.splitsIff fun hends' => ih ?_ hends' (fun h => ht (List.mem_append_right _ h))
      (.inr ⟨rfl, htakes.starts⟩) fun h => hgo (h.word htakes.statement)
    have hpos := List.length_pos_of_ne_nil hword
    rw [List.length_append] at hn
    omega

/-! ### The statement behind its keyword -/

theorem statement_blank {blanks : Text} (hb : ∀ c ∈ blanks, c = ' ') :
    Stance.ahead.statement (blanks ++ text) = blanks ++ Stance.ahead.statement text := by
  induction blanks with
  | nil => rfl
  | cons c blanks ih =>
    obtain rfl : c = ' ' := hb c List.mem_cons_self
    have hnext : Stance.ahead.next ' ' = .ahead := by decide
    rw [List.cons_append, Stance.statement, if_neg (by simp), hnext,
      ih fun c hc => hb c (List.mem_cons_of_mem _ hc), List.cons_append]

theorem items_blank {blanks : Text} (hb : ∀ c ∈ blanks, c = ' ') :
    Stance.ahead.items item (blanks ++ text) = Stance.ahead.items (item ++ blanks) text := by
  induction blanks generalizing item with
  | nil => rw [List.nil_append, List.append_nil]
  | cons c blanks ih =>
    obtain rfl : c = ' ' := hb c List.mem_cons_self
    have hnext : Stance.ahead.next ' ' = .ahead := by decide
    rw [List.cons_append, Stance.items, if_neg (by simp), hnext,
      ih fun c hc => hb c (List.mem_cons_of_mem _ hc), List.append_assoc, List.singleton_append]

theorem dropWhile_spread {blanks : Text} (hb : ∀ c ∈ blanks, c = ' ') (ht : text.head? ≠ some ' ') :
    (spread line whole file col (blanks ++ text) ++ more).dropWhile (fun g => g.char == ' ') =
      spread line whole file (col + blanks.length) text ++ more := by
  induction blanks generalizing col with
  | nil =>
    cases text with
    | nil => simp [spread, endMark]
    | cons c text =>
      have hc : c ≠ ' ' := by simpa using ht
      simp [spread, hc]
  | cons c blanks ih =>
    obtain rfl : c = ' ' := hb c List.mem_cons_self
    have hlen : col + 1 + blanks.length = col + (' ' :: blanks : Text).length := by
      simp only [List.length_cons]
      omega
    rw [List.cons_append, spread, List.cons_append, List.dropWhile_cons, if_pos (by rfl),
      ih fun c hc => hb c (List.mem_cons_of_mem _ hc), hlen]

/-- The text behind DATA from its first character that is no space on. -/
def behindSpaces (text : Text) : Text := text.dropWhile (· == ' ')

/-- The text behind DATA is read up to the first colon outside quotes or to the end of its line, and
its items are those between the commas outside quotes, exactly if no colon follows a blank that starts
an item and the line does not end with a comma inside quotes. -/
theorem complete_data_iff (d : Dialect) (last : Kind) {t : Token} (ht : t.kind = .data)
    (hline : endMark ∉ text) (hgo : ¬GoesOn closing .ahead text more) :
    complete d closing last t (spread line whole file col text ++ more) =
        .ok (t :: dataTokens (.onLine line · whole file) col
            (Stance.ahead.items [] (Stance.ahead.statement text)),
          spread line whole file (col + (Stance.ahead.statement text).length)
            (text.drop (Stance.ahead.statement text).length) ++ more) ↔
      ¬StrayColon .ahead (behindSpaces text) ∧ ¬StrayComma .ahead (behindSpaces text) := by
  obtain ⟨blanks, body, rfl, hb, hbody, hspaces⟩ : ∃ blanks body, text = blanks ++ body ∧
      (∀ c ∈ blanks, c = ' ') ∧ body.head? ≠ some ' ' ∧ behindSpaces text = body := by
    refine ⟨text.takeWhile (· == ' '), _, List.takeWhile_append_dropWhile.symm, fun c hc => ?_, ?_, rfl⟩
    · simpa using List.all_eq_true.1 List.all_takeWhile c hc
    · intro h
      have hhead := List.head?_dropWhile_not (· == ' ') text
      rw [h] at hhead
      simp at hhead
  have hblank : blanks.all Text.isBlank = true := List.all_eq_true.2 fun c hc => hb c hc ▸ by decide
  have hstatement := @statement_blank body blanks hb
  have hlen : col + (blanks ++ Stance.ahead.statement body).length =
      col + blanks.length + (Stance.ahead.statement body).length := by
    simp only [List.length_append]
    omega
  have hdrop : (blanks ++ body).drop (blanks ++ Stance.ahead.statement body).length =
      body.drop (Stance.ahead.statement body).length := by
    rw [List.length_append, ← List.drop_drop, List.drop_left]
  have hitems := @dataTokens_blank .ahead [] (Stance.ahead.statement body) (.onLine line · whole file)
    col blanks hblank
  rw [List.append_nil] at hitems
  have hte : endMark ∉ body := fun h => hline (List.mem_append_right _ h)
  rw [hspaces, hstatement, items_blank hb, List.nil_append, hitems, hlen, hdrop]
  simp only [complete, ht, dataFields, dropWhile_spread hb hbody, place_spread, Except.ok.injEq,
    Prod.mk.injEq, List.cons.injEq, true_and]
  by_cases hends : body = [] ∨ body.head? = some ':'
  · have hnil := Stance.statement_eq_nil (s := .ahead) (by simp) hends
    rw [if_pos ((endsData_spread hte).2 hends), StrayColon, StrayComma, hnil]
    exact iff_of_true (by simp [Stance.items, dataTokens]) (by simp)
  · rw [if_neg fun h => hends ((endsData_spread hte).1 h)]
    have hsplits : SplitsIff closing line whole file more .ahead (col + blanks.length) [] body :=
      splitsIff_of_length (Nat.le_refl _) hends hte (.inl ⟨rfl, rfl⟩) fun h => hgo (h.word hstatement)
    rw [SplitsIff, Splits, List.length_nil, Int.cast_ofNat_Int, Int.add_zero, Prod.ext_iff] at hsplits
    exact hsplits

end

/-- A quoted item with a comma and a colon in it, an empty item and one in front of the next
statement. -/
theorem complete_data_quoted : endMark ∉ (" 1, \"a,b:c\" d,, e :print" : String).toList ∧
    complete .coco 0 .newline ⟨.data, "data", {}⟩
        (spread 1 "data 1, \"a,b:c\" d,, e :print" "/main" 5 " 1, \"a,b:c\" d,, e :print") =
      .ok ([⟨.data, "data", {}⟩, ⟨.dataField, "1", .onLine 1 6 "data 1, \"a,b:c\" d,, e :print" "/main"⟩,
        ⟨.symbol, ",", .onLine 1 7 "data 1, \"a,b:c\" d,, e :print" "/main"⟩,
        ⟨.dataField, "\"a,b:c\" d", .onLine 1 9 "data 1, \"a,b:c\" d,, e :print" "/main"⟩,
        ⟨.symbol, ",", .onLine 1 18 "data 1, \"a,b:c\" d,, e :print" "/main"⟩,
        ⟨.dataField, "", .onLine 1 19 "data 1, \"a,b:c\" d,, e :print" "/main"⟩,
        ⟨.symbol, ",", .onLine 1 19 "data 1, \"a,b:c\" d,, e :print" "/main"⟩,
        ⟨.dataField, "e ", .onLine 1 21 "data 1, \"a,b:c\" d,, e :print" "/main"⟩],
        spread 1 "data 1, \"a,b:c\" d,, e :print" "/main" 23 ":print") := by
  have hline : endMark ∉ (" 1, \"a,b:c\" d,, e :print" : String).toList := by decide
  have hgo : ¬GoesOn 0 .ahead (" 1, \"a,b:c\" d,, e :print" : String).toList [] := by
    rintro ⟨-, hlast, -⟩
    revert hlast
    decide
  have hcolon : ¬StrayColon .ahead (behindSpaces (" 1, \"a,b:c\" d,, e :print" : String).toList) := by
    rintro ⟨-, hfold, -⟩
    revert hfold
    decide
  have hcomma : ¬StrayComma .ahead (behindSpaces (" 1, \"a,b:c\" d,, e :print" : String).toList) := by
    rintro ⟨hfold, -⟩
    revert hfold
    decide
  refine ⟨hline, ?_⟩
  have h := (@complete_data_iff _ 5 0 [] 1 "data 1, \"a,b:c\" d,, e :print" "/main" .coco .newline
    ⟨.data, "data", {}⟩ rfl hline hgo).2 ⟨hcolon, hcomma⟩
  rw [List.append_nil] at h
  rw [h]
  rfl

/-- A colon behind a comma and a blank is taken for an item. -/
theorem colon_behind_blank_swallowed :
    complete .msx 0 .newline ⟨.data, "data", {}⟩
        (spread 1 "data 1, :print 2" "/main" 5 " 1, :print 2") ≠
      .ok (⟨.data, "data", {}⟩ :: dataTokens (.onLine 1 · "data 1, :print 2" "/main") 5
          (Stance.ahead.items [] (Stance.ahead.statement " 1, :print 2")),
        spread 1 "data 1, :print 2" "/main" 9 ":print 2") := by
  intro h
  have hlen := congrArg (fun r => r.toOption.map fun r => r.2.length) h
  revert hlen
  decide +kernel

end ClassicBasic.Lexer
