import ClassicBasic.Lexer.Glyph

/-!
# The items of DATA

Items run to the next comma, statement separator or line end. An item whose first character is a
quote may hold commas and separators up to the next quote. An item that ends in an underscore at the
end of a line goes on in the next line.
-/

set_option autoImplicit false

namespace ClassicBasic.Lexer

/-- Characters up to and including the next quote, or up to the end of the line, and the rest. -/
def quotedTail : List Glyph → Text × List Glyph
  | [] => ([], [])
  | g :: rest =>
    if g.char = Glyph.endMark then ([], g :: rest)
    else if g.char = '"' then (['"'], rest)
    else (g.char :: (quotedTail rest).1, (quotedTail rest).2)

theorem length_quotedTail (input : List Glyph) : (quotedTail input).2.length ≤ input.length := by
  induction input with
  | nil => simp [quotedTail]
  | cons g rest ih =>
    simp only [quotedTail]
    split
    · simp
    · split
      · simp
      · exact Nat.le_succ_of_le ih

def endsData : List Glyph → Bool
  | [] => true
  | g :: _ => g.char == Glyph.endMark || g.char == ':'

def endsLine : List Glyph → Bool
  | [] => true
  | g :: _ => g.char == Glyph.endMark

/-- One more character of an item `part`, with all of a quoted text when it opens one. -/
def dataPart (part : Text) (g : Glyph) (rest : List Glyph) : Text × List Glyph :=
  if part = [] ∧ g.char = '"' then ('"' :: (quotedTail rest).1, (quotedTail rest).2)
  else (part ++ [g.char], rest)

theorem length_dataPart (part : Text) (g : Glyph) (rest : List Glyph) :
    (dataPart part g rest).2.length ≤ rest.length := by
  unfold dataPart
  split
  · exact length_quotedTail rest
  · exact Nat.le_refl _

/-- The next line, when an item that ends here goes on there. -/
def continued? (closing : Nat) (item : Text) (left : List Glyph) : Option (List Glyph) :=
  if endsLine left && item.getLast? == some '_' then Glyph.nextLine? closing left else none

theorem length_continued {closing : Nat} {item : Text} {left next : List Glyph}
    (h : continued? closing item left = some next) : next.length < left.length := by
  unfold continued? at h
  split at h
  · exact Glyph.length_nextLine h
  · cases h

/-- Reads items from inside one: `part` is the text of the item on this line, `joined` its text on
earlier lines and `start` its place. -/
def dataItems (closing : Nat) (start : Position) (joined part : Text) (input : List Glyph) :
    List Token × List Glyph :=
  match input with
  | [] => ([], [])
  | g :: rest =>
    if g.char = Glyph.endMark then
      (if joined = [] then [] else [⟨.dataField, joined, start⟩], g :: rest)
    else if (part ++ [g.char]).all Text.isBlank then
      dataItems closing (Glyph.place rest) joined [] rest
    else
      let item := (dataPart part g rest).1
      let left := (dataPart part g rest).2
      let comma := item.getLast? == some ','
      if !comma && !endsData left then dataItems closing start joined item left
      else
        match _h : continued? closing item left with
        | some next => dataItems closing start (joined ++ item.dropLast) [] next
        | none =>
          if comma then
            let here := Glyph.place left
            let tokens :=
              [⟨.dataField, joined ++ item.dropLast, start⟩,
                ⟨.symbol, ",", here.withCol (here.col - 1)⟩]
            if endsData left then (tokens, left)
            else
              let more := dataItems closing here [] [] left
              (tokens ++ more.1, more.2)
          else ([⟨.dataField, joined ++ item, start⟩], left)
termination_by input.length
decreasing_by
  · simp
  · have := length_dataPart part g rest
    simp only [List.length_cons]
    omega
  · have := length_dataPart part g rest
    have : next.length < (dataPart part g rest).2.length := length_continued _h
    simp only [List.length_cons]
    omega
  · have := length_dataPart part g rest
    simp only [List.length_cons]
    omega

/-- The items behind a DATA keyword, and what follows the statement. -/
def dataFields (closing : Nat) (input : List Glyph) : List Token × List Glyph :=
  let body := input.dropWhile fun g => g.char == ' '
  if endsData body then ([], body) else dataItems closing (Glyph.place body) [] [] body

theorem length_dataItems (closing : Nat) (start : Position) (joined part : Text)
    (input : List Glyph) : (dataItems closing start joined part input).2.length ≤ input.length := by
  fun_induction dataItems closing start joined part input with
  | case1 => simp
  | case2 => simp
  | case3 => simp only [List.length_cons]; omega
  | case4 _ _ part g rest _ _ _ _ _ _ ih =>
    have : (dataPart part g rest).2.length ≤ rest.length := length_dataPart part g rest
    exact Nat.le_succ_of_le (Nat.le_trans ih this)
  | case5 _ _ part g rest _ _ _ _ _ _ next hn ih =>
    have : (dataPart part g rest).2.length ≤ rest.length := length_dataPart part g rest
    have : next.length < (dataPart part g rest).2.length := length_continued hn
    exact Nat.le_succ_of_le (Nat.le_trans ih (by omega))
  | case6 _ _ part g rest => exact Nat.le_succ_of_le (length_dataPart part g rest)
  | case7 _ _ part g rest _ _ _ _ _ _ _ _ _ _ _ more ih =>
    exact Nat.le_succ_of_le (Nat.le_trans ih (length_dataPart part g rest))
  | case8 _ _ part g rest => exact Nat.le_succ_of_le (length_dataPart part g rest)

theorem length_dataFields (closing : Nat) (input : List Glyph) :
    (dataFields closing input).2.length ≤ input.length := by
  have hb := Glyph.length_dropWhile_le (fun g : Glyph => g.char == ' ') input
  unfold dataFields
  dsimp only
  split
  · exact hb
  · exact Nat.le_trans (length_dataItems _ _ _ _ _) hb

end ClassicBasic.Lexer
