/-!
# Text

Program text is a list of characters, so that reading it is recursion on the list. A string literal
stands for its characters wherever a text is expected.
-/

set_option autoImplicit false

namespace ClassicBasic

abbrev Text := List Char

instance : Coe String Text := ⟨String.toList⟩

namespace Text

def ofStrings (strings : List String) : List Text := strings.map String.toList

/-- The texts of strings of ASCII characters, a character for each byte. -/
def ofAscii (strings : List String) : List Text :=
  strings.map fun s => s.toByteArray.data.toList.map fun byte => Char.ofNat byte.toNat

theorem map_utf8EncodeChar {t : Text} (h : ∀ c ∈ t, c.toNat ≤ 127) :
    (t.flatMap String.utf8EncodeChar).map (fun byte => Char.ofNat byte.toNat) = t := by
  induction t with
  | nil => rfl
  | cons c t ih =>
    rw [List.forall_mem_cons] at h
    have hbyte : String.utf8EncodeChar c = [UInt8.ofNat c.toNat] := by
      simp only [String.utf8EncodeChar]
      exact if_pos h.1
    have hchar : (UInt8.ofNat c.toNat).toNat = c.toNat := by
      rw [UInt8.toNat_ofNat']
      omega
    rw [List.flatMap_cons, hbyte, List.map_append, List.map_singleton, hchar, Char.ofNat_toNat, ih h.2]
    rfl

theorem ofAscii_eq {strings : List String}
    (h : (strings.all fun s => s.toList.all fun c => c.toNat ≤ 127) = true) :
    ofAscii strings = ofStrings strings := by
  simp only [List.all_eq_true, decide_eq_true_eq] at h
  refine List.map_congr_left fun s hs => ?_
  have hbytes : s.toByteArray.data.toList = s.toList.flatMap String.utf8EncodeChar := by
    rw [← String.ofList_toList (s := s), String.toByteArray_ofList, String.toList_ofList, List.utf8Encode]
    simp
  rw [hbytes, map_utf8EncodeChar (h s hs)]

/-- Whether the code point of `c` lies in one of the closed ranges. -/
def inRanges (ranges : List (Nat × Nat)) (c : Char) : Bool :=
  ranges.any fun r => r.1 ≤ c.toNat && c.toNat ≤ r.2

/-- Drops the longest run of characters satisfying `p` from the end. -/
def trimEnd (p : Char → Bool) (t : Text) : Text := (t.reverse.dropWhile p).reverse

/-- Drops the longest runs of characters satisfying `p` from both ends. -/
def trimBoth (p : Char → Bool) (t : Text) : Text := trimEnd p (t.dropWhile p)

/-- The pieces of a list between the occurrences of `c`; there is always one more than
occurrences. -/
def splitAt {α : Type} [DecidableEq α] (c : α) : List α → List (List α)
  | [] => [[]]
  | x :: t =>
    match splitAt c t with
    | [] => [[x]]
    | piece :: rest => if x = c then [] :: piece :: rest else (x :: piece) :: rest

/-- The pieces one after the other with `sep` between neighbours. -/
def joinWith (sep : Text) : List Text → Text
  | [] => []
  | [t] => t
  | t :: rest => t ++ sep ++ joinWith sep rest

/-- `t` followed by as many blanks as bring it to `width` characters. -/
def padTo (width : Nat) (t : Text) : Text := t ++ List.replicate (width - t.length) ' '

/-- The number of bytes of `t` in UTF-8. -/
def byteCount (t : Text) : Nat := t.foldr (fun c n => c.utf8Size + n) 0

/-- `t` without `tail` at its end, if it ends so. -/
def dropTail (tail t : Text) : Option Text :=
  if tail.isSuffixOf t then some (t.take (t.length - tail.length)) else none

def ofNat (n : Nat) : Text := Nat.toDigits 10 n

/-- The decimal numeral of an integer, negative ones with a leading minus sign. -/
def ofInt : Int → Text
  | .ofNat n => ofNat n
  | .negSucc n => '-' :: ofNat (n + 1)

theorem splitAt_ne_nil {α : Type} [DecidableEq α] (c : α) (t : List α) : splitAt c t ≠ [] := by
  cases t with
  | nil => simp [splitAt]
  | cons x t =>
    simp only [splitAt]
    split
    · simp
    · split <;> simp

end Text

end ClassicBasic
