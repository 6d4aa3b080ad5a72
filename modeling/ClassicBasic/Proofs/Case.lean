import ClassicBasic.Text.Case
import Mathlib.Data.List.TakeWhile

/-!
# What letter case and trimming leave alone

The case maps move letters only. A character of ASCII that is no small letter is the lower case of
no other character but of a capital one, so a sign in a text in small letters was there before.
-/

set_option autoImplicit false

namespace ClassicBasic.Text

theorem isLower_iff_toNat {c : Char} : c.isLower = true ↔ 97 ≤ c.toNat ∧ c.toNat ≤ 122 := by
  show (decide (97 ≤ c.val) && decide (c.val ≤ 122)) = true ↔ _
  simp [UInt32.le_iff_toNat_le]

theorem isUpper_iff_toNat {c : Char} : c.isUpper = true ↔ 65 ≤ c.toNat ∧ c.toNat ≤ 90 := by
  show decide (65 ≤ c.val ∧ c.val ≤ 90) = true ↔ _
  simp [UInt32.le_iff_toNat_le]

theorem toNat_lt_of_isAlphanum {c : Char} (h : c.isAlphanum = true) : c.toNat < 128 := by
  rcases Bool.or_eq_true_iff.1 h with h | h
  · rcases Bool.or_eq_true_iff.1 h with h | h
    · have := isUpper_iff_toNat.1 h
      omega
    · have := isLower_iff_toNat.1 h
      omega
  · have := Char.isDigit_iff_toNat.1 h
    simp at this
    omega

/-- Whether the runs of a case map that reach into ASCII move one code point each, onto a letter that
`p` holds of. -/
def Lands (p : Char → Bool) (ranges : List CaseRange) : Prop :=
  ∀ r ∈ ranges, 0x80 ≤ (r.first : Int) + r.shift ∨
    (r.first = r.last ∧ p (Char.ofNat ((r.first : Int) + r.shift).toNat) = true)

instance (p : Char → Bool) (ranges : List CaseRange) : Decidable (Lands p ranges) :=
  inferInstanceAs (Decidable (∀ r ∈ ranges, _))

theorem lands_lower : Lands Char.isLower lowerRanges := by decide +kernel

theorem lands_upper : Lands Char.isUpper upperRanges := by decide +kernel

theorem lands_fold : Lands Char.isLower foldRanges := by decide

theorem shiftBy_lands {p : Char → Bool} {ranges : List CaseRange} {c x : Char}
    (hr : Lands p ranges) (h : shiftBy ranges c = some x) (hx : x.toNat < 0x80) :
    p x = true ∨ x = '\x00' := by
  obtain ⟨r, hmem, rfl⟩ := Option.map_eq_some_iff.1 h
  have hc := List.find?_some hmem
  simp only [CaseRange.covers, Bool.and_eq_true, decide_eq_true_eq] at hc
  rcases hr r (List.mem_of_find?_eq_some hmem) with hl | ⟨he, hl⟩
  · right
    have hge : 0x80 ≤ ((c.toNat : Int) + r.shift).toNat := by omega
    by_cases hv : ((c.toNat : Int) + r.shift).toNat.isValidChar
    · have hn : (Char.ofNat ((c.toNat : Int) + r.shift).toNat).toNat =
          ((c.toNat : Int) + r.shift).toNat := by
        rw [Char.ofNat, dif_pos hv]
        rfl
      omega
    · rw [Char.ofNat, dif_neg hv]
      rfl
  · left
    have heq : c.toNat = r.first := by omega
    rw [heq]
    exact hl

theorem toLower_eq {c x : Char} (h : c.toLower = x) (hx : x.isLower = false) : c = x := by
  unfold Char.toLower at h
  split at h
  · rename_i hc
    subst h
    have hl := mt isLower_iff_toNat.2 (by simpa using hx)
    simp only [ge_iff_le, UInt32.le_iff_toNat_le] at hc
    simp [UInt32.toNat_add] at hl hc
    omega
  · exact h

theorem lowerChar_eq {c x : Char} (h : lowerChar c = x) (hx : x.toNat < 0x80)
    (hl : x.isLower = false) (h0 : x ≠ '\x00') : c = x := by
  unfold lowerChar at h
  split at h
  · exact toLower_eq h hl
  · cases hs : shiftBy lowerRanges c with
    | none => simpa [hs] using h
    | some y =>
      simp only [hs, Option.getD_some] at h
      subst h
      rcases shiftBy_lands lands_lower hs hx with hy | hy
      · simp [hy] at hl
      · exact absurd hy h0

theorem toUpper_eq {c x : Char} (h : c.toUpper = x) (hx : x.isUpper = false) : c = x := by
  unfold Char.toUpper at h
  split at h
  · rename_i hc
    subst h
    have hl := mt isUpper_iff_toNat.2 (by simpa using hx)
    simp only [UInt32.le_iff_toNat_le] at hc
    simp [UInt32.toNat_add] at hl hc
    omega
  · exact h

theorem upperChar_eq {c x : Char} (h : upperChar c = x) (hx : x.toNat < 0x80)
    (hl : x.isUpper = false) (h0 : x ≠ '\x00') : c = x := by
  unfold upperChar at h
  split at h
  · exact toUpper_eq h hl
  · cases hs : shiftBy upperRanges c with
    | none => simpa [hs] using h
    | some y =>
      simp only [hs, Option.getD_some] at h
      subst h
      rcases shiftBy_lands lands_upper hs hx with hy | hy
      · simp [hy] at hl
      · exact absurd hy h0

theorem foldChar_eq {c x : Char} (h : foldChar c = x) (hx : x.toNat < 0x80)
    (hl : x.isLower = false) (h0 : x ≠ '\x00') : c = x := by
  unfold foldChar at h
  split at h
  · exact toLower_eq h hl
  · cases hs : shiftBy foldRanges c with
    | none =>
      rw [hs] at h
      exact lowerChar_eq h hx hl h0
    | some y =>
      simp only [hs, Option.getD_some] at h
      subst h
      rcases shiftBy_lands lands_fold hs hx with hy | hy
      · simp [hy] at hl
      · exact absurd hy h0

def isCaseless (c : Char) : Bool :=
  foldChar c == c && decide (c.toNat < 0x80) && !c.isLower && c != '\x00'

theorem eq_of_sameLetters {w v : Text} (hw : w.all isCaseless = true)
    (h : sameLetters w v = true) : v = w := by
  induction w generalizing v with
  | nil =>
    cases v with
    | nil => rfl
    | cons c v => cases h
  | cons x w ih =>
    cases v with
    | nil => cases h
    | cons c v =>
      simp only [sameLetters, Bool.and_eq_true, beq_iff_eq] at h
      simp only [List.all_cons, Bool.and_eq_true, isCaseless, beq_iff_eq, decide_eq_true_eq,
        bne_iff_ne, Bool.not_eq_true'] at hw
      obtain ⟨⟨⟨⟨hself, hascii⟩, hlower⟩, hzero⟩, hrest⟩ := hw
      rw [foldChar_eq (h.1.symm.trans hself) hascii hlower hzero, ih hrest h.2]

theorem trimEnd_append {p : Char → Bool} {s : Text} (h : ∀ c ∈ s, p c = false) (t : Text) :
    trimEnd p (s ++ t) = s ++ trimEnd p t := by
  have hkeep : s.reverse.dropWhile p = s.reverse := by
    rw [List.dropWhile_eq_self_iff]
    intro hlt
    simpa using h _ (List.mem_reverse.1 (List.getElem_mem hlt))
  unfold trimEnd
  rw [List.reverse_append, List.dropWhile_append]
  split
  · rename_i hnil
    rw [hkeep, List.isEmpty_iff.1 hnil]
    simp
  · simp

theorem trimEnd_append_takeWhile (p : Char → Bool) (v : Text) :
    trimEnd p v ++ (v.reverse.takeWhile p).reverse = v := by
  rw [trimEnd, ← List.reverse_append, List.takeWhile_append_dropWhile, List.reverse_reverse]

/-- The bytes of a character of a text are among those of the text. -/
theorem bytes_of_mem {s : String} {c : Char} (h : c ∈ s.toList) :
    ∀ b ∈ String.utf8EncodeChar c, b ∈ s.toByteArray.data.toList := by
  intro b hb
  rw [← String.ofList_toList (s := s), String.toByteArray_ofList, List.utf8Encode]
  simpa using ⟨c, h, hb⟩

end ClassicBasic.Text
