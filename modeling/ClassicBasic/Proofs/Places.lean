import ClassicBasic.Program.Label
import ClassicBasic.Proofs.Arithmetic
import ClassicBasic.Proofs.Expansion
import ClassicBasic.Proofs.Homed
import ClassicBasic.Proofs.Spaced

/-!
# The offset of a place on the screen

The arguments of PRINT at a place are split at the first comma outside parentheses, and the offset that
is written for them comes to 32 times the second argument and the first. Two numerals are folded to one,
in words of 64 bits: the fold is right as long as the offset fits into a word.
-/

set_option autoImplicit false

namespace ClassicBasic

/-! ### Numerals -/

namespace Text

theorem digitValue_lt {c : Char} {n : Nat} (h : digitValue c = some n) (hn : n < 10) :
    c.isDigit = true ∧ n = c.toNat - '0'.toNat := by
  unfold digitValue at h
  split at h
  · exact ⟨‹_›, (Option.some.inj h).symm⟩
  · split at h
    · have := Option.some.inj h
      omega
    · cases h

theorem natInBase_ten {v : Text} {m n : Nat} (h : natInBase 10 m v = .ok n) :
    (∀ c ∈ v, c.isDigit = true) ∧ n = Nat.ofDigitChars 10 v m := by
  induction v generalizing m with
  | nil =>
    cases h
    exact ⟨by simp, rfl⟩
  | cons c v ih =>
    simp only [natInBase] at h
    split at h
    · cases h
    · rename_i k hk
      split at h
      · cases h
      · split at h
        · cases h
        · obtain ⟨hdigit, rfl⟩ := digitValue_lt hk (by omega)
          obtain ⟨hv, rfl⟩ := ih h
          refine ⟨List.forall_mem_cons.2 ⟨hdigit, hv⟩, ?_⟩
          rw [Nat.ofDigitChars_cons, Nat.mul_comm m 10]

theorem le_ofDigitChars (v : Text) (m : Nat) : m ≤ Nat.ofDigitChars 10 v m := by
  induction v generalizing m with
  | nil => exact Nat.le_refl _
  | cons c v ih =>
    rw [Nat.ofDigitChars_cons]
    exact Nat.le_trans (by omega) (ih _)

/-- Digits are read as the number they make when it fits into a word. -/
theorem natInBase_digits {v : Text} {m : Nat} (hv : ∀ c ∈ v, c.isDigit = true)
    (h : Nat.ofDigitChars 10 v m < Word.size) : natInBase 10 m v = .ok (Nat.ofDigitChars 10 v m) := by
  induction v generalizing m with
  | nil => rfl
  | cons c v ih =>
    obtain ⟨hc, hv⟩ := List.forall_mem_cons.1 hv
    rw [Nat.ofDigitChars_cons, Nat.mul_comm] at h ⊢
    have hlow : '0'.toNat ≤ c.toNat ∧ c.toNat ≤ '9'.toNat := by
      simpa [Char.isDigit, UInt32.le_iff_toNat_le] using hc
    have hnine : '9'.toNat = '0'.toNat + 9 := by decide
    have hle := le_ofDigitChars v (m * 10 + (c.toNat - '0'.toNat))
    rw [natInBase, digitValue, if_pos hc]
    dsimp only
    rw [if_neg (by omega), if_neg (by omega), ih hv h]

theorem readInt_unsigned {v : Text} {n : Int} (hsplit : splitSign v = (false, v))
    (h : readInt v = .ok n) :
    v ≠ [] ∧ (∀ c ∈ v, c.isDigit = true) ∧ n = Nat.ofDigitChars 10 v 0 ∧ n < Word.half := by
  unfold readInt at h
  simp only [hsplit] at h
  split at h
  · cases h
  · rename_i hne
    cases hread : natInBase 10 0 v with
    | error e =>
      rw [hread] at h
      cases h
    | ok k =>
      obtain ⟨hdigits, hk⟩ := natInBase_ten hread
      rw [hread] at h
      change signedWord false k = .ok n at h
      rw [signedWord, if_neg (by decide)] at h
      split at h
      · cases h
        exact ⟨hne, hdigits, by rw [hk], by omega⟩
      · cases h

theorem readInt_digits {v : Text} (hne : v ≠ []) (hv : ∀ c ∈ v, c.isDigit = true)
    (h : Nat.ofDigitChars 10 v 0 < Word.half) : readInt v = .ok (Nat.ofDigitChars 10 v 0) := by
  have hsplit : splitSign v = (false, v) := by
    unfold splitSign
    split
    · simp at hv
    · simp at hv
    · rfl
  have hread : natInBase 10 0 v = .ok (Nat.ofDigitChars 10 v 0) :=
    natInBase_digits hv (by unfold Word.half at h; unfold Word.size; omega)
  unfold readInt
  simp only [hsplit, hne, if_false, hread]
  change signedWord false _ = _
  rw [signedWord, if_neg (by decide), if_pos h]

theorem wrap_eq_iff {n : Int} (hn : 0 ≤ n) : wrap n = n ↔ n < Word.half := by
  refine ⟨fun h => ?_, fun h => wrap_of_range (by unfold Word.half; omega) h⟩
  have := Int.bmod_lt (x := n) (m := Word.size) (by decide)
  rw [← wrap, h] at this
  unfold Word.half
  unfold Word.size at this
  omega

theorem wrap_mul_add (a b : Int) : wrap (wrap a + b) = wrap (a + b) := Int.bmod_add_bmod ..

end Text

namespace Lexer

variable {d : Dialect} {pos : Position}

theorem munch_digits {taken v : Text} {k : Kind} (hk : d.classify taken = some k) (hne : taken ≠ [])
    (ht : ∀ c ∈ taken, c.isDigit = true) (hv : ∀ c ∈ v, c.isDigit = true) :
    munch id d taken k v = (taken ++ v, .number, []) := by
  induction v generalizing taken k with
  | nil =>
    rw [Dialect.classify_digits hne ht] at hk
    cases hk
    simp [munch]
  | cons c v ih =>
    obtain ⟨hc, hv⟩ := List.forall_mem_cons.1 hv
    have hgrown : ∀ x ∈ taken ++ [c], x.isDigit = true := by
      simpa [or_imp, forall_and] using ⟨ht, hc⟩
    have hclass := Dialect.classify_digits (d := d) (by simp) hgrown
    rw [munch, id, hclass]
    simp only [ih hclass (by simp) hgrown hv, List.append_assoc, List.singleton_append]

theorem snippet_digits {v : Text} (hne : v ≠ []) (hv : ∀ c ∈ v, c.isDigit = true) :
    snippet d pos v = [⟨.number, v, pos⟩] := by
  obtain ⟨c, rest, rfl⟩ := List.exists_cons_of_ne_nil hne
  obtain ⟨hc, hrest⟩ := List.forall_mem_cons.1 hv
  have hclass : d.classify [c] = some .number :=
    Dialect.classify_digits (by simp) (by simpa using hc)
  have hmunch := munch_digits hclass (by simp) (by simpa using hc) hrest
  rw [snippet, snippet?]
  simp [hclass, hmunch, snippet?, Except.map]

theorem snippet_minus {v : Text} (hne : v ≠ []) (hv : ∀ c ∈ v, c.isDigit = true) :
    snippet d pos ('-' :: v) = [⟨.symbol, "-", pos⟩, ⟨.number, v, pos⟩] := by
  obtain ⟨c, rest, rfl⟩ := List.exists_cons_of_ne_nil hne
  have hminus : d.classify ['-'] = some .symbol := Dialect.classify_sign (by decide)
  have hall : "0123456789".toList.all (fun c => (d.classify ['-', c]).isNone && c != ' ') = true := by
    simp only [Dialect.classify_spelled]
    cases d <;> decide
  have hc := List.all_eq_true.1 hall c (Text.mem_digits (hv c List.mem_cons_self))
  rw [Bool.and_eq_true, Option.isNone_iff_eq_none, bne_iff_ne] at hc
  have hmunch : munch id d ['-'] .symbol (c :: rest) = (['-'], .symbol, c :: rest) := by
    rw [munch, id, List.singleton_append, hc.1]
  have hdigits : snippet d pos (c :: rest) = [⟨.number, c :: rest, pos⟩] := snippet_digits hne hv
  rw [snippet] at hdigits ⊢
  rw [snippet?]
  simp only [hminus, hmunch, List.dropWhile_cons, beq_iff_eq, hc.2, if_false]
  cases hread : snippet? d pos (c :: rest) with
  | error e =>
    rw [hread] at hdigits
    cases hdigits
  | ok tokens =>
    rw [hread] at hdigits
    change tokens = _ at hdigits
    rw [hdigits]
    rfl

end Lexer

theorem Dialect.splitSign_number {d : Dialect} {v : Text} (h : d.classify v = some .number) :
    Text.splitSign v = (false, v) := by
  unfold Text.splitSign
  split
  · rcases accepts_number h with ha | ha
    · simp [Grammar.isDecimal] at ha
    · simp [Grammar.isBased] at ha
  · rcases accepts_number h with ha | ha
    · simp [Grammar.isDecimal] at ha
    · simp [Grammar.isBased] at ha
  · rfl

namespace PrintAt

open Expression (isOpening isClosing)

/-! ### Reading numbers off runs of tokens -/

variable {l l' run x y : List Token} {a b : ℚ} {m n : Nat} {pos : Position} {t left right : Token}

/-- What comes to a number by numerals, groups, signs, products and sums. `Reads` says what stands for a
number in a group; outside groups all operators have the rank `n` and above. -/
inductive Reckons (Reads : List Token → ℚ → Prop) : Nat → List Token → ℚ → Prop
  | numeral {v : Text} {pos : Position} (hne : v ≠ []) (hv : ∀ c ∈ v, c.isDigit = true) :
      Reckons Reads 6 [⟨.number, v, pos⟩] (Nat.ofDigitChars 10 v 0)
  | group {l : List Token} {a : ℚ} {left right : Token} (hl : isOpening left = true)
      (hr : isClosing right = true) (h : Reads l a) : Reckons Reads 6 (left :: (l ++ [right])) a
  | negated {l : List Token} {a : ℚ} {pos : Position} (h : Reckons Reads 4 l a) :
      Reckons Reads 4 (⟨.symbol, "-", pos⟩ :: l) (-a)
  | product {l l' : List Token} {a b : ℚ} {pos : Position} (h : Reckons Reads 3 l a)
      (h' : Reckons Reads 4 l' b) : Reckons Reads 3 (l ++ ⟨.symbol, "*", pos⟩ :: l') (a * b)
  | sum {l l' : List Token} {a b : ℚ} {pos : Position} (h : Reckons Reads 0 l a)
      (h' : Reckons Reads 1 l' b) : Reckons Reads 0 (l ++ ⟨.symbol, "+", pos⟩ :: l') (a + b)
  | loosen {l : List Token} {a : ℚ} {m n : Nat} (hm : m ≤ n) (h : Reckons Reads n l a) :
      Reckons Reads m l a

/-- How a machine reads numbers off runs of tokens under a valuation of the variables: a run stands for
one number at most, and sums, products and groups are read as usual. -/
structure Reading where
  Reads : List Token → ℚ → Prop
  unique : ∀ {l a b}, Reads l a → Reads l b → a = b
  reckons : ∀ {l a}, Reckons Reads 0 l a → Reads l a

namespace Reading

variable {R : Reading}

/-- What an argument stands for, an empty one counting as nought. -/
def Denotes (R : Reading) (l : List Token) (a : ℚ) : Prop := if l = [] then a = 0 else R.Reads l a

theorem reads_numeral {v : Text} (hne : v ≠ []) (hv : ∀ c ∈ v, c.isDigit = true) :
    R.Reads [⟨.number, v, pos⟩] (Nat.ofDigitChars 10 v 0) :=
  R.reckons (.loosen (Nat.zero_le 6) (.numeral hne hv))

theorem reads_ofInt (n : Int) : R.Reads (Lexer.snippet .coco pos (Text.ofInt n)) n := by
  have hdigits (k : Nat) : ∀ c ∈ Text.ofNat k, c.isDigit = true := fun _ => Text.isDigit_of_mem_ofNat
  have hne (k : Nat) : Text.ofNat k ≠ [] := Nat.toDigits_ne_nil
  have hnumeral (k : Nat) : Reckons R.Reads 6 [⟨.number, Text.ofNat k, pos⟩] k := by
    have : Reckons R.Reads 6 [⟨.number, Text.ofNat k, pos⟩] (Nat.ofDigitChars 10 (Text.ofNat k) 0) :=
      .numeral (hne k) (hdigits k)
    rwa [Text.ofNat, Nat.ofDigitChars_ten_toDigits] at this
  cases n with
  | ofNat k =>
    rw [Text.ofInt, Lexer.snippet_digits (hne k) (hdigits k)]
    exact R.reckons (.loosen (Nat.zero_le 6) (hnumeral k))
  | negSucc k =>
    rw [Text.ofInt, Lexer.snippet_minus (hne (k + 1)) (hdigits (k + 1)), Int.cast_negSucc]
    exact R.reckons (.loosen (Nat.zero_le 4) (.negated (.loosen (by decide) (hnumeral (k + 1)))))

/-- The offset that is not folded. -/
def unfolded (pos : Position) (x y : List Token) : List Token :=
  Lexer.snippet .coco pos "32*(" ++ y ++ Lexer.snippet .coco pos ")+(" ++ x ++
    Lexer.snippet .coco pos ")"

theorem unfolded_eq : unfolded pos x y =
    [⟨.number, "32", pos⟩] ++ ⟨.symbol, "*", pos⟩ :: (⟨.symbol, "(", pos⟩ :: (y ++ [⟨.symbol, ")", pos⟩])) ++
      ⟨.symbol, "+", pos⟩ :: (⟨.symbol, "(", pos⟩ :: (x ++ [⟨.symbol, ")", pos⟩])) := by
  have htimes : Lexer.snippet .coco pos "32*(" = _ := Lexer.snippet_fixed
    (p := ("32*(", [(.number, "32"), (.symbol, "*"), (.symbol, "(")])) (by decide) pos
  have hplus : Lexer.snippet .coco pos ")+(" = _ := Lexer.snippet_fixed
    (p := (")+(", [(.symbol, ")"), (.symbol, "+"), (.symbol, "(")])) (by decide) pos
  have hclosing : Lexer.snippet .coco pos ")" = _ := Lexer.snippet_fixed
    (p := (")", [(.symbol, ")")])) (by decide) pos
  rw [unfolded, htimes, hplus, hclosing]
  simp only [List.map_cons, List.map_nil, List.append_assoc, List.cons_append, List.nil_append]

theorem reads_unfolded (hx : R.Reads x a) (hy : R.Reads y b) :
    R.Reads (unfolded pos x y) (32 * b + a) := by
  have hopen : isOpening ⟨.symbol, "(", pos⟩ = true := rfl
  have hclose : isClosing ⟨.symbol, ")", pos⟩ = true := rfl
  have hcolumns : Reckons R.Reads 6 [⟨.number, "32", pos⟩] 32 :=
    .numeral (v := "32") (by decide) (by simp)
  rw [unfolded_eq]
  exact R.reckons (.sum (.loosen (Nat.zero_le 3) (.product (.loosen (by decide) hcolumns)
    (.loosen (by decide) (.group hopen hclose hy)))) (.loosen (by decide) (.group hopen hclose hx)))

/-- A numeral of the dialect that a signed word holds, and the number that it stands for. -/
def Numeral (l : List Token) (n : Nat) : Prop :=
  ∃ v pos, l = [⟨.number, v, pos⟩] ∧ v ≠ [] ∧ (∀ c ∈ v, c.isDigit = true) ∧
    n = Nat.ofDigitChars 10 v 0 ∧ n < Word.half

theorem Numeral.reads (h : Numeral l n) : R.Reads l n := by
  obtain ⟨v, pos, rfl, hne, hv, rfl, -⟩ := h
  exact reads_numeral hne hv

theorem numeral?_eq_some_iff {k : Int} (hl : ∀ t ∈ l, t.Lawful .coco) :
    numeral? l = some k ↔ ∃ n, Numeral l n ∧ k = n := by
  constructor
  · intro h
    unfold numeral? at h
    split at h
    · rename_i t
      split at h
      · rename_i hk
        obtain ⟨kind, v, pos⟩ := t
        obtain rfl : kind = .number := hk
        have hclass : Dialect.coco.classify v = some .number :=
          (hl _ List.mem_cons_self).classified rfl
        cases hread : Text.readInt v with
        | error e =>
          rw [hread] at h
          cases h
        | ok m =>
          rw [hread] at h
          cases h
          obtain ⟨hne, hv, rfl, hlt⟩ :=
            Text.readInt_unsigned (Dialect.splitSign_number hclass) hread
          exact ⟨_, ⟨v, pos, rfl, hne, hv, rfl, by omega⟩, rfl⟩
      · cases h
    · cases h
  · rintro ⟨n, ⟨v, pos, rfl, hne, hv, rfl, hlt⟩, rfl⟩
    simp [numeral?, Text.readInt_digits hne hv hlt, Except.toOption]

theorem snippet_nought : Lexer.snippet .coco pos "0" = [⟨.number, "0", pos⟩] :=
  Lexer.snippet_digits (by decide) (by simp)

theorem numeral?_given (hlx : ∀ t ∈ x, t.Lawful .coco) (k : Int) :
    numeral? (if x = [] then Lexer.snippet .coco pos "0" else x) = some k ↔
      ∃ m : Nat, (x = [] ∧ m = 0 ∨ Numeral x m) ∧ k = m := by
  by_cases hx : x = []
  · have hnone (m : Nat) : ¬Numeral x m := by
      rintro ⟨v, pos, h, -⟩
      rw [hx] at h
      cases h
    have hnought : numeral? [⟨.number, "0", pos⟩] = some 0 := rfl
    rw [if_pos hx, snippet_nought, hnought]
    constructor
    · intro h
      exact ⟨0, .inl ⟨hx, rfl⟩, (Option.some.inj h).symm⟩
    · rintro ⟨m, ⟨-, rfl⟩ | h, rfl⟩
      · rfl
      · exact absurd h (hnone m)
  · rw [if_neg hx, numeral?_eq_some_iff hlx]
    simp [hx]

theorem reads_given (hx : R.Denotes x a) :
    R.Reads (if x = [] then Lexer.snippet .coco pos "0" else x) a := by
  unfold Denotes at hx
  split at hx
  · rename_i hnil
    rw [if_pos hnil, hx]
    exact reads_ofInt (R := R) 0
  · rename_i hne
    rwa [if_neg hne]

/-- The offset comes to 32 times the second argument and the first, unless both are numerals, or the
first is missing, and the sum takes more than a word. -/
theorem reads_offset_iff (hx : R.Denotes x a) (hy : R.Denotes y b) (hlx : ∀ t ∈ x, t.Lawful .coco)
    (hly : ∀ t ∈ y, t.Lawful .coco) : R.Reads (offset .coco pos x y) (32 * b + a) ↔
      ¬∃ m n, (x = [] ∧ m = 0 ∨ Numeral x m) ∧ Numeral y n ∧ Word.half ≤ 32 * n + m := by
  have hfirst : R.Reads (if x = [] then Lexer.snippet .coco pos "0" else x) a := reads_given hx
  by_cases hy0 : y = []
  · obtain rfl : b = 0 := by simpa [Denotes, hy0] using hy
    have hnone : ¬∃ m n, (x = [] ∧ m = 0 ∨ Numeral x m) ∧ Numeral y n ∧ Word.half ≤ 32 * n + m := by
      rintro ⟨m, n, -, ⟨v, pos, h, -⟩, -⟩
      rw [hy0] at h
      cases h
    rw [offset, if_pos hy0, mul_zero, zero_add]
    exact ⟨fun _ => hnone, fun _ => hfirst⟩
  rw [Denotes, if_neg hy0] at hy
  rw [offset, if_neg hy0]
  cases hm : numeral? (if x = [] then Lexer.snippet .coco pos "0" else x) with
  | none =>
    simp only [hm]
    refine ⟨fun _ => ?_, fun _ => reads_unfolded hfirst hy⟩
    rintro ⟨m, n, hx, -⟩
    rw [(numeral?_given hlx m).2 ⟨m, hx, rfl⟩] at hm
    cases hm
  | some k =>
    obtain ⟨m, hxm, rfl⟩ := (numeral?_given hlx k).1 hm
    cases hn : numeral? y with
    | none =>
      simp only [hm]
      refine ⟨fun _ => ?_, fun _ => reads_unfolded hfirst hy⟩
      rintro ⟨m, n, -, hy, -⟩
      rw [(numeral?_eq_some_iff hly).2 ⟨n, hy, rfl⟩] at hn
      cases hn
    | some k =>
      obtain ⟨n, hyn, rfl⟩ := (numeral?_eq_some_iff hly).1 hn
      have ha : a = m := by
        rcases hxm with ⟨hnil, rfl⟩ | hxm
        · simpa [Denotes, hnil] using hx
        · obtain ⟨v, pos', rfl, -⟩ := id hxm
          exact R.unique (by simpa [Denotes] using hx) hxm.reads
      obtain rfl : b = n := R.unique hy hyn.reads
      have hfolded : R.Reads (Lexer.snippet .coco pos
          (Text.ofInt (wrap (wrap (columns * n) + m)))) (wrap (32 * n + m) : Int) := by
        rw [Text.wrap_mul_add]
        exact reads_ofInt _
      have hsum : (32 * (n : ℚ) + m) = ((32 * n + m : Int) : ℚ) := by push_cast; rfl
      simp only [hm, ha, hsum]
      constructor
      · rintro h ⟨m', n', hm', hn', hhalf⟩
        have hwrap := Text.wrap_eq_iff (n := 32 * n + m) (by omega)
        rw [(numeral?_given hlx m').2 ⟨m', hm', rfl⟩] at hm
        rw [(numeral?_eq_some_iff hly).2 ⟨n', hn', rfl⟩] at hn
        have := hwrap.1 (by exact_mod_cast R.unique hfolded h)
        simp only [Option.some.injEq] at hm hn
        omega
      · intro h
        have hlt : 32 * (n : Int) + m < Word.half := by
          by_contra hle
          exact h ⟨m, n, hxm, hyn, by omega⟩
        rwa [(Text.wrap_eq_iff (by omega)).2 hlt] at hfolded

end Reading

end PrintAt

theorem Expression.Stands.mono {e : Expression} {m n : Nat} (h : e.Stands n) (hm : m ≤ n) :
    e.Stands m := by
  cases e with
  | binary e o e' =>
    obtain ⟨op, hop, hn⟩ := h
    exact ⟨op, hop, Nat.le_trans hm hn⟩
  | _ => trivial

namespace Machine

open PrintAt

variable {m : Machine} {l : List Token} {a : ℚ} {n : Nat}

def Decimal (m : Machine) : Prop :=
  ∀ v pos, v ≠ [] → (∀ c ∈ v, c.isDigit = true) →
    m.operand [⟨.number, v, pos⟩] = some (Nat.ofDigitChars 10 v 0 : ℚ)

/-- Whether a run of tokens is an arithmetic expression that comes to a number. -/
def Reads (m : Machine) (l : List Token) (a : ℚ) : Prop :=
  ∃ e : Expression, e.WellFormed ∧ e.tokens = l ∧ m.value e = some a

theorem expression_of_reckons (hd : m.Decimal) (h : Reckons m.Reads n l a) :
    ∃ e : Expression, e.WellFormed ∧ e.tokens = l ∧ m.value e = some a ∧ e.Stands n ∧
      ∀ q ≤ 3, q ≤ n → e.Ends q := by
  have hminus (pos : Position) : Expression.isSign ⟨.symbol, "-", pos⟩ = true := rfl
  have htimes (pos : Position) : Operator.of? ⟨.symbol, "*", pos⟩ = some .times := rfl
  have hplus (pos : Position) : Operator.of? ⟨.symbol, "+", pos⟩ = some .plus := rfl
  induction h with
  | @numeral v pos hne hv =>
    exact ⟨.operand [⟨.number, v, pos⟩], rfl, rfl, hd v pos hne hv, trivial, fun _ _ _ => trivial⟩
  | group hl hr h =>
    obtain ⟨e, he, rfl, hvalue⟩ := h
    exact ⟨.group _ e _, ⟨hl, hr, he⟩, rfl, hvalue, trivial, fun _ _ _ => trivial⟩
  | @negated l a pos _ ih =>
    obtain ⟨e, he, rfl, hvalue, hs, hends⟩ := ih
    refine ⟨.signed ⟨.symbol, "-", pos⟩ e, ⟨hminus pos, he, hs⟩, rfl, ?_, trivial, fun q hq hn => ?_⟩
    · simp [value, hvalue]
    · exact ⟨Nat.lt_succ_of_le hq, hends q hq hn⟩
  | @product l l' a b pos _ _ ih ih' =>
    obtain ⟨e, he, rfl, hvalue, -, hends⟩ := ih
    obtain ⟨e', he', rfl, hvalue', hs', hends'⟩ := ih'
    refine ⟨.binary e ⟨.symbol, "*", pos⟩ e',
      ⟨.times, htimes pos, he, hends 3 (Nat.le_refl 3) (Nat.le_refl 3), he', hs'⟩, rfl, ?_,
      ⟨.times, htimes pos, Nat.le_refl 3⟩, fun q hq hn => ⟨fun op hop => ?_, hends' q hq (by omega)⟩⟩
    · rw [value, htimes, Option.bind_some, hvalue, hvalue']
      rfl
    · cases hop
      exact hq
  | @sum l l' a b pos _ _ ih ih' =>
    obtain ⟨e, he, rfl, hvalue, -, hends⟩ := ih
    obtain ⟨e', he', rfl, hvalue', hs', hends'⟩ := ih'
    refine ⟨.binary e ⟨.symbol, "+", pos⟩ e',
      ⟨.plus, hplus pos, he, hends 0 (by omega) (Nat.le_refl 0), he', hs'⟩, rfl, ?_,
      ⟨.plus, hplus pos, Nat.le_refl 0⟩, fun q hq hn => ⟨fun op hop => ?_, hends' q hq (by omega)⟩⟩
    · rw [value, hplus, Option.bind_some, hvalue, hvalue']
      rfl
    · cases hop
      exact hn
  | loosen hm _ ih =>
    obtain ⟨e, he, htokens, hvalue, hs, hends⟩ := ih
    exact ⟨e, he, htokens, hvalue, hs.mono hm, fun q hq hn => hends q hq (Nat.le_trans hn hm)⟩

def single (valuation : Text → Option ℚ) : List Token → Option ℚ
  | [t] =>
    if t.kind = .number ∧ t.value ≠ [] ∧ t.value.all Char.isDigit = true then
      some (Nat.ofDigitChars 10 t.value 0)
    else if t.kind = .identifier then valuation t.value
    else none
  | _ => none

theorem single_numeral {valuation : Text → Option ℚ} {v : Text} {pos : Position} (hne : v ≠ [])
    (hv : ∀ c ∈ v, c.isDigit = true) :
    single valuation [⟨.number, v, pos⟩] = some (Nat.ofDigitChars 10 v 0 : ℚ) :=
  if_pos ⟨rfl, hne, List.all_eq_true.2 hv⟩

/-- The machine with the given variables, without powers and division of integers. -/
def ofValuation (valuation : Text → Option ℚ) : Machine where
  operand := single valuation
  power _ _ := none
  quotient _ _ := none
  modulo _ _ := none
  one pos := by
    rw [single_numeral (by decide) (by simp)]
    rfl

theorem decimal_ofValuation (valuation : Text → Option ℚ) : (ofValuation valuation).Decimal :=
  fun _ _ hne hv => single_numeral hne hv

/-- A machine reads arithmetic expressions. -/
def reading (m : Machine) (hd : m.Decimal) : Reading where
  Reads := m.Reads
  unique := by
    rintro l a b ⟨e, he, rfl, ha⟩ ⟨e', he', htokens, hb⟩
    cases Expression.tokens_injective he' he htokens
    exact Option.some.inj (ha.symm.trans hb)
  reckons h :=
    let ⟨e, he, htokens, hvalue, _⟩ := expression_of_reckons hd h
    ⟨e, he, htokens, hvalue⟩

end Machine

namespace PrintAt

variable {l l' run x y : List Token} {t : Token}

/-! ### Splitting the arguments -/

/-- How many parentheses a run of tokens leaves open. -/
def depth (l : List Token) : Int :=
  (l.countP fun t => t.value = ['(']) - (l.countP fun t => t.value = [')'])

def isComma (t : Token) : Bool := t.kind == .symbol && t.value == [',']

def Uncut (l : List Token) : Prop :=
  ∀ before t after, l = before ++ t :: after → isComma t = true → depth before ≠ 0

/-- The arguments of a run: what stands in front of the first comma outside parentheses, and what stands
behind it. -/
inductive Parted : List Token → List Token → List Token → Prop
  | whole {l : List Token} (h : Uncut l) : Parted l l []
  | cut {x y : List Token} {comma : Token} (h : Uncut x) (hc : isComma comma = true) (hd : depth x = 0) :
      Parted (x ++ comma :: y) x y

/-- Whether a run holds neither the marker behind the arguments nor the end of the program. -/
def Unmarked (l : List Token) : Prop :=
  ∀ t ∈ l, t.kind ≠ .eof ∧ ¬(t.kind = .special ∧ t.value = closing)

theorem depth_cons : depth (t :: l) = depth [t] + depth l := by
  simp only [depth, List.countP_cons, List.countP_nil]
  push_cast
  omega

theorem deeper_eq (t : Token) (n : Int) : deeper t n = n + depth [t] := by
  unfold deeper depth
  by_cases ho : t.value = ['(']
  · simp [ho]
  · by_cases hc : t.value = [')']
    · simp [hc]
      omega
    · simp [ho, hc]

theorem uncut_single (h : isComma t = false) : Uncut [t] := by
  intro before u after hl hu
  have hmem : u ∈ [t] := by
    rw [hl]
    simp
  rw [List.mem_singleton.1 hmem, h] at hu
  cases hu

theorem split_passed (hm : Unmarked l) (level : Int) (x : Option (List Token)) (term : List Token)
    (last : Token) (more : List Token)
    (h : x = none → ∀ before t after, l = before ++ t :: after → isComma t = true → level + depth before ≠ 0) :
    ∃ last', split level x term last (l ++ more) =
      split (level + depth l) x (term ++ l) last' more := by
  induction l generalizing level term last with
  | nil => exact ⟨last, by simp [depth]⟩
  | cons t l ih =>
    obtain ⟨ht, hm⟩ := List.forall_mem_cons.1 hm
    have hcomma : ¬(t.kind = .symbol ∧ t.value = "," ∧ level + depth [t] = 0 ∧ x = none) := by
      rintro ⟨hk, hv, hd, hnone⟩
      refine h hnone [] t l rfl (by simp [isComma, hk, hv]) ?_
      simpa [depth, hv] using hd
    have hstep : split level x term last (t :: l ++ more) =
        split (level + depth [t]) x (term ++ [t]) t (l ++ more) := by
      simp only [List.cons_append, split, if_neg ht.1, if_neg ht.2, deeper_eq, if_neg hcomma]
    obtain ⟨last', hrest⟩ := ih hm (level + depth [t]) (term ++ [t]) t
      fun hnone before u after hl hu => by
        rw [add_assoc, ← depth_cons]
        exact h hnone (t :: before) u after (by rw [hl, List.cons_append]) hu
    exact ⟨last', by rw [hstep, hrest, add_assoc, ← depth_cons, List.append_assoc, List.singleton_append]⟩

variable {closer : Token} {rest : List Token}

/-- A run behind the marker is split into its arguments up to the marker behind it. -/
theorem split_parted (h : Parted run x y) (hm : Unmarked run) (hc : closer.kind = .special)
    (hv : closer.value = closing) (t : Token) :
    split 0 none [] t (run ++ closer :: rest) = { x, y, last := closer, rest } := by
  cases h with
  | whole h =>
    obtain ⟨last, hpassed⟩ := split_passed hm 0 none [] t (closer :: rest)
      fun _ before u after hl hu => by simpa using h before u after hl hu
    rw [hpassed]
    simp [split, hc, hv]
  | @cut _ _ comma h hcomma hd =>
    have hm' : Unmarked x ∧ Unmarked y :=
      ⟨fun u hu => hm u (by simp [hu]), fun u hu => hm u (by simp [hu])⟩
    simp only [isComma, Bool.and_eq_true, beq_iff_eq] at hcomma
    obtain ⟨last, hpassed⟩ := split_passed hm'.1 0 none [] t
      (comma :: (y ++ closer :: rest)) fun _ before u after hl hu => by
        simpa using h before u after hl hu
    obtain ⟨last', hbehind⟩ := split_passed hm'.2 0 (some x) [] comma (closer :: rest)
      fun hnone => by cases hnone
    have hdeeper : deeper comma 0 = 0 := by simp [deeper, hcomma.2]
    have hcut : split 0 none x last (comma :: (y ++ closer :: rest)) =
        split 0 (some x) [] comma (y ++ closer :: rest) := by
      simp [split, hcomma, hdeeper]
    rw [List.append_assoc, List.cons_append, hpassed, hd, zero_add, List.nil_append, hcut, hbehind]
    simp [split, hc, hv]

end PrintAt

namespace Label

open PrintAt

variable {routines : Routines} {loops out run rest x y : List Token} {opener closer : Token} {a b : ℚ}
  {R : Reading}

/-- Printing at a place is written with the offset of the place, followed by a comma unless the
statement ends there. The offset comes to 32 times the second argument and the first as long as it is
not folded out of two numerals whose sum takes more than a word; not folded, it always does. -/
theorem step_place_iff (ho : opener.kind = .special) (hov : opener.value = PrintAt.opening)
    (hc : closer.kind = .special) (hcv : closer.value = PrintAt.closing) (hm : Unmarked run)
    (hl : ∀ t ∈ run, t.Lawful .coco) (hp : Parted run x y) (hx : R.Denotes x a) (hy : R.Denotes y b) :
    ∃ place, step .coco routines loops out opener (run ++ closer :: rest) =
        .ok ⟨loops, (Lexer.snippet .coco closer.pos "?@" ++ place ++
          (if (rest.headD closer).kind = .separator ∨ (rest.headD closer).kind = .newline then []
            else Lexer.snippet .coco closer.pos ",")).reverse ++ out, rest⟩ ∧
      (R.Reads place (32 * b + a) ↔
        ¬∃ m n, (x = [] ∧ m = 0 ∨ Reading.Numeral x m) ∧ Reading.Numeral y n ∧
          Word.half ≤ 32 * n + m) ∧
      (x ≠ [] → y ≠ [] → R.Reads (Reading.unfolded closer.pos x y) (32 * b + a)) := by
  have hlaws : (∀ t ∈ x, t.Lawful .coco) ∧ ∀ t ∈ y, t.Lawful .coco := by
    cases hp with
    | whole => exact ⟨hl, by simp⟩
    | cut => exact ⟨fun t ht => hl t (by simp [ht]), fun t ht => hl t (by simp [ht])⟩
  refine ⟨offset .coco closer.pos x y, ?_, Reading.reads_offset_iff hx hy hlaws.1 hlaws.2,
    fun hx0 hy0 => ?_⟩
  · simp [step, ho, hov, split_parted hp hm hc hcv, render]
  · rw [Reading.Denotes, if_neg hx0] at hx
    rw [Reading.Denotes, if_neg hy0] at hy
    exact Reading.reads_unfolded hx hy

/-- A variable and a numeral behind it, in front of a string. -/
theorem step_place_variable :
    ∃ place, step .coco [] [] [] ⟨.special, "?", {}⟩
        ([⟨.identifier, "a", {}⟩, ⟨.symbol, ",", {}⟩, ⟨.number, "2", {}⟩] ++
          ⟨.special, "??", {}⟩ :: [⟨.string, "\"hi\"", {}⟩]) =
        .ok ⟨[], (Lexer.snippet .coco {} "?@" ++ place ++ Lexer.snippet .coco {} ",").reverse ++ [],
          [⟨.string, "\"hi\"", {}⟩]⟩ ∧
      ((Machine.ofValuation fun _ => some 7).reading (Machine.decimal_ofValuation _)).Reads place
        (32 * 2 + 7) := by
  have hlawful : ∀ t ∈ [(⟨.identifier, "a", {}⟩ : Token), ⟨.symbol, ",", {}⟩, ⟨.number, "2", {}⟩],
      t.Lawful .coco := by
    have hall : ∀ t ∈ [(⟨.identifier, "a", {}⟩ : Token), ⟨.symbol, ",", {}⟩, ⟨.number, "2", {}⟩],
        t.kind ≠ .lineNumber ∧ Dialect.coco.classify t.value = some t.kind ∧ t.kind.isEntry = false := by
      decide +kernel
    intro t ht
    obtain ⟨hn, hk, he⟩ := hall t ht
    exact ⟨hn, fun _ => hk, fun h => absurd h (by simp [he])⟩
  have hx : Expression.operand? [(⟨.identifier, "a", {}⟩ : Token)] =
    some ([⟨.identifier, "a", {}⟩], []) := rfl
  have hy : Expression.operand? [(⟨.number, "2", {}⟩ : Token)] = some ([⟨.number, "2", {}⟩], []) := rfl
  have hvalue : Machine.single (fun _ => some 7) [(⟨.number, "2", {}⟩ : Token)] = some 2 := by
    rw [Machine.single_numeral (by decide) (by simp)]
    rfl
  obtain ⟨place, hstep, hreads, -⟩ := @step_place_iff [] [] []
    [⟨.identifier, "a", {}⟩, ⟨.symbol, ",", {}⟩, ⟨.number, "2", {}⟩] [⟨.string, "\"hi\"", {}⟩]
    [⟨.identifier, "a", {}⟩] [⟨.number, "2", {}⟩] ⟨.special, "?", {}⟩ ⟨.special, "??", {}⟩ 7 2
    ((Machine.ofValuation fun _ => some 7).reading (Machine.decimal_ofValuation _)) rfl rfl rfl rfl
    (by unfold Unmarked; decide)
    hlawful (.cut (uncut_single rfl) rfl rfl)
    ⟨.operand _, hx, rfl, rfl⟩ ⟨.operand _, hy, rfl, hvalue⟩
  refine ⟨place, hstep, hreads.2 ?_⟩
  rintro ⟨m, n, ⟨h, -⟩ | ⟨v, pos, h, -⟩, -⟩
  · cases h
  · cases h

/-- Two numerals whose sum takes more than a word are folded to another number. -/
theorem step_place_wraps :
    ∃ place, step .coco [] [] [] ⟨.special, "?", {}⟩
        [⟨.number, "0", {}⟩, ⟨.symbol, ",", {}⟩, ⟨.number, "9223372036854775807", {}⟩,
          ⟨.special, "??", {}⟩] =
        .ok ⟨[], (Lexer.snippet .coco {} "?@" ++ place ++ Lexer.snippet .coco {} ",").reverse, []⟩ ∧
      place = [⟨.symbol, "-", {}⟩, ⟨.number, "32", {}⟩] ∧
      ¬((Machine.ofValuation fun _ => none).reading (Machine.decimal_ofValuation _)).Reads place
        (32 * 9223372036854775807 + 0) := by
  refine ⟨_, by decide +kernel, rfl, fun h => ?_⟩
  have hread : ((Machine.ofValuation fun _ => none).reading (Machine.decimal_ofValuation _)).Reads
      (Lexer.snippet .coco {} (Text.ofInt (-32))) ((-32 : Int) : ℚ) := PrintAt.Reading.reads_ofInt (-32)
  rw [show Lexer.snippet .coco {} (Text.ofInt (-32)) = [⟨.symbol, "-", {}⟩, ⟨.number, "32", {}⟩] by
    decide +kernel] at hread
  exact absurd (Reading.unique _ hread h) (by decide +kernel)

end Label

end ClassicBasic
