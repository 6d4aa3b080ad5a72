import ClassicBasic.Proofs.Case
import ClassicBasic.Proofs.Lexical
import Mathlib.Data.List.Nodup
import Mathlib.Data.List.Perm.Basic

/-!
# What is known about names

The names known to a conversion only grow. No short name is given twice, no name that stays is given
a short one, and what is given on first use is none of the names that the program writes itself.
-/

set_option autoImplicit false

namespace ClassicBasic

namespace Text

theorem lowerChar_of_isAlphanum {c : Char} (h : c.isAlphanum = true) :
    lowerChar (lowerChar c) = lowerChar c ∧ Token.isSigil (lowerChar c) = false := by
  have hall : ∀ n : Fin 128, (Char.ofNat n).isAlphanum = true →
      lowerChar (lowerChar (Char.ofNat n)) = lowerChar (Char.ofNat n) ∧
        Token.isSigil (lowerChar (Char.ofNat n)) = false := by decide
  have := hall ⟨c.toNat, toNat_lt_of_isAlphanum h⟩
  simp only [Char.ofNat_toNat] at this
  exact this h

end Text

namespace Grammar

theorem nameTail_chars {typed : Bool} {t : Text} (h : nameTail typed t = true) :
    ∀ c ∈ t, isNameChar c = true ∨ isTypeSigil c = true := by
  fun_induction nameTail typed t with
  | case1 => simp
  | case2 c =>
    simp only [Bool.or_eq_true, Bool.and_eq_true] at h
    rw [List.forall_mem_singleton]
    rcases h with h | h
    · exact .inl h
    · exact .inr h.2
  | case3 c rest hr ih =>
    simp only [Bool.and_eq_true] at h
    exact List.forall_mem_cons.2 ⟨.inl h.1, ih h.2⟩

theorem isName_chars {typed : Bool} {t : Text} (h : isName typed t = true) :
    ∀ c ∈ t, isNameChar c = true ∨ isTypeSigil c = true := by
  cases t with
  | nil => cases h
  | cons c rest =>
    rw [isName, Bool.and_eq_true] at h
    exact List.forall_mem_cons.2 ⟨.inl (by simp [isNameChar, h.1]), nameTail_chars h.2⟩

theorem isName_unqualified {typed : Bool} {t : Text} (h : isName typed t = true) : '@' ∉ t :=
  fun hc => absurd (isName_chars h _ hc) (by decide)

end Grammar

theorem Dialect.identifier_shape (d : Dialect) :
    ∀ r ∈ d.grammar, r.kind = .identifier → r.shape = .name [] true := by
  cases d <;> decide

namespace Token

variable {t : Token} {v : Text}

theorem isSigil_of_mem_sigil {c : Char} (h : c ∈ t.sigil) : isSigil c = true := by
  have hsigil : t.sigil = (t.value.reverse.takeWhile isSigil).reverse := by
    unfold sigil bareName
    conv_lhs => enter [2]; rw [← Text.trimEnd_append_takeWhile isSigil t.value]
    rw [List.drop_left]
  rw [hsigil, List.mem_reverse] at h
  exact List.mem_takeWhile_imp h

theorem varName_unqualified (h : Grammar.isName true t.value = true) : '@' ∉ t.varName := by
  intro hc
  obtain ⟨c, hmem, hl⟩ := List.mem_map.1 hc
  obtain rfl := Text.lowerChar_eq hl (by decide) (by decide) (by decide)
  refine Grammar.isName_unqualified h ?_
  rw [← Text.trimEnd_append_takeWhile isSigil t.value]
  exact List.mem_append_left _ hmem

theorem Lawful.isName {d : Dialect} (h : t.Lawful d) (hk : t.kind = .identifier) :
    Grammar.isName true t.value = true := by
  obtain ⟨r, hr, hkind, ha⟩ := Dialect.classify_rule (hk ▸ h.classified (by rw [hk]; rfl))
  rw [Dialect.identifier_shape d r hr hkind] at ha
  simpa [Shape.accepts, Grammar.after] using ha

end Token

namespace Naming

section Walks

variable {α : Type} {k : Nat} {l l' : List α}

theorem walked_zero : walked 0 l = l := by
  induction l with
  | nil => rfl
  | cons a l ih => simp [walked, ih]

theorem walked_perm (k : Nat) (l : List α) : (walked k l).Perm l := by
  induction l generalizing k with
  | nil => rfl
  | cons a l ih =>
    have hl := ih (k / (l.length + 1))
    have hlt : k % (l.length + 1) < l.length + 1 := Nat.mod_lt _ (by omega)
    exact (List.perm_insertIdx a _ (by rw [hl.length_eq]; omega)).trans (hl.cons a)

theorem mem_walked {a : α} : a ∈ walked k l ↔ a ∈ l := (walked_perm k l).mem_iff

theorem insertIdx_front (front back : List α) (a : α) :
    (front ++ back).insertIdx front.length a = front ++ a :: back := by
  induction front with
  | nil => rfl
  | cons b front ih => rw [List.cons_append, List.length_cons, List.insertIdx_succ_cons, ih]; rfl

theorem find?_walked {p : α → Bool} (k k' : Nat) (l : List α) :
    ((walked k l).find? p = none ∧ (walked k' l).find? p = none) ∨
      ∃ a b, (walked k l).find? p = some a ∧ (walked k' l).find? p = some b := by
  have hiff : (walked k l).find? p = none ↔ (walked k' l).find? p = none := by
    simp only [List.find?_eq_none, mem_walked]
  cases h : (walked k l).find? p with
  | none => exact .inl ⟨rfl, hiff.1 h⟩
  | some a =>
    have hsome : (walked k' l).find? p ≠ none := fun h' => by simp [hiff.2 h'] at h
    exact .inr ⟨a, _, rfl, (Option.ne_none_iff_exists'.1 hsome).choose_spec⟩

theorem exists_walked (h : l'.Perm l) : ∃ k, walked k l = l' := by
  induction l generalizing l' with
  | nil => exact ⟨0, h.eq_nil.symm⟩
  | cons a l ih =>
    obtain ⟨front, back, rfl⟩ := List.append_of_mem (h.mem_iff.2 List.mem_cons_self)
    have hperm : (front ++ back).Perm l := (List.perm_middle.symm.trans h).cons_inv
    obtain ⟨k, hk⟩ := ih hperm
    have hlen := hperm.length_eq
    rw [List.length_append] at hlen
    refine ⟨front.length + (l.length + 1) * k, ?_⟩
    rw [walked, Nat.add_mul_div_left _ _ (by omega), Nat.add_mul_mod_self_left,
      Nat.div_eq_of_lt (by omega), Nat.mod_eq_of_lt (by omega), Nat.zero_add, hk, insertIdx_front]

end Walks

def IsShort (v : Text) : Prop :=
  v.length ≤ Dialect.nameLength ∧ ∀ c ∈ v, Text.lowerChar c = c ∧ Token.isSigil c = false

variable {n m : Naming} {t : Token} {v : Text} {d : Dialect}

theorem IsShort.varName (h : IsShort v) (t : Token) :
    (t.withValue (v ++ t.sigil)).varName = v := by
  have hsigil : Text.trimEnd Token.isSigil t.sigil = [] := by
    simpa [Text.trimEnd] using fun c hc => Token.isSigil_of_mem_sigil hc
  have hbare : (t.withValue (v ++ t.sigil)).bareName = v := by
    change Text.trimEnd Token.isSigil (v ++ t.sigil) = v
    rw [Text.trimEnd_append fun c hc => (h.2 c hc).2, hsigil, List.append_nil]
  rw [Token.varName, hbare]
  conv_rhs => rw [← List.map_id v]
  exact List.map_congr_left fun c hc => (h.2 c hc).1

theorem significant_eq (h : v.length ≤ Dialect.nameLength) : significant v = v :=
  List.take_of_length_le h

theorem isShort_shortName {slot : Nat} (h : Dialect.shortName? slot = some v) : IsShort v := by
  have hall : (Dialect.letters.all fun c => Text.lowerChar c == c && !Token.isSigil c) = true := by
    decide
  have hletters (c : Char) (hc : c ∈ Dialect.letters) :
      Text.lowerChar c = c ∧ Token.isSigil c = false := by
    simpa using List.all_eq_true.1 hall c hc
  unfold Dialect.shortName? at h
  obtain ⟨first, hf, h⟩ := Option.bind_eq_some_iff.1 h
  obtain ⟨second, hs, h⟩ := Option.bind_eq_some_iff.1 h
  cases h
  refine ⟨Nat.le_refl _, ?_⟩
  simpa using ⟨hletters first (List.mem_of_getElem? hf), hletters second (List.mem_of_getElem? hs)⟩

theorem isShort_lower (h : Dialect.isShortName v = true) : IsShort (Text.lower v) := by
  have one {c : Char} (hc : c.isAlpha = true) : c.isAlphanum = true := by
    simp [Char.isAlphanum, hc]
  unfold Dialect.isShortName at h
  split at h
  · refine ⟨by simp [Text.lower, Dialect.nameLength], ?_⟩
    simpa [Text.lower] using Text.lowerChar_of_isAlphanum (one h)
  · simp only [Bool.and_eq_true] at h
    refine ⟨by simp [Text.lower, Dialect.nameLength], ?_⟩
    simpa [Text.lower] using
      ⟨Text.lowerChar_of_isAlphanum (one h.1), Text.lowerChar_of_isAlphanum h.2⟩
  · cases h

theorem unqualified_qualified (h : '@' ∉ t.varName) : unqualified t.qualified = t.varName := by
  unfold unqualified Token.qualified
  rw [List.append_assoc, List.takeWhile_append_of_pos]
  · simp
  · intro c hc
    have hne : c ≠ '@' := by
      rintro rfl
      exact h hc
    simpa using hne

/-- What holds of names at any time: no short name is given twice, none to a name that stays, and all
are short. -/
structure Fair (n : Naming) : Prop where
  distinct : (n.declared.map Prod.snd).Nodup
  short : ∀ e ∈ n.declared, IsShort e.2
  apart : ∀ k ∈ n.kept, n.shortOf? k = none
  bound : ∀ k ∈ n.kept, '@' ∉ k.varName

theorem fair_empty : Fair {} := ⟨by simp, by simp, by simp, by simp⟩

structure Grows (n m : Naming) : Prop where
  given : ∀ t short, n.shortOf? t = some short → m.shortOf? t = some short
  written : ∀ name ∈ n.written, name ∈ m.written

theorem Grows.refl (n : Naming) : Grows n n := ⟨fun _ _ h => h, fun _ h => h⟩

theorem Grows.trans {l : Naming} (h : Grows n m) (h' : Grows m l) : Grows n l :=
  ⟨fun t short hs => h'.given t short (h.given t short hs),
    fun name hn => h'.written name (h.written name hn)⟩

def Met (n : Naming) (t : Token) : Prop :=
  t.varName.length ≤ Dialect.nameLength → t.varName ∈ n.written ∨ (n.shortOf? t).isSome

theorem Met.mono (h : n.Met t) (hg : Grows n m) : m.Met t := by
  intro hl
  rcases h hl with hw | hs
  · exact .inl (hg.written _ hw)
  · obtain ⟨short, hs⟩ := Option.isSome_iff_exists.1 hs
    exact .inr (by simp [hg.given t short hs])

theorem shortOf?_declare {u : Token} : (n.declare t v).shortOf? u =
    (n.shortOf? u).or (if u.qualified = t.qualified then some v else none) := by
  unfold shortOf? declare
  rw [List.lookup_append]
  by_cases h : u.qualified = t.qualified
  · simp [h]
  · have hb : (u.qualified == t.qualified) = false := by simpa using h
    simp [List.lookup_cons, h, hb]

theorem isKept_iff : n.isKept t = true ↔ ∃ k ∈ n.kept, k.qualified = t.qualified := by
  simp [isKept]

theorem shortOf?_congr {u : Token} (h : u.qualified = t.qualified) : n.shortOf? u = n.shortOf? t := by
  rw [shortOf?, shortOf?, h]

theorem grows_declare : Grows n (n.declare t v) :=
  ⟨fun u short h => by rw [shortOf?_declare, h, Option.some_or], fun _ h => h⟩

theorem Fair.declare (h : Fair n) (hv : IsShort v) (hk : n.isKept t = false)
    (hfree : ∀ e ∈ n.declared, e.2 ≠ v) : Fair (n.declare t v) where
  distinct := by
    have hmap : (n.declare t v).declared.map Prod.snd = n.declared.map Prod.snd ++ [v] := by
      simp [Naming.declare]
    rw [hmap, List.nodup_append]
    refine ⟨h.distinct, by simp, ?_⟩
    intro short hs w hw
    obtain ⟨e, he, rfl⟩ := List.mem_map.1 hs
    rw [List.mem_singleton.1 hw]
    exact hfree e he
  short := by
    intro e he
    rcases List.mem_append.1 he with he | he
    · exact h.short e he
    · rw [List.mem_singleton.1 he]
      exact hv
  apart := by
    intro k hmem
    replace hmem : k ∈ n.kept := hmem
    have hne : k.qualified ≠ t.qualified := by
      intro heq
      rw [isKept_iff.2 ⟨k, hmem, heq⟩] at hk
      cases hk
    rw [shortOf?_declare, h.apart k hmem]
    simp [hne]
  bound := h.bound

theorem grows_write : Grows n (n.write v) := by
  unfold write
  split
  · exact .refl n
  · exact ⟨fun _ _ h => h, fun name h => List.mem_append_left _ h⟩

theorem mem_write : v ∈ (n.write v).written := by
  unfold write
  split
  · rename_i h
    simpa using h
  · simp

theorem Fair.write (h : Fair n) : Fair (n.write v) := by
  unfold Naming.write
  split
  · exact h
  · exact ⟨h.distinct, h.short, h.apart, h.bound⟩

theorem grows_keep : Grows n (n.keep t) := by
  unfold keep
  split
  · exact .refl n
  · exact ⟨fun _ _ h => h, fun _ h => h⟩

theorem Fair.keep (h : Fair n) (ht : n.shortOf? t = none) (hb : '@' ∉ t.varName) :
    Fair (n.keep t) := by
  unfold Naming.keep
  split
  · exact h
  · refine ⟨h.distinct, h.short, ?_, ?_⟩
    · intro k hk
      rcases List.mem_append.1 hk with hk | hk
      · exact h.apart k hk
      · rw [List.mem_singleton.1 hk]
        exact ht
    · intro k hk
      rcases List.mem_append.1 hk with hk | hk
      · exact h.bound k hk
      · rw [List.mem_singleton.1 hk]
        exact hb

theorem keepWritten_fair (h : (n.keepWritten t).outcome = .ok m) (hn : Fair n)
    (hb : '@' ∉ t.varName) : Fair m ∧ Grows n m ∧ m.Met t := by
  unfold keepWritten at h
  dsimp only at h
  split at h
  · cases h
  · rename_i hl
    split at h
    · cases h
    · rename_i hs
      cases h
      exact ⟨hn.keep hs hb, grows_keep, fun hle => absurd hle hl⟩

theorem meet_fair (h : (n.meet t).outcome = .ok m) (hn : Fair n) :
    Fair m ∧ Grows n m ∧ m.Met t := by
  unfold meet at h
  dsimp only at h
  split at h
  · rename_i hs
    cases h
    exact ⟨hn, .refl n, fun _ => .inr hs⟩
  · split at h
    · cases h
      exact ⟨hn.write, grows_write, fun _ => .inl mem_write⟩
    · rename_i hl
      cases h
      exact ⟨hn, .refl n, fun hle => absurd hle hl⟩

theorem shortOf?_eq_none (h : ∀ e ∈ n.declared, e.1 ≠ t.qualified) : n.shortOf? t = none := by
  rw [shortOf?, List.lookup_eq_none_iff]
  intro e he
  simpa using (h e he).symm

theorem lastFree_spec {slot next : Nat} (h : lastFree d n slot = some (v, next)) :
    IsShort v ∧ n.isTaken v = false := by
  induction slot with
  | zero => cases h
  | succ slot ih =>
    simp only [lastFree] at h
    split at h
    · exact ih h
    · rename_i short hs
      split at h
      · exact ih h
      · rename_i hfree
        cases h
        simp only [Bool.or_eq_true, not_or, Bool.not_eq_true] at hfree
        exact ⟨isShort_shortName hs, hfree.1⟩

theorem allocate_cases (h : n.allocate d t = .ok (v, m)) :
    (n.shortOf? t = some v ∧ m = n) ∨ (n.shortOf? t = none ∧
      ∃ slot, lastFree d n n.free = some (v, slot) ∧ m = { n.declare t v with free := slot }) := by
  unfold allocate at h
  split at h
  · rename_i hs
    cases h
    exact .inl ⟨hs, rfl⟩
  · rename_i hnone
    split at h
    · rename_i hf
      cases h
      exact .inr ⟨hnone, _, hf, rfl⟩
    · cases h

/-- What giving short names on first use does to the names at `n`: what is new was not in use. -/
structure Allots (n m : Naming) : Prop where
  kept : m.kept = n.kept
  written : m.written = n.written
  given : ∀ t short, n.shortOf? t = some short → m.shortOf? t = some short
  fresh : ∀ e ∈ m.declared, e ∈ n.declared ∨
    (e.2 ∉ n.written ∧ ∀ k ∈ n.kept, significant k.varName ≠ e.2)

theorem Allots.refl (n : Naming) : Allots n n := ⟨rfl, rfl, fun _ _ h => h, fun _ h => .inl h⟩

theorem Allots.trans {l : Naming} (h : Allots n m) (h' : Allots m l) : Allots n l where
  kept := h'.kept.trans h.kept
  written := h'.written.trans h.written
  given t short hs := h'.given t short (h.given t short hs)
  fresh e he := by
    rcases h'.fresh e he with he | he
    · exact h.fresh e he
    · rw [h.written, h.kept] at he
      exact .inr he

def WrittenAs (m : Naming) (t u : Token) : Prop :=
  (u = t ∧ (t.varName.length ≤ Dialect.nameLength ∨ m.isKept t)) ∨
    (Dialect.nameLength < t.varName.length ∧
      ∃ short, m.shortOf? t = some short ∧ u = t.withValue (short ++ t.sigil))

theorem WrittenAs.mono {u : Token} (h : n.WrittenAs t u) (ha : Allots n m) : m.WrittenAs t u := by
  rcases h with ⟨rfl, hl | hk⟩ | ⟨hlong, short, hs, rfl⟩
  · exact .inl ⟨rfl, .inl hl⟩
  · refine .inl ⟨rfl, .inr ?_⟩
    rw [isKept, ha.kept]
    exact hk
  · exact .inr ⟨hlong, short, ha.given _ _ hs, rfl⟩

/-- A variable is written as it is, or under the short name it has or is given now. -/
theorem shorten_allots {u : Token} (h : n.shorten d t = .ok (u, m)) (hn : Fair n) :
    Fair m ∧ Allots n m ∧ m.WrittenAs t u := by
  unfold shorten at h
  split at h
  · rename_i hstays
    cases h
    refine ⟨hn, .refl _, .inl ⟨rfl, ?_⟩⟩
    simpa using hstays
  · rename_i hlong
    simp only [Bool.or_eq_true, decide_eq_true_eq, not_or, Nat.not_le, Bool.not_eq_true] at hlong
    obtain ⟨⟨short, known⟩, hg, he⟩ := Outcome.map_eq_ok_iff.1 h
    cases he
    rcases allocate_cases hg with ⟨hs, rfl⟩ | ⟨hnone, slot, hf, rfl⟩
    · exact ⟨hn, .refl _, .inr ⟨hlong.1, short, hs, rfl⟩⟩
    · obtain ⟨hshort, hfree⟩ := lastFree_spec hf
      simp only [isTaken, Bool.or_eq_false_iff, List.any_eq_false, beq_iff_eq] at hfree
      have hd := hn.declare (t := t) hshort hlong.2 hfree.1.1
      refine ⟨⟨hd.distinct, hd.short, hd.apart, hd.bound⟩, ⟨rfl, rfl, grows_declare.given, ?_⟩,
        .inr ⟨hlong.1, short, ?_, rfl⟩⟩
      · intro e he
        rcases List.mem_append.1 he with he | he
        · exact .inl he
        · rw [List.mem_singleton.1 he]
          exact .inr ⟨by simpa using hfree.1.2, hfree.2⟩
      · change (n.declare t short).shortOf? t = some short
        rw [shortOf?_declare, hnone]
        simp

end Naming

namespace Declaration

variable {n m : Naming} {d : Dialect}

structure Valid (e : Declaration) : Prop where
  long : Grammar.isName true e.long.value = true
  short : ∀ short, e.short = some short → Dialect.isShortName short.value = true

theorem read_valid {t : Token} {rest : List Token} {r : Declaration × List Token}
    (h : read d t rest = .ok r) : r.1.Valid := by
  unfold read at h
  dsimp only at h
  split at h
  · cases h
  · rename_i hid
    have hlong : Grammar.isName true (rest.headD t).value = true :=
      Grammar.isName_typed (by simpa [Dialect.isIdentifier] using hid)
    split at h
    · cases h
    · split at h
      · cases h
      · split at h
        · cases h
          exact ⟨hlong, by simp⟩
        · split at h
          · cases h
          · split at h
            · cases h
            · rename_i hshort
              cases h
              refine ⟨hlong, fun short heq => ?_⟩
              cases heq
              simpa using hshort

theorem apply_cases {e : Declaration} {k : Nat} (h : (e.apply k n).outcome = .ok m) :
    m = n.write e.long.varName ∨ (n.shortOf? e.long = none ∧ m = n.keep e.long) ∨
      ∃ short, e.short = some short ∧ m = n.declare e.long short.lower ∧
        n.isKept e.long = false ∧
        ∀ g ∈ n.declared, g.1 ≠ e.long.qualified ∧ g.2 ≠ short.lower := by
  unfold apply at h
  split at h
  · unfold keepLong at h
    dsimp only at h
    split at h
    · cases h
    · rename_i hnone
      simp only [List.find?_eq_none, beq_iff_eq] at hnone
      simp only [Except.ok.injEq] at h
      subst h
      split
      · exact .inl rfl
      · exact .inr (.inl ⟨Naming.shortOf?_eq_none hnone, rfl⟩)
  · rename_i short hs
    unfold fixShort at h
    dsimp only at h
    split at h
    · cases h
    · rename_i hnone
      simp only [List.find?_eq_none, Naming.mem_walked, Bool.or_eq_true, beq_iff_eq, not_or] at hnone
      split at h
      · cases h
      · rename_i hk
        cases h
        exact .inr (.inr ⟨short, hs, rfl, by simpa using hk, hnone⟩)

open Naming in
theorem apply_fair {e : Declaration} {k : Nat} (h : (e.apply k n).outcome = .ok m) (he : e.Valid)
    (hn : Fair n) : Fair m ∧ Grows n m := by
  rcases apply_cases h with rfl | ⟨hnone, rfl⟩ | ⟨short, hs, rfl, hk, hfree⟩
  · exact ⟨hn.write, grows_write⟩
  · exact ⟨hn.keep hnone (Token.varName_unqualified he.long), grows_keep⟩
  · have hshort := isShort_lower (he.short short hs)
    exact ⟨hn.declare hshort hk fun g hg => (hfree g hg).2, grows_declare⟩

end Declaration

end ClassicBasic
