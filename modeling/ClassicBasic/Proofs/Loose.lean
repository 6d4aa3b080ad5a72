import ClassicBasic.Proofs.Reading

/-!
# Lines with blanks that may be left out

A line with blanks around its keywords and the line without them are written down as one: characters,
and gaps where a blank stands in the one line and nothing in the other. The gaps of a line are
compared with the places where the reader starts anew.
-/

set_option autoImplicit false

namespace ClassicBasic

abbrev Loose := List (Option Char)

namespace Loose

variable {m m₁ m₂ : Loose}

/-- The line with its blanks. -/
def spaced (m : Loose) : Text := m.map (·.getD ' ')

/-- The line without the blanks that may be left out. -/
def stripped (m : Loose) : Text := m.filterMap id

/-- Whether the line ends in a character, or is empty. -/
def Tidy (m : Loose) : Prop := m.getLast? ≠ some none

@[simp]
theorem spaced_nil : spaced [] = [] := rfl

@[simp]
theorem stripped_nil : stripped [] = [] := rfl

@[simp]
theorem spaced_some (c : Char) (m : Loose) : spaced (some c :: m) = c :: spaced m := rfl

@[simp]
theorem spaced_none (m : Loose) : spaced (none :: m) = ' ' :: spaced m := rfl

@[simp]
theorem stripped_some (c : Char) (m : Loose) : stripped (some c :: m) = c :: stripped m := rfl

@[simp]
theorem stripped_none (m : Loose) : stripped (none :: m) = stripped m := rfl

@[simp]
theorem spaced_append (m₁ m₂ : Loose) : spaced (m₁ ++ m₂) = spaced m₁ ++ spaced m₂ :=
  List.map_append

@[simp]
theorem stripped_append (m₁ m₂ : Loose) : stripped (m₁ ++ m₂) = stripped m₁ ++ stripped m₂ :=
  List.filterMap_append

@[simp]
theorem spaced_ofText (t : Text) : spaced (t.map some) = t := by
  simp [spaced, Function.comp_def]

@[simp]
theorem stripped_ofText (t : Text) : stripped (t.map some) = t := by
  simp [stripped, List.filterMap_map]

theorem length_spaced (m : Loose) : (spaced m).length = m.length := List.length_map _

theorem length_stripped_le (m : Loose) : (stripped m).length ≤ m.length :=
  List.length_filterMap_le _ _

theorem stripped_eq_spaced (h : none ∉ m) : stripped m = spaced m := by
  induction m with
  | nil => rfl
  | cons x m ih =>
    rw [List.mem_cons, not_or] at h
    obtain ⟨c, rfl⟩ := Option.ne_none_iff_exists'.1 (Ne.symm h.1)
    rw [stripped_some, spaced_some, ih h.2]

theorem mem_stripped_iff {c : Char} : c ∈ stripped m ↔ some c ∈ m := by
  simp [stripped]

theorem mem_spaced_iff {c : Char} (hc : c ≠ ' ') : c ∈ spaced m ↔ some c ∈ m := by
  rw [spaced, List.mem_map]
  refine ⟨?_, fun h => ⟨some c, h, rfl⟩⟩
  rintro ⟨x, hx, rfl⟩
  cases x with
  | none => exact absurd rfl hc
  | some c => exact hx

theorem length_stripped_lt (h : none ∈ m) : (stripped m).length < m.length := by
  induction m with
  | nil => cases h
  | cons x m ih =>
    cases x with
    | none =>
      have := length_stripped_le m
      simp only [stripped_none, List.length_cons]
      omega
    | some c =>
      have := ih (by simpa using h)
      simp only [stripped_some, List.length_cons]
      omega

theorem stripped_eq_spaced_iff : stripped m = spaced m ↔ none ∉ m := by
  refine ⟨fun h hn => ?_, stripped_eq_spaced⟩
  have := length_stripped_lt hn
  rw [h, length_spaced] at this
  omega

theorem Tidy.of_append (h : Tidy (m₁ ++ m₂)) : Tidy m₂ := by
  cases m₂ with
  | nil => simp [Tidy]
  | cons x m₂ => rwa [Tidy, List.getLast?_append_of_ne_nil _ (by simp)] at h

theorem Tidy.of_cons {x : Option Char} (h : Tidy (x :: m)) : Tidy m :=
  (show Tidy ([x] ++ m) from h).of_append

theorem Tidy.stripped_ne_nil (h : Tidy m) (hne : m ≠ []) : stripped m ≠ [] := by
  obtain ⟨c, hc⟩ : ∃ c, m.getLast? = some (some c) := by
    cases hl : m.getLast? with
    | none => exact absurd (List.getLast?_eq_none_iff.1 hl) hne
    | some x =>
      cases x with
      | none => exact absurd hl h
      | some c => exact ⟨c, rfl⟩
  have hmem : c ∈ stripped m :=
    List.mem_filterMap.2 ⟨some c, List.mem_of_getLast? hc, rfl⟩
  exact List.ne_nil_of_mem hmem

/-- A line is split where the line without blanks is split, right behind a character. -/
theorem exists_split (m : Loose) {n : Nat} (h : n ≤ (stripped m).length) :
    ∃ m₁ m₂, m = m₁ ++ m₂ ∧ stripped m₁ = (stripped m).take n ∧ stripped m₂ = (stripped m).drop n ∧
      Tidy m₁ := by
  induction m generalizing n with
  | nil => exact ⟨[], [], rfl, by simp, by simp, by simp [Tidy]⟩
  | cons x m ih =>
    cases n with
    | zero => exact ⟨[], x :: m, rfl, rfl, rfl, by simp [Tidy]⟩
    | succ n =>
      have cons {n : Nat} (hn : n ≤ (stripped m).length) (hx : x = none → n ≠ 0) :
          ∃ m₁ m₂, x :: m = x :: m₁ ++ m₂ ∧ stripped m₁ = (stripped m).take n ∧
            stripped m₂ = (stripped m).drop n ∧ Tidy (x :: m₁) := by
        obtain ⟨m₁, m₂, rfl, h1, h2, ht⟩ := ih hn
        refine ⟨m₁, m₂, rfl, h1, h2, ?_⟩
        cases m₁ with
        | nil =>
          intro hlast
          obtain rfl : x = none := by simpa using hlast
          have hlen := congrArg List.length h1
          rw [stripped_nil, List.length_nil, List.length_take_of_le hn] at hlen
          exact hx rfl hlen.symm
        | cons y m₁ => rwa [Tidy, List.getLast?_cons_cons]
      cases x with
      | none =>
        obtain ⟨m₁, m₂, he, h1, h2, ht⟩ := cons h (by simp)
        exact ⟨none :: m₁, m₂, he, h1, h2, ht⟩
      | some c =>
        obtain ⟨m₁, m₂, he, h1, h2, ht⟩ := cons (Nat.le_of_succ_le_succ h) (by simp)
        exact ⟨some c :: m₁, m₂, he, by simp [h1], by simpa using h2, ht⟩

/-- A line starts with characters up to the first blank that may be left out. -/
theorem exists_first_gap (m : Loose) :
    (∃ y : Text, m = y.map some) ∨ ∃ (y : Text) (m₂ : Loose), m = y.map some ++ none :: m₂ := by
  induction m with
  | nil => exact .inl ⟨[], rfl⟩
  | cons x m ih =>
    cases x with
    | none => exact .inr ⟨[], m, rfl⟩
    | some c =>
      rcases ih with ⟨y, rfl⟩ | ⟨y, m₂, rfl⟩
      · exact .inl ⟨c :: y, rfl⟩
      · exact .inr ⟨c :: y, m₂, rfl⟩

/-- Whether the rest of the line without blanks, with the text `behind` it, is one of the texts `A` at
each place where a blank is left out. -/
def GapsIn (A : List Text) (behind : Text) : Loose → Prop
  | [] => True
  | none :: m => stripped m ++ behind ∈ A ∧ GapsIn A behind m
  | some _ :: m => GapsIn A behind m

variable {A B : List Text} {behind : Text}

theorem gapsIn_append :
    GapsIn A behind (m₁ ++ m₂) ↔ GapsIn A (stripped m₂ ++ behind) m₁ ∧ GapsIn A behind m₂ := by
  induction m₁ with
  | nil => simp [GapsIn]
  | cons x m₁ ih =>
    cases x with
    | none => simp [GapsIn, ih, and_assoc]
    | some c => simpa [GapsIn] using ih

theorem gapsIn_of_not_mem (h : none ∉ m) : GapsIn A behind m := by
  induction m with
  | nil => trivial
  | cons x m ih =>
    rw [List.mem_cons, not_or] at h
    obtain ⟨c, rfl⟩ := Option.ne_none_iff_exists'.1 (Ne.symm h.1)
    exact ih h.2

/-- Only texts between the rest of the line and what is behind it matter. -/
theorem GapsIn.imp (h : GapsIn A behind m) (hAB : ∀ x ∈ A,
    x.length ≤ (stripped m ++ behind).length → behind.length ≤ x.length → x ∈ B) :
    GapsIn B behind m := by
  induction m with
  | nil => trivial
  | cons x m ih =>
    cases x with
    | none => exact ⟨hAB _ h.1 (by simp) (by simp), ih h.2 hAB⟩
    | some c =>
      refine ih h fun x hx hle => hAB x hx (hle.trans ?_)
      simp

/-- Where the reader starts anew behind a stretch only, no blank in the stretch may be left out. -/
theorem GapsIn.not_mem (h : GapsIn A behind m) (ht : Tidy m)
    (hA : ∀ x ∈ A, x.length ≤ (stripped m ++ behind).length → x.length ≤ behind.length) :
    none ∉ m := by
  induction m with
  | nil => simp
  | cons x m ih =>
    have htail : Tidy m := (show Tidy ([x] ++ m) from ht).of_append
    cases x with
    | none =>
      exfalso
      have hle := hA _ h.1 (by simp)
      have hne : m ≠ [] := by
        rintro rfl
        exact ht rfl
      have := List.length_pos_iff.2 (htail.stripped_ne_nil hne)
      rw [List.length_append] at hle
      omega
    | some c =>
      have hc : none ∉ m := ih h htail fun x hx hle => hA x hx (hle.trans (by simp))
      simpa using hc

theorem GapsIn.mem {p q : Loose} (h : GapsIn A behind (p ++ none :: q)) : stripped q ++ behind ∈ A :=
  (gapsIn_append.1 h).2.1

theorem eq_ofText (h : none ∉ m) : m = (stripped m).map some := by
  induction m with
  | nil => rfl
  | cons x m ih =>
    rw [List.mem_cons, not_or] at h
    obtain ⟨c, rfl⟩ := Option.ne_none_iff_exists'.1 (Ne.symm h.1)
    rw [stripped_some, List.map_cons, ← ih h.2]

theorem exists_tight {n : Nat} (hn : n ≤ m.length) (hb : ' ' ∉ (spaced m).take n) :
    ∃ (u : Text) (m₂ : Loose), m = u.map some ++ m₂ ∧ u.length = n := by
  induction m generalizing n with
  | nil => exact ⟨[], [], rfl, (Nat.le_zero.1 hn).symm⟩
  | cons x m ih =>
    cases n with
    | zero => exact ⟨[], x :: m, rfl, rfl⟩
    | succ n =>
      cases x with
      | none => simp at hb
      | some c =>
        rw [spaced_some, List.take_succ_cons, List.mem_cons, not_or] at hb
        obtain ⟨u, m₂, rfl, hlen⟩ := ih (Nat.le_of_succ_le_succ hn) hb.2
        exact ⟨c :: u, m₂, rfl, by rw [List.length_cons, hlen]⟩

theorem exists_tight_of_gapsIn {n : Nat} (hn : n ≤ (stripped m).length) (h : GapsIn A [] m)
    (hA : ∀ x ∈ A, x.length ≤ (stripped m).length → x.length ≤ (stripped m).length - n) :
    ∃ (u : Text) (m₂ : Loose), m = u.map some ++ m₂ ∧ u.length = n := by
  obtain ⟨m₁, m₂, rfl, h1, -, ht⟩ := exists_split m hn
  have hlen : (stripped m₁).length = n := by rw [h1, List.length_take_of_le hn]
  have hnone : none ∉ m₁ := by
    refine (gapsIn_append.1 h).1.not_mem ht fun x hx hle => ?_
    have := hA x hx (by simpa using hle)
    simp only [stripped_append, List.length_append] at this
    simp only [List.append_nil]
    omega
  exact ⟨stripped m₁, m₂, by rw [← eq_ofText hnone], hlen⟩

def holds (p : Char → Bool) (x : Option Char) : Bool := p (x.getD ' ')

theorem dropWhile_spaced (p : Char → Bool) (m : Loose) :
    (spaced m).dropWhile p = spaced (m.dropWhile (holds p)) := by
  rw [spaced, List.dropWhile_map]
  rfl

theorem dropWhile_stripped {p : Char → Bool} (hp : p ' ' = true) (m : Loose) :
    (stripped m).dropWhile p = stripped (m.dropWhile (holds p)) := by
  induction m with
  | nil => rfl
  | cons x m ih =>
    cases x with
    | none =>
      have hx : holds p none = true := hp
      rw [stripped_none, ih, List.dropWhile_cons_of_pos hx]
    | some c =>
      by_cases hc : p c = true
      · have hx : holds p (some c) = true := hc
        rw [stripped_some, List.dropWhile_cons_of_pos hc, ih, List.dropWhile_cons_of_pos hx]
      · have hx : ¬holds p (some c) = true := hc
        rw [stripped_some, List.dropWhile_cons_of_neg hc, List.dropWhile_cons_of_neg hx, stripped_some]

theorem reverse_spaced (m : Loose) : (spaced m).reverse = spaced m.reverse := List.map_reverse.symm

theorem reverse_stripped (m : Loose) : (stripped m).reverse = stripped m.reverse :=
  List.filterMap_reverse.symm

/-- The line without the longest run of places at its end that a property of blanks holds of. -/
def trimmed (p : Char → Bool) (m : Loose) : Loose := (m.reverse.dropWhile (holds p)).reverse

theorem trimEnd_spaced (p : Char → Bool) (m : Loose) :
    Text.trimEnd p (spaced m) = spaced (trimmed p m) := by
  rw [Text.trimEnd, trimmed, reverse_spaced, dropWhile_spaced, reverse_spaced]

theorem trimEnd_stripped {p : Char → Bool} (hp : p ' ' = true) (m : Loose) :
    Text.trimEnd p (stripped m) = stripped (trimmed p m) := by
  rw [Text.trimEnd, trimmed, reverse_stripped, dropWhile_stripped hp, reverse_stripped]

theorem getLast?_trimmed (p : Char → Bool) (m : Loose) :
    ∀ x ∈ (trimmed p m).getLast?, holds p x = false := by
  intro x hx
  rw [trimmed, List.getLast?_reverse] at hx
  have hnot := List.head?_dropWhile_not (holds p) m.reverse
  rw [hx] at hnot
  exact hnot

theorem tidy_trimmed {p : Char → Bool} (hp : p ' ' = true) (m : Loose) : Tidy (trimmed p m) := by
  intro hl
  have hnone : p ' ' = false := getLast?_trimmed p m none hl
  simp [hp] at hnone

theorem isPrefix_trimmed (p : Char → Bool) (m : Loose) : trimmed p m <+: m := by
  rw [trimmed, ← List.reverse_suffix, List.reverse_reverse]
  exact List.dropWhile_suffix _

theorem trimmed_append (p : Char → Bool) (m : Loose) :
    trimmed p m ++ (m.reverse.takeWhile (holds p)).reverse = m := by
  rw [trimmed, ← List.reverse_append, List.takeWhile_append_dropWhile, List.reverse_reverse]

def core (m : Loose) : Loose := trimmed Text.isBlank (m.dropWhile (holds Text.isBlank))

theorem trimBlank_spaced (m : Loose) : Text.trimBlank (spaced m) = spaced (core m) := by
  rw [Text.trimBlank, Text.trimBoth, dropWhile_spaced, trimEnd_spaced, core]

theorem trimBlank_stripped (m : Loose) : Text.trimBlank (stripped m) = stripped (core m) := by
  rw [Text.trimBlank, Text.trimBoth, dropWhile_stripped (by decide), trimEnd_stripped (by decide),
    core]

abbrev isBlankAt : Option Char → Bool := holds Text.isBlank

/-- A line is its core between blanks, and the core starts and ends in characters that are none. -/
theorem exists_core (m : Loose) : ∃ lead trail, m = lead ++ core m ++ trail ∧
    (∀ x ∈ lead, isBlankAt x = true) ∧ (∀ x ∈ trail, isBlankAt x = true) ∧
    (∀ x ∈ (core m).head?, isBlankAt x = false) ∧ ∀ x ∈ (core m).getLast?, isBlankAt x = false := by
  have hm := List.takeWhile_append_dropWhile (p := isBlankAt) (l := m)
  rw [← trimmed_append Text.isBlank (m.dropWhile isBlankAt), ← List.append_assoc] at hm
  refine ⟨_, _, hm.symm, fun x hx => List.mem_takeWhile_imp hx, fun x hx =>
    List.mem_takeWhile_imp (List.mem_reverse.1 hx), fun x hx => ?_, getLast?_trimmed _ _⟩
  obtain ⟨more, hmore⟩ := isPrefix_trimmed Text.isBlank (m.dropWhile isBlankAt)
  have hnot := List.head?_dropWhile_not isBlankAt m
  have hx : (trimmed Text.isBlank (m.dropWhile isBlankAt)).head? = some x := hx
  rw [← hmore, List.head?_append, hx] at hnot
  exact hnot

theorem blank_of_isBlankAt {m : Loose} (h : ∀ x ∈ m, isBlankAt x = true) :
    (stripped m).all Text.isBlank = true := by
  rw [List.all_eq_true]
  intro c hc
  obtain ⟨x, hx, rfl⟩ := List.mem_filterMap.1 hc
  exact h _ hx

open Piece (edges mem_edges_iff)

theorem gapsIn_lead {m : Loose} (h : ∀ x ∈ m, isBlankAt x = true) {front rest : Text}
    (hf : front.all Text.isBlank = true) :
    GapsIn (edges (front ++ stripped m ++ rest) behind) (rest ++ behind) m := by
  induction m generalizing front with
  | nil => trivial
  | cons x m ih =>
    rw [List.forall_mem_cons] at h
    cases x with
    | none =>
      refine ⟨mem_edges_iff.2 ⟨front, stripped m ++ rest, ?_, ?_, .inr hf⟩, ih h.2 hf⟩
      · simp
      · simp
    | some c =>
      have hc : Text.isBlank c = true := h.1
      have htail : GapsIn (edges (front ++ [c] ++ stripped m ++ rest) behind) (rest ++ behind) m :=
        ih h.2 (by simp [hf, hc])
      simpa [GapsIn] using htail

theorem gapsIn_trail {m : Loose} (h : ∀ x ∈ m, isBlankAt x = true) (front : Text) :
    GapsIn (edges (front ++ stripped m) behind) behind m := by
  induction m generalizing front with
  | nil => trivial
  | cons x m ih =>
    rw [List.forall_mem_cons] at h
    cases x with
    | none =>
      exact ⟨mem_edges_iff.2 ⟨front, stripped m, rfl, rfl, .inl (blank_of_isBlankAt h.2)⟩,
        ih h.2 front⟩
    | some c => simpa [GapsIn] using ih h.2 (front ++ [c])

theorem not_mem_of_gapsIn_edges {lead items trail : Loose}
    (hhead : ∀ x ∈ items.head?, isBlankAt x = false)
    (hlast : ∀ x ∈ items.getLast?, isBlankAt x = false)
    (h : GapsIn (edges (stripped (lead ++ items ++ trail)) behind) (stripped trail ++ behind) items) :
    none ∉ items := by
  intro hn
  obtain ⟨p, q, rfl⟩ := List.append_of_mem hn
  obtain ⟨p', q', hitems, heq, hblank⟩ := mem_edges_iff.1 h.mem
  rw [← List.append_assoc] at heq
  obtain rfl := List.append_cancel_right heq
  have hfront : p' = stripped lead ++ stripped p := by
    refine (List.append_left_inj (stripped q ++ stripped trail)).1 ?_
    rw [← hitems]
    simp
  have hnone : isBlankAt none = true := by decide
  have found {x : Option Char} {l : Loose} (hx : isBlankAt x = false) (hl : x ∈ l)
      (hb : (stripped l).all Text.isBlank = true) : False := by
    cases x with
    | none => simp [hnone] at hx
    | some c =>
      have hc : Text.isBlank c = true :=
        List.all_eq_true.1 hb c (List.mem_filterMap.2 ⟨some c, hl, rfl⟩)
      have hx : Text.isBlank c = false := hx
      simp [hc] at hx
  rcases hblank with hb | hb
  · -- the last character of the items
    cases hq : q.getLast? with
    | none =>
      have := hlast none (by simp [List.getLast?_eq_none_iff.1 hq])
      simp [hnone] at this
    | some x =>
      rw [List.all_append, Bool.and_eq_true] at hb
      refine found (hlast x ?_) (List.mem_of_getLast? hq) hb.1
      rw [List.getLast?_append_of_ne_nil _ (by simp), List.getLast?_cons, hq]
      rfl
  · -- the first one
    cases p with
    | nil =>
      have := hhead none (by simp)
      simp [hnone] at this
    | cons x p =>
      rw [hfront, List.all_append, Bool.and_eq_true] at hb
      exact found (hhead x (by simp)) List.mem_cons_self hb.2

open Piece (fielded dataItems)

theorem stripped_core_eq_nil_iff : stripped (core m) = [] ↔ core m = [] := by
  refine ⟨fun h => ?_, fun h => by rw [h, stripped_nil]⟩
  by_contra hne
  exact (tidy_trimmed (by decide) _).stripped_ne_nil hne h

/-- The items of DATA are read alike exactly when blanks are left out around them only. -/
theorem fielded_spaced_iff :
    fielded (spaced m) = fielded (stripped m) ↔ GapsIn (edges (stripped m) behind) behind m := by
  obtain ⟨lead, trail, hm, hlead, htrail, hhead, hlast⟩ := exists_core m
  have hcore : fielded (spaced m) = fielded (stripped m) ↔ none ∉ core m := by
    rw [← stripped_eq_spaced_iff]
    unfold fielded
    rw [trimBlank_spaced, trimBlank_stripped]
    simp only [stripped_core_eq_nil_iff, spaced, List.map_eq_nil_iff]
    split
    · rename_i hnil
      simp [hnil]
    · simp [eq_comm]
  rw [hcore]
  clear hcore
  generalize core m = items at hm hhead hlast ⊢
  subst hm
  rw [List.append_assoc, gapsIn_append, gapsIn_append, ← List.append_assoc]
  constructor
  · intro hn
    have hfront : GapsIn (edges ([] ++ stripped lead ++ (stripped items ++ stripped trail)) behind)
        (stripped items ++ stripped trail ++ behind) lead := gapsIn_lead hlead rfl
    have hback : GapsIn (edges (stripped lead ++ stripped items ++ stripped trail) behind) behind
        trail := gapsIn_trail htrail _
    exact ⟨by simpa using hfront, gapsIn_of_not_mem hn, by simpa using hback⟩
  · exact fun h => not_mem_of_gapsIn_edges hhead hlast h.2.1

theorem length_fielded (m : Loose) : (fielded (spaced m)).length = (fielded (stripped m)).length := by
  unfold fielded
  rw [trimBlank_spaced, trimBlank_stripped]
  simp only [stripped_core_eq_nil_iff, spaced, List.map_eq_nil_iff]
  split <;> rfl

theorem exists_items (inside : Bool) (m : Loose) : ∃ m₁ m₂, m = m₁ ++ m₂ ∧
    dataItems inside (spaced m) = spaced m₁ ∧ dataItems inside (stripped m) = stripped m₁ := by
  induction m generalizing inside with
  | nil => exact ⟨[], [], rfl, rfl, rfl⟩
  | cons x m ih =>
    cases x with
    | none =>
      obtain ⟨m₁, m₂, rfl, h1, h2⟩ := ih inside
      exact ⟨none :: m₁, m₂, rfl, by simpa [dataItems] using h1, by simpa using h2⟩
    | some c =>
      have more (i : Bool) : ∃ m₁ m₂, some c :: m = m₁ ++ m₂ ∧
          c :: dataItems i (spaced m) = spaced m₁ ∧ c :: dataItems i (stripped m) = stripped m₁ := by
        obtain ⟨m₁, m₂, rfl, h1, h2⟩ := ih i
        exact ⟨some c :: m₁, m₂, rfl, by rw [h1, spaced_some], by rw [h2, stripped_some]⟩
      simp only [spaced_some, stripped_some, dataItems]
      by_cases hq : c = '"'
      · simp only [if_pos hq]
        exact more (!inside)
      · simp only [if_neg hq]
        by_cases hs : (c = ':' && !inside) = true
        · simp only [if_pos hs]
          exact ⟨[], some c :: m, rfl, rfl, rfl⟩
        · simp only [if_neg hs]
          exact more inside

end Loose

end ClassicBasic
