import ClassicBasic.Proofs.Lexical

/-!
# Where labels and functions are entered

A label in front of a line and the start of a function are entries: they say which line is theirs,
and they are right only where a line starts. Outputs are read from their last token, so the token in
front of an entry is the next one of the list; in an input it is the one before.
-/

set_option autoImplicit false

namespace ClassicBasic

/-- A lawful token that is no entry. -/
structure Token.Plain (d : Dialect) (t : Token) : Prop extends Token.Lawful d t where
  unmarked : t.kind.isEntry = false

namespace Token

variable {d : Dialect} {t : Token} {k : Kind} {v : Text} {pos : Position}

theorem Lexed.plain (h : t.Lexed d) : t.Plain d := ⟨h.toLawful, Kind.isEntry_of_unmade h.unmade⟩

theorem plain_of_unread (hk : k.isRead = false) (hn : k ≠ .lineNumber) (he : k.isEntry = false) :
    Plain d ⟨k, v, pos⟩ := ⟨lawful_of_unread hk hn he, he⟩

theorem Plain.movedTo (h : t.Plain d) : (t.movedTo pos).Plain d :=
  ⟨⟨h.unnumbered, h.classified, h.unkept⟩, h.unmarked⟩

end Token

theorem Lexer.snippet_plain {d : Dialect} (pos : Position) (code : Text) :
    ∀ t ∈ Lexer.snippet d pos code, t.Plain d :=
  fun t ht => (Lexer.snippet_lexed pos code t ht).plain

namespace Entry

open Directive (atLineStart)

/-- Whether what follows an output (last token first) is at the start of a line: behind a line end,
or behind an entry that is there. -/
def opensLine : List Token → Bool
  | [] => false
  | t :: _ => t.kind == .newline || t.kind.isEntry

/-- Every entry of an output (last token first) stands where `here` holds of the tokens before. -/
def Placed (here : List Token → Bool) : List Token → Prop
  | [] => True
  | t :: out => (t.kind.isEntry → here out) ∧ Placed here out

/-- Every entry of an input stands behind a line end; the first token may be one if `first`. -/
def Led (first : Bool) : List Token → Prop
  | [] => True
  | t :: rest => (t.kind.isEntry → first) ∧ Led (t.kind == .newline) rest

variable {here : List Token → Bool} {first : Bool} {l out : List Token}

theorem Placed.append (h : Placed here out) (hl : ∀ t ∈ l, t.kind.isEntry = false) :
    Placed here (l ++ out) := by
  induction l with
  | nil => exact h
  | cons t l ih =>
    rw [List.forall_mem_cons] at hl
    refine ⟨fun he => ?_, ih hl.2⟩
    rw [hl.1] at he
    cases he

theorem Placed.of_append (h : Placed here (l ++ out)) : Placed here out := by
  induction l with
  | nil => exact h
  | cons t l ih => exact ih h.2

theorem Placed.of_suffix {kept : List Token} (h : Placed here out) (hs : kept <:+ out) :
    Placed here kept := by
  obtain ⟨gone, rfl⟩ := hs
  exact h.of_append

theorem Led.anywhere (h : Led false l) : Led first l := by
  cases l with
  | nil => trivial
  | cons t l => exact ⟨fun he => absurd (h.1 he) Bool.false_ne_true, h.2⟩

theorem Led.append (h : Led first l) (ho : Led false out) : Led first (l ++ out) := by
  induction l generalizing first with
  | nil => exact ho.anywhere
  | cons t l ih => exact ⟨h.1, ih h.2⟩

theorem led_of_unmarked (h : ∀ t ∈ l, t.kind.isEntry = false) : Led first l := by
  induction l generalizing first with
  | nil => trivial
  | cons t l ih =>
    rw [List.forall_mem_cons] at h
    refine ⟨fun he => ?_, ih h.2⟩
    rw [h.1] at he
    cases he

theorem Led.of_append_cons {t : Token} (h : Led first (l ++ t :: out)) :
    Led first l ∧ Led (t.kind == .newline) out := by
  induction l generalizing first with
  | nil => exact ⟨trivial, h.2⟩
  | cons u l ih => exact ⟨⟨h.1, (ih h.2).1⟩, (ih h.2).2⟩

theorem Led.of_append (h : Led false (l ++ out)) (hl : ∀ t ∈ l, t.kind ≠ .newline) :
    (∀ t ∈ l, t.kind.isEntry = false) ∧ Led false out := by
  induction l with
  | nil => exact ⟨by simp, h⟩
  | cons t l ih =>
    rw [List.forall_mem_cons] at hl ⊢
    have hn : (t.kind == .newline) = false := by simpa using hl.1
    obtain ⟨ht, hr⟩ := h
    rw [hn] at hr
    have hu : t.kind.isEntry = false := by simpa using ht
    exact ⟨⟨hu, (ih hr hl.2).1⟩, (ih hr hl.2).2⟩

theorem placed_reverse_append :
    Placed atLineStart (l.reverse ++ out) ↔ Placed atLineStart out ∧ Led (atLineStart out) l := by
  induction l generalizing out with
  | nil => simp [Led]
  | cons t l ih =>
    rw [List.reverse_cons, List.append_assoc, List.singleton_append, ih]
    constructor
    · rintro ⟨⟨ht, ho⟩, hl⟩
      exact ⟨ho, ht, hl⟩
    · rintro ⟨ho, ht, hl⟩
      exact ⟨⟨ht, ho⟩, hl⟩

/-- A run of tokens that brings the line ends in front of its entries along. -/
structure Stretch (d : Dialect) (l : List Token) : Prop where
  led : Led false l
  lawful : ∀ t ∈ l, t.Lawful d

variable {d : Dialect}

theorem Stretch.nil : Stretch d [] := ⟨trivial, by simp⟩

theorem Stretch.append (h : Stretch d l) (ho : Stretch d out) : Stretch d (l ++ out) where
  led := h.led.append ho.led
  lawful t ht := by
    rcases List.mem_append.1 ht with ht | ht
    · exact h.lawful t ht
    · exact ho.lawful t ht

theorem stretch_of_plain (h : ∀ t ∈ l, t.Plain d) : Stretch d l :=
  ⟨led_of_unmarked fun t ht => (h t ht).unmarked, fun t ht => (h t ht).toLawful⟩

theorem Stretch.of_append_cons {t : Token} (h : Stretch d (l ++ t :: out)) (ht : t.kind ≠ .newline) :
    Stretch d l ∧ Stretch d out := by
  have hled := h.led.of_append_cons
  have hn : (t.kind == .newline) = false := by simpa using ht
  rw [hn] at hled
  exact ⟨⟨hled.1, fun u hu => h.lawful u (by simp [hu])⟩,
    ⟨hled.2, fun u hu => h.lawful u (by simp [hu])⟩⟩

/-- A start and the end of its line are at the bottom of an output (last token first). -/
def Based (out : List Token) : Prop :=
  ∃ front newline start, out = front ++ [newline, start] ∧
    newline.kind = .newline ∧ start.kind = .program

theorem Based.append (h : Based out) : Based (l ++ out) := by
  obtain ⟨front, newline, start, rfl, hn, hs⟩ := h
  exact ⟨l ++ front, newline, start, by simp, hn, hs⟩

theorem Based.tail {t : Token} (h : Based (t :: out)) (ht : t.kind ≠ .newline) : Based out := by
  obtain ⟨front, newline, start, heq, hn, hs⟩ := h
  cases front with
  | nil =>
    cases heq
    exact absurd hn ht
  | cons u front =>
    cases heq
    exact ⟨front, newline, start, rfl, hn, hs⟩

theorem Based.ne_nil (h : Based out) : out ≠ [] := by
  obtain ⟨front, newline, start, rfl, -, -⟩ := h
  simp

/-- What the first two stages keep of an output (last token first). -/
structure Sound (d : Dialect) (out : List Token) : Prop where
  lawful : ∀ t ∈ out, t.Lawful d
  placed : Placed atLineStart out
  based : Based out

theorem Sound.append (h : Sound d out) (hl : ∀ t ∈ l, t.Plain d) : Sound d (l ++ out) where
  lawful t ht := by
    rcases List.mem_append.1 ht with ht | ht
    · exact (hl t ht).toLawful
    · exact h.lawful t ht
  placed := h.placed.append fun t ht => (hl t ht).unmarked
  based := h.based.append

theorem Sound.append_reverse (h : Sound d out) (hl : ∀ t ∈ l, t.Plain d) :
    Sound d (l.reverse ++ out) :=
  h.append fun t ht => hl t (List.mem_reverse.1 ht)

theorem Sound.cons {t : Token} (h : Sound d out) (ht : t.Plain d) : Sound d (t :: out) :=
  Sound.append (l := [t]) h (by simpa using ht)

theorem Sound.push {t : Token} (h : Sound d out) (ht : t.Lawful d)
    (hs : t.kind.isEntry → atLineStart out) : Sound d (t :: out) where
  lawful := List.forall_mem_cons.2 ⟨ht, h.lawful⟩
  placed := ⟨hs, h.placed⟩
  based := Based.append (l := [t]) h.based

theorem Sound.append_stretch (h : Sound d out) (hl : Stretch d l) : Sound d (l.reverse ++ out) where
  lawful t ht := by
    rcases List.mem_append.1 ht with ht | ht
    · exact hl.lawful t (List.mem_reverse.1 ht)
    · exact h.lawful t ht
  placed := placed_reverse_append.2 ⟨h.placed, hl.led.anywhere⟩
  based := h.based.append

theorem Sound.tail {t : Token} (h : Sound d (t :: out)) (ht : t.kind ≠ .newline) :
    Sound d out where
  lawful := (List.forall_mem_cons.1 h.lawful).2
  placed := h.placed.2
  based := h.based.tail ht

/-- The tokens of a sound output in reading order: its start with a line end, and an input behind
it. -/
theorem Sound.exists_input {tokens : List Token} (h : Sound d tokens.reverse) :
    ∃ start newline rest, tokens = start :: newline :: rest ∧ start.kind = .program ∧
      newline.kind = .newline ∧ Sound d [newline, start] ∧ Led (atLineStart [newline, start]) rest ∧
      ∀ t ∈ rest, t.Lawful d := by
  obtain ⟨front, newline, start, heq, hn, hs⟩ := h.based
  obtain rfl : tokens = start :: newline :: front.reverse := by
    rw [List.reverse_eq_iff.1 heq]
    simp
  have hr : (start :: newline :: front.reverse).reverse = front.reverse.reverse ++ [newline, start] :=
    by simp
  obtain ⟨hl, hp, -⟩ := h
  rw [hr] at hl hp
  obtain ⟨hp, hled⟩ := placed_reverse_append.1 hp
  refine ⟨start, newline, front.reverse, rfl, hs, hn, ⟨?_, hp, [], newline, start, rfl, hn, hs⟩,
    hled, ?_⟩
  · exact fun t ht => hl t (List.mem_append_right _ ht)
  · exact fun t ht => hl t (List.mem_append_left _ (List.mem_reverse.2 ht))

end Entry

end ClassicBasic
