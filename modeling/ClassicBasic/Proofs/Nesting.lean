import ClassicBasic.Proofs.Framed
import ClassicBasic.Proofs.Homed

/-!
# Loops within a file

The second stage keeps the names of the open loops on a stack and puts a mark for each opening and a
jump for each closing and each way out. Read with a stack of the marks themselves, what it leaves of a
file is nested: each jump is called by the name of the innermost open mark and stands in the same
file, and in front of it there is a GOTO. The name in front of an opening brace must not be such a
mark already, and what a file captures must hold no braces and no EXIT, which would be put out as they
stand.
-/

set_option autoImplicit false

namespace ClassicBasic

/-- Kinds of what loops and labels become, and of the numbers that lines get later. -/
def Kind.isLooped : Kind → Bool
  | .labelLine | .labelReturn | .labelExit | .lineNumber => true
  | _ => false

namespace Text

def signs : Text := "~,=@"

def Unsigned (v : Text) : Prop := ∀ c ∈ v.head?, c ∉ signs

theorem Unsigned.ne {v : Text} {c : Char} (h : Unsigned v) (hc : c ∈ signs) : v ≠ [c] := by
  rintro rfl
  exact h c rfl hc

end Text

namespace Token

def IsBrace (t : Token) : Prop := t.value = Label.opening ∨ t.value = Label.closing

/-- Whether a token opens, closes or leaves a loop, or encloses a label, as it is written: a brace or
EXIT. -/
def Loops (t : Token) : Prop := (t.kind = .mark ∧ t.IsBrace) ∨ (t.kind = .directive ∧ t.is "EXIT" = true)

/-- Whether a token is the jump that closing or leaving a loop becomes. -/
def Leaps (t : Token) : Prop := t.kind = .labelReturn ∨ t.kind = .labelExit

def IsGoto (t : Token) : Prop := t.kind = .jump ∧ t.value = "goto"

/-- Whether a jump is called by the name of a mark of the same file. -/
def Matches (t m : Token) : Prop := t.value = m.value ∧ t.pos.file = m.pos.file

/-- Whether no stage takes a token for a brace or EXIT, nor for a sign if it is made from a loop. -/
structure Bound (t : Token) : Prop where
  unsigned : t.kind.isLooped = true → t.value.Unsigned
  unlooped : ¬t.Loops

instance (t : Token) : Decidable t.IsBrace := inferInstanceAs (Decidable (_ ∨ _))

instance (t : Token) : Decidable t.Loops := inferInstanceAs (Decidable (_ ∨ _))

variable {t : Token}

theorem Leaps.isLooped (h : t.Leaps) : t.kind.isLooped = true := by
  rcases h with h | h <;> rw [h] <;> rfl

theorem not_leaps (h : t.kind.isLooped = false) : ¬t.Leaps := fun hr => by
  rw [hr.isLooped] at h
  cases h

theorem not_loops {k : Kind} (hk : t.kind = k) (hm : k ≠ .mark) (hd : k ≠ .directive) : ¬t.Loops := by
  rintro (⟨h, -⟩ | ⟨h, -⟩)
  · exact hm (hk.symm.trans h)
  · exact hd (hk.symm.trans h)

/-- Whether a token is neither made from a loop nor a brace or EXIT. -/
structure Straight (t : Token) : Prop where
  kind : t.kind.isLooped = false
  unlooped : ¬t.Loops

theorem Straight.bound (h : t.Straight) : t.Bound :=
  ⟨fun hk => absurd (h.kind.symm.trans hk) (by decide), h.unlooped⟩

theorem straight_of_kind {k : Kind} (hk : t.kind = k) (hl : k.isLooped = false) (hm : k ≠ .mark)
    (hd : k ≠ .directive) : t.Straight := ⟨hk ▸ hl, not_loops hk hm hd⟩

end Token

/-- How the loops in a list of tokens are nested: the marks of the loops that are open in front of the
list and behind it, innermost first. -/
inductive Nests : List Token → List Token → List Token → Prop
  | done {a : List Token} : Nests a [] a
  | token {t : Token} {l a b : List Token} (hk : t.kind.isLooped = false) (h : Nests a l b) :
      Nests a (t :: l) b
  /-- The mark of a line. -/
  | label {t : Token} {l a b : List Token} (hk : t.kind = .labelLine) (h : Nests a l b) :
      Nests a (t :: l) b
  /-- The mark where a loop starts. -/
  | opens {t : Token} {l a b : List Token} (hk : t.kind = .labelLine) (h : Nests (t :: a) l b) :
      Nests a (t :: l) b
  /-- The jump back to the start of the innermost loop, which ends it. -/
  | closes {t m : Token} {l a b : List Token} (hk : t.kind = .labelReturn) (hm : t.Matches m)
      (h : Nests a l b) : Nests (m :: a) (t :: l) b
  /-- The jump past the end of the innermost loop. -/
  | leaves {t m : Token} {l a b : List Token} (hk : t.kind = .labelExit) (hm : t.Matches m)
      (h : Nests (m :: a) l b) : Nests (m :: a) (t :: l) b

variable {a b c l l' : List Token} {t u : Token}

namespace Nests

theorem append (h : Nests a l b) (h' : Nests b l' c) : Nests a (l ++ l') c := by
  induction h with
  | done => exact h'
  | token hk _ ih => exact .token hk (ih h')
  | label hk _ ih => exact .label hk (ih h')
  | opens hk _ ih => exact .opens hk (ih h')
  | closes hk hm _ ih => exact .closes hk hm (ih h')
  | leaves hk hm _ ih => exact .leaves hk hm (ih h')

theorem of_append (h : Nests a (l ++ l') c) : ∃ b, Nests a l b ∧ Nests b l' c := by
  induction l generalizing a with
  | nil => exact ⟨a, .done, h⟩
  | cons t l ih =>
    cases h with
    | token hk h => exact (ih h).imp fun b hb => ⟨.token hk hb.1, hb.2⟩
    | label hk h => exact (ih h).imp fun b hb => ⟨.label hk hb.1, hb.2⟩
    | opens hk h => exact (ih h).imp fun b hb => ⟨.opens hk hb.1, hb.2⟩
    | closes hk hm h => exact (ih h).imp fun b hb => ⟨.closes hk hm hb.1, hb.2⟩
    | leaves hk hm h => exact (ih h).imp fun b hb => ⟨.leaves hk hm hb.1, hb.2⟩

theorem inside (h : Nests a l b) (outer : List Token) : Nests (a ++ outer) l (b ++ outer) := by
  induction h with
  | done => exact .done
  | token hk _ ih => exact .token hk ih
  | label hk _ ih => exact .label hk ih
  | opens hk _ ih => exact .opens hk ih
  | closes hk hm _ ih => exact .closes hk hm ih
  | leaves hk hm _ ih => exact .leaves hk hm ih

theorem cons_iff (hk : t.kind.isLooped = false) : Nests a (t :: l) b ↔ Nests a l b := by
  refine ⟨fun h => ?_, .token hk⟩
  cases h with
  | token _ h => exact h
  | label h | opens h | closes h | leaves h => rw [h] at hk; cases hk

theorem append_iff (hl : ∀ t ∈ l', t.kind.isLooped = false) :
    Nests a (l ++ l') b ↔ Nests a l b := by
  have plain : Nests b l' b := by
    induction l' with
    | nil => exact .done
    | cons t l' ih =>
      obtain ⟨ht, hl⟩ := List.forall_mem_cons.1 hl
      exact .token ht (ih hl)
  refine ⟨fun h => ?_, fun h => h.append plain⟩
  obtain ⟨b', hleft, hright⟩ := h.of_append
  have heq : b' = b := by
    clear plain hleft h
    induction l' with
    | nil =>
      cases hright
      rfl
    | cons t l' ih =>
      obtain ⟨ht, hl⟩ := List.forall_mem_cons.1 hl
      exact ih hl ((cons_iff ht).1 hright)
  exact heq ▸ hleft

end Nests

/-- The braces that open and close loops and the words that leave them, as they are written. The braces
around the name of a label are none. -/
def turns : List Token → List Token
  | t :: content :: closer :: rest =>
    if (t.kind = .mark ∧ t.value = Label.opening) ∧ content.kind ≠ .newline ∧
        closer.value = Label.closing then turns rest
    else if t.Loops then t :: turns (content :: closer :: rest)
    else turns (content :: closer :: rest)
  | l => l.filter fun t => t.Loops

theorem turns_label {content closer : Token} (hk : t.kind = .mark) (hv : t.value = Label.opening)
    (hc : content.kind ≠ .newline) (hl : closer.value = Label.closing) :
    turns (t :: content :: closer :: l) = turns l := by
  rw [turns, if_pos ⟨⟨hk, hv⟩, hc, hl⟩]

theorem turns_cons (h : ∀ content closer after, l = content :: closer :: after → t.kind = .mark →
    t.value = Label.opening → content.kind ≠ .newline → closer.value ≠ Label.closing) :
    turns (t :: l) = if t.Loops then t :: turns l else turns l := by
  match l with
  | [] | [u] => simp [turns, List.filter_cons]
  | content :: closer :: after =>
    rw [turns, if_neg fun hall => h content closer after rfl hall.1.1 hall.1.2 hall.2.1 hall.2.2]

theorem turns_append (h : ∀ t ∈ l, ¬t.Loops) (rest : List Token) : turns (l ++ rest) = turns rest := by
  induction l with
  | nil => rfl
  | cons t l ih =>
    obtain ⟨ht, hl⟩ := List.forall_mem_cons.1 h
    rw [List.cons_append, turns_cons fun _ _ _ _ hk hv => absurd (.inl ⟨hk, .inl hv⟩) ht, if_neg ht, ih hl]

/-- How the marks and jumps of a file follow what its loops are written with: each opening brace has
become a mark in its place, each closing brace a jump called by the innermost open mark, which it
closes, and each word that leaves a loop a jump called by the innermost open mark. The marks of the
loops that are open in front and behind come innermost first. -/
inductive Follows : List Token → List Token → List Token → List Token → Prop
  | done {a : List Token} : Follows a [] [] a
  /-- The mark of a line. -/
  | label {m : Token} {a b written made : List Token} (hm : m.kind = .labelLine)
      (h : Follows a written made b) : Follows a written (m :: made) b
  | opens {t m : Token} {a b written made : List Token} (hk : t.kind = .mark)
      (hv : t.value = Label.opening) (hm : m.kind = .labelLine) (hp : m.pos = t.pos)
      (h : Follows (m :: a) written made b) : Follows a (t :: written) (m :: made) b
  | closes {t r m : Token} {a b written made : List Token} (hk : t.kind = .mark)
      (hv : t.value = Label.closing) (hr : r.kind = .labelReturn) (hp : r.pos = t.pos)
      (hm : r.Matches m) (h : Follows a written made b) :
      Follows (m :: a) (t :: written) (r :: made) b
  | leaves {t r m : Token} {a b written made : List Token} (hk : t.kind = .directive)
      (hv : t.is "EXIT" = true) (hr : r.kind = .labelExit) (hp : r.pos = t.pos) (hm : r.Matches m)
      (h : Follows (m :: a) written made b) : Follows (m :: a) (t :: written) (r :: made) b

namespace Follows

variable {written written' made made' : List Token}

theorem append (h : Follows a written made b) (h' : Follows b written' made' c) :
    Follows a (written ++ written') (made ++ made') c := by
  induction h with
  | done => exact h'
  | label hm _ ih => exact .label hm (ih h')
  | opens hk hv hm hp _ ih => exact .opens hk hv hm hp (ih h')
  | closes hk hv hr hp hm _ ih => exact .closes hk hv hr hp hm (ih h')
  | leaves hk hv hr hp hm _ ih => exact .leaves hk hv hr hp hm (ih h')

theorem nests (h : Follows a written made b) : Nests a made b := by
  induction h with
  | done => exact .done
  | label hm _ ih => exact .label hm ih
  | opens _ _ hm _ _ ih => exact .opens hm ih
  | closes _ _ hr _ hm _ ih => exact .closes hr hm ih
  | leaves _ _ hr _ hm _ ih => exact .leaves hr hm ih

theorem kind (h : Follows a written made b) : ∀ m ∈ made, m.kind = .labelLine ∨ m.Leaps := by
  induction h with
  | done => simp
  | label hm _ ih | opens _ _ hm _ _ ih => exact List.forall_mem_cons.2 ⟨.inl hm, ih⟩
  | closes _ _ hr _ _ _ ih => exact List.forall_mem_cons.2 ⟨.inr (.inl hr), ih⟩
  | leaves _ _ hr _ _ _ ih => exact List.forall_mem_cons.2 ⟨.inr (.inr hr), ih⟩

end Follows

def marks (l : List Token) : List Token := l.filter fun t => t.kind.isLooped

theorem marks_append : marks (l ++ l') = marks l ++ marks l' := List.filter_append l l'

theorem marks_eq_nil (h : ∀ t ∈ l, t.kind.isLooped = false) : marks l = [] :=
  List.filter_eq_nil_iff.2 fun t ht => by simp [h t ht]

theorem nests_marks : Nests a (marks l) b ↔ Nests a l b := by
  induction l generalizing a with
  | nil => exact Iff.rfl
  | cons t l ih =>
    cases hk : t.kind.isLooped with
    | false =>
      rw [Nests.cons_iff hk, ← ih]
      simp [marks, hk]
    | true =>
      have hcons : marks (t :: l) = t :: marks l := List.filter_cons_of_pos hk
      rw [hcons]
      constructor <;> intro h <;> cases h with
      | token h => rw [h] at hk; cases hk
      | label hk h => exact .label hk (by simpa [ih] using h)
      | opens hk h => exact .opens hk (by simpa [ih] using h)
      | closes hk hm h => exact .closes hk hm (by simpa [ih] using h)
      | leaves hk hm h => exact .leaves hk hm (by simpa [ih] using h)

/-- Whether in front of each jump that closing or leaving a loop becomes there is a GOTO. -/
structure Guided (l : List Token) : Prop where
  head : ∀ t ∈ l.head?, ¬t.Leaps
  chain : l.IsChain fun t u => u.Leaps → t.IsGoto

theorem chain_of_not_leaps (h : ∀ t ∈ l, ¬t.Leaps) :
    l.IsChain fun t u => u.Leaps → t.IsGoto := by
  induction l with
  | nil => exact List.isChain_nil
  | cons t l ih =>
    obtain ⟨-, hl⟩ := List.forall_mem_cons.1 h
    exact (ih hl).cons fun u hu hr => absurd hr (hl u (List.mem_of_mem_head? hu))

namespace Guided

theorem left (h : Guided (l ++ l')) : Guided l := by
  refine ⟨fun t ht => h.head t ?_, List.IsChain.left_of_append h.chain⟩
  rw [List.head?_append, Option.mem_def.1 ht]
  rfl

theorem append (h : Guided l) (h' : Guided l') : Guided (l ++ l') := by
  refine ⟨fun t ht => ?_, h.chain.append h'.chain fun _ _ u hu hr => absurd hr (h'.head u hu)⟩
  cases l with
  | nil => exact h'.head t ht
  | cons u l => exact h.head t ht

theorem of_not_leaps (h : ∀ t ∈ l, ¬t.Leaps) : Guided l :=
  ⟨fun t ht => h t (List.mem_of_mem_head? ht), chain_of_not_leaps h⟩

theorem push (h : Guided (l ++ [t])) (ht : t.IsGoto) : Guided (l ++ [t, u]) := by
  have heq : l ++ [t, u] = (l ++ [t]) ++ [u] := by simp
  rw [heq]
  refine ⟨fun v hv => h.head v ?_, h.chain.append (List.isChain_singleton u) fun v hv _ _ _ => ?_⟩
  · cases l <;> exact hv
  · have hv : v = t := by simpa using hv.symm
    rwa [hv]

theorem goto_of_leaps (h : Guided (l ++ [t])) (ht : t.Leaps) : ∃ g ∈ l.getLast?, g.IsGoto := by
  rcases List.eq_nil_or_concat l with rfl | ⟨before, g, rfl⟩
  · exact absurd ht (h.head t rfl)
  · rw [List.concat_eq_append, List.append_assoc] at h
    exact ⟨g, by simp, (List.IsChain.right_of_append h.chain).rel ht⟩

end Guided

variable {d : Dialect} {file : Text} {out rest : List Token}

namespace Lexer

def loopSign (c : Char) : Bool := c == '\x7b' || c == '\x7d' || Text.foldChar c == 'x'

theorem snippet_unlooped {pos : Position} {code : Text} (hb : code.any startsBlock = false)
    (hc : code.any loopSign = false) : ∀ t ∈ snippet d pos code, t.Straight := by
  intro t ht
  have hkind : t.kind.isLooped = false := by
    have hlaid := (snippet_coded hb t ht).early
    cases hk : t.kind <;> first | rfl | rw [hk] at hlaid; cases hlaid
  refine ⟨hkind, ?_⟩
  have hnone {c : Char} (hm : c ∈ t.value) : loopSign c = false := by
    unfold snippet at ht
    split at ht
    · rename_i tokens hs
      exact Bool.eq_false_iff.2 (List.any_eq_false.1 hc c ((snippet?_spec hs t ht).2 c hm))
    · cases ht
  rintro (⟨-, hv | hv⟩ | ⟨-, hx⟩)
  · exact absurd (hnone (c := '\x7b') (by rw [hv]; decide)) (by decide)
  · exact absurd (hnone (c := '\x7d') (by rw [hv]; decide)) (by decide)
  · obtain ⟨c, hm, hfold⟩ : ∃ c ∈ t.value, Text.foldChar c = 'x' := by
      have hmem : 'x' ∈ t.value.map Text.foldChar := by
        have heq : Text.fold t.value = Text.fold "EXIT" := by
          simpa [Token.is, Text.sameLetters_eq] using hx
        rw [show t.value.map Text.foldChar = Text.fold t.value from rfl, heq]
        decide
      simpa using hmem
    have := hnone hm
    simp [loopSign, hfold] at this

theorem snippet_goto (pos : Position) : snippet d pos "goto" = [⟨.jump, "goto", pos⟩] := by
  have hall : snippet d {} "goto" = [⟨.jump, "goto", {}⟩] := by cases d <;> decide +kernel
  rw [snippet_movedTo, hall]
  rfl

end Lexer

/-- The tokens behind the first one of a list that are captured by it: the arguments of a function or
of PRINT at a place. -/
def Label.captured (d : Dialect) : List Token → List Token
  | [] => []
  | t :: rest =>
    if t.kind = .functionName then
      match Routine.argumentList t rest with
      | .ok (_, _, after) => rest.take (rest.length - after.length)
      | .error _ => []
    else if d = .coco ∧ t.kind = .special ∧ t.value = PrintAt.opening then
      rest.take (rest.length - (PrintAt.split 0 none [] t rest).rest.length)
    else []

/-- Whether nothing that a file captures holds a brace or EXIT, neither the defaults and results of its
functions nor the arguments behind their names and of PRINT at a place, and no opening brace stands
right behind a brace. -/
structure Unlooped (d : Dialect) (tables : Tables) (carried : List Token) : Prop where
  defaults : ∀ e ∈ tables.routines, ∀ p ∈ e.2.parameters, ∀ t ∈ p.fallback, ¬t.Loops
  results : ∀ e ∈ tables.routines, ∀ r ∈ e.2.results, ∀ t ∈ r, ¬t.Loops
  arguments : ∀ l ∈ carried.tails, ∀ t ∈ Label.captured d l, ¬t.Loops
  apart : carried.IsChain fun t u => t.IsBrace → ¬(u.kind = .mark ∧ u.value = Label.opening)

instance (tables : Tables) (carried : List Token) : Decidable (Unlooped d tables carried) :=
  decidable_of_iff
    ((∀ e ∈ tables.routines, (∀ p ∈ e.2.parameters, ∀ t ∈ p.fallback, ¬t.Loops) ∧
        ∀ r ∈ e.2.results, ∀ t ∈ r, ¬t.Loops) ∧
      (∀ l ∈ carried.tails, ∀ t ∈ Label.captured d l, ¬t.Loops) ∧
      carried.IsChain fun t u => t.IsBrace → ¬(u.kind = .mark ∧ u.value = Label.opening))
    ⟨fun h => ⟨fun e he => (h.1 e he).1, fun e he => (h.1 e he).2, h.2.1, h.2.2⟩,
      fun h => ⟨fun e he => ⟨h.defaults e he, h.results e he⟩, h.arguments, h.apart⟩⟩

structure OpenAs (file : Text) (m name : Token) : Prop where
  value : m.value = name.lower
  file : m.pos.file = file
  unsigned : m.value.Unsigned

/-- What the second stage has put out of a file (last token first) while loops are open and behind the
braces and words in `written`. -/
structure Woven (file : Text) (written loops out : List Token) : Prop where
  follows : ∃ held, Follows [] written (marks out.reverse) held ∧ List.Forall₂ (OpenAs file) held loops
  bound : ∀ t ∈ out, t.Bound
  guided : Guided out.reverse

namespace Woven

variable {loops written : List Token}

theorem put (h : Woven file written loops out) (hl : ∀ t ∈ l, t.Straight) :
    Woven file written loops (l.reverse ++ out) := by
  have heq : (l.reverse ++ out).reverse = out.reverse ++ l := by simp
  obtain ⟨held, hn, hcalls⟩ := h.follows
  refine ⟨⟨held, ?_, hcalls⟩, fun t ht => ?_, ?_⟩
  · rwa [heq, marks_append, marks_eq_nil fun t ht => (hl t ht).kind, List.append_nil]
  · rcases List.mem_append.1 ht with ht | ht
    · exact (hl t (List.mem_reverse.1 ht)).bound
    · exact h.bound t ht
  · rw [heq]
    exact h.guided.append (.of_not_leaps fun t ht => Token.not_leaps (hl t ht).kind)

theorem back (h : Woven file written loops (l ++ out)) (hl : ∀ t ∈ l, t.kind.isLooped = false) :
    Woven file written loops out := by
  have heq : (l ++ out).reverse = out.reverse ++ l.reverse := List.reverse_append
  obtain ⟨held, hn, hcalls⟩ := h.follows
  refine ⟨⟨held, ?_, hcalls⟩, fun t ht => h.bound t (List.mem_append_right _ ht), ?_⟩
  · rwa [heq, marks_append, marks_eq_nil fun t ht => hl t (List.mem_reverse.1 ht), List.append_nil] at hn
  · have hg := h.guided
    rw [heq] at hg
    exact hg.left

end Woven

namespace Routine

/-- Behind the signs that it looks for a call takes back the tokens of its runs. -/
theorem takeBack_taken (run : List Token) (runs : List (List Token)) (out : List Token) :
    ∃ taken, out = taken ++ (takeBack d run runs out).2 ∧
      (∀ t ∈ taken, t.value = "," ∨ ∃ r ∈ (takeBack d run runs out).1, t ∈ r) ∧
      ∀ t ∈ run, ∃ r ∈ (takeBack d run runs out).1, t ∈ r := by
  have kept (run : List Token) (runs : List (List Token)) (out : List Token) :
      ∀ r ∈ runs, r ∈ (takeBack d run runs out).1 := by
    induction out generalizing run runs with
    | nil => exact fun r hr => List.mem_cons_of_mem _ hr
    | cons t out ih =>
      intro r hr
      simp only [takeBack]
      split
      · exact List.mem_cons_of_mem _ hr
      · split
        · exact ih [] (run :: runs) r (List.mem_cons_of_mem _ hr)
        · exact ih (t :: run) runs r hr
  induction out generalizing run runs with
  | nil => exact ⟨[], rfl, by simp, fun t ht => ⟨run, List.mem_cons_self, ht⟩⟩
  | cons t out ih =>
    simp only [takeBack]
    split
    · exact ⟨[], rfl, by simp, fun t ht => ⟨run, List.mem_cons_self, ht⟩⟩
    · split
      · rename_i hv
        obtain ⟨taken, heq, htaken, -⟩ := ih [] (run :: runs)
        refine ⟨t :: taken, by rw [List.cons_append, ← heq], List.forall_mem_cons.2 ⟨.inl hv, htaken⟩, ?_⟩
        exact fun u hu => ⟨run, kept [] (run :: runs) out run List.mem_cons_self, hu⟩
      · obtain ⟨taken, heq, htaken, hrun⟩ := ih (t :: run) runs
        obtain ⟨ht, hrun⟩ := List.forall_mem_cons.1 hrun
        exact ⟨t :: taken, by rw [List.cons_append, ← heq],
          List.forall_mem_cons.2 ⟨.inr ht, htaken⟩, hrun⟩

theorem kind_of_resultVariable {run : List Token} {v : Option Token}
    (h : resultVariable run = .ok v) : ∀ t ∈ run, t.kind = .identifier := by
  unfold resultVariable at h
  split at h
  · simp
  · split at h
    · cases h
    · rename_i hk
      split at h
      · simpa using hk
      · cases h

theorem callVariables_taken {before : List Token} {vars : List (Option Token)}
    (hb : ∀ t ∈ out, t.Bound) (h : callVariables d out = .ok (vars, before)) :
    ∃ taken, out = taken ++ before ∧ ∀ t ∈ taken, t.kind.isLooped = false := by
  have signed {t : Token} {c : Char} (ht : t ∈ out) (hc : c ∈ Text.signs) (hv : t.value = [c]) :
      t.kind.isLooped = false := by
    cases hk : t.kind.isLooped with
    | false => rfl
    | true => exact absurd hv (((hb t ht).unsigned hk).ne hc)
  unfold callVariables at h
  split at h
  · cases h
    exact ⟨[], rfl, by simp⟩
  · rename_i t out
    split at h
    · cases h
      exact ⟨[], rfl, by simp⟩
    · rename_i hv
      obtain ⟨vars', hm, he⟩ := Outcome.map_eq_ok_iff.1 h
      cases he
      obtain ⟨taken, heq, htaken, -⟩ := takeBack_taken (d := d) [] [] out
      refine ⟨t :: taken, by rw [List.cons_append, ← heq], List.forall_mem_cons.2 ⟨?_, fun u hu => ?_⟩⟩
      · exact signed List.mem_cons_self (c := '=') (by decide) (Decidable.not_not.1 hv)
      · rcases htaken u hu with hcomma | ⟨r, hr, hu'⟩
        · refine signed (List.mem_cons_of_mem _ ?_) (c := ',') (by decide) hcomma
          rw [heq]
          exact List.mem_append_left _ hu
        · obtain ⟨i, hi, rfl⟩ := List.getElem_of_mem hr
          have hall := Outcome.forall₂_of_mapM hm
          have hlt : i < vars.length := by rwa [← hall.length_eq]
          rw [kind_of_resultVariable (hall.get hi hlt) u hu']
          rfl

end Routine

variable {tables : Tables} {carried loops : List Token}

theorem Kind.isLooped_of_unlaid {k : Kind} (h : k.isLaid = false) : k.isLooped = false := by
  cases k <;> first | rfl | cases h

namespace PrintAt

/-- The tokens that the arguments of PRINT at a place are put together from. -/
theorem split_taken (depth : Int) (x : Option (List Token)) (term : List Token) (last : Token)
    (input : List Token) : ∃ taken, input = taken ++ (split depth x term last input).rest ∧
      (∀ t ∈ (split depth x term last input).x, t ∈ x.getD [] ∨ t ∈ term ∨ t ∈ taken) ∧
      ∀ t ∈ (split depth x term last input).y, t ∈ term ∨ t ∈ taken := by
  induction input generalizing depth x term last with
  | nil => exact ⟨[], rfl, fun t ht => .inl ht, by simp [split]⟩
  | cons u rest ih =>
    simp only [split]
    split
    · exact ⟨[], rfl, fun t ht => .inl ht, by simp⟩
    · split
      · split
        · exact ⟨[u], rfl, fun t ht => .inl ht, fun t ht => .inl ht⟩
        · exact ⟨[u], rfl, fun t ht => .inr (.inl ht), by simp⟩
      · split
        · obtain ⟨taken, heq, hx, hy⟩ := ih (deeper u depth) (some term) [] u
          refine ⟨u :: taken, congrArg (u :: ·) heq, fun t ht => ?_, fun t ht => ?_⟩
          · rcases hx t ht with h | h | h
            · exact .inr (.inl h)
            · cases h
            · exact .inr (.inr (List.mem_cons_of_mem _ h))
          · rcases hy t ht with h | h
            · cases h
            · exact .inr (List.mem_cons_of_mem _ h)
        · obtain ⟨taken, heq, hx, hy⟩ := ih (deeper u depth) x (term ++ [u]) u
          have grown {t : Token} (ht : t ∈ term ++ [u]) : t ∈ term ∨ t ∈ u :: taken := by
            rcases List.mem_append.1 ht with h | h
            · exact .inl h
            · exact .inr (List.mem_cons.2 (.inl (List.mem_singleton.1 h)))
          refine ⟨u :: taken, congrArg (u :: ·) heq, fun t ht => ?_, fun t ht => ?_⟩
          · rcases hx t ht with h | h | h
            · exact .inl h
            · exact .inr (grown h)
            · exact .inr (.inr (List.mem_cons_of_mem _ h))
          · exact (hy t ht).elim grown fun h => .inr (List.mem_cons_of_mem _ h)

end PrintAt

namespace Unlooped

theorem call (h : Unlooped d tables carried) {fn closer : Token} {after : List Token}
    {runs : List (List Token)} (hs : fn :: rest <:+ carried) (hk : fn.kind = .functionName)
    (hl : ∀ t ∈ rest, t.Lawful d) (ha : Routine.argumentList fn rest = .ok (runs, closer, after)) :
    (∀ r ∈ runs, ∀ t ∈ r, t ∈ rest ∧ ¬t.Loops) ∧ turns (fn :: rest) = turns after := by
  obtain ⟨-, read, rfl, -, hruns⟩ := Routine.argumentList_spec hl ha
  have hread : ∀ t ∈ read, ¬t.Loops := by
    have hall := h.arguments _ ((List.mem_tails _ _).2 hs)
    simpa [Label.captured, hk, ha] using hall
  refine ⟨fun r hr t ht => ⟨List.mem_append_left _ (hruns r hr t ht).1, hread t (hruns r hr t ht).1⟩, ?_⟩
  have hfn : ¬fn.Loops := Token.not_loops hk (by decide) (by decide)
  exact turns_append (l := fn :: read) (List.forall_mem_cons.2 ⟨hfn, hread⟩) after

theorem place (h : Unlooped d tables carried) (hd : d = .coco) (hs : t :: rest <:+ carried)
    (hk : t.kind = .special) (hv : t.value = PrintAt.opening) :
    (∀ u ∈ (PrintAt.split 0 none [] t rest).x, u ∈ rest ∧ ¬u.Loops) ∧
      (∀ u ∈ (PrintAt.split 0 none [] t rest).y, u ∈ rest ∧ ¬u.Loops) ∧
      turns (t :: rest) = turns (PrintAt.split 0 none [] t rest).rest := by
  obtain ⟨taken, heq, hx, hy⟩ := PrintAt.split_taken 0 none [] t rest
  have htaken : ∀ u ∈ taken, u ∈ rest ∧ ¬u.Loops := by
    have hall := h.arguments _ ((List.mem_tails _ _).2 hs)
    have hlen : rest.length - (PrintAt.split 0 none [] t rest).rest.length = taken.length := by
      have := congrArg List.length heq
      rw [List.length_append] at this
      omega
    rw [Label.captured, if_neg (by simp [hk]), if_pos ⟨hd, hk, hv⟩, hlen] at hall
    generalize (PrintAt.split 0 none [] t rest).rest = after at heq
    subst heq
    rw [List.take_left] at hall
    exact fun u hu => ⟨List.mem_append_left _ hu, hall u hu⟩
  generalize PrintAt.split 0 none [] t rest = arguments at heq hx hy ⊢
  have ht : ¬t.Loops := Token.not_loops hk (by decide) (by decide)
  refine ⟨fun u hu => ?_, fun u hu => ?_, ?_⟩
  · exact htaken u (by simpa using hx u hu)
  · exact htaken u (by simpa using hy u hu)
  · rw [heq]
    exact turns_append (l := t :: taken) (List.forall_mem_cons.2 ⟨ht, fun u hu => (htaken u hu).2⟩) _

theorem not_opens (h : Unlooped d tables carried) (hs : u :: t :: rest <:+ carried) (hu : u.IsBrace)
    (hk : t.kind = .mark) : t.value ≠ Label.opening :=
  fun hv => (List.IsChain.suffix h.apart hs).rel hu ⟨hk, hv⟩

end Unlooped

namespace Woven

variable {written made : List Token}

theorem mark {label : Token} (h : Woven file written loops out)
    (hf : ∀ held, List.Forall₂ (OpenAs file) held loops → ∃ held', Follows held made [label] held' ∧
      List.Forall₂ (OpenAs file) held' l)
    (hk : label.kind = .labelLine) (hu : label.value.Unsigned) :
    Woven file (written ++ made) l (label :: out) := by
  obtain ⟨held, hfollows, hcalls⟩ := h.follows
  obtain ⟨held', hone, hcalls'⟩ := hf held hcalls
  refine ⟨⟨held', ?_, hcalls'⟩, List.forall_mem_cons.2 ⟨⟨fun _ => hu, ?_⟩, h.bound⟩, ?_⟩
  · have hmade : marks (label :: out).reverse = marks out.reverse ++ [label] := by
      simp [marks, hk, Kind.isLooped]
    rw [hmade]
    exact hfollows.append hone
  · exact Token.not_loops hk (by decide) (by decide)
  · rw [List.reverse_cons]
    exact h.guided.append (.of_not_leaps (by simp [Token.Leaps, hk]))

theorem jump {t label g r : Token} {outer after : List Token}
    (h : Woven file written (label :: outer) (g :: out)) (hg : g.IsGoto) (hr : r.Leaps)
    (hv : r.value = label.lower) (hf : r.pos.file = file) (hp : r.pos = t.pos)
    (ha : (r.kind = .labelReturn ∧ t.kind = .mark ∧ t.value = Label.closing ∧ after = outer) ∨
      (r.kind = .labelExit ∧ t.kind = .directive ∧ t.is "EXIT" = true ∧ after = label :: outer)) :
    Woven file (written ++ [t]) after (r :: g :: out) := by
  obtain ⟨held, hn, hcalls⟩ := h.follows
  obtain ⟨m, more, hm, hmore, rfl⟩ := List.forall₂_cons_right_iff.1 hcalls
  have hmatch : r.Matches m := ⟨hv.trans hm.value.symm, hf.trans hm.file.symm⟩
  have heq : (r :: g :: out).reverse = (g :: out).reverse ++ [r] := List.reverse_cons
  have hmade : marks (r :: g :: out).reverse = marks (g :: out).reverse ++ [r] := by
    rw [heq, marks_append]
    simp [marks, hr.isLooped]
  refine ⟨?_, List.forall_mem_cons.2 ⟨⟨fun _ => ?_, ?_⟩, h.bound⟩, ?_⟩
  · rw [hmade]
    rcases ha with ⟨hk, ht, hclosing, rfl⟩ | ⟨hk, ht, hexit, rfl⟩
    · exact ⟨more, hn.append (.closes ht hclosing hk hp hmatch .done), hmore⟩
    · exact ⟨m :: more, hn.append (.leaves ht hexit hk hp hmatch .done), hcalls⟩
  · rw [hv, ← hm.value]
    exact hm.unsigned
  · rcases hr with hk | hk <;> exact Token.not_loops hk (by decide) (by decide)
  · have hguided := h.guided
    rw [List.reverse_cons] at hguided
    simpa using hguided.push hg

end Woven

namespace Label

theorem lineMark_spec {label mark : Token} {pos : Position} (h : lineMark label pos = .ok mark) :
    mark = ⟨.labelLine, label.lower, pos⟩ ∧ mark.value.Unsigned ∧
      Dialect.isIdentifier label.value = true := by
  unfold lineMark at h
  split at h
  · rename_i hi
    cases h
    refine ⟨rfl, fun c hc hs => ?_, hi⟩
    cases hv : label.value with
    | nil => simp [Dialect.isIdentifier, Grammar.isName, hv] at hi
    | cons x more =>
      have hx : Text.lowerChar x = c := by simpa [Token.lower, hv, Text.lower] using hc
      have hall : Text.signs.all (fun c => decide (c.toNat < 0x80 ∧ c.isLower = false ∧ c ≠ '\x00' ∧
          Grammar.isLetter c = false)) = true := by decide +kernel
      obtain ⟨hsmall, hlower, hzero, hletter⟩ := of_decide_eq_true (List.all_eq_true.1 hall c hs)
      rw [← Text.lowerChar_eq hx hsmall hlower hzero] at hletter
      simp [Dialect.isIdentifier, Grammar.isName, hv, hletter] at hi
  · cases h

/-- Whether the brace of a label has just been read when its mark comes last in the output (last token
first). -/
def Braced (carried out input : List Token) : Prop :=
  ∀ m ∈ out.head?, m.kind = .labelLine → ∃ u : Token, u.IsBrace ∧ u :: input <:+ carried

theorem braced_of_kind {m : Token} {input : List Token} (h : m.kind ≠ .labelLine) :
    Braced carried (m :: out) input := by
  rintro u ⟨⟩ hk
  exact absurd hk h

theorem braced_of_straight {input : List Token} (hne : l ≠ []) (hl : ∀ t ∈ l, t.Straight) :
    Braced carried (l.reverse ++ out) input := by
  obtain ⟨t, more, heq⟩ := List.exists_cons_of_ne_nil (List.reverse_ne_nil_iff.2 hne)
  have ht : t.Straight := hl t (List.mem_reverse.1 (heq ▸ List.mem_cons_self))
  rw [heq]
  refine braced_of_kind fun hk => ?_
  have := ht.kind
  rw [hk] at this
  cases this

/-- What a call comes to is straight when nothing that it is put together from is a brace or EXIT. -/
theorem callTokens_straight {f : Routine} {fn closer : Token} {arguments : List (List Token)}
    {vars : List (Option Token)} (hf : (fn.lower, f) ∈ tables.routines)
    (hu : Unlooped d tables carried) (hn : Directive.Named tables) (hc : tables.Coded)
    (hv : ∀ v ∈ vars, ∀ t ∈ v, t.kind = .identifier)
    (ha : ∀ r ∈ arguments, ∀ t ∈ r, t.Straight) :
    ∀ t ∈ Routine.callTokens d f fn closer.pos arguments vars, t.Straight := by
  have named {t : Token} (hk : t.kind = .identifier) : t.Straight :=
    Token.straight_of_kind hk rfl (by decide) (by decide)
  refine Routine.callTokens_holds (fun text htext => ?_)
    (Token.straight_of_kind (k := .functionCall) rfl rfl (by decide) (by decide))
    (fun p hp => ⟨named (hn.routines _ hf p hp), ?_⟩)
    (fun r hr t ht => ?_) ha fun v hmem t ht => named (hv v hmem t ht)
  · have hall : ∀ text ∈ Text.ofStrings ["=", ":", "gosub"],
        text.any startsBlock = false ∧ text.any Lexer.loopSign = false := by decide
    exact Lexer.snippet_unlooped (hall text htext).1 (hall text htext).2
  · exact fun t ht => ⟨Kind.isLooped_of_unlaid ((hc.parameters _ hf p hp).2 t ht).early,
      hu.defaults _ hf p hp t ht⟩
  · exact ⟨Kind.isLooped_of_unlaid (hc.results _ hf r hr t ht).early, hu.results _ hf r hr t ht⟩

theorem step_braces {p : Progress} {content closer : Token} {after : List Token}
    (h : step d tables.routines loops out t (content :: closer :: after) = .ok p) (hk : t.kind = .mark)
    (hv : t.value = opening) (hline : Directive.atLineStart out = false) (hc : content.kind ≠ .newline)
    (hcl : closer.value = closing) : p.loops = loops := by
  have hjump : opensJump out t (content :: closer :: after) = true := by
    simp [opensJump, hline, hc, hcl]
  rw [step, if_neg (by simp [hk]), if_pos ⟨hk, hv⟩, if_pos hjump] at h
  unfold readJump at h
  split at h
  · cases h
  · cases h
  · split at h
    · cases h
      rfl
    · cases h

theorem turns_bracketed {content closer : Token} {after : List Token} (hk : t.kind = .mark)
    (hv : t.value = opening) (hl : ∀ u ∈ rest, u.Lawful d)
    (hb : Bracketed.read opening closing t rest = .ok (.holding content closer after))
    (hn : content.value = sameLine ∨ Dialect.isIdentifier content.value = true) :
    turns (t :: rest) = turns after := by
  obtain ⟨rfl, hcloser⟩ := Bracketed.holding_eq (by decide) hb
  refine turns_label hk hv ((hl content List.mem_cons_self).kind_ne_newline ?_) hcloser
  rcases hn with hn | hn
  · rw [hn]
    decide
  · exact fun hr => absurd (Grammar.isName_chars hn _ hr) (by decide)

/-- Whether a step leaves what is put out nested as the tokens it has read are written. -/
def Weaves (file : Text) (carried written : List Token) (t : Token) (rest : List Token)
    (p : Progress) : Prop :=
  Braced carried p.out p.rest ∧
    ∃ read, turns (t :: rest) = read ++ turns p.rest ∧ Woven file (written ++ read) p.loops p.out

section Weaves

variable {written : List Token} {p : Progress} {label : Token} {outer : List Token}

theorem weaves_silent (hb : Braced carried p.out p.rest) (ht : turns (t :: rest) = turns p.rest)
    (hw : Woven file written p.loops p.out) : Weaves file carried written t rest p :=
  ⟨hb, [], ht, by rwa [List.append_nil]⟩

theorem turns_alone (hm : ¬(t.kind = .mark ∧ t.value = opening)) :
    turns (t :: rest) = if t.Loops then t :: turns rest else turns rest :=
  turns_cons fun _ _ _ _ hk hv => absurd ⟨hk, hv⟩ hm

theorem straight_jump {u : Token} (hk : u.kind = .jump ∨ u.kind = .labelJump) : u.Straight := by
  rcases hk with hk | hk <;> exact Token.straight_of_kind hk rfl (by decide) (by decide)

theorem call_weaves {new before after : List Token} (hk : t.kind = .functionName)
    (hcall : Routine.call d tables.routines t out rest = .ok (new, before, after))
    (hu : Unlooped d tables carried) (hn : Directive.Named tables) (hc : tables.Coded)
    (hs : t :: rest <:+ carried) (he : Early carried) (hl : ∀ u ∈ rest, u.Lawful d)
    (hw : Woven file written loops out) :
    Weaves file carried written t rest ⟨loops, new.reverse ++ before, after⟩ := by
  obtain ⟨f, vars, arguments, closer, hf, hv, ha, rfl⟩ := Routine.call_cases hcall
  obtain ⟨taken, rfl, htaken⟩ := Routine.callVariables_taken hw.bound hv
  obtain ⟨hruns, hturns⟩ := hu.call hs hk hl ha
  have hnew : ∀ u ∈ Routine.callTokens d f t closer.pos arguments vars, u.Straight :=
    callTokens_straight hf hu hn hc (Routine.callVariables_spec hv).1 fun r hr v hmem =>
      ⟨Kind.isLooped_of_unlaid (he v (hs.mem (List.mem_cons_of_mem _ (hruns r hr v hmem).1))),
        (hruns r hr v hmem).2⟩
  exact weaves_silent (braced_of_straight (by simp [Routine.callTokens]) hnew) hturns
    ((hw.back htaken).put hnew)

theorem label_weaves {content closer mark : Token} {after : List Token} (hk : t.kind = .mark)
    (hv : t.value = opening) (hm : lineMark content closer.pos = .ok mark)
    (hbracket : Bracketed.read opening closing t rest = .ok (.holding content closer after))
    (hs : t :: rest <:+ carried) (hl : ∀ u ∈ rest, u.Lawful d) (hw : Woven file written loops out) :
    Weaves file carried written t rest ⟨loops, mark :: out, after⟩ := by
  obtain ⟨rfl, hsign, hname⟩ := lineMark_spec hm
  have hturns := turns_bracketed hk hv hl hbracket (.inr hname)
  obtain ⟨rfl, hcloser⟩ := Bracketed.holding_eq (by decide) hbracket
  have hmark : Woven file (written ++ []) loops (⟨.labelLine, content.lower, closer.pos⟩ :: out) :=
    hw.mark (fun held hcalls => ⟨held, .label rfl .done, hcalls⟩) rfl hsign
  rw [List.append_nil] at hmark
  refine weaves_silent (fun _ _ _ => ⟨closer, .inr hcloser, ?_⟩) hturns hmark
  exact List.IsSuffix.trans (List.suffix_append [t, content] (closer :: after)) hs

/-- The name in front of an opening brace is neither a mark, which a brace has just made, nor a jump,
which a GOTO is in front of. -/
theorem name_unlooped {last : Token} {before : List Token} (hk : t.kind = .mark)
    (hv : t.value = opening) (hline : Directive.atLineStart before = true)
    (hu : Unlooped d tables carried) (hw : Woven file written loops (last :: before))
    (hb : Braced carried (last :: before) (t :: rest)) : last.kind.isLooped = false := by
  cases hkind : last.kind.isLooped with
  | false => rfl
  | true =>
    exfalso
    obtain ⟨held, hfollows, -⟩ := hw.follows
    have hmem : last ∈ marks (last :: before).reverse := by simp [marks, hkind]
    rcases hfollows.kind last hmem with hlk | hret
    · obtain ⟨u, hbrace, hsuf⟩ := hb last rfl hlk
      exact hu.not_opens hsuf hbrace hk hv
    · have hguided := hw.guided
      rw [List.reverse_cons] at hguided
      obtain ⟨g, hg, hgoto⟩ := hguided.goto_of_leaps hret
      rw [List.getLast?_reverse] at hg
      cases before with
      | nil => cases hg
      | cons v before =>
        obtain rfl : v = g := by simpa using hg
        simp [Directive.atLineStart, hgoto.1] at hline

theorem open_weaves {last mark : Token} {before : List Token} (hk : t.kind = .mark)
    (hv : t.value = opening) (hnl : last.kind ≠ .newline)
    (hline : Directive.atLineStart before = true) (hm : lineMark last t.pos = .ok mark)
    (h : step d tables.routines loops (last :: before) t rest = .ok ⟨last :: loops, mark :: before, rest⟩)
    (hu : Unlooped d tables carried) (hs : t :: rest <:+ carried) (hf : t.pos.file = file)
    (hw : Woven file written loops (last :: before)) (hb : Braced carried (last :: before) (t :: rest)) :
    Weaves file carried written t rest ⟨last :: loops, mark :: before, rest⟩ := by
  obtain ⟨rfl, hsign, -⟩ := lineMark_spec hm
  have hlast := name_unlooped hk hv hline hu hw hb
  have hturns : turns (t :: rest) = t :: turns rest := by
    rw [turns_cons, if_pos (.inl ⟨hk, .inl hv⟩)]
    rintro content closer after rfl - - hcontent hcloser
    have hloops : last :: loops = loops :=
      step_braces h hk hv (by simpa [Directive.atLineStart] using hnl) hcontent hcloser
    simpa using congrArg List.length hloops
  have hback : Woven file written loops before := hw.back (l := [last]) (by simpa using hlast)
  exact ⟨fun _ _ _ => ⟨t, .inl hv, hs⟩, [t], hturns, hback.mark (fun held hcalls =>
    ⟨_, .opens hk hv rfl rfl .done, .cons ⟨rfl, hf, hsign⟩ hcalls⟩) rfl hsign⟩

theorem close_weaves (hk : t.kind = .mark) (hv : t.value = closing) (hf : t.pos.file = file)
    (hw : Woven file written (label :: outer) out) :
    Weaves file carried written t rest ⟨outer, ⟨.labelReturn, label.lower, t.pos⟩ ::
      ((if startsStatement out then [] else Lexer.snippet d t.pos ":") ++
        Lexer.snippet d t.pos "goto").reverse ++ out, rest⟩ := by
  have hsep : ∀ u ∈ (if startsStatement out then [] else Lexer.snippet d t.pos ":"), u.Straight := by
    split
    · simp
    · exact Lexer.snippet_unlooped (by decide) (by decide)
  have hput : Woven file written (label :: outer) (⟨.jump, "goto", t.pos⟩ ::
      ((if startsStatement out then [] else Lexer.snippet d t.pos ":").reverse ++ out)) :=
    (hw.put hsep).put (l := [⟨.jump, "goto", t.pos⟩]) (by simpa using straight_jump (.inl rfl))
  have hjump := hput.jump (r := ⟨.labelReturn, label.lower, t.pos⟩) (t := t) ⟨rfl, rfl⟩ (.inl rfl) rfl
    hf rfl (.inl ⟨rfl, hk, hv, rfl⟩)
  have hturns : turns (t :: rest) = [t] ++ turns rest := by
    rw [turns_alone (by simp [hv, opening, closing]), if_pos (.inl ⟨hk, .inr hv⟩)]
    rfl
  rw [Lexer.snippet_goto]
  exact ⟨braced_of_kind (by simp), [t], hturns, by simpa using hjump⟩

theorem exit_weaves (hk : t.kind = .directive) (hx : t.is "EXIT" = true) (hf : t.pos.file = file)
    (hw : Woven file written (label :: outer) out) :
    Weaves file carried written t rest ⟨label :: outer,
      ⟨.labelExit, label.lower, t.pos⟩ :: (Lexer.snippet d t.pos "goto").reverse ++ out, rest⟩ := by
  have hput := hw.put (l := [⟨.jump, "goto", t.pos⟩]) (by simpa using straight_jump (.inl rfl))
  have hjump := hput.jump (r := ⟨.labelExit, label.lower, t.pos⟩) (t := t) ⟨rfl, rfl⟩ (.inr rfl) rfl
    hf rfl (.inr ⟨rfl, hk, hx, rfl⟩)
  have hturns : turns (t :: rest) = [t] ++ turns rest := by
    rw [turns_alone (by simp [hk]), if_pos (.inr ⟨hk, hx⟩)]
    rfl
  rw [Lexer.snippet_goto]
  exact ⟨braced_of_kind (by simp), [t], hturns, by simpa using hjump⟩

theorem place_weaves (hd : d = .coco) (hk : t.kind = .special) (hv : t.value = PrintAt.opening)
    (hu : Unlooped d tables carried) (hs : t :: rest <:+ carried) (he : Early carried)
    (hw : Woven file written loops out) :
    Weaves file carried written t rest
      ⟨loops, (PrintAt.render d (PrintAt.split 0 none [] t rest)).reverse ++ out,
        (PrintAt.split 0 none [] t rest).rest⟩ := by
  obtain ⟨hx, hy, hturns⟩ := hu.place hd hs hk hv
  have straight {u : Token} (h : u ∈ rest ∧ ¬u.Loops) : u.Straight :=
    ⟨Kind.isLooped_of_unlaid (he u (hs.mem (List.mem_cons_of_mem _ h.1))), h.2⟩
  have hnew : ∀ u ∈ PrintAt.render d (PrintAt.split 0 none [] t rest), u.Straight := by
    have hblock : PrintAt.signs.any startsBlock = false := by decide
    have hloop : PrintAt.signs.any Lexer.loopSign = false := by decide
    exact PrintAt.render_holds (fun code hsub => Lexer.snippet_unlooped
      (Text.any_of_subset hblock hsub) (Text.any_of_subset hloop hsub))
      (fun u hmem => straight (hx u hmem)) fun u hmem => straight (hy u hmem)
  refine weaves_silent (braced_of_straight (fun hnil => ?_) hnew) hturns (hw.put hnew)
  subst hd
  have hcode : Lexer.snippet .coco {} "?@" ≠ [] := by decide +kernel
  have hempty : Lexer.snippet .coco (PrintAt.split 0 none [] t rest).last.pos "?@" = [] :=
    (List.append_eq_nil_iff.1 (List.append_eq_nil_iff.1 hnil).1).1
  rw [Lexer.snippet_movedTo] at hempty
  exact hcode (List.map_eq_nil_iff.1 hempty)

theorem pass_weaves (hm : ¬(t.kind = .mark ∧ t.value = opening))
    (hc : ¬(t.kind = .mark ∧ t.value = closing)) (hx : ¬(t.kind = .directive ∧ t.is "EXIT" = true))
    (hkind : t.kind.isLooped = false) (hw : Woven file written loops out) :
    Weaves file carried written t rest ⟨loops, t :: out, rest⟩ := by
  have ht : t.Straight := ⟨hkind, by
    rintro (⟨hk, hv | hv⟩ | hd)
    · exact hm ⟨hk, hv⟩
    · exact hc ⟨hk, hv⟩
    · exact hx hd⟩
  exact weaves_silent (braced_of_kind fun hk => by rw [hk] at hkind; cases hkind)
    (by rw [turns_alone hm, if_neg ht.unlooped]) (hw.put (l := [t]) (by simpa using ht))

theorem step_woven (h : step d tables.routines loops out t rest = .ok p)
    (hu : Unlooped d tables carried) (hn : Directive.Named tables) (hc : tables.Coded)
    (hs : t :: rest <:+ carried) (he : Early carried) (hh : ∀ u ∈ carried, u.AtHome file)
    (hl : ∀ u ∈ rest, u.Lawful d) (hw : Woven file written loops out)
    (hb : Braced carried out (t :: rest)) : Weaves file carried written t rest p := by
  have home (hm : t.kind = .mark ∨ t.kind = .directive ∧ t.is "EXIT" = true) : t.pos.file = file :=
    hh t (hs.mem List.mem_cons_self) hm
  cases step_cases h with
  | called hk hcall => exact call_weaves hk hcall hu hn hc hs he hl hw
  | jumped hk hbracket hname hv =>
    exact weaves_silent (braced_of_kind (by simp)) (turns_bracketed hk hv hl hbracket hname)
      (hw.put (l := [⟨.labelJump, _, _⟩]) (by simpa using straight_jump (.inr rfl)))
  | labelled hk _ hbracket hm hv => exact label_weaves hk hv hm hbracket hs hl hw
  | looped hk heq hnl hline hm hv =>
    subst heq
    exact open_weaves hk hv hnl hline hm h hu hs (home (.inl hk)) hw hb
  | closed hk heq hv =>
    subst heq
    exact close_weaves hk hv (home (.inl hk)) hw
  | exited hk heq hx =>
    subst heq
    exact exit_weaves hk hx (home (.inr ⟨hk, hx⟩)) hw
  | printed hd hk hv => exact place_weaves hd hk hv hu hs he hw
  | passed _ hm hcl hx =>
    exact pass_weaves hm hcl hx (Kind.isLooped_of_unlaid (he t (hs.mem List.mem_cons_self))) hw

end Weaves

end Label

/-- Whether the loops in a list of tokens are nested, none is left as it was written, and the jumps of
loops stand behind a GOTO. -/
structure Knit (l : List Token) : Prop where
  nests : Nests [] l []
  bound : ∀ t ∈ l, t.Bound
  guided : Guided l

namespace Label

theorem reaches_woven {p q : Point} {written : List Token} (h : Reaches d tables.routines p q)
    (hr : tables.Plain d) (hu : Unlooped d tables carried) (hn : Directive.Named tables)
    (hc : tables.Coded) (he : Early carried) (hh : ∀ u ∈ carried, u.AtHome file)
    (hk : Kept d carried p) (hw : Woven file written p.loops p.out) (hb : Braced carried p.out p.input) :
    Braced carried q.out q.input ∧ ∃ read, turns p.input = read ++ turns q.input ∧
      Woven file (written ++ read) q.loops q.out := by
  induction h with
  | refl => exact ⟨hb, [], rfl, by rwa [List.append_nil]⟩
  | tail hreach hstep ih =>
    have hkept := reaches_kept hreach hr.routines hk
    obtain ⟨hbraced, read, hread, hwoven⟩ := ih
    cases hstep with
    | read _ hst =>
      obtain ⟨hbraced', read', hread', hwoven'⟩ := step_woven hst hu hn hc hkept.input he hh
        (fun u hmem => hkept.lawful u (List.mem_cons_of_mem _ hmem)) hwoven hbraced
      exact ⟨hbraced', read ++ read', by rw [hread, hread', List.append_assoc],
        by rwa [← List.append_assoc]⟩

/-- The loops of a file are nested as they are written when it captures no brace and no EXIT. -/
theorem place_knit {placed : List Token} (h : place d tables carried = .ok placed)
    (hs : Entry.Sound d carried.reverse) (hr : tables.Plain d) (hu : Unlooped d tables carried)
    (hn : Directive.Named tables) (hc : tables.Coded) (hwhole : Whole carried) (he : Early carried)
    (hh : ∀ u ∈ carried, u.AtHome file) :
    Knit placed ∧ Follows [] (turns carried) (marks placed) [] := by
  obtain ⟨start, newline, rest, final, last, left, rfl, hstart, hnewline, hreach, hlast, rfl⟩ :=
    reaches_of_place hs h
  have hkept := kept_first hs
  have hinput : Kept d (start :: newline :: rest) ⟨[], [newline, start], rest⟩ :=
    ⟨hkept.out, hkept.led, hkept.lawful, List.suffix_append [start, newline] rest⟩
  have straight {t : Token} (hk : t.kind = .program ∨ t.kind = .newline ∨ t.kind = .eof) :
      t.Straight := by
    rcases hk with hk | hk | hk <;> exact Token.straight_of_kind hk rfl (by decide) (by decide)
  have hempty : Woven file [] [] [] := ⟨⟨[], .done, .nil⟩, by simp, .of_not_leaps (by simp)⟩
  have hfirst : Woven file [] [] [newline, start] := hempty.put (l := [start, newline])
    (by simpa using ⟨straight (.inl hstart), straight (.inr (.inl hnewline))⟩)
  obtain ⟨-, read, hread, hfinal⟩ := reaches_woven hreach hr hu hn hc he hh hinput hfirst
    (braced_of_kind (by simp [hnewline]))
  obtain ⟨⟨held, hfollows, hcalls⟩, hbound, hguided⟩ :=
    hfinal.put (l := [last]) (by simpa using straight (.inr (.inr hlast)))
  cases hcalls
  -- nothing is written behind the end of the file
  have hturns : turns (start :: newline :: rest) = read := by
    have hleft : left = [] := by
      have hinput := (reaches_kept hreach hr.routines hinput).input
      have hend := hwhole.suffix hinput
      cases left with
      | nil => rfl
      | cons u left =>
        have hrel : last.kind.leads u.kind = true := hend.rel
        rw [hlast] at hrel
        exact absurd hrel (by cases u.kind <;> decide)
    have hsentinels : turns (start :: newline :: rest) = turns rest :=
      turns_append (l := [start, newline])
        (by simpa using ⟨(straight (.inl hstart)).unlooped, (straight (.inr (.inl hnewline))).unlooped⟩) rest
    rw [hsentinels, hread, hleft]
    simpa [turns] using (straight (.inr (.inr hlast))).unlooped
  rw [List.nil_append] at hfollows
  rw [hturns]
  exact ⟨⟨nests_marks.1 hfollows.nests, fun t ht => hbound t (List.mem_reverse.1 ht), hguided⟩, hfollows⟩

end Label

end ClassicBasic
