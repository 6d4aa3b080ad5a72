import ClassicBasic.Proofs.Tidying

/-!
# Strings that become one string

Strings that meet in the third stage become one string, which has their texts in order. It has its
opening quote exactly when the first of them has a text, and its closing quote exactly when the last
one has: the quotes are trimmed where two strings meet, and of an empty string they are all that is
there.
-/

set_option autoImplicit false

namespace ClassicBasic

namespace Merge

/-! ### The text of joined strings -/

/-- A text between quotes. -/
def enclosed (body : Text) : Text := '"' :: body ++ ['"']

/-- Whether no quote stands in a text. -/
def Unquoted (body : Text) : Prop := '"' ∉ body

def joinTexts : List Text → Text
  | [] => []
  | first :: rest => rest.foldl mergeStrings first

theorem joinTexts_concat {texts : List Text} (h : texts ≠ []) (text : Text) :
    joinTexts (texts ++ [text]) = mergeStrings (joinTexts texts) text := by
  cases texts with
  | nil => exact absurd rfl h
  | cons first rest => simp [joinTexts]

/-- The quote that is left in front of the first text or behind the last one. -/
def quoteAt (body : Text) : Text := if body = [] then [] else ['"']

theorem trimEnd_quotes {v tail : Text} (hv : ∀ c ∈ v.getLast?, isQuote c = false)
    (ht : ∀ c ∈ tail, isQuote c = true) : Text.trimEnd isQuote (v ++ tail) = v := by
  have hend : tail.reverse.dropWhile isQuote = [] := by
    rw [List.dropWhile_eq_nil_iff]
    exact fun c hc => ht c (List.mem_reverse.1 hc)
  have hkeep : v.reverse.dropWhile isQuote = v.reverse := by
    cases hr : v.reverse with
    | nil => rfl
    | cons c rest =>
      have hlast : v.getLast? = some c := by simp [← List.head?_reverse, hr]
      exact List.dropWhile_cons_of_neg (by simp [hv c (by simp [hlast])])
  unfold Text.trimEnd
  rw [List.reverse_append, List.dropWhile_append, hend]
  simp [hkeep]

theorem dropWhile_enclosed {body : Text} (hb : Unquoted body) :
    (enclosed body).dropWhile isQuote = body ++ quoteAt body := by
  cases body with
  | nil => rfl
  | cons c body =>
    have hc : isQuote c = false := by
      rw [isQuote, beq_eq_false_iff_ne]
      exact fun h => hb (by simp [h])
    have hq : isQuote '"' = true := rfl
    simp [enclosed, quoteAt, hc, hq]

variable {b c : Text} {bodies : List Text}

/-- Behind the opening quote the last character of unquoted texts is no quote. -/
theorem getLast?_opened (h : ∀ body ∈ b :: bodies, Unquoted body) :
    ∀ x ∈ (quoteAt b ++ (b :: bodies).flatten).getLast?, isQuote x = false := by
  intro x hx
  have hmem : x ∈ (b :: bodies).flatten := by
    by_cases hnil : (b :: bodies).flatten = []
    · have hb : b = [] := (List.flatten_eq_nil_iff.1 hnil) b List.mem_cons_self
      rw [hnil, hb] at hx
      cases hx
    · rw [List.getLast?_append_of_ne_nil _ hnil] at hx
      exact List.mem_of_mem_getLast? hx
  obtain ⟨body, hbody, hxb⟩ := List.mem_flatten.1 hmem
  rw [isQuote, beq_eq_false_iff_ne]
  rintro rfl
  exact h body hbody hxb

theorem trimEnd_joinTexts (h : ∀ body ∈ b :: bodies, Unquoted body) :
    Text.trimEnd isQuote (joinTexts ((b :: bodies).map enclosed)) =
      quoteAt b ++ (b :: bodies).flatten := by
  have quotes (body : Text) : ∀ x ∈ quoteAt body, isQuote x = true := by
    unfold quoteAt
    split <;> simp [isQuote]
  induction bodies using List.reverseRecOn with
  | nil =>
    have hclosing : ∀ x ∈ if b = [] then ['"', '"'] else ['"'], isQuote x = true := by
      split <;> simp [isQuote]
    have hopen := trimEnd_quotes (getLast?_opened h) hclosing
    rw [← hopen]
    congr 1
    by_cases hb : b = [] <;> simp [joinTexts, enclosed, quoteAt, hb]
  | append_singleton bodies c ih =>
    have hfront : ∀ body ∈ b :: bodies, Unquoted body := fun body hm =>
      h body (List.mem_append_left [c] hm)
    have hc : Unquoted c := h c (by simp)
    have hopen := trimEnd_quotes (getLast?_opened h) (quotes c)
    rw [← hopen]
    congr 1
    rw [← List.cons_append, List.map_append, List.map_singleton, joinTexts_concat (by simp),
      mergeStrings, ih hfront, dropWhile_enclosed hc]
    simp

/-- Two or more strings become a string of their texts, with the quotes next to a text that is first or
last. -/
theorem joinTexts_enclosed (h : ∀ body ∈ b :: bodies ++ [c], Unquoted body) :
    joinTexts ((b :: bodies ++ [c]).map enclosed) =
      quoteAt b ++ (b :: bodies ++ [c]).flatten ++ quoteAt c := by
  have hfront : ∀ body ∈ b :: bodies, Unquoted body := fun body hm =>
    h body (List.mem_append_left [c] hm)
  have hc : Unquoted c := h c (by simp)
  rw [List.map_append, List.map_singleton, joinTexts_concat (by simp), mergeStrings,
    trimEnd_joinTexts hfront, dropWhile_enclosed hc]
  simp

/-- Joined strings keep their quotes exactly when there is one of them, or the first and the last one
have a text. -/
theorem joinTexts_eq_enclosed_iff (h : ∀ body ∈ b :: bodies, Unquoted body) :
    joinTexts ((b :: bodies).map enclosed) = enclosed (b :: bodies).flatten ↔
      bodies = [] ∨ (b ≠ [] ∧ (b :: bodies).getLast? ≠ some []) := by
  rcases List.eq_nil_or_concat bodies with rfl | ⟨front, c, rfl⟩
  · simp [joinTexts]
  · rw [List.concat_eq_append] at h ⊢
    rw [← List.cons_append, joinTexts_enclosed h, List.cons_append]
    have hplain : (b :: (front ++ [c])).flatten.count '"' = 0 := by
      rw [List.count_eq_zero]
      intro hq
      obtain ⟨body, hm, hqb⟩ := List.mem_flatten.1 hq
      exact h body hm hqb
    have hlast : (b :: (front ++ [c])).getLast? = some c := by
      rw [← List.cons_append]
      exact List.getLast?_concat
    constructor
    · intro heq
      have hcount := congrArg (List.count '"') heq
      simp only [enclosed, List.count_append, List.count_cons, hplain] at hcount
      right
      rw [hlast]
      unfold quoteAt at hcount
      split at hcount <;> split at hcount <;> simp_all
    · rintro (hnil | ⟨hb, hc⟩)
      · simp at hnil
      · rw [hlast] at hc
        have hne : c ≠ [] := fun h => hc (by rw [h])
        simp [quoteAt, hb, hne, enclosed]

/-! ### The strings behind an output -/

variable {run l l' out : List Token} {t u last : Token}

/-- Whether a few tokens become one token: strings next to each other, or with a line end between
them, become one string. -/
inductive Joins : List Token → Token → Prop
  /-- A token by itself. -/
  | alone (t : Token) : Joins [t] t
  | next {run : List Token} {s t : Token} (h : Joins run s) (hs : s.kind = .string)
      (ht : t.kind = .string) : Joins (run ++ [t]) (t.withValue (mergeStrings s.value t.value))
  | line {run : List Token} {s between t : Token} (h : Joins run s) (hs : s.kind = .string)
      (hb : between.kind = .newline) (ht : t.kind = .string) :
      Joins (run ++ [between, t]) (t.withValue (mergeStrings s.value t.value))

/-- The strings of a list of tokens. -/
def strings (l : List Token) : List Token := l.filter (·.kind == .string)

theorem Joins.eq_singleton (h : Joins run u) (hu : u.kind ≠ .string) : run = [u] := by
  cases h with
  | alone => rfl
  | next _ _ ht => exact absurd ht hu
  | line _ _ _ ht => exact absurd ht hu

/-- The text of a joined string is that of the strings that it is joined from. -/
theorem Joins.texts (h : Joins run u) (hu : u.kind = .string) :
    (strings run).map Token.value ≠ [] ∧ joinTexts ((strings run).map Token.value) = u.value := by
  induction h with
  | alone t => simp [strings, hu, joinTexts]
  | @next run s t h hs ht ih =>
    obtain ⟨hne, hv⟩ := ih hs
    have hstrings : (strings (run ++ [t])).map Token.value =
        (strings run).map Token.value ++ [t.value] := by simp [strings, ht]
    rw [hstrings, joinTexts_concat hne, hv]
    exact ⟨by simp, rfl⟩
  | @line run s between t h hs hb ht ih =>
    obtain ⟨hne, hv⟩ := ih hs
    have hstrings : (strings (run ++ [between, t])).map Token.value =
        (strings run).map Token.value ++ [t.value] := by simp [strings, ht, hb]
    rw [hstrings, joinTexts_concat hne, hv]
    exact ⟨by simp, rfl⟩

/-- What a few tokens next to each other become when the third stage tidies up without joining
strings. -/
inductive Sweeps : List Token → List Token → Prop
  | trims {old new : List Token} (h : Trims old new) (hs : strings new = strings old) :
    Sweeps old new
  /-- Strings that are joined to the sign that keeps a name go in front of a name. -/
  | sign {run : List Token} {u t : Token} (h : Joins run u) (hu : u.value = keepSign)
    (ht : t.kind = .identifier) : Sweeps (run ++ [t]) [t]

/-- Whether tidying up without joining strings leads from one list of tokens to another. -/
abbrev Swept : List Token → List Token → Prop :=
  Relation.ReflTransGen fun l l' =>
    ∃ before old new after, Sweeps old new ∧ l = before ++ old ++ after ∧ l' = before ++ new ++ after

theorem Swept.append (h : Swept l l') (after : List Token) : Swept (l ++ after) (l' ++ after) := by
  refine h.lift (· ++ after) fun a b hab => ?_
  obtain ⟨before, old, new, behind, hs, rfl, rfl⟩ := hab
  exact ⟨before, old, new, behind ++ after, hs, by simp, by simp⟩

theorem Swept.then (h : Swept l (l' ++ run)) {new : List Token} (hs : Sweeps run new) :
    Swept l (l' ++ new) :=
  h.tail ⟨l', run, new, [], hs, by simp, by simp⟩

/-- Whether an output (last token first) is joined from what is left of `l` when it is tidied up. -/
def Woven (l out : List Token) : Prop :=
  ∃ runs, List.Forall₂ Joins runs out ∧ Swept l runs.reverse.flatten

namespace Woven

theorem put (h : Woven l out) (tokens : List Token) : Woven (l ++ tokens) (tokens.reverse ++ out) := by
  obtain ⟨runs, hj, hs⟩ := h
  refine ⟨(tokens.map ([·])).reverse ++ runs, List.rel_append ?_ hj, ?_⟩
  · rw [← List.map_reverse, List.forall₂_map_left_iff, List.forall₂_same]
    exact fun t _ => .alone t
  · have hflat : (tokens.map ([·])).flatten = tokens := by
      induction tokens with
      | nil => rfl
      | cons t tokens ih => simp [ih]
    simpa [hflat] using hs.append tokens

/-- A token that is put behind an output is swept with the last one. -/
theorem sweep (h : Woven l (last :: out)) (hl : last.kind ≠ .string) {new : List Token}
    (hs : Trims [last, t] new) (heq : strings new = strings [last, t]) :
    Woven (l ++ [t]) (new.reverse ++ out) := by
  obtain ⟨runs, hj, hswept⟩ := h
  cases hj with
  | @cons run _ runs _ hlast hj =>
    obtain rfl := hlast.eq_singleton hl
    have hend : Swept (l ++ [t]) (runs.reverse.flatten ++ [last, t]) := by
      simpa using hswept.append [t]
    have hnew : Woven (runs.reverse.flatten ++ new) (new.reverse ++ out) :=
      put ⟨runs, hj, .refl⟩ new
    obtain ⟨runs', hj', hs'⟩ := hnew
    exact ⟨runs', hj', (hend.then (.trims hs heq)).trans hs'⟩

theorem addNewline (h : Woven l out) (ht : t.kind = .newline) (p : Place) :
    Woven (l ++ [t]) (addNewline p t out) := by
  cases out with
  | nil => exact h.put [t]
  | cons last out =>
    simp only [Merge.addNewline]
    split
    · rename_i hl
      simpa using h.sweep (by simp [hl]) (.lineEnd (.inl hl) ht) (by simp [strings, hl, ht])
    · rename_i hl
      simpa using h.sweep (by simp [hl]) (.lineEnd (.inr (.inl hl)) ht) (by simp [strings, hl, ht])
    · rename_i hl
      simpa using h.sweep (by simp [hl]) (.lineEnd (.inr (.inr (.inl hl))) ht)
        (by simp [strings, hl, ht])
    · rename_i hl
      split
      · simpa using h.sweep (by simp [hl]) (.joined hl ht) (by simp [strings, hl, ht])
      · simpa using h.sweep (by simp [hl]) (.trailing hl ht) (by simp [strings, hl, ht])
    · rename_i hl
      split
      · simpa using h.sweep (by simp [hl]) (.lineEnd (.inr (.inr (.inr hl))) ht)
          (by simp [strings, hl, ht])
      · exact h.put [t]
    · exact h.put [t]

theorem addSeparator (h : Woven l out) (ht : t.kind = .separator) (p : Place) :
    Woven (l ++ [t]) (addSeparator p t out) := by
  cases out with
  | nil => exact h.put [t]
  | cons last out =>
    simp only [Merge.addSeparator]
    split
    · rename_i hl
      simpa using h.sweep (by simp [hl]) (.separator hl ht) (by simp [strings, hl, ht])
    · rename_i hl
      split
      · simpa using h.sweep (by simp [hl]) (.leading hl ht) (by simp [strings, hl, ht])
      · exact h.put [t]
    · exact h.put [t]

theorem addString (h : Woven l out) (ht : t.kind = .string) :
    Woven (l ++ [t]) (addString t out) := by
  cases out with
  | nil => exact h.put [t]
  | cons last out =>
    simp only [Merge.addString]
    split
    · rename_i hl
      obtain ⟨runs, hj, hs⟩ := h
      cases hj with
      | @cons run _ runs _ hlast hj =>
        exact ⟨(run ++ [t]) :: runs, .cons (hlast.next hl ht) hj, by simpa using hs.append [t]⟩
    · split
      · rename_i hl
        cases out with
        | nil => exact h.put [t]
        | cons earlier before =>
          dsimp only
          split
          · rename_i he
            obtain ⟨runs, hj, hs⟩ := h
            cases hj with
            | @cons run _ runs _ hlast hj =>
              obtain rfl := hlast.eq_singleton (by simp [hl])
              cases hj with
              | @cons run _ runs _ hearlier hj =>
                exact ⟨(run ++ [last, t]) :: runs, .cons (hearlier.line he hl ht) hj,
                  by simpa using hs.append [t]⟩
          · exact h.put [t]
      · exact h.put [t]

end Woven

theorem tracks_woven : Tracks Woven where
  put h tokens := h.put tokens
  sign {l out last t} h hl ht := by
    obtain ⟨runs, hj, hs⟩ := h
    cases hj with
    | @cons run _ runs _ hlast hj =>
      have hend : Swept (l ++ [t]) (runs.reverse.flatten ++ (run ++ [t])) := by
        simpa using hs.append [t]
      exact ⟨[t] :: runs, .cons (.alone t) hj, by simpa using hend.then (.sign hlast hl ht)⟩
  add {l out} h p t := by
    unfold add
    split
    · exact h.addNewline ‹_› p
    · exact h.addSeparator ‹_› p
    · exact h.addString ‹_›
    · exact h.put [t]

end Merge

namespace Branch.Visit

open Merge

variable {s : Setting} {v : Visit} {listing : Listing} {merged : List Token} {τ : Session}

/-- Closed strings in a row become one string. It has their texts in order, and it keeps its quotes
exactly when it is one string to start with or when the first and the last one have a text. When no file
starts with a string where a string has just ended, no strings are left that could be joined. -/
theorem convert_joins (hx : Lexer.lex s.dialect listing = .ok v.lexed)
    (h : convert s v.depth v.branch v.lexed v.session = .ok merged τ) :
    ∃ placed ready whole runs, front s v.branch v.lexed v.session = .ok placed ready ∧
      Expands (v.Gives s) placed whole ∧ Swept whole runs.flatten ∧
      List.Forall₂ Joins runs merged ∧
      (∀ e ∈ runs.zip merged, ∀ b bodies,
        (strings e.1).map Token.value = (b :: bodies).map enclosed →
        (∀ body ∈ b :: bodies, Unquoted body) →
        e.2.kind = .string ∧ (e.2.value = enclosed (b :: bodies).flatten ↔
          bodies = [] ∨ (b ≠ [] ∧ (b :: bodies).getLast? ≠ some []))) ∧
      ((∀ w, Visits s v w → w.Unseamed s) → Fused merged) := by
  obtain ⟨placed, ready, whole, hfront, hexpands, runs, hjoins, hswept⟩ :=
    convert_expands tracks_woven ⟨[], .nil, .refl⟩ hx h
  have hall : List.Forall₂ Joins runs.reverse merged := by
    simpa using List.rel_reverse hjoins
  refine ⟨placed, ready, whole, runs.reverse, hfront, hexpands, hswept, hall, ?_, convert_fused hx h⟩
  intro e he b bodies htexts hplain
  have hrun : Joins e.1 e.2 := (List.forall₂_iff_zip.1 hall).2 he
  have hkind : e.2.kind = .string := by
    by_contra hk
    rw [hrun.eq_singleton hk] at htexts
    simp [strings, hk] at htexts
  refine ⟨hkind, ?_⟩
  rw [← (hrun.texts hkind).2, htexts]
  exact joinTexts_eq_enclosed_iff hplain

/-- An empty string between two others. -/
theorem joined_quoting :
    ∃ merged τ whole runs,
      convert quoting 0 (Branch.main quoting) (read "print \"a\" \"\"\n\"b\"") {} = .ok merged τ ∧
      Swept whole runs.flatten ∧ List.Forall₂ Joins runs merged ∧ Fused merged := by
  obtain ⟨hread, hrun⟩ : (Lexer.lex .msx
        (Listing.ofText "print \"a\" \"\"\n\"b\"" "/main" 4)).toOption.isSome = true ∧
      ((convert quoting 0 (Branch.main quoting)
        (read "print \"a\" \"\"\n\"b\"")).result?).isSome = true := by decide +kernel
  obtain ⟨merged, hm⟩ := Option.isSome_iff_exists.1 hrun
  obtain ⟨τ, hτ⟩ := Conversion.exists_of_result? hm
  obtain ⟨_, _, whole, runs, -, -, hswept, hjoins, -, hfused⟩ :=
    convert_joins (s := quoting)
      (v := ⟨0, Branch.main quoting, read "print \"a\" \"\"\n\"b\"", {}⟩) (lex_read hread) hτ
  refine ⟨merged, τ, whole, runs, hτ, hswept, hjoins, hfused fun w hw => ?_⟩
  obtain rfl := visits_of_depth_zero rfl hw
  exact unseamed_of_depth_zero rfl

/-- An empty string behind another one takes its closing quote. -/
theorem empty_string_unquotes :
    ∃ placed ready merged τ,
      front quoting (Branch.main quoting) (read "print \"a\" \"\"") {} = .ok placed ready ∧
      convert quoting 0 (Branch.main quoting) (read "print \"a\" \"\"") {} = .ok merged τ ∧
      (placed.map fun t => (t.kind, t.value)) =
        [(.program, Listing.programText), (.newline, "\r"), (.instruction, "print"),
          (.string, enclosed "a"), (.string, enclosed []), (.newline, "\r"), (.eof, Listing.eofText)] ∧
      (strings merged).map Token.value = ["\"a".toList] := by
  have hrun : ((front quoting (Branch.main quoting) (read "print \"a\" \"\"")).result?).map
        (fun placed => placed.map fun t => (t.kind, t.value)) =
          some [(.program, Listing.programText), (.newline, "\r"), (.instruction, "print"),
            (.string, enclosed "a"), (.string, enclosed []), (.newline, "\r"),
            (.eof, Listing.eofText)] ∧
      ((convert quoting 0 (Branch.main quoting) (read "print \"a\" \"\"")).result?).map
        (fun merged => (strings merged).map Token.value) = some ["\"a".toList] := by decide +kernel
  obtain ⟨placed, hp, hplaced⟩ := Option.map_eq_some_iff.1 hrun.1
  obtain ⟨ready, hready⟩ := Conversion.exists_of_result? hp
  obtain ⟨merged, hm, hstrings⟩ := Option.map_eq_some_iff.1 hrun.2
  obtain ⟨τ, hτ⟩ := Conversion.exists_of_result? hm
  exact ⟨placed, ready, merged, τ, hready, hτ, hplaced, hstrings⟩

end Branch.Visit

end ClassicBasic
