import ClassicBasic.Proofs.Directive
import ClassicBasic.Proofs.ShortNames

/-!
# What the readers of a line take

A reader of the first two stages takes tokens from the line that it starts on and leaves off on this
line or right behind its end. So whatever is known of the tokens of a line is known of all that is
captured on it: the bodies and defaults of defines, the parameters and results of functions, and the
arguments of both.
-/

set_option autoImplicit false

namespace ClassicBasic

variable {d : Dialect}

def lineOf (l : List Token) : List Token := l.takeWhile fun t => t.kind != .newline

namespace Token

variable {t : Token}

theorem inline_of_isName {typed : Bool} (h : Grammar.isName typed t.value = true) : t.Inline :=
  .inr fun hr => absurd (Grammar.isName_chars h _ hr) (by decide)

theorem inline_of_isShortName (h : Dialect.isShortName t.value = true) : t.Inline := by
  refine .inr fun hr => ?_
  unfold Dialect.isShortName at h
  split at h
  · rename_i hv
    rw [hv, List.mem_singleton] at hr
    rw [← hr] at h
    exact absurd h (by decide)
  · rename_i hv
    rw [Bool.and_eq_true] at h
    rw [hv] at hr
    rcases List.mem_pair.1 hr with rfl | rfl
    · exact absurd h.1 (by decide)
    · exact absurd h.2 (by decide)
  · cases h

theorem inline_of_value {v : Text} (h : t.value = v) (hv : '\r' ∉ v) : t.Inline := .inr (h ▸ hv)

theorem Inline.kind_ne (h : t.Inline) (hl : t.Lawful d) : t.kind ≠ .newline := by
  rcases h with h | h
  · exact h
  · exact hl.kind_ne_newline h

end Token

section Lines

variable {input rest left read : List Token} {t : Token}

theorem lineOf_cons (ht : t.kind ≠ .newline) : lineOf (t :: rest) = t :: lineOf rest := by
  simp [lineOf, ht]

theorem lineOf_append (h : ∀ u ∈ read, u.kind ≠ .newline) :
    lineOf (read ++ rest) = read ++ lineOf rest := by
  induction read with
  | nil => rfl
  | cons t read ih =>
    obtain ⟨ht, hread⟩ := List.forall_mem_cons.1 h
    rw [List.cons_append, lineOf_cons ht, ih hread, List.cons_append]

/-- Whether a token stands in front of the end of the line that a list starts on. -/
structure OnLine (l : List Token) (t : Token) : Prop where
  mem : t ∈ lineOf l
  inside : t.endsLine = false

theorem OnLine.cons {u : Token} (h : OnLine rest t) (hu : u.kind ≠ .newline) :
    OnLine (u :: rest) t := by
  refine ⟨?_, h.inside⟩
  rw [lineOf_cons hu]
  exact List.mem_cons_of_mem _ h.mem

theorem onLine_head (ht : t.endsLine = false) : OnLine (t :: rest) t := by
  refine ⟨?_, ht⟩
  rw [lineOf_cons (Token.kind_ne_newline_of_endsLine ht)]
  exact List.mem_cons_self

theorem Within.lineOf_subset (h : Within input rest) (hl : ∀ u ∈ input, u.Lawful d) :
    lineOf rest ⊆ lineOf input := by
  obtain ⟨read, rfl, hread⟩ := h
  rw [lineOf_append fun u hu => (hread u hu).kind_ne (hl u (List.mem_append_left _ hu))]
  exact List.subset_append_right _ _

theorem Within.onLine (h : Within input rest) (hl : ∀ u ∈ input, u.Lawful d) (ht : OnLine rest t) :
    OnLine input t :=
  ⟨h.lineOf_subset hl ht.mem, ht.inside⟩

theorem Within.tail (input : List Token) (h : ∀ t ∈ input.head?, t.Inline) :
    Within input input.tail := by
  cases input with
  | nil => exact .refl []
  | cons t rest => exact .cons (h t rfl)

/-- Whether `left` is what follows the end of the line that `rest` starts on. -/
def PastLine (rest left : List Token) : Prop :=
  left = [] ∨ ∃ w more, Within rest (w :: more) ∧ w.endsLine = true ∧ left = afterLineEnd (w :: more)

theorem PastLine.of_within (hw : Within input rest) (h : PastLine rest left) : PastLine input left := by
  rcases h with rfl | ⟨w, more, hwithin, hend, rfl⟩
  · exact .inl rfl
  · exact .inr ⟨w, more, hw.trans hwithin, hend, rfl⟩

theorem onLine_of_endsLine (h : ∀ u ∈ read, u.endsLine = false) (ht : t ∈ read) :
    OnLine (read ++ rest) t := by
  refine ⟨?_, h t ht⟩
  rw [lineOf_append fun u hu => Token.kind_ne_newline_of_endsLine (h u hu)]
  exact List.mem_append_left _ ht

end Lines

namespace Define

theorem readFallback_within {l : List Token} {r : List Token × List Token}
    (h : readFallback l = .ok r) : (∀ t ∈ r.1, OnLine l t) ∧ Within l r.2 := by
  induction l generalizing r with
  | nil => cases h
  | cons t rest ih =>
    simp only [readFallback] at h
    split at h
    · cases h
    · rename_i hend
      have hline : t.endsLine = false := by simpa using hend
      split at h
      · cases h
      · split at h
        · cases h
          exact ⟨by simp, .cons (Token.inline_of_endsLine hline)⟩
        · obtain ⟨s, hs, rfl⟩ := Outcome.map_eq_ok_iff.1 h
          obtain ⟨hm, hw⟩ := ih hs
          refine ⟨?_, (Within.cons (Token.inline_of_endsLine hline)).trans hw⟩
          exact List.forall_mem_cons.2 ⟨onLine_head hline,
            fun u hu => (hm u hu).cons (Token.kind_ne_newline_of_endsLine hline)⟩

/-- A body and its default are made of tokens of the line, slots apart. -/
theorem readBody_within {l : List Token} {r : List Token × Option (List Token) × List Token}
    (hl : ∀ u ∈ l, u.Lawful d) (h : readBody l = .ok r) :
    (∀ t ∈ r.1, t.kind ≠ .slot → OnLine l t) ∧ (∀ t ∈ r.2.1.getD [], OnLine l t) ∧
      Within l r.2.2 := by
  fun_induction readBody l generalizing r with
  | case1 => cases h
  | case2 => cases h
  | case3 => simp_all
  | case4 t rest hend _ inner after hf ih =>
    obtain ⟨s, hs, rfl⟩ := Outcome.map_eq_ok_iff.1 h
    have hpast : Within (t :: rest) rest := .cons (Token.inline_of_endsLine (by simpa using hend))
    obtain ⟨hinner, hafter⟩ := readFallback_within hf
    have hwithin : Within (t :: rest) after := hpast.trans hafter
    obtain ⟨hbody, -, hw⟩ := ih (fun u hu => hl u (hwithin.suffix.mem hu)) hs
    refine ⟨List.forall_mem_cons.2 ⟨fun hk => absurd rfl hk, fun u hu hk => ?_⟩, fun u hu => ?_,
      hwithin.trans hw⟩
    · exact hwithin.onLine hl (hbody u hu hk)
    · exact hpast.onLine hl (hinner u hu)
  | case5 t rest hend =>
    cases h
    exact ⟨by simp, by simp, .cons (Token.inline_of_endsLine (by simpa using hend))⟩
  | case6 t rest hend _ _ ih =>
    obtain ⟨s, hs, rfl⟩ := Outcome.map_eq_ok_iff.1 h
    have hpast : Within (t :: rest) rest := .cons (Token.inline_of_endsLine (by simpa using hend))
    obtain ⟨hbody, hfall, hw⟩ := ih (List.forall_mem_cons.1 hl).2 hs
    refine ⟨List.forall_mem_cons.2 ⟨fun _ => ?_, fun u hu hk => hpast.onLine hl (hbody u hu hk)⟩,
      fun u hu => hpast.onLine hl (hfall u hu), hpast.trans hw⟩
    exact onLine_head (by simpa using hend)

theorem readName_within {table : Defines} {t : Token} {rest : List Token}
    {r : Token × Token × List Token} (h : readName table t rest = .ok r)
    (hr : r.2.1.Inline) : Within rest r.2.2 := by
  unfold readName at h
  split at h
  · cases h
  · cases h
  · rename_i name closer after hb
    split at h
    · cases h
    · rename_i hid
      split at h
      · cases h
      · cases h
        have hopen : (rest.headD t).value = "[" := by
          unfold Bracketed.read at hb
          dsimp only at hb
          split at hb
          · cases hb
          · rename_i ho
            exact Decidable.not_not.1 ho
        obtain ⟨htail, hcloser⟩ := Bracketed.holding_eq (by decide) hb
        obtain ⟨opening, rfl⟩ : ∃ opening, rest = opening :: name :: closer :: after := by
          cases rest with
          | nil => cases htail
          | cons u rest => exact ⟨u, by rw [← htail]; rfl⟩
        have h₁ : opening.Inline := Token.inline_of_value hopen (by decide)
        have h₂ : name.Inline := Token.inline_of_isName (by simpa [Dialect.isIdentifier] using hid)
        have h₃ : closer.Inline := Token.inline_of_value hcloser (by decide)
        have hafter : Within after after.tail := by
          refine Within.tail after fun u hu => ?_
          cases after with
          | nil => cases hu
          | cons v after =>
            cases hu
            exact hr
        exact (((Within.cons h₁).trans (.cons h₂)).trans (.cons h₃)).trans hafter

theorem restOfLine_within (line : List Token) :
    (∀ u ∈ line.takeWhile fun t => !t.endsLine, OnLine line u) ∧
      PastLine line (afterLineEnd (line.dropWhile fun t => !t.endsLine)) := by
  have hspan : line.takeWhile (fun t => !t.endsLine) ++ line.dropWhile (fun t => !t.endsLine) =
      line := List.takeWhile_append_dropWhile
  have hinside : ∀ u ∈ line.takeWhile (fun t => !t.endsLine), u.endsLine = false := fun u hu => by
    simpa using List.mem_takeWhile_imp hu
  constructor
  · intro u hu
    have hmem : OnLine (line.takeWhile (fun t => !t.endsLine) ++
        line.dropWhile fun t => !t.endsLine) u := onLine_of_endsLine hinside hu
    rwa [hspan] at hmem
  · cases hdrop : line.dropWhile (fun t => !t.endsLine) with
    | nil => exact .inl rfl
    | cons w more =>
      have hw : w.endsLine = true := by
        have hhead := List.head_dropWhile_not (fun t : Token => !t.endsLine)
          (show line.dropWhile (fun t => !t.endsLine) ≠ [] by simp [hdrop])
        simpa [hdrop] using hhead
      refine .inr ⟨w, more, ⟨line.takeWhile fun t => !t.endsLine, ?_, fun u hu => ?_⟩, hw, rfl⟩
      · rw [← hdrop, hspan]
      · exact Token.inline_of_endsLine (hinside u hu)

theorem readParametric_within {name opening : Token} {rest : List Token}
    {r : Define × List Token} (hl : ∀ u ∈ rest, u.Lawful d)
    (h : readParametric name opening rest = .ok r) :
    (∀ t ∈ r.1.body, t.kind ≠ .slot → OnLine rest t) ∧ r.1.fallback = [] ∧ PastLine rest r.2 := by
  unfold readParametric at h
  dsimp only at h
  split at h
  · cases h
  · rename_i hparameter
    split at h
    · cases h
    · rename_i hcloser
      split at h
      · cases h
      · rename_i hne
        cases h
        -- the rest of the line is not empty, so two tokens stand in front of it
        match rest with
        | [] => exact absurd rfl hne
        | [_] => exact absurd rfl hne
        | parameter :: closer :: line =>
          have h₁ : parameter.Inline := .inl (by
            rw [show parameter.kind = .identifier from Decidable.not_not.1 hparameter]
            decide)
          have h₂ : closer.Inline := Token.inline_of_value (Decidable.not_not.1 hcloser) (by decide)
          have hwithin : Within (parameter :: closer :: line) line :=
            (Within.cons h₁).trans (.cons h₂)
          obtain ⟨hmem, hpast⟩ := restOfLine_within line
          refine ⟨fun t ht => ?_, rfl, hpast.of_within hwithin⟩
          obtain ⟨u, hu, rfl⟩ := List.mem_map.1 ht
          split
          · exact fun hk => absurd rfl hk
          · exact fun _ => hwithin.onLine hl (hmem u hu)

theorem readLine_within {table : Defines} {t : Token} {rest : List Token}
    {r : Defines × List Token} (hl : ∀ u ∈ rest, u.Lawful d)
    (h : readLine table t rest = .ok r) :
    (∀ m ∈ r.1, m ∈ table ∨ ((∀ u ∈ m.body, u.kind ≠ .slot → OnLine rest u) ∧
      ∀ u ∈ m.fallback, OnLine rest u)) ∧ PastLine rest r.2 := by
  fun_induction readLine table t rest generalizing r with
  | case1 => cases h
  | case2 table t rest name next after hn hopen =>
    obtain ⟨s, hs, rfl⟩ := Outcome.map_eq_ok_iff.1 h
    have hw : Within rest after := readName_within hn (Token.inline_of_value hopen.2 (by decide))
    obtain ⟨hbody, hfall, hpast⟩ :=
      readParametric_within (fun u hu => hl u (hw.suffix.mem hu)) hs
    refine ⟨fun m hm => ?_, hpast.of_within hw⟩
    rcases List.mem_append.1 hm with hm | hm
    · exact .inl hm
    · rw [List.mem_singleton.1 hm, hfall]
      exact .inr ⟨fun u hu hk => hw.onLine hl (hbody u hu hk), by simp⟩
  | case3 => cases h
  | case4 => cases h
  | case5 => cases h
  | case6 table t rest name next after hn _ hbracket body fallback u left hb =>
    rename_i hcomma ih
    have hw : Within rest after :=
      readName_within hn (Token.inline_of_value (Decidable.not_not.1 hbracket) (by decide))
    obtain ⟨hbody, hfall, hrest⟩ := readBody_within (fun u hu => hl u (hw.suffix.mem hu)) hb
    have hleft : Within rest left :=
      hw.trans (hrest.trans (.cons (Token.inline_of_value hcomma (by decide))))
    obtain ⟨hm, hpast⟩ := ih (fun u hu => hl u (hleft.suffix.mem hu)) h
    refine ⟨fun m hmem => ?_, hpast.of_within hleft⟩
    rcases hm m hmem with hm | ⟨hb', hf'⟩
    · rcases List.mem_append.1 hm with hm | hm
      · exact .inl hm
      · rw [List.mem_singleton.1 hm]
        exact .inr ⟨fun u hu hk => hw.onLine hl (hbody u hu hk),
          fun u hu => hw.onLine hl (hfall u hu)⟩
    · exact .inr ⟨fun u hu hk => hleft.onLine hl (hb' u hu hk),
        fun u hu => hleft.onLine hl (hf' u hu)⟩
  | case7 table t rest name next after hn _ hbracket body fallback u left hb _ _ =>
    rename_i hend
    cases h
    have hw : Within rest after :=
      readName_within hn (Token.inline_of_value (Decidable.not_not.1 hbracket) (by decide))
    obtain ⟨hbody, hfall, hrest⟩ := readBody_within (fun u hu => hl u (hw.suffix.mem hu)) hb
    refine ⟨fun m hm => ?_, .inr ⟨u, left, hw.trans hrest, hend, rfl⟩⟩
    rcases List.mem_append.1 hm with hm | hm
    · exact .inl hm
    · rw [List.mem_singleton.1 hm]
      exact .inr ⟨fun u hu hk => hw.onLine hl (hbody u hu hk),
        fun u hu => hw.onLine hl (hfall u hu)⟩
  | case8 => cases h

end Define

namespace Routine

theorem argumentList_within {fn closer : Token} {rest after : List Token}
    {runs : List (List Token)} (hl : ∀ t ∈ rest, t.Lawful d)
    (h : argumentList fn rest = .ok (runs, closer, after)) :
    (∀ r ∈ runs, ∀ t ∈ r, OnLine rest t) ∧ Within rest after := by
  obtain ⟨-, read, rfl, hread, hm⟩ := argumentList_spec hl h
  refine ⟨fun r hr t ht => ⟨?_, (hm r hr t ht).2⟩, read, rfl, fun u hu => .inl (hread u hu)⟩
  rw [lineOf_append hread]
  exact List.mem_append_left _ (hm r hr t ht).1

theorem splitResults_within (run : List Token) (last : Token) (l : List Token) :
    (∀ r ∈ (splitResults run last l).1, ∀ t ∈ r, t ∈ run ∨ OnLine l t) ∧
      Within l (splitResults run last l).2.2 := by
  induction l generalizing run last with
  | nil => exact ⟨by simp +contextual [splitResults], .refl []⟩
  | cons t rest ih =>
    simp only [splitResults]
    split
    · exact ⟨by simp_all, .refl _⟩
    · rename_i hends
      have hline : t.endsLine = false := by
        simp only [endsResults, Bool.or_eq_true, not_or, Bool.not_eq_true] at hends
        exact hends.2
      have hk : t.kind ≠ .newline := Token.kind_ne_newline_of_endsLine hline
      have hpast : Within (t :: rest) rest := .cons (.inl hk)
      split
      · obtain ⟨hm, hw⟩ := ih [] t
        refine ⟨List.forall_mem_cons.2 ⟨fun u hu => .inl hu, fun r hr u hu => ?_⟩, hpast.trans hw⟩
        have hlater : OnLine rest u := by simpa using hm r hr u hu
        exact .inr (hlater.cons hk)
      · obtain ⟨hm, hw⟩ := ih (run ++ [t]) t
        refine ⟨fun r hr u hu => ?_, hpast.trans hw⟩
        rcases hm r hr u hu with hu | hlater
        · rcases List.mem_append.1 hu with hu | hu
          · exact .inl hu
          · rw [List.mem_singleton.1 hu]
            exact .inr (onLine_head hline)
        · exact .inr (hlater.cons hk)

theorem resultList_within (ret : Token) (rest : List Token) :
    (∀ r ∈ (resultList ret rest).1, ∀ t ∈ r, OnLine rest t) ∧
      Within rest (resultList ret rest).2.2 := by
  unfold resultList
  split
  · exact ⟨by simp, .refl rest⟩
  · obtain ⟨hm, hw⟩ := splitResults_within [] ret rest
    exact ⟨fun r hr t ht => by simpa using hm r hr t ht, hw⟩

end Routine

end ClassicBasic
