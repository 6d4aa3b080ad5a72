import ClassicBasic.Proofs.LabelReport
import ClassicBasic.Proofs.Loose

/-!
# Blanks that are left out

A line without blanks around its keywords is read like the line with them exactly when the reader
starts anew at every place where a blank was left out.
-/

set_option autoImplicit false

namespace ClassicBasic

open Render (StartsBlank)

namespace Piece

open Loose

variable {d : Dialect} {c : Char} {rest : Text} {m : Loose}

/-- What is left where a blank makes no difference goes on to what is left behind the step. -/
theorem pauses_suffix {x : Text} (h : x ∈ (step d c rest).pauses) :
    (step d c rest).left <:+ x ∧ x <:+ rest := by
  unfold step at h ⊢
  dsimp only at h ⊢
  split at h
  · cases h
  · split at h
    · cases h
    · split at h
      · cases h
      · split at h
        · rename_i hq hs hr hd
          rw [if_neg hq, if_neg hs, if_neg hr, if_pos hd]
          refine ⟨?_, (edges_suffix h).trans (List.drop_suffix 3 rest)⟩
          obtain ⟨p, q, -, rfl, -⟩ := mem_edges_iff.1 h
          exact List.suffix_append q _
        · cases h

theorem rests_behind (hc : isGap c = false) {x : Text} (hx : x ∈ rests d (c :: rest))
    (hle : x.length ≤ (step d c rest).left.length) : x ∈ rests d (step d c rest).left := by
  have hleft := (step_left_suffix d c rest).length_le
  rw [rests_step hc, List.mem_cons, List.mem_append] at hx
  rcases hx with rfl | hx | hx
  · rw [List.length_cons] at hle
    omega
  · rw [← (pauses_suffix hx).1.eq_of_length_le hle]
    exact mem_rests_self d _
  · exact hx

theorem rests_inside (hc : isGap c = false) {x : Text} (hx : x ∈ rests d (c :: rest))
    (hle : x.length ≤ rest.length) :
    x ∈ (step d c rest).pauses ∨ x <:+ (step d c rest).left := by
  rw [rests_step hc, List.mem_cons, List.mem_append] at hx
  rcases hx with rfl | hx | hx
  · rw [List.length_cons] at hle
    omega
  · exact .inl hx
  · exact .inr (rests_suffix d _ x hx)

theorem startsWith_spaced {w : Text} (hw : ' ' ∉ w) (h : startsWith w (spaced m) = true) :
    startsWith w (stripped m) = true := by
  rcases exists_first_gap m with ⟨y, rfl⟩ | ⟨y, m₂, rfl⟩
  · simpa using h
  · rw [spaced_append, spaced_ofText, spaced_none,
      startsWith_append_blank hw (.inr ⟨spaced m₂, rfl⟩)] at h
    rw [stripped_append, stripped_ofText]
    exact startsWith_append h _

/-- The places where blanks are left out, where the reader goes on behind a step. -/
theorem gapsIn_behind (hc : isGap c = false) {m₁ m₂ : Loose}
    (h : GapsIn (rests d (c :: stripped (m₁ ++ m₂))) [] (m₁ ++ m₂))
    (hleft : stripped m₂ = (step d c (stripped (m₁ ++ m₂))).left) :
    GapsIn (rests d (stripped m₂)) [] m₂ := by
  refine (gapsIn_append.1 h).2.imp fun x hx hle _ => ?_
  rw [hleft]
  refine rests_behind hc hx ?_
  rw [← hleft]
  simpa using hle

/-- A word is read alike with and without the blanks left out behind it. -/
theorem word_spaced {u : Text} {k : Kind} (h : GapsIn (rests d (stripped m)) [] m)
    (hw : word d c (u ++ stripped m) = (k, u.length)) : word d c (u ++ spaced m) = (k, u.length) := by
  rcases exists_first_gap m with ⟨y, rfl⟩ | ⟨y, m₂, rfl⟩
  · simpa using hw
  · have hmem := h.mem
    simp only [stripped_append, stripped_ofText, stripped_none, List.append_nil] at hmem hw
    have hcut := word_cut_of_mem_rests hmem hw
    rw [spaced_append, spaced_ofText, spaced_none, ← List.append_assoc,
      word_append_blank (.inr ⟨spaced m₂, rfl⟩)]
    exact hcut

theorem not_mem_inside (hc : isGap c = false) (m₁ m₂ : Loose)
    (h : GapsIn (rests d (c :: stripped (m₁ ++ m₂))) [] (m₁ ++ m₂)) (ht : Tidy m₁)
    (hp : (step d c (stripped (m₁ ++ m₂))).pauses = [])
    (hleft : stripped m₂ = (step d c (stripped (m₁ ++ m₂))).left) : none ∉ m₁ := by
  refine (gapsIn_append.1 h).1.not_mem ht fun x hx hle => ?_
  rcases rests_inside hc hx (by simpa using hle) with hx | hx
  · rw [hp] at hx
    cases hx
  · rw [List.append_nil, hleft]
    exact hx.length_le

theorem step_word_append {u : Text} {k : Kind} (h : StartsWord c (u ++ rest))
    (hw : word d c (u ++ rest) = (k, u.length)) :
    step d c (u ++ rest) = { faces := [(k, c :: u)], left := rest } := by
  rw [step_word d h, hw]
  simp

theorem step_data_append {u items left : Text} (hq : c ≠ '"') (hs : c ≠ '\'')
    (hr : ¬startsWith "REM" (c :: (u ++ (items ++ left))) = true)
    (hd : startsWith "DATA" (c :: (u ++ (items ++ left))) = true) (hu : u.length = 3)
    (hi : dataItems false (items ++ left) = items) :
    step d c (u ++ (items ++ left)) =
      { faces := (.data, c :: u) :: fielded items, pauses := edges items left, left } := by
  have hdrop : (u ++ (items ++ left)).drop 3 = items ++ left := by rw [← hu, List.drop_left]
  have htake : (u ++ (items ++ left)).take 3 = u := by rw [← hu, List.take_left]
  rw [step_data d hq hs hr hd, hdrop, htake, hi, List.drop_left]

theorem startsWith_tight {w u text text' : Text} (hu : w.length = u.length + 1)
    (h : startsWith w (c :: (u ++ text)) = true) : startsWith w (c :: (u ++ text')) = true := by
  refine startsWith_of_take h ?_
  rw [hu, List.take_succ_cons, List.take_succ_cons, List.take_left, List.take_left]

theorem step_remark_append {u text : Text} (hq : c ≠ '"') (hs : c ≠ '\'')
    (hr : startsWith "REM" (c :: (u ++ text)) = true) (hu : u.length = 2) :
    step d c (u ++ text) = { faces := noted (c :: u) text, left := [] } := by
  rw [step_remark d hq hs hr, ← hu, List.take_left, List.drop_left]

/-- Whether a step reads the same with the blanks that are left out and without them. -/
def StepsAlike (d : Dialect) (c : Char) (m : Loose) : Prop :=
  ∃ m₁ m₂, m = m₁ ++ m₂ ∧ stripped m₂ = (step d c (stripped m)).left ∧
    spaced m₂ = (step d c (spaced m)).left ∧
    (step d c (spaced m)).faces = (step d c (stripped m)).faces

theorem stepsAlike_to_end (hc : isGap c = false) (h : GapsIn (rests d (c :: stripped m)) [] m)
    (ht : Tidy m) (hp : (step d c (stripped m)).pauses = []) (hl : (step d c (stripped m)).left = []) :
    StepsAlike d c m := by
  have hnone : none ∉ m := by
    rw [← List.append_nil m] at h hp hl
    exact not_mem_inside hc m [] h ht hp hl.symm
  rw [StepsAlike, ← stripped_eq_spaced hnone]
  exact ⟨m, [], by simp, hl.symm, hl.symm, rfl⟩

theorem stepsAlike_string (h : GapsIn (rests d ('"' :: stripped m)) [] m) (hmem : some '"' ∈ m) :
    StepsAlike d '"' m := by
  obtain ⟨body, m₂, rfl, hb⟩ := List.eq_append_cons_of_mem hmem
  have hb' : '"' ∉ stripped body := mt mem_stripped_iff.1 hb
  have hstep := step_closed d hb' (stripped m₂)
  rw [show stripped body ++ '"' :: stripped m₂ = stripped ((body ++ [some '"']) ++ m₂) by simp]
    at hstep
  rw [show body ++ some '"' :: m₂ = (body ++ [some '"']) ++ m₂ by simp] at h ⊢
  have hnone : none ∉ body ++ [some '"'] :=
    not_mem_inside rfl _ m₂ h (by simp [Tidy]) (by rw [hstep]) (by rw [hstep])
  have hbody : spaced body = stripped body :=
    (stripped_eq_spaced fun hn => hnone (List.mem_append_left _ hn)).symm
  refine ⟨_, m₂, rfl, by rw [hstep], ?_, ?_⟩
  all_goals
    rw [spaced_append, spaced_append, hbody, List.append_assoc]
    rw [show spaced [some '"'] ++ spaced m₂ = '"' :: spaced m₂ from rfl, step_closed d hb']
  rw [hstep]

theorem stepsAlike_data (hc : isGap c = false) (h : GapsIn (rests d (c :: stripped m)) [] m)
    (hq : c ≠ '"') (hs : c ≠ '\'') (hr : ¬startsWith "REM" (c :: stripped m) = true)
    (hd : startsWith "DATA" (c :: stripped m) = true) : StepsAlike d c m := by
  have hlen : 4 ≤ (stripped m).length + 1 := length_of_startsWith hd
  have hstep := step_data d hq hs hr hd
  obtain ⟨u, m₃, rfl, hu⟩ := exists_tight_of_gapsIn (Nat.le_of_succ_le_succ hlen) h
    fun x hx hle => by
      rw [← List.length_drop]
      rcases rests_inside hc hx hle with hx | hx
      · rw [hstep] at hx
        exact (edges_suffix hx).length_le
      · rw [hstep] at hx
        exact (hx.trans (List.drop_suffix _ _)).length_le
  obtain ⟨items, m₂, rfl, hi, hi'⟩ := exists_items false m₃
  have hrem : ¬startsWith "REM" (c :: spaced (u.map some ++ (items ++ m₂))) = true :=
    mt (startsWith_spaced (m := some c :: _) (by decide)) hr
  have hgaps := (gapsIn_append.1 (gapsIn_append.1 h).2).1
  unfold StepsAlike
  simp only [stripped_append, stripped_ofText, spaced_append, spaced_ofText, List.append_nil]
    at hi hi' hr hd hrem hgaps hstep hc h ⊢
  have hdata : startsWith "DATA" (c :: (u ++ (spaced items ++ spaced m₂))) = true :=
    startsWith_tight (by rw [hu]; rfl) hd
  have hshort := step_data_append (d := d) hq hs hr hd hu hi'
  rw [hshort, step_data_append hq hs hrem hdata hu hi]
  refine ⟨u.map some ++ items, m₂, by rw [List.append_assoc], rfl, rfl, ?_⟩
  have hedges : GapsIn (edges (stripped items) (stripped m₂)) (stripped m₂) items := by
    refine hgaps.imp fun x hx hle hge => ?_
    have hin : x.length ≤ (u ++ (stripped items ++ stripped m₂)).length :=
      hle.trans (by simp)
    rcases rests_inside hc hx hin with hx | hx
    · rwa [hshort] at hx
    · rw [hshort] at hx
      rw [hx.eq_of_length_le hge]
      exact mem_edges_iff.2 ⟨stripped items, [], by simp, rfl, .inl rfl⟩
  simp only [fielded_spaced_iff.2 hedges]

theorem stepsAlike_word (hc : isGap c = false) (h : GapsIn (rests d (c :: stripped m)) [] m)
    (hword : StartsWord c (stripped m)) : StepsAlike d c m := by
  have hlen := word_length d c (stripped m)
  obtain ⟨u, m₂, rfl, hu⟩ := exists_tight_of_gapsIn hlen h fun x hx hle => by
    rw [← List.length_drop]
    rcases rests_inside hc hx hle with hx | hx
    · rw [step_word d hword] at hx
      cases hx
    · rw [step_word d hword] at hx
      exact hx.length_le
  have hspaced : StartsWord c (spaced (u.map some ++ m₂)) :=
    ⟨hword.1, hword.2.1, mt (startsWith_spaced (m := some c :: _) (by decide)) hword.2.2.1,
      mt (startsWith_spaced (m := some c :: _) (by decide)) hword.2.2.2⟩
  have hleft : stripped m₂ = (step d c (stripped (u.map some ++ m₂))).left := by
    rw [step_word d hword, ← hu]
    simp
  have hgaps := gapsIn_behind hc h hleft
  unfold StepsAlike
  simp only [stripped_append, stripped_ofText, spaced_append, spaced_ofText] at *
  have hw : word d c (u ++ stripped m₂) = ((word d c (u ++ stripped m₂)).1, u.length) := by
    rw [hu]
  rw [step_word_append hword hw, step_word_append hspaced (word_spaced hgaps hw)]
  exact ⟨u.map some, m₂, rfl, rfl, rfl, rfl⟩

/-- Where blanks are left out at places where the reader starts anew, a step reads the same. -/
theorem step_spaced (hc : isGap c = false) (h : GapsIn (rests d (c :: stripped m)) [] m)
    (ht : Tidy m) : StepsAlike d c m := by
  have toEnd := stepsAlike_to_end hc h ht
  by_cases hq : c = '"'
  · subst hq
    by_cases hmem : some '"' ∈ m
    · exact stepsAlike_string h hmem
    · refine toEnd ?_ ?_ <;> rw [step_unclosed d (mt mem_stripped_iff.1 hmem)]
  by_cases hs : c = '\''
  · subst hs
    exact toEnd (by rw [step_sign]) (by rw [step_sign])
  by_cases hr : startsWith "REM" (c :: stripped m) = true
  · exact toEnd (by rw [step_remark d hq hs hr]) (by rw [step_remark d hq hs hr])
  by_cases hd : startsWith "DATA" (c :: stripped m) = true
  · exact stepsAlike_data hc h hq hs hr hd
  · exact stepsAlike_word hc h ⟨hq, hs, hr, hd⟩

/-- Whether blanks are left out of a line only where the reader starts anew. -/
def Harmless (d : Dialect) (m : Loose) : Prop := GapsIn (rests d (stripped m)) [] m

theorem Harmless.reading_eq (h : Harmless d m) (ht : Tidy m) :
    reading d (spaced m) = reading d (stripped m) := by
  induction hn : m.length using Nat.strong_induction_on generalizing m with
  | _ n ih =>
    subst hn
    cases m with
    | nil => rfl
    | cons x m =>
      cases x with
      | none =>
        rw [spaced_none, stripped_none, reading_gap rfl]
        exact ih m.length (by simp) h.2 ht.of_cons rfl
      | some c =>
        rw [spaced_some, stripped_some]
        cases hc : isGap c with
        | true =>
          rw [reading_gap hc, reading_gap hc]
          refine ih m.length (by simp) ?_ ht.of_cons rfl
          refine GapsIn.imp (show GapsIn (rests d (c :: stripped m)) [] m from h) fun x hx hle _ => ?_
          rw [rests_gap hc, List.mem_cons] at hx
          rcases hx with rfl | hx
          · simp at hle
          · exact hx
        | false =>
          obtain ⟨m₁, m₂, rfl, hleft, hleft', hfaces⟩ := step_spaced hc h ht.of_cons
          rw [reading_step hc, reading_step hc, hfaces, ← hleft, ← hleft']
          refine congrArg _ (ih m₂.length ?_ (gapsIn_behind hc h hleft) ht.of_cons.of_append rfl)
          rw [List.length_cons, List.length_append]
          omega

theorem exists_head (d : Dialect) (c : Char) (rest : Text) :
    ∃ k w more, (step d c rest).faces = (k, w) :: more ∧ w <+: c :: rest := by
  by_cases hq : c = '"'
  · subst hq
    by_cases hmem : '"' ∈ rest
    · obtain ⟨body, left, rfl, hb⟩ := List.eq_append_cons_of_mem hmem
      rw [step_closed d hb]
      exact ⟨_, _, _, rfl, by simp⟩
    · rw [step_unclosed d hmem]
      exact ⟨_, _, _, rfl, List.prefix_refl _⟩
  by_cases hs : c = '\''
  · subst hs
    rw [step_sign]
    exact ⟨_, _, _, rfl, by simp⟩
  by_cases hr : startsWith "REM" (c :: rest) = true
  · rw [step_remark d hq hs hr]
    exact ⟨_, _, _, rfl, (List.prefix_cons_inj c).2 (List.take_prefix 2 rest)⟩
  by_cases hd : startsWith "DATA" (c :: rest) = true
  · rw [step_data d hq hs hr hd]
    exact ⟨_, _, _, rfl, (List.prefix_cons_inj c).2 (List.take_prefix 3 rest)⟩
  · rw [step_word d ⟨hq, hs, hr, hd⟩]
    exact ⟨_, _, _, rfl, (List.prefix_cons_inj c).2 (List.take_prefix _ rest)⟩

theorem noted_inj {mark mark' text text' : Text} (h : noted mark text = noted mark' text') :
    mark = mark' ∧ text = text' := by
  unfold noted at h
  split at h <;> split at h <;> simp_all

/-- Whether the blanks that are left out of a step make no difference to it. -/
def StepsApart (d : Dialect) (c : Char) (m : Loose) : Prop :=
  ∃ m₁ m₂, m = m₁ ++ m₂ ∧ stripped m₂ = (step d c (stripped m)).left ∧
    spaced m₂ = (step d c (spaced m)).left ∧ reading d (spaced m₂) = reading d (stripped m₂) ∧
    GapsIn (step d c (stripped m)).pauses (stripped m₂) m₁

/-- Whether a step and what follows it are read alike with blanks and without. -/
def ReadsOn (d : Dialect) (c : Char) (m : Loose) : Prop :=
  (step d c (spaced m)).faces ++ reading d (step d c (spaced m)).left =
    (step d c (stripped m)).faces ++ reading d (step d c (stripped m)).left

theorem stepsApart_to_end (hl : (step d c (stripped m)).left = []) (hl' : (step d c (spaced m)).left = [])
    (he : spaced m = stripped m) : StepsApart d c m :=
  ⟨m, [], by simp, hl.symm, hl'.symm, rfl, gapsIn_of_not_mem (stripped_eq_spaced_iff.1 he.symm)⟩

/-- The first text read is the same, so there is no gap in it if it holds no blank. -/
theorem tight_of_readsOn (h : ReadsOn d c m) {k : Kind} {w : Text} {more : List Face}
    (hf : (step d c (stripped m)).faces = (k, c :: w) :: more) (hw : ' ' ∉ w) :
    ∃ (u : Text) (m₂ : Loose), m = u.map some ++ m₂ ∧ u.length = w.length := by
  obtain ⟨k', w', more', hf', t, ht⟩ := exists_head d c (spaced m)
  rw [ReadsOn, hf, hf', List.cons_append, List.cons_append, List.cons.injEq, Prod.mk.injEq] at h
  rw [h.1.2, List.cons_append, List.cons.injEq] at ht
  have hpre : (spaced m).take w.length = w := by rw [← ht.2, List.take_left]
  refine exists_tight ?_ (by rwa [hpre])
  rw [← length_spaced, ← ht.2]
  simp

theorem stepsApart_string (h : ReadsOn d '"' m) (hmem : some '"' ∈ m) : StepsApart d '"' m := by
  obtain ⟨body, m₂, rfl, hb⟩ := List.eq_append_cons_of_mem hmem
  have hb' : '"' ∉ stripped body := mt mem_stripped_iff.1 hb
  have hb'' : '"' ∉ spaced body := mt (mem_spaced_iff (by decide)).1 hb
  unfold ReadsOn at h
  unfold StepsApart
  simp only [stripped_append, spaced_append, stripped_some, spaced_some, step_closed d hb',
    step_closed d hb''] at h ⊢
  have heads : spaced body = stripped body ∧ reading d (spaced m₂) = reading d (stripped m₂) := by
    simpa using h
  refine ⟨body ++ [some '"'], m₂, by simp, rfl, rfl, heads.2, gapsIn_of_not_mem ?_⟩
  simpa using stripped_eq_spaced_iff.1 heads.1.symm

theorem stepsApart_unclosed (h : ReadsOn d '"' m) (hmem : some '"' ∉ m) : StepsApart d '"' m := by
  have hmem' : '"' ∉ stripped m := mt mem_stripped_iff.1 hmem
  have hmem'' : '"' ∉ spaced m := mt (mem_spaced_iff (by decide)).1 hmem
  refine stepsApart_to_end (by rw [step_unclosed d hmem']) (by rw [step_unclosed d hmem'']) ?_
  rw [ReadsOn, step_unclosed d hmem', step_unclosed d hmem''] at h
  simpa using h

theorem stepsApart_remark (h : ReadsOn d c m) (hq : c ≠ '"') (hs : c ≠ '\'')
    (hr : startsWith "REM" (c :: stripped m) = true) : StepsApart d c m := by
  have hlen : 3 ≤ (stripped m).length + 1 := length_of_startsWith hr
  have hb : ' ' ∉ (c :: stripped m).take 3 := blankless_of_startsWith (by decide) hr
  rw [List.take_succ_cons, List.mem_cons, not_or] at hb
  obtain ⟨u, m₂, rfl, hu⟩ := tight_of_readsOn h (by rw [step_remark d hq hs hr]; rfl) hb.2
  rw [List.length_take_of_le (by omega)] at hu
  rw [stripped_append, stripped_ofText] at hr
  have hr' : startsWith "REM" (c :: (u ++ spaced m₂)) = true :=
    startsWith_tight (by rw [hu]; rfl) hr
  unfold ReadsOn at h
  simp only [stripped_append, stripped_ofText, spaced_append, spaced_ofText,
    step_remark_append hq hs hr hu, step_remark_append hq hs hr' hu] at h
  have htext : spaced m₂ = stripped m₂ := (noted_inj (by simpa using h)).2
  exact stepsApart_to_end (by simp [step_remark_append hq hs hr hu])
    (by simp [step_remark_append hq hs hr' hu]) (by simp [htext])

theorem stepsApart_data (h : ReadsOn d c m) (hq : c ≠ '"') (hs : c ≠ '\'')
    (hr : ¬startsWith "REM" (c :: stripped m) = true)
    (hd : startsWith "DATA" (c :: stripped m) = true) : StepsApart d c m := by
  have hlen : 4 ≤ (stripped m).length + 1 := length_of_startsWith hd
  have hb : ' ' ∉ (c :: stripped m).take 4 := blankless_of_startsWith (by decide) hd
  rw [List.take_succ_cons, List.mem_cons, not_or] at hb
  obtain ⟨u, m₃, rfl, hu⟩ := tight_of_readsOn h (by rw [step_data d hq hs hr hd]) hb.2
  rw [List.length_take_of_le (by omega)] at hu
  unfold ReadsOn at h
  unfold StepsApart
  obtain ⟨items, m₂, rfl, hi, hi'⟩ := exists_items false m₃
  have hr' : ¬startsWith "REM" (c :: spaced (u.map some ++ (items ++ m₂))) = true :=
    mt (startsWith_spaced (m := some c :: _) (by decide)) hr
  simp only [stripped_append, stripped_ofText, spaced_append, spaced_ofText] at hi hi' hr hr' hd h ⊢
  have hd' : startsWith "DATA" (c :: (u ++ (spaced items ++ spaced m₂))) = true :=
    startsWith_tight (by rw [hu]; rfl) hd
  rw [step_data_append hq hs hr hd hu hi', step_data_append hq hs hr' hd' hu hi] at h ⊢
  simp only [List.cons_append, List.cons.injEq, true_and] at h
  obtain ⟨hfield, hread⟩ := List.append_inj h (length_fielded items)
  have hedges : GapsIn (edges (stripped items) (stripped m₂)) (stripped m₂) items :=
    fielded_spaced_iff.1 hfield
  refine ⟨u.map some ++ items, m₂, by rw [List.append_assoc], rfl, rfl, hread, ?_⟩
  exact gapsIn_append.2 ⟨gapsIn_of_not_mem (by simp), hedges⟩

theorem stepsApart_word (h : ReadsOn d c m) (hword : StartsWord c (stripped m)) : StepsApart d c m := by
  have hspaced : StartsWord c (spaced m) :=
    ⟨hword.1, hword.2.1, mt (startsWith_spaced (m := some c :: _) (by decide)) hword.2.2.1,
      mt (startsWith_spaced (m := some c :: _) (by decide)) hword.2.2.2⟩
  have hlen := word_length d c (stripped m)
  have hlen' := word_length d c (spaced m)
  obtain ⟨u, m₂, rfl, hu⟩ := tight_of_readsOn h (by rw [step_word d hword]) (word_blankless d c _)
  unfold ReadsOn at h
  unfold StepsApart
  rw [List.length_take_of_le hlen] at hu
  rw [step_word d hword, step_word d hspaced] at h ⊢
  simp only [stripped_append, stripped_ofText, spaced_append, spaced_ofText, List.cons_append,
    List.nil_append, List.cons.injEq, Prod.mk.injEq, true_and] at hu hlen' h ⊢
  have hsame : (word d c (u ++ spaced m₂)).2 = u.length := by
    have := congrArg List.length h.1.2
    rw [← hu, List.take_left, List.length_take_of_le hlen'] at this
    exact this
  rw [hsame, ← hu, List.drop_left, List.drop_left] at h ⊢
  exact ⟨u.map some, m₂, rfl, rfl, rfl, h.2, gapsIn_of_not_mem (by simp)⟩

/-- What a step reads alike with and without blanks has no blanks left out in it but where they make
no difference. -/
theorem gapsIn_of_step_eq (h : ReadsOn d c m) : StepsApart d c m := by
  by_cases hq : c = '"'
  · subst hq
    by_cases hmem : some '"' ∈ m
    · exact stepsApart_string h hmem
    · exact stepsApart_unclosed h hmem
  by_cases hs : c = '\''
  · subst hs
    refine stepsApart_to_end (by rw [step_sign]) (by rw [step_sign]) ?_
    rw [ReadsOn, step_sign, step_sign] at h
    exact (noted_inj (by simpa using h)).2
  by_cases hr : startsWith "REM" (c :: stripped m) = true
  · exact stepsApart_remark h hq hs hr
  by_cases hd : startsWith "DATA" (c :: stripped m) = true
  · exact stepsApart_data h hq hs hr hd
  · exact stepsApart_word h ⟨hq, hs, hr, hd⟩

/-- A line is read alike with the blanks it is written without exactly when they are left out only
where the reader starts anew. -/
theorem reading_spaced_iff (ht : Tidy m) :
    reading d (spaced m) = reading d (stripped m) ↔ Harmless d m := by
  refine ⟨fun h => ?_, fun h => h.reading_eq ht⟩
  clear ht
  induction hn : m.length using Nat.strong_induction_on generalizing m with
  | _ n ih =>
    subst hn
    cases m with
    | nil => trivial
    | cons x m =>
      cases x with
      | none =>
        rw [spaced_none, stripped_none, reading_gap rfl] at h
        exact ⟨by simpa using mem_rests_self d (stripped m), ih m.length (by simp) h rfl⟩
      | some c =>
        rw [spaced_some, stripped_some] at h
        have tail {m₂ : Loose} (hlt : m₂.length < (some c :: m).length)
            (h : reading d (spaced m₂) = reading d (stripped m₂)) :
            GapsIn (rests d (stripped m₂)) [] m₂ := ih m₂.length hlt h rfl
        change GapsIn (rests d (c :: stripped m)) [] m
        cases hc : isGap c with
        | true =>
          rw [reading_gap hc, reading_gap hc] at h
          refine (tail (by simp) h).imp fun x hx _ _ => ?_
          rw [rests_gap hc]
          exact List.mem_cons_of_mem _ hx
        | false =>
          rw [reading_step hc, reading_step hc] at h
          obtain ⟨m₁, m₂, rfl, hleft, -, hread, hgaps⟩ := gapsIn_of_step_eq h
          rw [gapsIn_append, List.append_nil, rests_step hc]
          refine ⟨hgaps.imp fun x hx _ _ => ?_, (tail ?_ hread).imp fun x hx _ _ => ?_⟩
          · exact List.mem_cons_of_mem _ (List.mem_append_left _ hx)
          · rw [List.length_cons, List.length_append]
            omega
          · rw [hleft] at hx
            exact List.mem_cons_of_mem _ (List.mem_append_right _ hx)

end Piece

namespace Render

open Loose

variable {d : Dialect} {o : Options} {notes : List (Int × Text)} {m : Loose}

theorem getLast?_of_tidy (ht : Tidy m) : (spaced m).getLast? = (stripped m).getLast? := by
  rcases List.eq_nil_or_concat m with rfl | ⟨front, x, rfl⟩
  · rfl
  · cases x with
    | none => simp [Tidy] at ht
    | some c => simp [spaced, stripped]

/-- What is needed between two words depends on the last character that is not left out. -/
theorem needsSpace_of_tidy (ht : Tidy m) (last : Option Token) (t : Token) :
    needsSpace last t (spaced m) = needsSpace last t (stripped m) := by
  have hlast := getLast?_of_tidy ht
  have hempty : (spaced m).isEmpty = (stripped m).isEmpty := by
    rw [Bool.eq_iff_iff, List.isEmpty_iff, List.isEmpty_iff, ← List.getLast?_eq_none_iff, hlast,
      List.getLast?_eq_none_iff]
  simp only [needsSpace, Text.upper, List.getLast?_map, hlast, hempty]

/-- Where only the line without blanks needs one between two words, the other has it already. -/
theorem exists_apart (m : Loose) (last : Option Token) (t : Token) : ∃ m',
    spaced m' = (if needsSpace last t (spaced m) then spaced m ++ " " else spaced m) ∧
      stripped m' = if needsSpace last t (stripped m) then stripped m ++ " " else stripped m := by
  cases h : needsSpace last t (spaced m) with
  | true =>
    cases h' : needsSpace last t (stripped m) with
    | true => exact ⟨m ++ [some ' '], by simp, by simp⟩
    | false => exact ⟨m ++ [none], by simp, by simp⟩
  | false =>
    cases h' : needsSpace last t (stripped m) with
    | false => exact ⟨m, by simp, by simp⟩
    | true =>
      have hnot : ¬Tidy m := fun ht => by simp [needsSpace_of_tidy ht, h'] at h
      obtain ⟨front, rfl⟩ : ∃ front, m = front ++ [none] :=
        ⟨m.dropLast, (List.dropLast_append_getLast? none (Decidable.not_not.1 hnot)).symm⟩
      exact ⟨front ++ [some ' '], by simp, by simp⟩

theorem spaceBefore_cases (d : Dialect) (space : Text) (last : Option Token) (t : Token)
    (written : Text) :
    spaceBefore d space last t written = [] ∨ spaceBefore d space last t written = space := by
  unfold spaceBefore
  split
  · exact .inl rfl
  · split
    · exact .inr rfl
    · exact .inl rfl

theorem spaceBehind_cases (d : Dialect) (space : Text) (t : Token) (next : Option Token) :
    spaceBehind d space t next = [] ∨ spaceBehind d space t next = space := by
  unfold spaceBehind
  split
  · split
    · exact .inr rfl
    · exact .inl rfl
  · split
    · exact .inr rfl
    · exact .inl rfl

theorem exists_gap {gap : Text} (h : gap = [] ∨ gap = " ") :
    ∃ m : Loose, spaced m = gap ∧ stripped m = [] := by
  rcases h with rfl | rfl
  · exact ⟨[], rfl, rfl⟩
  · exact ⟨[none], rfl, rfl⟩

theorem exists_lineText (d : Dialect) (last : Option Token) (m : Loose) (tokens : List Token) :
    ∃ m', spaced m' = lineText d " " last (spaced m) tokens ∧
      stripped m' = lineText d [] last (stripped m) tokens := by
  induction tokens generalizing last m with
  | nil => exact ⟨m, rfl, rfl⟩
  | cons t rest ih =>
    simp only [lineText]
    split
    · exact ih _ _
    · obtain ⟨m₁, hsp, hst⟩ := exists_apart m last t
      rw [← hsp, ← hst]
      obtain ⟨before, hb, hb'⟩ := exists_gap (spaceBefore_cases d " " last t (spaced m₁))
      obtain ⟨behind, hh, hh'⟩ := exists_gap (spaceBehind_cases d " " t rest.head?)
      have hnone (written : Text) : spaceBefore d [] last t written = [] :=
        (spaceBefore_cases d [] last t written).elim id id
      have hnone' : spaceBehind d [] t rest.head? = [] :=
        (spaceBehind_cases d [] t rest.head?).elim id id
      have hwritten := ih (some t) (m₁ ++ before ++ t.value.map some ++ behind)
      simp only [spaced_append, stripped_append, spaced_ofText, stripped_ofText, hb, hb', hh, hh']
        at hwritten
      rw [hnone, hnone']
      exact hwritten

theorem exists_loose (d : Dialect) (o : Options) (notes : List (Int × Text)) (tokens : List Token) :
    ∃ m, Tidy m ∧ spaced m = line d { o with stripSpaces := false } notes tokens ∧
      stripped m = line d { o with stripSpaces := true } notes tokens := by
  have hspace : isSpace ' ' = true := rfl
  obtain ⟨m, hsp, hst⟩ := exists_lineText d none [] tokens
  rw [spaced_nil] at hsp
  rw [stripped_nil] at hst
  unfold line
  simp only [Bool.false_eq_true, if_false, if_true, ← hsp, ← hst, trimEnd_spaced,
    trimEnd_stripped hspace]
  split
  · refine ⟨trimmed isSpace (trimmed isSpace m ++ (" '" ++ Text.joinWith " ".toList
      (labels notes (reportKey tokens))).map some), tidy_trimmed hspace _, ?_, ?_⟩
    · rw [← trimEnd_spaced, spaced_append, spaced_ofText, List.append_assoc]
    · rw [← trimEnd_stripped hspace, stripped_append, stripped_ofText, List.append_assoc]
  · exact ⟨trimmed isSpace m, tidy_trimmed hspace m, (trimEnd_spaced _ _).symm,
      (trimEnd_stripped hspace _).symm⟩

theorem exists_number (m : Loose) : ∃ (number : Text) (m₂ : Loose), m = number.map some ++ m₂ ∧
    (∀ c ∈ number, Text.isDecimalDigit c = true) ∧
      ∀ c, m₂.head? = some (some c) → Text.isDecimalDigit c = false := by
  induction m with
  | nil => exact ⟨[], [], rfl, by simp, by simp⟩
  | cons x m ih =>
    cases x with
    | none => exact ⟨[], none :: m, rfl, by simp, by simp⟩
    | some c =>
      cases hc : Text.isDecimalDigit c with
      | false => exact ⟨[], some c :: m, rfl, by simp, by simpa using hc⟩
      | true =>
        obtain ⟨number, m₂, rfl, hdigits, hnext⟩ := ih
        exact ⟨c :: number, m₂, rfl, List.forall_mem_cons.2 ⟨hc, hdigits⟩, hnext⟩

/-- What is read of a line of code: its number, and the kinds and texts behind it. -/
def readLine (d : Dialect) (l : Text) : Text × List Piece.Face :=
  (l.takeWhile Text.isDecimalDigit, Piece.reading d (behindNumber l))

/-- Whether blanks are left out of a line of code only where the reader starts anew. -/
def Harmless (d : Dialect) (m : Loose) : Prop :=
  GapsIn (Piece.rests d (behindNumber (stripped m))) [] m

/-- A line of code is read alike with the blanks it is written without exactly when they are left out
only where the reader starts anew. -/
theorem readLine_spaced_iff (ht : Tidy m) :
    readLine d (stripped m) = readLine d (spaced m) ↔ Harmless d m := by
  obtain ⟨number, m₂, rfl, hdigits, hnext⟩ := exists_number m
  have hspaced : (spaced m₂).takeWhile Text.isDecimalDigit = [] ∧
      behindNumber (spaced m₂) = spaced m₂ := by
    cases m₂ with
    | nil => exact ⟨rfl, rfl⟩
    | cons x m₂ =>
      have hx : Text.isDecimalDigit (x.getD ' ') = false := by
        cases x with
        | none => decide
        | some c => exact hnext c rfl
      exact ⟨List.takeWhile_cons_of_neg (by simp [hx]), List.dropWhile_cons_of_neg (by simp [hx])⟩
  have hbehind (t : Text) : behindNumber (number ++ t) = behindNumber t := by
    unfold behindNumber
    rw [List.dropWhile_append_of_pos hdigits]
  have htake (t : Text) : (number ++ t).takeWhile Text.isDecimalDigit =
      number ++ t.takeWhile Text.isDecimalDigit := List.takeWhile_append_of_pos hdigits
  simp only [readLine, Harmless, stripped_append, stripped_ofText, spaced_append, spaced_ofText,
    hbehind, htake, hspaced, Prod.mk.injEq, List.append_right_eq_self,
    gapsIn_append, List.append_nil]
  have hrest : behindNumber (stripped m₂) = stripped m₂ ↔
      (stripped m₂).takeWhile Text.isDecimalDigit = [] := by
    unfold behindNumber
    conv_lhs => rhs; rw [← List.takeWhile_append_dropWhile (p := Text.isDecimalDigit) (l := stripped m₂)]
    simp
  have hread := Piece.reading_spaced_iff (d := d) ht.of_append
  constructor
  · rintro ⟨hnil, heq⟩
    rw [hrest.2 hnil] at heq ⊢
    exact ⟨gapsIn_of_not_mem (by simp), hread.1 heq.symm⟩
  · rintro ⟨-, hgaps⟩
    have hnil : (stripped m₂).takeWhile Text.isDecimalDigit = [] := by
      cases m₂ with
      | nil => rfl
      | cons x m₂ =>
        cases x with
        | none =>
          have hsuffix := Piece.rests_suffix d _ _ hgaps.1
          rw [← hrest]
          refine (List.IsSuffix.eq_of_length_le (List.dropWhile_suffix _) ?_)
          simpa using hsuffix.length_le
        | some c =>
          rw [stripped_some, List.takeWhile_cons_of_neg (by simp [hnext c rfl])]
    rw [hrest.2 hnil] at hgaps ⊢
    exact ⟨hnil, (hread.2 hgaps).symm⟩

end Render

namespace Compile

open Loose (spaced stripped Tidy)
open Render (readLine Harmless)

variable {s : Setting} {o : Options} {listing : Listing} {c c' : Compiled} {σ τ τ' : Session}

/-- With blanks around its keywords and without them a program has the same lines, and each line is
read alike exactly when blanks are left out of it only where the reader starts anew. -/
theorem stripped_readLine_iff
    (h : ofListing s { o with stripSpaces := false } listing σ = .ok c τ)
    (h' : ofListing s { o with stripSpaces := true } listing σ = .ok c' τ') :
    List.Forall₂ (fun l l' => ∃ m, Tidy m ∧ spaced m = l ∧ stripped m = l' ∧
      (readLine s.dialect l' = readLine s.dialect l ↔ Harmless s.dialect m)) c.code c'.code := by
  obtain ⟨notes, -, hcode, hcode'⟩ := exists_rows h h'
  rw [hcode, hcode']
  refine Render.forall₂_line fun row => ?_
  obtain ⟨m, ht, hsp, hst⟩ := Render.exists_loose s.dialect o notes row
  refine ⟨m, ht, hsp, hst, ?_⟩
  have hiff := Render.readLine_spaced_iff (d := s.dialect) ht
  rwa [hst, hsp] at hiff

theorem stripped_condition_harmless :
    ∃ c τ c' τ', ofListing (lone .msx) { header := false, stripSpaces := false }
        (Listing.ofText "if a then print 1" "/main" 4) {} = .ok c τ ∧
      ofListing (lone .msx) { header := false, stripSpaces := true }
        (Listing.ofText "if a then print 1" "/main" 4) {} = .ok c' τ' ∧
      c'.code = ["10ifathenprint1"] ∧
      List.Forall₂ (fun l l' => ∃ m, spaced m = l ∧ stripped m = l' ∧ Harmless .msx m)
        c.code c'.code := by
  -- the runs share the reading of the listing
  obtain ⟨hrun, hrun', hread⟩ : (outcome (lone .msx) { header := false, stripSpaces := false }
        (Listing.ofText "if a then print 1" "/main" 4)).map Compiled.code =
        some ["10 if a then print 1".toList] ∧
      (outcome (lone .msx) { header := false, stripSpaces := true }
        (Listing.ofText "if a then print 1" "/main" 4)).map Compiled.code =
        some ["10ifathenprint1".toList] ∧
      readLine .msx "10ifathenprint1" = readLine .msx "10 if a then print 1" := by decide +kernel
  obtain ⟨c, hc, he⟩ := Option.map_eq_some_iff.1 hrun
  obtain ⟨c', hc', he'⟩ := Option.map_eq_some_iff.1 hrun'
  obtain ⟨τ, hτ⟩ := exists_of_outcome hc
  obtain ⟨τ', hτ'⟩ := exists_of_outcome hc'
  refine ⟨c, τ, c', τ', hτ, hτ', he', ?_⟩
  have hall : List.Forall₂ (fun l l' => ∃ m, Tidy m ∧ spaced m = l ∧ stripped m = l' ∧
      (readLine .msx l' = readLine .msx l ↔ Harmless .msx m)) c.code c'.code :=
    stripped_readLine_iff (o := { header := false }) hτ hτ'
  rw [he, he'] at hall ⊢
  simp only [List.forall₂_cons, List.Forall₂.nil, and_true] at hall ⊢
  obtain ⟨m, -, hsp, hst, hiff⟩ := hall
  exact ⟨m, hsp, hst, hiff.1 hread⟩

/-- A name and the operator behind it become another keyword without the blank between them. -/
theorem stripped_name_not_read_alike :
    ∃ c τ c' τ', ofListing (lone .msx) { header := false, stripSpaces := false }
        (Listing.ofText "if f or b then print 1" "/main" 4) {} = .ok c τ ∧
      ofListing (lone .msx) { header := false, stripSpaces := true }
        (Listing.ofText "if f or b then print 1" "/main" 4) {} = .ok c' τ' ∧
      c.code = ["10 if f or b then print 1"] ∧ c'.code = ["10ifforbthenprint1"] ∧
      ¬List.Forall₂ (fun l l' => readLine .msx l' = readLine .msx l) c.code c'.code := by
  obtain ⟨hrun, hrun', hread⟩ : (outcome (lone .msx) { header := false, stripSpaces := false }
        (Listing.ofText "if f or b then print 1" "/main" 4)).map Compiled.code =
        some ["10 if f or b then print 1".toList] ∧
      (outcome (lone .msx) { header := false, stripSpaces := true }
        (Listing.ofText "if f or b then print 1" "/main" 4)).map Compiled.code =
        some ["10ifforbthenprint1".toList] ∧
      ¬readLine .msx "10ifforbthenprint1" = readLine .msx "10 if f or b then print 1" := by
    decide +kernel
  obtain ⟨c, hc, he⟩ := Option.map_eq_some_iff.1 hrun
  obtain ⟨c', hc', he'⟩ := Option.map_eq_some_iff.1 hrun'
  obtain ⟨τ, hτ⟩ := exists_of_outcome hc
  obtain ⟨τ', hτ'⟩ := exists_of_outcome hc'
  refine ⟨c, τ, c', τ', hτ, hτ', he, he', fun hall => ?_⟩
  rw [he, he'] at hall
  simp only [List.forall₂_cons, List.Forall₂.nil, and_true] at hall
  exact hread hall

end Compile

end ClassicBasic
