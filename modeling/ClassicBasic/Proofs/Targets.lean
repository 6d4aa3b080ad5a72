import ClassicBasic.Proofs.Compile

/-!
# Where jumps land

A placeholder becomes a number that was counted while tokens were read; the lines of the code are cut
later, one for each line end. The two differ at the ends of a program only: a line that the program
breaks off on is counted and never cut, and a first line whose end was joined away is cut without a
number.
-/

set_option autoImplicit false

namespace ClassicBasic

open Render (rows HeadedBy)
open ClassicBasic.Numbering (lineAt Aimed Known firstLine)

namespace Compiled

/-- Whether `v` is the number that heads one of the lines of the code. -/
def Heads (c : Compiled) (v : Text) : Prop :=
  ∃ (i : Nat) (row : List Token) (text : Text) (n : Int), (rows c.parsed)[i]? = some row ∧
    c.code[i]? = some text ∧ HeadedBy n row ∧ v = Text.ofInt n ∧ v <+: text

/-- Whether every jump and every call goes to a line of the code. -/
def JumpsLand (c : Compiled) : Prop := ∀ t ∈ c.parsed, t.kind.isPlaceholder → c.Heads t.value

/-- Whether `v` is the number of a line that was counted and not cut: behind the last line of the
report (the second one only where numbers overflow), or in front of a first line without a number. -/
def Strays (scale : Numbering.Scale) (c : Compiled) (v : Text) : Prop :=
  (∀ i, i < c.infos.length → v ≠ Text.ofInt (lineAt scale (i + 1))) ∧
    (v = Text.ofInt (lineAt scale (c.infos.length + 1)) ∨
      v = Text.ofInt (lineAt scale (c.infos.length + 2)) ∨
      (¬c.Headed ∧ v = Text.ofInt (lineAt scale 0)))

def Closed (c : Compiled) : Prop :=
  ∃ front newline last, c.parsed = front ++ [newline, last] ∧ newline.kind = .newline

end Compiled

namespace Compile

variable {s : Setting} {o : Options} {listing : Listing} {c : Compiled} {σ τ : Session}
  {scale : Numbering.Scale} {second : Token} {tail : List Token} {K : Nat} {ended : List Int}

theorem Sheet.infos_length (h : Sheet scale c second tail K ended) :
    c.infos.length = ended.length - 1 := by
  rw [← List.length_tail, ← h.reported, List.length_map]

/-- The rows with a number are those of the report, behind at most one row without. -/
theorem Sheet.rows_eq (h : Sheet scale c second tail K ended) :
    ∃ front more, rows c.parsed = front ++ more ∧
      (∀ row ∈ front, ∀ t ∈ row, t.kind ≠ .lineNumber) ∧
      List.Forall₂ HeadedBy ended.tail more := by
  by_cases hk : second.kind = .newline
  · exact ⟨[], rows c.parsed, rfl, by simp, h.rows_headed hk⟩
  · rcases h.rows_unheaded hk with ⟨rfl, hnil⟩ | ⟨row, more, hrows, hrow, -, hmore⟩
    · exact ⟨[], [], hnil, by simp, .nil⟩
    · exact ⟨[row], more, hrows, by simpa using hrow, hmore⟩

/-- The numbers that head lines of the code are those of the report. -/
theorem Sheet.heads_iff (h : Sheet scale c second tail K ended)
    (hcode : ∃ d notes, c.code = (rows c.parsed).map (Render.line d o notes)) (v : Text) :
    c.Heads v ↔ ∃ i < c.infos.length, v = Text.ofInt (lineAt scale (i + 1)) := by
  obtain ⟨d, notes, hcode⟩ := hcode
  obtain ⟨front, more, hrows, hfront, hmore⟩ := h.rows_eq
  have hlen : c.infos.length = ended.tail.length := by rw [← h.reported, List.length_map]
  have hended {i : Nat} (hi : i < ended.tail.length) :
      ended.tail[i] = lineAt scale (i + 1) := by
    rw [h.follows.ended_eq.1 (i + 1) ended.tail[i] (by simp), Nat.zero_add]
  constructor
  · rintro ⟨i, row, text, n, hrow, -, hn, rfl, -⟩
    rcases List.mem_append.1 (hrows ▸ List.mem_of_getElem? hrow) with hmem | hmem
    · obtain ⟨t, left, rfl, hk, -⟩ := hn
      exact absurd hk (hfront _ hmem t List.mem_cons_self)
    · obtain ⟨j, hj, rfl⟩ := List.getElem_of_mem hmem
      have hlt : j < ended.tail.length := by rwa [hmore.length_eq]
      have hm : HeadedBy ended.tail[j] more[j] := hmore.get hlt hj
      rw [hended hlt] at hm
      obtain ⟨t, left, heq, -, hv⟩ := hn
      obtain ⟨t', left', heq', -, hv'⟩ := hm
      obtain rfl : t = t' := (List.cons.inj (heq.symm.trans heq')).1
      exact ⟨j, by rwa [hlen], hv.symm.trans hv'⟩
  · rintro ⟨i, hi, rfl⟩
    have hlt : i < ended.tail.length := by rwa [← hlen]
    have hj : i < more.length := by rwa [← hmore.length_eq]
    have hm : HeadedBy ended.tail[i] more[i] := hmore.get hlt hj
    rw [hended hlt] at hm
    have hrow : (rows c.parsed)[front.length + i]? = some more[i] := by simp [hrows, hj]
    obtain ⟨text, htext, -⟩ := Render.line_headed d o notes hm
    refine ⟨front.length + i, more[i], _, _, hrow, ?_, hm, rfl, List.prefix_append _ text⟩
    rw [hcode, List.getElem?_map, hrow, Option.map_some, htext]

/-- The numbers that placeholders become: of a line of the report, or of a line at one of the ends of
the program that was counted. -/
theorem Sheet.target (h : Sheet scale c second tail K ended) {t : Token} (ht : t ∈ c.parsed)
    (hk : t.kind.isPlaceholder) :
    (∃ i < c.infos.length, t.value = Text.ofInt (lineAt scale (i + 1))) ∨
      t.value = Text.ofInt (lineAt scale (c.infos.length + 1)) ∨
      t.value = Text.ofInt (lineAt scale (c.infos.length + 2)) ∨
      (¬c.Headed ∧ t.value = Text.ofInt (lineAt scale 0)) := by
  obtain ⟨start, hparsed, hstart⟩ := h.parsed
  obtain ⟨-, hlo, hhi⟩ := h.follows.ended_eq
  have hlen := h.infos_length
  rw [hparsed] at ht
  rcases List.mem_cons.1 ht with rfl | ht
  · simp [hstart, Kind.isPlaceholder] at hk
  obtain ⟨n, hn, hv⟩ := h.targets t ht hk
  rw [hv]
  rcases hn with ⟨i, hfirst, hi, rfl⟩ | ⟨rfl, -⟩
  · rcases Nat.eq_zero_or_pos i with rfl | hpos
    · refine .inr (.inr (.inr ⟨?_, rfl⟩))
      rw [h.headed_iff]
      intro hnl
      simp [firstLine, hnl] at hfirst
    · obtain ⟨j, rfl⟩ : ∃ j, i = j + 1 := ⟨i - 1, by omega⟩
      by_cases hj : j < c.infos.length
      · exact .inl ⟨j, hj, rfl⟩
      · obtain rfl : j = c.infos.length := by omega
        exact .inr (.inl rfl)
  · by_cases hK : K = c.infos.length
    · exact .inr (.inl (by rw [hK]))
    · obtain rfl : K = c.infos.length + 1 := by omega
      exact .inr (.inr (.inl rfl))

/-- In a program whose first line end is in place and whose last line is ended, every jump lands if
the numbers fit a word with one to spare. -/
theorem jumpsLand_of_closed (h : ofListing s o listing σ = .ok c τ) (hhead : c.Headed)
    (hclosed : c.Closed) (hstart : 0 ≤ o.scale.start) (hstep : 1 ≤ o.scale.step)
    (hfit : o.scale.start + (c.infos.length + 1) * o.scale.step < Word.half) : c.JumpsLand := by
  obtain ⟨second, tail, K, ended, hs⟩ := exists_sheet h
  obtain ⟨notes, hcode⟩ := code_eq h
  obtain ⟨start, hparsed, hprogram⟩ := hs.parsed
  have hnl := hs.headed_iff.1 hhead
  have hK : ended.length = K + 1 := by
    obtain ⟨front, newline, last, heq, hk⟩ := hclosed
    rw [hparsed] at heq
    cases front with
    | nil =>
      obtain ⟨rfl, -⟩ := List.cons.inj heq
      simp [hk] at hprogram
    | cons u front =>
      have := hs.follows.closed (List.cons.inj heq).2 hk
      omega
  have hlen := hs.infos_length
  intro t ht hk
  rw [hs.heads_iff ⟨_, _, hcode⟩]
  rw [hparsed] at ht
  rcases List.mem_cons.1 ht with rfl | ht
  · simp [hprogram, Kind.isPlaceholder] at hk
  obtain ⟨n, hn, hv⟩ := hs.targets t ht hk
  rw [hv]
  rcases hn with ⟨i, hfirst, hi, rfl⟩ | ⟨rfl, hle⟩
  · simp only [firstLine, hnl, if_true] at hfirst
    refine ⟨i - 1, by omega, ?_⟩
    rw [Nat.sub_add_cancel hfirst]
  · -- the number behind the last line is greater, so no way out of a loop leads there
    have hm : c.infos.length = K := by omega
    rw [hm] at hfit
    have hpos : 0 ≤ (K : Int) * o.scale.step := Int.mul_nonneg (by omega) (by omega)
    have hsplit : ((K : Int) + 1) * o.scale.step = K * o.scale.step + o.scale.step := by ring
    have hless : ((K : Int) - 1) * o.scale.step = K * o.scale.step - o.scale.step := by ring
    have hhalf : (0 : Int) < Word.half := by decide
    have hnext : lineAt o.scale (K + 1) = o.scale.start + K * o.scale.step := by
      simp only [lineAt, Nat.cast_add, Nat.cast_one, add_sub_cancel_right]
      exact wrap_eq_iff.2 ⟨by omega, by omega⟩
    have hlast : lineAt o.scale K = o.scale.start + ((K : Int) - 1) * o.scale.step :=
      wrap_eq_iff.2 ⟨by omega, by omega⟩
    omega

/-- Every jump of a compiled program lands exactly when none goes to a line that was counted and not
cut. -/
theorem jumpsLand_iff (h : ofListing s o listing σ = .ok c τ) :
    c.JumpsLand ↔ ∀ t ∈ c.parsed, t.kind.isPlaceholder → ¬c.Strays o.scale t.value := by
  obtain ⟨second, tail, K, ended, hs⟩ := exists_sheet h
  obtain ⟨notes, hcode⟩ := code_eq h
  constructor
  · rintro hland t ht hk ⟨hno, -⟩
    obtain ⟨i, hi, hv⟩ := (hs.heads_iff ⟨_, _, hcode⟩ _).1 (hland t ht hk)
    exact hno i hi hv
  · intro hstay t ht hk
    rw [hs.heads_iff ⟨_, _, hcode⟩]
    by_contra hno
    refine hstay t ht hk ⟨fun i hi hv => hno ⟨i, hi, hv⟩, ?_⟩
    rcases hs.target ht hk with hyes | hend
    · exact absurd hyes hno
    · exact hend

def targets (c : Compiled) : List Text :=
  (c.parsed.filter fun t => t.kind.isPlaceholder).map Token.value

theorem mem_targets {t : Token} (ht : t ∈ c.parsed) (hk : t.kind.isPlaceholder) :
    t.value ∈ targets c :=
  List.mem_map_of_mem (List.mem_filter.2 ⟨ht, hk⟩)

theorem label_in_the_middle_jumpsLand :
    ∃ c τ, ofListing (lone .msx) { header := false }
      (Listing.ofText "goto \x7ba\x7d\n\x7ba\x7d\nprint 1" "/main" 4) {} = .ok c τ ∧
      c.code = ["10 goto 20", "20 print 1"] ∧ c.JumpsLand := by
  have hrun : (outcome (lone .msx) { header := false }
      (Listing.ofText "goto \x7ba\x7d\n\x7ba\x7d\nprint 1" "/main" 4)).map
        (fun c => (c.code, targets c, c.infos.length)) =
      some (["10 goto 20".toList, "20 print 1".toList], ["20".toList], 2) := by decide +kernel
  obtain ⟨c, hc, he⟩ := Option.map_eq_some_iff.1 hrun
  obtain ⟨τ, hτ⟩ := exists_of_outcome hc
  simp only [Prod.mk.injEq] at he
  refine ⟨c, τ, hτ, he.1, (jumpsLand_iff hτ).2 ?_⟩
  rintro t ht hk ⟨hno, -⟩
  have hv := mem_targets ht hk
  rw [he.2.1, List.mem_singleton] at hv
  refine hno 1 (by omega) ?_
  rw [hv]
  decide

/-- A label on the last line that nothing follows is counted as a line, and the line is not cut. -/
theorem label_at_the_end_not_jumpsLand :
    ∃ c τ, ofListing (lone .msx) { header := false }
      (Listing.ofText "goto \x7ba\x7d\n\x7ba\x7d" "/main" 4) {} = .ok c τ ∧
      c.code = ["10 goto 20"] ∧ ¬c.JumpsLand := by
  have hrun : (outcome (lone .msx) { header := false }
      (Listing.ofText "goto \x7ba\x7d\n\x7ba\x7d" "/main" 4)).map
        (fun c => (c.code, targets c)) =
      some (["10 goto 20".toList], ["20".toList]) := by decide +kernel
  obtain ⟨c, hc, he⟩ := Option.map_eq_some_iff.1 hrun
  obtain ⟨τ, hτ⟩ := exists_of_outcome hc
  simp only [Prod.mk.injEq] at he
  refine ⟨c, τ, hτ, he.1, fun hland => ?_⟩
  have hmem : "20".toList ∈ targets c := by simp [he.2]
  obtain ⟨t, ht, hv⟩ := List.mem_map.1 hmem
  obtain ⟨ht, hk⟩ := List.mem_filter.1 ht
  obtain ⟨i, row, text, n, -, htext, -, -, hp⟩ := hland t ht hk
  have hone : text = "10 goto 20".toList := by
    simpa [he.1] using List.mem_of_getElem? htext
  rw [hv, hone] at hp
  exact absurd hp (by decide)

end Compile

end ClassicBasic
