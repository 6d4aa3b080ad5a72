import ClassicBasic.Proofs.Compile

/-!
# Lines count up

The lines of a compiled program are numbered in equal steps from the first number on, and the report
has one entry for each of them. This is so exactly when the first line end of the program was not
joined away and the last number fits a word.
-/

set_option autoImplicit false

namespace ClassicBasic

open Render (rows HeadedBy StartsBlank)
open ClassicBasic.Numbering (lineAt)

/-- Line `i` of the code starts with the number `i` steps from the start, a blank or the end of the
line behind it, and entry `i` of the report, which has as many, carries that number. -/
def Compiled.CountsUp (scale : Numbering.Scale) (c : Compiled) : Prop :=
  c.infos.length = c.code.length ∧ ∀ (i : Nat) (text : Text), c.code[i]? = some text →
    (∃ tail, text = Text.ofInt (scale.start + i * scale.step) ++ tail ∧ StartsBlank tail) ∧
      (c.infos[i]?).map LineInfo.number = some (scale.start + i * scale.step)

namespace Compile

variable {s : Setting} {o : Options} {listing : Listing} {c : Compiled} {σ τ : Session}

theorem lineAt_eq (scale : Numbering.Scale) (i : Nat) :
    lineAt scale (i + 1) = wrap (scale.start + i * scale.step) := by
  simp [lineAt]

/-- A program whose first line end is in place has a numbered line for each entry of its report. -/
theorem Sheet.getElem?_code {scale : Numbering.Scale} {second : Token} {tail : List Token} {K : Nat}
    {ended : List Int} {notes : List (Int × Text)} {d : Dialect}
    (h : Sheet scale c second tail K ended) (hk : second.kind = .newline)
    (hcode : c.code = (rows c.parsed).map (Render.line d o notes)) (ho : o.stripSpaces = false) :
    c.infos.length = c.code.length ∧ ∀ (i : Nat) (text : Text), c.code[i]? = some text →
      (∃ tail, text = Text.ofInt (wrap (scale.start + i * scale.step)) ++ tail ∧
        StartsBlank tail) ∧
        (c.infos[i]?).map LineInfo.number = some (wrap (scale.start + i * scale.step)) := by
  have hrows := h.rows_headed hk
  have hlen : c.infos.length = ended.tail.length := by rw [← h.reported, List.length_map]
  refine ⟨?_, fun i text hi => ?_⟩
  · rw [hcode, List.length_map, hlen, hrows.length_eq]
  · rw [hcode, List.getElem?_map, Option.map_eq_some_iff] at hi
    obtain ⟨row, hrow, rfl⟩ := hi
    obtain ⟨hi, rfl⟩ := List.getElem?_eq_some_iff.1 hrow
    have hlt : i < ended.tail.length := by rwa [hrows.length_eq]
    have hn : ended.tail[i]? = some (wrap (scale.start + i * scale.step)) := by
      rw [List.getElem?_eq_getElem hlt, h.follows.ended_eq.1 (i + 1) ended.tail[i] (by simp),
        Nat.zero_add, lineAt_eq]
    have hhead : HeadedBy (wrap (scale.start + i * scale.step)) (rows c.parsed)[i] := by
      have := hrows.get hlt hi
      rwa [List.get_eq_getElem, List.getElem_eq_iff hlt |>.2 hn] at this
    obtain ⟨tail, htext, hblank⟩ := Render.line_headed d o notes hhead
    refine ⟨⟨tail, htext, hblank ho⟩, ?_⟩
    rw [← List.getElem?_map, h.reported, hn]

/-- The lines of a compiled program count up exactly when there are none, or the first line end is
in place and the last number fits a word. -/
theorem countsUp_iff (h : ofListing s o listing σ = .ok c τ) (hstart : 0 ≤ o.scale.start)
    (hstep : 1 ≤ o.scale.step) (ho : o.stripSpaces = false) :
    c.CountsUp o.scale ↔ c.code = [] ∨ (c.Headed ∧
      o.scale.start + ((c.code.length : Int) - 1) * o.scale.step < Word.half) := by
  obtain ⟨second, tail, K, ended, hs⟩ := exists_sheet h
  obtain ⟨notes, hcode⟩ := code_eq h
  rw [hs.headed_iff]
  by_cases hk : second.kind = .newline
  · obtain ⟨hlen, hlines⟩ := hs.getElem?_code hk hcode ho
    constructor
    · rintro ⟨-, hup⟩
      rcases List.eq_nil_or_concat c.code with hnil | ⟨front, text, hcons⟩
      · exact .inl hnil
      · refine .inr ⟨hk, ?_⟩
        have hlast : c.code[front.length]? = some text := by simp [hcons]
        have hn := (hup _ _ hlast).2
        rw [(hlines _ _ hlast).2, Option.some.injEq] at hn
        have hfit := (wrap_eq_iff.1 hn).2
        simpa [hcons] using hfit
    · intro hfit
      refine ⟨hlen, fun i text hi => ?_⟩
      have hlt : i < c.code.length := (List.getElem?_eq_some_iff.1 hi).1
      rcases hfit with hnil | ⟨-, hfit⟩
      · simp [hnil] at hi
      · have hle : (i : Int) * o.scale.step ≤ ((c.code.length : Int) - 1) * o.scale.step :=
          Int.mul_le_mul_of_nonneg_right (by omega) (by omega)
        have hpos : 0 ≤ (i : Int) * o.scale.step := Int.mul_nonneg (by omega) (by omega)
        have hw : wrap (o.scale.start + i * o.scale.step) = o.scale.start + i * o.scale.step :=
          wrap_eq_iff.2 ⟨by omega, by omega⟩
        have := hlines i text hi
        rwa [hw] at this
  · have hinfos : c.infos.length = ended.tail.length := by rw [← hs.reported, List.length_map]
    rcases hs.rows_unheaded hk with ⟨rfl, hrows⟩ | ⟨row, more, hrows, -, -, hmore⟩
    · have hnil : c.code = [] := by simp [hcode, hrows]
      refine ⟨fun _ => .inl hnil, fun _ => ⟨by simpa [hnil] using hinfos, ?_⟩⟩
      simp [hnil]
    · -- the line without a number is in the code but not in the report
      have hlen : c.code.length = c.infos.length + 1 := by
        rw [hcode, hrows, hinfos, hmore.length_eq]
        simp
      constructor
      · rintro ⟨heq, -⟩
        omega
      · rintro (hnil | ⟨hhead, -⟩)
        · simp [hnil] at hlen
        · exact absurd hhead hk

theorem two_lines_countUp :
    ∃ c τ, ofListing (lone .msx) { header := false }
      (Listing.ofText "print 1\nprint 2" "/main" 4) {} = .ok c τ ∧ c.CountsUp {} := by
  have hrun : (outcome (lone .msx) { header := false }
      (Listing.ofText "print 1\nprint 2" "/main" 4)).map (fun c => (decide c.Headed, c.code.length)) =
      some (true, 2) := by decide +kernel
  obtain ⟨c, hc, he⟩ := Option.map_eq_some_iff.1 hrun
  obtain ⟨τ, hτ⟩ := exists_of_outcome hc
  simp only [Prod.mk.injEq, decide_eq_true_eq] at he
  refine ⟨c, τ, hτ, (countsUp_iff hτ (by decide) (by decide) rfl).2 (.inr ⟨he.1, ?_⟩)⟩
  rw [he.2]
  decide

/-- A separator behind two empty lines takes the place of the first line end, and the line it starts
has neither a number nor an entry. -/
theorem joined_start_not_countsUp :
    ∃ c τ, ofListing (lone .msx) { header := false }
      (Listing.ofText "##\n##\n:print 1" "/main" 4) {} = .ok c τ ∧
      c.code = ["print 1"] ∧ c.infos = [] ∧ ¬c.CountsUp {} := by
  have hrun : (outcome (lone .msx) { header := false }
      (Listing.ofText "##\n##\n:print 1" "/main" 4)).map (fun c => (c.code, c.infos)) =
      some (["print 1".toList], []) := by decide +kernel
  obtain ⟨c, hc, he⟩ := Option.map_eq_some_iff.1 hrun
  obtain ⟨τ, hτ⟩ := exists_of_outcome hc
  simp only [Prod.mk.injEq] at he
  refine ⟨c, τ, hτ, he.1, he.2, ?_⟩
  rintro ⟨hlen, -⟩
  rw [he.1, he.2] at hlen
  cases hlen

end Compile

end ClassicBasic
