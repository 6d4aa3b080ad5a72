import ClassicBasic.Proofs.Compile

/-!
# One program in several layouts

The blanks around keywords and the remarks about labels are put in when the tokens of a finished
program are written. All stages in front go the same way, so two layouts of a program have the same
rows, and what is said about labels starts with its mark.
-/

set_option autoImplicit false

namespace ClassicBasic

namespace Touch

variable {d : Dialect} {o : Options} {strip report : Bool}

theorem run_layout (out input : List Token) :
    run d { o with stripSpaces := strip, labelReport := report } out input = run d o out input := by
  induction input generalizing out with
  | nil => rfl
  | cons t rest ih =>
    have htouch : touch d { o with stripSpaces := strip, labelReport := report } = touch d o := rfl
    simp only [run, htouch, ih]

theorem finish_layout (tokens : List Token) :
    finish d { o with stripSpaces := strip, labelReport := report } tokens = finish d o tokens := by
  cases tokens with
  | nil => rfl
  | cons start rest => exact run_layout [start] rest

end Touch

namespace Numbering

def Marked (text : Text) : Prop := ∃ c rest, text = c :: rest ∧ c ≠ ' '

variable {d : Dialect} {scale : Scale} {s s' last : State} {t next : Token} {σ τ : Session}

theorem State.note_marked {mark : Char} {value : Text} (hm : mark ≠ ' ')
    (h : ∀ n ∈ s.notes, Marked n.2) : ∀ n ∈ (s.note (mark :: value)).notes, Marked n.2 :=
  List.forall_mem_cons.2 ⟨⟨mark, value, rfl, hm⟩, h⟩

theorem step_marked (h : step scale s t next = .ok s') (hs : ∀ n ∈ s.notes, Marked n.2) :
    ∀ n ∈ s'.notes, Marked n.2 := by
  have jumped : ∀ n ∈ (jump scale.step s t).notes, Marked n.2 := by
    have hnotes : (jump scale.step s t).notes = (s.note (">" ++ t.value)).notes := by
      simp only [jump]
      split <;> split <;> rfl
    rw [hnotes]
    exact State.note_marked (by decide) hs
  unfold step at h
  split at h
  · unfold markLabel at h
    split at h
    · cases h
    · cases h
      exact State.note_marked (by decide) hs
  · cases h
    exact jumped
  · cases h
    exact jumped
  · cases h
    exact State.note_marked (by decide) hs
  · cases h
    exact State.note_marked (by decide) hs
  · cases h
    exact State.note_marked (by decide) hs
  · rcases endLine_cases h with ⟨-, rfl⟩ | ⟨-, rfl⟩ <;> exact hs
  · cases h
    exact hs

theorem walk_marked {input : List Token} (h : walk d scale s input σ = .ok last τ)
    (hs : ∀ n ∈ s.notes, Marked n.2) : ∀ n ∈ last.notes, Marked n.2 := by
  induction input generalizing s σ with
  | nil => exact absurd h Conversion.throw_ne_ok
  | cons t rest ih =>
    rcases walk_cases h with ⟨-, rfl, -⟩ | ⟨-, u, known, -, hw⟩ | ⟨-, -, s', hst, hw⟩
    · exact hs
    · exact ih hw hs
    · exact ih hw (step_marked hst hs)

theorem number_marked {tokens : List Token} {numbered : Numbered}
    (h : number d scale tokens σ = .ok numbered τ) : ∀ n ∈ numbered.notes, Marked n.2 := by
  cases tokens with
  | nil => exact absurd h Conversion.throw_ne_ok
  | cons start rest =>
    unfold number at h
    obtain ⟨last, ρ, hw, h⟩ := Conversion.bind_eq_ok_iff.1 h
    obtain ⟨_, _, -, hp⟩ := Conversion.bind_eq_ok_iff.1 h
    obtain ⟨rfl, -⟩ := Conversion.pure_eq_ok_iff.1 hp
    intro n hn
    exact walk_marked hw (by simp) n (List.mem_reverse.1 hn)

end Numbering

namespace Compile

variable {s : Setting} {o : Options} {strip report : Bool} {listing : Listing} {c : Compiled}
  {σ τ : Session}

/-- The stages of a compilation in front of the last one: the tokens read, the numbered program and
the tokens to be written. -/
def staged (s : Setting) (o : Options) (listing : Listing) :
    Conversion (List Token × Numbering.Numbered × List Token) := do
  Conversion.note false (.item "Lexing.")
  let lexed ← Conversion.ofExcept (Lexer.lex s.dialect listing)
  Conversion.note false (created lexed.length "tokens")
  Conversion.note false (.item "Parsing.")
  let merged ← Branch.convert s s.shelf.size (Branch.main s) lexed
  Conversion.checkpoint
  Conversion.note false (.item "Pass 4.")
  let numbered ← Numbering.number s.dialect o.scale (whole o merged)
  Conversion.note false (.item "Pass 5.")
  let parsed ← Conversion.ofExcept (Touch.finish s.dialect o numbered.tokens)
  Conversion.note false (created parsed.length "tokens")
  Conversion.note false (.item "Generating.")
  return (lexed, numbered, parsed)

theorem ofListing_eq (s : Setting) (o : Options) (listing : Listing) : ofListing s o listing = (do
    let (lexed, numbered, parsed) ← staged s o listing
    let code ← Conversion.ofExcept (Render.lines s.dialect o numbered.notes parsed)
    Conversion.note false (created code.length "lines")
    Conversion.note false (.item "Total: 0.0000s.")
    return { code, lexed, parsed, infos := numbered.infos.drop 1 }) := by
  unfold ofListing staged whole
  simp only [bind_assoc, pure_bind]

theorem staged_layout (s : Setting) (o : Options) (listing : Listing) :
    staged s { o with stripSpaces := strip, labelReport := report } listing = staged s o listing := by
  unfold staged
  simp only [Touch.finish_layout]
  rfl

theorem exists_staged
    (h : ofListing s { o with stripSpaces := strip, labelReport := report } listing σ = .ok c τ) :
    ∃ lexed numbered ρ, staged s o listing σ = .ok (lexed, numbered, c.parsed) ρ ∧
      (∀ n ∈ numbered.notes, Numbering.Marked n.2) ∧
      c.code = (Render.rows c.parsed).map
        (Render.line s.dialect { o with stripSpaces := strip, labelReport := report }
          numbered.notes) := by
  rw [ofListing_eq, staged_layout] at h
  obtain ⟨⟨lexed, numbered, parsed⟩, ρ, hst, h⟩ := Conversion.bind_eq_ok_iff.1 h
  obtain ⟨code, _, hcode, h⟩ := Conversion.bind_eq_ok_iff.1 h
  obtain ⟨_, _, -, h⟩ := Conversion.bind_eq_ok_iff.1 h
  obtain ⟨_, _, -, h⟩ := Conversion.bind_eq_ok_iff.1 h
  obtain ⟨rfl, -⟩ := Conversion.pure_eq_ok_iff.1 h
  refine ⟨lexed, numbered, ρ, hst, ?_, Render.lines_eq (Conversion.ofExcept_eq_ok_iff.1 hcode).1⟩
  unfold staged at hst
  obtain ⟨_, _, -, hst⟩ := Conversion.bind_eq_ok_iff.1 hst
  obtain ⟨_, _, -, hst⟩ := Conversion.bind_eq_ok_iff.1 hst
  obtain ⟨_, _, -, hst⟩ := Conversion.bind_eq_ok_iff.1 hst
  obtain ⟨_, _, -, hst⟩ := Conversion.bind_eq_ok_iff.1 hst
  obtain ⟨_, _, -, hst⟩ := Conversion.bind_eq_ok_iff.1 hst
  obtain ⟨_, _, -, hst⟩ := Conversion.bind_eq_ok_iff.1 hst
  obtain ⟨_, _, -, hst⟩ := Conversion.bind_eq_ok_iff.1 hst
  obtain ⟨_, _, hnum, hst⟩ := Conversion.bind_eq_ok_iff.1 hst
  obtain ⟨_, _, -, hst⟩ := Conversion.bind_eq_ok_iff.1 hst
  obtain ⟨_, _, -, hst⟩ := Conversion.bind_eq_ok_iff.1 hst
  obtain ⟨_, _, -, hst⟩ := Conversion.bind_eq_ok_iff.1 hst
  obtain ⟨_, _, -, hst⟩ := Conversion.bind_eq_ok_iff.1 hst
  obtain ⟨heq, -⟩ := Conversion.pure_eq_ok_iff.1 hst
  simp only [Prod.mk.injEq] at heq
  exact heq.2.1 ▸ Numbering.number_marked hnum

/-- Two layouts of a program write the same rows, with the same remarks about labels. -/
theorem exists_rows {strip' report' : Bool} {c' : Compiled} {τ' : Session}
    (h : ofListing s { o with stripSpaces := strip, labelReport := report } listing σ = .ok c τ)
    (h' : ofListing s { o with stripSpaces := strip', labelReport := report' } listing σ =
      .ok c' τ') :
    ∃ notes, (∀ n ∈ notes, Numbering.Marked n.2) ∧
      c.code = (Render.rows c.parsed).map
        (Render.line s.dialect { o with stripSpaces := strip, labelReport := report } notes) ∧
      c'.code = (Render.rows c.parsed).map
        (Render.line s.dialect { o with stripSpaces := strip', labelReport := report' } notes) := by
  obtain ⟨lexed, numbered, ρ, hst, hmarked, hcode⟩ := exists_staged h
  obtain ⟨lexed', numbered', ρ', hst', -, hcode'⟩ := exists_staged h'
  have hsame := hst.symm.trans hst'
  simp only [EStateM.Result.ok.injEq, Prod.mk.injEq] at hsame
  obtain ⟨⟨-, rfl, hparsed⟩, -⟩ := hsame
  exact ⟨numbered.notes, hmarked, hcode, hparsed ▸ hcode'⟩

end Compile

end ClassicBasic
