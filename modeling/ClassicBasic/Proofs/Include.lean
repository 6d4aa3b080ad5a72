import ClassicBasic.Proofs.Merge
import Mathlib.Data.List.TakeDrop

/-!
# The first three stages on a file

A file that is converted went through the three stages one after the other, with the names of
variables handed on from each to the next, and so did every file it includes. What holds of the
output of one file therefore holds of all of them, by the depth of the inclusion.
-/

set_option autoImplicit false

namespace ClassicBasic.Branch

/-- How the files that a file includes are converted, `depth` of them inside one another at most. -/
def inner (s : Setting) : Nat → Branch → List Token → Conversion (List Token)
  | 0 => fun _ _ => throw .exhausted
  | depth + 1 => convert s depth

/-- The first two stages on the tokens of a file. -/
def front (s : Setting) (b : Branch) (lexed : List Token) : Conversion (List Token) := do
  Conversion.checkpoint
  Conversion.note b.quiet (.item "Pass 1.")
  let (tables, carried) ← Directive.carryOut s.dialect b.quiet lexed
  Conversion.checkpoint
  Conversion.note b.quiet (.item "Pass 2.")
  let placed ← Conversion.ofExcept (Label.place s.dialect tables carried)
  Conversion.note b.quiet (.item "Pass 3.")
  return placed

variable {s : Setting} {depth : Nat} {b : Branch} {σ τ : Session}

/-- A file is converted by its first two stages and the third one behind them. -/
theorem convert_eq (s : Setting) (depth : Nat) (b : Branch) (lexed : List Token) :
    convert s depth b lexed =
      (front s b lexed >>= Merge.merge s.dialect b.quiet (splice s b (inner s depth))) := by
  cases depth <;>
  · unfold convert front
    simp only [bind_assoc, pure_bind]
    rfl

theorem convert_cases {lexed merged : List Token} (h : convert s depth b lexed σ = .ok merged τ) :
    ∃ placed ready, front s b lexed σ = .ok placed ready ∧
      Merge.merge s.dialect b.quiet (splice s b (inner s depth)) placed ready = .ok merged τ := by
  rw [convert_eq] at h
  exact Conversion.bind_eq_ok_iff.1 h

theorem front_cases {lexed placed : List Token} (h : front s b lexed σ = .ok placed τ) :
    ∃ tables carried before after,
      Directive.carryOut s.dialect b.quiet lexed before = .ok (tables, carried) after ∧
      Label.place s.dialect tables carried = .ok placed ∧
      before.naming = σ.naming ∧ τ.naming = after.naming := by
  unfold front at h
  obtain ⟨_, σ₁, hc, h⟩ := Conversion.bind_eq_ok_iff.1 h
  obtain ⟨_, σ₂, hn, h⟩ := Conversion.bind_eq_ok_iff.1 h
  obtain ⟨⟨tables, carried⟩, σ₃, hd, h⟩ := Conversion.bind_eq_ok_iff.1 h
  obtain ⟨_, σ₄, hc', h⟩ := Conversion.bind_eq_ok_iff.1 h
  obtain ⟨_, σ₅, hn', h⟩ := Conversion.bind_eq_ok_iff.1 h
  obtain ⟨placed', σ₆, hl, h⟩ := Conversion.bind_eq_ok_iff.1 h
  obtain ⟨_, σ₇, hn'', hr⟩ := Conversion.bind_eq_ok_iff.1 h
  obtain ⟨hp, rfl⟩ := Conversion.ofExcept_eq_ok_iff.1 hl
  obtain ⟨rfl, he⟩ := Conversion.pure_eq_ok_iff.1 hr
  refine ⟨tables, carried, σ₂, σ₃, hd, hp, ?_, ?_⟩
  · rw [Conversion.naming_note hn, Conversion.naming_checkpoint hc]
  · rw [← he, Conversion.naming_note hn'', Conversion.naming_note hn', Conversion.naming_checkpoint hc']

theorem splice_cases {front : Branch → List Token → Conversion (List Token)}
    {directive name : Token} {spliced : List Token}
    (h : splice s b front directive name σ = .ok spliced τ) :
    ∃ path listing lexed merged ready, Lexer.lex s.dialect listing = .ok lexed ∧
      front (b.enter s path) lexed ready = .ok merged τ ∧ spliced = body merged ∧
      ready.naming = σ.naming ∧ name.kind = .string := by
  unfold splice at h
  obtain ⟨_, σ₁, hc, h⟩ := Conversion.bind_eq_ok_iff.1 h
  obtain ⟨⟨path, listing⟩, σ₂, hl, h⟩ := Conversion.bind_eq_ok_iff.1 h
  obtain ⟨hf, rfl⟩ := Conversion.ofExcept_eq_ok_iff.1 hl
  obtain ⟨_, σ₃, hn, h⟩ := Conversion.bind_eq_ok_iff.1 h
  obtain ⟨lexed, σ₄, hr, h⟩ := Conversion.bind_eq_ok_iff.1 h
  obtain ⟨hx, rfl⟩ := Conversion.ofExcept_eq_ok_iff.1 hr
  obtain ⟨merged, σ₅, hm, h⟩ := Conversion.bind_eq_ok_iff.1 h
  obtain ⟨rfl, rfl⟩ := Conversion.pure_eq_ok_iff.1 h
  refine ⟨path, listing, lexed, merged, σ₃, hx, hm, rfl, ?_, ?_⟩
  · rw [Conversion.naming_note hn, Conversion.naming_checkpoint hc]
  · simp only [named] at hf
    split at hf
    · cases hf
    · rename_i hk
      simp only [not_or, Decidable.not_not] at hk
      exact hk.1

theorem mem_dropLast_of_mem_body {tokens : List Token} {t : Token} (h : t ∈ body tokens) :
    t ∈ tokens.dropLast := by
  have inner {u : Token} (hu : u ∈ (tokens.drop 2).dropLast) : u ∈ tokens.dropLast := by
    rw [List.dropLast_drop_eq_drop_dropLast] at hu
    exact List.mem_of_mem_drop hu
  simp only [body] at h
  split at h
  · exact inner (List.dropLast_subset _ h)
  · exact inner h

theorem mem_of_mem_body {tokens : List Token} {t : Token} (h : t ∈ body tokens) : t ∈ tokens :=
  List.dropLast_subset _ (mem_dropLast_of_mem_body h)

theorem body_within (tokens : List Token) : body tokens <:+: tokens := by
  have hlast (l : List Token) : l.dropLast <:+: l := by
    obtain ⟨rest, h⟩ := List.dropLast_prefix l
    exact ⟨[], rest, h⟩
  have hinner : (tokens.drop 2).dropLast <:+: tokens :=
    (hlast _).trans (List.drop_suffix 2 tokens).isInfix
  simp only [body]
  split
  · exact (hlast _).trans hinner
  · exact hinner

open Entry in
theorem front_sound {lexed placed : List Token} {listing : Listing}
    (hx : Lexer.lex s.dialect listing = .ok lexed) (h : front s b lexed σ = .ok placed τ) :
    Sound s.dialect placed.reverse := by
  obtain ⟨tables, carried, _, _, hd, hp, -, -⟩ := front_cases h
  obtain ⟨htables, hcarried⟩ := Directive.carryOut_sound hx hd
  exact Label.place_sound htables hcarried hp

/-- What the third stage of a file gives when it holds of the files that are included is what every
converted file gives. -/
theorem convert_induct {P : Branch → List Token → List Token → Session → Session → Prop}
    (hstep : ∀ (depth : Nat) (b : Branch) (listing : Listing) (lexed placed merged : List Token)
      (σ ready τ : Session), Lexer.lex s.dialect listing = .ok lexed →
      front s b lexed σ = .ok placed ready →
      Merge.merge s.dialect b.quiet (splice s b (inner s depth)) placed ready = .ok merged τ →
      (∀ directive name σ spliced τ, splice s b (inner s depth) directive name σ = .ok spliced τ →
        ∃ path lexed merged ready, P (b.enter s path) lexed merged ready τ ∧
          spliced = body merged ∧ ready.naming = σ.naming) →
      P b lexed merged σ τ)
    {listing : Listing} {lexed merged : List Token} (hx : Lexer.lex s.dialect listing = .ok lexed)
    (h : convert s depth b lexed σ = .ok merged τ) : P b lexed merged σ τ := by
  induction depth generalizing b listing lexed merged σ τ with
  | zero =>
    obtain ⟨placed, ready, hf, hm⟩ := convert_cases h
    refine hstep 0 b listing lexed placed merged σ ready τ hx hf hm ?_
    intro directive name σ spliced τ hs
    obtain ⟨_, _, _, _, _, _, hc, _⟩ := splice_cases hs
    exact absurd hc Conversion.throw_ne_ok
  | succ depth ih =>
    obtain ⟨placed, ready, hf, hm⟩ := convert_cases h
    refine hstep (depth + 1) b listing lexed placed merged σ ready τ hx hf hm ?_
    intro directive name σ spliced τ hs
    obtain ⟨path, listing', lexed', merged', ready', hx', hc, hb, hr, -⟩ := splice_cases hs
    exact ⟨path, lexed', merged', ready', ih hx' hc, hb, hr⟩

open Merge in
/-- The tokens of a converted file are lawful, whatever it includes, and below them are its start and
the first line end or a separator. -/
theorem convert_settled {listing : Listing} {lexed merged : List Token}
    (hx : Lexer.lex s.dialect listing = .ok lexed)
    (h : convert s depth b lexed σ = .ok merged τ) : Settled s.dialect merged.reverse := by
  refine convert_induct (P := fun _ _ merged _ _ => Settled s.dialect merged.reverse) ?_ hx h
  intro depth b listing lexed placed merged σ ready τ hx hf hm hs
  refine merge_settled ?_ (front_sound hx hf) hm
  intro t name σ spliced τ hspliced u hu
  obtain ⟨_, _, _, _, hsettled, rfl, -⟩ := hs _ _ _ _ _ hspliced
  exact hsettled.lawful u (List.mem_reverse.2 (mem_of_mem_body hu))

theorem splice_lawful {directive name : Token} {spliced : List Token}
    (h : splice s b (inner s depth) directive name σ = .ok spliced τ) :
    ∀ t ∈ spliced, t.Lawful s.dialect := by
  obtain ⟨path, listing, lexed, merged, ready, hx, hf, rfl, -, -⟩ := splice_cases h
  intro t ht
  cases depth with
  | zero => exact absurd hf Conversion.throw_ne_ok
  | succ depth =>
    exact (convert_settled hx hf).lawful t (List.mem_reverse.2 (mem_of_mem_body ht))

end ClassicBasic.Branch
