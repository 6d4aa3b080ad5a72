import ClassicBasic.Proofs.Include
import ClassicBasic.Proofs.Rows

/-!
# A compiled program

A compilation that succeeds has gone through all its stages. Its finished tokens are laid out in
lines, its report lists the lines that are ended, and its code has a line for each of its rows.
-/

set_option autoImplicit false

namespace ClassicBasic

/-- Whether the first line end of a program is still in place, so that its first line is numbered. -/
def Compiled.Headed (c : Compiled) : Prop := (c.parsed[1]?).map Token.kind = some .newline

instance (c : Compiled) : Decidable c.Headed := inferInstanceAs (Decidable (_ = _))

namespace Compile

/-- The tokens that are numbered: the program, behind its introduction if there is one. -/
def whole (o : Options) (merged : List Token) : List Token :=
  if o.header then Numbering.withHeader merged else merged

/-- The stages of a compilation that succeeds, with the sessions between them as far as they differ
in the names of variables. -/
structure Passes (s : Setting) (o : Options) (listing : Listing) (σ : Session) (c : Compiled)
    (τ : Session) (merged : List Token) (numbered : Numbering.Numbered) (before after : Session) :
    Prop where
  lexed : Lexer.lex s.dialect listing = .ok c.lexed
  converted : Branch.convert s s.shelf.size (Branch.main s) c.lexed before = .ok merged after
  numbering : ∃ ready final, ready.naming = after.naming ∧ τ.naming = final.naming ∧
    Numbering.number s.dialect o.scale (whole o merged) ready = .ok numbered final
  finished : Touch.finish s.dialect o numbered.tokens = .ok c.parsed
  rendered : Render.lines s.dialect o numbered.notes c.parsed = .ok c.code
  reported : c.infos = numbered.infos.drop 1
  started : before.naming = σ.naming

variable {s : Setting} {o : Options} {listing : Listing} {c : Compiled} {σ τ : Session}

theorem exists_passes (h : ofListing s o listing σ = .ok c τ) :
    ∃ merged numbered before after, Passes s o listing σ c τ merged numbered before after := by
  unfold ofListing at h
  obtain ⟨_, σ₁, h₁, h⟩ := Conversion.bind_eq_ok_iff.1 h
  obtain ⟨lexed, σ₂, h₂, h⟩ := Conversion.bind_eq_ok_iff.1 h
  obtain ⟨_, σ₃, h₃, h⟩ := Conversion.bind_eq_ok_iff.1 h
  obtain ⟨_, σ₄, h₄, h⟩ := Conversion.bind_eq_ok_iff.1 h
  obtain ⟨merged, σ₅, h₅, h⟩ := Conversion.bind_eq_ok_iff.1 h
  obtain ⟨_, σ₆, h₆, h⟩ := Conversion.bind_eq_ok_iff.1 h
  obtain ⟨_, σ₇, h₇, h⟩ := Conversion.bind_eq_ok_iff.1 h
  obtain ⟨numbered, σ₈, h₈, h⟩ := Conversion.bind_eq_ok_iff.1 h
  obtain ⟨_, σ₉, h₉, h⟩ := Conversion.bind_eq_ok_iff.1 h
  obtain ⟨parsed, σ₁₀, h₁₀, h⟩ := Conversion.bind_eq_ok_iff.1 h
  obtain ⟨_, σ₁₁, h₁₁, h⟩ := Conversion.bind_eq_ok_iff.1 h
  obtain ⟨_, σ₁₂, h₁₂, h⟩ := Conversion.bind_eq_ok_iff.1 h
  obtain ⟨code, σ₁₃, h₁₃, h⟩ := Conversion.bind_eq_ok_iff.1 h
  obtain ⟨_, σ₁₄, h₁₄, h⟩ := Conversion.bind_eq_ok_iff.1 h
  obtain ⟨_, σ₁₅, h₁₅, hend⟩ := Conversion.bind_eq_ok_iff.1 h
  obtain ⟨hlexed, e₂⟩ := Conversion.ofExcept_eq_ok_iff.1 h₂
  obtain ⟨hparsed, e₁₀⟩ := Conversion.ofExcept_eq_ok_iff.1 h₁₀
  obtain ⟨hcode, e₁₃⟩ := Conversion.ofExcept_eq_ok_iff.1 h₁₃
  obtain ⟨rfl, e₁₅⟩ := Conversion.pure_eq_ok_iff.1 hend
  refine ⟨merged, numbered, σ₄, σ₅, hlexed, h₅, ⟨σ₇, σ₈, ?_, ?_, h₈⟩, hparsed, hcode, rfl, ?_⟩
  · rw [Conversion.naming_note h₇, Conversion.naming_checkpoint h₆]
  · rw [← e₁₅, Conversion.naming_note h₁₅, Conversion.naming_note h₁₄, ← e₁₃,
      Conversion.naming_note h₁₂, Conversion.naming_note h₁₁, ← e₁₀, Conversion.naming_note h₉]
  · rw [Conversion.naming_note h₄, Conversion.naming_note h₃, ← e₂, Conversion.naming_note h₁]

/-- An introduction comes between the first two tokens and the rest, and it ends with a line end. -/
theorem whole_cons (o : Options) (start second : Token) (rest : List Token) :
    ∃ lead, whole o (start :: second :: rest) = start :: second :: (lead ++ rest) ∧
      (∀ t ∈ lead, t.kind = .remark ∨ t.kind = .remarkText ∨ t.kind = .newline) ∧
      (lead = [] ∨ lead.getLast?.map Token.kind = some .newline) := by
  unfold whole
  split
  · refine ⟨Numbering.headerTexts.flatMap (Numbering.remarkLine start.pos), rfl, ?_, .inr rfl⟩
    intro t ht
    obtain ⟨text, -, ht⟩ := List.mem_flatMap.1 ht
    simp only [Numbering.remarkLine, List.mem_cons, List.not_mem_nil, or_false] at ht
    rcases ht with rfl | rfl | rfl <;> simp
  · exact ⟨[], rfl, by simp, .inl rfl⟩

open ClassicBasic.Numbering (Follows Aimed lineAt firstLine)

structure Sheet (scale : Numbering.Scale) (c : Compiled) (second : Token) (tail : List Token)
    (K : Nat) (ended : List Int) : Prop where
  parsed : ∃ start, c.parsed = start :: second :: tail ∧ start.kind = .program
  kind : second.kind = .newline ∨ second.kind = .separator
  follows : Follows scale 0 K (second :: tail) ended
  reported : c.infos.map LineInfo.number = ended.tail
  targets : ∀ t ∈ second :: tail, t.kind.isPlaceholder →
    ∃ n, Aimed scale (firstLine second) K n ∧ t.value = Text.ofInt n

/-- Every program that is numbered is laid out in lines, and its compound assignments are made of
their signs. -/
theorem numbered_layout {lexed merged : List Token} {depth : Nat} {b : Branch}
    {numbered : Numbering.Numbered} {before after ready final : Session}
    (hx : Lexer.lex s.dialect listing = .ok lexed)
    (hm : Branch.convert s depth b lexed before = .ok merged after)
    (hn : Numbering.number s.dialect o.scale (whole o merged) ready = .ok numbered final) :
    ∃ start second rest tail K, start.kind = .program ∧
      (second.kind = .newline ∨ second.kind = .separator) ∧
      numbered.tokens = start :: second :: tail ∧
      Numbering.Layout o.scale (firstLine second) K (second :: rest) (second :: tail)
        (numbered.infos.map LineInfo.number) ∧
      ∀ t ∈ second :: tail, t.kind = .compound → t.value ⊆ Dialect.compoundSigns := by
  have hset := Branch.convert_settled hx hm
  obtain ⟨start, second, rest, rfl, hstart, hkind⟩ := hset.seated.exists_cons
  have hlaw : ∀ t ∈ second :: rest, t.Lawful s.dialect := fun t ht =>
    hset.lawful t (List.mem_reverse.2 (List.mem_cons_of_mem _ ht))
  obtain ⟨lead, hwhole, hlead, -⟩ := whole_cons o start second rest
  rw [hwhole] at hn
  -- the introduction is made of remarks, the rest of lawful tokens
  have hunnumbered : ∀ t ∈ lead ++ rest, t.kind ≠ .lineNumber := by
    intro t ht
    rcases List.mem_append.1 ht with ht | ht
    · rcases hlead t ht with hk | hk | hk <;> simp [hk]
    · exact (hlaw t (List.mem_cons_of_mem _ ht)).unnumbered
  have hcompound : ∀ t ∈ second :: (lead ++ rest), t.kind = .compound →
      t.value ⊆ Dialect.compoundSigns := by
    intro t ht hk
    have hl : t.Lawful s.dialect := by
      rcases List.mem_cons.1 ht with rfl | ht
      · exact hlaw t List.mem_cons_self
      · rcases List.mem_append.1 ht with ht | ht
        · rcases hlead t ht with h | h | h <;> simp [h] at hk
        · exact hlaw t (List.mem_cons_of_mem _ ht)
    exact Dialect.accepts_compound (hk ▸ hl.classified (by rw [hk]; rfl))
  obtain ⟨K, tail, htokens, hlay⟩ := Numbering.number_layout hn hstart hkind hunnumbered
  exact ⟨start, second, _, tail, K, hstart, hkind, htokens, hlay,
    fun t ht hk => hcompound t (hlay.compounds t ht hk) hk⟩

theorem exists_sheet (h : ofListing s o listing σ = .ok c τ) :
    ∃ second tail K ended, Sheet o.scale c second tail K ended := by
  obtain ⟨merged, numbered, before, after, hp⟩ := exists_passes h
  obtain ⟨ready, final, -, -, hnum⟩ := hp.numbering
  obtain ⟨start, second, rest, tail, K, hstart, hkind, htokens, hlay, hcompound⟩ :=
    numbered_layout hp.lexed hp.converted hnum
  have hfin := hp.finished
  rw [htokens] at hfin
  obtain ⟨second', tail', hparsed, hsecond, hf, hcar⟩ := Touch.finish_follows hlay.follows
    (fun t ht hk hr => absurd (hcompound t ht hk hr) (by decide)) hkind hfin
  refine ⟨second', tail', K, _, ⟨start, hparsed, hstart⟩, hsecond ▸ hkind, hf, ?_, ?_⟩
  · rw [hp.reported, List.map_drop, List.drop_one]
  · intro t ht hk
    obtain ⟨u, hu, huk, hval⟩ := hcar t ht hk
    obtain ⟨n, hn, hv⟩ := hlay.targets u hu huk
    have hlo : firstLine second' = firstLine second := by simp [firstLine, hsecond]
    rw [hlo]
    refine ⟨n, hn, ?_⟩
    rcases hval with hval | hval
    · rw [hval, hv]
    · rw [hval, hv, Text.upper_ofInt]

theorem code_eq (h : ofListing s o listing σ = .ok c τ) :
    ∃ notes, c.code = (Render.rows c.parsed).map (Render.line s.dialect o notes) := by
  obtain ⟨merged, numbered, before, after, hp⟩ := exists_passes h
  exact ⟨numbered.notes, Render.lines_eq hp.rendered⟩

open Render (rows rowsFrom HeadedBy)

variable {scale : Numbering.Scale} {second : Token} {tail : List Token} {K : Nat}
  {ended : List Int}

theorem Sheet.headed_iff (h : Sheet scale c second tail K ended) :
    c.Headed ↔ second.kind = .newline := by
  obtain ⟨start, hp, -⟩ := h.parsed
  simp [Compiled.Headed, hp]

/-- With its first line end in place, every row of a program is headed by the number of a line that
is reported. -/
theorem Sheet.rows_headed (h : Sheet scale c second tail K ended) (hk : second.kind = .newline) :
    List.Forall₂ HeadedBy ended.tail (rows c.parsed) := by
  obtain ⟨start, hp, -⟩ := h.parsed
  have hf := h.follows
  rw [rows, hp, List.drop_succ_cons, List.drop_succ_cons, List.drop_zero]
  cases hf with
  | last he => simp [hk] at he
  | close _ hu => simp [rowsFrom, hu]
  | token _ hn _ _ => exact absurd hk hn
  | line _ hu hv hf =>
    simp only [rowsFrom, hu, hv, reduceCtorEq, if_false, Text.ofInt_ne_nil, List.tail_cons]
    exact Render.rowsFrom_headed hf ⟨_, [], rfl, hu, hv⟩

theorem Sheet.rows_unheaded (h : Sheet scale c second tail K ended) (hk : second.kind ≠ .newline) :
    (ended = [] ∧ rows c.parsed = []) ∨
      ∃ row more, rows c.parsed = row :: more ∧ (∀ t ∈ row, t.kind ≠ .lineNumber) ∧ ended ≠ [] ∧
        List.Forall₂ HeadedBy ended.tail more := by
  obtain ⟨start, hp, -⟩ := h.parsed
  have hf := h.follows
  rw [rows, hp, List.drop_succ_cons, List.drop_succ_cons, List.drop_zero]
  cases hf with
  | last he => rcases h.kind with hs | hs <;> simp [hs] at he
  | close hn => exact absurd hn hk
  | token _ _ _ hf => exact Render.rowsFrom_unheaded hf (by simp)
  | line hn => exact absurd hn hk

/-- A setting without files to include. -/
def lone (d : Dialect) : Setting :=
  { dialect := d, shelf := Shelf.ofEntries [], home := "/", main := "/main" }

/-- What a compilation from a fresh session comes to. -/
def outcome (s : Setting) (o : Options) (listing : Listing) : Option Compiled :=
  match ofListing s o listing {} with
  | .ok c _ => some c
  | .error _ _ => none

theorem exists_of_outcome (h : outcome s o listing = some c) :
    ∃ τ, ofListing s o listing {} = .ok c τ := by
  unfold outcome at h
  split at h
  · cases h
    exact ⟨_, ‹_›⟩
  · cases h

end Compile

end ClassicBasic
