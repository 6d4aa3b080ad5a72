import ClassicBasic.Proofs.Compile

/-!
# The last two stages on lists of tokens

Numbering drops entries, puts numbers behind line ends and replaces the values of variables and
placeholders; the last touches replace one token after the other. What a finished program keeps of the
merged one is read off from that.
-/

set_option autoImplicit false

namespace ClassicBasic

namespace Numbering

/-- Whether `u` is `t`, or a variable or a placeholder in its place. -/
def Stands (t u : Token) : Prop :=
  u = t ∨ (u.kind = t.kind ∧ (t.kind = .identifier ∨ t.kind.isPlaceholder))

inductive Numbers : List Token → List Token → Prop
  | ending {t : Token} {rest : List Token} (ht : t.kind = .eof) : Numbers (t :: rest) [t]
  /-- An entry is gone. -/
  | entry {t : Token} {rest new : List Token} (ht : t.kind.isEntry) (h : Numbers rest new) :
      Numbers (t :: rest) new
  /-- A number comes behind a line end. -/
  | line {t number : Token} {rest new : List Token} (ht : t.kind = .newline)
      (hn : number.kind = .lineNumber) (h : Numbers rest new) :
      Numbers (t :: rest) (t :: number :: new)
  | token {t u : Token} {rest new : List Token} (hu : Stands t u) (h : Numbers rest new) :
      Numbers (t :: rest) (u :: new)

variable {d : Dialect} {scale : Scale} {σ τ : Session}

/-- The walk over a program puts out what resolves to its numbered tokens. -/
theorem walk_numbers {s last : State} {input : List Token}
    (h : walk d scale s input σ = .ok last τ) :
    ∃ emitted, last.out = emitted.reverse ++ s.out ∧
      ∀ tokens, List.Forall₂ (Resolved last) emitted tokens → Numbers input tokens := by
  induction input generalizing s σ with
  | nil => exact absurd h Conversion.throw_ne_ok
  | cons t rest ih =>
    rcases walk_cases h with ⟨he, rfl, rfl⟩ | ⟨hk, u, known, hn, hw⟩ | ⟨-, -, s', hst, hw⟩
    · refine ⟨[⟨t, none⟩], rfl, fun tokens hr => ?_⟩
      obtain ⟨u, _, hu, hnil, rfl⟩ := List.forall₂_cons_left_iff.1 hr
      obtain rfl := hu.eq_token
      cases hnil
      exact .ending he
    · obtain ⟨emitted, hout, hall⟩ := ih hw
      refine ⟨⟨u, none⟩ :: emitted, by simp [hout, State.emit], fun tokens hr => ?_⟩
      obtain ⟨v, new, hv, hnew, rfl⟩ := List.forall₂_cons_left_iff.1 hr
      obtain rfl := hv.eq_token
      exact .token (.inr ⟨shorten_kind hn, .inl hk⟩) (hall new hnew)
    · obtain ⟨emitted, hout, hall⟩ := ih hw
      obtain ⟨first, hfirst, ⟨he, rfl⟩ | ⟨hn, number, hl, rfl⟩ | ⟨p, rfl, hp⟩⟩ := step_emits hst
      · exact ⟨emitted, by simp [hout, hfirst], fun tokens hr => .entry he (hall tokens hr)⟩
      · refine ⟨⟨t, none⟩ :: ⟨number, none⟩ :: emitted, by simp [hout, hfirst], fun tokens hr => ?_⟩
        obtain ⟨v, more, hv, hmore, rfl⟩ := List.forall₂_cons_left_iff.1 hr
        obtain ⟨w, new, hw', hnew, rfl⟩ := List.forall₂_cons_left_iff.1 hmore
        obtain rfl := hv.eq_token
        obtain rfl := hw'.eq_token
        exact .line hn hl (hall new hnew)
      · refine ⟨p :: emitted, by simp [hout, hfirst], fun tokens hr => ?_⟩
        obtain ⟨v, new, hv, hnew, rfl⟩ := List.forall₂_cons_left_iff.1 hr
        refine .token ?_ (hall new hnew)
        rcases hp with rfl | ⟨hkind, hplace⟩
        · exact .inl hv.eq_token
        · exact .inr ⟨hv.kind.trans hkind, .inr hplace⟩

theorem number_numbers {start : Token} {rest : List Token} {numbered : Numbered}
    (h : number d scale (start :: rest) σ = .ok numbered τ) :
    ∃ tail, numbered.tokens = start :: tail ∧ Numbers rest tail := by
  obtain ⟨last, hw, hr, -⟩ := number_cases h
  obtain ⟨emitted, hout, hall⟩ := walk_numbers hw
  have hres := forall₂_resolve hr
  have hrev : last.out.reverse = ⟨start, none⟩ :: emitted := by simp [hout, opening]
  rw [hrev] at hres
  obtain ⟨v, tail, hv, htail, heq⟩ := List.forall₂_cons_left_iff.1 hres
  exact ⟨tail, by rw [heq, hv.eq_token], hall tail htail⟩

theorem Numbers.mem {input new : List Token} {u : Token} (h : Numbers input new) (hu : u ∈ new) :
    u.kind = .lineNumber ∨ ∃ t ∈ input, Stands t u := by
  induction h with
  | ending =>
    rw [List.mem_singleton.1 hu]
    exact .inr ⟨_, List.mem_cons_self, .inl rfl⟩
  | entry _ _ ih =>
    exact (ih hu).imp_right fun ⟨t, ht, hs⟩ => ⟨t, List.mem_cons_of_mem _ ht, hs⟩
  | line _ hn _ ih =>
    rcases List.mem_cons.1 hu with rfl | hu
    · exact .inr ⟨_, List.mem_cons_self, .inl rfl⟩
    · rcases List.mem_cons.1 hu with rfl | hu
      · exact .inl hn
      · exact (ih hu).imp_right fun ⟨t, ht, hs⟩ => ⟨t, List.mem_cons_of_mem _ ht, hs⟩
  | token hs _ ih =>
    rcases List.mem_cons.1 hu with rfl | hu
    · exact .inr ⟨_, List.mem_cons_self, hs⟩
    · exact (ih hu).imp_right fun ⟨t, ht, hs⟩ => ⟨t, List.mem_cons_of_mem _ ht, hs⟩

end Numbering

namespace Touch

variable {d : Dialect} {o : Options}

/-- What the last touches make of the tokens up to the end of a program. -/
inductive Touches (d : Dialect) (o : Options) : List Token → List Token → Prop
  | ending {t : Token} {rest : List Token} (ht : t.kind = .eof) : Touches d o (t :: rest) [t]
  | token {t next : Token} {out rest tokens new : List Token}
      (ht : touch d o out t next = .ok tokens) (h : Touches d o rest new) :
      Touches d o (t :: rest) (tokens ++ new)

theorem run_touches {out input parsed : List Token} (h : run d o out input = .ok parsed) :
    ∃ new, parsed = out.reverse ++ new ∧ Touches d o input new := by
  induction input generalizing out with
  | nil => cases h
  | cons t rest ih =>
    rcases run_cases h with ⟨he, rfl⟩ | ⟨-, tokens, ht, hr⟩
    · exact ⟨[t], by simp, .ending he⟩
    · obtain ⟨new, rfl, htouches⟩ := ih hr
      exact ⟨tokens ++ new, by simp, .token ht htouches⟩

theorem finish_touches {start : Token} {rest parsed : List Token}
    (h : finish d o (start :: rest) = .ok parsed) :
    ∃ new, parsed = start :: new ∧ Touches d o rest new := by
  obtain ⟨new, rfl, ht⟩ := run_touches h
  exact ⟨new, rfl, ht⟩

end Touch

namespace Compile

variable {s : Setting} {o : Options} {listing : Listing} {c : Compiled} {σ τ : Session}

/-- The last two stages of a compilation, behind the first token of the program. -/
theorem Passes.finish {merged : List Token} {numbered : Numbering.Numbered}
    {before after : Session} (hp : Passes s o listing σ c τ merged numbered before after) :
    ∃ start second rest lead numbers new, merged = start :: second :: rest ∧
      start.kind = .program ∧
      (∀ t ∈ lead, t.kind = .remark ∨ t.kind = .remarkText ∨ t.kind = .newline) ∧
      whole o merged = start :: second :: (lead ++ rest) ∧
      Numbering.Numbers (second :: (lead ++ rest)) numbers ∧
      (∀ t ∈ numbers, t.kind = .compound → t.value ⊆ Dialect.compoundSigns) ∧
      numbered.tokens = start :: numbers ∧ c.parsed = start :: new ∧
      Touch.Touches s.dialect o numbers new := by
  have hset := Branch.convert_settled hp.lexed hp.converted
  obtain ⟨start, second, rest, rfl, hstart, -⟩ := hset.seated.exists_cons
  obtain ⟨lead, hwhole, hlead, -⟩ := whole_cons o start second rest
  obtain ⟨ready, final, -, -, hnum⟩ := hp.numbering
  have hfin := hp.finished
  rw [hwhole] at hnum
  obtain ⟨numbers, heq, hnumbers⟩ := Numbering.number_numbers hnum
  rw [heq] at hfin
  obtain ⟨new, hparsed, htouches⟩ := Touch.finish_touches hfin
  refine ⟨start, second, rest, lead, numbers, new, rfl, hstart, hlead, hwhole, hnumbers, ?_,
    heq, hparsed, htouches⟩
  intro u hu hk
  -- numbering makes no compound assignments
  have hl : u.Lawful s.dialect := by
    rcases hnumbers.mem hu with hn | ⟨t, ht, rfl | ⟨hkind, hi | hplace⟩⟩
    · simp [hn] at hk
    · rcases List.mem_cons.1 ht with rfl | ht
      · exact hset.lawful u (by simp)
      · rcases List.mem_append.1 ht with ht | ht
        · rcases hlead u ht with h | h | h <;> simp [h] at hk
        · exact hset.lawful u (by simp [ht])
    · simp [hkind, hi] at hk
    · rw [← hkind, hk] at hplace
      cases hplace
  exact Dialect.accepts_compound (hk ▸ hl.classified (by rw [hk]; rfl))

end Compile

end ClassicBasic
