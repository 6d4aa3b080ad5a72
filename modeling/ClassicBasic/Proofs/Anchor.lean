import ClassicBasic.Proofs.Compile

/-!
# Labels and functions at the start of a line

The second stage lets an entry stand at the start of a line only, but it is the third stage that
decides which line ends stay. An entry of the merged program is where a line starts unless the line
end in front of it is joined away, behind a separator or a sign that joins lines, or a file that
starts with an entry is included in the middle of a line.
-/

set_option autoImplicit false

namespace ClassicBasic

namespace Entry

/-- Every entry of a program stands right behind a line end or another entry. -/
def Anchored (tokens : List Token) : Prop :=
  ∀ before t rest, tokens = before ++ t :: rest → t.kind.isEntry →
    ∃ last, before.getLast? = some last ∧ (last.kind = .newline ∨ last.kind.isEntry)

variable {here : List Token → Bool} {l out tokens : List Token} {t : Token}

theorem placed_iff : Placed here out ↔
    ∀ t old, t :: old <:+ out → t.kind.isEntry → here old := by
  induction out with
  | nil => simp [Placed]
  | cons u out ih =>
    simp only [Placed, List.suffix_cons_iff, ih]
    constructor
    · rintro ⟨hu, ho⟩ t old (heq | hs) ht
      · obtain ⟨rfl, rfl⟩ := List.cons.inj heq
        exact hu ht
      · exact ho t old hs ht
    · intro h
      exact ⟨h u out (.inl rfl), fun t old hs => h t old (.inr hs)⟩

/-- An entry that is none of the tokens in front of an output is in the output. -/
theorem entry_suffix_of_append {old : List Token} (hl : ∀ u ∈ l, u.kind.isEntry = false)
    (ht : t.kind.isEntry) (h : t :: old <:+ l ++ out) : t :: old <:+ out := by
  induction l with
  | nil => exact h
  | cons u l ih =>
    rw [List.forall_mem_cons] at hl
    rcases List.suffix_cons_iff.1 h with heq | h
    · obtain ⟨rfl, -⟩ := List.cons.inj heq
      rw [hl.1] at ht
      cases ht
    · exact ih hl.2 h

theorem opensLine_reverse : opensLine l.reverse ↔
    ∃ last, l.getLast? = some last ∧ (last.kind = .newline ∨ last.kind.isEntry) := by
  rcases List.eq_nil_or_concat l with rfl | ⟨front, last, rfl⟩
  · simp [opensLine]
  · simp [opensLine]

/-- Anchoring is about the order in which outputs are read as well. -/
theorem anchored_iff_placed : Anchored tokens ↔ Placed opensLine tokens.reverse := by
  rw [placed_iff]
  constructor
  · rintro h t old ⟨new, heq⟩ ht
    have hsplit : tokens = old.reverse ++ t :: new.reverse := by
      rw [List.reverse_eq_iff.1 heq.symm]
      simp
    have hopen := h old.reverse t new.reverse hsplit ht
    rwa [← opensLine_reverse, List.reverse_reverse] at hopen
  · rintro h before t rest rfl ht
    rw [← opensLine_reverse]
    exact h t before.reverse ⟨rest.reverse, by simp⟩ ht

/-- What comes behind an output may as well come behind another one where a line starts. -/
theorem Placed.moved {out' : List Token} (h : Placed opensLine (l ++ out))
    (ho : Placed opensLine out') (hs : opensLine out') : Placed opensLine (l ++ out') := by
  induction l with
  | nil => exact ho
  | cons t l ih =>
    refine ⟨fun he => ?_, ih h.2⟩
    cases l with
    | nil => exact hs
    | cons u l => exact h.1 he

instance decidablePlaced : (out : List Token) → Decidable (Placed here out)
  | [] => .isTrue trivial
  | t :: out =>
    have := decidablePlaced out
    inferInstanceAs (Decidable ((t.kind.isEntry → here out) ∧ Placed here out))

instance : Decidable (Anchored tokens) := decidable_of_iff _ anchored_iff_placed.symm

end Entry

namespace Merge

open Entry

/-- Whether a line end at `p` is joined away behind an output (last token first) where no line
starts. -/
def joinsLines (p : Place) : List Token → Bool
  | [] => false
  | last :: out =>
    p.isInner && (last.kind == .separator || (last.kind == .joiner && !opensLine out))

variable {p : Place} {t : Token} {out : List Token}

theorem opensLine_add (ht : t.kind = .newline) :
    opensLine (add p t out) = !joinsLines p out := by
  have hopen (out : List Token) : opensLine (t :: out) = true := by simp [opensLine, ht]
  simp only [add, ht]
  cases out with
  | nil => simpa [addNewline, joinsLines] using hopen []
  | cons last out =>
    simp only [addNewline, joinsLines]
    split <;> rename_i hk
    · simp [opensLine, hk]
    · simp [opensLine, hk, Kind.isEntry]
    · simp [opensLine, hk, Kind.isEntry]
    · by_cases hi : p.isInner
      · simp [hi, hk]
      · simp [hi, hopen]
    · by_cases hi : p.isInner
      · simp [hi, hk, opensLine, Kind.isEntry]
      · simp [hi, hopen]
    · rename_i hj
      have hj : last.kind ≠ .joiner := hj
      have hs : last.kind ≠ .separator := hk
      simp [hj, hs, hopen]

theorem add_entry (ht : t.kind.isEntry) : add p t out = t :: out := by
  unfold add
  split <;> simp_all [Kind.isEntry]

variable {d : Dialect} {quiet : Bool} {splice : Token → Token → Conversion (List Token)}
  {total : Nat}

theorem entry_step {σ : Session} {rest : List Token} (ht : t.kind.isEntry) :
    Step d quiet splice total ⟨σ, out, t :: rest⟩ ⟨σ, t :: out, rest⟩ := by
  have hne {k : Kind} (hk : k.isEntry = false) : t.kind ≠ k := by
    rintro rfl
    rw [hk] at ht
    cases ht
  have hstep : Step d quiet splice total ⟨σ, out, t :: rest⟩
      ⟨σ, add (placeOf total rest) t out, rest⟩ :=
    .token (hne rfl) (fun hd => hne rfl hd.1) (hne rfl) (hne rfl)
  rwa [add_entry ht] at hstep

theorem add_placed (ho : Placed opensLine out) (ht : t.kind.isEntry → opensLine out) :
    Placed opensLine (add p t out) := by
  by_cases he : t.kind.isEntry
  · rw [add_entry he]
    exact ⟨ht, ho⟩
  · obtain ⟨gone, kept, new, rfl, hadd, -, hnew⟩ := add_alters p t out
    rw [hadd]
    refine ho.of_append.append fun u hu => ?_
    rcases hnew u hu with rfl | ⟨hk, -⟩
    · simpa using he
    · simp [hk, Kind.isEntry]

theorem unwrap_unmarked (l : List Token) :
    ∀ u ∈ (unwrap d l).1, u.kind.isEntry = false := by
  induction l with
  | nil => simp [unwrap]
  | cons t rest ih =>
    simp only [unwrap]
    split
    · simp
    · split
      · simp
      · simp only [List.mem_append, List.mem_cons]
        rintro u (hu | rfl | rfl | hu)
        · exact (Lexer.snippet_plain _ _ u hu).unmarked
        · rfl
        · rfl
        · exact ih u hu

theorem unwrap_led {first : Bool} {l : List Token} (h : Led first l) :
    Led false (unwrap d l).2 := by
  induction l generalizing first with
  | nil => trivial
  | cons t rest ih =>
    simp only [unwrap]
    split
    · rename_i hk
      have hn : (t.kind == .newline) = false := by simp [hk]
      exact hn ▸ h.2
    · split
      · rename_i hk
        exact ⟨by simp [hk, Kind.isEntry], h.2⟩
      · exact ih h.2

/-- The third stage keeps the entries of an output and all that is in front of them. -/
theorem step_entry {p q : Point} (h : Step d quiet splice total p q)
    (hl : ∀ u ∈ p.out, u.Lawful d) {t : Token} {old : List Token} (ht : t.kind.isEntry)
    (hs : t :: old <:+ p.out) : t :: old <:+ q.out := by
  cases h with
  | included => exact hs.trans (List.suffix_append _ _)
  | block => exact hs.trans (List.suffix_append _ _)
  | named _ hm =>
    rcases meetVariable_cases hm with ⟨last, rfl, hv, -⟩ | ⟨rfl, -⟩
    · rcases List.suffix_cons_iff.1 hs with heq | hs
      · obtain ⟨rfl, -⟩ := List.cons.inj heq
        exact absurd hv ((hl t (by simp)).unkept ht)
      · exact hs.trans (List.suffix_cons _ _)
    · exact hs.trans (List.suffix_cons _ _)
  | @token σ out u rest _ _ _ _ =>
    obtain ⟨gone, kept, new, rfl, hadd, hgone, -⟩ := add_alters (placeOf total rest) u out
    dsimp only at hs ⊢
    rw [hadd]
    refine (entry_suffix_of_append ?_ ht hs).trans (List.suffix_append _ _)
    intro v hv
    rcases hgone v hv with hk | hk | hk <;> simp [hk, Kind.isEntry]

theorem reaches_entry {p q : Point} (h : Reaches d quiet splice total p q)
    (hs : ∀ t name σ body τ, splice t name σ = .ok body τ → ∀ u ∈ body, u.Lawful d)
    (ho : Settled d p.out) (hi : ∀ u ∈ p.input, u.Lawful d) {t : Token} {old : List Token}
    (ht : t.kind.isEntry) (hold : t :: old <:+ p.out) : t :: old <:+ q.out := by
  induction h with
  | refl => exact hold
  | tail hr hstep ih =>
    exact step_entry hstep (reaches_settled hr hs ho hi).1.lawful ht ih

theorem placed_of_reaches {p q : Point} (h : Reaches d quiet splice total p q)
    (hs : ∀ t name σ body τ, splice t name σ = .ok body τ → ∀ u ∈ body, u.Lawful d)
    (ho : Settled d p.out) (hi : ∀ u ∈ p.input, u.Lawful d) (hq : Placed opensLine q.out) :
    Placed opensLine p.out := by
  rw [placed_iff] at hq ⊢
  intro t old hold ht
  exact hq t old (reaches_entry h hs ho hi ht hold) ht

/-- What the third stage of a file must not do for entries to stay where lines start: join away the
line end in front of one, or put an included file where its entries are not at the start of a
line. -/
structure Unbroken (d : Dialect) (quiet : Bool)
    (splice : Token → Token → Conversion (List Token)) (placed : List Token) (ready : Session) :
    Prop where
  lines : ∀ σ out t u rest,
    Reaches d quiet splice placed.length ⟨ready, placed.take 1, placed.drop 1⟩
      ⟨σ, out, t :: u :: rest⟩ →
    t.kind = .newline → u.kind.isEntry → joinsLines (placeOf placed.length (u :: rest)) out = false
  includes : ∀ σ out t rest body τ,
    Reaches d quiet splice placed.length ⟨ready, placed.take 1, placed.drop 1⟩
      ⟨σ, out, t :: rest⟩ →
    t.kind = .directive → t.is "INCLUDE" → splice t (rest.headD t) σ = .ok body τ →
    Placed opensLine (body.reverse ++ out)

/-- Where the entries of a point are: at starts of lines in the output, behind line ends in the
input. -/
structure Rooted (p : Point) : Prop where
  placed : Placed opensLine p.out
  next : ∀ u rest, p.input = u :: rest → u.kind.isEntry → opensLine p.out
  led : Led true p.input

theorem rooted_of_led {p : Point} (hp : Placed opensLine p.out) (hl : Led false p.input) :
    Rooted p := by
  refine ⟨hp, fun u rest heq he => ?_, hl.anywhere⟩
  rw [heq] at hl
  exact absurd (hl.1 he) Bool.false_ne_true

/-- A step keeps entries at starts of lines if it joins no line end away in front of one and includes
nothing in a wrong place. -/
theorem step_rooted {p q : Point} (h : Step d quiet splice total p q)
    (hname : ∀ t name σ body τ, splice t name σ = .ok body τ → name.kind = .string)
    (hlines : ∀ t u rest, p.input = t :: u :: rest → t.kind = .newline → u.kind.isEntry →
      joinsLines (placeOf total (u :: rest)) p.out = false)
    (hincludes : ∀ t rest body τ, p.input = t :: rest → t.kind = .directive → t.is "INCLUDE" →
      splice t (rest.headD t) p.session = .ok body τ → Placed opensLine (body.reverse ++ p.out))
    (hp : Rooted p) : Rooted q := by
  cases h with
  | @included σ τ out t rest body hk hi hb =>
    refine rooted_of_led (hincludes t rest body τ rfl hk hi hb) ?_
    have hs := hname _ _ _ _ _ hb
    cases rest with
    | nil => trivial
    | cons name rest =>
      have hn : (name.kind == .newline) = false := by simp at hs; simp [hs]
      exact hn ▸ hp.led.2.2
  | @block σ out t rest hk =>
    refine rooted_of_led (hp.placed.append fun u hu => ?_) (unwrap_led hp.led.2)
    exact unwrap_unmarked rest u (List.mem_reverse.1 hu)
  | @named σ τ out met t rest hk hm =>
    have hmet : met <:+ out := by
      rcases meetVariable_cases hm with ⟨last, rfl, -⟩ | ⟨rfl, -⟩
      · exact List.suffix_cons _ _
      · exact List.suffix_refl _
    have hn : (t.kind == .newline) = false := by simp [hk]
    refine rooted_of_led ⟨by simp [hk, Kind.isEntry], hp.placed.of_suffix hmet⟩ ?_
    exact hn ▸ hp.led.2
  | @token σ out t rest he hd hb hi =>
    have hout := add_placed (p := placeOf total rest) hp.placed (hp.next t rest rfl)
    by_cases hn : t.kind = .newline
    · refine ⟨hout, ?_, ?_⟩
      · rintro u left (rfl : rest = u :: left) hu
        have hj := hlines t u left rfl hn hu
        simp only [opensLine_add hn, hj, Bool.not_false]
      · have : (t.kind == .newline) = true := by simp [hn]
        exact this ▸ hp.led.2
    · refine rooted_of_led hout ?_
      have : (t.kind == .newline) = false := by simp [hn]
      exact this ▸ hp.led.2

theorem reaches_rooted {placed : List Token} {ready : Session} {q : Point}
    (hu : Unbroken d quiet splice placed ready)
    (hname : ∀ t name σ body τ, splice t name σ = .ok body τ → name.kind = .string)
    (hp : Rooted ⟨ready, placed.take 1, placed.drop 1⟩)
    (h : Reaches d quiet splice placed.length ⟨ready, placed.take 1, placed.drop 1⟩ q) :
    Rooted q := by
  induction h with
  | refl => exact hp
  | @tail p q hr hstep ih =>
    obtain ⟨σ, out, input⟩ := p
    refine step_rooted hstep hname ?_ ?_ ih
    · rintro t u rest (rfl : input = t :: u :: rest)
      exact hu.lines σ out t u rest hr
    · rintro t rest body τ (rfl : input = t :: rest)
      exact hu.includes σ out t rest body τ hr

/-- What is reached from the start of a file is its start, or is reached behind the first line end. -/
theorem reaches_first {start newline : Token} {rest : List Token} {σ : Session} {q : Point}
    (hs : start.kind = .program) (hn : newline.kind = .newline)
    (h : Reaches d quiet splice total ⟨σ, [start], newline :: rest⟩ q) :
    q = ⟨σ, [start], newline :: rest⟩ ∨
      Reaches d quiet splice total ⟨σ, [newline, start], rest⟩ q := by
  rcases h.cases_head with rfl | ⟨r, hstep, hr⟩
  · exact .inl rfl
  · exact .inr (step_unique (first_step hs hn) hstep ▸ hr)

/-- If no walk behind the first line end moves an entry from the start of a line, the third stage is
unbroken. -/
theorem unbroken_of_placed {start newline : Token} {rest : List Token} {σ : Session}
    (hs : start.kind = .program) (hn : newline.kind = .newline)
    (h : ∀ q, Reaches d quiet splice (start :: newline :: rest).length
      ⟨σ, [newline, start], rest⟩ q → Placed opensLine q.out) :
    Unbroken d quiet splice (start :: newline :: rest) σ := by
  constructor
  · intro σ' out t u rest' hq ht hu
    rcases reaches_first hs hn hq with heq | hq
    · cases heq
      simp [joinsLines, hs]
    · have hplaced := h _ ((hq.tail (newline_step ht)).tail (entry_step hu))
      have hopen := hplaced.1 hu
      simpa [opensLine_add ht] using hopen
  · intro σ' out t rest' body τ hq ht hi hb
    rcases reaches_first hs hn hq with heq | hq
    · cases heq
      simp [hn] at ht
    · exact h _ (hq.tail (.included ht hi hb))

/-- The entries of a merged file are anchored exactly when its third stage is unbroken. -/
theorem anchored_iff_of_merge {placed merged : List Token} {σ τ : Session}
    (hs : ∀ t name σ body τ, splice t name σ = .ok body τ →
      name.kind = .string ∧ ∀ u ∈ body, u.Lawful d)
    (hp : Sound d placed.reverse) (h : merge d quiet splice placed σ = .ok merged τ) :
    Anchored merged ↔ Unbroken d quiet splice placed σ := by
  have hname t name σ body τ (h : splice t name σ = .ok body τ) := (hs t name σ body τ h).1
  have hlaw t name σ body τ (h : splice t name σ = .ok body τ) := (hs t name σ body τ h).2
  obtain ⟨start, newline, rest, final, last, left, rfl, hk, hn, hend, hl, rfl⟩ :=
    reaches_of_merge hp h
  obtain ⟨_, _, _, heq, -, -, hsound, hled, hrest⟩ := hp.exists_input
  cases heq
  rw [anchored_iff_placed, List.reverse_reverse]
  constructor
  · intro hfinal
    have hset : Settled d [newline, start] := ⟨hsound.lawful, [], newline, start, rfl, .inl hn, hk⟩
    -- the entries of a point that is reached are all in the final output
    refine unbroken_of_placed hk hn fun q hq => ?_
    obtain ⟨ho, hi⟩ := reaches_settled hq hlaw hset hrest
    exact placed_of_reaches (reaches_end hq hend hl) hlaw ho hi hfinal.2
  · intro hu
    have hroot : Rooted ⟨σ, [start], newline :: rest⟩ :=
      ⟨by simp [Placed, hk, Kind.isEntry], by simp [hn, Kind.isEntry], by simp [hn, Kind.isEntry],
        hled⟩
    have hr : Reaches d quiet splice (start :: newline :: rest).length
        ⟨σ, [start], newline :: rest⟩ ⟨τ, final, last :: left⟩ := .head (first_step hk hn) hend
    exact ⟨by simp [hl, Kind.isEntry], (reaches_rooted hu hname hroot hr).placed⟩

end Merge

namespace Numbering

open Entry

/-- Whether the line that is noted for every entry of a program starts right there: the last token
written is its number. -/
def NotesLines (d : Dialect) (scale : Scale) (tokens : List Token) (σ : Session) : Prop :=
  ∀ start rest s t left τ s', tokens = start :: rest →
    Reaches d scale ⟨opening scale start, rest, σ⟩ ⟨s, t :: left, τ⟩ → t.kind.isEntry →
    step scale s t (left.headD t) = .ok s' →
    (s'.labels.head? = some (key t, s.line) ∨ s'.routines.head? = some (key t, s.line)) ∧
      ∃ p, s'.out.head? = some p ∧ p.token.kind = .lineNumber ∧ p.token.value = Text.ofInt s.line

variable {d : Dialect} {scale : Scale} {s s' : State} {t next : Token}

theorem step_entry (h : step scale s t next = .ok s') (ht : t.kind.isEntry) :
    s'.out = s.out ∧ s'.line = s.line ∧
      (s'.labels.head? = some (key t, s.line) ∨ s'.routines.head? = some (key t, s.line)) := by
  unfold step at h
  split at h
  · unfold markLabel at h
    split at h
    · cases h
    · cases h
      exact ⟨rfl, rfl, .inl rfl⟩
  · simp_all [Kind.isEntry]
  · simp_all [Kind.isEntry]
  · simp_all [Kind.isEntry]
  · cases h
    exact ⟨rfl, rfl, .inr rfl⟩
  · simp_all [Kind.isEntry]
  · simp_all [Kind.isEntry]
  · cases hk : t.kind <;> simp_all [Kind.isEntry]

/-- Whether the last token written is the number of the line being read. -/
def AtNumber (s : State) : Prop :=
  ∃ p, s.out.head? = some p ∧ p.token.kind = .lineNumber ∧ p.token.value = Text.ofInt s.line

/-- What has been read of a program at a point (last token first). Where a line starts, its number
has just been written. -/
structure Read (tokens read : List Token) (p : Point) : Prop where
  split : tokens.reverse = p.input.reverse ++ read
  fresh : opensLine read → (∀ t rest, p.input = t :: rest → t.kind ≠ .eof) → AtNumber p.state

theorem step_read {tokens read : List Token} {p q : Point} (h : Step d scale p q)
    (ha : Placed opensLine tokens.reverse) (hp : Read tokens read p) :
    ∃ t rest, p.input = t :: rest ∧ Read tokens (t :: read) q := by
  cases h with
  | @named s t u rest σ known hk hn =>
    refine ⟨t, rest, rfl, by simpa using hp.split, ?_⟩
    simp [opensLine, hk, Kind.isEntry]
  | @token s s' t rest σ he hi hst =>
    have hsplit : tokens.reverse = rest.reverse ++ t :: read := by simpa using hp.split
    refine ⟨t, rest, rfl, hsplit, fun hopen hend => ?_⟩
    simp only [opensLine, Bool.or_eq_true, beq_iff_eq] at hopen
    rcases hopen with hn | hentry
    · have hline : endLine scale.step s t (rest.headD t) = .ok s' := by
        simpa [step, hn] using hst
      rcases endLine_cases hline with ⟨heof, -⟩ | ⟨-, rfl⟩
      · cases rest with
        | nil => exact absurd heof he
        | cons u left => exact absurd heof (hend u left rfl)
      · exact ⟨_, rfl, rfl, rfl⟩
    · obtain ⟨hout, hline, -⟩ := step_entry hst hentry
      rw [hsplit] at ha
      obtain ⟨v, hv⟩ := hp.fresh (ha.of_append.1 hentry) (by
        rintro w left (heq : t :: rest = w :: left)
        cases heq
        exact he)
      exact ⟨v, by rwa [hout, hline]⟩

theorem reaches_read {tokens read : List Token} {p q : Point} (h : Reaches d scale p q)
    (ha : Placed opensLine tokens.reverse) (hp : Read tokens read p) :
    ∃ read', Read tokens read' q := by
  induction h with
  | refl => exact ⟨read, hp⟩
  | tail _ hstep ih =>
    obtain ⟨read', hr⟩ := ih
    obtain ⟨t, rest, -, hq⟩ := step_read hstep ha hr
    exact ⟨t :: read', hq⟩

/-- In an anchored program the line noted for an entry starts with what follows the entry. -/
theorem notesLines_of_anchored {start : Token} {rest : List Token} {σ : Session}
    (hs : start.kind = .program) (h : Anchored (start :: rest)) :
    NotesLines d scale (start :: rest) σ := by
  rw [anchored_iff_placed] at h
  intro start' rest' s t left τ s' heq hr ht hst
  cases heq
  have hopening : Read (start :: rest) [start] ⟨opening scale start, rest, σ⟩ :=
    ⟨by simp, by simp [opensLine, hs, Kind.isEntry]⟩
  obtain ⟨read, hread⟩ := reaches_read hr h hopening
  obtain ⟨hout, -, hnoted⟩ := step_entry hst ht
  have hsplit : (start :: rest).reverse = left.reverse ++ t :: read := by simpa using hread.split
  rw [hsplit] at h
  obtain ⟨p, hp⟩ := hread.fresh (h.of_append.1 ht) (by
    rintro u more (heq : t :: left = u :: more)
    cases heq
    rintro he
    simp [he, Kind.isEntry] at ht)
  exact ⟨hnoted, p, by rwa [hout]⟩

end Numbering

namespace Compile

open Entry

theorem anchored_whole {o : Options} {start second : Token} {rest : List Token}
    (h : Anchored (start :: second :: rest)) : Anchored (whole o (start :: second :: rest)) := by
  obtain ⟨lead, hwhole, hkinds, hlast⟩ := whole_cons o start second rest
  rw [hwhole]
  rcases hlast with rfl | hlast
  · exact h
  rw [anchored_iff_placed] at h ⊢
  have hplain : ∀ t ∈ lead.reverse, t.kind.isEntry = false := by
    intro t ht
    rcases hkinds t (List.mem_reverse.1 ht) with hk | hk | hk <;> simp [hk, Kind.isEntry]
  obtain ⟨u, hu, hn⟩ := Option.map_eq_some_iff.1 hlast
  obtain ⟨more, rfl⟩ := List.getLast?_eq_some_iff.1 hu
  have hrest : Placed opensLine (rest.reverse ++ [second, start]) := by simpa using h
  have hlead : Placed opensLine ((more ++ [u]).reverse ++ [second, start]) :=
    hrest.of_append.append hplain
  have hmoved := hrest.moved hlead (by simp [opensLine, hn])
  simpa using hmoved

end Compile

namespace Branch

open Entry Merge

variable {s : Setting} {depth : Nat} {b : Branch} {σ τ : Session}

/-- Whether the third stage of a file whose first two stages left `placed` keeps entries at the start
of lines. -/
def Unbroken (s : Setting) (depth : Nat) (b : Branch) (placed : List Token) (ready : Session) :
    Prop :=
  Merge.Unbroken s.dialect b.quiet (splice s b (inner s depth)) placed ready

/-- The entries of a converted file are anchored exactly when its third stage is unbroken, and then
the line noted for each of them is the one that starts with what follows it. -/
theorem anchored_iff_unbroken {listing : Listing} {lexed merged : List Token}
    (hx : Lexer.lex s.dialect listing = .ok lexed)
    (h : convert s depth b lexed σ = .ok merged τ) :
    ∃ placed ready, front s b lexed σ = .ok placed ready ∧
      (Anchored merged ↔ Unbroken s depth b placed ready) ∧
      (Anchored merged → ∀ (o : Options) (ρ : Session),
        Numbering.NotesLines s.dialect o.scale (Compile.whole o merged) ρ) := by
  obtain ⟨placed, ready, hf, hm⟩ := convert_cases h
  refine ⟨placed, ready, hf, anchored_iff_of_merge ?_ (front_sound hx hf) hm, fun ha o ρ => ?_⟩
  · intro t name σ body τ hs
    obtain ⟨_, _, _, _, _, _, _, -, -, hname⟩ := splice_cases hs
    exact ⟨hname, splice_lawful hs⟩
  · obtain ⟨start, second, rest, rfl, hstart, -⟩ := (convert_settled hx h).seated.exists_cons
    have hwhole := Compile.anchored_whole (o := o) ha
    obtain ⟨lead, heq, -, -⟩ := Compile.whole_cons o start second rest
    rw [heq] at hwhole ⊢
    exact Numbering.notesLines_of_anchored hstart hwhole

/-- The tokens of a file that includes none, as the third stage leaves them. -/
def merged? (d : Dialect) (listing : Listing) : Option (List Token × List Token) :=
  match Lexer.lex d listing with
  | .ok lexed =>
    match convert (Compile.lone d) 0 (main (Compile.lone d)) lexed {} with
    | .ok merged _ => some (lexed, merged)
    | .error _ _ => none
  | .error _ => none

theorem exists_of_merged? {d : Dialect} {listing : Listing} {lexed merged : List Token}
    (h : merged? d listing = some (lexed, merged)) :
    Lexer.lex d listing = .ok lexed ∧
      ∃ τ, convert (Compile.lone d) 0 (main (Compile.lone d)) lexed {} = .ok merged τ := by
  unfold merged? at h
  split at h
  · split at h
    · cases h
      exact ⟨‹_›, _, ‹_›⟩
    · cases h
  · cases h

theorem label_line_anchored :
    ∃ lexed merged τ placed ready,
      Lexer.lex .msx (Listing.ofText "goto \x7ba\x7d\n\x7ba\x7d\nprint 1" "/main" 4) = .ok lexed ∧
      convert (Compile.lone .msx) 0 (main (Compile.lone .msx)) lexed {} = .ok merged τ ∧
      Anchored merged ∧ front (Compile.lone .msx) (main (Compile.lone .msx)) lexed {} =
        .ok placed ready ∧
      Unbroken (Compile.lone .msx) 0 (main (Compile.lone .msx)) placed ready := by
  have hrun : (merged? .msx (Listing.ofText "goto \x7ba\x7d\n\x7ba\x7d\nprint 1" "/main" 4)).map
      (fun r => decide (Anchored r.2)) = some true := by decide +kernel
  obtain ⟨⟨lexed, merged⟩, hr, ha⟩ := Option.map_eq_some_iff.1 hrun
  obtain ⟨hx, τ, hc⟩ := exists_of_merged? hr
  obtain ⟨placed, ready, hf, hiff, -⟩ := anchored_iff_unbroken (s := Compile.lone .msx) hx hc
  have ha' : Anchored merged := of_decide_eq_true ha
  exact ⟨lexed, merged, τ, placed, ready, hx, hc, ha', hf, hiff.1 ha'⟩

/-- Behind a separator the line end in front of a label is joined away, and the jump to the label
goes to the statement before it. -/
theorem label_behind_separator_not_anchored :
    (∃ lexed merged τ,
      Lexer.lex .msx (Listing.ofText "goto \x7ba\x7d\nprint 1:\n\x7ba\x7d\nprint 2" "/main" 4) =
        .ok lexed ∧
      convert (Compile.lone .msx) 0 (main (Compile.lone .msx)) lexed {} = .ok merged τ ∧
      ¬Anchored merged) ∧
      (Compile.outcome (Compile.lone .msx) { header := false }
        (Listing.ofText "goto \x7ba\x7d\nprint 1:\n\x7ba\x7d\nprint 2" "/main" 4)).map
          Compiled.code = some ["10 goto 20".toList, "20 print 1:print 2".toList] := by
  -- the two runs share the reading of the listing
  obtain ⟨hrun, hcode⟩ : (merged? .msx
        (Listing.ofText "goto \x7ba\x7d\nprint 1:\n\x7ba\x7d\nprint 2" "/main" 4)).map
        (fun r => decide (Anchored r.2)) = some false ∧
      (Compile.outcome (Compile.lone .msx) { header := false }
        (Listing.ofText "goto \x7ba\x7d\nprint 1:\n\x7ba\x7d\nprint 2" "/main" 4)).map
          Compiled.code = some ["10 goto 20".toList, "20 print 1:print 2".toList] := by
    decide +kernel
  obtain ⟨⟨lexed, merged⟩, hr, ha⟩ := Option.map_eq_some_iff.1 hrun
  obtain ⟨hx, τ, hc⟩ := exists_of_merged? hr
  exact ⟨⟨lexed, merged, τ, hx, hc, of_decide_eq_false ha⟩, hcode⟩

end Branch

end ClassicBasic
