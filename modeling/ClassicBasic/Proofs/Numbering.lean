import ClassicBasic.Proofs.Conversion
import ClassicBasic.Proofs.Lexical
import Mathlib.Logic.Relation
import Mathlib.Tactic.Ring

/-!
# How lines are numbered

Numbering counts the line ends it passes. The number of the line being read is a function of that
count, so every number that is noted for a label, a function or the end of a loop is the number of a
line passed so far, or of the next one behind a loop. What is emitted repeats the shape of the
input: a number behind each line end, unless the program ends there.
-/

set_option autoImplicit false

namespace ClassicBasic

theorem wrap_eq_iff {n : Int} : wrap n = n ↔ -(Word.half : Int) ≤ n ∧ n < Word.half := by
  constructor
  · intro h
    rw [← h]
    exact ⟨Int.le_bmod (by decide), Int.bmod_lt (by decide)⟩
  · rintro ⟨hlo, hhi⟩
    exact Int.bmod_eq_of_le hlo hhi

namespace Numbering

def lineAt (scale : Scale) (k : Nat) : Int := wrap (scale.start + ((k : Int) - 1) * scale.step)

theorem lineAt_zero (scale : Scale) : wrap (scale.start - scale.step) = lineAt scale 0 := by
  simp [lineAt, Int.sub_eq_add_neg]

theorem lineAt_succ (scale : Scale) (k : Nat) :
    wrap (lineAt scale k + scale.step) = lineAt scale (k + 1) := by
  have hsum : scale.start + ((k : Int) - 1) * scale.step + scale.step =
      scale.start + (((k + 1 : Nat) : Int) - 1) * scale.step := by
    push_cast
    ring
  rw [lineAt, wrap, wrap, Int.bmod_add_bmod, hsum, lineAt, wrap]

/-- Whether `n` is the number of one of the lines from `lo` to `hi`. -/
def Known (scale : Scale) (lo hi : Nat) (n : Int) : Prop :=
  ∃ i, lo ≤ i ∧ i ≤ hi ∧ n = lineAt scale i

theorem Known.mono {scale : Scale} {lo hi hi' : Nat} {n : Int} (h : Known scale lo hi n)
    (hle : hi ≤ hi') : Known scale lo hi' n := by
  obtain ⟨i, hlo, hhi, hn⟩ := h
  exact ⟨i, hlo, Nat.le_trans hhi hle, hn⟩

/-- What is noted while the line behind `k` line ends is read: numbers of lines from `lo` on. -/
structure Tally (scale : Scale) (lo k : Nat) (s : State) : Prop where
  line : s.line = lineAt scale k
  low : lo ≤ k
  labels : ∀ e ∈ s.labels, Known scale lo k e.2
  routines : ∀ e ∈ s.routines, Known scale lo k e.2
  ends : ∀ e ∈ s.ends, Known scale lo (k + 1) e.2
  awaited : ∀ p ∈ s.out, p.target ≠ none → p.token.kind.isPlaceholder
  settled : ∀ p ∈ s.out, p.token.kind.isPlaceholder → p.target = none →
    ∃ n, Known scale lo k n ∧ p.token.value = Text.ofInt n

variable {scale : Scale} {lo k : Nat} {s s' : State} {t next : Token}

theorem Tally.known (h : Tally scale lo k s) : Known scale lo k s.line :=
  ⟨k, h.low, Nat.le_refl k, h.line⟩

theorem Tally.next_line (h : Tally scale lo k s) :
    Tally scale lo (k + 1) { s with line := wrap (s.line + scale.step) } where
  line := by rw [h.line, lineAt_succ]
  low := Nat.le_trans h.low (Nat.le_succ k)
  labels e he := (h.labels e he).mono (Nat.le_succ k)
  routines e he := (h.routines e he).mono (Nat.le_succ k)
  ends e he := (h.ends e he).mono (Nat.le_succ _)
  awaited := h.awaited
  settled p hp hk ht := by
    obtain ⟨n, hn, hv⟩ := h.settled p hp hk ht
    exact ⟨n, hn.mono (Nat.le_succ k), hv⟩

theorem Tally.push {p : Pending} (h : Tally scale lo k s)
    (ha : p.target ≠ none → p.token.kind.isPlaceholder)
    (hs : p.token.kind.isPlaceholder → p.target = none →
      ∃ n, Known scale lo k n ∧ p.token.value = Text.ofInt n) :
    Tally scale lo k { s with out := p :: s.out } where
  line := h.line
  low := h.low
  labels := h.labels
  routines := h.routines
  ends := h.ends
  awaited := List.forall_mem_cons.2 ⟨ha, h.awaited⟩
  settled := List.forall_mem_cons.2 ⟨hs, h.settled⟩

theorem Tally.emit (h : Tally scale lo k s) (ht : t.kind.isPlaceholder = false) :
    Tally scale lo k (s.emit t) :=
  h.push (by simp) (by simp [ht])

theorem Tally.await {target : Target} (h : Tally scale lo k s) (ht : t.kind.isPlaceholder) :
    Tally scale lo k (s.await t target) :=
  h.push (fun _ => ht) (by simp)

theorem Tally.note {entry : Text} (h : Tally scale lo k s) : Tally scale lo k (s.note entry) :=
  ⟨h.line, h.low, h.labels, h.routines, h.ends, h.awaited, h.settled⟩

theorem Tally.note_end (h : Tally scale lo k s) {name : Text} :
    Tally scale lo k { s with ends := (name, wrap (s.line + scale.step)) :: s.ends } where
  line := h.line
  low := h.low
  labels := h.labels
  routines := h.routines
  ends := by
    refine List.forall_mem_cons.2 ⟨⟨k + 1, Nat.le_trans h.low (Nat.le_succ k), Nat.le_refl _, ?_⟩,
      h.ends⟩
    rw [h.line, lineAt_succ]
  awaited := h.awaited
  settled := h.settled

/-- A step on `t` that stays on its line emits at most a token of the kind it read, and the token
itself unless it is a placeholder. -/
structure Stays (t : Token) (s s' : State) : Prop where
  infos : s'.infos = s.infos
  out : ∃ emitted : List Pending, s'.out = emitted ++ s.out ∧
    ∀ p ∈ emitted, p.token.kind = t.kind ∧ (t.kind.isPlaceholder = false → p.token = t)

theorem jump_tally (hp : t.kind.isPlaceholder) (hs : Tally scale lo k s) :
    Tally scale lo k (jump scale.step s t) ∧ Stays t s (jump scale.step s t) := by
  have sent {s : State} (hs : Tally scale lo k s) :
      Tally scale lo k (if t.value = Label.sameLine then s.emit (t.withValue (Text.ofInt s.line))
        else s.await t .label) := by
    split
    · exact hs.push (by simp) fun _ _ => ⟨s.line, hs.known, rfl⟩
    · exact hs.await hp
  have noted : Tally scale lo k (if t.kind = .labelReturn
      then { s.note (">" ++ t.value) with
        ends := (key t, wrap (s.line + scale.step)) :: (s.note (">" ++ t.value)).ends }
      else s.note (">" ++ t.value)) := by
    split
    · exact hs.note.note_end
    · exact hs.note
  refine ⟨sent noted, ?_⟩
  simp only [jump]
  constructor
  · split <;> split <;> rfl
  · split <;> split <;> exact ⟨[_], rfl, by simp [hp, Token.withValue]⟩

theorem step_tally (h : step scale s t next = .ok s') (hk : t.kind ≠ .newline)
    (hs : Tally scale lo k s) : Tally scale lo k s' ∧ Stays t s s' := by
  have marked {s' : State} (hi : s'.infos = s.infos) (ho : s'.out = s.out) : Stays t s s' :=
    ⟨hi, [], ho, by simp⟩
  unfold step at h
  split at h
  · unfold markLabel at h
    split at h
    · cases h
    · cases h
      refine ⟨⟨hs.line, hs.low, ?_, hs.routines, hs.ends, hs.awaited, hs.settled⟩, marked rfl rfl⟩
      exact List.forall_mem_cons.2 ⟨hs.known, hs.labels⟩
  · cases h
    exact jump_tally (by simp_all [Kind.isPlaceholder]) hs
  · cases h
    exact jump_tally (by simp_all [Kind.isPlaceholder]) hs
  · cases h
    exact ⟨hs.note.await (by simp_all [Kind.isPlaceholder]), rfl, [_], rfl, by simp⟩
  · cases h
    refine ⟨⟨hs.line, hs.low, hs.labels, ?_, hs.ends, hs.awaited, hs.settled⟩, marked rfl rfl⟩
    exact List.forall_mem_cons.2 ⟨hs.known, hs.routines⟩
  · cases h
    exact ⟨hs.note.await (by simp_all [Kind.isPlaceholder]), rfl, [_], rfl, by simp⟩
  · exact absurd ‹_› hk
  · cases h
    have hp : t.kind.isPlaceholder = false := by
      cases hkind : t.kind <;> simp_all [Kind.isPlaceholder]
    exact ⟨hs.emit hp, rfl, [⟨t, none⟩], rfl, by simp⟩

def infoOf (s : State) (t : Token) : LineInfo :=
  { number := s.line, source := t.pos.line, text := t.pos.text, file := t.pos.file }

def numberToken (line : Int) (t next : Token) : Token :=
  ⟨.lineNumber, Text.ofInt line, (t.pos.withLine next.pos.line).withCol 0⟩

/-- The end of a line is reported, and a number follows it unless the program ends there. -/
theorem endLine_cases (h : endLine scale.step s t next = .ok s') :
    (next.kind = .eof ∧ s' = { s with infos := infoOf s t :: s.infos }.emit t) ∨
      (next.kind ≠ .eof ∧
        s' = ({ s with
            infos := infoOf s t :: s.infos, line := wrap (s.line + scale.step) }.emit t).emit
          (numberToken (wrap (s.line + scale.step)) t next)) := by
  unfold endLine at h
  dsimp only at h
  split at h
  · cases h
    exact .inl ⟨‹_›, rfl⟩
  · split at h
    · cases h
    · cases h
      exact .inr ⟨‹_›, rfl⟩

/-- A step puts out nothing for an entry, a number behind the line end it reads, and for any other
token the token or a placeholder in its place. -/
theorem step_emits (h : step scale s t next = .ok s') :
    ∃ emitted : List Pending, s'.out = emitted.reverse ++ s.out ∧
      ((t.kind.isEntry ∧ emitted = []) ∨
        (t.kind = .newline ∧ ∃ number : Token, number.kind = .lineNumber ∧
          emitted = [⟨t, none⟩, ⟨number, none⟩]) ∨
        ∃ p : Pending, emitted = [p] ∧
          (p = ⟨t, none⟩ ∨ (p.token.kind = t.kind ∧ t.kind.isPlaceholder))) := by
  have jumped (hk : t.kind.isPlaceholder) :
      ∃ p : Pending, (jump scale.step s t).out = [p].reverse ++ s.out ∧ p.token.kind = t.kind := by
    simp only [jump]
    split <;> split <;> exact ⟨_, rfl, rfl⟩
  unfold step at h
  split at h
  · rename_i hk
    unfold markLabel at h
    split at h
    · cases h
    · cases h
      exact ⟨[], rfl, .inl ⟨by rw [hk]; rfl, rfl⟩⟩
  · rename_i hk
    cases h
    have hp : t.kind.isPlaceholder := by rw [hk]; rfl
    obtain ⟨p, hout, hkind⟩ := jumped hp
    exact ⟨[p], hout, .inr (.inr ⟨p, rfl, .inr ⟨hkind, hp⟩⟩)⟩
  · rename_i hk
    cases h
    have hp : t.kind.isPlaceholder := by rw [hk]; rfl
    obtain ⟨p, hout, hkind⟩ := jumped hp
    exact ⟨[p], hout, .inr (.inr ⟨p, rfl, .inr ⟨hkind, hp⟩⟩)⟩
  · rename_i hk
    cases h
    exact ⟨[⟨t, some .pastLoop⟩], rfl, .inr (.inr ⟨_, rfl, .inr ⟨rfl, by rw [hk]; rfl⟩⟩)⟩
  · rename_i hk
    cases h
    exact ⟨[], rfl, .inl ⟨by rw [hk]; rfl, rfl⟩⟩
  · rename_i hk
    cases h
    exact ⟨[⟨t, some .routine⟩], rfl, .inr (.inr ⟨_, rfl, .inr ⟨rfl, by rw [hk]; rfl⟩⟩)⟩
  · rename_i hk
    rcases endLine_cases h with ⟨-, rfl⟩ | ⟨-, rfl⟩
    · exact ⟨[⟨t, none⟩], rfl, .inr (.inr ⟨_, rfl, .inl rfl⟩)⟩
    · exact ⟨[⟨t, none⟩, ⟨numberToken _ t next, none⟩], rfl, .inr (.inl ⟨hk, _, rfl, rfl⟩)⟩
  · cases h
    exact ⟨[⟨t, none⟩], rfl, .inr (.inr ⟨_, rfl, .inl rfl⟩)⟩

/-- What follows in a numbered program on the line behind `k` line ends, up to the line behind `K`
of them: a number behind each line end but one in front of the end. The numbers of the lines that
are ended are listed. -/
inductive Follows (scale : Scale) : Nat → Nat → List Token → List Int → Prop
  /-- The line is never ended. -/
  | last {k : Nat} {t : Token} (ht : t.kind = .eof) : Follows scale k k [t] []
  /-- The line is the last one. -/
  | close {k : Nat} {t u : Token} (ht : t.kind = .newline) (hu : u.kind = .eof) :
      Follows scale k k [t, u] [lineAt scale k]
  /-- A token of the line. -/
  | token {k K : Nat} {t : Token} {rest : List Token} {ended : List Int} (he : t.kind ≠ .eof)
      (hn : t.kind ≠ .newline) (hl : t.kind ≠ .lineNumber) (h : Follows scale k K rest ended) :
      Follows scale k K (t :: rest) ended
  /-- Another line. -/
  | line {k K : Nat} {t u : Token} {rest : List Token} {ended : List Int}
      (ht : t.kind = .newline) (hu : u.kind = .lineNumber)
      (hv : u.value = Text.ofInt (lineAt scale (k + 1)))
      (h : Follows scale (k + 1) K rest ended) :
      Follows scale k K (t :: u :: rest) (lineAt scale k :: ended)

theorem Follows.append {K : Nat} {l rest : List Token} {ended : List Int}
    (h : Follows scale k K rest ended)
    (hl : ∀ t ∈ l, t.kind ≠ .eof ∧ t.kind ≠ .newline ∧ t.kind ≠ .lineNumber) :
    Follows scale k K (l ++ rest) ended := by
  induction l with
  | nil => exact h
  | cons t l ih =>
    rw [List.forall_mem_cons] at hl
    exact .token hl.1.1 hl.1.2.1 hl.1.2.2 (ih hl.2)

theorem Follows.closed {K : Nat} {tokens front : List Token} {ended : List Int} {newline last : Token}
    (h : Follows scale k K tokens ended) (ht : tokens = front ++ [newline, last])
    (hn : newline.kind = .newline) : k + ended.length = K + 1 := by
  induction h generalizing front with
  | last => cases front <;> simp at ht
  | close => rfl
  | token _ hne _ _ ih =>
    cases front with
    | nil =>
      cases ht
      exact absurd hn hne
    | cons u front => exact ih (List.cons.inj ht).2
  | line _ hu _ hf ih =>
    match front with
    | [] =>
      cases ht
      cases hf
    | [u] =>
      cases ht
      simp [hn] at hu
    | u :: w :: front =>
      simp only [List.cons_append, List.cons.injEq] at ht
      have := ih ht.2.2
      simp only [List.length_cons]
      omega

/-- The lines that are ended follow each other, and at most one of them is left unended. -/
theorem Follows.ended_eq {K : Nat} {tokens : List Token} {ended : List Int}
    (h : Follows scale k K tokens ended) :
    (∀ i n, ended[i]? = some n → n = lineAt scale (k + i)) ∧ K ≤ k + ended.length ∧
      k + ended.length ≤ K + 1 := by
  have first {k : Nat} {ended : List Int}
      (h : ∀ i n, ended[i]? = some n → n = lineAt scale (k + 1 + i)) :
      ∀ i n, (lineAt scale k :: ended)[i]? = some n → n = lineAt scale (k + i) := by
    intro i n hi
    cases i with
    | zero => exact (Option.some.inj hi).symm
    | succ i =>
      rw [h i n hi, Nat.add_right_comm, Nat.add_assoc]
  induction h with
  | last => simp
  | close => exact ⟨first (by simp), by simp, by simp⟩
  | token _ _ _ _ ih => exact ih
  | line _ _ _ _ ih =>
    obtain ⟨hn, hlo, hhi⟩ := ih
    refine ⟨first hn, ?_, ?_⟩
    · simp only [List.length_cons]
      omega
    · simp only [List.length_cons]
      omega

theorem shorten_kind {d : Dialect} {n known : Naming} {u : Token}
    (h : n.shorten d t = .ok (u, known)) : u.kind = t.kind := by
  unfold Naming.shorten at h
  split at h
  · cases h
    rfl
  · obtain ⟨given, -, he⟩ := Outcome.map_eq_ok_iff.1 h
    cases he
    rfl

theorem shorten_cases {d : Dialect} {u : Token} {σ τ : Session} (h : shorten d t σ = .ok u τ) :
    ∃ known, σ.naming.shorten d t = .ok (u, known) ∧ τ = { σ with naming := known } := by
  unfold shorten at h
  obtain ⟨n, ρ, hn, h⟩ := Conversion.bind_eq_ok_iff.1 h
  obtain ⟨⟨v, known⟩, ρ', hx, h⟩ := Conversion.bind_eq_ok_iff.1 h
  obtain ⟨_, ρ'', hset, hr⟩ := Conversion.bind_eq_ok_iff.1 h
  obtain ⟨rfl, rfl⟩ := Conversion.naming_eq_ok_iff.1 hn
  obtain ⟨hs, rfl⟩ := Conversion.ofExcept_eq_ok_iff.1 hx
  obtain ⟨rfl, rfl⟩ := Conversion.pure_eq_ok_iff.1 hr
  exact ⟨known, hs, Conversion.setNaming_eq_ok_iff.1 hset⟩

/-- A walk ends in front of the end of the program, or goes on behind its first token. -/
theorem walk_cases {d : Dialect} {rest : List Token} {last : State} {σ τ : Session}
    (h : walk d scale s (t :: rest) σ = .ok last τ) :
    (t.kind = .eof ∧ last = s.emit t ∧ τ = σ) ∨
      (t.kind = .identifier ∧ ∃ u known, σ.naming.shorten d t = .ok (u, known) ∧
        walk d scale (s.emit u) rest { σ with naming := known } = .ok last τ) ∨
      (t.kind ≠ .eof ∧ t.kind ≠ .identifier ∧ ∃ s', step scale s t (rest.headD t) = .ok s' ∧
        walk d scale s' rest σ = .ok last τ) := by
  simp only [walk] at h
  split at h
  · obtain ⟨rfl, rfl⟩ := Conversion.pure_eq_ok_iff.1 h
    exact .inl ⟨‹_›, rfl, rfl⟩
  · split at h
    · obtain ⟨u, ρ, hsh, hw⟩ := Conversion.bind_eq_ok_iff.1 h
      obtain ⟨known, hn, rfl⟩ := shorten_cases hsh
      exact .inr (.inl ⟨‹_›, u, known, hn, hw⟩)
    · obtain ⟨s', ρ, hx, hw⟩ := Conversion.bind_eq_ok_iff.1 h
      obtain ⟨hst, rfl⟩ := Conversion.ofExcept_eq_ok_iff.1 hx
      exact .inr (.inr ⟨‹_›, ‹_›, s', hst, hw⟩)

structure Point where
  state : State
  input : List Token
  session : Session

inductive Step (d : Dialect) (scale : Scale) : Point → Point → Prop
  /-- A variable gets its short name. -/
  | named {s : State} {t u : Token} {rest : List Token} {σ : Session} {known : Naming}
      (hk : t.kind = .identifier) (h : σ.naming.shorten d t = .ok (u, known)) :
      Step d scale ⟨s, t :: rest, σ⟩ ⟨s.emit u, rest, { σ with naming := known }⟩
  /-- Any other token. -/
  | token {s s' : State} {t : Token} {rest : List Token} {σ : Session} (he : t.kind ≠ .eof)
      (hi : t.kind ≠ .identifier) (h : step scale s t (rest.headD t) = .ok s') :
      Step d scale ⟨s, t :: rest, σ⟩ ⟨s', rest, σ⟩

abbrev Reaches (d : Dialect) (scale : Scale) : Point → Point → Prop :=
  Relation.ReflTransGen (Step d scale)

/-- What a walk emits behind the output it starts from, with the lines it reports. -/
structure Emission (scale : Scale) (lo k : Nat) (s last : State) (input : List Token)
    (K : Nat) (emitted : List Pending) (lines : List LineInfo) : Prop where
  tally : Tally scale lo K last
  out : last.out = emitted.reverse ++ s.out
  infos : last.infos = lines.reverse ++ s.infos
  follows : Follows scale k K (emitted.map Pending.token) (lines.map LineInfo.number)
  compounds : ∀ p ∈ emitted, p.token.kind = .compound → p.token ∈ input

variable {last : State} {rest : List Token} {K : Nat} {emitted : List Pending}
  {lines : List LineInfo}

theorem Emission.stays (hst : Stays t s s') (he : t.kind ≠ .eof) (hn : t.kind ≠ .newline)
    (hl : t.kind ≠ .lineNumber) (h : Emission scale lo k s' last rest K emitted lines) :
    ∃ more, Emission scale lo k s last (t :: rest) K more lines := by
  obtain ⟨sent, hout, hsent⟩ := hst.out
  refine ⟨sent.reverse ++ emitted, h.tally, ?_, ?_, ?_, ?_⟩
  · rw [h.out, hout]
    simp
  · rw [h.infos, hst.infos]
  · rw [List.map_append]
    refine h.follows.append ?_
    simp only [List.map_reverse, List.mem_reverse, List.mem_map]
    rintro u ⟨p, hp, rfl⟩
    rw [(hsent p hp).1]
    exact ⟨he, hn, hl⟩
  · intro p hp hc
    rcases List.mem_append.1 hp with hp | hp
    · have hk := (hsent p (List.mem_reverse.1 hp)).1
      rw [(hsent p (List.mem_reverse.1 hp)).2 (by rw [← hk, hc]; rfl)]
      exact List.mem_cons_self
    · exact List.mem_cons_of_mem _ (h.compounds p hp hc)

theorem Emission.line (ht : t.kind = .newline) (hs : s.line = lineAt scale k)
    (h : Emission scale lo (k + 1) (({ s with
        infos := infoOf s t :: s.infos, line := wrap (s.line + scale.step) }.emit t).emit
      (numberToken (wrap (s.line + scale.step)) t next)) last rest K emitted lines) :
    Emission scale lo k s last (t :: rest) K
      (⟨t, none⟩ :: ⟨numberToken (wrap (s.line + scale.step)) t next, none⟩ :: emitted)
      (infoOf s t :: lines) := by
  have hline : wrap (s.line + scale.step) = lineAt scale (k + 1) := by rw [hs, lineAt_succ]
  refine ⟨h.tally, ?_, ?_, ?_, ?_⟩
  · simp [h.out, State.emit]
  · simp [h.infos, State.emit]
  · have hv : (numberToken (wrap (s.line + scale.step)) t next).value =
        Text.ofInt (lineAt scale (k + 1)) := by rw [← hline]; rfl
    have hf : Follows scale k K (t :: numberToken (wrap (s.line + scale.step)) t next ::
        emitted.map Pending.token) (lineAt scale k :: lines.map LineInfo.number) :=
      .line ht rfl hv h.follows
    rw [← hs] at hf
    exact hf
  · intro p hp hc
    simp only [List.mem_cons] at hp
    rcases hp with rfl | rfl | hp
    · simp [ht] at hc
    · cases hc
    · exact List.mem_cons_of_mem _ (h.compounds p hp hc)

theorem walk_emission {d : Dialect} {input : List Token} {σ τ : Session}
    (h : walk d scale s input σ = .ok last τ) (hu : ∀ t ∈ input, t.kind ≠ .lineNumber)
    (hs : Tally scale lo k s) :
    ∃ K emitted lines, Emission scale lo k s last input K emitted lines := by
  induction input generalizing s k σ with
  | nil => exact absurd h Conversion.throw_ne_ok
  | cons t rest ih =>
    rw [List.forall_mem_cons] at hu
    rcases walk_cases h with ⟨he, rfl, rfl⟩ | ⟨hi, u, known, hsh, hw⟩ | ⟨he, hi, s', hst, hw⟩
    · have hp : t.kind.isPlaceholder = false := by rw [he]; rfl
      exact ⟨k, [⟨t, none⟩], [], hs.emit hp, rfl, rfl, .last he, by simp [he]⟩
    · have hk : u.kind = .identifier := (shorten_kind hsh).trans hi
      obtain ⟨K, emitted, lines, hem⟩ := ih hw hu.2 (hs.emit (by rw [hk]; rfl))
      refine ⟨K, ⟨u, none⟩ :: emitted, lines, hem.tally, ?_, hem.infos, ?_, ?_⟩
      · simp [hem.out, State.emit]
      · exact .token (by simp [hk]) (by simp [hk]) (by simp [hk]) hem.follows
      · refine List.forall_mem_cons.2 ⟨by simp [hk], ?_⟩
        exact fun p hp hc => List.mem_cons_of_mem _ (hem.compounds p hp hc)
    · by_cases hn : t.kind = .newline
      · have hend : endLine scale.step s t (rest.headD t) = .ok s' := by
          simpa [step, hn] using hst
        rcases endLine_cases hend with ⟨hk, rfl⟩ | ⟨hk, rfl⟩
        · -- the next token ends the program, so the walk is over behind it
          obtain ⟨u, left, rfl⟩ : ∃ u left, rest = u :: left := by
            cases rest with
            | nil => simp [hn] at hk
            | cons u left => exact ⟨u, left, rfl⟩
          have hk' : u.kind = .eof := hk
          rcases walk_cases hw with ⟨-, rfl, -⟩ | ⟨hi', -⟩ | ⟨he', -⟩
          · have hinfo : Tally scale lo k { s with infos := infoOf s t :: s.infos } :=
              ⟨hs.line, hs.low, hs.labels, hs.routines, hs.ends, hs.awaited, hs.settled⟩
            refine ⟨k, [⟨t, none⟩, ⟨u, none⟩], [infoOf s t],
              (hinfo.emit (by rw [hn]; rfl)).emit (by rw [hk']; rfl), rfl, rfl, ?_, by simp [hn, hk']⟩
            simp only [List.map_cons, List.map_nil, infoOf, hs.line]
            exact .close hn hk'
          · simp [hk'] at hi'
          · exact absurd hk' he'
        · have hinfo : Tally scale lo k { s with infos := infoOf s t :: s.infos } :=
            ⟨hs.line, hs.low, hs.labels, hs.routines, hs.ends, hs.awaited, hs.settled⟩
          obtain ⟨K, emitted, lines, hem⟩ :=
            ih hw hu.2 ((hinfo.next_line.emit (by rw [hn]; rfl)).emit rfl)
          exact ⟨K, _, _, hem.line hn hs.line⟩
      · obtain ⟨htally, hstays⟩ := step_tally hst hn hs
        obtain ⟨K, emitted, lines, hem⟩ := ih hw hu.2 htally
        obtain ⟨more, hem'⟩ := hem.stays hstays he hn hu.1
        exact ⟨K, more, lines, hem'⟩

def State.linesOf (s : State) : Target → List (Text × Int)
  | .label => s.labels
  | .pastLoop => s.ends
  | .routine => s.routines

theorem mem_of_lookup {name : Text} {n : Int} {lines : List (Text × Int)}
    (h : lines.lookup name = some n) : ∃ e ∈ lines, e.2 = n := by
  obtain ⟨l₁, l₂, rfl, -⟩ := List.lookup_eq_some_iff.1 h
  exact ⟨(name, n), by simp, rfl⟩

/-- Whether a line noted for placeholders of one sort may replace them: a line behind a loop is not
behind the last line. -/
def State.admits (s : State) (target : Target) (n : Int) : Prop :=
  target = .pastLoop → n ≤ s.line

theorem settle_cases {target : Target} {p q : Pending} (h : settle s target p = .ok q) :
    (p.target ≠ some target ∧ q = p) ∨
      (p.target = some target ∧ ∃ n, (s.linesOf target).lookup (key p.token) = some n ∧
        s.admits target n ∧ q = ⟨p.token.withValue (Text.ofInt n), none⟩) := by
  unfold settle at h
  dsimp only at h
  split at h
  · cases h
    exact .inl ⟨‹_›, rfl⟩
  · rename_i ht
    refine .inr ⟨Decidable.not_not.1 ht, ?_⟩
    split at h
    · split at h
      · cases h
        exact ⟨_, ‹_›, by simp [State.admits], rfl⟩
      · cases h
    · split at h
      · split at h
        · cases h
        · rename_i hlt
          cases h
          exact ⟨_, ‹_›, fun _ => Int.not_lt.1 hlt, rfl⟩
      · cases h
    · split at h
      · cases h
        exact ⟨_, ‹_›, by simp [State.admits], rfl⟩
      · cases h

/-- What becomes of a pending token: a placeholder gets the number that is noted for its name. -/
structure Finds (s : State) (p : Pending) (t : Token) : Prop where
  kept : p.target = none → t = p.token
  found : ∀ target, p.target = some target → ∃ n, (s.linesOf target).lookup (key p.token) = some n ∧
    s.admits target n ∧ t = p.token.withValue (Text.ofInt n)

theorem finds_of_settle {p q r u : Pending} (h₁ : settle s .label p = .ok q)
    (h₂ : settle s .pastLoop q = .ok r) (h₃ : settle s .routine r = .ok u) : Finds s p u.token := by
  have one {target : Target} {n : Int} (hp : p.target = some target)
      (hn : (s.linesOf target).lookup (key p.token) = some n) (ha : s.admits target n)
      (hu : u.token = p.token.withValue (Text.ofInt n)) : Finds s p u.token := by
    refine ⟨fun h => absurd (hp.symm.trans h) (by simp), fun target' h => ?_⟩
    cases hp.symm.trans h
    exact ⟨n, hn, ha, hu⟩
  rcases settle_cases h₁ with ⟨hp, rfl⟩ | ⟨hp, n, hn, ha, rfl⟩
  · rcases settle_cases h₂ with ⟨hq, rfl⟩ | ⟨hq, n, hn, ha, rfl⟩
    · rcases settle_cases h₃ with ⟨hr, rfl⟩ | ⟨hr, n, hn, ha, rfl⟩
      · refine ⟨fun _ => rfl, fun target ht => ?_⟩
        cases target with
        | label => exact absurd ht hp
        | pastLoop => exact absurd ht hq
        | routine => exact absurd ht hr
      · exact one hr hn ha rfl
    · rcases settle_cases h₃ with ⟨-, rfl⟩ | ⟨hr, -⟩
      · exact one hq hn ha rfl
      · cases hr
  · rcases settle_cases h₂ with ⟨-, rfl⟩ | ⟨hq, -⟩
    · rcases settle_cases h₃ with ⟨-, rfl⟩ | ⟨hr, -⟩
      · exact one hp hn ha rfl
      · cases hr
    · cases hq

theorem forall₂_settle {pending jumps exits calls : List Pending}
    (h₁ : List.Forall₂ (fun p q => settle s .label p = .ok q) pending jumps)
    (h₂ : List.Forall₂ (fun p q => settle s .pastLoop p = .ok q) jumps exits)
    (h₃ : List.Forall₂ (fun p q => settle s .routine p = .ok q) exits calls) :
    List.Forall₂ (Finds s) pending (calls.map Pending.token) := by
  induction h₁ generalizing exits calls with
  | nil =>
    cases h₂
    cases h₃
    exact .nil
  | cons hp _ ih =>
    cases h₂ with
    | cons hq h₂ =>
      cases h₃ with
      | cons hr h₃ => exact .cons (finds_of_settle hp hq hr) (ih h₂ h₃)

theorem forall₂_finds {tokens : List Token} (h : resolve s = .ok tokens) :
    List.Forall₂ (Finds s) s.out.reverse tokens := by
  unfold resolve at h
  obtain ⟨jumps, h₁, h⟩ := Outcome.bind_eq_ok_iff.1 h
  obtain ⟨exits, h₂, h⟩ := Outcome.bind_eq_ok_iff.1 h
  obtain ⟨calls, h₃, h⟩ := Outcome.bind_eq_ok_iff.1 h
  cases h
  exact forall₂_settle (Outcome.forall₂_of_mapM h₁) (Outcome.forall₂_of_mapM h₂)
    (Outcome.forall₂_of_mapM h₃)

/-- What becomes of a pending token, whatever its name: a placeholder gets the number of a line that
was noted. -/
def Resolved (s : State) (p : Pending) (t : Token) : Prop :=
  (p.target = none ∧ t = p.token) ∨
    ∃ target, p.target = some target ∧ ∃ e ∈ s.linesOf target, s.admits target e.2 ∧
      t = p.token.withValue (Text.ofInt e.2)

theorem Finds.resolved {p : Pending} (h : Finds s p t) : Resolved s p t := by
  cases hp : p.target with
  | none => exact .inl ⟨hp, h.kept hp⟩
  | some target =>
    obtain ⟨n, hn, ha, ht⟩ := h.found target hp
    obtain ⟨e, he, rfl⟩ := mem_of_lookup hn
    exact .inr ⟨target, hp, e, he, ha, ht⟩

theorem Finds.kind {p : Pending} (h : Finds s p t) : t.kind = p.token.kind := by
  cases hp : p.target with
  | none => rw [h.kept hp]
  | some target =>
    obtain ⟨n, -, -, rfl⟩ := h.found target hp
    rfl

theorem forall₂_resolve {tokens : List Token} (h : resolve s = .ok tokens) :
    List.Forall₂ (Resolved s) s.out.reverse tokens :=
  (forall₂_finds h).imp fun _ _ => Finds.resolved

/-- The shape of a program is that of its kinds and of the numbers of its lines. -/
theorem Follows.congr {l l' : List Token} {ended : List Int} (h : Follows scale k K l ended)
    (hl : List.Forall₂ (fun t u => u.kind = t.kind ∧ (t.kind = .lineNumber → u.value = t.value))
      l l') : Follows scale k K l' ended := by
  induction h generalizing l' with
  | last ht =>
    cases hl with
    | cons h₁ hl =>
      cases hl
      exact .last (h₁.1.trans ht)
  | close ht hu =>
    cases hl with
    | cons h₁ hl =>
      cases hl with
      | cons h₂ hl =>
        cases hl
        exact .close (h₁.1.trans ht) (h₂.1.trans hu)
  | token he hn hk _ ih =>
    cases hl with
    | cons h₁ hl =>
      exact .token (by rwa [h₁.1]) (by rwa [h₁.1]) (by rwa [h₁.1]) (ih hl)
  | line ht hu hv _ ih =>
    cases hl with
    | cons h₁ hl =>
      cases hl with
      | cons h₂ hl => exact .line (h₁.1.trans ht) (h₂.1.trans hu) ((h₂.2 hu).trans hv) (ih hl)

/-- Whether a placeholder may become `n` when `k` line ends have been passed: the number of one of the
lines from `lo` on, or of the next one if that is not greater. -/
def Aimed (scale : Scale) (lo k : Nat) (n : Int) : Prop :=
  Known scale lo k n ∨ (n = lineAt scale (k + 1) ∧ n ≤ lineAt scale k)

theorem Tally.aimed (h : Tally scale lo k s) {target : Target} {e : Text × Int}
    (he : e ∈ s.linesOf target) (ha : s.admits target e.2) : Aimed scale lo k e.2 := by
  cases target with
  | label => exact .inl (h.labels e he)
  | pastLoop =>
    obtain ⟨i, hlo, hhi, hn⟩ := h.ends e he
    have hle := ha rfl
    rw [h.line] at hle
    by_cases hi : i ≤ k
    · exact .inl ⟨i, hlo, hi, hn⟩
    · obtain rfl : i = k + 1 := by omega
      exact .inr ⟨hn, hle⟩
  | routine => exact .inl (h.routines e he)

theorem Resolved.kind {p : Pending} (h : Resolved s p t) : t.kind = p.token.kind := by
  rcases h with ⟨-, rfl⟩ | ⟨target, -, e, -, -, rfl⟩
  · rfl
  · rfl

theorem Resolved.token {p : Pending} (h : Resolved s p t)
    (hp : p.target ≠ none → p.token.kind.isPlaceholder) (ht : t.kind.isPlaceholder = false) :
    t = p.token := by
  have hk := h.kind
  rcases h with ⟨-, rfl⟩ | ⟨target, htarget, -⟩
  · rfl
  · have := hp (by simp [htarget])
    rw [hk, this] at ht
    cases ht

/-- Every placeholder has become the number of a line that was passed, unless numbers overflow. -/
theorem Resolved.aimed {p : Pending} (h : Resolved s p t) (hs : Tally scale lo k s)
    (hp : p ∈ s.out) (ht : t.kind.isPlaceholder) :
    ∃ n, Aimed scale lo k n ∧ t.value = Text.ofInt n := by
  rcases h with ⟨hnone, rfl⟩ | ⟨target, -, e, he, ha, rfl⟩
  · obtain ⟨n, hn, hv⟩ := hs.settled p hp ht hnone
    exact ⟨n, .inl hn, hv⟩
  · exact ⟨e.2, hs.aimed he ha, rfl⟩

/-- What numbering makes of the tokens `input` behind the start of a program. -/
structure Layout (scale : Scale) (lo K : Nat) (input tail : List Token) (ended : List Int) :
    Prop where
  follows : Follows scale 0 K tail ended
  targets : ∀ t ∈ tail, t.kind.isPlaceholder → ∃ n, Aimed scale lo K n ∧ t.value = Text.ofInt n
  compounds : ∀ t ∈ tail, t.kind = .compound → t ∈ input

theorem Resolved.eq_token (h : Resolved s ⟨next, none⟩ t) : t = next := by
  rcases h with ⟨-, rfl⟩ | ⟨target, htarget, -⟩
  · rfl
  · cases htarget

theorem resolve_cases {start second : Token} {tokens : List Token}
    (hout : last.out = emitted.reverse ++ [⟨second, none⟩, ⟨start, none⟩])
    (h : resolve last = .ok tokens) :
    ∃ tail, tokens = start :: second :: tail ∧ List.Forall₂ (Resolved last) emitted tail := by
  have hr := forall₂_resolve h
  have hrev : last.out.reverse = ⟨start, none⟩ :: ⟨second, none⟩ :: emitted := by simp [hout]
  rw [hrev] at hr
  obtain ⟨t, tail₀, ht, hr', rfl⟩ := List.forall₂_cons_left_iff.1 hr
  obtain ⟨u, tail, hu, hr'', rfl⟩ := List.forall₂_cons_left_iff.1 hr'
  obtain rfl := ht.eq_token
  obtain rfl := hu.eq_token
  exact ⟨tail, rfl, hr''⟩

theorem layout_of_resolve {start second : Token} {tokens : List Token} {ended : List Int}
    (hk : second.kind.isPlaceholder = false)
    (hout : last.out = emitted.reverse ++ [⟨second, none⟩, ⟨start, none⟩])
    (hs : Tally scale lo K last) (hf : Follows scale 0 K (second :: emitted.map Pending.token) ended)
    (hc : ∀ p ∈ emitted, p.token.kind = .compound → p.token ∈ rest)
    (h : resolve last = .ok tokens) :
    ∃ tail, tokens = start :: second :: tail ∧
      Layout scale lo K (second :: rest) (second :: tail) ended := by
  obtain ⟨tail, rfl, hr⟩ := resolve_cases hout h
  have hmem : ∀ p ∈ emitted, p ∈ last.out := fun p hp => by simp [hout, hp]
  refine ⟨tail, rfl, hf.congr ?_, ?_, ?_⟩
  · refine .cons ⟨rfl, fun _ => rfl⟩ ?_
    rw [List.forall₂_map_left_iff]
    have hboth := (List.forall₂_and_left _ _).2 ⟨fun p hp => hs.awaited p (hmem p hp), hr⟩
    refine hboth.imp fun p t h => ⟨h.2.kind, fun hl => ?_⟩
    rw [h.2.token h.1 (by rw [h.2.kind, hl]; rfl)]
  · refine List.forall_mem_cons.2 ⟨by simp [hk], fun t ht hkind => ?_⟩
    obtain ⟨p, hp, hpt⟩ := Outcome.exists_of_forall₂ hr ht
    exact hpt.aimed hs (hmem p hp) hkind
  · refine List.forall_mem_cons.2 ⟨fun _ => List.mem_cons_self, fun t ht hkind => ?_⟩
    obtain ⟨p, hp, hpt⟩ := Outcome.exists_of_forall₂ hr ht
    have heq := hpt.token (hs.awaited p (hmem p hp)) (by rw [hkind]; rfl)
    rw [heq]
    exact List.mem_cons_of_mem _ (hc p hp (heq ▸ hkind))

/-- What numbering starts from. -/
def opening (scale : Scale) (start : Token) : State :=
  { line := lineAt scale 0, out := [⟨start, none⟩] }

theorem number_cases {d : Dialect} {start : Token} {numbered : Numbered} {σ τ : Session}
    (h : number d scale (start :: rest) σ = .ok numbered τ) :
    ∃ last, walk d scale (opening scale start) rest σ = .ok last τ ∧
      resolve last = .ok numbered.tokens ∧ numbered.infos = last.infos.reverse := by
  simp only [number] at h
  obtain ⟨last, ρ, hw, h⟩ := Conversion.bind_eq_ok_iff.1 h
  obtain ⟨tokens, ρ', hx, hp⟩ := Conversion.bind_eq_ok_iff.1 h
  obtain ⟨hr, rfl⟩ := Conversion.ofExcept_eq_ok_iff.1 hx
  obtain ⟨rfl, rfl⟩ := Conversion.pure_eq_ok_iff.1 hp
  rw [lineAt_zero] at hw
  exact ⟨last, hw, hr, rfl⟩

/-- The first line that anything can be noted for: nothing comes in front of the first line end when
it is in place. -/
def firstLine (second : Token) : Nat := if second.kind = .newline then 1 else 0

theorem layout_of_empty {start second u : Token} {tokens : List Token}
    (hk : second.kind = .newline) (hu : u.kind = .eof)
    (hout : last.out = [⟨u, none⟩].reverse ++ [⟨second, none⟩, ⟨start, none⟩])
    (h : resolve last = .ok tokens) :
    tokens = [start, second, u] ∧
      Layout scale lo 0 (second :: u :: rest) [second, u] [lineAt scale 0] := by
  obtain ⟨tail, rfl, hres⟩ := resolve_cases hout h
  obtain ⟨v, tail', hv, hnil, rfl⟩ := List.forall₂_cons_left_iff.1 hres
  obtain rfl := hv.eq_token
  cases hnil
  exact ⟨rfl, .close hk hu, by simp [hk, hu, Kind.isPlaceholder], by simp [hk, hu]⟩

theorem layout_of_newline {d : Dialect} {start second : Token} {tokens : List Token} {σ τ : Session}
    (hstart : start.kind = .program) (hk : second.kind = .newline)
    (hu : ∀ t ∈ rest, t.kind ≠ .lineNumber)
    (hw : walk d scale (({ opening scale start with
        infos := [infoOf (opening scale start) second],
        line := wrap ((opening scale start).line + scale.step) }.emit second).emit
        (numberToken (wrap ((opening scale start).line + scale.step)) second next)) rest σ =
      .ok last τ)
    (h : resolve last = .ok tokens) :
    ∃ K tail, tokens = start :: second :: tail ∧
      Layout scale 1 K (second :: rest) (second :: tail)
        (last.infos.reverse.map LineInfo.number) := by
  have hone : Tally scale 1 1 (({ opening scale start with
      infos := [infoOf (opening scale start) second],
      line := wrap ((opening scale start).line + scale.step) }.emit second).emit
      (numberToken (wrap ((opening scale start).line + scale.step)) second next)) := by
    refine ⟨lineAt_succ scale 0, Nat.le_refl 1, by simp [State.emit, opening],
      by simp [State.emit, opening], by simp [State.emit, opening],
      by simp [State.emit, opening], ?_⟩
    simp [State.emit, opening, numberToken, Kind.isPlaceholder, hstart, hk]
  obtain ⟨K, emitted, lines, hem⟩ := walk_emission hw hu hone
  have hem' := hem.line (s := opening scale start) hk rfl
  have hout : last.out = (⟨numberToken (wrap ((opening scale start).line + scale.step)) second next,
      none⟩ :: emitted).reverse ++ [⟨second, none⟩, ⟨start, none⟩] := by
    simp [hem.out, State.emit, opening]
  obtain ⟨tail, htok, hlay⟩ := layout_of_resolve (by rw [hk]; rfl) hout hem'.tally hem'.follows
    (List.forall_mem_cons.2 ⟨by simp [numberToken], hem.compounds⟩) h
  refine ⟨K, tail, htok, ?_⟩
  rw [hem'.infos]
  simpa [opening] using hlay

/-- Behind a separator in place of the first line end, a line without a number is being read. -/
theorem layout_of_separator {d : Dialect} {start second : Token} {tokens : List Token}
    {σ τ : Session} (hstart : start.kind = .program) (hk : second.kind = .separator)
    (hu : ∀ t ∈ rest, t.kind ≠ .lineNumber)
    (hw : walk d scale ((opening scale start).emit second) rest σ = .ok last τ)
    (h : resolve last = .ok tokens) :
    ∃ K tail, tokens = start :: second :: tail ∧
      Layout scale 0 K (second :: rest) (second :: tail)
        (last.infos.reverse.map LineInfo.number) := by
  have hzero : Tally scale 0 0 (opening scale start) :=
    ⟨rfl, Nat.le_refl 0, by simp [opening], by simp [opening], by simp [opening],
      by simp [opening], by simp [opening, hstart, Kind.isPlaceholder]⟩
  obtain ⟨K, emitted, lines, hem⟩ := walk_emission hw hu (hzero.emit (by rw [hk]; rfl))
  have hf : Follows scale 0 K (second :: emitted.map Pending.token)
      (lines.map LineInfo.number) :=
    .token (by simp [hk]) (by simp [hk]) (by simp [hk]) hem.follows
  obtain ⟨tail, htok, hlay⟩ := layout_of_resolve (by rw [hk]; rfl) (by rw [hem.out]; rfl)
    hem.tally hf hem.compounds h
  refine ⟨K, tail, htok, ?_⟩
  rw [hem.infos]
  simpa [State.emit, opening] using hlay

/-- Numbering keeps the first two tokens of a program and lays out the rest in numbered lines. -/
theorem number_layout {d : Dialect} {start second : Token} {numbered : Numbered} {σ τ : Session}
    (h : number d scale (start :: second :: rest) σ = .ok numbered τ)
    (hstart : start.kind = .program) (hk : second.kind = .newline ∨ second.kind = .separator)
    (hu : ∀ t ∈ rest, t.kind ≠ .lineNumber) :
    ∃ K tail, numbered.tokens = start :: second :: tail ∧
      Layout scale (firstLine second) K (second :: rest) (second :: tail)
        (numbered.infos.map LineInfo.number) := by
  obtain ⟨last, hw, hr, hi⟩ := number_cases h
  rw [hi]
  rcases walk_cases hw with ⟨he, -⟩ | ⟨hid, -⟩ | ⟨-, -, s', hst, hw⟩
  · rcases hk with hk | hk <;> simp [hk] at he
  · rcases hk with hk | hk <;> simp [hk] at hid
  rcases hk with hk | hk
  · have hlo : firstLine second = 1 := by simp [firstLine, hk]
    rw [hlo]
    have hend : endLine scale.step (opening scale start) second (rest.headD second) = .ok s' := by
      simpa [step, hk] using hst
    rcases endLine_cases hend with ⟨hnext, rfl⟩ | ⟨-, rfl⟩
    · cases rest with
      | nil => simp [hk] at hnext
      | cons u left =>
        have hu' : u.kind = .eof := hnext
        rcases walk_cases hw with ⟨-, rfl, -⟩ | ⟨hid, -⟩ | ⟨he, -⟩
        · obtain ⟨htok, hlay⟩ := layout_of_empty hk hu' rfl hr
          exact ⟨0, [u], htok, hlay⟩
        · simp [hu'] at hid
        · exact absurd hu' he
    · exact layout_of_newline hstart hk hu hw hr
  · have hlo : firstLine second = 0 := by simp [firstLine, hk]
    rw [hlo]
    obtain rfl : s' = (opening scale start).emit second := by
      simpa [step, hk] using hst.symm
    exact layout_of_separator hstart hk hu hw hr

end Numbering

end ClassicBasic
