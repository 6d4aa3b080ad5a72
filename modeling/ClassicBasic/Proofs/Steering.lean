import ClassicBasic.Proofs.Loops
import ClassicBasic.Proofs.Sentinels

/-!
# Where loops lead

The fourth stage notes the line of each mark and the line behind each closing by name and file, and no
name of a file marks two lines. So a jump to a name and a file is the jump to the innermost loop that
is open in the file: the closing of a loop leads to the line of its mark, and the way out of it to the
line behind its closing.
-/

set_option autoImplicit false

namespace ClassicBasic

namespace Numbering

/-- A loop of a program: its mark, the line on which it starts and the line behind the one on which it
ends. -/
structure Loop where
  mark : Token
  start : Int
  past : Int

/-- Whether the jumps of the loops in a list of tokens have become those of another list, where `loops`
are open, innermost first, and `line` is the number that has last been put out: the closing of a loop
leads to the line of its mark, and the way out of it to the line behind that of its closing, which is
not beyond `top`, the number that is put out last of all. -/
inductive Steers (scale : Scale) (top : Int) : List Loop → Int → List Token → List Token → Prop
  | ending {t : Token} (ht : t.kind = .eof) : Steers scale top [] top [t] [t]
  /-- A number comes behind a line end. -/
  | line {loops : List Loop} {line next : Int} {t number : Token} {rest new : List Token}
      (ht : t.kind = .newline) (hn : number.kind = .lineNumber) (hv : number.value = Text.ofInt next)
      (h : Steers scale top loops next rest new) :
      Steers scale top loops line (t :: rest) (t :: number :: new)
  /-- The mark of a function is gone. -/
  | entry {loops : List Loop} {line : Int} {t : Token} {rest new : List Token}
      (ht : t.kind = .functionEntry) (h : Steers scale top loops line rest new) :
      Steers scale top loops line (t :: rest) new
  | token {loops : List Loop} {line : Int} {t u : Token} {rest new : List Token}
      (ht : t.kind.isLooped = false) (hu : u.kind = t.kind)
      (h : Steers scale top loops line rest new) : Steers scale top loops line (t :: rest) (u :: new)
  /-- The mark of a line is gone. -/
  | label {loops : List Loop} {line : Int} {t : Token} {rest new : List Token}
      (ht : t.kind = .labelLine) (h : Steers scale top loops line rest new) :
      Steers scale top loops line (t :: rest) new
  /-- A loop starts. -/
  | opens {loops : List Loop} {line past : Int} {t : Token} {rest new : List Token}
      (ht : t.kind = .labelLine) (h : Steers scale top (⟨t, line, past⟩ :: loops) line rest new) :
      Steers scale top loops line (t :: rest) new
  /-- The innermost loop ends. -/
  | closes {loop : Loop} {loops : List Loop} {line : Int} {t u : Token} {rest new : List Token}
      (ht : t.kind = .labelReturn) (hm : t.Matches loop.mark) (hu : u.kind = t.kind)
      (hv : u.value = Text.ofInt loop.start) (hp : loop.past = wrap (line + scale.step))
      (h : Steers scale top loops line rest new) :
      Steers scale top (loop :: loops) line (t :: rest) (u :: new)
  /-- The innermost loop is left. -/
  | leaves {loop : Loop} {loops : List Loop} {line : Int} {t u : Token} {rest new : List Token}
      (ht : t.kind = .labelExit) (hm : t.Matches loop.mark) (hu : u.kind = t.kind)
      (hv : u.value = Text.ofInt loop.past) (hp : loop.past ≤ top)
      (h : Steers scale top (loop :: loops) line rest new) :
      Steers scale top (loop :: loops) line (t :: rest) (u :: new)

variable {d : Dialect} {scale : Scale} {s s' last : State} {t next : Token} {σ τ : Session}
  {input : List Token}

theorem step_tables (h : step scale s t next = .ok s') :
    (s'.labels = (if t.kind = .labelLine then [(key t, s.line)] else []) ++ s.labels ∧
      s'.ends = (if t.kind = .labelReturn then [(key t, wrap (s.line + scale.step))] else []) ++ s.ends) ∧
    (t.kind = .labelLine → s.labels.lookup (key t) = none) := by
  have jumped : (jump scale.step s t).labels = s.labels ∧ (jump scale.step s t).ends =
      (if t.kind = .labelReturn then [(key t, wrap (s.line + scale.step))] else []) ++ s.ends := by
    simp only [jump]
    split <;> split <;> exact ⟨rfl, rfl⟩
  unfold step at h
  split at h
  · rename_i hk
    unfold markLabel at h
    split at h
    · cases h
    · rename_i hnone
      cases h
      exact ⟨⟨by rw [hk]; rfl, by rw [hk]; rfl⟩, fun _ => Option.not_isSome_iff_eq_none.1 hnone⟩
  · rename_i hk
    cases h
    exact ⟨⟨by simp [hk, jumped.1], jumped.2⟩, by simp [hk]⟩
  · rename_i hk
    cases h
    exact ⟨⟨by simp [hk, jumped.1], jumped.2⟩, by simp [hk]⟩
  · rename_i hk
    cases h
    exact ⟨⟨by rw [hk]; rfl, by rw [hk]; rfl⟩, by simp [hk]⟩
  · rename_i hk
    cases h
    exact ⟨⟨by rw [hk]; rfl, by rw [hk]; rfl⟩, by simp [hk]⟩
  · rename_i hk
    cases h
    exact ⟨⟨by rw [hk]; rfl, by rw [hk]; rfl⟩, by simp [hk]⟩
  · rename_i hk
    rcases endLine_cases h with ⟨-, rfl⟩ | ⟨-, rfl⟩ <;>
      exact ⟨⟨by rw [hk]; rfl, by rw [hk]; rfl⟩, by simp [hk]⟩
  · rename_i hl _ hr _ _ _ _
    cases h
    exact ⟨⟨by rw [if_neg hl]; rfl, by rw [if_neg hr]; rfl⟩, fun hk => absurd hk hl⟩

theorem lookup_append_of_ne {κ κ' : Text} {n : Int} {lines : List (Text × Int)} {p : Prop}
    [Decidable p] (h : p → κ ≠ κ') :
    ((if p then [(κ', n)] else []) ++ lines).lookup κ = lines.lookup κ := by
  split
  · rename_i hp
    have hne : (κ == κ') = false := by simpa using h hp
    simp [List.lookup_cons, hne]
  · rfl

theorem walk_labels {κ : Text} {n : Int} (h : walk d scale s input σ = .ok last τ)
    (hs : s.labels.lookup κ = some n) : last.labels.lookup κ = some n := by
  induction input generalizing s σ with
  | nil => exact absurd h Conversion.throw_ne_ok
  | cons t rest ih =>
    rcases walk_cases h with ⟨-, rfl, -⟩ | ⟨-, u, known, -, hw⟩ | ⟨-, -, s', hst, hw⟩
    · exact hs
    · exact ih hw hs
    · obtain ⟨⟨hlabels, -⟩, hnew⟩ := step_tables hst
      refine ih hw ?_
      rw [hlabels, lookup_append_of_ne fun hk heq => ?_, hs]
      rw [heq, hnew hk] at hs
      cases hs

theorem walk_distinct (h : walk d scale s input σ = .ok last τ) (hi : Fed Token.Inside input) :
    ((input.filter (·.kind = .labelLine)).map key).Nodup ∧
      ∀ t ∈ input, t.kind = .labelLine → s.labels.lookup (key t) = none := by
  induction input generalizing s σ with
  | nil => exact absurd h Conversion.throw_ne_ok
  | cons t rest ih =>
    have unmarked (hk : t.kind ≠ .labelLine) {s' : State} (hs : s'.labels = s.labels)
        (h : ((rest.filter (·.kind = .labelLine)).map key).Nodup ∧
          ∀ u ∈ rest, u.kind = .labelLine → s'.labels.lookup (key u) = none) :
        (((t :: rest).filter (·.kind = .labelLine)).map key).Nodup ∧
          ∀ u ∈ t :: rest, u.kind = .labelLine → s.labels.lookup (key u) = none := by
      rw [hs] at h
      exact ⟨by simpa [hk] using h.1, List.forall_mem_cons.2 ⟨fun ht => absurd ht hk, h.2⟩⟩
    rcases walk_cases h with ⟨he, -, -⟩ | ⟨hk, u, known, -, hw⟩ | ⟨-, -, s', hst, hw⟩
    · obtain ⟨-, rfl⟩ := (hi t rest (List.suffix_refl _)).resolve_left fun hin => hin.ne_eof he
      simp [he]
    · have hsame : (s.emit u).labels = s.labels := rfl
      exact unmarked (by simp [hk]) hsame (ih hw hi.tail)
    · obtain ⟨⟨hlabels, -⟩, hnew⟩ := step_tables hst
      obtain ⟨hrest, hfresh⟩ := ih hw hi.tail
      by_cases hk : t.kind = .labelLine
      · rw [hlabels, if_pos hk] at hfresh
        have apart : ∀ u ∈ rest, u.kind = .labelLine →
            key u ≠ key t ∧ s.labels.lookup (key u) = none := by
          intro u hu hku
          have hnone := hfresh u hu hku
          rw [List.singleton_append, List.lookup_cons] at hnone
          split at hnone
          · cases hnone
          · exact ⟨by simpa using ‹(key u == key t) = false›, hnone⟩
        refine ⟨?_, List.forall_mem_cons.2 ⟨hnew, fun u hu hku => (apart u hu hku).2⟩⟩
        rw [List.filter_cons_of_pos (by simpa using hk), List.map_cons, List.nodup_cons]
        refine ⟨fun hmem => ?_, hrest⟩
        obtain ⟨u, hu, heq⟩ := List.mem_map.1 hmem
        obtain ⟨hu, hku⟩ := List.mem_filter.1 hu
        exact (apart u hu (by simpa using hku)).1 heq
      · rw [if_neg hk] at hlabels
        exact unmarked hk hlabels ⟨hrest, hfresh⟩

theorem key_eq_of_matches {m : Token} (h : t.Matches m) : key t = key m := by
  rw [key, key, h.1, h.2]

/-- Where no open loop has a name, no line behind a loop of the name is noted any more. -/
theorem walk_ends {κ : Text} {a b : List Token} (h : walk d scale s input σ = .ok last τ)
    (hs : (s.labels.lookup κ).isSome) (hn : Nests a input b) (ha : ∀ m ∈ a, key m ≠ κ) :
    last.ends.lookup κ = s.ends.lookup κ := by
  induction input generalizing s σ a with
  | nil => exact absurd h Conversion.throw_ne_ok
  | cons t rest ih =>
    rcases walk_cases h with ⟨-, rfl, -⟩ | ⟨hk, u, known, -, hw⟩ | ⟨-, -, s', hst, hw⟩
    · rfl
    · exact ih (s := s.emit u) hw hs ((Nests.cons_iff (by rw [hk]; rfl)).1 hn) ha
    · obtain ⟨⟨hlabels, hends⟩, hnew⟩ := step_tables hst
      have hother : t.kind = .labelLine → κ ≠ key t := fun hk heq => by
        rw [heq, hnew hk] at hs
        cases hs
      have hs' : (s'.labels.lookup κ).isSome := by rwa [hlabels, lookup_append_of_ne hother]
      have past (hr : t.kind = .labelReturn → κ ≠ key t) {a' : List Token} (hrest : Nests a' rest b)
          (ha' : ∀ m ∈ a', key m ≠ κ) : last.ends.lookup κ = s.ends.lookup κ := by
        rw [ih hw hs' hrest ha', hends, lookup_append_of_ne hr]
      cases hn with
      | token hk hrest => exact past (fun hr => by rw [hr] at hk; cases hk) hrest ha
      | label hk hrest => exact past (by simp [hk]) hrest ha
      | opens hk hrest =>
        exact past (by simp [hk]) hrest (List.forall_mem_cons.2 ⟨(hother hk).symm, ha⟩)
      | closes hk hm hrest =>
        obtain ⟨hfirst, ha⟩ := List.forall_mem_cons.1 ha
        exact past (fun _ heq => hfirst (by rw [← key_eq_of_matches hm, heq])) hrest ha
      | leaves hk hm hrest => exact past (by simp [hk]) hrest ha

theorem step_mark (h : step scale s t next = .ok s') (hk : t.kind = .labelLine) :
    s'.line = s.line ∧ s'.out = s.out := by
  simp only [step, hk] at h
  unfold markLabel at h
  split at h
  · cases h
  · cases h
    exact ⟨rfl, rfl⟩

theorem step_leap (h : step scale s t next = .ok s') (ht : t.Leaps) (hv : t.value ≠ Label.sameLine) :
    s'.line = s.line ∧ s'.out =
      ⟨t, some (if t.kind = .labelReturn then .label else .pastLoop)⟩ :: s.out := by
  rcases ht with hk | hk
  · simp only [step, hk] at h
    cases h
    simp only [jump, hk, if_neg hv]
    exact ⟨rfl, rfl⟩
  · simp only [step, hk] at h
    cases h
    rw [hk]
    exact ⟨rfl, rfl⟩

/-- A token that has nothing to do with loops puts out one token of its kind, a line end maybe with the
number of the next line, and the mark of a function nothing. -/
inductive Puts (s s' : State) (t : Token) : List Pending → Prop
  | entry (ht : t.kind = .functionEntry) (hl : s'.line = s.line) : Puts s s' t []
  | line {number : Token} (ht : t.kind = .newline) (hn : number.kind = .lineNumber)
      (hv : number.value = Text.ofInt s'.line) : Puts s s' t [⟨t, none⟩, ⟨number, none⟩]
  | token {p : Pending} (hk : p.token.kind = t.kind) (hl : s'.line = s.line) : Puts s s' t [p]

theorem step_puts (h : step scale s t next = .ok s') (ht : t.kind.isLooped = false) :
    ∃ emitted, s'.out = emitted.reverse ++ s.out ∧ Puts s s' t emitted := by
  unfold step at h
  split at h
  · rename_i hk
    rw [hk] at ht
    cases ht
  · cases h
    simp only [jump]
    split <;> split <;> exact ⟨[_], rfl, .token rfl rfl⟩
  · rename_i hk
    rw [hk] at ht
    cases ht
  · rename_i hk
    rw [hk] at ht
    cases ht
  · cases h
    exact ⟨[], rfl, .entry ‹_› rfl⟩
  · cases h
    exact ⟨[_], rfl, .token rfl rfl⟩
  · rename_i hk
    rcases endLine_cases h with ⟨-, rfl⟩ | ⟨-, rfl⟩
    · exact ⟨[⟨t, none⟩], rfl, .token rfl rfl⟩
    · exact ⟨[⟨t, none⟩, ⟨numberToken _ t next, none⟩], rfl, .line hk rfl rfl⟩
  · cases h
    exact ⟨[_], rfl, .token rfl rfl⟩

/-- Whether the lines of open loops are noted as a walk goes on from `s` and ends in `last`. -/
structure OpenLines (s last : State) (loops : List Loop) : Prop where
  starts : ∀ loop ∈ loops, s.labels.lookup (key loop.mark) = some loop.start
  pasts : ∀ loop ∈ loops, ∀ n, last.ends.lookup (key loop.mark) = some n → n = loop.past
  distinct : (loops.map fun loop => key loop.mark).Nodup

/-- Whether what a walk puts out from `s` on becomes lines that nested loops lead to. -/
def Steered (scale : Scale) (last : State) (loops : List Loop) (s : State) (input : List Token) : Prop :=
  ∃ emitted, last.out = emitted.reverse ++ s.out ∧
    ∀ tokens, List.Forall₂ (Finds last) emitted tokens → Steers scale last.line loops s.line input tokens

section Steered

variable {loops : List Loop} {loop : Loop} {rest : List Token}

theorem OpenLines.key_ne (h : OpenLines s last loops) (hst : step scale s t next = .ok s') (hmem : loop ∈ loops)
    (hk : t.kind = .labelLine) : key loop.mark ≠ key t := fun heq => by
  have hline := h.starts loop hmem
  rw [heq, (step_tables hst).2 hk] at hline
  cases hline

theorem OpenLines.step (h : OpenLines s last loops) (hst : step scale s t next = .ok s') :
    OpenLines s' last loops := by
  refine ⟨fun loop hmem => ?_, h.pasts, h.distinct⟩
  rw [(step_tables hst).1.1, lookup_append_of_ne (h.key_ne hst hmem), h.starts loop hmem]

/-- A loop is opened. The line past it is the one that is noted for its name in the end. -/
theorem OpenLines.start (h : OpenLines s last loops) (hst : Numbering.step scale s t next = .ok s')
    (hk : t.kind = .labelLine) :
    OpenLines s' last (⟨t, s.line, (last.ends.lookup (key t)).getD 0⟩ :: loops) := by
  refine ⟨List.forall_mem_cons.2 ⟨?_, (h.step hst).starts⟩, List.forall_mem_cons.2 ⟨?_, h.pasts⟩,
    List.nodup_cons.2 ⟨fun hmem => ?_, h.distinct⟩⟩
  · simp [(step_tables hst).1.1, hk]
  · intro n hfound
    rw [hfound]
    rfl
  · obtain ⟨loop, hloop, heq⟩ := List.mem_map.1 hmem
    exact h.key_ne hst hloop hk heq

theorem OpenLines.tail (h : OpenLines s last (loop :: loops)) : OpenLines s last loops :=
  ⟨(List.forall_mem_cons.1 h.starts).2, (List.forall_mem_cons.1 h.pasts).2,
    (List.nodup_cons.1 h.distinct).2⟩

theorem steered_ending (ht : t.kind = .eof) : Steered scale (s.emit t) [] s [t] := by
  refine ⟨[⟨t, none⟩], rfl, fun tokens hf => ?_⟩
  obtain ⟨u, more, hu, hmore, rfl⟩ := List.forall₂_cons_left_iff.1 hf
  cases hmore
  rw [hu.kept rfl]
  exact .ending ht

theorem Steered.emit {u : Token} (h : Steered scale last loops (s.emit u) rest)
    (ht : t.kind.isLooped = false) (hu : u.kind = t.kind) : Steered scale last loops s (t :: rest) := by
  obtain ⟨emitted, hout, hsteers⟩ := h
  refine ⟨⟨u, none⟩ :: emitted, by simp [hout, State.emit], fun tokens hf => ?_⟩
  obtain ⟨v, more, hv, hmore, rfl⟩ := List.forall₂_cons_left_iff.1 hf
  exact .token ht (by rw [hv.kind, hu]) (hsteers more hmore)

theorem Steered.plain (h : Steered scale last loops s' rest) (hst : step scale s t next = .ok s')
    (ht : t.kind.isLooped = false) : Steered scale last loops s (t :: rest) := by
  obtain ⟨emitted, hout, hsteers⟩ := h
  obtain ⟨sent, hsent, hputs⟩ := step_puts hst ht
  refine ⟨sent ++ emitted, by simp [hout, hsent], fun tokens hf => ?_⟩
  cases hputs with
  | entry he hline =>
    rw [hline] at hsteers
    exact .entry he (hsteers tokens hf)
  | line hnl hnumber hv =>
    obtain ⟨v, more, hv', hmore, rfl⟩ := List.forall₂_cons_left_iff.1 hf
    obtain ⟨w, more, hw', hrest', rfl⟩ := List.forall₂_cons_left_iff.1 hmore
    rw [hv'.kept rfl, hw'.kept rfl]
    exact .line hnl hnumber hv (hsteers more hrest')
  | token hkind hline =>
    obtain ⟨v, more, hv, hmore, rfl⟩ := List.forall₂_cons_left_iff.1 hf
    rw [hline] at hsteers
    exact .token ht (hv.kind.trans hkind) (hsteers more hmore)

theorem Steered.close (h : Steered scale last loops s' rest) (hst : step scale s t next = .ok s')
    (hk : t.kind = .labelReturn) (ht : t.Bound) (hm : t.Matches loop.mark)
    (hstart : last.labels.lookup (key t) = some loop.start)
    (hpast : loop.past = wrap (s.line + scale.step)) : Steered scale last (loop :: loops) s (t :: rest) := by
  obtain ⟨emitted, hout, hsteers⟩ := h
  obtain ⟨hline, hout'⟩ :=
    step_leap hst (.inl hk) ((ht.unsigned (by rw [hk]; rfl)).ne (c := '@') (by decide))
  refine ⟨⟨t, some .label⟩ :: emitted, by simp [hout, hout', hk], fun tokens hf => ?_⟩
  obtain ⟨u, more, hu, hmore, rfl⟩ := List.forall₂_cons_left_iff.1 hf
  obtain ⟨n, hn, -, rfl⟩ := hu.found _ rfl
  rw [hline] at hsteers
  refine .closes hk hm rfl ?_ hpast (hsteers more hmore)
  rw [Option.some.inj (hstart.symm.trans hn)]
  rfl

theorem Steered.leave (h : Steered scale last (loop :: loops) s' rest)
    (hst : step scale s t next = .ok s') (hk : t.kind = .labelExit) (ht : t.Bound)
    (hm : t.Matches loop.mark)
    (hpast : ∀ n, last.ends.lookup (key loop.mark) = some n → n = loop.past) :
    Steered scale last (loop :: loops) s (t :: rest) := by
  obtain ⟨emitted, hout, hsteers⟩ := h
  obtain ⟨hline, hout'⟩ :=
    step_leap hst (.inr hk) ((ht.unsigned (by rw [hk]; rfl)).ne (c := '@') (by decide))
  refine ⟨⟨t, some .pastLoop⟩ :: emitted, by simp [hout, hout', hk], fun tokens hf => ?_⟩
  obtain ⟨u, more, hu, hmore, rfl⟩ := List.forall₂_cons_left_iff.1 hf
  obtain ⟨n, hn, htop, rfl⟩ := hu.found _ rfl
  obtain rfl : n = loop.past := by
    refine hpast n ?_
    rw [← key_eq_of_matches hm]
    exact hn
  rw [hline] at hsteers
  exact .leaves hk hm rfl rfl (htop rfl) (hsteers more hmore)

/-- The line behind the closing of the innermost loop is the one that is noted for its name. -/
theorem OpenLines.past (h : OpenLines s last (loop :: loops)) (hst : Numbering.step scale s t next = .ok s')
    (hk : t.kind = .labelReturn) (hm : t.Matches loop.mark) (hn : Nests (loops.map Loop.mark) rest [])
    (hw : walk d scale s' rest σ = .ok last τ) : loop.past = wrap (s.line + scale.step) := by
  have hfirst := (h.step hst).starts loop List.mem_cons_self
  refine (h.pasts loop List.mem_cons_self _ ?_).symm
  rw [walk_ends hw (by rw [hfirst]; rfl) hn fun m hmem heq => ?_, (step_tables hst).1.2]
  · simp [hk, key_eq_of_matches hm]
  · obtain ⟨loop', hloop', rfl⟩ := List.mem_map.1 hmem
    exact (List.nodup_cons.1 h.distinct).1 (List.mem_map.2 ⟨loop', hloop', heq⟩)

/-- A walk over nested loops notes the lines that their jumps become. -/
theorem walk_steers (h : walk d scale s input σ = .ok last τ) (hi : Fed Token.Inside input)
    (hb : ∀ t ∈ input, t.Bound) (hn : Nests (loops.map Loop.mark) input [])
    (hl : OpenLines s last loops) : Steered scale last loops s input := by
  induction input generalizing s σ loops with
  | nil => exact absurd h Conversion.throw_ne_ok
  | cons t rest ih =>
    obtain ⟨ht, hb⟩ := List.forall_mem_cons.1 hb
    rcases walk_cases h with ⟨he, rfl, -⟩ | ⟨hk, u, known, hsh, hw⟩ | ⟨-, -, s', hst, hw⟩
    · obtain ⟨-, rfl⟩ := (hi t rest (List.suffix_refl _)).resolve_left fun hin => hin.ne_eof he
      have hnil := (Nests.cons_iff (by rw [he]; rfl)).1 hn
      obtain rfl : loops = [] := by
        cases loops with
        | nil => rfl
        | cons loop loops => cases hnil
      exact steered_ending he
    · have hplain : t.kind.isLooped = false := by rw [hk]; rfl
      exact (ih (s := s.emit u) hw hi.tail hb ((Nests.cons_iff hplain).1 hn)
        ⟨hl.starts, hl.pasts, hl.distinct⟩).emit hplain (shorten_kind hsh)
    · generalize hheld : loops.map Loop.mark = held at hn
      cases hn with
      | token hk hrest =>
        subst hheld
        exact (ih hw hi.tail hb hrest (hl.step hst)).plain hst hk
      | label hk hrest =>
        subst hheld
        obtain ⟨hline, hsame⟩ := step_mark hst hk
        obtain ⟨emitted, hout, hsteers⟩ := ih hw hi.tail hb hrest (hl.step hst)
        rw [hline] at hsteers
        exact ⟨emitted, by rw [hout, hsame], fun tokens hf => .label hk (hsteers tokens hf)⟩
      | opens hk hrest =>
        subst hheld
        obtain ⟨hline, hsame⟩ := step_mark hst hk
        have hopen : Nests ((⟨t, s.line, (last.ends.lookup (key t)).getD 0⟩ :: loops).map Loop.mark)
            rest [] := hrest
        obtain ⟨emitted, hout, hsteers⟩ := ih hw hi.tail hb hopen (hl.start hst hk)
        rw [hline] at hsteers
        exact ⟨emitted, by rw [hout, hsame], fun tokens hf => .opens hk (hsteers tokens hf)⟩
      | closes hk hm hrest =>
        obtain ⟨loop, loops, rfl, rfl, rfl⟩ := List.map_eq_cons_iff.1 hheld
        have hstart : last.labels.lookup (key t) = some loop.start := by
          rw [key_eq_of_matches hm]
          exact walk_labels hw ((hl.step hst).starts loop List.mem_cons_self)
        exact (ih hw hi.tail hb hrest (hl.step hst).tail).close hst hk ht hm hstart
          (hl.past hst hk hm hrest hw)
      | leaves hk hm hrest =>
        obtain ⟨loop, loops, rfl, rfl, rfl⟩ := List.map_eq_cons_iff.1 hheld
        have hopen : Nests ((loop :: loops).map Loop.mark) rest [] := hrest
        exact (ih hw hi.tail hb hopen (hl.step hst)).leave hst hk ht hm
          (hl.pasts loop List.mem_cons_self)

end Steered

/-- The jumps of nested loops of a numbered program have become the lines that they lead to, and each
mark is the only one of its name in its file. -/
theorem number_steers {tokens : List Token} {numbered : Numbered}
    (h : number d scale tokens σ = .ok numbered τ) (hi : Framed Token.Inside tokens)
    (hk : Knit tokens) :
    ((tokens.filter (·.kind = .labelLine)).map key).Nodup ∧
      ∃ top, Steers scale top [] (wrap (scale.start - scale.step)) tokens numbered.tokens := by
  obtain ⟨start, inner, last, rfl, hstart, hlast, hinner⟩ := hi
  have hloop : start.kind.isLooped = false := by rw [hstart.kind]; rfl
  obtain ⟨final, hw, hr, -⟩ := number_cases h
  have hnests : Nests (([] : List Loop).map Loop.mark) (inner ++ [last]) [] :=
    (Nests.cons_iff hloop).1 hk.nests
  obtain ⟨emitted, hout, hsteers⟩ := walk_steers hw (fed_append hinner hlast)
    (List.forall_mem_cons.1 hk.bound).2 hnests ⟨by simp, by simp, by simp⟩
  have hfinds := forall₂_finds hr
  have hrev : final.out.reverse = ⟨start, none⟩ :: emitted := by simp [hout, opening]
  rw [hrev] at hfinds
  obtain ⟨u, tail, hu, htail, heq⟩ := List.forall₂_cons_left_iff.1 hfinds
  rw [heq, hu.kept rfl, lineAt_zero]
  refine ⟨?_, final.line, .token hloop rfl (hsteers tail htail)⟩
  rw [List.filter_cons_of_neg (by rw [hstart.kind]; decide)]
  exact (walk_distinct hw (fed_append hinner hlast)).1

end Numbering

namespace Compile

open Branch (Visit)

variable {s : Setting} {o : Options} {listing : Listing} {c : Compiled} {σ τ : Session}
  {merged : List Token}

theorem whole_knit (o : Options) (hs : Merge.Seated merged.reverse) (h : Knit merged) :
    Knit (whole o merged) := by
  obtain ⟨start, second, rest, rfl, hstart, hsecond⟩ := hs.exists_cons
  obtain ⟨lead, heq, hlead, -⟩ := whole_cons o start second rest
  have hstraight : ∀ t ∈ lead, t.Straight := by
    intro t ht
    rcases hlead t ht with hk | hk | hk <;> exact Token.straight_of_kind hk rfl (by decide) (by decide)
  have hfront : ∀ t ∈ [start, second], t.kind.isLooped = false := by
    simp only [List.forall_mem_cons]
    refine ⟨by rw [hstart]; rfl, ?_, by simp⟩
    rcases hsecond with hk | hk <;> rw [hk] <;> rfl
  rw [heq]
  have hrest : Nests [] rest [] :=
    (Nests.cons_iff (hfront second (by simp))).1 ((Nests.cons_iff (hfront start (by simp))).1 h.nests)
  have hlines : Nests [] lead [] := (Nests.append_iff fun t ht => (hstraight t ht).kind).2 .done
  -- no GOTO is in front of what follows the introduction
  have hguided : Guided rest := by
    obtain ⟨-, hchain⟩ := h.guided
    refine ⟨fun t ht hr => ?_, hchain.tail.tail⟩
    obtain ⟨more, rfl⟩ : ∃ more, rest = t :: more := by
      cases rest with
      | nil => cases ht
      | cons u more => exact ⟨more, congrArg (· :: more) (Option.some.inj ht)⟩
    have hgoto := (hchain.tail.rel hr).1
    rcases hsecond with hk | hk <;> rw [hk] at hgoto <;> cases hgoto
  refine ⟨.token (hfront start (by simp)) (.token (hfront second (by simp)) (hlines.append hrest)),
    ?_, ?_⟩
  · have hbound := h.bound
    simp only [List.forall_mem_cons, List.forall_mem_append] at hbound ⊢
    exact ⟨hbound.1, hbound.2.1, fun t ht => (hstraight t ht).bound, hbound.2.2⟩
  · have hlines : Guided ([start, second] ++ lead) := .of_not_leaps fun t ht =>
      Token.not_leaps ((List.mem_append.1 ht).elim (hfront t) fun ht => (hstraight t ht).kind)
    simpa using hlines.append hguided

/-- In a compiled program whose files capture no braces and no EXIT, the loops of each file are nested
as they are written; the closing of a loop has become a GOTO to the line of its mark, and EXIT a GOTO to
the line behind that of the closing of the innermost loop, which is not above the last line number. -/
theorem loops_steered (h : ofListing s o listing σ = .ok c τ) (hf : ∃ file, listing.Of file)
    (hs : ∀ path file, s.shelf.load path = .ok file → ∃ name, file.Of name) :
    ∃ merged numbered before after, Passes s o listing σ c τ merged numbered before after ∧
      ((∀ v, Visit.Visits s ⟨s.shelf.size, Branch.main s, c.lexed, before⟩ v → v.Unlooped s) →
        (∀ v, Visit.Visits s ⟨s.shelf.size, Branch.main s, c.lexed, before⟩ v → v.Nested s) ∧
        Knit (whole o merged) ∧
        (((whole o merged).filter (·.kind = .labelLine)).map Numbering.key).Nodup ∧
        ∃ top, Numbering.Steers o.scale top [] (wrap (o.scale.start - o.scale.step))
          (whole o merged) numbered.tokens) := by
  obtain ⟨merged, numbered, before, after, hp⟩ := exists_passes h
  refine ⟨merged, numbered, before, after, hp, fun hu => ?_⟩
  obtain ⟨file, hof⟩ := hf
  have hsited : Visit.Sited s ⟨s.shelf.size, Branch.main s, c.lexed, before⟩ := ⟨file, listing, hof, hp.lexed⟩
  have hc : ∀ v, Visit.Visits s ⟨s.shelf.size, Branch.main s, c.lexed, before⟩ v →
      v.Sited s ∧ v.Unlooped s := fun v hv => ⟨Visit.sited_of_visits hsited hs hv, hu v hv⟩
  obtain ⟨hknit, -⟩ := Visit.convert_knit hp.converted hc
  have hseated := (Branch.convert_settled hp.lexed hp.converted).seated
  have hwhole := whole_knit o hseated hknit
  obtain ⟨ready, final, -, -, hn⟩ := hp.numbering
  exact ⟨fun v hv => Visit.nested_of_visits hp.converted hc hv, hwhole,
    Numbering.number_steers hn (whole_inside o hseated (convert_inside hp.lexed hp.converted)) hwhole⟩

/-- A way out of the inner one of two loops. -/
theorem exit_of_inner_loop :
    ∃ c τ merged numbered before after,
      ofListing (lone .msx) { header := false }
        (Listing.ofText "a\x7b\nb\x7b\nif x then exit\n\x7d\n\x7d\nend" "/main" 4) {} = .ok c τ ∧
      c.code = ["10 if x then goto 30", "20 goto 10", "30 goto 10", "40 end"] ∧
      Passes (lone .msx) { header := false }
        (Listing.ofText "a\x7b\nb\x7b\nif x then exit\n\x7d\n\x7d\nend" "/main" 4) {} c τ merged numbered
        before after ∧
      (∀ v, Visit.Visits (lone .msx) ⟨0, Branch.main (lone .msx), c.lexed, before⟩ v →
        v.Nested (lone .msx)) ∧
      Knit merged ∧ ((merged.filter (·.kind = .labelLine)).map Numbering.key).Nodup ∧
      ∃ top, Numbering.Steers ⟨10, 10⟩ top [] 0 merged numbered.tokens := by
  obtain ⟨hrun, hcarried⟩ : (outcome (lone .msx) { header := false } (Listing.ofText
        "a\x7b\nb\x7b\nif x then exit\n\x7d\n\x7d\nend" "/main" 4)).map Compiled.code =
        some (Text.ofStrings ["10 if x then goto 30", "20 goto 10", "30 goto 10", "40 end"]) ∧
      (carried? .msx (Listing.ofText
        "a\x7b\nb\x7b\nif x then exit\n\x7d\n\x7d\nend" "/main" 4)).map
        (fun r => decide (Unlooped .msx r.1 r.2)) = some true := by decide +kernel
  obtain ⟨c, hc, hcode⟩ := Option.map_eq_some_iff.1 hrun
  obtain ⟨τ, hτ⟩ := exists_of_outcome hc
  obtain ⟨r, hr, hun⟩ := Option.map_eq_some_iff.1 hcarried
  obtain ⟨merged, numbered, before, after, hp, himplies⟩ :=
    loops_steered hτ ⟨"/main", Listing.of_ofText _ _ _⟩ (fun path file hload => by cases hload)
  refine ⟨c, τ, merged, numbered, before, after, hτ, hcode, hp, ?_⟩
  refine himplies fun v hv => ?_
  obtain rfl := Visit.visits_of_depth_zero rfl hv
  intro tables carried ready after hd
  cases eq_of_carried? hp.lexed hr hd
  exact of_decide_eq_true hun

/-- The argument of a function is put out as it stands, and a way out of a loop with it. -/
theorem exit_in_argument_left :
    ∃ c τ, ofListing (lone .msx) { header := false }
        (Listing.ofText "func .f(a)\nret\nx\x7b\n.f(exit)\n\x7d\nend" "/main" 4) {} = .ok c τ ∧
      c.code = ["10 return", "20 a=exit:gosub 10", "30 goto 20", "40 end"] ∧
      ∃ t ∈ c.parsed, t.kind = .directive ∧ t.is "EXIT" = true := by
  have hrun : (outcome (lone .msx) { header := false }
      (Listing.ofText "func .f(a)\nret\nx\x7b\n.f(exit)\n\x7d\nend" "/main" 4)).map
        (fun c => (c.code, c.parsed.any fun t => t.kind == .directive && t.is "EXIT")) =
      some (Text.ofStrings ["10 return", "20 a=exit:gosub 10", "30 goto 20", "40 end"], true) := by
    decide +kernel
  obtain ⟨c, hc, he⟩ := Option.map_eq_some_iff.1 hrun
  obtain ⟨τ, hτ⟩ := exists_of_outcome hc
  obtain ⟨hcode, hany⟩ := Prod.mk.inj he
  obtain ⟨t, ht, hk⟩ := List.any_eq_true.1 hany
  exact ⟨c, τ, hτ, hcode, t, ht, by simpa using hk⟩

end Compile

end ClassicBasic
