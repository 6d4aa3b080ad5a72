import ClassicBasic.Proofs.Orders

/-!
# One program in two scales

Numbering a program in two scales goes the same way: the scale only decides what the lines are
called, and all that is ever asked about two numbers is which line comes first. So both runs fail
with the same error, or they end with the same tokens, except that the numbers of lines are
translated from one scale to the other.
-/

set_option autoImplicit false

namespace ClassicBasic

namespace Outcome

/-- Two results that agree: the same error, or successes that are related. -/
inductive Agrees {ε α β : Type} (R : α → β → Prop) : Except ε α → Except ε β → Prop
  | error (e : ε) : Agrees R (.error e) (.error e)
  | ok {a : α} {b : β} (h : R a b) : Agrees R (.ok a) (.ok b)

variable {ε α β γ δ : Type} {R : α → β → Prop} {S : γ → δ → Prop}

theorem Agrees.bind {x : Except ε α} {y : Except ε β} {f : α → Except ε γ} {g : β → Except ε δ}
    (h : Agrees R x y) (hf : ∀ a b, R a b → Agrees S (f a) (g b)) :
    Agrees S (x >>= f) (y >>= g) := by
  cases h with
  | error e => exact .error e
  | ok h => exact hf _ _ h

theorem Agrees.mapM {f : α → Except ε γ} {g : β → Except ε δ} {l : List α} {r : List β}
    (hl : List.Forall₂ R l r) (hf : ∀ a b, R a b → Agrees S (f a) (g b)) :
    Agrees (List.Forall₂ S) (l.mapM f) (r.mapM g) := by
  induction hl with
  | nil => exact .ok .nil
  | cons hab _ ih =>
    rw [List.mapM_cons, List.mapM_cons]
    apply (hf _ _ hab).bind
    intro c e hce
    apply ih.bind
    intro cs es hrest
    exact .ok (.cons hce hrest)

end Outcome

namespace Conversion

/-- Two courses of a conversion that agree: the same error, or related results, and the same
session. -/
inductive Agrees {α β : Type} (R : α → β → Prop) :
    EStateM.Result Failure Session α → EStateM.Result Failure Session β → Prop
  | error (e : Failure) (σ : Session) : Agrees R (.error e σ) (.error e σ)
  | ok {a : α} {b : β} (σ : Session) (h : R a b) : Agrees R (.ok a σ) (.ok b σ)

variable {α β γ δ : Type} {R : α → β → Prop} {S : γ → δ → Prop} {σ : Session}

theorem Agrees.bind {x : Conversion α} {y : Conversion β} {f : α → Conversion γ}
    {g : β → Conversion δ} (h : Agrees R (x σ) (y σ))
    (hf : ∀ a b ρ, x σ = .ok a ρ → y σ = .ok b ρ → R a b → Agrees S (f a ρ) (g b ρ)) :
    Agrees S ((x >>= f) σ) ((y >>= g) σ) := by
  change Agrees S (EStateM.bind x f σ) (EStateM.bind y g σ)
  unfold EStateM.bind
  generalize hx : x σ = r at h
  generalize hy : y σ = r' at h
  cases h with
  | error e ρ => exact .error e ρ
  | ok ρ h => exact hf _ _ ρ hx hy h

theorem Agrees.step (x : Conversion α) {f : α → Conversion γ} {g : α → Conversion δ}
    (hf : ∀ a ρ, x σ = .ok a ρ → Agrees S (f a ρ) (g a ρ)) :
    Agrees S ((x >>= f) σ) ((x >>= g) σ) := by
  have hsame : Agrees Eq (x σ) (x σ) := by
    cases x σ with
    | ok a ρ => exact .ok ρ rfl
    | error e ρ => exact .error e ρ
  apply hsame.bind
  rintro a b ρ hx - rfl
  exact hf a ρ hx

/-- What a run agrees with, and what that comes to in other orders of the names. -/
theorem Agrees.akin {x : EStateM.Result Failure Session α} {y y' : EStateM.Result Failure Session β}
    (h : Agrees R x y) (hy : Akin Eq y y') : Akin R x y' := by
  cases h with
  | error e σ =>
    cases hy with
    | error h => exact .error h _ _
  | ok σ h =>
    cases hy with
    | ok hab hs =>
      subst hab
      exact .ok h hs

theorem Agrees.ofExcept {x : Except Failure α} {y : Except Failure β}
    (h : Outcome.Agrees R x y) : Agrees R (ofExcept x σ) (ofExcept y σ) := by
  cases h with
  | error e => exact .error e σ
  | ok h => exact .ok σ h

end Conversion

namespace Text

theorem foldChar_of_isDigit {c : Char} (h : c = '-' ∨ c.isDigit = true) : foldChar c = c := by
  rcases h with rfl | h
  · decide
  · have hc : 48 ≤ c.toNat ∧ c.toNat ≤ 57 := by
      simpa [Char.isDigit, UInt32.le_iff_toNat_le] using h
    unfold foldChar
    rw [if_pos (by omega)]
    have hne : ¬(65 ≤ c.val ∧ c.val ≤ 90) := by
      simp only [UInt32.le_iff_toNat_le]
      intro hle
      have h65 : 65 ≤ c.toNat := hle.1
      omega
    exact dif_neg hne

theorem sameLetters_ofInt {w : Text} {c : Char} (n : Int) (hc : c ∈ fold w)
    (hd : (c == '-' || c.isDigit) = false) : sameLetters (ofInt n) w = false := by
  have hself : fold (ofInt n) = ofInt n := by
    rw [fold, List.map_congr_left fun x hx => foldChar_of_isDigit (mem_ofInt hx), List.map_id']
  rw [sameLetters_eq, hself]
  apply beq_eq_false_iff_ne.2
  intro heq
  rw [← heq] at hc
  rcases mem_ofInt hc with rfl | hdigit
  · simp at hd
  · simp [hdigit] at hd

end Text

namespace Kind

/-- Kinds whose value is the number of a line in a finished program. -/
def isNumbered (k : Kind) : Bool := k == .lineNumber || k.isPlaceholder

end Kind

namespace Numbering

/-- The number in `scale'` of the line that has the number `n` in `scale`. -/
def Scale.translate (scale scale' : Scale) (n : Int) : Int :=
  scale'.start + (n - scale.start) / scale.step * scale'.step

/-- Whether a finished program has the token `t` in one scale and `t'` in another: the same token,
or the numbers of one line. -/
def Translated (scale scale' : Scale) (t t' : Token) : Prop :=
  if t.kind.isNumbered then
    ∃ n, scale.step ∣ n - scale.start ∧ t.value = Text.ofInt n ∧
      t' = t.withValue (Text.ofInt (scale.translate scale' n))
  else t' = t

theorem translated_number {scale scale' : Scale} {t : Token} {n : Int}
    (hk : t.kind.isNumbered) (hn : scale.step ∣ n - scale.start) :
    Translated scale scale' (t.withValue (Text.ofInt n))
      (t.withValue (Text.ofInt (scale.translate scale' n))) := by
  have hk' : (t.withValue (Text.ofInt n)).kind.isNumbered := hk
  rw [Translated, if_pos hk']
  exact ⟨n, hn, rfl, rfl⟩

theorem translated_same {scale scale' : Scale} {t : Token} (hk : t.kind.isNumbered = false) :
    Translated scale scale' t t := by
  rw [Translated, if_neg (by simp [hk])]

/-- Whether `n` and `n'` are the numbers of one line in two scales. -/
def Twin (scale scale' : Scale) (n n' : Int) : Prop :=
  ∃ i : Int, n = scale.start + i * scale.step ∧ n' = scale'.start + i * scale'.step

variable {d : Dialect} {scale scale' : Scale} {n n' m m' : Int}

theorem Twin.opening : Twin scale scale' (scale.start - scale.step) (scale'.start - scale'.step) :=
  ⟨-1, by ring, by ring⟩

theorem Twin.next (h : Twin scale scale' n n') :
    Twin scale scale' (n + scale.step) (n' + scale'.step) := by
  obtain ⟨i, rfl, rfl⟩ := h
  exact ⟨i + 1, by ring, by ring⟩

theorem Twin.lt_iff (h : Twin scale scale' n n') (hm : Twin scale scale' m m')
    (hp : 1 ≤ scale.step) (hp' : 1 ≤ scale'.step) : n < m ↔ n' < m' := by
  obtain ⟨i, rfl, rfl⟩ := h
  obtain ⟨j, rfl, rfl⟩ := hm
  rw [Int.add_lt_add_iff_left, Int.add_lt_add_iff_left,
    Int.mul_lt_mul_right (by omega : 0 < scale.step),
    Int.mul_lt_mul_right (by omega : 0 < scale'.step)]

theorem Twin.translate (h : Twin scale scale' n n') (hp : 1 ≤ scale.step) :
    scale.step ∣ n - scale.start ∧ n' = scale.translate scale' n := by
  obtain ⟨i, rfl, rfl⟩ := h
  have hdiff : scale.start + i * scale.step - scale.start = i * scale.step := by ring
  refine ⟨⟨i, by rw [hdiff, Int.mul_comm]⟩, ?_⟩
  rw [Scale.translate, hdiff, Int.mul_ediv_cancel i (by omega)]

/-- Two tokens of the output of numbering: the same token, or the numbers of one line. The
placeholders in `done` have been replaced. -/
inductive Paired (scale scale' : Scale) (done : List Target) : Pending → Pending → Prop
  /-- A token that is not numbered, or that is still to be replaced. -/
  | same {p : Pending} (hk : p.token.kind.isNumbered = p.target.isSome)
      (hd : ∀ target ∈ done, p.target ≠ some target) : Paired scale scale' done p p
  /-- A token that is numbered. -/
  | number {t : Token} {n n' : Int} (hk : t.kind.isNumbered) (h : Twin scale scale' n n') :
      Paired scale scale' done ⟨t.withValue (Text.ofInt n), none⟩ ⟨t.withValue (Text.ofInt n'), none⟩

def Noted (scale scale' : Scale) (e e' : Text × Int) : Prop :=
  e.1 = e'.1 ∧ Twin scale scale' e.2 e'.2

/-- Two states of numbering at the same point of a program. What is said about lines and which lines
were passed does not bear on the tokens. -/
structure Alike (scale scale' : Scale) (s s' : State) : Prop where
  line : Twin scale scale' s.line s'.line
  out : List.Forall₂ (Paired scale scale' []) s.out s'.out
  labels : List.Forall₂ (Noted scale scale') s.labels s'.labels
  routines : List.Forall₂ (Noted scale scale') s.routines s'.routines
  ends : List.Forall₂ (Noted scale scale') s.ends s'.ends

/-- The sums that numbering computes at a token of kind `k` are in the range of a word; `next` is the
kind of the token behind it. -/
def Fits (step : Int) (line : Int) (k next : Kind) : Prop :=
  k = .labelReturn ∨ (k = .newline ∧ next ≠ .eof) → wrap (line + step) = line + step

variable {s s' : State} {t next : Token}

theorem Alike.emit (h : Alike scale scale' s s') (hk : t.kind.isNumbered = false) :
    Alike scale scale' (s.emit t) (s'.emit t) :=
  { h with out := .cons (.same hk (by simp)) h.out }

theorem Alike.await (h : Alike scale scale' s s') (target : Target) (hk : t.kind.isNumbered) :
    Alike scale scale' (s.await t target) (s'.await t target) :=
  { h with out := .cons (.same hk (by simp)) h.out }

theorem Alike.emit_number (h : Alike scale scale' s s') (hk : t.kind.isNumbered)
    (hn : Twin scale scale' n n') :
    Alike scale scale' (s.emit (t.withValue (Text.ofInt n)))
      (s'.emit (t.withValue (Text.ofInt n'))) :=
  { h with out := .cons (.number hk hn) h.out }

theorem Alike.note (h : Alike scale scale' s s') (entry : Text) :
    Alike scale scale' (s.note entry) (s'.note entry) :=
  { h with }

theorem lookup_noted {lines lines' : List (Text × Int)}
    (h : List.Forall₂ (Noted scale scale') lines lines') (name : Text) :
    (lines.lookup name = none ∧ lines'.lookup name = none) ∨
      ∃ n n', lines.lookup name = some n ∧ lines'.lookup name = some n' ∧
        Twin scale scale' n n' := by
  induction h with
  | nil => exact .inl ⟨rfl, rfl⟩
  | @cons e e' _ _ he _ ih =>
    obtain ⟨name₁, n⟩ := e
    obtain ⟨name₂, n'⟩ := e'
    obtain ⟨rfl, htwin⟩ := he
    by_cases hn : name = name₁
    · subst hn
      exact .inr ⟨n, n', by simp, by simp, htwin⟩
    · have hb : (name == name₁) = false := by simpa using hn
      simpa only [List.lookup_cons, hb] using ih

open Outcome (Agrees)

theorem jump_alike (h : Alike scale scale' s s') (hk : t.kind.isPlaceholder)
    (hfit : Fits scale.step s.line t.kind next.kind)
    (hfit' : Fits scale'.step s'.line t.kind next.kind) :
    Alike scale scale' (jump scale.step s t) (jump scale'.step s' t) := by
  have hn : t.kind.isNumbered := by simp [Kind.isNumbered, hk]
  have noted : Alike scale scale'
      (if t.kind = .labelReturn then { s.note (">" ++ t.value) with
        ends := (key t, wrap (s.line + scale.step)) :: s.ends } else s.note (">" ++ t.value))
      (if t.kind = .labelReturn then { s'.note (">" ++ t.value) with
        ends := (key t, wrap (s'.line + scale'.step)) :: s'.ends }
        else s'.note (">" ++ t.value)) := by
    split
    · rename_i hret
      rw [hfit (.inl hret), hfit' (.inl hret)]
      exact { h with ends := .cons ⟨rfl, h.line.next⟩ h.ends }
    · exact h.note _
  simp only [jump]
  by_cases hsame : t.value = Label.sameLine
  · rw [if_pos hsame, if_pos hsame]
    exact noted.emit_number hn noted.line
  · rw [if_neg hsame, if_neg hsame]
    exact noted.await .label hn

theorem markLabel_agrees (h : Alike scale scale' s s') :
    Agrees (Alike scale scale') (markLabel s t) (markLabel s' t) := by
  unfold markLabel
  rcases lookup_noted h.labels (key t) with ⟨hl, hl'⟩ | ⟨n, n', hl, hl', -⟩
  · simp only [hl, hl', Option.isSome_none, Bool.false_eq_true, if_false]
    exact .ok { h with labels := .cons ⟨rfl, h.line⟩ h.labels }
  · simp only [hl, hl', Option.isSome_some, if_true]
    exact .error _

theorem endLine_agrees (h : Alike scale scale' s s') (hk : t.kind = .newline)
    (hfit : Fits scale.step s.line t.kind next.kind)
    (hfit' : Fits scale'.step s'.line t.kind next.kind) :
    Agrees (Alike scale scale') (endLine scale.step s t next) (endLine scale'.step s' t next) := by
  have ht : t.kind.isNumbered = false := by rw [hk]; rfl
  have infos : Alike scale scale' { s with infos := infoOf s t :: s.infos }
      { s' with infos := infoOf s' t :: s'.infos } := { h with }
  unfold endLine
  by_cases hnext : next.kind = .eof
  · simp only [hnext, if_true]
    exact .ok (infos.emit ht)
  · by_cases hnum : isNumber next.value
    · simp only [hnext, hnum, if_true, if_false]
      exact .error _
    · simp only [hnext, hnum, if_false, Bool.false_eq_true]
      rw [hfit (.inr ⟨hk, hnext⟩), hfit' (.inr ⟨hk, hnext⟩)]
      have hline : Alike scale scale'
          { s with infos := infoOf s t :: s.infos, line := s.line + scale.step }
          { s' with infos := infoOf s' t :: s'.infos, line := s'.line + scale'.step } :=
        { h with line := h.line.next }
      exact .ok ((hline.emit ht).emit_number (t := numberToken s.line t next) rfl h.line.next)

theorem step_agrees (h : Alike scale scale' s s') (hl : t.kind ≠ .lineNumber)
    (hfit : Fits scale.step s.line t.kind next.kind)
    (hfit' : Fits scale'.step s'.line t.kind next.kind) :
    Agrees (Alike scale scale') (step scale s t next) (step scale' s' t next) := by
  unfold step
  split
  · exact markLabel_agrees h
  · rename_i hk
    exact .ok (jump_alike h (by rw [hk]; rfl) hfit hfit')
  · rename_i hk
    exact .ok (jump_alike h (by rw [hk]; rfl) hfit hfit')
  · rename_i hk
    exact .ok ((h.note _).await .pastLoop (by rw [hk]; rfl))
  · exact .ok { h with routines := .cons ⟨rfl, h.line⟩ h.routines }
  · rename_i hk
    exact .ok ((h.note _).await .routine (by rw [hk]; rfl))
  · exact endLine_agrees h ‹_› hfit hfit'
  · apply Agrees.ok
    apply h.emit
    cases hk : t.kind <;> simp_all [Kind.isNumbered, Kind.isPlaceholder]

/-- Numbering computes no sum out of the range of a word. -/
structure Unwrapped (d : Dialect) (scale : Scale) (p : Point) : Prop where
  fits : ∀ s t rest σ, Reaches d scale p ⟨s, t :: rest, σ⟩ →
    Fits scale.step s.line t.kind (rest.headD t).kind

theorem Unwrapped.step {p q : Point} (h : Unwrapped d scale p) (hs : Step d scale p q) :
    Unwrapped d scale q :=
  ⟨fun s t rest σ hr => h.fits s t rest σ (.head hs hr)⟩

theorem step_line (h : step scale s t next = .ok s') :
    s'.line = s.line ∨ s'.line = wrap (s.line + scale.step) := by
  have jumped : (jump scale.step s t).line = s.line := by
    simp only [jump]
    split <;> split <;> rfl
  unfold step at h
  split at h
  · unfold markLabel at h
    split at h
    · cases h
    · cases h
      exact .inl rfl
  · cases h
    exact .inl jumped
  · cases h
    exact .inl jumped
  · cases h
    exact .inl rfl
  · cases h
    exact .inl rfl
  · cases h
    exact .inl rfl
  · rcases endLine_cases h with ⟨-, rfl⟩ | ⟨-, rfl⟩
    · exact .inl rfl
    · exact .inr rfl
  · cases h
    exact .inl rfl

/-- The number of the line being read is in range, and so are those of `more` lines behind it. -/
def Roomy (scale : Scale) (line : Int) (more : Nat) : Prop :=
  -(Word.half : Int) ≤ line ∧ line + (more + 1) * scale.step < Word.half

theorem Roomy.succ {line : Int} {more : Nat} (hp : 1 ≤ scale.step)
    (h : Roomy scale line (more + 1)) :
    wrap (line + scale.step) = line + scale.step ∧ Roomy scale (line + scale.step) more := by
  obtain ⟨hlo, hhi⟩ := h
  have hsum : line + scale.step + (more + 1) * scale.step =
      line + ((more + 1 : Nat) + 1) * scale.step := by
    push_cast
    ring
  have hpos : 0 ≤ ((more : Int) + 1) * scale.step := Int.mul_nonneg (by omega) (by omega)
  refine ⟨wrap_eq_iff.2 ⟨by omega, by omega⟩, by omega, by omega⟩

/-- A program is short enough to be numbered if there is room for as many lines as it has tokens. -/
theorem unwrapped_of_roomy {p : Point} (hp : 1 ≤ scale.step)
    (h : Roomy scale p.state.line (p.input.length + 1)) : Unwrapped d scale p := by
  have room {line : Int} {more : Nat} (h : Roomy scale line (more + 1)) : Roomy scale line more :=
    ⟨h.1, by
      have hhi := h.2
      have hsum : line + ((more + 1 : Nat) + 1) * scale.step =
          line + (more + 1) * scale.step + scale.step := by
        push_cast
        ring
      omega⟩
  have keep {q : Point} (hr : Reaches d scale p q) :
      Roomy scale q.state.line (q.input.length + 1) := by
    induction hr with
    | refl => exact h
    | tail _ hs ih =>
      cases hs with
      | named => exact room ih
      | token _ _ hst =>
        rcases step_line hst with hl | hl
        · rw [hl]
          exact room ih
        · rw [hl, (ih.succ hp).1]
          exact (ih.succ hp).2
  exact ⟨fun s t rest σ hr _ => ((keep hr).succ hp).1⟩

theorem walk_agrees {input : List Token} {σ : Session} (h : Alike scale scale' s s')
    (hl : ∀ t ∈ input, t.kind ≠ .lineNumber) (hu : Unwrapped d scale ⟨s, input, σ⟩)
    (hu' : Unwrapped d scale' ⟨s', input, σ⟩) :
    Conversion.Agrees (Alike scale scale') (walk d scale s input σ) (walk d scale' s' input σ) := by
  induction input generalizing s s' σ with
  | nil => exact .error _ _
  | cons t rest ih =>
    rw [List.forall_mem_cons] at hl
    simp only [walk]
    by_cases he : t.kind = .eof
    · rw [if_pos he, if_pos he]
      exact .ok σ (h.emit (by rw [he]; rfl))
    · rw [if_neg he, if_neg he]
      by_cases hi : t.kind = .identifier
      · rw [if_pos hi, if_pos hi]
        apply Conversion.Agrees.step
        intro u ρ hsh
        obtain ⟨known, hn, rfl⟩ := shorten_cases hsh
        have hk : u.kind = .identifier := (shorten_kind hn).trans hi
        exact ih (h.emit (by rw [hk]; rfl)) hl.2 (hu.step (.named hi hn)) (hu'.step (.named hi hn))
      · rw [if_neg hi, if_neg hi]
        have hstep := step_agrees h hl.1 (hu.fits _ _ _ _ .refl) (hu'.fits _ _ _ _ .refl)
        apply (Conversion.Agrees.ofExcept hstep).bind
        intro next next' ρ hx hy hnext
        -- both runs have taken the step, so both go on from where it led
        obtain ⟨hst, rfl⟩ := Conversion.ofExcept_eq_ok_iff.1 hx
        obtain ⟨hst', -⟩ := Conversion.ofExcept_eq_ok_iff.1 hy
        exact ih hnext hl.2 (hu.step (.token he hi hst)) (hu'.step (.token he hi hst'))

theorem Paired.settled {done : List Target} {target : Target} {p p' : Pending}
    (h : Paired scale scale' done p p') (ht : p.target ≠ some target) :
    Paired scale scale' (target :: done) p p' := by
  cases h with
  | same hk hd =>
    apply Paired.same hk
    exact List.forall_mem_cons.2 ⟨ht, hd⟩
  | number hk htwin => exact .number hk htwin

theorem settle_agrees {done : List Target} {p p' : Pending} (target : Target)
    (h : Alike scale scale' s s') (hp : 1 ≤ scale.step) (hp' : 1 ≤ scale'.step)
    (hpair : Paired scale scale' done p p') :
    Agrees (Paired scale scale' (target :: done)) (settle s target p) (settle s' target p') := by
  by_cases ht : p.target = some target
  · cases hpair with
    | number => cases ht
    | same hwait =>
      have hk : p.token.kind.isNumbered := by rw [hwait, ht, Option.isSome_some]
      have found {n n' : Int} (htwin : Twin scale scale' n n') :
          Paired scale scale' (target :: done) ⟨p.token.withValue (Text.ofInt n), none⟩
            ⟨p.token.withValue (Text.ofInt n'), none⟩ := .number hk htwin
      unfold settle
      cases target with
      | label =>
        rcases lookup_noted h.labels (key p.token) with ⟨hl, hl'⟩ | ⟨n, n', hl, hl', htwin⟩
        · simp only [ht, hl, hl', ne_eq, not_true_eq_false, if_false]
          exact .error _
        · simp only [ht, hl, hl', ne_eq, not_true_eq_false, if_false]
          exact .ok (found htwin)
      | pastLoop =>
        rcases lookup_noted h.ends (key p.token) with ⟨hl, hl'⟩ | ⟨n, n', hl, hl', htwin⟩
        · simp only [ht, hl, hl', ne_eq, not_true_eq_false, if_false]
          exact .error _
        · simp only [ht, hl, hl', ne_eq, not_true_eq_false, if_false]
          by_cases hlt : s.line < n
          · rw [if_pos hlt, if_pos ((h.line.lt_iff htwin hp hp').1 hlt)]
            exact .error _
          · rw [if_neg hlt, if_neg (mt (h.line.lt_iff htwin hp hp').2 hlt)]
            exact .ok (found htwin)
      | routine =>
        rcases lookup_noted h.routines (key p.token) with ⟨hl, hl'⟩ | ⟨n, n', hl, hl', htwin⟩
        · simp only [ht, hl, hl', ne_eq, not_true_eq_false, if_false]
          exact .error _
        · simp only [ht, hl, hl', ne_eq, not_true_eq_false, if_false]
          exact .ok (found htwin)
  · have ht' : p'.target ≠ some target := by
      cases hpair with
      | same => exact ht
      | number => simp
    unfold settle
    simp only [ne_eq, ht, ht', not_false_eq_true, if_true]
    exact .ok (hpair.settled ht)

theorem Paired.translated {p p' : Pending} (hp : 1 ≤ scale.step)
    (h : Paired scale scale' [.routine, .pastLoop, .label] p p') :
    Translated scale scale' p.token p'.token := by
  cases h with
  | same hk hd =>
    have hnone : p.target = none := by
      cases ht : p.target with
      | none => rfl
      | some target => cases target <;> simp [ht] at hd
    exact translated_same (by rw [hk, hnone, Option.isSome_none])
  | number hk htwin =>
    obtain ⟨hdvd, rfl⟩ := htwin.translate hp
    exact translated_number hk hdvd

theorem resolve_agrees (h : Alike scale scale' s s') (hp : 1 ≤ scale.step)
    (hp' : 1 ≤ scale'.step) :
    Agrees (List.Forall₂ (Translated scale scale')) (resolve s) (resolve s') := by
  unfold resolve
  apply (Agrees.mapM (List.rel_reverse h.out) fun _ _ => settle_agrees .label h hp hp').bind
  intro jumps jumps' hjumps
  apply (Agrees.mapM hjumps fun _ _ => settle_agrees .pastLoop h hp hp').bind
  intro exits exits' hexits
  apply (Agrees.mapM hexits fun _ _ => settle_agrees .routine h hp hp').bind
  intro calls calls' hcalls
  apply Agrees.ok
  rw [List.forall₂_map_left_iff, List.forall₂_map_right_iff]
  exact hcalls.imp fun _ _ hc => hc.translated hp

/-- Numbering starts in front of the first line, whose number is in the range of a word. -/
theorem alike_first {start : Token} (hk : start.kind.isNumbered = false)
    (hfit : wrap (scale.start - scale.step) = scale.start - scale.step)
    (hfit' : wrap (scale'.start - scale'.step) = scale'.start - scale'.step) :
    Alike scale scale' (opening scale start) (opening scale' start) where
  line := by
    rw [opening, opening, ← lineAt_zero, ← lineAt_zero, hfit, hfit']
    exact .opening
  out := .cons (.same hk (by simp)) .nil
  labels := .nil
  routines := .nil
  ends := .nil

/-- Numbering a program. What is said about its lines names them by their numbers. -/
theorem number_agrees {start : Token} {rest : List Token} {σ : Session} (hp : 1 ≤ scale.step)
    (hp' : 1 ≤ scale'.step) (hl : ∀ t ∈ start :: rest, t.kind ≠ .lineNumber)
    (hk : start.kind.isNumbered = false)
    (hfit : wrap (scale.start - scale.step) = scale.start - scale.step)
    (hfit' : wrap (scale'.start - scale'.step) = scale'.start - scale'.step)
    (hu : Unwrapped d scale ⟨opening scale start, rest, σ⟩)
    (hu' : Unwrapped d scale' ⟨opening scale' start, rest, σ⟩) :
    Conversion.Agrees (fun x y => List.Forall₂ (Translated scale scale') x.tokens y.tokens)
      (number d scale (start :: rest) σ) (number d scale' (start :: rest) σ) := by
  have hwalk := walk_agrees (alike_first hk hfit hfit') (List.forall_mem_cons.1 hl).2 hu hu'
  simp only [number, lineAt_zero]
  apply hwalk.bind
  rintro last last' ρ - - hlast
  apply (Conversion.Agrees.ofExcept (resolve_agrees hlast hp hp')).bind
  rintro tokens tokens' ρ' - - htokens
  exact .ok ρ' htokens

end Numbering

namespace Touch

open ClassicBasic.Numbering (Scale Translated)
open Outcome (Agrees)

variable {d : Dialect} {o : Options} {scale scale' : Scale} {t t' next next' : Token}
  {out out' input input' : List Token}

/-- A token of a numbered program is one of a kind, and a numeral in place of another is no word. -/
theorem is_translated (word : Text) (h : Translated scale scale' t t')
    (hw : word ∈ Text.ofStrings ["GOTO", "THEN", "ELSE"]) : t'.is word = t.is word := by
  have hletter : ∀ w ∈ Text.ofStrings ["GOTO", "THEN", "ELSE"],
      (Text.fold w).any (fun c => !(c == '-' || c.isDigit)) = true := by decide
  obtain ⟨c, hc, hd⟩ : ∃ c ∈ Text.fold word, (c == '-' || c.isDigit) = false := by
    simpa using List.any_eq_true.1 (hletter word hw)
  unfold Translated at h
  split at h
  · obtain ⟨n, -, hv, rfl⟩ := h
    rw [Token.is, Token.is, hv]
    simp only [Token.withValue, Text.sameLetters_ofInt _ hc hd]
  · rw [h]

theorem follows_translated (h : List.Forall₂ (Translated scale scale') out out') :
    follows out' ["THEN", "ELSE"] = follows out ["THEN", "ELSE"] := by
  cases h with
  | nil => rfl
  | cons ht _ =>
    have hthen := is_translated "THEN" ht (by decide)
    have helse := is_translated "ELSE" ht (by decide)
    simp only [follows, List.any_cons, List.any_nil, hthen, helse]

/-- A number that is touched stays, since numerals have no letters. -/
theorem touch_numbered (hk : t.kind.isNumbered) :
    touch d o out t next = .ok [capitalised d o t] := by
  have hprint : isPrint t = false := by
    cases hkind : t.kind <;> simp_all [Kind.isNumbered, Kind.isPlaceholder, isPrint]
  unfold touch
  cases hkind : t.kind <;>
    simp_all [Kind.isNumbered, Kind.isPlaceholder, Kind.isLiteral]

theorem capitalised_number (n : Int) :
    capitalised d o (t.withValue (Text.ofInt n)) = t.withValue (Text.ofInt n) := by
  unfold capitalised Token.upper Token.withValue
  split
  · rw [Text.upper_ofInt]
  · rfl

/-- Any other token is replaced by tokens that are no numbers of lines. -/
theorem touch_unnumbered {tokens : List Token} (h : touch d o out t next = .ok tokens)
    (hk : t.kind.isNumbered = false) : ∀ u ∈ tokens, u.kind.isNumbered = false := by
  have written (pos : Position) (code : Text) :
      ∀ u ∈ Lexer.snippet d pos code, u.kind.isNumbered = false := by
    intro u hu
    have hl := Lexer.snippet_lexed pos code u hu
    have hmade := hl.unmade
    have hnumber := hl.unnumbered
    cases hkind : u.kind <;>
      simp_all [Kind.isNumbered, Kind.isMade, Kind.isPlaceholder]
  cases touch_cases h with
  | printed => simpa using hk
  | gone => simp
  | @writtenOut operand before _ _ hi =>
    intro u hu
    simp only [Touch.writtenOut, List.mem_append, List.mem_cons] at hu
    rcases hu with (hu | rfl | hu) | hu
    · exact written _ _ u hu
    · rw [hi]
      rfl
    · exact written _ _ u hu
    · split at hu
      · exact written _ _ u hu
      · cases hu
  | truth => exact written _ _
  | translated => simpa [Token.withValue] using hk
  | kept => simpa using hk

/-- Behind outputs in two scales, a token that is no number is touched in the same way. -/
theorem touch_same (ho : List.Forall₂ (Translated scale scale') out out')
    (hn : Translated scale scale' next next') : touch d o out t next = touch d o out' t next' := by
  have hgoto := is_translated "GOTO" hn (by decide)
  have hfollows := follows_translated ho
  unfold touch
  rw [hgoto, hfollows]
  cases ho with
  | nil => rfl
  | @cons u u' before before' hu _ =>
    unfold Translated at hu
    split at hu
    · -- a number in front of a compound assignment is no variable
      rename_i hnum
      obtain ⟨n, -, -, rfl⟩ := hu
      have hk : u.kind ≠ .identifier := by
        rintro hk
        rw [hk] at hnum
        cases hnum
      simp only [Token.withValue, hk, if_false]
    · rw [hu]

theorem touch_agrees (ho : List.Forall₂ (Translated scale scale') out out')
    (ht : Translated scale scale' t t') (hn : Translated scale scale' next next') :
    Agrees (List.Forall₂ (Translated scale scale')) (touch d o out t next)
      (touch d o out' t' next') := by
  by_cases hk : t.kind.isNumbered
  · obtain ⟨n, -, hv, rfl⟩ := (if_pos hk).mp ht
    have hself : t.withValue (Text.ofInt n) = t := by rw [← hv]; rfl
    have hkept : capitalised d o t = t := by rw [← hself, capitalised_number]
    have hk' : (t.withValue (Text.ofInt (scale.translate scale' n))).kind.isNumbered := hk
    rw [touch_numbered hk, touch_numbered hk', capitalised_number, hkept]
    exact .ok (.cons ht .nil)
  · have hk' : t.kind.isNumbered = false := by simpa using hk
    obtain rfl : t' = t := (if_neg hk).mp ht
    rw [← touch_same ho hn]
    cases htouch : touch d o out t' next with
    | error e => exact .error e
    | ok tokens =>
      apply Agrees.ok
      rw [List.forall₂_same]
      intro u hu
      exact Numbering.translated_same (touch_unnumbered htouch hk' u hu)

theorem run_agrees (ho : List.Forall₂ (Translated scale scale') out out')
    (hi : List.Forall₂ (Translated scale scale') input input') :
    Agrees (List.Forall₂ (Translated scale scale')) (run d o out input) (run d o out' input') := by
  induction hi generalizing out out' with
  | nil => exact .error _
  | @cons t t' rest rest' ht hrest ih =>
    have hkind : t'.kind = t.kind := by
      unfold Translated at ht
      split at ht
      · obtain ⟨n, -, -, rfl⟩ := ht
        rfl
      · rw [ht]
    have hnext : Translated scale scale' (rest.headD t) (rest'.headD t') := by
      cases hrest with
      | nil => exact ht
      | cons hu _ => exact hu
    simp only [run, hkind]
    by_cases he : t.kind = .eof
    · rw [if_pos he, if_pos he]
      exact .ok (List.rel_reverse (.cons ht ho))
    · rw [if_neg he, if_neg he]
      have htouch : Agrees (List.Forall₂ (Translated scale scale'))
          (touch d o out t (rest.headD t)) (touch d o out' t' (rest'.headD t')) :=
        touch_agrees ho ht hnext
      generalize touch d o out t (rest.headD t) = r at htouch
      generalize touch d o out' t' (rest'.headD t') = r' at htouch
      cases htouch with
      | error e => exact .error e
      | ok h => exact ih (List.rel_append (List.rel_reverse h) ho)

theorem finish_agrees (h : List.Forall₂ (Translated scale scale') input input') :
    Agrees (List.Forall₂ (Translated scale scale')) (finish d o input) (finish d o input') := by
  cases h with
  | nil => exact .error _
  | cons ht hrest => exact run_agrees (.cons ht .nil) hrest

theorem finish_scale (scale : Scale) (tokens : List Token) :
    finish d { o with scale } tokens = finish d o tokens := by
  have hrun (out input : List Token) : run d { o with scale } out input = run d o out input := by
    induction input generalizing out with
    | nil => rfl
    | cons t rest ih =>
      have htouch : touch d { o with scale } = touch d o := rfl
      simp only [run, htouch, ih]
  cases tokens with
  | nil => rfl
  | cons start rest => exact hrun [start] rest

end Touch

namespace Compile

open ClassicBasic.Numbering (Scale Translated opening)

/-- The stages of a compilation in front of numbering: the tokens read and the tokens to be
numbered. -/
def gathered (s : Setting) (o : Options) (listing : Listing) :
    Conversion (List Token × List Token) := do
  Conversion.note false (.item "Lexing.")
  let lexed ← Conversion.ofExcept (Lexer.lex s.dialect listing)
  Conversion.note false (created lexed.length "tokens")
  Conversion.note false (.item "Parsing.")
  let merged ← Branch.convert s s.shelf.size (Branch.main s) lexed
  Conversion.checkpoint
  Conversion.note false (.item "Pass 4.")
  return (lexed, whole o merged)

variable {s : Setting} {o : Options} {scale scale' : Scale} {listing : Listing} {σ ρ : Session}
  {lexed program : List Token}

theorem staged_eq (s : Setting) (o : Options) (listing : Listing) : staged s o listing = (do
    let (lexed, program) ← gathered s o listing
    let numbered ← Numbering.number s.dialect o.scale program
    Conversion.note false (.item "Pass 5.")
    let parsed ← Conversion.ofExcept (Touch.finish s.dialect o numbered.tokens)
    Conversion.note false (created parsed.length "tokens")
    Conversion.note false (.item "Generating.")
    return (lexed, numbered, parsed)) := by
  unfold staged gathered
  simp only [bind_assoc, pure_bind]

/-- What stands in front of numbering: a listing that was read, and its tokens converted. -/
theorem gathered_passes (h : gathered s o listing σ = .ok (lexed, program) ρ) :
    ∃ merged before after, Lexer.lex s.dialect listing = .ok lexed ∧
      Branch.convert s s.shelf.size (Branch.main s) lexed before = .ok merged after ∧
      program = whole o merged := by
  unfold gathered at h
  obtain ⟨_, _, -, h⟩ := Conversion.bind_eq_ok_iff.1 h
  obtain ⟨lexed₁, _, hlex, h⟩ := Conversion.bind_eq_ok_iff.1 h
  obtain ⟨_, _, -, h⟩ := Conversion.bind_eq_ok_iff.1 h
  obtain ⟨_, _, -, h⟩ := Conversion.bind_eq_ok_iff.1 h
  obtain ⟨merged, _, hconv, h⟩ := Conversion.bind_eq_ok_iff.1 h
  obtain ⟨_, _, -, h⟩ := Conversion.bind_eq_ok_iff.1 h
  obtain ⟨_, _, -, h⟩ := Conversion.bind_eq_ok_iff.1 h
  obtain ⟨heq, -⟩ := Conversion.pure_eq_ok_iff.1 h
  cases heq
  exact ⟨merged, _, _, (Conversion.ofExcept_eq_ok_iff.1 hlex).1, hconv, rfl⟩

/-- A program to be numbered starts with its mark, and no line of it has a number yet. -/
theorem gathered_unnumbered (h : gathered s o listing σ = .ok (lexed, program) ρ) :
    ∃ start rest, program = start :: rest ∧ start.kind = .program ∧
      ∀ t ∈ program, t.kind ≠ .lineNumber := by
  obtain ⟨merged, before, after, hlex, hconv, rfl⟩ := gathered_passes h
  have hset := Branch.convert_settled hlex hconv
  obtain ⟨start, second, rest, rfl, hstart, -⟩ := hset.seated.exists_cons
  obtain ⟨lead, hwhole, hlead, -⟩ := whole_cons o start second rest
  have hlaw : ∀ t ∈ start :: second :: rest, t.kind ≠ .lineNumber := fun t ht =>
    (hset.lawful t (List.mem_reverse.2 ht)).unnumbered
  rw [hwhole]
  refine ⟨start, _, rfl, hstart, ?_⟩
  intro t ht
  simp only [List.mem_cons, List.mem_append] at ht hlaw
  rcases ht with rfl | rfl | ht | ht
  · exact hlaw t (.inl rfl)
  · exact hlaw t (.inr (.inl rfl))
  · rcases hlead t ht with hk | hk | hk <;> simp [hk]
  · exact hlaw t (.inr (.inr ht))

/-- Whether a compilation computes no number of a line that is out of the range of a word. -/
structure Unwrapped (s : Setting) (o : Options) (listing : Listing) (σ : Session) : Prop where
  first : wrap (o.scale.start - o.scale.step) = o.scale.start - o.scale.step
  later : ∀ lexed start rest ρ, gathered s o listing σ = .ok (lexed, start :: rest) ρ →
    Numbering.Unwrapped s.dialect o.scale ⟨opening o.scale start, rest, ρ⟩

theorem staged_rescaled (hp : 1 ≤ scale.step) (hp' : 1 ≤ scale'.step)
    (hu : Unwrapped s { o with scale := scale } listing σ)
    (hu' : Unwrapped s { o with scale := scale' } listing σ) :
    Conversion.Agrees
      (fun x y => x.1 = y.1 ∧ List.Forall₂ (Translated scale scale') x.2.2 y.2.2)
      (staged s { o with scale := scale } listing σ)
      (staged s { o with scale := scale' } listing σ) := by
  rw [staged_eq, staged_eq]
  have hsame : gathered s { o with scale := scale' } listing =
      gathered s { o with scale := scale } listing := rfl
  rw [hsame]
  apply Conversion.Agrees.step
  rintro ⟨lexed, program⟩ ρ hg
  obtain ⟨start, rest, rfl, hstart, hl⟩ := gathered_unnumbered hg
  have hnum := Numbering.number_agrees (d := s.dialect) hp hp' hl (by rw [hstart]; rfl) hu.first
    hu'.first (hu.later _ _ _ _ hg) (hu'.later _ _ _ _ hg)
  apply hnum.bind
  rintro numbered numbered' ρ₁ - - htokens
  apply Conversion.Agrees.step
  rintro _ ρ₂ -
  rw [Touch.finish_scale scale, Touch.finish_scale scale']
  apply (Conversion.Agrees.ofExcept (Touch.finish_agrees htokens)).bind
  rintro parsed parsed' ρ₃ - - hparsed
  rw [hparsed.length_eq]
  apply Conversion.Agrees.step
  rintro _ ρ₄ -
  apply Conversion.Agrees.step
  rintro _ ρ₅ -
  exact .ok ρ₅ ⟨rfl, hparsed⟩

/-- Two scales make the same program out of a listing, up to the numbers of its lines: both
compilations fail in front of the last stage, with the same error, or none does. Where the declared
names are walked in other orders in the second compilation, the same holds, but for which clash of an
entry it tells. -/
theorem staged_agrees (s : Setting) (o : Options) (scale scale' : Scale) (listing : Listing)
    (σ : Session) (hp : 1 ≤ scale.step) (hp' : 1 ≤ scale'.step)
    (hu : Unwrapped s { o with scale := scale } listing σ)
    (hu' : Unwrapped s { o with scale := scale' } listing σ) :
    Conversion.Agrees
        (fun x y => x.1 = y.1 ∧ List.Forall₂ (Translated scale scale') x.2.2 y.2.2)
        (staged s { o with scale := scale } listing σ)
        (staged s { o with scale := scale' } listing σ) ∧
      ∀ orders : List Nat, Conversion.Akin
        (fun x y => x.1 = y.1 ∧ List.Forall₂ (Translated scale scale') x.2.2 y.2.2)
        (staged s { o with scale := scale } listing σ)
        (staged s { o with scale := scale' } listing { σ with orders }) := by
  have hsame := staged_rescaled hp hp' hu hu'
  refine ⟨hsame, fun orders => ?_⟩
  exact hsame.akin (steady_staged s { o with scale := scale' } listing σ _ ⟨rfl, rfl⟩)

/-- A loop, a way out of it and a call, in two scales. -/
theorem staged_agrees_loop :
    Conversion.Agrees
        (fun x y => x.1 = y.1 ∧ List.Forall₂ (Translated ⟨10, 10⟩ ⟨100, 5⟩) x.2.2 y.2.2)
        (staged (lone .msx) { header := false, scale := ⟨10, 10⟩ }
          (Listing.ofText "x\x7b\nif a exit\n\x7d\nprint 1" "/main" 4) {})
        (staged (lone .msx) { header := false, scale := ⟨100, 5⟩ }
          (Listing.ofText "x\x7b\nif a exit\n\x7d\nprint 1" "/main" 4) {}) ∧
      (outcome (lone .msx) { header := false, scale := ⟨100, 5⟩ }
        (Listing.ofText "x\x7b\nif a exit\n\x7d\nprint 1" "/main" 4)).map Compiled.code =
        some ["100 if a goto 110".toList, "105 goto 100".toList, "110 print 1".toList] := by
  -- the two runs share the reading of the listing
  obtain ⟨hlen, hcode⟩ : (match gathered (lone .msx) { header := false }
        (Listing.ofText "x\x7b\nif a exit\n\x7d\nprint 1" "/main" 4) {} with
      | .ok (_, program) _ => decide (program.length ≤ 100)
      | .error _ _ => true) = true ∧
      (outcome (lone .msx) { header := false, scale := ⟨100, 5⟩ }
        (Listing.ofText "x\x7b\nif a exit\n\x7d\nprint 1" "/main" 4)).map Compiled.code =
        some ["100 if a goto 110".toList, "105 goto 100".toList, "110 print 1".toList] := by
    decide +kernel
  have short (scale : Scale) (hs : scale ∈ [Scale.mk 10 10, Scale.mk 100 5]) :
      Unwrapped (lone .msx) { header := false, scale }
        (Listing.ofText "x\x7b\nif a exit\n\x7d\nprint 1" "/main" 4) {} := by
    have hscale : 1 ≤ scale.step ∧ scale.step ≤ 10 ∧ scale.start ≤ 100 ∧
        wrap (scale.start - scale.step) = scale.start - scale.step := by
      simp only [List.mem_cons, List.not_mem_nil, or_false] at hs
      rcases hs with rfl | rfl <;> decide
    refine ⟨hscale.2.2.2, fun lexed start rest ρ h => ?_⟩
    have hsame : gathered (lone .msx) { header := false, scale }
        (Listing.ofText "x\x7b\nif a exit\n\x7d\nprint 1" "/main" 4) {} =
      gathered (lone .msx) { header := false }
        (Listing.ofText "x\x7b\nif a exit\n\x7d\nprint 1" "/main" 4) {} := rfl
    rw [← hsame, h, decide_eq_true_iff, List.length_cons] at hlen
    apply Numbering.unwrapped_of_roomy hscale.1
    rw [opening, ← Numbering.lineAt_zero, hscale.2.2.2]
    have hrange := wrap_eq_iff.1 hscale.2.2.2
    change Numbering.Roomy scale (scale.start - scale.step) (rest.length + 1)
    refine ⟨hrange.1, ?_⟩
    have hmul : ((rest.length + 1 : Nat) + 1 : Int) * scale.step ≤ 101 * 10 :=
      Int.mul_le_mul (by omega) hscale.2.1 (by omega) (by omega)
    have hhalf : (Word.half : Int) = 9223372036854775808 := by decide
    omega
  exact ⟨(staged_agrees (lone .msx) { header := false } ⟨10, 10⟩ ⟨100, 5⟩ _ {} (by decide)
    (by decide) (short _ (by simp)) (short _ (by simp))).1, hcode⟩

end Compile

end ClassicBasic
