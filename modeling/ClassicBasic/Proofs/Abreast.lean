import ClassicBasic.Proofs.Homed
import ClassicBasic.Proofs.Likeness

/-!
# Two programs side by side

Two programs are alike if they have the same tokens, but for the letter case of words, for places on
a line and for line ends that follow each other. What is read of one is read of the other: both
readers fail, or they leave programs that are alike again.
-/

set_option autoImplicit false

namespace ClassicBasic

namespace Outcome

variable {ε α β γ δ : Type} {R : α → β → Prop} {S : γ → δ → Prop}

/-- Two results of one form: both are errors, or they are related. -/
inductive Both (R : α → β → Prop) : Except ε α → Except ε β → Prop
  | error (e e' : ε) : Both R (.error e) (.error e')
  | ok {a : α} {b : β} (h : R a b) : Both R (.ok a) (.ok b)

theorem Both.elim {x : Except ε α} {y : Except ε β} (h : Both R x y) :
    (∃ e e', x = .error e ∧ y = .error e') ∨ ∃ a b, x = .ok a ∧ y = .ok b ∧ R a b := by
  cases h with
  | error e e' => exact .inl ⟨e, e', rfl, rfl⟩
  | ok h => exact .inr ⟨_, _, rfl, rfl, h⟩

theorem Both.mono {R' : α → β → Prop} {x : Except ε α} {y : Except ε β} (h : Both R x y)
    (hR : ∀ a b, R a b → R' a b) : Both R' x y := by
  cases h with
  | error e e' => exact .error e e'
  | ok h => exact .ok (hR _ _ h)

theorem Both.map {x : Except ε α} {y : Except ε β} {f : α → γ} {g : β → δ} (h : Both R x y)
    (hf : ∀ a b, R a b → S (f a) (g b)) : Both S (x.map f) (y.map g) := by
  cases h with
  | error e e' => exact .error e e'
  | ok h => exact .ok (hf _ _ h)

theorem Both.of_map {x : Except ε α} {y : Except ε β} {f : α → γ} {g : β → δ}
    (h : Both S (x.map f) (y.map g)) : Both (fun a b => S (f a) (g b)) x y := by
  cases x with
  | error e =>
    cases y with
    | error e' => exact .error e e'
    | ok b => cases h
  | ok a =>
    cases y with
    | error e' => cases h
    | ok b =>
      cases h with
      | ok h => exact .ok h

theorem Both.bind {x : Except ε α} {y : Except ε β} {f : α → Except ε γ} {g : β → Except ε δ}
    (h : Both R x y) (hf : ∀ a b, x = .ok a → R a b → Both S (f a) (g b)) :
    Both S (x >>= f) (y >>= g) := by
  cases h with
  | error e e' => exact .error e e'
  | ok h => exact hf _ _ rfl h

theorem both_mapM {f : α → Except ε γ} {g : β → Except ε δ} {l : List α} {r : List β}
    (hl : List.Forall₂ R l r) (hf : ∀ a b, R a b → Both S (f a) (g b)) :
    Both (List.Forall₂ S) (l.mapM f) (r.mapM g) := by
  induction hl with
  | nil => exact .ok .nil
  | cons hab _ ih =>
    rw [List.mapM_cons, List.mapM_cons]
    apply (hf _ _ hab).bind
    intro c e _ hce
    apply ih.bind
    intro cs es _ hrest
    exact .ok (.cons hce hrest)

end Outcome

namespace Kind

def isAddress : Kind → Bool
  | .lineNumber | .labelLine | .labelJump | .labelReturn | .labelExit | .functionCall => true
  | _ => false

def isExact (k : Kind) : Bool :=
  k.isAddress || k == .string || k == .functionEntry || k == .special

end Kind

namespace Token

structure EndsRow (d : Dialect) (t : Token) : Prop where
  kind : t.kind = .newline
  lawful : t.Lawful d

/-- Whether two tokens are alike: of one kind and, line ends apart, with the same text under `f` and
in one file. -/
structure Like (d : Dialect) (f : Char → Char) (t t' : Token) : Prop where
  kind : t.kind = t'.kind
  lawful : t.Lawful d
  lawful' : t'.Lawful d
  file : t.kind ≠ .newline → t.pos.file = t'.pos.file
  value : t.kind ≠ .newline → t.value.map f = t'.value.map f
  exact : t.kind.isExact = true → t.value = t'.value

/-- Whether a text is made of returns, as the value of a line end is. -/
def Returns (v : Text) : Prop := v ≠ [] ∧ ∀ c ∈ v, c = '\r'

theorem EndsRow.returns {d : Dialect} {t : Token} (h : t.EndsRow d) : Returns t.value :=
  Dialect.accepts_newline (h.kind ▸ h.lawful.classified (by rw [h.kind]; rfl))

theorem Returns.ne {v w : Text} (h : Returns v) (hw : '\r' ∉ w) : v ≠ w := by
  rintro rfl
  obtain ⟨c, rest, hcons⟩ := List.exists_cons_of_ne_nil h.1
  have hc : c ∈ v := by simp [hcons]
  exact hw (h.2 c hc ▸ hc)

theorem Returns.fold {v : Text} (h : Returns v) : Returns (Text.fold v) := by
  have hreturn : Text.foldChar '\r' = '\r' := by decide
  refine ⟨by simpa [Text.fold] using h.1, fun c hc => ?_⟩
  obtain ⟨x, hx, rfl⟩ := List.mem_map.1 hc
  rw [h.2 x hx, hreturn]

def isSigns (w : Text) : Bool := w.all Text.isCaseless && !w.contains '\r'

/-- Whether two tokens look the same: both end lines, or their texts agree under `f`. -/
structure Looks (f : Char → Char) (t t' : Token) : Prop where
  kind : t.kind = t'.kind
  returns : t.kind = .newline → Returns t.value ∧ Returns t'.value
  value : t.kind ≠ .newline → t.value.map f = t'.value.map f

variable {d : Dialect} {f : Char → Char} {t t' u u' : Token}

/-- What is the same of texts that agree and of all line ends is the same of tokens that look the
same. -/
theorem Looks.apply {α : Type} {g : Text → α} (h : Looks f t t')
    (hg : ∀ v v', v.map f = v'.map f → g v = g v')
    (hr : ∀ v v', Returns v → Returns v' → g v = g v') : g t.value = g t'.value := by
  by_cases hk : t.kind = .newline
  · exact hr _ _ (h.returns hk).1 (h.returns hk).2
  · exact hg _ _ (h.value hk)

theorem Looks.value_eq (h : Looks f t t') (hf : Text.Fine f) {w : Text}
    (hw : isSigns w = true) : t.value = w ↔ t'.value = w := by
  simp only [isSigns, Bool.and_eq_true, Bool.not_eq_true', List.contains_eq_mem,
    decide_eq_false_iff_not] at hw
  have := h.apply (g := fun v => decide (v = w))
    (fun v v' hv => decide_eq_decide.2 (hf.eq_signs hv hw.1))
    (fun v v' hv hv' => by simp [hv.ne hw.2, hv'.ne hw.2])
  simpa using this

theorem Looks.is (h : Looks f t t') (hf : Text.Fine f) {w : Text}
    (hw : '\r' ∉ Text.fold w) : t.is w = t'.is w := by
  refine h.apply (g := fun v => Text.sameLetters v w) (fun v v' hv => hf.sameLetters hv rfl)
    fun v v' hv hv' => ?_
  simp only [Text.sameLetters_eq]
  rw [beq_eq_false_iff_ne.2 (hv.fold.ne hw), beq_eq_false_iff_ne.2 (hv'.fold.ne hw)]

theorem like_newline (h : t.EndsRow d) (h' : t'.EndsRow d) : Like d f t t' where
  kind := h.kind.trans h'.kind.symm
  lawful := h.lawful
  lawful' := h'.lawful
  file hk := absurd h.kind hk
  value hk := absurd h.kind hk
  exact hk := by
    rw [h.kind] at hk
    cases hk

theorem Like.endsRow (h : Like d f t t') (hk : t.kind = .newline) : t.EndsRow d ∧ t'.EndsRow d :=
  ⟨⟨hk, h.lawful⟩, ⟨h.kind ▸ hk, h.lawful'⟩⟩

theorem Like.looks (h : Like d f t t') : Looks f t t' where
  kind := h.kind
  returns hk := ⟨(h.endsRow hk).1.returns, (h.endsRow hk).2.returns⟩
  value := h.value

theorem Like.apply {α : Type} {g : Text → α} (h : Like d f t t')
    (hg : ∀ v v', v.map f = v'.map f → g v = g v')
    (hr : ∀ v v', Returns v → Returns v' → g v = g v') : g t.value = g t'.value :=
  h.looks.apply hg hr

theorem Like.value_eq (h : Like d f t t') (hf : Text.Fine f) {w : Text}
    (hw : isSigns w = true) : t.value = w ↔ t'.value = w := h.looks.value_eq hf hw

theorem Like.value_beq (h : Like d f t t') (hf : Text.Fine f) {w : Text}
    (hw : isSigns w = true) : (t.value == w) = (t'.value == w) := by
  rw [Bool.eq_iff_iff, beq_iff_eq, beq_iff_eq]
  exact h.value_eq hf hw

theorem Like.is (h : Like d f t t') (hf : Text.Fine f) {w : Text}
    (hw : '\r' ∉ Text.fold w) : t.is w = t'.is w := h.looks.is hf hw

theorem Like.lower (h : Like d f t t') (hf : Text.Fine f) (hk : t.kind ≠ .newline) :
    t.lower = t'.lower := hf.lower (h.value hk)

theorem Like.upper (h : Like d f t t') (hf : Text.Fine f) (hk : t.kind ≠ .newline) :
    t.upper = t'.upper := hf.upper (h.value hk)

theorem Like.endsLine (h : Like d f t t') : t.endsLine = t'.endsLine := by
  rw [Token.endsLine, Token.endsLine, h.kind]

theorem bareName_like (hf : Text.Fine f) (h : Like d f t t') (hk : t.kind ≠ .newline) :
    t.bareName.map f = t'.bareName.map f :=
  Text.trimEnd_of_map (fun _ _ hc => hf.apply (by decide) hc) (h.value hk)

theorem Like.varName (h : Like d f t t') (hf : Text.Fine f) (hk : t.kind ≠ .newline) :
    t.varName = t'.varName := hf.lower (bareName_like hf h hk)

end Token

/-- Whether two programs are alike: their tokens are and, in the `loose` sense, line ends that follow
others are passed over. `behind` tells whether the programs stand behind a line end. -/
inductive Runs (d : Dialect) (loose : Prop) (R : Token → Token → Prop) :
    Bool → List Token → List Token → Prop
  | nil {behind : Bool} : Runs d loose R behind [] []
  | cons {behind : Bool} {t t' : Token} {l l' : List Token} (h : R t t')
      (more : Runs d loose R (t.kind == .newline) l l') : Runs d loose R behind (t :: l) (t' :: l')
  | left {n : Token} {l l' : List Token} (hl : loose) (hn : n.EndsRow d)
      (more : Runs d loose R true l l') : Runs d loose R true (n :: l) l'
  | right {n : Token} {l l' : List Token} (hl : loose) (hn : n.EndsRow d)
      (more : Runs d loose R true l l') : Runs d loose R true l (n :: l')

/-- The same for what has been written, last token first. -/
inductive Back (d : Dialect) (loose : Prop) (R : Token → Token → Prop) :
    List Token → List Token → Prop
  | nil : Back d loose R [] []
  | cons {t t' : Token} {l l' : List Token} (h : R t t') (more : Back d loose R l l') :
      Back d loose R (t :: l) (t' :: l')
  | left {n m : Token} {l l' : List Token} (hl : loose) (hn : n.EndsRow d) (hm : m.kind = .newline)
      (more : Back d loose R (m :: l) l') : Back d loose R (n :: m :: l) l'
  | right {n m : Token} {l l' : List Token} (hl : loose) (hn : n.EndsRow d) (hm : m.kind = .newline)
      (more : Back d loose R l (m :: l')) : Back d loose R l (n :: m :: l')

/-- What relates tokens that are alike, and all line ends. -/
structure Ties (d : Dialect) (f : Char → Char) (R : Token → Token → Prop) : Prop where
  fine : Text.Fine f
  like {t t' : Token} (h : R t t') : Token.Like d f t t'
  ends {n n' : Token} (h : n.EndsRow d) (h' : n'.EndsRow d) : R n n'

section

variable {d : Dialect} {loose : Prop} {f : Char → Char} {R R' : Token → Token → Prop} {b : Bool}
  {t t' : Token} {l l' m m' : List Token}

theorem Runs.mono (h : Runs d loose R b l l') (hR : ∀ t t', R t t' → R' t t') :
    Runs d loose R' b l l' := by
  induction h with
  | nil => exact .nil
  | cons h _ ih => exact .cons (hR _ _ h) ih
  | left hl hn _ ih => exact .left hl hn ih
  | right hl hn _ ih => exact .right hl hn ih

theorem Runs.exists_cons (h : Runs d loose R false l l') :
    (l = [] ∧ l' = []) ∨ ∃ t t' m m', l = t :: m ∧ l' = t' :: m' ∧ R t t' ∧
      Runs d loose R (t.kind == .newline) m m' := by
  cases h with
  | nil => exact .inl ⟨rfl, rfl⟩
  | cons h more => exact .inr ⟨_, _, _, _, rfl, rfl, h, more⟩

theorem Runs.anywhere (h : Runs d loose R false l l') (b : Bool) : Runs d loose R b l l' := by
  cases h with
  | nil => exact .nil
  | cons h more => exact .cons h more

theorem Runs.tail (h : Runs d loose R false (t :: l) (t' :: l')) (hk : t.kind ≠ .newline) :
    R t t' ∧ Runs d loose R false l l' := by
  cases h with
  | cons h more =>
    rw [beq_eq_false_iff_ne.2 hk] at more
    exact ⟨h, more⟩

theorem Runs.forall₂ (h : Runs d loose R b l l') (hl : ¬loose) : List.Forall₂ R l l' := by
  induction h with
  | nil => exact .nil
  | cons h _ ih => exact .cons h ih
  | left h => exact absurd h hl
  | right h => exact absurd h hl

theorem Runs.append {xs xs' : List Token} (hx : List.Forall₂ R xs xs')
    (hr : Runs d loose R false l l') (b : Bool) : Runs d loose R b (xs ++ l) (xs' ++ l') := by
  induction hx generalizing b with
  | nil => exact hr.anywhere b
  | cons h _ ih => exact .cons h (ih _)

theorem runs_of_forall₂ (h : List.Forall₂ R l l') (b : Bool) : Runs d loose R b l l' := by
  simpa using Runs.append h .nil b

theorem Back.append {xs xs' : List Token} (hx : List.Forall₂ R xs xs') (h : Back d loose R l l') :
    Back d loose R (xs.reverse ++ l) (xs'.reverse ++ l') := by
  induction hx generalizing l l' with
  | nil => exact h
  | cons ht _ ih =>
    rw [List.reverse_cons, List.append_assoc, List.reverse_cons, List.append_assoc]
    exact ih (.cons ht h)

theorem Back.append_back {xs xs' : List Token} (hx : Back d loose R xs xs')
    (h : Back d loose R l l') : Back d loose R (xs ++ l) (xs' ++ l') := by
  induction hx with
  | nil => exact h
  | cons ht _ ih => exact .cons ht ih
  | left hl hn hm _ ih => exact .left hl hn hm ih
  | right hl hn hm _ ih => exact .right hl hn hm ih

theorem Back.mono (h : Back d loose R l l') (hR : ∀ t t', R t t' → R' t t') :
    Back d loose R' l l' := by
  induction h with
  | nil => exact .nil
  | cons h _ ih => exact .cons (hR _ _ h) ih
  | left hl hn hm _ ih => exact .left hl hn hm ih
  | right hl hn hm _ ih => exact .right hl hn hm ih

variable (hR : Ties d f R)

include hR

/-- What has been written ends with tokens that are alike; in the middle of a line, the rest is
alike as well. -/
theorem Back.exists_cons (h : Back d loose R l l') :
    (l = [] ∧ l' = []) ∨ ∃ t t' m m', l = t :: m ∧ l' = t' :: m' ∧ R t t' ∧
      (t.kind ≠ .newline → Back d loose R m m') := by
  induction h with
  | nil => exact .inl ⟨rfl, rfl⟩
  | cons h more _ => exact .inr ⟨_, _, _, _, rfl, rfl, h, fun _ => more⟩
  | @left n m l l' hl hn hm _ ih =>
    rcases ih with ⟨h, -⟩ | ⟨t, t', k, k', heq, rfl, ht, -⟩
    · cases h
    · obtain ⟨rfl, rfl⟩ := List.cons.inj heq
      have ht' := ((hR.like ht).endsRow hm).2
      exact .inr ⟨n, t', _, _, rfl, rfl, hR.ends hn ht', fun hk => absurd hn.kind hk⟩
  | @right n m l l' hl hn hm _ ih =>
    rcases ih with ⟨-, h⟩ | ⟨t, t', k, k', rfl, heq, ht, -⟩
    · cases h
    · obtain ⟨rfl, rfl⟩ := List.cons.inj heq
      have hk := (hR.like ht).kind.trans hm
      have ht' := ((hR.like ht).endsRow hk).1
      exact .inr ⟨t, n, _, _, rfl, rfl, hR.ends ht' hn, fun h => absurd hk h⟩

theorem Back.atLineStart (h : Back d loose R l l') :
    Directive.atLineStart l = Directive.atLineStart l' := by
  rcases h.exists_cons hR with ⟨rfl, rfl⟩ | ⟨t, t', m, m', rfl, rfl, ht, -⟩
  · rfl
  · rw [Directive.atLineStart, Directive.atLineStart, (hR.like ht).kind]

/-- What has been written, read from its start, goes on with the programs behind it. -/
theorem Back.reverse_append (h : Back d loose R l l')
    (hr : Runs d loose R (Directive.atLineStart l) m m') :
    Runs d loose R false (l.reverse ++ m) (l'.reverse ++ m') := by
  induction h generalizing m m' with
  | nil => exact hr
  | cons h more ih =>
    rw [List.reverse_cons, List.append_assoc, List.reverse_cons, List.append_assoc]
    exact ih (.cons h hr)
  | @left n k l l' hl hn hk _ ih =>
    rw [List.reverse_cons, List.append_assoc]
    have hstart : Directive.atLineStart (k :: l) = true := beq_iff_eq.2 hk
    rw [show Directive.atLineStart (n :: k :: l) = true from beq_iff_eq.2 hn.kind] at hr
    exact ih (by rw [hstart]; exact .left hl hn hr)
  | @right n k l l' hl hn hk more ih =>
    have hrev : (n :: k :: l').reverse = (k :: l').reverse ++ [n] := List.reverse_cons
    rw [hrev, List.append_assoc]
    have hstart : Directive.atLineStart l = true := by
      rw [more.atLineStart hR]
      exact beq_iff_eq.2 hk
    rw [hstart] at hr ih
    exact ih (.right hl hn hr)

end

end ClassicBasic
