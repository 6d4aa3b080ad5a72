import ClassicBasic.Proofs.Alongside

/-!
# Numbering side by side

Two programs that are alike token by token are numbered alike: labels, functions and the ends of
loops stand for the same lines in both, and variables get the same short names.
-/

set_option autoImplicit false

namespace ClassicBasic

open Conversion (Both)
open List (Forall₂)
open Token (Like Looks)

variable {d : Dialect} {f : Char → Char} {t t' u u' : Token} {l l' : List Token} {σ σ' : Session}

/-- Whether two tokens of numbered programs look the same; the numbers of lines and the signs of
compound assignments are the same. -/
structure Token.Numbered (f : Char → Char) (t t' : Token) : Prop extends Looks f t t' where
  exact : t.kind = .lineNumber ∨ t.kind = .compound → t.value = t'.value

theorem Token.Like.numbered (h : Like d f t t') (hf : Text.Fine f) : Token.Numbered f t t' where
  toLooks := h.looks
  exact := by
    rintro (hk | hk)
    · exact absurd hk h.lawful.unnumbered
    · have hread : t.kind.isRead = true := by rw [hk]; rfl
      have hsigns := Dialect.accepts_compound (hk ▸ h.lawful.classified hread)
      have hcaseless : Dialect.compoundSigns.all Text.isCaseless = true := by decide
      have hall : t.value.all Text.isCaseless = true :=
        List.all_eq_true.2 fun c hc => List.all_eq_true.1 hcaseless c (hsigns hc)
      exact ((hf.eq_signs (h.value (by simp [hk])) hall).1 rfl).symm

theorem Token.numbered_of_eq {v : Text} {pos pos' : Position} {k : Kind} (hk : k ≠ .newline) :
    Token.Numbered f ⟨k, v, pos⟩ ⟨k, v, pos'⟩ :=
  ⟨⟨rfl, fun h => absurd h hk, fun _ => rfl⟩, fun _ => rfl⟩

namespace Numbering

variable {n n' : Naming} {scale : Scale} {s s' : State}

structure Pending.Alike (f : Char → Char) (p p' : Pending) : Prop where
  target : p.target = p'.target
  token : Token.Numbered f p.token p'.token
  key : p.target ≠ none → key p.token = key p'.token ∧ p.token.kind.isPlaceholder = true

structure State.Alike (f : Char → Char) (s s' : State) : Prop where
  line : s.line = s'.line
  out : Forall₂ (Pending.Alike f) s.out s'.out
  labels : s.labels = s'.labels
  routines : s.routines = s'.routines
  ends : s.ends = s'.ends
  notes : s.notes = s'.notes

theorem State.Alike.emit (h : s.Alike f s') (ht : Token.Numbered f t t') :
    (s.emit t).Alike f (s'.emit t') :=
  { h with out := .cons ⟨rfl, ht, fun hn => absurd rfl hn⟩ h.out }

theorem State.Alike.await (h : s.Alike f s') (ht : Token.Numbered f t t') (hk : key t = key t')
    (hp : t.kind.isPlaceholder = true) (target : Target) :
    (s.await t target).Alike f (s'.await t' target) :=
  { h with out := .cons ⟨rfl, ht, fun _ => ⟨hk, hp⟩⟩ h.out }

theorem State.Alike.note (h : s.Alike f s') (entry : Text) : (s.note entry).Alike f (s'.note entry) :=
  { h with notes := by rw [State.note, State.note, h.line, h.notes] }

theorem numbered_withValue (hk : t.kind = t'.kind) (hn : t.kind ≠ .newline) (v : Text) :
    Token.Numbered f (t.withValue v) (t'.withValue v) :=
  ⟨⟨hk, fun h => absurd h hn, fun _ => rfl⟩, fun _ => rfl⟩

theorem key_like (ht : Like d f t t') (he : t.kind.isExact = true) (hn : t.kind ≠ .newline) :
    key t = key t' := by
  rw [key, key, ht.exact he, ht.file hn]

theorem isNumber_returns {v : Text} (h : Token.Returns v) : isNumber v = false := by
  obtain ⟨c, rest, hcons⟩ := List.exists_cons_of_ne_nil h.1
  rw [hcons, h.2 c (by simp [hcons])]
  rfl

theorem markLabel_both (h : s.Alike f s') (ht : Like d f t t') (hk : t.kind = .labelLine) :
    Outcome.Both (State.Alike f) (markLabel s t) (markLabel s' t') := by
  have hkey := key_like ht (by rw [hk]; rfl) (by simp [hk])
  have hvalue := ht.exact (by rw [hk]; rfl)
  simp only [markLabel, ← hkey, ← hvalue, ← h.labels, ← h.line]
  split
  · exact .error _ _
  · exact .ok { h.note _ with labels := rfl }

theorem jump_like (h : s.Alike f s') (ht : Like d f t t')
    (hk : t.kind = .labelJump ∨ t.kind = .labelReturn) :
    (jump scale.step s t).Alike f (jump scale.step s' t') := by
  have hexact : t.kind.isExact = true := by rcases hk with hk | hk <;> rw [hk] <;> rfl
  have hplace : t.kind.isPlaceholder = true := by rcases hk with hk | hk <;> rw [hk] <;> rfl
  have hn : t.kind ≠ .newline := by rcases hk with hk | hk <;> simp [hk]
  have hcompound : ¬(t.kind = .lineNumber ∨ t.kind = .compound) := by
    rcases hk with hk | hk <;> simp [hk]
  have hkey := key_like ht hexact hn
  have hvalue := ht.exact hexact
  have htoken : Token.Numbered f t t' := ⟨ht.looks, fun h => absurd h hcompound⟩
  have finish {r r' : State} (hr : r.Alike f r') :
      (if t.value = Label.sameLine then r.emit (t.withValue (Text.ofInt r.line))
        else r.await t .label).Alike f
      (if t.value = Label.sameLine then r'.emit (t'.withValue (Text.ofInt r'.line))
        else r'.await t' .label) := by
    rw [← hr.line]
    split
    · exact hr.emit (numbered_withValue ht.kind hn _)
    · exact hr.await htoken hkey hplace _
  have hreturn : (if t.kind = .labelReturn then
        { s.note (">" ++ t.value) with
          ends := (key t, wrap ((s.note (">" ++ t.value)).line + scale.step)) ::
            (s.note (">" ++ t.value)).ends }
      else s.note (">" ++ t.value)).Alike f
      (if t.kind = .labelReturn then
        { s'.note (">" ++ t.value) with
          ends := (key t, wrap ((s'.note (">" ++ t.value)).line + scale.step)) ::
            (s'.note (">" ++ t.value)).ends }
      else s'.note (">" ++ t.value)) := by
    have hnote := h.note (">" ++ t.value)
    split
    · exact { hnote with ends := by rw [hnote.ends, hnote.line] }
    · exact hnote
  simp only [jump, ← hvalue, ← ht.kind, ← hkey]
  exact finish hreturn

theorem endLine_both (h : s.Alike f s') (hf : Text.Fine f) (ht : Like d f t t') (hu : Like d f u u') :
    Outcome.Both (State.Alike f) (endLine scale.step s t u) (endLine scale.step s' t' u') := by
  have hnext : isNumber u.value = isNumber u'.value :=
    hu.apply (fun v v' hv => isNumber_like hf hv)
      fun v v' hv hv' => by rw [isNumber_returns hv, isNumber_returns hv']
  simp only [endLine, ← hu.kind, ← hnext, ← h.line]
  split
  · exact .ok (State.Alike.emit ⟨rfl, h.out, h.labels, h.routines, h.ends, h.notes⟩
      (ht.numbered hf))
  · split
    · exact .error _ _
    · refine .ok (State.Alike.emit (State.Alike.emit ?_ (ht.numbered hf)) ?_)
      · exact ⟨rfl, h.out, h.labels, h.routines, h.ends, h.notes⟩
      · exact Token.numbered_of_eq (by decide)

theorem step_both (h : s.Alike f s') (hf : Text.Fine f) (ht : Like d f t t') (hu : Like d f u u') :
    Outcome.Both (State.Alike f) (step scale s t u) (step scale s' t' u') := by
  simp only [step, ← ht.kind]
  split
  · rename_i hk
    exact markLabel_both h ht hk
  · rename_i hk
    exact .ok (jump_like h ht (.inl hk))
  · rename_i hk
    exact .ok (jump_like h ht (.inr hk))
  · rename_i hk
    rw [← ht.exact (by rw [hk]; rfl)]
    exact .ok ((h.note _).await (ht.numbered hf) (key_like ht (by rw [hk]; rfl) (by simp [hk]))
      (by rw [hk]; rfl) _)
  · rename_i hk
    rw [← ht.exact (by rw [hk]; rfl), ← key_like ht (by rw [hk]; rfl) (by simp [hk]), ← h.line,
      ← h.routines]
    exact .ok { h.note _ with routines := rfl }
  · rename_i hk
    rw [← ht.exact (by rw [hk]; rfl)]
    exact .ok ((h.note _).await (ht.numbered hf) (key_like ht (by rw [hk]; rfl) (by simp [hk]))
      (by rw [hk]; rfl) _)
  · exact endLine_both h hf ht hu
  · exact .ok (h.emit (ht.numbered hf))

theorem settle_both {target : Target} {p p' : Pending} (h : s.Alike f s') (hp : p.Alike f p') :
    Outcome.Both (Pending.Alike f) (settle s target p) (settle s' target p') := by
  simp only [settle, ← hp.target]
  split
  · exact .ok hp
  · rename_i hs
    obtain ⟨hkey, hplace⟩ := hp.key (by rw [not_not.1 hs]; simp)
    have hn : p.token.kind ≠ .newline := by
      rintro hk
      rw [hk] at hplace
      cases hplace
    have found (line : Int) : Outcome.Both (Pending.Alike f)
        (Except.ok { token := p.token.withValue (Text.ofInt line) } : Except Failure Pending)
        (.ok { token := p'.token.withValue (Text.ofInt line) }) :=
      .ok ⟨rfl, numbered_withValue hp.token.kind hn _, fun hne => absurd rfl hne⟩
    simp only [← hkey, ← h.labels, ← h.ends, ← h.routines, ← h.line]
    cases target with
    | label =>
      dsimp only
      split
      · exact found _
      · exact .error _ _
    | pastLoop =>
      dsimp only
      split
      · split
        · exact .error _ _
        · exact found _
      · exact .error _ _
    | routine =>
      dsimp only
      split
      · exact found _
      · exact .error _ _

theorem resolve_both (h : s.Alike f s') :
    Outcome.Both (Forall₂ (Token.Numbered f)) (resolve s) (resolve s') := by
  unfold resolve
  apply (Outcome.both_mapM (List.rel_reverse h.out) fun _ _ hp => settle_both h hp).bind
  intro jumps jumps' _ hjumps
  apply (Outcome.both_mapM hjumps fun _ _ hp => settle_both h hp).bind
  intro exits exits' _ hexits
  apply (Outcome.both_mapM hexits fun _ _ hp => settle_both h hp).bind
  intro calls calls' _ hcalls
  refine .ok ?_
  rw [List.forall₂_map_left_iff, List.forall₂_map_right_iff]
  exact hcalls.imp fun _ _ hp => hp.token

theorem shorten_both (hf : Text.Fine f) (ht : Like d f t t') (hk : t.kind = .identifier)
    (hs : σ.Alike σ') : Both (Token.Numbered f) (shorten d t σ) (shorten d t' σ') := by
  have hn : t.kind ≠ .newline := by simp [hk]
  have hname := ht.sameName hf hn
  have hsigil : t.sigil.map f = t'.sigil.map f := by
    have hlength := Text.length_of_map (Token.bareName_like hf ht hn)
    rw [Token.sigil, Token.sigil, List.map_drop, List.map_drop, ht.value hn, hlength]
  have hshorten {n n' : Naming} (h : n.Alike n') :
      Outcome.Both (fun r r' => Token.Numbered f r.1 r'.1 ∧ r.2.Alike r'.2) (n.shorten d t)
        (n'.shorten d t') := by
    have hgiven (short : Text) : Token.Numbered f (t.withValue (short ++ t.sigil))
        (t'.withValue (short ++ t'.sigil)) := by
      refine ⟨⟨ht.kind, fun h => absurd h hn, fun _ => ?_⟩, fun h => ?_⟩
      · simp only [Token.withValue, List.map_append, hsigil]
      · rcases h with h | h <;> simp [Token.withValue, hk] at h
    simp only [Naming.shorten, ← hname.1, ← h.isKept hname]
    split
    · exact .ok ⟨ht.numbered hf, h⟩
    · simp only [Naming.allocate, ← h.shortOf? hname, ← h.lastFree, ← h.free]
      split
      · exact .ok ⟨hgiven _, h⟩
      · split
        · exact .ok ⟨hgiven _, { h.declare hname _ with free := rfl }⟩
        · exact .error _ _
  unfold shorten
  apply (Conversion.naming_both hs).bind
  intro n n' τ τ' hnames hτ
  apply (Both.ofExcept (hshorten hnames) hτ).bind
  intro r r' υ υ' hr hυ
  apply (Conversion.setNaming_both hr.2 hυ).bind
  intro _ _ ω ω' _ hω
  exact .ok hr.1 hω

theorem walk_both (hf : Text.Fine f) (h : s.Alike f s') (hl : Forall₂ (Like d f) l l')
    (hs : σ.Alike σ') : Both (State.Alike f) (walk d scale s l σ) (walk d scale s' l' σ') := by
  induction hl generalizing s s' σ σ' with
  | nil => exact .error _ _ _ _
  | @cons t t' l l' ht hl ih =>
    have hnext : Like d f (l.headD t) (l'.headD t') := by
      cases hl with
      | nil => exact ht
      | cons h _ => exact h
    simp only [walk, ← ht.kind]
    split
    · exact .ok (h.emit (ht.numbered hf)) hs
    · split
      · rename_i hk
        apply (shorten_both hf ht hk hs).bind
        intro u u' τ τ' hu hτ
        exact ih (h.emit hu) hτ
      · apply (Both.ofExcept (step_both h hf ht hnext) hs).bind
        intro r r' τ τ' hr hτ
        exact ih hr hτ

theorem number_both (hf : Text.Fine f) (hl : Forall₂ (Like d f) l l') (hs : σ.Alike σ') :
    Both (fun n n' => Forall₂ (Token.Numbered f) n.tokens n'.tokens ∧ n.notes = n'.notes)
      (number d scale l σ) (number d scale l' σ') := by
  cases hl with
  | nil => exact .error _ _ _ _
  | @cons t t' l l' ht hl =>
    have hfirst : State.Alike f
        { line := wrap (scale.start - scale.step), out := [⟨t, none⟩] }
        { line := wrap (scale.start - scale.step), out := [⟨t', none⟩] } :=
      ⟨rfl, .cons ⟨rfl, ht.numbered hf, fun hn => absurd rfl hn⟩ .nil, rfl, rfl, rfl, rfl⟩
    unfold number
    apply (walk_both hf hfirst hl hs).bind
    intro r r' τ τ' hr hτ
    apply (Both.ofExcept (resolve_both hr) hτ).bind
    intro tokens tokens' υ υ' htokens hυ
    exact .ok ⟨htokens, by rw [hr.notes]⟩ hυ

theorem withHeader_alike (hl : Forall₂ (Like d f) l l')
    (hk : ∀ t ∈ l.head?, t.kind ≠ .newline) :
    Forall₂ (Like d f) (withHeader l) (withHeader l') := by
  cases hl with
  | nil => exact .nil
  | @cons t t' l l' ht hl =>
    have hp := ht.file (hk t rfl)
    have hline (text : Text) : Forall₂ (Like d f) (remarkLine t.pos text) (remarkLine t'.pos text) := by
      have hremark : d.classify "'" = some .remark := Lexer.classify_apostrophe d
      refine .cons ?_ (.cons ?_ (.cons ?_ .nil))
      · have lawful (pos : Position) : Token.Lawful d ⟨.remark, ['\''], pos⟩ :=
          ⟨by simp, fun _ => hremark, fun he => by cases he⟩
        exact ⟨rfl, lawful _, lawful _, fun _ => hp, fun _ => rfl, fun _ => rfl⟩
      · exact Token.like_unread rfl rfl (by decide) rfl hp
      · exact Token.like_newline (Lexer.endsRow_return _) (Lexer.endsRow_return _)
    simp only [withHeader]
    refine List.rel_append (List.rel_append (List.forall₂_take _ (.cons ht hl)) ?_)
      (List.forall₂_drop _ (.cons ht hl))
    exact List.rel_append (hline _) (List.rel_append (hline _) .nil)

end Numbering

end ClassicBasic
