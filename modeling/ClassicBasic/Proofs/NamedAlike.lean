import ClassicBasic.Proofs.ReadAlike

/-!
# Names in programs that are alike

The names of variables are told apart without regard to case, so two programs that are alike come to
know the same names. Conversions of them are compared from sessions with the same names on: both fail,
or both go on with results that are alike and sessions that still know the same names.
-/

set_option autoImplicit false

namespace ClassicBasic

open Outcome (Both)
open List (Forall₂)

def Token.SameName (t t' : Token) : Prop := t.varName = t'.varName ∧ t.pos.file = t'.pos.file

theorem Token.SameName.qualified {t t' : Token} (h : t.SameName t') : t.qualified = t'.qualified := by
  rw [Token.qualified, Token.qualified, h.1, h.2]

theorem Token.Like.sameName {d : Dialect} {f : Char → Char} {t t' : Token} (h : Token.Like d f t t')
    (hf : Text.Fine f) (hk : t.kind ≠ .newline) : t.SameName t' := ⟨h.varName hf hk, h.file hk⟩

namespace Naming

structure Alike (n n' : Naming) : Prop where
  declared : n.declared = n'.declared
  written : n.written = n'.written
  kept : Forall₂ Token.SameName n.kept n'.kept
  free : n.free = n'.free

theorem alike_refl (n : Naming) : n.Alike n where
  declared := rfl
  written := rfl
  kept := List.forall₂_same.2 fun _ _ => ⟨rfl, rfl⟩
  free := rfl

theorem sameName_trans {l l' l'' : List Token} (h : Forall₂ Token.SameName l l')
    (h' : Forall₂ Token.SameName l' l'') : Forall₂ Token.SameName l l'' := by
  induction h generalizing l'' with
  | nil => exact h'
  | cons ht _ ih =>
    cases h' with
    | cons ht' hmore => exact .cons ⟨ht.1.trans ht'.1, ht.2.trans ht'.2⟩ (ih hmore)

theorem Alike.trans {n n' n'' : Naming} (h : n.Alike n') (h' : n'.Alike n'') : n.Alike n'' where
  declared := h.declared.trans h'.declared
  written := h.written.trans h'.written
  kept := sameName_trans h.kept h'.kept
  free := h.free.trans h'.free

variable {n n' : Naming} {t t' : Token} {d : Dialect}

theorem Alike.any_kept (h : n.Alike n') {p p' : Token → Bool}
    (hp : ∀ k k', k.SameName k' → p k = p' k') : n.kept.any p = n'.kept.any p' := by
  have hkept := h.kept
  generalize n.kept = l at hkept
  generalize n'.kept = l' at hkept
  induction hkept with
  | nil => rfl
  | cons hk _ ih => rw [List.any_cons, List.any_cons, hp _ _ hk, ih]

theorem Alike.shortOf? (h : n.Alike n') (ht : t.SameName t') : n.shortOf? t = n'.shortOf? t' := by
  rw [Naming.shortOf?, Naming.shortOf?, h.declared, ht.qualified]

theorem Alike.isKept (h : n.Alike n') (ht : t.SameName t') : n.isKept t = n'.isKept t' :=
  h.any_kept fun k k' hk => by rw [hk.qualified, ht.qualified]

theorem Alike.declare (h : n.Alike n') (ht : t.SameName t') (short : Text) :
    (n.declare t short).Alike (n'.declare t' short) where
  declared := by rw [Naming.declare, Naming.declare, h.declared, ht.qualified]
  written := h.written
  kept := h.kept
  free := h.free

theorem Alike.write (h : n.Alike n') (name : Text) : (n.write name).Alike (n'.write name) := by
  unfold Naming.write
  rw [h.written]
  split
  · exact h
  · exact ⟨h.declared, rfl, h.kept, h.free⟩

theorem Alike.keep (h : n.Alike n') (ht : t.SameName t') : (n.keep t).Alike (n'.keep t') := by
  unfold Naming.keep
  rw [h.isKept ht]
  split
  · exact h
  · exact ⟨h.declared, h.written, List.rel_append h.kept (.cons ht .nil), h.free⟩

theorem Alike.lastFree (h : n.Alike n') (slot : Nat) : n.lastFree d slot = n'.lastFree d slot := by
  have htaken (short : Text) : n.isTaken short = n'.isTaken short := by
    rw [Naming.isTaken, Naming.isTaken, h.declared, h.written,
      h.any_kept fun k k' hk => by rw [hk.1]]
  induction slot with
  | zero => rfl
  | succ slot ih => simp only [Naming.lastFree, htaken, ih]

theorem keepWritten_both (h : n.Alike n') (ht : t.SameName t') :
    Both Alike (n.keepWritten t).outcome (n'.keepWritten t').outcome := by
  simp only [keepWritten, h.shortOf? ht, ht.1]
  split
  · exact .error _ _
  · split
    · exact .error _ _
    · exact .ok (h.keep ht)

theorem meet_both (h : n.Alike n') (ht : t.SameName t') :
    Both Alike (n.meet t).outcome (n'.meet t').outcome := by
  simp only [meet, h.shortOf? ht, ht.1]
  split
  · exact .ok h
  · dsimp only
    split
    · exact .ok (h.write _)
    · exact .ok h

end Naming

namespace Declaration

open Naming (Alike)

variable {n n' : Naming} {e e' : Declaration} {k k' : Nat}

theorem keepLong_both {t t' : Token} (h : n.Alike n') (ht : t.SameName t') :
    Both Alike (keepLong k n t).outcome (keepLong k' n' t').outcome := by
  simp only [keepLong, h.declared, ht.qualified, ht.1]
  split
  · exact .error _ _
  · dsimp only
    split
    · exact .ok (h.write _)
    · exact .ok (h.keep ht)

theorem fixShort_both {t t' u u' : Token} (h : n.Alike n') (ht : t.SameName t')
    (hu : u.lower = u'.lower) :
    Both Alike (fixShort k n t u).outcome (fixShort k' n' t' u').outcome := by
  simp only [fixShort, h.declared, ht.qualified, hu, h.isKept ht]
  -- a clash is found in every order or in none
  rcases Naming.find?_walked (p := fun e => e.1 == t'.qualified || e.2 == u'.lower) k k'
    n'.declared with ⟨hx, hx'⟩ | ⟨a, b, hx, hx'⟩
  · rw [hx, hx']
    dsimp only
    split
    · exact .error _ _
    · exact .ok (h.declare ht _)
  · rw [hx, hx']
    exact .error _ _

structure Alike (e e' : Declaration) : Prop where
  long : e.long.SameName e'.long
  short : Option.Rel (fun u u' => u.lower = u'.lower) e.short e'.short

theorem apply_both (h : n.Alike n') (he : e.Alike e') :
    Both Naming.Alike (e.apply k n).outcome (e'.apply k' n').outcome := by
  obtain ⟨long, short⟩ := e
  obtain ⟨long', short'⟩ := e'
  obtain ⟨hlong, hshort⟩ := he
  cases hshort with
  | none => exact keepLong_both h hlong
  | some hu => exact fixShort_both h hlong hu

end Declaration

/-- Whether two conversions have come to the same, but for what stands in the log. -/
structure Session.Alike (σ σ' : Session) : Prop where
  naming : σ.naming.Alike σ'.naming
  allowance : σ.allowance = σ'.allowance

theorem Session.Alike.trans {σ σ' σ'' : Session} (h : σ.Alike σ') (h' : σ'.Alike σ'') : σ.Alike σ'' :=
  ⟨h.naming.trans h'.naming, h.allowance.trans h'.allowance⟩

namespace Conversion

variable {α β γ δ : Type} {R : α → β → Prop} {S : γ → δ → Prop} {σ σ' : Session}

/-- Two courses of a conversion: both fail, or their results are related and they have come to the
same. -/
inductive Both (R : α → β → Prop) :
    EStateM.Result Failure Session α → EStateM.Result Failure Session β → Prop
  | error (e e' : Failure) (σ σ' : Session) : Both R (.error e σ) (.error e' σ')
  | ok {a : α} {b : β} {σ σ' : Session} (h : R a b) (hs : σ.Alike σ') : Both R (.ok a σ) (.ok b σ')

theorem Both.mono {R' : α → β → Prop} {x : EStateM.Result Failure Session α}
    {y : EStateM.Result Failure Session β} (h : Both R x y) (hR : ∀ a b, R a b → R' a b) : Both R' x y := by
  cases h with
  | error e e' σ σ' => exact .error e e' σ σ'
  | ok h hs => exact .ok (hR _ _ h) hs

/-- What follows results that are related is carried out on both sides. -/
theorem Both.bind_of_ok {x : Conversion α} {y : Conversion β} {f : α → Conversion γ}
    {g : β → Conversion δ} (h : Both R (x σ) (y σ'))
    (hf : ∀ a b τ τ', x σ = .ok a τ → R a b → τ.Alike τ' → Both S (f a τ) (g b τ')) :
    Both S ((x >>= f) σ) ((y >>= g) σ') := by
  change Both S (EStateM.bind x f σ) (EStateM.bind y g σ')
  unfold EStateM.bind
  generalize hx : x σ = r at h
  generalize y σ' = r' at h
  cases h with
  | error e e' τ τ' => exact .error e e' τ τ'
  | ok h hs => exact hf _ _ _ _ hx h hs

theorem Both.bind {x : Conversion α} {y : Conversion β} {f : α → Conversion γ}
    {g : β → Conversion δ} (h : Both R (x σ) (y σ'))
    (hf : ∀ a b τ τ', R a b → τ.Alike τ' → Both S (f a τ) (g b τ')) :
    Both S ((x >>= f) σ) ((y >>= g) σ') :=
  h.bind_of_ok fun a b τ τ' _ => hf a b τ τ'

theorem Both.ofExcept {x : Except Failure α} {y : Except Failure β} (h : Outcome.Both R x y)
    (hs : σ.Alike σ') : Both R (Conversion.ofExcept x σ) (Conversion.ofExcept y σ') := by
  cases h with
  | error e e' => exact .error e e' σ σ'
  | ok h => exact .ok h hs

theorem note_both {quiet quiet' : Bool} {r r' : Record} (hs : σ.Alike σ') :
    Both Eq (note quiet r σ) (note quiet' r' σ') := by
  refine .ok rfl ?_
  cases quiet <;> cases quiet' <;> exact ⟨hs.naming, hs.allowance⟩

theorem note_alike {quiet : Bool} {r : Record} {u : Unit} (h : note quiet r σ = .ok u σ') : σ.Alike σ' := by
  cases quiet <;> cases h <;> exact ⟨Naming.alike_refl _, rfl⟩

theorem warn_both {quiet quiet' : Bool} {w w' : List (Position × Cause)} (hs : σ.Alike σ') :
    Both Eq (warn quiet w σ) (warn quiet' w' σ') := by
  refine .ok rfl ?_
  cases quiet <;> cases quiet' <;> exact ⟨hs.naming, hs.allowance⟩

theorem checkpoint_both (hs : σ.Alike σ') : Both Eq (checkpoint σ) (checkpoint σ') := by
  unfold checkpoint
  rw [hs.allowance]
  split
  · exact .ok rfl hs
  · exact .error _ _ _ _
  · exact .ok rfl ⟨hs.naming, rfl⟩

theorem naming_both (hs : σ.Alike σ') : Both Naming.Alike (naming σ) (naming σ') :=
  .ok hs.naming hs

theorem setNaming_both {n n' : Naming} (hn : n.Alike n') (hs : σ.Alike σ') :
    Both Eq (setNaming n σ) (setNaming n' σ') :=
  .ok rfl ⟨hn, hs.allowance⟩

theorem advise_both {quiet quiet' : Bool} {a a' : Advised Naming}
    (ha : Outcome.Both Naming.Alike a.outcome a'.outcome) (hs : σ.Alike σ') :
    Both Eq (advise quiet a σ) (advise quiet' a' σ') := by
  apply (warn_both hs).bind
  intro _ _ τ τ' _ hτ
  apply (Both.ofExcept ha hτ).bind
  intro n n' υ υ' hn hυ
  exact setNaming_both hn hυ

theorem enter_both {quiet : Bool} {e e' : Declaration} (he : e.Alike e') (hs : σ.Alike σ') :
    Both Eq (enter quiet e σ) (enter quiet e' σ') := by
  rw [enter_eq, enter_eq]
  exact advise_both (Declaration.apply_both hs.naming he) ⟨hs.naming, hs.allowance⟩

end Conversion

section

variable {d : Dialect} {loose : Prop} {f : Char → Char} {R : Token → Token → Prop} {t t' : Token}
  {rest rest' : List Token} (hR : Ties d f R)

include hR

theorem Declaration.read_both (ht : R t t') (hr : Runs d loose R false rest rest') :
    Both (fun r r' => r.1.Alike r'.1 ∧ Runs d loose R false r.2 r'.2) (read d t rest)
      (read d t' rest') := by
  have hlong := hr.head ht
  by_cases hk : (rest.headD t).kind = .newline
  · obtain ⟨hends, hends'⟩ := (hR.like hlong).endsRow hk
    simp only [read, hends.returns.not_isIdentifier, hends'.returns.not_isIdentifier]
    exact .error _ _
  · have hlike := hR.like hlong
    have hident := Dialect.isIdentifier_like hR.fine (hlike.value hk)
    have hname := hlike.varName hR.fine hk
    have hreserved := d.isReserved_like hR.fine (hlike.value hk)
    have hafter := hr.behind hk
    have hnext := hafter.head hlong
    have hends : endsBefore (rest.tail.headD (rest.headD t)) =
        endsBefore (rest'.tail.headD (rest'.headD t')) := by
      rw [endsBefore, endsBefore, (hR.like hnext).value_beq hR.fine (by decide), hR.endsLine hnext]
    have hcolon := hR.sign hnext (w := ":") (by decide)
    simp only [read, hident, hname, hreserved, hends, ne_eq, hcolon]
    split
    · exact .error _ _
    · split
      · exact .error _ _
      · split
        · exact .error _ _
        · split
          · exact .ok ⟨⟨hlike.sameName hR.fine hk, .none⟩, hafter⟩
          · split
            · exact .error _ _
            · rename_i hv
              have hinline := hR.inline_sign hnext (hcolon.2 (not_not.1 hv)) (by decide)
              have hshort := (hafter.behind hinline).head hnext
              have hlike' := hR.like hshort
              by_cases hk' : (rest.tail.tail.headD (rest.tail.headD (rest.headD t))).kind = .newline
              · obtain ⟨hends, hends'⟩ := hlike'.endsRow hk'
                simp only [hends.returns.not_isShortName, hends'.returns.not_isShortName]
                exact .error _ _
              · simp only [Dialect.isShortName_like hR.fine (hlike'.value hk')]
                split
                · exact .error _ _
                · exact .ok ⟨⟨hlike.sameName hR.fine hk, .some (hlike'.lower hR.fine hk')⟩,
                    hafter.past hinline hk'⟩

omit hR in
theorem Conversion.declareLine_error {quiet : Bool} {e : Failure}
    (h : Declaration.read d t rest = .error e) : declareLine d quiet t rest = throw e := by
  rw [declareLine]
  split
  · rename_i h'
    rw [h] at h'
    cases h'
    rfl
  · rename_i h'
    rw [h] at h'
    cases h'

omit hR in
theorem Conversion.declareLine_ok {quiet : Bool} {entry : Declaration} {after : List Token}
    (h : Declaration.read d t rest = .ok (entry, after)) : declareLine d quiet t rest = (do
      enter quiet entry
      match hu : after with
      | [] => throw .exhausted
      | u :: left =>
        have hle : (u :: left).length ≤ rest.length := hu ▸ Declaration.length_read h
        if u.value = "," then do
          let ⟨final, hf⟩ ← declareLine d quiet u left
          return ⟨final, Nat.le_trans hf (Nat.le_trans (Nat.le_succ _) hle)⟩
        else if u.endsLine then
          return ⟨afterLineEnd (u :: left), Nat.le_trans (length_afterLineEnd _) hle⟩
        else throw (u.failure (.expecting ","))) := by
  rw [declareLine]
  split
  · rename_i h'
    rw [h] at h'
    cases h'
  · rename_i h'
    rw [h] at h'
    cases h'
    rfl

theorem Conversion.declareLine_both {quiet : Bool} {σ σ' : Session} (ht : R t t')
    (hr : Runs d loose R false rest rest') (hs : σ.Alike σ') :
    Conversion.Both (fun r r' => Runs d loose R true r.1 r'.1) (declareLine d quiet t rest σ)
      (declareLine d quiet t' rest' σ') := by
  obtain ⟨n, hn⟩ : ∃ n, rest.length = n := ⟨_, rfl⟩
  induction n using Nat.strong_induction_on generalizing t t' rest rest' σ σ' with
  | _ n ih =>
    rcases (Declaration.read_both hR ht hr).elim with ⟨e, e', hx, hx'⟩ |
      ⟨⟨entry, after⟩, ⟨entry', after'⟩, hx, hx', hentry, hafter⟩
    · rw [declareLine_error hx, declareLine_error hx']
      exact .error _ _ _ _
    · rw [declareLine_ok hx, declareLine_ok hx']
      apply (enter_both hentry hs).bind
      intro _ _ υ υ' _ hυ
      cases after with
      | nil =>
        cases hafter
        exact .error _ _ _ _
      | cons u left =>
        obtain ⟨u', left', rfl, hu, hmore⟩ := hafter.exists_of_cons
        have hcomma := hR.sign hu (w := ",") (by decide)
        simp only [hR.endsLine hu, hcomma]
        split
        · rename_i huv
          have hlt : left.length < n := by
            have := Declaration.length_read hx
            simp only [List.length_cons] at this
            omega
          have hleft := (hafter.tail (hR.inline_sign hu (hcomma.2 huv) (by decide))).2
          apply (ih _ hlt hu hleft hυ rfl).bind
          intro r r' φ φ' hr hφ
          exact .ok hr hφ
        · split
          · exact .ok (hR.afterLineEnd hafter) hυ
          · exact .error _ _ _ _

end

end ClassicBasic
