import ClassicBasic.Proofs.Renaming
import ClassicBasic.Proofs.Stages

/-!
# Which short names are given

A short name is declared, in small letters, or comes from the stock. What holds of all such names holds
of the names known to a conversion at any time, when it holds of those known at its start.
-/

set_option autoImplicit false

namespace ClassicBasic

variable {P : Text → Prop} {d : Dialect} {t u : Token} {n m : Naming} {quiet : Bool} {σ τ : Session}

namespace Naming

def Listed (P : Text → Prop) (n : Naming) : Prop := ∀ e ∈ n.declared, P e.2

structure Common (P : Text → Prop) : Prop where
  declared : ∀ v, Dialect.isShortName v = true → P (Text.lower v)
  stock : ∀ slot v, Dialect.shortName? slot = some v → P v

theorem listed_empty : Listed P {} := by simp [Listed]

theorem Listed.of_lookup {v : Text} (h : n.Listed P) (hv : n.shortOf? t = some v) : P v := by
  obtain ⟨l₁, l₂, heq, -⟩ := List.lookup_eq_some_iff.1 hv
  exact h (t.qualified, v) (by simp [heq])

theorem Listed.declare {v : Text} (h : n.Listed P) (hv : P v) : (n.declare t v).Listed P := by
  intro e he
  rcases List.mem_append.1 he with he | he
  · exact h e he
  · rw [List.mem_singleton.1 he]
    exact hv

theorem Listed.write {name : Text} (h : n.Listed P) : (n.write name).Listed P := by
  unfold Naming.write
  split
  · exact h
  · exact h

theorem Listed.keep (h : n.Listed P) : (n.keep t).Listed P := by
  unfold Naming.keep
  split
  · exact h
  · exact h

theorem meet_listed (h : (n.meet t).outcome = .ok m) (hn : n.Listed P) : m.Listed P := by
  unfold meet at h
  dsimp only at h
  split at h
  · cases h
    exact hn
  · split at h
    · cases h
      exact hn.write
    · cases h
      exact hn

theorem keepWritten_listed (h : (n.keepWritten t).outcome = .ok m) (hn : n.Listed P) :
    m.Listed P := by
  unfold keepWritten at h
  dsimp only at h
  split at h
  · cases h
  · split at h
    · cases h
    · cases h
      exact hn.keep

theorem lastFree_common (hP : Common P) {slot next : Nat} {v : Text}
    (h : lastFree d n slot = some (v, next)) : P v := by
  induction slot with
  | zero => cases h
  | succ slot ih =>
    simp only [lastFree] at h
    split at h
    · exact ih h
    · rename_i hs
      split at h
      · exact ih h
      · cases h
        exact hP.stock _ _ hs

/-- A variable stays as it is or gets a short name of the given sort. -/
theorem shorten_listed (hP : Common P) (h : n.shorten d t = .ok (u, m)) (hn : n.Listed P) :
    m.Listed P ∧ (u = t ∨ ∃ v, P v ∧ u = t.withValue (v ++ t.sigil)) := by
  unfold shorten at h
  split at h
  · cases h
    exact ⟨hn, .inl rfl⟩
  · obtain ⟨⟨v, known⟩, ha, he⟩ := Outcome.map_eq_ok_iff.1 h
    cases he
    rcases allocate_cases ha with ⟨hs, rfl⟩ | ⟨-, slot, hs, rfl⟩
    · exact ⟨hn, .inr ⟨v, hn.of_lookup hs, rfl⟩⟩
    · have hv := lastFree_common hP hs
      exact ⟨hn.declare hv, .inr ⟨v, hv, rfl⟩⟩

end Naming

open Naming (Common)

theorem Declaration.apply_listed {e : Declaration} {k : Nat} (hP : Common P)
    (h : (e.apply k n).outcome = .ok m) (he : e.Valid) (hn : n.Listed P) : m.Listed P := by
  rcases apply_cases h with rfl | ⟨-, rfl⟩ | ⟨short, hs, rfl, -⟩
  · exact hn.write
  · exact hn.keep
  · exact hn.declare (hP.declared _ (he.short short hs))

theorem Conversion.declareLine_listed {t : Token} {rest : List Token}
    {r : { left : List Token // left.length ≤ rest.length }} (hP : Common P)
    (h : declareLine d quiet t rest σ = .ok r τ) (hn : σ.naming.Listed P) : τ.naming.Listed P := by
  fun_induction declareLine d quiet t rest generalizing σ with
  | case1 => exact absurd h throw_ne_ok
  | case2 t rest entry after hr ih =>
    obtain ⟨u, ρ, ha, h⟩ := bind_eq_ok_iff.1 h
    obtain ⟨k, hk⟩ := outcome_enter ha
    have hentry := Declaration.apply_listed hP hk (Declaration.read_valid hr) hn
    split at h
    · exact absurd h throw_ne_ok
    · rename_i u left _
      split at h
      · obtain ⟨f, ρ'', hline, h⟩ := bind_eq_ok_iff.1 h
        obtain ⟨-, rfl⟩ := pure_eq_ok_iff.1 h
        exact ih u left rfl hline hentry
      · split at h
        · obtain ⟨-, rfl⟩ := pure_eq_ok_iff.1 h
          exact hentry
        · exact absurd h throw_ne_ok

theorem Directive.carryOut_listed {lexed : List Token} {r : Tables × List Token} (hP : Common P)
    (h : carryOut d quiet lexed σ = .ok r τ) (hn : σ.naming.Listed P) : τ.naming.Listed P := by
  obtain ⟨start, newline, rest, final, last, left, rfl, hr, -, -⟩ := reaches_of_carryOut h
  have walked {p q : Point} (h : Reaches d quiet p q) (hp : p.session.naming.Listed P) :
      q.session.naming.Listed P := by
    induction h with
    | refl => exact hp
    | tail _ hstep ih =>
      cases hstep with
      | declared _ hd => exact Conversion.declareLine_listed hP hd ih
      | read => exact ih
  exact walked hr hn

namespace Merge

variable {splice : Token → Token → Conversion (List Token)} {total : Nat} {p q : Point}

theorem reaches_listed (h : Reaches d quiet splice total p q)
    (hs : ∀ t name σ body τ, splice t name σ = .ok body τ →
      σ.naming.Listed P → τ.naming.Listed P)
    (hp : p.session.naming.Listed P) : q.session.naming.Listed P := by
  induction h with
  | refl => exact hp
  | tail _ hstep ih =>
    cases hstep with
    | included _ _ hb => exact hs _ _ _ _ _ hb ih
    | block => exact ih
    | named _ hm =>
      rcases meetVariable_cases hm with ⟨last, -, -, ha⟩ | ⟨-, ha⟩
      · exact Naming.keepWritten_listed ha ih
      · exact Naming.meet_listed ha ih
    | token => exact ih

end Merge

open Branch in
/-- Reading the files of a program gives short names of the given sort only. -/
theorem Branch.convert_listed {s : Setting} {depth : Nat} {b : Branch} {listing : Listing}
    {lexed merged : List Token} (hP : Common P) (hx : Lexer.lex s.dialect listing = .ok lexed)
    (h : convert s depth b lexed σ = .ok merged τ) : σ.naming.Listed P → τ.naming.Listed P := by
  refine convert_induct (P := fun _ _ _ σ τ => σ.naming.Listed P → τ.naming.Listed P) ?_ hx h
  intro depth b listing lexed placed merged σ ready τ hx hf hm hs hn
  obtain ⟨_, _, _, _, _, _, rfl, -, -, hr, -, rfl⟩ := Merge.reaches_of_merge (front_sound hx hf) hm
  obtain ⟨tables, carried, before, after, hd, -, hbefore, hafter⟩ := front_cases hf
  refine Merge.reaches_listed hr (fun t name σ spliced τ hspliced hσ => ?_) ?_
  · obtain ⟨_, _, _, ready, hinner, -, hready⟩ := hs _ _ _ _ _ hspliced
    exact hinner (hready ▸ hσ)
  · rw [hafter]
    exact Directive.carryOut_listed hP hd (hbefore ▸ hn)

namespace Numbering

variable {scale : Scale} {s last : State}

theorem walk_listed {input : List Token} (hP : Common P) (h : walk d scale s input σ = .ok last τ)
    (hn : σ.naming.Listed P) : τ.naming.Listed P := by
  induction input generalizing s σ with
  | nil => exact absurd h Conversion.throw_ne_ok
  | cons t rest ih =>
    rcases walk_cases h with ⟨-, -, rfl⟩ | ⟨-, u, known, hu, hw⟩ | ⟨-, -, s', -, hw⟩
    · exact hn
    · exact ih hw (Naming.shorten_listed hP hu hn).1
    · exact ih hw hn

theorem number_listed {start : Token} {rest : List Token} {numbered : Numbered} (hP : Common P)
    (h : number d scale (start :: rest) σ = .ok numbered τ) (hn : σ.naming.Listed P) :
    τ.naming.Listed P := by
  obtain ⟨last, hw, -, -⟩ := number_cases h
  exact walk_listed hP hw hn

end Numbering

end ClassicBasic
