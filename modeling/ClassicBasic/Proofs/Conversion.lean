import ClassicBasic.Program.Compile
import Mathlib.Data.List.Forall2

/-!
# Conversions that succeed

How a successful conversion is taken apart into its steps, and what each step leaves of the names.
Only declarations, variables met and variables shortened change the names; notes in the log and
checks whether to go on do not.
-/

set_option autoImplicit false

namespace ClassicBasic

namespace Outcome

theorem forall₂_of_mapM {ε α β : Type} {f : α → Except ε β} {l : List α} {r : List β}
    (h : l.mapM f = .ok r) : List.Forall₂ (fun a b => f a = .ok b) l r := by
  induction l generalizing r with
  | nil =>
    cases h
    exact .nil
  | cons a l ih =>
    rw [List.mapM_cons] at h
    obtain ⟨b, hb, h⟩ := bind_eq_ok_iff.1 h
    obtain ⟨more, hm, h⟩ := bind_eq_ok_iff.1 h
    cases h
    exact .cons hb (ih hm)

theorem exists_of_forall₂ {α β : Type} {R : α → β → Prop} {l : List α} {r : List β} {b : β}
    (h : List.Forall₂ R l r) (hb : b ∈ r) : ∃ a ∈ l, R a b := by
  induction h with
  | nil => cases hb
  | cons hab _ ih =>
    rcases List.mem_cons.1 hb with rfl | hb
    · exact ⟨_, List.mem_cons_self, hab⟩
    · obtain ⟨a, ha, hR⟩ := ih hb
      exact ⟨a, List.mem_cons_of_mem _ ha, hR⟩

end Outcome

namespace Conversion

variable {α β : Type} {σ τ : Session}

theorem bind_eq_ok_iff {x : Conversion α} {f : α → Conversion β} {b : β} :
    (x >>= f) σ = .ok b τ ↔ ∃ a ρ, x σ = .ok a ρ ∧ f a ρ = .ok b τ := by
  change EStateM.bind x f σ = .ok b τ ↔ _
  unfold EStateM.bind
  cases x σ with
  | ok a ρ => exact ⟨fun h => ⟨a, ρ, rfl, h⟩, by rintro ⟨_, _, ⟨⟩, h⟩; exact h⟩
  | error e ρ => simp

theorem pure_eq_ok_iff {a b : α} : (pure a : Conversion α) σ = .ok b τ ↔ a = b ∧ σ = τ := by
  change EStateM.Result.ok a σ = .ok b τ ↔ _
  simp

theorem throw_ne_ok {e : Failure} {b : α} : (throw e : Conversion α) σ ≠ .ok b τ := by
  intro h
  cases h

theorem ofExcept_eq_ok_iff {x : Except Failure α} {a : α} :
    ofExcept x σ = .ok a τ ↔ x = .ok a ∧ σ = τ := by
  unfold ofExcept
  cases x <;> simp

theorem naming_note {quiet : Bool} {r : Record} {u : Unit} (h : note quiet r σ = .ok u τ) :
    τ.naming = σ.naming := by
  cases h
  split <;> rfl

theorem naming_checkpoint {u : Unit} (h : checkpoint σ = .ok u τ) : τ.naming = σ.naming := by
  unfold checkpoint at h
  split at h <;> cases h <;> rfl

theorem naming_eq_ok_iff {n : Naming} : naming σ = .ok n τ ↔ σ.naming = n ∧ σ = τ := by
  unfold naming
  simp

theorem setNaming_eq_ok_iff {n : Naming} {u : Unit} :
    setNaming n σ = .ok u τ ↔ τ = { σ with naming := n } := by
  unfold setNaming
  simp [eq_comm]

theorem outcome_advise {quiet : Bool} {a : Advised Naming} {u : Unit}
    (h : advise quiet a σ = .ok u τ) : a.outcome = .ok τ.naming := by
  unfold advise at h
  obtain ⟨_, ρ, -, h⟩ := bind_eq_ok_iff.1 h
  obtain ⟨n, ρ', hn, h⟩ := bind_eq_ok_iff.1 h
  rw [setNaming_eq_ok_iff.1 h]
  exact (ofExcept_eq_ok_iff.1 hn).1

theorem enter_eq (quiet : Bool) (e : Declaration) (σ : Session) : enter quiet e σ =
    advise quiet (e.apply (σ.orders.headD 0) σ.naming) { σ with orders := σ.orders.tail } :=
  rfl

theorem outcome_enter {quiet : Bool} {e : Declaration} {u : Unit}
    (h : enter quiet e σ = .ok u τ) : ∃ k, (e.apply k σ.naming).outcome = .ok τ.naming :=
  ⟨_, outcome_advise (enter_eq quiet e σ ▸ h)⟩

end Conversion

end ClassicBasic
