import ClassicBasic.Proofs.Rendering
import ClassicBasic.Proofs.ShortNames

/-!
# Orders of the declared names

A conversion walks the names declared so far in orders that are not fixed. Two runs of it in
different orders come to the same, except for the warnings about declared names and for which clash
is told: an entry of a DECLARE line that clashes with two of the names may be refused for either.
-/

set_option autoImplicit false

namespace ClassicBasic

/-! ### What may be told -/

namespace Failure

/-- Whether a failure tells that the entry `name:wanted` at `pos` clashes with one of the names
declared before it. -/
inductive Clashes (declared : List (Text × Text)) (pos : Position) (name wanted : Text) :
    Failure → Prop
  | long {key short : Text} (h : (key, short) ∈ declared) : Clashes declared pos name wanted
      (.located (.longRedeclared name wanted (Naming.unqualified key) short) pos)
  | short {key : Text} (h : (key, wanted) ∈ declared) : Clashes declared pos name wanted
      (.located (.shortRedeclared name wanted (Naming.unqualified key) wanted) pos)

/-- Whether two failures are the same, or each tells one of the clashes of the same entry. -/
inductive Akin : Failure → Failure → Prop
  | same (e : Failure) : Akin e e
  | clashes {e e' : Failure} {declared : List (Text × Text)} {pos : Position} {name wanted : Text}
      (h : Clashes declared pos name wanted e) (h' : Clashes declared pos name wanted e') : Akin e e'

variable {e e' : Failure}

theorem Akin.symm (h : Akin e e') : Akin e' e := by
  cases h with
  | same => exact .same e
  | clashes h h' => exact .clashes h' h

end Failure

namespace Outcome

/-- Two results that are the same, but for which clash of an entry they tell. -/
inductive Akin {α : Type} : Except Failure α → Except Failure α → Prop
  | error {e e' : Failure} (h : e.Akin e') : Akin (.error e) (.error e')
  | ok (a : α) : Akin (.ok a) (.ok a)

variable {α : Type} {x y : Except Failure α}

theorem Akin.refl (x : Except Failure α) : Akin x x := by
  cases x with
  | error e => exact .error (.same e)
  | ok a => exact .ok a

theorem Akin.symm (h : Akin x y) : Akin y x := by
  cases h with
  | error h => exact .error h.symm
  | ok a => exact .ok a

theorem Akin.eq_ok {a : α} (h : Akin (.ok a) y) : y = .ok a := by
  cases h
  rfl

theorem Akin.eq_canceled (h : Akin x (.error .canceled)) : x = .error .canceled := by
  cases h with
  | error h =>
    cases h with
    | same => rfl
    | clashes _ h => cases h

end Outcome

namespace Declaration

open Outcome (Akin)

variable {k k' : Nat} {n : Naming} {long short : Token} {g : Text × Text}

theorem keepLong_order : (keepLong k n long).outcome = (keepLong k' n long).outcome := by
  unfold keepLong
  dsimp only
  split <;> rfl

theorem fixShort_clashes (h : (Naming.walked k n.declared).find?
      (fun e => e.1 == long.qualified || e.2 == short.lower) = some g) :
    ∃ e, (fixShort k n long short).outcome = .error e ∧
      e.Clashes n.declared short.pos long.varName short.lower := by
  have hmem : g ∈ n.declared := Naming.mem_walked.1 (List.mem_of_find?_eq_some h)
  have hg := List.find?_some h
  simp only [fixShort, h]
  by_cases hkey : g.1 = long.qualified
  · rw [if_pos hkey]
    exact ⟨_, rfl, .long hmem⟩
  · have hwanted : g.2 = short.lower := by simpa [hkey] using hg
    rw [if_neg hkey, hwanted]
    exact ⟨_, rfl, .short (hwanted ▸ hmem)⟩

theorem fixShort_akin (k k' : Nat) (n : Naming) (long short : Token) :
    Akin (fixShort k n long short).outcome (fixShort k' n long short).outcome := by
  rcases Naming.find?_walked (p := fun e => e.1 == long.qualified || e.2 == short.lower) k k'
    n.declared with ⟨hx, hx'⟩ | ⟨g, g', hx, hx'⟩
  · have hsame : fixShort k n long short = fixShort k' n long short := by
      simp only [fixShort, hx, hx']
    rw [hsame]
    exact .refl _
  · obtain ⟨e, he, hclash⟩ := fixShort_clashes hx
    obtain ⟨e', he', hclash'⟩ := fixShort_clashes hx'
    rw [he, he']
    exact .error (.clashes hclash hclash')

/-- An entry is accepted in every order of the names or in none, and what is told if it is not is
one of its clashes. -/
theorem apply_akin (k k' : Nat) (n : Naming) (e : Declaration) :
    Akin (e.apply k n).outcome (e.apply k' n).outcome := by
  obtain ⟨long, short⟩ := e
  cases short with
  | none =>
    change Akin (keepLong k n long).outcome (keepLong k' n long).outcome
    rw [keepLong_order]
    exact .refl _
  | some short => exact fixShort_akin k k' n long short

/-- An entry that clashes with two names, in the two orders of them. -/
example (foo bar : Token) (hf : foo = { value := "foo" }) (hb : bar = { value := "bar" }) :
    let n : Naming := { declared := [(foo.qualified, "ab"), (bar.qualified, "cd")] }
    let told (k : Nat) := (apply k n { long := foo, short := some { value := "cd" } }).outcome
    told 0 = .error (.located (.longRedeclared "foo" "cd" "foo" "ab") {}) ∧
      told 1 = .error (.located (.shortRedeclared "foo" "cd" "bar" "cd") {}) := by
  subst hf hb
  decide

end Declaration

/-! ### Runs in different orders -/

/-- Whether two sessions have come to the same, but for their logs and the orders of the walks to
come. -/
structure Session.Level (σ σ' : Session) : Prop where
  naming : σ.naming = σ'.naming
  allowance : σ.allowance = σ'.allowance

namespace Conversion

variable {α β γ : Type} {R : α → β → Prop} {σ σ' : Session}

/-- Two courses of a conversion: failures that are akin, or related results in sessions that have
come to the same. -/
inductive Akin (R : α → β → Prop) :
    EStateM.Result Failure Session α → EStateM.Result Failure Session β → Prop
  | error {e e' : Failure} (h : e.Akin e') (σ σ' : Session) : Akin R (.error e σ) (.error e' σ')
  | ok {a : α} {b : β} {σ σ' : Session} (h : R a b) (hs : σ.Level σ') : Akin R (.ok a σ) (.ok b σ')

/-- Whether a conversion comes to the same in any orders of the names. -/
def Steady (x : Conversion α) : Prop := ∀ σ σ' : Session, σ.Level σ' → Akin Eq (x σ) (x σ')

/-- Whether a property holds of the steps in which nothing is asked, and of conversions made of
conversions that have it. -/
structure Stepwise (P : ∀ {α : Type}, Conversion α → Prop) : Prop where
  pure : ∀ {α : Type} (a : α), P (Pure.pure a : Conversion α)
  bind : ∀ {α β : Type} {x : Conversion α} {f : α → Conversion β}, P x → (∀ a, P (f a)) →
    P (x >>= f)
  ofExcept : ∀ {α : Type} (y : Except Failure α), P (ofExcept y)
  note : ∀ (quiet : Bool) (r : Record), P (note quiet r)
  warn : ∀ (quiet : Bool) (warnings : List (Position × Cause)), P (warn quiet warnings)
  naming : P naming
  setNaming : ∀ known : Naming, P (setNaming known)
  enter : ∀ (quiet : Bool) (e : Declaration), P (enter quiet e)

namespace Stepwise

variable {P : ∀ {α : Type}, Conversion α → Prop} (hP : Stepwise P) (d : Dialect) (quiet : Bool)

include hP

theorem throw (e : Failure) : P (throw e : Conversion α) := hP.ofExcept (.error e)

theorem advise (a : Advised Naming) : P (advise quiet a) :=
  hP.bind (hP.warn quiet _) fun _ => hP.bind (hP.ofExcept _) hP.setNaming

theorem declareLine (t : Token) (rest : List Token) : P (declareLine d quiet t rest) := by
  fun_induction Conversion.declareLine d quiet t rest with
  | case1 => exact hP.throw _
  | case2 t rest entry after h ih =>
    refine hP.bind (hP.enter quiet entry) fun _ => ?_
    split
    · exact hP.throw _
    · split
      · exact hP.bind (ih _ _ rfl) fun left => hP.pure _
      · split
        · exact hP.pure _
        · exact hP.throw _

theorem run (tables : Tables) (out input : List Token) : P (Directive.run d quiet tables out input) := by
  fun_induction Directive.run d quiet tables out input with
  | case1 => exact hP.throw _
  | case2 => exact hP.pure _
  | case3 tables out t rest _ _ ih =>
    exact hP.bind (hP.declareLine d quiet t rest) fun left => ih left.1 left.2
  | case4 => exact hP.throw _
  | case5 tables out t rest _ _ p _ ih => exact ih

theorem carryOut (lexed : List Token) : P (Directive.carryOut d quiet lexed) := by
  unfold Directive.carryOut
  split
  · exact hP.run d quiet _ _ _
  · exact hP.throw _

theorem meetVariable (t : Token) (out : List Token) : P (Merge.meetVariable quiet t out) := by
  refine hP.bind hP.naming fun known => ?_
  split
  · split <;> exact hP.bind (hP.advise quiet _) fun _ => hP.pure _
  · exact hP.bind (hP.advise quiet _) fun _ => hP.pure _

theorem shorten (t : Token) : P (Numbering.shorten d t) :=
  hP.bind hP.naming fun _ => hP.bind (hP.ofExcept _) fun _ =>
    hP.bind (hP.setNaming _) fun _ => hP.pure _

theorem walk (scale : Numbering.Scale) (s : Numbering.State) (input : List Token) :
    P (Numbering.walk d scale s input) := by
  induction input generalizing s with
  | nil => exact hP.throw _
  | cons t rest ih =>
    rw [Numbering.walk]
    split
    · exact hP.pure _
    · split
      · exact hP.bind (hP.shorten d t) fun _ => ih _
      · exact hP.bind (hP.ofExcept _) fun _ => ih _

theorem number (scale : Numbering.Scale) (tokens : List Token) :
    P (Numbering.number d scale tokens) := by
  unfold Numbering.number
  split
  · exact hP.throw _
  · exact hP.bind (hP.walk d scale _ _) fun _ => hP.bind (hP.ofExcept _) fun _ => hP.pure _

end Stepwise

theorem Steady.bind {x : Conversion α} {f : α → Conversion β} (hx : Steady x)
    (hf : ∀ a, Steady (f a)) : Steady (x >>= f) := by
  intro σ σ' hs
  change Akin Eq (EStateM.bind x f σ) (EStateM.bind x f σ')
  unfold EStateM.bind
  have h := hx σ σ' hs
  generalize x σ = r at h
  generalize x σ' = r' at h
  cases h with
  | error h τ τ' => exact .error h τ τ'
  | ok h hτ =>
    subst h
    exact hf _ _ _ hτ

theorem steady_advise {quiet : Bool} {a a' : Advised Naming} (h : Outcome.Akin a.outcome a'.outcome)
    (hs : σ.Level σ') : Akin Eq (advise quiet a σ) (advise quiet a' σ') := by
  obtain ⟨warnings, outcome⟩ := a
  obtain ⟨warnings', outcome'⟩ := a'
  cases h with
  | error h => exact .error h _ _
  | ok n =>
    refine .ok rfl ⟨rfl, ?_⟩
    cases quiet <;> exact hs.allowance

theorem steady_steps : Stepwise @Steady where
  pure _ _ _ hs := .ok rfl hs
  bind := Steady.bind
  ofExcept y _ _ hs := by
    cases y with
    | ok a => exact .ok rfl hs
    | error e => exact .error (.same e) _ _
  note quiet r σ σ' hs := by
    refine .ok rfl ?_
    cases quiet <;> exact ⟨hs.naming, hs.allowance⟩
  warn quiet warnings σ σ' hs := by
    refine .ok rfl ?_
    cases quiet <;> exact ⟨hs.naming, hs.allowance⟩
  naming _ _ hs := .ok hs.naming hs
  setNaming _ _ _ hs := .ok rfl ⟨rfl, hs.allowance⟩
  enter quiet e σ σ' hs := by
    rw [enter_eq, enter_eq, hs.naming]
    exact steady_advise (e.apply_akin _ _ _) ⟨rfl, hs.allowance⟩

theorem steady_checkpoint : Steady checkpoint := by
  intro σ σ' hs
  unfold checkpoint
  rw [← hs.allowance]
  split
  · exact .ok rfl hs
  · exact .error (.same _) _ _
  · exact .ok rfl ⟨hs.naming, rfl⟩

end Conversion

open Conversion (Steady steady_steps steady_checkpoint)

theorem Merge.steady_merge {d : Dialect} {quiet : Bool}
    {splice : Token → Token → Conversion (List Token)} (hs : ∀ t name, Steady (splice t name))
    (tokens : List Token) : Steady (merge d quiet splice tokens) := by
  have steady_run (total : Nat) (out input : List Token) :
      Steady (run d quiet splice total out input) := by
    fun_induction run d quiet splice total out input with
    | case1 => exact steady_steps.throw _
    | case2 => exact steady_steps.pure _
    | case3 out t rest _ _ ih => exact (hs t (rest.headD t)).bind fun body => ih body
    | case4 out t rest _ _ _ ih => exact ih
    | case5 out t rest he hd hb _ hi =>
      rename_i ih
      exact (steady_steps.meetVariable quiet t out).bind fun met => ih met
    | case6 out t rest he hd hb _ hi =>
      rename_i ih
      exact ih out
  cases tokens with
  | nil => exact steady_steps.throw _
  | cons start rest => exact steady_run _ _ _

namespace Branch

variable {s : Setting} {b : Branch}

theorem steady_front (b : Branch) (lexed : List Token) : Steady (front s b lexed) :=
  steady_checkpoint.bind fun _ => (steady_steps.note _ _).bind fun _ =>
    (steady_steps.carryOut _ _ _).bind fun _ => steady_checkpoint.bind fun _ =>
      (steady_steps.note _ _).bind fun _ => (steady_steps.ofExcept _).bind fun _ =>
        (steady_steps.note _ _).bind fun _ => steady_steps.pure _

theorem steady_splice {inner : Branch → List Token → Conversion (List Token)}
    (hi : ∀ within lexed, Steady (inner within lexed)) (directive name : Token) :
    Steady (splice s b inner directive name) :=
  steady_checkpoint.bind fun _ => (steady_steps.ofExcept _).bind fun _ =>
    (steady_steps.note _ _).bind fun _ => (steady_steps.ofExcept _).bind fun _ =>
      (hi _ _).bind fun _ => steady_steps.pure _

theorem steady_convert (depth : Nat) (b : Branch) (lexed : List Token) :
    Steady (convert s depth b lexed) := by
  induction depth generalizing b lexed with
  | zero =>
    rw [convert_eq]
    exact (steady_front b lexed).bind
      (Merge.steady_merge (steady_splice fun _ _ => steady_steps.throw _))
  | succ depth ih =>
    rw [convert_eq]
    exact (steady_front b lexed).bind (Merge.steady_merge (steady_splice ih))

end Branch

namespace Compile

variable (s : Setting) (o : Options) (listing : Listing)

theorem steady_staged : Steady (staged s o listing) :=
  (steady_steps.note _ _).bind fun _ => (steady_steps.ofExcept _).bind fun _ =>
    (steady_steps.note _ _).bind fun _ => (steady_steps.note _ _).bind fun _ =>
      (Branch.steady_convert _ _ _).bind fun _ => steady_checkpoint.bind fun _ =>
        (steady_steps.note _ _).bind fun _ => (steady_steps.number _ _ _).bind fun _ =>
          (steady_steps.note _ _).bind fun _ => (steady_steps.ofExcept _).bind fun _ =>
            (steady_steps.note _ _).bind fun _ => (steady_steps.note _ _).bind fun _ =>
              steady_steps.pure _

/-- What a compilation comes to depends on the orders of the names only in which clash of an entry
it tells. -/
theorem steady_ofListing : Steady (ofListing s o listing) := by
  rw [ofListing_eq]
  exact (steady_staged s o listing).bind fun _ => (steady_steps.ofExcept _).bind fun _ =>
    (steady_steps.note _ _).bind fun _ => (steady_steps.note _ _).bind fun _ =>
      steady_steps.pure _

end Compile

end ClassicBasic
