import ClassicBasic.Proofs.Orders
import ClassicBasic.Proofs.Visit

/-!
# Conversions that are called off

How often a conversion is asked whether it should go on, and what it comes to when it may be asked only
so often: either what it comes to without a limit, or nothing. Only checkpoints ask. A file that is
converted is asked twice and each directive that includes a file once more in front of that file.
-/

set_option autoImplicit false

namespace ClassicBasic

/-- The session of a conversion that may be asked `n` times. -/
def Session.allowing (σ : Session) (n : Nat) : Session := { σ with allowance := some n }

/-- The session of a conversion that walks the declared names in the given orders. -/
def Session.walking (σ : Session) (orders : List Nat) : Session := { σ with orders }

namespace Conversion

variable {α β : Type}

def granted (n : Nat) : EStateM.Result Failure Session α → EStateM.Result Failure Session α
  | .ok a τ => .ok a (τ.allowing n)
  | .error e τ => .error e (τ.allowing n)

/-- Whether a conversion without a limit is asked `k` times: with fewer checks it is called off, and
with as many or more it comes to the same. -/
structure Asked (x : Conversion α) (σ : Session) (k : Nat) : Prop where
  short : ∀ n < k, ∃ τ, x (σ.allowing n) = .error .canceled τ
  enough : ∀ n, x (σ.allowing (k + n)) = granted n (x σ)
  free : ∀ a τ, x σ = .ok a τ → τ.allowance = none

/-- Whether `Q` holds of what a conversion without a limit comes to and how often it was asked. -/
def Patient (Q : α → Session → Nat → Prop) (x : Conversion α) (σ : Session) : Prop :=
  ∃ k, Asked x σ k ∧ ∀ a τ, x σ = .ok a τ → Q a τ k

def Unasked (x : Conversion α) : Prop := ∀ σ : Session, σ.allowance = none → Asked x σ 0

variable {x : Conversion α} {f : α → Conversion β} {σ ρ τ : Session} {a : α} {k j : Nat}
  {P : α → Session → Nat → Prop} {Q : β → Session → Nat → Prop}

theorem bind_of_ok (h : x σ = .ok a ρ) : (x >>= f) σ = f a ρ := by
  change EStateM.bind x f σ = _
  rw [EStateM.bind, h]

theorem bind_of_error {e : Failure} (h : x σ = .error e ρ) : (x >>= f) σ = .error e ρ := by
  change EStateM.bind x f σ = _
  rw [EStateM.bind, h]

theorem Asked.bind_ok (hx : Asked x σ k) (ha : x σ = .ok a ρ) (hf : Asked (f a) ρ j) :
    Asked (x >>= f) σ (k + j) := by
  have through (n : Nat) : (x >>= f) (σ.allowing (k + n)) = f a (ρ.allowing n) := by
    refine bind_of_ok ?_
    rw [hx.enough, ha]
    rfl
  refine ⟨fun n hn => ?_, fun n => ?_, fun b τ hb => ?_⟩
  · rcases Nat.lt_or_ge n k with hlt | hge
    · obtain ⟨τ, hτ⟩ := hx.short n hlt
      exact ⟨τ, bind_of_error hτ⟩
    · obtain ⟨m, rfl⟩ := Nat.exists_eq_add_of_le hge
      rw [through]
      exact hf.short m (by omega)
  · rw [Nat.add_assoc, through, hf.enough, bind_of_ok ha]
  · rw [bind_of_ok ha] at hb
    exact hf.free b τ hb

theorem Asked.bind_error {e : Failure} (hx : Asked x σ k) (he : x σ = .error e ρ) :
    Asked (x >>= f) σ k := by
  refine ⟨fun n hn => ?_, fun n => ?_, fun b τ hb => ?_⟩
  · obtain ⟨τ, hτ⟩ := hx.short n hn
    exact ⟨τ, bind_of_error hτ⟩
  · rw [bind_of_error he]
    refine bind_of_error ?_
    rw [hx.enough, he]
    rfl
  · rw [bind_of_error he] at hb
    cases hb

theorem Patient.bind (hx : Patient P x σ)
    (hf : ∀ a ρ k, x σ = .ok a ρ → ρ.allowance = none → P a ρ k →
      Patient (fun b τ j => Q b τ (k + j)) (f a) ρ) : Patient Q (x >>= f) σ := by
  obtain ⟨k, hk, hp⟩ := hx
  cases h : x σ with
  | error e ρ =>
    refine ⟨k, hk.bind_error h, fun b τ hb => ?_⟩
    rw [bind_of_error h] at hb
    cases hb
  | ok a ρ =>
    obtain ⟨j, hj, hq⟩ := hf a ρ k h (hk.free a ρ h) (hp a ρ h)
    refine ⟨k + j, hk.bind_ok h hj, fun b τ hb => ?_⟩
    rw [bind_of_ok h] at hb
    exact hq b τ hb

theorem Unasked.patient (hx : Unasked x) (hσ : σ.allowance = none) :
    Patient (fun _ _ k => k = 0) x σ := ⟨0, hx σ hσ, fun _ _ _ => rfl⟩

/-- Behind a conversion that is not asked, another one is asked as often as alone. -/
theorem Patient.behind (hx : Unasked x) (hσ : σ.allowance = none)
    (hf : ∀ a ρ, x σ = .ok a ρ → ρ.allowance = none → Patient Q (f a) ρ) :
    Patient Q (x >>= f) σ := by
  refine (hx.patient hσ).bind fun a ρ k ha hρ hk => ?_
  subst hk
  simpa only [Nat.zero_add] using hf a ρ ha hρ

theorem Unasked.bind (hx : Unasked x) (hf : ∀ a, Unasked (f a)) : Unasked (x >>= f) := by
  intro σ hσ
  have hx := hx σ hσ
  cases h : x σ with
  | error e ρ => exact hx.bind_error h
  | ok a ρ => exact hx.bind_ok h (hf a ρ (hx.free a ρ h))

theorem unasked_of_granted (h : ∀ (σ : Session) (n : Nat), x (σ.allowing n) = granted n (x σ))
    (hfree : ∀ (σ : Session) (a : α) (τ : Session), x σ = .ok a τ → τ.allowance = σ.allowance) :
    Unasked x := fun σ hσ =>
  ⟨fun n hn => absurd hn (Nat.not_lt_zero n), fun n => by rw [Nat.zero_add]; exact h σ n,
    fun a τ ha => (hfree σ a τ ha).trans hσ⟩

theorem unasked_steps : Stepwise @Unasked where
  pure a := unasked_of_granted (fun _ _ => rfl) (by rintro σ _ _ ⟨⟩; rfl)
  bind := Unasked.bind
  ofExcept y := by
    cases y with
    | ok a => exact unasked_of_granted (fun _ _ => rfl) (by rintro σ _ _ ⟨⟩; rfl)
    | error e => exact unasked_of_granted (fun _ _ => rfl) (by rintro σ _ _ ⟨⟩)
  note quiet r := by
    cases quiet <;> exact unasked_of_granted (fun _ _ => rfl) (by rintro σ _ _ ⟨⟩; rfl)
  warn quiet warnings := by
    cases quiet <;> exact unasked_of_granted (fun _ _ => rfl) (by rintro σ _ _ ⟨⟩; rfl)
  naming := unasked_of_granted (fun _ _ => rfl) (by rintro σ _ _ ⟨⟩; rfl)
  setNaming known := unasked_of_granted (fun _ _ => rfl) (by rintro σ _ _ ⟨⟩; rfl)
  enter quiet e := by
    refine unasked_of_granted (fun σ n => ?_) fun σ u τ h => ?_
    · change advise quiet (e.apply (σ.orders.headD 0) σ.naming)
        (Session.allowing { σ with orders := σ.orders.tail } n) = _
      rw [enter_eq]
      obtain ⟨warnings, _ | known⟩ := e.apply (σ.orders.headD 0) σ.naming <;> cases quiet <;> rfl
    · rw [enter_eq] at h
      generalize e.apply (σ.orders.headD 0) σ.naming = a at h
      obtain ⟨warnings, _ | known⟩ := a <;> cases quiet <;> cases h <;> rfl

theorem patient_checkpoint (hσ : σ.allowance = none) :
    Patient (fun _ _ k => k = 1) checkpoint σ := by
  have h : checkpoint σ = .ok () σ := by rw [checkpoint, hσ]
  refine ⟨1, ⟨fun n hn => ?_, fun n => ?_, ?_⟩, fun _ _ _ => rfl⟩
  · obtain rfl : n = 0 := by omega
    exact ⟨_, rfl⟩
  · rw [h, Nat.add_comm]
    rfl
  · rw [h]
    rintro _ _ ⟨⟩
    exact hσ

end Conversion

open Conversion

namespace Merge

variable {d : Dialect} {quiet : Bool} {splice : Token → Token → Conversion (List Token)} {total : Nat}

/-- How many directives to include a file the third stage carries out from a point on: each of them,
and those below it as `inside` counts them. -/
inductive Counts (d : Dialect) (quiet : Bool) (splice : Token → Token → Conversion (List Token))
    (inside : Token → Token → Session → Nat → Prop) (total : Nat) : Point → Nat → Prop
  | done {σ : Session} {out rest : List Token} {t : Token} (ht : t.kind = .eof) :
      Counts d quiet splice inside total ⟨σ, out, t :: rest⟩ 0
  | included {σ : Session} {out rest : List Token} {t : Token} {q : Point} {k n : Nat}
      (hk : t.kind = .directive) (hi : t.is "INCLUDE")
      (hs : Step d quiet splice total ⟨σ, out, t :: rest⟩ q) (hc : inside t (rest.headD t) σ k)
      (more : Counts d quiet splice inside total q n) :
      Counts d quiet splice inside total ⟨σ, out, t :: rest⟩ (1 + k + n)
  | other {σ : Session} {out rest : List Token} {t : Token} {q : Point} {n : Nat}
      (hn : ¬(t.kind = .directive ∧ t.is "INCLUDE"))
      (hs : Step d quiet splice total ⟨σ, out, t :: rest⟩ q)
      (more : Counts d quiet splice inside total q n) :
      Counts d quiet splice inside total ⟨σ, out, t :: rest⟩ n

/-- The third stage is asked three times for each directive that it carries out, when that is so of
the files that are spliced in. -/
theorem patient_run {inside : Token → Token → Session → Nat → Prop}
    (hs : ∀ t name σ, σ.allowance = none →
      Patient (fun _ _ k => ∃ n, inside t name σ n ∧ k = 3 * (1 + n)) (splice t name) σ)
    (out input : List Token) {σ : Session} (hσ : σ.allowance = none) :
    Patient (fun _ _ k => ∃ n, Counts d quiet splice inside total ⟨σ, out, input⟩ n ∧ k = 3 * n)
      (run d quiet splice total out input) σ := by
  fun_induction run d quiet splice total out input generalizing σ with
  | case1 => exact ⟨0, unasked_steps.throw _ σ hσ, fun _ _ h => absurd h throw_ne_ok⟩
  | case2 out t rest ht => exact ⟨0, unasked_steps.pure _ σ hσ, fun _ _ _ => ⟨0, .done ht, rfl⟩⟩
  | case3 out t rest _ hd ih =>
    refine (hs t (rest.headD t) σ hσ).bind ?_
    rintro body ρ k hb hρ ⟨n, hn, hk⟩
    obtain ⟨j, hj, hq⟩ := ih body hρ
    refine ⟨j, hj, fun merged τ hm => ?_⟩
    obtain ⟨m, hcounts, rfl⟩ := hq merged τ hm
    refine ⟨1 + n + m, .included hd.1 hd.2 (.included hd.1 hd.2 hb) hn hcounts, ?_⟩
    omega
  | case4 out t rest _ hd hb ih =>
    obtain ⟨k, hk, hq⟩ := ih hσ
    refine ⟨k, hk, fun merged τ hm => ?_⟩
    obtain ⟨n, hcounts, rfl⟩ := hq merged τ hm
    exact ⟨n, .other hd (.block hb) hcounts, rfl⟩
  | case5 out t rest he hd hb _ hi =>
    rename_i ih
    refine Patient.behind (unasked_steps.meetVariable quiet t out) hσ fun met ρ hm hρ => ?_
    obtain ⟨k, hk, hq⟩ := ih met hρ
    have hadd (p : Place) : add p t met = t :: met := by simp [add, hi]
    refine ⟨k, hk, fun merged τ h => ?_⟩
    obtain ⟨n, hcounts, rfl⟩ := hq merged τ h
    rw [hadd] at hcounts
    exact ⟨n, .other hd (.named hi hm) hcounts, rfl⟩
  | case6 out t rest he hd hb _ hi =>
    rename_i ih
    obtain ⟨k, hk, hq⟩ := ih out hσ
    refine ⟨k, hk, fun merged τ h => ?_⟩
    obtain ⟨n, hcounts, rfl⟩ := hq merged τ h
    exact ⟨n, .other hd (.token he hd hb hi) hcounts, rfl⟩

/-- A point of the third stage carries out one number of directives. -/
theorem Counts.unique {inside : Token → Token → Session → Nat → Prop}
    (hi : ∀ t name σ k k', inside t name σ k → inside t name σ k' → k = k') {p : Point} {n m : Nat}
    (h : Counts d quiet splice inside total p n) (h' : Counts d quiet splice inside total p m) :
    n = m := by
  induction h generalizing m with
  | done ht =>
    cases h' with
    | done => rfl
    | included hk => rw [ht] at hk; cases hk
    | other hn hs => cases hs with
      | included hk => rw [ht] at hk; cases hk
      | block hb => rw [ht] at hb; cases hb
      | named hid => rw [ht] at hid; cases hid
      | token he => exact absurd ht he
  | included hk hinc hs hc more ih =>
    cases h' with
    | done ht => rw [hk] at ht; cases ht
    | included _ _ hs' hc' more' =>
      obtain rfl := step_unique hs hs'
      rw [hi _ _ _ _ _ hc hc', ih more']
    | other hn => exact absurd ⟨hk, hinc⟩ hn
  | other hn hs more ih =>
    cases h' with
    | done ht => cases hs with
      | included hk => rw [ht] at hk; cases hk
      | block hb => rw [ht] at hb; cases hb
      | named hid => rw [ht] at hid; cases hid
      | token he => exact absurd ht he
    | included hk hinc => exact absurd ⟨hk, hinc⟩ hn
    | other _ hs' more' =>
      obtain rfl := step_unique hs hs'
      exact ih more'

end Merge

namespace Branch

variable {s : Setting} {b : Branch} {σ : Session}

theorem splice_eq (s : Setting) (b : Branch) (front : Branch → List Token → Conversion (List Token))
    (directive name : Token) : splice s b front directive name = (do
      let (within, lexed) ← enters s b directive name
      let merged ← front within lexed
      return body merged) := by
  unfold splice enters
  simp only [bind_assoc, pure_bind]

/-- How many directives to include a file are carried out in a file and below them, where `inside`
counts those below each. -/
def Carries (s : Setting) (depth : Nat) (b : Branch) (inside : Token → Token → Session → Nat → Prop)
    (lexed : List Token) (σ : Session) (n : Nat) : Prop :=
  ∃ start rest ready, front s b lexed σ = .ok (start :: rest) ready ∧
    Merge.Counts s.dialect b.quiet (splice s b (inner s depth)) inside (rest.length + 1)
      ⟨ready, [start], rest⟩ n

/-- How many directives to include a file are carried out in a file and in those it includes. -/
def Totals (s : Setting) : Nat → Branch → List Token → Session → Nat → Prop
  | 0, b => Carries s 0 b fun _ _ _ _ => False
  | depth + 1, b => Carries s (depth + 1) b fun directive name σ k => ∃ within lexed ready,
      enters s b directive name σ = .ok (within, lexed) ready ∧ Totals s depth within lexed ready k

theorem Carries.unique {depth : Nat} {lexed : List Token} {n m : Nat}
    {inside : Token → Token → Session → Nat → Prop}
    (hi : ∀ t name σ k k', inside t name σ k → inside t name σ k' → k = k')
    (h : Carries s depth b inside lexed σ n) (h' : Carries s depth b inside lexed σ m) : n = m := by
  obtain ⟨start, rest, ready, hf, hc⟩ := h
  obtain ⟨start', rest', ready', hf', hc'⟩ := h'
  cases hf.symm.trans hf'
  exact hc.unique hi hc'

theorem Totals.unique {depth : Nat} {lexed : List Token} {n m : Nat}
    (h : Totals s depth b lexed σ n) (h' : Totals s depth b lexed σ m) : n = m := by
  induction depth generalizing b lexed σ n m with
  | zero => exact Carries.unique (fun _ _ _ _ _ hk => hk.elim) h h'
  | succ depth ih =>
    refine Carries.unique (fun directive name ρ k k' hk hk' => ?_) h h'
    obtain ⟨within, lexed, ready, he, ht⟩ := hk
    obtain ⟨within', lexed', ready', he', ht'⟩ := hk'
    cases he.symm.trans he'
    exact ih ht ht'

theorem patient_front (lexed : List Token) (hσ : σ.allowance = none) :
    Patient (fun _ _ k => k = 2) (front s b lexed) σ := by
  unfold front
  refine (patient_checkpoint hσ).bind ?_
  rintro - ρ _ - hρ rfl
  refine .behind (unasked_steps.note _ _) hρ fun _ ρ _ hρ => ?_
  refine .behind (unasked_steps.carryOut s.dialect b.quiet lexed) hρ fun carried ρ _ hρ => ?_
  refine (patient_checkpoint hρ).bind ?_
  rintro - ρ _ - hρ rfl
  obtain ⟨k, hk, hq⟩ := ((unasked_steps.note b.quiet (.item "Pass 2.")).bind fun _ =>
    (unasked_steps.ofExcept (Label.place s.dialect carried.1 carried.2)).bind fun placed =>
      (unasked_steps.note b.quiet (.item "Pass 3.")).bind fun _ => unasked_steps.pure placed).patient hρ
  exact ⟨k, hk, fun placed τ h => by rw [hq placed τ h]⟩

theorem patient_enters (directive name : Token) (hσ : σ.allowance = none) :
    Patient (fun _ _ k => k = 1) (enters s b directive name) σ := by
  unfold enters
  refine (patient_checkpoint hσ).bind ?_
  rintro - ρ _ - hρ rfl
  obtain ⟨k, hk, hq⟩ := ((unasked_steps.ofExcept (named s b directive name)).bind fun found =>
    (unasked_steps.note b.quiet (.detail ("Including: " ++ PathName.base found.1))).bind fun _ =>
      (unasked_steps.ofExcept (Lexer.lex s.dialect found.2)).bind fun lexed =>
        unasked_steps.pure (b.enter s found.1, lexed)).patient hρ
  exact ⟨k, hk, fun entered τ h => by rw [hq entered τ h]⟩

/-- The conversion of a file is asked twice, and three times for each directive that is carried out
in it and below it. -/
theorem patient_carries {depth : Nat} {inside : Token → Token → Session → Nat → Prop}
    (hs : ∀ directive name σ, σ.allowance = none →
      Patient (fun _ _ k => ∃ n, inside directive name σ n ∧ k = 3 * (1 + n))
        (splice s b (inner s depth) directive name) σ)
    (lexed : List Token) (hσ : σ.allowance = none) :
    Patient (fun _ _ k => ∃ n, Carries s depth b inside lexed σ n ∧ k = 2 + 3 * n)
      (convert s depth b lexed) σ := by
  rw [convert_eq]
  refine (patient_front lexed hσ).bind ?_
  rintro placed ready k hf hready rfl
  cases placed with
  | nil => exact ⟨0, unasked_steps.throw _ ready hready, fun _ _ h => absurd h throw_ne_ok⟩
  | cons start rest =>
    have hrun : Patient (fun _ _ k => ∃ n, Merge.Counts s.dialect b.quiet (splice s b (inner s depth))
        inside (rest.length + 1) ⟨ready, [start], rest⟩ n ∧ k = 3 * n)
        (Merge.merge s.dialect b.quiet (splice s b (inner s depth)) (start :: rest)) ready :=
      Merge.patient_run hs [start] rest hready
    obtain ⟨k, hk, hq⟩ := hrun
    refine ⟨k, hk, fun merged τ h => ?_⟩
    obtain ⟨n, hcounts, rfl⟩ := hq merged τ h
    exact ⟨n, ⟨start, rest, ready, hf, hcounts⟩, rfl⟩

theorem patient_convert (depth : Nat) (lexed : List Token) (hσ : σ.allowance = none) :
    Patient (fun _ _ k => ∃ n, Totals s depth b lexed σ n ∧ k = 2 + 3 * n)
      (convert s depth b lexed) σ := by
  induction depth generalizing b lexed σ with
  | zero =>
    refine patient_carries (fun directive name σ hσ => ?_) lexed hσ
    rw [splice_eq]
    refine (patient_enters directive name hσ).bind fun entered ρ k _ hρ _ => ?_
    exact ⟨0, unasked_steps.throw _ ρ hρ, fun _ _ h => absurd h throw_ne_ok⟩
  | succ depth ih =>
    refine patient_carries (fun directive name σ hσ => ?_) lexed hσ
    rw [splice_eq]
    refine (patient_enters directive name hσ).bind ?_
    rintro ⟨within, lexed⟩ ρ k he hρ rfl
    refine (ih lexed hρ).bind ?_
    rintro merged τ k - hτ ⟨n, hn, rfl⟩
    refine ⟨0, unasked_steps.pure _ τ hτ, fun spliced _ _ => ⟨n, ⟨within, lexed, ρ, he, hn⟩, ?_⟩⟩
    omega

end Branch

namespace Compile

open Outcome (Akin)

variable {s : Setting} {o : Options} {listing : Listing} {σ : Session} {n : Nat}

def opened (s : Setting) (listing : Listing) : Conversion (List Token) := do
  Conversion.note false (.item "Lexing.")
  let lexed ← Conversion.ofExcept (Lexer.lex s.dialect listing)
  Conversion.note false (created lexed.length "tokens")
  Conversion.note false (.item "Parsing.")
  return lexed

/-- How many directives to include a file a compilation without a limit carries out. -/
def Processes (s : Setting) (listing : Listing) (σ : Session) (n : Nat) : Prop :=
  ∃ lexed ready, opened s listing { σ with allowance := none } = .ok lexed ready ∧
    Branch.Totals s s.shelf.size (Branch.main s) lexed ready n

theorem Processes.unique {m : Nat} (h : Processes s listing σ n) (h' : Processes s listing σ m) :
    n = m := by
  obtain ⟨lexed, ready, ho, ht⟩ := h
  obtain ⟨lexed', ready', ho', ht'⟩ := h'
  cases ho.symm.trans ho'
  exact ht.unique ht'

theorem unasked_opened (s : Setting) (listing : Listing) : Unasked (opened s listing) :=
  (unasked_steps.note _ _).bind fun _ => (unasked_steps.ofExcept _).bind fun lexed =>
    (unasked_steps.note _ _).bind fun _ => (unasked_steps.note _ _).bind fun _ => unasked_steps.pure lexed

/-- The last stages of a compilation, from the tokens that are numbered. -/
def closed (s : Setting) (o : Options) (lexed tokens : List Token) : Conversion Compiled := do
  Conversion.note false (.item "Pass 4.")
  let numbered ← Numbering.number s.dialect o.scale tokens
  Conversion.note false (.item "Pass 5.")
  let parsed ← Conversion.ofExcept (Touch.finish s.dialect o numbered.tokens)
  Conversion.note false (created parsed.length "tokens")
  Conversion.note false (.item "Generating.")
  let code ← Conversion.ofExcept (Render.lines s.dialect o numbered.notes parsed)
  Conversion.note false (created code.length "lines")
  Conversion.note false (.item "Total: 0.0000s.")
  return { code, lexed, parsed, infos := numbered.infos.drop 1 }

theorem unasked_closed (s : Setting) (o : Options) (lexed tokens : List Token) :
    Unasked (closed s o lexed tokens) :=
  (unasked_steps.note _ _).bind fun _ => (unasked_steps.number _ _ _).bind fun _ =>
    (unasked_steps.note _ _).bind fun _ => (unasked_steps.ofExcept _).bind fun _ =>
      (unasked_steps.note _ _).bind fun _ => (unasked_steps.note _ _).bind fun _ =>
        (unasked_steps.ofExcept _).bind fun _ => (unasked_steps.note _ _).bind fun _ =>
          (unasked_steps.note _ _).bind fun _ => unasked_steps.pure _

theorem ofListing_opened (s : Setting) (o : Options) (listing : Listing) : ofListing s o listing = (do
    let lexed ← opened s listing
    let merged ← Branch.convert s s.shelf.size (Branch.main s) lexed
    Conversion.checkpoint
    closed s o lexed (whole o merged)) := by
  unfold ofListing opened closed whole
  simp only [bind_assoc, pure_bind]

/-- A compilation is asked three times, and three times more for each directive that it carries
out. -/
theorem patient_ofListing (s : Setting) (o : Options) (listing : Listing) (σ : Session) :
    Patient (fun _ _ k => ∃ n, Processes s listing σ n ∧ k = 3 + 3 * n) (ofListing s o listing)
      { σ with allowance := none } := by
  rw [ofListing_opened]
  refine .behind (unasked_opened s listing) rfl fun lexed ready ho hready => ?_
  refine (Branch.patient_convert s.shelf.size lexed hready).bind ?_
  rintro merged ρ k - hρ ⟨n, hn, rfl⟩
  refine (patient_checkpoint hρ).bind ?_
  rintro - ρ _ - hρ rfl
  refine ⟨0, unasked_closed s o lexed (whole o merged) ρ hρ, fun c τ _ => ?_⟩
  exact ⟨n, ⟨lexed, ready, ho, hn⟩, by omega⟩

/-- What a compilation comes to, without its log. -/
def verdict (s : Setting) (o : Options) (listing : Listing) (σ : Session) : Except Failure Compiled :=
  match ofListing s o listing σ with
  | .ok c _ => .ok c
  | .error e _ => .error e

/-- A compilation that may be asked so often comes to what it comes to without a limit, or it is
called off. -/
theorem verdict_allowing {k : Nat} (h : Asked (ofListing s o listing) { σ with allowance := none } k)
    (n : Nat) : verdict s o listing (σ.allowing n) =
      if k ≤ n then verdict s o listing { σ with allowance := none } else .error .canceled := by
  split
  · obtain ⟨left, rfl⟩ := Nat.exists_eq_add_of_le ‹k ≤ n›
    have hrun : ofListing s o listing (σ.allowing (k + left)) = _ := h.enough left
    unfold verdict
    rw [hrun]
    cases ofListing s o listing { σ with allowance := none } <;> rfl
  · obtain ⟨ρ, hρ⟩ := h.short n (by omega)
    have hrun : ofListing s o listing (σ.allowing n) = _ := hρ
    unfold verdict
    rw [hrun]

/-- Two runs that differ only in their logs and in the orders of the names come to the same, but for
which clash of an entry they tell. -/
theorem verdict_akin {σ' : Session} (h : σ.Level σ') :
    Akin (verdict s o listing σ) (verdict s o listing σ') := by
  have hrun := steady_ofListing s o listing σ σ' h
  unfold verdict
  generalize ofListing s o listing σ = r at hrun
  generalize ofListing s o listing σ' = r' at hrun
  cases hrun with
  | error he => exact .error he
  | ok hab =>
    subst hab
    exact .ok _

/-- From how many checks on a compilation that succeeds without a limit succeeds. -/
theorem exists_processes {c : Compiled}
    (hc : verdict s o listing { σ with allowance := none } = .ok c) :
    ∃ I, (∀ J, Processes s listing σ J ↔ J = I) ∧
      ∀ n, verdict s o listing (σ.allowing n) =
        if 3 + 3 * I ≤ n then .ok c else .error .canceled := by
  obtain ⟨k, hk, hq⟩ := patient_ofListing s o listing σ
  cases hrun : ofListing s o listing { σ with allowance := none } with
  | error e τ =>
    unfold verdict at hc
    rw [hrun] at hc
    cases hc
  | ok c' τ =>
    obtain ⟨I, hI, rfl⟩ := hq c' τ hrun
    refine ⟨I, fun J => ⟨fun hJ => hJ.unique hI, fun hJ => hJ ▸ hI⟩, fun n => ?_⟩
    rw [verdict_allowing hk n, hc]

/-- A compilation that succeeds in some orders of the names carries out as many directives in any
other ones. -/
theorem exists_processes_walking {c : Compiled}
    (hc : verdict s o listing { σ with allowance := none } = .ok c) :
    ∃ I, ∀ orders, (∀ J, Processes s listing (σ.walking orders) J ↔ J = I) ∧
      ∀ n, verdict s o listing ((σ.walking orders).allowing n) =
        if 3 + 3 * I ≤ n then .ok c else .error .canceled := by
  obtain ⟨I, -, hn⟩ := exists_processes hc
  refine ⟨I, fun orders => ?_⟩
  have hwalking : verdict s o listing { σ.walking orders with allowance := none } = .ok c := by
    have hakin : Akin (verdict s o listing { σ with allowance := none })
      (verdict s o listing { σ.walking orders with allowance := none }) := verdict_akin ⟨rfl, rfl⟩
    rw [hc] at hakin
    exact hakin.eq_ok
  obtain ⟨I', hI', hn'⟩ := exists_processes hwalking
  -- with any number of checks both runs succeed or neither does
  have hboth (n : Nat) : 3 + 3 * I ≤ n ↔ 3 + 3 * I' ≤ n := by
    have hakin : Akin (verdict s o listing (σ.allowing n))
      (verdict s o listing ((σ.walking orders).allowing n)) := verdict_akin ⟨rfl, rfl⟩
    rw [hn, hn'] at hakin
    constructor
    · intro h
      by_contra h'
      rw [if_pos h, if_neg h'] at hakin
      cases hakin
    · intro h'
      by_contra h
      rw [if_neg h, if_pos h'] at hakin
      cases hakin
  obtain rfl : I = I' := by
    have := (hboth (3 + 3 * I)).1 (Nat.le_refl _)
    have := (hboth (3 + 3 * I')).2 (Nat.le_refl _)
    omega
  exact ⟨hI', hn'⟩

/-- A compilation that may be asked `n` times comes to what it comes to without a limit, or it is
called off; with more it comes to no less. When it succeeds without a limit, it succeeds exactly from
three on and three more for each directive that it carries out, with the same result and log. Where
the declared names are walked in other orders the same holds, but for the log and for which clash of
an entry is told. -/
theorem all_or_nothing (s : Setting) (o : Options) (listing : Listing) (σ : Session) :
    ((∀ n, verdict s o listing (σ.allowing n) = verdict s o listing { σ with allowance := none } ∨
        verdict s o listing (σ.allowing n) = .error .canceled) ∧
      (∀ n m, n ≤ m →
        verdict s o listing (σ.allowing n) = verdict s o listing { σ with allowance := none } →
        verdict s o listing (σ.allowing m) = verdict s o listing { σ with allowance := none }) ∧
      ∀ c τ, ofListing s o listing { σ with allowance := none } = .ok c τ →
        ∃ I, (∀ J, Processes s listing σ J ↔ J = I) ∧ ∀ n,
          if 3 + 3 * I ≤ n then
            ofListing s o listing (σ.allowing n) = .ok c (τ.allowing (n - (3 + 3 * I)))
          else ∃ ρ, ofListing s o listing (σ.allowing n) = .error .canceled ρ) ∧
    (∀ orders n,
      Akin (verdict s o listing ((σ.walking orders).allowing n))
        (verdict s o listing { σ with allowance := none }) ∨
      verdict s o listing ((σ.walking orders).allowing n) = .error .canceled) ∧
    (∀ orders orders' n m, n ≤ m →
      Akin (verdict s o listing ((σ.walking orders).allowing n))
        (verdict s o listing { σ with allowance := none }) →
      Akin (verdict s o listing ((σ.walking orders').allowing m))
        (verdict s o listing { σ with allowance := none })) ∧
    ∀ c, verdict s o listing { σ with allowance := none } = .ok c →
      ∃ I, ∀ orders, (∀ J, Processes s listing (σ.walking orders) J ↔ J = I) ∧
        ∀ n, verdict s o listing ((σ.walking orders).allowing n) =
          if 3 + 3 * I ≤ n then .ok c else .error .canceled := by
  obtain ⟨k, hk, hq⟩ := patient_ofListing s o listing σ
  have hakin (orders : List Nat) (n : Nat) :
      Akin (verdict s o listing ((σ.walking orders).allowing n))
        (if k ≤ n then verdict s o listing { σ with allowance := none } else .error .canceled) := by
    rw [← verdict_allowing hk n]
    exact verdict_akin ⟨rfl, rfl⟩
  refine ⟨⟨fun n => ?_, fun n m hnm h => ?_, fun c τ hc => ?_⟩, fun orders n => ?_,
    fun orders orders' n m hnm h => ?_, fun c => exists_processes_walking⟩
  · rw [verdict_allowing hk n]
    split
    · exact .inl rfl
    · exact .inr rfl
  · rw [verdict_allowing hk n] at h
    rw [verdict_allowing hk m]
    by_cases hm : k ≤ m
    · rw [if_pos hm]
    · rw [if_neg hm]
      rwa [if_neg (by omega)] at h
  · obtain ⟨I, hI, rfl⟩ := hq c τ hc
    refine ⟨I, fun J => ⟨fun hJ => hJ.unique hI, fun hJ => hJ ▸ hI⟩, fun n => ?_⟩
    split
    · obtain ⟨left, rfl⟩ := Nat.exists_eq_add_of_le ‹3 + 3 * I ≤ n›
      rw [Nat.add_sub_cancel_left]
      have hrun : ofListing s o listing (σ.allowing (3 + 3 * I + left)) = _ := hk.enough left
      rw [hrun, hc]
      rfl
    · exact hk.short n (by omega)
  · have h := hakin orders n
    split at h
    · exact .inl h
    · exact .inr h.eq_canceled
  · have hn := hakin orders n
    have hm := hakin orders' m
    by_cases hle : k ≤ n
    · rwa [if_pos (by omega)] at hm
    · rw [if_neg hle] at hn
      have hcanceled := (hn.eq_canceled ▸ h).symm.eq_canceled
      rw [hcanceled] at hm ⊢
      rwa [ite_self] at hm

/-- A program with a file to include. -/
def fetching : Setting :=
  { dialect := .msx
    shelf := Shelf.ofEntries [("/a", .ok (Listing.ofText "print 1" "/a" 4))]
    home := "/"
    main := "/main" }

/-- With five checks a program with one directive is called off, with six it is compiled. -/
theorem processes_fetching :
    Processes fetching (Listing.ofText "include \"a\"" "/main" 4) {} 1 := by
  -- the runs share the reading of the listings
  obtain ⟨hsix, hruns⟩ : (outcome fetching {} (Listing.ofText "include \"a\"" "/main" 4)).isSome = true ∧
      ((verdict fetching {} (Listing.ofText "include \"a\"" "/main" 4) (Session.allowing {} 5)).isOk,
        (verdict fetching {} (Listing.ofText "include \"a\"" "/main" 4) (Session.allowing {} 6)).isOk) =
          (false, true) := by
    decide +kernel
  obtain ⟨c, hc⟩ := Option.isSome_iff_exists.1 hsix
  obtain ⟨τ, hτ⟩ := exists_of_outcome hc
  obtain ⟨⟨-, -, hthird⟩, -⟩ :=
    all_or_nothing fetching {} (Listing.ofText "include \"a\"" "/main" 4) {}
  obtain ⟨I, hI, hn⟩ := hthird c τ hτ
  have hgo (n : Nat) : (verdict fetching {} (Listing.ofText "include \"a\"" "/main" 4)
      (Session.allowing {} n)).isOk = decide (3 + 3 * I ≤ n) := by
    have hrun := hn n
    unfold verdict
    split at hrun
    · rw [hrun, decide_eq_true ‹_›]
      rfl
    · obtain ⟨ρ, hρ⟩ := hrun
      rw [hρ, decide_eq_false ‹_›]
      rfl
  rw [hgo, hgo, Prod.mk.injEq, decide_eq_false_iff_not, decide_eq_true_iff] at hruns
  exact (hI 1).2 (by omega)

end Compile

end ClassicBasic
