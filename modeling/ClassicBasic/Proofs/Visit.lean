import ClassicBasic.Proofs.Include

/-!
# The files of a program

The files that are converted when a program is: the main file, and below every file the ones that its
third stage includes on its way. A property of converted files is proved for all of them at once,
from what is known of each file by itself.
-/

set_option autoImplicit false

namespace ClassicBasic.Branch

open Relation (ReflTransGen)

/-- A file as its conversion starts. -/
structure Visit where
  /-- How many files there may be inside one another below this one. -/
  depth : Nat
  branch : Branch
  lexed : List Token
  session : Session

/-- The file that a directive names, and its tokens. -/
def enters (s : Setting) (b : Branch) (directive name : Token) :
    Conversion (Branch × List Token) := do
  Conversion.checkpoint
  let (path, listing) ← Conversion.ofExcept (named s b directive name)
  Conversion.note b.quiet (.detail ("Including: " ++ PathName.base path))
  let lexed ← Conversion.ofExcept (Lexer.lex s.dialect listing)
  return (b.enter s path, lexed)

variable {s : Setting} {b : Branch} {σ τ : Session}

theorem splice_entered {front : Branch → List Token → Conversion (List Token)}
    {directive name : Token} {spliced : List Token}
    (h : splice s b front directive name σ = .ok spliced τ) :
    ∃ inner lexed ready merged, enters s b directive name σ = .ok (inner, lexed) ready ∧
      front inner lexed ready = .ok merged τ ∧ spliced = body merged := by
  unfold splice at h
  obtain ⟨u, σ₁, hc, h⟩ := Conversion.bind_eq_ok_iff.1 h
  obtain ⟨⟨path, listing⟩, σ₂, hl, h⟩ := Conversion.bind_eq_ok_iff.1 h
  obtain ⟨u', σ₃, hn, h⟩ := Conversion.bind_eq_ok_iff.1 h
  obtain ⟨lexed, σ₄, hr, h⟩ := Conversion.bind_eq_ok_iff.1 h
  obtain ⟨merged, σ₅, hm, h⟩ := Conversion.bind_eq_ok_iff.1 h
  obtain ⟨rfl, rfl⟩ := Conversion.pure_eq_ok_iff.1 h
  refine ⟨b.enter s path, lexed, σ₄, merged, ?_, hm, rfl⟩
  unfold enters
  refine Conversion.bind_eq_ok_iff.2 ⟨u, σ₁, hc, Conversion.bind_eq_ok_iff.2 ⟨_, σ₂, hl, ?_⟩⟩
  refine Conversion.bind_eq_ok_iff.2 ⟨u', σ₃, hn, Conversion.bind_eq_ok_iff.2 ⟨_, σ₄, hr, ?_⟩⟩
  exact Conversion.pure_eq_ok_iff.2 ⟨rfl, rfl⟩

theorem enters_lexed {directive name : Token} {r : Branch × List Token}
    (h : enters s b directive name σ = .ok r τ) :
    ∃ listing, Lexer.lex s.dialect listing = .ok r.2 := by
  unfold enters at h
  obtain ⟨_, _, -, h⟩ := Conversion.bind_eq_ok_iff.1 h
  obtain ⟨⟨path, listing⟩, _, -, h⟩ := Conversion.bind_eq_ok_iff.1 h
  obtain ⟨_, _, -, h⟩ := Conversion.bind_eq_ok_iff.1 h
  obtain ⟨lexed, _, hr, h⟩ := Conversion.bind_eq_ok_iff.1 h
  obtain ⟨rfl, -⟩ := Conversion.pure_eq_ok_iff.1 h
  exact ⟨listing, (Conversion.ofExcept_eq_ok_iff.1 hr).1⟩

namespace Visit

def splice (s : Setting) (v : Visit) : Token → Token → Conversion (List Token) :=
  Branch.splice s v.branch (inner s v.depth)

def Walks (s : Setting) (v : Visit) (p : Merge.Point) : Prop :=
  ∃ start newline rest ready,
    front s v.branch v.lexed v.session = .ok (start :: newline :: rest) ready ∧
      Merge.Reaches s.dialect v.branch.quiet (v.splice s) (start :: newline :: rest).length
        ⟨ready, [newline, start], rest⟩ p

/-- Whether the third stage of `v` includes `w`. -/
inductive Includes (s : Setting) : Visit → Visit → Prop
  | entered {v : Visit} {depth : Nat} {p : Merge.Point} {t : Token} {rest lexed : List Token}
      {b : Branch} {session : Session} (hd : v.depth = depth + 1) (hw : v.Walks s p)
      (hp : p.input = t :: rest) (hk : t.kind = .directive) (hi : t.is "INCLUDE")
      (he : enters s v.branch t (rest.headD t) p.session = .ok (b, lexed) session) :
      Includes s v ⟨depth, b, lexed, session⟩

/-- Whether the conversion of `v` converts `w`. -/
def Visits (s : Setting) : Visit → Visit → Prop := ReflTransGen (Includes s)

variable {v w : Visit}

theorem Visits.refl (v : Visit) : Visits s v v := ReflTransGen.refl

theorem Visits.head {u : Visit} (h : Includes s v w) (hw : Visits s w u) : Visits s v u :=
  ReflTransGen.head h hw

theorem visits_of_depth_zero (hd : v.depth = 0) (h : Visits s v w) : w = v := by
  rcases h.cases_head with rfl | ⟨u, hu, -⟩
  · rfl
  · cases hu with
    | entered hd' => omega

/-- Whether what is spliced in at points of the third stage of a file comes from a file that `Q`
holds of. -/
def Feeds (s : Setting) (Q : List Token → Prop) (v : Visit) : Prop :=
  ∀ (p : Merge.Point) (t : Token) (rest spliced : List Token) (τ : Session), v.Walks s p →
    p.input = t :: rest → t.kind = .directive → t.is "INCLUDE" →
    v.splice s t (rest.headD t) p.session = .ok spliced τ →
    ∃ merged, Q merged ∧ spliced = body merged

/-- What every file gives when the files it includes give it is what the whole program gives. `C` is
what is known of each file by itself. -/
theorem convert_visits {C : Visit → Prop} {Q : List Token → Prop}
    (hstep : ∀ (v : Visit) (listing : Listing) (placed merged : List Token) (ready τ : Session),
      Lexer.lex s.dialect listing = .ok v.lexed → C v →
      front s v.branch v.lexed v.session = .ok placed ready →
      Merge.merge s.dialect v.branch.quiet (v.splice s) placed ready = .ok merged τ →
      Feeds s Q v → Q merged)
    {listing : Listing} {merged : List Token} (hx : Lexer.lex s.dialect listing = .ok v.lexed)
    (h : convert s v.depth v.branch v.lexed v.session = .ok merged τ)
    (hc : ∀ w, Visits s v w → C w) : Q merged := by
  obtain ⟨depth, b, lexed, σ⟩ := v
  dsimp only at hx h
  induction depth generalizing b lexed σ listing merged τ with
  | zero =>
    obtain ⟨placed, ready, hf, hm⟩ := convert_cases h
    refine hstep ⟨0, b, lexed, σ⟩ listing placed merged ready τ hx (hc _ (.refl _)) hf hm ?_
    intro p t rest spliced τ _ _ _ _ hs
    obtain ⟨_, _, _, _, -, hfront, -⟩ := splice_entered hs
    exact absurd hfront Conversion.throw_ne_ok
  | succ depth ih =>
    obtain ⟨placed, ready, hf, hm⟩ := convert_cases h
    refine hstep ⟨depth + 1, b, lexed, σ⟩ listing placed merged ready τ hx (hc _ (.refl _)) hf hm ?_
    intro p t rest spliced τ hw hp hk hi hs
    obtain ⟨b', lexed', ready', merged', he, hfront, rfl⟩ := splice_entered hs
    obtain ⟨listing', hx'⟩ := enters_lexed he
    refine ⟨merged', ?_, rfl⟩
    refine ih b' lexed' ready' hx' hfront fun w hw' => ?_
    exact hc w (.head (.entered rfl hw hp hk hi he) hw')

end Visit

end ClassicBasic.Branch
