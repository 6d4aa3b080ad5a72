import ClassicBasic.Proofs.Finish
import ClassicBasic.Proofs.Meets

/-!
# Stages that stop in time

A stage reads a list of tokens that ends with the end of the program, so it stops there: it gives a
list that ends there too, or says what is wrong with the program. The first stage also needs a line
end in front of the end, because a DECLARE would take the end of the program for a name.
-/

set_option autoImplicit false

namespace ClassicBasic

open Outcome (meets_mapM)

namespace Conversion

/-- Whether a step gives a result that `Q` holds of or a failure that can be told, whatever the
conversion has come to. -/
def Meets {α : Type} (Q : α → Prop) (x : Conversion α) : Prop :=
  ∀ σ, match x σ with
    | .ok a _ => Q a
    | .error e _ => e.Told

variable {α β : Type} {P Q : α → Prop} {R : β → Prop}

theorem Meets.told {x : Conversion α} (h : Meets Q x) {σ τ : Session} {e : Failure}
    (hx : x σ = .error e τ) : e.Told := by
  have hσ := h σ
  rw [hx] at hσ
  exact hσ

theorem Meets.holds {x : Conversion α} (h : Meets Q x) {σ τ : Session} {a : α}
    (hx : x σ = .ok a τ) : Q a := by
  have hσ := h σ
  rw [hx] at hσ
  exact hσ

/-- What a step promises may be read off from a run that gives the result. -/
theorem Meets.imp {x : Conversion α} (h : Meets P x)
    (hq : ∀ a σ τ, x σ = .ok a τ → P a → Q a) : Meets Q x := by
  intro σ
  cases hx : x σ with
  | ok a τ => exact hq a σ τ hx (h.holds hx)
  | error e τ => exact h.told hx

theorem Meets.bind {x : Conversion α} {f : α → Conversion β} (h : Meets P x)
    (hf : ∀ a, P a → Meets R (f a)) : Meets R (x >>= f) := by
  intro σ
  show match EStateM.bind x f σ with
    | .ok b _ => R b
    | .error e _ => e.Told
  unfold EStateM.bind
  cases hx : x σ with
  | ok a τ => exact hf a (h.holds hx) τ
  | error e τ => exact h.told hx

theorem meets_pure {a : α} (h : Q a) : Meets Q (pure a : Conversion α) := fun _ => h

theorem meets_throw {e : Failure} (h : e.Told) : Meets Q (throw e : Conversion α) := fun _ => h

theorem meets_ofExcept {x : Except Failure α} (h : Outcome.Meets Q x) : Meets Q (ofExcept x) := by
  intro σ
  cases x with
  | ok a => exact h
  | error e => exact h

theorem meets_note (quiet : Bool) (r : Record) : Meets (fun _ => True) (note quiet r) :=
  fun _ => trivial

theorem meets_checkpoint : Meets (fun _ => True) checkpoint := by
  rintro ⟨names, records, _ | _ | n, orders⟩
  · trivial
  · constructor <;> intro h <;> cases h
  · trivial

theorem meets_naming : Meets (fun _ => True) naming := fun _ => trivial

theorem meets_order : Meets (fun _ => True) order := fun _ => trivial

theorem meets_setNaming (n : Naming) : Meets (fun _ => True) (setNaming n) := fun _ => trivial

theorem meets_advise {quiet : Bool} {a : Advised Naming}
    (h : Outcome.Meets (fun _ => True) a.outcome) : Meets (fun _ => True) (advise quiet a) := by
  unfold advise
  have hwarn : Meets (fun _ => True) (warn quiet a.warnings) := fun _ => trivial
  apply hwarn.bind
  rintro - -
  apply (meets_ofExcept h).bind
  rintro n -
  exact meets_setNaming n

end Conversion

open Conversion (Meets meets_pure meets_throw meets_ofExcept meets_note meets_checkpoint meets_naming meets_order
  meets_setNaming meets_advise)

/-! ### DECLARE -/

theorem Declaration.apply_meets (k : Nat) (n : Naming) (e : Declaration) :
    Outcome.Meets (fun _ => True) (e.apply k n).outcome := by
  unfold apply
  split
  · unfold keepLong
    dsimp only
    split
    · exact Token.told _ _
    · trivial
  · unfold fixShort
    dsimp only
    split
    · exact Token.told _ _
    · split
      · exact Token.told _ _
      · trivial

/-- A list of tokens up to the end of the program, with a line end in front of it; `last` is the kind
of the token before the list. -/
inductive Shut : Kind → List Token → Prop
  | last {t : Token} (kind : t.kind = .eof) (value : t.value = Listing.eofText) : Shut .newline [t]
  | cons {last : Kind} {t : Token} {rest : List Token} (inner : t.kind ≠ .eof)
      (more : Shut t.kind rest) : Shut last (t :: rest)

theorem Shut.ended {last : Kind} {l : List Token} (h : Shut last l) : Ended l := by
  induction h with
  | last hk hv => exact .last hk hv
  | cons _ _ ih => exact .cons ih

theorem Shut.of_suffix {last : Kind} {l s : List Token} (h : Shut last l) (hs : s <:+ l)
    (hne : s ≠ []) : ∃ before, Shut before s := by
  induction h with
  | last hk hv =>
    obtain rfl := (List.suffix_cons_iff.1 hs).resolve_right fun h => hne (List.suffix_nil.1 h)
    exact ⟨_, .last hk hv⟩
  | @cons before t rest hk h ih =>
    rcases List.suffix_cons_iff.1 hs with rfl | hs
    · exact ⟨before, .cons hk h⟩
    · exact ih hs

theorem Shut.exists_cons {last : Kind} {l : List Token} (h : Shut last l) (hn : last ≠ .newline) :
    ∃ t rest, l = t :: rest ∧ t.kind ≠ .eof ∧ Shut t.kind rest := by
  cases h with
  | last => exact absurd rfl hn
  | cons hk h => exact ⟨_, _, rfl, hk, h⟩

theorem Shut.value {last : Kind} {t : Token} {rest : List Token} (h : Shut last (t :: rest))
    (hk : t.kind = .eof) : t.value = Listing.eofText := by
  cases h with
  | last _ hv => exact hv
  | cons hne _ => exact absurd hk hne

theorem Declaration.read_meets {d : Dialect} {t : Token} {rest : List Token} {last : Kind}
    (h : Shut last rest) (hn : last ≠ .newline) :
    Outcome.Meets (fun r => r.2 ≠ []) (read d t rest) := by
  obtain ⟨long, after, rfl, -, hafter⟩ := h.exists_cons hn
  have hended := hafter.ended
  unfold read
  dsimp only [List.headD_cons, List.tail_cons]
  split
  · exact Token.told _ _
  · split
    · exact Token.told _ _
    · split
      · exact Token.told _ _
      · split
        · exact hended.ne_nil
        · obtain ⟨next, more, rfl⟩ := hended.exists_cons
          split
          · exact Token.told _ _
          · rename_i hcolon
            have hmore : Ended more := hended.tail_of_value (Decidable.not_not.1 hcolon) (by decide)
            obtain ⟨short, left, rfl⟩ := hmore.exists_cons
            split
            · exact Token.told _ _
            · rename_i hs
              have hleft : Ended left := hmore.tail_of_value rfl fun hv => by
                rw [List.tail_cons, List.headD_cons, hv] at hs
                exact hs (by decide)
              exact hleft.ne_nil

theorem Conversion.meets_enter (quiet : Bool) (e : Declaration) :
    Meets (fun _ => True) (enter quiet e) := by
  apply meets_order.bind
  rintro k -
  apply meets_naming.bind
  rintro known -
  exact meets_advise (Declaration.apply_meets k known e)

theorem Conversion.declareLine_meets {d : Dialect} {quiet : Bool} {t : Token} {rest : List Token}
    {last : Kind} (h : Shut last rest) (hn : last ≠ .newline) (hl : ∀ u ∈ rest, u.Lawful d) :
    Meets (fun left => left.1 ≠ []) (declareLine d quiet t rest) := by
  fun_induction declareLine d quiet t rest generalizing last with
  | case1 t rest e hr => exact meets_throw ((Declaration.read_meets h hn).told hr)
  | case2 t rest entry after hr ih =>
    have hafter : after ≠ [] := (Declaration.read_meets h hn).holds hr
    have hsuffix : after <:+ rest := Declaration.suffix_read hr
    obtain ⟨before, hshut⟩ : ∃ before, Shut before after := h.of_suffix hsuffix hafter
    apply (meets_enter quiet entry).bind
    rintro - -
    split
    · exact absurd rfl hafter
    · rename_i u left
      split
      · rename_i hcomma
        have hlaw : u.Lawful d := hl u (hsuffix.mem (by simp))
        have hkind : u.kind ≠ .newline := hlaw.kind_ne_newline (by rw [hcomma]; decide)
        have hleft : Shut u.kind left := by
          cases hshut with
          | last _ hv => exact absurd (hcomma.symm.trans hv) (by decide)
          | cons _ h => exact h
        have hmem : ∀ v ∈ left, v.Lawful d := fun v hv =>
          hl v (hsuffix.mem (List.mem_cons_of_mem u hv))
        apply (ih u left rfl hleft hkind hmem).bind
        rintro ⟨final, hf⟩ hfinal
        exact meets_pure hfinal
      · split
        · exact meets_pure hshut.ended.afterLineEnd.ne_nil
        · exact meets_throw (Token.told _ _)

/-! ### The first two stages -/

def Closes (l : List Token) : Prop := ∃ t ∈ l, t.kind = .eof

theorem Closes.tail {t : Token} {rest : List Token} (h : Closes (t :: rest)) (ht : t.kind ≠ .eof) :
    Closes rest := by
  obtain ⟨u, hu, hk⟩ := h
  rcases List.mem_cons.1 hu with rfl | hu
  · exact absurd hk ht
  · exact ⟨u, hu, hk⟩

namespace Directive

open Entry

theorem run_meets {d : Dialect} {quiet : Bool} {tables : Tables} {out input : List Token}
    {last : Kind} (hp : tables.Plain d) (ho : Sound d out) (hl : ∀ u ∈ input, u.Lexed d)
    (h : Shut last input) : Meets (fun r => Ended r.2) (run d quiet tables out input) := by
  have ends {l : List Token} {t : Token} (hk : t.kind = .eof) (hv : t.value = Listing.eofText) :
      Ended (l ++ [t]) := by
    induction l with
    | nil => exact .last hk hv
    | cons u l ih => exact .cons ih
  fun_induction run d quiet tables out input generalizing last with
  | case1 => exact absurd rfl h.ended.ne_nil
  | case2 tables out t rest hk =>
    refine meets_pure ?_
    rw [List.reverse_cons]
    exact ends hk (h.value hk)
  | case3 tables out t rest hk hd ih =>
    have hkind : t.kind = .directive := by
      simp only [declares, Bool.and_eq_true, beq_iff_eq] at hd
      exact hd.1.1
    have hrest : Shut t.kind rest := by
      cases h with
      | last he => exact absurd he hk
      | cons _ h => exact h
    have hlexed : ∀ u ∈ rest, u.Lexed d := fun u hu => hl u (List.mem_cons_of_mem _ hu)
    have hdeclared : Meets (fun left => left.1 ≠ []) (Conversion.declareLine d quiet t rest) :=
      Conversion.declareLine_meets hrest (by simp [hkind]) fun u hu => (hlexed u hu).toLawful
    apply (hdeclared.imp fun left σ τ hr hne => And.intro hne (Conversion.suffix_declareLine hr)).bind
    rintro left ⟨hne, hs⟩
    obtain ⟨before, hleft⟩ := hrest.of_suffix hs hne
    exact ih left.1 left.2 hp ho (fun u hu => hlexed u (hs.mem hu)) hleft
  | case4 tables out t rest hk _ e he =>
    exact meets_throw ((step_meets (h.ended.tail hk)).told he)
  | case5 tables out t rest hk _ p hstep ih =>
    obtain ⟨hp', ho', hs⟩ := step_sound hp ho hl hstep
    have hsuffix : p.rest <:+ t :: rest := hs.trans (List.suffix_cons t rest)
    have hended : Ended p.rest := (step_meets (h.ended.tail hk)).holds hstep
    obtain ⟨before, hshut⟩ := h.of_suffix hsuffix hended.ne_nil
    exact ih hp' ho' (fun u hu => hl u (hsuffix.mem hu)) hshut

end Directive

theorem PrintAt.split_ended {depth : Int} {x : Option (List Token)} {term : List Token} {last : Token}
    {l : List Token} (h : Ended l) : Ended (split depth x term last l).rest := by
  induction l generalizing depth x term last with
  | nil => exact absurd rfl h.ne_nil
  | cons t rest ih =>
    simp only [split]
    split
    · exact h
    · rename_i hk
      split
      · split
        · exact h.tail hk
        · exact h.tail hk
      · split
        · exact ih (h.tail hk)
        · exact ih (h.tail hk)

namespace Label

variable {d : Dialect} {routines : Routines} {loops out rest : List Token} {t : Token}

theorem bracketed_meets (h : Ended (t :: rest)) :
    Outcome.Meets (fun b => ∀ content closer after, b = .holding content closer after → Ended after)
      (Bracketed.read opening closing t rest) :=
  Bracketed.read_meets (by decide) (by decide) (by decide) h

theorem readJump_meets (h : Ended (t :: rest)) :
    Outcome.Meets (fun p => Ended p.rest) (readJump loops out t rest) := by
  unfold readJump
  split
  · rename_i hb
    exact (bracketed_meets h).told hb
  · exact Token.told _ _
  · rename_i hb
    split
    · exact (bracketed_meets h).holds hb _ _ _ rfl
    · exact Token.told _ _

theorem lineMark_meets (label : Token) (pos : Position) :
    Outcome.Meets (fun _ => True) (lineMark label pos) := by
  unfold lineMark
  split
  · trivial
  · exact Token.told _ _

theorem readLine_meets (h : Ended (t :: rest)) (ht : t.kind ≠ .eof) :
    Outcome.Meets (fun p => Ended p.rest) (readLine loops out t rest) := by
  unfold readLine
  split
  · exact Token.told _ _
  · split
    · split
      · rename_i hb
        exact (bracketed_meets h).told hb
      · exact Token.told _ _
      · rename_i hb
        exact (lineMark_meets _ _).map fun _ _ => (bracketed_meets h).holds hb _ _ _ rfl
    · split
      · exact (lineMark_meets _ _).map fun _ _ => h.tail ht
      · exact Token.told _ _

/-- One token of the second stage is read with the end still ahead. -/
theorem step_meets (h : Ended (t :: rest)) (ht : t.kind ≠ .eof) :
    Outcome.Meets (fun p => Ended p.rest) (step d routines loops out t rest) := by
  have hrest := h.tail ht
  unfold step
  split
  · exact (Routine.call_meets h).map fun r hr => hr
  · split
    · split
      · exact readJump_meets h
      · exact readLine_meets h ht
    · split
      · unfold closeLoop
        split
        · exact Token.told _ _
        · exact hrest
      · split
        · unfold leaveLoop
          split
          · exact Token.told _ _
          · exact hrest
        · split
          · exact PrintAt.split_ended hrest
          · exact hrest

theorem run_meets {tables : Tables} {input : List Token} (h : Ended input) :
    Outcome.Meets Closes (run d tables loops out input) := by
  fun_induction run d tables loops out input with
  | case1 => exact absurd rfl h.ne_nil
  | case2 loops out t rest hk failure hu =>
    unfold unclosed at hu
    split at hu
    · cases hu
      exact Token.told _ _
    · cases hu
      exact Token.told _ _
    · cases hu
  | case3 loops out t rest hk => exact ⟨t, by simp, hk⟩
  | case4 loops out t rest hk e he => exact (step_meets h hk).told he
  | case5 loops out t rest hk p hstep ih => exact ih ((step_meets h hk).holds hstep)

end Label

/-! ### The third stage -/

theorem Naming.keepWritten_meets (n : Naming) (t : Token) :
    Outcome.Meets (fun _ => True) (n.keepWritten t).outcome := by
  unfold keepWritten
  dsimp only
  split
  · exact Token.told _ _
  · split
    · exact Token.told _ _
    · trivial

theorem Naming.meet_meets (n : Naming) (t : Token) :
    Outcome.Meets (fun _ => True) (n.meet t).outcome := by
  unfold meet
  dsimp only
  split
  · trivial
  · trivial

namespace Merge

variable {d : Dialect} {quiet : Bool} {splice : Token → Token → Conversion (List Token)}

theorem meetVariable_meets (t : Token) (out : List Token) :
    Meets (fun _ => True) (meetVariable quiet t out) := by
  unfold meetVariable
  apply meets_naming.bind
  rintro known -
  split
  · split
    · apply (meets_advise (known.keepWritten_meets t)).bind
      exact fun _ _ => meets_pure trivial
    · apply (meets_advise (known.meet_meets t)).bind
      exact fun _ _ => meets_pure trivial
  · apply (meets_advise (known.meet_meets t)).bind
    exact fun _ _ => meets_pure trivial

theorem unwrap_closes {l : List Token} (h : Closes l) : Closes (unwrap d l).2 := by
  induction l with
  | nil => exact h
  | cons t rest ih =>
    simp only [unwrap]
    split
    · rename_i hk
      exact h.tail (by simp [hk])
    · split
      · exact h
      · rename_i hk
        exact ih (h.tail hk)

/-- The third stage gives tokens up to the end of the program when every file that is spliced in can
be, or cannot for a reason that can be told. -/
theorem run_meets {total : Nat} {out input : List Token} (h : Closes input)
    (hs : ∀ t name, Meets (fun _ => name.kind = .string) (splice t name)) :
    Meets Closes (run d quiet splice total out input) := by
  fun_induction run d quiet splice total out input with
  | case1 =>
    obtain ⟨t, ht, -⟩ := h
    cases ht
  | case2 out t rest hk => exact meets_pure ⟨t, by simp, hk⟩
  | case3 out t rest hk _ ih =>
    have hrest := h.tail hk
    apply (hs t (rest.headD t)).bind
    intro body hname
    refine ih body ?_
    -- the name of a file is no end
    cases rest with
    | nil =>
      obtain ⟨u, hu, -⟩ := hrest
      cases hu
    | cons name rest => exact hrest.tail (by simpa using by simp [show name.kind = .string from hname])
  | case4 out t rest hk _ _ ih => exact ih (unwrap_closes (h.tail hk))
  | case5 out t rest hk _ _ place _ ih =>
    apply (meetVariable_meets t out).bind
    exact fun met _ => ih met (h.tail hk)
  | case6 out t rest hk _ _ place _ ih => exact ih out (h.tail hk)

end Merge

/-! ### The last stages -/

namespace Numbering

variable {d : Dialect} {scale : Scale}

theorem shorten_meets (t : Token) : Meets (fun _ => True) (shorten d t) := by
  unfold shorten
  apply meets_naming.bind
  rintro known -
  have hshort : Outcome.Meets (fun _ => True) (known.shorten d t) := by
    unfold Naming.shorten
    split
    · trivial
    · have hgiven : Outcome.Meets (fun _ => True) (known.allocate d t) := by
        unfold Naming.allocate
        split
        · trivial
        · split
          · trivial
          · exact Token.told _ _
      exact hgiven.map fun _ _ => trivial
  apply (meets_ofExcept hshort).bind
  rintro ⟨u, names⟩ -
  apply (meets_setNaming names).bind
  exact fun _ _ => meets_pure trivial

theorem step_meets (s : State) (t next : Token) :
    Outcome.Meets (fun _ => True) (step scale s t next) := by
  unfold step
  split
  · unfold markLabel
    split
    · exact Token.told _ _
    · trivial
  · trivial
  · trivial
  · trivial
  · trivial
  · trivial
  · unfold endLine
    dsimp only
    split
    · trivial
    · split
      · exact Token.told _ _
      · trivial
  · trivial

theorem walk_meets {s : State} {input : List Token} (h : Closes input) :
    Meets (fun _ => True) (walk d scale s input) := by
  induction input generalizing s with
  | nil =>
    obtain ⟨t, ht, -⟩ := h
    cases ht
  | cons t rest ih =>
    simp only [walk]
    split
    · exact meets_pure trivial
    · rename_i hk
      have hrest := h.tail hk
      split
      · apply (shorten_meets t).bind
        exact fun _ _ => ih hrest
      · apply (meets_ofExcept (step_meets s t (rest.headD t))).bind
        exact fun _ _ => ih hrest

theorem settle_meets (s : State) (target : Target) (p : Pending) :
    Outcome.Meets (fun _ => True) (settle s target p) := by
  unfold settle
  dsimp only
  split
  · trivial
  · split
    · split
      · trivial
      · exact Token.told _ _
    · split
      · split
        · exact Token.told _ _
        · trivial
      · exact Token.told _ _
    · split
      · trivial
      · exact Token.told _ _

theorem resolve_meets (s : State) : Outcome.Meets (fun _ => True) (resolve s) := by
  have settled (target : Target) (l : List Pending) :
      Outcome.Meets (fun _ => True) (l.mapM (settle s target)) :=
    (meets_mapM fun p _ => settle_meets s target p).imp fun _ _ _ => trivial
  unfold resolve
  apply (settled .label s.out.reverse).bind
  rintro jumps -
  apply (settled .pastLoop jumps).bind
  rintro exits -
  apply (settled .routine exits).bind
  exact fun _ _ => trivial

theorem Numbers.closes {input new : List Token} (h : Numbers input new) : Closes new := by
  induction h with
  | ending ht => exact ⟨_, List.mem_singleton_self _, ht⟩
  | entry _ _ ih => exact ih
  | line _ _ _ ih =>
    obtain ⟨u, hu, hk⟩ := ih
    exact ⟨u, List.mem_cons_of_mem _ (List.mem_cons_of_mem _ hu), hk⟩
  | token _ _ ih =>
    obtain ⟨u, hu, hk⟩ := ih
    exact ⟨u, List.mem_cons_of_mem _ hu, hk⟩

/-- The fourth stage keeps the start of a program and gives tokens up to its end. -/
theorem number_meets {start : Token} {rest : List Token} (h : Closes rest) :
    Meets (fun n => ∃ tail, n.tokens = start :: tail ∧ Closes tail)
      (number d scale (start :: rest)) := by
  have hnumber : Meets (fun _ => True) (number d scale (start :: rest)) := by
    unfold number
    apply (walk_meets h).bind
    rintro last -
    apply (meets_ofExcept (resolve_meets last)).bind
    exact fun _ _ => meets_pure trivial
  apply hnumber.imp
  intro numbered σ τ hn _
  obtain ⟨tail, heq, hnum⟩ := number_numbers hn
  exact ⟨tail, heq, hnum.closes⟩

end Numbering

namespace Touch

variable {d : Dialect} {o : Options} {out input : List Token}

theorem touch_meets (t next : Token) : Outcome.Meets (fun _ => True) (touch d o out t next) := by
  unfold touch
  split
  · trivial
  · split
    · trivial
    · split
      · trivial
      · split
        · split
          · exact Token.told _ _
          · split
            · trivial
            · exact Token.told _ _
        · split
          · trivial
          · split
            · trivial
            · split
              · trivial
              · trivial

theorem run_meets (h : Closes input) : Outcome.Meets (fun _ => True) (run d o out input) := by
  induction input generalizing out with
  | nil =>
    obtain ⟨t, ht, -⟩ := h
    cases ht
  | cons t rest ih =>
    simp only [run]
    split
    · trivial
    · rename_i hk
      split
      · rename_i he
        exact (touch_meets t (rest.headD t)).told he
      · exact ih (h.tail hk)

end Touch

theorem Render.linesFrom_meets {d : Dialect} {o : Options} {notes : List (Int × Text)}
    {read input : List Token} : Outcome.Meets (fun _ => True) (linesFrom d o notes read input) := by
  induction input generalizing read with
  | nil => trivial
  | cons t rest ih =>
    simp only [linesFrom]
    split
    · trivial
    · split
      · exact Token.told _ _
      · generalize (if t.value = [] then read else t :: read) = read'
        split
        · exact ih
        · split
          · exact Token.told _ _
          · exact ih.map fun _ _ => trivial

end ClassicBasic
