import ClassicBasic.Proofs.Renaming
import Mathlib.Logic.Relation

/-!
# The stock of short names

Short names are taken from a stock that is used from its end, and a name that was passed over is not
looked at again. Nothing that is known about names is ever forgotten, so a name once taken stays
taken: the stock is exhausted exactly when no name is left that could be given.
-/

set_option autoImplicit false

namespace ClassicBasic

open Relation (ReflTransGen)

namespace Dialect

theorem shortName?_eq_some_iff {slot : Nat} {v : Text} : shortName? slot = some v ↔
    ∃ first second, letters[slot / 26]? = some first ∧ letters[slot % 26]? = some second ∧
      v = [first, second] := by
  unfold shortName?
  simp only [Option.pure_def, Option.bind_eq_bind, Option.bind_eq_some_iff, Option.some.injEq]
  constructor
  · rintro ⟨first, hf, second, hs, rfl⟩
    exact ⟨first, second, hf, hs, rfl⟩
  · rintro ⟨first, second, hf, hs, rfl⟩
    exact ⟨first, hf, second, hs, rfl⟩

/-- Whether a text is one of the names in stock. -/
def IsStock (v : Text) : Prop := ∃ first ∈ letters, ∃ second ∈ letters, v = [first, second]

theorem exists_slot_iff {v : Text} : (∃ slot, shortName? slot = some v) ↔ IsStock v := by
  constructor
  · rintro ⟨slot, h⟩
    obtain ⟨first, second, hf, hs, rfl⟩ := shortName?_eq_some_iff.1 h
    exact ⟨first, List.mem_of_getElem? hf, second, List.mem_of_getElem? hs, rfl⟩
  · rintro ⟨first, hf, second, hs, rfl⟩
    obtain ⟨i, hi⟩ := List.mem_iff_getElem?.1 hf
    obtain ⟨j, hj⟩ := List.mem_iff_getElem?.1 hs
    have hlt : j < 26 := (List.getElem?_eq_some_iff.1 hj).1
    refine ⟨i * 26 + j, shortName?_eq_some_iff.2 ⟨first, second, ?_, ?_, rfl⟩⟩
    · rwa [show (i * 26 + j) / 26 = i by omega]
    · rwa [show (i * 26 + j) % 26 = j by omega]

theorem shortName?_eq_none {slot : Nat} (h : slotCount ≤ slot) : shortName? slot = none := by
  have hout : letters.length ≤ slot / 26 := by
    change 26 ≤ slot / 26
    unfold slotCount at h
    omega
  simp [shortName?, List.getElem?_eq_none hout]

end Dialect

namespace Naming

variable {d : Dialect} {n m : Naming} {t : Token} {v : Text} {slot : Nat}

/-- Whether a text can be given as a short name. -/
structure Available (d : Dialect) (n : Naming) (v : Text) : Prop where
  stock : Dialect.IsStock v
  unreserved : d.isReserved v = false
  undeclared : ∀ e ∈ n.declared, e.2 ≠ v
  unwritten : v ∉ n.written
  apart : ∀ k ∈ n.kept, significant k.varName ≠ v

theorem isTaken_eq_false_iff : n.isTaken v = false ↔
    (∀ e ∈ n.declared, e.2 ≠ v) ∧ v ∉ n.written ∧ ∀ k ∈ n.kept, significant k.varName ≠ v := by
  simp [isTaken, and_assoc]

theorem available_iff : Available d n v ↔
    (∃ slot, Dialect.shortName? slot = some v) ∧ n.isTaken v = false ∧ d.isReserved v = false := by
  rw [isTaken_eq_false_iff, Dialect.exists_slot_iff]
  constructor
  · intro h
    exact ⟨h.stock, ⟨h.undeclared, h.unwritten, h.apart⟩, h.unreserved⟩
  · rintro ⟨hs, ⟨hd, hw, hk⟩, hr⟩
    exact ⟨hs, hr, hd, hw, hk⟩

def Spent (d : Dialect) (n : Naming) (slot : Nat) : Prop :=
  ∀ v, Dialect.shortName? slot = some v → n.isTaken v = true ∨ d.isReserved v = true

/-- What `m` knows of the names known to `n`, the place in the stock apart. -/
structure Retains (n m : Naming) : Prop where
  declared : ∀ e ∈ n.declared, e ∈ m.declared
  written : ∀ name ∈ n.written, name ∈ m.written
  kept : ∀ k ∈ n.kept, k ∈ m.kept

theorem Retains.isTaken (h : Retains n m) (hv : n.isTaken v = true) : m.isTaken v = true := by
  by_contra hm
  obtain ⟨hd, hw, hk⟩ := isTaken_eq_false_iff.1 (Bool.eq_false_iff.2 hm)
  have hfree : n.isTaken v = false := isTaken_eq_false_iff.2
    ⟨fun e he => hd e (h.declared e he), fun hmem => hw (h.written v hmem),
      fun k hmem => hk k (h.kept k hmem)⟩
  rw [hfree] at hv
  cases hv

theorem Spent.mono (hs : Spent d n slot) (h : Retains n m) : Spent d m slot := fun v hv =>
  (hs v hv).imp_left h.isTaken

theorem retains_declare : Retains n (n.declare t v) :=
  ⟨fun _ he => List.mem_append_left _ he, fun _ hw => hw, fun _ hk => hk⟩

theorem retains_write : Retains n (n.write v) := by
  unfold write
  split
  · exact ⟨fun _ he => he, fun _ hw => hw, fun _ hk => hk⟩
  · exact ⟨fun _ he => he, fun _ hw => List.mem_append_left _ hw, fun _ hk => hk⟩

theorem retains_keep : Retains n (n.keep t) := by
  unfold keep
  split
  · exact ⟨fun _ he => he, fun _ hw => hw, fun _ hk => hk⟩
  · exact ⟨fun _ he => he, fun _ hw => hw, fun _ hk => List.mem_append_left _ hk⟩

theorem lastFree_eq_none (h : lastFree d n slot = none) : ∀ i < slot, Spent d n i := by
  induction slot with
  | zero =>
    intro i hi
    omega
  | succ slot ih =>
    intro i hi v hv
    have hlow (hrest : lastFree d n slot = none) (hne : i ≠ slot) :
        n.isTaken v = true ∨ d.isReserved v = true := ih hrest i (by omega) v hv
    simp only [lastFree] at h
    split at h
    · rename_i hnone
      refine hlow h ?_
      rintro rfl
      rw [hnone] at hv
      cases hv
    · rename_i short hs
      split at h
      · rename_i htaken
        by_cases hi' : i = slot
        · subst hi'
          rw [hs] at hv
          cases hv
          exact Bool.or_eq_true_iff.1 htaken
        · exact hlow h hi'
      · cases h

theorem lastFree_eq_some {next : Nat} (h : lastFree d n slot = some (v, next)) :
    Available d n v ∧ Dialect.shortName? next = some v ∧
      ∀ i, next < i → i < slot → Spent d n i := by
  induction slot with
  | zero => cases h
  | succ slot ih =>
    simp only [lastFree] at h
    -- a slot that is passed over is spent
    have hpass (hrest : lastFree d n slot = some (v, next)) (hslot : Spent d n slot) :
        Available d n v ∧ Dialect.shortName? next = some v ∧
          ∀ i, next < i → i < slot + 1 → Spent d n i := by
      obtain ⟨hv, hname, hspent⟩ := ih hrest
      refine ⟨hv, hname, fun i hlo hhi => ?_⟩
      by_cases hi : i = slot
      · exact hi ▸ hslot
      · exact hspent i hlo (by omega)
    split at h
    · rename_i hnone
      refine hpass h fun w hw => ?_
      rw [hnone] at hw
      cases hw
    · rename_i short hs
      split at h
      · rename_i htaken
        refine hpass h fun w hw => ?_
        rw [hs] at hw
        cases hw
        exact Bool.or_eq_true_iff.1 htaken
      · rename_i hfree
        cases h
        simp only [Bool.or_eq_true, not_or, Bool.not_eq_true] at hfree
        refine ⟨available_iff.2 ⟨⟨_, hs⟩, hfree.1, hfree.2⟩, hs, fun i hlo hhi => ?_⟩
        omega

/-- What a program does to the names that are known while it is read: it declares them, keeps them
and uses short ones. -/
inductive Notes : Naming → Naming → Prop
  | declare {n m : Naming} (k : Nat) (e : Declaration) (h : (e.apply k n).outcome = .ok m) :
    Notes n m
  | keep (n : Naming) (t : Token) : Notes n (n.keep t)
  | write (n : Naming) (name : Text) : Notes n (n.write name)

def Allocates (d : Dialect) (n m : Naming) : Prop :=
  ∃ (t : Token) (short : Text), n.allocate d t = .ok (short, m)

/-- What is done to the names that are known. -/
def Operation (d : Dialect) (n m : Naming) : Prop := Notes n m ∨ Allocates d n m

structure Stocked (d : Dialect) (n : Naming) : Prop where
  keys : (n.declared.map Prod.fst).Nodup
  shorts : (n.declared.map Prod.snd).Nodup
  passed : ∀ slot, n.free ≤ slot → Spent d n slot

theorem stocked_empty : Stocked d {} where
  keys := List.nodup_nil
  shorts := List.nodup_nil
  passed slot h v hv := by
    rw [Dialect.shortName?_eq_none h] at hv
    cases hv

theorem nodup_declare {α : Type} {f : Text × Text → α}
    (h : (n.declared.map f).Nodup) (hnew : ∀ e ∈ n.declared, f e ≠ f (t.qualified, v)) :
    ((n.declare t v).declared.map f).Nodup := by
  have hmap : (n.declare t v).declared.map f = n.declared.map f ++ [f (t.qualified, v)] := by
    simp [declare]
  rw [hmap, List.nodup_append]
  refine ⟨h, by simp, fun a ha b hb => ?_⟩
  obtain ⟨e, he, rfl⟩ := List.mem_map.1 ha
  rw [List.mem_singleton.1 hb]
  exact hnew e he

theorem Stocked.of_retains (h : Stocked d n) (hr : Retains n m) (hd : m.declared = n.declared)
    (hf : m.free = n.free) : Stocked d m where
  keys := hd ▸ h.keys
  shorts := hd ▸ h.shorts
  passed slot hle := (h.passed slot (hf ▸ hle)).mono hr

theorem Stocked.write (h : Stocked d n) : Stocked d (n.write v) := by
  refine h.of_retains retains_write ?_ ?_ <;> unfold Naming.write <;> split <;> rfl

theorem Stocked.keep (h : Stocked d n) : Stocked d (n.keep t) := by
  refine h.of_retains retains_keep ?_ ?_ <;> unfold Naming.keep <;> split <;> rfl

theorem shortOf?_eq_none_iff :
    n.shortOf? t = none ↔ ∀ e ∈ n.declared, e.1 ≠ t.qualified := by
  refine ⟨fun h e he heq => ?_, shortOf?_eq_none⟩
  have := List.lookup_eq_none_iff.1 h e he
  simp [heq] at this

/-- The slots above the one that was given were passed over, and the one that was given is taken. -/
theorem Stocked.allocate (h : Stocked d n) (ha : n.allocate d t = .ok (v, m)) : Stocked d m := by
  rcases allocate_cases ha with ⟨-, rfl⟩ | ⟨hnone, next, hlast, rfl⟩
  · exact h
  · obtain ⟨hv, hname, hspent⟩ := lastFree_eq_some hlast
    refine ⟨nodup_declare h.keys (shortOf?_eq_none_iff.1 hnone),
      nodup_declare h.shorts hv.undeclared, fun slot hle w hw => ?_⟩
    replace hle : next ≤ slot := hle
    rcases Nat.eq_or_lt_of_le hle with rfl | hlt
    · rw [hname] at hw
      cases hw
      exact .inl (by simp [isTaken, declare])
    · have hold : Spent d n slot := by
        by_cases hfree : n.free ≤ slot
        · exact h.passed slot hfree
        · exact hspent slot hlt (by omega)
      exact (hold w hw).imp_left retains_declare.isTaken

theorem Operation.stocked (ho : Operation d n m) (h : Stocked d n) : Stocked d m := by
  rcases ho with hn | ⟨t, short, ha⟩
  · cases hn with
    | declare k e he =>
      rcases Declaration.apply_cases he with rfl | ⟨-, rfl⟩ | ⟨short, -, rfl, -, hnew⟩
      · exact h.write
      · exact h.keep
      · exact ⟨nodup_declare h.keys fun g hg => (hnew g hg).1,
          nodup_declare h.shorts fun g hg => (hnew g hg).2,
          fun slot hle => (h.passed slot hle).mono retains_declare⟩
    | keep => exact h.keep
    | write => exact h.write
  · exact h.allocate ha

theorem stocked_of_operations (h : ReflTransGen (Operation d) {} n) : Stocked d n := by
  induction h with
  | refl => exact stocked_empty
  | tail _ ho ih => exact ho.stocked ih

theorem Stocked.lastFree_eq_none_iff (h : Stocked d n) :
    lastFree d n n.free = none ↔ ¬∃ v, Available d n v := by
  constructor
  · rintro hnone ⟨v, hv⟩
    obtain ⟨⟨slot, hname⟩, hfree, hres⟩ := available_iff.1 hv
    have hspent : Spent d n slot := by
      by_cases hlow : slot < n.free
      · exact lastFree_eq_none hnone slot hlow
      · exact h.passed slot (by omega)
    rcases hspent v hname with ht | hr
    · rw [ht] at hfree
      cases hfree
    · rw [hr] at hres
      cases hres
  · intro hnone
    cases hl : lastFree d n n.free with
    | none => rfl
    | some r => exact absurd ⟨r.1, (lastFree_eq_some hl).1⟩ hnone

theorem allocate_known (h : n.shortOf? t = some v) : n.allocate d t = .ok (v, n) := by
  simp [allocate, h]

/-- After any operations, short names are given one to one. A variable keeps the short name that it
has; a new one is given a name of the stock that is free then, and it is refused one exactly when
none is free. -/
theorem allocate_exact (h : ReflTransGen (Operation d) {} n) :
    (n.declared.map Prod.fst).Nodup ∧ (n.declared.map Prod.snd).Nodup ∧
      ∀ t, (∀ v, n.shortOf? t = some v → n.allocate d t = .ok (v, n)) ∧
        (n.shortOf? t = none →
          (∀ v m, n.allocate d t = .ok (v, m) → Available d n v ∧
            m.declared = n.declared ++ [(t.qualified, v)] ∧ m.written = n.written ∧
            m.kept = n.kept) ∧
          ((∃ e, n.allocate d t = .error e) ↔ ¬∃ v, Available d n v) ∧
          ∀ e, n.allocate d t = .error e →
            e.reason = "Too many variables used (max=676): " ++ t.value ∧
              e.position? = some t.pos) := by
  have hs := stocked_of_operations h
  refine ⟨hs.keys, hs.shorts, fun t => ⟨fun v => allocate_known, fun hnew => ⟨?_, ?_, ?_⟩⟩⟩
  · intro v m ha
    rcases allocate_cases ha with ⟨hold, -⟩ | ⟨-, slot, hlast, rfl⟩
    · rw [hnew] at hold
      cases hold
    · exact ⟨(lastFree_eq_some hlast).1, rfl, rfl, rfl⟩
  · rw [← hs.lastFree_eq_none_iff]
    unfold allocate
    rw [hnew]
    cases lastFree d n n.free <;> simp
  · intro e he
    unfold allocate at he
    rw [hnew] at he
    cases hl : lastFree d n n.free with
    | none =>
      simp only [hl, Except.error.injEq] at he
      subst he
      exact ⟨rfl, rfl⟩
    | some r => simp [hl] at he

theorem allocate_behind_declared_and_written :
    ∃ (n m : Naming) (total score : Token), ReflTransGen (Operation .msx) {} n ∧
      n.shortOf? total = some "zz".toList ∧ n.allocate .msx total = .ok ("zz".toList, n) ∧
      n.shortOf? score = none ∧ n.allocate .msx score = .ok ("zx".toList, m) ∧
      Available .msx n "zx" ∧ m.declared = n.declared ++ [(score.qualified, "zx".toList)] := by
  let total : Token := { kind := .identifier, value := "total" }
  let score : Token := { kind := .identifier, value := "score" }
  let declared : Naming := declare {} total "zz"
  let n : Naming := declared.write "zy"
  have hdeclared : Operation .msx {} declared :=
    .inl (.declare 0 { long := total, short := some { value := "zz" } } rfl)
  have hn : ReflTransGen (Operation .msx) {} n :=
    .tail (.single hdeclared) (.inl (.write declared "zy"))
  obtain ⟨-, -, hall⟩ := allocate_exact hn
  have hknown : n.shortOf? total = some "zz".toList := by decide
  have hnew : n.shortOf? score = none := by decide
  have hgiven : n.allocate .msx score =
      .ok ("zx".toList, { n.declare score "zx" with free := 673 }) := by decide +kernel
  obtain ⟨havailable, hm, -⟩ := ((hall score).2 hnew).1 _ _ hgiven
  exact ⟨n, _, total, score, hn, hknown, (hall total).1 _ hknown, hnew, hgiven, havailable, hm⟩

end Naming

/-! The names of a conversion come about by these operations. -/

open Naming (Notes Allocates Operation)

variable {d : Dialect} {quiet : Bool} {σ τ : Session}

theorem Naming.notes_of_meet {n m : Naming} {t : Token} (h : (n.meet t).outcome = .ok m) :
    ReflTransGen Notes n m := by
  unfold meet at h
  dsimp only at h
  split at h
  · cases h
    exact .refl
  · split at h
    · cases h
      exact .single (.write n t.varName)
    · cases h
      exact .refl

theorem Naming.notes_of_keepWritten {n m : Naming} {t : Token}
    (h : (n.keepWritten t).outcome = .ok m) : ReflTransGen Notes n m := by
  unfold keepWritten at h
  dsimp only at h
  split at h
  · cases h
  · split at h
    · cases h
    · cases h
      exact .single (.keep n t)

theorem Naming.allocates_of_shorten {n m : Naming} {t u : Token}
    (h : n.shorten d t = .ok (u, m)) : ReflTransGen (Allocates d) n m := by
  unfold shorten at h
  split at h
  · cases h
    exact .refl
  · obtain ⟨⟨short, known⟩, ha, he⟩ := Outcome.map_eq_ok_iff.1 h
    cases he
    exact .single ⟨t, short, ha⟩

theorem Conversion.declareLine_notes {t : Token} {rest : List Token}
    {r : { left : List Token // left.length ≤ rest.length }}
    (h : declareLine d quiet t rest σ = .ok r τ) : ReflTransGen Notes σ.naming τ.naming := by
  fun_induction declareLine d quiet t rest generalizing σ with
  | case1 => exact absurd h throw_ne_ok
  | case2 t rest entry after hr ih =>
    obtain ⟨u, ρ, ha, h⟩ := bind_eq_ok_iff.1 h
    obtain ⟨k, hk⟩ := outcome_enter ha
    have hentry : Notes σ.naming ρ.naming := .declare k entry hk
    split at h
    · exact absurd h throw_ne_ok
    · rename_i u left _
      split at h
      · obtain ⟨f, ρ'', hline, h⟩ := bind_eq_ok_iff.1 h
        obtain ⟨-, rfl⟩ := pure_eq_ok_iff.1 h
        exact .head hentry (ih u left rfl hline)
      · split at h
        · obtain ⟨-, rfl⟩ := pure_eq_ok_iff.1 h
          exact .single hentry
        · exact absurd h throw_ne_ok

theorem Directive.run_notes {tables : Tables} {out input : List Token} {r : Tables × List Token}
    (h : run d quiet tables out input σ = .ok r τ) : ReflTransGen Notes σ.naming τ.naming := by
  fun_induction run d quiet tables out input generalizing σ with
  | case1 => exact absurd h Conversion.throw_ne_ok
  | case2 =>
    obtain ⟨-, rfl⟩ := Conversion.pure_eq_ok_iff.1 h
    exact .refl
  | case3 tables out t rest _ _ ih =>
    obtain ⟨left, ρ, hd, h⟩ := Conversion.bind_eq_ok_iff.1 h
    exact (Conversion.declareLine_notes hd).trans (ih left.1 left.2 h)
  | case4 => exact absurd h Conversion.throw_ne_ok
  | case5 tables out t rest _ _ p hstep ih => exact ih h

theorem Merge.step_notes {splice : Token → Token → Conversion (List Token)} {total : Nat}
    {p q : Point} (h : Step d quiet splice total p q)
    (hs : ∀ t name σ body τ, splice t name σ = .ok body τ → ReflTransGen Notes σ.naming τ.naming) :
    ReflTransGen Notes p.session.naming q.session.naming := by
  cases h with
  | included _ _ hb => exact hs _ _ _ _ _ hb
  | block => exact .refl
  | named _ hm =>
    rcases meetVariable_cases hm with ⟨last, -, -, ha⟩ | ⟨-, ha⟩
    · exact Naming.notes_of_keepWritten ha
    · exact Naming.notes_of_meet ha
  | token => exact .refl

theorem Merge.reaches_notes {splice : Token → Token → Conversion (List Token)} {total : Nat}
    {p q : Point} (h : Reaches d quiet splice total p q)
    (hs : ∀ t name σ body τ, splice t name σ = .ok body τ → ReflTransGen Notes σ.naming τ.naming) :
    ReflTransGen Notes p.session.naming q.session.naming := by
  induction h with
  | refl => exact .refl
  | tail _ hstep ih => exact ih.trans (step_notes hstep hs)

open Branch in
theorem Branch.convert_notes {s : Setting} {depth : Nat} {b : Branch} {listing : Listing}
    {lexed merged : List Token} (hx : Lexer.lex s.dialect listing = .ok lexed)
    (h : convert s depth b lexed σ = .ok merged τ) : ReflTransGen Notes σ.naming τ.naming := by
  refine convert_induct (P := fun _ _ _ σ τ => ReflTransGen Notes σ.naming τ.naming) ?_ hx h
  intro depth b listing lexed placed merged σ ready τ hx hf hm hs
  obtain ⟨_, _, _, _, _, _, rfl, -, -, hr, -, rfl⟩ := Merge.reaches_of_merge (front_sound hx hf) hm
  obtain ⟨tables, carried, before, after, hd, -, hbefore, hafter⟩ := front_cases hf
  have hfront : ReflTransGen Notes σ.naming ready.naming := by
    rw [← hbefore, hafter]
    unfold Directive.carryOut at hd
    split at hd
    · exact Directive.run_notes hd
    · exact absurd hd Conversion.throw_ne_ok
  refine hfront.trans (Merge.reaches_notes hr fun t name σ spliced τ hspliced => ?_)
  obtain ⟨_, _, _, ready, hinner, -, hready⟩ := hs _ _ _ _ _ hspliced
  exact hready ▸ hinner

theorem Numbering.walk_allocates {scale : Scale} {s last : State} {input : List Token}
    (h : walk d scale s input σ = .ok last τ) : ReflTransGen (Allocates d) σ.naming τ.naming := by
  induction input generalizing s σ with
  | nil => exact absurd h Conversion.throw_ne_ok
  | cons t rest ih =>
    rcases walk_cases h with ⟨-, -, rfl⟩ | ⟨-, u, known, hn, hw⟩ | ⟨-, -, s', -, hw⟩
    · exact .refl
    · exact (Naming.allocates_of_shorten hn).trans (ih hw)
    · exact ih hw

namespace Compile

variable {s : Setting} {o : Options} {listing : Listing} {c : Compiled}

/-- The names are noted while the files are read, and short names are given while lines are
numbered. -/
theorem Passes.operations {merged : List Token} {numbered : Numbering.Numbered}
    {before after : Session} (hp : Passes s o listing σ c τ merged numbered before after) :
    ReflTransGen Notes σ.naming after.naming ∧
      ReflTransGen (Allocates s.dialect) after.naming τ.naming := by
  refine ⟨hp.started ▸ Branch.convert_notes hp.lexed hp.converted, ?_⟩
  obtain ⟨ready, final, hready, hfinal, hnum⟩ := hp.numbering
  obtain ⟨start, rest, heq⟩ : ∃ start rest, whole o merged = start :: rest := by
    cases hw : whole o merged with
    | nil =>
      rw [hw] at hnum
      exact absurd hnum Conversion.throw_ne_ok
    | cons start rest => exact ⟨start, rest, rfl⟩
  rw [heq] at hnum
  obtain ⟨last, hw, -⟩ := Numbering.number_cases hnum
  rw [hfinal, ← hready]
  exact Numbering.walk_allocates hw

/-- The names that a compilation leaves come about by operations on those it started from. -/
theorem naming_operations (h : ofListing s o listing σ = .ok c τ) :
    ReflTransGen (Operation s.dialect) σ.naming τ.naming := by
  obtain ⟨merged, numbered, before, after, hp⟩ := exists_passes h
  obtain ⟨hnotes, hallocates⟩ := hp.operations
  have hread : ReflTransGen (Operation s.dialect) σ.naming after.naming :=
    ReflTransGen.mono (fun _ _ h => Or.inl h) _ _ hnotes
  have hgiven : ReflTransGen (Operation s.dialect) after.naming τ.naming :=
    ReflTransGen.mono (fun _ _ h => Or.inr h) _ _ hallocates
  exact hread.trans hgiven

end Compile

end ClassicBasic
