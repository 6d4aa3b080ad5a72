import ClassicBasic.Proofs.Allocation

/-!
# Short names and keywords

No variable is given a keyword as its short name on first use. A declared short name is another
matter: of a declaration only the long name is looked up among the keywords, so which short names are
keywords is decided by what the program declares.
-/

set_option autoImplicit false

namespace ClassicBasic

open Relation (ReflTransGen)

/-- Carrying out an entry with a short name asks only whether either name is in use. -/
theorem Declaration.accepts_short_iff {e : Declaration} {n : Naming} {short : Token}
    (k : Nat) (hs : e.short = some short) : (∃ m, (e.apply k n).outcome = .ok m) ↔
      n.isKept e.long = false ∧
        ∀ g ∈ n.declared, g.1 ≠ e.long.qualified ∧ g.2 ≠ short.lower := by
  constructor
  · rintro ⟨m, h⟩
    unfold apply at h
    rw [hs] at h
    simp only [fixShort] at h
    split at h
    · cases h
    · rename_i hnone
      simp only [List.find?_eq_none, Naming.mem_walked, Bool.or_eq_true, beq_iff_eq,
        not_or] at hnone
      split at h
      · cases h
      · rename_i hk
        exact ⟨by simpa using hk, hnone⟩
  · rintro ⟨hk, hnew⟩
    have hnone : (Naming.walked k n.declared).find?
        (fun g => g.1 == e.long.qualified || g.2 == short.lower) = none := by
      simpa [List.find?_eq_none, Naming.mem_walked] using hnew
    exact ⟨n.declare e.long short.lower, by simp [apply, hs, fixShort, hnone, hk]⟩

namespace Naming

/-- Whether no variable has a keyword as its short name. -/
def Unreserved (d : Dialect) (n : Naming) : Prop := ∀ e ∈ n.declared, d.isReserved e.2 = false

variable {d : Dialect} {n m : Naming}

theorem declared_of_allocates (h : Allocates d n m) :
    ∃ given, m.declared = n.declared ++ given ∧
      ∀ e ∈ given, Dialect.IsStock e.2 ∧ d.isReserved e.2 = false := by
  obtain ⟨t, short, ha⟩ := h
  rcases allocate_cases ha with ⟨-, rfl⟩ | ⟨-, slot, hlast, rfl⟩
  · exact ⟨[], by simp, by simp⟩
  · obtain ⟨havailable, -⟩ := lastFree_eq_some hlast
    refine ⟨[(t.qualified, short)], rfl, ?_⟩
    simpa using ⟨havailable.stock, havailable.unreserved⟩

/-- What is declared stays in front of what is given on first use, and no keyword is given. -/
theorem declared_of_allocations (h : ReflTransGen (Allocates d) n m) :
    ∃ given, m.declared = n.declared ++ given ∧
      ∀ e ∈ given, Dialect.IsStock e.2 ∧ d.isReserved e.2 = false := by
  induction h with
  | refl => exact ⟨[], by simp, by simp⟩
  | tail _ hstep ih =>
    obtain ⟨before, hbefore, hfirst⟩ := ih
    obtain ⟨last, hlast, hnew⟩ := declared_of_allocates hstep
    refine ⟨before ++ last, by rw [hlast, hbefore, List.append_assoc], fun e he => ?_⟩
    rcases List.mem_append.1 he with he | he
    · exact hfirst e he
    · exact hnew e he

theorem unreserved_iff_of_append {given : List (Text × Text)}
    (h : m.declared = n.declared ++ given) (hg : ∀ e ∈ given, d.isReserved e.2 = false) :
    Unreserved d m ↔ Unreserved d n := by
  unfold Unreserved
  rw [h, List.forall_mem_append]
  exact and_iff_left hg

end Naming

namespace Compile

open Naming (Unreserved)

variable {s : Setting} {o : Options} {listing : Listing} {c : Compiled} {σ τ : Session}

/-- The short names of a compiled program are the ones declared in its files, with stock names behind
them that are no keywords. So none is a keyword exactly when none of the declared ones is. -/
theorem unreserved_iff (h : ofListing s o listing σ = .ok c τ) :
    ∃ merged numbered before after, Passes s o listing σ c τ merged numbered before after ∧
      (∃ given, τ.naming.declared = after.naming.declared ++ given ∧
        ∀ e ∈ given, Dialect.IsStock e.2 ∧ s.dialect.isReserved e.2 = false) ∧
      (Unreserved s.dialect τ.naming ↔ Unreserved s.dialect after.naming) := by
  obtain ⟨merged, numbered, before, after, hp⟩ := exists_passes h
  obtain ⟨given, heq, hgiven⟩ := Naming.declared_of_allocations hp.operations.2
  exact ⟨merged, numbered, before, after, hp, ⟨given, heq, hgiven⟩,
    Naming.unreserved_iff_of_append heq fun e he => (hgiven e he).2⟩

theorem declared_and_given_unreserved :
    ∃ c τ merged numbered before after,
      ofListing (lone .msx) { header := false }
        (Listing.ofText "declare total:tt\nscore=total" "/main" 4) {} = .ok c τ ∧
      Passes (lone .msx) { header := false }
        (Listing.ofText "declare total:tt\nscore=total" "/main" 4) {} c τ merged numbered
        before after ∧
      Unreserved .msx after.naming ∧ Unreserved .msx τ.naming := by
  have hrun : given? (lone .msx) { header := false }
      (Listing.ofText "declare total:tt\nscore=total" "/main" 4) =
      some [("total@/main".toList, "tt".toList), ("score@/main".toList, "zz".toList)] := by
    decide +kernel
  obtain ⟨c, τ, hτ, hgiven⟩ := exists_of_given? hrun
  obtain ⟨merged, numbered, before, after, hp, ⟨more, heq, -⟩, hiff⟩ := unreserved_iff hτ
  have hdeclared : Unreserved .msx after.naming := by
    intro e he
    have hmem : e ∈ τ.naming.declared := heq ▸ List.mem_append_left _ he
    rw [hgiven] at hmem
    simp only [List.mem_cons, List.not_mem_nil, or_false] at hmem
    rw [Dialect.isReserved, Dialect.reservedWords_spelled]
    rcases hmem with rfl | rfl <;> decide
  exact ⟨c, τ, merged, numbered, before, after, hτ, hp, hdeclared, hiff.2 hdeclared⟩

/-- A keyword can be declared as a short name, and the variable is then written as that keyword. -/
theorem declared_keyword_not_unreserved :
    ∃ c τ, ofListing (lone .msx) { header := false }
        (Listing.ofText "declare total:to\ntotal=1" "/main" 4) {} = .ok c τ ∧
      ¬Unreserved .msx τ.naming ∧
      (outcome (lone .msx) { header := false }
        (Listing.ofText "declare total:to\ntotal=1" "/main" 4)).map Compiled.code =
        some ["10 to=1".toList] := by
  obtain ⟨hrun, hcode⟩ : given? (lone .msx) { header := false }
      (Listing.ofText "declare total:to\ntotal=1" "/main" 4) =
        some [("total@/main".toList, "to".toList)] ∧
      (outcome (lone .msx) { header := false }
        (Listing.ofText "declare total:to\ntotal=1" "/main" 4)).map Compiled.code =
        some ["10 to=1".toList] := by decide +kernel
  obtain ⟨c, τ, hτ, hgiven⟩ := exists_of_given? hrun
  refine ⟨c, τ, hτ, fun hun => ?_, hcode⟩
  have hto : Dialect.isReserved .msx "to" = false :=
    hun ("total@/main".toList, "to".toList) (by rw [hgiven]; exact List.mem_singleton_self _)
  rw [Dialect.isReserved, Dialect.reservedWords_spelled] at hto
  exact absurd hto (by decide)

end Compile

end ClassicBasic
