import ClassicBasic.Proofs.LexedAlike

/-!
# Letter case in programs

A program in other letters is compiled to the same lines in other letters: words, names, labels and
functions are looked up regardless of case, in the program and in the files it includes. One comparison
is of texts as they are written: a call of a function leaves out the setting of a variable to itself. So
where functions are named, a name must not be written in two ways in one of the programs and in one way
in the other.
-/

set_option autoImplicit false

namespace ClassicBasic

open List (Forall₂)
open Token (Like Twins)

variable {d : Dialect}

/-- Whether two lines differ at most in the case of ASCII letters. -/
structure Line.Recased (l l' : Line) : Prop where
  number : l.number = l'.number
  file : l.file = l'.file
  text : l.text.map Char.toLower = l'.text.map Char.toLower

instance : DecidableRel Line.Recased := fun l l' =>
  decidable_of_iff (l.number = l'.number ∧ l.file = l'.file ∧
    l.text.map Char.toLower = l'.text.map Char.toLower)
    ⟨fun h => ⟨h.1, h.2.1, h.2.2⟩, fun h => ⟨h.number, h.file, h.text⟩⟩

theorem Line.Recased.same {l l' : Line} (h : l.Recased l') : l.Same Char.toLower l' := ⟨h.file, h.text⟩

namespace Listing

/-- The tokens of a listing, none if it cannot be lexed. -/
def tokens (d : Dialect) (listing : Listing) : List Token :=
  (Lexer.lex d listing).toOption.getD []

/-- The strings of a listing, names of files among them. -/
def strings (d : Dialect) (listing : Listing) : List Text :=
  ((tokens d listing).filter (·.kind == .string)).map Token.value

/-- Whether two listings differ in nothing but the case of ASCII letters outside strings. -/
structure Recased (d : Dialect) (listing listing' : Listing) : Prop where
  lines : Forall₂ Line.Recased listing listing'
  strings : strings d listing = strings d listing'

/-- Whether functions are named in a listing. -/
def NamesFunctions (d : Dialect) (listing : Listing) : Prop :=
  ∃ t ∈ tokens d listing, t.kind = .functionName

/-- Whether a name of a variable is written like another token in both of two listings or in
neither. -/
def NamedAlike (d : Dialect) (listing listing' : Listing) : Prop :=
  ∀ p ∈ (tokens d listing).zip (tokens d listing'), p.1.kind = .identifier →
    ∀ q ∈ (tokens d listing).zip (tokens d listing'), (p.1.value = q.1.value ↔ p.2.value = q.2.value)

instance (d : Dialect) (listing listing' : Listing) : Decidable (NamedAlike d listing listing') :=
  inferInstanceAs (Decidable (∀ p ∈ (tokens d listing).zip (tokens d listing'), _))

def wording (d : Dialect) (l l' : List Token) : Wording where
  stands v v' := (∃ p ∈ l.zip l', v = p.1.value ∧ v' = p.2.value) ∨
    (d.classify v ≠ some .identifier ∧ v = v')
  renames v v' := ∃ p ∈ l.zip l', p.1.kind = .identifier ∧ p.2.kind = .identifier ∧
    v = p.1.value ∧ v' = p.2.value
  calls := ∃ t ∈ l, t.kind = .functionName

theorem string_filter {l l' : List Token} (h : Forall₂ (Token.Same Char.toLower) l l')
    (hs : (l.filter (·.kind == .string)).map Token.value =
      (l'.filter (·.kind == .string)).map Token.value) :
    ∀ p ∈ l.zip l', p.1.kind = .string → p.1.value = p.2.value := by
  induction h with
  | nil => simp
  | @cons t t' l l' ht _ ih =>
    rw [List.filter_cons, List.filter_cons, ← ht.kind] at hs
    intro p hp hk
    rw [List.zip_cons_cons, List.mem_cons] at hp
    cases hstring : t.kind == .string with
    | true =>
      simp only [hstring, if_true, List.map_cons, List.cons.injEq] at hs
      rcases hp with rfl | hp
      · exact hs.1
      · exact ih hs.2 p hp hk
    | false =>
      simp only [hstring, Bool.false_eq_true, if_false] at hs
      rcases hp with rfl | hp
      · exact absurd hk (beq_eq_false_iff_ne.1 hstring)
      · exact ih hs p hp hk

variable {listing listing' : Listing}

/-- Of the tokens that are compared as they are written, the lexer reads strings only. -/
theorem isString_of_isExact {k : Kind} (hk : k.isExact = true) (hm : k.isMade = false) :
    k = .string := by
  revert hk hm
  cases k <;> decide

/-- Listings that differ in letter case go together if names are told apart alike wherever functions
may be called. -/
theorem matched_of_recased (h : Recased d listing listing')
    (hn : NamesFunctions d listing → NamedAlike d listing listing') :
    Matched d Char.toLower listing listing' := by
  unfold Matched
  rcases (Lexer.lex_same Text.fine_toLower (d := d) (h.lines.imp fun _ _ hl => hl.same)).elim with
    ⟨e, e', hx, hx'⟩ | ⟨l, l', hx, hx', hl⟩
  · rw [hx, hx']
    exact .error _ _
  · rw [hx, hx']
    have hs := h.strings
    have htokens : tokens d listing = l := by rw [tokens, hx]; rfl
    have htokens' : tokens d listing' = l' := by rw [tokens, hx']; rfl
    rw [strings, strings, htokens, htokens'] at hs
    rw [NamesFunctions, NamedAlike, htokens, htokens'] at hn
    have hstrings := string_filter hl hs
    have hlexed := Lexer.lex_lexed hx
    have hlexed' := Lexer.lex_lexed hx'
    have hS : Spelling d Char.toLower (wording d l l') := by
      refine ⟨Text.fine_toLower, fun hv => .inr ⟨hv, rfl⟩, ?_⟩
      rintro v v' w w' hcalls ⟨p, hp, hk, hk', rfl, rfl⟩ hw
      rcases hw with ⟨q, hq, rfl, rfl⟩ | ⟨hw, rfl⟩
      · exact hn hcalls p hp hk q hq
      · have hname := (hlexed _ (List.of_mem_zip hp).1).toLawful.classified (by rw [hk]; rfl)
        have hname' := (hlexed' _ (List.of_mem_zip hp).2).toLawful.classified (by rw [hk']; rfl)
        rw [hk] at hname
        rw [hk'] at hname'
        exact ⟨fun he => absurd (he ▸ hname) hw, fun he => absurd (he ▸ hname') hw⟩
    have htwins : Forall₂ (Twins d Char.toLower (wording d l l')) l l' := by
      refine List.forall₂_iff_zip.2 ⟨hl.length_eq, fun {t t'} hp => ?_⟩
      have ht := (List.forall₂_iff_zip.1 hl).2 hp
      have hlaw := hlexed t (List.of_mem_zip hp).1
      refine ⟨⟨ht.kind, hlaw.toLawful, (hlexed' t' (List.of_mem_zip hp).2).toLawful, fun _ => ht.file,
        fun _ => ht.value, fun he => ?_⟩, fun _ => .inl ⟨_, hp, rfl, rfl⟩,
        fun hk => ⟨_, hp, hk, ht.kind ▸ hk, rfl, rfl⟩, fun hk => ⟨t, (List.of_mem_zip hp).1, hk⟩⟩
      exact hstrings _ hp (isString_of_isExact he hlaw.unmade)
    obtain ⟨start, newline, rest, rfl, hstart, hnewline⟩ := Lexer.lex_start hx
    obtain ⟨start', newline', rest', rfl, -, hnewline'⟩ := Lexer.lex_start hx'
    rw [List.forall₂_cons, List.forall₂_cons] at htwins
    exact .ok ⟨_, hS, start, newline, rest, start', newline', rest', rfl, rfl, htwins.1,
      by simp [hstart], ⟨hnewline, (hlexed newline (by simp)).toLawful⟩,
      ⟨hnewline', (hlexed' newline' (by simp)).toLawful⟩, runs_of_forall₂ htwins.2.2 true⟩

end Listing

/-- Whether two shelves have the same files in other letters. -/
structure Shelf.Recased (d : Dialect) (shelf shelf' : Shelf) : Prop where
  size : shelf.size = shelf'.size
  missing {path : Text} {e : LoadError} : shelf.load path = .error e ↔ shelf'.load path = .error e
  found {path : Text} {listing listing' : Listing} : shelf.load path = .ok listing →
    shelf'.load path = .ok listing' → Listing.Recased d listing listing' ∧
      (Listing.NamesFunctions d listing → Listing.NamedAlike d listing listing')

theorem Shelf.Recased.matched {shelf shelf' : Shelf} (h : Recased d shelf shelf') :
    Matched d Char.toLower shelf shelf' where
  size := h.size
  missing := h.missing
  found hx hx' := Listing.matched_of_recased (h.found hx hx').1 (h.found hx hx').2

namespace Compile

variable {s : Setting} {shelf : Shelf} {o : Options} {listing listing' : Listing} {σ : Session}

/-- A program in other letters is compiled to the same lines in other letters, or neither of the two is
compiled. -/
theorem code_recased (h : Listing.Recased s.dialect listing listing')
    (hshelf : Shelf.Recased s.dialect s.shelf shelf)
    (hn : Listing.NamesFunctions s.dialect listing → Listing.NamedAlike s.dialect listing listing') :
    Conversion.Both
      (fun c c' => Forall₂ (fun v v' : Text => v.map Char.toLower = v'.map Char.toLower) c.code c'.code)
      (ofListing s o listing σ) (ofListing { s with shelf } o listing' σ) := by
  have hmatched := Listing.matched_of_recased h hn
  refine ofListing_both Text.fine_toLower hmatched ?_ ⟨Naming.alike_refl _, rfl⟩
  rintro l l' τ τ' hx ⟨S, hS, hl⟩ - hτ
  rw [← hshelf.size]
  exact Branch.convert_both hshelf.matched hS hx hl hτ

/-- A call with the function's own name for its argument, written in two ways that go together. -/
theorem call_in_capitals_recased :
    ∃ c τ c' τ',
      ofListing (lone .msx) { header := false }
        (Listing.ofText "func .f(a)\nret\n.f(a):print \"a\"" "/main" 4) {} = .ok c τ ∧
      ofListing (lone .msx) { header := false }
        (Listing.ofText "FUNC .F(A)\nRet\n.f(A):PRINT \"a\"" "/main" 4) {} = .ok c' τ' ∧
      Forall₂ (fun v v' : Text => v.map Char.toLower = v'.map Char.toLower) c.code c'.code := by
  -- the run and the comparisons share the reading of the listings
  obtain ⟨hrun, hlines, hstrings, hnamed⟩ : (outcome (lone .msx) { header := false }
        (Listing.ofText "func .f(a)\nret\n.f(a):print \"a\"" "/main" 4)).isSome = true ∧
      Forall₂ Line.Recased (Listing.ofText "func .f(a)\nret\n.f(a):print \"a\"" "/main" 4)
        (Listing.ofText "FUNC .F(A)\nRet\n.f(A):PRINT \"a\"" "/main" 4) ∧
      Listing.strings .msx (Listing.ofText "func .f(a)\nret\n.f(a):print \"a\"" "/main" 4) =
        Listing.strings .msx (Listing.ofText "FUNC .F(A)\nRet\n.f(A):PRINT \"a\"" "/main" 4) ∧
      Listing.NamedAlike .msx (Listing.ofText "func .f(a)\nret\n.f(a):print \"a\"" "/main" 4)
        (Listing.ofText "FUNC .F(A)\nRet\n.f(A):PRINT \"a\"" "/main" 4) := by decide +kernel
  obtain ⟨c, hc⟩ := Option.isSome_iff_exists.1 hrun
  obtain ⟨τ, hτ⟩ := exists_of_outcome hc
  have hshelf : Shelf.Recased .msx (lone .msx).shelf (lone .msx).shelf := by
    refine ⟨rfl, Iff.rfl, fun hx => ?_⟩
    cases hx
  have hboth := @code_recased (lone .msx) _ { header := false } _ _ {} ⟨hlines, hstrings⟩ hshelf fun _ => hnamed
  rw [hτ] at hboth
  generalize ofListing { lone .msx with shelf := (lone .msx).shelf } { header := false }
    (Listing.ofText "FUNC .F(A)\nRet\n.f(A):PRINT \"a\"" "/main" 4) {} = x at hboth
  cases hboth with
  | ok hcode => exact ⟨c, τ, _, _, hτ, rfl, hcode⟩

/-- A call leaves out the setting of an argument to itself where both are written in the same letters
only. -/
theorem call_argument_not_recased :
    Listing.Recased .msx (Listing.ofText "func .f(a)\nret\n.f(a)" "/main" 4)
        (Listing.ofText "func .f(a)\nret\n.f(A)" "/main" 4) ∧
      ∃ c τ c' τ',
        ofListing (lone .msx) { header := false }
          (Listing.ofText "func .f(a)\nret\n.f(a)" "/main" 4) {} = .ok c τ ∧
        ofListing (lone .msx) { header := false }
          (Listing.ofText "func .f(a)\nret\n.f(A)" "/main" 4) {} = .ok c' τ' ∧
        c.code = ["10 return", "20 gosub 10"] ∧ c'.code = ["10 return", "20 a=A:gosub 10"] ∧
        ¬Forall₂ (fun v v' : Text => v.map Char.toLower = v'.map Char.toLower) c.code c'.code := by
  obtain ⟨hrun, hrun', hlines, hstrings⟩ : (outcome (lone .msx) { header := false }
        (Listing.ofText "func .f(a)\nret\n.f(a)" "/main" 4)).map Compiled.code =
        some ["10 return".toList, "20 gosub 10".toList] ∧
      (outcome (lone .msx) { header := false }
        (Listing.ofText "func .f(a)\nret\n.f(A)" "/main" 4)).map Compiled.code =
        some ["10 return".toList, "20 a=A:gosub 10".toList] ∧
      Forall₂ Line.Recased (Listing.ofText "func .f(a)\nret\n.f(a)" "/main" 4)
        (Listing.ofText "func .f(a)\nret\n.f(A)" "/main" 4) ∧
      Listing.strings .msx (Listing.ofText "func .f(a)\nret\n.f(a)" "/main" 4) =
        Listing.strings .msx (Listing.ofText "func .f(a)\nret\n.f(A)" "/main" 4) := by decide +kernel
  obtain ⟨c, hc, hcode⟩ := Option.map_eq_some_iff.1 hrun
  obtain ⟨c', hc', hcode'⟩ := Option.map_eq_some_iff.1 hrun'
  obtain ⟨τ, hτ⟩ := exists_of_outcome hc
  obtain ⟨τ', hτ'⟩ := exists_of_outcome hc'
  refine ⟨⟨hlines, hstrings⟩, c, τ, c', τ', hτ, hτ', hcode, hcode', ?_⟩
  rw [hcode, hcode']
  decide +kernel

end Compile

end ClassicBasic
