import ClassicBasic.Proofs.Kin

/-!
# Two files put together side by side

The third stage on two programs that are alike token by token: the same lines and strings are joined,
the same files are put in place and the same variables are met. With it two files that are alike are
converted alike, whatever they include.
-/

set_option autoImplicit false

namespace ClassicBasic

open Conversion (Both)
open List (Forall₂)
open Token (Like Twins Kin)

variable {d : Dialect} {loose : Prop} {f : Char → Char} {S : Wording} {t t' : Token}
  {l l' rest rest' out out' : List Token} {quiet : Bool} {σ σ' : Session}

theorem Token.like_refl (hl : t.Lawful d) : Like d f t t :=
  ⟨rfl, hl, hl, fun _ => rfl, fun _ => rfl, fun _ => rfl⟩

theorem Text.Fine.ties (hf : Text.Fine f) : Ties d f (Like d f) where
  fine := hf
  like := id
  ends := Token.like_newline

/-- Tokens that no kind of the grammar reads are alike with the same value. -/
theorem Token.like_unread {k : Kind} {v v' : Text} {pos pos' : Position} (hv : v = v')
    (hk : k.isRead = false) (hn : k ≠ .lineNumber) (he : k.isEntry = false)
    (hp : pos.file = pos'.file) : Like d f ⟨k, v, pos⟩ ⟨k, v', pos'⟩ where
  kind := rfl
  lawful := lawful_of_unread hk hn he
  lawful' := lawful_of_unread hk hn he
  file _ := hp
  value _ := by rw [hv]
  exact _ := hv

theorem Lexer.snippet_like {code : Text} {pos pos' : Position} (hp : pos.file = pos'.file) :
    Forall₂ (Like d f) (snippet d pos code) (snippet d pos' code) := by
  rw [snippet_movedTo pos, snippet_movedTo pos', List.forall₂_map_left_iff,
    List.forall₂_map_right_iff, List.forall₂_same]
  intro t ht
  have hl := (snippet_lexed {} code t ht).toLawful
  exact ⟨rfl, ⟨hl.unnumbered, hl.classified, hl.unkept⟩, ⟨hl.unnumbered, hl.classified, hl.unkept⟩,
    fun _ => hp, fun _ => rfl, fun _ => rfl⟩

theorem Lexer.endsRow_return (pos : Position) : Token.EndsRow d ⟨.newline, ['\r'], pos⟩ := by
  exact ⟨rfl, by simp, fun _ => Lexer.classify_endMark d, fun he => by cases he⟩

namespace Merge

variable {p : Place}

theorem addNewline_alike (ht : Like d f t t') (ho : Forall₂ (Like d f) out out') :
    Forall₂ (Like d f) (addNewline p t out) (addNewline p t' out') := by
  cases ho with
  | nil => exact .cons ht .nil
  | @cons u u' out out' hu ho =>
    simp only [addNewline, ← hu.kind]
    split
    · exact .cons hu ho
    · exact .cons hu ho
    · exact .cons hu ho
    · split
      · exact ho
      · exact .cons ht ho
    · split
      · exact .cons hu ho
      · exact .cons ht (.cons hu ho)
    · exact .cons ht (.cons hu ho)

theorem addSeparator_alike (ht : Like d f t t') (ho : Forall₂ (Like d f) out out') :
    Forall₂ (Like d f) (addSeparator p t out) (addSeparator p t' out') := by
  cases ho with
  | nil => exact .cons ht .nil
  | @cons u u' out out' hu ho =>
    simp only [addSeparator, ← hu.kind]
    split
    · exact .cons hu ho
    · split
      · exact .cons ht ho
      · exact .cons ht (.cons hu ho)
    · exact .cons ht (.cons hu ho)

theorem mergeStrings_alike {u u' : Token} (ht : Like d f t t') (hk : t.kind = .string)
    (hu : Like d f u u') (hs : u.kind = .string) :
    Like d f (t.withValue (mergeStrings u.value t.value))
      (t'.withValue (mergeStrings u'.value t'.value)) := by
  obtain ⟨k, v, pos⟩ := t
  obtain ⟨k', v', pos'⟩ := t'
  obtain rfl : k = k' := ht.kind
  obtain rfl : k = .string := hk
  have hv := ht.exact rfl
  have hw := hu.exact (by rw [hs]; rfl)
  exact Token.like_unread (by rw [hv, hw]) rfl (by simp) rfl (ht.file (by simp))

theorem addString_alike (ht : Like d f t t') (hk : t.kind = .string)
    (ho : Forall₂ (Like d f) out out') :
    Forall₂ (Like d f) (addString t out) (addString t' out') := by
  cases ho with
  | nil => exact .cons ht .nil
  | @cons u u' out out' hu ho =>
    simp only [addString, ← hu.kind]
    split
    · rename_i hs
      exact .cons (mergeStrings_alike ht hk hu hs) ho
    · split
      · cases ho with
        | nil => exact .cons ht (.cons hu .nil)
        | @cons w w' out out' hw ho =>
          simp only [← hw.kind]
          split
          · rename_i hs
            exact .cons (mergeStrings_alike ht hk hw hs) ho
          · exact .cons ht (.cons hu (.cons hw ho))
      · exact .cons ht (.cons hu ho)

theorem add_alike (ht : Like d f t t') (ho : Forall₂ (Like d f) out out') :
    Forall₂ (Like d f) (add p t out) (add p t' out') := by
  simp only [add, ← ht.kind]
  split
  · exact addNewline_alike ht ho
  · exact addSeparator_alike ht ho
  · rename_i hk
    exact addString_alike ht hk ho
  · exact .cons ht ho

theorem unwrap_alike (h : Forall₂ (Like d f) l l') (hw : Whole l)
    (hfirst : ∀ u ∈ l.head?, u.kind.isWithin = true) :
    Forall₂ (Like d f) (unwrap d l).1 (unwrap d l').1 ∧
      Forall₂ (Like d f) (unwrap d l).2 (unwrap d l').2 := by
  induction h with
  | nil => exact ⟨.nil, .nil⟩
  | @cons t t' l l' ht hl ih =>
    have hwithin := hfirst t (by simp)
    simp only [unwrap, ← ht.kind]
    split
    · exact ⟨.nil, hl⟩
    · rename_i hend
      have hkind : t.kind = .blockText := by
        revert hwithin hend
        cases t.kind <;> decide
      have hinline : t.kind ≠ .newline := by simp [hkind]
      have hp := ht.file hinline
      have hmore : ¬t.kind = .eof := by simp [hkind]
      simp only [if_neg hmore]
      obtain ⟨hlines, hleft⟩ := ih (hw.suffix (List.suffix_cons _ _)) fun u hu => by
        obtain ⟨more, rfl⟩ := List.head?_eq_some_iff.1 hu
        have hlead : t.kind.leads u.kind = true := (List.isChain_cons_cons.1 hw).1
        simp only [Kind.leads, hkind, Bool.and_eq_true, beq_iff_eq] at hlead
        exact hlead.1.1.2.symm
      refine ⟨List.rel_append (Lexer.snippet_like hp) (.cons ?_ (.cons ?_ hlines)), hleft⟩
      · exact ⟨rfl, Token.lawful_of_unread rfl (by decide) rfl,
          Token.lawful_of_unread rfl (by decide) rfl, fun _ => hp, fun _ => ht.value hinline,
          fun hx => by cases hx⟩
      · exact Token.like_newline (Lexer.endsRow_return _) (Lexer.endsRow_return _)

theorem meetVariable_both (hf : Text.Fine f) (ht : Like d f t t') (hk : t.kind = .identifier)
    (ho : Forall₂ (Like d f) out out') (hs : σ.Alike σ') :
    Both (Forall₂ (Like d f)) (meetVariable quiet t out σ) (meetVariable quiet t' out' σ') := by
  have hname := ht.sameName hf (by simp [hk])
  have meets {keeps : List Token} {keeps' : List Token} (hkeeps : Forall₂ (Like d f) keeps keeps')
      {τ τ' : Session} {n n' : Naming} (hn : n.Alike n') (hτ : τ.Alike τ') :
      Both (Forall₂ (Like d f))
        ((do Conversion.advise quiet (n.meet t); return keeps : Conversion (List Token)) τ)
        ((do Conversion.advise quiet (n'.meet t'); return keeps' : Conversion (List Token)) τ') := by
    apply (Conversion.advise_both (Naming.meet_both hn hname) hτ).bind
    intro _ _ υ υ' _ hυ
    exact .ok hkeeps hυ
  unfold meetVariable
  apply (Conversion.naming_both hs).bind
  intro n n' τ τ' hn hτ
  cases ho with
  | nil => exact meets .nil hn hτ
  | @cons u u' out out' hu ho =>
    simp only [hu.value_eq hf (w := keepSign) (by decide)]
    split
    · apply (Conversion.advise_both (Naming.keepWritten_both hn hname) hτ).bind
      intro _ _ υ υ' _ hυ
      exact .ok ho hυ
    · exact meets (.cons hu ho) hn hτ

theorem run_both {splice splice' : Token → Token → Conversion (List Token)} {total : Nat}
    (hf : Text.Fine f)
    (hsplice : ∀ t t' u u' σ σ', Like d f t t' → Like d f u u' → Session.Alike σ σ' →
      Both (Forall₂ (Like d f)) (splice t u σ) (splice' t' u' σ'))
    (ho : Forall₂ (Like d f) out out') (h : Forall₂ (Like d f) l l') (hw : Whole l)
    (hs : σ.Alike σ') :
    Both (Forall₂ (Like d f)) (run d quiet splice total out l σ)
      (run d quiet splice' total out' l' σ') := by
  obtain ⟨n, hn⟩ : ∃ n, l.length = n := ⟨_, rfl⟩
  induction n using Nat.strong_induction_on generalizing out out' l l' σ σ' with
  | _ n ih =>
    cases h with
    | nil =>
      rw [run, run]
      exact .error _ _ _ _
    | @cons t t' rest rest' ht hrest =>
      have hmore : Whole rest := hw.suffix (List.suffix_cons _ _)
      simp only [List.length_cons] at hn
      have htail : Forall₂ (Like d f) rest.tail rest'.tail := by
        cases hrest with
        | nil => exact .nil
        | cons _ h => exact h
      have hnext : Like d f (rest.headD t) (rest'.headD t') := by
        cases hrest with
        | nil => exact ht
        | cons h _ => exact h
      rw [run, run]
      simp only [← ht.kind, ← ht.is hf (w := "INCLUDE") (by decide), ← hrest.length_eq]
      split
      · exact .ok (List.rel_reverse (.cons ht ho)) hs
      · split
        · apply (hsplice _ _ _ _ _ _ ht hnext hs).bind
          intro body body' τ τ' hbody hτ
          refine ih rest.tail.length ?_ (List.rel_append (List.rel_reverse hbody) ho) htail
            (hmore.suffix (List.tail_suffix _)) hτ rfl
          simp only [List.length_tail]
          omega
        · split
          · rename_i hk
            have hfirst : ∀ u ∈ rest.head?, u.kind.isWithin = true := fun u hu => by
              obtain ⟨more, rfl⟩ := List.head?_eq_some_iff.1 hu
              have hlead : t.kind.leads u.kind = true := (List.isChain_cons_cons.1 hw).1
              simp only [Kind.leads, hk, Bool.and_eq_true, beq_iff_eq] at hlead
              exact hlead.1.1.2.symm
            obtain ⟨hlines, hleft⟩ := unwrap_alike hrest hmore hfirst
            have hlen := length_unwrap d rest
            exact ih _ (by omega) (List.rel_append (List.rel_reverse hlines) ho) hleft
              (hmore.suffix (suffix_unwrap rest)) hs rfl
          · split
            · rename_i hk
              apply (meetVariable_both hf ht hk ho hs).bind
              intro met met' τ τ' hmet hτ
              exact ih rest.length (by omega) (add_alike ht hmet) hrest hmore hτ rfl
            · exact ih rest.length (by omega) (add_alike ht ho) hrest hmore hs rfl

theorem merge_both {splice splice' : Token → Token → Conversion (List Token)} (hf : Text.Fine f)
    (hsplice : ∀ t t' u u' σ σ', Like d f t t' → Like d f u u' → Session.Alike σ σ' →
      Both (Forall₂ (Like d f)) (splice t u σ) (splice' t' u' σ'))
    (h : Forall₂ (Like d f) l l') (hw : Whole l) (hs : σ.Alike σ') :
    Both (Forall₂ (Like d f)) (merge d quiet splice l σ) (merge d quiet splice' l' σ') := by
  cases h with
  | nil => exact .error _ _ _ _
  | cons ht hrest =>
    simp only [merge, ← hrest.length_eq]
    exact run_both hf hsplice (.cons ht .nil) hrest (hw.suffix (List.suffix_cons _ _)) hs

end Merge

/-- Whether two programs as they are lexed are alike behind their first line ends. -/
def Paired (d : Dialect) (loose : Prop) (R : Token → Token → Prop) (l l' : List Token) : Prop :=
  ∃ start newline rest start' newline' rest', l = start :: newline :: rest ∧
    l' = start' :: newline' :: rest' ∧ R start start' ∧ start.kind ≠ .newline ∧
    newline.EndsRow d ∧ newline'.EndsRow d ∧ Runs d loose R true rest rest'

namespace Listing

/-- Whether two files go together: neither can be lexed, or they are alike as they are lexed. -/
def Matched (d : Dialect) (f : Char → Char) (listing listing' : Listing) : Prop :=
  Outcome.Both (fun l l' => ∃ S, Spelling d f S ∧ Paired d False (Twins d f S) l l')
    (Lexer.lex d listing) (Lexer.lex d listing')

theorem matched_refl (hf : Text.Fine f) (listing : Listing) : Matched d f listing listing := by
  unfold Matched
  cases hx : Lexer.lex d listing with
  | error e => exact .error _ _
  | ok tokens =>
    obtain ⟨start, newline, rest, rfl, hk, hn⟩ := Lexer.lex_start hx
    have hS : Spelling d f ⟨Eq, Eq, True⟩ := by
      refine ⟨hf, fun _ => rfl, ?_⟩
      rintro v v' w w' - rfl rfl
      exact Iff.rfl
    have htwins : ∀ t ∈ start :: newline :: rest, Twins d f ⟨Eq, Eq, True⟩ t t := fun t ht =>
      ⟨Token.like_refl (Lexer.lex_lexed hx t ht).toLawful, fun _ => rfl, fun _ => rfl,
        fun _ => trivial⟩
    have hrest : Forall₂ (Twins d f ⟨Eq, Eq, True⟩) rest rest :=
      List.forall₂_same.2 fun t ht => htwins t (by simp [ht])
    have hends : newline.EndsRow d := ⟨hn, (Lexer.lex_lexed hx newline (by simp)).toLawful⟩
    exact .ok ⟨_, hS, start, newline, rest, start, newline, rest, rfl, rfl, htwins start (by simp),
      by simp [hk], hends, hends, runs_of_forall₂ hrest true⟩

end Listing

/-- Whether two shelves have files at the same paths, each going with the other one there. -/
structure Shelf.Matched (d : Dialect) (f : Char → Char) (shelf shelf' : Shelf) : Prop where
  size : shelf.size = shelf'.size
  missing {path : Text} {e : LoadError} : shelf.load path = .error e ↔ shelf'.load path = .error e
  found {path : Text} {listing listing' : Listing} : shelf.load path = .ok listing →
    shelf'.load path = .ok listing' → Listing.Matched d f listing listing'

theorem Shelf.matched_refl (hf : Text.Fine f) (shelf : Shelf) : Shelf.Matched d f shelf shelf where
  size := rfl
  missing := Iff.rfl
  found h h' := by
    obtain rfl := Except.ok.inj (h.symm.trans h')
    exact Listing.matched_refl hf _

namespace Branch

variable {s : Setting} {b : Branch} {depth : Nat}

theorem front_both (hS : Spelling s.dialect f S) (h : Paired s.dialect loose (Twins s.dialect f S) l l')
    (hs : σ.Alike σ') : Both (Runs s.dialect loose (Kin s.dialect f S) false) (front s b l σ)
      (front s b l' σ') := by
  obtain ⟨start, newline, rest, start', newline', rest', rfl, rfl, hstart, hk, hn, hn', hrest⟩ := h
  unfold front
  apply (Conversion.checkpoint_both hs).bind
  intro _ _ τ τ' _ hτ
  apply (Conversion.note_both hτ).bind
  intro _ _ τ τ' _ hτ
  apply (Directive.carryOut_both hS hstart hk hn hn' hrest hτ).bind
  intro r r' τ τ' hr hτ
  apply (Conversion.checkpoint_both hτ).bind
  intro _ _ τ τ' _ hτ
  apply (Conversion.note_both hτ).bind
  intro _ _ τ τ' _ hτ
  apply (Both.ofExcept (Label.place_both hS hr.1 hr.2) hτ).bind
  intro placed placed' τ τ' hplaced hτ
  apply (Conversion.note_both hτ).bind
  intro _ _ τ τ' _ hτ
  exact .ok hplaced hτ

theorem forall₂_dropLast {α β : Type} {R : α → β → Prop} {x : List α} {y : List β}
    (h : Forall₂ R x y) : Forall₂ R x.dropLast y.dropLast := by
  rw [List.dropLast_eq_take, List.dropLast_eq_take, h.length_eq]
  exact List.forall₂_take _ h

/-- What stands for an included file is a piece of it by the kinds of its tokens. -/
theorem body_alike (h : Forall₂ (Like d f) l l') : Forall₂ (Like d f) (body l) (body l') := by
  have hinner := forall₂_dropLast (List.forall₂_drop 2 h)
  have hkinds : (l.drop 2).dropLast.map Token.kind = (l'.drop 2).dropLast.map Token.kind := by
    rw [← List.forall₂_eq_eq_eq, List.forall₂_map_left_iff, List.forall₂_map_right_iff]
    exact hinner.imp fun _ _ ht => ht.kind
  have hlast := congrArg List.getLast? hkinds
  rw [List.getLast?_map, List.getLast?_map] at hlast
  unfold body
  dsimp only
  rw [hlast]
  split
  · exact forall₂_dropLast hinner
  · exact hinner

variable {shelf : Shelf}

theorem find_both (h : Shelf.Matched s.dialect f s.shelf shelf) (file : Text) (paths : List Text) :
    Outcome.Both (fun r r' : Text × Listing => r.1 = r'.1 ∧ Listing.Matched s.dialect f r.2 r'.2)
      (find s b file paths) (find { s with shelf } b file paths) := by
  induction paths with
  | nil => exact .error _ _
  | cons path more ih =>
    simp only [find]
    split
    · exact .error _ _
    · cases hx : s.shelf.load path with
      | error e =>
        rw [h.missing.1 hx]
        dsimp only
        split
        · exact ih
        · exact .error _ _
      | ok listing =>
        cases hx' : shelf.load path with
        | error e =>
          rw [h.missing.2 hx'] at hx
          cases hx
        | ok listing' => exact .ok ⟨rfl, h.found hx hx'⟩

theorem named_both (h : Shelf.Matched s.dialect f s.shelf shelf) {u u' : Token}
    (hu : Like s.dialect f u u') :
    Outcome.Both (fun r r' : Text × Listing => r.1 = r'.1 ∧ Listing.Matched s.dialect f r.2 r'.2)
      (named s b t u) (named { s with shelf } b t' u') := by
  unfold named
  dsimp only
  rw [← hu.kind]
  by_cases hk : u.kind = .string
  · have hvalue : fileName u = fileName u' := by
      rw [fileName, fileName, hu.exact (by rw [hk]; rfl)]
    have hpaths : candidates { s with shelf } b (fileName u') = candidates s b (fileName u') := rfl
    have hfind := find_both (b := b) h (fileName u') (candidates s b (fileName u'))
    rw [hvalue, hpaths]
    split
    · exact .error _ _
    · rcases hfind.elim with ⟨e, e', hx, hx'⟩ | ⟨r, r', hx, hx', hr⟩
      · rw [hx, hx']
        exact .error _ _
      · rw [hx, hx']
        exact .ok hr
  · rw [if_pos (.inl hk), if_pos (.inl hk)]
    exact .error _ _

/-- Files that go together are put in place behind directives that are alike. -/
theorem splice_both {inner inner' : Branch → List Token → Conversion (List Token)} {u u' : Token}
    (hshelf : Shelf.Matched s.dialect f s.shelf shelf)
    (hinner : ∀ (b : Branch) (listing : Listing) (S : Wording) (l l' : List Token) (σ σ' : Session),
      Lexer.lex s.dialect listing = .ok l → Spelling s.dialect f S →
      Paired s.dialect False (Twins s.dialect f S) l l' → σ.Alike σ' →
      Both (Forall₂ (Like s.dialect f)) (inner b l σ) (inner' b l' σ'))
    (hu : Like s.dialect f u u') (hs : σ.Alike σ') :
    Both (Forall₂ (Like s.dialect f)) (splice s b inner t u σ)
      (splice { s with shelf } b inner' t' u' σ') := by
  unfold splice
  apply (Conversion.checkpoint_both hs).bind
  intro _ _ τ τ' _ hτ
  apply (Both.ofExcept (named_both hshelf hu) hτ).bind
  rintro ⟨path, listing⟩ ⟨_, listing'⟩ τ τ' ⟨rfl, hmatched⟩ hτ
  apply (Conversion.note_both hτ).bind
  intro _ _ τ τ' _ hτ
  apply (Both.ofExcept hmatched hτ).bind_of_ok
  intro l l' τ τ' hread hl hτ
  obtain ⟨hx, rfl⟩ := Conversion.ofExcept_eq_ok_iff.1 hread
  obtain ⟨S, hS, hl⟩ := hl
  apply (hinner _ listing S l l' _ _ hx hS hl hτ).bind
  intro merged merged' υ υ' hmerged hυ
  exact .ok (body_alike hmerged) hυ

/-- Two files that are alike token by token are converted alike if files that both include are. -/
theorem convert_of_inner (hshelf : Shelf.Matched s.dialect f s.shelf shelf)
    (hS : Spelling s.dialect f S) {listing : Listing}
    (hinner : ∀ (b : Branch) (listing : Listing) (S : Wording) (l l' : List Token) (σ σ' : Session),
      Lexer.lex s.dialect listing = .ok l → Spelling s.dialect f S →
      Paired s.dialect False (Twins s.dialect f S) l l' → σ.Alike σ' →
      Both (Forall₂ (Like s.dialect f)) (inner s depth b l σ)
        (inner { s with shelf } depth b l' σ'))
    (hx : Lexer.lex s.dialect listing = .ok l)
    (h : Paired s.dialect False (Twins s.dialect f S) l l') (hs : σ.Alike σ') :
    Both (Forall₂ (Like s.dialect f)) (convert s depth b l σ)
      (convert { s with shelf } depth b l' σ') := by
  rw [convert_eq, convert_eq]
  apply (front_both hS h hs).bind_of_ok
  intro placed placed' τ τ' hfront hplaced hτ
  have halike := (hplaced.forall₂ not_false).imp fun _ _ ht => ht.toLike
  exact Merge.merge_both hS.fine
    (fun _ _ _ _ _ _ _ hu hσ => splice_both hshelf hinner hu hσ) halike (front_whole hx hfront) hτ

/-- Two files that are alike token by token are converted alike, however deep they are. -/
theorem convert_both (hshelf : Shelf.Matched s.dialect f s.shelf shelf)
    (hS : Spelling s.dialect f S) {listing : Listing}
    (hx : Lexer.lex s.dialect listing = .ok l)
    (h : Paired s.dialect False (Twins s.dialect f S) l l') (hs : σ.Alike σ') :
    Both (Forall₂ (Like s.dialect f)) (convert s depth b l σ)
      (convert { s with shelf } depth b l' σ') := by
  induction depth generalizing b S listing l l' σ σ' with
  | zero => exact convert_of_inner hshelf hS (fun _ _ _ _ _ _ _ _ _ _ _ => .error _ _ _ _) hx h hs
  | succ depth ih =>
    exact convert_of_inner hshelf hS (fun _ _ _ _ _ _ _ hx hS h hs => ih hS hx h hs) hx h hs

end Branch

end ClassicBasic
