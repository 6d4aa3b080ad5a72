import ClassicBasic.Proofs.Fenced
import ClassicBasic.Proofs.Stages
import ClassicBasic.Proofs.Visit
import ClassicBasic.Proofs.Words
import Mathlib.Data.List.Perm.Subperm

/-!
# Compiling never gets stuck

Whatever the text of a program and the files around it, compiling gives a program or says what is
wrong. No stage runs past the end of its input, the start of a file stays below every output that
tokens are taken back from, and all code that the compiler writes itself can be lexed. The files in
progress are all different, so their number bounds how deep files include files.
-/

set_option autoImplicit false

namespace ClassicBasic

open Conversion (Meets meets_pure meets_throw meets_ofExcept meets_note meets_checkpoint)

/-! ### Code written by the compiler -/

namespace Lexer

def Spoken (d : Dialect) (code : Text) : Prop :=
  code ≠ [] ∧ ∀ c ∈ code, (d.classify [c]).isSome = true ∧ Text.isBlank c = false

/-- Characters of the code that is written by the stages and of numbers. -/
def spokenSigns : Text := "abcdefghijklmnopqrstuvwxyz0123456789=:'-,?@*()+/^"

variable {d : Dialect} {code : Text}

theorem spoken_of_signs (hne : code ≠ []) (h : code.all spokenSigns.contains = true) :
    Spoken d code := by
  have hall : spokenSigns.all (fun c => (d.classify [c]).isSome && !Text.isBlank c) = true := by
    simp only [Dialect.classify_spelled]
    cases d <;> decide +kernel
  refine ⟨hne, fun c hc => ?_⟩
  have hsign := List.all_eq_true.1 hall c (List.contains_iff_mem.1 (List.all_eq_true.1 h c hc))
  simpa using hsign

/-- What is lexed character by character comes to a token and others behind it. -/
theorem Spoken.tokens (h : Spoken d code) (pos : Position) :
    ∃ t rest, snippet? d pos code = .ok (t :: rest) := by
  induction hlen : code.length using Nat.strong_induction_on generalizing code with
  | _ n ih =>
    obtain ⟨hne, hall⟩ := h
    obtain ⟨c, rest, rfl⟩ := List.exists_cons_of_ne_nil hne
    obtain ⟨⟨hc, hblank⟩, hrest⟩ := List.forall_mem_cons.1 hall
    obtain ⟨k, hk⟩ := Option.isSome_iff_exists.1 hc
    have hsuffix : (munch id d [c] k rest).2.2.dropWhile (· == ' ') <:+ rest :=
      (List.dropWhile_suffix _).trans (munch_suffix _ _ _ _)
    obtain ⟨tokens, htokens⟩ : ∃ tokens,
        snippet? d pos ((munch id d [c] k rest).2.2.dropWhile (· == ' ')) = .ok tokens := by
      by_cases hnil : (munch id d [c] k rest).2.2.dropWhile (· == ' ') = []
      · rw [hnil, snippet?]
        exact ⟨[], rfl⟩
      · have hlt : ((munch id d [c] k rest).2.2.dropWhile (· == ' ')).length < n := by
          rw [← hlen]
          exact Nat.lt_succ_of_le hsuffix.length_le
        obtain ⟨t, more, hmore⟩ := ih _ hlt ⟨hnil, fun x hx => hrest x (hsuffix.mem hx)⟩ rfl
        exact ⟨t :: more, hmore⟩
    -- a blank starts with a blank
    have hkind : (munch id d [c] k rest).2.1 ≠ .spaces := by
      intro hspaces
      have hclass := classify_munch id [c] k hk rest
      rw [hspaces] at hclass
      have hmem : c ∈ (munch id d [c] k rest).1 :=
        (isPrefix_munch id [c] k rest).subset (List.mem_singleton_self c)
      rw [Dialect.accepts_spaces hclass c hmem] at hblank
      cases hblank
    refine ⟨⟨(munch id d [c] k rest).2.1, (munch id d [c] k rest).1, pos⟩, tokens, ?_⟩
    rw [snippet?]
    simp only [hk, htokens]
    simp [Except.map, hkind]

def phrases : List Text :=
  Text.ofStrings ["return", "=", ":", "gosub", "goto", "'", "1", "0", "-1", ",", "?@", "32*(", ")+(", ")",
    "locate", ":?", "0,0"]

theorem spoken_phrase : ∀ code ∈ phrases, Spoken d code := by
  have hall : phrases.all (fun code => code != [] && code.all spokenSigns.contains) = true := by
    decide +kernel
  intro code hcode
  have hsigns := List.all_eq_true.1 hall code hcode
  rw [Bool.and_eq_true, bne_iff_ne] at hsigns
  exact spoken_of_signs hsigns.1 hsigns.2

theorem spoken_ofInt (n : Int) : Spoken d (Text.ofInt n) := by
  have hdigits : "0123456789".toList.all spokenSigns.contains = true := by decide
  refine spoken_of_signs (Text.ofInt_ne_nil n) (List.all_eq_true.2 fun c hc => ?_)
  rcases Text.mem_ofInt hc with rfl | hdigit
  · decide
  · exact List.all_eq_true.1 hdigits c (Text.mem_digits hdigit)

theorem spoken_operator {t : Token} (ht : t.Lawful d) (hk : t.kind = .compound) :
    Spoken d (Touch.operator t) := by
  have hc : d.classify t.value = some .compound := hk ▸ ht.classified (by rw [hk]; rfl)
  have hsigns : Dialect.compoundSigns.all spokenSigns.contains = true := by decide
  refine spoken_of_signs ?_ (List.all_eq_true.2 fun c hmem =>
    List.all_eq_true.1 hsigns c (Dialect.accepts_compound hc (List.mem_of_mem_take hmem)))
  intro hnil
  have hempty : t.value = [] := (List.take_eq_nil_iff.1 hnil).resolve_left (by simp)
  rw [hempty, Dialect.classify_nil] at hc
  cases hc

end Lexer

/-! ### Files in progress -/

/-- Whether a file can be loaded from a place, under whatever path. -/
def Setting.Holds (s : Setting) (place : Text) : Prop :=
  ∃ path listing, s.shelf.load path = .ok listing ∧ PathName.absolute s.home path = place

/-- Whether files can be loaded from no more places than a shelf has room for, all of them as
listings of texts. -/
structure Setting.Shelved (s : Setting) : Prop where
  texts : ∀ path listing, s.shelf.load path = .ok listing →
    ∃ text file tab, listing = Listing.ofText text file tab
  few : ∀ places : List Text, places.Nodup → (∀ p ∈ places, s.Holds p) →
    places.length ≤ s.shelf.size

/-- A shelf with the given texts, found by exactly their paths. -/
def Shelf.ofTexts (tab : Int) (files : List (Text × Text)) : Shelf :=
  ofEntries (files.map fun f => (f.1, .ok (Listing.ofText f.2 f.1 tab)))

theorem Shelf.load_ofTexts {tab : Int} {files : List (Text × Text)} {path : Text}
    {listing : Listing} (h : (ofTexts tab files).load path = .ok listing) :
    path ∈ files.map Prod.fst ∧ ∃ text, listing = Listing.ofText text path tab := by
  unfold ofTexts ofEntries at h
  dsimp only at h
  induction files with
  | nil => cases h
  | cons f files ih =>
    rw [List.map_cons, List.lookup_cons] at h
    split at h
    · rename_i heq
      cases h
      rw [beq_iff_eq] at heq
      subst heq
      exact ⟨List.mem_cons_self, f.2, rfl⟩
    · obtain ⟨hmem, hlisting⟩ := ih h
      exact ⟨List.mem_cons_of_mem _ hmem, hlisting⟩

theorem Setting.shelved {s : Setting} {paths : List Text}
    (hload : ∀ path listing, s.shelf.load path = .ok listing →
      path ∈ paths ∧ ∃ text file tab, listing = Listing.ofText text file tab)
    (hsize : paths.length ≤ s.shelf.size) : s.Shelved where
  texts path listing h := (hload path listing h).2
  few places hnodup hholds := by
    have hsub : places ⊆ paths.map (PathName.absolute s.home) := by
      intro place hmem
      obtain ⟨path, listing, hl, rfl⟩ := hholds place hmem
      exact List.mem_map_of_mem (hload path listing hl).1
    have hle := (hnodup.subperm hsub).length_le
    rw [List.length_map] at hle
    exact hle.trans hsize

namespace Branch

variable {s : Setting} {depth : Nat} {b : Branch}

theorem find_cases {file path : Text} {listing : Listing} {paths : List Text}
    (h : find s b file paths = .ok (path, listing)) :
    s.shelf.load path = .ok listing ∧ PathName.absolute s.home path ∉ b.stack := by
  induction paths with
  | nil => cases h
  | cons first more ih =>
    simp only [find] at h
    split at h
    · cases h
    · rename_i hstack
      split at h
      · rename_i hload
        cases h
        exact ⟨hload, by simpa using hstack⟩
      · split at h
        · exact ih h
        · cases h

theorem find_unread {file : Text} {paths : List Text} {load : Text → Except LoadError Listing}
    (h : ∀ path, PathName.absolute s.home path ∉ b.stack → load path = s.shelf.load path) :
    find { s with shelf := { s.shelf with load := load } } b file paths = find s b file paths := by
  induction paths with
  | nil => rfl
  | cons first more ih =>
    simp only [find]
    split
    · rfl
    · rename_i hstack
      rw [h first (by simpa using hstack), ih]

/-- The files in progress while at most `depth` more may be included inside one another. -/
structure Stacked (s : Setting) (depth : Nat) (b : Branch) : Prop where
  nodup : b.stack.Nodup
  ne_nil : b.stack ≠ []
  /-- All but the main file have been loaded. -/
  loaded : ∀ p ∈ b.stack.dropLast, s.Holds p
  room : s.shelf.size < depth + b.stack.length

theorem stacked_main (s : Setting) : Stacked s s.shelf.size (main s) :=
  ⟨List.nodup_singleton _, by simp [main], by simp [main], by simp [main]⟩

theorem Stacked.enter {path : Text} {listing : Listing} (h : Stacked s (depth + 1) b)
    (hl : s.shelf.load path = .ok listing) (hn : PathName.absolute s.home path ∉ b.stack) :
    Stacked s depth (b.enter s path) where
  nodup := List.nodup_cons.2 ⟨hn, h.nodup⟩
  ne_nil := by simp [Branch.enter]
  loaded := by
    rw [Branch.enter, List.dropLast_cons_of_ne_nil h.ne_nil]
    exact List.forall_mem_cons.2 ⟨⟨path, listing, hl, rfl⟩, h.loaded⟩
  room := by
    have hroom := h.room
    simp only [Branch.enter, List.length_cons]
    omega

theorem Stacked.full {path : Text} {listing : Listing} (h : Stacked s 0 b) (hs : s.Shelved)
    (hl : s.shelf.load path = .ok listing) : PathName.absolute s.home path ∈ b.stack := by
  by_contra hn
  have hnodup : (PathName.absolute s.home path :: b.stack.dropLast).Nodup :=
    List.nodup_cons.2 ⟨fun hmem => hn (List.dropLast_subset _ hmem),
      h.nodup.sublist (List.dropLast_sublist _)⟩
  have hfew := hs.few _ hnodup (List.forall_mem_cons.2 ⟨⟨path, listing, hl, rfl⟩, h.loaded⟩)
  have hroom := h.room
  have hpos := List.length_pos_iff.2 h.ne_nil
  rw [List.length_cons, List.length_dropLast] at hfew
  omega

def LexedText (s : Setting) (lexed : List Token) : Prop :=
  ∃ text file tab, Lexer.lex s.dialect (Listing.ofText text file tab) = .ok lexed

/-! ### One file -/

theorem named_meets (directive name : Token) :
    Outcome.Meets (fun r => name.kind = .string ∧ s.shelf.load r.1 = .ok r.2 ∧
      PathName.absolute s.home r.1 ∉ b.stack) (named s b directive name) := by
  unfold named
  dsimp only
  split
  · exact Token.told _ _
  · rename_i hname
    simp only [not_or, Decidable.not_not] at hname
    split
    · rename_i hf
      exact ⟨hname.1, find_cases hf⟩
    · exact Token.told _ _

theorem enters_shelved {directive name : Token} {σ τ : Session}
    {r : Branch × List Token} (h : enters s b directive name σ = .ok r τ) :
    ∃ listing, s.shelf.load r.1.path = .ok listing ∧ Lexer.lex s.dialect listing = .ok r.2 := by
  unfold enters at h
  obtain ⟨_, _, -, h⟩ := Conversion.bind_eq_ok_iff.1 h
  obtain ⟨⟨path, listing⟩, _, hl, h⟩ := Conversion.bind_eq_ok_iff.1 h
  obtain ⟨_, _, -, h⟩ := Conversion.bind_eq_ok_iff.1 h
  obtain ⟨lexed, _, hr, h⟩ := Conversion.bind_eq_ok_iff.1 h
  obtain ⟨rfl, -⟩ := Conversion.pure_eq_ok_iff.1 h
  have hnamed := (named_meets directive name).holds (Conversion.ofExcept_eq_ok_iff.1 hl).1
  exact ⟨listing, hnamed.2.1, (Conversion.ofExcept_eq_ok_iff.1 hr).1⟩

theorem carryOut_meets {quiet : Bool} {lexed : List Token} (hx : LexedText s lexed) :
    Meets (fun r => Ended r.2 ∧ r.1.Plain s.dialect ∧ Entry.Sound s.dialect r.2.reverse)
      (Directive.carryOut s.dialect quiet lexed) := by
  obtain ⟨text, file, tab, hx⟩ := hx
  obtain ⟨start, newline, rest, rfl, hshut⟩ := (Listing.lex_meets s.dialect text file tab).holds hx
  obtain ⟨⟨htables, hout, -⟩, hl⟩ := Directive.kept_first (σ := {}) hx
  have hrun : Meets (fun r => Ended r.2)
      (Directive.carryOut s.dialect quiet (start :: newline :: rest)) :=
    Directive.run_meets htables hout hl hshut
  apply hrun.imp
  intro r σ τ hr hended
  exact ⟨hended, Directive.carryOut_sound hx hr⟩

theorem place_meets {tables : Tables} {carried : List Token} (he : Ended carried)
    (hp : tables.Plain s.dialect) (hc : Entry.Sound s.dialect carried.reverse) :
    Outcome.Meets (fun placed => Closes placed ∧ Entry.Sound s.dialect placed.reverse)
      (Label.place s.dialect tables carried) := by
  obtain ⟨start, newline, rest, rfl, hs, -⟩ := hc.exists_input
  have hrun : Outcome.Meets Closes (Label.place s.dialect tables (start :: newline :: rest)) :=
    Label.run_meets (he.tail (by simp [hs]))
  apply hrun.imp
  intro placed hplaced hcloses
  exact ⟨hcloses, Label.place_sound hp hc hplaced⟩

theorem splice_meets {front : Branch → List Token → Conversion (List Token)} (hs : s.Shelved)
    (hf : ∀ path listing lexed, s.shelf.load path = .ok listing →
      PathName.absolute s.home path ∉ b.stack → LexedText s lexed →
      Meets (fun _ => True) (front (b.enter s path) lexed)) (directive name : Token) :
    Meets (fun _ => name.kind = .string) (splice s b front directive name) := by
  unfold splice
  apply meets_checkpoint.bind
  rintro - -
  apply (meets_ofExcept (named_meets directive name)).bind
  rintro ⟨path, listing⟩ ⟨hname, hload, hnew⟩
  apply (meets_note b.quiet _).bind
  rintro - -
  obtain ⟨text, file, tab, rfl⟩ := hs.texts path listing hload
  have hlex : Outcome.Meets (LexedText s) (Lexer.lex s.dialect (Listing.ofText text file tab)) :=
    (Listing.lex_meets s.dialect text file tab).imp fun lexed hx _ => ⟨text, file, tab, hx⟩
  apply (meets_ofExcept hlex).bind
  intro lexed hx
  apply (hf path _ lexed hload hnew hx).bind
  exact fun _ _ => meets_pure hname

/-- A file is converted when the files that it includes can be put in place. -/
theorem stages_meets {lexed : List Token} (hx : LexedText s lexed)
    (hi : ∀ t name, Meets (fun _ => name.kind = .string) (splice s b (inner s depth) t name)) :
    Meets Closes (convert s depth b lexed) := by
  have hmerge {placed : List Token} (hp : Closes placed ∧ Entry.Sound s.dialect placed.reverse) :
      Meets Closes (Merge.merge s.dialect b.quiet (splice s b (inner s depth)) placed) := by
    obtain ⟨start, newline, rest, rfl, hstart, -⟩ := hp.2.exists_input
    exact Merge.run_meets (hp.1.tail (by simp [hstart])) hi
  unfold convert
  apply meets_checkpoint.bind
  rintro - -
  apply (meets_note b.quiet _).bind
  rintro - -
  apply (carryOut_meets hx).bind
  rintro ⟨tables, carried⟩ ⟨hended, hplain, hsound⟩
  apply meets_checkpoint.bind
  rintro - -
  apply (meets_note b.quiet _).bind
  rintro - -
  apply (meets_ofExcept (place_meets hended hplain hsound)).bind
  intro placed hp
  apply (meets_note b.quiet _).bind
  rintro - -
  cases depth with
  | zero => exact hmerge hp
  | succ depth => exact hmerge hp

/-- A file is converted, or what is wrong with it or a file that it includes is told. -/
theorem convert_meets {lexed : List Token} (hs : s.Shelved) (hb : Stacked s depth b)
    (hx : LexedText s lexed) : Meets Closes (convert s depth b lexed) := by
  induction depth generalizing b lexed with
  | zero =>
    apply stages_meets hx
    apply splice_meets hs
    intro path listing _ hload hnew
    exact absurd (hb.full hs hload) hnew
  | succ depth ih =>
    apply stages_meets hx
    apply splice_meets hs
    intro path listing lexed hload hnew hlexed
    exact (ih (hb.enter hload hnew) hlexed).imp fun _ _ _ _ _ => trivial

/-- The tokens of a converted file: its start, what follows it in the first line, and at least its
end. -/
theorem exists_converted {lexed merged : List Token} {σ τ : Session} (hs : s.Shelved)
    (hb : Stacked s depth b) (hx : LexedText s lexed) (h : convert s depth b lexed σ = .ok merged τ) :
    ∃ start second rest, merged = start :: second :: rest ∧ start.kind = .program ∧
      (second.kind = .newline ∨ second.kind = .separator) ∧ Closes rest ∧
      ∀ t ∈ merged, t.Lawful s.dialect := by
  have hclose : Closes merged := (convert_meets hs hb hx).holds h
  obtain ⟨text, file, tab, hlex⟩ := hx
  obtain ⟨hlaw, hseat⟩ := convert_settled hlex h
  obtain ⟨start, second, rest, rfl, hstart, hsecond⟩ := hseat.exists_cons
  have hrest : Closes (second :: rest) := hclose.tail (by simp [hstart])
  refine ⟨start, second, rest, rfl, hstart, hsecond, hrest.tail ?_, fun t ht => ?_⟩
  · rcases hsecond with hk | hk <;> simp [hk]
  · exact hlaw t (List.mem_reverse.2 ht)

/-! ### All files -/

/-- The file that a directive names is loaded from its place, unless it is in progress. -/
theorem enters_cases {directive name : Token} {r : Branch × List Token} {σ τ : Session}
    (h : enters s b directive name σ = .ok r τ) :
    ∃ path listing, s.shelf.load path = .ok listing ∧
      PathName.absolute s.home path ∉ b.stack ∧ Lexer.lex s.dialect listing = .ok r.2 ∧
      r.1 = b.enter s path := by
  unfold enters at h
  obtain ⟨_, _, -, h⟩ := Conversion.bind_eq_ok_iff.1 h
  obtain ⟨⟨path, listing⟩, _, hn, h⟩ := Conversion.bind_eq_ok_iff.1 h
  obtain ⟨_, _, -, h⟩ := Conversion.bind_eq_ok_iff.1 h
  obtain ⟨lexed, _, hr, h⟩ := Conversion.bind_eq_ok_iff.1 h
  obtain ⟨rfl, -⟩ := Conversion.pure_eq_ok_iff.1 h
  obtain ⟨-, hload, hnew⟩ := (named_meets directive name).holds (Conversion.ofExcept_eq_ok_iff.1 hn).1
  exact ⟨path, listing, hload, hnew, (Conversion.ofExcept_eq_ok_iff.1 hr).1, rfl⟩

/-- Whether the start of a file is at the bottom of an output (last token first). -/
def Grounded (out : List Token) : Prop := out.getLast?.map Token.kind = some .program

theorem grounded_of_based {out : List Token} (h : Entry.Based out) : Grounded out := by
  obtain ⟨front, newline, start, rfl, -, hs⟩ := h
  simp [Grounded, hs]

theorem grounded_of_seated {out : List Token} (h : Merge.Seated out) : Grounded out := by
  obtain ⟨front, second, start, rfl, -, hs⟩ := h
  simp [Grounded, hs]

namespace Visit

def Directs (s : Setting) (v : Visit) (p : Directive.Point) : Prop :=
  ∃ start newline rest, v.lexed = start :: newline :: rest ∧ ∃ σ,
    Directive.Reaches s.dialect v.branch.quiet
      ⟨σ, { defines := PrintAt.builtin s.dialect start.pos }, [newline, start], rest⟩ p

def Labels (s : Setting) (v : Visit) (p : Label.Point) : Prop :=
  ∃ tables start newline rest σ τ,
    Directive.carryOut s.dialect v.branch.quiet v.lexed σ =
        .ok (tables, start :: newline :: rest) τ ∧
      Label.Reaches s.dialect tables.routines ⟨[], [newline, start], rest⟩ p

/-- What keeps the conversion of a file from breaking down. -/
structure Faultless (s : Setting) (v : Visit) : Prop where
  /-- No file is in progress twice. -/
  alone : v.branch.stack.Nodup
  /-- What is at the places of the files in progress makes no difference. -/
  unread : ∀ load : Text → Except LoadError Listing,
    (∀ path, PathName.absolute s.home path ∉ v.branch.stack → load path = s.shelf.load path) →
    ∀ directive name, named { s with shelf := { s.shelf with load := load } } v.branch directive name =
      named s v.branch directive name
  /-- No output loses its start. -/
  directed : ∀ p, v.Directs s p → Grounded p.out
  labelled : ∀ p, v.Labels s p → Grounded p.out
  walked : ∀ p, v.Walks s p → Grounded p.out
  /-- The variables in front of a call end before the output does. -/
  taken : ∀ p, v.Labels s p → ∀ t before, p.out = t :: before → t.value = "=" →
    Grounded (Routine.takeBack s.dialect [] [] before).2
  /-- The sentinels of a converted file can be cut off. -/
  framed : ∀ merged τ, convert s v.depth v.branch v.lexed v.session = .ok merged τ →
    3 ≤ merged.length

variable {v w : Visit}

/-- All files that are converted are listings of texts, and no more of them are in progress than
there is room for. -/
theorem visits_stacked (hs : s.Shelved) (hb : Stacked s v.depth v.branch) (hx : LexedText s v.lexed)
    (h : Visits s v w) : Stacked s w.depth w.branch ∧ LexedText s w.lexed := by
  induction h with
  | refl => exact ⟨hb, hx⟩
  | tail _ hstep ih =>
    cases hstep with
    | entered hd hw hp hk hi he =>
      obtain ⟨path, listing, hload, hnew, hlex, hbranch⟩ := enters_cases he
      obtain ⟨text, file, tab, rfl⟩ := hs.texts path listing hload
      have hstacked := ih.1
      rw [hd] at hstacked
      dsimp only at hbranch hlex ⊢
      rw [hbranch]
      exact ⟨hstacked.enter hload hnew, text, file, tab, hlex⟩

theorem labels_sound {p : Label.Point} (hx : LexedText s v.lexed) (h : v.Labels s p) :
    Entry.Sound s.dialect p.out := by
  obtain ⟨tables, start, newline, rest, σ, τ, hd, hr⟩ := h
  obtain ⟨text, file, tab, hlex⟩ := hx
  obtain ⟨htables, hcarried⟩ := Directive.carryOut_sound hlex hd
  exact (Label.reaches_kept hr htables.routines (Label.kept_first hcarried)).out

theorem faultless (hs : s.Shelved) (hb : Stacked s v.depth v.branch) (hx : LexedText s v.lexed) :
    v.Faultless s where
  alone := hb.nodup
  unread load hload directive name := by
    unfold named
    dsimp only
    rw [find_unread hload]
    rfl
  directed p hp := by
    obtain ⟨start, newline, rest, hlexed, σ, hr⟩ := hp
    obtain ⟨text, file, tab, hlex⟩ := hx
    rw [hlexed] at hlex
    obtain ⟨hkept, hl⟩ := Directive.kept_first hlex
    exact grounded_of_based (Directive.reaches_kept hr hl hkept).out.based
  labelled p hp := grounded_of_based (labels_sound hx hp).based
  walked p hp := by
    obtain ⟨start, newline, rest, ready, hf, hr⟩ := hp
    obtain ⟨text, file, tab, hlex⟩ := hx
    obtain ⟨_, _, _, heq, hstart, hnewline, hsound, -, hrest⟩ := (front_sound hlex hf).exists_input
    cases heq
    have hsettled : Merge.Settled s.dialect [newline, start] :=
      ⟨hsound.lawful, [], newline, start, rfl, .inl hnewline, hstart⟩
    have hspliced : ∀ t name σ body τ, v.splice s t name σ = .ok body τ →
        ∀ u ∈ body, u.Lawful s.dialect := fun _ _ _ _ _ h => splice_lawful h
    exact grounded_of_seated (Merge.reaches_settled hr hspliced hsettled hrest).1.seated
  taken p hp t before hout hv := by
    have hsound : Entry.Sound s.dialect (t :: before) := hout ▸ labels_sound hx hp
    have hlaw : t.Lawful s.dialect := hsound.lawful t List.mem_cons_self
    have hkind : t.kind ≠ .newline := hlaw.kind_ne_newline (by rw [hv]; decide)
    exact grounded_of_based (Routine.takeBack_sound [] [] (hsound.tail hkind) (by simp)).2.based
  framed merged τ h := by
    obtain ⟨start, second, rest, rfl, -, -, ⟨t, ht, -⟩, -⟩ := exists_converted hs hb hx h
    have hpos : 0 < rest.length := List.length_pos_of_mem ht
    simp only [List.length_cons]
    omega

end Visit

end Branch

namespace Compile

open Branch (Visit Stacked LexedText stacked_main)

/-- What keeps the conversion of a program from breaking down. -/
structure Faultless (s : Setting) (o : Options) (listing : Listing) : Prop where
  /-- There is a compiled program, or what is wrong is told. -/
  answered : Meets (fun _ => True) (ofListing s o listing)
  /-- No file breaks down, neither the main file nor any that is included. -/
  visited : ∀ lexed σ w, Lexer.lex s.dialect listing = .ok lexed →
    Visit.Visits s ⟨s.shelf.size, Branch.main s, lexed, σ⟩ w → w.Faultless s
  /-- The code that the compiler writes can be lexed. -/
  spoken : ∀ code ∈ Lexer.phrases, ∀ pos, ∃ t rest,
    Lexer.snippet? s.dialect pos code = .ok (t :: rest)
  counted : ∀ (n : Int) (pos : Position), ∃ t rest,
    Lexer.snippet? s.dialect pos (Text.ofInt n) = .ok (t :: rest)
  assigned : ∀ lexed merged numbered before after ready final,
    Lexer.lex s.dialect listing = .ok lexed →
    Branch.convert s s.shelf.size (Branch.main s) lexed before = .ok merged after →
    Numbering.number s.dialect o.scale (whole o merged) ready = .ok numbered final →
    ∀ u ∈ numbered.tokens, u.kind = .compound → ∀ pos, ∃ t rest,
      Lexer.snippet? s.dialect pos (Touch.operator u) = .ok (t :: rest)

variable {s : Setting} {o : Options}

theorem whole_closes (o : Options) {start second : Token} {rest : List Token} (h : Closes rest) :
    ∃ tail, whole o (start :: second :: rest) = start :: tail ∧ Closes tail := by
  obtain ⟨lead, hwhole, -, -⟩ := whole_cons o start second rest
  obtain ⟨t, ht, hk⟩ := h
  exact ⟨second :: (lead ++ rest), hwhole, t, by simp [ht], hk⟩

theorem ofListing_meets {listing : Listing} {text file : Text} {tab : Int} (hs : s.Shelved)
    (hl : listing = Listing.ofText text file tab) : Meets (fun _ => True) (ofListing s o listing) := by
  have hlex : Outcome.Meets (LexedText s) (Lexer.lex s.dialect listing) := by
    rw [hl]
    exact (Listing.lex_meets s.dialect text file tab).imp fun lexed hx _ => ⟨text, file, tab, hx⟩
  have hnote (r : Record) : Meets (fun _ => True) (Conversion.note false r) := meets_note false r
  unfold ofListing
  apply (hnote _).bind
  rintro - -
  apply (meets_ofExcept hlex).bind
  intro lexed hx
  apply (hnote _).bind
  rintro - -
  apply (hnote _).bind
  rintro - -
  have hconvert : Meets (fun merged => ∃ start tail, whole o merged = start :: tail ∧ Closes tail)
      (Branch.convert s s.shelf.size (Branch.main s) lexed) := by
    apply (Branch.convert_meets hs (stacked_main s) hx).imp
    intro merged σ τ hm _
    obtain ⟨start, second, rest, rfl, -, -, hrest, -⟩ :=
      Branch.exists_converted hs (stacked_main s) hx hm
    exact ⟨start, whole_closes o hrest⟩
  apply hconvert.bind
  rintro merged ⟨start, tail, hwhole, htail⟩
  apply meets_checkpoint.bind
  rintro - -
  apply (hnote _).bind
  rintro - -
  have hnumber : Meets (fun n => ∃ tail, n.tokens = start :: tail ∧ Closes tail)
      (Numbering.number s.dialect o.scale (start :: tail)) := Numbering.number_meets htail
  dsimp only
  unfold whole at hwhole
  rw [hwhole]
  apply hnumber.bind
  rintro numbered ⟨tail', htokens, htail'⟩
  apply (hnote _).bind
  rintro - -
  have hfinish : Outcome.Meets (fun _ => True) (Touch.finish s.dialect o numbered.tokens) := by
    rw [htokens]
    exact Touch.run_meets htail'
  apply (meets_ofExcept hfinish).bind
  rintro parsed -
  apply (hnote _).bind
  rintro - -
  apply (hnote _).bind
  rintro - -
  apply (meets_ofExcept Render.linesFrom_meets).bind
  rintro code -
  apply (hnote _).bind
  rintro - -
  apply (hnote _).bind
  exact fun _ _ => meets_pure trivial

/-- The compound assignments of a numbered program stood in the converted one. -/
theorem numbered_compound {start second t : Token} {rest : List Token}
    {numbered : Numbering.Numbered} {σ τ : Session}
    (h : Numbering.number s.dialect o.scale (whole o (start :: second :: rest)) σ = .ok numbered τ)
    (hstart : start.kind = .program) (hsecond : second.kind = .newline ∨ second.kind = .separator)
    (hlaw : ∀ t ∈ start :: second :: rest, t.Lawful s.dialect) (ht : t ∈ numbered.tokens)
    (hk : t.kind = .compound) : t.Lawful s.dialect := by
  obtain ⟨lead, hwhole, hlead, -⟩ := whole_cons o start second rest
  rw [hwhole] at h
  have hrest : ∀ t ∈ rest, t.Lawful s.dialect := fun t ht => hlaw t (by simp [ht])
  have hunnumbered : ∀ t ∈ lead ++ rest, t.kind ≠ .lineNumber := by
    intro t ht
    rcases List.mem_append.1 ht with ht | ht
    · rcases hlead t ht with hk | hk | hk <;> simp [hk]
    · exact (hrest t ht).unnumbered
  obtain ⟨K, tail, htokens, hlay⟩ := Numbering.number_layout h hstart hsecond hunnumbered
  rw [htokens] at ht
  rcases List.mem_cons.1 ht with rfl | ht
  · simp [hstart] at hk
  · rcases List.mem_cons.1 (hlay.compounds t ht hk) with rfl | hin
    · exact hlaw t (by simp)
    · rcases List.mem_append.1 hin with hin | hin
      · rcases hlead t hin with h | h | h <;> simp [h] at hk
      · exact hrest t hin

theorem faultless {listing : Listing} {text file : Text} {tab : Int} (hs : s.Shelved)
    (hl : listing = Listing.ofText text file tab) : Faultless s o listing where
  answered := ofListing_meets hs hl
  visited lexed σ w hx hw := by
    have htext : LexedText s lexed := ⟨text, file, tab, hl ▸ hx⟩
    obtain ⟨hstacked, hlexed⟩ := Visit.visits_stacked hs (stacked_main s) htext hw
    exact Visit.faultless hs hstacked hlexed
  spoken code hcode pos := (Lexer.spoken_phrase code hcode).tokens pos
  counted n pos := (Lexer.spoken_ofInt n).tokens pos
  assigned lexed merged numbered before after ready final hx hm hn u hu hk pos := by
    have htext : LexedText s lexed := ⟨text, file, tab, hl ▸ hx⟩
    obtain ⟨start, second, rest, rfl, hstart, hsecond, -, hlaw⟩ :=
      Branch.exists_converted hs (stacked_main s) htext hm
    have hu' : u.Lawful s.dialect := numbered_compound hn hstart hsecond hlaw hu hk
    exact (Lexer.spoken_operator hu' hk).tokens pos

/-- Compiling a text never breaks down when files can be loaded from finitely many paths, all of them
as listings of texts: for all options there is a compiled program, or it is told what is wrong. -/
theorem total (s : Setting) (o : Options) (paths : List Text) (text file : Text) (tab : Int)
    (hload : ∀ path listing, s.shelf.load path = .ok listing →
      path ∈ paths ∧ ∃ text file tab, listing = Listing.ofText text file tab)
    (hsize : paths.length ≤ s.shelf.size) : Faultless s o (Listing.ofText text file tab) :=
  faultless (Setting.shelved hload hsize) rfl

/-- Two files that include each other. -/
def ring : Setting :=
  { dialect := .msx
    shelf := Shelf.ofTexts 4 [("/a", "include \"b\""), ("/b", "include \"a\"")]
    home := "/"
    main := "/a" }

theorem total_ring : Faultless ring {} (Listing.ofText "include \"b\"" "/a" 4) := by
  refine total ring {} ["/a", "/b"] _ _ _ ?_ (by decide)
  intro path listing h
  obtain ⟨hpath, text, hlisting⟩ := Shelf.load_ofTexts h
  exact ⟨hpath, text, path, 4, hlisting⟩

end Compile

end ClassicBasic
