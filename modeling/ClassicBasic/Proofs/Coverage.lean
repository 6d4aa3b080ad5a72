import ClassicBasic.Proofs.Covering

/-!
# Tokens cover their listing

The value of a token is the text of its line at its column, tokens stand one behind the other, and
what no token holds is white space or was dropped: the end of a line from a comment sign on, or
everything from the sign that opens a block of comments to the one that closes it.
-/

set_option autoImplicit false

namespace ClassicBasic

def Line.at (l : Line) (i : Nat) : Position := .onLine l.number (i + 1) l.read l.file

namespace Token

def past (t : Token) : Position := t.pos.withCol (t.pos.col + t.value.length)

/-- Whether the value of a token is the text of its line at its column. -/
def Stands (listing : Listing) (t : Token) : Prop :=
  ∃ l ∈ listing, ∃ i : Nat, t.pos = l.at i ∧ i + t.value.length ≤ l.read.length ∧
    (l.read.drop i).take t.value.length = t.value

/-- Whether a token holds the character of line `n` behind the first `i` ones. -/
structure Spans (t : Token) (n i : Nat) : Prop where
  text : t.IsText
  line : t.pos.line = n
  first : t.pos.col ≤ i + 1
  past : (i : Int) + 1 < t.past.col

end Token

namespace Listing

open Lexer (commentSign blockSign)

def Dropped (tokens : List Token) (start finish : Position) : Prop :=
  ∀ t ∈ tokens, t.IsText → t.past.Before start ∨ finish.Before t.pos

/-- Whether the character of a line behind the first `i` ones is part of a comment that goes on to the
end of the line. -/
def InComment (tokens : List Token) (l : Line) (i : Nat) : Prop :=
  ∃ j ≤ i, commentSign <+: l.read.drop j ∧ Dropped tokens (l.at j) (l.at l.read.length)

/-- Whether the character of a line behind the first `i` ones is part of a block of comments. It opens
where only white space stands in front of it and closes at the end of a line. -/
def InBlock (listing : Listing) (tokens : List Token) (l : Line) (i : Nat) : Prop :=
  ∃ first ∈ listing, ∃ final ∈ listing, ∃ j : Nat,
    blockSign <+: first.read.drop j ∧ (first.read.take j).all Text.isBlank = true ∧
      blockSign <:+ final.read ∧
      (first.number = final.number → j + 2 * blockSign.length ≤ final.read.length) ∧
      (first.at j).Before (l.at i) ∧ (l.at i).Before (final.at final.read.length) ∧
      Dropped tokens (first.at j) (final.at final.read.length)

def inner (listing : Listing) : List Line := (listing.drop 1).dropLast

/-- Whether tokens cover a listing: every one is text of its line, they follow each other, and what is
left out is white space or comment. -/
structure Covered (listing : Listing) (tokens : List Token) : Prop where
  stands : ∀ t ∈ tokens, t.IsText → t.Stands listing
  ordered : tokens.Pairwise fun t u => t.IsText → u.IsText → t.past.Before u.pos
  outside : ∀ l ∈ listing.inner, ∀ i c, l.read[i]? = some c →
    (∃ t ∈ tokens, t.Spans l.number i) ∨ Text.isBlank c = true ∨ InComment tokens l i ∨
      InBlock listing tokens l i

end Listing

namespace Lexer

open Glyph (Laid Inside endMark place)

variable {d : Dialect} {closing : Nat} {fresh : Bool} {g e : Glyph} {span input rest left : List Glyph}
  {tokens before : List Token} {t : Token} {listing : Listing}

/-! ### Order -/

theorem Covers.mute_nil (h : Covers closing fresh [] tokens) : ∀ t ∈ tokens, ¬t.IsText := by
  generalize hnil : ([] : List Glyph) = input at h
  induction h with
  | done _ mute => exact mute
  | mark mute _ ih => exact List.forall_mem_cons.2 ⟨mute, ih hnil⟩
  | blank => cases hnil
  | ending => cases hnil
  | token _ _ on => exact absurd (List.append_eq_nil_iff.1 hnil.symm).2 on
  | comment => simp at hnil
  | block => simp at hnil

theorem Covers.floor (h : Covers closing fresh input tokens) (hl : Laid input) :
    ∀ t ∈ tokens, t.IsText → (place input).Before t.pos := by
  have later {input rest : List Glyph} {tokens : List Token} {f : Bool} (hb : rest ≠ [] →
      (place input).Before (place rest)) (hm : Covers closing f rest tokens)
      (ih : ∀ t ∈ tokens, t.IsText → (place rest).Before t.pos) :
      ∀ t ∈ tokens, t.IsText → (place input).Before t.pos := by
    intro t ht htext
    by_cases hnil : rest = []
    · exact absurd htext ((hnil ▸ hm).mute_nil t ht)
    · exact (hb hnil).trans (ih t ht htext)
  induction h with
  | done _ mute => exact fun t ht htext => absurd htext (mute t ht)
  | mark mute _ ih => exact List.forall_mem_cons.2 ⟨fun htext => absurd htext mute, ih hl⟩
  | @blank _ g rest _ inside _ more ih => exact later hl.before_tail more (ih hl.tail)
  | @ending _ g rest _ _ more ih => exact later hl.before_tail more (ih hl.tail)
  | token text inside on value pos more ih =>
    refine List.forall_mem_cons.2 ⟨fun _ => ?_, later hl.before more (ih hl.append_right)⟩
    rw [pos]
    exact .inr ⟨rfl, Int.le_refl _⟩
  | comment _ _ _ more ih => exact later hl.before more (ih hl.append_right)
  | block _ _ _ _ _ more ih => exact later hl.before more (ih hl.append_right)

theorem past_token (hl : Laid (span ++ rest)) (hs : Inside span) (hv : t.value = span.map Glyph.char)
    (hp : t.pos = place (span ++ rest)) : t.past = place rest := by
  rw [hl.place_append hs, Token.past, hp, hv, List.length_map]

theorem Covers.ordered (h : Covers closing fresh input tokens) (hl : Laid input) :
    tokens.Pairwise fun t u => t.IsText → u.IsText → t.past.Before u.pos := by
  induction h with
  | @done _ _ tokens _ mute =>
    exact List.pairwise_of_forall_mem_list fun t ht _ _ htext => absurd htext (mute t ht)
  | mark mute _ ih => exact List.pairwise_cons.2 ⟨fun _ _ htext => absurd htext mute, ih hl⟩
  | blank _ _ _ ih => exact ih hl.tail
  | ending _ _ ih => exact ih hl.tail
  | token text inside on value pos more ih =>
    refine List.pairwise_cons.2 ⟨fun u hu _ hut => ?_, ih hl.append_right⟩
    rw [past_token hl inside value pos]
    exact more.floor hl.append_right u hu hut
  | comment _ _ _ _ ih => exact ih hl.append_right
  | block _ _ _ _ _ _ ih => exact ih hl.append_right

/-! ### Values -/

/-- Whether every character of the input is one of a line of the listing. -/
def Sited (listing : Listing) (input : List Glyph) : Prop :=
  ∀ g ∈ input, ∃ l ∈ listing, ∃ i : Nat, g.pos = l.at i

theorem Sited.suffix (h : Sited listing input) (hs : left <:+ input) : Sited listing left :=
  fun g hg => h g (hs.mem hg)

theorem Sited.place (h : Sited listing input) (hne : input ≠ []) :
    ∃ l ∈ listing, ∃ i : Nat, place input = l.at i := by
  obtain ⟨g, rest, rfl⟩ := List.exists_cons_of_ne_nil hne
  exact h g List.mem_cons_self

theorem Covers.stands (h : Covers closing fresh input tokens) (hl : Laid input)
    (hs : Sited listing input) : ∀ t ∈ tokens, t.IsText → t.Stands listing := by
  induction h with
  | done _ mute => exact fun t ht htext => absurd htext (mute t ht)
  | mark mute _ ih => exact List.forall_mem_cons.2 ⟨fun htext => absurd htext mute, ih hl hs⟩
  | blank _ _ _ ih => exact ih hl.tail (hs.suffix (List.suffix_cons _ _))
  | ending _ _ ih => exact ih hl.tail (hs.suffix (List.suffix_cons _ _))
  | @token _ span rest _ t text inside on value pos more ih =>
    refine List.forall_mem_cons.2 ⟨fun _ => ?_, ih hl.append_right (hs.suffix (List.suffix_append _ _))⟩
    have hne : span ++ rest ≠ [] := by simp [on]
    obtain ⟨l, hmem, i, hplace⟩ := hs.place hne
    obtain ⟨j, hj, hlen, htext⟩ := hl.text_append inside hne
    rw [hplace] at hj hlen htext
    obtain rfl : j = i := by
      simp only [Line.at, Position.onLine] at hj
      omega
    refine ⟨l, hmem, j, pos.trans hplace, ?_, ?_⟩
    · rw [value, List.length_map]
      exact hlen
    · rw [value, List.length_map]
      exact htext
  | comment _ _ _ _ ih => exact ih hl.append_right (hs.suffix (List.suffix_append _ _))
  | block _ _ _ _ _ _ ih => exact ih hl.append_right (hs.suffix (List.suffix_append _ _))

/-! ### What no token holds -/

def Accounted (listing : Listing) (tokens : List Token) (g : Glyph) : Prop :=
  ∀ l i, g.pos = Line.at l i → (∃ t ∈ tokens, t.Spans l.number i) ∨ Text.isBlank g.char = true ∨
    Listing.InComment tokens l i ∨ Listing.InBlock listing tokens l i

/-- A character of a run is as many columns behind its start as characters stand between them. -/
theorem place_mem (hl : Laid (span ++ rest)) (hs : Inside span) (hg : g ∈ span) :
    ∃ k < span.length, g.pos = (place (span ++ rest)).withCol ((place (span ++ rest)).col + k) := by
  obtain ⟨a, b, rfl⟩ := List.append_of_mem hg
  refine ⟨a.length, by simp, ?_⟩
  rw [List.append_assoc, List.cons_append] at hl ⊢
  exact hl.place_append fun u hu => hs u (List.mem_append_left _ hu)

theorem place_line {l : Line} {i : Nat} (hl : Laid (span ++ rest)) (hs : Inside span) (hg : g ∈ span)
    (hp : g.pos = l.at i) : ∃ j, place (span ++ rest) = l.at j ∧ j ≤ i ∧ i < j + span.length := by
  obtain ⟨k, hk, hplace⟩ := place_mem hl hs hg
  have hne : span ++ rest ≠ [] := by
    rintro hnil
    rw [(List.append_eq_nil_iff.1 hnil).1] at hg
    cases hg
  obtain ⟨j, hj, -⟩ := hl.text_append hs hne
  rw [hp] at hplace
  have hcol := congrArg Position.col hplace
  simp only [Line.at, Position.onLine, Position.withCol] at hcol
  refine ⟨j, ?_, by omega, by omega⟩
  have hback : (l.at i).withCol (place (span ++ rest)).col = place (span ++ rest) := by
    rw [hplace]
    rfl
  rw [← hback, hj]
  rfl

theorem spans_token {l : Line} {i : Nat} (hl : Laid (span ++ rest)) (hs : Inside span) (hg : g ∈ span)
    (htext : t.IsText) (hv : t.value = span.map Glyph.char) (hp : t.pos = place (span ++ rest))
    (hi : g.pos = l.at i) : t.Spans l.number i := by
  obtain ⟨j, hplace, hj, hlen⟩ := place_line hl hs hg hi
  rw [hplace] at hp
  refine ⟨htext, by rw [hp]; rfl, ?_, ?_⟩
  · rw [hp]
    simp only [Line.at, Position.onLine]
    omega
  · rw [Token.past, hp, hv, List.length_map]
    simp only [Line.at, Position.onLine, Position.withCol]
    omega

theorem mem_or_suffix {more : List Glyph} (h : g :: more <:+ span ++ rest) :
    g ∈ span ∨ g :: more <:+ rest := by
  rcases List.suffix_or_suffix_of_suffix h (List.suffix_append span rest) with hs | ⟨kept, hkept⟩
  · exact .inr hs
  · cases kept with
    | nil => exact .inr (hkept ▸ List.suffix_refl _)
    | cons u kept =>
      obtain ⟨gone, hgone⟩ := h
      rw [← hkept, ← List.append_assoc] at hgone
      obtain rfl := List.append_cancel_right hgone
      obtain rfl : u = g := (List.cons_eq_cons.1 hkept).1
      exact .inl (by simp)

theorem place_over {l : Line} {j : Nat} (hl : Laid (span ++ e :: rest)) (hs : Inside span)
    (he : e.ends = true) (hp : place (span ++ e :: rest) = l.at j) :
    e.pos = l.at l.read.length ∧ j + span.length = l.read.length := by
  have hplace := hl.place_append hs
  have hover := hl.text_over hs he
  rw [hp] at hplace hover
  simp only [Line.at, Position.onLine, Position.withCol] at hplace hover
  have hlen : j + span.length = l.read.length := by omega
  refine ⟨?_, hlen⟩
  rw [place] at hplace
  rw [hplace, ← hlen]
  simp only [Line.at, Position.onLine]
  push_cast
  congr 1
  omega

theorem prefix_line {l : Line} {j : Nat} {sign : Text} (hl : Laid (span ++ rest)) (hs : Inside span)
    (hne : span ++ rest ≠ []) (hp : place (span ++ rest) = l.at j)
    (hsign : sign <+: span.map Glyph.char) : sign <+: l.read.drop j := by
  obtain ⟨i, hi, -, htext⟩ := hl.text_append hs hne
  rw [hp] at hi htext
  obtain rfl : i = j := by
    simp only [Line.at, Position.onLine] at hi
    omega
  rw [← htext] at hsign
  exact hsign.trans (List.take_prefix _ _)

/-- Whether only white space stands in front of the input on its line. -/
def Fresh (input : List Glyph) : Prop :=
  ∀ g ∈ input.head?, g.ends = false → ∀ i : Nat, g.pos.col = i + 1 →
    (g.pos.text.take i).all Text.isBlank = true

theorem fresh_ends (he : e.ends = true) : Fresh (e :: rest) := by
  intro g hg hends
  obtain rfl : e = g := by simpa using hg
  rw [he] at hends
  cases hends

theorem fresh_first (hl : Laid (e :: rest)) (he : e.ends = true) : Fresh rest := by
  intro g hg _ i hi
  have hprec := (List.isChain_cons.1 hl.chain).1 g hg
  rw [Glyph.Precedes, if_pos he] at hprec
  obtain rfl : i = 0 := by omega
  rfl

theorem fresh_blank (hl : Laid (g :: rest)) (hg : g.ends = false) (hb : Text.isBlank g.char = true)
    (hf : Fresh (g :: rest)) : Fresh rest := by
  intro u hu _ i hi
  have hprec := (List.isChain_cons.1 hl.chain).1 u hu
  rw [Glyph.Precedes, if_neg (by simp [hg])] at hprec
  obtain ⟨j, hj, hplaced⟩ := (hl.apt g List.mem_cons_self).placed
  rw [hg, if_neg (by decide)] at hplaced
  rw [hprec] at hi ⊢
  simp only [Position.withCol] at hi ⊢
  obtain rfl : i = j + 1 := by omega
  rw [List.take_add_one, hplaced, List.all_append, hf g rfl hg j hj]
  simpa using hb

def EndBy (tokens : List Token) (input : List Glyph) : Prop :=
  ∀ t ∈ tokens, t.IsText → t.past.Before (place input)

theorem EndBy.later (h : EndBy tokens (span ++ rest)) (hl : Laid (span ++ rest)) (hne : rest ≠ []) :
    EndBy tokens rest := fun t ht htext => (h t ht htext).trans (hl.before hne)

theorem EndBy.tail (h : EndBy tokens (g :: rest)) (hl : Laid (g :: rest)) (hne : rest ≠ []) :
    EndBy tokens rest := fun t ht htext => (h t ht htext).trans (hl.before_tail hne)

theorem EndBy.concat (h : EndBy tokens input) (ht : t.IsText → t.past.Before (place input)) :
    EndBy (tokens ++ [t]) input := by
  intro u hu htext
  rcases List.mem_append.1 hu with hu | hu
  · exact h u hu htext
  · obtain rfl := List.mem_singleton.1 hu
    exact ht htext

/-- Tokens in front of some characters and tokens behind them leave them out. -/
theorem dropped_append (h : EndBy before input) (hm : Covers closing fresh (e :: rest) tokens)
    (hl : Laid (e :: rest)) : Listing.Dropped (before ++ tokens) (place input) e.pos := by
  intro t ht htext
  rcases List.mem_append.1 ht with ht | ht
  · exact .inl (h t ht htext)
  · exact .inr (hm.floor hl t ht htext)

/-- A block of comments in the lines of its first and last characters. -/
theorem inBlock {first middle last : List Glyph} {l : Line} {i : Nat}
    (hl : Laid (first ++ middle ++ last ++ e :: rest))
    (hs : Sited listing (first ++ middle ++ last ++ e :: rest))
    (hf : Fresh (first ++ middle ++ last ++ e :: rest)) (opens : Inside first)
    (opener : first.map Glyph.char = blockSign) (closes : Inside last)
    (closer : last.map Glyph.char = blockSign) (ends : e.ends = true)
    (hd : Listing.Dropped tokens (place (first ++ middle ++ last ++ e :: rest)) e.pos)
    (hg : g ∈ first ++ middle ++ last) (hi : g.pos = l.at i) :
    Listing.InBlock listing tokens l i := by
  have hwhole : first ++ middle ++ last ++ e :: rest = first ++ (middle ++ (last ++ e :: rest)) := by
    simp only [List.append_assoc]
  have hlast : Laid (last ++ e :: rest) := (hwhole ▸ hl).append_right.append_right
  obtain ⟨lf, hlf, j, hfirst⟩ := hs.place (by simp)
  obtain ⟨ln, hln, k, hfinal⟩ := (hs.suffix (hwhole ▸ (List.suffix_append _ _).trans
    (List.suffix_append _ _)) : Sited listing (last ++ e :: rest)).place (by simp)
  obtain ⟨hend, hover⟩ := place_over hlast closes ends hfinal
  have hsize {span : List Glyph} (h : span.map Glyph.char = blockSign) : span.length = blockSign.length := by
    rw [← h, List.length_map]
  refine ⟨lf, hlf, ln, hln, j, ?_, ?_, ?_, ?_, ?_, ?_, ?_⟩
  · rw [hwhole] at hl hfirst
    exact prefix_line hl opens (by simp) hfirst (opener ▸ List.prefix_refl _)
  · cases first with
    | nil => cases opener
    | cons u first =>
      have hu : u.pos = lf.at j := hfirst
      have hblank := hf u rfl (opens u List.mem_cons_self) j (hu ▸ rfl)
      rw [hu] at hblank
      exact hblank
  · obtain ⟨k', hk', -, htext⟩ := hlast.text_append closes (by simp)
    rw [hfinal] at hk' htext
    obtain rfl : k' = k := by
      simp only [Line.at, Position.onLine] at hk'
      omega
    have hdrop : ln.read.drop k' = blockSign := by
      rw [← closer, ← htext]
      refine (List.take_of_length_le ?_).symm
      rw [List.length_drop]
      omega
    exact hdrop ▸ List.drop_suffix _ _
  · intro hsame
    have hplace := (hwhole ▸ hl).place_append opens
    have hbefore := (hwhole ▸ hl).append_right.before (by simp)
    rw [hplace, ← hwhole, hfirst, hfinal, hsize opener] at hbefore
    simp only [Position.Before, Line.at, Position.onLine, Position.withCol, hsame] at hbefore
    rw [hsize closer] at hover
    omega
  · obtain ⟨a, b, hab⟩ := List.append_of_mem hg
    rw [hab, List.append_assoc, List.cons_append] at hl hfirst
    rw [← hfirst, ← hi]
    exact hl.before (by simp)
  · obtain ⟨a, b, hab⟩ := List.append_of_mem hg
    rw [hab, List.append_assoc] at hl
    rw [← hend, ← hi]
    exact hl.append_right.before (by simp)
  · rw [← hfirst, ← hend]
    exact hd

/-- Every character in front of the last line is in a token, white space or dropped. -/
theorem Covers.accounted (h : Covers closing fresh input tokens) (hl : Laid input)
    (hs : Sited listing input) (hb : EndBy before input) (hf : fresh = true → Fresh input)
    {more : List Glyph} (hg : g :: more <:+ input) (hlen : closing < (g :: more).length)
    (hends : g.ends = false) : Accounted listing (before ++ tokens) g := by
  have hne {rest : List Glyph} (h : g :: more <:+ rest) : rest ≠ [] :=
    List.ne_nil_of_mem (h.mem List.mem_cons_self)
  induction h generalizing before with
  | done short _ => exact absurd (Nat.le_trans hg.length_le short) (by omega)
  | mark mute _ ih =>
    rw [List.append_cons]
    exact ih hl hs (hb.concat fun htext => absurd htext mute) hf hg
  | @blank _ u rest _ inside blank _ ih =>
    rcases @mem_or_suffix _ [u] _ _ hg with hmem | hrest
    · obtain rfl := List.mem_singleton.1 hmem
      exact fun _ _ _ => .inr (.inl blank)
    · have hb' : EndBy before rest := hb.tail hl (hne hrest)
      exact ih hl.tail (hs.suffix (List.suffix_cons _ _)) hb'
        (fun hfresh => fresh_blank hl inside blank (hf hfresh)) hrest
  | @ending _ u rest _ ends _ ih =>
    rcases @mem_or_suffix _ [u] _ _ hg with hmem | hrest
    · rw [List.mem_singleton.1 hmem, ends] at hends
      cases hends
    · have hb' : EndBy before rest := hb.tail hl (hne hrest)
      exact ih hl.tail (hs.suffix (List.suffix_cons _ _)) hb' (fun _ => fresh_first hl ends) hrest
  | @token _ span rest _ t text inside on value pos _ ih =>
    rcases mem_or_suffix hg with hmem | hrest
    · exact fun l i hi => .inl ⟨t, by simp, spans_token hl inside hmem text value pos hi⟩
    · rw [List.append_cons]
      refine ih hl.append_right (hs.suffix (List.suffix_append _ _)) ?_ (fun h => by cases h) hrest
      refine (hb.later hl on).concat fun _ => ?_
      rw [past_token hl inside value pos]
      exact .inr ⟨rfl, Int.le_refl _⟩
  | comment inside sign ends hmore ih =>
    rcases mem_or_suffix hg with hmem | hrest
    · intro l i hi
      obtain ⟨j, hplace, hj, -⟩ := place_line hl inside hmem hi
      obtain ⟨hend, -⟩ := place_over hl inside ends hplace
      refine .inr (.inr (.inl ⟨j, hj, prefix_line hl inside (by simp) hplace sign, ?_⟩))
      rw [← hplace, ← hend]
      exact dropped_append hb hmore hl.append_right
    · exact ih hl.append_right (hs.suffix (List.suffix_append _ _)) (hb.later hl (hne hrest))
        (fun _ => fresh_ends ends) hrest
  | block opens opener closes closer ends hmore ih =>
    rcases mem_or_suffix hg with hmem | hrest
    · refine fun l i hi => .inr (.inr (.inr ?_))
      exact inBlock hl hs (hf rfl) opens opener closes closer ends
        (dropped_append hb hmore hl.append_right) hmem hi
    · exact ih hl.append_right (hs.suffix (List.suffix_append _ _)) (hb.later hl (hne hrest))
        (fun _ => fresh_ends ends) hrest

end Lexer

namespace Listing

open Glyph (Laid ofLine)
open Lexer (Sited Fresh)

variable {d : Dialect} {listing : Listing} {tokens : List Token} {l : Line}

/-- Whether no DATA item of the listing goes on in the next line. -/
def DataStays (d : Dialect) : Listing → Prop
  | _ :: second :: more =>
    Lexer.DataStays d (ofLine ((second :: more).getLast (List.cons_ne_nil second more))).length .newline
      ((second :: more).flatMap ofLine)
  | _ => True

theorem sited_lines (h : Proper listing) : Sited listing (listing.flatMap ofLine) := by
  intro g hg
  obtain ⟨l, hl, hmem⟩ := List.mem_flatMap.1 hg
  obtain ⟨i, hi, -⟩ := (h.laid.apt g hg).placed
  refine ⟨l, hl, i, ?_⟩
  rw [Glyph.pos_spread hmem, hi]
  rfl

theorem fresh_lines (l : Line) (more : Listing) : Fresh ((l :: more).flatMap ofLine) := by
  intro g hg _ i hi
  have hne : ofLine l ≠ [] := by
    unfold ofLine
    cases Text.trimBlankEnd l.text <;> simp [Glyph.spread]
  rw [List.flatMap_cons, List.head?_append_of_ne_nil _ hne] at hg
  have hcol := (head_ofLine l g hg).2
  obtain rfl : i = 0 := by omega
  rfl

/-- Every character of a line in front of the last one has more than the last line behind it. -/
theorem exists_glyph {lines : Listing} {i : Nat} {c : Char} (last : Line) (hl : l ∈ lines)
    (hc : l.read[i]? = some c) : ∃ g more, g.char = c ∧ g.ends = false ∧ g.pos = l.at i ∧
      g :: more <:+ (lines ++ [last]).flatMap ofLine ∧ (ofLine last).length < (g :: more).length := by
  have hmem : ⟨c, .onLine l.number (1 + i) l.read l.file, false⟩ ∈ ofLine l := Glyph.mem_spread hc
  have hin : _ ∈ lines.flatMap ofLine := List.mem_flatMap.2 ⟨l, hl, hmem⟩
  obtain ⟨a, b, hab⟩ := List.append_of_mem hin
  refine ⟨⟨c, .onLine l.number (1 + i) l.read l.file, false⟩, b ++ ofLine last, rfl, rfl, ?_, ?_, ?_⟩
  · rw [Line.at, Int.add_comm]
  · rw [List.flatMap_append, hab, List.flatMap_singleton, List.append_assoc, List.cons_append]
    exact List.suffix_append _ _
  · rw [List.length_cons, List.length_append]
    omega

/-- Lexing covers a listing of which no DATA item goes on in the next line. -/
theorem Proper.covered (hp : Proper listing) (h : Lexer.lex d listing = .ok tokens)
    (hd : DataStays d listing) : Covered listing tokens := by
  unfold Lexer.lex at h
  split at h
  · rename_i first second more
    obtain ⟨read, hread, rfl⟩ := Outcome.map_eq_ok_iff.1 h
    have hlaid := hp.tail.laid
    have hsited : Sited (first :: second :: more) ((second :: more).flatMap ofLine) := fun g hg => by
      obtain ⟨l, hl, hi⟩ := sited_lines hp.tail g hg
      exact ⟨l, List.mem_cons_of_mem _ hl, hi⟩
    have hcov := ((Lexer.lexFrom_covers hlaid hd hread).mark
      (show ¬Token.IsText ⟨.newline, [Glyph.endMark], Glyph.place (ofLine first)⟩ from Bool.false_ne_true)).mark
      (show ¬Token.IsText ⟨.program, programText, Glyph.place (ofLine first)⟩ from Bool.false_ne_true)
    refine ⟨hcov.stands hlaid hsited, hcov.ordered hlaid, ?_⟩
    intro l hl i c hc
    obtain ⟨g, rest, rfl, hends, hpos, hsuffix, hlen⟩ :=
      exists_glyph ((second :: more).getLast (by simp)) hl hc
    have hlines : inner (first :: second :: more) ++ [(second :: more).getLast (by simp)] =
        second :: more := List.dropLast_append_getLast (by simp)
    rw [hlines] at hsuffix
    have hnone : Lexer.EndBy [] ((second :: more).flatMap ofLine) := by simp [Lexer.EndBy]
    exact hcov.accounted hlaid hsited hnone (fun _ => fresh_lines second more) hsuffix hlen hends l i hpos
  · cases h

/-- Lexing covers the listing of a text. -/
theorem covered_ofText (d : Dialect) (text file : Text) (tab : Int)
    (h : Lexer.lex d (ofText text file tab) = .ok tokens) (hd : DataStays d (ofText text file tab)) :
    Covered (ofText text file tab) tokens := (proper_ofText text file tab).covered h hd

/-- Items of DATA, a string and comments of both kinds. -/
theorem covered_data : ∃ tokens,
    Lexer.lex .msx (ofText "data 1,2:print \"a\" ## b\n###\nc ###" "/main" 4) = .ok tokens ∧
      Covered (ofText "data 1,2:print \"a\" ## b\n###\nc ###" "/main" 4) tokens := by
  have hruns : Lexer.staysFor .msx (ofLine ⟨4, eofText, "/main"⟩).length 20 .newline
        ((ofText "data 1,2:print \"a\" ## b\n###\nc ###" "/main" 4).tail.flatMap ofLine) = true ∧
      (Lexer.lex .msx (ofText "data 1,2:print \"a\" ## b\n###\nc ###" "/main" 4)).isOk = true := by
    decide +kernel
  have hd : DataStays .msx (ofText "data 1,2:print \"a\" ## b\n###\nc ###" "/main" 4) :=
    Lexer.dataStays_of_staysFor hruns.1
  cases h : Lexer.lex .msx (ofText "data 1,2:print \"a\" ## b\n###\nc ###" "/main" 4) with
  | ok tokens => exact ⟨tokens, rfl, covered_ofText .msx _ _ _ h hd⟩
  | error e =>
    have hok := hruns.2
    rw [h] at hok
    cases hok

end Listing

end ClassicBasic
