import ClassicBasic.Proofs.Nesting
import ClassicBasic.Proofs.Tidying
import ClassicBasic.Proofs.Total

/-!
# Loops across files

The third stage puts files in the places of their directives, and nested loops stay nested, since each
file ends all loops that it starts.
-/

set_option autoImplicit false

namespace ClassicBasic

variable {l l' out placed whole : List Token} {t u : Token}

theorem marks_cons_of_not (h : t.kind.isLooped = false) : marks (t :: l) = marks l :=
  List.filter_cons_of_neg (by simp [h])

/-- What follows is put behind a list if a GOTO ends it where a jump comes first. -/
theorem Guided.join (h : Guided l) (hc : l'.IsChain fun t u => u.Leaps → t.IsGoto)
    (hj : ∀ u ∈ l'.head?, u.Leaps → ∃ g ∈ l.getLast?, g.IsGoto) : Guided (l ++ l') := by
  refine ⟨fun t ht => ?_, h.chain.append hc fun t ht u hu hr => ?_⟩
  · cases l with
    | nil =>
      intro hr
      obtain ⟨g, hg, -⟩ := hj t ht hr
      cases hg
    | cons u l => exact h.head t ht
  · obtain ⟨g, hg, hgoto⟩ := hj u hu hr
    obtain rfl : g = t := Option.some.inj (hg.symm.trans ht)
    exact hgoto

namespace Merge

/-- Whether an output (last token first) carries the loops of the tokens `l` that have been put in
place. -/
structure Threaded (l out : List Token) : Prop where
  same : marks out.reverse = marks l
  bound : ∀ t ∈ out, t.Bound
  guided : Guided out.reverse
  last : ∀ g ∈ l.getLast?, g.IsGoto → ∃ g' ∈ out.head?, g'.IsGoto

namespace Threaded

theorem put (h : Threaded l out) (hb : ∀ t ∈ l', t.Bound) (hg : Guided (l ++ l')) :
    Threaded (l ++ l') (l'.reverse ++ out) := by
  have heq : (l'.reverse ++ out).reverse = out.reverse ++ l' := by simp
  refine ⟨by rw [heq, marks_append, marks_append, h.same], fun t ht => ?_, ?_, fun g hgl hgoto => ?_⟩
  · rcases List.mem_append.1 ht with ht | ht
    · exact hb t (List.mem_reverse.1 ht)
    · exact h.bound t ht
  · rw [heq]
    refine h.guided.join (List.IsChain.right_of_append hg.chain) fun u hu hr => ?_
    cases l' with
    | nil => cases hu
    | cons v l' =>
      obtain rfl : v = u := Option.some.inj hu
      have hsplit : Guided ((l ++ [v]) ++ l') := by simpa using hg
      obtain ⟨g, hgl, hgoto⟩ := hsplit.left.goto_of_leaps hr
      obtain ⟨g', hg', hgoto'⟩ := h.last g hgl hgoto
      exact ⟨g', by rwa [List.getLast?_reverse], hgoto'⟩
  · rcases List.eq_nil_or_concat l' with rfl | ⟨before, v, rfl⟩
    · exact h.last g (by simpa using hgl) hgoto
    · rw [List.concat_eq_append] at hgl ⊢
      exact ⟨g, by simpa using hgl, hgoto⟩

theorem alter {gone kept new : List Token} (h : Threaded l (gone ++ kept))
    (hgone : ∀ u ∈ gone, u.kind.isLooped = false) (hnew : ∀ u ∈ new, u.Straight) (ht : t.Straight)
    (hk : t.kind ≠ .jump) : Threaded (l ++ [t]) (new ++ kept) := by
  have hout : (gone ++ kept).reverse = kept.reverse ++ gone.reverse := List.reverse_append
  have hguided := h.guided
  have hsame := h.same
  rw [hout] at hguided hsame
  have hnothing {l : List Token} (hl : ∀ u ∈ l, u.kind.isLooped = false) : marks l.reverse = [] :=
    marks_eq_nil fun u hu => hl u (List.mem_reverse.1 hu)
  refine ⟨?_, fun u hu => ?_, ?_, fun g hg hgoto => ?_⟩
  · rw [List.reverse_append, marks_append, hnothing fun u hu => (hnew u hu).kind, marks_append,
      ← hsame, marks_append, hnothing hgone, marks_cons_of_not ht.kind]
    simp [marks]
  · rcases List.mem_append.1 hu with hu | hu
    · exact (hnew u hu).bound
    · exact h.bound u (List.mem_append_right _ hu)
  · rw [List.reverse_append]
    exact hguided.left.append
      (.of_not_leaps fun u hu => Token.not_leaps (hnew u (List.mem_reverse.1 hu)).kind)
  · obtain rfl : t = g := by simpa using hg
    exact absurd hgoto.1 hk

end Threaded

theorem tracks_threaded :
    Tracks fun l out => (∀ t ∈ l, t.Bound) → Guided l → Threaded l out where
  put h tokens hb hg :=
    (h (fun t ht => hb t (List.mem_append_left _ ht)) hg.left).put
      (fun t ht => hb t (List.mem_append_right _ ht)) hg
  sign {l out last t} h hl ht hb hg := by
    have hthread : Threaded l ([last] ++ out) :=
      h (fun t ht => hb t (List.mem_append_left _ ht)) hg.left
    have hlast : last.kind.isLooped = false := by
      cases hk : last.kind.isLooped with
      | false => rfl
      | true =>
        have hsign := (hthread.bound last List.mem_cons_self).unsigned hk
        exact absurd hl (hsign.ne (c := '~') (by decide))
    have hnamed : t.Straight := Token.straight_of_kind ht rfl (by decide) (by decide)
    have hnew : ∀ u ∈ [t], u.Straight := by simpa using hnamed
    exact hthread.alter (by simpa using hlast) hnew hnamed (by simp [ht])
  add {l out} h p t hb hg := by
    have hthread := h (fun t ht => hb t (List.mem_append_left _ ht)) hg.left
    by_cases hk : t.kind = .newline ∨ t.kind = .separator ∨ t.kind = .string
    · have ht : t.Straight := by
        rcases hk with hk | hk | hk <;> exact Token.straight_of_kind hk rfl (by decide) (by decide)
      obtain ⟨gone, kept, new, rfl, heq, hgone, hnew⟩ := add_alters p t out
      rw [heq]
      refine hthread.alter (fun u hu => ?_) (fun u hu => ?_) ht
        (by rcases hk with hk | hk | hk <;> simp [hk])
      · rcases hgone u hu with h | h | h <;> rw [h] <;> rfl
      · rcases hnew u hu with rfl | ⟨hs, -⟩
        · exact ht
        · exact Token.straight_of_kind hs rfl (by decide) (by decide)
    · have heq : add p t out = [t].reverse ++ out := by
        unfold add
        split <;> simp_all
      rw [heq]
      exact hthread.put (fun u hu => hb u (List.mem_append_right _ hu)) hg

/-- Whether `whole`, with files in place, keeps the loops of `placed` nested. -/
structure Knits (a placed whole b : List Token) : Prop where
  nests : Nests a whole b
  bound : ∀ t ∈ whole, t.Bound
  chain : whole.IsChain fun t u => u.Leaps → t.IsGoto
  head : ∀ u ∈ whole.head?, u.Leaps → u ∈ placed.head?

section Knits

variable {rest front a a' b : List Token}

theorem Knits.blunt (h : Knits a rest whole b) (ht : t.kind ≠ .jump)
    (hc : (t :: rest).IsChain fun t u => u.Leaps → t.IsGoto) : ∀ u ∈ whole.head?, ¬u.Leaps := by
  intro u hu hr
  have hrest := h.head u hu hr
  cases rest with
  | nil => cases hrest
  | cons v rest =>
    obtain rfl : v = u := Option.some.inj hrest
    exact ht (hc.rel hr).1

theorem Knits.behind (h : Knits a rest whole b) (hn : Nests a front a) (hb : ∀ t ∈ front, t.Bound)
    (hg : Guided front) (hw : ∀ u ∈ whole.head?, ¬u.Leaps) : Knits a placed (front ++ whole) b := by
  refine ⟨hn.append h.nests, fun u hu => ?_, ?_, fun u hu hr => ?_⟩
  · rcases List.mem_append.1 hu with hu | hu
    · exact hb u hu
    · exact h.bound u hu
  · exact hg.chain.append h.chain fun _ _ u hu hr => absurd hr (hw u hu)
  · cases front with
    | nil => exact absurd hr (hw u hu)
    | cons v front => exact absurd hr (hg.head u hu)

theorem Knits.token (h : Knits a' rest whole b) (hn : Nests a (t :: whole) b) (ht : t.Bound)
    (hc : (t :: rest).IsChain fun t u => u.Leaps → t.IsGoto) : Knits a (t :: rest) (t :: whole) b := by
  refine ⟨hn, List.forall_mem_cons.2 ⟨ht, h.bound⟩, h.chain.cons fun u hu hr => ?_, fun _ hu _ => hu⟩
  have hmem := h.head u hu hr
  cases rest with
  | nil => cases hmem
  | cons v rest =>
    obtain rfl : v = u := Option.some.inj hmem
    exact hc.rel hr

theorem textLine_straight (texts : List Token) : ∀ u ∈ texts.flatMap textLine, u.Straight := by
  intro u hu
  obtain ⟨v, -, hu⟩ := List.mem_flatMap.1 hu
  simp only [textLine, List.mem_cons, List.not_mem_nil, or_false] at hu
  rcases hu with rfl | rfl | rfl
  · exact Token.straight_of_kind (k := .remark) rfl rfl (by decide) (by decide)
  · exact Token.straight_of_kind (k := .remarkText) rfl rfl (by decide) (by decide)
  · exact Token.straight_of_kind (k := .newline) rfl rfl (by decide) (by decide)

theorem Knits.block {stop : Token} {texts : List Token} (h : Knits a rest whole b)
    (hs : stop.kind = .blockEnd)
    (hc : (t :: texts ++ stop :: rest).IsChain fun t u => u.Leaps → t.IsGoto) :
    Knits a placed (texts.flatMap textLine ++ whole) b := by
  have hstraight := textLine_straight texts
  have hplain := (Nests.append_iff (l := []) fun u hu => (hstraight u hu).kind).2 (.done (a := a))
  refine h.behind hplain (fun u hu => (hstraight u hu).bound)
    (.of_not_leaps fun u hu => Token.not_leaps (hstraight u hu).kind) ?_
  exact h.blunt (by simp [hs]) (List.IsChain.right_of_append hc)

/-- What the files come to that are put in place keeps the loops nested. -/
theorem Expands.knit {gives : Token → Token → List Token → Prop} (h : Expands gives placed whole)
    (hg : ∀ t name spliced, gives t name spliced → name.kind = .string ∧ Knit spliced)
    (hn : Nests a placed b) (hb : ∀ t ∈ placed, t.Bound)
    (hc : placed.IsChain fun t u => u.Leaps → t.IsGoto) : Knits a placed whole b := by
  induction h generalizing a with
  | eof => exact ⟨hn, hb, hc, fun _ hu _ => hu⟩
  | @included t name rest spliced whole hk hi hgive hmore ih =>
    obtain ⟨hname, hspliced⟩ := hg _ _ _ hgive
    simp only [List.forall_mem_cons] at hb
    have hrest := (Nests.cons_iff (by rw [hname]; rfl)).1 ((Nests.cons_iff (by rw [hk]; rfl)).1 hn)
    have hmore := ih hrest hb.2.2 hc.tail.tail
    exact hmore.behind (hspliced.nests.inside a) hspliced.bound hspliced.guided
      (hmore.blunt (by simp [hname]) hc.tail)
  | @block t stop texts rest whole hk ht hs hmore ih =>
    have hplain : ∀ u ∈ t :: texts ++ [stop], u.kind.isLooped = false := by
      intro u hu
      simp only [List.cons_append, List.mem_cons, List.mem_append, List.not_mem_nil, or_false] at hu
      rcases hu with rfl | hu | rfl
      · rw [hk]; rfl
      · rw [ht u hu]; rfl
      · rw [hs]; rfl
    have heq : t :: texts ++ stop :: rest = (t :: texts ++ [stop]) ++ rest := by simp
    have hchain := hc
    rw [heq] at hn hb hc
    obtain ⟨a', hfirst, hrest⟩ := hn.of_append
    obtain rfl : a = a' := by
      have := (Nests.append_iff (l := []) hplain).1 hfirst
      cases this
      rfl
    exact (ih hrest (fun u hu => hb u (List.mem_append_right _ hu))
      (List.IsChain.right_of_append hc)).block hs hchain
  | @token t rest whole hd hblock he hmore ih =>
    obtain ⟨ht, hb⟩ := List.forall_mem_cons.1 hb
    have knits {a : List Token} (hrest : Nests a rest b) : Knits a rest whole b := ih hrest hb hc.tail
    cases hn with
    | token hk hrest => exact (knits hrest).token (.token hk (knits hrest).nests) ht hc
    | label hk hrest => exact (knits hrest).token (.label hk (knits hrest).nests) ht hc
    | opens hk hrest => exact (knits hrest).token (.opens hk (knits hrest).nests) ht hc
    | closes hk hm hrest => exact (knits hrest).token (.closes hk hm (knits hrest).nests) ht hc
    | leaves hk hm hrest => exact (knits hrest).token (.leaves hk hm (knits hrest).nests) ht hc

end Knits

end Merge

theorem Knit.within {front back : List Token} (h : Knit (front ++ (l ++ back)))
    (hf : ∀ t ∈ front, t.kind.isLooped = false ∧ t.kind ≠ .jump)
    (hb : ∀ t ∈ back, t.kind.isLooped = false) : Knit l := by
  obtain ⟨a, hleft, hright⟩ := h.nests.of_append
  have ha : a = [] := by
    have := (Nests.append_iff (l := []) fun t ht => (hf t ht).1).1 hleft
    cases this
    rfl
  subst ha
  refine ⟨(Nests.append_iff hb).1 hright, fun t ht => h.bound t (by simp [ht]), fun t ht hr => ?_,
    List.IsChain.left_of_append (List.IsChain.right_of_append h.guided.chain)⟩
  obtain ⟨more, rfl⟩ : ∃ more, l = t :: more := by
    cases l with
    | nil => cases ht
    | cons u more =>
      obtain rfl : u = t := Option.some.inj ht
      exact ⟨more, rfl⟩
  have hsplit : Guided ((front ++ [t]) ++ (more ++ back)) := by simpa using h.guided
  obtain ⟨g, hg, hgoto⟩ := hsplit.left.goto_of_leaps hr
  exact (hf g (List.mem_of_getLast? hg)).2 hgoto.1

namespace Branch

open Merge

variable {s : Setting} {b : Branch} {merged lexed : List Token} {σ τ : Session}

theorem isLooped_of_not_isCode (h : t.isCode = false) : t.kind.isLooped = false ∧ t.kind ≠ .jump := by
  cases hk : t.kind <;> simp_all [Token.isCode, Kind.isLooped]

theorem body_knit {depth : Nat} {listing : Listing} (hx : Lexer.lex s.dialect listing = .ok lexed)
    (h : convert s depth b lexed σ = .ok merged τ) (hk : Knit merged) : Knit (body merged) := by
  obtain ⟨start, second, inner, last, rfl, hstart, hsecond, hlast⟩ := convert_framed hx h
  have hfront : ∀ t ∈ [start, second], t.kind.isLooped = false ∧ t.kind ≠ .jump := by
    simpa using ⟨isLooped_of_not_isCode hstart, isLooped_of_not_isCode hsecond⟩
  have hend := (isLooped_of_not_isCode hlast).1
  simp only [body, List.drop_succ_cons, List.drop_zero, List.dropLast_concat]
  split
  · rename_i hn
    obtain ⟨before, u, rfl⟩ : ∃ before u, inner = before ++ [u] := by
      rcases List.eq_nil_or_concat inner with rfl | ⟨before, u, rfl⟩
      · cases hn
      · exact ⟨before, u, List.concat_eq_append⟩
    have hu : u.kind = .newline := by simpa using hn
    rw [List.dropLast_concat]
    have hsplit : Knit ([start, second] ++ (before ++ [u, last])) := by simpa using hk
    refine hsplit.within hfront ?_
    simpa [hu, Kind.isLooped] using hend
  · have hsplit : Knit ([start, second] ++ (inner ++ [last])) := hk
    exact hsplit.within hfront (by simpa using hend)

theorem enters_string {directive name : Token} {r : Branch × List Token}
    (h : enters s b directive name σ = .ok r τ) : name.kind = .string := by
  unfold enters at h
  obtain ⟨_, _, -, h⟩ := Conversion.bind_eq_ok_iff.1 h
  obtain ⟨⟨path, listing⟩, _, hn, -⟩ := Conversion.bind_eq_ok_iff.1 h
  exact ((named_meets directive name).holds (Conversion.ofExcept_eq_ok_iff.1 hn).1).1

namespace Visit

variable {v : Visit}

def Sited (s : Setting) (v : Visit) : Prop :=
  ∃ file listing, Listing.Of listing file ∧ Lexer.lex s.dialect listing = .ok v.lexed

theorem sited_of_visits {w : Visit} (hv : v.Sited s)
    (hs : ∀ path listing, s.shelf.load path = .ok listing → ∃ file, Listing.Of listing file)
    (hw : Visits s v w) : w.Sited s := by
  rcases hw.cases_tail with rfl | ⟨u, -, hi⟩
  · exact hv
  · cases hi with
    | entered _ _ _ _ _ he =>
      obtain ⟨listing, hload, hx⟩ := enters_shelved he
      obtain ⟨file, hof⟩ := hs _ _ hload
      exact ⟨file, listing, hof, hx⟩

/-- Whether nothing that a file captures holds a brace or EXIT. -/
def Unlooped (s : Setting) (v : Visit) : Prop :=
  ∀ tables carried before after,
    Directive.carryOut s.dialect v.branch.quiet v.lexed before = .ok (tables, carried) after →
    ClassicBasic.Unlooped s.dialect tables carried

/-- The first two stages nest the loops of a file as they are written. -/
theorem front_knit (hs : v.Sited s) (hu : v.Unlooped s)
    (h : front s v.branch v.lexed σ = .ok placed τ) :
    Knit placed ∧ ∃ tables carried before after,
      Directive.carryOut s.dialect v.branch.quiet v.lexed before = .ok (tables, carried) after ∧
        Follows [] (turns carried) (marks placed) [] := by
  obtain ⟨file, listing, hof, hx⟩ := hs
  obtain ⟨tables, carried, before, after, hd, hp, -, -⟩ := front_cases h
  obtain ⟨hplain, hsound⟩ := Directive.carryOut_sound hx hd
  obtain ⟨hwhole, hearly, hcoded⟩ := Directive.carryOut_whole hx hd
  obtain ⟨hknit, hfollows⟩ := Label.place_knit hp hsound hplain (hu _ _ _ _ hd)
    (Directive.carryOut_named hd) hcoded hwhole hearly (Directive.carryOut_home hof hx hd)
  exact ⟨hknit, tables, carried, before, after, hd, hfollows⟩

/-- How the loops of a file come through its conversion: as they are nested where they are written, and
between the files that are put in place as they are in the file. -/
def Nested (s : Setting) (v : Visit) : Prop :=
  ∃ tables carried placed whole merged before after ready τ,
    Directive.carryOut s.dialect v.branch.quiet v.lexed before = .ok (tables, carried) after ∧
      front s v.branch v.lexed v.session = .ok placed ready ∧
      convert s v.depth v.branch v.lexed v.session = .ok merged τ ∧
      Follows [] (turns carried) (marks placed) [] ∧ Expands (v.Gives s) placed whole ∧
      marks merged = marks whole

theorem convert_knit (h : convert s v.depth v.branch v.lexed v.session = .ok merged τ)
    (hc : ∀ w, Visits s v w → w.Sited s ∧ w.Unlooped s) : Knit merged ∧ v.Nested s := by
  -- the files that a file includes have less room below them
  obtain ⟨room, hroom⟩ : ∃ room, v.depth < room := ⟨_, Nat.lt_succ_self _⟩
  induction room generalizing v merged τ with
  | zero => exact absurd hroom (Nat.not_lt_zero _)
  | succ room ih =>
    obtain ⟨hsited, hu⟩ := hc v (.refl v)
    obtain ⟨file, listing, -, hx⟩ := id hsited
    obtain ⟨placed, ready, whole, hfront, hexpands, hthread⟩ :=
      convert_expands tracks_threaded
        (fun _ _ => ⟨rfl, by simp, .of_not_leaps (by simp), by simp⟩) hx h
    obtain ⟨hplaced, tables, carried, before, ready', hcarried, hfollows⟩ := front_knit hsited hu hfront
    obtain ⟨hnests, hbound, hchain, hhead⟩ := hexpands.knit (fun t name spliced hg => by
      obtain ⟨w, entered, after, merged', hincludes, hdepth, henters, hconv, rfl, -⟩ := hg
      obtain ⟨listing', hx'⟩ := enters_lexed henters
      obtain ⟨hknit, -⟩ := ih hconv (fun u hvisits => hc u (.head hincludes hvisits)) (by omega)
      exact ⟨enters_string henters, body_knit hx' hconv hknit⟩) hplaced.nests hplaced.bound
      hplaced.guided.chain
    obtain ⟨hsame, hmerged, hguided, -⟩ := hthread hbound
      ⟨fun u hu hr => hplaced.guided.head u (hhead u hu hr) hr, hchain⟩
    rw [List.reverse_reverse] at hsame hguided
    exact ⟨⟨nests_marks.1 (hsame ▸ nests_marks.2 hnests), fun t ht => hmerged t (List.mem_reverse.2 ht),
      hguided⟩, ⟨tables, carried, placed, whole, merged, before, ready', ready, τ, hcarried, hfront, h,
        hfollows, hexpands, hsame⟩⟩

/-- A file that is included on the way of a conversion that succeeds is converted. -/
theorem Includes.converts {w : Visit} {listing : Listing} (hi : Includes s v w)
    (hx : Lexer.lex s.dialect listing = .ok v.lexed)
    (h : convert s v.depth v.branch v.lexed v.session = .ok merged τ) :
    ∃ merged' τ', convert s w.depth w.branch w.lexed w.session = .ok merged' τ' := by
  obtain ⟨placed, ready, hfront, hm⟩ := convert_cases h
  obtain ⟨start, newline, rest, final, last, left, rfl, -, -, hr, hlast, -⟩ :=
    reaches_of_merge (front_sound hx hfront) hm
  cases hi with
  | @entered depth p t rest' lexed b session hd hw hp hk hi he =>
    obtain ⟨_, _, _, _, hfront', hwalk⟩ := hw
    cases hfront.symm.trans hfront'
    -- the walk goes on from the directive, which is not the end of the file
    have hend := reaches_end hwalk hr hlast
    obtain ⟨σ₀, out, input⟩ := p
    subst hp
    rcases hend.cases_head with heq | ⟨q, hstep, -⟩
    · cases heq
      exact absurd (hk.symm.trans hlast) (by decide)
    · cases hstep with
      | included _ _ hs =>
        obtain ⟨b', lexed', entered, merged', he', hinner, -⟩ := splice_entered hs
        cases he.symm.trans he'
        rw [hd] at hinner
        exact ⟨merged', _, hinner⟩
      | block hk' => exact absurd (hk.symm.trans hk') (by decide)
      | named hk' => exact absurd (hk.symm.trans hk') (by decide)
      | token _ hd' => exact absurd ⟨hk, hi⟩ hd'

theorem nested_of_visits {w : Visit} (h : convert s v.depth v.branch v.lexed v.session = .ok merged τ)
    (hc : ∀ w, Visits s v w → w.Sited s ∧ w.Unlooped s) (hw : Visits s v w) :
    w.Nested s := by
  induction hw using Relation.ReflTransGen.head_induction_on generalizing merged τ with
  | refl => exact (convert_knit h hc).2
  | head hi hrest ih =>
    obtain ⟨⟨file, listing, -, hx⟩, -⟩ := hc _ (.refl _)
    obtain ⟨merged', τ', h'⟩ := hi.converts hx h
    exact ih h' fun u hu => hc u (.head hi hu)

end Visit

end Branch

end ClassicBasic
