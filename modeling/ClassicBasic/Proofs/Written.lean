import ClassicBasic.Proofs.GivenNames
import ClassicBasic.Proofs.Shown

/-!
# Lines of code are not empty

Behind its number every line of a program has a character other than a blank when every line end of the
program comes where code stands on the line. Where an underscore is alone on the last line it does not.
-/

set_option autoImplicit false

namespace ClassicBasic

variable {d : Dialect} {held : Prop} {rest : List Token}

theorem Naming.common_visible : Naming.Common fun v => ∃ c ∈ v, c ≠ ' ' where
  declared v h := by
    obtain ⟨c, hc, hne⟩ : ∃ c ∈ v, c ≠ ' ' := by
      unfold Dialect.isShortName at h
      split at h
      · rename_i c
        refine ⟨c, by simp, ?_⟩
        rintro rfl
        exact absurd h (by decide)
      · rename_i c x
        refine ⟨c, by simp, ?_⟩
        rintro rfl
        exact absurd (Bool.and_eq_true_iff.1 h).1 (by decide)
      · cases h
    exact ⟨Text.lowerChar c, List.mem_map_of_mem hc, Text.lowerChar_ne_blank hne⟩
  stock slot v h := by
    have hall : (Dialect.letters.all (· != ' ')) = true := by decide
    unfold Dialect.shortName? at h
    simp only [Option.bind_eq_bind, Option.bind_eq_some_iff] at h
    obtain ⟨first, hf, second, -, heq⟩ := h
    cases heq
    exact ⟨first, by simp, by simpa using List.all_eq_true.1 hall _ (List.mem_of_getElem? hf)⟩

namespace Text

theorem mem_trimEnd {p : Char → Bool} {v : Text} {c : Char} (hc : c ∈ v) (hp : p c = false) :
    c ∈ trimEnd p v := by
  rw [← trimEnd_append_takeWhile p v] at hc
  refine (List.mem_append.1 hc).resolve_right fun htail => ?_
  rw [List.mem_takeWhile_imp (List.mem_reverse.1 htail)] at hp
  cases hp

end Text

namespace Render

variable {o : Options} {notes : List (Int × Text)} {row : List Token}

/-- Every row of lines that are occupied has a token that is shown. -/
theorem rowsFrom_shown {read tokens : List Token} (h : Occupied Token.Shown held tokens)
    (hr : held → ∃ t ∈ read, t.Shown) : ∀ row ∈ rowsFrom read tokens, ∃ t ∈ row, t.Shown := by
  have more {read : List Token} {t : Token} (hr : ∃ t ∈ read, t.Shown) :
      ∃ u ∈ (if t.value = [] then read else t :: read), u.Shown := by
    obtain ⟨u, hu, hs⟩ := hr
    split
    · exact ⟨u, hu, hs⟩
    · exact ⟨u, List.mem_cons_of_mem _ hu, hs⟩
  induction tokens generalizing held read with
  | nil => simp [rowsFrom]
  | cons t rest ih =>
    simp only [rowsFrom]
    split
    · simp
    · split
      · rename_i hk
        rw [occupied_newline hk] at h
        refine List.forall_mem_cons.2 ⟨?_, ih h.2 fun h => h.elim⟩
        simpa using more (t := t) (hr h.1)
      · rename_i hk
        rw [occupied_cons hk] at h
        refine ih h ?_
        rintro (hheld | ht)
        · exact more (hr hheld)
        · have hne : t.value ≠ [] := by
            intro hnil
            obtain ⟨c, hc, -⟩ := ht.visible
            simp [hnil] at hc
          exact ⟨t, by simp [hne], ht⟩

theorem rows_shown {tokens : List Token} (h : Occupied Token.Shown False (tokens.drop 2)) :
    ∀ row ∈ rows tokens, ∃ t ∈ row, t.Shown :=
  rowsFrom_shown h fun hheld => hheld.elim

theorem lineText_holds (d : Dialect) (space : Text) (last : Option Token) (written : Text)
    (tokens : List Token) : ∃ code, lineText d space last written tokens = written ++ code ∧
      ∀ t ∈ tokens, t.kind ≠ .newline → t.value ⊆ code := by
  induction tokens generalizing last written with
  | nil => exact ⟨[], by simp [lineText], by simp⟩
  | cons t rest ih =>
    simp only [lineText]
    split
    · rename_i hk
      obtain ⟨code, hcode, hall⟩ := ih (some t) written
      exact ⟨code, hcode, List.forall_mem_cons.2 ⟨fun hne => absurd hk hne, hall⟩⟩
    · obtain ⟨apart, hapart⟩ : ∃ apart,
          (if needsSpace last t written then written ++ " " else written) = written ++ apart := by
        split
        · exact ⟨_, rfl⟩
        · exact ⟨[], by simp⟩
      rw [hapart]
      generalize spaceBefore d space last t (written ++ apart) = front
      obtain ⟨code, hcode, hall⟩ := ih (some t)
        (written ++ apart ++ front ++ t.value ++ spaceBehind d space t rest.head?)
      refine ⟨apart ++ front ++ t.value ++ spaceBehind d space t rest.head? ++ code, ?_, ?_⟩
      · rw [hcode]
        simp only [List.append_assoc]
      · refine List.forall_mem_cons.2 ⟨fun _ c hc => by simp [hc], fun u hu hk c hc => ?_⟩
        exact List.mem_append_right _ (hall u hu hk hc)

/-- Whether a text is what stands in front of the code of a row: the number that heads it, or nothing. -/
def Heads (heading : Text) (row : List Token) : Prop :=
  heading = [] ∨ ∃ n, heading = Text.ofInt n ∧ HeadedBy n row

theorem line_shown {heading : Text} (d : Dialect) (o : Options) (notes : List (Int × Text))
    (h : Heads heading row) : ∃ code, line d o notes row = heading ++ code ∧
      ∀ t ∈ row, t.Shown → ∀ c ∈ t.value, c ≠ ' ' → c ∈ code := by
  obtain ⟨body, hbody, hall⟩ : ∃ body,
      lineText d (if o.stripSpaces then [] else " ") none [] row = heading ++ body ∧
        ∀ t ∈ row, t.Shown → t.value ⊆ body := by
    rcases h with rfl | ⟨n, rfl, t, more, rfl, hk, hv⟩
    · obtain ⟨body, hbody, hall⟩ := lineText_holds d (if o.stripSpaces then [] else " ") none [] row
      exact ⟨body, hbody, fun t ht hs => hall t ht hs.line⟩
    · have hbefore (space text : Text) : spaceBefore d space none t text = [] := rfl
      have hneeds : needsSpace none t [] = false := by simp [needsSpace]
      simp only [lineText, hk, hneeds, hbefore, hv, reduceCtorEq, if_false, Bool.false_eq_true,
        List.nil_append, List.append_nil]
      obtain ⟨body, hbody, hall⟩ := lineText_holds d (if o.stripSpaces then [] else " ") (some t)
        (Text.ofInt n ++ spaceBehind d (if o.stripSpaces then [] else " ") t more.head?) more
      refine ⟨spaceBehind d (if o.stripSpaces then [] else " ") t more.head? ++ body,
        by rw [hbody, List.append_assoc], List.forall_mem_cons.2 ⟨fun hs => absurd hk hs.number, ?_⟩⟩
      exact fun u hu hs c hc => List.mem_append_right _ (hall u hu hs.line hc)
  have hsolid : ∀ c ∈ heading, isSpace c = false := by
    rcases h with rfl | ⟨n, rfl, -⟩
    · simp
    · exact not_isSpace_ofInt
  have kept {v : Text} {c : Char} (hc : c ∈ v) (hne : c ≠ ' ') : c ∈ Text.trimEnd isSpace v :=
    Text.mem_trimEnd hc (by simpa [isSpace] using hne)
  unfold line
  dsimp only
  rw [hbody, Text.trimEnd_append hsolid]
  split
  · rw [List.append_assoc, List.append_assoc, Text.trimEnd_append hsolid]
    exact ⟨_, rfl, fun t ht hs c hc hne =>
      kept (List.mem_append_left _ (kept (hall t ht hs hc) hne)) hne⟩
  · rw [Text.trimEnd_append hsolid]
    exact ⟨_, rfl, fun t ht hs c hc hne => kept (hall t ht hs hc) hne⟩

end Render

/-- What stands in front of the code of each line of a program: its number, but for a first line whose
line end is gone. -/
def Compiled.headings (c : Compiled) : List Text :=
  (if c.Headed then [] else [[]]) ++ c.infos.map fun info => Text.ofInt info.number

/-- Whether every line of the code has a character other than a blank behind its number, from a token
of its row. -/
def Compiled.Written (c : Compiled) : Prop :=
  ∀ (i : Nat) (text : Text), c.code[i]? = some text → ∃ heading row t ch code,
    c.headings[i]? = some heading ∧ (Render.rows c.parsed)[i]? = some row ∧ t ∈ row ∧
      t.kind ≠ .lineNumber ∧ ch ∈ t.value ∧ ch ≠ ' ' ∧ text = heading ++ code ∧ ch ∈ code

namespace Compile

variable {s : Setting} {o : Options} {listing : Listing} {c : Compiled} {σ τ : Session}
  {merged : List Token} {numbered : Numbering.Numbered} {before after : Session}

/-- The names of a numbered program are seen when those of the merged one are. -/
theorem Passes.names_visible (hp : Passes s o listing σ c τ merged numbered before after)
    (hσ : σ.naming = {}) (hm : ∀ t ∈ merged, t.kind = .identifier → t.Visible) :
    ∀ u ∈ numbered.tokens, u.kind = .identifier → u.Visible := by
  obtain ⟨-, -, -, hw⟩ := hp.written hσ
  have hlisted : τ.naming.Listed fun v => ∃ c ∈ v, c ≠ ' ' := by
    have hafter := Branch.convert_listed Naming.common_visible hp.lexed hp.converted
      (by rw [hp.started, hσ]; exact Naming.listed_empty)
    obtain ⟨start, second, rest, rfl, -⟩ :=
      (Branch.convert_settled hp.lexed hp.converted).seated.exists_cons
    obtain ⟨lead, hwhole, -⟩ := whole_cons o start second rest
    obtain ⟨ready, final, hready, hfinal, hnum⟩ := hp.numbering
    rw [hwhole] at hnum
    rw [hfinal]
    exact Numbering.number_listed Naming.common_visible hnum (hready ▸ hafter)
  intro u hu hk
  obtain ⟨t, ht, hwritten⟩ := Outcome.exists_of_forall₂ hw (mem_identifiers.2 ⟨hu, hk⟩)
  obtain ⟨ht, htk⟩ := mem_identifiers.1 ht
  rcases hwritten with ⟨rfl, -⟩ | ⟨-, short, hshort, rfl⟩
  · exact hm u ht htk
  · obtain ⟨c, hc, hne⟩ := hlisted.of_lookup hshort
    exact ⟨c, List.mem_append_left _ hc, hne⟩

theorem whole_occupied (o : Options) (start second : Token)
    (h : Occupied (fun t => t.kind.isEntry = false ∧ t.Shown) False rest) :
    Occupied (fun t => t.kind.isEntry = false ∧ t.Shown) False
      ((whole o (start :: second :: rest)).drop 2) := by
  have hline (pos : Position) (text : Text) {more : List Token}
      (hm : Occupied (fun t => t.kind.isEntry = false ∧ t.Shown) False more) :
      Occupied (fun t => t.kind.isEntry = false ∧ t.Shown) False
        (Numbering.remarkLine pos text ++ more) := by
    have hsign (pos : Position) : Token.Shown ⟨.remark, "'", pos⟩ :=
      ⟨by simp, by simp, '\'', List.mem_singleton_self _, by decide⟩
    simp only [Numbering.remarkLine, List.cons_append, List.nil_append]
    rw [occupied_cons (by simp), occupied_cons (by simp), occupied_newline rfl]
    exact ⟨.inl (.inr ⟨rfl, hsign _⟩), hm⟩
  have hlines (pos : Position) (texts : List Text) :
      Occupied (fun t => t.kind.isEntry = false ∧ t.Shown) False
        (texts.flatMap (Numbering.remarkLine pos) ++ rest) := by
    induction texts with
    | nil => exact h
    | cons text texts ih =>
      rw [List.flatMap_cons, List.append_assoc]
      exact hline pos text ih
  unfold whole
  split
  · exact hlines start.pos Numbering.headerTexts
  · exact h

theorem whole_wordless (h : ∀ t ∈ merged, t.kind = .newline → t.Wordless) :
    ∀ t ∈ whole o merged, t.kind = .newline → t.Wordless := by
  unfold whole
  split
  · unfold Numbering.withHeader
    split
    · simp
    · intro t ht hk
      rcases List.mem_append.1 ht with ht | ht
      · rcases List.mem_append.1 ht with ht | ht
        · exact h t (List.mem_of_mem_take ht) hk
        · obtain ⟨text, -, ht⟩ := List.mem_flatMap.1 ht
          simp only [Numbering.remarkLine, List.mem_cons, List.not_mem_nil, or_false] at ht
          rcases ht with rfl | rfl | rfl
          · cases hk
          · cases hk
          · exact ⟨'\r', List.mem_singleton_self _, .inl (by decide)⟩
      · exact h t (List.mem_of_mem_drop ht) hk
  · exact h

/-- What is shown on the lines of a merged program is shown on the finished lines. -/
theorem Passes.occupied {start second : Token}
    (hp : Passes s o listing σ c τ (start :: second :: rest) numbered before after)
    (hσ : σ.naming = {}) (hm : ∀ t ∈ start :: second :: rest, t.kind = .identifier → t.Visible)
    (h : Occupied (fun t => t.kind.isEntry = false ∧ t.Shown) False rest) :
    Occupied Token.Shown False (c.parsed.drop 2) := by
  have hset := Branch.convert_settled hp.lexed hp.converted
  have hlaw : ∀ t ∈ start :: second :: rest, t.Lawful s.dialect := fun t ht =>
    hset.lawful t (List.mem_reverse.2 ht)
  have hends : ∀ t ∈ whole o (start :: second :: rest), t.kind = .newline → t.Wordless :=
    whole_wordless fun t ht hk => (hlaw t ht).wordless (.inl hk)
  obtain ⟨_, _, _, heq, -, hkind⟩ := hset.seated.exists_cons
  cases heq
  obtain ⟨ready, final, -, -, hnum⟩ := hp.numbering
  obtain ⟨_, next, _, tail, K, -, -, htokens, hlay, hsigns⟩ :=
    numbered_layout hp.lexed hp.converted hnum
  obtain ⟨_, _, _, lead, numbers, _, heq, -, -, hwhole, hnumbers, -, htokens', -, -⟩ := hp.finish
  cases heq
  have hwhole_occupied := whole_occupied o start second h
  rw [hwhole] at hwhole_occupied hends
  obtain ⟨-, rfl⟩ := List.cons.inj (htokens.symm.trans htokens')
  obtain ⟨_, hcons, hbehind⟩ := hnumbers.behind hkind
  obtain ⟨hsecond, rfl⟩ := List.cons.inj hcons
  subst hsecond
  have hvisible : ∀ u ∈ tail, u.kind = .identifier ∨ u.kind.isPlaceholder → u.Visible := by
    rintro u hu (hk | hk)
    · exact hp.names_visible hσ hm u (by simp [htokens, hu]) hk
    · obtain ⟨n, -, hv⟩ := hlay.targets u (List.mem_cons_of_mem _ hu) hk
      exact Token.visible_ofInt hv
  have hoccupied : Occupied Token.Shown False tail := by
    rcases hbehind with hn | ⟨number, more, rfl, hk, hn⟩
    · exact hn.occupied hwhole_occupied hvisible
    · rw [occupied_cons (by simp [hk])]
      exact (hn.occupied hwhole_occupied (List.forall_mem_cons.1 hvisible).2).mono fun h => h.elim
  have hwordless : ∀ t ∈ tail, t.kind = .newline ∨ t.kind = .lineNumber → t.Wordless := by
    rintro t ht (hk | hk)
    · rcases hnumbers.mem (List.mem_cons_of_mem _ ht) with hn | ⟨u, hu, rfl | ⟨hu, hi | hplace⟩⟩
      · simp [hk] at hn
      · exact hends t (List.mem_cons_of_mem _ hu) hk
      · simp [← hu, hk] at hi
      · simp [← hu, hk, Kind.isPlaceholder] at hplace
    · obtain ⟨n, hv⟩ := hlay.follows.numerals t (List.mem_cons_of_mem _ ht) hk
      exact Token.wordless_ofInt hv
  have hfin := hp.finished
  rw [htokens] at hfin
  rcases Touch.run_cases hfin with ⟨he, -⟩ | ⟨-, tokens, ht, hr⟩
  · rcases hkind with hk | hk <;> simp [hk] at he
  · have hkept : tokens = [Touch.capitalised s.dialect o next] := by
      rcases hkind with hk | hk
      · exact Touch.touch_of_not_inline ht (by rw [hk]; rfl)
      · exact Touch.touch_eq ht (by simp [hk]) (by simp [hk]) (by simp [hk]) (by simp [hk])
          (by rw [hk]; rfl)
    subst hkept
    have hwordless' := Touch.capitalised_wordless (d := s.dialect) (o := o)
      ((hlaw _ (by simp)).wordless hkind)
    obtain ⟨new, hparsed, hnew⟩ := Touch.run_occupied hr hoccupied hwordless
      (fun t ht => hsigns t (List.mem_cons_of_mem _ ht)) ⟨fun h => h.elim, fun u hu hword => by
        obtain ⟨w, hw, his⟩ := hword
        cases hu
        rw [Touch.not_jumpWord hwordless' hw] at his
        cases his⟩
    rw [hparsed]
    simpa using hnew

/-- The number that heads each row is that of its line in the report; a first row that is not numbered
has no heading. -/
theorem Sheet.heading {scale : Numbering.Scale} {second : Token} {tail row : List Token} {K i : Nat}
    {ended : List Int} (h : Sheet scale c second tail K ended)
    (hi : (Render.rows c.parsed)[i]? = some row) :
    ∃ heading, c.headings[i]? = some heading ∧ Render.Heads heading row := by
  have numbered {i : Nat} {ns : List Int} {rows : List (List Token)} {row : List Token}
      (hr : List.Forall₂ Render.HeadedBy ns rows) (hi : rows[i]? = some row) :
      ∃ heading, (ns.map Text.ofInt)[i]? = some heading ∧ Render.Heads heading row := by
    obtain ⟨hlt, rfl⟩ := List.getElem?_eq_some_iff.1 hi
    have hlt' : i < ns.length := by rwa [hr.length_eq]
    exact ⟨Text.ofInt ns[i], by simp [hlt'], .inr ⟨ns[i], rfl, hr.get hlt' hlt⟩⟩
  have hreported : c.infos.map (fun info => Text.ofInt info.number) = ended.tail.map Text.ofInt := by
    rw [← h.reported, List.map_map]
    rfl
  unfold Compiled.headings
  rw [hreported]
  by_cases hk : second.kind = .newline
  · rw [if_pos (h.headed_iff.2 hk)]
    exact numbered (h.rows_headed hk) hi
  · rw [if_neg fun hhead => hk (h.headed_iff.1 hhead)]
    rcases h.rows_unheaded hk with ⟨-, hrows⟩ | ⟨first, more, hrows, -, -, hmore⟩
    · simp [hrows] at hi
    · rw [hrows] at hi
      cases i with
      | zero => exact ⟨[], rfl, .inl rfl⟩
      | succ i => exact numbered hmore hi

theorem written_of_occupied (h : ofListing s o listing σ = .ok c τ)
    (hs : Occupied Token.Shown False (c.parsed.drop 2)) : c.Written := by
  obtain ⟨second, tail, K, ended, hsheet⟩ := exists_sheet h
  obtain ⟨notes, hcode⟩ := code_eq h
  intro i text hi
  rw [hcode, List.getElem?_map, Option.map_eq_some_iff] at hi
  obtain ⟨row, hrow, rfl⟩ := hi
  obtain ⟨heading, hheading, hheads⟩ := hsheet.heading hrow
  obtain ⟨t, ht, hshown⟩ :=
    Render.rows_shown hs row (List.mem_of_getElem? hrow)
  obtain ⟨ch, hc, hne⟩ := hshown.visible
  obtain ⟨code, hline, hall⟩ := Render.line_shown s.dialect o notes hheads
  exact ⟨heading, row, t, ch, code, hheading, hrow, ht, hshown.number, hc, hne, hline,
    hall t ht hshown ch hc hne⟩

/-- No line end is next to another in an output whose line ends come where code stands. -/
theorem isChain_of_filled {front : List Token} {second start : Token} (h : Merge.Filled front)
    (hs : start.kind = .program) :
    (front ++ [second, start]).IsChain fun t u => ¬(t.kind = .newline ∧ u.kind = .newline) := by
  induction front with
  | nil => simp [hs]
  | cons t front ih =>
    refine List.isChain_cons.2 ⟨fun u hu hboth => ?_, ih h.2⟩
    cases front with
    | nil => exact h.1 hboth.1
    | cons v front =>
      cases hu
      exact (h.1 hboth.1).1 hboth.2

open Branch (Visit)

/-- What stands on a line of a merged program is shown, unless it is a blank string. -/
theorem Passes.shown (hp : Passes s o listing σ c τ merged numbered before after)
    (hs : ∀ t ∈ merged, t.kind = .string → t.Visible) :
    ∀ t ∈ merged, t.Solid → t.Shown := by
  have hset := Branch.convert_settled hp.lexed hp.converted
  have hwithin := Visit.convert_unblocked
    (v := ⟨s.shelf.size, Branch.main s, c.lexed, before⟩) hp.lexed hp.converted
  obtain ⟨first, inner, last, heq, hfirst, hlast, hinner⟩ := Visit.convert_seen
    (v := ⟨s.shelf.size, Branch.main s, c.lexed, before⟩) hp.lexed hp.converted
  intro t ht hsolid
  refine ⟨hsolid.line, (hset.lawful t (List.mem_reverse.2 ht)).unnumbered, ?_⟩
  have hseen : t.kind.isVerbatim = true ∨ t.Visible := by
    rw [heq, List.mem_cons, List.mem_append, List.mem_singleton] at ht
    rcases ht with rfl | ht | rfl
    · exact .inr ⟨'P', by rw [hfirst.value]; decide, by decide⟩
    · exact (hinner t ht).2
    · exact .inr ⟨'E', by rw [hlast.value]; decide, by decide⟩
  rcases hseen with hv | hv
  · by_contra hnone
    have hsilent : t.kind ≠ .remarkText ∧ t.kind ≠ .dataField :=
      ⟨fun h => hsolid.written ⟨.inr h, hnone⟩, fun h => hsolid.written ⟨.inl h, hnone⟩⟩
    have hstring : t.kind ≠ .string := fun h => hnone (hs t ht h)
    have hblock := hwithin t ht
    cases hkind : t.kind <;> simp_all [Kind.isVerbatim, Kind.isWithin]
  · exact hv

/-- When every line end of a program comes where code stands on the line, and behind the bare lines of
its files only line ends follow, the third stage leaves no two line ends next to each other; when no
string that strings are joined to is blank, every line then has a character of code other than a blank
behind its number. -/
theorem written_of_covered (h : ofListing s o listing σ = .ok c τ) (hσ : σ.naming = {}) :
    ∃ merged numbered before after, Passes s o listing σ c τ merged numbered before after ∧
      (Visit.Covered s ⟨s.shelf.size, Branch.main s, c.lexed, before⟩ →
        (∀ w, Visit.Visits s ⟨s.shelf.size, Branch.main s, c.lexed, before⟩ w → w.Closing s) →
        (merged.IsChain fun t u => ¬(t.kind = .newline ∧ u.kind = .newline)) ∧
          ((∀ t ∈ merged, t.kind = .string → t.Visible) → c.Written)) := by
  obtain ⟨merged, numbered, before, after, hp⟩ := exists_passes h
  refine ⟨merged, numbered, before, after, hp, fun hcovered hclosing => ?_⟩
  obtain ⟨-, _, last, rfl, hlast, front, second, start, rfl, -, hstart, hfilled⟩ :=
    Visit.convert_stocked (v := ⟨s.shelf.size, Branch.main s, c.lexed, before⟩) hp.lexed
      hp.converted hcovered hclosing
  refine ⟨?_, fun hstrings => ?_⟩
  · rw [List.isChain_reverse]
    refine List.isChain_cons.2 ⟨fun u _ hboth => by simp [hlast] at hboth, ?_⟩
    exact (isChain_of_filled hfilled hstart).imp fun _ _ hne hboth => hne hboth.symm
  · have hshown := hp.shown hstrings
    have heq : (last :: (front ++ [second, start])).reverse =
        start :: second :: (front.reverse ++ [last]) := by simp
    rw [heq] at hp hshown
    refine written_of_occupied h (hp.occupied hσ (fun t ht hk => ?_) ?_)
    · refine (hshown t ht ⟨by simp [hk], by rw [hk]; rfl, ?_⟩).visible
      exact Token.not_silent_of_kind hk (by decide) (by decide)
    · refine occupied_of_filled hfilled (fun t ht hsolid => ?_) ?_
      · exact ⟨hsolid.entry, hshown t (by simp [ht]) hsolid⟩
      · rw [occupied_cons (by simp [hlast])]
        trivial

/-- Whether a token joins nothing. -/
def Single (t : Token) : Prop :=
  t.kind ≠ .joiner ∧ t.kind ≠ .separator ∧ t.kind ≠ .directive ∧ t.kind ≠ .blockRemark ∧
    t.kind ≠ .string

instance (t : Token) : Decidable (Single t) := inferInstanceAs (Decidable (_ ∧ _))

theorem reaches_single {d : Dialect} {quiet : Bool} {splice : Token → Token → Conversion (List Token)}
    {total : Nat} {p q : Merge.Point} (h : Merge.Reaches d quiet splice total p q)
    (hp : (∀ t ∈ p.out, Single t) ∧ ∀ t ∈ p.input, Single t) :
    (∀ t ∈ q.out, Single t) ∧ ∀ t ∈ q.input, Single t := by
  induction h with
  | refl => exact hp
  | tail _ hstep ih =>
    obtain ⟨ho, hi⟩ := ih
    cases hstep with
    | included hk => exact absurd hk (hi _ List.mem_cons_self).2.2.1
    | block hk => exact absurd hk (hi _ List.mem_cons_self).2.2.2.1
    | named _ hm =>
      refine ⟨List.forall_mem_cons.2 ⟨hi _ List.mem_cons_self, ?_⟩, (List.forall_mem_cons.1 hi).2⟩
      rcases Merge.meetVariable_cases hm with ⟨last, rfl, -, -⟩ | ⟨rfl, -⟩
      · exact (List.forall_mem_cons.1 ho).2
      · exact ho
    | @token σ out t rest =>
      obtain ⟨hsingle, hrest⟩ := List.forall_mem_cons.1 hi
      refine ⟨?_, hrest⟩
      obtain ⟨gone, kept, new, rfl, hadd, -, hnew⟩ := Merge.add_alters (Merge.placeOf total rest) t out
      intro u hu
      dsimp only at hu
      rw [hadd] at hu
      rcases List.mem_append.1 hu with hu | hu
      · rcases hnew u hu with rfl | ⟨-, hk⟩
        · exact hsingle
        · exact absurd hk hsingle.2.2.2.2
      · exact ho u (List.mem_append_right _ hu)

/-- What the first two stages leave of a listing for MSX that includes nothing. -/
def placed? (listing : Listing) : Option (List Token) :=
  (carried? .msx listing).bind fun r => (Label.place .msx r.1 r.2).toOption

theorem eq_of_placed? {lexed placed placed' : List Token} {ready : Session}
    (hx : Lexer.lex .msx listing = .ok lexed) (hp : placed? listing = some placed)
    (hf : Branch.front (lone .msx) (Branch.main (lone .msx)) lexed before = .ok placed' ready) :
    placed' = placed := by
  obtain ⟨r, hr, hplace⟩ := Option.bind_eq_some_iff.1 hp
  obtain ⟨tables, carried, _, _, hd, hl, -, -⟩ := Branch.front_cases hf
  cases eq_of_carried? hx hr hd
  have hplaced : Label.place .msx tables carried = .ok placed' := hl
  rw [hplaced] at hplace
  exact Option.some.inj hplace

/-- Where nothing is joined, every line end comes behind code, and no string is in the program. -/
theorem covered_of_placed? {placed : List Token} (hx : Lexer.lex .msx listing = .ok c.lexed)
    (hp : placed? listing = some placed) (hs : ∀ t ∈ placed, Single t) :
    Visit.Covered (lone .msx) ⟨0, Branch.main (lone .msx), c.lexed, before⟩ ∧
      ∀ merged, Branch.convert (lone .msx) 0 (Branch.main (lone .msx)) c.lexed before =
        .ok merged τ → ∀ t ∈ merged, t.kind ≠ .string := by
  have walked {p : Merge.Point}
      (hw : Visit.Walks (lone .msx) ⟨0, Branch.main (lone .msx), c.lexed, before⟩ p) :
      (∀ t ∈ p.out, Single t) ∧ ∀ t ∈ p.input, Single t := by
    obtain ⟨start, newline, left, ready, hf, hr⟩ := hw
    obtain rfl := eq_of_placed? hx hp hf
    refine reaches_single hr ⟨fun t ht => hs t ?_, fun t ht => hs t (by simp [ht])⟩
    simp only [List.mem_cons, List.not_mem_nil, or_false] at ht
    rcases ht with rfl | rfl <;> simp
  constructor
  · rintro p hw ⟨t, rest, last, out, -, -, -, hout, ⟨hk, -⟩ | ⟨hk, -⟩⟩
    · exact ((walked hw).1 last (by simp [hout])).1 hk
    · exact ((walked hw).1 last (by simp [hout])).2.1 hk
  · intro merged hm t ht
    obtain ⟨placed, ready, hf, hmerge⟩ := Branch.convert_cases hm
    obtain ⟨start, newline, rest, final, last, left, rfl, -, -, hr, -, rfl⟩ :=
      Merge.reaches_of_merge (Branch.front_sound hx hf) hmerge
    have hw : Visit.Walks (lone .msx) ⟨0, Branch.main (lone .msx), c.lexed, before⟩
        ⟨τ, final, last :: left⟩ := ⟨start, newline, rest, ready, hf, hr⟩
    rcases List.mem_cons.1 (List.mem_reverse.1 ht) with rfl | ht
    · exact ((walked hw).2 t (by simp)).2.2.2.2
    · exact ((walked hw).1 t ht).2.2.2.2

theorem two_lines_written :
    ∃ c τ, ofListing (lone .msx) {} (Listing.ofText
      "print 1\n\nif x then goto \x7ba\x7d\n\x7ba\x7d\nend" "/main" 4) {} = .ok c τ ∧ c.Written := by
  -- the two runs share the reading of the listing
  obtain ⟨hrun, hplaced⟩ : (outcome (lone .msx) {} (Listing.ofText
        "print 1\n\nif x then goto \x7ba\x7d\n\x7ba\x7d\nend" "/main" 4)).isSome ∧
      (placed? (Listing.ofText "print 1\n\nif x then goto \x7ba\x7d\n\x7ba\x7d\nend" "/main" 4)).map
        (fun placed => decide (∀ t ∈ placed, Single t)) = some true := by decide +kernel
  obtain ⟨c, hc⟩ := Option.isSome_iff_exists.1 hrun
  obtain ⟨τ, hτ⟩ := exists_of_outcome hc
  obtain ⟨placed, hp, hsingle⟩ := Option.map_eq_some_iff.1 hplaced
  obtain ⟨merged, numbered, before, after, hpasses, hwritten⟩ := written_of_covered hτ rfl
  obtain ⟨hcovered, hstrings⟩ := covered_of_placed? hpasses.lexed hp (of_decide_eq_true hsingle)
  refine ⟨c, τ, hτ, (hwritten hcovered fun w hw => ?_).2 fun t ht hk =>
    absurd hk (hstrings merged hpasses.converted t ht)⟩
  obtain rfl := Visit.visits_of_depth_zero rfl hw
  exact fun p hwalk hbare => absurd hbare (hcovered p hwalk)

/-- Where an underscore is alone on the last line, the line end behind it ends a line of nothing. -/
theorem last_underscore_not_written :
    ∃ c τ, ofListing (lone .msx) { header := false } (Listing.ofText "print 1\n_" "/main" 4) {} =
      .ok c τ ∧ c.code = ["10 print 1", "20"] ∧ ¬c.Written := by
  have hrun : (outcome (lone .msx) { header := false } (Listing.ofText "print 1\n_" "/main" 4)).map
      (fun c => (c.code, c.headings)) =
        some (["10 print 1".toList, "20".toList], ["10".toList, "20".toList]) := by decide +kernel
  obtain ⟨c, hc, he⟩ := Option.map_eq_some_iff.1 hrun
  obtain ⟨τ, hτ⟩ := exists_of_outcome hc
  simp only [Prod.mk.injEq] at he
  obtain ⟨hcode, hheadings⟩ := he
  refine ⟨c, τ, hτ, hcode, fun hwritten => ?_⟩
  obtain ⟨heading, _, _, ch, code, hheading, -, -, -, -, -, htext, hmem⟩ :=
    hwritten 1 "20" (by rw [hcode]; rfl)
  rw [hheadings] at hheading
  obtain rfl : "20".toList = heading := Option.some.inj hheading
  rw [List.self_eq_append_right.1 htext] at hmem
  cases hmem

end Compile

end ClassicBasic
