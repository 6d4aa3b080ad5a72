import ClassicBasic.Proofs.Homed
import ClassicBasic.Proofs.Kin
import ClassicBasic.Proofs.Landing
import ClassicBasic.Proofs.Signposts
import ClassicBasic.Proofs.Toggled

/-!
# Drafts

Source that is made of labels, each on a line of its own, and of rows of code. In front of numbering, a
row stays one line and its jumps become placeholders; a label comes in front of the row behind it.
-/

set_option autoImplicit false

namespace ClassicBasic

open List (Forall₂)

/-- Whether no stage in front of numbering takes up tokens of the kind or puts them out, but for calls
and for what joins lines. -/
def Kind.isQuiet : Kind → Bool
  | .eof | .newline | .directive | .functionName | .blockRemark | .blockText | .blockEnd | .special
  | .labelLine | .labelJump | .labelReturn | .labelExit | .functionEntry | .functionCall => false
  | _ => true

theorem Kind.isInner_of_isQuiet {k : Kind} (h : k.isQuiet = true) : k.isInner = true := by
  cases k <;> first | rfl | cases h

namespace Token

def isMark (t : Token) (sign : Text) : Bool := t.kind == .mark && t.value == sign

def isQuiet (t : Token) : Bool := t.kind.isQuiet && !t.isMark "["

/-- Whether the second stage leaves a token alone, too. -/
def isCalm (t : Token) : Bool := t.isQuiet && !t.isMark Label.opening && !t.isMark Label.closing

/-- Whether a row that starts with the token is not joined with the line in front. -/
def startsRow (t : Token) : Bool :=
  t.isCalm && t.kind != .separator && t.kind != .string && t.kind != .toggle

/-- Whether a row that ends with the token is not joined with the line behind. -/
def endsRow (t : Token) : Bool := t.kind != .separator && t.kind != .joiner

end Token

/-- The names of the labels that a row jumps to, if its other tokens are left alone. -/
def rowJumps : List Token → Option (List Text)
  | [] => some []
  | t :: rest =>
    if t.isCalm then rowJumps rest
    else
      match rest with
      | name :: closer :: more =>
        if t.isMark Label.opening && name.isQuiet && closer.isMark Label.closing
          then (rowJumps more).map (name.value :: ·) else none
      | _ => none

/-- Tokens of a line that stays one line and jumps to the labels. -/
structure Row (names : List Text) (ts : List Token) : Prop where
  jumps : rowJumps ts = some names
  head : ts.head?.any Token.startsRow = true
  last : ts.getLast?.all Token.endsRow = true

instance (names : List Text) (ts : List Token) : Decidable (Row names ts) :=
  decidable_of_iff (rowJumps ts = some names ∧ ts.head?.any Token.startsRow = true ∧
    ts.getLast?.all Token.endsRow = true) ⟨fun h => ⟨h.1, h.2.1, h.2.2⟩, fun h => ⟨h.1, h.2, h.3⟩⟩

namespace NumberedLine

/-- The name of the label in front of the line with the number. -/
def labelName (n : Int) : Text := labelStart ++ Text.ofInt n

/-- The name between the brackets of a jump from the line `number` to the line `target`. -/
def jumpName (number target : Int) : Text := if target = number then Label.sameLine else labelName target

theorem labelName_eq (n : Int) : labelName n = 'l' :: '_' :: Text.ofInt n := rfl

theorem lower_labelName (n : Int) : Text.lower (labelName n) = labelName n := by
  have hlower := lower_jumpText (n + 1) n
  rw [jumpText, if_neg (by omega), label, Label.lower_bracketed] at hlower
  exact Label.bracketed_injective hlower

theorem labelName_injective {m n : Int} (h : labelName m = labelName n) : m = n :=
  label_injective (congrArg Label.bracketed h)

/-- The name of a label can be that of a define if the grammar takes it for a name. -/
theorem isInvocable_labelName {n : Int} (h : Dialect.isIdentifier (labelName n) = true) :
    Define.isInvocable (labelName n) = true := by
  have hminus : '-' ∉ labelName n := fun hm => absurd (Grammar.isName_chars h _ hm) (by decide)
  have hdigits : ∀ c ∈ Text.ofInt n, c.isDigit = true := fun c hc =>
    (Text.ofInt_signs hc).resolve_left fun hm => hminus (List.mem_append_right _ (hm ▸ hc))
  rw [Define.isInvocable, lower_labelName, labelName_eq]
  simp only [List.all_cons, Bool.or_eq_true, Bool.and_eq_true, List.all_eq_true]
  exact .inr ⟨by simp, by decide, by decide, fun c hc => .inr (hdigits c hc)⟩

end NumberedLine

open NumberedLine (labelName jumpName)

/-- A line of a draft: the label of a numbered line, or a row of code, by its jumps and its text. -/
inductive Draft
  | label (n : Int)
  | row (names : List Text) (text : Text)

/-- Names of jumps from classic lines. -/
def AreJumps (names : List Text) : Prop := ∀ name ∈ names, name = Label.sameLine ∨ ∃ n, name = labelName n

/-- Whether tokens of a file are those of a draft, each line with its end, and the end of the program. -/
inductive Drafted (file : Text) : List Draft → List Token → Prop
  | done {t : Token} (he : t.kind = .eof) : Drafted file [] [t]
  | label {n : Int} {ds : List Draft} {opener content closer newline : Token} {rest : List Token}
      (ho : opener.isMark Label.opening = true) (hc : content.isQuiet = true)
      (hv : content.value = labelName n) (hm : closer.isMark Label.closing = true)
      (hf : closer.pos.file = file) (hn : newline.kind = .newline) (more : Drafted file ds rest) :
      Drafted file (.label n :: ds) (opener :: content :: closer :: newline :: rest)
  | row {names : List Text} {text : Text} {ds : List Draft} {ts rest : List Token} {newline : Token}
      (hr : Row names ts) (hj : AreJumps names) (hf : ∀ t ∈ ts, t.Homed file)
      (hn : newline.kind = .newline) (hv : newline.value ≠ Merge.keepSign) (ht : newline.pos.text = text)
      (more : Drafted file ds rest) : Drafted file (.row names text :: ds) (ts ++ newline :: rest)

namespace Token

/-- What a token is read as in the first stage. -/
inductive Called : Token → Token → Prop
  | same (t : Token) : Called t t
  | call {t : Token} (hk : t.kind = .joiner) : Called t (t.withKind .call)
  | name {t : Token} (hk : t.kind = .identifier) : Called t (t.withKind .callName)

variable {t u : Token} {sign file : Text}

theorem kind_of_isMark (h : t.isMark sign = true) : t.kind = .mark := by
  simpa using (Bool.and_eq_true_iff.1 h).1

theorem value_of_isMark (h : t.isMark sign = true) : t.value = sign := by
  simpa using (Bool.and_eq_true_iff.1 h).2

theorem isQuiet_of_isMark (h : t.isMark sign = true) (hs : sign ≠ "[") : t.isQuiet = true := by
  have hb : t.isMark "[" = false := by
    rw [isMark, value_of_isMark h, beq_false_of_ne hs, Bool.and_false]
  rw [isQuiet, hb, kind_of_isMark h]
  rfl

theorem isQuiet_of_isCalm (h : t.isCalm = true) : t.isQuiet = true := by
  simp only [isCalm, Bool.and_eq_true] at h
  exact h.1.1

theorem kind_ne_of_isQuiet {k : Kind} (h : t.isQuiet = true) (hk : k.isQuiet = false) : t.kind ≠ k := by
  rintro rfl
  rw [isQuiet, hk] at h
  cases h

theorem Called.value (h : Called t u) : u.value = t.value := by cases h <;> rfl

theorem Called.pos (h : Called t u) : u.pos = t.pos := by cases h <;> rfl

theorem Called.isMark (h : Called t u) : u.isMark sign = t.isMark sign := by
  cases h with
  | same => rfl
  | call hk => rw [Token.isMark, Token.isMark, hk]; rfl
  | name hk => rw [Token.isMark, Token.isMark, hk]; rfl

theorem Called.isQuiet (h : Called t u) : u.isQuiet = t.isQuiet := by
  have hmark : u.isMark "[" = t.isMark "[" := h.isMark
  unfold Token.isQuiet
  rw [hmark]
  cases h <;> simp [withKind, Kind.isQuiet, *]

theorem Called.isCalm (h : Called t u) : u.isCalm = t.isCalm := by
  rw [Token.isCalm, Token.isCalm, h.isQuiet, h.isMark, h.isMark]

theorem Called.startsRow (h : Called t u) (hs : t.startsRow = true) : u.startsRow = true := by
  unfold Token.startsRow at hs ⊢
  rw [h.isCalm]
  cases h <;> simp_all [withKind]

theorem Called.endsRow (h : Called t u) (hs : t.endsRow = true) : u.endsRow = true := by
  cases h <;> simp_all [Token.endsRow, withKind]

theorem Called.homed (h : Called t u) (hf : t.Homed file) : u.Homed file := by
  cases h with
  | same => exact hf
  | call hk => exact fun _ hh => hf (by rw [hk]; rfl) (.inr (.inr (by simpa [withKind] using hh)))
  | name hk => exact fun _ hh => hf (by rw [hk]; rfl) (.inr (.inr (by simpa [withKind] using hh)))

end Token

open Token (Called)

theorem rowJumps_calm {t : Token} {rest : List Token} (h : t.isCalm = true) :
    rowJumps (t :: rest) = rowJumps rest := by
  rw [rowJumps.eq_def]
  simp only [h, if_true]

/-- The jumps of a row depend on the marks among its tokens and on the names between them. -/
theorem rowJumps_congr {R : Token → Token → Prop} {ts us : List Token}
    (hR : ∀ t u, R t u → u.value = t.value ∧ u.isQuiet = t.isQuiet ∧ ∀ sign, u.isMark sign = t.isMark sign)
    (h : Forall₂ R ts us) : rowJumps us = rowJumps ts := by
  have calm {t u : Token} (htu : R t u) : u.isCalm = t.isCalm := by
    obtain ⟨-, hquiet, hmark⟩ := hR t u htu
    rw [Token.isCalm, Token.isCalm, hquiet, hmark, hmark]
  fun_induction rowJumps ts generalizing us with
  | case1 =>
    cases h
    rfl
  | case2 t rest hc ih =>
    cases h with
    | cons ht h => rw [rowJumps_calm ((calm ht).trans hc), ih h]
  | case3 t hc name closer more hm ih =>
    obtain _ | ⟨ht, _ | ⟨hname, _ | ⟨hcloser, h⟩⟩⟩ := h
    simp only [rowJumps, calm ht, hc, Bool.false_eq_true, if_false, (hR _ _ ht).2.2, (hR _ _ hname).2.1,
      (hR _ _ hcloser).2.2, hm, if_true, ih h, (hR _ _ hname).1]
  | case4 t hc name closer more hm =>
    obtain _ | ⟨ht, _ | ⟨hname, _ | ⟨hcloser, h⟩⟩⟩ := h
    simp only [rowJumps, calm ht, hc, Bool.false_eq_true, if_false, (hR _ _ ht).2.2, (hR _ _ hname).2.1,
      (hR _ _ hcloser).2.2, hm]
  | case5 t rest hc hshort =>
    obtain _ | ⟨ht, _ | ⟨hname, _ | ⟨hcloser, h⟩⟩⟩ := h
    · simp [rowJumps, calm ht, hc]
    · simp [rowJumps, calm ht, hc]
    · exact absurd rfl (hshort _ _ _)

theorem Row.congr {R : Token → Token → Prop} {names : List Text} {ts us : List Token} (h : Row names ts)
    (hR : ∀ t u, R t u → u.value = t.value ∧ u.isQuiet = t.isQuiet ∧ ∀ sign, u.isMark sign = t.isMark sign)
    (hstart : ∀ t u, R t u → t.startsRow = true → u.startsRow = true)
    (hend : ∀ t u, R t u → t.endsRow = true → u.endsRow = true) (hu : Forall₂ R ts us) : Row names us where
  jumps := (rowJumps_congr hR hu).trans h.jumps
  head := by
    cases hu with
    | nil => exact h.head
    | cons ht _ => exact hstart _ _ ht h.head
  last := by
    have hlast := List.forall₂_reverse_iff.2 hu
    have hends := h.last
    rw [← List.head?_reverse] at hends ⊢
    generalize us.reverse = l' at hlast ⊢
    generalize ts.reverse = l at hlast hends
    cases hlast with
    | nil => rfl
    | cons ht _ => exact hend _ _ ht hends

theorem Row.called {names : List Text} {ts us : List Token} (h : Row names ts) (hu : Forall₂ Called ts us) :
    Row names us :=
  h.congr (fun _ _ ht => ⟨ht.value, ht.isQuiet, fun _ => ht.isMark⟩) (fun _ _ ht => ht.startsRow)
    (fun _ _ ht => ht.endsRow) hu

variable {d : Dialect} {file : Text} {ds : List Draft} {ts us rest out input : List Token} {t newline : Token}
  {names : List Text}

/-! ### The first stage -/

namespace Directive

theorem asCall_called (out : List Token) (t : Token) (rest : List Token) : Called t (asCall d out t rest) := by
  unfold asCall
  split
  · exact .same t
  · split
    · exact .call ‹_ ∧ _›.1
    · split
      · exact .name ‹_ ∧ _›.1
      · exact .same t

/-- Quiet tokens go through the first stage. -/
theorem run_quiet (quiet : Bool) (tables : Tables) (rest : List Token) (hq : ∀ t ∈ ts, t.isQuiet = true)
    (hs : atLineStart out = true → ∀ t ∈ ts.head?, t.kind ≠ .toggle) :
    ∃ us, Forall₂ Called ts us ∧ ∀ σ : Session, run d quiet tables out (ts ++ rest) σ =
      run d quiet tables (us.reverse ++ out) rest σ := by
  induction ts generalizing out with
  | nil => exact ⟨[], .nil, fun _ => rfl⟩
  | cons t ts ih =>
    rw [List.forall_mem_cons] at hq
    have hne {k : Kind} (hk : k.isQuiet = false) : t.kind ≠ k := Token.kind_ne_of_isQuiet hq.1 hk
    have hcall := asCall_called (d := d) out t (ts ++ rest)
    have hstep : step d tables out t (ts ++ rest) =
        .ok ⟨tables, asCall d out t (ts ++ rest) :: out, ts ++ rest⟩ := by
      have htoggle : ¬(t.kind = .toggle ∧ atLineStart out = true) := fun h => hs h.2 t rfl h.1
      have hbracket : ¬(t.kind = .mark ∧ t.value = "[") := fun h => by
        have hmark : t.isMark "[" = true := by simp only [Token.isMark, h.1, h.2, beq_self_eq_true, Bool.and_self]
        have hquiet := hq.1
        rw [Token.isQuiet, hmark, Bool.not_true, Bool.and_false] at hquiet
        cases hquiet
      rw [step, if_neg htoggle, if_neg (hne rfl), if_neg hbracket]
    -- behind it no line starts
    have hstart : atLineStart (asCall d out t (ts ++ rest) :: out) = false := by
      rw [atLineStart, beq_eq_false_iff_ne]
      exact Token.kind_ne_of_isQuiet (hcall.isQuiet.trans hq.1) rfl
    obtain ⟨us, hus, hrun⟩ := @ih (asCall d out t (ts ++ rest) :: out) hq.2 (by simp [hstart])
    refine ⟨_, .cons hcall hus, fun σ => ?_⟩
    have hread := run_of_step (@Step.read d quiet σ tables out (ts ++ rest) t _ (hne rfl) hstep)
    rw [List.cons_append, hread, hrun]
    simp

theorem isQuiet_of_rowJumps (h : rowJumps ts = some names) : ∀ t ∈ ts, t.isQuiet = true := by
  fun_induction rowJumps ts generalizing names with
  | case1 => simp
  | case2 t rest hc ih => exact List.forall_mem_cons.2 ⟨Token.isQuiet_of_isCalm hc, ih h⟩
  | case3 t hc name closer more hm ih =>
    obtain ⟨names, hnames, -⟩ := Option.map_eq_some_iff.1 h
    simp only [Bool.and_eq_true] at hm
    simp only [List.forall_mem_cons]
    exact ⟨Token.isQuiet_of_isMark hm.1.1 (by decide), hm.1.2, Token.isQuiet_of_isMark hm.2 (by decide), ih hnames⟩
  | case4 => cases h
  | case5 => cases h

/-- A draft goes through the first stage. -/
theorem run_drafted (quiet : Bool) (tables : Tables) (h : Drafted file ds input) (out : List Token) :
    ∃ input', Drafted file ds input' ∧ ∀ σ : Session, run d quiet tables out input σ =
      .ok (tables, out.reverse ++ input') σ := by
  induction h generalizing out with
  | @done t he =>
    refine ⟨[t], .done he, fun σ => ?_⟩
    rw [run, if_pos he, List.reverse_cons]
    rfl
  | @label n ds opener content closer newline rest ho hc hv hm hf hn more ih =>
    have hquiet : ∀ t ∈ [opener, content, closer], t.isQuiet = true := by
      simp only [List.forall_mem_cons, List.not_mem_nil, false_implies, implies_true, and_true]
      exact ⟨Token.isQuiet_of_isMark ho (by decide), hc, Token.isQuiet_of_isMark hm (by decide)⟩
    obtain ⟨us, hus, hrun⟩ := @run_quiet d _ out quiet tables (newline :: rest) hquiet
      (fun _ u hu => by
        cases hu
        rw [Token.kind_of_isMark ho]
        simp)
    obtain _ | ⟨ho', _ | ⟨hc', _ | ⟨hm', _ | _⟩⟩⟩ := hus
    obtain ⟨input', hd, hmore⟩ := ih _
    refine ⟨_, .label (ho'.isMark.trans ho) (hc'.isQuiet.trans hc) (hc'.value.trans hv) (hm'.isMark.trans hm)
      (hm'.pos ▸ hf) hn hd, fun σ => ?_⟩
    have hgo := hrun σ
    rw [List.cons_append, List.cons_append, List.cons_append, List.nil_append] at hgo
    rw [hgo, run_newline hn, hmore]
    simp
  | @row names text ds ts rest newline hr hj hf hn hv ht more ih =>
    have hhead : ∀ t ∈ ts.head?, t.kind ≠ .toggle := by
      intro t ht hk
      have hstart := hr.head
      rw [ht] at hstart
      simp [Token.startsRow, hk] at hstart
    obtain ⟨us, hus, hrun⟩ := @run_quiet d _ out quiet tables (newline :: rest)
      (isQuiet_of_rowJumps hr.jumps) fun _ => hhead
    obtain ⟨input', hd, hmore⟩ := ih (newline :: (us.reverse ++ out))
    refine ⟨_, .row (hr.called hus) hj (fun u hu => ?_) hn hv ht hd, fun σ => ?_⟩
    · obtain ⟨t, ht, htu⟩ := Outcome.exists_of_forall₂ hus hu
      exact htu.homed (hf t ht)
    · rw [hrun, run_newline hn, hmore]
      simp

end Directive

/-! ### The second stage -/

/-- Tokens of a row, with placeholders for the jumps to the labels. -/
inductive PlacedRow (file : Text) : List Text → List Token → Prop
  | nil : PlacedRow file [] []
  | calm {names : List Text} {t : Token} {us : List Token} (h : t.isCalm = true)
      (more : PlacedRow file names us) : PlacedRow file names (t :: us)
  | jump {names : List Text} {t : Token} {us : List Token} (hk : t.kind = .labelJump)
      (hf : t.value ≠ Label.sameLine → t.pos.file = file) (more : PlacedRow file names us) :
      PlacedRow file (t.value :: names) (t :: us)

/-- Whether the tokens of a row have become those of a line with placeholders. -/
structure Places (file : Text) (names : List Text) (ts us : List Token) : Prop where
  placed : PlacedRow file names us
  head : ∀ t ∈ ts.head?, t.isCalm = true → us.head? = some t
  last : ∀ a b : Token, (a.endsRow = true → b.endsRow = true) → (ts.getLastD a).endsRow = true →
    (us.getLastD b).endsRow = true

/-- Whether tokens of a file are those of a draft with placeholders. -/
inductive PlacedDraft (file : Text) : List Draft → List Token → Prop
  | done {t : Token} (he : t.kind = .eof) : PlacedDraft file [] [t]
  | label {n : Int} {ds : List Draft} {t newline : Token} {rest : List Token} (hk : t.kind = .labelLine)
      (hv : t.value = labelName n) (hf : t.pos.file = file) (hn : newline.kind = .newline)
      (more : PlacedDraft file ds rest) : PlacedDraft file (.label n :: ds) (t :: newline :: rest)
  | row {names : List Text} {text : Text} {ds : List Draft} {us rest : List Token} {newline : Token}
      (hp : PlacedRow file names us) (hh : us.head?.any Token.startsRow = true)
      (hl : (us.getLastD newline).endsRow = true) (hj : AreJumps names)
      (hn : newline.kind = .newline) (hv : newline.value ≠ Merge.keepSign) (ht : newline.pos.text = text)
      (more : PlacedDraft file ds rest) : PlacedDraft file (.row names text :: ds) (us ++ newline :: rest)

namespace Label

variable {tables : Tables} {placed : List Token}

theorem step_calm (routines : Routines) (h : t.isCalm = true) :
    step d routines [] out t rest = .ok ⟨[], t :: out, rest⟩ := by
  have hquiet := Token.isQuiet_of_isCalm h
  have hne {k : Kind} (hk : k.isQuiet = false) : t.kind ≠ k := Token.kind_ne_of_isQuiet hquiet hk
  simp only [Token.isCalm, Bool.and_eq_true, Bool.not_eq_true', Token.isMark] at h
  have hopen : ¬(t.kind = .mark ∧ t.value = opening) := fun hm => by simp [hm.1, hm.2] at h
  have hclose : ¬(t.kind = .mark ∧ t.value = closing) := fun hm => by simp [hm.1, hm.2] at h
  rw [step, if_neg (hne rfl), if_neg hopen, if_neg hclose, if_neg fun hk => hne rfl hk.1,
    if_neg fun hk => hne rfl hk.2.1]

theorem run_calm (h : t.isCalm = true) :
    run d tables [] out (t :: rest) = run d tables [] (t :: out) rest :=
  run_step (Token.kind_ne_of_isQuiet (Token.isQuiet_of_isCalm h) rfl) (step_calm tables.routines h)

/-- A jump behind code becomes a placeholder if its name is one. -/
theorem run_jump {opener content closer : Token} {name : Text} (ho : opener.isMark opening = true)
    (hc : content.isQuiet = true) (hm : closer.isMark closing = true) (hv : content.value = name)
    (hj : name = sameLine ∨ ∃ n, name = labelName n) (hf : content.Homed file)
    (hs : Directive.atLineStart out = false)
    (h : run d tables [] out (opener :: content :: closer :: rest) = .ok placed) :
    ∃ t : Token, t.kind = .labelJump ∧ t.value = name ∧ (t.value ≠ sameLine → t.pos.file = file) ∧
      run d tables [] (t :: out) rest = .ok placed := by
  subst hv
  have hok := Token.kind_of_isMark ho
  have hov := Token.value_of_isMark ho
  have hmv := Token.value_of_isMark hm
  have hopens : opensJump out opener (content :: closer :: rest) = true := by
    have hn : content.kind ≠ .newline := Token.kind_ne_of_isQuiet hc rfl
    simp [opensJump, hs, hmv, hn]
  have hread : Bracketed.read opening closing opener (content :: closer :: rest) =
      .ok (.holding content closer rest) := by
    have hne : content.value ≠ closing := by
      rcases hj with hj | ⟨n, hj⟩ <;> rw [hj]
      · decide
      · simp [labelName, NumberedLine.labelStart, closing]
    simp [Bracketed.read, hov, hne, hmv]
  have hstep : step d tables.routines [] out opener (content :: closer :: rest) =
      if content.value = sameLine ∨ Dialect.isIdentifier content.value then
        .ok ⟨[], ⟨.labelJump, content.lower, content.pos⟩ :: out, rest⟩
      else .error (content.failure (.invalidLabel content.value)) := by
    rw [step, if_neg (by simp [hok]), if_pos ⟨hok, hov⟩, if_pos hopens, readJump, hread]
  have he : opener.kind ≠ .eof := by simp [hok]
  split at hstep
  · rename_i hvalid
    rw [run_step he hstep] at h
    have hlower : content.lower = content.value := by
      rcases hj with hj | ⟨n, hj⟩ <;> rw [Token.lower, hj]
      · decide
      · exact NumberedLine.lower_labelName n
    refine ⟨_, rfl, hlower, fun hother => ?_, h⟩
    rw [hlower] at hother
    obtain ⟨n, hn⟩ := hj.resolve_left hother
    have hinner : content.kind.isInner = true :=
      Kind.isInner_of_isQuiet (Bool.and_eq_true_iff.1 hc).1
    refine hf hinner (.inr (.inr ?_))
    rw [hn]
    exact NumberedLine.isInvocable_labelName (hn ▸ hvalid.resolve_left hother)
  · rw [run_error he hstep] at h
    cases h

theorem run_row (hj : rowJumps ts = some names) (ha : AreJumps names) (hf : ∀ t ∈ ts, t.Homed file)
    (hs : Directive.atLineStart out = true → ∀ t ∈ ts.head?, t.isCalm = true)
    (h : run d tables [] out (ts ++ rest) = .ok placed) :
    ∃ us, Places file names ts us ∧ run d tables [] (us.reverse ++ out) rest = .ok placed := by
  fun_induction rowJumps ts generalizing names out with
  | case1 =>
    cases hj
    exact ⟨[], ⟨.nil, by simp, fun _ _ hab => hab⟩, h⟩
  | case2 t more hc ih =>
    rw [List.forall_mem_cons] at hf
    rw [List.cons_append, run_calm hc] at h
    have hstart : Directive.atLineStart (t :: out) = false := by
      rw [Directive.atLineStart, beq_eq_false_iff_ne]
      exact Token.kind_ne_of_isQuiet (Token.isQuiet_of_isCalm hc) rfl
    obtain ⟨us, hus, hrun⟩ := ih hj ha hf.2 (by simp [hstart]) h
    refine ⟨t :: us, ⟨.calm hc hus.placed, ?_, fun a b _ => ?_⟩, by simpa using hrun⟩
    · simp
    · simpa only [List.getLastD_cons] using hus.last t t id
  | case3 t hc name closer more hm ih =>
    obtain ⟨names, hnames, rfl⟩ := Option.map_eq_some_iff.1 hj
    simp only [Bool.and_eq_true] at hm
    simp only [List.forall_mem_cons, AreJumps] at hf ha
    have hstart : Directive.atLineStart out = false := by
      rw [Bool.eq_false_iff]
      exact fun hl => hc (hs hl t rfl)
    obtain ⟨j, hk, hv, hfile, hrun⟩ := run_jump hm.1.1 hm.1.2 hm.2 rfl ha.1 hf.2.1 hstart h
    have hstart : Directive.atLineStart (j :: out) = false := by simp [Directive.atLineStart, hk]
    obtain ⟨us, hus, hmore⟩ := ih hnames ha.2 hf.2.2.2 (by simp [hstart]) hrun
    refine ⟨j :: us, ⟨hv ▸ .jump hk hfile hus.placed, ?_, fun a b _ => ?_⟩, by simpa using hmore⟩
    · simpa using fun h => absurd h hc
    · have hends : j.endsRow = true := by simp [Token.endsRow, hk]
      simpa only [List.getLastD_cons] using hus.last closer j fun _ => hends
  | case4 => cases hj
  | case5 => cases hj

/-- A label at the start of a line becomes its mark if its name is one. -/
theorem run_label {opener content closer newline : Token} {n : Int} (ho : opener.isMark opening = true)
    (hv : content.value = labelName n) (hm : closer.isMark closing = true) (hn : newline.kind = .newline)
    (h : run d tables [] (newline :: out) (opener :: content :: closer :: rest) = .ok placed) :
    run d tables [] (⟨.labelLine, labelName n, closer.pos⟩ :: newline :: out) rest = .ok placed := by
  have hok := Token.kind_of_isMark ho
  have hov := Token.value_of_isMark ho
  have hmv := Token.value_of_isMark hm
  have hopens : opensJump (newline :: out) opener (content :: closer :: rest) = false := by
    simp [opensJump, Directive.atLineStart, hn]
  have hread : Bracketed.read opening closing opener (content :: closer :: rest) =
      .ok (.holding content closer rest) := by
    have hne : content.value ≠ closing := by
      rw [hv]
      simp [labelName, NumberedLine.labelStart, closing]
    simp [Bracketed.read, hov, hne, hmv]
  have hstep : step d tables.routines [] (newline :: out) opener (content :: closer :: rest) =
      (lineMark content closer.pos).map fun mark => ⟨[], mark :: newline :: out, rest⟩ := by
    rw [step, if_neg (by simp [hok]), if_pos ⟨hok, hov⟩, hopens]
    simp only [Bool.false_eq_true, if_false, readLine, hn, if_true, hread]
  have he : opener.kind ≠ .eof := by simp [hok]
  unfold lineMark at hstep
  split at hstep
  · rw [run_step he hstep, Token.lower, hv, NumberedLine.lower_labelName] at h
    exact h
  · rw [run_error he hstep] at h
    cases h

/-- A draft goes through the second stage with placeholders for its labels and jumps. -/
theorem run_drafted (hd : Drafted file ds input) (hs : Directive.atLineStart out = true)
    (h : run d tables [] out input = .ok placed) :
    ∃ input', PlacedDraft file ds input' ∧ placed = out.reverse ++ input' := by
  induction hd generalizing out with
  | @done t he =>
    rw [run, if_pos he] at h
    split at h
    · cases h
    · cases h
      exact ⟨[t], .done he, by simp⟩
  | @label n ds opener content closer newline rest ho hc hv hm hf hn more ih =>
    obtain ⟨last, before, rfl⟩ : ∃ last before, out = last :: before := by
      cases out with
      | nil => cases hs
      | cons last before => exact ⟨last, before, rfl⟩
    have hlast : last.kind = .newline := by simpa [Directive.atLineStart] using hs
    have hrun := run_label ho hv hm hlast h
    rw [run_newline hn] at hrun
    obtain ⟨input', hp, rfl⟩ := ih (by simp [Directive.atLineStart, hn]) hrun
    exact ⟨_, .label (t := ⟨.labelLine, labelName n, closer.pos⟩) rfl rfl hf hn hp, by simp⟩
  | @row names text ds ts rest newline hr hj hf hn hv htext more ih =>
    have hcalm : ∀ t ∈ ts.head?, t.isCalm = true := by
      intro t ht
      have hstart := hr.head
      rw [ht] at hstart
      simp only [Option.any_some, Token.startsRow, Bool.and_eq_true] at hstart
      exact hstart.1.1.1
    obtain ⟨us, hus, hrun⟩ := run_row hr.jumps hj hf (fun _ => hcalm) h
    rw [run_newline hn] at hrun
    obtain ⟨input', hp, rfl⟩ := ih (by simp [Directive.atLineStart, hn]) hrun
    obtain ⟨t, ht, hstart⟩ := (Option.any_eq_true _ _).1 hr.head
    refine ⟨_, .row hus.placed ?_ ?_ hj hn hv htext hp, by simp⟩
    · rw [hus.head t ht (hcalm t ht)]
      exact hstart
    · refine hus.last newline newline id ?_
      obtain ⟨front, hts⟩ : ∃ front, ts = t :: front := List.head?_eq_some_iff.1 ht
      have hlast := hr.last
      rw [hts, List.getLast?_cons, Option.all_some] at hlast
      rw [hts, List.getLastD_cons, List.getLastD_eq_getLast?]
      exact hlast

end Label

/-! ### The third stage -/

open ClassicBasic.Numbering (isSign)

/-- Whether the token is the jump to the label. -/
structure Calls (file name : Text) (t : Token) : Prop where
  kind : t.kind = .labelJump
  value : t.value = name
  file : name ≠ Label.sameLine → t.pos.file = file

/-- What labels, jumps and line ends a draft comes to. -/
inductive Signed (file : Text) : List Draft → List Token → Prop
  | done {t : Token} (he : t.kind = .eof) : Signed file [] [t]
  | label {n : Int} {ds : List Draft} {t : Token} {rest : List Token} (hk : t.kind = .labelLine)
      (hv : t.value = labelName n) (hf : t.pos.file = file) (more : Signed file ds rest) :
      Signed file (.label n :: ds) (t :: rest)
  | row {names : List Text} {text : Text} {ds : List Draft} {calls rest : List Token} {newline : Token}
      (hc : Forall₂ (Calls file) names calls) (hn : newline.kind = .newline) (ht : newline.pos.text = text)
      (more : Signed file ds rest) : Signed file (.row names text :: ds) (calls ++ newline :: rest)

namespace Merge

/-- An output behind what stays in place, with the signs in it, last one first. -/
structure Standing (base signs out : List Token) : Prop where
  split : ∃ front, out = front ++ base ∧ front.filter isSign = signs
  unkept : ∀ u ∈ signs, u.value ≠ keepSign
  fixed : ∀ u ∈ base, u.value ≠ keepSign ∧ u.kind ≠ .string

variable {base signs before : List Token} {last : Token}

theorem Standing.push (h : Standing base signs out) (ht : isSign t = false) : Standing base signs (t :: out) := by
  obtain ⟨front, rfl, rfl⟩ := h.split
  exact ⟨⟨t :: front, rfl, by simp [ht]⟩, h.unkept, h.fixed⟩

theorem Standing.push_sign (h : Standing base signs out) (ht : isSign t = true) (hv : t.value ≠ keepSign) :
    Standing base (t :: signs) (t :: out) := by
  obtain ⟨front, rfl, rfl⟩ := h.split
  exact ⟨⟨t :: front, rfl, by simp [ht]⟩, List.forall_mem_cons.2 ⟨hv, h.unkept⟩, h.fixed⟩

/-- The last token can go if it is a string or the sign that keeps a name. -/
theorem Standing.pop (h : Standing base signs (last :: out)) (hl : last.value = keepSign ∨ last.kind = .string) :
    Standing base signs out := by
  obtain ⟨front, hfront, hsigns⟩ := h.split
  cases front with
  | nil =>
    have hfixed := h.fixed last (by rw [List.nil_append] at hfront; simp [← hfront])
    exact absurd hl (not_or.2 hfixed)
  | cons u front =>
    obtain ⟨rfl, rfl⟩ := List.cons.inj hfront
    have hplain : isSign last = false := by
      rw [Bool.eq_false_iff]
      intro hs
      rcases hl with hv | hk
      · exact h.unkept last (by simp [← hsigns, hs]) hv
      · simp [isSign, hk] at hs
    exact ⟨⟨front, rfl, by simpa [hplain] using hsigns⟩, h.unkept, h.fixed⟩

variable {quiet : Bool} {splice : Token → Token → Conversion (List Token)} {total : Nat} {merged : List Token}
  {σ τ : Session}

/-- A token that is no directive, no block and not the end is added, behind the sign that keeps a variable
or in its place. -/
theorem run_added (hq : t.kind.isQuiet = true ∨ t.kind = .labelJump ∨ t.kind = .labelLine ∨ t.kind = .newline)
    (h : run d quiet splice total out (t :: rest) σ = .ok merged τ) :
    ∃ met σ', (met = out ∨ t.kind = .identifier ∧ ∃ last, out = last :: met ∧ last.value = keepSign) ∧
      run d quiet splice total (add (placeOf total rest) t met) rest σ' = .ok merged τ := by
  have hne {k : Kind} (hk : k.isQuiet = false) (hj : k ≠ .labelJump) (hl : k ≠ .labelLine) (hn : k ≠ .newline) :
      t.kind ≠ k := by
    rintro rfl
    simp [hk, hj, hl, hn] at hq
  rw [run, if_neg (hne rfl (by decide) (by decide) (by decide)),
    if_neg fun hd => hne rfl (by decide) (by decide) (by decide) hd.1,
    if_neg (hne rfl (by decide) (by decide) (by decide))] at h
  split at h
  · obtain ⟨met, ρ, hm, h⟩ := Conversion.bind_eq_ok_iff.1 h
    refine ⟨met, ρ, ?_, h⟩
    rcases meetVariable_cases hm with ⟨last, hout, hv, -⟩ | ⟨hout, -⟩
    · exact .inr ⟨‹_›, last, hout, hv⟩
    · exact .inl hout.symm
  · obtain ⟨met, ρ, hm, h⟩ := Conversion.bind_eq_ok_iff.1 h
    obtain ⟨rfl, rfl⟩ := Conversion.pure_eq_ok_iff.1 hm
    exact ⟨_, _, .inl rfl, h⟩

/-- A token of a row comes behind the tokens in front of it. -/
theorem run_calm (hc : t.isCalm = true) (hs : Standing base signs (last :: before))
    (hl : t.kind = .separator ∨ t.kind = .string → last.kind ≠ .newline)
    (h : run d quiet splice total (last :: before) (t :: rest) σ = .ok merged τ) :
    ∃ u front σ', u.kind = t.kind ∧ Standing base signs (u :: front) ∧
      run d quiet splice total (u :: front) rest σ' = .ok merged τ := by
  have hquiet := Token.isQuiet_of_isCalm hc
  have hplain (u : Token) (hu : u.kind = t.kind) : isSign u = false := by
    have hne {k : Kind} (hk : k.isQuiet = false) : u.kind ≠ k := hu ▸ Token.kind_ne_of_isQuiet hquiet hk
    unfold isSign
    split
    · exact absurd ‹_› (hne rfl)
    · exact absurd ‹_› (hne rfl)
    · exact absurd ‹_› (hne rfl)
    · exact absurd ‹_› (hne rfl)
    · rfl
  obtain ⟨met, σ', hmet, hrun⟩ := run_added (.inl (Bool.and_eq_true_iff.1 hquiet).1) h
  by_cases hi : t.kind = .identifier
  · have hadd : add (placeOf total rest) t met = t :: met := by simp [add, hi]
    rw [hadd] at hrun
    refine ⟨t, met, σ', rfl, Standing.push ?_ (hplain t rfl), hrun⟩
    rcases hmet with rfl | ⟨-, u, hu, hv⟩
    · exact hs
    · obtain ⟨rfl, rfl⟩ := List.cons.inj hu
      exact hs.pop (.inl hv)
  obtain rfl := hmet.resolve_right fun hm => hi hm.1
  have hpush : Standing base signs (t :: last :: before) := hs.push (hplain t rfl)
  unfold add at hrun
  split at hrun
  · exact absurd ‹_› (Token.kind_ne_of_isQuiet hquiet rfl)
  · rename_i hk
    simp only [addSeparator] at hrun
    split at hrun
    · exact ⟨last, before, σ', ‹last.kind = _›.trans hk.symm, hs, hrun⟩
    · exact absurd ‹_› (hl (.inl hk))
    · exact ⟨t, _, σ', rfl, hpush, hrun⟩
  · rename_i hk
    simp only [addString] at hrun
    split at hrun
    · exact ⟨t.withValue (mergeStrings last.value t.value), before, σ', rfl,
        (hs.pop (.inr ‹_›)).push (hplain (t.withValue _) rfl), hrun⟩
    · rw [if_neg (hl (.inr hk))] at hrun
      exact ⟨t, _, σ', rfl, hpush, hrun⟩
  · exact ⟨t, _, σ', rfl, hpush, hrun⟩

theorem isCalm_or_jump {us : List Token} (h : PlacedRow file names us) :
    ∀ t ∈ us, t.isCalm = true ∨ t.kind = .labelJump := by
  induction h with
  | nil => simp
  | calm hc _ ih => exact List.forall_mem_cons.2 ⟨.inl hc, ih⟩
  | jump hk _ _ ih => exact List.forall_mem_cons.2 ⟨.inr hk, ih⟩

theorem ne_keepSign (hj : AreJumps names) : ∀ name ∈ names, name ≠ keepSign := by
  intro name hm
  rcases hj name hm with rfl | ⟨n, rfl⟩
  · decide
  · rw [NumberedLine.labelName_eq]
    exact fun h => by cases h

/-- The jumps of a row become signs, its other tokens do not. -/
theorem run_placedRow {us : List Token} (hp : PlacedRow file names us) (hv : ∀ name ∈ names, name ≠ keepSign)
    (hs : Standing base signs (last :: before))
    (hl : ∀ t ∈ us.head?, t.kind = .separator ∨ t.kind = .string → last.kind ≠ .newline)
    (h : run d quiet splice total (last :: before) (us ++ rest) σ = .ok merged τ) :
    ∃ u front calls σ', u.kind = (us.getLastD last).kind ∧ Forall₂ (Calls file) names calls ∧
      Standing base (calls.reverse ++ signs) (u :: front) ∧
      run d quiet splice total (u :: front) rest σ' = .ok merged τ := by
  induction hp generalizing last before signs σ with
  | nil => exact ⟨last, before, [], σ, rfl, .nil, hs, h⟩
  | @calm names t us hc more ih =>
    obtain ⟨u, front, σ', hk, hstand, hrun⟩ := run_calm hc hs (hl t rfl) h
    have hn : u.kind ≠ .newline := hk ▸ Token.kind_ne_of_isQuiet (Token.isQuiet_of_isCalm hc) rfl
    obtain ⟨w, front', calls, σ'', hw, hcalls, hstand', hrun'⟩ := ih hv hstand (fun _ _ _ => hn) hrun
    refine ⟨w, front', calls, σ'', ?_, hcalls, hstand', hrun'⟩
    rw [hw, List.getLastD_cons, List.getLastD_eq_getLast?, List.getLastD_eq_getLast?]
    cases us.getLast? with
    | none => exact hk
    | some _ => rfl
  | @jump names t us hk hf more ih =>
    rw [List.forall_mem_cons] at hv
    rw [List.cons_append] at h
    obtain ⟨met, σ', hmet, hrun⟩ := run_added (.inr (.inl hk)) h
    obtain rfl := hmet.resolve_right fun hm => by simp [hk] at hm
    have hadd : add (placeOf total (us ++ rest)) t (last :: before) = t :: last :: before := by simp [add, hk]
    have hsign : isSign t = true := by simp [isSign, hk]
    rw [hadd] at hrun
    obtain ⟨w, front', calls, σ'', hw, hcalls, hstand, hrun'⟩ := ih hv.2 (hs.push_sign hsign hv.1)
      (fun _ _ _ => by simp [hk]) hrun
    exact ⟨w, front', t :: calls, σ'', by rw [hw, List.getLastD_cons], .cons ⟨hk, rfl, hf⟩ hcalls,
      by simpa using hstand, hrun'⟩

/-- A draft goes through the third stage, but for the ends of lines with labels. -/
theorem run_drafted (hd : PlacedDraft file ds input) (hs : Standing base signs (last :: before))
    (h : run d quiet splice total (last :: before) input σ = .ok merged τ) :
    ∃ new rest, Signed file ds new ∧ merged = base.reverse ++ rest ∧
      rest.filter isSign = signs.reverse ++ new := by
  induction hd generalizing last before signs σ with
  | @done t he =>
    rw [run, if_pos he] at h
    obtain ⟨rfl, -⟩ := Conversion.pure_eq_ok_iff.1 h
    obtain ⟨front, hfront, rfl⟩ := hs.split
    have hsign : isSign t = true := by simp [isSign, he]
    refine ⟨[t], front.reverse ++ [t], .done he, by rw [hfront]; simp, ?_⟩
    simp [hsign, List.filter_reverse]
  | @label n ds t newline rest hk hv hf hn more ih =>
    obtain ⟨met, σ', hmet, hrun⟩ := run_added (.inr (.inr (.inl hk))) h
    obtain rfl := hmet.resolve_right fun hm => by simp [hk] at hm
    have hadd : add (placeOf total (newline :: rest)) t (last :: before) = t :: last :: before := by
      simp [add, hk]
    rw [hadd] at hrun
    obtain ⟨met, σ'', hmet, hrun⟩ := run_added (.inr (.inr (.inr hn))) hrun
    obtain rfl := hmet.resolve_right fun hm => by simp [hn] at hm
    have hadd : add (placeOf total rest) newline (t :: last :: before) = t :: last :: before := by
      simp [add, addNewline, hn, hk]
    rw [hadd] at hrun
    have hkeep : t.value ≠ keepSign := by
      rw [hv, NumberedLine.labelName_eq]
      exact fun h => by cases h
    obtain ⟨new, left, hnew, hmerged, hsigns⟩ := ih (hs.push_sign (by simp [isSign, hk]) hkeep) hrun
    exact ⟨t :: new, left, .label hk hv hf hnew, hmerged, by simpa using hsigns⟩
  | @row names text ds us rest newline hp hh hl hj hn hv htext more ih =>
    obtain ⟨t, ht, hstart⟩ := (Option.any_eq_true _ _).1 hh
    obtain ⟨u, front, calls, σ', hu, hcalls, hstand, hrun⟩ := run_placedRow hp (ne_keepSign hj) hs
      (fun t' ht' hk => by
        obtain rfl : t = t' := by simpa [ht] using ht'
        rcases hk with hk | hk <;> simp [Token.startsRow, hk] at hstart) h
    obtain ⟨met, σ'', hmet, hrun⟩ := run_added (.inr (.inr (.inr hn))) hrun
    obtain rfl := hmet.resolve_right fun hm => by simp [hn] at hm
    -- the last token of the row keeps its line end
    have hadd : add (placeOf total rest) newline (u :: front) = newline :: u :: front := by
      obtain ⟨others, rfl⟩ : ∃ others, us = t :: others := List.head?_eq_some_iff.1 ht
      rw [List.getLastD_cons] at hu hl
      have hmem : others.getLastD t ∈ t :: others := List.getLastD_mem_cons
      simp only [Token.endsRow, Bool.and_eq_true, bne_iff_ne, ← hu] at hl
      have hne {k : Kind} (hk : k.isQuiet = false) (hkj : k ≠ .labelJump) : u.kind ≠ k := by
        rw [hu]
        rcases isCalm_or_jump hp _ hmem with hc | hjump
        · exact Token.kind_ne_of_isQuiet (Token.isQuiet_of_isCalm hc) hk
        · exact hjump ▸ hkj.symm
      simp only [add, hn, addNewline]
      split
      · exact absurd ‹_› (hne rfl (by decide))
      · exact absurd ‹_› (hne rfl (by decide))
      · exact absurd ‹_› (hne rfl (by decide))
      · exact absurd ‹_› hl.2
      · exact absurd ‹_› hl.1
      · rfl
    rw [hadd] at hrun
    obtain ⟨new, left, hnew, hmerged, hsigns⟩ := ih (hstand.push_sign (by simp [isSign, hn]) hv) hrun
    exact ⟨calls ++ newline :: new, left, .row hcalls hn htext hnew, hmerged, by simpa using hsigns⟩

end Merge

namespace Branch

/-- The stages in front of numbering keep the rows of a draft and put its labels in front of them. -/
theorem exists_signed {s : Setting} {depth : Nat} {b : Branch} {start : Token} {merged : List Token} {σ τ : Session}
    (hd : Drafted file ds input) (hk : start.kind = .program) (hstart : start.value ≠ Merge.keepSign)
    (hn : newline.kind = .newline) (hv : newline.value ≠ Merge.keepSign)
    (h : convert s depth b (start :: newline :: input) σ = .ok merged τ) :
    ∃ new rest, Signed file ds new ∧ merged = start :: newline :: rest ∧ rest.filter isSign = new := by
  unfold convert at h
  obtain ⟨_, _, -, h⟩ := Conversion.bind_eq_ok_iff.1 h
  obtain ⟨_, _, -, h⟩ := Conversion.bind_eq_ok_iff.1 h
  obtain ⟨⟨tables, carried⟩, _, hcarry, h⟩ := Conversion.bind_eq_ok_iff.1 h
  obtain ⟨_, _, -, h⟩ := Conversion.bind_eq_ok_iff.1 h
  obtain ⟨_, _, -, h⟩ := Conversion.bind_eq_ok_iff.1 h
  obtain ⟨placed, _, hplace, h⟩ := Conversion.bind_eq_ok_iff.1 h
  obtain ⟨_, _, -, hmerge⟩ := Conversion.bind_eq_ok_iff.1 h
  obtain ⟨input', hd', hrun⟩ := Directive.run_drafted (d := s.dialect) b.quiet
    { defines := PrintAt.builtin s.dialect start.pos } hd [newline, start]
  rw [Directive.carryOut, hrun] at hcarry
  cases hcarry
  obtain ⟨hplace, -⟩ := Conversion.ofExcept_eq_ok_iff.1 hplace
  rw [List.reverse_cons, List.reverse_singleton, List.singleton_append, List.cons_append, List.singleton_append,
    Label.place, Label.run_newline hn] at hplace
  obtain ⟨placed', hp, rfl⟩ := Label.run_drafted hd' (by simp [Directive.atLineStart, hn]) hplace
  rw [List.reverse_cons, List.reverse_singleton, List.singleton_append, List.cons_append, List.singleton_append,
    Merge.merge] at hmerge
  obtain ⟨met, σ', hmet, hmerge⟩ := Merge.run_added (.inr (.inr (.inr hn))) hmerge
  obtain rfl := hmet.resolve_right fun hm => by simp [hn] at hm
  have hadd (place : Merge.Place) : Merge.add place newline [start] = [newline, start] := by
    simp [Merge.add, Merge.addNewline, hn, hk]
  rw [hadd] at hmerge
  have hfixed : ∀ u ∈ [newline, start], u.value ≠ Merge.keepSign ∧ u.kind ≠ .string := by
    simp [hv, hstart, hn, hk]
  obtain ⟨new, rest, hnew, rfl, hsigns⟩ :=
    Merge.run_drafted hp ⟨⟨[], rfl, rfl⟩, by simp, hfixed⟩ hmerge
  exact ⟨new, rest, hnew, rfl, hsigns⟩

end Branch

end ClassicBasic
