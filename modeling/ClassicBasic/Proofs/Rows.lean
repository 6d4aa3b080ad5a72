import ClassicBasic.Proofs.Case
import ClassicBasic.Proofs.Numbering

/-!
# From numbered tokens to lines of text

The last touches change what stands on a line, never where a line starts or ends nor its number. The
tokens of a finished program fall into rows, one for each line end; a line of code is the text of a
row, and it starts with the number that heads the row.
-/

set_option autoImplicit false

namespace ClassicBasic

namespace Text

theorem isDigit_of_mem_ofNat {n : Nat} {c : Char} (h : c ∈ ofNat n) : c.isDigit = true :=
  Nat.isDigit_of_mem_toDigits (by decide) (by decide) h

theorem mem_ofInt {n : Int} {c : Char} (h : c ∈ ofInt n) : c = '-' ∨ c.isDigit = true := by
  cases n with
  | ofNat n => exact .inr (isDigit_of_mem_ofNat h)
  | negSucc n =>
    rcases List.mem_cons.1 h with rfl | h
    · exact .inl rfl
    · exact .inr (isDigit_of_mem_ofNat h)

theorem ofInt_ne_nil (n : Int) : ofInt n ≠ [] := by
  cases n with
  | ofNat n => exact Nat.toDigits_ne_nil
  | negSucc n => simp [ofInt]

theorem upperChar_of_isDigit {c : Char} (h : c = '-' ∨ c.isDigit = true) : upperChar c = c := by
  rcases h with rfl | h
  · decide
  · have hc : 48 ≤ c.toNat ∧ c.toNat ≤ 57 := by
      simpa [Char.isDigit, UInt32.le_iff_toNat_le] using h
    unfold upperChar
    rw [if_pos (by omega)]
    have hne : ¬(97 ≤ c.val ∧ c.val ≤ 122) := by
      simp only [UInt32.le_iff_toNat_le]
      intro hle
      have h97 : 97 ≤ c.toNat := hle.1
      omega
    exact dif_neg hne

theorem upper_ofInt (n : Int) : upper (ofInt n) = ofInt n := by
  unfold upper
  conv_rhs => rw [← List.map_id (ofInt n)]
  exact List.map_congr_left fun c hc => upperChar_of_isDigit (mem_ofInt hc)

theorem any_of_subset {p : Char → Bool} {code signs : Text} (hs : signs.any p = false)
    (h : code ⊆ signs) : code.any p = false :=
  List.any_eq_false.2 fun c hc => List.any_eq_false.1 hs c (h hc)

end Text

variable {d : Dialect}

namespace Lexer

theorem munch_subset (taken : Text) (kind : Kind) (l : Text) :
    (∀ c ∈ (munch id d taken kind l).1, c ∈ taken ∨ c ∈ l) ∧ (munch id d taken kind l).2.2 <:+ l := by
  induction l generalizing taken kind with
  | nil => exact ⟨fun c hc => .inl hc, List.suffix_refl _⟩
  | cons x rest ih =>
    simp only [munch]
    split
    · rename_i k hk
      obtain ⟨hm, hs⟩ := ih (taken ++ [id x]) k
      refine ⟨fun c hc => ?_, hs.trans (List.suffix_cons x rest)⟩
      rcases hm c hc with hc | hc
      · simp only [List.mem_append, List.mem_singleton, id] at hc
        rcases hc with hc | rfl
        · exact .inl hc
        · exact .inr List.mem_cons_self
      · exact .inr (List.mem_cons_of_mem _ hc)
    · exact ⟨fun c hc => .inl hc, List.suffix_refl _⟩

/-- The tokens of a piece of code are made of its characters, and the grammar or no rule at all gives
them their kinds. -/
theorem snippet?_spec {pos : Position} {code : Text} {tokens : List Token}
    (h : snippet? d pos code = .ok tokens) :
    ∀ t ∈ tokens, (t.kind = .illegal ∨ t.kind.isRead = true) ∧ ∀ c ∈ t.value, c ∈ code := by
  have skip (l : Text) {c : Char} (hc : c ∈ l.dropWhile (· == ' ')) : c ∈ l :=
    (List.dropWhile_suffix _).mem hc
  fun_induction snippet? d pos code generalizing tokens with
  | case1 => simp_all
  | case2 x rest hx hb ih =>
    obtain ⟨more, hm, rfl⟩ := Outcome.map_eq_ok_iff.1 h
    refine List.forall_mem_cons.2 ⟨⟨.inl rfl, by simp⟩, fun t ht =>
      ⟨(ih hm t ht).1, fun c hc => ?_⟩⟩
    exact List.mem_cons_of_mem _ (skip _ ((ih hm t ht).2 c hc))
  | case3 => cases h
  | case4 x rest k hk =>
    rename_i ih
    obtain ⟨more, hm, rfl⟩ := Outcome.map_eq_ok_iff.1 h
    obtain ⟨hv, hs⟩ := munch_subset (d := d) [x] k rest
    have later : ∀ t ∈ more, (t.kind = .illegal ∨ t.kind.isRead = true) ∧
        ∀ c ∈ t.value, c ∈ x :: rest := fun t ht =>
      ⟨(ih hm t ht).1, fun c hc =>
        List.mem_cons_of_mem _ (hs.mem (skip _ ((ih hm t ht).2 c hc)))⟩
    split
    · exact later
    · refine List.forall_mem_cons.2 ⟨⟨?_, fun c hc => ?_⟩, later⟩
      · exact .inr (Dialect.isRead_of_classify (classify_munch id [x] k hk rest))
      · rcases hv c hc with hc | hc
        · rw [List.mem_singleton.1 hc]
          exact List.mem_cons_self
        · exact List.mem_cons_of_mem _ hc

end Lexer

namespace Kind

/-- Kinds that stand on a line without being its end or its number, and that are no placeholders. -/
def isInline (k : Kind) : Bool :=
  k != .eof && k != .newline && k != .lineNumber && !k.isPlaceholder

end Kind

theorem Lexer.snippet_inline {pos : Position} {code : Text} (hr : '\r' ∉ code) :
    ∀ t ∈ Lexer.snippet d pos code, t.kind.isInline := by
  intro t ht
  have hl : t.Lexed d := snippet_lexed pos code t ht
  have hp : t.kind.isPlaceholder = false := by
    have := hl.unmade
    cases hk : t.kind <;> simp_all [Kind.isMade, Kind.isPlaceholder]
  unfold snippet at ht
  split at ht
  · rename_i tokens hs
    obtain ⟨hk, hv⟩ := snippet?_spec hs t ht
    have he : t.kind ≠ .eof := by
      intro he
      simp [he, Kind.isRead, Kind.isRaw] at hk
    have hn := hl.toLawful.kind_ne_newline fun hc => hr (hv _ hc)
    simp [Kind.isInline, he, hn, hl.unnumbered, hp]
  · cases ht

namespace Dialect

theorem compound_rule (d : Dialect) :
    ∀ r ∈ d.grammar, r.kind = .compound → r.shape = .words compounds [] := by
  cases d <;> decide

def compoundSigns : Text := "+-*/^="

theorem accepts_compound {v : Text} (h : d.classify v = some .compound) : v ⊆ compoundSigns := by
  obtain ⟨r, hr, hk, ha⟩ := classify_rule h
  rw [compound_rule d r hr hk] at ha
  simp only [Shape.accepts, List.any_nil, Bool.or_false, List.any_eq_true] at ha
  obtain ⟨w, hw, hs⟩ := ha
  rw [Text.sameLetters_eq, beq_iff_eq] at hs
  have hfold : ∀ w ∈ compounds, Text.fold w ⊆ compoundSigns := by decide
  have hsigns : compoundSigns.all
      (fun x => decide (x.toNat < 0x80) && !x.isLower && x != '\x00') = true := by decide
  intro c hc
  have hmem : Text.foldChar c ∈ compoundSigns := hfold w hw (hs ▸ List.mem_map_of_mem hc)
  obtain ⟨⟨hascii, hlower⟩, hzero⟩ : (_ ∧ _) ∧ _ := by
    simpa using List.all_eq_true.1 hsigns _ hmem
  exact Text.foldChar_eq rfl hascii hlower hzero ▸ hmem

end Dialect

namespace Touch

variable {o : Options} {out tokens : List Token} {t next : Token}

@[simp]
theorem printed_kind : (printed o t).kind = t.kind := rfl

@[simp]
theorem capitalised_kind : (capitalised d o t).kind = t.kind := by
  unfold capitalised
  split <;> rfl

theorem capitalised_value : (capitalised d o t).value = t.value ∨
    (capitalised d o t).value = Text.upper t.value := by
  unfold capitalised
  split
  · exact .inr rfl
  · exact .inl rfl

/-- Only words, truth values, compound assignments and literals are touched. -/
theorem touch_eq (h : touch d o out t next = .ok tokens) (hi : t.kind ≠ .instruction)
    (hj : t.kind ≠ .jump) (hc : t.kind ≠ .compound) (ht : t.kind ≠ .truth)
    (hl : t.kind.isLiteral = false) : tokens = [capitalised d o t] := by
  have hprint : isPrint t = false := by simp [isPrint, hi]
  unfold touch at h
  simp only [hprint, hj, hc, ht, hl, Bool.false_eq_true, false_and, and_false, if_false,
    Except.ok.injEq] at h
  exact h.symm

/-- Line ends, numbers of lines and placeholders stay, up to the case of letters. -/
theorem touch_of_not_inline (h : touch d o out t next = .ok tokens)
    (hk : t.kind.isInline = false) : tokens = [capitalised d o t] := by
  have hne {k : Kind} (hi : k.isInline = true) : t.kind ≠ k := by
    rintro rfl
    rw [hi] at hk
    cases hk
  refine touch_eq h (hne rfl) (hne rfl) (hne rfl) (hne rfl) ?_
  cases hkind : t.kind <;> simp_all [Kind.isLiteral, Kind.isInline, Kind.isPlaceholder]

inductive Touched (d : Dialect) (o : Options) (out : List Token) (t : Token) : List Token → Prop
  /-- PRINT in the style asked for. -/
  | printed (hk : t.kind = .instruction) : Touched d o out t [capitalised d o (printed o t)]
  /-- One of THEN GOTO goes. -/
  | gone (hk : t.kind = .jump) : Touched d o out t []
  | writtenOut {operand : Token} {before : List Token} (hk : t.kind = .compound)
    (ho : out = operand :: before) (hi : operand.kind = .identifier) :
    Touched d o out t (writtenOut d t operand)
  | truth {code : Text} (hk : t.kind = .truth) (hc : code ∈ Text.ofStrings ["0", "-1"]) :
    Touched d o out t (Lexer.snippet d t.pos code)
  | translated (hk : t.kind.isLiteral) : Touched d o out t [t.withValue (d.translate t.value)]
  | kept : Touched d o out t [capitalised d o t]

theorem touch_cases (h : touch d o out t next = .ok tokens) : Touched d o out t tokens := by
  unfold touch at h
  split at h
  · rename_i hp
    cases h
    have hk := hp.1
    simp only [isPrint, Bool.and_eq_true, beq_iff_eq] at hk
    exact .printed hk.1
  · split at h
    · rename_i hk
      cases h
      exact .gone hk.2.1
    · split at h
      · rename_i hk
        cases h
        exact .gone hk.2.1
      · split at h
        · rename_i hk
          split at h
          · cases h
          · split at h
            · rename_i operand before hi
              cases h
              exact .writtenOut hk rfl hi
            · cases h
        · split at h
          · rename_i hk
            cases h
            exact .truth hk.1 (by decide)
          · split at h
            · rename_i hk
              cases h
              exact .truth hk.1 (by decide)
            · split at h
              · rename_i hk
                cases h
                exact .translated hk.2
              · cases h
                exact .kept

/-- Whatever else stands on a line is replaced by tokens that stand on a line. -/
theorem touch_inline (h : touch d o out t next = .ok tokens) (hk : t.kind.isInline)
    (hc : t.kind = .compound → '\r' ∉ t.value) : ∀ u ∈ tokens, u.kind.isInline := by
  cases touch_cases h with
  | printed => simpa using hk
  | gone => simp
  | @writtenOut operand before hkind _ hi =>
    have hop : '\r' ∉ operator t := fun hr => hc hkind (List.mem_of_mem_take hr)
    intro u hu
    simp only [Touch.writtenOut, List.mem_append, List.mem_cons] at hu
    rcases hu with (hu | rfl | hu) | hu
    · exact Lexer.snippet_inline (by decide) u hu
    · rw [hi]
      rfl
    · exact Lexer.snippet_inline hop u hu
    · split at hu
      · exact Lexer.snippet_inline (by decide) u hu
      · cases hu
  | truth _ hcode =>
    have hnone : ∀ code ∈ Text.ofStrings ["0", "-1"], '\r' ∉ code := by decide
    exact Lexer.snippet_inline (hnone _ hcode)
  | translated => simpa [Token.withValue] using hk
  | kept => simpa using hk

theorem run_cases {rest parsed : List Token} (h : run d o out (t :: rest) = .ok parsed) :
    (t.kind = .eof ∧ parsed = (t :: out).reverse) ∨
      (t.kind ≠ .eof ∧ ∃ tokens, touch d o out t (rest.headD t) = .ok tokens ∧
        run d o (tokens.reverse ++ out) rest = .ok parsed) := by
  simp only [run] at h
  split at h
  · cases h
    exact .inl ⟨‹_›, rfl⟩
  · split at h
    · cases h
    · exact .inr ⟨‹_›, _, ‹_›, h⟩

theorem run_append {input parsed : List Token} (h : run d o out input = .ok parsed) :
    ∃ new, parsed = out.reverse ++ new := by
  induction input generalizing out with
  | nil => cases h
  | cons t rest ih =>
    rcases run_cases h with ⟨-, rfl⟩ | ⟨-, tokens, -, hr⟩
    · exact ⟨[t], by simp⟩
    · obtain ⟨new, rfl⟩ := ih hr
      exact ⟨tokens ++ new, by simp⟩

open ClassicBasic.Numbering (Follows lineAt)

/-- A placeholder that the last touches leave is one they were given. -/
def Carried (input new : List Token) : Prop :=
  ∀ t ∈ new, t.kind.isPlaceholder → ∃ u ∈ input, u.kind.isPlaceholder ∧
    (t.value = u.value ∨ t.value = Text.upper u.value)

theorem Carried.cons {new rest tokens : List Token} (h : Carried rest new)
    (ht : tokens = [capitalised d o t] ∨ ∀ u ∈ tokens, u.kind.isInline) :
    Carried (t :: rest) (tokens ++ new) := by
  intro u hu hk
  rcases List.mem_append.1 hu with hu | hu
  · rcases ht with rfl | ht
    · rw [List.mem_singleton.1 hu] at hk ⊢
      rw [capitalised_kind] at hk
      exact ⟨t, List.mem_cons_self, hk, capitalised_value⟩
    · have := ht u hu
      simp [Kind.isInline, hk] at this
  · obtain ⟨v, hv, hvk, hval⟩ := h u hu hk
    exact ⟨v, List.mem_cons_of_mem _ hv, hvk, hval⟩

/-- The last touches keep the lines of a program and their numbers. -/
theorem run_follows {scale : Numbering.Scale} {k K : Nat} {input parsed : List Token}
    {ended : List Int} (hf : Follows scale k K input ended)
    (hc : ∀ t ∈ input, t.kind = .compound → '\r' ∉ t.value)
    (h : run d o out input = .ok parsed) :
    ∃ new, parsed = out.reverse ++ new ∧ Follows scale k K new ended ∧ Carried input new := by
  have keeps {out : List Token} {t : Token} {rest : List Token} (hk : t.kind.isInline = false)
      (he : t.kind ≠ .eof) (h : run d o out (t :: rest) = .ok parsed) :
      run d o (capitalised d o t :: out) rest = .ok parsed := by
    rcases run_cases h with ⟨ht, -⟩ | ⟨-, tokens, ht, hr⟩
    · exact absurd ht he
    · rwa [touch_of_not_inline ht hk] at hr
  have ends {out : List Token} {t : Token} {rest : List Token} (ht : t.kind = .eof)
      (h : run d o out (t :: rest) = .ok parsed) : parsed = out.reverse ++ [t] := by
    rcases run_cases h with ⟨-, rfl⟩ | ⟨he, -⟩
    · simp
    · exact absurd ht he
  have single {t : Token} {rest : List Token} (ht : t.kind = .eof) : Carried (t :: rest) [t] := by
    simp [Carried, ht, Kind.isPlaceholder]
  induction hf generalizing out with
  | @last k t ht => exact ⟨[t], ends ht h, .last ht, single ht⟩
  | @close k t u ht hu =>
    have hr := keeps (by rw [ht]; rfl) (by simp [ht]) h
    refine ⟨[capitalised d o t, u], by simpa using ends hu hr, .close (by simpa using ht) hu, ?_⟩
    exact (single hu).cons (.inl rfl)
  | @token k K t rest ended he hn hl _ ih =>
    rw [List.forall_mem_cons] at hc
    rcases run_cases h with ⟨ht, -⟩ | ⟨-, tokens, ht, hr⟩
    · exact absurd ht he
    · obtain ⟨new, rfl, hf, hcar⟩ := ih hc.2 hr
      have hor : tokens = [capitalised d o t] ∨ ∀ u ∈ tokens, u.kind.isInline := by
        cases hk : t.kind.isInline with
        | false => exact .inl (touch_of_not_inline ht hk)
        | true => exact .inr (touch_inline ht hk hc.1)
      refine ⟨tokens ++ new, by simp, hf.append ?_, hcar.cons hor⟩
      rcases hor with rfl | hin
      · simpa using ⟨he, hn, hl⟩
      · intro u hu
        have := hin u hu
        simp only [Kind.isInline, Bool.and_eq_true, bne_iff_ne] at this
        exact ⟨this.1.1.1, this.1.1.2, this.1.2⟩
  | @line k K t u rest ended ht hu hv _ ih =>
    simp only [List.forall_mem_cons] at hc
    have hr := keeps (by rw [hu]; rfl) (by simp [hu]) (keeps (by rw [ht]; rfl) (by simp [ht]) h)
    obtain ⟨new, rfl, hf, hcar⟩ := ih hc.2.2 hr
    refine ⟨capitalised d o t :: capitalised d o u :: new, by simp, ?_, ?_⟩
    · refine .line (by simpa using ht) (by simpa using hu) ?_ hf
      rcases capitalised_value (d := d) (o := o) (t := u) with h | h
      · rw [h, hv]
      · rw [h, hv, Text.upper_ofInt]
    · exact (hcar.cons (d := d) (o := o) (t := u) (.inl rfl)).cons (d := d) (o := o) (t := t) (.inl rfl)

/-- The last touches on a whole program, whose first two tokens stay. -/
theorem finish_follows {scale : Numbering.Scale} {K : Nat} {start second : Token}
    {tail parsed : List Token} {ended : List Int}
    (hf : Follows scale 0 K (second :: tail) ended)
    (hc : ∀ t ∈ second :: tail, t.kind = .compound → '\r' ∉ t.value)
    (hk : second.kind = .newline ∨ second.kind = .separator)
    (h : finish d o (start :: second :: tail) = .ok parsed) :
    ∃ second' tail', parsed = start :: second' :: tail' ∧ second'.kind = second.kind ∧
      Follows scale 0 K (second' :: tail') ended ∧ Carried (second :: tail) (second' :: tail') := by
  obtain ⟨new, rfl, hnew, hcar⟩ := run_follows hf hc h
  rcases run_cases h with ⟨he, -⟩ | ⟨-, tokens, ht, hr⟩
  · rcases hk with hk | hk <;> simp [hk] at he
  · have htokens : tokens = [capitalised d o second] := by
      rcases hk with hk | hk
      · exact touch_of_not_inline ht (by rw [hk]; rfl)
      · exact touch_eq ht (by simp [hk]) (by simp [hk]) (by simp [hk]) (by simp [hk]) (by rw [hk]; rfl)
    subst htokens
    obtain ⟨tail', heq⟩ := run_append hr
    obtain rfl : new = capitalised d o second :: tail' := by simpa using heq
    exact ⟨capitalised d o second, tail', rfl, by simp, hnew, hcar⟩

end Touch

namespace Render

/-- The rows of a program: the tokens of its finished lines without empty ones. `read` are the tokens
of the line being read, last token first. -/
def rowsFrom (read : List Token) : List Token → List (List Token)
  | [] => []
  | t :: rest =>
    if t.kind = .eof then []
    else
      let read := if t.value = [] then read else t :: read
      if t.kind = .newline then read.reverse :: rowsFrom [] rest else rowsFrom read rest

/-- The rows of a finished program, behind its first two tokens. -/
def rows (tokens : List Token) : List (List Token) := rowsFrom [] (tokens.drop 2)

variable {o : Options} {notes : List (Int × Text)}

theorem linesFrom_eq {read tokens : List Token} {code : List Text}
    (h : linesFrom d o notes read tokens = .ok code) :
    code = (rowsFrom read tokens).map (line d o notes) := by
  induction tokens generalizing read code with
  | nil =>
    cases h
    rfl
  | cons t rest ih =>
    simp only [linesFrom] at h
    simp only [rowsFrom]
    split at h
    · cases h
      simp [*]
    · rename_i he
      rw [if_neg he]
      split at h
      · cases h
      · generalize (if t.value = [] then read else t :: read) = read' at h ⊢
        split at h
        · rename_i hn
          rw [if_neg hn]
          exact ih h
        · rename_i hn
          rw [if_pos (Decidable.not_not.1 hn)]
          split at h
          · cases h
          · obtain ⟨more, hm, rfl⟩ := Outcome.map_eq_ok_iff.1 h
            rw [ih hm]
            rfl

theorem lines_eq {tokens : List Token} {code : List Text}
    (h : lines d o notes tokens = .ok code) : code = (rows tokens).map (line d o notes) :=
  linesFrom_eq h

def HeadedBy (n : Int) (row : List Token) : Prop :=
  ∃ t more, row = t :: more ∧ t.kind = .lineNumber ∧ t.value = Text.ofInt n

open ClassicBasic.Numbering (Follows lineAt)

variable {scale : Numbering.Scale} {k K : Nat} {tokens : List Token} {ended : List Int}

/-- Behind the number of a line, the rows are headed by the numbers of the lines that end. -/
theorem rowsFrom_headed {read : List Token} (hf : Follows scale k K tokens ended)
    (hr : HeadedBy (lineAt scale k) read.reverse) :
    List.Forall₂ HeadedBy ended (rowsFrom read tokens) := by
  have more {read : List Token} {n : Int} {t : Token} (hr : HeadedBy n read.reverse) :
      HeadedBy n (if t.value = [] then read else t :: read).reverse := by
    obtain ⟨u, left, heq, hk⟩ := hr
    split
    · exact ⟨u, left, heq, hk⟩
    · exact ⟨u, left ++ [t], by simp [heq], hk⟩
  induction hf generalizing read with
  | last ht => simp [rowsFrom, ht]
  | close ht hu =>
    simp only [rowsFrom, ht, hu, reduceCtorEq, if_true, if_false]
    exact .cons (more hr) .nil
  | token he hn hl _ ih =>
    simp only [rowsFrom, he, hn, if_false]
    exact ih (more hr)
  | line ht hu hv _ ih =>
    simp only [rowsFrom, ht, hu, reduceCtorEq, if_true, if_false]
    refine .cons (more hr) (ih ?_)
    rw [hv, if_neg (Text.ofInt_ne_nil _)]
    exact ⟨_, [], rfl, hu, hv⟩

/-- On a line without a number the first row has none; the rows behind it do. -/
theorem rowsFrom_unheaded {read : List Token} (hf : Follows scale k K tokens ended)
    (hr : ∀ t ∈ read, t.kind ≠ .lineNumber) :
    (ended = [] ∧ rowsFrom read tokens = []) ∨
      ∃ row more, rowsFrom read tokens = row :: more ∧ (∀ t ∈ row, t.kind ≠ .lineNumber) ∧
        ended ≠ [] ∧ List.Forall₂ HeadedBy ended.tail more := by
  have more {read : List Token} {t : Token} (hr : ∀ t ∈ read, t.kind ≠ .lineNumber)
      (ht : t.kind ≠ .lineNumber) :
      ∀ u ∈ (if t.value = [] then read else t :: read), u.kind ≠ .lineNumber := by
    split
    · exact hr
    · exact List.forall_mem_cons.2 ⟨ht, hr⟩
  induction hf generalizing read with
  | last ht => exact .inl ⟨rfl, by simp [rowsFrom, ht]⟩
  | @close k t u ht hu =>
    right
    simp only [rowsFrom, ht, hu, reduceCtorEq, if_true, if_false]
    refine ⟨_, [], rfl, fun v hv => ?_, by simp, .nil⟩
    exact more hr (by simp [ht]) v (List.mem_reverse.1 hv)
  | token he hn hl _ ih =>
    simp only [rowsFrom, he, hn, if_false]
    exact ih (more hr hl)
  | line ht hu hv hf ih =>
    right
    simp only [rowsFrom, ht, hu, reduceCtorEq, if_true, if_false]
    refine ⟨_, _, rfl, fun v hv => ?_, by simp, rowsFrom_headed hf ?_⟩
    · exact more hr (by simp [ht]) v (List.mem_reverse.1 hv)
    · rw [hv, if_neg (Text.ofInt_ne_nil _)]
      exact ⟨_, [], rfl, hu, hv⟩

theorem prefix_lineText {space : Text} (last : Option Token) (written : Text)
    (tokens : List Token) : written <+: lineText d space last written tokens := by
  induction tokens generalizing last written with
  | nil => exact List.prefix_refl _
  | cons t rest ih =>
    simp only [lineText]
    split
    · exact ih _ _
    · refine List.IsPrefix.trans ?_ (ih _ _)
      split <;> simp [List.append_assoc]

/-- The text of a row starts with its number and what stands behind numbers. -/
theorem lineText_headed (d : Dialect) (space : Text) {n : Int} {row : List Token} (h : HeadedBy n row) :
    Text.ofInt n ++ space <+: lineText d space none [] row := by
  obtain ⟨t, more, rfl, hk, hv⟩ := h
  have hbehind : spaceBehind d space t more.head? = space := by
    unfold spaceBehind
    split <;> simp [hk]
  have hbefore (text : Text) : spaceBefore d space none t text = [] := rfl
  have hneeds : needsSpace none t [] = false := by simp [needsSpace]
  simp only [lineText, hk, hneeds, hbefore, hbehind, hv, reduceCtorEq, if_false, Bool.false_eq_true,
    List.nil_append, List.append_nil]
  exact prefix_lineText _ _ _

theorem not_isSpace_ofInt {n : Int} : ∀ c ∈ Text.ofInt n, isSpace c = false := by
  intro c hc
  rcases Text.mem_ofInt hc with rfl | hd
  · decide
  · have hne : c ≠ ' ' := by
      rintro rfl
      exact absurd hd (by decide)
    simpa [isSpace] using hne

theorem trimEnd_ofInt {n : Int} (text : Text) :
    Text.trimEnd isSpace (Text.ofInt n ++ text) = Text.ofInt n ++ Text.trimEnd isSpace text :=
  Text.trimEnd_append not_isSpace_ofInt text

/-- Whether a text is empty or starts with a blank. -/
def StartsBlank (text : Text) : Prop := text = [] ∨ ∃ more, text = ' ' :: more

theorem StartsBlank.append {text more : Text} (h : StartsBlank text) (hm : StartsBlank more) :
    StartsBlank (text ++ more) := by
  rcases h with rfl | ⟨rest, rfl⟩
  · exact hm
  · exact .inr ⟨rest ++ more, rfl⟩

theorem StartsBlank.trimEnd {text : Text} (h : StartsBlank text) :
    StartsBlank (Text.trimEnd isSpace text) := by
  have hp : Text.trimEnd isSpace text <+: text := by
    unfold Text.trimEnd
    rw [← List.reverse_suffix, List.reverse_reverse]
    exact List.dropWhile_suffix _
  rcases h with rfl | ⟨more, rfl⟩
  · exact .inl (List.prefix_nil.1 hp)
  · rcases List.prefix_cons_iff.1 hp with hnil | ⟨rest, hcons, -⟩
    · exact .inl hnil
    · exact .inr ⟨rest, hcons⟩

/-- A line of code starts with the number that heads its row; a blank follows it, or the line ends,
unless blanks are stripped. -/
theorem line_headed (d : Dialect) (o : Options) (notes : List (Int × Text)) {n : Int}
    {row : List Token} (h : HeadedBy n row) :
    ∃ tail, line d o notes row = Text.ofInt n ++ tail ∧
      (o.stripSpaces = false → StartsBlank tail) := by
  obtain ⟨body, hbody, hblank⟩ : ∃ body, lineText d (if o.stripSpaces then [] else " ") none [] row =
      Text.ofInt n ++ body ∧ (o.stripSpaces = false → StartsBlank body) := by
    obtain ⟨tail, ht⟩ := lineText_headed d (if o.stripSpaces then [] else " ") h
    refine ⟨(if o.stripSpaces then [] else " ") ++ tail, ?_, fun ho => ?_⟩
    · rw [← ht]
      exact List.append_assoc _ _ _
    · rw [ho]
      exact .inr ⟨tail, rfl⟩
  unfold line
  dsimp only
  rw [hbody, trimEnd_ofInt]
  split
  · rw [List.append_assoc, List.append_assoc, trimEnd_ofInt]
    refine ⟨_, rfl, fun ho => ?_⟩
    exact ((hblank ho).trimEnd.append (.inr ⟨_, rfl⟩)).trimEnd
  · rw [trimEnd_ofInt]
    exact ⟨_, rfl, fun ho => (hblank ho).trimEnd⟩

end Render

end ClassicBasic
