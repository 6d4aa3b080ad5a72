import ClassicBasic.Proofs.Captured
import ClassicBasic.Proofs.Expansion
import ClassicBasic.Proofs.Sealed

/-!
# What stands between the sentinels

The first three stages take tokens from between the sentinels, put what they make of them behind the
start and leave the end for last. A property of tokens that is kept by all they do to one token, and
that holds of the code they put in, therefore holds of everything between the sentinels of a
converted file when it holds of what was lexed.
-/

set_option autoImplicit false

namespace ClassicBasic

namespace Text

def Ascii (v : Text) : Prop := ∀ c ∈ v, c.toNat < 0x80

/-- Whether all characters have numbers that fit an octet. -/
def Latin (v : Text) : Prop := ∀ c ∈ v, c.toNat ≤ 0xFF

-- what is in a text is checked, not every character there is
instance (v : Text) : Decidable (Ascii v) := List.decidableBAll _ v

instance (v : Text) : Decidable (Latin v) := List.decidableBAll _ v

end Text

structure Token.Starts (t : Token) : Prop where
  kind : t.kind = .program
  value : t.value = Listing.programText

structure Token.Ends (t : Token) : Prop where
  kind : t.kind = .eof
  value : t.value = Listing.eofText

def Kind.isSentinel : Kind → Bool
  | .program | .eof => true
  | _ => false

def Token.Inside (t : Token) : Prop := t.kind.isSentinel = false

/-- Whether the value of a token is a name that an entry or a placeholder is made of. -/
def Token.Names (t : Token) : Prop :=
  t.kind = .functionName ∨ Dialect.isIdentifier t.value = true ∨ t.value = Label.sameLine

/-- Kinds of entries and placeholders, which are called by a name in small letters. -/
def Kind.isNaming (k : Kind) : Bool := k.isEntry || k.isPlaceholder

/-- Whether `P` holds of whatever the first three stages make of tokens that it holds of, and of the
code they put in. -/
structure Inherits (d : Dialect) (P : Token → Prop) : Prop where
  inside : ∀ t, P t → t.Inside
  code : ∀ pos (text : Text), text.Ascii → ∀ t ∈ Lexer.snippet d pos text, P t
  special : ∀ v ∈ [PrintAt.opening, PrintAt.closing], ∀ pos, P ⟨.special, v, pos⟩
  lineEnd : ∀ pos, P ⟨.newline, "\r", pos⟩
  moved : ∀ t pos, P t → P (t.movedTo pos)
  called : ∀ t k, P t → t.kind = .joiner ∨ t.kind = .identifier → k = .call ∨ k = .callName →
    P (t.withKind k)
  named : ∀ t k pos, P t → t.Names → Kind.isNaming k = true → P ⟨k, t.lower, pos⟩
  remark : ∀ t, P t → P (t.withKind .remarkText)
  joined : ∀ s t, P s → P t → s.kind = .string → t.kind = .string →
    P (t.withValue (Merge.mergeStrings s.value t.value))

/-- Whether `P` holds of the tokens of an input, its end apart. -/
def Fed (P : Token → Prop) (input : List Token) : Prop :=
  ∀ t rest, t :: rest <:+ input → P t ∨ t.Ends ∧ rest = []

/-- Whether an output (last token first) has its start at the bottom and above it tokens that `P` holds
of. -/
def Built (P : Token → Prop) (out : List Token) : Prop :=
  ∃ new start, out = new ++ [start] ∧ start.Starts ∧ ∀ t ∈ new, P t

/-- Whether a list has its sentinels at its ends and tokens that `P` holds of between them. -/
def Framed (P : Token → Prop) (tokens : List Token) : Prop :=
  ∃ start inner last, tokens = start :: (inner ++ [last]) ∧ start.Starts ∧ last.Ends ∧
    ∀ t ∈ inner, P t

variable {d : Dialect} {P : Token → Prop} {input rest left out l tokens : List Token} {t u : Token}

namespace Token

theorem Inside.ne_program (h : t.Inside) : t.kind ≠ .program := fun hk => by
  simp [Inside, hk, Kind.isSentinel] at h

theorem Inside.ne_eof (h : t.Inside) : t.kind ≠ .eof := fun hk => by
  simp [Inside, hk, Kind.isSentinel] at h

end Token

section Lists

theorem Fed.suffix (h : Fed P input) (hs : left <:+ input) : Fed P left :=
  fun t rest ht => h t rest (ht.trans hs)

theorem Fed.tail (h : Fed P (t :: rest)) : Fed P rest := h.suffix (List.suffix_cons t rest)

theorem Fed.mem (h : Fed P input) (ht : t ∈ input) : P t ∨ t.Ends := by
  obtain ⟨read, rest, rfl⟩ := List.append_of_mem ht
  exact (h t rest (List.suffix_append read _)).imp_right And.left

theorem Fed.token (h : Fed P input) (ht : t ∈ input) (hk : t.kind ≠ .eof) : P t :=
  (h.mem ht).resolve_right fun he => hk he.kind

theorem Fed.onLine (h : Fed P input) (ht : OnLine input t) : P t :=
  h.token (List.takeWhile_subset _ ht.mem) fun hk => by
    have hi := ht.inside
    simp [Token.endsLine, hk] at hi

theorem Fed.head (h : Fed P (t :: u :: rest)) : P t :=
  (h t _ (List.suffix_refl _)).resolve_right fun he => nomatch he.2

theorem Fed.ends (hP : Inherits d P) (h : Fed P input) (ht : t ∈ input) (hk : t.kind = .eof) :
    t.Ends :=
  (h.mem ht).resolve_left fun hp => (hP.inside t hp).ne_eof hk

theorem fed_append (hl : ∀ t ∈ l, P t) (hu : u.Ends) : Fed P (l ++ [u]) := by
  induction l with
  | nil =>
    intro t rest hs
    rcases List.suffix_cons_iff.1 hs with heq | hs
    · cases heq
      exact .inr ⟨hu, rfl⟩
    · cases List.suffix_nil.1 hs
  | cons v l ih =>
    obtain ⟨hv, hl⟩ := List.forall_mem_cons.1 hl
    intro t rest hs
    rcases List.suffix_cons_iff.1 hs with heq | hs
    · cases heq
      exact .inl hv
    · exact ih hl t rest hs

theorem Built.append (h : Built P out) (hl : ∀ t ∈ l, P t) : Built P (l ++ out) := by
  obtain ⟨new, start, rfl, hs, hn⟩ := h
  refine ⟨l ++ new, start, by simp, hs, fun t ht => ?_⟩
  rcases List.mem_append.1 ht with ht | ht
  · exact hl t ht
  · exact hn t ht

theorem Built.push (h : Built P out) (ht : P t) : Built P (t :: out) :=
  h.append (l := [t]) (by simpa using ht)

theorem Built.reverse_append (h : Built P out) (hl : ∀ t ∈ l, P t) : Built P (l.reverse ++ out) :=
  h.append fun t ht => hl t (List.mem_reverse.1 ht)

theorem Built.pop (h : Built P (t :: out)) (ht : ¬t.Starts) : P t ∧ Built P out := by
  obtain ⟨new, start, heq, hs, hn⟩ := h
  cases new with
  | nil =>
    cases heq
    exact absurd hs ht
  | cons u new =>
    cases heq
    obtain ⟨hu, hnew⟩ := List.forall_mem_cons.1 hn
    exact ⟨hu, new, start, rfl, hs, hnew⟩

theorem Built.pop_of_kind (h : Built P (t :: out)) {k : Kind} (ht : t.kind = k)
    (hk : k ≠ .program) : P t ∧ Built P out :=
  h.pop fun hs => hk (ht.symm.trans hs.kind)

theorem Built.pop_of_value (h : Built P (t :: out)) {v : Text} (ht : t.value = v)
    (hv : v ≠ Listing.programText) : P t ∧ Built P out :=
  h.pop fun hs => hv (ht.symm.trans hs.value)

theorem Built.ne_nil (h : Built P out) : out ≠ [] := by
  obtain ⟨new, start, rfl, -, -⟩ := h
  simp

theorem Built.framed (h : Built P out) (ht : t.Ends) : Framed P (t :: out).reverse := by
  obtain ⟨new, start, rfl, hs, hn⟩ := h
  exact ⟨start, new.reverse, t, by simp, hs, ht, fun u hu => hn u (List.mem_reverse.1 hu)⟩

/-- What the sentinels of a file that starts with a line end enclose. -/
theorem Framed.opened {start newline : Token} (h : Framed P (start :: newline :: rest))
    (hn : newline.kind = .newline) : Built P [newline, start] ∧ Fed P rest := by
  obtain ⟨first, inner, last, heq, hs, hl, hi⟩ := h
  cases inner with
  | nil =>
    cases heq
    exact absurd (hl.kind.symm.trans hn) (by decide)
  | cons u inner =>
    cases heq
    obtain ⟨hu, hinner⟩ := List.forall_mem_cons.1 hi
    exact ⟨⟨[newline], start, rfl, hs, by simpa using hu⟩, fed_append hinner hl⟩

end Lists

namespace Lexer

/-- Whether `P` holds of all tokens that are read from a list of characters. -/
def Reading (d : Dialect) (P : Token → Prop) (input : List Glyph) : Prop :=
  ∀ closing last g rest t left read, g :: rest <:+ input → scan d g rest = .ok (t, left) →
    complete d closing last t left = .ok read → ∀ u ∈ read.1, P u

theorem lexFrom_framed {closing : Nat} {last : Kind} {input : List Glyph}
    (hP : Reading d P input) (h : lexFrom d closing last input = .ok tokens) :
    ∃ inner final, tokens = inner ++ [final] ∧ final.Ends ∧ ∀ t ∈ inner, P t := by
  have ending (pos : Position) : Token.Ends ⟨.eof, Listing.eofText, pos⟩ := ⟨rfl, rfl⟩
  fun_induction lexFrom d closing last input generalizing tokens with
  | case1 =>
    cases h
    exact ⟨[], _, rfl, ending _, by simp⟩
  | case2 =>
    cases h
    exact ⟨[], _, rfl, ending _, by simp⟩
  | case3 => cases h
  | case4 last g rest _ t left hs _ ih =>
    have hleft : left <:+ g :: rest := (scan_suffix hs).trans (List.suffix_cons g rest)
    exact ih (fun c k g' rest' t' left' read hg => hP c k g' rest' t' left' read (hg.trans hleft)) h
  | case5 => cases h
  | case6 => cases h
  | case7 last g rest _ t left hs _ _ read left' hc _ =>
    rename_i ih
    obtain ⟨more, hm, rfl⟩ := Outcome.map_eq_ok_iff.1 h
    have hleft : left' <:+ g :: rest :=
      (complete_suffix hc).trans ((scan_suffix hs).trans (List.suffix_cons g rest))
    obtain ⟨inner, final, rfl, hfinal, hinner⟩ := ih (fun c k g' rest' t' left' read hg =>
      hP c k g' rest' t' left' read (hg.trans hleft)) hm
    refine ⟨read ++ inner, final, by simp, hfinal, fun u hu => ?_⟩
    rcases List.mem_append.1 hu with hu | hu
    · exact hP _ _ _ _ _ _ _ (List.suffix_refl _) hs hc u hu
    · exact hinner u hu

/-- What is lexed stands between sentinels, and so does what follows the first line of a listing. -/
theorem lex_framed {listing : Listing} (hline : ∀ pos, P ⟨.newline, [Glyph.endMark], pos⟩)
    (hP : Reading d P (listing.tail.flatMap Glyph.ofLine)) (h : lex d listing = .ok tokens) :
    Framed P tokens := by
  unfold lex at h
  split at h
  · rename_i first second more
    obtain ⟨lexed, hl, rfl⟩ := Outcome.map_eq_ok_iff.1 h
    obtain ⟨inner, final, rfl, hfinal, hinner⟩ := lexFrom_framed hP hl
    exact ⟨_, ⟨.newline, [Glyph.endMark], _⟩ :: inner, final, rfl, ⟨rfl, rfl⟩, hfinal,
      List.forall_mem_cons.2 ⟨hline _, hinner⟩⟩
  · cases h

end Lexer

structure Routine.Holds (P : Token → Prop) (f : Routine) : Prop where
  parameters : ∀ p ∈ f.parameters, P p.name ∧ ∀ t ∈ p.fallback, P t
  results : ∀ r ∈ f.results, ∀ t ∈ r, P t

structure Tables.Holds (P : Token → Prop) (tables : Tables) : Prop where
  defines : ∀ m ∈ tables.defines, m.Holds P
  routines : ∀ e ∈ tables.routines, e.2.Holds P
  opened : ∀ e ∈ tables.opened, ∀ p ∈ e.2, P p.name ∧ ∀ t ∈ p.fallback, P t

namespace PrintAt

theorem ascii_of_signs {code : Text} (h : code ⊆ signs) : code.Ascii := by
  have hall : Text.Ascii signs := by decide
  exact fun c hc => hall c (h hc)

theorem builtin_holds (hP : Inherits d P) (pos : Position) :
    ∀ m ∈ PrintAt.builtin d pos, m.Holds P := by
  have hspecial {v : Text} (hv : v ∈ [opening, closing]) {pos pos' : Position} :
      P (Token.movedTo ⟨.special, v, pos⟩ pos') := hP.special v hv pos'
  intro m hm
  cases d with
  | msx =>
    rw [List.mem_singleton.1 hm]
    refine ⟨fun t ht hk pos' _ => hP.moved t pos' ?_, hP.code pos "0,0" (by decide)⟩
    simp only [List.mem_append, List.mem_singleton] at ht
    rcases ht with (ht | rfl) | ht
    · exact hP.code pos "locate" (by decide) t ht
    · exact absurd rfl hk
    · exact hP.code pos ":?" (by decide) t ht
  | coco =>
    rw [List.mem_singleton.1 hm]
    refine ⟨?_, hP.code pos "0" (by decide)⟩
    simp only [List.forall_mem_cons]
    exact ⟨fun _ _ _ => hspecial (by simp), fun hk => absurd rfl hk,
      fun _ _ _ => hspecial (by simp), by simp⟩

theorem split_fed (depth : Int) (x : Option (List Token)) (term : List Token) (last : Token)
    (hi : Fed P input) (hx : ∀ t ∈ x.getD [], P t) (ht : ∀ t ∈ term, P t) :
    (∀ t ∈ (split depth x term last input).x, P t) ∧
      ∀ t ∈ (split depth x term last input).y, P t := by
  induction input generalizing depth x term last with
  | nil => exact ⟨hx, by simp [split]⟩
  | cons t rest ih =>
    have hrest : Fed P rest := hi.tail
    simp only [split]
    split
    · exact ⟨hx, by simp⟩
    · rename_i hk
      have hp : P t := hi.token List.mem_cons_self hk
      split
      · split
        · exact ⟨hx, ht⟩
        · exact ⟨ht, by simp⟩
      · split
        · exact ih _ (some term) [] t hrest ht (by simp)
        · refine ih _ x (term ++ [t]) t hrest hx fun u hu => ?_
          rcases List.mem_append.1 hu with hu | hu
          · exact ht u hu
          · rwa [List.mem_singleton.1 hu]

end PrintAt

namespace Define

/-- What holds of the tokens in front of the end holds of all that an invocation comes to. -/
theorem expand_fed {table : Defines} {e : Expansion rest} (hm : ∀ m ∈ table, m.Holds P)
    (hi : Fed P rest) (h : expand table t rest = .ok e) : ∀ u ∈ e.tokens, P u := by
  have supplies : Supplies (Fed P) (fun _ => True) P table := by
    refine ⟨fun t rest h _ => ?_, fun t rest h _ hl _ => ?_, fun _ _ _ _ _ => trivial⟩
    · exact h.tail
    · exact h.onLine (onLine_head hl)
  exact ((expands_of_supplies hm supplies rest hi).expand t e h).1

theorem readLine_fed (hP : Inherits d P) {table : Defines} {r : Defines × List Token}
    (hm : ∀ m ∈ table, m.Holds P) (hi : Fed P rest) (hl : ∀ u ∈ rest, u.Lawful d)
    (h : readLine table t rest = .ok r) : ∀ m ∈ r.1, m.Holds P := by
  intro m hmem
  rcases (readLine_within hl h).1 m hmem with hold | ⟨hb, hf⟩
  · exact hm m hold
  · exact ⟨fun u hu hk pos _ => hP.moved u pos (hi.onLine (hb u hu hk)),
      fun u hu => hi.onLine (hf u hu)⟩

end Define

namespace Directive

variable {tables : Tables} {quiet : Bool}

theorem asCall_inherits (hP : Inherits d P) (ht : P t) : P (asCall d out t rest) := by
  unfold asCall
  split
  · exact ht
  · split
    · rename_i hk
      exact hP.called t _ ht (.inl hk.1) (.inl rfl)
    · split
      · rename_i hk
        exact hP.called t _ ht (.inr hk.1) (.inr rfl)
      · exact ht

theorem head_mem (t : Token) (rest : List Token) : rest.headD t ∈ t :: rest := by
  cases rest with
  | nil => exact List.mem_cons_self
  | cons u rest => exact List.mem_cons_of_mem _ List.mem_cons_self

/-- One step of the first stage puts tokens that `P` holds of behind the output. -/
theorem step_built (hP : Inherits d P) {p : Progress} (he : t.kind ≠ .eof)
    (hi : Fed P (t :: rest)) (hl : ∀ u ∈ t :: rest, u.Lawful d) (ht : tables.Holds P)
    (ho : Built P out) (h : step d tables out t rest = .ok p) :
    p.tables.Holds P ∧ Built P p.out := by
  have hrest : Fed P rest := hi.tail
  have hlrest := (List.forall_mem_cons.1 hl).2
  have hp : P t := hi.token List.mem_cons_self he
  cases step_cases h with
  | untagged => exact ⟨ht, ho⟩
  | skipped => exact ⟨ht, ho⟩
  | left => exact ⟨ht, ho.push hp⟩
  | gone => exact ⟨ht, ho⟩
  | defined _ hr =>
    exact ⟨⟨Define.readLine_fed hP ht.defines hrest hlrest hr, ht.routines, ht.opened⟩, ho⟩
  | tagged => exact ⟨⟨ht.defines, ht.routines, ht.opened⟩, ho⟩
  | @opened runs closer after ps _ ha hps =>
    have hltail : ∀ u ∈ rest.tail, u.Lawful d := fun u hu => hlrest u (List.mem_of_mem_tail hu)
    have hfn : (rest.headD t).kind = .functionName := (Routine.argumentList_spec hltail ha).1
    have hruns : ∀ r ∈ runs, ∀ u ∈ r, P u := fun r hr u hu =>
      (hrest.suffix (List.tail_suffix rest)).onLine
        ((Routine.argumentList_within hltail ha).1 r hr u hu)
    refine ⟨⟨ht.defines, ht.routines, ?_⟩, ho.push ?_⟩
    · rintro e ⟨⟩ p hmem
      obtain ⟨run, hrun, hparameter⟩ := Outcome.exists_of_forall₂ (Outcome.forall₂_of_mapM hps) hmem
      exact Routine.parameter_holds (hruns run hrun) hparameter
    · exact hP.named _ _ _ (hi.token (head_mem t rest) (by rw [hfn]; decide)) (.inl hfn) rfl
  | @closed fn ps _ hopened =>
    refine ⟨⟨ht.defines, fun e hmem => ?_, by simp⟩,
      ho.reverse_append (hP.code _ "return" (by decide))⟩
    rcases List.mem_append.1 hmem with hmem | hmem
    · exact ht.routines e hmem
    · rw [List.mem_singleton.1 hmem]
      exact ⟨ht.opened (fn, ps) hopened, fun r hr u hu =>
        hrest.onLine ((Routine.resultList_within t rest).1 r hr u hu)⟩
  | expanded _ he => exact ⟨ht, ho.reverse_append (Define.expand_fed ht.defines hrest he)⟩
  | passed => exact ⟨ht, ho.push (asCall_inherits hP hp)⟩

theorem reaches_built (hP : Inherits d P) {p q : Point} (h : Reaches d quiet p q)
    (hk : Kept d input p) (hl : ∀ u ∈ input, u.Lexed d) (hi : Fed P input)
    (ht : p.tables.Holds P) (ho : Built P p.out) : q.tables.Holds P ∧ Built P q.out := by
  induction h with
  | refl => exact ⟨ht, ho⟩
  | tail hp hstep ih =>
    have hkept := reaches_kept hp hl hk
    cases hstep with
    | declared => exact ih
    | read he h =>
      exact step_built hP he (hi.suffix hkept.input)
        (fun u hu => (hl u (hkept.input.mem hu)).toLawful) ih.1 ih.2 h

theorem carryOut_framed (hP : Inherits d P) {listing : Listing} {lexed : List Token}
    {r : Tables × List Token} {σ τ : Session} (hx : Lexer.lex d listing = .ok lexed)
    (hf : Framed P lexed) (h : carryOut d quiet lexed σ = .ok r τ) :
    r.1.Holds P ∧ Framed P r.2 := by
  obtain ⟨start, newline, rest, final, last, left, rfl, hr, hlast, heq⟩ := reaches_of_carryOut h
  obtain ⟨_, _, _, he, hs, hn⟩ := Lexer.lex_start hx
  cases he
  obtain ⟨hkept, hl⟩ := kept_first (σ := σ) hx
  obtain ⟨ho, hi⟩ := hf.opened hn
  obtain ⟨htables, hbuilt⟩ := reaches_built hP hr hkept hl hi
    ⟨PrintAt.builtin_holds hP _, by simp, by simp⟩ ho
  have hmem : last ∈ rest := (reaches_kept hr hl hkept).input.mem List.mem_cons_self
  exact ⟨htables, heq ▸ hbuilt.framed (hi.ends hP hmem hlast)⟩

end Directive

namespace Routine

theorem takeBack_built (run : List Token) (runs : List (List Token)) (ho : Built P out)
    (hr : ∀ r ∈ run :: runs, ∀ t ∈ r, P t) :
    (∀ r ∈ (takeBack d run runs out).1, ∀ t ∈ r, P t) ∧ Built P (takeBack d run runs out).2 := by
  induction out generalizing run runs with
  | nil => exact absurd rfl ho.ne_nil
  | cons t out ih =>
    simp only [takeBack]
    split
    · exact ⟨hr, ho⟩
    · rename_i hs
      -- the start of a file starts a statement
      obtain ⟨ht, hout⟩ := ho.pop fun h => hs (by simp [startsStatement, h.kind])
      split
      · exact ih _ _ hout (List.forall_mem_cons.2 ⟨by simp, hr⟩)
      · rw [List.forall_mem_cons] at hr
        exact ih _ _ hout (List.forall_mem_cons.2 ⟨List.forall_mem_cons.2 ⟨ht, hr.1⟩, hr.2⟩)

theorem resultVariable_mem {run : List Token} {v : Option Token}
    (h : resultVariable run = .ok v) : ∀ t ∈ v, t ∈ run := by
  unfold resultVariable at h
  split at h
  · cases h
    simp
  · split at h
    · cases h
    · split at h
      · cases h
        simp
      · cases h

theorem callVariables_built {before : List Token} {vars : List (Option Token)} (ho : Built P out)
    (h : callVariables d out = .ok (vars, before)) :
    (∀ v ∈ vars, ∀ t ∈ v, P t) ∧ Built P before := by
  unfold callVariables at h
  split at h
  · exact absurd rfl ho.ne_nil
  · rename_i t out
    split at h
    · cases h
      exact ⟨by simp, ho⟩
    · rename_i hv
      obtain ⟨vars', hm, he⟩ := Outcome.map_eq_ok_iff.1 h
      cases he
      obtain ⟨-, hout⟩ := ho.pop_of_value (Decidable.not_not.1 hv) (by decide)
      obtain ⟨hr, hs⟩ := takeBack_built [] [] hout (by simp)
      refine ⟨fun v hv t ht => ?_, hs⟩
      obtain ⟨run, hrun, hresult⟩ := Outcome.exists_of_forall₂ (Outcome.forall₂_of_mapM hm) hv
      exact hr run hrun t (resultVariable_mem hresult t ht)

end Routine

namespace Label

variable {routines : Routines} {loops : List Token} {carried placed : List Token}

theorem bracketed_inherits {content closer : Token} {after : List Token} (hi : Fed P rest)
    (hb : Bracketed.read opening closing t rest = .ok (.holding content closer after)) :
    P content := by
  obtain ⟨rfl, -⟩ := Bracketed.holding_eq (by decide) hb
  exact hi.head

theorem lineMark_inherits (hP : Inherits d P) {label mark : Token} {pos : Position}
    (hl : P label) (h : lineMark label pos = .ok mark) : P mark ∧ label.Names := by
  unfold lineMark at h
  split at h
  · rename_i hid
    cases h
    exact ⟨hP.named label _ pos hl (.inr (.inl hid)) rfl, .inr (.inl hid)⟩
  · cases h

/-- One step of the second stage puts tokens that `P` holds of behind the output, and the loops that
are open are called by names. -/
theorem step_built (hP : Inherits d P) {p : Progress} (he : t.kind ≠ .eof)
    (hi : Fed P (t :: rest)) (hl : ∀ u ∈ rest, u.Lawful d) (hr : ∀ e ∈ routines, e.2.Holds P)
    (hn : ∀ l ∈ loops, P l ∧ l.Names) (ho : Built P out)
    (h : step d routines loops out t rest = .ok p) :
    (∀ l ∈ p.loops, P l ∧ l.Names) ∧ Built P p.out := by
  have hrest : Fed P rest := hi.tail
  have hp : P t := hi.token List.mem_cons_self he
  have placeholder {k : Kind} {label : Token} {pos : Position} (hk : Kind.isNaming k = true)
      (hmem : label ∈ loops) : P ⟨k, label.lower, pos⟩ :=
    hP.named label k pos (hn label hmem).1 (hn label hmem).2 hk
  cases step_cases h with
  | called hk hc =>
    obtain ⟨f, vars, arguments, closer, hf, hv, ha, rfl⟩ := Routine.call_cases hc
    obtain ⟨hvars, hbefore⟩ := Routine.callVariables_built ho hv
    have hcode : ∀ text ∈ Text.ofStrings ["=", ":", "gosub"], text.Ascii := by decide
    refine ⟨hn, hbefore.reverse_append (Routine.callTokens_holds (fun text htext =>
      hP.code _ text (hcode text htext)) (hP.named t _ _ hp (.inl hk) rfl) (hr _ hf).parameters
      (hr _ hf).results (fun r hrun u hu => ?_) hvars)⟩
    exact hrest.onLine ((Routine.argumentList_within hl ha).1 r hrun u hu)
  | jumped _ hb hname =>
    exact ⟨hn, ho.push (hP.named _ _ _ (bracketed_inherits hrest hb) (.inr hname.symm) rfl)⟩
  | labelled _ _ hb hm =>
    exact ⟨hn, ho.push (lineMark_inherits hP (bracketed_inherits hrest hb) hm).1⟩
  | @looped last mark before _ heq _ hline hm =>
    subst heq
    obtain ⟨hlast, hbefore⟩ : P last ∧ Built P before := by
      refine ho.pop fun hs => ?_
      obtain ⟨new, start, heq, -, hnew⟩ := ho
      -- a line end is below the name, so that is not the start of the file
      cases new with
      | nil =>
        cases heq
        cases hline
      | cons u new =>
        cases heq
        exact (hP.inside last (hnew last List.mem_cons_self)).ne_program hs.kind
    obtain ⟨hmark, hnames⟩ := lineMark_inherits hP hlast hm
    exact ⟨List.forall_mem_cons.2 ⟨⟨hlast, hnames⟩, hn⟩, hbefore.push hmark⟩
  | @closed label outer _ heq =>
    subst heq
    refine ⟨(List.forall_mem_cons.1 hn).2, Built.push (ho.reverse_append fun u hu => ?_)
      (placeholder rfl List.mem_cons_self)⟩
    rcases List.mem_append.1 hu with hu | hu
    · split at hu
      · cases hu
      · exact hP.code _ ":" (by decide) u hu
    · exact hP.code _ "goto" (by decide) u hu
  | @exited label outer _ heq =>
    subst heq
    exact ⟨hn, Built.push (ho.reverse_append (hP.code _ "goto" (by decide)))
      (placeholder rfl List.mem_cons_self)⟩
  | printed =>
    obtain ⟨hx, hy⟩ := PrintAt.split_fed 0 none [] t hrest (by simp) (by simp)
    exact ⟨hn, ho.reverse_append (PrintAt.render_holds
      (fun code hc => hP.code _ code (PrintAt.ascii_of_signs hc)) hx hy)⟩
  | passed => exact ⟨hn, ho.push hp⟩

theorem reaches_built (hP : Inherits d P) {p q : Point} (h : Reaches d routines p q)
    (hplain : ∀ e ∈ routines, e.2.Plain d) (hk : Kept d input p) (hi : Fed P input)
    (hr : ∀ e ∈ routines, e.2.Holds P) (hn : ∀ l ∈ p.loops, P l ∧ l.Names) (ho : Built P p.out) :
    (∀ l ∈ q.loops, P l ∧ l.Names) ∧ Built P q.out := by
  induction h with
  | refl => exact ⟨hn, ho⟩
  | tail hp hstep ih =>
    have hkept := reaches_kept hp hplain hk
    cases hstep with
    | read he h =>
      exact step_built hP he (hi.suffix hkept.input)
        (fun u hu => hkept.lawful u (List.mem_cons_of_mem _ hu)) hr ih.1 ih.2 h

theorem place_framed (hP : Inherits d P) {tables : Tables} (hplain : tables.Plain d)
    (hs : Entry.Sound d carried.reverse) (ht : tables.Holds P) (hf : Framed P carried)
    (h : place d tables carried = .ok placed) : Framed P placed := by
  obtain ⟨start, newline, rest, final, last, left, rfl, hstart, hn, hr, hlast, rfl⟩ :=
    reaches_of_place hs h
  have hkept := kept_first hs
  obtain ⟨ho, hi⟩ := hf.opened hn
  have hbuilt := (reaches_built hP hr hplain.routines hkept hi ht.routines (by simp) ho).2
  have hmem : last ∈ rest :=
    (reaches_kept hr hplain.routines hkept).input.mem List.mem_cons_self
  exact hbuilt.framed (hi.ends hP hmem hlast)

end Label

namespace Merge

variable {quiet : Bool} {splice : Token → Token → Conversion (List Token)} {total : Nat}

theorem addNewline_built {p : Place} (ht : P t) (ho : Built P out) :
    Built P (addNewline p t out) := by
  unfold addNewline
  split
  · exact absurd rfl ho.ne_nil
  · split
    · exact ho
    · exact ho
    · exact ho
    · rename_i hk
      have hout := (ho.pop_of_kind hk (by decide)).2
      split
      · exact hout
      · exact hout.push ht
    · split
      · exact ho
      · exact ho.push ht
    · exact ho.push ht

theorem addSeparator_built {p : Place} (ht : P t) (ho : Built P out) :
    Built P (addSeparator p t out) := by
  unfold addSeparator
  split
  · exact absurd rfl ho.ne_nil
  · split
    · exact ho
    · rename_i hk
      split
      · exact ((ho.pop_of_kind hk (by decide)).2).push ht
      · exact ho.push ht
    · exact ho.push ht

theorem addString_built (hP : Inherits d P) (hk : t.kind = .string) (ht : P t)
    (ho : Built P out) : Built P (addString t out) := by
  unfold addString
  split
  · exact absurd rfl ho.ne_nil
  · rename_i last out
    split
    · rename_i hlast
      obtain ⟨hl, hout⟩ := ho.pop_of_kind hlast (by decide)
      exact hout.push (hP.joined last t hl ht hlast hk)
    · split
      · rename_i hlast
        obtain ⟨-, hout⟩ := ho.pop_of_kind hlast (by decide)
        split
        · exact ho.push ht
        · rename_i earlier before
          split
          · rename_i hearlier
            obtain ⟨he, hbefore⟩ := hout.pop_of_kind hearlier (by decide)
            exact hbefore.push (hP.joined earlier t he ht hearlier hk)
          · exact ho.push ht
      · exact ho.push ht

theorem add_built (hP : Inherits d P) {p : Place} (ht : P t) (ho : Built P out) :
    Built P (add p t out) := by
  unfold add
  split
  · exact addNewline_built ht ho
  · exact addSeparator_built ht ho
  · rename_i hk
    exact addString_built hP hk ht ho
  · exact ho.push ht

theorem unwrap_fed (hP : Inherits d P) (hi : Fed P l) : ∀ u ∈ (unwrap d l).1, P u := by
  induction l with
  | nil => simp [unwrap]
  | cons t rest ih =>
    simp only [unwrap]
    split
    · simp
    · split
      · simp
      · rename_i hk
        have ht : P t := hi.token List.mem_cons_self hk
        intro u hu
        simp only [List.mem_append, List.mem_cons] at hu
        rcases hu with hu | rfl | rfl | hu
        · exact hP.code _ "'" (by decide) u hu
        · exact hP.remark t ht
        · exact hP.lineEnd _
        · exact ih hi.tail u hu

/-- Whether `P` holds of what is put in place of an INCLUDE that the third stage comes to at a point. -/
def Supplied (P : Token → Prop) (splice : Token → Token → Conversion (List Token)) (p : Point) :
    Prop :=
  ∀ t rest body τ, p.input = t :: rest → t.kind = .directive → t.is "INCLUDE" →
    splice t (rest.headD t) p.session = .ok body τ → ∀ u ∈ body, P u

/-- One step of the third stage puts tokens that `P` holds of behind the output. -/
theorem step_built (hP : Inherits d P) {p q : Point} (hs : Supplied P splice p)
    (hi : Fed P p.input) (ho : Built P p.out) (h : Step d quiet splice total p q) :
    Built P q.out := by
  cases h with
  | included hk hn hb => exact ho.reverse_append (hs _ _ _ _ rfl hk hn hb)
  | block => exact ho.reverse_append (unwrap_fed hP hi.tail)
  | named hk hm =>
    have ht := hi.token List.mem_cons_self (by rw [hk]; decide)
    rcases meetVariable_cases hm with ⟨last, rfl, hv, -⟩ | ⟨rfl, -⟩
    · exact ((ho.pop_of_value hv (by decide)).2).push ht
    · exact ho.push ht
  | token he => exact add_built hP (hi.token List.mem_cons_self he) ho

theorem reaches_built (hP : Inherits d P) {p q : Point}
    (hs : ∀ r, Reaches d quiet splice total p r → Supplied P splice r)
    (hi : Fed P p.input) (ho : Built P p.out) (h : Reaches d quiet splice total p q) :
    Built P q.out := by
  induction h with
  | refl => exact ho
  | tail hp hstep ih =>
    exact step_built hP (hs _ hp) (hi.suffix (reaches_suffix hp)) ih hstep

end Merge

namespace Branch

variable {s : Setting} {b : Branch} {σ τ : Session} {listing : Listing} {lexed placed : List Token}

theorem front_framed (hP : Inherits s.dialect P) (hx : Lexer.lex s.dialect listing = .ok lexed)
    (hf : Framed P lexed) (h : front s b lexed σ = .ok placed τ) : Framed P placed := by
  obtain ⟨tables, carried, _, _, hd, hp, -, -⟩ := front_cases h
  obtain ⟨hplain, hsound⟩ := Directive.carryOut_sound hx hd
  obtain ⟨htables, hcarried⟩ := Directive.carryOut_framed hP hx hf hd
  exact Label.place_framed hP hplain hsound htables hcarried hp

theorem mem_body (h : Framed P tokens) : ∀ t ∈ body tokens, P t := by
  obtain ⟨start, inner, last, rfl, -, -, hi⟩ := h
  intro t ht
  have hmem : t ∈ (inner ++ [last]).tail.dropLast := by
    simp only [body] at ht
    split at ht
    · simpa using List.dropLast_subset _ ht
    · simpa using ht
  cases inner with
  | nil => simp at hmem
  | cons u inner =>
    simp only [List.cons_append, List.tail_cons, List.dropLast_concat] at hmem
    exact hi t (List.mem_cons_of_mem _ hmem)

namespace Visit

variable {v : Visit}

/-- A converted file is framed when all files that it converts are framed as they are lexed. -/
theorem convert_framed (hP : Inherits s.dialect P) {merged : List Token}
    (hx : Lexer.lex s.dialect listing = .ok v.lexed)
    (h : convert s v.depth v.branch v.lexed v.session = .ok merged τ)
    (hf : ∀ w, Visits s v w → Framed P w.lexed) : Framed P merged := by
  refine convert_visits (C := fun w => Framed P w.lexed) ?_ hx h hf
  intro v listing placed merged ready τ hx hv hfront hm hfeeds
  have hplaced := front_framed hP hx hv hfront
  obtain ⟨start, newline, rest, final, last, left, rfl, -, hn, hr, hlast, rfl⟩ :=
    Merge.reaches_of_merge (front_sound hx hfront) hm
  obtain ⟨ho, hi⟩ := hplaced.opened hn
  have hmem : last ∈ rest := (Merge.reaches_suffix hr).mem List.mem_cons_self
  refine (Merge.reaches_built hP (fun p hp => ?_) hi ho hr).framed (hi.ends hP hmem hlast)
  intro t rest body τ heq hk hn hb
  obtain ⟨merged, hmerged, rfl⟩ :=
    hfeeds p t rest body τ ⟨start, newline, _, ready, hfront, hp⟩ heq hk hn hb
  exact mem_body hmerged

end Visit

end Branch

end ClassicBasic
