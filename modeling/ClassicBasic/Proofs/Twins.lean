import ClassicBasic.Proofs.NamedAlike
import ClassicBasic.Proofs.ShortNames
import ClassicBasic.Proofs.Toggled
import ClassicBasic.Proofs.Total

/-!
# Twins through the first stage

Two tokens are twins if they are alike and their words are spelled by one rule for both programs:
words that are the same in one program are the same in the other, as far as they name variables. The
first stage takes twins to twins, and keeps line ends together.
-/

set_option autoImplicit false

namespace ClassicBasic

open Outcome (Both both_mapM)
open List (Forall₂)

structure Wording where
  /-- Whether the second text stands for the first. -/
  stands : Text → Text → Prop
  /-- Whether the second name of a variable stands for the first. -/
  renames : Text → Text → Prop
  /-- Whether the program names functions. -/
  calls : Prop

/-- Whether a copy spells a program by a rule. Texts that name no variable stand for themselves. If
there are functions to be called, which compares names as they are written, a text is the name of a
variable in one of them if it is in the other. -/
structure Spelling (d : Dialect) (f : Char → Char) (S : Wording) : Prop where
  fine : Text.Fine f
  same {v : Text} : d.classify v ≠ some .identifier → S.stands v v
  names {v v' w w' : Text} : S.calls → S.renames v v' → S.stands w w' → (v = w ↔ v' = w')

namespace Token

structure Twins (d : Dialect) (f : Char → Char) (S : Wording) (t t' : Token) : Prop
    extends Like d f t t' where
  spelled : t.kind ≠ .newline → S.stands t.value t'.value
  renamed : t.kind = .identifier → S.renames t.value t'.value
  calls : t.kind = .functionName → S.calls

/-- Whether two tokens are alike and, if they name variables, spelled by a rule. -/
structure Kin (d : Dialect) (f : Char → Char) (S : Wording) (t t' : Token) : Prop
    extends Like d f t t' where
  renamed : t.kind = .identifier → S.renames t.value t'.value

end Token

open Token (Twins Kin)

variable {d : Dialect} {loose : Prop} {f : Char → Char} {S : Wording} {t t' : Token}
  {pos pos' : Position} {l l' rest rest' : List Token} {code : Text}

theorem Token.Twins.kin (h : Twins d f S t t') : Kin d f S t t' where
  toLike := h.toLike
  renamed := h.renamed

theorem Spelling.twins (hS : Spelling d f S) : Ties d f (Twins d f S) where
  fine := hS.fine
  like h := h.toLike
  ends h h' := ⟨Token.like_newline h h', fun hk => absurd h.kind hk, fun hk => by simp [h.kind] at hk,
    fun hk => by simp [h.kind] at hk⟩

theorem Spelling.kin (hS : Spelling d f S) : Ties d f (Kin d f S) where
  fine := hS.fine
  like h := h.toLike
  ends h h' := ⟨Token.like_newline h h', fun hk => by simp [h.kind] at hk⟩

namespace Token

theorem Twins.movedTo (h : Twins d f S t t') (hp : pos.file = pos'.file) :
    Twins d f S (t.movedTo pos) (t'.movedTo pos') where
  kind := h.kind
  lawful := ⟨h.lawful.unnumbered, h.lawful.classified, h.lawful.unkept⟩
  lawful' := ⟨h.lawful'.unnumbered, h.lawful'.classified, h.lawful'.unkept⟩
  file _ := hp
  value := h.value
  exact := h.exact
  spelled := h.spelled
  renamed := h.renamed
  calls := h.calls

theorem twins_refl (hS : Spelling d f S) (hl : t.Lawful d)
    (hn : d.classify t.value ≠ some .identifier) (hk : t.kind ≠ .functionName) : Twins d f S t t :=
  ⟨⟨rfl, hl, hl, fun _ => rfl, fun _ => rfl, fun _ => rfl⟩, fun _ => hS.same hn,
    fun hi => absurd (hi ▸ hl.classified (hi ▸ rfl)) hn, fun hf => absurd hf hk⟩

theorem Twins.withKind {k : Kind} (h : Twins d f S t t') (hk : t.kind ≠ .newline)
    (hr : k.isRead = false) (hn : k ≠ .lineNumber) (he : k.isEntry = false)
    (hx : k.isExact = false) : Twins d f S (t.withKind k) (t'.withKind k) where
  kind := rfl
  lawful := lawful_of_unread hr hn he
  lawful' := lawful_of_unread hr hn he
  file _ := h.file hk
  value _ := h.value hk
  exact hx' := by
    rw [show (t.withKind k).kind = k from rfl, hx] at hx'
    cases hx'
  spelled _ := h.spelled hk
  renamed hi := by
    obtain rfl : k = .identifier := hi
    cases hr
  calls hf := by
    obtain rfl : k = .functionName := hf
    cases hr

end Token

namespace Lexer

def Nameless (d : Dialect) (code : Text) : Prop :=
  ∀ t ∈ snippet d {} code, d.classify t.value ≠ some .identifier ∧ t.kind ≠ .functionName

instance (d : Dialect) (code : Text) : Decidable (Nameless d code) :=
  inferInstanceAs (Decidable (∀ t ∈ snippet d {} code,
    d.classify t.value ≠ some .identifier ∧ t.kind ≠ .functionName))

theorem isName_of_classify {v : Text} (h : d.classify v = some .identifier) :
    Grammar.isName true v = true := by
  obtain ⟨r, hr, hkind, ha⟩ := Dialect.classify_rule h
  rw [Dialect.identifier_shape d r hr hkind] at ha
  simpa [Shape.accepts, Grammar.after] using ha

theorem not_identifier_of_head {c : Char} {v : Text} (h : Grammar.isLetter c = false) :
    d.classify (c :: v) ≠ some .identifier := by
  intro hc
  have hname := isName_of_classify hc
  rw [Grammar.isName, h, Bool.false_and] at hname
  cases hname

theorem not_identifier_of_rule {v : Text} {k : Kind} {s : Shape} (hr : ⟨k, s⟩ ∈ d.grammar.dropLast)
    (ha : s.accepts v = true) : d.classify v ≠ some .identifier := by
  have hsplit : d.grammar = d.grammar.dropLast ++ [⟨.identifier, .name [] true⟩] := by cases d <;> rfl
  have hkinds : ∀ r ∈ d.grammar.dropLast, r.kind ≠ .identifier := by cases d <;> decide
  obtain ⟨r, hfind⟩ := Option.isSome_iff_exists.1
    (List.find?_isSome.2 ⟨_, hr, ha⟩ : (d.grammar.dropLast.find? (·.shape.accepts v)).isSome)
  rw [Dialect.classify, hsplit, List.find?_append, hfind]
  simpa using hkinds r (List.mem_of_find?_eq_some hfind)

theorem classify_letters {v : Text} (hne : v ≠ []) (h : ∀ c ∈ v, Grammar.isLetter c = true) :
    (d.classify v).isSome = true := by
  have htail {v : Text} (h : ∀ c ∈ v, Grammar.isLetter c = true) : Grammar.nameTail true v = true := by
    induction v with
    | nil => rfl
    | cons c v ih =>
      rw [List.forall_mem_cons] at h
      cases v with
      | nil => simp [Grammar.nameTail, Grammar.isNameChar, h.1]
      | cons x v =>
        have hmore := ih h.2
        simp [Grammar.nameTail, Grammar.isNameChar, h.1, hmore]
  have hname : Grammar.isName true v = true := by
    obtain ⟨c, v, rfl⟩ := List.exists_cons_of_ne_nil hne
    rw [List.forall_mem_cons] at h
    simp [Grammar.isName, h.1, htail h.2]
  rw [Dialect.classify, Option.isSome_map, List.find?_isSome]
  exact ⟨_, Dialect.identifier_rule d, by simpa [Shape.accepts, Grammar.after] using hname⟩

theorem munch_letters {taken l : Text} {k : Kind} (hne : taken ≠ [])
    (ht : ∀ c ∈ taken, Grammar.isLetter c = true) (hl : ∀ c ∈ l, Grammar.isLetter c = true) :
    (munch id d taken k l).1 = taken ++ l ∧ (munch id d taken k l).2.2 = [] := by
  induction l generalizing taken k with
  | nil => simp [munch]
  | cons c l ih =>
    rw [List.forall_mem_cons] at hl
    have hgrown : ∀ x ∈ taken ++ [c], Grammar.isLetter x = true := by
      intro x hx
      rcases List.mem_append.1 hx with hx | hx
      · exact ht x hx
      · rw [List.mem_singleton.1 hx]
        exact hl.1
    obtain ⟨k', hk'⟩ := Option.isSome_iff_exists.1 (classify_letters (d := d) (by simp) hgrown)
    have hnext := ih (k := k') (by simp) hgrown hl.2
    simp only [munch, id, hk']
    simpa using hnext

theorem snippet_letters {word : Text} (h : ∀ c ∈ word, Grammar.isLetter c = true) :
    ∀ t ∈ snippet d {} word, t.value = word := by
  cases word with
  | nil => simp [snippet, snippet?]
  | cons c rest =>
    have hhead := List.forall_mem_cons.1 h
    obtain ⟨k, hk⟩ := Option.isSome_iff_exists.1
      (classify_letters (d := d) (v := [c]) (by simp) (by simpa using hhead.1))
    obtain ⟨htext, hleft⟩ := munch_letters (d := d) (k := k) (List.cons_ne_nil c [])
      (by simpa using hhead.1) hhead.2
    intro t ht
    rw [snippet, snippet?] at ht
    simp only [hk, hleft, htext, List.dropWhile_nil, snippet?, Except.map] at ht
    split at ht
    · cases ht
    · rw [List.mem_singleton.1 ht]
      rfl

theorem not_functionName (hl : t.Lawful d) (hp : '.' ∉ t.value) : t.kind ≠ .functionName := by
  intro hk
  obtain ⟨name, hv⟩ := Dialect.accepts_functionName (hk ▸ hl.classified (hk ▸ rfl))
  exact hp (by simp [hv])

theorem nameless_of_signs (h : ∀ c ∈ code, Grammar.isLetter c = false ∧ c ≠ '.') :
    Nameless d code := by
  intro t ht
  have hl := (snippet_lexed {} code t ht).toLawful
  unfold snippet at ht
  split at ht
  · obtain ⟨-, hv⟩ := snippet?_spec ‹_› t ht
    refine ⟨?_, not_functionName hl fun hp => (h '.' (hv '.' hp)).2 rfl⟩
    cases hval : t.value with
    | nil => exact fun hc => absurd (isName_of_classify hc) (by decide)
    | cons c v => exact not_identifier_of_head (h c (hv c (by simp [hval]))).1
  · cases ht

def keywords : List Text := Text.ofStrings ["return", "locate", "gosub", "goto"]

theorem not_identifier_of_word {w x : Text} (hx : x ∈ d.jumps ∨ x ∈ d.instructions)
    (hs : Text.sameLetters x w = true) : d.classify w ≠ some .identifier := by
  have hany {words : List Text} (hx : x ∈ words) (numbered : List Text) :
      (Shape.words words numbered).accepts w = true := by
    rw [Shape.accepts, Bool.or_eq_true]
    exact .inl (List.any_eq_true.2 ⟨x, hx, hs⟩)
  have hjump : ⟨.jump, .words d.jumps []⟩ ∈ d.grammar.dropLast := by
    simp [Dialect.grammar, Dialect.dignifiedRules, Dialect.classicRules]
  have hinstruction : ⟨.instruction, .words d.instructions Dialect.numberedInstructions⟩ ∈
      d.grammar.dropLast := by
    simp [Dialect.grammar, Dialect.dignifiedRules, Dialect.classicRules]
  rcases hx with hx | hx
  · exact not_identifier_of_rule hjump (hany hx _)
  · exact not_identifier_of_rule hinstruction (hany hx _)

theorem nameless_keyword (h : code ∈ keywords) : Nameless d code := by
  have hletters : ∀ w ∈ keywords, w.all Grammar.isLetter = true := by decide
  have hwords : ∀ w ∈ keywords, Text.upper w ∈ d.jumps ∨ Text.upper w ∈ d.instructions := by
    cases d <;> decide +kernel
  have hsame : ∀ w ∈ keywords, Text.sameLetters (Text.upper w) w = true := by decide
  have hpoint : ∀ w ∈ keywords, '.' ∉ w := by decide
  intro t ht
  have hl := (snippet_lexed {} code t ht).toLawful
  have hv := snippet_letters (List.all_eq_true.1 (hletters code h)) t ht
  refine ⟨?_, not_functionName hl (by rw [hv]; exact hpoint code h)⟩
  rw [hv]
  exact not_identifier_of_word (hwords code h) (hsame code h)

theorem nameless_phrase (h : code ∈ phrases) : Nameless d code := by
  have hsigns : ∀ w ∈ phrases, w ∈ keywords ∨
      w.all (fun c => !Grammar.isLetter c && c != '.') = true := by
    decide
  rcases hsigns code h with hk | hs
  · exact nameless_keyword hk
  · exact nameless_of_signs fun c hc => by simpa using List.all_eq_true.1 hs c hc

theorem nameless_ofInt (n : Int) : Nameless d (Text.ofInt n) := by
  refine nameless_of_signs fun c hc => ?_
  rcases Text.mem_ofInt hc with rfl | hdigit
  · decide
  · have hrange : 48 ≤ c.toNat ∧ c.toNat < 58 := by
      simpa [Char.isDigit, UInt32.le_iff_toNat_le, Nat.lt_succ_iff] using hdigit
    have hall : ∀ n < 58, 48 ≤ n → Grammar.isLetter (Char.ofNat n) = false ∧ Char.ofNat n ≠ '.' := by
      decide
    rw [← Char.ofNat_toNat c]
    exact hall _ hrange.2 hrange.1

theorem snippet_twins (hS : Spelling d f S) (hn : Nameless d code) (hp : pos.file = pos'.file) :
    Forall₂ (Twins d f S) (snippet d pos code) (snippet d pos' code) := by
  rw [snippet_movedTo pos, snippet_movedTo pos', List.forall₂_map_left_iff,
    List.forall₂_map_right_iff, List.forall₂_same]
  exact fun t ht => (Token.twins_refl hS (snippet_lexed {} code t ht).toLawful (hn t ht).1
    (hn t ht).2).movedTo hp

end Lexer

namespace Define

variable {m m' : Define} {table table' : Defines} {s s' : List Token} {depth : Nat}

theorem instantiate_twins (hm : Alike (Twins d f S) m m') (hs : Forall₂ (Twins d f S) s s')
    (hp : pos.file = pos'.file) :
    Forall₂ (Twins d f S) (m.instantiate s pos) (m'.instantiate s' pos') := by
  have hnil : s = [] ↔ s' = [] := by
    rw [← List.length_eq_zero_iff, hs.length_eq, List.length_eq_zero_iff]
  have hvalue : Forall₂ (Twins d f S) (if s = [] then m.fallback else s)
      (if s' = [] then m'.fallback else s') := by
    simp only [hnil]
    split
    · exact hm.fallback
    · exact hs
  refine List.rel_flatMap hm.body fun t t' ht => ?_
  rcases ht with ⟨hk, hk'⟩ | ⟨hk, hk', ht⟩
  · rw [if_pos hk, if_pos hk']
    exact hvalue
  · rw [if_neg hk, if_neg hk']
    exact .cons (ht.movedTo hp) .nil

def Expansion.pair {input : List Token} (e : Expansion input) : List Token × List Token :=
  (e.tokens, e.rest)

/-- What an invocation of `m` at `pos` comes to, by what follows its closing bracket. -/
def invoke (table : Defines) (m : Define) (pos : Position) :
    List Token → Except Failure (List Token × List Token)
  | [] => .ok (m.instantiate [] pos, [])
  | p :: left =>
    if p.kind = .symbol ∧ p.value = "(" then
      ((argument table 1 left).map Expansion.pair).map fun e => (m.instantiate e.1 pos, e.2)
    else .ok (m.instantiate [] pos, p :: left)

theorem expand_pair {name closer : Token} {after : List Token}
    (h : Bracketed.read "[" "]" t rest = .ok (.holding name closer after)) :
    (expand table t rest).map Expansion.pair =
      if !isInvocable name.value then .error (name.failure (.notDefineName name.value))
      else match table.named? name.lower with
        | none => .error (name.failure (.undefinedDefine name.value))
        | some m => invoke table m name.pos after := by
  obtain ⟨rfl, -⟩ := Bracketed.holding_eq (by decide) h
  rw [expand, h]
  by_cases hi : (!isInvocable name.value) = true
  · simp only [if_pos hi]
    rfl
  · simp only [if_neg hi]
    cases table.named? name.lower with
    | none => rfl
    | some m =>
      dsimp only
      split
      · rename_i hd
        obtain rfl : after = [] := hd
        rfl
      · rename_i p left hd
        obtain rfl : after = p :: left := hd
        by_cases hp : p.kind = .symbol ∧ p.value = "("
        · simp only [invoke, if_pos hp]
          cases argument table 1 left <;> rfl
        · simp only [invoke, if_neg hp]
          rfl

theorem expand_idle (h : Bracketed.Idle d (Bracketed.read "[" "]" t rest)) :
    ∃ e, expand table t rest = .error e := by
  unfold expand
  split
  · exact ⟨_, rfl⟩
  · exact ⟨_, rfl⟩
  · rename_i hb
    rw [(h _ _ _ hb).returns.not_isInvocable]
    exact ⟨_, rfl⟩

/-- The argument of an invocation goes on with the invocations among its tokens expanded. -/
theorem argument_pair (table : Defines) (depth : Nat) (t : Token) (rest : List Token) :
    (argument table depth (t :: rest)).map Expansion.pair =
      if t.endsLine then .error (t.failure (.missing ")"))
      else if t.kind = .mark ∧ t.value = "[" then
        (expand table t rest).map Expansion.pair >>= fun inner =>
          ((argument table depth inner.2).map Expansion.pair).map fun more =>
            (inner.1 ++ more.1, more.2)
      else if t.value = ")" ∧ depth = 1 then .ok ([], rest)
      else
        ((argument table (if t.value = "(" then depth + 1 else if t.value = ")" then depth - 1
          else depth) rest).map Expansion.pair).map fun more => (t :: more.1, more.2) := by
  rw [argument]
  split
  · rfl
  · split
    · cases expand table t rest with
      | error e => rfl
      | ok inner =>
        show _ = Except.map _ (Except.map _ (argument table depth inner.rest))
        dsimp only
        cases argument table depth inner.rest <;> rfl
    · split
      · rfl
      · dsimp only
        cases argument table (if t.value = "(" then depth + 1 else if t.value = ")" then depth - 1
          else depth) rest <;> rfl

/-- Whether two expansions are alike: what they give and what they leave. -/
def Unfolds (d : Dialect) (loose : Prop) (f : Char → Char) (S : Wording)
    (e e' : List Token × List Token) : Prop :=
  Forall₂ (Twins d f S) e.1 e'.1 ∧ Runs d loose (Twins d f S) false e.2 e'.2

structure Unfolding (d : Dialect) (loose : Prop) (f : Char → Char) (S : Wording)
    (table table' : Defines) (input input' : List Token) : Prop where
  expand (t t' : Token) (ht : Twins d f S t t') :
    Both (Unfolds d loose f S) ((expand table t input).map Expansion.pair)
      ((expand table' t' input').map Expansion.pair)
  argument (depth : Nat) :
    Both (Unfolds d loose f S) ((argument table depth input).map Expansion.pair)
      ((argument table' depth input').map Expansion.pair)

variable (hS : Spelling d f S) (htable : Forall₂ (Alike (Twins d f S)) table table')

include hS htable

theorem expand_twins_step (h : Runs d loose (Twins d f S) false rest rest')
    (ih : ∀ l l', l.length < rest.length → Runs d loose (Twins d f S) false l l' →
      Unfolding d loose f S table table' l l')
    (ht : Twins d f S t t') :
    Both (Unfolds d loose f S) ((expand table t rest).map Expansion.pair)
      ((expand table' t' rest').map Expansion.pair) := by
  have hread := Bracketed.read_abreast hS.twins "[" "]" (by decide) (by decide) ht fun _ => h
  generalize hx : Bracketed.read "[" "]" t rest = x at hread
  generalize hx' : Bracketed.read "[" "]" t' rest' = x' at hread
  cases hread with
  | idle hi hi' =>
    obtain ⟨e, he⟩ : ∃ e, expand table t rest = .error e := expand_idle (hx ▸ hi)
    obtain ⟨e', he'⟩ : ∃ e, expand table' t' rest' = .error e := expand_idle (hx' ▸ hi')
    rw [he, he']
    exact .error e e'
  | @holding name name' closer closer' after after' hinline hname hcloser hv hmore =>
    rw [expand_pair hx, expand_pair hx', isInvocable_like hS.fine (hname.value hinline),
      hname.toLike.lower hS.fine hinline]
    have hfile := hname.file hinline
    have hknown := named_alike htable name'.lower
    split
    · exact .error _ _
    · generalize Defines.named? table name'.lower = known at hknown
      generalize Defines.named? table' name'.lower = known' at hknown
      cases hknown with
      | none => exact .error _ _
      | @some m m' hm =>
        obtain ⟨rfl, -⟩ := Bracketed.holding_eq (by decide) hx
        cases hmore with
        | nil => exact .ok ⟨instantiate_twins hm .nil hfile, .nil⟩
        | @cons _ p p' left left' hp hleft =>
          have hopen := hS.twins.sign hp (w := "(") (by decide)
          simp only [invoke, hp.kind, hopen]
          split
          · rename_i hpk
            have hleft' : Runs d loose (Twins d f S) false left left' := by
              rwa [hp.kind, hpk.1] at hleft
            have hlt : left.length < (name :: closer :: p :: left).length := by
              simp only [List.length_cons]
              omega
            exact ((ih left left' hlt hleft').argument 1).map fun e e' he =>
              ⟨instantiate_twins hm he.1 hfile, he.2⟩
          · exact .ok ⟨instantiate_twins hm .nil hfile, .cons hp hleft⟩

omit htable in
theorem argument_twins_step (h : Runs d loose (Twins d f S) false l l')
    (ih : ∀ m m', m.length < l.length → Runs d loose (Twins d f S) false m m' →
      Unfolding d loose f S table table' m m') (depth : Nat) :
    Both (Unfolds d loose f S) ((argument table depth l).map Expansion.pair)
      ((argument table' depth l').map Expansion.pair) := by
  cases h with
  | nil =>
    rw [argument, argument]
    exact .error _ _
  | @cons _ t t' rest rest' ht hmore =>
    rw [argument_pair, argument_pair]
    have hopen := hS.twins.sign ht (w := "(") (by decide)
    have hclose := hS.twins.sign ht (w := ")") (by decide)
    have hbracket := hS.twins.sign ht (w := "[") (by decide)
    simp only [ht.toLike.endsLine, ht.kind, hopen, hclose, hbracket]
    split
    · exact .error _ _
    · rename_i hline
      rw [← ht.toLike.endsLine] at hline
      have hinline := (not_endsLine hline).1
      have hrest : Runs d loose (Twins d f S) false rest rest' := by
        rwa [beq_eq_false_iff_ne.2 hinline] at hmore
      have hnext := ih rest rest' (by simp) hrest
      split
      · apply (hnext.expand t t' ht).bind
        intro e e' he hee
        have hlt : e.2.length < (t :: rest).length := by
          obtain ⟨inner, -, rfl⟩ := Outcome.map_eq_ok_iff.1 he
          exact Nat.lt_succ_of_le inner.le
        exact ((ih e.2 e'.2 hlt hee.2).argument depth).map fun more more' hm =>
          ⟨List.rel_append hee.1 hm.1, hm.2⟩
      · split
        · exact .ok ⟨.nil, hrest⟩
        · exact (hnext.argument _).map fun more more' hm => ⟨.cons ht hm.1, hm.2⟩

/-- Invocations are expanded alike, whatever is nested in them. The two readers call each other on
shorter inputs. -/
theorem unfolding (h : Runs d loose (Twins d f S) false l l') :
    Unfolding d loose f S table table' l l' := by
  obtain ⟨n, hn⟩ : ∃ n, l.length = n := ⟨_, rfl⟩
  induction n using Nat.strong_induction_on generalizing l l' with
  | _ n ih =>
    have hless (m m' : List Token) (hm : m.length < l.length)
        (hr : Runs d loose (Twins d f S) false m m') : Unfolding d loose f S table table' m m' :=
      ih _ (hn ▸ hm) hr rfl
    exact ⟨fun t t' ht => expand_twins_step hS htable h hless ht,
      argument_twins_step hS h hless⟩

end Define

namespace Routine

structure ParameterAlike (d : Dialect) (f : Char → Char) (S : Wording)
    (p p' : Parameter) : Prop where
  name : Twins d f S p.name p'.name
  variable_kind : p.name.kind = .identifier
  fallback : Forall₂ (Twins d f S) p.fallback p'.fallback

structure Alike (d : Dialect) (f : Char → Char) (S : Wording) (r r' : Routine) : Prop where
  parameters : Forall₂ (ParameterAlike d f S) r.parameters r'.parameters
  results : Forall₂ (Forall₂ (Twins d f S)) r.results r'.results

theorem parameter_both (hS : Spelling d f S) (fn fn' : Token) (h : Forall₂ (Twins d f S) l l') :
    Both (ParameterAlike d f S) (parameter fn l) (parameter fn' l') := by
  cases h with
  | nil => exact .error _ _
  | @cons v v' m m' hv hm =>
    cases hm with
    | nil =>
      simp only [parameter, hv.kind]
      split
      · rename_i hk
        exact .ok ⟨hv, hv.kind ▸ hk, .nil⟩
      · exact .error _ _
    | @cons w w' n n' hw hn =>
      have hequal := hS.twins.sign hw (w := "=") (by decide)
      simp only [parameter, hv.kind, ne_eq, hequal]
      split
      · exact .error _ _
      · rename_i hk
        split
        · exact .error _ _
        · exact .ok ⟨hv, hv.kind ▸ not_not.1 hk, hn⟩

theorem lookup_alike {R : Routine → Routine → Prop} {table table' : Routines}
    (h : Forall₂ (fun e e' => e.1 = e'.1 ∧ R e.2 e'.2) table table') (name : Text) :
    Option.Rel R (table.lookup name) (table'.lookup name) := by
  induction h with
  | nil => exact .none
  | @cons e e' _ _ he _ ih =>
    obtain ⟨k, r⟩ := e
    obtain ⟨k', r'⟩ := e'
    obtain ⟨rfl, hr⟩ := he
    rw [List.lookup_cons, List.lookup_cons]
    cases name == k with
    | true => exact .some hr
    | false => exact ih

end Routine

namespace Directive

structure TablesAlike (d : Dialect) (f : Char → Char) (S : Wording)
    (tables tables' : Tables) : Prop where
  defines : Forall₂ (Define.Alike (Twins d f S)) tables.defines tables'.defines
  keeps : tables.keeps = tables'.keeps
  routines : Forall₂ (fun e e' => e.1 = e'.1 ∧ Routine.Alike d f S e.2 e'.2) tables.routines
    tables'.routines
  opened : Option.Rel (fun o o' => Twins d f S o.1 o'.1 ∧ o.1.kind = .functionName ∧
    Forall₂ (Routine.ParameterAlike d f S) o.2 o'.2) tables.opened tables'.opened

structure Progress.Alike (d : Dialect) (loose : Prop) (f : Char → Char) (S : Wording)
    (p p' : Progress) : Prop where
  tables : TablesAlike d f S p.tables p'.tables
  out : Back d loose (Twins d f S) p.out p'.out
  rest : Runs d loose (Twins d f S) (atLineStart p.out) p.rest p'.rest

variable {tables tables' : Tables} {out out' : List Token}

/-- What marks the entry of a function is the same in two programs. -/
theorem functionEntry_twins (hS : Spelling d f S) (ht : Twins d f S t t')
    (hk : t.kind = .functionName) (hp : pos.file = pos'.file) :
    Twins d f S ⟨.functionEntry, t.lower, pos⟩ ⟨.functionEntry, t'.lower, pos'⟩ := by
  have hlower := ht.toLike.lower hS.fine (by simp [hk])
  refine ⟨⟨rfl, functionEntry_lawful ht.lawful hk, functionEntry_lawful ht.lawful' (ht.kind ▸ hk),
    fun _ => hp, fun _ => congrArg (List.map f) hlower, fun _ => hlower⟩, fun _ => ?_,
    fun hi => (by cases hi), fun hf => by cases hf⟩
  rw [← hlower]
  obtain ⟨name, hv⟩ := Dialect.accepts_functionName (hk ▸ ht.lawful.classified (hk ▸ rfl))
  have hpoint : Grammar.isLetter (Text.lowerChar '.') = false := by decide
  rw [Token.lower, hv]
  exact hS.same (Lexer.not_identifier_of_head hpoint)

theorem openRoutine_unnamed (hk : (rest.headD t).kind ≠ .functionName) :
    ∃ e, openRoutine tables t rest = .error e := by
  unfold openRoutine
  split
  · exact ⟨_, rfl⟩
  · dsimp only
    split
    · exact ⟨_, rfl⟩
    · rw [Routine.argumentList, if_pos hk]
      exact ⟨_, rfl⟩

theorem openRoutine_both (hS : Spelling d f S) (hm : TablesAlike d f S tables tables')
    (ht : Twins d f S t t') (h : Runs d loose (Twins d f S) false rest rest') :
    Both (fun r r' => TablesAlike d f S r.1 r'.1 ∧ Twins d f S r.2.1 r'.2.1 ∧
      r.2.1.kind ≠ .newline ∧ Runs d loose (Twins d f S) false r.2.2 r'.2.2)
      (openRoutine tables t rest) (openRoutine tables' t' rest') := by
  have hfn := h.head ht
  by_cases hk : (rest.headD t).kind = .functionName
  · obtain ⟨defines, keeps, routines, opened⟩ := tables
    obtain ⟨defines', keeps', routines', opened'⟩ := tables'
    obtain ⟨hdefines, hkeeps, hroutines, hopened⟩ := hm
    have hinline : (rest.headD t).kind ≠ .newline := by
      rw [hk]
      decide
    have hknown : Option.Rel (Routine.Alike d f S) (routines.lookup (rest.headD t).lower)
        (routines'.lookup (rest'.headD t').lower) := by
      rw [hfn.toLike.lower hS.fine hinline]
      exact Routine.lookup_alike hroutines _
    unfold openRoutine
    cases hopened with
    | some => exact .error _ _
    | none =>
      dsimp only
      generalize routines.lookup (rest.headD t).lower = known at hknown
      generalize routines'.lookup (rest'.headD t').lower = known' at hknown
      cases hknown with
      | some => exact .error _ _
      | none =>
        rcases (Routine.argumentList_both hS.twins hfn (h.behind hinline)).elim with
          ⟨e, e', hx, hx'⟩ | ⟨⟨runs, closer, after⟩, ⟨runs', closer', after'⟩, hx, hx', hruns, hcloser,
            hline, hafter⟩
        · rw [hx, hx']
          exact .error _ _
        · have hps := both_mapM hruns fun run run' hrun =>
            Routine.parameter_both hS (rest.headD t) (rest'.headD t') hrun
          rw [hx, hx']
          rcases hps.elim with ⟨e, e', hy, hy'⟩ | ⟨ps, ps', hy, hy', hparameters⟩
          · simp only [hy, hy']
            exact .error _ _
          · simp only [hy, hy']
            exact .ok ⟨⟨hdefines, hkeeps, hroutines, .some ⟨hfn, hk, hparameters⟩⟩,
              functionEntry_twins hS hfn hk (hcloser.file hline), by simp, hafter⟩
  · obtain ⟨e, he⟩ : ∃ e, openRoutine tables t rest = .error e := openRoutine_unnamed hk
    obtain ⟨e', he'⟩ : ∃ e, openRoutine tables' t' rest' = .error e :=
      openRoutine_unnamed (hfn.kind ▸ hk)
    rw [he, he']
    exact .error e e'

theorem closeRoutine_both (hS : Spelling d f S) (hm : TablesAlike d f S tables tables')
    (ht : Twins d f S t t') (hk : t.kind ≠ .newline)
    (h : Runs d loose (Twins d f S) false rest rest') :
    Both (fun r r' => TablesAlike d f S r.1 r'.1 ∧ Forall₂ (Twins d f S) r.2.1 r'.2.1 ∧
      Runs d loose (Twins d f S) false r.2.2 r'.2.2) (closeRoutine d tables t rest)
      (closeRoutine d tables' t' rest') := by
  obtain ⟨defines, keeps, routines, opened⟩ := tables
  obtain ⟨defines', keeps', routines', opened'⟩ := tables'
  obtain ⟨hdefines, hkeeps, hroutines, hopened⟩ := hm
  obtain ⟨hruns, hlast, hline, hrest⟩ := Routine.resultList_both hS.twins ht hk h
  unfold closeRoutine
  cases hopened with
  | none => exact .error _ _
  | @some o o' ho =>
    obtain ⟨fn, ps⟩ := o
    obtain ⟨fn', ps'⟩ := o'
    obtain ⟨hfn, hname, hps⟩ := ho
    have hblank : ((Routine.resultList t rest).1.any (· == [])) =
        ((Routine.resultList t' rest').1.any (· == [])) := by
      generalize (Routine.resultList t rest).1 = runs at hruns
      generalize (Routine.resultList t' rest').1 = runs' at hruns
      induction hruns with
      | nil => rfl
      | cons hrun _ ih =>
        rw [List.any_cons, List.any_cons, ih]
        cases hrun <;> rfl
    dsimp only
    rw [hblank]
    split
    · exact .error _ _
    · have hlower := hfn.toLike.lower hS.fine (by rw [hname]; decide)
      refine .ok ⟨⟨hdefines, hkeeps, ?_, .none⟩, ?_, hrest⟩
      · exact List.rel_append hroutines (.cons ⟨hlower, hps, hruns⟩ .nil)
      · exact Lexer.snippet_twins hS (Lexer.nameless_phrase (by decide)) (hlast.file hline)

theorem asCall_twins (hS : Spelling d f S) (ho : Back d loose (Twins d f S) out out')
    (ht : Twins d f S t t') (h : t.kind ≠ .newline → Runs d loose (Twins d f S) false rest rest') :
    Twins d f S (asCall d out t rest) (asCall d out' t' rest') ∧
      ((asCall d out t rest).kind = .newline ↔ t.kind = .newline) := by
  have hlast : out.head?.map Token.kind = out'.head?.map Token.kind := by
    rcases ho.exists_cons hS.twins with ⟨rfl, rfl⟩ | ⟨u, u', m, m', rfl, rfl, hu, -⟩
    · rfl
    · simp [hu.kind]
  have hnext : t'.kind = .joiner ∧ (rest.headD t).kind ≠ .newline ↔
      t'.kind = .joiner ∧ (rest'.headD t').kind ≠ .newline := by
    refine and_congr_right fun hk => ?_
    rw [((h (by rw [ht.kind, hk]; decide)).head ht).kind]
  simp only [asCall, hlast, hnext, ht.kind]
  split
  · exact ⟨ht, by rw [ht.kind]⟩
  · split
    · rename_i hk
      have hinline : t.kind ≠ .newline := by
        rw [ht.kind, hk.1]
        decide
      refine ⟨ht.withKind (k := .call) hinline rfl (by decide) rfl rfl, ?_⟩
      simp [Token.withKind, hk.1]
    · split
      · rename_i hk
        have hinline : t.kind ≠ .newline := by
          rw [ht.kind, hk.1]
          decide
        refine ⟨ht.withKind (k := .callName) hinline rfl (by decide) rfl rfl, ?_⟩
        simp [Token.withKind, hk.1]
      · exact ⟨ht, by rw [ht.kind]⟩

variable (hS : Spelling d f S) (hm : TablesAlike d f S tables tables')
  (ho : Back d loose (Twins d f S) out out')

include hS hm ho

theorem obey_both (ht : Twins d f S t t') (hk : t.kind = .directive)
    (h : Runs d loose (Twins d f S) false rest rest') :
    Both (Progress.Alike d loose f S) (obey d tables out t rest) (obey d tables' out' t' rest') := by
  have his (w : Text) (hw : '\r' ∉ Text.fold w) : t.is w = t'.is w := ht.toLike.is hS.fine hw
  have hfirst := ho.atLineStart hS.twins
  have hinline : t.kind ≠ .newline := by simp [hk]
  simp only [obey, his "EXIT" (by decide), his "INCLUDE" (by decide), his "ENDIF" (by decide),
    his "DEFINE" (by decide), his "KEEP" (by decide), his "FUNC" (by decide), his "RET" (by decide),
    ← hfirst]
  split
  · exact .ok ⟨hm, .cons ht ho, h.anywhere _⟩
  · split
    · exact .ok ⟨hm, ho, h.anywhere _⟩
    · split
      · rename_i hw
        rw [Bool.and_eq_true] at hw
        refine (Define.readLine_both hS.twins hm.defines ht h).map fun r r' hr => ?_
        exact ⟨⟨hr.1, hm.keeps, hm.routines, hm.opened⟩, ho, by rw [hw.2]; exact hr.2⟩
      · split
        · rename_i hw
          rw [Bool.and_eq_true] at hw
          rw [hm.keeps]
          refine (keepTags_both hS.twins h).map fun r r' hr => ?_
          exact ⟨⟨hm.defines, hr.1, hm.routines, hm.opened⟩, ho, by rw [hw.2]; exact hr.2⟩
        · split
          · exact (openRoutine_both hS hm ht h).map fun r r' hr =>
              ⟨hr.1, .cons hr.2.1 ho, hr.2.2.2.anywhere _⟩
          · split
            · exact (closeRoutine_both hS hm ht hinline h).map fun r r' hr =>
                ⟨hr.1, ho.append hr.2.1, hr.2.2.anywhere _⟩
            · exact .error _ _

theorem step_both (ht : Twins d f S t t')
    (h : Runs d loose (Twins d f S) (t.kind == .newline) rest rest') :
    Both (Progress.Alike d loose f S) (step d tables out t rest) (step d tables' out' t' rest') := by
  have hfirst := ho.atLineStart hS.twins
  have hopen := hS.twins.sign ht (w := "[") (by decide)
  have hrest (hk : t.kind ≠ .newline) : Runs d loose (Twins d f S) false rest rest' := by
    rwa [beq_eq_false_iff_ne.2 hk] at h
  simp only [step, ← ht.kind, ← hfirst, ← hopen]
  split
  · rename_i hk
    have hinline : t.kind ≠ .newline := by simp [hk.1]
    rw [hm.keeps, ht.toLike.upper hS.fine hinline]
    split
    · exact .ok ⟨hm, ho, (hrest hinline).anywhere _⟩
    · refine (skipToggled_both hS.twins ht hinline (hrest hinline)).map fun r r' hr => ?_
      exact ⟨hm, ho, by rw [hk.2]; exact hr⟩
  · split
    · rename_i hk
      exact obey_both hS hm ho ht hk (hrest (by simp [hk]))
    · split
      · rename_i hk
        have hexpand := (Define.unfolding hS hm.defines (hrest (by simp [hk.1]))).expand t t' ht
        exact hexpand.of_map.map fun e e' he => ⟨hm, ho.append he.1, he.2.anywhere _⟩
      · obtain ⟨hcall, hkind⟩ := asCall_twins hS ho ht hrest
        refine .ok ⟨hm, .cons hcall ho, ?_⟩
        have hstart : atLineStart (asCall d out t rest :: out) = (t.kind == .newline) := by
          rw [atLineStart, Bool.eq_iff_iff, beq_iff_eq, beq_iff_eq, hkind]
        rw [hstart]
        exact h

omit hS hm ho in
theorem run_newline {quiet : Bool} {n : Token} (hn : n.kind = .newline) :
    run d quiet tables out (n :: rest) = run d quiet tables (n :: out) rest := by
  rw [run_read (by simp [hn]) (by simp [declares, hn])]
  simp [step, asCall, hn]

/-- The first stage goes the same way on two programs that are alike. -/
theorem run_both {quiet : Bool} {σ σ' : Session}
    (h : Runs d loose (Twins d f S) (atLineStart out) l l') (hs : σ.Alike σ') :
    Conversion.Both (fun r r' => TablesAlike d f S r.1 r'.1 ∧
      Runs d loose (Twins d f S) false r.2 r'.2) (run d quiet tables out l σ)
      (run d quiet tables' out' l' σ') := by
  obtain ⟨n, hn⟩ : ∃ n, l.length + l'.length = n := ⟨_, rfl⟩
  induction n using Nat.strong_induction_on generalizing tables tables' out out' l l' σ σ' with
  | _ n ih =>
    generalize hstart : atLineStart out = b at h
    cases h with
    | nil =>
      rw [run, run]
      exact .error _ _ _ _
    | @cons _ t t' m m' ht hmore =>
      by_cases he : t.kind = .eof
      · have he' := ht.kind.symm.trans he
        have hend := (Back.cons ht ho).reverse_append hS.twins .nil
        rw [run, run, if_pos he, if_pos he']
        exact .ok ⟨hm, by simpa only [List.append_nil] using hend⟩ hs
      · have he' : t'.kind ≠ .eof := ht.kind ▸ he
        have hdeclares : declares out t = declares out' t' := by
          rw [declares, declares, ht.kind, ht.toLike.is hS.fine (by decide), ho.atLineStart hS.twins]
        cases hd : declares out t with
        | true =>
          have hd' := hdeclares.symm.trans hd
          have hfirst := hd
          simp only [declares, Bool.and_eq_true, beq_iff_eq] at hfirst
          have hinline : t.kind ≠ .newline := by simp [hfirst.1.1]
          have hrest : Runs d loose (Twins d f S) false m m' := by
            rwa [beq_eq_false_iff_ne.2 hinline] at hmore
          rw [run_declare hd, run_declare hd']
          apply (Conversion.declareLine_both hS.twins ht hrest hs).bind
          intro left left' τ τ' hleft hτ
          have hlt : left.1.length + left'.1.length < n := by
            have h1 := left.2
            have h2 := left'.2
            simp only [List.length_cons] at hn
            omega
          exact ih _ hlt hm ho (by rw [hfirst.2]; exact hleft) hτ rfl
        | false =>
          have hd' := hdeclares.symm.trans hd
          rw [run_read he hd, run_read he' hd']
          rcases (step_both hS hm ho ht hmore).elim with ⟨e, e', hx, hx'⟩ | ⟨p, p', hx, hx', hp⟩
          · rw [hx, hx']
            exact .error _ _ _ _
          · rw [hx, hx']
            have hlt : p.rest.length + p'.rest.length < n := by
              have h1 := length_step hx
              have h2 := length_step hx'
              simp only [List.length_cons] at hn
              omega
            exact ih _ hlt hp.tables hp.out hp.rest hs rfl
    | @left k m _ hl hk hmore =>
      rw [run_newline hk.kind]
      have hout : Back d loose (Twins d f S) (k :: out) out' := by
        cases out with
        | nil => cases hstart
        | cons last out => exact .left hl hk (beq_iff_eq.1 hstart) ho
      have hnext : atLineStart (k :: out) = true := beq_iff_eq.2 hk.kind
      refine ih (m.length + l'.length) ?_ hm hout (by rw [hnext]; exact hmore) hs rfl
      simp only [List.length_cons] at hn
      omega
    | @right k _ m hl hk hmore =>
      rw [run_newline hk.kind]
      have hstart' := (ho.atLineStart hS.twins).symm.trans hstart
      have hout : Back d loose (Twins d f S) out (k :: out') := by
        cases out' with
        | nil => cases hstart'
        | cons last out' => exact .right hl hk (beq_iff_eq.1 hstart') ho
      refine ih (l.length + m.length) ?_ hm hout (by rw [hstart]; exact hmore) hs rfl
      simp only [List.length_cons] at hn
      omega

omit hm ho in
theorem builtin_alike (hp : pos.file = pos'.file) :
    Forall₂ (Define.Alike (Twins d f S)) (PrintAt.builtin d pos) (PrintAt.builtin d pos') := by
  have phrase (code : Text) (hc : code ∈ Lexer.phrases) :=
    Lexer.snippet_twins hS (Lexer.nameless_phrase (d := d) hc) hp
  have slot {v v' : Text} {p p' : Position} :
      Define.Filled (Twins d f S) ⟨.slot, v, p⟩ ⟨.slot, v', p'⟩ := .inl ⟨rfl, rfl⟩
  have filled {s s' : List Token} (h : Forall₂ (Twins d f S) s s') :
      Forall₂ (Define.Filled (Twins d f S)) s s' := h.imp fun _ _ ht => Define.filled hS.twins ht
  cases d with
  | msx =>
    refine .cons ⟨rfl, ?_, phrase _ (by decide)⟩ .nil
    exact List.rel_append (List.rel_append (filled (phrase _ (by decide))) (.cons slot .nil))
      (filled (phrase _ (by decide)))
  | coco =>
    have marker (v : Text) (hv : Dialect.coco.classify v ≠ some .identifier) :
        Define.Filled (Twins .coco f S) ⟨.special, v, {}⟩ ⟨.special, v, {}⟩ :=
      Define.filled hS.twins
        (Token.twins_refl hS (Token.lawful_of_unread rfl (by decide) rfl) hv (by simp))
    refine .cons ⟨rfl, ?_, phrase _ (by decide)⟩ .nil
    have hmark : Grammar.isLetter '?' = false := by decide
    exact .cons (marker _ (Lexer.not_identifier_of_head hmark))
      (.cons slot (.cons (marker _ (Lexer.not_identifier_of_head hmark)) .nil))

omit hm ho in
theorem carryOut_both {quiet : Bool} {σ σ' : Session} {start start' newline newline' : Token}
    (hstart : Twins d f S start start') (hk : start.kind ≠ .newline)
    (hn : newline.EndsRow d) (hn' : newline'.EndsRow d)
    (h : Runs d loose (Twins d f S) true l l') (hs : σ.Alike σ') :
    Conversion.Both (fun r r' => TablesAlike d f S r.1 r'.1 ∧
      Runs d loose (Twins d f S) false r.2 r'.2)
      (carryOut d quiet (start :: newline :: l) σ)
      (carryOut d quiet (start' :: newline' :: l') σ') := by
  have htables : TablesAlike d f S { defines := PrintAt.builtin d start.pos }
      { defines := PrintAt.builtin d start'.pos } :=
    ⟨builtin_alike hS (hstart.file hk), rfl, .nil, .none⟩
  have hfirst : atLineStart [newline, start] = true := beq_iff_eq.2 hn.kind
  exact run_both hS htables (.cons (hS.twins.ends hn hn') (.cons hstart .nil))
    (by rw [hfirst]; exact h) hs

end Directive

end ClassicBasic
