import ClassicBasic.Proofs.Alongside

/-!
# Line ends that follow each other

Where one of two programs has more line ends behind the same tokens, the third stage joins the same
lines, but for two rules that count. An underscore takes one line end away, and the next one ends the
line. A separator that opens a file is kept behind fewer than three line ends. Where nothing of that
makes a difference, two programs that are alike but for repeated line ends are put together alike.
-/

set_option autoImplicit false

namespace ClassicBasic

open Conversion (Both)
open List (Forall₂)
open Token (Like Twins)

variable {d : Dialect} {loose : Prop} {f : Char → Char} {R : Token → Token → Prop} {S : Wording}
  {t t' n n' : Token} {l l' m m' ns ns' rest rest' out out' : List Token} {quiet : Bool}
  {σ σ' : Session}

def Concluded (l : List Token) : Prop := ∀ u ∈ l.getLast?, u.kind ≠ .newline

theorem Concluded.suffix (h : Concluded l) (hs : m <:+ l) : Concluded m := by
  obtain ⟨gone, rfl⟩ := hs
  intro u hu
  refine h u ?_
  rw [List.getLast?_append, Option.mem_def.1 hu]
  rfl

/-- Behind a line end there are line ends in any numbers, then programs that are alike. -/
theorem Runs.exists_ends (hR : Ties d f R) (h : Runs d loose R true l l') :
    ∃ ns ns' m m', l = ns ++ m ∧ l' = ns' ++ m' ∧ (∀ n ∈ ns, n.EndsRow d) ∧
      (∀ n ∈ ns', n.EndsRow d) ∧ Runs d loose R false m m' ∧ (∀ t ∈ m.head?, t.kind ≠ .newline) ∧
      ∀ t ∈ m'.head?, t.kind ≠ .newline := by
  generalize hb : true = b at h
  induction h with
  | nil => exact ⟨[], [], [], [], rfl, rfl, by simp, by simp, .nil, by simp, by simp⟩
  | @cons b t t' l l' ht more ih =>
    by_cases hk : t.kind = .newline
    · obtain ⟨hn, hn'⟩ := (hR.like ht).endsRow hk
      obtain ⟨ns, ns', m, m', rfl, rfl, hns, hns', hm, hhead, hhead'⟩ := ih (by simp [hk])
      exact ⟨t :: ns, t' :: ns', m, m', rfl, rfl, List.forall_mem_cons.2 ⟨hn, hns⟩,
        List.forall_mem_cons.2 ⟨hn', hns'⟩, hm, hhead, hhead'⟩
    · have hk' : t'.kind ≠ .newline := (hR.like ht).kind ▸ hk
      exact ⟨[], [], t :: l, t' :: l', rfl, rfl, by simp, by simp, .cons ht more, by simpa using hk,
        by simpa using hk'⟩
  | left hl hn _ ih =>
    obtain ⟨ns, ns', m, m', rfl, rfl, hns, hrest⟩ := ih rfl
    exact ⟨_ :: ns, ns', m, m', rfl, rfl, List.forall_mem_cons.2 ⟨hn, hns⟩, hrest⟩
  | right hl hn _ ih =>
    obtain ⟨ns, ns', m, m', rfl, rfl, hns, hns', hrest⟩ := ih rfl
    exact ⟨ns, _ :: ns', m, m', rfl, rfl, hns, List.forall_mem_cons.2 ⟨hn, hns'⟩, hrest⟩

/-- Programs that are alike and of different lengths have a line end, and something behind it. -/
theorem Runs.length_cases (hR : Ties d f R) (h : Runs d loose R false l l') (hc : Concluded l)
    (hc' : Concluded l') : l.length = l'.length ∨ (2 ≤ l.length ∧ 2 ≤ l'.length) := by
  induction l generalizing l' with
  | nil =>
    rcases h.exists_cons with ⟨-, rfl⟩ | ⟨_, _, _, _, heq, -⟩
    · exact .inl rfl
    · cases heq
  | cons t rest ih =>
    obtain ⟨t, t', rest, rest', heq, rfl, ht, hmore⟩ := h.exists_cons.resolve_left (by simp)
    cases heq
    have hrest := hc.suffix (List.suffix_cons _ _)
    have hrest' := hc'.suffix (List.suffix_cons _ _)
    by_cases hk : t.kind = .newline
    · right
      have hne : rest ≠ [] := by
        rintro rfl
        exact hc t rfl hk
      have hne' : rest' ≠ [] := by
        rintro rfl
        exact hc' t' rfl ((hR.like ht).kind ▸ hk)
      have := List.length_pos_iff.2 hne
      have := List.length_pos_iff.2 hne'
      simp only [List.length_cons]
      omega
    · rw [beq_eq_false_iff_ne.2 hk] at hmore
      have := ih hmore hrest hrest'
      simp only [List.length_cons]
      omega

/-- Behind a token in the middle of a line, they are at most three tokens from their end together. -/
theorem Runs.far (hR : Ties d f R) (h : Runs d loose R false l l') (hc : Concluded l) (hc' : Concluded l')
    (hk : ∀ t ∈ l.head?, t.kind ≠ .newline) :
    l.length = l'.length ∨ (3 ≤ l.length ∧ 3 ≤ l'.length) := by
  rcases h.exists_cons with ⟨rfl, rfl⟩ | ⟨t, t', rest, rest', rfl, rfl, ht, hmore⟩
  · exact .inl rfl
  · rw [beq_eq_false_iff_ne.2 (hk t rfl)] at hmore
    have := hmore.length_cases hR (hc.suffix (List.suffix_cons _ _)) (hc'.suffix (List.suffix_cons _ _))
    simp only [List.length_cons]
    omega

namespace Kind

def takesNoEnd : Kind → Bool
  | .newline | .labelLine | .functionEntry => true
  | _ => false

/-- Kinds of tokens behind which an output may end as it did in front of them. -/
def isMute : Kind → Bool
  | .newline | .blockRemark | .blockText | .blockEnd => true
  | _ => false

end Kind

namespace Merge

/-! ### Many line ends -/

/-- Puts line ends behind an output (last token first), with `behind` tokens behind them. -/
def addNewlines (behind : Nat) : List Token → List Token → List Token
  | [], out => out
  | n :: ns, out => addNewlines behind ns (addNewline ⟨0, ns.length + behind⟩ n out)

theorem addNewline_congr {p q : Place} (h : p.isInner = q.isInner) :
    addNewline p n out = addNewline q n out := by
  cases out with
  | nil => rfl
  | cons u out => simp only [addNewline, h]

theorem addSeparator_congr {p q : Place}
    (h : ∀ u ∈ out.head?, u.kind = .newline → p.isLater = q.isLater) :
    addSeparator p t out = addSeparator q t out := by
  cases out with
  | nil => rfl
  | cons u out =>
    simp only [addSeparator]
    split
    · rfl
    · rename_i hk
      rw [h u rfl hk]
    · rfl

theorem head_like (h : Forall₂ (Like d f) l l') {u : Token} (hu : u ∈ l'.head?) :
    ∃ v ∈ l.head?, Like d f v u := by
  cases h with
  | nil => cases hu
  | cons ht _ =>
    obtain rfl := Option.some.inj hu
    exact ⟨_, rfl, ht⟩

theorem run_newlines {splice : Token → Token → Conversion (List Token)} {total : Nat}
    (hn : ∀ n ∈ ns, n.kind = .newline) : run d quiet splice total out (ns ++ m) =
      run d quiet splice total (addNewlines m.length ns out) m := by
  induction ns generalizing out with
  | nil => rfl
  | cons n ns ih =>
    obtain ⟨hk, hns⟩ := List.forall_mem_cons.1 hn
    have hadd (before : Nat) : add ⟨before, (ns ++ m).length⟩ n out =
        addNewline ⟨0, ns.length + m.length⟩ n out := by
      rw [add, hk]
      exact addNewline_congr (by rw [Place.isInner, Place.isInner, List.length_append])
    rw [List.cons_append, run]
    simp only [hk, reduceCtorEq, if_false, false_and]
    rw [addNewlines, ← ih hns]
    exact congrArg (run d quiet splice total · (ns ++ m)) (hadd _)

theorem addNewlines_none {u : Token} {behind : Nat} (hu : u.kind.takesNoEnd = true) :
    addNewlines behind ns (u :: out) = u :: out := by
  induction ns with
  | nil => rfl
  | cons n ns ih =>
    have hone : addNewline ⟨0, ns.length + behind⟩ n (u :: out) = u :: out := by
      cases hk : u.kind <;> simp [addNewline, Kind.takesNoEnd, hk] at hu ⊢
    rw [addNewlines, hone, ih]

/-- Behind a separator line ends count only at the end of the file, and one of them then. -/
theorem addNewlines_separator {u : Token} {behind : Nat} (hu : u.kind = .separator)
    (hn : ∀ n ∈ ns, n.kind = .newline) (hne : ns ≠ []) :
    (3 ≤ behind ∧ addNewlines behind ns (u :: out) = u :: out) ∨
      (behind < 3 ∧ ∃ n ∈ ns, addNewlines behind ns (u :: out) = n :: u :: out) := by
  induction ns with
  | nil => exact absurd rfl hne
  | cons n ns ih =>
    obtain ⟨hk, hns⟩ := List.forall_mem_cons.1 hn
    have hone : addNewline ⟨0, ns.length + behind⟩ n (u :: out) =
        if 3 ≤ ns.length + behind then u :: out else n :: u :: out := by
      simp [addNewline, hu, Place.isInner]
    rw [addNewlines, hone]
    by_cases hi : 3 ≤ ns.length + behind
    · rw [if_pos hi]
      by_cases hnil : ns = []
      · subst hnil
        exact .inl ⟨by simpa using hi, rfl⟩
      · refine (ih hns hnil).imp_right ?_
        rintro ⟨hlt, n, hn, heq⟩
        exact ⟨hlt, n, List.mem_cons_of_mem _ hn, heq⟩
    · rw [if_neg hi, addNewlines_none (by rw [hk]; rfl)]
      exact .inr ⟨by omega, n, List.mem_cons_self, rfl⟩

/-- As many line ends are put behind outputs that are alike in the same way. -/
theorem addNewlines_level {behind behind' : Nat} (ho : Forall₂ (Like d f) out out')
    (hn : Forall₂ (Like d f) ns ns')
    (hb : behind = behind' ∨ (3 ≤ behind ∧ 3 ≤ behind')) :
    Forall₂ (Like d f) (addNewlines behind ns out) (addNewlines behind' ns' out') := by
  induction hn generalizing out out' with
  | nil => exact ho
  | @cons n n' ns ns' hn hns ih =>
    have hplace : Place.isInner ⟨0, ns'.length + behind'⟩ = Place.isInner ⟨0, ns.length + behind⟩ := by
      have := hns.length_eq
      simp only [Place.isInner, decide_eq_decide]
      omega
    rw [addNewlines, addNewlines, addNewline_congr hplace]
    exact ih (addNewline_alike hn ho)

theorem forall₂_ends (hn : ∀ n ∈ ns, n.EndsRow d) (hn' : ∀ n ∈ ns', n.EndsRow d)
    (hlen : ns.length = ns'.length) : Forall₂ (Like d f) ns ns' :=
  List.forall₂_iff_zip.2 ⟨hlen, fun {_ _} hp =>
    Token.like_newline (hn _ (List.of_mem_zip hp).1) (hn' _ (List.of_mem_zip hp).2)⟩

/-- Line ends in any numbers do the same, as long as none stands behind an underscore. -/
theorem addNewlines_alike {behind behind' : Nat} (ho : Forall₂ (Like d f) out out')
    (hn : ∀ n ∈ ns, n.EndsRow d) (hn' : ∀ n ∈ ns', n.EndsRow d) (hne : ns ≠ []) (hne' : ns' ≠ [])
    (hb : behind = behind' ∨ (3 ≤ behind ∧ 3 ≤ behind'))
    (hj : ∀ u ∈ out.head?, u.kind = .joiner → ns.length = ns'.length) :
    Forall₂ (Like d f) (addNewlines behind ns out) (addNewlines behind' ns' out') := by
  obtain ⟨n, more, rfl⟩ := List.exists_cons_of_ne_nil hne
  obtain ⟨n', more', rfl⟩ := List.exists_cons_of_ne_nil hne'
  obtain ⟨hend, -⟩ := List.forall_mem_cons.1 hn
  obtain ⟨hend', -⟩ := List.forall_mem_cons.1 hn'
  have hfirst : Like d f n n' := Token.like_newline hend hend'
  have hnone : n.kind.takesNoEnd = true := by rw [hend.kind]; rfl
  have hnone' : n'.kind.takesNoEnd = true := by rw [hend'.kind]; rfl
  cases ho with
  | nil =>
    rw [addNewlines, addNewlines, addNewline, addNewline, addNewlines_none hnone,
      addNewlines_none hnone']
    exact .cons hfirst .nil
  | @cons u u' out out' hu ho =>
    by_cases hjoin : u.kind = .joiner
    · exact addNewlines_level (.cons hu ho) (forall₂_ends hn hn' (hj u rfl hjoin)) hb
    · by_cases hsep : u.kind = .separator
      · have hone := @addNewlines_separator (n :: more) out u behind hsep
          (fun n h => (hn n h).kind) hne
        have hone' := @addNewlines_separator (n' :: more') out' u' behind' (hu.kind ▸ hsep)
          (fun n h => (hn' n h).kind) hne'
        rcases hone with ⟨hge, heq⟩ | ⟨hlt, e, he, heq⟩ <;>
          rcases hone' with ⟨hge', heq'⟩ | ⟨hlt', e', he', heq'⟩
        · rw [heq, heq']
          exact .cons hu ho
        · omega
        · omega
        · rw [heq, heq']
          exact .cons (Token.like_newline (hn e he) (hn' e' he')) (.cons hu ho)
      · by_cases htakes : u.kind.takesNoEnd = true
        · rw [addNewlines_none htakes, addNewlines_none (hu.kind ▸ htakes)]
          exact .cons hu ho
        · have hone {v e : Token} {w : List Token} {p : Place} (hj : v.kind ≠ .joiner)
              (hs : v.kind ≠ .separator) (ht : ¬v.kind.takesNoEnd = true) :
              addNewline p e (v :: w) = e :: v :: w := by
            cases hk : v.kind <;> simp [addNewline, Kind.takesNoEnd, hk] at hj hs ht ⊢
          rw [addNewlines, addNewlines, hone hjoin hsep htakes,
            hone (hu.kind ▸ hjoin) (hu.kind ▸ hsep) (hu.kind ▸ htakes), addNewlines_none hnone,
            addNewlines_none hnone']
          exact .cons hfirst (.cons hu ho)

/-! ### Where line ends are counted -/

/-- The kinds of the tokens that come while an output may end in an underscore: behind an underscore
up to the first token that is written. The name of a file that is put in place is `named`. -/
def pending (held named : Bool) : List Token → List Kind
  | [] => []
  | t :: rest =>
    let includes := t.kind == .directive && t.is "INCLUDE"
    (if held then [t.kind] else []) ++
      pending (t.kind == .joiner || held && (named || includes || t.kind.isMute))
        (includes && !named) rest

/-- Whether the line ends of two files that come to the third stage count the same where they are
counted: while an output may end in an underscore, and in front of a separator that opens the file. -/
structure Level (l l' : List Token) : Prop where
  pending : pending false false l = pending false false l'
  opening : ((l.tail.dropWhile (·.kind == .newline)).head?.map Token.kind = some .separator) →
    (3 ≤ (l.tail.takeWhile (·.kind == .newline)).length ↔
      3 ≤ (l'.tail.takeWhile (·.kind == .newline)).length)

instance (l l' : List Token) : Decidable (Level l l') :=
  decidable_of_iff (_ ∧ _) ⟨fun h => ⟨h.1, h.2⟩, fun h => ⟨h.pending, h.opening⟩⟩

theorem pending_cons {held : Bool} (hi : ¬(t.kind = .directive ∧ t.is "INCLUDE" = true)) :
    pending held false (t :: rest) = (if held then [t.kind] else []) ++
      pending (t.kind == .joiner || held && t.kind.isMute) false rest := by
  have hfalse : (t.kind == .directive && t.is "INCLUDE") = false := by
    rw [Bool.eq_false_iff, ne_eq, Bool.and_eq_true, beq_iff_eq]
    exact hi
  rw [pending]
  simp only [hfalse, Bool.false_or, Bool.false_and]

theorem pending_mute {held : Bool} (hm : t.kind.isMute = true) :
    pending held false (t :: rest) = (if held then [t.kind] else []) ++ pending held false rest := by
  have hjoin : (t.kind == .joiner) = false := by
    rw [beq_eq_false_iff_ne]
    intro hk
    rw [hk] at hm
    cases hm
  have hi : ¬(t.kind = .directive ∧ t.is "INCLUDE" = true) := by
    rintro ⟨hk, -⟩
    rw [hk] at hm
    cases hm
  rw [pending_cons hi, hjoin, hm]
  simp

theorem pending_include {held : Bool} {u : Token} (hi : t.kind = .directive ∧ t.is "INCLUDE" = true)
    (hu : u.kind = .string) : pending held false (t :: u :: rest) =
      (if held then [t.kind, u.kind] else []) ++ pending held false rest := by
  have htrue : (t.kind == .directive && t.is "INCLUDE") = true := by rw [hi.1, hi.2]; rfl
  have hname : (u.kind == .directive && u.is "INCLUDE") = false := by rw [hu]; rfl
  have hjoin : (t.kind == .joiner) = false := by rw [hi.1]; rfl
  have hjoin' : (u.kind == .joiner) = false := by rw [hu]; rfl
  simp only [pending, htrue, hname, hjoin, hjoin', Bool.false_or, Bool.true_or, Bool.or_true,
    Bool.and_true, Bool.not_false, Bool.false_and]
  cases held <;> simp

theorem pending_newlines {held : Bool} (hn : ∀ n ∈ ns, n.kind = .newline) :
    pending held false (ns ++ m) =
      (if held then List.replicate ns.length .newline else []) ++ pending held false m := by
  induction ns with
  | nil => cases held <;> rfl
  | cons n ns ih =>
    obtain ⟨hk, hns⟩ := List.forall_mem_cons.1 hn
    rw [List.cons_append, pending_mute (by rw [hk]; rfl), ih hns, hk]
    cases held <;> simp [List.replicate_succ]

theorem head_pending : ∀ k ∈ (pending true false m).head?, ∃ t ∈ m.head?, k = t.kind := by
  intro k hk
  cases m with
  | nil => cases hk
  | cons t rest => exact ⟨t, rfl, by simpa [pending, eq_comm] using hk⟩

theorem pending_ends {held : Bool} (hn : ∀ n ∈ ns, n.kind = .newline)
    (hn' : ∀ n ∈ ns', n.kind = .newline) (hm : ∀ t ∈ m.head?, t.kind ≠ .newline)
    (hm' : ∀ t ∈ m'.head?, t.kind ≠ .newline)
    (h : pending held false (ns ++ m) = pending held false (ns' ++ m')) :
    (held = true → ns.length = ns'.length) ∧ pending held false m = pending held false m' := by
  rw [pending_newlines hn, pending_newlines hn'] at h
  cases held with
  | false => exact ⟨by simp, by simpa using h⟩
  | true =>
    have hstop {m : List Token} (hm : ∀ t ∈ m.head?, t.kind ≠ .newline) :
        (pending true false m).takeWhile (· == .newline) = [] := by
      cases hj : pending true false m with
      | nil => rfl
      | cons k ks =>
        obtain ⟨t, ht, rfl⟩ := head_pending (m := m) k (by rw [hj]; rfl)
        rw [List.takeWhile_cons, beq_eq_false_iff_ne.2 (hm t ht)]
        rfl
    have hends (k : Nat) (ks : List Kind) (hks : ks.takeWhile (· == .newline) = []) :
        (List.replicate k Kind.newline ++ ks).takeWhile (· == .newline) =
          List.replicate k .newline := by
      rw [List.takeWhile_append_of_pos fun x hx => by simp [List.eq_of_mem_replicate hx], hks,
        List.append_nil]
    have hcount := congrArg (List.takeWhile (· == Kind.newline)) h
    rw [if_pos rfl, if_pos rfl, hends _ _ (hstop hm), hends _ _ (hstop hm')] at hcount
    have hlen : ns.length = ns'.length := by simpa using congrArg List.length hcount
    refine ⟨fun _ => hlen, ?_⟩
    rw [hlen] at h
    simpa using h

/-! ### The third stage -/

/-- A block in front of programs that are alike is unwrapped by itself. -/
theorem exists_block (hR : Ties d f R) (h : Runs d loose R false l l') (hw : Whole l)
    (hfirst : ∀ u ∈ l.head?, u.kind.isWithin = true) :
    ∃ bs bs' m m', l = bs ++ m ∧ l' = bs' ++ m' ∧ Forall₂ R bs bs' ∧ Runs d loose R false m m' ∧
      (∀ t ∈ bs, t.kind.isWithin = true) ∧ unwrap d l = ((unwrap d bs).1, m) ∧
      unwrap d l' = ((unwrap d bs').1, m') ∧ (l ≠ [] → bs ≠ []) := by
  induction l generalizing l' with
  | nil =>
    rcases h.exists_cons with ⟨-, rfl⟩ | ⟨_, _, _, _, heq, -⟩
    · exact ⟨[], [], [], [], rfl, rfl, .nil, .nil, by simp, rfl, rfl, by simp⟩
    · cases heq
  | cons t rest ih =>
    obtain ⟨t, t', rest, rest', heq, rfl, ht, hmore⟩ := h.exists_cons.resolve_left (by simp)
    cases heq
    have hwithin : t.kind.isWithin = true := hfirst t rfl
    have hkind := (hR.like ht).kind
    have hinline : t.kind ≠ .newline := fun hk => by
      rw [hk] at hwithin
      cases hwithin
    rw [beq_eq_false_iff_ne.2 hinline] at hmore
    rcases Kind.blockText_or_blockEnd hwithin with hk | hk
    · have hk' : t'.kind = .blockText := hkind ▸ hk
      obtain ⟨bs, bs', m, m', hl, hl', hbs, hm, hall, heq, heq', -⟩ :=
        ih hmore (List.IsChain.suffix hw (List.suffix_cons _ _)) fun u hu => by
          obtain ⟨more, rfl⟩ := List.head?_eq_some_iff.1 hu
          have hlead : t.kind.leads u.kind = true := (List.isChain_cons_cons.1 hw).1
          simp only [Kind.leads, hk, Bool.and_eq_true, beq_iff_eq] at hlead
          exact hlead.1.1.2.symm
      refine ⟨t :: bs, t' :: bs', m, m', by rw [hl]; rfl, by rw [hl']; rfl, .cons ht hbs, hm,
        List.forall_mem_cons.2 ⟨hwithin, hall⟩, ?_, ?_, by simp⟩
      · simp [unwrap, hk, heq]
      · simp [unwrap, hk', heq']
    · have hk' : t'.kind = .blockEnd := hkind ▸ hk
      refine ⟨[t], [t'], rest, rest', rfl, rfl, .cons ht .nil, hmore, by simpa using hwithin, ?_, ?_,
        by simp⟩
      · simp [unwrap, hk]
      · simp [unwrap, hk']

theorem last_unwrap (l : List Token) : ∀ u ∈ (unwrap d l).1.getLast?, u.kind = .newline := by
  induction l with
  | nil => simp [unwrap]
  | cons t rest ih =>
    simp only [unwrap]
    split
    · simp
    · split
      · simp
      · intro u hu
        rw [List.getLast?_append, List.getLast?_cons_cons, List.getLast?_cons] at hu
        cases hlast : (unwrap d rest).1.getLast? with
        | none =>
          rw [hlast] at hu
          obtain rfl : _ = u := Option.some.inj hu
          rfl
        | some v =>
          rw [hlast] at hu
          obtain rfl : v = u := Option.some.inj hu
          exact ih v hlast

theorem pending_within {held : Bool} {bs bs' : List Token}
    (hall : ∀ t ∈ bs, t.kind.isWithin = true) (hb : Forall₂ (Like d f) bs bs')
    (h : pending held false (bs ++ m) = pending held false (bs' ++ m')) :
    pending held false m = pending held false m' := by
  induction hb with
  | nil => exact h
  | @cons t t' bs bs' ht _ ih =>
    obtain ⟨hwithin, hbs⟩ := List.forall_mem_cons.1 hall
    have hmute : t.kind.isMute = true := by
      rcases Kind.blockText_or_blockEnd hwithin with hk | hk <;> rw [hk] <;> rfl
    rw [List.cons_append, List.cons_append, pending_mute hmute, pending_mute (ht.kind ▸ hmute),
      ht.kind] at h
    exact ih hbs (List.append_cancel_left h)

theorem head_add {p : Place} (hk : t.kind ≠ .newline) :
    ∀ u ∈ (add p t out).head?, u.kind = t.kind := by
  have hself : ∀ u ∈ (t :: out).head?, u.kind = t.kind := by simp
  unfold add
  split
  · rename_i h
    exact absurd h hk
  · rename_i h
    cases out with
    | nil => simp [addSeparator]
    | cons last out =>
      simp only [addSeparator]
      split
      · rename_i hl
        simp [hl, h]
      · split <;> simp
      · simp
  · cases out with
    | nil => simp [addString]
    | cons last out =>
      simp only [addString]
      split
      · simp [Token.withValue]
      · split
        · cases out with
          | nil => simp
          | cons earlier before =>
            dsimp only
            split <;> simp [Token.withValue]
        · simp
  · exact hself

/-- Whether a separator comes to the same behind `a` tokens and behind `a'`: nothing but line ends is
in front, and they are counted alike, or a statement is in front of both. -/
def Ahead (a a' : Nat) (out l : List Token) : Prop :=
  2 ≤ a ∧ 2 ≤ a' ∧ ((∀ t ∈ l.head?, t.kind ≠ .newline ∧ (t.kind = .separator → (3 < a ↔ 3 < a'))) ∨
    (3 ≤ a ∧ 3 ≤ a' ∧ ∀ u ∈ out.head?, u.kind ≠ .newline) ∨ (4 ≤ a ∧ 4 ≤ a'))

/-- Two runs of the third stage side by side, `a` and `a'` tokens into their files. The outputs may end
in an underscore only if line ends are `held` to count the same. -/
structure InStep (d : Dialect) (f : Char → Char) (held : Bool) (a a' : Nat)
    (out out' l l' : List Token) : Prop where
  outputs : Forall₂ (Like d f) out out'
  inputs : Runs d True (Like d f) false l l'
  whole : Whole l
  concluded : Concluded l
  concluded' : Concluded l'
  pending : pending held false l = pending held false l'
  free : held = false → ∀ u ∈ out.head?, u.kind ≠ .joiner
  ahead : Ahead a a' out l

variable {held : Bool} {a a' : Nat}

theorem free_newlines {behind : Nat} (hn : ∀ n ∈ ns, n.kind = .newline)
    (h : ∀ u ∈ out.head?, u.kind ≠ .joiner) :
    ∀ u ∈ (addNewlines behind ns out).head?, u.kind ≠ .joiner := by
  induction ns generalizing out with
  | nil => exact h
  | cons n ns ih =>
    obtain ⟨hk, hns⟩ := List.forall_mem_cons.1 hn
    refine ih hns ?_
    cases out with
    | nil => simp [addNewline, hk]
    | cons u out =>
      have hu : u.kind ≠ .joiner := h u rfl
      simp only [addNewline]
      split
      · exact h
      · exact h
      · exact h
      · rename_i hj
        exact absurd hj hu
      · split
        · exact h
        · simp [hk]
      · simp [hk]

theorem InStep.newlines (hf : Text.Fine f) (h : InStep d f held a a' out out' (n :: l) l')
    (hn : n.kind = .newline) : ∃ ns ns' m m', n :: l = ns ++ m ∧ l' = ns' ++ m' ∧
      (∀ n ∈ ns, n.kind = .newline) ∧ (∀ n ∈ ns', n.kind = .newline) ∧ ns ≠ [] ∧
      InStep d f held (a + ns.length) (a' + ns'.length) (addNewlines m.length ns out)
        (addNewlines m'.length ns' out') m m' := by
  have hR := Text.Fine.ties (d := d) hf
  obtain ⟨n, n', l, l', heq, rfl, hlike, hmore⟩ := h.inputs.exists_cons.resolve_left (by simp)
  cases heq
  rw [hn, beq_self_eq_true] at hmore
  obtain ⟨hend, hend'⟩ := hlike.endsRow hn
  obtain ⟨ns, ns', m, m', rfl, rfl, hns, hns', hm, hhead, hhead'⟩ := hmore.exists_ends hR
  have hns := List.forall_mem_cons.2 ⟨hend, hns⟩
  have hns' := List.forall_mem_cons.2 ⟨hend', hns'⟩
  have hsuffix : m <:+ n :: ns ++ m := List.suffix_append _ _
  have hc := h.concluded.suffix hsuffix
  have hc' := h.concluded'.suffix (List.suffix_append (n' :: ns') m')
  have hkinds : ∀ u ∈ n :: ns, u.kind = .newline := fun u hu => (hns u hu).kind
  have hkinds' : ∀ u ∈ n' :: ns', u.kind = .newline := fun u hu => (hns' u hu).kind
  obtain ⟨hcount, hpending⟩ := pending_ends hkinds hkinds' hhead hhead' h.pending
  have hjoin : ∀ u ∈ out.head?, u.kind = .joiner → (n :: ns).length = (n' :: ns').length := by
    intro u hu hk
    cases held with
    | false => exact absurd hk (h.free rfl u hu)
    | true => exact hcount rfl
  have hout := addNewlines_alike h.outputs hns hns' (by simp) (by simp) (hm.far hR hc hc' hhead) hjoin
  refine ⟨n :: ns, n' :: ns', m, m', rfl, rfl, hkinds, hkinds', by simp, hout, hm,
    List.IsChain.suffix h.whole hsuffix, hc, hc', hpending, fun hh => free_newlines hkinds (h.free hh), ?_⟩
  obtain ⟨ha, ha', hahead⟩ := h.ahead
  have hlater : 3 ≤ a ∧ 3 ≤ a' := by
    rcases hahead with hfirst | hsecond | hthird
    · exact absurd hn (hfirst n rfl).1
    · exact ⟨hsecond.1, hsecond.2.1⟩
    · omega
  simp only [Ahead, List.length_cons]
  omega

theorem InStep.block (hf : Text.Fine f) (h : InStep d f held a a' out out' (t :: l) (t' :: l'))
    (hk : t.kind = .blockRemark) : ∃ k k', (t :: l).length = k + (unwrap d l).2.length ∧
      (t' :: l').length = k' + (unwrap d l').2.length ∧
      InStep d f held (a + k) (a' + k') ((unwrap d l).1.reverse ++ out)
        ((unwrap d l').1.reverse ++ out') (unwrap d l).2 (unwrap d l').2 := by
  obtain ⟨ht, hl⟩ := h.inputs.tail (by simp [hk])
  have hw := List.IsChain.suffix h.whole (List.suffix_cons _ _)
  have hfirst : ∀ u ∈ l.head?, u.kind.isWithin = true := fun u hu => by
    obtain ⟨more, rfl⟩ := List.head?_eq_some_iff.1 hu
    have hlead : t.kind.leads u.kind = true := (List.isChain_cons_cons.1 h.whole).1
    simp only [Kind.leads, hk, Bool.and_eq_true, beq_iff_eq] at hlead
    exact hlead.1.1.2.symm
  obtain ⟨bs, bs', m, m', rfl, rfl, hbs, hm, hall, heq, heq', hne⟩ :=
    exists_block (Text.Fine.ties hf) hl hw hfirst
  have hfirst' : ∀ u ∈ bs.head?, u.kind.isWithin = true := fun u hu =>
    hall u (List.mem_of_mem_head? hu)
  have hlines := (unwrap_alike hbs (List.IsChain.left_of_append hw) hfirst').1
  have hmute : t.kind.isMute = true := by rw [hk]; rfl
  have hpending := h.pending
  rw [pending_mute hmute, pending_mute (ht.kind ▸ hmute), ht.kind] at hpending
  have hsuffix : m <:+ t :: (bs ++ m) := (List.suffix_append _ _).trans (List.suffix_cons _ _)
  have hsuffix' : m' <:+ t' :: (bs' ++ m') := (List.suffix_append _ _).trans (List.suffix_cons _ _)
  rw [heq, heq']
  refine ⟨bs.length + 1, bs'.length + 1, by simp; omega, by simp; omega,
    List.rel_append (List.rel_reverse hlines) h.outputs, hm,
    List.IsChain.suffix h.whole hsuffix, h.concluded.suffix hsuffix, h.concluded'.suffix hsuffix',
    pending_within hall hbs (List.append_cancel_left hpending), ?_, ?_⟩
  · intro hh u hu
    rw [List.head?_append, List.head?_reverse] at hu
    cases hlast : (unwrap d bs).1.getLast? with
    | none =>
      rw [hlast] at hu
      exact h.free hh u hu
    | some v =>
      rw [hlast] at hu
      obtain rfl : v = u := Option.some.inj hu
      simp [last_unwrap bs v hlast]
  · obtain ⟨ha, ha', -⟩ := h.ahead
    have hlen := hbs.length_eq
    refine ⟨by omega, by omega, ?_⟩
    cases hb : bs with
    | nil =>
      have hnil : bs ++ m = [] := by
        by_contra hcon
        exact hne hcon hb
      refine .inl ?_
      rw [(List.append_eq_nil_iff.1 hnil).2]
      simp
    | cons b more =>
      rw [hb] at hlen
      simp only [List.length_cons] at hlen ⊢
      omega

/-- A file that is put in place keeps two runs in step if it does not end in an underscore. -/
theorem InStep.spliced {u u' : Token} {body body' : List Token}
    (h : InStep d f held a a' out out' (t :: u :: rest) (t' :: u' :: rest'))
    (hi : t.kind = .directive ∧ t.is "INCLUDE" = true) (hf : Text.Fine f) (hu : u.kind = .string)
    (hb : Forall₂ (Like d f) body body') (hlast : ∀ v ∈ body.getLast?, v.kind ≠ .joiner) :
    InStep d f held (a + 2) (a' + 2) (body.reverse ++ out) (body'.reverse ++ out') rest rest' := by
  obtain ⟨ht, hmore⟩ := h.inputs.tail (by simp [hi.1])
  obtain ⟨hname, hrest⟩ := hmore.tail (by simp [hu])
  have hi' : t'.kind = .directive ∧ t'.is "INCLUDE" = true := by
    rwa [← ht.kind, ← ht.is hf (w := "INCLUDE") (by decide)]
  have hpending := h.pending
  rw [pending_include hi hu, pending_include hi' (hname.kind ▸ hu), ht.kind, hname.kind] at hpending
  have hsuffix : rest <:+ t :: u :: rest := (List.suffix_cons _ _).trans (List.suffix_cons _ _)
  have hsuffix' : rest' <:+ t' :: u' :: rest' := (List.suffix_cons _ _).trans (List.suffix_cons _ _)
  refine ⟨List.rel_append (List.rel_reverse hb) h.outputs, hrest,
    List.IsChain.suffix h.whole hsuffix, h.concluded.suffix hsuffix, h.concluded'.suffix hsuffix',
    List.append_cancel_left hpending, ?_, ?_⟩
  · intro hh v hv
    rw [List.head?_append, List.head?_reverse] at hv
    cases hl : body.getLast? with
    | none =>
      rw [hl] at hv
      exact h.free hh v hv
    | some w =>
      rw [hl] at hv
      obtain rfl : w = v := Option.some.inj hv
      exact hlast w hl
  · obtain ⟨ha, ha', -⟩ := h.ahead
    exact ⟨by omega, by omega, .inr (.inr (by omega))⟩

theorem InStep.added {met met' : List Token}
    (h : InStep d f held a a' out out' (t :: rest) (t' :: rest')) (hn : t.kind ≠ .newline)
    (hi : ¬(t.kind = .directive ∧ t.is "INCLUDE" = true)) (hf : Text.Fine f)
    (hm : Forall₂ (Like d f) met met') (hs : t.kind = .separator → met = out) :
    InStep d f (t.kind == .joiner || held && t.kind.isMute) (a + 1) (a' + 1)
      (add ⟨a, rest.length⟩ t met) (add ⟨a', rest'.length⟩ t' met') rest rest' := by
  obtain ⟨ht, hrest⟩ := h.inputs.tail hn
  have hi' : ¬(t'.kind = .directive ∧ t'.is "INCLUDE" = true) := by
    rwa [← ht.kind, ← ht.is hf (w := "INCLUDE") (by decide)]
  have hpending := h.pending
  rw [pending_cons hi, pending_cons hi', ht.kind] at hpending
  have hsuffix : rest <:+ t :: rest := List.suffix_cons _ _
  obtain ⟨ha, ha', hahead⟩ := h.ahead
  have hplace : add ⟨a', rest'.length⟩ t' met' = add ⟨a, rest.length⟩ t' met' := by
    unfold add
    split
    · rename_i hk
      exact absurd (ht.kind.trans hk) hn
    · rename_i hk
      have hsep : t.kind = .separator := ht.kind.trans hk
      obtain rfl := hs hsep
      refine addSeparator_congr fun u hu hnl => ?_
      simp only [Place.isLater, decide_eq_decide]
      rcases hahead with hfirst | ⟨-, -, hline⟩ | hlater
      · exact ((hfirst t rfl).2 hsep).symm
      · obtain ⟨v, hv, hvu⟩ := head_like hm hu
        exact absurd (hvu.kind.trans hnl) (hline v hv)
      · omega
    · rfl
    · rfl
  refine ⟨?_, hrest, List.IsChain.suffix h.whole hsuffix, h.concluded.suffix hsuffix,
    h.concluded'.suffix (List.suffix_cons _ _), ?_, ?_, ?_⟩
  · rw [hplace]
    exact add_alike ht hm
  · rw [ht.kind]
    exact List.append_cancel_left hpending
  · intro hh u hu
    rw [head_add hn u hu]
    simp only [Bool.or_eq_false_iff, beq_eq_false_iff_ne] at hh
    exact hh.1
  · exact ⟨by omega, by omega, .inr (.inl ⟨by omega, by omega, fun u hu => by rwa [head_add hn u hu]⟩)⟩

variable {splice splice' : Token → Token → Conversion (List Token)}

theorem run_loose (hf : Text.Fine f)
    (hsplice : ∀ t t' u u' σ σ', Like d f t t' → Like d f u u' → Session.Alike σ σ' →
      Both (Forall₂ (Like d f)) (splice t u σ) (splice' t' u' σ'))
    (hbody : ∀ t u σ body τ, splice t u σ = .ok body τ →
      u.kind = .string ∧ ∀ v ∈ body.getLast?, v.kind ≠ .joiner)
    (h : InStep d f held a a' out out' l l') (hs : σ.Alike σ') :
    Both (Forall₂ (Like d f)) (run d quiet splice (a + l.length) out l σ)
      (run d quiet splice' (a' + l'.length) out' l' σ') := by
  obtain ⟨n, hn⟩ : ∃ n, l.length = n := ⟨_, rfl⟩
  induction n using Nat.strong_induction_on generalizing held a a' out out' l l' σ σ' with
  | _ n ih =>
    rcases h.inputs.exists_cons with ⟨rfl, rfl⟩ | ⟨t, t', rest, rest', rfl, rfl, ht, -⟩
    · rw [run, run]
      exact .error _ _ _ _
    · by_cases hnl : t.kind = .newline
      · obtain ⟨ns, ns', m, m', heq, heq', hns, hns', hne, hstep⟩ := h.newlines hf hnl
        have hpos := List.length_pos_iff.2 hne
        rw [heq, List.length_append] at hn
        rw [heq, heq', run_newlines hns, run_newlines hns', List.length_append, List.length_append,
          ← Nat.add_assoc, ← Nat.add_assoc]
        exact ih m.length (by omega) hstep hs rfl
      · simp only [List.length_cons] at hn
        have hless : rest.length < n := by omega
        have hplace : a + (t :: rest).length - 1 - rest.length = a := by
          rw [List.length_cons]
          omega
        have hplace' : a' + (t' :: rest').length - 1 - rest'.length = a' := by
          rw [List.length_cons]
          omega
        rw [run, run]
        simp only [← ht.kind, ← ht.is hf (w := "INCLUDE") (by decide), hplace, hplace']
        split
        · exact .ok (List.rel_reverse (.cons ht h.outputs)) hs
        · split
          · rename_i hi
            obtain ⟨-, hmore⟩ := h.inputs.tail hnl
            apply (hsplice _ _ _ _ _ _ ht (hmore.head ht) hs).bind_of_ok
            intro body body' τ τ' hok hlike hτ
            obtain ⟨hstring, hlast⟩ := hbody _ _ _ _ _ hok
            rcases hmore.exists_cons with ⟨rfl, -⟩ | ⟨u, u', more, more', rfl, rfl, -⟩
            · rw [List.headD_nil, hi.1] at hstring
              cases hstring
            · have hlen : a + (t :: u :: more).length = a + 2 + more.length := by
                simp only [List.length_cons]
                omega
              have hlen' : a' + (t' :: u' :: more').length = a' + 2 + more'.length := by
                simp only [List.length_cons]
                omega
              rw [hlen, hlen']
              simp only [List.length_cons] at hless
              exact ih more.length (by omega) (h.spliced hi hf hstring hlike hlast) hτ rfl
          · rename_i hi
            split
            · rename_i hk
              obtain ⟨k, k', hlen, hlen', hstep⟩ := h.block hf hk
              have hshort := length_unwrap d rest
              rw [hlen, hlen', ← Nat.add_assoc, ← Nat.add_assoc]
              exact ih _ (by omega) hstep hs rfl
            · rw [List.length_cons, List.length_cons, Nat.add_comm rest.length, ← Nat.add_assoc,
                Nat.add_comm rest'.length, ← Nat.add_assoc]
              split
              · rename_i hk
                apply (meetVariable_both hf ht hk h.outputs hs).bind
                intro met met' τ τ' hmet hτ
                exact ih rest.length hless (h.added hnl hi hf hmet (by simp [hk])) hτ rfl
              · exact ih rest.length hless (h.added hnl hi hf h.outputs fun _ => rfl) hs rfl

/-- The line ends a list starts with are what is in front of its first other token. -/
theorem first_ends (hn : ∀ n ∈ ns, n.kind = .newline) (hm : ∀ t ∈ m.head?, t.kind ≠ .newline) :
    (ns ++ m).takeWhile (·.kind == .newline) = ns ∧ (ns ++ m).dropWhile (·.kind == .newline) = m := by
  have hall : ∀ n ∈ ns, (n.kind == .newline) = true := fun n h => beq_iff_eq.2 (hn n h)
  rw [List.takeWhile_append_of_pos hall, List.dropWhile_append_of_pos hall]
  cases m with
  | nil => simp
  | cons t rest =>
    have ht : (t.kind == .newline) = false := beq_eq_false_iff_ne.2 (hm t rfl)
    rw [List.takeWhile_cons_of_neg (by simp [ht]), List.dropWhile_cons_of_neg (by simp [ht]),
      List.append_nil]
    exact ⟨rfl, rfl⟩

/-- Files that are alike but for repeated line ends are put together alike where the line ends count
the same. -/
theorem merge_loose (hf : Text.Fine f)
    (hsplice : ∀ t t' u u' σ σ', Like d f t t' → Like d f u u' → Session.Alike σ σ' →
      Both (Forall₂ (Like d f)) (splice t u σ) (splice' t' u' σ'))
    (hbody : ∀ t u σ body τ, splice t u σ = .ok body τ →
      u.kind = .string ∧ ∀ v ∈ body.getLast?, v.kind ≠ .joiner)
    (h : Runs d True (Like d f) false (t :: n :: l) (t' :: l')) (ht : t.kind = .program)
    (hn : n.kind = .newline) (hw : Whole (t :: n :: l)) (hc : Concluded (t :: n :: l))
    (hc' : Concluded (t' :: l')) (hl : Level (t :: n :: l) (t' :: l')) (hs : σ.Alike σ') :
    Both (Forall₂ (Like d f)) (merge d quiet splice (t :: n :: l) σ)
      (merge d quiet splice' (t' :: l') σ') := by
  have hR := Text.Fine.ties (d := d) hf
  obtain ⟨hstart, hmore⟩ := h.tail (by simp [ht])
  obtain ⟨n, n', l, l', heq, rfl, hlike, hmore⟩ := hmore.exists_cons.resolve_left (by simp)
  cases heq
  rw [hn, beq_self_eq_true] at hmore
  obtain ⟨hend, hend'⟩ := hlike.endsRow hn
  obtain ⟨ns, ns', m, m', rfl, rfl, hns, hns', hm, hhead, hhead'⟩ := hmore.exists_ends hR
  have hns := List.forall_mem_cons.2 ⟨hend, hns⟩
  have hns' := List.forall_mem_cons.2 ⟨hend', hns'⟩
  have hkinds : ∀ u ∈ n :: ns, u.kind = .newline := fun u hu => (hns u hu).kind
  have hkinds' : ∀ u ∈ n' :: ns', u.kind = .newline := fun u hu => (hns' u hu).kind
  have hsuffix : m <:+ t :: (n :: ns ++ m) := (List.suffix_append _ _).trans (List.suffix_cons _ _)
  have hsuffix' : m' <:+ t' :: (n' :: ns' ++ m') :=
    (List.suffix_append _ _).trans (List.suffix_cons _ _)
  have hcm := hc.suffix hsuffix
  have hcm' := hc'.suffix hsuffix'
  have hplain : ¬(t.kind = .directive ∧ t.is "INCLUDE" = true) := by simp [ht]
  have hplain' : ¬(t'.kind = .directive ∧ t'.is "INCLUDE" = true) := by simp [← hstart.kind, ht]
  have hpending := hl.pending
  rw [pending_cons hplain, pending_cons hplain', ← hstart.kind, ht] at hpending
  have hrest : pending false false m = pending false false m' :=
    (pending_ends hkinds hkinds' hhead hhead' hpending).2
  obtain ⟨htake, hdrop⟩ := first_ends hkinds hhead
  obtain ⟨htake', -⟩ := first_ends hkinds' hhead'
  have hopening := hl.opening
  rw [List.tail_cons, List.tail_cons] at hopening
  rw [show n :: (ns ++ m) = n :: ns ++ m from rfl, show n' :: (ns' ++ m') = n' :: ns' ++ m' from rfl,
    htake, hdrop, htake'] at hopening
  have hfree : ∀ u ∈ [t].head?, u.kind ≠ .joiner := by simp [ht]
  have hout := addNewlines_alike (Forall₂.cons hstart .nil) hns hns' (by simp) (by simp)
    (hm.far hR hcm hcm' hhead) fun u hu hk => absurd hk (hfree u hu)
  have hstep : InStep d f false (1 + (n :: ns).length) (1 + (n' :: ns').length)
      (addNewlines m.length (n :: ns) [t]) (addNewlines m'.length (n' :: ns') [t']) m m' := by
    refine ⟨hout, hm, List.IsChain.suffix hw hsuffix, hcm, hcm', hrest,
      fun _ => free_newlines hkinds hfree, by simp; omega, by simp; omega,
      .inl fun u hu => ⟨hhead u hu, fun hk => ?_⟩⟩
    have hcount := hopening (by rw [Option.mem_def.1 hu, Option.map_some, hk])
    omega
  have htotal : 1 + (n :: ns).length + m.length = (n :: ns ++ m).length + 1 := by
    rw [List.length_append]
    omega
  have htotal' : 1 + (n' :: ns').length + m'.length = (n' :: ns' ++ m').length + 1 := by
    rw [List.length_append]
    omega
  change Both _ (run d quiet splice ((n :: ns ++ m).length + 1) [t] (n :: ns ++ m) σ)
    (run d quiet splice' ((n' :: ns' ++ m').length + 1) [t'] (n' :: ns' ++ m') σ')
  rw [run_newlines hkinds, run_newlines hkinds', ← htotal, ← htotal']
  exact run_loose hf hsplice hbody hstep hs

end Merge

namespace Branch

variable {s : Setting} {b : Branch} {depth : Nat}

/-- What comes to the third stage starts with the start of the program and a line end, and stops at the
end of the program. -/
theorem front_ends {listing : Listing} {lexed placed : List Token} {τ : Session}
    (hx : Lexer.lex s.dialect listing = .ok lexed) (h : front s b lexed σ = .ok placed τ) :
    (∃ start newline rest, placed = start :: newline :: rest ∧ start.kind = .program ∧
      newline.kind = .newline) ∧ Concluded placed := by
  obtain ⟨tables, carried, _, _, hc, hp, -, -⟩ := front_cases h
  obtain ⟨hplain, hsound⟩ := Directive.carryOut_sound hx hc
  obtain ⟨start, newline, rest, final, last, left, rfl, hs, hn, hreach, hlast, rfl⟩ :=
    Label.reaches_of_place hsound hp
  have hfinal := (Label.reaches_kept hreach hplain.routines (Label.kept_first hsound)).out
  obtain ⟨front, newline, start, heq, hn, hs⟩ := hfinal.based
  rw [show final = front ++ [newline, start] from heq]
  refine ⟨⟨start, newline, front.reverse ++ [last], by simp, hs, hn⟩, fun u hu => ?_⟩
  simp only [List.reverse_cons, List.getLast?_append, List.getLast?_singleton, Option.some_or,
    Option.mem_def, Option.some.injEq] at hu
  rw [← hu, hlast]
  simp

/-- Whether no file that the main file includes is put in place with an underscore at its end. -/
def NoneUnderscored (s : Setting) (b : Branch) (depth : Nat) : Prop :=
  ∀ t u σ body τ, splice s b (inner s depth) t u σ = .ok body τ → ∀ v ∈ body.getLast?, v.kind ≠ .joiner

/-- Two files that are alike but for repeated line ends are converted alike where the line ends count
the same. -/
theorem convert_loose {listing listing' : Listing} (hS : Spelling s.dialect f S)
    (hx : Lexer.lex s.dialect listing = .ok l) (hx' : Lexer.lex s.dialect listing' = .ok l')
    (h : Paired s.dialect True (Twins s.dialect f S) l l') (hu : NoneUnderscored s b depth)
    (hl : ∀ placed placed' τ τ', front s b l σ = .ok placed τ → front s b l' σ' = .ok placed' τ' →
      Merge.Level placed placed') (hs : σ.Alike σ') :
    Both (Forall₂ (Like s.dialect f)) (convert s depth b l σ) (convert s depth b l' σ') := by
  have hshelf := Shelf.matched_refl (d := s.dialect) hS.fine s.shelf
  have hsplice (t t' u u' : Token) (σ σ' : Session) (_ : Like s.dialect f t t')
      (hname : Like s.dialect f u u') (hσ : Session.Alike σ σ') :
      Both (Forall₂ (Like s.dialect f)) (splice s b (inner s depth) t u σ)
        (splice s b (inner s depth) t' u' σ') := by
    refine splice_both hshelf (fun b listing S l l' σ σ' hx hS hl hσ => ?_) hname hσ
    cases depth with
    | zero => exact .error _ _ _ _
    | succ depth => exact convert_both hshelf hS hx hl hσ
  have hbody (t u : Token) (σ : Session) (body : List Token) (τ : Session)
      (hb : splice s b (inner s depth) t u σ = .ok body τ) :
      u.kind = .string ∧ ∀ v ∈ body.getLast?, v.kind ≠ .joiner := by
    obtain ⟨_, _, _, _, _, -, -, -, -, hname⟩ := splice_cases hb
    exact ⟨hname, hu t u σ body τ hb⟩
  rw [convert_eq, convert_eq]
  have hfront := front_both (b := b) hS h hs
  change Both _ (EStateM.bind _ _ σ) (EStateM.bind _ _ σ')
  unfold EStateM.bind
  generalize hp : front s b l σ = r at hfront
  generalize hp' : front s b l' σ' = r' at hfront
  cases hfront with
  | error e e' τ τ' => exact .error e e' τ τ'
  | ok hruns hτ =>
    obtain ⟨⟨start, newline, rest, rfl, hk, hn⟩, hc⟩ := front_ends hx hp
    obtain ⟨⟨start', newline', rest', rfl, -, -⟩, hc'⟩ := front_ends hx' hp'
    exact Merge.merge_loose hS.fine hsplice hbody (hruns.mono fun _ _ ht => ht.toLike) hk hn
      (front_whole hx hp) hc hc' (hl _ _ _ _ hp hp') hτ

end Branch

end ClassicBasic
