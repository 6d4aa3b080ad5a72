import ClassicBasic.Proofs.Finish

/-!
# Jumps line by line

The lines of a program are counted while its tokens are read, a label stands for the line it is read
on, and the report has an entry for each line. Each line keeps its jumps, in their order, to the rows of
the finished program; a jump to a label has become the number of the line of the label, a jump to the
line itself the number of that line.
-/

set_option autoImplicit false

namespace ClassicBasic

namespace Numbering

/-- The jumps to labels on each line that ends in a list of tokens. `read` are those on the line being
read, last one first. -/
def jumpsFrom (read : List Token) : List Token → List (List Token)
  | [] => []
  | t :: rest =>
    if t.kind = .eof then []
    else if t.kind = .newline then read.reverse :: jumpsFrom [] rest
    else if t.kind = .labelJump then jumpsFrom (t :: read) rest
    else jumpsFrom read rest

/-- The labels in a list of tokens, with the lines they stand for, from the line behind `k` line ends
on. -/
def labelsFrom (scale : Scale) (k : Nat) : List Token → List (Text × Int)
  | [] => []
  | t :: rest =>
    if t.kind = .eof then []
    else if t.kind = .newline then labelsFrom scale (k + 1) rest
    else if t.kind = .labelLine then (key t, lineAt scale k) :: labelsFrom scale k rest
    else labelsFrom scale k rest

/-- What the report says about the lines that end in a list of tokens, from the line behind `k` line ends
on. -/
def infosFrom (scale : Scale) (k : Nat) : List Token → List LineInfo
  | [] => []
  | t :: rest =>
    if t.kind = .eof then []
    else if t.kind = .newline then
      ⟨lineAt scale k, t.pos.line, t.pos.text, t.pos.file⟩ :: infosFrom scale (k + 1) rest
    else infosFrom scale k rest

/-- Whether lines, labels and jumps are counted by the token. -/
def isSign (t : Token) : Bool :=
  match t.kind with
  | .eof | .newline | .labelLine | .labelJump => true
  | _ => false

/-- Whether the jump `t` on the line `line` has become `u`. -/
def Hits (labels : List (Text × Int)) (line : Int) (t u : Token) : Prop :=
  if t.value = Label.sameLine then u.value = Text.ofInt line
  else ∃ n, labels.lookup (key t) = some n ∧ u.value = Text.ofInt n

/-- Whether the jumps of the lines from the one behind `k` line ends on have become those of other
lines. -/
inductive Landing (labels : List (Text × Int)) (scale : Scale) :
    Nat → List (List Token) → List (List Token) → Prop
  | done {k : Nat} : Landing labels scale k [] []
  | line {k : Nat} {l m : List Token} {ls ms : List (List Token)}
      (h : List.Forall₂ (Hits labels (lineAt scale k)) l m)
      (more : Landing labels scale (k + 1) ls ms) : Landing labels scale k (l :: ls) (m :: ms)

/-- What becomes of a pending token: one that waits for a label gets the number of its line. -/
def Settles (s : State) (p : Pending) (t : Token) : Prop :=
  t.kind = p.token.kind ∧ (p.target = none → t = p.token) ∧
    (p.target = some .label → ∃ n, s.labels.lookup (key p.token) = some n ∧
      t.value = Text.ofInt n)

variable {d : Dialect} {scale : Scale} {k : Nat} {s s' last : State} {t next : Token}
  {σ τ : Session}

theorem Finds.settles {p : Pending} (h : Finds s p t) : Settles s p t := by
  refine ⟨h.kind, h.kept, fun hp => ?_⟩
  obtain ⟨n, hn, -, rfl⟩ := h.found _ hp
  exact ⟨n, hn, rfl⟩

theorem forall₂_settles {tokens : List Token} (h : resolve s = .ok tokens) :
    List.Forall₂ (Settles s) s.out.reverse tokens :=
  (forall₂_finds h).imp fun _ _ => Finds.settles

/-- What a token other than a line end puts out: an entry nothing, a jump to a label itself, settled
or waiting. -/
inductive Sent (line : Int) (t : Token) : List Pending → Prop
  | other {emitted : List Pending} (ht : t.kind ≠ .labelJump)
      (h : ∀ p ∈ emitted, p.token.kind = t.kind) : Sent line t emitted
  | here (ht : t.kind = .labelJump) (hv : t.value = Label.sameLine) :
      Sent line t [⟨t.withValue (Text.ofInt line), none⟩]
  | waiting (ht : t.kind = .labelJump) (hv : t.value ≠ Label.sameLine) :
      Sent line t [⟨t, some .label⟩]

/-- A step on such a token stays on the line, and notes the line for a label in front of it. -/
theorem step_sent (h : step scale s t next = .ok s') (hn : t.kind ≠ .newline) :
    s'.line = s.line ∧ s'.infos = s.infos ∧
      s'.labels = (if t.kind = .labelLine then [(key t, s.line)] else []) ++ s.labels ∧
      ∃ emitted, s'.out = emitted.reverse ++ s.out ∧ Sent s.line t emitted := by
  have jumped : (jump scale.step s t).line = s.line ∧ (jump scale.step s t).infos = s.infos ∧
      (jump scale.step s t).labels = s.labels ∧ (jump scale.step s t).out =
        (if t.value = Label.sameLine then ⟨t.withValue (Text.ofInt s.line), none⟩
          else ⟨t, some .label⟩) :: s.out := by
    simp only [jump]
    split <;> split <;> exact ⟨rfl, rfl, rfl, rfl⟩
  unfold step at h
  split at h
  · rename_i hk
    unfold markLabel at h
    split at h
    · cases h
    · cases h
      exact ⟨rfl, rfl, by rw [hk]; rfl, [], rfl, .other (by simp [hk]) (by simp)⟩
  · rename_i hk
    cases h
    obtain ⟨hline, hinfos, hlabels, hout⟩ := jumped
    refine ⟨hline, hinfos, by simp [hk, hlabels], ?_⟩
    split at hout
    · exact ⟨[_], hout, .here hk ‹_›⟩
    · exact ⟨[_], hout, .waiting hk ‹_›⟩
  · rename_i hk
    cases h
    obtain ⟨hline, hinfos, hlabels, hout⟩ := jumped
    refine ⟨hline, hinfos, by simp [hk, hlabels], [_], hout, .other (by simp [hk]) ?_⟩
    split <;> simp [hk, Token.withValue]
  · rename_i hk
    cases h
    exact ⟨rfl, rfl, by rw [hk]; rfl, [_], rfl, .other (by simp [hk]) (by simp)⟩
  · rename_i hk
    cases h
    exact ⟨rfl, rfl, by rw [hk]; rfl, [], rfl, .other (by simp [hk]) (by simp)⟩
  · rename_i hk
    cases h
    exact ⟨rfl, rfl, by rw [hk]; rfl, [_], rfl, .other (by simp [hk]) (by simp)⟩
  · exact absurd ‹_› hn
  · cases h
    refine ⟨rfl, rfl, ?_, [⟨t, none⟩], rfl, .other ?_ (by simp)⟩
    · rw [if_neg ‹_›]
      rfl
    · assumption

/-- What has become of what a token puts out. -/
theorem Sent.forall₂ {line : Int} {emitted : List Pending} {tokens : List Token}
    (h : Sent line t emitted) (ht : List.Forall₂ (Settles last) emitted tokens) :
    (t.kind ≠ .labelJump ∧ ∀ u ∈ tokens, u.kind = t.kind) ∨
      (t.kind = .labelJump ∧ ∃ u, tokens = [u] ∧ u.kind = .labelJump ∧ Hits last.labels line t u) := by
  cases h with
  | other hk hall =>
    refine .inl ⟨hk, fun u hu => ?_⟩
    obtain ⟨p, hp, hpu⟩ := Outcome.exists_of_forall₂ ht hu
    exact hpu.1.trans (hall p hp)
  | here hk hv =>
    obtain ⟨u, more, hu, hmore, rfl⟩ := List.forall₂_cons_left_iff.1 ht
    cases hmore
    refine .inr ⟨hk, u, rfl, hu.1.trans hk, ?_⟩
    rw [Hits, if_pos hv, hu.2.1 rfl]
    rfl
  | waiting hk hv =>
    obtain ⟨u, more, hu, hmore, rfl⟩ := List.forall₂_cons_left_iff.1 ht
    cases hmore
    refine .inr ⟨hk, u, rfl, hu.1.trans hk, ?_⟩
    rw [Hits, if_neg hv]
    exact hu.2.2 rfl

theorem jumpsFrom_append {read tokens rest : List Token}
    (h : ∀ u ∈ tokens, u.kind ≠ .eof ∧ u.kind ≠ .newline ∧ u.kind ≠ .labelJump) :
    jumpsFrom read (tokens ++ rest) = jumpsFrom read rest := by
  induction tokens with
  | nil => rfl
  | cons u tokens ih =>
    rw [List.forall_mem_cons] at h
    obtain ⟨he, hn, hj⟩ := h.1
    rw [List.cons_append, jumpsFrom, if_neg he, if_neg hn, if_neg hj, ih h.2]

theorem jumpsFrom_newline {read rest : List Token} (h : t.kind = .newline) :
    jumpsFrom read (t :: rest) = read.reverse :: jumpsFrom [] rest := by
  simp [jumpsFrom, h]

theorem jumpsFrom_jump {read rest : List Token} (h : t.kind = .labelJump) :
    jumpsFrom read (t :: rest) = jumpsFrom (t :: read) rest := by
  simp [jumpsFrom, h]

theorem jumpsFrom_eof {read rest : List Token} (h : t.kind = .eof) :
    jumpsFrom read (t :: rest) = [] := by
  simp [jumpsFrom, h]

theorem labelsFrom_eof {rest : List Token} (h : t.kind = .eof) :
    labelsFrom scale k (t :: rest) = [] := by
  simp [labelsFrom, h]

theorem labelsFrom_newline {rest : List Token} (h : t.kind = .newline) :
    labelsFrom scale k (t :: rest) = labelsFrom scale (k + 1) rest := by
  simp [labelsFrom, h]

theorem labelsFrom_token {rest : List Token} (he : t.kind ≠ .eof) (hn : t.kind ≠ .newline) :
    labelsFrom scale k (t :: rest) =
      (if t.kind = .labelLine then [(key t, lineAt scale k)] else []) ++ labelsFrom scale k rest := by
  rw [labelsFrom, if_neg he, if_neg hn]
  split <;> rfl

theorem labelsFrom_append {tokens rest : List Token}
    (h : ∀ u ∈ tokens, u.kind ≠ .eof ∧ u.kind ≠ .newline ∧ u.kind ≠ .labelLine) :
    labelsFrom scale k (tokens ++ rest) = labelsFrom scale k rest := by
  induction tokens with
  | nil => rfl
  | cons u tokens ih =>
    rw [List.forall_mem_cons] at h
    rw [List.cons_append, labelsFrom_token h.1.1 h.1.2.1, if_neg h.1.2.2, ih h.2]
    rfl

/-- Jumps, labels and entries depend on the signs among the tokens alone. -/
theorem counted_filter (scale : Scale) (read tokens : List Token) (k : Nat) :
    jumpsFrom read (tokens.filter isSign) = jumpsFrom read tokens ∧
      labelsFrom scale k (tokens.filter isSign) = labelsFrom scale k tokens ∧
      infosFrom scale k (tokens.filter isSign) = infosFrom scale k tokens := by
  induction tokens generalizing read k with
  | nil => exact ⟨rfl, rfl, rfl⟩
  | cons t rest ih =>
    have hread := ih read k
    have hcall := ih (t :: read) k
    have hline := ih [] (k + 1)
    rw [List.filter_cons]
    by_cases hs : isSign t = true
    · rw [if_pos hs]
      simp only [jumpsFrom, labelsFrom, infosFrom, hread, hcall, hline, and_self]
    · have hk : t.kind ≠ .eof ∧ t.kind ≠ .newline ∧ t.kind ≠ .labelLine ∧ t.kind ≠ .labelJump := by
        refine ⟨?_, ?_, ?_, ?_⟩ <;> (intro h; simp [isSign, h] at hs)
      rw [if_neg hs]
      simp only [jumpsFrom, labelsFrom, infosFrom, hread, hk, if_false, and_self]

/-- Whether a state that comes behind another notes the labels of the tokens in between, and keeps the jumps
of every line. -/
def Lands (last : State) (scale : Scale) (k : Nat) (s : State) (input : List Token) : Prop :=
  ∃ emitted, last.out = emitted.reverse ++ s.out ∧
    last.labels = (labelsFrom scale k input).reverse ++ s.labels ∧
    ∀ tokens read read', List.Forall₂ (Settles last) emitted tokens →
      List.Forall₂ (Hits last.labels (lineAt scale k)) read read' →
      Landing last.labels scale k (jumpsFrom read input) (jumpsFrom read' tokens)

theorem lands_eof {rest : List Token} (he : t.kind = .eof) : Lands (s.emit t) scale k s (t :: rest) := by
  refine ⟨[⟨t, none⟩], rfl, by rw [labelsFrom_eof he]; rfl, fun tokens read read' ht _ => ?_⟩
  obtain ⟨u, more, hu, -, rfl⟩ := List.forall₂_cons_left_iff.1 ht
  rw [jumpsFrom_eof he, jumpsFrom_eof (hu.1.trans he)]
  exact .done

theorem Lands.identifier {u : Token} {rest : List Token} (hi : t.kind = .identifier) (hu : u.kind = .identifier)
    (h : Lands last scale k (s.emit u) rest) : Lands last scale k s (t :: rest) := by
  obtain ⟨emitted, hout, hlabels, hland⟩ := h
  refine ⟨⟨u, none⟩ :: emitted, by simp [hout, State.emit], ?_, fun tokens read read' ht hr => ?_⟩
  · rw [hlabels, labelsFrom_token (by simp [hi]) (by simp [hi]), if_neg (by simp [hi])]
    rfl
  · obtain ⟨v, more, hv, hmore, rfl⟩ := List.forall₂_cons_left_iff.1 ht
    have hv : v.kind = .identifier := hv.1.trans hu
    rw [show t :: rest = [t] ++ rest from rfl, show v :: more = [v] ++ more from rfl,
      jumpsFrom_append (by simp [hi]), jumpsFrom_append (by simp [hv])]
    exact hland more read read' hmore hr

/-- The line end in front of the last token ends the last line. -/
theorem lands_last {u : Token} {infos : List LineInfo} {left : List Token} (hn : t.kind = .newline)
    (hk : u.kind = .eof) :
    Lands (({ s with infos := infos }.emit t).emit u) scale k s (t :: u :: left) := by
  refine ⟨[⟨t, none⟩, ⟨u, none⟩], rfl, ?_, fun tokens read read' ht hr => ?_⟩
  · rw [labelsFrom_newline hn, labelsFrom_eof hk]
    rfl
  · obtain ⟨v, more, hv, hmore, rfl⟩ := List.forall₂_cons_left_iff.1 ht
    obtain ⟨w, more, hw, -, rfl⟩ := List.forall₂_cons_left_iff.1 hmore
    rw [jumpsFrom_newline hn, jumpsFrom_newline (hv.1.trans hn), jumpsFrom_eof hk,
      jumpsFrom_eof (hw.1.trans hk)]
    exact .line (List.forall₂_reverse_iff.2 hr) .done

/-- Any other line end is followed by the number of the next line. -/
theorem Lands.newline {number : Token} {infos : List LineInfo} {line : Int} {rest : List Token}
    (hn : t.kind = .newline) (hk : number.kind = .lineNumber)
    (h : Lands last scale (k + 1) (({ s with infos := infos, line := line }.emit t).emit number) rest) :
    Lands last scale k s (t :: rest) := by
  obtain ⟨emitted, hout, hlabels, hland⟩ := h
  refine ⟨⟨t, none⟩ :: ⟨number, none⟩ :: emitted, by simp [hout, State.emit], ?_,
    fun tokens read read' ht hr => ?_⟩
  · rw [hlabels, labelsFrom_newline hn]
    rfl
  · obtain ⟨v, more, hv, hmore, rfl⟩ := List.forall₂_cons_left_iff.1 ht
    obtain ⟨w, more, hw, hmore', rfl⟩ := List.forall₂_cons_left_iff.1 hmore
    have hw : w.kind = .lineNumber := hw.1.trans hk
    rw [jumpsFrom_newline hn, jumpsFrom_newline (hv.1.trans hn),
      show w :: more = [w] ++ more from rfl, jumpsFrom_append (by simp [hw])]
    exact .line (List.forall₂_reverse_iff.2 hr) (hland more [] [] hmore' .nil)

/-- Other tokens stay on their line. -/
theorem Lands.sent {sent : List Pending} {rest : List Token} (he : t.kind ≠ .eof) (hn : t.kind ≠ .newline)
    (hs : s.line = lineAt scale k)
    (hl : s'.labels = (if t.kind = .labelLine then [(key t, s.line)] else []) ++ s.labels)
    (ho : s'.out = sent.reverse ++ s.out) (hsent : Sent s.line t sent) (h : Lands last scale k s' rest) :
    Lands last scale k s (t :: rest) := by
  obtain ⟨emitted, hout, hlabels, hland⟩ := h
  refine ⟨sent ++ emitted, by simp [hout, ho], ?_, fun tokens read read' ht hr => ?_⟩
  · rw [hlabels, hl, labelsFrom_token he hn, hs]
    split <;> simp
  · obtain ⟨front, more, hfront, hmore, rfl⟩ : ∃ front more,
        List.Forall₂ (Settles last) sent front ∧ List.Forall₂ (Settles last) emitted more ∧
        tokens = front ++ more :=
      ⟨_, _, by simpa using List.forall₂_take sent.length ht,
        by simpa using List.forall₂_drop sent.length ht, (List.take_append_drop _ _).symm⟩
    rcases hsent.forall₂ hfront with ⟨hj, hall⟩ | ⟨hj, u, rfl, hu, hhit⟩
    · rw [show t :: rest = [t] ++ rest from rfl, jumpsFrom_append (by simp [he, hn, hj]),
        jumpsFrom_append fun u hu => by rw [hall u hu]; exact ⟨he, hn, hj⟩]
      exact hland more read read' hmore hr
    · rw [hs] at hhit
      rw [jumpsFrom_jump hj, List.singleton_append, jumpsFrom_jump hu]
      exact hland more _ _ hmore (.cons hhit hr)

/-- A walk notes the labels on its way, and keeps the jumps of every line. -/
theorem walk_lands {input : List Token} (h : walk d scale s input σ = .ok last τ)
    (hs : s.line = lineAt scale k) : Lands last scale k s input := by
  induction input generalizing s k σ with
  | nil => exact absurd h Conversion.throw_ne_ok
  | cons t rest ih =>
    rcases walk_cases h with ⟨he, rfl, -⟩ | ⟨hi, u, known, hsh, hw⟩ | ⟨he, hi, s', hst, hw⟩
    · exact lands_eof he
    · exact .identifier hi ((shorten_kind hsh).trans hi) (ih hw hs)
    by_cases hn : t.kind = .newline
    · have hend : endLine scale.step s t (rest.headD t) = .ok s' := by
        simpa [step, hn] using hst
      rcases endLine_cases hend with ⟨hk, rfl⟩ | ⟨hk, rfl⟩
      · -- the next token ends the program, so the walk is over behind it
        cases rest with
        | nil => simp [hn] at hk
        | cons u left =>
          have hk : u.kind = .eof := hk
          simp only [walk, if_pos hk] at hw
          obtain ⟨rfl, -⟩ := Conversion.pure_eq_ok_iff.1 hw
          exact lands_last hn hk
      · exact .newline hn rfl (ih hw (by simp only [State.emit, hs, lineAt_succ]))
    · obtain ⟨hline, -, hl, sent, ho, hsent⟩ := step_sent hst hn
      exact .sent he hn hs hl ho hsent (ih hw (hline.trans hs))

/-- A walk reports the lines on its way. -/
theorem walk_infos {input : List Token} (h : walk d scale s input σ = .ok last τ)
    (hs : s.line = lineAt scale k) : last.infos = (infosFrom scale k input).reverse ++ s.infos := by
  induction input generalizing s k σ with
  | nil => exact absurd h Conversion.throw_ne_ok
  | cons t rest ih =>
    rcases walk_cases h with ⟨he, rfl, -⟩ | ⟨hi, u, known, -, hw⟩ | ⟨he, -, s', hst, hw⟩
    · simp [infosFrom, he, State.emit]
    · rw [ih hw hs]
      simp [infosFrom, hi, State.emit]
    by_cases hn : t.kind = .newline
    · have hend : endLine scale.step s t (rest.headD t) = .ok s' := by
        simpa [step, hn] using hst
      rcases endLine_cases hend with ⟨hk, rfl⟩ | ⟨-, rfl⟩
      · -- the next token ends the program, so the walk is over behind it
        cases rest with
        | nil => simp [hn] at hk
        | cons u rest =>
          have hk : u.kind = .eof := hk
          simp only [walk, if_pos hk] at hw
          obtain ⟨rfl, -⟩ := Conversion.pure_eq_ok_iff.1 hw
          simp [infosFrom, hn, hk, State.emit, infoOf, hs]
      · rw [ih (k := k + 1) hw (by simp only [State.emit, hs, lineAt_succ])]
        simp [infosFrom, hn, State.emit, infoOf, hs]
    · obtain ⟨hline, hinfos, -⟩ := step_sent hst hn
      rw [ih hw (hline.trans hs), hinfos]
      simp [infosFrom, he, hn]

/-- The jumps of a numbered program have become the lines they lead to. -/
theorem number_landing {start : Token} {input : List Token} {numbered : Numbered}
    (h : number d scale (start :: input) σ = .ok numbered τ) :
    numbered.infos = infosFrom scale 0 input ∧ ∃ tail, numbered.tokens = start :: tail ∧
      Landing (labelsFrom scale 0 input).reverse scale 0 (jumpsFrom [] input) (jumpsFrom [] tail) := by
  obtain ⟨last, hw, hr, hinfos⟩ := number_cases h
  refine ⟨by rw [hinfos, walk_infos hw rfl]; simp [opening], ?_⟩
  obtain ⟨emitted, hout, hlabels, hland⟩ := walk_lands hw rfl
  have hres := forall₂_settles hr
  have hrev : last.out.reverse = ⟨start, none⟩ :: emitted := by simp [hout, opening]
  have hsame : last.labels = (labelsFrom scale 0 input).reverse := by simp [hlabels, opening]
  rw [hrev] at hres
  obtain ⟨v, tail, hv, htail, heq⟩ := List.forall₂_cons_left_iff.1 hres
  exact ⟨tail, by rw [heq, hv.2.1 rfl], hsame ▸ hland tail [] [] htail .nil⟩

/-- What is written in the place of a jump: the same, or the same in capitals. -/
def Rewritten (t u : Token) : Prop := u.value = t.value ∨ u.value = Text.upper t.value

theorem Hits.rewritten {labels : List (Text × Int)} {line : Int} {u v : Token}
    (h : Hits labels line t u) (hv : Rewritten u v) : Hits labels line t v := by
  have same {n : Int} (hu : u.value = Text.ofInt n) : v.value = Text.ofInt n := by
    rcases hv with hv | hv <;> rw [hv, hu]
    exact Text.upper_ofInt n
  unfold Hits at h ⊢
  split
  · rw [if_pos ‹_›] at h
    exact same h
  · rw [if_neg ‹_›] at h
    obtain ⟨n, hn, hu⟩ := h
    exact ⟨n, hn, same hu⟩

theorem Hits.forall₂_rewritten {labels : List (Text × Int)} {line : Int} {l m m' : List Token}
    (h : List.Forall₂ (Hits labels line) l m) (hm : List.Forall₂ Rewritten m m') :
    List.Forall₂ (Hits labels line) l m' := by
  induction h generalizing m' with
  | nil =>
    cases hm
    exact .nil
  | cons ht _ ih =>
    cases hm with
    | cons hu hm => exact .cons (ht.rewritten hu) (ih hm)

theorem Landing.rewritten {labels : List (Text × Int)} {ls ms ms' : List (List Token)}
    (h : Landing labels scale k ls ms)
    (hm : List.Forall₂ (List.Forall₂ Rewritten) ms ms') : Landing labels scale k ls ms' := by
  induction h generalizing ms' with
  | done =>
    cases hm
    exact .done
  | line hl _ ih =>
    cases hm with
    | cons hrow hm => exact .line (Hits.forall₂_rewritten hl hrow) (ih hm)

end Numbering

namespace Touch

open ClassicBasic.Numbering (jumpsFrom Rewritten jumpsFrom_append jumpsFrom_newline jumpsFrom_jump jumpsFrom_eof)

variable {d : Dialect} {o : Options}

/-- The last touches keep the jumps of every line. -/
theorem Touches.jumps {input new read read' : List Token} (h : Touches d o input new)
    (hc : ∀ t ∈ input, t.kind = .compound → '\r' ∉ t.value)
    (hr : List.Forall₂ Rewritten read read') :
    List.Forall₂ (List.Forall₂ Rewritten) (jumpsFrom read input) (jumpsFrom read' new) := by
  induction h generalizing read read' with
  | ending ht =>
    rw [jumpsFrom_eof ht, jumpsFrom_eof ht]
    exact .nil
  | @token t next out rest tokens new ht _ ih =>
    rw [List.forall_mem_cons] at hc
    cases hk : t.kind.isInline with
    | true =>
      have hin := touch_inline ht hk hc.1
      have plain {u : Token} (hu : u.kind.isInline = true) :
          u.kind ≠ .eof ∧ u.kind ≠ .newline ∧ u.kind ≠ .labelJump := by
        refine ⟨?_, ?_, ?_⟩ <;> (intro h; rw [h] at hu; cases hu)
      rw [show t :: rest = [t] ++ rest from rfl, jumpsFrom_append (by simpa using plain hk),
        jumpsFrom_append fun u hu => plain (hin u hu)]
      exact ih hc.2 hr
    | false =>
      obtain rfl := touch_of_not_inline ht hk
      have hkind : (capitalised d o t).kind = t.kind := capitalised_kind
      rw [List.singleton_append]
      by_cases he : t.kind = .eof
      · rw [jumpsFrom_eof he, jumpsFrom_eof (hkind.trans he)]
        exact .nil
      by_cases hn : t.kind = .newline
      · rw [jumpsFrom_newline hn, jumpsFrom_newline (hkind.trans hn)]
        exact .cons (List.forall₂_reverse_iff.2 hr) (ih hc.2 .nil)
      by_cases hj : t.kind = .labelJump
      · rw [jumpsFrom_jump hj, jumpsFrom_jump (hkind.trans hj)]
        exact ih hc.2 (.cons capitalised_value hr)
      · rw [show t :: rest = [t] ++ rest from rfl, jumpsFrom_append (by simp [he, hn, hj]),
          show capitalised d o t :: new = [capitalised d o t] ++ new from rfl,
          jumpsFrom_append (by simp [he, hn, hj])]
        exact ih hc.2 hr

end Touch

namespace Render

open ClassicBasic.Numbering (jumpsFrom)

/-- The jumps to labels in a row. -/
def jumps (row : List Token) : List Token := row.filter (·.hasKind .labelJump)

/-- The rows of a program have the jumps of its lines. -/
theorem map_jumps_rowsFrom {read tokens : List Token}
    (h : ∀ t ∈ tokens, t.kind = .labelJump → t.value ≠ []) :
    (rowsFrom read tokens).map jumps = jumpsFrom (jumps read) tokens := by
  induction tokens generalizing read with
  | nil => rfl
  | cons t rest ih =>
    rw [List.forall_mem_cons] at h
    simp only [rowsFrom, jumpsFrom]
    by_cases he : t.kind = .eof
    · simp [he]
    by_cases hn : t.kind = .newline
    · simp only [if_neg he, if_pos hn, List.map_cons, ih h.2]
      congr 1
      split <;> simp [jumps, hn, Token.hasKind]
    by_cases hj : t.kind = .labelJump
    · simp only [if_neg he, if_neg hn, if_pos hj, if_neg (h.1 hj), ih h.2]
      simp [jumps, hj, Token.hasKind]
    · simp only [if_neg he, if_neg hn, if_neg hj, ih h.2]
      split <;> simp [jumps, hj, Token.hasKind]

end Render

namespace Numbering

theorem Numbers.newline {second : Token} {rest new : List Token} (h : Numbers (second :: rest) new)
    (hk : second.kind = .newline) : ∃ u more, new = u :: more ∧ u.kind = .newline := by
  cases h with
  | ending he => simp [hk] at he
  | entry he => simp [hk, Kind.isEntry] at he
  | line _ _ _ => exact ⟨_, _, rfl, hk⟩
  | token hs _ =>
    rcases hs with rfl | ⟨hkind, -⟩
    · exact ⟨_, _, rfl, hk⟩
    · exact ⟨_, _, rfl, hkind.trans hk⟩

end Numbering

theorem Touch.Touches.newline {d : Dialect} {o : Options} {t : Token} {rest new : List Token}
    (h : Touches d o (t :: rest) new) (hk : t.kind = .newline) :
    ∃ u more, new = u :: more ∧ u.kind = .newline := by
  cases h with
  | ending he => simp [hk] at he
  | token ht _ =>
    obtain rfl := touch_of_not_inline ht (by rw [hk]; rfl)
    exact ⟨_, _, rfl, capitalised_kind.trans hk⟩

namespace Compile

open ClassicBasic.Numbering (Landing labelsFrom jumpsFrom infosFrom)
open Render (rows jumps)

variable {s : Setting} {o : Options} {listing : Listing} {c : Compiled} {σ τ : Session}

/-- The jumps of a merged program have become the numbers of the lines they lead to, row by row, and the
report has an entry for each row. -/
theorem Passes.landing {merged : List Token} {numbered : Numbering.Numbered}
    {before after : Session} (h : ofListing s o listing σ = .ok c τ)
    (hp : Passes s o listing σ c τ merged numbered before after) {start second : Token}
    {rest : List Token} (hwhole : whole o merged = start :: second :: rest)
    (hk : second.kind = .newline) :
    c.Headed ∧ c.infos = infosFrom o.scale 1 rest ∧
      Landing (labelsFrom o.scale 1 rest).reverse o.scale 1 (jumpsFrom [] rest) ((rows c.parsed).map jumps) := by
  obtain ⟨first, left, _, _, hs⟩ := exists_sheet h
  obtain ⟨start', hparsed', -⟩ := hs.parsed
  obtain ⟨_, _, _, lead, numbers, new, -, -, -, hw, hnumbers, hsigns, hnumbered, hparsed,
    htouches⟩ := hp.finish
  obtain ⟨ready, final, -, -, hnum⟩ := hp.numbering
  rw [hwhole] at hnum
  obtain ⟨hinfos, tail, htail, hland⟩ := Numbering.number_landing hnum
  obtain ⟨-, rfl⟩ := List.cons.inj (hnumbered.symm.trans htail)
  obtain ⟨-, rfl⟩ := List.cons.inj (hparsed.symm.trans hparsed')
  have hplain : ∀ t ∈ numbers, t.kind = .compound → '\r' ∉ t.value := fun t ht hk hr =>
    absurd (hsigns t ht hk hr) (by decide)
  have hrows := hland.rewritten (htouches.jumps hplain .nil)
  -- the first line end is still in place
  rw [hw] at hwhole
  obtain ⟨-, hcons⟩ := List.cons.inj hwhole
  obtain ⟨u, more, rfl, hu⟩ := (hcons ▸ hnumbers).newline hk
  obtain ⟨v, left', heq, hv⟩ := htouches.newline hu
  obtain rfl : first = v := (List.cons.inj heq).1
  rw [Numbering.jumpsFrom_newline hk, Numbering.labelsFrom_newline hk,
    Numbering.jumpsFrom_newline hv] at hrows
  have hvalues : ∀ t ∈ left, t.kind = .labelJump → t.value ≠ [] := by
    intro t ht hj
    obtain ⟨n, -, hn⟩ := hs.targets t (List.mem_cons_of_mem _ ht) (by rw [hj]; rfl)
    rw [hn]
    exact Text.ofInt_ne_nil n
  have hleft : (Render.rowsFrom [] left).map jumps = jumpsFrom [] left :=
    Render.map_jumps_rowsFrom hvalues
  refine ⟨by simp [Compiled.Headed, hparsed', hv], by simp [hp.reported, hinfos, Numbering.infosFrom, hk], ?_⟩
  rw [rows, hparsed', List.drop_succ_cons, List.drop_succ_cons, List.drop_zero, hleft]
  cases hrows with
  | line _ more => exact more

end Compile

end ClassicBasic
