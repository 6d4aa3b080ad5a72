import ClassicBasic.Proofs.Captured
import ClassicBasic.Proofs.Sealed
import ClassicBasic.Proofs.Stages

/-!
# Remark blocks stay whole

A remark block is read as a start, lines of text and an end, and it has its lines to itself. The
stages in front of the third one take tokens from a line and put others there, never across the end
of a line, so a block is still whole where the third stage turns it into remarks, and nothing but
its text is in it. Along the way nothing gets behind the end of the program.
-/

set_option autoImplicit false

namespace ClassicBasic

namespace Kind

def isBlock : Kind → Bool
  | .blockRemark | .blockText | .blockEnd => true
  | _ => false

def goesOn : Kind → Bool
  | .blockRemark | .blockText => true
  | _ => false

def isWithin : Kind → Bool
  | .blockText | .blockEnd => true
  | _ => false

def isInner (k : Kind) : Bool := !k.isBlock && k != .newline && k != .eof

/-- Whether a token of one kind may be followed by one of another: a block goes on to its end, it
starts and ends with a line, and nothing follows the end of the program. -/
def leads (k next : Kind) : Bool :=
  k != .eof && k.goesOn == next.isWithin && (next != .blockRemark || k == .newline) &&
    (k != .blockEnd || next == .newline || next == .eof)

variable {k next : Kind}

theorem newline_leads : newline.leads next = !next.isWithin := by
  cases h : next.isWithin <;> simp [leads, goesOn, h]

theorem isBlock_of_isWithin (h : next.isBlock = false) : next.isWithin = false := by
  cases next <;> first | rfl | cases h

theorem blockText_or_blockEnd (h : k.isWithin = true) : k = .blockText ∨ k = .blockEnd := by
  cases k <;> first | exact .inl rfl | exact .inr rfl | cases h

theorem isBlock_of_isInner (h : k.isInner = true) : k.isBlock = false := by
  cases k <;> first | rfl | cases h

/-- Behind a line end or code anything but a part of a block may stand. -/
theorem leads_of_isBlock (hk : k = .newline ∨ k.isInner = true) (hn : next.isBlock = false) :
    k.leads next = true := by
  have hwithin := isBlock_of_isWithin hn
  have hremark : next ≠ .blockRemark := by
    rintro rfl
    cases hn
  rcases hk with rfl | hk
  · simp [newline_leads, hwithin]
  · have hgoes : k.goesOn = false := by cases k <;> first | rfl | cases hk
    have hend : k ≠ .blockEnd ∧ k ≠ .eof := by constructor <;> rintro rfl <;> cases hk
    simp [leads, hwithin, hremark, hgoes, hend.1, hend.2]

theorem blockText_leads (h : next.isWithin = true) : blockText.leads next = true := by
  cases next <;> first | rfl | cases h

theorem blockRemark_leads (h : next.isWithin = true) : blockRemark.leads next = true := by
  cases next <;> first | rfl | cases h

theorem isBlock_of_leads (h : k.leads next = true) (hk : k.isInner = true) :
    next.isBlock = false := by
  have hgoes : k.goesOn = false := by cases k <;> first | rfl | cases hk
  have hnewline : k ≠ .newline := by rintro rfl; cases hk
  cases next <;> first | rfl | simp [leads, hgoes, isWithin, hnewline] at h

theorem open_of_leads (h : k.leads next = true) (hn : next.isInner = true) :
    k = .newline ∨ k.isInner = true := by
  have hwithin : next.isWithin = false := by cases next <;> first | rfl | cases hn
  have hnext : next ≠ .newline ∧ next ≠ .eof := by constructor <;> rintro rfl <;> cases hn
  cases k <;> first | exact .inr rfl | exact .inl rfl |
    simp [leads, goesOn, hwithin, hnext.1, hnext.2] at h

theorem isInner_of_ne (h : k.isBlock = false) (hn : k ≠ .newline) (he : k ≠ .eof) :
    k.isInner = true := by
  simp [isInner, h, hn, he]

end Kind

def Token.Leads (t u : Token) : Prop := t.kind.leads u.kind = true

/-- Whether all blocks in a list of tokens are whole, and nothing follows the end of the program. -/
def Whole (l : List Token) : Prop := l.IsChain Token.Leads

namespace Lexer

open Glyph (Marked Over)

variable {d : Dialect} {closing : Nat} {input : List Glyph}

theorem whole_of_isInner {l : List Token} (h : ∀ t ∈ l, t.kind.isInner = true) : Whole l := by
  induction l with
  | nil => exact List.isChain_nil
  | cons t rest ih =>
    obtain ⟨ht, hrest⟩ := List.forall_mem_cons.1 h
    refine (ih hrest).cons fun u hu => ?_
    have hinner := hrest u (List.mem_of_mem_head? hu)
    exact Kind.leads_of_isBlock (.inr ht) (Kind.isBlock_of_isInner hinner)

theorem blockLines_whole {opener : Token} {read : List Token × List Glyph} (hm : Marked input)
    (h : blockLines closing opener input = .ok read) :
    Whole read.1 ∧ (∀ u ∈ read.1.head?, u.kind.isWithin = true) ∧
      (∃ u ∈ read.1.getLast?, u.kind = .blockEnd) ∧ Over read.2 := by
  fun_induction blockLines closing opener input generalizing read with
  | case1 input =>
    cases h
    have hover := Glyph.restOfLine_over hm
    dsimp only
    split
    · exact ⟨List.isChain_singleton _, by rintro u ⟨⟩; rfl, ⟨_, rfl, rfl⟩, hover⟩
    · exact ⟨List.isChain_pair.2 rfl, by rintro u ⟨⟩; rfl, ⟨_, rfl, rfl⟩, hover⟩
  | case2 => cases h
  | case3 input _ _ _ next hn =>
    rename_i ih
    obtain ⟨more, hmore, rfl⟩ := Outcome.map_eq_ok_iff.1 h
    have hnext := (hm.suffix (Glyph.restOfLine_suffix input)).suffix (Glyph.nextLine_suffix hn)
    obtain ⟨hwhole, hhead, ⟨u, hlast, hk⟩, hover⟩ := ih hnext hmore
    refine ⟨hwhole.cons fun v hv => ?_, by rintro u ⟨⟩; rfl, ⟨u, ?_, hk⟩, hover⟩
    · exact Kind.blockText_leads (hhead v hv)
    · simp [List.getLast?_cons, Option.mem_def.1 hlast]

theorem classify_blockRemark {v : Text} (h : d.classify v = some .blockRemark) : v = "''" := by
  obtain ⟨r, hr, hk, ha⟩ := Dialect.classify_rule h
  have hall : ∀ r ∈ d.grammar, r.kind = .blockRemark → r.shape = .words ["''"] [] := by
    cases d <;> decide
  rw [hall r hr hk] at ha
  simp only [Shape.accepts, List.any_cons, List.any_nil, Bool.or_false] at ha
  exact Text.eq_of_sameLetters (by decide) ha

theorem isInner_of_isRead {k : Kind} (h : k.isRead = true) (hb : k ≠ .blockRemark)
    (hn : k ≠ .newline) : k.isInner = true := by
  cases k <;> first | rfl | exact absurd rfl hb | exact absurd rfl hn | cases h

theorem isInner_of_isName {k : Kind} {v : Text} (hv : Grammar.isName false v = true)
    (hk : d.classify v = some k) : k.isInner = true := by
  refine isInner_of_isRead (Dialect.isRead_of_classify hk) ?_ ?_
  · rintro rfl
    rw [classify_blockRemark hk] at hv
    exact absurd hv (by decide)
  · rintro rfl
    obtain ⟨hne, hall⟩ := Dialect.accepts_newline hk
    obtain ⟨c, rest, rfl⟩ := List.exists_cons_of_ne_nil hne
    rw [hall c List.mem_cons_self] at hv
    exact absurd (Grammar.isName_chars hv _ List.mem_cons_self) (by decide)

/-- Whether tokens may be read behind one of kind `last` with `input` left of the listing. -/
def Follows (last : Kind) (input : List Glyph) : Prop :=
  last = .newline ∨ last.isInner = true ∨ (last = .blockEnd ∧ Over input)

theorem Follows.leads_eof {last : Kind} (h : Follows last input) : last.leads .eof = true := by
  rcases h with rfl | h | ⟨rfl, -⟩
  · rfl
  · exact Kind.leads_of_isBlock (.inr h) rfl
  · rfl

/-- The kind of the last token of what was read, or of the token before it. -/
def lastKind (last : Kind) (read : List Token) : Kind := (read.getLast?.map Token.kind).getD last

/-- What is read for one token is code, a line end, or all of a block that starts a line. -/
theorem complete_cases {last : Kind} {t : Token} {read : List Token × List Glyph}
    (hm : Marked input) (ht : d.classify t.value = some t.kind)
    (h : complete d closing last t input = .ok read) :
    ((∀ u ∈ read.1, u.kind.isInner = true) ∧ t.kind ≠ .newline) ∨
      (read.1 = [t] ∧ t.kind = .newline) ∨
      (last = .newline ∧ Whole read.1 ∧ (∀ u ∈ read.1.head?, u.kind = .blockRemark) ∧
        (∃ u ∈ read.1.getLast?, u.kind = .blockEnd) ∧ Over read.2) := by
  have hread := Dialect.isRead_of_classify ht
  unfold complete at h
  split at h
  case h_1 hk =>
    refine .inl ⟨?_, by simp [hk]⟩
    split at h
    · rename_i symbol name hsplit
      cases h
      obtain ⟨rfl, hv⟩ := splitToggle_eq hsplit
      have htag := hv ▸ hk ▸ ht
      obtain ⟨k, hn⟩ := classify_name htag
      have hinner := isInner_of_isName (Dialect.accepts_toggle htag) hn
      simpa only [List.forall_mem_cons, hn, Option.getD_some] using ⟨rfl, hinner, by simp⟩
    · cases h
      simp [hk, Kind.isInner, Kind.isBlock]
  case h_2 hk =>
    split at h
    · rename_i hlast
      unfold block at h
      split at h
      · cases h
      · rename_i start hstart
        obtain ⟨more, hmore, rfl⟩ := Outcome.map_eq_ok_iff.1 h
        obtain ⟨hwhole, hhead, ⟨u, hu, hend⟩, hover⟩ :=
          blockLines_whole (hm.suffix (blockStart_suffix hstart)) hmore
        refine .inr (.inr ⟨hlast, ?_⟩)
        rw [if_pos hk]
        refine ⟨hwhole.cons fun v hv => ?_, by rintro v ⟨⟩; exact hk, ⟨u, ?_, hend⟩, hover⟩
        · rw [Token.Leads, hk]
          exact Kind.blockRemark_leads (hhead v hv)
        · simp [List.getLast?_cons, Option.mem_def.1 hu]
    · cases h
      exact .inl ⟨by simp [Kind.isInner, Kind.isBlock], by simp [hk]⟩
  case h_3 hk =>
    refine .inl ⟨?_, by simp [hk]⟩
    split at h
    · unfold block at h
      split at h
      · cases h
      · obtain ⟨more, -, rfl⟩ := Outcome.map_eq_ok_iff.1 h
        simp [hk]
    · cases h
      simp
  case h_4 hk =>
    cases h
    exact .inl ⟨by simp, by simp [hk]⟩
  case h_5 hk =>
    cases h
    refine .inl ⟨?_, by simp [hk]⟩
    dsimp only
    split <;> simp [hk, Kind.isInner, Kind.isBlock]
  case h_6 hk =>
    cases h
    exact .inl ⟨by simp [Kind.isInner, Kind.isBlock], by simp [hk]⟩
  case h_7 hk =>
    cases h
    refine .inl ⟨List.forall_mem_cons.2 ⟨by simp [hk, Kind.isInner, Kind.isBlock], fun u hu => ?_⟩,
      by simp [hk]⟩
    rcases dataFields_kind closing input u hu with hu | ⟨hu, -⟩ <;>
      simp [hu, Kind.isInner, Kind.isBlock]
  case h_8 hb _ _ _ _ _ =>
    cases h
    by_cases hn : t.kind = .newline
    · exact .inr (.inl ⟨rfl, hn⟩)
    · exact .inl ⟨by simpa using isInner_of_isRead hread hb hn, hn⟩

/-- What is read for one token may stand where it does, and more may be read behind it. -/
theorem complete_whole {last : Kind} {t : Token} {read : List Token × List Glyph}
    (hm : Marked input) (ht : d.classify t.value = some t.kind)
    (hl : last = .newline ∨ last.isInner = true ∨ (last = .blockEnd ∧ t.kind = .newline))
    (h : complete d closing last t input = .ok read) :
    Whole read.1 ∧ (∀ u ∈ read.1.head?, last.leads u.kind = true) ∧
      Follows (lastKind last read.1) read.2 := by
  rcases complete_cases hm ht h with ⟨hinner, hn⟩ | ⟨hone, hn⟩ | ⟨rfl, hwhole, hhead, hend, hover⟩
  · have hl : last = .newline ∨ last.isInner = true := by
      rcases hl with hl | hl | ⟨-, hl⟩
      exacts [.inl hl, .inr hl, absurd hl hn]
    refine ⟨whole_of_isInner hinner, fun u hu => ?_, ?_⟩
    · exact Kind.leads_of_isBlock hl
        (Kind.isBlock_of_isInner (hinner u (List.mem_of_mem_head? hu)))
    · cases hlast : read.1.getLast? with
      | none =>
        rw [lastKind, hlast]
        exact hl.imp_right .inl
      | some u =>
        rw [lastKind, hlast]
        exact .inr (.inl (hinner u (List.mem_of_mem_getLast? hlast)))
  · rw [hone]
    refine ⟨List.isChain_singleton t, ?_, .inl hn⟩
    rintro u ⟨⟩
    rw [hn]
    rcases hl with rfl | hl | ⟨rfl, -⟩
    · rfl
    · exact Kind.leads_of_isBlock (.inr hl) rfl
    · rfl
  · refine ⟨hwhole, fun u hu => by rw [hhead u hu]; rfl, .inr (.inr ⟨?_, hover⟩)⟩
    obtain ⟨u, hu, hk⟩ := hend
    rw [lastKind, Option.mem_def.1 hu]
    exact hk

/-- What is lexed is whole, and it may stand behind the token before it. -/
theorem lexFrom_whole {last : Kind} {tokens : List Token} (hm : Marked input)
    (hl : Follows last input) (h : lexFrom d closing last input = .ok tokens) :
    Whole tokens ∧ ∀ u ∈ tokens.head?, last.leads u.kind = true := by
  fun_induction lexFrom d closing last input generalizing tokens with
  | case1 =>
    cases h
    exact ⟨List.isChain_singleton _, by rintro u ⟨⟩; exact hl.leads_eof⟩
  | case2 =>
    cases h
    exact ⟨List.isChain_singleton _, by rintro u ⟨⟩; exact hl.leads_eof⟩
  | case3 => cases h
  | case4 last g rest _ t left hscan hk ih =>
    have hleft := (hm.suffix (List.suffix_cons g rest)).suffix (scan_suffix hscan)
    refine ih hleft ?_ h
    rcases hl with hl | hl | ⟨-, hover⟩
    · exact .inl hl
    · exact .inr (.inl hl)
    · have hn := scan_over (hover g rfl) hscan
      rw [hn] at hk
      cases hk
  | case5 => cases h
  | case6 => cases h
  | case7 last g rest _ t left hscan _ _ read left' hc last' =>
    rename_i ih
    obtain ⟨more, hmore, rfl⟩ := Outcome.map_eq_ok_iff.1 h
    have hleft := (hm.suffix (List.suffix_cons g rest)).suffix (scan_suffix hscan)
    have hl' : last = .newline ∨ last.isInner = true ∨ (last = .blockEnd ∧ t.kind = .newline) :=
      hl.imp_right (.imp_right fun ho => ⟨ho.1, scan_over (ho.2 g rfl) hscan⟩)
    obtain ⟨hwhole, hhead, hnext⟩ := complete_whole hleft (scan_classified hscan) hl' hc
    obtain ⟨htail, hstart⟩ := ih (hleft.suffix (complete_suffix hc)) hnext hmore
    refine ⟨hwhole.append htail fun u hu v hv => ?_, fun u hu => ?_⟩
    · have hlast : last' = u.kind := by simp [last', Option.mem_def.1 hu]
      have := hstart v hv
      rwa [hlast] at this
    · cases read with
      | nil => exact hstart u hu
      | cons w read => exact hhead u hu

theorem lex_whole {listing : Listing} {tokens : List Token} (h : lex d listing = .ok tokens) :
    Whole tokens := by
  unfold lex at h
  split at h
  · rename_i first _ _
    obtain ⟨more, hm, rfl⟩ := Outcome.map_eq_ok_iff.1 h
    obtain ⟨hwhole, hhead⟩ := lexFrom_whole (Glyph.flatMap_marked _) (.inl rfl) hm
    have hline : Whole (⟨.newline, [Glyph.endMark], Glyph.place (Glyph.ofLine first)⟩ :: more) :=
      hwhole.cons hhead
    exact hline.cons (by rintro u ⟨⟩; rfl)
  · cases h

end Lexer

end ClassicBasic
