import ClassicBasic.Classic.Line
import ClassicBasic.Proofs.Reading
import Mathlib.Data.List.Chain

/-!
# References between classic lines

A number refers to a line where it stands behind a branch keyword, with nothing but line numbers and
commas between them. The reader turns these numbers into jumps and leaves all other pieces as they
are. It takes lines as long as each of them starts with a number greater than the one before.
-/

set_option autoImplicit false

namespace ClassicBasic

namespace Piece

/-- The line number in a piece, if it is one. -/
def lineNumber? (p : Piece) : Option Int := (Text.readInt p.text).toOption

/-- Whether a list of line numbers goes on over the piece: a line number or a comma. -/
def isListed (p : Piece) : Bool :=
  match p.kind with
  | .jump => false
  | .number => p.lineNumber?.isSome
  | _ => p.text == ","

/-- Whether the pieces in front of a place, last one first, lead to a line number: a branch keyword
and nothing but line numbers and commas behind it. -/
def leads (before : List Piece) : Bool := (before.dropWhile isListed).head?.any (·.kind == .jump)

/-- The line that a piece refers to behind the pieces `before`, last one first. -/
def referenceBehind (before : List Piece) (p : Piece) : Option Int :=
  if leads before ∧ p.kind = .number then p.lineNumber? else none

def reference (code : List Piece) (i : Nat) : Option Int :=
  code[i]?.bind (referenceBehind (code.take i).reverse)

theorem leads_cons (p : Piece) (before : List Piece) :
    leads (p :: before) = (p.kind == .jump || (isListed p && leads before)) := by
  unfold leads
  rw [List.dropWhile_cons]
  cases hl : p.isListed with
  | true =>
    have hk : (p.kind == .jump) = false := by
      rw [beq_eq_false_iff_ne]
      intro hk
      simp [isListed, hk] at hl
    rw [if_pos rfl, hk, Bool.false_or, Bool.true_and]
  | false => simp

/-- A piece in a line that is marked: a jump, if it refers to a line. -/
def marked (number : Int) (p : Piece) : Option Int → Piece
  | none => p
  | some target =>
    { kind := .labelJump, text := NumberedLine.jumpText number target, gap := p.gap,
      target := some target }

/-- What the reader of a text may find: no jump yet, made of characters of the text, and a separator
as what it is. -/
structure Found (t : Text) (f : Face) : Prop where
  kind : f.1 ≠ .labelJump
  ne_nil : f.2 ≠ []
  text : f.2 ⊆ t
  separator : f.1 = .separator → f.2 = [':']

def Raw (t : Text) (p : Piece) : Prop := Found t p.face ∧ p.target = none

variable {d : Dialect} {c : Char} {rest t : Text}

theorem Found.mono {u : Text} {f : Face} (h : Found t f) (hu : t ⊆ u) : Found u f :=
  ⟨h.kind, h.ne_nil, List.Subset.trans h.text hu, h.separator⟩

theorem noted_found {mark : Text} (hm : mark ⊆ t) (hn : mark ≠ []) (hr : rest ⊆ t) :
    ∀ f ∈ noted mark rest, Found t f := by
  have hmark : Found t (.remark, mark) := ⟨by simp, hn, hm, by simp⟩
  unfold noted
  split
  · simpa using hmark
  · rename_i hne
    have htext : Found t (.remarkText, rest) := ⟨by simp, hne, hr, by simp⟩
    simp [hmark, htext]

theorem word_found (d : Dialect) (c : Char) (rest : Text) : (word d c rest).1 ≠ .labelJump ∧
    ((word d c rest).1 = .separator → c :: rest.take (word d c rest).2 = [':']) := by
  unfold word
  dsimp only
  by_cases hkey : 0 < keywordLength d (c :: rest)
  · -- a keyword has the kind that the grammar gives it
    have htake : c :: rest.take (keywordLength d (c :: rest) - 1) =
        (c :: rest).take (keywordLength d (c :: rest)) := by
      obtain ⟨n, hn⟩ := Nat.exists_eq_add_of_lt hkey
      rw [hn, Nat.zero_add, Nat.add_sub_cancel, List.take_succ_cons]
    rw [if_pos hkey, htake]
    cases hk : d.classify ((c :: rest).take (keywordLength d (c :: rest))) with
    | none => simp
    | some k =>
      have hread := Dialect.isRead_of_classify hk
      refine ⟨fun hj => ?_, fun hs => ?_⟩
      · obtain rfl : k = .labelJump := hj
        cases hread
      · obtain rfl : k = .separator := hs
        exact Dialect.accepts_separator hk
  rw [if_neg hkey]
  generalize (if (c.isDigit || c == '.' || c == '&') = true then
    numberLength d [] 0 (c :: rest) else 0) = number
  split
  · simp
  split
  · simp
  by_cases hc : c = ':'
  · simp [hc]
  · simp [hc]

theorem trimBlank_subset (t : Text) : Text.trimBlank t ⊆ t := by
  intro x hx
  unfold Text.trimBlank Text.trimBoth Text.trimEnd at hx
  have hmem := (List.dropWhile_sublist _).subset (List.mem_reverse.1 hx)
  exact (List.dropWhile_sublist _).subset (List.mem_reverse.1 hmem)

theorem step_found : ∀ f ∈ (step d c rest).faces, Found (c :: rest) f := by
  have htake (n : Nat) : c :: rest.take n ⊆ c :: rest :=
    List.cons_subset_cons c (List.take_subset n rest)
  have hdrop (n : Nat) : rest.drop n ⊆ c :: rest :=
    List.Subset.trans (List.drop_subset n rest) (List.subset_cons_self c rest)
  by_cases hq : c = '"'
  · subst hq
    by_cases hmem : '"' ∈ rest
    · obtain ⟨body, left, rfl, hb⟩ := List.eq_append_cons_of_mem hmem
      rw [step_closed d hb, List.forall_mem_singleton]
      exact ⟨by simp, by simp, by simp, by simp⟩
    · rw [step_unclosed d hmem, List.forall_mem_singleton]
      exact ⟨by simp, by simp, by simp, by simp⟩
  by_cases hs : c = '\''
  · subst hs
    rw [step_sign]
    exact noted_found (by simp) (by simp) (hdrop 0)
  by_cases hr : startsWith "REM" (c :: rest) = true
  · rw [step_remark d hq hs hr]
    exact noted_found (htake 2) (by simp) (hdrop 2)
  by_cases hd : startsWith "DATA" (c :: rest) = true
  · rw [step_data d hq hs hr hd, List.forall_mem_cons]
    refine ⟨⟨by simp, by simp, htake 3, by simp⟩, fun f hf => ?_⟩
    simp only [fielded] at hf
    split at hf
    · simp at hf
    · rename_i hne
      rw [List.mem_singleton.1 hf]
      have hitems := List.Subset.trans (isPrefix_dataItems false (rest.drop 3)).subset (hdrop 3)
      exact ⟨by simp, hne, List.Subset.trans (trimBlank_subset _) hitems, by simp⟩
  · have hword : StartsWord c rest := ⟨hq, hs, hr, hd⟩
    obtain ⟨hkind, hsep⟩ := word_found d c rest
    rw [step_word d hword, List.forall_mem_singleton]
    exact ⟨hkind, by simp, htake _, hsep⟩

theorem pieces_raw {gap : Bool} {faces : List Face} (h : ∀ f ∈ faces, Found t f) :
    ∀ p ∈ pieces gap faces, Raw t p := by
  cases faces with
  | nil => simp [pieces]
  | cons f more =>
    rw [List.forall_mem_cons] at h
    rw [pieces, List.forall_mem_cons]
    refine ⟨⟨h.1, rfl⟩, fun p hp => ?_⟩
    obtain ⟨f', hf', rfl⟩ := List.mem_map.1 hp
    exact ⟨h.2 f' hf', rfl⟩

theorem scan_raw (d : Dialect) (gap : Bool) (t : Text) : ∀ p ∈ scan d gap t, Raw t p := by
  induction t using step_induction d generalizing gap with
  | nil => simp [scan_nil]
  | gap c rest hc ih =>
    rw [scan_gap hc]
    exact fun p hp => (ih true p hp).imp (·.mono (List.subset_cons_self c rest)) id
  | step c rest hc ih =>
    rw [scan_step hc]
    intro p hp
    rcases List.mem_append.1 hp with hp | hp
    · exact pieces_raw step_found p hp
    · have hleft := (step_left_suffix d c rest).subset
      exact (ih false p hp).imp
        (·.mono (List.Subset.trans hleft (List.subset_cons_self c rest))) id

end Piece

namespace NumberedLine

open Piece (leads leads_cons referenceBehind reference marked isListed lineNumber?)

variable {number : Int} {p : Piece} {before code : List Piece}

theorem markJumps_behind (number : Int) (p : Piece) (before rest : List Piece) :
    markJumps number (leads before) (p :: rest) =
      marked number p (referenceBehind before p) :: markJumps number (leads (p :: before)) rest := by
  have hcomma (hn : p.kind ≠ .number) (hj : p.kind ≠ .jump) : p.isListed = (p.text == ",") := by
    unfold isListed
    split
    · exact absurd ‹_› hj
    · exact absurd ‹_› hn
    · rfl
  rw [markJumps, leads_cons, referenceBehind]
  by_cases hj : p.kind = .jump
  · simp [hj, marked]
  rw [if_neg hj, beq_eq_false_iff_ne.2 hj, Bool.false_or]
  cases leads before with
  | false => simp [marked]
  | true =>
    by_cases hn : p.kind = .number
    · have hlist : p.isListed = p.lineNumber?.isSome := by simp [isListed, hn]
      rw [hlist]
      cases hread : Text.readInt p.text <;>
        simp [hn, hread, marked, lineNumber?, Except.toOption]
    · rw [hcomma hn hj]
      by_cases ht : p.text = ","
      · simp [hn, ht, marked]
      · rw [if_neg (by simp [hn]), if_neg fun h => ht h.2, beq_eq_false_iff_ne.2 ht]
        simp [hn, marked]

theorem getElem?_markJumps (number : Int) (before code : List Piece) (i : Nat) :
    (markJumps number (leads before) code)[i]? =
      code[i]?.map fun p => marked number p
        (referenceBehind ((code.take i).reverse ++ before) p) := by
  induction code generalizing before i with
  | nil => simp [markJumps]
  | cons p rest ih =>
    rw [markJumps_behind]
    cases i with
    | zero => simp
    | succ i =>
      rw [List.getElem?_cons_succ, List.getElem?_cons_succ, ih]
      simp

theorem getElem?_markJumps_line (number : Int) (code : List Piece) (i : Nat) :
    (markJumps number false code)[i]? =
      code[i]?.map fun p => marked number p (reference code i) := by
  rw [show false = leads [] from rfl, getElem?_markJumps, List.append_nil]
  cases hp : code[i]? with
  | none => rfl
  | some p => simp [reference, hp]

theorem marked_of_reference (number : Int) {i : Nat} {target : Int}
    (h : reference code i = some target) :
    ∃ p, (markJumps number false code)[i]? = some p ∧ p.kind = .labelJump ∧
      p.text = jumpText number target ∧ p.target = some target := by
  obtain ⟨p, hp, -⟩ := Option.bind_eq_some_iff.1 h
  exact ⟨_, by rw [getElem?_markJumps_line, hp, h, Option.map_some, marked], rfl, rfl, rfl⟩

theorem head_unmarked {t : Text} (hraw : ∀ p ∈ code, Piece.Raw t p) (before : List Piece)
    (hl : leads before = false) :
    ∀ q ∈ (markJumps number (leads before) code).head?, q.kind ≠ .labelJump := by
  cases code with
  | nil => simp [markJumps]
  | cons p rest =>
    have href : referenceBehind before p = none := by simp [referenceBehind, hl]
    rw [markJumps_behind, href]
    simpa [marked] using show p.kind ≠ .labelJump from (hraw p List.mem_cons_self).1.kind

theorem isChain_markJumps {t : Text} (hraw : ∀ p ∈ code, Piece.Raw t p) (before : List Piece) :
    (markJumps number (leads before) code).IsChain
      fun p q => p.kind = .separator → q.kind ≠ .labelJump := by
  induction code generalizing before with
  | nil => simp [markJumps]
  | cons p rest ih =>
    rw [List.forall_mem_cons] at hraw
    rw [markJumps_behind, List.isChain_cons]
    refine ⟨fun q hq hk => head_unmarked hraw.2 _ ?_ q hq, ih hraw.2 _⟩
    cases href : referenceBehind before p with
    | some n =>
      rw [href] at hk
      cases hk
    | none =>
      rw [href, marked] at hk
      have htext : p.text = [':'] := hraw.1.1.separator hk
      rw [leads_cons]
      simp [isListed, hk, htext]

/-- The lines that a line jumps to are those that its pieces refer to. -/
theorem mem_jumps_iff {t : Text} {pos : Position} {target : Int}
    (hraw : ∀ p ∈ code, Piece.Raw t p) :
    target ∈ jumps ⟨number, pos, markJumps number false code⟩ ↔
      ∃ i, reference code i = some target := by
  rw [jumps, List.mem_filterMap]
  constructor
  · rintro ⟨p, hp, ht⟩
    obtain ⟨i, hi⟩ := List.mem_iff_getElem?.1 hp
    rw [getElem?_markJumps_line] at hi
    obtain ⟨q, hq, rfl⟩ := Option.map_eq_some_iff.1 hi
    refine ⟨i, ?_⟩
    cases hr : reference code i with
    | none =>
      rw [hr] at ht
      rw [marked, (hraw q (List.mem_of_getElem? hq)).2] at ht
      cases ht
    | some n =>
      rw [hr] at ht
      exact ht
  · rintro ⟨i, hi⟩
    obtain ⟨p, hp, -, -, ht⟩ := marked_of_reference number hi
    exact ⟨p, List.mem_of_getElem? hp, ht⟩

end NumberedLine

theorem Text.readInt_nonneg {t : Text} {n : Int} (ht : t.head? ≠ some '-') (h : Text.readInt t = .ok n) :
    ∃ m : Nat, n = m := by
  have hsign : (Text.splitSign t).1 = false := by
    unfold Text.splitSign
    split
    · exact absurd rfl ht
    · rfl
    · rfl
  unfold Text.readInt at h
  simp only [hsign] at h
  split at h
  · cases h
  · cases hread : Text.natInBase 10 0 (Text.splitSign t).2 with
    | error e =>
      rw [hread] at h
      cases h
    | ok m =>
      rw [hread] at h
      change Text.signedWord false m = .ok n at h
      rw [Text.signedWord, if_neg (by decide)] at h
      split at h
      · cases h
        exact ⟨m, rfl⟩
      · cases h

namespace Line

/-- Whether there is nothing but white space on the line. -/
def isBlank (l : Line) : Bool := Text.trimBlank l.text == []

def numeral (l : Line) : Text := (Text.trimBlank l.text).takeWhile Text.isDecimalDigit

/-- The line number that the line starts with, if it is a valid one. -/
def number? (l : Line) : Option Int := (Text.readInt l.numeral).toOption

def pieces (d : Dialect) (l : Line) : List Piece :=
  Piece.scan d false ((Text.trimBlank l.text).drop l.numeral.length)

/-- Where the line starts. -/
def start (l : Line) : Position := .onLine l.number 1 l.text l.file

/-- The line as it is numbered `n`. -/
def numbered (d : Dialect) (l : Line) (n : Int) : NumberedLine :=
  { number := n, pos := l.start, code := NumberedLine.markJumps n false (l.pieces d) }

/-- Whether a line cannot stand behind the lines `before`: it has no valid number, or one that is not
greater than that of the line in front. -/
def OutOfOrder (before : List Line) (l : Line) : Prop :=
  ∀ n ∈ l.number?, ∃ p ∈ before.getLast?, ∃ m ∈ p.number?, n ≤ m

variable {d : Dialect} {l : Line} {before : List Line} {n : Int}

theorem pieces_raw (d : Dialect) (l : Line) : ∀ p ∈ l.pieces d, Piece.Raw l.text p := by
  intro p hp
  have hcode := List.Subset.trans (List.drop_subset l.numeral.length _)
    (Piece.trimBlank_subset l.text)
  exact (Piece.scan_raw d false _ p hp).imp (·.mono hcode) id

theorem readInt_numeral (h : l.number? = some n) : Text.readInt l.numeral = .ok n := by
  unfold number? at h
  cases hread : Text.readInt l.numeral <;> rw [hread] at h <;> cases h
  rfl

theorem number?_nonneg (h : l.number? = some n) : 0 ≤ n := by
  have hsign : l.numeral.head? ≠ some '-' := by
    intro hs
    obtain ⟨rest, hrest⟩ := List.head?_eq_some_iff.1 hs
    have hmem : '-' ∈ l.numeral := hrest ▸ List.mem_cons_self
    exact absurd (List.mem_takeWhile_imp hmem) (by decide)
  obtain ⟨m, rfl⟩ := Text.readInt_nonneg hsign (readInt_numeral h)
  exact Int.natCast_nonneg m

/-- The number of the last of some lines; no line has a smaller one. -/
def lastNumber (before : List Line) : Int := (before.getLast?.bind number?).getD (-1)

theorem outOfOrder_iff : OutOfOrder before l ↔ ∀ n ∈ l.number?, n ≤ lastNumber before := by
  unfold OutOfOrder lastNumber
  refine forall₂_congr fun n hn => ?_
  have hpos := number?_nonneg hn
  cases before.getLast? with
  | none => simp; omega
  | some p => cases hp : p.number? <;> simp [hp]; omega

theorem lastNumber_append (before : List Line) (h : l.number? = some n) :
    lastNumber (before ++ [l]) = n := by
  simp [lastNumber, h]

end Line

namespace NumberedLine

open Line (OutOfOrder lastNumber)

variable {d : Dialect} {seen ls : List Line} {l : Line} {lines : List NumberedLine} {f : Failure}

theorem read_eq (d : Dialect) (last : Int) (l : Line) :
    read d last l =
      if l.isBlank then .ok none
      else if l.numeral = [] then .error (.located .lineNumberMissing l.start)
      else
        match Text.readInt l.numeral with
        | .error _ => .error (.located (.lineNumberInvalid l.numeral) l.start)
        | .ok n =>
          if n ≤ last then .error (.located (.lineNumberOrder n) l.start)
          else .ok (some (l.numbered d n)) := by
  unfold read Line.isBlank
  simp only [beq_iff_eq]
  rfl

theorem read_blank {last : Int} (h : l.isBlank = true) : read d last l = .ok none := by
  rw [read_eq, if_pos h]

theorem read_ok {last n : Int} (hb : l.isBlank = false) (hn : l.number? = some n) (h : last < n) :
    read d last l = .ok (some (l.numbered d n)) := by
  have hread := Line.readInt_numeral hn
  have hnil : l.numeral ≠ [] := by
    intro hnil
    rw [hnil] at hread
    cases hread
  rw [read_eq, hb, if_neg Bool.false_ne_true, if_neg hnil, hread]
  exact if_neg (by omega)

theorem read_error {last : Int} (hb : l.isBlank = false) (h : ∀ n ∈ l.number?, n ≤ last) :
    ∃ cause, read d last l = .error (.located cause l.start) := by
  rw [read_eq, hb, if_neg Bool.false_ne_true]
  split
  · exact ⟨_, rfl⟩
  cases hread : Text.readInt l.numeral with
  | error e => exact ⟨_, rfl⟩
  | ok n => exact ⟨_, if_pos (h n (by rw [Line.number?, hread]; rfl))⟩

/-- The lines that are not blank. -/
def written (ls : List Line) : List Line := ls.filter fun l => !l.isBlank

/-- Lines that are accepted behind the lines `seen` are all in order. -/
theorem readAll_ok (h : (readAll d (lastNumber seen) ls).outcome = .ok lines) :
    List.Forall₂ (fun l line => ∃ n, l.number? = some n ∧ line = l.numbered d n) (written ls) lines ∧
      (lastNumber seen :: lines.map number).IsChain (· < ·) ∧
      ∀ before l after, written ls = before ++ l :: after → ¬OutOfOrder (seen ++ before) l := by
  induction ls generalizing seen lines with
  | nil =>
    cases h
    exact ⟨.nil, .singleton _, fun before l after h => by simp [written] at h⟩
  | cons l ls ih =>
    rw [readAll] at h
    cases hb : l.isBlank with
    | true =>
      rw [read_blank hb] at h
      have hwritten : written (l :: ls) = written ls := by simp [written, hb]
      rw [hwritten]
      exact ih h
    | false =>
      have hwritten : written (l :: ls) = l :: written ls := by simp [written, hb]
      by_cases horder : OutOfOrder seen l
      · obtain ⟨cause, hread⟩ := read_error (d := d) hb (Line.outOfOrder_iff.1 horder)
        rw [hread] at h
        cases h
      obtain ⟨n, hn, hlt⟩ : ∃ n, l.number? = some n ∧ lastNumber seen < n := by
        simpa [Line.outOfOrder_iff] using horder
      rw [read_ok hb hn hlt] at h
      obtain ⟨more, hmore, rfl⟩ := Outcome.map_eq_ok_iff.1 h
      rw [show (l.numbered d n).number = n from rfl, ← Line.lastNumber_append seen hn]
        at hmore
      obtain ⟨hreads, hchain, hnone⟩ := ih hmore
      rw [hwritten]
      rw [Line.lastNumber_append seen hn] at hchain
      refine ⟨.cons ⟨n, hn, rfl⟩ hreads, .cons_cons hlt hchain, fun before l' after heq => ?_⟩
      cases before with
      | nil =>
        cases heq
        simpa using horder
      | cons first before =>
        obtain ⟨rfl, hrest⟩ := List.cons.inj heq
        simpa using hnone before l' after hrest

theorem readAll_error (h : (readAll d (lastNumber seen) ls).outcome = .error f) :
    ∃ before l after cause, written ls = before ++ l :: after ∧ OutOfOrder (seen ++ before) l ∧
      (∀ b l' a, before = b ++ l' :: a → ¬OutOfOrder (seen ++ b) l') ∧
      f = .located cause l.start := by
  induction ls generalizing seen with
  | nil => cases h
  | cons l ls ih =>
    rw [readAll] at h
    cases hb : l.isBlank with
    | true =>
      rw [read_blank hb] at h
      have hwritten : written (l :: ls) = written ls := by simp [written, hb]
      rw [hwritten]
      exact ih h
    | false =>
      have hwritten : written (l :: ls) = l :: written ls := by simp [written, hb]
      rw [hwritten]
      by_cases horder : OutOfOrder seen l
      · obtain ⟨cause, hread⟩ := read_error (d := d) hb (Line.outOfOrder_iff.1 horder)
        rw [hread] at h
        cases h
        exact ⟨[], l, written ls, cause, rfl, by simpa using horder, by simp, rfl⟩
      obtain ⟨n, hn, hlt⟩ : ∃ n, l.number? = some n ∧ lastNumber seen < n := by
        simpa [Line.outOfOrder_iff] using horder
      rw [read_ok hb hn hlt] at h
      have hmore : (readAll d (lastNumber (seen ++ [l])) ls).outcome = .error f := by
        rw [Line.lastNumber_append seen hn]
        have hmap : (readAll d n ls).outcome.map (l.numbered d n :: ·) = .error f := h
        cases hread : (readAll d n ls).outcome <;> rw [hread] at hmap <;> cases hmap
        rfl
      obtain ⟨before, l', after, cause, heq, hout, hin, hf⟩ := ih hmore
      refine ⟨l :: before, l', after, cause, by rw [heq, List.cons_append], by simpa using hout,
        fun b l'' a hb' => ?_, hf⟩
      cases b with
      | nil =>
        cases hb'
        simpa using horder
      | cons first b =>
        cases hb'
        simpa using hin b l'' a rfl

end NumberedLine

end ClassicBasic
